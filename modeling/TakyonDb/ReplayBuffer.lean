import TakyonDb.EntryFiles
import TakyonDb.Lib.Checked
import TakyonDb.Lib.Slices
import TakyonDb.Recovery

namespace TakyonDb.ReplayBuffer

open Lib Layout Wal Replay Recovery Framing

/-- The front of the buffer, where the tail of a split record goes. -/
abbrev carryRegion : ℕ := 3 * 4096

abbrev endIdx : ℕ := carryRegion + sectorPayload

abbrev bufferSize : ℕ := carryRegion + sectorSize

/-- How many bytes in front of `endIdx` go in front of the next sector. -/
def carryTail (stop : Stop) (buf : Bytes) (cursor : ℕ) : Option ℕ := do
  let tail ← Checked.subSize endIdx cursor
  if maxEntryLen + headerSize < tail then some 0
  else if tail < minPadding then some tail
  else if stop ≠ .atBoundary then some tail
  else
    let bytes ← Checked.range buf cursor endIdx
    some (if bytes.all (· == 0) then 0 else tail)

/-- Raises the maximum of the region that the offset lies in. -/
def raise (regions : Regions) (offset bounded : UInt32) (st : Recovered) : Recovered :=
  if offset < regions.artRoot then { st with recMax := max st.recMax bounded.toNat }
  else if offset < regions.stringStart then { st with artMax := max st.artMax bounded.toNat }
  else { st with strMax := max st.strMax bounded.toNat }

def countByteDelta (st : Recovered) : Recovered :=
  { st with tally := { st.tally with byteDeltas := st.tally.byteDeltas + 1 } }

/-- The entry loop from `cursor` on. Where the fuel runs out there is no result. -/
def scanEntries (regions : Regions) (sectorIdx : ℕ) (buf : Bytes) : ℕ → ℕ → Recovered → Option (Recovered × ℕ)
  | 0, _, _ => none
  | fuel + 1, cursor, st =>
    if endIdx ≤ cursor then some (st, 0)
    else do
      let available ← Checked.subSize endIdx cursor
      if available < headerSize then (carryTail .atBoundary buf cursor).map (st, ·)
      else
        let bytes ← Checked.range buf cursor (cursor + headerSize)
        let header := WalEntryHeader.ofBytes bytes
        let length := header.length.toNat
        if length = 0 then some (st, 0)
        else if maxEntryLen < length then (carryTail .badLength buf cursor).map (st, ·)
        else if maxEntryKind < header.kind then (carryTail .unknownKind buf cursor).map (st, ·)
        else if available < headerSize + length then (carryTail .midEntry buf cursor).map (st, ·)
        else
          let payload ← Checked.range buf (cursor + headerSize) (cursor + headerSize + length)
          if header.kind = EntryKind.indexOp.code then
            scanEntries regions sectorIdx buf fuel (cursor + (headerSize + length))
              (st.addIndexOp payload header.offset)
          else
            let endOffset := header.offset.toNat + length
            if st.arena.length < endOffset then some (st.stopAt sectorIdx "entry extends past the arena", 0)
            else
              let arena ← Checked.copyForwards st.arena header.offset.toNat endOffset payload
              let bounded ← Checked.intCast endOffset
              scanEntries regions sectorIdx buf fuel (cursor + (headerSize + length))
                (raise regions header.offset bounded (countByteDelta { st with arena := arena }))

/-- What the sector loop keeps: the buffer, how much of its front is carried, the number of the sector and what is
recovered. -/
structure Loop where
  buf : Bytes
  leftoverLen : ℕ
  sectorIdx : ℕ
  st : Recovered

def replaySectors (regions : Regions) : List Bytes → Loop → Option Loop
  | [], l => some l
  | block :: blocks, l => do
    let buf ← Checked.copyForwards l.buf carryRegion bufferSize block
    let st := l.st.countSector
    let payload ← Checked.range buf carryRegion endIdx
    let expected ← Checked.range buf endIdx (endIdx + 4)
    if (Crc32.hash payload).toNat ≠ leDecode expected then
      some { l with buf := buf, st := st.stopAt l.sectorIdx "CRC mismatch" }
    else
      let startIdx ← Checked.subSize carryRegion l.leftoverLen
      let (st, carryLen) ← scanEntries regions (l.sectorIdx + 1) buf (bufferSize + 1) startIdx st
      if 0 < carryLen then
        let tailStart ← Checked.subSize endIdx carryLen
        let front ← Checked.subSize carryRegion carryLen
        let tail ← Checked.range buf tailStart endIdx
        let buf ← Checked.copyForwards buf front carryRegion tail
        replaySectors regions blocks ⟨buf, carryLen, l.sectorIdx + 1, st⟩
      else replaySectors regions blocks ⟨buf, 0, l.sectorIdx + 1, st⟩

def start (buf : Bytes) (st : Recovered) : Loop := ⟨buf, 0, 0, st⟩

def replayOneSegment (regions : Regions) (buf file : Bytes) (st : Recovered) : Option Recovered :=
  (replaySectors regions (blocksOf sectorSize file) (start buf st)).map Loop.st

def replayWal (regions : Regions) (buf : Bytes) (files : LogFiles UInt8) (st : Recovered) : Option Recovered :=
  files.replayWal (fun file st ↦ st.bind fun st ↦ replayOneSegment regions buf file st.countSegment) (some st)

def align8 (v : UInt32) : Option UInt32 := Checked.alignForward v

/-- A bump word inside the arena is set to the higher of two ends, rounded up. -/
def setBump (offset : ℕ) (stop : UInt32) (first : ℕ) (arenaMem : Bytes) : Option Bytes :=
  if offset + 4 ≤ arenaMem.length then do
    let first ← Checked.intCast first
    let v ← align8 (max stop first)
    Checked.copyForwards arenaMem offset (offset + 4) (leEncode 4 v.toNat)
  else some arenaMem

def finalize (r : Regions) (recMax artMax strMax : UInt32) (arenaMem : Bytes) : Option Bytes := do
  let arenaMem ← setBump r.recordBumpOffset recMax r.recordStart.toNat arenaMem
  let arenaMem ← setBump r.artBumpOffset artMax r.artStart arenaMem
  let arenaMem ← setBump r.stringStart.toNat strMax r.stringDataStart arenaMem
  if ringOffset ≤ r.recordBumpOffset ∧ r.recordBumpOffset ≤ arenaMem.length then
    Checked.copyForwards arenaMem ringOffset r.recordBumpOffset (zeros (r.recordBumpOffset - ringOffset))
  else some arenaMem

/-- The arena after the log files and the bump words; the maxima are words of 32 bits. -/
def recoverLog (r : Regions) (buf : Bytes) (files : LogFiles UInt8) (st : Recovered) : Option Bytes := do
  let st ← replayWal r buf files st
  let recMax ← Checked.intCast st.recMax
  let artMax ← Checked.intCast st.artMax
  let strMax ← Checked.intCast st.strMax
  finalize r recMax artMax strMax st.arena

section Scan

variable {r : Regions} {buf carry : Bytes} {sector cursor fuel len : ℕ} {st : Recovered} {stop : Stop}

theorem endIdx_le (hbuf : buf.length = bufferSize) : endIdx ≤ buf.length := by
  rw [hbuf]
  decide

/-- What the entry loop has still to read at `cursor`. -/
def rest (buf : Bytes) (cursor : ℕ) : Bytes := slice buf cursor (endIdx - cursor)

theorem length_rest (hbuf : buf.length = bufferSize)
    (h : cursor ≤ endIdx) : (rest buf cursor).length = endIdx - cursor := by
  have hend := endIdx_le hbuf
  exact length_slice (by omega)

theorem drop_rest (buf : Bytes) (cursor k : ℕ) : (rest buf cursor).drop k = rest buf (cursor + k) := by
  rw [rest, rest, slice, slice, List.drop_take, List.drop_drop, Nat.sub_sub]

theorem carryTail_le (stop : Stop) (tail : Bytes) :
    Replay.carryTail stop tail ≤ tail.length ∧ Replay.carryTail stop tail ≤ maxEntryLen + headerSize := by
  rw [Replay.carryTail]
  split_ifs <;> omega

/-- The bytes that a sector hands on: its last `len`, and no more than one entry can have. -/
structure Carry (stream carry : Bytes) (len : ℕ) : Prop where
  length : carry.length = len
  suffix : carry <:+ stream
  le : len ≤ maxEntryLen + headerSize

theorem Carry.nil (stream : Bytes) : Carry stream [] 0 := ⟨rfl, List.nil_suffix, Nat.zero_le _⟩

theorem Carry.carried (stop : Stop) (stream : Bytes) : Carry stream (carried stop stream)
    (Replay.carryTail stop stream) := by
  obtain ⟨hlength, hle⟩ := carryTail_le stop stream
  refine ⟨?_, List.drop_suffix _ _, hle⟩
  rw [Replay.carried, List.length_drop]
  omega

end Scan

section Sectors

variable {r : Regions} {buf block leftover stream carry : Bytes} {blocks : List Bytes} {n len : ℕ} {l : Loop}

/-- The carried bytes lie in front of the page that the next sector is read into. -/
structure Loop.Holds (n : ℕ) (leftover : Bytes) (l : Loop) : Prop where
  buf_length : l.buf.length = bufferSize
  arena : l.st.arena.length = n
  length : leftover.length = l.leftoverLen
  le : l.leftoverLen ≤ maxEntryLen + headerSize
  front : slice l.buf (carryRegion - l.leftoverLen) l.leftoverLen = leftover

theorem carryRegion_ge (h : len ≤ maxEntryLen + headerSize) : len ≤ carryRegion := h.trans (by decide)

/-- The tail is copied to where the next sector expects it. -/
theorem Loop.Holds.next (hbuf : buf.length = bufferSize) {start : ℕ} (hstart : start ≤ endIdx)
    (hcarry : Carry (rest buf start) carry len) (sector : ℕ) {st : Recovered} (harena : st.arena.length = n) :
    Checked.subSize endIdx len = some (endIdx - len) ∧ Checked.subSize carryRegion len = some (carryRegion - len) ∧
      Checked.range buf (endIdx - len) endIdx = some carry ∧
      Checked.copyForwards buf (carryRegion - len) carryRegion carry = some (overwrite buf (carryRegion - len) carry) ∧
      Loop.Holds n carry ⟨overwrite buf (carryRegion - len) carry, len, sector, st⟩ := by
  have hle := carryRegion_ge hcarry.le
  have hend : carryRegion ≤ endIdx := by decide
  have hin := endIdx_le hbuf
  have hstream := length_rest hbuf hstart
  have hshort := hcarry.suffix.length_le
  have hlength := hcarry.length
  have hfit : carryRegion - len + carry.length ≤ buf.length := by omega
  have htail : carry = slice buf (endIdx - len) (endIdx - (endIdx - len)) := by
    have hdrop := drop_rest buf start ((rest buf start).length - carry.length)
    rw [← List.suffix_iff_eq_drop.mp hcarry.suffix] at hdrop
    have hat : start + ((rest buf start).length - carry.length) = endIdx - len := by omega
    rw [hat, rest] at hdrop
    exact hdrop
  refine ⟨Checked.subSize_of_le (hle.trans hend), Checked.subSize_of_le hle, ?_, ?_, ?_⟩
  · rw [Checked.range_of_le (Nat.sub_le _ _) hin, ← htail]
  · exact Checked.copyForwards_of_le (by omega) (hend.trans hin)
  · refine ⟨(length_overwrite hfit).trans hbuf, harena, hlength, hcarry.le, ?_⟩
    have hself := slice_overwrite_self hfit
    rw [hlength] at hself
    exact hself

end Sectors

section Whole

variable {r : Regions} {buf file : Bytes} {files : LogFiles UInt8} {n bound : ℕ} {st : Recovered}

/-- No maximum is above the bound. -/
structure Below (bound : ℕ) (st : Recovered) : Prop where
  recMax : st.recMax ≤ bound
  artMax : st.artMax ≤ bound
  strMax : st.strMax ≤ bound

end Whole

section Finalize

variable {r : Regions} {mem : Bytes} {offset first : ℕ} {stop : UInt32}

theorem toNat_max (a b : UInt32) : (max a b).toNat = max a.toNat b.toNat := by
  have hmax : max a b = if a ≤ b then b else a := rfl
  rw [hmax, max_def]
  simp only [UInt32.le_iff_toNat_le]
  split_ifs <;> rfl

/-- Rounding up fits in a word exactly up to its last multiple of eight. -/
theorem align8_eq {stop first : UInt32} (u : UInt32) : align8 (max stop first) = some u ↔
    max stop.toNat first.toNat ≤ 2 ^ 32 - 8 ∧ u.toNat = Recovery.align8 (max stop.toNat first.toNat) := by
  have hlt := (max stop first).toNat_lt
  rw [align8, Checked.alignForward_eq_some, toNat_max] at *
  have hround : Checked.roundUp (max stop.toNat first.toNat) < 2 ^ 32 ↔ max stop.toNat first.toNat ≤ 2 ^ 32 - 8 := by
    rw [Checked.roundUp]
    omega
  rw [hround]
  rfl

end Finalize

section Log

variable {r : Regions} {buf : Bytes} {files : LogFiles UInt8} {st : Recovered}

/-- Replay of any file ends, and carries no more than an entry from any of its sectors; replay of the log files is
followed by bump words that do not overflow. -/
structure Within (r : Regions) (buf : Bytes) (files : LogFiles UInt8) (st : Recovered) : Prop where
  sectors : ∀ file st', st'.arena.length = st.arena.length → ∀ k, ∃ l,
    replaySectors r ((blocksOf sectorSize file).take k) (start buf st') = some l ∧
      l.leftoverLen ≤ maxEntryLen + headerSize ∧ l.leftoverLen ≤ carryRegion
  finalized : ∃ mem, recoverLog r buf files st = some mem

end Log

end TakyonDb.ReplayBuffer
