import TakyonDb.Layout
import TakyonDb.Lib.Blocks
import TakyonDb.Wal

namespace TakyonDb.Replay

open Lib Layout Wal

structure IndexOp where
  key : Bytes
  value : UInt32
deriving DecidableEq

structure SegmentTally where
  segments : ℕ := 0
  sectors : ℕ := 0
  byteDeltas : ℕ := 0
  indexOps : ℕ := 0
  stoppedAtSector : Option ℕ := none
  stopReason : String := "end of file"
deriving DecidableEq

/-- What replay accumulates over the sectors and files it reads. -/
structure Recovered where
  arena : Bytes
  recMax : ℕ
  artMax : ℕ
  strMax : ℕ
  indexOps : List IndexOp := []
  tally : SegmentTally := {}
deriving DecidableEq

namespace Recovered

def addIndexOp (key : Bytes) (value : UInt32) (st : Recovered) : Recovered :=
  { st with
    indexOps := st.indexOps ++ [⟨key, value⟩]
    tally := { st.tally with indexOps := st.tally.indexOps + 1 } }

/-- Copies the payload into the arena and raises the maximum of the region
that the offset lies in. -/
def writeArena (regions : Regions) (offset : ℕ) (payload : Bytes) (st : Recovered) : Recovered :=
  let stop := offset + payload.length
  let st := { st with
    arena := overwrite st.arena offset payload
    tally := { st.tally with byteDeltas := st.tally.byteDeltas + 1 } }
  if offset < regions.artRoot.toNat then { st with recMax := max st.recMax stop }
  else if offset < regions.stringStart.toNat then { st with artMax := max st.artMax stop }
  else { st with strMax := max st.strMax stop }

def stopAt (sector : ℕ) (reason : String) (st : Recovered) : Recovered :=
  { st with tally := { st.tally with stoppedAtSector := some sector, stopReason := reason } }

def countSector (st : Recovered) : Recovered :=
  { st with tally := { st.tally with sectors := st.tally.sectors + 1 } }

def countSegment (st : Recovered) : Recovered :=
  { st with tally := { st.tally with segments := st.tally.segments + 1 } }

@[simp] theorem byteDeltas_writeArena (regions : Regions) (offset : ℕ) (payload : Bytes)
    (st : Recovered) :
    (st.writeArena regions offset payload).tally.byteDeltas = st.tally.byteDeltas + 1 := by
  simp only [writeArena]
  split_ifs <;> rfl

theorem recMax_writeArena {regions : Regions} {offset : ℕ} (h : offset < regions.artRoot.toNat)
    (payload : Bytes) (st : Recovered) :
    (st.writeArena regions offset payload).recMax = max st.recMax (offset + payload.length) := by
  simp only [writeArena, if_pos h]

end Recovered

/-- Why the scan of a sector stopped. -/
inductive Stop
  | atBoundary | midEntry | badLength | unknownKind
deriving DecidableEq

/-- How many bytes at the end of a sector go in front of the next one. -/
def carryTail (stop : Stop) (tail : Bytes) : ℕ :=
  if maxEntryLen + headerSize < tail.length then 0
  else if tail.length < minPadding then tail.length
  else if stop ≠ .atBoundary then tail.length
  else if tail.all (· == 0) then 0
  else tail.length

def carried (stop : Stop) (tail : Bytes) : Bytes := tail.drop (tail.length - carryTail stop tail)

/-- The entry loop over the carried bytes and one sector's payload. Returns
the bytes to carry. Each pass takes at least a header, so the number of
bytes is fuel enough. -/
def scanEntries (regions : Regions) (sectorIdx : ℕ) : ℕ → Bytes → Recovered → Recovered × Bytes
  | 0, _, st => (st, [])
  | fuel + 1, rest, st =>
    if rest.length = 0 then (st, [])
    else if rest.length < headerSize then (st, carried .atBoundary rest)
    else
      let header := WalEntryHeader.ofBytes rest
      let length := header.length.toNat
      if length = 0 then (st, [])
      else if maxEntryLen < length then (st, carried .badLength rest)
      else if maxEntryKind < header.kind then (st, carried .unknownKind rest)
      else if rest.length < headerSize + length then (st, carried .midEntry rest)
      else
        let payload := slice rest headerSize length
        let next := rest.drop (headerSize + length)
        if header.kind = EntryKind.indexOp.code then
          scanEntries regions sectorIdx fuel next (st.addIndexOp payload header.offset)
        else if st.arena.length < header.offset.toNat + length then
          (st.stopAt sectorIdx "entry extends past the arena", [])
        else
          scanEntries regions sectorIdx fuel next
            (st.writeArena regions header.offset.toNat payload)

def scanSector (regions : Regions) (sectorIdx : ℕ) (stream : Bytes) (st : Recovered) :
    Recovered × Bytes :=
  scanEntries regions sectorIdx stream.length stream st

def crcMatches (block : Bytes) : Bool :=
  (Crc32.hash (block.take sectorPayload)).toNat == leDecode (slice block sectorPayload 4)

/-- The sector loop: `leftover` is the tail carried out of the sector before. -/
def replaySectors (regions : Regions) : List Bytes → Bytes → ℕ → Recovered → Recovered
  | [], _, _, st => st
  | block :: blocks, leftover, sectorIdx, st =>
    let st := st.countSector
    if ¬ crcMatches block then st.stopAt sectorIdx "CRC mismatch"
    else
      let (st, leftover) :=
        scanSector regions (sectorIdx + 1) (leftover ++ block.take sectorPayload) st
      replaySectors regions blocks leftover (sectorIdx + 1) st

def replayOneSegment (regions : Regions) (file : Bytes) (st : Recovered) : Recovered :=
  replaySectors regions (blocksOf sectorSize file) [] 0 st

def replayWal (regions : Regions) (files : LogFiles UInt8) (st : Recovered) : Recovered :=
  files.replayWal (fun file st ↦ replayOneSegment regions file st.countSegment) st

end TakyonDb.Replay
