import TakyonDb.Lib.Writes
import TakyonDb.Replay
import TakyonDb.SnapshotLoad

namespace TakyonDb.Recovery

open Lib Layout Replay Snapshot

def align8 (v : ℕ) : ℕ := (v + 7) / 8 * 8

def setBump (offset v : ℕ) (arenaMem : Bytes) : Bytes :=
  if offset + 4 ≤ arenaMem.length then writeU32 arenaMem offset v else arenaMem

/-- Writes the three bump words and clears the ring. -/
def finalize (r : Regions) (recMax artMax strMax : ℕ) (arenaMem : Bytes) : Bytes :=
  let arenaMem := setBump r.recordBumpOffset (align8 (max recMax r.recordStart.toNat)) arenaMem
  let arenaMem := setBump r.artBumpOffset (align8 (max artMax r.artStart)) arenaMem
  let arenaMem := setBump r.stringStart.toNat (align8 (max strMax r.stringDataStart)) arenaMem
  if ringOffset ≤ r.recordBumpOffset ∧ r.recordBumpOffset ≤ arenaMem.length then
    overwrite arenaMem ringOffset (zeros (r.recordBumpOffset - ringOffset))
  else arenaMem

def resetIndex (r : Regions) (arenaMem : Bytes) : Bytes :=
  if arenaMem.length < r.artEnd then arenaMem
  else setBump r.artBumpOffset r.artStart (overwrite arenaMem r.artRoot.toNat (zeros r.artBytes.toNat))

/-- The record that the operation binds its key to is one that the log holds. -/
def Described (r : Regions) (recMax : ℕ) (op : IndexOp) : Prop :=
  r.recordStart.toNat ≤ op.value.toNat ∧ op.value.toNat < recMax

instance (r : Regions) (recMax : ℕ) (op : IndexOp) : Decidable (Described r recMax op) :=
  inferInstanceAs (Decidable (_ ∧ _))

def readWord (arenaMem : Bytes) (offset fallback : ℕ) : ℕ :=
  if arenaMem.length < offset + 4 then fallback else readU32 arenaMem offset

/-- What recovery starts from before it reads the log: the maxima of a
loaded snapshot, clamped to the arena, or the bare region starts. -/
def seedMaxima (r : Regions) (loaded : Option SnapshotMeta) (arenaMem : Bytes) : Recovered :=
  match loaded with
  | none => ⟨resetIndex r arenaMem, r.recordStart.toNat, r.artStart, r.stringDataStart, [], {}⟩
  | some snap =>
    let stop i := ((snap.extents[i]?).map Extent.stop).getD 0
    let recMax := max r.recordStart.toNat
      (max (readWord arenaMem r.recordBumpOffset r.recordStart.toNat) (stop 1))
    let artMax := max (max (readWord arenaMem r.artBumpOffset r.artStart) (stop 2)) r.artStart
    let strMax := max (max (readWord arenaMem r.stringStart.toNat r.stringDataStart) (stop 3))
      r.stringDataStart
    ⟨arenaMem, min recMax arenaMem.length, min artMax arenaMem.length, min strMax arenaMem.length, [], {}⟩

/-- The bump words lie apart from each other and from what they hand out. -/
theorem words_apart {r : Regions} {n : ℕ} (h : Layout.Valid r n) (hroom : r.artStart ≤ r.stringStart.toNat) :
    ringOffset ≤ r.recordBumpOffset ∧ r.recordBumpOffset + 8 ≤ r.recordStart.toNat ∧
      r.recordStart.toNat ≤ r.artRoot.toNat ∧ r.artBumpOffset + 4 = r.artStart ∧
      r.artRoot.toNat + 8 = r.artStart ∧ r.artStart ≤ r.stringStart.toNat ∧
      r.stringStart.toNat + 8 = r.stringDataStart ∧ r.stringDataStart ≤ r.stringEnd ∧
      r.stringEnd ≤ n ∧ n < 2 ^ 32 := by
  have hrecord := h.recordEnd_le
  have hbytes := h.string_bytes
  rw [Regions.recordEnd] at hrecord
  refine ⟨Nat.le_add_right _ _, h.record, by omega, rfl, rfl, hroom, rfl, ?_, h.stringEnd_le,
    h.arena ▸ r.arenaBytes.toNat_lt⟩
  rw [Regions.stringDataStart, Regions.stringEnd]
  omega

theorem setBump_eq {mem : Bytes} {offset : ℕ} (h : offset + 4 ≤ mem.length) (v : ℕ) :
    setBump offset v mem = writeU32 mem offset v := if_pos h

theorem length_resetIndex (r : Regions) (mem : Bytes) : (resetIndex r mem).length = mem.length := by
  rw [resetIndex]
  split_ifs with hsmall
  · rfl
  · have hlen : (overwrite mem r.artRoot.toNat (zeros r.artBytes.toNat)).length = mem.length := by
      rw [Regions.artEnd] at hsmall
      exact length_overwrite (by rw [length_zeros]; omega)
    rw [setBump]
    split_ifs with hin
    · rw [length_writeU32 hin, hlen]
    · exact hlen

/-- The writes of `finalize`: three words and the blank ring. -/
def stamps (r : Regions) (recMax artMax strMax : ℕ) : List (Write UInt8) :=
  [⟨r.recordBumpOffset, leEncode 4 (align8 (max recMax r.recordStart.toNat))⟩,
    ⟨r.artBumpOffset, leEncode 4 (align8 (max artMax r.artStart))⟩,
    ⟨r.stringStart.toNat, leEncode 4 (align8 (max strMax r.stringDataStart))⟩,
    ⟨ringOffset, zeros (r.recordBumpOffset - ringOffset)⟩]

/-- The bump words lie behind the header and inside the arena. -/
theorem words_inside {r : Regions} {n : ℕ} (h : Layout.Valid r n) :
    ringOffset ≤ r.recordBumpOffset ∧ r.recordBumpOffset + 8 ≤ r.artRoot.toNat ∧
      r.artBumpOffset = r.artRoot.toNat + 4 ∧ r.artRoot.toNat ≤ r.stringStart.toNat ∧
      r.stringStart.toNat + 8 ≤ n := by
  have hrecord := h.record
  have hrecordEnd := h.recordEnd_le
  have hart := h.artEnd_le
  have hbytes := h.string_bytes
  have hstring := h.stringEnd_le
  rw [Regions.recordEnd] at hrecordEnd
  rw [Regions.artEnd] at hart
  rw [Regions.stringEnd] at hstring
  exact ⟨Nat.le_add_right _ _, by omega, rfl, by omega, by omega⟩

theorem stamps_fit {r : Regions} {n : ℕ} (h : Layout.Valid r n) (recMax artMax strMax : ℕ) :
    ∀ w ∈ stamps r recMax artMax strMax, w.Fits n := by
  obtain ⟨h₁, h₂, h₃, h₄, h₅⟩ := words_inside h
  simp only [stamps, List.forall_mem_cons, Write.Fits, length_leEncode, length_zeros, List.not_mem_nil,
    false_implies, implies_true, and_true]
  omega

theorem finalize_eq {r : Regions} {mem : Bytes} (h : Layout.Valid r mem.length) (recMax artMax strMax : ℕ) :
    finalize r recMax artMax strMax mem = applyWrites (stamps r recMax artMax strMax) mem := by
  obtain ⟨h₁, h₂, h₃, h₄, h₅⟩ := words_inside h
  rw [finalize, stamps]
  generalize align8 (max recMax r.recordStart.toNat) = rec at *
  generalize align8 (max artMax r.artStart) = art at *
  generalize align8 (max strMax r.stringDataStart) = str at *
  have hlen₁ : (writeU32 mem r.recordBumpOffset rec).length = mem.length := length_writeU32 (by omega) _
  have hlen₂ : (writeU32 (writeU32 mem r.recordBumpOffset rec) r.artBumpOffset art).length = mem.length := by
    rw [length_writeU32 (by omega), hlen₁]
  have hlen₃ : (writeU32 (writeU32 (writeU32 mem r.recordBumpOffset rec) r.artBumpOffset art)
      r.stringStart.toNat str).length = mem.length := by
    rw [length_writeU32 (by omega), hlen₂]
  rw [setBump_eq (show r.recordBumpOffset + 4 ≤ mem.length by omega),
    setBump_eq (show r.artBumpOffset + 4 ≤ (writeU32 mem r.recordBumpOffset rec).length by omega),
    setBump_eq (show r.stringStart.toNat + 4 ≤
      (writeU32 (writeU32 mem r.recordBumpOffset rec) r.artBumpOffset art).length by omega), if_pos (by omega)]
  simp only [applyWrites, List.foldl_cons, List.foldl_nil, writeU32]

/-- The bump words after recovery. -/
theorem finalize_words {r : Regions} {mem : Bytes} (h : Layout.Valid r mem.length)
    (hroom : r.artStart ≤ r.stringStart.toNat) (recMax artMax strMax : ℕ)
    (hrec : align8 (max recMax r.recordStart.toNat) < 2 ^ 32) (hart : align8 (max artMax r.artStart) < 2 ^ 32)
    (hstr : align8 (max strMax r.stringDataStart) < 2 ^ 32) :
    (finalize r recMax artMax strMax mem).length = mem.length ∧
    readU32 (finalize r recMax artMax strMax mem) r.recordBumpOffset =
      align8 (max recMax r.recordStart.toNat) ∧
    readU32 (finalize r recMax artMax strMax mem) r.artBumpOffset = align8 (max artMax r.artStart) ∧
    readU32 (finalize r recMax artMax strMax mem) r.stringStart.toNat =
      align8 (max strMax r.stringDataStart) := by
  obtain ⟨h₁, h₂, h₃, h₄, h₅, h₆, h₇, h₈, h₉, -⟩ := words_apart h hroom
  have hfit := stamps_fit h recMax artMax strMax
  have hread : ∀ word v, v < 2 ^ 32 → (∀ i < 4, lastWrite (stamps r recMax artMax strMax) (word + i) =
      (leEncode 4 v)[i]?) → readU32 (finalize r recMax artMax strMax mem) word = v := by
    intro word v hv hlast
    have hslice : slice (finalize r recMax artMax strMax mem) word 4 = leEncode 4 v := by
      apply List.ext_getElem?
      intro i
      rw [getElem?_slice, finalize_eq h, getElem?_applyWrites hfit]
      split_ifs with hi
      · rw [hlast i hi]
        rw [List.getElem?_eq_getElem (by rwa [length_leEncode])]
        rfl
      · rw [List.getElem?_eq_none (by rw [length_leEncode]; omega)]
    rw [readU32, hslice, leDecode_leEncode_of_lt hv]
  have hat : ∀ (w : Write UInt8) (x : ℕ), w.at x =
      if w.offset ≤ x ∧ x < w.offset + w.content.length then w.content[x - w.offset]? else none := by
    intro w x
    split_ifs with hx
    · rw [Write.at, if_pos hx.1]
    · exact Write.at_eq_none.mpr (by omega)
  refine ⟨by rw [finalize_eq h, length_applyWrites hfit], hread _ _ hrec fun i hi ↦ ?_,
    hread _ _ hart fun i hi ↦ ?_, hread _ _ hstr fun i hi ↦ ?_⟩ <;>
  simp only [lastWrite, stamps, List.foldl_cons, List.foldl_nil, hat, length_leEncode, length_zeros]
  · rw [if_neg (by omega), if_neg (by omega), if_neg (by omega), if_pos (by omega), Nat.add_sub_cancel_left]
    simp
  · rw [if_neg (by omega), if_neg (by omega), if_pos (by omega), if_neg (by omega), Nat.add_sub_cancel_left]
    simp
  · rw [if_neg (by omega), if_pos (by omega), if_neg (by omega), if_neg (by omega), Nat.add_sub_cancel_left]
    simp

end TakyonDb.Recovery
