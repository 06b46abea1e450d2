import Mathlib.Data.List.GetD
import Mathlib.Order.CompletePartialOrder
import Mathlib.Order.Interval.Set.Disjoint
import TakyonDb.Lib.Writes

namespace TakyonDb.Lib

open Set

def byteAt (m : Bytes) (i : ℕ) : UInt8 := m.getD i 0

def setByte (m : Bytes) (i : ℕ) (b : UInt8) : Bytes := overwrite m i [b]

def readU16 (m : Bytes) (off : ℕ) : ℕ := leDecode (slice m off 2)

def writeU16 (m : Bytes) (off n : ℕ) : Bytes := overwrite m off (leEncode 2 n)

/-- `m'` is `m` except for what lies at the addresses of `s`. -/
structure ChangesOnly (s : Set ℕ) (m m' : Bytes) : Prop where
  length_eq : m'.length = m.length
  getElem?_eq : ∀ i ∉ s, m'[i]? = m[i]?

namespace ChangesOnly

variable {s t : Set ℕ} {m m' m'' : Bytes}

theorem rfl' : ChangesOnly s m m := ⟨rfl, fun _ _ ↦ rfl⟩

theorem mono (h : ChangesOnly s m m') (hst : s ⊆ t) : ChangesOnly t m m' :=
  ⟨h.length_eq, fun i hi ↦ h.getElem?_eq i fun hs ↦ hi (hst hs)⟩

theorem trans (h : ChangesOnly s m m') (h' : ChangesOnly s m' m'') : ChangesOnly s m m'' :=
  ⟨h'.length_eq.trans h.length_eq, fun i hi ↦ (h'.getElem?_eq i hi).trans (h.getElem?_eq i hi)⟩

theorem byteAt (h : ChangesOnly s m m') {i : ℕ} (hi : i ∉ s) : byteAt m' i = byteAt m i := by
  simp only [Lib.byteAt, List.getD_eq_getElem?_getD, h.getElem?_eq i hi]

theorem slice (h : ChangesOnly s m m') {off n : ℕ} (hd : Disjoint (Ico off (off + n)) s) :
    slice m' off n = slice m off n := by
  apply List.ext_getElem?
  intro i
  rw [getElem?_slice, getElem?_slice]
  split_ifs with hi
  · exact h.getElem?_eq _ (disjoint_left.mp hd ⟨by omega, by omega⟩)
  · rfl

theorem readU32 (h : ChangesOnly s m m') {off : ℕ} (hd : Disjoint (Ico off (off + 4)) s) :
    readU32 m' off = readU32 m off := by
  rw [Lib.readU32, h.slice hd, Lib.readU32]

theorem readU16 (h : ChangesOnly s m m') {off : ℕ} (hd : Disjoint (Ico off (off + 2)) s) :
    readU16 m' off = readU16 m off := by
  rw [Lib.readU16, h.slice hd, Lib.readU16]

end ChangesOnly

theorem disjoint_Ico {a b c d : ℕ} (h : b ≤ c ∨ d ≤ a) : Disjoint (Ico a b) (Ico c d) := by
  rw [disjoint_left]
  rintro i ⟨hai, hib⟩ ⟨hci, hid⟩
  omega

variable {m src : Bytes} {off at_ : ℕ}

theorem changesOnly_overwrite (h : off + src.length ≤ m.length) :
    ChangesOnly (Ico off (off + src.length)) m (overwrite m off src) where
  length_eq := length_overwrite h
  getElem?_eq i hi := by
    rw [getElem?_overwrite h]
    exact if_neg fun hin ↦ hi hin

/-- The same write to two memories: they agree on what was written. -/
theorem ChangesOnly.overwrite_both {s : Set ℕ} {m' : Bytes} (h : ChangesOnly s m m')
    (hfit : off + src.length ≤ m.length) :
    ChangesOnly (s \ Ico off (off + src.length)) (overwrite m off src) (overwrite m' off src) where
  length_eq := by
    rw [length_overwrite hfit, length_overwrite (by rwa [h.length_eq]), h.length_eq]
  getElem?_eq i hi := by
    rw [getElem?_overwrite hfit, getElem?_overwrite (by rwa [h.length_eq])]
    split_ifs with hin
    · rfl
    · exact h.getElem?_eq i fun his ↦ hi ⟨his, hin⟩

/-- The addresses that the writes reach. -/
def written (ws : List (Write UInt8)) : Set ℕ := {x | ∃ w ∈ ws, x ∈ Ico w.offset (w.offset + w.content.length)}

theorem lastWrite_eq_none_iff {ws : List (Write UInt8)} {x : ℕ} : lastWrite ws x = none ↔ x ∉ written ws := by
  constructor
  · rintro hnone ⟨w, hw, hx⟩
    obtain ⟨before, after, rfl⟩ := List.append_of_mem hw
    rw [← List.singleton_append, lastWrite_append, lastWrite_append, Option.or_eq_none_iff,
      Option.or_eq_none_iff, lastWrite_singleton, Write.at_eq_none] at hnone
    have := hx.1
    have := hx.2
    omega
  · intro hx
    refine lastWrite_eq_none fun w hw ↦ Write.at_eq_none.mpr ?_
    by_contra hin
    exact hx ⟨w, hw, by omega, by omega⟩

theorem changesOnly_applyWrites {ws : List (Write UInt8)} (h : ∀ w ∈ ws, w.Fits m.length) :
    ChangesOnly (written ws) m (applyWrites ws m) where
  length_eq := length_applyWrites h
  getElem?_eq i hi := by rw [getElem?_applyWrites h, lastWrite_eq_none_iff.mpr hi, Option.none_or]

/-- The same writes to two memories. -/
theorem ChangesOnly.applyWrites_both {s : Set ℕ} {m' : Bytes} {ws : List (Write UInt8)} (hch : ChangesOnly s m m')
    (h : ∀ w ∈ ws, w.Fits m.length) :
    ChangesOnly (s \ written ws) (applyWrites ws m) (applyWrites ws m') where
  length_eq := by rw [length_applyWrites h, length_applyWrites (by rwa [hch.length_eq]), hch.length_eq]
  getElem?_eq i hi := by
    rw [getElem?_applyWrites h, getElem?_applyWrites (by rwa [hch.length_eq])]
    cases hlast : lastWrite ws i with
    | some b => rfl
    | none => exact hch.getElem?_eq i fun his ↦ hi ⟨his, lastWrite_eq_none_iff.mp hlast⟩

theorem changesOnly_setByte (h : off < m.length) (b : UInt8) :
    ChangesOnly (Ico off (off + 1)) m (setByte m off b) := by
  have hfit : off + [b].length ≤ m.length := h
  exact changesOnly_overwrite hfit

theorem changesOnly_writeU16 (h : off + 2 ≤ m.length) (n : ℕ) :
    ChangesOnly (Ico off (off + 2)) m (writeU16 m off n) := by
  have hfit : off + (leEncode 2 n).length ≤ m.length := by rwa [length_leEncode]
  have hch := changesOnly_overwrite hfit
  rw [length_leEncode] at hch
  exact hch

theorem changesOnly_writeU32 (h : off + 4 ≤ m.length) (n : ℕ) :
    ChangesOnly (Ico off (off + 4)) m (writeU32 m off n) := by
  have hfit : off + (leEncode 4 n).length ≤ m.length := by rwa [length_leEncode]
  have hch := changesOnly_overwrite hfit
  rw [length_leEncode] at hch
  exact hch

@[simp] theorem byteAt_setByte_self (h : off < m.length) (b : UInt8) :
    byteAt (setByte m off b) off = b := by
  rw [byteAt, setByte, List.getD_eq_getElem?_getD, getElem?_overwrite (show off + 1 ≤ m.length from h)]
  simp

theorem readU16_writeU16_self (h : off + 2 ≤ m.length) {n : ℕ} (hn : n < 2 ^ 16) :
    readU16 (writeU16 m off n) off = n := by
  have hslice : slice (writeU16 m off n) off (leEncode 2 n).length = leEncode 2 n :=
    slice_overwrite_self (by rwa [length_leEncode])
  rw [length_leEncode] at hslice
  rw [readU16, hslice, leDecode_leEncode_of_lt (by omega)]

end TakyonDb.Lib
