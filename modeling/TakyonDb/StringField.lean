import TakyonDb.StringAlloc

namespace TakyonDb.Proxy

open Lib Layout Exports Set

/-- The space of a string. The bump word advances even where the region has no room for it. -/
def grantString (r : Regions) (strLen : ℕ) (mem : Bytes) : ℕ × Bytes :=
  let mem := seedString r mem
  let allocatedOffset := readU32 mem r.stringStart.toNat
  (allocatedOffset, writeU32 mem r.stringStart.toNat ((allocatedOffset + strLen) % 2 ^ 32))

def copyString (r : Regions) (value mem : Bytes) : Option ℕ × Bytes :=
  let (allocatedOffset, mem) := grantString r value.length mem
  if r.stringEnd < allocatedOffset + value.length then (none, mem)
  else (some allocatedOffset, overwrite mem allocatedOffset value)

def pointString (abs allocatedOffset strLen : ℕ) (mem : Bytes) : Bytes :=
  writeU32 (writeU32 mem abs allocatedOffset) (abs + 4) strLen

/-- The arena after a string field is set, and whether the call came to the field: it throws where
the region is full and where the bytes cannot be announced. -/
def setString (r : Regions) (abs : ℕ) (value : Bytes) (announced : Bool) (mem : Bytes) : Bool × Bytes :=
  if mem.length ≤ r.stringDataStart then (false, mem)
  else
    match copyString r value mem with
    | (none, mem) => (false, mem)
    | (some allocatedOffset, mem) =>
      if announced then (true, pointString abs allocatedOffset value.length mem) else (false, mem)

/-- What a client reads from a string field; `none` where the pointer is refused as corrupt. -/
def readString (mem : Bytes) (abs : ℕ) : Option Bytes :=
  let strOffset := readU32 mem abs
  let strLen := readU32 mem (abs + 4)
  if strOffset = 0 ∧ strLen = 0 then some []
  else if mem.length < strOffset + strLen then none
  else some (slice mem strOffset strLen)

variable {r : Regions} {mem mem' value : Bytes} {abs off : ℕ}

theorem changesOnly_grantString (hr : Valid r mem.length) (n : ℕ) :
    ChangesOnly (bumpSpan r) mem (grantString r n mem).2 := by
  have hin := (stringEnd_le hr).2
  have hdata : r.stringDataStart = r.stringStart.toNat + 8 := rfl
  have hseed := changesOnly_seedString hr
  have hfit : r.stringStart.toNat + 4 ≤ (seedString r mem).length := by
    rw [hseed.length_eq]
    omega
  exact hseed.trans ((changesOnly_writeU32 hfit _).mono (Ico_subset_Ico_right (by omega)))

/-- Either the region has no room, and only its bump word moved, or the string lies where the bump pointed. -/
theorem copyString_cases (hr : Valid r mem.length) (value : Bytes) :
    (∃ mem', copyString r value mem = (none, mem') ∧ ChangesOnly (bumpSpan r) mem mem') ∨
      ∃ mem', copyString r value mem = (some (stringBump r mem), mem') ∧
        stringBump r mem + value.length ≤ r.stringEnd ∧
        ChangesOnly (bumpSpan r ∪ Ico (stringBump r mem) (stringBump r mem + value.length)) mem mem' ∧
        slice mem' (stringBump r mem) value.length = value := by
  have hstop := (stringEnd_le hr).1
  have hgrant := changesOnly_grantString hr value.length
  have hoff : (grantString r value.length mem).1 = stringBump r mem := rfl
  by_cases hroom : r.stringEnd < stringBump r mem + value.length
  · left
    exact ⟨_, if_pos hroom, hgrant⟩
  · right
    have hfit : stringBump r mem + value.length ≤ (grantString r value.length mem).2.length := by
      rw [hgrant.length_eq]
      omega
    refine ⟨_, if_neg hroom, not_lt.mp hroom, ?_, ?_⟩
    · exact (hgrant.mono subset_union_left).trans ((changesOnly_overwrite hfit).mono subset_union_right)
    · exact slice_overwrite_self hfit

theorem changesOnly_pointString (hfit : abs + 8 ≤ mem.length) (off n : ℕ) :
    ChangesOnly (Ico abs (abs + 8)) mem (pointString abs off n mem) := by
  have hfirst : abs + 4 ≤ mem.length := by omega
  have hch := changesOnly_writeU32 hfirst off
  have hsecond : abs + 4 + 4 ≤ (writeU32 mem abs off).length := by
    rw [hch.length_eq]
    omega
  exact (hch.mono (Ico_subset_Ico_right (by omega))).trans
    ((changesOnly_writeU32 hsecond n).mono (Ico_subset_Ico (by omega) (by omega)))

theorem readU32_pointString {n : ℕ} (hfit : abs + 8 ≤ mem.length) (hoff : off < 2 ^ 32) (hn : n < 2 ^ 32) :
    readU32 (pointString abs off n mem) abs = off ∧ readU32 (pointString abs off n mem) (abs + 4) = n := by
  have hfirst : abs + 4 ≤ mem.length := by omega
  have hlength := length_writeU32 hfirst off
  have hsecond : abs + 4 + 4 ≤ (writeU32 mem abs off).length := by omega
  refine ⟨?_, readU32_writeU32_self hsecond hn⟩
  rw [pointString, (changesOnly_writeU32 hsecond n).readU32 (disjoint_Ico (.inl (by omega))),
    readU32_writeU32_self hfirst hoff]

/-- A field that points to its string reads it. -/
theorem readString_eq {n : ℕ} (hoff : readU32 mem abs = off) (hlen : readU32 mem (abs + 4) = n) (hpos : 0 < off)
    (hfit : off + n ≤ mem.length) : readString mem abs = some (slice mem off n) := by
  rw [readString, hoff, hlen, if_neg (by omega), if_neg (by omega)]

theorem readString_unset (hoff : readU32 mem abs = 0) (hlen : readU32 mem (abs + 4) = 0) :
    readString mem abs = some [] := by
  rw [readString, hoff, hlen, if_pos ⟨rfl, rfl⟩]

/-- A change of other bytes than those of the pointer and of its string. -/
theorem readString_frame {d : Set ℕ} (h : ChangesOnly d mem mem') (hpointer : Disjoint (Ico abs (abs + 8)) d)
    (hbytes : Disjoint (Ico (readU32 mem abs) (readU32 mem abs + readU32 mem (abs + 4))) d) :
    readU32 mem' abs = readU32 mem abs ∧ readU32 mem' (abs + 4) = readU32 mem (abs + 4) ∧
      readString mem' abs = readString mem abs := by
  have hoff := h.readU32 (hpointer.mono_left (Ico_subset_Ico_right (by omega : abs + 4 ≤ abs + 8)))
  have hlen := h.readU32 (hpointer.mono_left (Ico_subset_Ico (by omega : abs ≤ abs + 4) (by omega : abs + 4 + 4 ≤ abs + 8)))
  refine ⟨hoff, hlen, ?_⟩
  rw [readString, readString, hoff, hlen, h.slice hbytes, h.length_eq]

/-- A call throws and leaves no trace but for the bump and the space that it granted, or sets the field. -/
theorem setString_cases (hr : Valid r mem.length) (abs : ℕ) (value : Bytes) (announced : Bool) :
    (∃ mem', setString r abs value announced mem = (false, mem') ∧
      (ChangesOnly (bumpSpan r) mem mem' ∨ stringBump r mem + value.length ≤ r.stringEnd ∧
        ChangesOnly (bumpSpan r ∪ Ico (stringBump r mem) (stringBump r mem + value.length)) mem mem')) ∨
      ∃ copied, setString r abs value announced mem =
          (true, pointString abs (stringBump r mem) value.length copied) ∧
        stringBump r mem + value.length ≤ r.stringEnd ∧
        ChangesOnly (bumpSpan r ∪ Ico (stringBump r mem) (stringBump r mem + value.length)) mem copied ∧
        slice copied (stringBump r mem) value.length = value := by
  rw [setString]
  by_cases hsmall : mem.length ≤ r.stringDataStart
  · left
    exact ⟨mem, if_pos hsmall, .inl .rfl'⟩
  rw [if_neg hsmall]
  rcases copyString_cases hr value with ⟨m, hcopy, hch⟩ | ⟨m, hcopy, hroom, hch, hslice⟩
  · left
    exact ⟨m, by rw [hcopy], .inl hch⟩
  · rw [hcopy]
    cases announced with
    | false =>
      left
      exact ⟨m, rfl, .inr ⟨hroom, hch⟩⟩
    | true =>
      right
      exact ⟨m, rfl, hroom, hch, hslice⟩

end TakyonDb.Proxy
