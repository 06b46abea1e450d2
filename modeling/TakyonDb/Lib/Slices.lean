import TakyonDb.Lib.Memory

namespace TakyonDb.Lib

variable {buf : Bytes} {off : ℕ}

theorem slice_append_left {xs ys : Bytes} {off n : ℕ} (h : off + n ≤ xs.length) :
    slice (xs ++ ys) off n = slice xs off n := by
  rw [slice, slice, List.drop_append_of_le_length (by omega), List.take_append_of_le_length]
  simp only [List.length_drop]
  omega

theorem slice_append_right {xs ys : Bytes} {off n : ℕ} (h : xs.length = off) :
    slice (xs ++ ys) off n = ys.take n := by
  rw [slice, ← h, List.drop_left]

theorem slice_add (b : Bytes) (off m n : ℕ) : slice b off (m + n) = slice b off m ++ slice b (off + m) n := by
  rw [slice, slice, slice, ← List.drop_drop, List.take_add]

theorem slice_slice (b : Bytes) {off m at_ n : ℕ} (h : at_ + n ≤ m) :
    slice (slice b off m) at_ n = slice b (off + at_) n := by
  apply List.ext_getElem?
  intro i
  rw [getElem?_slice, getElem?_slice, getElem?_slice]
  split
  · rw [if_pos (by omega), Nat.add_assoc]
  · rfl

theorem slice_one (h : off < buf.length) : slice buf off 1 = [byteAt buf off] := by
  rw [slice, List.drop_eq_getElem_cons h, byteAt, List.getD_eq_getElem?_getD, List.getElem?_eq_getElem h]
  rfl

theorem byteAt_slice {m k : ℕ} (h : k < m) : byteAt (slice buf off m) k = byteAt buf (off + k) := by
  rw [byteAt, byteAt, List.getD_eq_getElem?_getD, List.getD_eq_getElem?_getD, getElem?_slice, if_pos h]

theorem byteAt_append_right {xs ys : Bytes} (h : xs.length ≤ off) :
    byteAt (xs ++ ys) off = byteAt ys (off - xs.length) := by
  rw [byteAt, byteAt, List.getD_append_right _ _ _ _ h]

theorem zeros_add (m n : ℕ) : zeros (m + n) = zeros m ++ zeros n := List.replicate_add m n 0

/-- Writing at the end of what is written so far. -/
theorem overwrite_append_at (pre rest src : Bytes) (hoff : off = pre.length) :
    overwrite (pre ++ rest) off src = (pre ++ src) ++ rest.drop src.length := by
  rw [overwrite, hoff, List.take_left, ← List.drop_drop, List.drop_left]

theorem drop_zeros (m n : ℕ) : (zeros m).drop n = zeros (m - n) := List.drop_replicate

theorem take_overwrite {src : Bytes} {n : ℕ} (h : n ≤ off) (hin : off ≤ buf.length) :
    (overwrite buf off src).take n = buf.take n := by
  rw [overwrite, List.append_assoc, List.take_append_of_le_length (by rw [List.length_take]; omega), List.take_take,
    min_eq_left h]

end TakyonDb.Lib
