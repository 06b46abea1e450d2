import Mathlib.Data.List.Basic
import Mathlib.Data.Nat.Basic
import Mathlib.Tactic.Ring

namespace TakyonDb.Lib

variable {α : Type}

abbrev Bytes := List UInt8

/-- The `n` elements that start at `off`; shorter when the list ends first. -/
def slice (b : List α) (off n : ℕ) : List α := (b.drop off).take n

/-- Copies `src` over the elements that start at `off`. -/
def overwrite (b : List α) (off : ℕ) (src : List α) : List α :=
  b.take off ++ src ++ b.drop (off + src.length)

theorem length_slice {b : List α} {off n : ℕ} (h : off + n ≤ b.length) :
    (slice b off n).length = n := by
  simp only [slice, List.length_take, List.length_drop]
  omega

theorem length_slice_le (b : List α) (off n : ℕ) : (slice b off n).length ≤ n := by
  simp only [slice, List.length_take]
  omega

theorem getElem?_slice (b : List α) (off n i : ℕ) :
    (slice b off n)[i]? = if i < n then b[off + i]? else none := by
  simp only [slice, List.getElem?_take, List.getElem?_drop]

@[simp] theorem length_overwrite {b : List α} {off : ℕ} {src : List α}
    (h : off + src.length ≤ b.length) : (overwrite b off src).length = b.length := by
  simp only [overwrite, List.length_append, List.length_take, List.length_drop]
  omega

@[simp] theorem overwrite_nil (b : List α) (off : ℕ) : overwrite b off [] = b := by
  simp [overwrite]

theorem getElem?_overwrite {b : List α} {off : ℕ} {src : List α}
    (h : off + src.length ≤ b.length) (i : ℕ) :
    (overwrite b off src)[i]? =
      if off ≤ i ∧ i < off + src.length then src[i - off]? else b[i]? := by
  have ht : (b.take off).length = off := by simp only [List.length_take]; omega
  by_cases hlt : i < off
  · have hl : i < (b.take off).length := by omega
    rw [overwrite, List.append_assoc, List.getElem?_append_left hl, List.getElem?_take]
    simp [hlt, show ¬ off ≤ i by omega]
  · rw [overwrite, List.append_assoc, List.getElem?_append_right (by omega), ht]
    by_cases hin : i < off + src.length
    · rw [List.getElem?_append_left (by omega)]
      simp [hin, show off ≤ i by omega]
    · rw [List.getElem?_append_right (by omega), List.getElem?_drop]
      simp only [hin, and_false, if_false]
      congr 1
      omega

theorem slice_overwrite_self {b : List α} {off : ℕ} {src : List α}
    (h : off + src.length ≤ b.length) : slice (overwrite b off src) off src.length = src := by
  have ht : (b.take off).length = off := by simp only [List.length_take]; omega
  simp only [slice, overwrite, List.append_assoc]
  rw [List.drop_append_of_le_length (by omega), List.drop_of_length_le (by omega), List.nil_append,
    List.take_append_of_le_length le_rfl, List.take_length]

theorem slice_overwrite_of_disjoint {b : List α} {off n at_ : ℕ} {src : List α}
    (h : off + src.length ≤ b.length) (hd : at_ + n ≤ off ∨ off + src.length ≤ at_) :
    slice (overwrite b off src) at_ n = slice b at_ n := by
  apply List.ext_getElem?
  intro i
  rw [getElem?_slice, getElem?_slice, getElem?_overwrite h]
  split
  · rw [if_neg (by omega)]
  · rfl

theorem overwrite_append {b : List α} {off : ℕ} {xs ys : List α} (h : off + xs.length + ys.length ≤ b.length) :
    overwrite b off (xs ++ ys) = overwrite (overwrite b off xs) (off + xs.length) ys := by
  have hxs : off + xs.length ≤ b.length := by omega
  have hall : off + (xs ++ ys).length ≤ b.length := by
    rw [List.length_append]
    omega
  apply List.ext_getElem?
  intro i
  rw [getElem?_overwrite hall, getElem?_overwrite (by rwa [length_overwrite hxs]), getElem?_overwrite hxs,
    List.length_append, List.getElem?_append]
  split_ifs <;> first | rfl | omega | (congr 1; omega)

def zeros (n : ℕ) : Bytes := List.replicate n 0

@[simp] theorem length_zeros (n : ℕ) : (zeros n).length = n := List.length_replicate

theorem slice_zeros {m off n : ℕ} (h : off + n ≤ m) : slice (zeros m) off n = zeros n := by
  rw [slice, zeros, List.drop_replicate, List.take_replicate, min_eq_left (by omega), zeros]

/-- The base-256 digits of `n`, least significant first. -/
def leEncode : ℕ → ℕ → Bytes
  | 0, _ => []
  | k + 1, n => UInt8.ofNat n :: leEncode k (n / 256)

def leDecode : Bytes → ℕ
  | [] => 0
  | b :: bs => b.toNat + 256 * leDecode bs

@[simp] theorem length_leEncode (k n : ℕ) : (leEncode k n).length = k := by
  induction k generalizing n with
  | zero => rfl
  | succ k ih => simp [leEncode, ih]

theorem leDecode_lt (bs : Bytes) : leDecode bs < 256 ^ bs.length := by
  induction bs with
  | nil => simp [leDecode]
  | cons b bs ih =>
    have hb := b.toNat_lt
    simp only [leDecode, List.length_cons, pow_succ]
    omega

theorem leDecode_append (xs ys : Bytes) : leDecode (xs ++ ys) = leDecode xs + 256 ^ xs.length * leDecode ys := by
  induction xs with
  | nil => simp [leDecode]
  | cons x xs ih =>
    simp only [List.cons_append, leDecode, ih, List.length_cons, pow_succ]
    ring

theorem leDecode_leEncode (k n : ℕ) : leDecode (leEncode k n) = n % 256 ^ k := by
  induction k generalizing n with
  | zero => simp [leEncode, leDecode, Nat.mod_one]
  | succ k ih =>
    have hb : (UInt8.ofNat n).toNat = n % 256 := by simp
    rw [leEncode, leDecode, ih, hb, pow_succ, Nat.mul_comm (256 ^ k) 256, Nat.mod_mul]

theorem leDecode_leEncode_of_lt {k n : ℕ} (h : n < 256 ^ k) : leDecode (leEncode k n) = n := by
  rw [leDecode_leEncode, Nat.mod_eq_of_lt h]

theorem leEncode_leDecode (bs : Bytes) : leEncode bs.length (leDecode bs) = bs := by
  induction bs with
  | nil => rfl
  | cons b bs ih =>
    have hb := b.toNat_lt
    have hdiv : (b.toNat + 256 * leDecode bs) / 256 = leDecode bs := by omega
    simp only [leDecode, List.length_cons, leEncode, hdiv, ih, List.cons.injEq, and_true]
    apply UInt8.toNat_inj.mp
    rw [UInt8.toNat_ofNat']
    omega

theorem leDecode_replicate_zero (n : ℕ) : leDecode (List.replicate n 0) = 0 := by
  induction n with
  | zero => rfl
  | succ n ih => simp [List.replicate_succ, leDecode, ih]

def readU32 (b : Bytes) (off : ℕ) : ℕ := leDecode (slice b off 4)

def writeU32 (b : Bytes) (off n : ℕ) : Bytes := overwrite b off (leEncode 4 n)

theorem readU32_zeros {n addr : ℕ} (h : addr + 4 ≤ n) : readU32 (zeros n) addr = 0 := by
  rw [readU32, slice_zeros h]
  rfl

theorem readU32_lt (b : Bytes) (off : ℕ) : readU32 b off < 2 ^ 32 := by
  have hlt := leDecode_lt (slice b off 4)
  have hlen := length_slice_le b off 4
  exact hlt.trans_le ((Nat.pow_le_pow_right (by omega) hlen).trans (by norm_num))

theorem length_writeU32 {b : Bytes} {off : ℕ} (h : off + 4 ≤ b.length) (n : ℕ) :
    (writeU32 b off n).length = b.length :=
  length_overwrite (by rwa [length_leEncode])

theorem readU32_writeU32_self {b : Bytes} {off n : ℕ} (h : off + 4 ≤ b.length) (hn : n < 2 ^ 32) :
    readU32 (writeU32 b off n) off = n := by
  have hslice : slice (writeU32 b off n) off (leEncode 4 n).length = leEncode 4 n :=
    slice_overwrite_self (by rwa [length_leEncode])
  rw [length_leEncode] at hslice
  rw [readU32, hslice, leDecode_leEncode_of_lt (by omega)]

theorem readU32_overwrite_of_disjoint {b src : Bytes} {off at_ : ℕ} (h : off + src.length ≤ b.length)
    (hd : at_ + 4 ≤ off ∨ off + src.length ≤ at_) : readU32 (overwrite b off src) at_ = readU32 b at_ := by
  rw [readU32, slice_overwrite_of_disjoint h hd, readU32]

theorem readU32_writeU32_of_disjoint {mem : Bytes} {word other : ℕ} (h : word + 4 ≤ mem.length) (v : ℕ)
    (hd : other + 4 ≤ word ∨ word + 4 ≤ other) :
    readU32 (writeU32 mem word v) other = readU32 mem other :=
  readU32_overwrite_of_disjoint (by rwa [length_leEncode]) (by rwa [length_leEncode])

end TakyonDb.Lib
