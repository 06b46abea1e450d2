import Mathlib.Data.Int.Basic

namespace TakyonDb.Lib.JsBits

/-- `a ^ b` on numbers: both sides as 32 bits, the result signed. -/
def xor (a b : ℤ) : ℤ := (BitVec.ofInt 32 a ^^^ BitVec.ofInt 32 b).toInt

def and (a b : ℤ) : ℤ := (BitVec.ofInt 32 a &&& BitVec.ofInt 32 b).toInt

def or (a b : ℤ) : ℤ := (BitVec.ofInt 32 a ||| BitVec.ofInt 32 b).toInt

/-- `a << n`, signed. -/
def shl (a : ℤ) (n : ℕ) : ℤ := (BitVec.ofInt 32 a <<< n).toInt

/-- `a >>> n`, the one unsigned operator. -/
def ushr (a : ℤ) (n : ℕ) : ℤ := (BitVec.ofInt 32 a >>> n).toNat

variable (a b : ℤ) (n : ℕ)

@[simp] theorem ofInt_xor : BitVec.ofInt 32 (xor a b) = BitVec.ofInt 32 a ^^^ BitVec.ofInt 32 b :=
  BitVec.ofInt_toInt

@[simp] theorem ofInt_and : BitVec.ofInt 32 (and a b) = BitVec.ofInt 32 a &&& BitVec.ofInt 32 b :=
  BitVec.ofInt_toInt

@[simp] theorem ofInt_or : BitVec.ofInt 32 (or a b) = BitVec.ofInt 32 a ||| BitVec.ofInt 32 b :=
  BitVec.ofInt_toInt

@[simp] theorem ofInt_shl : BitVec.ofInt 32 (shl a n) = BitVec.ofInt 32 a <<< n :=
  BitVec.ofInt_toInt

@[simp] theorem ofInt_ushr : BitVec.ofInt 32 (ushr a n) = BitVec.ofInt 32 a >>> n := by
  rw [ushr, BitVec.ofInt_natCast, BitVec.ofNat_toNat, BitVec.setWidth_eq]

end TakyonDb.Lib.JsBits
