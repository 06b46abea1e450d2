import Mathlib.Data.Nat.Bitwise
import Mathlib.Data.Nat.Basic
import TakyonDb.Lib.Bytes

namespace TakyonDb.Lib.Checked

/-- The value as a `u32`, or nothing where it does not fit in one. -/
def intCast (n : ℕ) : Option UInt32 := if n < 2 ^ 32 then some (UInt32.ofNat n) else none

def add (a b : UInt32) : Option UInt32 := intCast (a.toNat + b.toNat)

def sub (a b : UInt32) : Option UInt32 := if b ≤ a then some (a - b) else none

/-- The next multiple of eight. The addition comes first and is checked. -/
def alignForward (v : UInt32) : Option UInt32 := (add v 7).map fun s ↦ s &&& ~~~7

/-- What `alignForward` rounds to, without a bound. -/
def roundUp (n : ℕ) : ℕ := (n + 7) / 8 * 8

theorem intCast_eq_some {n : ℕ} {u : UInt32} : intCast n = some u ↔ n < 2 ^ 32 ∧ u.toNat = n := by
  unfold intCast
  split
  · rename_i h
    have hof : (UInt32.ofNat n).toNat = n := UInt32.toNat_ofNat_of_lt' h
    rw [Option.some.injEq, ← UInt32.toNat_inj, hof]
    exact ⟨fun hu ↦ ⟨h, hu.symm⟩, fun hu ↦ hu.2.symm⟩
  · rename_i h
    exact ⟨fun hn ↦ absurd hn (by simp), fun hn ↦ absurd hn.1 h⟩

theorem add_eq_some {a b u : UInt32} :
    add a b = some u ↔ a.toNat + b.toNat < 2 ^ 32 ∧ u.toNat = a.toNat + b.toNat :=
  intCast_eq_some

theorem sub_eq_some {a b u : UInt32} :
    sub a b = some u ↔ b.toNat ≤ a.toNat ∧ u.toNat = a.toNat - b.toNat := by
  unfold sub
  split
  · rename_i h
    have hle := UInt32.le_iff_toNat_le.mp h
    rw [Option.some.injEq, ← UInt32.toNat_inj, UInt32.toNat_sub_of_le _ _ h]
    exact ⟨fun hu ↦ ⟨hle, hu.symm⟩, fun hu ↦ hu.2.symm⟩
  · rename_i h
    have hle := mt UInt32.le_iff_toNat_le.mpr h
    exact ⟨fun hn ↦ absurd hn (by simp), fun hn ↦ absurd hn.1 hle⟩

theorem intCast_of_lt {n : ℕ} (h : n < 2 ^ 32) : ∃ u, intCast n = some u ∧ u.toNat = n :=
  ⟨UInt32.ofNat n, if_pos h, UInt32.toNat_ofNat_of_lt' h⟩

theorem add_of_lt {a b : UInt32} (h : a.toNat + b.toNat < 2 ^ 32) :
    ∃ u, add a b = some u ∧ u.toNat = a.toNat + b.toNat :=
  intCast_of_lt h

theorem sub_of_le {a b : UInt32} (h : b.toNat ≤ a.toNat) :
    ∃ u, sub a b = some u ∧ u.toNat = a.toNat - b.toNat := by
  have hle := UInt32.le_iff_toNat_le.mpr h
  exact ⟨a - b, if_pos hle, UInt32.toNat_sub_of_le _ _ hle⟩

theorem toNat_and_not_seven (s : UInt32) : (s &&& ~~~7).toNat = s.toNat / 8 * 8 := by
  have hmask : ((~~~7 : UInt32)).toNat = (2 ^ 29 - 1) * 2 ^ 3 := by decide
  have hlt := s.toNat_lt
  rw [UInt32.toNat_and, hmask]
  apply Nat.eq_of_testBit_eq
  intro i
  change _ = (s.toNat / 2 ^ 3 * 2 ^ 3).testBit i
  rw [Nat.testBit_and, Nat.testBit_mul_two_pow, Nat.testBit_mul_two_pow,
    Nat.testBit_two_pow_sub_one, Nat.testBit_div_two_pow]
  by_cases hi : 3 ≤ i
  · by_cases hb : i < 32
    · simp [hi, show i - 3 < 29 by omega, Nat.sub_add_cancel hi]
    · have hzero : s.toNat.testBit i = false :=
        Nat.testBit_lt_two_pow (hlt.trans_le (Nat.pow_le_pow_right (by decide) (by omega)))
      simp [hi, Nat.sub_add_cancel hi, hzero]
  · simp [hi]

theorem alignForward_eq_some {v u : UInt32} :
    alignForward v = some u ↔ roundUp v.toNat < 2 ^ 32 ∧ u.toNat = roundUp v.toNat := by
  have hseven : (7 : UInt32).toNat = 7 := rfl
  simp only [alignForward, Option.map_eq_some_iff, add_eq_some, hseven, roundUp]
  constructor
  · intro h
    obtain ⟨s, ⟨hlt, hs⟩, rfl⟩ := h
    rw [toNat_and_not_seven, hs]
    exact ⟨by omega, rfl⟩
  · intro h
    have hlt : v.toNat + 7 < 2 ^ 32 := by omega
    have hsum := UInt32.toNat_ofNat_of_lt' hlt
    refine ⟨UInt32.ofNat (v.toNat + 7), ⟨hlt, hsum⟩, ?_⟩
    rw [← UInt32.toNat_inj, toNat_and_not_seven, hsum, h.2]

theorem alignForward_of_lt {v : UInt32} (h : roundUp v.toNat < 2 ^ 32) :
    ∃ u, alignForward v = some u ∧ u.toNat = roundUp v.toNat := by
  have hlt := UInt32.toNat_ofNat_of_lt' h
  exact ⟨UInt32.ofNat (roundUp v.toNat), alignForward_eq_some.mpr ⟨h, hlt⟩, hlt⟩

section Memory

variable {α : Type} {mem src : List α} {a b start stop : ℕ}

/-- A difference of sizes, or nothing where it would be negative. -/
def subSize (a b : ℕ) : Option ℕ := if b ≤ a then some (a - b) else none

/-- `mem[start..stop]` -/
def range (mem : List α) (start stop : ℕ) : Option (List α) :=
  if start ≤ stop ∧ stop ≤ mem.length then some (slice mem start (stop - start)) else none

/-- Copies to the front of `mem[start..stop]`. -/
def copyForwards (mem : List α) (start stop : ℕ) (src : List α) : Option (List α) :=
  if start ≤ stop ∧ stop ≤ mem.length ∧ src.length ≤ stop - start then some (overwrite mem start src) else none

theorem subSize_of_le (h : b ≤ a) : subSize a b = some (a - b) := if_pos h

theorem range_of_le (hle : start ≤ stop) (hstop : stop ≤ mem.length) :
    range mem start stop = some (slice mem start (stop - start)) := if_pos ⟨hle, hstop⟩

theorem copyForwards_of_le (hsrc : start + src.length = stop) (hstop : stop ≤ mem.length) :
    copyForwards mem start stop src = some (overwrite mem start src) := if_pos ⟨by omega, hstop, by omega⟩

end Memory

end TakyonDb.Lib.Checked
