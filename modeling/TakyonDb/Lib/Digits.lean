import Mathlib.Data.List.Basic
import Mathlib.Data.Nat.Bitwise

namespace TakyonDb.Lib.Digits

section Lex

variable {α : Type*} [LT α]

/-- Behind parts of one length the order is decided there first. -/
theorem append_lt_append_iff {xs ys us vs : List α} (h : xs.length = ys.length) :
    xs ++ us < ys ++ vs ↔ xs < ys ∨ xs = ys ∧ us < vs := by
  induction xs generalizing ys with
  | nil =>
    have hys : ys = [] := List.length_eq_zero_iff.mp h.symm
    simp [hys]
  | cons x xs ih =>
    cases ys with
    | nil => simp at h
    | cons y ys =>
      have hlen : xs.length = ys.length := by simpa using h
      simp only [List.cons_append, List.cons_lt_cons_iff, ih hlen, List.cons.injEq]
      tauto

end Lex

/-- Numbers are ordered by the highest bit in which they differ. -/
theorem lt_iff_testBit {n v w : ℕ} (hv : v < 2 ^ n) (hw : w < 2 ^ n) :
    v < w ↔ ∃ k < n, (∀ j, k < j → j < n → v.testBit j = w.testBit j) ∧ v.testBit k = false ∧ w.testBit k = true := by
  have hbound : ∀ {u j : ℕ}, u < 2 ^ n → n ≤ j → u.testBit j = false := by
    intro u j hu hj
    exact Nat.testBit_eq_false_of_lt (hu.trans_le (Nat.pow_le_pow_right Nat.two_pos hj))
  constructor
  · intro hlt
    have hne : v ^^^ w ≠ 0 := by
      intro hzero
      exact hlt.ne (Nat.xor_eq_zero_iff.mp hzero)
    obtain ⟨k, hk, habove⟩ := Nat.exists_most_significant_bit hne
    have hagree : ∀ j, k < j → v.testBit j = w.testBit j := by
      intro j hj
      have hx := habove j hj
      rw [Nat.testBit_xor] at hx
      simpa using hx
    rw [Nat.testBit_xor] at hk
    have hkn : k < n := by
      by_contra hge
      rw [hbound hv (not_lt.mp hge), hbound hw (not_lt.mp hge)] at hk
      exact absurd hk (by decide)
    refine ⟨k, hkn, fun j hj _ ↦ hagree j hj, ?_⟩
    cases hvk : v.testBit k with
    | false => exact ⟨rfl, by simpa [hvk] using hk⟩
    | true =>
      have hwk : w.testBit k = false := by simpa [hvk] using hk
      exact absurd (Nat.lt_of_testBit k hwk hvk fun j hj ↦ (hagree j hj).symm) hlt.not_gt
  · intro h
    obtain ⟨k, -, habove, hvk, hwk⟩ := h
    refine Nat.lt_of_testBit k hvk hwk fun j hj ↦ ?_
    rcases Nat.lt_or_ge j n with hjn | hjn
    · exact habove j hj hjn
    · rw [hbound hv hjn, hbound hw hjn]

variable {α : Type*}

/-- The last `k` digits of `v` to base `b`, most significant first, in front of `acc`. -/
def render (digit : ℕ → α) (b : ℕ) : ℕ → ℕ → List α → List α
  | 0, _, acc => acc
  | k + 1, v, acc => render digit b k (v / b) (digit (v % b) :: acc)

variable (digit : ℕ → α) (b : ℕ)

theorem render_append (k v : ℕ) (xs ys : List α) :
    render digit b k v (xs ++ ys) = render digit b k v xs ++ ys := by
  induction k generalizing v xs with
  | zero => rfl
  | succ k ih => exact ih (v / b) (digit (v % b) :: xs)

theorem render_succ (k v : ℕ) :
    render digit b (k + 1) v [] = render digit b k (v / b) [] ++ [digit (v % b)] :=
  render_append digit b k (v / b) [] [digit (v % b)]

@[simp] theorem length_render (k v : ℕ) (acc : List α) :
    (render digit b k v acc).length = k + acc.length := by
  induction k generalizing v acc with
  | zero => exact (Nat.zero_add _).symm
  | succ k ih =>
    rw [render, ih, List.length_cons]
    omega

theorem mem_render (hb : 0 < b) {k v : ℕ} {acc : List α} {d : α} (h : d ∈ render digit b k v acc) :
    d ∈ acc ∨ ∃ i < b, d = digit i := by
  induction k generalizing v acc with
  | zero => exact Or.inl h
  | succ k ih =>
    rcases ih h with hacc | hdigit
    · rcases List.mem_cons.mp hacc with hlast | hacc
      · exact Or.inr ⟨v % b, Nat.mod_lt v hb, hlast⟩
      · exact Or.inl hacc
    · exact Or.inr hdigit

variable [LT α]

/-- Each digit stands for its place in the order. -/
def Ascending : Prop := ∀ i < b, ∀ j < b, (digit i < digit j ↔ i < j)

variable {digit b}

theorem Ascending.inj (hdigit : Ascending digit b) {i j : ℕ} (hi : i < b) (hj : j < b) :
    digit i = digit j ↔ i = j := by
  constructor
  · intro h
    have hij := hdigit i hi j hj
    have hji := hdigit j hj i hi
    have hno : ¬ digit j < digit j := fun hlt ↦ Nat.lt_irrefl j ((hdigit j hj j hj).mp hlt)
    rw [h] at hij hji
    exact Nat.le_antisymm (not_lt.mp (mt hji.mpr hno)) (not_lt.mp (mt hij.mpr hno))
  · intro h
    rw [h]

theorem render_inj (hb : 0 < b) (hdigit : Ascending digit b) {k v w : ℕ} (hv : v < b ^ k)
    (hw : w < b ^ k) : render digit b k v [] = render digit b k w [] ↔ v = w := by
  induction k generalizing v w with
  | zero =>
    have hv0 : v = 0 := by simpa using hv
    have hw0 : w = 0 := by simpa using hw
    simp [hv0, hw0]
  | succ k ih =>
    have hlow := hdigit.inj (Nat.mod_lt v hb) (Nat.mod_lt w hb)
    have hhigh := @ih (v / b) (w / b) (Nat.div_lt_of_lt_mul (by rwa [Nat.mul_comm, ← Nat.pow_succ]))
      (Nat.div_lt_of_lt_mul (by rwa [Nat.mul_comm, ← Nat.pow_succ]))
    constructor
    · intro h
      rw [render_succ, render_succ] at h
      obtain ⟨hh, hl⟩ := List.append_inj' h rfl
      rw [← Nat.div_add_mod v b, hhigh.mp hh, hlow.mp (List.singleton_inj.mp hl), Nat.div_add_mod]
    · intro h
      rw [h]

/-- Numbers of at most `k` digits are ordered as their renderings are. -/
theorem render_lt_iff (hb : 0 < b) (hdigit : Ascending digit b) {k v w : ℕ} (hv : v < b ^ k)
    (hw : w < b ^ k) : render digit b k v [] < render digit b k w [] ↔ v < w := by
  induction k generalizing v w with
  | zero =>
    have hv0 : v = 0 := by simpa using hv
    have hw0 : w = 0 := by simpa using hw
    simp [hv0, hw0, render]
  | succ k ih =>
    have hv' : v / b < b ^ k := Nat.div_lt_of_lt_mul (by rwa [Nat.mul_comm, ← Nat.pow_succ])
    have hw' : w / b < b ^ k := Nat.div_lt_of_lt_mul (by rwa [Nat.mul_comm, ← Nat.pow_succ])
    have hlow := hdigit _ (Nat.mod_lt v hb) _ (Nat.mod_lt w hb)
    have hv2 := Nat.div_add_mod v b
    have hw2 := Nat.div_add_mod w b
    have hvm := Nat.mod_lt v hb
    have hwm := Nat.mod_lt w hb
    rw [render_succ, render_succ, append_lt_append_iff (by simp), ih hv' hw', render_inj hb hdigit hv' hw',
      List.cons_lt_cons_iff, hlow]
    simp only [List.not_lt_nil, and_false, or_false]
    constructor
    · intro h
      rcases h with h | ⟨h, hm⟩
      · have hmul : b * (v / b + 1) ≤ b * (w / b) := Nat.mul_le_mul_left b h
        rw [Nat.mul_add, Nat.mul_one] at hmul
        omega
      · rw [h] at hv2
        omega
    · intro h
      rcases Nat.lt_or_ge (v / b) (w / b) with hlt | hge
      · exact Or.inl hlt
      · have heq : v / b = w / b := Nat.le_antisymm (Nat.div_le_div_right h.le) hge
        rw [heq] at hv2
        exact Or.inr ⟨heq, by omega⟩

end TakyonDb.Lib.Digits
