import Mathlib.Data.List.Basic

namespace TakyonDb.Lib.Separated

variable {α : Type*} {sep : α} {x y p q : List α}

/-- Two parts with a separator between them. -/
def join (sep : α) (x p : List α) : List α := x ++ sep :: p

variable [LT α]

/-- Where the order of two joined pairs is not that of their first parts: behind a common front
one of these ends, and what the separator meets there decides the other way. -/
def Misordered (sep : α) (p q : List α) : List α → List α → Prop
  | [], [] => p < q
  | [], b :: y => b < sep ∨ b = sep ∧ ¬ p < join sep y q
  | a :: x, [] => a < sep ∨ a = sep ∧ join sep x p < q
  | a :: x, b :: y => a = b ∧ Misordered sep p q x y

instance decidableMisordered [DecidableEq α] [DecidableLT α] (sep : α) (p q : List α) :
    ∀ x y, Decidable (Misordered sep p q x y)
  | [], [] => inferInstanceAs (Decidable (p < q))
  | [], b :: y => inferInstanceAs (Decidable (b < sep ∨ b = sep ∧ ¬ p < join sep y q))
  | a :: x, [] => inferInstanceAs (Decidable (a < sep ∨ a = sep ∧ join sep x p < q))
  | _ :: x, _ :: y => @instDecidableAnd _ _ _ (decidableMisordered sep p q x y)

/-- First parts of one length are told apart before either ends. -/
theorem misordered_iff (h : x.length = y.length) : Misordered sep p q x y ↔ x = y ∧ p < q := by
  induction x generalizing y with
  | nil =>
    have hy : y = [] := List.length_eq_zero_iff.mp h.symm
    simp [hy, Misordered]
  | cons a x ih =>
    cases y with
    | nil => simp at h
    | cons b y =>
      have hxy := @ih y (by simpa using h)
      simp [Misordered, hxy, and_assoc]

variable [LE α] [Std.IsLinearOrder α] [Std.LawfulOrderLT α]

theorem join_lt_join_iff : (join sep x p < join sep y q ↔ x < y) ↔ ¬ Misordered sep p q x y := by
  induction x generalizing y with
  | nil =>
    cases y with
    | nil => simp [join, Misordered, Std.lt_irrefl]
    | cons b y =>
      simp only [join, Misordered, List.nil_append, List.cons_append, List.cons_lt_cons_iff, List.nil_lt_cons, iff_true]
      rcases Std.lt_trichotomy sep b with hlt | heq | hgt
      · have hne : b ≠ sep := fun h ↦ Std.lt_irrefl (h ▸ hlt)
        simp [hlt, hne, Std.not_gt_of_lt hlt]
      · simp [heq, Std.lt_irrefl]
      · have hne : sep ≠ b := fun h ↦ Std.lt_irrefl (h ▸ hgt)
        simp [hgt, hne, Std.not_gt_of_lt hgt]
  | cons a x ih =>
    cases y with
    | nil =>
      simp only [join, Misordered, List.nil_append, List.cons_append, List.cons_lt_cons_iff, List.not_lt_nil, iff_false]
    | cons b y =>
      have hxy := @ih y
      simp only [join] at hxy
      simp only [join, List.cons_append, List.cons_lt_cons_iff, Misordered]
      rcases Std.lt_trichotomy a b with hlt | heq | hgt
      · have hne : a ≠ b := fun h ↦ Std.lt_irrefl (h ▸ hlt)
        simp [hlt, hne]
      · simp [heq, Std.lt_irrefl, hxy]
      · have hne : a ≠ b := fun h ↦ Std.lt_irrefl (h ▸ hgt)
        simp [hne, Std.not_gt_of_lt hgt]

end TakyonDb.Lib.Separated
