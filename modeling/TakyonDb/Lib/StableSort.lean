import TakyonDb.Lib.LoopOrder

namespace TakyonDb.Lib

open scoped List

variable {α : Type*}

/-- The comparisons of a list's elements are those of a total preorder. -/
structure Consistent (cmp : α → α → Ordering) (l : List α) : Prop where
  swap : ∀ a ∈ l, ∀ b ∈ l, cmp b a = (cmp a b).swap
  trans : ∀ a ∈ l, ∀ b ∈ l, ∀ c ∈ l, cmp a b ≠ .gt → cmp b c ≠ .gt → cmp a c ≠ .gt

/-- The second list holds the elements of the first in ascending order, equal ones in their old order. -/
structure StableSorted (cmp : α → α → Ordering) (l r : List α) : Prop where
  perm : r.Perm l
  ascending : r.Pairwise fun a b ↦ cmp a b ≠ .gt
  stable : ∀ a ∈ l, r.filter (fun b ↦ cmp a b = .eq) = l.filter fun b ↦ cmp a b = .eq

/-- A sort that permutes what it is given, and sorts it stably where the comparisons are consistent. -/
structure LawfulSort (sort : (α → α → Ordering) → List α → List α) : Prop where
  perm : ∀ cmp l, (sort cmp l).Perm l
  sorted : ∀ cmp l, Consistent cmp l → StableSorted cmp l (sort cmp l)

section Exists

variable {cmp : α → α → Ordering} {l : List α}

theorem Consistent.refl (h : Consistent cmp l) {a : α} (ha : a ∈ l) : cmp a a = .eq := by
  have hswap := h.swap a ha a ha
  cases hcmp : cmp a a with
  | eq => rfl
  | lt =>
    rw [hcmp] at hswap
    cases hswap
  | gt =>
    rw [hcmp] at hswap
    cases hswap

theorem Consistent.le_of_eq (h : Consistent cmp l) {a b c : α} (ha : a ∈ l) (hb : b ∈ l) (hc : c ∈ l)
    (hab : cmp a b = .eq) (hac : cmp a c = .eq) : cmp b c ≠ .gt := by
  refine h.trans b hb a ha c hc ?_ (by simp [hac])
  rw [h.swap a ha b hb, hab]
  simp

/-- A consistent comparison has a stable sort. -/
theorem Consistent.exists_stableSorted (h : Consistent cmp l) : ∃ r, StableSorted cmp l r := by
  let le (a b : {x // x ∈ l}) : Bool := cmp a.1 b.1 ≠ .gt
  have hle : ∀ a b, le a b ↔ cmp a.1 b.1 ≠ .gt := fun a b ↦ by simp [le]
  have htrans : ∀ a b c, le a b → le b c → le a c := by
    intro a b c
    rw [hle, hle, hle]
    exact h.trans a.1 a.2 b.1 b.2 c.1 c.2
  have htotal : ∀ a b, le a b || le b a := by
    intro a b
    rw [Bool.or_eq_true, hle, hle, h.swap a.1 a.2 b.1 b.2]
    cases cmp a.1 b.1 <;> simp
  have hperm : ((l.attach.mergeSort le).map Subtype.val).Perm l := by
    have hmap := (List.mergeSort_perm l.attach le).map Subtype.val
    rwa [List.attach_map_subtype_val] at hmap
  refine ⟨(l.attach.mergeSort le).map Subtype.val, hperm, ?_, ?_⟩
  · rw [List.pairwise_map]
    exact (List.pairwise_mergeSort htrans htotal l.attach).imp fun hab ↦ (hle _ _).mp hab
  · intro a ha
    have hclass : (l.attach.filter fun b ↦ cmp a b.1 = .eq).Pairwise fun b c ↦ le b c := by
      refine List.pairwise_of_forall_mem_list fun b hb c hc ↦ ?_
      have hb := of_decide_eq_true (List.mem_filter.mp hb).2
      have hc := of_decide_eq_true (List.mem_filter.mp hc).2
      exact (hle _ _).mpr (h.le_of_eq ha b.2 c.2 hb hc)
    have hsub := (List.sublist_mergeSort htrans htotal hclass List.filter_sublist).map Subtype.val
    have hval : (l.attach.filter fun b ↦ cmp a b.1 = .eq).map Subtype.val = l.filter fun b ↦ cmp a b = .eq := by
      conv_rhs => rw [← List.attach_map_subtype_val l, List.filter_map]
      rfl
    rw [hval] at hsub
    have hfilter := hsub.filter fun b ↦ decide (cmp a b = .eq)
    rw [List.filter_filter] at hfilter
    simp only [Bool.and_self] at hfilter
    exact (hfilter.eq_of_length (hperm.filter _).length_eq.symm).symm

end Exists

open Classical in
/-- Sorts stably where that is possible, and else hands the list to `rest`. -/
noncomputable def sortOr (rest : List α → List α) (cmp : α → α → Ordering) (l : List α) : List α :=
  if h : Consistent cmp l then h.exists_stableSorted.choose else rest l

theorem sortOr_of_not_consistent {rest : List α → List α} {cmp : α → α → Ordering} {l : List α}
    (h : ¬ Consistent cmp l) :
    sortOr rest cmp l = rest l := dif_neg h

theorem lawful_sortOr {rest : List α → List α} (hrest : ∀ l, (rest l).Perm l) : LawfulSort (sortOr rest) := by
  have hsorted : ∀ cmp l, Consistent cmp l → StableSorted cmp l (sortOr rest cmp l) := by
    intro cmp l h
    rw [sortOr, dif_pos h]
    exact h.exists_stableSorted.choose_spec
  refine ⟨fun cmp l ↦ ?_, hsorted⟩
  by_cases h : Consistent cmp l
  · exact (hsorted cmp l h).perm
  · rw [sortOr_of_not_consistent h]
    exact hrest l

end TakyonDb.Lib
