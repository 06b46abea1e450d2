import Mathlib.Data.List.Nodup

namespace TakyonDb.Lib

open scoped List

variable {α β : Type*}

/-- The pairs that pass, the first list outermost. -/
def nestedLoop (test : α → β → Bool) (xs : List α) (ys : List β) : List (α × β) :=
  xs.flatMap fun x ↦ (ys.filter (test x)).map fun y ↦ (x, y)

/-- The pairs that pass, the second list outermost. -/
def probeLoop (test : α → β → Bool) (xs : List α) (ys : List β) : List (α × β) :=
  ys.flatMap fun y ↦ (xs.filter fun x ↦ test x y).map fun x ↦ (x, y)

/-- Two elements of each list of which the earlier ones pass with the later ones. -/
def Crossing (test : α → β → Bool) (xs : List α) (ys : List β) : Prop :=
  ∃ x x' y y', [x, x'] <+ xs ∧ [y, y'] <+ ys ∧ test x y' ∧ test x' y

variable {test : α → β → Bool} {xs : List α} {ys : List β}

theorem mem_nestedLoop {p : α × β} : p ∈ nestedLoop test xs ys ↔ p.1 ∈ xs ∧ p.2 ∈ ys ∧ test p.1 p.2 := by
  obtain ⟨x, y⟩ := p
  simp only [nestedLoop, List.mem_flatMap, List.mem_map, List.mem_filter, Prod.mk.injEq]
  constructor
  · intro ⟨a, ha, b, ⟨hb, hab⟩, hx, hy⟩
    exact hx ▸ hy ▸ ⟨ha, hb, hab⟩
  · intro ⟨hx, hy, hxy⟩
    exact ⟨x, hx, y, ⟨hy, hxy⟩, rfl, rfl⟩

theorem mem_probeLoop {p : α × β} : p ∈ probeLoop test xs ys ↔ p.1 ∈ xs ∧ p.2 ∈ ys ∧ test p.1 p.2 := by
  obtain ⟨x, y⟩ := p
  simp only [probeLoop, List.mem_flatMap, List.mem_map, List.mem_filter, Prod.mk.injEq]
  constructor
  · intro ⟨b, hb, a, ⟨ha, hab⟩, hx, hy⟩
    exact hx ▸ hy ▸ ⟨ha, hb, hab⟩
  · intro ⟨hx, hy, hxy⟩
    exact ⟨y, hy, x, ⟨hx, hxy⟩, rfl, rfl⟩

/-- Pairs come in the order of their first elements, then of their second. -/
theorem pairwise_nestedLoop :
    (nestedLoop test xs ys).Pairwise fun p q ↦ [p.1, q.1] <+ xs ∨ p.1 = q.1 ∧ [p.2, q.2] <+ ys := by
  rw [nestedLoop, List.pairwise_flatMap]
  constructor
  · intro x _
    rw [List.pairwise_map]
    refine (List.pairwise_iff_forall_sublist.mpr fun {a b} h ↦ ?_)
    exact Or.inr ⟨rfl, h.trans List.filter_sublist⟩
  · refine List.pairwise_iff_forall_sublist.mpr fun {a b} h p hp q hq ↦ ?_
    obtain ⟨_, _, hp⟩ := List.mem_map.mp hp
    obtain ⟨_, _, hq⟩ := List.mem_map.mp hq
    exact hp ▸ hq ▸ Or.inl h

theorem pairwise_probeLoop :
    (probeLoop test xs ys).Pairwise fun p q ↦ [p.2, q.2] <+ ys ∨ p.2 = q.2 ∧ [p.1, q.1] <+ xs := by
  rw [probeLoop, List.pairwise_flatMap]
  constructor
  · intro y _
    rw [List.pairwise_map]
    refine (List.pairwise_iff_forall_sublist.mpr fun {a b} h ↦ ?_)
    exact Or.inr ⟨rfl, h.trans List.filter_sublist⟩
  · refine List.pairwise_iff_forall_sublist.mpr fun {a b} h p hp q hq ↦ ?_
    obtain ⟨_, _, hp⟩ := List.mem_map.mp hp
    obtain ⟨_, _, hq⟩ := List.mem_map.mp hq
    exact hp ▸ hq ▸ Or.inl h

/-- In a list without repetition an element comes not before itself. -/
theorem not_sublist_self {a : α} (h : xs.Nodup) : ¬ [a, a] <+ xs := by
  intro hsub
  have := hsub.nodup h
  simp at this

/-- Nor do two elements come before each other. -/
theorem sublist_asymm {a b : α} (h : xs.Nodup) (hab : [a, b] <+ xs) : ¬ [b, a] <+ xs := by
  intro hba
  induction xs with
  | nil => cases hab
  | cons c xs ih =>
    obtain ⟨hc, hxs⟩ := List.nodup_cons.mp h
    cases hab with
    | cons _ hab =>
      cases hba with
      | cons _ hba => exact ih hxs hab hba
      | cons_cons _ _ => exact hc (hab.subset (by simp))
    | cons_cons _ hb =>
      cases hba with
      | cons _ hba => exact hc (hba.subset (by simp))
      | cons_cons _ _ => exact hc (hb.subset (by simp))

/-- Of two different elements one comes before the other. -/
theorem sublist_total {a b : α} (ha : a ∈ xs) (hb : b ∈ xs) (hne : a ≠ b) : [a, b] <+ xs ∨ [b, a] <+ xs := by
  induction xs with
  | nil => cases ha
  | cons c xs ih =>
    rcases List.mem_cons.mp ha with hac | ha
    · have hb' : b ∈ xs := (List.mem_cons.mp hb).resolve_left fun h ↦ hne (hac.trans h.symm)
      exact Or.inl (hac ▸ (List.singleton_sublist.mpr hb').cons_cons a)
    · rcases List.mem_cons.mp hb with hbc | hb
      · exact Or.inr (hbc ▸ (List.singleton_sublist.mpr ha).cons_cons b)
      · exact (ih ha hb).imp (List.Sublist.cons c) (List.Sublist.cons c)

theorem nodup_nestedLoop (hx : xs.Nodup) (hy : ys.Nodup) : (nestedLoop test xs ys).Nodup := by
  refine pairwise_nestedLoop.imp fun {p q} h heq ↦ ?_
  rcases h with h | ⟨_, h⟩
  · exact not_sublist_self hx (heq ▸ h)
  · exact not_sublist_self hy (heq ▸ h)

theorem nodup_probeLoop (hx : xs.Nodup) (hy : ys.Nodup) : (probeLoop test xs ys).Nodup := by
  refine pairwise_probeLoop.imp fun {p q} h heq ↦ ?_
  rcases h with h | ⟨_, h⟩
  · exact not_sublist_self hy (heq ▸ h)
  · exact not_sublist_self hx (heq ▸ h)

theorem perm_loops (hx : xs.Nodup) (hy : ys.Nodup) : (probeLoop test xs ys).Perm (nestedLoop test xs ys) :=
  (List.perm_ext_iff_of_nodup (nodup_probeLoop hx hy) (nodup_nestedLoop hx hy)).mpr
    fun _ ↦ mem_probeLoop.trans mem_nestedLoop.symm

/-- Over lists without repetition the two loops give the same pairs, and in the same order exactly when no two of
them cross. -/
theorem probeLoop_eq_nestedLoop_iff (hx : xs.Nodup) (hy : ys.Nodup) :
    probeLoop test xs ys = nestedLoop test xs ys ↔ ¬ Crossing test xs ys := by
  constructor
  · intro heq ⟨x, x', y, y', hxx, hyy, hxy, hyx⟩
    have hmem : (x, y') ∈ nestedLoop test xs ys :=
      mem_nestedLoop.mpr ⟨hxx.subset (by simp), hyy.subset (by simp), hxy⟩
    have hmem' : (x', y) ∈ nestedLoop test xs ys :=
      mem_nestedLoop.mpr ⟨hxx.subset (by simp), hyy.subset (by simp), hyx⟩
    have hne : (x, y') ≠ (x', y) := by
      intro h
      cases h
      exact not_sublist_self hx hxx
    rcases sublist_total hmem hmem' hne with hbefore | hbefore
    · rcases List.pairwise_iff_forall_sublist.mp pairwise_probeLoop (heq ▸ hbefore) with h | ⟨h, _⟩
      · exact sublist_asymm hy hyy h
      · have hsame : y' = y := h
        exact not_sublist_self hy (hsame ▸ hyy)
    · rcases List.pairwise_iff_forall_sublist.mp pairwise_nestedLoop hbefore with h | ⟨h, _⟩
      · exact sublist_asymm hx hxx h
      · have hsame : x' = x := h
        exact not_sublist_self hx (hsame ▸ hxx)
  · intro hno
    have hprobe : (probeLoop test xs ys).Pairwise fun p q ↦ [p.1, q.1] <+ xs ∨ p.1 = q.1 ∧ [p.2, q.2] <+ ys := by
      refine pairwise_probeLoop.imp_of_mem fun {p q} hp hq h ↦ ?_
      obtain ⟨hpx, _, hpt⟩ := mem_probeLoop.mp hp
      obtain ⟨hqx, _, hqt⟩ := mem_probeLoop.mp hq
      rcases h with hyy | ⟨_, hxx⟩
      · by_cases hsame : p.1 = q.1
        · exact Or.inr ⟨hsame, hyy⟩
        · refine Or.inl ((sublist_total hpx hqx hsame).resolve_right fun hback ↦ ?_)
          exact hno ⟨q.1, p.1, p.2, q.2, hback, hyy, hqt, hpt⟩
      · exact Or.inl hxx
    refine List.Perm.eq_of_pairwise (fun p q hp hq hpq hqp ↦ ?_) hprobe pairwise_nestedLoop (perm_loops hx hy)
    rcases hpq with hpq | ⟨h₁, hpq⟩
    · rcases hqp with hqp | ⟨h₂, _⟩
      · exact absurd hqp (sublist_asymm hx hpq)
      · exact absurd (h₂ ▸ hpq) (not_sublist_self hx)
    · rcases hqp with hqp | ⟨_, hqp⟩
      · exact absurd (h₁ ▸ hqp) (not_sublist_self hx)
      · exact absurd hqp (sublist_asymm hy hpq)

end TakyonDb.Lib
