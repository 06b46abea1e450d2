import Mathlib.Data.List.Nodup
import Mathlib.Data.List.Basic

namespace TakyonDb.Lib

variable {α : Type} [DecidableEq α] {xs : List α} {a c : α} {i : ℕ}

/-- The last entry takes the place of the removed one. -/
def swapRemove (xs : List α) (a : α) : List α := (xs.set (xs.idxOf a) (xs.getLastD a)).dropLast

theorem length_swapRemove (xs : List α) (a : α) : (swapRemove xs a).length = xs.length - 1 := by
  rw [swapRemove, List.length_dropLast, List.length_set]

theorem getElem_swapRemove (hi : i < (swapRemove xs a).length) (hi' : i < xs.length) :
    (swapRemove xs a)[i] = if i = xs.idxOf a then xs.getLastD a else xs[i] := by
  simp only [swapRemove, List.getElem_dropLast, List.getElem_set]
  exact if_congr eq_comm rfl rfl

omit [DecidableEq α] in
theorem getLastD_eq (ha : a ∈ xs) : ∃ h : xs.length - 1 < xs.length, xs.getLastD a = xs[xs.length - 1] := by
  have hlt := List.length_pos_of_mem ha
  refine ⟨by omega, ?_⟩
  rw [List.getLastD_eq_getLast?, List.getLast?_eq_getElem?, List.getElem?_eq_getElem (by omega), Option.getD_some]

omit [DecidableEq α] in
theorem getLastD_mem (ha : a ∈ xs) : xs.getLastD a ∈ xs := by
  obtain ⟨hlt, heq⟩ := getLastD_eq ha
  exact heq ▸ List.getElem_mem hlt

theorem idxOf_getLastD (hnodup : xs.Nodup) (ha : a ∈ xs) : xs.idxOf (xs.getLastD a) = xs.length - 1 := by
  obtain ⟨hlt, heq⟩ := getLastD_eq ha
  rw [heq, hnodup.idxOf_getElem]

theorem mem_swapRemove (hnodup : xs.Nodup) (ha : a ∈ xs) : c ∈ swapRemove xs a ↔ c ∈ xs ∧ c ≠ a := by
  have hlen := length_swapRemove xs a
  have hidx := List.idxOf_lt_length_of_mem ha
  constructor
  · intro hc
    obtain ⟨i, hi, rfl⟩ := List.getElem_of_mem hc
    have hi' : i < xs.length := by omega
    rw [getElem_swapRemove hi hi']
    split_ifs with hpos
    · refine ⟨getLastD_mem ha, fun hlast ↦ ?_⟩
      have := idxOf_getLastD hnodup ha
      rw [hlast] at this
      omega
    · refine ⟨List.getElem_mem hi', fun heq ↦ hpos ?_⟩
      rw [← heq, hnodup.idxOf_getElem]
  · rintro ⟨hc, hne⟩
    have hcidx := List.idxOf_lt_length_of_mem hc
    have hne' : xs.idxOf c ≠ xs.idxOf a := fun heq ↦ hne ((List.idxOf_inj hc).mp heq)
    by_cases hlast : xs.idxOf c = xs.length - 1
    · have hi : xs.idxOf a < (swapRemove xs a).length := by omega
      have hget := getElem_swapRemove hi hidx
      rw [if_pos rfl] at hget
      have hc' : c = xs.getLastD a := by
        obtain ⟨hlt, heq⟩ := getLastD_eq ha
        rw [heq]
        simp only [← hlast, List.getElem_idxOf]
      rw [hc', ← hget]
      exact List.getElem_mem hi
    · have hi : xs.idxOf c < (swapRemove xs a).length := by omega
      have hget := getElem_swapRemove hi hcidx
      rw [if_neg hne', List.getElem_idxOf] at hget
      rw [← hget]
      exact List.getElem_mem hi

theorem nodup_swapRemove (hnodup : xs.Nodup) (ha : a ∈ xs) : (swapRemove xs a).Nodup := by
  have hlen := length_swapRemove xs a
  have hlast := idxOf_getLastD hnodup ha
  refine List.nodup_iff_injective_get.mpr fun i j hij ↦ Fin.ext ?_
  have hi := i.isLt
  have hj := j.isLt
  have hindex : ∀ k (hk : k < (swapRemove xs a).length),
      xs.idxOf (swapRemove xs a)[k] = if k = xs.idxOf a then xs.length - 1 else k := fun k hk ↦ by
    have hk' : k < xs.length := by omega
    rw [getElem_swapRemove hk hk']
    split_ifs with hpos
    · exact hlast
    · exact hnodup.idxOf_getElem k hk'
  have heq : xs.idxOf (swapRemove xs a)[i.val] = xs.idxOf (swapRemove xs a)[j.val] := congrArg xs.idxOf hij
  rw [hindex _ hi, hindex _ hj] at heq
  split_ifs at heq <;> omega

theorem idxOf_swapRemove (hnodup : xs.Nodup) (ha : a ∈ xs) (hc : c ∈ xs) (hne : c ≠ a) :
    (swapRemove xs a).idxOf c = if c = xs.getLastD a then xs.idxOf a else xs.idxOf c := by
  have hlen := length_swapRemove xs a
  have hidx := List.idxOf_lt_length_of_mem ha
  have hcidx := List.idxOf_lt_length_of_mem hc
  have hlast := idxOf_getLastD hnodup ha
  have hne' : xs.idxOf c ≠ xs.idxOf a := fun heq ↦ hne ((List.idxOf_inj hc).mp heq)
  have hfind : ∀ k (hk : k < (swapRemove xs a).length), (swapRemove xs a)[k] = c → (swapRemove xs a).idxOf c = k :=
    fun k hk hget ↦ by rw [← hget, (nodup_swapRemove hnodup ha).idxOf_getElem k hk]
  split_ifs with hcl
  · have hk : xs.idxOf a < (swapRemove xs a).length := by
      rw [← hcl] at hlast
      omega
    refine hfind _ hk ?_
    rw [getElem_swapRemove hk hidx, if_pos rfl, hcl]
  · have hk : xs.idxOf c < (swapRemove xs a).length := by
      by_contra hge
      obtain ⟨hlt, heq⟩ := getLastD_eq ha
      refine hcl ?_
      have hpos : xs.idxOf c = xs.length - 1 := by omega
      rw [heq]
      simp only [← hpos, List.getElem_idxOf]
    refine hfind _ hk ?_
    rw [getElem_swapRemove hk hcidx, if_neg hne', List.getElem_idxOf]

end TakyonDb.Lib
