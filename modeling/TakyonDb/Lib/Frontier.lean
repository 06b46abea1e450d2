import Mathlib.Order.CompletePartialOrder
import Mathlib.Order.Interval.Set.Disjoint
import TakyonDb.Lib.Extents

namespace TakyonDb.Lib

open Set

def Extent.cells (e : Extent) : Set ℕ := Ico e.start e.stop

/-- Behind everything that was granted. -/
def frontier (first : ℕ) (granted : List Extent) : ℕ := granted.foldr (fun g m ↦ max g.stop m) first

/-- What a bump word between `first` and `last` says about what it granted.
The word is zero before its first use; it may leave the region once less
than `slack` cells remain. -/
structure Granted (first last slack word : ℕ) (granted : List Extent) : Prop where
  inside : ∀ g ∈ granted, first ≤ g.start
  disjoint : granted.Pairwise fun g h ↦ Disjoint g.cells h.cells
  frontier_le : frontier first granted ≤ last
  word_eq : (word = 0 ∧ granted = []) ∨ word = frontier first granted ∨
    (last < frontier first granted + slack ∧ frontier first granted ≤ word)

variable {first last slack word len : ℕ} {granted : List Extent} {g : Extent}

theorem le_frontier (first : ℕ) (granted : List Extent) : first ≤ frontier first granted := by
  induction granted with
  | nil => exact le_rfl
  | cons g granted ih => exact ih.trans (le_max_right _ _)

theorem stop_le_frontier (first : ℕ) (h : g ∈ granted) : g.stop ≤ frontier first granted := by
  induction granted with
  | nil => cases h
  | cons f granted ih =>
    rcases List.mem_cons.mp h with rfl | h
    · exact le_max_left _ _
    · exact (ih h).trans (le_max_right _ _)

theorem Granted.stop_le (h : Granted first last slack word granted) (hg : g ∈ granted) : g.stop ≤ last :=
  (stop_le_frontier first hg).trans h.frontier_le

theorem Granted.frontier_le_word (h : Granted first last slack word granted) (hword : word ≠ 0) :
    frontier first granted ≤ word := by
  rcases h.word_eq with ⟨hzero, -⟩ | heq | ⟨-, hle⟩
  · exact absurd hzero hword
  · exact heq.ge
  · exact hle

theorem Granted.fresh (hle : first ≤ last) : Granted first last slack 0 [] :=
  ⟨by simp, .nil, hle, .inl ⟨rfl, rfl⟩⟩

/-- The space in front of a word that is in use counts as granted. -/
theorem Granted.used (hfirst : first ≤ word) (hlast : word ≤ last) :
    Granted first last slack word [⟨first, word - first⟩] := by
  have hstop : (Extent.mk first (word - first)).stop = word := by
    rw [Extent.stop]
    exact Nat.add_sub_cancel' hfirst
  have hfrontier : frontier first [⟨first, word - first⟩] = word := by
    rw [frontier, List.foldr_cons, List.foldr_nil, hstop, max_eq_left hfirst]
  exact ⟨by simp, List.pairwise_singleton _ _, hfrontier.trans_le hlast, .inr (.inl hfrontier.symm)⟩

theorem Granted.seed (h : Granted first last slack 0 granted) (hfirst : 0 < first) :
    Granted first last slack first granted := by
  rcases h.word_eq with ⟨-, rfl⟩ | heq | ⟨-, hle⟩
  · exact ⟨h.inside, h.disjoint, h.frontier_le, .inr (.inl rfl)⟩
  · have := le_frontier first granted
    omega
  · have := le_frontier first granted
    omega

/-- A request that fits behind the word. -/
theorem Granted.grant (h : Granted first last slack word granted) (hword : word ≠ 0) (hfit : word + len ≤ last) :
    Granted first last slack (word + len) (⟨word, len⟩ :: granted) := by
  have hle := h.frontier_le_word hword
  have hfrontier : frontier first (⟨word, len⟩ :: granted) = word + len :=
    max_eq_left (hle.trans (Nat.le_add_right _ _))
  refine ⟨?_, ?_, hfrontier.trans_le hfit, .inr (.inl hfrontier.symm)⟩
  · rw [List.forall_mem_cons]
    exact ⟨(le_frontier first granted).trans hle, h.inside⟩
  · refine List.pairwise_cons.mpr ⟨fun f hf ↦ ?_, h.disjoint⟩
    have hstop := (stop_le_frontier first hf).trans hle
    rw [disjoint_left]
    rintro i ⟨hi, -⟩ ⟨-, hi'⟩
    exact absurd hi' (not_lt.mpr (hstop.trans hi))

/-- A request that moves the word although there is no room left for any. -/
theorem Granted.skip (h : Granted first last slack word granted) (hword : word ≠ 0)
    (hfull : last < frontier first granted + slack) (len : ℕ) :
    Granted first last slack (word + len) granted :=
  ⟨h.inside, h.disjoint, h.frontier_le, .inr (.inr ⟨hfull, (h.frontier_le_word hword).trans
    (Nat.le_add_right _ _)⟩)⟩

end TakyonDb.Lib
