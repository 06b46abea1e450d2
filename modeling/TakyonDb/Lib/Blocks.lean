import Mathlib.Data.List.Infix
import Mathlib.Data.Nat.Basic

namespace TakyonDb.Lib

variable {α : Type}

/-- The whole blocks of `n` elements at the front of a list, as a reader
that stops at the first short block sees them. -/
def wholeBlocks (n : ℕ) : ℕ → List α → List (List α)
  | 0, _ => []
  | fuel + 1, l => if l.length < n then [] else l.take n :: wholeBlocks n fuel (l.drop n)

def blocksOf (n : ℕ) (l : List α) : List (List α) := wholeBlocks n (l.length / n) l

theorem wholeBlocks_append {n : ℕ} {bs : List (List α)} {tail : List α}
    (hbs : ∀ b ∈ bs, b.length = n) (htail : tail.length < n) {fuel : ℕ} (hfuel : bs.length ≤ fuel) :
    wholeBlocks n fuel (bs.flatten ++ tail) = bs := by
  induction bs generalizing fuel with
  | nil => cases fuel <;> simp [wholeBlocks, htail]
  | cons b bs ih =>
    obtain ⟨fuel, rfl⟩ : ∃ m, fuel = m + 1 := ⟨fuel - 1, by simp at hfuel; omega⟩
    have hb : b.length = n := hbs b List.mem_cons_self
    have hlen : ¬ ((b :: bs).flatten ++ tail).length < n := by
      simp only [List.flatten_cons, List.length_append]
      omega
    rw [wholeBlocks, if_neg hlen, List.flatten_cons, List.append_assoc]
    have htake : (b ++ (bs.flatten ++ tail)).take n = b := by
      rw [← hb, List.take_left]
    have hdrop : (b ++ (bs.flatten ++ tail)).drop n = bs.flatten ++ tail := by
      rw [← hb, List.drop_left]
    rw [htake, hdrop, ih (fun c hc ↦ hbs c (List.mem_cons_of_mem _ hc)) (by simpa using hfuel)]

theorem length_flatten_of_forall {n : ℕ} {bs : List (List α)} (hbs : ∀ b ∈ bs, b.length = n) :
    bs.flatten.length = bs.length * n := by
  induction bs with
  | nil => simp
  | cons b bs ih =>
    rw [List.flatten_cons, List.length_append, hbs b List.mem_cons_self,
      ih (fun c hc ↦ hbs c (List.mem_cons_of_mem _ hc)), List.length_cons, Nat.succ_mul, Nat.add_comm]

theorem blocksOf_append {n : ℕ} {bs : List (List α)} {tail : List α}
    (hbs : ∀ b ∈ bs, b.length = n) (htail : tail.length < n) :
    blocksOf n (bs.flatten ++ tail) = bs := by
  apply wholeBlocks_append hbs htail
  rw [List.length_append, length_flatten_of_forall hbs, Nat.le_div_iff_mul_le (by omega)]
  omega

theorem length_of_mem_wholeBlocks {n fuel : ℕ} {l b : List α} (h : b ∈ wholeBlocks n fuel l) :
    b.length = n := by
  induction fuel generalizing l with
  | zero => cases h
  | succ fuel ih =>
    rw [wholeBlocks] at h
    split_ifs at h with hshort
    · cases h
    · rcases List.mem_cons.mp h with rfl | h
      · rw [List.length_take]
        omega
      · exact ih h

theorem length_of_mem_blocksOf {n : ℕ} {l b : List α} (h : b ∈ blocksOf n l) : b.length = n :=
  length_of_mem_wholeBlocks h

theorem wholeBlocks_prefix {n fuel fuel' : ℕ} {l l' : List α} (h : l <+: l') (hfuel : fuel ≤ fuel') :
    wholeBlocks n fuel l <+: wholeBlocks n fuel' l' := by
  induction fuel generalizing fuel' l l' with
  | zero => exact List.nil_prefix
  | succ fuel ih =>
    obtain ⟨fuel', rfl⟩ : ∃ m, fuel' = m + 1 := ⟨fuel' - 1, by omega⟩
    have hlen := h.length_le
    rw [wholeBlocks, wholeBlocks]
    by_cases hshort : l.length < n
    · rw [if_pos hshort]
      exact List.nil_prefix
    · have htake : l'.take n = l.take n := by
        obtain ⟨t, rfl⟩ := h
        exact List.take_append_of_le_length (by omega)
      rw [if_neg hshort, if_neg (by omega), htake, List.prefix_cons_inj]
      exact ih (List.IsPrefix.drop h n) (by omega)

/-- The reader of a truncated file sees the first of the same blocks. -/
theorem blocksOf_prefix (n : ℕ) {l l' : List α} (h : l <+: l') : blocksOf n l <+: blocksOf n l' :=
  wholeBlocks_prefix h (Nat.div_le_div_right h.length_le)

/-- The front of a list of blocks: whole blocks and a part of the next one. -/
theorem take_flatten {n : ℕ} (hn : 0 < n) {bs : List (List α)} (hbs : ∀ b ∈ bs, b.length = n) (k : ℕ) :
    ∃ part, part.length < n ∧ bs.flatten.take k = (bs.take (k / n)).flatten ++ part := by
  induction bs generalizing k with
  | nil => exact ⟨[], hn, by simp⟩
  | cons b bs ih =>
    have hb : b.length = n := hbs b List.mem_cons_self
    by_cases hk : k < n
    · refine ⟨(b ++ bs.flatten).take k, by rw [List.length_take]; omega, ?_⟩
      rw [Nat.div_eq_of_lt hk]
      rfl
    · obtain ⟨k, rfl⟩ : ∃ m, k = m + n := ⟨k - n, by omega⟩
      obtain ⟨part, hpart, htake⟩ := ih (fun c hc ↦ hbs c (List.mem_cons_of_mem _ hc)) k
      refine ⟨part, hpart, ?_⟩
      rw [Nat.add_div_right _ hn, List.take_succ_cons, List.flatten_cons,
        List.flatten_cons, List.append_assoc, ← htake, Nat.add_comm k n, ← hb, List.take_length_add_append]

end TakyonDb.Lib
