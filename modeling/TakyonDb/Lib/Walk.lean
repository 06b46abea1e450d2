import Mathlib.Data.List.ReduceOption
import Mathlib.Tactic.Cases

namespace TakyonDb.Lib

variable {α σ ε : Type}

/-- What one round of a walk comes to: its end, or an element, if it met one, and where the walk stands then. -/
inductive Round (σ α : Type)
  | ended
  | moved (out : Option α) (next : σ)

structure Walked (σ α : Type) where
  found : List α
  state : σ

/-- Rounds until the walk is done, has met `cap` elements or has no budget left. -/
def walk (round : σ → Except ε (Round σ α)) (done : σ → Bool) (cap : ℕ) : ℕ → List α → σ → Except ε (Walked σ α)
  | 0, found, s => .ok ⟨found, s⟩
  | budget + 1, found, s =>
    if done s ∨ cap ≤ found.length then .ok ⟨found, s⟩
    else
      match round s with
      | .error e => .error e
      | .ok .ended => .ok ⟨found, s⟩
      | .ok (.moved out next) => walk round done cap budget (found ++ out.toList) next

/-- A state stands for a list, of which each round takes the head. -/
structure Delivers (round : σ → Except ε (Round σ α)) (done : σ → Bool) (stands : σ → List (Option α) → Prop) :
    Prop where
  done_iff : ∀ {s vs}, stands s vs → (done s = true ↔ vs = [])
  moves : ∀ {s v vs}, stands s (v :: vs) → ∃ s', round s = .ok (.moved v s') ∧ stands s' vs

section Walk

variable {round : σ → Except ε (Round σ α)} {done : σ → Bool} {stands : σ → List (Option α) → Prop} {cap : ℕ}
  {vs : List (Option α)}

theorem reduceOption_cons (v : Option α) (vs : List (Option α)) :
    (v :: vs).reduceOption = v.toList ++ vs.reduceOption := by
  cases v with
  | none => exact List.reduceOption_cons_of_none vs
  | some a => exact List.reduceOption_cons_of_some a vs

/-- A walk that stops here has met all there was, or all it may. -/
theorem Delivers.stopped (hd : Delivers round done stands) {found : List α} {s : σ} (hs : stands s vs) (n : ℕ)
    (hstop : done s = true ∨ cap ≤ found.length) :
    found ++ (vs.take n).reduceOption.take (cap - found.length) = found ∧
      (done s = true → vs.length ≤ n ∧ vs.reduceOption.length ≤ cap - found.length) := by
  have hnil : done s = true → vs = [] := (hd.done_iff hs).mp
  refine ⟨?_, fun h ↦ by simp [hnil h]⟩
  rcases hstop with h | h
  · simp [hnil h]
  · rw [Nat.sub_eq_zero_of_le h, List.take_zero, List.append_nil]

/-- A walk meets what its state stands for, up to the budget and the capacity, and one that is done has met it all. -/
theorem Delivers.walk_eq (hd : Delivers round done stands) (budget : ℕ) {found : List α} {s : σ} (hs : stands s vs) :
    ∃ s', walk round done cap budget found s =
        .ok ⟨found ++ (vs.take budget).reduceOption.take (cap - found.length), s'⟩ ∧
      (done s' = true → vs.length ≤ budget ∧ vs.reduceOption.length ≤ cap - found.length) := by
  induction budget generalizing found s vs with
  | zero =>
    refine ⟨s, by simp [walk], fun h ↦ ?_⟩
    exact (hd.stopped hs 0 (Or.inl h)).2 h
  | succ budget ih =>
    rw [walk]
    split_ifs with hstop
    · obtain ⟨hfound, hall⟩ := hd.stopped hs (budget + 1) hstop
      exact ⟨s, by rw [hfound], hall⟩
    · obtain ⟨hdone, hcap⟩ := not_or.mp hstop
      cases vs with
      | nil => exact absurd ((hd.done_iff hs).mpr rfl) hdone
      | cons v vs =>
        obtain ⟨s', hround, hstands⟩ := hd.moves hs
        have hout : v.toList.length ≤ cap - found.length := by
          have hone : v.toList.length ≤ 1 := by cases v <;> simp
          omega
        obtain ⟨s'', hwalk, hall⟩ := @ih vs (found ++ v.toList) s' hstands
        refine ⟨s'', ?_, fun h ↦ ?_⟩
        · simp only [hround, hwalk, List.take_succ_cons, reduceOption_cons, List.append_assoc, List.length_append,
            List.take_append, List.take_of_length_le hout, Nat.sub_add_eq]
        · obtain ⟨hlen, hcount⟩ := hall h
          rw [List.length_append] at hcount
          rw [reduceOption_cons, List.length_append, List.length_cons]
          omega

end Walk

end TakyonDb.Lib
