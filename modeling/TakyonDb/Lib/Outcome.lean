import Mathlib.Data.List.Basic

namespace TakyonDb.Lib

theorem bind_eq_ok {ε α β : Type} {x : Except ε α} {f : α → Except ε β} {b : β} :
    x >>= f = .ok b ↔ ∃ a, x = .ok a ∧ f a = .ok b := by
  cases x with
  | error e => simp [bind, Except.bind]
  | ok a => simp [bind, Except.bind]

theorem check_eq_ok {ε β : Type} {x : Except ε Unit} {f : Unit → Except ε β} {b : β} :
    x >>= f = .ok b ↔ x = .ok () ∧ f () = .ok b := by
  rw [bind_eq_ok]
  exact ⟨fun ⟨_, hx, hf⟩ ↦ ⟨hx, hf⟩, fun ⟨hx, hf⟩ ↦ ⟨(), hx, hf⟩⟩

section MapM

variable {ε α β : Type} {f : α → Except ε β}

theorem mapM_cons_eq_ok {a : α} {as : List α} {bs : List β} :
    (a :: as).mapM f = .ok bs ↔ ∃ b cs, f a = .ok b ∧ as.mapM f = .ok cs ∧ bs = b :: cs := by
  rw [List.mapM_cons, bind_eq_ok]
  simp only [bind_eq_ok]
  constructor
  · intro ⟨b, hb, cs, hcs, h⟩
    exact ⟨b, cs, hb, hcs, (Except.ok.inj h).symm⟩
  · intro ⟨b, cs, hb, hcs, h⟩
    exact ⟨b, hb, cs, hcs, congrArg _ h.symm⟩

theorem exists_mapM_eq_ok {as : List α} : (∃ bs, as.mapM f = .ok bs) ↔ ∀ a ∈ as, ∃ b, f a = .ok b := by
  induction as with
  | nil => simp [List.mapM_nil, pure, Except.pure]
  | cons a as ih =>
    rw [List.forall_mem_cons, ← ih]
    simp only [mapM_cons_eq_ok]
    constructor
    · intro ⟨_, b, cs, hb, hcs, _⟩
      exact ⟨⟨b, hb⟩, cs, hcs⟩
    · intro ⟨⟨b, hb⟩, cs, hcs⟩
      exact ⟨b :: cs, b, cs, hb, hcs, rfl⟩

theorem length_of_mapM_eq_ok {as : List α} {bs : List β} (h : as.mapM f = .ok bs) : bs.length = as.length := by
  induction as generalizing bs with
  | nil => cases h; rfl
  | cons a as ih =>
    obtain ⟨b, cs, _, hcs, hbs⟩ := mapM_cons_eq_ok.mp h
    rw [hbs, List.length_cons, List.length_cons, ih hcs]

theorem mapM_map_eq_ok {γ : Type} {g : γ → α} {k : γ → β} (h : ∀ c, f (g c) = .ok (k c)) (cs : List γ) :
    (cs.map g).mapM f = .ok (cs.map k) := by
  induction cs with
  | nil => rfl
  | cons c cs ih => exact mapM_cons_eq_ok.mpr ⟨k c, cs.map k, h c, ih, rfl⟩

end MapM

/-- The result of a step on a mutable state. A failed step keeps the
changes it made before it failed. -/
inductive Outcome (ε σ : Type)
  | ok (s : σ)
  | fail (e : ε) (s : σ)
deriving DecidableEq

namespace Outcome

variable {ε σ : Type}

def andThen : Outcome ε σ → (σ → Outcome ε σ) → Outcome ε σ
  | .ok s, f => f s
  | .fail e s, _ => .fail e s

/-- The state afterwards, when the caller ignores the error. -/
def state : Outcome ε σ → σ
  | .ok s | .fail _ s => s

/-- Reads the state of either end. -/
def map {τ : Type} (f : σ → τ) : Outcome ε σ → Outcome ε τ
  | .ok s => .ok (f s)
  | .fail e s => .fail e (f s)

@[simp] theorem ok_andThen (s : σ) (f : σ → Outcome ε σ) : (ok s).andThen f = f s := rfl

@[simp] theorem fail_andThen (e : ε) (s : σ) (f : σ → Outcome ε σ) :
    (fail e s).andThen f = fail e s := rfl

@[simp] theorem state_ok (s : σ) : (ok s : Outcome ε σ).state = s := rfl

@[simp] theorem state_fail (e : ε) (s : σ) : (fail e s).state = s := rfl

theorem andThen_eq_ok {r : Outcome ε σ} {f : σ → Outcome ε σ} {t : σ} :
    r.andThen f = ok t ↔ ∃ s, r = ok s ∧ f s = ok t := by
  cases r <;> simp [andThen]

/-- Runs the steps in order and stops at the first failure. -/
def fold {α : Type} (step : α → σ → Outcome ε σ) : List α → σ → Outcome ε σ
  | [], s => ok s
  | a :: as, s => (step a s).andThen (fold step as)

theorem fold_append {α : Type} (step : α → σ → Outcome ε σ) (as bs : List α) (s : σ) :
    fold step (as ++ bs) s = (fold step as s).andThen (fold step bs) := by
  induction as generalizing s with
  | nil => rfl
  | cons a as ih =>
    simp only [List.cons_append, fold]
    cases step a s with
    | ok t => exact ih t
    | fail e t => rfl

/-- A failed run failed at one of its steps, after those before it had succeeded. -/
theorem fold_fail {α : Type} {step : α → σ → Outcome ε σ} {as : List α} {s t : σ} {e : ε}
    (h : fold step as s = fail e t) : ∃ pre a post u,
      as = pre ++ a :: post ∧ fold step pre s = ok u ∧ step a u = fail e t := by
  induction as generalizing s with
  | nil => cases h
  | cons a as ih =>
    cases hrun : step a s with
    | ok u =>
      rw [fold, hrun] at h
      obtain ⟨pre, b, post, v, has, hpre, hb⟩ := ih h
      refine ⟨a :: pre, b, post, v, congrArg _ has, ?_, hb⟩
      rw [fold, hrun]
      exact hpre
    | fail e' u =>
      rw [fold, hrun] at h
      cases h
      exact ⟨[], a, as, s, rfl, rfl, hrun⟩

/-- What every step carries over, whether it succeeds or not, a run carries over. -/
theorem fold_state {α : Type} {step : α → σ → Outcome ε σ} (P : σ → Prop) (hstep : ∀ a s, P s → P (step a s).state)
    (as : List α) (s : σ) (hs : P s) : P (fold step as s).state := by
  induction as generalizing s with
  | nil => exact hs
  | cons a as ih =>
    have hnext := hstep a s hs
    rw [fold]
    cases hrun : step a s with
    | ok t =>
      rw [hrun] at hnext
      exact ih t hnext
    | fail e t =>
      rw [hrun] at hnext
      exact hnext

end Outcome

end TakyonDb.Lib
