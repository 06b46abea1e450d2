import Mathlib.Logic.Relation

namespace TakyonDb.Lib

variable {σ α : Type}

/-- A run of a labelled step relation whose steps all meet the guard `ok`. -/
def Run (step : σ → α → σ → Prop) (ok : σ → α → Prop) : σ → σ → Prop :=
  Relation.ReflTransGen fun s t ↦ ∃ a, ok s a ∧ step s a t

namespace Run

variable {step : σ → α → σ → Prop} {ok : σ → α → Prop} {s t u : σ}

theorem refl (s : σ) : Run step ok s s := Relation.ReflTransGen.refl

theorem tail {a : α} (h : Run step ok s t) (hok : ok t a) (hstep : step t a u) : Run step ok s u :=
  Relation.ReflTransGen.tail h ⟨a, hok, hstep⟩

theorem trans (h : Run step ok s t) (h' : Run step ok t u) : Run step ok s u :=
  Relation.ReflTransGen.trans h h'

theorem mono {ok' : σ → α → Prop} (h : Run step ok s t) (hok : ∀ s a, ok s a → ok' s a) :
    Run step ok' s t := by
  induction h with
  | refl => exact refl s
  | tail _ hlast ih =>
    obtain ⟨a, ha, hlast⟩ := hlast
    exact ih.tail (hok _ a ha) hlast

/-- What every step of a run preserves holds at its end. -/
theorem invariant (Inv : σ → Prop) (hstep : ∀ s a t, Inv s → ok s a → step s a t → Inv t)
    (h : Run step ok s t) (hs : Inv s) : Inv t := by
  induction h with
  | refl => exact hs
  | tail _ hlast ih =>
    obtain ⟨a, hok, hlast⟩ := hlast
    exact hstep _ a _ ih hok hlast

/-- Where every label leads somewhere, a list of labels is a run. -/
theorem foldl {next : σ → α → σ} (hnext : ∀ s a, Run step ok s (next s a)) (s : σ) (as : List α) :
    Run step ok s (as.foldl next s) := by
  induction as generalizing s with
  | nil => exact refl s
  | cons a as ih => exact (hnext s a).trans (ih (next s a))

end Run

end TakyonDb.Lib
