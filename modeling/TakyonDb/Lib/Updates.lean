import Mathlib.Data.List.Induction

namespace TakyonDb.Lib

variable {κ ν : Type}

/-- The updates that bind a key, in their order. -/
def bindings (history : List (κ × Option ν)) : List (κ × ν) :=
  history.filterMap fun u ↦ u.2.map (u.1, ·)

/-- The same as a history without removals. -/
def bindAll (ops : List (κ × ν)) : List (κ × Option ν) := ops.map fun u ↦ (u.1, some u.2)

theorem bindAll_append (ops ops' : List (κ × ν)) : bindAll (ops ++ ops') = bindAll ops ++ bindAll ops' :=
  List.map_append

theorem mem_bindings {history : List (κ × Option ν)} {k : κ} {v : ν} :
    (k, v) ∈ bindings history ↔ (k, some v) ∈ history := by
  rw [bindings, List.mem_filterMap]
  constructor
  · rintro ⟨⟨key, value⟩, hmem, hvalue⟩
    obtain ⟨w, rfl, hw⟩ := Option.map_eq_some_iff.mp hvalue
    cases hw
    exact hmem
  · intro hmem
    exact ⟨_, hmem, rfl⟩

variable [DecidableEq κ]

/-- What a key is bound to after a history of updates: each binds its key
to a value, or to nothing. -/
def resolve (history : List (κ × Option ν)) (k : κ) : Option ν :=
  history.foldl (fun found u ↦ if u.1 = k then u.2 else found) none

/-- The key was bound once and its last update is a removal. -/
def Forgotten (history : List (κ × Option ν)) (k : κ) : Prop :=
  resolve history k = none ∧ ∃ v, (k, some v) ∈ history

variable {history : List (κ × Option ν)} {k : κ} {v : ν}

@[simp] theorem resolve_nil (k : κ) : resolve ([] : List (κ × Option ν)) k = none := rfl

@[simp] theorem resolve_concat (history : List (κ × Option ν)) (u : κ × Option ν) (k : κ) :
    resolve (history ++ [u]) k = if u.1 = k then u.2 else resolve history k := by
  rw [resolve, List.foldl_append, List.foldl_cons, List.foldl_nil, resolve]

/-- A key that resolves to a value has it from its last binding. -/
theorem resolve_bindings (h : resolve history k = some v) :
    resolve (bindAll (bindings history)) k = some v := by
  induction history using List.reverseRecOn with
  | nil => cases h
  | append_singleton history u ih =>
    obtain ⟨key, value⟩ := u
    rw [resolve_concat] at h
    rw [bindings, List.filterMap_append, ← bindings, bindAll_append]
    cases value with
    | none =>
      split_ifs at h with hk
      rw [List.filterMap_cons_none rfl, List.filterMap_nil]
      simpa [bindAll] using ih h
    | some value =>
      have hone : bindAll ([(key, some value)].filterMap fun u ↦ u.2.map (u.1, ·)) = [(key, some value)] := rfl
      rw [hone, resolve_concat]
      split_ifs at h ⊢ with hk
      · exact h
      · exact ih h

theorem resolve_bindAll_eq_none {ops : List (κ × ν)} :
    resolve (bindAll ops) k = none ↔ ∀ v, (k, v) ∉ ops := by
  induction ops using List.reverseRecOn with
  | nil => simp [bindAll]
  | append_singleton ops u ih =>
    obtain ⟨key, value⟩ := u
    have hone : bindAll [(key, value)] = [(key, some value)] := rfl
    rw [bindAll_append, hone, resolve_concat]
    split_ifs with hk
    · simp only [false_iff, not_forall, not_not]
      exact ⟨value, by simp [← show key = k from hk]⟩
    · rw [ih]
      have hne : ∀ v, (k, v) ≠ (key, value) := fun v heq ↦ hk (congrArg Prod.fst heq).symm
      simp [hne]

theorem resolve_bindings_of_not_forgotten (h : ¬ Forgotten history k) :
    resolve (bindAll (bindings history)) k = resolve history k := by
  cases hk : resolve history k with
  | some v => exact resolve_bindings hk
  | none =>
    rw [resolve_bindAll_eq_none]
    intro v hv
    exact h ⟨hk, v, mem_bindings.mp hv⟩

/-- The same bindings, in any order and without the removals, give a key
what the history gives it exactly when the key is not forgotten and the
order does not matter to it. -/
theorem resolve_eq_iff {ops : List (κ × ν)} (hmem : ∀ u, u ∈ ops ↔ u ∈ bindings history) :
    resolve (bindAll ops) k = resolve history k ↔
      ¬ Forgotten history k ∧ resolve (bindAll ops) k = resolve (bindAll (bindings history)) k := by
  constructor
  · intro heq
    have hkept : ¬ Forgotten history k := by
      rintro ⟨hnone, v, hv⟩
      rw [← heq, resolve_bindAll_eq_none] at hnone
      exact hnone v ((hmem _).mpr (mem_bindings.mpr hv))
    exact ⟨hkept, heq.trans (resolve_bindings_of_not_forgotten hkept).symm⟩
  · rintro ⟨hkept, heq⟩
    rw [heq, resolve_bindings_of_not_forgotten hkept]

end TakyonDb.Lib
