import TakyonDb.Art.InsertMap
import TakyonDb.Art.RemoveRun

namespace TakyonDb.Art

open Lib Set Heap Art.Tree

variable {ix : ArtIndex} {limit fuel : ℕ} {s s₀ s' : ArtState} {h : Heap} {root t : Tree} {key : Bytes} {value : UInt32}

inductive Op
  | insert (key : Bytes) (value : UInt32)
  | remove (key : Bytes)

/-- A call that returns, with success or an error. -/
inductive IndexCall (ix : ArtIndex) : ArtState → Op → ArtState → Prop
  | inserted {s s' : ArtState} {key : Bytes} {value : UInt32} (hrun : Returns (insert ix key value) s (.ok () s')) :
    IndexCall ix s (.insert key value) s'
  | insertFailed {s s' : ArtState} {key : Bytes} {value : UInt32} {e : ArtError}
    (hrun : Returns (insert ix key value) s (.error (.error e) s')) : IndexCall ix s (.insert key value) s'
  | removed {s s' : ArtState} {key : Bytes} {found : Bool} (hrun : remove ix key s = .ok found s') :
    IndexCall ix s (.remove key) s'
  | removeFailed {s s' : ArtState} {key : Bytes} {e : ArtError} (hrun : remove ix key s = .error (.error e) s') :
    IndexCall ix s (.remove key) s'

/-- A call that never has enough fuel does not return. -/
theorem Hangs.not_returns {α : Type} {x : ℕ → ArtM α} {r : EStateM.Result Stop ArtState α} (hh : Hangs x s)
    (hr : Returns x s r) (hne : ∀ s', r ≠ .error .outOfFuel s') : False := by
  obtain ⟨n, hn⟩ := hr
  obtain ⟨s', hs'⟩ := hh n
  exact hne s' ((hn n le_rfl).symm.trans hs')

theorem IndexCall.insert_cases (hc : IndexCall ix s (.insert key value) s') :
    Returns (insert ix key value) s (.ok () s') ∨ ∃ e, Returns (insert ix key value) s (.error (.error e) s') := by
  cases hc with
  | inserted hrun => exact .inl hrun
  | insertFailed hrun => exact .inr ⟨_, hrun⟩

theorem IndexCall.remove_cases (hc : IndexCall ix s (.remove key) s') :
    (∃ found, remove ix key s = .ok found s') ∨ ∃ e, remove ix key s = .error (.error e) s' := by
  cases hc with
  | removed hrun => exact .inl ⟨_, hrun⟩
  | removeFailed hrun => exact .inr ⟨_, hrun⟩

/-- What a call that returns does to the tree. -/
inductive TreeCall (limit : ℕ) : Heap → Tree → Op → Heap → Tree → Prop
  | same {h : Heap} {root : Tree} {op : Op} : TreeCall limit h root op h root
  | failed {h h' : Heap} {root root' : Tree} {key : Bytes} {value : UInt32} (hgood : ValidKey key ∧ value.toNat < limit)
    (hroot : root' = root ∨ ∃ h₁, Rooted limit h root h₁ root') (hfull : limit < h.bump + root.callDemand key) :
    TreeCall limit h root (.insert key value) h' root'
  | inserted {h h₁ h₂ h' : Heap} {root root₁ root' : Tree} {newOff : ℕ} {key : Bytes} {value : UInt32}
    (hgood : ValidKey key ∧ value.toNat < limit) (hroot : Rooted limit h root h₁ root₁)
    (hleaf : h₁.alloc limit (leafHeader + key.length) = some (newOff, h₂))
    (hins : Inserts limit key value (leaf newOff key value) 0 h₂ root₁ root' h') :
    TreeCall limit h root (.insert key value) h' root'
  | removed {h h' : Heap} {root root' : Tree} {key : Bytes} {up : Bool} (hgood : ValidKey key)
    (hrem : Removes limit key true 0 h root root' h' up) : TreeCall limit h root (.remove key) h' root'

/-- A call leads from an index to an index. -/
theorem Indexed.call {op : Op} (hx : Indexed ix limit s h root) (hc : IndexCall ix s op s') :
    ∃ h' root', Moves ix limit s h root s' h' root' ∧ TreeCall limit h root op h' root' := by
  cases op with
  | insert key value =>
    have hret : ∀ {r}, Returns (Art.insert ix key value) s r → (∀ s', r ≠ .error .outOfFuel s') →
        r = .ok () s' ∨ (∃ e, r = .error (.error e) s') := by
      intro r hr hne
      rcases hc.insert_cases with hok | ⟨e, hfail⟩
      · exact .inl (hr.unique hok)
      · exact .inr ⟨e, hr.unique hfail⟩
    cases hx.insert key value with
    | refused hbad hrun =>
      obtain hr | ⟨e, hr⟩ := hret ⟨0, fun fuel _ ↦ hrun fuel⟩ (fun _ heq ↦ by cases heq)
      · cases hr
      · cases hr
        exact ⟨h, root, .refl hx, .same⟩
    | failed hgood hfree hrun hmoves hroot hfull =>
      obtain hr | ⟨e, hr⟩ := hret ⟨_, hrun⟩ (fun _ heq ↦ by cases heq)
      · cases hr
      · cases hr
        exact ⟨_, _, hmoves, .failed hgood hroot hfull⟩
    | inserted hgood hfree hroot hleaf hins hrun hmoves =>
      obtain hr | ⟨e, hr⟩ := hret ⟨_, hrun⟩ (fun _ heq ↦ by cases heq)
      · cases hr
        exact ⟨_, _, hmoves, .inserted hgood hroot hleaf hins⟩
      · cases hr
    | stuck hgood hstuck hleaf hrun =>
      rcases hc.insert_cases with hok | ⟨e, hfail⟩
      · exact (hrun.not_returns hok fun _ heq ↦ by cases heq).elim
      · exact (hrun.not_returns hfail fun _ heq ↦ by cases heq).elim
  | remove key =>
    have hret : ∀ {r}, Art.remove ix key s = r → (∃ found, r = .ok found s') ∨ ∃ e, r = .error (.error e) s' := by
      rintro r rfl
      exact hc.remove_cases
    cases hx.remove key with
    | refused hbad hrun =>
      obtain ⟨found, hr⟩ | ⟨e, hr⟩ := hret hrun
      · cases hr
      · cases hr
        exact ⟨h, root, .refl hx, .same⟩
    | absent hgood hnone hrun =>
      obtain ⟨found, hr⟩ | ⟨e, hr⟩ := hret hrun
      · cases hr
        exact ⟨h, root, .refl hx, .same⟩
      · cases hr
    | removed hgood hrem hrun hmoves =>
      obtain ⟨found, hr⟩ | ⟨e, hr⟩ := hret hrun
      · cases hr
        exact ⟨_, _, hmoves, .removed hgood hrem⟩
      · cases hr

/-- Every state that calls reach holds an index. -/
theorem Indexed.run (hx : Indexed ix limit s₀ h root) (hrun : Run (IndexCall ix) (fun _ _ ↦ True) s₀ s) :
    ∃ h' root', Indexed ix limit s h' root' := by
  refine hrun.invariant (fun s ↦ ∃ h' root', Indexed ix limit s h' root') ?_ ⟨_, _, hx⟩
  rintro s op t ⟨h', root', hx'⟩ - hc
  obtain ⟨h₂, root₂, hmoves, -⟩ := hx'.call hc
  exact ⟨h₂, root₂, hmoves.indexed⟩

end TakyonDb.Art
