import TakyonDb.Art.Region

namespace TakyonDb.Art

open Lib Set Heap Art.Tree

namespace Tree

variable {limit depth : ℕ} {key : Bytes} {value : UInt32} {new t t₁ t₂ : Tree} {h h₁ h₂ : Heap}

theorem Inserts.ne_nil (hi : Inserts limit key value new depth h t t₁ h₁) : t ≠ nil := by
  rintro rfl
  cases hi

/-- The tree and the heap decide what an insert makes of them. -/
theorem Inserts.unique (hi : Inserts limit key value new depth h t t₁ h₁)
    (hi' : Inserts limit key value new depth h t t₂ h₂) : t₁ = t₂ ∧ h₁ = h₂ := by
  induction hi generalizing t₂ h₂ with
  | overwrite =>
    cases hi' with
    | overwrite => exact ⟨rfl, rfl⟩
    | split hne _ => exact absurd rfl hne
  | split hne hs =>
    cases hi' with
    | overwrite => exact absurd rfl hne
    | split _ hs' => exact Prod.mk.inj (Option.some.inj (hs.symm.trans hs'))
  | @descend depth h off shape kids t h' hhas hins ih =>
    cases hi' with
    | descend _ hins' =>
      obtain ⟨rfl, rfl⟩ := ih hins'
      exact ⟨rfl, rfl⟩
    | claim hvacant _ =>
      cases shape with
      | slots kind keys => exact absurd hhas hvacant
      | direct count => exact absurd hvacant hins.ne_nil
    | grow hvacant _ _ => exact absurd hhas hvacant
  | @claim depth h off shape kids hvacant hroom =>
    cases hi' with
    | descend hhas hins' =>
      cases shape with
      | slots kind keys => exact absurd hhas hvacant
      | direct count => exact absurd hvacant hins'.ne_nil
    | claim _ _ => exact ⟨rfl, rfl⟩
    | grow _ hfull _ => exact (hroom hfull.ge).elim
  | grow hvacant hfull halloc =>
    cases hi' with
    | descend hhas _ => exact absurd hhas hvacant
    | claim _ hroom => exact (hroom hfull.ge).elim
    | grow _ _ halloc' =>
      obtain ⟨rfl, rfl⟩ := Prod.mk.inj (Option.some.inj (halloc.symm.trans halloc'))
      exact ⟨rfl, rfl⟩

end Tree

variable {ix : ArtIndex} {limit : ℕ} {s s' : ArtState} {h h₁ h₂ : Heap} {root root₁ root₂ : Tree} {key : Bytes}
  {value : UInt32}

/-- What an insert that finds its memory does to the tree and the heap. -/
inductive Binds (limit : ℕ) (key : Bytes) (value : UInt32) : Heap → Tree → Heap → Tree → Prop
  | refused {h : Heap} {root : Tree} (hbad : ¬ (ValidKey key ∧ value.toNat < limit)) :
    Binds limit key value h root h root
  | inserted {h h₁ h₂ h' : Heap} {root root₁ root' : Tree} {newOff : ℕ}
    (hgood : ValidKey key ∧ value.toNat < limit) (hroot : Rooted limit h root h₁ root₁)
    (hleaf : h₁.alloc limit (leafHeader + key.length) = some (newOff, h₂))
    (hins : Inserts limit key value (leaf newOff key value) 0 h₂ root₁ root' h') :
    Binds limit key value h root h' root'

theorem Rooted.unique (hr : Rooted limit h root h₁ root₁) (hr' : Rooted limit h root h₂ root₂) :
    root₁ = root₂ ∧ h₁ = h₂ := by
  cases hr with
  | kept hne =>
    cases hr' with
    | kept _ => exact ⟨rfl, rfl⟩
    | made _ => exact absurd rfl hne
  | made halloc =>
    cases hr' with
    | kept hne => exact absurd rfl hne
    | made halloc' =>
      obtain ⟨rfl, rfl⟩ := Prod.mk.inj (Option.some.inj (halloc.symm.trans halloc'))
      exact ⟨rfl, rfl⟩

theorem Binds.unique (hb : Binds limit key value h root h₁ root₁) (hb' : Binds limit key value h root h₂ root₂) :
    root₁ = root₂ ∧ h₁ = h₂ := by
  cases hb with
  | refused hbad =>
    cases hb' with
    | refused _ => exact ⟨rfl, rfl⟩
    | inserted hgood _ _ _ => exact absurd hgood hbad
  | inserted hgood hroot hleaf hins =>
    cases hb' with
    | refused hbad => exact absurd hgood hbad
    | inserted _ hroot' hleaf' hins' =>
      obtain ⟨rfl, rfl⟩ := hroot.unique hroot'
      obtain ⟨rfl, rfl⟩ := Prod.mk.inj (Option.some.inj (hleaf.symm.trans hleaf'))
      exact hins.unique hins'

theorem Binds.treeCall (hb : Binds limit key value h root h₁ root₁) :
    TreeCall limit h root (.insert key value) h₁ root₁ := by
  cases hb with
  | refused _ => exact .same
  | inserted hgood hroot hleaf hins => exact .inserted hgood hroot hleaf hins

theorem Binds.bump_le (hb : Binds limit key value h root h₁ root₁) : h₁.bump ≤ h.bump + root.callDemand key := by
  cases hb with
  | refused _ => exact Nat.le_add_right _ _
  | inserted _ hroot hleaf hins => exact hins.bump_le.trans (hroot.bump_le hleaf)

theorem Binds.lookup (hb : Binds limit key value h root h₁ root₁) (hgood : ValidKey key ∧ value.toNat < limit)
    (hwf : root.WF []) (k : Bytes) : root₁.lookup k 0 = if k = key then some value else root.lookup k 0 := by
  cases hb with
  | refused hbad => exact absurd hgood hbad
  | inserted _ hroot hleaf hins =>
    rw [(hins.spec hgood.1 [] rfl List.nil_prefix (hroot.wf hwf)).2 k, hroot.lookup]

/-- The state after a call whose errors are passed over; `none` when the call
does not come back. -/
def settled : EStateM.Result Stop ArtState Unit → Option ArtState
  | .ok _ s => some s
  | .error (.error _) s => some s
  | .error _ _ => none

/-- An insert that finds its memory comes back. -/
theorem Indexed.insert_binds (hx : Indexed ix limit s h root) (hall : root.Everywhere Bound)
    (hroom : ValidKey key → value.toNat < limit → h.bump + root.callDemand key ≤ limit) :
    ∃ s' h' root', (∀ fuel, maxDepth + 3 ≤ fuel → settled (Art.insert ix key value fuel s) = some s') ∧
      Moves ix limit s h root s' h' root' ∧ root'.Everywhere Bound ∧ Binds limit key value h root h' root' := by
  cases hx.insert key value with
  | refused hbad hrun => exact ⟨s, h, root, fun fuel _ ↦ by rw [hrun]; rfl, .refl hx, hall, .refused hbad⟩
  | failed hgood hfree hrun hmoves hroot hfull => exact absurd (hroom hgood.1 hgood.2) (not_le.mpr hfull)
  | stuck hgood hstuck => exact absurd hstuck (hall.not_stuck key 0)
  | @inserted s' h₁ h₂ h' root₁ root' newOff hgood hfree hroot hleaf hins hrun hmoves =>
    obtain ⟨hall', -⟩ := hins.everywhere bound_kept (everywhere_leaf newOff key value) (fun heq ↦ by cases heq) []
      rfl (hroot.wf hx.wf) (takes_trivial key root₁ 0) (hroot.everywhere hall)
    exact ⟨s', h', root', fun fuel hfuel ↦ by rw [hrun fuel hfuel]; rfl, hmoves, hall',
      .inserted hgood hroot hleaf hins⟩

end TakyonDb.Art
