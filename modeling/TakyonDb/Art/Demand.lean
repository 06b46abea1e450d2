import TakyonDb.Art.Calls

namespace TakyonDb.Art

open Lib Set Heap Art.Tree

namespace Tree

variable {limit depth off n : ℕ} {key existing : Bytes} {value : UInt32} {new top t t' root root' root₁ : Tree}
  {h h' h₁ h₂ : Heap} {shape : Shape} {kids : UInt8 → Tree} {up : Bool}

theorem links_bump_le {start : ℕ} (hl : links limit key start n top h = some (t, h')) : h'.bump ≤ h.bump + 24 * n := by
  induction n generalizing top h with
  | zero =>
    obtain ⟨-, rfl⟩ := Prod.mk.inj (Option.some.inj hl)
    exact le_rfl
  | succ n ih =>
    rw [links] at hl
    cases halloc : h.alloc limit SlotKind.node4.size with
    | none =>
      rw [halloc] at hl
      cases hl
    | some granted =>
      rw [halloc] at hl
      have hbump := alloc_bump_le halloc
      rw [alignSize_node4] at hbump
      have hrest := ih hl
      omega

theorem split_bump_le {old : Tree} {start : ℕ} (hs : split limit existing key old new start h = some (t, h')) :
    h'.bump ≤ h.bump + 24 * (splitPoint existing key start - start + 1) := by
  rw [split] at hs
  generalize splitPoint existing key start = p at hs ⊢
  cases halloc : h.alloc limit SlotKind.node4.size with
  | none =>
    rw [halloc] at hs
    cases hs
  | some granted =>
    rw [halloc] at hs
    have hbump := alloc_bump_le halloc
    rw [alignSize_node4] at hbump
    have hrest := links_bump_le hs
    omega

/-- A descent takes no more than it demands. -/
theorem Inserts.bump_le (hi : Inserts limit key value new depth h t t' h') : h'.bump ≤ h.bump + t.demand key depth := by
  induction hi with
  | overwrite => exact Nat.le_add_right _ _
  | split hne hs =>
    rw [demand, if_neg hne]
    exact split_bump_le hs
  | descend hhas hins ih =>
    rw [demand, if_pos hhas]
    exact ih
  | claim => exact Nat.le_add_right _ _
  | @grow depth h off kind keys kids off' h' hvacant hfull halloc =>
    have hnot : ¬ (Shape.slots kind keys).Has (slotByte key depth) := hvacant
    have hroom : (Shape.slots kind keys).Full := hfull.ge
    have hbump := alloc_bump_le halloc
    rw [alignSize_size] at hbump
    rw [demand, if_neg hnot, if_pos hroom]
    exact hbump

theorem splitPoint_le (existing key : Bytes) (p : ℕ) : splitPoint existing key p ≤ max p key.length := by
  fun_induction splitPoint existing key p with
  | case1 p hp ih => omega
  | case2 p hp => exact le_max_left _ _

theorem grow_size_le (shape : Shape) : shape.grow.size ≤ node256Size := by
  cases shape with
  | slots kind keys => cases kind <;> simp [Shape.grow, Shape.size, SlotKind.size, node256Size]
  | direct count => exact le_rfl

/-- What a descent takes is bounded by the length of its key. -/
theorem demand_le (key : Bytes) : ∀ (t : Tree) (depth : ℕ), t.demand key depth ≤ node256Size + 24 * (key.length + 1)
  | nil, _ => Nat.zero_le _
  | leaf _ existing _, depth => by
    have hpoint := splitPoint_le existing key depth
    rw [demand]
    split_ifs
    · exact Nat.zero_le _
    · omega
  | inner _ shape kids, depth => by
    have hgrow := grow_size_le shape
    rw [demand]
    split_ifs
    · exact demand_le key _ _
    · omega
    · exact Nat.zero_le _

end Tree

variable {limit : ℕ} {key : Bytes} {root root₁ : Tree} {h h₁ h₂ : Heap}

theorem Rooted.bump_le (hr : Rooted limit h root h₁ root₁) {newOff : ℕ}
    (hleaf : h₁.alloc limit (leafHeader + key.length) = some (newOff, h₂)) :
    h₂.bump + root₁.demand key 0 ≤ h.bump + root.callDemand key := by
  have hbump := alloc_bump_le hleaf
  cases hr with
  | kept hne =>
    cases root with
    | nil => exact absurd rfl hne
    | leaf => simp only [callDemand]; omega
    | inner => simp only [callDemand]; omega
  | @made _ off halloc =>
    have hnode := alloc_bump_le halloc
    have hempty : (node4 off []).demand key 0 = 0 := rfl
    rw [alignSize_node4] at hnode
    rw [hempty]
    simp only [callDemand, SlotKind.size]
    omega

/-- What a call takes is bounded by the length of its key. -/
def insertBound (key : Bytes) : ℕ :=
  SlotKind.node4.size + alignSize (leafHeader + key.length) + (node256Size + 24 * (key.length + 1))

theorem callDemand_le (key : Bytes) (root : Tree) : root.callDemand key ≤ insertBound key := by
  have hdemand := demand_le key root 0
  cases root with
  | nil => simp only [callDemand, insertBound]; omega
  | leaf => simp only [callDemand, insertBound]; omega
  | inner => simp only [callDemand, insertBound]; omega

/-- A call that does not get stuck and finds its memory succeeds. -/
theorem Indexed.insert_ok {ix : ArtIndex} {s : ArtState} {value : UInt32} (hx : Indexed ix limit s h root)
    (hgood : ValidKey key ∧ value.toNat < limit) (hfree : ¬ root.Stuck key 0)
    (hroom : h.bump + root.callDemand key ≤ limit) : ∃ s', Returns (Art.insert ix key value) s (.ok () s') := by
  cases hx.insert key value with
  | refused hbad => exact absurd hgood hbad
  | failed hgood hfree hrun hmoves hroot hfull => omega
  | stuck hgood hstuck => exact absurd hstuck hfree
  | inserted hgood hfree hroot hleaf hins hrun hmoves => exact ⟨_, _, hrun⟩

/-- A root with a leaf under its only entry. -/
def Tree.single (off newOff : ℕ) (key : Bytes) (value : UInt32) : Tree :=
  inner off (.slots .node4 [slotByte key 0]) (Function.update (kidsOf []) (slotByte key 0) (leaf newOff key value))

/-- The first insert makes the root and a leaf under its only entry. -/
theorem Indexed.insert_first {ix : ArtIndex} {s : ArtState} {value : UInt32} (hx : Indexed ix limit s h .nil)
    (hgood : ValidKey key ∧ value.toNat < limit) (hroom : h.bump + Tree.nil.callDemand key ≤ limit) :
    ∃ s' off h₁ newOff h₂, h.alloc limit SlotKind.node4.size = some (off, h₁) ∧
      h₁.alloc limit (leafHeader + key.length) = some (newOff, h₂) ∧ Returns (Art.insert ix key value) s (.ok () s') ∧
      Indexed ix limit s' h₂ (single off newOff key value) := by
  cases hx.insert key value with
  | refused hbad => exact absurd hgood hbad
  | failed hgood hfree hrun hmoves hroot hfull => omega
  | stuck hgood hstuck => exact hstuck.elim
  | @inserted s' h₁ h₂ h' root₁ root' newOff hgood hfree hroot hleaf hins hrun hmoves =>
    cases hroot with
    | kept hne => exact absurd rfl hne
    | @made _ off halloc =>
      cases hins with
      | descend hhas => exact absurd hhas List.not_mem_nil
      | grow _ hfull => cases hfull
      | claim => exact ⟨s', off, h₁, newOff, h₂, halloc, hleaf, ⟨_, hrun⟩, hmoves.indexed⟩

end TakyonDb.Art
