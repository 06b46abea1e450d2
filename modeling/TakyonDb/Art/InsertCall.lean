import TakyonDb.Art.Indexed

namespace TakyonDb.Art

open Lib Set Heap Art.Tree

variable {ix : ArtIndex} {limit off newOff : ℕ} {s s' s₁ s₂ : ArtState} {h h' h₁ h₂ : Heap} {key : Bytes}
  {value : UInt32} {root root' : Tree}

instance : DecidablePred ValidKey := fun key ↦ inferInstanceAs (Decidable (key ≠ [] ∧ _))

theorem run_validateKey (key : Bytes) (s : ArtState) :
    validateKey key s = if ValidKey key then .ok () s else .error (.error .invalidKey) s := by
  have hempty : key.length = 0 ↔ key = [] := List.length_eq_zero_iff
  rw [validateKey]
  by_cases hlen : key.length = 0 ∨ maxKeyLen < key.length
  · have hbad : ¬ ValidKey key := fun hv ↦ hlen.elim (fun hz ↦ hv.1 (hempty.mp hz)) (not_lt.mpr hv.2.1)
    simp only [if_pos hlen, if_neg hbad]
    rfl
  · simp only [if_neg hlen]
    by_cases hmem : terminator ∈ key
    · have hbad : ¬ ValidKey key := fun hv ↦ hv.2.2 hmem
      simp only [if_pos hmem, if_neg hbad]
      rfl
    · have hgood : ValidKey key := ⟨fun hz ↦ hlen (.inl (hempty.mpr hz)), not_lt.mp fun hlt ↦ hlen (.inr hlt), hmem⟩
      simp only [if_neg hmem, if_pos hgood]
      rfl

/-- The tree when an insert starts its descent. -/
inductive Rooted (limit : ℕ) : Heap → Tree → Heap → Tree → Prop
  | kept {h : Heap} {root : Tree} (hne : root ≠ .nil) : Rooted limit h root h root
  | made {h h' : Heap} {off : ℕ} (halloc : h.alloc limit SlotKind.node4.size = some (off, h')) :
    Rooted limit h .nil h' (node4 off [])

theorem Rooted.inner (hr : Rooted limit h root h' root') (hkind : root = .nil ∨ root.IsInner) : root'.IsInner := by
  cases hr with
  | kept hne => exact hkind.resolve_left hne
  | made => trivial

theorem Rooted.lookup (hr : Rooted limit h root h' root') (k : Bytes) : root'.lookup k 0 = root.lookup k 0 := by
  cases hr with
  | kept => rfl
  | made => rfl

theorem wf_emptyRoot (off : ℕ) : (node4 off []).WF [] :=
  wf_node4 (by decide) List.not_mem_nil List.nodup_nil (by decide) (by simp)

theorem run_ensureRoot (hx : Indexed ix limit s h root) (hne : root ≠ .nil) :
    ensureRoot ix ix.rootPtrOffset s = .ok () s := by
  rw [ensureRoot, bind_ok (run_load _ _), hx.word]
  simp only [if_neg (raw_ne_zero hx.laid hne)]
  rfl

/-- A first node goes into an empty root word. -/
theorem run_ensureRoot_made (hx : Indexed ix limit s h .nil)
    (halloc : h.alloc limit SlotKind.node4.size = some (off, h')) :
    ∃ s', ensureRoot ix ix.rootPtrOffset s = .ok () s' ∧ Moves ix limit s h .nil s' h' (node4 off []) := by
  have hg : Granted limit (Shape.slots .node4 []).size off h h' := alloc_granted hx.arena.sound halloc
  obtain ⟨s₁, hrun, hsp, hzero⟩ := run_allocZeroed hx.arena halloc
  have hbuilt : Built limit h h' (Tree.nil.foot ∪ ∅) (node4 off []) :=
    inner_built hg (fun _ ↦ trivial) (fun _ ↦ empty_subset _) (fun _ _ _ ↦ disjoint_empty _) (by simp [foot])
  have hst : Stored s₁.mem (node4 off []) := by
    refine ⟨⟨?_, fun i hi ↦ absurd hi (Nat.not_lt_zero i), fun b hb ↦ absurd hb List.not_mem_nil⟩, fun _ ↦ trivial⟩
    rw [hzero off ⟨le_rfl, by simp only [SlotKind.size]; omega⟩]
    rfl
  have hheld := hx.held (show Stored s.mem .nil from trivial) (disjoint_empty _) (disjoint_empty _)
  obtain ⟨hword, hplaced⟩ := placed_link hheld hsp hst (wf_emptyRoot off) hbuilt.laid hbuilt.foot
  refine ⟨_, ?_, hx.place (.refl hx.arena) hplaced hbuilt.changed (empty_subset _) (wf_emptyRoot off) (.inr trivial)⟩
  have hzero' : readU32 s.mem ix.rootPtrOffset = 0 := hx.word
  have hword' : readU32 s₁.mem ix.rootPtrOffset = 0 := hword
  rw [ensureRoot, bind_ok (run_load _ _), hzero']
  simp only [if_true]
  rw [bind_ok hrun, bind_ok (run_newPtr hg.aligned .node4), bind_ok (run_cmpxchg hword')]
  rfl

theorem run_ensureRoot_none (hx : Indexed ix limit s h .nil) (halloc : h.alloc limit SlotKind.node4.size = none) :
    ensureRoot ix ix.rootPtrOffset s = .error (.error .outOfMemory) s := by
  have hzero : readU32 s.mem ix.rootPtrOffset = 0 := hx.word
  rw [ensureRoot, bind_ok (run_load _ _), hzero]
  simp only [if_true]
  rw [bind_error (run_allocZeroed_none hx.arena halloc)]

/-- The leaf that an insert makes before its descent. -/
theorem Indexed.newLeaf (value : UInt32) (hx : Indexed ix limit s h root) (hk : ValidKey key)
    (halloc : h.alloc limit (leafHeader + key.length) = some (newOff, h')) :
    ∃ s', allocLeaf ix key value s = .ok newOff s' ∧ Spent ix limit s h s' h' ∧
      Stored s'.mem (leaf newOff key value) ∧ (leaf newOff key value).Laid limit ∧
      (leaf newOff key value).foot ⊆ taken h h' ∧ Disjoint (leaf newOff key value).foot h'.avail := by
  have hg := alloc_granted hx.arena.sound halloc
  have hlen : key.length < 2 ^ 32 := hk.2.1.trans_lt (by decide)
  obtain ⟨s', hrun, ha, hch, hst⟩ := run_allocLeaf value hx.arena hlen halloc
  exact ⟨s', hrun, ⟨hg.toSpends, ha, hch.mono (union_subset_union_right _ hg.taken)⟩, hst, ⟨hg.aligned, hg.fits⟩,
    hg.taken, hg.apart⟩

/-- No fuel is enough. -/
def Hangs {α : Type} (x : ℕ → ArtM α) (s : ArtState) : Prop := ∀ fuel, ∃ s', x fuel s = .error .outOfFuel s'

theorem insertLoop_none {fuel newLeaf : ℕ} (hne : readU32 s.mem ix.rootPtrOffset ≠ 0) :
    insertLoop ix key value newLeaf (fuel + 1) none s =
      insertLoop ix key value newLeaf fuel (some ⟨ix.rootPtrOffset, readU32 s.mem ix.rootPtrOffset, 0⟩) s := by
  rw [insertLoop, bind_ok (run_load _ _)]
  simp only [if_neg hne]

/-- More fuel does not change a result. -/
theorem insertLoop_mono {newLeaf fuel fuel' : ℕ} (hle : fuel ≤ fuel') :
    ∀ (c : Option Cursor) (s : ArtState), (∀ s', insertLoop ix key value newLeaf fuel c s ≠ .error .outOfFuel s') →
      insertLoop ix key value newLeaf fuel' c s = insertLoop ix key value newLeaf fuel c s := by
  induction fuel generalizing fuel' with
  | zero => exact fun c s hends ↦ absurd (by cases c <;> rfl) (hends s)
  | succ fuel ih =>
    obtain ⟨fuel', rfl⟩ : ∃ f, fuel' = f + 1 := ⟨fuel' - 1, by omega⟩
    have hle' : fuel ≤ fuel' := by omega
    intro c s hends
    cases c with
    | none =>
      rw [insertLoop, bind_ok (run_load _ _)] at hends ⊢
      rw [insertLoop, bind_ok (run_load _ _)]
      split_ifs at hends ⊢ with hzero
      · exact ih hle' _ _ hends
      · exact ih hle' _ _ hends
    | some c =>
      rw [insertLoop_succ] at hends ⊢
      rw [insertLoop_succ]
      cases hstep : insertStep ix key value newLeaf c s with
      | error stop s' => rw [bind_error hstep, bind_error hstep]
      | ok p s' =>
        rw [bind_ok hstep] at hends ⊢
        rw [bind_ok hstep]
        cases p with
        | done => rfl
        | descend next => exact ih hle' _ _ hends
        | restart => exact ih hle' _ _ hends

/-- A descent that comes back to the root in the state it started from never ends. -/
theorem insertLoop_hangs {newLeaf n : ℕ} (hne : readU32 s.mem ix.rootPtrOffset ≠ 0)
    (hback : ∀ fuel, insertLoop ix key value newLeaf (fuel + n)
      (some ⟨ix.rootPtrOffset, readU32 s.mem ix.rootPtrOffset, 0⟩) s = insertLoop ix key value newLeaf fuel none s) :
    Hangs (fun fuel ↦ insertLoop ix key value newLeaf fuel none) s := by
  intro fuel
  induction fuel using Nat.strong_induction_on with
  | h fuel ih =>
    cases fuel with
    | zero => exact ⟨s, rfl⟩
    | succ fuel =>
      dsimp only
      rw [insertLoop_none hne]
      rcases le_or_gt n fuel with hn | hn
      · obtain ⟨k, rfl⟩ : ∃ k, fuel = k + n := ⟨fuel - n, by omega⟩
        rw [hback]
        exact ih k (by omega)
      · by_contra hends
        have hends' := not_exists.mp hends
        have hlate := insertLoop_mono hn.le _ _ hends'
        have hzero := hback 0
        rw [Nat.zero_add, hlate] at hzero
        exact hends' s hzero

/-- What a call takes from the heap, in bytes: a node for an empty root,
the leaf, and what its descent takes. -/
def Tree.callDemand (key : Bytes) : Tree → ℕ
  | .nil => SlotKind.node4.size + alignSize (leafHeader + key.length)
  | root => alignSize (leafHeader + key.length) + root.demand key 0

/-- The ends of a call: the key is refused, memory runs out, the key is
inserted, or the loop goes round for ever. -/
inductive CallEnds (ix : ArtIndex) (limit : ℕ) (key : Bytes) (value : UInt32) (s : ArtState) (h : Heap)
    (root : Tree) : Prop
  | refused (hbad : ¬ (ValidKey key ∧ value.toNat < limit))
    (hrun : ∀ fuel, insert ix key value fuel s = .error (.error .invalidKey) s)
  | failed {s' : ArtState} {h' : Heap} {root' : Tree} (hgood : ValidKey key ∧ value.toNat < limit)
    (hfree : ¬ root.Stuck key 0 ∨ h.alloc limit (leafHeader + key.length) = none)
    (hrun : ∀ fuel, maxDepth + 3 ≤ fuel → insert ix key value fuel s = .error (.error .outOfMemory) s')
    (hmoves : Moves ix limit s h root s' h' root') (hroot : root' = root ∨ ∃ h₁, Rooted limit h root h₁ root')
    (hfull : limit < h.bump + root.callDemand key)
  | inserted {s' : ArtState} {h₁ h₂ h' : Heap} {root₁ root' : Tree} {newOff : ℕ}
    (hgood : ValidKey key ∧ value.toNat < limit) (hfree : ¬ root.Stuck key 0)
    (hroot : Rooted limit h root h₁ root₁) (hleaf : h₁.alloc limit (leafHeader + key.length) = some (newOff, h₂))
    (hins : Inserts limit key value (leaf newOff key value) 0 h₂ root₁ root' h')
    (hrun : ∀ fuel, maxDepth + 3 ≤ fuel → insert ix key value fuel s = .ok () s')
    (hmoves : Moves ix limit s h root s' h' root')
  | stuck (hgood : ValidKey key ∧ value.toNat < limit) (hstuck : root.Stuck key 0)
    (hleaf : h.alloc limit (leafHeader + key.length) ≠ none)
    (hrun : Hangs (insert ix key value) s)

/-- The calls that go past the checks. -/
theorem insert_eq (ix : ArtIndex) (hlen : s.mem.length = limit) (hp : ix.Placed limit)
    (hgood : ValidKey key ∧ value.toNat < limit)
    (fuel : ℕ) :
    insert ix key value fuel s = (do
      ensureRoot ix ix.rootPtrOffset
      let leaf ← allocLeaf ix key value
      insertLoop ix key value (← newPtr leaf .leaf) fuel none : ArtM Unit) s := by
  have hcheck : validateKey key s = .ok () s := by rw [run_validateKey, if_pos hgood.1]
  have hslot : u32Slot ix.rootPtrOffset s = .ok ix.rootPtrOffset s :=
    run_u32Slot (hlen ▸ hp.root_fits) hp.root_aligned
  have harena : arenaLen s = .ok limit s := hlen ▸ rfl
  rw [insert, bind_ok hcheck, bind_ok harena]
  simp only [if_neg (not_le.mpr hgood.2)]
  rw [bind_ok hslot]

theorem insert_refused (hlen : s.mem.length = limit) (hbad : ¬ (ValidKey key ∧ value.toNat < limit)) (fuel : ℕ) :
    insert ix key value fuel s = .error (.error .invalidKey) s := by
  have harena : arenaLen s = .ok limit s := hlen ▸ rfl
  by_cases hv : ValidKey key
  · have hcheck : validateKey key s = .ok () s := by rw [run_validateKey, if_pos hv]
    have hle : limit ≤ value.toNat := not_lt.mp fun hlt ↦ hbad ⟨hv, hlt⟩
    rw [insert, bind_ok hcheck, bind_ok harena]
    simp only [if_pos hle]
    rfl
  · have hcheck : validateKey key s = .error (.error .invalidKey) s := by rw [run_validateKey, if_neg hv]
    rw [insert, bind_error hcheck]

theorem Rooted.stuck (hr : Rooted limit h root h' root') : root'.Stuck key 0 ↔ root.Stuck key 0 := by
  cases hr with
  | kept => exact Iff.rfl
  | made =>
    refine ⟨?_, False.elim⟩
    rintro (⟨hhas, -, -⟩ | hstuck)
    · exact absurd hhas List.not_mem_nil
    · exact hstuck

theorem Tree.Inserts.inner {new : Tree} {depth : ℕ} (hi : Inserts limit key value new depth h root root' h')
    (hinner : root.IsInner) : root'.IsInner := by
  cases hi with
  | overwrite => exact hinner.elim
  | split => exact hinner.elim
  | descend => trivial
  | claim => trivial
  | grow => trivial

/-- The call once the root stands: the leaf, then the descent. -/
theorem Indexed.descent (value : UInt32) (hx : Indexed ix limit s h root) (hinner : root.IsInner) (hk : ValidKey key)
    {run : ℕ → ArtM Unit} (hrun : ∀ fuel, run fuel s = (do
      let leaf ← allocLeaf ix key value
      insertLoop ix key value (← newPtr leaf .leaf) fuel none : ArtM Unit) s) :
    (h.alloc limit (leafHeader + key.length) = none ∧ (∀ fuel, run fuel s = .error (.error .outOfMemory) s) ∧
      limit < h.bump + alignSize (leafHeader + key.length)) ∨
    ∃ newOff h₂, h.alloc limit (leafHeader + key.length) = some (newOff, h₂) ∧
      ((¬ root.Stuck key 0 ∧ ∃ root' h' s', Inserts limit key value (leaf newOff key value) 0 h₂ root root' h' ∧
          (∀ fuel, maxDepth + 3 ≤ fuel → run fuel s = .ok () s') ∧ Moves ix limit s h root s' h' root') ∨
        (¬ root.Stuck key 0 ∧ ∃ h' s', (∀ fuel, maxDepth + 3 ≤ fuel → run fuel s = .error (.error .outOfMemory) s') ∧
          Moves ix limit s h root s' h' root ∧
            limit < h.bump + (alignSize (leafHeader + key.length) + root.demand key 0)) ∨
        root.Stuck key 0 ∧ Hangs run s) := by
  cases halloc : h.alloc limit (leafHeader + key.length) with
  | none =>
    have hfull := alloc_eq_none halloc
    exact .inl ⟨rfl, fun fuel ↦ by rw [hrun, bind_error (run_allocLeaf_none hx.arena halloc)], by omega⟩
  | some granted =>
    obtain ⟨newOff, h₂⟩ := granted
    have hbump := alloc_bump_le halloc
    obtain ⟨s₂, hok, hsp, hst, hlaid, htaken, happart⟩ := hx.newLeaf value hk halloc
    set new := leaf newOff key value with hnew
    have hx₂ := (hx.spent hsp).indexed
    have havail : taken h h₂ ⊆ h.avail := fun _ ha ↦ ha.1
    have hheld := hx₂.held hst (hx.arena.clear.mono_right (htaken.trans havail))
      (hx.root_clear.mono_right ((htaken.trans havail).trans subset_union_right))
    have hready := hx₂.ready key hlaid happart (hx.apart.mono_right (htaken.trans havail))
    have hstart : ∀ fuel, run fuel s = insertLoop ix key value new.raw fuel none s₂ := fun fuel ↦ by
      rw [hrun, bind_ok hok, bind_ok (run_newPtr hlaid.1 .leaf)]
      rfl
    have hword := hx₂.word
    have hne : readU32 s₂.mem ix.rootPtrOffset ≠ 0 := hword ▸ raw_ne_zero hx.laid fun hnil ↦ by
      rw [hnil] at hinner
      exact hinner
    have hloop : ∀ fuel, run (fuel + 1) s =
        insertLoop ix key value new.raw fuel (some ⟨ix.rootPtrOffset, root.raw, 0⟩) s₂ := fun fuel ↦ by
      rw [hstart, insertLoop_none hne, hword]
    refine .inr ⟨newOff, h₂, rfl, ?_⟩
    cases insertLoop_outcome hk hinner hready hheld with
    | @inserted root' h' s' hfree hins hok hplaced =>
      refine .inl ⟨hfree, root', h', s', hins, fun fuel hfuel ↦ ?_, ?_⟩
      · obtain ⟨fuel, rfl⟩ : ∃ f, fuel = f + 1 := ⟨fuel - 1, by omega⟩
        rw [hloop]
        exact hok fuel (by simp only [List.length_nil]; omega)
      · exact hx.place hsp hplaced (hins.changed hk [] rfl hready) htaken
          (hins.spec hk [] rfl List.nil_prefix hx.wf).1 (.inr (hins.inner hinner))
    | @failed s' h' hfree hfail hspent hfull =>
      have hroom : limit < h₂.bump + root.demand key 0 := hfull
      refine .inr (.inl ⟨hfree, h', s', fun fuel hfuel ↦ ?_, hx.spent (hsp.trans hspent), by omega⟩)
      obtain ⟨fuel, rfl⟩ : ∃ f, fuel = f + 1 := ⟨fuel - 1, by omega⟩
      rw [hloop]
      exact hfail fuel (by simp only [List.length_nil]; omega)
    | stuck hstuck n hback =>
      refine .inr (.inr ⟨hstuck, fun fuel ↦ ?_⟩)
      rw [hstart]
      exact insertLoop_hangs hne (by rw [hword]; exact hback) fuel

theorem Indexed.insert (hx : Indexed ix limit s h root) (key : Bytes) (value : UInt32) :
    CallEnds ix limit key value s h root := by
  by_cases hgood : ValidKey key ∧ value.toNat < limit
  swap
  · exact .refused hgood (insert_refused hx.arena.length hgood)
  have hrun := insert_eq ix hx.arena.length hx.arena.placed hgood
  by_cases hnil : root = .nil
  · subst hnil
    cases halloc : h.alloc limit SlotKind.node4.size with
    | none =>
      have hfull := alloc_eq_none halloc
      rw [alignSize_node4] at hfull
      refine .failed hgood (.inl id) (fun fuel _ ↦ ?_) (.refl hx) (.inl rfl)
        (show limit < h.bump + (SlotKind.node4.size + _) by simp only [SlotKind.size]; omega)
      rw [hrun, bind_error (run_ensureRoot_none hx halloc)]
    | some granted =>
      obtain ⟨off, h₁⟩ := granted
      have hbump := alloc_bump_le halloc
      rw [alignSize_node4] at hbump
      obtain ⟨s₁, hroot, hmoves⟩ := run_ensureRoot_made hx halloc
      have hrooted : Rooted limit h .nil h₁ (node4 off []) := .made halloc
      have hempty : (node4 off []).demand key 0 = 0 := rfl
      have hcont : ∀ fuel, Art.insert ix key value fuel s = (fun fuel ↦ (do
          let leaf ← allocLeaf ix key value
          insertLoop ix key value (← newPtr leaf .leaf) fuel none : ArtM Unit)) fuel s₁ := fun fuel ↦ by
        rw [hrun, bind_ok hroot]
      rcases hmoves.indexed.descent value trivial hgood.1 fun _ ↦ rfl with
        ⟨-, hfail, hfull⟩ | ⟨newOff, h₂, hleaf, ⟨-, root', h', s', hins, hok, hm⟩ | ⟨-, h', s', hfail, hm, hfull⟩ |
          ⟨hstuck, -⟩⟩
      · exact .failed hgood (.inl id) (fun fuel _ ↦ (hcont fuel).trans (hfail fuel)) hmoves (.inr ⟨_, hrooted⟩)
          (show limit < h.bump + (SlotKind.node4.size + _) by simp only [SlotKind.size]; omega)
      · exact .inserted hgood id hrooted hleaf hins (fun fuel hfuel ↦ (hcont fuel).trans (hok fuel hfuel))
          (hmoves.trans hm)
      · exact .failed hgood (.inl id) (fun fuel hfuel ↦ (hcont fuel).trans (hfail fuel hfuel)) (hmoves.trans hm)
          (.inr ⟨_, hrooted⟩) (show limit < h.bump + (SlotKind.node4.size + _) by
            rw [hempty] at hfull
            simp only [SlotKind.size]
            omega)
      · exact absurd (hrooted.stuck.mp hstuck) id
  · have hrooted : Rooted limit h root h root := .kept hnil
    have hcont : ∀ fuel, Art.insert ix key value fuel s = (do
        let leaf ← allocLeaf ix key value
        insertLoop ix key value (← newPtr leaf .leaf) fuel none : ArtM Unit) s := fun fuel ↦ by
      rw [hrun, bind_ok (run_ensureRoot hx hnil)]
    have hdemand : root.callDemand key = alignSize (leafHeader + key.length) + root.demand key 0 := by
      cases root with
      | nil => exact absurd rfl hnil
      | leaf => rfl
      | inner => rfl
    rcases hx.descent value (hx.root_kind.resolve_left hnil) hgood.1 hcont with
      ⟨hnone, hfail, hfull⟩ | ⟨newOff, h₂, hleaf, ⟨hfree, root', h', s', hins, hok, hm⟩ |
        ⟨hfree, h', s', hfail, hm, hfull⟩ | ⟨hstuck, hhangs⟩⟩
    · exact .failed hgood (.inr hnone) (fun fuel _ ↦ hfail fuel) (.refl hx) (.inl rfl) (by omega)
    · exact .inserted hgood hfree hrooted hleaf hins hok hm
    · exact .failed hgood (.inl hfree) hfail hm (.inl rfl) (by omega)
    · exact .stuck hgood hstuck (by rw [hleaf]; simp) hhangs

end TakyonDb.Art
