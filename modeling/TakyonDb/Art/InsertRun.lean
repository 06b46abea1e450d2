import TakyonDb.Art.InsertStep

namespace TakyonDb.Art

open Lib Set Heap Art.Tree

variable {ix : ArtIndex} {limit off slot depth : ℕ} {s s' : ArtState} {h h' : Heap}
  {key : Bytes} {value : UInt32} {b : UInt8} {new t t' : Tree}
  {shape : Shape} {kind : SlotKind} {keys : List UInt8} {kids : UInt8 → Tree} {path : Bytes}

/-- The descent of the key meets an entry of a `Node4`, `Node16` or `Node48`
that no child hangs on. -/
def Tree.Stuck (key : Bytes) : Tree → ℕ → Prop
  | .nil, _ => False
  | .leaf _ _ _, _ => False
  | .inner _ shape kids, depth =>
      (shape.Has (slotByte key depth) ∧ shape.type ≠ .node256 ∧ kids (slotByte key depth) = .nil) ∨
        (kids (slotByte key depth)).Stuck key (depth + 1)

/-- What the loop does after a round. -/
def proceed (ix : ArtIndex) (key : Bytes) (value : UInt32) (newLeaf fuel : ℕ) : Progress → ArtM Unit
  | .done => pure ()
  | .descend next => insertLoop ix key value newLeaf fuel (some next)
  | .restart => insertLoop ix key value newLeaf fuel none

theorem insertLoop_succ (ix : ArtIndex) (key : Bytes) (value : UInt32) (newLeaf fuel : ℕ) (c : Cursor) :
    insertLoop ix key value newLeaf (fuel + 1) (some c) =
      insertStep ix key value newLeaf c >>= proceed ix key value newLeaf fuel := by
  rw [insertLoop]
  congr 1

/-- The three ends of a descent: the tree has changed, memory ran out, or
the code stands at the label `restart` in the state it started from. -/
inductive Outcome (ix : ArtIndex) (limit : ℕ) (key : Bytes) (value : UInt32) (new : Tree) (slot depth : ℕ)
    (h : Heap) (t : Tree) (s : ArtState) (run : ℕ → ArtM Unit) (need : ℕ) : Prop
  | inserted {t' : Tree} {h' : Heap} {s' : ArtState} (hfree : ¬ t.Stuck key depth)
    (hins : Inserts limit key value new depth h t t' h')
    (hrun : ∀ fuel, need ≤ fuel → run fuel s = .ok () s') (hplaced : Placed ix limit s h slot t s' h' t')
  | failed {s' : ArtState} {h' : Heap} (hfree : ¬ t.Stuck key depth)
    (hrun : ∀ fuel, need ≤ fuel → run fuel s = .error (.error .outOfMemory) s')
    (hspent : Spent ix limit s h s' h') (hfull : limit < h.bump + t.demand key depth)
  | stuck (hstuck : t.Stuck key depth) (n : ℕ)
    (hrun : ∀ fuel, run (fuel + n) s = insertLoop ix key value new.raw fuel none s)

theorem Tree.Ready.next (hr : Ready limit key new path h t) (hc : Changed limit h h' t t' ∅) (hwf : t'.WF path) :
    Ready limit key new path h' t' where
  sound := hc.sound
  wf := hwf
  path_key := hr.path_key
  laid := hc.laid
  apart := hc.apart
  new_laid := hr.new_laid
  new_apart := (disjoint_union_right.mpr ⟨hr.new_apart, hr.new_clear.symm⟩).mono_right hc.avail
  new_clear := Disjoint.mono_left hc.foot (disjoint_union_left.mpr ⟨disjoint_union_left.mpr
    ⟨hr.new_clear, empty_disjoint _⟩, (hr.new_apart.mono_right fun _ ha ↦ ha.1).symm⟩)

theorem Held.next (hh : Held ix limit s h slot t new) (hr : Ready limit key new path h t)
    (hnew : new.WF (path ++ [b])) (hp : Placed ix limit s h slot t s' h' t') (hc : Changed limit h h' t t' ∅) :
    Held ix limit s' h' slot t' new := by
  have htaken : taken h h' ⊆ h.avail := fun _ ha ↦ ha.1
  have hbump := hh.bump_clear.mono_right subset_union_left
  have hslot := hh.slot_clear.mono_right subset_union_left
  refine ⟨hp.arena, hp.stored, ?_, hp.word, hh.fits, ?_, hh.bump_apart, ?_, ?_⟩
  · refine hh.new_stored.frame hp.changes hnew (disjoint_union_right.mpr ⟨disjoint_union_right.mpr
      ⟨disjoint_union_right.mpr ⟨?_, ?_⟩, hr.new_clear.symm⟩, hr.new_apart.mono_right htaken⟩)
    · exact (hh.slot_clear.mono_right subset_union_right).symm
    · exact (hh.bump_clear.mono_right subset_union_right).symm
  · refine disjoint_union_right.mpr ⟨Disjoint.mono_right hc.foot (disjoint_union_right.mpr
      ⟨disjoint_union_right.mpr ⟨hbump, disjoint_empty _⟩, hh.arena.clear.mono_right htaken⟩), ?_⟩
    exact hh.bump_clear.mono_right subset_union_right
  · refine disjoint_union_right.mpr ⟨Disjoint.mono_right hc.foot (disjoint_union_right.mpr
      ⟨disjoint_union_right.mpr ⟨hslot, disjoint_empty _⟩, hh.slot_apart.mono_right htaken⟩), ?_⟩
    exact hh.slot_clear.mono_right subset_union_right
  · exact (disjoint_union_right.mpr ⟨hh.slot_apart, hslot⟩).mono_right hc.avail

theorem Placed.trans {s₂ : ArtState} {h₂ : Heap} {t₂ : Tree} (hc : Changed limit h h₂ t t₂ ∅)
    (hp : Placed ix limit s h slot t s₂ h₂ t₂) (hp' : Placed ix limit s₂ h₂ slot t₂ s' h' t')
    (hbump : h₂.bump ≤ h'.bump) : Placed ix limit s h slot t s' h' t' := by
  have hmono : taken h h₂ ⊆ taken h h' := fun _ ha ↦ ⟨ha.1, ha.2.trans_le hbump⟩
  refine ⟨hp'.arena, hp'.stored, hp'.word, (hp.changes.mono ?_).trans (hp'.changes.mono ?_)⟩
  · exact union_subset_union_right _ hmono
  · refine union_subset (union_subset (subset_union_left.trans subset_union_left) (hc.foot.trans ?_)) ?_
    · refine union_subset (union_subset ?_ (empty_subset _)) (hmono.trans subset_union_right)
      exact subset_union_right.trans subset_union_left
    · rintro a ⟨havail, hlt⟩
      rcases hc.avail havail with hold | hfoot
      · exact .inr ⟨hold, hlt⟩
      · exact .inl (.inr hfoot)

/-- A quarantined node changes nothing in the arena. -/
theorem Placed.quarantine {h₁ : Heap} {size : ℕ} {s₁ : ArtState} (hh : Held ix limit s h slot t new)
    (hp : Placed ix limit s h slot t s₁ h₁ t') (hsize : alignSize size = size)
    (hc : Changed limit h (h₁.quarantine off size) t t' ∅) :
    Placed ix limit s h slot t { s₁ with free := s₁.free.quarantine off (alignSize size) }
      (h₁.quarantine off size) t' := by
  refine ⟨{ hp.arena with free := ?_, sound := hc.sound, clear := ?_ }, hp.stored, hp.word, hp.changes⟩
  · rw [hsize, hp.arena.free]
    rfl
  · exact (disjoint_union_right.mpr
      ⟨hh.arena.clear, hh.bump_clear.mono_right subset_union_left⟩).mono_right hc.avail

/-- A new node with the same children takes the place of a node. -/
theorem Held.replace {s₁ : ArtState} {h₁ : Heap} {dst : ℕ} {shape' : Shape}
    (hh : Held ix limit s h slot (inner off shape kids) new) (hr : Ready limit key new path h (inner off shape kids))
    (hg : Granted limit shape'.size dst h h₁)
    (hstands : Stands ix limit s h s₁ h₁ dst (fun c ↦ (kids c).raw) shape')
    (hwf : (inner dst shape' kids).WF path) :
    readU32 s₁.mem slot = (inner off shape kids).raw ∧
      Changed limit h (h₁.quarantine off shape.size) (inner off shape kids) (inner dst shape' kids) ∅ ∧
      Placed ix limit s h slot (inner off shape kids)
        ⟨writeU32 s₁.mem slot (inner dst shape' kids).raw, s₁.free.quarantine off (alignSize shape.size)⟩
        (h₁.quarantine off shape.size) (inner dst shape' kids) := by
  obtain ⟨hsp, hnode⟩ := hstands
  have hbuilt : Built limit h h₁ ((⋃ c, (kids c).foot) ∪ ∅) (inner dst shape' kids) :=
    inner_built hg hr.laid.2.2.2.2.2 (fun c ↦ (subset_iUnion (fun c ↦ (kids c).foot) c).trans subset_union_left)
      hr.laid.2.2.2.2.1 (disjoint_union_left.mpr ⟨hr.apart.mono_left subset_union_right, empty_disjoint _⟩)
  have hchanged := Changed.replace hr.laid hr.apart (disjoint_empty _) hbuilt
  have hst : Stored s₁.mem (inner dst shape' kids) := by
    refine ⟨hnode, fun c ↦ (hh.stored.2 c).spent (hr.wf.2.2.2.2 c) hsp (disjoint_union_right.mpr ⟨?_, ?_⟩)⟩
    · exact ((hh.bump_clear.mono_right subset_union_left).mono_right (foot_kid off shape kids c)).symm
    · exact hr.apart.mono_left (foot_kid off shape kids c)
  obtain ⟨hword, hplaced⟩ := placed_link hh hsp hst hwf hbuilt.laid
    (hbuilt.foot.trans (union_subset_union_left _ (union_subset (subset_union_right.trans subset_union_left)
      (empty_subset _))))
  exact ⟨hword, hchanged, hplaced.quarantine hh (alignSize_size shape) hchanged⟩

/-- A full node makes way for a larger one with the same children. -/
theorem run_step_grow (ix : ArtIndex) (value : UInt32) {c : Cursor} {h₁ : Heap} {dst : ℕ}
    (hcur : c.cur = (inner off (.slots kind keys) kids).raw)
    (hh : Held ix limit s h c.link (inner off (.slots kind keys) kids) new)
    (hr : Ready limit key new path h (inner off (.slots kind keys) kids))
    (hnot : slotByte key c.depth ∉ keys) (hfull : keys.length = kind.capacity)
    (halloc : h.alloc limit (Shape.slots kind keys).grow.size = some (dst, h₁)) :
    ∃ s₂, nodeStep ix key value new.raw c off (.slots kind keys) s =
        .ok (.descend { c with cur := (inner dst (Shape.slots kind keys).grow kids).raw }) s₂ ∧
      Changed limit h (h₁.quarantine off kind.size) (inner off (.slots kind keys) kids)
        (inner dst (Shape.slots kind keys).grow kids) ∅ ∧
      (inner dst (Shape.slots kind keys).grow kids).WF path ∧
      Placed ix limit s h c.link (inner off (.slots kind keys) kids) s₂ (h₁.quarantine off kind.size)
        (inner dst (Shape.slots kind keys).grow kids) := by
  have hs := hr.wf.2.2.1
  have habsent := hr.wf.2.2.2.1
  have hfits : off + kind.size ≤ s.mem.length := hh.arena.length ▸ hr.laid.2.2.1
  have hblock : Disjoint (Ico off (off + kind.size)) (ix.bumpWord ∪ h.avail) := disjoint_union_right.mpr
    ⟨((hh.bump_clear.mono_right subset_union_left).mono_right subset_union_left).symm,
      hr.apart.mono_left subset_union_left⟩
  obtain ⟨s₁, hgrow, hstands⟩ := run_growNode hh.arena hh.stored.1 hs
    (fun c hc ↦ by simp only [habsent c hc, raw]) hr.laid.2.2.1 hr.laid.1 hblock halloc
  have hwf : (inner dst (Shape.slots kind keys).grow kids).WF path :=
    wf_reshape hr.wf (grow_spec hs hnot (habsent _ hnot)).1
      fun c hne ↦ grow_has (by_contra fun hnh ↦ hne (habsent c hnh))
  obtain ⟨hword, hchanged, hplaced⟩ := hh.replace hr (alloc_granted hh.arena.sound halloc) hstands hwf
  refine ⟨_, ?_, hchanged, hwf, hplaced⟩
  have hfind : findSlot kind off (slotByte key c.depth) s = .ok none s := by
    rw [run_findSlot hh.stored.1 hs, if_neg hnot]
  rw [nodeStep, insertSlotted, bind_ok (run_nodeAt hfits hr.laid.1), bind_ok hfind]
  dsimp only
  rw [bind_ok (run_loadByte _ _), hh.stored.1.1]
  simp only [if_pos hfull.ge]
  rw [bind_ok hgrow, bind_ok (run_cmpxchg (hcur ▸ hword))]
  rfl

theorem run_proceed_done (x : ArtM Progress) (hx : x s = .ok .done s') (fuel : ℕ) :
    (x >>= proceed ix key value new.raw fuel) s = .ok () s' := by
  rw [bind_ok hx]
  rfl

/-- The rest of the descent at a node that takes the new leaf. -/
theorem run_loop_claim (ix : ArtIndex) (value : UInt32) {c : Cursor} (hcur : c.cur = (inner off shape kids).raw)
    (hh : Held ix limit s h c.link (inner off shape kids) new)
    (hr : Ready limit key new path h (inner off shape kids)) (hnew : new.WF (path ++ [slotByte key c.depth]))
    (hvacant : Vacant shape kids (slotByte key c.depth)) (hroom : ¬ shape.Full) :
    ∃ s', (∀ fuel, insertLoop ix key value new.raw (fuel + 1) (some c) s = .ok () s') ∧
      Placed ix limit s h c.link (inner off shape kids) s' h
        (inner off (shape.add (slotByte key c.depth)) (Function.update kids (slotByte key c.depth) new)) := by
  have hnil := hvacant.nil hr.wf.2.2.2.1
  have hfits : off + shape.size ≤ s.mem.length := hh.arena.length ▸ hr.laid.2.2.1
  obtain ⟨mem, hrun, hch, hnode⟩ := run_step_claim ix value hh.stored.1 hr.wf.2.2.1 hfits
    hr.laid.1 hvacant (by simp only [hnil, raw]) hroom (raw_lt hr.new_laid hh.arena.placed.limit_lt)
  refine ⟨_, fun fuel ↦ ?_, placed_claim hh hr hch hnode hnew (by cases shape <;> rfl)⟩
  rw [insertLoop_succ, run_proceed_done _ ((run_insertStep hcur (hh.word.trans hcur.symm) hr.laid.1).trans hrun)]

theorem wf_new {newOff : ℕ} (hk : ValidKey key) (hr : Ready limit key new path h (inner off shape kids)) :
    (leaf newOff key value).WF (path ++ [slotByte key path.length]) :=
  ⟨hk, path_child hr.wf hr.path_key⟩

/-- The rest of the descent at a full node. -/
theorem run_loop_grow {c : Cursor} {h₁ : Heap} {dst newOff : ℕ} (hk : ValidKey key) (hdepth : c.depth = path.length)
    (hcur : c.cur = (inner off (.slots kind keys) kids).raw)
    (hh : Held ix limit s h c.link (inner off (.slots kind keys) kids) (leaf newOff key value))
    (hr : Ready limit key (leaf newOff key value) path h (inner off (.slots kind keys) kids))
    (hnot : slotByte key c.depth ∉ keys) (hfull : keys.length = kind.capacity)
    (halloc : h.alloc limit (Shape.slots kind keys).grow.size = some (dst, h₁)) :
    ∃ s', (∀ fuel, insertLoop ix key value (leaf newOff key value).raw (fuel + 2) (some c) s = .ok () s') ∧
      Placed ix limit s h c.link (inner off (.slots kind keys) kids) s' (h₁.quarantine off kind.size)
        (inner dst ((Shape.slots kind keys).grow.add (slotByte key c.depth))
          (Function.update kids (slotByte key c.depth) (leaf newOff key value))) := by
  obtain ⟨s₂, hgrow, hchanged, hwf, hplaced⟩ := run_step_grow ix value hcur hh hr hnot hfull halloc
  have hr₂ := hr.next hchanged hwf
  have hnew : (leaf newOff key value).WF (path ++ [slotByte key c.depth]) := hdepth ▸ wf_new hk hr
  have hh₂ := hh.next hr hnew hplaced hchanged
  obtain ⟨-, hvacant, hroom⟩ := grow_spec hr.wf.2.2.1 hnot (hr.wf.2.2.2.1 _ hnot)
  obtain ⟨s', hclaim, hplaced'⟩ := run_loop_claim ix value
    (c := { c with cur := (inner dst (Shape.slots kind keys).grow kids).raw }) rfl hh₂ hr₂ hnew hvacant hroom
  refine ⟨s', fun fuel ↦ ?_, hplaced.trans hchanged hplaced' le_rfl⟩
  rw [insertLoop_succ, bind_ok ((run_insertStep hcur (hh.word.trans hcur.symm) hr.laid.1).trans hgrow)]
  exact hclaim fuel

theorem not_stuck_of_vacant (off : ℕ) (hvacant : Vacant shape kids (slotByte key depth))
    (hnil : kids (slotByte key depth) = .nil) : ¬ (inner off shape kids).Stuck key depth := by
  rintro (⟨hhas, htype, -⟩ | hstuck)
  · cases shape with
    | slots kind keys => exact hvacant hhas
    | direct count => exact htype rfl
  · rw [hnil] at hstuck
    exact hstuck

theorem has_of_not_vacant (hnot : ¬ Vacant shape kids b) : shape.Has b := by
  cases shape with
  | slots kind keys => exact not_not.mp hnot
  | direct count => trivial

/-- What the loop does at a node that has no entry for the byte. -/
theorem outcome_of_vacant {newOff need : ℕ} {c : Cursor} (hneed : 2 ≤ need) (hk : ValidKey key)
    (hdepth : c.depth = path.length)
    (hcur : c.cur = (inner off shape kids).raw)
    (hr : Ready limit key (leaf newOff key value) path h (inner off shape kids))
    (hh : Held ix limit s h c.link (inner off shape kids) (leaf newOff key value))
    (hvacant : Vacant shape kids (slotByte key c.depth)) :
    Outcome ix limit key value (leaf newOff key value) c.link c.depth h (inner off shape kids) s
      (fun fuel ↦ insertLoop ix key value (leaf newOff key value).raw fuel (some c)) need := by
  have hnil := hvacant.nil hr.wf.2.2.2.1
  have hfree := not_stuck_of_vacant off hvacant hnil
  by_cases hfull : shape.Full
  · cases shape with
    | direct count => exact hfull.elim
    | slots kind keys =>
      have hcount : keys.length = kind.capacity := le_antisymm hr.wf.2.2.1.2 hfull
      cases halloc : h.alloc limit (Shape.slots kind keys).grow.size with
      | none =>
        have hfits : off + kind.size ≤ s.mem.length := hh.arena.length ▸ hr.laid.2.2.1
        have hroom := alloc_eq_none halloc
        rw [alignSize_size] at hroom
        have hdemand : (inner off (.slots kind keys) kids).demand key c.depth = (Shape.slots kind keys).grow.size := by
          have hnot : ¬ (Shape.slots kind keys).Has (slotByte key c.depth) := hvacant
          rw [demand, if_neg hnot, if_pos hfull]
        have hfind : findSlot kind off (slotByte key c.depth) s = .ok none s := by
          rw [run_findSlot hh.stored.1 hr.wf.2.2.1, if_neg hvacant]
        have hstep : insertStep ix key value (leaf newOff key value).raw c s = .error (.error .outOfMemory) s := by
          rw [run_insertStep hcur (hh.word.trans hcur.symm) hr.laid.1, nodeStep, insertSlotted,
            bind_ok (run_nodeAt hfits hr.laid.1), bind_ok hfind]
          dsimp only
          rw [bind_ok (run_loadByte _ _), hh.stored.1.1]
          simp only [if_pos hcount.ge]
          rw [bind_error (run_growNode_none hh.arena hh.stored.1 hr.wf.2.2.1 hr.laid.2.2.1 hr.laid.1 halloc)]
        refine .failed hfree (fun fuel hfuel ↦ ?_) (.refl hh.arena) (by rwa [hdemand])
        obtain ⟨fuel, rfl⟩ : ∃ f, fuel = f + 1 := ⟨fuel - 1, by omega⟩
        rw [insertLoop_succ, bind_error hstep]
      | some granted =>
        obtain ⟨dst, h₁⟩ := granted
        obtain ⟨s', hrun, hplaced⟩ := run_loop_grow hk hdepth hcur hh hr hvacant hcount halloc
        refine .inserted hfree (.grow hvacant hcount halloc) (fun fuel hfuel ↦ ?_) hplaced
        obtain ⟨fuel, rfl⟩ : ∃ f, fuel = f + 2 := ⟨fuel - 2, by omega⟩
        exact hrun fuel
  · obtain ⟨s', hrun, hplaced⟩ := run_loop_claim ix value hcur hh hr (hdepth ▸ wf_new hk hr)
      hvacant hfull
    refine .inserted hfree (.claim hvacant hfull) (fun fuel hfuel ↦ ?_) hplaced
    obtain ⟨fuel, rfl⟩ : ∃ f, fuel = f + 1 := ⟨fuel - 1, by omega⟩
    exact hrun fuel

theorem Outcome.descend {run run' : ℕ → ArtM Unit} {need need' : ℕ} (hhas : shape.Has (slotByte key path.length))
    (hchild : kids (slotByte key path.length) ≠ .nil)
    (hr : Ready limit key new path h (inner off shape kids))
    (hh : Held ix limit s h slot (inner off shape kids) new)
    (hrun : ∀ fuel, run (fuel + 1) s = run' fuel s) (hneed : need + 1 ≤ need')
    (ho : Outcome ix limit key value new (shape.slotOf off (slotByte key path.length)) (path.length + 1) h
      (kids (slotByte key path.length)) s run' need) :
    Outcome ix limit key value new slot path.length h (inner off shape kids) s run need' := by
  have hfree : ∀ hnot : ¬ (kids (slotByte key path.length)).Stuck key (path.length + 1),
      ¬ (inner off shape kids).Stuck key path.length := by
    rintro hnot (⟨-, -, hnil⟩ | hstuck)
    · exact hchild hnil
    · exact hnot hstuck
  cases ho with
  | inserted hnot hins hok hplaced =>
    refine .inserted (hfree hnot) (.descend hhas hins) (fun fuel hfuel ↦ ?_) (hplaced.lift hh hr hhas)
    obtain ⟨fuel, rfl⟩ : ∃ f, fuel = f + 1 := ⟨fuel - 1, by omega⟩
    rw [hrun, hok fuel (by omega)]
  | failed hnot hfail hspent hfull =>
    refine .failed (hfree hnot) (fun fuel hfuel ↦ ?_) hspent (by rwa [demand, if_pos hhas])
    obtain ⟨fuel, rfl⟩ : ∃ f, fuel = f + 1 := ⟨fuel - 1, by omega⟩
    rw [hrun, hfail fuel (by omega)]
  | stuck hstuck n hloop =>
    exact .stuck (.inr hstuck) (n + 1) fun fuel ↦ by rw [← Nat.add_assoc, hrun, hloop]

/-- The descent from an inner node: the code inserts the key, runs out of
memory, or goes back to the root because of an entry without a child. -/
theorem insertLoop_outcome {newOff : ℕ} (hk : ValidKey key) :
    ∀ {t : Tree} {path : Bytes} {link : ℕ}, t.IsInner → Ready limit key (leaf newOff key value) path h t →
      Held ix limit s h link t (leaf newOff key value) →
      Outcome ix limit key value (leaf newOff key value) link path.length h t s
        (fun fuel ↦ insertLoop ix key value (leaf newOff key value).raw fuel (some ⟨link, t.raw, path.length⟩))
        (maxDepth + 2 - path.length) := by
  intro t
  induction t with
  | nil => exact fun hinner ↦ hinner.elim
  | leaf => exact fun hinner ↦ hinner.elim
  | inner off shape kids ih =>
    intro path link _ hr hh
    set b := slotByte key path.length with hb
    have hpath := hr.wf.1
    have hmax : maxDepth = maxKeyLen + 1 := rfl
    have hdrop : (path ++ [b]).length = path.length + 1 := by simp
    by_cases hvacant : Vacant shape kids b
    · exact outcome_of_vacant (c := ⟨link, (inner off shape kids).raw, path.length⟩) (by omega) hk rfl rfl hr hh
        hvacant
    · have hhas : shape.Has b := has_of_not_vacant hvacant
      have hfits : off + shape.size ≤ s.mem.length := hh.arena.length ▸ hr.laid.2.2.1
      have hheld := hh.child hr hhas
      have hlaid := hr.laid.2.2.2.2.2 b
      have hstep : ∀ fuel, insertLoop ix key value (leaf newOff key value).raw (fuel + 1)
          (some ⟨link, (inner off shape kids).raw, path.length⟩) s =
          (followSlot ix (shape.slotOf off b) key value (leaf newOff key value).raw path.length >>=
            proceed ix key value (leaf newOff key value).raw fuel) s := fun fuel ↦ by
        rw [insertLoop_succ]
        simp only [bind, EStateM.bind]
        rw [run_insertStep (show _ = (inner off shape kids).raw from rfl) hh.word hr.laid.1,
          run_step_follow hh.stored.1 hr.wf.2.2.1 hfits hr.laid.1 hhas]
        intro htype
        refine raw_ne_zero hlaid fun hnil ↦ hvacant ?_
        cases shape with
        | slots kind keys => cases kind <;> cases htype
        | direct count => exact hnil
      cases hkid : kids b with
      | nil =>
        have hslot : readU32 s.mem (shape.slotOf off b) = 0 := by rw [hheld.word, hkid, raw]
        refine .stuck (.inl ⟨hhas, fun htype ↦ hvacant ?_, hkid⟩) 1 fun fuel ↦ ?_
        · cases shape with
          | slots kind keys => cases kind <;> cases htype
          | direct count => exact hkid
        · rw [hstep, bind_ok (run_follow_nil hslot)]
          rfl
      | leaf off' existing v =>
        have hchild := hr.child
        rw [← hb, hkid] at hchild
        rw [hkid] at hheld
        refine Outcome.descend hhas (by rw [← hb, hkid]; simp) hr hh hstep (show 0 + 1 ≤ _ by omega) ?_
        rw [← hb, hkid]
        rcases run_follow_leaf hk hdrop hchild hheld with ⟨t', h', s', hins, hrun, hplaced⟩ | ⟨s', h', hrun, hsp, hfull⟩
        · exact .inserted id (hdrop ▸ hins) (fun fuel _ ↦ run_proceed_done _ hrun fuel) hplaced
        · exact .failed id (fun fuel _ ↦ bind_error hrun) hsp (hdrop ▸ hfull)
      | inner off' shape' kids' =>
        have hchild := hr.child
        rw [← hb] at hchild
        have hnext : ∀ fuel, insertLoop ix key value (leaf newOff key value).raw (fuel + 1)
            (some ⟨link, (inner off shape kids).raw, path.length⟩) s =
            insertLoop ix key value (leaf newOff key value).raw fuel
              (some ⟨shape.slotOf off b, (kids b).raw, path.length + 1⟩) s := fun fuel ↦ by
          rw [hkid] at hlaid hheld
          rw [hstep, bind_ok (run_follow_inner hheld.word hlaid.1 hlaid.2.1), hkid]
          rfl
        exact Outcome.descend hhas (by rw [← hb, hkid]; simp) hr hh hnext (by omega)
          (hdrop ▸ ih b (by rw [hkid]; trivial) hchild hheld)

end TakyonDb.Art
