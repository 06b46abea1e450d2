import TakyonDb.Art.Split

namespace TakyonDb.Art

open Lib Set Heap Art.Tree

variable {ix : ArtIndex} {limit off slot newLeaf depth : ℕ} {s s' : ArtState} {h h' : Heap}
  {key existing : Bytes} {value v : UInt32} {b : UInt8} {new t : Tree} {raws : UInt8 → ℕ}
  {shape : Shape} {kind : SlotKind} {keys : List UInt8} {kids : UInt8 → Tree} {c : Cursor} {path : Bytes}

theorem run_follow_nil (hslot : readU32 s.mem slot = 0) :
    followSlot ix slot key value newLeaf depth s = .ok .restart s := by
  have hlost : descendOrSplit ix slot key value newLeaf depth s = .ok .lost s := by
    rw [descendOrSplit, bind_ok (run_load _ _), hslot]
    rfl
  rw [followSlot, bind_ok hlost]
  rfl

theorem run_follow_inner (hslot : readU32 s.mem slot = (inner off shape kids).raw)
    (hal : off % 8 = 0) (hpos : 0 < off) :
    followSlot ix slot key value newLeaf depth s =
      .ok (.descend ⟨slot, (inner off shape kids).raw, depth + 1⟩) s := by
  have hne : (inner off shape kids).raw ≠ 0 := by
    simp only [raw]
    omega
  have htype : getType (inner off shape kids).raw s = .ok shape.type s := run_getType hal shape.type
  have hinner : shape.type ≠ .leaf := by
    cases shape with
    | slots kind keys => cases kind <;> simp [Shape.type, SlotKind.type]
    | direct count => simp [Shape.type]
  have hchild : descendOrSplit ix slot key value newLeaf depth s = .ok (.child (inner off shape kids).raw) s := by
    rw [descendOrSplit, bind_ok (run_load _ _), hslot]
    simp only [if_neg hne]
    rw [bind_ok htype]
    simp only [if_pos hinner]
    rfl
  rw [followSlot, bind_ok hchild]
  rfl

/-- The slot and the words around it, when the code goes down to a tree. -/
structure Held (ix : ArtIndex) (limit : ℕ) (s : ArtState) (h : Heap) (slot : ℕ) (t new : Tree) : Prop where
  arena : Arena ix limit s h
  stored : Stored s.mem t
  new_stored : Stored s.mem new
  word : readU32 s.mem slot = t.raw
  fits : slot + 4 ≤ limit
  bump_clear : Disjoint ix.bumpWord (t.foot ∪ new.foot)
  bump_apart : Disjoint (Ico slot (slot + 4)) ix.bumpWord
  slot_clear : Disjoint (Ico slot (slot + 4)) (t.foot ∪ new.foot)
  slot_apart : Disjoint (Ico slot (slot + 4)) h.avail

/-- The slot holds the new tree, and nothing outside of the old tree, the
slot and what the heap granted has changed. -/
structure Placed (ix : ArtIndex) (limit : ℕ) (s : ArtState) (h : Heap) (slot : ℕ) (t : Tree)
    (s' : ArtState) (h' : Heap) (t' : Tree) : Prop where
  arena : Arena ix limit s' h'
  stored : Stored s'.mem t'
  word : readU32 s'.mem slot = t'.raw
  changes : ChangesOnly (Ico slot (slot + 4) ∪ ix.bumpWord ∪ t.foot ∪ taken h h') s.mem s'.mem

theorem run_cmpxchg {addr old x : ℕ} (hread : readU32 s.mem addr = old) :
    cmpxchg addr old x s = .ok true { s with mem := writeU32 s.mem addr x } := by
  rw [cmpxchg, bind_ok (run_load _ _), if_pos hread]
  rfl

/-- A leaf whose key is the same takes the new value. -/
theorem overwrite_leaf (value : UInt32) (ha : Arena ix limit s h) (hst : Stored s.mem (leaf off key v))
    (hl : (leaf off key v).Laid limit) :
    nodeAt off leafHeader s = .ok () s ∧
      ChangesOnly (leaf off key v).foot s.mem (writeU32 s.mem (off + 4) value.toNat) ∧
      Stored (writeU32 s.mem (off + 4) value.toNat) (leaf off key value) := by
  have hfit := hl.leaf_fits
  have hheader : leafHeader = 8 := rfl
  rw [← ha.length] at hfit
  have hsize := le_alignSize (leafHeader + key.length)
  have hin : off + 4 + 4 ≤ s.mem.length := by omega
  have hch := changesOnly_writeU32 hin value.toNat
  refine ⟨run_nodeAt (by omega) hl.1, hch.mono (Ico_subset_Ico (by omega) (by omega)), ?_, ?_, ?_⟩
  · rw [hch.readU32 (disjoint_Ico (by omega)), hst.1]
  · rw [readU32_writeU32_self hin value.toNat_lt]
  · rw [hch.slice (disjoint_Ico (by omega)), hst.2.2]

/-- The slot still holds the old pointer, and takes the new one. -/
theorem placed_link {s₁ : ArtState} {h₁ : Heap} {t' : Tree} (hh : Held ix limit s h slot t new)
    (hsp : Spent ix limit s h s₁ h₁) (hst : Stored s₁.mem t') (hwf : t'.WF path) (hl : t'.Laid limit)
    (hfoot : t'.foot ⊆ t.foot ∪ new.foot ∪ taken h h₁) :
    readU32 s₁.mem slot = t.raw ∧
      Placed ix limit s h slot t { s₁ with mem := writeU32 s₁.mem slot t'.raw } h₁ t' := by
  have htaken : taken h h₁ ⊆ h.avail := fun _ ha ↦ ha.1
  have hin : slot + 4 ≤ s₁.mem.length := hsp.arena.length ▸ hh.fits
  have hch := changesOnly_writeU32 hin t'.raw
  have hclear : Disjoint t'.foot (Ico slot (slot + 4)) := Disjoint.mono_left hfoot
    (disjoint_union_left.mpr ⟨hh.slot_clear.symm, (hh.slot_apart.mono_right htaken).symm⟩)
  refine ⟨?_, hsp.arena.write hch hh.bump_apart.symm, hst.frame hch hwf hclear,
    readU32_writeU32_self hin (raw_lt hl hh.arena.placed.limit_lt), ?_⟩
  · rw [hsp.changes.readU32 (disjoint_union_right.mpr ⟨hh.bump_apart, hh.slot_apart.mono_right htaken⟩),
      hh.word]
  · refine (hsp.changes.mono ?_).trans (hch.mono ?_)
    · exact union_subset (subset_union_right.trans (subset_union_left.trans subset_union_left)) subset_union_right
    · exact subset_union_left.trans (subset_union_left.trans subset_union_left)

theorem leaf_type {newOff : ℕ} (s : ArtState) (key : Bytes) (value : UInt32) (hal : newOff % 8 = 0) :
    getType (leaf newOff key value).raw s = .ok .leaf s ∧ ArtPtr.getOffset (leaf newOff key value).raw = newOff :=
  ⟨run_getType hal .leaf, getOffset_tag hal .leaf⟩

/-- At a leaf the descent ends: it overwrites the value or splits the leaf. -/
theorem run_follow_leaf {newOff : ℕ} (hk : ValidKey key) (hdepth : path.length = depth + 1)
    (hr : Ready limit key (leaf newOff key value) path h (leaf off existing v))
    (hh : Held ix limit s h slot (leaf off existing v) (leaf newOff key value)) :
    (∃ t' h' s', Inserts limit key value (leaf newOff key value) path.length h (leaf off existing v) t' h' ∧
      followSlot ix slot key value (leaf newOff key value).raw depth s = .ok .done s' ∧
      Placed ix limit s h slot (leaf off existing v) s' h' t') ∨
    Fails ix limit ((leaf off existing v).demand key path.length)
      (followSlot ix slot key value (leaf newOff key value).raw depth) s h := by
  obtain ⟨htype, hoff⟩ := leaf_type s existing v hr.laid.1
  have hlaid := hr.laid
  rw [← hh.arena.length] at hlaid
  have hne : (leaf off existing v).raw ≠ 0 := raw_ne_zero hr.laid (by simp)
  have heql := run_leafKeyEql key hh.stored hlaid
  have hstart : descendOrSplit ix slot key value (leaf newOff key value).raw depth s =
      (if existing = key then do
        nodeAt off leafHeader
        store (off + 4) value.toNat
        return .done
      else do
        let chain ← buildSplit ix off key (leaf newOff key value).raw depth
        return if ← cmpxchg slot (leaf off existing v).raw chain then .done else .lost : ArtM DescendResult) s := by
    rw [descendOrSplit, bind_ok (run_load _ _), hh.word]
    simp only [if_neg hne]
    rw [bind_ok htype]
    simp only [ne_eq, not_true_eq_false, if_false, hoff]
    rw [bind_ok heql]
    by_cases hkey : existing = key
    · simp only [hkey, decide_true, if_true]
    · simp only [hkey, decide_false, if_false]
      rfl
  by_cases hkey : existing = key
  · subst hkey
    obtain ⟨hnode, hch, hst⟩ := overwrite_leaf value hh.arena hh.stored hr.laid
    have hdone : descendOrSplit ix slot existing value (leaf newOff existing value).raw depth s =
        .ok .done { s with mem := writeU32 s.mem (off + 4) value.toNat } := by
      rw [hstart, if_pos rfl, bind_ok hnode, bind_ok (run_store _ _ _)]
      rfl
    refine .inl ⟨_, _, _, .overwrite, by rw [followSlot, bind_ok hdone]; rfl,
      hh.arena.write hch (hh.bump_clear.mono_right subset_union_left), hst, ?_, hch.mono ?_⟩
    · rw [hch.readU32 (hh.slot_clear.mono_right subset_union_left), hh.word]
      rfl
    · exact subset_union_right.trans subset_union_left
  · rw [if_neg hkey] at hstart
    have hbuild := run_buildSplit hk hkey hdepth hh.arena hr hh.stored hh.new_stored hh.bump_clear
    cases hsplit : split limit existing key (leaf off existing v) (leaf newOff key value) path.length h with
    | none =>
      rw [hsplit] at hbuild
      obtain ⟨s', h', hrun, hsp, hfull⟩ := hbuild
      refine .inr ⟨s', h', ?_, hsp, ?_⟩
      · rw [followSlot, bind_error]
        rw [hstart, bind_error hrun]
      · rwa [demand, if_neg hkey]
    | some built =>
      obtain ⟨t', h'⟩ := built
      rw [hsplit] at hbuild
      obtain ⟨s₁, hrun, hsp, hst⟩ := hbuild
      have hins : Inserts limit key value (leaf newOff key value) path.length h (leaf off existing v) t' h' :=
        .split hkey hsplit
      have hchanged := hins.changed hk path rfl hr
      obtain ⟨hword, hplaced⟩ := placed_link hh hsp hst (hins.spec hk path rfl hr.path_key hr.wf).1
        hchanged.laid hchanged.foot
      have hdone : descendOrSplit ix slot key value (leaf newOff key value).raw depth s =
          .ok .done { s₁ with mem := writeU32 s₁.mem slot t'.raw } := by
        rw [hstart, bind_ok hrun, bind_ok (run_cmpxchg hword)]
        rfl
      exact .inl ⟨t', h', _, hins, by rw [followSlot, bind_ok hdone]; rfl, hplaced⟩

/-- One round of the inner loop at an inner node of the given shape. -/
def nodeStep (ix : ArtIndex) (key : Bytes) (value : UInt32) (newLeaf : ℕ) (c : Cursor) (off : ℕ) :
    Shape → ArtM Progress
  | .slots kind _ => insertSlotted ix kind off (slotByte key c.depth) key value newLeaf c
  | .direct _ => insert256 ix off (slotByte key c.depth) key value newLeaf c

theorem run_insertStep (hcur : c.cur = (inner off shape kids).raw) (hlink : readU32 s.mem c.link = c.cur)
    (hal : off % 8 = 0) :
    insertStep ix key value newLeaf c s = nodeStep ix key value newLeaf c off shape s := by
  have htype : getType c.cur s = .ok shape.type s := hcur ▸ run_getType hal shape.type
  have hoff : ArtPtr.getOffset c.cur = off := hcur ▸ getOffset_tag hal shape.type
  rw [insertStep, bind_ok (run_load _ _), hlink]
  simp only [ne_eq, not_true_eq_false, if_false, hoff]
  rw [bind_ok htype]
  cases shape with
  | slots kind keys => cases kind <;> rfl
  | direct count => rfl

/-- An entry with a child, or one that lost it, sends the code to its slot. -/
theorem run_step_follow (hn : NodeAt s.mem off raws shape) (hs : shape.Sound)
    (hfit : off + shape.size ≤ s.mem.length) (hal : off % 8 = 0) (hhas : shape.Has (slotByte key c.depth))
    (hchild : shape.type = .node256 → raws (slotByte key c.depth) ≠ 0) :
    nodeStep ix key value newLeaf c off shape s =
      followSlot ix (shape.slotOf off (slotByte key c.depth)) key value newLeaf c.depth s := by
  set b := slotByte key c.depth with hb
  cases shape with
  | slots kind keys =>
    have hmem : b ∈ keys := hhas
    have hfit' : off + kind.size ≤ s.mem.length := hfit
    have hidx := (List.idxOf_lt_length_of_mem hmem).trans_le hs.2
    have hfind : findSlot kind off b s = .ok (some (keys.idxOf b)) s := by
      rw [run_findSlot hn hs, if_pos hmem]
    rw [nodeStep, insertSlotted, bind_ok (run_nodeAt hfit' hal), ← hb, bind_ok hfind]
    dsimp only
    rw [bind_ok (run_childSlot hidx)]
    rfl
  | direct count =>
    have hne := hchild rfl
    have hfit' : off + node256Size ≤ s.mem.length := hfit
    rw [nodeStep, insert256, bind_ok (run_nodeAt hfit' hal), ← hb, bind_ok (run_load _ _), hn.2]
    simp only [if_pos hne]
    rfl

/-- A vacant entry of a node with room takes the new leaf. -/
theorem run_step_claim (ix : ArtIndex) (value : UInt32) (hn : NodeAt s.mem off raws shape) (hs : shape.Sound)
    (hfit : off + shape.size ≤ s.mem.length) (hal : off % 8 = 0)
    (hvacant : Vacant shape kids (slotByte key c.depth)) (hzero : raws (slotByte key c.depth) = 0)
    (hroom : ¬ shape.Full) (hx : newLeaf < 2 ^ 32) :
    ∃ mem, nodeStep ix key value newLeaf c off shape s = .ok .done { s with mem } ∧
      ChangesOnly (Ico off (off + shape.size)) s.mem mem ∧
      NodeAt mem off (Function.update raws (slotByte key c.depth) newLeaf) (shape.add (slotByte key c.depth)) := by
  set b := slotByte key c.depth with hb
  cases shape with
  | slots kind keys =>
    have hnot : b ∉ keys := hvacant
    have hlt : keys.length < kind.capacity := not_le.mp hroom
    have hfull : ¬ kind.capacity ≤ keys.length := hroom
    have hfit' : off + kind.size ≤ s.mem.length := hfit
    have hcap : kind.capacity < 256 := by cases kind <;> decide
    have hfind : findSlot kind off b s = .ok none s := by rw [run_findSlot hn hs, if_neg hnot]
    have hsize : 24 ≤ kind.size := (Shape.slots kind []).size_pos
    have hin : off < s.mem.length := by omega
    have hch₁ := changesOnly_setByte hin (UInt8.ofNat (keys.length + 1))
    have hentries : Entries (setByte s.mem off (UInt8.ofNat (keys.length + 1))) off raws kind keys :=
      Entries.frame hn.2 hs.2 hch₁ (disjoint_Ico (.inr le_rfl))
    have hfit₁ : off + kind.size ≤ (setByte s.mem off (UInt8.ofNat (keys.length + 1))).length := by
      rwa [hch₁.length_eq]
    have hch₂ := changesOnly_putEntry (b := b) (x := newLeaf) hfit₁ hlt
    refine ⟨_, ?_, (hch₁.mono (Ico_subset_Ico le_rfl (by simp only [Shape.size]; omega))).trans
      (hch₂.mono (Ico_subset_Ico (Nat.le_succ off) le_rfl)), ?_, hentries.put hfit₁ hlt hnot hx⟩
    · rw [nodeStep, insertSlotted, bind_ok (run_nodeAt hfit' hal), ← hb, bind_ok hfind]
      dsimp only
      rw [bind_ok (run_loadByte _ _), hn.1]
      simp only [if_neg hfull]
      rw [bind_ok (run_storeByte _ _ _), bind_ok (run_storeKey _ _ _ _ _), bind_ok (run_store _ _ _)]
      rfl
    · rw [hch₂.byteAt (by simp only [mem_Ico]; omega), byteAt_setByte_self hin, UInt8.toNat_ofNat',
        Nat.mod_eq_of_lt (by omega), List.length_append, List.length_singleton]
  | direct count =>
    have hfit' : off + node256Size ≤ s.mem.length := hfit
    have hchild := child256_le off b
    have hin : child256 off b + 4 ≤ s.mem.length := by omega
    have hch₁ := changesOnly_writeU32 hin newLeaf
    have hword : child256 off b = off + 16 + 4 * b.toNat := rfl
    have hcount : readU16 (writeU32 s.mem (child256 off b) newLeaf) off = count := by
      rw [hch₁.readU16 (disjoint_Ico (by omega)), hn.1]
    have hin₂ : off + 2 ≤ (writeU32 s.mem (child256 off b) newLeaf).length := by
      rw [hch₁.length_eq]
      omega
    have hch₂ := changesOnly_writeU16 hin₂ ((count + 1) % 2 ^ 16)
    have hread : readU32 s.mem (child256 off b) = 0 := by rw [hn.2, hzero]
    refine ⟨_, ?_, (hch₁.mono (Ico_subset_Ico (by omega) hchild)).trans
      (hch₂.mono (Ico_subset_Ico le_rfl (Nat.add_le_add_left (by decide) off))),
      readU16_writeU16_self hin₂ (Nat.mod_lt _ (by decide)), fun c' ↦ ?_⟩
    · rw [nodeStep, insert256, bind_ok (run_nodeAt hfit' hal), ← hb, bind_ok (run_load _ _), hread]
      simp only [ne_eq, not_true_eq_false, if_false]
      rw [bind_ok (run_cmpxchg hread)]
      simp only [if_true]
      rw [bind_ok (run_loadU16 _ _), hcount]
      rfl
    · rw [hch₂.readU32 (disjoint_Ico (.inr (by simp only [child256]; omega)))]
      rcases eq_or_ne c' b with rfl | hne
      · rw [readU32_writeU32_self hin hx, Function.update_self]
      · rw [hch₁.readU32 (disjoint_Ico (child256_apart hne off)), hn.2 c', Function.update_of_ne hne]

theorem slot_in_block (off : ℕ) (hs : shape.Sound) (hhas : shape.Has b) :
    Ico (shape.slotOf off b) (shape.slotOf off b + 4) ⊆ Ico off (off + shape.size) := by
  have hbounds := Shape.slotOf_bounds hs hhas off
  exact Ico_subset_Ico (by omega) hbounds.2

/-- What holds at a node holds at the slot of a child. -/
theorem Held.child (hh : Held ix limit s h slot (inner off shape kids) new)
    (hr : Ready limit key new path h (inner off shape kids)) (hhas : shape.Has b) :
    Held ix limit s h (shape.slotOf off b) (kids b) new := by
  have hs := hr.wf.2.2.1
  have hblock := slot_in_block off hs hhas
  have hfoot : Ico (shape.slotOf off b) (shape.slotOf off b + 4) ⊆ (inner off shape kids).foot :=
    hblock.trans subset_union_left
  have hkid := foot_kid off shape kids b
  have hbounds := Shape.slotOf_bounds hs hhas off
  refine ⟨hh.arena, hh.stored.2 b, hh.new_stored, hh.stored.1.child hhas, ?_, ?_, ?_, ?_,
    hr.apart.mono_left hfoot⟩
  · exact hbounds.2.trans hr.laid.2.2.1
  · exact hh.bump_clear.mono_right (union_subset_union_left _ hkid)
  · exact (hh.bump_clear.mono_right subset_union_left).symm.mono_left hfoot
  · exact disjoint_union_right.mpr ⟨(hr.laid.2.2.2.1 b).mono_left hblock, hr.new_clear.mono_left hfoot⟩

/-- A new child in its slot is a new child of the node. -/
theorem Placed.lift {t' : Tree} (hh : Held ix limit s h slot (inner off shape kids) new)
    (hr : Ready limit key new path h (inner off shape kids)) (hhas : shape.Has b)
    (hp : Placed ix limit s h (shape.slotOf off b) (kids b) s' h' t') :
    Placed ix limit s h slot (inner off shape kids) s' h' (inner off shape (Function.update kids b t')) := by
  have hs := hr.wf.2.2.1
  have htaken : taken h h' ⊆ h.avail := fun _ ha ↦ ha.1
  have hblock := slot_in_block off hs hhas
  have hself := hr.laid.2.2.2.1
  have hpair := hr.laid.2.2.2.2.1
  have hbump := (hh.bump_clear.mono_right subset_union_left).symm
  have hraws : (fun c ↦ (Function.update kids b t' c).raw) =
      Function.update (fun c ↦ (kids c).raw) b t'.raw := by
    funext c
    rcases eq_or_ne c b with rfl | hne
    · simp only [Function.update_self]
    · simp only [Function.update_of_ne hne]
  refine ⟨hp.arena, ⟨?_, fun c ↦ ?_⟩, ?_, hp.changes.mono ?_⟩
  · rw [hraws]
    refine hh.stored.1.update hs hhas hp.changes (fun a ha hin ↦ ?_) hp.word
    rcases hin with ((hslot | hb) | hkid) | ht
    · exact hslot
    · exact absurd hb (disjoint_left.mp hbump (.inl ha))
    · exact absurd hkid (disjoint_left.mp (hself b) ha)
    · exact absurd (htaken ht) (disjoint_left.mp hr.apart (.inl ha))
  · rcases eq_or_ne c b with rfl | hne
    · rw [Function.update_self]
      exact hp.stored
    · rw [Function.update_of_ne hne]
      have hkid := foot_kid off shape kids c
      refine (hh.stored.2 c).frame hp.changes (hr.wf.2.2.2.2 c) (disjoint_union_right.mpr
        ⟨disjoint_union_right.mpr ⟨disjoint_union_right.mpr ⟨?_, hbump.mono_left hkid⟩, hpair c b hne⟩, ?_⟩)
      · exact (hself c).symm.mono_right hblock
      · exact hr.apart.mono hkid htaken
  · rw [hp.changes.readU32 (disjoint_union_right.mpr ⟨disjoint_union_right.mpr ⟨disjoint_union_right.mpr
      ⟨?_, hh.bump_apart⟩, ?_⟩, hh.slot_apart.mono_right htaken⟩), hh.word]
    · rfl
    · exact (hh.slot_clear.mono_right subset_union_left).mono_right (hblock.trans subset_union_left)
    · exact (hh.slot_clear.mono_right subset_union_left).mono_right (foot_kid off shape kids b)
  · refine union_subset (union_subset (union_subset ?_ ?_) ?_) subset_union_right
    · exact (hblock.trans subset_union_left).trans (subset_union_right.trans subset_union_left)
    · exact (subset_union_right.trans subset_union_left).trans subset_union_left
    · exact (foot_kid off shape kids b).trans (subset_union_right.trans subset_union_left)

/-- A claimed entry makes the new leaf a child of the node. -/
theorem placed_claim {shape' : Shape} {mem : Bytes} (hh : Held ix limit s h slot (inner off shape kids) new)
    (hr : Ready limit key new path h (inner off shape kids))
    (hch : ChangesOnly (Ico off (off + shape.size)) s.mem mem)
    (hn : NodeAt mem off (Function.update (fun c ↦ (kids c).raw) b new.raw) shape') (hnew : new.WF (path ++ [b])) 
    (htype : shape'.type = shape.type) :
    Placed ix limit s h slot (inner off shape kids) { s with mem } h
      (inner off shape' (Function.update kids b new)) := by
  have hblock : Ico off (off + shape.size) ⊆ (inner off shape kids).foot := subset_union_left
  have hraws : (fun c ↦ (Function.update kids b new c).raw) =
      Function.update (fun c ↦ (kids c).raw) b new.raw := by
    funext c
    rcases eq_or_ne c b with rfl | hne
    · simp only [Function.update_self]
    · simp only [Function.update_of_ne hne]
  refine ⟨hh.arena.write hch ((hh.bump_clear.mono_right subset_union_left).mono_right hblock),
    ⟨hraws ▸ hn, fun c ↦ ?_⟩, ?_, hch.mono (hblock.trans (subset_union_right.trans subset_union_left))⟩
  · rcases eq_or_ne c b with rfl | hne
    · rw [Function.update_self]
      exact hh.new_stored.frame hch hnew (hr.new_clear.symm.mono_right hblock)
    · rw [Function.update_of_ne hne]
      exact (hh.stored.2 c).frame hch (hr.wf.2.2.2.2 c) (hr.laid.2.2.2.1 c).symm
  · rw [hch.readU32 ((hh.slot_clear.mono_right subset_union_left).mono_right hblock), hh.word, raw, raw, htype]

end TakyonDb.Art
