import TakyonDb.Art.Shrink

namespace TakyonDb.Art

open Lib Set Heap Art.Tree

variable {ix : ArtIndex} {limit off slot depth : ℕ} {s s' : ArtState} {h h' : Heap} {key path : Bytes}
  {b : UInt8} {shape : Shape} {kids : UInt8 → Tree} {t t' : Tree} {root up : Bool}

theorem run_loadCount {raws : UInt8 → ℕ} (hn : NodeAt s.mem off raws shape) :
    loadCount shape.type off s = .ok shape.count s := by
  cases shape with
  | slots kind keys =>
    cases kind <;> exact (run_loadByte off s).trans (congrArg (EStateM.Result.ok · s) hn.1)
  | direct count => exact (run_loadU16 off s).trans (congrArg (EStateM.Result.ok · s) hn.1)

theorem nodeSize_type (shape : Shape) : nodeSize shape.type = shape.size := by
  cases shape with
  | slots kind keys => cases kind <;> rfl
  | direct count => rfl

theorem type_ne_leaf (shape : Shape) : shape.type ≠ .leaf := by
  cases shape with
  | slots kind keys => cases kind <;> simp [Shape.type, SlotKind.type]
  | direct count => simp [Shape.type]

theorem attempt_ok {α : Type} {x : ArtM α} {a : α} (h : x s = .ok a s') : attempt x s = .ok (some a) s' := by
  rw [attempt, h]

theorem attempt_error {α : Type} {x : ArtM α} {e : ArtError} (h : x s = .error (.error e) s') :
    attempt x s = .ok none s' := by
  rw [attempt, h]

/-- The rest of a round once the count has been read. -/
theorem run_collapse_head (hh : Held ix limit s h slot (inner off shape kids) .nil)
    (hl : (inner off shape kids).Laid limit) :
    collapseNode ix root ⟨slot, (inner off shape kids).raw, shape.type⟩ s =
      (if shape.count = 0 then
        if root then pure false
        else do
          if ← cmpxchg slot (inner off shape kids).raw 0 then
            quarantine off shape.size
            return true
          return false
      else if shape.count ≤ shrinkBound shape.type then do
        match ← attempt (shrinkNode ix shape.type off) with
        | none => return false
        | some shrunk =>
          if ← cmpxchg slot (inner off shape kids).raw shrunk then
            quarantine off shape.size
            return true
          return false
      else pure false : ArtM Bool) s := by
  have htype : getType (inner off shape kids).raw s = .ok shape.type s := run_getType hl.1 shape.type
  have hoff : ArtPtr.getOffset (inner off shape kids).raw = off := getOffset_tag hl.1 shape.type
  have hfit : off + shape.size ≤ s.mem.length := hh.arena.length ▸ hl.2.2.1
  have hnode := attempt_ok (run_nodeAt hfit hl.1)
  rw [collapseNode, bind_ok (run_load _ _), hh.word]
  simp only [ne_eq, not_true_eq_false, if_false, hoff]
  rw [bind_ok htype]
  simp only [type_ne_leaf, not_true_eq_false, or_self, if_false, nodeSize_type]
  rw [bind_ok hnode]
  dsimp only
  refine (bind_ok (run_loadCount hh.stored.1)).trans ?_
  split_ifs <;> rfl

/-- A node without entries leaves its slot. -/
theorem run_unlink (hh : Held ix limit s h slot t .nil)
    (hc : Changed limit h (h.quarantine off shape.size) t .nil ∅) :
    ∃ s', (do
        if ← cmpxchg slot t.raw 0 then
          quarantine off shape.size
          return true
        return false : ArtM Bool) s = .ok true s' ∧
      Placed ix limit s h slot t s' (h.quarantine off shape.size) .nil := by
  have hst : Stored s.mem .nil := trivial
  have hwf : Tree.nil.WF [] := trivial
  obtain ⟨hword, hplaced⟩ := placed_link hh (.refl hh.arena) hst hwf trivial (empty_subset _)
  refine ⟨_, ?_, hplaced.quarantine hh (alignSize_size shape) hc⟩
  rw [bind_ok (run_cmpxchg hword)]
  rfl

/-- One round of `collapseEmpty` does to the memory what `Collapses` does to the tree. -/
theorem run_collapseNode (root : Bool) (hh : Held ix limit s h slot (inner off shape kids) .nil)
    (hr : Ready limit key .nil path h (inner off shape kids)) :
    ∃ t' h' up s', Collapses limit root h (inner off shape kids) t' h' up ∧
      collapseNode ix root ⟨slot, (inner off shape kids).raw, shape.type⟩ s = .ok up s' ∧
      Placed ix limit s h slot (inner off shape kids) s' h' t' := by
  have hstay : Placed ix limit s h slot (inner off shape kids) s h (inner off shape kids) :=
    ⟨hh.arena, hh.stored, hh.word, .rfl'⟩
  have hraw : ∀ c, (kids c).raw = 0 ↔ kids c = .nil := fun c ↦ raw_zero (hr.laid.2.2.2.2.2 c)
  have hblock : Disjoint (Ico off (off + shape.size)) (ix.bumpWord ∪ h.avail) := disjoint_union_right.mpr
    ⟨((hh.bump_clear.mono_right subset_union_left).mono_right subset_union_left).symm,
      hr.apart.mono_left subset_union_left⟩
  rw [run_collapse_head hh hr.laid]
  by_cases hcount : shape.count = 0
  · rw [if_pos hcount]
    cases root with
    | true => exact ⟨_, h, false, s, .kept (fun _ ↦ rfl) (fun hne ↦ absurd hcount hne), rfl, hstay⟩
    | false =>
      have hcol : Collapses limit false h (inner off shape kids) .nil (h.quarantine off shape.size) true :=
        .unlinked rfl hcount
      obtain ⟨s', hrun, hplaced⟩ := run_unlink hh (hcol.changed hr.sound hr.laid hr.apart)
      exact ⟨_, _, true, s', hcol, hrun, hplaced⟩
  · rw [if_neg hcount]
    by_cases hbound : shape.count ≤ shrinkBound shape.type
    · rw [if_pos hbound]
      cases halloc : h.alloc limit (shape.shrink kids).size with
      | none =>
        have hrun := attempt_error (run_shrinkNode_none hh.arena hh.stored.1 hcount hbound hr.laid.2.2.1 hr.laid.1 halloc)
        exact ⟨_, h, false, s, .kept (fun hz ↦ absurd hz hcount) (fun _ _ ↦ halloc), bind_ok hrun, hstay⟩
      | some granted =>
        obtain ⟨dst, h₁⟩ := granted
        rcases run_shrinkNode hh.arena hh.stored.1 hr.wf.2.2.1 hraw hr.wf.2.2.2.1 hcount hbound hr.laid.2.2.1 hr.laid.1
          hblock halloc with ⟨hfits, s₁, hrun, hstands⟩ | ⟨hfits, e, s₁, hrun, hsp⟩
        · have hcol : Collapses limit root h (inner off shape kids) (inner dst (shape.shrink kids) kids)
              (h₁.quarantine off shape.size) true := .shrunk hcount hbound halloc hfits
          obtain ⟨hword, -, hplaced⟩ := hh.replace hr (alloc_granted hh.arena.sound halloc) hstands (hcol.wf hr.wf)
          refine ⟨_, _, true, _, hcol, ?_, hplaced⟩
          rw [bind_ok (attempt_ok hrun)]
          dsimp only
          rw [bind_ok (run_cmpxchg hword)]
          rfl
        · have hcol : Collapses limit root h (inner off shape kids) (inner off shape kids) h₁ false :=
            .leaked hcount hbound halloc hfits
          refine ⟨_, _, false, s₁, hcol, bind_ok (attempt_error hrun), hsp.arena, ?_, ?_, ?_⟩
          · exact hh.stored.spent hr.wf hsp (disjoint_union_right.mpr
              ⟨(hh.bump_clear.mono_right subset_union_left).symm, hr.apart⟩)
          · rw [hsp.changes.readU32 (disjoint_union_right.mpr ⟨hh.bump_apart,
              hh.slot_apart.mono_right fun _ ha ↦ ha.1⟩),
              hh.word]
          · refine hsp.changes.mono (union_subset ?_ subset_union_right)
            exact subset_union_right.trans (subset_union_left.trans subset_union_left)
    · rw [if_neg hbound]
      exact ⟨_, h, false, s, .kept (fun hz ↦ absurd hz hcount) (fun _ hle ↦ absurd hle hbound), rfl, hstay⟩

section Descent

variable {raws : UInt8 → ℕ}

theorem run_removeChild (hn : NodeAt s.mem off raws shape) (hs : shape.Sound) (hfit : off + shape.size ≤ s.mem.length)
    (hal : off % 8 = 0) :
    removeChild shape.type off b s = .ok (if shape.Has b then some (raws b) else none) s := by
  cases shape with
  | slots kind keys =>
    have hfit' : off + kind.size ≤ s.mem.length := hfit
    have hcount : ¬ kind.capacity < keys.length := not_lt.mpr hs.2
    have hslotted : (do
        nodeAt off kind.size
        let count ← loadByte off
        if kind.capacity < count then fail .unsupportedNodeType
        match ← findSlot kind off b with
        | none => return none
        | some pos =>
          if kind = .node48 ∧ count ≤ pos then fail .unsupportedNodeType
          return some (← load (← childSlot kind off pos)) : ArtM (Option ℕ)) s =
        .ok (if (Shape.slots kind keys).Has b then some (raws b) else none) s := by
      rw [bind_ok (run_nodeAt hfit' hal), bind_ok (run_loadByte _ _), hn.1]
      simp only [if_neg hcount]
      rw [bind_ok (run_findSlot hn hs)]
      by_cases hb : b ∈ keys
      · have hidx := List.idxOf_lt_length_of_mem hb
        have hhas : (Shape.slots kind keys).Has b := hb
        have hpos : ¬ (kind = .node48 ∧ keys.length ≤ keys.idxOf b) := fun hand ↦ absurd hand.2 (not_le.mpr hidx)
        simp only [if_pos hb, if_pos hhas, if_neg hpos]
        rw [bind_ok (run_childSlot (hidx.trans_le hs.2)), bind_ok (run_load _ _), hn.2.2 b hb]
        rfl
      · have hhas : ¬ (Shape.slots kind keys).Has b := hb
        simp only [if_neg hb, if_neg hhas]
        rfl
    cases kind <;> exact hslotted
  | direct count =>
    have hfit' : off + node256Size ≤ s.mem.length := hfit
    rw [show (Shape.direct count).type = .node256 from rfl, removeChild, bind_ok (run_nodeAt hfit' hal),
      bind_ok (run_load _ _), hn.2 b]
    rfl

theorem run_childSlotPtr (hn : NodeAt s.mem off raws shape) (hs : shape.Sound) (hfit : off + shape.size ≤ s.mem.length)
    (hal : off % 8 = 0) (hb : shape.Has b) :
    childSlotPtr shape.type off b s = .ok (shape.slotOf off b) s := by
  cases shape with
  | slots kind keys =>
    have hfit' : off + kind.size ≤ s.mem.length := hfit
    have hmem : b ∈ keys := hb
    have hslotted : (do
        nodeAt off kind.size
        match ← findSlot kind off b with
        | none => fail .outOfMemory
        | some pos => childSlot kind off pos : ArtM ℕ) s = .ok (kind.child off (keys.idxOf b)) s := by
      rw [bind_ok (run_nodeAt hfit' hal), bind_ok (run_findSlot hn hs)]
      simp only [if_pos hmem]
      exact run_childSlot ((List.idxOf_lt_length_of_mem hmem).trans_le hs.2)
    cases kind <;> exact hslotted
  | direct count =>
    have hfit' : off + node256Size ≤ s.mem.length := hfit
    rw [show (Shape.direct count).type = .node256 from rfl, childSlotPtr, bind_ok (run_nodeAt hfit' hal)]
    rfl

end Descent

/-- The end of a removal at a level, when the levels below have collapsed. -/
def climb (ix : ArtIndex) (links : List Link) (up : Bool) : ArtM (Option Bool) :=
  if up then do
    collapseEmpty ix links
    return some true
  else return some true

theorem run_climb {link : Link} {links : List Link} (hrun : collapseNode ix links.isEmpty link s = .ok up s') :
    climb ix (link :: links) true s = climb ix links up s' := by
  simp only [climb, if_true]
  rw [collapseEmpty]
  cases up with
  | true =>
    simp only [bind, EStateM.bind, hrun]
    rfl
  | false =>
    simp only [bind, EStateM.bind, hrun]
    rfl

theorem drop_type (shape : Shape) (b : UInt8) : (shape.drop b).type = shape.type := by cases shape <;> rfl

/-- A node whose entries have changed collapses, and the code climbs on. -/
theorem run_collapse {s₁ : ArtState} {h₁ : Heap} {shape₁ : Shape} {kids₁ : UInt8 → Tree} (links : List Link)
    (hh : Held ix limit s h slot t .nil) (hr : Ready limit key .nil path h t)
    (hp : Placed ix limit s h slot t s₁ h₁ (inner off shape₁ kids₁))
    (hc : Changed limit h h₁ t (inner off shape₁ kids₁) ∅)
    (hwf : (inner off shape₁ kids₁).WF path) :
    ∃ t' h' up s', Collapses limit links.isEmpty h₁ (inner off shape₁ kids₁) t' h' up ∧
      Placed ix limit s h slot t s' h' t' ∧
      climb ix (⟨slot, (inner off shape₁ kids₁).raw, shape₁.type⟩ :: links) true s₁ = climb ix links up s' := by
  have hnil : Tree.nil.WF (path ++ [0]) := trivial
  have hr₁ := hr.next hc hwf
  obtain ⟨t', h', up, s', hcol, hrun, hplaced⟩ := run_collapseNode links.isEmpty (hh.next hr hnil hp hc) hr₁
  exact ⟨t', h', up, s', hcol, hp.trans hc hplaced (hcol.changed hr₁.sound hr₁.laid hr₁.apart).bump_le, run_climb hrun⟩

/-- A descent of `remove` that does not find its key, or does to the memory
what `Removes` does to the tree. -/
def Descends (ix : ArtIndex) (limit : ℕ) (key : Bytes) (links : List Link) (s : ArtState) (h : Heap) (slot depth : ℕ)
    (t : Tree) (x : ArtM (Option Bool)) : Prop :=
  (t.lookup key depth = none ∧ x s = .ok (some false) s) ∨
    ∃ t' h' up s', Removes limit key links.isEmpty depth h t t' h' up ∧ Placed ix limit s h slot t s' h' t' ∧
      x s = climb ix links up s'

/-- What the removal does with the child of a node. -/
def removeFound (ix : ArtIndex) (key : Bytes) (room : ℕ) (ntype : NodeType) (off : ℕ) (b : UInt8) (links : List Link)
    (child : ℕ) : ArtM (Option Bool) := do
  if (← getType child) = .leaf then
    if (← attempt (leafKeyEql (ArtPtr.getOffset child) key)) ≠ some true then return some false
    match ← attempt (deleteChild ntype off b) with
    | none => return none
    | some () =>
      collapseEmpty ix links
      return some true
  if room = 0 then fail .invalidKey
  match ← attempt (childSlotPtr ntype off b) with
  | none => return none
  | some next =>
    if (← load next) ≠ child then return none
    removeLoop ix key room next links child

def removeBelow (found : ℕ → ArtM (Option Bool)) : Option ℕ → ArtM (Option Bool)
  | none | some 0 => pure (some false)
  | some child => found child

theorem removeBelow_child {found : ℕ → ArtM (Option Bool)} {raw : ℕ} (h : raw ≠ 0) :
    removeBelow found (some raw) = found raw := by
  cases raw with
  | zero => exact absurd rfl h
  | succ n => rfl

theorem run_removeLoop_node {off : ℕ} {shape : Shape} {kids : UInt8 → Tree} {path : Bytes} {room slot : ℕ}
    {links : List Link} (hr : Ready limit key .nil path h (inner off shape kids))
    (hh : Held ix limit s h slot (inner off shape kids) .nil) (hlinks : links.length = path.length) :
    removeLoop ix key (room + 2) slot links (inner off shape kids).raw s =
      removeBelow (removeFound ix key (room + 1) shape.type off (slotByte key path.length)
        (⟨slot, (inner off shape kids).raw, shape.type⟩ :: links))
        (if shape.Has (slotByte key path.length) then some (kids (slotByte key path.length)).raw else none) s := by
  have hs := hr.wf.2.2.1
  have hfit : off + shape.size ≤ s.mem.length := hh.arena.length ▸ hr.laid.2.2.1
  have hsize := shape.size_pos
  have hlen : arenaLen s = .ok s.mem.length s := rfl
  have hin : ¬ s.mem.length ≤ off := by omega
  have htype : getType (inner off shape kids).raw s = .ok shape.type s := run_getType hr.laid.1 shape.type
  have hoff : ArtPtr.getOffset (inner off shape kids).raw = off := getOffset_tag hr.laid.1 shape.type
  have hchild := run_removeChild (b := slotByte key path.length) hh.stored.1 hs hfit hr.laid.1
  rw [removeLoop, bind_ok (run_load _ _), hh.word]
  simp only [ne_eq, not_true_eq_false, if_false, hoff]
  rw [bind_ok htype]
  simp only [type_ne_leaf, if_false]
  rw [bind_ok hlen]
  simp only [if_neg hin, hlinks]
  exact (bind_ok hchild).trans rfl

theorem run_removeLoop : ∀ {t : Tree} {path : Bytes} {room slot : ℕ} {links : List Link}, t.IsInner →
    Ready limit key .nil path h t → Held ix limit s h slot t .nil → links.length = path.length →
    room + path.length = maxDepth →
    Descends ix limit key links s h slot path.length t (removeLoop ix key room slot links t.raw) := by
  intro t
  induction t with
  | nil => exact fun hinner ↦ hinner.elim
  | leaf => exact fun hinner ↦ hinner.elim
  | inner off shape kids ih =>
    intro path room slot links _ hr hh hlinks hroom
    have hpath := hr.wf.1
    have hmax : maxDepth = maxKeyLen + 1 := rfl
    obtain ⟨room, rfl⟩ : ∃ r, room = r + 2 := ⟨room - 2, by omega⟩
    set b := slotByte key path.length with hb
    have hs := hr.wf.2.2.1
    have hfit : off + shape.size ≤ s.mem.length := hh.arena.length ▸ hr.laid.2.2.1
    have hlaid := hr.laid.2.2.2.2.2 b
    set link : Link := ⟨slot, (inner off shape kids).raw, shape.type⟩ with hlink
    have hhead : removeLoop ix key (room + 2) slot links (inner off shape kids).raw s = _ :=
      run_removeLoop_node hr hh hlinks
    simp only [← hb, ← hlink] at hhead
    by_cases hkid : kids b = .nil
    · refine .inl ⟨by rw [lookup, ← hb, hkid, lookup], ?_⟩
      rw [hhead, hkid]
      split_ifs <;> rfl
    have hhas : shape.Has b := has_of_ne_nil hr.wf hkid
    have hheld := hh.child hr hhas
    have hready := hr.child
    have hne := raw_ne_zero hlaid hkid
    rw [if_pos hhas, removeBelow_child hne, removeFound] at hhead
    rw [← hb] at hready
    cases hkind : kids b with
    | nil => exact absurd hkind hkid
    | leaf off' k v =>
      rw [hkind] at hheld hhead hlaid
      obtain ⟨hleaf, hoff'⟩ := leaf_type s k v hlaid.1
      have heql := attempt_ok (run_leafKeyEql key hheld.stored (hh.arena.length ▸ hlaid))
      rw [bind_ok hleaf] at hhead
      simp only [if_true, hoff'] at hhead
      rw [bind_ok heql] at hhead
      by_cases hkey : k = key
      · subst hkey
        obtain ⟨mem, hdelete, hch, hnode⟩ := run_deleteChild hh.stored.1 hs hfit hr.laid.1 hhas
        have hnil : Tree.nil.WF (path ++ [b]) := trivial
        have hplaced := placed_claim hh hr hch hnode hnil (drop_type shape b)
        obtain ⟨t', h', up, s', hcol, hp, hclimb⟩ := run_collapse links hh hr hplaced
          (changed_drop hr.sound hr.laid hr.apart b) (wf_drop hr.wf hkid)
        refine .inr ⟨t', h', up, s', .leaf hkind hcol, hp, ?_⟩
        simp only [decide_true, ne_eq, not_true_eq_false, if_false] at hhead
        rw [bind_ok (attempt_ok hdelete)] at hhead
        rw [hhead, ← hclimb, raw, drop_type]
        rfl
      · refine .inl ⟨by rw [lookup, ← hb, hkind, lookup, if_neg hkey], hhead.trans ?_⟩
        simp only [hkey, decide_false, ne_eq, Option.some.injEq, Bool.false_eq_true, not_false_eq_true, if_true]
        rfl
    | inner off' shape' kids' =>
      have hslot := attempt_ok (run_childSlotPtr hh.stored.1 hs hfit hr.laid.1 hhas)
      have hroom' : ¬ room + 1 = 0 := Nat.succ_ne_zero room
      have htype' : getType (kids b).raw s = .ok shape'.type s := by
        rw [hkind] at hlaid ⊢
        exact run_getType hlaid.1 shape'.type
      rw [bind_ok htype'] at hhead
      simp only [type_ne_leaf, if_false, if_neg hroom'] at hhead
      rw [bind_ok hslot] at hhead
      dsimp only at hhead
      rw [bind_ok (run_load _ _), hheld.word] at hhead
      simp only [ne_eq, not_true_eq_false, if_false] at hhead
      have hlength : (path ++ [b]).length = path.length + 1 := by simp
      have hbelow : Descends ix limit key (link :: links) s h (shape.slotOf off b) (path ++ [b]).length (kids b) _ :=
        ih b (by rw [hkind]; trivial) hready hheld (by simp [hlinks])
          (show room + 1 + (path ++ [b]).length = maxDepth by omega)
      rcases hbelow with
        ⟨hnone, hrun⟩ | ⟨t₁, h₁, up₁, s₁, hrem, hp, hrun⟩
      · rw [hlength] at hnone
        exact .inl ⟨hnone, hhead.trans hrun⟩
      · rw [hlength] at hrem
        have hplaced := hp.lift hh hr hhas
        cases up₁ with
        | false => exact .inr ⟨_, h₁, false, s₁, .stopped hrem, hplaced, hhead.trans hrun⟩
        | true =>
          have hbelow := hrem.changed hr.sound (hr.laid.2.2.2.2.2 b) (hr.apart.mono_left (foot_kid off shape kids b))
          have hwf : (inner off shape (Function.update kids b t₁)).WF path :=
            wf_update hr.wf hs (fun c hc ↦ hc.elim id (· ▸ hhas)) (hrem.wf _ hlength (hr.wf.2.2.2.2 b))
          obtain ⟨t', h', up, s', hcol, hp', hclimb⟩ := run_collapse links hh hr hplaced
            (hbelow.lift hr.laid hr.apart (disjoint_empty _)) hwf
          exact .inr ⟨t', h', up, s', .onward hrem hcol, hp', hhead.trans (hrun.trans hclimb)⟩

theorem Tree.Removes.root_inner (hr : Removes limit key true depth h t t' h' up) : t'.IsInner := by
  cases hr with
  | leaf hkid hcol =>
    cases hcol with
    | kept => trivial
    | leaked => trivial
    | unlinked hroot => cases hroot
    | shrunk => trivial
  | onward hrem hcol =>
    cases hcol with
    | kept => trivial
    | leaked => trivial
    | unlinked hroot => cases hroot
    | shrunk => trivial
  | stopped => trivial

/-- The ends of a `remove` call. -/
inductive RemoveEnds (ix : ArtIndex) (limit : ℕ) (key : Bytes) (s : ArtState) (h : Heap) (root : Tree) : Prop
  | refused (hbad : ¬ ValidKey key) (hrun : remove ix key s = .error (.error .invalidKey) s)
  | absent (hgood : ValidKey key) (hnone : root.lookup key 0 = none) (hrun : remove ix key s = .ok false s)
  | removed {s' : ArtState} {h' : Heap} {root' : Tree} {up : Bool} (hgood : ValidKey key)
    (hrem : Removes limit key true 0 h root root' h' up) (hrun : remove ix key s = .ok true s')
    (hmoves : Moves ix limit s h root s' h' root')

theorem Indexed.remove (hx : Indexed ix limit s h t) (key : Bytes) : RemoveEnds ix limit key s h t := by
  by_cases hgood : ValidKey key
  swap
  · refine .refused hgood ?_
    rw [Art.remove, bind_error (by rw [run_validateKey, if_neg hgood])]
  have hcheck : validateKey key s = .ok () s := by rw [run_validateKey, if_pos hgood]
  have hslot : u32Slot ix.rootPtrOffset s = .ok ix.rootPtrOffset s :=
    run_u32Slot (hx.arena.length ▸ hx.arena.placed.root_fits) hx.arena.placed.root_aligned
  have hretries : maxDeleteRetries = 31 + 1 := rfl
  have hstart : Art.remove ix key s = removeAttempts ix key ix.rootPtrOffset (31 + 1) s := by
    rw [Art.remove, bind_ok hcheck, bind_ok hslot, hretries]
  rw [removeAttempts, bind_ok (run_load _ _), hx.word] at hstart
  by_cases hnil : t = .nil
  · rw [hnil] at hstart ⊢
    exact .absent hgood rfl hstart
  have hinner := hx.root_kind.resolve_left hnil
  simp only [if_neg (raw_ne_zero hx.laid hnil)] at hstart
  have htype : ∃ shape : Shape, getType t.raw s = .ok shape.type s := by
    cases t with
    | nil => exact absurd rfl hnil
    | leaf => exact hinner.elim
    | inner off shape kids => exact ⟨shape, run_getType hx.laid.1 shape.type⟩
  obtain ⟨shape, htype⟩ := htype
  rw [bind_ok htype] at hstart
  simp only [type_ne_leaf, if_false] at hstart
  have hst : Stored s.mem .nil := trivial
  have hheld := hx.held hst (disjoint_empty _) (disjoint_empty _)
  have hready : Ready limit key .nil [] h t := hx.ready key trivial (empty_disjoint _) (disjoint_empty _)
  have hlinks : ([] : List Link).length = ([] : Bytes).length := rfl
  have hroom : maxDepth + ([] : Bytes).length = maxDepth := rfl
  rcases run_removeLoop hinner hready hheld hlinks hroom with ⟨hnone, hrun⟩ | ⟨t', h', up, s', hrem, hp, hrun⟩
  · refine .absent hgood hnone ?_
    rw [hstart, bind_ok hrun]
    rfl
  · have hchanged := hrem.changed hx.arena.sound hx.laid hx.apart
    refine .removed hgood hrem ?_ (hx.place (.refl hx.arena) hp hchanged (empty_subset _) (hrem.wf [] rfl hx.wf)
      (.inr hrem.root_inner))
    have hclimb : climb ix [] up s' = .ok (some true) s' := by cases up <;> rfl
    rw [hstart, bind_ok (hrun.trans hclimb)]
    rfl

end TakyonDb.Art
