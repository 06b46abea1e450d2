import TakyonDb.Art.Removal
import TakyonDb.Layout

namespace TakyonDb.Art

open Lib Set Heap Art.Tree

variable {ix : ArtIndex} {limit fuel depth off count : ℕ} {s s₀ s' : ArtState} {h h' : Heap} {root root' t t' : Tree}
  {key path : Bytes} {mem : Bytes} {shape : Shape} {kids : UInt8 → Tree} {up isRoot : Bool} {op : Op}

section Demands

def capacityOf : NodeType → ℕ
  | .node4 => SlotKind.node4.capacity
  | .node16 => SlotKind.node16.capacity
  | .node48 => SlotKind.node48.capacity
  | _ => 0

/-- The size of the node that takes the place of a full one. -/
def grownSize : NodeType → ℕ
  | .node4 => SlotKind.node16.size
  | .node16 => SlotKind.node48.size
  | .node48 => node256Size
  | _ => 0

/-- The size of the node that takes the place of a sparse one. -/
def shrunkSize : NodeType → ℕ
  | .node256 => SlotKind.node48.size
  | .node48 => SlotKind.node16.size
  | .node16 => SlotKind.node4.size
  | _ => 0

/-- What the descent of an insert takes from the allocator, in bytes, as the memory tells it. -/
def demandAt (mem key : Bytes) : ℕ → ℕ → ℕ → ℕ
  | 0, _, _ => 0
  | fuel + 1, cur, depth =>
    let off := ArtPtr.getOffset cur
    match ArtPtr.getType cur with
    | none => 0
    | some .leaf =>
      let existing := slice mem (off + leafHeader) (readU32 mem off)
      if existing = key then 0 else 24 * (splitPoint existing key depth - depth + 1)
    | some ntype =>
      match searchChild mem ntype off (slotByte key depth) with
      | none => if capacityOf ntype ≤ (byteAt mem off).toNat then grownSize ntype else 0
      | some 0 => 0
      | some child => demandAt mem key fuel child (depth + 1)

/-- What an insert takes: a root node when there is none, the leaf, and what the descent takes. -/
def insertDemand (ix : ArtIndex) (key mem : Bytes) : ℕ :=
  if readU32 mem ix.rootPtrOffset = 0 then SlotKind.node4.size + alignSize (leafHeader + key.length)
  else alignSize (leafHeader + key.length) + demandAt mem key (maxDepth + 1) (readU32 mem ix.rootPtrOffset) 0

/-- What one round of the collapse takes at a node with this count, and whether the next round follows. -/
def collapseDemand (isRoot : Bool) (ntype : NodeType) (count : ℕ) : ℕ × Bool :=
  if count = 0 then (0, !isRoot)
  else if count ≤ shrinkBound ntype then (shrunkSize ntype, true)
  else (0, false)

def countAt (mem : Bytes) (ntype : NodeType) (off : ℕ) : ℕ :=
  match ntype with
  | .node256 => readU16 mem off
  | _ => (byteAt mem off).toNat

/-- What a removal takes on the way up, from the node `cur` on. -/
def removeDemandAt (mem key : Bytes) : Bool → ℕ → ℕ → ℕ → ℕ × Bool
  | _, 0, _, _ => (0, false)
  | isRoot, fuel + 1, cur, depth =>
    let off := ArtPtr.getOffset cur
    match ArtPtr.getType cur with
    | none | some .leaf => (0, false)
    | some ntype =>
      match searchChild mem ntype off (slotByte key depth) with
      | none | some 0 => (0, false)
      | some child =>
        if ArtPtr.getType child = some .leaf then
          if (searchLeaf mem (ArtPtr.getOffset child) key).isSome then
            collapseDemand isRoot ntype (countAt mem ntype off - 1)
          else (0, false)
        else
          let below := removeDemandAt mem key false fuel child (depth + 1)
          if below.2 then
            let here := collapseDemand isRoot ntype (countAt mem ntype off)
            (below.1 + here.1, here.2)
          else below

def removeDemand (ix : ArtIndex) (key mem : Bytes) : ℕ :=
  (removeDemandAt mem key true (maxDepth + 1) (readU32 mem ix.rootPtrOffset) 0).1

theorem demandAt_inner (hst : Stored mem (inner off shape kids)) (hwf : (inner off shape kids).WF path)
    (hlaid : (inner off shape kids).Laid mem.length) :
    demandAt mem key (fuel + 1) (inner off shape kids).raw depth =
      match (if shape.Has (slotByte key depth) then some (kids (slotByte key depth)).raw else none) with
      | none => if shape.Full then shape.grow.size else 0
      | some 0 => 0
      | some child => demandAt mem key fuel child (depth + 1) := by
  have htype : ArtPtr.getType (inner off shape kids).raw = some shape.type := getType_tag hlaid.1 shape.type
  have hoff : ArtPtr.getOffset (inner off shape kids).raw = off := getOffset_tag hlaid.1 shape.type
  have hchild := searchChild_eq (b := slotByte key depth) hst.1 hwf.2.2.1 hlaid.2.2.1
  rw [demandAt, htype, hoff, ← hchild]
  cases shape with
  | slots kind keys =>
    have hcount := hst.1.1
    rw [hcount]
    cases kind with
    | node4 => rfl
    | node16 => rfl
    | node48 => rfl
  | direct count =>
    show (match searchChild mem (Shape.direct count).type off (slotByte key depth) with
      | none => if 0 ≤ (byteAt mem off).toNat then 0 else 0
      | some 0 => 0
      | some child => demandAt mem key fuel child (depth + 1)) = _
    rw [hchild]
    rfl

/-- The memory tells what the descent takes. -/
theorem demandAt_eq : ∀ {t : Tree} {path : Bytes} {fuel : ℕ}, Stored mem t → t.WF path → t.Laid mem.length → t ≠ .nil →
    maxDepth < fuel + path.length → demandAt mem key fuel t.raw path.length = t.demand key path.length := by
  intro t
  induction t with
  | nil => exact fun _ _ _ hne ↦ absurd rfl hne
  | leaf off k v =>
    intro path fuel hst hwf hlaid _ hfuel
    have hmax : maxDepth = maxKeyLen + 1 := rfl
    have hdepth := hwf.2.length_le
    have hlen := hwf.1.2.1
    rw [List.length_append, List.length_singleton] at hdepth
    obtain ⟨fuel, rfl⟩ : ∃ f, fuel = f + 1 := ⟨fuel - 1, by omega⟩
    have htype : ArtPtr.getType (leaf off k v).raw = some .leaf := getType_tag hlaid.1 .leaf
    have hoff : ArtPtr.getOffset (leaf off k v).raw = off := getOffset_tag hlaid.1 .leaf
    rw [demandAt, htype, hoff, hst.1, hst.2.2, demand]
  | inner off shape kids ih =>
    intro path fuel hst hwf hlaid _ hfuel
    have hmax : maxDepth = maxKeyLen + 1 := rfl
    have hpath := hwf.1
    obtain ⟨fuel, rfl⟩ : ∃ f, fuel = f + 1 := ⟨fuel - 1, by omega⟩
    set b := slotByte key path.length with hb
    rw [demandAt_inner hst hwf hlaid, demand, ← hb]
    by_cases hhas : shape.Has b
    · rw [if_pos hhas, if_pos hhas]
      by_cases hkid : kids b = .nil
      · rw [hkid]
        rfl
      · have hraw := raw_ne_zero (hlaid.2.2.2.2.2 b) hkid
        have hchild : demandAt mem key fuel (kids b).raw (path ++ [b]).length = _ :=
          ih b (hst.2 b) (hwf.2.2.2.2 b) (hlaid.2.2.2.2.2 b) hkid
            (by rw [List.length_append, List.length_singleton]; omega)
        rw [List.length_append, List.length_singleton] at hchild
        obtain ⟨n, hn⟩ : ∃ n, (kids b).raw = n + 1 := ⟨(kids b).raw - 1, by omega⟩
        rw [← hchild, hn]
        rfl
    · rw [if_neg hhas, if_neg hhas]

theorem Indexed.insertDemand_eq (hx : Indexed ix limit s h root) (key : Bytes) :
    insertDemand ix key s.mem = root.callDemand key := by
  rw [insertDemand, hx.word]
  by_cases hnil : root = .nil
  · rw [hnil, if_pos (show Tree.nil.raw = 0 from rfl), callDemand]
  · have hdemand : demandAt s.mem key (maxDepth + 1) root.raw ([] : Bytes).length = _ :=
      demandAt_eq hx.stored hx.wf (hx.arena.length ▸ hx.laid) hnil (by simp)
    rw [if_neg (raw_ne_zero hx.laid hnil), show (0 : ℕ) = ([] : Bytes).length from rfl, hdemand]
    cases root with
    | nil => exact absurd rfl hnil
    | leaf => rfl
    | inner => rfl

theorem shrink_size (shape : Shape) (kids : UInt8 → Tree) (hbound : shape.count ≤ shrinkBound shape.type)
    (hne : shape.count ≠ 0) : (shape.shrink kids).size = shrunkSize shape.type := by
  cases shape with
  | slots kind keys =>
    cases kind with
    | node4 => exact absurd (Nat.le_zero.mp hbound) hne
    | node16 => rfl
    | node48 => rfl
  | direct count => rfl

/-- A round of the collapse takes no more than it demands, and goes on only where it may. -/
theorem Tree.Collapses.bump_le (hc : Collapses limit isRoot h (inner off shape kids) t' h' up) :
    h'.bump ≤ h.bump + (collapseDemand isRoot shape.type shape.count).1 ∧
      (up = true → (collapseDemand isRoot shape.type shape.count).2 = true) := by
  cases hc with
  | kept => exact ⟨Nat.le_add_right _ _, fun heq ↦ by cases heq⟩
  | leaked hcount hbound halloc =>
    have hbump := alloc_bump_le halloc
    rw [alignSize_size, shrink_size shape kids hbound hcount] at hbump
    rw [collapseDemand, if_neg hcount, if_pos hbound]
    exact ⟨hbump, fun heq ↦ by cases heq⟩
  | unlinked hroot hcount =>
    rw [collapseDemand, if_pos hcount, hroot]
    exact ⟨le_rfl, fun _ ↦ rfl⟩
  | shrunk hcount hbound halloc =>
    have hbump := alloc_bump_le halloc
    rw [alignSize_size, shrink_size shape kids hbound hcount] at hbump
    rw [collapseDemand, if_neg hcount, if_pos hbound]
    exact ⟨hbump, fun _ ↦ rfl⟩

theorem removeDemandAt_inner (hst : Stored mem (inner off shape kids)) (hwf : (inner off shape kids).WF path)
    (hlaid : (inner off shape kids).Laid mem.length) (hkid : kids (slotByte key depth) ≠ .nil) :
    removeDemandAt mem key isRoot (fuel + 1) (inner off shape kids).raw depth =
      if ArtPtr.getType (kids (slotByte key depth)).raw = some .leaf then
        if (searchLeaf mem (ArtPtr.getOffset (kids (slotByte key depth)).raw) key).isSome then
          collapseDemand isRoot shape.type (shape.count - 1)
        else (0, false)
      else
        let below := removeDemandAt mem key false fuel (kids (slotByte key depth)).raw (depth + 1)
        if below.2 then
          let here := collapseDemand isRoot shape.type shape.count
          (below.1 + here.1, here.2)
        else below := by
  have htype : ArtPtr.getType (inner off shape kids).raw = some shape.type := getType_tag hlaid.1 shape.type
  have hoff : ArtPtr.getOffset (inner off shape kids).raw = off := getOffset_tag hlaid.1 shape.type
  have hchild := searchChild_eq (b := slotByte key depth) hst.1 hwf.2.2.1 hlaid.2.2.1
  rw [if_pos (has_of_ne_nil hwf hkid)] at hchild
  have hraw := raw_ne_zero (hlaid.2.2.2.2.2 (slotByte key depth)) hkid
  have hcount : countAt mem shape.type off = shape.count := by
    cases shape with
    | slots kind keys =>
      have hcount := hst.1.1
      cases kind <;> exact hcount
    | direct count => exact hst.1.1
  generalize (kids (slotByte key depth)).raw = raw at hchild hraw ⊢
  obtain ⟨n, rfl⟩ : ∃ n, raw = n + 1 := ⟨raw - 1, by omega⟩
  rw [removeDemandAt, htype, hoff, ← hcount]
  cases hshape : shape.type with
  | leaf => exact absurd hshape (type_ne_leaf shape)
  | node4 =>
    rw [hshape] at hchild
    simp only [hchild]
  | node16 =>
    rw [hshape] at hchild
    simp only [hchild]
  | node48 =>
    rw [hshape] at hchild
    simp only [hchild]
  | node256 =>
    rw [hshape] at hchild
    simp only [hchild]

theorem drop_count (shape : Shape) (b : UInt8) : (shape.drop b).count = shape.count - 1 := by
  cases shape with
  | slots kind keys => exact length_swapRemove keys b
  | direct count => rfl

/-- A removal that goes on below the child of a node. -/
theorem removeDemandAt_child {t₁ : Tree} (hst : Stored mem (inner off shape kids))
    (hwf : (inner off shape kids).WF path)
    (hlaid : (inner off shape kids).Laid mem.length)
    (hrem : Removes limit key false (depth + 1) h (kids (slotByte key depth)) t₁ h' up) :
    removeDemandAt mem key isRoot (fuel + 1) (inner off shape kids).raw depth =
      if (removeDemandAt mem key false fuel (kids (slotByte key depth)).raw (depth + 1)).2 = true then
        ((removeDemandAt mem key false fuel (kids (slotByte key depth)).raw (depth + 1)).1 +
          (collapseDemand isRoot shape.type shape.count).1, (collapseDemand isRoot shape.type shape.count).2)
      else removeDemandAt mem key false fuel (kids (slotByte key depth)).raw (depth + 1) := by
  have hl := hlaid.2.2.2.2.2 (slotByte key depth)
  have hinner : ArtPtr.getType (kids (slotByte key depth)).raw ≠ some .leaf := by
    cases hkid : kids (slotByte key depth) with
    | nil => exact absurd hkid hrem.ne_nil
    | leaf off' k v =>
      rw [hkid] at hrem
      cases hrem
    | inner off' shape' kids' =>
      rw [hkid] at hl
      have htype : ArtPtr.getType (inner off' shape' kids').raw = some shape'.type := getType_tag hl.1 shape'.type
      rw [htype]
      exact fun heq ↦ type_ne_leaf shape' (Option.some.inj heq)
  rw [removeDemandAt_inner hst hwf hlaid hrem.ne_nil, if_neg hinner]

/-- A removal takes no more than the memory demands. -/
theorem Tree.Removes.bump_le (hr : Removes limit key isRoot depth h t t' h' up) :
    ∀ {path : Bytes} {fuel : ℕ}, Stored mem t → t.WF path → t.Laid mem.length → path.length = depth →
      maxDepth < fuel + depth → h'.bump ≤ h.bump + (removeDemandAt mem key isRoot fuel t.raw depth).1 ∧
        (up = true → (removeDemandAt mem key isRoot fuel t.raw depth).2 = true) := by
  have hmax : maxDepth = maxKeyLen + 1 := rfl
  induction hr with
  | @leaf isRoot up depth off off' h h' shape kids v t' hkid hcol =>
    intro path fuel hst hwf hlaid hpath hfuel
    have hdepth := hwf.1
    obtain ⟨fuel, rfl⟩ : ∃ f, fuel = f + 1 := ⟨fuel - 1, by omega⟩
    have hne : kids (slotByte key depth) ≠ .nil := by simp [hkid]
    have hl := hlaid.2.2.2.2.2 (slotByte key depth)
    have hst' := hst.2 (slotByte key depth)
    rw [hkid] at hl hst'
    have htype : ArtPtr.getType (Tree.leaf off' key v).raw = some .leaf := getType_tag hl.1 .leaf
    have hoff : ArtPtr.getOffset (Tree.leaf off' key v).raw = off' := getOffset_tag hl.1 .leaf
    have hfound : (searchLeaf mem off' key).isSome := by
      rw [searchLeaf_eq hst' hl, if_pos rfl]
      rfl
    rw [removeDemandAt_inner hst hwf hlaid hne, hkid, htype, hoff, if_pos rfl, if_pos hfound,
      ← drop_count _ (slotByte key depth), ← drop_type _ (slotByte key depth)]
    exact hcol.bump_le
  | @onward isRoot up depth off h h₁ h' shape kids t₁ t' hrem hcol ih =>
    rintro path fuel hst hwf hlaid rfl hfuel
    have hdepth := hwf.1
    obtain ⟨fuel, rfl⟩ : ∃ f, fuel = f + 1 := ⟨fuel - 1, by omega⟩
    obtain ⟨hbump, hup⟩ := ih (hst.2 _) (hwf.2.2.2.2 _) (hlaid.2.2.2.2.2 _) (by simp)
      (show maxDepth < fuel + _ by omega)
    obtain ⟨hbump', hup'⟩ := hcol.bump_le
    rw [removeDemandAt_child hst hwf hlaid hrem, if_pos (hup rfl)]
    exact ⟨by dsimp only; omega, hup'⟩
  | @stopped isRoot depth off h h₁ shape kids t₁ hrem ih =>
    rintro path fuel hst hwf hlaid rfl hfuel
    have hdepth := hwf.1
    obtain ⟨fuel, rfl⟩ : ∃ f, fuel = f + 1 := ⟨fuel - 1, by omega⟩
    obtain ⟨hbump, -⟩ := ih (hst.2 _) (hwf.2.2.2.2 _) (hlaid.2.2.2.2.2 _) (by simp) (show maxDepth < fuel + _ by omega)
    refine ⟨?_, fun heq ↦ by cases heq⟩
    rw [removeDemandAt_child hst hwf hlaid hrem]
    split_ifs
    · dsimp only
      omega
    · exact hbump

/-- The only leaf goes without a new node. -/
theorem Indexed.removeDemand_single {newOff : ℕ} {value : UInt32}
    (hx : Indexed ix limit s h (single off newOff key value)) :
    removeDemand ix key s.mem = 0 := by
  have hkid : Function.update (kidsOf []) (slotByte key 0) (leaf newOff key value)
      (slotByte key 0) = leaf newOff key value :=
    Function.update_self _ _ _
  have hlaid := hx.laid
  rw [← hx.arena.length] at hlaid
  have hleaf : (leaf newOff key value).Laid s.mem.length := hkid ▸ hlaid.2.2.2.2.2 (slotByte key 0)
  have htype : ArtPtr.getType (leaf newOff key value).raw = some .leaf := getType_tag hleaf.1 .leaf
  have hdemand : removeDemandAt s.mem key true (maxDepth + 1) (single off newOff key value).raw 0 = _ :=
    removeDemandAt_inner hx.stored hx.wf hlaid (by rw [hkid]; exact fun heq ↦ by cases heq)
  rw [hkid, if_pos htype] at hdemand
  rw [removeDemand, hx.word, hdemand]
  split_ifs <;> rfl

end Demands

section Regions

open Layout

variable {r : Regions} {n : ℕ}

/-- The index at the boundaries of a region table. -/
def regionIndex (r : Regions) : ArtIndex := ⟨r.artRoot.toNat, r.artBumpOffset⟩

def openIndex (r : Regions) (s : ArtState) : ArtState := { s with mem := init r.artBumpOffset r.artStart s.mem }

abbrev artRegion (r : Regions) : Set ℕ := Ico r.artRoot.toNat r.artEnd

/-- What the call takes from the allocator ends at or before the end of the index region. -/
def FitsRegion (r : Regions) (s : ArtState) : Op → Prop
  | .insert key value => ValidKey key → value.toNat < s.mem.length →
      readU32 s.mem r.artBumpOffset + insertDemand (regionIndex r) key s.mem ≤ r.artEnd
  | .remove key => ValidKey key →
      readU32 s.mem r.artBumpOffset + removeDemand (regionIndex r) key s.mem ≤ r.artEnd

/-- The nodes of the index, its orphans and its bump word are in the index region. -/
def InRegion (r : Regions) (n : ℕ) (s : ArtState) : Prop :=
  ∃ h root, Indexed (regionIndex r) n s h root ∧ root.foot ⊆ artRegion r ∧ h.avail ⊆ Ici r.artRoot.toNat ∧
    h.bump ≤ r.artEnd

/-- An index with its nodes, its orphans and its bump word in the index region. -/
structure Confined (r : Regions) (n : ℕ) (s : ArtState) (h : Heap) (root : Tree) : Prop where
  indexed : Indexed (regionIndex r) n s h root
  foot : root.foot ⊆ artRegion r
  avail : h.avail ⊆ Ici r.artRoot.toNat
  bump_le : h.bump ≤ r.artEnd

/-- A call whose demand fits leaves the bump word in the region. -/
theorem TreeCall.bump_le (hc : TreeCall n h root op h' root') (hx : Indexed (regionIndex r) n s h root)
    (hend : r.artEnd ≤ n) (hbump : h.bump ≤ r.artEnd) (hfits : FitsRegion r s op) : h'.bump ≤ r.artEnd := by
  have hword : readU32 s.mem r.artBumpOffset = h.bump := hx.arena.bump
  have hlen := hx.arena.length
  cases hc with
  | same => exact hbump
  | failed hgood hroot hfull =>
    have hroom := hfits hgood.1 (hlen ▸ hgood.2)
    rw [hword, hx.insertDemand_eq] at hroom
    omega
  | inserted hgood hroot hleaf hins =>
    have hroom := hfits hgood.1 (hlen ▸ hgood.2)
    rw [hword, hx.insertDemand_eq] at hroom
    have htaken := hroot.bump_le hleaf
    have hdescent := hins.bump_le
    omega
  | removed hgood hrem =>
    have hroom := hfits hgood
    rw [hword, removeDemand, hx.word] at hroom
    have hbump' : h'.bump ≤ h.bump + (removeDemandAt s.mem _ true (maxDepth + 1) root.raw 0).1 :=
      (hrem.bump_le hx.stored hx.wf (hlen ▸ hx.laid) rfl (by omega)).1
    omega

theorem Indexed.words_in (hx : Indexed (regionIndex r) n s h root) (hbump : h.bump ≤ r.artEnd) :
    (regionIndex r).rootWord ∪ (regionIndex r).bumpWord ⊆ artRegion r := by
  have hoff : r.artBumpOffset = r.artRoot.toNat + 4 := rfl
  have hpast : r.artBumpOffset + 4 ≤ h.bump := by
    by_contra hlt
    have hin : r.artBumpOffset + 3 ∈ (regionIndex r).bumpWord := ⟨by simp [regionIndex], by simp [regionIndex]⟩
    exact disjoint_left.mp hx.arena.clear hin (.inr (show h.bump ≤ r.artBumpOffset + 3 by omega))
  rintro a (⟨hlo, hhi⟩ | ⟨hlo, hhi⟩) <;> simp only [regionIndex] at hlo hhi <;> exact ⟨by omega, by omega⟩

/-- The index does not see what happens outside of its region. -/
theorem Confined.frame {t : Set ℕ} (hc : Confined r n s h root) (hch : ChangesOnly t s.mem mem)
    (ht : Disjoint (artRegion r) t) : Confined r n { s with mem } h root := by
  have hown : (regionIndex r).rootWord ∪ (regionIndex r).bumpWord ∪ root.foot ⊆ artRegion r :=
    union_subset (hc.indexed.words_in hc.bump_le) hc.foot
  exact { hc with indexed := hc.indexed.frame hch (ht.mono_left hown) }

theorem Confined.fitsRegion_iff {value : UInt32} (hc : Confined r n s h root) :
    FitsRegion r s (.insert key value) ↔
      (ValidKey key → value.toNat < n → h.bump + root.callDemand key ≤ r.artEnd) := by
  have hword : readU32 s.mem r.artBumpOffset = h.bump := hc.indexed.arena.bump
  rw [FitsRegion, hword, hc.indexed.insertDemand_eq, hc.indexed.arena.length]

/-- What a call whose demand fits takes and leaves lies in the region. -/
theorem Confined.moves (hc : Confined r n s h root) (hend : r.artEnd ≤ n) (hfits : FitsRegion r s op)
    (hmoves : Moves (regionIndex r) n s h root s' h' root') (htree : TreeCall n h root op h' root') :
    Confined r n s' h' root' ∧ ChangesOnly (artRegion r) s.mem s'.mem := by
  have hbump := htree.bump_le hc.indexed hend hc.bump_le hfits
  have htaken : taken h h' ⊆ artRegion r := fun a ha ↦ ⟨hc.avail ha.1, ha.2.trans_le hbump⟩
  refine ⟨⟨hmoves.indexed, hmoves.foot.trans (union_subset hc.foot htaken),
    hmoves.avail.trans (union_subset hc.avail (hc.foot.trans fun a ha ↦ ha.1)), hbump⟩, hmoves.changes.mono ?_⟩
  exact union_subset (union_subset (hc.indexed.words_in hc.bump_le) hc.foot) htaken

theorem Confined.call (hc : Confined r n s h root) (hend : r.artEnd ≤ n) (hfits : FitsRegion r s op)
    (hcall : IndexCall (regionIndex r) s op s') : ∃ h' root', Confined r n s' h' root' ∧
      TreeCall n h root op h' root' ∧ ChangesOnly (artRegion r) s.mem s'.mem := by
  obtain ⟨h', root', hmoves, htree⟩ := hc.indexed.call hcall
  obtain ⟨hconfined, hch⟩ := hc.moves hend hfits hmoves htree
  exact ⟨h', root', hconfined, htree, hch⟩

theorem inRegion_iff : InRegion r n s ↔ ∃ h root, Confined r n s h root := by
  constructor
  · rintro ⟨h, root, hx, hfoot, havail, hbump⟩
    exact ⟨h, root, hx, hfoot, havail, hbump⟩
  · rintro ⟨h, root, hc⟩
    exact ⟨h, root, hc.indexed, hc.foot, hc.avail, hc.bump_le⟩

/-- What happens outside of its region leaves the index in it. -/
theorem InRegion.frame {t : Set ℕ} (hs : InRegion r n s) (hch : ChangesOnly t s.mem mem)
    (ht : Disjoint (artRegion r) t) : InRegion r n { s with mem } := by
  obtain ⟨h, root, hc⟩ := inRegion_iff.mp hs
  exact inRegion_iff.mpr ⟨h, root, hc.frame hch ht⟩

theorem artEnd_le (hv : Valid r n) : r.artEnd ≤ r.stringStart.toNat ∧ r.artEnd ≤ n := by
  have hle := hv.artEnd_le
  have hstr := hv.stringEnd_le
  have hend : r.artEnd = r.artRoot.toNat + r.artBytes.toNat := rfl
  rw [Regions.stringEnd] at hstr
  omega

/-- Calls whose demands fit the region change no byte outside of it. -/
theorem stays_in_region (hv : validateRegions r n = .ok ()) (hs : InRegion r n s₀)
    (hrun : Run (IndexCall (regionIndex r)) (FitsRegion r) s₀ s) :
    InRegion r n s ∧ ChangesOnly (artRegion r) s₀.mem s.mem := by
  have hend := (artEnd_le ((valid_iff r n).mp hv)).2
  refine hrun.invariant (fun s ↦ InRegion r n s ∧ ChangesOnly (artRegion r) s₀.mem s.mem) ?_ ⟨hs, .rfl'⟩
  rintro s op t ⟨hin, hch⟩ hfits hcall
  obtain ⟨h, root, hc⟩ := inRegion_iff.mp hin
  obtain ⟨h', root', hc', -, hch'⟩ := hc.call hend hfits hcall
  exact ⟨inRegion_iff.mpr ⟨h', root', hc'⟩, hch.trans hch'⟩

/-- A region with room for its two words is a place for an index. -/
theorem regionIndex_placed (hvalid : Valid r n) (hroom : 8 ≤ r.artBytes.toNat) : (regionIndex r).Placed n := by
  have hle := hvalid.artEnd_le
  have hstr := hvalid.stringEnd_le
  have hlt := r.arenaBytes.toNat_lt
  have hal := hvalid.root_aligned
  have harena := hvalid.arena
  have hoff : r.artBumpOffset = r.artRoot.toNat + 4 := rfl
  rw [Regions.stringEnd] at hstr
  rw [Regions.artEnd] at hle
  refine ⟨by omega, ?_, ?_, ?_, ?_, .inl ?_⟩ <;> simp only [regionIndex] <;> omega

theorem changesOnly_openIndex {s : ArtState} (hfit : r.artBumpOffset + 4 ≤ s.mem.length) :
    ChangesOnly (Ico r.artBumpOffset (r.artBumpOffset + 4)) s.mem (openIndex r s).mem := by
  show ChangesOnly _ s.mem (init r.artBumpOffset r.artStart s.mem)
  rw [init]
  split_ifs
  · exact changesOnly_writeU32 hfit _
  · exact .rfl'

/-- A fresh index whose bump word does not point past the region. -/
theorem Fresh.confined (hf : Fresh (regionIndex r) n s) (hle : readU32 s.mem r.artBumpOffset ≤ r.artEnd) :
    Confined r n s ⟨readU32 s.mem r.artBumpOffset, s.free⟩ .nil := by
  have hpast : r.artRoot.toNat + 4 ≤ readU32 s.mem r.artBumpOffset := hf.past_root
  have hblocks : s.free.blocks = [] := by simp [Freelist.blocks, hf.orphans]
  refine ⟨hf.indexed, empty_subset _, ?_, hle⟩
  rintro a (⟨block, hb, -⟩ | ha)
  · rw [hblocks] at hb
    cases hb
  · exact le_trans (show r.artRoot.toNat ≤ readU32 s.mem r.artBumpOffset by omega) ha

/-- A region whose root word is unset and whose bump word points into it holds the empty index. -/
theorem confined_empty {bump : ℕ} (hv : Valid r n) (hroom : 8 ≤ r.artBytes.toNat) (hlen : s.mem.length = n)
    (hroot : readU32 s.mem r.artRoot.toNat = 0) (hbump : readU32 s.mem r.artBumpOffset = bump) (hal : bump % 8 = 0)
    (hin : r.artStart ≤ bump ∧ bump ≤ r.artEnd) (hfree : ∀ size, s.free.stackOf size = []) :
    Confined r n s ⟨bump, s.free⟩ .nil := by
  have hoff : r.artBumpOffset = r.artRoot.toNat + 4 := rfl
  have hstart : r.artStart = r.artRoot.toNat + 8 := rfl
  have hfresh : Fresh (regionIndex r) n s := by
    refine ⟨regionIndex_placed hv hroom, hlen, hroot, ?_, ?_, ?_, hfree⟩ <;> simp only [regionIndex, hbump] <;> omega
  have hc := hfresh.confined (by omega)
  rwa [hbump] at hc

/-- A region whose root word is unset and whose bump word points behind the
two words holds the empty index. -/
theorem confined_start (hv : Valid r n) (hroom : 8 ≤ r.artBytes.toNat) (hlen : s.mem.length = n)
    (hroot : readU32 s.mem r.artRoot.toNat = 0) (hbump : readU32 s.mem r.artBumpOffset = r.artStart)
    (hfree : ∀ size, s.free.stackOf size = []) : Confined r n s ⟨r.artStart, s.free⟩ .nil := by
  have hal := hv.root_aligned
  have hstart : r.artStart = r.artRoot.toNat + 8 := rfl
  have hend : r.artEnd = r.artRoot.toNat + r.artBytes.toNat := rfl
  exact confined_empty hv hroom hlen hroot hbump (by omega) (by omega) hfree

/-- A blank region that has room for its two words holds the empty index once it is opened. -/
theorem confined_blank {s : ArtState} (hv : Valid r s.mem.length) (hroom : 8 ≤ r.artBytes.toNat)
    (hroot : readU32 s.mem r.artRoot.toNat = 0) (hbump : readU32 s.mem r.artBumpOffset = 0)
    (hfree : ∀ size, s.free.stackOf size = []) :
    Confined r s.mem.length (openIndex r s) ⟨r.artStart, s.free⟩ .nil := by
  have hfits := (regionIndex_placed hv hroom).bump_fits
  have hoff : r.artBumpOffset = r.artRoot.toNat + 4 := rfl
  have hstart : r.artStart = r.artRoot.toNat + 8 := rfl
  have hend : r.artEnd = r.artRoot.toNat + r.artBytes.toNat := rfl
  have hlt : s.mem.length < 2 ^ 32 := hv.arena ▸ r.arenaBytes.toNat_lt
  have hin := (artEnd_le hv).2
  simp only [regionIndex] at hfits
  have hch := changesOnly_openIndex hfits
  have hword : readU32 (openIndex r s).mem r.artBumpOffset = r.artStart := by
    show readU32 (init r.artBumpOffset r.artStart s.mem) r.artBumpOffset = r.artStart
    rw [init, if_pos hbump]
    exact readU32_writeU32_self hfits (by omega)
  exact confined_start hv hroom hch.length_eq ((hch.readU32 (disjoint_Ico (.inl hoff.ge))).trans hroot) hword hfree

/-- A table with an index region of the given size. -/
def tightRegions (artBytes : UInt32) : Regions := ⟨2720, 16, 2632, 8, 2640, artBytes, 2640 + artBytes, 16⟩

def tightArena (artBytes : UInt32) : ArtState := openIndex (tightRegions artBytes) ⟨zeros 2720, ⟨false, fun _ ↦ []⟩⟩

theorem tightArena_confined {artBytes : UInt32} (hv : validateRegions (tightRegions artBytes) 2720 = .ok ())
    (hroom : 8 ≤ artBytes.toNat) :
    Confined (tightRegions artBytes) 2720 (tightArena artBytes)
      ⟨(tightRegions artBytes).artStart, ⟨false, fun _ ↦ []⟩⟩ .nil := by
  have hlen : (zeros 2720).length = 2720 := length_zeros 2720
  have hroot : readU32 (zeros 2720) 2640 = 0 := readU32_zeros (by decide)
  have hbump : readU32 (zeros 2720) 2644 = 0 := readU32_zeros (by decide)
  rw [tightArena]
  generalize zeros 2720 = mem at hlen hroot hbump ⊢
  rw [← hlen] at hv ⊢
  exact confined_blank (s := ⟨mem, ⟨false, fun _ ↦ []⟩⟩) ((valid_iff _ _).mp hv) hroom hroot hbump fun _ ↦ rfl

/-- The root node and a short leaf fit into 48 bytes. -/
theorem stays_in_region_tightArena : ∃ s, Run (IndexCall (regionIndex (tightRegions 48))) (FitsRegion (tightRegions 48))
    (tightArena 48) s ∧ InRegion (tightRegions 48) 2720 s := by
  have hv : validateRegions (tightRegions 48) 2720 = .ok () := by decide
  have hconfined := tightArena_confined hv (by decide)
  have hx := hconfined.indexed
  have hin : InRegion _ 2720 _ := inRegion_iff.mpr ⟨_, _, hconfined⟩
  obtain ⟨s, -, -, -, -, -, -, hrun, -⟩ := hx.insert_first (show ValidKey [97] ∧ (5 : UInt32).toNat < 2720 by decide)
    (by decide)
  have hfits : FitsRegion (tightRegions 48) (tightArena 48) (.insert [97] 5) := by
    intro _ _
    have hword : readU32 (tightArena 48).mem (tightRegions 48).artBumpOffset = 2648 := hx.arena.bump
    rw [hword, hx.insertDemand_eq]
    decide
  have hrun' : Run (IndexCall (regionIndex (tightRegions 48))) (FitsRegion (tightRegions 48)) (tightArena 48) s :=
    (Run.refl _).tail hfits (.inserted hrun)
  exact ⟨s, hrun', (stays_in_region hv hin hrun').1⟩

/-- In an index region of 40 bytes the first leaf goes over the string region. -/
theorem index_leaves_region : ∃ s, validateRegions (tightRegions 40) 2720 = .ok () ∧
    InRegion (tightRegions 40) 2720 (tightArena 40) ∧
    Run (IndexCall (regionIndex (tightRegions 40))) (fun _ _ ↦ True) (tightArena 40) s ∧
      ¬ ChangesOnly (artRegion (tightRegions 40)) (tightArena 40).mem s.mem := by
  have hv : validateRegions (tightRegions 40) 2720 = .ok () := by decide
  have hconfined := tightArena_confined hv (by decide)
  have hx := hconfined.indexed
  have hin : InRegion _ 2720 _ := inRegion_iff.mpr ⟨_, _, hconfined⟩
  obtain ⟨s, off, h₁, newOff, h₂, halloc, hleaf, hrun, hx'⟩ :=
    hx.insert_first (show ValidKey [97] ∧ (5 : UInt32).toNat < 2720 by decide) (by decide)
  have hnode : Heap.alloc 2720 SlotKind.node4.size ⟨2648, ⟨false, fun _ ↦ []⟩⟩ =
      some (2648, ⟨2672, ⟨false, fun _ ↦ []⟩⟩) := rfl
  obtain ⟨rfl, rfl⟩ := Prod.mk.inj (Option.some.inj (hnode.symm.trans halloc))
  have hshort : Heap.alloc 2720 (leafHeader + ([97] : Bytes).length) ⟨2672, ⟨false, fun _ ↦ []⟩⟩ =
      some (2672, ⟨2688, ⟨false, fun _ ↦ []⟩⟩) := rfl
  obtain ⟨rfl, rfl⟩ := Prod.mk.inj (Option.some.inj (hshort.symm.trans hleaf))
  refine ⟨s, hv, hin, (Run.refl _).tail trivial (.inserted hrun), fun hch ↦ ?_⟩
  have hkey : slice s.mem 2680 1 = [97] := (hx'.stored.2 97).2.2
  have hbefore : slice (tightArena 40).mem 2680 1 = [0] := by
    have hbump : readU32 (zeros 2720) 2644 = 0 := readU32_zeros (by decide)
    have hfit : 2644 + 4 ≤ (zeros 2720).length := by
      rw [length_zeros]
      decide
    have happart : Disjoint (Ico 2680 (2680 + 1)) (Ico 2644 (2644 + 4)) := disjoint_Ico (.inr (by decide))
    have hopen : (tightArena 40).mem = writeU32 (zeros 2720) 2644 2648 := by
      have hword : (tightRegions 40).artBumpOffset = 2644 := by decide
      have hstart : (tightRegions 40).artStart = 2648 := by decide
      rw [tightArena, openIndex, hword, hstart]
      dsimp only
      rw [init, if_pos hbump]
    rw [hopen, (changesOnly_writeU32 hfit 2648).slice happart, slice_zeros (by decide)]
    rfl
  have hapart : Disjoint (Ico 2680 (2680 + 1)) (artRegion (tightRegions 40)) := disjoint_Ico (.inr (by decide))
  have hsame := hch.slice hapart
  rw [hkey, hbefore] at hsame
  exact absurd hsame (by decide)

end Regions

end TakyonDb.Art
