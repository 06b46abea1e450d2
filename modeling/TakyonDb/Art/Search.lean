import TakyonDb.Art.Stored

namespace TakyonDb.Art

open Lib Set

variable {s : ArtState} {mem : Bytes} {off : ℕ} {raws : UInt8 → ℕ} {keys : List UInt8} {b : UInt8}

theorem find?_keys {f : ℕ → UInt8} (hnodup : keys.Nodup) (hf : ∀ i (h : i < keys.length), f i = keys[i])
    {n : ℕ} (hn : keys.length ≤ n) :
    ((List.range n).find? fun i ↦ f i == b).filter (· < keys.length) =
      if b ∈ keys then some (keys.idxOf b) else none := by
  split_ifs with hb
  · have hidx := List.idxOf_lt_length_of_mem hb
    have hfind : ((List.range n).find? fun i ↦ f i == b) = some (keys.idxOf b) := by
      rw [List.find?_range_eq_some]
      refine ⟨?_, List.mem_range.mpr (hidx.trans_le hn), fun j hj ↦ ?_⟩
      · rw [hf _ hidx, List.getElem_idxOf]
        exact beq_self_eq_true b
      · have hjlt : j < keys.length := hj.trans hidx
        have hne : keys[j] ≠ b := by
          rintro rfl
          rw [hnodup.idxOf_getElem j hjlt] at hj
          exact lt_irrefl j hj
        rw [hf j hjlt, Bool.not_eq_true']
        exact beq_false_of_ne hne
    rw [hfind]
    simp [hidx]
  · rw [Option.filter_eq_none_iff]
    intro i hi hlt
    have hlt : i < keys.length := of_decide_eq_true hlt
    have hmatch := List.find?_some hi
    rw [hf i hlt] at hmatch
    exact hb (eq_of_beq hmatch ▸ List.getElem_mem hlt)

theorem find?_keys_self {f : ℕ → UInt8} (hnodup : keys.Nodup)
    (hf : ∀ i (h : i < keys.length), f i = keys[i]) :
    ((List.range keys.length).find? fun i ↦ f i == b) =
      if b ∈ keys then some (keys.idxOf b) else none := by
  rw [← find?_keys hnodup hf le_rfl]
  cases hfind : (List.range keys.length).find? fun i ↦ f i == b with
  | none => rfl
  | some i =>
    have hlt := List.mem_range.mp (List.mem_of_find?_eq_some hfind)
    rw [Option.filter_some, if_pos (decide_eq_true hlt)]

theorem run_findSlot {kind : SlotKind} (h : NodeAt s.mem off raws (.slots kind keys))
    (hs : (Shape.slots kind keys).Sound) :
    findSlot kind off b s = .ok (if b ∈ keys then some (keys.idxOf b) else none) s := by
  obtain ⟨hcount, hkeys, -⟩ := h
  obtain ⟨hnodup, hroom⟩ := hs
  cases kind with
  | node4 =>
    have hfind := find?_keys_self (b := b) hnodup hkeys
    have hmin : min (byteAt s.mem off).toNat 4 = keys.length := by
      rw [hcount]
      exact min_eq_left hroom
    have hle : ¬ 4 < (byteAt s.mem off).toNat := by
      rw [hcount]
      exact not_lt.mpr hroom
    simp only [findSlot, loadByte, bind, EStateM.bind, get, getThe, MonadStateOf.get, run_get, pure,
      EStateM.pure, hmin, hfind]
    split_ifs <;> rfl
  | node16 =>
    have hfind := find?_keys (b := b) hnodup hkeys hroom
    simp only [findSlot, loadByte, bind, EStateM.bind, get, getThe, MonadStateOf.get, run_get, pure,
      EStateM.pure, hcount]
    exact congrArg (EStateM.Result.ok · s) hfind
  | node48 =>
    simp only [findSlot, loadByte, bind, EStateM.bind, get, getThe, MonadStateOf.get, run_get, pure,
      EStateM.pure, hkeys b]
    split_ifs with hb
    · simp_all
    · simp_all
    · rfl
    · simp_all

theorem searchChild_eq {shape : Shape} (h : NodeAt mem off raws shape) (hs : shape.Sound)
    (hfit : off + shape.size ≤ mem.length) :
    searchChild mem shape.type off b = if shape.Has b then some (raws b) else none := by
  cases shape with
  | slots kind keys =>
    obtain ⟨hcount, hkeys, hchild⟩ := h
    obtain ⟨hnodup, hroom⟩ := hs
    have hchild' : ∀ o : Option ℕ, o = (if b ∈ keys then some (keys.idxOf b) else none) →
        (o.map fun pos ↦ readU32 mem (kind.child off pos)) = if b ∈ keys then some (raws b) else none := by
      rintro _ rfl
      split_ifs with hb
      · exact congrArg some (hchild b hb)
      · rfl
    cases kind with
    | node4 =>
      have hin : ¬ (mem.length < off + SlotKind.node4.size ∨ 4 < keys.length) :=
        not_or.mpr ⟨not_lt.mpr hfit, not_lt.mpr hroom⟩
      simp only [searchChild, Shape.type, SlotKind.type, hcount, if_neg hin]
      exact hchild' _ (find?_keys_self hnodup hkeys)
    | node16 =>
      have hin : ¬ (mem.length < off + SlotKind.node16.size ∨ 16 < keys.length) :=
        not_or.mpr ⟨not_lt.mpr hfit, not_lt.mpr hroom⟩
      simp only [searchChild, Shape.type, SlotKind.type, hcount, if_neg hin]
      exact hchild' _ (find?_keys hnodup hkeys hroom)
    | node48 =>
      have hfit' : ¬ mem.length < off + SlotKind.node48.size := not_lt.mpr hfit
      have hroom' : ¬ 48 < keys.length := not_lt.mpr hroom
      simp only [searchChild, Shape.type, SlotKind.type, hcount, hkeys b]
      by_cases hb : b ∈ keys
      · have hhas : (Shape.slots .node48 keys).Has b := hb
        have hidx := List.idxOf_lt_length_of_mem hb
        rw [if_pos hhas, if_pos hb, if_neg (by omega), Nat.add_sub_cancel]
        exact congrArg some (hchild b hb)
      · have hhas : ¬ (Shape.slots .node48 keys).Has b := hb
        rw [if_neg hhas, if_neg hb, if_pos (by omega)]
  | direct count =>
    have hin : ¬ mem.length < off + node256Size := not_lt.mpr hfit
    have hhas : (Shape.direct count).Has b := trivial
    rw [if_pos hhas]
    simp only [searchChild, Shape.type, if_neg hin, h.2 b]

theorem Tree.Laid.leaf_fits {limit : ℕ} {k : Bytes} {value : UInt32} (h : (Tree.leaf off k value).Laid limit) :
    off + leafHeader + k.length ≤ limit := by
  have hsize := Heap.le_alignSize (leafHeader + k.length)
  have hfit := h.2
  omega

theorem searchLeaf_eq {key k : Bytes} {value : UInt32} (h : Stored mem (.leaf off k value))
    (hl : (Tree.leaf off k value).Laid mem.length) :
    searchLeaf mem off key = if k = key then some value else none := by
  obtain ⟨hlen, hvalue, hkey⟩ := h
  have hfit := hl.leaf_fits
  have hheader : leafHeader = 8 := rfl
  rw [searchLeaf, if_neg (by omega), hlen, hvalue]
  by_cases hk : k = key
  · subst hk
    rw [if_neg (by simp), if_neg (by omega), if_pos hkey, if_pos rfl, UInt32.ofNat_toNat]
  · rw [if_neg hk]
    split_ifs with h₁ h₂ h₃
    · rfl
    · rfl
    · rw [not_not.mp h₁] at hkey
      exact absurd (hkey.symm.trans h₃) hk
    · rfl

theorem raw_ne_zero {tree : Tree} {limit : ℕ} (h : tree.Laid limit) (hne : tree ≠ .nil) : tree.raw ≠ 0 := by
  cases tree with
  | nil => exact absurd rfl hne
  | leaf off key value =>
    simp only [Tree.raw, NodeType.tag]
    omega
  | inner off shape kids =>
    have := h.2.1
    simp only [Tree.raw]
    omega

theorem raw_zero {tree : Tree} {limit : ℕ} (h : tree.Laid limit) : tree.raw = 0 ↔ tree = .nil :=
  ⟨fun hraw ↦ by_contra fun hne ↦ raw_ne_zero h hne hraw, fun hnil ↦ hnil ▸ rfl⟩

/-- What the search does with the child word that it found. -/
def searchOn (next : ℕ → Except Stop (Option UInt32)) : Option ℕ → Except Stop (Option UInt32)
  | none | some 0 => .ok none
  | some child => next child

theorem searchOn_child {next : ℕ → Except Stop (Option UInt32)} {raw : ℕ} (h : raw ≠ 0) :
    searchOn next (some raw) = next raw := by
  cases raw with
  | zero => exact absurd rfl h
  | succ n => rfl

/-- The search of the code is the lookup in the tree that the memory holds. -/
theorem searchLoop_eq {key : Bytes} : ∀ {tree : Tree} {path : Bytes} {fuel : ℕ}, Stored mem tree →
    tree.WF path → tree.Laid mem.length → tree ≠ .nil → maxDepth < fuel + path.length →
    searchLoop mem key fuel tree.raw path.length = .ok (tree.lookup key path.length)
  | .nil, _, _, _, _, _, hne, _ => absurd rfl hne
  | .leaf off k value, path, fuel, hst, ⟨⟨_, hlen, _⟩, hpath⟩, hlaid, _, hfuel => by
    have hdepth := hpath.length_le
    have hmax : maxDepth = maxKeyLen + 1 := rfl
    rw [List.length_append, List.length_singleton] at hdepth
    obtain ⟨fuel, rfl⟩ : ∃ f, fuel = f + 1 := ⟨fuel - 1, by omega⟩
    have hin : ¬ mem.length ≤ off := by
      have := hlaid.leaf_fits
      have hheader : leafHeader = 8 := rfl
      omega
    simp only [searchLoop, Tree.raw, getOffset_tag hlaid.1, getType_tag hlaid.1, if_neg hin,
      searchLeaf_eq hst hlaid, Tree.lookup]
  | .inner off shape kids, path, fuel, ⟨hnode, hkids⟩, ⟨hlt, _, hs, habsent, hwf⟩,
      ⟨hal, _, hfit, _, _, hlaid⟩, _, hfuel => by
    have hmax : maxDepth = maxKeyLen + 1 := rfl
    obtain ⟨fuel, rfl⟩ : ∃ f, fuel = f + 1 := ⟨fuel - 1, by omega⟩
    have hsize := shape.size_pos
    have hin : ¬ mem.length ≤ off := by omega
    have hchild := searchChild_eq (b := slotByte key path.length) hnode hs hfit
    set b := slotByte key path.length with hb
    have hgo : searchLoop mem key (fuel + 1) (Tree.inner off shape kids).raw path.length =
        searchOn (fun child ↦ searchLoop mem key fuel child (path.length + 1)) (searchChild mem shape.type off b) := by
      simp only [searchLoop, Tree.raw, getOffset_tag hal, getType_tag hal, if_neg hin]
      cases shape with
      | slots kind keys => cases kind <;> rfl
      | direct count => rfl
    rw [hgo, hchild, Tree.lookup, ← hb]
    by_cases hnil : kids b = .nil
    · rw [hnil]
      split_ifs <;> rfl
    · have hhas : shape.Has b := by_contra fun hnot ↦ hnil (habsent b hnot)
      have hraw := raw_ne_zero (hlaid b) hnil
      have ih : searchLoop mem key fuel (kids b).raw (path ++ [b]).length = .ok _ :=
        searchLoop_eq (hkids b) (hwf b) (hlaid b) hnil (by rw [List.length_append, List.length_singleton]; omega)
      rw [List.length_append, List.length_singleton] at ih
      rw [if_pos hhas, searchOn_child hraw, ih]

end TakyonDb.Art
