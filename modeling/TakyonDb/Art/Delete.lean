import TakyonDb.Art.Removes

namespace TakyonDb.Art

open Lib Set

variable {s : ArtState} {mem mem' : Bytes} {off pos last : ℕ} {raws : UInt8 → ℕ} {keys : List UInt8}
  {b : UInt8} {kind : SlotKind} {shape : Shape}

/-- What `deleteSlotted` writes into a `Node4` or a `Node16`. -/
def dropEntry (kind : SlotKind) (off pos last : ℕ) (mem : Bytes) : Bytes :=
  let m₁ := setByte mem (off + kind.keysOffset + pos) (byteAt mem (off + kind.keysOffset + last))
  let m₂ := writeU32 m₁ (kind.child off pos) (readU32 m₁ (kind.child off last))
  let m₃ := setByte m₂ (off + kind.keysOffset + last) 0
  let m₄ := writeU32 m₃ (kind.child off last) 0
  setByte m₄ off (UInt8.ofNat last)

/-- The count of a node comes before its keys, and these come before its children. -/
theorem node_layout (kind : SlotKind) {slot : ℕ} (h : slot < kind.capacity) :
    2 ≤ kind.keysOffset ∧ kind.keysOffset + slot < kind.childrenOffset ∧
      kind.childrenOffset + 4 * slot + 4 ≤ kind.size := by
  cases kind <;> simp only [SlotKind.capacity, SlotKind.keysOffset, SlotKind.childrenOffset, SlotKind.size] at h ⊢ <;>
    omega

/-- The last entry has taken the place of the removed one. -/
theorem dropEntry_spec (hfit : off + kind.size ≤ mem.length) (hpos : pos ≤ last) (hlast : last < kind.capacity) :
    ChangesOnly (Ico off (off + kind.size)) mem (dropEntry kind off pos last mem) ∧
      byteAt (dropEntry kind off pos last mem) off = UInt8.ofNat last ∧
      ∀ i < last, byteAt (dropEntry kind off pos last mem) (off + kind.keysOffset + i) =
          byteAt mem (off + kind.keysOffset + if i = pos then last else i) ∧
        readU32 (dropEntry kind off pos last mem) (kind.child off i) =
          readU32 mem (kind.child off (if i = pos then last else i)) := by
  obtain ⟨hkeys, hkids, hsize⟩ := node_layout kind hlast
  have hblock : ∀ a n, off ≤ a → a + n ≤ off + kind.size → Ico a (a + n) ⊆ Ico off (off + kind.size) :=
    fun a n hlo hhi ↦ Ico_subset_Ico hlo hhi
  have hslot : ∀ i, kind.child off i = off + kind.childrenOffset + 4 * i := fun _ ↦ rfl
  have hposWord := hslot pos
  have hlastWord := hslot last
  have hin₁ : off + kind.keysOffset + pos < mem.length := by omega
  have hc₁ := changesOnly_setByte hin₁ (byteAt mem (off + kind.keysOffset + last))
  rw [dropEntry]
  set m₁ := setByte mem (off + kind.keysOffset + pos) (byteAt mem (off + kind.keysOffset + last)) with hm₁
  have hin₂ : kind.child off pos + 4 ≤ m₁.length := by
    rw [hc₁.length_eq, hslot]
    omega
  have hc₂ := changesOnly_writeU32 hin₂ (readU32 m₁ (kind.child off last))
  set m₂ := writeU32 m₁ (kind.child off pos) (readU32 m₁ (kind.child off last)) with hm₂
  have hlen₂ : m₂.length = mem.length := hc₂.length_eq.trans hc₁.length_eq
  have hin₃ : off + kind.keysOffset + last < m₂.length := by omega
  have hc₃ := changesOnly_setByte hin₃ 0
  set m₃ := setByte m₂ (off + kind.keysOffset + last) 0 with hm₃
  have hlen₃ : m₃.length = mem.length := hc₃.length_eq.trans hlen₂
  have hin₄ : kind.child off last + 4 ≤ m₃.length := by
    rw [hlen₃, hslot]
    omega
  have hc₄ := changesOnly_writeU32 hin₄ 0
  set m₄ := writeU32 m₃ (kind.child off last) 0 with hm₄
  have hlen₄ : m₄.length = mem.length := hc₄.length_eq.trans hlen₃
  have hin₅ : off < m₄.length := by omega
  have hc₅ := changesOnly_setByte hin₅ (UInt8.ofNat last)
  refine ⟨?_, byteAt_setByte_self hin₅ _, fun i hi ↦ ⟨?_, ?_⟩⟩
  · refine ((((hc₁.mono (hblock _ 1 ?_ ?_)).trans (hc₂.mono (hblock _ 4 ?_ ?_))).trans (hc₃.mono (hblock _ 1 ?_ ?_))).trans
      (hc₄.mono (hblock _ 4 ?_ ?_))).trans (hc₅.mono (hblock _ 1 ?_ ?_)) <;> omega
  · rw [hc₅.byteAt (by simp only [mem_Ico]; omega), hc₄.byteAt (by simp only [mem_Ico, hslot]; omega),
      hc₃.byteAt (by simp only [mem_Ico]; omega), hc₂.byteAt (by simp only [mem_Ico, hslot]; omega)]
    split_ifs with heq
    · rw [heq, hm₁, byteAt_setByte_self hin₁]
    · rw [hc₁.byteAt (by simp only [mem_Ico]; omega)]
  · rw [hc₅.readU32 (disjoint_Ico (by simp only [hslot]; omega)),
      hc₄.readU32 (disjoint_Ico (by simp only [hslot]; omega)),
      hc₃.readU32 (disjoint_Ico (by simp only [hslot]; omega))]
    have hold : ∀ j, readU32 m₁ (kind.child off j) = readU32 mem (kind.child off j) := fun j ↦
      hc₁.readU32 (disjoint_Ico (by simp only [hslot]; omega))
    split_ifs with heq
    · rw [heq, hm₂, readU32_writeU32_self hin₂ (readU32_lt _ _), hold]
    · rw [hc₂.readU32 (disjoint_Ico (by simp only [hslot]; omega)), hold]

theorem entries_children {kind : SlotKind} (hchild : ∀ i (hi : i < keys.length),
    readU32 mem (kind.child off i) = raws keys[i]) :
    ∀ c ∈ keys, readU32 mem (kind.child off (keys.idxOf c)) = raws c := fun c hc ↦ by
  rw [hchild _ (List.idxOf_lt_length_of_mem hc), List.getElem_idxOf]

theorem getElem_swapRemove' {i : ℕ} (hb : b ∈ keys) (hi : i < (swapRemove keys b).length) :
    ∃ h : (if i = keys.idxOf b then keys.length - 1 else i) < keys.length,
      (swapRemove keys b)[i] = keys[if i = keys.idxOf b then keys.length - 1 else i] := by
  have hlen := length_swapRemove keys b
  obtain ⟨hlt, hlast⟩ := getLastD_eq hb
  have hi' : i < keys.length := by omega
  have hget := getElem_swapRemove hi hi'
  split_ifs at hget ⊢ with hpos
  · exact ⟨hlt, hget.trans hlast⟩
  · exact ⟨hi', hget⟩

/-- A `Node4` or a `Node16` without the entry of the byte. -/
theorem dropEntry_nodeAt (hk : kind ≠ .node48) (hn : NodeAt mem off raws (.slots kind keys))
    (hs : (Shape.slots kind keys).Sound) (hfit : off + kind.size ≤ mem.length) (hb : b ∈ keys) :
    NodeAt (dropEntry kind off (keys.idxOf b) (keys.length - 1) mem) off raws (.slots kind (swapRemove keys b)) := by
  have hidx := List.idxOf_lt_length_of_mem hb
  have hroom := hs.2
  have hlen := length_swapRemove keys b
  have hcap : kind.capacity < 256 := by cases kind <;> decide
  obtain ⟨-, hcount, hentry⟩ := dropEntry_spec hfit (show keys.idxOf b ≤ keys.length - 1 by omega) (by omega)
  have hkeys : ∀ i (hi : i < (swapRemove keys b).length),
      byteAt (dropEntry kind off (keys.idxOf b) (keys.length - 1) mem) (off + kind.keysOffset + i) =
        (swapRemove keys b)[i] := fun i hi ↦ by
    obtain ⟨hlt, hget⟩ := getElem_swapRemove' hb hi
    rw [(hentry i (by omega)).1, hget, (hn.entry hs hlt).2 hk]
  refine ⟨?_, ?_, entries_children fun i hi ↦ ?_⟩
  · rw [hcount, UInt8.toNat_ofNat', Nat.mod_eq_of_lt (by omega), hlen]
  · cases kind with
    | node48 => exact absurd rfl hk
    | node4 => exact hkeys
    | node16 => exact hkeys
  · obtain ⟨hlt, hget⟩ := getElem_swapRemove' hb hi
    rw [(hentry i (by omega)).2, hget, (hn.entry hs hlt).1]

/-- What `deleteSlotted` writes into a `Node48`. -/
def dropIndex (off pos last : ℕ) (b moved : UInt8) (mem : Bytes) : Bytes :=
  let index (c : UInt8) := off + SlotKind.node48.keysOffset + c.toNat
  let m₁ := if pos = last then mem
    else setByte (writeU32 mem (SlotKind.node48.child off pos) (readU32 mem (SlotKind.node48.child off last)))
      (index moved) (UInt8.ofNat (pos + 1))
  setByte (setByte m₁ (index b) 0) off (UInt8.ofNat last)

theorem dropIndex_spec (b moved : UInt8) (hfit : off + SlotKind.node48.size ≤ mem.length) (hpos : pos ≤ last)
    (hlast : last < 48) :
    ChangesOnly (Ico off (off + SlotKind.node48.size)) mem (dropIndex off pos last b moved mem) ∧
      byteAt (dropIndex off pos last b moved mem) off = UInt8.ofNat last ∧
      (∀ c : UInt8, byteAt (dropIndex off pos last b moved mem) (off + SlotKind.node48.keysOffset + c.toNat) =
        if c = b then 0 else if pos ≠ last ∧ c = moved then UInt8.ofNat (pos + 1)
        else byteAt mem (off + SlotKind.node48.keysOffset + c.toNat)) ∧
      ∀ i < last, readU32 (dropIndex off pos last b moved mem) (SlotKind.node48.child off i) =
        readU32 mem (SlotKind.node48.child off (if i = pos then last else i)) := by
  have hslot : ∀ i, SlotKind.node48.child off i = off + 272 + 4 * i := fun _ ↦ rfl
  have hkeys : SlotKind.node48.keysOffset = 16 := rfl
  have hsize : SlotKind.node48.size = 464 := rfl
  have hbyte : ∀ c : UInt8, c.toNat < 256 := fun c ↦ c.toNat_lt
  have hp := hslot pos
  have hl := hslot last
  have hb := hbyte b
  have hm := hbyte moved
  -- The memory once the last child has moved.
  obtain ⟨m₁, hm₁, hc₁, hindex, hchild⟩ : ∃ m₁, dropIndex off pos last b moved mem =
      setByte (setByte m₁ (off + SlotKind.node48.keysOffset + b.toNat) 0) off (UInt8.ofNat last) ∧
      ChangesOnly (Ico (off + 1) (off + SlotKind.node48.size)) mem m₁ ∧
      (∀ c : UInt8, byteAt m₁ (off + SlotKind.node48.keysOffset + c.toNat) =
        if pos ≠ last ∧ c = moved then UInt8.ofNat (pos + 1)
        else byteAt mem (off + SlotKind.node48.keysOffset + c.toNat)) ∧
      ∀ i < last, readU32 m₁ (SlotKind.node48.child off i) =
        readU32 mem (SlotKind.node48.child off (if i = pos then last else i)) := by
    refine ⟨_, rfl, ?_⟩
    by_cases hmove : pos = last
    · rw [if_pos hmove]
      refine ⟨.rfl', fun c ↦ by simp [hmove], fun i hi ↦ ?_⟩
      rw [if_neg (by omega)]
    · rw [if_neg hmove]
      have hin : SlotKind.node48.child off pos + 4 ≤ mem.length := by omega
      have hc := changesOnly_writeU32 hin (readU32 mem (SlotKind.node48.child off last))
      set m := writeU32 mem (SlotKind.node48.child off pos) (readU32 mem (SlotKind.node48.child off last)) with hm'
      have hin' : off + SlotKind.node48.keysOffset + moved.toNat < m.length := by
        rw [hc.length_eq]
        omega
      have hc' := changesOnly_setByte hin' (UInt8.ofNat (pos + 1))
      refine ⟨(hc.mono (Ico_subset_Ico (by omega) (by omega))).trans (hc'.mono (Ico_subset_Ico (by omega) (by omega))),
        fun c ↦ ?_, fun i hi ↦ ?_⟩
      · rcases eq_or_ne c moved with rfl | hne
        · rw [byteAt_setByte_self hin', if_pos ⟨hmove, rfl⟩]
        · have hnat : c.toNat ≠ moved.toNat := fun heq ↦ hne (UInt8.toNat_inj.mp heq)
          have hcb := hbyte c
          rw [if_neg fun hand ↦ hne hand.2, hc'.byteAt (by simp only [mem_Ico]; omega),
            hc.byteAt (by simp only [mem_Ico]; omega)]
      · have hi' := hslot i
        rw [hc'.readU32 (disjoint_Ico (by omega))]
        split_ifs with heq
        · rw [heq, hm', readU32_writeU32_self hin (readU32_lt _ _)]
        · rw [hc.readU32 (disjoint_Ico (by omega))]
  have hin₂ : off + SlotKind.node48.keysOffset + b.toNat < m₁.length := by
    rw [hc₁.length_eq]
    omega
  have hc₂ := changesOnly_setByte hin₂ 0
  set m₂ := setByte m₁ (off + SlotKind.node48.keysOffset + b.toNat) 0 with hm₂
  have hin₃ : off < m₂.length := by
    rw [hc₂.length_eq]
    omega
  have hc₃ := changesOnly_setByte hin₃ (UInt8.ofNat last)
  rw [hm₁]
  refine ⟨?_, byteAt_setByte_self hin₃ _, fun c ↦ ?_, fun i hi ↦ ?_⟩
  · exact ((hc₁.mono (Ico_subset_Ico (by omega) le_rfl)).trans (hc₂.mono (Ico_subset_Ico (by omega) (by omega)))).trans
      (hc₃.mono (Ico_subset_Ico le_rfl (by omega)))
  · rw [hc₃.byteAt (by simp only [mem_Ico]; omega)]
    rcases eq_or_ne c b with rfl | hne
    · rw [hm₂, byteAt_setByte_self hin₂, if_pos rfl]
    · have hnat : c.toNat ≠ b.toNat := fun heq ↦ hne (UInt8.toNat_inj.mp heq)
      rw [if_neg hne, hc₂.byteAt (by simp only [mem_Ico]; omega), hindex]
  · have hi' := hslot i
    rw [hc₃.readU32 (disjoint_Ico (by omega)), hc₂.readU32 (disjoint_Ico (by omega)), hchild i hi]

/-- A `Node48` without the entry of the byte. -/
theorem dropIndex_nodeAt (hn : NodeAt mem off raws (.slots .node48 keys)) (hs : (Shape.slots .node48 keys).Sound)
    (hfit : off + SlotKind.node48.size ≤ mem.length) (hb : b ∈ keys) :
    NodeAt (dropIndex off (keys.idxOf b) (keys.length - 1) b (keys.getLastD b) mem) off raws
      (.slots .node48 (swapRemove keys b)) := by
  have hidx := List.idxOf_lt_length_of_mem hb
  have hroom : keys.length ≤ 48 := hs.2
  have hlen := length_swapRemove keys b
  have hlast := idxOf_getLastD hs.1 hb
  obtain ⟨-, hcount, hindex, hchild⟩ := dropIndex_spec b (keys.getLastD b) hfit
    (show keys.idxOf b ≤ keys.length - 1 by omega) (by omega)
  refine ⟨?_, fun c ↦ ?_, entries_children fun i hi ↦ ?_⟩
  · rw [hcount, UInt8.toNat_ofNat', Nat.mod_eq_of_lt (by omega), hlen]
  · rw [hindex]
    rcases eq_or_ne c b with rfl | hne
    · rw [if_pos rfl, if_neg fun hmem ↦ ((mem_swapRemove hs.1 hb).mp hmem).2 rfl]
      rfl
    · rw [if_neg hne]
      by_cases hc : c ∈ keys
      · rw [if_pos ((mem_swapRemove hs.1 hb).mpr ⟨hc, hne⟩), idxOf_swapRemove hs.1 hb hc hne]
        have hold := hn.2.1 c
        rw [if_pos hc] at hold
        by_cases hcl : c = keys.getLastD b
        · have hmove : keys.idxOf b ≠ keys.length - 1 :=
            fun heq ↦ hne ((List.idxOf_inj hc).mp (by rw [heq, ← hlast, hcl]))
          rw [if_pos ⟨hmove, hcl⟩, if_pos hcl, UInt8.toNat_ofNat', Nat.mod_eq_of_lt (by omega)]
        · rw [if_neg fun hand ↦ hcl hand.2, if_neg hcl, hold]
      · have hcl : c ≠ keys.getLastD b := fun heq ↦ hc (heq ▸ getLastD_mem hb)
        rw [if_neg fun hmem ↦ hc ((mem_swapRemove hs.1 hb).mp hmem).1, if_neg fun hand ↦ hcl hand.2]
        have hold := hn.2.1 c
        rwa [if_neg hc] at hold
  · obtain ⟨hlt, hget⟩ := getElem_swapRemove' hb hi
    rw [hchild i (by omega), hget, (hn.entry hs hlt).1]

/-- The search for the byte that holds the last slot. -/
theorem find?_index {mem' : Bytes} (hn : NodeAt mem off raws (.slots .node48 keys))
    (hs : (Shape.slots .node48 keys).Sound) (hb : b ∈ keys)
    (hsame : ∀ c : UInt8, byteAt mem' (off + SlotKind.node48.keysOffset + c.toNat) =
      byteAt mem (off + SlotKind.node48.keysOffset + c.toNat)) :
    ((List.range 256).find? fun c ↦ (byteAt mem' (off + SlotKind.node48.keysOffset + c)).toNat == keys.length - 1 + 1) =
      some (keys.getLastD b).toNat := by
  have hmem := getLastD_mem hb
  have hlast := idxOf_getLastD hs.1 hb
  rw [List.find?_range_eq_some]
  refine ⟨?_, List.mem_range.mpr (keys.getLastD b).toNat_lt, fun j hj ↦ ?_⟩
  · rw [hsame, hn.2.1, if_pos hmem, hlast]
    exact beq_self_eq_true _
  · have hlt := (keys.getLastD b).toNat_lt
    have hnat : (UInt8.ofNat j).toNat = j := by
      rw [UInt8.toNat_ofNat', Nat.mod_eq_of_lt (by omega)]
    have hindex := hn.2.1 (UInt8.ofNat j)
    rw [← hsame, hnat] at hindex
    rw [hindex, Bool.not_eq_true']
    refine beq_false_of_ne ?_
    split_ifs with hj'
    · intro heq
      have hidx : keys.idxOf (UInt8.ofNat j) = keys.idxOf (keys.getLastD b) := by omega
      have := (List.idxOf_inj hj').mp hidx
      rw [← this, hnat] at hj
      exact lt_irrefl j hj
    · exact (Nat.succ_ne_zero _).symm

/-- The entry of the byte leaves a node that numbers its children. -/
theorem run_deleteSlotted (hn : NodeAt s.mem off raws (.slots kind keys)) (hs : (Shape.slots kind keys).Sound)
    (hfit : off + kind.size ≤ s.mem.length) (hal : off % 8 = 0) (hb : b ∈ keys) :
    ∃ mem, deleteSlotted kind off b s = .ok () { s with mem } ∧
      ChangesOnly (Ico off (off + kind.size)) s.mem mem ∧ NodeAt mem off raws (.slots kind (swapRemove keys b)) := by
  have hidx := List.idxOf_lt_length_of_mem hb
  have hroom := hs.2
  have hfind : findSlot kind off b s = .ok (some (keys.idxOf b)) s := by rw [run_findSlot hn hs, if_pos hb]
  have hpos : ¬ keys.length = 0 := by omega
  have hslot : ∀ {s : ArtState} {i : ℕ}, i < keys.length → childSlot kind off i s = .ok (kind.child off i) s :=
    fun hi ↦ run_childSlot (by omega)
  have hlast : keys.length - 1 < keys.length := by omega
  rw [deleteSlotted, bind_ok (run_nodeAt hfit hal), bind_ok hfind]
  dsimp only
  rw [bind_ok (run_loadByte _ _), hn.1]
  simp only [if_neg hpos]
  have hrest : ∀ kind' ≠ SlotKind.node48, kind = kind' → ∃ mem, (do
      storeByte (off + kind.keysOffset + keys.idxOf b) (← loadByte (off + kind.keysOffset + (keys.length - 1)))
      store (← childSlot kind off (keys.idxOf b)) (← load (← childSlot kind off (keys.length - 1)))
      storeByte (off + kind.keysOffset + (keys.length - 1)) 0
      store (kind.child off (keys.length - 1)) 0
      storeByte off (keys.length - 1) : ArtM Unit) s = .ok () { s with mem } ∧
      ChangesOnly (Ico off (off + kind.size)) s.mem mem ∧
      NodeAt mem off raws (.slots kind (swapRemove keys b)) := by
    rintro kind' hne rfl
    refine ⟨_, ?_, (dropEntry_spec hfit (show keys.idxOf b ≤ keys.length - 1 by omega) (by omega)).1,
      dropEntry_nodeAt hne hn hs hfit hb⟩
    rw [bind_ok (run_loadByte _ _), bind_ok (run_storeByte _ _ _), bind_ok (hslot hidx), bind_ok (hslot hlast),
      bind_ok (run_load _ _), bind_ok (run_store _ _ _), bind_ok (run_storeByte _ _ _), bind_ok (run_store _ _ _),
      run_storeByte, UInt8.ofNat_toNat]
    rfl
  cases kind with
  | node4 => exact hrest .node4 (by simp) rfl
  | node16 => exact hrest .node16 (by simp) rfl
  | node48 =>
    refine ⟨_, ?_, (dropIndex_spec b (keys.getLastD b) hfit (show keys.idxOf b ≤ keys.length - 1 by omega)
      (hlast.trans_le hroom)).1, dropIndex_nodeAt hn hs hfit hb⟩
    rw [dropIndex]
    dsimp only
    by_cases hmove : keys.idxOf b = keys.length - 1
    · simp only [hmove, ne_eq, not_true_eq_false, if_false, if_true]
      rw [bind_ok (run_storeByte _ _ _), run_storeByte]
      rfl
    · simp only [ne_eq, hmove, not_false_eq_true, if_true, if_false]
      have hin : SlotKind.node48.child off (keys.idxOf b) + 4 ≤ s.mem.length :=
        (SlotKind.child_le off (hidx.trans_le hroom)).trans hfit
      have hch := changesOnly_writeU32 hin (readU32 s.mem (SlotKind.node48.child off (keys.length - 1)))
      have hmoved := find?_index hn hs hb fun c ↦ hch.byteAt (i := off + SlotKind.node48.keysOffset + c.toNat) (by
        have := c.toNat_lt
        simp only [mem_Ico, SlotKind.keysOffset, SlotKind.child, SlotKind.childrenOffset]
        omega)
      rw [bind_ok (hslot hidx), bind_ok (hslot hlast), bind_ok (run_load _ _), bind_ok (run_store _ _ _)]
      simp only [bind, EStateM.bind, get, getThe, MonadStateOf.get, run_get, hmoved]
      rfl

theorem NodeAt.congr {raws' : UInt8 → ℕ} (hn : NodeAt mem off raws shape)
    (hsame : ∀ c, shape.Has c → raws' c = raws c) :
    NodeAt mem off raws' shape := by
  cases shape with
  | slots kind keys => exact ⟨hn.1, hn.2.1, fun c hc ↦ (hn.2.2 c hc).trans (hsame c hc).symm⟩
  | direct count => exact ⟨hn.1, fun c ↦ (hn.2 c).trans (hsame c trivial).symm⟩

/-- The entry of the byte leaves the node. -/
theorem run_deleteChild (hn : NodeAt s.mem off raws shape) (hs : shape.Sound) (hfit : off + shape.size ≤ s.mem.length)
    (hal : off % 8 = 0) (hb : shape.Has b) :
    ∃ mem, deleteChild shape.type off b s = .ok () { s with mem } ∧
      ChangesOnly (Ico off (off + shape.size)) s.mem mem ∧
      NodeAt mem off (Function.update raws b 0) (shape.drop b) := by
  cases shape with
  | slots kind keys =>
    obtain ⟨mem, hrun, hch, hnode⟩ := run_deleteSlotted hn hs hfit hal hb
    refine ⟨mem, ?_, hch, hnode.congr fun c hc ↦ ?_⟩
    · rw [← hrun]
      cases kind <;> rfl
    · rw [Function.update_of_ne ((mem_swapRemove hs.1 hb).mp hc).2]
  | direct count =>
    have hfit' : off + node256Size ≤ s.mem.length := hfit
    have hchild := child256_le off b
    have hin : child256 off b + 4 ≤ s.mem.length := hchild.trans hfit'
    have hch := changesOnly_writeU32 hin 0
    have hread : readU16 (writeU32 s.mem (child256 off b) 0) off = count := by
      rw [hch.readU16 (disjoint_Ico (by simp only [child256]; omega)), hn.1]
    have hlt : count < 2 ^ 16 := hs
    have hwords : ∀ (m : Bytes), (∀ c, readU32 m (child256 off c) =
        readU32 (writeU32 s.mem (child256 off b) 0) (child256 off c)) →
        ∀ c, readU32 m (child256 off c) = Function.update raws b 0 c := fun m hsame c ↦ by
      rw [hsame]
      rcases eq_or_ne c b with rfl | hne
      · rw [Function.update_self, readU32_writeU32_self hin (by decide)]
      · rw [Function.update_of_ne hne, hch.readU32 (disjoint_Ico (child256_apart hne off)), hn.2 c]
    have hsub : Ico (child256 off b) (child256 off b + 4) ⊆ Ico off (off + node256Size) :=
      Ico_subset_Ico (by simp only [child256]; omega) hchild
    rw [show (Shape.direct count).type = .node256 from rfl, deleteChild, delete256, bind_ok (run_nodeAt hfit' hal),
      bind_ok (run_store _ _ _), bind_ok (run_loadU16 _ _), hread]
    by_cases hpos : 0 < count
    · have hin₂ : off + 2 ≤ (writeU32 s.mem (child256 off b) 0).length := by
        rw [hch.length_eq]
        simp only [child256] at hin
        omega
      have hch₂ := changesOnly_writeU16 hin₂ (count - 1)
      simp only [if_pos hpos]
      refine ⟨_, rfl, (hch.mono hsub).trans (hch₂.mono (Ico_subset_Ico le_rfl (Nat.add_le_add_left (by decide) off))),
        readU16_writeU16_self hin₂ (by omega), hwords _ fun c ↦ hch₂.readU32 (disjoint_Ico ?_)⟩
      simp only [child256]
      omega
    · simp only [if_neg hpos]
      refine ⟨_, rfl, hch.mono hsub, ?_, hwords _ fun _ ↦ rfl⟩
      rw [hread]
      omega

end TakyonDb.Art
