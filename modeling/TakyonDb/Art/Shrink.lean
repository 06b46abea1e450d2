import TakyonDb.Art.Delete

namespace TakyonDb.Art

open Lib Set Heap Art.Tree

variable {ix : ArtIndex} {limit off dst n : ℕ} {s s' s₀ : ArtState} {h h' : Heap} {raws : UInt8 → ℕ}
  {keys : List UInt8} {b : UInt8} {kind : SlotKind} {shape : Shape} {kids : UInt8 → Tree}

/-- The bytes below `n` whose child word is set. -/
def occupied (raws : UInt8 → ℕ) (n : ℕ) : List UInt8 := (bytesBelow n).filter fun b ↦ raws b ≠ 0

theorem occupied_succ (raws : UInt8 → ℕ) (b : UInt8) :
    occupied raws (b.toNat + 1) = occupied raws b.toNat ++ if raws b = 0 then [] else [b] := by
  rw [occupied, bytesBelow_succ, List.filter_append, UInt8.ofNat_toNat]
  split_ifs with hb <;> simp [occupied, hb]

theorem not_mem_occupied (b : UInt8) : b ∉ occupied raws b.toNat := by
  have hb := b.toNat_lt
  rw [occupied, List.mem_filter, mem_bytesBelow hb.le]
  exact fun hmem ↦ lt_irrefl _ hmem.1

theorem length_occupied_le (raws : UInt8 → ℕ) {m : ℕ}
    (hle : m ≤ n) : (occupied raws m).length ≤ (occupied raws n).length := by
  induction hle with
  | refl => exact le_rfl
  | step _ ih =>
    refine ih.trans ?_
    rw [occupied, occupied, Nat.succ_eq_add_one, bytesBelow_succ, List.filter_append, List.length_append]
    exact Nat.le_add_right _ _

/-- The smaller node of `shrink48to16` and `shrink256to48`, or the reason that there is none. -/
def Gathers (dst : ℕ) (raws : UInt8 → ℕ) (kind : SlotKind) (f : ℕ → ℕ → ArtM ℕ) (s₀ : ArtState) : Prop :=
  (∃ s', loop f 256 0 s₀ = .ok (occupied raws 256).length s' ∧ Filled s₀ s' dst raws kind (occupied raws 256) ∧
    (occupied raws 256).length ≤ kind.capacity) ∨
  ∃ e s', loop f 256 0 s₀ = .error (.error e) s' ∧ s'.free = s₀.free ∧
    ChangesOnly (Ico dst (dst + kind.size)) s₀.mem s'.mem ∧ kind.capacity < (occupied raws 256).length

/-- A loop over all bytes that gathers the occupied ones in the slots of a new node. -/
theorem gather_loop {f : ℕ → ℕ → ArtM ℕ} (hfit : dst + kind.size ≤ s₀.mem.length)
    (hzero : ∀ a ∈ Ico dst (dst + kind.size), byteAt s₀.mem a = 0) (hlt : ∀ b, raws b < 2 ^ 32)
    (hfree : ∀ (b : UInt8) n s, ChangesOnly (Ico dst (dst + kind.size)) s₀.mem s.mem → raws b = 0 →
      f b.toNat n s = .ok n s)
    (hfull : ∀ (b : UInt8) n s, ChangesOnly (Ico dst (dst + kind.size)) s₀.mem s.mem → raws b ≠ 0 →
      kind.capacity ≤ n → ∃ e, f b.toNat n s = .error (.error e) s)
    (hput : ∀ (b : UInt8) n s, ChangesOnly (Ico dst (dst + kind.size)) s₀.mem s.mem → raws b ≠ 0 →
      n < kind.capacity → f b.toNat n s = .ok (n + 1) { s with mem := putEntry kind dst n b (raws b) s.mem }) :
    Gathers dst raws kind f s₀ := by
  have hstep : ∀ i < 256, ∀ n s, (n = (occupied raws i).length ∧ n ≤ kind.capacity ∧
      Filled s₀ s dst raws kind (occupied raws i)) →
      (∃ n' s', f i n s = .ok n' s' ∧ n' = (occupied raws (i + 1)).length ∧ n' ≤ kind.capacity ∧
        Filled s₀ s' dst raws kind (occupied raws (i + 1))) ∨
      ∃ e s', f i n s = .error (.error e) s' ∧ s'.free = s₀.free ∧
        ChangesOnly (Ico dst (dst + kind.size)) s₀.mem s'.mem ∧ kind.capacity < (occupied raws 256).length := by
    rintro i hi n s ⟨rfl, hroom, hf⟩
    obtain ⟨b, rfl⟩ : ∃ b : UInt8, b.toNat = i :=
      ⟨UInt8.ofNat i, by rw [UInt8.toNat_ofNat', Nat.mod_eq_of_lt (by omega)]⟩
    have hnext := occupied_succ raws b
    by_cases hb : raws b = 0
    · rw [if_pos hb, List.append_nil] at hnext
      exact .inl ⟨_, s, hfree b _ s hf.changes hb, by rw [hnext], hroom, by rwa [hnext]⟩
    · rw [if_neg hb] at hnext
      have hlen : (occupied raws (b.toNat + 1)).length = (occupied raws b.toNat).length + 1 := by
        rw [hnext, List.length_append, List.length_singleton]
      by_cases hslot : (occupied raws b.toNat).length < kind.capacity
      · refine .inl ⟨_, _, hput b _ s hf.changes hb hslot, hlen.symm, hslot, ?_⟩
        rw [hnext]
        exact hf.put hfit hslot (not_mem_occupied b) (hlt b)
      · obtain ⟨e, hrun⟩ := hfull b _ s hf.changes hb (not_lt.mp hslot)
        have htotal := length_occupied_le raws (Nat.succ_le_of_lt hi)
        exact .inr ⟨e, s, hrun, hf.free, hf.changes, by rw [Nat.succ_eq_add_one, hlen] at htotal; omega⟩
  rcases run_loop (s := s₀) (n := 256) (f := f) (a := 0)
    (fun i n s ↦ n = (occupied raws i).length ∧ n ≤ kind.capacity ∧ Filled s₀ s dst raws kind (occupied raws i))
    (fun s' ↦ s'.free = s₀.free ∧ ChangesOnly (Ico dst (dst + kind.size)) s₀.mem s'.mem ∧
      kind.capacity < (occupied raws 256).length)
    ⟨rfl, Nat.zero_le _, rfl, .rfl', entries_zero hzero raws⟩ hstep with ⟨n, s', hrun, rfl, hroom, hf⟩ | hfail
  · exact .inl ⟨s', hrun, hf, hroom⟩
  · exact .inr hfail

theorem shrink48_loop (hn : NodeAt s₀.mem off raws (.slots .node48 keys)) (hs : (Shape.slots .node48 keys).Sound)
    (habsent : ∀ b ∉ keys, raws b = 0) (hfit : dst + SlotKind.node16.size ≤ s₀.mem.length)
    (hd : Disjoint (Ico off (off + SlotKind.node48.size)) (Ico dst (dst + SlotKind.node16.size)))
    (hzero : ∀ a ∈ Ico dst (dst + SlotKind.node16.size), byteAt s₀.mem a = 0) :
    Gathers dst raws .node16 (fun b n ↦ do
      let s ← loadByte (off + SlotKind.node48.keysOffset + b)
      if s = 0 then return n
      if 48 < s then fail .unsupportedNodeType
      let child ← load (SlotKind.node48.child off (s - 1))
      if child = 0 then return n
      if 16 ≤ n then fail .unsupportedNodeType
      storeByte (dst + SlotKind.node16.keysOffset + n) b
      store (SlotKind.node16.child dst n) child
      return n + 1) s₀ := by
  have hlt : ∀ b, raws b < 2 ^ 32 := fun b ↦ by
    by_cases hb : b ∈ keys
    · exact hn.raws_lt hb
    · rw [habsent b hb]
      decide
  have hnode : ∀ s : ArtState, ChangesOnly (Ico dst (dst + SlotKind.node16.size)) s₀.mem s.mem →
      NodeAt s.mem off raws (.slots .node48 keys) := fun s hch ↦ hn.frame hs hch hd
  have hslot : ∀ b ∈ keys, keys.idxOf b + 1 ≠ 0 ∧ ¬ 48 < keys.idxOf b + 1 := fun b hb ↦
    ⟨Nat.succ_ne_zero _, not_lt.mpr ((List.idxOf_lt_length_of_mem hb).trans_le hs.2)⟩
  refine gather_loop hfit hzero hlt (fun b n s hch hfree ↦ ?_) (fun b n s hch hb hfull ↦ ?_) fun b n s hch hb hroom ↦ ?_
  · have hn' := hnode s hch
    rw [bind_ok (run_loadByte _ _), hn'.2.1 b]
    by_cases hb : b ∈ keys
    · simp only [if_pos hb, if_neg (hslot b hb).1, if_neg (hslot b hb).2, Nat.add_sub_cancel]
      rw [bind_ok (run_load _ _), hn'.2.2 b hb, hfree]
      rfl
    · simp only [if_neg hb]
      rfl
  · have hn' := hnode s hch
    have hmem : b ∈ keys := by_contra fun hnot ↦ hb (habsent b hnot)
    have hfull' : 16 ≤ n := hfull
    refine ⟨.unsupportedNodeType, ?_⟩
    rw [bind_ok (run_loadByte _ _), hn'.2.1 b]
    simp only [if_pos hmem, if_neg (hslot b hmem).1, if_neg (hslot b hmem).2, Nat.add_sub_cancel]
    rw [bind_ok (run_load _ _), hn'.2.2 b hmem]
    simp only [if_neg hb, if_pos hfull']
    rfl
  · have hn' := hnode s hch
    have hmem : b ∈ keys := by_contra fun hnot ↦ hb (habsent b hnot)
    have hroom' : ¬ 16 ≤ n := not_le.mpr hroom
    rw [bind_ok (run_loadByte _ _), hn'.2.1 b]
    simp only [if_pos hmem, if_neg (hslot b hmem).1, if_neg (hslot b hmem).2, Nat.add_sub_cancel]
    rw [bind_ok (run_load _ _), hn'.2.2 b hmem]
    simp only [if_neg hb, if_neg hroom']
    rw [bind_ok (run_storeByte _ _ _), bind_ok (run_store _ _ _), UInt8.ofNat_toNat]
    rfl

theorem shrink256_loop {count : ℕ} (hn : NodeAt s₀.mem off raws (.direct count))
    (hs : (Shape.direct count).Sound) (hfit : dst + SlotKind.node48.size ≤ s₀.mem.length)
    (hd : Disjoint (Ico off (off + node256Size)) (Ico dst (dst + SlotKind.node48.size)))
    (hzero : ∀ a ∈ Ico dst (dst + SlotKind.node48.size), byteAt s₀.mem a = 0) :
    Gathers dst raws .node48 (fun b slot ↦ do
      let child ← load (child256 off (UInt8.ofNat b))
      if child = 0 then return slot
      if 48 ≤ slot then fail .unsupportedNodeType
      storeByte (dst + SlotKind.node48.keysOffset + b) (slot + 1)
      store (SlotKind.node48.child dst slot) child
      return slot + 1) s₀ := by
  have hlt : ∀ b, raws b < 2 ^ 32 := fun b ↦ hn.2 b ▸ readU32_lt _ _
  have hnode : ∀ s : ArtState, ChangesOnly (Ico dst (dst + SlotKind.node48.size)) s₀.mem s.mem →
      NodeAt s.mem off raws (.direct count) := fun s hch ↦ hn.frame hs hch hd
  refine gather_loop hfit hzero hlt (fun b n s hch hfree ↦ ?_) (fun b n s hch hb hfull ↦ ?_) fun b n s hch hb hroom ↦ ?_
  · have hn' := hnode s hch
    rw [UInt8.ofNat_toNat, bind_ok (run_load _ _), hn'.2 b, hfree]
    rfl
  · have hn' := hnode s hch
    have hfull' : 48 ≤ n := hfull
    refine ⟨.unsupportedNodeType, ?_⟩
    rw [UInt8.ofNat_toNat, bind_ok (run_load _ _), hn'.2 b]
    simp only [if_neg hb, if_pos hfull']
    rfl
  · have hn' := hnode s hch
    have hroom' : ¬ 48 ≤ n := not_le.mpr hroom
    rw [UInt8.ofNat_toNat, bind_ok (run_load _ _), hn'.2 b]
    simp only [if_neg hb, if_neg hroom']
    rw [bind_ok (run_storeByte _ _ _), bind_ok (run_store _ _ _)]
    rfl

theorem shrink16_loop (hn : NodeAt s₀.mem off raws (.slots .node16 keys)) (hs : (Shape.slots .node16 keys).Sound)
    (hroom : keys.length ≤ 4) (hfit : dst + SlotKind.node4.size ≤ s₀.mem.length)
    (hd : Disjoint (Ico off (off + SlotKind.node16.size)) (Ico dst (dst + SlotKind.node4.size)))
    (hzero : ∀ a ∈ Ico dst (dst + SlotKind.node4.size), byteAt s₀.mem a = 0) :
    ∃ s₂, loop (fun i _ ↦ do
      storeByte (dst + SlotKind.node4.keysOffset + i) (← loadByte (off + SlotKind.node16.keysOffset + i))
      store (SlotKind.node4.child dst i) (← load (SlotKind.node16.child off i))) keys.length () s₀ = .ok () s₂ ∧
      Filled s₀ s₂ dst raws .node4 keys := by
  have hstep : ∀ i < keys.length, ∀ (u : Unit) s, Filled s₀ s dst raws .node4 (keys.take i) →
      ∃ (u' : Unit) (s' : ArtState), (do
        storeByte (dst + SlotKind.node4.keysOffset + i) (← loadByte (off + SlotKind.node16.keysOffset + i))
        store (SlotKind.node4.child dst i) (← load (SlotKind.node16.child off i))) s = .ok u' s' ∧
        Filled s₀ s' dst raws .node4 (keys.take (i + 1)) := by
    intro i hi _ s hf
    have hn' : NodeAt s.mem off raws (.slots .node16 keys) := hn.frame hs hf.changes hd
    obtain ⟨hchild, hput⟩ := hf.copy hn hs hi (hi.trans_le hroom) hfit hd
    refine ⟨(), _, ?_, hput⟩
    rw [putEntry, ← hchild, bind_ok (run_loadByte _ _), (hn'.entry hs hi).2 (by decide), bind_ok (run_storeByte _ _ _),
      UInt8.ofNat_toNat]
    rfl
  obtain ⟨⟨⟩, s₂, hrun, hf⟩ := run_loop_ok (fun i _ s ↦ Filled s₀ s dst raws .node4 (keys.take i))
    ⟨rfl, .rfl', entries_zero hzero raws⟩ hstep
  exact ⟨s₂, hrun, by rwa [List.take_length] at hf⟩

theorem occupied_live (hraw : ∀ b, raws b = 0 ↔ kids b = .nil) : occupied raws 256 = live kids := by
  refine List.filter_congr fun b _ ↦ ?_
  have hb := hraw b
  rw [← isNil_iff] at hb
  cases hnil : (kids b).isNil with
  | true => simp [hb.mpr hnil]
  | false =>
    have hne : raws b ≠ 0 := fun hz ↦ by simp [hb.mp hz] at hnil
    simp [hne]

/-- What `shrinkNode` ends in once its block is granted: a new node with the
children of the old one, or an error that has spent the block. -/
def Shrinks (ix : ArtIndex) (limit : ℕ) (s : ArtState) (h : Heap) (h' : Heap) (dst : ℕ) (raws : UInt8 → ℕ)
    (small : Shape) (x : ArtM ℕ) : Prop :=
  (small.Fits ∧ ∃ s', x s = .ok (dst + small.type.tag) s' ∧ Stands ix limit s h s' h' dst raws small) ∨
    ¬ small.Fits ∧ ∃ e s', x s = .error (.error e) s' ∧ Spent ix limit s h s' h'

/-- The gathered entries under their count are the new node. -/
theorem Gathers.shrinks {s₁ : ArtState} {f : ℕ → ℕ → ArtM ℕ} {x : ArtM ℕ} (ha : Arena ix limit s h)
    (hsp : Spent ix limit s h s₁ h') (hraw : ∀ b, raws b = 0 ↔ kids b = .nil) (hal : dst % 8 = 0)
    (hblock : Ico dst (dst + kind.size) ⊆ taken h h') (hfit : dst + kind.size ≤ s₁.mem.length)
    (hg : Gathers dst raws kind f s₁)
    (hx : x s = (do
      let n ← loop f 256 0
      storeByte dst n
      newPtr dst kind.type : ArtM ℕ) s₁) :
    Shrinks ix limit s h h' dst raws (.slots kind (live kids)) x := by
  have hlive := occupied_live hraw
  rcases hg with ⟨s₂, hloop, hf, hroom⟩ | ⟨e, s₂, hloop, hfree, hch, hfull⟩
  · rw [hlive] at hloop hf hroom
    obtain ⟨hch, hstands⟩ := hf.count hfit hroom
    have hspent := hsp.write ha.clear hch hblock
    rw [← hf.free] at hspent
    refine .inl ⟨hroom, _, ?_, hspent, hstands⟩
    rw [hx, bind_ok hloop, bind_ok (run_storeByte _ _ _)]
    exact run_newPtr hal kind.type
  · rw [hlive] at hfull
    have hspent := hsp.write ha.clear hch hblock
    rw [← hfree] at hspent
    exact .inr ⟨not_le.mpr hfull, e, s₂, by rw [hx, bind_error hloop], hspent⟩

theorem run_shrinkNode (ha : Arena ix limit s h) (hn : NodeAt s.mem off raws shape) (hs : shape.Sound)
    (hraw : ∀ b, raws b = 0 ↔ kids b = .nil) (habsent : ∀ b, ¬ shape.Has b → kids b = .nil)
    (hcount : shape.count ≠ 0) (hbound : shape.count ≤ shrinkBound shape.type)
    (hfit : off + shape.size ≤ limit) (hal : off % 8 = 0)
    (hd : Disjoint (Ico off (off + shape.size)) (ix.bumpWord ∪ h.avail))
    (halloc : h.alloc limit (shape.shrink kids).size = some (dst, h')) :
    Shrinks ix limit s h h' dst raws (shape.shrink kids) (shrinkNode ix shape.type off) := by
  have hg := alloc_granted ha.sound halloc
  obtain ⟨s₁, hrun, hsp, hzero⟩ := run_allocZeroed ha halloc
  have hblock := block_taken hg
  have hdd := hd.mono_right ((hblock.trans fun _ ha ↦ ha.1).trans subset_union_right)
  have hsrc : off + shape.size ≤ s.mem.length := ha.length ▸ hfit
  have hfits : dst + (shape.shrink kids).size ≤ s₁.mem.length := by
    have := hg.fits
    have := le_alignSize (shape.shrink kids).size
    rw [hsp.arena.length]
    omega
  have hn₁ := hn.spent hs hsp hd
  have hnode := run_nodeAt hfits hg.aligned
  have habsent' : ∀ b, ¬ shape.Has b → raws b = 0 := fun b hb ↦ (hraw b).mpr (habsent b hb)
  cases shape with
  | slots kind keys =>
    cases kind with
    | node4 => exact absurd (Nat.le_zero.mp hbound) hcount
    | node16 =>
      have hroom : keys.length ≤ 4 := le_trans hbound (show shrink16To4 ≤ 4 by decide)
      obtain ⟨s₂, hloop, hf⟩ := shrink16_loop hn₁ hs hroom hfits hdd hzero
      obtain ⟨hch, hstands⟩ := hf.count hfits hroom
      have hspent := hsp.write ha.clear hch hblock
      rw [← hf.free] at hspent
      refine .inl ⟨hroom, _, ?_, hspent, hstands⟩
      have hcheck : ¬ 4 < keys.length := not_lt.mpr hroom
      rw [show (Shape.slots .node16 keys).type = .node16 from rfl, shrinkNode, shrink16to4,
        bind_ok (show nodeAt off SlotKind.node16.size s = .ok () s from run_nodeAt hsrc hal),
        bind_ok (run_loadByte _ _), hn.1]
      simp only [if_neg hcheck]
      rw [bind_ok (show allocZeroed ix SlotKind.node4.size s = .ok dst s₁ from hrun),
        bind_ok (show nodeAt dst SlotKind.node4.size s₁ = .ok () s₁ from hnode), bind_ok hloop,
        bind_ok (run_storeByte _ _ _)]
      exact run_newPtr hg.aligned .node4
    | node48 =>
      refine Gathers.shrinks ha hsp hraw hg.aligned hblock hfits (shrink48_loop hn₁ hs habsent' hfits hdd hzero) ?_
      rw [show (Shape.slots .node48 keys).type = .node48 from rfl, shrinkNode, shrink48to16,
        bind_ok (show nodeAt off SlotKind.node48.size s = .ok () s from run_nodeAt hsrc hal),
        bind_ok (show allocZeroed ix SlotKind.node16.size s = .ok dst s₁ from hrun),
        bind_ok (show nodeAt dst SlotKind.node16.size s₁ = .ok () s₁ from hnode)]
      rfl
  | direct count =>
    refine Gathers.shrinks ha hsp hraw hg.aligned hblock hfits (shrink256_loop hn₁ hs hfits hdd hzero) ?_
    rw [show (Shape.direct count).type = .node256 from rfl, shrinkNode, shrink256to48,
      bind_ok (show nodeAt off node256Size s = .ok () s from run_nodeAt hsrc hal),
      bind_ok (show allocZeroed ix SlotKind.node48.size s = .ok dst s₁ from hrun),
      bind_ok (show nodeAt dst SlotKind.node48.size s₁ = .ok () s₁ from hnode)]
    rfl

theorem run_shrinkNode_none (ha : Arena ix limit s h) (hn : NodeAt s.mem off raws shape)
    (hcount : shape.count ≠ 0) (hbound : shape.count ≤ shrinkBound shape.type)
    (hfit : off + shape.size ≤ limit) (hal : off % 8 = 0)
    (halloc : h.alloc limit (shape.shrink kids).size = none) :
    shrinkNode ix shape.type off s = .error (.error .outOfMemory) s := by
  have hrun := run_allocZeroed_none ha halloc
  have hsrc : off + shape.size ≤ s.mem.length := ha.length ▸ hfit
  cases shape with
  | slots kind keys =>
    cases kind with
    | node4 => exact absurd (Nat.le_zero.mp hbound) hcount
    | node16 =>
      have hroom : keys.length ≤ 4 := le_trans hbound (show shrink16To4 ≤ 4 by decide)
      have hcheck : ¬ 4 < keys.length := not_lt.mpr hroom
      rw [show (Shape.slots .node16 keys).type = .node16 from rfl, shrinkNode, shrink16to4,
        bind_ok (show nodeAt off SlotKind.node16.size s = .ok () s from run_nodeAt hsrc hal),
        bind_ok (run_loadByte _ _), hn.1]
      simp only [if_neg hcheck]
      exact bind_error hrun
    | node48 =>
      rw [show (Shape.slots .node48 keys).type = .node48 from rfl, shrinkNode, shrink48to16,
        bind_ok (show nodeAt off SlotKind.node48.size s = .ok () s from run_nodeAt hsrc hal)]
      exact bind_error hrun
  | direct count =>
    rw [show (Shape.direct count).type = .node256 from rfl, shrinkNode, shrink256to48,
      bind_ok (show nodeAt off node256Size s = .ok () s from run_nodeAt hsrc hal)]
    exact bind_error hrun

end TakyonDb.Art
