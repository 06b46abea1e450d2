import TakyonDb.Art.Edit

namespace TakyonDb.Art

open Lib Set Heap

variable {ix : ArtIndex} {limit size off : ℕ} {s s' : ArtState} {h h' : Heap}

namespace ArtIndex

/-- The two words of an index that fits its arena. -/
structure Placed (ix : ArtIndex) (limit : ℕ) : Prop where
  limit_lt : limit < 2 ^ 32
  root_fits : ix.rootPtrOffset + 4 ≤ limit
  root_aligned : ix.rootPtrOffset % 4 = 0
  bump_fits : ix.bumpAllocOffset + 4 ≤ limit
  bump_aligned : ix.bumpAllocOffset % 4 = 0
  words_apart : ix.rootPtrOffset + 4 ≤ ix.bumpAllocOffset ∨ ix.bumpAllocOffset + 4 ≤ ix.rootPtrOffset

abbrev rootWord (ix : ArtIndex) : Set ℕ := Ico ix.rootPtrOffset (ix.rootPtrOffset + 4)

abbrev bumpWord (ix : ArtIndex) : Set ℕ := Ico ix.bumpAllocOffset (ix.bumpAllocOffset + 4)

end ArtIndex

/-- The arena holds what the heap says about the allocator. -/
structure Arena (ix : ArtIndex) (limit : ℕ) (s : ArtState) (h : Heap) : Prop where
  placed : ix.Placed limit
  length : s.mem.length = limit
  bump : readU32 s.mem ix.bumpAllocOffset = h.bump
  free : s.free = h.free
  sound : h.Sound limit
  clear : Disjoint ix.bumpWord h.avail

theorem Arena.write {t : Set ℕ} {mem : Bytes} (ha : Arena ix limit s h) (hch : ChangesOnly t s.mem mem)
    (ht : Disjoint ix.bumpWord t) : Arena ix limit { s with mem } h :=
  { ha with length := hch.length_eq.trans ha.length, bump := (hch.readU32 ht).trans ha.bump }

/-- The memory has changed only where the heap granted something. -/
structure Spent (ix : ArtIndex) (limit : ℕ) (s : ArtState) (h : Heap) (s' : ArtState) (h' : Heap) :
    Prop extends Spends limit h h' where
  arena : Arena ix limit s' h'
  changes : ChangesOnly (ix.bumpWord ∪ taken h h') s.mem s'.mem

theorem Spent.refl (ha : Arena ix limit s h) : Spent ix limit s h s h := ⟨.refl ha.sound, ha, .rfl'⟩

theorem Spent.trans {s'' : ArtState} {h'' : Heap} (h₁ : Spent ix limit s h s' h')
    (h₂ : Spent ix limit s' h' s'' h'') : Spent ix limit s h s'' h'' :=
  ⟨h₁.toSpends.trans h₂.toSpends, h₂.arena,
    (h₁.changes.mono (union_subset_union_right _ h₂.toSpends.taken_left)).trans
      (h₂.changes.mono (union_subset_union_right _ h₁.toSpends.taken_right))⟩

/-- A write to what the heap granted. -/
theorem Spent.write {t : Set ℕ} {mem : Bytes} (h₁ : Spent ix limit s h s' h') (hclear : Disjoint ix.bumpWord h.avail)
    (hch : ChangesOnly t s'.mem mem) (ht : t ⊆ taken h h') :
    Spent ix limit s h { s' with mem } h' :=
  ⟨h₁.toSpends, h₁.arena.write hch (hclear.mono_right (ht.trans fun _ ha ↦ ha.1)),
    h₁.changes.trans (hch.mono (ht.trans subset_union_right))⟩

theorem run_bumpNode (ha : Arena ix limit s h) (halloc : h.bumpAlloc limit size = some (off, h')) :
    bumpNode ix size s = .ok off { s with mem := writeU32 s.mem ix.bumpAllocOffset h'.bump } := by
  rw [bumpAlloc] at halloc
  split_ifs at halloc with hfull
  obtain ⟨rfl, rfl⟩ := Prod.mk.inj (Option.some.inj halloc)
  have hslot : u32Slot ix.bumpAllocOffset s = .ok ix.bumpAllocOffset s :=
    run_u32Slot (ha.length ▸ ha.placed.bump_fits) ha.placed.bump_aligned
  have hlt := ha.placed.limit_lt
  rw [bumpNode, bind_ok hslot, bind_ok (run_load _ _), ha.bump]
  simp only [arenaLen, bind, EStateM.bind, get, getThe, MonadStateOf.get, run_get, pure, EStateM.pure,
    ha.length, if_neg hfull]
  rw [if_neg (by omega)]
  rfl

theorem run_bumpNode_none (ha : Arena ix limit s h) (halloc : h.bumpAlloc limit size = none) :
    bumpNode ix size s = .error (.error .outOfMemory) s := by
  rw [bumpAlloc] at halloc
  split_ifs at halloc with hfull
  have hslot : u32Slot ix.bumpAllocOffset s = .ok ix.bumpAllocOffset s :=
    run_u32Slot (ha.length ▸ ha.placed.bump_fits) ha.placed.bump_aligned
  rw [bumpNode, bind_ok hslot, bind_ok (run_load _ _), ha.bump]
  simp only [arenaLen, bind, EStateM.bind, get, getThe, MonadStateOf.get, run_get, pure, EStateM.pure,
    ha.length, if_pos hfull, fail]
  rfl

theorem Arena.claim (ha : Arena ix limit s h) (halloc : h.bumpAlloc limit (alignSize size) = some (off, h')) :
    Arena ix limit { s with mem := writeU32 s.mem ix.bumpAllocOffset h'.bump } h' := by
  have hgrant := bumpAlloc_granted ha.sound halloc
  have hfit : ix.bumpAllocOffset + 4 ≤ s.mem.length := ha.length ▸ ha.placed.bump_fits
  rw [bumpAlloc] at halloc
  split_ifs at halloc with hfull
  obtain ⟨rfl, rfl⟩ := Prod.mk.inj (Option.some.inj halloc)
  have hlt := ha.placed.limit_lt
  exact ⟨ha.placed, (length_writeU32 hfit _).trans ha.length,
    readU32_writeU32_self hfit (by dsimp only; omega), ha.free, hgrant.sound,
    ha.clear.mono_right hgrant.avail⟩

theorem run_allocNode (ha : Arena ix limit s h) (halloc : h.alloc limit size = some (off, h')) :
    ∃ s', allocNode ix size s = .ok off s' ∧ Arena ix limit s' h' ∧
      ChangesOnly ix.bumpWord s.mem s'.mem := by
  have hgrant := alloc_granted ha.sound halloc
  have hfit : ix.bumpAllocOffset + 4 ≤ s.mem.length := ha.length ▸ ha.placed.bump_fits
  rw [alloc] at halloc
  cases hreuse : h.free.reuse (alignSize size) with
  | some popped =>
    rw [hreuse] at halloc
    obtain ⟨rfl, rfl⟩ := Prod.mk.inj (Option.some.inj halloc)
    have hin : popped.1 + alignSize size ≤ s.mem.length := ha.length ▸ hgrant.fits
    refine ⟨{ s with free := popped.2 }, ?_, ⟨ha.placed, ha.length, ha.bump, rfl, hgrant.sound,
      ha.clear.mono_right hgrant.avail⟩, .rfl'⟩
    simp only [allocNode, reuse, arenaLen, bind, EStateM.bind, get, getThe, MonadStateOf.get, run_get,
      pure, EStateM.pure, ha.free, hreuse, modify, modifyGet, MonadStateOf.modifyGet, run_modifyGet,
      if_pos hin]
  | none =>
    rw [hreuse] at halloc
    refine ⟨_, ?_, ha.claim halloc, changesOnly_writeU32 hfit _⟩
    rw [← run_bumpNode ha halloc]
    simp only [allocNode, reuse, bind, EStateM.bind, get, getThe, MonadStateOf.get, run_get, pure,
      EStateM.pure, ha.free, hreuse]

theorem run_allocNode_none (ha : Arena ix limit s h) (halloc : h.alloc limit size = none) :
    allocNode ix size s = .error (.error .outOfMemory) s := by
  rw [alloc] at halloc
  cases hreuse : h.free.reuse (alignSize size) with
  | some popped =>
    rw [hreuse] at halloc
    cases halloc
  | none =>
    rw [hreuse] at halloc
    rw [← run_bumpNode_none ha halloc]
    simp only [allocNode, reuse, bind, EStateM.bind, get, getThe, MonadStateOf.get, run_get, pure,
      EStateM.pure, ha.free, hreuse]

theorem byteAt_zeroed {mem : Bytes} (hfit : off + size ≤ mem.length) :
    ∀ a ∈ Ico off (off + size), byteAt (overwrite mem off (zeros size)) a = 0 := by
  rintro a ⟨hlo, hhi⟩
  have hlen : off + (zeros size).length ≤ mem.length := by rwa [length_zeros]
  rw [byteAt, List.getD_eq_getElem?_getD, getElem?_overwrite hlen, length_zeros, if_pos ⟨hlo, hhi⟩, zeros,
    List.getElem?_replicate_of_lt (by omega)]
  rfl

/-- A zeroed block is the caller's and holds zeros. -/
theorem run_allocZeroed (ha : Arena ix limit s h) (halloc : h.alloc limit size = some (off, h')) :
    ∃ s', allocZeroed ix size s = .ok off s' ∧ Spent ix limit s h s' h' ∧
      ∀ a ∈ Ico off (off + size), byteAt s'.mem a = 0 := by
  have hgrant := alloc_granted ha.sound halloc
  obtain ⟨s₁, hrun, ha₁, hch₁⟩ := run_allocNode ha halloc
  have hsize := le_alignSize size
  have hfit : off + size ≤ s₁.mem.length := by
    have := hgrant.fits
    rw [ha₁.length]
    omega
  have hch₂ : ChangesOnly (Ico off (off + size)) s₁.mem (overwrite s₁.mem off (zeros size)) := by
    have hlen : off + (zeros size).length ≤ s₁.mem.length := by rwa [length_zeros]
    simpa only [length_zeros] using changesOnly_overwrite hlen
  have hblock : Ico off (off + size) ⊆ Ico off (off + alignSize size) := Ico_subset_Ico le_rfl (by omega)
  have hspent : Spent ix limit s h s₁ h' := ⟨hgrant.toSpends, ha₁, hch₁.mono subset_union_left⟩
  refine ⟨{ s₁ with mem := overwrite s₁.mem off (zeros size) }, ?_,
    hspent.write ha.clear hch₂ (hblock.trans hgrant.taken), byteAt_zeroed hfit⟩
  rw [allocZeroed, bind_ok hrun]
  rfl

theorem run_allocZeroed_none (ha : Arena ix limit s h) (halloc : h.alloc limit size = none) :
    allocZeroed ix size s = .error (.error .outOfMemory) s := by
  rw [allocZeroed, bind_error (run_allocNode_none ha halloc)]

theorem run_leafKeyBytes {keyLen : ℕ} (hfit : off + leafHeader + keyLen ≤ s.mem.length) :
    leafKeyBytes off keyLen s = .ok (slice s.mem (off + leafHeader) keyLen) s := by
  have hin : ¬ s.mem.length < off + leafHeader + keyLen := not_lt.mpr hfit
  simp only [leafKeyBytes, arenaLen, bind, EStateM.bind, get, getThe, MonadStateOf.get, run_get, pure,
    EStateM.pure, if_neg hin]

/-- The new leaf lies in a block of its own. -/
theorem run_allocLeaf {key : Bytes} (value : UInt32) (ha : Arena ix limit s h) (hkey : key.length < 2 ^ 32)
    (halloc : h.alloc limit (leafHeader + key.length) = some (off, h')) :
    ∃ s', allocLeaf ix key value s = .ok off s' ∧ Arena ix limit s' h' ∧
      ChangesOnly (ix.bumpWord ∪ (Tree.leaf off key value).foot) s.mem s'.mem ∧
      Stored s'.mem (.leaf off key value) := by
  have hgrant := alloc_granted ha.sound halloc
  obtain ⟨s₁, hrun, ha₁, hch₁⟩ := run_allocNode ha halloc
  have hsize := le_alignSize (leafHeader + key.length)
  have hheader : leafHeader = 8 := rfl
  have hfit : off + leafHeader + key.length ≤ s₁.mem.length := by
    have := hgrant.fits
    rw [ha₁.length]
    omega
  have hfit₁ : off + 4 ≤ s₁.mem.length := by omega
  have hch₂ := changesOnly_writeU32 hfit₁ key.length
  set m₂ := writeU32 s₁.mem off key.length with hm₂
  have hfit₂ : off + 4 + 4 ≤ m₂.length := by rw [hch₂.length_eq]; omega
  have hch₃ := changesOnly_writeU32 hfit₂ value.toNat
  set m₃ := writeU32 m₂ (off + 4) value.toNat with hm₃
  have hfit₃ : off + leafHeader + key.length ≤ m₃.length := by
    rw [hch₃.length_eq, hch₂.length_eq]
    exact hfit
  have hch₄ := changesOnly_overwrite hfit₃
  set m₄ := overwrite m₃ (off + leafHeader) key with hm₄
  have hblock : ∀ a b, off ≤ a → b ≤ off + leafHeader + key.length →
      Ico a b ⊆ (Tree.leaf off key value).foot := fun a b hlo hhi ↦ Ico_subset_Ico hlo (by omega)
  have hch : ChangesOnly (Tree.leaf off key value).foot s₁.mem m₄ :=
    ((hch₂.mono (hblock _ _ le_rfl (by omega))).trans (hch₃.mono (hblock _ _ (by omega) (by omega)))).trans
      (hch₄.mono (hblock _ _ (by omega) le_rfl))
  refine ⟨{ s₁ with mem := m₄ }, ?_, ha₁.write hch ?_, ?_, ?_, ?_, ?_⟩
  · have hnode : nodeAt off leafHeader s₁ = .ok () s₁ := run_nodeAt (by omega) hgrant.aligned
    have hbytes : leafKeyBytes off key.length { s₁ with mem := m₃ } = .ok _ _ := run_leafKeyBytes hfit₃
    rw [allocLeaf, bind_ok hrun, bind_ok hnode, bind_ok (run_store _ _ _), bind_ok (run_store _ _ _),
      bind_ok hbytes]
    rfl
  · exact ha.clear.mono_right (hgrant.taken.trans fun _ ha ↦ ha.1)
  · exact (hch₁.mono subset_union_left).trans (hch.mono subset_union_right)
  · rw [hch₄.readU32 (disjoint_Ico (by omega)), hch₃.readU32 (disjoint_Ico (by omega)),
      readU32_writeU32_self hfit₁ hkey]
  · rw [hch₄.readU32 (disjoint_Ico (by omega)), readU32_writeU32_self hfit₂ value.toNat_lt]
  · exact slice_overwrite_self hfit₃

theorem run_allocLeaf_none {key : Bytes} {value : UInt32} (ha : Arena ix limit s h)
    (halloc : h.alloc limit (leafHeader + key.length) = none) :
    allocLeaf ix key value s = .error (.error .outOfMemory) s := by
  rw [allocLeaf, bind_error (run_allocNode_none ha halloc)]

end TakyonDb.Art
