import TakyonDb.Art.Tree

namespace TakyonDb.Art

open Lib Set

variable {α β : Type} {s s' : ArtState}

theorem bind_ok {x : ArtM α} {f : α → ArtM β} {a : α} (h : x s = .ok a s') : (x >>= f) s = f a s' := by
  simp only [bind, EStateM.bind, h]

theorem bind_error {x : ArtM α} {f : α → ArtM β} {stop : Stop} (h : x s = .error stop s') :
    (x >>= f) s = .error stop s' := by
  simp only [bind, EStateM.bind, h]

theorem run_get (s : ArtState) : EStateM.get s = (.ok s s : EStateM.Result Stop ArtState ArtState) := rfl

theorem run_modifyGet (f : ArtState → α × ArtState) (s : ArtState) :
    EStateM.modifyGet f s = (.ok (f s).1 (f s).2 : EStateM.Result Stop ArtState α) := rfl

theorem run_load (addr : ℕ) (s : ArtState) : load addr s = .ok (readU32 s.mem addr) s := rfl

theorem run_loadByte (addr : ℕ) (s : ArtState) : loadByte addr s = .ok (byteAt s.mem addr).toNat s := rfl

theorem run_loadU16 (addr : ℕ) (s : ArtState) : loadU16 addr s = .ok (readU16 s.mem addr) s := rfl

theorem run_nodeAt {off size : ℕ} (hfit : off + size ≤ s.mem.length) (hal : off % 8 = 0) :
    nodeAt off size s = .ok () s := by
  have h₁ : ¬ s.mem.length < off + size := not_lt.mpr hfit
  have h₂ : ¬ off % 4 ≠ 0 := by omega
  simp only [nodeAt, arenaLen, bind, EStateM.bind, get, getThe, MonadStateOf.get, run_get, pure,
    EStateM.pure, if_neg h₁, if_neg h₂]

theorem run_u32Slot {addr : ℕ} (hfit : addr + 4 ≤ s.mem.length) (hal : addr % 4 = 0) :
    u32Slot addr s = .ok addr s := by
  have h₁ : ¬ s.mem.length < addr + 4 := not_lt.mpr hfit
  have h₂ : ¬ addr % 4 ≠ 0 := by omega
  simp only [u32Slot, arenaLen, bind, EStateM.bind, get, getThe, MonadStateOf.get, run_get, pure,
    EStateM.pure, if_neg h₁, if_neg h₂]

theorem or_tag {off : ℕ} (hal : off % 8 = 0) (ntype : NodeType) : off ||| ntype.tag = off + ntype.tag := by
  obtain ⟨k, rfl⟩ := Nat.dvd_of_mod_eq_zero hal
  have hlt : ntype.tag < 2 ^ 3 := by cases ntype <;> decide
  exact (Nat.two_pow_add_eq_or_of_lt hlt k).symm

theorem run_newPtr {off : ℕ} (hal : off % 8 = 0) (ntype : NodeType) :
    newPtr off ntype s = .ok (off + ntype.tag) s := by
  have h : ¬ off % 8 ≠ 0 := by omega
  simp only [newPtr, if_neg h, or_tag hal, bind, pure, EStateM.pure]

theorem getOffset_tag {off : ℕ} (hal : off % 8 = 0) (ntype : NodeType) :
    ArtPtr.getOffset (off + ntype.tag) = off := by
  have hlt : ntype.tag < 8 := by cases ntype <;> decide
  rw [ArtPtr.getOffset]
  omega

theorem getType_tag {off : ℕ} (hal : off % 8 = 0) (ntype : NodeType) :
    ArtPtr.getType (off + ntype.tag) = some ntype := by
  have hmod : (off + ntype.tag) % 8 = ntype.tag := by
    have hlt : ntype.tag < 8 := by cases ntype <;> decide
    omega
  rw [ArtPtr.getType, hmod]
  cases ntype <;> rfl

theorem run_getType {off : ℕ} (hal : off % 8 = 0) (ntype : NodeType) :
    getType (off + ntype.tag) s = .ok ntype s := by
  rw [getType, getType_tag hal]
  rfl

namespace SlotKind

variable {kind : SlotKind} {off slot : ℕ}

theorem child_le (off : ℕ) (h : slot < kind.capacity) : kind.child off slot + 4 ≤ off + kind.size := by
  cases kind <;> simp only [child, capacity, size, childrenOffset] at h ⊢ <;> omega

end SlotKind

theorem child256_le (off : ℕ) (b : UInt8) : child256 off b + 4 ≤ off + node256Size := by
  have hb := b.toNat_lt
  simp only [child256, node256Size]
  omega

/-- What binds the keys of a node to their slots. -/
def KeysAt (mem : Bytes) (off : ℕ) (keys : List UInt8) : SlotKind → Prop
  | .node48 => ∀ b : UInt8, (byteAt mem (off + SlotKind.node48.keysOffset + b.toNat)).toNat =
      if b ∈ keys then keys.idxOf b + 1 else 0
  | kind => ∀ i (h : i < keys.length), byteAt mem (off + kind.keysOffset + i) = keys[i]

/-- The memory holds a node of the given shape at `off`, with `raws` in its child words. -/
def NodeAt (mem : Bytes) (off : ℕ) (raws : UInt8 → ℕ) : Shape → Prop
  | .slots kind keys => (byteAt mem off).toNat = keys.length ∧ KeysAt mem off keys kind ∧
      ∀ b ∈ keys, readU32 mem (kind.child off (keys.idxOf b)) = raws b
  | .direct count => readU16 mem off = count ∧ ∀ b, readU32 mem (child256 off b) = raws b

def LeafAt (mem : Bytes) (off : ℕ) (key : Bytes) (value : UInt32) : Prop :=
  readU32 mem off = key.length ∧ readU32 mem (off + 4) = value.toNat ∧
    slice mem (off + leafHeader) key.length = key

/-- The memory holds the tree. -/
def Stored (mem : Bytes) : Tree → Prop
  | .nil => True
  | .leaf off key value => LeafAt mem off key value
  | .inner off shape kids => NodeAt mem off (fun b ↦ (kids b).raw) shape ∧ ∀ b, Stored mem (kids b)

theorem Shape.slotOf_bounds {shape : Shape} {b : UInt8} (hs : shape.Sound) (hb : shape.Has b) (off : ℕ) :
    off + 2 ≤ shape.slotOf off b ∧ shape.slotOf off b + 4 ≤ off + shape.size := by
  cases shape with
  | slots kind keys =>
    have hidx : keys.idxOf b < kind.capacity := (List.idxOf_lt_length_of_mem hb).trans_le hs.2
    refine ⟨?_, SlotKind.child_le off hidx⟩
    cases kind <;> simp only [slotOf, SlotKind.child, SlotKind.childrenOffset] <;> omega
  | direct count =>
    refine ⟨?_, child256_le off b⟩
    simp only [slotOf, child256]
    omega

/-- The child words of a node lie apart. -/
theorem Shape.slotOf_apart {shape : Shape} {b c : UInt8} (hb : shape.Has b)
    (hne : b ≠ c) (off : ℕ) :
    shape.slotOf off b + 4 ≤ shape.slotOf off c ∨ shape.slotOf off c + 4 ≤ shape.slotOf off b := by
  cases shape with
  | slots kind keys =>
    have hidx : keys.idxOf b ≠ keys.idxOf c := fun h ↦ hne ((List.idxOf_inj hb).mp h)
    simp only [slotOf, SlotKind.child]
    omega
  | direct count =>
    have hnat : b.toNat ≠ c.toNat := fun h ↦ hne (UInt8.toNat_inj.mp h)
    simp only [slotOf, child256]
    omega

theorem NodeAt.child {mem : Bytes} {off : ℕ} {raws : UInt8 → ℕ} {shape : Shape} {b : UInt8}
    (h : NodeAt mem off raws shape) (hb : shape.Has b) : readU32 mem (shape.slotOf off b) = raws b := by
  cases shape with
  | slots kind keys => exact h.2.2 b hb
  | direct count => exact h.2 b

/-- A change of nothing but one child word is an update of that child. -/
theorem NodeAt.update {mem mem' : Bytes} {off x : ℕ} {raws : UInt8 → ℕ} {shape : Shape} {b : UInt8}
    {t : Set ℕ} (h : NodeAt mem off raws shape) (hs : shape.Sound) (hb : shape.Has b)
    (hch : ChangesOnly t mem mem')
    (ht : ∀ a ∈ Ico off (off + shape.size), a ∈ t →
      a ∈ Ico (shape.slotOf off b) (shape.slotOf off b + 4))
    (hx : readU32 mem' (shape.slotOf off b) = x) :
    NodeAt mem' off (Function.update raws b x) shape := by
  have hslot := Shape.slotOf_bounds hs hb off
  have hword : ∀ c, shape.Has c → c ≠ b → readU32 mem' (shape.slotOf off c) = raws c := by
    intro c hc hne
    have hcb := Shape.slotOf_bounds hs hc off
    have hap := Shape.slotOf_apart hc hne off
    rw [← h.child hc]
    refine hch.readU32 (disjoint_left.mpr fun a ha hat ↦ ?_)
    have hin := ht a ⟨by have := ha.1; omega, by have := ha.2; omega⟩ hat
    have := ha.1
    have := ha.2
    have := hin.1
    have := hin.2
    omega
  have hwords : ∀ c, shape.Has c → readU32 mem' (shape.slotOf off c) = Function.update raws b x c := by
    intro c hc
    rcases eq_or_ne c b with rfl | hne
    · rw [Function.update_self, hx]
    · rw [Function.update_of_ne hne, hword c hc hne]
  cases shape with
  | slots kind keys =>
    obtain ⟨hcount, hkeys, -⟩ := h
    have hbyte : ∀ a, off ≤ a → a < off + kind.childrenOffset → byteAt mem' a = byteAt mem a := by
      intro a hlo hhi
      refine hch.byteAt fun hat ↦ ?_
      have hsize : kind.childrenOffset ≤ kind.size := by cases kind <;> decide
      have hin := ht a ⟨hlo, by simp only [Shape.size]; omega⟩ hat
      have := hin.1
      simp only [Shape.slotOf, SlotKind.child] at this
      omega
    refine ⟨?_, ?_, fun c hc ↦ hwords c hc⟩
    · rw [hbyte off le_rfl (by cases kind <;> simp [SlotKind.childrenOffset])]
      exact hcount
    · cases kind with
      | node48 =>
        intro c
        have hc := c.toNat_lt
        rw [hbyte _ (by omega) (by simp only [SlotKind.keysOffset, SlotKind.childrenOffset]; omega)]
        exact hkeys c
      | node4 =>
        intro i hi
        have hroom := hs.2
        rw [hbyte _ (by omega) (by simp only [SlotKind.keysOffset, SlotKind.childrenOffset,
          SlotKind.capacity] at hroom ⊢; omega)]
        exact hkeys i hi
      | node16 =>
        intro i hi
        have hroom := hs.2
        rw [hbyte _ (by omega) (by simp only [SlotKind.keysOffset, SlotKind.childrenOffset,
          SlotKind.capacity] at hroom ⊢; omega)]
        exact hkeys i hi
  | direct count =>
    refine ⟨?_, fun c ↦ hwords c trivial⟩
    rw [hch.readU16 (disjoint_left.mpr fun a ha hat ↦ ?_), h.1]
    have := ha.1
    have := ha.2
    have hin := ht a ⟨by omega, by simp only [Shape.size, node256Size]; omega⟩ hat
    have := hin.1
    omega

/-- A node stays as it is when nothing of it is written. -/
theorem NodeAt.frame {mem mem' : Bytes} {off : ℕ} {raws : UInt8 → ℕ} {shape : Shape} {t : Set ℕ}
    (h : NodeAt mem off raws shape) (hs : shape.Sound) (hch : ChangesOnly t mem mem')
    (ht : Disjoint (Ico off (off + shape.size)) t) : NodeAt mem' off raws shape := by
  have hnot : ∀ a ∈ Ico off (off + shape.size), a ∈ t → False := fun a ha hat ↦ disjoint_left.mp ht ha hat
  by_cases hany : ∃ b, shape.Has b
  · obtain ⟨b, hb⟩ := hany
    have hslot := Shape.slotOf_bounds hs hb off
    have hread : readU32 mem' (shape.slotOf off b) = raws b := by
      rw [← h.child hb]
      exact hch.readU32 (ht.mono_left (Ico_subset_Ico (by omega) hslot.2))
    simpa only [Function.update_eq_self] using
      h.update hs hb hch (fun a ha hat ↦ (hnot a ha hat).elim) hread
  · cases shape with
    | slots kind keys =>
      have hnil : keys = [] := List.eq_nil_iff_forall_not_mem.mpr fun b hb ↦ hany ⟨b, hb⟩
      subst hnil
      have hbyte : ∀ a ∈ Ico off (off + kind.size), byteAt mem' a = byteAt mem a :=
        fun a ha ↦ hch.byteAt fun hat ↦ hnot a ha hat
      refine ⟨?_, ?_, fun b hb ↦ absurd hb List.not_mem_nil⟩
      · rw [hbyte off ⟨le_rfl, by cases kind <;> simp [SlotKind.size]⟩]
        exact h.1
      · cases kind with
        | node48 =>
          intro c
          have hc := c.toNat_lt
          rw [hbyte _ ⟨by omega, by simp only [SlotKind.keysOffset, SlotKind.size]; omega⟩]
          exact h.2.1 c
        | node4 => exact fun i hi ↦ absurd hi (Nat.not_lt_zero i)
        | node16 => exact fun i hi ↦ absurd hi (Nat.not_lt_zero i)
    | direct count => exact absurd ⟨0, trivial⟩ hany

theorem Stored.frame {mem mem' : Bytes} {t : Set ℕ} (hch : ChangesOnly t mem mem') :
    ∀ {tree : Tree} {path : Bytes}, Stored mem tree → tree.WF path → Disjoint tree.foot t → Stored mem' tree
  | .nil, _, _, _, _ => trivial
  | .leaf off key value, _, ⟨hlen, hvalue, hkey⟩, _, hd => by
    have hroom := Heap.le_alignSize (leafHeader + key.length)
    have hheader : leafHeader = 8 := rfl
    have hsub : ∀ a b, off ≤ a → b ≤ off + leafHeader + key.length → Disjoint (Ico a b) t :=
      fun a b hlo hhi ↦ hd.mono_left (Ico_subset_Ico hlo (by omega))
    refine ⟨?_, ?_, ?_⟩
    · rw [hch.readU32 (hsub _ _ le_rfl (by omega)), hlen]
    · rw [hch.readU32 (hsub _ _ (by omega) (by omega)), hvalue]
    · rw [hch.slice (hsub _ _ (by omega) le_rfl), hkey]
  | .inner off shape kids, path, ⟨hnode, hkids⟩, ⟨_, _, hs, _, hwf⟩, hd => by
    obtain ⟨hblock, hfeet⟩ := disjoint_union_left.mp hd
    refine ⟨hnode.frame hs hch hblock, fun b ↦ ?_⟩
    exact Stored.frame hch (hkids b) (hwf b) (hfeet.mono_left (subset_iUnion (fun b ↦ (kids b).foot) b))

end TakyonDb.Art
