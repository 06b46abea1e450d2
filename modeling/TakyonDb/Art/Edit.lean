import TakyonDb.Art.Search

namespace TakyonDb.Art

open Lib Set

variable {s : ArtState} {mem mem' : Bytes} {off slot x : ℕ} {raws : UInt8 → ℕ} {keys : List UInt8}
  {b : UInt8} {kind : SlotKind} {t : Set ℕ}

/-- The entries of a node, whatever its count says. -/
def Entries (mem : Bytes) (off : ℕ) (raws : UInt8 → ℕ) (kind : SlotKind) (keys : List UInt8) : Prop :=
  KeysAt mem off keys kind ∧ ∀ b ∈ keys, readU32 mem (kind.child off (keys.idxOf b)) = raws b

def putKey (kind : SlotKind) (off slot : ℕ) (b : UInt8) (mem : Bytes) : Bytes :=
  match kind with
  | .node48 => setByte mem (off + kind.keysOffset + b.toNat) (UInt8.ofNat (slot + 1))
  | _ => setByte mem (off + kind.keysOffset + slot) b

/-- The next entry of a node, with its count still to be written. -/
def putEntry (kind : SlotKind) (off slot : ℕ) (b : UInt8) (x : ℕ) (mem : Bytes) : Bytes :=
  writeU32 (putKey kind off slot b mem) (kind.child off slot) x

theorem run_storeKey (kind : SlotKind) (off slot : ℕ) (b : UInt8) (s : ArtState) :
    storeKey kind off slot b s = .ok () { s with mem := putKey kind off slot b s.mem } := by
  cases kind <;> simp only [storeKey, storeByte, putKey, UInt8.ofNat_toNat] <;> rfl

theorem run_update (f : Bytes → Bytes) (s : ArtState) : update f s = .ok () { s with mem := f s.mem } := rfl

theorem run_store (addr v : ℕ) (s : ArtState) :
    store addr v s = .ok () { s with mem := writeU32 s.mem addr v } := rfl

theorem run_storeByte (addr v : ℕ) (s : ArtState) :
    storeByte addr v s = .ok () { s with mem := setByte s.mem addr (UInt8.ofNat v) } := rfl

theorem run_storeU16 (addr v : ℕ) (s : ArtState) :
    storeU16 addr v s = .ok () { s with mem := writeU16 s.mem addr v } := rfl

theorem changesOnly_putKey (hfit : off + kind.size ≤ mem.length) (hslot : slot < kind.capacity) :
    ChangesOnly (Ico (off + 1) (kind.child off 0)) mem (putKey kind off slot b mem) := by
  have hb := b.toNat_lt
  have hsize : kind.childrenOffset ≤ kind.size := by cases kind <;> decide
  cases kind <;>
    simp only [putKey, SlotKind.keysOffset, SlotKind.capacity, SlotKind.child, SlotKind.childrenOffset] at * <;>
    refine (changesOnly_setByte (by omega) _).mono (Ico_subset_Ico (by omega) (by omega))

theorem changesOnly_putEntry (hfit : off + kind.size ≤ mem.length) (hslot : slot < kind.capacity) :
    ChangesOnly (Ico (off + 1) (off + kind.size)) mem (putEntry kind off slot b x mem) := by
  have hkey := changesOnly_putKey (b := b) hfit hslot
  have hchild := SlotKind.child_le off hslot
  have hfirst : off + 1 ≤ kind.child off 0 ∧ kind.child off 0 ≤ kind.child off slot := by
    cases kind <;> simp only [SlotKind.child, SlotKind.childrenOffset] <;> omega
  refine (hkey.mono (Ico_subset_Ico le_rfl (by omega))).trans ?_
  refine (changesOnly_writeU32 (by rw [hkey.length_eq]; omega) x).mono (Ico_subset_Ico (by omega) hchild)

theorem idxOf_append_self (hnot : b ∉ keys) : (keys ++ [b]).idxOf b = keys.length := by
  rw [List.idxOf_append_of_notMem hnot, List.idxOf_cons_self, Nat.add_zero]

theorem KeysAt.put (h : KeysAt mem off keys kind) (hfit : off + kind.size ≤ mem.length)
    (hroom : keys.length < kind.capacity) (hnot : b ∉ keys) :
    KeysAt (putKey kind off keys.length b mem) off (keys ++ [b]) kind := by
  have hb := b.toNat_lt
  have hslotted : ∀ address, address + keys.length < mem.length →
      (∀ i (hi : i < keys.length), byteAt mem (address + i) = keys[i]) →
      ∀ i (hi : i < (keys ++ [b]).length),
        byteAt (setByte mem (address + keys.length) b) (address + i) = (keys ++ [b])[i] := by
    intro address hin hold i hi
    rw [List.length_append, List.length_singleton] at hi
    rcases Nat.lt_succ_iff_lt_or_eq.mp hi with hlt | rfl
    · rw [(changesOnly_setByte hin b).byteAt (by simp only [mem_Ico]; omega), hold i hlt,
        List.getElem_append_left hlt]
    · rw [byteAt_setByte_self hin, List.getElem_append_right le_rfl]
      simp
  cases kind with
  | node4 =>
    simp only [SlotKind.size, SlotKind.capacity] at hfit hroom
    exact hslotted _ (by simp only [SlotKind.keysOffset]; omega) h
  | node16 =>
    simp only [SlotKind.size, SlotKind.capacity] at hfit hroom
    exact hslotted _ (by simp only [SlotKind.keysOffset]; omega) h
  | node48 =>
    simp only [SlotKind.size, SlotKind.capacity] at hfit hroom
    intro c
    have hc := c.toNat_lt
    have hin : off + SlotKind.node48.keysOffset + b.toNat < mem.length := by
      simp only [SlotKind.keysOffset]
      omega
    rcases eq_or_ne c b with rfl | hne
    · rw [putKey, byteAt_setByte_self hin, if_pos (List.mem_append_right _ (List.mem_singleton_self c)),
        idxOf_append_self hnot, UInt8.toNat_ofNat', Nat.mod_eq_of_lt (by omega)]
    · have hnat : c.toNat ≠ b.toNat := fun heq ↦ hne (UInt8.toNat_inj.mp heq)
      have hmem : c ∈ keys ++ [b] ↔ c ∈ keys := by simp [hne]
      have hsame : byteAt (putKey .node48 off keys.length b mem) (off + SlotKind.node48.keysOffset + c.toNat) =
          byteAt mem (off + SlotKind.node48.keysOffset + c.toNat) :=
        (changesOnly_setByte hin _).byteAt (by simp only [mem_Ico]; omega)
      rw [hsame, h c]
      simp only [hmem]
      split_ifs with hold
      · rw [List.idxOf_append_of_mem hold]
      · rfl

/-- The keys of a node lie before its child words. -/
theorem KeysAt.frame (h : KeysAt mem off keys kind) (hroom : keys.length ≤ kind.capacity)
    (hch : ChangesOnly t mem mem') (ht : ∀ a ∈ Ico (off + 1) (kind.child off 0), a ∉ t) :
    KeysAt mem' off keys kind := by
  cases kind with
  | node48 =>
    intro c
    have hc := c.toNat_lt
    rw [hch.byteAt (ht _ ?_)]
    · exact h c
    · simp only [mem_Ico, SlotKind.keysOffset, SlotKind.child, SlotKind.childrenOffset]
      omega
  | node4 =>
    intro i hi
    rw [hch.byteAt (ht _ ?_)]
    · exact h i hi
    · simp only [mem_Ico, SlotKind.keysOffset, SlotKind.child, SlotKind.childrenOffset, SlotKind.capacity] at hroom ⊢
      omega
  | node16 =>
    intro i hi
    rw [hch.byteAt (ht _ ?_)]
    · exact h i hi
    · simp only [mem_Ico, SlotKind.keysOffset, SlotKind.child, SlotKind.childrenOffset, SlotKind.capacity] at hroom ⊢
      omega

/-- The entries stay when only bytes outside of them are written. -/
theorem Entries.frame (h : Entries mem off raws kind keys) (hroom : keys.length ≤ kind.capacity)
    (hch : ChangesOnly t mem mem') (ht : Disjoint (Ico (off + 1) (off + kind.size)) t) :
    Entries mem' off raws kind keys := by
  have hsize : kind.child off 0 ≤ off + kind.size := by
    cases kind <;> simp [SlotKind.child, SlotKind.childrenOffset, SlotKind.size]
  refine ⟨h.1.frame hroom hch fun a ha ↦ disjoint_left.mp ht ⟨ha.1, ha.2.trans_le hsize⟩, fun c hc ↦ ?_⟩
  have hidx := (List.idxOf_lt_length_of_mem hc).trans_le hroom
  have hchild := SlotKind.child_le off hidx
  have hfirst : off + 1 ≤ kind.child off (keys.idxOf c) := by
    cases kind <;> simp only [SlotKind.child, SlotKind.childrenOffset] <;> omega
  rw [hch.readU32 (ht.mono_left (Ico_subset_Ico hfirst hchild)), h.2 c hc]

/-- An entry in the next free slot extends the keys. -/
theorem Entries.put (h : Entries mem off raws kind keys) (hfit : off + kind.size ≤ mem.length)
    (hroom : keys.length < kind.capacity) (hnot : b ∉ keys) (hx : x < 2 ^ 32) :
    Entries (putEntry kind off keys.length b x mem) off (Function.update raws b x) kind (keys ++ [b]) := by
  have hkey := changesOnly_putKey (b := b) hfit hroom
  have hchild := SlotKind.child_le off hroom
  have hin : kind.child off keys.length + 4 ≤ (putKey kind off keys.length b mem).length := by
    rw [hkey.length_eq]
    omega
  have hword := changesOnly_writeU32 hin x
  refine ⟨?_, fun c hc ↦ ?_⟩
  · refine (h.1.put hfit hroom hnot).frame ?_ hword fun a ha hat ↦ ?_
    · rw [List.length_append, List.length_singleton]
      omega
    · have h₁ := ha.2
      have h₂ := hat.1
      simp only [SlotKind.child] at h₁ h₂
      omega
  · rcases eq_or_ne c b with rfl | hne
    · rw [idxOf_append_self hnot, putEntry, readU32_writeU32_self hin hx, Function.update_self]
    · have hold : c ∈ keys := by simpa [hne] using hc
      have hidx := List.idxOf_lt_length_of_mem hold
      rw [List.idxOf_append_of_mem hold, Function.update_of_ne hne, ← h.2 c hold, putEntry,
        hword.readU32 (disjoint_Ico (by simp only [SlotKind.child]; omega)),
        hkey.readU32 (disjoint_Ico (by simp only [SlotKind.child]; omega))]

theorem entries_zero (hzero : ∀ a ∈ Ico off (off + kind.size), byteAt mem a = 0) (raws : UInt8 → ℕ) :
    Entries mem off raws kind [] := by
  refine ⟨?_, fun b hb ↦ absurd hb List.not_mem_nil⟩
  cases kind with
  | node48 =>
    intro b
    have hb := b.toNat_lt
    rw [hzero _ ⟨by omega, by simp only [SlotKind.keysOffset, SlotKind.size]; omega⟩]
    rfl
  | node4 => exact fun i hi ↦ absurd hi (Nat.not_lt_zero i)
  | node16 => exact fun i hi ↦ absurd hi (Nat.not_lt_zero i)

/-- A node is its entries under their count. -/
theorem Entries.count (h : Entries mem off raws kind keys) (hfit : off + kind.size ≤ mem.length)
    (hroom : keys.length ≤ kind.capacity) :
    NodeAt (setByte mem off (UInt8.ofNat keys.length)) off raws (.slots kind keys) := by
  have hsize : 24 ≤ kind.size := (Shape.slots kind []).size_pos
  have hin : off < mem.length := by omega
  have hcap : kind.capacity < 256 := by cases kind <;> decide
  refine ⟨?_, h.frame hroom (changesOnly_setByte hin _) (disjoint_Ico (.inr le_rfl))⟩
  rw [byteAt_setByte_self hin, UInt8.toNat_ofNat', Nat.mod_eq_of_lt (by omega)]

end TakyonDb.Art
