import Mathlib.Data.List.Nodup
import TakyonDb.Art.Alloc

namespace TakyonDb.Art

open Lib Set Heap

variable {ix : ArtIndex} {limit off dst n x : ℕ} {s s' : ArtState} {h h' : Heap} {raws : UInt8 → ℕ}
  {keys : List UInt8} {b : UInt8} {kind : SlotKind} {mem mem' : Bytes}

/-- What every round keeps, the loop keeps; a round that fails ends it. -/
theorem run_loop {α : Type} {f : ℕ → α → ArtM α} {a : α} (P : ℕ → α → ArtState → Prop) (E : ArtState → Prop)
    (h₀ : P 0 a s)
    (hstep : ∀ i < n, ∀ a s, P i a s → (∃ a' s', f i a s = .ok a' s' ∧ P (i + 1) a' s') ∨
      ∃ e s', f i a s = .error (.error e) s' ∧ E s') :
    (∃ a' s', loop f n a s = .ok a' s' ∧ P n a' s') ∨
      ∃ e s', loop f n a s = .error (.error e) s' ∧ E s' := by
  induction n with
  | zero => exact .inl ⟨a, s, rfl, h₀⟩
  | succ n ih =>
    rcases ih fun i hi ↦ hstep i (hi.trans (Nat.lt_succ_self n)) with ⟨a', s', hrun, hP⟩ | ⟨e, s', hrun, hE⟩
    · rcases hstep n (Nat.lt_succ_self n) a' s' hP with ⟨a₂, s₂, hrun₂, hP₂⟩ | ⟨e, s₂, hrun₂, hE⟩
      · exact .inl ⟨a₂, s₂, by rw [loop, bind_ok hrun, hrun₂], hP₂⟩
      · exact .inr ⟨e, s₂, by rw [loop, bind_ok hrun, hrun₂], hE⟩
    · exact .inr ⟨e, s', by rw [loop, bind_error hrun], hE⟩

theorem run_loop_ok {α : Type} {f : ℕ → α → ArtM α} {a : α} (P : ℕ → α → ArtState → Prop) (h₀ : P 0 a s)
    (hstep : ∀ i < n, ∀ a s, P i a s → ∃ a' s', f i a s = .ok a' s' ∧ P (i + 1) a' s') :
    ∃ a' s', loop f n a s = .ok a' s' ∧ P n a' s' := by
  rcases run_loop P (fun _ ↦ False) h₀ fun i hi a s hP ↦ .inl (hstep i hi a s hP) with hok | ⟨_, _, _, hE⟩
  · exact hok
  · exact hE.elim

/-- Only the block at `dst` has been written since, and it holds the first
entries of a new node. -/
structure Filled (s₀ s : ArtState) (dst : ℕ) (raws : UInt8 → ℕ) (kind : SlotKind) (keys : List UInt8) :
    Prop where
  free : s.free = s₀.free
  changes : ChangesOnly (Ico dst (dst + kind.size)) s₀.mem s.mem
  entries : Entries s.mem dst raws kind keys

theorem Filled.put {s₀ : ArtState} (hf : Filled s₀ s dst raws kind keys)
    (hfit : dst + kind.size ≤ s₀.mem.length) (hroom : keys.length < kind.capacity) (hnot : b ∉ keys)
    (hx : raws b < 2 ^ 32) :
    Filled s₀ { s with mem := putEntry kind dst keys.length b (raws b) s.mem } dst raws kind (keys ++ [b]) := by
  have hfit' : dst + kind.size ≤ s.mem.length := hf.changes.length_eq ▸ hfit
  refine ⟨hf.free, hf.changes.trans ((changesOnly_putEntry hfit' hroom).mono
    (Ico_subset_Ico (Nat.le_succ dst) le_rfl)), ?_⟩
  simpa only [Function.update_eq_self] using hf.entries.put hfit' hroom hnot hx

theorem Filled.count {s₀ : ArtState} (hf : Filled s₀ s dst raws kind keys)
    (hfit : dst + kind.size ≤ s₀.mem.length) (hroom : keys.length ≤ kind.capacity) :
    ChangesOnly (Ico dst (dst + kind.size)) s₀.mem (setByte s.mem dst (UInt8.ofNat keys.length)) ∧
      NodeAt (setByte s.mem dst (UInt8.ofNat keys.length)) dst raws (.slots kind keys) := by
  have hfit' : dst + kind.size ≤ s.mem.length := hf.changes.length_eq ▸ hfit
  have hsize : 24 ≤ kind.size := (Shape.slots kind []).size_pos
  exact ⟨hf.changes.trans ((changesOnly_setByte (by omega) _).mono (Ico_subset_Ico le_rfl (by omega))),
    hf.entries.count hfit' hroom⟩

/-- The words and keys of the old node, as the loops read them. -/
theorem NodeAt.entry {i : ℕ} (hn : NodeAt mem off raws (.slots kind keys))
    (hs : (Shape.slots kind keys).Sound) (hi : i < keys.length) :
    readU32 mem (kind.child off i) = raws keys[i] ∧
      (kind ≠ .node48 → byteAt mem (off + kind.keysOffset + i) = keys[i]) := by
  refine ⟨?_, fun hk ↦ ?_⟩
  · have hchild := hn.2.2 keys[i] (List.getElem_mem hi)
    rwa [hs.1.idxOf_getElem i hi] at hchild
  · cases kind with
    | node4 => exact hn.2.1 i hi
    | node16 => exact hn.2.1 i hi
    | node48 => exact absurd rfl hk

theorem NodeAt.raws_lt (hn : NodeAt mem off raws (.slots kind keys)) (hb : b ∈ keys) : raws b < 2 ^ 32 :=
  hn.2.2 b hb ▸ readU32_lt _ _

theorem take_snoc {i : ℕ} (hi : i < keys.length) : keys.take (i + 1) = keys.take i ++ [keys[i]] :=
  (List.take_append_getElem hi).symm

theorem getElem_notMem_take {i : ℕ} (hnodup : keys.Nodup) (hi : i < keys.length) : keys[i] ∉ keys.take i := by
  have htake : (keys.take i ++ [keys[i]]).Nodup := take_snoc hi ▸ (List.take_sublist _ _).nodup hnodup
  exact fun hin ↦ List.disjoint_of_nodup_append htake hin (List.mem_singleton_self _)

/-- A new node of the given shape stands at `dst`, and the heap has granted its block. -/
def Stands (ix : ArtIndex) (limit : ℕ) (s : ArtState) (h : Heap) (s' : ArtState) (h' : Heap) (dst : ℕ)
    (raws : UInt8 → ℕ) (shape : Shape) : Prop :=
  Spent ix limit s h s' h' ∧ NodeAt s'.mem dst raws shape

theorem length_take_le {i : ℕ} (hi : i ≤ keys.length) : (keys.take i).length = i := by
  rw [List.length_take, min_eq_left hi]

/-- An old node that is none of the heap's business stays readable. -/
theorem NodeAt.spent {shape : Shape} (hn : NodeAt s.mem off raws shape) (hs : shape.Sound)
    (hsp : Spent ix limit s h s' h')
    (hd : Disjoint (Ico off (off + shape.size)) (ix.bumpWord ∪ h.avail)) : NodeAt s'.mem off raws shape :=
  hn.frame hs hsp.changes (hd.mono_right (union_subset_union_right _ fun _ ha ↦ ha.1))

theorem block_taken {shape : Shape} (hg : Granted limit shape.size dst h h') :
    Ico dst (dst + shape.size) ⊆ taken h h' :=
  (Ico_subset_Ico le_rfl (by have := le_alignSize shape.size; omega)).trans hg.taken

/-- An entry of the old node, copied to the slot of the same number. -/
theorem Filled.copy {s₁ : ArtState} {src : SlotKind} {i : ℕ} (hf : Filled s₁ s dst raws kind (keys.take i))
    (hn : NodeAt s₁.mem off raws (.slots src keys)) (hs : (Shape.slots src keys).Sound) (hi : i < keys.length)
    (hroom : i < kind.capacity) (hfit : dst + kind.size ≤ s₁.mem.length)
    (hd : Disjoint (Ico off (off + src.size)) (Ico dst (dst + kind.size))) :
    readU32 (putKey kind dst i keys[i] s.mem) (src.child off i) = raws keys[i] ∧
      Filled s₁ { s with mem := putEntry kind dst i keys[i] (raws keys[i]) s.mem } dst raws kind (keys.take (i + 1)) := by
  have hn' : NodeAt s.mem off raws (.slots src keys) := hn.frame hs hf.changes hd
  have hfit' : dst + kind.size ≤ s.mem.length := hf.changes.length_eq ▸ hfit
  have hch := changesOnly_putKey (b := keys[i]) hfit' hroom
  have hsize : kind.child dst 0 ≤ dst + kind.size := by
    cases kind <;> simp [SlotKind.child, SlotKind.childrenOffset, SlotKind.size]
  have hput := hf.put hfit (by rwa [length_take_le hi.le]) (getElem_notMem_take hs.1 hi)
    (hn.raws_lt (List.getElem_mem hi))
  rw [length_take_le hi.le, ← take_snoc hi] at hput
  exact ⟨((hn'.frame hs hch (hd.mono_right (Ico_subset_Ico (Nat.le_succ dst) hsize))).entry hs hi).1, hput⟩

theorem grow16_loop {s₁ : ArtState} (hn : NodeAt s₁.mem off raws (.slots .node16 keys))
    (hs : (Shape.slots .node16 keys).Sound) (hfit : dst + SlotKind.node48.size ≤ s₁.mem.length)
    (hd : Disjoint (Ico off (off + SlotKind.node16.size)) (Ico dst (dst + SlotKind.node48.size)))
    (hzero : ∀ a ∈ Ico dst (dst + SlotKind.node48.size), byteAt s₁.mem a = 0) :
    ∃ s₂, loop (fun i _ ↦ do
      let b ← loadByte (off + SlotKind.node16.keysOffset + i)
      storeByte (dst + SlotKind.node48.keysOffset + b) (i + 1)
      store (SlotKind.node48.child dst i) (← load (SlotKind.node16.child off i))) keys.length () s₁ =
        .ok () s₂ ∧ Filled s₁ s₂ dst raws .node48 keys := by
  have hstep : ∀ i < keys.length, ∀ (u : Unit) s, Filled s₁ s dst raws .node48 (keys.take i) →
      ∃ (u' : Unit) (s' : ArtState), (do
        let b ← loadByte (off + SlotKind.node16.keysOffset + i)
        storeByte (dst + SlotKind.node48.keysOffset + b) (i + 1)
        store (SlotKind.node48.child dst i) (← load (SlotKind.node16.child off i))) s = .ok u' s' ∧
        Filled s₁ s' dst raws .node48 (keys.take (i + 1)) := by
    intro i hi _ s hf
    have hn' : NodeAt s.mem off raws (.slots .node16 keys) := hn.frame hs hf.changes hd
    obtain ⟨hchild, hput⟩ := hf.copy hn hs hi (hi.trans_le (hs.2.trans (by decide))) hfit hd
    refine ⟨(), _, ?_, hput⟩
    rw [putEntry, ← hchild, bind_ok (run_loadByte _ _), (hn'.entry hs hi).2 (by decide)]
    rfl
  obtain ⟨⟨⟩, s₂, hrun, hf⟩ := run_loop_ok (fun i _ s ↦ Filled s₁ s dst raws .node48 (keys.take i))
    ⟨rfl, .rfl', entries_zero hzero raws⟩ hstep
  exact ⟨s₂, hrun, by rwa [List.take_length] at hf⟩

theorem getElem?_copy {src k : ℕ} (hsrc : src + n ≤ mem.length) (hdst : dst + n ≤ mem.length) (hk : k < n) :
    (overwrite mem dst (slice mem src n))[dst + k]? = mem[src + k]? := by
  have hlen : (slice mem src n).length = n := length_slice hsrc
  rw [getElem?_overwrite (by rwa [hlen]), hlen, if_pos ⟨by omega, by omega⟩, getElem?_slice,
    Nat.add_sub_cancel_left, if_pos hk]

theorem byteAt_copy {src k : ℕ} (hsrc : src + n ≤ mem.length) (hdst : dst + n ≤ mem.length) (hk : k < n) :
    byteAt (overwrite mem dst (slice mem src n)) (dst + k) = byteAt mem (src + k) := by
  rw [byteAt, byteAt, List.getD_eq_getElem?_getD, getElem?_copy hsrc hdst hk, List.getD_eq_getElem?_getD]

theorem readU32_copy {src k : ℕ} (hsrc : src + n ≤ mem.length) (hdst : dst + n ≤ mem.length) (hk : k + 4 ≤ n) :
    readU32 (overwrite mem dst (slice mem src n)) (dst + k) = readU32 mem (src + k) := by
  have hslice : slice (overwrite mem dst (slice mem src n)) (dst + k) 4 = slice mem (src + k) 4 := by
    apply List.ext_getElem?
    intro i
    rw [getElem?_slice, getElem?_slice]
    split_ifs with hi
    · rw [Nat.add_assoc, getElem?_copy hsrc hdst (by omega), Nat.add_assoc]
    · rfl
  rw [readU32, hslice, readU32]

theorem changesOnly_copy {src : ℕ} (hsrc : src + n ≤ mem.length) (hdst : dst + n ≤ mem.length) :
    ChangesOnly (Ico dst (dst + n)) mem (overwrite mem dst (slice mem src n)) := by
  have hlen : (slice mem src n).length = n := length_slice hsrc
  have hfit : dst + (slice mem src n).length ≤ mem.length := by rwa [hlen]
  have hch := changesOnly_overwrite hfit
  rwa [hlen] at hch

/-- The keys and children that `growNode` copies from a `Node4`. -/
theorem grow4_copy {s₁ : ArtState} (hn : NodeAt s₁.mem off raws (.slots .node4 keys))
    (hs : (Shape.slots .node4 keys).Sound) (hsrc : off + SlotKind.node4.size ≤ s₁.mem.length)
    (hfit : dst + SlotKind.node16.size ≤ s₁.mem.length)
    (hd : Disjoint (Ico off (off + SlotKind.node4.size)) (Ico dst (dst + SlotKind.node16.size))) :
    let m₂ := overwrite s₁.mem (dst + SlotKind.node16.keysOffset)
      (slice s₁.mem (off + SlotKind.node4.keysOffset) keys.length)
    let m₃ := overwrite m₂ (SlotKind.node16.child dst 0) (slice m₂ (SlotKind.node4.child off 0) (4 * keys.length))
    Filled s₁ { s₁ with mem := m₃ } dst raws .node16 keys := by
  have hroom := hs.2
  simp only [SlotKind.size, SlotKind.capacity] at hsrc hfit hd hroom
  simp only [SlotKind.child, SlotKind.childrenOffset, SlotKind.keysOffset]
  have hsrc₁ : off + 4 + keys.length ≤ s₁.mem.length := by omega
  have hdst₁ : dst + 16 + keys.length ≤ s₁.mem.length := by omega
  have hch₁ := changesOnly_copy hsrc₁ hdst₁
  set m₂ := overwrite s₁.mem (dst + 16) (slice s₁.mem (off + 4) keys.length) with hm₂
  have hsrc₂ : off + 8 + 4 * 0 + 4 * keys.length ≤ m₂.length := by rw [hch₁.length_eq]; omega
  have hdst₂ : dst + 32 + 4 * 0 + 4 * keys.length ≤ m₂.length := by rw [hch₁.length_eq]; omega
  have hch₂ := changesOnly_copy hsrc₂ hdst₂
  refine ⟨rfl, (hch₁.mono (Ico_subset_Ico (by omega) ?_)).trans (hch₂.mono (Ico_subset_Ico (by omega) ?_)),
    fun i hi ↦ ?_, fun b hb ↦ ?_⟩
  · simp only [SlotKind.size]
    omega
  · simp only [SlotKind.size]
    omega
  · simp only [SlotKind.keysOffset]
    rw [hch₂.byteAt (by simp only [mem_Ico]; omega), hm₂, byteAt_copy hsrc₁ hdst₁ hi]
    exact hn.2.1 i hi
  · have hidx := List.idxOf_lt_length_of_mem hb
    have hold := hn.2.2 b hb
    simp only [SlotKind.child, SlotKind.childrenOffset] at hold ⊢
    have hcopy := readU32_copy (k := 4 * keys.idxOf b) hsrc₂ hdst₂ (by omega)
    rw [Nat.mul_zero, Nat.add_zero, Nat.add_zero] at hcopy
    rw [Nat.mul_zero, Nat.add_zero, Nat.add_zero, hcopy, hch₁.readU32 ?_, hold]
    refine (hd.mono (Ico_subset_Ico ?_ ?_) (Ico_subset_Ico ?_ ?_)) <;> omega

/-- The bytes below `n` in order. -/
def bytesBelow (n : ℕ) : List UInt8 := (List.range n).map UInt8.ofNat

theorem bytesBelow_succ (n : ℕ) : bytesBelow (n + 1) = bytesBelow n ++ [UInt8.ofNat n] := by
  rw [bytesBelow, List.range_succ, List.map_append]
  rfl

theorem mem_bytesBelow (hn : n ≤ 256) : b ∈ bytesBelow n ↔ b.toNat < n := by
  rw [bytesBelow, List.mem_map]
  constructor
  · rintro ⟨i, hi, rfl⟩
    have hlt := List.mem_range.mp hi
    rw [UInt8.toNat_ofNat', Nat.mod_eq_of_lt (by omega)]
    exact hlt
  · exact fun hlt ↦ ⟨b.toNat, List.mem_range.mpr hlt, UInt8.ofNat_toNat⟩

theorem nodup_bytesBelow (hn : n ≤ 256) : (bytesBelow n).Nodup := by
  induction n with
  | zero => exact List.nodup_nil
  | succ n ih =>
    rw [bytesBelow_succ]
    refine List.nodup_append.mpr ⟨ih (by omega), by simp, ?_⟩
    rintro a ha c hc rfl
    have hlt := (mem_bytesBelow (by omega)).mp ha
    rw [List.mem_singleton.mp hc, UInt8.toNat_ofNat', Nat.mod_eq_of_lt (by omega)] at hlt
    exact lt_irrefl _ hlt

/-- The state of a conversion into a `Node256` after the bytes below `n`. -/
structure Filled256 (s₀ s : ArtState) (dst : ℕ) (raws : UInt8 → ℕ) (n : ℕ) : Prop where
  free : s.free = s₀.free
  changes : ChangesOnly (Ico (dst + 2) (dst + node256Size)) s₀.mem s.mem
  children : ∀ c : UInt8, readU32 s.mem (child256 dst c) = if c.toNat < n then raws c else 0

theorem readU32_zero (hzero : ∀ a ∈ Ico off (off + 4), byteAt mem a = 0) (hfit : off + 4 ≤ mem.length) :
    readU32 mem off = 0 := by
  have hslice : slice mem off 4 = List.replicate 4 0 := by
    refine List.eq_replicate_iff.mpr ⟨length_slice hfit, fun b hb ↦ ?_⟩
    obtain ⟨i, hi⟩ := List.getElem?_of_mem hb
    rw [getElem?_slice] at hi
    split_ifs at hi with hlt
    have hbyte := hzero (off + i) ⟨by omega, by omega⟩
    rwa [byteAt, List.getD_eq_getElem?_getD, hi, Option.getD_some] at hbyte
  rw [readU32, hslice, leDecode_replicate_zero]

theorem child256_apart {c : UInt8} (hne : b ≠ c) (dst : ℕ) :
    child256 dst b + 4 ≤ child256 dst c ∨ child256 dst c + 4 ≤ child256 dst b := by
  have hnat : b.toNat ≠ c.toNat := fun h ↦ hne (UInt8.toNat_inj.mp h)
  simp only [child256]
  omega

theorem Filled256.put {s₀ : ArtState} (hf : Filled256 s₀ s dst raws b.toNat)
    (hfit : dst + node256Size ≤ s₀.mem.length) (hx : raws b < 2 ^ 32) :
    Filled256 s₀ { s with mem := writeU32 s.mem (child256 dst b) (raws b) } dst raws (b.toNat + 1) := by
  have hchild := child256_le dst b
  have hin : child256 dst b + 4 ≤ s.mem.length := by
    rw [hf.changes.length_eq]
    omega
  have hch := changesOnly_writeU32 hin (raws b)
  refine ⟨hf.free, hf.changes.trans (hch.mono (Ico_subset_Ico ?_ hchild)), fun c ↦ ?_⟩
  · simp only [child256]
    omega
  · rcases eq_or_ne c b with rfl | hne
    · rw [readU32_writeU32_self hin hx, if_pos (Nat.lt_succ_self _)]
    · have hnat : c.toNat ≠ b.toNat := fun h ↦ hne (UInt8.toNat_inj.mp h)
      rw [hch.readU32 (disjoint_Ico (child256_apart hne dst)), hf.children c]
      exact if_congr (by omega) rfl rfl

theorem Filled256.skip {s₀ : ArtState} (hf : Filled256 s₀ s dst raws b.toNat) (hx : raws b = 0) :
    Filled256 s₀ s dst raws (b.toNat + 1) := by
  refine ⟨hf.free, hf.changes, fun c ↦ ?_⟩
  rw [hf.children c]
  rcases eq_or_ne c b with rfl | hne
  · rw [if_neg (lt_irrefl _), if_pos (Nat.lt_succ_self _), hx]
  · have hnat : c.toNat ≠ b.toNat := fun h ↦ hne (UInt8.toNat_inj.mp h)
    exact if_congr (by omega) rfl rfl

theorem run_childSlot {slot : ℕ} (h : slot < kind.capacity) :
    childSlot kind off slot s = .ok (kind.child off slot) s := by
  simp only [childSlot, if_neg (not_le.mpr h)]
  rfl

theorem grow48_loop {s₁ : ArtState} (hn : NodeAt s₁.mem off raws (.slots .node48 keys))
    (hs : (Shape.slots .node48 keys).Sound) (habsent : ∀ b ∉ keys, raws b = 0)
    (hfit : dst + node256Size ≤ s₁.mem.length)
    (hd : Disjoint (Ico off (off + SlotKind.node48.size)) (Ico dst (dst + node256Size)))
    (hzero : ∀ a ∈ Ico dst (dst + node256Size), byteAt s₁.mem a = 0) :
    ∃ s₂, loop (fun b n ↦ do
      let s ← loadByte (off + SlotKind.node48.keysOffset + b)
      if s = 0 then return n
      store (child256 dst (UInt8.ofNat b)) (← load (← childSlot .node48 off (s - 1)))
      return n + 1) 256 0 s₁ = .ok keys.length s₂ ∧ Filled256 s₁ s₂ dst raws 256 := by
  have hstep : ∀ i < 256, ∀ n s, (n = ((bytesBelow i).filter (· ∈ keys)).length ∧ Filled256 s₁ s dst raws i) →
      ∃ (n' : ℕ) (s' : ArtState), (do
        let s ← loadByte (off + SlotKind.node48.keysOffset + i)
        if s = 0 then return n
        store (child256 dst (UInt8.ofNat i)) (← load (← childSlot .node48 off (s - 1)))
        return n + 1) s = .ok n' s' ∧
        (n' = ((bytesBelow (i + 1)).filter (· ∈ keys)).length ∧ Filled256 s₁ s' dst raws (i + 1)) := by
    rintro i hi n s ⟨rfl, hf⟩
    obtain ⟨b, rfl⟩ : ∃ b : UInt8, b.toNat = i :=
      ⟨UInt8.ofNat i, by rw [UInt8.toNat_ofNat', Nat.mod_eq_of_lt (by omega)]⟩
    have hsub : Ico (dst + 2) (dst + node256Size) ⊆ Ico dst (dst + node256Size) :=
      Ico_subset_Ico (by omega) le_rfl
    have hn' : NodeAt s.mem off raws (.slots .node48 keys) := hn.frame hs hf.changes (hd.mono_right hsub)
    rw [bytesBelow_succ, UInt8.ofNat_toNat, List.filter_append, List.length_append, bind_ok (run_loadByte _ _),
      hn'.2.1 b]
    by_cases hb : b ∈ keys
    · have hidx := (List.idxOf_lt_length_of_mem hb).trans_le hs.2
      rw [if_pos hb, if_neg (Nat.succ_ne_zero _), Nat.add_sub_cancel, bind_ok (run_childSlot hidx),
        bind_ok (run_load _ _), hn'.2.2 b hb]
      refine ⟨_, _, rfl, ?_, hf.put hfit (hn.raws_lt hb)⟩
      simp [hb]
    · rw [if_neg hb, if_pos rfl]
      refine ⟨_, s, rfl, ?_, hf.skip (habsent b hb)⟩
      simp [hb]
  have hstart : Filled256 s₁ s₁ dst raws 0 := by
    refine ⟨rfl, .rfl', fun c ↦ ?_⟩
    have hchild := child256_le dst c
    rw [if_neg (Nat.not_lt_zero _)]
    refine readU32_zero (fun a ha ↦ hzero a ⟨?_, ha.2.trans_le hchild⟩) (by omega)
    have := ha.1
    simp only [child256] at this
    omega
  obtain ⟨n, s₂, hrun, rfl, hf⟩ := run_loop_ok
    (fun i n s ↦ n = ((bytesBelow i).filter (· ∈ keys)).length ∧ Filled256 s₁ s dst raws i)
    ⟨rfl, hstart⟩ hstep
  have hperm : ((bytesBelow 256).filter (· ∈ keys)).Perm keys := by
    refine (List.perm_ext_iff_of_nodup ((nodup_bytesBelow le_rfl).filter _) hs.1).mpr fun b ↦ ?_
    have hb := b.toNat_lt
    rw [List.mem_filter, mem_bytesBelow le_rfl]
    simp [hb]
  rw [hperm.length_eq] at hrun
  exact ⟨s₂, hrun, hf⟩

/-- The new node of `growNode` holds the entries of the old one. -/
theorem run_growNode (ha : Arena ix limit s h) (hn : NodeAt s.mem off raws (.slots kind keys))
    (hs : (Shape.slots kind keys).Sound) (habsent : ∀ b ∉ keys, raws b = 0)
    (hfit : off + kind.size ≤ limit) (hal : off % 8 = 0)
    (hd : Disjoint (Ico off (off + kind.size)) (ix.bumpWord ∪ h.avail))
    (halloc : h.alloc limit (Shape.slots kind keys).grow.size = some (dst, h')) :
    ∃ s', growNode ix kind off s = .ok (dst + (Shape.slots kind keys).grow.type.tag) s' ∧
      Stands ix limit s h s' h' dst raws (Shape.slots kind keys).grow := by
  have hg := alloc_granted ha.sound halloc
  obtain ⟨s₁, hrun, hsp, hzero⟩ := run_allocZeroed ha halloc
  have hblock := block_taken hg
  have hdd := hd.mono_right ((hblock.trans fun _ ha ↦ ha.1).trans subset_union_right)
  have hsrc : off + kind.size ≤ s.mem.length := ha.length ▸ hfit
  have hsrc₁ : off + kind.size ≤ s₁.mem.length := hsp.arena.length ▸ hfit
  have hfits : dst + (Shape.slots kind keys).grow.size ≤ s₁.mem.length := by
    have := hg.fits
    have := le_alignSize (Shape.slots kind keys).grow.size
    rw [hsp.arena.length]
    omega
  have hn₁ := hn.spent hs hsp hd
  have hnode := run_nodeAt hfits hg.aligned
  have hcheck : ¬ kind.capacity < keys.length := not_lt.mpr hs.2
  rw [growNode, bind_ok (run_nodeAt hsrc hal), bind_ok (run_loadByte _ _), hn.1]
  simp only [if_neg hcheck]
  cases kind with
  | node4 =>
    have hcopy := grow4_copy hn₁ hs hsrc₁ hfits hdd
    obtain ⟨hch, hstands⟩ := hcopy.count hfits (hs.2.trans (by decide))
    refine ⟨_, ?_, hsp.write ha.clear hch hblock, hstands⟩
    dsimp only
    rw [bind_ok (show allocZeroed ix SlotKind.node16.size s = .ok dst s₁ from hrun),
      bind_ok (show nodeAt dst SlotKind.node16.size s₁ = .ok () s₁ from hnode), bind_ok (run_update _ _),
      bind_ok (run_update _ _), bind_ok (run_storeByte _ _ _)]
    exact run_newPtr hg.aligned .node16
  | node16 =>
    obtain ⟨s₂, hloop, hf⟩ := grow16_loop hn₁ hs hfits hdd hzero
    obtain ⟨hch, hstands⟩ := hf.count hfits (hs.2.trans (by decide))
    have hspent := hsp.write ha.clear hch hblock
    rw [← hf.free] at hspent
    refine ⟨_, ?_, hspent, hstands⟩
    dsimp only
    rw [bind_ok (show allocZeroed ix SlotKind.node48.size s = .ok dst s₁ from hrun),
      bind_ok (show nodeAt dst SlotKind.node48.size s₁ = .ok () s₁ from hnode), bind_ok hloop,
      bind_ok (run_storeByte _ _ _)]
    exact run_newPtr hg.aligned .node48
  | node48 =>
    obtain ⟨s₂, hloop, hf⟩ := grow48_loop hn₁ hs habsent hfits hdd hzero
    have hlen : dst + 2 ≤ s₂.mem.length := by
      have hsize : 2 ≤ node256Size := by decide
      have hfits' : dst + node256Size ≤ s₁.mem.length := hfits
      rw [hf.changes.length_eq]
      omega
    have hch := changesOnly_writeU16 hlen keys.length
    have hall : ChangesOnly (Ico dst (dst + node256Size)) s₁.mem (writeU16 s₂.mem dst keys.length) :=
      (hf.changes.mono (Ico_subset_Ico (by omega) le_rfl)).trans 
        (hch.mono (Ico_subset_Ico le_rfl (Nat.add_le_add_left (by decide) dst)))
    have hspent := hsp.write ha.clear hall hblock
    rw [← hf.free] at hspent
    refine ⟨_, ?_, hspent, readU16_writeU16_self hlen (hs.2.trans_lt (by decide)), fun c ↦ ?_⟩
    · dsimp only
      rw [bind_ok (show allocZeroed ix node256Size s = .ok dst s₁ from hrun),
        bind_ok (show nodeAt dst node256Size s₁ = .ok () s₁ from hnode), bind_ok hloop,
        bind_ok (run_storeU16 _ _ _)]
      exact run_newPtr hg.aligned .node256
    · rw [hch.readU32 (disjoint_Ico (.inr (by simp only [child256]; omega))), hf.children c,
        if_pos c.toNat_lt]

theorem run_growNode_none (ha : Arena ix limit s h) (hn : NodeAt s.mem off raws (.slots kind keys))
    (hs : (Shape.slots kind keys).Sound) (hfit : off + kind.size ≤ limit) (hal : off % 8 = 0)
    (halloc : h.alloc limit (Shape.slots kind keys).grow.size = none) :
    growNode ix kind off s = .error (.error .outOfMemory) s := by
  have hrun := run_allocZeroed_none ha halloc
  have hsrc : off + kind.size ≤ s.mem.length := ha.length ▸ hfit
  have hcheck : ¬ kind.capacity < keys.length := not_lt.mpr hs.2
  rw [growNode, bind_ok (run_nodeAt hsrc hal), bind_ok (run_loadByte _ _), hn.1]
  simp only [if_neg hcheck]
  cases kind with
  | node4 => exact bind_error hrun
  | node16 => exact bind_error hrun
  | node48 => exact bind_error hrun

end TakyonDb.Art
