import TakyonDb.Lib.Slices
import TakyonDb.StringField
import TakyonDb.VacuumCollect

namespace TakyonDb.Vacuum

open Lib Layout Art Proxy Set

variable {mem mem' : Bytes} {r : Regions} {ix : ArtIndex} {root : Tree}

/-- The addresses of the declared string fields, in the order of the pass. -/
def fields (records offsets : List UInt32) : List ℕ :=
  offsets.flatMap fun off ↦ records.map fun record ↦ record.toNat + off.toNat

theorem fields_nil (offsets : List UInt32) : fields [] offsets = [] := by
  induction offsets with
  | nil => rfl
  | cons off offsets ih => simp [fields]

/-- The string that a fat pointer names, where the collector takes it for live. -/
def liveAt (mem : Bytes) (a : ℕ) : Option LiveString :=
  if mem.length < a + 8 ∨ readU32 mem a = 0 ∨ readU32 mem (a + 4) = 0 ∨
    mem.length < readU32 mem a + readU32 mem (a + 4) then none
  else some ⟨a, readU32 mem a, readU32 mem (a + 4)⟩

def liveStrings (mem : Bytes) (addrs : List ℕ) : List LiveString := addrs.filterMap (liveAt mem)

def totalLen (live : List LiveString) : ℕ := (live.map LiveString.len).sum

theorem liveAt_eq_some {a : ℕ} {s : LiveString} : liveAt mem a = some s ↔
    s = ⟨a, readU32 mem a, readU32 mem (a + 4)⟩ ∧ a + 8 ≤ mem.length ∧ s.offset ≠ 0 ∧ s.len ≠ 0 ∧
      s.offset + s.len ≤ mem.length := by
  rw [liveAt]
  split_ifs with h
  · constructor
    · intro hs
      cases hs
    · rintro ⟨rfl, ha, hoff, hlen, hfit⟩
      simp only at hoff hlen hfit
      omega
  · constructor
    · intro hs
      obtain rfl := Option.some.inj hs
      simp only [true_and]
      omega
    · intro hs
      exact congrArg some hs.1.symm

theorem totalLen_append (xs ys : List LiveString) : totalLen (xs ++ ys) = totalLen xs + totalLen ys := by
  simp [totalLen]

theorem gatherColumn_eq {off : UInt32} : ∀ {records : List UInt32} {total : ℕ} {live : List LiveString},
    total + totalLen (liveStrings mem (records.map fun record ↦ record.toNat + off.toNat)) ≤ mem.length →
    gatherColumn mem off records (total, live) =
      (total + totalLen (liveStrings mem (records.map fun record ↦ record.toNat + off.toNat)),
        live ++ liveStrings mem (records.map fun record ↦ record.toNat + off.toNat))
  | [], total, live, _ => by simp [gatherColumn, liveStrings, totalLen]
  | record :: records, total, live, htotal => by
    simp only [liveStrings, List.map_cons, List.filterMap_cons] at htotal ⊢
    cases hs : liveAt mem (record.toNat + off.toNat) with
    | none =>
      have hskip : gatherColumn mem off (record :: records) (total, live) =
          gatherColumn mem off records (total, live) := by
        rw [liveAt] at hs
        split_ifs at hs with h
        rw [gatherColumn]
        split_ifs with h₁ h₂ h₃ h₄
        · rfl
        · rfl
        · rfl
        · omega
        · omega
      simp only [hs] at htotal
      rw [hskip]
      exact gatherColumn_eq htotal
    | some s =>
      obtain ⟨rfl, ha, hoff, hlen, hfit⟩ := liveAt_eq_some.mp hs
      simp only [hs, totalLen, List.map_cons, List.sum_cons] at htotal
      simp only at hoff hlen hfit
      rw [gatherColumn]
      simp only
      rw [if_neg (by omega), if_neg (by omega), if_neg (by omega), if_neg (by omega),
        gatherColumn_eq (by simp only [liveStrings, totalLen]; omega)]
      simp only [liveStrings, totalLen, List.map_cons, List.sum_cons, List.append_assoc, List.singleton_append,
        Nat.add_assoc]

theorem gatherLive_eq {records offsets : List UInt32}
    (htotal : totalLen (liveStrings mem (fields records offsets)) ≤ mem.length) :
    gatherLive mem records offsets =
      (totalLen (liveStrings mem (fields records offsets)), liveStrings mem (fields records offsets)) := by
  have hfold : ∀ (offsets : List UInt32) (total : ℕ) (live : List LiveString),
      total + totalLen (liveStrings mem (fields records offsets)) ≤ mem.length →
      offsets.foldl (fun found off ↦ gatherColumn mem off records found) (total, live) =
        (total + totalLen (liveStrings mem (fields records offsets)),
          live ++ liveStrings mem (fields records offsets)) := by
    intro offsets
    induction offsets with
    | nil =>
      intro total live _
      simp [fields, liveStrings, totalLen]
    | cons off offsets ih =>
      intro total live hle
      simp only [fields, liveStrings, List.flatMap_cons, List.filterMap_append, totalLen_append] at hle ih ⊢
      rw [List.foldl_cons, gatherColumn_eq (by simp only [liveStrings]; omega), liveStrings, ih _ _ (by omega)]
      simp only [List.append_assoc, Nat.add_assoc]
  simpa only [gatherLive, Nat.zero_add, List.nil_append] using hfold offsets 0 [] (by omega)

def pointers (addrs : List ℕ) : Set ℕ := {i | ∃ a ∈ addrs, i ∈ Ico a (a + 8)}

/-- The fields at the addresses: eight bytes each in the record region that no other field shares,
and no string that one of them names covers a field. -/
structure Declared (mem : Bytes) (r : Regions) (addrs : List ℕ) : Prop where
  inside : ∀ a ∈ addrs, r.recordStart.toNat ≤ a ∧ a + 8 ≤ r.recordEnd
  apart : ∀ a ∈ addrs, ∀ b ∈ addrs, a = b ∨ a + 8 ≤ b ∨ b + 8 ≤ a
  clear : ∀ a ∈ addrs, ∀ s, liveAt mem a = some s → Disjoint (Ico s.offset (s.offset + s.len)) (pointers addrs)
  zero : ∀ a ∈ addrs, readU32 mem a = 0 → readU32 mem (a + 4) = 0

theorem readU64_eq {a : ℕ} (h : a + 8 ≤ mem.length) :
    readU64 mem a = readU32 mem (a + 4) * 2 ^ 32 + readU32 mem a := by
  have hsplit : slice mem a 8 = slice mem a 4 ++ slice mem (a + 4) 4 := by
    simp only [slice, ← List.drop_drop]
    exact List.take_add (i := 4) (j := 4)
  have hlen : (slice mem a 4).length = 4 := length_slice (by omega)
  rw [readU64, hsplit, leDecode_append, hlen]
  simp only [readU32]
  omega

theorem readU64_writeU64_self {a n : ℕ} (h : a + 8 ≤ mem.length) (hn : n < 2 ^ 64) :
    readU64 (writeU64 mem a n) a = n := by
  have hslice : slice (writeU64 mem a n) a (leEncode 8 n).length = leEncode 8 n :=
    slice_overwrite_self (by rwa [length_leEncode])
  rw [length_leEncode] at hslice
  rw [readU64, hslice, leDecode_leEncode_of_lt (by omega)]

theorem changesOnly_writeU64 {a : ℕ} (h : a + 8 ≤ mem.length) (n : ℕ) :
    ChangesOnly (Ico a (a + 8)) mem (writeU64 mem a n) := by
  have hfit : a + (leEncode 8 n).length ≤ mem.length := by rwa [length_leEncode]
  have hch := changesOnly_overwrite hfit
  rwa [length_leEncode] at hch

/-- The pointer of a string swings if and only if its offset is still there. -/
theorem swizzle_spec {s : LiveString} {new : ℕ} (hfit : s.fatAddr + 8 ≤ mem.length)
    (hlen : readU32 mem (s.fatAddr + 4) = s.len) (hnew : new < 2 ^ 32) :
    (readU32 mem s.fatAddr ≠ s.offset ∧ swizzle mem s new = none) ∨
      ∃ m, swizzle mem s new = some m ∧ ChangesOnly (Ico s.fatAddr (s.fatAddr + 8)) mem m ∧
        readU32 m s.fatAddr = new ∧ readU32 m (s.fatAddr + 4) = s.len := by
  have hlt := readU32_lt mem s.fatAddr
  have hltLen := readU32_lt mem (s.fatAddr + 4)
  rw [hlen] at hltLen
  by_cases hal : s.fatAddr % 8 = 0
  · have hword := readU64_eq hfit
    rw [hlen] at hword
    by_cases heq : readU32 mem s.fatAddr = s.offset
    · right
      have hch := changesOnly_writeU64 hfit (s.len * 2 ^ 32 + new)
      have hself := readU64_writeU64_self hfit (n := s.len * 2 ^ 32 + new) (by omega)
      rw [readU64_eq (by rwa [hch.length_eq])] at hself
      have hlt' := readU32_lt (writeU64 mem s.fatAddr (s.len * 2 ^ 32 + new)) s.fatAddr
      refine ⟨_, by rw [swizzle, if_pos hal, if_pos (by omega)], hch, ?_, ?_⟩
      · omega
      · omega
    · left
      refine ⟨heq, ?_⟩
      rw [swizzle, if_pos hal, if_neg (by omega)]
  · by_cases heq : readU32 mem s.fatAddr = s.offset
    · right
      have hfit4 : s.fatAddr + 4 ≤ mem.length := by omega
      have hch := changesOnly_writeU32 hfit4 new
      refine ⟨_, by rw [swizzle, if_neg hal, if_pos ⟨heq, hlen⟩], hch.mono ?_, ?_, ?_⟩
      · exact Ico_subset_Ico_right (by omega)
      · exact readU32_writeU32_self (by omega) hnew
      · rw [hch.readU32 (disjoint_Ico (by omega)), hlen]
    · left
      refine ⟨heq, ?_⟩
      rw [swizzle, if_neg hal, if_neg fun h ↦ heq h.1]

/-- The state of the second pass once it handled the strings `handled`: no byte but the pointers has
changed, and each pointer either waits or names its bytes in the buffer. -/
structure Compacted (mem : Bytes) (addrs : List ℕ) (dstBank : ℕ) (handled : List LiveString)
    (c : Compaction) : Prop where
  changes : ChangesOnly (pointers addrs) mem c.mem
  length_temp : c.temp.length = totalLen handled
  len : ∀ a ∈ addrs, readU32 c.mem (a + 4) = readU32 mem (a + 4)
  pointer : ∀ a ∈ addrs, (readU32 c.mem a = readU32 mem a ∧ ∀ s ∈ handled, s.fatAddr ≠ a) ∨
    ∃ t, (∃ s ∈ handled, s.fatAddr = a) ∧ readU32 c.mem a = dstBank + t ∧ t + readU32 mem (a + 4) ≤ c.temp.length ∧
      slice c.temp t (readU32 mem (a + 4)) = slice mem (readU32 mem a) (readU32 mem (a + 4))

theorem mem_liveStrings {addrs : List ℕ} {s : LiveString} :
    s ∈ liveStrings mem addrs ↔ s.fatAddr ∈ addrs ∧ liveAt mem s.fatAddr = some s := by
  rw [liveStrings, List.mem_filterMap]
  constructor
  · intro h
    obtain ⟨a, ha, hs⟩ := h
    obtain ⟨rfl, _⟩ := liveAt_eq_some.mp hs
    exact ⟨ha, hs⟩
  · intro h
    exact ⟨_, h.1, h.2⟩

section

variable {addrs : List ℕ} {dstBank : ℕ} {handled : List LiveString} {c c' : Compaction}
  {s : LiveString}

theorem Compacted.start (mem : Bytes) (addrs : List ℕ)
    (dstBank : ℕ) : Compacted mem addrs dstBank [] ⟨mem, [], []⟩ where
  changes := .rfl'
  length_temp := rfl
  len _ _ := rfl
  pointer _ _ := .inl ⟨rfl, fun _ hs ↦ absurd hs List.not_mem_nil⟩

/-- The bytes that are copied are those the string had before the pass. -/
theorem Compacted.copied (hc : Compacted mem addrs dstBank handled c) (hd : Declared mem r addrs)
    (hs : s ∈ liveStrings mem addrs) : slice c.mem s.offset s.len = slice mem s.offset s.len := by
  obtain ⟨ha, hlive⟩ := mem_liveStrings.mp hs
  exact hc.changes.slice (hd.clear _ ha _ hlive)

theorem Compacted.step (hc : Compacted mem addrs dstBank handled c) (hd : Declared mem r addrs)
    (hs : s ∈ liveStrings mem addrs) (hstep : relocate dstBank c s = some c') :
    Compacted mem addrs dstBank (handled ++ [s]) c' := by
  obtain ⟨ha, hlive⟩ := mem_liveStrings.mp hs
  obtain ⟨heq, hfit, _, hpos, hin⟩ := liveAt_eq_some.mp hlive
  have hoffset : s.offset = readU32 mem s.fatAddr := congrArg LiveString.offset heq
  have hlen : s.len = readU32 mem (s.fatAddr + 4) := congrArg LiveString.len heq
  have hcopied := hc.copied hd hs
  have hsize : (slice mem s.offset s.len).length = s.len := length_slice hin
  have hfit' : s.fatAddr + 8 ≤ c.mem.length := by rwa [hc.changes.length_eq]
  have hlen' : readU32 c.mem (s.fatAddr + 4) = s.len := by rw [hc.len _ ha, hlen]
  have htotal : totalLen (handled ++ [s]) = totalLen handled + s.len := by simp [totalLen]
  have hkeep : ∀ t n, t + n ≤ c.temp.length →
      slice (c.temp ++ slice mem s.offset s.len) t n = slice c.temp t n := fun t n h ↦ slice_append_left h
  have hnew : slice (c.temp ++ slice mem s.offset s.len) c.temp.length s.len = slice mem s.offset s.len := by
    rw [slice_append_right rfl, List.take_of_length_le hsize.le]
  rw [relocate, hcopied] at hstep
  split_ifs at hstep with hfits
  rcases swizzle_spec hfit' hlen' (not_le.mp hfits) with ⟨hmoved, hnone⟩ | ⟨m, hsome, hch, hword, hword'⟩
  · -- the pointer has swung before: this field was handled under another key
    rw [hnone] at hstep
    obtain rfl := Option.some.inj hstep
    refine ⟨hc.changes, ?_, hc.len, ?_⟩
    · simp only [List.length_append, hsize, hc.length_temp, htotal]
    · intro a ha'
      rcases hc.pointer a ha' with ⟨hword, hwaits⟩ | ⟨t, ⟨s', hs', hfat⟩, hword, hroom, hbytes⟩
      · left
        refine ⟨hword, ?_⟩
        intro s' hs'
        rcases List.mem_append.mp hs' with hold | hlast
        · exact hwaits s' hold
        · rw [List.mem_singleton.mp hlast]
          intro hfat
          exact hmoved (by rw [hfat, hword, hoffset, hfat])
      · right
        refine ⟨t, ⟨s', List.mem_append_left _ hs', hfat⟩, hword, ?_, ?_⟩
        · simp only [List.length_append]
          omega
        · rw [hkeep t _ hroom, hbytes]
  · rw [hsome] at hstep
    obtain rfl := Option.some.inj hstep
    have hsub : Ico s.fatAddr (s.fatAddr + 8) ⊆ pointers addrs := fun i hi ↦ ⟨_, ha, hi⟩
    refine ⟨hc.changes.trans (hch.mono hsub), ?_, ?_, ?_⟩
    · simp only [List.length_append, hsize, hc.length_temp, htotal]
    · intro a ha'
      rcases hd.apart a ha' s.fatAddr ha with rfl | hapart
      · rw [hword', hlen]
      · rw [hch.readU32 (disjoint_Ico (by omega)), hc.len a ha']
    · intro a ha'
      rcases hd.apart a ha' s.fatAddr ha with rfl | hapart
      · right
        refine ⟨c.temp.length, ⟨s, List.mem_append_right _ (List.mem_singleton_self s), rfl⟩, hword, ?_, ?_⟩
        · simp only [List.length_append, hsize, ← hlen, le_refl]
        · rw [← hlen, hnew, hoffset]
      · have hsame : readU32 m a = readU32 c.mem a := hch.readU32 (disjoint_Ico (by omega))
        rcases hc.pointer a ha' with ⟨hword, hwaits⟩ | ⟨t, ⟨s', hs', hfat⟩, hword, hroom, hbytes⟩
        · left
          refine ⟨hsame.trans hword, ?_⟩
          intro s' hs'
          rcases List.mem_append.mp hs' with hold | hlast
          · exact hwaits s' hold
          · obtain rfl := List.mem_singleton.mp hlast
            omega
        · right
          refine ⟨t, ⟨s', List.mem_append_left _ hs', hfat⟩, hsame.trans hword, ?_, ?_⟩
          · simp only [List.length_append]
            omega
          · rw [hkeep t _ hroom, hbytes]

theorem Compacted.run (hd : Declared mem r addrs) : ∀ {live handled : List LiveString} {c c' : Compaction},
    Compacted mem addrs dstBank handled c → (∀ s ∈ live, s ∈ liveStrings mem addrs) →
    live.foldlM (relocate dstBank) c = some c' → Compacted mem addrs dstBank (handled ++ live) c'
  | [], handled, c, c', hc, _, hrun => by
    obtain rfl := Option.some.inj hrun
    rwa [List.append_nil]
  | s :: live, handled, c, c', hc, hlive, hrun => by
    rw [List.foldlM_cons] at hrun
    obtain ⟨c₁, hstep, hrest⟩ := Option.bind_eq_some_iff.mp hrun
    have hc₁ := hc.step hd (hlive s List.mem_cons_self) hstep
    have hrun' := Compacted.run hd hc₁ (fun s' hs' ↦ hlive s' (List.mem_cons_of_mem _ hs')) hrest
    rwa [List.append_assoc, List.singleton_append] at hrun'

/-- The second pass goes through where every new offset fits its word. -/
theorem exists_compaction : ∀ {live : List LiveString} {c : Compaction},
    dstBank + c.temp.length + totalLen live < 2 ^ 32 → ∃ c', live.foldlM (relocate dstBank) c = some c'
  | [], c, _ => ⟨c, rfl⟩
  | s :: live, c, hfits => by
    have hsize := length_slice_le c.mem s.offset s.len
    simp only [totalLen, List.map_cons, List.sum_cons] at hfits
    have hstep : ∃ c₁, relocate dstBank c s = some c₁ ∧ c₁.temp = c.temp ++ slice c.mem s.offset s.len := by
      rw [relocate, if_neg (by omega)]
      cases swizzle c.mem s (dstBank + c.temp.length) with
      | none => exact ⟨_, rfl, rfl⟩
      | some m => exact ⟨_, rfl, rfl⟩
    obtain ⟨c₁, hstep, htemp⟩ := hstep
    have hrest : ∃ c', live.foldlM (relocate dstBank) c₁ = some c' := by
      refine exists_compaction ?_
      simp only [htemp, List.length_append, totalLen]
      omega
    obtain ⟨c', hrest⟩ := hrest
    exact ⟨c', by rw [List.foldlM_cons, hstep, Option.bind_eq_bind, Option.bind_some, hrest]⟩

end

/-- The fields still read their strings, which lie in the string region below its bump, and the
record region holds what it held but for the pointers. -/
structure Kept (r : Regions) (addrs : List ℕ) (mem mem' : Bytes) : Prop where
  reads : ∀ a ∈ addrs, readString mem' a = readString mem a
  placed : ∀ a ∈ addrs, ∀ s, liveAt mem' a = some s → r.stringStart.toNat ≤ s.offset ∧ s.offset + s.len ≤ r.stringEnd
  bump : r.stringStart.toNat ≤ readU32 mem' r.stringStart.toNat ∧ readU32 mem' r.stringStart.toNat < r.stringEnd
  past : ∀ a ∈ addrs, ∀ s, liveAt mem' a = some s → s.offset + s.len ≤ readU32 mem' r.stringStart.toNat
  record : ∀ i, r.recordStart.toNat ≤ i → i < r.recordEnd → i ∉ pointers addrs → mem'[i]? = mem[i]?

/-- A pass fails and leaves the arena as it was, or it relocates the declared strings and nothing else. -/
def RelocatesExactly (r : Regions) (addrs : List ℕ) (mem : Bytes) : Pass → Prop
  | .failed _ mem' => mem' = mem
  | .aborted => False
  | .done mem' _ => Kept r addrs mem mem'

def bankSize (r : Regions) : ℕ := r.stringBytes.toNat / 2

/-- Where the bank starts that the bump does not point into. -/
def freeBank (r : Regions) (mem : Bytes) : ℕ :=
  if r.stringDataStart + bankSize r ≤ readU32 mem r.stringStart.toNat then r.stringDataStart
  else r.stringDataStart + bankSize r

/-- The pass has nothing to move, refuses to, or ends before the region does. -/
def HasRoom (r : Regions) (addrs : List ℕ) (mem : Bytes) : Prop :=
  mem.length < minArenaForVacuum ∨ totalLen (liveStrings mem addrs) = 0 ∨
    bankSize r < totalLen (liveStrings mem addrs) ∨ freeBank r mem + totalLen (liveStrings mem addrs) < r.stringEnd

theorem stringDataStart_le_freeBank (r : Regions) (mem : Bytes) : r.stringDataStart ≤ freeBank r mem := by
  rw [freeBank]
  split_ifs <;> omega

theorem len_le_totalLen {live : List LiveString} {s : LiveString} (hs : s ∈ live) : s.len ≤ totalLen live := by
  obtain ⟨xs, ys, rfl⟩ := List.append_of_mem hs
  simp only [totalLen, List.map_append, List.map_cons, List.sum_append, List.sum_cons]
  omega

theorem totalLen_eq_zero {addrs : List ℕ} : totalLen (liveStrings mem addrs) = 0 ↔ liveStrings mem addrs = [] := by
  constructor
  · intro h
    refine List.eq_nil_iff_forall_not_mem.mpr ?_
    intro s hs
    have hle := len_le_totalLen hs
    obtain ⟨_, _, _, hpos, _⟩ := liveAt_eq_some.mp (mem_liveStrings.mp hs).2
    omega
  · intro h
    rw [h]
    rfl

theorem compact_eq (r : Regions) (mem : Bytes) (total : ℕ) (live : List LiveString) (hbytes : 8 ≤ r.stringBytes.toNat) :
    compact r mem total live =
      if bankSize r < total then .failed .outOfMemory mem
      else compactInto r mem live (freeBank r mem) := by
  have hregion : r.stringDataStart + r.stringBytes.toNat - r.stringDataStart = r.stringBytes.toNat := by omega
  have hbank : ¬ r.stringBytes.toNat / 2 = 0 := by omega
  rw [compact, hregion]
  exact if_neg hbank

/-- The branches of a pass, where the lengths of the strings that it sums add up to no more than the arena. -/
theorem runVacuumOnceMulti_eq {offsets : List UInt32} (hr : Valid r mem.length) (hix : Indexes mem ix root)
    (htotal : minArenaForVacuum ≤ mem.length → totalLen (liveStrings mem (fields root.values offsets)) ≤ mem.length) :
    runVacuumOnceMulti ix r offsets mem =
      if mem.length < minArenaForVacuum then .failed .arenaTooSmall mem
      else if totalLen (liveStrings mem (fields root.values offsets)) = 0 then .done mem []
      else if bankSize r < totalLen (liveStrings mem (fields root.values offsets)) then .failed .outOfMemory mem
      else compactInto r mem (liveStrings mem (fields root.values offsets)) (freeBank r mem) := by
  have hstop := hr.stringEnd_le
  have hbytes := hr.string_bytes
  have hend : r.stringEnd = r.stringStart.toNat + r.stringBytes.toNat := rfl
  have hdata : r.stringDataStart = r.stringStart.toNat + 8 := rfl
  have hcompact := compact_eq r mem (totalLen (liveStrings mem (fields root.values offsets)))
    (liveStrings mem (fields root.values offsets)) hbytes
  rw [runVacuumOnceMulti, hix.liveRecords]
  by_cases hsmall : mem.length < minArenaForVacuum
  · rw [if_pos hsmall, if_pos hsmall]
  have htotal := htotal (not_lt.mp hsmall)
  rw [if_neg hsmall, if_neg (by omega), if_neg (by omega), if_neg hsmall]
  by_cases hzero : totalLen (liveStrings mem (fields root.values offsets)) = 0
  · rw [if_pos hzero]
    cases hvalues : root.values with
    | nil => rfl
    | cons record records => simp only [← hvalues, gatherLive_eq htotal, totalLen_eq_zero.mp hzero]
  · rw [if_neg hzero, ← hcompact]
    cases hvalues : root.values with
    | nil => exact absurd (by rw [hvalues, fields_nil]; rfl) hzero
    | cons record records =>
      cases hlive : liveStrings mem (fields root.values offsets) with
      | nil => exact absurd (totalLen_eq_zero.mpr hlive) hzero
      | cons s live => simp only [← hvalues, gatherLive_eq htotal, hlive]

section

variable {addrs : List ℕ} {dstBank : ℕ} {c : Compaction}

/-- The arena after the buffer is copied to its bank and the bump has swung. -/
def published (r : Regions) (dstBank : ℕ) (c : Compaction) : Bytes :=
  writeU32 (overwrite c.mem dstBank c.temp) r.stringStart.toNat (dstBank + c.temp.length)

theorem publish_eq (hin : dstBank + c.temp.length ≤ c.mem.length) (hword : dstBank + c.temp.length < 2 ^ 32) :
    publish r dstBank c = .done (published r dstBank c) c.relocated := by
  rw [publish, if_neg (by omega), if_neg (by omega), published]

theorem changesOnly_published (hfit : r.stringDataStart ≤ c.mem.length) (hin : dstBank + c.temp.length ≤ c.mem.length) :
    ChangesOnly (Ico r.stringStart.toNat r.stringDataStart ∪ Ico dstBank (dstBank + c.temp.length)) c.mem
      (published r dstBank c) := by
  have hdata : r.stringDataStart = r.stringStart.toNat + 8 := rfl
  have hcopy := changesOnly_overwrite hin
  have hword : r.stringStart.toNat + 4 ≤ (overwrite c.mem dstBank c.temp).length := by
    rw [hcopy.length_eq]
    omega
  refine (hcopy.mono subset_union_right).trans ((changesOnly_writeU32 hword _).mono ?_)
  intro i hi
  left
  exact ⟨hi.1, by have := hi.2; omega⟩

theorem published_bump (hfit : r.stringDataStart ≤ c.mem.length) (hin : dstBank + c.temp.length ≤ c.mem.length)
    (hword : dstBank + c.temp.length < 2 ^ 32) :
    readU32 (published r dstBank c) r.stringStart.toNat = dstBank + c.temp.length := by
  have hdata : r.stringDataStart = r.stringStart.toNat + 8 := rfl
  refine readU32_writeU32_self ?_ hword
  rw [length_overwrite hin]
  omega

theorem slice_published {t n : ℕ} (hfit : r.stringDataStart ≤ dstBank) (hin : dstBank + c.temp.length ≤ c.mem.length)
    (ht : t + n ≤ c.temp.length) : slice (published r dstBank c) (dstBank + t) n = slice c.temp t n := by
  have hdata : r.stringDataStart = r.stringStart.toNat + 8 := rfl
  have hword : r.stringStart.toNat + 4 ≤ (overwrite c.mem dstBank c.temp).length := by
    rw [length_overwrite hin]
    omega
  rw [published, (changesOnly_writeU32 hword _).slice (disjoint_Ico (by omega))]
  apply List.ext_getElem?
  intro i
  rw [getElem?_slice, getElem?_slice, getElem?_overwrite hin]
  split_ifs with hi hout
  · congr 1
    omega
  · omega
  · rfl

/-- The fields of the published arena: a live one names its old bytes in the bank, any other is as it was. -/
theorem Compacted.field (hc : Compacted mem addrs dstBank (liveStrings mem addrs) c) (hr : Valid r mem.length)
    (hd : Declared mem r addrs) (hbank : r.stringDataStart ≤ dstBank) (hin : dstBank + c.temp.length ≤ mem.length)
    {a : ℕ}
    (ha : a ∈ addrs) :
    readU32 (published r dstBank c) (a + 4) = readU32 mem (a + 4) ∧
      ((liveAt mem a = none ∧ readU32 (published r dstBank c) a = readU32 mem a) ∨
        ∃ t, readU32 (published r dstBank c) a = dstBank + t ∧ t + readU32 mem (a + 4) ≤ c.temp.length ∧
          liveAt mem a = some ⟨a, readU32 mem a, readU32 mem (a + 4)⟩ ∧
          slice (published r dstBank c) (dstBank + t) (readU32 mem (a + 4)) =
            slice mem (readU32 mem a) (readU32 mem (a + 4))) := by
  have hdata : r.stringDataStart = r.stringStart.toNat + 8 := rfl
  have hend : r.stringEnd = r.stringStart.toNat + r.stringBytes.toNat := rfl
  have hart : r.artEnd = r.artRoot.toNat + r.artBytes.toNat := rfl
  have hrecord := hr.recordEnd_le
  have hindex := hr.artEnd_le
  have hstop := hr.stringEnd_le
  have hbytes := hr.string_bytes
  have hinside := hd.inside a ha
  have hlength := hc.changes.length_eq
  have hch : ChangesOnly (Ico r.stringStart.toNat r.stringDataStart ∪ Ico dstBank (dstBank + c.temp.length)) c.mem
      (published r dstBank c) := changesOnly_published (by omega) (by omega)
  have hclear : ∀ b, b + 4 ≤ a + 8 →
      Disjoint (Ico b (b + 4)) (Ico r.stringStart.toNat r.stringDataStart ∪ Ico dstBank (dstBank + c.temp.length)) :=
    fun b hb ↦ disjoint_union_right.mpr ⟨disjoint_Ico (by omega), disjoint_Ico (by omega)⟩
  refine ⟨(hch.readU32 (hclear _ (by omega))).trans (hc.len a ha), ?_⟩
  rw [hch.readU32 (hclear _ (by omega))]
  rcases hc.pointer a ha with ⟨hword, hwaits⟩ | ⟨t, ⟨s, hs, rfl⟩, hword, hroom, hcopied⟩
  · left
    refine ⟨?_, hword⟩
    cases hlive : liveAt mem a with
    | none => rfl
    | some s =>
      obtain ⟨rfl, _⟩ := liveAt_eq_some.mp hlive
      have hmem : ⟨a, readU32 mem a, readU32 mem (a + 4)⟩ ∈ liveStrings mem addrs := mem_liveStrings.mpr ⟨ha, hlive⟩
      exact absurd rfl (hwaits _ hmem)
  · right
    obtain ⟨_, hlive⟩ := mem_liveStrings.mp hs
    obtain ⟨heq, _⟩ := liveAt_eq_some.mp hlive
    refine ⟨t, hword, hroom, ?_, ?_⟩
    · rw [hlive, ← heq]
    · rw [slice_published hbank (by omega) hroom, hcopied]

/-- A field that the collector does not take for live reads the same wherever the strings are. -/
theorem readString_of_not_live {a : ℕ} (hlive : liveAt mem a = none) (hfit : a + 8 ≤ mem.length)
    (hzero : readU32 mem a = 0 → readU32 mem (a + 4) = 0) (hlength : mem'.length = mem.length)
    (hoff : readU32 mem' a = readU32 mem a) (hlen : readU32 mem' (a + 4) = readU32 mem (a + 4)) :
    readString mem' a = readString mem a ∧ liveAt mem' a = none := by
  rw [readString, readString, liveAt, hoff, hlen, hlength]
  rw [liveAt] at hlive
  split_ifs at hlive with hdead
  refine ⟨?_, if_pos hdead⟩
  split_ifs with hunset hout
  · rfl
  · rfl
  · have hempty : readU32 mem (a + 4) = 0 := by omega
    rw [hempty]
    simp [slice]

theorem Compacted.kept (hc : Compacted mem addrs dstBank (liveStrings mem addrs) c) (hr : Valid r mem.length)
    (hd : Declared mem r addrs) (hbank : r.stringDataStart ≤ dstBank) (hroom : dstBank + c.temp.length < r.stringEnd) :
    Kept r addrs mem (published r dstBank c) := by
  have hdata : r.stringDataStart = r.stringStart.toNat + 8 := rfl
  have hend : r.stringEnd = r.stringStart.toNat + r.stringBytes.toNat := rfl
  have hart : r.artEnd = r.artRoot.toNat + r.artBytes.toNat := rfl
  have hrecord := hr.recordEnd_le
  have hindex := hr.artEnd_le
  have hstop := hr.stringEnd_le
  have harena := hr.arena
  have hlt := r.arenaBytes.toNat_lt
  have hin : dstBank + c.temp.length ≤ mem.length := by omega
  have hlength := hc.changes.length_eq
  have hch : ChangesOnly (Ico r.stringStart.toNat r.stringDataStart ∪ Ico dstBank (dstBank + c.temp.length)) c.mem
      (published r dstBank c) := changesOnly_published (by omega) (by omega)
  have hlength' : (published r dstBank c).length = mem.length := hch.length_eq.trans hlength
  have hbump : readU32 (published r dstBank c) r.stringStart.toNat = dstBank + c.temp.length :=
    published_bump (by omega) (by omega) (by omega)
  have hlive : ∀ a ∈ addrs, ∀ s, liveAt (published r dstBank c) a = some s →
      dstBank ≤ s.offset ∧ s.offset + s.len ≤ dstBank + c.temp.length := by
    intro a ha s hs
    have hinside := hd.inside a ha
    obtain ⟨hlen, ⟨hnone, hoff⟩ | ⟨t, hoff, hfits, _, _⟩⟩ := hc.field hr hd hbank hin ha
    · have hdead := (readString_of_not_live hnone (by omega) (hd.zero a ha) hlength' hoff hlen).2
      rw [hdead] at hs
      cases hs
    · obtain ⟨rfl, _⟩ := liveAt_eq_some.mp hs
      simp only [hoff, hlen]
      omega
  refine ⟨?_, ?_, ?_, ?_, ?_⟩
  · intro a ha
    have hinside := hd.inside a ha
    obtain ⟨hlen, ⟨hnone, hoff⟩ | ⟨t, hoff, hfits, hsome, hbytes⟩⟩ := hc.field hr hd hbank hin ha
    · exact (readString_of_not_live hnone (by omega) (hd.zero a ha) hlength' hoff hlen).1
    · obtain ⟨_, _, hne, hpos, hold⟩ := liveAt_eq_some.mp hsome
      simp only at hne hpos hold
      rw [readString, readString, hoff, hlen, hlength']
      rw [if_neg (by omega), if_neg (by omega), if_neg (by omega), if_neg (by omega), hbytes]
  · intro a ha s hs
    have := hlive a ha s hs
    omega
  · rw [hbump]
    omega
  · intro a ha s hs
    rw [hbump]
    exact (hlive a ha s hs).2
  · intro i hlow hhigh hi
    have hout : i ∉ Ico r.stringStart.toNat r.stringDataStart ∪ Ico dstBank (dstBank + c.temp.length) := by
      intro h
      rcases h with h | h
      · have := h.1
        omega
      · have := h.1
        omega
    exact (hch.getElem?_eq i hout).trans (hc.changes.getElem?_eq i hi)

theorem kept_self (hlive : liveStrings mem addrs = [])
    (hbump : r.stringStart.toNat ≤ readU32 mem r.stringStart.toNat ∧ readU32 mem r.stringStart.toNat < r.stringEnd) :
    Kept r addrs mem mem := by
  have hnone : ∀ a ∈ addrs, liveAt mem a = none := by
    intro a ha
    cases hs : liveAt mem a with
    | none => rfl
    | some s =>
      have hmem : s ∈ liveStrings mem addrs := List.mem_filterMap.mpr ⟨a, ha, hs⟩
      rw [hlive] at hmem
      cases hmem
  refine ⟨fun _ _ ↦ rfl, ?_, hbump, ?_, fun _ _ _ _ ↦ rfl⟩
  · intro a ha s hs
    rw [hnone a ha] at hs
    cases hs
  · intro a ha s hs
    rw [hnone a ha] at hs
    cases hs

/-- Where the compaction does not end before the region does, it leaves the bump behind the region or aborts. -/
theorem not_relocatesExactly (hr : Valid r mem.length) (hd : Declared mem r addrs)
    (hover : r.stringEnd ≤ freeBank r mem + totalLen (liveStrings mem addrs)) :
    ¬ RelocatesExactly r addrs mem (compactInto r mem (liveStrings mem addrs) (freeBank r mem)) := by
  have hdata : r.stringDataStart = r.stringStart.toNat + 8 := rfl
  have hend : r.stringEnd = r.stringStart.toNat + r.stringBytes.toNat := rfl
  have hstop := hr.stringEnd_le
  have hbytes := hr.string_bytes
  cases hrun : (liveStrings mem addrs).foldlM (relocate (freeBank r mem)) ⟨mem, [], []⟩ with
  | none =>
    simp only [compactInto, hrun]
    exact id
  | some c =>
    have hc : Compacted mem addrs (freeBank r mem) (liveStrings mem addrs) c :=
      (Compacted.start mem addrs _).run hd (fun _ hs ↦ hs) hrun
    have hlength := hc.changes.length_eq
    simp only [compactInto, hrun]
    rw [publish]
    split_ifs with hin hword
    · exact id
    · exact id
    · intro hkept
      have hbump : readU32 (published r (freeBank r mem) c) r.stringStart.toNat = freeBank r mem + c.temp.length :=
        published_bump (by omega) (by omega) (by omega)
      have hlt := hkept.bump.2
      rw [← hc.length_temp] at hover
      rw [published] at hbump
      omega

end

/-- A pass that has something to move and room for it goes through. -/
theorem exists_pass {offsets : List UInt32} (hr : Valid r mem.length) (hix : Indexes mem ix root)
    (hd : Declared mem r (fields root.values offsets))
    (htotal : totalLen (liveStrings mem (fields root.values offsets)) ≤ mem.length)
    (hlarge : minArenaForVacuum ≤ mem.length) (hsome : totalLen (liveStrings mem (fields root.values offsets)) ≠ 0)
    (hbank : totalLen (liveStrings mem (fields root.values offsets)) ≤ bankSize r)
    (hend : freeBank r mem + totalLen (liveStrings mem (fields root.values offsets)) < r.stringEnd) :
    ∃ c, Compacted mem (fields root.values offsets) (freeBank r mem) (liveStrings mem (fields root.values offsets)) c ∧
      runVacuumOnceMulti ix r offsets mem = .done (published r (freeBank r mem) c) c.relocated := by
  rw [runVacuumOnceMulti_eq hr hix fun _ ↦ htotal, if_neg (not_lt.mpr hlarge), if_neg hsome, if_neg (not_lt.mpr hbank)]
  set addrs := fields root.values offsets with haddrs
  have hstop := hr.stringEnd_le
  have harena := hr.arena
  have hlt := r.arenaBytes.toNat_lt
  have hrun : ∃ c, (liveStrings mem addrs).foldlM (relocate (freeBank r mem)) ⟨mem, [], []⟩ = some c :=
    exists_compaction (by simp only [List.length_nil]; omega)
  obtain ⟨c, hrun⟩ := hrun
  have hc : Compacted mem addrs (freeBank r mem) (liveStrings mem addrs) c :=
    (Compacted.start mem addrs _).run hd (fun _ hs ↦ hs) hrun
  have hlength := hc.changes.length_eq
  have htemp := hc.length_temp
  refine ⟨c, hc, ?_⟩
  simp only [compactInto, hrun]
  exact publish_eq (by omega) (by omega)

/-- A pass over declared fields relocates exactly their strings if and only if it has nothing to move,
refuses to, or its bank ends before the region does. -/
theorem relocatesExactly_iff {offsets : List UInt32} (hr : validateRegions r mem.length = .ok ())
    (hix : Indexes mem ix root) (hd : Declared mem r (fields root.values offsets))
    (hbump : r.stringStart.toNat ≤ readU32 mem r.stringStart.toNat ∧ readU32 mem r.stringStart.toNat < r.stringEnd)
    (htotal : minArenaForVacuum ≤ mem.length → totalLen (liveStrings mem (fields root.values offsets)) ≤ mem.length) :
    RelocatesExactly r (fields root.values offsets) mem (runVacuumOnceMulti ix r offsets mem) ↔
      HasRoom r (fields root.values offsets) mem := by
  have hr := (valid_iff r mem.length).mp hr
  set addrs := fields root.values offsets with haddrs
  constructor
  · intro hexact
    rw [runVacuumOnceMulti_eq hr hix htotal] at hexact
    by_contra hroom
    simp only [HasRoom, not_or, not_lt] at hroom
    obtain ⟨hlarge, hsome, hbank, hover⟩ := hroom
    rw [if_neg (not_lt.mpr hlarge), if_neg hsome, if_neg (not_lt.mpr hbank)] at hexact
    exact not_relocatesExactly hr hd hover hexact
  · intro hroom
    by_cases hsmall : mem.length < minArenaForVacuum
    · rw [runVacuumOnceMulti_eq hr hix htotal, if_pos hsmall]
      rfl
    by_cases hzero : totalLen (liveStrings mem addrs) = 0
    · rw [runVacuumOnceMulti_eq hr hix htotal, if_neg hsmall, if_pos hzero]
      exact kept_self (totalLen_eq_zero.mp hzero) hbump
    by_cases hbank : bankSize r < totalLen (liveStrings mem addrs)
    · rw [runVacuumOnceMulti_eq hr hix htotal, if_neg hsmall, if_neg hzero, if_pos hbank]
      rfl
    have hend := ((hroom.resolve_left hsmall).resolve_left hzero).resolve_left hbank
    obtain ⟨c, hc, hrun⟩ := exists_pass hr hix hd (htotal (not_lt.mp hsmall))
      (not_lt.mp hsmall) hzero (not_lt.mp hbank) hend
    rw [hrun]
    refine hc.kept hr hd (stringDataStart_le_freeBank r mem) ?_
    rwa [hc.length_temp]

/-- A table for an arena of 16 MiB with a string region of 8 KiB at its end. -/
def stringRegions : Regions := ⟨16777216, 16, 4096, 45056, 49152, 8192, 16769024, 8192⟩

def stringIndex : ArtIndex := ⟨49152, 49156⟩

/-- One record under the key `[97]`, whose first field names `len` bytes at the start of the string region. -/
def oneString (len : ℕ) : List (Write UInt8) :=
  [⟨49152, leEncode 4 49160⟩, ⟨49160, [1]⟩, ⟨49164, [97]⟩, ⟨49168, leEncode 4 49188⟩, ⟨49184, leEncode 4 1⟩,
    ⟨49188, leEncode 4 4096⟩, ⟨49192, [97]⟩, ⟨4096, leEncode 4 16769032⟩, ⟨4100, leEncode 4 len⟩,
    ⟨16769024, leEncode 4 (16769032 + len)⟩]

def oneStringArena (len : ℕ) : Bytes := applyWrites (oneString len) (zeros 16777216)

def oneStringTree : Tree := .node4 49160 [(97, .leaf 49184 [97] 4096)]

theorem oneString_fits (len : ℕ) : ∀ w ∈ oneString len, w.Fits (zeros 16777216).length := by
  intro w hw
  rw [length_zeros]
  simp only [oneString, List.mem_cons, List.not_mem_nil, or_false] at hw
  rcases hw with rfl | rfl | rfl | rfl | rfl | rfl | rfl | rfl | rfl | rfl <;>
    simp [Write.Fits]

theorem length_oneStringArena (len : ℕ) : (oneStringArena len).length = 16777216 :=
  (length_applyWrites (oneString_fits len)).trans (length_zeros _)

theorem slice_oneStringArena {len off : ℕ} {content : Bytes}
    (h : (List.range content.length).map (fun i ↦ lastWrite (oneString len) (off + i)) = content.map some) :
    slice (oneStringArena len) off content.length = content :=
  slice_applyWrites (oneString_fits len) h

theorem readU32_oneStringArena {len off v : ℕ} (hv : v < 2 ^ 32)
    (h : (List.range 4).map (fun i ↦ lastWrite (oneString len) (off + i)) = (leEncode 4 v).map some) :
    readU32 (oneStringArena len) off = v := by
  have hslice : slice (oneStringArena len) off (leEncode 4 v).length = leEncode 4 v :=
    slice_oneStringArena (by rwa [length_leEncode])
  rw [length_leEncode] at hslice
  rw [readU32, hslice, leDecode_leEncode_of_lt (by omega)]

theorem byteAt_oneStringArena {len off : ℕ} {b : UInt8} (h : lastWrite (oneString len) off = some b) :
    byteAt (oneStringArena len) off = b := by
  rw [byteAt, List.getD_eq_getElem?_getD, oneStringArena, getElem?_applyWrites (oneString_fits len), h]
  rfl

theorem oneString_field {len : ℕ} (hlen : len < 2 ^ 16) : readU32 (oneStringArena len) 4096 = 16769032 ∧
    readU32 (oneStringArena len) 4100 = len ∧ readU32 (oneStringArena len) 16769024 = 16769032 + len :=
  ⟨readU32_oneStringArena (by omega) rfl, readU32_oneStringArena (by omega) rfl,
    readU32_oneStringArena (by omega) rfl⟩

theorem oneString_stored (len : ℕ) : Stored (oneStringArena len) oneStringTree := by
  have hcount : byteAt (oneStringArena len) 49160 = 1 := byteAt_oneStringArena rfl
  have hkey : byteAt (oneStringArena len) 49164 = 97 := byteAt_oneStringArena rfl
  have hchild : readU32 (oneStringArena len) 49168 = 49188 := readU32_oneStringArena (by omega) rfl
  have hlength : readU32 (oneStringArena len) 49184 = 1 := readU32_oneStringArena (by omega) rfl
  have hvalue : readU32 (oneStringArena len) 49188 = 4096 := readU32_oneStringArena (by omega) rfl
  refine ⟨⟨congrArg UInt8.toNat hcount, ?_, ?_⟩, ?_⟩
  · intro i hi
    obtain rfl : i = 0 := by simpa using hi
    exact hkey
  · intro b hb
    obtain rfl := List.mem_singleton.mp hb
    exact hchild
  · intro b
    by_cases hb : b = 97
    · subst hb
      exact ⟨hlength, hvalue, slice_oneStringArena rfl⟩
    · simp [Tree.kidsOf, hb, Stored]

theorem oneStringTree_wf : oneStringTree.WF [] := by
  refine ⟨by decide, List.not_mem_nil, ⟨by decide, by decide⟩, ?_, ?_⟩
  · intro b hb
    have hne : b ≠ 97 := fun h ↦ hb (h ▸ List.mem_singleton_self b)
    simp [Tree.kidsOf, hne]
  · intro b
    by_cases hb : b = 97
    · subst hb
      exact ⟨⟨by decide, by decide, by decide⟩, by decide⟩
    · simp [Tree.kidsOf, hb, Tree.WF]

theorem oneStringTree_laid : oneStringTree.Laid 16777216 := by
  refine ⟨by decide, by decide, by decide, ?_, ?_, ?_⟩
  · intro b
    by_cases hb : b = 97
    · subst hb
      exact disjoint_Ico (.inl (by decide))
    · simp [Tree.kidsOf, hb, Tree.foot]
  · intro b c hne
    by_cases hb : b = 97
    · have hc : c ≠ 97 := fun hc ↦ hne (hb.trans hc.symm)
      simp [Tree.kidsOf, hc, Tree.foot]
    · simp [Tree.kidsOf, hb, Tree.foot]
  · intro b
    by_cases hb : b = 97
    · subst hb
      exact ⟨by decide, by decide⟩
    · simp [Tree.kidsOf, hb, Tree.Laid]

theorem oneString_indexes (len : ℕ) : Indexes (oneStringArena len) stringIndex oneStringTree where
  stored := oneString_stored len
  word := readU32_oneStringArena (by decide) rfl
  wf := oneStringTree_wf
  laid := by
    rw [length_oneStringArena]
    exact oneStringTree_laid

theorem oneString_fields : fields oneStringTree.values [0] = [4096] := by decide

theorem oneString_live {len : ℕ} (hpos : 0 < len) (hlen : len < 8184) :
    liveAt (oneStringArena len) 4096 = some ⟨4096, 16769032, len⟩ := by
  obtain ⟨hoff, hlength, _⟩ := oneString_field (show len < 2 ^ 16 by omega)
  rw [liveAt, hoff, hlength, length_oneStringArena, if_neg (by omega)]

theorem oneString_declared {len : ℕ} (hpos : 0 < len) (hlen : len < 8184) :
    Declared (oneStringArena len) stringRegions [4096] := by
  have hlive := oneString_live hpos hlen
  refine ⟨?_, ?_, ?_, ?_⟩
  · intro a ha
    obtain rfl := List.mem_singleton.mp ha
    decide
  · intro a ha b hb
    left
    rw [List.mem_singleton.mp ha, List.mem_singleton.mp hb]
  · intro a ha s hs
    obtain rfl := List.mem_singleton.mp ha
    rw [hlive] at hs
    obtain rfl := Option.some.inj hs
    refine disjoint_left.mpr ?_
    intro i hi hpointer
    obtain ⟨b, hb, hib⟩ := hpointer
    obtain rfl := List.mem_singleton.mp hb
    have hlow := hi.1
    have hhigh := hib.2
    simp only at hlow
    omega
  · intro a ha hzero
    obtain rfl := List.mem_singleton.mp ha
    rw [(oneString_field (show len < 2 ^ 16 by omega)).1] at hzero
    omega

theorem oneString_totalLen {len : ℕ} (hpos : 0 < len) (hlen : len < 8184) :
    totalLen (liveStrings (oneStringArena len) [4096]) = len := by
  simp [liveStrings, oneString_live hpos hlen, totalLen]

theorem oneString_valid (len : ℕ) : validateRegions stringRegions (oneStringArena len).length = .ok () := by
  rw [length_oneStringArena]
  decide

theorem oneString_bump {len : ℕ} (hlen : len < 8184) :
    readU32 (oneStringArena len) stringRegions.stringStart.toNat = 16769032 + len :=
  (oneString_field (by omega)).2.2

/-- A string of five bytes moves to the second bank. -/
theorem relocatesExactly_shortString :
    RelocatesExactly stringRegions (fields oneStringTree.values [0]) (oneStringArena 5)
      (runVacuumOnceMulti stringIndex stringRegions [0] (oneStringArena 5)) := by
  have hr := oneString_valid 5
  have hix := oneString_indexes 5
  have hd := oneString_declared (show 0 < 5 by omega) (by omega)
  have hbump := oneString_bump (show 5 < 8184 by omega)
  have htotal := oneString_totalLen (show 0 < 5 by omega) (by omega)
  have hlength := length_oneStringArena 5
  generalize oneStringArena 5 = m at *
  rw [← oneString_fields] at hd htotal
  refine (relocatesExactly_iff hr hix hd ?_ ?_).mpr ?_
  · rw [hbump]
    decide
  · exact fun _ ↦ by omega
  · refine .inr (.inr (.inr ?_))
    rw [htotal, freeBank, hbump]
    decide

/-- A string that fills the first bank but for one byte goes over the end of the arena. -/
theorem longString_not_relocated : validateRegions stringRegions (oneStringArena 4095).length = .ok () ∧
    Indexes (oneStringArena 4095) stringIndex oneStringTree ∧
    Declared (oneStringArena 4095) stringRegions (fields oneStringTree.values [0]) ∧
    readU32 (oneStringArena 4095) stringRegions.stringStart.toNat < stringRegions.stringEnd ∧
    ¬ RelocatesExactly stringRegions (fields oneStringTree.values [0]) (oneStringArena 4095)
      (runVacuumOnceMulti stringIndex stringRegions [0] (oneStringArena 4095)) := by
  have hr := oneString_valid 4095
  have hix := oneString_indexes 4095
  have hd := oneString_declared (show 0 < 4095 by omega) (by omega)
  have hbump := oneString_bump (show 4095 < 8184 by omega)
  have htotal := oneString_totalLen (show 0 < 4095 by omega) (by omega)
  have hlength := length_oneStringArena 4095
  generalize oneStringArena 4095 = m at *
  rw [← oneString_fields] at hd htotal
  have hv := (valid_iff _ _).mp hr
  have hover : stringRegions.stringEnd ≤ freeBank stringRegions m +
      totalLen (liveStrings m (fields oneStringTree.values [0])) := by
    rw [htotal, freeBank, hbump]
    decide
  have hrun := runVacuumOnceMulti_eq hv hix fun _ ↦
      (by omega : totalLen (liveStrings m (fields oneStringTree.values [0])) ≤ m.length)
  rw [htotal, hlength, if_neg (by decide), if_neg (by decide), if_neg (by decide)] at hrun
  refine ⟨hr, hix, hd, ?_, ?_⟩
  · rw [hbump]
    decide
  · rw [hrun]
    exact not_relocatesExactly hv hd hover

end TakyonDb.Vacuum
