import TakyonDb.Art.Rebuild
import TakyonDb.EntryFiles
import TakyonDb.Recovery
import TakyonDb.Segments
import TakyonDb.SnapshotSafety

namespace TakyonDb.Restart

open Lib Layout Replay Recovery Snapshot Art Set

/-- The index operations on the index in the arena: one that fails is passed
over. The result is `none` when a call does not come back. -/
def applyIndexOps (ix : ArtIndex) (fuel : ℕ) (r : Regions) (recMax : ℕ) (ops : List IndexOp) (s : ArtState) :
    Option ArtState :=
  ops.foldlM (fun s op ↦
    if Described r recMax op then settled (Art.insert ix op.key op.value fuel s) else some s) s

/-- `recoverWal` with the index where it is, in the arena. -/
def recoverWal (fuel : ℕ) (r : Regions) (snapshot : Option Bytes) (files : LogFiles UInt8) (s : ArtState) :
    Option ArtState := do
  let (loaded, arenaMem) := loadSnapshot snapshot r s.mem
  let st := replayWal r files (seedMaxima r loaded arenaMem)
  let s ← applyIndexOps (regionIndex r) fuel r st.recMax st.indexOps { s with mem := st.arena }
  let artMax := if st.indexOps = [] then st.artMax
    else max st.artMax (readWord s.mem r.artBumpOffset r.artStart)
  some { s with mem := finalize r st.recMax artMax st.strMax s.mem }

/-- Every operation that the replay applies finds its nodes in the index region. -/
def RoomFor (r : Regions) (recMax : ℕ) : List IndexOp → ArtState → Prop
  | [], _ => True
  | op :: ops, s =>
    if Described r recMax op then
      FitsRegion r s (.insert op.key op.value) ∧
        ∀ s', settled (Art.insert (regionIndex r) op.key op.value (maxDepth + 3) s) = some s' → RoomFor r recMax ops s'
    else RoomFor r recMax ops s

section Index

variable {r : Regions} {n : ℕ} {s s' s₀ : ArtState} {h : Heap} {root : Tree} {key : Bytes} {value : UInt32}

/-- An index that inserts have made of an empty region, without leaving it. -/
structure Rebuilt (r : Regions) (n : ℕ) (s : ArtState) (h : Heap) (root : Tree) : Prop extends
    Confined r n s h root where
  bound : root.Everywhere Tree.Bound

theorem Rebuilt.insert (hb : Rebuilt r n s h root) (hend : r.artEnd ≤ n)
    (hfits : FitsRegion r s (.insert key value)) :
    ∃ s' h' root', (∀ fuel, maxDepth + 3 ≤ fuel → settled (Art.insert (regionIndex r) key value fuel s) = some s') ∧
      Rebuilt r n s' h' root' ∧ ChangesOnly (artRegion r) s.mem s'.mem ∧ Binds n key value h root h' root' := by
  have hroom : ValidKey key → value.toNat < n → h.bump + root.callDemand key ≤ n := fun hv hlt ↦
    (hb.fitsRegion_iff.mp hfits hv hlt).trans hend
  obtain ⟨s', h', root', hrun, hmoves, hall, hbinds⟩ := hb.indexed.insert_binds hb.bound hroom
  obtain ⟨hconfined, hch⟩ := hb.moves hend hfits hmoves hbinds.treeCall
  exact ⟨s', h', root', hrun, ⟨hconfined, hall⟩, hch, hbinds⟩

/-- Two replays over the same index do the same to it. -/
theorem Rebuilt.applyIndexOps {recMax : ℕ} {ops : List IndexOp} (hend : r.artEnd ≤ n) (hb₀ : Rebuilt r n s₀ h root)
    (hb : Rebuilt r n s h root) (hroom : RoomFor r recMax ops s₀) :
    ∃ t₀ t h' root', Rebuilt r n t₀ h' root' ∧ Rebuilt r n t h' root' ∧
      ChangesOnly (artRegion r) s₀.mem t₀.mem ∧ ChangesOnly (artRegion r) s.mem t.mem ∧
      ∀ fuel, maxDepth + 3 ≤ fuel → Restart.applyIndexOps (regionIndex r) fuel r recMax ops s₀ = some t₀ ∧
        Restart.applyIndexOps (regionIndex r) fuel r recMax ops s = some t := by
  induction ops generalizing s₀ s h root with
  | nil => exact ⟨s₀, s, h, root, hb₀, hb, .rfl', .rfl', fun fuel _ ↦ ⟨rfl, rfl⟩⟩
  | cons op ops ih =>
    rw [RoomFor] at hroom
    by_cases hdesc : Described r recMax op
    · rw [if_pos hdesc] at hroom
      obtain ⟨hfits, hlater⟩ := hroom
      obtain ⟨s₁, h₁, root₁, hrun₁, hb₁, hch₁, hbinds₁⟩ := hb₀.insert hend hfits
      obtain ⟨s₂, h₂, root₂, hrun₂, hb₂, hch₂, hbinds₂⟩ :=
        hb.insert hend (hb.fitsRegion_iff.mpr (hb₀.fitsRegion_iff.mp hfits))
      obtain ⟨rfl, rfl⟩ := hbinds₁.unique hbinds₂
      obtain ⟨t₀, t, h', root', ht₀, ht, hcht₀, hcht, hall⟩ := ih hb₁ hb₂ (hlater s₁ (hrun₁ _ le_rfl))
      refine ⟨t₀, t, h', root', ht₀, ht, hch₁.trans hcht₀, hch₂.trans hcht, fun fuel hfuel ↦ ?_⟩
      rw [Restart.applyIndexOps, List.foldlM_cons, if_pos hdesc, hrun₁ fuel hfuel, Restart.applyIndexOps,
        List.foldlM_cons, if_pos hdesc, hrun₂ fuel hfuel]
      exact hall fuel hfuel
    · rw [if_neg hdesc] at hroom
      obtain ⟨t₀, t, h', root', ht₀, ht, hcht₀, hcht, hall⟩ := ih hb₀ hb hroom
      refine ⟨t₀, t, h', root', ht₀, ht, hcht₀, hcht, fun fuel hfuel ↦ ?_⟩
      rw [Restart.applyIndexOps, List.foldlM_cons, if_neg hdesc, Restart.applyIndexOps, List.foldlM_cons,
        if_neg hdesc]
      exact hall fuel hfuel

/-- The guard is the same over the same index. -/
theorem Rebuilt.roomFor {recMax : ℕ} {ops : List IndexOp} (hend : r.artEnd ≤ n) (hb₀ : Rebuilt r n s₀ h root)
    (hb : Rebuilt r n s h root) (hroom : RoomFor r recMax ops s₀) : RoomFor r recMax ops s := by
  induction ops generalizing s₀ s h root with
  | nil => trivial
  | cons op ops ih =>
    rw [RoomFor] at hroom ⊢
    by_cases hdesc : Described r recMax op
    · rw [if_pos hdesc] at hroom ⊢
      obtain ⟨hfits, hlater⟩ := hroom
      have hfits' := hb.fitsRegion_iff.mpr (hb₀.fitsRegion_iff.mp hfits)
      obtain ⟨s₁, h₁, root₁, hrun₁, hb₁, -, hbinds₁⟩ := hb₀.insert hend hfits
      obtain ⟨s₂, h₂, root₂, hrun₂, hb₂, -, hbinds₂⟩ := hb.insert hend hfits'
      obtain ⟨rfl, rfl⟩ := hbinds₁.unique hbinds₂
      refine ⟨hfits', fun s' hs' ↦ ?_⟩
      obtain rfl := Option.some.inj ((hrun₂ _ le_rfl).symm.trans hs')
      exact ih hb₁ hb₂ (hlater s₁ (hrun₁ _ le_rfl))
    · rw [if_neg hdesc] at hroom ⊢
      exact ih hb₀ hb hroom

/-- A region with room for the most that the operations take. -/
theorem Rebuilt.roomFor_of_bound {recMax : ℕ} {ops : List IndexOp} (hend : r.artEnd ≤ n) (hb : Rebuilt r n s h root)
    (hroom : h.bump + (ops.map fun op ↦ insertBound op.key).sum ≤ r.artEnd) : RoomFor r recMax ops s := by
  induction ops generalizing s h root with
  | nil => trivial
  | cons op ops ih =>
    rw [List.map_cons, List.sum_cons] at hroom
    have hdemand := callDemand_le op.key root
    rw [RoomFor]
    split_ifs
    · have hfits : FitsRegion r s (.insert op.key op.value) := hb.fitsRegion_iff.mpr fun _ _ ↦ by omega
      obtain ⟨s₁, h₁, root₁, hrun, hb₁, -, hbinds⟩ := hb.insert hend hfits
      have hbump := hbinds.bump_le
      refine ⟨hfits, fun s' hs' ↦ ?_⟩
      obtain rfl := Option.some.inj ((hrun _ le_rfl).symm.trans hs')
      exact ih hb₁ (by omega)
    · exact ih hb (by omega)

end Index

section Arena

variable {r : Regions} {m m' : Bytes} {d : Set ℕ} {offset v : ℕ} {free : Freelist} {files : LogFiles UInt8}

theorem changesOnly_setBump (hfit : offset + 4 ≤ m.length) (v : ℕ) :
    ChangesOnly (Ico offset (offset + 4)) m (setBump offset v m) := by
  rw [setBump_eq hfit]
  exact changesOnly_writeU32 hfit v

theorem setBump_both (h : ChangesOnly d m m') (hfit : offset + 4 ≤ m.length) (v : ℕ) :
    ChangesOnly (d \ Ico offset (offset + 4)) (setBump offset v m) (setBump offset v m') := by
  have hboth : ChangesOnly (d \ Ico offset (offset + (leEncode 4 v).length)) (overwrite m offset (leEncode 4 v))
      (overwrite m' offset (leEncode 4 v)) := h.overwrite_both (by rwa [length_leEncode])
  rw [length_leEncode] at hboth
  rw [setBump_eq hfit, setBump_eq (h.length_eq.symm ▸ hfit)]
  exact hboth

/-- The bump words and the ring, which recovery writes at its end. -/
def stamped (r : Regions) : Set ℕ :=
  Ico r.recordBumpOffset (r.recordBumpOffset + 4) ∪ Ico r.artBumpOffset (r.artBumpOffset + 4) ∪
    Ico r.stringStart.toNat (r.stringStart.toNat + 4) ∪ Ico ringOffset r.recordBumpOffset

theorem written_stamps (r : Regions) (recMax artMax strMax : ℕ) :
    written (stamps r recMax artMax strMax) = stamped r := by
  have hring : ringOffset + (r.recordBumpOffset - ringOffset) = r.recordBumpOffset :=
    Nat.add_sub_cancel' (Nat.le_add_right _ _)
  ext x
  simp only [written, stamps, stamped, List.mem_cons, List.not_mem_nil, or_false, exists_eq_or_imp,
    exists_eq_left, length_leEncode, length_zeros, hring, mem_ofPred_eq, mem_union, or_assoc]

section Finalize

variable (hv : Layout.Valid r m.length) (recMax artMax strMax : ℕ)
include hv

theorem changesOnly_finalize : ChangesOnly (stamped r) m (finalize r recMax artMax strMax m) := by
  rw [finalize_eq hv, ← written_stamps r recMax artMax strMax]
  exact changesOnly_applyWrites (stamps_fit hv _ _ _)

theorem finalize_both (h : ChangesOnly d m m') :
    ChangesOnly (d \ stamped r) (finalize r recMax artMax strMax m) (finalize r recMax artMax strMax m') := by
  rw [finalize_eq hv, finalize_eq (h.length_eq.symm ▸ hv), ← written_stamps r recMax artMax strMax]
  exact h.applyWrites_both (stamps_fit hv _ _ _)

end Finalize

section Reset

variable (hv : Layout.Valid r m.length) (hbytes : 8 ≤ r.artBytes.toNat)
include hv hbytes

theorem artStart_le : r.artStart ≤ r.artEnd ∧ r.artEnd ≤ r.stringStart.toNat ∧ r.artEnd ≤ m.length := by
  have hle := hv.artEnd_le
  have hstr := hv.stringEnd_le
  have hstart : r.artStart = r.artRoot.toNat + 8 := rfl
  have hend : r.artEnd = r.artRoot.toNat + r.artBytes.toNat := rfl
  rw [Regions.stringEnd] at hstr
  omega

theorem resetIndex_eq : resetIndex r m =
    writeU32 (overwrite m r.artRoot.toNat (zeros r.artBytes.toNat)) r.artBumpOffset r.artStart := by
  obtain ⟨h₁, h₂, h₃⟩ := artStart_le hv hbytes
  have hoff : r.artBumpOffset + 4 = r.artStart := rfl
  have hfit : r.artRoot.toNat + (zeros r.artBytes.toNat).length ≤ m.length := by
    rw [length_zeros]
    exact h₃
  rw [resetIndex, if_neg (not_lt.mpr h₃), setBump_eq (by rw [length_overwrite hfit]; omega)]

theorem changesOnly_resetIndex : ChangesOnly (artRegion r) m (resetIndex r m) := by
  obtain ⟨h₁, h₂, h₃⟩ := artStart_le hv hbytes
  have hoff : r.artBumpOffset + 4 = r.artStart := rfl
  have hroot : r.artRoot.toNat ≤ r.artBumpOffset := Nat.le_add_right _ _
  have hfit : r.artRoot.toNat + (zeros r.artBytes.toNat).length ≤ m.length := by
    rw [length_zeros]
    exact h₃
  have hblank := changesOnly_overwrite hfit
  rw [length_zeros] at hblank
  rw [resetIndex_eq hv hbytes]
  have hword : r.artBumpOffset + 4 ≤ r.artRoot.toNat + r.artBytes.toNat := h₁
  refine hblank.trans ((changesOnly_writeU32 (by rw [hblank.length_eq]; omega) _).mono ?_)
  exact Ico_subset_Ico hroot hword

theorem resetIndex_both (h : ChangesOnly d m m') : ChangesOnly (d \ artRegion r) (resetIndex r m)
    (resetIndex r m') := by
  obtain ⟨h₁, h₂, h₃⟩ := artStart_le hv hbytes
  have hoff : r.artBumpOffset + 4 = r.artStart := rfl
  have hfit : r.artRoot.toNat + (zeros r.artBytes.toNat).length ≤ m.length := by
    rw [length_zeros]
    exact h₃
  have hblank := h.overwrite_both hfit
  rw [length_zeros] at hblank
  rw [resetIndex, resetIndex, h.length_eq, if_neg (not_lt.mpr h₃), if_neg (not_lt.mpr h₃)]
  exact (setBump_both hblank (by rw [length_overwrite hfit]; omega) _).mono sdiff_subset

theorem resetIndex_words : readU32 (resetIndex r m) r.artRoot.toNat = 0 ∧
    readU32 (resetIndex r m) r.artBumpOffset = r.artStart := by
  obtain ⟨h₁, h₂, h₃⟩ := artStart_le hv hbytes
  have hoff : r.artBumpOffset = r.artRoot.toNat + 4 := rfl
  have hstart : r.artStart = r.artRoot.toNat + 8 := rfl
  have hlt : m.length < 2 ^ 32 := hv.arena ▸ r.arenaBytes.toNat_lt
  have hfit : r.artRoot.toNat + (zeros r.artBytes.toNat).length ≤ m.length := by
    rw [length_zeros]
    exact h₃
  have hlen := length_overwrite hfit
  have hword : r.artBumpOffset + 4 ≤ (overwrite m r.artRoot.toNat (zeros r.artBytes.toNat)).length := by omega
  rw [resetIndex_eq hv hbytes]
  constructor
  · rw [readU32_writeU32_of_disjoint hword _ (.inl hoff.ge), readU32]
    have hslice : slice (overwrite m r.artRoot.toNat (zeros r.artBytes.toNat)) r.artRoot.toNat 4 = zeros 4 := by
      apply List.ext_getElem?
      intro i
      rw [getElem?_slice, getElem?_overwrite hfit, length_zeros, getElem?_zeros, getElem?_zeros]
      split_ifs <;> first | rfl | omega
    rw [hslice]
    rfl
  · exact readU32_writeU32_self (by omega) (by omega)

end Reset

/-- A reset region holds the empty index. -/
theorem confined_resetIndex (hv : Layout.Valid r m.length) (hbytes : 8 ≤ r.artBytes.toNat)
    (hfree : ∀ size, free.stackOf size = []) :
    Confined r m.length ⟨resetIndex r m, free⟩ ⟨r.artStart, free⟩ .nil := by
  obtain ⟨hroot, hbump⟩ := resetIndex_words hv hbytes
  exact confined_start hv hbytes (length_resetIndex r m) hroot hbump hfree

/-- The index is blank when the operations are applied. -/
theorem rebuilt_start (hv : Layout.Valid r m.length) (hbytes : 8 ≤ r.artBytes.toNat)
    (hmiss : Disjoint (covered (fileEntries m.length files)) (artRegion r)) (hfree : ∀ size, free.stackOf size = []) :
    Rebuilt r m.length ⟨(replayWal r files (seedMaxima r none m)).arena, free⟩ ⟨r.artStart, free⟩ .nil := by
  have hreplay := changesOnly_replayWal r files (seedMaxima r none m)
  have harena : (seedMaxima r none m).arena = resetIndex r m := rfl
  rw [harena, length_resetIndex] at hreplay
  exact ⟨(confined_resetIndex hv hbytes hfree).frame hreplay hmiss.symm, trivial⟩

/-- The states of two replays that start without a snapshot. -/
theorem sameBut_seedMaxima (hv : Layout.Valid r m.length) (hbytes : 8 ≤ r.artBytes.toNat)
    (hlen : m'.length = m.length) :
    Recovered.SameBut ((artRegion r)ᶜ \ covered (fileEntries m.length files))
      (replayWal r files (seedMaxima r none m)) (replayWal r files (seedMaxima r none m')) := by
  have hany : ChangesOnly univ m m' := ⟨hlen, fun i hi ↦ absurd (mem_univ i) hi⟩
  have hreset := resetIndex_both hv hbytes hany
  have hsame : Recovered.SameBut (artRegion r)ᶜ (seedMaxima r none m) (seedMaxima r none m') :=
    ⟨hreset.mono fun x hx ↦ hx.2, rfl, rfl, rfl, rfl⟩
  have hreplay := hsame.replayWal r files
  have hlen' : (seedMaxima r none m).arena.length = m.length := (changesOnly_resetIndex hv hbytes).length_eq
  rwa [hlen'] at hreplay

/-- What recovery has to settle from the files alone. -/
structure Alike (r : Regions) (logged : Set ℕ) (m m' : Bytes) : Prop where
  length_eq : m'.length = m.length
  stamped : ∀ x ∈ Restart.stamped r, m'[x]? = m[x]?
  index : ∀ key fuel, maxDepth < fuel → search (regionIndex r) key fuel m' = search (regionIndex r) key fuel m
  logged : ∀ x ∈ logged, m'[x]? = m[x]?

theorem Rebuilt.search_finalize {n : ℕ} {s : ArtState} {h : Heap} {root : Tree} (hb : Rebuilt r n s h root)
    (hv : Layout.Valid r n) (hbytes : 8 ≤ r.artBytes.toNat) (recMax artMax strMax : ℕ) (key : Bytes) {fuel : ℕ}
    (hfuel : maxDepth < fuel) :
    search (regionIndex r) key fuel (finalize r recMax artMax strMax s.mem) = .ok (root.lookup key 0) := by
  obtain rfl := hb.indexed.arena.length
  obtain ⟨h₁, h₂, h₃⟩ := artStart_le hv hbytes
  obtain ⟨-, g₂, g₃, g₄, -, -, -, -, -, -⟩ := words_apart hv (h₁.trans h₂)
  have hch := changesOnly_finalize hv recMax artMax strMax
  have hstart : r.artStart = r.artRoot.toNat + 8 := rfl
  have hfoot : Disjoint root.foot (stamped r) := by
    rw [stamped, disjoint_union_right, disjoint_union_right, disjoint_union_right]
    refine ⟨⟨⟨?_, hb.indexed.bump_clear.symm⟩, ?_⟩, ?_⟩ <;>
      exact (disjoint_Ico (by omega)).mono_left hb.foot
  have hword : Disjoint (Ico r.artRoot.toNat (r.artRoot.toNat + 4)) (stamped r) := by
    rw [stamped, disjoint_union_right, disjoint_union_right, disjoint_union_right]
    exact ⟨⟨⟨disjoint_Ico (by omega), disjoint_Ico (by omega)⟩, disjoint_Ico (by omega)⟩, disjoint_Ico (by omega)⟩
  refine search_stored (hb.indexed.stored.frame hch hb.indexed.wf hfoot) ?_ hb.indexed.wf
    (hch.length_eq.symm ▸ hb.indexed.laid)
    ?_ key hfuel
  · rw [← hb.indexed.word]
    exact hch.readU32 hword
  · rw [hch.length_eq]
    exact hb.indexed.arena.placed.root_fits

/-- With no snapshot, two arenas of one size end alike. -/
theorem recoverWal_alike {n : ℕ} {snapshot : Option Bytes} (hv : Layout.Valid r n) (hbytes : 8 ≤ r.artBytes.toNat)
    (hmiss : Disjoint (covered (fileEntries n files)) (artRegion r)) (hfree : ∀ size, free.stackOf size = [])
    (hroom : RoomFor r (replayWal r files (seedMaxima r none (zeros n))).recMax
      (replayWal r files (seedMaxima r none (zeros n))).indexOps
      ⟨(replayWal r files (seedMaxima r none (zeros n))).arena, free⟩)
    (hnone : ∀ mem : Bytes, mem.length = n → ∃ mem' : Bytes,
      mem'.length = n ∧ loadSnapshot snapshot r mem = (none, mem'))
    (hm : m.length = n) (hm' : m'.length = n) :
    ∃ t t', (∀ fuel, maxDepth + 3 ≤ fuel → recoverWal fuel r snapshot files ⟨m, free⟩ = some t ∧
        recoverWal fuel r snapshot files ⟨m', free⟩ = some t') ∧
      Alike r (covered (fileEntries n files)) t.mem t'.mem := by
  obtain ⟨mem, hmem, hload⟩ := hnone m hm
  obtain ⟨mem', hmem', hload'⟩ := hnone m' hm'
  have hz : (zeros n).length = n := length_zeros n
  have hstart : ∀ a : Bytes, a.length = n →
      Rebuilt r n ⟨(replayWal r files (seedMaxima r none a)).arena, free⟩ ⟨r.artStart, free⟩ .nil := by
    rintro a rfl
    exact rebuilt_start hv hbytes hmiss hfree
  have hboth : ∀ a b : Bytes, a.length = n → b.length = n →
      Recovered.SameBut ((artRegion r)ᶜ \ covered (fileEntries n files))
        (replayWal r files (seedMaxima r none a)) (replayWal r files (seedMaxima r none b)) := by
    rintro a b rfl hb
    exact sameBut_seedMaxima hv hbytes hb
  have hzero := hboth (zeros n) mem hz hmem
  have hsame := hboth mem mem' hmem hmem'
  have hrebuilt := hstart mem hmem
  have hrebuilt' := hstart mem' hmem'
  obtain ⟨h₁, h₂, h₃⟩ := artStart_le (m := mem) (hmem.symm ▸ hv) hbytes
  rw [hmem] at h₃
  have hroom' := (hstart _ hz).roomFor h₃ hrebuilt hroom
  rw [← hzero.recMax, ← hzero.indexOps] at hroom'
  generalize replayWal r files (seedMaxima r none (zeros n)) = st₀ at hzero hroom hroom'
  obtain ⟨t, t', h', root', ht, ht', hcht, hcht', hrun⟩ := hrebuilt.applyIndexOps h₃ hrebuilt' hroom'
  simp only [recoverWal, hload, hload', hsame.recMax, hsame.artMax, hsame.strMax, hsame.indexOps]
  generalize replayWal r files (seedMaxima r none mem) = st at *
  generalize replayWal r files (seedMaxima r none mem') = st' at *
  have hlen : t.mem.length = n := ht.indexed.arena.length
  have hlen' : t'.mem.length = n := ht'.indexed.arena.length
  have hbump : readWord t'.mem r.artBumpOffset r.artStart = readWord t.mem r.artBumpOffset r.artStart := by
    have hword : readU32 t.mem r.artBumpOffset = h'.bump := ht.indexed.arena.bump
    have hword' : readU32 t'.mem r.artBumpOffset = h'.bump := ht'.indexed.arena.bump
    rw [readWord, readWord, hlen, hlen', hword, hword']
  set artMax := if st.indexOps = [] then st.artMax else max st.artMax (readWord t.mem r.artBumpOffset r.artStart)
    with hart
  refine ⟨{ t with mem := finalize r st.recMax artMax st.strMax t.mem },
    { t' with mem := finalize r st.recMax artMax st.strMax t'.mem }, fun fuel hfuel ↦ ?_, ?_⟩
  · obtain ⟨hok, hok'⟩ := hrun fuel hfuel
    simp only [hok, hok', bind, Option.bind_some, hbump, hart, and_self]
  · have hmems : ChangesOnly (covered (fileEntries n files))ᶜ t.mem t'.mem := by
      refine ⟨hlen'.trans hlen.symm, fun x hx ↦ ?_⟩
      have hcov : x ∈ covered (fileEntries n files) := not_not.mp hx
      have hout : x ∉ artRegion r := disjoint_left.mp hmiss hcov
      rw [hcht'.getElem?_eq x hout, hcht.getElem?_eq x hout]
      exact hsame.arena.getElem?_eq x fun hd ↦ hd.2 hcov
    have hfin := finalize_both (hlen.symm ▸ hv) st.recMax artMax st.strMax hmems
    refine ⟨hfin.length_eq, fun x hx ↦ hfin.getElem?_eq x fun hd ↦ hd.2 hx, fun key fuel hfuel ↦ ?_,
      fun x hx ↦ hfin.getElem?_eq x fun hd ↦ hd.1 hx⟩
    rw [ht.search_finalize hv hbytes _ _ _ key hfuel, ht'.search_finalize hv hbytes _ _ _ key hfuel]

end Arena

section Determined

variable {r : Regions} {n : ℕ} {snapshot : Option Bytes} {files : LogFiles UInt8} {s s' : ArtState}

theorem Alike.rfl' {logged : Set ℕ} {m : Bytes} : Alike r logged m m :=
  ⟨rfl, fun _ _ ↦ rfl, fun _ _ _ ↦ rfl, fun _ _ ↦ rfl⟩

/-- Two arenas with one header, and the index of a new process for each. -/
structure Starts (n : ℕ) (s s' : ArtState) : Prop where
  length : s.mem.length = n
  length' : s'.mem.length = n
  header : slice s'.mem 0 headerBytes = slice s.mem 0 headerBytes
  orphans : ∀ size, s.free.stackOf size = []
  free : s'.free = s.free

/-- The files decide what recovery leaves. -/
structure Determined (r : Regions) (n : ℕ) (snapshot : Option Bytes) (files : LogFiles UInt8) : Prop where
  accepted : ∀ s s', Starts n s s' → (loadSnapshot snapshot r (openIndex r s).mem).1.isSome → ∀ fuel,
    recoverWal fuel r snapshot files (openIndex r s') = recoverWal fuel r snapshot files (openIndex r s)
  rebuilt : ∀ s s', Starts n s s' → (loadSnapshot snapshot r (openIndex r s).mem).1 = none →
    Disjoint (covered (fileEntries n files)) (artRegion r) → ∃ t t',
      (∀ fuel, maxDepth + 3 ≤ fuel → recoverWal fuel r snapshot files (openIndex r s) = some t ∧
        recoverWal fuel r snapshot files (openIndex r s') = some t') ∧
      Alike r (covered (fileEntries n files)) t.mem t'.mem
  again : ∀ s t fuel, Starts n s s → maxDepth + 3 ≤ fuel →
    recoverWal fuel r snapshot files (openIndex r s) = some t → t.mem.length = n →
    (loadSnapshot snapshot r (openIndex r s).mem).1.isSome ∨
      Disjoint (covered (fileEntries n files)) (artRegion r) →
    ∃ t', recoverWal fuel r snapshot files (openIndex r { s with mem := t.mem }) = some t' ∧
      Alike r (covered (fileEntries n files)) t.mem t'.mem

/-- The index can be built from the records of the files alone. -/
def Rebuildable (r : Regions) (n : ℕ) (files : LogFiles UInt8) : Prop :=
  8 ≤ r.artBytes.toNat ∧ ∀ free : Freelist, (∀ size, free.stackOf size = []) →
    RoomFor r (replayWal r files (seedMaxima r none (zeros n))).recMax
      (replayWal r files (seedMaxima r none (zeros n))).indexOps
      ⟨(replayWal r files (seedMaxima r none (zeros n))).arena, free⟩

/-- The index can be built from files whose operations, taken together, fit the index region. -/
theorem rebuildable_of_bound (hv : Layout.Valid r n) (hmiss : Disjoint (covered (fileEntries n files)) (artRegion r))
    (hroom : r.artStart + (((fileEntries n files).filterMap Entry.indexOp).map fun op ↦
      insertBound op.key).sum ≤ r.artEnd) :
    Rebuildable r n files := by
  have hstart : r.artStart = r.artRoot.toNat + 8 := rfl
  have hend : r.artEnd = r.artRoot.toNat + r.artBytes.toNat := rfl
  have hbytes : 8 ≤ r.artBytes.toNat := by omega
  have hz : (zeros n).length = n := length_zeros n
  refine ⟨hbytes, fun free hfree ↦ ?_⟩
  generalize zeros n = m at hz
  subst hz
  have hbare : (replayWal r files (seedMaxima r none m)).bare = _ := bare_replayWal (length_resetIndex r m)
  obtain ⟨-, -, -, -, hops⟩ := bare_eq_iff.mp hbare
  have hnone : (seedMaxima r none m).indexOps = [] := rfl
  rw [Entry.indexOps_foldl_apply, hnone, List.nil_append] at hops
  refine (rebuilt_start hv hbytes hmiss hfree).roomFor_of_bound (artEnd_le hv).2 ?_
  rw [hops]
  exact hroom

/-- Recovery without a snapshot comes back, and writes beside the replay the index, the bump words and the ring. -/
theorem recoverWal_returns {m : Bytes} {free : Freelist} (hv : Layout.Valid r m.length)
    (hrebuild : Rebuildable r m.length files) (hmiss : Disjoint (covered (fileEntries m.length files)) (artRegion r))
    (hfree : ∀ size, free.stackOf size = []) :
    ∃ t, (∀ fuel, maxDepth + 3 ≤ fuel → recoverWal fuel r none files ⟨m, free⟩ = some t) ∧
      ChangesOnly (artRegion r ∪ stamped r) (replayWal r files (seedMaxima r none m)).arena t.mem := by
  obtain ⟨hbytes, hroom⟩ := hrebuild
  have hend := (artEnd_le hv).2
  have hz : (zeros m.length).length = m.length := length_zeros _
  have hstart := rebuilt_start hv hbytes hmiss hfree
  have hzero := rebuilt_start (m := zeros m.length) (hz.symm ▸ hv) hbytes (hz.symm ▸ hmiss) hfree
  have hsame : Recovered.SameBut _ (replayWal r files (seedMaxima r none (zeros m.length)))
      (replayWal r files (seedMaxima r none m)) := sameBut_seedMaxima (hz.symm ▸ hv) hbytes hz.symm
  rw [hz] at hzero
  have hroom' := hzero.roomFor hend hstart (hroom free hfree)
  rw [← hsame.recMax, ← hsame.indexOps] at hroom'
  obtain ⟨_, t, h', root', _, ht, _, hch, hrun⟩ := hstart.applyIndexOps hend hstart hroom'
  have hload : loadSnapshot none r m = (none, m) := rfl
  generalize hst : replayWal r files (seedMaxima r none m) = st at hch hrun ⊢
  set artMax := if st.indexOps = [] then st.artMax else max st.artMax (readWord t.mem r.artBumpOffset r.artStart)
    with hart
  refine ⟨{ t with mem := finalize r st.recMax artMax st.strMax t.mem }, fun fuel hfuel ↦ ?_, ?_⟩
  · have happlied := (hrun fuel hfuel).2
    simp only [recoverWal, hload, hst, happlied, hart, bind, Option.bind_some]
  · have hlen : t.mem.length = m.length := ht.indexed.arena.length
    have hfin := changesOnly_finalize (hlen.symm ▸ hv) st.recMax artMax st.strMax
    exact (hch.mono subset_union_left).trans (hfin.mono subset_union_right)

theorem length_openIndex (hv : Layout.Valid r s.mem.length) : (openIndex r s).mem.length = s.mem.length := by
  obtain ⟨-, -, h₁, h₂, h₃⟩ := words_inside hv
  show (init r.artBumpOffset r.artStart s.mem).length = _
  rw [init]
  split_ifs
  · exact length_writeU32 (by omega) _
  · rfl

theorem recoverWal_congr (hload : loadSnapshot snapshot r s'.mem = loadSnapshot snapshot r s.mem)
    (hfree : s'.free = s.free) (fuel : ℕ) :
    recoverWal fuel r snapshot files s' = recoverWal fuel r snapshot files s := by
  simp only [recoverWal, hload, hfree]

/-- The files decide the outcome where a snapshot is accepted, and where the
index can be built in its region. -/
theorem determined_of_rebuildable (hv : validateRegions r n = .ok ())
    (h : (loadSnapshot snapshot r (zeros n)).1.isSome ∨ Rebuildable r n files) : Determined r n snapshot files := by
  have hvalid := (valid_iff r n).mp hv
  have hopen : ∀ s : ArtState, s.mem.length = n → (openIndex r s).mem.length = n := by
    rintro s rfl
    exact length_openIndex hvalid
  have hsome : (loadSnapshot snapshot r (zeros n)).1.isSome → ∀ mem : Bytes, mem.length = n →
      loadSnapshot snapshot r mem = loadSnapshot snapshot r (zeros n) := by
    intro hacc mem hmem
    rcases loadSnapshot_cases snapshot r n with hnone | hblank | ⟨bytes, es, -, -, hload⟩
    · rw [hnone _ (length_zeros n)] at hacc
      cases hacc
    · rw [hblank mem hmem, hblank _ (length_zeros n)]
    · rw [hload mem hmem, hload _ (length_zeros n)]
  have hanywhere : ∀ mem : Bytes, mem.length = n →
      ((loadSnapshot snapshot r mem).1.isSome ↔ (loadSnapshot snapshot r (zeros n)).1.isSome) := by
    intro mem hmem
    rcases loadSnapshot_cases snapshot r n with hnone | hblank | ⟨bytes, es, -, -, hload⟩
    · rw [hnone mem hmem, hnone _ (length_zeros n)]
    · rw [hblank mem hmem, hblank _ (length_zeros n)]
    · rw [hload mem hmem, hload _ (length_zeros n)]
  have hblank : (loadSnapshot snapshot r (zeros n)).1 = none → ∀ mem : Bytes, mem.length = n →
      ∃ mem' : Bytes, mem'.length = n ∧ loadSnapshot snapshot r mem = (none, mem') := by
    intro hnone mem hmem
    rcases loadSnapshot_cases snapshot r n with hsame | hzero | ⟨bytes, es, -, -, hload⟩
    · exact ⟨mem, hmem, hsame mem hmem⟩
    · exact ⟨zeros n, length_zeros n, hzero mem hmem⟩
    · rw [hload _ (length_zeros n)] at hnone
      cases hnone
  have hrebuilt : ∀ s s' : ArtState, s.mem.length = n → s'.mem.length = n → (∀ size, s.free.stackOf size = []) →
      s'.free = s.free → (loadSnapshot snapshot r (zeros n)).1 = none →
      Disjoint (covered (fileEntries n files)) (artRegion r) → ∃ t t',
        (∀ fuel, maxDepth + 3 ≤ fuel → recoverWal fuel r snapshot files (openIndex r s) = some t ∧
          recoverWal fuel r snapshot files (openIndex r s') = some t') ∧
        Alike r (covered (fileEntries n files)) t.mem t'.mem := by
    intro s s' hs hs' horphans hfree hnone hmiss
    obtain ⟨hbytes, hroom⟩ := h.resolve_left (by rw [hnone]; exact Bool.false_ne_true)
    have hfree' : (openIndex r s').free = s.free := hfree
    have hstate : openIndex r s' = ⟨(openIndex r s').mem, s.free⟩ := by rw [← hfree']
    rw [hstate]
    exact recoverWal_alike hvalid hbytes hmiss horphans (hroom _ horphans) (hblank hnone) (hopen s hs) (hopen s' hs')
  refine ⟨fun s s' hstarts hacc fuel ↦ ?_, fun s s' hstarts hnone hmiss ↦ ?_,
    fun s t fuel hstarts hfuel hrun hlen hcase ↦ ?_⟩
  · have hacc' := (hanywhere _ (hopen s hstarts.length)).mp hacc
    refine recoverWal_congr ?_ (show (openIndex r s').free = (openIndex r s).free from hstarts.free) fuel
    rw [hsome hacc' _ (hopen s hstarts.length), hsome hacc' _ (hopen s' hstarts.length')]
  · refine hrebuilt s s' hstarts.length hstarts.length' hstarts.orphans hstarts.free ?_ hmiss
    rw [← Option.not_isSome_iff_eq_none, ← hanywhere _ (hopen s hstarts.length), hnone]
    exact Bool.false_ne_true
  · set again : ArtState := { s with mem := t.mem }
    cases hfirst : (loadSnapshot snapshot r (zeros n)).1 with
    | none =>
      have hmiss := hcase.resolve_left (by
        rw [hanywhere _ (hopen s hstarts.length), hfirst]
        exact Bool.false_ne_true)
      obtain ⟨t₁, t', hboth, halike⟩ := hrebuilt s again hstarts.length hlen hstarts.orphans rfl hfirst hmiss
      obtain ⟨h₁, h'⟩ := hboth fuel hfuel
      obtain rfl := Option.some.inj (h₁.symm.trans hrun)
      exact ⟨t', h', halike⟩
    | some loaded =>
      have hacc : (loadSnapshot snapshot r (zeros n)).1.isSome := by rw [hfirst]; rfl
      refine ⟨t, ?_, .rfl'⟩
      rw [← hrun]
      refine recoverWal_congr ?_ (show (openIndex r again).free = (openIndex r s).free from rfl) fuel
      rw [hsome hacc _ (hopen s hstarts.length), hsome hacc _ (hopen again hlen)]

end Determined

theorem fileEntries_empty (n : ℕ) : fileEntries n LogFiles.empty = [] := by
  rfl

/-- Without files recovery resets the index and writes the words. -/
theorem recoverWal_empty (fuel : ℕ) (r : Regions) (s : ArtState) :
    recoverWal fuel r none LogFiles.empty s =
      some { s with mem := finalize r r.recordStart.toNat r.artStart r.stringDataStart (resetIndex r s.mem) } := by
  have hbare : (replayWal r LogFiles.empty (seedMaxima r none s.mem)).bare = _ := bare_replayWal rfl
  rw [fileEntries_empty] at hbare
  obtain ⟨h₁, h₂, h₃, h₄, h₅⟩ := bare_eq_iff.mp hbare
  have hload : loadSnapshot none r s.mem = (none, s.mem) := rfl
  simp only [recoverWal, hload, h₁, h₂, h₃, h₄, h₅]
  rfl

/-- A table that leaves the index no region. -/
def rootlessRegions : Regions := ⟨65536, 16, 4096, 45056, 49152, 0, 57344, 8192⟩

theorem rootlessRegions_valid : validateRegions rootlessRegions 65536 = .ok () := by decide

def staleLeaf : Tree := .leaf 53248 [97] 4096

/-- The root word of an earlier process, and the leaf that it points to. -/
def stale (mem : Bytes) : Bytes :=
  overwrite (writeU32 mem 49152 staleLeaf.raw) 53248 (leEncode 4 1 ++ leEncode 4 4096 ++ [97])

section Stale

variable {m : Bytes} (hm : m.length = 65536)
include hm

theorem length_stale : (stale m).length = 65536 := by
  have hword : (writeU32 m 49152 staleLeaf.raw).length = 65536 := by rw [length_writeU32 (by omega), hm]
  rw [stale, length_overwrite (by simp only [List.length_append, length_leEncode, List.length_singleton]; omega), hword]

theorem stale_spec : readU32 (stale m) 49152 = staleLeaf.raw ∧ Stored (stale m) staleLeaf ∧
    slice (stale m) 0 headerBytes = slice m 0 headerBytes := by
  have hword : (writeU32 m 49152 staleLeaf.raw).length = 65536 := by rw [length_writeU32 (by omega), hm]
  have hfit : 53248 + (leEncode 4 1 ++ leEncode 4 4096 ++ [97]).length ≤ (writeU32 m 49152 staleLeaf.raw).length := by
    rw [hword]
    decide
  have hleaf : slice (stale m) 53248 9 = leEncode 4 1 ++ leEncode 4 4096 ++ [97] := slice_overwrite_self hfit
  have hpart : ∀ a k, a + k ≤ 9 → slice (stale m) (53248 + a) k = slice (slice (stale m) 53248 9) a k := by
    intro a k hak
    apply List.ext_getElem?
    intro i
    simp only [getElem?_slice]
    split_ifs <;> first | rfl | omega | (congr 1; omega)
  refine ⟨?_, ⟨?_, ?_, ?_⟩, ?_⟩
  · rw [stale, readU32_overwrite_of_disjoint hfit (.inl (by decide))]
    exact readU32_writeU32_self (by omega) (by decide)
  · rw [readU32, hpart 0 4 (by decide), hleaf]
    decide
  · rw [readU32, hpart 4 4 (by decide), hleaf]
    decide
  · show slice (stale m) (53248 + 8) 1 = [97]
    rw [hpart 8 1 (by decide), hleaf]
    decide
  · rw [stale, slice_overwrite_of_disjoint hfit (.inl (by decide)), writeU32,
      slice_overwrite_of_disjoint (by rw [length_leEncode]; omega) (.inl (by decide))]

/-- Recovery without files leaves the root word and the gap behind it alone. -/
theorem changesOnly_rootless (free : Freelist) :
    ∃ mem, (∀ fuel, recoverWal fuel rootlessRegions none LogFiles.empty (openIndex rootlessRegions ⟨m, free⟩) =
      some ⟨mem, free⟩) ∧ ChangesOnly (stamped rootlessRegions) m mem := by
  have hvalid : Layout.Valid rootlessRegions m.length := hm.symm ▸ (valid_iff _ _).mp rootlessRegions_valid
  have hbump : rootlessRegions.artBumpOffset = 49156 := by decide
  have hsub : Ico rootlessRegions.artBumpOffset (rootlessRegions.artBumpOffset + 4) ⊆ stamped rootlessRegions :=
    fun x hx ↦ .inl (.inl (.inr hx))
  have hopen : ChangesOnly (stamped rootlessRegions) m (openIndex rootlessRegions ⟨m, free⟩).mem := by
    show ChangesOnly _ m (init rootlessRegions.artBumpOffset rootlessRegions.artStart m)
    rw [init]
    split_ifs
    · exact (changesOnly_writeU32 (by omega) _).mono hsub
    · exact .rfl'
  have hlen := hopen.length_eq
  have hreset : ChangesOnly (stamped rootlessRegions) (openIndex rootlessRegions ⟨m, free⟩).mem
      (resetIndex rootlessRegions (openIndex rootlessRegions ⟨m, free⟩).mem) := by
    have hnone : zeros rootlessRegions.artBytes.toNat = [] := rfl
    rw [resetIndex, if_neg (by rw [hlen, hm]; decide), hnone, overwrite_nil]
    exact (changesOnly_setBump (by omega) _).mono hsub
  have hlen' := hreset.length_eq.trans hlen
  have hfin := changesOnly_finalize (hlen'.symm ▸ hvalid) rootlessRegions.recordStart.toNat
    rootlessRegions.artStart rootlessRegions.stringDataStart
  exact ⟨_, fun fuel ↦ recoverWal_empty fuel _ _, (hopen.trans hreset).trans hfin⟩

end Stale

theorem search_blank {mem : Bytes} (hroot : readU32 mem 49152 = 0) (hlen : mem.length = 65536) (fuel : ℕ) :
    search (regionIndex rootlessRegions) [97] fuel mem = .ok none := by
  have hword : (regionIndex rootlessRegions).rootPtrOffset = 49152 := by decide
  rw [search, if_neg (by decide), hword, if_neg (by omega), if_pos hroot]

theorem search_stale {mem : Bytes} (hroot : readU32 mem 49152 = staleLeaf.raw) (hst : Stored mem staleLeaf)
    (hlen : mem.length = 65536) {fuel : ℕ} (hfuel : maxDepth < fuel) :
    search (regionIndex rootlessRegions) [97] fuel mem = .ok (some 4096) := by
  have hword : (regionIndex rootlessRegions).rootPtrOffset = 49152 := by decide
  refine search_stored hst (hword ▸ hroot) ⟨by decide, List.nil_prefix⟩ ?_ ?_ [97] hfuel
  · rw [hlen]
    exact ⟨by decide, by decide⟩
  · rw [hword]
    omega

/-- Without an index region a key of the process before is found again. -/
theorem rootlessRegions_not_determined : validateRegions rootlessRegions 65536 = .ok () ∧
    ¬ Determined rootlessRegions 65536 none LogFiles.empty := by
  refine ⟨rootlessRegions_valid, fun h ↦ ?_⟩
  have hz : (zeros 65536).length = 65536 := length_zeros _
  have hroot : readU32 (zeros 65536) 49152 = 0 := readU32_zeros (by decide)
  generalize zeros 65536 = m at hz hroot
  let free : Freelist := ⟨false, fun _ ↦ []⟩
  obtain ⟨hword, hst, hheader⟩ := stale_spec hz
  obtain ⟨mem, hrun, hch⟩ := changesOnly_rootless hz free
  obtain ⟨mem', hrun', hch'⟩ := changesOnly_rootless (length_stale hz) free
  have hstarts : Starts 65536 ⟨m, free⟩ ⟨stale m, free⟩ := ⟨hz, length_stale hz, hheader, fun _ ↦ rfl, rfl⟩
  have hmiss : Disjoint (covered (fileEntries 65536 LogFiles.empty)) (artRegion rootlessRegions) := by
    rw [fileEntries_empty, covered_nil]
    exact empty_disjoint _
  obtain ⟨t, t', hboth, halike⟩ := h.rebuilt _ _ hstarts rfl hmiss
  obtain ⟨ht, ht'⟩ := hboth _ le_rfl
  obtain rfl := Option.some.inj ((hrun _).symm.trans ht)
  obtain rfl := Option.some.inj ((hrun' _).symm.trans ht')
  have hclear : Disjoint (Ico 49152 49156) (stamped rootlessRegions) := by
    simp only [stamped, disjoint_union_right]
    exact ⟨⟨⟨disjoint_Ico (by decide), disjoint_Ico (by decide)⟩, disjoint_Ico (by decide)⟩, disjoint_Ico (by decide)⟩
  have hfoot : Disjoint staleLeaf.foot (stamped rootlessRegions) := by
    simp only [stamped, disjoint_union_right]
    exact ⟨⟨⟨disjoint_Ico (by decide), disjoint_Ico (by decide)⟩, disjoint_Ico (by decide)⟩, disjoint_Ico (by decide)⟩
  have hwf : staleLeaf.WF [] := ⟨by decide, List.nil_prefix⟩
  have hsame := halike.index [97] (maxDepth + 1) (Nat.lt_succ_self _)
  rw [search_blank ((hch.readU32 hclear).trans hroot) (hch.length_eq.trans hz),
    search_stale ((hch'.readU32 hclear).trans hword)
      (hst.frame hch' hwf hfoot) (hch'.length_eq.trans (length_stale hz))
      (Nat.lt_succ_self _)] at hsame
  cases hsame

/-- A record and two keys for it. -/
def smallLog : List Entry :=
  [⟨.arenaWrite, 40960, [255, 255]⟩, ⟨.indexOp, 40960, [107]⟩, ⟨.indexOp, 40960, [107, 108]⟩]

theorem fileEntries_smallLog : fileEntries 65536 (sectorFile smallLog) = smallLog := by
  have hvalid : ∀ e ∈ smallLog, e.payload ≠ [] ∧ e.payload.length ≤ Wal.maxEntryLen ∧
      e.offset.toNat + e.payload.length ≤ 65536 := by decide
  refine fileEntries_sectorFile (fun e he ↦ ?_) (by decide)
  obtain ⟨hne, hle, hinside⟩ := hvalid e he
  exact ⟨List.length_pos_iff.mpr hne, hle, fun _ ↦ hinside⟩

/-- Two arenas rebuild the same index from a log with keys. -/
theorem smallRegions_determined : Determined smallRegions 65536 none (sectorFile smallLog) := by
  refine determined_of_rebuildable ((valid_iff _ _).mpr smallRegions_valid)
    (.inr (rebuildable_of_bound smallRegions_valid ?_ ?_)) <;> rw [fileEntries_smallLog]
  · have hcovered : covered smallLog = Ico 40960 40962 := by
      ext x
      simp [covered, smallLog]
    rw [hcovered]
    exact disjoint_Ico (.inl (by decide))
  · decide

end TakyonDb.Restart
