import TakyonDb.EntryFiles
import TakyonDb.VacuumLog

namespace TakyonDb.VacuumLog

open Lib Layout Wal Exports Proxy Art Replay Restart Recovery Set Vacuum

variable {offsets : List UInt32} {r : Regions} {fields : List ℕ} {base mem mem' : Bytes} {s s' : System}
  {es : List Entry} {a : Event} {files : LogFiles UInt8}

theorem Inv.step (h : Inv r fields base s) (hr : Layout.Valid r base.length) (hf : Fields r fields base)
    (hok : Keeps r offsets fields base s a) (hstep : Step r offsets fields s a s') : Inv r fields base s' := by
  have hr' : Layout.Valid r s.mem.length := h.length ▸ hr
  cases hstep with
  | granted ha hgrant hroom =>
    rename_i abs value mem off
    have hch := changesOnly_grantString hr' value.length
    obtain ⟨hoff, hmem⟩ := Prod.ext_iff.mp hgrant
    obtain rfl : stringBump r s.mem = off := hoff
    rw [hmem] at hch
    refine h.take hr (hch.mono subset_union_left) (empty_subset _) hroom (hok hroom) ?_ ?_ (.inl rfl) ?_
    · intro v hv
      cases hv
    · intro abs' habs
      exact Purpose.field.inj habs ▸ ha
    · intro hcopied
      cases hcopied
  | full hgrant hfull =>
    rename_i len off mem
    have hch := changesOnly_grantString hr' len
    rw [hgrant] at hch
    exact h.bump hr hch
  | copy hc hstage => exact h.copy hr hc hstage
  | announce hc hstage hfield hpos => exact h.announce hr hf hc hstage hfield hpos hok
  | point hc hstage hfield => exact h.point hr hf hc hstage hfield
  | send hc hstage hfield => exact h.send hr hf hc hstage hfield
  | abandon hc => exact h.drop _
  | key hpos hle halloc =>
    rename_i key mem value off
    obtain ⟨rfl, hroom, hch, hslice⟩ := changesOnly_allocString hr' halloc
    refine h.take hr hch Subset.rfl hroom (hok hroom) ?_ ?_ (.inr rfl) fun _ ↦ hslice
    · intro v _
      exact ⟨⟨hpos, hle⟩, rfl⟩
    · intro abs habs
      cases habs
  | keyFull halloc => exact h.bump hr (changesOnly_allocString_none hr' halloc)
  | bind hc hkey => exact h.bind hr hc hkey
  | index hcall => exact h.index hr hok hcall
  | pass hrun =>
    obtain ⟨hwaits, hart⟩ := disjoint_union_right.mp hok
    refine h.write (changesOnly_pass hr' hrun) (disjoint_union_left.mpr ⟨hwaits, h.bumpSpan_clear⟩) ?_
    exact disjoint_union_right.mpr ⟨hart.symm, disjoint_artRegion hr fun _ hi ↦ hi.1⟩
  | passLogged htodo hrun =>
    rename_i mem relocated
    have hnone : movedStrings (regionIndex r) r offsets s.mem = [] := hok
    obtain rfl := relocated_eq_nil hr' hrun hnone
    have hch := changesOnly_pass hr' hrun
    have hstored : Inv r fields base { s with mem } := by
      refine h.bump hr (hch.mono (union_subset ?_ Subset.rfl))
      intro i htouched
      rw [touched, hnone] at htouched
      rcases htouched with ⟨x, hx, _⟩ | ⟨hne, _⟩
      · cases hx
      · exact absurd rfl hne
    obtain ⟨_, _, _, _, _, todo, _, _, _⟩ := s
    obtain rfl : todo = [] := htodo
    exact hstored
  | log htodo =>
    rw [h.todo] at htodo
    cases htodo
  | pop hnone hqueue => exact h.pop hnone hqueue
  | process hpopped => exact h.process hpopped

/-- Where recovery writes beside the records of the log. -/
def reset (r : Regions) : Set ℕ := artRegion r ∪ stamped r

/-- The arena after recovery is what the records make of the arena before it, but for the index, the bump words and
the ring. -/
theorem changesOnly_recovered (hr : Layout.Valid r base.length) (hrebuild : Rebuildable r base.length files)
    (hmiss : Disjoint (covered (fileEntries base.length files)) (artRegion r)) {free : Freelist}
    (hfree : ∀ size, free.stackOf size = []) :
    ∃ t, (∀ fuel, maxDepth + 3 ≤ fuel → recoverWal fuel r none files ⟨base, free⟩ = some t) ∧
      ChangesOnly (reset r) (image (fileEntries base.length files) base) t.mem := by
  have hvalid : ∀ e ∈ fileEntries base.length files, e.Valid base.length := fileEntries_valid
  have hreset := changesOnly_resetIndex hr hrebuild.1
  have hsame : Recovered.SameBut (artRegion r) ⟨base, 0, 0, 0, [], {}⟩
      ⟨resetIndex r base, 0, 0, 0, [], {}⟩ := ⟨hreset, rfl, rfl, rfl, rfl⟩
  have himage : ChangesOnly (artRegion r) (image (fileEntries base.length files) base)
      (image (fileEntries base.length files) (resetIndex r base)) := by
    rw [image_eq r, image_eq r]
    exact (hsame.foldl hvalid).arena.mono sdiff_subset
  have hreplayed : (replayWal r files (seedMaxima r none base)).arena =
      image (fileEntries base.length files) (resetIndex r base) := by
    have hbare : (replayWal r files (seedMaxima r none base)).bare = _ := bare_replayWal hreset.length_eq
    rw [(bare_eq_iff.mp hbare).1, Entry.arena_foldl]
    rfl
  obtain ⟨t, hrun, hch⟩ := recoverWal_returns hr hrebuild hmiss hfree
  rw [← hreplayed] at himage
  exact ⟨t, hrun, (himage.mono subset_union_left).trans hch⟩

theorem reset_clear (hr : Layout.Valid r base.length) {a : ℕ} (hlow : r.recordStart.toNat ≤ a ∧ a + 8 ≤ r.recordEnd)
    (hin : Inside r mem a) : Disjoint (Ico a (a + 8)) (reset r) ∧
      Disjoint (Ico (readU32 mem a) (readU32 mem a + readU32 mem (a + 4))) (reset r) := by
  obtain ⟨h₁, h₂, h₃, h₄, -⟩ := words_inside hr
  have hrecord := hr.record
  have hend := hr.recordEnd_le
  have hart := hr.artEnd_le
  have hartEnd : r.artEnd = r.artRoot.toNat + r.artBytes.toNat := rfl
  have hstart : r.artStart = r.artRoot.toNat + 8 := rfl
  have hdata : r.stringDataStart = r.stringStart.toNat + 8 := rfl
  have hring : ringOffset ≤ r.recordBumpOffset := Nat.le_add_right _ _
  simp only [reset, stamped, disjoint_union_right]
  constructor
  · refine ⟨disjoint_Ico ?_, ⟨⟨disjoint_Ico ?_, disjoint_Ico ?_⟩, disjoint_Ico ?_⟩, disjoint_Ico ?_⟩ <;> omega
  · rcases hin with ⟨hoff, hlen⟩ | ⟨hoff, -⟩
    · rw [hoff, hlen]
      refine ⟨disjoint_Ico ?_, ⟨⟨disjoint_Ico ?_, disjoint_Ico ?_⟩, disjoint_Ico ?_⟩, disjoint_Ico ?_⟩ <;> omega
    · refine ⟨disjoint_Ico ?_, ⟨⟨disjoint_Ico ?_, disjoint_Ico ?_⟩, disjoint_Ico ?_⟩, disjoint_Ico ?_⟩ <;> omega

theorem inv_start {a : ArtState} (hf : Fields r fields a.mem) (hregion : InRegion r a.mem.length a) :
    Inv r fields a.mem (start a) where
  length := rfl
  todo := rfl
  calls c hc := absurd hc List.not_mem_nil
  apart := List.Pairwise.nil
  carried d hd := absurd hd List.not_mem_nil
  valid e he := absurd he List.not_mem_nil
  shows es hes a ha := by
    obtain rfl := List.prefix_nil.mp hes
    exact ⟨hf.inside a ha, .inl rfl⟩
  bound := rfl
  region := hregion
  clear := covered_nil ▸ empty_disjoint _

theorem Inv.recoverable (h : Inv r fields base s) (hr : Layout.Valid r base.length) (hf : Fields r fields base)
    (hrebuild : ∀ files, fileEntries base.length files <+: s.log → Rebuildable r base.length files) :
    Recoverable r fields base s where
  reads files hfiles free hfree := by
    have hprefix : fileEntries base.length files <+: s.described := hfiles.trans (List.prefix_append _ _)
    have hmiss := h.clear.mono_left (covered_mono hprefix.subset)
    obtain ⟨t, hrun, hch⟩ := changesOnly_recovered hr (hrebuild files hfiles) hmiss hfree
    refine ⟨t, hrun, fun a ha ↦ ?_⟩
    obtain ⟨hin, hassigned⟩ := h.shows _ hprefix a ha
    obtain ⟨hpointer, hbytes⟩ := reset_clear hr (hf.region a ha) hin
    obtain ⟨-, -, hread⟩ := readString_frame hch hpointer hbytes
    rw [hread]
    exact hassigned
  keys := by
    rw [← h.bound, System.described, List.filterMap_append]
    exact List.prefix_append _ _

/-- In a run whose grants, announcements, index calls and passes keep what the log has yet to read, and in which no pass
that logs moves a string, the log recovers where the index that it describes has room in its region. -/
theorem recoverable_of_keeps {a : ArtState} (hr : validateRegions r a.mem.length = .ok ()) (hf : Fields r fields a.mem)
    (hregion : InRegion r a.mem.length a) (hrun : Run (Step r offsets fields) (Keeps r offsets fields a.mem) (start a) s)
    (hrebuild : ∀ files, fileEntries a.mem.length files <+: s.log → Rebuildable r a.mem.length files) :
    Recoverable r fields a.mem s := by
  have hvalid := (valid_iff r a.mem.length).mp hr
  have hinv := hrun.invariant (Inv r fields a.mem) (fun _ _ _ hs hok hstep ↦ hs.step hvalid hf hok hstep)
    (inv_start hf hregion)
  exact hinv.recoverable hvalid hf hrebuild

/-- The index that the log describes has room where the keys of the run have, taken together. -/
theorem Inv.rebuildable (h : Inv r fields base s) (hr : Layout.Valid r base.length)
    (hfiles : fileEntries base.length files <+: s.log)
    (hroom : r.artStart + (s.bound.map fun op ↦ insertBound op.key).sum ≤ r.artEnd) :
    Rebuildable r base.length files := by
  have hprefix : fileEntries base.length files <+: s.described := hfiles.trans (List.prefix_append _ _)
  obtain ⟨later, hops⟩ := h.bound ▸ hprefix.filterMap Entry.indexOp
  rw [← hops, List.map_append, List.sum_append] at hroom
  exact rebuildable_of_bound hr (h.clear.mono_left (covered_mono hprefix.subset)) (by omega)

/-- The arena with one string, whose first byte is one. -/
def firstByteArena : Bytes := overwrite (oneStringArena 5) 16769032 [1]

/-- The same arena, with the bump word of the index behind its two nodes. -/
def namedArena : Bytes := writeU32 firstByteArena 49156 49200

theorem changesOnly_firstByteArena : ChangesOnly (Ico 16769032 16769033) (oneStringArena 5) firstByteArena := by
  have hfit : 16769032 + ([1] : Bytes).length ≤ (oneStringArena 5).length := by
    rw [length_oneStringArena]
    decide
  exact changesOnly_overwrite hfit

theorem artWord_fits : 49156 + 4 ≤ firstByteArena.length := by
  rw [changesOnly_firstByteArena.length_eq, length_oneStringArena]
  omega

theorem changesOnly_namedArena :
    ChangesOnly (Ico 16769032 16769033 ∪ Ico 49156 49160) (oneStringArena 5) namedArena :=
  (changesOnly_firstByteArena.mono subset_union_left).trans
    ((changesOnly_writeU32 artWord_fits 49200).mono subset_union_right)

theorem length_namedArena : namedArena.length = 16777216 :=
  changesOnly_namedArena.length_eq.trans (length_oneStringArena 5)

theorem readU32_namedArena {addr : ℕ} (h : addr + 4 ≤ 49156 ∨ 49160 ≤ addr ∧ addr + 4 ≤ 16769032) :
    readU32 namedArena addr = readU32 (oneStringArena 5) addr := by
  refine changesOnly_namedArena.readU32 (disjoint_union_right.mpr ⟨disjoint_Ico ?_, disjoint_Ico ?_⟩)
  · omega
  · omega

theorem namedArena_field : readU32 namedArena 4096 = 16769032 ∧ readU32 namedArena 4100 = 5 ∧
    readU32 namedArena 16769024 = 16769037 := by
  obtain ⟨hoff, hlen, hbump⟩ := oneString_field (show 5 < 2 ^ 16 by omega)
  exact ⟨(readU32_namedArena (by omega)).trans hoff, (readU32_namedArena (by omega)).trans hlen,
    (readU32_namedArena (by omega)).trans hbump⟩

theorem oneStringTree_foot : oneStringTree.foot ⊆ Ico 49160 49200 := by
  rintro i (hnode | hleaf)
  · have hsize : i < 49160 + 24 := hnode.2
    exact ⟨hnode.1, by omega⟩
  · obtain ⟨b, hb⟩ := mem_iUnion.mp hleaf
    by_cases h97 : b = 97
    · subst h97
      have hsize : 49184 ≤ i ∧ i < 49184 + 16 := hb
      exact ⟨by omega, hsize.2⟩
    · simp [Tree.kidsOf, h97, Tree.foot] at hb

/-- The index of the arena, in a process that has orphaned no node. -/
theorem namedArena_confined :
    Confined stringRegions 16777216 ⟨namedArena, noOrphans⟩ ⟨49200, noOrphans⟩ oneStringTree := by
  obtain ⟨hstored, hword, hwf, hlaid⟩ := oneString_indexes 5
  have hfoot := oneStringTree_foot
  have hclear : Disjoint oneStringTree.foot (Ico 16769032 16769033 ∪ Ico 49156 49160) :=
    disjoint_union_right.mpr ⟨(disjoint_Ico (.inl (by omega))).mono_left hfoot,
      (disjoint_Ico (.inr le_rfl)).mono_left hfoot⟩
  have hstored' := hstored.frame changesOnly_namedArena hwf hclear
  have hword' : readU32 namedArena 49152 = oneStringTree.raw := (readU32_namedArena (by omega)).trans hword
  have hbump : readU32 namedArena 49156 = 49200 := readU32_writeU32_self artWord_fits (by omega)
  have hlen := length_namedArena
  have hv : Layout.Valid stringRegions 16777216 := (valid_iff _ _).mp (by decide)
  have hblocks : noOrphans.blocks = [] := rfl
  have havail : Heap.avail ⟨49200, noOrphans⟩ = Ici 49200 := by simp [Heap.avail, hblocks]
  have hbehind : ∀ a b, b ≤ 49200 → Disjoint (Ico a b) (Ici 49200) := fun a b hle ↦
    disjoint_left.mpr fun c hc hn ↦ absurd hc.2 (not_lt.mpr (hle.trans hn))
  generalize namedArena = m at *
  have harena : Arena (regionIndex stringRegions) 16777216 ⟨m, noOrphans⟩ ⟨49200, noOrphans⟩ := by
    refine ⟨regionIndex_placed hv (by decide), hlen, hbump, rfl, ⟨by decide, by decide, ?_, ?_⟩, ?_⟩
    · simp [hblocks]
    · simp [hblocks]
    · rw [havail]
      exact hbehind 49156 49160 (by omega)
  have hindexed : Indexed (regionIndex stringRegions) 16777216 ⟨m, noOrphans⟩ ⟨49200, noOrphans⟩ oneStringTree := by
    refine ⟨harena, hstored', hword', hwf, oneStringTree_laid, ?_, ?_, ?_, .inr trivial⟩
    · rw [havail]
      exact (hbehind 49160 49200 le_rfl).mono_left hfoot
    · rw [havail]
      exact disjoint_union_right.mpr ⟨(disjoint_Ico (.inl (by decide))).mono_right hfoot,
        hbehind 49152 49156 (by omega)⟩
    · exact (disjoint_Ico (.inl (by decide))).mono_right hfoot
  refine ⟨hindexed, hfoot.trans (Ico_subset_Ico (by decide) (by decide)), ?_, by decide⟩
  rw [havail]
  exact Ici_subset_Ici.mpr (by decide)

theorem namedArena_bytes : namedArena[16769032]? = some 1 ∧ namedArena[16773128]? = some 0 := by
  have hbyte := changesOnly_firstByteArena
  have hch := changesOnly_writeU32 artWord_fits 49200
  have hfit : 16769032 + ([1] : Bytes).length ≤ (oneStringArena 5).length := by
    rw [length_oneStringArena]
    decide
  have hone : firstByteArena[16769032]? = some 1 := by
    rw [firstByteArena, getElem?_overwrite hfit, if_pos (by simp)]
    rfl
  have hzero : firstByteArena[16773128]? = some 0 := by
    have hclear : 16773128 ∉ Ico 16769032 16769033 := fun h ↦ absurd h.2 (by omega)
    have hnone : lastWrite (oneString 5) 16773128 = none := rfl
    have hblank : (zeros 16777216)[16773128]? = some 0 := List.getElem?_replicate_of_lt (by omega)
    rw [hbyte.getElem?_eq _ hclear, oneStringArena, getElem?_applyWrites (oneString_fits 5), hnone, hblank]
    rfl
  constructor
  · rw [namedArena, hch.getElem?_eq _ fun h ↦ absurd h.2 (by omega), hone]
  · rw [namedArena, hch.getElem?_eq _ fun h ↦ absurd h.2 (by omega), hzero]

/-- The second pass over one string. -/
theorem compactInto_one {fatAddr off len dstBank : ℕ} (hswizzle : swizzle mem ⟨fatAddr, off, len⟩ dstBank = some mem')
    (hfit : dstBank + (slice mem off len).length ≤ mem'.length)
    (hword : dstBank + (slice mem off len).length < 2 ^ 32) :
    compactInto r mem [⟨fatAddr, off, len⟩] dstBank =
      .done (published r dstBank ⟨mem', slice mem off len, [⟨fatAddr, dstBank, len⟩]⟩) [⟨fatAddr, dstBank, len⟩] := by
  have hnew : dstBank < 4294967296 := by omega
  have hone : relocate dstBank ⟨mem, [], []⟩ ⟨fatAddr, off, len⟩ =
      some ⟨mem', slice mem off len, [⟨fatAddr, dstBank, len⟩]⟩ := by
    simp [relocate, hnew, hswizzle]
  have hloop : [(⟨fatAddr, off, len⟩ : LiveString)].foldlM (relocate dstBank) ⟨mem, [], []⟩ =
      some ⟨mem', slice mem off len, [⟨fatAddr, dstBank, len⟩]⟩ := by
    rw [List.foldlM_cons, hone]
    rfl
  rw [compactInto, hloop]
  exact publish_eq hfit hword

/-- A pass over an arena with one string in the first bank moves it to the second. -/
theorem exists_pass {m : Bytes} (hlength : m.length = 16777216)
    (hix : Indexes m (regionIndex stringRegions) oneStringTree)
    (hoff : readU32 m 4096 = 16769032) (hlen : readU32 m 4100 = 5) (hbump : readU32 m 16769024 < 16773128) :
    ∃ mem, runVacuumOnceMulti (regionIndex stringRegions) stringRegions [0] m = .done mem [⟨4096, 16773128, 5⟩] ∧
      readU32 mem 4096 = 16773128 ∧
      touched (regionIndex stringRegions) stringRegions [0] m ⊆ Ico 4096 4104 ∪ Ico 16773128 16773133 := by
  have hr : Layout.Valid stringRegions m.length := hlength ▸ (valid_iff _ _).mp (by decide)
  have hlive : liveStrings m [4096] = [⟨4096, 16769032, 5⟩] := by
    have hat : liveAt m 4096 = some ⟨4096, 16769032, 5⟩ := by
      rw [liveAt, hoff, hlen, hlength, if_neg (by omega)]
    simp [liveStrings, hat]
  have htotal : Vacuum.totalLen (liveStrings m [4096]) = 5 := by simp [hlive, Vacuum.totalLen]
  have hsize : bankSize stringRegions = 4096 := by decide
  have hbank : freeBank stringRegions m = 16773128 := by
    have hstart : stringRegions.stringStart.toNat = 16769024 := rfl
    have hdata : stringRegions.stringDataStart = 16769032 := rfl
    rw [freeBank, hstart, hdata, hsize, if_neg (by omega)]
  have hmin : minArenaForVacuum ≤ 16777216 := by decide
  have hle : Vacuum.totalLen (liveStrings m (Vacuum.fields oneStringTree.values [0])) ≤ m.length := by
    rw [oneString_fields]
    omega
  have hmoved : movedStrings (regionIndex stringRegions) stringRegions [0] m = _ :=
    movedStrings_eq hix hle (by rw [oneString_fields, htotal, hsize]; omega)
  rw [oneString_fields, hlive] at hmoved
  have hrun := runVacuumOnceMulti_eq hr hix fun _ ↦ hle
  rw [oneString_fields, hbank, htotal, hlength, hsize, if_neg (by omega), if_neg (by omega), if_neg (by omega),
    hlive] at hrun
  have hnew : 16773128 < 2 ^ 32 := by omega
  obtain ⟨hgone, -⟩ | ⟨m', hswizzle, hch, hswung, -⟩ :=
    swizzle_spec (s := ⟨4096, 16769032, 5⟩) (show 4096 + 8 ≤ m.length by omega) hlen hnew
  · exact absurd hoff hgone
  have htemp : (slice m 16769032 5).length = 5 := length_slice (by omega)
  have hmem : m'.length = 16777216 := hch.length_eq.trans hlength
  have hdone := compactInto_one (r := stringRegions) hswizzle (by omega) (by omega)
  set c : Compaction := ⟨m', slice m 16769032 5, [⟨4096, 16773128, 5⟩]⟩ with hc
  have hfit : 16773128 + c.temp.length ≤ c.mem.length := by
    rw [hc]
    dsimp only
    omega
  have hpublished := changesOnly_published (show stringRegions.stringDataStart ≤ c.mem.length from hmem ▸ (by decide)) hfit
  refine ⟨_, hrun.trans hdone, ?_, ?_⟩
  · refine (hpublished.readU32 ?_).trans hswung
    exact disjoint_union_right.mpr ⟨disjoint_Ico (.inl (by decide)), disjoint_Ico (.inl (by omega))⟩
  intro i htouched
  rw [touched, hmoved, hbank] at htouched
  rcases htouched with ⟨a, ha, hi⟩ | ⟨-, hi⟩
  · obtain rfl := List.mem_singleton.mp ha
    exact .inl hi
  · exact .inr hi

theorem namedArena_fields : Fields stringRegions [4096] namedArena := by
  obtain ⟨hoff, hlen, -⟩ := namedArena_field
  generalize namedArena = m at *
  refine ⟨by decide, by decide, ?_⟩
  intro a ha
  have hlen' : readU32 m (4096 + 4) = 5 := hlen
  rw [List.mem_singleton.mp ha, Inside, hoff, hlen']
  exact .inr (by decide)

theorem oneStringTree_free : ¬ oneStringTree.Stuck [98] 0 := by
  rintro (⟨hhas, -, -⟩ | hstuck)
  · exact absurd hhas (by decide)
  · exact hstuck

/-- A key waits to be logged while a pass moves the string of the record; then it is sent, inserted and logged. -/
theorem recoverable_across_pass :
    ∃ s, Run (Step stringRegions [0] [4096]) (Keeps stringRegions [0] [4096] namedArena)
      (start ⟨namedArena, noOrphans⟩) s ∧
      s.log.filterMap Entry.indexOp = [⟨[98], 4096⟩] ∧ readU32 s.mem 4096 = 16773128 ∧
        Recoverable stringRegions [4096] namedArena s := by
  have hlength := length_namedArena
  have hf := namedArena_fields
  have hconfined := namedArena_confined
  obtain ⟨hoff, hlen, hbump⟩ := namedArena_field
  generalize namedArena = m at *
  have hv : Layout.Valid stringRegions m.length := hlength.symm ▸ (valid_iff _ _).mp (by decide)
  have hregion : InRegion stringRegions m.length ⟨m, noOrphans⟩ := by
    rw [hlength]
    exact inRegion_iff.mpr ⟨_, _, hconfined⟩
  have hword : readU32 m stringRegions.stringStart.toNat = 16769037 := hbump
  have hstrings : stringBump stringRegions m = 16769037 := by rw [stringBump_of_ne (by omega), hword]
  have hone : ([98] : Bytes).length = 1 := rfl
  -- the key is copied behind the string of the record
  obtain ⟨m₁, halloc⟩ : ∃ m₁, allocString stringRegions [98] m = (some (stringBump stringRegions m), m₁) :=
    exists_allocString (by decide) (by decide) (by rw [hstrings]; decide)
  rw [hstrings] at halloc
  obtain ⟨-, hnext, -⟩ := allocString_bump hv (by rw [hstrings]; decide) halloc
  obtain ⟨-, -, hch₁, -⟩ := changesOnly_allocString hv halloc
  have hlen₁ : m₁.length = 16777216 := hch₁.length_eq.trans hlength
  have habove := strings_above (show stringRegions.stringDataStart ≤ 16769037 by decide) 1
  let c : Call := ⟨.key 4096, .copied, 16769037, [98]⟩
  let s₁ : System := { start ⟨m, noOrphans⟩ with mem := m₁, calls := [c] }
  have h₁ : Step stringRegions [0] [4096] (start ⟨m, noOrphans⟩) (.grant ([98] : Bytes).length) s₁ :=
    .key (by decide) (by decide) halloc
  have hok₁ : Keeps stringRegions [0] [4096] m (start ⟨m, noOrphans⟩) (.grant 1) := by
    intro _
    have hmem : stringBump stringRegions (start ⟨m, noOrphans⟩).mem = 16769037 := hstrings
    rw [hmem]
    refine ⟨by decide, disjoint_left.mpr ?_, fun c hc ↦ absurd hc List.not_mem_nil, disjoint_left.mpr ?_⟩
    · rintro i - (⟨d, hd, -⟩ | ⟨c, hc, -⟩)
      · exact absurd hd List.not_mem_nil
      · exact absurd hc List.not_mem_nil
    · rintro i hi ⟨a, ha, htarget⟩
      obtain rfl := List.mem_singleton.mp ha
      have hfrom : 16769037 ≤ i := hi.1
      have hto : i < readU32 m 4096 + readU32 m (4096 + 4) := htarget.2
      have hlen' : readU32 m (4096 + 4) = 5 := hlen
      omega
  -- the pass moves the string to the second bank
  have hlow : ∀ i ∈ bumpSpan stringRegions ∪ Ico 16769037 (16769037 + ([98] : Bytes).length), 16769024 ≤ i := habove
  have hbelow : ∀ addr, addr + 4 ≤ 16769024 → readU32 m₁ addr = readU32 m addr := fun addr haddr ↦
    hch₁.readU32 (disjoint_left.mpr fun i hi hin ↦ by
      have := hlow i hin
      have := hi.2
      omega)
  have hconfined₁ := hconfined.frame hch₁ (disjoint_artRegion (hlength ▸ hv) habove)
  have hix : Indexes m₁ (regionIndex stringRegions) oneStringTree :=
    ⟨hconfined₁.indexed.stored, hconfined₁.indexed.word, hconfined₁.indexed.wf, hlen₁.symm ▸ hconfined₁.indexed.laid⟩
  have hbump₁ : readU32 m₁ 16769024 < 16773128 := by
    have hle : readU32 m₁ 16769024 ≤ stringBump stringRegions m₁ := by
      by_cases hzero : readU32 m₁ stringRegions.stringStart.toNat = 0
      · exact hzero.le.trans (Nat.zero_le _)
      · exact (stringBump_of_ne hzero).ge
    rw [hnext, hone] at hle
    omega
  obtain ⟨m₂, hpass, hmoved, htouched⟩ := exists_pass hlen₁ hix ((hbelow 4096 (by omega)).trans hoff)
    ((hbelow 4100 (by omega)).trans hlen) hbump₁
  have hv₁ : Layout.Valid stringRegions m₁.length := hlen₁.symm ▸ hlength ▸ hv
  have hch₂ := changesOnly_pass hv₁ hpass
  have hclear : Disjoint (touched (regionIndex stringRegions) stringRegions [0] m₁) (artRegion stringRegions) :=
    (disjoint_union_left.mpr ⟨disjoint_Ico (.inl (by decide)), disjoint_Ico (.inr (by decide))⟩).mono_left htouched
  let s₂ : System := { s₁ with mem := m₂ }
  have h₂ : Step stringRegions [0] [4096] s₁ .pass s₂ := .pass hpass
  have hok₂ : Keeps stringRegions [0] [4096] m s₁ .pass := by
    refine disjoint_union_right.mpr ⟨?_, hclear⟩
    have hkey : s₁.unlogged ⊆ Ico 16769037 16769038 := by
      rintro i (⟨d, hd, -⟩ | ⟨c', hc', -, hin⟩)
      · exact absurd hd List.not_mem_nil
      · obtain rfl := List.mem_singleton.mp hc'
        exact hin
    exact (disjoint_union_left.mpr ⟨disjoint_Ico (.inl (by omega)), disjoint_Ico (.inr (by omega))⟩).mono htouched hkey
  -- the key is sent, inserted and logged
  let d := indexDelta 16769037 [98] 4096
  let s₃ : System := { s₂ with queue := [d], calls := [], bound := [⟨[98], 4096⟩] }
  have h₃ : Step stringRegions [0] [4096] s₂ .send s₃ := by
    have hsend : Step stringRegions [0] [4096] s₂ .send _ := .bind (List.mem_singleton_self c) rfl
    have hnone : s₂.calls.erase c = [] := List.erase_cons_head c []
    rw [hnone] at hsend
    exact hsend
  have hconfined₂ := hconfined₁.frame hch₂
    (disjoint_union_right.mpr ⟨hclear.symm, disjoint_artRegion hv₁ fun _ hi ↦ hi.1⟩)
  have hgood : ValidKey [98] ∧ (4096 : UInt32).toNat < 16777216 := by decide
  have hdemand : 49200 + oneStringTree.callDemand [98] ≤ stringRegions.artEnd := by decide
  obtain ⟨⟨m₃, free⟩, hinsert⟩ := hconfined₂.indexed.insert_ok hgood oneStringTree_free (hdemand.trans (by decide))
  let s₄ : System := { s₃ with mem := m₃, free }
  have h₄ : Step stringRegions [0] [4096] s₃ (.index (.insert [98] 4096)) s₄ := .index (.inserted hinsert)
  have hfits : FitsRegion stringRegions ⟨m₂, noOrphans⟩ (.insert [98] 4096) :=
    hconfined₂.fitsRegion_iff.mpr fun _ _ ↦ hdemand
  have hok₄ : Keeps stringRegions [0] [4096] m s₃ (.index (.insert [98] 4096)) := hfits
  let s₅ : System := { s₄ with popped := some d, queue := [] }
  have h₅ : Step stringRegions [0] [4096] s₄ .pop s₅ := .pop rfl rfl
  let s₆ : System := { s₅ with log := s₅.log ++ logOf d s₅.mem, popped := none }
  have h₆ : Step stringRegions [0] [4096] s₅ .process s₆ := .process rfl
  have hok₃ : Keeps stringRegions [0] [4096] m s₂ .send := trivial
  have hok₅ : Keeps stringRegions [0] [4096] m s₄ .pop := trivial
  have hok₆ : Keeps stringRegions [0] [4096] m s₅ .process := trivial
  have hrun₃ := (((Run.refl (start ⟨m, noOrphans⟩)).tail hok₁ h₁).tail hok₂ h₂).tail hok₃ h₃
  have hrun := ((hrun₃.tail hok₄ h₄).tail hok₅ h₅).tail hok₆ h₆
  have hstart : Inv stringRegions [4096] m (start ⟨m, noOrphans⟩) := inv_start (a := ⟨m, noOrphans⟩) hf hregion
  have hinv := hrun.invariant (Inv stringRegions [4096] m) (fun _ _ _ hs hok hstep ↦ hs.step hv hf hok hstep) hstart
  obtain ⟨_, _, _, _, hch₄⟩ := hconfined₂.call (artEnd_le (hlength ▸ hv)).2 hfits (.inserted hinsert)
  refine ⟨s₆, hrun, ?_, ?_, recoverable_of_keeps (a := ⟨m, noOrphans⟩) ((valid_iff _ _).mpr hv) hf hregion hrun
    fun files hfiles ↦ ?_⟩
  · have hbound := hinv.bound
    have hall : s₆.described = s₆.log := List.append_nil _
    rw [hall] at hbound
    exact hbound
  · exact (hch₄.readU32 (disjoint_Ico (.inl (by decide)))).trans hmoved
  · have hroom : 49160 + ([⟨[98], 4096⟩].map fun op : IndexOp ↦ insertBound op.key).sum ≤ 57344 := by decide
    exact hinv.rebuildable hv hfiles hroom

/-- A pass logs a pointer before the bytes behind it: a crash between the two leaves the field with neither value. -/
theorem relocation_not_recoverable : validateRegions stringRegions namedArena.length = .ok () ∧
    Fields stringRegions [4096] namedArena ∧ InRegion stringRegions namedArena.length ⟨namedArena, noOrphans⟩ ∧
    ∃ s, Run (Step stringRegions [0] [4096]) (fun _ _ ↦ True) (start ⟨namedArena, noOrphans⟩) s ∧
      ¬ Recoverable stringRegions [4096] namedArena s := by
  have hlength := length_namedArena
  have hr : validateRegions stringRegions namedArena.length = .ok () := by
    rw [hlength]
    decide
  have hf := namedArena_fields
  have hconfined := namedArena_confined
  obtain ⟨hoff, hlen, hbump⟩ := namedArena_field
  obtain ⟨hone, hzero⟩ := namedArena_bytes
  generalize namedArena = m at *
  have hix : Indexes m (regionIndex stringRegions) oneStringTree :=
    ⟨hconfined.indexed.stored, hconfined.indexed.word, hconfined.indexed.wf, hlength ▸ hconfined.indexed.laid⟩
  obtain ⟨mem, hpass, -, -⟩ := exists_pass hlength hix hoff hlen (by omega)
  rw [← hlength] at hconfined
  let d := pointerDelta 4096 16773128 5
  let s₁ : System := { start ⟨m, noOrphans⟩ with mem, todo := [⟨4096, 16773128, 5⟩].flatMap relocationDeltas }
  let s₂ : System := { s₁ with log := s₁.log ++ logOf d s₁.mem, todo := [textDelta 16773128 5] }
  have h₁ : Step stringRegions [0] [4096] (start ⟨m, noOrphans⟩) .passLogged s₁ := .passLogged rfl hpass
  have htodo : s₁.todo = [d, textDelta 16773128 5] := rfl
  have h₂ : Step stringRegions [0] [4096] s₁ .log s₂ := .log htodo
  refine ⟨hr, hf, inRegion_iff.mpr ⟨_, _, hconfined⟩, s₂,
    ((Run.refl (start ⟨m, noOrphans⟩)).tail trivial h₁).tail trivial h₂, ?_⟩
  intro hrec
  have hvalid := (valid_iff _ _).mp hr
  let e : Entry := ⟨.arenaWrite, UInt32.ofNat 4096, leEncode 4 16773128 ++ leEncode 4 5⟩
  have hlog : s₂.log = [e] := by
    have haccepted : d.Accepted mem := show (8 : ℕ) ≤ 48 by omega
    have hentry : d.entry mem = some e := entry_pointerDelta 4096 16773128 5 mem
    have hdelta : logOf d mem = (d.entry mem).toList := if_pos haccepted
    exact hdelta.trans (congrArg Option.toList hentry)
  have hentries : ∀ e' ∈ [e], e'.Valid m.length := by
    intro e' he'
    obtain rfl := List.mem_singleton.mp he'
    rw [hlength]
    exact ⟨by decide, by decide, fun _ ↦ by decide⟩
  have hfile : fileEntries m.length (sectorFile [e]) = [e] := fileEntries_sectorFile hentries (by decide)
  have hmiss : Disjoint (covered (fileEntries m.length (sectorFile [e]))) (artRegion stringRegions) := by
    rw [hfile, covered_write]
    exact disjoint_Ico (.inl (by decide))
  have hrebuild : Rebuildable stringRegions m.length (sectorFile [e]) := by
    refine rebuildable_of_bound hvalid hmiss ?_
    rw [hfile]
    exact (by decide : stringRegions.artStart ≤ stringRegions.artEnd)
  have hclean : ∀ size, noOrphans.stackOf size = [] := fun _ ↦ rfl
  obtain ⟨t, hrun, hassigned⟩ := hrec.reads (sectorFile [e]) (by rw [hfile, hlog]) noOrphans hclean
  obtain ⟨t', hrun', hch⟩ := changesOnly_recovered hvalid hrebuild hmiss hclean
  obtain rfl := Option.some.inj ((hrun _ le_rfl).symm.trans (hrun' _ le_rfl))
  have hreads := hassigned 4096 (List.mem_singleton_self 4096)
  rw [hfile] at hch
  have himage : image [e] m = pointString 4096 16773128 5 m := store_pointer (by omega) (by omega) _ _
  have hpoint := changesOnly_pointString (show 4096 + 8 ≤ m.length by omega) 16773128 5
  obtain ⟨hoff', hlen'⟩ := readU32_pointString (show 4096 + 8 ≤ m.length by omega) (show 16773128 < 2 ^ 32 by omega)
    (show 5 < 2 ^ 32 by omega)
  rw [← himage] at hpoint hoff' hlen'
  have hin : Inside stringRegions (image [e] m) 4096 := by
    right
    rw [hoff', hlen']
    decide
  obtain ⟨hclear, hclear'⟩ := reset_clear hvalid (hf.region 4096 (List.mem_singleton_self 4096)) hin
  obtain ⟨-, -, hread⟩ := readString_frame hch hclear hclear'
  have hstop : 16773128 + 5 ≤ (image [e] m).length := by
    rw [hpoint.length_eq]
    omega
  rw [hread, readString_eq hoff' hlen' (by omega) hstop] at hreads
  rcases hreads with hfirst | ⟨v, hv, -⟩
  · rw [readString_eq hoff hlen (by omega) (by omega)] at hfirst
    have hafter : (slice (image [e] m) 16773128 5)[0]? = some 0 := by
      have hclear : 16773128 ∉ Ico 4096 (4096 + 8) := fun h ↦ absurd h.2 (by omega)
      rw [getElem?_slice, if_pos (by omega), Nat.add_zero, hpoint.getElem?_eq _ hclear, hzero]
    have hbefore : (slice m 16769032 5)[0]? = some 1 := by
      rw [getElem?_slice, if_pos (by omega), Nat.add_zero, hone]
    rw [Option.some.inj hfirst, hbefore] at hafter
    cases hafter
  · exact absurd hv List.not_mem_nil

end TakyonDb.VacuumLog
