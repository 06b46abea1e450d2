import TakyonDb.Entry
import TakyonDb.Lib.Memory

namespace TakyonDb.Replay

open Lib Layout Wal Set Recovered

/-- The records that the entry loop reads for an arena of `n` bytes, and the
bytes to carry. -/
def readEntries (n : ℕ) : ℕ → Bytes → List Entry × Bytes
  | 0, _ => ([], [])
  | fuel + 1, rest =>
    if rest.length = 0 then ([], [])
    else if rest.length < headerSize then ([], carried .atBoundary rest)
    else
      let header := WalEntryHeader.ofBytes rest
      let length := header.length.toNat
      if length = 0 then ([], [])
      else if maxEntryLen < length then ([], carried .badLength rest)
      else if maxEntryKind < header.kind then ([], carried .unknownKind rest)
      else if rest.length < headerSize + length then ([], carried .midEntry rest)
      else
        let payload := slice rest headerSize length
        let later := readEntries n fuel (rest.drop (headerSize + length))
        if header.kind = EntryKind.indexOp.code then
          (⟨.indexOp, header.offset, payload⟩ :: later.1, later.2)
        else if n < header.offset.toNat + length then ([], [])
        else (⟨.arenaWrite, header.offset, payload⟩ :: later.1, later.2)

/-- What the entry loop finds at the front of a stream. -/
inductive Front
  | record (e : Entry)
  | refused (carry : Bytes)
  | idle (carry : Bytes)
deriving DecidableEq

/-- The bytes to carry, where the loop stops. -/
def Front.stop : Front → Option Bytes
  | .record _ => none
  | .refused carry | .idle carry => some carry

def front (n : ℕ) (rest : Bytes) : Front :=
  if rest.length = 0 then .idle []
  else if rest.length < headerSize then .idle (carried .atBoundary rest)
  else
    let header := WalEntryHeader.ofBytes rest
    let length := header.length.toNat
    if length = 0 then .idle []
    else if maxEntryLen < length then .refused (carried .badLength rest)
    else if maxEntryKind < header.kind then .refused (carried .unknownKind rest)
    else if rest.length < headerSize + length then .idle (carried .midEntry rest)
    else if header.kind = EntryKind.indexOp.code then .record ⟨.indexOp, header.offset, slice rest headerSize length⟩
    else if n < header.offset.toNat + length then .refused []
    else .record ⟨.arenaWrite, header.offset, slice rest headerSize length⟩

def sectorEntries (n : ℕ) : List Bytes → Bytes → List Entry
  | [], _ => []
  | block :: blocks, leftover =>
    if ¬ crcMatches block then []
    else
      let stream := leftover ++ block.take sectorPayload
      let read := readEntries n stream.length stream
      read.1 ++ sectorEntries n blocks read.2

/-- The records of all the files, in the order in which replay applies them. -/
def fileEntries (n : ℕ) (files : LogFiles UInt8) : List Entry :=
  files.replayWal (fun file es ↦ es ++ sectorEntries n (blocksOf sectorSize file) []) []

/-- The bytes that the records write. -/
def covered (es : List Entry) : Set ℕ :=
  {x | ∃ e ∈ es, e.kind = .arenaWrite ∧ x ∈ Ico e.offset.toNat (e.offset.toNat + e.payload.length)}

/-- What replay has recovered, without what it reports about it. -/
def Recovered.bare (st : Recovered) : Recovered := { st with tally := {} }

variable {n fuel sector : ℕ} {r : Regions} {st st' : Recovered} {rest carry : Bytes} {es : List Entry} {e : Entry}

/-- The fields that `bare` keeps. -/
theorem bare_eq_iff : st'.bare = st.bare ↔ st'.arena = st.arena ∧ st'.recMax = st.recMax ∧
    st'.artMax = st.artMax ∧ st'.strMax = st.strMax ∧ st'.indexOps = st.indexOps := by
  simp only [Recovered.bare, Recovered.mk.injEq, and_true]

theorem bare_apply (r : Regions) (st : Recovered) (e : Entry) : (e.apply r st.bare).bare = (e.apply r st).bare := by
  obtain ⟨kind, offset, payload⟩ := e
  cases kind with
  | indexOp => rfl
  | arenaWrite =>
    simp only [Entry.apply, Recovered.writeArena, Recovered.bare]
    split_ifs <;> rfl

theorem bare_foldl (r : Regions) (es : List Entry) (h : st'.bare = st.bare) :
    (es.foldl (Entry.apply r) st').bare = (es.foldl (Entry.apply r) st).bare := by
  induction es generalizing st st' with
  | nil => exact h
  | cons e es ih =>
    refine ih ?_
    rw [← bare_apply r st', h, bare_apply]

/-- The loop takes a record off the front and goes on. -/
theorem readEntries_record (h : front n rest = .record e) : readEntries n (fuel + 1) rest =
    (e :: (readEntries n fuel (rest.drop (headerSize + e.payload.length))).1,
      (readEntries n fuel (rest.drop (headerSize + e.payload.length))).2) := by
  rw [front] at h
  rw [readEntries]
  dsimp only at h ⊢
  split_ifs at h ⊢ with h₁ h₂ h₃ h₄ h₅ h₆ h₇ h₈
  · obtain rfl := Front.record.inj h
    simp only [length_slice (not_lt.mp h₆)]
  · obtain rfl := Front.record.inj h
    simp only [length_slice (not_lt.mp h₆)]

theorem readEntries_stop (h : (front n rest).stop = some carry) : readEntries n (fuel + 1) rest = ([], carry) := by
  rw [front] at h
  rw [readEntries]
  dsimp only at h ⊢
  split_ifs at h ⊢ with h₁ h₂ h₃ h₄ h₅ h₆ h₇ h₈
  all_goals first
    | exact congrArg (Prod.mk []) (Option.some.inj h)
    | cases h

theorem front_cases (n : ℕ) (rest : Bytes) :
    (∃ e, front n rest = .record e) ∨ ∃ carry, (front n rest).stop = some carry := by
  cases front n rest with
  | record e => exact .inl ⟨e, rfl⟩
  | refused carry => exact .inr ⟨carry, rfl⟩
  | idle carry => exact .inr ⟨carry, rfl⟩

theorem front_valid (h : front n rest = .record e) : e.Valid n := by
  rw [front] at h
  dsimp only at h
  split_ifs at h with h₁ h₂ h₃ h₄ h₅ h₆ h₇ h₈
  all_goals
    obtain rfl := Front.record.inj h
    have hlen : (slice rest headerSize (WalEntryHeader.ofBytes rest).length.toNat).length =
        (WalEntryHeader.ofBytes rest).length.toNat := length_slice (not_lt.mp h₆)
  · refine ⟨?_, ?_, fun heq ↦ (nomatch heq)⟩ <;> dsimp only <;> omega
  · refine ⟨?_, ?_, fun _ ↦ ?_⟩ <;> dsimp only <;> omega

theorem readEntries_valid : ∀ e ∈ (readEntries n fuel rest).1, e.Valid n := by
  induction fuel generalizing rest with
  | zero => exact fun _ h ↦ (nomatch h)
  | succ fuel ih =>
    rcases front_cases n rest with ⟨e, hfront⟩ | ⟨carry, hstop⟩
    · rw [readEntries_record hfront]
      exact List.forall_mem_cons.mpr ⟨front_valid hfront, ih⟩
    · rw [readEntries_stop hstop]
      exact fun _ h ↦ (nomatch h)

theorem scanEntries_record (hst : st.arena.length = n) (h : front n rest = .record e) :
    scanEntries r sector (fuel + 1) rest st =
      scanEntries r sector fuel (rest.drop (headerSize + e.payload.length)) (e.apply r st) := by
  rw [front] at h
  rw [scanEntries]
  dsimp only at h ⊢
  rw [hst]
  split_ifs at h ⊢ with h₁ h₂ h₃ h₄ h₅ h₆ h₇ h₈
  · obtain rfl := Front.record.inj h
    simp only [length_slice (not_lt.mp h₆), Entry.apply]
  · obtain rfl := Front.record.inj h
    simp only [length_slice (not_lt.mp h₆), Entry.apply]

theorem scanEntries_stop (r : Regions) (sector fuel : ℕ) (hst : st.arena.length = n)
    (h : (front n rest).stop = some carry) :
    (scanEntries r sector (fuel + 1) rest st).1.bare = st.bare ∧ (scanEntries r sector (fuel + 1) rest st).2 = carry ∧
      (scanEntries r sector (fuel + 1) rest st).1.tally.byteDeltas = st.tally.byteDeltas ∧
      (scanEntries r sector (fuel + 1) rest st).1.tally.indexOps = st.tally.indexOps := by
  rw [front] at h
  rw [scanEntries]
  dsimp only at h ⊢
  rw [hst]
  split_ifs at h ⊢ with h₁ h₂ h₃ h₄ h₅ h₆ h₇ h₈
  all_goals first
    | exact ⟨rfl, Option.some.inj h, rfl, rfl⟩
    | cases h

/-- The entry loop applies the records that it reads. -/
theorem bare_scanEntries (hst : st.arena.length = n) :
    (scanEntries r sector fuel rest st).1.bare =
        ((readEntries n fuel rest).1.foldl (Entry.apply r) st).bare ∧
      (scanEntries r sector fuel rest st).2 = (readEntries n fuel rest).2 := by
  induction fuel generalizing rest st with
  | zero => exact ⟨rfl, rfl⟩
  | succ fuel ih =>
    rcases front_cases n rest with ⟨e, hfront⟩ | ⟨carry, hstop⟩
    · rw [readEntries_record hfront, scanEntries_record hst hfront]
      exact ih (Entry.length_apply (front_valid hfront) hst)
    · obtain ⟨hbare, hcarry, -⟩ := scanEntries_stop r sector fuel hst hstop
      rw [readEntries_stop hstop]
      exact ⟨hbare, hcarry⟩

theorem sectorEntries_valid {blocks : List Bytes} {leftover : Bytes} :
    ∀ e ∈ sectorEntries n blocks leftover, e.Valid n := by
  induction blocks generalizing leftover with
  | nil => exact fun _ h ↦ (nomatch h)
  | cons block blocks ih =>
    rw [sectorEntries]
    by_cases hcrc : crcMatches block = true
    · rw [if_neg (not_not.mpr hcrc)]
      intro e he
      rcases List.mem_append.mp he with he | he
      · exact readEntries_valid e he
      · exact ih e he
    · rw [if_pos hcrc]
      exact fun _ h ↦ (nomatch h)

theorem bare_replaySectors {blocks : List Bytes} {leftover : Bytes} (hst : st.arena.length = n) :
    (replaySectors r blocks leftover sector st).bare =
      ((sectorEntries n blocks leftover).foldl (Entry.apply r) st).bare := by
  induction blocks generalizing leftover sector st with
  | nil => rfl
  | cons block blocks ih =>
    rw [replaySectors, sectorEntries]
    by_cases hcrc : crcMatches block = true
    · rw [if_neg (not_not.mpr hcrc), if_neg (not_not.mpr hcrc)]
      dsimp only
      generalize leftover ++ block.take sectorPayload = stream
      have hscan : (scanEntries r (sector + 1) stream.length stream st.countSector).1.bare = _ ∧ _ :=
        bare_scanEntries (show st.countSector.arena.length = n from hst)
      obtain ⟨hbare, hcarry⟩ := hscan
      have hread : ((readEntries n stream.length stream).1.foldl (Entry.apply r) st.countSector).bare =
          ((readEntries n stream.length stream).1.foldl (Entry.apply r) st).bare := bare_foldl r _ rfl
      rw [hread] at hbare
      have hlen : ((readEntries n stream.length stream).1.foldl (Entry.apply r) st).arena.length = n :=
        Entry.length_foldl_apply readEntries_valid hst
      have harena := (bare_eq_iff.mp hbare).1
      rw [List.foldl_append, scanSector, hcarry, ih (harena.symm ▸ hlen)]
      exact bare_foldl r _ hbare
    · rw [if_pos hcrc, if_pos hcrc]
      rfl

theorem fileEntries_valid {files : LogFiles UInt8} : ∀ e ∈ fileEntries n files, e.Valid n := by
  have hsegs : ∀ fuel k (es : List Entry), (∀ e ∈ es, e.Valid n) →
      ∀ e ∈ LogFiles.replaySegments (fun file es ↦ es ++ sectorEntries n (blocksOf sectorSize file) [])
        files.segments fuel k es, e.Valid n := by
    intro fuel
    induction fuel with
    | zero => exact fun _ _ hes ↦ hes
    | succ fuel ih =>
      intro k es hes
      rw [LogFiles.replaySegments]
      split
      · exact hes
      · refine ih _ _ fun e he ↦ ?_
        rcases List.mem_append.mp he with he | he
        · exact hes e he
        · exact sectorEntries_valid e he
  exact hsegs _ _ _ fun e he ↦ sectorEntries_valid e he

/-- Replay applies the records of the files. -/
theorem bare_replayWal {files : LogFiles UInt8} (hst : st.arena.length = n) :
    (replayWal r files st).bare = ((fileEntries n files).foldl (Entry.apply r) st).bare := by
  have hone : ∀ (file : Bytes) (es : List Entry) (st' : Recovered), (∀ e ∈ es, e.Valid n) →
      st'.bare = (es.foldl (Entry.apply r) st).bare →
      (replayOneSegment r file st'.countSegment).bare =
        ((es ++ sectorEntries n (blocksOf sectorSize file) []).foldl (Entry.apply r) st).bare := by
    intro file es st' hes hbare
    have hlen : (es.foldl (Entry.apply r) st).arena.length = n := Entry.length_foldl_apply hes hst
    have harena := (bare_eq_iff.mp hbare).1
    rw [replayOneSegment, bare_replaySectors (harena.symm ▸ hlen), List.foldl_append]
    exact bare_foldl r _ hbare
  have hsegs : ∀ fuel k (es : List Entry) (st' : Recovered), (∀ e ∈ es, e.Valid n) →
      st'.bare = (es.foldl (Entry.apply r) st).bare →
      (LogFiles.replaySegments (fun file st ↦ replayOneSegment r file st.countSegment) files.segments
        fuel k st').bare =
        ((LogFiles.replaySegments (fun file es ↦ es ++ sectorEntries n (blocksOf sectorSize file) [])
          files.segments fuel k es).foldl (Entry.apply r) st).bare := by
    intro fuel
    induction fuel with
    | zero => exact fun _ _ _ _ hbare ↦ hbare
    | succ fuel ih =>
      intro k es st' hes hbare
      rw [LogFiles.replaySegments, LogFiles.replaySegments]
      cases files.segments k with
      | none => exact hbare
      | some file =>
        refine ih _ _ _ (fun e he ↦ ?_) (hone file es st' hes hbare)
        rcases List.mem_append.mp he with he | he
        · exact hes e he
        · exact sectorEntries_valid e he
  exact hsegs _ _ _ _ (fun e he ↦ sectorEntries_valid e he)
    (hone files.live [] st (fun e he ↦ absurd he List.not_mem_nil) rfl)

theorem covered_nil : covered [] = ∅ := by
  ext x
  simp [covered]

theorem covered_cons (e : Entry) (es : List Entry) : covered (e :: es) = covered [e] ∪ covered es := by
  ext x
  simp [covered]

theorem covered_append (es es' : List Entry) : covered (es ++ es') = covered es ∪ covered es' := by
  ext x
  simp [covered, or_and_right, exists_or]

theorem covered_mono {es es' : List Entry} (h : es ⊆ es') : covered es ⊆ covered es' :=
  fun _ hx ↦ hx.imp fun _ he ↦ he.imp_left (@h _)

theorem covered_write (offset : UInt32) (payload : Bytes) :
    covered [⟨.arenaWrite, offset, payload⟩] = Ico offset.toNat (offset.toNat + payload.length) := by
  ext x
  simp [covered]

theorem covered_indexOp (offset : UInt32) (payload : Bytes) : covered [⟨.indexOp, offset, payload⟩] = ∅ := by
  ext x
  simp [covered]

/-- Two states of a replay that differ in some bytes of the arena and in
nothing else. -/
structure Recovered.SameBut (d : Set ℕ) (st st' : Recovered) : Prop where
  arena : ChangesOnly d st.arena st'.arena
  recMax : st'.recMax = st.recMax
  artMax : st'.artMax = st.artMax
  strMax : st'.strMax = st.strMax
  indexOps : st'.indexOps = st.indexOps

variable {d : Set ℕ}

theorem Recovered.SameBut.of_bare {t t' : Recovered} (h : SameBut d st st') (ht : t.bare = st.bare)
    (ht' : t'.bare = st'.bare) : SameBut d t t' := by
  obtain ⟨h₁, h₂, h₃, h₄, h₅⟩ := bare_eq_iff.mp ht
  obtain ⟨h₁', h₂', h₃', h₄', h₅'⟩ := bare_eq_iff.mp ht'
  exact ⟨by rw [h₁, h₁']; exact h.arena, by rw [h₂, h₂', h.recMax], by rw [h₃, h₃', h.artMax],
    by rw [h₄, h₄', h.strMax], by rw [h₅, h₅', h.indexOps]⟩

theorem Recovered.SameBut.apply (h : SameBut d st st') (he : e.Valid st.arena.length) :
    SameBut (d \ covered [e]) (e.apply r st) (e.apply r st') := by
  obtain ⟨kind, offset, payload⟩ := e
  cases kind with
  | indexOp =>
    rw [covered_indexOp, sdiff_empty]
    refine ⟨h.arena, h.recMax, h.artMax, h.strMax, ?_⟩
    simp only [Entry.apply, addIndexOp, h.indexOps]
  | arenaWrite =>
    have hmem := h.arena.overwrite_both (he.inside rfl)
    rw [covered_write]
    simp only [Entry.apply, writeArena]
    split_ifs
    · exact ⟨hmem, by simp only [h.recMax], h.artMax, h.strMax, h.indexOps⟩
    · exact ⟨hmem, h.recMax, by simp only [h.artMax], h.strMax, h.indexOps⟩
    · exact ⟨hmem, h.recMax, h.artMax, by simp only [h.strMax], h.indexOps⟩

theorem Recovered.SameBut.foldl (h : SameBut d st st') (hes : ∀ e ∈ es, e.Valid st.arena.length) :
    SameBut (d \ covered es) (es.foldl (Entry.apply r) st) (es.foldl (Entry.apply r) st') := by
  induction es generalizing d st st' with
  | nil =>
    rw [covered_nil, sdiff_empty]
    exact h
  | cons e es ih =>
    have hhere := hes e List.mem_cons_self
    rw [covered_cons, ← sdiff_sdiff]
    refine ih (h.apply hhere) fun f hf ↦ ?_
    rw [Entry.length_apply hhere rfl]
    exact hes f (List.mem_cons_of_mem _ hf)

theorem changesOnly_apply (he : e.Valid st.arena.length) :
    ChangesOnly (covered [e]) st.arena (e.apply r st).arena := by
  obtain ⟨kind, offset, payload⟩ := e
  cases kind with
  | indexOp => exact .rfl'
  | arenaWrite =>
    have hmem := changesOnly_overwrite (he.inside rfl)
    rw [covered_write]
    simp only [Entry.apply, writeArena]
    split_ifs <;> exact hmem

theorem changesOnly_foldl (hes : ∀ e ∈ es, e.Valid st.arena.length) :
    ChangesOnly (covered es) st.arena (es.foldl (Entry.apply r) st).arena := by
  induction es generalizing st with
  | nil => exact .rfl'
  | cons e es ih =>
    have hhere := hes e List.mem_cons_self
    rw [covered_cons]
    refine ((changesOnly_apply hhere).mono subset_union_left).trans ((ih fun f hf ↦ ?_).mono subset_union_right)
    rw [Entry.length_apply hhere rfl]
    exact hes f (List.mem_cons_of_mem _ hf)

/-- Replay leaves the bytes that no record writes as they were. -/
theorem changesOnly_replayWal (r : Regions) (files : LogFiles UInt8) (st : Recovered) :
    ChangesOnly (covered (fileEntries st.arena.length files)) st.arena (replayWal r files st).arena := by
  rw [(bare_eq_iff.mp (bare_replayWal rfl)).1]
  exact changesOnly_foldl fileEntries_valid

/-- Replay is the same over the bytes that it writes. -/
theorem Recovered.SameBut.replayWal (h : SameBut d st st') (r : Regions) (files : LogFiles UInt8) :
    SameBut (d \ covered (fileEntries st.arena.length files)) (replayWal r files st) (replayWal r files st') :=
  (h.foldl fileEntries_valid).of_bare (bare_replayWal rfl) (bare_replayWal h.arena.length_eq)

end TakyonDb.Replay
