import TakyonDb.Flusher
import TakyonDb.Lib.Writes

namespace TakyonDb

open Lib Layout Wal Replay Framing WalManager

namespace Entry

def write (e : Entry) : Option (Write UInt8) :=
  match e.kind with
  | .arenaWrite => some ⟨e.offset.toNat, e.payload⟩
  | .indexOp => none

def indexOp (e : Entry) : Option IndexOp :=
  match e.kind with
  | .arenaWrite => none
  | .indexOp => some ⟨e.payload, e.offset⟩

variable {regions : Regions} {n : ℕ} {es : List Entry}

theorem arena_foldl_apply (es : List Entry) (st : Recovered) :
    (es.foldl (apply regions) st).arena = applyWrites (es.filterMap write) st.arena := by
  induction es generalizing st with
  | nil => rfl
  | cons e es ih =>
    rw [List.foldl_cons, ih]
    obtain ⟨kind, offset, payload⟩ := e
    cases kind with
    | indexOp => rfl
    | arenaWrite =>
      have harena : (apply regions st ⟨.arenaWrite, offset, payload⟩).arena =
          overwrite st.arena offset.toNat payload := by
        simp only [apply, Recovered.writeArena]
        split_ifs <;> rfl
      rw [harena]
      rfl

theorem indexOps_foldl_apply (es : List Entry) (st : Recovered) :
    (es.foldl (apply regions) st).indexOps = st.indexOps ++ es.filterMap indexOp := by
  induction es generalizing st with
  | nil => simp
  | cons e es ih =>
    rw [List.foldl_cons, ih]
    obtain ⟨kind, offset, payload⟩ := e
    cases kind with
    | indexOp => simp [apply, indexOp, Recovered.addIndexOp]
    | arenaWrite =>
      have hops : (apply regions st ⟨.arenaWrite, offset, payload⟩).indexOps = st.indexOps := by
        simp only [apply, Recovered.writeArena]
        split_ifs <;> rfl
      rw [hops]
      rfl

/-- Where the bytes end that the record writes below the index region. -/
def recordStop (regions : Regions) (e : Entry) : ℕ :=
  match e.kind with
  | .arenaWrite => if e.offset.toNat < regions.artRoot.toNat then e.offset.toNat + e.payload.length else 0
  | .indexOp => 0

/-- The end of the record bytes that the log describes. -/
def loggedEnd (regions : Regions) (es : List Entry) : ℕ := (es.map (recordStop regions)).foldr max 0

theorem loggedEnd_append (es es' : List Entry) :
    loggedEnd regions (es ++ es') = max (loggedEnd regions es) (loggedEnd regions es') := by
  induction es with
  | nil => exact (Nat.zero_max _).symm
  | cons e es ih =>
    simp only [loggedEnd, List.cons_append, List.map_cons, List.foldr_cons] at ih ⊢
    rw [ih, max_assoc]

theorem recordStop_le_loggedEnd {e : Entry} (h : e ∈ es) : recordStop regions e ≤ loggedEnd regions es := by
  induction es with
  | nil => cases h
  | cons e' es ih =>
    rw [loggedEnd, List.map_cons, List.foldr_cons, ← loggedEnd]
    rcases List.mem_cons.mp h with rfl | h
    · exact le_max_left _ _
    · exact (ih h).trans (le_max_right _ _)

theorem recMax_foldl_apply (es : List Entry) (st : Recovered) :
    (es.foldl (apply regions) st).recMax = max st.recMax (loggedEnd regions es) := by
  induction es generalizing st with
  | nil => exact (Nat.max_zero _).symm
  | cons e es ih =>
    have hstop : (apply regions st e).recMax = max st.recMax (recordStop regions e) := by
      obtain ⟨kind, offset, payload⟩ := e
      cases kind with
      | indexOp => exact (Nat.max_zero _).symm
      | arenaWrite =>
        simp only [apply, Recovered.writeArena, recordStop]
        split_ifs <;> simp
    rw [List.foldl_cons, ih, hstop, loggedEnd, loggedEnd, List.map_cons, List.foldr_cons, max_assoc]

theorem fits_of_valid (h : ∀ e ∈ es, e.Valid n) : ∀ w ∈ es.filterMap write, w.Fits n := by
  intro w hw
  obtain ⟨e, he, hwrite⟩ := List.mem_filterMap.mp hw
  obtain ⟨kind, offset, payload⟩ := e
  cases kind with
  | indexOp => cases hwrite
  | arenaWrite =>
    cases hwrite
    exact (h _ he).inside rfl

end Entry

/-- Replay of the log files leaves the arena and the index operations that
the records leave in the order they were written. -/
def InOrder (n : ℕ) (files : LogFiles UInt8) (es : List Entry) : Prop :=
  ∀ (regions : Regions) (st : Recovered), st.arena.length = n →
    (replayWal regions files st).arena = (es.foldl (Entry.apply regions) st).arena ∧
      (replayWal regions files st).indexOps = (es.foldl (Entry.apply regions) st).indexOps

/-- No byte gets one value from the older records and another one from the
newer, and the two groups of index operations can change places. -/
def Agree (older newer : List Entry) : Prop :=
  (∀ i x y, lastWrite (older.filterMap Entry.write) i = some x →
    lastWrite (newer.filterMap Entry.write) i = some y → x = y) ∧
  older.filterMap Entry.indexOp ++ newer.filterMap Entry.indexOp =
    newer.filterMap Entry.indexOp ++ older.filterMap Entry.indexOp

namespace Wal.SectorFiles

/-- Every segment ends at the end of a record. -/
def SplitFree : List (List Bytes) → List Entry → Prop
  | [], _ => True
  | seg :: segs, es =>
    let front := wholeEntries seg.flatten.length es
    (front.flatMap Entry.encode).length = seg.flatten.length ∧ SplitFree segs (es.drop front.length)

/-- The records in the numbered segments. -/
def archived (l : SectorFiles) (es : List Entry) : List Entry :=
  wholeEntries l.segments.flatten.flatten.length es

/-- The records in the live file. -/
def current (l : SectorFiles) (es : List Entry) : List Entry := es.drop (l.archived es).length

/-- The sectors of one file hold the records `es`. -/
def FileFramed (n : ℕ) (cs : List Bytes) (es : List Entry) : Prop :=
  ∃ r todo, Framed [] cs es r todo ∧ ∀ e ∈ es ++ todo, e.Valid n

/-- The records of each file, when no record is split between two files. -/
structure FramedAs (n : ℕ) (l : SectorFiles) (ess : List (List Entry)) (live : List Entry) : Prop where
  segments : List.Forall₂ (FileFramed n) l.segments ess
  live : FileFramed n l.live live

theorem FileFramed.valid {n : ℕ} {cs : List Bytes} {es : List Entry} (h : FileFramed n cs es) :
    ∀ e ∈ es, e.Valid n := by
  obtain ⟨r, todo, -, hvalid⟩ := h
  exact fun e he ↦ hvalid e (List.mem_append_left _ he)

theorem valid_of_forall₂ {n : ℕ} {segs : List (List Bytes)} {ess : List (List Entry)}
    (h : List.Forall₂ (FileFramed n) segs ess) : ∀ e ∈ ess.flatten, e.Valid n := by
  induction h with
  | nil => simp
  | cons hfile _ ih =>
    intro e he
    exact (List.mem_append.mp he).elim (hfile.valid e) (ih e)

end Wal.SectorFiles

open Wal.SectorFiles

variable {n : ℕ}

theorem replay_file (regions : Regions) {cs : List Bytes} {es : List Entry}
    (h : FileFramed n cs es) {st : Recovered} (hst : st.arena.length = n) :
    (replayOneSegment regions (cs.flatMap sealSector) st.countSegment).arena =
        applyWrites (es.filterMap Entry.write) st.arena ∧
      (replayOneSegment regions (cs.flatMap sealSector) st.countSegment).indexOps =
        st.indexOps ++ es.filterMap Entry.indexOp ∧
      (replayOneSegment regions (cs.flatMap sealSector) st.countSegment).recMax =
        max st.recMax (Entry.loggedEnd regions es) := by
  obtain ⟨r, todo, hframed, hvalid⟩ := h
  have hst' : st.countSegment.arena.length = n := hst
  have hread := replay_flushed hframed hvalid (show ([] : Bytes).length < sectorSize by decide)
    regions hst'
  rw [List.append_nil] at hread
  rw [hread]
  exact ⟨Entry.arena_foldl_apply es _, Entry.indexOps_foldl_apply es _, Entry.recMax_foldl_apply es _⟩

theorem replay_segments (regions : Regions) {segs : List (List Bytes)} {ess : List (List Entry)}
    (h : List.Forall₂ (FileFramed n) segs ess) {st : Recovered} (hst : st.arena.length = n) :
    let st' := (segs.map (·.flatMap sealSector)).foldl
      (fun st file ↦ replayOneSegment regions file st.countSegment) st
    st'.arena = applyWrites (ess.flatten.filterMap Entry.write) st.arena ∧
      st'.indexOps = st.indexOps ++ ess.flatten.filterMap Entry.indexOp ∧
      st'.recMax = max st.recMax (Entry.loggedEnd regions ess.flatten) := by
  induction h generalizing st with
  | nil => exact ⟨rfl, (List.append_nil _).symm, (Nat.max_zero _).symm⟩
  | @cons seg es segs ess hfile _ ih =>
    obtain ⟨harena, hops, hrec⟩ := replay_file regions hfile hst
    have hlen : (replayOneSegment regions (seg.flatMap sealSector) st.countSegment).arena.length = n := by
      rw [harena, length_applyWrites (by rw [hst]; exact Entry.fits_of_valid hfile.valid), hst]
    obtain ⟨harena', hops', hrec'⟩ := ih hlen
    dsimp only at harena' hops' hrec' ⊢
    rw [List.map_cons, List.foldl_cons, harena', hops', hrec', harena, hops, hrec, List.flatten_cons,
      List.filterMap_append, List.filterMap_append, applyWrites_append, List.append_assoc,
      Entry.loggedEnd_append, max_assoc]
    exact ⟨rfl, rfl, rfl⟩

/-- Replay takes the live file before the segments. -/
theorem replayWal_files (regions : Regions) {l : SectorFiles} {ess : List (List Entry)} {live : List Entry}
    (h : l.FramedAs n ess live) {st : Recovered} (hst : st.arena.length = n) :
    (replayWal regions l.files st).arena =
        applyWrites ((live ++ ess.flatten).filterMap Entry.write) st.arena ∧
      (replayWal regions l.files st).indexOps =
        st.indexOps ++ (live ++ ess.flatten).filterMap Entry.indexOp ∧
      (replayWal regions l.files st).recMax =
        max st.recMax (Entry.loggedEnd regions (live ++ ess.flatten)) := by
  obtain ⟨harena, hops, hrec⟩ := replay_file regions h.live hst
  have hlen : (replayOneSegment regions (l.live.flatMap sealSector) st.countSegment).arena.length = n := by
    rw [harena, length_applyWrites (by rw [hst]; exact Entry.fits_of_valid h.live.valid), hst]
  obtain ⟨harena', hops', hrec'⟩ := replay_segments regions h.segments hlen
  have hsegs : ∀ st, LogFiles.replaySegments
      (fun file (st : Recovered) ↦ replayOneSegment regions file st.countSegment) l.files.segments
      maxSegments 0 st = (l.segments.map (·.flatMap sealSector)).foldl
        (fun st file ↦ replayOneSegment regions file st.countSegment) st := by
    intro st
    apply LogFiles.replaySegments_eq
    · rw [List.length_map]
      exact l.bounded
    · intro i _
      rw [Nat.zero_add, List.getElem?_map]
      rfl
    · left
      rw [Nat.zero_add, List.length_map, SectorFiles.files]
      simp
  rw [replayWal, LogFiles.replayWal, hsegs]
  rw [show l.files.live = l.live.flatMap sealSector from rfl, harena', hops', hrec', harena, hops, hrec,
    List.filterMap_append, List.filterMap_append, applyWrites_append, List.append_assoc,
    Entry.loggedEnd_append, max_assoc]
  exact ⟨rfl, rfl, rfl⟩

/-- Replay is in order exactly when the newer file may come first. -/
theorem inOrder_iff_agree {l : SectorFiles} {ess : List (List Entry)} {live : List Entry}
    (h : l.FramedAs n ess live) : InOrder n l.files (ess.flatten ++ live) ↔ Agree ess.flatten live := by
  have hlive := Entry.fits_of_valid h.live.valid
  have hsegs := Entry.fits_of_valid (valid_of_forall₂ h.segments)
  rw [Agree, ← applyWrites_comm_iff hsegs hlive]
  constructor
  · intro horder
    let regions : Regions := ⟨0, 0, 0, 0, 0, 0, 0, 0⟩
    refine ⟨fun b hb ↦ ?_, ?_⟩
    · have hst : (⟨b, 0, 0, 0, [], {}⟩ : Recovered).arena.length = n := hb
      have harena := (horder regions _ hst).1
      rw [(replayWal_files _ h hst).1, Entry.arena_foldl_apply] at harena
      simpa only [List.filterMap_append] using harena.symm
    · have hst : (⟨List.replicate n 0, 0, 0, 0, [], {}⟩ : Recovered).arena.length = n :=
        List.length_replicate
      have hops := (horder regions _ hst).2
      rw [(replayWal_files _ h hst).2.1, Entry.indexOps_foldl_apply] at hops
      simpa only [List.filterMap_append, List.nil_append] using hops.symm
  · rintro ⟨harena, hops⟩ regions st hst
    rw [(replayWal_files _ h hst).1, (replayWal_files _ h hst).2.1, Entry.arena_foldl_apply,
      Entry.indexOps_foldl_apply]
    simp only [List.filterMap_append]
    exact ⟨(harena _ hst).symm, by rw [hops]⟩

theorem wholeEntries_append (es : List Entry) (m : ℕ) (more : List Entry) :
    wholeEntries ((es.flatMap Entry.encode).length + m) (es ++ more) = es ++ wholeEntries m more := by
  induction es with
  | nil => simp
  | cons e es ih =>
    rw [List.flatMap_cons, List.length_append, Nat.add_assoc, List.cons_append, wholeEntries,
      if_pos (by omega), Nat.add_sub_cancel_left, ih, List.cons_append]

theorem wholeEntries_zero (es : List Entry) : wholeEntries 0 es = [] := by
  cases es with
  | nil => rfl
  | cons e es =>
    rw [wholeEntries, if_neg]
    rw [Entry.length_encode, headerSize]
    omega

/-- A framed log that no rotation splits is framed file by file. -/
theorem exists_framedAs {segs : List (List Bytes)} {live : List Bytes} {es todo : List Entry}
    {r : Option Bytes} (h : Framed [] (segs.flatten ++ live) es r todo)
    (hvalid : ∀ e ∈ es ++ todo, e.Valid n) (hsplit : SplitFree segs es) :
    ∃ ess esLive, es = ess.flatten ++ esLive ∧ List.Forall₂ (FileFramed n) segs ess ∧
      FileFramed n live esLive ∧
      (ess.flatten.flatMap Entry.encode).length = segs.flatten.flatten.length := by
  induction segs generalizing es r with
  | nil => exact ⟨[], es, rfl, .nil, ⟨r, todo, h, hvalid⟩, rfl⟩
  | cons seg segs ih =>
    rw [List.flatten_cons, List.append_assoc] at h
    obtain ⟨es₁, es₂, r₁, rfl, hfirst, hrest⟩ := h.split (cut_nil _)
    have hbytes := congrArg List.length hfirst.bytes
    rw [List.nil_append, List.length_append] at hbytes
    have hfront : wholeEntries seg.flatten.length (es₁ ++ es₂) = es₁ := by
      have hcut := hfirst.cut
      rw [hbytes, wholeEntries_append]
      cases es₂ with
      | nil => exact List.append_nil es₁
      | cons e es₂ => rw [wholeEntries, if_neg (Nat.not_le.mpr hcut.2), List.append_nil]
    simp only [SplitFree, hfront, List.drop_left] at hsplit
    obtain ⟨hboundary, hsplit⟩ := hsplit
    have hvalid' : ∀ e ∈ es₂ ++ todo, e.Valid n := fun e he ↦
      hvalid e (by rw [List.append_assoc]; exact List.mem_append_right _ he)
    have htail : ∃ r, Framed [] (segs.flatten ++ live) es₂ r todo := by
      rcases hrest with ⟨-, hnil, rfl⟩ | ⟨q₁, rfl, hrest⟩
      · rw [hnil]
        exact ⟨some [], .nil (cut_nil _)⟩
      · obtain rfl : q₁ = [] := List.length_eq_zero_iff.mp (by
          rw [Option.getD_some] at hbytes
          omega)
        exact ⟨r, hrest⟩
    obtain ⟨r', htail⟩ := htail
    obtain ⟨ess, esLive, rfl, hsegs, hlive, hlen⟩ := ih htail hvalid' hsplit
    refine ⟨es₁ :: ess, esLive, by rw [List.flatten_cons, List.append_assoc], ?_, hlive, ?_⟩
    · refine .cons ⟨r₁, _, hfirst, fun e he ↦ ?_⟩ hsegs
      rw [← List.append_assoc] at he
      exact hvalid e he
    · rw [List.flatten_cons, List.flatMap_append, List.length_append, hlen, hboundary,
        List.flatten_cons, List.flatten_append, List.length_append]

/-- The records of each file of a log whose sectors are framed. -/
theorem exists_framedAs_files {l : SectorFiles} {es todo : List Entry} {r : Option Bytes}
    (h : Framed [] l.sectors es r todo) (hvalid : ∀ e ∈ es ++ todo, e.Valid n)
    (hsplit : SplitFree l.segments es) :
    ∃ ess live, es = ess.flatten ++ live ∧ l.FramedAs n ess live ∧ l.archived es = ess.flatten ∧
      l.current es = live := by
  obtain ⟨ess, live, rfl, hsegs, hlive, hlen⟩ := exists_framedAs h hvalid hsplit
  have harchived : l.archived (ess.flatten ++ live) = ess.flatten := by
    have hwhole := wholeEntries_append ess.flatten 0 live
    rw [Nat.add_zero, hlen] at hwhole
    rw [archived, hwhole, wholeEntries_zero, List.append_nil]
  exact ⟨ess, live, rfl, ⟨hsegs, hlive⟩, harchived, by rw [current, harchived, List.drop_left]⟩

/-- Whatever the run logs and wherever its sectors are divided into files,
as long as no record is split: replay is in order exactly when the live
file and the segments agree. -/
theorem inOrder_iff_of_splitFree (n : ℕ) (ops : List FlusherOp) (w : WalManager) (l : SectorFiles)
    (hops : ∀ op ∈ ops, op.Acceptable n) (hsafe : Unambiguous ops (init LogFiles.empty))
    (hrun : Outcome.fold FlusherOp.run ops (init LogFiles.empty) = .ok w)
    (hl : l.sectors = w.flushed) (hsplit : SplitFree l.segments (w.written (logged ops))) :
    InOrder n l.files (w.written (logged ops)) ↔
      Agree (l.archived (w.written (logged ops))) (l.current (w.written (logged ops))) := by
  obtain ⟨w', r, todo, hrun', hlog, hframed⟩ := framed_of_run hops hsafe
  obtain rfl : w' = w := Outcome.ok.inj (hrun'.symm.trans hrun)
  have hvalid := logged_valid hops
  rw [hlog] at hvalid
  rw [← hl] at hframed
  generalize w'.written (logged ops) = es at *
  obtain ⟨ess, live, rfl, hfiles, harchived, hcurrent⟩ := exists_framedAs_files hframed hvalid hsplit
  rw [harchived, hcurrent]
  exact inOrder_iff_agree hfiles

/-- The files that a run leaves are one way to divide its sectors. -/
theorem files_of_run {n : ℕ} {ops : List FlusherOp} (hops : ∀ op ∈ ops, op.Acceptable n) :
    ∃ w l, Outcome.fold FlusherOp.run ops (init LogFiles.empty) = .ok w ∧ w.SegmentedAs l := by
  have hinit := logs_init LogFiles.empty
  obtain ⟨w, hw, -, -, hseg⟩ := fold_acceptable hinit.healthy hinit.room hops
  obtain ⟨l, hl⟩ := hseg segmented_init
  exact ⟨w, l, hw, hl⟩

def newerDelta : DeltaMessage := ⟨32768, 1, deltaInline, inlineData [255], length_byteData⟩

def newerEntry : Entry := ⟨.arenaWrite, 32768, [255]⟩

theorem newerDelta_logs : (FlusherOp.delta newerDelta blankArena).Acceptable 65536 ∧
    newerDelta.entry blankArena = some newerEntry ∧ newerEntry.encode.length = 9 :=
  ⟨⟨length_zeros _, by decide, by decide, by decide⟩, rfl, rfl⟩

def twoFileRun : List FlusherOp :=
  [.delta smallDelta blankArena, .forcedFlush, .delta newerDelta blankArena, .forcedFlush]

def twoFiles : SectorFiles := ⟨[[smallEntry.encode]], [newerEntry.encode], by decide⟩

theorem twoFiles_inOrder : ∃ w,
    Outcome.fold FlusherOp.run twoFileRun (init LogFiles.empty) = .ok w ∧
      twoFiles.sectors = w.flushed ∧ InOrder 65536 twoFiles.files (w.written (logged twoFileRun)) := by
  obtain ⟨w₁, hw₁, hok₁, hflushed₁, hsector₁, -⟩ := run_delta_of_room
    (logs_init LogFiles.empty).healthy smallDelta_logs.1 smallDelta_logs.2.1
    (by rw [smallDelta_logs.2.2]; decide)
  obtain ⟨w₂, hw₂, hok₂, hflushed₂, hsector₂, -⟩ := run_delta_of_room (emit_healthy hok₁)
    newerDelta_logs.1 newerDelta_logs.2.1 (by rw [newerDelta_logs.2.2, sector_emit]; decide)
  rw [sector_emit, List.nil_append] at hsector₂
  have hne₁ : w₁.sector ≠ [] := by rw [hsector₁]; decide
  have hne₂ : w₂.sector ≠ [] := by rw [hsector₂]; decide
  have hrun : Outcome.fold FlusherOp.run twoFileRun (init LogFiles.empty) = .ok w₂.emit := by
    simp only [twoFileRun, Outcome.fold, hw₁, run_forcedFlush hok₁ hne₁, hw₂,
      run_forcedFlush hok₂ hne₂, Outcome.ok_andThen]
  have hsectors : twoFiles.sectors = w₂.emit.flushed := by
    rw [flushed_emit, hflushed₂, flushed_emit, hflushed₁, hsector₁, hsector₂]
    rfl
  have hwritten := written_of_sector_nil (sector_emit w₂) (logged twoFileRun)
  refine ⟨w₂.emit, hrun, hsectors, ?_⟩
  refine (inOrder_iff_of_splitFree 65536 twoFileRun w₂.emit twoFiles ?_ ?_ hrun hsectors ?_).mpr ?_
  · simp only [twoFileRun, List.forall_mem_cons]
    exact ⟨smallDelta_logs.1, trivial, newerDelta_logs.1, trivial, by simp⟩
  · refine ⟨by simp, fun _ ↦ .inr (.inl ?_), by simp, fun _ ↦ .inr (.inr rfl), trivial⟩
    rw [hw₁, Outcome.state_ok, hsector₁]
    decide
  · rw [hwritten]
    exact ⟨rfl, trivial⟩
  · rw [hwritten]
    refine ⟨fun i x y hx hy ↦ ?_, rfl⟩
    have hold : lastWrite [(⟨40960, [255]⟩ : Write UInt8)] i = some x := hx
    have hnew : lastWrite [(⟨32768, [255]⟩ : Write UInt8)] i = some y := hy
    rw [lastWrite_singleton] at hold hnew
    rw [List.mem_singleton.mp (Write.mem_of_at hold), List.mem_singleton.mp (Write.mem_of_at hnew)]

/-- A record of this size fills a sector. -/
def sectorDelta : DeltaMessage := ⟨32768, 4084, deltaArena, inlineData [], length_noData⟩

def sectorEntry : Entry := ⟨.arenaWrite, 32768, zeros 4084⟩

/-- One segment of records that all write the same range, and a newer
record behind the rotation. -/
def rotatingRun : List FlusherOp :=
  List.replicate sectorsPerSegment (.delta sectorDelta blankArena) ++
    [.delta newerDelta blankArena, .forcedFlush]

theorem sectorDelta_logs : (FlusherOp.delta sectorDelta blankArena).Acceptable 65536 ∧
    sectorDelta.entry blankArena = some sectorEntry ∧ sectorEntry.encode.length = sectorPayload := by
  refine ⟨⟨length_zeros _, ?_, by decide, by decide⟩, ?_, ?_⟩
  · exact ⟨by decide, by rw [blankArena, length_zeros]; decide⟩
  · exact congrArg (fun p ↦ some (Entry.mk .arenaWrite 32768 p)) (slice_zeros (by decide))
  · rw [Entry.length_encode, sectorEntry, length_zeros]

theorem rotatingRun_acceptable : ∀ op ∈ rotatingRun, op.Acceptable 65536 := by
  intro op hop
  rcases List.mem_append.mp hop with hop | hop
  · rw [List.eq_of_mem_replicate hop]
    exact sectorDelta_logs.1
  · simp only [List.mem_cons, List.not_mem_nil, or_false] at hop
    rcases hop with rfl | rfl
    · exact newerDelta_logs.1
    · trivial

/-- Records that fill a sector each leave one sector each. -/
theorem run_sector_records {w : WalManager} (h : w.Healthy) (hempty : w.sector = []) (k : ℕ) :
    ∃ w', Outcome.fold FlusherOp.run (List.replicate k (.delta sectorDelta blankArena)) w = .ok w' ∧
      w'.Healthy ∧ w'.sector = [] ∧ w'.flushed = w.flushed ++ List.replicate k sectorEntry.encode := by
  induction k generalizing w with
  | zero => exact ⟨w, rfl, h, hempty, (List.append_nil _).symm⟩
  | succ k ih =>
    obtain ⟨w₁, hw₁, happ⟩ := processDelta_healthy h (by rw [hempty]; decide) sectorDelta_logs.1.2.1
    obtain ⟨full, hfull, hflushed, hbytes, -⟩ := happ.blocks
    rw [sectorDelta_logs.2.1, Option.elim_some, hempty, List.nil_append] at hbytes
    have hroom := happ.room
    have hlen := congrArg List.length hbytes
    rw [List.length_append, length_flatten_of_forall hfull, sectorDelta_logs.2.2] at hlen
    simp only [sectorPayload] at hlen hroom
    obtain ⟨c, rfl⟩ := List.length_eq_one_iff.mp (show full.length = 1 by omega)
    have hsector : w₁.sector = [] := List.length_eq_zero_iff.mp (by
      rw [List.length_singleton] at hlen
      omega)
    rw [hsector, List.append_nil, List.flatten_singleton] at hbytes
    obtain ⟨w', hw', hok, hsector', hflushed'⟩ := ih happ.healthy hsector
    refine ⟨w', ?_, hok, hsector', ?_⟩
    · rw [List.replicate_succ, Outcome.fold, FlusherOp.run, hw₁, Outcome.ok_andThen, hw']
    · rw [hflushed', hflushed, hbytes, List.replicate_succ, List.append_assoc, List.singleton_append]

theorem logged_replicate {op : FlusherOp} {e : Entry} (h : op.entries = [e]) (k : ℕ) :
    logged (List.replicate k op) = List.replicate k e := by
  induction k with
  | zero => rfl
  | succ k ih =>
    rw [logged] at ih ⊢
    rw [List.replicate_succ, List.flatMap_cons, ih, h, List.replicate_succ, List.singleton_append]

theorem logged_rotatingRun :
    logged rotatingRun = List.replicate sectorsPerSegment sectorEntry ++ [newerEntry] := by
  have hsector : (FlusherOp.delta sectorDelta blankArena).entries = [sectorEntry] := by
    rw [FlusherOp.entries, sectorDelta_logs.2.1, Option.toList_some]
  have hfront := logged_replicate hsector sectorsPerSegment
  rw [logged] at hfront
  rw [rotatingRun, logged, List.flatMap_append, hfront]
  rfl

theorem run_rotatingRun : ∃ w,
    Outcome.fold FlusherOp.run rotatingRun (init LogFiles.empty) = .ok w ∧ w.sector = [] ∧
      w.flushed = List.replicate sectorsPerSegment sectorEntry.encode ++ [newerEntry.encode] := by
  have hinit := logs_init LogFiles.empty
  obtain ⟨w₁, hw₁, hok₁, hsector₁, hflushed₁⟩ :=
    run_sector_records hinit.healthy rfl sectorsPerSegment
  obtain ⟨w₂, hw₂, hok₂, hflushed₂, hsector₂, -⟩ := run_delta_of_room hok₁ newerDelta_logs.1
    newerDelta_logs.2.1 (by rw [hsector₁, newerDelta_logs.2.2]; decide)
  rw [hsector₁, List.nil_append] at hsector₂
  have hne : w₂.sector ≠ [] := by
    rw [hsector₂]
    decide
  refine ⟨w₂.emit, ?_, sector_emit w₂, ?_⟩
  · rw [rotatingRun, Outcome.fold_append, hw₁, Outcome.ok_andThen, Outcome.fold, hw₂,
      Outcome.ok_andThen, Outcome.fold, run_forcedFlush hok₂ hne]
    rfl
  · rw [flushed_emit, hflushed₂, hsector₂, hflushed₁, show (init LogFiles.empty).flushed = [] from rfl,
      List.nil_append]

/-- The rotation comes after the last of the older records. -/
theorem segmentedAs_rotatingRun {w : WalManager} {l : SectorFiles} (h : w.SegmentedAs l)
    (hflushed : w.flushed =
      List.replicate sectorsPerSegment sectorEntry.encode ++ [newerEntry.encode]) :
    l.segments = [List.replicate sectorsPerSegment sectorEntry.encode] ∧
      l.live = [newerEntry.encode] := by
  have hsectors := h.flushed
  rw [hflushed, sectors] at hsectors
  have hlen := congrArg List.length hsectors
  have hroom := h.room
  have hbounded := l.bounded
  rw [List.length_append, List.length_append, length_flatten_of_forall h.full, List.length_replicate,
    List.length_singleton] at hlen
  simp only [sectorsPerSegment, segmentMax, sectorSize, maxSegments] at hlen hroom hbounded
  have hone : l.segments.length = 1 := by omega
  obtain ⟨seg, hseg⟩ := List.length_eq_one_iff.mp hone
  have hfull : seg.length = sectorsPerSegment := h.full seg (by rw [hseg]; exact List.mem_singleton_self _)
  rw [hseg, List.flatten_singleton] at hsectors
  obtain ⟨hfront, hlast⟩ := List.append_inj hsectors (by rw [List.length_replicate, hfull])
  exact ⟨by rw [hseg, hfront], hlast.symm⟩

theorem framed_sector_records (k : ℕ) :
    Framed [] (List.replicate k sectorEntry.encode) (List.replicate k sectorEntry) (some []) [] := by
  induction k with
  | zero => exact .nil rfl
  | succ k ih =>
    have hbytes : [] ++ sectorEntry.encode = [sectorEntry].flatMap Entry.encode ++ [] := by simp
    exact .full sectorDelta_logs.2.2 hbytes (cut_nil _) ih

theorem lastWrite_replicate {e : Entry} {v : Write UInt8} (h : e.write = some v) (i : ℕ) {k : ℕ}
    (hk : 0 < k) : lastWrite ((List.replicate k e).filterMap Entry.write) i = v.at i := by
  induction k with
  | zero => omega
  | succ k ih =>
    rw [List.replicate_succ', List.filterMap_append, lastWrite_append]
    cases k with
    | zero => simp [h, lastWrite]
    | succ k => rw [ih (by omega)]; simp [h, lastWrite]

/-- The newer record is applied first, and the older ones hide it. -/
theorem rotatingRun_not_inOrder : (∀ op ∈ rotatingRun, op.Acceptable 65536) ∧
    ∃ w, Outcome.fold FlusherOp.run rotatingRun (init LogFiles.empty) = .ok w ∧
      w.written (logged rotatingRun) = logged rotatingRun ∧
      ¬ InOrder 65536 w.files (w.written (logged rotatingRun)) := by
  obtain ⟨w, hw, hsector, hflushed⟩ := run_rotatingRun
  obtain ⟨w', l, hw', hl⟩ := files_of_run rotatingRun_acceptable
  obtain rfl : w' = w := Outcome.ok.inj (hw'.symm.trans hw)
  obtain ⟨hsegments, hlive⟩ := segmentedAs_rotatingRun hl hflushed
  have hvalid := logged_valid rotatingRun_acceptable
  rw [logged_rotatingRun] at hvalid
  have hframed : l.FramedAs 65536 [List.replicate sectorsPerSegment sectorEntry] [newerEntry] := by
    constructor
    · rw [hsegments]
      refine .cons ⟨some [], [], framed_sector_records _, fun e he ↦ hvalid e ?_⟩ .nil
      rw [List.append_nil] at he
      exact List.mem_append_left _ he
    · rw [hlive]
      refine ⟨none, [], .last (by rw [newerDelta_logs.2.2]; decide) (by simp), fun e he ↦ hvalid e ?_⟩
      exact List.mem_append_right _ (by simpa using he)
  refine ⟨rotatingRun_acceptable, w', hw, written_of_sector_nil hsector _, fun horder ↦ ?_⟩
  rw [written_of_sector_nil hsector, logged_rotatingRun, hl.files] at horder
  have hagree := (inOrder_iff_agree hframed).mp (by rwa [List.flatten_singleton])
  rw [List.flatten_singleton] at hagree
  have hzero : lastWrite ((List.replicate sectorsPerSegment sectorEntry).filterMap Entry.write) 32768 =
      some 0 := by
    have hwrite : sectorEntry.write = some ⟨32768, zeros 4084⟩ := rfl
    rw [lastWrite_replicate hwrite _ (by decide)]
    rfl
  have hnew : lastWrite ([newerEntry].filterMap Entry.write) 32768 = some 255 := rfl
  cases hagree.1 32768 0 255 hzero hnew

end TakyonDb
