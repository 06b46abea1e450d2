import TakyonDb.Flusher

namespace TakyonDb

open Lib Layout Wal Replay Framing WalManager

/-- A daemon life ends with `shutdown`, or with a crash that leaves the
first `kept` bytes of what the life wrote. -/
inductive Ending
  | shutdown
  | crash (kept : ℕ)

structure Life where
  ops : List FlusherOp
  ending : Ending

/-- A log whose bytes are all in the live file. -/
def liveOnly (file : Bytes) : LogFiles UInt8 := ⟨file, fun _ ↦ none⟩

namespace Life

def manager (l : Life) (file : Bytes) : WalManager :=
  let w := (Outcome.fold FlusherOp.run l.ops (init (liveOnly file))).state
  match l.ending with
  | .shutdown => w.shutdown
  | .crash _ => w

def kept (l : Life) (file : Bytes) : ℕ :=
  match l.ending with
  | .shutdown => (l.manager file).stream.length - file.length
  | .crash kept => kept

/-- The log that a life leaves when it starts on `file`. -/
def run (l : Life) (file : Bytes) : Bytes :=
  (l.manager file).stream.take (file.length + l.kept file)

/-- The used bytes of the sectors that the life leaves whole. -/
def sectors (l : Life) (file : Bytes) : List Bytes :=
  (l.manager file).flushed.take (l.kept file / sectorSize)

def surviving (l : Life) (file : Bytes) : List Entry :=
  wholeEntries (l.sectors file).flatten.length (logged l.ops)

/-- The life leaves whole sectors, the last record in them is whole, and
the padding behind it cannot be taken for a record. -/
structure Clean (l : Life) (file : Bytes) : Prop where
  aligned : (l.run file).length % sectorSize = 0
  boundary : ((l.surviving file).flatMap Entry.encode).length = (l.sectors file).flatten.length
  slack : ∀ c ∈ (l.sectors file).getLast?,
    c.length = sectorPayload ∨ c.length + minPadding ≤ sectorPayload

end Life

def runLives (lives : List Life) (file : Bytes) : Bytes :=
  lives.foldl (fun file l ↦ l.run file) file

/-- The records of every life that are whole in the sectors it leaves whole. -/
def survivors : List Life → Bytes → List Entry
  | [], _ => []
  | l :: ls, file => l.surviving file ++ survivors ls (l.run file)

/-- No forced flush inside a life pads ambiguously, and a life that another
one logs behind ends clean. -/
def CleanLives : List Life → Bytes → Prop
  | [], _ => True
  | l :: ls, file =>
    Unambiguous l.ops (init (liveOnly file)) ∧
      (l.Clean file ∨ ∀ l' ∈ ls, logged l'.ops = []) ∧ CleanLives ls (l.run file)

variable {n : ℕ} {file : Bytes} {l : Life} {w : WalManager}

theorem stream_init_liveOnly (file : Bytes) : (init (liveOnly file)).stream = file := by
  have hnone : ∀ m, (List.range m).flatMap (fun i ↦ ((liveOnly file).segments i).getD []) = [] := by
    intro m
    simp [liveOnly]
  rw [stream, LogFiles.stream]
  exact congrArg (· ++ file) (hnone _)

theorem shutdown_of_healthy (h : w.Healthy) (hopen : w.phase = .opened) :
    w.shutdown.flushed = (if w.sector = [] then w else w.emit).flushed ∧
      w.shutdown.stream = (if w.sector = [] then w else w.emit).stream := by
  have hclosing : Healthy { w with phase := .closing } := ⟨by simp, h.2⟩
  rw [shutdown, if_pos hopen, flushBuffer_healthy hclosing]
  by_cases hs : w.sector = []
  · rw [if_pos hs, if_pos hs]
    exact ⟨rfl, rfl⟩
  · have hflushed := flushed_emit { w with phase := .closing }
    have hstream := stream_emit { w with phase := .closing }
    rw [if_neg hs, if_neg hs, flushed_emit, stream_emit]
    generalize emit { w with phase := .closing } = v at hflushed hstream ⊢
    exact ⟨hflushed, hstream⟩

/-- All that a life writes is framed, up to a last sector. -/
theorem Life.framed (hops : ∀ op ∈ l.ops, op.Acceptable n)
    (hsafe : Unambiguous l.ops (init (liveOnly file))) :
    ∃ es todo r, logged l.ops = es ++ todo ∧ Framed [] (l.manager file).flushed es r todo ∧
      (l.manager file).stream = file ++ (l.manager file).flushed.flatMap sealSector := by
  obtain ⟨w, hw, hend⟩ := (logs_init (liveOnly file)).run hops hsafe
  rw [List.nil_append, stream_init_liveOnly] at hend
  have hmanager : l.manager file = match l.ending with
      | .shutdown => w.shutdown
      | .crash _ => w := by
    rw [Life.manager, hw]
    rfl
  rw [hmanager]
  rcases hend with hlogs | hended
  · cases l.ending with
    | crash k =>
      obtain ⟨es, todo, q, hlog, hframed, -⟩ := hlogs.framed
      exact ⟨es, todo, some q, hlog, hframed, hlogs.stream⟩
    | shutdown =>
      obtain ⟨hflushed, hstream⟩ := shutdown_of_healthy hlogs.healthy hlogs.opened
      dsimp only
      rw [hflushed, hstream]
      split_ifs with hs
      · obtain ⟨es, todo, q, hlog, hframed, -⟩ := hlogs.framed
        exact ⟨es, todo, some q, hlog, hframed, hlogs.stream⟩
      · have hlast := hlogs.emit_last
        exact ⟨_, [], none, (List.append_nil _).symm, hlast.framed, hlast.stream⟩
  · cases l.ending with
    | crash k => exact ⟨_, [], none, (List.append_nil _).symm, hended.framed, hended.stream⟩
    | shutdown =>
      obtain ⟨hflushed, hstream⟩ := shutdown_of_healthy hended.healthy hended.opened
      dsimp only
      rw [hflushed, hstream, if_pos hended.empty]
      exact ⟨_, [], none, (List.append_nil _).symm, hended.framed, hended.stream⟩

/-- What a life leaves: its whole sectors, framed, and a torn one. -/
theorem Life.run_eq (hops : ∀ op ∈ l.ops, op.Acceptable n)
    (hsafe : Unambiguous l.ops (init (liveOnly file))) :
    ∃ todo r torn, logged l.ops = l.surviving file ++ todo ∧
      Framed [] (l.sectors file) (l.surviving file) r todo ∧ torn.length < sectorSize ∧
      l.run file = file ++ ((l.sectors file).flatMap sealSector ++ torn) := by
  obtain ⟨es, todo, r, hlog, hframed, hstream⟩ := Life.framed hops hsafe
  obtain ⟨es₁, es₂, r₁, rfl, hfront⟩ := hframed.take (cut_nil _) (l.kept file / sectorSize)
  obtain ⟨torn, htorn, htake⟩ := take_flatten (k := l.kept file) (by decide)
    (length_of_mem_seal hframed.length_le)
  have hsurviving : l.surviving file = es₁ := by
    have hbytes := hfront.bytes
    rw [List.nil_append] at hbytes
    rw [Life.surviving, Life.sectors, hbytes, hlog, List.append_assoc,
      wholeEntries_of_cut hfront.cut]
  refine ⟨es₂ ++ todo, r₁, torn, ?_, ?_, htorn, ?_⟩
  · rw [hsurviving, hlog, List.append_assoc]
  · rw [hsurviving]
    exact hfront
  · rw [Life.run, hstream, List.take_length_add_append, List.flatMap_def, htake, Life.sectors,
      List.flatMap_def, List.map_take]

/-- A life that logs nothing leaves the log as it was. -/
theorem Life.run_of_logged_nil (hops : ∀ op ∈ l.ops, op.Acceptable n) (hnone : logged l.ops = [])
    (file : Bytes) : l.run file = file ∧ l.surviving file = [] := by
  have hinit := logs_init (liveOnly file)
  have hempty : (init (liveOnly file)).sector = [] := rfl
  have hstream : (l.manager file).stream = file := by
    rw [Life.manager, fold_of_no_entries hinit.healthy hempty hops hnone, Outcome.state_ok]
    cases l.ending with
    | crash k => exact stream_init_liveOnly file
    | shutdown =>
      dsimp only
      rw [(shutdown_of_healthy hinit.healthy hinit.opened).2, if_pos hempty, stream_init_liveOnly]
  refine ⟨?_, by rw [Life.surviving, hnone]; cases (l.sectors file).flatten.length <;> rfl⟩
  rw [Life.run, hstream]
  exact List.take_of_length_le (by omega)

theorem runLives_of_logged_nil {lives : List Life} (hops : ∀ l ∈ lives, ∀ op ∈ l.ops, op.Acceptable n)
    (hnone : ∀ l ∈ lives, logged l.ops = []) (file : Bytes) :
    runLives lives file = file ∧ survivors lives file = [] := by
  induction lives with
  | nil => exact ⟨rfl, rfl⟩
  | cons l ls ih =>
    obtain ⟨hrun, hsurv⟩ := Life.run_of_logged_nil (hops l List.mem_cons_self)
      (hnone l List.mem_cons_self) file
    obtain ⟨hrest, hnil⟩ := ih (fun l hl ↦ hops l (List.mem_cons_of_mem _ hl))
      (fun l hl ↦ hnone l (List.mem_cons_of_mem _ hl))
    refine ⟨?_, ?_⟩
    · rw [runLives, List.foldl_cons, hrun]
      exact hrest
    · rw [survivors, hrun, hsurv, hnil]
      rfl

/-- A clean life carries nothing into the next one. -/
theorem Life.Clean.framed {todo : List Entry} {r : Option Bytes} (hclean : l.Clean file)
    (h : Framed [] (l.sectors file) (l.surviving file) r todo) :
    Framed [] (l.sectors file) (l.surviving file) (some []) todo := by
  cases r with
  | none => exact h.settle hclean.slack
  | some q =>
    have hbytes := congrArg List.length h.bytes
    simp only [List.nil_append, List.length_append, Option.getD_some, hclean.boundary] at hbytes
    obtain rfl : q = [] := List.length_eq_zero_iff.mp (by omega)
    exact h

theorem runLives_framed {lives : List Life} {cs : List Bytes} {es todo : List Entry}
    (hops : ∀ l ∈ lives, ∀ op ∈ l.ops, op.Acceptable n)
    (hclean : CleanLives lives (cs.flatMap sealSector)) (hframed : Framed [] cs es (some []) todo)
    (hvalid : ∀ e ∈ es ++ todo, e.Valid n) :
    ∃ cs' es' todo' r torn, runLives lives (cs.flatMap sealSector) = cs'.flatMap sealSector ++ torn ∧
      torn.length < sectorSize ∧ es' = es ++ survivors lives (cs.flatMap sealSector) ∧
      Framed [] cs' es' r todo' ∧ ∀ e ∈ es' ++ todo', e.Valid n := by
  induction lives generalizing cs es todo with
  | nil =>
    exact ⟨cs, es, todo, some [], [], (List.append_nil _).symm, by decide,
      (List.append_nil _).symm, hframed, hvalid⟩
  | cons l ls ih =>
    obtain ⟨hsafe, hend, hrest⟩ := hclean
    obtain ⟨todo', r, torn, hlog, hlife, htorn, hrun⟩ :=
      Life.run_eq (hops l List.mem_cons_self) hsafe
    have hlogged := logged_valid (hops l List.mem_cons_self)
    have hvalid' : ∀ e ∈ (es ++ l.surviving (cs.flatMap sealSector)) ++ todo', e.Valid n := by
      intro e he
      rw [List.append_assoc, ← hlog] at he
      exact (List.mem_append.mp he).elim
        (fun h ↦ hvalid e (List.mem_append_left _ h)) (hlogged e)
    have hops' : ∀ l ∈ ls, ∀ op ∈ l.ops, op.Acceptable n :=
      fun l hl ↦ hops l (List.mem_cons_of_mem _ hl)
    rcases hend with hclean | hnone
    · have hnext := hframed.restart (hclean.framed hlife)
      have haligned := hclean.aligned
      have hfile : l.run (cs.flatMap sealSector) =
          (cs ++ l.sectors (cs.flatMap sealSector)).flatMap sealSector := by
        rw [hrun, List.length_append, List.length_append, length_flatMap_sealSector hframed.length_le,
          length_flatMap_sealSector hlife.length_le] at haligned
        obtain rfl : torn = [] := List.length_eq_zero_iff.mp (by
          simp only [sectorSize] at haligned htorn
          omega)
        rw [hrun, List.append_nil, List.flatMap_append]
      rw [hfile] at hrest
      obtain ⟨cs', es', todo'', r', torn', hruns, htorn', hes', h'⟩ := ih hops' hrest hnext hvalid'
      refine ⟨cs', es', todo'', r', torn', ?_, htorn', ?_, h'⟩
      · rw [runLives, List.foldl_cons, hfile]
        exact hruns
      · rw [hes', survivors, hfile, List.append_assoc]
    · -- nothing is logged behind the torn end
      obtain ⟨hruns, hsurv⟩ := runLives_of_logged_nil hops' hnone
        (l.run (cs.flatMap sealSector))
      refine ⟨cs ++ l.sectors (cs.flatMap sealSector), es ++ l.surviving (cs.flatMap sealSector), todo',
        r, torn, ?_, htorn, ?_, hframed.restart hlife, hvalid'⟩
      · rw [runLives, List.foldl_cons]
        refine hruns.trans ?_
        rw [hrun, List.flatMap_append, List.append_assoc]
      · rw [survivors, hsurv, List.append_nil]

/-- Replaying the log of all the lives gives exactly the surviving records. -/
def LivesRoundTrip (n : ℕ) (lives : List Life) : Prop :=
  ∀ (regions : Regions) (st : Recovered), st.arena.length = n →
    replayOneSegment regions (runLives lives []) st =
      ((survivors lives []).foldl (Entry.apply regions) st).countSectors
        ((runLives lives []).length / sectorSize)

theorem livesRoundTrip_of_clean (n : ℕ) (lives : List Life)
    (hops : ∀ l ∈ lives, ∀ op ∈ l.ops, op.Acceptable n) (hclean : CleanLives lives []) :
    LivesRoundTrip n lives := by
  intro regions st hst
  obtain ⟨cs, es, todo, r, torn, hrun, htorn, hes, hframed, hvalid⟩ :=
    runLives_framed hops (show CleanLives lives (List.flatMap sealSector []) from hclean)
      (.nil (cut_nil [])) (by simp)
  rw [List.flatMap_nil, List.nil_append] at hes
  have hsectors : (cs.flatMap sealSector ++ torn).length / sectorSize = cs.length := by
    rw [List.length_append, length_flatMap_sealSector hframed.length_le]
    simp only [sectorSize] at htorn ⊢
    omega
  rw [List.flatMap_nil] at hrun
  rw [hrun, replay_flushed hframed hvalid htorn regions hst, hsectors, hes]

/-- A life of one short record, shut down. -/
theorem manager_of_one_record {d : DeltaMessage} {arenaMem : Bytes} {e : Entry}
    (hd : (FlusherOp.delta d arenaMem).Acceptable n) (he : d.entry arenaMem = some e)
    (hroom : e.encode.length < sectorPayload) (file : Bytes) :
    (Life.manager ⟨[.delta d arenaMem], .shutdown⟩ file).flushed = [e.encode] ∧
      (Life.manager ⟨[.delta d arenaMem], .shutdown⟩ file).stream = file ++ sealSector e.encode := by
  have hinit := logs_init (liveOnly file)
  obtain ⟨w, hw, hhealthy, hflushed, hsector, hstream⟩ :=
    run_delta_of_room hinit.healthy hd he (by rw [show (init (liveOnly file)).sector = [] from rfl]; simpa)
  have hopen : w.phase = .opened := by
    obtain ⟨w', hw', happ⟩ := processDelta_healthy hinit.healthy hinit.room hd.2.1
    have hsame : w' = w := by
      rw [FlusherOp.run, hw'] at hw
      exact Outcome.ok.inj hw
    rw [← hsame, happ.phase]
    rfl
  rw [stream_init_liveOnly] at hstream
  replace hsector : w.sector = e.encode := hsector
  have hne : w.sector ≠ [] := by
    intro hnil
    have := Entry.length_encode e
    rw [← hsector, hnil, List.length_nil, headerSize] at this
    omega
  have hmanager : Life.manager ⟨[.delta d arenaMem], .shutdown⟩ file = w.shutdown := by
    rw [Life.manager, Outcome.fold, hw]
    rfl
  obtain ⟨hfl, hst⟩ := shutdown_of_healthy hhealthy hopen
  rw [if_neg hne] at hfl hst
  rw [hmanager, hfl, hst, flushed_emit, stream_emit, hflushed, hsector, hstream]
  exact ⟨rfl, rfl⟩

def smallLife : Life := ⟨[.delta smallDelta blankArena], .shutdown⟩

theorem smallLife_run (file : Bytes) : smallLife.run file = file ++ sealSector smallEntry.encode ∧
    smallLife.sectors file = [smallEntry.encode] ∧ smallLife.surviving file = [smallEntry] := by
  obtain ⟨hflushed, hstream⟩ := manager_of_one_record smallDelta_logs.1 smallDelta_logs.2.1
    (by rw [smallDelta_logs.2.2]; decide) file
  have hseal : (sealSector smallEntry.encode).length = sectorSize :=
    length_sealSector (by rw [smallDelta_logs.2.2]; decide)
  have hkept : smallLife.kept file = sectorSize := by
    rw [Life.kept, smallLife]
    dsimp only
    rw [hstream, List.length_append, hseal, Nat.add_sub_cancel_left]
  have hsectors : smallLife.sectors file = [smallEntry.encode] := by
    rw [Life.sectors, hkept, smallLife, hflushed]
    rfl
  refine ⟨?_, hsectors, ?_⟩
  · rw [Life.run, hkept, smallLife, hstream]
    exact List.take_of_length_le (by rw [List.length_append, hseal])
  · rw [Life.surviving, hsectors]
    have hlog : logged smallLife.ops = [smallEntry] := rfl
    have hwhole := wholeEntries_of_cut (cut_nil []) [smallEntry]
    rw [List.append_nil] at hwhole
    rw [hlog]
    simpa using hwhole

theorem smallLife_clean {file : Bytes} (hfile : file.length % sectorSize = 0) :
    smallLife.Clean file := by
  obtain ⟨hrun, hsectors, hsurviving⟩ := smallLife_run file
  have hseal : (sealSector smallEntry.encode).length = sectorSize :=
    length_sealSector (by rw [smallDelta_logs.2.2]; decide)
  refine ⟨?_, ?_, ?_⟩
  · rw [hrun, List.length_append, hseal, Nat.add_mod_right, hfile]
  · rw [hsurviving, hsectors]
    simp
  · rw [hsectors]
    simp [smallDelta_logs.2.2, sectorPayload, minPadding, headerSize]

theorem livesRoundTrip_two_lives : LivesRoundTrip 65536 [smallLife, smallLife] := by
  apply livesRoundTrip_of_clean 65536
  · simp only [List.mem_cons, List.not_mem_nil, or_false, or_self, forall_eq]
    intro op hop
    rw [List.mem_singleton.mp hop]
    exact smallDelta_logs.1
  · exact ⟨⟨by simp, trivial⟩, .inl (smallLife_clean rfl), ⟨by simp, trivial⟩, .inr (by simp), trivial⟩

/-- The first life is cut off in the middle of its record, at the end of
a sector; the second one shuts down in order. -/
def tornLives : List Life := [⟨[.delta hugeDelta blankArena], .crash 4096⟩, smallLife]

def tornFront : Bytes := hugeEntry.encode.take sectorPayload

theorem manager_torn : (Life.manager ⟨[.delta hugeDelta blankArena], .crash 4096⟩ []).flushed =
      [tornFront] ∧
    (Life.manager ⟨[.delta hugeDelta blankArena], .crash 4096⟩ []).stream = sealSector tornFront := by
  have hinit := logs_init (liveOnly [])
  obtain ⟨w, hw, happ⟩ := processDelta_healthy hinit.healthy hinit.room hugeDelta_logs.1.2.1
  obtain ⟨full, hfull, hflushed, hbytes, hstream⟩ := happ.blocks
  rw [hugeDelta_logs.2.1, Option.elim_some, show (init (liveOnly [])).sector = [] from rfl,
    List.nil_append] at hbytes
  have hroom := happ.room
  have hlen := congrArg List.length hbytes
  rw [List.length_append, length_flatten_of_forall hfull, hugeDelta_logs.2.2] at hlen
  simp only [sectorPayload] at hlen hroom
  obtain ⟨c, rfl⟩ := List.length_eq_one_iff.mp (show full.length = 1 by omega)
  have hc : c = tornFront := by
    rw [tornFront, ← hbytes, ← hfull c List.mem_cons_self]
    simp
  have hmanager : Life.manager ⟨[.delta hugeDelta blankArena], .crash 4096⟩ [] = w := by
    rw [Life.manager, Outcome.fold, FlusherOp.run, hw]
    rfl
  rw [hmanager, hflushed, hstream, stream_init_liveOnly, hc, List.flatMap_singleton,
    List.nil_append, show (init (liveOnly [])).flushed = [] from rfl, List.nil_append]
  exact ⟨rfl, rfl⟩

/-- The record that nobody wrote: the torn front, the second life's sector
and some of its padding. -/
def phantom : Entry := ⟨.arenaWrite, 32768, zeros 4084 ++ smallEntry.encode ++ zeros 899⟩

theorem length_payload_phantom : phantom.payload.length = 4992 := by
  rw [phantom, List.length_append, List.length_append, length_zeros, length_zeros, smallDelta_logs.2.2]

theorem tornFront_append : tornFront ++ smallEntry.encode ++ List.replicate 4083 0 =
    phantom.encode ++ List.replicate 3184 0 := by
  have hfront : tornFront = hugeEntry.header.toBytes ++ zeros 4084 := by
    rw [tornFront, Entry.encode, List.take_append, WalEntryHeader.length_toBytes,
      List.take_of_length_le (by simp [headerSize, sectorPayload])]
    exact congrArg (_ ++ ·) (List.take_replicate ..)
  have hheader : phantom.header = hugeEntry.header := by
    simp [Entry.header, phantom, hugeEntry, smallDelta_logs.2.2]
  have hzeros : List.replicate 4083 (0 : UInt8) = zeros 899 ++ List.replicate 3184 0 := by
    rw [zeros, List.replicate_append_replicate]
  rw [hfront, show phantom.encode = phantom.header.toBytes ++ phantom.payload from rfl, hheader, hzeros]
  simp only [phantom, List.append_assoc]

/-- A record cut off by a crash takes the next life's sector as its rest. -/
theorem tornLives_not_roundTrip : (∀ l ∈ tornLives, ∀ op ∈ l.ops, op.Acceptable 65536) ∧
    ¬ LivesRoundTrip 65536 tornLives := by
  obtain ⟨hflushed, hstream⟩ := manager_torn
  have hlen : tornFront.length = sectorPayload := by
    rw [tornFront, List.length_take, hugeDelta_logs.2.2]
    rfl
  have hprefix : tornFront <+: hugeEntry.encode := List.take_prefix _ _
  have hhuge : hugeEntry.Valid 65536 :=
    entries_valid hugeDelta_logs.1 _ (by simp [FlusherOp.entries, hugeDelta_logs.2.1])
  have hphantom : phantom.Valid 65536 := by
    refine ⟨?_, ?_, fun _ ↦ ?_⟩ <;> rw [length_payload_phantom] <;> decide
  refine ⟨?_, fun hclaim ↦ ?_⟩
  · simp only [tornLives, smallLife, List.forall_mem_cons]
    exact ⟨⟨hugeDelta_logs.1, by simp⟩, ⟨smallDelta_logs.1, by simp⟩, by simp⟩
  obtain ⟨st, hst, hzero⟩ : ∃ st : Recovered, st.arena.length = 65536 ∧ st.recMax = 0 :=
    ⟨⟨blankArena, 0, 0, 0, [], {}⟩, length_zeros _, rfl⟩
  have hfirst : Life.run ⟨[.delta hugeDelta blankArena], .crash 4096⟩ [] = sealSector tornFront := by
    rw [Life.run, hstream]
    exact List.take_of_length_le (by rw [length_sealSector hlen.le]; rfl)
  have hnone : Life.surviving ⟨[.delta hugeDelta blankArena], .crash 4096⟩ [] = [] := by
    have hlog : logged [.delta hugeDelta blankArena] = [hugeEntry] := by
      simp [logged, FlusherOp.entries, hugeDelta_logs.2.1]
    have hkept : Life.kept ⟨[.delta hugeDelta blankArena], .crash 4096⟩ [] / sectorSize = 1 := rfl
    rw [Life.surviving, Life.sectors, hkept, hflushed, List.take_succ_cons, List.take_zero,
      List.flatten_singleton, hlen, hlog, wholeEntries, hugeDelta_logs.2.2]
    rfl
  have hsurvivors : survivors tornLives [] = [smallEntry] := by
    rw [tornLives, survivors, survivors, hfirst, hnone, (smallLife_run _).2.2]
    rfl
  have hruns : runLives tornLives [] = sealSector tornFront ++ sealSector smallEntry.encode := by
    rw [tornLives, runLives, List.foldl_cons, List.foldl_cons, List.foldl_nil, hfirst,
      (smallLife_run _).1]
  have hsmall : smallEntry.encode.length ≤ sectorPayload := by
    rw [smallDelta_logs.2.2]
    decide
  have hread : replayOneSegment smallRegions (runLives tornLives []) st =
      (phantom.apply smallRegions st).countSectors 2 := by
    have hblocks := blocksOf_flatMap_seal [tornFront, smallEntry.encode] (by simp [hlen, hsmall])
    rw [List.flatMap_cons, List.flatMap_singleton] at hblocks
    rw [hruns, replayOneSegment, hblocks, List.map_cons, List.map_singleton,
      replaySectors_seal hlen.le, hlen, Nat.sub_self, List.replicate_zero, List.append_nil,
      List.nil_append, scanSector_cut hhuge hprefix (by rw [hlen, hugeDelta_logs.2.2]; decide),
      replaySectors_seal hsmall, smallDelta_logs.2.2, show sectorPayload - 9 = 4083 from rfl,
      tornFront_append, scanSector_encode hphantom (by exact hst), scanSector_padding (by decide),
      Entry.apply_countSectors, Entry.apply_countSectors, Recovered.countSectors_countSectors]
    rfl
  have hsame := hclaim smallRegions st hst
  rw [hread, hsurvivors] at hsame
  have hmax := congrArg Recovered.recMax hsame
  rw [List.foldl_cons, List.foldl_nil, Recovered.recMax_countSectors, Recovered.recMax_countSectors,
    Entry.recMax_apply rfl (by decide), Entry.recMax_apply rfl (by decide), hzero,
    length_payload_phantom] at hmax
  revert hmax
  decide

end TakyonDb
