import TakyonDb.RoundTrip

namespace TakyonDb

open Lib Layout Wal Replay Framing

/-- One thing the flusher loop does to the log: a popped delta, the flush
of an idle pass, or the flush that a checkpoint forces. -/
inductive FlusherOp
  | delta (d : DeltaMessage) (arenaMem : Bytes)
  | idleFlush
  | forcedFlush
deriving DecidableEq

namespace FlusherOp

def run : FlusherOp → WalManager → Outcome WalError WalManager
  | .delta d arenaMem => WalManager.processDelta d arenaMem
  | .idleFlush => WalManager.flushIfUnambiguous
  | .forcedFlush => WalManager.flushBuffer

def entries : FlusherOp → List Entry
  | .delta d arenaMem => (d.entry arenaMem).toList
  | .idleFlush | .forcedFlush => []

/-- The delta passes the checks of `processDelta`, is not empty and stays
inside an arena of `n` bytes. -/
def Acceptable (n : ℕ) : FlusherOp → Prop
  | .delta d arenaMem =>
    arenaMem.length = n ∧ d.Accepted arenaMem ∧ 1 ≤ d.size.toNat ∧ d.offset.toNat + d.size.toNat ≤ n
  | .idleFlush | .forcedFlush => True

end FlusherOp

def logged (ops : List FlusherOp) : List Entry := ops.flatMap FlusherOp.entries

theorem entries_valid {n : ℕ} {op : FlusherOp} (h : op.Acceptable n) : ∀ e ∈ op.entries, e.Valid n := by
  cases op with
  | delta d arenaMem =>
    obtain ⟨hlen, hd, hpos, hin⟩ := h
    intro e he
    rw [FlusherOp.entries, Option.mem_toList] at he
    subst hlen
    exact DeltaMessage.entry_valid hd he hpos hin
  | idleFlush => simp [FlusherOp.entries]
  | forcedFlush => simp [FlusherOp.entries]

theorem logged_valid {n : ℕ} {ops : List FlusherOp} (h : ∀ op ∈ ops, op.Acceptable n) :
    ∀ e ∈ logged ops, e.Valid n := by
  intro e he
  obtain ⟨op, hop, he⟩ := List.mem_flatMap.mp he
  exact entries_valid (h op hop) e he

namespace Wal.WalManager

/-- No forced flush pads a sector by one to seven bytes while there is
still something to log. -/
def Unambiguous : List FlusherOp → WalManager → Prop
  | [], _ => True
  | op :: ops, w =>
    (op = .forcedFlush →
      w.sector = [] ∨ minPadding ≤ sectorPayload - w.sector.length ∨ logged ops = []) ∧
    Unambiguous ops (op.run w).state

/-- The records of the log that are whole in the written sectors. -/
def written (w : WalManager) (log : List Entry) : List Entry :=
  wholeEntries ((log.flatMap Entry.encode).length - w.sector.length) log

theorem written_of_sector_nil {w : WalManager} (h : w.sector = []) (log : List Entry) :
    w.written log = log := by
  have hwhole := wholeEntries_of_cut (cut_nil []) log
  rw [List.append_nil, List.append_nil] at hwhole
  rw [written, h, List.length_nil, Nat.sub_zero, hwhole]

/-- The sectors behind `base` replay to the records of `log` that are whole
in them, each once and in order, and to nothing else. -/
def RoundTrip (n : ℕ) (base : Bytes) (log : List Entry) (w : WalManager) : Prop :=
  ∃ sectors, w.stream = base ++ sectors ∧ ∀ (regions : Regions) (st : Recovered),
    st.arena.length = n → replayOneSegment regions sectors st =
      ((w.written log).foldl (Entry.apply regions) st).countSectors (sectors.length / sectorSize)

/-- The written sectors are framed, and the buffer goes on where they end. -/
structure Logs (base : Bytes) (log : List Entry) (w : WalManager) : Prop where
  framed : ∃ es todo q, log = es ++ todo ∧ Framed [] w.flushed es (some q) todo ∧
    q ++ w.sector = todo.flatMap Entry.encode
  stream : w.stream = base ++ w.flushed.flatMap sealSector
  room : w.sector.length < sectorPayload
  healthy : w.Healthy
  opened : w.phase = .opened

/-- The log ends in a sector whose padding may be misread. -/
structure Ended (base : Bytes) (log : List Entry) (w : WalManager) : Prop where
  framed : Framed [] w.flushed log none []
  stream : w.stream = base ++ w.flushed.flatMap sealSector
  empty : w.sector = []
  healthy : w.Healthy
  opened : w.phase = .opened

variable {n : ℕ} {base : Bytes} {log : List Entry} {w : WalManager}

theorem length_of_mem_seal {cs : List Bytes} (h : ∀ c ∈ cs, c.length ≤ sectorPayload) :
    ∀ b ∈ cs.map sealSector, b.length = sectorSize := by
  intro b hb
  obtain ⟨c, hc, rfl⟩ := List.mem_map.mp hb
  exact length_sealSector (h c hc)

theorem blocksOf_flatMap_seal (cs : List Bytes) (h : ∀ c ∈ cs, c.length ≤ sectorPayload) :
    blocksOf sectorSize (cs.flatMap sealSector) = cs.map sealSector := by
  rw [List.flatMap_def, ← List.append_nil (List.flatten _)]
  exact blocksOf_append (length_of_mem_seal h) (by decide)

/-- A file of framed sectors, with a torn one behind them or none. -/
theorem replay_flushed {cs : List Bytes} {es todo : List Entry} {r : Option Bytes} {torn : Bytes}
    (h : Framed [] cs es r todo) (hvalid : ∀ e ∈ es ++ todo, e.Valid n)
    (htorn : torn.length < sectorSize) (regions : Regions) {st : Recovered}
    (hst : st.arena.length = n) :
    replayOneSegment regions (cs.flatMap sealSector ++ torn) st =
      (es.foldl (Entry.apply regions) st).countSectors cs.length := by
  have hblocks : blocksOf sectorSize (cs.flatMap sealSector ++ torn) = cs.map sealSector := by
    rw [List.flatMap_def]
    exact blocksOf_append (length_of_mem_seal h.length_le) htorn
  rw [replayOneSegment, hblocks, ← List.append_nil (List.map _ _),
    h.replaySectors hvalid (fun _ ↦ rfl) 0 hst]
  rfl

theorem length_flatMap_sealSector {cs : List Bytes} (h : ∀ c ∈ cs, c.length ≤ sectorPayload) :
    (cs.flatMap sealSector).length = cs.length * sectorSize := by
  rw [List.flatMap_def, length_flatten_of_forall (length_of_mem_seal h), List.length_map]

theorem written_of_framed {es todo : List Entry} {r : Option Bytes} (hlog : log = es ++ todo)
    (hframed : Framed [] w.flushed es r todo)
    (hsector : r.getD [] ++ w.sector = todo.flatMap Entry.encode) : w.written log = es := by
  subst hlog
  have hlen : ((es ++ todo).flatMap Entry.encode).length - w.sector.length =
      (es.flatMap Entry.encode ++ r.getD []).length := by
    rw [List.flatMap_append, ← hsector]
    simp only [List.length_append]
    omega
  rw [written, hlen, wholeEntries_of_cut hframed.cut]

theorem roundTrip_of_framed {es todo : List Entry} {r : Option Bytes}
    (hlog : log = es ++ todo) (hframed : Framed [] w.flushed es r todo)
    (hsector : r.getD [] ++ w.sector = todo.flatMap Entry.encode)
    (hstream : w.stream = base ++ w.flushed.flatMap sealSector) (hvalid : ∀ e ∈ log, e.Valid n) :
    RoundTrip n base log w := by
  refine ⟨_, hstream, fun regions st hst ↦ ?_⟩
  rw [hlog] at hvalid
  have hread := replay_flushed hframed hvalid (show ([] : Bytes).length < sectorSize by decide) regions hst
  rw [List.append_nil] at hread
  rw [hread, written_of_framed hlog hframed hsector, length_flatMap_sealSector hframed.length_le,
    Nat.mul_div_cancel _ (by decide)]

theorem Logs.roundTrip (h : Logs base log w) (hvalid : ∀ e ∈ log, e.Valid n) :
    RoundTrip n base log w := by
  obtain ⟨es, todo, q, hlog, hframed, hsector⟩ := h.framed
  exact roundTrip_of_framed hlog hframed hsector h.stream hvalid

theorem Ended.roundTrip (h : Ended base log w) (hvalid : ∀ e ∈ log, e.Valid n) :
    RoundTrip n base log w :=
  roundTrip_of_framed (List.append_nil log).symm h.framed (by rw [h.empty]; rfl) h.stream hvalid

/-- Appending a record keeps the framing. -/
theorem Logs.appended {w' : WalManager} {es : List Entry} (h : Logs base log w)
    (happ : Appended w w' (es.flatMap Entry.encode)) : Logs base (log ++ es) w' := by
  obtain ⟨done, todo, q, rfl, hframed, hsector⟩ := h.framed
  obtain ⟨full, hfull, hflushed, hbytes, hstream⟩ := happ.blocks
  have hall : q ++ (full.flatten ++ w'.sector) = (todo ++ es).flatMap Entry.encode := by
    rw [hbytes, ← List.append_assoc, hsector, List.flatMap_append]
  obtain ⟨es', todo', q', htodo, hmore, htail⟩ :=
    exists_framed_full hfull (hframed.cut.append es) hall
  refine ⟨⟨done ++ es', todo', q', ?_, ?_, htail⟩, ?_, happ.room, happ.healthy,
    happ.phase.trans h.opened⟩
  · rw [List.append_assoc, htodo, List.append_assoc]
  · rw [hflushed]
    exact (hframed.append_todo es).trans htodo hmore
  · rw [hstream, h.stream, hflushed, List.flatMap_append, List.append_assoc]

theorem stream_emit_of_logs (h : Logs base log w) :
    w.emit.stream = base ++ w.emit.flushed.flatMap sealSector := by
  rw [stream_emit, h.stream, flushed_emit, List.flatMap_append, List.append_assoc]
  simp

/-- A flush that leaves room for a header keeps the framing. -/
theorem Logs.emit (h : Logs base log w) (hslack : minPadding ≤ sectorPayload - w.sector.length) :
    Logs base log w.emit := by
  obtain ⟨done, todo, q, rfl, hframed, hsector⟩ := h.framed
  have hroom := h.room
  have hlast : Framed q [w.sector] (todo ++ []) (some []) [] :=
    .padded (by omega) hsector (.nil rfl)
  refine ⟨⟨done ++ todo, [], [], by simp, ?_, by simp⟩, stream_emit_of_logs h,
    by simp [sectorPayload], emit_healthy h.healthy, (phase_emit w).trans h.opened⟩
  rw [flushed_emit]
  simpa only [List.append_nil] using hframed.trans (by simp) hlast

/-- Any other flush is fine as the last one. -/
theorem Logs.emit_last (h : Logs base log w) : Ended base log w.emit := by
  obtain ⟨done, todo, q, rfl, hframed, hsector⟩ := h.framed
  refine ⟨?_, stream_emit_of_logs h, sector_emit w, emit_healthy h.healthy,
    (phase_emit w).trans h.opened⟩
  rw [flushed_emit]
  exact hframed.trans (by simp) (.last h.room.le hsector)

theorem flushBuffer_healthy (h : w.Healthy) :
    flushBuffer w = .ok (if w.sector = [] then w else w.emit) := by
  simp [flushBuffer, flushBufferWith_healthy h]

/-- One step keeps the framing, if it does not pad ambiguously. -/
theorem Logs.step (h : Logs base log w) {op : FlusherOp} (hop : op.Acceptable n)
    (hslack : op = .forcedFlush →
      w.sector = [] ∨ minPadding ≤ sectorPayload - w.sector.length) :
    ∃ w', op.run w = .ok w' ∧ Logs base (log ++ op.entries) w' := by
  cases op with
  | delta d arenaMem =>
    obtain ⟨w', hw', happ⟩ := processDelta_healthy h.healthy h.room hop.2.1
    refine ⟨w', hw', h.appended ?_⟩
    rw [FlusherOp.entries]
    cases hd : d.entry arenaMem with
    | none => simpa [hd] using happ
    | some e => simpa [hd] using happ
  | idleFlush =>
    rw [FlusherOp.entries, List.append_nil, FlusherOp.run, flushIfUnambiguous,
      flushBufferWith_healthy h.healthy]
    refine ⟨_, rfl, ?_⟩
    split_ifs with hcond
    · exact h
    · exact h.emit (by push Not at hcond; exact hcond.2 rfl)
  | forcedFlush =>
    rw [FlusherOp.entries, List.append_nil, FlusherOp.run, flushBuffer_healthy h.healthy]
    refine ⟨_, rfl, ?_⟩
    split_ifs with hempty
    · exact h
    · exact h.emit ((hslack rfl).resolve_left hempty)

/-- With an empty buffer, a step that logs nothing changes nothing. -/
theorem run_of_no_entries (h : w.Healthy) (hempty : w.sector = []) {op : FlusherOp}
    (hop : op.Acceptable n) (hentries : op.entries = []) : op.run w = .ok w := by
  cases op with
  | delta d arenaMem =>
    rw [FlusherOp.run, processDelta_eq, if_pos hop.2.1]
    cases hd : d.entry arenaMem with
    | none => rfl
    | some e => simp [FlusherOp.entries, hd] at hentries
  | idleFlush => simp [FlusherOp.run, flushIfUnambiguous, flushBufferWith_healthy h, hempty]
  | forcedFlush => simp [FlusherOp.run, flushBuffer_healthy h, hempty]

theorem fold_of_no_entries (h : w.Healthy) (hempty : w.sector = []) {ops : List FlusherOp}
    (hops : ∀ op ∈ ops, op.Acceptable n) (hnone : logged ops = []) :
    Outcome.fold FlusherOp.run ops w = .ok w := by
  induction ops with
  | nil => rfl
  | cons op ops ih =>
    obtain ⟨hentries, hrest⟩ := List.append_eq_nil_iff.mp hnone
    rw [Outcome.fold, run_of_no_entries h hempty (hops op List.mem_cons_self) hentries,
      Outcome.ok_andThen, ih (fun o ho ↦ hops o (List.mem_cons_of_mem _ ho)) hrest]

/-- A whole run keeps the framing, or ends it with its last sector. -/
theorem Logs.run (h : Logs base log w) {ops : List FlusherOp} (hops : ∀ op ∈ ops, op.Acceptable n)
    (hsafe : Unambiguous ops w) :
    ∃ w', Outcome.fold FlusherOp.run ops w = .ok w' ∧
      (Logs base (log ++ logged ops) w' ∨ Ended base (log ++ logged ops) w') := by
  induction ops generalizing w log with
  | nil => exact ⟨w, rfl, .inl (by simpa [logged] using h)⟩
  | cons op ops ih =>
    have hop := hops op List.mem_cons_self
    have hops' : ∀ o ∈ ops, o.Acceptable n := fun o ho ↦ hops o (List.mem_cons_of_mem _ ho)
    by_cases hslack : op = .forcedFlush →
        w.sector = [] ∨ minPadding ≤ sectorPayload - w.sector.length
    · obtain ⟨w₁, hw₁, hlogs⟩ := h.step hop hslack
      have hsafe' : Unambiguous ops w₁ := by simpa [hw₁] using hsafe.2
      obtain ⟨w', hw', hend⟩ := ih hlogs hops' hsafe'
      refine ⟨w', by rw [Outcome.fold, hw₁, Outcome.ok_andThen, hw'], ?_⟩
      simpa only [logged, List.flatMap_cons, List.append_assoc] using hend
    · -- the padding is ambiguous, so nothing is logged behind it
      push Not at hslack
      obtain ⟨rfl, hne, hshort⟩ := hslack
      have hnone : logged ops = [] :=
        ((hsafe.1 rfl).resolve_left hne).resolve_left (Nat.not_le.mpr hshort)
      have hended := h.emit_last
      refine ⟨w.emit, ?_, .inr ?_⟩
      · rw [Outcome.fold, FlusherOp.run, flushBuffer_healthy h.healthy, if_neg hne,
          Outcome.ok_andThen,
          fold_of_no_entries hended.healthy hended.empty hops' hnone]
      · rw [logged, List.flatMap_cons, FlusherOp.entries, List.nil_append]
        rw [logged] at hnone
        rwa [hnone, List.append_nil]

theorem stream_init_empty : (init LogFiles.empty).stream = [] := by
  simp [stream, LogFiles.stream, init, LogFiles.empty]

theorem logs_init (files : LogFiles UInt8) : Logs (init files).stream [] (init files) where
  framed := ⟨[], [], [], rfl, .nil rfl, rfl⟩
  stream := by simp [init]
  room := by simp [init, sectorPayload]
  healthy := ⟨by simp [init], rfl⟩
  opened := rfl

/-- An acceptable step always succeeds, whatever the padding. -/
theorem run_acceptable (h : w.Healthy) (hroom : w.sector.length < sectorPayload) {op : FlusherOp}
    (hop : op.Acceptable n) :
    ∃ w', op.run w = .ok w' ∧ w'.Healthy ∧ w'.sector.length < sectorPayload ∧
      (w.Segmented → w'.Segmented) := by
  cases op with
  | delta d arenaMem =>
    obtain ⟨w', hw', happ⟩ := processDelta_healthy h hroom hop.2.1
    exact ⟨w', hw', happ.healthy, happ.room, happ.segmented⟩
  | idleFlush =>
    rw [FlusherOp.run, flushIfUnambiguous, flushBufferWith_healthy h]
    split_ifs
    · exact ⟨w, rfl, h, hroom, id⟩
    · exact ⟨_, rfl, emit_healthy h, by simp [sectorPayload], Segmented.emit⟩
  | forcedFlush =>
    rw [FlusherOp.run, flushBuffer_healthy h]
    split_ifs
    · exact ⟨w, rfl, h, hroom, id⟩
    · exact ⟨_, rfl, emit_healthy h, by simp [sectorPayload], Segmented.emit⟩

theorem fold_acceptable (h : w.Healthy) (hroom : w.sector.length < sectorPayload)
    {ops : List FlusherOp} (hops : ∀ op ∈ ops, op.Acceptable n) :
    ∃ w', Outcome.fold FlusherOp.run ops w = .ok w' ∧ w'.Healthy ∧ w'.sector.length < sectorPayload ∧
      (w.Segmented → w'.Segmented) := by
  induction ops generalizing w with
  | nil => exact ⟨w, rfl, h, hroom, id⟩
  | cons op ops ih =>
    obtain ⟨w₁, hw₁, hok₁, hroom₁, hseg₁⟩ := run_acceptable h hroom (hops op List.mem_cons_self)
    obtain ⟨w', hw', hok, hroom', hseg⟩ := ih hok₁ hroom₁ fun o ho ↦ hops o (List.mem_cons_of_mem _ ho)
    exact ⟨w', by rw [Outcome.fold, hw₁, Outcome.ok_andThen, hw'], hok, hroom', hseg ∘ hseg₁⟩

theorem segmented_init : (init LogFiles.empty).Segmented := by
  have hnext : LogFiles.firstFreeSegment (LogFiles.empty : LogFiles UInt8) = 0 :=
    LogFiles.firstFreeSegment_eq (Nat.zero_le _) (by simp) (.inl rfl)
  refine ⟨⟨[], [], Nat.zero_le _⟩, ?_, rfl, hnext, rfl, by simp, fun _ ↦ by decide⟩
  simp [init, SectorFiles.files, LogFiles.empty]

/-- The sectors that a run writes are framed. -/
theorem framed_of_run {files : LogFiles UInt8} {ops : List FlusherOp}
    (hops : ∀ op ∈ ops, op.Acceptable n) (hsafe : Unambiguous ops (init files)) :
    ∃ w r todo, Outcome.fold FlusherOp.run ops (init files) = .ok w ∧
      logged ops = w.written (logged ops) ++ todo ∧
      Framed [] w.flushed (w.written (logged ops)) r todo := by
  obtain ⟨w, hw, hend⟩ := (logs_init files).run hops hsafe
  rw [List.nil_append] at hend
  rcases hend with hlogs | hended
  · obtain ⟨es, todo, q, hlog, hframed, hsector⟩ := hlogs.framed
    have hwritten := written_of_framed hlog hframed hsector
    exact ⟨w, some q, todo, hw, by rw [hwritten, hlog], by rwa [hwritten]⟩
  · have hwritten := written_of_framed (List.append_nil _).symm hended.framed
      (by rw [hended.empty]; rfl)
    exact ⟨w, none, [], hw, by rw [hwritten, List.append_nil], by rw [hwritten]; exact hended.framed⟩

/-- What one daemon life logs can be read back, whatever deltas and flushes
follow each other, as long as no forced flush pads ambiguously. -/
theorem roundTrip_of_unambiguous (n : ℕ) (files : LogFiles UInt8) (ops : List FlusherOp)
    (hops : ∀ op ∈ ops, op.Acceptable n) (hsafe : Unambiguous ops (init files)) :
    ∃ w, Outcome.fold FlusherOp.run ops (init files) = .ok w ∧
      RoundTrip n (init files).stream (logged ops) w := by
  obtain ⟨w, hw, hend⟩ := (logs_init files).run hops hsafe
  rw [List.nil_append] at hend
  exact ⟨w, hw, hend.elim (fun h ↦ h.roundTrip (logged_valid hops))
    (fun h ↦ h.roundTrip (logged_valid hops))⟩

def blankArena : Bytes := zeros 65536

def bigDelta : DeltaMessage := ⟨32768, 4077, deltaArena, inlineData [], length_noData⟩

def hugeDelta : DeltaMessage := ⟨32768, 4992, deltaArena, inlineData [], length_noData⟩

def smallDelta : DeltaMessage := ⟨40960, 1, deltaInline, inlineData [255], length_byteData⟩

/-- The first record fills a sector up to its last seven bytes, a throttled
checkpoint flushes it, and logging goes on. -/
def shortPaddingRun : List FlusherOp :=
  [.delta bigDelta blankArena, .forcedFlush, .delta smallDelta blankArena, .forcedFlush]

def bigEntry : Entry := ⟨.arenaWrite, 32768, zeros 4077⟩

def hugeEntry : Entry := ⟨.arenaWrite, 32768, zeros 4992⟩

def smallEntry : Entry := ⟨.arenaWrite, 40960, [255]⟩

theorem bigDelta_logs : (FlusherOp.delta bigDelta blankArena).Acceptable 65536 ∧
    bigDelta.entry blankArena = some bigEntry ∧ bigEntry.encode.length = 4085 := by
  refine ⟨⟨length_zeros _, ?_, by decide, by decide⟩, ?_, ?_⟩
  · exact ⟨by decide, by rw [blankArena, length_zeros]; decide⟩
  · exact congrArg (fun p ↦ some (Entry.mk .arenaWrite 32768 p)) (slice_zeros (by decide))
  · rw [Entry.length_encode, bigEntry, length_zeros]

theorem hugeDelta_logs : (FlusherOp.delta hugeDelta blankArena).Acceptable 65536 ∧
    hugeDelta.entry blankArena = some hugeEntry ∧ hugeEntry.encode.length = 5000 := by
  refine ⟨⟨length_zeros _, ?_, by decide, by decide⟩, ?_, ?_⟩
  · exact ⟨by decide, by rw [blankArena, length_zeros]; decide⟩
  · exact congrArg (fun p ↦ some (Entry.mk .arenaWrite 32768 p)) (slice_zeros (by decide))
  · rw [Entry.length_encode, hugeEntry, length_zeros]

theorem smallDelta_logs : (FlusherOp.delta smallDelta blankArena).Acceptable 65536 ∧
    smallDelta.entry blankArena = some smallEntry ∧ smallEntry.encode.length = 9 :=
  ⟨⟨length_zeros _, by decide, by decide, by decide⟩, rfl, rfl⟩

theorem shortPaddingRun_acceptable : ∀ op ∈ shortPaddingRun, op.Acceptable 65536 := by
  simp only [shortPaddingRun, List.forall_mem_cons]
  exact ⟨bigDelta_logs.1, trivial, smallDelta_logs.1, trivial, by simp⟩

/-- A delta whose record fits in the buffer is only buffered. -/
theorem run_delta_of_room {d : DeltaMessage} {arenaMem : Bytes} {e : Entry} (h : w.Healthy)
    (hd : (FlusherOp.delta d arenaMem).Acceptable n) (he : d.entry arenaMem = some e)
    (hroom : w.sector.length + e.encode.length < sectorPayload) :
    ∃ w', FlusherOp.run (.delta d arenaMem) w = .ok w' ∧ w'.Healthy ∧ w'.flushed = w.flushed ∧
      w'.sector = w.sector ++ e.encode ∧ w'.stream = w.stream := by
  obtain ⟨w', hw', happ⟩ := processDelta_healthy h (by omega) hd.2.1
  rw [he] at happ
  exact ⟨w', hw', happ.healthy, happ.of_room hroom⟩

/-- A checkpoint between two short records, with room for its padding. -/
theorem roundTrip_two_records :
    ∃ w, Outcome.fold FlusherOp.run
        [.delta smallDelta blankArena, .forcedFlush, .delta smallDelta blankArena, .forcedFlush]
        (init LogFiles.empty) = .ok w ∧
      RoundTrip 65536 (init LogFiles.empty).stream
        (logged [.delta smallDelta blankArena, .forcedFlush, .delta smallDelta blankArena,
          .forcedFlush]) w := by
  apply roundTrip_of_unambiguous 65536 LogFiles.empty
  · simp only [List.forall_mem_cons]
    exact ⟨smallDelta_logs.1, trivial, smallDelta_logs.1, trivial, by simp⟩
  · obtain ⟨w, hw, -, -, hsector, -⟩ := run_delta_of_room (logs_init LogFiles.empty).healthy
      smallDelta_logs.1 smallDelta_logs.2.1 (by rw [smallDelta_logs.2.2]; decide)
    refine ⟨by simp, fun _ ↦ .inr (.inl ?_), by simp, fun _ ↦ .inr (.inr rfl), trivial⟩
    rw [hw, Outcome.state_ok, hsector, List.length_append, smallDelta_logs.2.2]
    decide

theorem run_forcedFlush (h : w.Healthy) (hne : w.sector ≠ []) :
    FlusherOp.forcedFlush.run w = .ok w.emit := by
  rw [FlusherOp.run, flushBuffer_healthy h, if_neg hne]

/-- One sector for each of the two records. -/
theorem run_shortPaddingRun : ∃ w, Outcome.fold FlusherOp.run shortPaddingRun (init LogFiles.empty) =
    .ok w ∧ w.sector = [] ∧ w.stream = sealSector bigEntry.encode ++ sealSector smallEntry.encode := by
  obtain ⟨w₁, hw₁, hok₁, -, hsector₁, hstream₁⟩ := run_delta_of_room
    (logs_init LogFiles.empty).healthy bigDelta_logs.1 bigDelta_logs.2.1
    (by rw [bigDelta_logs.2.2]; decide)
  rw [show (init LogFiles.empty).sector = [] from rfl, List.nil_append] at hsector₁
  obtain ⟨w₂, hw₂, hok₂, -, hsector₂, hstream₂⟩ := run_delta_of_room (emit_healthy hok₁)
    smallDelta_logs.1 smallDelta_logs.2.1 (by rw [smallDelta_logs.2.2, sector_emit]; decide)
  rw [sector_emit, List.nil_append] at hsector₂
  have hne₁ : w₁.sector ≠ [] := by
    intro hnil
    have hlen := bigDelta_logs.2.2
    rw [← hsector₁, hnil] at hlen
    cases hlen
  have hne₂ : w₂.sector ≠ [] := by
    rw [hsector₂]
    decide
  refine ⟨w₂.emit, ?_, sector_emit w₂, ?_⟩
  · simp only [shortPaddingRun, Outcome.fold, hw₁, run_forcedFlush hok₁ hne₁, hw₂,
      run_forcedFlush hok₂ hne₂, Outcome.ok_andThen]
  · rw [stream_emit, hstream₂, stream_emit, hstream₁, hsector₁, hsector₂, stream_init_empty,
      List.nil_append]

/-- The seven zeros of the first sector swallow the second one. -/
theorem shortPaddingRun_not_roundTrip : (∀ op ∈ shortPaddingRun, op.Acceptable 65536) ∧ ¬ ∃ w,
    Outcome.fold FlusherOp.run shortPaddingRun (init LogFiles.empty) = .ok w ∧
      RoundTrip 65536 (init LogFiles.empty).stream (logged shortPaddingRun) w := by
  refine ⟨shortPaddingRun_acceptable, ?_⟩
  rintro ⟨w, hw, sectors, hstream, hreplay⟩
  obtain ⟨w', hw', hsector, hstream'⟩ := run_shortPaddingRun
  obtain rfl : w' = w := by simpa [hw'] using hw
  rw [hstream', stream_init_empty, List.nil_append] at hstream
  subst hstream
  have hlog : logged shortPaddingRun = [bigEntry, smallEntry] := by
    simp [logged, shortPaddingRun, FlusherOp.entries, bigDelta_logs.2.1, smallDelta_logs.2.1]
  have hvalid : ∀ e ∈ [bigEntry], e.Valid 65536 := by
    simpa using entries_valid bigDelta_logs.1 bigEntry
      (by simp [FlusherOp.entries, bigDelta_logs.2.1])
  have hone : [bigEntry].flatMap Entry.encode = bigEntry.encode := by simp
  let st : Recovered := ⟨blankArena, 0, 0, 0, [], {}⟩
  have hblocks := blocksOf_flatMap_seal [bigEntry.encode, smallEntry.encode]
    (by simp [bigDelta_logs.2.2, smallDelta_logs.2.2, sectorPayload])
  rw [List.flatMap_cons, List.flatMap_singleton, List.map_cons, List.map_singleton] at hblocks
  have hread : replaySectors smallRegions
      [sealSector ([bigEntry].flatMap Entry.encode), sealSector smallEntry.encode] [] 0 st =
      ([bigEntry].foldl (Entry.apply smallRegions) st).countSectors 2 :=
    replaySectors_short_padding hvalid (by rw [hone, bigDelta_logs.2.2]; decide)
      (by rw [hone, bigDelta_logs.2.2]; decide) (by rw [smallDelta_logs.2.2]; decide) 0 (length_zeros _)
  have hclaim := hreplay smallRegions st (length_zeros _)
  rw [replayOneSegment, hblocks, ← hone, hread, hlog, written_of_sector_nil hsector] at hclaim
  have hcount := congrArg (fun r ↦ r.tally.byteDeltas) hclaim
  simp [Entry.apply, bigEntry, smallEntry, Recovered.countSectors, -List.reduceReplicate] at hcount

end Wal.WalManager

end TakyonDb
