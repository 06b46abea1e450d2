import TakyonDb.IndexLog
import TakyonDb.Restart

namespace TakyonDb.IndexLog

open Lib Layout Wal Replay WalManager Recovery SectorFiles Snapshot Exports Art Restart Set

variable {r : Regions} {n recMax : ℕ} {s : System} {l : SectorFiles} {a : ArtState}

/-- The records in the order in which replay reads them: the live file
comes before the segments. -/
def readOrder (l : SectorFiles) (es : List Entry) : List Entry := l.current es ++ l.archived es

/-- The index operations in the log, in the order of replay. -/
def readOps (l : SectorFiles) (es : List Entry) : List IndexOp := (readOrder l es).filterMap Entry.indexOp

/-- Where the records end that the log describes. -/
def loggedMax (r : Regions) (es : List Entry) : ℕ := max r.recordStart.toNat (Entry.loggedEnd r es)

/-- The index operations that recovery applies, in its order. -/
def replayed (r : Regions) (l : SectorFiles) (es : List Entry) : List IndexOp :=
  (readOps l es).filter fun op ↦ Described r (loggedMax r es) op

def binding (op : IndexOp) : Bytes × UInt32 := (op.key, op.value)

/-- The files `l` and the arena that a new process recovers from: no segment
ends inside an entry, no record lies in the index region, and the region has
room for the index that is rebuilt in it. -/
structure Readable (r : Regions) (s : System) (l : SectorFiles) (a : ArtState) : Prop where
  files : s.wal.SegmentedAs l
  split : SplitFree l.segments s.logged
  length : a.mem.length = s.engine.arena.length
  orphans : ∀ size, a.free.stackOf size = []
  miss : Disjoint (covered s.logged) (artRegion r)
  room : RoomFor r (loggedMax r s.logged) (readOps l s.logged) { a with mem := resetIndex r a.mem }

/-- What every key is bound to is a record that the log describes. -/
def RecordsLogged (r : Regions) (s : System) : Prop :=
  ∀ op ∈ s.bound, r.recordStart.toNat ≤ op.value.toNat ∧ ∃ e ∈ s.logged, e.kind = .arenaWrite ∧
    e.offset.toNat < r.artRoot.toNat ∧ e.offset.toNat ≤ op.value.toNat ∧
    op.value.toNat < e.offset.toNat + e.payload.length

/-- Recovery skips what the log does not describe, and binds the rest in its order. -/
theorem applyIndexOps_resolves {ops : List IndexOp} {h : Heap} {root : Tree} {history : List (Bytes × Option UInt32)}
    (hend : r.artEnd ≤ n) (hb : Rebuilt r n a h root) (hlookup : ∀ k, root.lookup k 0 = resolve history k)
    (hgood : ∀ op ∈ ops, ValidKey op.key ∧ op.value.toNat < n) (hroom : RoomFor r recMax ops a) :
    ∃ t h' root', (∀ fuel, maxDepth + 3 ≤ fuel → applyIndexOps (regionIndex r) fuel r recMax ops a = some t) ∧
      Rebuilt r n t h' root' ∧
      ∀ k, root'.lookup k 0 = resolve (history ++ bindAll ((ops.filter fun op ↦
        Described r recMax op).map binding)) k := by
  induction ops generalizing a h root history with
  | nil => exact ⟨a, h, root, fun _ _ ↦ rfl, hb, fun k ↦ by rw [hlookup k, List.filter_nil, List.map_nil, bindAll,
      List.map_nil, List.append_nil]⟩
  | cons op ops ih =>
    have hrest := fun op' hop' ↦ hgood op' (List.mem_cons_of_mem op hop')
    rw [RoomFor] at hroom
    by_cases hdesc : Described r recMax op
    · rw [if_pos hdesc] at hroom
      obtain ⟨hfits, hlater⟩ := hroom
      obtain ⟨a₁, h₁, root₁, hrun, hb₁, -, hbinds⟩ := hb.insert hend hfits
      have hlookup₁ : ∀ k, root₁.lookup k 0 = resolve (history ++ [(op.key, some op.value)]) k := by
        intro k
        rw [hbinds.lookup (hgood op List.mem_cons_self) hb.indexed.wf, hlookup, resolve_concat]
        simp only [eq_comm]
      obtain ⟨t, h', root', hall, ht, hfound⟩ := ih hb₁ hlookup₁ hrest (hlater a₁ (hrun _ le_rfl))
      refine ⟨t, h', root', fun fuel hfuel ↦ ?_, ht, fun k ↦ ?_⟩
      · rw [applyIndexOps, List.foldlM_cons, if_pos hdesc, hrun fuel hfuel]
        exact hall fuel hfuel
      · have hkeep : (op :: ops).filter (fun op ↦ Described r recMax op) =
          op :: ops.filter fun op ↦ Described r recMax op :=
          List.filter_cons_of_pos (decide_eq_true hdesc)
        rw [hfound k, hkeep, List.append_assoc]
        rfl
    · rw [if_neg hdesc] at hroom
      obtain ⟨t, h', root', hall, ht, hfound⟩ := ih hb hlookup hrest hroom
      refine ⟨t, h', root', fun fuel hfuel ↦ ?_, ht, fun k ↦ ?_⟩
      · rw [applyIndexOps, List.foldlM_cons, if_neg hdesc]
        exact hall fuel hfuel
      · rw [hfound k, List.filter_cons_of_neg (by simpa using hdesc)]

theorem written_entries (es : List Entry) : Lib.written (es.filterMap Entry.write) = covered es := by
  ext x
  simp only [Lib.written, covered, List.mem_filterMap, mem_ofPred_eq]
  constructor
  · rintro ⟨w, ⟨e, he, hw⟩, hx⟩
    obtain ⟨kind, offset, payload⟩ := e
    cases kind with
    | arenaWrite =>
      cases hw
      exact ⟨_, he, rfl, hx⟩
    | indexOp => cases hw
  · rintro ⟨⟨kind, offset, payload⟩, he, rfl, hx⟩
    exact ⟨_, ⟨_, he, rfl⟩, hx⟩

/-- The log of a system at rest holds all its records, file by file. -/
theorem exists_framedAs_of_inv (h : Inv r n s) (hflushed : s.wal.sector = []) (hl : s.wal.SegmentedAs l)
    (hsplit : SplitFree l.segments s.logged) :
    ∃ ess live, s.logged = ess.flatten ++ live ∧ l.FramedAs n ess live ∧
      l.archived s.logged = ess.flatten ∧ l.current s.logged = live := by
  obtain ⟨es, todo, q, hlog, hframed, hsector⟩ := h.logs.framed
  have hwhole := written_of_framed hlog hframed hsector
  rw [written_of_sector_nil hflushed] at hwhole
  subst hwhole
  rw [hl.flushed] at hframed
  exact exists_framedAs_files hframed (hlog ▸ h.entries) hsplit

theorem artBytes_of_confined {s : ArtState} {h : Heap} {root : Tree}
    (hc : Confined r n s h root) : 8 ≤ r.artBytes.toNat := by
  have hin := hc.indexed.words_in hc.bump_le (.inr (show r.artBumpOffset + 3 ∈ Ico r.artBumpOffset (r.artBumpOffset + 4) from
    ⟨by omega, by omega⟩))
  have hoff : r.artBumpOffset = r.artRoot.toNat + 4 := rfl
  have hend : r.artEnd = r.artRoot.toNat + r.artBytes.toNat := rfl
  have := hin.2
  omega

theorem readOps_perm (h : Inv r n s) (hflushed : s.wal.sector = []) (hread : Readable r s l a) (op : IndexOp) :
    op ∈ readOps l s.logged ↔ op ∈ s.logged.filterMap Entry.indexOp := by
  obtain ⟨ess, live, hlog, -, harchived, hcurrent⟩ := exists_framedAs_of_inv h hflushed hread.files hread.split
  rw [readOps, readOrder, harchived, hcurrent, hlog, List.filterMap_append, List.filterMap_append, List.mem_append,
    List.mem_append, or_comm]

theorem bound_eq_of_pending (h : Inv r n s) (hpending : s.pending = []) :
    s.logged.filterMap Entry.indexOp = s.bound := by
  rw [← h.log, hpending, List.filterMap_nil, List.append_nil]

/-- Recovery without a snapshot rebuilds the index from the log files. -/
theorem search_recovered (h : Inv r n s) (hquiet : s.Quiescent) (hread : Readable r s l a) :
    ∃ t, (∀ fuel, maxDepth + 3 ≤ fuel → recoverWal fuel r none s.wal.files a = some t) ∧ ∀ k fuel, maxDepth < fuel →
      search (regionIndex r) k fuel t.mem = .ok (resolve (bindAll ((replayed r l s.logged).map binding)) k) := by
  obtain ⟨ess, live, hlog, hfiles, harchived, hcurrent⟩ :=
    exists_framedAs_of_inv h hquiet.flushed hread.files hread.split
  obtain ⟨heap, root, hlive⟩ := h.live
  have hbytes := artBytes_of_confined hlive.toConfined
  have hend := (artEnd_le h.valid).2
  have hmem : a.mem.length = n := hread.length.trans h.len
  have hvalid : Layout.Valid r a.mem.length := hmem.symm ▸ h.valid
  have hseed : (seedMaxima r none a.mem).arena.length = n := (length_resetIndex r a.mem).trans hmem
  obtain ⟨harena, hops, hrec⟩ := replayWal_files r hfiles hseed
  rw [← hcurrent, ← harchived, ← hread.files.files, ← readOrder] at harena hops hrec
  have hends : Entry.loggedEnd r (readOrder l s.logged) = Entry.loggedEnd r s.logged := by
    rw [readOrder, hcurrent, harchived, hlog, Entry.loggedEnd_append, Entry.loggedEnd_append, max_comm]
  have hcovered : covered (readOrder l s.logged) = covered s.logged := by
    ext x
    rw [readOrder, hcurrent, harchived, hlog]
    simp only [covered, List.mem_append, or_comm]
  have hfit : ∀ w ∈ (readOrder l s.logged).filterMap Entry.write, w.Fits n :=
    Entry.fits_of_valid fun e he ↦ h.entries e (by
      rw [hlog]
      rw [readOrder, hcurrent, harchived] at he
      exact List.mem_append.mpr (List.mem_append.mp he).symm)
  have hwrites := changesOnly_applyWrites (hseed.symm ▸ hfit)
  rw [written_entries, hcovered, ← harena] at hwrites
  rw [hends] at hrec
  have hreset : Rebuilt r n { a with mem := resetIndex r a.mem } ⟨r.artStart, a.free⟩ .nil := by
    have hc := confined_resetIndex hvalid hbytes hread.orphans
    rw [hmem] at hc
    exact ⟨hc, trivial⟩
  have hstart : Rebuilt r n { a with mem := (replayWal r s.wal.files (seedMaxima r none a.mem)).arena }
      ⟨r.artStart, a.free⟩ .nil := ⟨hreset.toConfined.frame hwrites hread.miss.symm, trivial⟩
  have hgood : ∀ op ∈ readOps l s.logged, ValidKey op.key ∧ op.value.toNat < n := by
    intro op hop
    rw [readOps_perm h hquiet.flushed hread, bound_eq_of_pending h hquiet.pending] at hop
    refine (h.bound op hop).resolve_left ?_
    rintro ⟨c, hc, -⟩
    rw [hquiet.pushed] at hc
    cases hc
  obtain ⟨t, h', root', hrun, hrebuilt, hfound⟩ := applyIndexOps_resolves hend hstart
    (show ∀ k, Art.Tree.nil.lookup k 0 = resolve [] k from fun _ ↦ rfl) hgood (hreset.roomFor hend hstart hread.room)
  have hload : loadSnapshot none r a.mem = (none, a.mem) := rfl
  have hbase : (seedMaxima r none a.mem).recMax = r.recordStart.toNat ∧ (seedMaxima r none a.mem).indexOps = [] :=
    ⟨rfl, rfl⟩
  rw [hbase.1] at hrec
  rw [hbase.2, List.nil_append] at hops
  generalize hst : replayWal r s.wal.files (seedMaxima r none a.mem) = st at harena hops hrec hwrites hstart hrun ⊢
  set artMax :=
    if st.indexOps = [] then st.artMax else max st.artMax (readWord t.mem r.artBumpOffset r.artStart) with hart
  refine ⟨{ t with mem := finalize r st.recMax artMax st.strMax t.mem }, fun fuel hfuel ↦ ?_, fun k fuel hfuel ↦ ?_⟩
  · have happlied := hrun fuel hfuel
    rw [loggedMax, ← hrec, readOps, ← hops] at happlied
    simp only [recoverWal, hload, hst, happlied, hart, bind, Option.bind_some]
  · rw [hrebuilt.search_finalize h.valid hbytes _ _ _ k hfuel, hfound k]
    rfl

/-- The index calls come one after another, and every step is regular. -/
def Orderly (r : Regions) (s : System) (a : Event) : Prop := Regular r s a ∧ Sequential s a

/-- When the calls come one after another, the log has their bindings in
the order in which the live index got them. -/
structure InTurn (s : System) : Prop where
  one : s.allocated.length + s.pushed.length ≤ 1
  order : s.bound.map binding = bindings s.applied ++ s.pushed.map fun c ↦ binding c.op

theorem inTurn_step {a : Event} {t : System} (h : InTurn s) (hok : Sequential s a)
    (hstep : Step r s a t) : InTurn t := by
  obtain ⟨hone, horder⟩ := h
  cases hstep with
  | alloc _ =>
    obtain ⟨hallocated, hpushed⟩ := hok
    exact ⟨by simp [hallocated, hpushed], horder⟩
  | @push c _ hc _ =>
    obtain ⟨c', hcalls⟩ := List.length_eq_one_iff.mp (show s.allocated.length = 1 by
      have := List.length_pos_of_mem hc
      omega)
    have hpushed : s.pushed = [] := List.length_eq_zero_iff.mp (by rw [hcalls] at hone; simpa using hone)
    rw [hcalls, List.mem_singleton] at hc
    subst hc
    refine ⟨by simp [hcalls, hpushed], ?_⟩
    rw [List.map_append, horder, hpushed, List.map_nil, List.append_nil]
    rfl
  | @insert c _ hc _ =>
    obtain ⟨c', hcalls⟩ := List.length_eq_one_iff.mp (show s.pushed.length = 1 by
      have := List.length_pos_of_mem hc
      omega)
    rw [hcalls, List.mem_singleton] at hc
    subst hc
    rw [hcalls] at hone horder
    refine ⟨?_, ?_⟩
    · dsimp only
      rw [hcalls, List.erase_cons_head, List.length_nil]
      omega
    · dsimp only
      rw [hcalls, List.erase_cons_head, horder, bindings, bindings, List.filterMap_append, List.append_assoc]
      rfl
  | remove _ _ =>
    obtain ⟨hallocated, hpushed⟩ := hok
    refine ⟨hone, ?_⟩
    rw [horder, bindings, bindings, List.filterMap_append]
    simp
  | writeDelta _ => exact ⟨hone, horder⟩
  | notifyArena _ => exact ⟨hone, horder⟩
  | store _ => exact ⟨hone, horder⟩
  | pop _ _ => exact ⟨hone, horder⟩
  | accept _ _ => exact ⟨hone, horder⟩
  | refuse _ _ => exact ⟨hone, horder⟩
  | idleFlush _ _ => exact ⟨hone, horder⟩
  | forcedFlush _ _ => exact ⟨hone, horder⟩

theorem described_of_recordsLogged (h : RecordsLogged r s) {op : IndexOp} (hop : op ∈ s.bound) :
    Described r (loggedMax r s.logged) op := by
  obtain ⟨hfrom, e, he, hkind, hroot, -, hto⟩ := h op hop
  have hstop : Entry.recordStop r e = e.offset.toNat + e.payload.length := by
    rw [Entry.recordStop, hkind]
    exact if_pos hroot
  have hle : Entry.recordStop r e ≤ Entry.loggedEnd r s.logged := Entry.recordStop_le_loggedEnd he
  exact ⟨hfrom, lt_max_of_lt_right (by omega)⟩

/-- When all records are logged, recovery applies every binding of the log. -/
theorem replayed_of_recordsLogged (h : Inv r n s) (hquiet : s.Quiescent) (hread : Readable r s l a)
    (hrecords : RecordsLogged r s) :
    replayed r l s.logged = readOps l s.logged ∧ ∀ op, op ∈ replayed r l s.logged ↔ op ∈ s.bound := by
  have hmem : ∀ op, op ∈ readOps l s.logged ↔ op ∈ s.bound := fun op ↦ by
    rw [readOps_perm h hquiet.flushed hread, bound_eq_of_pending h hquiet.pending]
  have hall : replayed r l s.logged = readOps l s.logged :=
    List.filter_eq_self.mpr fun op hop ↦ decide_eq_true (described_of_recordsLogged hrecords ((hmem op).mp hop))
  exact ⟨hall, fun op ↦ by rw [hall, hmem]⟩

theorem search_live (h : Inv r n s) (k : Bytes) {fuel : ℕ} (hfuel : maxDepth < fuel) :
    search (regionIndex r) k fuel s.engine.arena = .ok (resolve s.applied k) := by
  obtain ⟨heap, root, hlive⟩ := h.live
  exact hlive.search k hfuel

/-- After calls that come one after another, and a crash with everything
flushed and no snapshot: recovery comes back, and the recovered index is the
live one exactly when no key was removed for good and the order in which
replay reads the files leaves every key its last binding. -/
theorem recovered_eq_live_iff (r : Regions) (e : Engine) (hboot : Booted r e) (s : System)
    (hrun : Run (Step r) (Orderly r) (start e) s) (hquiet : s.Quiescent) (hrecords : RecordsLogged r s)
    (l : SectorFiles) (a : ArtState) (hread : Readable r s l a) :
    ∃ t, (∀ fuel, maxDepth + 3 ≤ fuel → recoverWal fuel r none s.wal.files a = some t) ∧
      ∀ fuel, maxDepth < fuel →
        ((∀ k, search (regionIndex r) k fuel t.mem = search (regionIndex r) k fuel s.engine.arena) ↔
          ∀ k, ¬ Forgotten s.applied k ∧
            resolve (bindAll ((readOps l s.logged).map binding)) k = resolve (bindAll (s.bound.map binding)) k) := by
  have hinv := inv_run hboot (hrun.mono fun _ _ hok ↦ hok.1)
  have hturn : InTurn s := hrun.invariant InTurn (fun _ _ _ h hok hstep ↦ inTurn_step h hok.2 hstep)
    ⟨by simp [start], rfl⟩
  obtain ⟨hall, hmembers⟩ := replayed_of_recordsLogged hinv hquiet hread hrecords
  have horder : s.bound.map binding = bindings s.applied := by
    rw [hturn.order, hquiet.pushed, List.map_nil, List.append_nil]
  have hsame : ∀ u, u ∈ (replayed r l s.logged).map binding ↔ u ∈ bindings s.applied := by
    intro u
    rw [← horder, List.mem_map, List.mem_map]
    simp only [hmembers]
  obtain ⟨t, hrecover, hfound⟩ := search_recovered hinv hquiet hread
  refine ⟨t, hrecover, fun fuel hfuel ↦ forall_congr' fun k ↦ ?_⟩
  rw [hfound k fuel hfuel, search_live hinv k hfuel, Except.ok.injEq, resolve_eq_iff hsame, hall, horder]

/-- After any interleaving of calls: the recovered binding of a key is the
live one exactly when the call that recovery applies last binds the key to
what the call that changed the live index last binds it to. -/
theorem recovered_binding_eq_live_iff (r : Regions) (e : Engine) (hboot : Booted r e) (s : System)
    (hrun : Run (Step r) (Regular r) (start e) s) (hquiet : s.Quiescent) (l : SectorFiles) (a : ArtState)
    (hread : Readable r s l a) :
    ∃ t, (∀ fuel, maxDepth + 3 ≤ fuel → recoverWal fuel r none s.wal.files a = some t) ∧
      ∀ k fuel, maxDepth < fuel →
        (search (regionIndex r) k fuel t.mem = search (regionIndex r) k fuel s.engine.arena ↔
          resolve (bindAll ((replayed r l s.logged).map binding)) k = resolve s.applied k) := by
  have hinv := inv_run hboot hrun
  obtain ⟨t, hrecover, hfound⟩ := search_recovered hinv hquiet hread
  refine ⟨t, hrecover, fun k fuel hfuel ↦ ?_⟩
  rw [hfound k fuel hfuel, search_live hinv k hfuel, Except.ok.injEq]

theorem regular_flusher (r : Regions) (u : System) :
    Regular r u .pop ∧ Regular r u .process ∧ Regular r u .idleFlush := ⟨trivial, trivial, trivial⟩

theorem orderly_flusher (r : Regions) (u : System) :
    Orderly r u .pop ∧ Orderly r u .process ∧ Orderly r u .idleFlush :=
  ⟨⟨trivial, trivial⟩, ⟨trivial, trivial⟩, ⟨trivial, trivial⟩⟩

/-- The flusher takes one delta and logs it in the buffer. -/
theorem run_pop_accept {ok : System → Event → Prop} (hok : ∀ u, ok u .pop ∧ ok u .process ∧ ok u .idleFlush)
    (h : Inv r n s) (hnone : s.popped = none) {d : DeltaMessage} {rest : List DeltaMessage} {e : Entry}
    (hqueue : s.engine.queue = d :: rest) (hd : d.Accepted s.engine.arena)
    (he : d.entry s.engine.arena = some e)
    (hroom : s.wal.sector.length + e.encode.length < sectorPayload) :
    ∃ w, Run (Step r) ok s { s with
        engine := { s.engine with queue := rest }, wal := w, logged := s.logged ++ [e] } ∧
      Inv r n { s with
        engine := { s.engine with queue := rest }, wal := w, logged := s.logged ++ [e] } ∧
      w.flushed = s.wal.flushed ∧ w.sector = s.wal.sector ++ e.encode := by
  have hinv := inv_pop h hnone hqueue
  obtain ⟨w, hw, -, hflushed, hsector, -⟩ :=
    run_delta_of_room h.logs.healthy (acceptable_popped hinv rfl hd) he hroom
  have hstep : Step r { s with popped := some d, engine := { s.engine with queue := rest } } .process _ :=
    .accept rfl hw
  have haccepted := inv_accept hinv rfl hw
  simp only [he, Option.toList_some, ← hnone] at hstep haccepted
  exact ⟨w, ((Run.refl s).tail (hok _).1 (.pop hnone hqueue)).tail (hok _).2.1 hstep, haccepted, hflushed,
    hsector⟩

/-- The flusher drains the ring, and its idle pass flushes what it buffered. -/
theorem run_drain {ok : System → Event → Prop} (hok : ∀ u, ok u .pop ∧ ok u .process ∧ ok u .idleFlush)
    (h : Inv r n s) (hnone : s.popped = none) {es : List Entry}
    (hes : List.Forall₂ (fun d e ↦ d.Accepted s.engine.arena ∧ d.entry s.engine.arena = some e)
      s.engine.queue es)
    (hroom : s.wal.sector.length + (es.flatMap Entry.encode).length < sectorPayload) :
    ∃ w, Run (Step r) ok s { s with
        engine := { s.engine with queue := [] }, wal := w, logged := s.logged ++ es } ∧
      Inv r n { s with
        engine := { s.engine with queue := [] }, wal := w, logged := s.logged ++ es } ∧
      w.flushed = s.wal.flushed ∧ w.sector = s.wal.sector ++ es.flatMap Entry.encode := by
  induction es generalizing s with
  | nil =>
    have hempty : s.engine.queue = [] := by
      cases hq : s.engine.queue with
      | nil => rfl
      | cons d rest => rw [hq] at hes; cases hes
    obtain ⟨e, popped, allocated, pushed, wal, logged, bound, applied⟩ := s
    obtain ⟨ready, ringReady, daemon, regions, mem, capacity, queue, saturated, index, free⟩ := e
    dsimp only at hempty
    subst hempty
    exact ⟨wal, by rw [List.append_nil]; exact Run.refl _, by rw [List.append_nil]; exact h, rfl,
      (List.append_nil _).symm⟩
  | cons e es ih =>
    cases hq : s.engine.queue with
    | nil => rw [hq] at hes; cases hes
    | cons d rest =>
      rw [hq] at hes
      cases hes with
      | cons hhead htail =>
        rw [List.flatMap_cons, List.length_append] at hroom
        obtain ⟨w₁, hrun₁, hinv₁, hflushed₁, hsector₁⟩ :=
          run_pop_accept hok h hnone hq hhead.1 hhead.2 (by omega)
        obtain ⟨w, hrun, hinv, hflushed, hsector⟩ := ih hinv₁ hnone htail (by
          dsimp only
          rw [hsector₁, List.length_append]
          omega)
        dsimp only at hrun hinv hflushed hsector
        rw [List.append_assoc, List.singleton_append] at hrun hinv
        refine ⟨w, hrun₁.trans hrun, hinv, hflushed.trans hflushed₁, ?_⟩
        rw [hsector, hsector₁, List.flatMap_cons, List.append_assoc]

theorem run_settle {ok : System → Event → Prop} (hok : ∀ u, ok u .pop ∧ ok u .process ∧ ok u .idleFlush)
    (h : Inv r n s) (hnone : s.popped = none) {es : List Entry}
    (hes : List.Forall₂ (fun d e ↦ d.Accepted s.engine.arena ∧ d.entry s.engine.arena = some e)
      s.engine.queue es)
    (hne : es ≠ []) (hroom : s.wal.sector.length + (es.flatMap Entry.encode).length + minPadding ≤ sectorPayload) :
    ∃ w, Run (Step r) ok s { s with
        engine := { s.engine with queue := [] }, wal := w, logged := s.logged ++ es } ∧
      Inv r n { s with
        engine := { s.engine with queue := [] }, wal := w, logged := s.logged ++ es } ∧
      w.flushed = s.wal.flushed ++ [s.wal.sector ++ es.flatMap Entry.encode] ∧ w.sector = [] := by
  simp only [minPadding, headerSize] at hroom
  obtain ⟨w, hrun, hinv, hflushed, hsector⟩ := run_drain hok h hnone hes (by omega)
  have hlong : w.sector.length = s.wal.sector.length + (es.flatMap Entry.encode).length := by
    rw [hsector, List.length_append]
  have hnonempty : w.sector ≠ [] := by
    obtain ⟨e, es, rfl⟩ := List.exists_cons_of_ne_nil hne
    intro hnil
    rw [hnil, List.flatMap_cons, List.length_append, Entry.length_encode, headerSize, List.length_nil] at hlong
    omega
  have hhealthy : w.Healthy := hinv.logs.healthy
  have hflush : flushIfUnambiguous w = .ok w.emit := by
    rw [flushIfUnambiguous, flushBufferWith_healthy hhealthy, if_neg]
    rintro (hnil | ⟨-, hslack⟩)
    · exact hnonempty hnil
    · rw [minPadding, headerSize] at hslack
      omega
  have hpending : System.pending { s with
      engine := { s.engine with queue := [] }, wal := w, logged := s.logged ++ es } = [] := by
    rw [System.pending, hnone]
    rfl
  refine ⟨w.emit, hrun.tail (hok _).2.2 (.idleFlush hpending hflush), inv_flush hinv (.inl rfl) hflush (by simp), ?_,
    sector_emit w⟩
  rw [flushed_emit, hflushed, hsector]

/-- Fewer sectors than fill a segment are all in the live file. -/
theorem segments_eq_nil {w : WalManager} (hl : w.SegmentedAs l) (hshort : w.flushed.length < sectorsPerSegment) :
    l.segments = [] := by
  rcases hsegments : l.segments with _ | ⟨seg, segs⟩
  · rfl
  · have hfull := hl.full seg (by rw [hsegments]; exact List.mem_cons_self)
    have hlen := congrArg List.length hl.flushed
    rw [sectors, hsegments, List.flatten_cons, List.length_append, List.length_append] at hlen
    omega

theorem readOrder_of_live {es : List Entry} (h : l.segments = []) : readOrder l es = es := by
  have harchived : l.archived es = [] := by
    rw [archived, h]
    exact wholeEntries_zero es
  rw [readOrder, current, harchived, List.append_nil]
  rfl

theorem smallEngine_booted : Booted smallRegions smallEngine where
  regions := rfl
  valid := smallArt_valid
  bump := smallArt_strings.ge
  queue := rfl
  index := rfl
  live := ⟨_, length_smallArt.symm ▸ smallArt_confined⟩

/-- Two record bytes at 40960, written inline. -/
def recordDelta : DeltaMessage := ⟨40960, 2, deltaInline, inlineData [255, 255], length_inlineData _⟩

def recordEntry : Entry := ⟨.arenaWrite, 40960, [255, 255]⟩

def keyEntry (value : UInt32) : Entry := ⟨.indexOp, value, [107]⟩

/-- The call whose key is the `n`-th string of the region. -/
def keyCall (n : ℕ) (value : UInt32) : Call := ⟨57352 + 8 * n, [107], value⟩

/-- A record was written, and calls on one key are underway, with `bs` for its values in the order of the pushes and
`vs` in that of the changes of the index. The flusher has not come yet. -/
structure Underway (ok : System → Event → Prop) (waiting sent : List Call) (bs vs : List UInt32) (s : System) :
    Prop where
  run : Run (Step smallRegions) ok (start smallEngine) s
  inv : Inv smallRegions 65536 s
  calls : s.allocated = waiting ∧ s.pushed = sent ∧ s.popped = none
  logged : s.logged = [] ∧ s.wal = init LogFiles.empty
  bound : s.bound = bs.map fun v ↦ ⟨[107], v⟩
  applied : s.applied = vs.map fun v ↦ ([107], some v)
  queue : ∃ ds, s.engine.queue = recordDelta :: ds ∧ (∀ d ∈ ds, d.isArena = deltaIndexOp) ∧ ds.length = bs.length
  capacity : s.engine.capacity = 16
  ready : s.engine.arenaReady = true ∧ s.engine.ringReady = true
  bump : stringBump smallRegions s.engine.arena = 57352 + 8 * (waiting.length + bs.length)
  index : ∃ heap root, Confined smallRegions 65536 s.engine.art heap root ∧ root.Lone [107] ∧
    (vs ≠ [] → root ≠ .nil) ∧ heap.bump ≤ 49160 + vs.length * insertBound [107]

theorem takyonWriteDelta_record :
    takyonWriteDelta 40960 [255, 255] 0 smallEngine = (rcOk, { smallEngine with queue := [recordDelta] }) := by
  have hlen : ¬ smallEngine.arena.length < (40960 : UInt32).toNat + ([255, 255] : Bytes).length := by
    rw [smallEngine, daemonEngine, length_smallArt]
    decide
  rw [takyonWriteDelta, if_neg (by decide), if_neg (by decide), if_neg hlen]
  exact pushWithBackPressure_of_room (e := smallEngine) (Nat.zero_lt_succ 15) 0

theorem exists_underway (ok : System → Event → Prop) (hok : ok (start smallEngine) (.writeDelta 40960 [255, 255])) :
    ∃ s, Underway ok [] [] [] [] s := by
  have hstep : Step smallRegions (start smallEngine) (.writeDelta 40960 [255, 255]) _ :=
    .writeDelta takyonWriteDelta_record
  have hregular : Regular smallRegions (start smallEngine) (.writeDelta 40960 [255, 255]) := trivial
  have hinv := inv_step (inv_start smallEngine_booted) hregular hstep
  rw [show smallEngine.arena.length = 65536 from length_smallArt] at hinv
  exact ⟨_, (Run.refl _).tail hok hstep, hinv, ⟨rfl, rfl, rfl⟩, ⟨rfl, rfl⟩, rfl, rfl,
    ⟨[], rfl, fun _ hd ↦ absurd hd List.not_mem_nil, rfl⟩, rfl, ⟨rfl, rfl⟩, smallArt_strings,
    ⟨_, _, smallArt_confined, .inl rfl, fun hne ↦ absurd rfl hne, by decide⟩⟩

/-- A pushed call that finds its memory changes the index inside its region. -/
theorem insert_step (h : Inv r n s) {c : Call} (hc : c ∈ s.pushed)
    (hfits : FitsRegion r s.engine.art (.insert c.key c.value))
    (hkeeps : KeepsCounts (regionIndex r) s.engine.art (.insert c.key c.value))
    (hrun : Returns (Art.insert (regionIndex r) c.key c.value) s.engine.art (.ok () a)) :
    Step r s (.insert c) { s with
        engine := s.engine.withArt a, pushed := s.pushed.erase c, applied := s.applied ++ [(c.key, some c.value)] } ∧
      ChangesOnly (artRegion r) s.engine.arena a.mem := by
  obtain ⟨heap, root, hlive⟩ := h.live
  obtain ⟨-, hch, -⟩ := hlive.insert (artEnd_le h.valid).2 hfits hkeeps hrun
  rw [← h.index] at hrun
  exact ⟨.insert hc (insertIntoIndex_of_returns hrun), hch⟩

namespace Underway

variable {ok : System → Event → Prop} {waiting sent : List Call} {bs vs : List UInt32} {c : Call} {value : UInt32}

theorem length_queue (h : Underway ok waiting sent bs vs s) :
    s.engine.queue.length = bs.length + 1 := by
  obtain ⟨ds, hqueue, -, hlen⟩ := h.queue
  rw [hqueue, List.length_cons, hlen]

theorem alloc {n : ℕ} (h : Underway ok waiting sent bs vs s) (hn : waiting.length + bs.length = n)
    (hok : ok s (.alloc [107] value)) (hvalue : value.toNat < 65536) (hfew : n < 8) :
    ∃ t, Underway ok (keyCall n value :: waiting) sent bs vs t := by
  have hvalid : Layout.Valid smallRegions s.engine.arena.length := h.inv.len.symm ▸ smallRegions_valid
  have hqueue := h.length_queue
  have hcapacity := h.capacity
  have hbump : stringBump smallRegions s.engine.arena = 57352 + 8 * n := hn ▸ h.bump
  have hkey : 1 ≤ ([107] : Bytes).length ∧ ([107] : Bytes).length ≤ maxKeyLen := by decide
  have hroom : stringBump smallRegions s.engine.arena + (([107] : Bytes).length + 7) / 8 * 8 ≤
      smallRegions.stringEnd := by
    have hstring : (([107] : Bytes).length + 7) / 8 * 8 = 8 ∧ smallRegions.stringEnd = 65536 := by decide
    omega
  obtain ⟨arena, halloc⟩ := exists_insertIndexAlloc h.ready h.inv.regions hkey (h.inv.len.symm ▸ hvalue) (by omega)
    (by decide) hroom
  obtain ⟨-, -, arena', hstring, heq⟩ := insertIndexAlloc_ok h.inv.regions halloc
  obtain rfl : arena = arena' := congrArg Engine.arena heq
  obtain ⟨-, hnext, -⟩ := allocString_bump hvalid h.inv.bump hstring
  obtain ⟨-, -, hch, -⟩ := changesOnly_allocString hvalid hstring
  rw [hbump] at halloc hnext
  obtain ⟨heap, root, hconfined, hindex⟩ := h.index
  refine ⟨_, h.run.tail hok (.alloc halloc), inv_alloc h.inv halloc, ⟨?_, h.calls.2⟩, h.logged, h.bound, h.applied,
    h.queue, hcapacity, h.ready, ?_, heap, root, ?_, hindex⟩
  · rw [← h.calls.1]
    rfl
  · rw [List.length_cons]
    dsimp only [List.length_cons, List.length_nil] at hnext ⊢
    omega
  · exact hconfined.frame hch (disjoint_artRegion hvalid (strings_above h.inv.bump ([107] : Bytes).length))

theorem push (h : Underway ok waiting sent bs vs s) (hc : c ∈ waiting) (hkey : c.key = [107])
    (hok : ok s (.push c)) (hfew : bs.length < 8) :
    ∃ t, Underway ok (waiting.erase c) (c :: sent) (bs ++ [c.value]) vs t := by
  have hqueue := h.length_queue
  have hcapacity := h.capacity
  have hbump := h.bump
  have hmem : c ∈ s.allocated := h.calls.1 ▸ hc
  have hpush := pushWithBackPressure_of_room (d := c.delta) (e := s.engine) (by omega) 0
  refine ⟨_, h.run.tail hok (.push hmem hpush), inv_push h.inv hmem hpush, ⟨?_, ?_, h.calls.2.2⟩, h.logged, ?_,
    h.applied, ?_, hcapacity, h.ready, ?_, h.index⟩
  · rw [h.calls.1]
  · rw [h.calls.2.1]
  · rw [h.bound, List.map_append, Call.op, hkey]
    rfl
  · obtain ⟨ds, hds, htags, hlen⟩ := h.queue
    refine ⟨ds ++ [c.delta], by rw [hds]; rfl, fun d hd ↦ ?_, by rw [List.length_append, List.length_append, hlen]; rfl⟩
    rcases List.mem_append.mp hd with hold | hnew
    · exact htags d hold
    · rw [List.mem_singleton.mp hnew]
      rfl
  · have hpos := List.length_pos_of_mem hc
    rw [List.length_erase_of_mem hc, List.length_append, List.length_singleton]
    dsimp only
    omega

theorem insert (h : Underway ok waiting sent bs vs s) (hc : c ∈ sent) (hkey : c.key = [107])
    (hvalue : c.value.toNat < 65536) (hok : Regular smallRegions s (.insert c) → ok s (.insert c))
    (hfew : vs.length < 4) :
    ∃ t, Underway ok waiting (sent.erase c) bs (vs ++ [c.value]) t := by
  obtain ⟨heap, root, hconfined, hlone, -, hbump⟩ := h.index
  have hbound : insertBound [107] ≤ 2000 ∧ smallRegions.artEnd = 57344 := by decide
  have hvalid : Layout.Valid smallRegions s.engine.arena.length := h.inv.len.symm ▸ smallRegions_valid
  have hend := (artEnd_le h.inv.valid).2
  have hmem : c ∈ s.pushed := h.calls.2.1 ▸ hc
  have hroom : heap.bump + insertBound [107] ≤ smallRegions.artEnd := by
    have := Nat.mul_le_mul (Nat.le_of_lt_succ hfew) hbound.1
    omega
  have hgood : ValidKey [107] ∧ c.value.toNat < 65536 := ⟨by decide, hvalue⟩
  obtain ⟨hfits, hkeeps, art, heap', off, newOff, hinsert, hconfined', hbump'⟩ :=
    hconfined.insert_lone hlone hgood hend hroom
  rw [← hkey] at hfits hkeeps hinsert
  have hregular : Regular smallRegions s (.insert c) := ⟨hfits, hkeeps⟩
  obtain ⟨hstep, hch⟩ := insert_step h.inv hmem hfits hkeeps hinsert
  refine ⟨_, h.run.tail (hok hregular) hstep, inv_step h.inv hregular hstep, ⟨h.calls.1, ?_, h.calls.2.2⟩, h.logged,
    h.bound, ?_, h.queue, h.capacity, h.ready, ?_, heap', _, hconfined', .inr ⟨off, newOff, _, rfl⟩, ?_, ?_⟩
  · rw [h.calls.2.1]
  · rw [h.applied, List.map_append, hkey]
    rfl
  · exact (stringBump_frame hvalid hch (disjoint_artRegion hvalid fun i hi ↦ hi.1).symm).trans h.bump
  · exact fun _ heq ↦ by cases heq
  · rw [List.length_append, List.length_singleton, Nat.add_mul, Nat.one_mul]
    omega

/-- A call from its start to its end. -/
theorem call (h : Underway (Orderly smallRegions) [] [] bs vs s) (hvalue : value.toNat < 65536)
    (hfew : bs.length < 4 ∧ vs.length < 4) :
    ∃ t, Underway (Orderly smallRegions) [] [] (bs ++ [value]) (vs ++ [value]) t := by
  obtain ⟨s₁, h₁⟩ := h.alloc (Nat.zero_add bs.length) ⟨trivial, h.calls.1, h.calls.2.1⟩ hvalue (by omega)
  obtain ⟨s₂, h₂⟩ := h₁.push (List.mem_singleton_self _) rfl ⟨trivial, trivial⟩ (by omega)
  obtain ⟨s₃, h₃⟩ := h₂.insert (List.mem_singleton_self _) rfl hvalue (fun hregular ↦ ⟨hregular, trivial⟩) hfew.2
  rw [List.erase_cons_head] at h₃
  exact ⟨s₃, h₃⟩

end Underway

/-- The deltas of pushed calls come to the log with their bindings. -/
theorem logs_of_tags {ds : List DeltaMessage} {arenaMem : Bytes}
    (hds : ∀ d ∈ ds, Barrier.FromClient arenaMem.length d ∧ d.isArena = deltaIndexOp) :
    List.Forall₂ (fun d e ↦ d.Accepted arenaMem ∧ d.entry arenaMem = some e) ds
      ((ds.filterMap (·.indexOp arenaMem)).map fun op ↦ ⟨.indexOp, op.value, op.key⟩) := by
  induction ds with
  | nil => exact .nil
  | cons d ds ih =>
    obtain ⟨hclient, htag⟩ := hds d List.mem_cons_self
    have hentry : d.entry arenaMem = some ⟨.indexOp, UInt32.ofNat (leDecode (slice d.data 0 4)),
        slice arenaMem d.offset.toNat d.size.toNat⟩ := by
      rw [DeltaMessage.entry, htag]
      rfl
    have hop : d.indexOp arenaMem =
        some ⟨slice arenaMem d.offset.toNat d.size.toNat, UInt32.ofNat (leDecode (slice d.data 0 4))⟩ := by
      rw [DeltaMessage.indexOp, hentry]
      rfl
    simp only [List.filterMap_cons, hop, List.map_cons]
    exact .cons ⟨accepted_of_indexOp hclient htag, hentry⟩ (ih fun d hd ↦ hds d (List.mem_cons_of_mem _ hd))

theorem length_keyEntries (values : List UInt32) :
    ((values.map keyEntry).flatMap Entry.encode).length = 9 * values.length := by
  induction values with
  | nil => rfl
  | cons v values ih =>
    rw [List.map_cons, List.flatMap_cons, List.length_append, ih, Entry.length_encode, List.length_cons]
    show 8 + 1 + _ = _
    omega

/-- All calls have returned, and everything is on disk. -/
structure Settled (ok : System → Event → Prop) (bs vs : List UInt32) (l : SectorFiles) (s : System) : Prop where
  run : Run (Step smallRegions) ok (start smallEngine) s
  inv : Inv smallRegions 65536 s
  quiet : s.Quiescent
  files : s.wal.SegmentedAs l
  live : l.segments = []
  logged : s.logged = recordEntry :: bs.map keyEntry
  bound : s.bound = bs.map fun v ↦ ⟨[107], v⟩
  applied : s.applied = vs.map fun v ↦ ([107], some v)
  ready : s.engine.arenaReady = true
  index : ∃ heap root, Confined smallRegions 65536 s.engine.art heap root ∧ root.Lone [107] ∧
    (vs ≠ [] → root ≠ .nil)

theorem Underway.settle {ok : System → Event → Prop} (hok : ∀ u, ok u .pop ∧ ok u .process ∧ ok u .idleFlush)
    {bs vs : List UInt32} (h : Underway ok [] [] bs vs s) (hfew : bs.length ≤ 4) :
    ∃ l t, Settled ok bs vs l t := by
  obtain ⟨ds, hqueue, htags, -⟩ := h.queue
  obtain ⟨hallocated, hpushed, hnone⟩ := h.calls
  obtain ⟨hlogged, hwal⟩ := h.logged
  have hpending : s.pending = recordDelta :: ds := by
    rw [System.pending, hnone, hqueue]
    rfl
  have hops : ds.filterMap (·.indexOp s.engine.arena) = bs.map fun v ↦ ⟨[107], v⟩ := by
    have hlog := h.inv.log
    rw [hlogged, hpending, h.bound, List.filterMap_nil, List.nil_append, List.filterMap_cons_none rfl] at hlog
    exact hlog
  have hclient : ∀ d ∈ ds, Barrier.FromClient s.engine.arena.length d ∧ d.isArena = deltaIndexOp := fun d hd ↦
    ⟨h.inv.len.symm ▸ h.inv.client d (hpending ▸ List.mem_cons_of_mem _ hd), htags d hd⟩
  have hrecord : recordDelta.Accepted s.engine.arena ∧ recordDelta.entry s.engine.arena = some recordEntry :=
    ⟨(by decide : recordDelta.size.toNat ≤ 48), rfl⟩
  have hlogs := logs_of_tags hclient
  rw [hops, List.map_map] at hlogs
  have hes : List.Forall₂ (fun d e ↦ d.Accepted s.engine.arena ∧ d.entry s.engine.arena = some e) s.engine.queue
      (recordEntry :: bs.map keyEntry) := by
    rw [hqueue]
    exact .cons hrecord hlogs
  have hroom : s.wal.sector.length + ((recordEntry :: bs.map keyEntry).flatMap Entry.encode).length + minPadding ≤
      sectorPayload := by
    have hpadding : minPadding + 100 ≤ sectorPayload := by decide
    rw [hwal, List.flatMap_cons, List.length_append, length_keyEntries]
    have hempty : (init LogFiles.empty).sector.length = 0 ∧ recordEntry.encode.length = 10 := by decide
    omega
  obtain ⟨w, hrun, hinv, hflushed, hsector⟩ := run_settle hok h.inv hnone hes (by simp) hroom
  obtain ⟨l, hl⟩ := hinv.segmented
  refine ⟨l, _, h.run.trans hrun, hinv, ⟨hallocated, hpushed, ?_, hsector⟩, hl, segments_eq_nil hl ?_, ?_, h.bound,
    h.applied, h.ready.1, h.index.imp fun _ ↦ Exists.imp fun _ hx ↦ ⟨hx.1, hx.2.1, hx.2.2.1⟩⟩
  · rw [System.pending, hnone]
    rfl
  · rw [hflushed, hwal]
    exact (by decide : 1 < sectorsPerSegment)
  · rw [hlogged]
    rfl

/-- Calls on one key, one after another. -/
theorem exists_calls (values : List UInt32) (hvalues : ∀ v ∈ values, v.toNat < 65536) (hfew : values.length ≤ 4) :
    ∃ l s, Settled (Orderly smallRegions) values values l s := by
  have hunderway : ∃ s, Underway (Orderly smallRegions) [] [] values values s := by
    induction values using List.reverseRecOn with
    | nil => exact exists_underway _ ⟨trivial, trivial⟩
    | append_singleton values v ih =>
      rw [List.length_append, List.length_singleton] at hfew
      obtain ⟨s, hs⟩ := ih (fun u hu ↦ hvalues u (List.mem_append_left _ hu)) (by omega)
      exact hs.call (hvalues v (List.mem_append_right _ (List.mem_singleton_self v))) (by omega)
  obtain ⟨s, hs⟩ := hunderway
  exact hs.settle (orderly_flusher smallRegions) hfew

/-- Two clients bind the key. The first to push binds it to 40960, the second to 40961, and `vs` says in which order
they change the index. -/
theorem exists_twoWriters {vs : List UInt32} (hvs : vs = [40960, 40961] ∨ vs = [40961, 40960]) :
    ∃ l s, Settled (Regular smallRegions) [40960, 40961] vs l s := by
  have hvalue : (40960 : UInt32).toNat < 65536 ∧ (40961 : UInt32).toNat < 65536 := by decide
  have hother : [keyCall 1 40961, keyCall 0 40960].erase (keyCall 0 40960) = [keyCall 1 40961] := by decide
  obtain ⟨s₀, h₀⟩ := exists_underway (Regular smallRegions) trivial
  obtain ⟨s₁, h₁⟩ := h₀.alloc (n := 0) rfl trivial hvalue.1 (by decide)
  obtain ⟨s₂, h₂⟩ := h₁.alloc (n := 1) rfl trivial hvalue.2 (by decide)
  obtain ⟨s₃, h₃⟩ := h₂.push (c := keyCall 0 40960) (List.mem_cons_of_mem _ List.mem_cons_self) rfl trivial (by decide)
  rw [hother] at h₃
  obtain ⟨s₄, h₄⟩ := h₃.push List.mem_cons_self rfl trivial (by decide)
  rw [List.erase_cons_head] at h₄
  have hcalls : ∃ s, Underway (Regular smallRegions) [] [] [40960, 40961] vs s := by
    rcases hvs with rfl | rfl
    · obtain ⟨s₅, h₅⟩ := h₄.insert (List.mem_cons_of_mem _ List.mem_cons_self) rfl hvalue.1 id (by decide)
      rw [hother] at h₅
      obtain ⟨s₆, h₆⟩ := h₅.insert List.mem_cons_self rfl hvalue.2 id (by decide)
      rw [List.erase_cons_head] at h₆
      exact ⟨s₆, h₆⟩
    · obtain ⟨s₅, h₅⟩ := h₄.insert List.mem_cons_self rfl hvalue.2 id (by decide)
      rw [List.erase_cons_head] at h₅
      obtain ⟨s₆, h₆⟩ := h₅.insert List.mem_cons_self rfl hvalue.1 id (by decide)
      rw [List.erase_cons_head] at h₆
      exact ⟨s₆, h₆⟩
  obtain ⟨s, hs⟩ := hcalls
  exact hs.settle (regular_flusher smallRegions) (by decide)

theorem covered_keys (values : List UInt32) : covered (recordEntry :: values.map keyEntry) = Ico 40960 40962 := by
  have hkeys : covered (values.map keyEntry) = ∅ := by
    ext x
    simp [covered, keyEntry]
  rw [covered_cons, hkeys, union_empty, recordEntry, covered_write]
  rfl

namespace Settled

variable {ok : System → Event → Prop} {bs vs : List UInt32} {t : System}

/-- The files can be read into a blank arena, whatever became of the index. -/
theorem readable (h : Settled ok bs vs l s) (hfew : bs.length ≤ 4) (hlen : t.engine.arena.length = 65536)
    (hwal : t.wal = s.wal) (hlogged : t.logged = s.logged) : Readable smallRegions t l ⟨zeros 65536, noOrphans⟩ := by
  have hzeros : (zeros 65536).length = 65536 := length_zeros _
  generalize zeros 65536 = mem at hzeros ⊢
  rw [h.logged] at hlogged
  refine ⟨hwal ▸ h.files, by rw [h.live]; trivial, hzeros.trans hlen.symm, fun _ ↦ rfl, ?_, ?_⟩
  · rw [hlogged, covered_keys]
    exact disjoint_Ico (.inl (by decide))
  · have hvalid : Layout.Valid smallRegions mem.length := hzeros.symm ▸ smallRegions_valid
    have hrebuilt : Rebuilt smallRegions mem.length ⟨resetIndex smallRegions mem, noOrphans⟩ ⟨49160, noOrphans⟩ .nil :=
      ⟨confined_resetIndex hvalid (by decide) fun _ ↦ rfl, trivial⟩
    have hops : (recordEntry :: bs.map keyEntry).filterMap Entry.indexOp = bs.map fun v ↦ ⟨[107], v⟩ := by
      rw [List.filterMap_cons_none rfl, List.filterMap_map, ← List.filterMap_eq_map]
      rfl
    refine hrebuilt.roomFor_of_bound (artEnd_le hvalid).2 ?_
    rw [readOps, readOrder_of_live h.live, hlogged, hops, List.map_map]
    have hsum : (bs.map ((fun op : IndexOp ↦ insertBound op.key) ∘ fun v ↦ ⟨[107], v⟩)).sum =
        bs.length * insertBound [107] :=
      (congrArg List.sum (List.map_const' (l := bs) (b := insertBound [107]))).trans List.sum_replicate_nat
    have hbound : insertBound [107] ≤ 2000 ∧ smallRegions.artEnd = 57344 := by decide
    have := Nat.mul_le_mul hfew hbound.1
    rw [hsum]
    dsimp only
    omega

theorem recordsLogged (h : Settled ok bs vs l s) (hvalues : ∀ v ∈ bs, 40960 ≤ v.toNat ∧ v.toNat < 40962) :
    RecordsLogged smallRegions s := by
  intro op hop
  rw [h.bound, List.mem_map] at hop
  obtain ⟨v, hv, rfl⟩ := hop
  obtain ⟨hfrom, hto⟩ := hvalues v hv
  refine ⟨le_trans (by decide) hfrom, recordEntry, ?_, rfl, by decide, hfrom, hto⟩
  rw [h.logged]
  exact List.mem_cons_self

end Settled

/-- A key that is bound twice and not removed is recovered with its last record. -/
theorem twoCalls_recovered : ∃ l s, Run (Step smallRegions) (Orderly smallRegions) (start smallEngine) s ∧
    s.Quiescent ∧ RecordsLogged smallRegions s ∧ Readable smallRegions s l ⟨zeros 65536, noOrphans⟩ ∧
      ∃ t, (∀ fuel, maxDepth + 3 ≤ fuel →
          recoverWal fuel smallRegions none s.wal.files ⟨zeros 65536, noOrphans⟩ = some t) ∧
        ∀ fuel, maxDepth < fuel →
          (∀ k, search (regionIndex smallRegions) k fuel t.mem =
            search (regionIndex smallRegions) k fuel s.engine.arena) ∧
          search (regionIndex smallRegions) [107] fuel s.engine.arena = .ok (some 40961) := by
  have hfirst : 40960 ≤ (40960 : UInt32).toNat ∧ (40960 : UInt32).toNat < 40962 := by decide
  have hsecond : 40960 ≤ (40961 : UInt32).toNat ∧ (40961 : UInt32).toNat < 40962 := by decide
  have hvalues : ∀ v ∈ [(40960 : UInt32), 40961], 40960 ≤ v.toNat ∧ v.toNat < 40962 :=
    List.forall_mem_cons.mpr ⟨hfirst, List.forall_mem_singleton.mpr hsecond⟩
  obtain ⟨l, s, hs⟩ := exists_calls [40960, 40961] (fun v hv ↦ (hvalues v hv).2.trans (by decide)) (by decide)
  have hrecords := hs.recordsLogged hvalues
  have hread := hs.readable (by decide) hs.inv.len rfl rfl
  obtain ⟨t, hrecover, hsame⟩ := recovered_eq_live_iff smallRegions smallEngine smallEngine_booted s hs.run hs.quiet
    hrecords l _ hread
  refine ⟨l, s, hs.run, hs.quiet, hrecords, hread, t, hrecover, fun fuel hfuel ↦
    ⟨(hsame fuel hfuel).mpr fun k ↦ ⟨?_, ?_⟩, ?_⟩⟩
  · rintro ⟨hnone, v, hv⟩
    rw [hs.applied] at hnone hv
    rcases List.mem_cons.mp hv with heq | hv
    · cases heq
      cases hnone
    · rw [List.map_singleton, List.mem_singleton] at hv
      cases hv
      cases hnone
  · rw [readOps, readOrder_of_live hs.live, hs.logged, hs.bound]
    rfl
  · rw [search_live hs.inv [107] hfuel, hs.applied]
    rfl

/-- A key that was removed is recovered all the same. -/
theorem removed_key_recovered : ∃ l s, Run (Step smallRegions) (Orderly smallRegions) (start smallEngine) s ∧
    s.Quiescent ∧ RecordsLogged smallRegions s ∧ Readable smallRegions s l ⟨zeros 65536, noOrphans⟩ ∧
      ∃ t, (∀ fuel, maxDepth + 3 ≤ fuel →
          recoverWal fuel smallRegions none s.wal.files ⟨zeros 65536, noOrphans⟩ = some t) ∧
        ∀ fuel, maxDepth < fuel → search (regionIndex smallRegions) [107] fuel t.mem = .ok (some 40960) ∧
          search (regionIndex smallRegions) [107] fuel s.engine.arena = .ok none := by
  have hvalue : 40960 ≤ (40960 : UInt32).toNat ∧ (40960 : UInt32).toNat < 40962 := by decide
  have hvalues : ∀ v ∈ [(40960 : UInt32)], 40960 ≤ v.toNat ∧ v.toNat < 40962 := List.forall_mem_singleton.mpr hvalue
  obtain ⟨l, s, hs⟩ := exists_calls [40960] (fun v hv ↦ (hvalues v hv).2.trans (by decide)) (by decide)
  obtain ⟨heap, root, hconfined, hlone, hne⟩ := hs.index
  obtain ⟨off, newOff, v, rfl⟩ := hlone.resolve_left (hne (List.cons_ne_nil _ _))
  have hx := hconfined.indexed
  have hfits : FitsRegion smallRegions s.engine.art (.remove [107]) := by
    intro _
    have hword : readU32 s.engine.art.mem smallRegions.artBumpOffset = heap.bump := hx.arena.bump
    rw [hword, hx.removeDemand_single]
    exact hconfined.bump_le
  have hremove : ∃ art, takyonRemoveIndex [107] s.engine = some (1, s.engine.withArt art) := by
    cases hx.remove [107] with
    | refused hbad => exact absurd (by decide) hbad
    | absent hgood hnone => exact absurd (hnone.symm.trans (show _ = some v from rfl)) (by simp)
    | @removed art h' root' up hgood hrem hrun hmoves =>
      refine ⟨art, ?_⟩
      rw [takyonRemoveIndex, if_neg (by simp [hs.ready]), if_neg (by decide), hs.inv.index, hrun]
      rfl
  obtain ⟨art, hremove⟩ := hremove
  have hrun := hs.run.tail (a := Event.remove [107]) ⟨hfits, hs.quiet.allocated, hs.quiet.pushed⟩
    (.remove hremove (by decide))
  have hinv := inv_remove hs.inv hfits hremove (by decide)
  have hread := hs.readable (by decide) hinv.len rfl rfl
  have hquiet : System.Quiescent { s with engine := s.engine.withArt art, applied := s.applied ++ [([107], none)] } :=
    ⟨hs.quiet.allocated, hs.quiet.pushed, hs.quiet.pending, hs.quiet.flushed⟩
  obtain ⟨t, hrecover, hfound⟩ := search_recovered hinv hquiet hread
  refine ⟨l, _, hrun, hquiet, hs.recordsLogged hvalues, hread, t, hrecover, fun fuel hfuel ↦ ⟨?_, ?_⟩⟩
  · rw [hfound [107] fuel hfuel, replayed, readOps, readOrder_of_live hs.live, hs.logged]
    rfl
  · rw [search_live hinv [107] hfuel, resolve_concat, if_pos rfl]

/-- Two writers of one key agree with the log when they change the index in the order of their pushes. -/
theorem twoWriters_agree : ∃ l s, Run (Step smallRegions) (Regular smallRegions) (start smallEngine) s ∧
    s.Quiescent ∧ Readable smallRegions s l ⟨zeros 65536, noOrphans⟩ ∧
      ∃ t, (∀ fuel, maxDepth + 3 ≤ fuel →
          recoverWal fuel smallRegions none s.wal.files ⟨zeros 65536, noOrphans⟩ = some t) ∧
        ∀ fuel, maxDepth < fuel → search (regionIndex smallRegions) [107] fuel t.mem =
            search (regionIndex smallRegions) [107] fuel s.engine.arena ∧
          search (regionIndex smallRegions) [107] fuel s.engine.arena = .ok (some 40961) := by
  obtain ⟨l, s, hs⟩ := exists_twoWriters (.inl rfl)
  have hread := hs.readable (by decide) hs.inv.len rfl rfl
  obtain ⟨t, hrecover, hsame⟩ := recovered_binding_eq_live_iff smallRegions smallEngine smallEngine_booted s hs.run
    hs.quiet l _ hread
  refine ⟨l, s, hs.run, hs.quiet, hread, t, hrecover, fun fuel hfuel ↦ ⟨(hsame [107] fuel hfuel).mpr ?_, ?_⟩⟩
  · rw [replayed, readOps, readOrder_of_live hs.live, hs.logged, hs.applied]
    rfl
  · rw [search_live hs.inv [107] hfuel, hs.applied]
    rfl

/-- Two writers of one key: the second to push is the first to change the index. -/
theorem twoWriters_disagree : ∃ l s, Run (Step smallRegions) (Regular smallRegions) (start smallEngine) s ∧
    s.Quiescent ∧ Readable smallRegions s l ⟨zeros 65536, noOrphans⟩ ∧
      ∃ t, (∀ fuel, maxDepth + 3 ≤ fuel →
          recoverWal fuel smallRegions none s.wal.files ⟨zeros 65536, noOrphans⟩ = some t) ∧
        ∀ fuel, maxDepth < fuel → search (regionIndex smallRegions) [107] fuel t.mem = .ok (some 40961) ∧
          search (regionIndex smallRegions) [107] fuel s.engine.arena = .ok (some 40960) := by
  obtain ⟨l, s, hs⟩ := exists_twoWriters (.inr rfl)
  have hread := hs.readable (by decide) hs.inv.len rfl rfl
  obtain ⟨t, hrecover, hfound⟩ := search_recovered hs.inv hs.quiet hread
  refine ⟨l, s, hs.run, hs.quiet, hread, t, hrecover, fun fuel hfuel ↦ ⟨?_, ?_⟩⟩
  · rw [hfound [107] fuel hfuel, replayed, readOps, readOrder_of_live hs.live, hs.logged]
    rfl
  · rw [search_live hs.inv [107] hfuel, hs.applied]
    rfl

end TakyonDb.IndexLog
