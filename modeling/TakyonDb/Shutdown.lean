import TakyonDb.FlusherLoop
import TakyonDb.Lives
import TakyonDb.Segments

namespace TakyonDb.FlusherLoop

open Lib Layout Wal Replay Framing WalManager SectorFiles Barrier

/-- `processDelta` accepts the delta and writes a record for it. -/
def LeavesRecord (n : ℕ) (d : DeltaMessage) : Prop :=
  ∃ arenaMem e, arenaMem.length = n ∧ d.Accepted arenaMem ∧ d.entry arenaMem = some e

/-- A record that is logged behind this sector is read from its start. -/
def ClearTail (w : WalManager) : Prop :=
  ∀ c ∈ w.flushed.getLast?, c.length = sectorPayload ∨ c.length + minPadding ≤ sectorPayload

/-- The flusher leaves its loop when the ring holds nothing of what was
pushed before `shutdown`, and logs no record behind an ambiguous padding. -/
def Drains (n : ℕ) (s : System) : Event → Prop
  | .leave => ∀ slots, s.called = some slots → ∀ i d, s.head ≤ i → slots i = .stored d →
      ¬ LeavesRecord n d
  | .process _ => ∀ c d, s.place = .holding c d → LeavesRecord n d → ClearTail s.wal
  | .publish fails => ∀ i, fails i = false
  | _ => True

/-- The records of the log as it is since it was last truncated. -/
def System.records (s : System) : List Entry := (s.logged.drop (s.truncated.getD 0)).reduceOption

/-- What of the log is older than the manager. -/
def System.base (s : System) (files : LogFiles UInt8) : Bytes :=
  if s.truncated = none then (init files).stream else []

/-- Replay of the files applies the records, those of the live file first. -/
def ReplaysAll (n : ℕ) (l : SectorFiles) (log : List Entry) : Prop :=
  l.archived log ++ l.current log = log ∧
  ∀ (regions : Regions) (st : Recovered), st.arena.length = n →
    (replayWal regions l.files st).arena =
        applyWrites ((l.current log ++ l.archived log).filterMap Entry.write) st.arena ∧
      (replayWal regions l.files st).indexOps =
        st.indexOps ++ (l.current log ++ l.archived log).filterMap Entry.indexOp

/-- All that is logged is written, and the log replays to it. -/
structure WrittenOut (n : ℕ) (files : LogFiles UInt8) (s : System) : Prop where
  written : s.wal.written s.records = s.records
  roundTrip : RoundTrip n (s.base files) s.records s.wal
  replay : files = LogFiles.empty → ∃ l, l.files = s.wal.files ∧ l.sectors = s.wal.flushed ∧
    (SplitFree l.segments s.records → ReplaysAll n l s.records)

/-- Every delta that was pushed before the call and accepted is logged. -/
structure Drained (n : ℕ) (files : LogFiles UInt8) (s : System) : Prop extends WrittenOut n files s where
  logged : ∀ slots i d, s.called = some slots → slots i = .stored d → LeavesRecord n d →
    ∃ arenaMem e, d.entry arenaMem = some e ∧ s.logged[i]? = some (some e) ∧
      (s.truncated.getD 0 ≤ i → e ∈ s.records)

/-- Which delta is at which position, and what became of it. -/
structure Taken (n : ℕ) (s : System) : Prop where
  fresh : ∀ i, s.tail ≤ i → s.slots i = .free
  pushable : ∀ i d, s.slots i = .reserved d ∨ s.slots i = .stored d → Pushable n d
  taken : ∀ i x, s.logged[i]? = some x → ∃ d arenaMem, arenaMem.length = n ∧ s.slots i = .stored d ∧
    x = if d.Accepted arenaMem then d.entry arenaMem else none
  held : ∀ c d, s.place = .holding c d → s.head = s.logged.length + 1 ∧
    s.slots s.logged.length = .stored d
  settled : (∀ c d, s.place ≠ .holding c d) → s.place ≠ .joined → s.head = s.logged.length
  called : ∀ slots i d, s.called = some slots → slots i = .stored d → s.slots i = .stored d
  truncated : s.truncated.getD 0 ≤ s.logged.length
  closed : s.place = .exited ∨ s.place = .joined → s.running = false
  left : s.place = .exited ∨ s.place = .joined → ∀ slots i d, s.called = some slots →
    slots i = .stored d → LeavesRecord n d → i < s.logged.length

/-- The written sectors are framed. -/
def Framing (s : System) (files : LogFiles UInt8) : Prop :=
  Logs (s.base files) s.records s.wal ∨ Ended (s.base files) s.records s.wal

variable {n : ℕ} {files : LogFiles UInt8} {s t : System} {a : Event} {w : WalManager}

theorem accepted_congr {d : DeltaMessage} {mem mem' : Bytes} (h : mem.length = mem'.length) :
    d.Accepted mem ↔ d.Accepted mem' := by
  unfold DeltaMessage.Accepted
  rw [h]

theorem isSome_entry (d : DeltaMessage) (mem mem' : Bytes) :
    (d.entry mem).isSome = (d.entry mem').isSome := by
  unfold DeltaMessage.entry
  split_ifs <;> rfl

/-- Whether a delta leaves a record does not depend on the arena's bytes. -/
theorem LeavesRecord.of_length {d : DeltaMessage} {mem : Bytes} (h : LeavesRecord n d)
    (hmem : mem.length = n) : d.Accepted mem ∧ ∃ e, d.entry mem = some e := by
  obtain ⟨mem', e, hmem', hd, he⟩ := h
  refine ⟨(accepted_congr (hmem'.trans hmem.symm)).mp hd, ?_⟩
  rw [← Option.isSome_iff_exists, isSome_entry d mem mem', he]
  rfl

/-- Behind a clear padding the log goes on as if the sector had been full. -/
theorem logs_of_ended {base : Bytes} {log : List Entry} (h : Ended base log w) (hclear : ClearTail w) :
    Logs base log w where
  framed := ⟨log, [], [], (List.append_nil log).symm, h.framed.settle hclear, by rw [h.empty]; rfl⟩
  stream := h.stream
  room := by rw [h.empty]; decide
  healthy := h.healthy
  opened := h.opened

namespace Taken

/-- A producer's step changes no slot that holds a delta. -/
theorem slots {f : ℕ → Slot} {tail : ℕ} (h : Taken n s)
    (hstored : ∀ i d, s.slots i = .stored d → f i = .stored d) (hfresh : ∀ i, tail ≤ i → f i = .free)
    (hpushable : ∀ i d, f i = .reserved d ∨ f i = .stored d → Pushable n d) :
    Taken n { s with tail := tail, slots := f } where
  fresh := hfresh
  pushable := hpushable
  taken i x hx := by
    obtain ⟨d, arenaMem, hlen, hd, rest⟩ := h.taken i x hx
    exact ⟨d, arenaMem, hlen, hstored i d hd, rest⟩
  held c d hd := ⟨(h.held c d hd).1, hstored _ d (h.held c d hd).2⟩
  settled := h.settled
  called slots i d hcalled hd := hstored i d (h.called slots i d hcalled hd)
  truncated := h.truncated
  closed := h.closed
  left := h.left

theorem reserve {d : DeltaMessage} (h : Taken n s) (hd : Pushable n d) : Taken n
    { s with tail := s.tail + 1, slots := Function.update s.slots s.tail (.reserved d) } := by
  have hfree : ∀ d', s.slots s.tail ≠ .stored d' := by simp [h.fresh s.tail le_rfl]
  refine h.slots (fun i d' hi ↦ update_stored hfree hi) (fun i hi ↦ ?_) (fun i d' hi ↦ ?_)
  · exact (Function.update_of_ne (by omega) _ _).trans (h.fresh i (by omega))
  · rcases eq_or_ne i s.tail with rfl | hne
    · rw [Function.update_self] at hi
      rcases hi with hi | hi <;> cases hi
      exact hd
    · rw [Function.update_of_ne hne] at hi
      exact h.pushable i d' hi

theorem store {d : DeltaMessage} {i : ℕ} (h : Taken n s) (hi : s.slots i = .reserved d) :
    Taken n { s with slots := Function.update s.slots i (.stored d) } := by
  have hreserved : ∀ d', s.slots i ≠ .stored d' := by simp [hi]
  refine h.slots (fun j d' hj ↦ update_stored hreserved hj) (fun j hj ↦ ?_) (fun j d' hj ↦ ?_)
  · have hne : j ≠ i := by
      rintro rfl
      rw [h.fresh j hj] at hi
      cases hi
    exact (Function.update_of_ne hne _ _).trans (h.fresh j hj)
  · rcases eq_or_ne j i with rfl | hne
    · rw [Function.update_self] at hj
      rcases hj with hj | hj <;> cases hj
      exact h.pushable j d (.inl hi)
    · rw [Function.update_of_ne hne] at hj
      exact h.pushable j d' hj

/-- A step that takes and logs no delta. -/
theorem move (h : Taken n s) (htail : t.tail = s.tail) (hslots : t.slots = s.slots)
    (hlogged : t.logged = s.logged) (hcalled : t.called = s.called) (hhead : t.head = s.head)
    (hfrom : (∀ c d, s.place ≠ .holding c d) ∧ s.place ≠ .joined) (hto : ∀ c d, t.place ≠ .holding c d)
    (htruncated : t.truncated.getD 0 ≤ t.logged.length)
    (hexit : t.place = .exited ∨ t.place = .joined → t.running = false ∧ ∀ slots i d,
      s.called = some slots → slots i = .stored d → LeavesRecord n d → i < s.logged.length) :
    Taken n t where
  fresh := by rw [htail, hslots]; exact h.fresh
  pushable := by rw [hslots]; exact h.pushable
  taken := by rw [hlogged, hslots]; exact h.taken
  held c d hd := absurd hd (hto c d)
  settled _ _ := by rw [hhead, hlogged]; exact h.settled hfrom.1 hfrom.2
  called := by rw [hcalled, hslots]; exact h.called
  truncated := htruncated
  closed hplace := (hexit hplace).1
  left hplace := by rw [hcalled, hlogged]; exact (hexit hplace).2

/-- What became of the next delta. -/
theorem log {x : Option Entry} {d : DeltaMessage} {arenaMem : Bytes} (h : Taken n s)
    (htail : t.tail = s.tail) (hslots : t.slots = s.slots) (hlogged : t.logged = s.logged ++ [x])
    (hcalled : t.called = s.called) (htruncated : t.truncated = s.truncated)
    (hhead : t.head = s.logged.length + 1) (hto : ∀ c d, t.place ≠ .holding c d)
    (hopen : t.place ≠ .exited ∧ t.place ≠ .joined) (hlen : arenaMem.length = n)
    (hd : s.slots s.logged.length = .stored d)
    (hx : x = if d.Accepted arenaMem then d.entry arenaMem else none) : Taken n t where
  fresh := by rw [htail, hslots]; exact h.fresh
  pushable := by rw [hslots]; exact h.pushable
  taken i y hy := by
    rw [hlogged, List.getElem?_append] at hy
    rw [hslots]
    split_ifs at hy with hi
    · exact h.taken i y hy
    · have hzero : i = s.logged.length := by
        have := (List.getElem?_eq_some_iff.mp hy).1
        simp only [List.length_singleton] at this
        omega
      subst hzero
      rw [Nat.sub_self, List.getElem?_cons_zero] at hy
      exact ⟨d, arenaMem, hlen, hd, by rw [← Option.some.inj hy, hx]⟩
  held c d hd := absurd hd (hto c d)
  settled _ _ := by rw [hhead, hlogged, List.length_append, List.length_singleton]
  called := by rw [hcalled, hslots]; exact h.called
  truncated := by
    rw [htruncated, hlogged, List.length_append]
    exact Nat.le_add_right_of_le h.truncated
  closed hplace := absurd hplace (by simp [hopen])
  left hplace := absurd hplace (by simp [hopen])

end Taken

theorem head_advance {t : System} (h : s.wal.ring.isSome) (ht : t.wal = advanceHead s.wal) :
    t.head = s.head + 1 := by
  rw [System.head, System.counters, ht, counters_advanceHead h]
  rfl

theorem not_accepted_of_fail {d : DeltaMessage} {arenaMem : Bytes} {e : WalError} (h : s.wal.Healthy)
    (hroom : s.wal.sector.length < sectorPayload) (hw : processDelta d arenaMem s.wal = .fail e w) :
    ¬ d.Accepted arenaMem ∧ w = s.wal := by
  have hd : ¬ d.Accepted arenaMem := by
    intro hd
    obtain ⟨w', hw', -⟩ := processDelta_healthy h hroom hd
    rw [hw'] at hw
    cases hw
  rw [processDelta_eq, if_neg hd] at hw
  obtain ⟨-, rfl⟩ := Outcome.fail.inj hw
  exact ⟨hd, rfl⟩

/-- The position of the next delta to log. -/
theorem Taken.step (h : Taken n s) (hc : s.place = .joined ∨ Counted s) (hok : Drains n s a)
    (hstep : Step (Pushable n) n s a t) : Taken n t := by
  cases hstep with
  | reserve hpushed => exact h.reserve hpushed
  | store hd => exact h.store hd
  | stop hrunning =>
    have hopen : ¬ (s.place = .exited ∨ s.place = .joined) := by
      intro hplace
      rw [h.closed hplace] at hrunning
      cases hrunning
    refine ⟨h.fresh, h.pushable, h.taken, h.held, h.settled, fun slots i d hcalled hd ↦ ?_, h.truncated,
      fun hplace ↦ absurd hplace hopen, fun hplace ↦ absurd hplace hopen⟩
    rw [← Option.some.inj hcalled] at hd
    exact hd
  | @leave idled hplace hrunning =>
    refine h.move rfl rfl rfl rfl rfl (by simp [hplace]) (by simp) h.truncated fun _ ↦
      ⟨hrunning, fun slots i d hcalled hd hleaves ↦ ?_⟩
    have hhead := h.settled (by simp [hplace]) (by simp [hplace])
    by_contra hge
    exact hok slots hcalled i d (by omega) hd hleaves
  | enter hplace | throttled hplace | snapshot hplace | abandon hplace =>
    exact h.move rfl rfl rfl rfl rfl (by simp [hplace]) (by simp) h.truncated (by simp)
  | publish hplace =>
    exact h.move rfl rfl rfl rfl rfl (by simp [hplace]) (by simp) le_rfl (by simp)
  | pop hplace _ hd htag =>
    have hcounted := hc.resolve_left (by simp [hplace])
    have hhead := h.settled (by simp [hplace]) (by simp [hplace])
    refine ⟨h.fresh, h.pushable, h.taken, fun c' d' hd' ↦ ?_, fun hnot ↦ absurd rfl (hnot _ _), h.called,
      h.truncated, by simp, by simp⟩
    cases hd'
    refine ⟨?_, hhead ▸ hd⟩
    rw [head_advance hcounted.ring rfl, hhead]
  | @popCheckpoint c d hplace _ hd htag =>
    have hcounted := hc.resolve_left (by simp [hplace])
    have hhead := h.settled (by simp [hplace]) (by simp [hplace])
    refine h.log rfl rfl rfl rfl rfl ?_ (by simp) (by simp) (length_zeros n) (hhead ▸ hd) ?_
    · rw [head_advance hcounted.ring rfl, hhead]
    · have hentry : d.entry (zeros n) = none := by
        unfold DeltaMessage.entry
        rw [htag]
        rfl
      rw [hentry, ite_self]
  | @accept c d arenaMem w hplace hlen hw =>
    have hcounted := hc.resolve_left (by simp [hplace])
    have hpub := (Publishes.processDelta d arenaMem hcounted.healthy hcounted.room).1
    rw [hw, Outcome.state_ok] at hpub
    obtain ⟨hhead, hd⟩ := h.held c d hplace
    refine h.log rfl rfl rfl rfl rfl ?_ (by cases c <;> simp [Caller.next])
      (by cases c <;> simp [Caller.next]) hlen hd (if_pos (accepted_of_processDelta hw)).symm
    exact hpub.head.trans hhead
  | @refuse c d arenaMem e w hplace hlen hw =>
    have hcounted := hc.resolve_left (by simp [hplace])
    obtain ⟨hnot, rfl⟩ := not_accepted_of_fail hcounted.healthy hcounted.room hw
    obtain ⟨hhead, hd⟩ := h.held c d hplace
    exact h.log rfl rfl rfl rfl rfl hhead (by cases c <;> simp [Caller.next])
      (by cases c <;> simp [Caller.next]) hlen hd (if_neg hnot).symm
  | idle hplace =>
    have hcounted := hc.resolve_left (by simp [hplace])
    obtain ⟨w, hw, hpub⟩ := Publishes.flushBufferWith hcounted.healthy false
    rw [flushIfUnambiguous, hw, Outcome.state_ok]
    exact h.move rfl rfl rfl rfl hpub.head (by simp [hplace]) (by simp) h.truncated (by simp)
  | @drained c hplace =>
    have hcounted := hc.resolve_left (by simp [hplace])
    obtain ⟨w, hw, hpub⟩ := Publishes.flushBufferWith hcounted.healthy true
    rw [flushBuffer, hw, Outcome.state_ok]
    refine h.move rfl rfl rfl rfl hpub.head (by simp [hplace]) ?_ h.truncated ?_ <;>
      cases c <;> simp [Caller.flushed]
  | join hplace =>
    refine ⟨h.fresh, h.pushable, h.taken, by simp, by simp, h.called, h.truncated,
      fun _ ↦ h.closed (.inl hplace), fun _ ↦ h.left (.inl hplace)⟩

theorem records_append {x : Option Entry} (hlogged : t.logged = s.logged ++ [x])
    (htruncated : t.truncated = s.truncated) (hle : s.truncated.getD 0 ≤ s.logged.length) :
    t.records = s.records ++ x.toList := by
  rw [System.records, System.records, hlogged, htruncated, List.drop_append_of_le_length hle,
    List.reduceOption_append]
  cases x <;> rfl

theorem logs_advanceHead {base : Bytes} {log : List Entry} (h : Logs base log w) :
    Logs base log (advanceHead w) :=
  ⟨h.framed, h.stream, h.room, h.healthy, h.opened⟩

theorem ended_advanceHead {base : Bytes} {log : List Entry} (h : Ended base log w) :
    Ended base log (advanceHead w) :=
  ⟨h.framed, h.stream, h.empty, h.healthy, h.opened⟩

theorem logs_truncateLog (fails : ℕ → Bool) {base : Bytes} {log : List Entry}
    (h : Logs base log w ∨ Ended base log w) : Logs [] [] (truncateLog fails w) where
  framed := ⟨[], [], [], rfl, .nil rfl, rfl⟩
  stream := rfl
  room := by show 0 < sectorPayload; decide
  healthy := h.elim Logs.healthy Ended.healthy
  opened := h.elim Logs.opened Ended.opened

/-- A flush keeps the log, and may end it with a short padding. -/
theorem framing_flush {base : Bytes} {log : List Entry} (h : Logs base log w ∨ Ended base log w)
    (force : Bool) : ∃ w', flushBufferWith force w = .ok w' ∧ (Logs base log w' ∨ Ended base log w') ∧
      (force = true → w'.sector = []) := by
  rcases h with h | h
  · rw [flushBufferWith_healthy h.healthy]
    refine ⟨_, rfl, ?_⟩
    split_ifs with hkeep
    · exact ⟨.inl h, fun hforce ↦ by simpa [hforce] using hkeep⟩
    · by_cases hslack : minPadding ≤ sectorPayload - w.sector.length
      · exact ⟨.inl (h.emit hslack), fun _ ↦ sector_emit w⟩
      · exact ⟨.inr h.emit_last, fun _ ↦ sector_emit w⟩
  · refine ⟨w, ?_, .inr h, fun _ ↦ h.empty⟩
    rw [flushBufferWith_healthy h.healthy, if_pos (.inl h.empty)]

/-- An accepted delta goes into the log behind what is there. -/
theorem framing_processDelta {base : Bytes} {log : List Entry} {d : DeltaMessage} {arenaMem : Bytes}
    (h : Logs base log w ∨ Ended base log w) {w' : WalManager}
    (hclear : ∀ e, d.entry arenaMem = some e → ClearTail w) (hw : processDelta d arenaMem w = .ok w') :
    Logs base (log ++ (d.entry arenaMem).toList) w' ∨ Ended base (log ++ (d.entry arenaMem).toList) w' := by
  have hd := accepted_of_processDelta hw
  cases he : d.entry arenaMem with
  | none =>
    rw [processDelta_eq, if_pos hd, he] at hw
    obtain rfl := Outcome.ok.inj hw
    rw [Option.toList_none, List.append_nil]
    exact h
  | some e =>
    have hlogs : Logs base log w := h.elim id fun hended ↦ logs_of_ended hended (hclear e he)
    obtain ⟨w'', hw'', happ⟩ := processDelta_healthy hlogs.healthy hlogs.room hd
    obtain rfl := Outcome.ok.inj (hw''.symm.trans hw)
    rw [he, Option.elim_some] at happ
    exact .inl (hlogs.appended (by simpa using happ))

theorem Framing.logged {x : Option Entry} (hs : Taken n s) (hlogged : t.logged = s.logged ++ [x])
    (htruncated : t.truncated = s.truncated)
    (h : Logs (s.base files) (s.records ++ x.toList) t.wal ∨
      Ended (s.base files) (s.records ++ x.toList) t.wal) : Framing t files := by
  have hbase : t.base files = s.base files := by rw [System.base, System.base, htruncated]
  rw [Framing, records_append hlogged htruncated hs.truncated, hbase]
  exact h

theorem Framing.step (h : Framing s files) (hs : Taken n s) (hc : s.place = .joined ∨ Counted s)
    (hok : Drains n s a) (hstep : Step (Pushable n) n s a t) (hopen : t.place ≠ .joined) :
    Framing t files := by
  cases hstep with
  | reserve | store | stop | enter | leave | throttled | snapshot | abandon => exact h
  | pop => exact h.imp logs_advanceHead ended_advanceHead
  | popCheckpoint =>
    refine .logged hs rfl rfl ?_
    rw [Option.toList_none, List.append_nil]
    exact h.imp logs_advanceHead ended_advanceHead
  | @accept c d arenaMem w hplace hlen hw =>
    exact .logged hs rfl rfl <| framing_processDelta h
      (fun e he ↦ hok c d hplace ⟨arenaMem, e, hlen, accepted_of_processDelta hw, he⟩) hw
  | @refuse c d arenaMem e w hplace hlen hw =>
    have hcounted := hc.resolve_left (by simp [hplace])
    obtain ⟨-, rfl⟩ := not_accepted_of_fail hcounted.healthy hcounted.room hw
    refine .logged hs rfl rfl ?_
    rw [Option.toList_none, List.append_nil]
    exact h
  | idle =>
    obtain ⟨w, hw, hflush, -⟩ := framing_flush h false
    rw [flushIfUnambiguous, hw, Outcome.state_ok]
    exact hflush
  | drained =>
    obtain ⟨w, hw, hflush, -⟩ := framing_flush h true
    rw [flushBuffer, hw, Outcome.state_ok]
    exact hflush
  | @publish fails =>
    have hrecords : System.records { s with
        place := .head false, wal := truncateLog fails s.wal, truncated := some s.logged.length } = [] := by
      rw [System.records, Option.getD_some, List.drop_length]
      rfl
    rw [Framing, hrecords]
    exact .inl (logs_truncateLog fails h)
  | join => exact absurd rfl hopen

theorem segmented_truncateLog {fails : ℕ → Bool} (hfails : ∀ i, fails i = false) (h : w.Segmented) :
    (truncateLog fails w).Segmented := by
  obtain rfl : fails = fun _ ↦ false := funext hfails
  obtain ⟨l, hl⟩ := h
  have hdense : ∀ i, (w.files.segments i).isSome ↔ i < l.segments.length := by
    intro i
    rw [hl.files, SectorFiles.files]
    simp
  refine ⟨⟨[], [], Nat.zero_le _⟩, ?_, rfl, rfl, rfl, by simp, fun _ ↦ by decide⟩
  show (w.files.deleteSegments fun _ ↦ false).truncate = _
  rw [LogFiles.deleteSegments_dense l.bounded hdense]
  rfl

theorem segmented_flush (h : w.Healthy) (hseg : w.Segmented) {force : Bool} {w' : WalManager}
    (hw : flushBufferWith force w = .ok w') : w'.Segmented := by
  rw [flushBufferWith_healthy h] at hw
  obtain rfl := Outcome.ok.inj hw
  split_ifs
  · exact hseg
  · exact hseg.emit

theorem segmented_processDelta {d : DeltaMessage} {arenaMem : Bytes} (h : w.Healthy)
    (hroom : w.sector.length < sectorPayload) (hseg : w.Segmented) {w' : WalManager}
    (hw : processDelta d arenaMem w = .ok w') : w'.Segmented := by
  obtain ⟨w'', hw'', happ⟩ := processDelta_healthy h hroom (accepted_of_processDelta hw)
  obtain rfl := Outcome.ok.inj (hw''.symm.trans hw)
  exact happ.segmented hseg

theorem segmented_step (hseg : s.wal.Segmented) (hc : s.place = .joined ∨ Counted s) (hok : Drains n s a)
    (hstep : Step (Pushable n) n s a t) (hopen : t.place ≠ .joined) : t.wal.Segmented := by
  cases hstep with
  | reserve | store | stop | enter | leave | throttled | snapshot | abandon => exact hseg
  | pop | popCheckpoint =>
    obtain ⟨l, hl⟩ := hseg
    exact ⟨l, hl.files, hl.flushed, hl.next, hl.bytes, hl.full, hl.room⟩
  | @accept c d arenaMem w hplace hlen hw =>
    have hcounted := hc.resolve_left (by simp [hplace])
    exact segmented_processDelta hcounted.healthy hcounted.room hseg hw
  | @refuse c d arenaMem e w hplace hlen hw =>
    have hcounted := hc.resolve_left (by simp [hplace])
    obtain ⟨-, rfl⟩ := not_accepted_of_fail hcounted.healthy hcounted.room hw
    exact hseg
  | idle hplace =>
    have hcounted := hc.resolve_left (by simp [hplace])
    obtain ⟨w, hw, -⟩ := Publishes.flushBufferWith hcounted.healthy false
    rw [flushIfUnambiguous, hw]
    exact segmented_flush hcounted.healthy hseg hw
  | drained hplace =>
    have hcounted := hc.resolve_left (by simp [hplace])
    obtain ⟨w, hw, -⟩ := Publishes.flushBufferWith hcounted.healthy true
    rw [flushBuffer, hw]
    exact segmented_flush hcounted.healthy hseg hw
  | publish => exact segmented_truncateLog hok hseg
  | join => exact absurd rfl hopen

theorem emit_phase (w : WalManager) (phase : Phase) :
    emit { w with phase := phase } = { w.emit with phase := phase } := by
  unfold emit
  dsimp only
  split_ifs <;> rfl

/-- The final flush, and the close behind it. -/
theorem shutdown_eq (h : w.Healthy) (hopen : w.phase = .opened) {w' : WalManager}
    (hw : flushBufferWith true w = .ok w') :
    w.shutdown = { w' with phase := .closed, sector := [], io := { w'.io with fdOpen := false } } := by
  have hclosing : Healthy { w with phase := .closing } := ⟨by simp, h.2⟩
  rw [flushBufferWith_healthy h] at hw
  obtain rfl := Outcome.ok.inj hw
  rw [WalManager.shutdown, if_pos hopen, flushBuffer_healthy hclosing, Outcome.state_ok]
  dsimp only
  by_cases hempty : w.sector = []
  · rw [if_pos hempty, if_pos (.inl hempty)]
  · rw [if_neg hempty, if_neg (by simp [hempty]), emit_phase]

/-- With an empty buffer, the log replays to all its records. -/
theorem writtenOut_of_framing {u : System} (hu : u.wal.sector = []) (hflushed : u.wal.flushed = w.flushed)
    (hstream : u.wal.stream = w.stream) (hfiles : u.wal.files = w.files) (hempty : w.sector = [])
    (hvalid : ∀ e ∈ u.records, e.Valid n)
    (h : Logs (u.base files) u.records w ∨ Ended (u.base files) u.records w)
    (hseg : files = LogFiles.empty → w.Segmented) : WrittenOut n files u := by
  have hwritten := written_of_sector_nil hempty u.records
  have hround : RoundTrip n (u.base files) u.records w :=
    h.elim (fun h ↦ h.roundTrip hvalid) (fun h ↦ h.roundTrip hvalid)
  have hframed : ∃ r todo, u.records = u.records ++ todo ∧ Framed [] w.flushed u.records r todo := by
    rcases h with h | h
    · obtain ⟨es, todo, q, hlog, hframed, hsector⟩ := h.framed
      have hes := written_of_framed hlog hframed hsector
      rw [hwritten] at hes
      rw [← hes] at hlog hframed
      exact ⟨_, todo, hlog, hframed⟩
    · exact ⟨none, [], (List.append_nil _).symm, h.framed⟩
  refine ⟨written_of_sector_nil hu _, ?_, fun hfresh ↦ ?_⟩
  · obtain ⟨sectors, hsectors, hreplay⟩ := hround
    refine ⟨sectors, hstream.trans hsectors, ?_⟩
    rwa [written_of_sector_nil hu, ← hwritten]
  · obtain ⟨l, hl⟩ := hseg hfresh
    refine ⟨l, by rw [hfiles, hl.files], by rw [hflushed, hl.flushed], fun hsplit ↦ ?_⟩
    obtain ⟨r, todo, hlog, hframed⟩ := hframed
    rw [hl.flushed] at hframed
    obtain ⟨ess, live, hes, has, harchived, hcurrent⟩ :=
      exists_framedAs_files hframed (by rw [← hlog]; exact hvalid) hsplit
    refine ⟨by rw [harchived, hcurrent, hes], fun regions st hst ↦ ?_⟩
    rw [harchived, hcurrent]
    exact ⟨(replayWal_files regions has hst).1, (replayWal_files regions has hst).2.1⟩

theorem Taken.valid (h : Taken n s) : ∀ e ∈ s.records, e.Valid n := by
  intro e he
  rw [System.records, List.reduceOption_mem_iff] at he
  obtain ⟨i, hi⟩ := List.mem_iff_getElem?.mp (List.mem_of_mem_drop he)
  obtain ⟨d, arenaMem, hlen, hd, hx⟩ := h.taken i _ hi
  split_ifs at hx with haccepted
  rcases h.pushable i d (.inr hd) with hclient | hcheckpoint
  · have hvalid := DeltaMessage.entry_valid haccepted hx.symm hclient.pos
      (by rw [hlen]; exact hclient.inside)
    rwa [hlen] at hvalid
  · rw [DeltaMessage.entry, hcheckpoint] at hx
    cases hx

theorem Taken.logged (h : Taken n s) (hplace : s.place = .joined) : ∀ slots i d,
    s.called = some slots → slots i = .stored d → LeavesRecord n d →
    ∃ arenaMem e, d.entry arenaMem = some e ∧ s.logged[i]? = some (some e) ∧
      (s.truncated.getD 0 ≤ i → e ∈ s.records) := by
  intro slots i d hcalled hd hleaves
  have hlt := h.left (.inr hplace) slots i d hcalled hd hleaves
  obtain ⟨x, hx⟩ := Option.isSome_iff_exists.mp (show s.logged[i]?.isSome by simpa using hlt)
  obtain ⟨d', arenaMem, hlen, hd', rfl⟩ := h.taken i x hx
  obtain rfl : d' = d := by
    have hsame := hd'.symm.trans (h.called slots i d hcalled hd)
    cases hsame
    rfl
  obtain ⟨haccepted, e, he⟩ := hleaves.of_length hlen
  rw [if_pos haccepted, he] at hx
  refine ⟨arenaMem, e, he, hx, fun hi ↦ ?_⟩
  rw [System.records, List.reduceOption_mem_iff, List.mem_iff_getElem?]
  refine ⟨i - s.truncated.getD 0, ?_⟩
  rw [List.getElem?_drop, Nat.add_sub_cancel' hi, hx]

/-- What a guarded run keeps up to the end of `shutdown`. -/
structure Draining (n : ℕ) (files : LogFiles UInt8) (s : System) : Prop where
  counted : s.place = .joined ∨ Counted s
  taken : Taken n s
  framing : s.place ≠ .joined → Framing s files
  segmented : files = LogFiles.empty → s.place ≠ .joined → s.wal.Segmented
  written : s.place = .joined → WrittenOut n files s

theorem draining_start (capacity : ℕ) (files : LogFiles UInt8) :
    Draining n files (System.start capacity files) where
  counted := .inr (counted_start capacity files)
  taken := {
    fresh := fun _ _ ↦ rfl
    pushable := by simp [System.start]
    taken := by simp [System.start]
    held := by simp [System.start]
    settled := fun _ _ ↦ rfl
    called := by simp [System.start]
    truncated := le_rfl
    closed := by simp [System.start]
    left := by simp [System.start] }
  framing _ := by
    have h := logs_init files
    exact .inl ⟨h.framed, h.stream, h.room, h.healthy, h.opened⟩
  segmented hfresh _ := by
    obtain ⟨l, hl⟩ := segmented_init
    rw [hfresh]
    exact ⟨l, hl.files, hl.flushed, hl.next, hl.bytes, hl.full, hl.room⟩
  written hplace := by cases hplace

theorem Draining.step (h : Draining n files s) (hok : Drains n s a)
    (hstep : Step (Pushable n) n s a t) : Draining n files t := by
  have htaken := h.taken.step h.counted hok hstep
  by_cases hplace : s.place = .joined
  · have hjoined := joined_step hplace hstep
    have hwritten := h.written hplace
    refine ⟨.inl hjoined, htaken, fun hopen ↦ absurd hjoined hopen, fun _ hopen ↦ absurd hjoined hopen,
      fun _ ↦ ?_⟩
    cases hstep with
    | reserve | store | stop => exact ⟨hwritten.written, hwritten.roundTrip, hwritten.replay⟩
    | enter hnot | leave hnot | pop hnot | popCheckpoint hnot | accept hnot | refuse hnot | idle hnot
    | drained hnot | throttled hnot | snapshot hnot | abandon hnot | publish hnot | join hnot =>
      rw [hplace] at hnot
      cases hnot
  have hcounted := h.counted.resolve_left hplace
  have hframing := h.framing hplace
  refine ⟨hcounted.step hstep, htaken,
    fun hopen ↦ hframing.step h.taken h.counted hok hstep hopen,
    fun hfresh hopen ↦ segmented_step (h.segmented hfresh hplace) h.counted hok hstep hopen,
    fun hjoined ↦ ?_⟩
  cases hstep with
  | join =>
    obtain ⟨w, hw, hflush, hempty⟩ := framing_flush hframing true
    have hopened : s.wal.phase = .opened := hframing.elim Logs.opened Ended.opened
    have hdone := shutdown_eq hcounted.healthy hopened hw
    refine writtenOut_of_framing (w := w) ?_ ?_ ?_ ?_ (hempty rfl) h.taken.valid hflush
      fun hfresh ↦ segmented_flush hcounted.healthy (h.segmented hfresh hplace) hw
    all_goals
      show _ = _
      rw [System.withWal, hdone]
    all_goals rfl
  | reserve | store | stop => exact absurd hjoined hplace
  | enter | leave | pop | popCheckpoint | idle | throttled | snapshot | abandon | publish => cases hjoined
  | @accept c | @refuse c => cases c <;> cases hjoined
  | @drained c => cases c <;> cases hflush : flushBuffer s.wal <;> rw [hflush] at hjoined <;> cases hjoined

/-- In every run in which the flusher leaves its loop only when the ring
holds nothing of what was pushed before the call, and no record is logged
behind an ambiguous padding, `shutdown` drains the ring. -/
theorem drained_of_drains (n capacity : ℕ) (files : LogFiles UInt8) (s : System)
    (h : Run (Step (Pushable n) n) (Drains n) (System.start capacity files) s)
    (hjoined : s.place = .joined) : Drained n files s := by
  have hs : Draining n files s := h.invariant (Draining n files)
    (fun _ _ _ hinv hok hstep ↦ hinv.step hok hstep) (draining_start capacity files)
  have hwritten := hs.written hjoined
  exact ⟨hwritten, hs.taken.logged hjoined⟩

/-- A record that is in the buffer when `shutdown` is called. -/
theorem drained_smallDelta : ∃ s,
    Run (Step (Pushable 65536) 65536) (Drains 65536) (System.start 16 LogFiles.empty) s ∧
      s.place = .joined ∧ s.records = [smallEntry] ∧ Drained 65536 LogFiles.empty s := by
  obtain ⟨hsmall, hentry, hlen⟩ := smallDelta_logs
  have hclient : FromClient 65536 smallDelta := ⟨by decide, by decide, .inl ⟨rfl, by decide⟩⟩
  have hheld : Run (Step (Pushable 65536) 65536) (Drains 65536) (System.start 16 LogFiles.empty) _ :=
    run_firstHeld (.inl hclient) (by decide) (by decide) (fun _ ↦ ⟨trivial, trivial, trivial, trivial⟩)
  have hs := hheld.invariant (Draining 65536 LogFiles.empty)
    (fun _ _ _ hinv hok hstep ↦ hinv.step hok hstep) (draining_start 16 LogFiles.empty)
  have hcounted := hs.counted.resolve_left (by simp [firstHeld])
  obtain ⟨w, hw, -⟩ := run_delta_of_room hcounted.healthy hsmall hentry (by rw [hlen]; decide)
  replace hw : processDelta smallDelta blankArena (firstHeld 16 LogFiles.empty smallDelta).wal = .ok w := hw
  have hpub := (Publishes.processDelta smallDelta blankArena hcounted.healthy hcounted.room).1
  rw [hw, Outcome.state_ok] at hpub
  have hlogged := hheld.tail (show Drains 65536 _ (.process blankArena) from fun _ _ _ _ c hc ↦ by cases hc)
    (.accept rfl (length_zeros _) hw)
  have hstopped := hlogged.tail (show Drains 65536 _ .stop from trivial) (.stop rfl)
  have hleft := hstopped.tail (a := .leave) (by
    intro slots hcalled i d hi hd
    cases hcalled
    replace hi : (w.ring.getD ⟨0, 0⟩).head ≤ i := hi
    rw [hpub.head] at hi
    replace hi : 1 ≤ i := hi
    replace hd : Function.update (Function.update (fun _ ↦ Slot.free) 0 (.reserved smallDelta)) 0
      (.stored smallDelta) i = .stored d := hd
    rw [Function.update_of_ne (by omega), Function.update_of_ne (by omega)] at hd
    cases hd) (.leave rfl rfl)
  have hjoined := hleft.tail (show Drains 65536 _ .join from trivial) (.join rfl)
  exact ⟨_, hjoined, rfl, rfl, drained_of_drains 65536 16 LogFiles.empty _ hjoined rfl⟩

/-- The flusher reads the flag before it looks at the ring, and leaves the
delta there. -/
theorem pushedDelta_not_drained : ∃ s,
    Run (Step (Pushable 65536) 65536) (fun _ _ ↦ True) (System.start 16 LogFiles.empty) s ∧
      s.place = .joined ∧ ¬ Drained 65536 LogFiles.empty s := by
  obtain ⟨hsmall, hentry, -⟩ := smallDelta_logs
  have hclient : FromClient 65536 smallDelta := ⟨by decide, by decide, .inl ⟨rfl, by decide⟩⟩
  have hreserved : Run (Step (Pushable 65536) 65536) (fun _ _ ↦ True) (System.start 16 LogFiles.empty) _ :=
    (Run.refl _).tail trivial (.reserve (d := smallDelta) (.inl hclient) (by decide))
  have hstored := hreserved.tail trivial (.store (i := 0) rfl)
  have hstopped := hstored.tail trivial (.stop rfl)
  have hleft := hstopped.tail trivial (.leave rfl rfl)
  have hjoined := hleft.tail trivial (.join rfl)
  refine ⟨_, hjoined, rfl, fun hdrained ↦ ?_⟩
  obtain ⟨mem, e, -, hlogged, -⟩ := hdrained.logged _ 0 smallDelta rfl rfl
    ⟨blankArena, smallEntry, length_zeros _, hsmall.2.1, hentry⟩
  cases hlogged

end TakyonDb.FlusherLoop
