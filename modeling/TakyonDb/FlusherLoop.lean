import TakyonDb.Barrier

namespace TakyonDb.FlusherLoop

open Lib Wal WalManager Barrier

abbrev drainLimit : ℕ := 1000000

/-- The loops that pop: the flusher's own, the drain of a checkpoint, and
the drain of `createSnapshot`, with the deltas it has counted. -/
inductive Caller
  | loop
  | checkpoint
  | snapshot (drained : ℕ)
deriving DecidableEq

/-- Where the flusher thread is. An idle pass ends at the head of the loop. -/
inductive Place
  | head (idled : Bool)
  | popping (c : Caller)
  | holding (c : Caller) (d : DeltaMessage)
  | throttle
  | saving
  | exited
  | joined

/-- Where a drain goes on when a popped delta has been processed. -/
def Caller.next : Caller → Place
  | .loop => .head false
  | .checkpoint => .popping .checkpoint
  | .snapshot drained => .popping (.snapshot (drained + 1))

/-- Where it goes on when it has flushed the buffer behind the last delta. -/
def Caller.flushed : Caller → Outcome WalError WalManager → Place
  | .snapshot _, .ok _ => .saving
  | .snapshot _, .fail _ _ => .head false
  | .checkpoint, _ | .loop, _ => .throttle

/-- The drain of `createSnapshot` stops behind its limit. -/
def Caller.exhausted : Caller → Bool
  | .loop | .checkpoint => false
  | .snapshot drained => drainLimit < drained

/-- The producers, the ring and the flusher thread. The last four fields are
history variables: the record of every delta popped so far, how many were
popped since the last sector was written, how many had been popped when the
log was last truncated, if it was, and the slots when `shutdown` was called. -/
structure System where
  capacity : ℕ
  tail : ℕ
  slots : ℕ → Slot
  place : Place
  running : Bool
  wal : WalManager
  dropped : ℕ
  logged : List (Option Entry)
  sinceSector : ℕ
  truncated : Option ℕ
  called : Option (ℕ → Slot)

namespace System

def counters (s : System) : RingCounters := s.wal.ring.getD ⟨0, 0⟩

def head (s : System) : ℕ := s.counters.head

def durableTail (s : System) : ℕ := s.counters.durableTail

def start (capacity : ℕ) (files : LogFiles UInt8) : System where
  capacity
  tail := 0
  slots := fun _ ↦ .free
  place := .head false
  running := true
  wal := { init files with ring := some ⟨0, 0⟩ }
  dropped := 0
  logged := []
  sinceSector := 0
  truncated := none
  called := none

/-- The manager's new state, and whether it wrote a sector to get there. -/
def withWal (s : System) (w : WalManager) : System :=
  { s with wal := w, sinceSector := if w.flushed = s.wal.flushed then s.sinceSector else 0 }

end System

/-- The end of `createSnapshot`: the segments are deleted, where `fails`
says which of these calls fail, and the live file starts again. -/
def truncateLog (fails : ℕ → Bool) (w : WalManager) : WalManager :=
  { w with
    files := (w.files.deleteSegments fails).truncate, sector := [], bytesWritten := 0, nextSegment := 0
    flushed := [] }

inductive Event
  | reserve (d : DeltaMessage)
  | store (i : ℕ)
  | stop
  | enter
  | leave
  | pop
  | process (arenaMem : Bytes)
  | idle
  | drained
  | throttled
  | snapshot
  | abandon
  | publish (fails : ℕ → Bool)
  | join

/-- One step of a producer, of the caller of `shutdown` or of the flusher,
over an arena of `n` bytes. Producers push the deltas of `pushed`. -/
inductive Step (pushed : DeltaMessage → Prop) (n : ℕ) : System → Event → System → Prop
  | reserve {s : System} {d : DeltaMessage} : pushed d → s.tail < s.head + s.capacity →
      Step pushed n s (.reserve d)
        { s with tail := s.tail + 1, slots := Function.update s.slots s.tail (.reserved d) }
  | store {s : System} {i : ℕ} {d : DeltaMessage} : s.slots i = .reserved d →
      Step pushed n s (.store i) { s with slots := Function.update s.slots i (.stored d) }
  | stop {s : System} : s.running = true →
      Step pushed n s .stop { s with running := false, called := some s.slots }
  | enter {s : System} {idled : Bool} : s.place = .head idled → s.running = true →
      Step pushed n s .enter { s with place := .popping .loop }
  | leave {s : System} {idled : Bool} : s.place = .head idled → s.running = false →
      Step pushed n s .leave { s with place := .exited }
  | pop {s : System} {c : Caller} {d : DeltaMessage} : s.place = .popping c → c.exhausted = false →
      s.slots s.head = .stored d → d.isArena ≠ deltaCheckpoint →
      Step pushed n s .pop { s with
        place := .holding c d, wal := advanceHead s.wal, sinceSector := s.sinceSector + 1 }
  | popCheckpoint {s : System} {c : Caller} {d : DeltaMessage} : s.place = .popping c →
      c.exhausted = false → s.slots s.head = .stored d → d.isArena = deltaCheckpoint →
      Step pushed n s .pop { s with
        place := .popping (if c = .loop then .checkpoint else c), wal := advanceHead s.wal
        sinceSector := s.sinceSector + 1, logged := s.logged ++ [none] }
  | accept {s : System} {c : Caller} {d : DeltaMessage} {arenaMem : Bytes} {w : WalManager} :
      s.place = .holding c d → arenaMem.length = n → processDelta d arenaMem s.wal = .ok w →
      Step pushed n s (.process arenaMem)
        { s.withWal w with place := c.next, logged := s.logged ++ [d.entry arenaMem] }
  | refuse {s : System} {c : Caller} {d : DeltaMessage} {arenaMem : Bytes} {e : WalError}
      {w : WalManager} : s.place = .holding c d → arenaMem.length = n →
      processDelta d arenaMem s.wal = .fail e w →
      Step pushed n s (.process arenaMem)
        { s.withWal w with
          place := c.next, logged := s.logged ++ [none]
          dropped := match c with
            | .loop | .checkpoint => s.dropped + 1
            | .snapshot _ => s.dropped }
  | idle {s : System} : s.place = .popping .loop → (∀ d, s.slots s.head ≠ .stored d) →
      Step pushed n s .idle { s.withWal (flushIfUnambiguous s.wal).state with place := .head true }
  | drained {s : System} {c : Caller} : s.place = .popping c → c ≠ .loop →
      (c.exhausted = true ∨ ∀ d, s.slots s.head ≠ .stored d) →
      Step pushed n s .drained
        { s.withWal (flushBuffer s.wal).state with place := c.flushed (flushBuffer s.wal) }
  | throttled {s : System} : s.place = .throttle →
      Step pushed n s .throttled { s with place := .head false }
  | snapshot {s : System} : s.place = .throttle →
      Step pushed n s .snapshot { s with place := .popping (.snapshot 0) }
  | abandon {s : System} : s.place = .saving → Step pushed n s .abandon { s with place := .head false }
  | publish {s : System} {fails : ℕ → Bool} : s.place = .saving →
      Step pushed n s (.publish fails)
        { s with place := .head false, wal := truncateLog fails s.wal, truncated := some s.logged.length }
  | join {s : System} : s.place = .exited →
      Step pushed n s .join { s.withWal s.wal.shutdown with place := .joined }

/-- What an idle pass has to find: nothing was taken since the last sector
was written, or the buffer holds bytes and can be padded. -/
def Settles (s : System) : Event → Prop
  | .idle => s.sinceSector = 0 ∨
      s.wal.sector ≠ [] ∧ minPadding ≤ sectorPayload - s.wal.sector.length
  | _ => True

/-- The ring is empty behind an idle pass, so all that was pushed is durable. -/
def AtRest (s : System) : Prop := s.place = .head true → s.head = s.tail → s.durableTail = s.tail

/-- A step of the manager that publishes the position it has popped exactly
when it writes a sector. -/
def Publishes (w w' : WalManager) : Prop :=
  w'.flushed = w.flushed ∧ w'.ring = w.ring ∨
    w.flushed.length < w'.flushed.length ∧ w'.ring = w.ring.map RingCounters.publishDurable

namespace Publishes

variable {w w' w'' : WalManager}

theorem refl (w : WalManager) : Publishes w w := .inl ⟨rfl, rfl⟩

theorem publishDurable_idem (r : Option RingCounters) :
    (r.map RingCounters.publishDurable).map RingCounters.publishDurable =
      r.map RingCounters.publishDurable := by
  cases r with
  | none => rfl
  | some r => simp [RingCounters.publishDurable]

theorem trans (h : Publishes w w') (h' : Publishes w' w'') : Publishes w w'' := by
  rcases h with ⟨hflushed, hring⟩ | ⟨hflushed, hring⟩ <;>
    rcases h' with ⟨hflushed', hring'⟩ | ⟨hflushed', hring'⟩
  · exact .inl ⟨hflushed'.trans hflushed, hring'.trans hring⟩
  · exact .inr ⟨hflushed ▸ hflushed', hring ▸ hring'⟩
  · exact .inr ⟨hflushed' ▸ hflushed, hring'.trans hring⟩
  · exact .inr ⟨hflushed.trans hflushed', by rw [hring', hring, publishDurable_idem]⟩

theorem emit (w : WalManager) : Publishes w w.emit :=
  .inr ⟨by rw [flushed_emit, List.length_append]; exact Nat.lt_succ_self _, ring_emit w⟩

theorem buffer (w : WalManager) (bytes : Bytes) : Publishes w { w with sector := bytes } :=
  .inl ⟨rfl, rfl⟩

theorem writeLoop {fuel : ℕ} {bytes : Bytes} (h : w.Healthy) (hroom : w.sector.length < sectorPayload)
    (hrun : WalManager.writeLoop fuel bytes w = .ok w') : Publishes w w' := by
  induction fuel generalizing w bytes with
  | zero =>
    cases bytes with
    | nil => exact Outcome.ok.inj hrun ▸ refl w
    | cons b bs => cases hrun
  | succ fuel ih =>
    cases bytes with
    | nil => exact Outcome.ok.inj hrun ▸ refl w
    | cons b bs =>
      rw [WalManager.writeLoop, writeChunk_healthy h hroom] at hrun
      split_ifs at hrun with hfits
      · have happ := appended_buffer h hfits
        exact (buffer w _).trans (ih happ.healthy happ.room hrun)
      · generalize hn : sectorPayload - w.sector.length = k at hrun
        have hfull : (w.sector ++ (b :: bs).take k).length = sectorPayload := by
          rw [List.length_append, List.length_take]
          omega
        have happ := appended_full h hfull
        exact ((buffer w _).trans (emit _)).trans (ih happ.healthy happ.room hrun)

theorem writeEntry {e : Entry} (h : w.Healthy) (hroom : w.sector.length < sectorPayload)
    (hrun : WalManager.writeEntry e w = .ok w') : Publishes w w' := by
  obtain ⟨u, hu, happ⟩ := writeToBuffer_healthy h hroom e.header.toBytes
  rw [WalManager.writeEntry, hu, Outcome.ok_andThen] at hrun
  exact (writeLoop h hroom hu).trans (writeLoop happ.healthy happ.room hrun)

theorem flushBufferWith (h : w.Healthy) (force : Bool) :
    ∃ w', WalManager.flushBufferWith force w = .ok w' ∧ Publishes w w' := by
  rw [flushBufferWith_healthy h]
  refine ⟨_, rfl, ?_⟩
  split_ifs
  · exact refl w
  · exact emit w

/-- A popped delta is logged, or refused with nothing changed. -/
theorem processDelta (d : DeltaMessage) (arenaMem : Bytes) (h : w.Healthy)
    (hroom : w.sector.length < sectorPayload) :
    Publishes w (WalManager.processDelta d arenaMem w).state ∧
      (WalManager.processDelta d arenaMem w).state.Healthy ∧
      (WalManager.processDelta d arenaMem w).state.sector.length < sectorPayload := by
  by_cases hd : d.Accepted arenaMem
  · obtain ⟨w', hw', happ⟩ := processDelta_healthy h hroom hd
    rw [hw', Outcome.state_ok]
    refine ⟨?_, happ.healthy, happ.room⟩
    rw [processDelta_eq, if_pos hd] at hw'
    cases he : d.entry arenaMem with
    | none =>
      rw [he] at hw'
      exact Outcome.ok.inj hw' ▸ refl w
    | some e =>
      rw [he] at hw'
      exact writeEntry h hroom hw'
  · rw [processDelta_eq, if_neg hd, Outcome.state_fail]
    exact ⟨refl w, h, hroom⟩

theorem head (h : Publishes w w') : (w'.ring.getD ⟨0, 0⟩).head = (w.ring.getD ⟨0, 0⟩).head := by
  rcases h with ⟨-, hring⟩ | ⟨-, hring⟩ <;> rw [hring]
  cases w.ring <;> rfl

end Publishes

/-- How far the ring, the log and the durable position have come. -/
structure Counted (s : System) : Prop where
  healthy : s.wal.Healthy
  room : s.wal.sector.length < sectorPayload
  ring : s.wal.ring.isSome
  fresh : ∀ i, s.tail ≤ i → s.slots i = .free
  head_le : s.head ≤ s.tail
  published : s.durableTail + s.sinceSector = s.head

variable {pushed : DeltaMessage → Prop} {n : ℕ} {s t : System} {a : Event}

theorem counted_start (capacity : ℕ) (files : LogFiles UInt8) :
    Counted (System.start capacity files) where
  healthy := (logs_init files).healthy
  room := by simp [System.start, init, sectorPayload]
  ring := rfl
  fresh _ _ := rfl
  head_le := le_rfl
  published := rfl

namespace Counted

theorem congr (h : Counted s) (htail : t.tail = s.tail) (hslots : t.slots = s.slots)
    (hwal : t.wal = s.wal) (hsince : t.sinceSector = s.sinceSector) : Counted t := by
  have hcounters : t.counters = s.counters := congrArg (fun w ↦ w.ring.getD ⟨0, 0⟩) hwal
  obtain ⟨healthy, room, ring, fresh, head_le, published⟩ := h
  rw [System.head] at head_le published
  rw [System.durableTail] at published
  refine ⟨by rwa [hwal], by rwa [hwal], by rwa [hwal], by rwa [htail, hslots], ?_, ?_⟩
  · rwa [System.head, hcounters, htail]
  · rwa [System.durableTail, System.head, hcounters, hsince]

/-- Taking a delta moves the ring's head away from the durable position. -/
theorem advance {d : DeltaMessage} (h : Counted s) (hd : s.slots s.head = .stored d)
    (htail : t.tail = s.tail) (hslots : t.slots = s.slots) (hwal : t.wal = advanceHead s.wal)
    (hsince : t.sinceSector = s.sinceSector + 1) : Counted t := by
  have hcounters : t.counters = ⟨s.head + 1, s.durableTail⟩ := by
    rw [System.counters, hwal]
    exact counters_advanceHead h.ring
  have hlt : s.head < s.tail := by
    by_contra hge
    rw [h.fresh s.head (Nat.not_lt.mp hge)] at hd
    cases hd
  have hpublished := h.published
  refine ⟨?_, ?_, ?_, by rw [htail, hslots]; exact h.fresh, ?_, ?_⟩
  · rw [hwal]
    exact h.healthy
  · rw [hwal]
    exact h.room
  · rw [hwal, advanceHead, Option.isSome_map]
    exact h.ring
  · rw [System.head, hcounters, htail]
    exact hlt
  · rw [System.durableTail, System.head, hcounters, hsince]
    dsimp only
    omega

/-- Writing a sector brings the durable position to the ring's head. -/
theorem written {w : WalManager} (h : Counted s) (hpub : Publishes s.wal w) (hhealthy : w.Healthy)
    (hroom : w.sector.length < sectorPayload) : Counted (s.withWal w) := by
  have hpublished := h.published
  obtain ⟨r, hr⟩ := Option.isSome_iff_exists.mp h.ring
  have hcounters : s.counters = r := by rw [System.counters, hr, Option.getD_some]
  have hhead : s.head = r.head := by rw [System.head, hcounters]
  have hdurable : s.durableTail = r.durableTail := by rw [System.durableTail, hcounters]
  have hle := h.head_le
  rcases hpub with ⟨hflushed, hring⟩ | ⟨hflushed, hring⟩
  · have hsame : (s.withWal w).counters = r := by
      rw [System.counters, System.withWal, hring, hr, Option.getD_some]
    have hsince : (s.withWal w).sinceSector = s.sinceSector := if_pos hflushed
    refine ⟨hhealthy, hroom, ?_, h.fresh, ?_, ?_⟩
    · show w.ring.isSome
      rw [hring]
      exact h.ring
    · rw [System.head, hsame, ← hhead]
      exact hle
    · rw [System.durableTail, System.head, hsame, hsince, ← hhead, ← hdurable]
      exact hpublished
  · have hnew : (s.withWal w).counters = r.publishDurable := by
      rw [System.counters, System.withWal, hring, hr, Option.map_some, Option.getD_some]
    have hsince : (s.withWal w).sinceSector = 0 := by
      refine if_neg fun hsame ↦ ?_
      rw [hsame] at hflushed
      exact lt_irrefl _ hflushed
    refine ⟨hhealthy, hroom, ?_, h.fresh, ?_, ?_⟩
    · show w.ring.isSome
      rw [hring, Option.isSome_map]
      exact h.ring
    · rw [System.head, hnew]
      exact hhead ▸ hle
    · rw [System.durableTail, System.head, hnew, hsince]
      show max r.durableTail r.head + 0 = r.head
      omega

/-- A flush, forced or not, of a manager without failing calls. -/
theorem flushed (h : Counted s) (force : Bool) :
    ∃ w, flushBufferWith force s.wal = .ok w ∧ Counted (s.withWal w) := by
  obtain ⟨w, hw, hpub⟩ := Publishes.flushBufferWith h.healthy force
  refine ⟨w, hw, h.written hpub ?_ ?_⟩ <;>
    rw [flushBufferWith_healthy h.healthy] at hw <;> obtain rfl := Outcome.ok.inj hw <;> split_ifs
  · exact h.healthy
  · exact emit_healthy h.healthy
  · exact h.room
  · rw [sector_emit]
    decide

theorem processed {d : DeltaMessage} {arenaMem : Bytes} (h : Counted s) :
    Counted (s.withWal (processDelta d arenaMem s.wal).state) := by
  obtain ⟨hpub, hhealthy, hroom⟩ := Publishes.processDelta d arenaMem h.healthy h.room
  exact h.written hpub hhealthy hroom

end Counted

/-- Every step keeps the counts, until the manager is closed. -/
theorem Counted.step (h : Counted s) (hstep : Step pushed n s a t) : t.place = .joined ∨ Counted t := by
  cases hstep with
  | reserve hpushed hroom =>
    refine .inr ⟨h.healthy, h.room, h.ring, fun i hi ↦ ?_, Nat.le_succ_of_le h.head_le, h.published⟩
    replace hi : s.tail + 1 ≤ i := hi
    exact (Function.update_of_ne (by omega) _ _).trans (h.fresh i (by omega))
  | @store i d hd =>
    refine .inr ⟨h.healthy, h.room, h.ring, fun j hj ↦ ?_, h.head_le, h.published⟩
    have hne : j ≠ i := by
      rintro rfl
      rw [h.fresh j hj] at hd
      cases hd
    exact (Function.update_of_ne hne _ _).trans (h.fresh j hj)
  | stop | enter | leave | throttled | snapshot | abandon => exact .inr (h.congr rfl rfl rfl rfl)
  | pop _ _ hd => exact .inr (h.advance hd rfl rfl rfl rfl)
  | popCheckpoint _ _ hd => exact .inr (h.advance hd rfl rfl rfl rfl)
  | @accept c d arenaMem w hplace hlen hw =>
    have hnext : Counted (s.withWal (processDelta d arenaMem s.wal).state) := h.processed
    rw [hw, Outcome.state_ok] at hnext
    exact .inr (hnext.congr rfl rfl rfl rfl)
  | @refuse c d arenaMem e w hplace hlen hw =>
    have hnext : Counted (s.withWal (processDelta d arenaMem s.wal).state) := h.processed
    rw [hw, Outcome.state_fail] at hnext
    exact .inr (hnext.congr rfl rfl rfl rfl)
  | idle =>
    obtain ⟨w, hw, hnext⟩ := h.flushed false
    rw [flushIfUnambiguous, hw, Outcome.state_ok]
    exact .inr (hnext.congr rfl rfl rfl rfl)
  | drained =>
    obtain ⟨w, hw, hnext⟩ := h.flushed true
    rw [flushBuffer, hw, Outcome.state_ok]
    exact .inr (hnext.congr rfl rfl rfl rfl)
  | publish =>
    refine .inr ⟨h.healthy, ?_, h.ring, h.fresh, h.head_le, h.published⟩
    show ([] : Bytes).length < sectorPayload
    decide
  | join => exact .inl rfl

/-- A closed manager takes no further step. -/
theorem joined_step (h : s.place = .joined) (hstep : Step pushed n s a t) : t.place = .joined := by
  cases hstep with
  | reserve | store | stop => exact h
  | enter hplace | leave hplace | pop hplace | popCheckpoint hplace | accept hplace
  | refuse hplace | idle hplace | drained hplace | throttled hplace | snapshot hplace
  | abandon hplace | publish hplace => rw [h] at hplace; cases hplace
  | join => rfl

/-- An idle pass settles exactly when it finds what it has to. -/
theorem idle_settles_iff (h : Counted s) (hstep : Step pushed n s .idle t) :
    t.durableTail = t.head ↔ Settles s .idle := by
  have hcounted : Counted t := by
    rcases h.step hstep with hjoined | hcounted
    · cases hstep
      cases hjoined
    · exact hcounted
  have hpublished := hcounted.published
  have hiff : t.sinceSector = 0 ↔ Settles s .idle := by
    cases hstep
    rw [Settles, System.withWal, flushIfUnambiguous, flushBufferWith_healthy h.healthy, Outcome.state_ok]
    dsimp only
    split_ifs with hkeep hsame hsame
    · constructor
      · exact .inl
      · rintro (hzero | ⟨hne, hslack⟩)
        · exact hzero
        · rcases hkeep with hnil | ⟨-, hshort⟩
          · exact absurd hnil hne
          · omega
    · exact absurd rfl hsame
    · rw [flushed_emit] at hsame
      have := congrArg List.length hsame
      simp at this
    · push Not at hkeep
      exact iff_of_true rfl (.inr ⟨hkeep.1, hkeep.2 rfl⟩)
  rw [← hiff]
  omega

/-- What the guard adds to the counts. -/
structure Settled (s : System) : Prop where
  counted : s.place = .joined ∨ Counted s
  idled : s.place = .head true → s.sinceSector = 0

theorem Settled.step (h : Settled s) (hok : Settles s a) (hstep : Step pushed n s a t) : Settled t := by
  rcases h.counted with hjoined | hcounted
  · have ht := joined_step hjoined hstep
    exact ⟨.inl ht, fun hidle ↦ by rw [ht] at hidle; cases hidle⟩
  refine ⟨hcounted.step hstep, fun hidle ↦ ?_⟩
  rcases hcounted.step hstep with hjoined | hnext
  · rw [hjoined] at hidle
    cases hidle
  cases hstep with
  | reserve | store | stop => exact h.idled hidle
  | enter | leave | pop | popCheckpoint | throttled | snapshot | abandon | publish | join => cases hidle
  | @accept c | @refuse c => cases c <;> cases hidle
  | @drained c hplace hc =>
    dsimp only at hidle
    cases c with
    | loop => exact absurd rfl hc
    | checkpoint => cases hidle
    | snapshot k => cases hflush : flushBuffer s.wal <;> rw [hflush] at hidle <;> cases hidle
  | idle hplace hempty =>
    have hidles : Step pushed n s .idle _ := .idle hplace hempty
    have hiff := (idle_settles_iff hcounted hidles).mpr hok
    have hpublished := hnext.published
    change System.durableTail _ = System.head _ at hiff
    omega

theorem settled_start (capacity : ℕ) (files : LogFiles UInt8) : Settled (System.start capacity files) :=
  ⟨.inr (counted_start capacity files), fun h ↦ by cases h⟩

/-- In every run whose idle passes find what they have to, an empty ring
behind an idle pass means that all of it is durable, and the first idle pass
that finds something else leaves the two positions apart. -/
theorem atRest_of_settles (pushed : DeltaMessage → Prop) (n capacity : ℕ) (files : LogFiles UInt8)
    (s : System) (h : Run (Step pushed n) Settles (System.start capacity files) s) :
    AtRest s ∧ ∀ t, Step pushed n s .idle t → t.head = t.tail →
      (t.durableTail = t.tail ↔ Settles s .idle) := by
  have hs : Settled s := h.invariant Settled (fun _ _ _ hinv hok hstep ↦ hinv.step hok hstep)
    (settled_start capacity files)
  constructor
  · intro hidle hempty
    rcases hs.counted with hjoined | hcounted
    · rw [hjoined] at hidle
      cases hidle
    · have hpublished := hcounted.published
      rw [hs.idled hidle] at hpublished
      omega
  · intro t hstep hempty
    rcases hs.counted with hjoined | hcounted
    · cases hstep with
      | idle hplace => rw [hjoined] at hplace; cases hplace
    · rw [← hempty]
      exact idle_settles_iff hcounted hstep

/-- What is pushed: the deltas of the write calls, and checkpoints. -/
def Pushable (n : ℕ) (d : DeltaMessage) : Prop := FromClient n d ∨ d.isArena = deltaCheckpoint

/-- The first delta was pushed and popped. -/
def firstHeld (capacity : ℕ) (files : LogFiles UInt8) (d : DeltaMessage) : System :=
  { System.start capacity files with
    tail := 1
    slots := Function.update (Function.update (fun _ ↦ .free) 0 (.reserved d)) 0 (.stored d)
    place := .holding .loop d
    wal := advanceHead { init files with ring := some ⟨0, 0⟩ }
    sinceSector := 1 }

theorem run_firstHeld {ok : System → Event → Prop} {capacity : ℕ} {files : LogFiles UInt8}
    {d : DeltaMessage} (hd : pushed d) (hcapacity : 0 < capacity) (htag : d.isArena ≠ deltaCheckpoint)
    (hok : ∀ u, ok u (.reserve d) ∧ ok u (.store 0) ∧ ok u .enter ∧ ok u .pop) :
    Run (Step pushed n) ok (System.start capacity files) (firstHeld capacity files d) := by
  have hroom : (System.start capacity files).tail <
      (System.start capacity files).head + (System.start capacity files).capacity :=
    (Nat.zero_add capacity).symm ▸ hcapacity
  have hreserved : Run (Step pushed n) ok (System.start capacity files) _ :=
    (Run.refl _).tail (hok _).1 (Step.reserve hd hroom)
  have hstored := hreserved.tail (hok _).2.1 (Step.store (d := d) rfl)
  have hentered := hstored.tail (hok _).2.2.1 (.enter rfl rfl)
  exact hentered.tail (hok _).2.2.2 (Step.pop (c := .loop) (d := d) rfl rfl rfl htag)

/-- An accepted delta that is held, logged, padded and written by the next
idle pass. -/
theorem run_settled {d : DeltaMessage} {arenaMem : Bytes} {e : Entry} (hs : Counted s)
    (hrun : s.running = true) (hplace : s.place = .holding .loop d)
    (hempty : ∀ d, s.slots s.head ≠ .stored d) (hd : (FlusherOp.delta d arenaMem).Acceptable n)
    (he : d.entry arenaMem = some e) (hsector : s.wal.sector = [])
    (hroom : e.encode.length + minPadding ≤ sectorPayload) :
    ∃ t, Run (Step pushed n) Settles s t ∧ t.place = .head true ∧ t.head = s.head ∧ t.tail = s.tail := by
  obtain ⟨w, hw, -, -, hbuffer, -⟩ := run_delta_of_room hs.healthy hd he
    (by rw [hsector, List.length_nil, Nat.zero_add, minPadding, headerSize] at *; omega)
  obtain ⟨hpub, hhealthy, -⟩ := Publishes.processDelta d arenaMem hs.healthy hs.room
  replace hw : processDelta d arenaMem s.wal = .ok w := hw
  rw [hw, Outcome.state_ok] at hpub hhealthy
  obtain ⟨w', hw', hflush⟩ := Publishes.flushBufferWith hhealthy false
  rw [hsector, List.nil_append] at hbuffer
  have hhead : ∀ place logged, System.head { s.withWal w with place := place, logged := logged } = s.head :=
    fun _ _ ↦ hpub.head
  have hlogged : Run (Step pushed n) Settles s _ :=
    (Run.refl s).tail (show Settles s (.process arenaMem) from trivial) (.accept hplace hd.1 hw)
  have hentered := hlogged.tail (show Settles _ .enter from trivial) (.enter rfl hrun)
  have hsettles : Settles { s.withWal w with
      place := .popping .loop, logged := s.logged ++ [d.entry arenaMem] } .idle := by
    refine .inr ⟨?_, ?_⟩
    · show w.sector ≠ []
      rw [hbuffer]
      exact List.ne_nil_of_length_pos (by rw [Entry.length_encode, headerSize]; omega)
    · show minPadding ≤ sectorPayload - w.sector.length
      rw [hbuffer]
      omega
  have hidle := hentered.tail hsettles (.idle rfl (by rw [hhead]; exact hempty))
  refine ⟨_, hidle, rfl, ?_, rfl⟩
  show ((flushIfUnambiguous w).state.ring.getD ⟨0, 0⟩).head = s.head
  rw [flushIfUnambiguous, hw', Outcome.state_ok, hflush.head]
  exact hpub.head

/-- A record that the idle pass pads and writes. -/
theorem atRest_smallDelta : ∃ s,
    Run (Step (Pushable 65536) 65536) Settles (System.start 16 LogFiles.empty) s ∧
      AtRest s ∧ s.place = .head true ∧ s.head = 1 ∧ s.tail = 1 := by
  obtain ⟨hsmall, hentry, hlen⟩ := smallDelta_logs
  have hclient : FromClient 65536 smallDelta := ⟨by decide, by decide, .inl ⟨rfl, by decide⟩⟩
  have hheld : Run (Step (Pushable 65536) 65536) Settles (System.start 16 LogFiles.empty) _ :=
    run_firstHeld (.inl hclient) (by decide) (by decide) (fun _ ↦ ⟨trivial, trivial, trivial, trivial⟩)
  have hcounted : Counted (firstHeld 16 LogFiles.empty smallDelta) :=
    (hheld.invariant Settled (fun _ _ _ hinv hok hstep ↦ hinv.step hok hstep)
      (settled_start 16 LogFiles.empty)).counted.resolve_left (by simp [firstHeld])
  have hsettled : ∃ t, Run (Step (Pushable 65536) 65536) Settles (firstHeld 16 LogFiles.empty smallDelta) t ∧
      t.place = .head true ∧ t.head = 1 ∧ t.tail = 1 :=
    run_settled hcounted rfl rfl (by intro d hd; cases hd) hsmall hentry rfl (by rw [hlen]; decide)
  obtain ⟨t, hrun, hplace, hhead, htail⟩ := hsettled
  exact ⟨t, hheld.trans hrun, (atRest_of_settles _ _ 16 LogFiles.empty t (hheld.trans hrun)).1, hplace,
    hhead, htail⟩

/-- Its record would be larger than `maxEntryLen`. -/
def oversizedDelta : DeltaMessage := ⟨32768, 8193, deltaArena, inlineData [], length_noData⟩

/-- A delta that is refused leaves no bytes, so nothing is ever flushed for it. -/
theorem refusedDelta_not_atRest : ∃ s,
    Run (Step (Pushable 65536) 65536) (fun _ _ ↦ True) (System.start 16 LogFiles.empty) s ∧ ¬ AtRest s := by
  have hclient : FromClient 65536 oversizedDelta := ⟨by decide, by decide, .inr (.inl rfl)⟩
  have hheld : Run (Step (Pushable 65536) 65536) (fun _ _ ↦ True) (System.start 16 LogFiles.empty) _ :=
    run_firstHeld (.inl hclient) (by decide) (by decide) (fun _ ↦ ⟨trivial, trivial, trivial, trivial⟩)
  have hrefused : ∀ w, processDelta oversizedDelta blankArena w = .fail .corruptDelta w := fun w ↦
    (processDelta_eq _ _ _).trans (if_neg fun h ↦ absurd h.1 (by decide))
  have hdropped := hheld.tail trivial (Step.refuse (c := .loop) rfl (length_zeros _) (hrefused _))
  have hentered := hdropped.tail trivial (.enter rfl rfl)
  have hidle := hentered.tail trivial (Step.idle rfl (by
    intro d hd
    cases hd))
  refine ⟨_, hidle, fun hrest ↦ ?_⟩
  cases hrest rfl rfl

end TakyonDb.FlusherLoop
