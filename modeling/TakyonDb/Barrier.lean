import Mathlib.Data.List.ReduceOption
import TakyonDb.ExportsLog
import TakyonDb.Lib.Transition

namespace TakyonDb.Barrier

open Lib Wal WalManager

/-- A ring position: a producer first claims it and then stores its delta. -/
inductive Slot
  | free
  | reserved (d : DeltaMessage)
  | stored (d : DeltaMessage)

/-- Where the flusher is: between deltas, with a popped delta, or with the
byte strings of a record that it still has to copy. -/
inductive Flusher
  | idle
  | popped (d : DeltaMessage)
  | copying (parts : List Bytes)

/-- The producers, the ring and the flusher. `logged` is a history
variable: the record of every delta popped so far, `none` if it was refused. -/
structure System where
  capacity : ℕ
  tail : ℕ
  slots : ℕ → Slot
  flusher : Flusher
  wal : WalManager
  dropped : ℕ
  logged : List (Option Entry)

namespace System

def counters (s : System) : RingCounters := s.wal.ring.getD ⟨0, 0⟩

def head (s : System) : ℕ := s.counters.head

def durableTail (s : System) : ℕ := s.counters.durableTail

def start (capacity : ℕ) (files : LogFiles UInt8) : System where
  capacity
  tail := 0
  slots := fun _ ↦ .free
  flusher := .idle
  wal := { init files with ring := some ⟨0, 0⟩ }
  dropped := 0
  logged := []

/-- The bytes that the flusher still has to copy. -/
def rest (s : System) : Bytes :=
  match s.flusher with
  | .copying parts => parts.flatten
  | .idle | .popped _ => []

end System

/-- What the write calls of the C ABI make sure of before they push. -/
structure FromClient (n : ℕ) (d : DeltaMessage) : Prop where
  pos : 1 ≤ d.size.toNat
  inside : d.offset.toNat + d.size.toNat ≤ n
  tag : d.isArena = deltaInline ∧ d.size.toNat ≤ 48 ∨ d.isArena = deltaArena ∨
    d.isArena = deltaIndexOp ∧ d.size.toNat ≤ maxKeyLen

inductive Event
  | reserve (d : DeltaMessage)
  | store (i : ℕ)
  | pop
  | process (arenaMem : Bytes)
  | copy
  | idleFlush
  | forcedFlush

def advanceHead (w : WalManager) : WalManager :=
  { w with ring := w.ring.map fun r ↦ { r with head := r.head + 1 } }

/-- What is left to copy behind one pass of the copy loop. -/
def afterCopy (left : Bytes) (parts : List Bytes) : Flusher :=
  if left ≠ [] then .copying (left :: parts) else if parts = [] then .idle else .copying parts

/-- One step of a producer or of the flusher, over an arena of `n` bytes. -/
inductive Step (n : ℕ) : System → Event → System → Prop
  | reserve {s : System} {d : DeltaMessage} : FromClient n d → s.tail < s.head + s.capacity →
      Step n s (.reserve d)
        { s with tail := s.tail + 1, slots := Function.update s.slots s.tail (.reserved d) }
  | store {s : System} {i : ℕ} {d : DeltaMessage} : s.slots i = .reserved d →
      Step n s (.store i) { s with slots := Function.update s.slots i (.stored d) }
  | pop {s : System} {d : DeltaMessage} : s.flusher = .idle → s.slots s.head = .stored d →
      Step n s .pop { s with flusher := .popped d, wal := advanceHead s.wal }
  | accept {s : System} {d : DeltaMessage} {arenaMem : Bytes} {e : Entry} : s.flusher = .popped d →
      arenaMem.length = n → d.Accepted arenaMem → d.entry arenaMem = some e →
      Step n s (.process arenaMem)
        { s with flusher := .copying [e.header.toBytes, e.payload], logged := s.logged ++ [some e] }
  | refuse {s : System} {d : DeltaMessage} {arenaMem : Bytes} : s.flusher = .popped d →
      arenaMem.length = n → ¬ d.Accepted arenaMem →
      Step n s (.process arenaMem)
        { s with flusher := .idle, dropped := s.dropped + 1, logged := s.logged ++ [none] }
  | copy {s : System} {part left : Bytes} {parts : List Bytes} {w : WalManager} :
      s.flusher = .copying (part :: parts) → writeChunk part s.wal = (.ok w, left) →
      Step n s .copy { s with flusher := afterCopy left parts, wal := w }
  | idleFlush {s : System} {w : WalManager} : s.flusher = .idle →
      (∀ d, s.slots s.head ≠ .stored d) → flushIfUnambiguous s.wal = .ok w →
      Step n s .idleFlush { s with wal := w }
  | forcedFlush {s : System} {w : WalManager} : s.flusher = .idle → flushBuffer s.wal = .ok w →
      Step n s .forcedFlush { s with wal := w }

/-- The delta taken from the ring is accepted, and its record fits in what
is left of the current sector. -/
def FitsSector (s : System) : Event → Prop
  | .process arenaMem => ∀ d, s.flusher = .popped d →
      d.Accepted arenaMem ∧ s.wal.sector.length + headerSize + d.size.toNat ≤ sectorPayload
  | .reserve _ | .store _ | .pop | .copy | .idleFlush | .forcedFlush => True

/-- The bytes of the records logged for the first `k` deltas. -/
def loggedBytes (s : System) (k : ℕ) : Bytes := (s.logged.take k).reduceOption.flatMap Entry.encode

/-- The delta at position `i` has a record, and all of it is in sectors
that were written. -/
def OnDisk (s : System) (i : ℕ) : Prop :=
  ∃ d arenaMem e, s.slots i = .stored d ∧ d.entry arenaMem = some e ∧ s.logged[i]? = some (some e) ∧
    loggedBytes s (i + 1) <+: s.wal.flushed.flatten

/-- Which delta is at which position. -/
structure RingInv (n : ℕ) (s : System) : Prop where
  ring : s.wal.ring.isSome
  head_le : s.head ≤ s.tail
  fresh : ∀ i, s.tail ≤ i → s.slots i = .free
  client : ∀ i d, s.slots i = .reserved d ∨ s.slots i = .stored d → FromClient n d
  taken : ∀ i e, s.logged[i]? = some (some e) → ∃ d arenaMem, s.slots i = .stored d ∧
    d.entry arenaMem = some e
  popped : ∀ d, s.flusher = .popped d → s.head = s.logged.length + 1 ∧
    s.slots s.logged.length = .stored d
  settled : (∀ d, s.flusher ≠ .popped d) → s.head = s.logged.length

/-- What of the records is in written sectors, in the buffer and still to copy. -/
structure LogInv (s : System) : Prop where
  healthy : s.wal.Healthy
  room : s.wal.sector.length < sectorPayload
  bytes : s.wal.flushed.flatten ++ s.wal.sector ++ s.rest = loggedBytes s s.logged.length
  fits : s.wal.sector.length + s.rest.length ≤ sectorPayload
  parts : ∀ parts, s.flusher = .copying parts → ∀ part ∈ parts, part ≠ []
  recorded : ∀ e ∈ s.logged, e.isSome
  durable_le : s.durableTail ≤ s.logged.length
  durable : loggedBytes s s.durableTail <+: s.wal.flushed.flatten

variable {n : ℕ} {s t : System}

theorem ringInv_start (capacity : ℕ) (files : LogFiles UInt8) :
    RingInv n (System.start capacity files) where
  ring := rfl
  head_le := le_rfl
  fresh _ _ := rfl
  client := by simp [System.start]
  taken := by simp [System.start]
  popped := by simp [System.start]
  settled _ := rfl

theorem logInv_start (capacity : ℕ) (files : LogFiles UInt8) :
    LogInv (System.start capacity files) where
  healthy := (logs_init files).healthy
  room := by simp [System.start, init, sectorPayload]
  bytes := rfl
  fits := by simp [System.start, System.rest, init]
  parts := by simp [System.start]
  recorded := by simp [System.start]
  durable_le := le_rfl
  durable := List.nil_prefix

theorem length_payload {d : DeltaMessage} {arenaMem : Bytes} {e : Entry} (hd : d.Accepted arenaMem)
    (he : d.entry arenaMem = some e) : e.payload.length = d.size.toNat := by
  unfold DeltaMessage.entry at he
  unfold DeltaMessage.Accepted at hd
  split_ifs at he hd <;> cases he
  · exact length_slice hd.2
  · rw [List.length_take, d.data_length]
    omega
  · exact length_slice hd.2

theorem counters_emit {w : WalManager} (h : w.ring.isSome) :
    w.emit.ring.getD ⟨0, 0⟩ = (w.ring.getD ⟨0, 0⟩).publishDurable := by
  obtain ⟨r, hr⟩ := Option.isSome_iff_exists.mp h
  rw [ring_emit, hr]
  rfl

theorem counters_advanceHead {w : WalManager} (h : w.ring.isSome) :
    (advanceHead w).ring.getD ⟨0, 0⟩ =
      ⟨(w.ring.getD ⟨0, 0⟩).head + 1, (w.ring.getD ⟨0, 0⟩).durableTail⟩ := by
  obtain ⟨r, hr⟩ := Option.isSome_iff_exists.mp h
  rw [advanceHead, hr]
  rfl

theorem loggedBytes_append {s t : System} {e : Option Entry} (h : t.logged = s.logged ++ [e]) {k : ℕ}
    (hk : k ≤ s.logged.length) : loggedBytes t k = loggedBytes s k := by
  rw [loggedBytes, h, List.take_append_of_le_length hk, loggedBytes]

/-- A flush of a buffer that ends where the last record ends makes all that
was popped durable. -/
theorem logInv_emit {w : WalManager} (h : LogInv s) (hring : w.ring = s.wal.ring)
    (hsome : s.wal.ring.isSome) (hhealthy : w.Healthy) (hhead : s.head = s.logged.length)
    (hbytes : w.flushed.flatten ++ w.sector = loggedBytes s s.logged.length) :
    LogInv { s with flusher := .idle, wal := w.emit } := by
  have hcounters : w.emit.ring.getD ⟨0, 0⟩ = s.counters.publishDurable := by
    rw [counters_emit (by rwa [hring]), hring]
    rfl
  have htail : System.durableTail { s with flusher := .idle, wal := w.emit } = s.logged.length := by
    have hle := h.durable_le
    rw [System.durableTail] at hle
    rw [System.head] at hhead
    rw [System.durableTail, System.counters, hcounters]
    show max s.counters.durableTail s.counters.head = s.logged.length
    omega
  have hflushed : w.emit.flushed.flatten = loggedBytes s s.logged.length := by
    rw [flushed_emit, List.flatten_append, List.flatten_singleton, hbytes]
  have hsector := sector_emit w
  have hok := emit_healthy hhealthy
  generalize w.emit = w' at hsector hok hflushed htail ⊢
  refine ⟨hok, ?_, ?_, ?_, ?_, h.recorded, htail.le, ?_⟩
  · show w'.sector.length < sectorPayload
    rw [hsector]
    decide
  · show w'.flushed.flatten ++ w'.sector ++ [] = _
    rw [hsector, List.append_nil, List.append_nil, hflushed]
    rfl
  · show w'.sector.length + 0 ≤ sectorPayload
    rw [hsector]
    decide
  · simp
  · rw [htail]
    show _ <+: w'.flushed.flatten
    rw [hflushed]
    exact List.prefix_rfl

theorem ringInv_emit {w : WalManager} (h : RingInv n s) (hring : w.ring = s.wal.ring)
    (hidle : ∀ d, s.flusher ≠ .popped d) : RingInv n { s with flusher := .idle, wal := w.emit } := by
  have hcounters : w.emit.ring.getD ⟨0, 0⟩ = s.counters.publishDurable := by
    rw [counters_emit (by rw [hring]; exact h.ring), hring]
    rfl
  have hhead : System.head { s with flusher := .idle, wal := w.emit } = s.head := by
    rw [System.head, System.counters, hcounters]
    rfl
  refine ⟨?_, ?_, h.fresh, h.client, h.taken, by simp, fun _ ↦ ?_⟩
  · show w.emit.ring.isSome
    rw [ring_emit, Option.isSome_map, hring]
    exact h.ring
  · rw [hhead]
    exact h.head_le
  · rw [hhead]
    exact h.settled hidle

theorem update_stored {slots : ℕ → Slot} {i : ℕ} {x : Slot} (hi : ∀ d, slots i ≠ .stored d) {j : ℕ}
    {d : DeltaMessage} (hj : slots j = .stored d) : Function.update slots i x j = .stored d := by
  have hne : j ≠ i := by
    rintro rfl
    exact hi d hj
  rw [Function.update_of_ne hne, hj]

theorem ringInv_reserve {d : DeltaMessage} (h : RingInv n s) (hd : FromClient n d) : RingInv n
    { s with tail := s.tail + 1, slots := Function.update s.slots s.tail (.reserved d) } := by
  have hfree : ∀ d', s.slots s.tail ≠ .stored d' := by simp [h.fresh s.tail le_rfl]
  refine ⟨h.ring, Nat.le_succ_of_le h.head_le, fun i hi ↦ ?_, fun i d' hi ↦ ?_, fun i e hi ↦ ?_,
    fun d' hd' ↦ ?_, h.settled⟩
  · replace hi : s.tail + 1 ≤ i := hi
    exact (Function.update_of_ne (by omega) _ _).trans (h.fresh i (by omega))
  · dsimp only at hi
    rcases eq_or_ne i s.tail with rfl | hne
    · rw [Function.update_self] at hi
      rcases hi with hi | hi <;> cases hi
      exact hd
    · rw [Function.update_of_ne hne] at hi
      exact h.client i d' hi
  · obtain ⟨d', arenaMem, hstored, hentry⟩ := h.taken i e hi
    exact ⟨d', arenaMem, update_stored hfree hstored, hentry⟩
  · obtain ⟨hhead, hstored⟩ := h.popped d' hd'
    exact ⟨hhead, update_stored hfree hstored⟩

theorem ringInv_store {d : DeltaMessage} {i : ℕ} (h : RingInv n s) (hi : s.slots i = .reserved d) :
    RingInv n { s with slots := Function.update s.slots i (.stored d) } := by
  have hreserved : ∀ d', s.slots i ≠ .stored d' := by simp [hi]
  refine ⟨h.ring, h.head_le, fun j hj ↦ ?_, fun j d' hj ↦ ?_, fun j e hj ↦ ?_, fun d' hd' ↦ ?_,
    h.settled⟩
  · have hne : j ≠ i := by
      rintro rfl
      rw [h.fresh j hj] at hi
      cases hi
    exact (Function.update_of_ne hne _ _).trans (h.fresh j hj)
  · dsimp only at hj
    rcases eq_or_ne j i with rfl | hne
    · rw [Function.update_self] at hj
      rcases hj with hj | hj <;> cases hj
      exact h.client j d (.inl hi)
    · rw [Function.update_of_ne hne] at hj
      exact h.client j d' hj
  · obtain ⟨d', arenaMem, hstored, hentry⟩ := h.taken j e hj
    exact ⟨d', arenaMem, update_stored hreserved hstored, hentry⟩
  · obtain ⟨hhead, hstored⟩ := h.popped d' hd'
    exact ⟨hhead, update_stored hreserved hstored⟩

theorem inv_pop {d : DeltaMessage} (hr : RingInv n s) (hl : LogInv s) (hidle : s.flusher = .idle)
    (hd : s.slots s.head = .stored d) :
    RingInv n { s with flusher := .popped d, wal := advanceHead s.wal } ∧
      LogInv { s with flusher := .popped d, wal := advanceHead s.wal } := by
  have hhead : s.head = s.logged.length := hr.settled (by simp [hidle])
  have hcounters := counters_advanceHead hr.ring
  have hnext : System.head { s with flusher := .popped d, wal := advanceHead s.wal } = s.head + 1 := by
    rw [System.head, System.counters, hcounters]
    rfl
  have htail : System.durableTail { s with flusher := .popped d, wal := advanceHead s.wal } =
      s.durableTail := by
    rw [System.durableTail, System.counters, hcounters]
    rfl
  have hlt : s.head < s.tail := by
    by_contra hge
    rw [hr.fresh s.head (Nat.not_lt.mp hge)] at hd
    cases hd
  constructor
  · refine ⟨?_, ?_, hr.fresh, hr.client, hr.taken, fun d' hd' ↦ ?_, fun hne ↦ absurd rfl (hne d)⟩
    · show (s.wal.ring.map _).isSome
      rw [Option.isSome_map]
      exact hr.ring
    · rw [hnext]
      exact hlt
    · cases hd'
      rw [hnext, hhead]
      exact ⟨rfl, hhead ▸ hd⟩
  · have hbytes := hl.bytes
    rw [System.rest, hidle] at hbytes
    refine ⟨hl.healthy, hl.room, hbytes, hl.room.le, by simp, hl.recorded, ?_, ?_⟩
    · rw [htail]
      exact hl.durable_le
    · rw [htail]
      exact hl.durable

theorem inv_accept {d : DeltaMessage} {arenaMem : Bytes} {e : Entry} (hr : RingInv n s) (hl : LogInv s)
    (hpopped : s.flusher = .popped d) (hd : d.Accepted arenaMem) (he : d.entry arenaMem = some e)
    (hfits : s.wal.sector.length + headerSize + d.size.toNat ≤ sectorPayload) :
    RingInv n { s with
        flusher := .copying [e.header.toBytes, e.payload], logged := s.logged ++ [some e] } ∧
      LogInv { s with
        flusher := .copying [e.header.toBytes, e.payload], logged := s.logged ++ [some e] } := by
  obtain ⟨hhead, hstored⟩ := hr.popped d hpopped
  have hsize := length_payload hd he
  have hpos := (hr.client _ d (.inr hstored)).pos
  constructor
  · refine ⟨hr.ring, hr.head_le, hr.fresh, hr.client, fun i e' hi ↦ ?_, by simp, fun _ ↦ ?_⟩
    · dsimp only at hi
      rcases Nat.lt_or_ge i s.logged.length with hlt | hge
      · rw [List.getElem?_append_left hlt] at hi
        exact hr.taken i e' hi
      · rw [List.getElem?_append_right hge, List.getElem?_singleton] at hi
        split_ifs at hi with hzero
        cases hi
        obtain rfl : i = s.logged.length := by omega
        exact ⟨d, arenaMem, hstored, he⟩
    · rw [List.length_append, List.length_singleton]
      exact hhead
  · have hbytes := hl.bytes
    rw [System.rest, hpopped, List.append_nil] at hbytes
    have hold : ∀ k ≤ s.logged.length, loggedBytes { s with
        flusher := .copying [e.header.toBytes, e.payload], logged := s.logged ++ [some e] } k =
        loggedBytes s k := fun k hk ↦ loggedBytes_append rfl hk
    refine ⟨hl.healthy, hl.room, ?_, ?_, ?_, ?_, ?_, ?_⟩
    · show s.wal.flushed.flatten ++ s.wal.sector ++ [e.header.toBytes, e.payload].flatten = _
      rw [hbytes, loggedBytes, loggedBytes, List.take_length, List.take_length,
        List.reduceOption_append, List.flatMap_append]
      simp [List.reduceOption, Entry.encode]
    · show s.wal.sector.length + [e.header.toBytes, e.payload].flatten.length ≤ sectorPayload
      rw [List.flatten_cons, List.flatten_singleton, List.length_append,
        WalEntryHeader.length_toBytes, hsize]
      omega
    · intro parts hparts part hpart
      cases hparts
      simp only [List.mem_cons, List.not_mem_nil, or_false] at hpart
      rcases hpart with rfl | rfl
      · exact List.ne_nil_of_length_pos (by rw [WalEntryHeader.length_toBytes]; decide)
      · exact List.ne_nil_of_length_pos (by omega)
    · intro e' he'
      rcases List.mem_append.mp he' with he' | he'
      · exact hl.recorded e' he'
      · rw [List.mem_singleton.mp he']
        rfl
    · rw [List.length_append]
      exact Nat.le_add_right_of_le hl.durable_le
    · show loggedBytes _ s.durableTail <+: _
      rw [hold _ hl.durable_le]
      exact hl.durable

theorem inv_copy {part left : Bytes} {parts : List Bytes} {w : WalManager} (hr : RingInv n s)
    (hl : LogInv s) (hcopying : s.flusher = .copying (part :: parts))
    (hchunk : writeChunk part s.wal = (.ok w, left)) :
    RingInv n { s with flusher := afterCopy left parts, wal := w } ∧
      LogInv { s with flusher := afterCopy left parts, wal := w } := by
  have hidle : ∀ d, s.flusher ≠ .popped d := by simp [hcopying]
  have hhead := hr.settled hidle
  have hbytes := hl.bytes
  have hfits := hl.fits
  have hparts := hl.parts _ hcopying
  have hroom := hl.room
  simp only [System.rest, hcopying, List.flatten_cons, List.length_append] at hbytes hfits
  rw [writeChunk_healthy hl.healthy hl.room] at hchunk
  split_ifs at hchunk with hshort
  · -- the piece stays in the buffer
    obtain ⟨hw, rfl⟩ := Prod.mk.inj hchunk
    obtain rfl := Outcome.ok.inj hw
    have hrest : System.rest { s with
        flusher := afterCopy [] parts, wal := { s.wal with sector := s.wal.sector ++ part } } =
        parts.flatten := by
      rw [System.rest, afterCopy]
      cases parts <;> rfl
    have hnotPopped : ∀ d, afterCopy [] parts ≠ .popped d := by
      cases parts <;> simp [afterCopy]
    constructor
    · exact ⟨hr.ring, hr.head_le, hr.fresh, hr.client, hr.taken,
        fun d hd ↦ absurd hd (hnotPopped d), fun _ ↦ hhead⟩
    · refine ⟨hl.healthy, ?_, ?_, ?_, ?_, hl.recorded, hl.durable_le, hl.durable⟩
      · show (s.wal.sector ++ part).length < sectorPayload
        rw [List.length_append]
        exact hshort
      · rw [hrest]
        show s.wal.flushed.flatten ++ (s.wal.sector ++ part) ++ parts.flatten =
          loggedBytes s s.logged.length
        simpa only [List.append_assoc] using hbytes
      · rw [hrest]
        show (s.wal.sector ++ part).length + parts.flatten.length ≤ sectorPayload
        rw [List.length_append]
        omega
      · intro parts' hparts'
        cases parts with
        | nil => cases hparts'
        | cons p ps =>
          cases hparts'
          exact fun q hq ↦ hparts q (List.mem_cons_of_mem _ hq)
  · -- the piece fills the sector, so it is the last of the record
    obtain ⟨hw, rfl⟩ := Prod.mk.inj hchunk
    obtain rfl := Outcome.ok.inj hw
    have htotal : sectorPayload - s.wal.sector.length = part.length := by omega
    have hnil : parts = [] := by
      cases parts with
      | nil => rfl
      | cons p ps =>
        have hp := List.length_pos_of_ne_nil (hparts p (by simp))
        rw [List.flatten_cons, List.length_append] at hfits
        omega
    subst hnil
    rw [htotal, List.take_length, List.drop_length]
    rw [List.flatten_nil, List.append_nil] at hbytes
    have hsame : s.wal.ring = WalManager.ring { s.wal with sector := s.wal.sector ++ part } := rfl
    rw [List.append_assoc] at hbytes
    exact ⟨ringInv_emit hr hsame.symm hidle, logInv_emit hl hsame.symm hr.ring hl.healthy hhead hbytes⟩

/-- A flush between two deltas. -/
theorem inv_flush {force : Bool} {w : WalManager} (hr : RingInv n s) (hl : LogInv s)
    (hidle : s.flusher = .idle) (hflush : flushBufferWith force s.wal = .ok w) :
    RingInv n { s with wal := w } ∧ LogInv { s with wal := w } := by
  rw [flushBufferWith_healthy hl.healthy] at hflush
  obtain rfl := Outcome.ok.inj hflush
  split_ifs
  · exact ⟨hr, hl⟩
  · have hnot : ∀ d, s.flusher ≠ .popped d := by simp [hidle]
    have hbytes := hl.bytes
    rw [System.rest, hidle, List.append_nil] at hbytes
    have hsame : { s with wal := s.wal.emit } = { s with flusher := .idle, wal := s.wal.emit } := by
      rw [← hidle]
    rw [hsame]
    exact ⟨ringInv_emit hr rfl hnot, logInv_emit hl rfl hr.ring hl.healthy (hr.settled hnot) hbytes⟩

theorem inv_step {ev : Event} (h : RingInv n s ∧ LogInv s) (hok : FitsSector s ev)
    (hstep : Step n s ev t) : RingInv n t ∧ LogInv t := by
  obtain ⟨hr, hl⟩ := h
  cases hstep with
  | reserve hd _ => exact ⟨ringInv_reserve hr hd, ⟨hl.healthy, hl.room, hl.bytes, hl.fits, hl.parts,
      hl.recorded, hl.durable_le, hl.durable⟩⟩
  | store hi => exact ⟨ringInv_store hr hi, ⟨hl.healthy, hl.room, hl.bytes, hl.fits, hl.parts,
      hl.recorded, hl.durable_le, hl.durable⟩⟩
  | pop hidle hd => exact inv_pop hr hl hidle hd
  | accept hpopped _ hd he => exact inv_accept hr hl hpopped hd he (hok _ hpopped).2
  | refuse hpopped _ hd => exact absurd (hok _ hpopped).1 hd
  | copy hcopying hchunk => exact inv_copy hr hl hcopying hchunk
  | idleFlush hidle _ hflush => exact inv_flush hr hl hidle hflush
  | forcedFlush hidle hflush => exact inv_flush hr hl hidle hflush

/-- Every position below the durable tail is on disk. -/
theorem onDisk_of_inv (h : RingInv n s ∧ LogInv s) {i : ℕ} (hi : i < s.durableTail) : OnDisk s i := by
  obtain ⟨hr, hl⟩ := h
  have hlt : i < s.logged.length := hi.trans_le hl.durable_le
  obtain ⟨e, he⟩ := Option.isSome_iff_exists.mp (hl.recorded _ (List.getElem_mem hlt))
  have hlogged : s.logged[i]? = some (some e) := by rw [List.getElem?_eq_getElem hlt, he]
  obtain ⟨d, arenaMem, hstored, hentry⟩ := hr.taken i e hlogged
  refine ⟨d, arenaMem, e, hstored, hentry, hlogged, List.IsPrefix.trans ?_ hl.durable⟩
  have hsplit : s.logged.take s.durableTail =
      s.logged.take (i + 1) ++ (s.logged.take s.durableTail).drop (i + 1) := by
    have htake := List.take_append_drop (i + 1) (s.logged.take s.durableTail)
    rw [List.take_take, min_eq_left (by omega)] at htake
    exact htake.symm
  rw [loggedBytes, loggedBytes, hsplit, List.reduceOption_append, List.flatMap_append]
  exact List.prefix_append _ _

theorem durableTail_emit_le {w : WalManager} (hring : w.ring = s.wal.ring) (hsome : s.wal.ring.isSome)
    (flusher : Flusher) : s.durableTail ≤ System.durableTail { s with flusher, wal := w.emit } := by
  have hcounters : w.emit.ring.getD ⟨0, 0⟩ = s.counters.publishDurable := by
    rw [counters_emit (by rwa [hring]), hring]
    rfl
  rw [System.durableTail, System.durableTail, System.counters, System.counters, hcounters]
  exact le_max_left _ _

theorem durableTail_flush_le {force : Bool} {w : WalManager} (h : RingInv n s ∧ LogInv s)
    (hflush : flushBufferWith force s.wal = .ok w) :
    s.durableTail ≤ System.durableTail { s with wal := w } := by
  rw [flushBufferWith_healthy h.2.healthy] at hflush
  obtain rfl := Outcome.ok.inj hflush
  split_ifs
  · exact le_rfl
  · exact durableTail_emit_le rfl h.1.ring s.flusher

/-- The durable tail never moves back. -/
theorem durableTail_mono {ev : Event} (h : RingInv n s ∧ LogInv s) (hstep : Step n s ev t) :
    s.durableTail ≤ t.durableTail := by
  cases hstep with
  | reserve _ _ => exact le_rfl
  | store _ => exact le_rfl
  | pop _ _ =>
    rw [System.durableTail, System.durableTail, System.counters, System.counters,
      counters_advanceHead h.1.ring]
  | accept _ _ _ _ => exact le_rfl
  | refuse _ _ _ => exact le_rfl
  | copy _ hchunk =>
    rw [writeChunk_healthy h.2.healthy h.2.room] at hchunk
    split_ifs at hchunk with hshort
    · obtain ⟨hw, rfl⟩ := Prod.mk.inj hchunk
      obtain rfl := Outcome.ok.inj hw
      exact le_rfl
    · obtain ⟨hw, rfl⟩ := Prod.mk.inj hchunk
      obtain rfl := Outcome.ok.inj hw
      refine durableTail_emit_le ?_ h.1.ring _
      rfl
  | idleFlush _ _ hflush => exact durableTail_flush_le h hflush
  | forcedFlush _ hflush => exact durableTail_flush_le h hflush

/-- A run keeps the invariant and only raises the durable tail. -/
theorem inv_run (hs : RingInv n s ∧ LogInv s) (h : Run (Step n) FitsSector s t) :
    (RingInv n t ∧ LogInv t) ∧ s.durableTail ≤ t.durableTail := by
  refine Run.invariant (fun u ↦ (RingInv n u ∧ LogInv u) ∧ s.durableTail ≤ u.durableTail) ?_ h
    ⟨hs, le_rfl⟩
  rintro u ev v ⟨hu, hle⟩ hok hstep
  exact ⟨inv_step hu hok hstep, hle.trans (durableTail_mono hu hstep)⟩

/-- A barrier called in `s` that has returned in `t` covers every delta
pushed before the call. -/
def CommitCovers (n : ℕ) (s t : System) : Prop :=
  ∀ (e : Exports.Engine) (seen : List System),
    (∀ u ∈ seen, Run (Step n) FitsSector s u ∧ Run (Step n) FitsSector u t) →
    Exports.takyonCommit s.tail (seen.map System.durableTail) e = Exports.rcOk →
    ∀ i < s.tail, OnDisk t i

theorem exists_observed {target : ℕ} {observed : List ℕ} {e : Exports.Engine}
    (h : Exports.takyonCommit target observed e = Exports.rcOk) : ∃ v ∈ observed, target ≤ v := by
  rw [Exports.takyonCommit] at h
  split_ifs at h with h₁ h₂ h₃
  · cases h
  · simpa using h₃
  · cases h
  · cases h

/-- The write calls push nothing else. -/
theorem fromClient_of_run {c : Exports.WriteCall} {drained : ℕ} {e e' : Exports.Engine} (hconn : e.Connected)
    (hdaemon : e.daemonAttached = true) (h : Exports.Answers (fun fuel ↦ c.run fuel drained e) (Exports.rcOk, e')) :
    ∃ rest d, e'.queue = rest ++ [d] ∧ FromClient e.arena.length d := by
  cases c with
  | writeDelta offset data =>
    have hrun : Exports.takyonWriteDelta offset data drained e = (Exports.rcOk, e') :=
      (Exports.Answers.of_eq fun _ ↦ rfl).unique h
    simp only [Exports.takyonWriteDelta] at hrun
    split_ifs at hrun with h₁ h₂ h₃
    · cases (Prod.mk.inj hrun).1
    · cases (Prod.mk.inj hrun).1
    · cases (Prod.mk.inj hrun).1
    · obtain ⟨⟨rest, hqueue⟩, -, -⟩ := Exports.pushWithBackPressure_ok hrun
      have hsize : (UInt32.ofNat data.length).toNat = data.length :=
        Exports.toNat_ofNat_of_lt (by omega)
      refine ⟨rest, _, hqueue, ?_, ?_, .inl ⟨rfl, ?_⟩⟩ <;> dsimp only <;> omega
  | notifyArena offset size =>
    have hrun : Exports.takyonNotifyArena offset size drained e = (Exports.rcOk, e') :=
      (Exports.Answers.of_eq fun _ ↦ rfl).unique h
    simp only [Exports.takyonNotifyArena] at hrun
    split_ifs at hrun with h₁ h₂ h₃
    · cases (Prod.mk.inj hrun).1
    · cases (Prod.mk.inj hrun).1
    · cases (Prod.mk.inj hrun).1
    · obtain ⟨⟨rest, hqueue⟩, -, -⟩ := Exports.pushWithBackPressure_ok hrun
      refine ⟨rest, _, hqueue, ?_, ?_, .inr (.inl rfl)⟩ <;> dsimp only <;> omega
  | insertIndex key valueOffset =>
    obtain ⟨r, off, arena, s, rest, hr, hstring, -, -, hqueue, hpos, hle⟩ :=
      Exports.takyonInsertIndex_ok hconn hdaemon h
    obtain ⟨r', hr', hvalid, -⟩ := hconn
    obtain rfl : r = r' := Option.some.inj (hr.symm.trans hr')
    obtain ⟨hin, hlt, -, -⟩ := Exports.allocString_some hvalid hstring
    have hoff : (Exports.indexDelta off key valueOffset).offset.toNat = off :=
      Exports.toNat_ofNat_of_lt hlt
    have hsize : (Exports.indexDelta off key valueOffset).size.toNat = key.length :=
      Exports.toNat_ofNat_of_lt (by rw [maxKeyLen] at hle; omega)
    exact ⟨rest, _, hqueue, by omega, by omega, .inr (.inr ⟨rfl, by omega⟩)⟩

/-- The passes over one byte string, taken one at a time, do what the copy
loop does. -/
theorem writeLoop_steps {ok : System → Event → Prop} (hcopy : ∀ u, ok u .copy) {fuel : ℕ}
    {part : Bytes} {parts : List Bytes} {w : WalManager} (hne : part ≠ [])
    (hflusher : s.flusher = .copying (part :: parts)) (hloop : writeLoop fuel part s.wal = .ok w) :
    Run (Step n) ok s { s with flusher := afterCopy [] parts, wal := w } := by
  induction fuel generalizing part s with
  | zero =>
    cases part with
    | nil => exact absurd rfl hne
    | cons b bs => cases hloop
  | succ fuel ih =>
    cases part with
    | nil => exact absurd rfl hne
    | cons b bs =>
      rw [writeLoop] at hloop
      rcases hchunk : writeChunk (b :: bs) s.wal with ⟨outcome, left⟩
      rw [hchunk] at hloop
      obtain ⟨w₁, rfl, hrest⟩ := Outcome.andThen_eq_ok.mp hloop
      have hstep : Step n s .copy { s with flusher := afterCopy left parts, wal := w₁ } :=
        .copy hflusher hchunk
      have hone : Run (Step n) ok s _ := (Run.refl s).tail (hcopy s) hstep
      by_cases hleft : left = []
      · subst hleft
        have hdone : w = w₁ := by
          cases fuel <;> exact (Outcome.ok.inj hrest).symm
        rw [hdone]
        exact hone
      · refine hone.trans (ih hleft ?_ hrest)
        rw [afterCopy, if_pos hleft]

/-- The steps of the flusher for one delta add up to `processDelta`. -/
theorem processDelta_steps {ok : System → Event → Prop} (hcopy : ∀ u, ok u .copy) {d : DeltaMessage}
    {arenaMem : Bytes} {e : Entry} {w : WalManager} (hpopped : s.flusher = .popped d)
    (hok : ok s (.process arenaMem)) (hlen : arenaMem.length = n) (hd : d.Accepted arenaMem)
    (he : d.entry arenaMem = some e) (hpos : 1 ≤ d.size.toNat)
    (hprocess : processDelta d arenaMem s.wal = .ok w) :
    Run (Step n) ok s { s with flusher := .idle, wal := w, logged := s.logged ++ [some e] } := by
  rw [processDelta_eq, if_pos hd, he] at hprocess
  obtain ⟨w₁, hheader, hpayload⟩ := Outcome.andThen_eq_ok.mp hprocess
  have hsize := length_payload hd he
  have hne : e.header.toBytes ≠ [] :=
    List.ne_nil_of_length_pos (by rw [WalEntryHeader.length_toBytes]; decide)
  have hne' : e.payload ≠ [] := List.ne_nil_of_length_pos (by omega)
  have haccept : Run (Step n) ok s _ := (Run.refl s).tail hok (Step.accept hpopped hlen hd he)
  have hfirst := writeLoop_steps (n := n) (s := { s with
    flusher := .copying [e.header.toBytes, e.payload], logged := s.logged ++ [some e] })
    hcopy hne rfl hheader
  have hsecond := writeLoop_steps (n := n) (s := { s with
    flusher := .copying [e.payload], wal := w₁, logged := s.logged ++ [some e] })
    hcopy hne' rfl hpayload
  exact (haccept.trans hfirst).trans hsecond

/-- The first delta was pushed and popped. -/
def firstPopped (capacity : ℕ) (files : LogFiles UInt8) (d : DeltaMessage) : System :=
  { System.start capacity files with
    tail := 1
    slots := Function.update (Function.update (fun _ ↦ .free) 0 (.reserved d)) 0 (.stored d)
    flusher := .popped d
    wal := advanceHead { init files with ring := some ⟨0, 0⟩ } }

theorem run_firstPopped {ok : System → Event → Prop} {capacity : ℕ} {files : LogFiles UInt8}
    {d : DeltaMessage} (hd : FromClient n d) (hcapacity : 0 < capacity) (hreserve : ∀ u, ok u (.reserve d))
    (hstore : ∀ u, ok u (.store 0)) (hpop : ∀ u, ok u .pop) :
    Run (Step n) ok (System.start capacity files) (firstPopped capacity files d) := by
  have hroom : (System.start capacity files).tail <
      (System.start capacity files).head + (System.start capacity files).capacity :=
    (Nat.zero_add capacity).symm ▸ hcapacity
  have hreserved : Run (Step n) ok (System.start capacity files) _ :=
    (Run.refl _).tail (hreserve _) (Step.reserve hd hroom)
  have hstored := hreserved.tail (hstore _) (Step.store (d := d) rfl)
  exact hstored.tail (hpop _) (Step.pop (d := d) rfl rfl)

/-- A byte string that fills the sector publishes the position that the
flusher has popped, whatever of the record is still to come. -/
theorem torn_copy {part : Bytes} {parts : List Bytes} (hsome : s.wal.ring.isSome)
    (hhealthy : s.wal.Healthy) (hroom : s.wal.sector.length < sectorPayload)
    (hcopying : s.flusher = .copying (part :: parts))
    (hcross : sectorPayload ≤ s.wal.sector.length + part.length) :
    ∃ t, Step n s .copy t ∧ t.tail = s.tail ∧ t.logged = s.logged ∧ s.head ≤ t.durableTail ∧
      t.wal.flushed.flatten.length = s.wal.flushed.flatten.length + sectorPayload := by
  have hchunk := writeChunk_healthy hhealthy hroom part
  rw [if_neg (by omega)] at hchunk
  have hfull : (s.wal.sector ++ part.take (sectorPayload - s.wal.sector.length)).length =
      sectorPayload := by
    rw [List.length_append, List.length_take]
    omega
  generalize hv : { s.wal with
    sector := s.wal.sector ++ part.take (sectorPayload - s.wal.sector.length) } = v at hchunk
  have hring : v.ring = s.wal.ring := by rw [← hv]
  have hflushed : v.flushed = s.wal.flushed := by rw [← hv]
  have hsector : v.sector.length = sectorPayload := by rw [← hv, hfull]
  refine ⟨_, .copy hcopying hchunk, rfl, rfl, ?_, ?_⟩
  · have hcounters := counters_emit (w := v) (by rwa [hring])
    rw [System.durableTail, System.counters, hcounters, hring]
    exact le_max_right _ _
  · rw [flushed_emit, List.flatten_append, List.flatten_singleton, List.length_append, hflushed, hsector]

/-- A record that does not fit in what is left of the sector is declared
durable while a part of it is still to be written. -/
theorem torn_of_not_fits {ok : System → Event → Prop} (hcopy : ∀ u, ok u .copy) {d : DeltaMessage}
    {arenaMem : Bytes} {e : Entry} (hr : RingInv n s) (hl : LogInv s) (hpopped : s.flusher = .popped d)
    (hok : ok s (.process arenaMem)) (hlen : arenaMem.length = n) (hd : d.Accepted arenaMem)
    (he : d.entry arenaMem = some e)
    (hcross : sectorPayload < s.wal.sector.length + headerSize + d.size.toNat) :
    ∃ t, Run (Step n) ok s t ∧ t.tail = s.tail ∧ s.logged.length < t.durableTail ∧
      ¬ OnDisk t s.logged.length := by
  have hhead : s.head = s.logged.length + 1 := (hr.popped d hpopped).1
  have hsize := length_payload hd he
  have hbytes := hl.bytes
  rw [System.rest, hpopped, List.append_nil] at hbytes
  have hfinish : ∀ t : System, t.logged = s.logged ++ [some e] → s.head ≤ t.durableTail →
      t.wal.flushed.flatten.length = s.wal.flushed.flatten.length + sectorPayload →
      s.logged.length < t.durableTail ∧ ¬ OnDisk t s.logged.length := by
    intro t hlogged htail hflushed
    refine ⟨by omega, ?_⟩
    rintro ⟨-, -, -, -, -, -, hprefix⟩
    have hall : loggedBytes t (s.logged.length + 1) =
        s.wal.flushed.flatten ++ s.wal.sector ++ e.encode := by
      rw [hbytes, loggedBytes, loggedBytes, hlogged, List.take_length,
        List.take_of_length_le (by simp), List.reduceOption_append, List.flatMap_append]
      simp [List.reduceOption]
    have hle := hprefix.length_le
    rw [hall, List.length_append, List.length_append, Entry.length_encode, hflushed] at hle
    omega
  have haccept : Run (Step n) ok s _ := (Run.refl s).tail hok (Step.accept hpopped hlen hd he)
  by_cases hheader : sectorPayload ≤ s.wal.sector.length + headerSize
  · obtain ⟨t, hstep, hpushed, hlogged, htail, hflushed⟩ := torn_copy (n := n) (s := { s with
      flusher := .copying [e.header.toBytes, e.payload], logged := s.logged ++ [some e] })
      hr.ring hl.healthy hl.room rfl (by rwa [WalEntryHeader.length_toBytes])
    exact ⟨t, haccept.tail (hcopy _) hstep, hpushed, hfinish t hlogged htail hflushed⟩
  · have hchunk := writeChunk_healthy hl.healthy hl.room e.header.toBytes
    rw [WalEntryHeader.length_toBytes, if_pos (by omega)] at hchunk
    have hfirst := haccept.tail (hcopy _) (Step.copy rfl hchunk)
    obtain ⟨t, hstep, hpushed, hlogged, htail, hflushed⟩ := torn_copy (n := n) (s := { s with
      flusher := .copying [e.payload], wal := { s.wal with sector := s.wal.sector ++ e.header.toBytes }
      logged := s.logged ++ [some e] }) hr.ring hl.healthy
      (by simpa using hheader) rfl (by
        show sectorPayload ≤ (s.wal.sector ++ e.header.toBytes).length + e.payload.length
        rw [List.length_append, WalEntryHeader.length_toBytes, hsize]
        omega)
    exact ⟨t, hfirst.tail (hcopy _) hstep, hpushed, hfinish t hlogged htail hflushed⟩

/-- In every run whose deltas are accepted and fit in the current sector,
what lies below the durable tail is on disk, and a commit that returns OK
covers what was pushed before it. -/
theorem durable_of_fitsSector (n capacity : ℕ) (files : LogFiles UInt8) (s : System)
    (h : Run (Step n) FitsSector (System.start capacity files) s) :
    (∀ i < s.durableTail, OnDisk s i) ∧ ∀ t, CommitCovers n s t := by
  have hs := (inv_run ⟨ringInv_start capacity files, logInv_start capacity files⟩ h).1
  refine ⟨fun i hi ↦ onDisk_of_inv hs hi, fun t e seen hseen hrc i hi ↦ ?_⟩
  obtain ⟨v, hv, hle⟩ := exists_observed hrc
  obtain ⟨u, hu, rfl⟩ := List.mem_map.mp hv
  obtain ⟨hsu, hut⟩ := hseen u hu
  obtain ⟨ht, hmono⟩ := inv_run (inv_run hs hsu).1 hut
  exact onDisk_of_inv ht (by omega)

theorem fromClient_arena {d : DeltaMessage} {arenaMem : Bytes}
    (hd : (FlusherOp.delta d arenaMem).Acceptable n) (htag : d.isArena = deltaArena) :
    FromClient n d :=
  ⟨hd.2.2.1, hd.1 ▸ hd.2.2.2, .inr (.inl htag)⟩

/-- A short delta that is popped, logged and flushed before the next one. -/
theorem durable_smallDelta : ∃ s, Run (Step 65536) FitsSector (System.start 16 LogFiles.empty) s ∧
    0 < s.durableTail ∧ OnDisk s 0 ∧ CommitCovers 65536 s s := by
  obtain ⟨hsmall, hentry, hlen⟩ := smallDelta_logs
  have hclient : FromClient 65536 smallDelta := ⟨by decide, by decide, .inl ⟨rfl, by decide⟩⟩
  have hpopped : Run (Step 65536) FitsSector (System.start 16 LogFiles.empty) _ :=
    run_firstPopped hclient (by decide) (fun _ ↦ trivial) (fun _ ↦ trivial) (fun _ ↦ trivial)
  have hinv := inv_run ⟨ringInv_start 16 LogFiles.empty, logInv_start 16 LogFiles.empty⟩ hpopped
  have hfits : FitsSector (firstPopped 16 LogFiles.empty smallDelta) (.process blankArena) := by
    intro d hd
    cases hd
    exact ⟨hsmall.2.1, by decide⟩
  obtain ⟨w, hw, hok, -, hsector, -⟩ := run_delta_of_room hinv.1.2.healthy hsmall hentry
    (by rw [hlen]; decide)
  have hlogged := hpopped.trans (processDelta_steps (fun _ ↦ trivial) rfl hfits hsmall.1 hsmall.2.1
    hentry (by decide) hw)
  obtain ⟨hring, hlog⟩ := (inv_run ⟨ringInv_start 16 LogFiles.empty, logInv_start 16 LogFiles.empty⟩
    hlogged).1
  have hne : w.sector ≠ [] := by
    rw [hsector]
    exact List.append_ne_nil_of_right_ne_nil _ (by decide)
  have hflush : ∀ u, FitsSector u .forcedFlush := fun _ ↦ trivial
  have hflushed := hlogged.tail (hflush _) (.forcedFlush rfl (run_forcedFlush hok hne))
  obtain ⟨hdisk, hcommit⟩ := durable_of_fitsSector 65536 16 LogFiles.empty _ hflushed
  have htail : 0 < System.durableTail { firstPopped 16 LogFiles.empty smallDelta with
      flusher := .idle, wal := w.emit, logged := [] ++ [some smallEntry] } := by
    have hhead := hring.settled (by simp)
    rw [System.durableTail, System.counters, counters_emit hring.ring]
    exact lt_max_of_lt_right (Nat.zero_lt_one.trans_eq hhead.symm)
  exact ⟨_, hflushed, htail, hdisk 0 htail, hcommit _⟩

/-- The record of a delta of 4992 bytes does not fit in a sector, and the
sector that its front fills declares it durable. -/
theorem hugeDelta_not_durable :
    ∃ s, Run (Step 65536) (fun _ _ ↦ True) (System.start 16 LogFiles.empty) s ∧
      Exports.takyonCommit s.tail [s.durableTail] Exports.smallEngine = Exports.rcOk ∧
      0 < s.tail ∧ 0 < s.durableTail ∧ ¬ OnDisk s 0 := by
  obtain ⟨hhuge, hentry, hlen⟩ := hugeDelta_logs
  have hclient := fromClient_arena hhuge rfl
  have hpopped : Run (Step 65536) FitsSector (System.start 16 LogFiles.empty) _ :=
    run_firstPopped hclient (by decide) (fun _ ↦ trivial) (fun _ ↦ trivial) (fun _ ↦ trivial)
  have hpopped' : Run (Step 65536) (fun _ _ ↦ True) (System.start 16 LogFiles.empty) _ :=
    run_firstPopped hclient (by decide) (fun _ ↦ trivial) (fun _ ↦ trivial) (fun _ ↦ trivial)
  obtain ⟨hring, hlog⟩ := (inv_run ⟨ringInv_start 16 LogFiles.empty, logInv_start 16 LogFiles.empty⟩
    hpopped).1
  obtain ⟨t, hrun, htail, hdurable, hdisk⟩ := @torn_of_not_fits 65536 _ (fun _ _ ↦ True)
    (fun _ ↦ trivial) _ _ _ hring hlog rfl trivial hhuge.1 hhuge.2.1 hentry (by decide)
  have hone : t.tail = 1 := htail
  have hle : 1 ≤ t.durableTail := hdurable
  refine ⟨t, hpopped'.trans hrun, ?_, ?_, hdurable, hdisk⟩
  · have hcovered : [t.durableTail].any (t.tail ≤ ·) := by
      rw [hone, List.any_cons, decide_eq_true hle]
      rfl
    rw [Exports.takyonCommit, if_neg (by decide), if_neg (by decide), if_pos hcovered]
  · rw [hone]
    exact Nat.zero_lt_one

end TakyonDb.Barrier
