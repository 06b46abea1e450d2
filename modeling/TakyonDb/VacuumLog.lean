import TakyonDb.Entries
import TakyonDb.IndexLog
import TakyonDb.Restart
import TakyonDb.VacuumRuns

namespace TakyonDb.VacuumLog

open Lib Layout Wal Exports Proxy Art Replay Restart Recovery Set Vacuum

inductive Stage
  | granted | copied | announced | pointed
deriving DecidableEq

/-- What asks for space of the string region: a field that is set, or a key that is bound. -/
inductive Purpose
  | field (abs : ℕ)
  | key (value : UInt32)
deriving DecidableEq

/-- A call with space of the string region that it has not handed over to the log. -/
structure Call where
  purpose : Purpose
  stage : Stage
  off : ℕ
  content : Bytes
deriving DecidableEq

def Call.range (c : Call) : Set ℕ := Ico c.off (c.off + c.content.length)

def textDelta (off strLen : ℕ) : DeltaMessage :=
  ⟨UInt32.ofNat off, UInt32.ofNat strLen, deltaArena, inlineData [], length_noData⟩

def pointerDelta (abs off strLen : ℕ) : DeltaMessage :=
  ⟨UInt32.ofNat abs, 8, deltaInline, inlineData (leEncode 4 off ++ leEncode 4 strLen), length_inlineData _⟩

/-- What a pass logs of a string that it moved. -/
def relocationDeltas (x : Relocated) : List DeltaMessage :=
  [pointerDelta x.fatAddr x.newOffset x.len, textDelta x.newOffset x.len]

/-- The clients' calls, the index, the vacuum and the flusher on one arena. `todo` is what a pass has yet to log. The
last two are history variables: the values that were assigned to fields, and the bindings in the order of their
pushes. -/
structure System where
  mem : Bytes
  free : Freelist
  calls : List Call
  queue : List DeltaMessage
  popped : Option DeltaMessage
  todo : List DeltaMessage
  log : List Entry
  assigned : List (ℕ × Bytes)
  bound : List IndexOp

def start (a : ArtState) : System := ⟨a.mem, a.free, [], [], none, [], [], [], []⟩

namespace System

/-- What the index works on: the arena, and the orphans of its process. -/
def art (s : System) : ArtState := ⟨s.mem, s.free⟩

def pending (s : System) : List DeltaMessage := s.popped.toList ++ s.queue

/-- The arena ranges that the flusher has yet to read. -/
def queued (s : System) : Set ℕ :=
  {i | ∃ d ∈ s.pending, d.isArena ≠ deltaInline ∧ i ∈ Ico d.offset.toNat (d.offset.toNat + d.size.toNat)}

/-- The bytes that wait to be logged. -/
def unlogged (s : System) : Set ℕ := s.queued ∪ {i | ∃ c ∈ s.calls, c.stage = .copied ∧ i ∈ c.range}

/-- The log with what is on its way to it. -/
def described (s : System) : List Entry := s.log ++ s.pending.filterMap (·.entry s.mem)

/-- One call moves on. -/
def moved (s : System) (c : Call) (stage : Stage) : List Call := { c with stage } :: s.calls.erase c

end System

/-- The arena that the records make of another. -/
def image (es : List Entry) (mem : Bytes) : Bytes := es.foldl (fun arena e ↦ e.store arena) mem

/-- The bytes of the strings that the fields point to. -/
def targets (mem : Bytes) (fields : List ℕ) : Set ℕ :=
  {i | ∃ a ∈ fields, i ∈ Ico (readU32 mem a) (readU32 mem a + readU32 mem (a + 4))}

inductive Event
  | grant (len : ℕ) | copy | announce (len : ℕ) | point | send | abandon
  | index (op : Op) | pass | passLogged | log | pop | process

/-- What the log gains from a delta; one that is refused is dropped. -/
def logOf (d : DeltaMessage) (arenaMem : Bytes) : List Entry :=
  if d.Accepted arenaMem then (d.entry arenaMem).toList else []

/-- One step of a call, of the index, of a pass or of the flusher. A call may end before its time: its push was refused,
or its client is gone. `pass` is a pass of the vacuum thread, which logs nothing. -/
inductive Step (r : Regions) (offsets : List UInt32) (fields : List ℕ) : System → Event → System → Prop
  | granted {s : System} {abs : ℕ} {value mem : Bytes} {off : ℕ} (ha : abs ∈ fields)
    (h : grantString r value.length s.mem = (off, mem)) (hroom : off + value.length ≤ r.stringEnd) :
    Step r offsets fields s (.grant value.length)
      { s with mem, calls := ⟨.field abs, .granted, off, value⟩ :: s.calls }
  | full {s : System} {len off : ℕ} {mem : Bytes} (h : grantString r len s.mem = (off, mem))
    (hfull : r.stringEnd < off + len) : Step r offsets fields s (.grant len) { s with mem }
  | copy {s : System} {c : Call} (hc : c ∈ s.calls) (hstage : c.stage = .granted) :
    Step r offsets fields s .copy { s with mem := overwrite s.mem c.off c.content, calls := s.moved c .copied }
  | announce {s : System} {c : Call} {abs : ℕ} (hc : c ∈ s.calls) (hstage : c.stage = .copied)
    (hfield : c.purpose = .field abs) (hpos : 0 < c.content.length) :
    Step r offsets fields s (.announce c.content.length)
      { s with queue := s.queue ++ [textDelta c.off c.content.length], calls := s.moved c .announced }
  | point {s : System} {c : Call} {abs : ℕ} (hc : c ∈ s.calls) (hstage : c.stage = .announced)
    (hfield : c.purpose = .field abs) :
    Step r offsets fields s .point
      { s with
        mem := pointString abs c.off c.content.length s.mem
        calls := s.moved c .pointed, assigned := (abs, c.content) :: s.assigned }
  | send {s : System} {c : Call} {abs : ℕ} (hc : c ∈ s.calls) (hstage : c.stage = .pointed)
    (hfield : c.purpose = .field abs) :
    Step r offsets fields s .send
      { s with queue := s.queue ++ [pointerDelta abs c.off c.content.length], calls := s.calls.erase c }
  | abandon {s : System} {c : Call} (hc : c ∈ s.calls) :
    Step r offsets fields s .abandon { s with calls := s.calls.erase c }
  | key {s : System} {key mem : Bytes} {value : UInt32} {off : ℕ} (hpos : 0 < key.length)
    (hle : key.length ≤ maxKeyLen) (h : allocString r key s.mem = (some off, mem)) :
    Step r offsets fields s (.grant key.length) { s with mem, calls := ⟨.key value, .copied, off, key⟩ :: s.calls }
  | keyFull {s : System} {key mem : Bytes} (h : allocString r key s.mem = (none, mem)) :
    Step r offsets fields s (.grant key.length) { s with mem }
  | bind {s : System} {c : Call} {value : UInt32} (hc : c ∈ s.calls) (hkey : c.purpose = .key value) :
    Step r offsets fields s .send
      { s with
        queue := s.queue ++ [indexDelta c.off c.content value]
        calls := s.calls.erase c, bound := s.bound ++ [⟨c.content, value⟩] }
  | index {s : System} {op : Op} {mem : Bytes} {free : Freelist} (h : IndexCall (regionIndex r) s.art op ⟨mem, free⟩) :
    Step r offsets fields s (.index op) { s with mem, free }
  | pass {s : System} {mem : Bytes} {relocated : List Relocated}
    (h : runVacuumOnceMulti (regionIndex r) r offsets s.mem = .done mem relocated) :
      Step r offsets fields s .pass { s with mem }
  | passLogged {s : System} {mem : Bytes} {relocated : List Relocated} (htodo : s.todo = [])
    (h : runVacuumOnceMulti (regionIndex r) r offsets s.mem = .done mem relocated) :
    Step r offsets fields s .passLogged { s with mem, todo := relocated.flatMap relocationDeltas }
  | log {s : System} {d : DeltaMessage} {todo : List DeltaMessage} (h : s.todo = d :: todo) :
    Step r offsets fields s .log { s with log := s.log ++ logOf d s.mem, todo }
  | pop {s : System} {d : DeltaMessage} {queue : List DeltaMessage} (hnone : s.popped = none)
    (hqueue : s.queue = d :: queue) : Step r offsets fields s .pop { s with popped := some d, queue }
  | process {s : System} {d : DeltaMessage} (hpopped : s.popped = some d) :
    Step r offsets fields s .process { s with log := s.log ++ logOf d s.mem, popped := none }

/-- Space is granted where no other call has space, where nothing waits to be logged, and where no string lies to
which the log and the ring point a field. -/
def Free (r : Regions) (fields : List ℕ) (base : Bytes) (s : System) (off len : ℕ) : Prop :=
  r.stringDataStart ≤ off ∧ Disjoint (Ico off (off + len)) s.unlogged ∧
    (∀ c ∈ s.calls, Disjoint (Ico off (off + len)) c.range) ∧
    Disjoint (Ico off (off + len)) (targets (image s.described base) fields)

/-- The steps that leave the log true. A pass that writes its own log moves nothing. -/
def Keeps (r : Regions) (offsets : List UInt32) (fields : List ℕ) (base : Bytes) (s : System) : Event → Prop
  | .grant len => stringBump r s.mem + len ≤ r.stringEnd → Free r fields base s (stringBump r s.mem) len
  | .announce len => len ≤ maxEntryLen
  | .index op => FitsRegion r s.art op
  | .pass => Disjoint (touched (regionIndex r) r offsets s.mem) (s.unlogged ∪ artRegion r)
  | .passLogged => movedStrings (regionIndex r) r offsets s.mem = []
  | _ => True

/-- The field is unset, or its string lies in the string region. -/
def Inside (r : Regions) (mem : Bytes) (a : ℕ) : Prop :=
  readU32 mem a = 0 ∧ readU32 mem (a + 4) = 0 ∨
    r.stringDataStart ≤ readU32 mem a ∧ readU32 mem a + readU32 mem (a + 4) ≤ r.stringEnd

/-- The declared string fields of an arena. -/
structure Fields (r : Regions) (fields : List ℕ) (mem : Bytes) : Prop where
  region : ∀ a ∈ fields, r.recordStart.toNat ≤ a ∧ a + 8 ≤ r.recordEnd
  apart : ∀ a ∈ fields, ∀ c ∈ fields, a = c ∨ a + 8 ≤ c ∨ c + 8 ≤ a
  inside : ∀ a ∈ fields, Inside r mem a

/-- `value` is what the field read at the start, or was assigned to it later. -/
def Assigned (base : Bytes) (s : System) (a : ℕ) (value : Option Bytes) : Prop :=
  value = readString base a ∨ ∃ v, (a, v) ∈ s.assigned ∧ value = some v

/-- Recovery from files with a prefix of the log comes back, and then each field reads a value that was assigned to it;
and the log binds the keys of the callers. -/
structure Recoverable (r : Regions) (fields : List ℕ) (base : Bytes) (s : System) : Prop where
  reads : ∀ files, fileEntries base.length files <+: s.log → ∀ free : Freelist, (∀ size, free.stackOf size = []) →
    ∃ t, (∀ fuel, maxDepth + 3 ≤ fuel → recoverWal fuel r none files ⟨base, free⟩ = some t) ∧
      ∀ a ∈ fields, Assigned base s a (readString t.mem a)
  keys : s.log.filterMap Entry.indexOp <+: s.bound

variable {offsets : List UInt32} {r : Regions} {fields : List ℕ} {base mem mem' : Bytes} {s s' : System}
  {c : Call} {d : DeltaMessage} {e : Entry} {es : List Entry} {t : Set ℕ} {abs off n : ℕ}

section Image

theorem image_eq (r : Regions) (es : List Entry) (mem : Bytes) :
    image es mem = (es.foldl (Entry.apply r) ⟨mem, 0, 0, 0, [], {}⟩).arena :=
  (Entry.arena_foldl r es ⟨mem, 0, 0, 0, [], {}⟩).symm

theorem length_image (r : Regions) (hes : ∀ e ∈ es, e.Valid mem.length) : (image es mem).length = mem.length := by
  rw [image_eq r]
  exact Entry.length_foldl_apply hes rfl

theorem image_concat (es : List Entry) (e : Entry) (mem : Bytes) : image (es ++ [e]) mem = e.store (image es mem) := by
  rw [image, List.foldl_append]
  rfl

theorem entry_textDelta (hoff : off < 2 ^ 32) (hn : n < 2 ^ 32) :
    (textDelta off n).entry mem = some ⟨.arenaWrite, UInt32.ofNat off, slice mem off n⟩ := by
  have hentry : (textDelta off n).entry mem =
      some ⟨.arenaWrite, UInt32.ofNat off, slice mem (UInt32.ofNat off).toNat (UInt32.ofNat n).toNat⟩ := if_pos rfl
  rw [hentry, toNat_ofNat_of_lt hoff, toNat_ofNat_of_lt hn]

theorem entry_pointerDelta (abs off n : ℕ) (mem : Bytes) :
    (pointerDelta abs off n).entry mem = some ⟨.arenaWrite, UInt32.ofNat abs, leEncode 4 off ++ leEncode 4 n⟩ := by
  have hlen : (leEncode 4 off ++ leEncode 4 n).length = 8 := by simp
  have htake : (inlineData (leEncode 4 off ++ leEncode 4 n)).take 8 = leEncode 4 off ++ leEncode 4 n := by
    have hfront := take_inlineData (hlen.trans_le (by omega : 8 ≤ 48))
    rwa [hlen] at hfront
  have hentry : (pointerDelta abs off n).entry mem =
      some ⟨.arenaWrite, UInt32.ofNat abs, (inlineData (leEncode 4 off ++ leEncode 4 n)).take 8⟩ := rfl
  rw [hentry, htake]

/-- The record of a pointer sets it. -/
theorem store_pointer (habs : abs + 8 ≤ mem.length) (hmem : mem.length < 2 ^ 32) (off n : ℕ) :
    Entry.store ⟨.arenaWrite, UInt32.ofNat abs, leEncode 4 off ++ leEncode 4 n⟩ mem = pointString abs off n mem := by
  have hfit : abs + (leEncode 4 off).length + (leEncode 4 n).length ≤ mem.length := by
    rw [length_leEncode, length_leEncode]
    omega
  have hoff : (UInt32.ofNat abs).toNat = abs := toNat_ofNat_of_lt (by omega)
  have hstore : Entry.store ⟨.arenaWrite, UInt32.ofNat abs, leEncode 4 off ++ leEncode 4 n⟩ mem =
      overwrite mem (UInt32.ofNat abs).toNat (leEncode 4 off ++ leEncode 4 n) := rfl
  rw [hstore, hoff, overwrite_append hfit, length_leEncode]
  rfl

theorem entry_congr (h : d.isArena ≠ deltaInline →
    slice mem' d.offset.toNat d.size.toNat = slice mem d.offset.toNat d.size.toNat) :
    d.entry mem' = d.entry mem := by
  by_cases htag : d.isArena = deltaInline
  · have hother : ¬ deltaInline = deltaArena := by decide
    rw [DeltaMessage.entry, DeltaMessage.entry, htag, if_neg hother, if_neg hother, if_pos rfl, if_pos rfl]
  · rw [DeltaMessage.entry, DeltaMessage.entry, h htag]

end Image

/-- A delta on its way to the log: the flusher accepts it, and reads it from the string region or from the delta. -/
structure Carried (r : Regions) (mem : Bytes) (d : DeltaMessage) : Prop where
  accepted : d.Accepted mem
  pos : 1 ≤ d.size.toNat
  inside : d.offset.toNat + d.size.toNat ≤ mem.length
  space : d.isArena ≠ deltaInline → r.stringDataStart ≤ d.offset.toNat ∧ d.offset.toNat + d.size.toNat ≤ r.stringEnd

/-- What holds of a call in each of its stages. -/
structure Backed (r : Regions) (fields : List ℕ) (base : Bytes) (s : System) (c : Call) : Prop where
  space : r.stringDataStart ≤ c.off ∧ c.off + c.content.length ≤ r.stringEnd
  key : ∀ v, c.purpose = .key v → (0 < c.content.length ∧ c.content.length ≤ maxKeyLen) ∧ c.stage = .copied
  field : ∀ abs, c.purpose = .field abs → abs ∈ fields
  copied : c.stage = .copied → slice s.mem c.off c.content.length = c.content
  fresh : c.stage = .granted ∨ c.stage = .copied → Disjoint c.range s.queued
  announced : c.stage = .announced ∨ c.stage = .pointed →
    0 < c.content.length ∧ slice (image s.described base) c.off c.content.length = c.content
  pointed : ∀ abs, c.purpose = .field abs → c.stage = .pointed → (abs, c.content) ∈ s.assigned
  clear : Disjoint c.range (targets (image s.described base) fields)

/-- The arena shows each field as it was at some moment of the run. -/
def Shows (r : Regions) (fields : List ℕ) (base : Bytes) (s : System) (mem : Bytes) : Prop :=
  ∀ a ∈ fields, Inside r mem a ∧ Assigned base s a (readString mem a)

structure Inv (r : Regions) (fields : List ℕ) (base : Bytes) (s : System) : Prop where
  length : s.mem.length = base.length
  todo : s.todo = []
  calls : ∀ c ∈ s.calls, Backed r fields base s c
  apart : s.calls.Pairwise fun c c' ↦ Disjoint c.range c'.range
  carried : ∀ d ∈ s.pending, Carried r s.mem d
  valid : ∀ e ∈ s.described, e.Valid base.length
  shows : ∀ es, es <+: s.described → Shows r fields base s (image es base)
  bound : s.described.filterMap Entry.indexOp = s.bound
  region : InRegion r base.length s.art
  clear : Disjoint (covered s.described) (artRegion r)

/-- A store in the arena away from what waits to be logged leaves the log as it will be. -/
theorem described_store (free : Freelist) (hch : ChangesOnly t s.mem mem) (ht : Disjoint t s.unlogged) :
    System.described { s with mem, free } = s.described := by
  refine congrArg (s.log ++ ·) (List.filterMap_congr ?_)
  intro d hd
  refine entry_congr ?_
  intro htag
  refine hch.slice (disjoint_left.mpr ?_)
  intro i hi hit
  exact disjoint_left.mp ht hit (.inl ⟨d, hd, htag, hi⟩)

theorem Inv.store {free : Freelist} (h : Inv r fields base s) (hch : ChangesOnly t s.mem mem)
    (ht : Disjoint t s.unlogged)
    (hregion : InRegion r base.length ⟨mem, free⟩) : Inv r fields base { s with mem, free } := by
  have hdescribed := described_store free hch ht
  refine ⟨hch.length_eq.trans h.length, h.todo, ?_, h.apart, ?_, ?_, ?_, ?_, hregion, ?_⟩
  · intro c hc
    have hcall := h.calls c hc
    refine ⟨hcall.space, hcall.key, hcall.field, ?_, hcall.fresh, ?_, hcall.pointed, ?_⟩
    · intro hstage
      refine (hch.slice (disjoint_left.mpr ?_)).trans (hcall.copied hstage)
      intro i hi hit
      exact disjoint_left.mp ht hit (.inr ⟨c, hc, hstage, hi⟩)
    · rw [hdescribed]
      exact hcall.announced
    · rw [hdescribed]
      exact hcall.clear
  · intro d hd
    have hcarried := h.carried d hd
    refine ⟨?_, hcarried.pos, hch.length_eq ▸ hcarried.inside, hcarried.space⟩
    have haccepted := hcarried.accepted
    rw [DeltaMessage.Accepted] at haccepted ⊢
    rwa [hch.length_eq]
  · rw [hdescribed]
    exact h.valid
  · rw [hdescribed]
    exact h.shows
  · rw [hdescribed]
    exact h.bound
  · rw [hdescribed]
    exact h.clear

/-- A store that does not reach the index. -/
theorem Inv.write (h : Inv r fields base s) (hch : ChangesOnly t s.mem mem) (ht : Disjoint t s.unlogged)
    (hart : Disjoint (artRegion r) t) : Inv r fields base { s with mem } :=
  h.store hch ht (h.region.frame hch hart)

theorem Inv.drop (h : Inv r fields base s) (c : Call) : Inv r fields base { s with calls := s.calls.erase c } where
  length := h.length
  todo := h.todo
  calls c' hc' :=
    have hcall := h.calls c' (List.mem_of_mem_erase hc')
    ⟨hcall.space, hcall.key, hcall.field, hcall.copied, hcall.fresh, hcall.announced, hcall.pointed, hcall.clear⟩
  apart := h.apart.sublist List.erase_sublist
  carried := h.carried
  valid := h.valid
  shows := h.shows
  bound := h.bound
  region := h.region
  clear := h.clear

/-- A call that takes space which no other call has. -/
theorem Inv.adopt (h : Inv r fields base s) (hc : Backed r fields base s c)
    (happart : ∀ c' ∈ s.calls, Disjoint c.range c'.range) :
    Inv r fields base { s with calls := c :: s.calls } where
  length := h.length
  todo := h.todo
  calls c' hc' := by
    have hcall : Backed r fields base s c' := by
      rcases List.mem_cons.mp hc' with rfl | hold
      · exact hc
      · exact h.calls c' hold
    exact ⟨hcall.space, hcall.key, hcall.field, hcall.copied, hcall.fresh, hcall.announced, hcall.pointed, hcall.clear⟩
  apart := List.pairwise_cons.mpr ⟨happart, h.apart⟩
  carried := h.carried
  valid := h.valid
  shows := h.shows
  bound := h.bound
  region := h.region
  clear := h.clear

theorem Assigned.mono {a : ℕ} {value : Option Bytes} (h : Assigned base s a value) (hsub : s.assigned ⊆ s'.assigned) :
    Assigned base s' a value := by
  rcases h with h | ⟨v, hv, h⟩
  · exact .inl h
  · exact .inr ⟨v, hsub hv, h⟩

theorem Inv.assign (h : Inv r fields base s) (p : ℕ × Bytes) :
    Inv r fields base { s with assigned := p :: s.assigned } where
  length := h.length
  todo := h.todo
  calls c hc :=
    have hcall := h.calls c hc
    ⟨hcall.space, hcall.key, hcall.field, hcall.copied, hcall.fresh, hcall.announced,
      fun abs hfield hstage ↦ List.mem_cons_of_mem p (hcall.pointed abs hfield hstage), hcall.clear⟩
  apart := h.apart
  carried := h.carried
  valid := h.valid
  shows es hes a ha :=
    have hshows := h.shows es hes a ha
    ⟨hshows.1, hshows.2.mono (List.subset_cons_self p s.assigned)⟩
  bound := h.bound
  region := h.region
  clear := h.clear

/-- The other calls have other space. -/
theorem Inv.others (h : Inv r fields base s) (hc : c ∈ s.calls) : ∀ c' ∈ s.calls.erase c,
    Disjoint c.range c'.range := by
  have hperm := List.perm_cons_erase hc
  have happart := (hperm.pairwise_iff fun hd ↦ hd.symm).mp h.apart
  exact (List.pairwise_cons.mp happart).1

theorem described_push (s : System) (h : d.entry s.mem = some e) :
    System.described { s with queue := s.queue ++ [d] } = s.described ++ [e] := by
  simp [System.described, System.pending, h]

/-- The delta of a call joins the ring, and the call is over. -/
theorem Inv.push (h : Inv r fields base s) (hc : c ∈ s.calls) (hentry : d.entry s.mem = some e) (hd : Carried r s.mem d)
    (hrange : d.isArena ≠ deltaInline → Ico d.offset.toNat (d.offset.toNat + d.size.toNat) ⊆ c.range)
    (he : e.Valid base.length) (hch : ChangesOnly t (image s.described base) (image (s.described ++ [e]) base))
    (ht : ∀ c' ∈ s.calls.erase c, Disjoint c'.range t)
    (htargets : targets (image (s.described ++ [e]) base) fields ⊆ targets (image s.described base) fields ∪ c.range)
    (hshows : Shows r fields base s (image (s.described ++ [e]) base)) (hclear : Disjoint (covered [e]) (artRegion r)) :
    Inv r fields base { s with
      queue := s.queue ++ [d], calls := s.calls.erase c, bound := s.bound ++ e.indexOp.toList } := by
  have hdescribed : System.described { s with
      queue := s.queue ++ [d], calls := s.calls.erase c, bound := s.bound ++ e.indexOp.toList } = s.described ++ [e] :=
    described_push s hentry
  have hothers := h.others hc
  refine ⟨h.length, h.todo, ?_, h.apart.sublist List.erase_sublist, ?_, ?_, ?_, ?_, h.region, ?_⟩
  · intro c' hc'
    have hcall := h.calls c' (List.mem_of_mem_erase hc')
    refine ⟨hcall.space, hcall.key, hcall.field, hcall.copied, ?_, ?_, hcall.pointed, ?_⟩
    · intro hstage
      refine disjoint_left.mpr ?_
      intro i hi hqueued
      obtain ⟨d', hd', htag, hin⟩ := hqueued
      have hmem : d' ∈ s.pending ∨ d' = d := by
        simp only [System.pending, List.mem_append, List.mem_singleton] at hd' ⊢
        tauto
      rcases hmem with hold | rfl
      · exact disjoint_left.mp (hcall.fresh hstage) hi ⟨d', hold, htag, hin⟩
      · exact disjoint_left.mp (hothers c' hc') (hrange htag hin) hi
    · rw [hdescribed]
      intro hstage
      obtain ⟨hpos, hslice⟩ := hcall.announced hstage
      exact ⟨hpos, (hch.slice (ht c' hc')).trans hslice⟩
    · rw [hdescribed]
      refine disjoint_left.mpr ?_
      intro i hi htarget
      rcases htargets htarget with hold | hnew
      · exact disjoint_left.mp hcall.clear hi hold
      · exact disjoint_left.mp (hothers c' hc') hnew hi
  · intro d' hd'
    have hmem : d' ∈ s.pending ∨ d' = d := by
      simp only [System.pending, List.mem_append, List.mem_singleton] at hd' ⊢
      tauto
    rcases hmem with hold | rfl
    · exact h.carried d' hold
    · exact hd
  · rw [hdescribed]
    intro e' he'
    rcases List.mem_append.mp he' with hold | hnew
    · exact h.valid e' hold
    · obtain rfl := List.mem_singleton.mp hnew
      exact he
  · rw [hdescribed]
    intro es hes
    rcases List.prefix_concat_iff.mp hes with rfl | hold
    · exact hshows
    · exact h.shows es hold
  · rw [hdescribed, List.filterMap_append, h.bound]
    rfl
  · rw [hdescribed, covered_append]
    exact disjoint_union_left.mpr ⟨h.clear, hclear⟩

/-- The flusher moves deltas on to the log and changes nothing else. -/
theorem Inv.relog (h : Inv r fields base s) {queue : List DeltaMessage} {popped : Option DeltaMessage}
    {log : List Entry}
    (hdescribed : System.described { s with queue, popped, log } = s.described)
    (hpending : System.pending { s with queue, popped, log } ⊆ s.pending) :
      Inv r fields base { s with queue, popped, log } := by
  refine ⟨h.length, h.todo, ?_, h.apart, fun d hd ↦ h.carried d (hpending hd), ?_, ?_, ?_, h.region, ?_⟩
  · intro c hc
    have hcall := h.calls c hc
    refine ⟨hcall.space, hcall.key, hcall.field, hcall.copied, ?_, ?_, hcall.pointed, ?_⟩
    · intro hstage
      refine (hcall.fresh hstage).mono_right ?_
      intro i hi
      obtain ⟨d, hd, hin⟩ := hi
      exact ⟨d, hpending hd, hin⟩
    · rw [hdescribed]
      exact hcall.announced
    · rw [hdescribed]
      exact hcall.clear
  · rw [hdescribed]
    exact h.valid
  · rw [hdescribed]
    exact h.shows
  · rw [hdescribed]
    exact h.bound
  · rw [hdescribed]
    exact h.clear

theorem Inv.process (h : Inv r fields base s) (hpopped : s.popped = some d) :
    Inv r fields base { s with log := s.log ++ logOf d s.mem, popped := none } := by
  have hpending : s.pending = d :: s.queue := by
    rw [System.pending, hpopped]
    rfl
  have hd := h.carried d (hpending ▸ List.mem_cons_self)
  refine h.relog ?_ ?_
  · have hlog : logOf d s.mem = (d.entry s.mem).toList := if_pos hd.accepted
    have hrest : System.pending { s with log := s.log ++ logOf d s.mem, popped := none } = s.queue := rfl
    rw [System.described, System.described, hrest, hpending, hlog, List.filterMap_cons]
    cases hentry : d.entry s.mem with
    | none => simp
    | some e => simp
  · rw [hpending]
    exact List.subset_cons_self d s.queue

theorem Inv.pop (h : Inv r fields base s) {queue : List DeltaMessage} (hnone : s.popped = none)
    (hqueue : s.queue = d :: queue) : Inv r fields base { s with popped := some d, queue } := by
  have hpending : System.pending { s with popped := some d, queue } = s.pending := by
    rw [System.pending, System.pending, hnone, hqueue]
    rfl
  refine h.relog ?_ ?_
  · rw [System.described, System.described, hpending]
  · rw [hpending]
    exact List.Subset.refl _

/-- What waits to be logged lies among the strings. -/
theorem Inv.unlogged_space (h : Inv r fields base s) : s.unlogged ⊆ Ico r.stringDataStart r.stringEnd := by
  intro i hi
  rcases hi with ⟨d, hd, htag, hin⟩ | ⟨c, hc, _, hin⟩
  · obtain ⟨hlow, hhigh⟩ := (h.carried d hd).space htag
    exact ⟨hlow.trans hin.1, hin.2.trans_le hhigh⟩
  · obtain ⟨hlow, hhigh⟩ := (h.calls c hc).space
    exact ⟨hlow.trans hin.1, hin.2.trans_le hhigh⟩

theorem Inv.bumpSpan_clear (h : Inv r fields base s) : Disjoint (bumpSpan r) s.unlogged :=
  disjoint_left.mpr fun _ hi hwaits ↦ not_lt.mpr (h.unlogged_space hwaits).1 hi.2

theorem Inv.imageLength (h : Inv r fields base s) : (image s.described base).length = base.length :=
  length_image r h.valid

theorem carried_textDelta (hlow : r.stringDataStart ≤ off) (hhigh : off + n ≤ r.stringEnd) (hpos : 0 < n)
    (hle : n ≤ maxEntryLen) (hmem : r.stringEnd ≤ mem.length) (hword : mem.length < 2 ^ 32) :
    Carried r mem (textDelta off n) := by
  have hoff : (textDelta off n).offset.toNat = off := toNat_ofNat_of_lt (by omega)
  have hlen : (textDelta off n).size.toNat = n := toNat_ofNat_of_lt (by omega)
  have htag : (textDelta off n).isArena = deltaArena := rfl
  refine ⟨?_, ?_, ?_, fun _ ↦ ?_⟩
  · rw [DeltaMessage.Accepted, if_pos htag, hoff, hlen]
    exact ⟨hle, by omega⟩
  · rw [hlen]
    exact hpos
  · rw [hoff, hlen]
    omega
  · rw [hoff, hlen]
    exact ⟨hlow, hhigh⟩

section Calls

variable (hr : Layout.Valid r base.length)
include hr

/-- The fields lie below the strings, and the arena has an address for each byte. -/
theorem recordEnd_le : r.recordEnd ≤ r.stringStart.toNat ∧ r.stringEnd ≤ base.length ∧ base.length < 2 ^ 32 := by
  have hend := hr.recordEnd_le
  have hart := hr.artEnd_le
  have hbase : r.artEnd = r.artRoot.toNat + r.artBytes.toNat := rfl
  exact ⟨by omega, hr.stringEnd_le, hr.arena ▸ r.arenaBytes.toNat_lt⟩

/-- The bump word of the strings moves. -/
theorem Inv.bump (h : Inv r fields base s) (hch : ChangesOnly (bumpSpan r) s.mem mem) :
    Inv r fields base { s with mem } :=
  h.write hch (h.bumpSpan_clear) (disjoint_artRegion hr fun _ hi ↦ hi.1)

/-- A call of the index that stays in its region. -/
theorem Inv.index {op : Op} {free : Freelist} (h : Inv r fields base s) (hfits : FitsRegion r s.art op)
    (hcall : IndexCall (regionIndex r) s.art op ⟨mem, free⟩) : Inv r fields base { s with mem, free } := by
  obtain ⟨heap, root, hc⟩ := inRegion_iff.mp h.region
  obtain ⟨heap', root', hc', -, hch⟩ := hc.call (artEnd_le hr).2 hfits hcall
  refine h.store hch ?_ (inRegion_iff.mpr ⟨heap', root', hc'⟩)
  refine (disjoint_artRegion hr fun i hi ↦ ?_).mono_right h.unlogged_space
  exact le_trans (Nat.le_add_right _ 8) hi.1

theorem Inv.take (h : Inv r fields base s) (hch : ChangesOnly (bumpSpan r ∪ t) s.mem mem) (ht : t ⊆ c.range)
    (hroom : c.off + c.content.length ≤ r.stringEnd) (hfree : Free r fields base s c.off c.content.length)
    (hkey : ∀ v, c.purpose = .key v → (0 < c.content.length ∧ c.content.length ≤ maxKeyLen) ∧ c.stage = .copied)
    (hfield : ∀ abs, c.purpose = .field abs → abs ∈ fields) (hstage : c.stage = .granted ∨ c.stage = .copied)
    (hcopied : c.stage = .copied → slice mem c.off c.content.length = c.content) :
    Inv r fields base { s with mem, calls := c :: s.calls } := by
  obtain ⟨hlow, hunlogged, hcalls, hclear⟩ := hfree
  have hmiss : Disjoint (bumpSpan r ∪ t) s.unlogged :=
    disjoint_union_left.mpr ⟨h.bumpSpan_clear, hunlogged.mono_left ht⟩
  have hart : Disjoint (artRegion r) (bumpSpan r ∪ t) :=
    (disjoint_artRegion hr (strings_above hlow c.content.length)).mono_right (union_subset_union_right _ ht)
  have hdescribed := described_store s.free hch hmiss
  have hearly : ¬ (c.stage = .announced ∨ c.stage = .pointed) := by
    rcases hstage with hstage | hstage <;> simp [hstage]
  refine (h.write hch hmiss hart).adopt ?_ hcalls
  refine ⟨⟨hlow, hroom⟩, hkey, hfield, hcopied, ?_, fun hlate ↦ absurd hlate hearly, ?_, ?_⟩
  · intro _
    exact hunlogged.mono_right subset_union_left
  · intro abs _ hlate
    exact absurd (.inr hlate) hearly
  · rw [hdescribed]
    exact hclear

/-- A change among the strings away from those that the fields point to. -/
theorem Shows.frame (hf : Fields r fields base) {m m' : Bytes} (h : Shows r fields base s m) (hch : ChangesOnly t m m')
    (hspace : t ⊆ Ico r.stringDataStart r.stringEnd) (ht : Disjoint t (targets m fields)) :
    Shows r fields base s m' ∧ targets m' fields = targets m fields := by
  obtain ⟨hlow, -, -⟩ := recordEnd_le hr
  have hdata : r.stringDataStart = r.stringStart.toNat + 8 := rfl
  have hsame : ∀ a ∈ fields, readU32 m' a = readU32 m a ∧ readU32 m' (a + 4) = readU32 m (a + 4) ∧
      readString m' a = readString m a := by
    intro a ha
    refine readString_frame hch (disjoint_left.mpr ?_) (disjoint_left.mpr ?_)
    · intro i hi hit
      have := (hspace hit).1
      have := hi.2
      have := (hf.region a ha).2
      omega
    · intro i hi hit
      exact disjoint_left.mp ht hit ⟨a, ha, hi⟩
  constructor
  · intro a ha
    obtain ⟨hoff, hlen, hread⟩ := hsame a ha
    rw [Inside, hoff, hlen, hread]
    exact h a ha
  · ext i
    refine exists_congr fun a ↦ and_congr_right ?_
    intro ha
    obtain ⟨hoff, hlen, -⟩ := hsame a ha
    rw [hoff, hlen]

/-- The bytes of a string go where nothing else waits. -/
theorem Inv.copy (h : Inv r fields base s) (hc : c ∈ s.calls) (hstage : c.stage = .granted) :
    Inv r fields base { s with mem := overwrite s.mem c.off c.content, calls := s.moved c .copied } := by
  have hcall := h.calls c hc
  obtain ⟨-, hend, -⟩ := recordEnd_le hr
  have hfit : c.off + c.content.length ≤ s.mem.length := by
    have := hcall.space.2
    have := h.length
    omega
  have hch := changesOnly_overwrite hfit
  have hmiss : Disjoint c.range s.unlogged := by
    refine disjoint_left.mpr ?_
    intro i hi hwaits
    rcases hwaits with hqueued | ⟨c', hc', hcopied, hin⟩
    · exact disjoint_left.mp (hcall.fresh (.inl hstage)) hi hqueued
    · have hne : c' ≠ c := by
        rintro rfl
        rw [hstage] at hcopied
        cases hcopied
      exact disjoint_left.mp (h.others hc c' ((List.mem_erase_of_ne hne).mpr hc')) hi hin
  have hart : Disjoint (artRegion r) c.range :=
    (disjoint_artRegion hr (strings_above hcall.space.1 c.content.length)).mono_right subset_union_right
  have hdescribed := described_store s.free hch hmiss
  refine ((h.write hch hmiss hart).drop c).adopt (c := { c with stage := .copied }) ?_ (h.others hc)
  refine ⟨hcall.space, ?_, hcall.field, fun _ ↦ slice_overwrite_self hfit, fun _ ↦ hcall.fresh (.inl hstage), ?_, ?_,
    ?_⟩
  · intro v hv
    exact ⟨(hcall.key v hv).1, rfl⟩
  · intro hlate
    simp at hlate
  · intro abs _ hlate
    cases hlate
  · have hclear := hcall.clear
    rw [← hdescribed] at hclear
    exact hclear

theorem Inv.announce (h : Inv r fields base s) (hf : Fields r fields base) (hc : c ∈ s.calls)
    (hstage : c.stage = .copied)
    (hfield : c.purpose = .field abs) (hpos : 0 < c.content.length) (hle : c.content.length ≤ maxEntryLen) :
    Inv r fields base { s with
      queue := s.queue ++ [textDelta c.off c.content.length], calls := s.moved c .announced } := by
  have hcall := h.calls c hc
  obtain ⟨-, hend, hbase⟩ := recordEnd_le hr
  obtain ⟨hlow, hhigh⟩ := hcall.space
  have hlength := h.length
  have hoff : (UInt32.ofNat c.off).toNat = c.off := toNat_ofNat_of_lt (by omega)
  have hlen : (UInt32.ofNat c.content.length).toNat = c.content.length := toNat_ofNat_of_lt (by omega)
  have hentry : (textDelta c.off c.content.length).entry s.mem = some ⟨.arenaWrite, UInt32.ofNat c.off, c.content⟩ := by
    rw [entry_textDelta (by omega) (by omega), hcall.copied hstage]
  have hrange : Ico (textDelta c.off c.content.length).offset.toNat
      ((textDelta c.off c.content.length).offset.toNat + (textDelta c.off c.content.length).size.toNat) = c.range := by
    rw [textDelta, hoff, hlen]
    rfl
  have hcarried := carried_textDelta hlow hhigh hpos hle (show r.stringEnd ≤ s.mem.length by omega) (by omega)
  have hvalid : Entry.Valid base.length ⟨.arenaWrite, UInt32.ofNat c.off, c.content⟩ := by
    refine ⟨hpos, hle, fun _ ↦ ?_⟩
    simp only [hoff]
    omega
  have himage := h.imageLength
  have hstore : image (s.described ++ [⟨.arenaWrite, UInt32.ofNat c.off, c.content⟩]) base =
      overwrite (image s.described base) c.off c.content := by
    rw [image_concat]
    exact congrArg (overwrite (image s.described base) · c.content) hoff
  have hfit : c.off + c.content.length ≤ (image s.described base).length := by omega
  have hch : ChangesOnly c.range (image s.described base)
      (image (s.described ++ [⟨.arenaWrite, UInt32.ofNat c.off, c.content⟩]) base) := by
    rw [hstore]
    exact changesOnly_overwrite hfit
  have hothers := h.others hc
  obtain ⟨hshows, htargets⟩ := (h.shows s.described List.prefix_rfl).frame hr hf hch (Ico_subset_Ico hlow hhigh) hcall.clear
  have hdescribed := described_push s hentry
  have hclear : Disjoint (covered [⟨.arenaWrite, UInt32.ofNat c.off, c.content⟩]) (artRegion r) := by
    rw [covered_write, hoff]
    exact ((disjoint_artRegion hr (strings_above hlow c.content.length)).mono_right subset_union_right).symm
  have hpushed := h.push hc hentry hcarried (fun _ ↦ hrange.subset) hvalid hch (fun c' hc' ↦ (hothers c' hc').symm)
    (htargets.subset.trans subset_union_left) hshows hclear
  have hbound : s.bound ++ (Entry.indexOp ⟨.arenaWrite, UInt32.ofNat c.off, c.content⟩).toList = s.bound :=
    List.append_nil s.bound
  rw [hbound] at hpushed
  refine hpushed.adopt (c := { c with stage := .announced }) ?_ hothers
  refine ⟨hcall.space, ?_, hcall.field, ?_, ?_, ?_, ?_, ?_⟩
  · intro v hv
    rw [hfield] at hv
    cases hv
  · intro hcopied
    cases hcopied
  · intro hearly
    simp at hearly
  · intro _
    refine ⟨hpos, (congrArg (fun es ↦ slice (image es base) c.off c.content.length) hdescribed).trans ?_⟩
    rw [hstore]
    exact slice_overwrite_self hfit
  · intro abs _ hlate
    cases hlate
  · have hclear := hcall.clear
    rw [← htargets, ← hdescribed] at hclear
    exact hclear

/-- The fields lie where nothing waits. -/
theorem field_low (hf : Fields r fields base) {a : ℕ} (ha : a ∈ fields) :
    a + 8 ≤ r.stringDataStart ∧ a + 8 ≤ base.length := by
  obtain ⟨hlow, hend, -⟩ := recordEnd_le hr
  have hregion := (hf.region a ha).2
  have hdata : r.stringDataStart = r.stringStart.toNat + 8 := rfl
  have hstring := (stringEnd_le hr).2
  omega

theorem field_clear (hf : Fields r fields base) {a : ℕ} (ha : a ∈ fields) :
    Disjoint (artRegion r) (Ico a (a + 8)) :=
  disjoint_Ico (.inr ((hf.region a ha).2.trans hr.recordEnd_le))

theorem Inv.point (h : Inv r fields base s) (hf : Fields r fields base) (hc : c ∈ s.calls)
    (hstage : c.stage = .announced)
    (hfield : c.purpose = .field abs) :
    Inv r fields base { s with
      mem := pointString abs c.off c.content.length s.mem
      calls := s.moved c .pointed, assigned := (abs, c.content) :: s.assigned } := by
  have hcall := h.calls c hc
  obtain ⟨hlow, hin⟩ := field_low hr hf (hcall.field abs hfield)
  have hfit : abs + 8 ≤ s.mem.length := h.length ▸ hin
  have hch := changesOnly_pointString hfit c.off c.content.length
  have hmiss : Disjoint (Ico abs (abs + 8)) s.unlogged := by
    refine disjoint_left.mpr ?_
    intro i hi hwaits
    have := (h.unlogged_space hwaits).1
    have := hi.2
    omega
  have hdescribed := described_store s.free hch hmiss
  have hart := field_clear hr hf (hcall.field abs hfield)
  have hstored := ((h.write hch hmiss hart).assign (abs, c.content)).drop c
  refine hstored.adopt (c := { c with stage := .pointed }) ?_ (h.others hc)
  refine ⟨hcall.space, ?_, hcall.field, ?_, ?_, ?_, ?_, ?_⟩
  · intro v hv
    rw [hfield] at hv
    cases hv
  · intro hcopied
    cases hcopied
  · intro hearly
    simp at hearly
  · intro _
    have hannounced := hcall.announced (.inl hstage)
    rw [← hdescribed] at hannounced
    exact hannounced
  · intro abs' habs' _
    obtain rfl := Purpose.field.inj (hfield.symm.trans habs')
    exact List.mem_cons_self
  · have hclear := hcall.clear
    rw [← hdescribed] at hclear
    exact hclear

theorem Inv.send (h : Inv r fields base s) (hf : Fields r fields base) (hc : c ∈ s.calls) (hstage : c.stage = .pointed)
    (hfield : c.purpose = .field abs) :
    Inv r fields base { s with
      queue := s.queue ++ [pointerDelta abs c.off c.content.length], calls := s.calls.erase c } := by
  have hcall := h.calls c hc
  obtain ⟨hlow, hhigh⟩ := hcall.space
  obtain ⟨hpos, hcontent⟩ := hcall.announced (.inr hstage)
  have ha := hcall.field abs hfield
  obtain ⟨hbelow, hin⟩ := field_low hr hf ha
  obtain ⟨-, hend, hbase⟩ := recordEnd_le hr
  have hlength := h.length
  have himage := h.imageLength
  have habs : (UInt32.ofNat abs).toNat = abs := toNat_ofNat_of_lt (by omega)
  have hentry := entry_pointerDelta abs c.off c.content.length s.mem
  have hsize : (leEncode 4 c.off ++ leEncode 4 c.content.length).length = 8 := by simp
  have hcarried : Carried r s.mem (pointerDelta abs c.off c.content.length) := by
    refine ⟨?_, ?_, ?_, ?_⟩
    · exact (show (8 : ℕ) ≤ 48 by omega)
    · exact (show (1 : ℕ) ≤ 8 by omega)
    · have hfit : (UInt32.ofNat abs).toNat + 8 ≤ s.mem.length := by omega
      exact hfit
    · intro htag
      exact absurd rfl htag
  have hvalid : Entry.Valid base.length
      ⟨.arenaWrite, UInt32.ofNat abs, leEncode 4 c.off ++ leEncode 4 c.content.length⟩ := by
    refine ⟨?_, ?_, fun _ ↦ ?_⟩
    · simp only [hsize]
      omega
    · simp only [hsize, maxEntryLen]
      omega
    · simp only [hsize, habs]
      omega
  have hstore : image (s.described ++ [⟨.arenaWrite, UInt32.ofNat abs,
      leEncode 4 c.off ++ leEncode 4 c.content.length⟩]) base =
      pointString abs c.off c.content.length (image s.described base) := by
    rw [image_concat]
    exact store_pointer (by omega) (by omega) _ _
  have hfit : abs + 8 ≤ (image s.described base).length := by omega
  have hch := changesOnly_pointString hfit c.off c.content.length
  obtain ⟨hoff, hlen⟩ := readU32_pointString hfit (show c.off < 2 ^ 32 by omega)
    (show c.content.length < 2 ^ 32 by omega)
  have hshown := h.shows s.described List.prefix_rfl
  have hother : ∀ a ∈ fields, a ≠ abs → readU32 (pointString abs c.off c.content.length (image s.described base)) a =
        readU32 (image s.described base) a ∧
      readU32 (pointString abs c.off c.content.length (image s.described base)) (a + 4) =
        readU32 (image s.described base) (a + 4) ∧
      readString (pointString abs c.off c.content.length (image s.described base)) a =
        readString (image s.described base) a := by
    intro a ha' hne
    refine readString_frame hch (disjoint_Ico ?_) ?_
    · exact (hf.apart a ha' abs ha).resolve_left hne
    · rcases (hshown a ha').1 with ⟨hzero, hnone⟩ | ⟨hspace, -⟩
      · rw [hzero, hnone]
        exact disjoint_Ico (.inl (by omega))
      · exact disjoint_Ico (.inr (by omega))
  rw [← hstore] at hch hoff hlen hother
  have hclear : Disjoint (covered [⟨.arenaWrite, UInt32.ofNat abs, leEncode 4 c.off ++ leEncode 4 c.content.length⟩])
      (artRegion r) := by
    rw [covered_write, habs, hsize]
    exact (field_clear hr hf ha).symm
  have hpushed := h.push hc hentry hcarried (fun htag ↦ absurd rfl htag) hvalid hch ?_ ?_ ?_ hclear
  · have hbound : s.bound ++ (Entry.indexOp
        ⟨.arenaWrite, UInt32.ofNat abs, leEncode 4 c.off ++ leEncode 4 c.content.length⟩).toList = s.bound :=
      List.append_nil s.bound
    rwa [hbound] at hpushed
  · intro c' hc'
    have := (h.calls c' (List.mem_of_mem_erase hc')).space.1
    exact disjoint_Ico (.inr (by omega))
  · intro i hi
    obtain ⟨a, ha', hi⟩ := hi
    by_cases heq : a = abs
    · subst heq
      rw [hoff, hlen] at hi
      exact .inr hi
    · obtain ⟨h₁, h₂, -⟩ := hother a ha' heq
      rw [h₁, h₂] at hi
      exact .inl ⟨a, ha', hi⟩
  · intro a ha'
    by_cases heq : a = abs
    · subst heq
      refine ⟨.inr ?_, .inr ⟨c.content, hcall.pointed a hfield hstage, ?_⟩⟩
      · rw [hoff, hlen]
        exact ⟨hlow, hhigh⟩
      · rw [readString_eq hoff hlen (by omega) (by rw [hch.length_eq]; omega),
          hch.slice (disjoint_Ico (.inr (by omega))), hcontent]
    · obtain ⟨h₁, h₂, h₃⟩ := hother a ha' heq
      rw [Inside, h₁, h₂, h₃]
      exact hshown a ha'

theorem Inv.bind (h : Inv r fields base s) {value : UInt32} (hc : c ∈ s.calls) (hkey : c.purpose = .key value) :
    Inv r fields base { s with
      queue := s.queue ++ [indexDelta c.off c.content value]
      calls := s.calls.erase c, bound := s.bound ++ [⟨c.content, value⟩] } := by
  have hcall := h.calls c hc
  obtain ⟨hlow, hhigh⟩ := hcall.space
  obtain ⟨⟨hpos, hle⟩, hstage⟩ := hcall.key value hkey
  obtain ⟨-, hend, hbase⟩ := recordEnd_le hr
  have hlength := h.length
  have hoff : (indexDelta c.off c.content value).offset.toNat = c.off := toNat_ofNat_of_lt (by omega)
  have hlen : (indexDelta c.off c.content value).size.toNat = c.content.length := toNat_ofNat_of_lt (by omega)
  have hentry : (indexDelta c.off c.content value).entry s.mem = some ⟨.indexOp, value, c.content⟩ := by
    refine entry_indexDelta value ?_
    rw [hoff, hlen]
    exact hcall.copied hstage
  have hcarried : Carried r s.mem (indexDelta c.off c.content value) := by
    refine ⟨?_, ?_, ?_, fun _ ↦ ?_⟩
    · have haccepted : (0 < (indexDelta c.off c.content value).size.toNat ∧
          (indexDelta c.off c.content value).size.toNat ≤ maxKeyLen) ∧
          (indexDelta c.off c.content value).offset.toNat + (indexDelta c.off c.content value).size.toNat ≤ s.mem.length := by
        rw [hoff, hlen]
        exact ⟨⟨hpos, hle⟩, by omega⟩
      exact haccepted
    · rw [hlen]
      exact hpos
    · rw [hoff, hlen]
      omega
    · rw [hoff, hlen]
      exact ⟨hlow, hhigh⟩
  have hvalid : Entry.Valid base.length ⟨.indexOp, value, c.content⟩ := by
    refine ⟨hpos, hle.trans (by decide), fun hkind ↦ ?_⟩
    cases hkind
  have hsame : image (s.described ++ [⟨.indexOp, value, c.content⟩]) base = image s.described base := image_concat _ _ _
  refine h.push hc hentry hcarried ?_ hvalid (t := ∅) ?_ ?_ ?_ ?_ ?_
  · rw [hoff, hlen]
    exact fun _ ↦ Subset.rfl
  · rw [hsame]
    exact .rfl'
  · exact fun _ _ ↦ disjoint_empty _
  · rw [hsame]
    exact subset_union_left
  · rw [hsame]
    exact h.shows s.described List.prefix_rfl
  · rw [covered_indexOp]
    exact empty_disjoint _

end Calls

end TakyonDb.VacuumLog
