import TakyonDb.Art.History
import TakyonDb.Barrier
import TakyonDb.Recovery
import TakyonDb.Segments

namespace TakyonDb

open Lib Layout Wal Replay WalManager Art Set

def DeltaMessage.indexOp (d : DeltaMessage) (arenaMem : Bytes) : Option IndexOp :=
  (d.entry arenaMem).bind Entry.indexOp

namespace Exports

theorem pushWithBackPressure_zero {d : DeltaMessage} {e e' : Engine}
    (h : e.pushWithBackPressure d 0 = (rcOk, e')) : e' = { e with queue := e.queue ++ [d] } := by
  rw [Engine.pushWithBackPressure, List.drop_zero] at h
  cases hpush : e.push d with
  | some e₁ =>
    rw [hpush] at h
    rw [← (Prod.mk.inj h).2, push_eq_some hpush]
  | none =>
    rw [hpush] at h
    dsimp only at h
    rw [hpush] at h
    cases (Prod.mk.inj h).1

/-- A write call other than an index insert pushes one delta, which carries
or announces arena bytes. -/
theorem takyonWriteDelta_ok {offset : UInt32} {data : Bytes} {e e' : Engine}
    (h : takyonWriteDelta offset data 0 e = (rcOk, e')) :
    ∃ d, e' = { e with queue := e.queue ++ [d] } ∧ Barrier.FromClient e.arena.length d ∧
      d.isArena ≠ deltaIndexOp := by
  simp only [takyonWriteDelta] at h
  split_ifs at h with h₁ h₂ h₃
  · cases (Prod.mk.inj h).1
  · cases (Prod.mk.inj h).1
  · cases (Prod.mk.inj h).1
  · have hsize : (UInt32.ofNat data.length).toNat = data.length := toNat_ofNat_of_lt (by omega)
    refine ⟨_, pushWithBackPressure_zero h, ⟨?_, ?_, .inl ⟨rfl, ?_⟩⟩, ?_⟩
    · dsimp only
      omega
    · dsimp only
      omega
    · dsimp only
      omega
    · exact (by decide : deltaInline ≠ deltaIndexOp)

theorem takyonNotifyArena_ok {offset size : UInt32} {e e' : Engine}
    (h : takyonNotifyArena offset size 0 e = (rcOk, e')) :
    ∃ d, e' = { e with queue := e.queue ++ [d] } ∧ Barrier.FromClient e.arena.length d ∧
      d.isArena ≠ deltaIndexOp := by
  simp only [takyonNotifyArena] at h
  split_ifs at h with h₁ h₂ h₃
  · cases (Prod.mk.inj h).1
  · cases (Prod.mk.inj h).1
  · cases (Prod.mk.inj h).1
  · refine ⟨_, pushWithBackPressure_zero h, ⟨?_, ?_, .inr (.inl rfl)⟩, ?_⟩
    · dsimp only
      omega
    · dsimp only
      omega
    · exact (by decide : deltaArena ≠ deltaIndexOp)

/-- A removal that is not refused leaves the engine with what it left of the arena. -/
theorem takyonRemoveIndex_ok {key : Bytes} {rc : ℤ} {e e' : Engine}
    (h : takyonRemoveIndex key e = some (rc, e')) (hrc : rc ≠ rcError) :
    ∃ found s, Art.remove e.index key e.art = .ok found s ∧ e' = e.withArt s := by
  rw [takyonRemoveIndex] at h
  split_ifs at h with h₁ h₂
  · exact absurd (Prod.mk.inj (Option.some.inj h)).1.symm hrc
  · cases hremove : Art.remove e.index key e.art with
    | ok found s =>
      rw [hremove] at h
      exact ⟨found, s, rfl, (Prod.mk.inj (Option.some.inj h)).2.symm⟩
    | error stop s =>
      rw [hremove] at h
      cases stop with
      | error err => exact absurd (Prod.mk.inj (Option.some.inj h)).1.symm hrc
      | illegal => cases h
      | outOfFuel => cases h
  · exact absurd (Prod.mk.inj (Option.some.inj h)).1.symm hrc

end Exports

namespace IndexLog

open Exports

/-- A call of `takyonInsertIndex` that has copied its key. -/
structure Call where
  keyOffset : ℕ
  key : Bytes
  value : UInt32
deriving DecidableEq

namespace Call

def op (c : Call) : IndexOp := ⟨c.key, c.value⟩

def delta (c : Call) : DeltaMessage := indexDelta c.keyOffset c.key c.value

/-- The key is where the call put it. -/
structure Copied (c : Call) (arena : Bytes) : Prop where
  pos : 1 ≤ c.key.length
  le : c.key.length ≤ maxKeyLen
  inside : c.keyOffset + c.key.length ≤ arena.length
  key : slice arena c.keyOffset c.key.length = c.key

end Call

/-- The clients' calls in flight, the engine that they share, and the
flusher. `logged`, `bound` and `applied` are history variables: the records
of the log, the bindings in the order of their pushes, and the changes of
the live index in theirs. -/
structure System where
  engine : Engine
  popped : Option DeltaMessage
  allocated : List Call
  pushed : List Call
  wal : WalManager
  logged : List Entry
  bound : List IndexOp
  applied : List (Bytes × Option UInt32)

def start (e : Engine) : System where
  engine := e
  popped := none
  allocated := []
  pushed := []
  wal := init LogFiles.empty
  logged := []
  bound := []
  applied := []

namespace System

/-- The deltas that were pushed and not yet logged. -/
def pending (s : System) : List DeltaMessage := s.popped.toList ++ s.engine.queue

/-- Where the string region holds keys that the log does not hold yet. -/
def keyRanges (s : System) : List Extent :=
  ((s.pending.filter (·.isArena = deltaIndexOp)).map fun d ↦ ⟨d.offset.toNat, d.size.toNat⟩) ++
    s.allocated.map fun c ↦ ⟨c.keyOffset, c.key.length⟩

/-- Another client stores into what it was granted: not into the index, not
into a key of somebody else, and the string bump word only grows. -/
structure Spares (s : System) (r : Regions) (arena : Bytes) : Prop where
  index : ChangesOnly (artRegion r)ᶜ s.engine.arena arena
  bump : stringBump r s.engine.arena ≤ stringBump r arena
  keys : ∀ g ∈ s.keyRanges, slice arena g.start g.len = slice s.engine.arena g.start g.len

/-- All calls have returned, the ring is drained and the buffer is flushed. -/
structure Quiescent (s : System) : Prop where
  allocated : s.allocated = []
  pushed : s.pushed = []
  pending : s.pending = []
  flushed : s.wal.sector = []

end System

inductive Event
  | alloc (key : Bytes) (value : UInt32)
  | push (c : Call)
  | insert (c : Call)
  | remove (key : Bytes)
  | writeDelta (offset : UInt32) (data : Bytes)
  | notifyArena (offset size : UInt32)
  | store (arena : Bytes)
  | pop
  | process
  | idleFlush
  | forcedFlush

/-- One step of a client or of the flusher. -/
inductive Step (r : Regions) : System → Event → System → Prop
  | alloc {s : System} {key : Bytes} {value : UInt32} {keyOffset : ℕ} {e : Engine} :
      insertIndexAlloc key value s.engine = (.ok keyOffset, e) →
      Step r s (.alloc key value)
        { s with engine := e, allocated := ⟨keyOffset, key, value⟩ :: s.allocated }
  | push {s : System} {c : Call} {e : Engine} : c ∈ s.allocated →
      s.engine.pushWithBackPressure c.delta 0 = (rcOk, e) →
      Step r s (.push c)
        { s with
          engine := e, allocated := s.allocated.erase c, pushed := c :: s.pushed
          bound := s.bound ++ [c.op] }
  | insert {s : System} {c : Call} {e : Engine} : c ∈ s.pushed →
      Answers (fun fuel ↦ insertIntoIndex fuel c.key c.value s.engine) (rcOk, e) →
      Step r s (.insert c)
        { s with
          engine := e, pushed := s.pushed.erase c, applied := s.applied ++ [(c.key, some c.value)] }
  | remove {s : System} {key : Bytes} {rc : ℤ} {e : Engine} :
      takyonRemoveIndex key s.engine = some (rc, e) → rc ≠ rcError →
      Step r s (.remove key) { s with engine := e, applied := s.applied ++ [(key, none)] }
  | writeDelta {s : System} {offset : UInt32} {data : Bytes} {e : Engine} :
      takyonWriteDelta offset data 0 s.engine = (rcOk, e) →
      Step r s (.writeDelta offset data) { s with engine := e }
  | notifyArena {s : System} {offset size : UInt32} {e : Engine} :
      takyonNotifyArena offset size 0 s.engine = (rcOk, e) →
      Step r s (.notifyArena offset size) { s with engine := e }
  | store {s : System} {arena : Bytes} : s.Spares r arena →
      Step r s (.store arena) { s with engine := { s.engine with arena } }
  | pop {s : System} {d : DeltaMessage} {rest : List DeltaMessage} : s.popped = none →
      s.engine.queue = d :: rest →
      Step r s .pop { s with popped := some d, engine := { s.engine with queue := rest } }
  | accept {s : System} {d : DeltaMessage} {w : WalManager} : s.popped = some d →
      processDelta d s.engine.arena s.wal = .ok w →
      Step r s .process
        { s with popped := none, wal := w, logged := s.logged ++ (d.entry s.engine.arena).toList }
  | refuse {s : System} {d : DeltaMessage} : s.popped = some d → ¬ d.Accepted s.engine.arena →
      Step r s .process { s with popped := none }
  | idleFlush {s : System} {w : WalManager} : s.pending = [] → flushIfUnambiguous s.wal = .ok w →
      Step r s .idleFlush { s with wal := w }
  | forcedFlush {s : System} {w : WalManager} : s.popped = none → flushBuffer s.wal = .ok w →
      Step r s .forcedFlush { s with wal := w }

/-- A forced flush leaves room for the padding that the reader knows, and a
change of the index finds its nodes in the index region and wraps no count. -/
def Regular (r : Regions) (s : System) : Event → Prop
  | .forcedFlush => s.wal.sector = [] ∨ minPadding ≤ sectorPayload - s.wal.sector.length
  | .insert c =>
      FitsRegion r s.engine.art (.insert c.key c.value) ∧
        KeepsCounts (regionIndex r) s.engine.art (.insert c.key c.value)
  | .remove key => FitsRegion r s.engine.art (.remove key)
  | .alloc _ _ | .push _ | .writeDelta _ _ | .notifyArena _ _ | .store _ | .pop | .process | .idleFlush => True

/-- The index calls come one after another. -/
def Sequential (s : System) : Event → Prop
  | .alloc _ _ | .remove _ => s.allocated = [] ∧ s.pushed = []
  | .push _ | .insert _ | .writeDelta _ _ | .notifyArena _ _ | .store _ | .pop | .process | .idleFlush
  | .forcedFlush => True

/-- The arena is mapped with a valid table, nothing was pushed yet, and the
index is open in its region and empty. -/
structure Booted (r : Regions) (e : Engine) : Prop where
  regions : e.regions = some r
  valid : Layout.Valid r e.arena.length
  bump : r.stringDataStart ≤ stringBump r e.arena
  queue : e.queue = []
  index : e.index = regionIndex r
  live : ∃ heap, Confined r e.arena.length e.art heap .nil

/-- What the queue, the log and the live index hold of the bindings. -/
structure Inv (r : Regions) (n : ℕ) (s : System) : Prop where
  regions : s.engine.regions = some r
  valid : Layout.Valid r n
  len : s.engine.arena.length = n
  bump : r.stringDataStart ≤ stringBump r s.engine.arena
  keys : ∀ g ∈ s.keyRanges, r.stringDataStart ≤ g.start ∧ g.stop ≤ stringBump r s.engine.arena
  copied : ∀ c ∈ s.allocated, c.Copied s.engine.arena
  client : ∀ d ∈ s.pending, Barrier.FromClient n d
  logs : Logs [] s.logged s.wal
  segmented : s.wal.Segmented
  entries : ∀ e ∈ s.logged, e.Valid n
  log : s.logged.filterMap Entry.indexOp ++ s.pending.filterMap (·.indexOp s.engine.arena) = s.bound
  bound : ∀ op ∈ s.bound, (∃ c ∈ s.pushed, c.op = op) ∨ ValidKey op.key ∧ op.value.toNat < n
  index : s.engine.index = regionIndex r
  live : ∃ h root, Bears r n s.engine.art h root s.applied

variable {r : Regions} {n : ℕ} {s t : System}

theorem indexOp_of_ne {d : DeltaMessage} (h : d.isArena ≠ deltaIndexOp) (arenaMem : Bytes) :
    d.indexOp arenaMem = none := by
  rw [DeltaMessage.indexOp, DeltaMessage.entry]
  split_ifs <;> rfl

theorem indexOp_congr {d : DeltaMessage} {arena arena' : Bytes}
    (h : d.isArena = deltaIndexOp →
      slice arena' d.offset.toNat d.size.toNat = slice arena d.offset.toNat d.size.toNat) :
    d.indexOp arena' = d.indexOp arena := by
  by_cases htag : d.isArena = deltaIndexOp
  · rw [DeltaMessage.indexOp, DeltaMessage.indexOp, DeltaMessage.entry, DeltaMessage.entry, h htag]
  · rw [indexOp_of_ne htag, indexOp_of_ne htag]

theorem toNat_delta {c : Call} {arena : Bytes} (hc : c.Copied arena) (hn : arena.length < 2 ^ 32) :
    c.delta.offset.toNat = c.keyOffset ∧ c.delta.size.toNat = c.key.length := by
  have hin := hc.inside
  exact ⟨toNat_ofNat_of_lt (by omega), toNat_ofNat_of_lt (by omega)⟩

theorem indexOp_delta {c : Call} {arena : Bytes} (hc : c.Copied arena) (hn : arena.length < 2 ^ 32) :
    c.delta.indexOp arena = some c.op := by
  obtain ⟨hoff, hsize⟩ := toNat_delta hc hn
  have hslice : slice arena c.delta.offset.toNat c.delta.size.toNat = c.key := by rw [hoff, hsize, hc.key]
  rw [DeltaMessage.indexOp, Call.delta, entry_indexDelta c.value hslice]
  rfl

theorem mem_keyRanges {g : Extent} : g ∈ s.keyRanges ↔
    (∃ d ∈ s.pending, d.isArena = deltaIndexOp ∧ ⟨d.offset.toNat, d.size.toNat⟩ = g) ∨
      ∃ c ∈ s.allocated, ⟨c.keyOffset, c.key.length⟩ = g := by
  simp only [System.keyRanges, List.mem_append, List.mem_map, List.mem_filter, decide_eq_true_eq,
    and_assoc]

theorem inv_start {e : Engine} (h : Booted r e) : Inv r e.arena.length (start e) where
  regions := h.regions
  valid := h.valid
  len := rfl
  bump := h.bump
  keys := by simp [System.keyRanges, System.pending, start, h.queue]
  copied := by simp [start]
  client := by simp [System.pending, start, h.queue]
  logs := by
    have hlogs := logs_init LogFiles.empty
    rwa [stream_init_empty] at hlogs
  segmented := segmented_init
  entries := by simp [start]
  log := by simp [System.pending, start, h.queue]
  bound := by simp [start]
  index := h.index
  live := h.live.imp fun _ hc ↦ ⟨.nil, hc.bears⟩

/-- Calls that leave take nothing with them. -/
theorem inv_drop (h : Inv r n s) {allocated : List Call} (hsub : allocated ⊆ s.allocated) :
    Inv r n { s with allocated } :=
  { h with
    keys := fun g hg ↦ h.keys g (mem_keyRanges.mpr ((mem_keyRanges.mp hg).imp_right
      fun ⟨c, hc, heq⟩ ↦ ⟨c, hsub hc, heq⟩))
    copied := fun c hc ↦ h.copied c (hsub hc) }

/-- A new memory that keeps the strings, with an index of some history. -/
theorem inv_memory (h : Inv r n s) (art : ArtState) {applied : List (Bytes × Option UInt32)}
    (hlen : art.mem.length = s.engine.arena.length) (hbump : stringBump r s.engine.arena ≤ stringBump r art.mem)
    (hkeys : ∀ g ∈ s.keyRanges, slice art.mem g.start g.len = slice s.engine.arena g.start g.len)
    (hlive : ∃ h root, Bears r n art h root applied) : Inv r n { s with engine := s.engine.withArt art, applied } := by
  refine { h with
    len := hlen.trans h.len, bump := h.bump.trans hbump, keys := ?_, copied := ?_, log := ?_, live := hlive }
  · intro g hg
    obtain ⟨hfrom, hto⟩ := h.keys g hg
    exact ⟨hfrom, hto.trans hbump⟩
  · intro c hc
    have hslice := hkeys ⟨c.keyOffset, c.key.length⟩ (mem_keyRanges.mpr (.inr ⟨c, hc, rfl⟩))
    obtain ⟨hpos, hle, hin, hkey⟩ := h.copied c hc
    exact ⟨hpos, hle, hin.trans hlen.ge, hslice.trans hkey⟩
  · rw [← h.log]
    refine congrArg (s.logged.filterMap Entry.indexOp ++ ·) (List.filterMap_congr fun d hd ↦ ?_)
    refine indexOp_congr fun htag ↦ ?_
    exact hkeys ⟨d.offset.toNat, d.size.toNat⟩ (mem_keyRanges.mpr (.inl ⟨d, hd, htag, rfl⟩))

theorem inv_store (h : Inv r n s) {arena : Bytes} (hspares : s.Spares r arena) :
    Inv r n { s with engine := { s.engine with arena } } := by
  obtain ⟨heap, root, hlive⟩ := h.live
  exact inv_memory h ⟨arena, s.engine.free⟩ hspares.index.length_eq hspares.bump hspares.keys
    ⟨heap, root, hlive.frame hspares.index disjoint_compl_right⟩

/-- A change inside the index region does not reach the strings. -/
theorem inv_index (h : Inv r n s) {art : ArtState} {applied : List (Bytes × Option UInt32)}
    (hch : ChangesOnly (artRegion r) s.engine.arena art.mem) (hlive : ∃ h root, Bears r n art h root applied) :
    Inv r n { s with engine := s.engine.withArt art, applied } := by
  have hvalid : Layout.Valid r s.engine.arena.length := h.len ▸ h.valid
  have hdata : r.stringDataStart = r.stringStart.toNat + 8 := rfl
  have hbump : stringBump r art.mem = stringBump r s.engine.arena :=
    stringBump_frame hvalid hch (disjoint_artRegion hvalid fun i hi ↦ hi.1).symm
  refine inv_memory h art hch.length_eq hbump.ge (fun g hg ↦ hch.slice ?_) hlive
  obtain ⟨hfrom, -⟩ := h.keys g hg
  refine (disjoint_artRegion hvalid fun i hi ↦ ?_).symm
  have := hi.1
  omega

/-- A pushed delta is pending, and binds what it names. -/
theorem inv_send (h : Inv r n s) {d : DeltaMessage} (pushed : List Call) (hd : Barrier.FromClient n d)
    (hkey : d.isArena = deltaIndexOp → r.stringDataStart ≤ d.offset.toNat ∧
      d.offset.toNat + d.size.toNat ≤ stringBump r s.engine.arena)
    (hbound : ∀ op ∈ s.bound ++ (d.indexOp s.engine.arena).toList,
      (∃ c ∈ pushed, c.op = op) ∨ ValidKey op.key ∧ op.value.toNat < n) :
    Inv r n { s with
      engine := { s.engine with queue := s.engine.queue ++ [d] }, pushed
      bound := s.bound ++ (d.indexOp s.engine.arena).toList } := by
  have hpending : System.pending { s with
      engine := { s.engine with queue := s.engine.queue ++ [d] }, pushed
      bound := s.bound ++ (d.indexOp s.engine.arena).toList } = s.pending ++ [d] := by
    simp [System.pending]
  refine { h with keys := ?_, client := ?_, log := ?_, bound := hbound }
  · intro g hg
    rw [mem_keyRanges, hpending] at hg
    rcases hg with ⟨d', hd', htag, rfl⟩ | ⟨c, hc, rfl⟩
    · rcases List.mem_append.mp hd' with hold | hnew
      · exact h.keys _ (mem_keyRanges.mpr (.inl ⟨d', hold, htag, rfl⟩))
      · rw [List.mem_singleton.mp hnew] at htag ⊢
        exact hkey htag
    · exact h.keys _ (mem_keyRanges.mpr (.inr ⟨c, hc, rfl⟩))
  · intro d' hd'
    rw [hpending] at hd'
    rcases List.mem_append.mp hd' with hold | hnew
    · exact h.client d' hold
    · rwa [List.mem_singleton.mp hnew]
  · rw [hpending, List.filterMap_append, ← List.append_assoc, h.log]
    cases hop : d.indexOp s.engine.arena <;> simp [hop]

theorem inv_alloc (h : Inv r n s) {key : Bytes} {value : UInt32} {keyOffset : ℕ} {e : Engine}
    (halloc : insertIndexAlloc key value s.engine = (.ok keyOffset, e)) :
    Inv r n { s with engine := e, allocated := ⟨keyOffset, key, value⟩ :: s.allocated } := by
  obtain ⟨hpos, hle, arena, hstring, rfl⟩ := insertIndexAlloc_ok h.regions halloc
  have hvalid : Layout.Valid r s.engine.arena.length := h.len ▸ h.valid
  obtain ⟨hin, -, hlen, hslice⟩ := allocString_some hvalid hstring
  obtain ⟨hoff, hto, hkept⟩ := allocString_bump hvalid h.bump hstring
  obtain ⟨-, -, hch, -⟩ := changesOnly_allocString hvalid hstring
  have hapart := disjoint_artRegion hvalid (strings_above (hoff ▸ h.bump) key.length)
  have hspares : s.Spares r arena := by
    refine ⟨hch.mono (subset_compl_iff_disjoint_left.mpr hapart), by omega, fun g hg ↦ ?_⟩
    obtain ⟨hfrom, hstop⟩ := h.keys g hg
    exact hkept g.start g.len hfrom (hoff ▸ hstop)
  have hinv := inv_store h hspares
  refine { hinv with keys := ?_, copied := ?_ }
  · intro g hg
    rcases mem_keyRanges.mp hg with hold | ⟨c, hc, rfl⟩
    · exact hinv.keys g (mem_keyRanges.mpr (.inl hold))
    · rcases List.mem_cons.mp hc with rfl | hc
      · exact ⟨hoff ▸ h.bump, by dsimp only [Extent.stop]; omega⟩
      · exact hinv.keys _ (mem_keyRanges.mpr (.inr ⟨c, hc, rfl⟩))
  · intro c hc
    rcases List.mem_cons.mp hc with rfl | hc
    · exact ⟨hpos, hle, by dsimp only; omega, hslice⟩
    · exact hinv.copied c hc

theorem inv_push (h : Inv r n s) {c : Call} {e : Engine} (hc : c ∈ s.allocated)
    (hpush : s.engine.pushWithBackPressure c.delta 0 = (rcOk, e)) :
    Inv r n { s with
      engine := e, allocated := s.allocated.erase c, pushed := c :: s.pushed
      bound := s.bound ++ [c.op] } := by
  have hcopied := h.copied c hc
  have hn : s.engine.arena.length < 2 ^ 32 := by
    rw [h.len, ← h.valid.arena]
    exact r.arenaBytes.toNat_lt
  obtain ⟨hoff, hsize⟩ := toNat_delta hcopied hn
  have hin := hcopied.inside
  rw [h.len] at hin
  have hclient : Barrier.FromClient n c.delta :=
    ⟨hsize ▸ hcopied.pos, by rw [hoff, hsize]; exact hin, .inr (.inr ⟨rfl, hsize ▸ hcopied.le⟩)⟩
  have hop := indexOp_delta hcopied hn
  have hsent := inv_send h (c :: s.pushed) hclient
    (fun _ ↦ by
      rw [hoff, hsize]
      exact h.keys _ (mem_keyRanges.mpr (.inr ⟨c, hc, rfl⟩)))
    (by
      rw [hop, Option.toList_some]
      intro op hmem
      rcases List.mem_append.mp hmem with hold | hnew
      · exact (h.bound op hold).imp_left fun ⟨c', hc', heq⟩ ↦ ⟨c', List.mem_cons_of_mem c hc', heq⟩
      · exact .inl ⟨c, List.mem_cons_self, (List.mem_singleton.mp hnew).symm⟩)
  rw [hop, Option.toList_some] at hsent
  rw [pushWithBackPressure_zero hpush]
  exact inv_drop hsent List.erase_subset

theorem inv_insert (h : Inv r n s) {c : Call} {e : Engine}
    (hfits : FitsRegion r s.engine.art (.insert c.key c.value))
    (hkeeps : KeepsCounts (regionIndex r) s.engine.art (.insert c.key c.value))
    (hinsert : Answers (fun fuel ↦ insertIntoIndex fuel c.key c.value s.engine) (rcOk, e)) :
    Inv r n { s with
      engine := e, pushed := s.pushed.erase c, applied := s.applied ++ [(c.key, some c.value)] } := by
  obtain ⟨heap, root, hlive⟩ := h.live
  obtain ⟨art, hrun, rfl⟩ := insertIntoIndex_ok hinsert
  rw [h.index] at hrun
  obtain ⟨hgood, hch, hlive'⟩ := hlive.insert (artEnd_le h.valid).2 hfits hkeeps hrun
  have hinv := inv_index h hch hlive'
  refine { hinv with bound := fun op hop ↦ ?_ }
  rcases h.bound op hop with ⟨c', hc', rfl⟩ | hvalid
  · rcases eq_or_ne c' c with rfl | hne
    · exact .inr hgood
    · exact .inl ⟨c', (List.mem_erase_of_ne hne).mpr hc', rfl⟩
  · exact .inr hvalid

theorem inv_remove (h : Inv r n s) {key : Bytes} {rc : ℤ} {e : Engine}
    (hfits : FitsRegion r s.engine.art (.remove key))
    (hremove : takyonRemoveIndex key s.engine = some (rc, e)) (hrc : rc ≠ rcError) :
    Inv r n { s with engine := e, applied := s.applied ++ [(key, none)] } := by
  obtain ⟨heap, root, hlive⟩ := h.live
  obtain ⟨found, art, hrun, rfl⟩ := takyonRemoveIndex_ok hremove hrc
  rw [h.index] at hrun
  obtain ⟨hch, hlive'⟩ := hlive.remove (artEnd_le h.valid).2 hfits hrun
  exact inv_index h hch hlive'

theorem inv_write (h : Inv r n s) {d : DeltaMessage} (hd : Barrier.FromClient s.engine.arena.length d)
    (htag : d.isArena ≠ deltaIndexOp) :
    Inv r n { s with engine := { s.engine with queue := s.engine.queue ++ [d] } } := by
  have hnone := indexOp_of_ne htag s.engine.arena
  have hsent := inv_send h s.pushed (h.len ▸ hd) (fun heq ↦ absurd heq htag)
    (by rw [hnone, Option.toList_none, List.append_nil]; exact h.bound)
  rwa [hnone, Option.toList_none, List.append_nil] at hsent

theorem inv_pop (h : Inv r n s) {d : DeltaMessage} {rest : List DeltaMessage} (hnone : s.popped = none)
    (hqueue : s.engine.queue = d :: rest) :
    Inv r n { s with popped := some d, engine := { s.engine with queue := rest } } := by
  have hpending : System.pending { s with popped := some d, engine := { s.engine with queue := rest } } =
      s.pending := by
    rw [System.pending, System.pending, hnone, hqueue]
    rfl
  have hranges : System.keyRanges { s with popped := some d, engine := { s.engine with queue := rest } } =
      s.keyRanges := by
    rw [System.keyRanges, System.keyRanges, hpending]
  refine { h with keys := ?_, client := ?_, log := ?_ }
  · rw [hranges]
    exact h.keys
  · rw [hpending]
    exact h.client
  · rw [hpending]
    exact h.log

/-- A delta that names a key passes the checks of `processDelta`. -/
theorem accepted_of_indexOp {d : DeltaMessage} {arenaMem : Bytes}
    (hd : Barrier.FromClient arenaMem.length d) (htag : d.isArena = deltaIndexOp) : d.Accepted arenaMem := by
  have hkey : ¬ deltaIndexOp = deltaArena ∧ ¬ deltaIndexOp = deltaInline := by decide
  rw [DeltaMessage.Accepted, htag, if_neg hkey.1, if_neg hkey.2, if_pos rfl]
  rcases hd.tag with ⟨hinline, -⟩ | harena | ⟨-, hle⟩
  · exact absurd (htag.symm.trans hinline) hkey.2
  · exact absurd (htag.symm.trans harena) hkey.1
  · exact ⟨⟨hd.pos, hle⟩, hd.inside⟩

/-- The popped delta leaves the queue, logged or not. -/
theorem inv_settle (h : Inv r n s) {d : DeltaMessage} (hpopped : s.popped = some d) {w : WalManager}
    {es : List Entry} (hlogs : Logs [] (s.logged ++ es) w) (hseg : w.Segmented) (hes : ∀ e ∈ es, e.Valid n)
    (hop : es.filterMap Entry.indexOp = (d.indexOp s.engine.arena).toList) :
    Inv r n { s with popped := none, wal := w, logged := s.logged ++ es } := by
  have hpending : s.pending =
      d :: System.pending { s with popped := none, wal := w, logged := s.logged ++ es } := by
    rw [System.pending, hpopped]
    rfl
  refine { h with keys := ?_, client := ?_, logs := hlogs, segmented := hseg, entries := ?_, log := ?_ }
  · intro g hg
    refine h.keys g (mem_keyRanges.mpr ((mem_keyRanges.mp hg).imp_left ?_))
    rintro ⟨d', hd', heq⟩
    exact ⟨d', hpending ▸ List.mem_cons_of_mem d hd', heq⟩
  · intro d' hd'
    exact h.client d' (hpending ▸ List.mem_cons_of_mem d hd')
  · intro e he
    exact (List.mem_append.mp he).elim (h.entries e) (hes e)
  · have hlog := h.log
    rw [hpending, List.filterMap_cons] at hlog
    refine Eq.trans ?_ hlog
    rw [List.filterMap_append, hop, List.append_assoc]
    cases d.indexOp s.engine.arena <;> rfl

theorem acceptable_popped (h : Inv r n s) {d : DeltaMessage} (hpopped : s.popped = some d)
    (hd : d.Accepted s.engine.arena) : (FlusherOp.delta d s.engine.arena).Acceptable n := by
  have hclient := h.client d (by simp [System.pending, hpopped])
  exact ⟨h.len, hd, hclient.pos, hclient.inside⟩

theorem inv_accept (h : Inv r n s) {d : DeltaMessage} {w : WalManager} (hpopped : s.popped = some d)
    (hw : processDelta d s.engine.arena s.wal = .ok w) :
    Inv r n
      { s with popped := none, wal := w, logged := s.logged ++ (d.entry s.engine.arena).toList } := by
  have hop := acceptable_popped h hpopped (accepted_of_processDelta hw)
  obtain ⟨w', hw', hlogs⟩ := h.logs.step hop (by simp)
  obtain ⟨w'', hw'', -, -, hseg⟩ := run_acceptable h.logs.healthy h.logs.room hop
  rw [FlusherOp.run, hw] at hw' hw''
  cases hw'
  cases hw''
  refine inv_settle h hpopped hlogs (hseg h.segmented) (entries_valid hop) ?_
  rw [DeltaMessage.indexOp]
  cases d.entry s.engine.arena with
  | none => rfl
  | some e => cases hkind : e.indexOp <;> simp [hkind]

theorem inv_refuse (h : Inv r n s) {d : DeltaMessage} (hpopped : s.popped = some d)
    (hd : ¬ d.Accepted s.engine.arena) : Inv r n { s with popped := none } := by
  have hclient := h.client d (by simp [System.pending, hpopped])
  have htag : d.isArena ≠ deltaIndexOp := fun htag ↦
    hd (accepted_of_indexOp (h.len.symm ▸ hclient) htag)
  have hlogs : Logs [] (s.logged ++ []) s.wal := by rw [List.append_nil]; exact h.logs
  have hsettled := inv_settle h hpopped hlogs h.segmented (by simp) (by rw [indexOp_of_ne htag]; rfl)
  rwa [List.append_nil] at hsettled

theorem inv_flush (h : Inv r n s) {op : FlusherOp} {w : WalManager}
    (hop : op = .idleFlush ∨ op = .forcedFlush) (hw : op.run s.wal = .ok w)
    (hslack : op = .forcedFlush →
      s.wal.sector = [] ∨ minPadding ≤ sectorPayload - s.wal.sector.length) :
    Inv r n { s with wal := w } := by
  have hacceptable : op.Acceptable n := by rcases hop with rfl | rfl <;> exact trivial
  have hentries : op.entries = [] := by rcases hop with rfl | rfl <;> rfl
  obtain ⟨w', hw', hlogs⟩ := h.logs.step hacceptable hslack
  obtain ⟨w'', hw'', -, -, hseg⟩ := run_acceptable h.logs.healthy h.logs.room hacceptable
  rw [hw] at hw' hw''
  cases hw'
  cases hw''
  rw [hentries, List.append_nil] at hlogs
  exact { h with logs := hlogs, segmented := hseg h.segmented }

theorem inv_step (h : Inv r n s) {a : Event} (hok : Regular r s a) (hstep : Step r s a t) : Inv r n t := by
  cases hstep with
  | alloc halloc => exact inv_alloc h halloc
  | push hc hpush => exact inv_push h hc hpush
  | insert _ hinsert => exact inv_insert h hok.1 hok.2 hinsert
  | remove hremove hrc => exact inv_remove h hok hremove hrc
  | writeDelta hwrite =>
    obtain ⟨d, rfl, hd, htag⟩ := takyonWriteDelta_ok hwrite
    exact inv_write h hd htag
  | notifyArena hnotify =>
    obtain ⟨d, rfl, hd, htag⟩ := takyonNotifyArena_ok hnotify
    exact inv_write h hd htag
  | store hspares => exact inv_store h hspares
  | pop hnone hqueue => exact inv_pop h hnone hqueue
  | accept hpopped hw => exact inv_accept h hpopped hw
  | refuse hpopped hd => exact inv_refuse h hpopped hd
  | idleFlush _ hw => exact inv_flush h (.inl rfl) hw (by simp)
  | forcedFlush _ hw => exact inv_flush h (.inr rfl) hw fun _ ↦ hok

theorem inv_run {e : Engine} (hboot : Booted r e) (hrun : Run (Step r) (Regular r) (start e) s) :
    Inv r e.arena.length s :=
  hrun.invariant (Inv r e.arena.length) (fun _ _ _ hs hok hstep ↦ inv_step hs hok hstep) (inv_start hboot)

end IndexLog

end TakyonDb
