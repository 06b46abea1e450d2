import TakyonDb.Art.Region
import TakyonDb.Flusher

namespace TakyonDb

open Lib Layout Wal.WalManager Art

namespace Exports

abbrev rcOk : ℤ := 0
abbrev rcError : ℤ := -1
abbrev rcBackpressure : ℤ := -2
abbrev rcNoDurability : ℤ := -3

/-- The process-wide state behind the C ABI. `queue` holds the deltas that
were pushed and not yet popped. The index works in the arena, at the words
that `index` names; `free` is the process's list of orphaned nodes. -/
structure Engine where
  arenaReady : Bool
  ringReady : Bool
  daemonAttached : Bool
  regions : Option Regions
  arena : Bytes
  capacity : ℕ
  queue : List DeltaMessage
  saturatedTotal : ℕ
  index : ArtIndex
  free : Freelist

namespace Engine

/-- The memory that the index works on. -/
def art (e : Engine) : ArtState := ⟨e.arena, e.free⟩

def withArt (s : ArtState) (e : Engine) : Engine := { e with arena := s.mem, free := s.free }

/-- The mapping is attached with a region table that `validateRegions`
accepted, and the index lies where the table says. -/
def Connected (e : Engine) : Prop :=
  ∃ r, e.regions = some r ∧ Layout.Valid r e.arena.length ∧ e.index = regionIndex r

def depth (e : Engine) : ℕ := e.queue.length

def push (delta : DeltaMessage) (e : Engine) : Option Engine :=
  if e.capacity ≤ e.queue.length then none else some { e with queue := e.queue ++ [delta] }

/-- Pushes a delta; when the ring is full, the flusher pops `drained`
deltas while the push waits. -/
def pushWithBackPressure (delta : DeltaMessage) (drained : ℕ) (e : Engine) : ℤ × Engine :=
  match e.push delta with
  | some e => (rcOk, e)
  | none =>
    let e := { e with queue := e.queue.drop drained }
    match e.push delta with
    | some e => (rcOk, { e with saturatedTotal := e.saturatedTotal + 1 })
    | none => (rcBackpressure, { e with saturatedTotal := e.saturatedTotal + 1 })

end Engine

/-- The bump word of the string region, seeded on first use. -/
def seedString (r : Regions) (arena : Bytes) : Bytes :=
  if readU32 arena r.stringStart.toNat = 0 then writeU32 arena r.stringStart.toNat r.stringDataStart
  else arena

/-- Where the next string of the region goes. -/
def stringBump (r : Regions) (arena : Bytes) : ℕ := readU32 (seedString r arena) r.stringStart.toNat

def allocString (r : Regions) (src arena : Bytes) : Option ℕ × Bytes :=
  let alignedLen := (src.length + 7) / 8 * 8
  if alignedLen = 0 ∨ r.stringBytes.toNat < alignedLen then (none, arena)
  else
    let arena := seedString r arena
    let cur := readU32 arena r.stringStart.toNat
    let stop := cur + alignedLen
    if r.stringEnd < stop then (none, arena)
    else (some cur, overwrite (writeU32 arena r.stringStart.toNat stop) cur src)

def takyonWriteDelta (offset : UInt32) (data : Bytes) (drained : ℕ) (e : Engine) : ℤ × Engine :=
  if ¬ e.ringReady ∨ ¬ e.arenaReady then (rcError, e)
  else if data.length = 0 ∨ 48 < data.length then (rcError, e)
  else if e.arena.length < offset.toNat + data.length then (rcError, e)
  else
    let delta : DeltaMessage :=
      ⟨offset, UInt32.ofNat data.length, deltaInline, inlineData data, length_inlineData data⟩
    e.pushWithBackPressure delta drained

def takyonNotifyArena (offset size : UInt32) (drained : ℕ) (e : Engine) : ℤ × Engine :=
  if ¬ e.ringReady ∨ ¬ e.arenaReady then (rcError, e)
  else if size.toNat = 0 then (rcError, e)
  else if e.arena.length < offset.toNat + size.toNat then (rcError, e)
  else e.pushWithBackPressure ⟨offset, size, deltaArena, inlineData [], length_noData⟩ drained

/-- The delta that names a key by its place in the string region and
carries the value in its first four bytes. -/
def indexDelta (keyOffset : ℕ) (key : Bytes) (valueOffset : UInt32) : DeltaMessage :=
  ⟨UInt32.ofNat keyOffset, UInt32.ofNat key.length, deltaIndexOp,
    inlineData (leEncode 4 valueOffset.toNat), length_inlineData _⟩

/-- The change of the index at the end of a call. The result is `none` when
the change does not come back. -/
def insertIntoIndex (fuel : ℕ) (key : Bytes) (valueOffset : UInt32) (e : Engine) : Option (ℤ × Engine) :=
  match Art.insert e.index key valueOffset fuel e.art with
  | .ok _ s => some (rcOk, e.withArt s)
  | .error (.error _) s => some (rcError, e.withArt s)
  | .error _ _ => none

def takyonInsertIndex (fuel : ℕ) (key : Bytes) (valueOffset : UInt32) (drained : ℕ) (e : Engine) :
    Option (ℤ × Engine) :=
  if ¬ e.arenaReady ∨ ¬ e.ringReady then some (rcError, e)
  else if key.length = 0 ∨ maxKeyLen < key.length then some (rcError, e)
  else if e.arena.length ≤ valueOffset.toNat then some (rcError, e)
  else if e.daemonAttached then
    if e.capacity ≤ e.depth then some (rcBackpressure, e)
    else
      match e.regions with
      | none => some (rcError, e)
      | some r =>
        match allocString r key e.arena with
        | (none, arena) => some (rcError, { e with arena })
        | (some keyOffset, arena) =>
          let (rc, e) :=
            Engine.pushWithBackPressure (indexDelta keyOffset key valueOffset) drained { e with arena }
          if rc ≠ rcOk then some (rc, e) else insertIntoIndex fuel key valueOffset e
  else insertIntoIndex fuel key valueOffset e

def takyonSearchIndex (fuel : ℕ) (key : Bytes) (e : Engine) : Except Stop ℤ :=
  if ¬ e.arenaReady then .ok rcError
  else if key.length = 0 ∨ 256 < key.length then .ok rcError
  else do
    match ← Art.search e.index key fuel e.arena with
    | some valueOffset => .ok (if 0x7FFFFFFF ≤ valueOffset.toNat then rcError else valueOffset.toNat)
    | none => .ok rcError

def takyonRemoveIndex (key : Bytes) (e : Engine) : Option (ℤ × Engine) :=
  if ¬ e.arenaReady then some (rcError, e)
  else if key.length = 0 ∨ 256 < key.length then some (rcError, e)
  else
    match Art.remove e.index key e.art with
    | .ok found s => some (if found then 1 else 0, e.withArt s)
    | .error (.error _) s => some (rcError, e.withArt s)
    | .error _ _ => none

/-- `target` is the ring's tail at the call, and `observed` is what the wait
reads as the durable tail until the time is over. -/
def takyonCommit (target : ℕ) (observed : List ℕ) (e : Engine) : ℤ :=
  if ¬ e.ringReady ∨ ¬ e.arenaReady then rcError
  else if ¬ e.daemonAttached then rcNoDurability
  else if observed.any (target ≤ ·) then rcOk
  else rcBackpressure

/-- The call comes back with this answer. -/
def Answers {α : Type} (call : ℕ → Option α) (answer : α) : Prop := ∃ n, ∀ fuel, n ≤ fuel → call fuel = some answer

/-- The first step of `takyonInsertIndex` behind a daemon: the checks and
the copy of the key. -/
def insertIndexAlloc (key : Bytes) (valueOffset : UInt32) (e : Engine) : Except ℤ ℕ × Engine :=
  if ¬ e.arenaReady ∨ ¬ e.ringReady then (.error rcError, e)
  else if key.length = 0 ∨ maxKeyLen < key.length then (.error rcError, e)
  else if e.arena.length ≤ valueOffset.toNat then (.error rcError, e)
  else if e.capacity ≤ e.depth then (.error rcBackpressure, e)
  else
    match e.regions with
    | none => (.error rcError, e)
    | some r =>
      match allocString r key e.arena with
      | (none, arena) => (.error rcError, { e with arena })
      | (some keyOffset, arena) => (.ok keyOffset, { e with arena })

variable {α : Type} {key : Bytes} {value : UInt32} {drained : ℕ} {e e' : Engine} {s s' : ArtState}

theorem Answers.unique {call : ℕ → Option α} {a b : α} (ha : Answers call a) (hb : Answers call b) : a = b := by
  obtain ⟨n, hn⟩ := ha
  obtain ⟨m, hm⟩ := hb
  exact Option.some.inj ((hn _ (le_max_left n m)).symm.trans (hm _ (le_max_right n m)))

theorem Answers.of_eq {call : ℕ → Option α} {a : α} (h : ∀ fuel, call fuel = some a) : Answers call a :=
  ⟨0, fun fuel _ ↦ h fuel⟩

theorem Engine.withArt_injective (h : e.withArt s = e.withArt s') : s = s' := by
  have harena : s.mem = s'.mem := congrArg Engine.arena h
  have hfree : s.free = s'.free := congrArg Engine.free h
  cases s
  cases s'
  dsimp only at harena hfree
  rw [harena, hfree]

theorem insertIntoIndex_of_returns (h : Returns (Art.insert e.index key value) e.art (.ok () s)) :
    Answers (fun fuel ↦ insertIntoIndex fuel key value e) (rcOk, e.withArt s) := by
  obtain ⟨n, hn⟩ := h
  exact ⟨n, fun fuel hfuel ↦ by simp only [insertIntoIndex, hn fuel hfuel]⟩

/-- A change that succeeds leaves the engine with what the insert left of the arena. -/
theorem insertIntoIndex_ok (h : Answers (fun fuel ↦ insertIntoIndex fuel key value e) (rcOk, e')) :
    ∃ s, Returns (Art.insert e.index key value) e.art (.ok () s) ∧ e' = e.withArt s := by
  obtain ⟨n, hn⟩ := h
  have hok : ∀ fuel, n ≤ fuel → ∃ s, Art.insert e.index key value fuel e.art = .ok () s ∧ e' = e.withArt s := by
    intro fuel hfuel
    have hrun := hn fuel hfuel
    simp only [insertIntoIndex] at hrun
    cases hinsert : Art.insert e.index key value fuel e.art with
    | ok u s =>
      rw [hinsert] at hrun
      exact ⟨s, rfl, (Prod.mk.inj (Option.some.inj hrun)).2.symm⟩
    | error stop s =>
      rw [hinsert] at hrun
      cases stop with
      | error err => cases (Prod.mk.inj (Option.some.inj hrun)).1
      | illegal => cases hrun
      | outOfFuel => cases hrun
  obtain ⟨s, -, rfl⟩ := hok n le_rfl
  refine ⟨s, ⟨n, fun fuel hfuel ↦ ?_⟩, rfl⟩
  obtain ⟨t, ht, heq⟩ := hok fuel hfuel
  rw [ht, Engine.withArt_injective heq]

/-- The call is its three steps: copy the key, push the delta, change the index. -/
theorem takyonInsertIndex_eq (fuel : ℕ) (key : Bytes) (value : UInt32) (drained : ℕ) (h : e.daemonAttached = true) :
    takyonInsertIndex fuel key value drained e =
      match insertIndexAlloc key value e with
      | (.error rc, e) => some (rc, e)
      | (.ok keyOffset, e) =>
        let (rc, e) := e.pushWithBackPressure (indexDelta keyOffset key value) drained
        if rc ≠ rcOk then some (rc, e) else insertIntoIndex fuel key value e := by
  simp only [takyonInsertIndex, insertIndexAlloc, h, if_true]
  split_ifs with h₁ h₂ h₃ h₄
  · rfl
  · rfl
  · rfl
  · rfl
  · cases e.regions with
    | none => rfl
    | some r =>
      dsimp only
      rcases allocString r key e.arena with ⟨_ | off, arena⟩ <;> rfl

theorem insertIndexAlloc_error {rc : ℤ} (h : insertIndexAlloc key value e = (.error rc, e')) : rc ≠ rcOk := by
  have hcodes : rcError ≠ rcOk ∧ rcBackpressure ≠ rcOk := by decide
  simp only [insertIndexAlloc] at h
  split_ifs at h with h₁ h₂ h₃ h₄
  · exact Except.error.inj (Prod.mk.inj h).1 ▸ hcodes.1
  · exact Except.error.inj (Prod.mk.inj h).1 ▸ hcodes.1
  · exact Except.error.inj (Prod.mk.inj h).1 ▸ hcodes.1
  · exact Except.error.inj (Prod.mk.inj h).1 ▸ hcodes.2
  · cases hr : e.regions with
    | none =>
      rw [hr] at h
      exact Except.error.inj (Prod.mk.inj h).1 ▸ hcodes.1
    | some r =>
      rw [hr] at h
      rcases halloc : allocString r key e.arena with ⟨_ | off, arena⟩
      · simp only [halloc] at h
        exact Except.error.inj (Prod.mk.inj h).1 ▸ hcodes.1
      · simp only [halloc] at h
        cases (Prod.mk.inj h).1

/-- A call that succeeds behind a daemon has taken all three steps. -/
theorem takyonInsertIndex_steps (hdaemon : e.daemonAttached = true)
    (h : Answers (fun fuel ↦ takyonInsertIndex fuel key value drained e) (rcOk, e')) :
    ∃ off e₁ e₂, insertIndexAlloc key value e = (.ok off, e₁) ∧
      e₁.pushWithBackPressure (indexDelta off key value) drained = (rcOk, e₂) ∧
      Answers (fun fuel ↦ insertIntoIndex fuel key value e₂) (rcOk, e') := by
  simp only [takyonInsertIndex_eq _ key value drained hdaemon] at h
  rcases halloc : insertIndexAlloc key value e with ⟨rc | off, e₁⟩
  · rw [halloc] at h
    have heq := h.unique (Answers.of_eq fun _ ↦ rfl)
    exact absurd (Prod.mk.inj heq).1.symm (insertIndexAlloc_error halloc)
  · rw [halloc] at h
    rcases hpush : e₁.pushWithBackPressure (indexDelta off key value) drained with ⟨rc, e₂⟩
    simp only [hpush] at h
    by_cases hrc : rc = rcOk
    · subst hrc
      simp only [ne_eq, not_true_eq_false, if_false] at h
      exact ⟨off, e₁, e₂, rfl, hpush, h⟩
    · simp only [if_pos hrc] at h
      have heq := h.unique (Answers.of_eq fun _ ↦ rfl)
      exact absurd (Prod.mk.inj heq).1.symm hrc

/-- A process that has orphaned no node. -/
def noOrphans : Freelist := ⟨false, fun _ ↦ []⟩

/-- A fresh arena of 64 KiB whose index is opened. -/
@[irreducible] def smallArt : ArtState := openIndex smallRegions ⟨blankArena, noOrphans⟩

theorem confined_openIndex {mem : Bytes} (hlen : mem.length = 65536) (hroot : readU32 mem 49152 = 0)
    (hbump : readU32 mem 49156 = 0) :
    Confined smallRegions 65536 (openIndex smallRegions ⟨mem, noOrphans⟩) ⟨smallRegions.artStart, noOrphans⟩ .nil := by
  have hv : Layout.Valid smallRegions mem.length := hlen ▸ smallRegions_valid
  have hconfined := confined_blank (s := ⟨mem, noOrphans⟩) hv (by decide) hroot hbump fun _ ↦ rfl
  dsimp only at hconfined
  rwa [hlen] at hconfined

theorem smallArt_confined : Confined smallRegions 65536 smallArt ⟨smallRegions.artStart, noOrphans⟩ .nil := by
  unfold smallArt
  exact confined_openIndex (length_zeros _) (readU32_zeros (by decide)) (readU32_zeros (by decide))

/-- An engine over an arena, with a daemon attached. -/
def daemonEngine (r : Regions) (s : ArtState) : Engine where
  arenaReady := true
  ringReady := true
  daemonAttached := true
  regions := some r
  arena := s.mem
  capacity := 16
  queue := []
  saturatedTotal := 0
  index := regionIndex r
  free := s.free

def smallEngine : Engine := daemonEngine smallRegions smallArt

theorem length_smallArt : smallArt.mem.length = 65536 := smallArt_confined.indexed.arena.length

theorem smallArt_valid : Layout.Valid smallRegions smallArt.mem.length := length_smallArt.symm ▸ smallRegions_valid

end Exports

end TakyonDb
