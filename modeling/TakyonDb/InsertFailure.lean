import TakyonDb.Art.Endings
import TakyonDb.IndexRecovery

namespace TakyonDb.InsertFailure

open Lib Layout Wal Wal.WalManager Replay Recovery Exports Art Art.Heap Art.Tree Set

/-- A call of `takyonInsertIndex`, and the deltas that it pushed. Between its admission check and its push, the other
processes have made `others` of the ring. The result is `none` when the change of the index does not come back. -/
def insertIndexRun (fuel : ℕ) (key : Bytes) (value : UInt32) (others : List DeltaMessage) (drained : ℕ)
    (e : Engine) : Option (ℤ × Engine × List DeltaMessage) :=
  if e.daemonAttached then
    match insertIndexAlloc key value e with
    | (.error rc, e) => some (rc, e, [])
    | (.ok keyOffset, e) =>
      let delta := indexDelta keyOffset key value
      let (rc, e) := Engine.pushWithBackPressure delta drained { e with queue := others }
      if rc ≠ rcOk then some (rc, e, [])
      else (insertIntoIndex fuel key value e).map fun call ↦ (call.1, call.2, [delta])
  else (takyonInsertIndex fuel key value drained e).map fun call ↦ (call.1, call.2, [])

/-- The insert comes back with an error. -/
def Fails (ix : ArtIndex) (key : Bytes) (value : UInt32) (s : ArtState) : Prop :=
  ∃ e s', Returns (Art.insert ix key value) s (.error (.error e) s')

/-- A search finds in both states the same. -/
def SameBindings (ix : ArtIndex) (s s' : ArtState) : Prop :=
  ∀ k, Art.search ix k (maxDepth + 1) s'.mem = Art.search ix k (maxDepth + 1) s.mem

/-- The memory of the index once the key is copied. -/
def copied (r : Regions) (key : Bytes) (e : Engine) : ArtState := ⟨(allocString r key e.arena).2, e.free⟩

/-- The call gets as far as the index: its delta is pushed. -/
structure Admitted (r : Regions) (key : Bytes) (value : UInt32) (others : List DeltaMessage) (drained : ℕ)
    (e : Engine) :
    Prop where
  daemon : e.daemonAttached = true
  ready : e.arenaReady = true ∧ e.ringReady = true
  keyLen : 1 ≤ key.length ∧ key.length ≤ maxKeyLen
  inside : value.toNat < e.arena.length
  depth : e.queue.length < e.capacity
  string : (allocString r key e.arena).1.isSome
  ring : others.length < e.capacity ∨ (others.drop drained).length < e.capacity

/-- What the copy of the key writes. -/
def keySpan (r : Regions) (key : Bytes) (e : Engine) : Set ℕ :=
  bumpSpan r ∪ Ico (stringBump r e.arena) (stringBump r e.arena + key.length)

/-- The key that a delta names. -/
def deltaSpan (d : DeltaMessage) : Set ℕ := Ico d.offset.toNat (d.offset.toNat + d.size.toNat)

/-- What an insert takes first: the root of an empty index, or else its leaf. -/
def firstDemand (key : Bytes) : Tree → ℕ
  | .nil => SlotKind.node4.size
  | _ => leafHeader + key.length

/-- The words and the nodes of the index, and what a call may take for its key: nothing when not even its first node is
granted. -/
def indexSpan (ix : ArtIndex) (limit : ℕ) (h : Heap) (root : Tree) (key : Bytes) : Set ℕ :=
  ix.rootWord ∪ ix.bumpWord ∪ root.foot ∪
    {a | h.alloc limit (firstDemand key root) ≠ none ∧ a ∈ h.avail ∧ a < h.bump + root.callDemand key}

/-- The index, the keys that wait in the ring and the space of the next key share no byte. -/
structure Apart (r : Regions) (key : Bytes) (others : List DeltaMessage) (e : Engine) (h : Heap) (root : Tree) :
    Prop where
  indexed : Indexed (regionIndex r) e.arena.length e.art h root
  copy : Disjoint (indexSpan (regionIndex r) e.arena.length h root key) (keySpan r key e)
  waiting : ∀ d ∈ others, d.isArena = deltaIndexOp →
    Disjoint (deltaSpan d) (keySpan r key e ∪ indexSpan (regionIndex r) e.arena.length h root key)

section Index

variable {ix : ArtIndex} {limit : ℕ} {s s' : ArtState} {h : Heap} {root : Tree} {key : Bytes} {value : UInt32}

end Index

section Call

variable {r : Regions} {recMax drained : ℕ} {key : Bytes} {value : UInt32} {others pushed : List DeltaMessage}
  {d : DeltaMessage} {e e₁ : Engine} {h : Heap} {root : Tree} {mem mem' : Bytes} {t : Set ℕ}

theorem indexOp_frame (hch : ChangesOnly t mem mem') (hd : d.isArena = deltaIndexOp → Disjoint (deltaSpan d) t) :
    d.indexOp mem' = d.indexOp mem :=
  IndexLog.indexOp_congr fun htag ↦ hch.slice (hd htag)

/-- With nobody else at the ring, the run is the call. -/
theorem insertIndexRun_eq (fuel : ℕ) (key : Bytes) (value : UInt32) (drained : ℕ) (hr : e.regions = some r) :
    (insertIndexRun fuel key value e.queue drained e).map (fun call ↦ (call.1, call.2.1)) =
      takyonInsertIndex fuel key value drained e := by
  have hpair : ∀ (ds : List DeltaMessage) (call : Option (ℤ × Engine)),
      (call.map fun call ↦ (call.1, call.2, ds)).map (fun call ↦ (call.1, call.2.1)) = call := by
    intro ds call
    cases call <;> rfl
  by_cases hdaemon : e.daemonAttached = true
  · rw [insertIndexRun, if_pos hdaemon, takyonInsertIndex_eq fuel key value drained hdaemon]
    rcases halloc : insertIndexAlloc key value e with ⟨rc | off, e₁⟩
    · rfl
    · obtain ⟨-, -, arena, -, rfl⟩ := insertIndexAlloc_ok hr halloc
      dsimp only
      split_ifs
      · rfl
      · exact hpair _ _
  · rw [insertIndexRun, if_neg hdaemon]
    exact hpair _ _

end Call

section Apart

variable {r : Regions} {recMax drained : ℕ} {key : Bytes} {value : UInt32} {others : List DeltaMessage}
  {e e₁ : Engine} {h h' : Heap} {root root' : Tree} {rebuilt : ArtState} {mem : Bytes}

/-- The copy of the key does not reach the index. -/
theorem Apart.live (ha : Apart r key others e h root) (hfree : e₁.free = e.free)
    (hch : ChangesOnly (keySpan r key e) e.arena e₁.arena) :
    Indexed (regionIndex r) e.arena.length e₁.art h root ∧ SameBindings (regionIndex r) e.art e₁.art := by
  have hart : e₁.art = { e.art with mem := e₁.arena } := by rw [Engine.art, hfree]; rfl
  have hx := ha.indexed.frame hch (ha.copy.mono_left subset_union_left)
  rw [← hart] at hx
  refine ⟨hx, fun k ↦ ?_⟩
  rw [hx.search k (Nat.lt_succ_self _), ha.indexed.search k (Nat.lt_succ_self _)]

theorem Apart.kept (ha : Apart r key others e h root)
    (hch : ChangesOnly (keySpan r key e ∪ indexSpan (regionIndex r) e.arena.length h root key) e.arena mem) :
    ∀ d ∈ others, d.indexOp mem = d.indexOp e.arena :=
  fun d hd ↦ indexOp_frame hch (ha.waiting d hd)

end Apart

end TakyonDb.InsertFailure
