import Mathlib.Data.List.Basic
import Mathlib.Logic.Function.Basic

namespace TakyonDb

abbrev maxSegments : ℕ := 100000

/-- The live log file and the numbered segments beside it. The content of
a file is a list: of bytes on disk, of entries once the bytes are decoded. -/
structure LogFiles (α : Type) where
  live : List α
  segments : ℕ → Option (List α)

namespace LogFiles

variable {α β σ : Type}

def empty : LogFiles α := ⟨[], fun _ ↦ none⟩

def firstFreeFrom (segments : ℕ → Option (List α)) : ℕ → ℕ → ℕ
  | 0, n => n
  | fuel + 1, n => if (segments n).isNone then n else firstFreeFrom segments fuel (n + 1)

def firstFreeSegment (f : LogFiles α) : ℕ := firstFreeFrom f.segments maxSegments 0

/-- Renames the live file to segment `n` and opens an empty live file. -/
def rotate (f : LogFiles α) (n : ℕ) : LogFiles α :=
  { live := [], segments := Function.update f.segments n (some f.live) }

def deleteSegment (f : LogFiles α) (n : ℕ) : LogFiles α :=
  { f with segments := Function.update f.segments n none }

def truncate (f : LogFiles α) : LogFiles α := { f with live := [] }

def deleteFrom (fails : ℕ → Bool) : ℕ → ℕ → LogFiles α → LogFiles α
  | 0, _, f => f
  | fuel + 1, n, f =>
    match f.segments n with
    | none => f
    | some _ => deleteFrom fails fuel (n + 1) (if fails n then f else f.deleteSegment n)

/-- Deletes the segments from zero to the first missing one, except those
whose deletion fails. -/
def deleteSegments (fails : ℕ → Bool) (f : LogFiles α) : LogFiles α :=
  deleteFrom fails maxSegments 0 f

def append (f : LogFiles α) (content : List α) : LogFiles α :=
  { f with live := f.live ++ content }

def replaySegments (one : List α → σ → σ) (segments : ℕ → Option (List α)) :
    ℕ → ℕ → σ → σ
  | 0, _, st => st
  | fuel + 1, n, st =>
    match segments n with
    | none => st
    | some seg => replaySegments one segments fuel (n + 1) (one seg st)

/-- The live file first, then the segments from zero to the first missing one. -/
def replayWal (one : List α → σ → σ) (f : LogFiles α) (st : σ) : σ :=
  replaySegments one f.segments maxSegments 0 (one f.live st)

/-- The content of segments `0` to `n - 1` and of the live file, in the
order it was written when the segments were filled in that order. -/
def stream (f : LogFiles α) (n : ℕ) : List α :=
  (List.range n).flatMap (fun i ↦ (f.segments i).getD []) ++ f.live

theorem firstFreeFrom_eq {segments : ℕ → Option (List α)} {fuel n k : ℕ} (hk : k ≤ fuel)
    (hsome : ∀ i < k, (segments (n + i)).isSome) (hnone : segments (n + k) = none ∨ k = fuel) :
    firstFreeFrom segments fuel n = n + k := by
  induction fuel generalizing n k with
  | zero =>
    have : k = 0 := by omega
    subst this
    rfl
  | succ fuel ih =>
    rw [firstFreeFrom]
    cases k with
    | zero =>
      have h : segments n = none := by simpa using hnone
      simp [h]
    | succ k =>
      have h₀ : (segments n).isSome := by simpa using hsome 0 (by omega)
      rw [if_neg (by simpa using Option.isSome_iff_ne_none.mp h₀)]
      have := ih (n := n + 1) (k := k) (by omega)
        (fun i hi ↦ by have := hsome (i + 1) (by omega); rwa [Nat.add_comm i 1, ← Nat.add_assoc] at this)
        (hnone.imp (fun h ↦ by rwa [Nat.add_comm k 1, ← Nat.add_assoc] at h) (by omega))
      omega

theorem firstFreeSegment_eq {f : LogFiles α} {k : ℕ} (hk : k ≤ maxSegments)
    (hsome : ∀ i < k, (f.segments i).isSome) (hnone : f.segments k = none ∨ k = maxSegments) :
    f.firstFreeSegment = k := by
  have h : firstFreeFrom f.segments maxSegments 0 = 0 + k :=
    firstFreeFrom_eq hk (fun i hi ↦ by rw [Nat.zero_add]; exact hsome i hi)
      (by rwa [Nat.zero_add])
  rw [firstFreeSegment, h, Nat.zero_add]

theorem replaySegments_eq {one : List α → σ → σ} {segments : ℕ → Option (List α)}
    {segs : List (List α)} {fuel n : ℕ} (hfuel : segs.length ≤ fuel)
    (hsome : ∀ i < segs.length, segments (n + i) = segs[i]?)
    (hnone : segments (n + segs.length) = none ∨ segs.length = fuel) (st : σ) :
    replaySegments one segments fuel n st = segs.foldl (fun st seg ↦ one seg st) st := by
  induction segs generalizing fuel n st with
  | nil =>
    cases fuel with
    | zero => rfl
    | succ fuel =>
      have h : segments n = none := by simpa using hnone
      simp [replaySegments, h]
  | cons seg segs ih =>
    obtain ⟨fuel, rfl⟩ : ∃ m, fuel = m + 1 := ⟨fuel - 1, by simp at hfuel; omega⟩
    have h₀ : segments n = some seg := by simpa using hsome 0 (by simp)
    simp only [replaySegments, h₀, List.foldl_cons]
    apply ih
    · simpa using hfuel
    · intro i hi
      have h := hsome (i + 1) (by simpa using hi)
      rwa [List.getElem?_cons_succ, Nat.add_comm i 1, ← Nat.add_assoc] at h
    · simpa [Nat.add_comm, Nat.add_left_comm, Nat.add_assoc] using hnone

theorem deleteFrom_dense {f : LogFiles α} {fuel n k : ℕ} (hk : k ≤ fuel)
    (hsome : ∀ i, (f.segments i).isSome ↔ n ≤ i ∧ i < n + k) :
    deleteFrom (fun _ ↦ false) fuel n f = { f with segments := fun _ ↦ none } := by
  induction k generalizing f fuel n with
  | zero =>
    have hnone : f.segments = fun _ ↦ none := by
      funext i
      have h := hsome i
      rw [← Option.not_isSome_iff_eq_none, h]
      omega
    obtain ⟨live, segments⟩ := f
    obtain rfl : segments = fun _ ↦ none := hnone
    cases fuel <;> rfl
  | succ k ih =>
    obtain ⟨fuel, rfl⟩ : ∃ m, fuel = m + 1 := ⟨fuel - 1, by omega⟩
    obtain ⟨seg, hseg⟩ := Option.isSome_iff_exists.mp ((hsome n).mpr (by omega))
    have hnext : ∀ i, ((f.deleteSegment n).segments i).isSome ↔ n + 1 ≤ i ∧ i < n + 1 + k := by
      intro i
      simp only [deleteSegment, Function.update_apply]
      split_ifs with hi
      · simp only [Option.isSome_none, Bool.false_eq_true, false_iff]
        omega
      · rw [hsome i]
        omega
    simp only [deleteFrom, hseg, Bool.false_eq_true, if_false]
    rw [ih (by omega) hnext]
    rfl

/-- Without gaps, and with no failing call, no segment is left. -/
theorem deleteSegments_dense {f : LogFiles α} {k : ℕ} (hk : k ≤ maxSegments)
    (hsome : ∀ i, (f.segments i).isSome ↔ i < k) :
    f.deleteSegments (fun _ ↦ false) = { f with segments := fun _ ↦ none } :=
  deleteFrom_dense hk fun i ↦ (hsome i).trans (by omega)

theorem stream_append (f : LogFiles α) (content : List α) (n : ℕ) :
    (f.append content).stream n = f.stream n ++ content := by
  simp [stream, append]

/-- Rotation moves bytes to another file and changes none of them. -/
theorem stream_rotate (f : LogFiles α) (n : ℕ) : (f.rotate n).stream (n + 1) = f.stream n := by
  have hsegs : (List.range n).flatMap (fun i ↦ ((f.rotate n).segments i).getD []) =
      (List.range n).flatMap (fun i ↦ (f.segments i).getD []) := by
    apply List.flatMap_congr
    intro i hi
    have hne : i ≠ n := by have := List.mem_range.mp hi; omega
    simp [rotate, Function.update_of_ne hne]
  simp only [stream, List.range_succ, List.flatMap_append, hsegs]
  simp [rotate]

end LogFiles

end TakyonDb
