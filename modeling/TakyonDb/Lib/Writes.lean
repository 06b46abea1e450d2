import Mathlib.Data.List.Induction
import TakyonDb.Lib.Bytes

namespace TakyonDb.Lib

/-- A copy of a list over a range of a memory. -/
structure Write (α : Type) where
  offset : ℕ
  content : List α
deriving DecidableEq

variable {α : Type}

def Write.Fits (n : ℕ) (w : Write α) : Prop := w.offset + w.content.length ≤ n

/-- The value that the write leaves at `i`. -/
def Write.at (w : Write α) (i : ℕ) : Option α :=
  if w.offset ≤ i then w.content[i - w.offset]? else none

def applyWrites (ws : List (Write α)) (b : List α) : List α :=
  ws.foldl (fun b w ↦ overwrite b w.offset w.content) b

/-- The value that the last write to `i` leaves there. -/
def lastWrite (ws : List (Write α)) (i : ℕ) : Option α :=
  ws.foldl (fun last w ↦ (w.at i).or last) none

variable {n : ℕ} {ws vs : List (Write α)} {b : List α}

theorem applyWrites_append (ws vs : List (Write α)) (b : List α) :
    applyWrites (ws ++ vs) b = applyWrites vs (applyWrites ws b) := List.foldl_append

theorem Write.at_eq_none {w : Write α} {i : ℕ} :
    w.at i = none ↔ i < w.offset ∨ w.offset + w.content.length ≤ i := by
  simp only [Write.at]
  split_ifs with h
  · rw [List.getElem?_eq_none_iff]
    omega
  · simp only [true_iff]
    omega

theorem Write.mem_of_at {w : Write α} {i : ℕ} {x : α} (h : w.at i = some x) : x ∈ w.content := by
  simp only [Write.at] at h
  split_ifs at h
  exact List.mem_of_getElem? h

@[simp] theorem lastWrite_singleton (w : Write α) (i : ℕ) : lastWrite [w] i = w.at i :=
  Option.or_none

theorem getElem?_overwrite_at {w : Write α} (h : w.Fits b.length) (i : ℕ) :
    (overwrite b w.offset w.content)[i]? = (w.at i).or b[i]? := by
  rw [getElem?_overwrite h]
  split_ifs with hin
  · obtain ⟨v, hv⟩ : ∃ v, w.content[i - w.offset]? = some v :=
      ⟨_, List.getElem?_eq_getElem (by omega)⟩
    rw [Write.at, if_pos hin.1, hv, Option.some_or]
  · rw [Write.at_eq_none.mpr (by omega), Option.none_or]

theorem length_applyWrites (h : ∀ w ∈ ws, w.Fits b.length) :
    (applyWrites ws b).length = b.length := by
  induction ws generalizing b with
  | nil => rfl
  | cons w ws ih =>
    have hw := h w List.mem_cons_self
    have hlen : (overwrite b w.offset w.content).length = b.length := length_overwrite hw
    rw [applyWrites, List.foldl_cons]
    refine (ih fun v hv ↦ ?_).trans hlen
    rw [hlen]
    exact h v (List.mem_cons_of_mem _ hv)

theorem lastWrite_append (ws vs : List (Write α)) (i : ℕ) :
    lastWrite (ws ++ vs) i = (lastWrite vs i).or (lastWrite ws i) := by
  rw [lastWrite, List.foldl_append]
  induction vs using List.reverseRecOn with
  | nil => rfl
  | append_singleton vs v ih =>
    simp only [lastWrite, List.foldl_append, List.foldl_cons, List.foldl_nil] at ih ⊢
    rw [ih, Option.or_assoc]

/-- The last writer wins. -/
theorem getElem?_applyWrites (h : ∀ w ∈ ws, w.Fits b.length) (i : ℕ) :
    (applyWrites ws b)[i]? = (lastWrite ws i).or b[i]? := by
  induction ws using List.reverseRecOn with
  | nil => rfl
  | append_singleton ws w ih =>
    have hws : ∀ v ∈ ws, v.Fits b.length := fun v hv ↦ h v (List.mem_append_left _ hv)
    have hw : w.Fits (applyWrites ws b).length := by
      rw [length_applyWrites hws]
      exact h w (by simp)
    rw [applyWrites_append, lastWrite_append]
    simp only [applyWrites, lastWrite, List.foldl_cons, List.foldl_nil] at hw ih ⊢
    rw [getElem?_overwrite_at hw, ih hws, Option.or_none, Option.or_assoc]

theorem slice_applyWrites (h : ∀ w ∈ ws, w.Fits b.length) {off : ℕ} {content : List α}
    (hlast : (List.range content.length).map (fun i ↦ lastWrite ws (off + i)) = content.map some) :
    slice (applyWrites ws b) off content.length = content := by
  apply List.ext_getElem?
  intro i
  rw [getElem?_slice]
  split_ifs with hi
  · have hi' := congrArg (fun l ↦ l[i]?) hlast
    simp only [List.getElem?_map, List.getElem?_range hi, Option.map_some, List.getElem?_eq_getElem hi] at hi'
    rw [getElem?_applyWrites h, Option.some.inj hi', List.getElem?_eq_getElem hi, Option.some_or]
  · exact (List.getElem?_eq_none (by omega)).symm

theorem lastWrite_eq_none (h : ∀ w ∈ ws, w.at i = none) : lastWrite ws i = none := by
  induction ws using List.reverseRecOn with
  | nil => rfl
  | append_singleton ws w ih =>
    rw [lastWrite_append, ih fun v hv ↦ h v (List.mem_append_left _ hv), Option.or_none]
    simpa [lastWrite] using h w (by simp)

/-- Two groups of writes can change places if and only if they leave the
same value wherever both write. -/
theorem applyWrites_comm_iff (hws : ∀ w ∈ ws, w.Fits n) (hvs : ∀ v ∈ vs, v.Fits n) :
    (∀ b : List α, b.length = n → applyWrites (ws ++ vs) b = applyWrites (vs ++ ws) b) ↔
      ∀ i x y, lastWrite ws i = some x → lastWrite vs i = some y → x = y := by
  have hread : ∀ b : List α, b.length = n → ∀ i,
      (applyWrites (ws ++ vs) b)[i]? = ((lastWrite vs i).or (lastWrite ws i)).or b[i]? ∧
      (applyWrites (vs ++ ws) b)[i]? = ((lastWrite ws i).or (lastWrite vs i)).or b[i]? := by
    rintro b rfl i
    have hws' : ∀ w ∈ ws ++ vs, w.Fits b.length := fun w hw ↦
      (List.mem_append.mp hw).elim (hws w) (hvs w)
    have hvs' : ∀ w ∈ vs ++ ws, w.Fits b.length := fun w hw ↦
      (List.mem_append.mp hw).elim (hvs w) (hws w)
    rw [getElem?_applyWrites hws', getElem?_applyWrites hvs', lastWrite_append, lastWrite_append]
    exact ⟨rfl, rfl⟩
  constructor
  · intro h i x y hx hy
    have hb : (List.replicate n x).length = n := List.length_replicate
    have hi := congrArg (fun b ↦ b[i]?) (h _ hb)
    simp only [(hread _ hb i).1, (hread _ hb i).2, hx, hy, Option.some_or] at hi
    exact (Option.some.inj hi).symm
  · intro h b hb
    apply List.ext_getElem?
    intro i
    rw [(hread b hb i).1, (hread b hb i).2]
    cases hx : lastWrite ws i with
    | none => simp
    | some x =>
      cases hy : lastWrite vs i with
      | none => simp
      | some y => rw [h i x y hx hy]

end TakyonDb.Lib
