import Mathlib.Data.List.Basic
import TakyonDb.Lib.Bytes

namespace TakyonDb.Lib

variable {α : Type}

/-- A run of `len` cells of a memory. -/
structure Extent where
  start : ℕ
  len : ℕ
deriving DecidableEq

namespace Extent

def stop (e : Extent) : ℕ := e.start + e.len

/-- `e` lies in `f`. -/
def Within (e f : Extent) : Prop := f.start ≤ e.start ∧ e.stop ≤ f.stop

end Extent

open Extent

/-- Ascending, disjoint and inside a memory of `n` cells. -/
structure Packed (n : ℕ) (es : List Extent) : Prop where
  disjoint : es.Pairwise fun e f ↦ e.stop ≤ f.start
  inside : ∀ e ∈ es, e.stop ≤ n

/-- The contents of the extents, one behind the other. -/
def gather (es : List Extent) (mem : List α) : List α := es.flatMap fun e ↦ slice mem e.start e.len

def totalLen (es : List Extent) : ℕ := (es.map Extent.len).sum

/-- Where `gather` puts the cell `x`. -/
def locate : List Extent → ℕ → Option ℕ
  | [], _ => none
  | e :: es, x => if e.start ≤ x ∧ x < e.stop then some (x - e.start) else (locate es x).map (e.len + ·)

/-- The cell whose content `gather` puts at `k`. -/
def address : List Extent → ℕ → Option ℕ
  | [], _ => none
  | e :: es, k => if k < e.len then some (e.start + k) else address es (k - e.len)

/-- The memory with everything outside the extents erased. -/
def restrict (fill : α) (es : List Extent) (mem : List α) : List α :=
  mem.mapIdx fun x b ↦ if (locate es x).isSome then b else fill

variable {e : Extent} {es : List Extent} {n x j : ℕ}

theorem Packed.tail (h : Packed n (e :: es)) : Packed n es :=
  ⟨(List.pairwise_cons.mp h.disjoint).2, fun f hf ↦ h.inside f (List.mem_cons_of_mem _ hf)⟩

theorem totalLen_cons (e : Extent) (es : List Extent) : totalLen (e :: es) = e.len + totalLen es := rfl

/-- Disjoint extents are together no longer than the memory behind `m`. -/
theorem totalLen_add_le {m : ℕ} (h : Packed n es) (hm : ∀ e ∈ es, m ≤ e.start) (hle : m ≤ n) :
    totalLen es + m ≤ n := by
  induction es generalizing m with
  | nil => exact (Nat.zero_add m).trans_le hle
  | cons e es ih =>
    have hstart := hm e List.mem_cons_self
    have hrest := ih h.tail (List.pairwise_cons.mp h.disjoint).1 (h.inside e List.mem_cons_self)
    rw [stop] at hrest
    rw [totalLen_cons]
    omega

theorem Packed.totalLen_le (h : Packed n es) : totalLen es ≤ n :=
  totalLen_add_le h (fun _ _ ↦ Nat.zero_le _) (Nat.zero_le _)

theorem locate_lt (h : locate es x = some j) : j < totalLen es := by
  induction es generalizing j with
  | nil => cases h
  | cons e es ih =>
    rw [locate] at h
    rw [totalLen_cons]
    split_ifs at h with hin
    · have hj := Option.some.inj h
      rw [stop] at hin
      omega
    · obtain ⟨i, hi, rfl⟩ := Option.map_eq_some_iff.mp h
      exact Nat.add_lt_add_left (ih hi) _

theorem locate_isSome : (locate es x).isSome ↔ ∃ e ∈ es, e.start ≤ x ∧ x < e.stop := by
  induction es with
  | nil => simp [locate]
  | cons e es ih =>
    rw [locate]
    split_ifs with hin
    · simp [hin]
    · rw [Option.isSome_map, ih]
      simp [hin]

/-- Nothing in front of the extents is in one of them. -/
theorem locate_eq_none {m : ℕ} (h : ∀ e ∈ es, m ≤ e.start) (hx : x < m) : locate es x = none := by
  rw [← Option.not_isSome_iff_eq_none, locate_isSome]
  rintro ⟨e, he, hstart, -⟩
  have := h e he
  omega

theorem getElem?_gather {mem : List α} (h : ∀ e ∈ es, e.stop ≤ mem.length) (hx : locate es x = some j) :
    (gather es mem)[j]? = mem[x]? := by
  induction es generalizing j with
  | nil => cases hx
  | cons e es ih =>
    have hlen : (slice mem e.start e.len).length = e.len := length_slice (h e List.mem_cons_self)
    rw [locate] at hx
    rw [gather, List.flatMap_cons]
    split_ifs at hx with hin
    · obtain rfl := Option.some.inj hx
      rw [stop] at hin
      rw [List.getElem?_append_left (by omega), getElem?_slice, if_pos (by omega)]
      congr 1
      omega
    · obtain ⟨i, hi, rfl⟩ := Option.map_eq_some_iff.mp hx
      rw [List.getElem?_append_right (by omega), hlen, Nat.add_sub_cancel_left]
      exact ih (fun f hf ↦ h f (List.mem_cons_of_mem _ hf)) hi

theorem address_cons {k : ℕ} : address (e :: es) k = some x ↔
    (k < e.len ∧ e.start + k = x) ∨ (e.len ≤ k ∧ address es (k - e.len) = some x) := by
  rw [address]
  split_ifs with hk
  · rw [Option.some_inj]
    exact ⟨fun h ↦ .inl ⟨hk, h⟩, fun h ↦ h.elim And.right fun h ↦ absurd h.1 (by omega)⟩
  · exact ⟨fun h ↦ .inr ⟨by omega, h⟩, fun h ↦ h.elim (fun h ↦ absurd h.1 hk) And.right⟩

theorem address_isSome {k : ℕ} : (address es k).isSome ↔ k < totalLen es := by
  induction es generalizing k with
  | nil => simp [address, totalLen]
  | cons e es ih =>
    rw [address, totalLen_cons]
    split_ifs with hk
    · simp only [Option.isSome_some, true_iff]
      omega
    · rw [ih]
      omega

/-- The cells of the extents are those with an address. -/
theorem exists_address : (∃ k, address es k = some x) ↔ ∃ e ∈ es, e.start ≤ x ∧ x < e.stop := by
  induction es with
  | nil => simp [address]
  | cons e es ih =>
    rw [List.exists_mem_cons_iff, ← ih]
    constructor
    · rintro ⟨k, hk⟩
      rw [address] at hk
      split_ifs at hk with hlt
      · obtain rfl := Option.some.inj hk
        exact .inl ⟨Nat.le_add_right _ _, Nat.add_lt_add_left hlt _⟩
      · exact .inr ⟨_, hk⟩
    · rintro (⟨hstart, hstop⟩ | ⟨k, hk⟩)
      · rw [stop] at hstop
        exact ⟨x - e.start, by rw [address, if_pos (by omega), Nat.add_sub_cancel' hstart]⟩
      · exact ⟨e.len + k, by rw [address, if_neg (by omega), Nat.add_sub_cancel_left, hk]⟩

/-- Packed extents put one byte at a cell. -/
theorem Packed.address_inj (h : Packed n es) {k : ℕ} (hj : address es j = some x) (hk : address es k = some x) :
    j = k := by
  induction es generalizing j k with
  | nil => cases hj
  | cons e es ih =>
    have hbehind : ∀ i, address es i = some x → e.stop ≤ x := by
      intro i hi
      obtain ⟨f, hf, hstart, -⟩ := exists_address.mp ⟨i, hi⟩
      exact ((List.pairwise_cons.mp h.disjoint).1 f hf).trans hstart
    rw [stop] at hbehind
    rcases address_cons.mp hj with ⟨hlt, rfl⟩ | ⟨hle, hj⟩ <;> rcases address_cons.mp hk with ⟨hlt', hx⟩ | ⟨hle', hk⟩
    · omega
    · have := hbehind _ hk
      omega
    · have := hbehind _ hj
      omega
    · have := ih h.tail hj hk
      omega

theorem getElem?_gather_address {mem : List α} (h : ∀ e ∈ es, e.stop ≤ mem.length) (k : ℕ) :
    (gather es mem)[k]? = (address es k).bind fun x ↦ mem[x]? := by
  induction es generalizing k with
  | nil => rfl
  | cons e es ih =>
    have hlen : (slice mem e.start e.len).length = e.len := length_slice (h e List.mem_cons_self)
    rw [gather, List.flatMap_cons, address]
    split_ifs with hk
    · rw [List.getElem?_append_left (by omega), getElem?_slice, if_pos hk]
      rfl
    · rw [List.getElem?_append_right (by omega), hlen]
      exact ih (fun f hf ↦ h f (List.mem_cons_of_mem _ hf)) _

@[simp] theorem length_restrict (fill : α) (es : List Extent) (mem : List α) :
    (restrict fill es mem).length = mem.length := List.length_mapIdx

theorem getElem?_restrict (fill : α) (es : List Extent) (mem : List α) (x : ℕ) :
    (restrict fill es mem)[x]? = mem[x]?.map fun b ↦ if (locate es x).isSome then b else fill := by
  rw [restrict, List.getElem?_mapIdx]

/-- What lies in one of the extents is kept. -/
theorem slice_restrict {fill : α} {mem : List α} {f : Extent} (hf : f ∈ es) (h : e.Within f) :
    slice (restrict fill es mem) e.start e.len = slice mem e.start e.len := by
  apply List.ext_getElem?
  intro i
  rw [getElem?_slice, getElem?_slice]
  split_ifs with hi
  · have hin : (locate es (e.start + i)).isSome := by
      obtain ⟨hstart, hstop⟩ := h
      rw [stop, stop] at hstop
      refine locate_isSome.mpr ⟨f, hf, by omega, ?_⟩
      rw [stop]
      omega
    simp [getElem?_restrict, hin]
  · rfl

end TakyonDb.Lib
