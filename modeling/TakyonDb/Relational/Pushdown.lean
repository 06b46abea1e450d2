import Mathlib.Data.List.TakeWhile
import Mathlib.Order.BoundedOrder.Basic
import Mathlib.Order.Fin.Basic
import Mathlib.Order.RelClasses

namespace TakyonDb.Relational.Pushdown

inductive CmpOp where
  | eq | ne | gt | gte | lt | lte
deriving DecidableEq

/-- `PUSH_OP`, the code that crosses the C-ABI. -/
def CmpOp.code : CmpOp → ℕ
  | eq => 0
  | ne => 1
  | gt => 2
  | gte => 3
  | lt => 4
  | lte => 5

def CmpOp.matches (op : CmpOp) (v target : UInt32) : Bool :=
  match op with
  | eq => v == target
  | ne => v != target
  | gt => target < v
  | gte => target ≤ v
  | lt => v < target
  | lte => v ≤ target

def lanes32 : ℕ := 8

section Native

variable (values : List UInt32) (op : CmpOp) (target : UInt32) (cap : ℕ)

def mask (i : ℕ) : Bool := op.matches (values.getD i 0) target

/-- The lanes of the block at `i`. -/
def laneLoop (i lane : ℕ) (out : List ℕ) : List ℕ :=
  if lane < lanes32 ∧ out.length < cap then
    laneLoop i (lane + 1) (if mask values op target (i + lane) then out ++ [i + lane] else out)
  else out
termination_by lanes32 - lane

def blockLoop (top i : ℕ) (out : List ℕ) : ℕ × List ℕ :=
  if i < top ∧ out.length < cap then
    blockLoop top (i + lanes32) (laneLoop values op target cap i 0 out)
  else (i, out)
termination_by top - i
decreasing_by
  rw [lanes32]
  omega

def scalarLoop (i : ℕ) (out : List ℕ) : List ℕ :=
  if i < values.length ∧ out.length < cap then
    scalarLoop (i + 1) (if mask values op target i then out ++ [i] else out)
  else out
termination_by values.length - i

/-- The indices written to an output of `cap` entries. -/
def filterU32 : List ℕ :=
  let top := values.length / lanes32 * lanes32
  let (i, out) := blockLoop values op target cap top 0 []
  scalarLoop values op target cap i out

end Native

def cmpU32 (v : UInt32) (op : ℕ) (t : UInt32) : Bool :=
  match op with
  | 0 => v == t
  | 1 => v != t
  | 2 => t < v
  | 3 => t ≤ v
  | 4 => v < t
  | _ => v ≤ t

def fallbackFilterU32 (values : List UInt32) (op : ℕ) (target : UInt32) : List ℕ :=
  (List.range values.length).filter fun i ↦ cmpU32 (values.getD i 0) op target

section Selected

variable {α : Type*} (better : α → α → Prop) [DecidableRel better] (zero : α) (values : List α)

def selectLoop : List UInt32 → α → α
  | [], m => m
  | idx :: rest, m =>
    match values[idx.toNat]? with
    | none => m
    | some v => selectLoop rest (if better v m then v else m)

/-- `minSelected` and `maxSelected`, told apart by what is better. -/
def selected (sel : List UInt32) (selLen : ℕ) : α :=
  match (sel.take (min selLen sel.length)).dropWhile fun idx ↦ values.length ≤ idx.toNat with
  | [] => zero
  | idx :: rest => selectLoop better values rest (values.getD idx.toNat zero)

def fallbackLoop : List UInt32 → α → Bool → α
  | [], m, seen => if seen then m else zero
  | idx :: rest, m, seen =>
    match values[idx.toNat]? with
    | none => if seen then m else zero
    | some v => fallbackLoop rest (if better v m then v else m) true

def fallbackSelected (init : α) (sel : List UInt32) : α :=
  if sel.length = 0 then zero else fallbackLoop better zero values sel init false

end Selected

section Cells

variable {α : Type*} [LinearOrder α] (zero : α)

def minSelected (values : List α) : List UInt32 → ℕ → α := selected (· < ·) zero values

def maxSelected (values : List α) : List UInt32 → ℕ → α := selected (· > ·) zero values

variable [BoundedOrder α]

/-- `pushMinSelected` without a native kernel. -/
def fallbackMinSelected (values : List α) : List UInt32 → α := fallbackSelected (· < ·) zero values ⊤

def fallbackMaxSelected (values : List α) : List UInt32 → α := fallbackSelected (· > ·) zero values ⊥

end Cells

section Filter

variable {values : List UInt32} {op : CmpOp} {target : UInt32} {cap : ℕ}

/-- The matches among the first `i` cells. -/
def hits (values : List UInt32) (op : CmpOp) (target : UInt32) (i : ℕ) : List ℕ :=
  (List.range i).filter (mask values op target)

theorem hits_succ (i : ℕ) :
    hits values op target (i + 1) =
      if mask values op target i then hits values op target i ++ [i] else hits values op target i := by
  rw [hits, List.range_succ, List.filter_append, ← hits]
  by_cases h : mask values op target i <;> simp [h]

theorem hits_mono {i j : ℕ} (h : i ≤ j) : hits values op target i <+: hits values op target j := by
  induction j with
  | zero => exact Nat.le_zero.mp h ▸ List.prefix_rfl
  | succ j ih =>
    rcases Nat.le_succ_iff.mp h with hle | heq
    · have hstep : hits values op target j <+: hits values op target (j + 1) := by
        rw [hits_succ]
        by_cases hm : mask values op target j <;> simp [hm]
      exact (ih hle).trans hstep
    · exact heq ▸ List.prefix_rfl

/-- What an output holds when all cells before `i` have been looked at. -/
def Filled (values : List UInt32) (op : CmpOp) (target : UInt32) (cap i : ℕ) (out : List ℕ) : Prop :=
  out = (hits values op target i).take cap

theorem Filled.room {i : ℕ} {out : List ℕ} (h : Filled values op target cap i out) (hroom : out.length < cap) :
    out = hits values op target i := by
  rw [Filled] at h
  rw [h, List.length_take] at hroom
  rw [h, List.take_of_length_le (by omega)]

theorem Filled.step {i : ℕ} {out : List ℕ} (h : Filled values op target cap i out) (hroom : out.length < cap) :
    Filled values op target cap (i + 1) (if mask values op target i then out ++ [i] else out) := by
  rw [Filled, hits_succ, ← h.room hroom]
  by_cases hm : mask values op target i
  · rw [if_pos hm, List.take_of_length_le]
    rw [List.length_append, List.length_singleton]
    omega
  · rw [if_neg hm, List.take_of_length_le (Nat.le_of_lt hroom)]

/-- A full output stays what it is. -/
theorem Filled.full {i j : ℕ} {out : List ℕ} (h : Filled values op target cap i out) (hfull : ¬ out.length < cap)
    (hij : i ≤ j) : Filled values op target cap j out := by
  obtain ⟨t, ht⟩ := @hits_mono values op target i j hij
  rw [Filled] at h ⊢
  have hlen : cap ≤ (hits values op target i).length := by
    rw [h, List.length_take] at hfull
    omega
  rw [← ht, List.take_append_of_le_length hlen]
  exact h

theorem Filled.laneLoop {i lane : ℕ} {out : List ℕ} (h : Filled values op target cap (i + lane) out)
    (hlane : lane ≤ lanes32) : Filled values op target cap (i + lanes32)
    (laneLoop values op target cap i lane out) := by
  induction hn : lanes32 - lane generalizing lane out with
  | zero =>
    have heq : lane = lanes32 := by omega
    rw [Pushdown.laneLoop, if_neg (by omega)]
    exact heq ▸ h
  | succ n ih =>
    rw [Pushdown.laneLoop]
    by_cases hroom : out.length < cap
    · rw [if_pos ⟨by omega, hroom⟩]
      exact ih (h.step hroom) (by omega) (by omega)
    · rw [if_neg (fun hc ↦ hroom hc.2)]
      exact h.full hroom (by omega)

theorem Filled.scalarLoop {i : ℕ} {out : List ℕ} (h : Filled values op target cap i out) (hi : i ≤ values.length) :
    Filled values op target cap values.length (scalarLoop values op target cap i out) := by
  induction hn : values.length - i generalizing i out with
  | zero =>
    have heq : i = values.length := by omega
    rw [Pushdown.scalarLoop, if_neg (by omega)]
    exact heq ▸ h
  | succ n ih =>
    rw [Pushdown.scalarLoop]
    by_cases hroom : out.length < cap
    · rw [if_pos ⟨by omega, hroom⟩]
      exact ih (h.step hroom) (by omega) (by omega)
    · rw [if_neg (fun hc ↦ hroom hc.2)]
      exact h.full hroom hi

/-- The block loop leaves off at a place its output is filled up to. -/
theorem Filled.blockLoop {top k i : ℕ} {out : List ℕ} (h : Filled values op target cap i out)
    (htop : top = i + k * lanes32) :
    (blockLoop values op target cap top i out).1 ≤ top ∧
      Filled values op target cap (blockLoop values op target cap top i out).1
        (blockLoop values op target cap top i out).2 := by
  induction k generalizing i out with
  | zero =>
    rw [Pushdown.blockLoop, if_neg (by omega)]
    exact ⟨by omega, h⟩
  | succ k ih =>
    rw [Pushdown.blockLoop]
    have hstep : top = i + lanes32 + k * lanes32 := by
      rw [Nat.succ_mul] at htop
      omega
    by_cases hroom : out.length < cap
    · have hpos : 0 < lanes32 := by decide
      rw [if_pos ⟨by omega, hroom⟩]
      exact ih (Filled.laneLoop (by exact h) (Nat.zero_le _)) hstep
    · rw [if_neg (fun hc ↦ hroom hc.2)]
      exact ⟨by omega, h⟩

theorem cmpU32_code (op : CmpOp) (v t : UInt32) : cmpU32 v op.code t = op.matches v t := by
  cases op <;> rfl

theorem filterU32_eq (values : List UInt32) (op : CmpOp) (target : UInt32) (cap : ℕ) :
    filterU32 values op target cap = (fallbackFilterU32 values op.code target).take cap := by
  have hstart : Filled values op target cap 0 [] := by
    rw [Filled, hits]
    simp
  obtain ⟨hle, hblocks⟩ := hstart.blockLoop (k := values.length / lanes32) (Nat.zero_add _).symm
  have htop : values.length / lanes32 * lanes32 ≤ values.length := Nat.div_mul_le_self _ _
  have hdone := hblocks.scalarLoop (Nat.le_trans hle htop)
  rw [filterU32, fallbackFilterU32]
  simp only [cmpU32_code]
  exact hdone

end Filter

section Agreement

variable {α : Type*} {better : α → α → Prop} [DecidableRel better] {zero init : α} {values : List α} {sel : List UInt32}

/-- The cells that a selection names before its first index out of range. -/
def run (values : List α) : List UInt32 → List α
  | [] => []
  | idx :: rest =>
    match values[idx.toNat]? with
    | none => []
    | some v => v :: run values rest

/-- Leaves out the indices in front that are out of range. -/
def inRange (values : List α) (sel : List UInt32) : List UInt32 :=
  sel.dropWhile fun idx ↦ values.length ≤ idx.toNat

theorem selectLoop_eq (m : α) :
    selectLoop better values sel m = (run values sel).foldl (fun m v ↦ if better v m then v else m) m := by
  induction sel generalizing m with
  | nil => rfl
  | cons idx rest ih =>
    rw [selectLoop, run]
    cases values[idx.toNat]? with
    | none => rfl
    | some v => exact ih _

theorem fallbackLoop_eq (m : α) (seen : Bool) : fallbackLoop better zero values sel m seen =
    if seen ∨ run values sel ≠ [] then (run values sel).foldl (fun m v ↦ if better v m then v else m) m else zero := by
  induction sel generalizing m seen with
  | nil => simp [fallbackLoop, run]
  | cons idx rest ih =>
    rw [fallbackLoop, run]
    cases values[idx.toNat]? with
    | none => simp
    | some v => simp [ih]

theorem run_eq_nil_iff : run values sel = [] ↔ ∀ idx ∈ sel.head?, values.length ≤ idx.toNat := by
  cases sel with
  | nil => simp [run]
  | cons idx rest =>
    rw [run]
    rcases Nat.lt_or_ge idx.toNat values.length with hlt | hge
    · simp [hlt]
    · simp [hge]

theorem head_inRange {idx : UInt32} {rest : List UInt32} (h : inRange values sel = idx :: rest) :
    idx.toNat < values.length := by
  have hhead := List.head?_dropWhile_not (fun idx : UInt32 ↦ decide (values.length ≤ idx.toNat)) sel
  rw [← inRange, h] at hhead
  simpa using hhead

/-- What the selection makes of the two kernels: they start alike, or nothing is in range for either,
or the cells that only the native kernel reaches come to the zero of an empty selection. -/
def Agrees (better : α → α → Prop) (zero : α) (values : List α) (sel : List UInt32) : Prop :=
  (∀ idx ∈ sel.head?, idx.toNat < values.length) ∨ (∀ idx ∈ sel, values.length ≤ idx.toNat) ∨
    (zero ∈ run values (inRange values sel) ∧ ∀ v ∈ run values (inRange values sel), ¬ better v zero)

variable [IsStrictTotalOrder α better]

omit [DecidableRel better] in
theorem not_better_trans {a b c : α} (hab : ¬ better a b) (hbc : ¬ better b c) : ¬ better a c := by
  intro hac
  rcases trichotomous_of better a b with h | h | h
  · exact hab h
  · exact hbc (h ▸ hac)
  · exact hbc (trans_of better h hac)

theorem foldl_best (l : List α) (m : α) : l.foldl (fun m v ↦ if better v m then v else m) m ∈ m :: l ∧
    ∀ v ∈ m :: l, ¬ better v (l.foldl (fun m v ↦ if better v m then v else m) m) := by
  induction l generalizing m with
  | nil => exact ⟨List.mem_singleton_self m, fun v hv ↦ List.mem_singleton.mp hv ▸ irrefl_of better m⟩
  | cons a l ih =>
    obtain ⟨hmem, hbest⟩ := ih (if better a m then a else m)
    rw [List.foldl_cons]
    have hfirst := hbest _ List.mem_cons_self
    have hrest := fun v hv ↦ hbest v (List.mem_cons_of_mem _ hv)
    by_cases ha : better a m
    · simp only [if_pos ha] at hmem hfirst hrest ⊢
      have hm : ¬ better m a := fun h ↦ irrefl_of better a (trans_of better ha h)
      refine ⟨List.mem_cons_of_mem m hmem, ?_⟩
      intro v hv
      rcases List.mem_cons.mp hv with heq | hv
      · exact heq ▸ not_better_trans hm hfirst
      rcases List.mem_cons.mp hv with heq | hv
      · exact heq ▸ hfirst
      · exact hrest v hv
    · simp only [if_neg ha] at hmem hfirst hrest ⊢
      refine ⟨?_, ?_⟩
      · rcases List.mem_cons.mp hmem with heq | hl
        · exact List.mem_cons.mpr (Or.inl heq)
        · exact List.mem_cons_of_mem m (List.mem_cons_of_mem a hl)
      intro v hv
      rcases List.mem_cons.mp hv with heq | hv
      · exact heq ▸ hfirst
      rcases List.mem_cons.mp hv with heq | hv
      · exact heq ▸ not_better_trans ha hfirst
      · exact hrest v hv

/-- The best of a nonempty list is the member that no other is better than. -/
theorem foldl_best_iff (l : List α) (m z : α) : l.foldl (fun m v ↦ if better v m then v else m) m = z ↔
    z ∈ m :: l ∧ ∀ v ∈ m :: l, ¬ better v z := by
  obtain ⟨hmem, hbest⟩ := @foldl_best α better _ _ l m
  constructor
  · intro h
    exact h ▸ ⟨hmem, hbest⟩
  · intro h
    rcases trichotomous_of better (l.foldl (fun m v ↦ if better v m then v else m) m) z with hlt | heq | hgt
    · exact absurd hlt (h.2 _ hmem)
    · exact heq
    · exact absurd hgt (hbest z h.1)

theorem selected_eq_fallback_iff (hinit : ∀ v, v = init ∨ better v init) :
    selected better zero values sel sel.length = fallbackSelected better zero values init sel ↔
      Agrees better zero values sel := by
  have hself : sel.take (min sel.length sel.length) = sel := by rw [Nat.min_self, List.take_length]
  have hfallback : fallbackSelected better zero values init sel =
      if run values sel ≠ [] then (run values sel).foldl (fun m v ↦ if better v m then v else m) init else zero := by
    rw [fallbackSelected, fallbackLoop_eq]
    cases sel with
    | nil => simp [run]
    | cons idx rest => simp
  rw [selected, hself, hfallback, ← inRange, Agrees]
  cases hdrop : inRange values sel with
  | nil =>
    have hnone : ∀ idx ∈ sel, values.length ≤ idx.toNat := by
      have h := List.dropWhile_eq_nil_iff.mp hdrop
      simpa using h
    have hrun : run values sel = [] := run_eq_nil_iff.mpr fun idx hidx ↦ hnone idx (List.mem_of_mem_head? hidx)
    exact iff_of_true (by simp [hrun]) (Or.inr (Or.inl hnone))
  | cons idx rest =>
    have hidx := head_inRange hdrop
    have hmem : idx ∈ sel := (List.dropWhile_sublist _).subset (hdrop ▸ List.mem_cons_self)
    have hnotall : ¬ ∀ i ∈ sel, values.length ≤ i.toNat := fun h ↦ absurd (h idx hmem) (by omega)
    have hcell : values.getD idx.toNat zero = values[idx.toNat] := by simp [hidx]
    have hcells : run values (idx :: rest) = values[idx.toNat] :: run values rest := by
      rw [run, List.getElem?_eq_getElem hidx]
    simp only [hcell, hcells, selectLoop_eq]
    by_cases hhead : ∀ i ∈ sel.head?, i.toNat < values.length
    · -- The first index is in range, so the two start on the same cell.
      have hsel : sel = idx :: rest := by
        cases sel with
        | nil => cases hmem
        | cons i is =>
          have hi : i.toNat < values.length := hhead i rfl
          rw [inRange, List.dropWhile_cons_of_neg (by simpa using hi)] at hdrop
          exact hdrop
      have hfirst : (if better values[idx.toNat] init then values[idx.toNat] else init) = values[idx.toNat] := by
        rcases hinit values[idx.toNat] with heq | hbetter
        · rw [← heq, ite_self]
        · rw [if_pos hbetter]
      rw [hsel, hcells, if_pos (List.cons_ne_nil _ _), List.foldl_cons, hfirst]
      simp [hidx]
    · have hrun : run values sel = [] := by
        rw [run_eq_nil_iff]
        cases sel with
        | nil => cases hmem
        | cons i is => simpa using hhead
      simp only [hrun, ne_eq, not_true_eq_false, if_false, foldl_best_iff, hhead, hnotall, false_or]

end Agreement

/-- What the kernels are called on. -/
inductive Case (α : Type*) where
  | minSelected (values : List α) (sel : List UInt32)
  | maxSelected (values : List α) (sel : List UInt32)
  | filterU32 (values : List UInt32) (op : CmpOp) (target : UInt32) (cap : ℕ)

section Cases

variable {α : Type*} [LinearOrder α] [BoundedOrder α] (zero : α)

/-- The native kernel and its fallback give the same answer. -/
def Case.Indistinguishable : Case α → Prop
  | minSelected values sel => Pushdown.minSelected zero values sel sel.length = fallbackMinSelected zero values sel
  | maxSelected values sel => Pushdown.maxSelected zero values sel sel.length = fallbackMaxSelected zero values sel
  | filterU32 values op target cap =>
      Pushdown.filterU32 values op target cap = (fallbackFilterU32 values op.code target).take cap

def Case.Agrees : Case α → Prop
  | minSelected values sel => Pushdown.Agrees (· < ·) zero values sel
  | maxSelected values sel => Pushdown.Agrees (· > ·) zero values sel
  | filterU32 _ _ _ _ => True

theorem indistinguishable_iff (c : Case α) : c.Indistinguishable zero ↔ c.Agrees zero := by
  cases c with
  | minSelected values sel => exact selected_eq_fallback_iff fun v ↦ le_top.eq_or_lt
  | maxSelected values sel => exact selected_eq_fallback_iff fun v ↦ bot_le.eq_or_lt.imp_left Eq.symm
  | filterU32 values op target cap => exact iff_of_true (filterU32_eq values op target cap) trivial

/-- An index out of range in front: the native kernel passes over it, the fallback ends there. -/
theorem not_indistinguishable_skip :
    ¬ (Case.minSelected [(5 : Fin 10)] [7, 0]).Indistinguishable (0 : Fin 10) := by
  have hne : minSelected (0 : Fin 10) [5] [7, 0] 2 ≠ fallbackMinSelected (0 : Fin 10) [5] [7, 0] := by decide
  exact hne

end Cases

end TakyonDb.Relational.Pushdown
