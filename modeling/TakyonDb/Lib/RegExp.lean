import TakyonDb.Lib.JsString

namespace TakyonDb.Lib.RegExp

open JsString

/-- The expressions in use: anchors, single units, greedy and reluctant runs of units, sequences, choices and
capturing groups. -/
inductive Node where
  | start
  | stop
  | empty
  | unit (p : UInt16 → Bool)
  | many (p : UInt16 → Bool) (least : ℕ) (most : Option ℕ)
  | few (p : UInt16 → Bool) (least : ℕ)
  | seq (a b : Node)
  | alt (a b : Node)
  | group (a : Node)

/-- How far a match has come: the units passed, those ahead, and the groups captured. -/
structure Cursor where
  pos : ℕ
  rest : JsString
  groups : List JsString
deriving DecidableEq

def Cursor.advance (c : Cursor) (k : ℕ) : Cursor := { c with pos := c.pos + k, rest := c.rest.drop k }

/-- How many units a greedy run can take, most first. -/
def runs (p : UInt16 → Bool) (least : ℕ) (most : Option ℕ) (s : JsString) : List ℕ :=
  ((List.range ((s.takeWhile p).length + 1)).filter fun k ↦ least ≤ k ∧ ∀ m ∈ most, k ≤ m).reverse

/-- The ways an expression can match from a cursor, in the order a backtracking search tries them. -/
@[grind =] def Node.run : Node → Cursor → List Cursor
  | start, c => if c.pos = 0 then [c] else []
  | stop, c => if c.rest = [] then [c] else []
  | empty, c => [c]
  | unit p, c => if (c.rest.head?.any p) then [c.advance 1] else []
  | many p least most, c => (runs p least most c.rest).map c.advance
  | few p least, c => (runs p least none c.rest).reverse.map c.advance
  | seq a b, c => (a.run c).flatMap b.run
  | alt a b, c => a.run c ++ b.run c
  | group a, c => (a.run c).map fun d ↦ { d with groups := d.groups ++ [c.rest.take (d.pos - c.pos)] }

/-- The first match, looked for from each place of the string in turn. -/
def Node.exec (r : Node) (s : JsString) : Option Cursor :=
  ((List.range (s.length + 1)).flatMap fun i ↦ r.run ⟨i, s.drop i, []⟩).head?

def Node.test (r : Node) (s : JsString) : Bool := (r.exec s).isSome

def seqAll : List Node → Node
  | [] => .empty
  | r :: rs => .seq r (seqAll rs)

/-- The texts between brackets of what the expression captured. -/
def Node.captures (r : Node) (s : JsString) : Option (List JsString) := (r.exec s).map Cursor.groups

/-- The units of a word, whatever their case. -/
def word (w : String) : Node := seqAll ((lit w).map fun u ↦ .unit fun v ↦ v == u || isLower v && v - 0x20 == u)

/-- `a?` -/
def opt (a : Node) : Node := .alt a .empty

/-- What `.` matches without the `s` flag. -/
def dot (u : UInt16) : Bool := !isLineTerminator u

def isSyntax (u : UInt16) : Bool := u ∈ lit "^$\\.*+?()[]{}|"

inductive Token where
  | start
  | stop
  | star
  | atom (p : UInt16 → Bool)

def token (u : UInt16) : Option Token :=
  if u = JsString.unit '^' then some .start
  else if u = JsString.unit '$' then some .stop
  else if u = JsString.unit '*' then some .star
  else if u = JsString.unit '.' then some (.atom dot)
  else if isSyntax u then none
  else some (.atom (· == u))

/-- Reads anchors, stars, dots, escaped syntax characters and plain ones. -/
def tokens : JsString → Option (List Token)
  | [] => some []
  | u :: rest => do
    if u = JsString.unit '\\' then
      match rest with
      | [] => none
      | c :: rest =>
        if isSyntax c then
          let ts ← tokens rest
          some (.atom (· == c) :: ts)
        else none
    else
      let t ← token u
      let ts ← tokens rest
      some (t :: ts)

/-- A star belongs to the atom in front of it. -/
def terms : List Token → Option (List Node)
  | [] => some []
  | .start :: ts => (terms ts).map (.start :: ·)
  | .stop :: ts => (terms ts).map (.stop :: ·)
  | .atom p :: .star :: ts => (terms ts).map (.many p 0 none :: ·)
  | .atom p :: ts => (terms ts).map (.unit p :: ·)
  | .star :: _ => none

/-- `new RegExp(source)` -/
def compile (source : JsString) : Option Node := do
  let ts ← tokens source
  let nodes ← terms ts
  some (seqAll nodes)

theorem tokens_cons {u : UInt16} (h : u ≠ JsString.unit '\\') (rest : JsString) :
    tokens (u :: rest) = (token u).bind fun t ↦ (tokens rest).map (t :: ·) := by
  rw [tokens.eq_def]
  simp only [if_neg h]
  cases token u <;> cases tokens rest <;> rfl

theorem tokens_escaped {c : UInt16} (h : isSyntax c) (rest : JsString) :
    tokens (JsString.unit '\\' :: c :: rest) = (tokens rest).map (.atom (· == c) :: ·) := by
  rw [tokens.eq_def]
  simp only [if_true, h]
  cases tokens rest <;> rfl

section Runs

variable {p : UInt16 → Bool} {least : ℕ} {most : Option ℕ} {s : JsString} {c d : Cursor}

theorem mem_runs {k : ℕ} : k ∈ runs p least most s ↔
    k ≤ (s.takeWhile p).length ∧ least ≤ k ∧ ∀ m ∈ most, k ≤ m := by
  rw [runs, List.mem_reverse, List.mem_filter, List.mem_range, decide_eq_true_eq, Nat.lt_succ_iff]

@[simp] theorem mem_run_unit : d ∈ (Node.unit p).run c ↔ ∃ u us, c.rest = u :: us ∧ p u ∧ d = c.advance 1 := by
  rw [Node.run]
  cases c.rest with
  | nil => simp
  | cons u us =>
    by_cases hu : p u <;> simp [hu]

@[simp] theorem mem_run_many : d ∈ (Node.many p least most).run c ↔
    ∃ k, k ≤ (c.rest.takeWhile p).length ∧ least ≤ k ∧ (∀ m ∈ most, k ≤ m) ∧ d = c.advance k := by
  rw [Node.run, List.mem_map]
  simp only [mem_runs]
  constructor
  · intro h
    obtain ⟨k, ⟨hk, hleast, hmost⟩, hd⟩ := h
    exact ⟨k, hk, hleast, hmost, hd.symm⟩
  · intro h
    obtain ⟨k, hk, hleast, hmost, hd⟩ := h
    exact ⟨k, ⟨hk, hleast, hmost⟩, hd.symm⟩

@[simp] theorem mem_run_seq {a b : Node} : d ∈ (Node.seq a b).run c ↔ ∃ e ∈ a.run c, d ∈ b.run e := List.mem_flatMap

@[simp] theorem mem_run_alt {a b : Node} : d ∈ (Node.alt a b).run c ↔ d ∈ a.run c ∨ d ∈ b.run c := List.mem_append

@[simp] theorem mem_run_start : d ∈ Node.start.run c ↔ c.pos = 0 ∧ d = c := by
  rw [Node.run]
  by_cases h : c.pos = 0 <;> simp [h]

@[simp] theorem mem_run_stop : d ∈ Node.stop.run c ↔ c.rest = [] ∧ d = c := by
  rw [Node.run]
  by_cases h : c.rest = [] <;> simp [h]

@[simp] theorem mem_run_empty : d ∈ Node.empty.run c ↔ d = c := List.mem_singleton

theorem take_run {k : ℕ} (h : k ≤ (s.takeWhile p).length) : ∀ u ∈ s.take k, p u := by
  intro u hu
  have hfront : s.take k <+: s.takeWhile p := by
    have htake : s.take k = (s.takeWhile p).take k := by
      obtain ⟨t, ht⟩ := List.takeWhile_prefix p (l := s)
      calc s.take k = (s.takeWhile p ++ t).take k := by rw [ht]
        _ = (s.takeWhile p).take k := List.take_append_of_le_length h
    exact htake ▸ List.take_prefix k _
  exact List.mem_takeWhile_imp (hfront.subset hu)

theorem le_takeWhile {xs ys : JsString} (h : ∀ u ∈ xs, p u) : xs.length ≤ ((xs ++ ys).takeWhile p).length := by
  rw [List.takeWhile_append_of_pos h, List.length_append]
  exact Nat.le_add_right _ _

theorem mem_run_many_append {xs ys : JsString} {pos : ℕ} {gs : List JsString} (hxs : ∀ u ∈ xs, p u)
    (hleast : least ≤ xs.length) (hmost : ∀ m ∈ most, xs.length ≤ m) :
    ⟨pos + xs.length, ys, gs⟩ ∈ (Node.many p least most).run ⟨pos, xs ++ ys, gs⟩ := by
  rw [mem_run_many]
  exact ⟨xs.length, le_takeWhile hxs, hleast, hmost, by simp [Cursor.advance]⟩

end Runs

theorem test_iff (r : Node) (s : JsString) : r.test s ↔ ∃ i ≤ s.length, ∃ d, d ∈ r.run ⟨i, s.drop i, []⟩ := by
  rw [Node.test, Node.exec, List.isSome_head?, ne_eq, List.flatMap_eq_nil_iff]
  simp only [List.mem_range, Nat.lt_succ_iff, not_forall, List.eq_nil_iff_forall_not_mem, not_not, exists_prop]

section Forced

variable {p q : UInt16 → Bool} {xs ys : JsString} {pos least : ℕ} {gs : List JsString} {a b : Node} {rs : List Node}

/-- The expression does not match where the next unit passes the test. -/
def Refuses (p : UInt16 → Bool) (a : Node) : Prop := ∀ pos u us gs, p u → a.run ⟨pos, u :: us, gs⟩ = []

theorem refuses_unit (h : ∀ u, p u → q u = false) : Refuses p (.unit q) := by
  intro pos u us gs hu
  simp [Node.run, h u hu]

theorem Refuses.seq (h : Refuses p a) : Refuses p (.seq a b) := by
  intro pos u us gs hu
  rw [Node.run, h pos u us gs hu, List.flatMap_nil]

theorem Refuses.group (h : Refuses p a) : Refuses p (.group a) := by
  intro pos u us gs hu
  rw [Node.run, h pos u us gs hu, List.map_nil]

/-- A run that may be empty leaves the refusal to what follows it. -/
theorem Refuses.many_seq {most : Option ℕ} (hq : ∀ u, p u → q u = false) (h : Refuses p b) :
    Refuses p (.seq (.many q least most) b) := by
  intro pos u us gs hu
  rw [Node.run, List.flatMap_eq_nil_iff]
  intro c hc
  obtain ⟨k, hk, _, _, hd⟩ := mem_run_many.mp hc
  have hzero : k = 0 := by simpa [hq u hu] using hk
  rw [hd, hzero]
  exact h pos u us gs hu

theorem refuses_many {most : Option ℕ} (hq : ∀ u, p u → q u = false) (hleast : 0 < least) :
    Refuses p (.many q least most) := by
  intro pos u us gs hu
  rw [List.eq_nil_iff_forall_not_mem]
  intro c hc
  obtain ⟨k, hk, hle, _, _⟩ := mem_run_many.mp hc
  have hzero : k = 0 := by simpa [hq u hu] using hk
  omega

theorem seqAll_cons : seqAll (a :: rs) = .seq a (seqAll rs) := rfl

theorem run_seqAll_of_eq {c c' : Cursor} (h : a.run c = [c']) : (seqAll (a :: rs)).run c = (seqAll rs).run c' := by
  rw [seqAll, Node.run, h, List.flatMap_singleton]

theorem run_start {s : JsString} : Node.start.run ⟨0, s, gs⟩ = [⟨0, s, gs⟩] := by rw [Node.run, if_pos rfl]

theorem run_unit {u : UInt16} (h : p u) : (Node.unit p).run ⟨pos, u :: ys, gs⟩ = [⟨pos + 1, ys, gs⟩] := by
  simp [Node.run, h, Cursor.advance]

/-- A word in capitals matches itself. -/
theorem run_word (w : String) : (word w).run ⟨pos, lit w ++ ys, gs⟩ = [⟨pos + (lit w).length, ys, gs⟩] := by
  rw [word]
  generalize lit w = s
  induction s generalizing pos with
  | nil => simp [seqAll, Node.run]
  | cons u s ih =>
    have hunit : (Node.unit fun v ↦ v == u || isLower v && v - 0x20 == u).run ⟨pos, u :: (s ++ ys), gs⟩ =
        [⟨pos + 1, s ++ ys, gs⟩] := run_unit (by simp)
    rw [List.map_cons, List.cons_append, run_seqAll_of_eq hunit, ih, List.length_cons]
    congr 2
    omega

/-- A greedy run takes all it can when what follows fails after less. -/
theorem flatMap_run_many {f : Cursor → List Cursor} (hxs : ∀ u ∈ xs, p u) (hys : ∀ u ∈ ys.head?, p u = false)
    (hf : ∀ k u us, k < xs.length → p u → f ⟨pos + k, u :: us, gs⟩ = []) :
    ((Node.many p least none).run ⟨pos, xs ++ ys, gs⟩).flatMap f =
      if least ≤ xs.length then f ⟨pos + xs.length, ys, gs⟩ else [] := by
  have htake : (xs ++ ys).takeWhile p = xs := by
    rw [List.takeWhile_append_of_pos hxs]
    cases ys with
    | nil => simp
    | cons u ys => simp [hys u rfl]
  have hearly : ∀ k < xs.length, f ((⟨pos, xs ++ ys, gs⟩ : Cursor).advance k) = [] := by
    intro k hk
    have hdrop : (xs ++ ys).drop k = xs[k] :: (xs.drop (k + 1) ++ ys) := by
      rw [List.drop_append_of_le_length (Nat.le_of_lt hk), List.drop_eq_getElem_cons hk, List.cons_append]
    rw [Cursor.advance, hdrop]
    exact hf k _ _ hk (hxs _ (List.getElem_mem hk))
  have hrest : (((List.range xs.length).filter fun k ↦ least ≤ k ∧ ∀ m ∈ (none : Option ℕ), k ≤ m).reverse.map
      (⟨pos, xs ++ ys, gs⟩ : Cursor).advance).flatMap f = [] := by
    rw [List.flatMap_eq_nil_iff]
    intro c hc
    obtain ⟨k, hk, hkc⟩ := List.mem_map.mp hc
    exact hkc ▸ hearly k (List.mem_range.mp (List.mem_filter.mp (List.mem_reverse.mp hk)).1)
  have hall : (⟨pos, xs ++ ys, gs⟩ : Cursor).advance xs.length = ⟨pos + xs.length, ys, gs⟩ := by simp [Cursor.advance]
  rw [Node.run, runs, htake, List.range_succ, List.filter_append, List.reverse_append, List.map_append,
    List.flatMap_append,
    hrest, List.append_nil]
  by_cases hleast : least ≤ xs.length <;> simp [hleast, hall]

theorem run_many_seq (hxs : ∀ u ∈ xs, p u) (hys : ∀ u ∈ ys.head?, p u = false) (hb : Refuses p b) :
    (Node.seq (.many p least none) b).run ⟨pos, xs ++ ys, gs⟩ =
      if least ≤ xs.length then b.run ⟨pos + xs.length, ys, gs⟩ else [] := by
  rw [Node.run]
  exact flatMap_run_many hxs hys fun k u us _ hu ↦ hb _ u us gs hu

/-- So does a captured one. -/
theorem run_group_many_seq (hxs : ∀ u ∈ xs, p u) (hys : ∀ u ∈ ys.head?, p u = false) (hb : Refuses p b) :
    (Node.seq (.group (.many p least none)) b).run ⟨pos, xs ++ ys, gs⟩ =
      if least ≤ xs.length then b.run ⟨pos + xs.length, ys, gs ++ [xs]⟩ else [] := by
  let f (d : Cursor) : List Cursor := b.run { d with groups := d.groups ++ [(xs ++ ys).take (d.pos - pos)] }
  have hf : ∀ k u us, k < xs.length → p u → f ⟨pos + k, u :: us, gs⟩ = [] := fun k u us _ hu ↦ hb _ u us _ hu
  have hrun := @flatMap_run_many p xs ys pos least gs f hxs hys hf
  rw [Node.run, Node.run, List.flatMap_map]
  refine hrun.trans ?_
  simp [f]

theorem exec_start (s : JsString) : (seqAll (.start :: rs)).exec s = ((seqAll rs).run ⟨0, s, []⟩).head? := by
  have hlater : ∀ i, (seqAll (.start :: rs)).run ⟨i + 1, s.drop (i + 1), []⟩ = [] := by
    intro i
    rw [seqAll, Node.run, Node.run, if_neg (Nat.succ_ne_zero i), List.flatMap_nil]
  rw [Node.exec, List.range_succ_eq_map, List.flatMap_cons, List.flatMap_map, List.drop_zero,
    run_seqAll_of_eq run_start]
  have hnil : ((List.range s.length).flatMap fun i ↦ (seqAll (.start :: rs)).run ⟨i.succ, s.drop i.succ, []⟩) = [] :=
    List.flatMap_eq_nil_iff.mpr fun i _ ↦ hlater i
  rw [hnil, List.append_nil]

end Forced

end TakyonDb.Lib.RegExp
