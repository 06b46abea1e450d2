import TakyonDb.Lib.RegExp
import TakyonDb.Relational.Row

namespace TakyonDb.Relational

open Lib
open JsString (lit)

/-- What a condition may compare with. -/
inductive Scalar (ν : Type) where
  | string (s : JsString)
  | number (n : Num ν)
  | bool (b : Bool)
deriving DecidableEq

structure Condition (ν : Type) where
  eq : Option (Scalar ν)
  ne : Option (Scalar ν)
  gt : Option (Scalar ν)
  gte : Option (Scalar ν)
  lt : Option (Scalar ν)
  lte : Option (Scalar ν)
  isIn : Option (List (Scalar ν))
  like : Option (Scalar ν)

inductive Clause (ν : Type) where
  | bare (s : Scalar ν)
  | condition (c : Condition ν)

/-- Column names with their clauses. -/
abbrev Where (ν : Type) := List (JsString × Clause ν)

def percent : UInt16 := JsString.unit '%'

def underscore : UInt16 := JsString.unit '_'

def escape (ch : UInt16) : JsString := if RegExp.isSyntax ch then [JsString.unit '\\', ch] else [ch]

def likeUnit (ch : UInt16) : JsString :=
  if ch = percent then lit ".*" else if ch = underscore then lit "." else escape ch

/-- The source text of the expression, with its anchors. -/
def likeToRegExp (raw : JsString) : JsString := lit "^" ++ raw.flatMap likeUnit ++ lit "$"

section Compile

variable {ν : Type} [JsNumber ν]

def Scalar.toText : Scalar ν → JsString
  | string s => s
  | number n => n.toText
  | bool b => if b then lit "true" else lit "false"

/-- The operand of a comparison whose other side is a number. -/
def Scalar.toNumber : Scalar ν → Num ν
  | string s => JsNumber.ofText s
  | number n => n
  | bool b => if b then .finite 1 else .finite 0

/-- `===` between a cell and a scalar. -/
def strictEq (v : RowValue ν) (s : Scalar ν) : Bool :=
  match v, s with
  | .string a, .string b => a = b
  | .number a, .number b => a.strictEq b
  | .bool a, .bool b => a = b
  | _, _ => false

/-- Membership as `includes` and a set have it: `NaN` is found. -/
def sameValueZero (v : RowValue ν) (s : Scalar ν) : Bool :=
  match v, s with
  | .number .nan, .number .nan => true
  | _, _ => strictEq v s

def ordered (test : Num ν → Num ν → Bool) (t : Scalar ν) (v : RowValue ν) : Bool :=
  match v with
  | .number n => test n t.toNumber
  | _ => false

/-- `a <= b` on numbers. -/
def Num.le (a b : Num ν) : Bool := a.lt b || a.strictEq b

def matchesLike (pattern : Scalar ν) (v : RowValue ν) : Bool :=
  match v with
  | .string s => ((RegExp.compile (likeToRegExp pattern.toText)).map fun re ↦ re.test s).getD false
  | _ => false

/-- The checks of one condition, in their order. -/
def Condition.checks (c : Condition ν) (v : RowValue ν) : Bool :=
  c.eq.all (fun e ↦ strictEq v e) && c.ne.all (fun e ↦ !strictEq v e) &&
    c.gt.all (fun t ↦ ordered (fun a b ↦ b.lt a) t v) && c.gte.all (fun t ↦ ordered (fun a b ↦ b.le a) t v) &&
    c.lt.all (fun t ↦ ordered Num.lt t v) && c.lte.all (fun t ↦ ordered Num.le t v) &&
    c.isIn.all (fun l ↦ l.any (sameValueZero v)) && c.like.all (fun p ↦ matchesLike p v)

def Clause.checks : Clause ν → RowValue ν → Bool
  | bare s, v => strictEq v s
  | condition c, v => c.checks v

def compilePerColumn (w : Where ν) (row : Row ν) : Bool := w.all fun p ↦ p.2.checks (row.get p.1)

def matchesWhere (row : Row ν) (w : Option (Where ν)) : Bool := w.all fun w ↦ compilePerColumn w row

/-- The condition with a `like` and no other operator. -/
def Condition.ofLike (pattern : Scalar ν) : Condition ν := ⟨none, none, none, none, none, none, none, some pattern⟩

end Compile

/-- How a value is split by a pattern. -/
inductive LikeSplit : JsString → JsString → Prop
  | nil : LikeSplit [] []
  | any {pattern value : JsString} (s : JsString) : LikeSplit pattern value → LikeSplit (percent :: pattern)
      (s ++ value)
  | one {pattern value : JsString} (u : UInt16) : LikeSplit pattern value → LikeSplit (underscore :: pattern)
      (u :: value)
  | char {pattern value : JsString} {c : UInt16} :
      c ≠ percent → c ≠ underscore → LikeSplit pattern value → LikeSplit (c :: pattern) (c :: value)

def lineBreaks (s : JsString) : ℕ := s.countP JsString.isLineTerminator

section Like

open RegExp

def likeNode (ch : UInt16) : Node :=
  if ch = percent then .many dot 0 none else if ch = underscore then .unit dot else .unit (· == ch)

def likeToken (ch : UInt16) : List Token :=
  if ch = percent then [.atom dot, .star] else if ch = underscore then [.atom dot] else [.atom (· == ch)]

theorem token_dot : token (JsString.unit '.') = some (.atom dot) := rfl

theorem token_star : token (JsString.unit '*') = some .star := rfl

/-- A unit that is no syntax character stands for itself. -/
theorem token_plain {u : UInt16} (h : isSyntax u = false) :
    token u = some (.atom (· == u)) ∧ u ≠ JsString.unit '\\' := by
  have hne : ∀ c : UInt16, isSyntax c = true → u ≠ c := by
    intro c hc heq
    rw [heq, hc] at h
    exact Bool.noConfusion h
  rw [token, if_neg (hne _ (by decide)), if_neg (hne _ (by decide)), if_neg (hne _ (by decide)),
    if_neg (hne _ (by decide)), if_neg (by simp [h])]
  exact ⟨rfl, hne _ (by decide)⟩

theorem tokens_likeUnit (ch : UInt16) (rest : JsString) :
    tokens (likeUnit ch ++ rest) = (tokens rest).map (likeToken ch ++ ·) := by
  rw [likeUnit, likeToken]
  by_cases hp : ch = percent
  · rw [if_pos hp, if_pos hp]
    have htext : lit ".*" ++ rest = JsString.unit '.' :: JsString.unit '*' :: rest := rfl
    rw [htext, tokens_cons (by decide), tokens_cons (by decide), token_dot, token_star]
    cases tokens rest <;> rfl
  rw [if_neg hp, if_neg hp]
  by_cases hu : ch = underscore
  · rw [if_pos hu, if_pos hu]
    have htext : lit "." ++ rest = JsString.unit '.' :: rest := rfl
    rw [htext, tokens_cons (by decide), token_dot]
    cases tokens rest <;> rfl
  rw [if_neg hu, if_neg hu, escape]
  by_cases hs : isSyntax ch
  · rw [if_pos hs]
    exact tokens_escaped hs rest
  · obtain ⟨htoken, hback⟩ := token_plain (Bool.eq_false_iff.mpr hs)
    rw [if_neg hs, List.singleton_append, tokens_cons hback, htoken]
    cases tokens rest <;> rfl

theorem tokens_like (raw : JsString) (rest : JsString) :
    tokens (raw.flatMap likeUnit ++ rest) = (tokens rest).map (raw.flatMap likeToken ++ ·) := by
  induction raw with
  | nil => simp
  | cons ch raw ih =>
    rw [List.flatMap_cons, List.append_assoc, tokens_likeUnit, ih, Option.map_map]
    congr 1
    funext ts
    simp

theorem terms_atom {p : UInt16 → Bool} {ts : List Token} (h : ∀ t ∈ ts.head?, t ≠ .star) :
    terms (.atom p :: ts) = (terms ts).map (.unit p :: ·) := by
  cases ts with
  | nil => rfl
  | cons t ts =>
    cases t with
    | star => exact absurd rfl (h .star rfl)
    | start => rfl
    | stop => rfl
    | atom q => rfl

theorem head_like_ne_star (raw : JsString) {ts : List Token} (hstar : ∀ t ∈ ts.head?, t ≠ .star) :
    ∀ t ∈ (raw.flatMap likeToken ++ ts).head?, t ≠ .star := by
  cases raw with
  | nil => exact hstar
  | cons ch raw =>
    have hhead : ∃ p rest, likeToken ch = .atom p :: rest := by
      rw [likeToken]
      split_ifs
      · exact ⟨_, _, rfl⟩
      · exact ⟨_, _, rfl⟩
      · exact ⟨_, _, rfl⟩
    obtain ⟨p, rest, hch⟩ := hhead
    simp [hch]

theorem terms_like (raw : JsString) {ts : List Token} {nodes : List Node} (h : terms ts = some nodes)
    (hstar : ∀ t ∈ ts.head?, t ≠ .star) : terms (raw.flatMap likeToken ++ ts) = some (raw.map likeNode ++ nodes) := by
  induction raw with
  | nil => exact h
  | cons ch raw ih =>
    have hrest := head_like_ne_star raw hstar
    rw [List.flatMap_cons, List.append_assoc, likeToken, List.map_cons, likeNode]
    split_ifs
    · rw [List.cons_append, List.cons_append, List.nil_append, terms, ih]
      rfl
    · rw [List.cons_append, List.nil_append, terms_atom hrest, ih]
      rfl
    · rw [List.cons_append, List.nil_append, terms_atom hrest, ih]
      rfl

theorem compile_like (raw : JsString) :
    compile (likeToRegExp raw) = some (seqAll (.start :: (raw.map likeNode ++ [.stop]))) := by
  have hstop : tokens (lit "$") = some [.stop] := rfl
  have htext : likeToRegExp raw = JsString.unit '^' :: (raw.flatMap likeUnit ++ lit "$") := rfl
  have hterms : terms (raw.flatMap likeToken ++ [.stop]) = some (raw.map likeNode ++ [.stop]) :=
    terms_like raw rfl (by simp)
  have hstart : token (JsString.unit '^') = some .start := rfl
  rw [compile, htext, tokens_cons (by decide), tokens_like, hstop, hstart]
  simp [terms, hterms]

theorem LikeSplit.lineBreaks_le {pattern value : JsString} (h : LikeSplit pattern value) :
    lineBreaks pattern ≤ lineBreaks value := by
  have hpercent : JsString.isLineTerminator percent = false := by decide
  have hunderscore : JsString.isLineTerminator underscore = false := by decide
  induction h with
  | nil => exact Nat.le_refl _
  | any s _ ih =>
    rw [lineBreaks, List.countP_cons_of_neg (by simp [hpercent]), lineBreaks, List.countP_append]
    exact ih.trans (Nat.le_add_left _ _)
  | one u _ ih =>
    rw [lineBreaks, List.countP_cons_of_neg (by simp [hunderscore]), lineBreaks, List.countP_cons]
    exact ih.trans (Nat.le_add_right _ _)
  | char _ _ _ ih =>
    rw [lineBreaks, lineBreaks, List.countP_cons, List.countP_cons]
    exact Nat.add_le_add_right ih _

theorem lineBreaks_eq_zero_iff (s : JsString) : lineBreaks s = 0 ↔ ∀ u ∈ s, dot u := by
  rw [lineBreaks, List.countP_eq_zero]
  simp [dot]

theorem lineBreaks_append (s t : JsString) : lineBreaks (s ++ t) = lineBreaks s + lineBreaks t := List.countP_append

theorem lineBreaks_cons_of_dot {u : UInt16} (hu : dot u) (s : JsString) : lineBreaks (u :: s) = lineBreaks s :=
  List.countP_cons_of_neg (by simpa [dot] using hu)

theorem run_percent {raw : JsString} (c : Cursor) :
    (∃ e ∈ (Node.many dot 0 none).run c, LikeSplit raw e.rest ∧ lineBreaks e.rest = lineBreaks raw) ↔
      LikeSplit (percent :: raw) c.rest ∧ lineBreaks c.rest = lineBreaks (percent :: raw) := by
  rw [lineBreaks_cons_of_dot (by decide)]
  simp only [mem_run_many]
  constructor
  · intro h
    obtain ⟨e, ⟨k, hk, -, -, he⟩, hsplit, hbreaks⟩ := h
    rw [he] at hsplit hbreaks
    have hparts : c.rest.take k ++ c.rest.drop k = c.rest := List.take_append_drop k c.rest
    have hnone : lineBreaks (c.rest.take k) = 0 := (lineBreaks_eq_zero_iff _).mpr (take_run hk)
    rw [← hparts]
    refine ⟨.any _ hsplit, ?_⟩
    rw [lineBreaks_append, hnone, Nat.zero_add]
    exact hbreaks
  · intro h
    obtain ⟨hsplit, hbreaks⟩ := h
    generalize hrest : c.rest = rest at hsplit hbreaks
    cases hsplit with
    | @any _ value s hsplit =>
      rw [lineBreaks_append] at hbreaks
      have hle := hsplit.lineBreaks_le
      have hdots := (lineBreaks_eq_zero_iff s).mp (by omega)
      have hadvance : (c.advance s.length).rest = value := by
        rw [Cursor.advance, hrest, List.drop_left]
      refine ⟨_, ⟨s.length, le_takeWhile hdots, Nat.zero_le _, fun m hm ↦ absurd hm (by simp), rfl⟩, ?_⟩
      rw [hadvance]
      exact ⟨hsplit, by omega⟩
    | char hne _ _ => exact absurd rfl hne

theorem run_underscore {raw : JsString} (c : Cursor) :
    (∃ e ∈ (Node.unit dot).run c, LikeSplit raw e.rest ∧ lineBreaks e.rest = lineBreaks raw) ↔
      LikeSplit (underscore :: raw) c.rest ∧ lineBreaks c.rest = lineBreaks (underscore :: raw) := by
  rw [lineBreaks_cons_of_dot (by decide)]
  simp only [mem_run_unit]
  constructor
  · intro h
    obtain ⟨e, ⟨u, us, hrest, hu, he⟩, hsplit, hbreaks⟩ := h
    have hadvance : (c.advance 1).rest = us := by rw [Cursor.advance, hrest]; rfl
    rw [he, hadvance] at hsplit hbreaks
    rw [hrest, lineBreaks_cons_of_dot hu]
    exact ⟨.one u hsplit, hbreaks⟩
  · intro h
    obtain ⟨hsplit, hbreaks⟩ := h
    generalize hrest : c.rest = rest at hsplit hbreaks
    cases hsplit with
    | @one _ us u hsplit =>
      have hle := hsplit.lineBreaks_le
      have happ := lineBreaks_append [u] us
      have hdot := (lineBreaks_eq_zero_iff [u]).mp (by rw [List.singleton_append] at happ; omega)
      have hu : dot u := hdot u (List.mem_singleton_self u)
      have hadvance : (c.advance 1).rest = us := by rw [Cursor.advance, hrest]; rfl
      rw [lineBreaks_cons_of_dot hu] at hbreaks
      refine ⟨_, ⟨u, us, rfl, hu, rfl⟩, ?_⟩
      rw [hadvance]
      exact ⟨hsplit, hbreaks⟩
    | char _ hne _ => exact absurd rfl hne

theorem run_char {raw : JsString} {ch : UInt16} (hp : ch ≠ percent) (hu : ch ≠ underscore) (c : Cursor) :
    (∃ e ∈ (Node.unit (· == ch)).run c, LikeSplit raw e.rest ∧ lineBreaks e.rest = lineBreaks raw) ↔
      LikeSplit (ch :: raw) c.rest ∧ lineBreaks c.rest = lineBreaks (ch :: raw) := by
  have hcons : ∀ s : JsString, lineBreaks (ch :: s) = lineBreaks [ch] + lineBreaks s := fun s ↦ lineBreaks_append [ch] s
  simp only [mem_run_unit]
  constructor
  · intro h
    obtain ⟨e, ⟨u, us, hrest, hu, he⟩, hsplit, hbreaks⟩ := h
    have hadvance : (c.advance 1).rest = us := by rw [Cursor.advance, hrest]; rfl
    have hch : u = ch := by simpa using hu
    rw [he, hadvance] at hsplit hbreaks
    rw [hrest, hch, hcons us, hcons raw, hbreaks]
    exact ⟨.char hp (by assumption) hsplit, rfl⟩
  · intro h
    obtain ⟨hsplit, hbreaks⟩ := h
    generalize hrest : c.rest = rest at hsplit hbreaks
    cases hsplit with
    | any _ _ => exact absurd rfl hp
    | one _ _ => exact absurd rfl hu
    | @char _ us _ _ _ hsplit =>
      have hadvance : (c.advance 1).rest = us := by rw [Cursor.advance, hrest]; rfl
      rw [hcons us, hcons raw] at hbreaks
      refine ⟨_, ⟨ch, us, rfl, by simp, rfl⟩, ?_⟩
      rw [hadvance]
      exact ⟨hsplit, by omega⟩

/-- What the compiled expression matches: a split in which no wildcard takes a line break. -/
theorem run_like (raw : JsString) (c : Cursor) : (∃ d, d ∈ (seqAll (raw.map likeNode ++ [.stop])).run c) ↔
    LikeSplit raw c.rest ∧ lineBreaks c.rest = lineBreaks raw := by
  induction raw generalizing c with
  | nil =>
    simp only [List.map_nil, List.nil_append, seqAll, mem_run_seq, mem_run_stop, mem_run_empty]
    constructor
    · intro h
      obtain ⟨d, e, ⟨hrest, -⟩, -⟩ := h
      rw [hrest]
      exact ⟨.nil, rfl⟩
    · intro h
      obtain ⟨hsplit, -⟩ := h
      cases hrest : c.rest with
      | nil => exact ⟨c, c, ⟨rfl, rfl⟩, rfl⟩
      | cons u us =>
        rw [hrest] at hsplit
        cases hsplit
  | cons ch raw ih =>
    have hsteps : (∃ d, d ∈ (seqAll ((ch :: raw).map likeNode ++ [.stop])).run c) ↔
        ∃ e ∈ (likeNode ch).run c, LikeSplit raw e.rest ∧ lineBreaks e.rest = lineBreaks raw := by
      simp only [List.map_cons, List.cons_append, seqAll, mem_run_seq]
      constructor
      · intro h
        obtain ⟨d, e, he, hd⟩ := h
        exact ⟨e, he, (ih e).mp ⟨d, hd⟩⟩
      · intro h
        obtain ⟨e, he, hrest⟩ := h
        obtain ⟨d, hd⟩ := (ih e).mpr hrest
        exact ⟨d, e, he, hd⟩
    rw [hsteps, likeNode]
    split_ifs with hp hu
    · rw [hp]
      exact run_percent c
    · rw [hu]
      exact run_underscore c
    · exact run_char hp hu c

variable {ν : Type} [JsNumber ν]

theorem matchesLike_iff (pattern value : JsString) :
    matchesLike (.string pattern : Scalar ν) (.string value) = true ↔
      LikeSplit pattern value ∧ lineBreaks value = lineBreaks pattern := by
  rw [matchesLike, Scalar.toText, compile_like, Option.map_some, Option.getD_some, test_iff]
  simp only [seqAll, mem_run_seq, mem_run_start]
  rw [← run_like pattern ⟨0, value, []⟩]
  constructor
  · intro h
    obtain ⟨i, -, d, e, ⟨hpos, he⟩, hd⟩ := h
    have hzero : i = 0 := hpos
    rw [he, hzero] at hd
    exact ⟨d, hd⟩
  · intro h
    obtain ⟨d, hd⟩ := h
    exact ⟨0, Nat.zero_le _, d, ⟨0, value, []⟩, ⟨rfl, rfl⟩, hd⟩

/-- A `like` clause on a string cell. -/
theorem compilePerColumn_like (col : JsString) (pattern : JsString) (row : Row ν) :
    compilePerColumn [(col, .condition (.ofLike (.string pattern)))] row = matchesLike (.string pattern : Scalar ν)
      (row.get col) := by
  simp [compilePerColumn, Clause.checks, Condition.checks, Condition.ofLike]

/-- The predicate compiled for a `like` condition agrees with the splits of the value except where every split
has a wildcard take a line break. -/
theorem like_agrees_iff (col : JsString) (pattern value : JsString) (row : Row ν)
    (hcell : row.get col = .string value) :
    (matchesWhere row (some [(col, .condition (.ofLike (.string pattern)))]) = true ↔ LikeSplit pattern value) ↔
      (LikeSplit pattern value → lineBreaks value = lineBreaks pattern) := by
  rw [matchesWhere, Option.all_some, compilePerColumn_like, hcell, matchesLike_iff]
  tauto

theorem like_agrees_iff_plain :
    ((matchesWhere (.ofList [(lit "name", .string (lit "abc"))]) (some [(lit "name",
        .condition (.ofLike (.string (lit "a_%"))))] : Option (Where ℤ)) = true ↔ LikeSplit (lit "a_%") (lit "abc")) ↔
      (LikeSplit (lit "a_%") (lit "abc") → lineBreaks (lit "abc") = lineBreaks (lit "a_%"))) :=
  @like_agrees_iff ℤ intNumber (lit "name") (lit "a_%") (lit "abc") (.ofList [(lit "name", .string (lit "abc"))]) rfl

/-- A line break between two letters: `%` does not reach over it. -/
theorem not_like_agrees_line_break :
    ¬ (matchesWhere (.ofList [(lit "name", .string (lit "a\nb"))]) (some [(lit "name",
        .condition (.ofLike (.string (lit "a%b"))))] : Option (Where ℤ)) = true ↔ LikeSplit (lit "a%b") (lit "a\nb")) := by
  have hsplit : LikeSplit (lit "a%b") (lit "a\nb") :=
    .char (by decide) (by decide) (.any [10] (.char (by decide) (by decide) .nil))
  have hno : matchesWhere (.ofList [(lit "name", .string (lit "a\nb"))]) (some [(lit "name",
      .condition (.ofLike (.string (lit "a%b"))))] : Option (Where ℤ)) = false := by decide
  intro h
  rw [hno] at h
  exact Bool.noConfusion (h.mpr hsplit)

end Like

end TakyonDb.Relational
