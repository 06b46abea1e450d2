import TakyonDb.Relational.Sql

namespace TakyonDb.Relational

open Lib Lib.RegExp
open JsString (lit unit trim isSpace isWord isDigit isLower isUpper)

section Units

variable {u : UInt16}

theorem isSpace_iff : isSpace u ↔ (9 ≤ u.toNat ∧ u.toNat ≤ 13) ∨ u.toNat = 32 ∨ u.toNat = 160 ∨ u.toNat = 5760 ∨
    (8192 ≤ u.toNat ∧ u.toNat ≤ 8202) ∨ u.toNat = 8232 ∨ u.toNat = 8233 ∨ u.toNat = 8239 ∨ u.toNat = 8287 ∨
    u.toNat = 12288 ∨ u.toNat = 65279 := by
  simp [isSpace, UInt16.le_iff_toNat_le, ← UInt16.toNat_inj]

theorem isWord_iff : isWord u ↔ (48 ≤ u.toNat ∧ u.toNat ≤ 57) ∨ (65 ≤ u.toNat ∧ u.toNat ≤ 90) ∨
    (97 ≤ u.toNat ∧ u.toNat ≤ 122) ∨ u.toNat = 95 := by
  simp [isWord, isDigit, isUpper, isLower, UInt16.le_iff_toNat_le, ← UInt16.toNat_inj, or_assoc]

theorem isLower_iff : isLower u ↔ 97 ≤ u.toNat ∧ u.toNat ≤ 122 := by
  simp [isLower, UInt16.le_iff_toNat_le]

theorem isUpper_iff : isUpper u ↔ 65 ≤ u.toNat ∧ u.toNat ≤ 90 := by
  simp [isUpper, UInt16.le_iff_toNat_le]

theorem isDigit_iff : isDigit u ↔ 48 ≤ u.toNat ∧ u.toNat ≤ 57 := by
  simp [isDigit, UInt16.le_iff_toNat_le]

theorem isSpace_of_isWord (h : isWord u) : isSpace u = false := by
  rw [Bool.eq_false_iff, ne_eq, isSpace_iff]
  rw [isWord_iff] at h
  omega

theorem isWord_of_isSpace (h : isSpace u) : isWord u = false := by
  rw [Bool.eq_false_iff]
  intro hword
  rw [isSpace_of_isWord hword] at h
  cases h

end Units

section Trim

variable {s : JsString}

theorem trimStart_of_head (h : ∀ u ∈ s.head?, isSpace u = false) : JsString.trimStart s = s := by
  cases s with
  | nil => rfl
  | cons u s => simp [JsString.trimStart, h u rfl]

/-- Text that neither starts nor ends with a space stays as it is. -/
theorem trim_of_ends (hhead : ∀ u ∈ s.head?, isSpace u = false)
    (hlast : ∀ u ∈ s.getLast?, isSpace u = false) : trim s = s := by
  rw [trim, trimStart_of_head hhead, trimStart_of_head, List.reverse_reverse]
  rwa [List.head?_reverse]

theorem trim_space_cons {u : UInt16} (h : isSpace u) : trim (u :: s) = trim s := by
  simp [trim, JsString.trimStart, h]

theorem head?_dropWhile_space (s : JsString) : ∀ u ∈ (s.dropWhile isSpace).head?, isSpace u = false := by
  intro u hu
  have h := List.head?_dropWhile_not isSpace s
  cases hs : (s.dropWhile isSpace).head? with
  | none => simp [hs] at hu
  | some v =>
    rw [hs] at h hu
    cases hu
    simpa using h

theorem trim_trim (s : JsString) : trim (trim s) = trim s := by
  refine trim_of_ends ?_ ?_
  · intro u hu
    have hprefix : trim s <+: JsString.trimStart s := by
      have hsuffix := List.dropWhile_suffix isSpace (l := (JsString.trimStart s).reverse)
      simpa [trim, JsString.trimStart] using List.reverse_prefix.mpr hsuffix
    obtain ⟨us, hus⟩ := hprefix
    refine head?_dropWhile_space s u ?_
    have hhead : (JsString.trimStart s).head? = some u := by
      rw [← hus]
      cases ht : trim s with
      | nil =>
        rw [ht] at hu
        cases hu
      | cons v vs =>
        rw [ht] at hu
        exact hu
    exact hhead
  · rw [trim]
    intro u hu
    rw [List.getLast?_reverse] at hu
    exact head?_dropWhile_space _ u hu

end Trim

section Cut

/-- The texts between the commas that stand outside quotes; none where a quote is left open. -/
def cut : JsString → Bool → Option (List JsString)
  | [], inStr => if inStr then none else some [[]]
  | ch :: rest, inStr =>
    if ch = comma ∧ ¬ inStr then (cut rest inStr).map ([] :: ·)
    else (cut rest (if ch = quote then !inStr else inStr)).map fun l ↦ l.modifyHead (ch :: ·)

theorem comma_ne_quote : comma ≠ quote := by decide

theorem cut_quote (rest : JsString) (inStr : Bool) :
    cut (quote :: rest) inStr = (cut rest (!inStr)).map fun l ↦ l.modifyHead (quote :: ·) := by
  rw [cut, if_neg fun h ↦ comma_ne_quote h.1.symm, if_pos rfl]

theorem cut_comma (rest : JsString) : cut (comma :: rest) false = (cut rest false).map ([] :: ·) := by
  rw [cut, if_pos ⟨rfl, by simp⟩]

theorem cut_plain {ch : UInt16} {inStr : Bool} (rest : JsString) (hq : ch ≠ quote) (hc : ¬ (ch = comma ∧ ¬ inStr)) :
    cut (ch :: rest) inStr = (cut rest inStr).map fun l ↦ l.modifyHead (ch :: ·) := by
  rw [cut, if_neg hc, if_neg hq]

theorem splitRest_open (rest cur : JsString) :
    splitRest (quote :: rest) cur false = splitRest rest (cur ++ [quote]) true := by
  cases rest with
  | nil => simp [splitRest]
  | cons next rest => simp [splitRest]

/-- A doubled quote is copied at once, which is the same as leaving the string and entering it again. -/
theorem splitRest_cons (ch : UInt16) (rest cur : JsString) (inStr : Bool) :
    splitRest (ch :: rest) cur inStr =
      if ch = comma ∧ ¬ inStr then (splitRest rest [] inStr).map (trim cur :: ·)
      else splitRest rest (cur ++ [ch]) (if ch = quote then !inStr else inStr) := by
  by_cases hq : ch = quote
  · rw [hq, if_neg fun h ↦ comma_ne_quote h.1.symm, if_pos rfl]
    cases rest with
    | nil => simp [splitRest]
    | cons next rest =>
      rw [splitRest, if_pos rfl]
      split_ifs with hpair
      · rw [hpair.1, hpair.2]
        have hopen := splitRest_open rest (cur ++ [quote])
        rw [Bool.not_true, hopen, List.append_assoc]
        rfl
      · rfl
  · cases rest with
    | nil => simp [splitRest, hq]
    | cons next rest => rw [splitRest, if_neg hq, if_neg hq]

/-- What the splitter makes of a list is its cut, trimmed. -/
theorem splitRest_eq (raw cur : JsString) (inStr : Bool) :
    splitRest raw cur inStr = (cut raw inStr).map fun l ↦ (l.modifyHead (cur ++ ·)).map trim := by
  induction raw generalizing cur inStr with
  | nil => cases inStr <;> simp [splitRest, cut]
  | cons ch rest ih =>
    rw [splitRest_cons, cut]
    split_ifs with hcomma hq
    · rw [ih, Option.map_map, Option.map_map]
      refine congrArg₂ Option.map (funext fun l ↦ ?_) rfl
      cases l <;> simp
    · rw [ih, Option.map_map]
      refine congrArg₂ Option.map (funext fun l ↦ ?_) rfl
      cases l <;> simp
    · rw [ih, Option.map_map]
      refine congrArg₂ Option.map (funext fun l ↦ ?_) rfl
      cases l <;> simp

/-- The items of a list as it is cut. -/
def items (raw : JsString) : Option (List JsString) := (cut raw false).map fun l ↦ l.map trim

theorem splitList_ok {raw : JsString} {parts : List JsString} :
    splitList raw = .ok parts ↔ ∃ l, items raw = some l ∧ parts = l.filter fun p ↦ 0 < p.length := by
  have hhead : ∀ l : List JsString, l.modifyHead ([] ++ ·) = l := fun l ↦ by cases l <;> simp
  rw [splitList, splitRest_eq, items]
  cases cut raw false with
  | none => simp
  | some l =>
    simp only [Option.map_some, hhead]
    simp [eq_comm]

theorem trim_of_mem_items {raw : JsString} {l : List JsString} (h : items raw = some l) {item : JsString}
    (hitem : item ∈ l) :
    trim item = item := by
  obtain ⟨l', _, hl⟩ := Option.map_eq_some_iff.mp h
  obtain ⟨x, _, hx⟩ := List.mem_map.mp (hl ▸ hitem)
  rw [← hx, trim_trim]

end Cut

/-- A decimal number as the grammar writes it. -/
structure Decimal where
  negative : Bool
  whole : JsString
  fraction : Option JsString
  whole_ne_nil : whole ≠ []
  whole_digits : ∀ u ∈ whole, isDigit u
  fraction_ne_nil : ∀ f ∈ fraction, f ≠ []
  fraction_digits : ∀ f ∈ fraction, ∀ u ∈ f, isDigit u

def Decimal.text (d : Decimal) : JsString :=
  (if d.negative then [unit '-'] else []) ++ (d.whole ++ (d.fraction.map (unit '.' :: ·)).getD [])

section Numbers

theorem sign_of_take {t : JsString} {k : ℕ} (hk : k ≤ (t.takeWhile (· == unit '-')).length)
    (hone : ∀ m ∈ some 1, k ≤ m) :
    ∃ b : Bool, t.take k = if b then [unit '-'] else [] := by
  have hall := take_run hk
  have hle : k ≤ 1 := hone 1 rfl
  rcases Nat.le_one_iff_eq_zero_or_eq_one.mp hle with h | h
  · exact ⟨false, by rw [h]; rfl⟩
  · refine ⟨true, ?_⟩
    rw [h] at hall hk ⊢
    cases t with
    | nil => simp at hk
    | cons u t =>
      have hu := hall u (by simp)
      rw [if_pos rfl, List.take_succ_cons, List.take_zero, beq_iff_eq.mp hu]

theorem digits_of_take {t : JsString} {k : ℕ} (hk : k ≤ (t.takeWhile isDigit).length) (hone : 1 ≤ k) :
    t.take k ≠ [] ∧ ∀ u ∈ t.take k, isDigit u := by
  refine ⟨?_, take_run hk⟩
  have hlength := (List.takeWhile_prefix isDigit (l := t)).length_le
  rw [← List.length_pos_iff, List.length_take]
  omega

/-- The number expression accepts exactly the texts of decimals. -/
theorem decimal_test (t : JsString) : decimalRegExp.test t ↔ ∃ d : Decimal, t = d.text := by
  rw [test_iff]
  constructor
  · rintro ⟨i, _, e, he⟩
    simp only [decimalRegExp, opt, seqAll, mem_run_seq, mem_run_start, mem_run_many, mem_run_alt, mem_run_unit,
      mem_run_empty, mem_run_stop] at he
    obtain ⟨c₁, ⟨hi, hc₁⟩, c₂, ⟨k, hk, _, hone, hc₂⟩, c₃, ⟨k', hk', hleast, _, hc₃⟩, c₄, hc₄, _, ⟨hend, _⟩, _⟩ := he
    have hi : i = 0 := hi
    have h₁ : c₁.rest = t := by rw [hc₁, hi, List.drop_zero]
    have h₂ : c₂.rest = t.drop k := by rw [hc₂, Cursor.advance, h₁]
    have h₃ : c₃.rest = (t.drop k).drop k' := by rw [hc₃, Cursor.advance, h₂]
    rw [h₁] at hk
    rw [h₂] at hk'
    obtain ⟨b, hb⟩ := sign_of_take hk hone
    obtain ⟨hwhole, hdigits⟩ := digits_of_take hk' hleast
    have hsplit : t = (if b then [unit '-'] else []) ++ ((t.drop k).take k' ++ c₃.rest) := by
      rw [h₃, List.take_append_drop, ← hb, List.take_append_drop]
    rcases hc₄ with ⟨c, ⟨u, us, hrest, hu, hc⟩, k'', hk'', hleast'', _, hc₄⟩ | hc₄
    · have hafter : c.rest = us := by rw [hc, Cursor.advance, hrest, List.drop_one, List.tail_cons]
      have hlast : us.drop k'' = [] := by rw [← hend, hc₄, Cursor.advance, hafter]
      rw [hafter] at hk''
      obtain ⟨hfraction, hfdigits⟩ := digits_of_take hk'' hleast''
      have hus : us.take k'' = us := by
        have h := List.take_append_drop k'' us
        rwa [hlast, List.append_nil] at h
      rw [hus] at hfraction hfdigits
      have hpoint : u = unit '.' := beq_iff_eq.mp hu
      refine ⟨⟨b, (t.drop k).take k', some us, hwhole, hdigits, ?_, ?_⟩, ?_⟩
      · intro f hf
        cases hf
        exact hfraction
      · intro f hf
        cases hf
        exact hfdigits
      · rw [hrest, hpoint] at hsplit
        exact hsplit
    · have hnil : c₃.rest = [] := by rw [← hend, hc₄]
      rw [hnil] at hsplit
      exact ⟨⟨b, (t.drop k).take k', none, hwhole, hdigits, by simp, by simp⟩, hsplit⟩
  · rintro ⟨d, hd⟩
    have hsign : ∀ u ∈ (if d.negative then [unit '-'] else []), (u == unit '-') = true := by
      cases d.negative <;> simp
    have hone : ∀ m ∈ some 1, (if d.negative then [unit '-'] else []).length ≤ m := by
      intro m hm
      cases hm
      cases d.negative <;> simp
    have hwhole : 1 ≤ d.whole.length := List.length_pos_iff.mpr d.whole_ne_nil
    have hpoint : ∀ pos, ∃ pos', (⟨pos', [], []⟩ : Cursor) ∈ (opt (.seq (.unit (· == unit '.')) (.many isDigit 1 none))).run
        ⟨pos, (d.fraction.map (unit '.' :: ·)).getD [], []⟩ := by
      intro pos
      cases hf : d.fraction with
      | none => exact ⟨pos, mem_run_alt.mpr (Or.inr (mem_run_empty.mpr rfl))⟩
      | some f =>
        have hfraction : 1 ≤ f.length := List.length_pos_iff.mpr (d.fraction_ne_nil f hf)
        have hrun := @mem_run_many_append isDigit 1 none f [] (pos + 1) [] (d.fraction_digits f hf) hfraction (by simp)
        rw [List.append_nil] at hrun
        refine ⟨_, mem_run_alt.mpr (Or.inl (mem_run_seq.mpr ⟨_, mem_run_unit.mpr ⟨_, _, rfl, ?_, rfl⟩, hrun⟩))⟩
        simp
    obtain ⟨pos', hpoint⟩ := hpoint (0 + (if d.negative then [unit '-'] else []).length + d.whole.length)
    refine ⟨0, Nat.zero_le _, ⟨pos', [], []⟩, ?_⟩
    rw [hd, Decimal.text, List.drop_zero, decimalRegExp]
    refine mem_run_seq.mpr ⟨_, mem_run_start.mpr ⟨rfl, rfl⟩, ?_⟩
    refine mem_run_seq.mpr ⟨_, mem_run_many_append hsign (Nat.zero_le _) hone, ?_⟩
    refine mem_run_seq.mpr ⟨_, mem_run_many_append d.whole_digits hwhole (by simp), ?_⟩
    refine mem_run_seq.mpr ⟨_, hpoint, ?_⟩
    exact mem_run_seq.mpr ⟨_, mem_run_stop.mpr ⟨rfl, rfl⟩, mem_run_empty.mpr rfl⟩

end Numbers

section Literals

/-- A string between quotes, with the quotes in it doubled. -/
def doubled (s : JsString) : JsString := s.flatMap fun u ↦ if u = quote then [quote, quote] else [u]

def quoteText (s : JsString) : JsString := quote :: (doubled s ++ [quote])

def asciiUpper (u : UInt16) : UInt16 := if isLower u then u - 0x20 else u

/-- The words for truth values and nothing, in any case. -/
def keywords : List JsString := [lit "NULL", lit "TRUE", lit "FALSE"]

/-- An item that is a literal: a quoted string, a decimal or a keyword. -/
def Reads (item : JsString) : Prop :=
  (∃ s, item = quoteText s) ∨ (∃ d : Decimal, item = d.text) ∨ item.map asciiUpper ∈ keywords

def Quoted (item : JsString) : Prop := 2 ≤ item.length ∧ item.head? = some quote ∧ item.getLast? = some quote

/-- What passes without being one: nothing at all, text that starts and ends with a quote, and `FALSE` with a long s. -/
def Tolerated (item : JsString) : Prop := item = [] ∨ Quoted item ∨ item.map JsString.upperUnit = lit "FALSE"

theorem quoted_quoteText (s : JsString) : Quoted (quoteText s) := by
  refine ⟨by simp [quoteText], rfl, ?_⟩
  rw [quoteText, List.getLast?_cons, List.getLast?_append]
  rfl

theorem upperUnit_of_asciiUpper {u c : UInt16} (hc : isUpper c) (h : asciiUpper u = c) : JsString.upperUnit u = c := by
  rw [asciiUpper] at h
  rw [JsString.upperUnit]
  split_ifs at h ⊢ with hlower hdotless hlong
  · exact h
  · rw [← h, hdotless] at hc
    exact absurd hc (by decide)
  · rw [← h, hlong] at hc
    exact absurd hc (by decide)
  · exact h

theorem asciiUpper_of_upperUnit {u c : UInt16} (hi : c ≠ unit 'I') (hs : c ≠ unit 'S') (h : JsString.upperUnit u = c) :
    asciiUpper u = c := by
  rw [JsString.upperUnit] at h
  rw [asciiUpper]
  split_ifs at h ⊢ with hlower hdotless hlong
  · exact h
  · exact absurd h.symm hi
  · exact absurd h.symm hs
  · exact h

theorem map_eq_of_forall {f g : UInt16 → UInt16} {w l : JsString} (h : ∀ c ∈ w, ∀ u, f u = c → g u = c)
    (hl : l.map f = w) :
    l.map g = w := by
  rw [← hl]
  refine List.map_congr_left fun u hu ↦ ?_
  exact h (f u) (hl ▸ List.mem_map_of_mem hu) u rfl

/-- The keywords as the parser reads them. -/
theorem keyword_iff (item : JsString) : item.map JsString.upperUnit ∈ keywords ↔
    item.map asciiUpper ∈ keywords ∨ item.map JsString.upperUnit = lit "FALSE" := by
  have hupper : ∀ w ∈ keywords, ∀ c ∈ w, isUpper c := by
    have hall : (keywords.all fun w ↦ w.all isUpper) = true := by decide
    simpa only [List.all_eq_true] using hall
  have hplain : ∀ w ∈ [lit "NULL", lit "TRUE"], ∀ c ∈ w, c ≠ unit 'I' ∧ c ≠ unit 'S' := by
    have hall : ([lit "NULL", lit "TRUE"].all fun w ↦ w.all fun c ↦ c ≠ unit 'I' ∧ c ≠ unit 'S') = true := by decide
    simpa only [List.all_eq_true, decide_eq_true_eq] using hall
  constructor
  · intro h
    by_cases hfalse : item.map JsString.upperUnit = lit "FALSE"
    · exact Or.inr hfalse
    · left
      have hw : item.map JsString.upperUnit ∈ [lit "NULL", lit "TRUE"] := by
        simp only [keywords, List.mem_cons, List.not_mem_nil, or_false] at h ⊢
        exact h.imp_right fun h ↦ h.resolve_right hfalse
      have hsame := map_eq_of_forall (g := asciiUpper)
        (fun c hc u hu ↦ asciiUpper_of_upperUnit (hplain _ hw c hc).1 (hplain _ hw c hc).2 hu) rfl
      rw [hsame]
      exact h
  · intro h
    rcases h with h | h
    · have hsame := map_eq_of_forall (g := JsString.upperUnit)
        (fun c hc u hu ↦ upperUnit_of_asciiUpper (hupper _ h c hc) hu) rfl
      rw [hsame]
      exact h
    · rw [h]
      simp [keywords]

end Literals

section Parse

variable {ν : Type} [JsNumber ν]

theorem parseLiteral_accepts {item : JsString} (h : trim item = item) : (∃ v : SqlValue ν, parseLiteral item = .ok v) ↔
    Quoted item ∨ item.map JsString.upperUnit ∈ keywords ∨ decimalRegExp.test item := by
  have hquoted : (2 ≤ item.length ∧ item.head? = some quote ∧ item.getLast? = some quote) ↔ Quoted item := Iff.rfl
  simp only [parseLiteral, h, hquoted, keywords, List.mem_cons, List.not_mem_nil, or_false]
  split_ifs <;> simp_all

/-- The parser takes an item exactly when it is a literal or tolerated. -/
theorem parseLiteral_iff {item : JsString} (h : trim item = item) (hne : item ≠ []) :
    (∃ v : SqlValue ν, parseLiteral item = .ok v) ↔ Reads item ∨ Tolerated item := by
  rw [parseLiteral_accepts h, keyword_iff, decimal_test, Reads, Tolerated]
  constructor
  · tauto
  · rintro ((⟨s, hs⟩ | hread) | htolerated)
    · exact Or.inl (hs ▸ quoted_quoteText s)
    · tauto
    · tauto

end Parse

/-- A literal as it is meant. -/
inductive Literal where
  | string (s : JsString)
  | decimal (d : Decimal)
  | bool (b : Bool)
  | null

def Literal.text : Literal → JsString
  | string s => quoteText s
  | decimal d => d.text
  | bool true => lit "TRUE"
  | bool false => lit "FALSE"
  | null => lit "NULL"

def Literal.value {ν : Type} [JsNumber ν] : Literal → SqlValue ν
  | string s => .string s
  | decimal d => .number (JsNumber.ofText d.text)
  | bool b => .bool b
  | null => .null

section Render

theorem undouble_doubled (s : JsString) : undouble (doubled s) = s := by
  induction s with
  | nil => rfl
  | cons u s ih =>
    rw [doubled, List.flatMap_cons]
    split_ifs with hq
    · rw [List.cons_append, List.singleton_append, undouble, if_pos ⟨rfl, rfl⟩, hq]
      exact congrArg _ ih
    · rw [List.singleton_append]
      change undouble (u :: doubled s) = _
      cases hs : doubled s with
      | nil =>
        rw [hs] at ih
        rw [undouble, ← ih]
        rfl
      | cons v vs =>
        rw [undouble, if_neg fun h ↦ hq h.1, ← hs, ih]

theorem mem_decimal_text (d : Decimal) : ∀ u ∈ d.text, u = unit '-' ∨ u = unit '.' ∨ isDigit u := by
  intro u hu
  rw [Decimal.text, List.mem_append, List.mem_append] at hu
  rcases hu with hu | hu | hu
  · cases hn : d.negative <;> simp_all
  · exact Or.inr (Or.inr (d.whole_digits u hu))
  · cases hf : d.fraction with
    | none => simp [hf] at hu
    | some f =>
      rw [hf] at hu
      rcases List.mem_cons.mp hu with h | h
      · exact Or.inr (Or.inl h)
      · exact Or.inr (Or.inr (d.fraction_digits f hf u h))

theorem decimal_unit {u : UInt16} (h : u = unit '-' ∨ u = unit '.' ∨ isDigit u) :
    u ≠ quote ∧ u ≠ comma ∧ isSpace u = false ∧ JsString.upperUnit u = u ∧ isUpper u = false := by
  have hrange : 45 ≤ u.toNat ∧ u.toNat ≤ 57 := by
    rcases h with h | h | h
    · rw [h]
      decide
    · rw [h]
      decide
    · rw [isDigit_iff] at h
      omega
  have hspace : isSpace u = false := by
    rw [Bool.eq_false_iff, ne_eq, isSpace_iff]
    omega
  have hlower : isLower u = false := by
    rw [Bool.eq_false_iff, ne_eq, isLower_iff]
    omega
  have hupper : isUpper u = false := by
    rw [Bool.eq_false_iff, ne_eq, isUpper_iff]
    omega
  have hne : ∀ v : UInt16, v.toNat < 45 ∨ 57 < v.toNat → u ≠ v := by
    intro v hv heq
    rw [heq] at hrange
    omega
  refine ⟨hne _ (by decide), hne _ (by decide), hspace, ?_, hupper⟩
  rw [JsString.upperUnit, if_neg (by simp [hlower]), if_neg (hne _ (by decide)), if_neg (hne _ (by decide))]

theorem decimal_text_ne_nil (d : Decimal) : d.text ≠ [] := by
  intro h
  have hwhole := (List.append_eq_nil_iff.mp (List.append_eq_nil_iff.mp h).2).1
  exact d.whole_ne_nil hwhole

/-- Reading a literal back. -/
theorem trim_text (l : Literal) : trim l.text = l.text := by
  cases l with
  | string s =>
    refine trim_of_ends ?_ ?_
    · intro u hu
      cases hu
      decide
    · intro u hu
      have hlast := (quoted_quoteText s).2.2
      rw [Literal.text, hlast] at hu
      cases hu
      decide
  | decimal d =>
    refine trim_of_ends ?_ ?_
    · exact fun u hu ↦ (decimal_unit (mem_decimal_text d u (List.mem_of_mem_head? hu))).2.2.1
    · exact fun u hu ↦ (decimal_unit (mem_decimal_text d u (List.mem_of_mem_getLast? hu))).2.2.1
  | bool b => cases b <;> decide
  | null => decide

theorem text_ne_nil (l : Literal) : l.text ≠ [] := by
  cases l with
  | string s => exact List.cons_ne_nil _ _
  | decimal d => exact decimal_text_ne_nil d
  | bool b => cases b <;> decide
  | null => decide

theorem parseLiteral_text {ν : Type} [JsNumber ν] (l : Literal) : parseLiteral l.text = .ok (l.value : SqlValue ν) := by
  have htrim := trim_text l
  cases l with
  | string s =>
    have hquoted := quoted_quoteText s
    rw [Quoted] at hquoted
    rw [Literal.text] at htrim ⊢
    simp only [parseLiteral, htrim]
    rw [if_pos hquoted, quoteText, List.tail_cons, List.dropLast_concat, undouble_doubled]
    rfl
  | decimal d =>
    have hmem := mem_decimal_text d
    rw [Literal.text] at htrim ⊢
    have hquoted : ¬ Quoted d.text := fun h ↦ (decimal_unit (hmem quote (List.mem_of_mem_head? h.2.1))).1 rfl
    rw [Quoted] at hquoted
    have hsame : d.text.map JsString.upperUnit = d.text := by
      refine (List.map_congr_left fun u hu ↦ ?_).trans (List.map_id d.text)
      exact (decimal_unit (hmem u hu)).2.2.2.1
    have hword : ∀ w, (∃ c ∈ w, isUpper c) → d.text.map JsString.upperUnit ≠ w := by
      intro w ⟨c, hc, hupper⟩ heq
      rw [hsame] at heq
      rw [(decimal_unit (hmem c (heq ▸ hc))).2.2.2.2] at hupper
      cases hupper
    have htest := (decimal_test d.text).mpr ⟨d, rfl⟩
    simp only [parseLiteral, htrim]
    rw [if_neg hquoted, if_neg (hword _ (by decide)), if_neg (hword _ (by decide)), if_neg (hword _ (by decide)),
      if_pos htest]
    rfl
  | bool b => cases b <;> rfl
  | null => rfl

/-- Text that the cut passes as a whole. -/
def Whole (r : JsString) : Prop := ∀ ys, cut (r ++ ys) false = (cut ys false).map fun l ↦ l.modifyHead (r ++ ·)

theorem map_modifyHead_cons {o : Option (List JsString)} {u : UInt16} {xs : JsString} :
    (o.map fun l ↦ l.modifyHead (xs ++ ·)).map (fun l ↦ l.modifyHead (u :: ·)) =
      o.map fun l ↦ l.modifyHead (u :: xs ++ ·) := by
  rw [Option.map_map]
  refine congrArg₂ Option.map (funext fun l ↦ ?_) rfl
  cases l <;> simp

theorem plain_of_all {r : JsString} (h : (r.all fun u ↦ u ≠ quote ∧ u ≠ comma) = true) : ∀ u ∈ r,
    u ≠ quote ∧ u ≠ comma := by
  simpa only [List.all_eq_true, decide_eq_true_eq] using h

theorem whole_plain {r : JsString} (hr : ∀ u ∈ r, u ≠ quote ∧ u ≠ comma) : Whole r := by
  intro ys
  induction r with
  | nil =>
    have hid : (fun l : List JsString ↦ l.modifyHead ([] ++ ·)) = id := by
      funext l
      cases l <;> simp
    rw [hid, Option.map_id]
    rfl
  | cons u r ih =>
    obtain ⟨hq, hc⟩ := hr u List.mem_cons_self
    rw [List.cons_append, cut_plain _ hq fun h ↦ hc h.1, ih fun v hv ↦ hr v (List.mem_cons_of_mem u hv),
      map_modifyHead_cons]

/-- Inside a string the doubled text stays together. -/
theorem cut_doubled (s ys : JsString) :
    cut (doubled s ++ ys) true = (cut ys true).map fun l ↦ l.modifyHead (doubled s ++ ·) := by
  induction s with
  | nil =>
    have hid : (fun l : List JsString ↦ l.modifyHead (doubled [] ++ ·)) = id := by
      funext l
      cases l <;> simp [doubled]
    rw [hid, Option.map_id]
    rfl
  | cons u s ih =>
    have hcons : doubled (u :: s) = (if u = quote then [quote, quote] else [u]) ++ doubled s := by
      rw [doubled, List.flatMap_cons]
      rfl
    rw [hcons]
    split_ifs with hq
    · simp only [List.cons_append, List.nil_append]
      rw [cut_quote, cut_quote, Bool.not_true, Bool.not_false, ih, map_modifyHead_cons, map_modifyHead_cons]
      rfl
    · simp only [List.cons_append, List.nil_append]
      rw [cut_plain _ hq fun h ↦ h.2 rfl, ih, map_modifyHead_cons]
      rfl

theorem whole_text (l : Literal) : Whole l.text := by
  cases l with
  | string s =>
    intro ys
    have htext : (Literal.string s).text ++ ys =
        quote :: (doubled s ++ quote :: ys) := by simp [Literal.text, quoteText]
    rw [htext, cut_quote, Bool.not_false, cut_doubled, cut_quote, Bool.not_true, Option.map_map, Option.map_map]
    refine congrArg₂ Option.map (funext fun l ↦ ?_) rfl
    cases l <;> simp [Literal.text, quoteText]
  | decimal d =>
    refine whole_plain fun u hu ↦ ?_
    obtain ⟨hq, hc, _⟩ := decimal_unit (mem_decimal_text d u hu)
    exact ⟨hq, hc⟩
  | bool b => cases b <;> exact whole_plain (plain_of_all (by decide))
  | null => exact whole_plain (plain_of_all (by decide))

/-- The items with a comma and a space between them. -/
def commaList : List JsString → JsString
  | [] => []
  | [x] => x
  | x :: y :: xs => x ++ comma :: (lit " " ++ commaList (y :: xs))

/-- A list of whole items is cut into these items. -/
theorem items_commaList {xs : List JsString} (hne : xs ≠ []) (hxs : ∀ x ∈ xs, Whole x ∧ trim x = x) :
    items (commaList xs) = some xs := by
  have hnil : ∀ x : JsString, Whole x → cut x false = some [x] := by
    intro x hx
    have h := hx []
    rw [List.append_nil] at h
    rw [h]
    simp [cut]
  induction xs with
  | nil => exact absurd rfl hne
  | cons x xs ih =>
    obtain ⟨hx, htrim⟩ := hxs x List.mem_cons_self
    cases xs with
    | nil => rw [commaList, items, hnil x hx, Option.map_some, List.map_singleton, htrim]
    | cons y xs =>
      have hrest := ih (List.cons_ne_nil y xs) fun z hz ↦ hxs z (List.mem_cons_of_mem x hz)
      obtain ⟨l, hl, hitems⟩ := Option.map_eq_some_iff.mp hrest
      have hspace : cut (lit " " ++ commaList (y :: xs)) false = some (l.modifyHead (unit ' ' :: ·)) := by
        have hplain : lit " " ++ commaList (y :: xs) = unit ' ' :: commaList (y :: xs) := rfl
        rw [hplain, cut_plain _ (by decide) (by decide), hl, Option.map_some]
      have htrims : (l.modifyHead (unit ' ' :: ·)).map trim = y :: xs := by
        rw [← hitems]
        cases l with
        | nil => rfl
        | cons z zs => rw [List.modifyHead_cons, List.map_cons, List.map_cons, trim_space_cons (by decide)]
      rw [commaList, items, hx, cut_comma, hspace]
      simp [htrims, htrim]

end Render

end TakyonDb.Relational
