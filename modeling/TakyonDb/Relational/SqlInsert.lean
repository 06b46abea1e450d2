import TakyonDb.Relational.SqlLiteral

namespace TakyonDb.Relational

open Lib Lib.RegExp
open JsString (lit unit trim isSpace isWord isDigit isLower isUpper)

section Captures

variable {table columnsText raw : JsString}

/-- The statement, with its table, its column list and its value list. -/
def insertText (table columnsText raw : JsString) : JsString :=
  lit "INSERT" ++ (lit " " ++ (lit "INTO" ++ (lit " " ++ (table ++ (lit " " ++ unit '(' :: (columnsText ++ unit ')' ::
    (lit " " ++ (lit "VALUES" ++ (lit " " ++ unit '(' :: (raw ++ [unit ')']))))))))))

theorem refuses_word {p : UInt16 → Bool} (w : String) {u : UInt16} {us : JsString} (hw : lit w = u :: us)
    (h : ∀ v, p v → (v == u || isLower v && v - 0x20 == u) = false) : Refuses p (word w) := by
  rw [word, hw, List.map_cons, seqAll]
  exact (refuses_unit h).seq

theorem isLower_of_isSpace {v : UInt16} (h : isSpace v) : isLower v = false := by
  have hword := isWord_of_isSpace h
  simp only [isWord, Bool.or_eq_false_iff] at hword
  exact hword.1.2

theorem space_refuses_word (w : String) {u : UInt16} {us : JsString} (hw : lit w = u :: us) (hu : isWord u) :
    Refuses isSpace (word w) := by
  refine refuses_word w hw fun v hv ↦ ?_
  have hne : v ≠ u := by
    intro heq
    rw [heq, isSpace_of_isWord hu] at hv
    cases hv
  simp [hne, isLower_of_isSpace hv]

/-- An opening bracket is neither a space nor part of a word. -/
theorem refuses_bracketed {p : UInt16 → Bool} (hp : p (unit '(') = false) : Refuses p bracketed := by
  refine (refuses_unit fun v hv ↦ ?_).seq
  have hne : v ≠ unit '(' := by
    intro heq
    rw [heq, hp] at hv
    cases hv
  simpa using hne

theorem isSpace_space : ∀ u ∈ lit " ", isSpace u := by
  have hall : (lit " ").all isSpace = true := by decide
  simpa only [List.all_eq_true] using hall

theorem run_spaces {a : Node} {pos : ℕ} {ys : JsString} {gs : List JsString} (hys : ∀ u ∈ ys.head?, isSpace u = false)
    (ha : Refuses isSpace a) : (Node.seq spaces a).run ⟨pos, lit " " ++ ys, gs⟩ = a.run ⟨pos + 1, ys, gs⟩ := by
  rw [spaces, run_many_seq isSpace_space hys ha]
  rfl

theorem run_maybeSpaces {a : Node} {pos : ℕ} {ys : JsString} {gs : List JsString}
    (hys : ∀ u ∈ ys.head?, isSpace u = false)
    (ha : Refuses isSpace a) : (Node.seq maybeSpaces a).run ⟨pos, lit " " ++ ys, gs⟩ = a.run ⟨pos + 1, ys, gs⟩ := by
  rw [maybeSpaces, run_many_seq isSpace_space hys ha]
  rfl

theorem run_bracketed {pos : ℕ} {xs ys : JsString} {gs : List JsString} (hxs : unit ')' ∉ xs) :
    bracketed.run ⟨pos, unit '(' :: (xs ++ unit ')' :: ys), gs⟩ =
      if 1 ≤ xs.length then [⟨pos + 1 + xs.length + 1, ys, gs ++ [xs]⟩] else [] := by
  have hopen : (Node.unit (· == unit '(')).run ⟨pos, unit '(' :: (xs ++ unit ')' :: ys), gs⟩ =
      [⟨pos + 1, xs ++ unit ')' :: ys, gs⟩] := run_unit (by simp)
  have hall : ∀ u ∈ xs, (u != unit ')') = true := by
    intro u hu
    simpa using fun heq : u = unit ')' ↦ hxs (heq ▸ hu)
  have hrefuses : Refuses (· != unit ')') (seqAll [.unit (· == unit ')')]) := by
    refine (refuses_unit fun v hv ↦ ?_).seq
    simpa using hv
  rw [bracketed, run_seqAll_of_eq hopen, seqAll, run_group_many_seq hall (by intro u hu; cases hu; decide) hrefuses]
  by_cases hlen : 1 ≤ xs.length
  · rw [if_pos hlen, if_pos hlen]
    have hclose : (Node.unit (· == unit ')')).run ⟨pos + 1 + xs.length, unit ')' :: ys, gs ++ [xs]⟩ =
        [⟨pos + 1 + xs.length + 1, ys, gs ++ [xs]⟩] := run_unit (by simp)
    rw [run_seqAll_of_eq hclose]
    rfl
  · rw [if_neg hlen, if_neg hlen]

theorem run_seqAll_bracketed {pos : ℕ} {xs ys : JsString} {gs : List JsString} {rs : List Node} (hxs : unit ')' ∉ xs) :
    (seqAll (bracketed :: rs)).run ⟨pos, unit '(' :: (xs ++ unit ')' :: ys), gs⟩ =
      if xs ≠ [] then (seqAll rs).run ⟨pos + 1 + xs.length + 1, ys, gs ++ [xs]⟩ else [] := by
  have hrun := @run_bracketed pos xs ys gs hxs
  by_cases hnil : xs = []
  · rw [hnil] at hrun ⊢
    rw [seqAll, Node.run, hrun]
    simp
  · have hlength : 1 ≤ xs.length := List.length_pos_iff.mpr hnil
    rw [if_pos hlength] at hrun
    rw [if_pos hnil, run_seqAll_of_eq hrun]

theorem run_ending_nil {pos : ℕ} {gs : List JsString} : ending.run ⟨pos, [], gs⟩ = [⟨pos, [], gs⟩] := by
  simp [ending, seqAll, maybeSpaces, Node.run, runs, Cursor.advance]

/-- Nothing but spaces and a semicolon may stand behind the value list. -/
theorem run_ending_bracket {pos : ℕ} {gs : List JsString} (s : JsString) : ending.run ⟨pos, s ++ [unit ')'], gs⟩ =
    [] := by
  rw [List.eq_nil_iff_forall_not_mem]
  intro d hd
  simp only [ending, seqAll, maybeSpaces, mem_run_seq, mem_run_many, mem_run_stop, mem_run_empty] at hd
  obtain ⟨c, ⟨k, hk, _, _, hc⟩, c', ⟨k', hk', _, _, hc'⟩, c'', ⟨hend, _⟩, _⟩ := hd
  have hspaces := take_run hk
  have hsemi := take_run hk'
  rw [hc'] at hend
  rw [hc] at hsemi hend
  simp only [Cursor.advance] at hsemi hend hspaces
  have hsplit : s ++ [unit ')'] = (s ++ [unit ')']).take k ++ (((s ++ [unit ')']).drop k).take k' ++
      ((s ++ [unit ')']).drop k).drop k') := by rw [List.take_append_drop, List.take_append_drop]
  rw [hend, List.append_nil] at hsplit
  have hmem : unit ')' ∈ (s ++ [unit ')']).take k ++ ((s ++ [unit ')']).drop k).take k' := hsplit ▸ by simp
  rcases List.mem_append.mp hmem with h | h
  · exact absurd (hspaces _ h) (by decide)
  · exact absurd (hsemi _ h) (by decide)

/-- A name in a statement: word characters, at least one. -/
structure Word where
  text : JsString
  nonempty : text ≠ []
  isWord : ∀ u ∈ text, JsString.isWord u

theorem trim_insertText : trim (insertText table columnsText raw) = insertText table columnsText raw := by
  refine trim_of_ends ?_ ?_
  · intro u hu
    cases hu
    decide
  · intro u hu
    have hlast : (insertText table columnsText raw).getLast? = some (unit ')') := by
      simp [insertText, List.getLast?_append, List.getLast?_cons]
    rw [hlast] at hu
    cases hu
    decide

/-- The expression finds the three texts of a statement exactly when its value list is not empty and holds no
closing bracket. -/
theorem captures_insertText (table : Word) (hcolumns : columnsText ≠ []) (hclose : unit ')' ∉ columnsText) :
    insertRegExp.captures (trim (insertText table.text columnsText raw)) =
      if raw ≠ [] ∧ unit ')' ∉ raw then some [table.text, columnsText, raw] else none := by
  have hbracketed : ∀ rs, Refuses isSpace (seqAll (bracketed :: rs)) := fun rs ↦ (refuses_bracketed (by decide)).seq
  have hname : ∀ rs, Refuses isSpace (seqAll (name :: rs)) := fun rs ↦
    (refuses_many (fun _ hu ↦ isWord_of_isSpace hu) Nat.one_pos).group.seq
  have hword : ∀ w u us rs, lit w = u :: us → isWord u → Refuses isSpace (seqAll (word w :: rs)) :=
    fun w u us rs hw hu ↦ (space_refuses_word w hw hu).seq
  have hmaybe : ∀ rs, Refuses isWord (seqAll (maybeSpaces :: bracketed :: rs)) := fun rs ↦
    Refuses.many_seq (fun _ hu ↦ isSpace_of_isWord hu) (refuses_bracketed (by decide)).seq
  have htable : ∀ u ∈ (table.text ++ (lit " " ++ unit '(' :: (columnsText ++ unit ')' :: (lit " " ++ (lit "VALUES" ++
      (lit " " ++ unit '(' :: (raw ++ [unit ')']))))))).head?, isSpace u = false := by
    intro u hu
    obtain ⟨v, vs, hv⟩ := List.exists_cons_of_ne_nil table.nonempty
    rw [hv] at hu
    cases hu
    exact isSpace_of_isWord (table.isWord u (hv ▸ List.mem_cons_self))
  have hspace : ∀ ys, ∀ u ∈ (lit " " ++ ys).head?, isWord u = false := by
    intro ys u hu
    cases hu
    decide
  have hcolumnsLength : 1 ≤ columnsText.length := List.length_pos_iff.mpr hcolumns
  have htableLength : 1 ≤ table.text.length := List.length_pos_iff.mpr table.nonempty
  have hopen : ∀ ys : JsString, ∀ u ∈ (unit '(' :: ys).head?, isSpace u = false := by
    intro ys u hu
    cases hu
    decide
  have hI : ∀ ys, ∀ u ∈ (lit "INTO" ++ ys).head?, isSpace u = false := by
    intro ys u hu
    cases hu
    decide
  have hV : ∀ ys, ∀ u ∈ (lit "VALUES" ++ ys).head?, isSpace u = false := by
    intro ys u hu
    cases hu
    decide
  rw [trim_insertText, Node.captures, insertRegExp, exec_start, insertText, run_seqAll_of_eq (run_word "INSERT"),
    seqAll_cons, run_spaces (hI _) (hword "INTO" _ _ _ rfl (by decide)), run_seqAll_of_eq (run_word "INTO"), seqAll_cons,
    run_spaces htable (hname _), seqAll_cons, name, run_group_many_seq table.isWord (hspace _) (hmaybe _),
    if_pos htableLength, seqAll_cons, run_maybeSpaces (hopen _) (hbracketed _), run_seqAll_bracketed hclose,
    if_pos hcolumns, seqAll_cons, run_spaces (hV _) (hword "VALUES" _ _ _ rfl (by decide)),
    run_seqAll_of_eq (run_word "VALUES"), seqAll_cons, run_maybeSpaces (hopen _) (hbracketed _)]
  by_cases hraw : unit ')' ∈ raw
  · -- the list ends at its first closing bracket, and more than an ending follows
    obtain ⟨front, back, hsplit, hfront⟩ := List.eq_append_cons_of_mem hraw
    have htext : raw ++ [unit ')'] = front ++ unit ')' :: (back ++ [unit ')']) := by rw [hsplit]; simp
    have hno : ¬ (raw ≠ [] ∧ unit ')' ∉ raw) := fun h ↦ h.2 hraw
    rw [htext, run_seqAll_bracketed hfront, if_neg hno]
    by_cases hnil : front = []
    · rw [if_neg (not_not.mpr hnil)]
      rfl
    · rw [if_pos hnil, seqAll_cons, Node.run, run_ending_bracket]
      rfl
  · rw [run_seqAll_bracketed hraw]
    by_cases hnil : raw = []
    · simp [hnil]
    · rw [if_pos hnil, if_pos ⟨hnil, hraw⟩, run_seqAll_of_eq run_ending_nil]
      rfl

end Captures

section Columns

variable {xs : List JsString}

theorem commaList_ne_nil {x : JsString} (hx : x ≠ []) : commaList (x :: xs) ≠ [] := by
  cases xs with
  | nil => exact hx
  | cons y xs => simp [commaList]

theorem mem_commaList {u : UInt16} (hcomma : u ≠ comma) (hspace : u ∉ lit " ") : u ∈ commaList xs ↔ ∃ x ∈ xs, u ∈ x := by
  induction xs with
  | nil => simp [commaList]
  | cons x xs ih =>
    cases xs with
    | nil => simp [commaList]
    | cons y xs =>
      rw [commaList, List.mem_append, List.mem_cons, List.mem_append, ih]
      simp [hcomma, hspace]

theorem filter_of_ne_nil (h : ∀ x ∈ xs, x ≠ []) : (xs.filter fun p ↦ 0 < p.length) = xs := by
  refine List.filter_eq_self.mpr fun x hx ↦ ?_
  simpa [List.length_pos_iff] using h x hx

theorem word_plain {u : UInt16} (h : isWord u) : u ≠ quote ∧ u ≠ comma ∧ u ≠ unit ')' := by
  refine ⟨?_, ?_, ?_⟩
  · intro heq
    rw [heq] at h
    exact absurd h (by decide)
  · intro heq
    rw [heq] at h
    exact absurd h (by decide)
  · intro heq
    rw [heq] at h
    exact absurd h (by decide)

/-- Column names are read back from their list. -/
theorem splitList_words {columns : List Word} (hne : columns ≠ []) :
    splitList (commaList (columns.map Word.text)) = .ok (columns.map Word.text) := by
  have hwhole : ∀ x ∈ columns.map Word.text, Whole x ∧ trim x = x := by
    intro x hx
    obtain ⟨w, _, hw⟩ := List.mem_map.mp hx
    have hspace : ∀ u ∈ w.text, isSpace u = false := fun u hu ↦ isSpace_of_isWord (w.isWord u hu)
    rw [← hw]
    refine ⟨whole_plain fun u hu ↦ ⟨(word_plain (w.isWord u hu)).1, (word_plain (w.isWord u hu)).2.1⟩, ?_⟩
    exact trim_of_ends (fun u hu ↦ hspace u (List.mem_of_mem_head? hu)) fun u hu ↦
      hspace u (List.mem_of_mem_getLast? hu)
  refine splitList_ok.mpr ⟨_, items_commaList (by simpa using hne) hwhole, ?_⟩
  refine (filter_of_ne_nil fun x hx ↦ ?_).symm
  obtain ⟨w, _, hw⟩ := List.mem_map.mp hx
  exact hw ▸ w.nonempty

end Columns

section Statement

variable {ν : Type} [JsNumber ν] {table : Word} {columns : List Word} {raw : JsString} {plan : ParsedInsert ν}

/-- When the parser accepts a statement, and what it makes of it. -/
theorem parseInsert_ok (hne : columns ≠ []) :
    parseInsert (insertText table.text (commaList (columns.map Word.text)) raw) = .ok plan ↔
      raw ≠ [] ∧ unit ')' ∉ raw ∧ ∃ l, items raw = some l ∧ ∃ values : List (SqlValue ν),
        (l.filter fun p ↦ 0 < p.length).mapM parseLiteral = .ok values ∧ columns.length = values.length ∧
          plan = ⟨table.text, columns.map Word.text, values⟩ := by
  have hcolumns : commaList (columns.map Word.text) ≠ [] := by
    obtain ⟨w, ws, hw⟩ := List.exists_cons_of_ne_nil hne
    rw [hw, List.map_cons]
    exact commaList_ne_nil w.nonempty
  have hclose : unit ')' ∉ commaList (columns.map Word.text) := by
    rw [mem_commaList (by decide) (by decide)]
    intro ⟨x, hx, hmem⟩
    obtain ⟨w, _, hw⟩ := List.mem_map.mp hx
    exact (word_plain (w.isWord _ (hw ▸ hmem))).2.2 rfl
  have htrim : (columns.map Word.text).map trim = columns.map Word.text := by
    rw [List.map_map]
    refine List.map_congr_left fun w _ ↦ ?_
    have hspace : ∀ u ∈ w.text, isSpace u = false := fun u hu ↦ isSpace_of_isWord (w.isWord u hu)
    exact trim_of_ends (fun u hu ↦ hspace u (List.mem_of_mem_head? hu)) fun u hu ↦
      hspace u (List.mem_of_mem_getLast? hu)
  have hlength : columns.length ≠ 0 := fun h ↦ hne (List.length_eq_zero_iff.mp h)
  rw [parseInsert, captures_insertText table hcolumns hclose]
  by_cases hraw : raw ≠ [] ∧ unit ')' ∉ raw
  · rw [if_pos hraw]
    simp only [splitList_words hne, bind_eq_ok]
    constructor
    · intro ⟨_, hcols, parts, hparts, values, hvalues, h⟩
      cases hcols
      obtain ⟨l, hl, hparts⟩ := splitList_ok.mp hparts
      split_ifs at h with hcount
      rw [htrim] at h
      rw [List.length_map] at hcount
      refine ⟨hraw.1, hraw.2, l, hl, values, hparts ▸ hvalues, ?_, (Except.ok.inj h).symm⟩
      by_contra hdifferent
      exact hcount (Or.inr hdifferent)
    · intro ⟨_, _, l, hl, values, hvalues, hcount, hplan⟩
      refine ⟨_, rfl, _, splitList_ok.mpr ⟨l, hl, rfl⟩, values, hvalues, ?_⟩
      rw [if_neg, htrim, hplan]
      rw [List.length_map]
      exact fun h ↦ h.elim hlength fun h ↦ h hcount
  · rw [if_neg hraw]
    simp only [reduceCtorEq, false_iff]
    exact fun ⟨hnil, hbracket, _⟩ ↦ hraw ⟨hnil, hbracket⟩

end Statement

/-- An INSERT statement into word-named columns: with as many literals, or with a value list of any text. -/
inductive InsertCase where
  | literals (table : Word) (first : Word × Literal) (rest : List (Word × Literal))
  | list (table : Word) (first : Word) (rest : List Word) (raw : JsString)

/-- Every item of the list is a literal. -/
def AllRead (raw : JsString) : Prop := ∃ l, items raw = some l ∧ ∀ item ∈ l, Reads item

/-- Literals are read back in their order; a list with another item is refused. -/
def InsertCase.Holds (ν : Type) [JsNumber ν] : InsertCase → Prop
  | literals table first rest =>
    parseInsert (insertText table.text (commaList ((first :: rest).map fun p ↦ p.1.text))
      (commaList ((first :: rest).map fun p ↦ p.2.text))) =
        .ok (⟨table.text, (first :: rest).map fun p ↦ p.1.text, (first :: rest).map fun p ↦ p.2.value⟩ : ParsedInsert ν)
  | list table first rest raw => ¬ AllRead raw →
    ∃ e, (parseInsert (insertText table.text (commaList ((first :: rest).map Word.text)) raw) :
      Except RelError (ParsedInsert ν)) = .error e

/-- A list that passes with an item that is no literal: it holds no closing bracket, each such item is tolerated, and
those that are not empty are as many as the columns. -/
def SlipsThrough (raw : JsString) (columns : ℕ) : Prop :=
  unit ')' ∉ raw ∧ ∃ l, items raw = some l ∧ (∀ item ∈ l, Reads item ∨ Tolerated item) ∧ (∃ item ∈ l, ¬ Reads item) ∧
    (l.filter fun p ↦ 0 < p.length).length = columns

/-- No string holds a closing bracket; nothing slips through. -/
def InsertCase.Fine : InsertCase → Prop
  | literals _ first rest => ∀ p ∈ first :: rest, ∀ s, p.2 = .string s → unit ')' ∉ s
  | list _ _ rest raw => ¬ SlipsThrough raw (rest.length + 1)

section Cases

variable {ν : Type} [JsNumber ν]

theorem close_mem_text (l : Literal) : unit ')' ∈ l.text ↔ ∃ s, l = .string s ∧ unit ')' ∈ s := by
  cases l with
  | string s =>
    have hdoubled : unit ')' ∈ doubled s ↔ unit ')' ∈ s := by
      rw [doubled, List.mem_flatMap]
      constructor
      · rintro ⟨u, hu, hmem⟩
        split_ifs at hmem
        · exact absurd hmem (by decide)
        · exact List.mem_singleton.mp hmem ▸ hu
      · intro hmem
        exact ⟨_, hmem, by decide⟩
    have hquote : unit ')' ≠ quote := by decide
    simp [Literal.text, quoteText, hdoubled, hquote]
  | decimal d =>
    refine iff_of_false (fun hmem ↦ ?_) (by simp)
    rcases mem_decimal_text d _ hmem with h | h | h
    · exact absurd h (by decide)
    · exact absurd h (by decide)
    · exact absurd h (by decide)
  | bool b =>
    refine iff_of_false ?_ (by simp)
    cases b <;> decide
  | null => exact iff_of_false (by decide) (by simp)

/-- A list of literals is read back exactly when none of its strings closes the bracket. -/
theorem literals_iff (table : Word) (first : Word × Literal) (rest : List (Word × Literal)) :
    (InsertCase.literals table first rest).Holds ν ↔ (InsertCase.literals table first rest).Fine := by
  have hcolumns : ((first :: rest).map fun p ↦ p.1.text) = ((first :: rest).map Prod.fst).map Word.text := by
    rw [List.map_map]
    rfl
  have htexts : ((first :: rest).map fun p ↦ p.2.text) = ((first :: rest).map Prod.snd).map Literal.text := by
    rw [List.map_map]
    rfl
  have hvalues : ((first :: rest).map fun p ↦ (p.2.value : SqlValue ν)) =
      ((first :: rest).map Prod.snd).map Literal.value := by
    rw [List.map_map]
    rfl
  have hitems : items (commaList (((first :: rest).map Prod.snd).map Literal.text)) =
      some (((first :: rest).map Prod.snd).map Literal.text) := by
    refine items_commaList (by simp) fun x hx ↦ ?_
    obtain ⟨l, _, hl⟩ := List.mem_map.mp hx
    exact hl ▸ ⟨whole_text l, trim_text l⟩
  have hfilter : ((((first :: rest).map Prod.snd).map Literal.text).filter fun p ↦ 0 < p.length) =
      ((first :: rest).map Prod.snd).map Literal.text := by
    refine filter_of_ne_nil fun x hx ↦ ?_
    obtain ⟨l, _, hl⟩ := List.mem_map.mp hx
    exact hl ▸ text_ne_nil l
  have hclose : unit ')' ∉ commaList (((first :: rest).map Prod.snd).map Literal.text) ↔
      ∀ p ∈ first :: rest, ∀ s, p.2 = .string s → unit ')' ∉ s := by
    rw [mem_commaList (by decide) (by decide)]
    constructor
    · intro h p hp s hs hmem
      refine h ⟨p.2.text, List.mem_map_of_mem (List.mem_map_of_mem hp), ?_⟩
      exact (close_mem_text p.2).mpr ⟨s, hs, hmem⟩
    · intro h ⟨x, hx, hmem⟩
      obtain ⟨l, hl, hlx⟩ := List.mem_map.mp hx
      obtain ⟨p, hp, hpl⟩ := List.mem_map.mp hl
      obtain ⟨s, hs, hmem⟩ := (close_mem_text l).mp (hlx ▸ hmem)
      exact h p hp s (hpl.trans hs) hmem
  rw [InsertCase.Holds, InsertCase.Fine, hcolumns, htexts, hvalues, parseInsert_ok (by simp), ← hclose]
  constructor
  · exact fun h ↦ h.2.1
  · intro h
    refine ⟨commaList_ne_nil (text_ne_nil first.2), h, _, hitems, _, ?_, ?_, rfl⟩
    · rw [hfilter]
      exact mapM_map_eq_ok parseLiteral_text _
    · simp only [List.length_map]

/-- The parser takes a list when it holds no closing bracket, reads or tolerates every item, and has a column for each
item that is not empty. -/
theorem accepts_iff (table first : Word) (rest : List Word) (raw : JsString) :
    (∃ plan : ParsedInsert ν, parseInsert (insertText table.text (commaList ((first :: rest).map Word.text)) raw) =
      .ok plan) ↔
      unit ')' ∉ raw ∧ ∃ l, items raw = some l ∧ (∀ item ∈ l, Reads item ∨ Tolerated item) ∧
        (l.filter fun p ↦ 0 < p.length).length = rest.length + 1 := by
  simp only [parseInsert_ok (List.cons_ne_nil first rest)]
  have hread : ∀ l, items raw = some l → ((∃ values : List (SqlValue ν),
      (l.filter fun p ↦ 0 < p.length).mapM parseLiteral = .ok values) ↔ ∀ item ∈ l, Reads item ∨ Tolerated item) := by
    intro l hl
    rw [exists_mapM_eq_ok]
    constructor
    · intro h item hitem
      by_cases hnil : item = []
      · exact Or.inr (Or.inl hnil)
      · have hmem : item ∈ l.filter fun p ↦ 0 < p.length :=
          List.mem_filter.mpr ⟨hitem, decide_eq_true (List.length_pos_iff.mpr hnil)⟩
        exact (parseLiteral_iff (trim_of_mem_items hl hitem) hnil).mp (h item hmem)
    · intro h item hitem
      obtain ⟨hmem, hlength⟩ := List.mem_filter.mp hitem
      have hne : item ≠ [] := List.length_pos_iff.mp (of_decide_eq_true hlength)
      exact (parseLiteral_iff (trim_of_mem_items hl hmem) hne).mpr (h item hmem)
  constructor
  · intro ⟨plan, _, hclose, l, hl, values, hvalues, hcount, _⟩
    refine ⟨hclose, l, hl, (hread l hl).mp ⟨values, hvalues⟩, ?_⟩
    rw [← length_of_mapM_eq_ok hvalues, ← hcount, List.length_cons]
  · intro ⟨hclose, l, hl, hitems, hcount⟩
    obtain ⟨values, hvalues⟩ := (hread l hl).mpr hitems
    refine ⟨_, ?_, hclose, l, hl, values, hvalues, ?_, rfl⟩
    · -- the empty text has one item, and that one is empty
      intro hnil
      rw [hnil] at hl
      cases hl
      exact absurd hcount (by simp [trim, JsString.trimStart])
    · rw [length_of_mapM_eq_ok hvalues, hcount, List.length_cons]

/-- A statement whose list has an item that is no literal is refused exactly when nothing slips through. -/
theorem list_iff (table first : Word) (rest : List Word) (raw : JsString) :
    (InsertCase.list table first rest raw).Holds ν ↔ (InsertCase.list table first rest raw).Fine := by
  have haccept := accepts_iff (ν := ν) table first rest raw
  rw [InsertCase.Holds, InsertCase.Fine]
  constructor
  · intro h ⟨hclose, l, hl, hitems, ⟨item, hitem, hread⟩, hcount⟩
    have hsome : ¬ AllRead raw := by
      intro ⟨l', hl', hall⟩
      cases hl.symm.trans hl'
      exact hread (hall item hitem)
    obtain ⟨e, he⟩ := h hsome
    obtain ⟨plan, hplan⟩ := haccept.mpr ⟨hclose, l, hl, hitems, hcount⟩
    rw [he] at hplan
    cases hplan
  · intro h hsome
    cases hparse : (parseInsert (insertText table.text (commaList ((first :: rest).map Word.text)) raw) :
        Except RelError (ParsedInsert ν)) with
    | error e => exact ⟨e, rfl⟩
    | ok plan =>
      obtain ⟨hclose, l, hl, hitems, hcount⟩ := haccept.mp ⟨plan, hparse⟩
      refine absurd ⟨hclose, l, hl, hitems, ?_, hcount⟩ h
      by_contra hall
      push Not at hall
      exact hsome ⟨l, hl, hall⟩

/-- The parser gives back the literals of a statement, and refuses other items, exactly in the fine cases. -/
theorem insert_iff (c : InsertCase) : c.Holds ν ↔ c.Fine := by
  cases c with
  | literals table first rest => exact literals_iff table first rest
  | list table first rest raw => exact list_iff table first rest raw

end Cases

section Bracket

/-- A name of one letter. -/
def letter (c : Char) (h : JsString.isWord (unit c)) : Word where
  text := [unit c]
  nonempty := List.cons_ne_nil _ _
  isWord := by
    intro u hu
    rw [List.mem_singleton.mp hu]
    exact h

/-- `INSERT INTO t (v) VALUES (')')` -/
def bracketCase : InsertCase := .literals (letter 't' (by decide)) (letter 'v' (by decide), .string [unit ')']) []

/-- `INSERT INTO t (v) VALUES ('a' 'b')` -/
def gluedCase : InsertCase := .list (letter 't' (by decide)) (letter 'v' (by decide)) [] (lit "'a' 'b'")

/-- Two strings side by side are no string: the quotes between them are not doubled. -/
theorem glued_not_reads : ¬ Reads (lit "'a' 'b'") := by
  intro h
  rcases h with ⟨s, hs⟩ | ⟨d, hd⟩ | h
  · have hdoubled : doubled s = lit "a' 'b" := by
      have h := congrArg (fun l ↦ l.tail.dropLast) hs
      rw [quoteText, List.tail_cons, List.dropLast_concat] at h
      exact h.symm
    have hsame := undouble_doubled s
    rw [hdoubled] at hsame
    rw [← hsame] at hdoubled
    exact absurd hdoubled (by decide +kernel)
  · have hmem : quote ∈ d.text := by
      rw [← hd]
      decide
    exact (decimal_unit (mem_decimal_text d quote hmem)).1 rfl
  · exact absurd h (by decide)

theorem insert_refuses_bracket : ¬ bracketCase.Holds ℤ ∧ ¬ gluedCase.Holds ℤ := by
  constructor
  · rw [bracketCase, InsertCase.Holds]
    decide +kernel
  · intro h
    have hitems : items (lit "'a' 'b'") = some [lit "'a' 'b'"] := by decide +kernel
    have hsome : ¬ AllRead (lit "'a' 'b'") := by
      intro ⟨l, hl, hall⟩
      cases hitems.symm.trans hl
      exact glued_not_reads (hall _ List.mem_cons_self)
    obtain ⟨e, he⟩ := h hsome
    have hplan : parseInsert (insertText [unit 't'] (commaList [[unit 'v']]) (lit "'a' 'b'")) =
        .ok (⟨[unit 't'], [[unit 'v']], [.string (lit "a' 'b")]⟩ : ParsedInsert ℤ) := by decide +kernel
    cases hplan.symm.trans he

end Bracket

end TakyonDb.Relational
