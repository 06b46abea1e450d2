import TakyonDb.Lib.StableSort
import TakyonDb.Relational.Table

namespace TakyonDb.Relational

open Lib
open JsString (lit)
open scoped List

inductive OrderDir where
  | asc
  | desc
deriving DecidableEq

/-- The clauses of a query on one table. -/
structure QueryBuilder (ν : Type) where
  whereClause : Option (Where ν)
  selectCols : Option (List JsString)
  orderCol : Option JsString
  orderDir : OrderDir
  limitN : Option ℤ
  offsetN : ℤ

section Order

variable {ν : Type} [JsNumber ν]

/-- The text of a value that compares as one. -/
def RowValue.asText : RowValue ν → Option JsString
  | string s => some s
  | bytes b => some (RowValue.bytes b : RowValue ν).toText
  | _ => none

/-- `Number(value)` -/
def RowValue.toNumber : RowValue ν → Num ν
  | bool b => if b then .finite 1 else .finite 0
  | number n => n
  | string s => JsNumber.ofText s
  | bytes b => JsNumber.ofText (RowValue.bytes b : RowValue ν).toText
  | null => .finite 0
  | undefined => .nan

/-- `a < b` -/
def jsLess (a b : RowValue ν) : Bool :=
  match a.asText, b.asText with
  | some s, some t => s < t
  | _, _ => a.toNumber.lt b.toNumber

/-- What the comparator of a query says of two cells. -/
def compareCells (dir : OrderDir) (av bv : RowValue ν) : Ordering :=
  if jsLess av bv then (if dir = .asc then .lt else .gt)
  else if jsLess bv av then (if dir = .asc then .gt else .lt)
  else .eq

def compareRows (dir : OrderDir) (col : JsString) (a b : Row ν) : Ordering := compareCells dir (a.get col) (b.get col)

/-- `slice(start)`, from the end when negative. -/
def sliceFrom {α : Type} (l : List α) (start : ℤ) : List α :=
  if start < 0 then l.drop (l.length - start.natAbs) else l.drop start.natAbs

/-- `slice(0, stop)` -/
def sliceTo {α : Type} (l : List α) (stop : ℤ) : List α :=
  if stop < 0 then l.take (l.length - stop.natAbs) else l.take stop.natAbs

def selectRow (cols : List JsString) (r : Row ν) : Row ν := .ofList (cols.map fun c ↦ (c, r.get c))

/-- The rows of a query, with the sort of the run time. -/
def QueryBuilder.all (sort : (Row ν → Row ν → Ordering) → List (Row ν) → List (Row ν)) (q : QueryBuilder ν)
    (table : RelationalTable ν) : List (Row ν) :=
  let rows := table.scan q.whereClause
  let rows :=
    match q.orderCol with
    | some col => if col = [] then rows else sort (compareRows q.orderDir col) rows
    | none => rows
  let rows := if q.offsetN ≠ 0 then sliceFrom rows q.offsetN else rows
  let rows :=
    match q.limitN with
    | some n => sliceTo rows n
    | none => rows
  match q.selectCols with
  | some cols => rows.map (selectRow cols)
  | none => rows

/-- The order of values of one type. -/
def Below : RowValue ν → RowValue ν → Prop
  | .number m, .number n => m.lt n
  | .string s, .string t => s < t
  | _, _ => False

def BelowIn (dir : OrderDir) (v w : RowValue ν) : Prop := if dir = .asc then Below v w else Below w v

/-- The rows in the order asked for: a permutation in which the values that are there ascend (or descend) and rows
of one value keep their order. -/
structure Ordered (dir : OrderDir) (col : JsString) (rows result : List (Row ν)) : Prop where
  perm : result.Perm rows
  ascending : (result.filter fun r ↦ !(r.get col).isNullish).Pairwise fun a b ↦ ¬ BelowIn dir (b.get col) (a.get col)
  stable : ∀ v, result.filter (fun r ↦ r.get col = v) = rows.filter fun r ↦ r.get col = v

/-- At most one row holds a value, and no two hold the same or lack it in the same way. -/
def Unforced (col : JsString) (rows : List (Row ν)) : Prop :=
  rows.Pairwise fun a b ↦ a.get col ≠ b.get col ∧ ((a.get col).isNullish ∨ (b.get col).isNullish)

/-- Two values of one type that an order column may hold. -/
inductive Comparable : RowValue ν → RowValue ν → Prop
  | strings (s t : JsString) : Comparable (.string s) (.string t)
  | numbers (m n : ν) : Comparable (.number (.finite m)) (.number (.finite n))

section Cells

variable {v w : RowValue ν} {dir : OrderDir}

theorem below_numbers (m n : ν) : Below (.number (.finite m)) (.number (.finite n)) ↔ m < n := decide_eq_true_iff

theorem jsLess_iff_below (h : Comparable v w) : jsLess v w ↔ Below v w := by
  cases h with
  | strings s t => exact decide_eq_true_iff
  | numbers m n => exact Iff.rfl

omit [JsNumber ν] in
theorem Comparable.symm (h : Comparable v w) : Comparable w v := by
  cases h with
  | strings s t => exact .strings t s
  | numbers m n => exact .numbers n m

theorem below_asymm (h : Comparable v w) (hvw : Below v w) : ¬ Below w v := by
  cases h with
  | strings s t => exact List.lt_asymm hvw
  | numbers m n =>
    rw [below_numbers] at *
    exact lt_asymm hvw

theorem eq_of_not_below (h : Comparable v w) (hvw : ¬ Below v w) (hwv : ¬ Below w v) : v = w := by
  cases h with
  | strings s t => exact congrArg _ (List.le_antisymm hwv hvw)
  | numbers m n =>
    rw [below_numbers] at hvw hwv
    rw [le_antisymm (not_lt.mp hwv) (not_lt.mp hvw)]

/-- What the comparator lets stand first does not belong behind. -/
theorem not_belowIn_of_compareCells (h : Comparable v w) (hcmp : compareCells dir v w ≠ .gt) : ¬ BelowIn dir w v := by
  intro hbelow
  rw [BelowIn] at hbelow
  rw [compareCells] at hcmp
  cases dir with
  | asc =>
    have hwv : Below w v := hbelow
    have hless : ¬ jsLess v w := fun hvw ↦ below_asymm h.symm hwv ((jsLess_iff_below h).mp hvw)
    rw [if_neg hless, if_pos ((jsLess_iff_below h.symm).mpr hwv)] at hcmp
    exact hcmp rfl
  | desc =>
    have hvw : Below v w := hbelow
    rw [if_pos ((jsLess_iff_below h).mpr hvw)] at hcmp
    exact hcmp rfl

end Cells

/-- A cell of a number or string column that passed the validator. -/
theorem validateCell_kind {c : ColumnDef ν} {v : RowValue ν} (h : validateCell c v = .ok ()) (hbool : c.type ≠ .bool)
    (hbytes : c.type ≠ .bytes) : v.isNullish ∨ (c.type = .string ∧ ∃ s, v = .string s) ∨
      (c.type ≠ .string ∧ ∃ n, v = .number (.finite n)) := by
  by_cases hnull : v.isNullish
  · exact Or.inl hnull
  · right
    simp only [validateCell, if_neg hnull] at h
    split at h <;> simp_all

theorem perm_eq_of_short {α : Type} {l r : List α} (h : l.Perm r) (hshort : l.length ≤ 1) : l = r := by
  cases l with
  | nil => exact (List.nil_perm.mp h).symm
  | cons a l =>
    cases l with
    | nil => exact List.singleton_perm.mp h
    | cons b l => simp at hshort

section Main

variable {t : RelationalTable ν} {c : ColumnDef ν} {dir : OrderDir} {rows result : List (Row ν)}

/-- The rows of a scan hold values of one type in a number or string column, where they hold one. -/
theorem comparable_of_scan (ht : t.Sound) (hc : c ∈ t.schema.columns) (hbool : c.type ≠ .bool)
    (hbytes : c.type ≠ .bytes)
    {w : Option (Where ν)} {a b : Row ν} (ha : a ∈ t.scan w) (hb : b ∈ t.scan w) (hpa : ¬ (a.get c.name).isNullish)
    (hpb : ¬ (b.get c.name).isNullish) : Comparable (a.get c.name) (b.get c.name) := by
  have hcell : ∀ r ∈ t.scan w, validateCell c (r.get c.name) = .ok () := by
    intro r hr
    obtain ⟨p, hp, hpr⟩ := List.mem_map.mp (List.mem_of_mem_filter hr)
    exact (validateRow_ok.mp (hpr ▸ (ht p hp).1)).1 c hc
  rcases (validateCell_kind (hcell a ha) hbool hbytes).resolve_left hpa with ⟨htext, s, hs⟩ | ⟨htext, m, hm⟩
  · rcases (validateCell_kind (hcell b hb) hbool hbytes).resolve_left hpb with ⟨_, s', hs'⟩ | ⟨hno, _⟩
    · rw [hs, hs']
      exact .strings s s'
    · exact absurd htext hno
  · rcases (validateCell_kind (hcell b hb) hbool hbytes).resolve_left hpb with ⟨hno, _⟩ | ⟨_, n, hn⟩
    · exact absurd hno htext
    · rw [hm, hn]
      exact .numbers m n

/-- Where the comparator is consistent, a stable sort gives the order asked for. -/
theorem ordered_of_stableSorted {col : JsString} (hcons : Consistent (compareRows dir col) rows)
    (hcells : ∀ a ∈ rows, ∀ b ∈ rows, ¬ (a.get col).isNullish → ¬ (b.get col).isNullish →
      Comparable (a.get col) (b.get col))
    (h : StableSorted (compareRows dir col) rows result) : Ordered dir col rows result := by
  refine ⟨h.perm, ?_, ?_⟩
  · refine (h.ascending.sublist List.filter_sublist).imp_of_mem fun {a b} ha hb hab ↦ ?_
    obtain ⟨ha, hpa⟩ := List.mem_filter.mp ha
    obtain ⟨hb, hpb⟩ := List.mem_filter.mp hb
    have hcomparable := hcells a (h.perm.mem_iff.mp ha) b (h.perm.mem_iff.mp hb) (by simpa using hpa)
        (by simpa using hpb)
    exact not_belowIn_of_compareCells hcomparable hab
  · intro v
    by_cases hex : ∃ a ∈ rows, a.get col = v
    · obtain ⟨a, ha, hav⟩ := hex
      have hsub : ∀ l : List (Row ν), l.filter (fun r ↦ r.get col = v) =
          (l.filter fun r ↦ compareRows dir col a r = .eq).filter fun r ↦ r.get col = v := by
        intro l
        rw [List.filter_filter]
        refine List.filter_congr fun r _ ↦ ?_
        by_cases hr : r.get col = v
        · have heq : compareRows dir col a r = .eq := by
            rw [compareRows, hr, ← hav]
            exact hcons.refl ha
          simp [hr, heq]
        · simp [hr]
      rw [hsub result, hsub rows, h.stable a ha]
    · have hnone : ∀ r ∈ rows, r.get col ≠ v := fun r hr heq ↦ hex ⟨r, hr, heq⟩
      have hrows : rows.filter (fun r ↦ r.get col = v) = [] :=
        List.filter_eq_nil_iff.mpr fun r hr ↦ by simpa using hnone r hr
      have hresult := h.perm.filter fun r ↦ decide (r.get col = v)
      rw [hrows] at hresult ⊢
      exact hresult.eq_nil

/-- Where nothing is to be ordered, every permutation will do. -/
theorem ordered_of_unforced {col : JsString} (h : Unforced col rows) (hperm : result.Perm rows) :
    Ordered dir col rows result := by
  have hresult : Unforced col result := by
    refine (hperm.pairwise_iff fun {a b} hab ↦ ?_).mpr h
    exact ⟨hab.1.symm, hab.2.symm⟩
  refine ⟨hperm, ?_, ?_⟩
  · refine (hresult.sublist List.filter_sublist).imp_of_mem fun {a b} ha hb hab ↦ ?_
    have hpa := (List.mem_filter.mp ha).2
    have hpb := (List.mem_filter.mp hb).2
    simp_all
  · intro v
    have hshort : ∀ l : List (Row ν), Unforced col l → (l.filter fun r ↦ r.get col = v).length ≤ 1 := by
      intro l hl
      by_contra hlong
      obtain ⟨a, b, rest, heq⟩ : ∃ a b rest, (l.filter fun r ↦ r.get col = v) = a :: b :: rest := by
        cases hcase : l.filter fun r ↦ r.get col = v with
        | nil => simp [hcase] at hlong
        | cons a rest =>
          cases rest with
          | nil => simp [hcase] at hlong
          | cons b rest => exact ⟨a, b, rest, rfl⟩
      have hpair := hl.sublist (List.filter_sublist (p := fun r : Row ν ↦ decide (r.get col = v)))
      rw [heq] at hpair
      have ha := (List.mem_filter.mp (heq ▸ List.mem_cons_self : a ∈ l.filter fun r ↦ r.get col = v)).2
      have hb := (List.mem_filter.mp
        (heq ▸ List.mem_cons_of_mem a List.mem_cons_self : b ∈ l.filter fun r ↦ r.get col = v)).2
      exact (List.rel_of_pairwise_cons hpair List.mem_cons_self).1
        ((of_decide_eq_true ha).trans (of_decide_eq_true hb).symm)
    exact perm_eq_of_short (hperm.filter _) (hshort result hresult)

/-- A list that is in order both ways round asks for none. -/
theorem unforced_of_ordered {col : JsString} (hnodup : rows.Nodup)
    (hcells : ∀ a ∈ rows, ∀ b ∈ rows, ¬ (a.get col).isNullish → ¬ (b.get col).isNullish →
      Comparable (a.get col) (b.get col))
    (h : Ordered dir col rows rows) (hback : Ordered dir col rows rows.reverse) : Unforced col rows := by
  refine List.pairwise_iff_forall_sublist.mpr fun {a b} hab ↦ ?_
  have ha : a ∈ rows := hab.subset (by simp)
  have hb : b ∈ rows := hab.subset (by simp)
  have hne : a.get col ≠ b.get col := by
    intro heq
    have hstable := hback.stable (b.get col)
    have hpair : [a, b] <+ rows.filter fun r ↦ r.get col = b.get col := by
      have hfilter := hab.filter fun r ↦ decide (r.get col = b.get col)
      simpa [heq] using hfilter
    rw [List.filter_reverse] at hstable
    have hreverse : [b, a] <+ rows.filter fun r ↦ r.get col = b.get col := by
      rw [← hstable]
      exact List.reverse_sublist.mpr hpair
    exact sublist_asymm (hnodup.filter _) hpair hreverse
  refine ⟨hne, ?_⟩
  by_contra hboth
  obtain ⟨hpa, hpb⟩ := not_or.mp hboth
  have hcomparable := hcells a ha b hb hpa hpb
  have hpair : [a, b] <+ rows.filter fun r ↦ !(r.get col).isNullish := by
    have hfilter := hab.filter fun r ↦ !(r.get col).isNullish
    simpa [hpa, hpb] using hfilter
  have hforward : ¬ BelowIn dir (b.get col) (a.get col) := List.pairwise_iff_forall_sublist.mp h.ascending hpair
  have hbackward : ¬ BelowIn dir (a.get col) (b.get col) := by
    refine List.pairwise_iff_forall_sublist.mp hback.ascending ?_
    rw [List.filter_reverse]
    exact List.reverse_sublist.mpr hpair
  cases dir with
  | asc => exact hne (eq_of_not_below hcomparable hbackward hforward)
  | desc => exact hne (eq_of_not_below hcomparable hforward hbackward)

end Main

/-- A query that only filters and orders. -/
def QueryBuilder.ordering (w : Option (Where ν)) (col : JsString) (dir : OrderDir) : QueryBuilder ν :=
  ⟨w, none, some col, dir, none, 0⟩

theorem all_ordering (sort : (Row ν → Row ν → Ordering) → List (Row ν) → List (Row ν)) (w : Option (Where ν))
    {col : JsString} (hcol : col ≠ []) (dir : OrderDir) (t : RelationalTable ν) :
    (QueryBuilder.ordering w col dir).all sort t = sort (compareRows dir col) (t.scan w) := by
  simp [QueryBuilder.all, QueryBuilder.ordering, hcol]

theorem isName_ne_nil {s : JsString} (h : isName s) : s ≠ [] := by
  intro hnil
  rw [hnil] at h
  cases h

/-- The order of a query comes out right under every lawful sort exactly where the comparator is consistent on the
matching rows, or where these rows need no order. -/
theorem all_ordered_iff (t : SoundTable ν) (w : Option (Where ν)) (c : ColumnDef ν) (dir : OrderDir)
    (hc : c ∈ t.1.schema.columns) (hbool : c.type ≠ .bool) (hbytes : c.type ≠ .bytes) :
    (∀ sort, LawfulSort sort → Ordered dir c.name (t.1.scan w) ((QueryBuilder.ordering w c.name dir).all sort t.1)) ↔
      Consistent (compareRows dir c.name) (t.1.scan w) ∨ Unforced c.name (t.1.scan w) := by
  have hname := isName_ne_nil (t.1.schema.valid.named c hc)
  have hcells : ∀ a ∈ t.1.scan w, ∀ b ∈ t.1.scan w, ¬ (a.get c.name).isNullish → ¬ (b.get c.name).isNullish →
      Comparable (a.get c.name) (b.get c.name) := fun a ha b hb ↦ comparable_of_scan t.2 hc hbool hbytes ha hb
  simp only [all_ordering _ w hname]
  constructor
  · intro h
    by_cases hcons : Consistent (compareRows dir c.name) (t.1.scan w)
    · exact Or.inl hcons
    · have hforward := h (sortOr id) (lawful_sortOr fun l ↦ List.Perm.refl l)
      have hbackward := h (sortOr List.reverse) (lawful_sortOr fun l ↦ List.reverse_perm l)
      rw [sortOr_of_not_consistent hcons] at hforward hbackward
      exact Or.inr (unforced_of_ordered (t.2.nodup_scan w) hcells hforward hbackward)
  · intro h sort hsort
    rcases h with hcons | hunforced
    · exact ordered_of_stableSorted hcons hcells (hsort.sorted _ _ hcons)
    · exact ordered_of_unforced hunforced (hsort.perm _ _)

section WeakOrder

variable {col : JsString} {dir : OrderDir} {rows : List (Row ν)}

theorem compareCells_ne_gt {v w : RowValue ν} (h : jsLess v w → ¬ jsLess w v) :
    compareCells dir v w ≠ .gt ↔ if dir = .asc then ¬ jsLess w v else ¬ jsLess v w := by
  rw [compareCells]
  cases dir <;> by_cases hvw : jsLess v w <;> by_cases hwv : jsLess w v <;> simp_all

/-- The comparator is consistent where `<` is a strict weak order on the cells. -/
theorem consistent_of_weakOrder (hasymm : ∀ a ∈ rows, ∀ b ∈ rows,
    jsLess (a.get col) (b.get col) → ¬ jsLess (b.get col) (a.get col))
    (htrans : ∀ a ∈ rows, ∀ b ∈ rows, ∀ c ∈ rows, ¬ jsLess (b.get col) (a.get col) → ¬ jsLess (c.get col) (b.get col) →
      ¬ jsLess (c.get col) (a.get col)) : Consistent (compareRows dir col) rows := by
  constructor
  · intro a ha b hb
    have hab := hasymm a ha b hb
    rw [compareRows, compareRows, compareCells, compareCells]
    cases dir <;> by_cases hvw : jsLess (a.get col) (b.get col) <;>
      by_cases hwv : jsLess (b.get col) (a.get col) <;> simp_all
  · intro a ha b hb c hc
    rw [compareRows, compareRows, compareRows, compareCells_ne_gt (hasymm a ha b hb),
      compareCells_ne_gt (hasymm b hb c hc),
      compareCells_ne_gt (hasymm a ha c hc)]
    cases dir with
    | asc => simpa using htrans a ha b hb c hc
    | desc => simpa using fun hab hbc ↦ htrans c hc b hb a ha hbc hab

/-- Numbers are in order, and a null counts as zero among them. -/
theorem consistent_of_numbers (h : ∀ r ∈ rows, (r.get col).asText = none ∧ ∃ n, (r.get col).toNumber = .finite n) :
    Consistent (compareRows dir col) rows := by
  have hless : ∀ a ∈ rows, ∀ b ∈ rows, ∃ m n, (jsLess (a.get col) (b.get col) ↔ m < n) ∧
      (a.get col).toNumber = .finite m ∧ (b.get col).toNumber = .finite (n : ν) := by
    intro a ha b hb
    obtain ⟨hta, m, hm⟩ := h a ha
    obtain ⟨_, n, hn⟩ := h b hb
    refine ⟨m, n, ?_, hm, hn⟩
    rw [jsLess, hta]
    simp [hm, hn, Num.lt]
  refine consistent_of_weakOrder ?_ ?_
  · intro a ha b hb hab hba
    obtain ⟨m, n, hmn, hm, hn⟩ := hless a ha b hb
    obtain ⟨n', m', hnm, hn', hm'⟩ := hless b hb a ha
    cases hm.symm.trans hm'
    cases hn.symm.trans hn'
    exact lt_asymm (hmn.mp hab) (hnm.mp hba)
  · intro a ha b hb c hc hba hcb hca
    obtain ⟨n, m, hnm, hn, hm⟩ := hless b hb a ha
    obtain ⟨k, n', hkn, hk, hn'⟩ := hless c hc b hb
    obtain ⟨k', m', hkm, hk', hm'⟩ := hless c hc a ha
    cases hm.symm.trans hm'
    cases hn.symm.trans hn'
    cases hk.symm.trans hk'
    exact hcb (hkn.mpr (lt_of_lt_of_le (hkm.mp hca) (not_lt.mp fun h ↦ hba (hnm.mpr h))))

/-- Strings are in order where none is missing. -/
theorem consistent_of_strings (h : ∀ r ∈ rows, ∃ s, r.get col = .string s) : Consistent (compareRows dir col) rows := by
  have hless : ∀ s t : JsString, jsLess (.string s : RowValue ν) (.string t) ↔ s < t := fun s t ↦
    jsLess_iff_below (.strings s t)
  refine consistent_of_weakOrder ?_ ?_
  · intro a ha b hb
    obtain ⟨s, hs⟩ := h a ha
    obtain ⟨t, ht⟩ := h b hb
    rw [hs, ht, hless, hless]
    exact List.lt_asymm
  · intro a ha b hb c hc
    obtain ⟨s, hs⟩ := h a ha
    obtain ⟨t, ht⟩ := h b hb
    obtain ⟨u, hu⟩ := h c hc
    rw [hs, ht, hu, hless, hless, hless]
    exact fun hst htu ↦ List.le_trans hst htu

@[simp] theorem jsLess_undefined (v : RowValue ν) : jsLess v .undefined = false := by
  have hlt : ∀ n : Num ν, n.lt .nan = false := fun n ↦ by cases n <;> rfl
  have hrun : jsLess v .undefined = v.toNumber.lt .nan := by
    rw [jsLess]
    cases v.asText <;> rfl
  rw [hrun, hlt]

@[simp] theorem undefined_jsLess (v : RowValue ν) : jsLess .undefined v = false := by
  rw [jsLess]
  cases v.asText <;> rfl

/-- A row without the cell compares equal to every other, which is consistent only where all are equal. -/
theorem eq_of_consistent_of_missing (h : Consistent (compareRows dir col) rows) {a b r : Row ν} (hr : r ∈ rows)
    (hmissing : r.get col = .undefined) (ha : a ∈ rows) (hb : b ∈ rows) : compareRows dir col a b = .eq := by
  have heq : ∀ x : Row ν, compareRows dir col r x = .eq := by
    intro x
    rw [compareRows, compareCells, hmissing, if_neg (by simp), if_neg (by simp)]
  have hle := h.le_of_eq hr ha hb (heq a) (heq b)
  have hge := h.le_of_eq hr hb ha (heq b) (heq a)
  rw [h.swap a ha b hb] at hge
  cases hcmp : compareRows dir col a b with
  | eq => rfl
  | lt => simp [hcmp] at hge
  | gt => exact absurd hcmp hle

end WeakOrder

end Order

theorem scoreColumns_valid : ColumnsValid (ν := ℤ)
    [⟨lit "id", .int32, false, true, false, none⟩, ⟨lit "v", .int32, true, false, false, none⟩] :=
  ⟨by decide, by decide, by decide, by decide⟩

theorem scores_sound : RelationalTable.Sound (ν := ℤ) ⟨⟨lit "s", _, scoreColumns_valid⟩,
    .ofList [(lit "1", .ofList [(lit "id", .number (.finite 1)), (lit "v", .number (.finite 2))]),
      (lit "2", .ofList [(lit "id", .number (.finite 2))]),
      (lit "3", .ofList [(lit "id", .number (.finite 3)), (lit "v", .number (.finite 1))])]⟩ := by
  decide

/-- Rows with the values two, none and one. -/
def scores : SoundTable ℤ := ⟨_, scores_sound⟩

def scoreColumn : ColumnDef ℤ := ⟨lit "v", .int32, true, false, false, none⟩

theorem nullableScores_sound : RelationalTable.Sound (ν := ℤ) ⟨⟨lit "s", _, scoreColumns_valid⟩,
    .ofList [(lit "1", .ofList [(lit "id", .number (.finite 1)), (lit "v", .number (.finite 2))]),
      (lit "2", .ofList [(lit "id", .number (.finite 2)), (lit "v", .null)]),
      (lit "3", .ofList [(lit "id", .number (.finite 3)), (lit "v", .number (.finite 1))])]⟩ := by
  decide

/-- Rows with the values two, null and one. -/
def nullableScores : SoundTable ℤ := ⟨_, nullableScores_sound⟩

/-- Where no cell is left out every lawful sort orders the scores. -/
theorem all_ordered_nullableScores :
    (nullableScores.1.scan none).map (fun r ↦ r.get scoreColumn.name) =
        [.number (.finite 2), .null, .number (.finite 1)] ∧
      ∀ sort, LawfulSort sort → Ordered .asc scoreColumn.name (nullableScores.1.scan none)
        ((QueryBuilder.ordering none scoreColumn.name .asc).all sort nullableScores.1) := by
  have hcells : (nullableScores.1.scan none).map (fun r ↦ r.get scoreColumn.name) =
      [.number (.finite 2), .null, .number (.finite 1)] := by decide
  refine ⟨hcells, (all_ordered_iff nullableScores none scoreColumn .asc (by decide) (by decide) (by decide)).mpr
    (.inl (consistent_of_numbers fun r hr ↦ ?_))⟩
  have hcell := List.mem_map_of_mem (f := fun r : Row ℤ ↦ r.get scoreColumn.name) hr
  rw [hcells] at hcell
  simp only [List.mem_cons, List.not_mem_nil, or_false] at hcell
  rcases hcell with hcell | hcell | hcell <;> rw [hcell]
  · exact ⟨rfl, 2, rfl⟩
  · exact ⟨rfl, 0, rfl⟩
  · exact ⟨rfl, 1, rfl⟩

/-- A sort that leaves the three rows as they are agrees with every comparison. -/
theorem not_ordered_scores : ∃ sort, LawfulSort sort ∧ ¬ Ordered .asc (lit "v") (scores.1.scan none)
    ((QueryBuilder.ordering none (lit "v") .asc).all sort scores.1) := by
  refine ⟨sortOr id, lawful_sortOr fun l ↦ List.Perm.refl l, ?_⟩
  have hcons : ¬ Consistent (compareRows .asc (lit "v")) (scores.1.scan none) := by
    intro h
    have hmissing : ∃ r ∈ scores.1.scan none, r.get (lit "v") = .undefined := by decide
    have hdifferent : ∃ a ∈ scores.1.scan none, ∃ b ∈ scores.1.scan none, compareRows .asc (lit "v") a b ≠ .eq := by decide
    obtain ⟨r, hr, hmissing⟩ := hmissing
    obtain ⟨a, ha, b, hb, hne⟩ := hdifferent
    exact hne (eq_of_consistent_of_missing h hr hmissing ha hb)
  rw [all_ordering _ _ (by decide), sortOr_of_not_consistent hcons]
  intro h
  have hlist : ((scores.1.scan none).filter fun r ↦ !(r.get (lit "v")).isNullish).map (fun r ↦ r.get (lit "v")) =
      [.number (.finite 2), .number (.finite 1)] := by decide
  have hascending := h.ascending
  rw [id_eq, ← List.pairwise_map (f := fun r : Row ℤ ↦ r.get (lit "v")) (R := fun v w ↦ ¬ BelowIn .asc w v),
    hlist] at hascending
  simp [BelowIn, below_numbers] at hascending

end TakyonDb.Relational
