import TakyonDb.Column
import TakyonDb.Lib.Outcome
import TakyonDb.Relational.Row

namespace TakyonDb.Relational

open Lib
open JsString (lit)

/-- What the relational layer throws, with its message or the table it names. -/
inductive RelError where
  | error (message : JsString)
  | constraintError (message : JsString)
  | queryError (message : JsString)
  | tableExists (table : JsString)
  | tableNotFound (table : JsString)
deriving DecidableEq

/-- A column of a table, which may have a default. -/
abbrev ColumnDef (ν : Type) := TakyonDb.ColumnDef JsString (Option (RowValue ν))

/-- An identifier: `/^[a-zA-Z_][a-zA-Z0-9_]*$/`. -/
def isName : JsString → Bool
  | [] => false
  | u :: us => (JsString.isUpper u || JsString.isLower u || u == 0x5F) && us.all JsString.isWord

def quoted (before name after : JsString) : JsString := before ++ name ++ after

section Columns

variable {ν : Type}

def validateColumn (col : ColumnDef ν) : Except RelError Unit :=
  if ¬ isName col.name then .error (.error (quoted (lit "invalid column name '") col.name (lit "'")))
  else if 64 < col.name.length then .error (.error (lit "column name too long (max 64)"))
  else if col.primaryKey ∧ col.nullable then
    .error (.error (quoted (lit "primary key column '") col.name (lit "' cannot be nullable")))
  else .ok ()

/-- The loop over the definitions, with the names seen before. -/
def validateColumns : List (ColumnDef ν) → List JsString → Except RelError Unit
  | [], _ => .ok ()
  | d :: defs, seen => do
    validateColumn d
    if d.name ∈ seen then .error (.error (quoted (lit "duplicate column '") d.name (lit "'")))
    else validateColumns defs (d.name :: seen)

/-- Distinct identifiers, and one primary key column that takes no null. -/
structure ColumnsValid (columns : List (ColumnDef ν)) : Prop where
  named : ∀ c ∈ columns, isName c.name
  names : (columns.map ColumnDef.name).Nodup
  primary : (columns.filter ColumnDef.primaryKey).length = 1
  notNull : ∀ c ∈ columns, c.primaryKey → c.nullable = false

theorem validateColumn_ok {col : ColumnDef ν} (h : validateColumn col = .ok ()) :
    isName col.name ∧ (col.primaryKey → col.nullable = false) := by
  rw [validateColumn] at h
  split_ifs at h with hname _ hnull
  exact ⟨hname, fun hp ↦ Bool.eq_false_iff.mpr fun hn ↦ hnull ⟨hp, hn⟩⟩

theorem validateColumns_ok {columns : List (ColumnDef ν)} {seen : List JsString}
    (h : validateColumns columns seen = .ok ()) : (columns.map ColumnDef.name).Nodup ∧ (∀ c ∈ columns, c.name ∉ seen) ∧
      ∀ c ∈ columns, isName c.name ∧ (c.primaryKey → c.nullable = false) := by
  induction columns generalizing seen with
  | nil => simp
  | cons d defs ih =>
    obtain ⟨hd, h⟩ := check_eq_ok.mp h
    split_ifs at h with hseen
    obtain ⟨hnames, hfresh, hcolumn⟩ := ih h
    refine ⟨?_, ?_, ?_⟩
    · rw [List.map_cons, List.nodup_cons]
      refine ⟨?_, hnames⟩
      intro hmem
      obtain ⟨c, hc, hname⟩ := List.mem_map.mp hmem
      exact hfresh c hc (hname ▸ List.mem_cons_self)
    · intro c hc
      rcases List.mem_cons.mp hc with heq | hc
      · exact heq ▸ hseen
      · exact fun hmem ↦ hfresh c hc (List.mem_cons_of_mem _ hmem)
    · intro c hc
      rcases List.mem_cons.mp hc with heq | hc
      · exact heq ▸ validateColumn_ok hd
      · exact hcolumn c hc

/-- A compiled schema. -/
structure RelationalSchema (ν : Type) where
  tableName : JsString
  columns : List (ColumnDef ν)
  valid : ColumnsValid columns
deriving DecidableEq

def RelationalSchema.create (tableName : JsString) (defs : List (ColumnDef ν)) : Except RelError (RelationalSchema ν) :=
  if ¬ isName tableName then .error (.error (quoted (lit "invalid table name '") tableName (lit "'")))
  else if defs.length = 0 ∨ 32 < defs.length then .error (.error (lit "table must have 1..32 columns"))
  else match h : validateColumns defs [] with
    | .error e => .error e
    | .ok () =>
      if hp : (defs.filter ColumnDef.primaryKey).length = 1 then
        .ok ⟨tableName, defs, fun c hc ↦ ((validateColumns_ok h).2.2 c hc).1, (validateColumns_ok h).1, hp,
          fun c hc ↦ ((validateColumns_ok h).2.2 c hc).2⟩
      else .error (.error (lit "table must declare exactly one primaryKey column"))

/-- The primary key column. -/
def RelationalSchema.primaryColumn (schema : RelationalSchema ν) : ColumnDef ν :=
  (schema.columns.filter ColumnDef.primaryKey).head (by
    have h := schema.valid.primary
    intro hnil
    rw [hnil] at h
    cases h)

def RelationalSchema.primaryKey (schema : RelationalSchema ν) : JsString := schema.primaryColumn.name

end Columns

section Rows

variable {ν : Type} [JsNumber ν]

def RowValue.truthy : RowValue ν → Bool
  | bool b => b
  | number (.finite n) => n ≠ 0
  | number .nan => false
  | number _ => true
  | string s => s ≠ []
  | bytes _ => true
  | null => false
  | undefined => false

def validateCell (col : ColumnDef ν) (v : RowValue ν) : Except RelError Unit :=
  let must (what : String) : Except RelError Unit :=
    .error (.error (quoted (lit "column '") col.name (lit "' must be " ++ lit what)))
  if v.isNullish then
    if ¬ col.nullable ∧ ¬ col.defaultValue.any RowValue.truthy ∧ col.primaryKey then
      .error (.error (quoted (lit "column '") col.name (lit "' cannot be null")))
    else if ¬ col.nullable ∧ v ≠ .undefined then
      .error (.error (quoted (lit "column '") col.name (lit "' is NOT NULL")))
    else .ok ()
  else match col.type, v with
    | .bool, .bool _ => .ok ()
    | .bool, _ => must "boolean"
    | .string, .string _ => .ok ()
    | .string, _ => must "string"
    | .bytes, .bytes _ => .ok ()
    | .bytes, _ => must "Uint8Array"
    | _, .number (.finite _) => .ok ()
    | _, _ => must "a finite number"

def validateCells (row : Row ν) : List (ColumnDef ν) → Except RelError Unit
  | [] => .ok ()
  | col :: cols => do
    validateCell col (row.get col.name)
    validateCells row cols

def validateRow (schema : RelationalSchema ν) (row : Row ν) : Except RelError Unit := do
  validateCells row schema.columns
  let pk := row.get schema.primaryKey
  if pk = .null ∨ pk = .undefined ∨ pk = .string [] then .error (.error (lit "primary key value is required"))
  else .ok ()

def hexDigit (n : ℕ) : UInt16 := JsString.unit (Nat.digitChar n)

/-- `Buffer.from(value).toString('hex')` -/
def hex (b : Bytes) : JsString := b.flatMap fun x ↦ [hexDigit (x.toNat / 16), hexDigit (x.toNat % 16)]

def typeOf : RowValue ν → JsString
  | .bool _ => lit "boolean"
  | .number _ => lit "number"
  | .string _ => lit "string"
  | .bytes _ => lit "object"
  | .null => lit "object"
  | .undefined => lit "undefined"

def encodePk : RowValue ν → Except RelError JsString
  | .string s => .ok s
  | .number n => .ok n.toText
  | .bool b => .ok (if b then lit "true" else lit "false")
  | .bytes b => .ok (hex b)
  | v => .error (.error (lit "unsupported PK value type: " ++ typeOf v))

/-- `String(value)` -/
def RowValue.toText : RowValue ν → JsString
  | bool b => if b then lit "true" else lit "false"
  | number n => n.toText
  | string s => s
  | bytes b => List.intercalate (lit ",") (b.map fun x ↦ lit (toString x.toNat))
  | null => lit "null"
  | undefined => lit "undefined"

theorem validateCells_ok {row : Row ν} {cols : List (ColumnDef ν)} :
    validateCells row cols = .ok () ↔ ∀ c ∈ cols, validateCell c (row.get c.name) = .ok () := by
  induction cols with
  | nil => simp [validateCells]
  | cons c cols ih =>
    rw [validateCells, List.forall_mem_cons, ← ih]
    exact check_eq_ok

/-- A row is accepted when each of its cells is and its primary key is neither absent nor empty. -/
theorem validateRow_ok {schema : RelationalSchema ν} {row : Row ν} : validateRow schema row = .ok () ↔
    (∀ c ∈ schema.columns, validateCell c (row.get c.name) = .ok ()) ∧ row.get schema.primaryKey ≠ .null ∧
      row.get schema.primaryKey ≠ .undefined ∧ row.get schema.primaryKey ≠ .string [] := by
  rw [← validateCells_ok, validateRow, check_eq_ok]
  refine and_congr_right fun _ ↦ ?_
  simp only
  split_ifs with h
  · simp only [false_iff]
    tauto
  · simp only [true_iff]
    tauto

end Rows

end TakyonDb.Relational
