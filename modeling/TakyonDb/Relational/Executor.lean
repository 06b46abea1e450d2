import TakyonDb.Relational.Sql
import TakyonDb.Relational.Table

namespace TakyonDb.Relational

open Lib
open JsString (lit)

section Execute

variable {ν : Type} [JsNumber ν]

/-- A clause without operators. -/
def noCondition : Condition ν := ⟨none, none, none, none, none, none, none, none⟩

def singleWhere (col op : JsString) (v : Scalar ν) : Option (Where ν) :=
  let one (c : Condition ν) : Option (Where ν) := some [(col, .condition c)]
  if op = lit "=" then one { noCondition with eq := some v }
  else if op = lit "!=" then one { noCondition with ne := some v }
  else if op = lit ">" then one { noCondition with gt := some v }
  else if op = lit ">=" then one { noCondition with gte := some v }
  else if op = lit "<" then one { noCondition with lt := some v }
  else if op = lit "<=" then one { noCondition with lte := some v }
  else none

/-- What a failed operation leaves is what it found. -/
def onTable {α : Type} (db : RelationalDatabase ν) (name : JsString)
    (f : RelationalTable ν → Except RelError (RelationalTable ν × α)) : Outcome RelError (RelationalDatabase ν) :=
  match db.table name with
  | .error e => .fail e db
  | .ok t =>
    match f t with
    | .error e => .fail e db
    | .ok r => .ok ⟨db.tables.set name r.1⟩

def ParsedInsert.row (plan : ParsedInsert ν) : Row ν :=
  .ofList ((plan.columns.zip plan.values).map fun p ↦ (p.1, p.2.toRowValue))

def executeInsert (db : RelationalDatabase ν) (sql : JsString) : Outcome RelError (RelationalDatabase ν) :=
  match parseInsert sql with
  | .error e => .fail e db
  | .ok plan => onTable db plan.table fun t ↦ t.insert plan.row

/-- The assignments as a patch. -/
def ParsedUpdate.patch (plan : ParsedUpdate ν) : Row ν := .ofList (plan.sets.map fun s ↦ (s.column, s.value.toRowValue))

def ParsedUpdate.where (plan : ParsedUpdate ν) : Option (Where ν) :=
  singleWhere plan.whereCol plan.whereOp plan.whereVal

/-- One row of an UPDATE, with the count of updated rows. -/
def updateRow (patch : Row ν) (r : Row ν) (s : RelationalTable ν × ℕ) : Outcome RelError (RelationalTable ν × ℕ) :=
  match s.1.update (r.get s.1.schema.primaryKey) patch with
  | .error e => .fail e s
  | .ok (t, some _) => .ok (t, s.2 + 1)
  | .ok (t, none) => .ok (t, s.2)

/-- The rows a scan found, one after the other. -/
def runUpdate (db : RelationalDatabase ν) (plan : ParsedUpdate ν) : Outcome RelError (RelationalDatabase ν × ℕ) :=
  match db.table plan.table with
  | .error e => .fail e (db, 0)
  | .ok table =>
    (Outcome.fold (updateRow plan.patch) (table.scan plan.where) (table, 0)).map fun s ↦
      (⟨db.tables.set plan.table s.1⟩, s.2)

def executeUpdate (db : RelationalDatabase ν) (sql : JsString) : Outcome RelError (RelationalDatabase ν × ℕ) :=
  match parseUpdate sql with
  | .error e => .fail e (db, 0)
  | .ok plan => runUpdate db plan

def deleteRow (r : Row ν) (s : RelationalTable ν × ℕ) : Outcome RelError (RelationalTable ν × ℕ) :=
  match s.1.delete (r.get s.1.schema.primaryKey) with
  | .error e => .fail e s
  | .ok (t, true) => .ok (t, s.2 + 1)
  | .ok (t, false) => .ok (t, s.2)

def runDelete (db : RelationalDatabase ν) (plan : ParsedDelete ν) : Outcome RelError (RelationalDatabase ν × ℕ) :=
  match db.table plan.table with
  | .error e => .fail e (db, 0)
  | .ok table =>
    (Outcome.fold deleteRow (table.scan (singleWhere plan.whereCol plan.whereOp plan.whereVal)) (table, 0)).map fun s ↦
      (⟨db.tables.set plan.table s.1⟩, s.2)

def executeDelete (db : RelationalDatabase ν) (sql : JsString) : Outcome RelError (RelationalDatabase ν × ℕ) :=
  match parseDelete sql with
  | .error e => .fail e (db, 0)
  | .ok plan => runDelete db plan

/-- The table after a statement that reached every matching row. -/
def ParsedUpdate.applied (plan : ParsedUpdate ν) (t : RelationalTable ν) : RelationalTable ν :=
  ⟨t.schema, t.rows.mapValues fun r ↦ if matchesWhere r plan.where then r.merge plan.patch else r⟩

/-- The patch may be merged into the row under its key. -/
def Accepts (schema : RelationalSchema ν) (patch : Row ν) (p : JsString × Row ν) : Prop :=
  (patch.get schema.primaryKey = .undefined ∨ encodePk (patch.get schema.primaryKey) = .ok p.1) ∧
    validateRow schema (p.2.merge patch) = .ok ()

/-- The row is in the table, under its own key. -/
def Holds (t : RelationalTable ν) (p : JsString × Row ν) : Prop :=
  t.rows.find? p.1 = some p.2 ∧ encodePk (p.2.get t.schema.primaryKey) = .ok p.1

section Rows

variable {patch : Row ν} {p q : JsString × Row ν} {s : RelationalTable ν × ℕ}

/-- An update of one row leaves the others where they are. -/
theorem Holds.set {t : RelationalTable ν} {row : Row ν} (hq : Holds t q) (hne : q.1 ≠ p.1) :
    Holds ⟨t.schema, t.rows.set p.1 row⟩ q := by
  refine ⟨?_, hq.2⟩
  rw [OrderedMap.find?_set, if_neg hne]
  exact hq.1

end Rows

theorem RelationalTable.Sound.holds {t : RelationalTable ν} (h : t.Sound) {p : JsString × Row ν}
    (hp : p ∈ t.rows.entries) : Holds t p := ⟨OrderedMap.find?_eq_some.mpr hp, (h p hp).2⟩

section Atomicity

variable {db : RelationalDatabase ν} {plan : ParsedUpdate ν} {t : RelationalTable ν}

end Atomicity

end Execute

def pairSchema : RelationalSchema ℤ :=
  ⟨lit "t", [⟨lit "id", .int32, false, true, false, none⟩, ⟨lit "v", .int32, true, false, false, none⟩],
    by decide, by decide, by decide, by decide⟩

def pairRow (id v : ℤ) : Row ℤ := .ofList [(lit "id", .number (.finite id)), (lit "v", .number (.finite v))]

/-- One table with two rows. -/
def twoRows : SoundDatabase ℤ :=
  ⟨⟨.ofList [(lit "t", ⟨pairSchema, .ofList [(lit "1", pairRow 1 0), (lit "2", pairRow 2 0)]⟩)]⟩, by decide⟩

end TakyonDb.Relational
