import TakyonDb.Relational.Transaction

namespace TakyonDb.Relational

open Lib
open JsString (lit)

/-- What a client may call on a database. -/
inductive Call (ν : Type) where
  | createTable (name : JsString) (columns : List (ColumnDef ν))
  | dropTable (name : JsString)
  | api (op : TxOp ν)
  | sqlInsert (sql : JsString)
  | sqlUpdate (sql : JsString)
  | sqlDelete (sql : JsString)
  | commit (ops : List (TxOp ν))

section Calls

variable {ν : Type} [JsNumber ν]

/-- The database after a call, accepted or not. -/
def RelationalDatabase.after (db : RelationalDatabase ν) : Call ν → RelationalDatabase ν
  | .createTable name columns => (db.createTable name columns).toOption.getD db
  | .dropTable name => (db.dropTable name).toOption.getD db
  | .api op => (applyOp op db).state
  | .sqlInsert sql => (executeInsert db sql).state
  | .sqlUpdate sql => (executeUpdate db sql).state.1
  | .sqlDelete sql => (executeDelete db sql).state.1
  | .commit ops => (Transaction.commit ⟨db, ops⟩).state.db

def RelationalDatabase.new : RelationalDatabase ν := ⟨.empty⟩

/-- What the arrays of the cells hold after a write, by table, key and column. -/
abbrev Contents := JsString → JsString → JsString → Bytes → Bytes

def RowValue.written (f : Bytes → Bytes) : RowValue ν → RowValue ν
  | .bytes b => .bytes (f b)
  | v => v

def Row.written (f : JsString → Bytes → Bytes) (row : Row ν) : Row ν :=
  row.mapEntries fun column ↦ RowValue.written (f column)

def RelationalTable.written (f : JsString → JsString → Bytes → Bytes) (t : RelationalTable ν) : RelationalTable ν :=
  ⟨t.schema, t.rows.mapEntries fun pk ↦ Row.written (f pk)⟩

/-- A caller writes into arrays that it gave to a table or got from one. The copies of a row that go in and out are
shallow, so that the rows hold the arrays themselves. -/
def RelationalDatabase.written (contents : Contents) (db : RelationalDatabase ν) : RelationalDatabase ν :=
  ⟨db.tables.mapEntries fun name ↦ RelationalTable.written (contents name)⟩

/-- The write leaves the arrays in primary key cells as they are. -/
def SparesKeys (contents : Contents) (db : RelationalDatabase ν) : Prop :=
  ∀ p ∈ db.tables.entries, ∀ q ∈ p.2.rows.entries,
    (q.2.get p.2.schema.primaryKey).written (contents p.1 q.1 p.2.schema.primaryKey) = q.2.get p.2.schema.primaryKey

instance decidableSparesKeys (contents : Contents) (db : RelationalDatabase ν) : Decidable (SparesKeys contents db) :=
  inferInstanceAs (Decidable (∀ p ∈ db.tables.entries, ∀ q ∈ p.2.rows.entries, _ = _))

inductive Event (ν : Type) where
  | call (c : Call ν)
  | write (contents : Contents)

def RelationalDatabase.next (db : RelationalDatabase ν) : Event ν → RelationalDatabase ν
  | .call c => db.after c
  | .write contents => db.written contents

/-- The database after a sequence of calls and writes on a new one. -/
def RelationalDatabase.run (events : List (Event ν)) : RelationalDatabase ν := events.foldl RelationalDatabase.next .new

/-- Every write of the sequence leaves the arrays in primary key cells as they are. -/
def KeysSpared (db : RelationalDatabase ν) : List (Event ν) → Prop
  | [] => True
  | .call c :: events => KeysSpared (db.after c) events
  | .write contents :: events => SparesKeys contents db ∧ KeysSpared (db.written contents) events

/-- What the declarations of a table ask of its rows. -/
structure Declared (t : RelationalTable ν) : Prop where
  unique : ∀ c ∈ t.schema.columns, c.unique → t.rows.entries.Pairwise fun p q ↦ p.2.get c.name ≠ q.2.get c.name
  notNull : ∀ c ∈ t.schema.columns, c.nullable = false → ∀ p ∈ t.rows.entries, (p.2.get c.name).isNullish = false
  keyed : ∀ p ∈ t.rows.entries, encodePk (p.2.get t.schema.primaryKey) = .ok p.1

/-- What the table keeps: values differ in the primary key column, which holds one in every row, a column that is not
nullable holds no null, and each row lies under its key. -/
structure Kept (t : RelationalTable ν) : Prop where
  unique : t.rows.entries.Pairwise fun p q ↦ p.2.get t.schema.primaryKey ≠ q.2.get t.schema.primaryKey
  present : ∀ p ∈ t.rows.entries, (p.2.get t.schema.primaryKey).isNullish = false
  notNull : ∀ c ∈ t.schema.columns, c.nullable = false → ∀ p ∈ t.rows.entries, p.2.get c.name ≠ .null
  keyed : ∀ p ∈ t.rows.entries, encodePk (p.2.get t.schema.primaryKey) = .ok p.1

theorem validateCell_null {c : ColumnDef ν} (hc : c.nullable = false) :
    validateCell c (.null : RowValue ν) ≠ .ok () := by
  have hrun : validateCell c (.null : RowValue ν) =
      if ¬ c.nullable ∧ ¬ c.defaultValue.any RowValue.truthy ∧ c.primaryKey then
        .error (.error (quoted (lit "column '") c.name (lit "' cannot be null")))
      else if ¬ c.nullable ∧ (.null : RowValue ν) ≠ .undefined then
        .error (.error (quoted (lit "column '") c.name (lit "' is NOT NULL")))
      else .ok () := rfl
  rw [hrun]
  split_ifs with _ hnull
  · simp
  · simp
  · simp [hc] at hnull

theorem RelationalTable.Sound.kept {t : RelationalTable ν} (h : t.Sound) : Kept t := by
  refine ⟨?_, ?_, ?_, fun p hp ↦ (h p hp).2⟩
  · refine (List.pairwise_map.mp t.rows.nodup).imp_of_mem fun {p q} hp hq hne heq ↦ hne ?_
    exact Except.ok.inj ((h p hp).2.symm.trans ((congrArg encodePk heq).trans (h q hq).2))
  · intro p hp
    have hkey := (h p hp).2
    cases hpk : p.2.get t.schema.primaryKey with
    | null =>
      rw [hpk] at hkey
      cases hkey
    | undefined =>
      rw [hpk] at hkey
      cases hkey
    | bool b => rfl
    | number n => rfl
    | string s => rfl
    | bytes b => rfl
  · intro c hc hnull p hp hcell
    have hvalid := (validateRow_ok.mp (h p hp).1).1 c hc
    rw [hcell] at hvalid
    exact validateCell_null hnull hvalid

theorem sound_onTable {α : Type} {db : RelationalDatabase ν} {name : JsString}
    {f : RelationalTable ν → Except RelError (RelationalTable ν × α)} (hdb : db.Sound)
    (hf : ∀ t t' a, t.Sound → f t = .ok (t', a) → t'.Sound) : (onTable db name f).state.Sound := by
  rw [onTable]
  cases ht : db.table name with
  | error e => exact hdb
  | ok t =>
    cases hrun : f t with
    | error e =>
      simp only [hrun]
      exact hdb
    | ok r =>
      simp only [hrun]
      exact hdb.set (hf t r.1 r.2 (hdb.table ht) hrun)

theorem sound_applyOp (op : TxOp ν) {db : RelationalDatabase ν} (hdb : db.Sound) : (applyOp op db).state.Sound := by
  cases op with
  | insert table row => exact sound_onTable hdb fun _ _ _ ht h ↦ ht.insert h
  | update table pk patch => exact sound_onTable hdb fun _ _ _ ht h ↦ ht.update h
  | delete table pk => exact sound_onTable hdb fun _ _ _ ht h ↦ ht.delete h

theorem sound_updateRow (patch r : Row ν) (s : RelationalTable ν × ℕ) (hs : s.1.Sound) :
    (updateRow patch r s).state.1.Sound := by
  rw [updateRow]
  cases hup : s.1.update (r.get s.1.schema.primaryKey) patch with
  | error e => exact hs
  | ok u =>
    obtain ⟨t, found⟩ := u
    cases found with
    | none => exact hs.update hup
    | some next => exact hs.update hup

theorem sound_deleteRow (r : Row ν) (s : RelationalTable ν × ℕ) (hs : s.1.Sound) : (deleteRow r s).state.1.Sound := by
  rw [deleteRow]
  cases hdel : s.1.delete (r.get s.1.schema.primaryKey) with
  | error e => exact hs
  | ok u =>
    obtain ⟨t, found⟩ := u
    cases found with
    | false => exact hs.delete hdel
    | true => exact hs.delete hdel

theorem state_map {σ τ : Type} (f : σ → τ) (r : Outcome RelError σ) : (r.map f).state = f r.state := by
  cases r <;> rfl

/-- A call keeps every row validated and under its key. -/
theorem sound_after (call : Call ν) {db : RelationalDatabase ν} (hdb : db.Sound) : (db.after call).Sound := by
  cases call with
  | createTable name columns =>
    rw [RelationalDatabase.after]
    cases h : db.createTable name columns with
    | error e => exact hdb
    | ok db' => exact hdb.createTable h
  | dropTable name =>
    rw [RelationalDatabase.after]
    cases h : db.dropTable name with
    | error e => exact hdb
    | ok db' => exact hdb.dropTable h
  | api op => exact sound_applyOp op hdb
  | sqlInsert sql =>
    rw [RelationalDatabase.after, executeInsert]
    cases parseInsert (ν := ν) sql with
    | error e => exact hdb
    | ok plan => exact sound_onTable hdb fun _ _ _ ht h ↦ ht.insert h
  | sqlUpdate sql =>
    rw [RelationalDatabase.after, executeUpdate]
    cases parseUpdate (ν := ν) sql with
    | error e => exact hdb
    | ok plan =>
      simp only [runUpdate]
      cases ht : db.table plan.table with
      | error e => exact hdb
      | ok t =>
        simp only [state_map]
        exact hdb.set (Outcome.fold_state (fun s ↦ s.1.Sound) (sound_updateRow plan.patch) _ (t, 0) (hdb.table ht))
  | sqlDelete sql =>
    rw [RelationalDatabase.after, executeDelete]
    cases parseDelete (ν := ν) sql with
    | error e => exact hdb
    | ok plan =>
      simp only [runDelete]
      cases ht : db.table plan.table with
      | error e => exact hdb
      | ok t =>
        simp only [state_map]
        exact hdb.set (Outcome.fold_state (fun s ↦ s.1.Sound) sound_deleteRow _ (t, 0) (hdb.table ht))
  | commit ops =>
    have hrun := Outcome.fold_state RelationalDatabase.Sound (fun op db h ↦ sound_applyOp op h) ops db hdb
    rw [RelationalDatabase.after, Transaction.commit]
    cases precheck db ops [] with
    | error e => exact hdb
    | ok u =>
      simp only [applyOps]
      cases hops : Outcome.fold applyOp ops db with
      | ok db' =>
        rw [hops] at hrun
        exact hrun
      | fail e db' =>
        rw [hops] at hrun
        exact hrun

omit [JsNumber ν] in
theorem Row.get_written (row : Row ν) (f : JsString → Bytes → Bytes) (column : JsString) :
    (row.written f).get column = (row.get column).written (f column) := by
  rw [Row.written, Row.get, OrderedMap.find?_mapEntries, Row.get]
  cases row.find? column <;> rfl

/-- The validator reads the type of a cell, and of an array nothing else. -/
theorem validateCell_written (c : ColumnDef ν) (f : Bytes → Bytes) (v : RowValue ν) :
    validateCell c (v.written f) = validateCell c v := by
  obtain ⟨name, type, nullable, primaryKey, unique, defaultValue⟩ := c
  cases v with
  | bytes b => cases type <;> rfl
  | _ => rfl

theorem sound_written {contents : Contents} {db : RelationalDatabase ν} (hdb : db.Sound) (h : SparesKeys contents db) :
    (db.written contents).Sound := by
  intro p hp
  obtain ⟨⟨name, t⟩, ht, heq⟩ := OrderedMap.mem_entries_mapEntries.mp hp
  subst heq
  intro q hq
  obtain ⟨⟨pk, row⟩, hrow, heq⟩ := OrderedMap.mem_entries_mapEntries.mp hq
  subst heq
  obtain ⟨hvalid, hkey⟩ := hdb _ ht _ hrow
  obtain ⟨hcells, hpk⟩ := validateRow_ok.mp hvalid
  have hsame : (Row.written (contents name pk) row).get t.schema.primaryKey = row.get t.schema.primaryKey :=
    (Row.get_written row _ _).trans (h _ ht _ hrow)
  constructor
  · refine validateRow_ok.mpr ⟨fun c hc ↦ ?_, hsame.symm ▸ hpk⟩
    rw [Row.get_written, validateCell_written]
    exact hcells c hc
  · exact (congrArg encodePk hsame).trans hkey

/-- Calls, and writes that spare the keys, keep every row validated and under its key. -/
theorem sound_run {events : List (Event ν)} (h : KeysSpared .new events) : (RelationalDatabase.run events).Sound := by
  rw [RelationalDatabase.run]
  have hnew : (RelationalDatabase.new : RelationalDatabase ν).Sound := fun _ h ↦ by cases h
  generalize RelationalDatabase.new = db at hnew h
  induction events generalizing db with
  | nil => exact hnew
  | cons event events ih =>
    cases event with
    | call c => exact ih _ (sound_after c hnew) h
    | write contents => exact ih _ (sound_written hnew h.1) h.2

/-- In every state that calls reach, every table keeps what it can keep, as long as no caller writes into an array
that is the primary key of a row. -/
theorem kept_run (events : List (Event ν)) (h : KeysSpared .new events) :
    ∀ p ∈ (RelationalDatabase.run events).tables.entries, Kept p.2 := by
  intro p hp
  exact (sound_run h p hp).kept

end Calls

def memberColumns : List (ColumnDef ℤ) :=
  [⟨lit "id", .int32, false, true, false, none⟩, ⟨lit "email", .string, false, false, true, none⟩,
    ⟨lit "photo", .bytes, true, false, false, none⟩]

def memberRow (id : ℤ) (email : String) (photo : Bytes) : Row ℤ :=
  .ofList [(lit "id", .number (.finite id)), (lit "email", .string (lit email)), (lit "photo", .bytes photo)]

/-- Two rows of one address, of which the first changes its photo, and one without. -/
def memberEvents : List (Event ℤ) :=
  [.call (.createTable (lit "m") memberColumns), .call (.api (.insert (lit "m") (memberRow 1 "a" [1]))),
    .write fun _ key _ b ↦ if key = lit "1" then [2] else b, .call (.api (.insert (lit "m") (memberRow 2 "a" [3]))),
    .call (.sqlInsert (lit "INSERT INTO m (id) VALUES (3)"))]

def membersAfter : Option (RelationalTable ℤ) := (RelationalDatabase.run memberEvents).tables.find? (lit "m")

/-- The table after these calls and the write. -/
theorem kept_members : ∃ t, membersAfter = some t ∧ Kept t ∧
    t.rows.find? (lit "1") = some (memberRow 1 "a" [2]) ∧ t.rows.find? (lit "2") = some (memberRow 2 "a" [3]) := by
  have hsome : membersAfter.isSome := by decide +kernel
  have hrows : ∀ t ∈ membersAfter,
      t.rows.find? (lit "1") = some (memberRow 1 "a" [2]) ∧ t.rows.find? (lit "2") = some (memberRow 2 "a" [3]) := by
    decide +kernel
  obtain ⟨t, ht⟩ := Option.isSome_iff_exists.mp hsome
  have hspared : KeysSpared .new memberEvents := ⟨by decide +kernel, trivial⟩
  exact ⟨t, ht, kept_run memberEvents hspared (lit "m", t) (OrderedMap.find?_eq_some.mp ht), hrows t ht⟩

def blobColumns : List (ColumnDef ℤ) := [⟨lit "k", .bytes, false, true, false, none⟩]

def blobRow (k : Bytes) : Row ℤ := .ofList [(lit "k", .bytes k)]

/-- The array of the first key is written before its new contents are inserted once more. -/
def sharedKeyEvents : List (Event ℤ) :=
  [.call (.createTable (lit "b") blobColumns), .call (.api (.insert (lit "b") (blobRow [1]))),
    .write fun _ _ _ _ ↦ [2], .call (.api (.insert (lit "b") (blobRow [2])))]

def blobsAfter : Option (RelationalTable ℤ) := (RelationalDatabase.run sharedKeyEvents).tables.find? (lit "b")

/-- A column declared unique and not nullable takes equal values and none, and through a shared array two rows come
to have one primary key, one of them under another. -/
theorem not_declared_members : (∃ t, membersAfter = some t ∧ ¬ Declared t ∧
    (∃ c ∈ t.schema.columns, c.unique ∧ ¬ t.rows.entries.Pairwise fun p q ↦ p.2.get c.name ≠ q.2.get c.name) ∧
    ∃ c ∈ t.schema.columns, c.nullable = false ∧ ¬ ∀ p ∈ t.rows.entries, (p.2.get c.name).isNullish = false) ∧
    ∃ t, blobsAfter = some t ∧ t.rows.entries = [(lit "01", blobRow [2]), (lit "02", blobRow [2])] ∧ ¬ Kept t := by
  constructor
  · have hsome : membersAfter.isSome := by decide +kernel
    have hcolumn : ∀ t ∈ membersAfter, ⟨lit "email", .string, false, false, true, none⟩ ∈ t.schema.columns := by
      decide +kernel
    have hunique : ∀ t ∈ membersAfter,
        ¬ t.rows.entries.Pairwise fun p q ↦ p.2.get (lit "email") ≠ q.2.get (lit "email") := by decide +kernel
    have hnull : ∀ t ∈ membersAfter, ¬ ∀ p ∈ t.rows.entries, (p.2.get (lit "email")).isNullish = false := by
      decide +kernel
    obtain ⟨t, ht⟩ := Option.isSome_iff_exists.mp hsome
    refine ⟨t, ht, ?_, ⟨_, hcolumn t ht, rfl, hunique t ht⟩, ⟨_, hcolumn t ht, rfl, hnull t ht⟩⟩
    intro h
    exact hnull t ht (h.notNull _ (hcolumn t ht) rfl)
  · have hsome : blobsAfter.isSome := by decide +kernel
    have hrows : ∀ t ∈ blobsAfter, t.rows.entries = [(lit "01", blobRow [2]), (lit "02", blobRow [2])] := by decide +kernel
    have hkeyed : ∀ t ∈ blobsAfter, ¬ ∀ p ∈ t.rows.entries, encodePk (p.2.get t.schema.primaryKey) = .ok p.1 := by
      decide +kernel
    obtain ⟨t, ht⟩ := Option.isSome_iff_exists.mp hsome
    exact ⟨t, ht, hrows t ht, fun h ↦ hkeyed t ht h.keyed⟩

end TakyonDb.Relational
