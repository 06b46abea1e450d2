import TakyonDb.Relational.Filter
import TakyonDb.Relational.Schema

namespace TakyonDb.Relational

open Lib
open JsString (lit)

/-- The rows under the text of their primary keys, in the order they came. -/
structure RelationalTable (ν : Type) where
  schema : RelationalSchema ν
  rows : OrderedMap JsString (Row ν)
deriving DecidableEq

section Operations

variable {ν : Type} [JsNumber ν]

namespace RelationalTable

def create (tableName : JsString) (columns : List (ColumnDef ν)) : Except RelError (RelationalTable ν) := do
  let schema ← RelationalSchema.create tableName columns
  .ok ⟨schema, .empty⟩

def insert (t : RelationalTable ν) (row : Row ν) : Except RelError (RelationalTable ν × Row ν) := do
  validateRow t.schema row
  let pk ← encodePk (row.get t.schema.primaryKey)
  if (t.rows.find? pk).isSome then .error (.constraintError (quoted (lit "duplicate primary key '") pk (lit "'")))
  else .ok (⟨t.schema, t.rows.set pk row⟩, row)

def findByPk (t : RelationalTable ν) (pkValue : RowValue ν) : Except RelError (Option (Row ν)) := do
  let pk ← encodePk pkValue
  .ok (t.rows.find? pk)

/-- The rows a clause admits, in the order of the table. -/
def scan (t : RelationalTable ν) (w : Option (Where ν)) : List (Row ν) := t.rows.values.filter fun r ↦ matchesWhere r w

/-- The check that a patch names no other primary key. -/
def keepsKey (t : RelationalTable ν) (pk : JsString) (patch : Row ν) : Except RelError Unit :=
  if patch.get t.schema.primaryKey ≠ .undefined then do
    let key ← encodePk (patch.get t.schema.primaryKey)
    if key ≠ pk then .error (.constraintError (lit "primary key is immutable")) else .ok ()
  else .ok ()

def update (t : RelationalTable ν) (pkValue : RowValue ν) (patch : Row ν) :
    Except RelError (RelationalTable ν × Option (Row ν)) := do
  let pk ← encodePk pkValue
  match t.rows.find? pk with
  | none => .ok (t, none)
  | some cur => do
    t.keepsKey pk patch
    validateRow t.schema (cur.merge patch)
    .ok (⟨t.schema, t.rows.set pk (cur.merge patch)⟩, some (cur.merge patch))

def delete (t : RelationalTable ν) (pkValue : RowValue ν) : Except RelError (RelationalTable ν × Bool) := do
  let pk ← encodePk pkValue
  match t.rows.find? pk with
  | none => .ok (t, false)
  | some _ => .ok (⟨t.schema, t.rows.erase pk⟩, true)

def count (t : RelationalTable ν) : ℕ := t.rows.entries.length

/-- Every row passed the validator and lies under its own key. -/
def Sound (t : RelationalTable ν) : Prop :=
  ∀ p ∈ t.rows.entries, validateRow t.schema p.2 = .ok () ∧ encodePk (p.2.get t.schema.primaryKey) = .ok p.1

instance decidableSound (t : RelationalTable ν) : Decidable t.Sound :=
  inferInstanceAs (Decidable (∀ p ∈ t.rows.entries, _ ∧ _))

end RelationalTable

/-- The tables that hold what their operations let in. -/
abbrev SoundTable (ν : Type) [JsNumber ν] := {t : RelationalTable ν // t.Sound}

/-- The tables under their names. -/
structure RelationalDatabase (ν : Type) where
  tables : OrderedMap JsString (RelationalTable ν)
deriving DecidableEq

namespace RelationalDatabase

def createTable (db : RelationalDatabase ν) (name : JsString) (columns : List (ColumnDef ν)) :
    Except RelError (RelationalDatabase ν) :=
  if (db.tables.find? name).isSome then .error (.tableExists name)
  else do
    let t ← RelationalTable.create name columns
    .ok ⟨db.tables.set name t⟩

def dropTable (db : RelationalDatabase ν) (name : JsString) : Except RelError (RelationalDatabase ν) :=
  if (db.tables.find? name).isSome then .ok ⟨db.tables.erase name⟩ else .error (.tableNotFound name)

def table (db : RelationalDatabase ν) (name : JsString) : Except RelError (RelationalTable ν) :=
  match db.tables.find? name with
  | none => .error (.tableNotFound name)
  | some t => .ok t

def Sound (db : RelationalDatabase ν) : Prop := ∀ p ∈ db.tables.entries, p.2.Sound

instance decidableSound (db : RelationalDatabase ν) : Decidable db.Sound :=
  inferInstanceAs (Decidable (∀ p ∈ db.tables.entries, p.2.Sound))

end RelationalDatabase

abbrev SoundDatabase (ν : Type) [JsNumber ν] := {db : RelationalDatabase ν // db.Sound}

end Operations

section Specs

variable {ν : Type} [JsNumber ν]

namespace RelationalTable

variable {t t' : RelationalTable ν} {row : Row ν} {patch : Row ν} {value : RowValue ν} {pk : JsString}

theorem insert_ok {r : Row ν} : t.insert row = .ok (t', r) ↔
    validateRow t.schema row = .ok () ∧ r = row ∧ ∃ pk, encodePk (row.get t.schema.primaryKey) = .ok pk ∧
      t.rows.find? pk = none ∧ t' = ⟨t.schema, t.rows.set pk row⟩ := by
  rw [insert, check_eq_ok]
  refine and_congr_right fun _ ↦ ?_
  rw [bind_eq_ok]
  constructor
  · rintro ⟨pk, hpk, h⟩
    split_ifs at h with hfound
    obtain ⟨ht, hr⟩ := Prod.mk.inj (Except.ok.inj h)
    exact ⟨hr.symm, pk, hpk, by simpa using hfound, ht.symm⟩
  · rintro ⟨hr, pk, hpk, hfound, ht⟩
    refine ⟨pk, hpk, ?_⟩
    rw [hfound, if_neg (by simp), hr, ht]

theorem keepsKey_ok : t.keepsKey pk patch = .ok () ↔
    patch.get t.schema.primaryKey = .undefined ∨ encodePk (patch.get t.schema.primaryKey) = .ok pk := by
  rw [keepsKey]
  split_ifs with h
  · rw [bind_eq_ok]
    constructor
    · intro ⟨key, hkey, hif⟩
      split_ifs at hif with heq
      exact Or.inr (hkey.trans (congrArg _ (not_not.mp heq)))
    · intro hkey
      refine ⟨pk, hkey.resolve_left h, ?_⟩
      simp
  · simp [not_not.mp h]

theorem update_ok {r : Option (Row ν)} : t.update value patch = .ok (t', r) ↔
    ∃ pk, encodePk value = .ok pk ∧ (t.rows.find? pk = none ∧ t' = t ∧ r = none ∨
      ∃ cur, t.rows.find? pk = some cur ∧ t.keepsKey pk patch = .ok () ∧
        validateRow t.schema (cur.merge patch) = .ok () ∧
        t' = ⟨t.schema, t.rows.set pk (cur.merge patch)⟩ ∧ r = some (cur.merge patch)) := by
  rw [update, bind_eq_ok]
  refine exists_congr fun pk ↦ and_congr_right fun _ ↦ ?_
  cases hcur : t.rows.find? pk with
  | none => simp [eq_comm]
  | some cur =>
    simp only
    rw [check_eq_ok, check_eq_ok]
    simp [eq_comm]

theorem delete_ok {b : Bool} : t.delete value = .ok (t', b) ↔
    ∃ pk, encodePk value = .ok pk ∧ (t.rows.find? pk = none ∧ t' = t ∧ b = false ∨
      (t.rows.find? pk).isSome ∧ t' = ⟨t.schema, t.rows.erase pk⟩ ∧ b = true) := by
  rw [delete, bind_eq_ok]
  refine exists_congr fun pk ↦ and_congr_right fun _ ↦ ?_
  cases hcur : t.rows.find? pk with
  | none => simp [eq_comm]
  | some cur => simp [eq_comm]

theorem sound_empty (schema : RelationalSchema ν) : Sound ⟨schema, .empty⟩ := fun _ h ↦ nomatch h

/-- A validated row may be put under its own key. -/
theorem Sound.put (h : t.Sound) (hrow : validateRow t.schema row = .ok ())
    (hpk : encodePk (row.get t.schema.primaryKey) = .ok pk) : Sound ⟨t.schema, t.rows.set pk row⟩ := by
  intro p hp
  rcases OrderedMap.mem_entries_set.mp hp with heq | ⟨_, hp⟩
  · rw [heq]
    exact ⟨hrow, hpk⟩
  · exact h p hp

/-- No row lies under two keys. -/
theorem Sound.nodup_scan (h : t.Sound) (w : Option (Where ν)) : (t.scan w).Nodup := by
  rw [scan, OrderedMap.values]
  refine List.Nodup.filter _ ?_
  rw [List.Nodup, List.pairwise_map]
  refine (List.pairwise_map.mp t.rows.nodup).imp_of_mem fun {p q} hp hq hne hrow ↦ hne ?_
  exact Except.ok.inj ((h p hp).2.symm.trans ((congrArg (fun r ↦ encodePk (Row.get r _)) hrow).trans (h q hq).2))

theorem Sound.insert {r : Row ν} (h : t.Sound) (hins : t.insert row = .ok (t', r)) : t'.Sound := by
  obtain ⟨hrow, _, pk, hpk, _, ht⟩ := insert_ok.mp hins
  exact ht ▸ h.put hrow hpk

/-- A row that keeps its key under a patch and passes the validator still lies under this key. -/
theorem encodePk_merge {cur : Row ν} (hcur : encodePk (cur.get t.schema.primaryKey) = .ok pk)
    (hkeep : t.keepsKey pk patch = .ok ()) (hnext : validateRow t.schema (cur.merge patch) = .ok ()) :
    encodePk ((cur.merge patch).get t.schema.primaryKey) = .ok pk := by
  have hget := Row.get_merge cur patch t.schema.primaryKey
  have hdefined := (validateRow_ok.mp hnext).2.2.1
  rcases keepsKey_ok.mp hkeep with hundef | hsame
  · cases hfind : patch.find? t.schema.primaryKey with
    | none =>
      rw [hget, hfind]
      exact hcur
    | some v =>
      have hv : v = .undefined := by rwa [Row.get, hfind] at hundef
      rw [hget, hfind] at hdefined
      exact absurd hv hdefined
  · cases hfind : patch.find? t.schema.primaryKey with
    | none =>
      rw [hget, hfind]
      exact hcur
    | some v =>
      rw [Row.get, hfind] at hsame
      rw [hget, hfind]
      exact hsame

theorem Sound.update {r : Option (Row ν)} (h : t.Sound) (hup : t.update value patch = .ok (t', r)) : t'.Sound := by
  obtain ⟨pk, _, ⟨_, ht, _⟩ | ⟨cur, hcur, hkeep, hnext, ht, _⟩⟩ := update_ok.mp hup
  · exact ht ▸ h
  · have hkey := (h (pk, cur) (OrderedMap.find?_eq_some.mp hcur)).2
    exact ht ▸ h.put hnext (encodePk_merge hkey hkeep hnext)

theorem Sound.delete {b : Bool} (h : t.Sound) (hdel : t.delete value = .ok (t', b)) : t'.Sound := by
  obtain ⟨pk, _, ⟨_, ht, _⟩ | ⟨_, ht, _⟩⟩ := delete_ok.mp hdel
  · exact ht ▸ h
  · exact ht ▸ fun p hp ↦ h p (OrderedMap.mem_entries_erase.mp hp).1

end RelationalTable

namespace RelationalDatabase

variable {db db' : RelationalDatabase ν} {name : JsString} {t : RelationalTable ν}

omit [JsNumber ν] in
theorem table_ok : db.table name = .ok t ↔ db.tables.find? name = some t := by
  rw [table]
  cases db.tables.find? name <;> simp

theorem Sound.table (h : db.Sound) (ht : db.table name = .ok t) : t.Sound :=
  h (name, t) (OrderedMap.find?_eq_some.mp (table_ok.mp ht))

theorem Sound.set (h : db.Sound) (ht : t.Sound) : Sound ⟨db.tables.set name t⟩ := by
  intro p hp
  rcases OrderedMap.mem_entries_set.mp hp with heq | ⟨_, hp⟩
  · exact heq ▸ ht
  · exact h p hp

theorem Sound.createTable {columns : List (ColumnDef ν)} (h : db.Sound) (hc : db.createTable name columns = .ok db') :
    db'.Sound := by
  rw [RelationalDatabase.createTable] at hc
  split_ifs at hc
  obtain ⟨t, ht, hc⟩ := bind_eq_ok.mp hc
  obtain ⟨schema, _, ht⟩ := bind_eq_ok.mp ht
  exact Except.ok.inj hc ▸ h.set (Except.ok.inj ht ▸ RelationalTable.sound_empty schema)

theorem Sound.dropTable (h : db.Sound) (hd : db.dropTable name = .ok db') : db'.Sound := by
  rw [RelationalDatabase.dropTable] at hd
  split_ifs at hd
  exact Except.ok.inj hd ▸ fun p hp ↦ h p (OrderedMap.mem_entries_erase.mp hp).1

end RelationalDatabase

end Specs

end TakyonDb.Relational
