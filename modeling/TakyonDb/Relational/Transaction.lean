import TakyonDb.Relational.Executor

namespace TakyonDb.Relational

open Lib
open JsString (lit)

/-- One buffered operation. -/
inductive TxOp (ν : Type) where
  | insert (table : JsString) (row : Row ν)
  | update (table : JsString) (pk : RowValue ν) (patch : Row ν)
  | delete (table : JsString) (pk : RowValue ν)

def TxOp.table {ν : Type} : TxOp ν → JsString
  | insert table _ => table
  | update table _ _ => table
  | delete table _ => table

structure Transaction (ν : Type) where
  db : RelationalDatabase ν
  ops : List (TxOp ν)

section Commit

variable {ν : Type} [JsNumber ν]

def applyOp (op : TxOp ν) (db : RelationalDatabase ν) : Outcome RelError (RelationalDatabase ν) :=
  match op with
  | .insert table row => onTable db table fun t ↦ t.insert row
  | .update table pk patch => onTable db table fun t ↦ t.update pk patch
  | .delete table pk => onTable db table fun t ↦ t.delete pk

/-- The operations one after the other, up to the first that fails. -/
def applyOps (ops : List (TxOp ν)) (db : RelationalDatabase ν) : Outcome RelError (RelationalDatabase ν) :=
  Outcome.fold applyOp ops db

/-- How the check before the application renders the key of a row: `String(value)`, where the table renders an array of
bytes in hexadecimal digits. -/
def pkText (t : RelationalTable ν) (row : Row ν) : JsString := (row.get t.schema.primaryKey).toText

/-- The check of the inserts, with the tables and keys of those seen. -/
def precheck (db : RelationalDatabase ν) : List (TxOp ν) → List (JsString × JsString) → Except RelError Unit
  | [], _ => .ok ()
  | .insert table row :: ops, seen => do
    let t ← db.table table
    let found ← t.findByPk (.string (pkText t row))
    if (table, pkText t row) ∈ seen ∨ found.isSome then
      .error (.error (quoted (lit "duplicate primary key '") (pkText t row) (lit "' in transaction")))
    else precheck db ops ((table, pkText t row) :: seen)
  | op :: ops, seen => do
    let _ ← db.table op.table
    precheck db ops seen

/-- A commit that fails keeps its buffer. -/
def Transaction.commit (tx : Transaction ν) : Outcome RelError (Transaction ν) :=
  match precheck tx.db tx.ops [] with
  | .error e => .fail e tx
  | .ok () =>
    match applyOps tx.ops tx.db with
    | .ok db => .ok ⟨db, []⟩
    | .fail e db => .fail e ⟨db, tx.ops⟩

/-- The table and the rendered key of an insert. -/
def insertKey (db : RelationalDatabase ν) : TxOp ν → Option (JsString × JsString)
  | .insert table row => (db.tables.find? table).map fun t ↦ (table, pkText t row)
  | _ => none

def insertKeys (db : RelationalDatabase ν) (ops : List (TxOp ν)) : List (JsString × JsString) :=
  ops.filterMap (insertKey db)

def Stored (db : RelationalDatabase ν) (k : JsString × JsString) : Prop :=
  ∃ t, db.table k.1 = .ok t ∧ (t.rows.find? k.2).isSome

/-- What the check before the application lets through: every table is there, and no insert has a text that is a key of
its table as it stands or the text of another insert. -/
structure Admitted (db : RelationalDatabase ν) (ops : List (TxOp ν)) : Prop where
  tables : ∀ op ∈ ops, ∃ t, db.table op.table = .ok t
  absent : ∀ k ∈ insertKeys db ops, ¬ Stored db k
  distinct : (insertKeys db ops).Nodup

section Check

variable {db : RelationalDatabase ν} {table : JsString} {t : RelationalTable ν} {row : Row ν} {op : TxOp ν}
  {ops : List (TxOp ν)}

omit [JsNumber ν] in
theorem stored_iff (ht : db.table table = .ok t) (k : JsString) : Stored db (table, k) ↔ (t.rows.find? k).isSome := by
  constructor
  · intro ⟨t', ht', hk⟩
    cases ht.symm.trans ht'
    exact hk
  · exact fun hk ↦ ⟨t, ht, hk⟩

theorem insertKeys_insert (ht : db.table table = .ok t) :
    insertKeys db (.insert table row :: ops) = (table, pkText t row) :: insertKeys db ops := by
  have hkey : insertKey db (.insert table row) = some (table, pkText t row) := by
    rw [insertKey, RelationalDatabase.table_ok.mp ht]
    rfl
  rw [insertKeys, List.filterMap_cons_some hkey]
  rfl

theorem admitted_insert (ht : db.table table = .ok t) : Admitted db (.insert table row :: ops) ↔
    Admitted db ops ∧ ¬ Stored db (table, pkText t row) ∧ (table, pkText t row) ∉ insertKeys db ops := by
  constructor
  · intro ⟨htables, habsent, hdistinct⟩
    rw [insertKeys_insert ht] at habsent hdistinct
    obtain ⟨hnew, hdistinct⟩ := List.nodup_cons.mp hdistinct
    exact ⟨⟨fun op h ↦ htables op (List.mem_cons_of_mem _ h), fun k h ↦ habsent k (List.mem_cons_of_mem _ h),
      hdistinct⟩,
      habsent _ List.mem_cons_self, hnew⟩
  · intro ⟨⟨htables, habsent, hdistinct⟩, hstored, hnew⟩
    refine ⟨?_, ?_, ?_⟩
    · intro op hop
      rcases List.mem_cons.mp hop with heq | hop
      · exact heq ▸ ⟨t, ht⟩
      · exact htables op hop
    · rw [insertKeys_insert ht]
      intro k hk
      rcases List.mem_cons.mp hk with heq | hk
      · exact heq ▸ hstored
      · exact habsent k hk
    · rw [insertKeys_insert ht]
      exact List.nodup_cons.mpr ⟨hnew, hdistinct⟩

/-- An operation that inserts nothing only needs its table. -/
theorem admitted_cons (hop : insertKeys db (op :: ops) = insertKeys db ops) :
    Admitted db (op :: ops) ↔ (∃ t, db.table op.table = .ok t) ∧ Admitted db ops := by
  constructor
  · intro ⟨htables, habsent, hdistinct⟩
    rw [hop] at habsent hdistinct
    exact ⟨htables op List.mem_cons_self, fun op h ↦ htables op (List.mem_cons_of_mem _ h), habsent, hdistinct⟩
  · intro ⟨htable, htables, habsent, hdistinct⟩
    refine ⟨?_, hop ▸ habsent, hop ▸ hdistinct⟩
    intro op' hop'
    rcases List.mem_cons.mp hop' with heq | hop'
    · exact heq ▸ htable
    · exact htables op' hop'

theorem precheck_insert {seen : List (JsString × JsString)} (ht : db.table table = .ok t) :
    precheck db (.insert table row :: ops) seen = .ok () ↔ (table, pkText t row) ∉ seen ∧
      ¬ Stored db (table, pkText t row) ∧
      precheck db ops ((table, pkText t row) :: seen) = .ok () := by
  have hrun : precheck db (.insert table row :: ops) seen =
      if (table, pkText t row) ∈ seen ∨ (t.rows.find? (pkText t row)).isSome then
        .error (.error (quoted (lit "duplicate primary key '") (pkText t row) (lit "' in transaction")))
      else precheck db ops ((table, pkText t row) :: seen) := by
    rw [precheck, ht]
    rfl
  rw [hrun, stored_iff ht]
  split_ifs with h
  · simp only [false_iff]
    tauto
  · tauto

theorem precheck_cons {seen : List (JsString × JsString)} (hkey : insertKey db op = none)
    (hrun : precheck db (op :: ops) seen = (do let _ ← db.table op.table; precheck db ops seen))
    (ih : precheck db ops seen = .ok () ↔ Admitted db ops ∧ ∀ k ∈ insertKeys db ops, k ∉ seen) :
    precheck db (op :: ops) seen = .ok () ↔ Admitted db (op :: ops) ∧ ∀ k ∈ insertKeys db (op :: ops), k ∉ seen := by
  have hkeys : insertKeys db (op :: ops) = insertKeys db ops := List.filterMap_cons_none hkey
  rw [hrun, bind_eq_ok, admitted_cons hkeys, hkeys, exists_and_right, ih, and_assoc]

/-- The check accepts exactly the operations that are admitted and whose inserts were not seen. -/
theorem precheck_ok {seen : List (JsString × JsString)} :
    precheck db ops seen = .ok () ↔ Admitted db ops ∧ ∀ k ∈ insertKeys db ops, k ∉ seen := by
  induction ops generalizing seen with
  | nil =>
    have hnil : Admitted db [] := ⟨by simp, by simp [insertKeys], by simp [insertKeys]⟩
    simp [precheck, insertKeys, hnil]
  | cons op ops ih =>
    cases op with
    | insert table row =>
      cases ht : db.table table with
      | error e =>
        have hno : ¬ Admitted db (.insert table row :: ops) := by
          intro h
          obtain ⟨t, ht'⟩ := h.tables _ List.mem_cons_self
          cases ht.symm.trans ht'
        have hrun : precheck db (.insert table row :: ops) seen = .error e := by
          rw [precheck, ht]
          rfl
        rw [hrun]
        simp [hno]
      | ok t =>
        rw [precheck_insert ht, ih, admitted_insert ht, insertKeys_insert ht]
        simp only [List.mem_cons, not_or, forall_eq_or_imp]
        constructor
        · intro ⟨hseen, hstored, hadmitted, hkeys⟩
          exact ⟨⟨hadmitted, hstored, fun h ↦ (hkeys _ h).1 rfl⟩, hseen, fun k hk ↦ (hkeys k hk).2⟩
        · intro ⟨⟨hadmitted, hstored, hnew⟩, hseen, hkeys⟩
          exact ⟨hseen, hstored, hadmitted, fun k hk ↦ ⟨fun heq ↦ hnew (heq ▸ hk), hkeys k hk⟩⟩
    | update table pk patch => exact precheck_cons rfl rfl ih
    | delete table pk => exact precheck_cons rfl rfl ih

end Check

theorem applyOp_fail {op : TxOp ν} {db db' : RelationalDatabase ν} {e : RelError} (h : applyOp op db = .fail e db') :
    db' = db := by
  have hon : ∀ {α : Type} (name : JsString) (f : RelationalTable ν → Except RelError (RelationalTable ν × α)),
      onTable db name f = .fail e db' → db' = db := by
    intro α name f hf
    rw [onTable] at hf
    cases ht : db.table name with
    | error e' =>
      rw [ht] at hf
      cases hf
      rfl
    | ok t =>
      rw [ht] at hf
      cases hrun : f t with
      | error e' =>
        simp only [hrun] at hf
        cases hf
        rfl
      | ok r =>
        simp only [hrun] at hf
        cases hf
  cases op with
  | insert table row => exact hon table _ h
  | update table pk patch => exact hon table _ h
  | delete table pk => exact hon table _ h

/-- One after the other, the operations before this one succeed and this one fails, with the tables as they left
them. -/
def FailsAt (db : RelationalDatabase ν) (ops : List (TxOp ν)) (e : RelError) (db' : RelationalDatabase ν) : Prop :=
  ∃ pre op post, ops = pre ++ op :: post ∧ applyOps pre db = .ok db' ∧ applyOp op db' = .fail e db'

/-- A failed application leaves what the operations before the failing one did. -/
theorem applyOps_fail {ops : List (TxOp ν)} {db db' : RelationalDatabase ν} {e : RelError} :
    applyOps ops db = .fail e db' ↔ FailsAt db ops e db' := by
  constructor
  · intro h
    obtain ⟨pre, op, post, db'', hops, hpre, hop⟩ := Outcome.fold_fail h
    rw [applyOp_fail hop]
    exact ⟨pre, op, post, hops, hpre, applyOp_fail hop ▸ hop⟩
  · rintro ⟨pre, op, post, rfl, hpre, hop⟩
    rw [applyOps] at hpre ⊢
    rw [Outcome.fold_append, hpre, Outcome.ok_andThen, Outcome.fold, hop]
    rfl

/-- A commit succeeds exactly as the operations one after the other would, or throws and changes nothing. -/
def AllOrNothing (tx : Transaction ν) : Prop :=
  (∀ db, tx.commit = .ok ⟨db, []⟩ ↔ applyOps tx.ops tx.db = .ok db) ∧ ∀ e tx', tx.commit = .fail e tx' → tx'.db = tx.db

theorem precheck_iff {db : RelationalDatabase ν}
    {ops : List (TxOp ν)} : precheck db ops [] = .ok () ↔ Admitted db ops := by
  rw [precheck_ok]
  simp

theorem commit_refused {tx : Transaction ν} (h : ¬ Admitted tx.db tx.ops) : ∃ e, tx.commit = .fail e tx := by
  rw [Transaction.commit]
  cases hpre : precheck tx.db tx.ops [] with
  | error e => exact ⟨e, rfl⟩
  | ok u => exact absurd (precheck_iff.mp hpre) h

theorem commit_admitted {tx : Transaction ν} (h : Admitted tx.db tx.ops) :
    tx.commit = match applyOps tx.ops tx.db with
      | .ok db => .ok ⟨db, []⟩
      | .fail e db => .fail e ⟨db, tx.ops⟩ := by
  rw [Transaction.commit, precheck_iff.mpr h]

/-- A commit succeeds exactly when its inserts are admitted and the operations succeed one after the other; otherwise
it throws, and leaves the tables as they were where the inserts are not admitted, else with the effects of the
operations before the first that fails. -/
theorem commit_spec (tx : Transaction ν) :
    (∀ db, tx.commit = .ok ⟨db, []⟩ ↔ Admitted tx.db tx.ops ∧ applyOps tx.ops tx.db = .ok db) ∧
      ((∃ db, tx.commit = .ok ⟨db, []⟩) ∨ ∃ e tx', tx.commit = .fail e tx' ∧ tx'.ops = tx.ops ∧
        (¬ Admitted tx.db tx.ops ∧ tx'.db = tx.db ∨ Admitted tx.db tx.ops ∧ FailsAt tx.db tx.ops e tx'.db)) := by
  by_cases hadmitted : Admitted tx.db tx.ops
  · rw [commit_admitted hadmitted]
    cases hrun : applyOps tx.ops tx.db with
    | ok db => exact ⟨by simp [hadmitted], Or.inl ⟨db, rfl⟩⟩
    | fail e db => exact ⟨by simp, Or.inr ⟨e, ⟨db, tx.ops⟩, rfl, rfl, Or.inr ⟨hadmitted, applyOps_fail.mp hrun⟩⟩⟩
  · obtain ⟨e, hcommit⟩ := commit_refused hadmitted
    rw [hcommit]
    exact ⟨by simp [hadmitted], Or.inr ⟨e, tx, rfl, rfl, Or.inl ⟨hadmitted, rfl⟩⟩⟩

/-- The check lets the operations through, and those before the first that fails leave the tables as they are; or it
refuses them, and one of them would fail. -/
def FailsEarly (db : RelationalDatabase ν) (ops : List (TxOp ν)) : Prop :=
  Admitted db ops ∧ (∀ e db', FailsAt db ops e db' → db' = db) ∨ ¬ Admitted db ops ∧ ∃ e db', FailsAt db ops e db'

/-- A commit is all or nothing exactly when what would fail fails early. -/
theorem commit_allOrNothing_iff (tx : Transaction ν) : AllOrNothing tx ↔ FailsEarly tx.db tx.ops := by
  obtain ⟨hok, hends⟩ := commit_spec tx
  constructor
  · intro ⟨hsucceeds, hunchanged⟩
    by_cases hadmitted : Admitted tx.db tx.ops
    · refine Or.inl ⟨hadmitted, fun e db' hfails ↦ ?_⟩
      refine hunchanged e ⟨db', tx.ops⟩ ?_
      rw [commit_admitted hadmitted, applyOps_fail.mpr hfails]
    · refine Or.inr ⟨hadmitted, ?_⟩
      cases hrun : applyOps tx.ops tx.db with
      | ok db => exact absurd ((hok db).mp ((hsucceeds db).mpr hrun)).1 hadmitted
      | fail e db => exact ⟨e, db, applyOps_fail.mp hrun⟩
  · rintro (⟨hadmitted, hquiet⟩ | ⟨hadmitted, e, db', hfails⟩)
    · refine ⟨fun db ↦ (hok db).trans (and_iff_right hadmitted), fun e tx' hcommit ↦ ?_⟩
      rcases hends with ⟨db, hdb⟩ | ⟨e', tx'', hcommit', -, ⟨hnot, -⟩ | ⟨-, hfails⟩⟩
      · cases hdb.symm.trans hcommit
      · exact absurd hadmitted hnot
      · cases hcommit.symm.trans hcommit'
        exact hquiet e _ hfails
    · obtain ⟨e', hcommit⟩ := commit_refused hadmitted
      have hrun := applyOps_fail.mpr hfails
      refine ⟨fun db ↦ by rw [hcommit, hrun]; simp, fun e tx' h ↦ ?_⟩
      cases hcommit.symm.trans h
      rfl

end Commit

/-- The delete frees the key, but the check reads the table as it stood. -/
def reinsert : Transaction ℤ := ⟨twoRows.1, [.delete (lit "t") (.number (.finite 1)), .insert (lit "t") (pairRow 1 7)]⟩

/-- The insert is applied before the update is refused. -/
def lateRefusal : Transaction ℤ :=
  ⟨twoRows.1, [.insert (lit "t") (pairRow 3 0), .update (lit "t") (.number (.finite 1)) (pairRow 2 0)]⟩

def bytesSchema : RelationalSchema ℤ :=
  ⟨lit "b", [⟨lit "k", .bytes, false, true, false, none⟩], by decide, by decide, by decide, by decide⟩

/-- The byte 31 has the text `31` and the key `1f`, the byte 49 the text `49` and the key `31`. -/
def textClash : Transaction ℤ :=
  ⟨⟨.ofList [(lit "b", ⟨bytesSchema, .ofList [(lit "31", .ofList [(lit "k", .bytes [49])])]⟩)]⟩,
    [.insert (lit "b") (.ofList [(lit "k", .bytes [31])])]⟩

def rowsOf (db : RelationalDatabase ℤ) : Option (List (Row ℤ)) := (db.table (lit "t")).toOption.map fun t ↦ t.rows.values

/-- What succeeds one after the other is refused where the check fails. -/
theorem not_allOrNothing_of_refused {tx : Transaction ℤ} {e : RelError} (hpre : precheck tx.db tx.ops [] = .error e)
    (hrun : ∃ db, applyOps tx.ops tx.db = .ok db) : ¬ AllOrNothing tx := by
  intro h
  obtain ⟨db, hdb⟩ := hrun
  have hcommit := (h.1 db).mpr hdb
  rw [Transaction.commit, hpre] at hcommit
  cases hcommit

theorem not_allOrNothing : ¬ AllOrNothing lateRefusal ∧ ¬ AllOrNothing textClash ∧ ¬ AllOrNothing reinsert := by
  refine ⟨fun h ↦ ?_, ?_, ?_⟩
  · have hadmitted : precheck lateRefusal.db lateRefusal.ops [] = .ok () := by decide +kernel
    have happly : applyOps lateRefusal.ops lateRefusal.db = .fail (.constraintError (lit "primary key is immutable"))
        ⟨.ofList [(lit "t",
          ⟨pairSchema, .ofList [(lit "1", pairRow 1 0), (lit "2", pairRow 2 0), (lit "3", pairRow 3 0)]⟩)]⟩ := by
      decide +kernel
    have hsame := h.2 (.constraintError (lit "primary key is immutable")) ⟨_, lateRefusal.ops⟩
      (by rw [Transaction.commit, hadmitted, happly])
    exact absurd (congrArg rowsOf hsame) (by decide +kernel)
  · have hrefused : precheck textClash.db textClash.ops [] =
        .error (.error (lit "duplicate primary key '31' in transaction")) := by decide +kernel
    have happly : applyOps textClash.ops textClash.db = .ok ⟨.ofList [(lit "b", ⟨bytesSchema,
        .ofList [(lit "31", .ofList [(lit "k", .bytes [49])]), (lit "1f", .ofList [(lit "k", .bytes [31])])]⟩)]⟩ := by
      decide +kernel
    exact not_allOrNothing_of_refused hrefused ⟨_, happly⟩
  · have happly : applyOps reinsert.ops reinsert.db =
        .ok ⟨.ofList [(lit "t", ⟨pairSchema, .ofList [(lit "2", pairRow 2 0), (lit "1", pairRow 1 7)]⟩)]⟩ := by
      decide +kernel
    have hrefused : precheck reinsert.db reinsert.ops [] =
        .error (.error (lit "duplicate primary key '1' in transaction")) := by decide +kernel
    exact not_allOrNothing_of_refused hrefused ⟨_, happly⟩

end TakyonDb.Relational
