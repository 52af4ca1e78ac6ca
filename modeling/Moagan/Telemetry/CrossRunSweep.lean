import Mathlib.Algebra.Group.Nat.Defs
import Moagan.Lib.Sweeps
import Moagan.Storage.Schema

/-!
# The sweep of rows whose run is gone (`src/telemetry/cross_run_sweep.rs`)

* `runColumns`      the columns that hold ids of runs, as the migrations declare them
* `Db`              the rows of the tables, with `NOT NULL` as a field
* `notIn`           `NOT IN`, which may be null
* `Connection`      the database and the open transaction; a statement that fails may end it
* `listOrphans`, `purgeOrphans`   the report of a dry run, and the sweep
* `purgeOrphans_iff`   what a database must meet for the sweep to be complete and its report true

A row is the values of its columns, none where a value is null.
-/

namespace Moagan.CrossRunSweep

open Storage Sweeps

/-! ## the tables -/

/-- a column with ids of runs, as a migration declares it -/
structure RunColumn where
  table : String
  column : String
  notNull : Bool
  /-- `REFERENCES runs(run_id)` -/
  references : Bool
deriving DecidableEq, Repr

/-- v001 to v019, in this order -/
def declaredColumns : List RunColumn :=
  [⟨"runs", "parent_run_id", false, true⟩,
    ⟨"run_siblings", "primary_run_id", true, true⟩,
    ⟨"run_siblings", "sibling_run_id", true, true⟩,
    ⟨"run_context_refs", "run_id", true, true⟩,
    ⟨"provider_changes", "run_id", true, true⟩,
    ⟨"provider_usage", "run_id", true, true⟩,
    ⟨"phases", "run_id", true, true⟩,
    ⟨"calls", "run_id", true, true⟩,
    ⟨"warnings", "run_id", true, true⟩,
    -- the table of v005, in the place of the one of v001
    ⟨"checkpoints", "run_id", true, true⟩,
    ⟨"problem_graphs", "run_id", true, true⟩,
    ⟨"outbox_events", "run_id", true, true⟩,
    ⟨"redact_audit", "run_id", false, true⟩,
    ⟨"manifest_events", "run_id", true, true⟩,
    ⟨"run_artifacts", "run_id", true, false⟩,
    -- `TEXT PRIMARY KEY`, which does not exclude null
    ⟨"budget_state", "run_id", false, true⟩,
    ⟨"budget_events", "run_id", true, true⟩,
    ⟨"manifest_versions", "run_id", true, false⟩,
    ⟨"run_state", "run_id", false, true⟩,
    ⟨"discovery_dedup", "run_id", true, false⟩,
    ⟨"plan_state", "run_id", true, false⟩,
    ⟨"saturation_events", "run_id", false, true⟩]

/-- the columns of the tables that the last version has -/
def runColumns : List RunColumn :=
  declaredColumns.filter fun c => (schemaAt 19).hasColumns c.table [c.column]

abbrev Row (V : Type) := String → Option V

structure Db (V : Type) where
  rows : String → List (Row V)
  notNull : ∀ c ∈ runColumns, c.notNull = true → ∀ row ∈ rows c.table, row c.column ≠ none

/-- `SELECT run_id FROM runs` -/
def Db.runIds {V : Type} (db : Db V) : List (Option V) := (db.rows "runs").map fun row => row "run_id"

/-! ## the entries of the sweep -/

structure SweepTable where
  table : String
  runIdColumn : String
  runIdIsNullable : Bool
  viaRunId : Bool
deriving DecidableEq, Repr

def SWEEP_TABLES : List SweepTable :=
  [⟨"calls", "run_id", false, true⟩,
    ⟨"phases", "run_id", false, true⟩,
    ⟨"checkpoints", "run_id", false, true⟩,
    ⟨"provider_usage", "run_id", false, true⟩,
    ⟨"run_context_refs", "run_id", false, true⟩,
    ⟨"provider_changes", "run_id", false, true⟩,
    ⟨"warnings", "run_id", false, true⟩,
    ⟨"problem_graphs", "run_id", false, true⟩,
    ⟨"outbox_events", "run_id", false, true⟩,
    ⟨"redact_audit", "run_id", true, true⟩,
    ⟨"manifest_events", "run_id", false, true⟩,
    ⟨"budget_state", "run_id", false, true⟩,
    ⟨"run_artifacts", "run_id", false, true⟩,
    ⟨"run_siblings", "primary_run_id", false, false⟩,
    ⟨"run_siblings", "sibling_run_id", false, false⟩]

structure OrphanTableStat where
  table : String
  runIdColumn : String
  runIdIsNullable : Bool
  viaRunId : Bool
  rows : ℕ
deriving DecidableEq, Repr

structure OrphanReport where
  tables : List OrphanTableStat
  totalRows : ℕ
deriving DecidableEq, Repr

def stat (t : SweepTable) (rows : ℕ) : OrphanTableStat :=
  ⟨t.table, t.runIdColumn, t.runIdIsNullable, t.viaRunId, rows⟩

/-- `saturating_add` of `i64` -/
def saturatingAdd (total rows : ℕ) : ℕ := min (total + rows) (2 ^ 63 - 1)

section
variable {V : Type} [DecidableEq V]

/-- `value NOT IN (ids)`, none when it is null -/
def notIn (value : Option V) (ids : List (Option V)) : Option Bool :=
  if ids = [] then some true
  else
    match value with
    | none => none
    | some v => if some v ∈ ids then some false else if none ∈ ids then none else some true

/-- `orphan_where`: the rows for which the condition is true -/
def orphanWhere (ids : List (Option V)) (t : SweepTable) (row : Row V) : Bool :=
  if t.viaRunId && t.runIdIsNullable then
    (row t.runIdColumn).isSome && notIn (row t.runIdColumn) ids == some true
  else notIn (row t.runIdColumn) ids == some true

/-- `count_query` -/
def Db.count (db : Db V) (t : SweepTable) : ℕ :=
  Sweeps.count SweepTable.table (orphanWhere db.runIds) db.rows t

/-- `delete_query` -/
def Db.delete (db : Db V) (t : SweepTable) : Db V where
  rows := strike SweepTable.table (orphanWhere db.runIds) db.rows t
  notNull c hc hnull row hrow := by
    rw [strike_apply] at hrow
    exact db.notNull c hc hnull row (List.mem_filter.mp hrow).1

/-! ## statements -/

/-- how a statement fails: the transaction stays open, or is rolled back -/
inductive Fault where
  | kept
  | rolledBack
deriving DecidableEq, Repr

inductive Statement where
  | begin
  | count (t : SweepTable)
  | delete (t : SweepTable)
  | commit
  | rollback
deriving DecidableEq, Repr

structure Connection (V : Type) where
  db : Db V
  /-- the database as the open transaction has it -/
  tx : Option (Db V)

namespace Connection

def view (conn : Connection V) : Db V := conn.tx.getD conn.db

def fail (conn : Connection V) : Fault → Connection V
  | .kept => conn
  | .rolledBack => { conn with tx := none }

/-- without a transaction a statement commits what it writes -/
def write (conn : Connection V) (db : Db V) : Connection V :=
  if conn.tx.isSome then { conn with tx := some db } else { conn with db := db }

variable (faults : Statement → Option Fault)

/-- `BEGIN IMMEDIATE`; transactions do not nest -/
def begin (conn : Connection V) : Connection V × Except Fault Unit :=
  if conn.tx.isSome then (conn, .error .kept)
  else
    match faults .begin with
    | some fault => (conn, .error fault)
    | none => ({ conn with tx := some conn.db }, .ok ())

def delete (conn : Connection V) (t : SweepTable) : Connection V × Except Fault ℕ :=
  match faults (.delete t) with
  | some fault => (conn.fail fault, .error fault)
  | none => (conn.write (conn.view.delete t), .ok (conn.view.count t))

def commit (conn : Connection V) : Connection V × Except Fault Unit :=
  match conn.tx, faults .commit with
  | none, _ => (conn, .error .kept)
  | some _, some fault => (conn.fail fault, .error fault)
  | some db, none => (⟨db, none⟩, .ok ())

/-- `let _ = conn.execute_batch("ROLLBACK")` -/
def rollback (conn : Connection V) : Connection V :=
  match faults .rollback with
  | some fault => conn.fail fault
  | none => { conn with tx := none }

end Connection

/-! ## the sweep -/

section
variable (faults : Statement → Option Fault)

def listLoop (conn : Connection V) (tables : List OrphanTableStat) (total : ℕ) :
    List SweepTable → Except Fault OrphanReport
  | [] => .ok ⟨tables, total⟩
  | t :: rest =>
    match faults (.count t) with
    | some fault => .error fault
    | none =>
      let rows := conn.view.count t
      listLoop conn (tables ++ [stat t rows]) (saturatingAdd total rows) rest

def listOrphans (conn : Connection V) : Except Fault OrphanReport :=
  listLoop faults conn [] 0 SWEEP_TABLES

/-- the loop of `purge_orphans` ends with the first failure -/
def purgeLoop (conn : Connection V) (tables : List OrphanTableStat) (total : ℕ) :
    List SweepTable → Connection V × Except Fault OrphanReport
  | [] => (conn, .ok ⟨tables, total⟩)
  | t :: rest =>
    match conn.delete faults t with
    | (conn, .error fault) => (conn, .error fault)
    | (conn, .ok rows) =>
      purgeLoop conn (tables ++ [stat t rows]) (saturatingAdd total rows) rest

def purgeOrphans (conn : Connection V) : Connection V × Except Fault OrphanReport :=
  match conn.begin faults with
  | (conn, .error fault) => (conn, .error fault)
  | (conn, .ok ()) =>
    match purgeLoop faults conn [] 0 SWEEP_TABLES with
    | (conn, .error fault) => (conn.rollback faults, .error fault)
    | (conn, .ok report) =>
      match conn.commit faults with
      | (conn, .error fault) => (conn, .error fault)
      | (conn, .ok ()) => (conn, .ok report)

end

/-! ## what the sweep is for -/

/-- the value names a run that does not exist -/
def Db.Missing (db : Db V) (value : Option V) : Prop := value ≠ none ∧ value ∉ db.runIds

/-- no foreign key names a run that does not exist -/
def Db.Complete (db : Db V) : Prop :=
  ∀ c ∈ runColumns, c.references = true → ∀ row ∈ db.rows c.table, ¬db.Missing (row c.column)

/-- each run of the row exists or is null -/
def Db.sound (db : Db V) (table : String) (row : Row V) : Bool :=
  runColumns.all fun c =>
    c.table != table || row c.column == none || decide (row c.column ∈ db.runIds)

/-- the rows whose runs exist or are null are the same -/
def Db.Keeps (db db' : Db V) : Prop :=
  ∀ table, (db'.rows table).filter (db.sound table) = (db.rows table).filter (db.sound table)

/-- the sweep is complete, keeps all else and reports what it does, or it changes nothing -/
def Truthful (faults : Statement → Option Fault) (conn : Connection V) : Prop :=
  match purgeOrphans faults conn with
  | (conn', .ok report) =>
    conn'.db.Complete ∧ conn.db.Keeps conn'.db ∧ listOrphans (fun _ => none) conn = .ok report
  | (conn', .error _) => conn' = conn

/-! ## the condition of an entry -/

variable {ids : List (Option V)} {t : SweepTable} {row : Row V} {db : Db V}

theorem notIn_some {v : V} : notIn (some v) ids = some true ↔ some v ∉ ids ∧ none ∉ ids := by
  unfold notIn
  by_cases hids : ids = []
  · rw [if_pos hids, hids]
    exact iff_of_true rfl ⟨List.not_mem_nil, List.not_mem_nil⟩
  · rw [if_neg hids]
    dsimp only
    by_cases hv : some v ∈ ids
    · rw [if_pos hv]
      exact iff_of_false (fun h => by cases h) fun h => h.1 hv
    · rw [if_neg hv]
      by_cases hn : none ∈ ids
      · rw [if_pos hn]
        exact iff_of_false (fun h => by cases h) fun h => h.2 hn
      · rw [if_neg hn]
        exact iff_of_true rfl ⟨hv, hn⟩

/-- nothing is outside of no rows, not even null -/
theorem notIn_none : notIn (none : Option V) ids = some true ↔ ids = [] := by
  unfold notIn
  by_cases hids : ids = []
  · rw [if_pos hids]
    exact iff_of_true rfl hids
  · rw [if_neg hids]
    exact iff_of_false (fun h => by cases h) hids

theorem orphanWhere_some {v : V} (h : row t.runIdColumn = some v) :
    orphanWhere ids t row = true ↔ some v ∉ ids ∧ none ∉ ids := by
  unfold orphanWhere
  rw [h, Option.isSome_some, Bool.true_and, ite_self, beq_iff_eq, notIn_some]

theorem orphanWhere_none (h : row t.runIdColumn = none) :
    orphanWhere ids t row = true ↔ (t.viaRunId && t.runIdIsNullable) = false ∧ ids = [] := by
  unfold orphanWhere
  rw [h]
  cases t.viaRunId && t.runIdIsNullable with
  | true => exact iff_of_false (by simp) (by simp)
  | false =>
    rw [if_neg Bool.false_ne_true, beq_iff_eq, notIn_none]
    exact (and_iff_right rfl).symm

theorem orphanWhere_missing (hn : none ∉ db.runIds) (h : db.Missing (row t.runIdColumn)) :
    orphanWhere db.runIds t row = true := by
  cases hv : row t.runIdColumn with
  | none => exact absurd hv h.1
  | some v => exact (orphanWhere_some hv).mpr ⟨hv ▸ h.2, hn⟩

/-- a run without an id hides every orphan -/
theorem orphanWhere_null (hn : none ∈ db.runIds) : orphanWhere db.runIds t row = false := by
  by_contra h
  have h := Bool.of_not_eq_false h
  cases hv : row t.runIdColumn with
  | none =>
    rw [((orphanWhere_none hv).mp h).2] at hn
    cases hn
  | some v => exact ((orphanWhere_some hv).mp h).2 hn

/-! ## all entries, one after the other -/

def Db.swept (db : Db V) (ts : List SweepTable) : Db V := ts.foldl Db.delete db

def deletedCounts : Db V → List SweepTable → List ℕ
  | _, [] => []
  | db, t :: ts => db.count t :: deletedCounts (db.delete t) ts

theorem delete_runIds (db : Db V) (h : t.table ≠ "runs") : (db.delete t).runIds = db.runIds := by
  unfold Db.runIds Db.delete
  dsimp only
  rw [strike, Function.update_of_ne h.symm]

theorem swept_eq (ts : List SweepTable) (h : ∀ t ∈ ts, t.table ≠ "runs") : ∀ db : Db V,
    (db.swept ts).rows = ts.foldl (strike SweepTable.table (orphanWhere db.runIds)) db.rows ∧
      deletedCounts db ts = counts SweepTable.table (orphanWhere db.runIds) db.rows ts := by
  induction ts with
  | nil => exact fun _ => ⟨rfl, rfl⟩
  | cons t ts ih =>
    intro db
    obtain ⟨hrows, hcounts⟩ := ih (fun t' ht' => h t' (List.mem_cons_of_mem _ ht')) (db.delete t)
    rw [delete_runIds db (h t List.mem_cons_self)] at hrows hcounts
    exact ⟨hrows, congrArg (_ :: ·) hcounts⟩

theorem table_ne_runs : ∀ t ∈ SWEEP_TABLES, t.table ≠ "runs" := by decide

/-- what the sweep leaves of a table -/
theorem swept_rows (db : Db V) (table : String) : (db.swept SWEEP_TABLES).rows table =
    (db.rows table).filter (spared SweepTable.table (orphanWhere db.runIds) SWEEP_TABLES table) := by
  rw [(swept_eq SWEEP_TABLES table_ne_runs db).1, strike_all]

theorem mem_swept {table : String} : row ∈ (db.swept SWEEP_TABLES).rows table ↔
    row ∈ db.rows table ∧
      ∀ t ∈ SWEEP_TABLES, t.table = table → orphanWhere db.runIds t row = false := by
  rw [swept_rows, List.mem_filter, spared_iff]

theorem swept_runIds (db : Db V) : (db.swept SWEEP_TABLES).runIds = db.runIds := by
  unfold Db.runIds
  rw [swept_rows, List.filter_eq_self.mpr fun row _ => ?_]
  exact spared_iff.mpr fun t ht htable => absurd htable (table_ne_runs t ht)

theorem swept_missing {value : Option V} :
    (db.swept SWEEP_TABLES).Missing value ↔ db.Missing value := by
  unfold Db.Missing
  rw [swept_runIds]

/-! ## the columns and the entries -/

/-- the tables of the other columns are dropped by v016 and v017 -/
theorem runColumns_eq : runColumns = declaredColumns.filter fun c =>
    c.table ∉ ["budget_events", "manifest_versions", "run_state", "discovery_dedup",
      "plan_state"] := by
  decide +kernel

/-- two columns that name runs have no entry -/
theorem columns_swept : ∀ c ∈ runColumns, c.references = true →
    (∃ t ∈ SWEEP_TABLES, t.table = c.table ∧ t.runIdColumn = c.column) ∨
      (c.table = "saturation_events" ∧ c.column = "run_id") ∨
      (c.table = "runs" ∧ c.column = "parent_run_id") := by
  rw [runColumns_eq]
  decide

/-- one column may be null that no entry expects to be -/
theorem columns_null : ∀ t ∈ SWEEP_TABLES, ∃ c ∈ runColumns,
    c.table = t.table ∧ c.column = t.runIdColumn ∧
      ((t.viaRunId && t.runIdIsNullable) = true ∨ c.notNull = true ∨
        (t.table = "budget_state" ∧ t.runIdColumn = "run_id")) := by
  rw [runColumns_eq]
  decide

def eventsColumn : RunColumn := ⟨"saturation_events", "run_id", false, true⟩

def parentColumn : RunColumn := ⟨"runs", "parent_run_id", false, true⟩

def primaryEntry : SweepTable := ⟨"run_siblings", "primary_run_id", false, false⟩

def siblingEntry : SweepTable := ⟨"run_siblings", "sibling_run_id", false, false⟩

def budgetEntry : SweepTable := ⟨"budget_state", "run_id", false, true⟩

theorem events_mem : eventsColumn ∈ runColumns := by
  rw [runColumns_eq]
  decide

theorem parent_mem : parentColumn ∈ runColumns := by
  rw [runColumns_eq]
  decide

theorem budget_column : ∀ c ∈ runColumns, c.table = "budget_state" → c.column = "run_id" := by
  rw [runColumns_eq]
  decide

theorem siblings_notNull : ∀ c ∈ ["primary_run_id", "sibling_run_id"],
    (⟨"run_siblings", c, true, true⟩ : RunColumn) ∈ runColumns := by
  rw [runColumns_eq]
  decide

/-- one table only has two entries -/
theorem tables_distinct : SWEEP_TABLES.Pairwise fun t t' =>
    t.table = t'.table → t = primaryEntry ∧ t' = siblingEntry := by
  decide

/-! ## what the sweep does to a database -/

/-- what the sweep relies on -/
structure Db.Purgeable (db : Db V) : Prop where
  events : ∀ row ∈ db.rows "saturation_events", ¬db.Missing (row "run_id")
  parents : ∀ row ∈ db.rows "runs", ¬db.Missing (row "parent_run_id")
  /-- where a run has no id, no entry finds a row -/
  ids : none ∈ db.runIds → db.Complete
  /-- where there are no runs, null is not one of them -/
  nulls : db.runIds = [] → ∀ row ∈ db.rows "budget_state", row "run_id" ≠ none
  /-- a row that both entries find is counted twice and deleted once -/
  siblings : ∀ row ∈ db.rows "run_siblings", db.Missing (row "primary_run_id") →
    ¬db.Missing (row "sibling_run_id")

/-- a table without an entry is as it was -/
theorem mem_swept_of_no_entry {table : String} (h : ∀ t ∈ SWEEP_TABLES, t.table ≠ table)
    (hrow : row ∈ db.rows table) : row ∈ (db.swept SWEEP_TABLES).rows table :=
  mem_swept.mpr ⟨hrow, fun t ht htable => absurd htable (h t ht)⟩

theorem complete_iff : (db.swept SWEEP_TABLES).Complete ↔
    (∀ row ∈ db.rows "saturation_events", ¬db.Missing (row "run_id")) ∧
      (∀ row ∈ db.rows "runs", ¬db.Missing (row "parent_run_id")) ∧
      (none ∈ db.runIds → db.Complete) := by
  constructor
  · intro h
    refine ⟨fun row hrow hmiss => ?_, fun row hrow hmiss => ?_, fun hn c hc href row hrow hmiss => ?_⟩
    · exact h eventsColumn events_mem rfl row (mem_swept_of_no_entry (by decide) hrow)
        (swept_missing.mpr hmiss)
    · exact h parentColumn parent_mem rfl row (mem_swept_of_no_entry (by decide) hrow)
        (swept_missing.mpr hmiss)
    · exact h c hc href row (mem_swept.mpr ⟨hrow, fun t _ _ => orphanWhere_null hn⟩)
        (swept_missing.mpr hmiss)
  · intro ⟨hevents, hparents, hids⟩ c hc href row hrow hmiss
    obtain ⟨hrow, hspared⟩ := mem_swept.mp hrow
    have hmiss := swept_missing.mp hmiss
    by_cases hn : none ∈ db.runIds
    · exact hids hn c hc href row hrow hmiss
    · obtain ⟨t, ht, htable, hcolumn⟩ | ⟨htable, hcolumn⟩ | ⟨htable, hcolumn⟩ :=
        columns_swept c hc href
      · rw [← hcolumn] at hmiss
        have hhit := orphanWhere_missing (t := t) hn hmiss
        rw [hspared t ht htable] at hhit
        cases hhit
      · rw [htable] at hrow
        rw [hcolumn] at hmiss
        exact hevents row hrow hmiss
      · rw [htable] at hrow
        rw [hcolumn] at hmiss
        exact hparents row hrow hmiss

theorem sound_iff {table : String} : db.sound table row = true ↔
    ∀ c ∈ runColumns, c.table = table → row c.column = none ∨ row c.column ∈ db.runIds := by
  unfold Db.sound
  simp only [List.all_eq_true, Bool.or_eq_true, bne_iff_ne, beq_iff_eq, decide_eq_true_eq]
  exact forall₂_congr fun c _ => by rw [or_assoc, ne_eq, ← imp_iff_not_or]

theorem keeps_iff : db.Keeps (db.swept SWEEP_TABLES) ↔
    (db.runIds = [] → ∀ row ∈ db.rows "budget_state", row "run_id" ≠ none) := by
  have hfilter : ∀ table, ((db.swept SWEEP_TABLES).rows table).filter (db.sound table) =
      (db.rows table).filter (db.sound table) ↔ ∀ row ∈ db.rows table,
        db.sound table row = true → ∀ t ∈ SWEEP_TABLES, t.table = table →
          orphanWhere db.runIds t row = false := by
    intro table
    rw [swept_rows, List.filter_comm, List.filter_eq_self]
    constructor
    · intro h row hrow hsound
      exact spared_iff.mp (h row (List.mem_filter.mpr ⟨hrow, hsound⟩))
    · intro h row hrow
      obtain ⟨hrow, hsound⟩ := List.mem_filter.mp hrow
      exact spared_iff.mpr (h row hrow hsound)
  unfold Db.Keeps
  simp only [hfilter]
  constructor
  · intro h hids row hrow hnull
    have hsound : db.sound "budget_state" row = true :=
      sound_iff.mpr fun c hc htable => .inl (budget_column c hc htable ▸ hnull)
    have hspared := h "budget_state" row hrow hsound budgetEntry (by decide) rfl
    rw [(orphanWhere_none (t := budgetEntry) hnull).mpr ⟨rfl, hids⟩] at hspared
    cases hspared
  · intro h table row hrow hsound t ht htable
    obtain ⟨c, hc, hctable, hcolumn, hkind⟩ := columns_null t ht
    have hvalue := sound_iff.mp hsound c hc (hctable.trans htable)
    rw [hcolumn] at hvalue
    by_contra hhit
    have hhit := Bool.of_not_eq_false hhit
    cases hv : row t.runIdColumn with
    | some v => exact ((orphanWhere_some hv).mp hhit).1 (hv ▸ hvalue.resolve_left (hv ▸ by simp))
    | none =>
      obtain ⟨hguard, hids⟩ := (orphanWhere_none hv).mp hhit
      obtain hkind | hkind | ⟨hbudget, hrun⟩ := hkind
      · rw [hguard] at hkind
        cases hkind
      · rw [← htable, ← hctable] at hrow
        exact db.notNull c hc hkind row hrow (hcolumn ▸ hv)
      · rw [← htable, hbudget] at hrow
        exact h hids row hrow (hrun ▸ hv)

/-- an entry of `run_siblings` finds the rows whose run is missing -/
theorem orphanWhere_siblings (hn : none ∉ db.runIds) (hrow : row ∈ db.rows "run_siblings")
    {column : String} (hc : column ∈ ["primary_run_id", "sibling_run_id"]) :
    orphanWhere db.runIds ⟨"run_siblings", column, false, false⟩ row = true ↔
      db.Missing (row column) := by
  refine ⟨fun h => ?_, orphanWhere_missing (t := ⟨_, column, _, _⟩) hn⟩
  have hnull := db.notNull _ (siblings_notNull column hc) rfl row hrow
  obtain ⟨v, hv⟩ := Option.ne_none_iff_exists'.mp hnull
  have hmem := ((orphanWhere_some (t := ⟨"run_siblings", column, false, false⟩) hv).mp h).1
  exact ⟨hnull, hv ▸ hmem⟩

theorem counts_iff (hids : none ∈ db.runIds → db.Complete) :
    deletedCounts db SWEEP_TABLES = SWEEP_TABLES.map db.count ↔
      ∀ row ∈ db.rows "run_siblings", db.Missing (row "primary_run_id") →
        ¬db.Missing (row "sibling_run_id") := by
  rw [(swept_eq SWEEP_TABLES table_ne_runs db).2]
  refine (counts_eq_iff db.rows SWEEP_TABLES).trans ⟨fun h row hrow hprimary hsibling => ?_,
    fun h => tables_distinct.imp fun hpair htable row hrow hhit => ?_⟩
  · by_cases hn : none ∈ db.runIds
    · exact hids hn _ (siblings_notNull "primary_run_id" (by decide)) rfl row hrow hprimary
    · have htwo : [primaryEntry, siblingEntry].Sublist SWEEP_TABLES := by decide
      have hfree := List.pairwise_pair.mp (h.sublist htwo) rfl row hrow
        ((orphanWhere_siblings hn hrow (by decide)).mpr hprimary)
      have hhit := (orphanWhere_siblings hn hrow (by decide)).mpr hsibling
      exact Bool.false_ne_true (hfree.symm.trans hhit)
  · obtain ⟨rfl, rfl⟩ := hpair htable
    by_contra hhit'
    have hhit' := Bool.of_not_eq_false hhit'
    have hn : none ∉ db.runIds := fun hn => Bool.false_ne_true ((orphanWhere_null hn).symm.trans hhit)
    exact h row hrow ((orphanWhere_siblings hn hrow (by decide)).mp hhit)
      ((orphanWhere_siblings hn hrow (by decide)).mp hhit')

/-! ## the reports -/

/-- the report of these counts, behind what is reported already -/
def reportOf (tables : List OrphanTableStat) (total : ℕ) (ts : List SweepTable) (ns : List ℕ) :
    OrphanReport := ⟨tables ++ List.zipWith stat ts ns, ns.foldl saturatingAdd total⟩

theorem deletedCounts_length (ts : List SweepTable) : ∀ db : Db V,
    (deletedCounts db ts).length = ts.length := by
  induction ts with
  | nil => exact fun _ => rfl
  | cons t ts ih => exact fun db => congrArg (· + 1) (ih (db.delete t))

theorem zipWith_stat_rows (ts : List SweepTable) : ∀ ns : List ℕ, ns.length = ts.length →
    (List.zipWith stat ts ns).map OrphanTableStat.rows = ns := by
  induction ts with
  | nil => exact fun ns h => (List.length_eq_zero_iff.mp h).symm
  | cons t ts ih =>
    intro ns h
    cases ns with
    | nil => cases h
    | cons n ns => exact congrArg (n :: ·) (ih ns (Nat.succ.inj h))

/-- a report tells its counts -/
theorem reportOf_inj {ts : List SweepTable} {ns ns' : List ℕ} (h : ns.length = ts.length)
    (h' : ns'.length = ts.length) : reportOf [] 0 ts ns = reportOf [] 0 ts ns' ↔ ns = ns' := by
  refine ⟨fun heq => ?_, congrArg _⟩
  have hrows := congrArg (fun r => r.tables.map OrphanTableStat.rows) heq
  exact (zipWith_stat_rows ts ns h).symm.trans (hrows.trans (zipWith_stat_rows ts ns' h'))

theorem reportOf_cons (tables : List OrphanTableStat) (total n : ℕ) (t : SweepTable)
    (ts : List SweepTable) (ns : List ℕ) :
    reportOf tables total (t :: ts) (n :: ns) =
      reportOf (tables ++ [stat t n]) (saturatingAdd total n) ts ns := by
  unfold reportOf
  rw [List.append_assoc]
  rfl

variable {conn : Connection V}

theorem listLoop_ok (ts : List SweepTable) : ∀ tables total,
    listLoop (fun _ => none) conn tables total ts =
      .ok (reportOf tables total ts (ts.map conn.view.count)) := by
  induction ts with
  | nil =>
    intro tables total
    unfold reportOf
    rw [List.zipWith_nil_left, List.append_nil]
    rfl
  | cons t ts ih =>
    intro tables total
    rw [List.map_cons, reportOf_cons]
    exact ih _ _

variable {faults : Statement → Option Fault} {w : Db V}

theorem purgeLoop_ok (ts : List SweepTable) (h : ∀ t ∈ ts, faults (.delete t) = none) :
    ∀ (w : Db V) (tables : List OrphanTableStat) (total : ℕ),
    purgeLoop faults ⟨db, some w⟩ tables total ts =
      (⟨db, some (w.swept ts)⟩, .ok (reportOf tables total ts (deletedCounts w ts))) := by
  induction ts with
  | nil =>
    intro w tables total
    unfold reportOf
    rw [List.zipWith_nil_left, List.append_nil]
    rfl
  | cons t ts ih =>
    intro w tables total
    have ht := h t List.mem_cons_self
    unfold purgeLoop Connection.delete
    rw [ht]
    refine (ih (fun t' ht' => h t' (List.mem_cons_of_mem _ ht')) (w.delete t) _ _).trans ?_
    rw [← reportOf_cons]
    rfl

/-- the failure of the entry that fails first -/
def firstFault (faults : Statement → Option Fault) (ts : List SweepTable) : Option Fault :=
  ts.findSome? fun t => faults (.delete t)

theorem purgeLoop_error (ts : List SweepTable) {fault : Fault}
    (h : firstFault faults ts = some fault) (db : Db V) :
    ∀ (w : Db V) (tables : List OrphanTableStat) (total : ℕ),
    ∃ w', purgeLoop faults ⟨db, some w⟩ tables total ts =
      ((⟨db, some w'⟩ : Connection V).fail fault, .error fault) := by
  induction ts with
  | nil => cases h
  | cons t ts ih =>
    intro w tables total
    unfold firstFault at h
    rw [List.findSome?_cons] at h
    unfold purgeLoop Connection.delete
    cases ht : faults (.delete t) with
    | some fault' =>
      rw [ht] at h
      obtain rfl := Option.some.inj h
      exact ⟨w, rfl⟩
    | none =>
      rw [ht] at h
      exact ih h (w.delete t) _ _

/-! ## the sweep as a whole -/

/-- a transaction begins -/
def Begun (faults : Statement → Option Fault) (conn : Connection V) : Prop :=
  conn.tx = none ∧ faults .begin = none

/-- the four ways in which a sweep ends -/
theorem purgeOrphans_cases (faults : Statement → Option Fault) (conn : Connection V) :
    (¬Begun faults conn ∧ ∃ fault, purgeOrphans faults conn = (conn, .error fault)) ∨
      Begun faults conn ∧
      ((∃ fault w, firstFault faults SWEEP_TABLES = some fault ∧ purgeOrphans faults conn =
          (((⟨conn.db, some w⟩ : Connection V).fail fault).rollback faults, .error fault)) ∨
        firstFault faults SWEEP_TABLES = none ∧
        ((∃ fault w, faults .commit = some fault ∧ purgeOrphans faults conn =
            ((⟨conn.db, some w⟩ : Connection V).fail fault, .error fault)) ∨
          (faults .commit = none ∧ purgeOrphans faults conn =
            (⟨conn.db.swept SWEEP_TABLES, none⟩,
              .ok (reportOf [] 0 SWEEP_TABLES (deletedCounts conn.db SWEEP_TABLES)))))) := by
  obtain ⟨db, tx⟩ := conn
  cases tx with
  | some w => exact .inl ⟨fun h => (by cases h.1), .kept, rfl⟩
  | none =>
    unfold purgeOrphans
    cases hb : faults .begin with
    | some fault =>
      refine .inl ⟨fun h => (by cases hb.symm.trans h.2), fault, ?_⟩
      unfold Connection.begin
      rw [hb]
      rfl
    | none =>
      have hbegin : Connection.begin faults ⟨db, none⟩ = (⟨db, some db⟩, .ok ()) := by
        unfold Connection.begin
        rw [hb]
        rfl
      rw [hbegin]
      refine .inr ⟨⟨rfl, hb⟩, ?_⟩
      cases hf : firstFault faults SWEEP_TABLES with
      | some fault =>
        obtain ⟨w, hw⟩ := purgeLoop_error SWEEP_TABLES hf db db [] 0
        dsimp only
        rw [hw]
        exact .inl ⟨fault, w, rfl, rfl⟩
      | none =>
        dsimp only
        rw [purgeLoop_ok SWEEP_TABLES (List.findSome?_eq_none_iff.mp hf)]
        unfold Connection.commit
        refine .inr ⟨rfl, ?_⟩
        cases hc : faults .commit with
        | some fault => exact .inl ⟨fault, db.swept SWEEP_TABLES, rfl, rfl⟩
        | none => exact .inr ⟨rfl, rfl⟩

/-- where the sweep commits, the database is what the sweep relies on; where it fails, the
transaction ends -/
structure Clean (faults : Statement → Option Fault) (conn : Connection V) : Prop where
  purgeable : Begun faults conn → firstFault faults SWEEP_TABLES = none → faults .commit = none →
    conn.db.Purgeable
  /-- a failed `COMMIT` is not followed by a `ROLLBACK` -/
  commit : Begun faults conn → firstFault faults SWEEP_TABLES = none → faults .commit ≠ some .kept
  rollback : Begun faults conn → firstFault faults SWEEP_TABLES = some .kept →
    faults .rollback ≠ some .kept

omit [DecidableEq V] in
theorem fail_eq_iff {fault : Fault} :
    (⟨db, some w⟩ : Connection V).fail fault = ⟨db, none⟩ ↔ fault ≠ .kept := by
  cases fault with
  | kept => exact iff_of_false (fun h => by cases congrArg Connection.tx h) fun h => h rfl
  | rolledBack => exact iff_of_true rfl fun h => by cases h

omit [DecidableEq V] in
theorem rollback_eq_iff {fault : Fault} :
    ((⟨db, some w⟩ : Connection V).fail fault).rollback faults = ⟨db, none⟩ ↔
      (fault = .kept → faults .rollback ≠ some .kept) := by
  unfold Connection.rollback
  cases fault with
  | kept =>
    cases hr : faults .rollback with
    | none => exact iff_of_true rfl fun _ h => by cases h
    | some fault' =>
      refine fail_eq_iff.trans ⟨fun h _ heq => h (Option.some.inj heq), fun h heq => ?_⟩
      exact h rfl (congrArg some heq)
  | rolledBack =>
    refine iff_of_true ?_ fun h => by cases h
    cases faults .rollback with
    | none => rfl
    | some fault' => cases fault' <;> rfl

theorem purgeable_iff : db.Purgeable ↔
    (db.swept SWEEP_TABLES).Complete ∧ db.Keeps (db.swept SWEEP_TABLES) ∧
      deletedCounts db SWEEP_TABLES = SWEEP_TABLES.map db.count := by
  constructor
  · intro h
    exact ⟨complete_iff.mpr ⟨h.events, h.parents, h.ids⟩, keeps_iff.mpr h.nulls,
      (counts_iff h.ids).mpr h.siblings⟩
  · intro ⟨hcomplete, hkeeps, hcounts⟩
    obtain ⟨hevents, hparents, hids⟩ := complete_iff.mp hcomplete
    exact ⟨hevents, hparents, hids, keeps_iff.mp hkeeps, (counts_iff hids).mp hcounts⟩

/-- a sweep that commits does what it should when the database is what it relies on -/
theorem truthful_of_commit (hrun : purgeOrphans faults ⟨db, none⟩ =
    (⟨db.swept SWEEP_TABLES, none⟩,
      .ok (reportOf [] 0 SWEEP_TABLES (deletedCounts db SWEEP_TABLES)))) :
    Truthful faults ⟨db, none⟩ ↔ db.Purgeable := by
  have hlist : listOrphans (fun _ => none) (⟨db, none⟩ : Connection V) =
      .ok (reportOf [] 0 SWEEP_TABLES (SWEEP_TABLES.map db.count)) := listLoop_ok ..
  have hreport : listOrphans (fun _ => none) (⟨db, none⟩ : Connection V) =
      .ok (reportOf [] 0 SWEEP_TABLES (deletedCounts db SWEEP_TABLES)) ↔
        deletedCounts db SWEEP_TABLES = SWEEP_TABLES.map db.count := by
    rw [hlist, Except.ok.injEq, reportOf_inj (List.length_map _) (deletedCounts_length _ _)]
    exact eq_comm
  unfold Truthful
  rw [hrun]
  dsimp only
  rw [hreport, ← purgeable_iff]

/-- **The sweep does what it should exactly when these conditions hold.** -/
theorem purgeOrphans_iff (faults : Statement → Option Fault) (conn : Connection V) :
    Truthful faults conn ↔ Clean faults conn := by
  obtain ⟨hb, fault, hrun⟩ | ⟨hb, ⟨fault, w, hf, hrun⟩ | ⟨hf, ⟨fault, w, hc, hrun⟩ | ⟨hc, hrun⟩⟩⟩ :=
    purgeOrphans_cases faults conn
  · unfold Truthful
    rw [hrun]
    exact iff_of_true rfl ⟨fun h => absurd h hb, fun h => absurd h hb, fun h => absurd h hb⟩
  · obtain ⟨db, tx⟩ := conn
    obtain rfl : tx = none := hb.1
    unfold Truthful
    rw [hrun]
    refine rollback_eq_iff.trans ⟨fun h => ⟨fun _ hf' => ?_, fun _ hf' => ?_, fun _ hf' => ?_⟩,
      fun h hkept => h.rollback hb (hf.trans (congrArg some hkept))⟩
    · cases hf.symm.trans hf'
    · cases hf.symm.trans hf'
    · exact h (Option.some.inj (hf.symm.trans hf'))
  · obtain ⟨db, tx⟩ := conn
    obtain rfl : tx = none := hb.1
    unfold Truthful
    rw [hrun]
    refine fail_eq_iff.trans ⟨fun h => ⟨fun _ _ hc' => ?_, fun _ _ hc' => ?_, fun _ hf' => ?_⟩,
      fun h hkept => h.commit hb hf (hc.trans (congrArg some hkept))⟩
    · cases hc.symm.trans hc'
    · exact h (Option.some.inj (hc.symm.trans hc'))
    · cases hf.symm.trans hf'
  · obtain ⟨db, tx⟩ := conn
    obtain rfl : tx = none := hb.1
    refine (truthful_of_commit hrun).trans
      ⟨fun h => ⟨fun _ _ _ => h, fun _ _ hc' => ?_, fun _ hf' => ?_⟩,
        fun h => h.purgeable hb hf hc⟩
    · cases hc.symm.trans hc'
    · cases hf.symm.trans hf'

end

/-! ## an event of a run that is gone -/

theorem events_null : ∀ c ∈ runColumns, c.notNull = true → c.table ≠ "saturation_events" := by
  rw [runColumns_eq]
  decide

/-- a saturation event, and no run -/
def goneEvent : Db String where
  rows table :=
    if table = "saturation_events" then [fun c => if c = "run_id" then some "gone" else none]
    else []
  notNull c hc hnull row hrow := by
    rw [if_neg (events_null c hc hnull)] at hrow
    cases hrow

theorem purgeOrphans_gone : ¬Truthful (fun _ => none) ⟨goneEvent, none⟩ := by
  rw [truthful_of_commit rfl]
  intro h
  refine h.events _ (List.mem_singleton_self _) ⟨?_, ?_⟩
  · exact Option.some_ne_none "gone"
  · exact List.not_mem_nil

end Moagan.CrossRunSweep
