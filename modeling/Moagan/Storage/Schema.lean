import Mathlib.Data.Nat.Notation

/-!
# The schema of the meta-database and its migrations (`src/storage/sqlite.rs`, `migrations/*.sql`)

* `Schema`          the tables with their columns
* `Sql.exec`        what a statement does to the schema, none when it fails
* `migration`       the statements of the 19 steps
* `migration_ok`    run in order from the empty database, every step succeeds
* `first_replay`    a statement of v001 does nothing where it has run before

Rows, types and constraints of columns are left out: no statement of a migration fails on them.
-/

namespace Moagan.Storage

/-- the tables, each with its columns -/
abbrev Schema := List (String × List String)

namespace Schema

def columns (s : Schema) (table : String) : Option (List String) :=
  (s.find? fun e => e.1 = table).map Prod.snd

def hasColumns (s : Schema) (table : String) (cols : List String) : Bool :=
  match s.columns table with
  | none => false
  | some cs => cols.all fun c => c ∈ cs

def drop (s : Schema) (table : String) : Schema := s.filter fun e => e.1 ≠ table

/-- `column_exists` -/
def columnExists (s : Schema) (table column : String) : Bool := s.hasColumns table [column]

end Schema

inductive Sql where
  /-- a `PRAGMA` that the schema does not depend on -/
  | pragma
  /-- `CREATE TABLE IF NOT EXISTS` -/
  | createTable (table : String) (cols : List String)
  /-- `CREATE INDEX IF NOT EXISTS`; an index goes with its table -/
  | createIndex (table : String) (cols : List String)
  /-- `ALTER TABLE … ADD COLUMN` -/
  | addColumn (table column : String)
  /-- the same behind `column_exists` -/
  | addMissingColumn (table column : String)
  /-- `INSERT INTO … SELECT … FROM` -/
  | insertSelect (into : String) (cols : List String) (source : String) (selected : List String)
  | dropTable (table : String)
  | dropTableIfExists (table : String)
  /-- `ALTER TABLE … RENAME TO` -/
  | rename (table name : String)
deriving DecidableEq, Repr

def addColumn (s : Schema) (table column : String) : Option Schema :=
  if (s.columns table).isSome && !s.columnExists table column then
    some (s.map fun e => if e.1 = table then (e.1, e.2 ++ [column]) else e)
  else none

def Sql.exec (s : Schema) : Sql → Option Schema
  | .pragma => some s
  | .createTable table cols => some (if (s.columns table).isSome then s else s ++ [(table, cols)])
  | .createIndex table cols => if s.hasColumns table cols then some s else none
  | .addColumn table column => Storage.addColumn s table column
  | .addMissingColumn table column =>
    if s.columnExists table column then some s else Storage.addColumn s table column
  | .insertSelect into cols source selected =>
    if s.hasColumns into cols && s.hasColumns source selected then some s else none
  | .dropTable table => if (s.columns table).isSome then some (s.drop table) else none
  | .dropTableIfExists table => some (s.drop table)
  | .rename table name =>
    if (s.columns table).isSome && !(s.columns name).isSome then
      some (s.map fun e => if e.1 = table then (name, e.2) else e)
    else none

/-- the statements of a step, up to the first that fails -/
def execAll (s : Schema) : List Sql → Option Schema
  | [] => some s
  | q :: qs => (q.exec s).bind fun s' => execAll s' qs

/-! ## the steps -/

def v001 : List Sql :=
  [.pragma, .pragma, .pragma,
    .createTable "runs" ["run_id", "mode", "status", "created_unix", "updated_unix",
      "schema_version", "client_version", "parent_run_id", "config_hash", "brief_hash"],
    .createIndex "runs" ["mode"], .createIndex "runs" ["status"],
    .createIndex "runs" ["created_unix"],
    .createTable "run_siblings" ["primary_run_id", "sibling_run_id", "relation", "created_unix"],
    .createTable "run_context_refs" ["run_id", "source_path", "shasum", "bytes", "added_unix"],
    .createTable "provider_changes" ["run_id", "seq", "phase", "from_name", "to_name", "at_unix",
      "reason"],
    .createTable "provider_usage" ["run_id", "provider", "model", "calls", "input_tokens",
      "output_tokens", "cache_read", "cache_creation", "last_call_unix"],
    .createTable "phases" ["run_id", "phase", "seq", "status", "started_unix", "ended_unix",
      "error"],
    .createTable "calls" ["call_id", "run_id", "phase", "role", "provider", "model", "cache_key",
      "cache_hit", "http_status", "input_tokens", "output_tokens", "cache_read", "cache_creation",
      "started_unix", "ended_unix", "error"],
    .createIndex "calls" ["run_id", "phase"], .createIndex "calls" ["cache_key"],
    .createTable "checkpoints" ["run_id", "seq", "kind", "resolved", "note", "created_unix",
      "resolved_unix"]]

def v002 : List Sql :=
  [.createTable "warnings" ["id", "run_id", "at_unix_ms", "code", "level", "phase", "role",
      "call_id", "attempt", "message", "details"],
    .createIndex "warnings" ["run_id", "code"], .createIndex "warnings" ["run_id", "at_unix_ms"]]

def v003 : List Sql :=
  [.addColumn "calls" "status", .createIndex "calls" ["run_id", "status"]]

def v004 : List Sql :=
  [.addColumn "calls" "body_sha256", .createIndex "calls" ["run_id", "body_sha256"]]

def v005 : List Sql :=
  [.addColumn "checkpoints" "ckp_id", .addColumn "checkpoints" "question",
    .addColumn "checkpoints" "response", .addColumn "checkpoints" "accepted_default",
    .addColumn "checkpoints" "at_unix", .pragma,
    .createTable "checkpoints_new" ["run_id", "ckp_id", "kind", "question", "response",
      "accepted_default", "at_unix", "seq", "resolved", "note", "created_unix", "resolved_unix"],
    .insertSelect "checkpoints_new" ["run_id", "ckp_id", "kind", "seq", "resolved", "created_unix"]
      "checkpoints" ["run_id", "seq", "kind", "resolved", "created_unix"],
    .dropTable "checkpoints", .rename "checkpoints_new" "checkpoints",
    .createIndex "checkpoints" ["run_id", "kind"], .createIndex "checkpoints" ["at_unix"], .pragma]

def v006 : List Sql :=
  [.createTable "problem_graphs" ["run_id", "brief_blake3", "should_decompose", "node_count",
      "at_unix"],
    .createIndex "problem_graphs" ["should_decompose"], .createIndex "problem_graphs" ["at_unix"]]

/-- `apply_v007_idempotent` -/
def v007 : List Sql :=
  [.addMissingColumn "runs" "shared_brief_hash",
    .addMissingColumn "run_context_refs" "context_type",
    .addMissingColumn "run_siblings" "relation", .addMissingColumn "run_siblings" "created_unix"]

def v008 : List Sql :=
  [.createTable "outbox_events" ["id", "run_id", "event_type", "payload", "at_unix"],
    .createIndex "outbox_events" ["run_id", "at_unix"],
    .createIndex "outbox_events" ["event_type", "at_unix"],
    .createTable "redact_audit" ["id", "run_id", "source_path", "pattern_kind", "match_count",
      "at_unix"],
    .createIndex "redact_audit" ["run_id", "at_unix"],
    .createIndex "redact_audit" ["pattern_kind", "at_unix"],
    .createTable "manifest_events" ["id", "run_id", "event_type", "details", "at_unix"],
    .createIndex "manifest_events" ["run_id", "at_unix"],
    .createIndex "manifest_events" ["event_type", "at_unix"],
    .createTable "process_locks" ["holder", "acquired_at_unix", "expires_at_unix", "fence"],
    .createIndex "process_locks" ["expires_at_unix"],
    .createTable "provider_rollups" ["provider", "model", "calls", "input_tokens", "output_tokens",
      "errors", "last_call_unix"],
    .createIndex "provider_rollups" ["last_call_unix"]]

/-- `apply_v009_idempotent` -/
def v009 : List Sql :=
  [.addMissingColumn "runs" "stability_score", .addMissingColumn "runs" "stability_label",
    .addMissingColumn "runs" "stability_sigma"]

def v010 : List Sql :=
  [.createTable "run_artifacts" ["run_id", "kind", "count", "last_indexed_unix"],
    .createIndex "run_artifacts" ["run_id"]]

def v011 : List Sql :=
  [.createTable "budget_state" ["run_id", "planned_tokens", "used_tokens"],
    .createTable "budget_events" ["id", "run_id", "phase", "tokens", "at_unix"],
    .createIndex "budget_events" ["run_id", "at_unix"]]

def v012 : List Sql :=
  [.createTable "manifest_versions" ["run_id", "manifest_version", "written_at_unix"]]

def v013 : List Sql :=
  [.createTable "run_state" ["run_id", "state", "updated_unix"],
    .createTable "discovery_dedup" ["run_id", "fingerprint"],
    .createTable "plan_state" ["run_id", "phase", "state"]]

def v014 : List Sql :=
  [.addColumn "calls" "retry_count", .createIndex "calls" ["run_id", "retry_count"]]

def v015 : List Sql := [.addColumn "calls" "cost_usd"]

def v016 : List Sql :=
  [.pragma, .dropTableIfExists "run_state", .dropTableIfExists "discovery_dedup",
    .dropTableIfExists "plan_state", .dropTableIfExists "budget_events"]

def v017 : List Sql := [.pragma, .dropTableIfExists "manifest_versions"]

def v018 : List Sql :=
  [.pragma,
    .createTable "saturation_events" ["id", "run_id", "provider", "model", "kind", "threshold_pct",
      "observed_at_unix", "details"],
    .createIndex "saturation_events" ["provider", "observed_at_unix"],
    .createIndex "saturation_events" ["kind", "observed_at_unix"],
    .createIndex "saturation_events" ["run_id", "observed_at_unix"]]

/-- v019 probes the column -/
def v019 : List Sql := [.addMissingColumn "process_locks" "last_heartbeat_unix"]

def steps : List (List Sql) :=
  [v001, v002, v003, v004, v005, v006, v007, v008, v009, v010, v011, v012, v013, v014, v015, v016,
    v017, v018, v019]

/-- the step that leads to version `n`, from 1 on -/
def migration (n : ℕ) : List Sql := steps.getD (n - 1) []

/-! ## the schema behind the steps -/

/-- the schema behind the first `n` steps -/
def schemaAt : ℕ → Schema
  | 0 => []
  | n + 1 => (execAll (schemaAt n) (migration (n + 1))).getD []

/-- the schema behind the first `m` statements of v001 -/
def firstAt (m : ℕ) : Schema := (execAll [] (v001.take m)).getD []

/-- **Run in order, every step succeeds.** -/
theorem migration_ok (n : ℕ) (h : n < 19) :
    execAll (schemaAt n) (migration (n + 1)) = some (schemaAt (n + 1)) := by
  have hsome : ∀ n < 19, (execAll (schemaAt n) (migration (n + 1))).isSome = true := by
    decide +kernel
  obtain ⟨s, hs⟩ := Option.isSome_iff_exists.mp (hsome n h)
  show _ = some ((execAll (schemaAt n) (migration (n + 1))).getD [])
  rw [hs]
  rfl

theorem firstAt_length : firstAt v001.length = schemaAt 1 := by decide +kernel

/-- statement `k` of v001 does behind the first `m` what it should -/
def replays (m k : ℕ) : Bool :=
  (v001.getD k .pragma).exec (firstAt m) = some (firstAt (max m (k + 1)))

/-- **A statement of v001 goes on from where the others are, or does nothing.** -/
theorem first_replay (m k : ℕ) (hk : k ≤ m) (hm : m ≤ v001.length) (hk' : k < v001.length) :
    (v001.getD k .pragma).exec (firstAt m) = some (firstAt (max m (k + 1))) := by
  have hall : ∀ m < v001.length + 1, ∀ k < v001.length, k ≤ m → replays m k = true := by
    decide +kernel
  exact of_decide_eq_true (hall m (Nat.lt_succ_of_le hm) k hk' hk)

end Moagan.Storage
