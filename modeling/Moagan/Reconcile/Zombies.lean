import Mathlib.Data.Int.Order.Basic
import Mathlib.Data.List.Nodup
import Mathlib.Logic.Function.Basic
import Moagan.Lib.Runs

/-!
# Zombie recovery (`recover_zombies` in `src/reconcile/mod.rs`)

Recovery passes run beside the processes that write to the table `runs`.  Every SQL statement is
one atomic step and so is the transaction of `record_with`; the steps interleave in any order.

* `RunsTable`        the table `runs` with its primary key, and the statements on it
* `Phase`            between which two statements a pass stands
* `step`             one statement of a pass or of another process, or the end of a pass
* `EveryFlipAnnounced`  each run taken from `running` to `interrupted` has its event, or a later
  pass writes one
* `flips_announced`  it holds while no pass ends between its update and its event
* `flip_lost`        a crash in between loses the event: no later pass looks at the run again
-/

namespace Moagan.Reconcile

/-! ## the tables -/

/-- run ids and their text: `uuid` writes one spelling of an id and reads several -/
structure RunIdText (R : Type) where
  toText : R → String
  parse : String → Option R
  parse_toText : ∀ r, parse (toText r) = some r

theorem RunIdText.toText_inj {R : Type} (ids : RunIdText R) {r r' : R}
    (h : ids.toText r = ids.toText r') : r = r' := by
  have hp : ids.parse (ids.toText r) = ids.parse (ids.toText r') := by rw [h]
  rw [ids.parse_toText, ids.parse_toText] at hp
  exact Option.some.inj hp

/-- the columns of `runs` that recovery reads or writes -/
structure RunRow where
  runId : String
  status : String
  createdUnix : ℤ
  updatedUnix : ℤ
deriving DecidableEq, Repr

/-- `run_id` is the primary key -/
structure RunsTable where
  rows : List RunRow
  unique : (rows.map RunRow.runId).Nodup

structure OutboxRow where
  runId : String
  eventType : String
  payload : String
  atUnix : ℤ
deriving DecidableEq, Repr

/-- `storage::outbox_tx::OutboxEvent` -/
structure OutboxEvent (R : Type) where
  runId : R
  eventType : String
  payload : String
deriving DecidableEq, Repr

/-- the row that `UPDATE runs SET …, updated_unix = ? WHERE run_id = ?` leaves -/
def RunRow.written (r : RunRow) (key : String) (status : String → String) (now : ℤ) : RunRow :=
  if r.runId = key then { r with status := status r.status, updatedUnix := now } else r

@[simp] theorem RunRow.written_runId (r : RunRow) (key : String) (status : String → String)
    (now : ℤ) : (r.written key status now).runId = r.runId := by
  unfold RunRow.written
  split <;> rfl

def RunsTable.update (t : RunsTable) (key : String) (status : String → String) (now : ℤ) :
    RunsTable where
  rows := t.rows.map fun r => r.written key status now
  unique := by
    have h : (t.rows.map fun r => r.written key status now).map RunRow.runId =
        t.rows.map RunRow.runId := by
      rw [List.map_map]
      exact List.map_congr_left fun r _ => r.written_runId key status now
    rw [h]
    exact t.unique

/-- `update_run_status`; no row at all is no error -/
def RunsTable.updateRunStatus (t : RunsTable) (key status : String) (now : ℤ) : RunsTable :=
  t.update key (fun _ => status) now

/-- `record_run_stability`, `set_run_parent`, `set_shared_brief_hash`: the status stays -/
def RunsTable.touch (t : RunsTable) (key : String) (now : ℤ) : RunsTable :=
  t.update key (fun status => status) now

/-- `register_run`: `INSERT OR REPLACE` -/
def RunsTable.registerRun (t : RunsTable) (key status : String) (now : ℤ) : RunsTable where
  rows := (t.rows.filter fun r => r.runId ≠ key) ++ [⟨key, status, now, now⟩]
  unique := by
    rw [List.map_append, List.nodup_append]
    refine ⟨t.unique.sublist (List.filter_sublist.map _), List.nodup_singleton _, ?_⟩
    intro a ha b hb
    obtain ⟨r, hr, rfl⟩ := List.mem_map.mp ha
    obtain rfl := List.mem_singleton.mp hb
    exact of_decide_eq_true (List.mem_filter.mp hr).2

/-- the rows of `list_runs`: in the order of their creation, latest first; rows created in the same
second come in any order -/
def RunsTable.Listed (t : RunsTable) (listed : List RunRow) : Prop :=
  listed.Perm t.rows ∧ listed.Pairwise fun a b => b.createdUnix ≤ a.createdUnix

instance (t : RunsTable) (listed : List RunRow) : Decidable (t.Listed listed) :=
  inferInstanceAs (Decidable (_ ∧ _))

theorem RunsTable.mem_update {t : RunsTable} {key : String} {status : String → String} {now : ℤ}
    {r' : RunRow} (h : r' ∈ (t.update key status now).rows) :
    ∃ r ∈ t.rows, r' = r.written key status now := by
  obtain ⟨r, hr, rfl⟩ := List.mem_map.mp h
  exact ⟨r, hr, rfl⟩

theorem RunsTable.mem_registerRun {t : RunsTable} {key status : String} {now : ℤ} {r : RunRow}
    (h : r ∈ (t.registerRun key status now).rows) :
    (r ∈ t.rows ∧ r.runId ≠ key) ∨ r = ⟨key, status, now, now⟩ := by
  rcases List.mem_append.mp h with h | h
  · exact .inl ⟨(List.mem_filter.mp h).1, of_decide_eq_true (List.mem_filter.mp h).2⟩
  · exact .inr (List.mem_singleton.mp h)

/-- a statement leaves every key in the table -/
theorem RunsTable.key_update {t : RunsTable} {k key : String} {status : String → String} {now : ℤ}
    (h : ∃ r ∈ t.rows, r.runId = k) : ∃ r ∈ (t.update key status now).rows, r.runId = k := by
  obtain ⟨r, hr, hk⟩ := h
  exact ⟨_, List.mem_map_of_mem hr, by rw [RunRow.written_runId, hk]⟩

theorem RunsTable.key_registerRun {t : RunsTable} {k key status : String} {now : ℤ}
    (h : ∃ r ∈ t.rows, r.runId = k) : ∃ r ∈ (t.registerRun key status now).rows, r.runId = k := by
  obtain ⟨r, hr, hk⟩ := h
  by_cases hkey : r.runId = key
  · exact ⟨_, List.mem_append_right _ (List.mem_singleton_self _), hkey.symm.trans hk⟩
  · exact ⟨r, List.mem_append_left _ (List.mem_filter.mpr ⟨hr, decide_eq_true hkey⟩), hk⟩

theorem RunsTable.eq_of_runId {t : RunsTable} {r r' : RunRow} (hr : r ∈ t.rows) (hr' : r' ∈ t.rows)
    (h : r.runId = r'.runId) : r = r' :=
  List.inj_on_of_nodup_map t.unique hr hr' h

/-! ## a pass -/

def ZOMBIE_HEARTBEAT_SECS : ℤ := 7200

/-- the tests that `list_zombie_run_ids` and `moagan repair --recover-zombies --run` make -/
def RunRow.isZombie (r : RunRow) (threshold : ℤ) : Bool :=
  r.status = "running" && r.updatedUnix < threshold

section
variable {R : Type} (ids : RunIdText R)

/-- `list_zombie_run_ids` on the rows of `list_runs(u32::MAX)` -/
def listZombieRunIds (threshold : ℤ) (rows : List RunRow) : List R :=
  (rows.take 4294967295).filterMap fun r =>
    (ids.parse r.runId).bind fun z => if r.isZombie threshold then some z else none

theorem mem_listZombieRunIds {threshold : ℤ} {rows : List RunRow} {z : R}
    (h : z ∈ listZombieRunIds ids threshold rows) :
    ∃ r ∈ rows, ids.parse r.runId = some z ∧ r.status = "running" ∧ r.updatedUnix < threshold := by
  obtain ⟨r, hr, hz⟩ := List.mem_filterMap.mp h
  obtain ⟨z', hp, hz⟩ := Option.bind_eq_some_iff.mp hz
  split at hz
  · rename_i hzombie
    obtain ⟨hs, hu⟩ := (Bool.and_eq_true ..).mp hzombie
    exact ⟨r, List.mem_of_mem_take hr, hp.trans hz, of_decide_eq_true hs, of_decide_eq_true hu⟩
  · exact absurd hz nofun

/-- the payload, with its fields in the order of the source -/
def zombiePayload (now : ℤ) : String :=
  "\x7b\"kind\":\"zombie_recovered\",\"previous_status\":\"running\"" ++
    ",\"new_status\":\"interrupted\"" ++
    ",\"recovered_at_unix\":" ++ toString now ++ ",\"stale_threshold_secs\":" ++
    toString ZOMBIE_HEARTBEAT_SECS ++ "\x7d"

def zombieEvents (z : R) (now : ℤ) : List (OutboxEvent R) :=
  [⟨z, "run.zombie_recovered", zombiePayload now⟩]

/-- what the loop of `record_with` inserts -/
def outboxRows (events : List (OutboxEvent R)) (unix : ℤ) : List OutboxRow :=
  events.map fun ev => ⟨ids.toText ev.runId, ev.eventType, ev.payload, unix⟩

end

inductive Phase (R : Type) where
  /-- the threshold is computed, the query comes next -/
  | listing (threshold : ℤ)
  /-- the `UPDATE` of the first zombie comes next -/
  | flipping (zombies : List R) (now : ℤ)
  /-- `sidecar_write` of `record_with` is done for `z`, its transaction comes next; `took` says
  that the row was marked running, and no code looks at it -/
  | recording (z : R) (took : Bool) (zombies : List R) (now : ℤ)

/-- the runs that the pass will still update -/
def Phase.toFlip {R : Type} : Phase R → List R
  | .listing _ => []
  | .flipping zs _ => zs
  | .recording _ _ zs _ => zs

/-- the runs that the pass will still write an event for -/
def Phase.toRecord {R : Type} : Phase R → List R
  | .listing _ => []
  | .flipping zs _ => zs
  | .recording z _ zs _ => z :: zs

/-- a run taken from `running` to `interrupted` by a pass, with the length of the outbox then -/
structure Flip (R : Type) where
  runId : R
  pass : ℕ
  behind : ℕ

structure State (R : Type) where
  runs : RunsTable
  outbox : List OutboxRow
  now : ℤ
  passes : ℕ → Option (Phase R)
  flips : List (Flip R)

inductive Event (R : Type) where
  | tick (unix : ℤ)
  /-- other processes: `register_run`, `update_run_status`, the other writes of `updated_unix`,
  rows of the outbox; a process reads the clock before its statement -/
  | register (r : R) (status : String) (unix : ℤ)
  | setStatus (r : R) (status : String) (unix : ℤ)
  | touch (r : R) (unix : ℤ)
  | log (o : OutboxRow)
  /-- a pass -/
  | start (i : ℕ)
  | list (i : ℕ) (listed : List RunRow)
  /-- the query of `repair --recover-zombies --run` -/
  | get (i : ℕ) (r : R)
  | update (i : ℕ) (unix : ℤ)
  | insert (i : ℕ)
  /-- the pass returns, a statement of it gives an error, or its process dies -/
  | stop (i : ℕ)

def Event.ofRecovery {R : Type} : Event R → Bool
  | .register .. | .setStatus .. | .touch .. | .log _ => false
  | _ => true

section
variable {R : Type} (ids : RunIdText R)

def State.goto (s : State R) (i : ℕ) (ph : Option (Phase R)) : State R :=
  { s with passes := Function.update s.passes i ph }

@[simp] theorem State.goto_self (s : State R) (i : ℕ) (ph : Option (Phase R)) :
    (s.goto i ph).passes i = ph := by
  show Function.update s.passes i ph i = ph
  exact Function.update_self ..

theorem State.goto_of_ne (s : State R) {i j : ℕ} (h : j ≠ i) (ph : Option (Phase R)) :
    (s.goto i ph).passes j = s.passes j := by
  show Function.update s.passes i ph j = s.passes j
  exact Function.update_of_ne h ..

/-- the row of a run, as `get_run` finds it -/
def State.row? (s : State R) (r : R) : Option RunRow :=
  s.runs.rows.find? fun x => x.runId = ids.toText r

/-- the row of the run is there and marked running -/
def State.isRunning (s : State R) (r : R) : Bool :=
  s.runs.rows.any fun x => x.runId = ids.toText r && x.status = "running"

/-- `UPDATE runs SET status = 'interrupted', … WHERE run_id = ?` -/
def State.flip (s : State R) (i : ℕ) (z : R) (zs : List R) (now unix : ℤ) : State R :=
  { s with
    runs := s.runs.updateRunStatus (ids.toText z) "interrupted" unix
    flips := if s.isRunning ids z then s.flips ++ [(⟨z, i, s.outbox.length⟩ : Flip R)] else s.flips
    }.goto i (some (.recording z (s.isRunning ids z) zs now))

/-- the transaction: the foreign key of the outbox asks for the run's row -/
def State.record (s : State R) (i : ℕ) (z : R) (zs : List R) (now : ℤ) : State R :=
  if s.runs.rows.any fun x => x.runId = ids.toText z then
    { s with outbox := s.outbox ++ outboxRows ids (zombieEvents z now) s.now }.goto i
      (some (.flipping zs now))
  else s.goto i none

def step (s : State R) : Event R → Option (State R)
  | .tick t => some { s with now := t }
  | .register r status t =>
    some { s with runs := s.runs.registerRun (ids.toText r) status t }
  | .setStatus r status t =>
    some { s with runs := s.runs.updateRunStatus (ids.toText r) status t }
  | .touch r t => some { s with runs := s.runs.touch (ids.toText r) t }
  | .log o => some { s with outbox := s.outbox ++ [o] }
  | .start i =>
    match s.passes i with
    | none => some (s.goto i (some (.listing (s.now - ZOMBIE_HEARTBEAT_SECS))))
    | some _ => none
  | .list i listed =>
    match s.passes i with
    | some (.listing threshold) =>
      if s.runs.Listed listed then
        some (s.goto i (some (.flipping (listZombieRunIds ids threshold listed) s.now)))
      else none
    | _ => none
  | .get i r =>
    match s.passes i with
    | some (.listing threshold) =>
      match s.row? ids r with
      | some x =>
        some (s.goto i (some (.flipping (if x.isZombie threshold then [r] else []) s.now)))
      | none => some (s.goto i none)
    | _ => none
  | .update i t =>
    match s.passes i with
    | some (.flipping (z :: zs) now) => some (s.flip ids i z zs now t)
    | _ => none
  | .insert i =>
    match s.passes i with
    | some (.recording z _ zs now) => some (s.record ids i z zs now)
    | _ => none
  | .stop i => some (s.goto i none)

/-- any tables, no pass under way -/
def start (runs : RunsTable) (outbox : List OutboxRow) (now : ℤ) : State R :=
  ⟨runs, outbox, now, fun _ => none, []⟩

end

/-! ## what a step does -/

section
variable {R : Type} {ids : RunIdText R} {s s' : State R}

/-- what a statement of another process leaves of the table -/
inductive Wrote (ids : RunIdText R) (t : RunsTable) : Event R → RunsTable → Prop
  | register (r : R) (status : String) (unix : ℤ) :
      Wrote ids t (.register r status unix) (t.registerRun (ids.toText r) status unix)
  | setStatus (r : R) (status : String) (unix : ℤ) :
      Wrote ids t (.setStatus r status unix) (t.updateRunStatus (ids.toText r) status unix)
  | touch (r : R) (unix : ℤ) : Wrote ids t (.touch r unix) (t.touch (ids.toText r) unix)

/-- **Everything that a step can do.** -/
inductive Stepped (ids : RunIdText R) (s : State R) : Event R → State R → Prop
  | tick (t : ℤ) : Stepped ids s (.tick t) { s with now := t }
  | wrote {e : Event R} {t : RunsTable} : Wrote ids s.runs e t →
      Stepped ids s e { s with runs := t }
  | log (o : OutboxRow) : Stepped ids s (.log o) { s with outbox := s.outbox ++ [o] }
  | start (i : ℕ) : s.passes i = none → Stepped ids s (.start i)
      (s.goto i (some (.listing (s.now - ZOMBIE_HEARTBEAT_SECS))))
  | list {i : ℕ} {listed : List RunRow} {threshold : ℤ} : s.passes i = some (.listing threshold) →
      s.runs.Listed listed → Stepped ids s (.list i listed)
        (s.goto i (some (.flipping (listZombieRunIds ids threshold listed) s.now)))
  | get {i : ℕ} {r : R} {threshold : ℤ} {x : RunRow} : s.passes i = some (.listing threshold) →
      x ∈ s.runs.rows → x.runId = ids.toText r → Stepped ids s (.get i r)
        (s.goto i (some (.flipping (if x.isZombie threshold then [r] else []) s.now)))
  | missed {i : ℕ} {r : R} {threshold : ℤ} : s.passes i = some (.listing threshold) →
      Stepped ids s (.get i r) (s.goto i none)
  | update {i : ℕ} {z : R} {zs : List R} {now t : ℤ} : s.passes i = some (.flipping (z :: zs) now) →
      Stepped ids s (.update i t) (s.flip ids i z zs now t)
  | insert {i : ℕ} {z : R} {took : Bool} {zs : List R} {now : ℤ} :
      s.passes i = some (.recording z took zs now) →
      Stepped ids s (.insert i) (s.record ids i z zs now)
  | stop (i : ℕ) : Stepped ids s (.stop i) (s.goto i none)

theorem step_cases {e : Event R} (h : step ids s e = some s') : Stepped ids s e s' := by
  cases e with
  | tick t => exact Option.some.inj h ▸ .tick t
  | register r status t => exact Option.some.inj h ▸ .wrote (.register r status t)
  | setStatus r status t => exact Option.some.inj h ▸ .wrote (.setStatus r status t)
  | touch r t => exact Option.some.inj h ▸ .wrote (.touch r t)
  | log o => exact Option.some.inj h ▸ .log o
  | start i =>
    simp only [step] at h
    split at h
    · rename_i hi
      exact Option.some.inj h ▸ .start i hi
    · exact absurd h nofun
  | list i listed =>
    simp only [step] at h
    split at h
    · rename_i threshold hi
      split at h
      · rename_i hl
        exact Option.some.inj h ▸ .list hi hl
      · exact absurd h nofun
    · exact absurd h nofun
  | get i r =>
    simp only [step] at h
    split at h
    · rename_i threshold hi
      split at h
      · rename_i x hx
        unfold State.row? at hx
        have hk := List.find?_some hx
        exact Option.some.inj h ▸ .get hi (List.mem_of_find?_eq_some hx) (of_decide_eq_true hk)
      · exact Option.some.inj h ▸ .missed hi
    · exact absurd h nofun
  | update i t =>
    simp only [step] at h
    split at h
    · rename_i z zs now hi
      exact Option.some.inj h ▸ .update hi
    · exact absurd h nofun
  | insert i =>
    simp only [step] at h
    split at h
    · rename_i z took zs now hi
      exact Option.some.inj h ▸ .insert hi
    · exact absurd h nofun
  | stop i => exact Option.some.inj h ▸ .stop i

theorem step_start {i : ℕ} (hi : s.passes i = none) : step ids s (.start i) =
    some (s.goto i (some (.listing (s.now - ZOMBIE_HEARTBEAT_SECS)))) := by
  simp only [step, hi]

theorem step_list {i : ℕ} {listed : List RunRow} {threshold : ℤ}
    (hi : s.passes i = some (.listing threshold)) (hl : s.runs.Listed listed) :
    step ids s (.list i listed) =
      some (s.goto i (some (.flipping (listZombieRunIds ids threshold listed) s.now))) := by
  simp only [step, hi, if_pos hl]

theorem step_update {i : ℕ} {z : R} {zs : List R} {now : ℤ} (t : ℤ)
    (hi : s.passes i = some (.flipping (z :: zs) now)) :
    step ids s (.update i t) = some (s.flip ids i z zs now t) := by
  simp only [step, hi]

theorem step_insert {i : ℕ} {z : R} {took : Bool} {zs : List R} {now : ℤ}
    (hi : s.passes i = some (.recording z took zs now)) :
    step ids s (.insert i) = some (s.record ids i z zs now) := by
  simp only [step, hi]

theorem isRunning_iff {z : R} : s.isRunning ids z = true ↔
    ∃ r ∈ s.runs.rows, r.runId = ids.toText z ∧ r.status = "running" := by
  unfold State.isRunning
  simp only [List.any_eq_true, Bool.and_eq_true, decide_eq_true_eq]

/-- a statement of another process keeps the keys -/
theorem Wrote.key {t t' : RunsTable} {e : Event R} (h : Wrote ids t e t') {k : String}
    (hk : ∃ r ∈ t.rows, r.runId = k) : ∃ r ∈ t'.rows, r.runId = k := by
  cases h with
  | register r status unix => exact RunsTable.key_registerRun hk
  | setStatus r status unix => exact RunsTable.key_update hk
  | touch r unix => exact RunsTable.key_update hk

end

/-! ## flips and their events -/

section
variable {R : Type} (ids : RunIdText R)

/-- the event is in the outbox, behind what was there at the flip -/
def Announced (s : State R) (f : Flip R) : Prop :=
  ∃ o ∈ s.outbox.drop f.behind, o.runId = ids.toText f.runId ∧ o.eventType = "run.zombie_recovered"

/-- it is there, or recovery passes can get there -/
def WillAnnounce (s : State R) (f : Flip R) : Prop :=
  ∃ es t, (∀ e ∈ es, e.ofRecovery = true) ∧ Runs.run (step ids) s es = some t ∧ Announced ids t f

def EveryFlipAnnounced (s : State R) : Prop := ∀ f ∈ s.flips, WillAnnounce ids s f

/-- **When no flip gets lost**: no pass ends between an update that took a running row and the
commit of its event. -/
def KeepsGoing (s : State R) : Event R → Prop
  | .stop i => ∀ z zs now, s.passes i ≠ some (.recording z true zs now)
  | _ => True

/-- a flip has its event, or its pass stands before the transaction -/
def FlipInv (s : State R) (f : Flip R) : Prop :=
  f.behind ≤ s.outbox.length ∧ (∃ r ∈ s.runs.rows, r.runId = ids.toText f.runId) ∧
    (Announced ids s f ∨ ∃ zs now, s.passes f.pass = some (.recording f.runId true zs now))

end

section
variable {R : Type} {ids : RunIdText R} {s s' : State R} {f : Flip R}

theorem announced_append (o : List OutboxRow) (h : Announced ids s f)
    (ho : s'.outbox = s.outbox ++ o) : Announced ids s' f := by
  obtain ⟨r, hr, hf⟩ := h
  refine ⟨r, ?_, hf⟩
  rw [ho, List.drop_append]
  exact List.mem_append_left _ hr

/-- the transaction writes the event of its run -/
theorem announced_record {i : ℕ} {zs : List R} {now : ℤ}
    (hrow : ∃ r ∈ s.runs.rows, r.runId = ids.toText f.runId) (hb : f.behind ≤ s.outbox.length) :
    Announced ids (s.record ids i f.runId zs now) f := by
  obtain ⟨r, hr, hk⟩ := hrow
  unfold State.record
  rw [if_pos (List.any_eq_true.mpr ⟨r, hr, decide_eq_true hk⟩)]
  refine ⟨⟨ids.toText f.runId, "run.zombie_recovered", zombiePayload now, s.now⟩, ?_, rfl, rfl⟩
  show _ ∈ (s.outbox ++ outboxRows ids (zombieEvents f.runId now) s.now).drop f.behind
  rw [List.drop_append_of_le_length hb]
  exact List.mem_append_right _ (List.mem_singleton_self _)

theorem record_outbox (ids : RunIdText R) (s : State R) (i : ℕ) (z : R) (zs : List R) (now : ℤ) :
    ∃ o, (s.record ids i z zs now).outbox = s.outbox ++ o ∧
      ∀ r ∈ o, r.runId = ids.toText z := by
  unfold State.record
  split
  · refine ⟨outboxRows ids (zombieEvents z now) s.now, rfl, fun r hr => ?_⟩
    rw [List.mem_singleton.mp hr]
  · exact ⟨[], (List.append_nil _).symm, fun r hr => absurd hr List.not_mem_nil⟩

theorem record_runs (s : State R) (i : ℕ) (z : R) (zs : List R) (now : ℤ) :
    (s.record ids i z zs now).runs = s.runs := by
  unfold State.record
  split <;> rfl

theorem record_of_ne (s : State R) {i j : ℕ} (h : j ≠ i) (z : R) (zs : List R) (now : ℤ) :
    (s.record ids i z zs now).passes j = s.passes j := by
  unfold State.record
  split
  · exact State.goto_of_ne _ h _
  · exact State.goto_of_ne _ h _

/-- what one step keeps of one flip -/
theorem FlipInv.kept {e : Event R} (hf : FlipInv ids s f) (hg : KeepsGoing s e)
    (h : Stepped ids s e s') : FlipInv ids s' f := by
  obtain ⟨hb, hrow, ha⟩ := hf
  -- a step of a pass that does not stand before a transaction changes nothing for the flip
  have hgoto : ∀ i ph, (∀ z zs now, s.passes i ≠ some (.recording z true zs now)) →
      FlipInv ids (s.goto i ph) f := by
    intro i ph hi
    refine ⟨hb, hrow, ha.imp_right ?_⟩
    rintro ⟨zs, now, hp⟩
    have hne : f.pass ≠ i := fun he => hi _ _ _ (he ▸ hp)
    exact ⟨zs, now, (State.goto_of_ne s hne ph).trans hp⟩
  cases h with
  | tick t => exact ⟨hb, hrow, ha⟩
  | wrote hw => exact ⟨hb, hw.key hrow, ha⟩
  | log o =>
    refine ⟨?_, hrow, ha.imp_left fun h => announced_append [o] h rfl⟩
    show f.behind ≤ (s.outbox ++ [o]).length
    rw [List.length_append]
    omega
  | start i hi => exact hgoto i _ fun z zs now h => by rw [hi] at h; exact absurd h nofun
  | list hi hl => exact hgoto _ _ fun z zs now h => by rw [hi] at h; exact absurd h nofun
  | get hi hx hk => exact hgoto _ _ fun z zs now h => by rw [hi] at h; exact absurd h nofun
  | missed hi => exact hgoto _ _ fun z zs now h => by rw [hi] at h; exact absurd h nofun
  | update hi =>
    rename_i i z zs now t
    refine ⟨hb, RunsTable.key_update hrow, ha.imp_right ?_⟩
    rintro ⟨zs', now', hp⟩
    have hne : f.pass ≠ i := fun he => by rw [he, hi] at hp; exact absurd hp nofun
    exact ⟨zs', now', (State.goto_of_ne _ hne _).trans hp⟩
  | insert hi =>
    rename_i i z took zs now
    obtain ⟨o, ho, -⟩ := record_outbox ids s i z zs now
    refine ⟨?_, ?_, ?_⟩
    · rw [ho, List.length_append]
      omega
    · rw [record_runs]
      exact hrow
    · rcases ha with ha | ⟨zs', now', hp⟩
      · exact .inl (announced_append o ha ho)
      · by_cases he : f.pass = i
        · rw [he, hi] at hp
          obtain ⟨rfl, -⟩ := Phase.recording.inj (Option.some.inj hp)
          exact .inl (announced_record hrow hb)
        · exact .inr ⟨zs', now', (record_of_ne s he z zs now).trans hp⟩
  | stop i => exact hgoto i none hg

theorem flipInv_step {e : Event R} (hinv : ∀ f ∈ s.flips, FlipInv ids s f) (hg : KeepsGoing s e)
    (h : step ids s e = some s') : ∀ f ∈ s'.flips, FlipInv ids s' f := by
  have hs := step_cases h
  intro f hf
  -- only an update adds a flip, and its pass then stands before the transaction
  have hold : f ∈ s.flips ∨ ∃ i z zs now t, s' = s.flip ids i z zs now t ∧
      s.isRunning ids z = true ∧ f = ⟨z, i, s.outbox.length⟩ := by
    cases hs with
    | update hi =>
      rename_i i z zs now t
      change f ∈ (if s.isRunning ids z then s.flips ++ [_] else s.flips) at hf
      split at hf
      · rename_i hrun
        exact (List.mem_append.mp hf).imp_right fun h =>
          ⟨i, z, zs, now, t, rfl, hrun, List.mem_singleton.mp h⟩
      · exact .inl hf
    | insert hi =>
      rename_i i z took zs now
      unfold State.record at hf
      split at hf <;> exact .inl hf
    | _ => exact .inl hf
  rcases hold with hold | ⟨i, z, zs, now, t, rfl, hrun, rfl⟩
  · exact (hinv f hold).kept hg hs
  · obtain ⟨r, hr, hk, -⟩ := isRunning_iff.mp hrun
    refine ⟨Nat.le_refl s.outbox.length, RunsTable.key_update ⟨r, hr, hk⟩, .inr ⟨zs, now, ?_⟩⟩
    rw [← hrun]
    exact State.goto_self _ i _

/-- the next step of the pass writes the event -/
theorem FlipInv.willAnnounce (hf : FlipInv ids s f) : WillAnnounce ids s f := by
  obtain ⟨hb, hrow, ha⟩ := hf
  rcases ha with ha | ⟨zs, now, hp⟩
  · exact ⟨[], s, fun e he => absurd he List.not_mem_nil, rfl, ha⟩
  · refine ⟨[.insert f.pass], s.record ids f.pass f.runId zs now, ?_, ?_,
      announced_record hrow hb⟩
    · intro e he
      rw [List.mem_singleton.mp he]
      rfl
    · rw [Runs.run_cons, step_insert hp]
      rfl

end

/-! ### one zombie -/

section
variable {R : Type} (ids : RunIdText R) (r : R)

/-- one run, marked running, with no sign of life since second 0 -/
def oneZombie : RunsTable := ⟨[⟨ids.toText r, "running", 0, 0⟩], List.nodup_singleton _⟩

theorem list_oneZombie :
    listZombieRunIds ids (8000 - ZOMBIE_HEARTBEAT_SECS) (oneZombie ids r).rows = [r] := by
  have hz : (RunRow.mk (ids.toText r) "running" 0 0).isZombie (8000 - ZOMBIE_HEARTBEAT_SECS) =
      true := rfl
  show [RunRow.mk (ids.toText r) "running" 0 0].filterMap _ = [r]
  rw [List.filterMap_cons_some (b := r)]
  · rfl
  · rw [ids.parse_toText, Option.bind_some, if_pos hz]

/-- a pass has listed it -/
def listedState : State R :=
  ((start (oneZombie ids r) [] 8000).goto 0 (some (.listing (8000 - ZOMBIE_HEARTBEAT_SECS)))).goto 0
    (some (.flipping [r] 8000))

theorem run_listed : Runs.run (step ids) (start (oneZombie ids r) [] 8000)
    [.start 0, .list 0 (oneZombie ids r).rows] = some (listedState ids r) := by
  have hl : (oneZombie ids r).Listed (oneZombie ids r).rows :=
    ⟨List.Perm.refl _, List.pairwise_singleton _ _⟩
  let s₁ : State R :=
    (start (oneZombie ids r) [] 8000).goto 0 (some (.listing (8000 - ZOMBIE_HEARTBEAT_SECS)))
  have h₁ : s₁.passes 0 = some (.listing (8000 - ZOMBIE_HEARTBEAT_SECS)) := State.goto_self ..
  have h₂ : step ids s₁ (.list 0 (oneZombie ids r).rows) = some (listedState ids r) := by
    rw [step_list h₁ hl, list_oneZombie]
    rfl
  rw [Runs.run_cons, step_start rfl]
  show (step ids s₁ (.list 0 (oneZombie ids r).rows)).bind _ = _
  rw [h₂]
  rfl

/-- the pass has written the event, and its list is empty -/
def recordedState : State R :=
  ((listedState ids r).flip ids 0 r [] 8000 8000).record ids 0 r [] 8000

theorem recordedState_passes : (recordedState ids r).passes 0 = some (.flipping [] 8000) := by
  have hrow : ∃ x ∈ ((listedState ids r).flip ids 0 r [] 8000 8000).runs.rows,
      x.runId = ids.toText r := RunsTable.key_update ⟨_, List.mem_singleton_self _, rfl⟩
  obtain ⟨x, hx, hk⟩ := hrow
  unfold recordedState State.record
  rw [if_pos (List.any_eq_true.mpr ⟨x, hx, decide_eq_true hk⟩)]
  exact State.goto_self ..

theorem recordedState_flips : ⟨r, 0, 0⟩ ∈ (recordedState ids r).flips := by
  have hrun : (listedState ids r).isRunning ids r = true :=
    isRunning_iff.mpr ⟨_, List.mem_singleton_self _, rfl, rfl⟩
  have hf : ⟨r, 0, 0⟩ ∈ ((listedState ids r).flip ids 0 r [] 8000 8000).flips := by
    show _ ∈ (if (listedState ids r).isRunning ids r then _ ++ [_] else _)
    rw [if_pos hrun]
    exact List.mem_append_right _ (List.mem_singleton_self _)
  unfold recordedState State.record
  split <;> exact hf

theorem run_recorded : Runs.run (step ids) (start (oneZombie ids r) [] 8000)
    [.start 0, .list 0 (oneZombie ids r).rows, .update 0 8000, .insert 0] =
      some (recordedState ids r) := by
  have hu : (listedState ids r).passes 0 = some (.flipping [r] 8000) := State.goto_self ..
  have hi : ((listedState ids r).flip ids 0 r [] 8000 8000).passes 0 =
      some (.recording r ((listedState ids r).isRunning ids r) [] 8000) := State.goto_self ..
  show Runs.run (step ids) _ ([.start 0, .list 0 (oneZombie ids r).rows] ++ _) = _
  rw [Runs.run_append, run_listed, Option.bind_some, Runs.run_cons, step_update 8000 hu,
    Option.bind_some, Runs.run_cons, step_insert hi]
  rfl

end

/-- ids that are their own text -/
def plainIds : RunIdText String := ⟨fun r => r, some, fun _ => rfl⟩

/-- **Every flip is announced, in every run in which no pass ends between its update and its
event**; once no pass is under way, every event is in the outbox. -/
theorem flips_announced {R : Type} (ids : RunIdText R) (runs : RunsTable) (outbox : List OutboxRow)
    (now : ℤ) (es : List (Event R)) (s : State R)
    (hg : Runs.Along (step ids) KeepsGoing (start runs outbox now) es)
    (hr : Runs.run (step ids) (start runs outbox now) es = some s) :
    EveryFlipAnnounced ids s ∧
      ((∀ i, s.passes i = none) → ∀ f ∈ s.flips, Announced ids s f) := by
  have hinv : ∀ f ∈ s.flips, FlipInv ids s f :=
    Runs.run_inv (I := fun s => ∀ f ∈ s.flips, FlipInv ids s f)
      (fun s e s' hi hg h => flipInv_step hi hg h) es _ s
      (fun f hf => absurd hf List.not_mem_nil) hg hr
  refine ⟨fun f hf => (hinv f hf).willAnnounce, fun hidle f hf => ?_⟩
  rcases (hinv f hf).2.2 with ha | ⟨zs, now', hp⟩
  · exact ha
  · rw [hidle] at hp
    exact absurd hp nofun

/-- a pass that comes to its end -/
theorem flips_announced_once :
    Announced plainIds
      ((recordedState plainIds "0190163d-8694-739b-aea5-966c26f8ad91").goto 0 none)
      ⟨"0190163d-8694-739b-aea5-966c26f8ad91", 0, 0⟩ := by
  let r := "0190163d-8694-739b-aea5-966c26f8ad91"
  have hrun := run_recorded plainIds r
  have hgoing : Runs.Along (step plainIds) KeepsGoing (start (oneZombie plainIds r) [] 8000)
      [.start 0, .list 0 (oneZombie plainIds r).rows, .update 0 8000, .insert 0] :=
    ⟨trivial, fun _ _ => ⟨trivial, fun _ _ => ⟨trivial, fun _ _ => ⟨trivial, fun _ _ => trivial⟩⟩⟩⟩
  have hlast : Runs.Along (step plainIds) KeepsGoing (recordedState plainIds r) [.stop 0] :=
    ⟨fun z zs now h => by rw [recordedState_passes] at h; exact absurd h nofun, fun _ _ => trivial⟩
  have hidle : ∀ i, ((recordedState plainIds r).goto 0 none).passes i = none := by
    intro i
    by_cases hi : i = 0
    · rw [hi, State.goto_self]
    · rw [State.goto_of_ne _ hi, recordedState, record_of_ne _ hi, State.flip,
        State.goto_of_ne _ hi]
      show (listedState plainIds r).passes i = none
      rw [listedState, State.goto_of_ne _ hi, State.goto_of_ne _ hi]
      rfl
  have hend : Runs.run (step plainIds) (start (oneZombie plainIds r) [] 8000)
      ([.start 0, .list 0 (oneZombie plainIds r).rows, .update 0 8000, .insert 0] ++ [.stop 0]) =
        some ((recordedState plainIds r).goto 0 none) := by
    rw [Runs.run_append, hrun]
    rfl
  exact (flips_announced plainIds (oneZombie plainIds r) [] 8000 _ _
    (Runs.along_concat hrun hgoing hlast) hend).2 hidle _ (recordedState_flips plainIds r)

/-! ## a lost flip -/

section
variable {R : Type} {ids : RunIdText R} {s s' : State R} {f : Flip R}

/-- no row that recovery would take for the run, no pass that has it in hand, no event -/
def Silent (ids : RunIdText R) (f : Flip R) (s : State R) : Prop :=
  (∀ r ∈ s.runs.rows, ids.parse r.runId = some f.runId → r.status ≠ "running") ∧
    (∀ i ph, s.passes i = some ph → f.runId ∉ ph.toRecord) ∧ ¬ Announced ids s f

theorem Silent.goto (h : Silent ids f s) (i : ℕ) (ph : Option (Phase R))
    (hph : ∀ p, ph = some p → f.runId ∉ p.toRecord) : Silent ids f (s.goto i ph) := by
  refine ⟨h.1, fun j p hp => ?_, h.2.2⟩
  by_cases hj : j = i
  · rw [hj, State.goto_self] at hp
    exact hph p hp
  · rw [State.goto_of_ne s hj] at hp
    exact h.2.1 j p hp

/-- **No recovery pass ends the silence.** -/
theorem silent_step {e : Event R} (hq : Silent ids f s) (he : e.ofRecovery = true)
    (h : step ids s e = some s') : Silent ids f s' := by
  have hs := step_cases h
  have ⟨hrows, hpasses, hnot⟩ := hq
  cases hs with
  | tick t => exact ⟨hrows, hpasses, hnot⟩
  | wrote hw => cases hw <;> exact absurd he nofun
  | log o => exact absurd he nofun
  | start i hi =>
    exact hq.goto i _ fun p hp => Option.some.inj hp ▸ List.not_mem_nil
  | list hi hl =>
    refine hq.goto _ _ fun p hp => Option.some.inj hp ▸ fun hm => ?_
    obtain ⟨r, hr, hp, hrun, -⟩ := mem_listZombieRunIds ids hm
    exact hrows r (hl.1.subset hr) hp hrun
  | get hi hx hk =>
    rename_i i r threshold x
    refine hq.goto _ _ fun p hp => Option.some.inj hp ▸ fun hm => ?_
    change f.runId ∈ (if x.isZombie threshold then [r] else []) at hm
    split at hm
    · rename_i hz
      have hr : f.runId = r := List.mem_singleton.mp hm
      have hrun := of_decide_eq_true ((Bool.and_eq_true ..).mp hz).1
      exact hrows x hx (by rw [hk, ids.parse_toText, hr]) hrun
    · exact absurd hm List.not_mem_nil
  | missed hi => exact hq.goto _ _ fun p hp => absurd hp nofun
  | update hi =>
    rename_i i z zs now t
    have hp : Silent ids f (s.goto i (some (.recording z (s.isRunning ids z) zs now))) :=
      hq.goto i _ fun p hp hm => by
        obtain rfl := Option.some.inj hp
        exact hpasses i (.flipping (z :: zs) now) hi hm
    refine ⟨fun r hr hparse => ?_, hp.2.1, hnot⟩
    obtain ⟨r₀, hr₀, rfl⟩ := RunsTable.mem_update hr
    rw [RunRow.written_runId] at hparse
    unfold RunRow.written
    split
    · show "interrupted" ≠ "running"
      decide
    · exact hrows r₀ hr₀ hparse
  | insert hi =>
    rename_i i z took zs now
    have hz := hpasses i _ hi
    obtain ⟨o, ho, hkey⟩ := record_outbox ids s i z zs now
    refine ⟨?_, fun j p hp => ?_, ?_⟩
    · rw [record_runs]
      exact hrows
    · by_cases hj : j = i
      · unfold State.record at hp
        split at hp
        · rw [hj, State.goto_self] at hp
          exact Option.some.inj hp ▸ fun hm => hz (List.mem_cons_of_mem _ hm)
        · rw [hj, State.goto_self] at hp
          exact absurd hp nofun
      · rw [record_of_ne s hj] at hp
        exact hpasses j p hp
    · rintro ⟨r, hr, hrun, htype⟩
      rw [ho, List.drop_append] at hr
      rcases List.mem_append.mp hr with hr | hr
      · exact hnot ⟨r, hr, hrun, htype⟩
      · -- the event is one of another run
        have hk := hkey r (List.mem_of_mem_drop hr)
        exact hz (List.mem_cons.mpr (.inl (ids.toText_inj (hrun.symm.trans hk))))
  | stop i => exact hq.goto i none fun p hp => absurd hp nofun

theorem silent_run (hq : Silent ids f s) : ¬ WillAnnounce ids s f := by
  rintro ⟨es, t, hes, hr, ha⟩
  have hg : Runs.Along (step ids) (fun _ e => e.ofRecovery = true) s es :=
    Runs.along_of_events hes s
  exact (Runs.run_inv (I := Silent ids f) (fun s e s' hi hg h => silent_step hi hg h) es s t hq hg
    hr).2.2 ha

/-- **A pass that dies between the two loses the event for good**: the run was running, so the
update is a flip, and no later pass comes back to it. -/
theorem crash_silences {i : ℕ} {z : R} {zs : List R} {now t : ℤ}
    (hi : s.passes i = some (.flipping (z :: zs) now)) (hrun : s.isRunning ids z = true)
    (hothers : ∀ j, j ≠ i → ∀ ph, s.passes j = some ph → z ∉ ph.toRecord)
    (hspelled : ∀ r ∈ s.runs.rows, ids.parse r.runId = some z → r.runId = ids.toText z) :
    ∃ s', Runs.run (step ids) s [.update i t, .stop i] = some s' ∧
      ⟨z, i, s.outbox.length⟩ ∈ s'.flips ∧ ¬ WillAnnounce ids s' ⟨z, i, s.outbox.length⟩ := by
  refine ⟨(s.flip ids i z zs now t).goto i none, ?_, ?_, silent_run ⟨fun r hr hp => ?_, ?_, ?_⟩⟩
  · rw [Runs.run_cons, step_update t hi]
    rfl
  · show _ ∈ (if s.isRunning ids z then s.flips ++ [_] else s.flips)
    rw [if_pos hrun]
    exact List.mem_append_right _ (List.mem_singleton_self _)
  · obtain ⟨r₀, hr₀, rfl⟩ := RunsTable.mem_update hr
    rw [RunRow.written_runId] at hp
    unfold RunRow.written
    rw [if_pos (hspelled r₀ hr₀ hp)]
    show "interrupted" ≠ "running"
    decide
  · intro j ph hj
    by_cases he : j = i
    · rw [he, State.goto_self] at hj
      exact absurd hj nofun
    · rw [State.goto_of_ne _ he] at hj
      exact hothers j he ph ((State.goto_of_ne _ he _).symm.trans hj)
  · rintro ⟨o, ho, -⟩
    change o ∈ s.outbox.drop s.outbox.length at ho
    rw [List.drop_length] at ho
    exact absurd ho List.not_mem_nil

end

/-- **The pass dies between the update and the transaction: the run is interrupted, and no pass
ever says so.** -/
theorem flip_lost : ∃ s, Runs.run (step plainIds)
    (start (oneZombie plainIds "0190163d-8694-739b-aea5-966c26f8ad91") [] 8000)
      [.start 0, .list 0 (oneZombie plainIds "0190163d-8694-739b-aea5-966c26f8ad91").rows,
        .update 0 8000, .stop 0] = some s ∧ ¬ EveryFlipAnnounced plainIds s := by
  let r := "0190163d-8694-739b-aea5-966c26f8ad91"
  have hi : (listedState plainIds r).passes 0 = some (.flipping [r] 8000) := State.goto_self ..
  have hrow : (⟨r, "running", 0, 0⟩ : RunRow) ∈ (listedState plainIds r).runs.rows :=
    List.mem_singleton_self _
  have hrun : (listedState plainIds r).isRunning plainIds r = true :=
    isRunning_iff.mpr ⟨_, hrow, rfl, rfl⟩
  obtain ⟨s, hr, hf, hn⟩ := crash_silences (t := 8000) hi hrun
    (fun j hj ph hp => by
      rw [listedState, State.goto_of_ne _ hj, State.goto_of_ne _ hj] at hp
      exact absurd hp nofun)
    (fun x _ hp => Option.some.inj hp)
  refine ⟨s, ?_, fun h => hn (h _ hf)⟩
  have hfront := run_listed plainIds r
  show Runs.run (step plainIds) _ ([.start 0, .list 0 (oneZombie plainIds r).rows] ++ _) = _
  rw [Runs.run_append, hfront]
  exact hr

end Moagan.Reconcile
