import Moagan.Discovery.Merge
import Moagan.Discovery.Numbering
import Moagan.Json.Traced
import Moagan.Lib.Runs
import Moagan.Llm.RetryBudget

/-!
# The sessions of the thesis fan-out (`src/phases/discover_theses.rs`)

A run directory outlives the processes that work on it: each session skips the points that have a
file, and may be cancelled or killed at any time.

* `classify`, `gateShortClaim`  what becomes of a thesis with a short text
* `generateOnce`                one attempt for a point
* `State`, `Event`              the files, and the tasks of the session in which they are written
* `step`                        what a session does next: its tasks run in any order

`R` is what a thesis holds beside the fields that the phase reads or sets.  An answer is what a call
and the parse of its text come to.  The waits between two attempts take no step of their own.
-/

namespace Moagan.Discovery.Sessions

open Scanning
open Retry (Error)

def MIN_CLAIM_LEN : ℕ := 30
def THESIS_RETRIES : ℕ := 2

structure Content (R : Type) where
  claim : String
  angle : String
  rest : R
deriving DecidableEq, Repr

abbrev Thesis (F R : Type) := Merge.Thesis F (Content R)

section
variable {F R : Type}

/-! ## one attempt -/

/-- `thesis.claim.trim().len()` -/
def claimLen (t : Thesis F R) : ℕ := utf8Len (Moagan.trim t.content.claim.toList)

inductive PointOutcome (F R : Type) where
  | accepted (thesis : Thesis F R)
  | rejected (claimLen : ℕ)
  | failed (err : Error)

def classify : Except Error (Thesis F R) → PointOutcome F R
  | .error err => .failed err
  | .ok thesis =>
    if claimLen thesis < MIN_CLAIM_LEN then .rejected (claimLen thesis) else .accepted thesis

/-- the last attempt lets a short one pass -/
def gateShortClaim (thesis : Thesis F R) (attempt : ℕ) : Except Error (Thesis F R) :=
  if claimLen thesis < MIN_CLAIM_LEN ∧ attempt < THESIS_RETRIES then
    .error (.schemaViolation ("thesis claim too short: " ++ toString (claimLen thesis)
      ++ " bytes, at least " ++ toString MIN_CLAIM_LEN ++ " expected"))
  else .ok thesis

def provenanceOf (p : FanoutPoint F) : Merge.ThesisProvenance F where
  sec := (ofLex p.point.pair).1
  model := (ofLex p.point.pair).2
  temperature := p.point.temperature
  replica := p.point.replica
  index := p.point.index
  sourceRun := none
  sourceThesis := none

/-- the fields that are not taken from the answer -/
def stamp (p : FanoutPoint F) (t : Thesis F R) : Thesis F R where
  id := p.thesisId
  content := { t.content with angle := p.point.cell.dimensionId ++ ":" ++ p.point.cell.facetId }
  provenance := some (provenanceOf p)

def generateOnce (p : FanoutPoint F) (attempt : ℕ) (answer : Except Error (Thesis F R)) :
    Except Error (Thesis F R) :=
  match answer with
  | .error err => .error err
  | .ok parsed =>
    match gateShortClaim parsed attempt with
    | .error err => .error err
    | .ok thesis => .ok (stamp p thesis)

/-! ## sessions -/

inductive Label where
  | accepted | rejected | error
  deriving DecidableEq, Repr

/-- a task: before its look at the cancellation, before it has a permit, with the call of an attempt
on its way, behind its last attempt, and behind the loop that joins the tasks -/
inductive Status (F R : Type) where
  | waiting
  | queued
  | running (attempt : ℕ)
  | returned (outcome : PointOutcome F R)
  | recorded (label : Label)
  | lost

structure Job (F R : Type) where
  point : FanoutPoint F
  status : Status F R

/-- `files` are those of `theses/`, by the id in their name; the rest is the memory of a process:
`todo` are the pending points without a task yet -/
structure State (F R : Type) where
  files : String → Option (Thesis F R)
  todo : List (FanoutPoint F)
  spawning : Bool
  cancelled : Bool
  job : ℕ → Option (Job F R)

/-- how the write of a file ends; it may fail behind the rename -/
inductive WriteEnd where
  | written | failedBefore | failedAfter
  deriving DecidableEq, Repr

inductive JobEvent (F R : Type) where
  | check (reason : String)
  | acquire
  | answer (parsed : Except Error (Thesis F R))
  | lose
  | record (w : WriteEnd)

/-- `session` is the start of a process, whatever became of the one before -/
inductive Event (F R : Type) where
  | session
  | spawn
  | joinAll
  | cancel
  | job (n : ℕ) (ev : JobEvent F R)

def Status.isRunning : Status F R → Bool
  | .running _ => true
  | _ => false

def State.running (s : State F R) (p : FanoutPoint F) : Bool :=
  ((s.job p.n).map (·.status.isRunning)).getD false

/-- `retry_thesis_extraction`: what follows an attempt -/
def afterAttempt (attempt : ℕ) : Except Error (Thesis F R) → Status F R
  | .ok thesis => .returned (classify (.ok thesis))
  | .error err =>
    if THESIS_RETRIES ≤ attempt then .returned (classify (.error err)) else .running (attempt + 1)

/-- the label of an outcome, and the thesis that gets its file -/
def recordOutcome : PointOutcome F R → WriteEnd → Label × Option (Thesis F R)
  | .accepted thesis, .written => (.accepted, some thesis)
  | .accepted thesis, .failedAfter => (.error, some thesis)
  | .accepted _, .failedBefore => (.error, none)
  | .rejected _, _ => (.rejected, none)
  | .failed _, _ => (.error, none)

variable (ps : List (FanoutPoint F)) (cap : ℕ)

/-- the permits that are taken: a task holds its own from its first call to its last -/
def State.inUse (s : State F R) : ℕ := ps.countP s.running

/-- a step of a task: its next status, and the thesis that gets its file -/
def advance (s : State F R) (p : FanoutPoint F) :
    Status F R → JobEvent F R → Option (Status F R × Option (Thesis F R))
  | .waiting, .check reason =>
    some (if s.cancelled then .returned (.failed (.cancelled reason)) else .queued, none)
  | .queued, .acquire => if s.inUse ps < cap then some (.running 0, none) else none
  | .running k, .answer parsed => some (afterAttempt k (generateOnce p k parsed), none)
  | .waiting, .lose | .queued, .lose | .running _, .lose => some (.lost, none)
  | .returned o, .record w =>
    if s.spawning then none else some (.recorded (recordOutcome o w).1, (recordOutcome o w).2)
  | _, _ => none

/-- the file of a thesis that is written -/
def save (files : String → Option (Thesis F R)) (id : String) (out : Option (Thesis F R)) :
    String → Option (Thesis F R) :=
  if out.isSome then Function.update files id out else files

def start (files : String → Option (Thesis F R)) : State F R where
  files := files
  todo := ps.filter fun p => (files p.thesisId).isNone
  spawning := true
  cancelled := false
  job := fun _ => none

def step (s : State F R) : Event F R → Option (State F R)
  | .session => some (start ps s.files)
  | .spawn =>
    match s.todo with
    | [] => none
    | p :: rest =>
      if s.spawning && !s.cancelled then
        some { s with todo := rest, job := Function.update s.job p.n (some ⟨p, .waiting⟩) }
      else none
  | .joinAll =>
    if s.spawning && (s.todo.isEmpty || s.cancelled) then some { s with spawning := false }
    else none
  | .cancel => if s.cancelled then none else some { s with cancelled := true }
  | .job n ev =>
    match s.job n with
    | none => none
    | some j =>
      (advance ps cap s j.point j.status ev).map fun next =>
        { s with
          files := save s.files j.point.thesisId next.2
          job := Function.update s.job n (some ⟨j.point, next.1⟩) }

end

end Moagan.Discovery.Sessions
