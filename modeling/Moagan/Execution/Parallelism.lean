import Mathlib.Algebra.BigOperators.Group.Finset.Basic
import Mathlib.Algebra.GroupWithZero.Nat
import Mathlib.Algebra.Order.BigOperators.Group.Finset
import Mathlib.Data.List.Induction
import Moagan.Lib.Runs

/-!
# Batches of permits (`src/execution/parallelism.rs`)

A batch is collected one permit at a time, and what is collected is held meanwhile.  The semaphore is
fair: a permit that is released goes to the task that waits longest.

* `Request`, `want`    the two calls, and how many permits they collect
* `State`, `step`      the free permits, who waits for one, and where every task is
* `Inv`, `step_inv`    no permit is lost, and a permit is free only when nobody waits
* `Stuck`              there are unfinished tasks, and all of them wait
* `not_stuck`, `stuck_of_le`   when this cannot happen, and a run to it when it can
* `batches_iff`        a permit must be left when each batch is short of one
-/

namespace Moagan.Execution

open Finset

inductive AcquireError where
  | tooManyPermits (requested cap : ℕ)
  | closed
deriving DecidableEq, Repr

structure Parallelism where
  permits : ℕ
deriving DecidableEq, Repr

def Parallelism.new (maxParallelism : ℕ) : Parallelism := ⟨max maxParallelism 1⟩

/-- the call with which a task takes its batch -/
inductive Request where
  | acquireMany (n : ℕ)
  | acquireManyOwned (n : ℕ)
deriving DecidableEq, Repr

/-- the number of permits that the call collects -/
def Parallelism.want (p : Parallelism) : Request → Except AcquireError ℕ
  | .acquireMany n => .ok (min n p.permits)
  | .acquireManyOwned n =>
    if n = 0 then .ok 0
    else if p.permits < n then .error (.tooManyPermits n p.permits)
    else .ok n

/-- the size of the batch; a call that fails at once takes none -/
def Parallelism.batch (p : Parallelism) (r : Request) : ℕ :=
  match p.want r with
  | .ok w => w
  | .error _ => 0

/-! ## tasks and steps -/

inductive Task where
  | idle
  /-- in the loop of the call, about to ask for a permit -/
  | collecting (held want : ℕ)
  /-- in the queue of the semaphore -/
  | waiting (held want : ℕ)
  | working (held : ℕ)
  | dropping (held : ℕ)
  | finished
deriving DecidableEq, Repr

def Task.held : Task → ℕ
  | idle | finished => 0
  | collecting h _ | waiting h _ | working h | dropping h => h

def Task.isWaiting : Task → Bool
  | waiting _ _ => true
  | _ => false

structure State where
  available : ℕ
  queue : List ℕ
  tasks : ℕ → Task

inductive Act where
  | call (task : ℕ)
  /-- `acquire_owned`, or the end of the loop -/
  | take (task : ℕ)
  | work (task : ℕ)
  /-- a permit of the batch is dropped, or the last one was -/
  | drop (task : ℕ)
deriving DecidableEq, Repr

def State.set (s : State) (i : ℕ) (t : Task) : State :=
  { s with tasks := Function.update s.tasks i t }

def Task.granted : Task → Task
  | waiting h w => collecting (h + 1) w
  | t => t

/-- a permit goes to the head of the queue, or becomes available -/
def State.release (s : State) : State :=
  match s.queue with
  | [] => { s with available := s.available + 1 }
  | j :: queue => { s.set j (s.tasks j).granted with queue := queue }

def start (p : Parallelism) : State := ⟨p.permits, [], fun _ => .idle⟩

def step (p : Parallelism) (requests : List Request) (s : State) : Act → Option State
  | .call i =>
    match requests[i]?, s.tasks i with
    | some r, .idle =>
      match p.want r with
      | .ok w => some (s.set i (.collecting 0 w))
      | .error _ => some (s.set i .finished)
    | _, _ => none
  | .take i =>
    match s.tasks i with
    | .collecting h w =>
      if h = w then some (s.set i (.working w))
      else if s.available = 0 then
        some { s.set i (.waiting h w) with queue := s.queue ++ [i] }
      else some { s.set i (.collecting (h + 1) w) with available := s.available - 1 }
    | _ => none
  | .work i =>
    match s.tasks i with
    | .working h => some (s.set i (.dropping h))
    | _ => none
  | .drop i =>
    match s.tasks i with
    | .dropping 0 => some (s.set i .finished)
    | .dropping (h + 1) => some (s.set i (.dropping h)).release
    | _ => none

/-- there are unfinished tasks, and all of them wait for a permit -/
def Stuck (requests : List Request) (s : State) : Prop :=
  (∃ i < requests.length, s.tasks i ≠ .finished) ∧
    ∀ i < requests.length, s.tasks i ≠ .finished → (s.tasks i).isWaiting = true

/-! ## what every step keeps -/

section
variable {p : Parallelism} {requests : List Request} {s s' : State} {i loose : ℕ}

/-- the task is one of those of the requests, and holds no more than it wants -/
def Fits (p : Parallelism) (requests : List Request) (i : ℕ) : Task → Prop
  | .idle => True
  | .collecting h w => h ≤ w ∧ ∃ r, requests[i]? = some r ∧ p.want r = .ok w
  | .waiting h w => h < w ∧ ∃ r, requests[i]? = some r ∧ p.want r = .ok w
  | .working _ | .dropping _ | .finished => i < requests.length

/-- no permit is lost; `loose` of them are on their way back -/
structure Inv (p : Parallelism) (requests : List Request) (loose : ℕ) (s : State) : Prop where
  conserved : s.available + ∑ j ∈ range requests.length, (s.tasks j).held + loose = p.permits
  fair : s.queue ≠ [] → s.available = 0
  queued : ∀ j, j ∈ s.queue ↔ (s.tasks j).isWaiting = true
  nodup : s.queue.Nodup
  fits : ∀ j, Fits p requests j (s.tasks j)

theorem Fits.lt {t : Task} (h : Fits p requests i t) (hne : t ≠ .idle) : i < requests.length := by
  cases t with
  | idle => exact absurd rfl hne
  | collecting _ _ | waiting _ _ =>
    obtain ⟨-, r, hr, -⟩ := h
    exact (List.getElem?_eq_some_iff.mp hr).1
  | working _ | dropping _ | finished => exact h

theorem sum_held_set (tasks : ℕ → Task) {n : ℕ} (hi : i < n) (t : Task) :
    ∑ j ∈ range n, (Function.update tasks i t j).held + (tasks i).held
      = ∑ j ∈ range n, (tasks j).held + t.held := by
  have hmem : i ∈ range n := mem_range.mpr hi
  have hrest : ∑ j ∈ (range n).erase i, (Function.update tasks i t j).held
      = ∑ j ∈ (range n).erase i, (tasks j).held := by
    refine sum_congr rfl fun j hj => ?_
    rw [Function.update_of_ne (ne_of_mem_erase hj)]
  rw [← add_sum_erase _ _ hmem, ← add_sum_erase _ (fun j => (tasks j).held) hmem, hrest,
    Function.update_self]
  omega

/-- a task that does not wait goes on -/
theorem Inv.set (h : Inv p requests loose s) (hi : i < requests.length) {t : Task} {k : ℕ}
    (hold : (s.tasks i).isWaiting = false) (hnew : t.isWaiting = false)
    (hfits : Fits p requests i t) (hk : k + t.held = loose + (s.tasks i).held) :
    Inv p requests k (s.set i t) := by
  have hsum := sum_held_set s.tasks hi t
  have hcons := h.conserved
  refine ⟨?_, h.fair, fun j => ?_, h.nodup, fun j => ?_⟩
  · show s.available + ∑ j ∈ range requests.length, (Function.update s.tasks i t j).held + k = _
    omega
  · show j ∈ s.queue ↔ (Function.update s.tasks i t j).isWaiting = true
    by_cases hj : j = i
    · subst hj
      rw [Function.update_self, h.queued, hold, hnew]
    · rw [Function.update_of_ne hj, h.queued]
  · show Fits p requests j (Function.update s.tasks i t j)
    by_cases hj : j = i
    · subst hj
      rwa [Function.update_self]
    · rw [Function.update_of_ne hj]
      exact h.fits j

/-- a free permit is taken -/
theorem Inv.take (h : Inv p requests loose s) (hpos : s.available ≠ 0) :
    Inv p requests (loose + 1) { s with available := s.available - 1 } := by
  have hcons := h.conserved
  refine ⟨?_, fun hq => absurd (h.fair hq) hpos, h.queued, h.nodup, h.fits⟩
  show s.available - 1 + ∑ j ∈ range requests.length, (s.tasks j).held + (loose + 1) = _
  omega

/-- a task joins the queue -/
theorem Inv.enqueue (h : Inv p requests loose s) {held want : ℕ}
    (ht : s.tasks i = .collecting held want) (hlt : held < want) (hfree : s.available = 0) :
    Inv p requests loose { s.set i (.waiting held want) with queue := s.queue ++ [i] } := by
  have hfits := h.fits i
  have hi : i < requests.length := hfits.lt (by rw [ht]; exact fun h => by cases h)
  have hsum := sum_held_set s.tasks hi (.waiting held want)
  have hcons := h.conserved
  have hnew : i ∉ s.queue := by
    rw [h.queued, ht]
    exact Bool.false_ne_true
  rw [ht] at hfits hsum
  refine ⟨?_, fun _ => hfree, fun j => ?_, ?_, fun j => ?_⟩
  · show s.available + ∑ j ∈ range requests.length,
      (Function.update s.tasks i (.waiting held want) j).held + loose = _
    have hheld : (Task.collecting held want).held = (Task.waiting held want).held := rfl
    omega
  · show j ∈ s.queue ++ [i] ↔ (Function.update s.tasks i (.waiting held want) j).isWaiting = true
    rw [List.mem_append, List.mem_singleton]
    by_cases hj : j = i
    · subst hj
      rw [Function.update_self]
      exact ⟨fun _ => rfl, fun _ => Or.inr rfl⟩
    · rw [Function.update_of_ne hj, h.queued, or_iff_left hj]
  · refine List.nodup_append.mpr ⟨h.nodup, List.nodup_singleton i, fun a ha b hb heq => ?_⟩
    rw [heq, List.mem_singleton.mp hb] at ha
    exact hnew ha
  · show Fits p requests j (Function.update s.tasks i (.waiting held want) j)
    by_cases hj : j = i
    · subst hj
      rw [Function.update_self]
      exact ⟨hlt, hfits.2⟩
    · rw [Function.update_of_ne hj]
      exact h.fits j

/-- a permit that comes back goes to the one that waits longest -/
theorem Inv.release (h : Inv p requests 1 s) : Inv p requests 0 s.release := by
  obtain ⟨available, queue, tasks⟩ := s
  have hcons := h.conserved
  cases queue with
  | nil =>
    refine ⟨?_, fun hq => absurd rfl hq, h.queued, h.nodup, h.fits⟩
    show available + 1 + ∑ j ∈ range requests.length, (tasks j).held + 0 = _
    change available + ∑ j ∈ range requests.length, (tasks j).held + 1 = _ at hcons
    omega
  | cons j queue =>
    obtain ⟨hj, hnodup⟩ := List.nodup_cons.mp h.nodup
    have hwait : (tasks j).isWaiting = true := (h.queued j).mp List.mem_cons_self
    have hfits : Fits p requests j (tasks j) := h.fits j
    obtain ⟨held, want, ht⟩ : ∃ held want, tasks j = .waiting held want := by
      cases htask : tasks j with
      | waiting held want => exact ⟨held, want, rfl⟩
      | _ =>
        rw [htask] at hwait
        cases hwait
    have hlt : j < requests.length := hfits.lt (by rw [ht]; exact fun h => by cases h)
    have hsum := sum_held_set tasks hlt (.collecting (held + 1) want)
    have hrelease : State.release ⟨available, j :: queue, tasks⟩
        = ⟨available, queue, Function.update tasks j (.collecting (held + 1) want)⟩ := by
      show (⟨available, queue, Function.update tasks j (tasks j).granted⟩ : State) = _
      rw [ht]
      rfl
    rw [hrelease]
    rw [ht] at hfits hsum
    refine ⟨?_, fun _ => h.fair (List.cons_ne_nil j queue), fun k => ?_, hnodup, fun k => ?_⟩
    · show available + ∑ k ∈ range requests.length,
        (Function.update tasks j (.collecting (held + 1) want) k).held + 0 = _
      have hheld : (Task.collecting (held + 1) want).held
        = (Task.waiting held want).held + 1 := rfl
      change available + ∑ k ∈ range requests.length, (tasks k).held + 1 = _ at hcons
      omega
    · show k ∈ queue ↔
        (Function.update tasks j (.collecting (held + 1) want) k).isWaiting = true
      by_cases hk : k = j
      · subst hk
        rw [Function.update_self]
        exact ⟨fun hin => absurd hin hj, fun hw => by cases hw⟩
      · rw [Function.update_of_ne hk, ← h.queued k, List.mem_cons, or_iff_right hk]
    · show Fits p requests k (Function.update tasks j (.collecting (held + 1) want) k)
      by_cases hk : k = j
      · subst hk
        rw [Function.update_self]
        exact ⟨hfits.1, hfits.2⟩
      · rw [Function.update_of_ne hk]
        exact h.fits k

theorem inv_start : Inv p requests 0 (start p) := by
  refine ⟨?_, fun hq => absurd rfl hq, fun j => ?_, List.nodup_nil, fun j => trivial⟩
  · show p.permits + ∑ j ∈ range requests.length, Task.idle.held + 0 = p.permits
    simp [Task.held]
  · exact ⟨fun hin => (by cases hin), fun hw => by cases hw⟩

/-- **No step loses a permit, or leaves one free while a task waits.** -/
theorem step_inv {a : Act} (h : Inv p requests 0 s) (hs : step p requests s a = some s') :
    Inv p requests 0 s' := by
  cases a with
  | call i =>
    unfold step at hs
    dsimp only at hs
    split at hs
    · rename_i r hr ht
      have hi : i < requests.length := (List.getElem?_eq_some_iff.mp hr).1
      have hold : (s.tasks i).isWaiting = false := by rw [ht]; rfl
      have hheld : (s.tasks i).held = 0 := by rw [ht]; rfl
      split at hs
      · rename_i w hw
        obtain rfl := Option.some.inj hs
        exact h.set hi hold rfl ⟨Nat.zero_le w, r, hr, hw⟩ (congrArg (0 + ·) hheld.symm)
      · obtain rfl := Option.some.inj hs
        exact h.set hi hold rfl hi (congrArg (0 + ·) hheld.symm)
    · cases hs
  | take i =>
    unfold step at hs
    dsimp only at hs
    split at hs
    · rename_i held want ht
      have hfits := h.fits i
      have hi : i < requests.length := hfits.lt (by rw [ht]; exact fun h => by cases h)
      have hold : (s.tasks i).isWaiting = false := by rw [ht]; rfl
      have hheld : (s.tasks i).held = held := by rw [ht]; rfl
      rw [ht] at hfits
      split at hs
      · rename_i heq
        obtain rfl := Option.some.inj hs
        exact h.set hi hold rfl hi (by rw [hheld, heq]; rfl)
      · rename_i hne
        have hlt : held < want := lt_of_le_of_ne hfits.1 hne
        split at hs
        · rename_i hfree
          obtain rfl := Option.some.inj hs
          exact h.enqueue ht hlt hfree
        · rename_i hfree
          obtain rfl := Option.some.inj hs
          refine (h.take hfree).set hi hold rfl ⟨hlt, hfits.2⟩ ?_
          show 0 + (held + 1) = 0 + 1 + (s.tasks i).held
          omega
    · cases hs
  | work i =>
    unfold step at hs
    dsimp only at hs
    split at hs
    · rename_i held ht
      have hi : i < requests.length := (h.fits i).lt (by rw [ht]; exact fun h => by cases h)
      obtain rfl := Option.some.inj hs
      exact h.set hi (by rw [ht]; rfl) rfl hi (by rw [ht]; rfl)
    · cases hs
  | drop i =>
    unfold step at hs
    dsimp only at hs
    split at hs
    · rename_i ht
      have hi : i < requests.length := (h.fits i).lt (by rw [ht]; exact fun h => by cases h)
      obtain rfl := Option.some.inj hs
      exact h.set hi (by rw [ht]; rfl) rfl hi (by rw [ht]; rfl)
    · rename_i held ht
      have hi : i < requests.length := (h.fits i).lt (by rw [ht]; exact fun h => by cases h)
      obtain rfl := Option.some.inj hs
      have hfits : Fits p requests i (.dropping held) := hi
      refine (h.set hi (by rw [ht]; rfl) rfl hfits ?_).release
      show 1 + held = 0 + (s.tasks i).held
      rw [ht]
      exact (Nat.add_comm 1 held).trans (Nat.zero_add _).symm
    · cases hs

theorem run_inv {acts : List Act} (hr : Runs.run (step p requests) (start p) acts = some s) :
    Inv p requests 0 s :=
  Runs.run_inv (G := fun _ _ => True) (fun _ _ _ hi _ hs => step_inv hi hs) acts _ _ inv_start
    (Runs.along_true acts _) hr

/-! ## when no task waits forever -/

/-- what the batches hold when each of them is short of one permit -/
def Parallelism.shortBatches (p : Parallelism) (requests : List Request) : ℕ :=
  (requests.map fun r => p.batch r - 1).sum

/-- the batch of the task at this place -/
def batchAt (p : Parallelism) (requests : List Request) (i : ℕ) : ℕ :=
  (requests[i]?.map p.batch).getD 0

theorem shortBatches_eq (requests : List Request) :
    p.shortBatches requests = ∑ i ∈ range requests.length, (batchAt p requests i - 1) := by
  induction requests using List.reverseRecOn with
  | nil => rfl
  | append_singleton requests r ih =>
    have hfirst : ∑ i ∈ range requests.length, (batchAt p (requests ++ [r]) i - 1)
        = ∑ i ∈ range requests.length, (batchAt p requests i - 1) := by
      refine sum_congr rfl fun i hi => ?_
      unfold batchAt
      rw [List.getElem?_append_left (mem_range.mp hi)]
    have hlast : batchAt p (requests ++ [r]) requests.length = p.batch r := by
      simp [batchAt]
    unfold Parallelism.shortBatches at ih ⊢
    rw [List.length_append, List.length_singleton, sum_range_succ, hfirst, hlast, ← ih,
      List.map_append, List.sum_append]
    simp

theorem batchAt_of_want {r : Request} {w : ℕ} (hr : requests[i]? = some r) (hw : p.want r = .ok w) :
    batchAt p requests i = w := by
  unfold batchAt Parallelism.batch
  rw [hr]
  show (match p.want r with | .ok w => w | .error _ => 0) = w
  rw [hw]

theorem batchAt_getElem (hk : i < requests.length) :
    batchAt p requests i = p.batch requests[i] := by
  unfold batchAt
  rw [List.getElem?_eq_getElem hk]
  rfl

/-- **All that wait are short of a permit at least.** -/
theorem not_stuck (h : Inv p requests 0 s) (hlt : p.shortBatches requests < p.permits) :
    ¬ Stuck requests s := by
  intro ⟨⟨i, hi, hne⟩, hall⟩
  have hfree : s.available = 0 :=
    h.fair (List.ne_nil_of_mem ((h.queued i).mpr (hall i hi hne)))
  have hle : ∑ j ∈ range requests.length, (s.tasks j).held
      ≤ ∑ j ∈ range requests.length, (batchAt p requests j - 1) := by
    refine sum_le_sum fun j hj => ?_
    have hfits := h.fits j
    cases ht : s.tasks j with
    | finished => exact Nat.zero_le _
    | waiting held want =>
      rw [ht] at hfits
      obtain ⟨hlt, r, hr, hw⟩ := hfits
      rw [batchAt_of_want hr hw]
      show held ≤ want - 1
      omega
    | _ =>
      have hwait := hall j (mem_range.mp hj) (by rw [ht]; exact fun h => by cases h)
      rw [ht] at hwait
      cases hwait
  have hcons := h.conserved
  rw [shortBatches_eq] at hlt
  omega

/-! ## a run in which they do -/

/-- where a call takes a task that is idle -/
def called (p : Parallelism) (r : Request) : Task :=
  match p.want r with
  | .ok w => .collecting 0 w
  | .error _ => .finished

theorem call_step {r : Request} (hr : requests[i]? = some r) (ht : s.tasks i = .idle) :
    step p requests s (.call i) = some (s.set i (called p r)) := by
  unfold step called
  dsimp only
  rw [hr, ht]
  dsimp only
  cases p.want r <;> rfl

theorem take_step {held want : ℕ} (ht : s.tasks i = .collecting held want) (hlt : held < want)
    (hfree : s.available ≠ 0) : step p requests s (.take i)
      = some { s.set i (.collecting (held + 1) want) with available := s.available - 1 } := by
  unfold step
  dsimp only
  rw [ht]
  dsimp only
  rw [if_neg hlt.ne, if_neg hfree]

theorem wait_step {held want : ℕ} (ht : s.tasks i = .collecting held want) (hlt : held < want)
    (hfree : s.available = 0) : step p requests s (.take i)
      = some { s.set i (.waiting held want) with queue := s.queue ++ [i] } := by
  unfold step
  dsimp only
  rw [ht]
  dsimp only
  rw [if_neg hlt.ne, if_pos hfree]

/-- a task with an empty batch works and is done -/
theorem run_empty (ht : s.tasks i = .collecting 0 0) :
    Runs.run (step p requests) s [.take i, .work i, .drop i] = some (s.set i .finished) := by
  have h1 : step p requests s (.take i) = some (s.set i (.working 0)) := by
    unfold step
    dsimp only
    rw [ht]
    rfl
  have h2 : step p requests (s.set i (.working 0)) (.work i)
      = some ((s.set i (.working 0)).set i (.dropping 0)) := by
    unfold step
    dsimp only [State.set]
    rw [Function.update_self]
  have h3 : step p requests ((s.set i (.working 0)).set i (.dropping 0)) (.drop i)
      = some (((s.set i (.working 0)).set i (.dropping 0)).set i .finished) := by
    unfold step
    dsimp only [State.set]
    rw [Function.update_self]
  rw [Runs.run_cons, h1, Option.bind_some, Runs.run_cons, h2, Option.bind_some, Runs.run_cons, h3]
  unfold State.set
  rw [Function.update_idem, Function.update_idem]
  rfl

/-- so many permits, one after the other -/
theorem take_many (requests : List Request) (i m : ℕ) : ∀ (s : State) (held want : ℕ),
    s.tasks i = .collecting held want → held + m ≤ want → m ≤ s.available →
    ∃ s', Runs.run (step p requests) s (List.replicate m (.take i)) = some s' ∧
      s'.available = s.available - m ∧ s'.queue = s.queue ∧
      s'.tasks = Function.update s.tasks i (.collecting (held + m) want) := by
  induction m with
  | zero =>
    intro s held want ht _ _
    refine ⟨s, rfl, rfl, rfl, ?_⟩
    rw [Nat.add_zero, ← ht, Function.update_eq_self]
  | succ m ih =>
    intro s held want ht hle hfree
    obtain ⟨s', hrun, hav, hq, htasks⟩ := ih
      { s.set i (.collecting (held + 1) want) with available := s.available - 1 } (held + 1)
      want (Function.update_self ..) (by omega) (by show m ≤ s.available - 1; omega)
    refine ⟨s', ?_, ?_, hq, ?_⟩
    · rw [List.replicate_succ, Runs.run_cons, take_step ht (by omega) (by omega)]
      exact hrun
    · rw [hav]
      show s.available - 1 - m = s.available - (m + 1)
      omega
    · rw [htasks]
      show Function.update (Function.update s.tasks i _) i _ = _
      rw [Function.update_idem, Nat.add_assoc, Nat.add_comm 1 m]

/-- a task that is short of a permit, or has failed -/
def Short (p : Parallelism) (r : Request) (t : Task) : Prop :=
  (∃ held, t = .collecting held (p.batch r) ∧ held ≤ p.batch r - 1) ∨
    (t = .finished ∧ p.batch r = 0)

/-- the first `k` tasks take what there is, but each of them leaves one permit of its batch -/
theorem run_short (k : ℕ) (hk : k ≤ requests.length) :
    ∃ acts s, Runs.run (step p requests) (start p) acts = some s ∧ s.queue = [] ∧
      s.available = p.permits - ∑ i ∈ range k, (batchAt p requests i - 1) ∧
      (∀ i < k, ∀ r, requests[i]? = some r → Short p r (s.tasks i)) ∧
      ∀ i, k ≤ i → s.tasks i = .idle := by
  induction k with
  | zero =>
    refine ⟨[], start p, rfl, rfl, ?_, fun i hi => absurd hi (Nat.not_lt_zero i), fun _ _ => rfl⟩
    rw [range_zero, sum_empty, Nat.sub_zero]
    rfl
  | succ k ih =>
    obtain ⟨acts, s, hrun, hq, hav, hshort, hidle⟩ := ih (Nat.le_of_succ_le hk)
    have hr : requests[k]? = some requests[k] := List.getElem?_eq_getElem hk
    -- the others are as they were
    have hothers : ∀ (tasks : ℕ → Task) {t : Task}, tasks = Function.update s.tasks k t →
        Short p requests[k] t → (∀ i < k + 1, ∀ r, requests[i]? = some r → Short p r (tasks i)) ∧
          ∀ i, k + 1 ≤ i → tasks i = .idle := by
      rintro tasks t rfl ht
      refine ⟨fun i hi r hri => ?_, fun i hi => ?_⟩
      · by_cases heq : i = k
        · subst heq
          rw [Function.update_self, ← Option.some.inj (hr.symm.trans hri)]
          exact ht
        · rw [Function.update_of_ne heq]
          exact hshort i (by omega) r hri
      · rw [Function.update_of_ne (by omega)]
        exact hidle i (by omega)
    have hcall := call_step (p := p) hr (hidle k (le_refl k))
    have hrun₁ : ∀ rest, Runs.run (step p requests) (start p) (acts ++ .call k :: rest)
        = Runs.run (step p requests) (s.set k (called p requests[k])) rest := by
      intro rest
      rw [Runs.run_append, hrun, Option.bind_some, Runs.run_cons, hcall, Option.bind_some]
    rw [sum_range_succ, batchAt_getElem hk]
    unfold called at hrun₁
    cases hw : p.want requests[k] with
    | error e =>
      have hzero : p.batch requests[k] = 0 := by
        unfold Parallelism.batch
        rw [hw]
      rw [hw] at hrun₁
      obtain ⟨h1, h2⟩ := hothers (s.set k .finished).tasks rfl (Or.inr ⟨rfl, hzero⟩)
      refine ⟨acts ++ [.call k], s.set k .finished, hrun₁ [], hq, ?_, h1, h2⟩
      show s.available = _
      omega
    | ok w =>
      have hsize : p.batch requests[k] = w := by
        unfold Parallelism.batch
        rw [hw]
      rw [hw] at hrun₁
      obtain ⟨s', hrun', hav', hq', htasks⟩ := take_many (p := p) requests k
        (min (w - 1) s.available) (s.set k (.collecting 0 w)) 0 w (Function.update_self ..)
        (by omega) (min_le_right _ _)
      have hset : (s.set k (.collecting 0 w)).tasks = Function.update s.tasks k (.collecting 0 w) :=
        rfl
      rw [hset, Function.update_idem] at htasks
      have hleft : 0 + min (w - 1) s.available ≤ p.batch requests[k] - 1 := by omega
      obtain ⟨h1, h2⟩ := hothers s'.tasks htasks (Or.inl ⟨_, by rw [hsize], hleft⟩)
      refine ⟨acts ++ .call k :: List.replicate (min (w - 1) s.available) (.take k), s',
        (hrun₁ _).trans hrun', hq'.trans hq, ?_, h1, h2⟩
      rw [hav']
      show s.available - min (w - 1) s.available = _
      omega

/-- the first `k` tasks have asked for one more permit, and there is none -/
theorem run_blocked (hfree : s.available = 0)
    (hshort : ∀ i < requests.length, ∀ r, requests[i]? = some r → Short p r (s.tasks i)) (k : ℕ)
    (hk : k ≤ requests.length) :
    ∃ acts s', Runs.run (step p requests) s acts = some s' ∧ s'.available = 0 ∧
      (∀ i < k, (s'.tasks i).isWaiting = true ∨
        (s'.tasks i = .finished ∧ batchAt p requests i = 0)) ∧
      ∀ i, k ≤ i → s'.tasks i = s.tasks i := by
  induction k with
  | zero => exact ⟨[], s, rfl, hfree, fun i hi => absurd hi (Nat.not_lt_zero i), fun _ _ => rfl⟩
  | succ k ih =>
    obtain ⟨acts, s', hrun, hav, hblocked, hsame⟩ := ih (Nat.le_of_succ_le hk)
    have hbatch := batchAt_getElem (p := p) hk
    -- what is left is a run that takes this task to its place and leaves the others
    suffices hone : ∃ acts' s'' t, Runs.run (step p requests) s' acts' = some s'' ∧
        s''.available = 0 ∧ s''.tasks = Function.update s'.tasks k t ∧
        (t.isWaiting = true ∨ (t = .finished ∧ batchAt p requests k = 0)) by
      obtain ⟨acts', s'', t, hrun', hav', htasks, ht⟩ := hone
      refine ⟨acts ++ acts', s'', ?_, hav', fun i hi => ?_, fun i hi => ?_⟩
      · rw [Runs.run_append, hrun]
        exact hrun'
      · by_cases heq : i = k
        · subst heq
          rw [htasks, Function.update_self]
          exact ht
        · rw [htasks, Function.update_of_ne heq]
          exact hblocked i (by omega)
      · rw [htasks, Function.update_of_ne (by omega)]
        exact hsame i (by omega)
    have hnow := hsame k (le_refl k)
    obtain ⟨held, ht, hle⟩ | ⟨ht, hzero⟩ := hshort k hk _ (List.getElem?_eq_getElem hk)
    · rw [ht] at hnow
      by_cases hpos : p.batch requests[k] = 0
      · have hheld : held = 0 := by omega
        rw [hheld, hpos] at hnow
        exact ⟨[.take k, .work k, .drop k], s'.set k .finished, .finished, run_empty hnow, hav, rfl,
          Or.inr ⟨rfl, hbatch.trans hpos⟩⟩
      · refine ⟨[.take k], { s'.set k (.waiting held (p.batch requests[k])) with
            queue := s'.queue ++ [k] }, .waiting held (p.batch requests[k]), ?_, hav, rfl,
          Or.inl rfl⟩
        rw [Runs.run_cons, wait_step hnow (by omega) hav]
        rfl
    · rw [ht] at hnow
      exact ⟨[], s', .finished, rfl, hav, by rw [← hnow, Function.update_eq_self],
        Or.inr ⟨rfl, hbatch.trans hzero⟩⟩

/-- **Batches that can all lack one come to wait for each other.** -/
theorem stuck_of_le (hpos : 0 < p.permits) (hle : p.permits ≤ p.shortBatches requests) :
    ∃ acts s, Runs.run (step p requests) (start p) acts = some s ∧ Stuck requests s := by
  rw [shortBatches_eq] at hle
  obtain ⟨acts, s, hrun, -, hav, hshort, -⟩ := run_short (p := p) requests.length (le_refl _)
  have hfree : s.available = 0 := by omega
  obtain ⟨acts', s', hrun', -, hblocked, -⟩ :=
    run_blocked hfree hshort requests.length (le_refl _)
  refine ⟨acts ++ acts', s', by rw [Runs.run_append, hrun]; exact hrun', ?_, fun i hi hne => ?_⟩
  · -- some batch is not empty
    obtain ⟨i, hi, hbatch⟩ := exists_ne_zero_of_sum_ne_zero (by omega :
      ∑ i ∈ range requests.length, (batchAt p requests i - 1) ≠ 0)
    refine ⟨i, mem_range.mp hi, fun hfin => ?_⟩
    obtain hwait | ⟨-, hzero⟩ := hblocked i (mem_range.mp hi)
    · rw [hfin] at hwait
      cases hwait
    · omega
  · exact (hblocked i hi).resolve_right fun h => hne h.1

/-- **batches of permits.**  In no run do all unfinished tasks wait for a permit, if and only if one
is left when each batch is short of one. -/
theorem batches_iff (maxParallelism : ℕ) (requests : List Request) :
    (∀ acts s, Runs.run (step (Parallelism.new maxParallelism) requests)
        (start (Parallelism.new maxParallelism)) acts = some s → ¬ Stuck requests s) ↔
      (requests.map fun r => (Parallelism.new maxParallelism).batch r - 1).sum
        < (Parallelism.new maxParallelism).permits := by
  have hpos : 0 < (Parallelism.new maxParallelism).permits :=
    lt_of_lt_of_le Nat.zero_lt_one (le_max_right maxParallelism 1)
  constructor
  · intro h
    by_contra hle
    have hall : (Parallelism.new maxParallelism).permits
        ≤ (Parallelism.new maxParallelism).shortBatches requests := not_lt.mp hle
    obtain ⟨acts, s, hrun, hstuck⟩ := stuck_of_le hpos hall
    exact h acts s hrun hstuck
  · exact fun hlt acts s hrun => not_stuck (run_inv hrun) hlt

/-- two tasks take two permits each out of two -/
theorem batches_deadlock : ¬ ∀ (maxParallelism : ℕ) (requests : List Request) (acts : List Act)
    (s : State), Runs.run (step (Parallelism.new maxParallelism) requests)
      (start (Parallelism.new maxParallelism)) acts = some s → ¬ Stuck requests s := by
  intro h
  refine h 2 [.acquireMany 2, .acquireMany 2]
    [.call 0, .call 1, .take 0, .take 1, .take 0, .take 1] _ rfl ⟨⟨0, by decide, ?_⟩, fun i hi _ => ?_⟩
  · exact fun hfin => by cases hfin
  · obtain rfl | rfl : i = 0 ∨ i = 1 := by
      have hlt : i < 2 := hi
      omega
    · rfl
    · rfl

end

end Moagan.Execution
