import Mathlib.Algebra.Order.Field.Rat
import Mathlib.Tactic.Linarith
import Mathlib.Tactic.NormNum
import Mathlib.Tactic.Ring
import Moagan.Lib.Runs

/-!
# The token bucket (`src/llm/rate_limiter.rs`)

* `Inner`                the bucket behind the mutex, `refill`, and one locked round of each
                         operation
* `Sys`                  the bucket with the tasks that use it: who sleeps until when, how many
                         grants and refunds were returned
* `Uncredited`           no round of `acquire_with_max` credits a wait that nobody sleeps
* `bucket_bound`         then grants minus refunds stay below what was there and was refilled

Tokens and times are rationals; `Instant` never goes back.
-/

set_option linter.unusedSectionVars false

namespace Moagan.RateLimiter

/-! ## the bucket -/

/-- `RateLimitConfig`; its `u32` numbers are used as fractions, of which only the sign matters -/
structure RateLimitConfig where
  capacity : ℚ
  refillPerSec : ℚ
  initial : Option ℚ
  capacity_nonneg : 0 ≤ capacity
  refill_nonneg : 0 ≤ refillPerSec
  initial_nonneg : ∀ x ∈ initial, 0 ≤ x

structure Inner where
  capacity : ℚ
  refillPerSec : ℚ
  tokens : ℚ
  lastRefill : ℚ
deriving DecidableEq, Repr

/-- the tokens a new bucket starts with -/
def RateLimitConfig.start (cfg : RateLimitConfig) : ℚ := cfg.initial.getD cfg.capacity

/-- `RateLimiter::new` -/
def RateLimitConfig.bucket (cfg : RateLimitConfig) (now : ℚ) : Inner :=
  { capacity := cfg.capacity, refillPerSec := cfg.refillPerSec, tokens := cfg.start
    lastRefill := now }

/-- `Inner::refill`; a clock that went back counts as no time -/
def Inner.refill (g : Inner) (now : ℚ) : Inner :=
  let elapsed := max (now - g.lastRefill) 0
  { g with tokens := min (g.tokens + elapsed * g.refillPerSec) g.capacity, lastRefill := now }

/-- the time until the missing part of a token is there -/
def Inner.wait (g : Inner) : ℚ := (1 - g.tokens) / max g.refillPerSec 1

/-- one round of `acquire`: done, or the time to sleep before the next round -/
def Inner.acquire (g : Inner) (now : ℚ) : Inner × Option ℚ :=
  let g := g.refill now
  if 1 ≤ g.tokens then ({ g with tokens := g.tokens - 1 }, none) else (g, some g.wait)

/-- `acquire_with_max`: the total wait it reports, or the wait that exceeds the budget.  The wait
that is credited is neither slept nor reported. -/
def Inner.acquireWithMax (g : Inner) (now budget : ℚ) : Inner × Except ℚ ℚ :=
  let g := g.refill now
  if 1 ≤ g.tokens then ({ g with tokens := g.tokens - 1 }, .ok 0)
  else if budget < g.wait then (g, .error g.wait)
  else
    let tokens := min (g.tokens + g.wait * g.refillPerSec) g.capacity
    ({ g with tokens := tokens - 1 }, .ok 0)

def Inner.tryAcquire (g : Inner) (now : ℚ) : Inner × Bool :=
  let g := g.refill now
  if 1 ≤ g.tokens then ({ g with tokens := g.tokens - 1 }, true) else (g, false)

def Inner.refund (g : Inner) : Inner := { g with tokens := min (g.tokens + 1) g.capacity }

/-! ## the tasks -/

/-- a task is between operations, or sleeps in `acquire` -/
inductive Task where
  | idle
  | asleep (totalWait wake : ℚ)
deriving DecidableEq, Repr

inductive Op where
  | acquire
  | acquireWithMax (budget : ℚ)
  | tryAcquire
  | refund
deriving DecidableEq, Repr

/-- at time `now` a task runs one locked round of an operation -/
structure Event (ι : Type) where
  task : ι
  op : Op
  now : ℚ

structure Sys (ι : Type) where
  bucket : Inner
  clock : ℚ
  tasks : ι → Task
  granted : ℕ
  refunded : ℕ

section
variable {ι : Type} [DecidableEq ι]

def Sys.init (cfg : RateLimitConfig) (start : ℚ) : Sys ι :=
  { bucket := cfg.bucket start, clock := start, tasks := fun _ => .idle, granted := 0, refunded := 0 }

def Sys.setTask (s : Sys ι) (i : ι) (t : Task) : ι → Task := fun j => if j = i then t else s.tasks j

/-- `acquire` from its start or after a sleep of `total` -/
def Sys.acquireRound (s : Sys ι) (i : ι) (now total : ℚ) : Sys ι :=
  match s.bucket.acquire now with
  | (g, none) => { s with
      bucket := g, clock := now, tasks := s.setTask i .idle, granted := s.granted + 1 }
  | (g, some wait) => { s with
      bucket := g, clock := now, tasks := s.setTask i (.asleep (total + wait) (now + wait)) }

/-- One event.  Time does not go back, and a task that sleeps does nothing before it wakes. -/
def Sys.step (s : Sys ι) (e : Event ι) : Option (Sys ι) :=
  if e.now < s.clock then none
  else match e.op, s.tasks e.task with
    | .acquire, .idle => some (s.acquireRound e.task e.now 0)
    | .acquire, .asleep total wake =>
      if wake ≤ e.now then some (s.acquireRound e.task e.now total) else none
    | .acquireWithMax budget, .idle =>
      match s.bucket.acquireWithMax e.now budget with
      | (g, .ok _) => some { s with bucket := g, clock := e.now, granted := s.granted + 1 }
      | (g, .error _) => some { s with bucket := g, clock := e.now }
    | .tryAcquire, .idle =>
      match s.bucket.tryAcquire e.now with
      | (g, true) => some { s with bucket := g, clock := e.now, granted := s.granted + 1 }
      | (g, false) => some { s with bucket := g, clock := e.now }
    | .refund, .idle =>
      some { s with bucket := s.bucket.refund, clock := e.now, refunded := s.refunded + 1 }
    | _, .asleep .. => none

/-- no wait is credited: `acquire_with_max` finds a token, or its budget is too small -/
def Uncredited (s : Sys ι) (e : Event ι) : Prop :=
  ∀ budget, e.op = .acquireWithMax budget →
    1 ≤ (s.bucket.refill e.now).tokens ∨ budget < (s.bucket.refill e.now).wait

/-! ## the bound -/

/-- what a bucket has and has given is covered by what it started with and the time -/
structure Covered (cfg : RateLimitConfig) (start : ℚ) (s : Sys ι) : Prop where
  capacity : s.bucket.capacity = cfg.capacity
  refill : s.bucket.refillPerSec = cfg.refillPerSec
  nonneg : 0 ≤ s.bucket.tokens
  past : s.bucket.lastRefill ≤ s.clock
  balance : s.bucket.tokens + (s.granted : ℚ) - s.refunded ≤
    cfg.start + cfg.refillPerSec * (s.bucket.lastRefill - start)

theorem RateLimitConfig.start_nonneg (cfg : RateLimitConfig) : 0 ≤ cfg.start := by
  unfold RateLimitConfig.start
  cases h : cfg.initial with
  | none => exact cfg.capacity_nonneg
  | some x => exact cfg.initial_nonneg x h

theorem covered_init (cfg : RateLimitConfig) (start : ℚ) :
    Covered cfg start (Sys.init cfg start : Sys ι) where
  capacity := rfl
  refill := rfl
  nonneg := cfg.start_nonneg
  past := le_refl start
  balance := by simp [Sys.init, RateLimitConfig.bucket]

/-- a bucket that was refilled at `now` -/
structure Refilled (cfg : RateLimitConfig) (start : ℚ) (s : Sys ι) (now : ℚ) (g : Inner) : Prop where
  capacity : g.capacity = cfg.capacity
  refill : g.refillPerSec = cfg.refillPerSec
  nonneg : 0 ≤ g.tokens
  le_capacity : g.tokens ≤ cfg.capacity
  last : g.lastRefill = now
  balance : g.tokens + (s.granted : ℚ) - s.refunded ≤ cfg.start + cfg.refillPerSec * (now - start)

theorem Covered.refilled {cfg : RateLimitConfig} {start : ℚ} {s : Sys ι} (h : Covered cfg start s)
    {now : ℚ} (hnow : s.clock ≤ now) : Refilled cfg start s now (s.bucket.refill now) := by
  have hlast : s.bucket.lastRefill ≤ now := h.past.trans hnow
  have helapsed : max (now - s.bucket.lastRefill) 0 = now - s.bucket.lastRefill :=
    max_eq_left (by linarith)
  have hgain : 0 ≤ (now - s.bucket.lastRefill) * cfg.refillPerSec :=
    mul_nonneg (by linarith) cfg.refill_nonneg
  have htokens : (s.bucket.refill now).tokens =
      min (s.bucket.tokens + (now - s.bucket.lastRefill) * cfg.refillPerSec) cfg.capacity := by
    simp only [Inner.refill, helapsed, h.refill, h.capacity]
  refine ⟨h.capacity, h.refill, ?_, ?_, rfl, ?_⟩
  · rw [htokens]
    exact le_min (by linarith [h.nonneg]) cfg.capacity_nonneg
  · rw [htokens]
    exact min_le_right _ _
  · have hle : (s.bucket.refill now).tokens ≤
        s.bucket.tokens + (now - s.bucket.lastRefill) * cfg.refillPerSec := by
      rw [htokens]
      exact min_le_left _ _
    have hb := h.balance
    have e : cfg.refillPerSec * (now - start) =
        cfg.refillPerSec * (s.bucket.lastRefill - start) +
          (now - s.bucket.lastRefill) * cfg.refillPerSec := by ring
    rw [e]
    linarith

/-- the bound and the range of the tokens behind an operation -/
def Within (cfg : RateLimitConfig) (s : Sys ι) : Prop :=
  0 ≤ s.bucket.tokens ∧ s.bucket.tokens ≤ cfg.capacity

/-- a round that takes nothing -/
theorem Refilled.keep {cfg : RateLimitConfig} {start now : ℚ} {s : Sys ι} {g : Inner}
    (h : Refilled cfg start s now g) (tasks : ι → Task) :
    Covered cfg start { s with bucket := g, clock := now, tasks := tasks } ∧
      Within cfg { s with bucket := g, clock := now, tasks := tasks } :=
  ⟨⟨h.capacity, h.refill, h.nonneg, h.last.le, by rw [h.last]; exact h.balance⟩,
    h.nonneg, h.le_capacity⟩

/-- a round that takes a token that is there -/
theorem Refilled.take {cfg : RateLimitConfig} {start now : ℚ} {s : Sys ι} {g : Inner}
    (h : Refilled cfg start s now g) (htoken : 1 ≤ g.tokens) (tasks : ι → Task) :
    Covered cfg start { s with
        bucket := { g with tokens := g.tokens - 1 }, clock := now, tasks := tasks,
        granted := s.granted + 1 } ∧
      Within cfg { s with
        bucket := { g with tokens := g.tokens - 1 }, clock := now, tasks := tasks,
        granted := s.granted + 1 } := by
  have hn : 0 ≤ g.tokens - 1 := by linarith
  refine ⟨⟨h.capacity, h.refill, hn, h.last.le, ?_⟩, hn, ?_⟩
  · have hb := h.balance
    rw [← h.last] at hb
    show g.tokens - 1 + ((s.granted + 1 : ℕ) : ℚ) - s.refunded ≤ _
    push_cast
    linarith
  · have hle := h.le_capacity
    show g.tokens - 1 ≤ _
    linarith

theorem Covered.refund {cfg : RateLimitConfig} {start now : ℚ} {s : Sys ι} (h : Covered cfg start s)
    (hnow : s.clock ≤ now) :
    Covered cfg start
        { s with bucket := s.bucket.refund, clock := now, refunded := s.refunded + 1 } ∧
      Within cfg { s with bucket := s.bucket.refund, clock := now, refunded := s.refunded + 1 } := by
  have htokens : s.bucket.refund.tokens = min (s.bucket.tokens + 1) cfg.capacity := by
    simp only [Inner.refund, h.capacity]
  have hn : 0 ≤ s.bucket.refund.tokens := by
    rw [htokens]
    exact le_min (by linarith [h.nonneg]) cfg.capacity_nonneg
  refine ⟨⟨h.capacity, h.refill, hn, h.past.trans hnow, ?_⟩, hn, ?_⟩
  · have hle : s.bucket.refund.tokens ≤ s.bucket.tokens + 1 := by
      rw [htokens]
      exact min_le_left _ _
    have hb := h.balance
    show s.bucket.refund.tokens + s.granted - ((s.refunded + 1 : ℕ) : ℚ) ≤
      cfg.start + cfg.refillPerSec * (s.bucket.lastRefill - start)
    push_cast
    linarith
  · rw [htokens]
    exact min_le_right _ _

theorem acquireRound_covered {cfg : RateLimitConfig} {start now : ℚ} {s : Sys ι}
    (h : Covered cfg start s) (hnow : s.clock ≤ now) (i : ι) (total : ℚ) :
    Covered cfg start (s.acquireRound i now total) ∧ Within cfg (s.acquireRound i now total) := by
  have hr := h.refilled hnow
  unfold Sys.acquireRound Inner.acquire
  by_cases ht : 1 ≤ (s.bucket.refill now).tokens
  · simp only [ht, if_true]
    exact hr.take ht _
  · simp only [ht, if_false]
    exact hr.keep _

/-- **Every uncredited event keeps the balance and leaves the tokens in range.** -/
theorem step_covered {cfg : RateLimitConfig} {start : ℚ} (s : Sys ι) (e : Event ι) (s' : Sys ι)
    (h : Covered cfg start s) (hu : Uncredited s e) (hs : s.step e = some s') :
    Covered cfg start s' ∧ Within cfg s' := by
  obtain ⟨i, op, now⟩ := e
  unfold Sys.step at hs
  split at hs
  · cases hs
  · rename_i hlt
    have hnow : s.clock ≤ now := not_lt.mp hlt
    have hr := h.refilled hnow
    cases op with
    | acquire =>
      cases ht : s.tasks i with
      | idle =>
        simp only [ht] at hs
        exact Option.some.inj hs ▸ acquireRound_covered h hnow i 0
      | asleep total wake =>
        simp only [ht] at hs
        split at hs
        · exact Option.some.inj hs ▸ acquireRound_covered h hnow i total
        · cases hs
    | acquireWithMax budget =>
      cases ht : s.tasks i with
      | asleep total wake => simp only [ht] at hs; cases hs
      | idle =>
        simp only [ht] at hs
        unfold Inner.acquireWithMax at hs
        by_cases h1 : 1 ≤ (s.bucket.refill now).tokens
        · simp only [h1, if_true] at hs
          exact Option.some.inj hs ▸ hr.take h1 _
        · have h2 : budget < (s.bucket.refill now).wait := (hu budget rfl).resolve_left h1
          simp only [h1, h2, if_true, if_false] at hs
          exact Option.some.inj hs ▸ hr.keep _
    | tryAcquire =>
      cases ht : s.tasks i with
      | asleep total wake => simp only [ht] at hs; cases hs
      | idle =>
        simp only [ht] at hs
        unfold Inner.tryAcquire at hs
        by_cases h1 : 1 ≤ (s.bucket.refill now).tokens
        · simp only [h1, if_true] at hs
          exact Option.some.inj hs ▸ hr.take h1 _
        · simp only [h1, if_false] at hs
          exact Option.some.inj hs ▸ hr.keep _
    | refund =>
      cases ht : s.tasks i with
      | asleep total wake => simp only [ht] at hs; cases hs
      | idle =>
        simp only [ht] at hs
        exact Option.some.inj hs ▸ h.refund hnow

/-- **The token bound.**  In every run in which no wait is credited, the grants minus the refunds
stay below the initial tokens plus the refill of the time that has passed, and behind every
operation the tokens are between zero and the capacity. -/
theorem bucket_bound (cfg : RateLimitConfig) (start : ℚ) (es : List (Event ι)) (s : Sys ι)
    (hrun : Runs.run Sys.step (Sys.init cfg start) es = some s)
    (hu : Runs.Along Sys.step Uncredited (Sys.init cfg start) es) :
    (s.granted : ℚ) - s.refunded ≤ cfg.start + cfg.refillPerSec * (s.clock - start) ∧
      (es ≠ [] → 0 ≤ s.bucket.tokens ∧ s.bucket.tokens ≤ cfg.capacity) := by
  have hstep : ∀ s e s', Covered cfg start s → Uncredited s e → Sys.step s e = some s' →
      Covered cfg start (s' : Sys ι) := fun s e s' h hu hs => (step_covered s e s' h hu hs).1
  have hc := Runs.run_inv hstep es _ s (covered_init cfg start) hu hrun
  constructor
  · have hb := hc.balance
    have hn := hc.nonneg
    have hm : cfg.refillPerSec * (s.bucket.lastRefill - start) ≤
        cfg.refillPerSec * (s.clock - start) :=
      mul_le_mul_of_nonneg_left (by linarith [hc.past]) cfg.refill_nonneg
    linarith
  · intro hne
    exact Runs.run_last (J := Within cfg) hstep (fun s e s' h hu hs => (step_covered s e s' h hu hs).2)
      hne (covered_init cfg start) hu hrun

end

/-- one token, one more each second -/
def oneToken : RateLimitConfig where
  capacity := 1
  refillPerSec := 1
  initial := none
  capacity_nonneg := by norm_num
  refill_nonneg := by norm_num
  initial_nonneg := by simp

/-- two tasks wait for their turn -/
def queued : List (Event ℕ) := [⟨0, .acquire, 0⟩, ⟨1, .acquire, 0⟩, ⟨1, .acquire, 1⟩]

theorem bucket_bound_queued :
    ∃ s, Runs.run Sys.step (Sys.init oneToken 0) queued = some s ∧ s.granted = 2 ∧
      (s.granted : ℚ) - s.refunded ≤ oneToken.start + oneToken.refillPerSec * (s.clock - 0) := by
  obtain ⟨s, hs, hg⟩ := Option.map_eq_some_iff.mp
    (show (Runs.run Sys.step (Sys.init oneToken 0) queued).map Sys.granted = some 2 by
      decide +kernel)
  refine ⟨s, hs, hg, (bucket_bound oneToken 0 queued s hs ?_).1⟩
  refine ⟨?_, fun s₁ _ => ⟨?_, fun s₂ _ => ⟨?_, fun s₃ _ => trivial⟩⟩⟩ <;>
    · intro budget h
      cases h

/-- the second task gets a token that is not there: it is credited a wait that it does not sleep -/
def credited : List (Event ℕ) := [⟨0, .acquire, 0⟩, ⟨1, .acquireWithMax 1, 0⟩]

theorem bucket_overdrawn :
    ∃ s, Runs.run Sys.step (Sys.init oneToken 0) credited = some s ∧
      ¬ ((s.granted : ℚ) - s.refunded ≤ oneToken.start + oneToken.refillPerSec * (s.clock - 0)) := by
  obtain ⟨s, hs, hv⟩ := Option.map_eq_some_iff.mp
    (show (Runs.run Sys.step (Sys.init oneToken 0) credited).map
        (fun s => (s.granted, s.refunded, s.clock)) = some (2, 0, 0) by decide +kernel)
  obtain ⟨hg, hr, hc⟩ : s.granted = 2 ∧ s.refunded = 0 ∧ s.clock = 0 := by simpa using hv
  refine ⟨s, hs, ?_⟩
  rw [hg, hr, hc]
  norm_num [oneToken, RateLimitConfig.start]

end Moagan.RateLimiter
