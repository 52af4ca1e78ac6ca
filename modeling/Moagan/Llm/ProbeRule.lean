import Moagan.Llm.CircuitBreaker

/-!
# State, counter and probe of the breaker (`src/llm/circuit_breaker.rs`)

The operations of `CircuitBreaker`, one after the other and at times that do not go back.

* `Op`, `Clocked.step`    `record_success`, `record_failure`, `trip` and `pre_check`
* `Coherent`              open only with the failures at the threshold, closed only below it
* `Reopens`               a failure of the half-open breaker leaves it open
* `InWindow`              such a failure comes inside the window, or the threshold is one
* `reopens_iff_inWindow`  every run is coherent, and reopens iff its failures come in the window
* `late_probe_closes`     a probe that fails behind the window closes the breaker
-/

namespace Moagan.CircuitBreaker

def Inner.trip (g : Inner) (now : ℕ) : Inner :=
  { g with state := .opened now, failures := g.threshold }

inductive Op where
  | recordSuccess
  | recordFailure
  | trip
  | preCheck
deriving DecidableEq, Repr

def Inner.apply (g : Inner) (now : ℕ) : Op → Inner
  | .recordSuccess => g.recordSuccess
  | .recordFailure => g.recordFailure now
  | .trip => g.trip now
  | .preCheck => (g.preCheck now).1

structure Call where
  op : Op
  now : ℕ
deriving DecidableEq, Repr

/-- the breaker, and when it was used last -/
structure Clocked where
  inner : Inner
  clock : ℕ
deriving DecidableEq, Repr

def Clocked.new (threshold window cooldown start : ℕ) : Clocked :=
  ⟨Inner.new threshold window cooldown, start⟩

def Clocked.step (b : Clocked) (c : Call) : Option Clocked :=
  if c.now < b.clock then none else some ⟨b.inner.apply c.now c.op, c.now⟩

/-- the counter says what the state says -/
def Coherent (b : Clocked) : Prop :=
  (∀ t, b.inner.state = .opened t → b.inner.threshold ≤ b.inner.failures) ∧
    (b.inner.state = .closed → b.inner.failures < b.inner.threshold)

/-- a failure of the half-open breaker leaves it open -/
def Reopens (b : Clocked) (c : Call) : Prop :=
  c.op = .recordFailure → b.inner.state = .halfOpen →
    ∃ t, (b.inner.apply c.now c.op).state = .opened t

/-- the last failure of the half-open breaker is not older than the window, or one failure opens -/
def InWindow (b : Clocked) (c : Call) : Prop :=
  c.op = .recordFailure → b.inner.state = .halfOpen →
    b.inner.expired c.now = false ∨ b.inner.threshold = 1

/-! ## what an operation keeps -/

/-- a breaker that is not closed has its failures at the threshold, a closed one below it -/
structure Stands (g : Inner) : Prop where
  one : 1 ≤ g.threshold
  max : g.threshold ≤ u32Max
  reached : g.state ≠ .closed → g.reached
  below : g.state = .closed → g.failures < g.threshold

theorem stands_new {threshold : ℕ} (h1 : 1 ≤ threshold) (hmax : threshold ≤ u32Max)
    (window cooldown : ℕ) : Stands (Inner.new threshold window cooldown) :=
  ⟨h1, hmax, fun h => absurd rfl h, fun _ => h1⟩

theorem Stands.coherent {b : Clocked} (h : Stands b.inner) : Coherent b := by
  refine ⟨fun t ht => ?_, h.below⟩
  have hn : b.inner.state ≠ .closed := by
    rw [ht]
    exact nofun
  exact (h.reached hn).1

/-- from failures at the threshold, the next one opens inside the window -/
theorem opens_of_reached {g : Inner} (h : g.reached) {now : ℕ} (he : g.expired now = false) :
    g.opens now := by
  have hne : ¬ g.expired now = true := by
    rw [he]
    exact Bool.false_ne_true
  unfold Inner.opens Inner.counted
  rw [if_neg hne]
  exact le_min (h.1.trans (Nat.le_succ _)) (h.1.trans h.2)

/-- behind the window one failure is counted -/
theorem counted_expired {g : Inner} {now : ℕ} (he : g.expired now = true) : g.counted now = 1 := by
  unfold Inner.counted
  rw [if_pos he]
  rfl

theorem recordFailure_stands {g : Inner} (h : Stands g) (now : ℕ) : Stands (g.recordFailure now) := by
  rw [recordFailure_eq]
  by_cases ho : g.opens now
  · refine ⟨h.one, h.max, fun _ => ⟨ho, min_le_right _ _⟩, fun hc => ?_⟩
    rw [if_pos ho] at hc
    cases hc
  · have hlt : g.counted now < g.threshold := not_le.mp ho
    refine ⟨h.one, h.max, fun hn => ?_, fun _ => hlt⟩
    simp only [if_neg ho] at hn
    have he : g.expired now = false := by
      by_contra he
      rw [Bool.not_eq_false] at he
      exact hn (if_pos he)
    -- what is neither opened nor reset was not closed before
    rw [if_neg (by rw [he]; exact Bool.false_ne_true)] at hn
    exact absurd (opens_of_reached (h.reached hn) he) ho

theorem preCheck_stands {g : Inner} (h : Stands g) (now : ℕ) : Stands (g.preCheck now).1 := by
  rcases preCheck_cases g now with ⟨hp, -⟩ | ⟨t, ht, -, hp⟩ | ⟨t, -, -, hp⟩
  · rw [hp]
    exact h
  · rw [hp]
    have hn : g.state ≠ .closed := by
      rw [ht]
      exact nofun
    exact ⟨h.one, h.max, fun _ => h.reached hn, nofun⟩
  · rw [hp]
    exact h

theorem apply_stands {g : Inner} (h : Stands g) (now : ℕ) (op : Op) : Stands (g.apply now op) := by
  cases op with
  | recordSuccess => exact ⟨h.one, h.max, fun hn => absurd rfl hn, fun _ => h.one⟩
  | recordFailure => exact recordFailure_stands h now
  | trip => exact ⟨h.one, h.max, fun _ => ⟨le_refl _, h.max⟩, nofun⟩
  | preCheck => exact preCheck_stands h now

/-- **A failed probe reopens the breaker iff it comes inside the window, or one failure opens.** -/
theorem reopens_iff {b : Clocked} (h : Stands b.inner) (c : Call) : Reopens b c ↔ InWindow b c := by
  refine forall_congr' fun hop => forall_congr' fun hhalf => ?_
  rw [hop]
  show (∃ t, (b.inner.recordFailure c.now).state = .opened t) ↔ _
  have hn : b.inner.state ≠ .closed := by
    rw [hhalf]
    exact nofun
  constructor
  · intro ⟨t, ht⟩
    rw [or_iff_not_imp_left, Bool.not_eq_false]
    intro he
    by_contra hne
    have hno : ¬ b.inner.opens c.now := by
      show ¬ b.inner.threshold ≤ b.inner.counted c.now
      rw [counted_expired he]
      have := h.one
      omega
    rw [recordFailure_eq] at ht
    simp only [if_neg hno, if_pos he] at ht
    cases ht
  · intro hw
    refine ⟨c.now, recordFailure_opened ?_⟩
    by_cases he : b.inner.expired c.now = false
    · exact opens_of_reached (h.reached hn) he
    · show b.inner.threshold ≤ b.inner.counted c.now
      rw [hw.resolve_left he, counted_expired (eq_true_of_ne_false he)]

/-! ## runs -/

theorem step_stands (b : Clocked) (c : Call) (b' : Clocked) (h : Stands b.inner)
    (hs : b.step c = some b') : Stands b'.inner := by
  obtain ⟨-, hb⟩ := Option.ite_none_left_eq_some.mp hs
  rw [← Option.some.inj hb]
  exact apply_stands h c.now c.op

/-- **State invariant and probe rule.**  In every run the breaker is open only with its failures at
the threshold and closed only with them below it.  The failures of the half-open breaker all reopen
it iff each of them comes inside the window of the failure before, or the threshold is one. -/
theorem reopens_iff_inWindow {threshold : ℕ} (h1 : 1 ≤ threshold) (hmax : threshold ≤ u32Max)
    (window cooldown start : ℕ) (cs : List Call) (b : Clocked)
    (hrun : Runs.run Clocked.step (Clocked.new threshold window cooldown start) cs = some b) :
    Runs.Always Clocked.step Coherent (Clocked.new threshold window cooldown start) cs ∧
      (Runs.Along Clocked.step Reopens (Clocked.new threshold window cooldown start) cs ↔
        Runs.Along Clocked.step InWindow (Clocked.new threshold window cooldown start) cs) := by
  have hnew : Stands (Clocked.new threshold window cooldown start).inner :=
    stands_new h1 hmax window cooldown
  constructor
  · intro front t _ hr
    exact (Runs.run_inv (I := fun b => Stands b.inner) (fun b c b' h _ hs => step_stands b c b' h hs)
      front _ t hnew (Runs.along_true front _) hr).coherent
  · have hiff : Runs.Along Clocked.step (fun b c => Reopens b c ↔ InWindow b c)
        (Clocked.new threshold window cooldown start) cs :=
      Runs.along_of_inv (I := fun b => Stands b.inner)
        (fun b c b' h _ hs => ⟨step_stands b c b' h hs, reopens_iff h c⟩) cs _ b hnew
        (Runs.along_true cs _) hrun
    constructor
    · intro h
      exact Runs.along_mono (fun _ _ hq => hq.1.mp hq.2) (Runs.along_and hiff h)
    · intro h
      exact Runs.along_mono (fun _ _ hq => hq.1.mpr hq.2) (Runs.along_and hiff h)

/-- Five failures open the breaker; its probe, behind the cooldown of 30 s, fails 61 s after them. -/
def lateProbe : List Call :=
  [⟨.recordFailure, 0⟩, ⟨.recordFailure, 0⟩, ⟨.recordFailure, 0⟩, ⟨.recordFailure, 0⟩,
    ⟨.recordFailure, 0⟩, ⟨.preCheck, 30⟩, ⟨.recordFailure, 61⟩]

theorem reopens_iff_inWindow_lateProbe :
    ∃ b, Runs.run Clocked.step (Clocked.new 5 60 30 0) lateProbe = some b ∧
      Runs.Always Clocked.step Coherent (Clocked.new 5 60 30 0) lateProbe ∧
      (Runs.Along Clocked.step Reopens (Clocked.new 5 60 30 0) lateProbe ↔
        Runs.Along Clocked.step InWindow (Clocked.new 5 60 30 0) lateProbe) :=
  ⟨_, rfl, reopens_iff_inWindow (by omega) (by decide) 60 30 0 lateProbe _ rfl⟩

/-- the breaker is closed behind the failed probe, with the defaults of `CircuitBreaker` -/
theorem late_probe_closes :
    ∃ b, Runs.run Clocked.step (Clocked.new 5 60 30 0) lateProbe = some b ∧
      b.inner.state = .closed ∧
      ¬ Runs.Along Clocked.step Reopens (Clocked.new 5 60 30 0) lateProbe := by
  refine ⟨_, rfl, rfl, fun h => ?_⟩
  have hsplit : lateProbe = lateProbe.take 6 ++ [⟨.recordFailure, 61⟩] := rfl
  rw [hsplit] at h
  obtain ⟨t, ht⟩ := (Runs.along_append h rfl).1 rfl rfl
  cases ht

end Moagan.CircuitBreaker
