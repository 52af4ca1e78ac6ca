import Mathlib.Data.Nat.Basic
import Mathlib.Tactic.Ring
import Moagan.Lib.Runs

/-!
# The circuit breaker (`src/llm/circuit_breaker.rs`)

* `Inner`               the breaker behind the mutex, one critical section of each operation
* `Sys`                 the breaker with the callers of `run`: who waits until when, whose wrapped
                        call is out, and how many calls started since the breaker opened
* `OneProbe`            no second caller is let through behind an opening
* `breaker_admission`   then no call starts inside a cooldown, and one probe at most behind it

Instants are natural numbers; `Instant` never goes back.
-/

set_option linter.unusedSectionVars false

namespace Moagan.CircuitBreaker

/-! ## the breaker -/

inductive State where
  | closed
  | opened (t : ℕ)
  | halfOpen
deriving DecidableEq, Repr

structure Inner where
  state : State
  failures : ℕ
  lastFailure : Option ℕ
  threshold : ℕ
  window : ℕ
  cooldown : ℕ
deriving DecidableEq, Repr

/-- `CircuitBreaker::new` -/
def Inner.new (threshold window cooldown : ℕ) : Inner :=
  { state := .closed, failures := 0, lastFailure := none, threshold := threshold, window := window
    cooldown := cooldown }

def u32Max : ℕ := 4294967295

/-- the last failure is longer ago than the window; a failure that lies ahead is none -/
def Inner.expired (g : Inner) (now : ℕ) : Bool :=
  match g.lastFailure with
  | some t => t ≤ now && g.window < now - t
  | none => false

def Inner.recordSuccess (g : Inner) : Inner :=
  { g with state := .closed, failures := 0, lastFailure := none }

def Inner.recordFailure (g : Inner) (now : ℕ) : Inner :=
  let g := if g.expired now then { g with failures := 0, state := .closed } else g
  let g := { g with failures := min (g.failures + 1) u32Max, lastFailure := some now }
  if g.threshold ≤ g.failures then { g with state := .opened now } else g

/-- `pre_check`: the time to sleep, if any -/
def Inner.preCheck (g : Inner) (now : ℕ) : Inner × Option ℕ :=
  match g.state with
  | .closed => (g, none)
  | .opened t =>
    let elapsed := now - t
    if g.cooldown ≤ elapsed then ({ g with state := .halfOpen }, none)
    else (g, some (g.cooldown - elapsed))
  | .halfOpen => (g, none)

inductive Outcome where
  | success
  | failure
deriving DecidableEq, Repr

def Inner.record (g : Inner) (now : ℕ) : Outcome → Inner
  | .success => g.recordSuccess
  | .failure => g.recordFailure now

/-- the failures of the window, with one at `now` -/
def Inner.counted (g : Inner) (now : ℕ) : ℕ :=
  min ((if g.expired now then 0 else g.failures) + 1) u32Max

/-- a failure at `now` reaches the threshold -/
def Inner.opens (g : Inner) (now : ℕ) : Prop := g.threshold ≤ g.counted now

instance (g : Inner) (now : ℕ) : Decidable (g.opens now) :=
  inferInstanceAs (Decidable (g.threshold ≤ g.counted now))

/-- the outcome closes a breaker: a success, or a first failure behind the window -/
def Inner.closes (g : Inner) (now : ℕ) : Outcome → Prop
  | .success => True
  | .failure => g.expired now = true ∧ ¬ g.opens now

/-! ## the callers -/

/-- where a caller is in `run`: before it, asleep, past the wait, or in the wrapped call -/
inductive Task where
  | idle
  | asleep (wake : ℕ)
  | ready
  | calling
deriving DecidableEq, Repr

/-- past `pre_check`, with the wrapped call still to come -/
def Task.admitted : Task → Prop
  | .asleep _ => True
  | .ready => True
  | _ => False

inductive Act where
  | preCheck
  | start
  | record (o : Outcome)
  /-- the future of `run` is dropped -/
  | cancel
deriving DecidableEq, Repr

structure Event (ι : Type) where
  task : ι
  act : Act
  now : ℕ

/-- `lastOpen` is the most recent opening, `probes` the number of wrapped calls started behind it
while no outcome was recorded -/
structure Sys (ι : Type) where
  breaker : Inner
  clock : ℕ
  tasks : ι → Task
  lastOpen : Option ℕ
  probes : Option ℕ

section
variable {ι : Type} [DecidableEq ι]

def Sys.init (threshold window cooldown start : ℕ) : Sys ι :=
  { breaker := Inner.new threshold window cooldown, clock := start, tasks := fun _ => .idle
    lastOpen := none, probes := none }

def Sys.setTask (s : Sys ι) (i : ι) (t : Task) : ι → Task := fun j => if j = i then t else s.tasks j

theorem Sys.setTask_self (s : Sys ι) (i : ι) (t : Task) : s.setTask i t i = t := if_pos rfl

theorem Sys.setTask_of_ne (s : Sys ι) {i j : ι} (t : Task) (h : j ≠ i) :
    s.setTask i t j = s.tasks j := if_neg h

/-- after `pre_check` a caller sleeps for the wait it was told, or goes on -/
def Sys.check (s : Sys ι) (i : ι) (now : ℕ) : Sys ι :=
  match s.breaker.preCheck now with
  | (g, some wait) => { s with
      breaker := g, clock := now, tasks := s.setTask i (.asleep (now + wait)) }
  | (g, none) => { s with breaker := g, clock := now, tasks := s.setTask i .ready }

/-- the wrapped call starts; nothing is checked again -/
def Sys.start (s : Sys ι) (i : ι) (now : ℕ) : Sys ι :=
  { s with clock := now, tasks := s.setTask i .calling, probes := s.probes.map (· + 1) }

def Sys.record (s : Sys ι) (i : ι) (now : ℕ) (o : Outcome) : Sys ι :=
  let opening := o = .failure ∧ s.breaker.opens now
  { breaker := s.breaker.record now o, clock := now, tasks := s.setTask i .idle
    lastOpen := if opening then some now else s.lastOpen
    probes := if opening then some 0 else none }

/-- One event.  Time does not go back, and a caller that sleeps does nothing before it wakes. -/
def Sys.step (s : Sys ι) (e : Event ι) : Option (Sys ι) :=
  if e.now < s.clock then none
  else match e.act, s.tasks e.task with
    | .preCheck, .idle => some (s.check e.task e.now)
    | .start, .ready => some (s.start e.task e.now)
    | .start, .asleep wake => if wake ≤ e.now then some (s.start e.task e.now) else none
    | .record o, .calling => some (s.record e.task e.now o)
    | .cancel, _ => some { s with clock := e.now, tasks := s.setTask e.task .idle }
    | _, _ => none

/-- nobody is between `pre_check` and the wrapped call -/
def Sys.quiet (s : Sys ι) : Prop := ∀ i, ¬ (s.tasks i).admitted

/-- a call starts only when the cooldown of the most recent opening is over -/
def Cooled (s : Sys ι) (e : Event ι) : Prop :=
  e.act = .start → ∀ t ∈ s.lastOpen, t + s.breaker.cooldown ≤ e.now

/-- What `run` does not check.  A `pre_check` between an opening and the next outcome finds no other
caller admitted and no call started; a failure that opens the breaker finds nobody admitted; and
no outcome closes a breaker that still cools down. -/
structure OneProbe (s : Sys ι) (e : Event ι) : Prop where
  alone : e.act = .preCheck → ∀ k ∈ s.probes, k = 0 ∧ s.quiet
  opening : e.act = .record .failure → s.breaker.opens e.now → s.quiet
  cooled : ∀ o t, e.act = .record o → s.breaker.state = .opened t → s.breaker.closes e.now o →
    t + s.breaker.cooldown ≤ e.now

/-! ## what the critical sections do -/

theorem recordFailure_eq (g : Inner) (now : ℕ) :
    g.recordFailure now = { g with
      state := if g.opens now then .opened now else if g.expired now then .closed else g.state
      failures := g.counted now
      lastFailure := some now } := by
  by_cases he : g.expired now = true
  · have hc : g.counted now = min (0 + 1) u32Max := by unfold Inner.counted; rw [if_pos he]
    unfold Inner.recordFailure Inner.opens
    simp only [he, hc, if_true]
    split <;> rfl
  · have hc : g.counted now = min (g.failures + 1) u32Max := by unfold Inner.counted; rw [if_neg he]
    unfold Inner.recordFailure Inner.opens
    simp only [he, hc, if_false, Bool.false_eq_true]
    split <;> rfl

theorem record_cooldown (g : Inner) (now : ℕ) (o : Outcome) :
    (g.record now o).cooldown = g.cooldown := by
  cases o with
  | success => rfl
  | failure =>
    show (g.recordFailure now).cooldown = _
    rw [recordFailure_eq]

theorem recordFailure_opened {g : Inner} {now : ℕ} (h : g.opens now) :
    (g.recordFailure now).state = .opened now := by
  rw [recordFailure_eq]
  exact if_pos h

/-- an outcome that does not open leaves the state, or closes the breaker -/
theorem record_state {g : Inner} {now : ℕ} {o : Outcome} (h : ¬ (o = .failure ∧ g.opens now)) :
    (g.record now o).state = g.state ∨ ((g.record now o).state = .closed ∧ g.closes now o) := by
  cases o with
  | success => exact Or.inr ⟨rfl, trivial⟩
  | failure =>
    have hn : ¬ g.opens now := fun ho => h ⟨rfl, ho⟩
    show (g.recordFailure now).state = _ ∨ ((g.recordFailure now).state = _ ∧ _)
    rw [recordFailure_eq]
    simp only [if_neg hn]
    by_cases he : g.expired now = true
    · exact Or.inr ⟨if_pos he, he, hn⟩
    · exact Or.inl (if_neg he)

/-- the failures stand at the threshold, as they do until the breaker closes -/
def Inner.reached (g : Inner) : Prop := g.threshold ≤ g.failures ∧ g.failures ≤ u32Max

theorem recordFailure_reached {g : Inner} {now : ℕ} (h : g.opens now) :
    (g.recordFailure now).reached := by
  rw [recordFailure_eq]
  exact ⟨h, min_le_right _ _⟩

/-- an outcome that does not open a breaker with its failures at the threshold closes it -/
theorem record_closes {g : Inner} {now : ℕ} {o : Outcome} (h : ¬ (o = .failure ∧ g.opens now))
    (hr : g.reached) : (g.record now o).state = .closed := by
  cases o with
  | success => rfl
  | failure =>
    have hn : ¬ g.opens now := fun ho => h ⟨rfl, ho⟩
    show (g.recordFailure now).state = _
    rw [recordFailure_eq]
    simp only [if_neg hn]
    by_contra he
    apply hn
    have he' : ¬ g.expired now = true := fun e => he (if_pos e)
    unfold Inner.opens Inner.counted
    rw [if_neg he']
    exact le_min (hr.1.trans (Nat.le_succ _)) (hr.1.trans hr.2)

/-- a `pre_check` goes on with the breaker closed or half-open, or tells when the cooldown ends -/
theorem preCheck_cases (g : Inner) (now : ℕ) :
    (g.preCheck now = (g, none) ∧ ∀ t, g.state ≠ .opened t) ∨
    (∃ t, g.state = .opened t ∧ g.cooldown ≤ now - t ∧
      g.preCheck now = ({ g with state := .halfOpen }, none)) ∨
    (∃ t, g.state = .opened t ∧ now - t < g.cooldown ∧
      g.preCheck now = (g, some (g.cooldown - (now - t)))) := by
  unfold Inner.preCheck
  cases hs : g.state with
  | closed => exact Or.inl ⟨rfl, fun t h => by cases h⟩
  | halfOpen => exact Or.inl ⟨rfl, fun t h => by cases h⟩
  | opened t =>
    by_cases hc : g.cooldown ≤ now - t
    · exact Or.inr (Or.inl ⟨t, rfl, hc, if_pos hc⟩)
    · exact Or.inr (Or.inr ⟨t, rfl, not_le.mp hc, if_neg hc⟩)

/-! ## the invariant -/

/-- The cooldown of the last opening is over unless the breaker is still open; whoever is admitted
waits for its end; and behind an opening there is one probe, started or admitted. -/
structure Admission (s : Sys ι) : Prop where
  past : ∀ t ∈ s.lastOpen, t ≤ s.clock
  opened : ∀ t, s.breaker.state = .opened t → s.lastOpen = some t
  cooled : (∀ t, s.breaker.state ≠ .opened t) →
    ∀ t ∈ s.lastOpen, t + s.breaker.cooldown ≤ s.clock
  closed : s.breaker.state = .closed → s.probes = none
  counted : s.breaker.state ≠ .closed → s.probes ≠ none ∧ s.breaker.reached
  ready : ∀ i, s.tasks i = .ready → ∀ t ∈ s.lastOpen, t + s.breaker.cooldown ≤ s.clock
  asleep : ∀ i wake, s.tasks i = .asleep wake → ∀ t ∈ s.lastOpen, t + s.breaker.cooldown ≤ wake
  most : ∀ k ∈ s.probes, k ≤ 1
  sole : ∀ k ∈ s.probes, ∀ i, (s.tasks i).admitted → k = 0 ∧ ∀ j, (s.tasks j).admitted → j = i

theorem admission_init (threshold window cooldown start : ℕ) :
    Admission (Sys.init threshold window cooldown start : Sys ι) where
  past t h := by cases h
  opened t h := by cases h
  cooled _ t h := by cases h
  closed _ := rfl
  counted h := absurd rfl h
  ready i h := by cases h
  asleep i wake h := by cases h
  most k h := by cases h
  sole k h := by cases h

/-- a caller that leaves, and time -/
theorem Admission.leave {s : Sys ι} (h : Admission s) {now : ℕ} (hnow : s.clock ≤ now) (i : ι)
    {t : Task} (ht : ¬ t.admitted) :
    Admission { s with clock := now, tasks := s.setTask i t } := by
  have old : ∀ j, (s.setTask i t j).admitted → s.setTask i t j = s.tasks j := by
    intro j hj
    by_cases hji : j = i
    · subst hji
      rw [Sys.setTask_self] at hj
      exact absurd hj ht
    · exact Sys.setTask_of_ne s t hji
  refine ⟨fun o hl => (h.past o hl).trans hnow, h.opened,
    fun ho o hl => (h.cooled ho o hl).trans hnow, h.closed, h.counted, ?_, ?_, h.most, ?_⟩
  · intro j hj o hl
    have e := old j (by rw [show s.setTask i t j = .ready from hj]; trivial)
    exact (h.ready j (e ▸ hj) o hl).trans hnow
  · intro j wake hj o hl
    have e := old j (by rw [show s.setTask i t j = .asleep wake from hj]; trivial)
    exact h.asleep j wake (e ▸ hj) o hl
  · intro k hk j hj
    obtain ⟨h0, hone⟩ := h.sole k hk j (old j hj ▸ hj)
    exact ⟨h0, fun j' hj' => hone j' (old j' hj' ▸ hj')⟩

/-- a caller is let through, or told to wait, while nobody else is under way -/
theorem Admission.admit {s : Sys ι} (h : Admission s) {now : ℕ} (hnow : s.clock ≤ now) (i : ι)
    (halone : ∀ k ∈ s.probes, k = 0 ∧ s.quiet) {g : Inner} {t : Task}
    (hcooldown : g.cooldown = s.breaker.cooldown)
    (hopened : ∀ o, g.state = .opened o → s.breaker.state = .opened o)
    (hcooled : (∀ o, g.state ≠ .opened o) → ∀ o ∈ s.lastOpen, o + s.breaker.cooldown ≤ now)
    (hclosed : g.state = .closed ↔ s.breaker.state = .closed)
    (hreached : s.breaker.reached → g.reached)
    (hready : t = .ready → ∀ o ∈ s.lastOpen, o + s.breaker.cooldown ≤ now)
    (hasleep : ∀ wake, t = .asleep wake → ∀ o ∈ s.lastOpen, o + s.breaker.cooldown ≤ wake) :
    Admission { s with breaker := g, clock := now, tasks := s.setTask i t } := by
  refine ⟨fun o hl => (h.past o hl).trans hnow, fun o ho => h.opened o (hopened o ho), ?_,
    fun hc => h.closed (hclosed.mp hc), fun hn => ?_, ?_, ?_, h.most, ?_⟩
  · show (∀ o, g.state ≠ .opened o) → ∀ o ∈ s.lastOpen, o + g.cooldown ≤ now
    rw [hcooldown]
    exact hcooled
  · obtain ⟨h1, h2⟩ := h.counted fun hc => hn (hclosed.mpr hc)
    exact ⟨h1, hreached h2⟩
  · intro j hj o hl
    show o + g.cooldown ≤ now
    rw [hcooldown]
    by_cases hji : j = i
    · subst hji
      exact hready (by rw [← hj]; exact (Sys.setTask_self s j t).symm) o hl
    · have e : s.tasks j = .ready := by rw [← hj]; exact (Sys.setTask_of_ne s t hji).symm
      exact (h.ready j e o hl).trans hnow
  · intro j wake hj o hl
    show o + g.cooldown ≤ wake
    rw [hcooldown]
    by_cases hji : j = i
    · subst hji
      exact hasleep wake (by rw [← hj]; exact (Sys.setTask_self s j t).symm) o hl
    · have e : s.tasks j = .asleep wake := by rw [← hj]; exact (Sys.setTask_of_ne s t hji).symm
      exact h.asleep j wake e o hl
  · intro k hk
    obtain ⟨h0, hquiet⟩ := halone k hk
    have only : ∀ j, (s.setTask i t j).admitted → j = i := by
      intro j hj
      by_contra hji
      rw [Sys.setTask_of_ne s t hji] at hj
      exact hquiet j hj
    intro j hj
    exact ⟨h0, fun j' hj' => (only j' hj').trans (only j hj).symm⟩

theorem check_admission {s : Sys ι} (h : Admission s) {now : ℕ} (hnow : s.clock ≤ now) (i : ι)
    (halone : ∀ k ∈ s.probes, k = 0 ∧ s.quiet) : Admission (s.check i now) := by
  unfold Sys.check
  rcases preCheck_cases s.breaker now with ⟨hp, hn⟩ | ⟨t, ht, hc, hp⟩ | ⟨t, ht, hc, hp⟩
  · rw [hp]
    have hc : ∀ o ∈ s.lastOpen, o + s.breaker.cooldown ≤ now :=
      fun o ho => (h.cooled hn o ho).trans hnow
    exact h.admit hnow i halone rfl (fun _ ho => ho) (fun _ => hc) Iff.rfl id (fun _ => hc)
      fun wake e => by cases e
  · rw [hp]
    have hl := h.opened t ht
    have hc : ∀ o ∈ s.lastOpen, o + s.breaker.cooldown ≤ now := by
      intro o ho
      rw [hl] at ho
      obtain rfl := Option.some.inj ho
      have hpast := h.past t hl
      omega
    exact h.admit hnow i halone rfl (fun o ho => by cases ho) (fun _ => hc)
      ⟨nofun, fun e => State.noConfusion (ht.symm.trans e)⟩ id (fun _ => hc)
      fun wake e => by cases e
  · rw [hp]
    have hl := h.opened t ht
    refine h.admit hnow i halone rfl (fun _ ho => ho) (fun hn => absurd ht (hn t)) Iff.rfl
      id (fun e => by cases e) fun wake e o ho => ?_
    obtain rfl := Task.asleep.inj e
    rw [hl] at ho
    obtain rfl := Option.some.inj ho
    have hpast := h.past t hl
    omega

theorem start_admission {s : Sys ι} (h : Admission s) {now : ℕ} (hnow : s.clock ≤ now) {i : ι}
    (hi : (s.tasks i).admitted) : Admission (s.start i now) := by
  have hl := h.leave hnow i (t := .calling) id
  have hnone : ∀ k ∈ s.probes, ∀ j, ¬ (s.setTask i .calling j).admitted := by
    intro k hk j hj
    by_cases hji : j = i
    · subst hji
      rw [Sys.setTask_self] at hj
      exact hj
    · rw [Sys.setTask_of_ne s _ hji] at hj
      exact hji ((h.sole k hk i hi).2 j hj)
  refine ⟨hl.past, hl.opened, hl.cooled, fun hc => ?_, fun hn => ?_, hl.ready, hl.asleep,
    fun k hk => ?_, fun k hk j hj => ?_⟩
  · show s.probes.map (· + 1) = none
    rw [h.closed hc]
    rfl
  · obtain ⟨h1, h2⟩ := h.counted hn
    exact ⟨fun e => h1 (Option.map_eq_none_iff.mp e), h2⟩
  · obtain ⟨k₀, hk₀, rfl⟩ := Option.mem_map.mp hk
    have h0 := (h.sole k₀ hk₀ i hi).1
    omega
  · obtain ⟨k₀, hk₀, rfl⟩ := Option.mem_map.mp hk
    exact absurd hj (hnone k₀ hk₀ j)

/-- the outcome opens the breaker, with nobody under way -/
theorem open_admission {s : Sys ι} {now : ℕ} (i : ι) (hquiet : s.quiet) {g : Inner}
    (hg : g.state = .opened now) (hreached : g.reached) :
    Admission { s with
      breaker := g, clock := now, tasks := s.setTask i .idle, lastOpen := some now
      probes := some 0 } := by
  have hnone : ∀ j, ¬ (s.setTask i .idle j).admitted := by
    intro j hj
    by_cases hji : j = i
    · subst hji
      rw [Sys.setTask_self] at hj
      exact hj
    · rw [Sys.setTask_of_ne s _ hji] at hj
      exact hquiet j hj
  refine ⟨fun t ht => ?_, fun t ht => ?_, fun hn => absurd hg (hn now), fun hc => ?_,
    fun _ => ⟨nofun, hreached⟩, fun j hj => ?_, fun j wake hj => ?_, fun k hk => ?_,
    fun k _ j hj => absurd hj (hnone j)⟩
  · exact (Option.some.inj ht).symm.le
  · exact congrArg some (State.opened.inj (hg.symm.trans ht))
  · exact absurd (hg.symm.trans hc) (by simp)
  · exact absurd (show (s.setTask i .idle j).admitted by
      rw [show s.setTask i .idle j = .ready from hj]; trivial) (hnone j)
  · exact absurd (show (s.setTask i .idle j).admitted by
      rw [show s.setTask i .idle j = .asleep wake from hj]; trivial) (hnone j)
  · exact (Option.some.inj hk) ▸ Nat.zero_le 1

theorem record_admission {s : Sys ι} (h : Admission s) {now : ℕ} (hnow : s.clock ≤ now) (i : ι)
    {o : Outcome} (hopening : o = .failure → s.breaker.opens now → s.quiet)
    (hcooled : ∀ t, s.breaker.state = .opened t → s.breaker.closes now o →
      t + s.breaker.cooldown ≤ now) : Admission (s.record i now o) := by
  unfold Sys.record
  by_cases ho : o = .failure ∧ s.breaker.opens now
  · simp only [if_pos ho]
    obtain ⟨rfl, hopens⟩ := ho
    exact open_admission i (hopening rfl hopens) (recordFailure_opened hopens)
      (recordFailure_reached hopens)
  · simp only [if_neg ho]
    have hl := h.leave hnow i (t := .idle) id
    have hcd : (s.breaker.record now o).cooldown = s.breaker.cooldown := record_cooldown _ _ _
    refine ⟨hl.past, fun t ht => ?_, fun hn t ht => ?_, fun _ => rfl, fun hn => ?_,
      ?_, ?_, nofun, nofun⟩
    · rcases record_state ho with hs | ⟨hs, _⟩
      · exact h.opened t (hs.symm.trans ht)
      · exact absurd (hs.symm.trans ht) (by simp)
    · show t + (s.breaker.record now o).cooldown ≤ now
      rw [hcd]
      rcases record_state ho with hs | ⟨_, hc⟩
      · exact (h.cooled (fun t' ht' => hn t' (hs.trans ht')) t ht).trans hnow
      · cases hst : s.breaker.state with
        | opened t' =>
          have e := Option.some.inj ((h.opened t' hst).symm.trans ht)
          exact e ▸ hcooled t' hst hc
        | closed => exact (h.cooled (fun t' ht' => by rw [hst] at ht'; cases ht') t ht).trans hnow
        | halfOpen => exact (h.cooled (fun t' ht' => by rw [hst] at ht'; cases ht') t ht).trans hnow
    · rcases record_state ho with hs | ⟨hs, _⟩
      · exact absurd (record_closes ho (h.counted fun e => hn (hs.trans e)).2) hn
      · exact absurd hs hn
    · show ∀ j, _ → ∀ t ∈ _, t + (s.breaker.record now o).cooldown ≤ now
      rw [hcd]
      exact hl.ready
    · show ∀ j wake, _ → ∀ t ∈ _, t + (s.breaker.record now o).cooldown ≤ wake
      rw [hcd]
      exact hl.asleep

theorem step_cases {s s' : Sys ι} {e : Event ι} (h : s.step e = some s') : s.clock ≤ e.now ∧
    ((e.act = .preCheck ∧ s' = s.check e.task e.now) ∨
      (e.act = .start ∧
        (s.tasks e.task = .ready ∨ ∃ wake, s.tasks e.task = .asleep wake ∧ wake ≤ e.now) ∧
        s' = s.start e.task e.now) ∨
      (∃ o, e.act = .record o ∧ s' = s.record e.task e.now o) ∨
      (e.act = .cancel ∧ s' = { s with clock := e.now, tasks := s.setTask e.task .idle })) := by
  unfold Sys.step at h
  split at h
  · cases h
  · rename_i hlt
    refine ⟨not_lt.mp hlt, ?_⟩
    split at h
    · rename_i ha _
      exact Or.inl ⟨ha, (Option.some.inj h).symm⟩
    · rename_i ha hi
      exact Or.inr (Or.inl ⟨ha, Or.inl hi, (Option.some.inj h).symm⟩)
    · rename_i wake ha hi
      split at h
      · rename_i hw
        exact Or.inr (Or.inl ⟨ha, Or.inr ⟨wake, hi, hw⟩, (Option.some.inj h).symm⟩)
      · cases h
    · rename_i o ha _
      exact Or.inr (Or.inr (Or.inl ⟨o, ha, (Option.some.inj h).symm⟩))
    · rename_i ha
      exact Or.inr (Or.inr (Or.inr ⟨ha, (Option.some.inj h).symm⟩))
    · cases h

/-- **A step that meets the condition keeps the invariant, and starts no call early.** -/
theorem step_admission (s : Sys ι) (e : Event ι) (s' : Sys ι) (h : Admission s) (hone : OneProbe s e)
    (hs : s.step e = some s') : Admission s' ∧ Cooled s e := by
  obtain ⟨hnow, ⟨ha, rfl⟩ | ⟨ha, hi, rfl⟩ | ⟨o, ha, rfl⟩ | ⟨ha, rfl⟩⟩ := step_cases hs
  · exact ⟨check_admission h hnow e.task (hone.alone ha), fun e' => by rw [ha] at e'; cases e'⟩
  · rcases hi with hi | ⟨wake, hi, hw⟩
    · exact ⟨start_admission h hnow (by rw [hi]; trivial),
        fun _ t ht => (h.ready _ hi t ht).trans hnow⟩
    · exact ⟨start_admission h hnow (by rw [hi]; trivial),
        fun _ t ht => (h.asleep _ wake hi t ht).trans hw⟩
  · refine ⟨record_admission h hnow e.task ?_ (fun t => hone.cooled o t ha),
      fun e' => by rw [ha] at e'; cases e'⟩
    rintro rfl hopens
    exact hone.opening ha hopens
  · exact ⟨h.leave hnow e.task id, fun e' => by rw [ha] at e'; cases e'⟩

/-- **Breaker admission.**  In every run of callers that meet the condition, no wrapped call starts
before the cooldown of the most recent opening is over, and until an outcome closes the breaker at
most one call has been started since it opened. -/
theorem breaker_admission (threshold window cooldown start : ℕ) (es : List (Event ι)) (s : Sys ι)
    (hrun : Runs.run Sys.step (Sys.init threshold window cooldown start) es = some s)
    (hone : Runs.Along Sys.step OneProbe (Sys.init threshold window cooldown start) es) :
    Runs.Along Sys.step Cooled (Sys.init threshold window cooldown start) es ∧
      (s.breaker.state ≠ .closed → ∃ k ∈ s.probes, k ≤ 1) := by
  have hi := admission_init (ι := ι) threshold window cooldown start
  have hs := Runs.run_inv (fun s e s' h ho hs => (step_admission s e s' h ho hs).1) es _ s hi hone hrun
  refine ⟨Runs.along_of_inv step_admission es _ s hi hone hrun, fun hn => ?_⟩
  obtain ⟨k, hk⟩ := Option.ne_none_iff_exists'.mp (hs.counted hn).1
  exact ⟨k, hk, hs.most k hk⟩

end

/-- one caller fails, waits for the cooldown and sends its probe -/
def recovered : List (Event Unit) :=
  [⟨(), .preCheck, 0⟩, ⟨(), .start, 0⟩, ⟨(), .record .failure, 5⟩, ⟨(), .preCheck, 10⟩,
    ⟨(), .start, 35⟩]

theorem breaker_admission_recovered :
    ∃ s, Runs.run Sys.step (Sys.init 1 60 30 0) recovered = some s ∧ s.probes = some 1 ∧
      Runs.Along Sys.step Cooled (Sys.init 1 60 30 0) recovered ∧
      (s.breaker.state ≠ .closed → ∃ k ∈ s.probes, k ≤ 1) := by
  refine ⟨_, rfl, rfl, breaker_admission 1 60 30 0 recovered _ rfl ?_⟩
  refine Runs.along_cons rfl ⟨fun _ => nofun, nofun, nofun⟩ ?_
  refine Runs.along_cons rfl ⟨nofun, nofun, nofun⟩ ?_
  refine Runs.along_cons rfl ⟨nofun, fun _ _ _ => id, fun _ _ _ => nofun⟩ ?_
  refine Runs.along_cons rfl ⟨fun _ k hk => ⟨(Option.some.inj hk).symm, fun _ => id⟩, nofun, nofun⟩ ?_
  exact Runs.along_cons rfl ⟨nofun, nofun, nofun⟩ trivial

/-- The first call fails and opens the breaker.  Behind the cooldown two callers pass `pre_check`,
which half-opens for the first and lets the second through as well. -/
def twoProbes : List (Event Bool) :=
  [⟨false, .preCheck, 0⟩, ⟨false, .start, 0⟩, ⟨false, .record .failure, 0⟩,
    ⟨false, .preCheck, 30⟩, ⟨true, .preCheck, 30⟩, ⟨false, .start, 30⟩, ⟨true, .start, 30⟩]

theorem probes_overrun :
    ∃ s, Runs.run Sys.step (Sys.init 1 60 30 0) twoProbes = some s ∧
      ¬ (s.breaker.state ≠ .closed → ∃ k ∈ s.probes, k ≤ 1) := by
  refine ⟨_, rfl, fun h => ?_⟩
  obtain ⟨k, hk, hle⟩ := h nofun
  obtain rfl := Option.some.inj hk
  exact absurd hle (by decide)

end Moagan.CircuitBreaker
