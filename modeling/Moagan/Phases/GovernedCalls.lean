import Mathlib.Logic.Function.Basic
import Moagan.Llm.ProviderGate
import Moagan.Llm.RetryBudget

/-!
# The calls behind the gate of their provider (`src/phases/phase.rs`)

`dispatch_with_governors_for`: any number of calls are under way at a time.  Each reads the gate of
its provider once and sleeps, then the governor of its role, and only then sends its request.

* `providerCause`     which errors the gate and the governor hear of
* `State`, `Event`    the gates, the governors, and where each call is
* `step`              one step of one call; the calls take theirs in any order
* `Inv`               how long a call may be asked to sleep
* `Waits`             the call is not sent before a time
* `governed_calls`    no call that comes behind a 429 is sent before its backoff is over

Whether the circuit is open is read from a breaker that is not part of the state.
-/

namespace Moagan.GovernedCalls

open CacheKey (Role)
open Governor Runs
open Retry (Error)

/-! ## what an error says -/

inductive ProviderCause where
  | planExhausted (message : String)
  | throttled (retryAfter : Option UInt64) (message : String)
  | other (code : UInt16) (message : String)
deriving DecidableEq, Repr

def providerCause : Error → Option ProviderCause
  | .throttled retryAfterMs message _ => some (.throttled retryAfterMs message)
  | .planExhausted message _ => some (.planExhausted message)
  | .provider message _ => some (.other 0 message)
  | _ => none

/-- `Err(e)` closes the gate -/
def closesGate (e : Error) : Bool :=
  match providerCause e with
  | some (.throttled _ _) | some (.planExhausted _) => true
  | _ => false

/-! ## calls -/

/-- asleep at the gate or in the governor until a time, with the request on its way, or over -/
inductive Status where
  | gated (wake : ℕ)
  | held (wake : ℕ)
  | running
  | done
deriving DecidableEq, Repr

structure Call where
  sec : String
  role : Role
  status : Status
deriving DecidableEq, Repr

structure State where
  now : ℕ
  gate : String → ProviderGate
  governor : String → Role → ThrottleGovernor
  call : ℕ → Option Call

/-- a step of the call `n`; a call that is dropped takes no further step -/
inductive Event where
  | pass (ms : ℕ)
  | enter (n : ℕ) (sec : String) (role : Role) (wasOpen : Bool) (jitter : ℕ)
  | leaveGate (n jitter : ℕ)
  | send (n : ℕ)
  | answer (n : ℕ) (result : Except Error Unit)
  | drop (n : ℕ)

def start (config : String → Role → ThrottleConfig) : State where
  now := 0
  gate := fun _ => .ofRegistry
  governor := fun sec role => .new (config sec role)
  call := fun _ => none

def State.put (s : State) (n : ℕ) (c : Call) : State :=
  { s with call := Function.update s.call n (some c) }

def setGate (s : State) (sec : String) (g : ProviderGate) : State :=
  { s with gate := Function.update s.gate sec g }

def setGovernor (s : State) (sec : String) (role : Role) (g : ThrottleGovernor) : State :=
  { s with governor := Function.update s.governor sec (Function.update (s.governor sec) role g) }

/-- the gate and the governor hear of a result -/
def report (s : State) (sec : String) (role : Role) : Except Error Unit → State
  | .ok () =>
    setGate (setGovernor s sec role ((s.governor sec role).onSuccess s.now)) sec
      (s.gate sec).onSuccess
  | .error e =>
    match providerCause e with
    | some (.throttled retryAfter _) =>
      setGate (setGovernor s sec role
        ((s.governor sec role).onTransient429 s.now (retryAfter.map UInt64.toNat))) sec
        ((s.gate sec).on429 s.now)
    | some (.planExhausted _) => setGate s sec ((s.gate sec).on429 s.now)
    | _ => s

def step (s : State) : Event → Option State
  | .pass ms => some { s with now := s.now + ms }
  | .enter n sec role wasOpen jitter =>
    if (s.call n).isNone ∧ jitter ≤ (s.gate sec).jitterMs then
      some (s.put n ⟨sec, role,
        if wasOpen then .done else .gated (s.now + (s.gate sec).preCall s.now jitter)⟩)
    else none
  | .leaveGate n jitter =>
    match s.call n with
    | some ⟨sec, role, .gated wake⟩ =>
      if wake ≤ s.now ∧ jitter ≤ (s.governor sec role).config.jitterMs then
        some (s.put n ⟨sec, role, .held (s.now + (s.governor sec role).preCall jitter)⟩)
      else none
    | _ => none
  | .send n =>
    match s.call n with
    | some ⟨sec, role, .held wake⟩ =>
      if wake ≤ s.now then some (s.put n ⟨sec, role, .running⟩) else none
    | _ => none
  | .answer n result =>
    match s.call n with
    | some ⟨sec, role, .running⟩ => some ((report s sec role result).put n ⟨sec, role, .done⟩)
    | _ => none
  | .drop n => (s.call n).map fun c => s.put n { c with status := .done }

/-! ## what a step does -/

/-- what becomes of a call in one step -/
inductive Moves (s : State) (n : ℕ) : Option Call → Call → Prop
  | entered {sec : String} {role : Role} {jitter : ℕ} : jitter ≤ (s.gate sec).jitterMs →
      Moves s n none ⟨sec, role, .gated (s.now + (s.gate sec).preCall s.now jitter)⟩
  | refused {sec : String} {role : Role} : Moves s n none ⟨sec, role, .done⟩
  | left {sec : String} {role : Role} {wake jitter : ℕ} : wake ≤ s.now →
      jitter ≤ (s.governor sec role).config.jitterMs →
      Moves s n (some ⟨sec, role, .gated wake⟩)
        ⟨sec, role, .held (s.now + (s.governor sec role).preCall jitter)⟩
  | sent {sec : String} {role : Role} {wake : ℕ} : wake ≤ s.now →
      Moves s n (some ⟨sec, role, .held wake⟩) ⟨sec, role, .running⟩
  | ended {c : Call} : Moves s n (some c) { c with status := .done }

/-- what becomes of a gate in one step -/
inductive GateMoves (now : ℕ) (g : ProviderGate) : ProviderGate → Prop
  | same : GateMoves now g g
  | closed : GateMoves now g (g.on429 now)
  | eased : GateMoves now g g.onSuccess

theorem report_now (s : State) (sec : String) (role : Role) (result : Except Error Unit) :
    (report s sec role result).now = s.now := by
  unfold report
  split
  · rfl
  · split <;> rfl

theorem report_call (s : State) (sec : String) (role : Role) (result : Except Error Unit) :
    (report s sec role result).call = s.call := by
  unfold report
  split
  · rfl
  · split <;> rfl

theorem report_gate (s : State) (sec sec' : String) (role : Role) (result : Except Error Unit) :
    GateMoves s.now (s.gate sec') ((report s sec role result).gate sec') := by
  have hset : ∀ (t : State) (g : ProviderGate), t.gate = s.gate → GateMoves s.now (s.gate sec) g →
      GateMoves s.now (s.gate sec') ((setGate t sec g).gate sec') := by
    intro t g ht hg
    show GateMoves _ _ (Function.update t.gate sec g sec')
    rw [ht]
    by_cases h : sec' = sec
    · rw [h, Function.update_self]
      exact hg
    · rw [Function.update_of_ne h]
      exact .same
  unfold report
  split
  · exact hset _ _ rfl .eased
  · split
    · exact hset _ _ rfl .closed
    · exact hset _ _ rfl .closed
    · exact .same

/-- a governor stays as it is, or hears of a result -/
def GovernorMoves (g g' : ThrottleGovernor) : Prop := g' = g ∨ ∃ c : Governor.Call, g' = g.apply c

theorem setGovernor_moves (s : State) (sec sec' : String) (role role' : Role) (c : Governor.Call) :
    GovernorMoves (s.governor sec' role')
      ((setGovernor s sec role ((s.governor sec role).apply c)).governor sec' role') := by
  show GovernorMoves _ (Function.update s.governor sec _ sec' role')
  by_cases h : sec' = sec
  · rw [h, Function.update_self]
    by_cases hr : role' = role
    · rw [hr, Function.update_self]
      exact Or.inr ⟨c, rfl⟩
    · rw [Function.update_of_ne hr]
      exact Or.inl rfl
  · rw [Function.update_of_ne h]
    exact Or.inl rfl

theorem report_governor (s : State) (sec sec' : String) (role role' : Role)
    (result : Except Error Unit) :
    GovernorMoves (s.governor sec' role') ((report s sec role result).governor sec' role') := by
  unfold report
  split
  · exact setGovernor_moves s sec sec' role role' ⟨.success, s.now⟩
  · split
    · rename_i retryAfter _ _
      exact setGovernor_moves s sec sec' role role'
        ⟨.transient429 (retryAfter.map UInt64.toNat), s.now⟩
    · exact Or.inl rfl
    · exact Or.inl rfl

/-- all that a step does -/
structure Does (s s' : State) : Prop where
  now : s.now ≤ s'.now
  gate : ∀ sec, GateMoves s.now (s.gate sec) (s'.gate sec)
  governor : ∀ sec role, GovernorMoves (s.governor sec role) (s'.governor sec role)
  call : s'.call = s.call ∨
    ∃ n c, Moves s n (s.call n) c ∧ s'.call = Function.update s.call n (some c)

theorem Does.put {s : State} {n : ℕ} {c : Call} (h : Moves s n (s.call n) c) :
    Does s (s.put n c) where
  now := Nat.le_refl _
  gate := fun _ => .same
  governor := fun _ _ => Or.inl rfl
  call := Or.inr ⟨n, c, h, rfl⟩

theorem step_does {s s' : State} {e : Event} (h : step s e = some s') : Does s s' := by
  cases e with
  | pass ms =>
    rw [step, Option.some.injEq] at h
    rw [← h]
    exact ⟨Nat.le_add_right _ _, fun _ => .same, fun _ _ => Or.inl rfl, Or.inl rfl⟩
  | enter n sec role wasOpen jitter =>
    rw [step] at h
    by_cases hc : (s.call n).isNone ∧ jitter ≤ (s.gate sec).jitterMs
    · rw [if_pos hc, Option.some.injEq] at h
      rw [← h]
      apply Does.put
      rw [Option.isNone_iff_eq_none.mp hc.1]
      cases wasOpen with
      | true => exact .refused
      | false => exact .entered hc.2
    · rw [if_neg hc] at h
      cases h
  | leaveGate n jitter =>
    rw [step] at h
    split at h
    · rename_i sec role wake hn
      by_cases hc : wake ≤ s.now ∧ jitter ≤ (s.governor sec role).config.jitterMs
      · rw [if_pos hc, Option.some.injEq] at h
        rw [← h]
        apply Does.put
        rw [hn]
        exact .left hc.1 hc.2
      · rw [if_neg hc] at h
        cases h
    · cases h
  | send n =>
    rw [step] at h
    split at h
    · rename_i sec role wake hn
      by_cases hc : wake ≤ s.now
      · rw [if_pos hc, Option.some.injEq] at h
        rw [← h]
        apply Does.put
        rw [hn]
        exact .sent hc
      · rw [if_neg hc] at h
        cases h
    · cases h
  | answer n result =>
    rw [step] at h
    split at h
    · rename_i sec role hn
      rw [Option.some.injEq] at h
      rw [← h]
      refine ⟨?_, ?_, ?_, Or.inr ⟨n, ⟨sec, role, .done⟩, ?_, ?_⟩⟩
      · exact Nat.le_of_eq (report_now s sec role result).symm
      · exact fun sec' => report_gate s sec sec' role result
      · exact fun sec' role' => report_governor s sec sec' role role' result
      · rw [hn]
        exact .ended
      · show Function.update (report s sec role result).call n _ = _
        rw [report_call]
    · cases h
  | drop n =>
    rw [step] at h
    obtain ⟨c, hn, rfl⟩ := Option.map_eq_some_iff.mp h
    apply Does.put
    rw [hn]
    exact .ended

/-! ## how long a call sleeps -/

theorem GateMoves.ok {now : ℕ} {g g' : ProviderGate} (h : GateMoves now g g') (hg : GateOk g now) :
    GateOk g' now := by
  cases h with
  | same => exact hg
  | closed => exact hg.on429
  | eased => exact hg.onSuccess

theorem GateMoves.bounds {now : ℕ} {g g' : ProviderGate} (h : GateMoves now g g') :
    g'.maxBackoffMs = g.maxBackoffMs ∧ g'.jitterMs = g.jitterMs := by
  cases h with
  | same => exact ⟨rfl, rfl⟩
  | closed => exact ⟨rfl, rfl⟩
  | eased =>
    unfold ProviderGate.onSuccess
    split <;> exact ⟨rfl, rfl⟩

theorem GovernorMoves.config {g g' : ThrottleGovernor} (h : GovernorMoves g g') :
    g'.config = g.config := by
  obtain rfl | ⟨c, rfl⟩ := h
  · rfl
  · exact apply_config g c

theorem GovernorMoves.backoff {g g' : ThrottleGovernor} (h : GovernorMoves g g')
    (hg : g.state.currentBackoffMs ≤ g.config.maxBackoffMs) :
    g'.state.currentBackoffMs ≤ g'.config.maxBackoffMs := by
  rw [h.config]
  obtain rfl | ⟨⟨event, now⟩, rfl⟩ := h
  · exact hg
  · cases event with
    | transient429 r => exact backoffAfter_le g r
    | success => exact Nat.le_trans (decayed_le _) hg

/-- the longest sleep of each kind -/
def SleepOk (config : String → Role → ThrottleConfig) (now : ℕ) (c : Call) : Prop :=
  match c.status with
  | .gated wake => wake ≤ now + (PROVIDER_GATE_MAX_BACKOFF_MS + PROVIDER_GATE_JITTER_MS)
  | .held wake => wake ≤ now + ((config c.sec c.role).maxBackoffMs + (config c.sec c.role).jitterMs)
  | _ => True

theorem SleepOk.later {config : String → Role → ThrottleConfig} {now now' : ℕ} {c : Call}
    (h : SleepOk config now c) (hle : now ≤ now') : SleepOk config now' c := by
  obtain ⟨sec, role, status⟩ := c
  cases status with
  | gated wake => exact Nat.le_trans h (Nat.add_le_add_right hle _)
  | held wake => exact Nat.le_trans h (Nat.add_le_add_right hle _)
  | running => trivial
  | done => trivial

structure Inv (config : String → Role → ThrottleConfig) (s : State) : Prop where
  gate : ∀ sec, GateOk (s.gate sec) s.now
  bounds : ∀ sec, (s.gate sec).maxBackoffMs = PROVIDER_GATE_MAX_BACKOFF_MS ∧
    (s.gate sec).jitterMs = PROVIDER_GATE_JITTER_MS
  configured : ∀ sec role, (s.governor sec role).config = config sec role
  backoff : ∀ sec role, (s.governor sec role).state.currentBackoffMs
    ≤ (s.governor sec role).config.maxBackoffMs
  sleep : ∀ n c, s.call n = some c → SleepOk config s.now c

theorem start_inv (config : String → Role → ThrottleConfig) : Inv config (start config) where
  gate := fun _ => ofRegistry_ok 0
  bounds := fun _ => ⟨rfl, rfl⟩
  configured := fun _ _ => rfl
  backoff := fun _ _ => Nat.zero_le _
  sleep := fun n c h => by cases h

theorem Moves.sleep {config : String → Role → ThrottleConfig} {s : State} {n : ℕ} {o : Option Call}
    {c : Call} (h : Moves s n o c) (hi : Inv config s) : SleepOk config s.now c := by
  cases h with
  | @entered sec role jitter hj =>
    have hle := preCall_le (hi.gate sec) jitter
    obtain ⟨hmax, hjitter⟩ := hi.bounds sec
    show s.now + _ ≤ s.now + _
    omega
  | refused => trivial
  | @left sec role wake jitter _ hj =>
    have hb := hi.backoff sec role
    rw [hi.configured sec role] at hb hj
    have hle := governor_preCall_le (s.governor sec role) jitter
    show s.now + (s.governor sec role).preCall jitter
      ≤ s.now + ((config sec role).maxBackoffMs + (config sec role).jitterMs)
    omega
  | sent _ => trivial
  | ended => trivial

theorem step_inv {config : String → Role → ThrottleConfig} {s s' : State} {e : Event}
    (hi : Inv config s) (h : step s e = some s') : Inv config s' := by
  have hd := step_does h
  constructor
  · intro sec
    exact ((hd.gate sec).ok (hi.gate sec)).later hd.now
  · intro sec
    obtain ⟨hmax, hjitter⟩ := (hd.gate sec).bounds
    rw [hmax, hjitter]
    exact hi.bounds sec
  · intro sec role
    exact (hd.governor sec role).config.trans (hi.configured sec role)
  · intro sec role
    exact (hd.governor sec role).backoff (hi.backoff sec role)
  · intro n c hc
    obtain hsame | ⟨k, c', hm, hcall⟩ := hd.call
    · rw [hsame] at hc
      exact (hi.sleep n c hc).later hd.now
    · rw [hcall, Function.update_apply] at hc
      by_cases hn : n = k
      · rw [if_pos hn, Option.some.injEq] at hc
        rw [← hc]
        exact (hm.sleep hi).later hd.now
      · rw [if_neg hn] at hc
        exact (hi.sleep n c hc).later hd.now

/-! ## the window of a 429 -/

/-- the call `n` of the provider is not sent before `t`; where it has not come yet, the gate is
closed until then, or has no backoff left -/
def Waits (sec : String) (n t : ℕ) (s : State) : Prop :=
  match s.call n with
  | none => (s.gate sec).state.backoffMs ≠ 0 →
      ∃ u, (s.gate sec).state.untilMs = some u ∧ t ≤ u
  | some ⟨sec', _, status⟩ => sec' = sec →
      match status with
      | .gated wake => t ≤ wake
      | .held _ | .running => t ≤ s.now
      | .done => True

theorem GateMoves.ends {now t u : ℕ} {g g' : ProviderGate} (h : GateMoves now g g')
    (hu : g.state.untilMs = some u) (ht : t ≤ u) (hb : g'.state.backoffMs ≠ 0) :
    ∃ u', g'.state.untilMs = some u' ∧ t ≤ u' := by
  cases h with
  | same => exact ⟨u, hu, ht⟩
  | closed =>
    obtain ⟨u', hu', -, hle⟩ := on429_ends g now
    exact ⟨u', hu', Nat.le_trans ht (hle u hu)⟩
  | eased => exact ⟨u, (onSuccess_ends hb).trans hu, ht⟩

theorem step_waits {sec : String} {n t : ℕ} {s s' : State} {e : Event}
    (hw : Waits sec n t s) (hg : s.call n = none → (s.gate sec).state.backoffMs ≠ 0)
    (h : step s e = some s') : Waits sec n t s' := by
  have hd := step_does h
  unfold Waits at hw ⊢
  -- the call stays where it is, while another call or the clock takes a step
  have hsame : s'.call n = s.call n → Waits sec n t s' := by
    intro hcall
    unfold Waits
    rw [hcall]
    cases hn : s.call n with
    | none =>
      rw [hn] at hw
      intro hb
      obtain ⟨u, hu, htu⟩ := hw (hg hn)
      exact (hd.gate sec).ends hu htu hb
    | some c =>
      rw [hn] at hw
      obtain ⟨sec', role, status⟩ := c
      dsimp only at hw ⊢
      intro hsec
      have hw := hw hsec
      have hnow := hd.now
      cases status with
      | gated wake => exact hw
      | held wake => exact Nat.le_trans hw hnow
      | running => exact Nat.le_trans hw hnow
      | done => trivial
  obtain hcall | ⟨k, c, hm, hcall⟩ := hd.call
  · exact hsame (congrFun hcall n)
  by_cases hnk : n = k
  · -- its own step
    have hn : s'.call n = some c := by rw [hcall, hnk, Function.update_self]
    rw [hn]
    rw [← hnk] at hm
    have hnow := hd.now
    generalize hold : s.call n = o at hm hw hg
    cases hm with
    | @entered sec' role jitter hj =>
      intro hsec
      obtain ⟨u, hu, htu⟩ := hw (hg rfl)
      rw [← hsec] at hu
      have := ends_le_preCall hu s.now jitter
      show t ≤ s.now + _
      omega
    | refused => exact fun _ => trivial
    | left hwake _ =>
      intro hsec
      have := hw hsec
      dsimp only at this ⊢
      omega
    | sent hwake => exact fun hsec => Nat.le_trans (hw hsec) hnow
    | ended => exact fun _ => trivial
  · exact hsame (by rw [hcall, Function.update_of_ne hnk])

/-- a 429 closes the gate for its backoff -/
theorem answer_closes {s s₁ : State} {n : ℕ} {e : Error} {sec : String} {role : Role}
    (hc : s.call n = some ⟨sec, role, .running⟩) (he : closesGate e = true)
    (h : step s (.answer n (.error e)) = some s₁) : s₁.gate sec = (s.gate sec).on429 s.now := by
  rw [step, hc] at h
  dsimp only at h
  rw [Option.some.injEq] at h
  rw [← h]
  show (report s sec role (.error e)).gate sec = _
  unfold closesGate at he
  unfold report
  dsimp only
  split at he
  · exact Function.update_self ..
  · exact Function.update_self ..
  · cases he

/-- **Calls behind a gate.**  However the calls of all roles interleave, a call is asked to sleep
for no longer than the maximum of the gate and of its governor, with their jitters.  A 429 closes
the gate of its provider for a positive backoff of at most the maximum, and a call of that provider
that comes behind it, whatever its role, is not sent before that time is over, unless successes have
taken the backoff of the gate to nothing before the call came. -/
theorem governed_calls (config : String → Role → ThrottleConfig) (front : List Event) (s : State)
    (h : run step (start config) front = some s) :
    (∀ n c, s.call n = some c → SleepOk config s.now c) ∧
    ∀ n₀ e sec role₀ s₁, s.call n₀ = some ⟨sec, role₀, .running⟩ → closesGate e = true →
      step s (.answer n₀ (.error e)) = some s₁ →
      (0 < (s₁.gate sec).state.backoffMs ∧
        (s₁.gate sec).state.backoffMs ≤ PROVIDER_GATE_MAX_BACKOFF_MS) ∧
      ∀ n, s.call n = none → ∀ es s', run step s₁ es = some s' →
        Along step (fun t _ => t.call n = none → (t.gate sec).state.backoffMs ≠ 0) s₁ es →
        ∀ role, s'.call n = some ⟨sec, role, .running⟩ →
          s.now + (s₁.gate sec).state.backoffMs ≤ s'.now := by
  have hi : Inv config s := run_inv (G := fun _ _ => True) (fun _ _ _ hi _ hs => step_inv hi hs)
    front _ s (start_inv config) (along_true front _) h
  refine ⟨hi.sleep, fun n₀ e sec role₀ s₁ hc he hs₁ => ?_⟩
  have hgate := answer_closes hc he hs₁
  have hi₁ := step_inv hi hs₁
  refine ⟨⟨?_, ?_⟩, fun n hn es s' hr hopen role hrun => ?_⟩
  · rw [hgate]
    exact (hi.gate sec).nextBackoff_pos
  · rw [← (hi₁.bounds sec).1]
    exact (hi₁.gate sec).backoff
  · obtain ⟨u, hu, hle, -⟩ := on429_ends (s.gate sec) s.now
    rw [← hgate] at hu hle
    -- the new call has not come yet
    have hnew : s₁.call n = none := by
      have hne : n ≠ n₀ := fun heq => by rw [heq, hc] at hn; cases hn
      rw [step, hc] at hs₁
      dsimp only at hs₁
      rw [Option.some.injEq] at hs₁
      rw [← hs₁]
      show Function.update (report s sec role₀ (.error e)).call n₀ _ n = none
      rw [Function.update_of_ne hne, report_call, hn]
    have hstart : Waits sec n (s.now + (s₁.gate sec).state.backoffMs) s₁ := by
      unfold Waits
      rw [hnew]
      exact fun _ => ⟨u, hu, hle⟩
    have hend := run_inv (I := Waits sec n (s.now + (s₁.gate sec).state.backoffMs))
      (fun _ _ _ hw hg hs => step_waits hw hg hs) es s₁ s' hstart hopen hr
    unfold Waits at hend
    rw [hrun] at hend
    exact hend rfl

/-! ## a judge behind the 429 of a thesis -/

def noConfig : String → Role → ThrottleConfig := fun _ role => .defaultForRole role

def thesisSent : List Event := [.enter 0 "m" .thesis false 0, .leaveGate 0 0, .send 0]

def tooMany : Error := .throttled none "slow down" none

def judgeBehind : List Event := [.enter 1 "m" .judge false 0, .pass 500, .leaveGate 1 0, .send 1]

theorem governed_calls_judge : ∃ s s₁ s' : State, run step (start noConfig) thesisSent = some s ∧
    step s (.answer 0 (.error tooMany)) = some s₁ ∧ run step s₁ judgeBehind = some s' ∧
      s.now + (s₁.gate "m").state.backoffMs ≤ s'.now := by
  refine ⟨_, _, _, rfl, rfl, rfl, ?_⟩
  refine ((governed_calls noConfig thesisSent _ rfl).2 0 tooMany "m" .thesis _ rfl (by decide)
    rfl).2 1 rfl judgeBehind _ rfl ?_ .judge rfl
  refine along_of_check (g := fun t _ => (t.call 1).isSome || (t.gate "m").state.backoffMs != 0)
    (fun t _ ht hn => ?_) judgeBehind _ (by decide +kernel)
  rw [hn] at ht
  simpa using ht

-- a call that has read the gate before the 429 is sent all the same
example : (run step (start noConfig) (.enter 1 "m" .judge false 0 :: thesisSent ++
    [.answer 0 (.error tooMany), .leaveGate 1 0, .send 1])).map (fun s =>
      (s.now, (s.gate "m").state, s.call 1)) =
    some (0, ⟨500, some 500⟩, some ⟨"m", .judge, .running⟩) := by decide +kernel

end Moagan.GovernedCalls
