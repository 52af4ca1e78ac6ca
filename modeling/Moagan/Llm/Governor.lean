import Mathlib.Algebra.Group.Nat.Defs
import Mathlib.Data.List.Basic
import Moagan.Lib.Checks
import Moagan.Lib.Runs

/-!
# The throttle governor (`src/llm/governor.rs`)

* `ThrottleConfig.new`, `fromEnvStr`, `ofFile`   the three ways to a configuration
* `onTransient429`, `onSuccess`   backoff and concurrency, halved and doubled, raised and decayed
* `Bounded`, `Floored`            what is required of one step
* `Source.Ordered`, `InRange`     when they hold: the file is ordered, the wait fits in 64 bits
* `governor_bounds`               the bounds hold in every run iff the configuration is ordered; the
                                  floor holds iff the waits are in range; successes end the backoff

Times are milliseconds.
-/

namespace Moagan.Governor

def u32Max : ℕ := 4294967295
def u64Max : ℕ := 18446744073709551615

/-! ## configurations -/

structure ThrottleConfig where
  initialConcurrency : ℕ
  maxConcurrency : ℕ
  initialBackoffMs : ℕ
  maxBackoffMs : ℕ
  additiveAfterMs : ℕ
  jitterMs : ℕ
deriving DecidableEq, Repr

def ThrottleConfig.new (initialConcurrency maxConcurrency initialBackoffMs maxBackoffMs
    additiveAfterMs jitterMs : ℕ) : ThrottleConfig :=
  let initialConcurrency := max initialConcurrency 1
  { initialConcurrency
    maxConcurrency := max maxConcurrency initialConcurrency
    initialBackoffMs := min initialBackoffMs maxBackoffMs
    maxBackoffMs, additiveAfterMs, jitterMs }

/-- `config::ThrottleConfig`, as the configuration file has it -/
structure FileThrottleConfig where
  initialConcurrency : ℕ
  maxConcurrency : ℕ
  initialBackoffMs : ℕ
  maxBackoffMs : ℕ
  additiveAfterMs : ℕ
  jitterMs : ℕ
deriving DecidableEq, Repr

/-- `From<config::ThrottleConfig>` -/
def ThrottleConfig.ofFile (c : FileThrottleConfig) : ThrottleConfig :=
  { initialConcurrency := c.initialConcurrency
    maxConcurrency := c.maxConcurrency
    initialBackoffMs := c.initialBackoffMs
    maxBackoffMs := c.maxBackoffMs
    additiveAfterMs := c.additiveAfterMs
    jitterMs := c.jitterMs }

/-- `ParseIntError`, as it is displayed -/
inductive ParseIntError where
  | empty
  | invalidDigit
  | posOverflow
deriving DecidableEq, Repr

def ParseIntError.text : ParseIntError → String
  | .empty => "cannot parse integer from empty string"
  | .invalidDigit => "invalid digit found in string"
  | .posOverflow => "number too large to fit in target type"

def digit? (c : Char) : Option ℕ :=
  if '0' ≤ c ∧ c ≤ '9' then some (c.toNat - '0'.toNat) else none

/-- the digits behind those that make up `n` -/
def parseDigits (limit : ℕ) : ℕ → List Char → Except ParseIntError ℕ
  | n, [] => .ok n
  | n, c :: rest =>
    match digit? c with
    | none => .error .invalidDigit
    | some d => if limit < 10 * n + d then .error .posOverflow else parseDigits limit (10 * n + d) rest

/-- `str::parse` of an unsigned integer up to `limit` -/
def parseUnsigned (limit : ℕ) : List Char → Except ParseIntError ℕ
  | [] => .error .empty
  | ['+'] | ['-'] => .error .invalidDigit
  | '+' :: rest => parseDigits limit 0 rest
  | text => parseDigits limit 0 text

/-- the next token, as the field of that name -/
def nextField (name : String) (limit : ℕ) : List (List Char) → Except String (ℕ × List (List Char))
  | [] => .error ("throttle: missing " ++ name)
  | token :: rest =>
    match parseUnsigned limit token with
    | .ok n => .ok (n, rest)
    | .error e => .error ("throttle: " ++ name ++ ": " ++ e.text)

def tokens (s : String) : List (List Char) :=
  (s.toList.splitOnP fun c => c = ':' || c = ' ').filter fun t => !t.isEmpty

def ThrottleConfig.fromEnvStr (s : String) : Except String ThrottleConfig := do
  let (initial, ts) ← nextField "initial_concurrency" u32Max (tokens s)
  let (max, ts) ← nextField "max_concurrency" u32Max ts
  let (initialBackoff, ts) ← nextField "initial_backoff_ms" u64Max ts
  let (maxBackoff, ts) ← nextField "max_backoff_ms" u64Max ts
  let (additiveAfter, ts) ← nextField "additive_after_ms" u64Max ts
  let (jitter, _) ← nextField "jitter_ms" u64Max ts
  return .new initial max initialBackoff maxBackoff additiveAfter jitter

example : ThrottleConfig.fromEnvStr "4:16:500:30000:5000:500" =
    .ok ⟨4, 16, 500, 30000, 5000, 500⟩ := by decide

/-- where a configuration comes from -/
inductive Source where
  | new (initialConcurrency maxConcurrency initialBackoffMs maxBackoffMs additiveAfterMs jitterMs : ℕ)
  | env (s : String)
  | file (c : FileThrottleConfig)

def Source.config : Source → Except String ThrottleConfig
  | .new i m ib mb aa j => .ok (.new i m ib mb aa j)
  | .env s => ThrottleConfig.fromEnvStr s
  | .file c => .ok (.ofFile c)

/-! ## the governor -/

structure State where
  currentConcurrency : ℕ
  currentBackoffMs : ℕ
  consecutive429s : ℕ
  consecutiveOk : ℕ
  last429At : Option ℕ
deriving DecidableEq, Repr

structure ThrottleGovernor where
  config : ThrottleConfig
  state : State
deriving DecidableEq, Repr

def ThrottleGovernor.new (config : ThrottleConfig) : ThrottleGovernor :=
  ⟨config, ⟨config.initialConcurrency, 0, 0, 0, none⟩⟩

/-- the backoff a 429 asks for, before it is capped -/
def ThrottleGovernor.doubled (g : ThrottleGovernor) : ℕ :=
  if g.state.currentBackoffMs = 0 then g.config.initialBackoffMs
  else min (g.state.currentBackoffMs * 2) u64Max

/-- `retryAfter` is `Duration::as_millis`, 128 bits wide; the cast to 64 bits drops the rest -/
def ThrottleGovernor.backoffAfter (g : ThrottleGovernor) (retryAfter : Option ℕ) : ℕ :=
  let next := min g.doubled g.config.maxBackoffMs
  match retryAfter with
  | none => next
  | some r =>
    let rMs := r % 2 ^ 64
    if next < rMs then min rMs g.config.maxBackoffMs else next

def ThrottleGovernor.onTransient429 (g : ThrottleGovernor) (now : ℕ) (retryAfter : Option ℕ) :
    ThrottleGovernor :=
  { g with
    state :=
      { currentConcurrency := max (g.state.currentConcurrency / 2) 1
        currentBackoffMs := g.backoffAfter retryAfter
        consecutive429s := min (g.state.consecutive429s + 1) u32Max
        consecutiveOk := 0
        last429At := some now } }

/-- no 429 was seen for `additive_after_ms` -/
def ThrottleGovernor.quiet (g : ThrottleGovernor) (now : ℕ) : Bool :=
  match g.state.last429At with
  | some t => g.config.additiveAfterMs ≤ now - t
  | none => true

def decayed (backoff : ℕ) : ℕ := min (backoff * 3) u64Max / 4

def ThrottleGovernor.onSuccess (g : ThrottleGovernor) (now : ℕ) : ThrottleGovernor :=
  let backoff := decayed g.state.currentBackoffMs
  { g with
    state :=
      { currentConcurrency :=
          if backoff = 0 ∧ g.state.currentConcurrency < g.config.maxConcurrency ∧ g.quiet now then
            g.state.currentConcurrency + 1
          else g.state.currentConcurrency
        currentBackoffMs := backoff
        consecutive429s := 0
        consecutiveOk := min (g.state.consecutiveOk + 1) u32Max
        last429At := g.state.last429At } }

/-! ## runs -/

inductive Event where
  | transient429 (retryAfter : Option ℕ)
  | success
deriving DecidableEq, Repr

structure Call where
  event : Event
  now : ℕ
deriving DecidableEq, Repr

def ThrottleGovernor.apply (g : ThrottleGovernor) (c : Call) : ThrottleGovernor :=
  match c.event with
  | .transient429 retryAfter => g.onTransient429 c.now retryAfter
  | .success => g.onSuccess c.now

def ThrottleGovernor.step (g : ThrottleGovernor) (c : Call) : Option ThrottleGovernor :=
  some (g.apply c)

/-- the bounds hold behind the call -/
def Bounded (g : ThrottleGovernor) (c : Call) : Prop :=
  (1 ≤ (g.apply c).state.currentConcurrency ∧
    (g.apply c).state.currentConcurrency ≤ g.config.maxConcurrency) ∧
  (g.apply c).state.currentBackoffMs ≤ g.config.maxBackoffMs

/-- behind a 429 the backoff is not below its wait, or the maximum -/
def Floored (g : ThrottleGovernor) (c : Call) : Prop :=
  ∀ r, c.event = .transient429 (some r) →
    min g.config.maxBackoffMs r ≤ (g.apply c).state.currentBackoffMs

/-- the wait of a 429 is in range: what is left of it in 64 bits, or the doubled backoff, reaches it
or the maximum -/
def InRange (g : ThrottleGovernor) (c : Call) : Prop :=
  ∀ r, c.event = .transient429 (some r) →
    min g.config.maxBackoffMs r ≤ r % 2 ^ 64 ∨ min g.config.maxBackoffMs r ≤ g.doubled

/-- the concurrencies of a file are ordered; the other sources order them -/
def Source.Ordered : Source → Prop
  | .new .. | .env _ => True
  | .file c => 1 ≤ c.maxConcurrency ∧ c.initialConcurrency ≤ c.maxConcurrency

def ThrottleConfig.Ordered (c : ThrottleConfig) : Prop :=
  1 ≤ c.maxConcurrency ∧ c.initialConcurrency ≤ c.maxConcurrency

/-! ## configurations are ordered -/

theorem new_ordered (i m ib mb aa j : ℕ) : (ThrottleConfig.new i m ib mb aa j).Ordered := by
  have h : (ThrottleConfig.new i m ib mb aa j).initialConcurrency = max i 1 := rfl
  have hmax : (ThrottleConfig.new i m ib mb aa j).maxConcurrency = max m (max i 1) := rfl
  unfold ThrottleConfig.Ordered
  omega

theorem fromEnvStr_ordered {s : String} {c : ThrottleConfig}
    (h : ThrottleConfig.fromEnvStr s = .ok c) : c.Ordered := by
  obtain ⟨⟨i, t₁⟩, -, h⟩ := Checks.bind_ok.mp h
  obtain ⟨⟨m, t₂⟩, -, h⟩ := Checks.bind_ok.mp h
  obtain ⟨⟨ib, t₃⟩, -, h⟩ := Checks.bind_ok.mp h
  obtain ⟨⟨mb, t₄⟩, -, h⟩ := Checks.bind_ok.mp h
  obtain ⟨⟨aa, t₅⟩, -, h⟩ := Checks.bind_ok.mp h
  obtain ⟨⟨j, t₆⟩, -, h⟩ := Checks.bind_ok.mp h
  rw [← Except.ok.inj h]
  exact new_ordered i m ib mb aa j

theorem config_ordered_iff {src : Source} {c : ThrottleConfig} (h : src.config = .ok c) :
    c.Ordered ↔ src.Ordered := by
  cases src with
  | new i m ib mb aa j =>
    rw [← Except.ok.inj h]
    exact iff_of_true (new_ordered i m ib mb aa j) trivial
  | env s => exact iff_of_true (fromEnvStr_ordered h) trivial
  | file f =>
    rw [← Except.ok.inj h]
    exact Iff.rfl

/-! ## one call -/

@[simp] theorem apply_config (g : ThrottleGovernor) (c : Call) : (g.apply c).config = g.config := by
  unfold ThrottleGovernor.apply
  split <;> rfl

theorem decayed_le (b : ℕ) : decayed b ≤ b := by
  unfold decayed
  omega

theorem backoffAfter_le (g : ThrottleGovernor) (r : Option ℕ) :
    g.backoffAfter r ≤ g.config.maxBackoffMs := by
  unfold ThrottleGovernor.backoffAfter
  split
  · exact Nat.min_le_right _ _
  · dsimp only
    split
    · exact Nat.min_le_right _ _
    · exact Nat.min_le_right _ _

/-- **The floor of a 429 holds iff its wait is in range.** -/
theorem floored_iff (g : ThrottleGovernor) (c : Call) : Floored g c ↔ InRange g c := by
  refine forall_congr' fun r => forall_congr' fun hc => ?_
  have happly : (g.apply c).state.currentBackoffMs = g.backoffAfter (some r) := by
    unfold ThrottleGovernor.apply
    rw [hc]
    rfl
  rw [happly]
  unfold ThrottleGovernor.backoffAfter
  dsimp only
  generalize r % 2 ^ 64 = rMs
  generalize g.doubled = d
  split <;> omega

/-- Behind a call the bounds hold; before the first one no call may have been admitted. -/
structure Ready (g : ThrottleGovernor) : Prop where
  ordered : g.config.Ordered
  below : g.state.currentConcurrency ≤ g.config.maxConcurrency
  backoff : g.state.currentBackoffMs ≤ g.config.maxBackoffMs
  fresh : g.state.currentConcurrency = 0 → g.state.currentBackoffMs = 0 ∧ g.state.last429At = none

theorem ready_new {config : ThrottleConfig} (h : config.Ordered) :
    Ready (ThrottleGovernor.new config) :=
  ⟨h, h.2, Nat.zero_le _, fun _ => ⟨rfl, rfl⟩⟩

/-- **A call of a ready governor ends in the bounds.** -/
theorem Ready.bounded {g : ThrottleGovernor} (h : Ready g) (c : Call) : Bounded g c := by
  have h1 := h.ordered.1
  have hmax := h.below
  rcases c with ⟨event, now⟩
  cases event with
  | transient429 r =>
    refine ⟨?_, backoffAfter_le g r⟩
    show 1 ≤ max (g.state.currentConcurrency / 2) 1 ∧
      max (g.state.currentConcurrency / 2) 1 ≤ g.config.maxConcurrency
    omega
  | success =>
    refine ⟨?_, Nat.le_trans (decayed_le _) h.backoff⟩
    show 1 ≤ (if _ then _ else _) ∧ (if _ then _ else _) ≤ g.config.maxConcurrency
    split
    · rename_i hraise
      exact ⟨Nat.le_add_left 1 _, hraise.2.1⟩
    · rename_i hno
      refine ⟨?_, hmax⟩
      -- without a call admitted, the success raises the concurrency
      by_contra h0
      have hzero : g.state.currentConcurrency = 0 := by omega
      obtain ⟨hb, hl⟩ := h.fresh hzero
      refine hno ⟨?_, by omega, ?_⟩
      · rw [hb]
        rfl
      · unfold ThrottleGovernor.quiet
        rw [hl]

theorem Ready.apply {g : ThrottleGovernor} (h : Ready g) (c : Call) : Ready (g.apply c) := by
  obtain ⟨⟨h1, hmax⟩, hb⟩ := h.bounded c
  refine ⟨?_, ?_, ?_, fun h0 => ?_⟩
  · rw [apply_config]
    exact h.ordered
  · rw [apply_config]
    exact hmax
  · rw [apply_config]
    exact hb
  · omega

/-! ## runs of the governor -/

theorem bounded_of_ordered {config : ThrottleConfig} (h : config.Ordered) (cs : List Call) :
    Runs.Along ThrottleGovernor.step Bounded (ThrottleGovernor.new config) cs := by
  have hall : ∀ (cs : List Call) (g : ThrottleGovernor), Ready g →
      Runs.Along ThrottleGovernor.step Bounded g cs := by
    intro cs
    induction cs with
    | nil =>
      intro g _
      trivial
    | cons c cs ih =>
      intro g hg
      exact Runs.along_cons rfl (hg.bounded c) (ih _ (hg.apply c))
  exact hall cs _ (ready_new h)

/-- a first success shows that a configuration is not ordered -/
theorem ordered_of_bounded {config : ThrottleConfig}
    (h : Bounded (ThrottleGovernor.new config) ⟨.success, 0⟩) : config.Ordered := by
  obtain ⟨⟨h1, hmax⟩, -⟩ := h
  change 1 ≤ (if _ then config.initialConcurrency + 1 else config.initialConcurrency) at h1
  change (if _ then config.initialConcurrency + 1 else config.initialConcurrency) ≤
    config.maxConcurrency at hmax
  unfold ThrottleConfig.Ordered
  split at h1
  · rename_i hraise
    rw [if_pos hraise] at hmax
    omega
  · rename_i hno
    rw [if_neg hno] at hmax
    omega

/-- each success takes something of the backoff -/
theorem backoff_successes (times : List ℕ) : ∀ g : ThrottleGovernor,
    (times.foldl ThrottleGovernor.onSuccess g).state.currentBackoffMs ≤
      g.state.currentBackoffMs - times.length := by
  induction times with
  | nil =>
    intro g
    exact Nat.le_refl _
  | cons t times ih =>
    intro g
    have hstep : (g.onSuccess t).state.currentBackoffMs ≤ g.state.currentBackoffMs - 1 := by
      show decayed g.state.currentBackoffMs ≤ _
      unfold decayed
      omega
    have hrest := ih (g.onSuccess t)
    rw [List.foldl_cons, List.length_cons]
    omega

/-- **The governor.**  Every run stays in the bounds iff the configuration is ordered, which only
one from the file can fail to be.  A 429 leaves the backoff at its floor iff its wait is in range.
From every state some number of successes ends the backoff. -/
theorem governor_bounds {src : Source} {config : ThrottleConfig} (h : src.config = .ok config) :
    ((∀ cs, Runs.Along ThrottleGovernor.step Bounded (ThrottleGovernor.new config) cs) ↔
      src.Ordered) ∧
    (∀ cs, Runs.Along ThrottleGovernor.step Floored (ThrottleGovernor.new config) cs ↔
      Runs.Along ThrottleGovernor.step InRange (ThrottleGovernor.new config) cs) ∧
    ∀ state : State, ∃ n, ∀ times : List ℕ, n ≤ times.length →
      (times.foldl ThrottleGovernor.onSuccess ⟨config, state⟩).state.currentBackoffMs = 0 := by
  refine ⟨?_, fun cs => ?_, fun state => ⟨state.currentBackoffMs, fun times hn => ?_⟩⟩
  · rw [← config_ordered_iff h]
    constructor
    · intro hall
      exact ordered_of_bounded (hall [⟨.success, 0⟩]).1
    · intro hord cs
      exact bounded_of_ordered hord cs
  · constructor
    · exact Runs.along_mono fun g c => (floored_iff g c).mp
    · exact Runs.along_mono fun g c => (floored_iff g c).mpr
  · have hle := backoff_successes times ⟨config, state⟩
    have h0 : state.currentBackoffMs - times.length = 0 := by omega
    exact Nat.le_zero.mp (h0 ▸ hle)

/-- a file that starts above its maximum -/
def unordered : FileThrottleConfig := ⟨10, 5, 500, 30000, 5000, 500⟩

theorem governor_bounds_unordered :
    ((∀ cs, Runs.Along ThrottleGovernor.step Bounded (ThrottleGovernor.new (.ofFile unordered)) cs) ↔
      Source.Ordered (.file unordered)) ∧
    (∀ cs, Runs.Along ThrottleGovernor.step Floored (ThrottleGovernor.new (.ofFile unordered)) cs ↔
      Runs.Along ThrottleGovernor.step InRange (ThrottleGovernor.new (.ofFile unordered)) cs) ∧
    ∀ state : State, ∃ n, ∀ times : List ℕ, n ≤ times.length →
      (times.foldl ThrottleGovernor.onSuccess ⟨.ofFile unordered, state⟩).state.currentBackoffMs = 0 :=
  governor_bounds (show (Source.file unordered).config = .ok (.ofFile unordered) from rfl)

/-- the first call succeeds, and ten calls stay admitted where five are the most -/
theorem bounds_exceeded :
    ¬ Runs.Along ThrottleGovernor.step Bounded (ThrottleGovernor.new (.ofFile unordered))
      [⟨.success, 0⟩] := by
  intro h
  have hmax : 10 ≤ 5 := h.1.1.2
  omega

end Moagan.Governor
