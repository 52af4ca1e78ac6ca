import Moagan.Llm.CacheKey
import Moagan.Llm.Governor

/-!
# The gate of a provider (`src/llm/governor.rs`)

Every role that calls a provider waits at one gate; a 429 of any of them closes it for all.

* `ProviderGate.preCall`    how long a call sleeps that finds the gate as it is
* `on429`, `onSuccess`      the backoff doubled from its initial value up to a maximum, and decayed
* `GateOk`                  the gate is closed for no longer than the maximum, and only while there
                            is a backoff
* `ThrottleGovernor.preCall`   the sleep of the governor of a role, behind that of the gate

Times are milliseconds.  A jitter is drawn by the caller, up to the bound of the gate.
-/

namespace Moagan.Governor

open CacheKey (Role)

def PROVIDER_GATE_INITIAL_BACKOFF_MS : ℕ := 500
def PROVIDER_GATE_MAX_BACKOFF_MS : ℕ := 30000
def PROVIDER_GATE_JITTER_MS : ℕ := 500

structure GateState where
  backoffMs : ℕ
  /-- `until` -/
  untilMs : Option ℕ
deriving DecidableEq, Repr

structure ProviderGate where
  state : GateState
  initialBackoffMs : ℕ
  maxBackoffMs : ℕ
  jitterMs : ℕ
deriving DecidableEq, Repr

def ProviderGate.new (initialBackoffMs maxBackoffMs jitterMs : ℕ) : ProviderGate where
  state := ⟨0, none⟩
  initialBackoffMs := min initialBackoffMs maxBackoffMs
  maxBackoffMs := maxBackoffMs
  jitterMs := jitterMs

/-- the gate that the registry makes for a provider -/
def ProviderGate.ofRegistry : ProviderGate :=
  .new PROVIDER_GATE_INITIAL_BACKOFF_MS PROVIDER_GATE_MAX_BACKOFF_MS PROVIDER_GATE_JITTER_MS

/-- what is left of the time for which the gate is closed -/
def ProviderGate.wait (g : ProviderGate) (now : ℕ) : ℕ :=
  match g.state.untilMs with
  | some t => t - now
  | none => 0

def ProviderGate.preCall (g : ProviderGate) (now jitter : ℕ) : ℕ :=
  if g.wait now = 0 then 0 else g.wait now + jitter

def ProviderGate.nextBackoff (g : ProviderGate) : ℕ :=
  min (if g.state.backoffMs = 0 then g.initialBackoffMs else min (g.state.backoffMs * 2) u64Max)
    g.maxBackoffMs

/-- a later end stays -/
def ProviderGate.on429 (g : ProviderGate) (now : ℕ) : ProviderGate :=
  let endsAt := now + g.nextBackoff
  { g with
    state :=
      { backoffMs := g.nextBackoff
        untilMs := some (match g.state.untilMs with
          | some prev => if endsAt < prev then prev else endsAt
          | none => endsAt) } }

def ProviderGate.onSuccess (g : ProviderGate) : ProviderGate :=
  if g.state.backoffMs = 0 then g
  else
    let backoff := decayed g.state.backoffMs
    { g with
      state := { backoffMs := backoff, untilMs := if backoff = 0 then none else g.state.untilMs } }

/-- `pre_call` of a governor: the backoff, read once -/
def ThrottleGovernor.preCall (g : ThrottleGovernor) (jitter : ℕ) : ℕ :=
  if g.state.currentBackoffMs = 0 then 0 else min (g.state.currentBackoffMs + jitter) u64Max

/-- `default_for_role` -/
def ThrottleConfig.defaultForRole : Role → ThrottleConfig
  | .thesis => .new 2 8 500 30000 5000 500
  | _ => .new 1 2 500 30000 5000 500

/-! ## the gate -/

structure GateOk (g : ProviderGate) (now : ℕ) : Prop where
  initial : 0 < g.initialBackoffMs
  range : g.initialBackoffMs ≤ g.maxBackoffMs ∧ g.maxBackoffMs ≤ u64Max
  backoff : g.state.backoffMs ≤ g.maxBackoffMs
  open_iff : g.state.untilMs = none ↔ g.state.backoffMs = 0
  ends : ∀ t, g.state.untilMs = some t → t ≤ now + g.maxBackoffMs

theorem ofRegistry_ok (now : ℕ) : GateOk .ofRegistry now where
  initial := by decide
  range := by decide
  backoff := by decide
  open_iff := by decide
  ends := fun t h => by cases h

theorem nextBackoff_le (g : ProviderGate) : g.nextBackoff ≤ g.maxBackoffMs := Nat.min_le_right _ _

theorem GateOk.nextBackoff_pos {g : ProviderGate} {now : ℕ} (h : GateOk g now) :
    0 < g.nextBackoff := by
  have hinit := h.initial
  have hrange := h.range
  unfold ProviderGate.nextBackoff
  by_cases hb : g.state.backoffMs = 0
  · rw [if_pos hb]
    omega
  · rw [if_neg hb]
    have : 0 < u64Max := by decide
    omega

/-- the end of a 429 is that of its own backoff, or a later one -/
theorem on429_ends (g : ProviderGate) (now : ℕ) : ∃ t, (g.on429 now).state.untilMs = some t ∧
    now + (g.on429 now).state.backoffMs ≤ t ∧ ∀ u, g.state.untilMs = some u → u ≤ t := by
  refine ⟨_, rfl, ?_⟩
  show now + g.nextBackoff ≤ _ ∧ _
  cases g.state.untilMs with
  | none => exact ⟨Nat.le_refl _, fun u h => by cases h⟩
  | some prev =>
    dsimp only
    by_cases hlt : now + g.nextBackoff < prev
    · rw [if_pos hlt]
      exact ⟨by omega, fun u h => by cases h; exact Nat.le_refl _⟩
    · rw [if_neg hlt]
      exact ⟨Nat.le_refl _, fun u h => by cases h; omega⟩

theorem GateOk.on429 {g : ProviderGate} {now : ℕ} (h : GateOk g now) :
    GateOk (g.on429 now) now where
  initial := h.initial
  range := h.range
  backoff := nextBackoff_le g
  open_iff := by
    have hpos := h.nextBackoff_pos
    refine iff_of_false (fun hn => by cases hn) fun h0 => ?_
    have h0 : g.nextBackoff = 0 := h0
    omega
  ends := by
    intro t ht
    have hle := nextBackoff_le g
    show t ≤ now + g.maxBackoffMs
    have ht := Option.some.inj ht
    cases hu : g.state.untilMs with
    | none =>
      rw [hu] at ht
      dsimp only at ht
      omega
    | some prev =>
      have hprev := h.ends prev hu
      rw [hu] at ht
      dsimp only at ht
      split at ht <;> omega

theorem GateOk.onSuccess {g : ProviderGate} {now : ℕ} (h : GateOk g now) :
    GateOk g.onSuccess now := by
  unfold ProviderGate.onSuccess
  by_cases h0 : g.state.backoffMs = 0
  · rw [if_pos h0]
    exact h
  · rw [if_neg h0]
    constructor
    · exact h.initial
    · exact h.range
    · exact Nat.le_trans (decayed_le _) h.backoff
    · by_cases hd : decayed g.state.backoffMs = 0
      · dsimp only
        rw [if_pos hd]
        exact iff_of_true rfl hd
      · dsimp only
        rw [if_neg hd]
        exact iff_of_false (fun hn => h0 (h.open_iff.mp hn)) hd
    · intro t ht
      dsimp only at ht
      by_cases hd : decayed g.state.backoffMs = 0
      · rw [if_pos hd] at ht
        cases ht
      · rw [if_neg hd] at ht
        exact h.ends t ht

theorem GateOk.later {g : ProviderGate} {now now' : ℕ} (h : GateOk g now) (hle : now ≤ now') :
    GateOk g now' where
  initial := h.initial
  range := h.range
  backoff := h.backoff
  open_iff := h.open_iff
  ends := fun t ht => Nat.le_trans (h.ends t ht) (Nat.add_le_add_right hle _)

/-- a success keeps the end, or takes the backoff to nothing -/
theorem onSuccess_ends {g : ProviderGate} (h : g.onSuccess.state.backoffMs ≠ 0) :
    g.onSuccess.state.untilMs = g.state.untilMs := by
  unfold ProviderGate.onSuccess at h ⊢
  by_cases h0 : g.state.backoffMs = 0
  · rw [if_pos h0]
  · rw [if_neg h0] at h ⊢
    exact if_neg h

theorem preCall_le {g : ProviderGate} {now : ℕ} (h : GateOk g now) (jitter : ℕ) :
    g.preCall now jitter ≤ g.maxBackoffMs + jitter := by
  have hwait : g.wait now ≤ g.maxBackoffMs := by
    unfold ProviderGate.wait
    cases hu : g.state.untilMs with
    | none => exact Nat.zero_le _
    | some t =>
      have := h.ends t hu
      show t - now ≤ _
      omega
  unfold ProviderGate.preCall
  split <;> omega

theorem governor_preCall_le (g : ThrottleGovernor) (jitter : ℕ) :
    g.preCall jitter ≤ g.state.currentBackoffMs + jitter := by
  unfold ThrottleGovernor.preCall
  by_cases h : g.state.currentBackoffMs = 0
  · rw [if_pos h]
    exact Nat.zero_le _
  · rw [if_neg h]
    exact Nat.min_le_left _ _

/-- a sleep at the gate does not end before the gate opens -/
theorem ends_le_preCall {g : ProviderGate} {t : ℕ} (h : g.state.untilMs = some t) (now jitter : ℕ) :
    t ≤ now + g.preCall now jitter := by
  have hwait : g.wait now = t - now := by
    unfold ProviderGate.wait
    rw [h]
  unfold ProviderGate.preCall
  rw [hwait]
  split <;> omega

end Moagan.Governor
