import Moagan.Llm.Probe

/-!
# What the probe finds of a threshold (`src/llm/probe.rs`)

* `Threshold`        the transport accepts what is not above `cap`, and its errors name no cap
* `Exact`            the smaller of cap and ceiling is found, or an error where it is too small
* `narrow`           one round of the second phase, read from the cap
* `narrowed`         the span that is left when every first point of a round is rejected
* `Missed`           the inputs on which the phases stop short
* `detect_exact_iff` detection is exact iff the inputs are not missed ones
-/

namespace Moagan.Probe

section
variable {β : Type} {captured : β → Option ℕ} {t : Transport β} {cap : ℕ}

/-- the provider accepts a request iff it is not above `cap`, and no error of it names a cap -/
structure Threshold (captured : β → Option ℕ) (t : Transport β) (cap : ℕ) : Prop where
  probeSend : ∀ log n, t.probeSend log n = .accepted ↔ n ≤ cap
  probeSendWithBody : ∀ log n, (t.probeSendWithBody log n).outcome = .accepted ↔ n ≤ cap
  silent : ∀ log n, cap < n → parseCapFromErrorBody captured (t.probeSendWithBody log n).body = none

/-- the answer is the smaller of cap and ceiling, or an error when this is too small -/
def Exact (cap ceiling : ℕ) (d : Detection) : Prop :=
  if minAutoprobeFloor ≤ min cap ceiling then d.result = .ok (min cap ceiling)
  else ∃ message, d.result = .error message

/-- the first bound above the power `2 ^ k` in the first phase -/
def boundAbove (k ceiling : ℕ) : ℕ := if k < maxProbeShift then min (2 ^ (k + 1)) ceiling else ceiling

/-- the span of the second phase when each batch is rejected from its first point on, down to the
span that is probed point by point -/
def narrowed (span : ℕ) : ℕ := if span ≤ 20 then span else narrowed (span / 20 - 1)
termination_by span
decreasing_by omega

/-- the cap comes right behind the power `2 ^ k`, and no batch has it among its points -/
def Overlooked (cap ceiling : ℕ) : Prop :=
  ∃ k ≤ maxProbeShift, cap = 2 ^ k + 1 ∧ narrowed (boundAbove k ceiling - 1 - (2 ^ k + 1)) = 0

/-- neither phase probes the ceiling when it is no power of two -/
def Unprobed (ceiling : ℕ) : Prop := ¬ ∃ k, 1 ≤ k ∧ k ≤ maxProbeShift ∧ ceiling = 2 ^ k

/-- the inputs on which detection stops short of the smaller of cap and ceiling: this is above the
floor and large enough, and either the first answer names a cap below the ceiling, or it names none
and the phases pass the value over -/
def Missed (captured : β → Option ℕ) (t : Transport β) (cap floor ceiling : ℕ) : Prop :=
  minAutoprobeFloor ≤ min cap ceiling ∧ floor < min cap ceiling ∧
    match parseCapFromErrorBody captured (t.probeSendWithBody [] u32Max).body with
    | some n => n < ceiling
    | none => if cap < ceiling then Overlooked cap ceiling else Unprobed ceiling

/-! ## the answers of a threshold -/

/-- every probe of the log was answered by the threshold -/
def Honest (cap : ℕ) (log : Log) : Prop := ∀ e ∈ log, e.2 = .accepted ↔ e.1 ≤ cap

theorem Honest.sent (h : Threshold captured t cap) {n : ℕ} {log log' : Log} (hl : Honest cap log)
    (hs : Sent t log n log') : Honest cap log' := by
  induction hs with
  | refl => exact hl
  | plain m _ ih =>
    intro e he
    obtain rfl | he := List.mem_cons.mp he
    · exact h.probeSend _ m
    · exact ih e he
  | body m _ ih =>
    intro e he
    obtain rfl | he := List.mem_cons.mp he
    · exact h.probeSendWithBody _ m
    · exact ih e he

theorem Honest.within (h : Threshold captured t cap) {n : ℕ} {log log' : Log} (hl : Honest cap log)
    (hw : Within t n log log') : Honest cap log' := by
  obtain ⟨m, -, hs⟩ := hw
  exact hl.sent h hs

theorem retry_threshold (h : Threshold captured t cap) {log : Log} (hl : Honest cap log) (n : ℕ) :
    Honest cap (retryOnceOnIndeterminate t log n).2 ∧
      ((retryOnceOnIndeterminate t log n).1 = .accepted ↔ n ≤ cap) := by
  obtain ⟨hw, hmem⟩ := retry_spec (t := t) log n
  have hl' := hl.within h hw
  exact ⟨hl', hl' _ hmem⟩

/-! ## the first phase -/

/-- **The first phase finds the last power of two that is not above cap or ceiling.** -/
theorem phase1_threshold (h : Threshold captured t cap) {ceiling : ℕ} (h2 : 2 ≤ min cap ceiling)
    (n : ℕ) : ∀ (k lo : ℕ) (log : Log), Honest cap log → 1 ≤ k → k + n = maxProbeShift + 1 →
    2 ^ (k - 1) ≤ min cap ceiling → (1 < k → lo = 2 ^ (k - 1)) →
    Honest cap (phase1 t ceiling (List.range' k n) lo log).2 ∧
    ∃ j ≤ maxProbeShift, 1 ≤ j ∧
      (phase1 t ceiling (List.range' k n) lo log).1 = (2 ^ j, boundAbove j ceiling) ∧
      2 ^ j ≤ min cap ceiling ∧ (j < maxProbeShift → min cap ceiling < 2 ^ (j + 1)) := by
  induction n with
  | zero =>
    intro k lo log hl _ hk hle hlo
    have hk' : k - 1 = maxProbeShift := by omega
    have h1 : 1 < k := by
      have : 0 < maxProbeShift := by decide
      omega
    refine ⟨hl, maxProbeShift, Nat.le_refl _, by decide, ?_, hk' ▸ hle, fun hlt => absurd hlt (by omega)⟩
    show (lo, ceiling) = _
    unfold boundAbove
    rw [hlo h1, hk', if_neg (by omega)]
  | succ n ih =>
    intro k lo log hl h1 hk hle hlo
    rw [List.range'_succ, phase1]
    have hsucc : k - 1 + 1 = k := by omega
    -- below the first power nothing stops the phase
    have hfirst : min cap ceiling < 2 ^ k → 1 < k := by
      intro hlt
      by_contra hk1
      have : k = 1 := by omega
      subst this
      omega
    have hfound : min cap ceiling < 2 ^ k → ∀ hi : ℕ, hi = boundAbove (k - 1) ceiling →
        ∃ j ≤ maxProbeShift, 1 ≤ j ∧ (lo, hi) = (2 ^ j, boundAbove j ceiling) ∧
          2 ^ j ≤ min cap ceiling ∧ (j < maxProbeShift → min cap ceiling < 2 ^ (j + 1)) := by
      intro hlt hi hhi
      have hk1 := hfirst hlt
      exact ⟨k - 1, by omega, by omega, by rw [hlo hk1, hhi], hle, fun _ => by rwa [hsucc]⟩
    have hbound : boundAbove (k - 1) ceiling = min (2 ^ k) ceiling := by
      unfold boundAbove
      rw [if_pos (by omega), hsucc]
    split
    · rename_i hc
      refine ⟨hl, hfound (by omega) _ ?_⟩
      rw [hbound]
      omega
    · rename_i hc
      obtain ⟨hl', hacc⟩ := retry_threshold h hl (2 ^ k)
      split
      · rename_i log' hr
        rw [hr] at hl' hacc
        have hcap := hacc.mp rfl
        refine ih (k + 1) (2 ^ k) log' hl' (by omega) (by omega) ?_ fun _ => rfl
        show 2 ^ k ≤ min cap ceiling
        omega
      · rename_i other log' hne hr
        rw [hr] at hl' hacc
        have hcap : ¬ 2 ^ k ≤ cap := fun hle => hne (hacc.mpr hle)
        have hk1 := hfirst (by omega)
        have hpos : 0 < lo := by
          rw [hlo hk1]
          exact Nat.two_pow_pos _
        rw [if_pos hpos]
        refine ⟨hl', hfound (by omega) _ ?_⟩
        rw [hbound]
        omega

/-! ## a round of the second phase -/

/-- `commit` at a threshold -/
def narrow (cap : ℕ) (b : Bounds) : List ℕ → Bounds
  | [] => b
  | pt :: points =>
    if pt ≤ cap then narrow cap ⟨pt, b.hi, true⟩ points else { b with hi := pt - 1 }

theorem commit_threshold (h : Threshold captured t cap) (ps : List (ℕ × ProbeOutcome)) :
    ∀ (b : Bounds) (log : Log), Honest cap log → Honest cap ps →
    (commit t b log ps).1 = narrow cap b (ps.map Prod.fst) ∧ Honest cap (commit t b log ps).2 := by
  induction ps with
  | nil =>
    intro b log hl _
    exact ⟨rfl, hl⟩
  | cons p ps ih =>
    intro b log hl hps
    obtain ⟨pt, outcome⟩ := p
    have hcommitted : ∃ committed log', (if outcome = .indeterminate then
          retryOnceOnIndeterminate t log pt else (outcome, log)) = (committed, log') ∧
        Honest cap log' ∧ (committed = .accepted ↔ pt ≤ cap) := by
      split
      · exact ⟨_, _, rfl, retry_threshold h hl pt⟩
      · exact ⟨_, _, rfl, hl, hps _ List.mem_cons_self⟩
    obtain ⟨committed, log', he, hl', hacc⟩ := hcommitted
    rw [commit, he, List.map_cons, narrow]
    dsimp only
    split
    · rw [if_pos (hacc.mp rfl)]
      exact ih _ log' hl' fun e he => hps e (List.mem_cons_of_mem _ he)
    · rename_i hne
      rw [if_neg fun hle => hne (hacc.mpr hle)]
      exact ⟨rfl, hl'⟩

/-- a round at a threshold, with the log it leaves -/
theorem tighten_threshold (h : Threshold captured t cap) {log : Log} (hl : Honest cap log)
    (b : Bounds) : (tighten t b log).1 = narrow cap b (batch b) ∧
      Honest cap (tighten t b log).2 := by
  obtain ⟨hw, hlen, hmem⟩ := parallel_spec (t := t) (batch b) log
  have hl' := hl.within h hw
  have hzip : Honest cap ((batch b).zip (parallelProbe t log (batch b)).1) :=
    fun e he => hl' e (hmem e he)
  obtain ⟨hb, hlog⟩ := commit_threshold h _ b _ hl' hzip
  rw [List.map_fst_zip (Nat.le_of_eq hlen.symm)] at hb
  exact ⟨hb, hlog⟩

/-- where a round over evenly spaced points ends: behind `j` accepted points -/
structure Ends (cap step n : ℕ) (b b' : Bounds) (j : ℕ) : Prop where
  le : j ≤ n
  lo : b'.lo = b.lo + j * step
  accepted : b'.accepted = (b.accepted || decide (0 < j))
  reached : 0 < j → b'.lo ≤ cap
  all : j = n → b'.hi = b.hi
  first : j < n → b'.hi = b'.lo + step - 1 ∧ cap ≤ b'.hi

theorem narrow_range' (cap step n : ℕ) : ∀ b : Bounds,
    ∃ j, Ends cap step n b (narrow cap b (List.range' (b.lo + step) n step)) j := by
  induction n with
  | zero =>
    intro b
    refine ⟨0, Nat.le_refl 0, ?_, ?_, nofun, fun _ => rfl, nofun⟩
    · show b.lo = b.lo + 0 * step
      omega
    · show b.accepted = (b.accepted || decide (0 < 0))
      simp
  | succ n ih =>
    intro b
    rw [List.range'_succ, narrow]
    by_cases hc : b.lo + step ≤ cap
    · obtain ⟨j, hj⟩ := ih ⟨b.lo + step, b.hi, true⟩
      rw [if_pos hc]
      refine ⟨j + 1, Nat.succ_le_succ hj.le, ?_, ?_, fun _ => ?_, fun h => hj.all (by omega),
        fun h => hj.first (by omega)⟩
      · rw [hj.lo, Nat.succ_mul]
        show b.lo + step + j * step = _
        omega
      · rw [hj.accepted]
        simp
      · by_cases h0 : 0 < j
        · exact hj.reached h0
        · have : j = 0 := by omega
          rw [hj.lo, this, Nat.zero_mul]
          exact hc
    · rw [if_neg hc]
      refine ⟨0, Nat.zero_le _, ?_, ?_, nofun, nofun, fun _ => ⟨rfl, ?_⟩⟩
      · show b.lo = b.lo + 0 * step
        omega
      · simp
      · show cap ≤ b.lo + step - 1
        omega

/-- what the second phase knows: `base` is its first bound, `target` the value to be found -/
structure Tracks (base target : ℕ) (b : Bounds) : Prop where
  above : target ≤ b.hi
  accepted : b.accepted = true → base ≤ b.lo ∧ b.lo ≤ target
  unaccepted : b.accepted = false → b.lo = base

theorem Tracks.base_le {base target : ℕ} {b : Bounds} (h : Tracks base target b) : base ≤ b.lo := by
  cases ha : b.accepted with
  | true => exact (h.accepted ha).1
  | false => exact Nat.le_of_eq (h.unaccepted ha).symm

theorem Tracks.ends {base hi step n j : ℕ} {b b' : Bounds} (h : Tracks base (min cap hi) b)
    (hhi : b.hi ≤ hi) (hn : b.lo + n * step ≤ b.hi) (he : Ends cap step n b b' j) :
    Tracks base (min cap hi) b' ∧ b'.hi ≤ hi := by
  have habove := h.above
  have hbase := h.base_le
  have hlo := he.lo
  have hj : j * step ≤ n * step := Nat.mul_le_mul_right step he.le
  have hnext : j < n → j * step + step ≤ n * step := by
    intro hlt
    rw [← Nat.succ_mul]
    exact Nat.mul_le_mul_right step hlt
  have hcases : j = n ∨ j < n := by
    have := he.le
    omega
  refine ⟨⟨?_, fun ha => ?_, fun ha => ?_⟩, ?_⟩
  · obtain hall | hfirst := hcases
    · rw [he.all hall]
      exact habove
    · have := (he.first hfirst).2
      omega
  · by_cases h0 : 0 < j
    · have := he.reached h0
      omega
    · have hzero : j = 0 := by omega
      subst hzero
      rw [he.accepted] at ha
      have := h.accepted (by simpa using ha)
      omega
  · rw [he.accepted, Bool.or_eq_false_iff] at ha
    have hzero : j = 0 := by
      have := of_decide_eq_false ha.2
      omega
    have := h.unaccepted ha.1
    subst hzero
    omega
  · obtain hall | hfirst := hcases
    · rw [he.all hall]
      exact hhi
    · have := (he.first hfirst).1
      have := hnext hfirst
      omega

/-- **One round keeps track, and the span is divided by twenty or spent.** -/
theorem narrow_batch {base hi : ℕ} {b : Bounds} (h : Tracks base (min cap hi) b) (hhi : b.hi ≤ hi)
    (hlt : b.lo < b.hi) : Tracks base (min cap hi) (narrow cap b (batch b)) ∧
      (narrow cap b (batch b)).hi ≤ hi ∧
      (b.hi - b.lo ≤ 20 → (narrow cap b (batch b)).hi ≤ (narrow cap b (batch b)).lo) ∧
      (narrow cap b (batch b)).hi - (narrow cap b (batch b)).lo <
        max ((b.hi - b.lo) / 20) (min (b.hi - b.lo) 20) := by
  have habove := h.above
  have hbase := h.base_le
  unfold batch
  by_cases hspan : b.hi - b.lo ≤ 20
  · have hlen : b.hi + 1 - b.lo = b.hi - b.lo + 1 := by omega
    rw [if_pos hspan, hlen, List.range'_succ, narrow]
    by_cases hcap : b.lo ≤ cap
    · rw [if_pos hcap]
      -- the lower bound itself is accepted
      have hb : Tracks base (min cap hi) ⟨b.lo, b.hi, true⟩ :=
        ⟨habove, fun _ => ⟨hbase, by show b.lo ≤ _; omega⟩, nofun⟩
      obtain ⟨j, hj⟩ := narrow_range' cap 1 (b.hi - b.lo) ⟨b.lo, b.hi, true⟩
      obtain ⟨ht, hh⟩ := hb.ends hhi (by show b.lo + (b.hi - b.lo) * 1 ≤ b.hi; omega) hj
      have hspent : (narrow cap ⟨b.lo, b.hi, true⟩ (List.range' (b.lo + 1) (b.hi - b.lo))).hi ≤
          (narrow cap ⟨b.lo, b.hi, true⟩ (List.range' (b.lo + 1) (b.hi - b.lo))).lo := by
        have hlo := hj.lo
        by_cases hall : j = b.hi - b.lo
        · have hhi' := hj.all hall
          dsimp only at hlo hhi'
          omega
        · have hfirst := (hj.first (Nat.lt_of_le_of_ne hj.le hall)).1
          dsimp only at hfirst
          omega
      exact ⟨ht, hh, fun _ => hspent, by omega⟩
    · rw [if_neg hcap]
      refine ⟨⟨?_, fun ha => ?_, h.unaccepted⟩, ?_, fun _ => ?_, ?_⟩
      · show min cap hi ≤ b.lo - 1
        omega
      · exact absurd (h.accepted ha).2 (by omega)
      · show b.lo - 1 ≤ hi
        omega
      · show b.lo - 1 ≤ b.lo
        omega
      · show b.lo - 1 - b.lo < _
        omega
  · rw [if_neg hspan]
    obtain ⟨j, hj⟩ := narrow_range' cap ((b.hi - b.lo) / 20) 20 b
    obtain ⟨ht, hh⟩ := h.ends hhi (by omega) hj
    refine ⟨ht, hh, fun hle => absurd hle hspan, ?_⟩
    have hlo := hj.lo
    by_cases hall : j = 20
    · have := hj.all hall
      subst hall
      omega
    · have := (hj.first (Nat.lt_of_le_of_ne hj.le hall)).1
      omega

/-- the rounds that are left spend the span -/
def Enough (rounds : ℕ) (b : Bounds) : Prop :=
  b.hi ≤ b.lo ∨ 1 ≤ rounds ∧ b.hi - b.lo ≤ 20 ^ rounds

theorem Enough.narrow {base hi rounds : ℕ} {b : Bounds} (h : Enough (rounds + 1) b)
    (ht : Tracks base (min cap hi) b) (hhi : b.hi ≤ hi) (hlt : b.lo < b.hi) :
    Enough rounds (narrow cap b (batch b)) := by
  obtain ⟨-, -, hspent, hless⟩ := narrow_batch ht hhi hlt
  by_cases hspan : b.hi - b.lo ≤ 20
  · exact Or.inl (hspent hspan)
  · have hle : b.hi - b.lo ≤ 20 ^ (rounds + 1) := (h.resolve_left (by omega)).2
    have hpow : 20 ^ (rounds + 1) = 20 ^ rounds * 20 := pow_succ 20 rounds
    have h1 : 1 ≤ rounds := by
      by_contra h0
      have hzero : rounds = 0 := by omega
      subst hzero
      omega
    have hself : 20 ≤ 20 ^ rounds := Nat.le_self_pow (by omega) 20
    exact Or.inr ⟨h1, by omega⟩

theorem phase2_stop {b : Bounds} (hb : b.hi ≤ b.lo) (rounds : ℕ) (log : Log) :
    phase2 t rounds b log = (b, log) := by
  cases rounds with
  | zero => rfl
  | succ rounds => rw [phase2, if_pos (Or.inl hb)]

/-- a round always makes the span smaller, so that the phase goes on -/
theorem phase2_round (h : Threshold captured t cap) {base hi : ℕ} {b : Bounds} {log : Log}
    (hl : Honest cap log) (ht : Tracks base (min cap hi) b) (hhi : b.hi ≤ hi) (hlt : b.lo < b.hi)
    (rounds : ℕ) :
    phase2 t (rounds + 1) b log = phase2 t rounds (tighten t b log).1 (tighten t b log).2 := by
  obtain ⟨hb, -⟩ := tighten_threshold h hl b
  obtain ⟨-, -, -, hless⟩ := narrow_batch ht hhi hlt
  rw [← hb] at hless
  have hne : ¬ ((tighten t b log).1.lo = b.lo ∧ (tighten t b log).1.hi = b.hi) := by
    intro hsame
    rw [hsame.1, hsame.2] at hless
    omega
  rw [phase2, if_neg (by omega)]
  exact if_neg hne

/-- **Enough rounds spend the span, and keep track.** -/
theorem phase2_threshold (h : Threshold captured t cap) {base hi : ℕ} (rounds : ℕ) :
    ∀ (b : Bounds) (log : Log), Honest cap log → Tracks base (min cap hi) b → b.hi ≤ hi →
    Enough rounds b → Tracks base (min cap hi) (phase2 t rounds b log).1 ∧
      (phase2 t rounds b log).1.hi ≤ (phase2 t rounds b log).1.lo := by
  induction rounds with
  | zero =>
    intro b log _ ht _ he
    exact ⟨ht, he.resolve_right fun h0 => by omega⟩
  | succ rounds ih =>
    intro b log hl ht hhi he
    by_cases hstop : b.hi ≤ b.lo
    · rw [phase2_stop hstop]
      exact ⟨ht, hstop⟩
    · have hlt : b.lo < b.hi := by omega
      obtain ⟨hb, hl'⟩ := tighten_threshold h hl b
      obtain ⟨ht', hhi', -⟩ := narrow_batch ht hhi hlt
      rw [phase2_round h hl ht hhi hlt]
      have he' := he.narrow ht hhi hlt
      rw [← hb] at ht' hhi' he'
      exact ih _ _ hl' ht' hhi' he'

/-! ## a cap right behind the power -/

/-- a round whose lower bound is the cap: the bound is accepted when it is probed itself, and else
the first point is rejected -/
theorem narrow_batch_cap {b : Bounds} (hlo : b.lo = cap) (hlt : b.lo < b.hi) :
    (b.hi - b.lo ≤ 20 → (narrow cap b (batch b)).accepted = true) ∧
      (¬ b.hi - b.lo ≤ 20 →
        narrow cap b (batch b) = { b with hi := b.lo + (b.hi - b.lo) / 20 - 1 }) := by
  unfold batch
  constructor
  · intro hspan
    have hlen : b.hi + 1 - b.lo = b.hi - b.lo + 1 := by omega
    rw [if_pos hspan, hlen, List.range'_succ, narrow, if_pos (Nat.le_of_eq hlo)]
    obtain ⟨j, hj⟩ := narrow_range' cap 1 (b.hi - b.lo) ⟨b.lo, b.hi, true⟩
    rw [hj.accepted]
    rfl
  · intro hspan
    rw [if_neg hspan, List.range'_succ, narrow, if_neg (by omega)]

/-- **A cap that is the first bound of the second phase is accepted iff the narrowing meets it.** -/
theorem phase2_cap (h : Threshold captured t cap) (rounds : ℕ) :
    ∀ (b : Bounds) (log : Log), Honest cap log → b.lo = cap → b.accepted = false →
    Enough rounds b →
    ((phase2 t rounds b log).1.accepted = true ↔ narrowed (b.hi - b.lo) ≠ 0) := by
  -- nothing is accepted when the span is spent
  have hspent : ∀ (rounds : ℕ) (b : Bounds) (log : Log), b.accepted = false → b.hi ≤ b.lo →
      ((phase2 t rounds b log).1.accepted = true ↔ narrowed (b.hi - b.lo) ≠ 0) := by
    intro rounds b log hacc hstop
    have hzero : b.hi - b.lo = 0 := by omega
    rw [phase2_stop hstop, hzero, narrowed, if_pos (by omega)]
    exact ⟨fun ha => absurd (hacc.symm.trans ha) Bool.false_ne_true, fun hne => absurd rfl hne⟩
  induction rounds with
  | zero =>
    intro b log _ _ hacc he
    exact hspent 0 b log hacc (he.resolve_right fun h0 => by omega)
  | succ rounds ih =>
    intro b log hl hlo hacc he
    by_cases hstop : b.hi ≤ b.lo
    · exact hspent (rounds + 1) b log hacc hstop
    · have hlt : b.lo < b.hi := by omega
      have ht : Tracks cap (min cap b.hi) b :=
        ⟨Nat.min_le_right _ _, fun ha => absurd (hacc.symm.trans ha) Bool.false_ne_true, fun _ => hlo⟩
      obtain ⟨hb, hl'⟩ := tighten_threshold h hl b
      obtain ⟨hyes, hno⟩ := narrow_batch_cap hlo hlt
      rw [phase2_round h hl ht (Nat.le_refl _) hlt, narrowed]
      have he' := he.narrow ht (Nat.le_refl _) hlt
      rw [← hb] at hyes hno he'
      by_cases hspan : b.hi - b.lo ≤ 20
      · obtain ⟨-, -, hdone, -⟩ := narrow_batch ht (Nat.le_refl _) hlt
        rw [← hb] at hdone
        rw [if_pos hspan, phase2_stop (hdone hspan)]
        exact ⟨fun _ => by omega, fun _ => hyes hspan⟩
      · have hstep := hno hspan
        have hiff := ih _ _ hl' (hstep ▸ hlo) (hstep ▸ hacc) he'
        rw [hiff, if_neg hspan, hstep]
        show narrowed (b.lo + (b.hi - b.lo) / 20 - 1 - b.lo) ≠ 0 ↔ _
        have hrest : b.lo + (b.hi - b.lo) / 20 - 1 - b.lo = (b.hi - b.lo) / 20 - 1 := by omega
        rw [hrest]

/-! ## both phases -/

theorem boundAbove_le (k ceiling : ℕ) : boundAbove k ceiling ≤ ceiling := by
  unfold boundAbove
  split
  · exact Nat.min_le_right _ _
  · exact Nat.le_refl _

/-- **What the phases discover of a threshold**, from the last power `2 ^ k` of the first one: the
value `target` that is left for the second, unless it comes right behind the power. -/
theorem discover_threshold (h : Threshold captured t cap) {ceiling : ℕ}
    (hmin : minAutoprobeFloor ≤ min cap ceiling) (hmax : ceiling ≤ u32Max) {log : Log}
    (hl : Honest cap log) :
    ∃ k ≤ maxProbeShift, 1 ≤ k ∧ 2 ^ k ≤ min cap ceiling ∧
      (k < maxProbeShift → min cap ceiling < 2 ^ (k + 1)) ∧
      2 ^ k ≤ (discover t ceiling log).1 ∧
      (discover t ceiling log).1 ≤ max (2 ^ k) (min cap (boundAbove k ceiling - 1)) ∧
      (2 ^ k + 1 < min cap (boundAbove k ceiling - 1) →
        (discover t ceiling log).1 = min cap (boundAbove k ceiling - 1)) ∧
      (cap = 2 ^ k + 1 → cap < boundAbove k ceiling →
        ((discover t ceiling log).1 = cap ↔ narrowed (boundAbove k ceiling - 1 - (2 ^ k + 1)) ≠ 0)) := by
  have h1024 : minAutoprobeFloor = 1024 := rfl
  obtain ⟨hl₁, k, hk, hk1, hr, hle, hlt⟩ := phase1_threshold h (by omega) maxProbeShift 1 0 log hl
    (Nat.le_refl 1) (Nat.add_comm 1 _) (show 1 ≤ min cap ceiling by omega) (fun h => absurd h (by omega))
  refine ⟨k, hk, hk1, hle, hlt, ?_⟩
  unfold discover
  generalize phase1 t ceiling (List.range' 1 maxProbeShift) 0 log = r at hl₁ hr ⊢
  obtain ⟨bounds, log₁⟩ := r
  dsimp only at hr hl₁
  subst hr
  have hbound := boundAbove_le k ceiling
  have henough : Enough 32 ⟨2 ^ k + 1, boundAbove k ceiling - 1, false⟩ := by
    have hspan : boundAbove k ceiling - 1 - (2 ^ k + 1) ≤ boundAbove k ceiling :=
      Nat.le_trans (Nat.sub_le _ _) (Nat.sub_le _ _)
    have : u32Max ≤ 20 ^ 32 := by decide
    exact Or.inr ⟨by omega, show boundAbove k ceiling - 1 - (2 ^ k + 1) ≤ _ by omega⟩
  have hstart : Tracks (2 ^ k + 1) (min cap (boundAbove k ceiling - 1))
      ⟨2 ^ k + 1, boundAbove k ceiling - 1, false⟩ := ⟨Nat.min_le_right _ _, nofun, fun _ => rfl⟩
  obtain ⟨ht, hdone⟩ := phase2_threshold h 32 _ log₁ hl₁ hstart (Nat.le_refl _) henough
  have hiff := fun hcap : cap = 2 ^ k + 1 =>
    phase2_cap h 32 ⟨2 ^ k + 1, boundAbove k ceiling - 1, false⟩ log₁ hl₁ hcap.symm rfl henough
  dsimp only at hiff ⊢
  generalize phase2 t 32 ⟨2 ^ k + 1, boundAbove k ceiling - 1, false⟩ log₁ = r at ht hdone hiff ⊢
  obtain ⟨b, log₂⟩ := r
  dsimp only at ht hdone hiff ⊢
  have habove := ht.above
  cases ha : b.accepted with
  | true =>
    have hacc := ht.accepted ha
    simp only [if_true]
    refine ⟨by omega, by omega, fun _ => by omega, fun hcap hlt => ?_⟩
    have hne := (hiff hcap).mp ha
    exact ⟨fun _ => hne, fun _ => by omega⟩
  | false =>
    have hun := ht.unaccepted ha
    rw [if_neg Bool.false_ne_true]
    refine ⟨by omega, by omega, fun _ => by omega, fun hcap hlt => ⟨fun hv => by omega, fun hne => ?_⟩⟩
    have := (hiff hcap).mpr hne
    rw [ha] at this
    cases this

/-- only one power of two is the last one that the first phase accepts -/
theorem power_unique {j k n : ℕ} (hj : j ≤ maxProbeShift) (hk : k ≤ maxProbeShift) (hjn : 2 ^ j ≤ n)
    (hkn : 2 ^ k ≤ n) (hjlt : j < maxProbeShift → n < 2 ^ (j + 1))
    (hklt : k < maxProbeShift → n < 2 ^ (k + 1)) : j = k := by
  have hpow : ∀ {a b : ℕ}, a < b → 2 ^ (a + 1) ≤ 2 ^ b := fun hab =>
    Nat.pow_le_pow_right (by omega) hab
  obtain h | h | h := Nat.lt_trichotomy j k
  · have := hjlt (by omega)
    have := hpow h
    omega
  · exact h
  · have := hklt (by omega)
    have := hpow h
    omega

/-- the last power of two that the first phase accepts is not below the floor -/
theorem floor_le_power {k n : ℕ} (hmin : minAutoprobeFloor ≤ n)
    (hlt : k < maxProbeShift → n < 2 ^ (k + 1)) : 1024 ≤ 2 ^ k := by
  have h1024 : minAutoprobeFloor = 1024 := rfl
  by_cases hk10 : 10 ≤ k
  · show 2 ^ 10 ≤ 2 ^ k
    exact Nat.pow_le_pow_right (by omega) hk10
  · have hmax : maxProbeShift = 30 := rfl
    have hn := hlt (by omega)
    have : 2 ^ (k + 1) ≤ 2 ^ 10 := Nat.pow_le_pow_right (by omega) (by omega)
    omega

/-- **What the phases discover is the smaller of cap and ceiling iff it is not passed over.** -/
theorem discover_exact_iff (h : Threshold captured t cap) {ceiling : ℕ}
    (hmin : minAutoprobeFloor ≤ min cap ceiling) (hmax : ceiling ≤ u32Max) {log : Log}
    (hl : Honest cap log) :
    minAutoprobeFloor ≤ (discover t ceiling log).1 ∧
      (discover t ceiling log).1 ≤ min cap ceiling ∧
      ((discover t ceiling log).1 = min cap ceiling ↔
        ¬ if cap < ceiling then Overlooked cap ceiling else Unprobed ceiling) := by
  obtain ⟨k, hk, hk1, hle, hlt, hge, hupper, hinside, hnext⟩ := discover_threshold h hmin hmax hl
  generalize (discover t ceiling log).1 = v at *
  have h1024 : minAutoprobeFloor = 1024 := rfl
  have hbound := boundAbove_le k ceiling
  have hlarge := floor_le_power hmin hlt
  refine ⟨by omega, by omega, ?_⟩
  by_cases hcap : cap < ceiling
  · rw [if_pos hcap]
    have habove : cap < boundAbove k ceiling := by
      unfold boundAbove
      split
      · rename_i hk30
        have := hlt hk30
        omega
      · exact hcap
    -- the last power below a cap right behind a power is that power
    have hlast : ∀ j ≤ maxProbeShift, cap = 2 ^ j + 1 → j = k := by
      intro j hj hcapj
      refine power_unique hj hk (n := min cap ceiling) (by omega) hle (fun _ => ?_) hlt
      have hj1 : 2 ^ (j + 1) = 2 ^ j * 2 := pow_succ 2 j
      omega
    constructor
    · intro hv ⟨j, hj, hcapj, hzero⟩
      obtain rfl := hlast j hj hcapj
      exact (hnext hcapj habove).mp (by omega) hzero
    · intro hnot
      by_cases hright : cap = 2 ^ k + 1
      · have hv := (hnext hright habove).mpr fun hzero => hnot ⟨k, hk, hright, hzero⟩
        omega
      · by_cases hmore : 2 ^ k + 1 < cap
        · have hv := hinside (by omega)
          omega
        · omega
  · rw [if_neg hcap]
    constructor
    · intro hv hun
      exact hun ⟨k, hk1, hk, by omega⟩
    · intro hnot
      obtain ⟨j, hj1, hj, hpow⟩ := not_not.mp hnot
      have hjk : j = k := by
        refine power_unique hj hk (n := min cap ceiling) (by omega) hle (fun _ => ?_) hlt
        have hsucc : 2 ^ (j + 1) = 2 ^ j * 2 := pow_succ 2 j
        omega
      subst hjk
      omega

/-- a cap that the first answer names is returned: only an accepted answer can name one -/
theorem phase0_threshold (h : Threshold captured t cap) :
    (phase0ShortCircuit captured t []).1 =
        parseCapFromErrorBody captured (t.probeSendWithBody [] u32Max).body ∧
      Honest cap (phase0ShortCircuit captured t []).2 ∧
      ∀ n ∈ (phase0ShortCircuit captured t []).1, u32Max ≤ cap := by
  have hl : Honest cap (phase0ShortCircuit captured t []).2 :=
    Honest.within h (show Honest cap [] from nofun) (phase0_spec captured []).1
  have hcap : ∀ n ∈ parseCapFromErrorBody captured (t.probeSendWithBody [] u32Max).body,
      u32Max ≤ cap := by
    intro n hn
    by_contra hlt
    rw [h.silent [] u32Max (by omega)] at hn
    cases hn
  suffices hfst : (phase0ShortCircuit captured t []).1 =
      parseCapFromErrorBody captured (t.probeSendWithBody [] u32Max).body by
    exact ⟨hfst, hl, hfst ▸ hcap⟩
  unfold phase0ShortCircuit
  cases hp : parseCapFromErrorBody captured (t.probeSendWithBody [] u32Max).body with
  | none =>
    dsimp only [sendWithBody]
    rw [hp]
  | some n =>
    have hmax := hcap n hp
    have hn : n < u32Max := by
      unfold parseCapFromErrorBody at hp
      split at hp
      · cases hp
      · rename_i raw _
        by_cases hraw : u32Max ≤ raw
        · rw [if_pos hraw] at hp
          cases hp
        · rw [if_neg hraw] at hp
          split at hp
          · cases hp
          · obtain rfl := Option.some.inj hp
            omega
    dsimp only [sendWithBody]
    rw [hp]
    have hfirst : ∀ log, t.probeSend log n = .accepted := fun log => (h.probeSend log n).mpr (by omega)
    have hsecond : ∀ log, t.probeSend log (n + 1) = .accepted :=
      fun log => (h.probeSend log (n + 1)).mpr (by omega)
    simp only [parallelProbe, send, hfirst, hsecond]

/-- **Cap detection on a threshold.**  Detection returns the smaller of cap and ceiling, or an
error where this is too small, iff the inputs are not among the missed ones. -/
theorem detect_exact_iff (h : Threshold captured t cap) {floor ceiling : ℕ} (hfloor : floor ≤ cap)
    (hceiling : minAutoprobeFloor ≤ ceiling) (hmax : ceiling ≤ u32Max) :
    Exact cap ceiling (detectMaxTokens captured t floor ceiling) ↔
      ¬ Missed captured t cap floor ceiling := by
  obtain ⟨hfst, hl, hcap⟩ := phase0_threshold h
  unfold detectMaxTokens Missed Exact
  rw [← hfst]
  generalize phase0ShortCircuit captured t [] = r at hl hcap
  obtain ⟨found, log⟩ := r
  dsimp only at hl hcap ⊢
  cases found with
  | some n =>
    have hmin : min cap ceiling = ceiling := by
      have := hcap n rfl
      omega
    dsimp only
    rw [hmin, if_pos hceiling, Except.ok.injEq]
    unfold clamp
    omega
  | none =>
    dsimp only
    by_cases hmin : minAutoprobeFloor ≤ min cap ceiling
    · obtain ⟨hlarge, hle, hiff⟩ := discover_exact_iff h hmin hmax hl
      rw [if_pos hmin, if_neg (Nat.not_lt_of_le hlarge)]
      dsimp only
      rw [Except.ok.injEq]
      have hclamp : clamp (discover t ceiling log).1 floor ceiling = min cap ceiling ↔
          (discover t ceiling log).1 = min cap ceiling ∨ min cap ceiling ≤ floor := by
        unfold clamp
        omega
      rw [hclamp, hiff]
      constructor
      · intro hor ⟨_, hfl, hpass⟩
        obtain hnot | hle := hor
        · exact hnot hpass
        · omega
      · intro hnot
        by_cases hfl : min cap ceiling ≤ floor
        · exact Or.inr hfl
        · exact Or.inl fun hpass => hnot ⟨hmin, by omega, hpass⟩
    · -- what is discovered was accepted, so it is too small
      obtain ⟨hw, hb⟩ := discover_spec (t := t) ceiling log
      have hsmall : (discover t ceiling log).1 < minAutoprobeFloor := by
        obtain hzero | hmem := hb
        · rw [hzero]
          decide
        · have := (hl.within h hw _ hmem).mp rfl
          dsimp only at this
          omega
      rw [if_pos hsmall, if_neg hmin]
      exact ⟨fun _ hm => hmin hm.1, fun _ => ⟨_, rfl⟩⟩

end

/-- a provider that accepts up to `cap` tokens, with empty bodies -/
def capped (cap : ℕ) : Transport Unit where
  probeSend _ n := if n ≤ cap then .accepted else .rejected
  probeSendWithBody _ n := ⟨if n ≤ cap then .accepted else .rejected, ()⟩

theorem capped_threshold (cap : ℕ) : Threshold (fun _ => none) (capped cap) cap := by
  have hiff : ∀ n, (if n ≤ cap then ProbeOutcome.accepted else .rejected) = .accepted ↔ n ≤ cap := by
    intro n
    split
    · rename_i hle
      exact ⟨fun _ => hle, fun _ => rfl⟩
    · rename_i hle
      exact ⟨nofun, fun h => absurd h hle⟩
  exact ⟨fun _ n => hiff n, fun _ n => hiff n, fun _ _ _ => rfl⟩

theorem detect_exact_iff_capped :
    Exact 5000 32768 (detectMaxTokens (fun _ => none) (capped 5000) 1024 32768) ↔
      ¬ Missed (fun _ => none) (capped 5000) 5000 1024 32768 :=
  detect_exact_iff (capped_threshold 5000) (by decide) (by decide) (by decide)

/-- the cap right behind `2 ^ 14` is passed over, and so is a ceiling that is no power of two -/
theorem detect_stops_short :
    Threshold (fun _ => none) (capped 16385) 16385 ∧
      (detectMaxTokens (fun _ => none) (capped 16385) 1024 (2 ^ 30)).result = .ok 16384 ∧
      ¬ Exact 16385 (2 ^ 30) (detectMaxTokens (fun _ => none) (capped 16385) 1024 (2 ^ 30)) ∧
      (detectMaxTokens (fun _ => none) (capped 400000) 1024 393216).result = .ok 393215 ∧
      ¬ Exact 400000 393216 (detectMaxTokens (fun _ => none) (capped 400000) 1024 393216) := by
  have hpower : (detectMaxTokens (fun _ => none) (capped 16385) 1024 (2 ^ 30)).result = .ok 16384 := by
    decide +kernel
  have hceiling : (detectMaxTokens (fun _ => none) (capped 400000) 1024 393216).result =
      .ok 393215 := by
    decide +kernel
  refine ⟨capped_threshold 16385, hpower, ?_, hceiling, ?_⟩
  · unfold Exact
    rw [hpower, if_pos (by decide)]
    exact fun h => absurd (Except.ok.inj h) (by decide)
  · unfold Exact
    rw [hceiling, if_pos (by decide)]
    exact fun h => absurd (Except.ok.inj h) (by decide)

end Moagan.Probe
