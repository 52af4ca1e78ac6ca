import Moagan.Phases.RetryLoop

/-!
# The runs of the retry loop

A run of `callWithRetryParse` is read as a list of rounds: a round is the answer of a main call,
the continuation calls behind it and, at most, a prefill call.

* `Continues`, `assemble`   which continuation calls are made, and what is put together from them
* `continueTruncated_spec`  the continuation loop in these terms
* `Round`                   what a turn of the loop asked, what it read out of the answers and what
                            it failed with
* `Inv`                     the invariant of the loop over the rounds so far
* `callWithRetryParse_history`  every call returns, and its calls, its result and its budget are
                            those of its rounds
-/

namespace Moagan.Retry

open Attempts Cache Scanning WireBody

section
variable {σ V T : Type} (e : Env σ V T)

/-! ## continuation calls -/

/-- the continuation calls with their excerpts and answers, in the log -/
def contCalls (idx : ℕ) : List (Text × Answer) → List (Call × Answer)
  | [] => []
  | c :: cs => (.continuation c.1 idx, c.2) :: contCalls (idx + 1) cs

theorem length_contCalls (idx : ℕ) (cs : List (Text × Answer)) :
    (contCalls idx cs).length = cs.length := by
  induction cs generalizing idx with
  | nil => rfl
  | cons c cs ih => rw [contCalls, List.length_cons, ih, List.length_cons]

/-- one answer more: the response, and whether the loop can go on -/
def extend (acc : LlmResponse) : Answer → LlmResponse × Bool
  | .error _ => (acc, false)
  | .ok cont =>
    match e.continuationReport cont.text with
    | none => (absorb acc cont, false)
    | some report => (append (absorb acc cont) report cont.truncated, true)

/-- the response put together from the answers of continuation calls -/
def assemble (acc : LlmResponse) : List (Text × Answer) → LlmResponse
  | [] => acc
  | c :: cs => assemble (extend e acc c.2).1 cs

/-- these calls are made behind a response when there may be `n`: each while it is truncated, with
its last bytes, none behind a call that failed or could not be read, and none is left out -/
def Continues (acc : LlmResponse) : ℕ → List (Text × Answer) → Prop
  | n, [] => n = 0 ∨ acc.truncated = false
  | 0, _ :: _ => False
  | n + 1, c :: cs =>
    acc.truncated = true ∧ c.1 = safeTail EXCERPT_BYTES acc.text.toList ∧
      if (extend e acc c.2).2 then Continues (extend e acc c.2).1 n cs else cs = []

theorem Continues.length_le {acc : LlmResponse} {n : ℕ} {cs : List (Text × Answer)}
    (h : Continues e acc n cs) : cs.length ≤ n := by
  induction cs generalizing acc n with
  | nil => exact Nat.zero_le _
  | cons c cs ih =>
    cases n with
    | zero => exact absurd h (by simp [Continues])
    | succ n =>
      obtain ⟨-, -, h⟩ := h
      by_cases hc : (extend e acc c.2).2
      · rw [if_pos hc] at h
        exact Nat.succ_le_succ (ih h)
      · rw [if_neg hc] at h
        rw [h]
        exact Nat.succ_le_succ (Nat.zero_le n)

theorem continueLoop_spec (tokens : UInt64) (n : ℕ) (idx : ℕ) (acc : LlmResponse) (t : Trace σ) :
    ∃ cs, Continues e acc n cs ∧ (continueLoop e tokens n idx acc t).1 = assemble e acc cs ∧
      (continueLoop e tokens n idx acc t).2.calls = t.calls ++ contCalls idx cs := by
  induction n generalizing idx acc t with
  | zero => exact ⟨[], Or.inl rfl, rfl, (List.append_nil _).symm⟩
  | succ n ih =>
    rw [continueLoop]
    by_cases htr : acc.truncated = true
    · rw [if_pos htr]
      dsimp only
      -- the one call of this turn, and what its answer leads to
      generalize hx : safeTail EXCERPT_BYTES acc.text.toList = x
      have hcalls : ((t.warn (.continuationAttempt idx tokens x.length)).ask e
          (.continuation x idx)).2.calls = t.calls ++ [(.continuation x idx,
            ((t.warn (.continuationAttempt idx tokens x.length)).ask e (.continuation x idx)).1)] :=
        rfl
      generalize (t.warn (.continuationAttempt idx tokens x.length)).ask e
        (.continuation x idx) = asked at hcalls ⊢
      obtain ⟨answer, t'⟩ := asked
      cases answer with
      | error err =>
        refine ⟨[(x, .error err)], ⟨htr, hx.symm, ?_⟩, rfl, hcalls⟩
        rfl
      | ok cont =>
        dsimp only at hcalls ⊢
        cases hr : e.continuationReport cont.text with
        | none =>
          have hext : extend e acc (.ok cont) = (absorb acc cont, false) := by
            simp [extend, hr]
          refine ⟨[(x, .ok cont)], ⟨htr, hx.symm, ?_⟩, ?_, hcalls⟩
          · rw [hext]
            rfl
          · rw [assemble, hext]
            rfl
        | some report =>
          have hext : extend e acc (.ok cont)
              = (append (absorb acc cont) report cont.truncated, true) := by
            simp [extend, hr]
          obtain ⟨cs, hcs, hacc, hlog⟩ := ih (idx + 1)
            (append (absorb acc cont) report cont.truncated) t'
          refine ⟨(x, .ok cont) :: cs, ⟨htr, hx.symm, ?_⟩, ?_, ?_⟩
          · rw [if_pos (by rw [hext]), hext]
            exact hcs
          · rw [hacc, assemble, hext]
          · rw [hlog, hcalls, List.append_assoc]
            rfl
    · rw [if_neg htr]
      exact ⟨[], Or.inr (by simpa using htr), rfl, (List.append_nil _).symm⟩

/-! ## rounds -/

/-- one turn of the loop, by the answers to its calls -/
structure Round where
  main : Answer
  conts : List (Text × Answer)
  prefill : Option Answer

def Round.calls (attempt : ℕ) (r : Round) : List (Call × Answer) :=
  (mainCall attempt, r.main) :: contCalls 0 r.conts
    ++ (r.prefill.map fun a => (Call.prefill, a)).toList

def callsFrom (attempt : ℕ) : List Round → List (Call × Answer)
  | [] => []
  | r :: rs => r.calls attempt ++ callsFrom (attempt + 1) rs

theorem callsFrom_concat (attempt : ℕ) (rs : List Round) (r : Round) :
    callsFrom attempt (rs ++ [r]) = callsFrom attempt rs ++ r.calls (attempt + rs.length) := by
  induction rs generalizing attempt with
  | nil => exact List.append_nil _
  | cons q rs ih =>
    show q.calls attempt ++ callsFrom (attempt + 1) (rs ++ [r]) = _
    rw [ih, callsFrom, List.append_assoc, List.length_cons]
    congr 3
    omega

/-- the answer of a round, with what the continuation calls brought -/
def Round.answer (r : Round) : Answer :=
  match r.main with
  | .error err => .error err
  | .ok response =>
    .ok (if continued e response then assemble e { response with httpStatus := 200 } r.conts
      else response)

/-- the continuation calls of a round are those the loop makes -/
def Round.Continued (r : Round) : Prop :=
  match r.main with
  | .error _ => r.conts = []
  | .ok response =>
    if continued e response then
      Continues e { response with httpStatus := 200 }
        (maxContinuationAttempts (strategyFor e.model)) r.conts
    else r.conts = []

def Round.parsed (r : Round) : Except Error T :=
  match r.answer e with
  | .error err => .error err
  | .ok response => parseWithStrategy e (strategyFor e.model) response.text

/-- what a prefill call brought -/
def prefillValue : Answer → Option T
  | .error _ => none
  | .ok response => (parseWithStrategy e .lenient response.text).toOption

/-- the value of a round: of its answer, or else of its prefill call -/
def Round.value (r : Round) : Option T :=
  match r.parsed e with
  | .ok v => some v
  | .error _ => r.prefill.bind (prefillValue e)

/-- there is a prefill call behind the first answer of a prefill model that does not parse, and no
other -/
def Round.Prefilled (attempted : Bool) (r : Round) : Prop :=
  r.prefill.isSome = true ↔ strategyFor e.model = .promptPrefill ∧ attempted = false ∧
    ∃ response err, r.answer e = .ok response ∧ r.parsed e = .error err

/-- a round that goes round again: it brought no value, and no error that ends the loop -/
def Round.Fails (r : Round) : Prop :=
  r.value e = none ∧ ∀ err, r.main = .error err → shouldRetryError err = true

def ValidFrom (attempted : Bool) : List Round → Prop
  | [] => True
  | r :: rs => r.Continued e ∧ r.Prefilled e attempted ∧
      ValidFrom (attempted || r.prefill.isSome) rs

theorem validFrom_concat (attempted : Bool) (rs : List Round) (r : Round) :
    ValidFrom e attempted (rs ++ [r]) ↔ ValidFrom e attempted rs ∧ r.Continued e ∧
      r.Prefilled e (attempted || rs.any (·.prefill.isSome)) := by
  induction rs generalizing attempted with
  | nil => simp [ValidFrom]
  | cons q rs ih =>
    rw [List.cons_append, ValidFrom, ih, ValidFrom, List.any_cons, Bool.or_assoc]
    simp only [and_assoc]

/-- the budget of a run is the one for its first round -/
def firstBudget : List Round → Option RetryBudget
  | [] => none
  | r :: _ => some (budgetFor (parseModeStr e.mode) (failureReason e (r.answer e)))

def repairCalls : Option (String × Answer) → List (Call × Answer)
  | none => []
  | some (raw, a) => [(.repair raw, a)]

/-- what a repair call brought -/
def repairValue : Answer → Option T
  | .error _ => none
  | .ok response => repairedValue e response.text

variable (ceiling : UInt32)

/-- how a run ends with a round that `attempt` others came before: the repair call and the
result -/
inductive Ends (b : RetryBudget) (attempt : ℕ) (r : Round) :
    Option (String × Answer) → Except Error T → Prop
  | valued {v : T} : r.value e = some v → Ends b attempt r none (.ok v)
  | refused {err : Error} : r.main = .error err → shouldRetryError err = false →
      Ends b attempt r none (.error err)
  | lastCall {err : Error} : r.main = .error err → maxAttempts ceiling b ≤ attempt + 1 →
      Ends b attempt r none (.error err)
  | lastAnswer {response : LlmResponse} {err : Error} : r.value e = none →
      r.answer e = .ok response → r.parsed e = .error err → maxAttempts ceiling b ≤ attempt + 1 →
      (b.useJsonRepair && jsonRepairV2EnabledForMode e) = false →
      Ends b attempt r none (.error err)
  | repaired {response : LlmResponse} {err : Error} {a : Answer} : r.value e = none →
      r.answer e = .ok response → r.parsed e = .error err → maxAttempts ceiling b ≤ attempt + 1 →
      (b.useJsonRepair && jsonRepairV2EnabledForMode e) = true →
      Ends b attempt r (some (response.text, a)) ((repairValue e a).elim (.error err) .ok)

/-! ## one turn -/

/-- a turn that goes round again -/
structure GoesOn (s s' : LoopState σ) (r : Round) : Prop where
  fails : r.Fails e
  calls : s'.trace.calls = s.trace.calls ++ r.calls s.attempt
  attempt : s'.attempt = s.attempt + 1
  budget : s'.budget = some (budgetAt e s (r.answer e))
  prefill : s'.prefillAttempted = (s.prefillAttempted || r.prefill.isSome)
  left : s.attempt + 1 < maxAttempts ceiling (budgetAt e s (r.answer e))

/-- what a turn does is what its round says -/
def TurnOf (s : LoopState σ) (r : Round) : Next (LoopState σ) (Except Error T × Trace σ) → Prop
  | .again s' => GoesOn e ceiling s s' r
  | .done out => ∃ rep, out.2.calls = s.trace.calls ++ r.calls s.attempt ++ repairCalls rep ∧
      Ends e ceiling (budgetAt e s (r.answer e)) s.attempt r rep out.1

theorem receive_spec (attempt : ℕ) (t : Trace σ) :
    ∃ main cs, (∀ p, (Round.mk main cs p).Continued e ∧
        (receive e attempt t).1 = (Round.mk main cs p).answer e) ∧
      (receive e attempt t).2.calls = t.calls ++ (mainCall attempt, main) :: contCalls 0 cs := by
  unfold receive
  dsimp only
  have hcalls : (t.ask e (mainCall attempt)).2.calls
      = t.calls ++ [(mainCall attempt, (t.ask e (mainCall attempt)).1)] := rfl
  generalize t.ask e (mainCall attempt) = asked at hcalls ⊢
  obtain ⟨answer, t'⟩ := asked
  cases answer with
  | error err => exact ⟨.error err, [], fun p => ⟨rfl, rfl⟩, hcalls⟩
  | ok response =>
    dsimp only at hcalls ⊢
    by_cases hc : continued e response = true
    · obtain ⟨cs, hcs, hacc, hlog⟩ := continueLoop_spec e response.usage.outputTokens
        (maxContinuationAttempts (strategyFor e.model)) 0 { response with httpStatus := 200 } t'
      refine ⟨.ok response, cs, fun p => ⟨?_, ?_⟩, ?_⟩
      · show if continued e response then _ else _
        rw [if_pos hc]
        exact hcs
      · rw [if_pos hc]
        show Except.ok _ = Except.ok (if continued e response then _ else _)
        rw [if_pos hc, continueTruncatedResponse, hacc]
      · rw [if_pos hc, continueTruncatedResponse, hlog, hcalls, List.append_assoc]
        rfl
    · refine ⟨.ok response, [], fun p => ⟨?_, ?_⟩, ?_⟩
      · show if continued e response then _ else _
        rw [if_neg hc]
      · rw [if_neg hc]
        show Except.ok _ = Except.ok (if continued e response then _ else _)
        rw [if_neg hc]
      · rw [if_neg hc]
        exact hcalls

theorem callJsonRepairV2_spec (raw : String) (t : Trace σ) :
    (callJsonRepairV2 e raw t).1 = repairValue e (t.ask e (.repair raw)).1 ∧
      (callJsonRepairV2 e raw t).2.calls
        = t.calls ++ repairCalls (some (raw, (t.ask e (.repair raw)).1)) := by
  unfold callJsonRepairV2
  dsimp only
  have hcalls : (t.ask e (.repair raw)).2.calls
      = t.calls ++ repairCalls (some (raw, (t.ask e (.repair raw)).1)) := rfl
  generalize t.ask e (.repair raw) = asked at hcalls ⊢
  obtain ⟨answer, t'⟩ := asked
  cases answer with
  | error err => exact ⟨rfl, hcalls⟩
  | ok response => exact ⟨rfl, hcalls⟩

theorem retryWithAssistantPrefill_spec (h : strategyFor e.model = .promptPrefill) (t : Trace σ) :
    (retryWithAssistantPrefill e t).1 = prefillValue e (t.ask e .prefill).1 ∧
      (retryWithAssistantPrefill e t).2.calls
        = t.calls ++ [(.prefill, (t.ask e .prefill).1)] := by
  unfold retryWithAssistantPrefill
  rw [if_pos (by rw [h]; rfl)]
  dsimp only
  have hcalls : (t.ask e .prefill).2.calls = t.calls ++ [(.prefill, (t.ask e .prefill).1)] := rfl
  generalize t.ask e .prefill = asked at hcalls ⊢
  obtain ⟨answer, t'⟩ := asked
  cases answer with
  | error err => exact ⟨rfl, hcalls⟩
  | ok response => exact ⟨rfl, hcalls⟩

/-- the state behind the calls of a round -/
structure Behind (s s' : LoopState σ) (r : Round) : Prop where
  calls : s'.trace.calls = s.trace.calls ++ r.calls s.attempt
  attempt : s'.attempt = s.attempt
  budget : s'.budget = s.budget
  prefill : s'.prefillAttempted = (s.prefillAttempted || r.prefill.isSome)

theorem Behind.budgetAt {s s' : LoopState σ} {r : Round} (h : Behind s s' r) (a : Answer) :
    budgetAt e s' a = budgetAt e s a := by
  unfold Retry.budgetAt
  rw [h.budget]

theorem callFailed_spec {s s' : LoopState σ} {r : Round} {err : Error} (hb : Behind s s' r)
    (hm : r.main = .error err) (hv : r.value e = none) :
    TurnOf e ceiling s r (callFailed e ceiling err s') := by
  have ha : r.answer e = .error err := by
    unfold Round.answer
    rw [hm]
  unfold callFailed
  by_cases hr : shouldRetryError err = true
  · rw [if_pos hr]
    dsimp only
    by_cases hl : maxAttempts ceiling (budgetAt e s' (.error err)) ≤ s'.attempt + 1
    · rw [if_pos hl]
      refine ⟨none, by rw [hb.calls]; exact (List.append_nil _).symm, Ends.lastCall hm ?_⟩
      rw [ha, ← hb.budgetAt e, ← hb.attempt]
      exact hl
    · rw [if_neg hl]
      rw [hb.attempt, hb.budgetAt e, ← ha] at hl
      refine ⟨⟨hv, ?_⟩, hb.calls, ?_, ?_, hb.prefill, Nat.lt_of_not_le hl⟩
      · intro err' h'
        rw [hm, Except.error.injEq] at h'
        rw [← h']
        exact hr
      · show s'.attempt + 1 = s.attempt + 1
        rw [hb.attempt]
      · show some (budgetAt e s' (.error err)) = some (budgetAt e s (r.answer e))
        rw [ha, hb.budgetAt e]
  · rw [if_neg hr]
    exact ⟨none, by rw [hb.calls]; exact (List.append_nil _).symm,
      Ends.refused hm (by simpa using hr)⟩

theorem parseFailed_spec {s s' : LoopState σ} {r : Round} {response : LlmResponse} {err : Error}
    (hb : Behind s s' r) (ha : r.answer e = .ok response) (hp : r.parsed e = .error err)
    (hv : r.value e = none) : TurnOf e ceiling s r (parseFailed e ceiling response err s') := by
  unfold parseFailed
  dsimp only
  rw [hb.budgetAt e, hb.attempt, ← ha]
  by_cases hl : maxAttempts ceiling (budgetAt e s (r.answer e)) ≤ s.attempt + 1
  · rw [if_pos hl]
    by_cases hj : ((budgetAt e s (r.answer e)).useJsonRepair && jsonRepairV2EnabledForMode e)
        = true
    · rw [if_pos hj]
      have hrep := callJsonRepairV2_spec e response.text s'.trace
      have hend := Ends.repaired (a := (s'.trace.ask e (.repair response.text)).1) hv ha hp hl hj
      rw [← hrep.1] at hend
      cases hval : (callJsonRepairV2 e response.text s'.trace).1 with
      | some v =>
        rw [hval] at hend
        exact ⟨_, by rw [← hb.calls]; exact hrep.2, hend⟩
      | none =>
        rw [hval] at hend
        exact ⟨_, by rw [← hb.calls]; exact hrep.2, hend⟩
    · rw [if_neg hj]
      exact ⟨none, by rw [hb.calls]; exact (List.append_nil _).symm,
        Ends.lastAnswer hv ha hp hl (by simpa using hj)⟩
  · rw [if_neg hl]
    refine ⟨⟨hv, ?_⟩, hb.calls, rfl, rfl, hb.prefill, Nat.lt_of_not_le hl⟩
    intro err' h'
    rw [Round.answer, h'] at ha
    cases ha

theorem attemptOnce_spec (s : LoopState σ) :
    ∃ r : Round, r.Continued e ∧ r.Prefilled e s.prefillAttempted ∧
      TurnOf e ceiling s r (attemptOnce e ceiling s) := by
  obtain ⟨main, cs, hr, hlog⟩ := receive_spec e s.attempt s.trace
  unfold attemptOnce
  dsimp only
  generalize receive e s.attempt s.trace = received at hr hlog ⊢
  obtain ⟨answer, t⟩ := received
  have hcont := fun p => (hr p).1
  have hans : ∀ p, (Round.mk main cs p).answer e = answer := fun p => (hr p).2.symm
  -- behind the main call and its continuation
  have hbehind : Behind s { s with trace := t } (Round.mk main cs none) :=
    ⟨by simpa [Round.calls] using hlog, rfl, rfl, by simp⟩
  cases answer with
  | error err =>
    have hmain : main = .error err := by
      have h := hans none
      unfold Round.answer at h
      cases main with
      | error err' => simpa using h
      | ok response => cases h
    have hparsed : (Round.mk main cs none).parsed e = .error err := by
      rw [Round.parsed, hans]
    refine ⟨⟨main, cs, none⟩, hcont none, ?_, callFailed_spec e ceiling hbehind hmain ?_⟩
    · refine iff_of_false (by simp) ?_
      rintro ⟨-, -, response, err', h, -⟩
      rw [hans] at h
      cases h
    · rw [Round.value, hparsed]
      rfl
  | ok response =>
    dsimp only
    unfold answered
    have hparsed : ∀ p, (Round.mk main cs p).parsed e
        = parseWithStrategy e (strategyFor e.model) response.text := by
      intro p
      rw [Round.parsed, hans]
    cases hp : parseWithStrategy e (strategyFor e.model) response.text with
    | ok v =>
      refine ⟨⟨main, cs, none⟩, hcont none, ?_, none, ?_, Ends.valued ?_⟩
      · refine iff_of_false (by simp) ?_
        rintro ⟨-, -, response', err', -, h⟩
        rw [hparsed, hp] at h
        cases h
      · dsimp only
        rw [show repairCalls none = [] from rfl, List.append_nil, ← hbehind.calls]
        by_cases h0 : 0 < s.attempt
        · rw [if_pos h0]
          rfl
        · rw [if_neg h0]
      · rw [Round.value, hparsed, hp]
    | error err =>
      dsimp only
      by_cases hpre : strategyFor e.model = .promptPrefill ∧ s.prefillAttempted = false
      · rw [if_pos hpre]
        -- the prefill call and its answer
        have hask := retryWithAssistantPrefill_spec e hpre.1 t
        generalize (t.ask e .prefill).1 = a at hask
        have hvalue : (Round.mk main cs (some a)).value e = prefillValue e a := by
          rw [Round.value, hparsed, hp]
          rfl
        have hprefilled : (Round.mk main cs (some a)).Prefilled e s.prefillAttempted :=
          iff_of_true rfl ⟨hpre.1, hpre.2, response, err, hans _, by rw [hparsed, hp]⟩
        have hcalls : (retryWithAssistantPrefill e t : Option T × Trace σ).2.calls
            = s.trace.calls ++ (Round.mk main cs (some a)).calls s.attempt := by
          rw [hask.2, hbehind.calls]
          simp [Round.calls]
        cases hv : (retryWithAssistantPrefill e t : Option T × Trace σ).1 with
        | some v =>
          rw [hv] at hask
          refine ⟨⟨main, cs, some a⟩, hcont _, hprefilled, none, ?_, Ends.valued ?_⟩
          · rw [show repairCalls none = [] from rfl, List.append_nil, ← hcalls]
            rfl
          · rw [hvalue, ← hask.1]
        | none =>
          rw [hv] at hask
          refine ⟨⟨main, cs, some a⟩, hcont _, hprefilled, parseFailed_spec e ceiling
            ⟨hcalls, rfl, rfl, by simp⟩ (hans _) (by rw [hparsed, hp]) ?_⟩
          rw [hvalue, ← hask.1]
      · rw [if_neg hpre]
        refine ⟨⟨main, cs, none⟩, hcont none, ?_, parseFailed_spec e ceiling hbehind (hans _)
          (by rw [hparsed, hp]) ?_⟩
        · refine iff_of_false (by simp) ?_
          intro h
          exact hpre ⟨h.1, h.2.1⟩
        · rw [Round.value, hparsed, hp]
          rfl

/-! ## whole runs -/

/-- the invariant of the loop: the rounds so far all failed, and left an attempt -/
structure Inv (rounds : List Round) (s : LoopState σ) : Prop where
  calls : s.trace.calls = callsFrom 0 rounds
  attempt : s.attempt = rounds.length
  valid : ValidFrom e false rounds
  fails : ∀ r ∈ rounds, r.Fails e
  prefill : s.prefillAttempted = rounds.any (·.prefill.isSome)
  budget : s.budget = firstBudget e rounds
  left : ∀ b, firstBudget e rounds = some b → rounds.length < maxAttempts ceiling b

theorem inv_init (world : σ) : Inv e ceiling [] (LoopState.init world) where
  calls := rfl
  attempt := rfl
  valid := trivial
  fails := fun _ h => absurd h List.not_mem_nil
  prefill := rfl
  budget := rfl
  left := fun _ h => by cases h

theorem firstBudget_concat {rounds : List Round} {s : LoopState σ} (h : Inv e ceiling rounds s)
    (r : Round) : firstBudget e (rounds ++ [r]) = some (budgetAt e s (r.answer e)) := by
  unfold budgetAt
  rw [h.budget]
  cases rounds with
  | nil => rfl
  | cons q rs => rfl

theorem Inv.concat {rounds : List Round} {s s' : LoopState σ} {r : Round}
    (h : Inv e ceiling rounds s) (hc : r.Continued e) (hp : r.Prefilled e s.prefillAttempted)
    (hg : GoesOn e ceiling s s' r) : Inv e ceiling (rounds ++ [r]) s' where
  calls := by rw [hg.calls, h.calls, callsFrom_concat, h.attempt, Nat.zero_add]
  attempt := by rw [hg.attempt, h.attempt, List.length_append, List.length_singleton]
  valid := by
    rw [validFrom_concat, Bool.false_or, ← h.prefill]
    exact ⟨h.valid, hc, hp⟩
  fails := by
    intro q hq
    rcases List.mem_append.mp hq with hq | hq
    · exact h.fails q hq
    · rw [List.mem_singleton.mp hq]
      exact hg.fails
  prefill := by rw [hg.prefill, h.prefill]; simp
  budget := by rw [hg.budget, firstBudget_concat e ceiling h]
  left := by
    intro b hb
    rw [firstBudget_concat e ceiling h, Option.some.injEq] at hb
    rw [List.length_append, List.length_singleton, ← h.attempt, ← hb]
    exact hg.left

/-- what a whole run did: the rounds that failed, the last one, and the end -/
structure History (rounds : List Round) (last : Round) (rep : Option (String × Answer))
    (out : Except Error T × Trace σ) : Prop where
  calls : out.2.calls = callsFrom 0 (rounds ++ [last]) ++ repairCalls rep
  valid : ValidFrom e false (rounds ++ [last])
  fails : ∀ r ∈ rounds, r.Fails e
  ends : ∃ b, firstBudget e (rounds ++ [last]) = some b ∧
    (rounds ≠ [] → rounds.length < maxAttempts ceiling b) ∧
    Ends e ceiling b rounds.length last rep out.1

theorem Inv.attempt_le {rounds : List Round} {s : LoopState σ} (h : Inv e ceiling rounds s) :
    s.attempt ≤ 5 := by
  rw [h.attempt]
  cases rounds with
  | nil => exact Nat.zero_le _
  | cons r rs =>
    have hl := h.left _ rfl
    have hb := (budgetFor_attempts (parseModeStr e.mode) (failureReason e (r.answer e))).2.1
    unfold maxAttempts at hl
    omega

theorem Inv.history {rounds : List Round} {s : LoopState σ} {r : Round}
    {out : Except Error T × Trace σ} {rep : Option (String × Answer)} (h : Inv e ceiling rounds s)
    (hc : r.Continued e) (hp : r.Prefilled e s.prefillAttempted)
    (hcalls : out.2.calls = s.trace.calls ++ r.calls s.attempt ++ repairCalls rep)
    (hend : Ends e ceiling (budgetAt e s (r.answer e)) s.attempt r rep out.1) :
    History e ceiling rounds r rep out where
  calls := by rw [hcalls, h.calls, callsFrom_concat, h.attempt, Nat.zero_add]
  valid := by
    rw [validFrom_concat, Bool.false_or, ← h.prefill]
    exact ⟨h.valid, hc, hp⟩
  fails := h.fails
  ends := by
    refine ⟨_, firstBudget_concat e ceiling h r, ?_, by rw [← h.attempt]; exact hend⟩
    intro hne
    obtain ⟨q, qs, rfl⟩ := List.exists_cons_of_ne_nil hne
    have hb := firstBudget_concat e ceiling h r
    refine h.left _ ?_
    rw [← hb]
    rfl

/-- **Every run is over after six turns at the latest, and is the history of its rounds.** -/
theorem callWithRetryParse_history (fuel : ℕ) (world : σ) :
    ∃ out rounds last rep, callWithRetryParse e ceiling (fuel + 6) world = some out ∧
      History e ceiling rounds last rep out := by
  have hrun : ∃ out, loop (attemptOnce e ceiling) (fuel + 6) (LoopState.init world) = some out ∧
      ∃ rounds last rep, History e ceiling rounds last rep out := by
    refine loop_spec (I := fun s => ∃ rounds, Inv e ceiling rounds s)
      (w := fun s => 5 - s.attempt) ?_ ?_ ⟨[], inv_init e ceiling world⟩
      (by show 5 - 0 < fuel + 6; omega)
    · -- a turn that ends
      rintro s out ⟨rounds, h⟩ hdone
      obtain ⟨r, hc, hp, hturn⟩ := attemptOnce_spec e ceiling s
      rw [hdone] at hturn
      obtain ⟨rep, hcalls, hend⟩ := hturn
      exact ⟨rounds, r, rep, h.history e ceiling hc hp hcalls hend⟩
    · -- a turn that goes round again
      rintro s s' ⟨rounds, h⟩ hagain
      obtain ⟨r, hc, hp, hturn⟩ := attemptOnce_spec e ceiling s
      rw [hagain] at hturn
      have h' := h.concat e ceiling hc hp hturn
      have hle := h'.attempt_le e ceiling
      have hstep : s'.attempt = s.attempt + 1 := hturn.attempt
      exact ⟨⟨rounds ++ [r], h'⟩, by omega⟩
  obtain ⟨out, hout, rounds, last, rep, h⟩ := hrun
  exact ⟨out, rounds, last, rep, hout, h⟩

end

end Moagan.Retry
