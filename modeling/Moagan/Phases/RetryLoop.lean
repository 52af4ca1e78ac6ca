import Moagan.Json.Traced
import Moagan.Lib.Attempts
import Moagan.Llm.Cache
import Moagan.Llm.RetryBudget
import Moagan.Llm.WireBody

/-!
# Asking a model until its answer parses (`src/phases/phase.rs`, `call_with_retry_parse`)

* `Env`                     the answers of everything outside the loop
* `continueTruncatedResponse`  the continuation calls behind a truncated answer
* `parseWithStrategy`       the answer as a value of the role
* `attemptOnce`             one turn of the loop
* `callWithRetryParse`      the loop

The calls that leave the process are logged with their answers.  What answers them is the parameter
`ask`: it may depend on all calls before.
-/

namespace Moagan.Retry

open Attempts Cache Scanning WireBody

/-! ## what the loop does to the outside -/

/-- `cached` is `call_with_retry`, `uncached` is `call_uncached`, both for the role of the caller;
`continuation` and `prefill` go to `dispatch_to_provider`, `repair` to `call_uncached` for the
repair role -/
inductive Call where
  | cached
  | uncached (retryCount : ℕ)
  | continuation (excerpt : Text) (retryCount : ℕ)
  | prefill
  | repair (malformed : String)
  deriving DecidableEq, Repr

abbrev Answer := Except Error LlmResponse

/-- the warnings of the loop, each with its details -/
inductive Warning where
  | recoveredAfterRetry (attempts : ℕ)
  | prefillRecovered (attempts : ℕ)
  | retryParse (attempt maxAttempts : ℕ) (useJsonRepair : Bool) (error : Error)
  | retryProvider (attempt maxAttempts : ℕ) (useJsonRepair : Bool) (error : Error)
  | continuationAttempt (attempt : ℕ) (originalOutputTokens : UInt64) (excerptChars : ℕ)
  | continuationUnparsed (attempt : ℕ) (rawTail : Text)
  | continuationCallFailed (attempt : ℕ) (error : Error)

def Warning.code : Warning → String
  | .recoveredAfterRetry _ => "model.recovered_after_retry"
  | .prefillRecovered _ => "model.prefill_recovered"
  | .retryParse _ _ _ _ => "model.retry_parse"
  | .retryProvider _ _ _ _ => "model.retry_provider"
  | .continuationAttempt _ _ _ => "model.continuation_attempt"
  | .continuationUnparsed _ _ | .continuationCallFailed _ _ => "model.continuation_failed"

structure ContinuationReport where
  continued : String
  finished : Bool

/-- the caller's settings, and the answers of what lies outside the loop; `V` are JSON values and
`T` is the type of the role -/
structure Env (σ V T : Type) where
  /-- `default_model` -/
  model : String
  mode : String
  /-- `llm.json_repair_v2_enabled` -/
  jsonRepairV2Enabled : Bool
  /-- the name of `T` -/
  typeName : String
  ask : σ → Call → Answer × σ
  /-- `serde_json::from_str::<Value>`, with the text of its error -/
  fromStr : String → Except String V
  /-- `parse_model_json_traced::<Value>`, with the text of its error -/
  traced : String → Except String V
  validateJson : V → Except Error Unit
  fromValue : V → Except String T
  continuationReport : String → Option ContinuationReport
  /-- the field `repaired` of a `JsonRepairV2Report` -/
  repairedField : String → Option String

structure Trace (σ : Type) where
  world : σ
  calls : List (Call × Answer)
  warnings : List Warning

section
variable {σ V T : Type} (e : Env σ V T)

def Trace.ask (t : Trace σ) (c : Call) : Answer × Trace σ :=
  ((e.ask t.world c).1,
    { t with world := (e.ask t.world c).2, calls := t.calls ++ [(c, (e.ask t.world c).1)] })

def Trace.warn (t : Trace σ) (w : Warning) : Trace σ := { t with warnings := t.warnings ++ [w] }

/-! ## continuation -/

def EXCERPT_BYTES : ℕ := 500

/-- `safe_tail`: the longest suffix of at most that many bytes -/
def safeTail (maxBytes : ℕ) : Text → Text
  | [] => []
  | c :: t => if utf8Len (c :: t) ≤ maxBytes then c :: t else safeTail maxBytes t

/-- `u64::saturating_add` -/
def saturatingAddU64 (a b : UInt64) : UInt64 :=
  if a.toNat + b.toNat < 2 ^ 64 then a + b else UInt64.ofNat (2 ^ 64 - 1)

def Usage.add (u v : Usage) : Usage where
  inputTokens := saturatingAddU64 u.inputTokens v.inputTokens
  outputTokens := saturatingAddU64 u.outputTokens v.outputTokens
  cacheRead := saturatingAddU64 u.cacheRead v.cacheRead
  cacheCreation := saturatingAddU64 u.cacheCreation v.cacheCreation

/-- the usage and the reason of an answer go into the response that is put together -/
def absorb (acc cont : LlmResponse) : LlmResponse :=
  { acc with
    usage := Usage.add acc.usage cont.usage
    finishReason := cont.finishReason.or acc.finishReason }

/-- a report goes behind the text -/
def append (acc : LlmResponse) (report : ContinuationReport) (contTruncated : Bool) : LlmResponse :=
  { acc with text := acc.text ++ report.continued, truncated := !report.finished && contTruncated }

/-- the loop over the continuation calls, with the calls left, the number of the next one and the
response put together so far -/
def continueLoop (originalTokens : UInt64) :
    ℕ → ℕ → LlmResponse → Trace σ → LlmResponse × Trace σ
  | 0, _, acc, t => (acc, t)
  | n + 1, idx, acc, t =>
    if acc.truncated then
      let excerpt := safeTail EXCERPT_BYTES acc.text.toList
      let asked := (t.warn (.continuationAttempt idx originalTokens excerpt.length)).ask e
        (.continuation excerpt idx)
      match asked.1 with
      | .error err => (acc, asked.2.warn (.continuationCallFailed idx err))
      | .ok cont =>
        match e.continuationReport cont.text with
        | none =>
          (absorb acc cont, asked.2.warn
            (.continuationUnparsed idx (safeTail EXCERPT_BYTES cont.text.toList)))
        | some report =>
          continueLoop originalTokens n (idx + 1)
            (append (absorb acc cont) report cont.truncated) asked.2
    else (acc, t)

def continueTruncatedResponse (original : LlmResponse) (maxAttempts : ℕ) (t : Trace σ) :
    LlmResponse × Trace σ :=
  continueLoop e original.usage.outputTokens maxAttempts 0 { original with httpStatus := 200 } t

def maxContinuationAttempts : JsonRecoveryStrategy → ℕ
  | .continuation => 2
  | _ => 0

/-! ## parsing -/

def parseWithStrategy (strategy : JsonRecoveryStrategy) (raw : String) : Except Error T :=
  match if strategy = .strict then e.fromStr raw else e.traced raw with
  | .error msg => .error (.schemaViolation ("model output is not valid JSON: " ++ msg))
  | .ok value =>
    match e.validateJson value with
    | .error schemaErr => .error schemaErr
    | .ok () =>
      match e.fromValue value with
      | .ok v => .ok v
      | .error msg =>
        .error (.schemaViolation
          ("model output did not deserialise into " ++ e.typeName ++ ": " ++ msg))

/-- `Ok(None)` and `Err` of `retry_with_assistant_prefill` are not told apart by its caller -/
def retryWithAssistantPrefill (t : Trace σ) : Option T × Trace σ :=
  if needsAssistantPrefill (strategyFor e.model) then
    let asked := t.ask e .prefill
    match asked.1 with
    | .error _ => (none, asked.2)
    | .ok response => ((parseWithStrategy e .lenient response.text).toOption, asked.2)
  else (none, t)

def isBlank (s : String) : Bool := (trim s.toList).isEmpty

/-- what `call_json_repair_v2` makes of the answer -/
def repairedValue (text : String) : Option T :=
  match ((e.repairedField text).filter fun s => !isBlank s).or
      (if isBlank text then none else some text) with
  | none => none
  | some repaired =>
    match e.fromStr repaired with
    | .error _ => none
    | .ok value =>
      match e.validateJson value with
      | .error _ => none
      | .ok () => (e.fromValue value).toOption

def callJsonRepairV2 (raw : String) (t : Trace σ) : Option T × Trace σ :=
  let asked := t.ask e (.repair raw)
  match asked.1 with
  | .error _ => (none, asked.2)
  | .ok response => (repairedValue e response.text, asked.2)

def jsonRepairV2EnabledForMode : Bool := e.mode = "discover" || e.jsonRepairV2Enabled

/-! ## the loop -/

structure LoopState (σ : Type) where
  attempt : ℕ
  budget : Option RetryBudget
  prefillAttempted : Bool
  trace : Trace σ

/-- `b.max_attempts.min(ceiling + 1)`; the sum wraps in a release build -/
def maxAttempts (ceiling : UInt32) (b : RetryBudget) : ℕ := min b.maxAttempts (ceiling + 1).toNat

/-- the first attempt goes through the cache -/
def mainCall (attempt : ℕ) : Call := if attempt = 0 then .cached else .uncached attempt

/-- `resp.truncated && !resp.text.is_empty() && max_cont > 0` -/
def continued (response : LlmResponse) : Bool :=
  response.truncated && response.text != ""
    && decide (0 < maxContinuationAttempts (strategyFor e.model))

/-- the main call of a turn, and the continuation calls behind its answer -/
def receive (attempt : ℕ) (t : Trace σ) : Answer × Trace σ :=
  let asked := t.ask e (mainCall attempt)
  match asked.1 with
  | .error err => (.error err, asked.2)
  | .ok response =>
    if continued e response then
      let joined := continueTruncatedResponse e response
        (maxContinuationAttempts (strategyFor e.model)) asked.2
      (.ok joined.1, joined.2)
    else (.ok response, asked.2)

/-- why an answer counts as failed -/
def failureReason : Answer → RetryReason
  | .error err => reasonFromError err
  | .ok response =>
    match e.fromStr response.text with
    | .ok _ => .schema
    | .error _ => .parse

/-- the budget of the first failure stays -/
def budgetAt (s : LoopState σ) (answer : Answer) : RetryBudget :=
  s.budget.getD (budgetFor (parseModeStr e.mode) (failureReason e answer))

variable (ceiling : UInt32)

def parseFailed (response : LlmResponse) (err : Error) (s : LoopState σ) :
    Next (LoopState σ) (Except Error T × Trace σ) :=
  let b := budgetAt e s (.ok response)
  if maxAttempts ceiling b ≤ s.attempt + 1 then
    if b.useJsonRepair && jsonRepairV2EnabledForMode e then
      let repaired := callJsonRepairV2 e response.text s.trace
      match repaired.1 with
      | some v => .done (.ok v, repaired.2)
      | none => .done (.error err, repaired.2)
    else .done (.error err, s.trace)
  else
    .again
      { s with
        attempt := s.attempt + 1
        budget := some b
        trace := s.trace.warn
          (.retryParse (s.attempt + 1) (maxAttempts ceiling b) b.useJsonRepair err) }

def callFailed (err : Error) (s : LoopState σ) : Next (LoopState σ) (Except Error T × Trace σ) :=
  if shouldRetryError err then
    let b := budgetAt e s (.error err)
    if maxAttempts ceiling b ≤ s.attempt + 1 then .done (.error err, s.trace)
    else
      .again
        { s with
          attempt := s.attempt + 1
          budget := some b
          trace := s.trace.warn
            (.retryProvider (s.attempt + 1) (maxAttempts ceiling b) b.useJsonRepair err) }
  else .done (.error err, s.trace)

def answered (response : LlmResponse) (s : LoopState σ) :
    Next (LoopState σ) (Except Error T × Trace σ) :=
  match parseWithStrategy e (strategyFor e.model) response.text with
  | .ok v =>
    .done (.ok v,
      if 0 < s.attempt then s.trace.warn (.recoveredAfterRetry (s.attempt + 1)) else s.trace)
  | .error err =>
    if strategyFor e.model = .promptPrefill ∧ s.prefillAttempted = false then
      let prefilled := retryWithAssistantPrefill e s.trace
      match prefilled.1 with
      | some v => .done (.ok v, prefilled.2.warn (.prefillRecovered (s.attempt + 1)))
      | none =>
        parseFailed e ceiling response err { s with prefillAttempted := true, trace := prefilled.2 }
    else parseFailed e ceiling response err s

def attemptOnce (s : LoopState σ) : Next (LoopState σ) (Except Error T × Trace σ) :=
  let received := receive e s.attempt s.trace
  match received.1 with
  | .error err => callFailed e ceiling err { s with trace := received.2 }
  | .ok response => answered e ceiling response { s with trace := received.2 }

def LoopState.init (world : σ) : LoopState σ where
  attempt := 0
  budget := none
  prefillAttempted := false
  trace := { world := world, calls := [], warnings := [] }

def callWithRetryParse (fuel : ℕ) (world : σ) : Option (Except Error T × Trace σ) :=
  loop (attemptOnce e ceiling) fuel (LoopState.init world)

end

end Moagan.Retry
