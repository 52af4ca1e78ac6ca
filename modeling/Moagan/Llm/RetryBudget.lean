import Mathlib.Data.Nat.Notation

/-!
# Errors, and how often a failed call is tried again (`src/error`, `src/llm/retry_budget.rs`)

* `Error.code`        the code of an error, and `isRetriable` of a code
* `shouldRetryError`  the errors that the retry loop goes round for
* `budgetFor`         the attempts of a mode for a kind of failure
* `budgetFor_attempts`  every budget allows from one to six attempts, and only one of five asks for
                      the repair pass
-/

namespace Moagan.Retry

/-! ## errors -/

inductive Error where
  | io (message : String)
  | invalidArgs (message : String)
  | invalidApiKey (message : String) (httpStatus : Option UInt16)
  | planExhausted (message : String) (httpStatus : Option UInt16)
  | throttled (retryAfterMs : Option UInt64) (message : String) (httpStatus : Option UInt16)
  | timeout (message : String) (httpStatus : Option UInt16)
  | cancelled (message : String)
  | schemaViolation (message : String)
  | invalidState (message : String)
  | lockHeld (message : String)
  | provider (message : String) (httpStatus : Option UInt16)
  | mockExhausted
  | cache (message : String)
  | cancel
  | needsInput (message : String)
  | discoveryQualityTooLow (failed total thresholdPct : ℕ)
  | discoveryIncomplete (cells : List String)
  | hostilePrompt (message : String)
  | pathTraversal (message : String)
  | payloadTooLarge (message : String)
  | modalityUnsupported (message : String)
  | researchUnavailable (message : String)
  deriving DecidableEq, Repr

/-- the codes of errors, and the other codes that count as retriable -/
inductive ErrorCode where
  | http429 | http500 | http502 | http503 | http504
  | transportError | timeoutThesis | timeoutPhase | timeoutTotal
  | providerOverloaded | providerRateLimit
  | io | invalidArgs | auth | quotaExceeded | cancelled | schemaViolation | invalidState
  | invalidResponse | needsInput | discovery | hostilePrompt | inputTooLarge | unsupported
  | research
  deriving DecidableEq, Repr

def Error.code : Error → ErrorCode
  | .io _ => .io
  | .invalidArgs _ => .invalidArgs
  | .invalidApiKey _ _ => .auth
  | .planExhausted _ _ => .quotaExceeded
  | .throttled _ _ _ => .http429
  | .timeout _ _ => .timeoutPhase
  | .cancelled _ => .cancelled
  | .schemaViolation _ => .schemaViolation
  | .invalidState _ => .invalidState
  | .lockHeld _ => .invalidState
  | .provider _ _ => .invalidResponse
  | .mockExhausted => .needsInput
  | .cache _ => .io
  | .cancel => .cancelled
  | .needsInput _ => .needsInput
  | .discoveryQualityTooLow _ _ _ => .invalidState
  | .discoveryIncomplete _ => .discovery
  | .hostilePrompt _ => .hostilePrompt
  | .pathTraversal _ => .invalidArgs
  | .payloadTooLarge _ => .inputTooLarge
  | .modalityUnsupported _ => .unsupported
  | .researchUnavailable _ => .research

def ErrorCode.isRetriable : ErrorCode → Bool
  | .http429 | .http500 | .http502 | .http503 | .http504 | .transportError
  | .timeoutThesis | .timeoutPhase | .timeoutTotal | .providerOverloaded
  | .providerRateLimit => true
  | _ => false

def errorCodeIsRetriable (code : Option ErrorCode) : Bool := (code.map (·.isRetriable)).getD true

def shouldRetryError (err : Error) : Bool :=
  errorCodeIsRetriable (some err.code) ||
    match err with
    | .provider _ _ | .planExhausted _ _ => true
    | _ => false

/-- the errors that are tried again, by their kind -/
theorem shouldRetryError_iff (err : Error) :
    shouldRetryError err = true ↔
      (∃ m s, err = .provider m s) ∨ (∃ m s, err = .planExhausted m s) ∨
        (∃ r m s, err = .throttled r m s) ∨ (∃ m s, err = .timeout m s) := by
  cases err <;> simp [shouldRetryError, errorCodeIsRetriable, Error.code, ErrorCode.isRetriable]

/-! ## budgets -/

inductive Mode where
  | fast | standard | deep | explore | batch
  deriving DecidableEq, Repr

def parseModeStr (s : String) : Mode :=
  if s = "fast" then .fast
  else if s = "standard" then .standard
  else if s = "deep" then .deep
  else if s = "explore" then .explore
  else if s = "batch" then .batch
  else .standard

inductive RetryReason where
  | transport | rateLimit | parse | schema | timeout | truncated
  deriving DecidableEq, Repr

structure RetryBudget where
  maxAttempts : ℕ
  useJsonRepair : Bool
  deriving DecidableEq, Repr

def REPAIR_ATTEMPTS : ℕ := 5
def SHORT_TRANSIENT : ℕ := 3
def SHORT_TRUNCATED : ℕ := 1

def budgetFor : Mode → RetryReason → RetryBudget
  | .fast, .parse | .fast, .schema => ⟨REPAIR_ATTEMPTS, true⟩
  | .fast, .rateLimit | .fast, .transport | .fast, .timeout => ⟨SHORT_TRANSIENT, false⟩
  | .fast, .truncated => ⟨SHORT_TRUNCATED, false⟩
  | .standard, .parse | .standard, .schema => ⟨REPAIR_ATTEMPTS, true⟩
  | .standard, .rateLimit => ⟨4, false⟩
  | .standard, .transport | .standard, .timeout => ⟨SHORT_TRANSIENT, false⟩
  | .standard, .truncated => ⟨2, false⟩
  | .deep, .parse | .deep, .schema => ⟨REPAIR_ATTEMPTS, true⟩
  | .deep, .rateLimit => ⟨6, false⟩
  | .deep, .transport | .deep, .timeout => ⟨4, false⟩
  | .deep, .truncated => ⟨2, false⟩
  | .explore, .parse | .explore, .schema => ⟨REPAIR_ATTEMPTS, true⟩
  | .explore, .rateLimit | .explore, .transport | .explore, .timeout => ⟨SHORT_TRANSIENT, false⟩
  | .explore, .truncated => ⟨SHORT_TRUNCATED, false⟩
  | .batch, .parse | .batch, .schema => ⟨REPAIR_ATTEMPTS, true⟩
  | .batch, .rateLimit | .batch, .transport | .batch, .timeout => ⟨SHORT_TRANSIENT, false⟩
  | .batch, .truncated => ⟨SHORT_TRUNCATED, false⟩

def reasonFromError : Error → RetryReason
  | .timeout _ _ => .timeout
  | .planExhausted _ _ | .throttled _ _ _ => .rateLimit
  | .schemaViolation _ => .schema
  | .provider _ _ | .cache _ | .io _ => .transport
  | .mockExhausted => .truncated
  | _ => .transport

theorem budgetFor_attempts (mode : Mode) (reason : RetryReason) :
    1 ≤ (budgetFor mode reason).maxAttempts ∧ (budgetFor mode reason).maxAttempts ≤ 6 ∧
      ((budgetFor mode reason).useJsonRepair = true →
        (budgetFor mode reason).maxAttempts = REPAIR_ATTEMPTS) := by
  cases mode <;> cases reason <;> decide

end Moagan.Retry
