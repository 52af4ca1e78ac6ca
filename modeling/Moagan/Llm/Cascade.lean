import Moagan.Llm.WireBody

/-!
# The retries of the cascade (`src/llm/client/mod.rs`)

`LlmClient::send` around any `send_once`, whatever its calls answer.

* `Retry`, `sendRetries`   the retries of `send`: the rejected request, its answer, the next request
* `send_requests`          the cascade of the wrapper posts the bodies of these requests
* `carried`                the parameters of a request that can be omitted
* `Idle`                   an answer that names no parameter of the request it rejects
* `cascade_progress`       a retry carries less or is idle, and how many calls there are
* `resent_unchanged`       an upstream that names an absent parameter gets the same request again
-/

namespace Moagan.WireBody

open CacheKey

variable {F : Type*}

structure Retry (F : Type*) where
  rejected : LlmRequest F
  answer : Answer
  retried : LlmRequest F

section
variable (h : Host F) (sendOnce : ℕ → LlmRequest F → Answer)

/-- the retries behind a result, when the next call is the number `k` -/
def retries (k : ℕ) (working : LlmRequest F) (result : Answer) : ℕ → List (Retry F)
  | 0 => []
  | left + 1 =>
    if detected h result = [] then []
    else
      let working' := (detected h result).foldl omitParamLlm working
      ⟨working, result, working'⟩ :: retries (k + 1) working' (sendOnce k working') left

def BreakeredClient.sendRetries (c : BreakeredClient) (req : LlmRequest F) : List (Retry F) :=
  retries h sendOnce 1 (c.preflight req) (sendOnce 0 (c.preflight req)) paramNames.length

/-- what `send_once` is called with, one call after the other -/
def BreakeredClient.requests (c : BreakeredClient) (req : LlmRequest F) : List (LlmRequest F) :=
  c.preflight req :: (c.sendRetries h sendOnce req).map Retry.retried

end

/-- the parameters that the request carries and that the cascade can omit -/
def carried (req : LlmRequest F) : List String := paramNames.filter (sets req)

/-- the answer names no parameter of the request -/
def Idle (h : Host F) (r : Retry F) : Prop := ∀ p ∈ detected h r.answer, sets r.rejected p = false

instance (h : Host F) : DecidablePred (Idle h) := fun r =>
  inferInstanceAs (Decidable (∀ p ∈ detected h r.answer, sets r.rejected p = false))

/-! ## the requests and the bodies -/

section
variable (h : Host F) (c : BreakeredClient) (answers : ℕ → ℕ → Answer)

/-- the bodies of a list of requests, the first of which is the call number `k` -/
def bodiesFrom (k : ℕ) (rs : List (LlmRequest F)) : List Body :=
  (rs.zipIdx k).flatMap fun r => (c.inner.sendOnce h r.1 (answers r.2)).bodies

theorem retryLoop_requests (k : ℕ) (working : LlmRequest F) (result : Answer)
    (table : Option ParamRejectionsTable) (left : ℕ) :
    (c.retryLoop h answers k working result table left).bodies =
      bodiesFrom h c answers k ((retries h (fun k r => (c.inner.sendOnce h r (answers k)).result) k
        working result left).map Retry.retried) := by
  induction left generalizing k working result table with
  | zero => rfl
  | succ left ih =>
    unfold BreakeredClient.retryLoop retries
    by_cases hd : detected h result = []
    · rw [if_pos hd, if_pos hd]
      rfl
    · rw [if_neg hd, if_neg hd]
      dsimp only
      rw [ih]
      rfl

/-- **The cascade of the wrapper posts the bodies of its requests, in their order.** -/
theorem send_requests (req : LlmRequest F) :
    (c.send h req answers).bodies = bodiesFrom h c answers 0
      (c.requests h (fun k r => (c.inner.sendOnce h r (answers k)).result) req) := by
  unfold BreakeredClient.send
  dsimp only
  rw [retryLoop_requests]
  rfl

end

/-! ## what an omission leaves -/

theorem sets_omitParams (req : LlmRequest F) (params : List String) (p : String) :
    sets (params.foldl omitParamLlm req) p = (sets req p && decide (p ∉ params)) := by
  rw [omitParams_eq]
  unfold sets
  by_cases ht : p = "temperature"
  · subst ht
    by_cases hin : "temperature" ∈ params <;> simp [hin]
  by_cases hp : p = "top_p"
  · subst hp
    by_cases hin : "top_p" ∈ params <;> simp [hin]
  by_cases hm : p = "max_tokens"
  · subst hm
    by_cases hin : "max_tokens" ∈ params <;> simp [hin]
  simp [ht, hp, hm]

theorem carried_omitParams (req : LlmRequest F) (params : List String) :
    carried (params.foldl omitParamLlm req) = (carried req).filter (· ∉ params) := by
  unfold carried
  rw [List.filter_filter]
  refine List.filter_congr fun p _ => ?_
  rw [sets_omitParams, Bool.and_comm]

theorem carried_preflight (c : BreakeredClient) (req : LlmRequest F) :
    (carried (c.preflight req)).length ≤ (carried req).length := by
  rw [preflight_eq, carried_omitParams]
  exact List.length_filter_le _ _

/-! ## one retry -/

/-- what the loop makes of a request and its answer -/
def Retry.Made (h : Host F) (r : Retry F) : Prop :=
  detected h r.answer ≠ [] ∧ r.retried = (detected h r.answer).foldl omitParamLlm r.rejected

theorem Retry.Made.idle {h : Host F} {r : Retry F} (hr : r.Made h) (hidle : Idle h r) :
    r.retried = r.rejected := by
  rw [hr.2]
  exact omitParams_id r.rejected _ hidle

/-- **A retry drops something, unless its answer names nothing that the request carries.** -/
theorem Retry.Made.carries {h : Host F} {r : Retry F} (hr : r.Made h) (hidle : ¬ Idle h r) :
    (carried r.retried).length < (carried r.rejected).length := by
  unfold Idle at hidle
  simp only [not_forall, Bool.not_eq_false] at hidle
  obtain ⟨p, hp, hset⟩ := hidle
  have hmem : p ∈ carried r.rejected :=
    List.mem_filter.mpr ⟨detected_paramNames h r.answer p hp, hset⟩
  rw [hr.2, carried_omitParams]
  refine Nat.lt_of_le_of_ne (List.length_filter_le _ _) fun heq => ?_
  have hall := List.length_filter_eq_length_iff.mp heq p hmem
  exact of_decide_eq_true hall hp

theorem Retry.Made.subset {h : Host F} {r : Retry F} (hr : r.Made h) :
    carried r.retried ⊆ carried r.rejected := by
  rw [hr.2, carried_omitParams]
  exact List.filter_subset_self _

/-! ## the whole cascade -/

section
variable (h : Host F) (sendOnce : ℕ → LlmRequest F → Answer)

theorem retries_made (k : ℕ) (working : LlmRequest F) (result : Answer) (left : ℕ) :
    ∀ r ∈ retries h sendOnce k working result left, r.Made h := by
  induction left generalizing k working result with
  | zero =>
    intro r hr
    cases hr
  | succ left ih =>
    unfold retries
    by_cases hd : detected h result = []
    · rw [if_pos hd]
      intro r hr
      cases hr
    · rw [if_neg hd]
      intro r hr
      obtain rfl | hr := List.mem_cons.mp hr
      · exact ⟨hd, rfl⟩
      · exact ih _ _ _ r hr

theorem retries_length (k : ℕ) (working : LlmRequest F) (result : Answer) (left : ℕ) :
    (retries h sendOnce k working result left).length ≤ left := by
  induction left generalizing k working result with
  | zero => exact Nat.le_refl 0
  | succ left ih =>
    unfold retries
    split
    · exact Nat.zero_le _
    · exact Nat.succ_le_succ (ih _ _ _)

/-- every retry that is not idle uses up a parameter of the first request -/
theorem retries_measure (k : ℕ) (working : LlmRequest F) (result : Answer) (left : ℕ) :
    (retries h sendOnce k working result left).length ≤ (carried working).length +
      ((retries h sendOnce k working result left).filter (Idle h)).length := by
  induction left generalizing k working result with
  | zero => exact Nat.zero_le _
  | succ left ih =>
    unfold retries
    by_cases hd : detected h result = []
    · rw [if_pos hd]
      exact Nat.zero_le _
    · rw [if_neg hd]
      have hmade : Retry.Made h ⟨working, result, (detected h result).foldl omitParamLlm working⟩ :=
        ⟨hd, rfl⟩
      have hrest := ih (k + 1) ((detected h result).foldl omitParamLlm working)
        (sendOnce k ((detected h result).foldl omitParamLlm working))
      dsimp only
      rw [List.length_cons, List.filter_cons]
      by_cases hidle : Idle h ⟨working, result, (detected h result).foldl omitParamLlm working⟩
      · have hsame := hmade.idle hidle
        dsimp only at hsame
        rw [if_pos (decide_eq_true hidle), List.length_cons]
        rw [hsame] at hrest ⊢
        omega
      · have hless := hmade.carries hidle
        rw [if_neg (by simpa using hidle)]
        dsimp only at hless
        omega

/-- **The cascade makes progress where its answers do.**  A retry never carries a parameter that
the rejected request did not; it is the same request when the answer names nothing that this
carries, and carries strictly less otherwise.  There are four calls at most, and, but for the
retries that are the same request, no more than one and the parameters of the request. -/
theorem cascade_progress (c : BreakeredClient) (req : LlmRequest F) :
    (∀ r ∈ c.sendRetries h sendOnce req, carried r.retried ⊆ carried r.rejected ∧
      if Idle h r then r.retried = r.rejected
      else (carried r.retried).length < (carried r.rejected).length) ∧
    (c.requests h sendOnce req).length ≤ 1 + paramNames.length ∧
    (c.requests h sendOnce req).length ≤ 1 + (carried req).length +
      ((c.sendRetries h sendOnce req).filter (Idle h)).length := by
  have hlen : (c.requests h sendOnce req).length = 1 + (c.sendRetries h sendOnce req).length := by
    show (_ :: (c.sendRetries h sendOnce req).map Retry.retried).length = _
    rw [List.length_cons, List.length_map, Nat.add_comm]
  refine ⟨fun r hr => ?_, ?_, ?_⟩
  · have hmade := retries_made h sendOnce _ _ _ _ r hr
    refine ⟨hmade.subset, ?_⟩
    split
    · rename_i hidle
      exact hmade.idle hidle
    · rename_i hidle
      exact hmade.carries hidle
  · rw [hlen]
    exact Nat.add_le_add_left (retries_length h sendOnce _ _ _ _) 1
  · have hmeasure := retries_measure h sendOnce 1 (c.preflight req)
      (sendOnce 0 (c.preflight req)) paramNames.length
    have hpre := carried_preflight c req
    have hunfold : c.sendRetries h sendOnce req = retries h sendOnce 1 (c.preflight req)
      (sendOnce 0 (c.preflight req)) paramNames.length := rfl
    rw [hlen, hunfold]
    omega

end

/-- a host whose error bodies name `temperature` -/
def warm : Host ℕ := { tenths with captures := fun _ => ["temperature"] }

/-- every call is answered with status 400 -/
def rejecting : ℕ → LlmRequest ℕ → Answer := fun _ _ => .err ⟨some 400, "temperature", false⟩

theorem cascade_progress_warm :
    (if Idle warm ⟨proposal "minimax-m3", rejecting 0 (proposal "minimax-m3"),
        { proposal "minimax-m3" with temperature := none }⟩
      then { proposal "minimax-m3" with temperature := none } = proposal "minimax-m3"
      else (carried { proposal "minimax-m3" with temperature := none }).length <
        (carried (proposal "minimax-m3")).length) ∧
    ((wrapped (.anthropic ⟨"minimax", "minimax-m3"⟩)).requests warm rejecting
      (proposal "minimax-m3")).length ≤ 1 + paramNames.length :=
  ⟨((cascade_progress warm rejecting (wrapped (.anthropic ⟨"minimax", "minimax-m3"⟩))
      (proposal "minimax-m3")).1 _ List.mem_cons_self).2,
    (cascade_progress warm rejecting (wrapped (.anthropic ⟨"minimax", "minimax-m3"⟩))
      (proposal "minimax-m3")).2.1⟩

/-- the upstream rejects `temperature` in every answer: the request without it is sent three times,
and there are more calls than one and the two parameters of the request -/
theorem resent_unchanged :
    let c := wrapped (.anthropic ⟨"minimax", "minimax-m3"⟩)
    let req := proposal "minimax-m3"
    carried req = ["temperature", "max_tokens"] ∧
      (c.requests warm rejecting req).map carried =
        [["temperature", "max_tokens"], ["max_tokens"], ["max_tokens"], ["max_tokens"]] ∧
      (∃ r ∈ c.sendRetries warm rejecting req, r.retried = r.rejected) ∧
      1 + (carried req).length < (c.requests warm rejecting req).length := by
  intro c req
  exact ⟨by decide, by decide, ⟨_, List.mem_cons_of_mem _ List.mem_cons_self, rfl⟩, by decide⟩

end Moagan.WireBody
