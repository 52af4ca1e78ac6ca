import Mathlib.Algebra.GroupWithZero.Nat
import Moagan.Phases.RetryRuns

/-!
# How often the retry loop asks

* `filter_isMain_callsFrom`   the main calls of a run, numbered without a gap
* `sizes_le`                  the calls of the rounds of a run
* `History.length_calls`      sixteen calls at most
* `callWithRetryParse_calls`  how many calls of each kind are made, and in which order
-/

namespace Moagan.Retry

open Attempts Cache Scanning WireBody

/-! ## kinds of calls -/

def Call.isMain : Call → Bool
  | .cached | .uncached _ => true
  | _ => false

def Call.isContinuation : Call → Bool
  | .continuation _ _ => true
  | _ => false

def Call.isRepair : Call → Bool
  | .repair _ => true
  | _ => false

theorem mainCall_isMain (attempt : ℕ) : (mainCall attempt).isMain = true := by
  unfold mainCall
  by_cases h : attempt = 0
  · rw [if_pos h]
    rfl
  · rw [if_neg h]
    rfl

theorem contCalls_isContinuation (idx : ℕ) (cs : List (Text × Answer)) :
    ∀ c ∈ contCalls idx cs, c.1.isContinuation = true := by
  induction cs generalizing idx with
  | nil => simp [contCalls]
  | cons c cs ih =>
    intro q hq
    rcases List.mem_cons.mp hq with rfl | hq
    · rfl
    · exact ih (idx + 1) q hq

/-- the calls of a round behind its main call -/
def Round.behind (r : Round) : List (Call × Answer) :=
  contCalls 0 r.conts ++ (r.prefill.map fun a => (Call.prefill, a)).toList

theorem Round.behind_kind (r : Round) :
    ∀ c ∈ r.behind, c.1.isMain = false ∧ c.1.isRepair = false := by
  intro c hc
  rcases List.mem_append.mp hc with hc | hc
  · have h := contCalls_isContinuation 0 r.conts c hc
    cases hk : c.1 <;> rw [hk] at h <;> first | exact ⟨rfl, rfl⟩ | cases h
  · cases hp : r.prefill with
    | none => rw [hp] at hc; cases hc
    | some a =>
      rw [hp] at hc
      rw [List.mem_singleton.mp hc]
      exact ⟨rfl, rfl⟩

theorem filter_isMain_callsFrom (attempt : ℕ) (rs : List Round) :
    ((callsFrom attempt rs).map (·.1)).filter Call.isMain
      = (List.range' attempt rs.length).map mainCall := by
  induction rs generalizing attempt with
  | nil => rfl
  | cons r rs ih =>
    have hb : (r.behind.map (·.1)).filter Call.isMain = [] := by
      refine List.filter_eq_nil_iff.mpr ?_
      intro c hc
      obtain ⟨q, hq, rfl⟩ := List.mem_map.mp hc
      rw [(r.behind_kind q hq).1]
      exact Bool.false_ne_true
    show (((mainCall attempt, r.main) :: (r.behind ++ callsFrom (attempt + 1) rs)).map
      (·.1)).filter Call.isMain = _
    rw [List.map_cons, List.filter_cons_of_pos (mainCall_isMain attempt), List.map_append,
      List.filter_append, hb, List.nil_append, ih]
    rfl

theorem callsFrom_isRepair (attempt : ℕ) (rs : List Round) :
    ∀ c ∈ callsFrom attempt rs, c.1.isRepair = false := by
  induction rs generalizing attempt with
  | nil => exact fun _ h => absurd h List.not_mem_nil
  | cons r rs ih =>
    intro c hc
    rcases List.mem_append.mp hc with hc | hc
    · rcases List.mem_cons.mp hc with rfl | hc
      · show (mainCall attempt).isRepair = false
        unfold mainCall
        by_cases h : attempt = 0
        · rw [if_pos h]
          rfl
        · rw [if_neg h]
          rfl
      · exact (r.behind_kind c hc).2
    · exact ih (attempt + 1) c hc

def Round.size (r : Round) : ℕ := 1 + r.conts.length + r.prefill.toList.length

theorem length_callsFrom (attempt : ℕ) (rs : List Round) :
    (callsFrom attempt rs).length = (rs.map Round.size).sum := by
  induction rs generalizing attempt with
  | nil => rfl
  | cons r rs ih =>
    have hr : (r.calls attempt).length = r.size := by
      cases hp : r.prefill <;> simp [Round.calls, Round.size, length_contCalls, hp] <;> omega
    rw [callsFrom, List.length_append, hr, ih, List.map_cons, List.sum_cons]

/-! ## the calls of a run -/

section
variable {σ V T : Type} (e : Env σ V T)

theorem Round.length_conts {r : Round} (h : r.Continued e) :
    r.conts.length ≤ maxContinuationAttempts (strategyFor e.model) := by
  unfold Round.Continued at h
  cases hm : r.main with
  | error err =>
    rw [hm] at h
    rw [h]
    exact Nat.zero_le _
  | ok response =>
    rw [hm] at h
    dsimp only at h
    by_cases hc : continued e response = true
    · rw [if_pos hc] at h
      exact h.length_le e
    · rw [if_neg hc] at h
      rw [h]
      exact Nat.zero_le _

/-- a round whose main call failed is that call alone -/
theorem Round.size_of_error {r : Round} {attempted : Bool} {err : Error} (h : r.main = .error err)
    (hc : r.Continued e) (hp : r.Prefilled e attempted) : r.size = 1 := by
  have hconts : r.conts = [] := by
    unfold Round.Continued at hc
    rw [h] at hc
    exact hc
  have hpre : r.prefill = none := by
    cases ha : r.prefill with
    | none => rfl
    | some a =>
      obtain ⟨-, -, response, err', hans, -⟩ := hp.mp (by rw [ha]; rfl)
      rw [Round.answer, h] at hans
      cases hans
  rw [Round.size, hconts, hpre]
  rfl

/-- a run makes one prefill call at most, and none for a model of another strategy -/
theorem prefills_le {attempted : Bool} {rs : List Round} (h : ValidFrom e attempted rs) :
    (rs.map fun r => r.prefill.toList.length).sum
      ≤ if strategyFor e.model = .promptPrefill ∧ attempted = false then 1 else 0 := by
  induction rs generalizing attempted with
  | nil => exact Nat.zero_le _
  | cons r rs ih =>
    obtain ⟨-, hp, hv⟩ := h
    have hrest := ih hv
    rw [List.map_cons, List.sum_cons]
    cases ha : r.prefill with
    | none =>
      rw [ha] at hrest
      simpa using hrest
    | some a =>
      obtain ⟨hs, hno, -⟩ := hp.mp (by rw [ha]; rfl)
      rw [ha] at hrest
      rw [if_pos ⟨hs, hno⟩]
      rw [if_neg (by simp)] at hrest
      show 1 + _ ≤ 1
      omega

theorem validFrom_continued {attempted : Bool} {rs : List Round} (h : ValidFrom e attempted rs) :
    ∀ r ∈ rs, r.Continued e := by
  induction rs generalizing attempted with
  | nil => exact fun _ hr => absurd hr List.not_mem_nil
  | cons q rs ih =>
    obtain ⟨hc, -, hv⟩ := h
    intro r hr
    rcases List.mem_cons.mp hr with rfl | hr
    · exact hc
    · exact ih hv r hr

/-- each round is three calls at most; or every round is one, and one more call is made -/
theorem sizes_le {attempted : Bool} {rs : List Round} (h : ValidFrom e attempted rs) :
    (rs.map Round.size).sum ≤ 3 * rs.length ∨ (rs.map Round.size).sum ≤ rs.length + 1 := by
  have hpre := prefills_le e h
  have hsum : ∀ m, (∀ r ∈ rs, r.conts.length ≤ m) → (rs.map Round.size).sum
      ≤ (1 + m) * rs.length + (rs.map fun r => r.prefill.toList.length).sum := by
    intro m hm
    clear h hpre
    induction rs with
    | nil => exact Nat.zero_le _
    | cons r rs ih =>
      have hr := hm r List.mem_cons_self
      have hrest := ih fun q hq => hm q (List.mem_cons_of_mem _ hq)
      rw [List.map_cons, List.sum_cons, List.map_cons, List.sum_cons, List.length_cons,
        Nat.mul_add_one, Round.size]
      omega
  have hconts := fun r hr => Round.length_conts e (validFrom_continued e h r hr)
  by_cases hc : strategyFor e.model = .continuation
  · rw [hc] at hconts hpre
    left
    have := hsum 2 hconts
    rw [if_neg (by simp)] at hpre
    omega
  · right
    have hzero : maxContinuationAttempts (strategyFor e.model) = 0 := by
      cases hs : strategyFor e.model with
      | continuation => exact absurd hs hc
      | _ => rfl
    rw [hzero] at hconts
    have := hsum 0 hconts
    have hle : (rs.map fun r => r.prefill.toList.length).sum ≤ 1 :=
      Nat.le_trans hpre (by split <;> omega)
    omega

theorem budgetFor_six {mode : Mode} {reason : RetryReason}
    (h : (budgetFor mode reason).maxAttempts = 6) : reason = .rateLimit := by
  revert h
  cases mode <;> cases reason <;> decide

variable {ceiling : UInt32} {rounds : List Round} {last : Round} {rep : Option (String × Answer)}
  {out : Except Error T × Trace σ}

theorem length_repairCalls (rep : Option (String × Answer)) :
    (repairCalls rep).length = if rep.isSome then 1 else 0 := by
  cases rep <;> rfl

/-- a repair call needs its budget and its mode, and a run without an attempt left -/
theorem Ends.of_repair {b : RetryBudget} {attempt : ℕ} {r : Round} {res : Except Error T}
    (h : Ends e ceiling b attempt r rep res) (hs : rep.isSome = true) :
    b.useJsonRepair = true ∧ jsonRepairV2EnabledForMode e = true ∧
      maxAttempts ceiling b ≤ attempt + 1 := by
  cases h with
  | repaired _ _ _ hl hj =>
    have := Bool.and_eq_true_iff.mp hj
    exact ⟨this.1, this.2, hl⟩
  | _ => cases hs

/-- a run of six rounds starts with a call that failed, and so its first round is that call -/
theorem History.first_size (h : History e ceiling rounds last rep out) {b : RetryBudget}
    (hb : firstBudget e (rounds ++ [last]) = some b) (h6 : b.maxAttempts = 6) {r : Round}
    {rs : List Round} (hr : rounds ++ [last] = r :: rs) : r.size = 1 := by
  rw [hr, firstBudget, Option.some.injEq] at hb
  rw [← hb] at h6
  have hreason := budgetFor_six h6
  have hv := h.valid
  rw [hr] at hv
  obtain ⟨hc, hp, -⟩ := hv
  cases hm : r.main with
  | error err => exact Round.size_of_error e hm hc hp
  | ok response =>
    -- an answer that was received fails as a parse or a schema failure
    rw [Round.answer, hm] at hreason
    unfold failureReason at hreason
    split at hreason
    · rename_i heq
      cases heq
    · split at hreason <;> cases hreason

theorem History.length_calls (h : History e ceiling rounds last rep out) :
    out.2.calls.length ≤ 16 := by
  obtain ⟨b, hb, hlt, hend⟩ := h.ends
  have hlen : (rounds ++ [last]).length = rounds.length + 1 := by simp
  have hsizes := sizes_le e h.valid
  have hb6 : b.maxAttempts ≤ 6 ∧ (b.useJsonRepair = true → b.maxAttempts = 5) := by
    cases hr : rounds ++ [last] with
    | nil => simp at hr
    | cons r rs =>
      rw [hr, firstBudget, Option.some.injEq] at hb
      rw [← hb]
      exact (budgetFor_attempts _ _).2
  have hk : rounds.length = 0 ∨ rounds.length + 1 ≤ b.maxAttempts := by
    by_cases h0 : rounds = []
    · exact Or.inl (by rw [h0]; rfl)
    · have := hlt h0
      unfold maxAttempts at this
      omega
  have hrep := fun hs => (hend.of_repair e hs).1
  rw [h.calls, List.length_append, length_callsFrom, length_repairCalls]
  by_cases h6 : b.maxAttempts = 6
  · -- the first round is one call, and there is no repair
    have hno : rep.isSome = false := by
      rw [← Bool.not_eq_true]
      intro hs
      have := hb6.2 (hrep hs)
      omega
    rw [hno, if_neg Bool.false_ne_true]
    obtain ⟨r, rs, hr⟩ : ∃ r rs, rounds ++ [last] = r :: rs := by
      cases hr : rounds ++ [last] with
      | nil => simp at hr
      | cons r rs => exact ⟨r, rs, rfl⟩
    have h1 := h.first_size e hb h6 hr
    have hv := h.valid
    rw [hr] at hv hlen ⊢
    have hrest := sizes_le e hv.2.2
    rw [List.length_cons] at hlen
    rw [List.map_cons, List.sum_cons, h1]
    omega
  · split
    · rename_i hs
      have := hb6.2 (hrep hs)
      omega
    · omega

/-- a provider that throttles the first call and cuts off every answer behind it -/
def cutOff : Env ℕ Unit Unit where
  model := "minimax-m3"
  mode := "deep"
  jsonRepairV2Enabled := false
  typeName := "()"
  ask := fun n _ =>
    (if n = 0 then .error (.throttled none "" none) else .ok ⟨"[", none, true, ⟨0, 0, 0, 0⟩, 200⟩,
      n + 1)
  fromStr := fun _ => .error ""
  traced := fun _ => .error ""
  validateJson := fun _ => .ok ()
  fromValue := fun _ => .ok ()
  continuationReport := fun _ => some ⟨"", false⟩
  repairedField := fun _ => none

example : (callWithRetryParse cutOff 5 6 0).map (·.2.calls.length) = some 16 := by rfl

theorem History.mains (h : History e ceiling rounds last rep out) :
    (out.2.calls.map (·.1)).filter Call.isMain
      = (List.range (rounds.length + 1)).map mainCall := by
  have hrep : ((repairCalls rep).map (·.1)).filter Call.isMain = [] := by
    cases rep <;> rfl
  rw [h.calls, List.map_append, List.filter_append, filter_isMain_callsFrom, hrep,
    List.append_nil, List.length_append, List.length_singleton, List.range_eq_range']

/-- a repair call comes last, and behind as many rounds as there may be -/
theorem History.repairs (h : History e ceiling rounds last rep out) (i : ℕ) (raw : String)
    (a : Answer) (hi : out.2.calls[i]? = some (.repair raw, a)) :
    i + 1 = out.2.calls.length ∧ jsonRepairV2EnabledForMode e = true ∧
      rounds.length + 1 = max 1 (min REPAIR_ATTEMPTS (ceiling + 1).toNat) := by
  obtain ⟨b, hb, hlt, hend⟩ := h.ends
  rw [h.calls] at hi ⊢
  by_cases hlen : i < (callsFrom 0 (rounds ++ [last])).length
  · rw [List.getElem?_append_left hlen] at hi
    have := callsFrom_isRepair 0 (rounds ++ [last]) _ (List.mem_of_getElem? hi)
    cases this
  · rw [List.getElem?_append_right (Nat.le_of_not_lt hlen)] at hi
    have hs : rep.isSome = true := by
      cases rep with
      | none => cases hi
      | some q => rfl
    obtain ⟨hj, henabled, hl⟩ := hend.of_repair e hs
    refine ⟨?_, henabled, ?_⟩
    · have hbound := (List.getElem?_eq_some_iff.mp hi).1
      rw [length_repairCalls, if_pos hs] at hbound
      rw [List.length_append, length_repairCalls, if_pos hs]
      omega
    · have h5 : b.maxAttempts = REPAIR_ATTEMPTS := by
        cases hr : rounds ++ [last] with
        | nil => simp at hr
        | cons r rs =>
          rw [hr, firstBudget, Option.some.injEq] at hb
          rw [← hb] at hj ⊢
          exact (budgetFor_attempts _ _).2.2 hj
      unfold maxAttempts at hl hlt
      rw [h5] at hl hlt
      by_cases h0 : rounds = []
      · rw [h0] at hl ⊢
        simp only [List.length_nil] at hl ⊢
        omega
      · have := hlt h0
        omega

/-- **How often the outside is asked.**  The main calls are numbered without a gap, from the one
through the cache on, and there are six at most; there are sixteen calls in all at most, and a
repair call is the last of them, behind as many main calls as the ceiling allows. -/
theorem callWithRetryParse_calls (fuel : ℕ) (world : σ) :
    ∃ out k, callWithRetryParse e ceiling (fuel + 6) world = some out ∧
      (out.2.calls.map (·.1)).filter Call.isMain = (List.range (k + 1)).map mainCall ∧ k < 6 ∧
      out.2.calls.length ≤ 16 ∧
      ∀ i raw a, out.2.calls[i]? = some (.repair raw, a) → i + 1 = out.2.calls.length ∧
        jsonRepairV2EnabledForMode e = true ∧
        k + 1 = max 1 (min REPAIR_ATTEMPTS (ceiling + 1).toNat) := by
  obtain ⟨out, rounds, last, rep, hout, h⟩ := callWithRetryParse_history e ceiling fuel world
  refine ⟨out, rounds.length, hout, h.mains e, ?_, h.length_calls e, h.repairs e⟩
  obtain ⟨b, hb, hlt, -⟩ := h.ends
  cases rounds with
  | nil => exact Nat.zero_lt_succ _
  | cons r rs =>
    rw [List.cons_append, firstBudget, Option.some.injEq] at hb
    have h6 := (budgetFor_attempts (parseModeStr e.mode) (failureReason e (r.answer e))).2.1
    have := hlt (List.cons_ne_nil r rs)
    unfold maxAttempts at this
    rw [← hb] at this
    omega

end

end Moagan.Retry
