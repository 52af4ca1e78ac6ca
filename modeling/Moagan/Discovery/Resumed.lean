import Moagan.Discovery.Sessions

/-!
# What the sessions of a fan-out leave behind

* `Moves`              what one step of a task does
* `Inv`                the invariant of all sessions over one run directory
* `step_inv`           every step keeps it
* `step_files`         a file that is there stays as it is
* `sessions_safe`      the files, the calls and the permits of every run of sessions
* `session_complete`   what is left when a session is over
-/

namespace Moagan.Discovery.Sessions

open Scanning Runs
open Retry (Error)

section
variable {F R : Type}

/-! ## one attempt -/

/-- the thesis belongs in the file of this point -/
structure Written (p : FanoutPoint F) (t : Thesis F R) : Prop where
  id : t.id = p.thesisId
  angle : t.content.angle = p.point.cell.dimensionId ++ ":" ++ p.point.cell.facetId
  provenance : t.provenance = some (provenanceOf p)
  claim : MIN_CLAIM_LEN ≤ claimLen t

theorem generateOnce_ok {p : FanoutPoint F} {k : ℕ} {parsed : Except Error (Thesis F R)}
    {t : Thesis F R} (h : generateOnce p k parsed = .ok t) : ∃ t₀, t = stamp p t₀ := by
  unfold generateOnce at h
  cases parsed with
  | error err => cases h
  | ok t₀ =>
    dsimp only at h
    cases hg : gateShortClaim t₀ k with
    | error err => rw [hg] at h; cases h
    | ok t₁ =>
      rw [hg, Except.ok.injEq] at h
      exact ⟨t₁, h.symm⟩

theorem classify_stamp (p : FanoutPoint F) (t : Thesis F R) :
    (∃ n, classify (.ok (stamp p t)) = .rejected n) ∨
      (classify (.ok (stamp p t)) = .accepted (stamp p t) ∧ Written p (stamp p t)) := by
  unfold classify
  dsimp only
  by_cases h : claimLen (stamp p t) < MIN_CLAIM_LEN
  · rw [if_pos h]
    exact Or.inl ⟨_, rfl⟩
  · rw [if_neg h]
    exact Or.inr ⟨rfl, rfl, rfl, rfl, Nat.le_of_not_lt h⟩

/-! ## one step of a task -/

variable (ps : List (FanoutPoint F)) (cap : ℕ)

/-- a task that has neither come back nor got lost -/
def Status.active : Status F R → Bool
  | .waiting | .queued | .running _ => true
  | _ => false

inductive Moves (s : State F R) (p : FanoutPoint F) :
    Status F R → JobEvent F R → Status F R → Option (Thesis F R) → Prop
  | passed {reason : String} : s.cancelled = false →
      Moves s p .waiting (.check reason) .queued none
  | stopped {reason : String} : s.cancelled = true →
      Moves s p .waiting (.check reason) (.returned (.failed (.cancelled reason))) none
  | entered : s.inUse ps < cap → Moves s p .queued .acquire (.running 0) none
  | answered {k : ℕ} {parsed : Except Error (Thesis F R)} :
      Moves s p (.running k) (.answer parsed) (afterAttempt k (generateOnce p k parsed)) none
  | lost {st : Status F R} : st.active = true → Moves s p st .lose .lost none
  | recorded {o : PointOutcome F R} {w : WriteEnd} : s.spawning = false →
      Moves s p (.returned o) (.record w) (.recorded (recordOutcome o w).1) (recordOutcome o w).2

theorem advance_moves {s : State F R} {p : FanoutPoint F} {st : Status F R} {ev : JobEvent F R}
    {next : Status F R × Option (Thesis F R)} (h : advance ps cap s p st ev = some next) :
    Moves ps cap s p st ev next.1 next.2 := by
  cases st with
  | waiting =>
    cases ev with
    | check reason =>
      rw [advance, Option.some.injEq] at h
      rw [← h]
      by_cases hc : s.cancelled = true
      · rw [if_pos hc]
        exact .stopped hc
      · rw [if_neg hc]
        exact .passed (by simpa using hc)
    | lose => cases h; exact .lost rfl
    | _ => cases h
  | queued =>
    cases ev with
    | acquire =>
      rw [advance] at h
      by_cases hc : s.inUse ps < cap
      · rw [if_pos hc, Option.some.injEq] at h
        rw [← h]
        exact .entered hc
      · rw [if_neg hc] at h
        cases h
    | lose => cases h; exact .lost rfl
    | _ => cases h
  | running k =>
    cases ev with
    | answer parsed => cases h; exact .answered
    | lose => cases h; exact .lost rfl
    | _ => cases h
  | returned o =>
    cases ev with
    | record w =>
      rw [advance] at h
      by_cases hs : s.spawning = true
      · rw [if_pos hs] at h
        cases h
      · rw [if_neg hs, Option.some.injEq] at h
        rw [← h]
        exact .recorded (by simpa using hs)
    | _ => cases h
  | recorded label => cases ev <;> cases h
  | lost => cases ev <;> cases h

/-! ## the invariant -/

/-- what the status of a task says about its point and the files -/
def StatusOk (files : String → Option (Thesis F R)) (p : FanoutPoint F) : Status F R → Prop
  | .waiting | .queued | .lost => files p.thesisId = none
  | .running k => k ≤ THESIS_RETRIES ∧ files p.thesisId = none
  | .returned (.accepted t) => Written p t ∧ files p.thesisId = none
  | .returned _ => files p.thesisId = none
  | .recorded .accepted => files p.thesisId ≠ none
  | .recorded .rejected => files p.thesisId = none
  | .recorded .error => True

structure Inv (s : State F R) : Prop where
  todo : ∀ p ∈ s.todo, p ∈ ps ∧ s.files p.thesisId = none ∧ s.job p.n = none
  nodup : (s.todo.map (·.n)).Nodup
  jobs : ∀ n j, s.job n = some j → j.point ∈ ps ∧ j.point.n = n ∧ StatusOk s.files j.point j.status
  files : ∀ id t, s.files id = some t → ∃ p ∈ ps, p.thesisId = id ∧ Written p t
  permits : s.inUse ps ≤ cap

theorem StatusOk.active {files : String → Option (Thesis F R)} {p : FanoutPoint F}
    {st : Status F R} (h : StatusOk files p st) (ha : st.active = true) :
    files p.thesisId = none := by
  cases st with
  | waiting => exact h
  | queued => exact h
  | running k => exact h.2
  | _ => cases ha

theorem StatusOk.returned {files : String → Option (Thesis F R)} {p : FanoutPoint F}
    {o : PointOutcome F R} (h : StatusOk files p (.returned o)) : files p.thesisId = none := by
  cases o with
  | accepted t => exact h.2
  | rejected n => exact h
  | failed err => exact h

/-- a file elsewhere does not matter -/
theorem StatusOk.congr {files files' : String → Option (Thesis F R)} {p : FanoutPoint F}
    {st : Status F R} (h : StatusOk files p st) (he : files' p.thesisId = files p.thesisId) :
    StatusOk files' p st := by
  cases st with
  | returned o =>
    cases o with
    | accepted t => exact ⟨h.1, he.trans h.2⟩
    | _ => exact he.trans h
  | recorded label =>
    cases label with
    | accepted => exact fun hn => h (he ▸ hn)
    | rejected => exact he.trans h
    | error => trivial
  | running k => exact ⟨h.1, he.trans h.2⟩
  | _ => exact he.trans h

theorem afterAttempt_ok {files : String → Option (Thesis F R)} {p : FanoutPoint F} {k : ℕ}
    (hf : files p.thesisId = none) (parsed : Except Error (Thesis F R)) :
    StatusOk files p (afterAttempt k (generateOnce p k parsed)) := by
  cases hg : generateOnce p k parsed with
  | error err =>
    rw [afterAttempt]
    by_cases hk : THESIS_RETRIES ≤ k
    · rw [if_pos hk]
      exact hf
    · rw [if_neg hk]
      exact ⟨by omega, hf⟩
  | ok t =>
    obtain ⟨t₀, rfl⟩ := generateOnce_ok hg
    rw [afterAttempt]
    obtain ⟨n, h⟩ | ⟨h, hw⟩ := classify_stamp p t₀
    · rw [h]
      exact hf
    · rw [h]
      exact ⟨hw, hf⟩

/-- behind a move: the status, and the thesis that is written -/
theorem Moves.ok {s : State F R} {p : FanoutPoint F} {st st' : Status F R} {ev : JobEvent F R}
    {out : Option (Thesis F R)} (h : Moves ps cap s p st ev st' out)
    (hs : StatusOk s.files p st) :
    StatusOk (save s.files p.thesisId out) p st' ∧
      (∀ t, out = some t → s.files p.thesisId = none ∧ Written p t) := by
  cases h with
  | passed hc => exact ⟨hs, fun t h => by cases h⟩
  | stopped hc => exact ⟨hs, fun t h => by cases h⟩
  | entered hc => exact ⟨⟨Nat.zero_le _, hs⟩, fun t h => by cases h⟩
  | answered => exact ⟨afterAttempt_ok hs.2 _, fun t h => by cases h⟩
  | lost ha => exact ⟨hs.active ha, fun t h => by cases h⟩
  | @recorded o w hsp =>
    cases o with
    | rejected n => exact ⟨hs, fun t h => by cases h⟩
    | failed err => exact ⟨trivial, fun t h => by cases h⟩
    | accepted t =>
      cases w with
      | written =>
        refine ⟨?_, fun t' h => by cases h; exact ⟨hs.2, hs.1⟩⟩
        show Function.update s.files p.thesisId (some t) p.thesisId ≠ none
        rw [Function.update_self]
        exact Option.some_ne_none t
      | failedBefore => exact ⟨trivial, fun t' h => by cases h⟩
      | failedAfter => exact ⟨trivial, fun t' h => by cases h; exact ⟨hs.2, hs.1⟩⟩

/-! ## permits -/

theorem countP_le_add {α : Type} {f g h : α → Bool} {l : List α}
    (hf : ∀ a ∈ l, f a = true → g a = true ∨ h a = true) :
    l.countP f ≤ l.countP g + l.countP h := by
  induction l with
  | nil => exact Nat.zero_le _
  | cons a l ih =>
    have ih := ih fun b hb => hf b (List.mem_cons_of_mem _ hb)
    have ha := hf a List.mem_cons_self
    rw [List.countP_cons, List.countP_cons, List.countP_cons]
    cases hfa : f a with
    | false => simp only [Bool.false_eq_true, if_false]; omega
    | true =>
      obtain hg | hh := ha hfa
      · simp only [hg, if_true]; omega
      · simp only [hh, if_true]; omega

theorem countP_n_le (hps : (ps.map (·.n)).Nodup) (n : ℕ) : ps.countP (fun q => q.n == n) ≤ 1 := by
  have h := List.nodup_iff_count_le_one.mp hps n
  rwa [List.count_eq_countP, List.countP_map] at h

/-- the state behind a step of a task -/
def State.put (s : State F R) (n : ℕ) (j : Job F R) (files : String → Option (Thesis F R)) :
    State F R :=
  { s with files := files, job := Function.update s.job n (some j) }

theorem put_job (s : State F R) (n : ℕ) (j : Job F R) (files : String → Option (Thesis F R))
    (k : ℕ) : (s.put n j files).job k = if k = n then some j else s.job k :=
  Function.update_apply ..

theorem running_put (s : State F R) (n : ℕ) (j : Job F R) (files : String → Option (Thesis F R))
    (q : FanoutPoint F) : (s.put n j files).running q
      = if q.n = n then j.status.isRunning else s.running q := by
  unfold State.running State.put
  by_cases h : q.n = n
  · rw [if_pos h, h]
    dsimp only
    rw [Function.update_self]
    rfl
  · rw [if_neg h]
    dsimp only
    rw [Function.update_of_ne h]

/-- a move takes a permit only where one is left -/
theorem Moves.permits (hps : (ps.map (·.n)).Nodup) {s : State F R} {n : ℕ} {p : FanoutPoint F}
    {st st' : Status F R} {ev : JobEvent F R} {out : Option (Thesis F R)}
    (h : Moves ps cap s p st ev st' out) (hj : s.job n = some ⟨p, st⟩)
    (files : String → Option (Thesis F R)) (hcap : s.inUse ps ≤ cap) :
    (s.put n ⟨p, st'⟩ files).inUse ps ≤ cap := by
  have hrun : ∀ q, q.n = n → s.running q = st.isRunning := by
    intro q hq
    unfold State.running
    rw [hq, hj]
    rfl
  -- who runs behind the move ran before, where the task does not start to
  have hsame : (st'.isRunning = true → st.isRunning = true) →
      (s.put n ⟨p, st'⟩ files).inUse ps ≤ cap := by
    intro hle
    refine Nat.le_trans (List.countP_mono_left ?_) hcap
    intro q _ hq
    rw [running_put] at hq
    by_cases hn : q.n = n
    · rw [if_pos hn] at hq
      rw [hrun q hn]
      exact hle hq
    · rwa [if_neg hn] at hq
  cases h with
  | passed _ => exact hsame fun h => by cases h
  | stopped _ => exact hsame fun h => by cases h
  | answered => exact hsame fun _ => rfl
  | lost _ => exact hsame fun h => by cases h
  | recorded _ => exact hsame fun h => by cases h
  | entered hlt =>
    have hadd : (s.put n ⟨p, .running 0⟩ files).inUse ps
        ≤ s.inUse ps + ps.countP (fun q => q.n == n) := by
      refine countP_le_add ?_
      intro q _ hq
      rw [running_put] at hq
      by_cases hn : q.n = n
      · exact Or.inr (by simpa using hn)
      · rw [if_neg hn] at hq
        exact Or.inl hq
    have := countP_n_le ps hps n
    omega

/-! ## steps -/

theorem step_job {s s' : State F R} {n : ℕ} {ev : JobEvent F R}
    (h : step ps cap s (.job n ev) = some s') :
    ∃ p st st' out, s.job n = some ⟨p, st⟩ ∧ Moves ps cap s p st ev st' out ∧
      s' = s.put n ⟨p, st'⟩ (save s.files p.thesisId out) := by
  rw [step] at h
  cases hj : s.job n with
  | none => rw [hj] at h; cases h
  | some j =>
    rw [hj] at h
    obtain ⟨next, hnext, rfl⟩ := Option.map_eq_some_iff.mp h
    exact ⟨j.point, j.status, next.1, next.2, rfl, advance_moves ps cap hnext, rfl⟩

theorem step_spawn {s s' : State F R} (h : step ps cap s .spawn = some s') :
    ∃ p rest, s.todo = p :: rest ∧ s.spawning = true ∧ s.cancelled = false ∧
      s' = { s with todo := rest, job := Function.update s.job p.n (some ⟨p, .waiting⟩) } := by
  rw [step] at h
  cases ht : s.todo with
  | nil => rw [ht] at h; cases h
  | cons p rest =>
    rw [ht] at h
    dsimp only at h
    by_cases hc : (s.spawning && !s.cancelled) = true
    · rw [if_pos hc, Option.some.injEq] at h
      rw [Bool.and_eq_true_iff, Bool.not_eq_true'] at hc
      exact ⟨p, rest, rfl, hc.1, hc.2, h.symm⟩
    · rw [if_neg hc] at h
      cases h

theorem eq_of_n (hps : (ps.map (·.n)).Nodup) {p q : FanoutPoint F} (hp : p ∈ ps) (hq : q ∈ ps)
    (h : p.n = q.n) : p = q := List.inj_on_of_nodup_map hps hp hq h

theorem save_of_ne (files : String → Option (Thesis F R)) {id id' : String}
    (out : Option (Thesis F R)) (h : id' ≠ id) : save files id out id' = files id' := by
  unfold save
  by_cases ho : out.isSome = true
  · rw [if_pos ho, Function.update_of_ne h]
  · rw [if_neg ho]

theorem start_inv (files : String → Option (Thesis F R)) (hps : (ps.map (·.n)).Nodup)
    (hf : ∀ id t, files id = some t → ∃ p ∈ ps, p.thesisId = id ∧ Written p t) :
    Inv ps cap (start ps files) where
  todo := by
    intro p hp
    obtain ⟨hmem, hnone⟩ := List.mem_filter.mp hp
    exact ⟨hmem, Option.isNone_iff_eq_none.mp hnone, rfl⟩
  nodup := (List.filter_sublist.map _).nodup hps
  jobs := fun n j h => by cases h
  files := hf
  permits := by
    have hzero : (start ps files).inUse ps = 0 :=
      List.countP_eq_zero.mpr fun q _ => Bool.false_ne_true
    rw [hzero]
    exact Nat.zero_le _

theorem step_inv (hps : (ps.map (·.n)).Nodup) {s s' : State F R} {e : Event F R}
    (hi : Inv ps cap s) (h : step ps cap s e = some s') : Inv ps cap s' := by
  cases e with
  | session =>
    rw [step, Option.some.injEq] at h
    rw [← h]
    exact start_inv ps cap s.files hps hi.files
  | spawn =>
    obtain ⟨p, rest, ht, -, -, rfl⟩ := step_spawn ps cap h
    have htodo := hi.todo
    have hnodup := hi.nodup
    rw [ht] at htodo hnodup
    obtain ⟨hp, hpf, hpj⟩ := htodo p List.mem_cons_self
    rw [List.map_cons, List.nodup_cons] at hnodup
    constructor
    · intro q hq
      obtain ⟨hm, hf, hj⟩ := htodo q (List.mem_cons_of_mem _ hq)
      have hne : q.n ≠ p.n := fun he => hnodup.1 (he ▸ List.mem_map_of_mem hq)
      exact ⟨hm, hf, by dsimp only; rw [Function.update_of_ne hne]; exact hj⟩
    · exact hnodup.2
    · intro n j hj
      dsimp only at hj ⊢
      by_cases hn : n = p.n
      · rw [hn, Function.update_self, Option.some.injEq] at hj
        rw [← hj, hn]
        exact ⟨hp, rfl, hpf⟩
      · rw [Function.update_of_ne hn] at hj
        exact hi.jobs n j hj
    · exact hi.files
    · refine Nat.le_trans (List.countP_mono_left ?_) hi.permits
      intro q _ hq
      have hput := running_put s p.n ⟨p, .waiting⟩ s.files q
      have hq' : (s.put p.n ⟨p, .waiting⟩ s.files).running q = true := hq
      rw [hput] at hq'
      by_cases hn : q.n = p.n
      · rw [if_pos hn] at hq'
        cases hq'
      · rwa [if_neg hn] at hq'
  | joinAll =>
    rw [step] at h
    split at h
    · rw [Option.some.injEq] at h
      rw [← h]
      exact ⟨hi.todo, hi.nodup, hi.jobs, hi.files, hi.permits⟩
    · cases h
  | cancel =>
    rw [step] at h
    split at h
    · cases h
    · rw [Option.some.injEq] at h
      rw [← h]
      exact ⟨hi.todo, hi.nodup, hi.jobs, hi.files, hi.permits⟩
  | job n ev =>
    obtain ⟨p, st, st', out, hj, hm, rfl⟩ := step_job ps cap h
    obtain ⟨hp, hpn, hst⟩ := hi.jobs n _ hj
    dsimp only at hp hpn hst
    obtain ⟨hst', hout⟩ := hm.ok ps cap hst
    -- the other points have other ids
    have hother : ∀ q ∈ ps, q.n ≠ n → save s.files p.thesisId out q.thesisId
        = s.files q.thesisId := by
      intro q _ hq
      exact save_of_ne _ _ fun he => hq ((thesisId_inj he).trans hpn)
    constructor
    · intro q hq
      obtain ⟨hm, hf, hqj⟩ := hi.todo q hq
      have hne : q.n ≠ n := fun he => by rw [he, hj] at hqj; cases hqj
      refine ⟨hm, (hother q hm hne).trans hf, ?_⟩
      show Function.update s.job n _ q.n = none
      rw [Function.update_of_ne hne]
      exact hqj
    · exact hi.nodup
    · intro k j hk
      rw [put_job] at hk
      by_cases hkn : k = n
      · rw [if_pos hkn, Option.some.injEq] at hk
        rw [← hk, hkn]
        exact ⟨hp, hpn, hst'⟩
      · rw [if_neg hkn] at hk
        obtain ⟨hq, hqn, hqs⟩ := hi.jobs k j hk
        exact ⟨hq, hqn, hqs.congr (hother j.point hq (by rw [hqn]; exact hkn))⟩
    · intro id t hid
      have hid' : save s.files p.thesisId out id = some t := hid
      by_cases he : id = p.thesisId ∧ out.isSome = true
      · rw [save, if_pos he.2, he.1, Function.update_self] at hid'
        exact ⟨p, hp, he.1.symm, (hout t hid').2⟩
      · have hsame : save s.files p.thesisId out id = s.files id := by
          by_cases hid : id = p.thesisId
          · rw [save, if_neg fun ho => he ⟨hid, ho⟩]
          · exact save_of_ne _ _ hid
        exact hi.files id t (hsame ▸ hid')
    · exact hm.permits ps cap hps hj _ hi.permits

/-- a file that is there stays as it is -/
theorem step_files {s s' : State F R} {e : Event F R} (hi : Inv ps cap s)
    (h : step ps cap s e = some s') {id : String} {t : Thesis F R} (hid : s.files id = some t) :
    s'.files id = some t := by
  cases e with
  | session => rw [step, Option.some.injEq] at h; rw [← h]; exact hid
  | spawn => obtain ⟨p, rest, -, -, -, rfl⟩ := step_spawn ps cap h; exact hid
  | joinAll =>
    rw [step] at h
    split at h
    · rw [Option.some.injEq] at h; rw [← h]; exact hid
    · cases h
  | cancel =>
    rw [step] at h
    split at h
    · cases h
    · rw [Option.some.injEq] at h; rw [← h]; exact hid
  | job n ev =>
    obtain ⟨p, st, st', out, hj, hm, rfl⟩ := step_job ps cap h
    obtain ⟨-, -, hst⟩ := hi.jobs n _ hj
    obtain ⟨-, hout⟩ := hm.ok ps cap hst
    show save s.files p.thesisId out id = some t
    cases out with
    | none => exact hid
    | some t' =>
      have hne : id ≠ p.thesisId := by
        rintro rfl
        rw [(hout t' rfl).1] at hid
        cases hid
      rw [save_of_ne _ _ hne]
      exact hid

/-! ## calls -/

def isCall (n : ℕ) : Event F R → Bool
  | .job k (.answer _) => k == n
  | _ => false

def isSession : Event F R → Bool
  | .session => true
  | _ => false

def Status.callsLeft : Status F R → ℕ
  | .waiting | .queued => THESIS_RETRIES + 1
  | .running k => THESIS_RETRIES + 1 - k
  | _ => 0

/-- the calls that a session may still make for a point -/
def State.callsLeft (s : State F R) (n : ℕ) : ℕ :=
  ((s.job n).map (·.status.callsLeft)).getD (THESIS_RETRIES + 1)

theorem callsLeft_le (s : State F R) (n : ℕ) : s.callsLeft n ≤ THESIS_RETRIES + 1 := by
  unfold State.callsLeft
  cases s.job n with
  | none => exact Nat.le_refl _
  | some j =>
    show j.status.callsLeft ≤ _
    cases j.status <;> simp [Status.callsLeft]

theorem afterAttempt_callsLeft {k : ℕ} (hk : k ≤ THESIS_RETRIES)
    (res : Except Error (Thesis F R)) :
    (afterAttempt k res).callsLeft + 1 ≤ THESIS_RETRIES + 1 - k := by
  cases res with
  | ok t =>
    show 0 + 1 ≤ _
    omega
  | error err =>
    rw [afterAttempt]
    by_cases hr : THESIS_RETRIES ≤ k
    · rw [if_pos hr]
      show 0 + 1 ≤ _
      omega
    · rw [if_neg hr]
      show THESIS_RETRIES + 1 - (k + 1) + 1 ≤ _
      omega

theorem Moves.callsLeft {s : State F R} {p : FanoutPoint F} {st st' : Status F R}
    {ev : JobEvent F R} {out : Option (Thesis F R)} (h : Moves ps cap s p st ev st' out)
    (hs : StatusOk s.files p st) (n : ℕ) :
    st'.callsLeft + (if isCall n (.job n ev : Event F R) then 1 else 0) ≤ st.callsLeft := by
  cases h with
  | passed _ => exact Nat.le_refl _
  | stopped _ => exact Nat.zero_le _
  | entered _ => exact Nat.le_refl _
  | lost _ => exact Nat.zero_le _
  | recorded _ => exact Nat.le_refl _
  | answered =>
    rw [if_pos (by simp [isCall])]
    exact afterAttempt_callsLeft hs.1 _

theorem step_callsLeft {s s' : State F R} {e : Event F R} (hi : Inv ps cap s)
    (he : isSession e = false) (h : step ps cap s e = some s') (n : ℕ) :
    s'.callsLeft n + (if isCall n e then 1 else 0) ≤ s.callsLeft n := by
  cases e with
  | session => cases he
  | spawn =>
    obtain ⟨p, rest, ht, -, -, rfl⟩ := step_spawn ps cap h
    have hp := (hi.todo p (by rw [ht]; exact List.mem_cons_self)).2.2
    show State.callsLeft _ n + 0 ≤ _
    unfold State.callsLeft
    dsimp only
    by_cases hn : n = p.n
    · rw [hn, Function.update_self, hp]
      exact Nat.le_refl _
    · rw [Function.update_of_ne hn]
      exact Nat.le_refl _
  | joinAll =>
    rw [step] at h
    split at h
    · rw [Option.some.injEq] at h; rw [← h]; exact Nat.le_refl _
    · cases h
  | cancel =>
    rw [step] at h
    split at h
    · cases h
    · rw [Option.some.injEq] at h; rw [← h]; exact Nat.le_refl _
  | job k ev =>
    obtain ⟨p, st, st', out, hj, hm, rfl⟩ := step_job ps cap h
    obtain ⟨-, -, hst⟩ := hi.jobs k _ hj
    unfold State.callsLeft
    rw [put_job]
    by_cases hn : n = k
    · rw [if_pos hn, hn, hj]
      exact hm.callsLeft ps cap hst k
    · have hno : isCall n (.job k ev : Event F R) = false := by
        cases ev with
        | answer parsed => exact beq_eq_false_iff_ne.mpr (Ne.symm hn)
        | _ => rfl
      rw [if_neg hn, hno, if_neg Bool.false_ne_true]
      exact Nat.le_refl _

/-! ## all sessions of a run directory -/

theorem mem_todo_file {s : State F R} (hi : Inv ps cap s) {n : ℕ}
    {parsed : Except Error (Thesis F R)} (h : (step ps cap s (.job n (.answer parsed))).isSome) :
    ∃ p ∈ ps, p.n = n ∧ s.files p.thesisId = none := by
  obtain ⟨s', hs⟩ := Option.isSome_iff_exists.mp h
  obtain ⟨p, st, st', out, hj, hm, -⟩ := step_job ps cap hs
  obtain ⟨hp, hn, hst⟩ := hi.jobs n _ hj
  cases hm with
  | answered => exact ⟨p, hp, hn, hst.2⟩

variable {m : ExplorationMatrix F} {r : Run F}

theorem points_nodup (m : ExplorationMatrix F) (r : Run F) : ((points m r).map (·.n)).Nodup := by
  unfold points
  rw [fanout_eq, number, List.map_map]
  have h : (fun x : FanoutPoint F => x.n) ∘ (fun x : Point F × ℕ => ⟨x.2, x.1⟩) = Prod.snd := rfl
  rw [h, List.zipIdx_map_snd]
  exact List.nodup_range'

/-- the states of the sessions over a run directory that has no theses yet -/
def fresh (m : ExplorationMatrix F) (r : Run F) : State F R := start (points m r) fun _ => none

theorem fresh_inv : Inv (points m r) cap (fresh m r : State F R) :=
  start_inv (points m r) cap _ (points_nodup m r) fun _ _ h => by cases h

theorem run_inv_of {es : List (Event F R)} {s s' : State F R} (hi : Inv (points m r) cap s)
    (h : run (step (points m r) cap) s es = some s') : Inv (points m r) cap s' :=
  run_inv (G := fun _ _ => True) (fun _ _ _ hi _ hs => step_inv _ cap (points_nodup m r) hi hs) es
    s s' hi (along_true es s) h

theorem run_files {es : List (Event F R)} {s s' : State F R} (hi : Inv (points m r) cap s)
    (h : run (step (points m r) cap) s es = some s') {id : String} {t : Thesis F R}
    (hid : s.files id = some t) : s'.files id = some t :=
  (run_inv (I := fun s => Inv (points m r) cap s ∧ s.files id = some t) (G := fun _ _ => True)
    (fun _ _ _ hi _ hs => ⟨step_inv _ cap (points_nodup m r) hi.1 hs, step_files _ cap hi.1 hs hi.2⟩)
    es s s' ⟨hi, hid⟩ (along_true es s) h).2

theorem run_calls {es : List (Event F R)} {s s' : State F R} (hi : Inv (points m r) cap s)
    (hes : ∀ e ∈ es, isSession e = false) (h : run (step (points m r) cap) s es = some s')
    (n : ℕ) : es.countP (isCall n) ≤ THESIS_RETRIES + 1 := by
  have hcount := run_count (I := Inv (points m r) cap) (G := fun _ e => isSession e = false)
    (c := isCall n) (w := fun s => s.callsLeft n)
    (fun s e s' hi he hs => ⟨step_inv _ cap (points_nodup m r) hi hs,
      step_callsLeft _ cap hi he hs n⟩) es s s' hi (along_of_events hes s) h
  have := callsLeft_le s n
  omega

/-- **Sessions over one run directory**, cancelled, killed and resumed in any way, with their tasks
in any order: every file holds the thesis of the point with its number, and stays as it is; no point
that has a file is asked for again, none more than three times in a session, and there are never
more calls on their way than permits. -/
theorem sessions_safe (es : List (Event F R)) (s : State F R)
    (h : run (step (points m r) cap) (fresh m r) es = some s) :
    (∀ id t, s.files id = some t → ∃ p ∈ points m r, p.thesisId = id ∧ Written p t) ∧
    (∀ front back t, es = front ++ back → run (step (points m r) cap) (fresh m r) front = some t →
      (∀ id thesis, t.files id = some thesis → s.files id = some thesis) ∧
      t.inUse (points m r) ≤ cap ∧
      ∀ n parsed, back.head? = some (.job n (.answer parsed)) →
        ∃ p ∈ points m r, p.n = n ∧ t.files p.thesisId = none) ∧
    ∀ front mid back, es = front ++ (mid ++ back) → (∀ e ∈ mid, isSession e = false) →
      ∀ n, mid.countP (isCall n) ≤ 3 := by
  refine ⟨(run_inv_of cap (fresh_inv cap) h).files, ?_, ?_⟩
  · rintro front back t rfl hfront
    have hi := run_inv_of cap (fresh_inv cap) hfront
    obtain ⟨t', ht', hback⟩ := run_front h
    obtain rfl := Option.some.inj (hfront.symm.trans ht')
    refine ⟨fun id thesis hid => run_files cap hi hback hid, hi.permits, ?_⟩
    intro n parsed hhead
    obtain ⟨rest, rfl⟩ := List.head?_eq_some_iff.mp hhead
    rw [run_cons] at hback
    obtain ⟨t₁, h1, -⟩ := Option.bind_eq_some_iff.mp hback
    exact mem_todo_file _ cap hi (Option.isSome_of_eq_some h1)
  · rintro front mid back rfl hmid n
    obtain ⟨t, ht, hrest⟩ := run_front h
    obtain ⟨t', ht', -⟩ := run_front hrest
    exact run_calls cap (run_inv_of cap (fresh_inv cap) ht) hmid ht' n

end

/-! ## a session that is killed behind its one file -/

def longDraft : Thesis ℕ Unit where
  id := ""
  content := ⟨"a statement of thirty bytes or more", "", ()⟩
  provenance := none

def shortDraft : Thesis ℕ Unit := { longDraft with content := ⟨"short", "", ()⟩ }

def killedBehindFile : List (Event ℕ Unit) :=
  [.spawn, .job 0 (.check ""), .job 0 .acquire, .job 0 (.answer (.ok shortDraft)), .joinAll,
    .job 0 (.answer (.ok longDraft)), .job 0 (.record .written), .session, .joinAll]

theorem sessions_safe_killed : ∃ s : State ℕ Unit,
    run (step (points sampleMatrix (sampleRun ["minimax"])) 1)
        (fresh sampleMatrix (sampleRun ["minimax"])) killedBehindFile = some s ∧
      (s.files "th_0000").isSome = true ∧
      ∀ id t, s.files id = some t → ∃ p ∈ points sampleMatrix (sampleRun ["minimax"]),
        p.thesisId = id ∧ Written p t := by
  have hfile : (run (step (points sampleMatrix (sampleRun ["minimax"])) 1)
      (fresh sampleMatrix (sampleRun ["minimax"])) killedBehindFile).map
        (fun s => (s.files "th_0000").isSome) = some true := by
    decide +kernel
  obtain ⟨s, hs, hsome⟩ := Option.map_eq_some_iff.mp hfile
  exact ⟨s, hs, hsome, (sessions_safe 1 killedBehindFile s hs).1⟩

end Moagan.Discovery.Sessions
