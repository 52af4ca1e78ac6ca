import Mathlib.Algebra.GroupWithZero.Nat
import Moagan.Discovery.Resumed

/-!
# How a session of the fan-out ends

* `Covered`           every point is still to be spawned, has a task, or has its file
* `session_complete`  what is left of a session that nobody cancelled
* `work`              the steps that a session has left at most
* `session_ends`      every session ends, in whichever order its tasks run
-/

namespace Moagan.Discovery.Sessions

open Runs
open Retry (Error)

section
variable {F R : Type} (ps : List (FanoutPoint F)) (cap : ℕ)

/-! ## nothing is forgotten -/

def Status.over : Status F R → Bool
  | .recorded _ | .lost => true
  | _ => false

/-- no task is left to be spawned or joined -/
def State.over (s : State F R) : Bool :=
  !s.spawning && ps.all fun p => ((s.job p.n).map (·.status.over)).getD true

theorem State.over_joining {s : State F R} (h : s.over ps = true) : s.spawning = false := by
  rw [State.over, Bool.and_eq_true_iff, Bool.not_eq_true'] at h
  exact h.1

theorem State.over_job {s : State F R} (h : s.over ps = true) {p : FanoutPoint F} (hp : p ∈ ps)
    {j : Job F R} (hj : s.job p.n = some j) : j.status.over = true := by
  rw [State.over, Bool.and_eq_true_iff] at h
  have hall := List.all_eq_true.mp h.2 p hp
  rw [hj] at hall
  exact hall

structure Covered (s : State F R) : Prop where
  points : ∀ p ∈ ps, p ∈ s.todo ∨ (∃ st, s.job p.n = some ⟨p, st⟩) ∨ s.files p.thesisId ≠ none
  joined : s.spawning = false → s.cancelled = false → s.todo = []

theorem start_covered (files : String → Option (Thesis F R)) : Covered ps (start ps files) where
  points := by
    intro p hp
    by_cases hf : files p.thesisId = none
    · exact Or.inl (List.mem_filter.mpr ⟨hp, Option.isNone_iff_eq_none.mpr hf⟩)
    · exact Or.inr (Or.inr hf)
  joined := fun h => by cases h

theorem step_covered (hps : (ps.map (·.n)).Nodup) {s s' : State F R} {e : Event F R}
    (hi : Inv ps cap s) (hc : Covered ps s) (h : step ps cap s e = some s') : Covered ps s' := by
  cases e with
  | session =>
    rw [step, Option.some.injEq] at h
    rw [← h]
    exact start_covered ps s.files
  | spawn =>
    obtain ⟨p, rest, ht, hsp, -, rfl⟩ := step_spawn ps cap h
    refine ⟨?_, fun hj => by rw [hsp] at hj; cases hj⟩
    intro q hq
    dsimp only
    by_cases hn : q.n = p.n
    · have hp := (hi.todo p (by rw [ht]; exact List.mem_cons_self)).1
      obtain rfl := eq_of_n ps hps hq hp hn
      exact Or.inr (Or.inl ⟨.waiting, Function.update_self ..⟩)
    · rw [Function.update_of_ne hn]
      obtain hmem | hrest := hc.points q hq
      · rw [ht] at hmem
        exact Or.inl ((List.mem_cons.mp hmem).resolve_left fun he => hn (he ▸ rfl))
      · exact Or.inr hrest
  | joinAll =>
    rw [step] at h
    split at h
    · rename_i hj
      rw [Option.some.injEq] at h
      rw [← h]
      refine ⟨hc.points, fun _ hcan => ?_⟩
      dsimp only at hcan ⊢
      rw [hcan, Bool.or_false, Bool.and_eq_true_iff] at hj
      exact List.isEmpty_iff.mp hj.2
    · cases h
  | cancel =>
    rw [step] at h
    split at h
    · cases h
    · rw [Option.some.injEq] at h
      rw [← h]
      exact ⟨hc.points, fun _ hcan => by cases hcan⟩
  | job n ev =>
    have hfiles := @step_files _ _ ps cap _ _ _ hi h
    obtain ⟨p, st, st', out, hj, hm, rfl⟩ := step_job ps cap h
    obtain ⟨hp, hpn, -⟩ := hi.jobs n _ hj
    refine ⟨?_, hc.joined⟩
    intro q hq
    obtain hmem | ⟨stq, hjob⟩ | hfile := hc.points q hq
    · exact Or.inl hmem
    · refine Or.inr (Or.inl ?_)
      rw [put_job]
      by_cases hn : q.n = n
      · obtain rfl := eq_of_n ps hps hq hp (hn.trans hpn.symm)
        exact ⟨st', if_pos hn⟩
      · exact ⟨stq, (if_neg hn).trans hjob⟩
    · refine Or.inr (Or.inr ?_)
      obtain ⟨t, ht⟩ := Option.ne_none_iff_exists'.mp hfile
      rw [hfiles ht]
      exact Option.some_ne_none t

/-! ## how long a session goes on -/

def Status.work : Status F R → ℕ
  | .waiting => 6
  | .queued => 5
  | .running k => 4 - k
  | .returned _ => 1
  | .recorded _ | .lost => 0

def State.workAt (s : State F R) (n : ℕ) : ℕ := ((s.job n).map (·.status.work)).getD 0

/-- the steps left, at most -/
def work (s : State F R) : ℕ :=
  (if s.spawning then 1 else 0) + (if s.cancelled then 0 else 1) + 7 * s.todo.length
    + (ps.map fun p => s.workAt p.n).sum

theorem sum_update (hps : (ps.map (·.n)).Nodup) {p : FanoutPoint F} (hp : p ∈ ps) (f : ℕ → ℕ)
    (a : ℕ) : (ps.map fun q => if q.n = p.n then a else f q.n).sum + f p.n
      = (ps.map fun q => f q.n).sum + a := by
  induction ps with
  | nil => cases hp
  | cons q ps ih =>
    rw [List.map_cons, List.nodup_cons] at hps
    rw [List.map_cons, List.sum_cons, List.map_cons, List.sum_cons]
    by_cases hn : q.n = p.n
    · -- no point behind this one has its number
      have hrest : (ps.map fun q => if q.n = p.n then a else f q.n) = ps.map fun q => f q.n := by
        refine List.map_congr_left ?_
        intro q' hq'
        have hne : q'.n ≠ p.n := by
          intro he
          exact hps.1 (List.mem_map.mpr ⟨q', hq', he.trans hn.symm⟩)
        exact if_neg hne
      rw [hrest, if_pos hn, hn]
      omega
    · have hmem : p ∈ ps := (List.mem_cons.mp hp).resolve_left fun he => hn (he ▸ rfl)
      have ih := ih hps.2 hmem
      rw [if_neg hn]
      omega

/-- the work behind a step of one task -/
theorem sum_workAt (hps : (ps.map (·.n)).Nodup) {p : FanoutPoint F} (hp : p ∈ ps) (s s' : State F R)
    (st : Status F R) (h : ∀ n, s'.job n = if n = p.n then some ⟨p, st⟩ else s.job n) :
    (ps.map fun q => s'.workAt q.n).sum + s.workAt p.n
      = (ps.map fun q => s.workAt q.n).sum + st.work := by
  rw [← sum_update ps hps hp s.workAt st.work]
  congr 2
  refine List.map_congr_left ?_
  intro q _
  unfold State.workAt
  rw [h]
  by_cases hn : q.n = p.n
  · rw [if_pos hn, if_pos hn]
    rfl
  · rw [if_neg hn, if_neg hn]

theorem Moves.work {s : State F R} {p : FanoutPoint F} {st st' : Status F R} {ev : JobEvent F R}
    {out : Option (Thesis F R)} (h : Moves ps cap s p st ev st' out)
    (hs : StatusOk s.files p st) : st'.work < st.work := by
  cases h with
  | passed _ => exact (by decide : 5 < 6)
  | stopped _ => exact (by decide : 1 < 6)
  | entered _ => exact (by decide : 4 < 5)
  | recorded _ => exact Nat.zero_lt_one
  | @lost st ha =>
    cases st with
    | waiting => exact (by decide : 0 < 6)
    | queued => exact (by decide : 0 < 5)
    | running k =>
      have hk : k ≤ 2 := hs.1
      show 0 < 4 - k
      omega
    | _ => cases ha
  | @answered k parsed =>
    have hk : k ≤ 2 := hs.1
    show (afterAttempt k (generateOnce p k parsed)).work < 4 - k
    cases generateOnce p k parsed with
    | ok t =>
      show 1 < 4 - k
      omega
    | error err =>
      rw [afterAttempt]
      by_cases hr : THESIS_RETRIES ≤ k
      · rw [if_pos hr]
        show 1 < 4 - k
        omega
      · rw [if_neg hr]
        show 4 - (k + 1) < 4 - k
        omega

theorem step_work (hps : (ps.map (·.n)).Nodup) {s s' : State F R} {e : Event F R}
    (hi : Inv ps cap s) (he : isSession e = false) (h : step ps cap s e = some s') :
    work ps s' < work ps s := by
  cases e with
  | session => cases he
  | spawn =>
    obtain ⟨p, rest, ht, -, -, rfl⟩ := step_spawn ps cap h
    obtain ⟨hp, -, hpj⟩ := hi.todo p (by rw [ht]; exact List.mem_cons_self)
    have hsum := sum_workAt ps hps hp s
      { s with todo := rest, job := Function.update s.job p.n (some ⟨p, .waiting⟩) } .waiting
      fun n => Function.update_apply ..
    have h0 : s.workAt p.n = 0 := by
      rw [State.workAt, hpj]
      rfl
    have h6 : (Status.waiting : Status F R).work = 6 := rfl
    unfold work
    dsimp only at hsum ⊢
    rw [ht, List.length_cons]
    omega
  | joinAll =>
    rw [step] at h
    split at h
    · rename_i hj
      rw [Bool.and_eq_true_iff] at hj
      rw [Option.some.injEq] at h
      rw [← h]
      unfold work
      dsimp only
      rw [hj.1, if_pos rfl, if_neg Bool.false_ne_true]
      show 0 + _ + _ + (ps.map fun p => s.workAt p.n).sum < _
      omega
    · cases h
  | cancel =>
    rw [step] at h
    split at h
    · cases h
    · rename_i hc
      rw [Option.some.injEq] at h
      rw [← h]
      unfold work
      dsimp only
      rw [if_pos rfl, if_neg hc]
      show _ + 0 + _ + (ps.map fun p => s.workAt p.n).sum < _
      omega
  | job n ev =>
    obtain ⟨p, st, st', out, hj, hm, rfl⟩ := step_job ps cap h
    obtain ⟨hp, hpn, hst⟩ := hi.jobs n _ hj
    have hp : p ∈ ps := hp
    have hpn : p.n = n := hpn
    have hlt := hm.work ps cap hst
    have hsum := sum_workAt ps hps hp s (s.put n ⟨p, st'⟩ (save s.files p.thesisId out)) st'
      fun k => by rw [put_job, hpn]
    have hat : s.workAt p.n = st.work := by
      rw [State.workAt, hpn, hj]
      rfl
    unfold work
    show (if s.spawning then 1 else 0) + (if s.cancelled then 0 else 1) + 7 * s.todo.length
      + _ < _
    omega

/-- a session that is not over can go on, without a new cancellation -/
theorem exists_step (hcap : 0 < cap) {s : State F R} (h : s.over ps = false) :
    ∃ e, isSession e = false ∧ e ≠ .cancel ∧ (step ps cap s e).isSome = true := by
  by_cases hsp : s.spawning = true
  · by_cases hj : (s.todo.isEmpty || s.cancelled) = true
    · refine ⟨.joinAll, rfl, by simp, ?_⟩
      rw [step, hsp, hj]
      rfl
    · refine ⟨.spawn, rfl, by simp, ?_⟩
      rw [Bool.or_eq_true_iff, not_or] at hj
      cases ht : s.todo with
      | nil => exact absurd (by rw [ht]; rfl) hj.1
      | cons p rest =>
        have hc : s.cancelled = false := by simpa using hj.2
        rw [step, ht]
        dsimp only
        rw [hsp, hc]
        rfl
  · have hsp : s.spawning = false := by simpa using hsp
    -- a task that is not over
    obtain ⟨n, j, hj, hover⟩ : ∃ n j, s.job n = some j ∧ j.status.over = false := by
      rw [State.over, hsp, Bool.not_false, Bool.true_and, List.all_eq_false] at h
      obtain ⟨p, -, hp⟩ := h
      cases hj : s.job p.n with
      | none => rw [hj] at hp; exact absurd rfl hp
      | some j =>
        rw [hj] at hp
        exact ⟨p.n, j, hj, by simpa using hp⟩
    have hstep : ∀ k i ev, s.job k = some i → (advance ps cap s i.point i.status ev).isSome = true →
        ∃ e, isSession e = false ∧ e ≠ .cancel ∧ (step ps cap s e).isSome = true := by
      intro k i ev hk ha
      refine ⟨.job k ev, rfl, by simp, ?_⟩
      rw [step, hk]
      dsimp only
      rw [Option.isSome_map]
      exact ha
    cases hst : j.status with
    | waiting => exact hstep n j (.check "") hj (by rw [hst]; rfl)
    | running k => exact hstep n j (.answer (.error .cancel)) hj (by rw [hst]; rfl)
    | returned o =>
      refine hstep n j (.record .written) hj ?_
      rw [hst, advance, hsp]
      rfl
    | recorded label => rw [hst] at hover; cases hover
    | lost => rw [hst] at hover; cases hover
    | queued =>
      by_cases hlt : s.inUse ps < cap
      · refine hstep n j .acquire hj ?_
        rw [hst, advance, if_pos hlt]
        rfl
      · -- every permit is held by a call on its way
        have hpos : 0 < s.inUse ps := by omega
        obtain ⟨q, -, hq⟩ := List.countP_pos_iff.mp hpos
        unfold State.running at hq
        cases hjq : s.job q.n with
        | none => rw [hjq] at hq; cases hq
        | some i =>
          rw [hjq] at hq
          cases hsi : i.status with
          | running k => exact hstep q.n i (.answer (.error .cancel)) hjq (by rw [hsi]; rfl)
          | _ =>
            have hq' : i.status.isRunning = true := hq
            rw [hsi] at hq'
            cases hq'

/-! ## sessions of a run directory -/

variable {m : ExplorationMatrix F} {r : Run F}

theorem run_covered {es : List (Event F R)} {s s' : State F R} (hi : Inv (points m r) cap s)
    (hc : Covered (points m r) s) (h : run (step (points m r) cap) s es = some s') :
    Covered (points m r) s' :=
  (run_inv (I := fun s => Inv (points m r) cap s ∧ Covered (points m r) s)
    (G := fun _ _ => True)
    (fun _ _ _ hi _ hs => ⟨step_inv _ cap (points_nodup m r) hi.1 hs,
      step_covered _ cap (points_nodup m r) hi.1 hi.2 hs⟩)
    es s s' ⟨hi, hc⟩ (along_true es s) h).2

/-- **What is left of a session that nobody cancelled**: a point without a file has been tried, and
was rejected, failed or got lost; an accepted one has its file; and the next session starts with
every point that was rejected or lost. -/
theorem session_complete (es : List (Event F R)) (s : State F R)
    (h : run (step (points m r) cap) (fresh m r) es = some s)
    (hover : s.over (points m r) = true) (hc : s.cancelled = false) (p : FanoutPoint F) (hp : p ∈ points m r) :
    (s.files p.thesisId = none → ∃ st, s.job p.n = some ⟨p, st⟩ ∧
      (st = .recorded .rejected ∨ st = .recorded .error ∨ st = .lost)) ∧
    (s.job p.n = some ⟨p, .recorded .accepted⟩ → s.files p.thesisId ≠ none) ∧
    (s.job p.n = some ⟨p, .recorded .rejected⟩ ∨ s.job p.n = some ⟨p, .lost⟩ →
      p ∈ (start (points m r) s.files).todo) := by
  have hi := run_inv_of cap (fresh_inv cap) h
  have hcov := run_covered cap (fresh_inv cap) (start_covered _ _) h
  refine ⟨?_, ?_, ?_⟩
  · intro hnone
    obtain hmem | ⟨st, hj⟩ | hfile := hcov.points p hp
    · rw [hcov.joined (State.over_joining _ hover) hc] at hmem
      cases hmem
    · refine ⟨st, hj, ?_⟩
      have ho := State.over_job _ hover hp hj
      have hok := (hi.jobs p.n _ hj).2.2
      cases st with
      | recorded label =>
        cases label with
        | accepted => exact absurd hnone hok
        | rejected => exact Or.inl rfl
        | error => exact Or.inr (Or.inl rfl)
      | lost => exact Or.inr (Or.inr rfl)
      | _ => cases ho
    · exact absurd hnone hfile
  · intro hj
    exact (hi.jobs p.n _ hj).2.2
  · intro hj
    refine List.mem_filter.mpr ⟨hp, Option.isNone_iff_eq_none.mpr ?_⟩
    obtain hj | hj := hj
    · exact (hi.jobs p.n _ hj).2.2
    · exact (hi.jobs p.n _ hj).2.2

theorem work_start (files : String → Option (Thesis F R)) :
    work ps (start ps files) ≤ 7 * ps.length + 2 := by
  have hsum : (ps.map fun p => (start ps files).workAt p.n).sum = 0 :=
    List.sum_eq_zero fun x hx => by
      obtain ⟨p, -, rfl⟩ := List.mem_map.mp hx
      rfl
  have hlen : (start ps files).todo.length ≤ ps.length := List.length_filter_le _ _
  have hone : (if (start ps files).spawning then 1 else 0) + (if (start ps files).cancelled
      then 0 else 1) = 2 := rfl
  unfold work
  omega

/-- **Every session ends.**  However its tasks run and whatever the calls bring, a session over `N`
points makes at most `7 * N + 2` steps, and while it is not over it can make one. -/
theorem session_ends (hcap : 0 < cap) (front : List (Event F R)) (t : State F R)
    (ht : run (step (points m r) cap) (fresh m r) front = some t) (es : List (Event F R))
    (hes : ∀ e ∈ es, isSession e = false) (s : State F R)
    (h : run (step (points m r) cap) (start (points m r) t.files) es = some s) :
    es.length ≤ 7 * (points m r).length + 2 ∧
      (s.over (points m r) = true ∨ ∃ e, isSession e = false ∧ e ≠ .cancel ∧
        (step (points m r) cap s e).isSome = true) := by
  have hi : Inv (points m r) cap (start (points m r) t.files) :=
    start_inv _ cap _ (points_nodup m r) (run_inv_of cap (fresh_inv cap) ht).files
  refine ⟨?_, ?_⟩
  · have hcount := run_count (I := Inv (points m r) cap) (G := fun _ e => isSession e = false)
      (c := fun _ => true) (w := work (points m r))
      (fun s e s' hi he hs => ⟨step_inv _ cap (points_nodup m r) hi hs,
        step_work _ cap (points_nodup m r) hi he hs⟩) es _ s hi (along_of_events hes _) h
    have hstart := work_start (points m r) t.files
    rw [List.countP_true] at hcount
    omega
  · cases hover : s.over (points m r) with
    | true => exact Or.inl rfl
    | false => exact Or.inr (exists_step _ cap hcap hover)

end

/-! ## a session whose one thesis stays too short -/

def shortAnswer : Event ℕ Unit := .job 0 (.answer (.ok shortDraft))

def rejectedOnce : List (Event ℕ Unit) :=
  [.spawn, .joinAll, .job 0 (.check ""), .job 0 .acquire, shortAnswer, shortAnswer, shortAnswer,
    .job 0 (.record .written)]

theorem rejectedOnce_run : ∃ s, run (step (points sampleMatrix (sampleRun ["minimax"])) 1)
      (fresh sampleMatrix (sampleRun ["minimax"])) rejectedOnce = some s ∧
    s.over (points sampleMatrix (sampleRun ["minimax"])) = true ∧ s.cancelled = false ∧
      (s.files "th_0000").isNone = true := by
  have h : (run (step (points sampleMatrix (sampleRun ["minimax"])) 1)
      (fresh sampleMatrix (sampleRun ["minimax"])) rejectedOnce).map (fun s =>
        (s.over (points sampleMatrix (sampleRun ["minimax"])), s.cancelled,
          (s.files "th_0000").isNone)) = some (true, false, true) := by
    decide +kernel
  obtain ⟨s, hs, heq⟩ := Option.map_eq_some_iff.mp h
  rw [Prod.mk.injEq, Prod.mk.injEq] at heq
  exact ⟨s, hs, heq⟩

def onePoint : FanoutPoint ℕ :=
  ⟨0, toLex ("minimax", "MiniMax-M3"), ⟨"dim-00", "f1", "Dimension 0 / F1"⟩, 1, 0, 0⟩

theorem session_complete_rejected : ∃ (s : State ℕ Unit) (st : Status ℕ Unit),
    s.job onePoint.n = some ⟨onePoint, st⟩ ∧
      (st = .recorded .rejected ∨ st = .recorded .error ∨ st = .lost) := by
  obtain ⟨s, hs, hover, hc, hfile⟩ := rejectedOnce_run
  obtain ⟨st, hst⟩ := (session_complete 1 rejectedOnce s hs hover hc onePoint
    (by decide +kernel)).1 (Option.isNone_iff_eq_none.mp hfile)
  exact ⟨s, st, hst⟩

theorem session_ends_rejected : ∃ s, run (step (points sampleMatrix (sampleRun ["minimax"])) 1)
      (fresh sampleMatrix (sampleRun ["minimax"])) rejectedOnce = some s ∧
    rejectedOnce.length ≤ 7 * (points sampleMatrix (sampleRun ["minimax"])).length + 2 := by
  obtain ⟨s, hs, -⟩ := rejectedOnce_run
  exact ⟨s, hs, (session_ends 1 (by decide) [] _ rfl rejectedOnce
    (by intro e he; revert e; decide) s hs).1⟩

end Moagan.Discovery.Sessions
