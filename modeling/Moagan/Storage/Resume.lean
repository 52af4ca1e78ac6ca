import Mathlib.Algebra.Group.Nat.Defs
import Mathlib.Data.Int.Basic
import Mathlib.Data.List.Nodup
import Moagan.Lib.Runs

/-!
# Continuing an interrupted run (`src/phases/pipe.rs`, `src/storage/sqlite.rs`)

* `canonicalPhaseOrderFor`, `resumeWithKind`   the pipeline kinds, and what is kept of a pipeline
* `recordPhase`, `lastCompletedPhase`   the `phases` table, and the phase a run is continued after
* `step`                  sessions over one table: phases start, end and fail, sessions are cut off
                          and continued
* `continue_remainder`    every session runs the remainder iff the phases that `lastCompletedPhase`
                          has no place for end in a second of their own
* `adversary_runs_again`  else a completed phase is run again
-/

namespace Moagan.Resume

/-! ## pipelines -/

inductive PipelineKind where
  | linear
  | discovery
deriving DecidableEq, Repr

def canonicalPhaseOrderFor : PipelineKind → List String
  | .linear => ["intake", "clarify", "route", "decompose", "thesis", "propose", "validate",
      "cluster_proposals", "synthesize", "gate", "critique", "repair", "judge", "adversary", "rank",
      "deliver"]
  | .discovery => ["intake", "discover_dimensions", "discover_theses", "discover_curate",
      "discover_render"]

/-- the phases by their names -/
structure Pipeline where
  phases : List String
  resumeFrom : Option String
deriving DecidableEq, Repr

inductive ResumeError where
  /-- `unknown phase … in … resume` -/
  | unknownPhase (lastPhase : String) (kind : PipelineKind)
deriving DecidableEq, Repr

def usizeMax : ℕ := 2 ^ 64 - 1

def phaseIndexFor (kind : PipelineKind) (name : String) : Option ℕ :=
  (canonicalPhaseOrderFor kind).idxOf? name

/-- a phase that is not in the canonical list gets `usize::MAX` -/
def canonicalIndex (kind : PipelineKind) (name : String) : ℕ :=
  ((canonicalPhaseOrderFor kind).idxOf? name).getD usizeMax

def canonicalIndexFor (pipeline : Pipeline) (kind : PipelineKind) : List (String × ℕ) :=
  pipeline.phases.map fun name => (name, canonicalIndex kind name)

def resumeWithKind (canonical : Pipeline) (lastPhase : String) (kind : PipelineKind) :
    Except ResumeError Pipeline :=
  match phaseIndexFor kind lastPhase with
  | none => .error (.unknownPhase lastPhase kind)
  | some cutoff => .ok {
      phases := canonical.phases.filter fun p =>
        ((canonicalIndexFor canonical kind).lookup p).any (cutoff < ·)
      resumeFrom := some lastPhase }

theorem order_known (kind : PipelineKind) : ∀ name ∈ canonicalPhaseOrderFor kind,
    phaseIndexFor kind name = some (canonicalIndex kind name) := by
  cases kind <;> decide +kernel

theorem order_index (kind : PipelineKind) : (canonicalPhaseOrderFor kind).Pairwise
    fun a b => canonicalIndex kind a < canonicalIndex kind b := by
  cases kind <;> decide +kernel

/-- what is above `x` in a list in ascending order -/
theorem filter_above {α : Type*} (f : α → ℕ) {front rest : List α} {x : α}
    (h : (front ++ x :: rest).Pairwise fun a b => f a < f b) :
    (front ++ x :: rest).filter (fun a => decide (f x < f a)) = rest := by
  obtain ⟨-, hx, hfront⟩ := List.pairwise_append.mp h
  have hnone : front.filter (fun a => decide (f x < f a)) = [] := by
    rw [List.filter_eq_nil_iff]
    intro a ha
    have := hfront a ha x List.mem_cons_self
    simp only [decide_eq_true_eq]
    omega
  have hall : rest.filter (fun a => decide (f x < f a)) = rest := by
    rw [List.filter_eq_self]
    intro a ha
    exact decide_eq_true ((List.pairwise_cons.mp hx).1 a ha)
  rw [List.filter_append, hnone, List.nil_append, List.filter_cons_of_neg (by simp), hall]

section
variable {kind : PipelineKind} {pipeline : List String}
  (hsub : pipeline.Sublist (canonicalPhaseOrderFor kind))

include hsub

theorem pipeline_nodup : pipeline.Nodup :=
  ((order_index kind).sublist hsub).imp fun h heq => by
    rw [heq] at h
    exact lt_irrefl _ h

/-- a pipeline is resumed with what follows -/
theorem resume_rest {front rest : List String} {p : String} (hp : pipeline = front ++ p :: rest) :
    resumeWithKind ⟨pipeline, none⟩ p kind = .ok ⟨rest, some p⟩ := by
  have hmem : p ∈ pipeline := hp ▸ List.mem_append_right _ List.mem_cons_self
  have hkept : pipeline.filter (fun q => ((canonicalIndexFor ⟨pipeline, none⟩ kind).lookup q).any
      fun i => decide (canonicalIndex kind p < i)) = rest := by
    have hindex := (order_index kind).sublist hsub
    calc pipeline.filter (fun q => ((canonicalIndexFor ⟨pipeline, none⟩ kind).lookup q).any
          fun i => decide (canonicalIndex kind p < i))
        = pipeline.filter fun q => decide (canonicalIndex kind p < canonicalIndex kind q) := by
          refine List.filter_congr fun q hq => ?_
          rw [canonicalIndexFor, List.lookup_graph _ hq, Option.any_some]
      _ = rest := by
          rw [hp] at hindex ⊢
          exact filter_above _ hindex
  rw [resumeWithKind, order_known kind p (hsub.subset hmem)]
  dsimp only
  rw [hkept]

end

/-! ## the table -/

inductive Status where
  | started
  | ended
  | error
deriving DecidableEq, Repr

/-- a row of `phases` for one run; the key is `(phase, seq)` -/
structure PhaseRow where
  phase : String
  seq : ℕ
  status : Status
  startedUnix : ℕ
  endedUnix : ℕ
  error : Option String
deriving DecidableEq, Repr

/-- `INSERT OR REPLACE` -/
def recordPhase (rows : List PhaseRow) (phase : String) (seq : ℕ) (status : Status)
    (error : Option String) (now : ℕ) : List PhaseRow :=
  rows.filter (fun r => !(r.phase == phase && r.seq == seq)) ++ [⟨phase, seq, status, now, now, error⟩]

/-- `CASE phase WHEN … ELSE -1 END` -/
def phaseRank : String → ℤ
  | "intake" => 0
  | "clarify" => 1
  | "route" => 2
  | "decompose" => 3
  | "thesis" => 4
  | "propose" => 5
  | "validate" => 6
  | "cluster_proposals" => 7
  | "synthesize" => 8
  | "gate" => 9
  | "critique" => 10
  | "repair" => 11
  | "judge" => 12
  | "rank" => 13
  | "deliver" => 14
  | _ => -1

/-- strictly first under `ORDER BY started_unix DESC, CASE … END DESC`: later in time, and of those
of one second the one of the higher rank -/
def After (phase : String) (time : ℕ) (phase' : String) (time' : ℕ) : Prop :=
  time' < time ∨ time' = time ∧ phaseRank phase' < phaseRank phase

instance (phase : String) (time : ℕ) (phase' : String) (time' : ℕ) :
    Decidable (After phase time phase' time') :=
  inferInstanceAs (Decidable (_ ∨ _))

/-- the phases that `LIMIT 1` can leave: the order of equal rows is open, and without a row there is
no phase -/
def lastCompletedPhase (rows : List PhaseRow) : List String :=
  let completed := rows.filter (·.status = .ended)
  (completed.filter fun r => completed.all fun q =>
    !decide (After q.phase q.startedUnix r.phase r.startedUnix)).map (·.phase)

theorem rank_ge (phase : String) : -1 ≤ phaseRank phase := by
  unfold phaseRank
  split <;> decide

/-- the ranks rise along the canonical order, but for the phases without a place -/
theorem order_rank (kind : PipelineKind) : (canonicalPhaseOrderFor kind).Pairwise
    fun a b => phaseRank b ≠ -1 → phaseRank a < phaseRank b := by
  cases kind <;> decide +kernel

theorem mem_lastCompletedPhase {rows : List PhaseRow} {name : String} :
    name ∈ lastCompletedPhase rows ↔ ∃ r ∈ rows, r.status = .ended ∧ r.phase = name ∧
      ∀ q ∈ rows, q.status = .ended → ¬ After q.phase q.startedUnix r.phase r.startedUnix := by
  simp only [lastCompletedPhase, List.mem_map, List.mem_filter, List.all_eq_true, decide_eq_true_eq,
    Bool.not_eq_true', decide_eq_false_iff_not]
  constructor
  · rintro ⟨r, ⟨⟨hr, hended⟩, hfirst⟩, rfl⟩
    exact ⟨r, hr, hended, rfl, fun q hq hqe => hfirst q ⟨hq, hqe⟩⟩
  · rintro ⟨r, hr, hended, rfl, hfirst⟩
    exact ⟨r, ⟨⟨hr, hended⟩, fun q hq => hfirst q hq.1 hq.2⟩, rfl⟩

/-! ## sessions -/

/-- an `end` that was recorded -/
structure Completed where
  phase : String
  time : ℕ
deriving DecidableEq, Repr

/-- `run_phases`: the phases that are left, the number of the first of them, and whether it runs -/
structure Session where
  left : List String
  seq : ℕ
  running : Bool
deriving DecidableEq, Repr

/-- one run; `completed` is what its sessions completed, in this order -/
structure Sys where
  rows : List PhaseRow
  session : Option Session
  clock : ℕ
  completed : List Completed
deriving DecidableEq, Repr

def init (pipeline : List String) : Sys := ⟨[], some ⟨pipeline, 0, false⟩, 0, []⟩

inductive Event where
  /-- the first phase that is left starts, at `now` -/
  | start (now : ℕ)
  | finish (now : ℕ)
  /-- the phase fails, and with it the session -/
  | fail (now : ℕ) (error : String)
  /-- the session ends, with all its phases or without -/
  | interrupt
  /-- `continue`, where `lastCompletedPhase` answers `last` -/
  | resume (last : String)
deriving DecidableEq, Repr

section
variable (kind : PipelineKind) (pipeline : List String)

def step (s : Sys) : Event → Option Sys
  | .start now =>
    match s.session with
    | some ⟨p :: left, seq, false⟩ =>
      if s.clock ≤ now then some { s with
        rows := recordPhase s.rows p seq .started none now
        session := some ⟨p :: left, seq, true⟩
        clock := now }
      else none
    | _ => none
  | .finish now =>
    match s.session with
    | some ⟨p :: left, seq, true⟩ =>
      if s.clock ≤ now then some {
        rows := recordPhase s.rows p seq .ended none now
        session := some ⟨left, seq + 1, false⟩
        clock := now
        completed := s.completed ++ [⟨p, now⟩] }
      else none
    | _ => none
  | .fail now error =>
    match s.session with
    | some ⟨p :: _, seq, true⟩ =>
      if s.clock ≤ now then some { s with
        rows := recordPhase s.rows p seq .error (some error) now
        session := none
        clock := now }
      else none
    | _ => none
  | .interrupt => s.session.map fun _ => { s with session := none }
  | .resume last =>
    if s.session = none ∧ last ∈ lastCompletedPhase s.rows then
      match resumeWithKind ⟨pipeline, none⟩ last kind with
      | .ok p => some { s with session := some ⟨p.phases, 0, false⟩ }
      | .error _ => some s
    else none

/-- **The remainder.**  So far the first phases of the pipeline were completed, each once, and to
continue runs those that follow; there is nothing to continue before the first is completed. -/
structure Remainder (s : Sys) : Prop where
  done : s.completed.map (·.phase) = pipeline.take s.completed.length
  known : lastCompletedPhase s.rows = [] ↔ s.completed = []
  rest : ∀ last ∈ lastCompletedPhase s.rows, resumeWithKind ⟨pipeline, none⟩ last kind
    = .ok ⟨pipeline.drop s.completed.length, some last⟩

/-- a phase without a rank ends in a later second than all that were completed before -/
def LaterSecond (s : Sys) : Event → Prop
  | .finish now => ∀ session ∈ s.session, ∀ p ∈ session.left.head?, phaseRank p = -1 →
      ∀ c ∈ s.completed, c.time < now
  | _ => True

end

instance (s : Sys) (e : Event) : Decidable (LaterSecond s e) := by
  cases e <;> unfold LaterSecond <;> infer_instance

/-! ## the rows of completed phases -/

/-- the rows of status `end` are those of the completed phases -/
def Rows (s : Sys) : Prop :=
  ∀ c : Completed, (∃ r ∈ s.rows, r.status = .ended ∧ r.phase = c.phase ∧ r.startedUnix = c.time) ↔
    c ∈ s.completed

/-- a record for a phase that has no row of status `end` leaves those rows as they are -/
theorem recordPhase_rows {s : Sys} (h : Rows s) {p : String} (hnew : ∀ c ∈ s.completed, c.phase ≠ p)
    (seq : ℕ) (status : Status) (error : Option String) (now : ℕ) (c : Completed) :
    (∃ r ∈ recordPhase s.rows p seq status error now,
      r.status = .ended ∧ r.phase = c.phase ∧ r.startedUnix = c.time) ↔
    c ∈ s.completed ∨ status = .ended ∧ c = ⟨p, now⟩ := by
  constructor
  · rintro ⟨r, hr, hended, hphase, htime⟩
    obtain hold | hnow := List.mem_append.mp hr
    · exact Or.inl ((h c).mp ⟨r, (List.mem_filter.mp hold).1, hended, hphase, htime⟩)
    · obtain rfl := List.mem_singleton.mp hnow
      refine Or.inr ⟨hended, ?_⟩
      cases c
      cases hphase
      cases htime
      rfl
  · rintro (hc | ⟨rfl, rfl⟩)
    · obtain ⟨r, hr, hended, hphase, htime⟩ := (h c).mpr hc
      refine ⟨r, List.mem_append_left _ (List.mem_filter.mpr ⟨hr, ?_⟩), hended, hphase, htime⟩
      have hne : (r.phase == p) = false := beq_false_of_ne (hphase ▸ hnew c hc)
      rw [hne]
      rfl
    · exact ⟨_, List.mem_append_right _ (List.mem_singleton_self _), rfl, rfl, rfl⟩

theorem mem_last_of_rows {s : Sys} (h : Rows s) {name : String} :
    name ∈ lastCompletedPhase s.rows ↔ ∃ c ∈ s.completed, c.phase = name ∧
      ∀ d ∈ s.completed, ¬ After d.phase d.time c.phase c.time := by
  rw [mem_lastCompletedPhase]
  constructor
  · rintro ⟨r, hr, hended, rfl, hfirst⟩
    refine ⟨⟨r.phase, r.startedUnix⟩, (h _).mp ⟨r, hr, hended, rfl, rfl⟩, rfl, fun d hd => ?_⟩
    obtain ⟨q, hq, hqe, hqp, hqt⟩ := (h d).mpr hd
    rw [← hqp, ← hqt]
    exact hfirst q hq hqe
  · rintro ⟨c, hc, rfl, hfirst⟩
    obtain ⟨r, hr, hended, hphase, htime⟩ := (h c).mpr hc
    refine ⟨r, hr, hended, hphase, fun q hq hqe => ?_⟩
    rw [hphase, htime]
    exact hfirst ⟨q.phase, q.startedUnix⟩ ((h _).mp ⟨q, hq, hqe, rfl, rfl⟩)

/-- the phase that came after all others is the only answer -/
theorem last_of_after {s : Sys} (h : Rows s) {front : List Completed} {c : Completed}
    (hc : s.completed = front ++ [c]) (hafter : ∀ d ∈ front, After c.phase c.time d.phase d.time)
    {name : String} : name ∈ lastCompletedPhase s.rows ↔ name = c.phase := by
  rw [mem_last_of_rows h, hc]
  constructor
  · rintro ⟨d, hd, rfl, hfirst⟩
    obtain hd | hd := List.mem_append.mp hd
    · exact absurd (hafter d hd) (hfirst c (List.mem_append_right _ (List.mem_singleton_self c)))
    · rw [List.mem_singleton.mp hd]
  · rintro rfl
    refine ⟨c, List.mem_append_right _ (List.mem_singleton_self c), rfl, fun d hd => ?_⟩
    unfold After
    obtain hd | hd := List.mem_append.mp hd
    · have := hafter d hd
      unfold After at this
      omega
    · rw [List.mem_singleton.mp hd]
      omega

/-! ## the invariant -/

structure Inv (pipeline : List String) (s : Sys) : Prop where
  done : s.completed.map (·.phase) = pipeline.take s.completed.length
  left : ∀ session ∈ s.session, session.left = pipeline.drop s.completed.length
  rows : Rows s
  clock : ∀ c ∈ s.completed, c.time ≤ s.clock
  /-- each phase comes after those before it -/
  rising : s.completed.Pairwise fun c d => After d.phase d.time c.phase c.time

theorem init_inv (pipeline : List String) : Inv pipeline (init pipeline) where
  done := rfl
  left _ h := Option.some.inj h ▸ rfl
  rows _ := iff_of_false (fun ⟨_, hr, _⟩ => List.not_mem_nil hr) List.not_mem_nil
  clock _ h := absurd h List.not_mem_nil
  rising := List.Pairwise.nil

section
variable {kind : PipelineKind} {pipeline : List String} {s : Sys}
  (hsub : pipeline.Sublist (canonicalPhaseOrderFor kind))

/-- the phases that are completed, the last of them, and the rest -/
theorem Inv.split (h : Inv pipeline s) {front : List Completed} {c : Completed}
    (hc : s.completed = front ++ [c]) :
    pipeline = front.map (·.phase) ++ c.phase :: pipeline.drop s.completed.length := by
  have hdone := h.done
  rw [hc, List.map_append, List.map_singleton] at hdone
  calc pipeline = pipeline.take s.completed.length ++ pipeline.drop s.completed.length :=
        (List.take_append_drop _ _).symm
    _ = (front.map (·.phase) ++ [c.phase]) ++ pipeline.drop s.completed.length := by rw [hdone, hc]
    _ = _ := by rw [List.append_assoc, List.singleton_append]

include hsub

theorem Inv.remainder (h : Inv pipeline s) : Remainder kind pipeline s := by
  obtain hnil | ⟨front, c, hc⟩ := List.eq_nil_or_concat' s.completed
  · have hnone : lastCompletedPhase s.rows = [] := by
      rw [List.eq_nil_iff_forall_not_mem]
      intro name hname
      obtain ⟨c, hc, -⟩ := (mem_last_of_rows h.rows).mp hname
      rw [hnil] at hc
      exact List.not_mem_nil hc
    refine ⟨h.done, iff_of_true hnone hnil, fun last hlast => ?_⟩
    rw [hnone] at hlast
    exact absurd hlast List.not_mem_nil
  · have hafter : ∀ d ∈ front, After c.phase c.time d.phase d.time := by
      have hrising := h.rising
      rw [hc, List.pairwise_append] at hrising
      exact fun d hd => hrising.2.2 d hd c (List.mem_singleton_self c)
    have hlast : ∀ {name}, name ∈ lastCompletedPhase s.rows ↔ name = c.phase :=
      last_of_after h.rows hc hafter
    refine ⟨h.done, iff_of_false ?_ ?_, fun last hl => ?_⟩
    · exact List.ne_nil_of_mem (hlast.mpr rfl)
    · rw [hc]
      exact List.concat_ne_nil c front
    · rw [hlast.mp hl]
      exact resume_rest hsub (h.split hc)

/-- the phase that runs was not completed before -/
theorem Inv.fresh (h : Inv pipeline s) {p : String} {left : List String} {seq : ℕ} {running : Bool}
    (hsession : s.session = some ⟨p :: left, seq, running⟩) : ∀ c ∈ s.completed, c.phase ≠ p := by
  have hp : p ∈ pipeline.drop s.completed.length := by
    rw [← h.left _ hsession]
    exact List.mem_cons_self
  intro c hc heq
  have hc' : c.phase ∈ pipeline.take s.completed.length := by
    rw [← h.done]
    exact List.mem_map_of_mem hc
  rw [heq] at hc'
  have hdisj := List.disjoint_take_drop (pipeline_nodup hsub) (le_refl s.completed.length)
  exact hdisj hc' hp

omit hsub in
/-- a record that completes nothing -/
theorem Inv.record (h : Inv pipeline s) {p : String} (hnew : ∀ c ∈ s.completed, c.phase ≠ p)
    (seq : ℕ) {status : Status} (hstatus : status ≠ .ended) (error : Option String) {now : ℕ}
    (hclock : s.clock ≤ now) {session : Option Session}
    (hleft : ∀ t ∈ session, t.left = pipeline.drop s.completed.length) :
    Inv pipeline ⟨recordPhase s.rows p seq status error now, session, now, s.completed⟩ where
  done := h.done
  left := hleft
  rows c := by
    rw [recordPhase_rows h.rows hnew]
    exact or_iff_left fun hended => hstatus hended.1
  clock c hc := le_trans (h.clock c hc) hclock
  rising := h.rising

theorem Inv.finish_rows (h : Inv pipeline s) {p : String} {left : List String} {seq : ℕ}
    {running : Bool} (hsession : s.session = some ⟨p :: left, seq, running⟩) (now : ℕ)
    (session : Option Session) :
    Rows ⟨recordPhase s.rows p seq .ended none now, session, now, s.completed ++ [⟨p, now⟩]⟩ := by
  intro c
  show _ ↔ c ∈ s.completed ++ [Completed.mk p now]
  rw [recordPhase_rows h.rows (h.fresh hsub hsession), List.mem_append, List.mem_singleton]
  exact or_congr_right (and_iff_right rfl)

theorem Inv.complete (h : Inv pipeline s) {p : String} {left : List String} {seq now : ℕ}
    (hsession : s.session = some ⟨p :: left, seq, true⟩) (hclock : s.clock ≤ now)
    (hlater : LaterSecond s (.finish now)) :
    Inv pipeline ⟨recordPhase s.rows p seq .ended none now, some ⟨left, seq + 1, false⟩, now,
      s.completed ++ [⟨p, now⟩]⟩ := by
  have hdrop : p :: left = pipeline.drop s.completed.length := h.left _ hsession
  have hsplit : pipeline = pipeline.take s.completed.length ++ p :: left := by
    rw [hdrop, List.take_append_drop]
  have hp : pipeline[s.completed.length]? = some p := by
    rw [← List.head?_drop, ← hdrop, List.head?_cons]
  constructor
  · show (s.completed ++ [Completed.mk p now]).map (·.phase)
      = pipeline.take (s.completed ++ [Completed.mk p now]).length
    rw [List.map_append, h.done, List.length_append, List.length_singleton, List.take_add_one, hp]
    rfl
  · intro session hs
    obtain rfl := Option.some.inj hs
    show left = pipeline.drop (s.completed ++ [Completed.mk p now]).length
    rw [List.length_append, List.length_singleton, ← List.tail_drop, ← hdrop, List.tail_cons]
  · exact h.finish_rows hsub hsession now _
  · intro c hc
    obtain hold | hnew := List.mem_append.mp hc
    · exact le_trans (h.clock c hold) hclock
    · rw [List.mem_singleton.mp hnew]
  · refine List.pairwise_append.mpr ⟨h.rising, List.pairwise_singleton _ _, fun c hc d hd => ?_⟩
    obtain rfl := List.mem_singleton.mp hd
    show c.time < now ∨ c.time = now ∧ phaseRank c.phase < phaseRank p
    by_cases hrank : phaseRank p = -1
    · exact Or.inl (hlater _ hsession p rfl hrank c hc)
    · have hlt : phaseRank c.phase < phaseRank p := by
        have hranks := (order_rank kind).sublist hsub
        rw [hsplit, List.pairwise_append] at hranks
        refine hranks.2.2 c.phase ?_ p List.mem_cons_self hrank
        rw [← h.done]
        exact List.mem_map_of_mem hc
      have := h.clock c hc
      omega

/-! ## runs -/

theorem step_inv {s' : Sys} {e : Event} (h : Inv pipeline s) (hlater : LaterSecond s e)
    (hs : step kind pipeline s e = some s') : Inv pipeline s' := by
  cases e with
  | start now =>
    rw [step] at hs
    split at hs
    · rename_i p left seq hsession
      obtain ⟨hclock, hs⟩ := Option.ite_none_right_eq_some.mp hs
      obtain rfl := Option.some.inj hs
      have hdrop : p :: left = pipeline.drop s.completed.length := h.left _ hsession
      exact h.record (h.fresh hsub hsession) seq Status.noConfusion none hclock
        fun t ht => Option.some.inj ht ▸ hdrop
    · cases hs
  | finish now =>
    rw [step] at hs
    split at hs
    · rename_i p left seq hsession
      obtain ⟨hclock, hs⟩ := Option.ite_none_right_eq_some.mp hs
      obtain rfl := Option.some.inj hs
      exact h.complete hsub hsession hclock hlater
    · cases hs
  | fail now error =>
    rw [step] at hs
    split at hs
    · rename_i p left seq hsession
      obtain ⟨hclock, hs⟩ := Option.ite_none_right_eq_some.mp hs
      obtain rfl := Option.some.inj hs
      exact h.record (h.fresh hsub hsession) seq Status.noConfusion (some error) hclock nofun
    · cases hs
  | interrupt =>
    obtain ⟨_, -, rfl⟩ := Option.map_eq_some_iff.mp hs
    exact { h with left := nofun }
  | resume last =>
    rw [step] at hs
    obtain ⟨⟨-, hlast⟩, hs⟩ := Option.ite_none_right_eq_some.mp hs
    rw [(h.remainder hsub).rest last hlast] at hs
    obtain rfl := Option.some.inj hs
    exact { h with left := fun t ht => Option.some.inj ht ▸ rfl }

omit hsub in
/-- no phase ended after the last one -/
theorem Inv.last_time (h : Inv pipeline s) {front : List Completed} {m : Completed}
    (hm : s.completed = front ++ [m]) {c : Completed} (hc : c ∈ s.completed) :
    ¬ After c.phase c.time m.phase m.time ∧ c.time ≤ m.time := by
  have hrising := h.rising
  rw [hm, List.pairwise_append] at hrising
  unfold After
  rw [hm] at hc
  obtain hfront | hlast := List.mem_append.mp hc
  · have hafter := hrising.2.2 c hfront m (List.mem_singleton_self m)
    unfold After at hafter
    omega
  · rw [List.mem_singleton.mp hlast]
    omega

/-- where the remainder is right behind a step, a phase without a rank ended in a later second -/
theorem later_of_remainder {s' : Sys} {e : Event} (h : Inv pipeline s)
    (hs : step kind pipeline s e = some s') (hr : Remainder kind pipeline s') : LaterSecond s e := by
  cases e with
  | finish now =>
    rw [step] at hs
    split at hs
    · rename_i p left seq hsession
      obtain ⟨hclock, hs⟩ := Option.ite_none_right_eq_some.mp hs
      obtain rfl := Option.some.inj hs
      intro t ht p' hp' hrank c hc
      obtain rfl := Option.some.inj (hsession.symm.trans ht)
      obtain rfl := Option.some.inj hp'
      by_contra hlt
      obtain ⟨front, m, hm⟩ := (List.eq_nil_or_concat' s.completed).resolve_left (List.ne_nil_of_mem hc)
      have hmem : m ∈ s.completed := hm ▸ List.mem_append_right _ (List.mem_singleton_self m)
      have htime := (h.last_time hm hc).2
      have hmclock := h.clock m hmem
      -- the last phase before `p` is an answer too, and its remainder has `p`
      have hanswer : m.phase ∈ lastCompletedPhase (recordPhase s.rows p seq .ended none now) := by
        refine (mem_last_of_rows (h.finish_rows hsub hsession now none)).mpr
          ⟨m, List.mem_append_left _ hmem, rfl, fun d hd => ?_⟩
        obtain hold | hnew := List.mem_append.mp hd
        · exact (h.last_time hm hold).1
        · have := rank_ge m.phase
          obtain rfl := List.mem_singleton.mp hnew
          show ¬ (m.time < now ∨ m.time = now ∧ phaseRank m.phase < phaseRank p)
          omega
      have hwrong := (resume_rest hsub (h.split hm)).symm.trans (hr.rest m.phase hanswer)
      have hdrop : p :: left = pipeline.drop s.completed.length := h.left _ hsession
      have hlen : pipeline.drop s.completed.length
          = pipeline.drop (s.completed ++ [Completed.mk p now]).length :=
        congrArg Pipeline.phases (Except.ok.inj hwrong)
      rw [List.length_append, List.length_singleton, ← List.tail_drop, ← hdrop, List.tail_cons] at hlen
      exact List.cons_ne_self p left hlen
    · cases hs
  | _ => trivial

/-- **To continue runs exactly the remainder, in every state of a run, iff every phase without a
rank ends in a later second** than the phases completed before it. -/
theorem continue_remainder {events : List Event} {s : Sys}
    (hrun : Runs.run (step kind pipeline) (init pipeline) events = some s) :
    Runs.Always (step kind pipeline) (Remainder kind pipeline) (init pipeline) events ↔
      Runs.Along (step kind pipeline) LaterSecond (init pipeline) events :=
  Runs.always_iff_along (fun _ h => h.remainder hsub) (fun _ _ _ h hg hs => step_inv hsub h hg hs)
    (fun _ _ _ h hs hr => later_of_remainder hsub h hs hr) events (init pipeline) s
    (init_inv pipeline) hrun

end

/-- three phases in one second, a session that is cut off and one that fails -/
def sampleEvents : List Event :=
  [.start 1, .finish 1, .start 1, .finish 1, .start 1, .interrupt, .resume "clarify", .start 1,
    .fail 2 "timeout", .resume "clarify", .start 2, .finish 2]

theorem continue_remainder_sample :
    Runs.Always (step .linear (canonicalPhaseOrderFor .linear))
      (Remainder .linear (canonicalPhaseOrderFor .linear)) (init (canonicalPhaseOrderFor .linear))
      sampleEvents := by
  have hsome : (Runs.run (step .linear (canonicalPhaseOrderFor .linear))
      (init (canonicalPhaseOrderFor .linear)) sampleEvents).isSome = true := by decide +kernel
  obtain ⟨s, hrun⟩ := Option.isSome_iff_exists.mp hsome
  refine (continue_remainder (List.Sublist.refl _) hrun).mpr ?_
  refine Runs.along_of_check (g := fun s e => decide (LaterSecond s e))
    (fun _ _ h => of_decide_eq_true h) _ _ ?_
  decide +kernel

/-- thirteen phases that take a second each, and `adversary` in the second of `judge` -/
def quickAdversary : List Event :=
  (List.range 14).flatMap fun i => [.start (min i 12), .finish (min i 12)]

/-- **`adversary` runs again** when it ends in the second in which `judge` ended. -/
theorem adversary_runs_again : ∃ s,
    Runs.run (step .linear (canonicalPhaseOrderFor .linear)) (init (canonicalPhaseOrderFor .linear))
      quickAdversary = some s ∧
    (canonicalPhaseOrderFor .linear).drop s.completed.length = ["rank", "deliver"] ∧
    lastCompletedPhase s.rows = ["judge"] ∧
    resumeWithKind ⟨canonicalPhaseOrderFor .linear, none⟩ "judge" .linear
      = .ok ⟨["adversary", "rank", "deliver"], some "judge"⟩ ∧
    ¬ Remainder .linear (canonicalPhaseOrderFor .linear) s := by
  have hstate : (Runs.run (step .linear (canonicalPhaseOrderFor .linear))
      (init (canonicalPhaseOrderFor .linear)) quickAdversary).map
        (fun s => (s.completed.length, lastCompletedPhase s.rows)) = some (14, ["judge"]) := by
    decide +kernel
  obtain ⟨s, hrun, hs⟩ := Option.map_eq_some_iff.mp hstate
  obtain ⟨hlen, hlast⟩ := Prod.mk.inj hs
  have hresume : resumeWithKind ⟨canonicalPhaseOrderFor .linear, none⟩ "judge" .linear
      = .ok ⟨["adversary", "rank", "deliver"], some "judge"⟩ :=
    resume_rest (List.Sublist.refl _) (show canonicalPhaseOrderFor .linear
      = (canonicalPhaseOrderFor .linear).take 12 ++ "judge" :: _ from rfl)
  refine ⟨s, hrun, hlen ▸ rfl, hlast, hresume, fun h => ?_⟩
  have hrest := h.rest "judge" (hlast ▸ List.mem_singleton_self _)
  rw [hresume, hlen] at hrest
  exact absurd (congrArg Pipeline.phases (Except.ok.inj hrest)) (by decide +kernel)

end Moagan.Resume
