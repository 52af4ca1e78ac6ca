import Mathlib.Data.List.Basic

/-!
# Runs of a transition system

A system is a partial step function `step : σ → ε → Option σ`.

* `run`          the state after a list of events, when each of them is possible
* `Along`        every event of a run meets a condition on the state it happens in
* `run_inv`      what a step keeps, a run keeps; the steps may be restricted by `Along`
* `run_length`   a run is no longer than a weight that every step makes smaller
* `run_count`    events of a kind that each use up a part of a weight
* `run_last`     what every step establishes holds behind every run that is not empty
* `run_view`     two runs of events that are alike look the same, when each of their steps does
* `along_of_check`  a condition that can be computed is met along a run when the check says so
* `along_of_inv` what the steps do in states that keep an invariant, every step of a run does
* `always_iff_along`  what holds in every state of a run, where the steps that meet a condition are
                 the ones that keep it
-/

namespace Runs

section
variable {σ ε : Type*} (step : σ → ε → Option σ)

def run : σ → List ε → Option σ
  | s, [] => some s
  | s, e :: es => (step s e).bind fun s' => run s' es

@[simp] theorem run_nil (s : σ) : run step s [] = some s := rfl

theorem run_cons (s : σ) (e : ε) (es : List ε) :
    run step s (e :: es) = (step s e).bind fun s' => run step s' es := rfl

theorem run_append (s : σ) (es fs : List ε) :
    run step s (es ++ fs) = (run step s es).bind fun s' => run step s' fs := by
  induction es generalizing s with
  | nil => rfl
  | cons e es ih =>
    rw [List.cons_append, run_cons, run_cons]
    cases step s e with
    | none => rfl
    | some s' => exact ih s'

/-- every event of the run meets `G` in the state in which it happens -/
def Along (G : σ → ε → Prop) : σ → List ε → Prop
  | _, [] => True
  | s, e :: es => G s e ∧ ∀ s', step s e = some s' → Along G s' es

/-- the same for a condition that can be computed -/
def checkAlong (g : σ → ε → Bool) : σ → List ε → Bool
  | _, [] => true
  | s, e :: es => g s e && ((step s e).map fun s' => checkAlong g s' es).getD true

/-- `J` holds in every state that the run goes through -/
def Always (J : σ → Prop) (s : σ) (es : List ε) : Prop :=
  ∀ front t, front <+: es → run step s front = some t → J t

variable {step}

theorem always_cons {J : σ → Prop} {s s' : σ} {e : ε} {es : List ε} (hs : step s e = some s') :
    Always step J s (e :: es) ↔ J s ∧ Always step J s' es := by
  constructor
  · intro h
    refine ⟨h [] s List.nil_prefix rfl, fun front t hfront hr => ?_⟩
    refine h (e :: front) t (List.cons_prefix_cons.mpr ⟨rfl, hfront⟩) ?_
    rw [run_cons, hs]
    exact hr
  · intro ⟨hj, h⟩ front t hfront hr
    cases front with
    | nil => exact Option.some.inj hr ▸ hj
    | cons e' front =>
      obtain ⟨rfl, htail⟩ := List.cons_prefix_cons.mp hfront
      rw [run_cons, hs] at hr
      exact h front t htail hr

theorem along_of_check {G : σ → ε → Prop} {g : σ → ε → Bool} (hg : ∀ s e, g s e = true → G s e)
    (es : List ε) : ∀ s, checkAlong step g s es = true → Along step G s es := by
  induction es with
  | nil => intro s _; trivial
  | cons e es ih =>
    intro s h
    obtain ⟨hge, hrest⟩ := (Bool.and_eq_true ..).mp h
    refine ⟨hg s e hge, fun s' hs => ih s' ?_⟩
    rwa [hs] at hrest

theorem along_mono {G Q : σ → ε → Prop} (h : ∀ s e, G s e → Q s e) {es : List ε} :
    ∀ {s}, Along step G s es → Along step Q s es := by
  induction es with
  | nil => intro s _; trivial
  | cons e es ih => intro s hg; exact ⟨h s e hg.1, fun s' hs => ih (hg.2 s' hs)⟩

theorem along_and {G Q : σ → ε → Prop} {es : List ε} : ∀ {s}, Along step G s es →
    Along step Q s es → Along step (fun s e => G s e ∧ Q s e) s es := by
  induction es with
  | nil => intro s _ _; trivial
  | cons e es ih => intro s hg hq; exact ⟨⟨hg.1, hq.1⟩, fun s' hs => ih (hg.2 s' hs) (hq.2 s' hs)⟩

/-- a condition on the events alone -/
theorem along_of_events {G : ε → Prop} {es : List ε} (h : ∀ e ∈ es, G e) :
    ∀ s, Along step (fun _ e => G e) s es := by
  induction es with
  | nil => intro _; trivial
  | cons e es ih =>
    intro s
    exact ⟨h e List.mem_cons_self, fun s' _ => ih (fun e he => h e (List.mem_cons_of_mem _ he)) s'⟩

theorem along_true (es : List ε) : ∀ s, Along step (fun _ _ => True) s es := by
  induction es with
  | nil => intro _; trivial
  | cons e es ih => intro s; exact ⟨trivial, fun s' _ => ih s'⟩

/-- where a run goes through, its front does -/
theorem run_front {s t : σ} {es fs : List ε} (h : run step s (es ++ fs) = some t) :
    ∃ s', run step s es = some s' ∧ run step s' fs = some t := by
  rw [run_append] at h
  exact Option.bind_eq_some_iff.mp h

/-- **What every step keeps, a run keeps.** -/
theorem run_inv {I : σ → Prop} {G : σ → ε → Prop}
    (hstep : ∀ s e s', I s → G s e → step s e = some s' → I s') (es : List ε) :
    ∀ s s', I s → Along step G s es → run step s es = some s' → I s' := by
  induction es with
  | nil =>
    intro s s' hi _ hr
    exact Option.some.inj hr ▸ hi
  | cons e es ih =>
    intro s s' hi hg hr
    rw [run_cons] at hr
    obtain ⟨s₁, h1, h2⟩ := Option.bind_eq_some_iff.mp hr
    exact ih s₁ s' (hstep s e s₁ hi hg.1 h1) (hg.2 s₁ h1) h2

/-- **A run is no longer than a weight that every step makes smaller.** -/
theorem run_length {I : σ → Prop} {w : σ → ℕ}
    (hstep : ∀ s e s', I s → step s e = some s' → I s' ∧ w s' < w s) (es : List ε) :
    ∀ s s', I s → run step s es = some s' → es.length + w s' ≤ w s := by
  induction es with
  | nil =>
    intro s s' _ hr
    obtain rfl := Option.some.inj hr
    exact Nat.le_of_eq (Nat.zero_add _)
  | cons e es ih =>
    intro s s' hi hr
    rw [run_cons] at hr
    obtain ⟨s₁, h1, h2⟩ := Option.bind_eq_some_iff.mp hr
    obtain ⟨hi₁, hlt⟩ := hstep s e s₁ hi h1
    have := ih s₁ s' hi₁ h2
    rw [List.length_cons]
    omega

/-- **The events of a kind that each use up a part of a weight are no more than the weight.** -/
theorem run_count {I : σ → Prop} {G : σ → ε → Prop} {c : ε → Bool} {w : σ → ℕ}
    (hstep : ∀ s e s', I s → G s e → step s e = some s' →
      I s' ∧ w s' + (if c e then 1 else 0) ≤ w s) (es : List ε) :
    ∀ s s', I s → Along step G s es → run step s es = some s' → es.countP c + w s' ≤ w s := by
  induction es with
  | nil =>
    intro s s' _ _ hr
    obtain rfl := Option.some.inj hr
    exact Nat.le_of_eq (Nat.zero_add _)
  | cons e es ih =>
    intro s s' hi hg hr
    rw [run_cons] at hr
    obtain ⟨s₁, h1, h2⟩ := Option.bind_eq_some_iff.mp hr
    obtain ⟨hi₁, hle⟩ := hstep s e s₁ hi hg.1 h1
    have := ih s₁ s' hi₁ (hg.2 s₁ h1) h2
    rw [List.countP_cons]
    omega

/-- **What the steps do in states that keep `I`, every step of a run does.** -/
theorem along_of_inv {I : σ → Prop} {G Q : σ → ε → Prop}
    (hstep : ∀ s e s', I s → G s e → step s e = some s' → I s' ∧ Q s e) (es : List ε) :
    ∀ s s', I s → Along step G s es → run step s es = some s' → Along step Q s es := by
  induction es with
  | nil => intro s s' _ _ _; trivial
  | cons e es ih =>
    intro s s' hi hg hr
    rw [run_cons] at hr
    obtain ⟨s₁, h1, h2⟩ := Option.bind_eq_some_iff.mp hr
    obtain ⟨hi₁, hq⟩ := hstep s e s₁ hi hg.1 h1
    refine ⟨hq, fun s₂ hs₂ => ?_⟩
    obtain rfl := Option.some.inj (h1.symm.trans hs₂)
    exact ih s₁ s' hi₁ (hg.2 s₁ h1) h2

/-- **A property of the states of a run, as a condition on its steps**, where `I` gives the property
and is kept by the steps that meet the condition, and by no others -/
theorem always_iff_along {I J : σ → Prop} {G : σ → ε → Prop} (hJ : ∀ s, I s → J s)
    (hstep : ∀ s e s', I s → G s e → step s e = some s' → I s')
    (hback : ∀ s e s', I s → step s e = some s' → J s' → G s e) (es : List ε) :
    ∀ s s', I s → run step s es = some s' → (Always step J s es ↔ Along step G s es) := by
  induction es with
  | nil =>
    intro s s' hi _
    refine iff_of_true (fun front t hfront hr => ?_) trivial
    obtain rfl := List.prefix_nil.mp hfront
    exact Option.some.inj hr ▸ hJ s hi
  | cons e es ih =>
    intro s s' hi hr
    rw [run_cons] at hr
    obtain ⟨s₁, h1, h2⟩ := Option.bind_eq_some_iff.mp hr
    rw [always_cons h1]
    constructor
    · intro ⟨_, hrest⟩
      have hg := hback s e s₁ hi h1 (hrest [] s₁ List.nil_prefix rfl)
      refine ⟨hg, fun s₂ hs₂ => ?_⟩
      obtain rfl := Option.some.inj (h1.symm.trans hs₂)
      exact (ih s₁ s' (hstep s e s₁ hi hg h1) h2).mp hrest
    · intro hg
      exact ⟨hJ s hi, (ih s₁ s' (hstep s e s₁ hi hg.1 h1) h2).mpr (hg.2 s₁ h1)⟩

theorem along_cons {G : σ → ε → Prop} {s s' : σ} {e : ε} {es : List ε} (hs : step s e = some s')
    (hg : G s e) (h : Along step G s' es) : Along step G s (e :: es) :=
  ⟨hg, fun _ ht => Option.some.inj (hs.symm.trans ht) ▸ h⟩

theorem along_concat {G : σ → ε → Prop} {es fs : List ε} : ∀ {s s' : σ}, run step s es = some s' →
    Along step G s es → Along step G s' fs → Along step G s (es ++ fs) := by
  induction es with
  | nil => intro s s' hr _ h; exact Option.some.inj hr ▸ h
  | cons e es ih =>
    intro s s' hr hg h
    rw [run_cons] at hr
    obtain ⟨s₁, h1, h2⟩ := Option.bind_eq_some_iff.mp hr
    exact along_cons h1 hg.1 (ih h2 (hg.2 s₁ h1) h)

theorem along_append {G : σ → ε → Prop} {es fs : List ε} :
    ∀ {s s' : σ}, Along step G s (es ++ fs) → run step s es = some s' → Along step G s' fs := by
  induction es with
  | nil =>
    intro s s' h hr
    exact Option.some.inj hr ▸ h
  | cons e es ih =>
    intro s s' h hr
    rw [run_cons] at hr
    obtain ⟨s₁, h1, h2⟩ := Option.bind_eq_some_iff.mp hr
    exact ih (h.2 s₁ h1) h2

theorem along_front {G : σ → ε → Prop} {es fs : List ε} :
    ∀ {s : σ}, Along step G s (es ++ fs) → Along step G s es := by
  induction es with
  | nil => intro s _; trivial
  | cons e es ih => intro s h; exact ⟨h.1, fun s' hs => ih (h.2 s' hs)⟩

/-- **What every step establishes holds behind every run that is not empty.** -/
theorem run_last {I J : σ → Prop} {G : σ → ε → Prop}
    (hstep : ∀ s e s', I s → G s e → step s e = some s' → I s')
    (hlast : ∀ s e s', I s → G s e → step s e = some s' → J s') {es : List ε} (hne : es ≠ [])
    {s s' : σ} (hi : I s) (hg : Along step G s es) (hr : run step s es = some s') : J s' := by
  obtain ⟨fs, e, rfl⟩ := (List.eq_nil_or_concat es).resolve_left hne
  rw [List.concat_eq_append] at hg hr
  rw [run_append] at hr
  obtain ⟨s₁, h1, h2⟩ := Option.bind_eq_some_iff.mp hr
  rw [run_cons] at h2
  obtain ⟨s₂, h3, h4⟩ := Option.bind_eq_some_iff.mp h2
  have hi₁ := run_inv hstep fs s s₁ hi (along_front hg) h1
  exact Option.some.inj h4 ▸ hlast s₁ e s₂ hi₁ (along_append hg h1).1 h3

/-- **What the steps of a view do not see, a run does not show.**  The events in turn need to be
alike only. -/
theorem run_view {ν : Type*} {v : σ → ν} {E : ε → ε → Prop}
    (hstep : ∀ s t e f, v s = v t → E e f → (step s e).map v = (step t f).map v)
    {es fs : List ε} (h : List.Forall₂ E es fs) :
    ∀ s t, v s = v t → (run step s es).map v = (run step t fs).map v := by
  induction h with
  | nil => exact fun s t hv => congrArg some hv
  | @cons e f es fs hef _ ih =>
    intro s t hv
    have hone := hstep s t e f hv hef
    rw [run_cons, run_cons]
    cases hs : step s e with
    | none =>
      rw [hs] at hone
      rw [Option.map_eq_none_iff.mp hone.symm]
      rfl
    | some s' =>
      rw [hs] at hone
      obtain ⟨t', ht, hv'⟩ := Option.map_eq_some_iff.mp hone.symm
      rw [ht]
      exact ih s' t' hv'.symm

end

end Runs
