import Moagan.Lib.Runs
import Moagan.Phases.ProblemGraph

/-!
# The schedule of a problem graph (`schedule_dag` in `src/phases/decompose.rs`)

The nodes of a layer are started together; they finish in whatever order and with whatever outcome,
and the results are looked at when all of them have finished.

* `Schedule`, `step`    the layers, what happened so far, and where the call is
* `Log`                 the layers that are complete and those that are started, in what happened
* `Inv`, `step_inv`     what every step keeps
* `Schedule.weight`     no step goes on forever
* `schedule_dag_spec`   every node at most once, behind all that it depends on
-/

namespace Moagan.Decompose

open Layering Relation

section
variable {E : Type}

inductive ScheduleError (E : Type) where
  /-- `dag schedule failed: …` -/
  | dagScheduleFailed (error : GraphError)
  | node (error : E)

inductive Event (E : Type) where
  /-- the closure is called with the node and the number of its layer -/
  | start (node layer : ℕ)
  | finish (node : ℕ) (outcome : Except E Unit)

inductive Control (E : Type) where
  /-- at the head of the loop, before this layer -/
  | next (layer : ℕ)
  /-- the futures of this layer are awaited -/
  | waiting (layer : ℕ)
  | returned (result : Except (ScheduleError E) Unit)

structure Schedule (E : Type) where
  layers : List (List ℕ)
  log : List (Event E)
  control : Control E

/-- what may happen: the head of the loop is run, a future is ready, `join_all` is -/
inductive Act (E : Type) where
  | loop
  | finish (node : ℕ) (outcome : Except E Unit)
  | joined

def Event.startOf : Event E → Option ℕ
  | .start node _ => some node
  | .finish _ _ => none

def Event.isFinishOf (node : ℕ) : Event E → Bool
  | .start _ _ => false
  | .finish i _ => i == node

/-- the error with which a node finished -/
def Event.errorOf (node : ℕ) : Event E → Option E
  | .finish i (.error e) => if i = node then some e else none
  | _ => none

def starts (log : List (Event E)) : List ℕ := log.filterMap Event.startOf

def isFinished (log : List (Event E)) (node : ℕ) : Bool := log.any (Event.isFinishOf node)

/-- the first error among the results of a layer, in the order of the layer -/
def firstError (log : List (Event E)) (layer : List ℕ) : Option E :=
  layer.findSome? fun node => log.findSome? (Event.errorOf node)

def ProblemGraph.schedule (g : ProblemGraph) : Schedule E :=
  match g.topologicalLayers with
  | .error e => ⟨[], [], .returned (.error (.dagScheduleFailed e))⟩
  | .ok layers => ⟨layers, [], .next 0⟩

def step (s : Schedule E) : Act E → Option (Schedule E)
  | .loop =>
    match s.control with
    | .next k =>
      match s.layers[k]? with
      | some layer =>
        some { s with log := s.log ++ layer.map (Event.start · k), control := .waiting k }
      | none => some { s with control := .returned (.ok ()) }
    | _ => none
  | .finish node outcome =>
    match s.control with
    | .waiting k =>
      if node ∈ s.layers.getD k [] ∧ isFinished s.log node = false then
        some { s with log := s.log ++ [.finish node outcome] }
      else none
    | _ => none
  | .joined =>
    match s.control with
    | .waiting k =>
      if (s.layers.getD k []).all (isFinished s.log) then
        match firstError s.log (s.layers.getD k []) with
        | some e => some { s with control := .returned (.error (.node e)) }
        | none => some { s with control := .next (k + 1) }
      else none
    | _ => none

/-! ## the log -/

theorem isFinished_iff {log : List (Event E)} {node : ℕ} :
    isFinished log node = true ↔ ∃ o, Event.finish node o ∈ log := by
  unfold isFinished
  rw [List.any_eq_true]
  constructor
  · rintro ⟨e, he, hf⟩
    cases e with
    | start i k => cases hf
    | finish i o =>
      obtain rfl : i = node := by simpa [Event.isFinishOf] using hf
      exact ⟨o, he⟩
  · intro ⟨o, ho⟩
    exact ⟨_, ho, by simp [Event.isFinishOf]⟩

theorem errorOf_eq_some {e : Event E} {node : ℕ} {err : E} :
    e.errorOf node = some err ↔ e = .finish node (.error err) := by
  cases e with
  | start i k => exact ⟨fun h => (by cases h), fun h => (by cases h)⟩
  | finish i o =>
    cases o with
    | ok _ => exact ⟨fun h => (by cases h), fun h => (by cases h)⟩
    | error e' => simp [Event.errorOf]

theorem firstError_some {log : List (Event E)} {layer : List ℕ} {err : E}
    (h : firstError log layer = some err) : ∃ i ∈ layer, Event.finish i (.error err) ∈ log := by
  obtain ⟨i, hi, h⟩ := List.exists_of_findSome?_eq_some h
  obtain ⟨e, he, h⟩ := List.exists_of_findSome?_eq_some h
  exact ⟨i, hi, errorOf_eq_some.mp h ▸ he⟩

theorem firstError_none {log : List (Event E)} {layer : List ℕ}
    (h : firstError log layer = none) {i : ℕ} (hi : i ∈ layer) (err : E) :
    Event.finish i (.error err) ∉ log := by
  intro he
  have hlog := List.findSome?_eq_none_iff.mp h i hi
  have hnone := List.findSome?_eq_none_iff.mp hlog _ he
  rw [errorOf_eq_some.mpr rfl] at hnone
  cases hnone

/-- `k` of the layers are complete and `m` are started; what failed is in one of the others -/
structure Log (layers : List (List ℕ)) (log : List (Event E)) (k m : ℕ) : Prop where
  bound : m ≤ layers.length
  starts : starts log = (layers.take m).flatten
  complete : ∀ j ∈ (layers.take k).flatten, Event.finish j (.ok ()) ∈ log
  failed : ∀ j err, Event.finish j (.error err) ∈ log → ∃ i, k ≤ i ∧ i < m ∧ At layers i j

/-- a node is started when the layers before its own are complete -/
def Ordered (layers : List (List ℕ)) (log : List (Event E)) : Prop :=
  ∀ n i k, log[n]? = some (.start i k) →
    At layers k i ∧ ∀ j ∈ (layers.take k).flatten, Event.finish j (.ok ()) ∈ log.take n

def Holds (layers : List (List ℕ)) (log : List (Event E)) : Control E → Prop
  | .next k => Log layers log k k
  | .waiting k => Log layers log k (k + 1)
  | .returned (.ok _) => Log layers log layers.length layers.length
  | .returned (.error _) =>
    ∃ k i err, Log layers log k (k + 1) ∧ Event.finish i (.error err) ∈ log

structure Inv (s : Schedule E) : Prop where
  ordered : Ordered s.layers s.log
  holds : Holds s.layers s.log s.control

variable {layers : List (List ℕ)} {log : List (Event E)} {k m : ℕ}

theorem starts_append (a b : List (Event E)) : starts (a ++ b) = starts a ++ starts b :=
  List.filterMap_append

theorem starts_layer (layer : List ℕ) :
    starts (layer.map (Event.start (E := E) · k)) = layer := by
  unfold starts
  rw [List.filterMap_map]
  exact List.filterMap_some

theorem take_succ_flatten {layer : List ℕ} (h : layers[k]? = some layer) :
    (layers.take (k + 1)).flatten = (layers.take k).flatten ++ layer := by
  rw [List.take_add_one, h]
  simp

/-! ## what the steps keep -/

theorem Log.start (h : Log layers log k k) {layer : List ℕ} (hl : layers[k]? = some layer) :
    Log layers (log ++ layer.map (Event.start · k)) k (k + 1) := by
  refine ⟨(List.getElem?_eq_some_iff.mp hl).1, ?_, fun j hj => ?_, fun j err he => ?_⟩
  · rw [starts_append, starts_layer, h.starts, take_succ_flatten hl]
  · exact List.mem_append_left _ (h.complete j hj)
  · have hold : Event.finish j (.error err) ∈ log := by simpa using he
    obtain ⟨i, hk, hm, -⟩ := h.failed j err hold
    omega

/-- what comes behind the log is in order when it starts nodes behind complete layers only -/
theorem Ordered.append (h : Ordered layers log) {more : List (Event E)}
    (hmore : ∀ i k, Event.start i k ∈ more →
      At layers k i ∧ ∀ j ∈ (layers.take k).flatten, Event.finish j (.ok ()) ∈ log) :
    Ordered layers (log ++ more) := by
  intro n i k hn
  by_cases hlt : n < log.length
  · rw [List.getElem?_append_left hlt] at hn
    rw [List.take_append_of_le_length hlt.le]
    exact h n i k hn
  · rw [List.getElem?_append_right (Nat.le_of_not_lt hlt)] at hn
    obtain ⟨hat, hbefore⟩ := hmore i k (List.mem_of_getElem? hn)
    refine ⟨hat, fun j hj => ?_⟩
    rw [List.take_append, List.take_of_length_le (Nat.le_of_not_lt hlt)]
    exact List.mem_append_left _ (hbefore j hj)

theorem Ordered.start (h : Ordered layers log) (hlog : Log layers log k k) {layer : List ℕ}
    (hl : layers[k]? = some layer) :
    Ordered layers (log ++ layer.map (Event.start · k)) := by
  refine h.append fun i k' hi => ?_
  obtain ⟨i', hi', heq⟩ := List.mem_map.mp hi
  obtain ⟨rfl, rfl⟩ := Event.start.inj heq
  exact ⟨⟨layer, hl, hi'⟩, hlog.complete⟩

theorem Log.finish (h : Log layers log k (k + 1)) {node : ℕ} (hat : At layers k node)
    (outcome : Except E Unit) : Log layers (log ++ [.finish node outcome]) k (k + 1) := by
  refine ⟨h.bound, ?_, fun j hj => ?_, fun j err he => ?_⟩
  · rw [starts_append, h.starts]
    exact List.append_nil _
  · exact List.mem_append_left _ (h.complete j hj)
  · obtain hold | hnew := List.mem_append.mp he
    · exact h.failed j err hold
    · obtain ⟨rfl, -⟩ : j = node ∧ _ := by simpa using hnew
      exact ⟨k, le_refl k, Nat.lt_succ_self k, hat⟩

theorem Ordered.finish (h : Ordered layers log) (node : ℕ) (outcome : Except E Unit) :
    Ordered layers (log ++ [.finish node outcome]) :=
  h.append fun i k hi => by cases List.mem_singleton.mp hi

/-- all results of the layer are there, and none is an error -/
theorem Log.joined (h : Log layers log k (k + 1)) {layer : List ℕ} (hl : layers[k]? = some layer)
    (hall : layer.all (isFinished log) = true) (hnone : firstError log layer = none) :
    Log layers log (k + 1) (k + 1) := by
  refine ⟨h.bound, h.starts, fun j hj => ?_, fun j err he => ?_⟩
  · rw [take_succ_flatten hl] at hj
    obtain hj | hj := List.mem_append.mp hj
    · exact h.complete j hj
    · obtain ⟨o, ho⟩ := isFinished_iff.mp (List.all_eq_true.mp hall j hj)
      cases o with
      | ok _ => exact ho
      | error err => exact absurd ho (firstError_none hnone hj err)
  · obtain ⟨i, hk, hm, l, hl', hj⟩ := h.failed j err he
    obtain rfl : i = k := by omega
    obtain rfl := Option.some.inj (hl.symm.trans hl')
    exact absurd he (firstError_none hnone hj err)

theorem Log.layer (h : Log layers log k (k + 1)) : layers[k]? = some (layers.getD k []) := by
  rw [List.getD_eq_getElem?_getD]
  have hk : k < layers.length := h.bound
  rw [List.getElem?_eq_getElem hk]
  rfl

/-- what a step does -/
inductive Stepped (layers : List (List ℕ)) (log : List (Event E)) :
    Control E → Schedule E → Prop
  | start {k : ℕ} {layer : List ℕ} : layers[k]? = some layer → Stepped layers log (.next k)
      ⟨layers, log ++ layer.map (Event.start · k), .waiting k⟩
  | done {k : ℕ} : layers[k]? = none → Stepped layers log (.next k)
      ⟨layers, log, .returned (.ok ())⟩
  | finish {k node : ℕ} (outcome : Except E Unit) : node ∈ layers.getD k [] →
      isFinished log node = false →
      Stepped layers log (.waiting k) ⟨layers, log ++ [.finish node outcome], .waiting k⟩
  | failed {k : ℕ} {e : E} : firstError log (layers.getD k []) = some e →
      Stepped layers log (.waiting k) ⟨layers, log, .returned (.error (.node e))⟩
  | joined {k : ℕ} : (layers.getD k []).all (isFinished log) = true →
      firstError log (layers.getD k []) = none →
      Stepped layers log (.waiting k) ⟨layers, log, .next (k + 1)⟩

theorem step_does {s s' : Schedule E} {a : Act E} (hs : step s a = some s') :
    Stepped s.layers s.log s.control s' := by
  obtain ⟨layers, log, control⟩ := s
  cases a with
  | loop =>
    cases control with
    | next k =>
      unfold step at hs
      dsimp only at hs
      split at hs
      · rename_i layer hl
        exact Option.some.inj hs ▸ .start hl
      · rename_i hl
        exact Option.some.inj hs ▸ .done hl
    | waiting k => cases hs
    | returned r => cases hs
  | finish node outcome =>
    cases control with
    | next k => cases hs
    | waiting k =>
      obtain ⟨⟨hmem, hnew⟩, heq⟩ := Option.ite_none_right_eq_some.mp hs
      exact Option.some.inj heq ▸ .finish outcome hmem hnew
    | returned r => cases hs
  | joined =>
    cases control with
    | next k => cases hs
    | waiting k =>
      obtain ⟨hall, heq⟩ := Option.ite_none_right_eq_some.mp hs
      dsimp only at heq
      split at heq
      · rename_i err herr
        exact Option.some.inj heq ▸ .failed herr
      · rename_i hnone
        exact Option.some.inj heq ▸ .joined hall hnone
    | returned r => cases hs

/-- **What every step keeps.** -/
theorem step_inv {s s' : Schedule E} {a : Act E} (h : Inv s) (hs : step s a = some s') :
    Inv s' ∧ s'.layers = s.layers := by
  obtain ⟨layers, log, control⟩ := s
  obtain ⟨hord, hholds⟩ := h
  have hdoes : Stepped layers log control s' := step_does hs
  cases hdoes with
  | start hl => exact ⟨⟨hord.start hholds hl, hholds.start hl⟩, rfl⟩
  | done hl =>
    obtain rfl : _ = layers.length :=
      le_antisymm (Log.bound hholds) (List.getElem?_eq_none_iff.mp hl)
    exact ⟨⟨hord, hholds⟩, rfl⟩
  | @finish k node outcome hmem hnew =>
    have hat : At layers k node := ⟨_, Log.layer hholds, hmem⟩
    exact ⟨⟨hord.finish node outcome, Log.finish hholds hat outcome⟩, rfl⟩
  | @failed k err herr =>
    obtain ⟨i, hi, he⟩ := firstError_some herr
    exact ⟨⟨hord, k, i, err, hholds, he⟩, rfl⟩
  | joined hall hnone => exact ⟨⟨hord, Log.joined hholds (Log.layer hholds) hall hnone⟩, rfl⟩

/-! ## runs -/

def Control.weight (n : ℕ) : Control E → ℕ
  | .next k => 2 * (n - k) + 1
  | .waiting k => 2 * (n - k)
  | .returned _ => 0

def unfinished (layers : List (List ℕ)) (log : List (Event E)) : List ℕ :=
  layers.flatten.filter fun node => !isFinished log node

/-- what is left to do -/
def Schedule.weight (s : Schedule E) : ℕ :=
  s.control.weight s.layers.length + (unfinished s.layers s.log).length

theorem isFinished_append (a b : List (Event E)) (node : ℕ) :
    isFinished (a ++ b) node = (isFinished a node || isFinished b node) := List.any_append

theorem unfinished_start (layer : List ℕ) :
    unfinished layers (log ++ layer.map (Event.start · k)) = unfinished layers log := by
  have hnone : ∀ j, isFinished (layer.map (Event.start (E := E) · k)) j = false := by
    intro j
    simp [isFinished, Event.isFinishOf]
  unfold unfinished
  simp only [isFinished_append, hnone, Bool.or_false]

theorem unfinished_finish {node : ℕ} (hat : At layers k node)
    (hnew : isFinished log node = false) (outcome : Except E Unit) :
    (unfinished layers (log ++ [.finish node outcome])).length < (unfinished layers log).length := by
  have hfilter : unfinished layers (log ++ [.finish node outcome])
      = (unfinished layers log).filter fun j => !(node == j) := by
    unfold unfinished
    rw [List.filter_filter]
    refine List.filter_congr fun j _ => ?_
    rw [isFinished_append]
    simp [isFinished, Event.isFinishOf, Bool.and_comm]
  rw [hfilter, List.length_filter_lt_length_iff_exists]
  refine ⟨node, List.mem_filter.mpr ⟨mem_flatten_iff.mpr ⟨k, hat⟩, ?_⟩, by simp⟩
  rw [hnew]
  rfl

/-- **No step goes on forever.** -/
theorem step_weight {s s' : Schedule E} {a : Act E} (h : Inv s) (hs : step s a = some s') :
    s'.weight < s.weight := by
  obtain ⟨layers, log, control⟩ := s
  obtain ⟨-, hholds⟩ := h
  have hdoes : Stepped layers log control s' := step_does hs
  cases hdoes with
  | @start k layer hl =>
    show 2 * (layers.length - k) + (unfinished layers _).length
      < 2 * (layers.length - k) + 1 + (unfinished layers log).length
    rw [unfinished_start]
    omega
  | @done k hl =>
    show 0 + (unfinished layers log).length
      < 2 * (layers.length - k) + 1 + (unfinished layers log).length
    omega
  | finish outcome hmem hnew =>
    have hat : At layers _ _ := ⟨_, Log.layer hholds, hmem⟩
    exact Nat.add_lt_add_left (unfinished_finish hat hnew outcome) _
  | @failed k err herr =>
    have hk : k < layers.length := Log.bound hholds
    show 0 + (unfinished layers log).length
      < 2 * (layers.length - k) + (unfinished layers log).length
    omega
  | @joined k hall hnone =>
    have hk : k < layers.length := Log.bound hholds
    show 2 * (layers.length - (k + 1)) + 1 + (unfinished layers log).length
      < 2 * (layers.length - k) + (unfinished layers log).length
    omega

/-- the call goes on until it returns -/
theorem returned_of_stuck {s : Schedule E} (hstuck : ∀ a, step s a = none) :
    ∃ r, s.control = .returned r := by
  obtain ⟨layers, log, control⟩ := s
  cases control with
  | next k =>
    have h := hstuck .loop
    unfold step at h
    dsimp only at h
    split at h <;> cases h
  | waiting k =>
    by_cases hall : (layers.getD k []).all (isFinished log) = true
    · have h := hstuck .joined
      unfold step at h
      dsimp only at h
      rw [if_pos hall] at h
      split at h <;> cases h
    · -- a node of the layer has not finished yet
      obtain ⟨i, hi, hnot⟩ : ∃ i ∈ layers.getD k [], isFinished log i = false := by
        simpa using hall
      have h := hstuck (.finish i (.ok ()))
      unfold step at h
      dsimp only at h
      rw [if_pos ⟨hi, hnot⟩] at h
      cases h
  | returned r => exact ⟨r, rfl⟩

theorem run_inv {s s' : Schedule E} {acts : List (Act E)} (h : Inv s)
    (hr : Runs.run step s acts = some s') : Inv s' ∧ s'.layers = s.layers := by
  refine Runs.run_inv (I := fun t => Inv t ∧ t.layers = s.layers) (G := fun _ _ => True)
    (fun t a t' ht _ hs => ?_) acts s s' ⟨h, rfl⟩ (Runs.along_true acts s) hr
  obtain ⟨hinv, heq⟩ := step_inv ht.1 hs
  exact ⟨hinv, heq.trans ht.2⟩

/-- before the first layer -/
theorem inv_start (layers : List (List ℕ)) : Inv (⟨layers, [], .next 0⟩ : Schedule E) :=
  ⟨fun n i k hn => (by cases hn), Nat.zero_le _, rfl, fun j hj => (by cases hj),
    fun j err he => (by cases he)⟩

/-- the layers that are complete and those that are started -/
theorem Inv.exists_log {s : Schedule E} (h : Inv s) :
    ∃ k m, Log s.layers s.log k m ∧ k ≤ m ∧ m ≤ k + 1 := by
  obtain ⟨layers, log, control⟩ := s
  obtain ⟨-, hholds⟩ := h
  cases control with
  | next k => exact ⟨k, k, hholds, le_refl k, Nat.le_succ k⟩
  | waiting k => exact ⟨k, k + 1, hholds, Nat.le_succ k, le_refl _⟩
  | returned r =>
    cases r with
    | ok _ => exact ⟨_, _, hholds, le_refl _, Nat.le_succ _⟩
    | error _ =>
      obtain ⟨k, _, _, hlog, _⟩ := hholds
      exact ⟨k, k + 1, hlog, Nat.le_succ k, le_refl _⟩

theorem Inv.nodup_starts {s : Schedule E} (h : Inv s) (hn : s.layers.flatten.Nodup) :
    (starts s.log).Nodup := by
  obtain ⟨k, m, hlog, -⟩ := h.exists_log
  rw [hlog.starts]
  rw [← List.take_append_drop m s.layers, List.flatten_append] at hn
  exact (List.nodup_append.mp hn).1

/-- nothing is started in a later layer than a failure -/
theorem Inv.not_later {s : Schedule E} (h : Inv s) (hn : s.layers.flatten.Nodup) {i j a b : ℕ}
    {err : E} (hj : Event.finish j (.error err) ∈ s.log) (hb : At s.layers b j)
    (hi : i ∈ starts s.log) (ha : At s.layers a i) : a ≤ b := by
  obtain ⟨k, m, hlog, -, hm⟩ := h.exists_log
  obtain ⟨b', hkb, -, hb'⟩ := hlog.failed j err hj
  rw [hlog.starts] at hi
  obtain ⟨a', ham, ha'⟩ := exists_of_mem_take hi
  obtain rfl := At.unique hn hb hb'
  obtain rfl := At.unique hn ha ha'
  omega

/-- a call that is over and has seen no failure has run everything -/
theorem Inv.all_run {s : Schedule E} (h : Inv s) (hstuck : ∀ a, step s a = none)
    (hnone : ∀ j err, Event.finish j (.error err) ∉ s.log) :
    s.control = .returned (.ok ()) ∧ starts s.log = s.layers.flatten ∧
      ∀ j ∈ s.layers.flatten, Event.finish j (.ok ()) ∈ s.log := by
  obtain ⟨r, hr⟩ := returned_of_stuck hstuck
  have hholds := h.holds
  rw [hr] at hholds
  cases r with
  | ok _ =>
    have hlog : Log s.layers s.log s.layers.length s.layers.length := hholds
    have hstarts := hlog.starts
    have hcomplete := hlog.complete
    rw [List.take_length] at hstarts hcomplete
    exact ⟨hr, hstarts, hcomplete⟩
  | error _ =>
    obtain ⟨_, i, err, _, he⟩ := hholds
    exact absurd he (hnone i err)

/-! ## the layers of a graph -/

variable {g : ProblemGraph}

/-- what the layers of a graph are layers of -/
theorem topologicalLayers_layers (h : g.topologicalLayers = .ok layers) :
    ∃ es, g.edges = .ok es ∧ Layered (fun p c => (p, c) ∈ es) layers ∧
      layers.flatten.Perm (List.range g.nodes.length) := by
  unfold ProblemGraph.topologicalLayers at h
  cases hes : g.edges with
  | error e =>
    rw [hes] at h
    cases h
  | ok es =>
    obtain ⟨-, hedge⟩ := edges_ok hes
    have hbounds : ∀ e ∈ es, e.1 < g.nodes.length ∧ e.2 < g.nodes.length := by
      intro e he
      obtain ⟨x, hx, hp⟩ := (hedge e.1 e.2).mp he
      exact ⟨parents_lt hp, (List.getElem?_eq_some_iff.mp hx).1⟩
    rw [hes] at h
    change (if _ ≠ g.nodes.length then _ else _) = Except.ok layers at h
    split at h
    · cases h
    · rename_i heq
      obtain rfl := Except.ok.inj h
      have hend := Kahn.layers_end hbounds
      refine ⟨es, rfl, Kahn.layers_layered hbounds, ?_⟩
      have hnodup := hend.nodup
      rw [List.append_nil] at hnodup
      have hsub := List.subperm_of_subset hnodup fun c hc =>
        List.mem_range.mpr (hend.below c (List.mem_append_left _ hc))
      exact hsub.perm_of_length_le (by rw [List.length_range]; exact (not_not.mp heq).ge)

/-- with distinct ids a dependency names the node that has it -/
theorem index_of_mem (hids : (g.nodes.map GraphNode.id).Nodup) {p : ℕ} {y : GraphNode}
    (hy : g.nodes[p]? = some y) : g.index y.id = some p := by
  cases hp : g.index y.id with
  | none => exact absurd rfl (index_none.mp hp y (List.mem_of_getElem? hy))
  | some q =>
    obtain ⟨z, hz, hid⟩ := index_some hp
    have hlt := (List.getElem?_eq_some_iff.mp hz).1
    have hsame : (g.nodes.map GraphNode.id)[q]? = (g.nodes.map GraphNode.id)[p]? := by
      rw [List.getElem?_map, List.getElem?_map, hz, hy]
      exact congrArg some hid
    rw [(List.getElem?_inj (by rwa [List.length_map]) hids).mp hsame]

/-- what a node depends on is in an earlier layer -/
theorem dependency_before (hids : (g.nodes.map GraphNode.id).Nodup)
    (h : g.topologicalLayers = .ok layers) {i p : ℕ} {x y : GraphNode}
    (hx : g.nodes[i]? = some x) (hy : g.nodes[p]? = some y) (hdep : y.id ∈ x.dependencies)
    (hat : At layers k i) : p ∈ (layers.take k).flatten := by
  obtain ⟨es, hes, hlayered, -⟩ := topologicalLayers_layers h
  have hedge : (p, i) ∈ es :=
    ((edges_ok hes).2 p i).mpr ⟨x, hx, mem_parents.mpr ⟨y.id, hdep, index_of_mem hids hy⟩⟩
  obtain ⟨j, hj, hp⟩ := (hlayered k i hat).1 p hedge
  exact hp.mem_take hj

/-- **a graph is accepted iff it has no dangling dependency and no cycle** -/
theorem accepted_iff :
    (∃ layers, g.topologicalLayers = .ok layers) ↔
      (∀ x ∈ g.nodes, ¬ g.Dangling x) ∧ ∀ x ∈ g.nodes, ¬ TransGen g.Parent x x := by
  rw [topologicalLayers_ok_iff]
  constructor
  · intro h
    exact ⟨fun x hx => (h x hx x .refl).1, fun x hx => (h x hx x .refl).2⟩
  · intro ⟨hdangling, hcycle⟩ x hx y hxy
    have hy : y ∈ g.nodes := by
      obtain rfl | ⟨z, -, hzy⟩ := ReflTransGen.cases_tail hxy
      · exact hx
      · exact parent_mem hzy
    exact ⟨hdangling y hy, hcycle y hy⟩

/-- **scheduling a problem graph.**  The graph is accepted if and only if it has no dangling
dependency and no cycle; a call that does not accept it returns the error and starts nothing.  In
every run of a call that does, whatever the outcomes of the nodes are and in whatever order they
finish, a node is started at most once, and when all the nodes that it depends on have completed; no
node of a later layer than a failed one is started; the run is over behind a bounded number of steps,
and one without a failure has then run every node. -/
theorem schedule_dag_spec (E : Type) (g : ProblemGraph) (hids : (g.nodes.map GraphNode.id).Nodup) :
    ((∃ layers, (g.schedule : Schedule E) = ⟨layers, [], .next 0⟩) ↔
      (∀ x ∈ g.nodes, ¬ g.Dangling x) ∧ ∀ x ∈ g.nodes, ¬ TransGen g.Parent x x) ∧
    (∀ e, g.topologicalLayers = .error e →
      (g.schedule : Schedule E) = ⟨[], [], .returned (.error (.dagScheduleFailed e))⟩) ∧
    ∀ layers, (g.schedule : Schedule E) = ⟨layers, [], .next 0⟩ →
      layers.flatten.Perm (List.range g.nodes.length) ∧
      ∀ (acts : List (Act E)) (s : Schedule E), Runs.run step g.schedule acts = some s →
        (starts s.log).Nodup ∧
        (∀ n i k x p y, s.log[n]? = some (.start i k) → g.nodes[i]? = some x →
          g.nodes[p]? = some y → y.id ∈ x.dependencies →
          Event.finish p (.ok ()) ∈ s.log.take n) ∧
        (∀ i j a b err, Event.finish j (.error err) ∈ s.log → At layers b j →
          i ∈ starts s.log → At layers a i → a ≤ b) ∧
        acts.length ≤ 2 * layers.length + 1 + g.nodes.length ∧
        ((∀ a, step s a = none) → (∀ j err, Event.finish j (.error err) ∉ s.log) →
          s.control = .returned (.ok ()) ∧ ∀ i < g.nodes.length,
            i ∈ starts s.log ∧ Event.finish i (.ok ()) ∈ s.log) := by
  have hschedule : ∀ layers, (g.schedule : Schedule E) = ⟨layers, [], .next 0⟩ ↔
      g.topologicalLayers = .ok layers := by
    intro layers
    unfold ProblemGraph.schedule
    split
    · rename_i e he
      exact ⟨fun h => (by cases h), fun h => by cases he.symm.trans h⟩
    · rename_i ls hls
      rw [hls]
      simp
  refine ⟨?_, fun e he => ?_, fun layers hok => ?_⟩
  · rw [← accepted_iff]
    exact exists_congr hschedule
  · unfold ProblemGraph.schedule
    rw [he]
  · have hlayers := (hschedule layers).mp hok
    obtain ⟨-, -, -, hperm⟩ := topologicalLayers_layers hlayers
    have hn : layers.flatten.Nodup := hperm.nodup_iff.mpr List.nodup_range
    refine ⟨hperm, fun acts s hr => ?_⟩
    rw [hok] at hr
    obtain ⟨hinv, heq⟩ := run_inv (inv_start layers) hr
    change s.layers = layers at heq
    subst heq
    refine ⟨hinv.nodup_starts hn, ?_, fun i j a b err hj hb hi ha => hinv.not_later hn hj hb hi ha,
      ?_, fun hstuck hnone => ?_⟩
    · intro n i k x p y hstart hx hy hdep
      obtain ⟨hat, hbefore⟩ := hinv.ordered n i k hstart
      exact hbefore p (dependency_before hids hlayers hx hy hdep hat)
    · have hlength := Runs.run_length (I := Inv) (w := Schedule.weight)
        (fun t a t' ht hs => ⟨(step_inv ht hs).1, step_weight ht hs⟩) acts _ _
        (inv_start s.layers) hr
      have hcount : (unfinished s.layers ([] : List (Event E))).length ≤ g.nodes.length := by
        refine (List.length_filter_le _ _).trans ?_
        rw [hperm.length_eq, List.length_range]
      have hweight : Schedule.weight (⟨s.layers, [], .next 0⟩ : Schedule E)
          = 2 * s.layers.length + 1 + (unfinished s.layers ([] : List (Event E))).length := rfl
      omega
    · obtain ⟨hcontrol, hstarts, hcomplete⟩ := hinv.all_run hstuck hnone
      refine ⟨hcontrol, fun i hi => ?_⟩
      have hmem : i ∈ s.layers.flatten := hperm.mem_iff.mpr (List.mem_range.mpr hi)
      exact ⟨hstarts ▸ hmem, hcomplete i hmem⟩

/-- a dependency that is named twice -/
theorem schedule_dag_spec_pair :
    (∃ layers, (ProblemGraph.schedule ⟨[⟨"b", ["a", "a"]⟩, ⟨"a", []⟩]⟩ : Schedule Unit)
        = ⟨layers, [], .next 0⟩) ↔
      (∀ x ∈ [⟨"b", ["a", "a"]⟩, ⟨"a", []⟩],
        ¬ ProblemGraph.Dangling ⟨[⟨"b", ["a", "a"]⟩, ⟨"a", []⟩]⟩ x) ∧
      ∀ x ∈ [⟨"b", ["a", "a"]⟩, ⟨"a", []⟩],
        ¬ TransGen (ProblemGraph.Parent ⟨[⟨"b", ["a", "a"]⟩, ⟨"a", []⟩]⟩) x x :=
  (schedule_dag_spec Unit ⟨[⟨"b", ["a", "a"]⟩, ⟨"a", []⟩]⟩ (by decide)).1

end

end Moagan.Decompose
