import Moagan.Lib.Checks
import Moagan.Lib.Grounded
import Moagan.Lib.Kahn

/-!
# The problem graph and its layers (`src/domain/mod.rs`)

* `GraphNode`, `ProblemGraph`   the nodes, and what each of them depends on
* `topologicalLayers`           Kahn's algorithm, with the errors of a missing node and of a cycle
* `Dangling`, `Parent`          a dependency that no node has; the node that a dependency names
* `Sound`                       a node that leads to no dangling dependency and to no cycle
* `topologicalLayers_ok_iff`    the layers are accepted iff every node is sound
-/

namespace Moagan.Decompose

open Grounds

structure GraphNode where
  id : String
  dependencies : List String
deriving DecidableEq, Repr

structure ProblemGraph where
  nodes : List GraphNode
deriving DecidableEq, Repr

inductive GraphError where
  | missing (node dep : String)
  | cycle (stuck : List String)
deriving DecidableEq, Repr

/-- the position of an id; the last of the nodes with one id counts -/
def ProblemGraph.index (g : ProblemGraph) (id : String) : Option ℕ :=
  (g.nodes.zipIdx.reverse.find? fun e => e.1.id = id).map Prod.snd

def ProblemGraph.nodeEdges (g : ProblemGraph) (e : GraphNode × ℕ) :
    Except GraphError (List (ℕ × ℕ)) :=
  e.1.dependencies.mapM fun dep =>
    match g.index dep with
    | some parent => .ok (parent, e.2)
    | none => .error (.missing e.1.id dep)

/-- the edges from parent to child, as they go into `rev` and `in_degree` -/
def ProblemGraph.edges (g : ProblemGraph) : Except GraphError (List (ℕ × ℕ)) :=
  (g.nodes.zipIdx.mapM g.nodeEdges).map List.flatten

def ProblemGraph.idAt (g : ProblemGraph) (i : ℕ) : Option String := g.nodes[i]?.map GraphNode.id

def ProblemGraph.topologicalLayers (g : ProblemGraph) : Except GraphError (List (List ℕ)) := do
  let edges ← g.edges
  let n := g.nodes.length
  let (layers, inDegree) := Kahn.layers edges n (Kahn.inDegree edges) (Kahn.start edges n)
  if layers.flatten.length ≠ n then
    let stuck := ((List.range n).filter fun i => 0 < inDegree i).filterMap g.idAt
    .error (.cycle (stuck.mergeSort (· ≤ ·)).dedup)
  else .ok layers

def ProblemGraph.validateNoCycles (g : ProblemGraph) : Except GraphError Unit :=
  g.topologicalLayers.map fun _ => ()

/-! ## what a node depends on -/

/-- a dependency of the node is the id of no node -/
def ProblemGraph.Dangling (g : ProblemGraph) (x : GraphNode) : Prop :=
  ∃ d ∈ x.dependencies, ∀ m ∈ g.nodes, m.id ≠ d

/-- `y` is the node that a dependency of `x` names -/
def ProblemGraph.Parent (g : ProblemGraph) (x y : GraphNode) : Prop :=
  ∃ d ∈ x.dependencies, ∃ p, g.index d = some p ∧ g.nodes[p]? = some y

/-- the node depends on no dangling reference and on no cycle, directly or through others -/
def ProblemGraph.Sound (g : ProblemGraph) (x : GraphNode) : Prop := Clear g.Parent g.Dangling x

theorem mem_zipIdx {xs : List GraphNode} {x : GraphNode} {i : ℕ} (h : xs[i]? = some x) :
    (x, i) ∈ xs.zipIdx := List.mem_zipIdx_iff_getElem?.mpr h

theorem index_some {g : ProblemGraph} {d : String} {p : ℕ} (h : g.index d = some p) :
    ∃ m, g.nodes[p]? = some m ∧ m.id = d := by
  obtain ⟨e, he, rfl⟩ := Option.map_eq_some_iff.mp h
  have hmem := List.mem_reverse.mp (List.mem_of_find?_eq_some he)
  have hid := List.find?_some he
  exact ⟨e.1, List.mem_zipIdx_iff_getElem?.mp hmem, by simpa using hid⟩

theorem index_none {g : ProblemGraph} {d : String} :
    g.index d = none ↔ ∀ m ∈ g.nodes, m.id ≠ d := by
  unfold ProblemGraph.index
  rw [Option.map_eq_none_iff, List.find?_eq_none]
  constructor
  · intro h m hm
    obtain ⟨i, hi⟩ := List.getElem?_of_mem hm
    simpa using h (m, i) (List.mem_reverse.mpr (mem_zipIdx hi))
  · intro h e he
    have hin := List.mem_zipIdx_iff_getElem?.mp (List.mem_reverse.mp he)
    simpa using h e.1 (List.mem_of_getElem? hin)

theorem parent_mem {g : ProblemGraph} {x y : GraphNode} (h : g.Parent x y) : y ∈ g.nodes := by
  obtain ⟨_, _, _, _, hy⟩ := h
  exact List.mem_of_getElem? hy

/-- **A node is sound iff its dependencies name sound nodes.** -/
theorem sound_iff_grounded {g : ProblemGraph} {x : GraphNode} :
    g.Sound x ↔ Grounded g.Parent g.Dangling x :=
  (grounded_iff (finite_reach (List.finite_toSet g.nodes) (fun _ _ h => parent_mem h) x)).symm

/-! ## the layers -/

/-- the positions of the nodes that the dependencies name -/
def ProblemGraph.parents (g : ProblemGraph) (x : GraphNode) : List ℕ := x.dependencies.filterMap g.index

theorem mem_parents {g : ProblemGraph} {x : GraphNode} {p : ℕ} :
    p ∈ g.parents x ↔ ∃ d ∈ x.dependencies, g.index d = some p := List.mem_filterMap

theorem nodeEdges_total {g : ProblemGraph} {x : GraphNode} (h : ¬ g.Dangling x) (i : ℕ) :
    ∃ es, g.nodeEdges (x, i) = .ok es := by
  refine Checks.mapM_total fun d hd => ?_
  cases hp : g.index d with
  | none => exact absurd ⟨d, hd, index_none.mp hp⟩ h
  | some p => exact ⟨(p, i), rfl⟩

theorem nodeEdges_ok {g : ProblemGraph} {x : GraphNode} {i : ℕ} {es : List (ℕ × ℕ)}
    (h : g.nodeEdges (x, i) = .ok es) :
    ¬ g.Dangling x ∧ ∀ e, e ∈ es ↔ e.2 = i ∧ e.1 ∈ g.parents x := by
  refine ⟨fun ⟨d, hd, hno⟩ => ?_, fun e => ⟨fun he => ?_, fun ⟨hi, hp⟩ => ?_⟩⟩
  · obtain ⟨y, -, hy⟩ := Checks.forall_of_mapM h hd
    rw [index_none.mpr hno] at hy
    cases hy
  · obtain ⟨d, hd, hy⟩ := Checks.exists_of_mapM h he
    cases hp : g.index d with
    | none =>
      rw [hp] at hy
      cases hy
    | some p =>
      rw [hp] at hy
      obtain rfl := Except.ok.inj hy
      exact ⟨rfl, mem_parents.mpr ⟨d, hd, hp⟩⟩
  · obtain ⟨d, hd, hp⟩ := mem_parents.mp hp
    obtain ⟨y, hmem, hy⟩ := Checks.forall_of_mapM h hd
    rw [hp] at hy
    obtain rfl := Except.ok.inj hy
    obtain ⟨q, j⟩ := e
    obtain rfl : j = i := hi
    exact hmem

/-- **The edges are those to the parents, and there are none when a dependency is dangling.** -/
theorem edges_ok {g : ProblemGraph} {es : List (ℕ × ℕ)} (h : g.edges = .ok es) :
    (∀ x ∈ g.nodes, ¬ g.Dangling x) ∧
      ∀ p i, (p, i) ∈ es ↔ ∃ x, g.nodes[i]? = some x ∧ p ∈ g.parents x := by
  unfold ProblemGraph.edges at h
  obtain ⟨ess, hess, rfl⟩ : ∃ ess, g.nodes.zipIdx.mapM g.nodeEdges = .ok ess ∧ ess.flatten = es := by
    cases hm : g.nodes.zipIdx.mapM g.nodeEdges with
    | error e =>
      rw [hm] at h
      cases h
    | ok ess =>
      rw [hm] at h
      exact ⟨ess, rfl, Except.ok.inj h⟩
  refine ⟨fun x hx => ?_, fun p i => ⟨fun he => ?_, fun ⟨x, hx, hp⟩ => ?_⟩⟩
  · obtain ⟨i, hi⟩ := List.getElem?_of_mem hx
    obtain ⟨y, -, hy⟩ := Checks.forall_of_mapM hess (mem_zipIdx hi)
    exact (nodeEdges_ok hy).1
  · obtain ⟨y, hy, he⟩ := List.mem_flatten.mp he
    obtain ⟨⟨x, j⟩, hxj, hnode⟩ := Checks.exists_of_mapM hess hy
    obtain ⟨hj, hp⟩ := ((nodeEdges_ok hnode).2 (p, i)).mp he
    obtain rfl : i = j := hj
    exact ⟨x, List.mem_zipIdx_iff_getElem?.mp hxj, hp⟩
  · obtain ⟨y, hy, hnode⟩ := Checks.forall_of_mapM hess (mem_zipIdx hx)
    exact List.mem_flatten.mpr ⟨y, hy, ((nodeEdges_ok hnode).2 (p, i)).mpr ⟨rfl, hp⟩⟩

theorem edges_total {g : ProblemGraph} (h : ∀ x ∈ g.nodes, ¬ g.Dangling x) :
    ∃ es, g.edges = .ok es := by
  obtain ⟨ess, hess⟩ : ∃ ess, g.nodes.zipIdx.mapM g.nodeEdges = .ok ess := by
    refine Checks.mapM_total fun e he => ?_
    have hmem := List.mem_of_getElem? (List.mem_zipIdx_iff_getElem?.mp he)
    exact nodeEdges_total (h e.1 hmem) e.2
  refine ⟨ess.flatten, ?_⟩
  unfold ProblemGraph.edges
  rw [hess]
  rfl

theorem parents_lt {g : ProblemGraph} {x : GraphNode} {p : ℕ} (h : p ∈ g.parents x) :
    p < g.nodes.length := by
  obtain ⟨d, -, hp⟩ := mem_parents.mp h
  obtain ⟨m, hm, -⟩ := index_some hp
  exact (List.getElem?_eq_some_iff.mp hm).1

/-- a node and the parents of its position -/
theorem parent_iff {g : ProblemGraph} {x y : GraphNode} :
    g.Parent x y ↔ ∃ p ∈ g.parents x, g.nodes[p]? = some y := by
  constructor
  · intro ⟨d, hd, p, hp, hy⟩
    exact ⟨p, mem_parents.mpr ⟨d, hd, hp⟩, hy⟩
  · intro ⟨p, hp, hy⟩
    obtain ⟨d, hd, hp⟩ := mem_parents.mp hp
    exact ⟨d, hd, p, hp, hy⟩

theorem acc_iff_grounded {g : ProblemGraph} {es : List (ℕ × ℕ)} (h : g.edges = .ok es) {i : ℕ}
    {x : GraphNode} (hx : g.nodes[i]? = some x) :
    Acc (fun p c => (p, c) ∈ es) i ↔ Grounded g.Parent g.Dangling x := by
  obtain ⟨hno, hedge⟩ := edges_ok h
  constructor
  · intro hacc
    induction hacc generalizing x with
    | intro i _ ih =>
      refine .intro (hno x (List.mem_of_getElem? hx)) fun y hy => ?_
      obtain ⟨p, hp, hy⟩ := parent_iff.mp hy
      exact ih p ((hedge p i).mpr ⟨x, hx, hp⟩) hy
  · intro hg
    induction hg generalizing i with
    | intro _ _ ih =>
      refine ⟨i, fun p hp => ?_⟩
      obtain ⟨x', hx', hp⟩ := (hedge p i).mp hp
      obtain rfl := Option.some.inj (hx.symm.trans hx')
      have hy := List.getElem?_eq_getElem (parents_lt hp)
      exact ih _ (parent_iff.mpr ⟨p, hp, hy⟩) hy

/-- **The layers are accepted iff every node is sound.** -/
theorem topologicalLayers_ok_iff {g : ProblemGraph} :
    (∃ layers, g.topologicalLayers = .ok layers) ↔ ∀ x ∈ g.nodes, g.Sound x := by
  cases hes : g.edges with
  | error e =>
    constructor
    · intro ⟨layers, h⟩
      unfold ProblemGraph.topologicalLayers at h
      rw [hes] at h
      cases h
    · intro hall
      obtain ⟨es, h⟩ := edges_total fun x hx => (sound_iff_grounded.mp (hall x hx)).not_bad
      rw [h] at hes
      cases hes
  | ok es =>
    obtain ⟨hno, hedge⟩ := edges_ok hes
    have hbounds : ∀ e ∈ es, e.1 < g.nodes.length ∧ e.2 < g.nodes.length := by
      intro e he
      obtain ⟨x, hx, hp⟩ := (hedge e.1 e.2).mp he
      exact ⟨parents_lt hp, (List.getElem?_eq_some_iff.mp hx).1⟩
    have hlayers : (∃ layers, g.topologicalLayers = .ok layers) ↔
        (Kahn.layers es g.nodes.length (Kahn.inDegree es)
          (Kahn.start es g.nodes.length)).1.flatten.length = g.nodes.length := by
      unfold ProblemGraph.topologicalLayers
      rw [hes]
      show (∃ layers, (if _ ≠ g.nodes.length then _ else _) = Except.ok layers) ↔ _
      split
      · rename_i hne
        refine ⟨fun h => ?_, fun h => absurd h hne⟩
        obtain ⟨layers, h⟩ := h
        cases h
      · rename_i heq
        exact ⟨fun _ => not_not.mp heq, fun _ => ⟨_, rfl⟩⟩
    rw [hlayers, Kahn.layers_all hbounds]
    constructor
    · intro hacc x hx
      obtain ⟨i, hi⟩ := List.getElem?_of_mem hx
      have hlt := (List.getElem?_eq_some_iff.mp hi).1
      exact sound_iff_grounded.mpr ((acc_iff_grounded hes hi).mp (hacc i hlt))
    · intro hall i hi
      have hx := List.getElem?_eq_getElem hi
      exact (acc_iff_grounded hes hx).mpr (sound_iff_grounded.mp (hall _ (List.getElem_mem hi)))

end Moagan.Decompose
