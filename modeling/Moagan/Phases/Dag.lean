import Moagan.Lib.Grounded
import Moagan.Lib.Kahn
import Moagan.Lib.Layers

/-!
# The layers of the phase DAG (`src/phases/dag.rs`)

* `PhaseGraph`            phases and edges; an edge may be there more than once, or lead to itself
* `topologicalLayers`     Kahn's algorithm on a map of in-degrees, with the error of a cycle
* `keyed`                 the map behind some layers: the nodes that are left, and their degrees
* `Placing`               what holds between two layers
* `placeLayers_placing`   the loop ends, and the same holds then
* `topologicalLayers_spec`   the layers are those of the longest paths; the error names what a cycle
                             leads to
-/

namespace Moagan.Dag

open Grounds Layering Relation

inductive PhaseId where
  | intake | clarify | route | decompose | thesis | propose | validate | clusterProposals
  | synthesize | gate | critique | repair | judge | adversary | rank | deliver
deriving DecidableEq, Repr

def PhaseId.asStr : PhaseId → String
  | intake => "intake"
  | clarify => "clarify"
  | route => "route"
  | decompose => "decompose"
  | thesis => "thesis"
  | propose => "propose"
  | validate => "validate"
  | clusterProposals => "cluster_proposals"
  | synthesize => "synthesize"
  | gate => "gate"
  | critique => "critique"
  | repair => "repair"
  | judge => "judge"
  | adversary => "adversary"
  | rank => "rank"
  | deliver => "deliver"

inductive EdgeKind where
  | data | order
deriving DecidableEq, Repr

structure Edge where
  source : ℕ
  target : ℕ
  weight : EdgeKind
deriving DecidableEq, Repr

structure PhaseGraph where
  nodes : List PhaseId
  edges : List Edge
  bounded : ∀ e ∈ edges, e.source < nodes.length ∧ e.target < nodes.length

inductive Error where
  | invalidState (message : String)
deriving DecidableEq, Repr

/-- `neighbors_directed(node, Outgoing)`: a neighbour for every edge, the newest first -/
def PhaseGraph.outgoing (g : PhaseGraph) (node : ℕ) : List ℕ :=
  (g.edges.reverse.filter fun e => e.source = node).map (·.target)

/-- `neighbors_directed(node, Incoming)` -/
def PhaseGraph.incoming (g : PhaseGraph) (node : ℕ) : List ℕ :=
  (g.edges.reverse.filter fun e => e.target = node).map (·.source)

/-! ## the loop -/

/-- `HashMap<NodeIndex, usize>` -/
abbrev InDegree := ℕ → Option ℕ

/-- each of the successors loses an edge; with those that are left without one -/
def strikeSuccs (inDegree : InDegree) : List ℕ → InDegree × List ℕ
  | [] => (inDegree, [])
  | succ :: succs =>
    match inDegree succ with
    | none => strikeSuccs inDegree succs
    | some deg =>
      let r := strikeSuccs (Function.update inDegree succ (some (deg - 1))) succs
      (r.1, if deg - 1 = 0 then succ :: r.2 else r.2)

/-- the nodes of a layer are removed from the map one after the other -/
def PhaseGraph.placeLayer (g : PhaseGraph) (inDegree : InDegree) : List ℕ → InDegree × List ℕ
  | [] => (inDegree, [])
  | node :: nodes =>
    let struck := strikeSuccs (Function.update inDegree node none) (g.outgoing node)
    let r := g.placeLayer struck.1 nodes
    (r.1, struck.2 ++ r.2)

structure Progress where
  inDegree : InDegree
  layers : List (List ℕ)
  placed : ℕ

/-- the `while` loop; `none` when it is not over behind this many rounds -/
def PhaseGraph.placeLayers (g : PhaseGraph) : ℕ → Progress → List ℕ → Option Progress
  | 0, _, _ => none
  | rounds + 1, s, currentLayer =>
    if currentLayer.isEmpty then some s
    else
      let r := g.placeLayer s.inDegree currentLayer
      g.placeLayers rounds
        ⟨r.1, s.layers ++ [currentLayer], s.placed + currentLayer.length⟩
        (r.2.mergeSort (· ≤ ·))

def PhaseGraph.inDegrees (g : PhaseGraph) : InDegree :=
  fun node => if node < g.nodes.length then some (g.incoming node).length else none

/-- the loop from the first layer on; `order` is the one in which the map iterates -/
def PhaseGraph.place (g : PhaseGraph) (order : List ℕ) : Option Progress :=
  let currentLayer := order.filter fun node => g.inDegrees node = some 0
  g.placeLayers (g.nodes.length + 1) ⟨g.inDegrees, [], 0⟩ (currentLayer.mergeSort (· ≤ ·))

def PhaseGraph.nameAt (g : PhaseGraph) (node : ℕ) : Option String :=
  g.nodes[node]?.map PhaseId.asStr

def PhaseGraph.stuckAt (g : PhaseGraph) (stuck : List ℕ) : Error :=
  .invalidState ("phase DAG is not a DAG (cycle suspected); stuck at: ["
    ++ ", ".intercalate (stuck.filterMap g.nameAt) ++ "]")

/-- the layers when all nodes are placed, else the nodes that the map still holds -/
def PhaseGraph.finish (g : PhaseGraph) (s : Progress) : Except Error (List (List ℕ)) :=
  if s.placed < g.nodes.length then
    .error (g.stuckAt ((List.range g.nodes.length).filter fun node => (s.inDegree node).isSome))
  else .ok s.layers

def PhaseGraph.topologicalLayers (g : PhaseGraph) (order : List ℕ) :
    Option (Except Error (List (List ℕ))) :=
  (g.place order).map g.finish

/-! ## edges -/

section
variable (g : PhaseGraph)

/-- the edges as pairs of a parent and a child, the newest first -/
def PhaseGraph.pairs : List (ℕ × ℕ) := g.edges.reverse.map fun e => (e.source, e.target)

def PhaseGraph.Leads (u v : ℕ) : Prop := ∃ e ∈ g.edges, e.source = u ∧ e.target = v

def PhaseGraph.Acyclic : Prop := ∀ v, ¬ TransGen g.Leads v v

variable {g}

theorem mem_pairs {u v : ℕ} : (u, v) ∈ g.pairs ↔ g.Leads u v := by
  simp [PhaseGraph.pairs, PhaseGraph.Leads]

theorem leads_eq : (fun p c => (p, c) ∈ g.pairs) = g.Leads := by
  funext p c
  exact propext mem_pairs

theorem pairs_lt : ∀ e ∈ g.pairs, e.1 < g.nodes.length ∧ e.2 < g.nodes.length := by
  intro ⟨u, v⟩ he
  obtain ⟨e, hmem, rfl, rfl⟩ := mem_pairs.mp he
  exact g.bounded e hmem

theorem children_pairs (node : ℕ) : Kahn.children g.pairs node = g.outgoing node := by
  unfold Kahn.children PhaseGraph.pairs PhaseGraph.outgoing
  rw [List.filter_map, List.map_map]
  rfl

theorem inDegree_pairs (node : ℕ) : Kahn.inDegree g.pairs node = (g.incoming node).length := by
  unfold Kahn.inDegree PhaseGraph.pairs PhaseGraph.incoming
  rw [List.filter_map, List.length_map, List.length_map]
  rfl

theorem leads_lt {u v : ℕ} (h : g.Leads u v) : u < g.nodes.length ∧ v < g.nodes.length :=
  pairs_lt _ (mem_pairs.mpr h)

/-! ## the map of degrees -/

/-- the map behind some layers: the nodes that are left, and their degrees -/
def keyed (n : ℕ) (removed : List ℕ) (deg : ℕ → ℕ) : InDegree :=
  fun c => if c < n ∧ c ∉ removed then some (deg c) else none

variable {n : ℕ} {removed : List ℕ} {deg : ℕ → ℕ}

theorem keyed_of_left {c : ℕ} (hc : c < n) (hr : c ∉ removed) :
    keyed n removed deg c = some (deg c) := if_pos ⟨hc, hr⟩

theorem keyed_isSome {c : ℕ} : (keyed n removed deg c).isSome = true ↔ c < n ∧ c ∉ removed := by
  unfold keyed
  split <;> simp_all

theorem update_keyed {c k : ℕ} (hc : c < n) (hr : c ∉ removed) :
    Function.update (keyed n removed deg) c (some k)
      = keyed n removed (Function.update deg c k) := by
  funext d
  by_cases hd : d = c
  · subst hd
    rw [Function.update_self, keyed_of_left hc hr, Function.update_self]
  · rw [Function.update_of_ne hd]
    unfold keyed
    rw [Function.update_of_ne hd]

theorem remove_keyed (node : ℕ) :
    Function.update (keyed n removed deg) node none = keyed n (removed ++ [node]) deg := by
  funext d
  by_cases hd : d = node
  · subst hd
    rw [Function.update_self]
    exact (if_neg fun h => h.2 (by simp)).symm
  · rw [Function.update_of_ne hd]
    exact if_congr (by simp [hd]) rfl rfl

/-- **The successors that are left are struck as on numbers.** -/
theorem strikeSuccs_keyed (succs : List ℕ) : ∀ deg : ℕ → ℕ, (∀ c ∈ succs, c < n ∧ c ∉ removed) →
    strikeSuccs (keyed n removed deg) succs
      = (keyed n removed (Kahn.strike deg succs).1, (Kahn.strike deg succs).2) := by
  induction succs with
  | nil => exact fun deg _ => rfl
  | cons c succs ih =>
    intro deg hleft
    obtain ⟨hc, hr⟩ := hleft c List.mem_cons_self
    unfold strikeSuccs
    rw [keyed_of_left hc hr]
    dsimp only
    rw [update_keyed hc hr, ih _ fun d hd => hleft d (List.mem_cons_of_mem _ hd)]
    rfl

/-- **A layer is placed as it is struck**, when no edge leads back. -/
theorem placeLayer_keyed (layer : List ℕ) : ∀ (removed : List ℕ) (deg : ℕ → ℕ),
    (∀ p ∈ layer, ∀ c, (p, c) ∈ g.pairs → c ∉ removed ++ layer) →
    g.placeLayer (keyed g.nodes.length removed deg) layer
      = (keyed g.nodes.length (removed ++ layer)
          (Kahn.strike deg (layer.flatMap (Kahn.children g.pairs))).1,
        (Kahn.strike deg (layer.flatMap (Kahn.children g.pairs))).2) := by
  induction layer with
  | nil =>
    intro removed deg _
    rw [List.append_nil]
    rfl
  | cons node layer ih =>
    intro removed deg hforth
    have hassoc : removed ++ node :: layer = removed ++ [node] ++ layer := by simp
    have hsuccs : ∀ c ∈ Kahn.children g.pairs node,
        c < g.nodes.length ∧ c ∉ removed ++ [node] := by
      intro c hc
      obtain ⟨⟨p, d⟩, he, rfl⟩ := List.mem_map.mp hc
      obtain ⟨hpair, hp⟩ := List.mem_filter.mp he
      obtain rfl : p = node := of_decide_eq_true hp
      refine ⟨(pairs_lt _ hpair).2, fun hin => ?_⟩
      refine hforth p List.mem_cons_self d hpair ?_
      rw [hassoc]
      exact List.mem_append_left _ hin
    rw [hassoc] at hforth ⊢
    unfold PhaseGraph.placeLayer
    rw [remove_keyed, ← children_pairs, strikeSuccs_keyed _ deg hsuccs]
    dsimp only
    rw [ih (removed ++ [node]) _ fun p hp => hforth p (List.mem_cons_of_mem _ hp),
      List.flatMap_cons, Kahn.strike_append]

/-! ## between two layers -/

/-- the layers so far are in order, and `currentLayer` is the next one -/
structure Placing (g : PhaseGraph) (s : Progress) (deg : ℕ → ℕ) (currentLayer : List ℕ) : Prop where
  stage : Kahn.Stage g.pairs g.nodes.length s.layers.flatten deg currentLayer
  inDegree : s.inDegree = keyed g.nodes.length s.layers.flatten deg
  placed : s.placed = s.layers.flatten.length
  layered : Layered g.Leads s.layers
  next : Next g.Leads s.layers currentLayer

variable {s : Progress} {currentLayer : List ℕ}

theorem Placing.placed_le (h : Placing g s deg currentLayer) :
    s.placed + currentLayer.length ≤ g.nodes.length := by
  have hsub : (s.layers.flatten ++ currentLayer).Subperm (List.range g.nodes.length) :=
    List.subperm_of_subset h.stage.nodup fun c hc => List.mem_range.mpr (h.stage.below c hc)
  have := hsub.length_le
  rwa [List.length_append, List.length_range, ← h.placed] at this

/-- no edge leads from the next layer to it, or back -/
theorem Placing.forth (h : Placing g s deg currentLayer) :
    ∀ p ∈ currentLayer, ∀ c, (p, c) ∈ g.pairs → c ∉ s.layers.flatten ++ currentLayer := by
  intro p hp c he hc
  have hdone := (h.stage.ready c (pairs_lt _ he).2).mp hc p he
  exact (List.nodup_append.mp h.stage.nodup).2.2 p hdone p hp rfl

/-- **What one round of the loop keeps.** -/
theorem Placing.round (h : Placing g s deg currentLayer) :
    Placing g
      ⟨(g.placeLayer s.inDegree currentLayer).1, s.layers ++ [currentLayer],
        s.placed + currentLayer.length⟩
      (Kahn.strike deg (currentLayer.flatMap (Kahn.children g.pairs))).1
      ((g.placeLayer s.inDegree currentLayer).2.mergeSort (· ≤ ·)) := by
  have hflat : (s.layers ++ [currentLayer]).flatten = s.layers.flatten ++ currentLayer := by simp
  rw [h.inDegree, placeLayer_keyed currentLayer _ deg h.forth]
  have hperm := List.mergeSort_perm
    (Kahn.strike deg (currentLayer.flatMap (Kahn.children g.pairs))).2 (· ≤ ·)
  refine ⟨?_, ?_, ?_, h.layered.snoc h.next, ?_⟩
  · show Kahn.Stage g.pairs _ (s.layers ++ [currentLayer]).flatten _ _
    rw [hflat]
    exact (h.stage.strike pairs_lt).perm hperm
  · rw [hflat]
  · rw [hflat, List.length_append, h.placed]
  · rw [← leads_eq]
    exact h.stage.next hperm

/-- **The loop ends, and the same holds then.** -/
theorem placeLayers_placing (rounds : ℕ) : ∀ (s : Progress) (deg : ℕ → ℕ) (currentLayer : List ℕ),
    Placing g s deg currentLayer → g.nodes.length < rounds + s.placed →
    ∃ s' deg', g.placeLayers rounds s currentLayer = some s' ∧ Placing g s' deg' [] := by
  induction rounds with
  | zero =>
    intro s deg currentLayer h hr
    have := h.placed_le
    omega
  | succ rounds ih =>
    intro s deg currentLayer h hr
    unfold PhaseGraph.placeLayers
    cases currentLayer with
    | nil => exact ⟨s, deg, rfl, h⟩
    | cons node nodes =>
      refine ih _ _ _ h.round ?_
      show g.nodes.length < rounds + (s.placed + (nodes.length + 1))
      omega

/-- the first layer -/
theorem place_start {order : List ℕ} (h : order.Perm (List.range g.nodes.length)) :
    Placing g ⟨g.inDegrees, [], 0⟩ (Kahn.inDegree g.pairs)
      ((order.filter fun node => g.inDegrees node = some 0).mergeSort (· ≤ ·)) := by
  have hdeg : g.inDegrees = keyed g.nodes.length [] (Kahn.inDegree g.pairs) := by
    funext c
    unfold PhaseGraph.inDegrees keyed
    rw [inDegree_pairs]
    exact if_congr (by simp) rfl rfl
  have hroots : (order.filter fun node => g.inDegrees node = some 0).Perm
      (Kahn.start g.pairs g.nodes.length) := by
    refine (h.filter _).trans (List.Perm.of_eq ?_)
    refine List.filter_congr fun c hc => ?_
    have hlt := List.mem_range.mp hc
    rw [hdeg, keyed_of_left hlt List.not_mem_nil]
    simp
  have hperm := (List.mergeSort_perm _ (· ≤ ·)).trans hroots
  refine ⟨Kahn.start_stage.perm hperm, hdeg, rfl, layered_nil, ?_⟩
  rw [← leads_eq]
  exact Kahn.start_next hperm

/-! ## the result -/

/-- what no cycle leads to -/
theorem acc_iff {v : ℕ} :
    Acc g.Leads v ↔ ¬ ∃ u, TransGen g.Leads u u ∧ ReflTransGen g.Leads u v := by
  rw [← not_acc_iff (Set.finite_lt_nat g.nodes.length) (fun _ _ h => (leads_lt h).1), not_not]

/-- a cycle is one of nodes -/
theorem acyclic_iff : g.Acyclic ↔ ∀ v < g.nodes.length, Acc g.Leads v := by
  constructor
  · intro h v _
    exact acc_iff.mpr fun ⟨u, hu, _⟩ => h u hu
  · intro h v hv
    obtain ⟨w, hw, -⟩ := TransGen.head'_iff.mp hv
    exact acc_iff.mp (h v (leads_lt hw).1) ⟨v, hv, .refl⟩

/-- behind the last layer: the nodes that no cycle leads to are placed -/
theorem Placing.mem_layers (h : Placing g s deg []) {v : ℕ} :
    v ∈ s.layers.flatten ↔ v < g.nodes.length ∧ Acc g.Leads v := by
  rw [h.stage.mem_done pairs_lt, leads_eq]

theorem Placing.all_placed (h : Placing g s deg []) :
    s.placed = g.nodes.length ↔ g.Acyclic := by
  rw [h.placed, h.stage.all_done pairs_lt, leads_eq, acyclic_iff]

theorem Placing.finish_ok_iff (h : Placing g s deg []) {layers : List (List ℕ)} :
    g.finish s = .ok layers ↔ g.Acyclic ∧ s.layers = layers := by
  have hle : s.placed ≤ g.nodes.length := h.placed_le
  rw [← h.all_placed]
  unfold PhaseGraph.finish
  split
  · exact ⟨fun h => (by cases h), fun h => by omega⟩
  · exact ⟨fun h => ⟨by omega, Except.ok.inj h⟩, fun h => congrArg _ h.2⟩

theorem Placing.perm_nodes (h : Placing g s deg []) (hacyclic : g.Acyclic) :
    s.layers.flatten.Perm (List.range g.nodes.length) := by
  have hnodup : s.layers.flatten.Nodup := by simpa using h.stage.nodup
  refine (List.perm_ext_iff_of_nodup hnodup List.nodup_range).mpr fun v => ?_
  rw [h.mem_layers, List.mem_range]
  exact ⟨fun hv => hv.1, fun hv => ⟨hv, acyclic_iff.mp hacyclic v hv⟩⟩

/-- the error names the nodes that are not placed, which are those that a cycle leads to -/
theorem Placing.finish_error (h : Placing g s deg []) {e : Error} (he : g.finish s = .error e) :
    ∃ stuck : List ℕ, e = g.stuckAt stuck ∧ stuck.Sublist (List.range g.nodes.length) ∧
      ∀ v, (v ∈ stuck ↔ v < g.nodes.length ∧ v ∉ s.layers.flatten) ∧
        (v ∈ stuck ↔ v < g.nodes.length ∧
          ∃ u, TransGen g.Leads u u ∧ ReflTransGen g.Leads u v) := by
  unfold PhaseGraph.finish at he
  split at he
  · obtain rfl := Except.error.inj he
    refine ⟨_, rfl, List.filter_sublist, fun v => ?_⟩
    have hmem : v ∈ (List.range g.nodes.length).filter (fun node => (s.inDegree node).isSome) ↔
        v < g.nodes.length ∧ v ∉ s.layers.flatten := by
      rw [List.mem_filter, List.mem_range, h.inDegree, keyed_isSome]
      exact ⟨fun h => h.2, fun h => ⟨h.1, h⟩⟩
    refine ⟨hmem, hmem.trans (and_congr_right fun hv => ?_)⟩
    rw [h.mem_layers, acc_iff]
    simp [hv]
  · cases he

/-- **the layers are those of the longest paths.**  In whatever order the map of in-degrees
iterates, the call returns.  It returns layers if and only if the graph is acyclic; the layers then
hold every node once, every edge leads from a layer to a later one, and the number of the layer of a
node is the length of the longest path from a source to it.  Otherwise the error names the nodes that
are in no layer, which are the ones that a cycle leads to. -/
theorem topologicalLayers_spec (g : PhaseGraph) (order : List ℕ)
    (h : order.Perm (List.range g.nodes.length)) :
    ∃ s result, g.place order = some s ∧ g.topologicalLayers order = some result ∧
      ((∃ layers, result = .ok layers) ↔ g.Acyclic) ∧
      (∀ layers, result = .ok layers →
        layers.flatten.Perm (List.range g.nodes.length) ∧
        (∀ u v i j, g.Leads u v → At layers i u → At layers j v → i < j) ∧
        ∀ i v, At layers i v → IsGreatest {k | ∃ u, Source g.Leads u ∧ Walk g.Leads k u v} i) ∧
      ∀ e, result = .error e →
        ∃ stuck : List ℕ, e = g.stuckAt stuck ∧ stuck.Sublist (List.range g.nodes.length) ∧
          ∀ v, (v ∈ stuck ↔ v < g.nodes.length ∧ v ∉ s.layers.flatten) ∧
            (v ∈ stuck ↔ v < g.nodes.length ∧
              ∃ u, TransGen g.Leads u u ∧ ReflTransGen g.Leads u v) := by
  obtain ⟨s, deg, hplace, hend⟩ := placeLayers_placing (g.nodes.length + 1) _ _ _ (place_start h)
    (Nat.lt_succ_self _)
  refine ⟨s, g.finish s, hplace, congrArg (Option.map _) hplace, ?_, fun layers hok => ?_,
    fun e he => hend.finish_error he⟩
  · constructor
    · intro ⟨layers, hok⟩
      exact (hend.finish_ok_iff.mp hok).1
    · exact fun hacyclic => ⟨s.layers, hend.finish_ok_iff.mpr ⟨hacyclic, rfl⟩⟩
  · obtain ⟨hacyclic, rfl⟩ := hend.finish_ok_iff.mp hok
    exact ⟨hend.perm_nodes hacyclic, fun u v i j hr hu hv => hend.layered.lt hu hv hr,
      fun i v hv => hend.layered.longest hv⟩

/-- a self-loop behind a parallel edge, and the map read backwards -/
theorem topologicalLayers_spec_loop :
    ∃ s result,
      PhaseGraph.topologicalLayers ⟨[.intake, .clarify, .route],
        [⟨0, 1, .data⟩, ⟨0, 1, .order⟩, ⟨1, 1, .data⟩, ⟨1, 2, .data⟩], by decide⟩ [2, 1, 0]
          = some result ∧
      PhaseGraph.place ⟨[.intake, .clarify, .route],
        [⟨0, 1, .data⟩, ⟨0, 1, .order⟩, ⟨1, 1, .data⟩, ⟨1, 2, .data⟩], by decide⟩ [2, 1, 0]
          = some s := by
  obtain ⟨s, result, hplace, hresult, -⟩ := topologicalLayers_spec ⟨[.intake, .clarify, .route],
    [⟨0, 1, .data⟩, ⟨0, 1, .order⟩, ⟨1, 1, .data⟩, ⟨1, 2, .data⟩], by decide⟩ [2, 1, 0] (by decide)
  exact ⟨s, result, hresult, hplace⟩

end

end Moagan.Dag
