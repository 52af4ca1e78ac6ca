import Moagan.Phases.ProblemGraph

/-!
# The repair of a problem graph (`src/phases/decompose.rs`)

* `stuckNodeIds`       the hand-written sweep for the nodes that cannot be reached
* `Tangled`            a position that leads, over other positions, to a cycle or to a node that
                       repeats a dependency
* `stuckNodeIds_eq`    the sweep finds the tangled positions
* `repair`             eight rounds that drop nodes
* `Kept`               the repaired graph is accepted, and every sound node is in it
* `Repairable`         the rounds, by what they meet: enough of them, and none that drops a sound node
* `repair_kept_iff`    the two are the same
* `repair_fails`       graphs on which the repair fails
-/

namespace Moagan.Decompose

open Grounds

/-- the parents at a position, but for the position itself, each as often as it is named -/
def ProblemGraph.others (g : ProblemGraph) (i : ℕ) : List ℕ :=
  match g.nodes[i]? with
  | some x => (g.parents x).filter (· ≠ i)
  | none => []

/-- a dependency at position `i` names the position `node` -/
def ProblemGraph.dependsOn (g : ProblemGraph) (node i : ℕ) : Bool :=
  match g.nodes[i]? with
  | some x => node ∈ g.parents x
  | none => false

structure Sweep where
  inDegree : ℕ → ℕ
  visited : List ℕ
  /-- the last element of the vector is the first one here -/
  frontier : List ℕ

def ProblemGraph.visit (g : ProblemGraph) (node : ℕ) (s : Sweep) : Sweep :=
  let hit := (List.range g.nodes.length).filter (g.dependsOn node)
  let inDegree := fun i => if i ∈ hit then s.inDegree i - 1 else s.inDegree i
  ⟨inDegree, node :: s.visited, (hit.filter fun i => inDegree i = 0).reverse ++ s.frontier⟩

def ProblemGraph.sweep (g : ProblemGraph) : ℕ → Sweep → Sweep
  | 0, s => s
  | fuel + 1, s =>
    match s.frontier with
    | [] => s
    | node :: rest =>
      if node ∈ s.visited then g.sweep fuel { s with frontier := rest }
      else g.sweep fuel (g.visit node { s with frontier := rest })

def ProblemGraph.firstSweep (g : ProblemGraph) : Sweep where
  inDegree i := (g.others i).length
  visited := []
  frontier := ((List.range g.nodes.length).filter fun i => (g.others i).length = 0).reverse

/-- every pop takes one of the positions of the first frontier or of those that a visit pushes -/
def ProblemGraph.swept (g : ProblemGraph) : Sweep :=
  g.sweep (g.nodes.length + g.nodes.length * g.nodes.length) g.firstSweep

def ProblemGraph.stuckNodeIds (g : ProblemGraph) : List String :=
  ((List.range g.nodes.length).filter fun i =>
    i ∉ g.swept.visited ∧ 0 < g.swept.inDegree i).filterMap g.idAt

/-- the nodes whose dependencies are all the id of a node -/
def ProblemGraph.dropDangling (g : ProblemGraph) : ProblemGraph :=
  ⟨g.nodes.filter fun x => x.dependencies.all fun d => g.nodes.any fun m => m.id = d⟩

def ProblemGraph.dropId (g : ProblemGraph) (id : String) : ProblemGraph :=
  ⟨g.nodes.filter fun x => x.id ≠ id⟩

def ProblemGraph.repairRounds : ℕ → ProblemGraph → ProblemGraph
  | 0, g => g
  | rounds + 1, g =>
    if g.dropDangling.nodes.length ≠ g.nodes.length then repairRounds rounds g.dropDangling
    else if g.validateNoCycles.isOk then g
    else
      match g.stuckNodeIds with
      | first :: _ => repairRounds rounds (g.dropId first)
      | [] => g

def ProblemGraph.repair (g : ProblemGraph) : Option ProblemGraph :=
  if (repairRounds 8 g).nodes.isEmpty then none else some (repairRounds 8 g)

/-! ## what the sweep reaches -/

/-- the position leads, over other positions, to no cycle and to no node that repeats a
dependency -/
def ProblemGraph.Free (g : ProblemGraph) (i : ℕ) : Prop :=
  Clear (fun i p => p ∈ g.others i) (fun i => ¬ (g.others i).Nodup) i

def ProblemGraph.Tangled (g : ProblemGraph) (i : ℕ) : Prop := ¬ g.Free i

section
variable {g : ProblemGraph}

theorem others_lt {i p : ℕ} (h : p ∈ g.others i) : p < g.nodes.length := by
  unfold ProblemGraph.others at h
  split at h
  · exact parents_lt (List.mem_filter.mp h).1
  · cases h

theorem mem_others {i p : ℕ} : p ∈ g.others i ↔ g.dependsOn p i = true ∧ p ≠ i := by
  unfold ProblemGraph.others ProblemGraph.dependsOn
  split
  · rw [List.mem_filter, decide_eq_true_eq, decide_eq_true_eq]
  · exact ⟨nofun, fun h => nomatch h.1⟩

theorem free_iff_grounded {i : ℕ} : g.Free i ↔
    Grounded (fun i p => p ∈ g.others i) (fun i => ¬ (g.others i).Nodup) i :=
  (grounded_iff (finite_reach (Set.finite_lt_nat g.nodes.length) (fun _ _ h => others_lt h) i)).symm

theorem free_iff {i : ℕ} : g.Free i ↔ (g.others i).Nodup ∧ ∀ p ∈ g.others i, g.Free p := by
  simp only [free_iff_grounded]
  constructor
  · intro h
    exact ⟨not_not.mp h.not_bad, fun p hp => h.dep hp⟩
  · intro h
    exact .intro (not_not.mpr h.1) h.2

/-- the visited positions that a dependency at `i` names -/
def ProblemGraph.hits (g : ProblemGraph) (visited : List ℕ) (i : ℕ) : List ℕ :=
  visited.filter fun p => g.dependsOn p i

/-- what holds before and after every pop -/
structure Swept (g : ProblemGraph) (s : Sweep) : Prop where
  nodup : s.visited.Nodup
  below : ∀ i ∈ s.visited ++ s.frontier, i < g.nodes.length
  free : ∀ i ∈ s.visited ++ s.frontier, g.Free i
  deg : ∀ i < g.nodes.length, s.inDegree i = (g.others i).length - (g.hits s.visited i).length
  ready : ∀ i < g.nodes.length, s.inDegree i = 0 → i ∈ s.visited ++ s.frontier

theorem firstSweep_swept : Swept g g.firstSweep := by
  have hmem : ∀ i, i ∈ g.firstSweep.frontier ↔ i < g.nodes.length ∧ (g.others i).length = 0 := by
    intro i
    show i ∈ ((List.range g.nodes.length).filter _).reverse ↔ _
    rw [List.mem_reverse, List.mem_filter, List.mem_range, decide_eq_true_eq]
  refine ⟨List.nodup_nil, fun i hi => ((hmem i).mp hi).1, fun i hi => ?_, fun i _ => rfl,
    fun i hi h0 => (hmem i).mpr ⟨hi, h0⟩⟩
  have hnil := List.length_eq_zero_iff.mp ((hmem i).mp hi).2
  refine free_iff.mpr ?_
  rw [hnil]
  exact ⟨List.nodup_nil, nofun⟩

/-- a position whose other parents are as many as its hits is free -/
theorem free_of_hits {visited : List ℕ} (hnodup : visited.Nodup) (hfree : ∀ p ∈ visited, g.Free p)
    {i : ℕ} (hi : i ∉ visited) (hle : (g.others i).length ≤ (g.hits visited i).length) : g.Free i := by
  have hhits : (g.hits visited i).Nodup := hnodup.filter _
  have hsub : (g.hits visited i).Subperm (g.others i) := by
    refine List.subperm_of_subset hhits fun p hp => ?_
    obtain ⟨hv, hd⟩ := List.mem_filter.mp hp
    exact mem_others.mpr ⟨hd, fun heq => hi (heq ▸ hv)⟩
  have hperm := hsub.perm_of_length_le hle
  refine free_iff.mpr ⟨hperm.nodup_iff.mp hhits, fun p hp => ?_⟩
  exact hfree p (List.mem_filter.mp (hperm.mem_iff.mpr hp)).1

theorem hits_cons (visited : List ℕ) (node i : ℕ) : (g.hits (node :: visited) i).length =
    (g.hits visited i).length + if g.dependsOn node i then 1 else 0 := by
  unfold ProblemGraph.hits
  rw [List.filter_cons]
  split <;> rfl

theorem Swept.visit {s : Sweep} {node : ℕ} {rest : List ℕ} (h : Swept g s)
    (hf : s.frontier = node :: rest) (hnew : node ∉ s.visited) :
    Swept g (g.visit node { s with frontier := rest }) := by
  have hin : ∀ i, i ∈ s.visited ++ s.frontier ↔ i ∈ (node :: s.visited) ++ rest := by
    intro i
    rw [hf]
    simp only [List.mem_append, List.mem_cons]
    tauto
  have hhit : ∀ i, i ∈ (List.range g.nodes.length).filter (g.dependsOn node) ↔
      i < g.nodes.length ∧ g.dependsOn node i = true := by
    intro i
    rw [List.mem_filter, List.mem_range]
  have hdeg : ∀ i < g.nodes.length, (g.visit node { s with frontier := rest }).inDegree i =
      (g.others i).length - (g.hits (node :: s.visited) i).length := by
    intro i hi
    show (if i ∈ (List.range g.nodes.length).filter (g.dependsOn node) then s.inDegree i - 1
      else s.inDegree i) = _
    rw [h.deg i hi, hits_cons]
    by_cases hd : g.dependsOn node i = true
    · rw [if_pos ((hhit i).mpr ⟨hi, hd⟩), if_pos hd]
      omega
    · rw [if_neg fun hmem => hd ((hhit i).mp hmem).2, if_neg hd, Nat.add_zero]
  have hnodup : (node :: s.visited).Nodup := List.nodup_cons.mpr ⟨hnew, h.nodup⟩
  have hfree : ∀ p ∈ node :: s.visited, g.Free p :=
    fun p hp => h.free p ((hin p).mpr (List.mem_append_left _ hp))
  have hmem : ∀ i, i ∈ (g.visit node { s with frontier := rest }).visited ++
      (g.visit node { s with frontier := rest }).frontier ↔ i ∈ s.visited ++ s.frontier ∨
      (i < g.nodes.length ∧ g.dependsOn node i = true ∧
        (g.visit node { s with frontier := rest }).inDegree i = 0) := by
    intro i
    rw [hin]
    show i ∈ (node :: s.visited) ++ ((((List.range g.nodes.length).filter (g.dependsOn node)).filter
      fun i => (g.visit node { s with frontier := rest }).inDegree i = 0).reverse ++ rest) ↔ _
    rw [List.mem_append, List.mem_append, List.mem_reverse, List.mem_filter, hhit, decide_eq_true_eq,
      List.mem_append]
    tauto
  refine ⟨hnodup, fun i hi => ?_, fun i hi => ?_, hdeg, fun i hi h0 => ?_⟩
  · obtain hold | hpush := (hmem i).mp hi
    · exact h.below i hold
    · exact hpush.1
  · obtain hold | ⟨hlt, hd, h0⟩ := (hmem i).mp hi
    · exact h.free i hold
    · by_cases hv : i ∈ node :: s.visited
      · exact hfree i hv
      · rw [hdeg i hlt] at h0
        exact free_of_hits hnodup hfree hv (by omega)
  · refine (hmem i).mpr ?_
    by_cases hd : g.dependsOn node i = true
    · exact Or.inr ⟨hi, hd, h0⟩
    · refine Or.inl (h.ready i hi ?_)
      rw [hdeg i hi, hits_cons, if_neg hd] at h0
      rw [h.deg i hi]
      exact h0

/-- **The sweep ends with an empty frontier.** -/
theorem sweep_swept (fuel : ℕ) : ∀ s : Sweep, Swept g s →
    s.frontier.length + g.nodes.length * (g.nodes.length - s.visited.length) ≤ fuel →
    Swept g (g.sweep fuel s) ∧ (g.sweep fuel s).frontier = [] := by
  induction fuel with
  | zero =>
    intro s h hle
    exact ⟨h, List.length_eq_zero_iff.mp (show s.frontier.length = 0 by omega)⟩
  | succ fuel ih =>
    intro s h hle
    unfold ProblemGraph.sweep
    split
    · rename_i hnil
      exact ⟨h, hnil⟩
    · rename_i node rest hf
      have hlen : s.frontier.length = rest.length + 1 := by
        rw [hf, List.length_cons]
      split
      · rename_i hold
        have hmem : ∀ i, i ∈ s.visited ++ s.frontier ↔ i ∈ s.visited ++ rest := by
          intro i
          rw [hf]
          simp only [List.mem_append, List.mem_cons]
          constructor
          · rintro (hi | rfl | hi)
            · exact Or.inl hi
            · exact Or.inl hold
            · exact Or.inr hi
          · tauto
        refine ih _ ⟨h.nodup, fun i hi => h.below i ((hmem i).mpr hi),
          fun i hi => h.free i ((hmem i).mpr hi), h.deg,
          fun i hi h0 => (hmem i).mp (h.ready i hi h0)⟩ ?_
        show rest.length + g.nodes.length * (g.nodes.length - s.visited.length) ≤ fuel
        omega
      · rename_i hnew
        have hvisit := h.visit hf hnew
        refine ih _ hvisit ?_
        have hpushed : (g.visit node { s with frontier := rest }).frontier.length ≤
            g.nodes.length + rest.length := by
          show ((((List.range g.nodes.length).filter (g.dependsOn node)).filter _).reverse ++
            rest).length ≤ _
          rw [List.length_append, List.length_reverse]
          have h1 := List.length_filter_le
            (fun i => decide ((g.visit node { s with frontier := rest }).inDegree i = 0))
            ((List.range g.nodes.length).filter (g.dependsOn node))
          have h2 := List.length_filter_le (g.dependsOn node) (List.range g.nodes.length)
          rw [List.length_range] at h2
          exact Nat.add_le_add_right (h1.trans h2) _
        have hvisited : (g.visit node { s with frontier := rest }).visited.length =
            s.visited.length + 1 := rfl
        have hbound : s.visited.length + 1 ≤ g.nodes.length := by
          have hsub : (g.visit node { s with frontier := rest }).visited.Subperm
              (List.range g.nodes.length) :=
            List.subperm_of_subset hvisit.nodup fun i hi =>
              List.mem_range.mpr (hvisit.below i (List.mem_append_left _ hi))
          have := hsub.length_le
          rwa [List.length_range] at this
        have hsplit : g.nodes.length - s.visited.length =
            (g.nodes.length - (s.visited.length + 1)) + 1 := by omega
        rw [hsplit, Nat.mul_succ] at hle
        rw [hvisited]
        omega

/-- **The sweep visits the free positions, and no other one is left without edges.** -/
theorem swept_visited {i : ℕ} (hi : i < g.nodes.length) :
    (i ∈ g.swept.visited ↔ g.Free i) ∧ (g.swept.inDegree i = 0 → i ∈ g.swept.visited) := by
  have hstart : g.firstSweep.frontier.length +
      g.nodes.length * (g.nodes.length - g.firstSweep.visited.length) ≤
      g.nodes.length + g.nodes.length * g.nodes.length := by
    have := List.length_filter_le (fun i => decide ((g.others i).length = 0))
      (List.range g.nodes.length)
    rw [List.length_range, ← List.length_reverse] at this
    exact Nat.add_le_add_right this _
  have hend : Swept g g.swept ∧ g.swept.frontier = [] := sweep_swept _ _ firstSweep_swept hstart
  obtain ⟨h, hnil⟩ := hend
  have hready : ∀ i < g.nodes.length, g.swept.inDegree i = 0 → i ∈ g.swept.visited := by
    intro i hi h0
    have := h.ready i hi h0
    rwa [hnil, List.append_nil] at this
  refine ⟨⟨fun hv => h.free i (List.mem_append_left _ hv), fun hfree => ?_⟩, hready i hi⟩
  rw [free_iff_grounded] at hfree
  induction hfree with
  | @intro i hbad _ ih =>
    -- all other parents are visited, so every edge from them was struck
    have hsub : (g.others i).Subperm (g.hits g.swept.visited i) := by
      refine List.subperm_of_subset (not_not.mp hbad) fun p hp => ?_
      exact List.mem_filter.mpr ⟨ih p hp (others_lt hp), (mem_others.mp hp).1⟩
    refine hready i hi ?_
    rw [h.deg i hi]
    exact Nat.sub_eq_zero_of_le hsub.length_le

open Classical in
/-- **The sweep finds the tangled positions, in their order.** -/
theorem stuckNodeIds_eq :
    g.stuckNodeIds = ((List.range g.nodes.length).filter fun i => g.Tangled i).filterMap g.idAt := by
  unfold ProblemGraph.stuckNodeIds
  congr 1
  refine List.filter_congr fun i hi => ?_
  obtain ⟨hvisited, hready⟩ := swept_visited (List.mem_range.mp hi)
  rw [decide_eq_decide, hvisited]
  refine ⟨fun hs => hs.1, fun ht => ⟨ht, Nat.pos_of_ne_zero fun h0 => ?_⟩⟩
  exact ht (hvisited.mp (hready h0))

theorem stuckNodeIds_nil : g.stuckNodeIds = [] ↔ ∀ i < g.nodes.length, g.Free i := by
  classical
  rw [stuckNodeIds_eq, List.filterMap_eq_nil_iff]
  constructor
  · intro h i hi
    by_contra hfree
    have hid := h i (List.mem_filter.mpr ⟨List.mem_range.mpr hi, decide_eq_true hfree⟩)
    unfold ProblemGraph.idAt at hid
    rw [List.getElem?_eq_getElem hi] at hid
    cases hid
  · intro h i hi
    obtain ⟨hlt, ht⟩ := List.mem_filter.mp hi
    have htangled : g.Tangled i := by simpa using ht
    exact absurd (h i (List.mem_range.mp hlt)) htangled

/-- the first of the stuck ids is that of the first tangled position -/
theorem stuckNodeIds_cons {first : String} {rest : List String}
    (h : g.stuckNodeIds = first :: rest) :
    ∃ i x, g.nodes[i]? = some x ∧ x.id = first ∧ g.Tangled i ∧ ∀ j < i, ¬ g.Tangled j := by
  classical
  rw [stuckNodeIds_eq] at h
  cases hf : (List.range g.nodes.length).filter fun i => g.Tangled i with
  | nil =>
    rw [hf] at h
    cases h
  | cons i is =>
    have hfind : (List.range g.nodes.length).find? (fun i => decide (g.Tangled i)) = some i := by
      rw [← List.head?_filter, hf]
      rfl
    obtain ⟨ht, hmem, hbefore⟩ := List.find?_range_eq_some.mp hfind
    obtain ⟨x, hx⟩ : ∃ x, g.nodes[i]? = some x :=
      ⟨_, List.getElem?_eq_getElem (List.mem_range.mp hmem)⟩
    have hid : g.idAt i = some x.id := by
      unfold ProblemGraph.idAt
      rw [hx]
      rfl
    rw [hf, List.filterMap_cons_some hid] at h
    exact ⟨i, x, hx, (List.cons.inj h).1, of_decide_eq_true ht, fun j hj => by
      simpa using hbefore j hj⟩

end

/-! ## the repair -/

/-- the repaired graph is accepted, and every node that depends on no dangling reference and on no
cycle is in it -/
def Kept (g g' : ProblemGraph) : Prop :=
  (∃ layers, g'.topologicalLayers = .ok layers) ∧ ∀ x ∈ g.nodes, g.Sound x → x ∈ g'.nodes

/-- from a graph to which the nodes of `g` have come down, so many rounds are enough: a round drops
all nodes with a dangling dependency, or, when there are none, the nodes with the id of the first
tangled position, and no node that is sound in `g` has this id -/
inductive Repairable (g : ProblemGraph) : ℕ → ProblemGraph → Prop
  | done {rounds : ℕ} {h : ProblemGraph} : (∀ x ∈ h.nodes, h.Sound x) → Repairable g rounds h
  | dangling {rounds : ℕ} {h : ProblemGraph} : (∃ x ∈ h.nodes, h.Dangling x) →
      Repairable g rounds h.dropDangling → Repairable g (rounds + 1) h
  | tangled {rounds i : ℕ} {h : ProblemGraph} {x : GraphNode} : (∀ y ∈ h.nodes, ¬ h.Dangling y) →
      (∃ y ∈ h.nodes, ¬ h.Sound y) → h.nodes[i]? = some x → h.Tangled i →
      (∀ j < i, ¬ h.Tangled j) → (∀ y ∈ g.nodes, y.id = x.id → ¬ g.Sound y) →
      Repairable g rounds (h.dropId x.id) → Repairable g (rounds + 1) h

section
variable {g h : ProblemGraph}

theorem mem_dropDangling {x : GraphNode} :
    x ∈ h.dropDangling.nodes ↔ x ∈ h.nodes ∧ ¬ h.Dangling x := by
  show x ∈ h.nodes.filter _ ↔ _
  rw [List.mem_filter]
  refine and_congr_right fun _ => ?_
  unfold ProblemGraph.Dangling
  simp

theorem mem_dropId {x : GraphNode} {id : String} :
    x ∈ (h.dropId id).nodes ↔ x ∈ h.nodes ∧ x.id ≠ id := by
  show x ∈ h.nodes.filter _ ↔ _
  rw [List.mem_filter, decide_eq_true_eq]

/-- nodes are dropped exactly when one of them is dangling -/
theorem dropDangling_length :
    h.dropDangling.nodes.length ≠ h.nodes.length ↔ ∃ x ∈ h.nodes, h.Dangling x := by
  unfold ProblemGraph.dropDangling
  rw [Ne, List.length_filter_eq_length_iff]
  unfold ProblemGraph.Dangling
  simp

theorem validateNoCycles_iff : h.validateNoCycles.isOk = true ↔ ∀ x ∈ h.nodes, h.Sound x := by
  rw [← topologicalLayers_ok_iff]
  unfold ProblemGraph.validateNoCycles
  cases h.topologicalLayers with
  | error e => exact ⟨nofun, fun hl => by cases hl.choose_spec⟩
  | ok layers => exact ⟨fun _ => ⟨layers, rfl⟩, fun _ => rfl⟩

/-- a round in which no dependency is dangling and the graph is not accepted -/
theorem repairRounds_stuck (rounds : ℕ) (hno : ∀ x ∈ h.nodes, ¬ h.Dangling x)
    (hbad : ∃ x ∈ h.nodes, ¬ h.Sound x) : ProblemGraph.repairRounds (rounds + 1) h =
      match h.stuckNodeIds with
      | first :: _ => ProblemGraph.repairRounds rounds (h.dropId first)
      | [] => h := by
  have hlen : ¬ h.dropDangling.nodes.length ≠ h.nodes.length := by
    rw [dropDangling_length]
    exact fun ⟨x, hx, hd⟩ => hno x hx hd
  have hok : ¬ h.validateNoCycles.isOk = true := by
    rw [validateNoCycles_iff]
    exact fun hall => hbad.elim fun x hx => hx.2 (hall x hx.1)
  rw [ProblemGraph.repairRounds, if_neg hlen, if_neg hok]

theorem repairRounds_dangling (rounds : ℕ) (hd : ∃ x ∈ h.nodes, h.Dangling x) :
    ProblemGraph.repairRounds (rounds + 1) h = ProblemGraph.repairRounds rounds h.dropDangling := by
  rw [ProblemGraph.repairRounds, if_pos (dropDangling_length.mpr hd)]

theorem repairRounds_done (rounds : ℕ) (hall : ∀ x ∈ h.nodes, h.Sound x) :
    ProblemGraph.repairRounds rounds h = h := by
  have hlen : ¬ h.dropDangling.nodes.length ≠ h.nodes.length := by
    rw [dropDangling_length]
    exact fun ⟨x, hx, hd⟩ => (sound_iff_grounded.mp (hall x hx)).not_bad hd
  cases rounds with
  | zero => rfl
  | succ rounds =>
    rw [ProblemGraph.repairRounds, if_neg hlen, if_pos (validateNoCycles_iff.mpr hall)]

/-- a sound node of `g` is not dangling among nodes that have all sound nodes of `g` -/
theorem Sound.not_dangling {x : GraphNode} (hx : g.Sound x)
    (hin : ∀ y ∈ g.nodes, g.Sound y → y ∈ h.nodes) : ¬ h.Dangling x := by
  intro ⟨d, hd, hno⟩
  have hground := sound_iff_grounded.mp hx
  cases hp : g.index d with
  | none => exact hground.not_bad ⟨d, hd, index_none.mp hp⟩
  | some p =>
    obtain ⟨m, hm, hid⟩ := index_some hp
    have hsound : g.Sound m := sound_iff_grounded.mpr (hground.dep ⟨d, hd, p, hp, hm⟩)
    exact hno m (hin m (List.mem_of_getElem? hm) hsound) hid

theorem Repairable.kept {rounds : ℕ} (hr : Repairable g rounds h)
    (hin : ∀ y ∈ g.nodes, g.Sound y → y ∈ h.nodes) :
    Kept g (ProblemGraph.repairRounds rounds h) := by
  induction hr with
  | done hall =>
    rw [repairRounds_done _ hall]
    exact ⟨topologicalLayers_ok_iff.mpr hall, hin⟩
  | dangling hd _ ih =>
    rw [repairRounds_dangling _ hd]
    refine ih fun y hy hs => mem_dropDangling.mpr ⟨hin y hy hs, Sound.not_dangling hs hin⟩
  | @tangled rounds i h x hno hbad hx ht hfirst hid _ ih =>
    rw [repairRounds_stuck rounds hno hbad]
    cases hstuck : h.stuckNodeIds with
    | nil =>
      exact absurd (stuckNodeIds_nil.mp hstuck i (List.getElem?_eq_some_iff.mp hx).1) ht
    | cons first rest =>
      -- the first stuck id is that of the first tangled position
      obtain ⟨j, y, hy, hfirst', ht', hbefore⟩ := stuckNodeIds_cons hstuck
      have hij : j = i := by
        obtain hlt | heq | hlt := Nat.lt_trichotomy j i
        · exact absurd ht' (hfirst j hlt)
        · exact heq
        · exact absurd ht (hbefore i hlt)
      subst hij
      obtain rfl := Option.some.inj (hy.symm.trans hx)
      subst hfirst'
      exact ih fun z hz hs => mem_dropId.mpr ⟨hin z hz hs, fun heq => hid z hz heq hs⟩

theorem repairRounds_subset (rounds : ℕ) : ∀ h : ProblemGraph,
    ∀ x ∈ (ProblemGraph.repairRounds rounds h).nodes, x ∈ h.nodes := by
  induction rounds with
  | zero => exact fun h x hx => hx
  | succ rounds ih =>
    intro h x hx
    rw [ProblemGraph.repairRounds] at hx
    split at hx
    · exact (mem_dropDangling.mp (ih _ x hx)).1
    · split at hx
      · exact hx
      · split at hx
        · exact (mem_dropId.mp (ih _ x hx)).1
        · exact hx

theorem repairable_of_kept (rounds : ℕ) : ∀ h : ProblemGraph,
    Kept g (ProblemGraph.repairRounds rounds h) → Repairable g rounds h := by
  induction rounds with
  | zero =>
    intro h hk
    exact .done (topologicalLayers_ok_iff.mp hk.1)
  | succ rounds ih =>
    intro h hk
    by_cases hd : ∃ x ∈ h.nodes, h.Dangling x
    · rw [repairRounds_dangling rounds hd] at hk
      exact .dangling hd (ih _ hk)
    · have hno : ∀ y ∈ h.nodes, ¬ h.Dangling y := fun y hy hdy => hd ⟨y, hy, hdy⟩
      by_cases hall : ∀ x ∈ h.nodes, h.Sound x
      · exact .done hall
      · have hbad : ∃ y ∈ h.nodes, ¬ h.Sound y := by
          simpa only [not_forall, exists_prop] using hall
        rw [repairRounds_stuck rounds hno hbad] at hk
        cases hstuck : h.stuckNodeIds with
        | nil =>
          rw [hstuck] at hk
          exact absurd (topologicalLayers_ok_iff.mp hk.1) hall
        | cons first rest =>
          rw [hstuck] at hk
          obtain ⟨i, x, hx, rfl, ht, hbefore⟩ := stuckNodeIds_cons hstuck
          refine .tangled hno hbad hx ht hbefore (fun y hy hid hs => ?_) (ih _ hk)
          exact (mem_dropId.mp (repairRounds_subset rounds _ y (hk.2 y hy hs))).2 hid

/-- **The repair of a graph.**  The graph that it returns is accepted and has every sound node iff
the rounds are enough, and none of them drops a sound node. -/
theorem repair_kept_iff {g g' : ProblemGraph} (h : g.repair = some g') :
    Kept g g' ↔ Repairable g 8 g := by
  unfold ProblemGraph.repair at h
  split at h
  · cases h
  · obtain rfl := Option.some.inj h
    exact ⟨repairable_of_kept 8 g, fun hr => hr.kept fun y hy _ => hy⟩

end

/-- one node stands alone, the other depends on a node that does not exist -/
def dangling : ProblemGraph := ⟨[⟨"a", []⟩, ⟨"b", ["gone"]⟩]⟩

theorem repair_kept_iff_dangling : Kept dangling ⟨[⟨"a", []⟩]⟩ ↔ Repairable dangling 8 dangling :=
  repair_kept_iff (by decide +kernel)

/-- ten nodes, each of which depends on the one before, and the first on none that exists -/
def chain : ProblemGraph :=
  ⟨[⟨"a", ["gone"]⟩, ⟨"b", ["a"]⟩, ⟨"c", ["b"]⟩, ⟨"d", ["c"]⟩, ⟨"e", ["d"]⟩, ⟨"f", ["e"]⟩,
    ⟨"g", ["f"]⟩, ⟨"h", ["g"]⟩, ⟨"i", ["h"]⟩, ⟨"j", ["i"]⟩]⟩

/-- the only node depends on itself -/
def loop : ProblemGraph := ⟨[⟨"a", ["a"]⟩]⟩

/-- the second node names the first one twice, and the others depend on each other -/
def repeated : ProblemGraph :=
  ⟨[⟨"a", []⟩, ⟨"b", ["a", "a"]⟩, ⟨"c", ["d"]⟩, ⟨"d", ["c"]⟩]⟩

theorem repeated_sound : repeated.Sound ⟨"b", ["a", "a"]⟩ := by
  refine sound_iff_grounded.mpr (.intro ?_ fun y hy => ?_)
  · show ¬ ∃ d ∈ ["a", "a"], ∀ m ∈ repeated.nodes, m.id ≠ d
    decide
  · obtain ⟨d, hd, p, hp, hy⟩ := hy
    have hda : d = "a" := by simpa using hd
    have hindex : repeated.index "a" = some 0 := by decide
    subst hda
    rw [hindex] at hp
    obtain rfl := Option.some.inj hp
    obtain rfl := Option.some.inj hy
    refine .intro ?_ fun z hz => ?_
    · show ¬ ∃ d ∈ [], ∀ m ∈ repeated.nodes, m.id ≠ d
      decide
    · obtain ⟨d, hd, -⟩ := hz
      cases hd

/-- **The repair returns a graph that is not accepted, and drops a node that is sound.**  Eight
rounds do not come to the end of the chain; the sweep overlooks a node that depends on itself; and
it takes a node that repeats a dependency for a part of a cycle. -/
theorem repair_fails :
    (chain.repair = some ⟨[⟨"i", ["h"]⟩, ⟨"j", ["i"]⟩]⟩ ∧
      ¬ Kept chain ⟨[⟨"i", ["h"]⟩, ⟨"j", ["i"]⟩]⟩) ∧
    (loop.repair = some loop ∧ ¬ Kept loop loop) ∧
    (repeated.repair = some ⟨[⟨"a", []⟩]⟩ ∧ ¬ Kept repeated ⟨[⟨"a", []⟩]⟩) := by
  refine ⟨⟨by decide, fun h => ?_⟩, ⟨by decide +kernel, fun h => ?_⟩, by decide +kernel, fun h => ?_⟩
  · obtain ⟨layers, hl⟩ := h.1
    cases hl
  · obtain ⟨layers, hl⟩ := h.1
    cases hl
  · have hb := h.2 _ (by decide) repeated_sound
    revert hb
    decide

end Moagan.Decompose
