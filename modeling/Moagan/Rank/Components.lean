import Moagan.Lib.Connected
import Moagan.Rank.Cluster

/-!
# Clusters are connected components (`src/ranking/cluster.rs`)

* `clusterBy`        the clustering for any distance between the items
* `nearPairs`        the pairs that it joins
* `Chained`          a chain of near pairs
* `clusterBySimhash_components`  the clusters are the components of the chains
-/

namespace Moagan.Rank

section
variable {F : Type} [FloatOps F] {n : ℕ} {distance : ℕ → ℕ → F} {threshold : F}

/-! ## any distance -/

def linkRow (n : ℕ) (distance : ℕ → ℕ → F) (threshold : F) (forest : Forest) (i : ℕ) : Forest :=
  (Maximal.after n i).foldl (fun forest j =>
    if distance i j ≤ threshold then forest.union i j else forest) forest

/-- `cluster_by_simhash`, for a distance between the places -/
def clusterBy (n : ℕ) (distance : ℕ → ℕ → F) (threshold : F) : List (List ℕ) :=
  ((List.range n).foldl (linkRow n distance threshold) Forest.init).trees n

/-- the pairs that are joined, in the order of the loop -/
def nearPairs (n : ℕ) (distance : ℕ → ℕ → F) (threshold : F) : List (ℕ × ℕ) :=
  (List.range n).flatMap fun i =>
    ((Maximal.after n i).filter fun j => distance i j ≤ threshold).map fun j => (i, j)

/-- two different items, no farther from each other than the threshold -/
def Near (n : ℕ) (distance : ℕ → ℕ → F) (threshold : F) (i j : ℕ) : Prop :=
  i < n ∧ j < n ∧ i ≠ j ∧ distance i j ≤ threshold

/-- a chain of near pairs leads from `i` to `j` -/
def Chained (n : ℕ) (distance : ℕ → ℕ → F) (threshold : F) : ℕ → ℕ → Prop :=
  Relation.ReflTransGen (Near n distance threshold)

theorem mem_nearPairs {i j : ℕ} : (i, j) ∈ nearPairs n distance threshold ↔
    i < j ∧ j < n ∧ distance i j ≤ threshold := by
  unfold nearPairs
  rw [List.mem_flatMap]
  constructor
  · intro h
    obtain ⟨a, -, hp⟩ := h
    obtain ⟨b, hb, he⟩ := List.mem_map.mp hp
    obtain ⟨hafter, hd⟩ := List.mem_filter.mp hb
    obtain ⟨rfl, rfl⟩ := Prod.mk.inj he
    obtain ⟨hbn, hab⟩ := Maximal.mem_after.mp hafter
    exact ⟨hab, hbn, of_decide_eq_true hd⟩
  · intro h
    obtain ⟨hij, hj, hd⟩ := h
    refine ⟨i, List.mem_range.mpr (by omega), List.mem_map.mpr ⟨j, ?_, rfl⟩⟩
    exact List.mem_filter.mpr ⟨Maximal.mem_after.mpr ⟨hj, hij⟩, decide_eq_true hd⟩

/-- the loops join the near pairs -/
theorem foldl_linkRow (n : ℕ) (distance : ℕ → ℕ → F) (threshold : F) :
    (List.range n).foldl (linkRow n distance threshold) Forest.init
      = Forest.joinAll (nearPairs n distance threshold) := by
  unfold Forest.joinAll nearPairs
  rw [List.foldl_flatMap]
  congr 1
  funext forest i
  rw [List.foldl_map, List.foldl_filter]
  unfold linkRow
  congr 1
  funext forest j
  simp only [decide_eq_true_iff]

/-- for a symmetric distance the joined pairs connect what the chains connect -/
theorem connected_iff_chained (hsymm : ∀ i j, distance i j = distance j i) (i j : ℕ) :
    Forest.Connected (nearPairs n distance threshold) i j ↔ Chained n distance threshold i j := by
  have hsym : Std.Symm (Near n distance threshold) := by
    refine ⟨fun a b h => ?_⟩
    obtain ⟨ha, hb, hne, hd⟩ := h
    exact ⟨hb, ha, hne.symm, hsymm a b ▸ hd⟩
  unfold Chained
  rw [← Relation.EqvGen.eqvGen_eq_reflTransGen]
  constructor
  · refine Relation.EqvGen.mono (fun a b hp => ?_) i j
    obtain ⟨hab, hb, hd⟩ := mem_nearPairs.mp hp
    exact ⟨by omega, hb, by omega, hd⟩
  · intro h
    induction h with
    | rel a b h =>
      obtain ⟨ha, hb, hne, hd⟩ := h
      obtain hlt | hlt := lt_or_gt_of_ne hne
      · exact Relation.EqvGen.rel a b (mem_nearPairs.mpr ⟨hlt, hb, hd⟩)
      · refine Relation.EqvGen.symm b a (Relation.EqvGen.rel b a ?_)
        exact mem_nearPairs.mpr ⟨hlt, ha, hsymm a b ▸ hd⟩
    | refl a => exact Relation.EqvGen.refl a
    | symm a b _ ih => exact ih.symm
    | trans a b c _ _ ih1 ih2 => exact ih1.trans _ _ _ ih2

theorem clusterBy_components (n : ℕ) (hsymm : ∀ i j, distance i j = distance j i)
    (threshold : F) :
    Forest.IsComponents n (Chained n distance threshold) (clusterBy n distance threshold) := by
  have h := Forest.trees_joinAll (nearPairs n distance threshold) n
  unfold clusterBy
  rw [foldl_linkRow]
  exact { h with
    together := fun i hi j hj => (h.together i hi j hj).trans (connected_iff_chained hsymm i j) }

/-! ## the distance of the words -/

/-- the distance of the texts at two places -/
def textDistance (texts : List String) (i j : ℕ) : F :=
  jaccardDistance (texts.getD i "") (texts.getD j "")

theorem jaccardDistance_comm (a b : String) :
    (jaccardDistance a b : F) = jaccardDistance b a := by
  unfold jaccardDistance
  simp only [Finset.inter_comm, Finset.union_comm, and_comm]

theorem clusterBySimhash_eq (texts : List String) (threshold : F) :
    clusterBySimhash texts threshold
      = clusterBy texts.length (textDistance texts) threshold := rfl

/-- **Clusters are connected components:** for every symmetric distance, and so for that of the
texts, they split the items, two items are in one cluster exactly when a chain of near pairs
joins them, and the members and the clusters ascend. -/
theorem clusterBySimhash_components (threshold : F) :
    (∀ (n : ℕ) (distance : ℕ → ℕ → F), (∀ i j, distance i j = distance j i) →
      Forest.IsComponents n (Chained n distance threshold) (clusterBy n distance threshold)) ∧
    ∀ texts : List String,
      clusterBySimhash texts threshold = clusterBy texts.length (textDistance texts) threshold ∧
      Forest.IsComponents texts.length (Chained texts.length (textDistance texts) threshold)
        (clusterBySimhash texts threshold) := by
  refine ⟨fun n distance hsymm => clusterBy_components n hsymm threshold, fun texts => ?_⟩
  rw [clusterBySimhash_eq]
  exact ⟨rfl, clusterBy_components _ (fun i j => jaccardDistance_comm _ _) threshold⟩

theorem clusterBySimhash_components_sums :
    Forest.IsComponents 5 (Chained 5 (fun i j => ((i + j : ℕ) : ℚ)) 3)
      (clusterBy 5 (fun i j => ((i + j : ℕ) : ℚ)) 3) ∧
    clusterBy 5 (fun i j => ((i + j : ℕ) : ℚ)) 3 = [[0, 1, 2, 3], [4]] :=
  ⟨(clusterBySimhash_components 3).1 5 _ fun i j => by rw [Nat.add_comm], by decide +kernel⟩

end

end Moagan.Rank
