import Mathlib.Logic.Relation
import Moagan.Lib.Trees

/-!
# Joined pairs and connectedness

A forest that starts with every element alone and joins a list of pairs.

* `Forest.joinAll`     the pairs, joined one by one
* `Forest.Connected`   a chain of pairs leads from one element to the other
* `root_eq_iff`        two elements have one root exactly when they are connected
* `root_congr`         the roots depend on the connectedness only
* `trees_congr`        and so do the trees
* `IsComponents`       lists of numbers that are the components of a relation
* `trees_joinAll`      the trees are the components of the pairs
-/

namespace Forest

theorem root_init (n : ℕ) : init.root n = n := root_of_fixed rfl

/-! ## joining -/

def joinAll (ps : List (ℕ × ℕ)) : Forest := ps.foldl (fun F p => F.union p.1 p.2) init

def Connected (ps : List (ℕ × ℕ)) : ℕ → ℕ → Prop := Relation.EqvGen fun n m => (n, m) ∈ ps

theorem joinAll_append (ps : List (ℕ × ℕ)) (p : ℕ × ℕ) :
    joinAll (ps ++ [p]) = (joinAll ps).union p.1 p.2 := by
  rw [joinAll, List.foldl_append, List.foldl_cons, List.foldl_nil]
  rfl

theorem Connected.mono {ps qs : List (ℕ × ℕ)} (h : ps ⊆ qs) {n m : ℕ} (hc : Connected ps n m) :
    Connected qs n m := Relation.EqvGen.mono (fun _ _ hp => h hp) n m hc

theorem Connected.of_mem {ps : List (ℕ × ℕ)} {n m : ℕ} (h : (n, m) ∈ ps) : Connected ps n m :=
  Relation.EqvGen.rel n m h

/-- connectedness, read by a function that is constant on every pair -/
theorem Connected.eq_of {α : Type} {ps : List (ℕ × ℕ)} {f : ℕ → α}
    (h : ∀ p ∈ ps, f p.1 = f p.2) {n m : ℕ} (hc : Connected ps n m) : f n = f m := by
  induction hc with
  | rel n m hp => exact h (n, m) hp
  | refl n => rfl
  | symm n m _ ih => exact ih.symm
  | trans n m k _ _ ih1 ih2 => exact ih1.trans ih2

/-- one join brings the two elements together and parts no others -/
theorem union_root_eq (F : Forest) (n m : ℕ) : (F.union n m).root n = (F.union n m).root m := by
  rw [union_root, union_root]
  obtain h | h := le_total (F.root n) (F.root m)
  · rw [max_eq_right h, min_eq_left h, if_pos rfl, ite_self]
  · rw [max_eq_left h, min_eq_right h, if_pos rfl, ite_self]

theorem union_root_congr (F : Forest) (n m : ℕ) {i j : ℕ} (h : F.root i = F.root j) :
    (F.union n m).root i = (F.union n m).root j := by
  rw [union_root, union_root, h]

theorem root_of_mem {ps : List (ℕ × ℕ)} :
    ∀ p ∈ ps, (joinAll ps).root p.1 = (joinAll ps).root p.2 := by
  induction ps using List.reverseRecOn with
  | nil => exact fun p hp => absurd hp List.not_mem_nil
  | append_singleton ps q ih =>
    intro p hp
    rw [joinAll_append]
    obtain hp | hp := List.mem_append.mp hp
    · exact union_root_congr _ _ _ (ih p hp)
    · obtain rfl := List.mem_singleton.mp hp
      exact union_root_eq _ _ _

theorem connected_root (ps : List (ℕ × ℕ)) (n : ℕ) : Connected ps n ((joinAll ps).root n) := by
  induction ps using List.reverseRecOn generalizing n with
  | nil =>
    rw [show (joinAll []).root n = n from root_init n]
    exact Relation.EqvGen.refl n
  | append_singleton ps p ih =>
    have hold : ∀ k, Connected (ps ++ [p]) k ((joinAll ps).root k) :=
      fun k => (ih k).mono (List.subset_append_left ps [p])
    have hpair : Connected (ps ++ [p]) p.1 p.2 :=
      Connected.of_mem (List.mem_append_right _ List.mem_cons_self)
    -- the roots of the two elements are connected through the pair
    have hroots : Connected (ps ++ [p]) ((joinAll ps).root p.1) ((joinAll ps).root p.2) :=
      ((hold p.1).symm.trans _ _ _ hpair).trans _ _ _ (hold p.2)
    rw [joinAll_append, union_root]
    split_ifs with hk
    · refine Relation.EqvGen.trans _ _ _ (hold n) ?_
      rw [hk]
      obtain h | h := le_total ((joinAll ps).root p.1) ((joinAll ps).root p.2)
      · rw [max_eq_right h, min_eq_left h]
        exact hroots.symm
      · rw [max_eq_left h, min_eq_right h]
        exact hroots
    · exact hold n

/-- **Two elements have one root exactly when a chain of pairs connects them.** -/
theorem root_eq_iff {ps : List (ℕ × ℕ)} {n m : ℕ} :
    (joinAll ps).root n = (joinAll ps).root m ↔ Connected ps n m := by
  constructor
  · intro h
    refine Relation.EqvGen.trans _ _ _ (connected_root ps n) ?_
    rw [h]
    exact (connected_root ps m).symm
  · exact Connected.eq_of root_of_mem

/-! ## what the order of the pairs does -/

/-- **The roots depend on the connectedness only:** a root is the least element it is connected
to. -/
theorem root_congr {ps qs : List (ℕ × ℕ)} (h : ∀ n m, Connected ps n m ↔ Connected qs n m)
    (n : ℕ) : (joinAll ps).root n = (joinAll qs).root n := by
  have key : ∀ {ps qs : List (ℕ × ℕ)}, (∀ n m, Connected ps n m → Connected qs n m) →
      (joinAll qs).root n ≤ (joinAll ps).root n := by
    intro ps qs h
    rw [root_eq_iff.mpr (h _ _ (connected_root ps n))]
    exact root_le _ _
  exact le_antisymm (key fun i j => (h i j).mpr) (key fun i j => (h i j).mp)

theorem trees_congr {F G : Forest} (h : ∀ n, F.root n = G.root n) (len : ℕ) :
    F.trees len = G.trees len := by
  have key : ∀ (ns : List ℕ) (s t : Forest × SortedMap ℕ (List ℕ)), s.2 = t.2 →
      (∀ n, s.1.root n = t.1.root n) → (ns.foldl collect s).2 = (ns.foldl collect t).2 := by
    intro ns
    induction ns with
    | nil => exact fun s t h _ => h
    | cons n ns ih =>
      intro s t hs hroot
      refine ih _ _ ?_ fun k => ?_
      · rw [collect_snd, collect_snd, hs, hroot]
      · show (s.1.find n).1.root k = (t.1.find n).1.root k
        rw [find_keeps, find_keeps, hroot]
  rw [trees, trees, key _ (F, SortedMap.empty) (G, SortedMap.empty) rfl h]

/-! ## components -/

/-- The lists in `groups` split the numbers below `len` by the relation `linked`, in ascending
order inside a list, and from one first member to the next. -/
structure IsComponents (len : ℕ) (linked : ℕ → ℕ → Prop) (groups : List (List ℕ)) : Prop where
  nonempty : ∀ g ∈ groups, g ≠ []
  partition : groups.flatten.Perm (List.range len)
  together : ∀ i < len, ∀ j < len, (∃ g ∈ groups, i ∈ g ∧ j ∈ g) ↔ linked i j
  ascending : ∀ g ∈ groups, g.Pairwise (· < ·)
  ordered : groups.Pairwise fun g h => ∀ a ∈ g.head?, ∀ b ∈ h.head?, a < b

/-- **The trees are the components of the pairs.** -/
theorem trees_joinAll (ps : List (ℕ × ℕ)) (len : ℕ) :
    IsComponents len (Connected ps) ((joinAll ps).trees len) where
  nonempty := fun _ hg => (mem_trees.mp hg).1
  partition := trees_perm _ len
  together := fun _ hi _ hj => (trees_share hi hj).trans root_eq_iff
  ascending := by
    intro g hg
    obtain ⟨-, r, rfl⟩ := mem_trees.mp hg
    exact under_sorted _ len r
  ordered := trees_by_head _ len

end Forest
