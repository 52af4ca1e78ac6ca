import Mathlib.Data.List.Induction
import Mathlib.Data.List.Nodup
import Moagan.Lib.SortedMap
import Moagan.Lib.UnionFind

/-!
# The trees of a forest

The elements below a bound, grouped by their root in a sorted map.

* `Forest.trees`     the groups, in the order of their roots
* `mem_trees`        they are the elements of one root, for every root that has some
* `exists_mem_trees` every element is in one
* `trees_share`      two elements are in one tree exactly when they have one root
* `trees_by_head`    a tree starts with its root, and the trees ascend by it
-/

namespace Forest

/-- `sets.entry(root).or_default().push(n)` -/
def collect (s : Forest × SortedMap ℕ (List ℕ)) (n : ℕ) : Forest × SortedMap ℕ (List ℕ) :=
  let (forest, root) := s.1.find n
  (forest, s.2.insert root ((s.2.get? root).getD [] ++ [n]))

def trees (F : Forest) (len : ℕ) : List (List ℕ) :=
  ((List.range len).foldl collect (F, SortedMap.empty)).2.entries.map Prod.snd

/-- the elements of a list that have the root `r` -/
def under (F : Forest) (ns : List ℕ) (r : ℕ) : List ℕ := ns.filter fun n => F.root n = r

theorem collect_snd (s : Forest × SortedMap ℕ (List ℕ)) (n : ℕ) : (collect s n).2
    = s.2.insert (s.1.root n) ((s.2.get? (s.1.root n)).getD [] ++ [n]) := by
  unfold collect
  dsimp only
  rw [find_root]

theorem under_append (F : Forest) (ns : List ℕ) (n r : ℕ) : F.under (ns ++ [n]) r
    = if F.root n = r then F.under ns r ++ [n] else F.under ns r := by
  rw [under, List.filter_append, List.filter_cons, List.filter_nil]
  split_ifs with h1 h2 h2
  · rfl
  · exact absurd (of_decide_eq_true h1) h2
  · exact absurd (decide_eq_true h2) h1
  · exact List.append_nil _

theorem foldl_collect (F : Forest) (ns : List ℕ) :
    (∀ k, (ns.foldl collect (F, SortedMap.empty)).1.root k = F.root k) ∧
    ∀ r, (ns.foldl collect (F, SortedMap.empty)).2.get? r
      = if F.under ns r = [] then none else some (F.under ns r) := by
  induction ns using List.reverseRecOn with
  | nil => exact ⟨fun _ => rfl, fun _ => rfl⟩
  | append_singleton ns n ih =>
    obtain ⟨h1, h2⟩ := ih
    rw [List.foldl_append, List.foldl_cons, List.foldl_nil]
    refine ⟨fun k => (find_keeps _ n k).trans (h1 k), fun r => ?_⟩
    rw [collect_snd, h1, SortedMap.get?_insert, under_append]
    by_cases hr : r = F.root n
    · have hget : ((ns.foldl collect (F, SortedMap.empty)).2.get? (F.root n)).getD []
          = F.under ns (F.root n) := by
        rw [h2]
        split_ifs with h
        · exact h.symm
        · rfl
      rw [if_pos hr, if_pos hr.symm, hget, if_neg (by simp), hr]
    · have hr' : ¬ F.root n = r := fun e => hr e.symm
      rw [if_neg hr, h2]
      simp only [if_neg hr']

/-- **A tree is what one root has, and is not empty.** -/
theorem mem_trees {F : Forest} {len : ℕ} {tree : List ℕ} :
    tree ∈ F.trees len ↔ tree ≠ [] ∧ ∃ r, tree = F.under (List.range len) r := by
  have hget := (foldl_collect F (List.range len)).2
  constructor
  · intro h
    obtain ⟨⟨r, tree⟩, he, rfl⟩ := List.mem_map.mp h
    have hr := SortedMap.get?_eq_some_iff.mpr he
    rw [hget] at hr
    split_ifs at hr with hnil
    obtain rfl := Option.some.inj hr
    exact ⟨hnil, r, rfl⟩
  · rintro ⟨hne, r, rfl⟩
    have hr := hget r
    rw [if_neg hne] at hr
    exact List.mem_map.mpr ⟨(r, _), SortedMap.get?_eq_some_iff.mp hr, rfl⟩

theorem exists_mem_trees (F : Forest) {len n : ℕ} (h : n < len) : ∃ tree ∈ F.trees len, n ∈ tree := by
  have hmem : n ∈ F.under (List.range len) (F.root n) :=
    List.mem_filter.mpr ⟨List.mem_range.mpr h, decide_eq_true rfl⟩
  exact ⟨_, mem_trees.mpr ⟨List.ne_nil_of_mem hmem, _, rfl⟩, hmem⟩

/-! ## order -/

theorem root_le (F : Forest) (n : ℕ) : F.root n ≤ n := by
  refine F.induct (P := fun n => F.root n ≤ n) ?_ ?_ n
  · intro n h
    rw [root_of_fixed h]
  · intro n hlt ih
    rw [← F.root_parent]
    exact ih.trans hlt.le

theorem root_root (F : Forest) (n : ℕ) : F.root (F.root n) = F.root n :=
  root_of_fixed (F.root_fixed n)

theorem mem_under {F : Forest} {len r k : ℕ} :
    k ∈ F.under (List.range len) r ↔ k < len ∧ F.root k = r := by
  rw [under, List.mem_filter, List.mem_range, decide_eq_true_iff]

theorem under_sorted (F : Forest) (len r : ℕ) :
    (F.under (List.range len) r).Pairwise (· < ·) :=
  List.Pairwise.filter _ List.pairwise_lt_range

/-- the least element of a tree is its root -/
theorem head_under {F : Forest} {len r k : ℕ} (hk : k ∈ F.under (List.range len) r) :
    (F.under (List.range len) r).head? = some r := by
  obtain ⟨hlt, rfl⟩ := mem_under.mp hk
  have hmem : F.root k ∈ F.under (List.range len) (F.root k) :=
    mem_under.mpr ⟨(F.root_le k).trans_lt hlt, F.root_root k⟩
  have hsorted := F.under_sorted len (F.root k)
  cases hu : F.under (List.range len) (F.root k) with
  | nil =>
    rw [hu] at hmem
    exact absurd hmem List.not_mem_nil
  | cons a l =>
    rw [hu] at hmem hsorted
    have ha : F.root a = F.root k := (mem_under.mp (hu ▸ List.mem_cons_self)).2
    obtain he | hl := List.mem_cons.mp hmem
    · rw [he]
      rfl
    · -- an element in front of the root would be below it
      have h1 := (List.pairwise_cons.mp hsorted).1 _ hl
      have h2 := F.root_le a
      omega

theorem trees_share {F : Forest} {len i j : ℕ} (hi : i < len) (hj : j < len) :
    (∃ tree ∈ F.trees len, i ∈ tree ∧ j ∈ tree) ↔ F.root i = F.root j := by
  constructor
  · intro h
    obtain ⟨tree, ht, hit, hjt⟩ := h
    obtain ⟨-, r, rfl⟩ := mem_trees.mp ht
    rw [(mem_under.mp hit).2, (mem_under.mp hjt).2]
  · intro h
    obtain ⟨tree, ht, hit⟩ := F.exists_mem_trees hi
    obtain ⟨-, r, rfl⟩ := mem_trees.mp ht
    exact ⟨_, ht, hit, mem_under.mpr ⟨hj, h ▸ (mem_under.mp hit).2⟩⟩

/-- **The trees ascend by their roots, which are their first elements.** -/
theorem trees_by_head (F : Forest) (len : ℕ) :
    (F.trees len).Pairwise fun s t => ∀ a ∈ s.head?, ∀ b ∈ t.head?, a < b := by
  have hget := (foldl_collect F (List.range len)).2
  have hhead : ∀ e ∈ ((List.range len).foldl collect (F, SortedMap.empty)).2.entries,
      e.2.head? = some e.1 := by
    intro e he
    have hr := SortedMap.get?_eq_some_iff.mpr he
    rw [hget] at hr
    split_ifs at hr with hnil
    obtain ⟨k, hk⟩ := List.exists_mem_of_ne_nil _ hnil
    rw [← Option.some.inj hr]
    exact head_under hk
  rw [trees, List.pairwise_map]
  refine List.Pairwise.imp_of_mem ?_ (SortedMap.sorted _)
  intro e f he hf hlt a ha b hb
  rw [hhead e he] at ha
  rw [hhead f hf] at hb
  rwa [← Option.some.inj ha, ← Option.some.inj hb]

/-- every element is in one tree, once -/
theorem trees_perm (F : Forest) (len : ℕ) : (F.trees len).flatten.Perm (List.range len) := by
  have hsome : ∀ tree ∈ F.trees len, ∃ r, tree = F.under (List.range len) r :=
    fun tree ht => (mem_trees.mp ht).2
  rw [List.perm_ext_iff_of_nodup _ List.nodup_range]
  · intro k
    rw [List.mem_flatten, List.mem_range]
    constructor
    · intro h
      obtain ⟨tree, ht, hk⟩ := h
      obtain ⟨r, rfl⟩ := hsome tree ht
      exact (mem_under.mp hk).1
    · exact F.exists_mem_trees
  · rw [List.nodup_flatten]
    constructor
    · intro tree ht
      obtain ⟨r, rfl⟩ := hsome tree ht
      exact (F.under_sorted len r).imp ne_of_lt
    · refine List.Pairwise.imp_of_mem ?_ (F.trees_by_head len)
      intro s t hs ht hlt k hks hkt
      -- trees with a common element have one root, and then one head
      obtain ⟨r, rfl⟩ := hsome s hs
      obtain ⟨r', rfl⟩ := hsome t ht
      obtain rfl : r = r' := (mem_under.mp hks).2.symm.trans (mem_under.mp hkt).2
      exact lt_irrefl r (hlt r (head_under hks) r (head_under hkt))

end Forest
