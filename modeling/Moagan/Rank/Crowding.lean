import Moagan.Rank.Fairness

/-!
# The crowded clusters (`src/ranking/diversity.rs`)

With more clusters than places the head of the most crowded cluster is to be dropped, again and
again, until the heads fit.  The first round cuts the list of heads instead.

* `heads`       the best member of every cluster
* `Thinned`     the heads that are dropped, and those that remain
* `pickWithCrowding_remaining_iff`   when the cut leaves the heads that remain
-/

namespace Moagan.Rank

section
variable {F : Type} [FloatOps F] {clusters : List (List ℕ)} {vectors : List (QualityVector F)}
  {topK : ℕ}

def heads (vectors : List (QualityVector F)) (clusters : List (List ℕ)) : List ℕ :=
  clusters.filterMap fun c => (sortCluster vectors c).head?

/-- `h` has the lowest crowding distance among the heads, and is the only one that has it -/
def MostCrowded (vectors : List (QualityVector F)) (hs : List ℕ) (h : ℕ) : Prop :=
  h ∈ hs ∧ ∀ h' ∈ hs, h' ≠ h → crowdingDistance vectors hs h < crowdingDistance vectors hs h'

/-- The most crowded head is dropped until the heads fit: `gone` are dropped one after the other,
and `left` remain. -/
inductive Thinned (vectors : List (QualityVector F)) (topK : ℕ) :
    List ℕ → List ℕ → List ℕ → Prop
  | fits {hs : List ℕ} : hs.length ≤ topK → Thinned vectors topK hs [] hs
  | drop {hs gone left : List ℕ} {h : ℕ} : topK < hs.length → MostCrowded vectors hs h →
      Thinned vectors topK (hs.erase h) gone left → Thinned vectors topK hs (h :: gone) left

theorem Thinned.perm {hs gone left : List ℕ} (h : Thinned vectors topK hs gone left) :
    (gone ++ left).Perm hs := by
  induction h with
  | fits _ => exact List.Perm.refl _
  | drop _ hcrowded _ ih => exact (List.Perm.cons _ ih).trans (List.perm_cons_erase hcrowded.1).symm

theorem Thinned.length_left {hs gone left : List ℕ} (h : Thinned vectors topK hs gone left)
    (hle : topK ≤ hs.length) : left.length = topK := by
  induction h with
  | fits hfit => omega
  | drop hlt hcrowded _ ih =>
    apply ih
    rw [List.length_erase_of_mem hcrowded.1]
    omega

/-! ## the heads -/

theorem length_heads (vectors : List (QualityVector F)) (hne : ∀ c ∈ clusters, c ≠ []) :
    (heads vectors clusters).length = clusters.length := by
  unfold heads
  induction clusters with
  | nil => rfl
  | cons c cs ih =>
    have hcs : ∀ c ∈ cs, c ≠ [] := fun c hc => hne c (List.mem_cons_of_mem _ hc)
    have hsorted : sortCluster vectors c ≠ [] := by
      intro he
      have hlen := (sortCluster_perm vectors c).length_eq
      rw [he] at hlen
      exact hne c List.mem_cons_self (List.length_eq_zero_iff.mp hlen.symm)
    obtain ⟨x, l, hx⟩ := List.exists_cons_of_ne_nil hsorted
    rw [List.filterMap_cons, hx]
    show ((cs.filterMap fun c => (sortCluster vectors c).head?).length + 1) = cs.length + 1
    rw [ih hcs]

theorem heads_eq_row (vectors : List (QualityVector F)) (clusters : List (List ℕ)) :
    heads vectors clusters = RoundRobin.row (sortedClusters vectors clusters) 0 := by
  rw [← heads_eq, sortedClusters, List.filterMap_map]
  rfl

theorem heads_nodup (hpart : clusters.flatten.Nodup) : (heads vectors clusters).Nodup := by
  have hsorted : (sortedClusters vectors clusters).flatten.Perm clusters.flatten :=
    flatten_perm_of_forall (sortCluster_perm vectors) clusters
  have hrow := (RoundRobin.row_zero_perm (sortedClusters vectors clusters)).trans hsorted
  rw [heads_eq_row]
  exact (List.nodup_append.mp (hrow.nodup_iff.mpr hpart)).1

/-- the first round cuts the heads -/
theorem pickWithCrowding_cut (hne : ∀ c ∈ clusters, c ≠ []) (hmore : topK < clusters.length) :
    pickWithCrowding clusters vectors topK = (heads vectors clusters).take topK := by
  have hlen := length_heads vectors hne
  have hrows : ∀ c ∈ clusters, c.length ≤ clusters.flatten.length + 1 :=
    fun c hc => Nat.le_succ_of_le (length_le_flatten hc)
  rw [pickWithCrowding_eq vectors topK hrows, RoundRobin.deal_succ, ← heads_eq_row,
    List.take_append_of_le_length (by omega)]

/-! ## the cut and the crowding -/

/-- **What is picked is what the dropping leaves exactly when no dropped head is among the first
ones:** those of the clusters that are listed at the places below `topK`. -/
theorem pickWithCrowding_remaining_iff (hpart : clusters.flatten.Perm (List.range vectors.length))
    (hne : ∀ c ∈ clusters, c ≠ []) (hmore : topK < clusters.length) {gone left : List ℕ}
    (hthin : Thinned vectors topK (heads vectors clusters) gone left) :
    (pickWithCrowding clusters vectors topK).Perm left ↔
      ∀ h ∈ gone, h ∉ (heads vectors clusters).take topK := by
  have hlen := length_heads vectors hne
  have hnodup : (heads vectors clusters).Nodup :=
    heads_nodup (hpart.nodup_iff.mpr List.nodup_range)
  have hsplit := hthin.perm.nodup_iff.mpr hnodup
  rw [pickWithCrowding_cut hne hmore]
  constructor
  · intro hperm h hgone htake
    exact (List.nodup_append.mp hsplit).2.2 h hgone h (hperm.mem_iff.mp htake) rfl
  · intro hkept
    have hsub : (heads vectors clusters).take topK ⊆ left := by
      intro h htake
      obtain hgone | hleft :=
        List.mem_append.mp (hthin.perm.mem_iff.mpr (List.mem_of_mem_take htake))
      · exact absurd htake (hkept h hgone)
      · exact hleft
    refine (List.subperm_of_subset (hnodup.sublist (List.take_sublist _ _)) hsub).perm_of_length_le ?_
    rw [hthin.length_left (by omega), List.length_take]
    omega

end

/-- two near items and a far one -/
def nearAndFar : List (QualityVector ℚ) := [⟨5, 5, 5, 5, 5⟩, ⟨6, 6, 6, 6, 6⟩, ⟨9, 9, 9, 9, 9⟩]

/-- the one in the middle is the most crowded -/
theorem thinned_nearAndFar {hs left : List ℕ} (hlen : 2 < hs.length)
    (hcrowded : MostCrowded nearAndFar hs 1) (hleft : hs.erase 1 = left) (hfit : left.length ≤ 2) :
    Thinned nearAndFar 2 hs [1] left :=
  Thinned.drop hlen hcrowded (hleft ▸ Thinned.fits (hleft ▸ hfit))

theorem pickWithCrowding_remaining_iff_last :
    (pickWithCrowding [[0], [2], [1]] nearAndFar 2).Perm [0, 2] ↔
      ∀ h ∈ [1], h ∉ (heads nearAndFar [[0], [2], [1]]).take 2 := by
  refine pickWithCrowding_remaining_iff (by decide) (by decide) (by decide) ?_
  exact thinned_nearAndFar (by decide) (by unfold MostCrowded; decide +kernel) (by decide +kernel)
    (by decide)

/-- the middle one is listed second, and is picked -/
theorem crowding_ignored : ¬ ∀ (clusters : List (List ℕ)) (vectors : List (QualityVector ℚ))
    (topK : ℕ) (gone left : List ℕ), clusters.flatten.Perm (List.range vectors.length) →
    (∀ c ∈ clusters, c ≠ []) → topK < clusters.length →
    Thinned vectors topK (heads vectors clusters) gone left →
    (pickWithCrowding clusters vectors topK).Perm left := by
  intro h
  have hthin : Thinned nearAndFar 2 (heads nearAndFar [[0], [1], [2]]) [1] [0, 2] :=
    thinned_nearAndFar (by decide) (by unfold MostCrowded; decide +kernel) (by decide +kernel)
      (by decide)
  have hperm := h [[0], [1], [2]] nearAndFar 2 [1] [0, 2] (by decide) (by decide) (by decide) hthin
  exact absurd (hperm.mem_iff (a := 1)) (by decide +kernel)

end Moagan.Rank
