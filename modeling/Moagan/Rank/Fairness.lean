import Moagan.Lib.RoundRobin
import Moagan.Rank.Cluster

/-!
# Representatives are dealt in turn (`src/ranking/diversity.rs`)

* `peelPass_eq`, `peel_eq`   a pass deals one row, and the passes deal all rows
* `pickWithCrowding_eq`      what is picked is the beginning of the deal of the sorted clusters
* `pickWithCrowding_fair`    as many as there are places, and no cluster left behind
-/

namespace Moagan.Rank

/-! ## the second round -/

section
variable {topK : ℕ}

/-- what is left of the clusters after the heads -/
def rests (clusters : List Peeled) : List (List ℕ) := clusters.map fun c => c.1.tail

/-- a cluster that is said to be exhausted is -/
def Exhausted (clusters : List Peeled) : Prop := ∀ c ∈ clusters, c.2 = true → c.1.tail = []

theorem rests_cons (c : Peeled) (clusters : List Peeled) :
    rests (c :: clusters) = c.1.tail :: rests clusters := rfl

theorem row_cons_nil (lists : List (List ℕ)) (k : ℕ) :
    RoundRobin.row ([] :: lists) k = RoundRobin.row lists k := rfl

theorem row_cons_cons (x : ℕ) (l : List ℕ) (lists : List (List ℕ)) :
    RoundRobin.row ((x :: l) :: lists) 0 = x :: RoundRobin.row lists 0 := rfl

/-- a cluster with nothing left passes its turn -/
theorem row_pass {c : Peeled} (hc : c.1.tail = []) (clusters : List Peeled) :
    RoundRobin.row (rests (c :: clusters)) 0 = RoundRobin.row (rests clusters) 0 := by
  rw [rests_cons, hc, row_cons_nil]

theorem Exhausted.cons {c : Peeled} {clusters : List Peeled} (hc : c.2 = true → c.1.tail = [])
    (h : Exhausted clusters) : Exhausted (c :: clusters) := by
  intro c' hc' he
  obtain rfl | hc' := List.mem_cons.mp hc'
  · exact hc he
  · exact h c' hc' he

/-- one row of what is left has been dealt, as far as there are places -/
structure Dealt (topK : ℕ) (reps : List ℕ) (clusters : List Peeled)
    (s : List ℕ × Bool × List Peeled) : Prop where
  dealt : s.1 = (reps ++ RoundRobin.row (rests clusters) 0).take topK
  picked : s.2.1 = true ↔ reps.length < topK ∧ RoundRobin.row (rests clusters) 0 ≠ []
  left : reps.length + (RoundRobin.row (rests clusters) 0).length ≤ topK →
    rests s.2.2 = (rests clusters).map List.tail ∧ Exhausted s.2.2

section
variable {reps : List ℕ} {rest : List Peeled} {s : List ℕ × Bool × List Peeled}

theorem Dealt.pass {c : Peeled} (hc : c.1.tail = []) (e : Bool) (h : Dealt topK reps rest s) :
    Dealt topK reps (c :: rest) (s.1, s.2.1, (c.1, e) :: s.2.2) where
  dealt := by
    rw [row_pass hc]
    exact h.dealt
  picked := by
    rw [row_pass hc]
    exact h.picked
  left hroom := by
    rw [row_pass hc] at hroom
    obtain ⟨hrests, hex⟩ := h.left hroom
    refine ⟨?_, hex.cons fun _ => hc⟩
    rw [rests_cons, rests_cons, hrests, List.map_cons, hc]
    rfl

/-- where no place is left, nobody's turn comes -/
theorem Dealt.full (c : Peeled) (hle : reps.length ≤ topK) (hfull : topK ≤ reps.length)
    (h : Dealt topK reps rest s) : Dealt topK reps (c :: rest) (s.1, s.2.1, c :: s.2.2) where
  dealt := by
    rw [h.dealt, List.take_append_of_le_length hfull, List.take_append_of_le_length hfull]
  picked := by
    rw [h.picked]
    omega
  left hroom := by
    cases ht : c.1.tail with
    | nil => exact (h.pass ht c.2).left hroom
    | cons x l =>
      rw [rests_cons, ht, row_cons_cons, List.length_cons] at hroom
      omega

/-- a cluster gives its next member -/
theorem Dealt.turn (first next : ℕ) (tail : List ℕ) {e : Bool} (he : e = false)
    (hroom : reps.length < topK) (h : Dealt topK (reps ++ [next]) rest s) :
    Dealt topK reps ((first :: next :: tail, e) :: rest) (s.1, true, (first :: tail, e) :: s.2.2) := by
  have hrow : RoundRobin.row (rests ((first :: next :: tail, e) :: rest)) 0
      = next :: RoundRobin.row (rests rest) 0 := rfl
  refine ⟨?_, ?_, fun hle => ?_⟩
  · rw [hrow, h.dealt, List.append_assoc, List.singleton_append]
  · rw [hrow]
    exact ⟨fun _ => ⟨hroom, List.cons_ne_nil _ _⟩, fun _ => rfl⟩
  · rw [hrow, List.length_cons] at hle
    obtain ⟨hrests, hex⟩ := h.left (by rw [List.length_append, List.length_singleton]; omega)
    refine ⟨?_, hex.cons fun h => absurd (he.symm.trans h) Bool.false_ne_true⟩
    rw [rests_cons, hrests]
    rfl

end

/-- **A pass deals one row** of what is left, as far as there are places. -/
theorem peelPass_eq (clusters : List Peeled) : ∀ reps : List ℕ, reps.length ≤ topK →
    Exhausted clusters → Dealt topK reps clusters (peelPass topK reps clusters) := by
  induction clusters with
  | nil =>
    intro reps hle hex
    refine ⟨?_, ?_, fun _ => ⟨rfl, hex⟩⟩
    · show reps = (reps ++ []).take topK
      rw [List.append_nil, List.take_of_length_le hle]
    · show false = true ↔ _ ∧ ([] : List ℕ) ≠ []
      simp
  | cons c rest ih =>
    intro reps hle hex
    obtain ⟨sorted, exhausted⟩ := c
    have hex' : Exhausted rest := fun c hc => hex c (List.mem_cons_of_mem _ hc)
    have hrest := ih reps hle hex'
    have hhead : exhausted = true → sorted.tail = [] := hex _ List.mem_cons_self
    unfold peelPass
    split_ifs with hskip
    · obtain hexh | hfull := hskip
      · exact hrest.pass (c := (sorted, exhausted)) (hhead hexh) exhausted
      · exact hrest.full (sorted, exhausted) hle hfull
    · have hroom : reps.length < topK := by omega
      have he : exhausted = false := Bool.eq_false_iff.mpr fun h => hskip (.inl h)
      cases sorted with
      | nil => exact hrest.pass (c := ([], exhausted)) rfl true
      | cons first l =>
        cases l with
        | nil => exact hrest.pass (c := ([first], exhausted)) rfl true
        | cons next tail =>
          exact (ih (reps ++ [next]) (by rw [List.length_append, List.length_singleton]; omega)
            hex').turn first next tail he hroom

/-- **The passes deal all rows** of what is left, as far as there are places. -/
theorem peel_eq (topK fuel : ℕ) : ∀ (reps : List ℕ) (clusters : List Peeled) (rows : ℕ),
    reps.length ≤ topK → topK ≤ fuel + reps.length → Exhausted clusters →
    (∀ l ∈ rests clusters, l.length ≤ rows) →
    peel topK fuel reps clusters
      = (reps ++ RoundRobin.deal rows (rests clusters)).take topK := by
  induction fuel with
  | zero =>
    intro reps clusters rows hle hfuel _ _
    rw [List.take_append_of_le_length (by omega), List.take_of_length_le hle]
    rfl
  | succ fuel ih =>
    intro reps clusters rows hle hfuel hex hrows
    obtain ⟨h1, h2, h3⟩ := peelPass_eq clusters reps hle hex
    unfold peel
    split_ifs with hfull
    · rw [List.take_append_of_le_length hfull, List.take_of_length_le hle]
    · dsimp only
      by_cases hrow : RoundRobin.row (rests clusters) 0 = []
      · -- nothing is left
        have hnil : ∀ l ∈ rests clusters, l = [] := by
          intro l hl
          have := List.filterMap_eq_nil_iff.mp hrow l hl
          exact List.length_eq_zero_iff.mp (Nat.le_zero.mp (List.getElem?_eq_none_iff.mp this))
        rw [if_neg fun hp => (h2.mp hp).2 hrow, h1, hrow, RoundRobin.deal_eq_nil hnil]
      · have hpos := List.length_pos_iff.mpr hrow
        obtain ⟨rows, rfl⟩ : ∃ r, rows = r + 1 := by
          by_contra hno
          have hzero : rows = 0 := by
            cases rows with
            | zero => rfl
            | succ r => exact absurd ⟨r, rfl⟩ hno
          have hnil : ∀ l ∈ rests clusters, l = [] := fun l hl =>
            List.length_eq_zero_iff.mp (Nat.le_zero.mp (hzero ▸ hrows l hl))
          exact hrow (RoundRobin.row_eq_nil hnil 0)
        rw [if_pos (h2.mpr ⟨by omega, hrow⟩), RoundRobin.deal_succ, ← List.append_assoc]
        have hlen : (peelPass topK reps clusters).1.length
            = min topK (reps.length + (RoundRobin.row (rests clusters) 0).length) := by
          rw [h1, List.length_take, List.length_append]
        by_cases hroom : reps.length + (RoundRobin.row (rests clusters) 0).length ≤ topK
        · obtain ⟨h4, h5⟩ := h3 hroom
          have hshort : ∀ l ∈ rests (peelPass topK reps clusters).2.2, l.length ≤ rows := by
            intro l hl
            rw [h4] at hl
            obtain ⟨l', hl', rfl⟩ := List.mem_map.mp hl
            have := hrows l' hl'
            rw [List.length_tail]
            omega
          rw [ih _ _ rows (by omega) (by omega) h5 hshort, h4, h1,
            List.take_of_length_le (l := reps ++ _) (by rw [List.length_append]; exact hroom)]
        · -- the row fills the places, and the next pass stops at once
          have hdone : peel topK fuel (peelPass topK reps clusters).1
              (peelPass topK reps clusters).2.2 = (peelPass topK reps clusters).1 := by
            cases fuel with
            | zero => rfl
            | succ fuel =>
              unfold peel
              rw [if_pos (by omega)]
          have hover : topK ≤ (reps ++ RoundRobin.row (rests clusters) 0).length := by
            rw [List.length_append]
            omega
          rw [hdone, h1, List.take_append_of_le_length hover]

end

/-! ## all rounds -/

section
variable {F : Type} [FloatOps F] {clusters : List (List ℕ)} {vectors : List (QualityVector F)}
  {topK : ℕ}

/-- the clusters, the best member of each first -/
def sortedClusters (vectors : List (QualityVector F)) (clusters : List (List ℕ)) :
    List (List ℕ) := clusters.map (sortCluster vectors)

/-- the third round has nothing to drop -/
theorem dropCrowded_of_le (fuel : ℕ) {reps : List ℕ} (h : reps.length ≤ topK) :
    dropCrowded vectors topK fuel reps = reps := by
  cases fuel with
  | zero => rfl
  | succ fuel =>
    unfold dropCrowded
    rw [if_neg (by omega)]

theorem heads_eq (lists : List (List ℕ)) :
    lists.filterMap List.head? = RoundRobin.row lists 0 := by
  unfold RoundRobin.row
  congr 1
  funext l
  exact List.head?_eq_getElem?

/-- **What is picked is the beginning of the deal of the sorted clusters.** -/
theorem pickWithCrowding_eq (vectors : List (QualityVector F)) (topK : ℕ) {rows : ℕ}
    (hrows : ∀ c ∈ clusters, c.length ≤ rows + 1) :
    pickWithCrowding clusters vectors topK
      = (RoundRobin.deal (rows + 1) (sortedClusters vectors clusters)).take topK := by
  unfold pickWithCrowding
  split_ifs with hempty
  · obtain rfl | rfl := hempty
    · rw [show sortedClusters vectors [] = [] from rfl,
        RoundRobin.deal_eq_nil (fun l hl => absurd hl List.not_mem_nil), List.take_nil]
    · rw [List.take_zero]
  · dsimp only
    rw [RoundRobin.deal_succ, heads_eq]
    show (if topK ≤ (RoundRobin.row (sortedClusters vectors clusters) 0).length then _ else _) = _
    split_ifs with hfull
    · rw [List.take_append_of_le_length hfull]
      rfl
    · have hrests : rests ((sortedClusters vectors clusters).map fun c => (c, false))
          = (sortedClusters vectors clusters).map List.tail := by
        unfold rests
        rw [List.map_map]
        rfl
      have hshort : ∀ l ∈ (sortedClusters vectors clusters).map List.tail, l.length ≤ rows := by
        intro l hl
        obtain ⟨l', hl', rfl⟩ := List.mem_map.mp hl
        obtain ⟨c, hc, rfl⟩ := List.mem_map.mp hl'
        have := hrows c hc
        rw [List.length_tail, (sortCluster_perm vectors c).length_eq]
        omega
      have hex : Exhausted ((sortedClusters vectors clusters).map fun c => (c, false)) := by
        intro c hc he
        obtain ⟨l, -, rfl⟩ := List.mem_map.mp hc
        exact absurd he Bool.false_ne_true
      have hpeel := peel_eq topK topK
        (RoundRobin.row (sortedClusters vectors clusters) 0)
        ((sortedClusters vectors clusters).map fun c => (c, false)) rows (by omega) (by omega) hex
        (hrests ▸ hshort)
      rw [hrests] at hpeel
      rw [show clusters.map (sortCluster vectors) = sortedClusters vectors clusters from rfl,
        hpeel, dropCrowded_of_le _ (List.length_take_le _ _)]

/-! ## fairness -/

/-- how many of the picks are members of the cluster at place `a` -/
def contributed (clusters : List (List ℕ)) (picks : List ℕ) (a : ℕ) : ℕ :=
  picks.countP fun i => i ∈ clusters.getD a []

theorem flatten_perm_of_forall {f : List ℕ → List ℕ} (hf : ∀ c, (f c).Perm c)
    (clusters : List (List ℕ)) : (clusters.map f).flatten.Perm clusters.flatten := by
  induction clusters with
  | nil => exact List.Perm.refl _
  | cons c cs ih => exact (hf c).append ih

theorem getD_sortedClusters (a : ℕ) :
    (sortedClusters vectors clusters).getD a [] = sortCluster vectors (clusters.getD a []) :=
  List.getD_map clusters [] (sortCluster vectors)

theorem length_le_flatten {c : List ℕ} (hc : c ∈ clusters) : c.length ≤ clusters.flatten.length :=
  (List.sublist_flatten_of_mem hc).length_le

/-- **Picking is a fair round-robin.**  From clusters that partition the items as many different
items are picked as there are places, or all.  At any moment a cluster that has contributed its
member `k` is not ahead of another one that has more than `k` members: the other one has
contributed as many, or its turn in this round comes later, and at the end this means that all
places are taken. -/
theorem pickWithCrowding_fair (vectors : List (QualityVector F))
    (hpart : clusters.flatten.Perm (List.range vectors.length)) (topK : ℕ) :
    let picks := pickWithCrowding clusters vectors topK
    picks.length = min topK vectors.length ∧ picks.Nodup ∧ (∀ i ∈ picks, i < vectors.length) ∧
    ∀ m ≤ picks.length, ∀ a b k, k < contributed clusters (picks.take m) a →
      k < (clusters.getD b []).length →
      k < contributed clusters (picks.take m) b ∨
        a < b ∧ contributed clusters (picks.take m) b = k ∧
          contributed clusters (picks.take m) a = k + 1 ∧
          (m = picks.length → picks.length = topK) := by
  have hrows : ∀ c ∈ clusters, c.length ≤ clusters.flatten.length + 1 :=
    fun c hc => Nat.le_succ_of_le (length_le_flatten hc)
  have hpick := pickWithCrowding_eq vectors topK hrows
  have hsorted : (sortedClusters vectors clusters).flatten.Perm clusters.flatten :=
    flatten_perm_of_forall (sortCluster_perm vectors) clusters
  have hdeal : (RoundRobin.deal (clusters.flatten.length + 1)
      (sortedClusters vectors clusters)).Perm (List.range vectors.length) := by
    refine (RoundRobin.deal_perm _ _ fun l hl => ?_).trans (hsorted.trans hpart)
    have := length_le_flatten hl
    rw [hsorted.length_eq] at this
    omega
  have hlen := hdeal.length_eq
  rw [List.length_range] at hlen
  dsimp only
  rw [hpick]
  have hlen' : ((RoundRobin.deal (clusters.flatten.length + 1)
      (sortedClusters vectors clusters)).take topK).length = min topK vectors.length := by
    rw [List.length_take, hlen]
  refine ⟨hlen', ?_, ?_, ?_⟩
  · exact (hdeal.nodup_iff.mpr List.nodup_range).sublist (List.take_sublist _ _)
  · intro i hi
    exact List.mem_range.mp (hdeal.mem_iff.mp (List.mem_of_mem_take hi))
  · intro m hm a b k ha hb
    rw [hlen'] at hm ⊢
    have hnodup : (sortedClusters vectors clusters).flatten.Nodup :=
      (hsorted.trans hpart).nodup_iff.mpr List.nodup_range
    have hgiven : ∀ c, contributed clusters (((RoundRobin.deal (clusters.flatten.length + 1)
        (sortedClusters vectors clusters)).take topK).take m) c
        = RoundRobin.given (clusters.flatten.length + 1) (sortedClusters vectors clusters) m c := by
      intro c
      rw [List.take_take, show min m topK = m by omega, ← RoundRobin.countP_deal hnodup]
      refine List.countP_congr fun i _ => ?_
      rw [decide_eq_true_iff, decide_eq_true_iff, getD_sortedClusters,
        (sortCluster_perm vectors _).mem_iff]
    rw [hgiven] at ha
    rw [hgiven, hgiven]
    have hb' : k < ((sortedClusters vectors clusters).getD b []).length := by
      rwa [getD_sortedClusters, (sortCluster_perm vectors _).length_eq]
    obtain h | ⟨h1, h2, h3, h4⟩ := RoundRobin.given_fair ha hb'
    · exact Or.inl h
    · refine Or.inr ⟨h1, h2, h3, fun he => ?_⟩
      rw [RoundRobin.deal_eq, List.length_map] at hlen
      omega

end

/-- the scores of three items -/
def threeItems : List (QualityVector ℚ) := [⟨8, 8, 8, 8, 8⟩, ⟨9, 9, 9, 9, 9⟩, ⟨7, 7, 7, 7, 7⟩]

theorem pickWithCrowding_fair_three :
    let picks := pickWithCrowding [[0, 1], [2]] threeItems 2
    picks.length = 2 ∧ picks.Nodup ∧ (∀ i ∈ picks, i < 3) ∧
    ∀ m ≤ picks.length, ∀ a b k, k < contributed [[0, 1], [2]] (picks.take m) a →
      k < (([[0, 1], [2]] : List (List ℕ)).getD b []).length →
      k < contributed [[0, 1], [2]] (picks.take m) b ∨
        a < b ∧ contributed [[0, 1], [2]] (picks.take m) b = k ∧
          contributed [[0, 1], [2]] (picks.take m) a = k + 1 ∧
          (m = picks.length → picks.length = 2) :=
  pickWithCrowding_fair threeItems (List.Perm.refl _) 2

end Moagan.Rank
