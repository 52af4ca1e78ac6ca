import Mathlib.Data.Prod.Lex
import Moagan.Lib.Greedy
import Moagan.Rank.Selection

/-!
# The diverse selection in parallel (`apply_diverse` and `pick_next` in `src/phases/cardinality.rs`)

* `Picks`, `DiverseRun`, `Selects`   the calls, however the reductions group their comparisons
* `diverseKey`             the distance to what is chosen, then the score
* `diverseLoop_eq_greedy`  the loop is the greedy choice by this key
* `selects_iff`            every grouping selects the same
* `applyDiverse_spec`      what is selected
-/

namespace Moagan.Rank

open Greedy

section
variable {D : Type} [FloatOps D] (alphanumeric : Char → Bool)

/-! ## whatever the groups are -/

/-- `min_dist` of a candidate; `reduce_with` may group the distances -/
def MinDist (feats : Finset String) (chosenFeatures : List (Finset String)) (d : D) : Prop :=
  if chosenFeatures = [] then d = 0
  else Reduction.ReduceWith min (chosenFeatures.map (tokenDistance feats)) (some d)

/-- `pick_next` may return this place -/
def Picks (chosenFeatures : List (Finset String)) (remaining : List (Scored D)) (i : ℕ) : Prop :=
  ∃ candidates : List (Candidate D),
    List.Forall₂ (fun (e : Scored D × ℕ) c => c.idx = e.2 ∧
      MinDist (tokenFeaturesForProposal alphanumeric e.1.proposal) chosenFeatures c.minDist ∧
      c.score = e.1.score) remaining.zipIdx candidates ∧
    ∃ o, Reduction.ReduceWith better candidates o ∧ i = (o.map Candidate.idx).getD 0

/-- the loop may choose these ids -/
inductive DiverseRun : ℕ → List (Finset String) → List (Scored D) → List String → Prop
  | done (chosenFeatures : List (Finset String)) (remaining : List (Scored D)) :
    DiverseRun 0 chosenFeatures remaining []
  | choose {n i : ℕ} {chosenFeatures : List (Finset String)} {remaining : List (Scored D)}
    {c : Scored D} {ids : List String} : Picks alphanumeric chosenFeatures remaining i →
    remaining[i]? = some c →
    DiverseRun n (chosenFeatures ++ [tokenFeaturesForProposal alphanumeric c.proposal])
      (remaining.eraseIdx i) ids →
    DiverseRun (n + 1) chosenFeatures remaining (c.id :: ids)

/-- `apply_diverse` may return these ids -/
def Selects (count : ℕ) (scored : List (Scored D)) (ids : List String) : Prop :=
  if count = 0 ∨ scored.length = 0 then ids = []
  else DiverseRun alphanumeric (min count scored.length) [] (sortScored scored) ids

/-! ## keys -/

def Scored.features (e : Scored D) : Finset String :=
  tokenFeaturesForProposal alphanumeric e.proposal

/-- the least distance to what is chosen, zero when nothing is -/
def minDistTo (chosen : List (Scored D)) (e : Scored D) : D :=
  ((chosen.map fun c =>
    tokenDistance (e.features alphanumeric) (c.features alphanumeric)).min?).getD 0

def diverseKey (chosen : List (Scored D)) (e : Scored D) : D ×ₗ D :=
  toLex (minDistTo alphanumeric chosen e, e.score)

def Candidate.key (c : Candidate D) : D ×ₗ D := toLex (c.minDist, c.score)

variable {alphanumeric}

theorem candidate_key (chosen : List (Scored D)) (e : Scored D × ℕ) :
    (candidate alphanumeric (chosen.map (Scored.features alphanumeric)) e).key
      = diverseKey alphanumeric chosen e.1 := by
  unfold Candidate.key candidate diverseKey minDistTo
  rw [List.map_map]
  rfl

/-- the operation of the reduction takes the greater key, the second of two that are equal -/
theorem better_eq : (better : Candidate D → Candidate D → Candidate D)
    = Reduction.better Candidate.key := by
  funext a b
  have hlt : (b.minDist < a.minDist ∨ (a.minDist = b.minDist ∧ b.score < a.score)) ↔
      b.key < a.key := by
    unfold Candidate.key
    rw [Prod.Lex.toLex_lt_toLex, eq_comm (a := a.minDist)]
  exact if_congr hlt rfl rfl

theorem pickNext_eq_reduce (chosenFeatures : List (Finset String))
    (remaining : List (Scored D)) :
    pickNext alphanumeric chosenFeatures remaining
      = ((Reduction.reduce better
          (remaining.zipIdx.map (candidate alphanumeric chosenFeatures))).map
            Candidate.idx).getD 0 := by
  unfold pickNext
  cases remaining.zipIdx.map (candidate alphanumeric chosenFeatures) with
  | nil => rfl
  | cons c cs => rfl

theorem pickNext_eq_pick (chosen remaining : List (Scored D)) :
    pickNext alphanumeric (chosen.map (Scored.features alphanumeric)) remaining
      = (pick (diverseKey alphanumeric chosen) remaining).getD 0 := by
  rw [pickNext_eq_reduce, better_eq]
  unfold pick
  rw [Reduction.reduce_map
    (Reduction.better fun e : Scored D × ℕ => diverseKey alphanumeric chosen e.1),
    Option.map_map]
  · rfl
  · intro a b
    unfold Reduction.better
    rw [candidate_key, candidate_key]
    split <;> rfl

/-- **The loop is the greedy choice by the key.** -/
theorem diverseLoop_eq_greedy (alphanumeric : Char → Bool) (n : ℕ) : ∀ chosen remaining : List (Scored D),
    diverseLoop alphanumeric n (chosen.map (Scored.features alphanumeric)) remaining
      = (greedy (diverseKey alphanumeric) n chosen remaining).map Scored.id := by
  induction n with
  | zero => exact fun _ _ => rfl
  | succ n ih =>
    intro chosen remaining
    unfold diverseLoop
    rw [pickNext_eq_pick]
    by_cases hne : remaining = []
    · subst hne
      rfl
    · obtain ⟨i, x, hp, hx, -, heq⟩ := greedy_succ (diverseKey alphanumeric) n chosen hne
      rw [heq, hp, Option.getD_some]
      dsimp only
      rw [hx]
      show x.id :: _ = x.id :: _
      have hchosen : chosen.map (Scored.features alphanumeric)
          ++ [tokenFeaturesForProposal alphanumeric x.proposal]
          = (chosen ++ [x]).map (Scored.features alphanumeric) := by
        rw [List.map_append]
        rfl
      rw [hchosen, ih]

/-! ## every grouping selects the same -/

theorem minDist_iff {feats : Finset String} {chosenFeatures : List (Finset String)} {d : D} :
    MinDist feats chosenFeatures d ↔
      d = ((chosenFeatures.map (tokenDistance feats)).min?).getD 0 := by
  unfold MinDist
  cases chosenFeatures with
  | nil => exact Iff.rfl
  | cons c cs =>
    rw [if_neg (List.cons_ne_nil c cs), Reduction.reduceWith_iff min_assoc]
    exact Option.some_inj

theorem picks_iff {chosenFeatures : List (Finset String)} {remaining : List (Scored D)} {i : ℕ} :
    Picks alphanumeric chosenFeatures remaining i ↔
      i = pickNext alphanumeric chosenFeatures remaining := by
  have hassoc : ∀ a b c : Candidate D, better (better a b) c = better a (better b c) := by
    rw [better_eq]
    exact Reduction.better_assoc
  -- the candidates are the ones of the source
  have hcandidates : ∀ cs : List (Candidate D),
      List.Forall₂ (fun (e : Scored D × ℕ) c => c.idx = e.2 ∧
        MinDist (tokenFeaturesForProposal alphanumeric e.1.proposal) chosenFeatures c.minDist ∧
        c.score = e.1.score) remaining.zipIdx cs ↔
      cs = remaining.zipIdx.map (candidate alphanumeric chosenFeatures) := by
    intro cs
    rw [eq_comm, ← List.forall₂_eq_eq_eq, List.forall₂_map_left_iff]
    have hone : (fun (e : Scored D × ℕ) (c : Candidate D) => c.idx = e.2 ∧
        MinDist (tokenFeaturesForProposal alphanumeric e.1.proposal) chosenFeatures c.minDist ∧
        c.score = e.1.score)
        = fun e c => candidate alphanumeric chosenFeatures e = c := by
      funext e c
      obtain ⟨idx, minDist, score⟩ := c
      rw [minDist_iff]
      unfold candidate
      simp only [Candidate.mk.injEq]
      exact propext ⟨fun h => ⟨h.1.symm, h.2.1.symm, h.2.2.symm⟩,
        fun h => ⟨h.1.symm, h.2.1.symm, h.2.2.symm⟩⟩
    rw [hone]
  unfold Picks
  rw [pickNext_eq_reduce]
  constructor
  · intro ⟨cs, hcs, o, ho, hi⟩
    rw [hi, (Reduction.reduceWith_iff hassoc).mp ho, (hcandidates cs).mp hcs]
  · intro hi
    exact ⟨_, (hcandidates _).mpr rfl, _, Reduction.reduceWith_reduce _, hi⟩

theorem pickNext_lt (alphanumeric : Char → Bool) (chosenFeatures : List (Finset String))
    {remaining : List (Scored D)} (h : remaining ≠ []) :
    pickNext alphanumeric chosenFeatures remaining < remaining.length := by
  rw [pickNext_eq_reduce, better_eq]
  cases hr : Reduction.reduce (Reduction.better Candidate.key)
      (remaining.zipIdx.map (candidate alphanumeric chosenFeatures)) with
  | none => exact List.length_pos_iff.mpr h
  | some c =>
    obtain ⟨⟨e, i⟩, he, rfl⟩ := List.mem_map.mp (Reduction.reduce_better hr).1
    exact (List.getElem?_eq_some_iff.mp (List.mem_zipIdx_iff_getElem?.mp he)).1

theorem diverseRun_iff {n : ℕ} : ∀ {chosenFeatures : List (Finset String)}
    {remaining : List (Scored D)} {ids : List String}, n ≤ remaining.length →
    (DiverseRun alphanumeric n chosenFeatures remaining ids ↔
      ids = diverseLoop alphanumeric n chosenFeatures remaining) := by
  induction n with
  | zero =>
    intro chosenFeatures remaining ids _
    constructor
    · rintro ⟨⟩
      rfl
    · rintro rfl
      exact .done _ _
  | succ n ih =>
    intro chosenFeatures remaining ids hn
    have hne : remaining ≠ [] := by
      rintro rfl
      exact absurd hn (Nat.not_succ_le_zero n)
    have hlt := pickNext_lt alphanumeric chosenFeatures hne
    have hget := List.getElem?_eq_getElem hlt
    have hlen : n ≤ (remaining.eraseIdx
        (pickNext alphanumeric chosenFeatures remaining)).length := by
      rw [List.length_eraseIdx_of_lt hlt]
      omega
    unfold diverseLoop
    dsimp only
    rw [hget]
    constructor
    · rintro (_ | ⟨hpick, hc, hrest⟩)
      obtain rfl := picks_iff.mp hpick
      obtain rfl := Option.some.inj (hget.symm.trans hc)
      rw [(ih hlen).mp hrest]
    · rintro rfl
      exact .choose (picks_iff.mpr rfl) hget ((ih hlen).mpr rfl)

theorem sortScored_perm (scored : List (Scored D)) : (sortScored scored).Perm scored :=
  List.perm_insertionSort _ _

/-- **Every grouping selects the same.** -/
theorem selects_iff {count : ℕ} {scored : List (Scored D)} {ids : List String} :
    Selects alphanumeric count scored ids ↔ ids = applyDiverse alphanumeric count scored := by
  unfold Selects applyDiverse
  split
  · exact Iff.rfl
  · refine diverseRun_iff ?_
    rw [(sortScored_perm scored).length_eq]
    exact min_le_right _ _

/-! ## what is selected -/

/-- the entries with their positions, in the order of `sortScored` -/
def sortPlaced (scored : List (Scored D)) : List (Scored D × ℕ) :=
  scored.zipIdx.insertionSort fun a b => b.1.score ≤ a.1.score

theorem sortPlaced_map (scored : List (Scored D)) :
    (sortPlaced scored).map Prod.fst = sortScored scored := by
  unfold sortPlaced sortScored
  rw [List.map_insertionSort _ (fun a b : Scored D => b.score ≤ a.score) Prod.fst _
    fun _ _ _ _ => Iff.rfl, List.zipIdx_map_fst]

theorem sortPlaced_perm (scored : List (Scored D)) :
    (sortPlaced scored).Perm scored.zipIdx := List.perm_insertionSort _ _

/-- the choices with their positions -/
def choices (alphanumeric : Char → Bool) (n : ℕ) (scored : List (Scored D)) :
    List (Scored D × ℕ) :=
  greedy (fun chosen e => diverseKey alphanumeric (chosen.map Prod.fst) e.1) n []
    (sortPlaced scored)

theorem applyDiverse_eq_choices (alphanumeric : Char → Bool) (count : ℕ)
    (scored : List (Scored D)) :
    applyDiverse alphanumeric count scored
      = (choices alphanumeric (min count scored.length) scored).map fun e => e.1.id := by
  have hloop : diverseLoop alphanumeric (min count scored.length) [] (sortScored scored)
      = (choices alphanumeric (min count scored.length) scored).map fun e => e.1.id := by
    unfold choices
    rw [← sortPlaced_map]
    have h := diverseLoop_eq_greedy alphanumeric (min count scored.length) []
      ((sortPlaced scored).map Prod.fst)
    rw [List.map_nil] at h
    rw [h]
    have hmap := greedy_map (diverseKey alphanumeric) Prod.fst (min count scored.length) []
      (sortPlaced scored)
    rw [List.map_nil] at hmap
    rw [hmap, List.map_map]
    rfl
  unfold applyDiverse
  split
  · rename_i hnone
    rw [show min count scored.length = 0 by omega]
    rfl
  · exact hloop

theorem applyDiverse_prefix (count : ℕ) (scored : List (Scored D)) :
    applyDiverse alphanumeric count scored <+: applyDiverse alphanumeric (count + 1) scored := by
  rw [applyDiverse_eq_choices, applyDiverse_eq_choices]
  refine List.IsPrefix.map _ ?_
  by_cases h : count < scored.length
  · rw [min_eq_left h.le, min_eq_left h]
    exact greedy_prefix _ count _ _
  · rw [min_eq_right (by omega), min_eq_right (by omega)]

/-- the entries of positions -/
theorem filterMap_positions {S : Type} {scored : List S} {l : List (S × ℕ)}
    (h : ∀ e ∈ l, scored[e.2]? = some e.1) :
    (l.map Prod.snd).filterMap (scored[·]?) = l.map Prod.fst := by
  induction l with
  | nil => rfl
  | cons e l ih =>
    rw [List.map_cons, List.filterMap_cons_some (h e List.mem_cons_self),
      ih fun e he => h e (List.mem_cons_of_mem _ he)]
    rfl

/-- the choices are entries of distinct positions, each with the greatest key of what is left -/
theorem choices_spec (alphanumeric : Char → Bool) {n : ℕ} {scored : List (Scored D)}
    (hn : n ≤ scored.length) :
    (choices alphanumeric n scored).length = n ∧
      ((choices alphanumeric n scored).map Prod.snd).Nodup ∧
      (∀ e ∈ choices alphanumeric n scored, scored[e.2]? = some e.1) ∧
      ∀ k x, (choices alphanumeric n scored)[k]? = some x → ∀ q e, scored[q]? = some e →
        q ∉ ((choices alphanumeric n scored).take k).map Prod.snd →
        diverseKey alphanumeric (((choices alphanumeric n scored).take k).map Prod.fst) e
          ≤ diverseKey alphanumeric (((choices alphanumeric n scored).take k).map Prod.fst) x.1 := by
  have hsorted := sortPlaced_perm scored
  have hmem : ∀ {e : Scored D} {q : ℕ}, (e, q) ∈ sortPlaced scored ↔ scored[q]? = some e :=
    hsorted.mem_iff.trans List.mem_zipIdx_iff_getElem?
  obtain ⟨hlength, left, hperm⟩ := greedy_perm
    (fun chosen (e : Scored D × ℕ) => diverseKey alphanumeric (chosen.map Prod.fst) e.1)
    n [] (sortPlaced scored) (by rwa [hsorted.length_eq, List.length_zipIdx])
  have hnodup : ((sortPlaced scored).map Prod.snd).Nodup := by
    rw [(hsorted.map Prod.snd).nodup_iff, List.zipIdx_map_snd]
    exact List.nodup_range'
  refine ⟨hlength, ?_, fun e he => ?_, fun k x hx q e hq hnot => ?_⟩
  · rw [← (hperm.map Prod.snd).nodup_iff, List.map_append] at hnodup
    exact (List.nodup_append.mp hnodup).1
  · exact hmem.mp (hperm.mem_iff.mp (List.mem_append_left _ he))
  · refine greedy_max
      (fun chosen (e : Scored D × ℕ) => diverseKey alphanumeric (chosen.map Prod.fst) e.1)
      n [] (sortPlaced scored) k x hx (e, q) (hmem.mpr hq) fun hin => ?_
    exact hnot (List.mem_map_of_mem (f := Prod.snd) hin)

/-- **the diverse selection.**  Whatever the groups of the parallel reductions are, the same ids are
selected, and more of them begin with the same ones.  They are those of distinct positions of the
list, as many as asked for or as there are: first one with the highest score, then one after the
other that maximises the least distance to those before it, and then the score, among what remains. -/
theorem applyDiverse_spec (alphanumeric : Char → Bool) (count : ℕ) (scored : List (Scored D)) :
    (∀ ids, Selects alphanumeric count scored ids ↔
      ids = applyDiverse alphanumeric count scored) ∧
    applyDiverse alphanumeric count scored <+: applyDiverse alphanumeric (count + 1) scored ∧
    ∃ positions : List ℕ, positions.Nodup ∧ positions.length = min count scored.length ∧
      (∀ p ∈ positions, p < scored.length) ∧
      applyDiverse alphanumeric count scored
        = (positions.filterMap (scored[·]?)).map Scored.id ∧
      (∀ p e, positions[0]? = some p → scored[p]? = some e →
        ∀ e' ∈ scored, e'.score ≤ e.score) ∧
      ∀ k p e, positions[k]? = some p → scored[p]? = some e →
        ∀ q e', scored[q]? = some e' → q ∉ positions.take k →
          diverseKey alphanumeric ((positions.take k).filterMap (scored[·]?)) e'
            ≤ diverseKey alphanumeric ((positions.take k).filterMap (scored[·]?)) e := by
  refine ⟨fun ids => selects_iff, applyDiverse_prefix count scored, ?_⟩
  have happly := applyDiverse_eq_choices alphanumeric count scored
  obtain ⟨hlength, hnodup, hentry, hmax⟩ :=
    choices_spec alphanumeric (min_le_right count scored.length)
  generalize choices alphanumeric (min count scored.length) scored = r at *
  have hnext : ∀ k p e, (r.map Prod.snd)[k]? = some p → scored[p]? = some e →
      ∀ q e', scored[q]? = some e' → q ∉ (r.map Prod.snd).take k →
      diverseKey alphanumeric (((r.map Prod.snd).take k).filterMap (scored[·]?)) e'
        ≤ diverseKey alphanumeric (((r.map Prod.snd).take k).filterMap (scored[·]?)) e := by
    intro k p e hp he q e' he' hnot
    rw [List.getElem?_map] at hp
    obtain ⟨x, hx, rfl⟩ := Option.map_eq_some_iff.mp hp
    obtain rfl := Option.some.inj ((hentry x (List.mem_of_getElem? hx)).symm.trans he)
    rw [← List.map_take] at hnot ⊢
    rw [filterMap_positions fun e he => hentry e (List.mem_of_mem_take he)]
    exact hmax k x hx q e' he' hnot
  refine ⟨r.map Prod.snd, hnodup, by rw [List.length_map, hlength], fun p hp => ?_, ?_,
    fun p e hp he e' he' => ?_, hnext⟩
  · obtain ⟨x, hx, rfl⟩ := List.mem_map.mp hp
    exact (List.getElem?_eq_some_iff.mp (hentry x hx)).1
  · rw [happly, filterMap_positions hentry, List.map_map]
    rfl
  · -- nothing is chosen yet: the distances are all zero
    obtain ⟨q, hq⟩ := List.getElem?_of_mem he'
    have hle := hnext 0 p e hp he q e' hq List.not_mem_nil
    have hkey : ∀ x : Scored D, diverseKey alphanumeric [] x = toLex (0, x.score) := fun _ => rfl
    rw [List.take_zero, List.filterMap_nil, hkey, hkey, Prod.Lex.toLex_le_toLex] at hle
    exact hle.elim (fun h => absurd h (lt_irrefl _)) fun h => h.2

end

end Moagan.Rank
