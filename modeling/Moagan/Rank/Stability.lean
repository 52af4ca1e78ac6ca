import Mathlib.Data.String.Basic
import Moagan.Lib.SortedMap
import Moagan.Rank.Quality

/-!
# Stability of the ranking (`src/ranking/stability.rs`)

The weights are perturbed, and the proposals are ranked again under each perturbation.

* `perturbWeights`    the perturbations, drawn from a random generator
* `topOne`            the first proposal under some weights
* `stabilityScore`    the share of the perturbations that each proposal wins
* `stabilityCheck`    the label of the ranking
* `stabilityCheck_stable_iff`   when the label is about the winner under the base weights
-/

namespace Moagan.Rank

section
variable {F : Type} [FloatOps F]

structure EvalSnapshot (F : Type) where
  correctness : F
  completeness : F
  fit : F
  evidence : F
  clarity : F
  overall : F
deriving DecidableEq, Repr

def EvalSnapshot.weightedScore (s : EvalSnapshot F) (w : RankingWeights F) : F :=
  w.weightedScore s.correctness s.completeness s.fit s.evidence s.clarity s.overall

/-! ## perturbation -/

def WEIGHT_CLIP_LO : F := 0
def WEIGHT_CLIP_HIGH : F := ((2 : ℕ) : F)

/-- `x.clamp(lo, hi)` -/
def clamp (lo hi x : F) : F := if x < lo then lo else if hi < x then hi else x

variable {Rng : Type} (withSeed : ℕ → Rng) (gaussian : Rng → F × Rng)

def perturbOne (base sigma : F) (rng : Rng) : F × Rng :=
  let (g, rng) := gaussian rng
  let noise := g * sigma
  (clamp WEIGHT_CLIP_LO WEIGHT_CLIP_HIGH (base + noise), rng)

def perturbAll (base : RankingWeights F) (sigma : F) (rng : Rng) : RankingWeights F × Rng :=
  let (correctness, rng) := perturbOne gaussian base.correctness sigma rng
  let (completeness, rng) := perturbOne gaussian base.completeness sigma rng
  let (fit, rng) := perturbOne gaussian base.fit sigma rng
  let (evidence, rng) := perturbOne gaussian base.evidence sigma rng
  let (clarity, rng) := perturbOne gaussian base.clarity sigma rng
  let (overall, rng) := perturbOne gaussian base.overall sigma rng
  (⟨correctness, completeness, fit, evidence, clarity, overall⟩, rng)

def perturbLoop (base : RankingWeights F) (sigma : F) : ℕ → Rng → List (RankingWeights F)
  | 0, _ => []
  | n + 1, rng =>
    let (w, rng) := perturbAll gaussian base sigma rng
    w :: perturbLoop base sigma n rng

def perturbWeights (base : RankingWeights F) (n : ℕ) (sigma : F) (seed : ℕ) :
    List (RankingWeights F) :=
  if n = 0 ∨ sigma ≤ 0 then [] else perturbLoop gaussian base sigma n (withSeed seed)

/-! ## the score -/

/-- the evaluations, with the ids of their proposals -/
abbrev Evaluations (F : Type) := List (String × EvalSnapshot F)

/-- the first under some weights, by the id among equal ones -/
def topOne (w : RankingWeights F) (evaluations : Evaluations F) : Option (String × F) :=
  evaluations.foldl (fun best e =>
    let score := e.2.weightedScore w
    match best with
    | none => some (e.1, score)
    | some (curId, curScore) =>
      if curScore < score ∨ (score = curScore ∧ e.1 < curId) then some (e.1, score)
      else some (curId, curScore)) none

/-- how often each proposal comes first -/
def countWins (evaluations : Evaluations F) (weightsSet : List (RankingWeights F)) :
    SortedMap String ℕ :=
  weightsSet.foldl (fun wins w =>
    match topOne w evaluations with
    | some (id, _) => wins.insert id ((wins.get? id).getD 0 + 1)
    | none => wins) SortedMap.empty

def stabilityScore (weightsSet : List (RankingWeights F)) (evaluations : Evaluations F) :
    SortedMap String F :=
  if weightsSet.isEmpty || evaluations.isEmpty then SortedMap.empty
  else
    match evaluations with
    | [e] => SortedMap.empty.insert e.1 1
    | _ =>
      let total : F := (weightsSet.length : F)
      let wins := countWins evaluations weightsSet
      evaluations.foldl (fun out e =>
        out.insert e.1 ((((wins.get? e.1).getD 0 : ℕ) : F) / total)) SortedMap.empty

/-! ## the label -/

inductive StabilityLabel
  | stable
  | sensitive
deriving DecidableEq, Repr

def stabilityLabel (score threshold : F) : StabilityLabel :=
  if threshold ≤ score then .stable else .sensitive

/-- `score.values().copied().reduce(f32::max)` -/
def topScore (score : SortedMap String F) : Option F :=
  match score.entries.map Prod.snd with
  | [] => none
  | x :: xs => some (xs.foldl max x)

/-- the check of some perturbed weights -/
def checkWeights (weightsSet : List (RankingWeights F)) (evaluations : Evaluations F)
    (sigma threshold : F) : SortedMap String F × StabilityLabel × F :=
  let score := stabilityScore weightsSet evaluations
  let label :=
    match topScore score with
    | some top => stabilityLabel top threshold
    | none => .stable
  (score, label, sigma)

def stabilityCheck (baseWeights : RankingWeights F) (evaluations : Evaluations F) (n : ℕ)
    (sigma : F) (seed : ℕ) (threshold : F) : SortedMap String F × StabilityLabel × F :=
  checkWeights (perturbWeights withSeed gaussian baseWeights n sigma seed) evaluations sigma
    threshold

end

/-! ## the winner under some weights -/

section
variable {F : Type} [FloatOps F] {w : RankingWeights F} {evaluations : Evaluations F}

/-- no proposal scores more, and none that scores as much has a smaller id -/
def IsTop (w : RankingWeights F) (evaluations : Evaluations F) (id : String) (score : F) : Prop :=
  (∃ e ∈ evaluations, e.1 = id ∧ e.2.weightedScore w = score) ∧
    ∀ e ∈ evaluations, e.2.weightedScore w < score ∨ (e.2.weightedScore w = score ∧ id ≤ e.1)

theorem topOne_append (w : RankingWeights F) (evaluations : Evaluations F)
    (e : String × EvalSnapshot F) : topOne w (evaluations ++ [e]) =
      match topOne w evaluations with
      | none => some (e.1, e.2.weightedScore w)
      | some (curId, curScore) =>
        if curScore < e.2.weightedScore w ∨ (e.2.weightedScore w = curScore ∧ e.1 < curId) then
          some (e.1, e.2.weightedScore w)
        else some (curId, curScore) := by
  unfold topOne
  rw [List.foldl_append, List.foldl_cons, List.foldl_nil]

theorem topOne_isTop (w : RankingWeights F) (evaluations : Evaluations F) :
    (topOne w evaluations = none → evaluations = []) ∧
      ∀ id score, topOne w evaluations = some (id, score) → IsTop w evaluations id score := by
  induction evaluations using List.reverseRecOn with
  | nil => exact ⟨fun _ => rfl, fun id score h => by cases h⟩
  | append_singleton es e ih =>
    obtain ⟨hnone, hsome⟩ := ih
    rw [topOne_append]
    cases hbest : topOne w es with
    | none =>
      obtain rfl := hnone hbest
      refine ⟨fun h => (by cases h), fun id score h => ?_⟩
      obtain ⟨rfl, rfl⟩ := Prod.mk.inj (Option.some.inj h)
      refine ⟨⟨e, List.mem_cons_self, rfl, rfl⟩, fun e' he' => ?_⟩
      obtain rfl := List.mem_singleton.mp he'
      exact Or.inr ⟨rfl, le_rfl⟩
    | some best =>
      obtain ⟨curId, curScore⟩ := best
      obtain ⟨⟨b, hb, hbid, hbscore⟩, hmax⟩ := hsome curId curScore hbest
      dsimp only
      split_ifs with hbeats
      · -- the new one is ahead of the best so far, and so of all
        refine ⟨fun h => (by cases h), fun id score h => ?_⟩
        obtain ⟨rfl, rfl⟩ := Prod.mk.inj (Option.some.inj h)
        refine ⟨⟨e, List.mem_append_right _ List.mem_cons_self, rfl, rfl⟩, fun e' he' => ?_⟩
        obtain he' | he' := List.mem_append.mp he'
        · obtain hlt | ⟨heq, hid⟩ := hmax e' he'
          · obtain hup | ⟨hsame, -⟩ := hbeats
            · exact Or.inl (hlt.trans hup)
            · exact Or.inl (hsame ▸ hlt)
          · obtain hup | ⟨hsame, hless⟩ := hbeats
            · exact Or.inl (heq ▸ hup)
            · exact Or.inr ⟨heq.trans hsame.symm, (hless.trans_le hid).le⟩
        · obtain rfl := List.mem_singleton.mp he'
          exact Or.inr ⟨rfl, le_rfl⟩
      · refine ⟨fun h => (by cases h), fun id score h => ?_⟩
        obtain ⟨rfl, rfl⟩ := Prod.mk.inj (Option.some.inj h)
        refine ⟨⟨b, List.mem_append_left _ hb, hbid, hbscore⟩, fun e' he' => ?_⟩
        obtain he' | he' := List.mem_append.mp he'
        · exact hmax e' he'
        · obtain rfl := List.mem_singleton.mp he'
          obtain ⟨h1, h2⟩ := not_or.mp hbeats
          obtain hlt | heq := lt_or_eq_of_le (not_lt.mp h1)
          · exact Or.inl hlt
          · exact Or.inr ⟨heq, not_lt.mp fun hid => h2 ⟨heq, hid⟩⟩

/-- there is one first proposal at most -/
theorem IsTop.unique {id id' : String} {score score' : F} (h : IsTop w evaluations id score)
    (h' : IsTop w evaluations id' score') : id = id' ∧ score = score' := by
  obtain ⟨⟨e, he, rfl, rfl⟩, hmax⟩ := h
  obtain ⟨⟨e', he', rfl, rfl⟩, hmax'⟩ := h'
  obtain hlt | ⟨heq, hle⟩ := hmax e' he'
  · obtain hlt' | ⟨heq', -⟩ := hmax' e he
    · exact absurd hlt hlt'.not_gt
    · exact absurd heq' hlt.ne'
  · obtain hlt' | ⟨-, hle'⟩ := hmax' e he
    · exact absurd heq hlt'.ne'
    · exact ⟨le_antisymm hle hle', heq.symm⟩

/-- **The loop finds the first proposal.** -/
theorem topOne_eq_some_iff {id : String} {score : F} :
    topOne w evaluations = some (id, score) ↔ IsTop w evaluations id score := by
  constructor
  · exact (topOne_isTop w evaluations).2 id score
  · intro h
    cases hbest : topOne w evaluations with
    | none =>
      obtain ⟨⟨e, he, -⟩, -⟩ := h
      rw [(topOne_isTop w evaluations).1 hbest] at he
      exact absurd he List.not_mem_nil
    | some best =>
      obtain ⟨id', score'⟩ := best
      obtain ⟨rfl, rfl⟩ := h.unique ((topOne_isTop w evaluations).2 id' score' hbest)
      rfl

end

/-! ## the shares -/

section
variable {F : Type} [FloatOps F] {evaluations : Evaluations F}
  {weightsSet : List (RankingWeights F)}

/-- the perturbations under which a proposal comes first -/
def wins (weightsSet : List (RankingWeights F)) (evaluations : Evaluations F) (id : String) : ℕ :=
  weightsSet.countP fun w => (topOne w evaluations).map Prod.fst = some id

/-- the share of the perturbations under which a proposal comes first -/
def share (weightsSet : List (RankingWeights F)) (evaluations : Evaluations F) (id : String) : F :=
  (wins weightsSet evaluations id : F) / (weightsSet.length : F)

theorem countWins_eq (evaluations : Evaluations F) (weightsSet : List (RankingWeights F))
    (id : String) :
    ((countWins evaluations weightsSet).get? id).getD 0 = wins weightsSet evaluations id := by
  unfold countWins wins
  induction weightsSet using List.reverseRecOn with
  | nil => rfl
  | append_singleton ws w ih =>
    rw [List.foldl_append, List.foldl_cons, List.foldl_nil, List.countP_append,
      List.countP_singleton, ← ih]
    cases topOne w evaluations with
    | none => rfl
    | some best =>
      obtain ⟨id', score⟩ := best
      dsimp only [Option.map_some]
      rw [SortedMap.get?_insert]
      by_cases h : id = id'
      · subst h
        rw [if_pos rfl, if_pos (decide_eq_true rfl)]
        rfl
      · rw [if_neg h, if_neg]
        · rfl
        · intro he
          exact h (Option.some.inj (of_decide_eq_true he)).symm

omit [FloatOps F] in
theorem get?_foldl_insert (f : String → F) (evaluations : Evaluations F)
    (out : SortedMap String F) (id : String) :
    (evaluations.foldl (fun out e => out.insert e.1 (f e.1)) out).get? id
      = if id ∈ evaluations.map Prod.fst then some (f id) else out.get? id := by
  induction evaluations generalizing out with
  | nil => rfl
  | cons e es ih =>
    rw [List.foldl_cons, ih, SortedMap.get?_insert, List.map_cons]
    by_cases hes : id ∈ es.map Prod.fst
    · rw [if_pos hes, if_pos (List.mem_cons_of_mem _ hes)]
    · rw [if_neg hes]
      by_cases he : id = e.1
      · rw [if_pos he, if_pos (he ▸ List.mem_cons_self), he]
      · rw [if_neg he, if_neg fun h => (List.mem_cons.mp h).elim he hes]

end

section
variable {evaluations : Evaluations ℚ} {weightsSet : List (RankingWeights ℚ)}

/-- a single proposal wins always -/
theorem wins_single (e : String × EvalSnapshot ℚ) (weightsSet : List (RankingWeights ℚ)) :
    wins weightsSet [e] e.1 = weightsSet.length := by
  unfold wins
  rw [List.countP_eq_length]
  intro w _
  exact decide_eq_true rfl

/-- **The score has the share of every proposal.** -/
theorem stabilityScore_get? (hws : weightsSet ≠ []) (evaluations : Evaluations ℚ) (id : String) :
    (stabilityScore weightsSet evaluations).get? id
      = if id ∈ evaluations.map Prod.fst then some (share weightsSet evaluations id)
        else none := by
  have hlen : (weightsSet.length : ℚ) ≠ 0 :=
    Nat.cast_ne_zero.mpr fun h => hws (List.length_eq_zero_iff.mp h)
  have hempty : weightsSet.isEmpty = false := List.isEmpty_eq_false_iff.mpr hws
  unfold stabilityScore
  rw [hempty, Bool.false_or]
  match evaluations with
  | [] => rfl
  | [e] =>
    show (SortedMap.empty.insert e.1 1).get? id = if id ∈ [e.1] then _ else _
    rw [SortedMap.get?_insert]
    by_cases h : id = e.1
    · rw [if_pos h, if_pos (List.mem_singleton.mpr h), share, h, wins_single, div_self hlen]
    · rw [if_neg h, if_neg fun hm => h (List.mem_singleton.mp hm)]
      rfl
  | e :: e' :: es =>
    show ((e :: e' :: es).foldl (fun out x => out.insert x.1
      ((((countWins (e :: e' :: es) weightsSet).get? x.1).getD 0 : ℕ) / (weightsSet.length : ℚ)))
      SortedMap.empty).get? id = _
    have hf : ∀ id', ((((countWins (e :: e' :: es) weightsSet).get? id').getD 0 : ℕ) : ℚ)
        / (weightsSet.length : ℚ) = share weightsSet (e :: e' :: es) id' := by
      intro id'
      rw [countWins_eq, share]
    simp only [hf]
    rw [get?_foldl_insert]
    rfl

theorem le_foldl_max_iff (t x : ℚ) (xs : List ℚ) :
    t ≤ xs.foldl max x ↔ ∃ y ∈ x :: xs, t ≤ y := by
  induction xs generalizing x with
  | nil => simp
  | cons y ys ih =>
    rw [List.foldl_cons, ih]
    simp only [List.mem_cons, exists_eq_or_imp, le_max_iff]
    exact or_assoc

/-- **The label says whether some proposal wins its share.** -/
theorem checkWeights_stable_iff (hws : weightsSet ≠ []) (hev : evaluations ≠ [])
    (sigma threshold : ℚ) :
    (checkWeights weightsSet evaluations sigma threshold).2.1 = .stable ↔
      ∃ id ∈ evaluations.map Prod.fst, threshold ≤ share weightsSet evaluations id := by
  have hget := stabilityScore_get? hws evaluations
  have hvalue : ∀ x, x ∈ (stabilityScore weightsSet evaluations).entries.map Prod.snd ↔
      ∃ id ∈ evaluations.map Prod.fst, x = share weightsSet evaluations id := by
    intro x
    rw [List.mem_map]
    constructor
    · intro h
      obtain ⟨⟨id, x⟩, he, rfl⟩ := h
      have h := SortedMap.get?_eq_some_iff.mpr he
      rw [hget] at h
      split_ifs at h with hid
      exact ⟨id, hid, (Option.some.inj h).symm⟩
    · intro h
      obtain ⟨id, hid, rfl⟩ := h
      exact ⟨(id, _), SortedMap.get?_eq_some_iff.mp ((hget id).trans (if_pos hid)), rfl⟩
  unfold checkWeights topScore
  dsimp only
  cases hentries : (stabilityScore weightsSet evaluations).entries.map Prod.snd with
  | nil =>
    obtain ⟨e, es, rfl⟩ := List.exists_cons_of_ne_nil hev
    have := (hvalue _).mpr ⟨e.1, List.mem_cons_self, rfl⟩
    rw [hentries] at this
    exact absurd this List.not_mem_nil
  | cons x xs =>
    rw [hentries] at hvalue
    dsimp only [stabilityLabel]
    have hlabel : (if threshold ≤ xs.foldl max x then StabilityLabel.stable
        else StabilityLabel.sensitive) = .stable ↔ threshold ≤ xs.foldl max x := by
      split_ifs with h
      · exact iff_of_true rfl h
      · exact iff_of_false (fun he => by cases he) h
    rw [hlabel, le_foldl_max_iff]
    constructor
    · intro h
      obtain ⟨y, hy, hle⟩ := h
      obtain ⟨id, hid, rfl⟩ := (hvalue y).mp hy
      exact ⟨id, hid, hle⟩
    · intro h
      obtain ⟨id, hid, hle⟩ := h
      exact ⟨_, (hvalue _).mpr ⟨id, hid, rfl⟩, hle⟩

/-! ## the base winner -/

/-- another proposal reaches the threshold, and the winner does not -/
def Overtaken (weightsSet : List (RankingWeights ℚ)) (evaluations : Evaluations ℚ)
    (threshold : ℚ) (winner : String) : Prop :=
  share weightsSet evaluations winner < threshold ∧
    ∃ id ∈ evaluations.map Prod.fst, id ≠ winner ∧ threshold ≤ share weightsSet evaluations id

theorem checkWeights_winner_iff (hws : weightsSet ≠ []) {base : RankingWeights ℚ}
    {winner : String} {score : ℚ} (hbase : IsTop base evaluations winner score)
    (sigma threshold : ℚ) :
    ((checkWeights weightsSet evaluations sigma threshold).2.1 = .stable ↔
      threshold ≤ share weightsSet evaluations winner) ↔
    ¬ Overtaken weightsSet evaluations threshold winner := by
  obtain ⟨⟨e, he, hid, -⟩, -⟩ := hbase
  have hmem : winner ∈ evaluations.map Prod.fst := hid ▸ List.mem_map_of_mem he
  rw [checkWeights_stable_iff hws (List.ne_nil_of_mem he)]
  constructor
  · intro h hover
    obtain ⟨hlow, id, hid, -, hle⟩ := hover
    exact absurd (h.mp ⟨id, hid, hle⟩) hlow.not_ge
  · intro h
    constructor
    · intro hsome
      obtain ⟨id, hid, hle⟩ := hsome
      by_contra hlow
      refine h ⟨not_le.mp hlow, id, hid, fun heq => ?_, hle⟩
      exact hlow (heq ▸ hle)
    · exact fun hle => ⟨winner, hmem, hle⟩

/-- **The label is about the base winner exactly when no other proposal overtakes it:** for any
perturbed weights, and so for those that are drawn, the ranking is called stable because of the
share of the first proposal under the base weights, unless another one reaches the threshold and
that one does not. -/
theorem stabilityCheck_stable_iff {Rng : Type} (withSeed : ℕ → Rng) (gaussian : Rng → ℚ × Rng)
    (base : RankingWeights ℚ) (hev : evaluations ≠ []) (sigma threshold : ℚ) :
    ∃ winner score, IsTop base evaluations winner score ∧
      (∀ weightsSet, weightsSet ≠ [] →
        (((checkWeights weightsSet evaluations sigma threshold).2.1 = .stable ↔
            threshold ≤ share weightsSet evaluations winner) ↔
          ¬ Overtaken weightsSet evaluations threshold winner)) ∧
      ∀ n seed, perturbWeights withSeed gaussian base n sigma seed ≠ [] →
        (((stabilityCheck withSeed gaussian base evaluations n sigma seed threshold).2.1 = .stable ↔
            threshold ≤
              share (perturbWeights withSeed gaussian base n sigma seed) evaluations winner) ↔
          ¬ Overtaken (perturbWeights withSeed gaussian base n sigma seed) evaluations threshold
            winner) := by
  cases hbest : topOne base evaluations with
  | none => exact absurd ((topOne_isTop base evaluations).1 hbest) hev
  | some best =>
    obtain ⟨winner, score⟩ := best
    have htop := topOne_eq_some_iff.mp hbest
    exact ⟨winner, score, htop, fun _ hws => checkWeights_winner_iff hws htop sigma threshold,
      fun _ _ hws => checkWeights_winner_iff hws htop sigma threshold⟩

end

/-! ## a winner that is overtaken -/

/-- the first proposal is best at correctness, the second one at completeness -/
def closeCall : Evaluations ℚ := [("p0", ⟨9, 5, 5, 5, 5, 5⟩), ("p1", ⟨5, 8, 5, 5, 5, 5⟩)]

def evenWeights : RankingWeights ℚ := ⟨1, 1, 1, 1, 1, 0⟩

/-- every sixth draw, that of the correctness, is one standard deviation down -/
def downDraw (k : ℕ) : ℚ × ℕ := (if k % 6 = 0 then -1 else 0, k + 1)

/-- the second proposal wins all perturbations, and the ranking is called stable -/
theorem overtaken_is_stable : IsTop evenWeights closeCall "p0" (29 / 5) ∧
    ¬ ((stabilityCheck id downDraw evenWeights closeCall 2 1 0 (4 / 5)).2.1 = .stable ↔
      4 / 5 ≤ share (perturbWeights id downDraw evenWeights 2 1 0) closeCall "p0") := by
  rw [← topOne_eq_some_iff]
  decide +kernel

theorem stabilityCheck_stable_iff_close :
    ((stabilityCheck id downDraw evenWeights closeCall 2 1 0 (4 / 5)).2.1 = .stable ↔
        4 / 5 ≤ share (perturbWeights id downDraw evenWeights 2 1 0) closeCall "p0") ↔
      ¬ Overtaken (perturbWeights id downDraw evenWeights 2 1 0) closeCall (4 / 5) "p0" := by
  have hev : closeCall ≠ [] := List.cons_ne_nil _ _
  have hfirst : topOne evenWeights closeCall = some ("p0", 29 / 5) := by decide +kernel
  obtain ⟨winner, score, htop, -, hdrawn⟩ :=
    stabilityCheck_stable_iff id downDraw evenWeights hev 1 (4 / 5)
  obtain ⟨rfl, -⟩ := htop.unique (topOne_eq_some_iff.mp hfirst)
  exact hdrawn 2 0 (by decide +kernel)

end Moagan.Rank
