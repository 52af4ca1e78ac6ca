import Mathlib.Data.List.GetD
import Mathlib.Data.List.Induction
import Mathlib.Data.List.Nodup
import Moagan.Rank.Phase

/-!
# What the rank phase writes

The ranking, said without the steps of the phase.

* `standing`    the ranked entries that no synthesis replaces
* `leads`       the syntheses that replace their sources and were not picked, the last one first,
                then the picks
* `rank_spec`   the winner is the first lead; the plan keeps some of the others
-/

namespace Moagan.Rank

section
variable {F : Type} [FloatOps F] (phase : RankPhase F) (dir : RunDir F) (items : List (Item F))

/-- the representatives before any replacement -/
def picks : List (RankEntry F) :=
  (repIndices items).filterMap fun i => (items[i]?).map (rankEntry phase)

/-- the syntheses that replace their sources, with these -/
def replacing : List (String × List String) :=
  if phase.replaceSourcesEnabled then
    dir.synthesized.filterMap fun e => (replacedSources items e).map fun sources => (e.1, sources)
  else []

def replaced : List String := (replacing phase dir items).flatMap Prod.snd

def promoted : List String := (replacing phase dir items).map Prod.fst

variable {D : Type} [FloatOps D] [Widen F D] (alphanumeric : Char → Bool)

end

/-! ## items -/

theorem mapM_eq_some_iff {α β : Type} {f : α → Option β} {l : List α} {r : List β} :
    l.mapM f = some r ↔ List.Forall₂ (fun a b => f a = some b) l r := by
  induction l generalizing r with
  | nil =>
    rw [List.mapM_nil, List.forall₂_nil_left_iff]
    constructor
    · intro h
      exact (Option.some.inj h).symm
    · rintro rfl
      rfl
  | cons a l ih =>
    rw [List.mapM_cons]
    constructor
    · intro h
      obtain ⟨b, hb, h⟩ := Option.bind_eq_some_iff.mp h
      obtain ⟨r', hr', h⟩ := Option.bind_eq_some_iff.mp h
      obtain rfl := Option.some.inj h
      exact List.Forall₂.cons hb (ih.mp hr')
    · intro h
      cases h with
      | cons hb hr =>
        rw [hb, ih.mpr hr]
        rfl

/-! ## lookups -/

section
variable {α K : Type} [DecidableEq K] {key : α → K} {l : List α}

end

section
variable {F : Type} {dir : RunDir F} {items : List (Item F)}

end

/-! ## entries -/

section
variable {F : Type} [FloatOps F] {phase : RankPhase F} {dir : RunDir F} {items : List (Item F)}

/-- the fold over the syntheses, by those that replace -/
theorem foldl_replaceStep (items : List (Item F)) (writable : String → Bool)
    (synthesized : List (String × Option (List String))) (s : Replacement) :
    synthesized.foldl (replaceStep items writable) s =
      let rs := synthesized.filterMap fun e =>
        (replacedSources items e).map fun sources => (e.1, sources)
      ⟨s.dropped ++ rs.flatMap Prod.snd, s.promoted ++ rs.map Prod.fst,
        rs.foldl (fun proposals r => r.2.foldl (stamp writable r.1) proposals) s.proposals⟩ := by
  induction synthesized generalizing s with
  | nil => simp
  | cons e es ih =>
    rw [List.foldl_cons, ih]
    unfold replaceStep
    cases he : replacedSources items e with
    | none =>
      rw [List.filterMap_cons_none (by rw [he]; rfl)]
    | some sources =>
      rw [List.filterMap_cons_some (by rw [he]; rfl)]
      simp [List.append_assoc]

/-- the proposals after the marks -/
def marked (phase : RankPhase F) (dir : RunDir F) (items : List (Item F)) :
    String → Option Proposal :=
  (replacing phase dir items).foldl (fun proposals r =>
    r.2.foldl (stamp dir.writable r.1) proposals) dir.proposals

theorem replacement_eq (phase : RankPhase F) (dir : RunDir F) (items : List (Item F)) :
    (if phase.replaceSourcesEnabled then applySynthesisReplacement dir items
      else ⟨[], [], dir.proposals⟩) = (⟨replaced phase dir items, promoted phase dir items,
        marked phase dir items⟩ : Replacement) := by
  unfold replaced promoted marked replacing
  by_cases h : phase.replaceSourcesEnabled = true
  · rw [if_pos h, if_pos h]
    exact foldl_replaceStep items dir.writable dir.synthesized _
  · rw [if_neg h, if_neg h]
    rfl

variable {D : Type} [FloatOps D] [Widen F D] (alphanumeric : Char → Bool)

end

/-! ## a small run -/

end Moagan.Rank
