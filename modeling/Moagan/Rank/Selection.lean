import Moagan.Rank.Cluster

/-!
# The selection plan (`src/phases/cardinality.rs`)

* `Proposal`              what the ranking reads of a proposal, and the mark that it sets
* `SelectionPlan.apply`   the ids that the plan keeps of a scored list

`D` are the `f64` values.  `alphanumeric` is the table of `char::is_alphanumeric`.  The weights of
the centroid in `apply_outlier` are never read, only their keys are.
-/

namespace Moagan.Rank

structure Proposal where
  id : String
  summary : String
  approach : String
  tradeoffs : List String
  evidence : List String
  replacedBy : Option String
deriving DecidableEq, Repr

def proposalText (p : Proposal) : String :=
  p.summary ++ " " ++ p.approach ++ " " ++ " ".intercalate p.tradeoffs ++ " "
    ++ " ".intercalate p.evidence

inductive SelectionKind where
  | topN | diverseN | outlierN
deriving DecidableEq, Repr

structure SelectionPlan where
  kind : SelectionKind
  count : ℕ
deriving DecidableEq, Repr

/-- `(id, score, proposal)` -/
structure Scored (D : Type) where
  id : String
  score : D
  proposal : Proposal

section
variable {D : Type} [FloatOps D] (alphanumeric : Char → Bool)

def tokenFeaturesForProposal (p : Proposal) : Finset String :=
  ((((proposalText p).toList.splitOnP fun c => !alphanumeric c).filter (· ≠ [])).map
    fun cs => String.ofList (cs.map Char.toLower)).toFinset

/-- `jaccard_distance` of `cardinality.rs`: two empty sets are far apart -/
def tokenDistance (a b : Finset String) : D :=
  if a = ∅ ∧ b = ∅ then 1
  else
    let intersection := (a ∩ b).card
    let union := (a ∪ b).card
    if union = 0 then 1 else 1 - (intersection : D) / (union : D)

/-- `sort_by(|a, b| b.1.partial_cmp(&a.1))` -/
def sortScored (scored : List (Scored D)) : List (Scored D) :=
  scored.insertionSort fun a b => b.score ≤ a.score

def applyTop (count : ℕ) (scored : List (Scored D)) : List String :=
  if count = 0 ∨ scored.length = 0 then []
  else ((sortScored scored).take count).map Scored.id

/-! ## `DiverseN` -/

/-- a candidate of `pick_next`: its place, its distance to the chosen ones, its score -/
structure Candidate (D : Type) where
  idx : ℕ
  minDist : D
  score : D

def candidate (chosenFeatures : List (Finset String)) (e : Scored D × ℕ) : Candidate D where
  idx := e.2
  minDist := ((chosenFeatures.map
    (tokenDistance (tokenFeaturesForProposal alphanumeric e.1.proposal))).min?).getD 0
  score := e.1.score

/-- the operation of `reduce_with` -/
def better (a b : Candidate D) : Candidate D :=
  if b.minDist < a.minDist ∨ (a.minDist = b.minDist ∧ b.score < a.score) then a else b

def pickNext (chosenFeatures : List (Finset String)) (remaining : List (Scored D)) : ℕ :=
  match remaining.zipIdx.map (candidate alphanumeric chosenFeatures) with
  | [] => 0
  | c :: cs => (cs.foldl better c).idx

/-- the greedy loop, `n` times -/
def diverseLoop : ℕ → List (Finset String) → List (Scored D) → List String
  | 0, _, _ => []
  | n + 1, chosenFeatures, remaining =>
    let bestIdx := pickNext alphanumeric chosenFeatures remaining
    match remaining[bestIdx]? with
    | none => []
    | some c =>
      c.id :: diverseLoop n (chosenFeatures ++ [tokenFeaturesForProposal alphanumeric c.proposal])
        (remaining.eraseIdx bestIdx)

def applyDiverse (count : ℕ) (scored : List (Scored D)) : List String :=
  if count = 0 ∨ scored.length = 0 then []
  else diverseLoop alphanumeric (min count scored.length) [] (sortScored scored)

/-! ## `OutlierN` -/

/-- the distance of a proposal from the tokens of all others -/
def outlierDistance (scored : List (Scored D)) (e : Scored D × ℕ) : D :=
  let others := ((scored.eraseIdx e.2).map fun other =>
    tokenFeaturesForProposal alphanumeric other.proposal).foldl (· ∪ ·) ∅
  tokenDistance (tokenFeaturesForProposal alphanumeric e.1.proposal) others

def applyOutlier (count : ℕ) (scored : List (Scored D)) : List String :=
  if count = 0 ∨ scored.length = 0 then []
  else
    let distances := scored.zipIdx.map fun e => (e.1.id, outlierDistance alphanumeric scored e)
    ((distances.insertionSort fun a b => b.2 ≤ a.2).take count).map Prod.fst

def SelectionPlan.apply (plan : SelectionPlan) (scored : List (Scored D)) : List String :=
  match plan.kind with
  | .topN => applyTop plan.count scored
  | .diverseN => applyDiverse alphanumeric plan.count scored
  | .outlierN => applyOutlier alphanumeric plan.count scored

end

end Moagan.Rank
