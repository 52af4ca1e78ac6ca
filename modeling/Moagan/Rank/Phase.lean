import Moagan.Rank.Selection

/-!
# The rank phase (`src/phases/rank.rs`)

* `RunDir`                      the files of a run that the phase reads
* `loadItems`                   the evaluations with their proposals
* `applySynthesisReplacement`   the syntheses that replace their sources
* `RankPhase.execute`           the ranking that is written, and the proposals after it

A directory is listed in the order in which `read_dir` yields it.  A missing directory of syntheses
is an empty one, and a file that does not parse is `none`.  `alphanumeric` is the table of
`char::is_alphanumeric`.
-/

namespace Moagan.Rank

def TOP_K : ℕ := 3

/-- `score as f64` -/
class Widen (F : Type) (D : outParam Type) where
  asF64 : F → D

instance : Widen ℚ ℚ := ⟨id⟩

structure RankEntry (F : Type) where
  id : String
  score : F
  reason : String
deriving DecidableEq, Repr

structure Ranking (F : Type) where
  ranked : List (RankEntry F)
  representatives : List (RankEntry F)
  winner : String
deriving DecidableEq, Repr

/-- the configuration of the phase -/
structure RankPhase (F : Type) where
  rankingWeights : RankingWeights F
  selectionPlan : SelectionPlan
  replaceSourcesEnabled : Bool

/-- the files of a run; `revisions` has the numbers of the revisions of a proposal -/
structure RunDir (F : Type) where
  evaluations : List (String × Option (Aggregated F))
  evaluations_nodup : (evaluations.map Prod.fst).Nodup
  evaluations_named : ∀ e ∈ evaluations, e.1 ≠ ""
  proposals : String → Option Proposal
  revisions : String → List (ℕ × Option Proposal)
  synthesized : List (String × Option (List String))
  synthesized_nodup : (synthesized.map Prod.fst).Nodup
  writable : String → Bool

/-- what the phase leaves behind -/
structure Output (F : Type) where
  ranking : Ranking F
  proposals : String → Option Proposal

section
variable {F : Type} [FloatOps F]

/-- `CLUSTER_THRESHOLD`, 0.7 -/
def clusterThreshold : F := ((7 : ℕ) : F) / ((10 : ℕ) : F)

/-! ## loading -/

def latestRevision (dir : RunDir F) (id : String) : Option Proposal :=
  let latest := (dir.revisions id).foldl (fun best (e : ℕ × Option Proposal) =>
    match best with
    | none => some e
    | some b => if b.1 < e.1 then some e else some b) none
  latest.bind Prod.snd

def loadProposal (dir : RunDir F) (id : String) : Proposal :=
  match dir.proposals id with
  | some p => p
  | none =>
    match latestRevision dir id with
    | some p => p
    | none => { id, summary := id, approach := "", tradeoffs := [], evidence := [],
                replacedBy := none }

structure Item (F : Type) where
  id : String
  agg : Aggregated F
  proposal : Proposal

/-- the first evaluation that does not parse ends the phase -/
def loadItems (dir : RunDir F) : Option (List (Item F)) :=
  dir.evaluations.mapM fun e => e.2.map fun agg => ⟨e.1, agg, loadProposal dir e.1⟩

/-! ## representatives -/

def vectorsOf (items : List (Item F)) : List (QualityVector F) :=
  items.map fun item => .fromAggregated item.agg

def itemText (items : List (Item F)) (i : ℕ) : String :=
  ((items[i]?).map fun item => proposalText item.proposal).getD ""

/-- the clusters of the front, as places in `items` -/
def frontClusters (items : List (Item F)) : List (List ℕ) :=
  let front := paretoFront (vectorsOf items)
  if front.length ≤ 1 then front.map fun i => [i]
  else (clusterBySimhash (front.map (itemText items)) (clusterThreshold : F)).map
    fun c => c.map fun k => front.getD k 0

def repIndices (items : List (Item F)) : List ℕ :=
  pickWithCrowding (frontClusters items) (vectorsOf items) TOP_K

/-! ## the ranked list -/

def rankEntry (phase : RankPhase F) (item : Item F) : RankEntry F where
  id := item.id
  score := phase.rankingWeights.weightedScore item.agg.correctness item.agg.completeness
    item.agg.fit item.agg.evidence item.agg.clarity item.agg.score
  reason := "weighted avg of " ++ toString item.agg.judges ++ " judges (correctness "
    ++ FloatOps.fixed2 item.agg.correctness ++ ", completeness "
    ++ FloatOps.fixed2 item.agg.completeness ++ ", fit " ++ FloatOps.fixed2 item.agg.fit
    ++ ", evidence " ++ FloatOps.fixed2 item.agg.evidence ++ ", clarity "
    ++ FloatOps.fixed2 item.agg.clarity ++ ")"

/-- `sort_by(|a, b| b.score.partial_cmp(&a.score))` -/
def sortRanked (entries : List (RankEntry F)) : List (RankEntry F) :=
  entries.insertionSort fun a b => b.score ≤ a.score

def findEntry (entries : List (RankEntry F)) (id : String) : Option (RankEntry F) :=
  entries.find? fun r => r.id = id

/-! ## replacement -/

/-- `agg_by_id` -/
def aggById (items : List (Item F)) (id : String) : Option (Aggregated F) :=
  (items.find? fun item => item.id = id).map Item.agg

/-- the sources that a synthesis replaces -/
def replacedSources (items : List (Item F)) (e : String × Option (List String)) :
    Option (List String) :=
  if ¬ e.1.startsWith "s_" then none
  else
    match e.2 with
    | none => none
    | some sources =>
      if sources = [] then none
      else
        match aggById items e.1 with
        | none => none
        | some sAgg =>
          let sourceVs := sources.filterMap fun sid =>
            (aggById items sid).map QualityVector.fromAggregated
          if sourceVs.length ≠ sources.length then none
          else if shouldReplaceSynthesis (.fromAggregated sAgg) sourceVs then some sources
          else none

/-- the mark on a source; a file that cannot be read or written keeps its contents -/
def stamp (writable : String → Bool) (synthId : String) (proposals : String → Option Proposal)
    (sid : String) : String → Option Proposal :=
  match proposals sid with
  | none => proposals
  | some p =>
    if writable sid then
      Function.update proposals sid (some { p with replacedBy := some synthId })
    else proposals

structure Replacement where
  dropped : List String
  promoted : List String
  proposals : String → Option Proposal

def replaceStep (items : List (Item F)) (writable : String → Bool) (s : Replacement)
    (e : String × Option (List String)) : Replacement :=
  match replacedSources items e with
  | none => s
  | some sources =>
    { dropped := s.dropped ++ sources
      promoted := s.promoted ++ [e.1]
      proposals := sources.foldl (stamp writable e.1) s.proposals }

def applySynthesisReplacement (dir : RunDir F) (items : List (Item F)) : Replacement :=
  dir.synthesized.foldl (replaceStep items dir.writable) ⟨[], [], dir.proposals⟩

/-- a promoted synthesis goes to the front of the representatives -/
def promote (ranked representatives : List (RankEntry F)) (synId : String) : List (RankEntry F) :=
  if representatives.any fun r => r.id = synId then representatives
  else
    match findEntry ranked synId with
    | some entry => entry :: representatives
    | none => representatives

/-! ## the phase -/

variable {D : Type} [FloatOps D] [Widen F D] (alphanumeric : Char → Bool)

/-- what the selection plan is applied to -/
def scoredOf (items : List (Item F)) (ranked : List (RankEntry F)) : List (Scored D) :=
  ranked.map fun r =>
    { id := r.id
      score := Widen.asF64 r.score
      proposal := ((items.find? fun item => item.id = r.id).map Item.proposal).getD
        { id := "", summary := "", approach := "", tradeoffs := [], evidence := [],
          replacedBy := none } }

/-- the ids that are kept: those of the plan, and every synthesis -/
def chosenIds (phase : RankPhase F) (items : List (Item F)) (ranked : List (RankEntry F))
    (promoted : List String) : List String :=
  phase.selectionPlan.apply alphanumeric (scoredOf items ranked)
    ++ (ranked.filter fun r => r.id.startsWith "s_").map RankEntry.id ++ promoted

def RankPhase.rank (phase : RankPhase F) (dir : RunDir F) (items : List (Item F)) : Output F :=
  if items.length = 0 then ⟨⟨[], [], ""⟩, dir.proposals⟩
  else
    let ranked := sortRanked (items.map (rankEntry phase))
    let representatives := (repIndices items).filterMap fun i =>
      (items[i]?).bind fun item => findEntry ranked item.id
    let replacement :=
      if phase.replaceSourcesEnabled then applySynthesisReplacement dir items
      else ⟨[], [], dir.proposals⟩
    let ranked' := if replacement.dropped = [] then ranked
      else ranked.filter fun r => r.id ∉ replacement.dropped
    let representatives' := if replacement.dropped = [] then representatives
      else replacement.promoted.foldl (promote ranked') representatives
    let winner := ((representatives'.head?.or ranked'.head?).map RankEntry.id).getD ""
    let chosen := chosenIds alphanumeric phase items ranked' replacement.promoted
    ⟨⟨ranked'.filter fun r => r.id ∈ chosen, representatives'.filter fun r => r.id ∈ chosen, winner⟩,
      replacement.proposals⟩

/-- `none` when an evaluation cannot be read -/
def RankPhase.execute (phase : RankPhase F) (dir : RunDir F) : Option (Output F) :=
  (loadItems dir).map (phase.rank alphanumeric dir)

end

end Moagan.Rank
