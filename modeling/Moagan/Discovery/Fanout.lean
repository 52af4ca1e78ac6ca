import Mathlib.Data.Prod.Lex
import Mathlib.Data.String.Basic
import Moagan.Lib.SortedMap

/-!
# The thesis fan-out (`src/discovery/matrix.rs`, `src/phases/discover_theses.rs`)

* `ExplorationMatrix`          the persisted matrix
* `Run`                        what a run brings along: the order in which its map of profiles
                               iterates, its registry, its default pair
* `activeProviderProfiles`     the profile of each pair
* `hostedPairs`                the pairs that the registry hosts, in order
* `fanout`, `pending`          the numbered points, and those without a file
* `execute`                    a run of the phase: the accepted points get their file

`F` are the `f32` values.  The files are written in the order in which the calls return; every point
has a file of its own, so the order of `execute` is that of the points.
-/

namespace Moagan.Discovery

structure TemperatureProfile (F : Type) where
  temperatures : List F
  replicasPerTemperature : ℕ
deriving DecidableEq, Repr

structure Facet where
  id : String
  label : String
deriving DecidableEq, Repr

structure Dimension where
  id : String
  label : String
  facets : List Facet
deriving DecidableEq, Repr

structure MatrixCell where
  dimensionId : String
  facetId : String
  label : String
deriving DecidableEq, Repr

/-- the entries of `temperature_profiles`, in the order of the file -/
structure ExplorationMatrix (F : Type) where
  dimensions : List Dimension
  thesesPerCell : ℕ
  temperatureProfiles : List (String × TemperatureProfile F)
  defaultProfile : TemperatureProfile F
deriving DecidableEq, Repr

section
variable {F : Type}

def ExplorationMatrix.iterCells (m : ExplorationMatrix F) : List MatrixCell :=
  m.dimensions.flatMap fun d => d.facets.map fun f =>
    { dimensionId := d.id, facetId := f.id, label := d.label ++ " / " ++ f.label }

/-! ## pairs -/

/-- `split_once("::")` -/
def splitOnce : List Char → Option (List Char × List Char)
  | [] => none
  | ':' :: ':' :: rest => some ([], rest)
  | c :: rest => (splitOnce rest).map fun p => (c :: p.1, p.2)

/-- section and model, in the order of the `BTreeMap` -/
abbrev Pair := String ×ₗ String

def registryKey (pair : Pair) : String := (ofLex pair).1 ++ "::" ++ (ofLex pair).2

/-- the pair that a profile key names -/
def pairOf (defaultSection key : String) : Pair :=
  match splitOnce key.toList with
  | some (sec, mdl) => toLex (String.ofList sec, String.ofList mdl)
  | none => toLex (defaultSection, key)

/-- `order` is an iteration of the map `temperature_profiles`, `registry` the keys of the provider
registry -/
structure Run (F : Type) where
  order : List (String × TemperatureProfile F)
  registry : List String
  defaultPair : Pair

def Run.hasProviderFor (r : Run F) (pair : Pair) : Bool :=
  r.registry.contains (registryKey pair) || r.registry.contains (ofLex pair).1

variable (m : ExplorationMatrix F) (r : Run F)

/-- one profile a pair: a later key wins, and the default pair is there in any case -/
def activeProviderProfiles : SortedMap Pair (TemperatureProfile F) :=
  let byPair := r.order.foldl
    (fun byPair e => byPair.insert (pairOf (ofLex r.defaultPair).1 e.1) e.2) SortedMap.empty
  byPair.orInsert r.defaultPair m.defaultProfile

/-- `pairs` of `execute` -/
def hostedPairs : List (Pair × TemperatureProfile F) :=
  (activeProviderProfiles m r).entries.filter fun e => r.hasProviderFor e.1

/-! ## points -/

structure Point (F : Type) where
  pair : Pair
  cell : MatrixCell
  temperature : F
  replica : ℕ
  index : ℕ
deriving DecidableEq

structure FanoutPoint (F : Type) where
  n : ℕ
  point : Point F
deriving DecidableEq

/-- `points.push(FanoutPoint { n: points.len(), .. })` -/
def push (points : List (FanoutPoint F)) (p : Point F) : List (FanoutPoint F) :=
  points ++ [⟨points.length, p⟩]

def fanout (pairs : List (Pair × TemperatureProfile F)) (cells : List MatrixCell)
    (thesesPerCell : ℕ) : List (FanoutPoint F) :=
  let perCell := max thesesPerCell 1
  pairs.foldl (fun points e =>
    let replicas := max e.2.replicasPerTemperature 1
    cells.foldl (fun points cell =>
      e.2.temperatures.foldl (fun points temperature =>
        (List.range replicas).foldl (fun points replica =>
          (List.range perCell).foldl (fun points index =>
            push points ⟨e.1, cell, temperature, replica, index⟩) points) points) points) points) []

/-- `{n:04}` -/
def zeroPad (width n : ℕ) : String :=
  let digits := Nat.toDigits 10 n
  String.ofList (List.replicate (width - digits.length) '0' ++ digits)

def FanoutPoint.thesisId (p : FanoutPoint F) : String := "th_" ++ zeroPad 4 p.n

/-- the files of `theses/`: the id, and the point whose thesis the file holds -/
abbrev Theses (F : Type) := String → Option (Point F)

def pending (points : List (FanoutPoint F)) (theses : Theses F) : List (FanoutPoint F) :=
  points.filter fun p => (theses p.thesisId).isNone

def points : List (FanoutPoint F) := fanout (hostedPairs m r) m.iterCells m.thesesPerCell

/-- the file of an accepted point -/
def record (accepts : FanoutPoint F → Bool) (theses : Theses F) (p : FanoutPoint F) : Theses F :=
  if accepts p then Function.update theses p.thesisId (some p.point) else theses

/-- `accepts` says which of the pending points end with a thesis that is written; the others were
rejected, failed, or never ran -/
def execute (accepts : FanoutPoint F → Bool) (theses : Theses F) : Theses F :=
  (pending (points m r) theses).foldl (record accepts) theses

/-- **Numbering is stable from one run to the next**: the points of the pairs that both runs host
are the same, numbers included, and a point that the second run skips has its own thesis, whatever
the first run has accepted. -/
def Stable (m : ExplorationMatrix F) (r r' : Run F) : Prop :=
  (∀ p : FanoutPoint F, p.point.pair ∈ (hostedPairs m r).map Prod.fst →
    p.point.pair ∈ (hostedPairs m r').map Prod.fst → (p ∈ points m r ↔ p ∈ points m r')) ∧
  ∀ accepts, ∀ p ∈ points m r', p ∉ pending (points m r') (execute m r accepts fun _ => none) →
    execute m r accepts (fun _ => none) p.thesisId = some p.point

end

end Moagan.Discovery
