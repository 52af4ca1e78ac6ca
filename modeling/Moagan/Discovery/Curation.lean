import Moagan.Discovery.Catalog
import Moagan.Json.Value
import Moagan.Lib.Trees

/-!
# Curation of a discover cell (`src/discovery/curation.rs`)

* `RawCuration`          the curator's answer, unchecked
* `normalise`            the checked groups and tensions of one answer
* `Curation.merge`       the answers of all chunks of a cell
* `Curation.covers`      a curation was made for a cell and its theses
* `applyCurations`       the catalogue with the curations that cover its cells

A model group carries its number; in the source `slot_of` maps the number to the place of the group.
-/

namespace Moagan.Discovery

def UNGROUPED_LABEL : String := "Ungrouped"

structure RawCuration where
  groups : Value
  assign : Value
  duplicates : Value
  tensions : Value

structure CurationReport where
  theses : ℕ
  unassigned : ℕ
  unknown : ℕ
  repeated : ℕ
  droppedDuplicates : ℕ
  droppedTensions : ℕ
deriving DecidableEq, Repr

structure ChunkCuration where
  groups : List Group
  tensions : List Tension
  report : CurationReport
deriving DecidableEq, Repr

inductive CurationStatus where
  | ok | failed
deriving DecidableEq, Repr

structure Curation where
  cell : String
  status : CurationStatus
  members : List String
  groups : List Group
  tensions : List Tension
  reports : List CurationReport
deriving DecidableEq, Repr

/-! ## reading the answer -/

def oneLine (text : String) : String := " ".intercalate (splitWhitespace text)

def indexField (value : Value) (key : String) : Option ℕ := (value.get key).bind Value.asU64

def textField (value : Value) (key : String) : String :=
  (((value.get key).bind Value.asStr).map oneLine).getD ""

def pairOfEntry (entry : Value) (len : ℕ) : Option (ℕ × ℕ) :=
  let item := fun i => ((entry.item i).bind Value.asU64).filter (· < len)
  match item 0, item 1 with
  | some n, some m => if n ≠ m then some (n, m) else none
  | _, _ => none

/-! ## groups -/

/-- `ids[n]`, for `n` in range -/
def idAt (ids : List String) (n : ℕ) : String := ids.getD n ""

/-- the representative first, then the others by id -/
def makeGroup (ids : List String) (label summary : String) (members : List ℕ) (wanted : Option ℕ) :
    Group :=
  let sorted := sortIds (members.map (idAt ids))
  let representative := match wanted with
    | some n => idAt ids n
    | none => sorted.headD ""
  { label, summary
    representative := some representative
    members := (representative :: sorted.filter (· ≠ representative)).map
      fun thesisId => { thesisId, duplicateOf := none } }

/-- `group_of` after some of the `assign` entries -/
structure Assigned where
  groupOf : ℕ → Option ℕ
  unknown : ℕ
  repeated : ℕ

def assign (len groups : ℕ) (s : Assigned) (entry : Value) : Assigned :=
  match (indexField entry "n").filter (· < len), (indexField entry "g").filter (· < groups) with
  | some n, some g =>
    if (s.groupOf n).isSome then { s with repeated := s.repeated + 1 }
    else { s with groupOf := Function.update s.groupOf n (some g) }
  | _, _ => { s with unknown := s.unknown + 1 }

/-- the theses whose group is `o` -/
def inGroup (len : ℕ) (groupOf : ℕ → Option ℕ) (o : Option ℕ) : List ℕ :=
  (List.range len).filter fun n => groupOf n = o

/-- group `g` of the answer; nothing when it has no member -/
def modelGroup (ids : List String) (groupOf : ℕ → Option ℕ) (e : Value × ℕ) : Option (ℕ × Group) :=
  let members := inGroup ids.length groupOf (some e.2)
  if members = [] then none
  else
    let text := textField e.1 "label"
    let label := if text = "" then "Group " ++ toString (e.2 + 1) else text
    let wanted := (indexField e.1 "representative").filter (members.contains ·)
    some (e.2, makeGroup ids label (textField e.1 "summary") members wanted)

/-- the last group -/
def ungrouped (ids : List String) (groupOf : ℕ → Option ℕ) : List Group :=
  let unassigned := inGroup ids.length groupOf none
  if unassigned = [] then [] else [makeGroup ids UNGROUPED_LABEL "" unassigned none]

/-! ## duplicates -/

/-- the forest after some of the `duplicates` entries, and how many were dropped -/
def joinPair (len : ℕ) (groupOf : ℕ → Option ℕ) (s : Forest × ℕ) (entry : Value) : Forest × ℕ :=
  match pairOfEntry entry len with
  | some (n, m) =>
    if (groupOf n).isSome ∧ groupOf n = groupOf m then (s.1.union n m, s.2)
    else (s.1, s.2 + 1)
  | none => (s.1, s.2 + 1)

def duplicateSets (len : ℕ) (forest : Forest) : List (List ℕ) :=
  (forest.trees len).filter fun set => set.length > 1

/-- the thesis that a set is folded under -/
def headOf (ids : List String) (group : Group) (set : List ℕ) : Option String :=
  let names := set.map (idAt ids)
  match names.find? fun id => some id = group.representative with
  | some id => some id
  | none => names.min?

def fold (ids : List String) (group : Group) (set : List ℕ) : Group :=
  let head := headOf ids group set
  { group with members := group.members.map fun member =>
      if member.thesisId ∈ set.map (idAt ids) ∧ some member.thesisId ≠ head then
        { member with duplicateOf := head }
      else member }

/-- a set is folded in the group of its first thesis -/
def foldSet (ids : List String) (groupOf : ℕ → Option ℕ) (groups : List (ℕ × Group))
    (set : List ℕ) : List (ℕ × Group) :=
  match set.head?.bind groupOf with
  | none => groups
  | some g => groups.map fun e => if e.1 = g then (e.1, fold ids e.2 set) else e

/-! ## tensions -/

structure Tensions where
  tensions : List Tension
  seen : List (ℕ × ℕ)
  dropped : ℕ

def addTension (ids : List String) (s : Tensions) (entry : Value) : Tensions :=
  match pairOfEntry entry ids.length with
  | some (n, m) =>
    if (min n m, max n m) ∈ s.seen then { s with dropped := s.dropped + 1 }
    else { s with
      seen := (min n m, max n m) :: s.seen
      tensions := s.tensions ++ [{
        a := idAt ids n
        b := idAt ids m
        note := (((entry.item 2).bind Value.asStr).map oneLine).getD "" }] }
  | none => { s with dropped := s.dropped + 1 }

/-! ## one chunk -/

def assigned (ids : List String) (raw : RawCuration) : Assigned :=
  raw.assign.items.foldl (assign ids.length raw.groups.items.length) ⟨fun _ => none, 0, 0⟩

def joined (ids : List String) (raw : RawCuration) : Forest × ℕ :=
  raw.duplicates.items.foldl (joinPair ids.length (assigned ids raw).groupOf) (Forest.init, 0)

/-- the model's groups, with their numbers, before any duplicate is folded -/
def modelGroups (ids : List String) (raw : RawCuration) : List (ℕ × Group) :=
  raw.groups.items.zipIdx.filterMap (modelGroup ids (assigned ids raw).groupOf)

def foldedGroups (ids : List String) (raw : RawCuration) : List (ℕ × Group) :=
  (duplicateSets ids.length (joined ids raw).1).foldl (foldSet ids (assigned ids raw).groupOf)
    (modelGroups ids raw)

def normalise (ids : List String) (raw : RawCuration) : ChunkCuration :=
  let a := assigned ids raw
  let t := raw.tensions.items.foldl (addTension ids) ⟨[], [], 0⟩
  { groups := (foldedGroups ids raw).map Prod.snd ++ ungrouped ids a.groupOf
    tensions := t.tensions
    report := {
      theses := ids.length
      unassigned := (inGroup ids.length a.groupOf none).length
      unknown := a.unknown
      repeated := a.repeated
      droppedDuplicates := (joined ids raw).2
      droppedTensions := t.dropped } }

/-! ## cells -/

/-- the chunks one behind the other; a missing chunk fails the whole -/
def Curation.merge (cell : String) (members : List String) (chunks : List (Option ChunkCuration)) :
    Curation :=
  let failed := chunks.any Option.isNone
  let answers := chunks.filterMap id
  { cell, members
    status := if failed then .failed else .ok
    groups := if failed then [] else answers.flatMap ChunkCuration.groups
    tensions := if failed then [] else answers.flatMap ChunkCuration.tensions
    reports := answers.map ChunkCuration.report }

def Curation.covers (c : Curation) (cell : String) (ids : List String) : Bool :=
  if c.cell ≠ cell ∨ c.members ≠ ids then false
  else if c.status = .failed then true
  else sortIds (listedIds c.groups) = ids

def cellKey (cell : CellEntry) : String := cell.dimensionId ++ ":" ++ cell.facetId

def cellMemberIds (cell : CellEntry) : List String := sortIds (listedIds cell.groups)

def applyCuration (curations : List Curation) (cell : CellEntry) : CellEntry :=
  match curations.find? fun c => c.covers (cellKey cell) (cellMemberIds cell) with
  | none => cell
  | some c =>
    match c.status with
    | .ok => { cell with groups := c.groups, tensions := c.tensions, curation := .grouped }
    | .failed => { cell with curation := .failed }

def applyCurations (catalog : Catalog) (curations : List Curation) : Catalog :=
  ⟨catalog.cells.map (applyCuration curations)⟩

end Moagan.Discovery
