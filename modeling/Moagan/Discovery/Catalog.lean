import Mathlib.Data.List.Sort
import Moagan.Discovery.Fanout

/-!
# The catalogue of a discover run (`src/discovery/catalog.rs`)

* `Catalog`, `CellEntry`, `Group`, `Member`   the catalogue
* `buildCatalog`                              every thesis in the cell that its angle names
* `Catalog.validate`                          every thesis is listed once, and nothing else is
-/

namespace Moagan.Discovery

def OUTSIDE_DIMENSION_ID : String := "outside-matrix"
def OUTSIDE_FACET_ID : String := "unmatched"
def DEFAULT_GROUP_LABEL : String := "All theses"
def OUTSIDE_DIMENSION_LABEL : String := "Outside the matrix"
def OUTSIDE_FACET_LABEL : String := "Unmatched angle"

structure Member where
  thesisId : String
  duplicateOf : Option String
deriving DecidableEq, Repr

structure Group where
  label : String
  summary : String
  representative : Option String
  members : List Member
deriving DecidableEq, Repr

structure Tension where
  a : String
  b : String
  note : String
deriving DecidableEq, Repr

inductive CellCuration where
  | flat | grouped | failed
deriving DecidableEq, Repr

structure CellEntry where
  dimensionId : String
  facetId : String
  dimensionLabel : String
  facetLabel : String
  description : String
  curation : CellCuration
  groups : List Group
  tensions : List Tension
deriving DecidableEq, Repr

structure Catalog where
  cells : List CellEntry
deriving DecidableEq, Repr

inductive CatalogError where
  | missing (id : String)
  | repeated (id : String) (times : ℕ)
  | unknown (id : String)
deriving DecidableEq, Repr

/-- what the catalogue reads of a thesis -/
structure Thesis where
  id : String
  angle : String
deriving DecidableEq, Repr

structure DimensionFacetDescription where
  dimensionId : String
  facetId : String
  description : String
deriving DecidableEq, Repr

/-! ## building -/

/-- `sort` on strings -/
def sortIds (ids : List String) : List String := ids.insertionSort (· ≤ ·)

def Group.ids (g : Group) : List String := g.members.map Member.thesisId

/-- the ids of a list of groups, in their order -/
def listedIds (groups : List Group) : List String := groups.flatMap Group.ids

section
variable {F : Type}

/-- the cells so far, and the first cell of each key -/
structure Frame where
  cells : List CellEntry
  indexOf : SortedMap String ℕ

def addCell (descriptions : List DimensionFacetDescription) (dimension : Dimension) (s : Frame)
    (facet : Facet) : Frame where
  cells := s.cells ++ [{
    dimensionId := dimension.id
    facetId := facet.id
    dimensionLabel := dimension.label
    facetLabel := facet.label
    description := ((descriptions.find? fun d =>
      d.dimensionId = dimension.id ∧ d.facetId = facet.id).map (·.description)).getD ""
    curation := .flat
    groups := []
    tensions := [] }]
  indexOf := s.indexOf.orInsert (dimension.id ++ ":" ++ facet.id) s.cells.length

/-- the empty cells of the matrix, and where a thesis finds its own -/
def frame (matrix : ExplorationMatrix F) (descriptions : List DimensionFacetDescription) : Frame :=
  matrix.dimensions.foldl (fun s dimension =>
    dimension.facets.foldl (addCell descriptions dimension) s) ⟨[], SortedMap.empty⟩

/-- the ids by cell, and those outside the matrix -/
structure Placed where
  membersOf : List (List String)
  outside : List String

def place (indexOf : SortedMap String ℕ) (s : Placed) (thesis : Thesis) : Placed :=
  match indexOf.get? thesis.angle with
  | some i => { s with membersOf := s.membersOf.modify i (· ++ [thesis.id]) }
  | none => { s with outside := s.outside ++ [thesis.id] }

def outsideCell : CellEntry where
  dimensionId := OUTSIDE_DIMENSION_ID
  facetId := OUTSIDE_FACET_ID
  dimensionLabel := OUTSIDE_DIMENSION_LABEL
  facetLabel := OUTSIDE_FACET_LABEL
  description := ""
  curation := .flat
  groups := []
  tensions := []

/-- the one implicit group of a cell that has theses -/
def fill (cell : CellEntry) (ids : List String) : CellEntry :=
  if ids = [] then cell
  else { cell with groups := cell.groups ++ [{
    label := DEFAULT_GROUP_LABEL
    summary := ""
    representative := none
    members := (sortIds ids).map fun thesisId => { thesisId, duplicateOf := none } }] }

def buildCatalog (matrix : ExplorationMatrix F) (descriptions : List DimensionFacetDescription)
    (theses : List Thesis) : Catalog :=
  let s := frame matrix descriptions
  let placed := theses.foldl (place s.indexOf) ⟨s.cells.map fun _ => [], []⟩
  if placed.outside = [] then ⟨s.cells.zipWith fill placed.membersOf⟩
  else ⟨(s.cells ++ [outsideCell]).zipWith fill (placed.membersOf ++ [placed.outside])⟩

end

/-! ## checking -/

def Catalog.members (c : Catalog) : List Member :=
  c.cells.flatMap fun cell => cell.groups.flatMap Group.members

/-- how often the catalogue lists `id` -/
def Catalog.count (c : Catalog) (id : String) : ℕ := (c.members.map Member.thesisId).count id

/-- the check of one thesis -/
def Catalog.checkThesis (c : Catalog) (thesis : Thesis) : Option CatalogError :=
  match c.count thesis.id with
  | 0 => some (.missing thesis.id)
  | 1 => none
  | n => some (.repeated thesis.id n)

/-- the check of one member -/
def checkMember (theses : List Thesis) (member : Member) : Option CatalogError :=
  if (theses.map Thesis.id).contains member.thesisId then none else some (.unknown member.thesisId)

/-- the first violation: the theses in their order, then the members -/
def Catalog.validate (c : Catalog) (theses : List Thesis) : Except CatalogError Unit :=
  match theses.findSome? c.checkThesis with
  | some e => .error e
  | none =>
    match c.members.findSome? (checkMember theses) with
    | some e => .error e
    | none => .ok ()

end Moagan.Discovery
