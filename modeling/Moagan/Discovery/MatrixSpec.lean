import Mathlib.Data.List.Infix
import Mathlib.Data.List.TakeWhile
import Moagan.Discovery.Fanout
import Moagan.Json.Text
import Moagan.Lib.Checks

/-!
# The matrix spec of an operator (`src/discovery/matrix_spec.rs`)

* `parseOne`, `parseAll`          the dimensions of one entry, and of all entries
* `MatrixSpec.validate`           the check behind the parser
* `parseMatrixSpecInputs`         parser and check as the dispatcher calls them
* `validate_of_parseAll`          what the parser accepts passes the check

An error carries what the source formats into its text.
-/

namespace Moagan.Discovery
open Scanning Checks

structure FacetSpec where
  id : String
  label : String
  description : String
deriving DecidableEq, Repr

structure DimensionSpec where
  id : String
  label : String
  facets : List FacetSpec
deriving DecidableEq, Repr

structure MatrixSpec where
  dimensions : List DimensionSpec
deriving DecidableEq, Repr

/-- `Error::InvalidArgs`, by its text -/
inductive SpecError where
  /-- "matrix-spec is empty" -/
  | empty
  | emptyDimensionSegment (raw : String)
  /-- "matrix-spec … produced zero dimensions" -/
  | producedNothing (raw : String)
  | missingEquals (segment : String)
  | emptyDimensionId (segment : String)
  | dimensionNotKebabCase (id : String)
  | emptyFacetId (segment : String)
  | facetNotKebabCase (facet segment : String)
  | zeroFacetsInSegment (segment : String)
  | duplicateFacetId (raw facet dimension : String)
  /-- "matrix-spec produced zero dimensions after parsing all entries" -/
  | allProducedNothing
  | zeroDimensions
  | specEmptyDimensionId
  | specDimensionNotKebabCase (id : String)
  | specDimensionEmptyLabel (id : String)
  | specZeroFacets (id : String)
  | specFacetNotKebabCase (facet dimension : String)
  | specFacetEmptyLabel (facet dimension : String)
deriving DecidableEq, Repr

/-! ## texts -/

/-- `str::trim` -/
def trim (t : Text) : Text := (((t.dropWhile isWhitespace).reverse).dropWhile isWhitespace).reverse

/-- `split_once` at a character -/
def splitOnceAt (c : Char) (t : Text) : Option (Text × Text) :=
  match t.dropWhile (· ≠ c) with
  | [] => none
  | _ :: rest => some (t.takeWhile (· ≠ c), rest)

def isKebabCase (s : Text) : Bool :=
  if s = [] then false
  else if s.head? = some '-' || s.getLast? = some '-' then false
  else if ['-', '-'] <:+: s then false
  else s.all fun c => c.isLower || c.isDigit || c = '-'

/-- the id is kebab-case, so `to_uppercase` only meets ASCII -/
def defaultLabel (atWordStart : Bool) : Text → Text
  | [] => []
  | c :: rest =>
    if c = '-' then ' ' :: defaultLabel true rest
    else (if atWordStart then c.toUpper else c) :: defaultLabel false rest

def defaultLabelFromId (id : Text) : Text := defaultLabel true id

/-! ## parsing -/

def validateUniqueFacetIds (dim : DimensionSpec) (raw : String) : Except SpecError Unit :=
  match firstRepeated [] (dim.facets.map FacetSpec.id) with
  | some facet => .error (.duplicateFacetId raw facet dim.id)
  | none => .ok ()

def parseFacet (segment : Text) (rawFacet : Text) : Except SpecError FacetSpec :=
  let fid := trim rawFacet
  if fid = [] then .error (.emptyFacetId (String.ofList segment))
  else if !isKebabCase fid then
    .error (.facetNotKebabCase (String.ofList fid) (String.ofList segment))
  else .ok {
    id := String.ofList fid
    label := String.ofList (defaultLabelFromId fid)
    description := "" }

def parseDimensionSegment (segment : Text) : Except SpecError DimensionSpec :=
  match splitOnceAt '=' segment with
  | none => .error (.missingEquals (String.ofList segment))
  | some (idPart, facetsPart) =>
    let id := trim idPart
    if id = [] then .error (.emptyDimensionId (String.ofList segment))
    else if !isKebabCase id then .error (.dimensionNotKebabCase (String.ofList id))
    else do
      let facets ← (facetsPart.splitOn ',').mapM (parseFacet segment)
      if facets = [] then .error (.zeroFacetsInSegment (String.ofList segment))
      else .ok {
        id := String.ofList id
        label := String.ofList (defaultLabelFromId id)
        facets }

/-- one turn of the loop of `parse_one` -/
def parseChunk (raw chunk : Text) : Except SpecError DimensionSpec :=
  let chunk := trim chunk
  if chunk = [] then .error (.emptyDimensionSegment (String.ofList raw))
  else do
    let dim ← parseDimensionSegment chunk
    validateUniqueFacetIds dim (String.ofList raw)
    return dim

def parseOne (raw : String) : Except SpecError MatrixSpec :=
  let raw := trim raw.toList
  if raw = [] then .error .empty
  else do
    let dimensions ← (raw.splitOn ';').mapM (parseChunk raw)
    if dimensions = [] then .error (.producedNothing (String.ofList raw))
    else .ok ⟨dimensions⟩

/-- one turn of the loop of `parse_all`; a blank entry is dropped -/
def parseEntry (raw : String) : Except SpecError (List DimensionSpec) :=
  if trim raw.toList = [] then .ok []
  else do
    let parsed ← parseOne raw
    forM parsed.dimensions fun dim => validateUniqueFacetIds dim raw
    return parsed.dimensions

def parseAll (entries : List String) : Except SpecError MatrixSpec := do
  let dimensions ← entries.mapM parseEntry
  if dimensions.flatten = [] then .error .allProducedNothing
  else .ok ⟨dimensions.flatten⟩

/-! ## checking -/

def validateFacet (dim : DimensionSpec) (facet : FacetSpec) : Except SpecError Unit :=
  if !isKebabCase facet.id.toList then .error (.specFacetNotKebabCase facet.id dim.id)
  else if trim facet.label.toList = [] then .error (.specFacetEmptyLabel facet.id dim.id)
  else .ok ()

def validateDimension (dim : DimensionSpec) : Except SpecError Unit :=
  if dim.id = "" then .error .specEmptyDimensionId
  else if !isKebabCase dim.id.toList then .error (.specDimensionNotKebabCase dim.id)
  else if trim dim.label.toList = [] then .error (.specDimensionEmptyLabel dim.id)
  else if dim.facets = [] then .error (.specZeroFacets dim.id)
  else do
    validateUniqueFacetIds dim "<MatrixSpec>"
    forM dim.facets (validateFacet dim)

def MatrixSpec.validate (s : MatrixSpec) : Except SpecError Unit :=
  if s.dimensions = [] then .error .zeroDimensions
  else forM s.dimensions validateDimension

/-- blank entries are as none -/
def parseMatrixSpecInputs (entries : List String) : Except SpecError (Option MatrixSpec) :=
  let nonEmpty := entries.filter fun s => trim s.toList ≠ []
  if nonEmpty = [] then .ok none
  else do
    let parsed ← parseAll nonEmpty
    parsed.validate
    return some parsed

/-! ## the matrix -/

def MatrixSpec.intoDimensions (s : MatrixSpec) : List Dimension :=
  s.dimensions.map fun d => {
    id := d.id
    label := d.label
    facets := d.facets.map fun f => { id := f.id, label := f.label } }

/-- `defaultProfile` is the profile of a new matrix -/
def ExplorationMatrix.new {F : Type} (defaultProfile : TemperatureProfile F)
    (dimensions : List Dimension) (thesesPerCell : ℕ) : ExplorationMatrix F where
  dimensions := dimensions
  thesesPerCell := max thesesPerCell 1
  temperatureProfiles := []
  defaultProfile := defaultProfile

def ExplorationMatrix.fromSpec {F : Type} (defaultProfile : TemperatureProfile F)
    (spec : MatrixSpec) (thesesPerCell : ℕ) : ExplorationMatrix F :=
  .new defaultProfile spec.intoDimensions thesesPerCell

/-- dimension and facet of every cell, in order -/
def MatrixSpec.cellIds (s : MatrixSpec) : List (String × String) :=
  s.dimensions.flatMap fun d => d.facets.map fun f => (d.id, f.id)

/-! ## what is accepted -/

theorem trim_eq_nil {t : Text} : trim t = [] ↔ ∀ c ∈ t, isWhitespace c = true := by
  rw [trim, List.reverse_eq_nil_iff, List.dropWhile_eq_nil_iff]
  constructor
  · intro h c hc
    rw [← List.takeWhile_append_dropWhile (p := isWhitespace) (l := t), List.mem_append] at hc
    obtain hc | hc := hc
    · exact List.mem_takeWhile_imp hc
    · exact h c (List.mem_reverse.mpr hc)
  · intro h c hc
    exact h c ((List.dropWhile_suffix _).subset (List.mem_reverse.mp hc))

theorem kebabCase_chars {s : Text} (h : isKebabCase s = true) :
    ∀ c ∈ s, c.isLower = true ∨ c.isDigit = true ∨ c = '-' := by
  unfold isKebabCase at h
  split_ifs at h
  intro c hc
  simpa [or_assoc] using List.all_eq_true.mp h c hc

theorem kebabCase_head {s : Text} (h : isKebabCase s = true) :
    ∃ c rest, s = c :: rest ∧ (c.isLower = true ∨ c.isDigit = true) := by
  have hchars := kebabCase_chars h
  unfold isKebabCase at h
  split_ifs at h with hnil hends
  cases s with
  | nil => exact absurd rfl hnil
  | cons c rest =>
    refine ⟨c, rest, rfl, ?_⟩
    obtain hc | hc | hc := hchars c List.mem_cons_self
    · exact Or.inl hc
    · exact Or.inr hc
    · rw [hc] at hends
      exact absurd (by simp) hends

structure FacetSpec.WellFormed (f : FacetSpec) : Prop where
  kebab : isKebabCase f.id.toList = true
  labelled : trim f.label.toList ≠ []

structure DimensionSpec.WellFormed (d : DimensionSpec) : Prop where
  kebab : isKebabCase d.id.toList = true
  labelled : trim d.label.toList ≠ []
  nonempty : d.facets ≠ []
  unique : (d.facets.map FacetSpec.id).Nodup
  facets : ∀ f ∈ d.facets, f.WellFormed

theorem validateUniqueFacetIds_ok {dim : DimensionSpec} {raw : String} :
    validateUniqueFacetIds dim raw = .ok () ↔ (dim.facets.map FacetSpec.id).Nodup := by
  rw [← nodup_iff, validateUniqueFacetIds]
  cases firstRepeated [] (dim.facets.map FacetSpec.id) with
  | none => simp
  | some f => simp

theorem validateFacet_ok {dim : DimensionSpec} {f : FacetSpec} :
    validateFacet dim f = .ok () ↔ f.WellFormed := by
  unfold validateFacet
  constructor
  · intro h
    split_ifs at h with h1 h2
    exact ⟨by simpa using h1, h2⟩
  · intro h
    rw [if_neg (by simp [h.kebab]), if_neg h.labelled]

theorem validateDimension_ok {d : DimensionSpec} :
    validateDimension d = .ok () ↔ d.WellFormed := by
  unfold validateDimension
  constructor
  · intro h
    split_ifs at h with h1 h2 h3 h4
    obtain ⟨_, hu, h⟩ := bind_ok.mp h
    exact ⟨by simpa using h2, h3, h4, validateUniqueFacetIds_ok.mp hu,
      fun f hf => validateFacet_ok.mp (forM_ok.mp h f hf)⟩
  · intro h
    have hid : d.id ≠ "" := by
      intro hid
      have := h.kebab
      rw [hid] at this
      cases this
    rw [if_neg hid, if_neg (by simp [h.kebab]), if_neg h.labelled, if_neg h.nonempty]
    exact bind_ok.mpr ⟨(), validateUniqueFacetIds_ok.mpr h.unique,
      forM_ok.mpr fun f hf => validateFacet_ok.mpr (h.facets f hf)⟩

theorem validate_ok {s : MatrixSpec} :
    s.validate = .ok () ↔ s.dimensions ≠ [] ∧ ∀ d ∈ s.dimensions, d.WellFormed := by
  unfold MatrixSpec.validate
  by_cases hs : s.dimensions = []
  · simp [hs]
  · rw [if_neg hs, forM_ok]
    simp [hs, validateDimension_ok]

theorem upper_solid {c : Char} (h : c.isLower = true ∨ c.isDigit = true) :
    isWhitespace c.toUpper = false := by
  have key : ∀ n < 123, ((Char.ofNat n).isLower || (Char.ofNat n).isDigit) = true →
      isWhitespace (Char.ofNat n).toUpper = false := by decide
  have hn : c.val.toNat < 123 := by
    obtain h | h := h
    · have h2 := of_decide_eq_true (Bool.and_eq_true_iff.mp h).2
      exact Nat.lt_succ_of_le (UInt32.le_iff_toNat_le.mp h2)
    · simp only [Char.isDigit, Bool.and_eq_true, decide_eq_true_eq] at h
      have h2 := UInt32.le_iff_toNat_le.mp h.2
      have : '9'.val.toNat = 57 := rfl
      omega
  have := key c.toNat hn
  rw [Char.ofNat_toNat] at this
  exact this (by simpa using h)

/-- the default label of an id starts with a letter or a digit -/
theorem label_labelled {id : Text} (h : isKebabCase id = true) :
    trim (String.ofList (defaultLabelFromId id)).toList ≠ [] := by
  obtain ⟨c, rest, rfl, hc⟩ := kebabCase_head h
  have hdash : c ≠ '-' := by
    intro hd
    rw [hd] at hc
    simp at hc
  rw [String.toList_ofList, defaultLabelFromId, defaultLabel, if_neg hdash, if_pos rfl]
  intro hnil
  have hwhite := trim_eq_nil.mp hnil _ List.mem_cons_self
  rw [upper_solid hc] at hwhite
  cases hwhite

theorem parseFacet_wellFormed {segment rawFacet : Text} {f : FacetSpec}
    (h : parseFacet segment rawFacet = .ok f) : f.WellFormed := by
  unfold parseFacet at h
  dsimp only at h
  split_ifs at h with h1 h2
  have hk : isKebabCase (trim rawFacet) = true := by simpa using h2
  obtain rfl := Except.ok.inj h
  exact ⟨by rw [String.toList_ofList]; exact hk, label_labelled hk⟩

theorem parseChunk_wellFormed {raw chunk : Text} {d : DimensionSpec}
    (h : parseChunk raw chunk = .ok d) : d.WellFormed := by
  unfold parseChunk at h
  dsimp only at h
  split_ifs at h
  obtain ⟨dim, hdim, h⟩ := bind_ok.mp h
  obtain ⟨_, hunique, h⟩ := bind_ok.mp h
  obtain rfl := Except.ok.inj h
  unfold parseDimensionSegment at hdim
  cases hs : splitOnceAt '=' (trim chunk) with
  | none =>
    rw [hs] at hdim
    cases hdim
  | some parts =>
    rw [hs] at hdim
    dsimp only at hdim
    split_ifs at hdim with h1 h2
    obtain ⟨facets, hfacets, hdim⟩ := bind_ok.mp hdim
    split_ifs at hdim with h3
    have hk : isKebabCase (trim parts.1) = true := by simpa using h2
    obtain rfl := Except.ok.inj hdim
    refine ⟨by rw [String.toList_ofList]; exact hk, label_labelled hk, h3,
      validateUniqueFacetIds_ok.mp hunique, fun f hf => ?_⟩
    obtain ⟨rawFacet, -, hf⟩ := exists_of_mapM hfacets hf
    exact parseFacet_wellFormed hf

theorem parseEntry_wellFormed {raw : String} {dims : List DimensionSpec}
    (h : parseEntry raw = .ok dims) : ∀ d ∈ dims, d.WellFormed := by
  intro d hd
  unfold parseEntry at h
  split_ifs at h
  · obtain rfl := Except.ok.inj h
    cases hd
  · obtain ⟨parsed, hparsed, h⟩ := bind_ok.mp h
    obtain ⟨_, -, h⟩ := bind_ok.mp h
    obtain rfl := Except.ok.inj h
    unfold parseOne at hparsed
    dsimp only at hparsed
    split_ifs at hparsed
    obtain ⟨dimensions, hmap, hparsed⟩ := bind_ok.mp hparsed
    split_ifs at hparsed
    obtain rfl := Except.ok.inj hparsed
    obtain ⟨chunk, -, hchunk⟩ := exists_of_mapM hmap hd
    exact parseChunk_wellFormed hchunk

/-- **What the parser accepts passes the check.** -/
theorem validate_of_parseAll {entries : List String} {spec : MatrixSpec}
    (h : parseAll entries = .ok spec) : spec.validate = .ok () := by
  unfold parseAll at h
  obtain ⟨dimensions, hmap, h⟩ := bind_ok.mp h
  split_ifs at h with hnil
  obtain rfl := Except.ok.inj h
  refine validate_ok.mpr ⟨hnil, fun d hd => ?_⟩
  obtain ⟨dims, hdims, hd⟩ := List.mem_flatten.mp hd
  obtain ⟨raw, -, hraw⟩ := exists_of_mapM hmap hdims
  exact parseEntry_wellFormed hraw d hd

example : parseAll ["a=x, y;b=z", " "] = .ok ⟨[
    ⟨"a", "A", [⟨"x", "X", ""⟩, ⟨"y", "Y", ""⟩]⟩, ⟨"b", "B", [⟨"z", "Z", ""⟩]⟩]⟩ := by
  decide +kernel

theorem parseMatrixSpecInputs_wellFormed {entries : List String} {spec : MatrixSpec}
    (h : parseMatrixSpecInputs entries = .ok (some spec)) :
    ∀ d ∈ spec.dimensions, d.WellFormed := by
  unfold parseMatrixSpecInputs at h
  dsimp only at h
  split_ifs at h
  · cases h
  · obtain ⟨parsed, -, h⟩ := bind_ok.mp h
    obtain ⟨_, hvalid, h⟩ := bind_ok.mp h
    obtain rfl := Option.some.inj (Except.ok.inj h)
    exact (validate_ok.mp hvalid).2

end Moagan.Discovery
