import Moagan.Discovery.Integrity
import Moagan.Discovery.MatrixSpec
import Moagan.Lib.Separated

/-!
# The files of the cells (`src/discovery/render.rs`, `src/phases/discover_render.rs`)

* `facetPath`, `curationPath`    the rendered page of a cell, and its curation
* `renderRunDir`                 the rendered paths; two equal ones are an error
* `buildCatalog_cellIds`         the cells of a catalogue, by dimension and facet
* `cell_files_apart`             when no two cells share a file

A path is the list of its components; of the rendered files only the paths are kept.
-/

namespace Moagan.Discovery
open Scanning Checks

abbrev RelPath := List String

def segmentChar (c : Char) : Char :=
  if c.isAlphanum || c = '-' || c = '_' then c else '-'

def pathSegment (id : String) : String :=
  let segment := String.ofList (id.toList.map segmentChar)
  if segment = "" then "-" else segment

def facetPath (dimensionId facetId : String) : RelPath :=
  [pathSegment dimensionId, pathSegment facetId ++ ".md"]

def curationPath (curationDir : RelPath) (dimensionId facetId : String) : RelPath :=
  curationDir ++ [pathSegment dimensionId ++ "__" ++ pathSegment facetId ++ ".json"]

/-- the paths of `render`, in its order -/
def renderPaths (catalog : Catalog) : List RelPath :=
  ["README.md"] :: catalog.cells.map (fun cell => facetPath cell.dimensionId cell.facetId)
    ++ [["constraints-annex.md"], ["catalog.json"]]

inductive RenderError where
  | catalog (e : CatalogError)
  /-- "two catalogue files render to …: matrix ids collide" -/
  | collide (path : RelPath)
deriving DecidableEq, Repr

section
variable {F : Type}

def renderRunDir (matrix : ExplorationMatrix F) (descriptions : List DimensionFacetDescription)
    (theses : List Thesis) (curations : List Curation) : Except RenderError (List RelPath) :=
  let catalog := applyCurations (buildCatalog matrix descriptions theses) curations
  match catalog.validate theses with
  | .error e => .error (.catalog e)
  | .ok () =>
    match firstRepeated [] (renderPaths catalog) with
    | some path => .error (.collide path)
    | none => .ok (renderPaths catalog)

/-! ## the cells of a catalogue -/

def CellEntry.ids (cell : CellEntry) : String × String := (cell.dimensionId, cell.facetId)

def ExplorationMatrix.cellIds (m : ExplorationMatrix F) : List (String × String) :=
  m.dimensions.flatMap fun d => d.facets.map fun f => (d.id, f.id)

/-- the angle of the theses of a cell -/
def angleOf (ids : String × String) : String := ids.1 ++ ":" ++ ids.2

/-- what the index of a frame finds -/
structure Frame.Indexed (s : Frame) (ids : List (String × String)) : Prop where
  cells : s.cells.map CellEntry.ids = ids
  index : ∀ key, s.indexOf.get? key = none ↔ ∀ p ∈ ids, angleOf p ≠ key

theorem addCell_indexed {descriptions : List DimensionFacetDescription} {dimension : Dimension}
    {s : Frame} {ids : List (String × String)} (h : s.Indexed ids) (facet : Facet) :
    (addCell descriptions dimension s facet).Indexed (ids ++ [(dimension.id, facet.id)]) := by
  constructor
  · show (s.cells ++ [_]).map CellEntry.ids = _
    rw [List.map_append, h.cells]
    rfl
  · intro key
    rw [addCell, SortedMap.get?_orInsert]
    simp only [List.mem_append, List.mem_singleton, or_imp, forall_and, forall_eq]
    by_cases hk : key = dimension.id ++ ":" ++ facet.id
    · rw [if_pos hk]
      simp [angleOf, hk]
    · rw [if_neg hk, h.index key]
      exact (and_iff_left (Ne.symm hk)).symm

theorem frame_indexed (matrix : ExplorationMatrix F)
    (descriptions : List DimensionFacetDescription) :
    (frame matrix descriptions).Indexed matrix.cellIds := by
  have cells : ∀ (pairs : List (Dimension × Facet)) (s : Frame) (ids : List (String × String)),
      s.Indexed ids → (pairs.foldl (fun s p => addCell descriptions p.1 s p.2) s).Indexed
        (ids ++ pairs.map fun p => (p.1.id, p.2.id)) := by
    intro pairs
    induction pairs with
    | nil =>
      intro s ids h
      rwa [List.map_nil, List.append_nil]
    | cons p pairs ih =>
      intro s ids h
      rw [List.map_cons, List.append_cons]
      exact ih _ _ (addCell_indexed h p.2)
  have h := cells (matrix.dimensions.flatMap fun d => d.facets.map (d, ·)) ⟨[], SortedMap.empty⟩ []
    ⟨rfl, fun key => ⟨fun _ p hp => absurd hp List.not_mem_nil, fun _ => rfl⟩⟩
  rw [← frame_eq, List.nil_append, List.map_flatMap] at h
  simp only [List.map_map] at h
  exact h

theorem foldl_place_outside (indexOf : SortedMap String ℕ) (theses : List Thesis) (s : Placed) :
    (theses.foldl (place indexOf) s).outside =
      s.outside ++ (theses.filter fun t => indexOf.get? t.angle = none).map Thesis.id := by
  induction theses generalizing s with
  | nil => simp
  | cons t ts ih =>
    rw [List.foldl_cons, ih, place]
    cases h : indexOf.get? t.angle with
    | none => simp [h]
    | some i => simp [h]

theorem zipWith_fill_cellIds (cells : List CellEntry) (lists : List (List String))
    (hlen : cells.length = lists.length) :
    (cells.zipWith fill lists).map CellEntry.ids = cells.map CellEntry.ids := by
  induction cells generalizing lists with
  | nil => rfl
  | cons cell cells ih =>
    cases lists with
    | nil => cases hlen
    | cons l ls =>
      rw [List.zipWith_cons_cons, List.map_cons, List.map_cons, ih ls (Nat.succ.inj hlen)]
      congr 1
      unfold fill
      split_ifs <;> rfl

/-- the cells of the matrix, and one for the theses that match none -/
theorem buildCatalog_cellIds (matrix : ExplorationMatrix F)
    (descriptions : List DimensionFacetDescription) (theses : List Thesis) :
    (buildCatalog matrix descriptions theses).cells.map CellEntry.ids =
      matrix.cellIds ++ if ∀ t ∈ theses, ∃ p ∈ matrix.cellIds, angleOf p = t.angle then []
        else [(OUTSIDE_DIMENSION_ID, OUTSIDE_FACET_ID)] := by
  have hf := frame_indexed matrix descriptions
  have hlen := (foldl_place_ids theses ⟨(frame matrix descriptions).cells.map fun _ => [], []⟩
    fun key i hi => by simpa using (frame_empty matrix descriptions).index key i hi).2
  rw [List.length_map] at hlen
  have hout := foldl_place_outside (frame matrix descriptions).indexOf theses
    ⟨(frame matrix descriptions).cells.map fun _ => [], []⟩
  rw [List.nil_append] at hout
  have hcond : (theses.foldl (place (frame matrix descriptions).indexOf)
      ⟨(frame matrix descriptions).cells.map fun _ => [], []⟩).outside = [] ↔
      ∀ t ∈ theses, ∃ p ∈ matrix.cellIds, angleOf p = t.angle := by
    rw [hout, List.map_eq_nil_iff, List.filter_eq_nil_iff]
    simp only [decide_eq_true_eq, hf.index, not_forall, not_not, exists_prop]
  unfold buildCatalog
  dsimp only
  by_cases h : ∀ t ∈ theses, ∃ p ∈ matrix.cellIds, angleOf p = t.angle
  · rw [if_pos (hcond.mpr h), if_pos h, List.append_nil, zipWith_fill_cellIds _ _ hlen.symm, hf.cells]
  · rw [if_neg (fun hnil => h (hcond.mp hnil)), if_neg h, zipWith_fill_cellIds, List.map_append,
      hf.cells]
    · rfl
    · rw [List.length_append, List.length_append, hlen]
      rfl

theorem applyCurations_cellIds (catalog : Catalog) (curations : List Curation) :
    (applyCurations catalog curations).cells.map CellEntry.ids = catalog.cells.map CellEntry.ids := by
  unfold applyCurations
  rw [List.map_map]
  refine List.map_congr_left fun cell _ => ?_
  show CellEntry.ids (applyCuration curations cell) = _
  obtain h | h | ⟨c, -, -, h⟩ := applyCuration_cases curations cell <;> rw [h] <;> rfl

end

/-! ## the names of the files -/

theorem pathSegment_kebab {id : String} (h : isKebabCase id.toList = true) : pathSegment id = id := by
  have hmap : id.toList.map segmentChar = id.toList := by
    refine (List.map_congr_left fun c hc => ?_).trans (List.map_id _)
    rw [segmentChar, if_pos]
    · rfl
    · obtain hc | hc | hc := kebabCase_chars h c hc
      · have halpha : c.isAlpha = true := Bool.or_eq_true_iff.mpr (Or.inr hc)
        simp [Char.isAlphanum, halpha]
      · simp [Char.isAlphanum, hc]
      · simp [hc]
  unfold pathSegment
  rw [hmap, String.ofList_toList]
  refine if_neg fun he => ?_
  rw [he] at h
  cases h

theorem underscore_notMem {id : String} (h : isKebabCase id.toList = true) : '_' ∉ id.toList := by
  intro hc
  have := kebabCase_chars h _ hc
  revert this
  decide

def Kebab (ids : String × String) : Prop :=
  isKebabCase ids.1.toList = true ∧ isKebabCase ids.2.toList = true

theorem facetPath_inj {p q : String × String} (hp : Kebab p) (hq : Kebab q)
    (h : facetPath p.1 p.2 = facetPath q.1 q.2) : p = q := by
  unfold facetPath at h
  rw [pathSegment_kebab hp.1, pathSegment_kebab hp.2, pathSegment_kebab hq.1,
    pathSegment_kebab hq.2] at h
  obtain ⟨h1, h2, -⟩ := List.cons_eq_cons.mp h |>.imp_right List.cons_eq_cons.mp
  exact Prod.ext h1 (String.append_left_inj _ |>.mp h2)

/-- an id has no underscore, so the name falls apart at the first one -/
theorem curationPath_inj (curationDir : RelPath) {p q : String × String} (hp : Kebab p)
    (hq : Kebab q) (h : curationPath curationDir p.1 p.2 = curationPath curationDir q.1 q.2) :
    p = q := by
  unfold curationPath at h
  rw [pathSegment_kebab hp.1, pathSegment_kebab hp.2, pathSegment_kebab hq.1,
    pathSegment_kebab hq.2] at h
  have hname := List.singleton_inj.mp (List.append_cancel_left h)
  have htext := congrArg String.toList ((String.append_left_inj _).mp hname)
  have hjoin : ∀ r : String × String, (r.1 ++ "__" ++ r.2).toList =
      ['_'].intercalate [r.1.toList, [], r.2.toList] := by
    intro r
    rw [String.toList_append, String.toList_append]
    simp [List.intercalate]
  rw [hjoin, hjoin] at htext
  have hfree : ∀ r, Kebab r → ∀ x ∈ [r.1.toList, [], r.2.toList], '_' ∉ x := by
    intro r hr x hx
    simp only [List.mem_cons, List.not_mem_nil, or_false] at hx
    obtain rfl | rfl | rfl := hx
    · exact underscore_notMem hr.1
    · exact List.not_mem_nil
    · exact underscore_notMem hr.2
  have heq := (Separated.intercalate_inj '_' (List.cons_ne_nil _ _) (List.cons_ne_nil _ _)
    (hfree p hp) (hfree q hq)).mp htext
  simp only [List.cons.injEq, and_true, true_and] at heq
  exact Prod.ext (String.toList_inj.mp heq.1) (String.toList_inj.mp heq.2)

/-! ## cells that share no file -/

theorem nodup_map_iff {α β : Type} {f : α → β} {l : List α}
    (hf : ∀ a ∈ l, ∀ b ∈ l, f a = f b → a = b) : (l.map f).Nodup ↔ l.Nodup :=
  ⟨List.Nodup.of_map f, fun h => h.map_on hf⟩

theorem firstRepeated_renderPaths {catalog : Catalog} (h : (catalog.cells.map fun cell =>
    facetPath cell.dimensionId cell.facetId).Nodup) :
    firstRepeated [] (renderPaths catalog) = none := by
  -- the page of a cell lies in a directory, the three other files do not
  have hone : ∀ name : String, [name] ∉ catalog.cells.map fun cell =>
      facetPath cell.dimensionId cell.facetId := by
    intro name hname
    obtain ⟨cell, -, heq⟩ := List.mem_map.mp hname
    cases heq
  rw [nodup_iff, renderPaths, List.cons_append, List.nodup_cons, List.nodup_append]
  refine ⟨fun hm => ?_, h, by simp, fun path hp other ho heq => ?_⟩
  · obtain hm | hm := List.mem_append.mp hm
    · exact hone _ hm
    · simp at hm
  · subst heq
    simp only [List.mem_cons, List.not_mem_nil, or_false] at ho
    obtain rfl | rfl := ho
    · exact hone _ hp
    · exact hone _ hp

section
variable {F : Type}

/-- no two cells of the catalogue have the same page or the same curation file, and the rendering
meets no path twice -/
structure FilesApart (curationDir : RelPath) (matrix : ExplorationMatrix F)
    (descriptions : List DimensionFacetDescription) (theses : List Thesis)
    (curations : List Curation) : Prop where
  pages : ((applyCurations (buildCatalog matrix descriptions theses) curations).cells.map
    fun cell => facetPath cell.dimensionId cell.facetId).Nodup
  curationFiles : ((applyCurations (buildCatalog matrix descriptions theses) curations).cells.map
    fun cell => curationPath curationDir cell.dimensionId cell.facetId).Nodup
  renders : ∀ path, renderRunDir matrix descriptions theses curations ≠ .error (.collide path)

/-- no cell is given twice; the cell of the unmatched theses is given only when every thesis
matches -/
structure MatrixSpec.CellsOnce (spec : MatrixSpec) (theses : List Thesis) : Prop where
  distinct : spec.cellIds.Nodup
  reserved : (OUTSIDE_DIMENSION_ID, OUTSIDE_FACET_ID) ∈ spec.cellIds →
    ∀ t ∈ theses, ∃ p ∈ spec.cellIds, angleOf p = t.angle

theorem fromSpec_cellIds (defaultProfile : TemperatureProfile F) (spec : MatrixSpec)
    (thesesPerCell : ℕ) :
    (ExplorationMatrix.fromSpec defaultProfile spec thesesPerCell).cellIds = spec.cellIds := by
  show (spec.intoDimensions.flatMap _) = _
  rw [MatrixSpec.intoDimensions, List.flatMap_map]
  simp only [List.map_map]
  rfl

theorem cellIds_kebab {spec : MatrixSpec} (h : ∀ d ∈ spec.dimensions, d.WellFormed) :
    ∀ p ∈ spec.cellIds, Kebab p := by
  intro p hp
  obtain ⟨d, hd, hp⟩ := List.mem_flatMap.mp hp
  obtain ⟨f, hf, rfl⟩ := List.mem_map.mp hp
  exact ⟨(h d hd).kebab, ((h d hd).facets f hf).kebab⟩

theorem cellsOnce_iff (spec : MatrixSpec) (theses : List Thesis) : spec.CellsOnce theses ↔
    (spec.cellIds ++ if ∀ t ∈ theses, ∃ p ∈ spec.cellIds, angleOf p = t.angle then []
      else [(OUTSIDE_DIMENSION_ID, OUTSIDE_FACET_ID)]).Nodup := by
  by_cases h : ∀ t ∈ theses, ∃ p ∈ spec.cellIds, angleOf p = t.angle
  · rw [if_pos h, List.append_nil]
    exact ⟨fun hc => hc.distinct, fun hd => ⟨hd, fun _ => h⟩⟩
  · rw [if_neg h, List.nodup_append]
    constructor
    · intro hc
      refine ⟨hc.distinct, List.nodup_singleton _, fun p hp q hq heq => ?_⟩
      rw [heq, List.mem_singleton.mp hq] at hp
      exact h (hc.reserved hp)
    · intro hd
      exact ⟨hd.1, fun hp => absurd rfl (hd.2.2 _ hp _ (List.mem_singleton_self _))⟩

/-- **The files of the cells are apart exactly when every cell is given once.** -/
theorem cell_files_apart {entries : List String} {spec : MatrixSpec}
    (h : parseMatrixSpecInputs entries = .ok (some spec))
    (defaultProfile : TemperatureProfile F) (thesesPerCell : ℕ) (curationDir : RelPath)
    (descriptions : List DimensionFacetDescription) (theses : List Thesis)
    (curations : List Curation) :
    FilesApart curationDir (.fromSpec defaultProfile spec thesesPerCell) descriptions theses
      curations ↔ spec.CellsOnce theses := by
  have hcells : (applyCurations (buildCatalog (.fromSpec defaultProfile spec thesesPerCell)
      descriptions theses) curations).cells.map CellEntry.ids = spec.cellIds ++
      if ∀ t ∈ theses, ∃ p ∈ spec.cellIds, angleOf p = t.angle then []
        else [(OUTSIDE_DIMENSION_ID, OUTSIDE_FACET_ID)] := by
    rw [applyCurations_cellIds, buildCatalog_cellIds, fromSpec_cellIds]
  have hkebab : ∀ p ∈ (applyCurations (buildCatalog
      (.fromSpec defaultProfile spec thesesPerCell) descriptions theses) curations).cells.map
      CellEntry.ids, Kebab p := by
    intro p hp
    rw [hcells] at hp
    obtain hp | hp := List.mem_append.mp hp
    · exact cellIds_kebab (parseMatrixSpecInputs_wellFormed h) p hp
    · split_ifs at hp
      · cases hp
      · rw [List.mem_singleton.mp hp]
        exact ⟨by decide +kernel, by decide +kernel⟩
  have hpages := nodup_map_iff fun p hp q hq => facetPath_inj (hkebab p hp) (hkebab q hq)
  have hfiles := nodup_map_iff fun p hp q hq =>
    curationPath_inj curationDir (hkebab p hp) (hkebab q hq)
  rw [List.map_map] at hpages hfiles
  rw [cellsOnce_iff, ← hcells]
  constructor
  · intro ha
    exact hpages.mp ha.pages
  · intro hnodup
    refine ⟨hpages.mpr hnodup, hfiles.mpr hnodup, fun path hr => ?_⟩
    unfold renderRunDir at hr
    dsimp only at hr
    rw [firstRepeated_renderPaths (hpages.mpr hnodup)] at hr
    split at hr
    · cases hr
    · cases hr

end

/-- the thesis of the only cell of both samples -/
def cellThesis : Thesis := ⟨"th_0001", "a:x"⟩

def oneFacet (dimension : String) : DimensionSpec :=
  ⟨dimension, String.ofList (defaultLabelFromId dimension.toList), [⟨"x", "X", ""⟩]⟩

theorem cell_files_apart_sample : FilesApart ["curation"]
    (.fromSpec (⟨[], 1⟩ : TemperatureProfile ℕ) ⟨[oneFacet "a", oneFacet "b"]⟩ 1) [] [cellThesis] [] :=
  have hparse : parseMatrixSpecInputs ["a=x; b=x"] = .ok (some ⟨[oneFacet "a", oneFacet "b"]⟩) := by
    decide +kernel
  (cell_files_apart hparse _ 1 _ _ _ _).mpr ⟨by decide +kernel, by decide +kernel⟩

/-- **A dimension given twice is accepted, and its cell has no page of its own.** -/
theorem repeated_dimension_collides :
    parseMatrixSpecInputs ["a=x", "a=x"] = .ok (some ⟨[oneFacet "a", oneFacet "a"]⟩) ∧
    renderRunDir (.fromSpec (⟨[], 1⟩ : TemperatureProfile ℕ) ⟨[oneFacet "a", oneFacet "a"]⟩ 1)
      [] [cellThesis] [] = .error (.collide ["a", "x.md"]) ∧
    ¬ FilesApart ["curation"] (.fromSpec (⟨[], 1⟩ : TemperatureProfile ℕ)
      ⟨[oneFacet "a", oneFacet "a"]⟩ 1) [] [cellThesis] [] := by
  have hrender : renderRunDir (.fromSpec (⟨[], 1⟩ : TemperatureProfile ℕ)
      ⟨[oneFacet "a", oneFacet "a"]⟩ 1) [] [cellThesis] [] = .error (.collide ["a", "x.md"]) := by
    decide +kernel
  exact ⟨by decide +kernel, hrender, fun h => h.renders _ hrender⟩

-- the cell of the unmatched theses is not reserved
example : renderRunDir (.fromSpec (⟨[], 1⟩ : TemperatureProfile ℕ)
    ⟨[⟨OUTSIDE_DIMENSION_ID, "Outside Matrix", [⟨OUTSIDE_FACET_ID, "Unmatched", ""⟩]⟩]⟩ 1) []
    [cellThesis] [] = .error (.collide ["outside-matrix", "unmatched.md"]) := by
  decide +kernel

end Moagan.Discovery
