import Mathlib.Data.List.Sort
import Mathlib.Data.List.TakeWhile
import Moagan.Discovery.Catalog
import Moagan.Lib.Checks
import Moagan.Lib.Decimal
import Moagan.Lib.FirstWins
import Moagan.Llm.Cache

/-!
# Merging discover runs (`src/discovery/merge.rs`)

* `RunDir`              the files of a run that a merge reads and writes
* `SourceRun.load`      what a source brings along
* `writeMergedRun`      the merged run
* `mergeRuns`           the merge of some run dirs
* `merge_assoc`         a merge of a merge is the merge of all sources

`F` are the `f32` values, `C` is what a thesis holds beside its id and its provenance.  A file is
the value that it parses to.
-/

namespace Moagan.Discovery.Merge
open Checks FirstWins

structure ThesisProvenance (F : Type) where
  sec : String
  model : String
  temperature : F
  replica : ℕ
  index : ℕ
  sourceRun : Option String
  sourceThesis : Option String
deriving DecidableEq, Repr

structure Thesis (F C : Type) where
  id : String
  content : C
  provenance : Option (ThesisProvenance F)
deriving DecidableEq, Repr

structure Intake where
  problem : String
  objectives : List String
  constraints : List String
  nonGoals : List String
  openQuestions : List String
  rawPrompt : String
deriving DecidableEq, Repr

structure DiscoveryDimensions where
  schemaVersion : String
  briefHash : String
  dimensions : List Dimension
  descriptions : List DimensionFacetDescription
  createdUnix : ℤ
deriving DecidableEq, Repr

/-- `name` is the run id; `theses` are the files of the directory, in any order -/
structure RunDir (F C : Type) where
  name : String
  brief : Option Intake
  prompt : Option String
  matrix : Option (ExplorationMatrix F)
  dimensions : Option DiscoveryDimensions
  theses : List (String × Thesis F C)
deriving DecidableEq, Repr

structure RunInputs (F C : Type) where
  matrix : ExplorationMatrix F
  descriptions : List DimensionFacetDescription
  brief : Intake
  theses : List (Thesis F C)
deriving DecidableEq, Repr

structure SourceRun (F C : Type) where
  runId : String
  dir : RunDir F C
  inputs : RunInputs F C
deriving DecidableEq, Repr

inductive MergeError where
  | noBrief (run : String)
  | noMatrix (run : String)
  /-- from the constraint with this number on -/
  | otherConstraints (run first : String) (differsAt : ℕ)
  | noProvenance (thesis run : String)
  | noSources
deriving DecidableEq, Repr

section
variable {F C : Type}

/-! ## loading -/

def isPrimaryJson (file : String) : Bool :=
  Cache.isJson file && !".meta.json".toList.isSuffixOf file.toList

def loadThesis (file : String × Thesis F C) : Thesis F C :=
  if file.2.id = "" then { file.2 with id := String.ofList ((Cache.fileStem file.1).getD []) }
  else file.2

def loadTheses (files : List (String × Thesis F C)) : List (Thesis F C) :=
  ((files.filter fun file => isPrimaryJson file.1).insertionSort (·.1 ≤ ·.1)).map loadThesis

def loadInputs (dir : RunDir F C) : Except MergeError (RunInputs F C) :=
  match dir.matrix with
  | none => .error (.noMatrix dir.name)
  | some matrix => .ok {
      matrix := matrix
      descriptions := (dir.dimensions.map (·.descriptions)).getD []
      brief := dir.brief.getD ⟨"", [], [], [], [], ""⟩
      theses := loadTheses dir.theses }

def SourceRun.load (dir : RunDir F C) : Except MergeError (SourceRun F C) :=
  match dir.brief with
  | none => .error (.noBrief dir.name)
  | some _ => do
    let inputs ← loadInputs dir
    return { runId := dir.name, dir, inputs }

/-! ## merging -/

def checkSameConstraints : List (SourceRun F C) → Except MergeError Unit
  | [] => .ok ()
  | first :: rest =>
    let want := first.inputs.brief.constraints
    match rest.find? fun source => source.inputs.brief.constraints ≠ want with
    | none => .ok ()
    | some source => .error (.otherConstraints source.runId first.runId
        (((want.zip source.inputs.brief.constraints).takeWhile fun p => p.1 = p.2).length + 1))

def addDimension (dimensions : List Dimension) (dimension : Dimension) : List Dimension :=
  match dimensions.findIdx? (·.id = dimension.id) with
  | some i => dimensions.modify i fun known =>
      { known with facets := addAll Facet.id known.facets dimension.facets }
  | none => dimensions ++ [dimension]

/-- the matrix of the first source with what the others add -/
def mergedMatrix (first : SourceRun F C) (rest : List (SourceRun F C)) : ExplorationMatrix F :=
  { first.inputs.matrix with
    dimensions := rest.foldl (fun dimensions source =>
      source.inputs.matrix.dimensions.foldl addDimension dimensions) first.inputs.matrix.dimensions }

def mergeMatrices : List (SourceRun F C) → Option (ExplorationMatrix F)
  | [] => none
  | first :: rest => some (mergedMatrix first rest)

def mergeDescriptions (sources : List (SourceRun F C)) : List DimensionFacetDescription :=
  addAll (fun d => (d.dimensionId, d.facetId)) [] (sources.flatMap (·.inputs.descriptions))

/-- a thesis that a merge has pooled keeps its source -/
def ThesisProvenance.pooledFrom (p : ThesisProvenance F) (runId thesisId : String) :
    ThesisProvenance F :=
  if p.sourceRun = none then { p with sourceRun := some runId, sourceThesis := some thesisId }
  else p

def numberedId (n : ℕ) : String := "th_" ++ zeroPad 4 n

def poolThesis (source : SourceRun F C) (pooled : List (Thesis F C)) (thesis : Thesis F C) :
    Except MergeError (List (Thesis F C)) :=
  match thesis.provenance with
  | none => .error (.noProvenance thesis.id source.runId)
  | some p => .ok (pooled ++ [{ thesis with
      provenance := some (p.pooledFrom source.runId thesis.id)
      id := numberedId pooled.length }])

def poolTheses (sources : List (SourceRun F C)) : Except MergeError (List (Thesis F C)) :=
  sources.foldlM (fun pooled source => source.inputs.theses.foldlM (poolThesis source) pooled) []

/-- the files of the merged run, and how many theses it has; `name` is a new run -/
def writeMergedRun (sources : List (SourceRun F C)) (name : String) :
    Except MergeError (RunDir F C × ℕ) := do
  checkSameConstraints sources
  let theses ← poolTheses sources
  match sources.head?, mergeMatrices sources with
  | some first, some matrix => return ({
      name := name
      brief := first.dir.brief
      prompt := first.dir.prompt
      matrix := some matrix
      dimensions := (sources.findSome? (·.dir.dimensions)).map fun d => { d with
        dimensions := matrix.dimensions, descriptions := mergeDescriptions sources }
      theses := theses.map fun thesis => (thesis.id ++ ".json", thesis) }, theses.length)
  | _, _ => .error .noSources

/-- the sources are loaded before anything is written -/
def mergeRuns (dirs : List (RunDir F C)) (name : String) : Except MergeError (RunDir F C) := do
  let sources ← dirs.mapM SourceRun.load
  let written ← writeMergedRun sources name
  return written.1

/-! ## pooling -/

/-- a thesis with its source -/
def SourceRun.stamp (source : SourceRun F C) (thesis : Thesis F C) : Thesis F C :=
  { thesis with provenance := thesis.provenance.map (·.pooledFrom source.runId thesis.id) }

def SourceRun.stamped (source : SourceRun F C) : List (Thesis F C) :=
  source.inputs.theses.map source.stamp

def Thesis.numbered (thesis : Thesis F C) (n : ℕ) : Thesis F C := { thesis with id := numberedId n }

def numberFrom : ℕ → List (Thesis F C) → List (Thesis F C)
  | _, [] => []
  | n, thesis :: rest => thesis.numbered n :: numberFrom (n + 1) rest

theorem numberFrom_length (n : ℕ) (l : List (Thesis F C)) : (numberFrom n l).length = l.length := by
  induction l generalizing n with
  | nil => rfl
  | cons t l ih => rw [numberFrom, List.length_cons, List.length_cons, ih]

theorem numberFrom_append (n : ℕ) (l l' : List (Thesis F C)) :
    numberFrom n (l ++ l') = numberFrom n l ++ numberFrom (n + l.length) l' := by
  induction l generalizing n with
  | nil => rfl
  | cons t l ih =>
    rw [List.cons_append, numberFrom, numberFrom, ih, List.length_cons, List.cons_append,
      Nat.add_right_comm n 1]
    rfl

/-- the last numbering counts -/
theorem numberFrom_numberFrom (n m : ℕ) (l : List (Thesis F C)) :
    numberFrom n (numberFrom m l) = numberFrom n l := by
  induction l generalizing n m with
  | nil => rfl
  | cons t l ih =>
    rw [numberFrom, numberFrom, numberFrom, ih]
    rfl

theorem mem_numberFrom {n : ℕ} {l : List (Thesis F C)} {t : Thesis F C} (h : t ∈ numberFrom n l) :
    ∃ i, n ≤ i ∧ i < n + l.length ∧ t.id = numberedId i ∧ ∃ u ∈ l, t.provenance = u.provenance := by
  induction l generalizing n with
  | nil => cases h
  | cons u l ih =>
    obtain rfl | h := List.mem_cons.mp h
    · exact ⟨n, le_refl n, by simp, rfl, u, List.mem_cons_self, rfl⟩
    · obtain ⟨i, h1, h2, hid, v, hv, hp⟩ := ih h
      rw [List.length_cons]
      exact ⟨i, by omega, by omega, hid, v, List.mem_cons_of_mem _ hv, hp⟩

/-- every thesis of a source says where it came from -/
def SourceRun.Provenanced (source : SourceRun F C) : Prop :=
  ∀ t ∈ source.inputs.theses, t.provenance ≠ none

theorem foldlM_poolThesis (source : SourceRun F C) {theses pooled r : List (Thesis F C)} :
    theses.foldlM (poolThesis source) pooled = .ok r ↔ (∀ t ∈ theses, t.provenance ≠ none) ∧
      r = pooled ++ numberFrom pooled.length (theses.map source.stamp) := by
  induction theses generalizing pooled with
  | nil =>
    rw [List.foldlM_nil]
    constructor
    · intro h
      exact ⟨fun t ht => absurd ht List.not_mem_nil,
        (Except.ok.inj h).symm.trans (List.append_nil _).symm⟩
    · intro h
      rw [h.2]
      exact congrArg Except.ok (List.append_nil _).symm
  | cons t theses ih =>
    rw [List.foldlM_cons, bind_ok]
    cases hp : t.provenance with
    | none =>
      constructor
      · intro h
        obtain ⟨_, h, -⟩ := h
        rw [poolThesis, hp] at h
        cases h
      · intro h
        exact absurd hp (h.1 t List.mem_cons_self)
    | some p =>
      have hstep : poolThesis source pooled t = .ok (pooled ++ [(source.stamp t).numbered pooled.length]) := by
        rw [poolThesis, hp, SourceRun.stamp, hp]
        rfl
      rw [hstep, List.forall_mem_cons]
      constructor
      · intro h
        obtain ⟨_, heq, h⟩ := h
        obtain rfl := Except.ok.inj heq
        obtain ⟨hall, rfl⟩ := ih.mp h
        refine ⟨⟨by simp [hp], hall⟩, ?_⟩
        rw [List.map_cons, numberFrom, List.length_append, List.length_singleton, List.append_assoc]
        rfl
      · intro h
        refine ⟨_, rfl, ih.mpr ⟨h.1.2, ?_⟩⟩
        rw [h.2, List.map_cons, numberFrom, List.length_append, List.length_singleton,
          List.append_assoc]
        rfl

/-- **The pooled theses are those of the sources, with their source, numbered from 0 on.** -/
theorem poolTheses_ok {sources : List (SourceRun F C)} {r : List (Thesis F C)} :
    poolTheses sources = .ok r ↔ (∀ source ∈ sources, source.Provenanced) ∧
      r = numberFrom 0 (sources.flatMap SourceRun.stamped) := by
  have pooling : ∀ (sources : List (SourceRun F C)) (pooled : List (Thesis F C)),
      sources.foldlM (fun pooled source => source.inputs.theses.foldlM (poolThesis source) pooled)
        pooled = .ok r ↔ (∀ source ∈ sources, source.Provenanced) ∧
        r = pooled ++ numberFrom pooled.length (sources.flatMap SourceRun.stamped) := by
    intro sources
    induction sources with
    | nil =>
      intro pooled
      rw [List.foldlM_nil]
      constructor
      · intro h
        exact ⟨fun t ht => absurd ht List.not_mem_nil,
          (Except.ok.inj h).symm.trans (List.append_nil _).symm⟩
      · intro h
        rw [h.2]
        exact congrArg Except.ok (List.append_nil _).symm
    | cons source sources ih =>
      intro pooled
      rw [List.foldlM_cons, bind_ok, List.forall_mem_cons, List.flatMap_cons, numberFrom_append,
        ← List.append_assoc]
      constructor
      · intro h
        obtain ⟨_, h, hrest⟩ := h
        obtain ⟨hp, rfl⟩ := (foldlM_poolThesis source).mp h
        obtain ⟨hall, rfl⟩ := (ih _).mp hrest
        rw [List.length_append, numberFrom_length]
        exact ⟨⟨hp, hall⟩, rfl⟩
      · intro h
        refine ⟨_, (foldlM_poolThesis source).mpr ⟨h.1.1, rfl⟩, (ih _).mpr ⟨h.1.2, ?_⟩⟩
        rw [h.2, List.length_append, numberFrom_length]
        rfl
  exact pooling sources []

/-! ## the files of a merged run -/

theorem numberedId_lt {m n : ℕ} (h : m < n) (hn : n < 10000) (suffix : String) :
    numberedId m ++ suffix < numberedId n ++ suffix := by
  have hpad : ∀ k, (numberedId k ++ suffix).toList = "th_".toList ++ (Decimal.padded 4 k
      ++ suffix.toList) := by
    intro k
    rw [numberedId, String.toList_append, String.toList_append, List.append_assoc, zeroPad]
    simp only [String.toList_ofList]
    rfl
  rw [String.lt_iff_toList_lt, hpad, hpad]
  refine List.append_left_lt (Decimal.append_lt ?_ (Decimal.padded_lt h hn) _ _)
  rw [Decimal.padded_length (h.trans hn), Decimal.padded_length hn]

theorem numberedId_chars {n : ℕ} {c : Char} (h : c ∈ (numberedId n).toList) : c ≠ '/' ∧ c ≠ '.' := by
  rw [numberedId, String.toList_append, List.mem_append, zeroPad] at h
  simp only [String.toList_ofList, List.mem_append, List.mem_replicate] at h
  obtain h | ⟨-, rfl⟩ | h := h
  · have hall : "th_".toList.all (fun c => c ≠ '/' ∧ c ≠ '.') = true := by decide
    exact of_decide_eq_true (List.all_eq_true.mp hall c h)
  · decide
  · have hdigit := Nat.isDigit_of_mem_toDigits (by omega) (by omega) h
    constructor
    · intro hc
      rw [hc] at hdigit
      cases hdigit
    · intro hc
      rw [hc] at hdigit
      cases hdigit

theorem numberedId_ne_empty (n : ℕ) : numberedId n ≠ "" := by
  intro h
  have := congrArg String.toList h
  rw [numberedId, String.toList_append] at this
  cases this

theorem isPrimaryJson_numbered (n : ℕ) : isPrimaryJson (numberedId n ++ ".json") = true := by
  have hjson : ".json".toList = ['.', 'j', 's', 'o', 'n'] := by decide
  have htext : (numberedId n ++ ".json").toList = (numberedId n).toList
      ++ ['.', 'j', 's', 'o', 'n'] := by
    rw [String.toList_append, hjson]
  have hname : Cache.fileName (numberedId n ++ ".json") = (numberedId n ++ ".json").toList := by
    rw [Cache.fileName, List.takeWhile_eq_self_iff.mpr, List.reverse_reverse]
    intro c hc
    rw [List.mem_reverse, htext, List.mem_append] at hc
    obtain hc | hc := hc
    · exact decide_eq_true (numberedId_chars hc).1
    · have hall : ['.', 'j', 's', 'o', 'n'].all (fun c => decide (c ≠ '/')) = true := rfl
      exact List.all_eq_true.mp hall c hc
  rw [isPrimaryJson, Bool.and_eq_true]
  constructor
  · rw [Cache.isJson, Cache.extension, hname, htext, Cache.rsplitFileAtDot, if_neg]
    · simp [numberedId_ne_empty n]
    · intro h
      have := congrArg List.length h
      simp at this
  · rw [Bool.not_eq_true', ← Bool.not_eq_true, List.isSuffixOf_iff_suffix, htext]
    intro h
    obtain ⟨front, hfront⟩ := h
    -- the stem would end in ".meta"
    have hmeta : ".meta.json".toList = ['.', 'm', 'e', 't', 'a'] ++ ['.', 'j', 's', 'o', 'n'] := by
      decide
    rw [hmeta, ← List.append_assoc] at hfront
    have hdot : '.' ∈ (numberedId n).toList := by
      rw [← List.append_cancel_right hfront]
      simp
    exact (numberedId_chars hdot).2 rfl

theorem loadThesis_numbered (file : String) {t : Thesis F C} {n : ℕ} (h : t.id = numberedId n) :
    loadThesis (file, t) = t := by
  refine if_neg fun hnil => numberedId_ne_empty n ?_
  rw [← h]
  exact hnil

/-- the files of the numbered theses are read in the order of their numbers -/
theorem loadTheses_numberFrom {l : List (Thesis F C)} (h : l.length ≤ 10000) :
    loadTheses ((numberFrom 0 l).map fun t => (t.id ++ ".json", t)) = numberFrom 0 l := by
  have hfilter : ((numberFrom 0 l).map fun t => (t.id ++ ".json", t)).filter
      (fun file => isPrimaryJson file.1) = (numberFrom 0 l).map fun t => (t.id ++ ".json", t) := by
    refine List.filter_eq_self.mpr fun file hfile => ?_
    obtain ⟨t, ht, rfl⟩ := List.mem_map.mp hfile
    obtain ⟨i, -, -, hid, -⟩ := mem_numberFrom ht
    rw [hid]
    exact isPrimaryJson_numbered i
  have hsorted : ∀ (n : ℕ) (l : List (Thesis F C)), n + l.length ≤ 10000 →
      ((numberFrom n l).map fun t => (t.id ++ ".json", t)).Pairwise (·.1 ≤ ·.1) := by
    intro n l
    induction l generalizing n with
    | nil => exact fun _ => List.Pairwise.nil
    | cons t l ih =>
      intro hlen
      rw [List.length_cons] at hlen
      refine List.pairwise_cons.mpr ⟨fun file hfile => ?_, ih (n + 1) (by omega)⟩
      obtain ⟨u, hu, rfl⟩ := List.mem_map.mp hfile
      obtain ⟨i, hi, hlt, hid, -⟩ := mem_numberFrom hu
      show numberedId n ++ ".json" ≤ u.id ++ ".json"
      rw [hid]
      exact le_of_lt (numberedId_lt (by omega) (by omega) _)
  rw [loadTheses, hfilter, List.Pairwise.insertionSort_eq (hsorted 0 l (by omega)), List.map_map]
  refine (List.map_congr_left fun t ht => ?_).trans (List.map_id _)
  obtain ⟨i, -, -, hid, -⟩ := mem_numberFrom ht
  exact loadThesis_numbered _ hid

/-! ## what a merge writes -/

def pooled (sources : List (SourceRun F C)) : List (Thesis F C) :=
  numberFrom 0 (sources.flatMap SourceRun.stamped)

def mergedDir (first : SourceRun F C) (rest : List (SourceRun F C)) (name : String) :
    RunDir F C where
  name := name
  brief := first.dir.brief
  prompt := first.dir.prompt
  matrix := some (mergedMatrix first rest)
  dimensions := ((first :: rest).findSome? (·.dir.dimensions)).map fun d => { d with
    dimensions := (mergedMatrix first rest).dimensions
    descriptions := mergeDescriptions (first :: rest) }
  theses := (pooled (first :: rest)).map fun thesis => (thesis.id ++ ".json", thesis)

/-- the sources can be merged -/
structure Mergeable (first : SourceRun F C) (rest : List (SourceRun F C)) : Prop where
  constraints : ∀ source ∈ rest,
    source.inputs.brief.constraints = first.inputs.brief.constraints
  provenanced : ∀ source ∈ first :: rest, source.Provenanced

theorem checkSameConstraints_ok {first : SourceRun F C} {rest : List (SourceRun F C)} :
    checkSameConstraints (first :: rest) = .ok () ↔
      ∀ source ∈ rest, source.inputs.brief.constraints = first.inputs.brief.constraints := by
  unfold checkSameConstraints
  dsimp only
  cases h : rest.find? fun source =>
      source.inputs.brief.constraints ≠ first.inputs.brief.constraints with
  | none => simpa using h
  | some source =>
    have hne := List.find?_some h
    have hmem := List.mem_of_find?_eq_some h
    constructor
    · intro h
      cases h
    · intro hall
      exact absurd (hall source hmem) (by simpa using hne)

theorem writeMergedRun_ok {first : SourceRun F C} {rest : List (SourceRun F C)} {name : String}
    {r : RunDir F C × ℕ} : writeMergedRun (first :: rest) name = .ok r ↔
      Mergeable first rest ∧ r = (mergedDir first rest name, (pooled (first :: rest)).length) := by
  unfold writeMergedRun
  constructor
  · intro h
    obtain ⟨_, hc, h⟩ := bind_ok.mp h
    obtain ⟨theses, hp, h⟩ := bind_ok.mp h
    obtain ⟨hall, rfl⟩ := poolTheses_ok.mp hp
    exact ⟨⟨checkSameConstraints_ok.mp hc, hall⟩, (Except.ok.inj h).symm⟩
  · intro h
    obtain ⟨hm, rfl⟩ := h
    exact bind_ok.mpr ⟨(), checkSameConstraints_ok.mpr hm.constraints, bind_ok.mpr ⟨_,
      poolTheses_ok.mpr ⟨hm.provenanced, rfl⟩, rfl⟩⟩

theorem mergeRuns_ok {dirs : List (RunDir F C)} {name : String} {r : RunDir F C} :
    mergeRuns dirs name = .ok r ↔ ∃ first rest,
      List.Forall₂ (fun dir source => SourceRun.load dir = .ok source) dirs (first :: rest) ∧
      Mergeable first rest ∧ r = mergedDir first rest name := by
  unfold mergeRuns
  constructor
  · intro h
    obtain ⟨sources, hload, h⟩ := bind_ok.mp h
    obtain ⟨w, hw, h⟩ := bind_ok.mp h
    cases sources with
    | nil => cases hw
    | cons first rest =>
      obtain ⟨hm, rfl⟩ := writeMergedRun_ok.mp hw
      exact ⟨first, rest, mapM_ok.mp hload, hm, (Except.ok.inj h).symm⟩
  · intro h
    obtain ⟨first, rest, hload, hm, rfl⟩ := h
    exact bind_ok.mpr ⟨_, mapM_ok.mpr hload, bind_ok.mpr ⟨_, writeMergedRun_ok.mpr ⟨hm, rfl⟩, rfl⟩⟩

/-! ## a merged run as a source -/

/-- what a source has read from its files -/
structure SourceRun.Read (dir : RunDir F C) (source : SourceRun F C) : Prop where
  runId : source.runId = dir.name
  files : source.dir = dir
  matrix : dir.matrix = some source.inputs.matrix
  brief : dir.brief = some source.inputs.brief
  descriptions : source.inputs.descriptions = (dir.dimensions.map (·.descriptions)).getD []
  theses : source.inputs.theses = loadTheses dir.theses

theorem load_ok {dir : RunDir F C} {source : SourceRun F C} :
    SourceRun.load dir = .ok source ↔ source.Read dir := by
  unfold SourceRun.load loadInputs
  constructor
  · intro h
    cases hb : dir.brief with
    | none =>
      rw [hb] at h
      cases h
    | some brief =>
      cases hm : dir.matrix with
      | none =>
        rw [hb, hm] at h
        cases h
      | some matrix =>
        rw [hb, hm] at h
        obtain rfl := Except.ok.inj h
        exact ⟨rfl, rfl, hm, hb, rfl, rfl⟩
  · intro h
    obtain ⟨runId, files, matrix, descriptions, brief, theses⟩ := source
    obtain ⟨h1, h2, hm, hb, hd, ht⟩ := h
    dsimp only at h1 h2 hm hb hd ht
    subst h1 h2 hd ht
    rw [hm, hb]
    rfl

/-- the source that a merged run is -/
def mergedSource (first : SourceRun F C) (rest : List (SourceRun F C)) (name : String) :
    SourceRun F C where
  runId := name
  dir := mergedDir first rest name
  inputs := {
    matrix := mergedMatrix first rest
    descriptions := mergeDescriptions (first :: rest)
    brief := first.inputs.brief
    theses := pooled (first :: rest) }

/-- the sources have their descriptions from their sidecar -/
theorem mergeDescriptions_none {sources : List (SourceRun F C)}
    (hread : ∀ source ∈ sources, ∃ dir, source.Read dir)
    (hnone : sources.findSome? (·.dir.dimensions) = none) : mergeDescriptions sources = [] := by
  have hnil : sources.flatMap (·.inputs.descriptions) = [] := by
    refine List.flatMap_eq_nil_iff.mpr fun source hs => ?_
    obtain ⟨dir, hr⟩ := hread source hs
    have hdim := List.findSome?_eq_none_iff.mp hnone source hs
    rw [hr.files] at hdim
    rw [hr.descriptions, hdim]
    rfl
  rw [mergeDescriptions, hnil]
  rfl

theorem load_merged {first : SourceRun F C} {rest : List (SourceRun F C)}
    (hread : ∀ source ∈ first :: rest, ∃ dir, source.Read dir)
    (hlen : (pooled (first :: rest)).length ≤ 10000) (name : String) :
    SourceRun.load (mergedDir first rest name) = .ok (mergedSource first rest name) := by
  refine load_ok.mpr ⟨rfl, rfl, rfl, ?_, ?_, ?_⟩
  · obtain ⟨dir, hr⟩ := hread first List.mem_cons_self
    show first.dir.brief = _
    rw [hr.files, hr.brief]
    rfl
  · show mergeDescriptions (first :: rest) = _
    unfold mergedDir
    dsimp only
    cases h : (first :: rest).findSome? (·.dir.dimensions) with
    | none => exact mergeDescriptions_none hread h
    | some d => rfl
  · rw [pooled, numberFrom_length] at hlen
    exact (loadTheses_numberFrom hlen).symm

/-! ## a merge of a merge -/

theorem stamp_of_some {t : Thesis F C} {p : ThesisProvenance F} (h : t.provenance = some p)
    (hp : p.sourceRun ≠ none) (source : SourceRun F C) : source.stamp t = t := by
  cases t with
  | mk id content provenance =>
    dsimp only at h
    rw [h, SourceRun.stamp, Option.map_some, ThesisProvenance.pooledFrom, if_neg hp]

/-- a pooled thesis keeps its source -/
theorem stamp_pooled {sources : List (SourceRun F C)}
    (hp : ∀ source ∈ sources, source.Provenanced) (source : SourceRun F C) {t : Thesis F C}
    (ht : t ∈ pooled sources) : source.stamp t = t ∧ t.provenance ≠ none := by
  obtain ⟨_, -, -, -, u, hu, heq⟩ := mem_numberFrom ht
  obtain ⟨s, hs, hu⟩ := List.mem_flatMap.mp hu
  obtain ⟨v, hv, rfl⟩ := List.mem_map.mp hu
  cases hvp : v.provenance with
  | none => exact absurd hvp (hp s hs v hv)
  | some p =>
    have hsome : (p.pooledFrom s.runId v.id).sourceRun ≠ none := by
      unfold ThesisProvenance.pooledFrom
      split_ifs with h
      · simp
      · exact h
    rw [SourceRun.stamp, hvp] at heq
    refine ⟨stamp_of_some heq hsome source, ?_⟩
    rw [heq]
    simp

theorem pooled_nested {first : SourceRun F C} {rest : List (SourceRun F C)}
    (hp : ∀ source ∈ first :: rest, source.Provenanced) (name : String)
    (others : List (SourceRun F C)) :
    pooled (mergedSource first rest name :: others) = pooled (first :: (rest ++ others)) := by
  have hstamped : (mergedSource first rest name).stamped = pooled (first :: rest) :=
    (List.map_congr_left fun t ht => (stamp_pooled hp _ ht).1).trans (List.map_id _)
  rw [pooled, List.flatMap_cons, hstamped, pooled, numberFrom_append, numberFrom_numberFrom,
    numberFrom_length, ← numberFrom_append, ← List.flatMap_append]
  rfl

theorem mergedDir_nested {first : SourceRun F C} {rest : List (SourceRun F C)}
    (hp : ∀ source ∈ first :: rest, source.Provenanced) (others : List (SourceRun F C))
    (n m : String) :
    mergedDir (mergedSource first rest n) others m = mergedDir first (rest ++ others) m := by
  have hmatrix : mergedMatrix (mergedSource first rest n) others
      = mergedMatrix first (rest ++ others) := by
    unfold mergedMatrix
    rw [List.foldl_append]
    rfl
  have hdescriptions : mergeDescriptions (mergedSource first rest n :: others)
      = mergeDescriptions (first :: (rest ++ others)) := by
    rw [mergeDescriptions, List.flatMap_cons, mergeDescriptions, ← List.cons_append,
      List.flatMap_append]
    exact addAll_nested _ _
  unfold mergedDir
  rw [hmatrix, hdescriptions, pooled_nested hp, ← List.cons_append, List.findSome?_append,
    List.findSome?_cons]
  -- the sidecar of the merged run is the first one of its sources, with other contents
  unfold mergedSource mergedDir
  dsimp only
  cases (first :: rest).findSome? (·.dir.dimensions) with
  | none => rfl
  | some d => rfl

theorem mergeable_nested {first : SourceRun F C} {rest : List (SourceRun F C)}
    (h : Mergeable first rest) (name : String) (others : List (SourceRun F C)) :
    Mergeable (mergedSource first rest name) others ↔ Mergeable first (rest ++ others) := by
  constructor
  · intro hn
    refine ⟨List.forall_mem_append.mpr ⟨h.constraints, hn.constraints⟩, ?_⟩
    rw [← List.cons_append]
    exact List.forall_mem_append.mpr ⟨h.provenanced, (List.forall_mem_cons.mp hn.provenanced).2⟩
  · intro hn
    refine ⟨(List.forall_mem_append.mp hn.constraints).2, List.forall_mem_cons.mpr ⟨?_, ?_⟩⟩
    · exact fun t ht => (stamp_pooled h.provenanced first ht).2
    · have := hn.provenanced
      rw [← List.cons_append] at this
      exact (List.forall_mem_append.mp this).2

/-- how many theses a run brings along -/
def RunDir.size (dir : RunDir F C) : ℕ := (loadTheses dir.theses).length

theorem pooled_length {dirs : List (RunDir F C)} {sources : List (SourceRun F C)}
    (h : List.Forall₂ (fun dir source => SourceRun.load dir = .ok source) dirs sources) :
    (pooled sources).length = (dirs.map RunDir.size).sum := by
  rw [pooled, numberFrom_length]
  induction h with
  | nil => rfl
  | cons hload _ ih =>
    rw [List.flatMap_cons, List.length_append, ih, List.map_cons, List.sum_cons, SourceRun.stamped,
      List.length_map, (load_ok.mp hload).theses, RunDir.size]

theorem read_of_forall₂ {dirs : List (RunDir F C)} {sources : List (SourceRun F C)}
    (h : List.Forall₂ (fun dir source => SourceRun.load dir = .ok source) dirs sources) :
    ∀ source ∈ sources, ∃ dir, source.Read dir := by
  induction h with
  | nil => exact fun _ hs => absurd hs List.not_mem_nil
  | cons hload _ ih => exact List.forall_mem_cons.mpr ⟨⟨_, load_ok.mp hload⟩, ih⟩

/-- a merged run and other runs merge to what its sources and the other runs merge to -/
theorem mergeRuns_nested (dirs others : List (RunDir F C)) (n m : String) {r : RunDir F C}
    (hne : dirs ≠ []) (hsize : (dirs.map RunDir.size).sum ≤ 10000) :
    (∃ merged, mergeRuns dirs n = .ok merged ∧ mergeRuns (merged :: others) m = .ok r) ↔
      mergeRuns (dirs ++ others) m = .ok r := by
  constructor
  · intro h
    obtain ⟨_, hn, hm⟩ := h
    obtain ⟨first, rest, hload, hable, rfl⟩ := mergeRuns_ok.mp hn
    obtain ⟨source, sources, hloads, hable', rfl⟩ := mergeRuns_ok.mp hm
    obtain ⟨hsource, hothers⟩ := List.forall₂_cons.mp hloads
    rw [load_merged (read_of_forall₂ hload) ((pooled_length hload).trans_le hsize)] at hsource
    obtain rfl := Except.ok.inj hsource
    refine mergeRuns_ok.mpr ⟨first, rest ++ sources, ?_, (mergeable_nested hable n sources).mp hable',
      mergedDir_nested hable.provenanced sources n m⟩
    exact List.rel_append hload hothers
  · intro h
    obtain ⟨first, rest, hload, hable, rfl⟩ := mergeRuns_ok.mp h
    obtain ⟨sources, sources', heq, hdirs, hothers⟩ := forall₂_split hload
    cases sources with
    | nil =>
      cases hdirs
      exact absurd rfl hne
    | cons first' rest' =>
      obtain ⟨rfl, rfl⟩ := List.cons.inj heq
      have hable' : Mergeable first rest' :=
        ⟨fun source hs => hable.constraints source (List.mem_append_left sources' hs),
          fun source hs => hable.provenanced source (List.mem_append_left sources' hs)⟩
      have hsource := load_merged (read_of_forall₂ hdirs) ((pooled_length hdirs).trans_le hsize) n
      exact ⟨_, mergeRuns_ok.mpr ⟨first, rest', hdirs, hable', rfl⟩, mergeRuns_ok.mpr
        ⟨_, sources', List.Forall₂.cons hsource hothers, (mergeable_nested hable' n sources').mpr hable,
          (mergedDir_nested hable'.provenanced sources' n m).symm⟩⟩

/-- **Merging is associative.** -/
theorem merge_assoc (a b c : RunDir F C) (n m : String) (hsize : a.size + b.size + c.size ≤ 9999) :
    (mergeRuns [a, b] n >>= fun ab => mergeRuns [ab, c] m).toOption =
      (mergeRuns [a, b, c] m).toOption := by
  have hsum : ([a, b].map RunDir.size).sum ≤ 10000 := by
    simp only [List.map_cons, List.map_nil, List.sum_cons, List.sum_nil]
    omega
  refine Option.ext fun r => ?_
  rw [toOption_eq_some, toOption_eq_some, bind_ok]
  exact mergeRuns_nested [a, b] [c] n m (List.cons_ne_nil _ _) hsum

end

/-- a run with one thesis -/
def sampleRun (name facet : String) : RunDir ℕ Unit where
  name := name
  brief := some ⟨"Sign-in", [], ["No passwords"], [], [], ""⟩
  prompt := none
  matrix := some ⟨[⟨"auth", "Auth", [⟨facet, facet⟩]⟩], 1, [], ⟨[1], 1⟩⟩
  dimensions := none
  theses := [("th_0000.json", ⟨"th_0000", (), some ⟨"minimax", "m3", 1, 0, 0, none, none⟩⟩)]

theorem merge_assoc_sample :
    ((mergeRuns [sampleRun "a" "x", sampleRun "b" "y"] "ab" >>= fun ab =>
      mergeRuns [ab, sampleRun "c" "x"] "abc").toOption =
      (mergeRuns [sampleRun "a" "x", sampleRun "b" "y", sampleRun "c" "x"] "abc").toOption) ∧
    (mergeRuns [sampleRun "a" "x", sampleRun "b" "y", sampleRun "c" "x"] "abc").toOption.isSome := by
  refine ⟨merge_assoc _ _ _ "ab" "abc" ?_, ?_⟩
  · decide +kernel
  · decide +kernel

end Moagan.Discovery.Merge
