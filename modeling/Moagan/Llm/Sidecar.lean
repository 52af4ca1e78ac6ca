import Mathlib.Data.Prod.Lex
import Mathlib.Data.String.Basic
import Moagan.Lib.LockedUpdate
import Moagan.Lib.Newest
import Moagan.Lib.SortedMap

/-!
# The probe sidecars (`src/llm/sidecar_merge.rs`, `persist_to` of the probe tables)

* `mergeEntries`     the entries of a process go into the map of the file
* `Content`          what is at the path of a sidecar, and what loading makes of it
* `persistTo`        the file a save leaves behind
* `at_persistTo`     what it has for a pair: the newer of the two copies
* `fromPath`         the table that a process starts with

The files are taken as the tables they hold.  `parse` stands for
`DateTime::parse_from_rfc3339`, whose instants have a linear order.
-/

set_option linter.unusedSectionVars false

namespace Moagan.Sidecar

/-! ## tables -/

/-- `(provider, model)` as a key of a `BTreeMap` -/
abbrev PairKey := String ×ₗ String

def PairKey.provider (k : PairKey) : String := (ofLex k).1

def PairKey.model (k : PairKey) : String := (ofLex k).2

def pair (provider model : String) : PairKey := toLex (provider, model)

class Stamped (E : Type) where
  verifiedAt : E → String

/-- `probe::Entry` -/
structure MaxTokensEntry where
  maxTokens : ℕ
  detectedAt : String
  verifiedAt : String
  auto : Bool
  attempts : ℕ
  ceiling : Option ℕ
deriving DecidableEq, Repr

/-- an `f32` by its bits -/
structure F32 where
  bits : UInt32
deriving DecidableEq, Repr

/-- `temperature_probe::Entry` -/
structure TemperatureEntry where
  temperatures : List F32
  detectedAt : String
  verifiedAt : String
  auto : Bool
  attempts : ℕ
deriving DecidableEq, Repr

instance : Stamped MaxTokensEntry := ⟨MaxTokensEntry.verifiedAt⟩

instance : Stamped TemperatureEntry := ⟨TemperatureEntry.verifiedAt⟩

abbrev Providers (E : Type) := SortedMap String (SortedMap String E)

/-- the entry of a pair -/
def Providers.at {E : Type} (ps : Providers E) (k : PairKey) : Option E :=
  (ps.get? k.provider).bind fun models => models.get? k.model

/-- `MaxTokensTableFile`, `TemperatureTableFile` -/
structure TableFile (E C : Type) where
  schemaVersion : ℕ
  providers : Providers E
  operatorCaps : SortedMap String C

def currentSchemaVersion : ℕ := 1

def TableFile.newEmpty {E C : Type} : TableFile E C :=
  { schemaVersion := currentSchemaVersion, providers := .empty, operatorCaps := .empty }

/-- the maps of `MaxTokensTableInner`, `TemperatureTableInner` -/
structure TableInner (E C : Type) where
  entries : SortedMap PairKey E
  operatorCaps : SortedMap String C

/-- what is at the path of a sidecar -/
inductive Content (E C : Type) where
  | missing
  | malformed
  | table (f : TableFile E C)

section
variable {E C : Type}

/-- a missing file is an empty table; one that does not parse, or is of a later version, is refused -/
def Content.load : Content E C → Option (TableFile E C)
  | .missing => some .newEmpty
  | .malformed => none
  | .table f => if currentSchemaVersion < f.schemaVersion then none else some f

/-- what a save starts from -/
def Content.loadOrEmpty (c : Content E C) : TableFile E C := c.load.getD .newEmpty

def Content.at (c : Content E C) (k : PairKey) : Option E := c.loadOrEmpty.providers.at k

/-- `from_path`: the nested maps of the file, flattened -/
def TableFile.entries (f : TableFile E C) : SortedMap PairKey E :=
  f.providers.entries.foldl
    (fun m models => models.2.entries.foldl (fun m e => m.insert (pair models.1 e.1) e.2) m) .empty

def fromPath (c : Content E C) : Option (TableInner E C) :=
  c.load.map fun f => { entries := f.entries, operatorCaps := f.operatorCaps }

/-! ## a save -/

section
variable {T : Type} [LinearOrder T] (parse : String → Option T)

/-- two stamps that parse are compared as instants, others as texts -/
def isNewer (a b : String) : Bool :=
  match parse a, parse b with
  | some t, some u => u < t
  | _, _ => b < a

variable [Stamped E]

/-- the entry on disk was verified later -/
def newer (onDisk entry : E) : Bool := isNewer parse (Stamped.verifiedAt onDisk) (Stamped.verifiedAt entry)

/-- the entry of a model replaces the one on disk, unless that one is newer -/
def takeEntry (models : SortedMap String E) (model : String) (entry : E) : SortedMap String E :=
  let keepDisk := match models.get? model with
    | some onDisk => newer parse onDisk entry
    | none => false
  if keepDisk then models else models.insert model entry

def mergeEntry (disk : Providers E) (mine : PairKey × E) : Providers E :=
  let models := (disk.get? mine.1.provider).getD .empty
  disk.insert mine.1.provider (takeEntry parse models mine.1.model mine.2)

def mergeEntries (disk : Providers E) (mine : SortedMap PairKey E) : Providers E :=
  mine.entries.foldl (mergeEntry parse) disk

/-- `persist_to`: the table that is written, from what the file holds -/
def persistTo (t : TableInner E C) (c : Content E C) : Content E C :=
  let file := c.loadOrEmpty
  .table { file with
    providers := mergeEntries parse file.providers t.entries
    operatorCaps := t.operatorCaps.entries.foldl (fun m cap => m.insert cap.1 cap.2) file.operatorCaps }

/-! ## what a save leaves -/

theorem PairKey.ext_iff {k q : PairKey} : k = q ↔ k.provider = q.provider ∧ k.model = q.model :=
  Prod.ext_iff (x := ofLex k) (y := ofLex q)

theorem get?_takeEntry (models : SortedMap String E) (model : String) (entry : E) (q : String) :
    (takeEntry parse models model entry).get? q =
      if q = model then Newest.join (newer parse) (models.get? model) (some entry)
      else models.get? q := by
  unfold takeEntry
  cases hm : models.get? model with
  | none =>
    rw [if_neg Bool.false_ne_true, SortedMap.get?_insert]
    rfl
  | some onDisk =>
    show (if newer parse onDisk entry then models else _).get? q = if q = model then
      (if newer parse onDisk entry then some onDisk else some entry) else _
    by_cases hn : newer parse onDisk entry = true
    · rw [if_pos hn, if_pos hn]
      by_cases hq : q = model
      · rw [if_pos hq, hq, hm]
      · rw [if_neg hq]
    · rw [if_neg hn, if_neg hn, SortedMap.get?_insert]

theorem at_mergeEntry (disk : Providers E) (k : PairKey) (e : E) (q : PairKey) :
    (mergeEntry parse disk (k, e)).at q =
      if q = k then Newest.join (newer parse) (disk.at k) (some e) else disk.at q := by
  have hold : ∀ p m, ((disk.get? p).getD .empty).get? m = (disk.get? p).bind fun ms => ms.get? m := by
    intro p m
    cases disk.get? p <;> rfl
  unfold mergeEntry Providers.at
  rw [SortedMap.get?_insert]
  by_cases hp : q.provider = k.provider
  · rw [if_pos hp, hp, Option.bind_some, get?_takeEntry, hold, hold]
    by_cases hm : q.model = k.model
    · rw [if_pos hm, if_pos (PairKey.ext_iff.mpr ⟨hp, hm⟩)]
    · rw [if_neg hm, if_neg fun h => hm (congrArg PairKey.model h)]
  · rw [if_neg hp, if_neg fun h => hp (congrArg PairKey.provider h)]

theorem at_mergeEntries (disk : Providers E) (mine : SortedMap PairKey E) (q : PairKey) :
    (mergeEntries parse disk mine).at q = Newest.join (newer parse) (disk.at q) (mine.get? q) := by
  have h := SortedMap.foldl_entries Providers.at (mergeEntry parse)
    (fun d e => Newest.join (newer parse) d (some e)) (at_mergeEntry parse) mine disk q
  rw [mergeEntries, h]
  cases mine.get? q <;> rfl

theorem Content.loadOrEmpty_version (c : Content E C) :
    c.loadOrEmpty.schemaVersion ≤ currentSchemaVersion := by
  unfold Content.loadOrEmpty Content.load
  cases c with
  | missing => exact le_refl _
  | malformed => exact le_refl _
  | table f =>
    simp only
    split
    · exact le_refl _
    · rename_i h
      exact not_lt.mp h

/-- what a save writes is what the next load reads -/
theorem loadOrEmpty_table {f : TableFile E C} (h : f.schemaVersion ≤ currentSchemaVersion) :
    (Content.table f).load = some f := if_neg (not_lt.mpr h)

theorem load_persistTo (t : TableInner E C) (c : Content E C) :
    ∃ f, persistTo parse t c = .table f ∧ (persistTo parse t c).load = some f ∧
      f.providers = mergeEntries parse c.loadOrEmpty.providers t.entries ∧
      f.operatorCaps =
        t.operatorCaps.entries.foldl (fun m cap => m.insert cap.1 cap.2) c.loadOrEmpty.operatorCaps :=
  ⟨_, rfl, loadOrEmpty_table c.loadOrEmpty_version, rfl, rfl⟩

/-- **A save leaves the newer of the two copies**, the one on disk and the one of the process. -/
theorem at_persistTo (t : TableInner E C) (c : Content E C) (q : PairKey) :
    (persistTo parse t c).at q = Newest.join (newer parse) (c.at q) (t.entries.get? q) := by
  obtain ⟨f, -, hl, hp, -⟩ := load_persistTo parse t c
  unfold Content.at
  rw [Content.loadOrEmpty, hl, Option.getD_some, hp]
  exact at_mergeEntries parse _ _ _

/-- the cap of a provider is the one of the process, or else the one on disk -/
theorem caps_persistTo (t : TableInner E C) (c : Content E C) (p : String) :
    (persistTo parse t c).loadOrEmpty.operatorCaps.get? p =
      (t.operatorCaps.get? p).or (c.loadOrEmpty.operatorCaps.get? p) := by
  obtain ⟨f, -, hl, -, hc⟩ := load_persistTo parse t c
  have h := SortedMap.foldl_entries SortedMap.get?
    (fun (m : SortedMap String C) (cap : String × C) => m.insert cap.1 cap.2) (fun _ v => some v)
    (fun d k v q => SortedMap.get?_insert d k q v) t.operatorCaps c.loadOrEmpty.operatorCaps p
  rw [Content.loadOrEmpty, hl, Option.getD_some, hc, h]
  cases t.operatorCaps.get? p <;> rfl

end

/-! ## the table a process starts with -/

/-- the entries of one provider go into the flat map -/
theorem get?_insertModels (m : SortedMap PairKey E) (p : String) (models : SortedMap String E)
    (q : PairKey) :
    (models.entries.foldl (fun m e => m.insert (pair p e.1) e.2) m).get? q =
      if q.provider = p then (models.get? q.model).or (m.get? q) else m.get? q := by
  by_cases hp : q.provider = p
  · have h := SortedMap.foldl_entries (fun (m : SortedMap PairKey E) r => m.get? (pair p r))
      (fun m (e : String × E) => m.insert (pair p e.1) e.2) (fun _ v => some v)
      (fun d k v r => by
        rw [SortedMap.get?_insert]
        exact if_congr ⟨fun e => congrArg PairKey.model e, fun e => by rw [e]⟩ rfl rfl)
      models m q.model
    have e : pair p q.model = q := hp ▸ rfl
    rw [e] at h
    rw [if_pos hp, h]
    cases models.get? q.model <;> rfl
  · -- another provider: no round touches the pair
    have h := SortedMap.foldl_entries (fun (m : SortedMap PairKey E) (_ : String) => m.get? q)
      (fun m (e : String × E) => m.insert (pair p e.1) e.2) (fun w _ => w)
      (fun d k v r => by
        rw [SortedMap.get?_insert, if_neg fun e => hp (congrArg PairKey.provider e), ite_self])
      models m q.model
    rw [if_neg hp, h]
    cases models.get? q.model <;> rfl

theorem get?_entries (f : TableFile E C) (q : PairKey) : f.entries.get? q = f.providers.at q := by
  have h := SortedMap.foldl_entries
    (fun (m : SortedMap PairKey E) p => fun model => m.get? (pair p model))
    (fun m models => models.2.entries.foldl (fun m e => m.insert (pair models.1 e.1) e.2) m)
    (fun w models => fun model => (models.get? model).or (w model)) ?_ f.providers .empty q.provider
  · have hq := congrFun h q.model
    unfold TableFile.entries Providers.at
    have e : pair q.provider q.model = q := rfl
    simp only [e] at hq
    rw [hq]
    cases f.providers.get? q.provider with
    | none => rfl
    | some models =>
      show (models.get? q.model).or none = _
      rw [Option.or_none]
      rfl
  · intro d p models r
    funext model
    rw [get?_insertModels]
    by_cases hr : r = p
    · subst hr
      rw [if_pos rfl]
      exact if_pos rfl
    · rw [if_neg hr]
      exact if_neg hr

/-- a process starts with the entries of the file -/
theorem fromPath_entries {c : Content E C} {t : TableInner E C} (h : fromPath c = some t)
    (q : PairKey) : t.entries.get? q = c.at q := by
  obtain ⟨f, hf, rfl⟩ := Option.map_eq_some_iff.mp h
  unfold Content.at
  rw [Content.loadOrEmpty, hf]
  exact get?_entries f q

end

/-! ## a sample -/

/-- the instants of the stamps below -/
def tenAndEleven (stamp : String) : Option ℕ :=
  if stamp = "2026-10-23T10:00:00+00:00" then some 1792749600
  else if stamp = "2026-10-23T11:00:00+00:00" then some 1792753200
  else none

def atTen : MaxTokensEntry :=
  ⟨8192, "2026-10-23T10:00:00+00:00", "2026-10-23T10:00:00+00:00", true, 1, none⟩

def atEleven : MaxTokensEntry :=
  ⟨4096, "2026-10-23T11:00:00+00:00", "2026-10-23T11:00:00+00:00", true, 1, none⟩

/-- a table with one entry -/
def tableOf {E : Type} (e : E) : TableInner E ℕ :=
  { entries := SortedMap.empty.insert (pair "or" "a") e, operatorCaps := .empty }

theorem get?_tableOf {E : Type} {e e' : E} {k : PairKey} (h : (tableOf e).entries.get? k = some e') :
    e' = e := by
  unfold tableOf at h
  rw [SortedMap.get?_insert] at h
  split at h
  · exact (Option.some.inj h).symm
  · cases h

end Moagan.Sidecar
