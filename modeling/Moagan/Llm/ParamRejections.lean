import Mathlib.Data.String.Basic
import Moagan.Lib.SortedMap
import Moagan.Lib.WriteBack

/-!
# The table of rejected parameters (`src/llm/param_rejections.rs`)

* `ParamRejectionsFile.record`  a rejection goes into the table; was it new?
* `merge`                       the entries in memory go into the table of the file
* `Content.load`                what loading makes of the file
* `nothing_lost`                no rejection that a task records is lost

A `BTreeSet` is a map without values.  The file is taken as the table it holds.
-/

namespace Moagan.ParamRejections
open WriteBack

/-! ## the table -/

abbrev Rejects := SortedMap String Unit

/-- `ParamRejectionsFile` -/
structure ParamRejectionsFile where
  schemaVersion : ℕ
  providers : SortedMap String (SortedMap String Rejects)

def currentSchemaVersion : ℕ := 1

def newEmpty : ParamRejectionsFile := { schemaVersion := currentSchemaVersion, providers := .empty }

/-- provider, model, parameter -/
structure Rejection where
  provider : String
  model : String
  param : String
deriving DecidableEq, Repr

/-- `entry(key).or_default()` -/
def orDefault {V : Type} (m : SortedMap String (SortedMap String V)) (key : String) :
    SortedMap String V := (m.get? key).getD .empty

/-- `should_omit` -/
def ParamRejectionsFile.shouldOmit (f : ParamRejectionsFile) (r : Rejection) : Bool :=
  ((orDefault (orDefault f.providers r.provider) r.model).get? r.param).isSome

/-- the write section of `record` -/
def ParamRejectionsFile.insert (f : ParamRejectionsFile) (r : Rejection) : ParamRejectionsFile :=
  let models := orDefault f.providers r.provider
  let rejects := orDefault models r.model
  { f with providers :=
      f.providers.insert r.provider (models.insert r.model (rejects.insert r.param ())) }

def mergeRejects (dest mine : Rejects) : Rejects :=
  mine.entries.foldl (fun dest r => dest.insert r.1 r.2) dest

def mergeModels (dest mine : SortedMap String Rejects) : SortedMap String Rejects :=
  mine.entries.foldl
    (fun dest m => dest.insert m.1 (mergeRejects (orDefault dest m.1) m.2)) dest

/-- the merge of `persist_to` -/
def merge (file inner : ParamRejectionsFile) : ParamRejectionsFile :=
  let providers := inner.providers.entries.foldl
    (fun dest p => dest.insert p.1 (mergeModels (orDefault dest p.1) p.2)) file.providers
  { file with providers := providers }

/-- what is at the path -/
inductive Content where
  | missing
  | malformed
  | table (f : ParamRejectionsFile)

/-- a missing file is an empty table; one that does not parse, or is of a later version, is refused -/
def Content.load : Content → Option ParamRejectionsFile
  | .missing => some newEmpty
  | .malformed => none
  | .table f => if currentSchemaVersion < f.schemaVersion then none else some f

/-- the file has the rejection -/
def Content.Has (c : Content) (r : Rejection) : Prop :=
  ∃ f, c.load = some f ∧ f.shouldOmit r = true

/-! ## insertion and merge -/

theorem shouldOmit_insert (f : ParamRejectionsFile) (r q : Rejection) :
    (f.insert r).shouldOmit q = true ↔ f.shouldOmit q = true ∨ q = r := by
  have hq : q = r ↔ q.provider = r.provider ∧ q.model = r.model ∧ q.param = r.param := by
    cases q; cases r
    simp
  unfold ParamRejectionsFile.shouldOmit ParamRejectionsFile.insert orDefault
  simp only [SortedMap.get?_insert]
  by_cases hp : q.provider = r.provider
  · rw [if_pos hp, hp]
    simp only [Option.getD_some, SortedMap.get?_insert]
    by_cases hm : q.model = r.model
    · rw [if_pos hm, hm]
      simp only [Option.getD_some, SortedMap.get?_insert]
      by_cases hx : q.param = r.param
      · simp [hq, hp, hm, hx]
      · rw [if_neg hx]
        simp [hq, hx]
    · rw [if_neg hm]
      simp [hq, hm]
  · rw [if_neg hp]
    simp [hq, hp]

theorem get?_mergeRejects (dest mine : Rejects) (x : String) :
    (mergeRejects dest mine).get? x = (mine.get? x).or (dest.get? x) := by
  have h := SortedMap.foldl_entries SortedMap.get?
    (fun (dest : Rejects) (r : String × Unit) => dest.insert r.1 r.2) (fun _ v => some v)
    (fun d k v q => SortedMap.get?_insert d k q v) mine dest x
  rw [mergeRejects, h]
  cases mine.get? x <;> rfl

theorem orDefault_insert {V : Type} (m : SortedMap String (SortedMap String V)) (k q : String)
    (v : SortedMap String V) :
    orDefault (m.insert k v) q = if q = k then v else orDefault m q := by
  unfold orDefault
  rw [SortedMap.get?_insert]
  split <;> rfl

theorem orDefault_mergeModels (dest mine : SortedMap String Rejects) (m : String) :
    orDefault (mergeModels dest mine) m = mergeRejects (orDefault dest m) (orDefault mine m) := by
  have h := SortedMap.foldl_entries orDefault
    (fun (dest : SortedMap String Rejects) (m : String × Rejects) =>
      dest.insert m.1 (mergeRejects (orDefault dest m.1) m.2)) mergeRejects
    (fun d k v q => orDefault_insert d k q _) mine dest m
  rw [mergeModels, h]
  unfold orDefault
  cases mine.get? m <;> rfl

theorem orDefault_merge (file inner : ParamRejectionsFile) (p : String) :
    orDefault (merge file inner).providers p =
      mergeModels (orDefault file.providers p) (orDefault inner.providers p) := by
  have h := SortedMap.foldl_entries orDefault
    (fun (dest : SortedMap String (SortedMap String Rejects)) p =>
      dest.insert p.1 (mergeModels (orDefault dest p.1) p.2)) mergeModels
    (fun d k v q => orDefault_insert d k q _) inner.providers file.providers p
  have e : (merge file inner).providers = inner.providers.entries.foldl
      (fun dest p => dest.insert p.1 (mergeModels (orDefault dest p.1) p.2)) file.providers := rfl
  rw [e, h]
  unfold orDefault
  cases inner.providers.get? p <;> rfl

/-- **The merge has the rejections of both.** -/
theorem shouldOmit_merge (file inner : ParamRejectionsFile) (r : Rejection) :
    (merge file inner).shouldOmit r = true ↔ file.shouldOmit r = true ∨ inner.shouldOmit r = true := by
  unfold ParamRejectionsFile.shouldOmit
  rw [orDefault_merge, orDefault_mergeModels, get?_mergeRejects]
  cases (orDefault (orDefault inner.providers r.provider) r.model).get? r.param <;> simp

theorem load_version {c : Content} {f : ParamRejectionsFile} (h : c.load = some f) :
    f.schemaVersion ≤ currentSchemaVersion := by
  unfold Content.load at h
  split at h
  · rw [← Option.some.inj h]
    exact Nat.le_refl _
  · cases h
  · split at h
    · cases h
    · rename_i hv
      rw [← Option.some.inj h]
      exact Nat.le_of_not_lt hv

/-- what is saved loads again -/
theorem load_table {f : ParamRejectionsFile} (h : f.schemaVersion ≤ currentSchemaVersion) :
    (Content.table f).load = some f := if_neg (Nat.not_lt.mpr h)

/-! ## tasks that share a table -/

/-- `record` and `persist_to` -/
def ops : Ops Rejection ParamRejectionsFile ParamRejectionsFile Content where
  known := ParamRejectionsFile.shouldOmit
  insert := ParamRejectionsFile.insert
  load := Content.load
  merge := merge
  save := Content.table

theorem ops_laws : Laws ops (fun f r => f.shouldOmit r = true) Content.Has where
  known h := h
  insert {m x y} := shouldOmit_insert m x y
  keeps := by
    intro c f inner r hload hr
    have hf : c.load = some f := hload
    have hv : f.schemaVersion ≤ currentSchemaVersion := load_version hf
    refine ⟨merge f inner, load_table hv, (shouldOmit_merge f inner r).mpr ?_⟩
    rcases hr with ⟨g, hg, hr⟩ | hr
    · obtain rfl := Option.some.inj (hload.symm.trans hg)
      exact Or.inl hr
    · exact Or.inr hr
  loads := by
    intro c f inner hload
    have hf : c.load = some f := hload
    have hv : f.schemaVersion ≤ currentSchemaVersion := load_version hf
    have h : (Content.table (merge f inner)).load = some (merge f inner) := load_table hv
    show ((Content.table (merge f inner)).load).isSome = true
    rw [h]
    rfl

/-- `from_path`, and tasks that call `record` on clones of the table -/
abbrev Tasks (ι : Type) := Sys ι Rejection ParamRejectionsFile ParamRejectionsFile Content

/-- **No rejection is lost.**  A table is read from its file, and any number of tasks record
rejections in it, in any order of their steps.  When all calls have returned the file has every
recorded rejection, and every one that it had before. -/
theorem nothing_lost {ι : Type} [DecidableEq ι] {file : Content} {table : ParamRejectionsFile}
    (hload : file.load = some table) {es : List (WriteBack.Event ι Rejection)} {s : Tasks ι}
    (hrun : Runs.run (Sys.step ops) (Sys.init table file) es = some s) (hdone : s.Finished) :
    (∀ i r, .record i r ∈ es → s.file.Has r) ∧ ∀ r, file.Has r → s.file.Has r := by
  have hsub : ∀ r, table.shouldOmit r = true → file.Has r := fun r hr => ⟨table, hload, hr⟩
  exact WriteBack.file_keeps ops_laws (show file.load.isSome = true by rw [hload]; rfl) hsub hrun
    hdone

def temperature : Rejection := ⟨"opencode", "gpt-5.6-luna", "temperature"⟩

def topP : Rejection := ⟨"opencode", "grok-4.5", "top_p"⟩

/-- the second task inserts between the first one's load and its merge -/
def twoTasks : List (WriteBack.Event Bool Rejection) :=
  [.record false temperature, .lock false, .load false, .record true topP, .merge false,
   .save false, .unlock false, .lock true, .load true, .merge true, .save true, .unlock true]

theorem nothing_lost_two : ∃ s : Tasks Bool,
    Runs.run (Sys.step ops) (Sys.init newEmpty .missing) twoTasks = some s ∧
      (∀ i r, .record i r ∈ twoTasks → s.file.Has r) ∧
        ∀ r, Content.missing.Has r → s.file.Has r :=
  ⟨_, rfl, nothing_lost rfl rfl ⟨by decide, rfl⟩⟩

end Moagan.ParamRejections
