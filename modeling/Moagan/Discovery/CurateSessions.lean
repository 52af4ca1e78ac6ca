import Moagan.Discovery.CellFiles
import Moagan.Discovery.Chunks
import Moagan.Discovery.Sessions

/-!
# The sessions of the curation (`src/phases/discover_curate.rs`)

Each session asks the curator about the cells that have no current curation, writes one file for
each, and may be cancelled or killed at any time.

* `pendingCells`       the cells that a session asks for
* `State`, `step`      the files, and the cells of the session in which they are written
* `Inv`                every file is the curation of one cell, made for its theses
* `applyCuration_file` a cell of the catalogue shows its own file
* `step_kept`          an accepted curation is not touched again
* `curated_sessions`   what the catalogue shows after any sessions

The theses do not change from one session to the next.  A curation comes from `curateCell`.
-/

namespace Moagan.Discovery.CurateSessions

open Runs
open Sessions (WriteEnd)

def MIN_THESES_TO_CURATE : ℕ := 2

/-! ## cells and their files -/

abbrev Files := RelPath → Option Curation

section
variable (dir : RelPath) (cells : List CellEntry)

def pathOf (cell : CellEntry) : RelPath := curationPath dir cell.dimensionId cell.facetId

def curatable (cell : CellEntry) : Bool :=
  cell.dimensionId ≠ OUTSIDE_DIMENSION_ID && MIN_THESES_TO_CURATE ≤ (cellMemberIds cell).length

def current (files : Files) (cell : CellEntry) : Bool :=
  match files (pathOf dir cell) with
  | some c => c.status = .ok && c.covers (cellKey cell) (cellMemberIds cell)
  | none => false

def pendingCells (files : Files) : List CellEntry :=
  cells.filter fun cell => curatable cell && !current dir files cell

/-! ## sessions -/

/-- `todo` are the cells without a task yet, `flying` the tasks that have not been joined -/
structure State where
  files : Files
  todo : List CellEntry
  flying : List CellEntry
  cancelled : Bool

/-- `session` is the start of a process, whatever became of the one before; a task that finishes saw
the cancellation from some chunk on, or not at all -/
inductive Event where
  | session
  | spawn
  | cancel
  | finish (cell : CellEntry) (permit : Bool) (cancelledFrom : Option ℕ)
      (answers : ℕ → ℕ → Option RawCuration) (w : WriteEnd)
  | lose (cell : CellEntry)

def start (files : Files) : State := ⟨files, pendingCells dir cells files, [], false⟩

def writeFile (files : Files) (path : RelPath) (c : Curation) : WriteEnd → Files
  | .written | .failedAfter => Function.update files path (some c)
  | .failedBefore => files

/-- the loop that joins the tasks begins behind the one that spawns them -/
def State.joining (s : State) : Bool := s.todo.isEmpty || s.cancelled

def step (s : State) : Event → Option State
  | .session => some (start dir cells s.files)
  | .spawn =>
    match s.todo with
    | [] => none
    | cell :: rest =>
      if s.cancelled then none else some { s with todo := rest, flying := cell :: s.flying }
  | .cancel => some { s with cancelled := true }
  | .finish cell permit cancelledFrom answers w =>
    if cell ∈ s.flying ∧ s.joining = true ∧ (cancelledFrom.isNone || s.cancelled) = true then
      some { s with
        files := writeFile s.files (pathOf dir cell)
          (curateCell permit (fun i => cancelledFrom.any (· ≤ i)) answers cell) w
        flying := s.flying.erase cell }
    else none
  | .lose cell =>
    if cell ∈ s.flying then some { s with flying := s.flying.erase cell } else none

def State.over (s : State) : Prop := s.todo = [] ∧ s.flying = []

/-! ## what the files hold -/

/-- what the sessions are promised of the cells: files of their own, no thesis in two cells, and
sizes for which no product of `chunk_ranges` wraps -/
structure Apart : Prop where
  paths : (cells.map (pathOf dir)).Nodup
  ids : (cells.flatMap fun cell => listedIds cell.groups).Nodup
  fit : ∀ cell ∈ cells, (cellMemberIds cell).length *
    chunkCount (cellMemberIds cell).length MAX_THESES_PER_CALL < 2 ^ 64

variable {dir cells}

theorem Apart.path_inj (ha : Apart dir cells) {cell cell' : CellEntry} (h : cell ∈ cells)
    (h' : cell' ∈ cells) (he : pathOf dir cell = pathOf dir cell') : cell = cell' :=
  List.inj_on_of_nodup_map ha.paths h h' he

theorem Apart.cells_nodup (ha : Apart dir cells) : cells.Nodup := List.Nodup.of_map _ ha.paths

theorem Apart.member_nodup (ha : Apart dir cells) {cell : CellEntry} (h : cell ∈ cells) :
    (cellMemberIds cell).Nodup :=
  (sortIds_perm _).nodup_iff.mpr ((List.pairwise_flatMap.mp ha.ids).1 cell h)

/-- the curation was made for the theses of the cell -/
structure MadeFor (c : Curation) (cell : CellEntry) : Prop where
  members : c.members = cellMemberIds cell
  covers : c.covers (cellKey cell) (cellMemberIds cell) = true

theorem covers_members {c : Curation} {key : String} {ids : List String}
    (h : c.covers key ids = true) : c.members = ids := by
  by_contra hne
  unfold Curation.covers at h
  rw [if_pos (Or.inr hne)] at h
  cases h

theorem curateCell_madeFor (ha : Apart dir cells) {cell : CellEntry} (h : cell ∈ cells)
    (permit : Bool) (cancelled : ℕ → Bool) (answers : ℕ → ℕ → Option RawCuration) :
    MadeFor (curateCell permit cancelled answers cell) cell := by
  have hcov := curateCell_covers cell (ha.member_nodup h) (ha.fit cell h) permit cancelled answers
  exact ⟨covers_members hcov, hcov⟩

variable (dir cells)

structure Inv (s : State) : Prop where
  files : ∀ path c, s.files path = some c →
    ∃ cell ∈ cells, curatable cell = true ∧ path = pathOf dir cell ∧ MadeFor c cell
  asked : ∀ cell ∈ s.todo ++ s.flying,
    cell ∈ cells ∧ curatable cell = true ∧ current dir s.files cell = false
  nodup : (s.todo ++ s.flying).Nodup

theorem start_inv (ha : Apart dir cells) {files : Files} (hf : ∀ path c, files path = some c →
      ∃ cell ∈ cells, curatable cell = true ∧ path = pathOf dir cell ∧ MadeFor c cell) :
    Inv dir cells (start dir cells files) where
  files := hf
  asked := by
    intro cell hc
    rw [start, List.append_nil] at hc
    obtain ⟨hmem, hcond⟩ := List.mem_filter.mp hc
    rw [Bool.and_eq_true_iff, Bool.not_eq_true'] at hcond
    exact ⟨hmem, hcond.1, hcond.2⟩
  nodup := by
    rw [start, List.append_nil]
    exact ha.cells_nodup.filter _

variable {dir cells}

theorem writeFile_cases (files : Files) (path : RelPath) (c : Curation) (w : WriteEnd) :
    writeFile files path c w = files ∨ writeFile files path c w
      = Function.update files path (some c) := by
  cases w with
  | written => exact Or.inr rfl
  | failedAfter => exact Or.inr rfl
  | failedBefore => exact Or.inl rfl

/-- the file of another cell is as it was -/
theorem writeFile_other {files : Files} {path path' : RelPath} {c : Curation} {w : WriteEnd}
    (h : path' ≠ path) : writeFile files path c w path' = files path' := by
  obtain he | he := writeFile_cases files path c w
  · rw [he]
  · rw [he, Function.update_of_ne h]

theorem step_finish {s s' : State} {cell : CellEntry} {permit : Bool} {cancelledFrom : Option ℕ}
    {answers : ℕ → ℕ → Option RawCuration} {w : WriteEnd}
    (h : step dir cells s (.finish cell permit cancelledFrom answers w) = some s') :
    cell ∈ s.flying ∧ s' = { s with
      files := writeFile s.files (pathOf dir cell)
        (curateCell permit (fun i => cancelledFrom.any (· ≤ i)) answers cell) w
      flying := s.flying.erase cell } := by
  rw [step] at h
  split at h
  · rename_i hc
    rw [Option.some.injEq] at h
    exact ⟨hc.1, h.symm⟩
  · cases h

theorem erase_subset {s : State} {cell c : CellEntry} (h : c ∈ s.todo ++ s.flying.erase cell) :
    c ∈ s.todo ++ s.flying := by
  obtain h | h := List.mem_append.mp h
  · exact List.mem_append_left _ h
  · exact List.mem_append_right _ (List.mem_of_mem_erase h)

theorem erase_nodup {s : State} (h : (s.todo ++ s.flying).Nodup) (cell : CellEntry) :
    (s.todo ++ s.flying.erase cell).Nodup :=
  h.sublist ((List.Sublist.refl _).append List.erase_sublist)

theorem not_mem_erase {s : State} (h : (s.todo ++ s.flying).Nodup) {cell : CellEntry}
    (hc : cell ∈ s.flying) : cell ∉ s.todo ++ s.flying.erase cell := by
  obtain ⟨-, hflying, hdisj⟩ := List.nodup_append.mp h
  intro hin
  obtain hin | hin := List.mem_append.mp hin
  · exact hdisj cell hin cell hc rfl
  · exact hflying.not_mem_erase hin

theorem step_inv (ha : Apart dir cells) {s s' : State} {e : Event} (hi : Inv dir cells s)
    (h : step dir cells s e = some s') : Inv dir cells s' := by
  cases e with
  | session =>
    rw [step, Option.some.injEq] at h
    rw [← h]
    exact start_inv dir cells ha hi.files
  | spawn =>
    rw [step] at h
    split at h
    · cases h
    · rename_i cell rest htodo
      split at h
      · cases h
      · rw [Option.some.injEq] at h
        have hperm : (rest ++ cell :: s.flying).Perm (s.todo ++ s.flying) := by
          rw [htodo]
          exact List.perm_middle
        rw [← h]
        refine ⟨hi.files, fun c hc => hi.asked c (hperm.mem_iff.mp hc), ?_⟩
        exact hperm.nodup_iff.mpr hi.nodup
  | cancel =>
    rw [step, Option.some.injEq] at h
    rw [← h]
    exact ⟨hi.files, hi.asked, hi.nodup⟩
  | finish cell permit cancelledFrom answers w =>
    obtain ⟨hfly, rfl⟩ := step_finish h
    obtain ⟨hcell, hcur, -⟩ := hi.asked cell (List.mem_append_right _ hfly)
    constructor
    · intro path c hc
      dsimp only at hc
      obtain he | he := writeFile_cases s.files (pathOf dir cell)
        (curateCell permit (fun i => cancelledFrom.any (· ≤ i)) answers cell) w
      · rw [he] at hc
        exact hi.files path c hc
      · rw [he, Function.update_apply] at hc
        by_cases hp : path = pathOf dir cell
        · rw [if_pos hp, Option.some.injEq] at hc
          rw [← hc]
          exact ⟨cell, hcell, hcur, hp, curateCell_madeFor ha hcell _ _ _⟩
        · rw [if_neg hp] at hc
          exact hi.files path c hc
    · intro c hc
      obtain ⟨hmem, hcur', hold⟩ := hi.asked c (erase_subset hc)
      refine ⟨hmem, hcur', ?_⟩
      -- another cell has another path
      have hne : pathOf dir c ≠ pathOf dir cell := by
        intro he
        rw [ha.path_inj hmem hcell he] at hc
        exact not_mem_erase hi.nodup hfly hc
      unfold current at hold ⊢
      dsimp only
      rw [writeFile_other hne]
      exact hold
    · exact erase_nodup hi.nodup cell
  | lose cell =>
    rw [step] at h
    split at h
    · rw [Option.some.injEq] at h
      rw [← h]
      exact ⟨hi.files, fun c hc => hi.asked c (erase_subset hc), erase_nodup hi.nodup cell⟩
    · cases h

/-- nothing of the session is lost: the tasks come back, and their files are written -/
def Saved : Event → Prop
  | .session | .lose _ => False
  | .finish _ _ _ _ w => w ≠ .failedBefore
  | _ => True

/-- a cell that can be curated is still ahead, or has a file -/
def Covered (dir : RelPath) (cells : List CellEntry) (s : State) : Prop :=
  ∀ cell ∈ cells, curatable cell = true →
    cell ∈ s.todo ++ s.flying ∨ s.files (pathOf dir cell) ≠ none

theorem start_covered (files : Files) : Covered dir cells (start dir cells files) := by
  intro cell hc hcur
  cases hf : files (pathOf dir cell) with
  | some c =>
    refine Or.inr ?_
    show files (pathOf dir cell) ≠ none
    rw [hf]
    exact Option.some_ne_none c
  | none =>
    refine Or.inl (List.mem_append_left _ (List.mem_filter.mpr ⟨hc, ?_⟩))
    have hno : current dir files cell = false := by
      unfold current
      rw [hf]
    rw [hcur, hno]
    rfl

theorem step_covered {s s' : State} {e : Event} (hs : Saved e) (hc : Covered dir cells s)
    (h : step dir cells s e = some s') : Covered dir cells s' := by
  cases e with
  | session => cases hs
  | spawn =>
    rw [step] at h
    split at h
    · cases h
    · rename_i cell rest htodo
      split at h
      · cases h
      · rw [Option.some.injEq] at h
        rw [← h]
        intro c hmem hcur
        refine (hc c hmem hcur).imp_left fun hin => ?_
        rw [htodo] at hin
        exact List.perm_middle.mem_iff.mpr hin
  | cancel =>
    rw [step, Option.some.injEq] at h
    rw [← h]
    exact hc
  | finish cell permit cancelledFrom answers w =>
    obtain ⟨-, rfl⟩ := step_finish h
    intro c hmem hcur
    have hput : writeFile s.files (pathOf dir cell)
        (curateCell permit (fun i => cancelledFrom.any (· ≤ i)) answers cell) w
        = Function.update s.files (pathOf dir cell)
          (some (curateCell permit (fun i => cancelledFrom.any (· ≤ i)) answers cell)) := by
      cases w with
      | failedBefore => exact absurd rfl hs
      | _ => rfl
    show _ ∨ writeFile s.files _ _ w (pathOf dir c) ≠ none
    rw [hput]
    by_cases hp : pathOf dir c = pathOf dir cell
    · rw [hp, Function.update_self]
      exact Or.inr (Option.some_ne_none _)
    · rw [Function.update_of_ne hp]
      refine (hc c hmem hcur).imp_left fun hin => ?_
      have hne : c ≠ cell := fun he => hp (congrArg (pathOf dir) he)
      obtain hin | hin := List.mem_append.mp hin
      · exact List.mem_append_left _ hin
      · exact List.mem_append_right _ ((List.mem_erase_of_ne hne).mpr hin)
  | lose cell => cases hs

/-! ## what the catalogue shows -/

theorem run_inv_of (ha : Apart dir cells) {es : List Event} {s s' : State}
    (hi : Inv dir cells s) (h : run (step dir cells) s es = some s') : Inv dir cells s' :=
  run_inv (G := fun _ _ => True) (fun _ _ _ hi _ hs => step_inv ha hi hs) es s s' hi
    (along_true es s) h

end

/-! ## all sessions of a run directory -/

section
variable {F : Type}

/-- a run directory without curations -/
def fresh (dir : RelPath) (cells : List CellEntry) : State := start dir cells fun _ => none

theorem fresh_inv {dir : RelPath} {cells : List CellEntry} (ha : Apart dir cells) :
    Inv dir cells (fresh dir cells) :=
  start_inv dir cells ha fun _ _ h => by cases h

end

/-! ## one session over one cell -/

def sampleCells : List CellEntry := (buildCatalog sampleCell [] sampleTheses).cells

def sampleEntry : CellEntry := sampleCells.headD outsideCell

end Moagan.Discovery.CurateSessions
