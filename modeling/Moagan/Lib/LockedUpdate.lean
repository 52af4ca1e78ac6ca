import Mathlib.Logic.Basic
import Moagan.Lib.Runs

/-!
# Updates of a shared file under a lock

Any number of writers update one file.  Each takes the lock, loads the file, saves what its update
makes of it, and lets the lock go; it may also give up in between.

* `Sys.step`    one step of a writer
* `file_eq`     the file is what the completed updates make of its first contents, one after
                another
-/

namespace LockedUpdate

section
variable {ι υ σ : Type*}

/-- how far the holder of the lock is with its update -/
inductive Hold (υ σ : Type*) where
  | locked (u : υ)
  | loaded (u : υ) (f : σ)
  | saved

inductive Event (ι υ : Type*) where
  | lock (i : ι) (u : υ)
  | load (i : ι)
  | save (i : ι)
  | unlock (i : ι)

/-- `log` has the updates that were saved, in this order -/
structure Sys (ι υ σ : Type*) where
  file : σ
  holder : Option (ι × Hold υ σ)
  log : List υ

def Sys.init (file : σ) : Sys ι υ σ := { file := file, holder := none, log := [] }

variable [DecidableEq ι] (apply : υ → σ → σ)

def Sys.step (s : Sys ι υ σ) : Event ι υ → Option (Sys ι υ σ)
  | .lock i u =>
    match s.holder with
    | none => some { s with holder := some (i, .locked u) }
    | some _ => none
  | .load i =>
    match s.holder with
    | some (j, .locked u) =>
      if j = i then some { s with holder := some (i, .loaded u s.file) } else none
    | _ => none
  | .save i =>
    match s.holder with
    | some (j, .loaded u f) =>
      if j = i then some { file := apply u f, holder := some (i, .saved), log := s.log ++ [u] }
      else none
    | _ => none
  | .unlock i =>
    match s.holder with
    | some (j, _) => if j = i then some { s with holder := none } else none
    | none => none

/-- what the holder has loaded is the file -/
def Fresh (s : Sys ι υ σ) : Prop := ∀ i u f, s.holder = some (i, .loaded u f) → f = s.file

variable {apply}

theorem step_cases {s s' : Sys ι υ σ} {e : Event ι υ} (h : s.step apply e = some s') :
    (∃ i u, e = .lock i u ∧ s.holder = none ∧ s' = { s with holder := some (i, .locked u) }) ∨
    (∃ i u, e = .load i ∧ s.holder = some (i, .locked u) ∧
      s' = { s with holder := some (i, .loaded u s.file) }) ∨
    (∃ i u f, e = .save i ∧ s.holder = some (i, .loaded u f) ∧
      s' = { file := apply u f, holder := some (i, .saved), log := s.log ++ [u] }) ∨
    (∃ i p, e = .unlock i ∧ s.holder = some (i, p) ∧ s' = { s with holder := none }) := by
  cases e with
  | lock i u =>
    simp only [Sys.step] at h
    split at h
    · rename_i hh
      exact Or.inl ⟨i, u, rfl, hh, (Option.some.inj h).symm⟩
    · cases h
  | load i =>
    simp only [Sys.step] at h
    split at h
    · rename_i j u hh
      split at h
      · rename_i hj
        subst hj
        exact Or.inr (Or.inl ⟨j, u, rfl, hh, (Option.some.inj h).symm⟩)
      · cases h
    · cases h
  | save i =>
    simp only [Sys.step] at h
    split at h
    · rename_i j u f hh
      split at h
      · rename_i hj
        subst hj
        exact Or.inr (Or.inr (Or.inl ⟨j, u, f, rfl, hh, (Option.some.inj h).symm⟩))
      · cases h
    · cases h
  | unlock i =>
    simp only [Sys.step] at h
    split at h
    · rename_i j p hh
      split at h
      · rename_i hj
        subst hj
        exact Or.inr (Or.inr (Or.inr ⟨j, p, rfl, hh, (Option.some.inj h).symm⟩))
      · cases h
    · cases h

theorem step_fresh {s s' : Sys ι υ σ} {e : Event ι υ} (h : s.step apply e = some s') :
    Fresh s' := by
  obtain ⟨i, u, -, -, rfl⟩ | ⟨i, u, -, -, rfl⟩ | ⟨i, u, f, -, -, rfl⟩ | ⟨i, p, -, -, rfl⟩ :=
    step_cases h
  · intro j v g e
    cases e
  · intro j v g e
    obtain ⟨-, -, rfl⟩ : i = j ∧ u = v ∧ s.file = g := by simpa using e
    rfl
  · intro j v g e
    cases e
  · intro j v g e
    cases e

/-- the updates, one after another -/
def applied (apply : υ → σ → σ) (file : σ) (us : List υ) : σ := us.foldl (fun f u => apply u f) file

/-- the file is what the saved updates make of `file` -/
structure Serial (apply : υ → σ → σ) (file : σ) (s : Sys ι υ σ) : Prop where
  fresh : Fresh s
  file_eq : s.file = applied apply file s.log

theorem step_serial {file : σ} (s : Sys ι υ σ) (e : Event ι υ) (s' : Sys ι υ σ)
    (hs : Serial apply file s) (h : s.step apply e = some s') : Serial apply file s' := by
  refine ⟨step_fresh h, ?_⟩
  obtain ⟨i, u, -, -, rfl⟩ | ⟨i, u, -, -, rfl⟩ | ⟨i, u, f, -, hh, rfl⟩ | ⟨i, p, -, -, rfl⟩ :=
    step_cases h
  · exact hs.file_eq
  · exact hs.file_eq
  · show apply u f = applied apply file (s.log ++ [u])
    rw [applied, List.foldl_append, hs.fresh i u f hh, hs.file_eq]
    rfl
  · exact hs.file_eq

/-- **The file is what the saved updates, one after another, make of its first contents.** -/
theorem file_eq {file : σ} {es : List (Event ι υ)} {s : Sys ι υ σ}
    (hrun : Runs.run (Sys.step apply) (Sys.init file) es = some s) :
    s.file = applied apply file s.log := by
  have hi : Serial apply file (Sys.init file : Sys ι υ σ) := ⟨nofun, rfl⟩
  have hg : Runs.Along (Sys.step apply) (fun _ _ => True) (Sys.init file) es := Runs.along_true es _
  exact (Runs.run_inv (fun s e s' h _ hs => step_serial s e s' h hs) es _ s hi hg hrun).file_eq

end

end LockedUpdate
