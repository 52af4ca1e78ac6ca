import Moagan.Atomic.Crash

/-!
# What a write that returns leaves on the disk

* `written`       the two files of the write in place, its two temporary files gone
* `run_steps`     all steps of the write leave that
* `write_ok`      so does a call that returns
* `write_clean`   a call returns when the system refuses nothing
* `write_returns` and only when it refuses none of the steps
-/

namespace Moagan.Atomic

open FileSystem

section
variable (dest : Path) (nonce : UInt64)

def written (fs : Disk) (data metaBytes : Bytes) : Disk := fun p =>
  if p = dest then some data
  else if p = metaPath dest then some metaBytes
  else if p = tmpPath dest nonce ∨ p = tmpMetaPath dest nonce then none
  else fs p

theorem written_dest (fs : Disk) (data metaBytes : Bytes) :
    written dest nonce fs data metaBytes dest = some data := if_pos rfl

/-- behind the two renames -/
theorem run_renames (fs : Disk) (data metaBytes : Bytes) :
    runOps (staged dest nonce fs data metaBytes) [dataRename dest nonce, metaRename dest nonce]
      = some (written dest nonce fs data metaBytes) := by
  have h1 := tmpPath_ne_tmpMetaPath dest nonce
  have h2 := tmpPath_ne_dest dest nonce
  have h3 := tmpMetaPath_ne_dest dest nonce
  have h6 := metaPath_ne_dest dest
  have hdata : (dataRename dest nonce).apply (staged dest nonce fs data metaBytes) =
      some (Function.update (Function.update (staged dest nonce fs data metaBytes)
        (tmpPath dest nonce) none) dest (some data)) := by
    simp only [dataRename, Op.apply, staged, Function.update_self, Function.update_of_ne h1,
      Option.map_some]
  rw [runOps, Runs.run_cons, hdata, Option.bind_some, Runs.run_cons]
  have hmeta : Function.update (Function.update (staged dest nonce fs data metaBytes)
      (tmpPath dest nonce) none) dest (some data) (tmpMetaPath dest nonce) = some metaBytes := by
    rw [Function.update_of_ne h3, Function.update_of_ne h1.symm, staged, Function.update_self]
  simp only [metaRename, Op.apply, hmeta, Option.map_some, Option.bind_some, Runs.run_nil]
  congr 1
  funext p
  unfold written
  by_cases hp : p = dest
  · rw [hp, if_pos rfl, Function.update_of_ne h6.symm, Function.update_of_ne h3.symm,
      Function.update_self]
  · rw [if_neg hp]
    by_cases hm : p = metaPath dest
    · rw [hm, if_pos rfl, Function.update_self]
    · rw [if_neg hm, Function.update_of_ne hm]
      by_cases htm : p = tmpMetaPath dest nonce
      · rw [htm, if_pos (Or.inr rfl), Function.update_self]
      · rw [Function.update_of_ne htm, Function.update_of_ne hp]
        by_cases ht : p = tmpPath dest nonce
        · rw [ht, if_pos (Or.inl rfl), Function.update_self]
        · rw [if_neg (not_or.mpr ⟨ht, htm⟩), Function.update_of_ne ht, staged,
            Function.update_of_ne htm, Function.update_of_ne ht]

variable {dest nonce} {K : Crates} {w : AtomicWriter} {data : Bytes} {now : ℤ}

/-- **All steps of a write.** -/
theorem run_steps {dir : Path} (hdir : parent dest = some dir) (fs : Disk) :
    runOps fs (w.steps K dest nonce data now)
      = some (written dest nonce fs data (K.toVec (computeMetaAt K data now))) := by
  have hseal : ∀ s : Disk, runOps s (w.sealing dir) = some s := by
    intro s
    unfold AtomicWriter.sealing
    cases w.fsyncOnCommit <;> rfl
  have hsplit : ∀ a b : Op Path UInt8, a :: b :: w.sealing dir = [a, b] ++ w.sealing dir :=
    fun _ _ => rfl
  rw [steps_eq K w dest nonce hdir, hsplit, runOps, Runs.run_append, ← runOps, run_staging,
    Option.bind_some, Runs.run_append, ← runOps, run_renames, Option.bind_some, ← runOps, hseal]

theorem perform_clean {ops : List (Op Path UInt8)} : ∀ {faults : ℕ → Bool} {fs fs' : Disk},
    (∀ n, faults n = false) → runOps fs ops = some fs' → perform faults ops fs = (fs', none) := by
  induction ops with
  | nil =>
    intro faults fs fs' _ h
    rw [perform, Option.some.inj h]
  | cons op ops ih =>
    intro faults fs fs' hf h
    rw [runOps, Runs.run_cons] at h
    obtain ⟨s, hs, h⟩ := Option.bind_eq_some_iff.mp h
    rw [perform, hf 0, if_neg Bool.false_ne_true, hs]
    exact ih (fun n => hf (n + 1)) h

/-- steps that the disk allows are all done iff the system refuses none of them -/
theorem perform_done_iff {ops : List (Op Path UInt8)} : ∀ {faults : ℕ → Bool} {fs fs' : Disk},
    runOps fs ops = some fs' →
      ((perform faults ops fs).2 = none ↔ ∀ n < ops.length, faults n = false) := by
  induction ops with
  | nil =>
    intro faults fs fs' _
    exact iff_of_true rfl fun n hn => absurd hn (Nat.not_lt_zero n)
  | cons op ops ih =>
    intro faults fs fs' h
    rw [runOps, Runs.run_cons] at h
    obtain ⟨s, hs, h⟩ := Option.bind_eq_some_iff.mp h
    rw [perform, List.length_cons, Nat.forall_lt_succ_left]
    cases h0 : faults 0 with
    | true =>
      rw [if_pos rfl]
      simp
    | false =>
      rw [if_neg Bool.false_ne_true, hs, and_iff_right rfl]
      exact ih h

theorem write_clean {dir : Path} (hdir : parent dest = some dir) {faults : ℕ → Bool}
    (hf : ∀ n, faults n = false) (fs : Disk) :
    w.write K faults fs dest nonce data now =
      (written dest nonce fs data (K.toVec (computeMetaAt K data now)),
        .ok (computeMetaAt K data now)) := by
  unfold AtomicWriter.write
  rw [hdir]
  simp only [perform_clean hf (run_steps hdir fs)]

/-- **A call returns iff the system refuses none of its steps.** -/
theorem write_returns (w : AtomicWriter) (faults : ℕ → Bool) (fs : Disk) :
    (∃ m, (w.write K faults fs dest nonce data now).2 = .ok m) ↔ (parent dest).isSome = true ∧
      ∀ n < (w.steps K dest nonce data now).length, faults n = false := by
  unfold AtomicWriter.write
  cases hdir : parent dest with
  | none =>
    simp only [Option.isSome_none, Bool.false_eq_true, false_and, iff_false]
    exact fun ⟨_, h⟩ => nomatch h
  | some dir =>
    rw [← perform_done_iff (run_steps hdir fs), Option.isSome_some, and_iff_right rfl]
    dsimp only
    cases perform faults (w.steps K dest nonce data now) fs with
    | mk s e =>
      cases e with
      | none => exact iff_of_true ⟨_, rfl⟩ rfl
      | some e => exact iff_of_false (fun ⟨_, h⟩ => nomatch h) (fun h => nomatch h)

end

end Moagan.Atomic
