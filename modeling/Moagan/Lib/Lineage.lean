import Mathlib.Data.List.Basic
import Mathlib.Data.List.Nodup

/-!
# Following a chain of parents

What a name reads to may have the name of a parent.  A walk reads the parents one after the other,
and stops at a name that it has seen.

* `walk`          the walk on fuel: what it read, and how it ended
* `Line`          the same as a relation
* `walk_line`     a walk is a line
* `walk_isSome`   fuel for every name that can be read is enough
* `Line.nodup`    no name is read twice
-/

namespace Lineage

/-- without a parent, at a name seen before, or at a name that cannot be read -/
inductive End (κ ε : Type*) where
  | root
  | cycle (name : κ)
  | failed (name : κ) (err : ε)
  deriving DecidableEq, Repr

section
variable {κ α ε : Type*} [DecidableEq κ] (read : κ → Except ε α) (parent : α → Option κ)

def walk : ℕ → List κ → κ → Option (List (κ × α) × End κ ε)
  | 0, _, _ => none
  | n + 1, seen, name =>
    if name ∈ seen then some ([], .cycle name)
    else
      match read name with
      | .error err => some ([], .failed name err)
      | .ok a =>
        match parent a with
        | none => some ([(name, a)], .root)
        | some p => (walk n (seen ++ [name]) p).map fun r => ((name, a) :: r.1, r.2)

inductive Line : List κ → κ → List (κ × α) → End κ ε → Prop
  | cycle {seen : List κ} {name : κ} : name ∈ seen → Line seen name [] (.cycle name)
  | failed {seen : List κ} {name : κ} {err : ε} : name ∉ seen → read name = .error err →
      Line seen name [] (.failed name err)
  | root {seen : List κ} {name : κ} {a : α} : name ∉ seen → read name = .ok a →
      parent a = none → Line seen name [(name, a)] .root
  | step {seen : List κ} {name p : κ} {a : α} {l : List (κ × α)} {e : End κ ε} : name ∉ seen →
      read name = .ok a → parent a = some p → Line (seen ++ [name]) p l e →
      Line seen name ((name, a) :: l) e

variable {read parent}

theorem walk_line {n : ℕ} {seen : List κ} {name : κ} {r : List (κ × α) × End κ ε}
    (h : walk read parent n seen name = some r) : Line read parent seen name r.1 r.2 := by
  induction n generalizing seen name r with
  | zero => cases h
  | succ n ih =>
    rw [walk] at h
    by_cases hs : name ∈ seen
    · rw [if_pos hs, Option.some.injEq] at h
      rw [← h]
      exact .cycle hs
    · rw [if_neg hs] at h
      cases hr : read name with
      | error err =>
        rw [hr, Option.some.injEq] at h
        rw [← h]
        exact .failed hs hr
      | ok a =>
        rw [hr] at h
        dsimp only at h
        cases hp : parent a with
        | none =>
          rw [hp, Option.some.injEq] at h
          rw [← h]
          exact .root hs hr hp
        | some p =>
          rw [hp] at h
          obtain ⟨r', hw, rfl⟩ := Option.map_eq_some_iff.mp h
          exact .step hs hr hp (ih hw)

/-- the names that a walk can still read get fewer with every step -/
theorem walk_isSome {names : List κ} (hnames : ∀ k a, read k = .ok a → k ∈ names) {n : ℕ}
    {seen : List κ} {name : κ} (hn : (names.filter fun k => k ∉ seen).length < n) :
    (walk read parent n seen name).isSome = true := by
  induction n generalizing seen name with
  | zero => exact absurd hn (Nat.not_lt_zero _)
  | succ n ih =>
    rw [walk]
    by_cases hs : name ∈ seen
    · rw [if_pos hs]
      rfl
    · rw [if_neg hs]
      cases hr : read name with
      | error err => rfl
      | ok a =>
        dsimp only
        cases hp : parent a with
        | none => rfl
        | some p =>
          dsimp only
          rw [Option.isSome_map]
          refine ih (Nat.lt_of_lt_of_le ?_ (Nat.le_of_lt_succ hn))
          -- the filter of the longer list leaves out the name that was read
          have hsub : (names.filter fun k => k ∉ seen ++ [name])
              = (names.filter fun k => k ∉ seen).filter fun k => k ≠ name := by
            rw [List.filter_filter]
            refine List.filter_congr ?_
            intro k _
            simp [and_comm]
          rw [hsub]
          exact List.length_filter_lt_length_iff_exists.mpr ⟨name,
            List.mem_filter.mpr ⟨hnames name a hr, by simpa using hs⟩, by simp⟩

omit [DecidableEq κ] in
theorem Line.nodup {seen : List κ} {name : κ} {l : List (κ × α)} {e : End κ ε}
    (h : Line read parent seen name l e) (hs : seen.Nodup) :
    (seen ++ l.map Prod.fst).Nodup := by
  induction h with
  | cycle _ => simpa using hs
  | failed _ _ => simpa using hs
  | @root seen name a hn _ _ =>
    show (seen ++ [name]).Nodup
    rw [← List.concat_eq_append]
    exact hs.concat hn
  | @step seen name p a l e hn _ _ _ ih =>
    have hsn : (seen ++ [name]).Nodup := by
      rw [← List.concat_eq_append]
      exact hs.concat hn
    have := ih hsn
    rwa [List.append_assoc] at this

end

end Lineage
