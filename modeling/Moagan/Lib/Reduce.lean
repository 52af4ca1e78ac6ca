import Mathlib.Data.List.Induction
import Mathlib.Order.Lattice

/-!
# Reductions in parallel

The elements are reduced in their order, but in whatever groups; a group may be empty.

* `ReduceWith`       what some grouping leaves
* `reduce`           one element after the other
* `reduceWith_iff`   an associative operation leaves the same whatever the groups are
* `better`           the one with the greater key, the second of two that are equal
* `reduce_better`    it leaves the last of those with the greatest key
-/

namespace Reduction

section
variable {α β : Type*} (op : α → α → α)

/-- `reduce_with`: a leaf of the tree holds no element or one -/
inductive ReduceWith : List α → Option α → Prop
  | none : ReduceWith [] none
  | one (a : α) : ReduceWith [a] (some a)
  | join {xs ys : List α} {o p : Option α} :
    ReduceWith xs o → ReduceWith ys p → ReduceWith (xs ++ ys) (Option.merge op o p)

def reduce : List α → Option α
  | [] => none
  | a :: l => some (l.foldl op a)

variable {op}

theorem reduce_concat (l : List α) (a : α) :
    reduce op (l ++ [a]) = Option.merge op (reduce op l) (some a) := by
  cases l with
  | nil => rfl
  | cons b l =>
    show some ((l ++ [a]).foldl op b) = some (op (l.foldl op b) a)
    rw [List.foldl_append]
    rfl

/-- one element after the other is a grouping -/
theorem reduceWith_reduce (l : List α) : ReduceWith op l (reduce op l) := by
  induction l using List.reverseRecOn with
  | nil => exact .none
  | append_singleton l a ih =>
    rw [reduce_concat]
    exact ih.join (.one a)

theorem reduce_append (hop : ∀ a b c, op (op a b) c = op a (op b c)) (xs ys : List α) :
    reduce op (xs ++ ys) = Option.merge op (reduce op xs) (reduce op ys) := by
  induction ys using List.reverseRecOn with
  | nil =>
    rw [List.append_nil]
    cases reduce op xs <;> rfl
  | append_singleton ys a ih =>
    rw [← List.append_assoc, reduce_concat, reduce_concat, ih]
    cases reduce op xs with
    | none => cases reduce op ys <;> rfl
    | some b =>
      cases reduce op ys with
      | none => rfl
      | some c => exact congrArg some (hop b c a)

/-- **An associative operation leaves the same whatever the groups are.** -/
theorem reduceWith_iff (hop : ∀ a b c, op (op a b) c = op a (op b c)) {l : List α}
    {o : Option α} : ReduceWith op l o ↔ o = reduce op l := by
  constructor
  · intro h
    induction h with
    | none => rfl
    | one a => rfl
    | join _ _ ihx ihy => rw [ihx, ihy, reduce_append hop]
  · rintro rfl
    exact reduceWith_reduce l

theorem reduce_map (op : α → α → α) {op' : β → β → β} (f : α → β) (hf : ∀ a b, f (op a b) = op' (f a) (f b))
    (l : List α) : reduce op' (l.map f) = (reduce op l).map f := by
  induction l using List.reverseRecOn with
  | nil => rfl
  | append_singleton l a ih =>
    rw [List.map_append, List.map_singleton, reduce_concat, reduce_concat, ih]
    cases reduce op l with
    | none => rfl
    | some b => exact congrArg some (hf b a).symm

end

/-! ## the greatest key -/

section
variable {α K : Type*} [LinearOrder K] (key : α → K)

/-- the one with the greater key, the second of two that are equal -/
def better (a b : α) : α := if key b < key a then a else b

variable {key}

theorem better_assoc (a b c : α) :
    better key (better key a b) c = better key a (better key b c) := by
  unfold better
  by_cases hab : key b < key a
  · by_cases hbc : key c < key b
    · simp [hab, hbc, hbc.trans hab]
    · simp [hab, hbc]
  · by_cases hbc : key c < key b
    · simp [hab, hbc]
    · have hac : ¬ key c < key a := not_lt.mpr ((not_lt.mp hab).trans (not_lt.mp hbc))
      simp [hab, hbc, hac]

/-- **It leaves one of the elements with the greatest key.** -/
theorem reduce_better {l : List α} {x : α} (h : reduce (better key) l = some x) :
    x ∈ l ∧ ∀ y ∈ l, key y ≤ key x := by
  induction l using List.reverseRecOn generalizing x with
  | nil => cases h
  | append_singleton l a ih =>
    rw [reduce_concat] at h
    cases hl : reduce (better key) l with
    | none =>
      -- `l` is empty
      obtain rfl : l = [] := by
        cases l with
        | nil => rfl
        | cons b l => cases hl
      rw [hl] at h
      obtain rfl := Option.some.inj h
      exact ⟨List.mem_singleton_self a, fun y hy => by rw [List.mem_singleton.mp hy]⟩
    | some b =>
      rw [hl] at h
      obtain ⟨hb, hmax⟩ := ih hl
      have hx : (if key a < key b then b else a) = x := Option.some.inj h
      split at hx
      · rename_i hlt
        subst hx
        refine ⟨List.mem_append_left _ hb, fun y hy => ?_⟩
        obtain hy | hy := List.mem_append.mp hy
        · exact hmax y hy
        · rw [List.mem_singleton.mp hy]
          exact hlt.le
      · rename_i hge
        subst hx
        refine ⟨List.mem_append_right _ (List.mem_singleton_self _), fun y hy => ?_⟩
        obtain hy | hy := List.mem_append.mp hy
        · exact (hmax y hy).trans (not_lt.mp hge)
        · rw [List.mem_singleton.mp hy]

end

end Reduction
