import Mathlib.Data.Set.Finite.Basic
import Mathlib.Logic.Relation
import Mathlib.Order.WellFounded

/-!
# What does not depend on anything bad

* `Grounded r bad x`   `x` is not bad, and all that it depends on is grounded
* `Clear r bad x`      nothing that `x` leads to is bad or on a cycle
* `grounded_iff`       the two are the same where `x` leads to finitely many elements
* `not_acc_iff`        accessible is what no cycle leads to
* `Grounded.map`       a map that keeps dependencies and badness both ways keeps groundedness
-/

namespace Grounds

open Relation

section
variable {α β : Type*} {r : α → α → Prop} {bad : α → Prop}

/-- `r x y` says that `x` depends on `y` -/
inductive Grounded (r : α → α → Prop) (bad : α → Prop) : α → Prop
  | intro {x : α} : ¬ bad x → (∀ y, r x y → Grounded r bad y) → Grounded r bad x

def Clear (r : α → α → Prop) (bad : α → Prop) (x : α) : Prop :=
  ∀ y, ReflTransGen r x y → ¬ bad y ∧ ¬ TransGen r y y

theorem Grounded.not_bad {x : α} (h : Grounded r bad x) : ¬ bad x := by
  cases h with
  | intro hb _ => exact hb

theorem Grounded.dep {x y : α} (h : Grounded r bad x) (hr : r x y) : Grounded r bad y := by
  cases h with
  | intro _ hall => exact hall y hr

theorem Grounded.along {x y : α} (h : Grounded r bad x) (hr : ReflTransGen r x y) :
    Grounded r bad y := by
  induction hr with
  | refl => exact h
  | tail _ hr ih => exact ih.dep hr

/-- what is grounded is accessible, so that it is on no cycle -/
theorem Grounded.not_cycle {x : α} (h : Grounded r bad x) : ¬ TransGen r x x := by
  induction h with
  | intro hb hall ih =>
    intro hcycle
    -- the first step of the cycle leads to an element of the same cycle
    obtain ⟨y, hxy, hyx⟩ := TransGen.head'_iff.mp hcycle
    exact ih y hxy (TransGen.tail' hyx hxy)

theorem Grounded.clear {x : α} (h : Grounded r bad x) : Clear r bad x :=
  fun _ hr => ⟨(h.along hr).not_bad, (h.along hr).not_cycle⟩

theorem Clear.grounded {x : α} (h : Clear r bad x) (hfin : {y | ReflTransGen r x y}.Finite) :
    Grounded r bad x := by
  have : Finite {y // ReflTransGen r x y} := hfin
  -- among the elements that `x` leads to the way down is well-founded
  let down : {y // ReflTransGen r x y} → {y // ReflTransGen r x y} → Prop :=
    fun z y => TransGen r y.1 z.1
  have : IsTrans _ down := ⟨fun _ _ _ hab hbc => TransGen.trans hbc hab⟩
  have : Std.Irrefl down := ⟨fun y hy => (h y.1 y.2).2 hy⟩
  have hwf : WellFounded down := Finite.wellFounded_of_trans_of_irrefl down
  have hall : ∀ y : {y // ReflTransGen r x y}, Grounded r bad y.1 := by
    intro y
    induction y using hwf.induction with
    | _ y ih =>
      refine .intro (h y.1 y.2).1 fun z hr => ?_
      exact ih ⟨z, y.2.tail hr⟩ (TransGen.single hr)
  exact hall ⟨x, .refl⟩

/-- **An element is grounded iff it leads to nothing bad and to no cycle.** -/
theorem grounded_iff {x : α} (hfin : {y | ReflTransGen r x y}.Finite) :
    Grounded r bad x ↔ Clear r bad x :=
  ⟨Grounded.clear, fun h => h.grounded hfin⟩

/-- the elements that `x` leads to are finitely many when the dependencies are in a finite set -/
theorem finite_reach {s : Set α} (hs : s.Finite) (h : ∀ x y, r x y → y ∈ s) (x : α) :
    {y | ReflTransGen r x y}.Finite := by
  refine (hs.insert x).subset fun y hy => ?_
  obtain rfl | ⟨z, -, hzy⟩ := ReflTransGen.cases_tail hy
  · exact Set.mem_insert _ _
  · exact Set.mem_insert_of_mem _ (h z y hzy)

/-- **Accessible is what no cycle leads to.** -/
theorem not_acc_iff {s : Set α} (hs : s.Finite) (h : ∀ x y, r x y → x ∈ s) {v : α} :
    ¬ Acc r v ↔ ∃ u, TransGen r u u ∧ ReflTransGen r u v := by
  have hacc : Acc r v ↔ Grounded (Function.swap r) (fun _ => False) v := by
    constructor
    · intro hv
      induction hv with
      | intro x _ ih => exact .intro not_false ih
    · intro hv
      induction hv with
      | intro _ _ ih => exact ⟨_, ih⟩
  rw [hacc, grounded_iff (finite_reach hs (fun x y hr => h y x hr) v)]
  unfold Clear
  push Not
  constructor
  · intro ⟨u, hvu, hu⟩
    exact ⟨u, transGen_swap.mp (hu trivial), reflTransGen_swap.mp hvu⟩
  · intro ⟨u, hu, huv⟩
    exact ⟨u, reflTransGen_swap.mpr huv, fun _ => transGen_swap.mpr hu⟩

/-- **A map that keeps dependencies and badness both ways keeps groundedness.** -/
theorem Grounded.map {r' : β → β → Prop} {bad' : β → Prop} (f : α → β)
    (hbad : ∀ x, bad' (f x) ↔ bad x) (hdown : ∀ x y, r x y → r' (f x) (f y))
    (hup : ∀ x z, r' (f x) z → ∃ y, r x y ∧ f y = z) {x : α} :
    Grounded r' bad' (f x) ↔ Grounded r bad x := by
  constructor
  · intro h
    generalize hz : f x = z at h
    induction h generalizing x with
    | intro hb hall ih =>
      subst hz
      refine .intro (fun hx => hb ((hbad x).mpr hx)) fun y hr => ?_
      exact ih (f y) (hdown x y hr) rfl
  · intro h
    induction h with
    | @intro x hb hall ih =>
      refine .intro (fun hx => hb ((hbad x).mp hx)) fun z hr => ?_
      obtain ⟨y, hy, rfl⟩ := hup x z hr
      exact ih y hy

end

end Grounds
