import Mathlib.Data.List.Basic
import Mathlib.Data.List.Induction
import Mathlib.Logic.Function.Basic

/-!
# Deleting rows by one condition after the other

Rows stand in tables, and each entry of a list hits some rows of one table.

* `strike`          the tables without the rows that an entry hits
* `strike_all`      what the entries of a list leave
* `counts`          how many rows each entry takes, one entry after the other
* `counts_eq_iff`   each takes as many as it hits, exactly when no row is hit twice
-/

namespace Sweeps

section
variable {ι α ε : Type*} [DecidableEq ι] (place : ε → ι) (hit : ε → α → Bool)

def strike (rows : ι → List α) (e : ε) : ι → List α :=
  Function.update rows (place e) ((rows (place e)).filter fun a => !hit e a)

def count (rows : ι → List α) (e : ε) : ℕ := (rows (place e)).countP (hit e)

def counts : (ι → List α) → List ε → List ℕ
  | _, [] => []
  | rows, e :: es => count place hit rows e :: counts (strike place hit rows e) es

/-- no entry of the list hits this row -/
def spared (es : List ε) (i : ι) (a : α) : Bool := es.all fun e => !(decide (place e = i) && hit e a)

variable {place hit}

theorem spared_iff {es : List ε} {i : ι} {a : α} :
    spared place hit es i a = true ↔ ∀ e ∈ es, place e = i → hit e a = false := by
  unfold spared
  simp only [List.all_eq_true, Bool.not_eq_true', Bool.and_eq_false_iff, decide_eq_false_iff_not]
  exact forall₂_congr fun e _ => or_iff_not_imp_left.trans (by rw [not_not])

theorem strike_apply (rows : ι → List α) (e : ε) (i : ι) :
    strike place hit rows e i = (rows i).filter fun a => !(decide (place e = i) && hit e a) := by
  unfold strike
  by_cases h : place e = i
  · subst h
    rw [Function.update_self]
    simp only [decide_true, Bool.true_and]
  · rw [Function.update_of_ne (Ne.symm h)]
    simp only [h, decide_false, Bool.false_and, Bool.not_false, List.filter_true]

/-- **A list of entries leaves the rows that none of them hits.** -/
theorem strike_all (es : List ε) : ∀ (rows : ι → List α) (i : ι),
    es.foldl (strike place hit) rows i = (rows i).filter (spared place hit es i) := by
  induction es with
  | nil =>
    intro rows i
    exact (List.filter_true _).symm
  | cons e es ih =>
    intro rows i
    rw [List.foldl_cons, ih, strike_apply, List.filter_filter]
    refine List.filter_congr fun a _ => ?_
    show _ = (_ && spared place hit es i a)
    rw [Bool.and_comm]

theorem counts_concat (es : List ε) (e : ε) : ∀ rows : ι → List α,
    counts place hit rows (es ++ [e]) =
      counts place hit rows es ++ [count place hit (es.foldl (strike place hit) rows) e] := by
  induction es with
  | nil => exact fun _ => rfl
  | cons e' es ih => exact fun rows => congrArg (_ :: ·) (ih (strike place hit rows e'))

theorem counts_length (es : List ε) : ∀ rows : ι → List α,
    (counts place hit rows es).length = es.length := by
  induction es with
  | nil => exact fun _ => rfl
  | cons e es ih => exact fun rows => congrArg (· + 1) (ih _)

theorem countP_filter_eq_iff {p q : α → Bool} {l : List α} :
    (l.filter q).countP p = l.countP p ↔ ∀ a ∈ l, p a = true → q a = true := by
  rw [List.countP_eq_length_filter, List.countP_eq_length_filter, List.filter_comm,
    List.length_filter_eq_length_iff]
  constructor
  · intro h a ha hp
    exact h a (List.mem_filter.mpr ⟨ha, hp⟩)
  · intro h a ha
    obtain ⟨ha, hp⟩ := List.mem_filter.mp ha
    exact h a ha hp

/-- **Each entry takes as many rows as it hits**, exactly when no two hit the same row. -/
theorem counts_eq_iff (rows : ι → List α) (es : List ε) :
    counts place hit rows es = es.map (count place hit rows) ↔
      es.Pairwise fun e e' => place e = place e' →
        ∀ a ∈ rows (place e), hit e a = true → hit e' a = false := by
  induction es using List.reverseRecOn with
  | nil => exact iff_of_true rfl .nil
  | append_singleton es e ih =>
    rw [counts_concat, List.map_append, List.pairwise_append, ← ih]
    have hlen : (counts place hit rows es).length = (es.map (count place hit rows)).length := by
      rw [counts_length, List.length_map]
    have hlast : count place hit (es.foldl (strike place hit) rows) e = count place hit rows e ↔
        ∀ e' ∈ es, place e' = place e → ∀ a ∈ rows (place e'), hit e' a = true →
          hit e a = false := by
      unfold count
      rw [strike_all, countP_filter_eq_iff]
      simp only [spared_iff]
      constructor
      · intro h e' he' hplace a ha hhit
        by_contra hne
        rw [hplace] at ha
        rw [h a ha (Bool.of_not_eq_false hne) e' he' hplace] at hhit
        cases hhit
      · intro h a ha hhit e' he' hplace
        by_contra hne
        rw [← hplace] at ha
        rw [h e' he' hplace a ha (Bool.of_not_eq_false hne)] at hhit
        cases hhit
    constructor
    · intro h
      obtain ⟨hfront, hend⟩ := List.append_inj h hlen
      refine ⟨hfront, List.pairwise_singleton .., fun e' he' e'' he'' => ?_⟩
      obtain rfl := List.mem_singleton.mp he''
      exact hlast.mp (List.head_eq_of_cons_eq hend) e' he'
    · intro ⟨hfront, _, hpair⟩
      rw [hfront, hlast.mpr fun e' he' => hpair e' he' e (List.mem_singleton_self e)]
      rfl

end

end Sweeps
