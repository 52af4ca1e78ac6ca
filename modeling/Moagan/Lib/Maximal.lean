import Mathlib.Data.Fintype.EquivFin
import Mathlib.Data.List.Range
import Mathlib.Logic.Function.Basic
import Mathlib.Order.WellFounded

/-!
# The maximal elements, by pairwise elimination

The elements are the numbers below `n`, and `beats` says which one is above which.  An element is
compared with those that come after it; whoever loses is marked and not compared again.

* `row`             one element against those after it
* `sweep`           all rows: the element that each loser lost to
* `survivors`       the elements that never lost
* `mem_survivors`   they are the maximal elements
* `exists_survivor` one of them beats whatever is not
-/

namespace Maximal

section
variable (beats : ℕ → ℕ → Bool)

/-- `i` against the elements of a list, until it loses -/
def row (i : ℕ) : List ℕ → (ℕ → Option ℕ) → ℕ → Option ℕ
  | [], s => s
  | j :: js, s =>
    if (s j).isSome then row i js s
    else if beats i j then row i js (Function.update s j (some i))
    else if beats j i then Function.update s i (some j)
    else row i js s

/-- the elements after `i` -/
def after (n i : ℕ) : List ℕ := (List.range n).filter (i < ·)

def sweepStep (n : ℕ) (s : ℕ → Option ℕ) (i : ℕ) : ℕ → Option ℕ :=
  if (s i).isSome then s else row beats i (after n i) s

def sweep (n : ℕ) : ℕ → Option ℕ := (List.range n).foldl (sweepStep beats n) fun _ => none

def survivors (n : ℕ) : List ℕ := (List.range n).filter fun i => (sweep beats n i).isNone

theorem survivors_sorted (n : ℕ) : (survivors beats n).Pairwise (· < ·) :=
  List.Pairwise.filter _ List.pairwise_lt_range

end

section
variable {beats : ℕ → ℕ → Bool} {n : ℕ}

theorem mem_after {i j : ℕ} : j ∈ after n i ↔ j < n ∧ i < j := by
  rw [after, List.mem_filter, List.mem_range, decide_eq_true_iff]

/-! ## marks -/

/-- a mark names a winner -/
def Sound (beats : ℕ → ℕ → Bool) (n : ℕ) (s : ℕ → Option ℕ) : Prop :=
  ∀ k j, s k = some j → j < n ∧ beats j k = true

theorem Sound.update {s : ℕ → Option ℕ} (h : Sound beats n s) {k j : ℕ} (hj : j < n)
    (hb : beats j k = true) : Sound beats n (Function.update s k (some j)) := by
  intro k' j' hk
  by_cases he : k' = k
  · subst he
    rw [Function.update_self] at hk
    obtain rfl := Option.some.inj hk
    exact ⟨hj, hb⟩
  · rw [Function.update_of_ne he] at hk
    exact h k' j' hk

theorem row_sound {i : ℕ} (hi : i < n) (js : List ℕ) {s : ℕ → Option ℕ} (hs : Sound beats n s)
    (hjs : ∀ j ∈ js, j < n) : Sound beats n (row beats i js s) := by
  induction js generalizing s with
  | nil => exact hs
  | cons j js ih =>
    have hrest : ∀ j ∈ js, j < n := fun j hj => hjs j (List.mem_cons_of_mem _ hj)
    unfold row
    split_ifs with h1 h2 h3
    · exact ih hs hrest
    · exact ih (hs.update hi h2) hrest
    · exact hs.update (hjs j List.mem_cons_self) h3
    · exact ih hs hrest

theorem row_keeps {i k : ℕ} (js : List ℕ) {s : ℕ → Option ℕ} (h : (s k).isSome) :
    (row beats i js s k).isSome := by
  have hup : ∀ {s : ℕ → Option ℕ} (m j : ℕ), (s k).isSome →
      (Function.update s m (some j) k).isSome := by
    intro s m j hs
    by_cases he : k = m
    · rw [he, Function.update_self]
      rfl
    · rwa [Function.update_of_ne he]
  induction js generalizing s with
  | nil => exact h
  | cons j js ih =>
    unfold row
    split_ifs
    · exact ih h
    · exact ih (hup j i h)
    · exact hup i j h
    · exact ih h

theorem sweepStep_sound {s : ℕ → Option ℕ} (hs : Sound beats n s) {i : ℕ} (hi : i < n) :
    Sound beats n (sweepStep beats n s i) := by
  unfold sweepStep
  split_ifs
  · exact hs
  · exact row_sound hi _ hs fun j hj => (mem_after.mp hj).1

theorem sweepStep_keeps {s : ℕ → Option ℕ} {k : ℕ} (h : (s k).isSome) (i : ℕ) :
    (sweepStep beats n s i k).isSome := by
  unfold sweepStep
  split_ifs
  · exact h
  · exact row_keeps _ h

theorem foldl_keeps {k : ℕ} (is : List ℕ) {s : ℕ → Option ℕ} (h : (s k).isSome) :
    (is.foldl (sweepStep beats n) s k).isSome := by
  induction is generalizing s with
  | nil => exact h
  | cons i is ih => exact ih (sweepStep_keeps h i)

theorem foldl_sound (is : List ℕ) (his : ∀ i ∈ is, i < n) {s : ℕ → Option ℕ}
    (hs : Sound beats n s) : Sound beats n (is.foldl (sweepStep beats n) s) := by
  induction is generalizing s with
  | nil => exact hs
  | cons i is ih =>
    exact ih (fun i hi => his i (List.mem_cons_of_mem _ hi))
      (sweepStep_sound hs (his i List.mem_cons_self))

theorem sweep_sound : Sound beats n (sweep beats n) :=
  foldl_sound _ (fun _ hi => List.mem_range.mp hi) fun _ _ h => nomatch h

/-! ## a maximal element marks all it beats -/

/-- nothing beats `m` -/
def Top (beats : ℕ → ℕ → Bool) (n m : ℕ) : Prop := m < n ∧ ∀ j < n, beats j m = false

theorem Top.unmarked {m : ℕ} (hm : Top beats n m) {s : ℕ → Option ℕ} (hs : Sound beats n s) :
    s m = none := by
  cases h : s m with
  | none => rfl
  | some j =>
    obtain ⟨hj, hb⟩ := hs m j h
    rw [hm.2 j hj] at hb
    cases hb

/-- the row of a maximal element is not cut short -/
theorem row_marks {m : ℕ} (hm : Top beats n m) (js : List ℕ) (hjs : ∀ j ∈ js, j < n) {k : ℕ}
    (hk : k ∈ js) (hb : beats m k = true) (s : ℕ → Option ℕ) : (row beats m js s k).isSome := by
  induction js generalizing s with
  | nil => exact absurd hk List.not_mem_nil
  | cons j js ih =>
    have hrest : ∀ j ∈ js, j < n := fun j hj => hjs j (List.mem_cons_of_mem _ hj)
    unfold row
    rw [hm.2 j (hjs j List.mem_cons_self)]
    simp only [Bool.false_eq_true, if_false]
    by_cases he : k = j
    · subst he
      rw [if_pos hb]
      split_ifs with h1
      · exact row_keeps js h1
      · refine row_keeps js ?_
        rw [Function.update_self]
        rfl
    · have hk' : k ∈ js := (List.mem_cons.mp hk).resolve_left he
      split_ifs
      · exact ih hrest hk' s
      · exact ih hrest hk' _
      · exact ih hrest hk' s

/-- the row of an element that a later maximal one beats ends with its mark -/
theorem row_marked {m : ℕ} (hm : Top beats n m) {i : ℕ} (hi : i < n) (js : List ℕ)
    (hjs : ∀ j ∈ js, j < n) (hmem : m ∈ js) (hb : beats m i = true) {s : ℕ → Option ℕ}
    (hs : Sound beats n s) : (row beats i js s i).isSome := by
  induction js generalizing s with
  | nil => exact absurd hmem List.not_mem_nil
  | cons j js ih =>
    have hrest : ∀ j ∈ js, j < n := fun j hj => hjs j (List.mem_cons_of_mem _ hj)
    unfold row
    by_cases he : m = j
    · subst he
      rw [hm.unmarked hs, hm.2 i hi, hb]
      show (Function.update s i (some m) i).isSome
      rw [Function.update_self]
      rfl
    · have hm' : m ∈ js := (List.mem_cons.mp hmem).resolve_left he
      split_ifs with h1 h2 h3
      · exact ih hrest hm' hs
      · exact ih hrest hm' (hs.update hi h2)
      · rw [Function.update_self]
        rfl
      · exact ih hrest hm' hs

theorem sweepStep_marks {m k : ℕ} (hm : Top beats n m) (hk : k < n) (hb : beats m k = true)
    {s : ℕ → Option ℕ} (hs : Sound beats n s) : (sweepStep beats n s (min m k) k).isSome := by
  have hne : m ≠ k := by
    intro e
    rw [← e, hm.2 m hm.1] at hb
    cases hb
  unfold sweepStep
  obtain hlt | hlt := lt_or_gt_of_ne hne
  · rw [min_eq_left hlt.le, hm.unmarked hs]
    exact row_marks hm _ (fun j hj => (mem_after.mp hj).1) (mem_after.mpr ⟨hk, hlt⟩) hb s
  · rw [min_eq_right hlt.le]
    split_ifs with h
    · exact h
    · exact row_marked hm hk _ (fun j hj => (mem_after.mp hj).1) (mem_after.mpr ⟨hm.1, hlt⟩) hb hs

theorem sweep_marks {m k : ℕ} (hm : Top beats n m) (hk : k < n) (hb : beats m k = true) :
    (sweep beats n k).isSome := by
  have hmin : min m k ∈ List.range n := List.mem_range.mpr ((min_le_right m k).trans_lt hk)
  obtain ⟨pre, post, hsplit⟩ := List.append_of_mem hmin
  have hpre : ∀ i ∈ pre, i < n := by
    intro i hi
    rw [← List.mem_range, hsplit]
    exact List.mem_append_left _ hi
  unfold sweep
  rw [hsplit, List.foldl_append, List.foldl_cons]
  exact foldl_keeps post (sweepStep_marks hm hk hb (foldl_sound pre hpre fun _ _ h => nomatch h))

/-! ## the survivors -/

variable (hirr : ∀ i, beats i i = false)
  (htrans : ∀ i j k, beats i j = true → beats j k = true → beats i k = true)

include hirr htrans

/-- what is beaten is beaten by a maximal element -/
theorem exists_top {i j : ℕ} (hi : i < n) (hb : beats i j = true) :
    ∃ m, Top beats n m ∧ beats m j = true := by
  let r : Fin n → Fin n → Prop := fun a b => beats a b = true
  have hr : WellFounded r := by
    have h1 : IsTrans (Fin n) r := ⟨fun a b c => htrans a b c⟩
    have h2 : Std.Irrefl r := ⟨fun a h => by
      have := hirr a
      rw [show beats a a = true from h] at this
      cases this⟩
    exact Finite.wellFounded_of_trans_of_irrefl r
  obtain ⟨m, hm, hmin⟩ := hr.has_min {a : Fin n | beats a j = true} ⟨⟨i, hi⟩, hb⟩
  refine ⟨m, ⟨m.2, fun k hk => ?_⟩, hm⟩
  cases hkm : beats k m with
  | false => rfl
  | true => exact absurd hkm (hmin ⟨k, hk⟩ (htrans k m j hkm hm))

/-- **The survivors are the maximal elements.** -/
theorem mem_survivors {i : ℕ} : i ∈ survivors beats n ↔ Top beats n i := by
  rw [survivors, List.mem_filter, List.mem_range, Option.isNone_iff_eq_none]
  constructor
  · intro h
    refine ⟨h.1, fun j hj => ?_⟩
    cases hb : beats j i with
    | false => rfl
    | true =>
      obtain ⟨m, hm, hmi⟩ := exists_top hirr htrans hj hb
      have := sweep_marks hm h.1 hmi
      rw [h.2] at this
      cases this
  · intro h
    exact ⟨h.1, h.unmarked sweep_sound⟩

theorem exists_survivor {i : ℕ} (hi : i < n) (hout : i ∉ survivors beats n) :
    ∃ m ∈ survivors beats n, beats m i = true := by
  have hbeaten : ∃ j < n, beats j i = true := by
    by_contra hno
    apply hout
    rw [mem_survivors hirr htrans]
    refine ⟨hi, fun j hj => ?_⟩
    cases hb : beats j i with
    | false => rfl
    | true => exact absurd ⟨j, hj, hb⟩ hno
  obtain ⟨j, hj, hb⟩ := hbeaten
  obtain ⟨m, hm, hmi⟩ := exists_top hirr htrans hj hb
  exact ⟨m, (mem_survivors hirr htrans).mpr hm, hmi⟩

end

end Maximal
