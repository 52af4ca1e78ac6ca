import Mathlib.Data.List.Perm.Subperm
import Moagan.Lib.Reduce

/-!
# A greedy choice, one after the other

What is chosen next has the greatest key among what is left; the keys depend on what is chosen.

* `pick`            the place of an element with the greatest key
* `greedy`          so many choices
* `greedy_perm`     what is chosen and what is left are what there was
* `greedy_max`      every choice has the greatest key among what is left
* `greedy_prefix`   more choices begin with the same ones
* `greedy_map`      a choice by what a map shows of the elements
-/

namespace Greedy

open Reduction

section
variable {α β K : Type*} [LinearOrder K]

/-- the place of the last of the elements with the greatest key -/
def pick (key : α → K) (l : List α) : Option ℕ :=
  (reduce (better fun e : α × ℕ => key e.1) l.zipIdx).map Prod.snd

variable (key : List α → α → K)

/-- so many choices among these, behind what is chosen -/
def greedy : ℕ → List α → List α → List α
  | 0, _, _ => []
  | n + 1, chosen, rest =>
    match pick (key chosen) rest with
    | none => []
    | some i =>
      match rest[i]? with
      | none => []
      | some x => x :: greedy n (chosen ++ [x]) (rest.eraseIdx i)

/-- **There is a greatest key where there is an element.** -/
theorem pick_spec (k : α → K) {l : List α} (h : l ≠ []) :
    ∃ i x, pick k l = some i ∧ l[i]? = some x ∧ ∀ y ∈ l, k y ≤ k x := by
  have hne : l.zipIdx ≠ [] := by simpa using h
  obtain ⟨⟨x, i⟩, hr⟩ : ∃ e, reduce (better fun e : α × ℕ => k e.1) l.zipIdx = some e := by
    cases hz : l.zipIdx with
    | nil => exact absurd hz hne
    | cons e es => exact ⟨_, rfl⟩
  obtain ⟨hmem, hmax⟩ := reduce_better hr
  refine ⟨i, x, by rw [pick, hr]; rfl, List.mem_zipIdx_iff_getElem?.mp hmem, fun y hy => ?_⟩
  obtain ⟨j, hj⟩ := List.getElem?_of_mem hy
  exact hmax (y, j) (List.mem_zipIdx_iff_getElem?.mpr hj)

theorem greedy_succ (n : ℕ) (chosen : List α) {rest : List α} (h : rest ≠ []) :
    ∃ i x, pick (key chosen) rest = some i ∧ rest[i]? = some x ∧
      (∀ y ∈ rest, key chosen y ≤ key chosen x) ∧
      greedy key (n + 1) chosen rest
        = x :: greedy key n (chosen ++ [x]) (rest.eraseIdx i) := by
  obtain ⟨i, x, hp, hx, hmax⟩ := pick_spec (key chosen) h
  refine ⟨i, x, hp, hx, hmax, ?_⟩
  rw [greedy, hp]
  dsimp only
  rw [hx]

theorem perm_eraseIdx {l : List α} {i : ℕ} {x : α} (h : l[i]? = some x) :
    (x :: l.eraseIdx i).Perm l := by
  obtain ⟨hi, rfl⟩ := List.getElem?_eq_some_iff.mp h
  exact List.getElem_cons_eraseIdx_perm hi

/-- **What is chosen and what is left are what there was.** -/
theorem greedy_perm (n : ℕ) : ∀ chosen rest : List α, n ≤ rest.length →
    (greedy key n chosen rest).length = n ∧
      ∃ left, (greedy key n chosen rest ++ left).Perm rest := by
  induction n with
  | zero => exact fun chosen rest _ => ⟨rfl, rest, List.Perm.refl rest⟩
  | succ n ih =>
    intro chosen rest hn
    have hne : rest ≠ [] := by
      rintro rfl
      exact absurd hn (Nat.not_succ_le_zero n)
    obtain ⟨i, x, -, hx, -, heq⟩ := greedy_succ key n chosen hne
    have hperm := perm_eraseIdx hx
    have hlen : n ≤ (rest.eraseIdx i).length := by
      have := hperm.length_eq
      rw [List.length_cons] at this
      omega
    obtain ⟨hlength, left, hleft⟩ := ih (chosen ++ [x]) (rest.eraseIdx i) hlen
    rw [heq]
    refine ⟨congrArg (· + 1) hlength, left, ?_⟩
    exact (hleft.cons x).trans hperm

/-- **Every choice has the greatest key among what is left.** -/
theorem greedy_max (n : ℕ) : ∀ (chosen rest : List α) (k : ℕ) (x : α),
    (greedy key n chosen rest)[k]? = some x → ∀ y ∈ rest,
    y ∉ (greedy key n chosen rest).take k →
    key (chosen ++ (greedy key n chosen rest).take k) y
      ≤ key (chosen ++ (greedy key n chosen rest).take k) x := by
  induction n with
  | zero =>
    intro chosen rest k x hx
    cases hx
  | succ n ih =>
    intro chosen rest k x hx y hy hnot
    obtain ⟨i, z, -, hz, hmax, heq⟩ :=
      greedy_succ key n chosen (List.ne_nil_of_mem hy)
    rw [heq] at hx hnot ⊢
    cases k with
    | zero =>
      obtain rfl := Option.some.inj hx
      rw [List.take_zero, List.append_nil]
      exact hmax y hy
    | succ k =>
      rw [List.take_succ_cons] at hnot ⊢
      rw [List.mem_cons, not_or] at hnot
      obtain ⟨hne, hrest⟩ := hnot
      have hleft : y ∈ rest.eraseIdx i :=
        (List.mem_cons.mp ((perm_eraseIdx hz).mem_iff.mpr hy)).resolve_left hne
      rw [List.append_cons]
      exact ih (chosen ++ [z]) (rest.eraseIdx i) k x hx y hleft hrest

/-- **More choices begin with the same ones.** -/
theorem greedy_prefix (n : ℕ) : ∀ chosen rest : List α,
    greedy key n chosen rest <+: greedy key (n + 1) chosen rest := by
  induction n with
  | zero => exact fun chosen rest => List.nil_prefix
  | succ n ih =>
    intro chosen rest
    by_cases hne : rest = []
    · subst hne
      exact List.nil_prefix
    · obtain ⟨i, x, hp, hx, -, heq⟩ := greedy_succ key n chosen hne
      obtain ⟨j, z, hq, hz, -, heq'⟩ := greedy_succ key (n + 1) chosen hne
      obtain rfl := Option.some.inj (hp.symm.trans hq)
      obtain rfl := Option.some.inj (hx.symm.trans hz)
      rw [heq, heq']
      exact (List.prefix_cons_inj x).mpr (ih (chosen ++ [x]) (rest.eraseIdx i))

/-! ## maps -/

theorem pick_map (f : β → α) (k : α → K) (l : List β) :
    pick k (l.map f) = pick (fun b => k (f b)) l := by
  unfold pick
  rw [List.zipIdx_map, reduce_map (better fun e : β × ℕ => k (f e.1)) (Prod.map f id),
    Option.map_map]
  · rfl
  · intro a b
    unfold better
    show Prod.map f id (if k (f b.1) < k (f a.1) then a else b)
      = if k (f b.1) < k (f a.1) then Prod.map f id a else Prod.map f id b
    split <;> rfl

/-- **A choice by what a map shows of the elements.** -/
theorem greedy_map (f : β → α) (n : ℕ) : ∀ chosen rest : List β,
    greedy key n (chosen.map f) (rest.map f)
      = (greedy (fun c b => key (c.map f) (f b)) n chosen rest).map f := by
  induction n with
  | zero => exact fun _ _ => rfl
  | succ n ih =>
    intro chosen rest
    rw [greedy, greedy, pick_map]
    cases pick (fun b => key (chosen.map f) (f b)) rest with
    | none => rfl
    | some i =>
      dsimp only
      rw [List.getElem?_map]
      cases rest[i]? with
      | none => rfl
      | some x =>
        dsimp only [Option.map_some]
        rw [List.eraseIdx_map, ← List.map_singleton, ← List.map_append, ih]
        rfl

end

end Greedy
