import Moagan.Lib.Evict

/-!
# Where a running total passes a cap

The total runs over a list from its front, and stops counting at `top`.

* `Over`           a total is over the cap, as far as it is counted
* `past`           the elements at which the running total is over the cap
* `past_append`    the running total goes on
* `past_split`     they are a rest of the list: behind the front that fits
* `split_unique`   there is only one place where the total passes the cap
-/

namespace Overrun
open Evict

section
variable {α : Type*} (size : α → ℕ) (top cap : ℕ)

def Over (n : ℕ) : Prop := cap < min n top

instance (n : ℕ) : Decidable (Over top cap n) := inferInstanceAs (Decidable (_ < _))

def past : ℕ → List α → List α
  | _, [] => []
  | running, x :: xs =>
    if cap < min (running + size x) top then x :: past (min (running + size x) top) xs
    else past (min (running + size x) top) xs

variable {size top cap}

theorem Over.mono {n m : ℕ} (h : Over top cap n) (hle : n ≤ m) : Over top cap m := by
  unfold Over at h ⊢
  omega

theorem min_add (n k : ℕ) : min (min n top + k) top = min (n + k) top := by omega

theorem past_cons (n : ℕ) (x : α) (xs : List α) :
    past size top cap (min n top) (x :: xs) = if Over top cap (n + size x) then
      x :: past size top cap (min (n + size x) top) xs
      else past size top cap (min (n + size x) top) xs := by
  rw [past, min_add]
  rfl

/-- **The running total goes on.** -/
theorem past_append (n : ℕ) (xs ys : List α) :
    past size top cap (min n top) (xs ++ ys) = past size top cap (min n top) xs ++
      past size top cap (min (n + total size xs) top) ys := by
  induction xs generalizing n with
  | nil => rfl
  | cons x xs ih =>
    have hih := ih (n + size x)
    rw [Nat.add_assoc, ← total_cons] at hih
    rw [List.cons_append, past_cons, past_cons]
    by_cases hx : Over top cap (n + size x)
    · rw [if_pos hx, if_pos hx, hih, List.cons_append]
    · rw [if_neg hx, if_neg hx, hih]

theorem past_sublist (xs : List α) : ∀ n, (past size top cap n xs).Sublist xs := by
  induction xs with
  | nil => intro _; exact List.Sublist.refl _
  | cons x xs ih =>
    intro n
    unfold past
    by_cases hx : cap < min (n + size x) top
    · rw [if_pos hx]
      exact (ih _).cons_cons x
    · rw [if_neg hx]
      exact (ih _).cons x

/-- once over the cap, always over the cap -/
theorem past_of_over {n : ℕ} (h : Over top cap n) (xs : List α) :
    past size top cap (min n top) xs = xs := by
  induction xs generalizing n with
  | nil => rfl
  | cons x xs ih =>
    have hx : Over top cap (n + size x) := h.mono (Nat.le_add_right _ _)
    rw [past_cons, if_pos hx, ih hx]

/-- **What is past the cap is a rest of the list.** -/
theorem past_split (n : ℕ) (xs : List α) : ∃ front, xs = front ++ past size top cap (min n top) xs ∧
    (front ≠ [] → ¬ Over top cap (n + total size front)) ∧
    ∀ x rest, past size top cap (min n top) xs = x :: rest →
      Over top cap (n + total size front + size x) := by
  induction xs generalizing n with
  | nil => exact ⟨[], rfl, fun h => absurd rfl h, fun _ _ h => nomatch h⟩
  | cons x xs ih =>
    by_cases hx : Over top cap (n + size x)
    · refine ⟨[], ?_, fun h => absurd rfl h, fun y rest hy => ?_⟩
      · rw [past_cons, if_pos hx, past_of_over hx]
        rfl
      · rw [past_cons, if_pos hx] at hy
        obtain ⟨rfl, -⟩ := List.cons.inj hy
        exact hx
    · obtain ⟨front, hsplit, hfront, hrest⟩ := ih (n + size x)
      refine ⟨x :: front, ?_, fun _ => ?_, ?_⟩
      · rw [past_cons, if_neg hx, List.cons_append, ← hsplit]
      · rw [total_cons, ← Nat.add_assoc]
        by_cases hnil : front = []
        · rw [hnil]
          exact hx
        · exact hfront hnil
      · rw [past_cons, if_neg hx, total_cons, ← Nat.add_assoc]
        exact hrest

/-- a front that fits is no longer than the one behind which the total passes the cap -/
theorem prefix_of_split {n : ℕ} {xs front front' rest rest' : List α} {x : α}
    (h : xs = front ++ x :: rest) (h' : xs = front' ++ rest')
    (hover : Over top cap (n + total size front + size x))
    (hfits : front' ≠ [] → ¬ Over top cap (n + total size front')) : front' <+: front := by
  rcases List.prefix_or_prefix_of_prefix ⟨x :: rest, h.symm⟩ ⟨rest', h'.symm⟩ with hle | hle
  · obtain ⟨gap, rfl⟩ := hle
    cases gap with
    | nil => exact ⟨[], by rw [List.append_nil, List.append_nil]⟩
    | cons y gap =>
      rw [h, List.append_assoc, List.cons_append, List.append_cancel_left_eq] at h'
      obtain ⟨rfl, -⟩ := List.cons.inj h'
      refine absurd (hover.mono ?_) (hfits (by simp))
      rw [total_append, total_cons]
      omega
  · exact hle

/-- **There is only one place where the total passes the cap.** -/
theorem split_unique {n : ℕ} {xs front front' rest rest' : List α} {x x' : α}
    (h : xs = front ++ x :: rest) (h' : xs = front' ++ x' :: rest')
    (hover : Over top cap (n + total size front + size x))
    (hover' : Over top cap (n + total size front' + size x'))
    (hfits : front ≠ [] → ¬ Over top cap (n + total size front))
    (hfits' : front' ≠ [] → ¬ Over top cap (n + total size front')) : front = front' :=
  (prefix_of_split h' h hover' hfits).eq_of_length_le
    (prefix_of_split h h' hover hfits').length_le

end

end Overrun
