import Mathlib.Algebra.Order.Group.Nat
import Mathlib.Data.List.Basic
import Mathlib.Data.Nat.Notation

/-!
# Balanced parts

The positions below `n`, cut into `c` consecutive parts at the multiples of `n / c`.

* `Balanced.parts`     part `i` goes from `i * n / c` to `(i + 1) * n / c`
* `parts_positions`    the parts are the positions, in order
* `part_lower`, `part_upper`   a part has `n / c` positions or one more
* `part_le`            it has at most `m` positions when `c` parts of `m` are enough
* `parts_slices`       the slices of a list at the parts are the list
-/

namespace Balanced

def positions (r : ℕ × ℕ) : List ℕ := List.range' r.1 (r.2 - r.1)

def part (n c i : ℕ) : ℕ × ℕ := (i * n / c, (i + 1) * n / c)

def parts (n c : ℕ) : List (ℕ × ℕ) := (List.range c).map (part n c)

/-- `xs[a..b]` -/
def slice {α : Type} (xs : List α) (r : ℕ × ℕ) : List α := (xs.drop r.1).take (r.2 - r.1)

section
variable {n c : ℕ}

theorem cut_mono (n c : ℕ) {i j : ℕ} (h : i ≤ j) : i * n / c ≤ j * n / c :=
  Nat.div_le_div_right (Nat.mul_le_mul_right n h)

theorem part_lower (n c i : ℕ) : n / c ≤ (part n c i).2 - (part n c i).1 := by
  show n / c ≤ (i + 1) * n / c - i * n / c
  rw [Nat.add_mul, Nat.one_mul]
  have : i * n / c + n / c ≤ (i * n + n) / c := Nat.div_add_div_le_add_div
  exact Nat.le_sub_of_add_le' this

theorem part_upper (hc : 0 < c) (i : ℕ) :
    (part n c i).2 - (part n c i).1 ≤ n / c + 1 := by
  show (i + 1) * n / c - i * n / c ≤ n / c + 1
  rw [Nat.add_mul, Nat.one_mul, Nat.add_div hc, Nat.add_assoc, Nat.add_sub_cancel_left]
  split_ifs
  · exact le_rfl
  · exact Nat.le_succ _

theorem part_le {m : ℕ} (hc : 0 < c) (h : n ≤ c * m) (i : ℕ) :
    (part n c i).2 - (part n c i).1 ≤ m := by
  show (i + 1) * n / c - i * n / c ≤ m
  have h1 : (i + 1) * n ≤ i * n + c * m := by
    rw [Nat.add_mul, Nat.one_mul]
    omega
  have h2 := Nat.div_le_div_right (c := c) h1
  rw [Nat.add_mul_div_left _ _ hc] at h2
  exact Nat.sub_le_iff_le_add'.mpr h2

theorem cuts_positions (n c k : ℕ) :
    ((List.range k).map (part n c)).flatMap positions = List.range (k * n / c) := by
  induction k with
  | zero => rw [Nat.zero_mul, Nat.zero_div]; rfl
  | succ k ih =>
    have hle := cut_mono n c (Nat.le_succ k)
    rw [List.range_succ, List.map_append, List.flatMap_append, ih, List.map_singleton,
      List.flatMap_singleton]
    show List.range (k * n / c) ++ List.range' (k * n / c) ((k + 1) * n / c - k * n / c)
      = List.range ((k + 1) * n / c)
    rw [List.range_eq_range', List.range_eq_range']
    have happ := @List.range'_append_1 0 (k * n / c) ((k + 1) * n / c - k * n / c)
    rwa [Nat.zero_add, Nat.add_sub_cancel' hle] at happ

/-- **The parts are the positions, in order.** -/
theorem parts_positions (hc : 0 < c) : (parts n c).flatMap positions = List.range n := by
  rw [parts, cuts_positions, Nat.mul_div_cancel_left n hc]

theorem cuts_slices {α : Type} (xs : List α) (c k : ℕ) :
    ((List.range k).map (part xs.length c)).flatMap (slice xs) = xs.take (k * xs.length / c) := by
  induction k with
  | zero => rw [Nat.zero_mul, Nat.zero_div]; rfl
  | succ k ih =>
    have hle := cut_mono xs.length c (Nat.le_succ k)
    rw [List.range_succ, List.map_append, List.flatMap_append, ih, List.map_singleton,
      List.flatMap_singleton]
    show xs.take (k * xs.length / c)
      ++ (xs.drop (k * xs.length / c)).take ((k + 1) * xs.length / c - k * xs.length / c)
      = xs.take ((k + 1) * xs.length / c)
    rw [← List.take_add, Nat.add_sub_cancel' hle]

/-- **The slices at the parts are the list.** -/
theorem parts_slices {α : Type} (xs : List α) (hc : 0 < c) :
    (parts xs.length c).flatMap (slice xs) = xs := by
  rw [parts, cuts_slices, Nat.mul_div_cancel_left xs.length hc, List.take_length]

end

end Balanced
