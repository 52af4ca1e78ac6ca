import Mathlib.Algebra.Order.Ring.Unbundled.Rat
import Mathlib.Data.Fintype.Pi
import Mathlib.Data.Rat.Floor
import Moagan.Lib.Maximal

/-!
# Scores and the Pareto front (`src/ranking/pareto.rs`, `src/phases/replace.rs`)

* `FloatOps`                 the floating point values, as far as the ranking uses them
* `Aggregated`               the averages of the judges for one proposal
* `QualityVector`            its five criteria
* `dominates`, `paretoFront` the vectors that no other one dominates
* `weightedScore`            the weighted average (`RankingWeights` in `src/config/mod.rs`)
* `shouldReplaceSynthesis`   a synthesis is better than its sources
-/

namespace Moagan.Rank

/-- The floats other than NaN: an order, and operations of which nothing is assumed. -/
class FloatOps (F : Type) extends LinearOrder F, Zero F, One F, Add F, Sub F, Mul F, Div F, Neg F,
    NatCast F where
  /-- `{:.2}` -/
  fixed2 : F → String

/-- two decimals of a rational, a half rounded up -/
def ratFixed2 (q : ℚ) : String :=
  let n := (|q| * 100 + 1 / 2).floor.toNat
  (if q < 0 then "-" else "") ++ toString (n / 100) ++ "." ++ toString (n / 10 % 10)
    ++ toString (n % 10)

instance : FloatOps ℚ where
  fixed2 := ratFixed2

section
variable {F : Type} [FloatOps F]

structure Aggregated (F : Type) where
  score : F
  correctness : F
  completeness : F
  fit : F
  evidence : F
  clarity : F
  judges : ℕ
deriving DecidableEq, Repr

structure QualityVector (F : Type) where
  correctness : F
  completeness : F
  fit : F
  evidence : F
  clarity : F
deriving DecidableEq, Repr

def QualityVector.fromAggregated (a : Aggregated F) : QualityVector F where
  correctness := a.correctness
  completeness := a.completeness
  fit := a.fit
  evidence := a.evidence
  clarity := a.clarity

def QualityVector.dimAt (v : QualityVector F) : Fin 5 → F
  | 0 => v.correctness
  | 1 => v.completeness
  | 2 => v.fit
  | 3 => v.evidence
  | 4 => v.clarity

/-! ## the front -/

def dominates (a b : QualityVector F) : Bool :=
  let allGe := ∀ i : Fin 5, ¬ a.dimAt i < b.dimAt i
  let anyGt := ∃ i : Fin 5, b.dimAt i < a.dimAt i
  decide allGe && decide anyGt

/-- `vectors[i]`, for `i` in range -/
def vectorAt (vectors : List (QualityVector F)) (i : ℕ) : QualityVector F :=
  vectors.getD i ⟨0, 0, 0, 0, 0⟩

/-- vector `i` dominates vector `j` -/
def beats (vectors : List (QualityVector F)) (i j : ℕ) : Bool :=
  dominates (vectorAt vectors i) (vectorAt vectors j)

def paretoFront (vectors : List (QualityVector F)) : List ℕ :=
  Maximal.survivors (beats vectors) vectors.length

theorem dominates_iff {a b : QualityVector F} : dominates a b = true ↔ b.dimAt < a.dimAt := by
  unfold dominates
  rw [Bool.and_eq_true, decide_eq_true_iff, decide_eq_true_iff, Pi.lt_def]
  simp only [not_lt]
  rfl

theorem dominates_irrefl (a : QualityVector F) : dominates a a = false := by
  cases h : dominates a a with
  | false => rfl
  | true => exact absurd (dominates_iff.mp h) (lt_irrefl _)

theorem dominates_trans {a b c : QualityVector F} (h1 : dominates a b = true)
    (h2 : dominates b c = true) : dominates a c = true :=
  dominates_iff.mpr ((dominates_iff.mp h2).trans (dominates_iff.mp h1))

theorem beats_irrefl (vectors : List (QualityVector F)) (i : ℕ) : beats vectors i i = false :=
  dominates_irrefl _

theorem beats_trans (vectors : List (QualityVector F)) (i j k : ℕ) (h1 : beats vectors i j = true)
    (h2 : beats vectors j k = true) : beats vectors i k = true :=
  dominates_trans h1 h2

/-- **The front has the vectors that no other one dominates.** -/
theorem mem_paretoFront {vectors : List (QualityVector F)} {i : ℕ} : i ∈ paretoFront vectors ↔
    i < vectors.length ∧ ∀ j < vectors.length, beats vectors j i = false :=
  Maximal.mem_survivors (beats_irrefl vectors) (beats_trans vectors)

/-- at least as good in every criterion, and better in one -/
def Better (a b : QualityVector F) : Prop :=
  (∀ i : Fin 5, b.dimAt i ≤ a.dimAt i) ∧ ∃ i : Fin 5, b.dimAt i < a.dimAt i

theorem dominates_iff_better {a b : QualityVector F} : dominates a b = true ↔ Better a b := by
  rw [dominates_iff, Pi.lt_def]
  rfl

theorem beats_iff {vectors : List (QualityVector F)} {i j : ℕ} :
    beats vectors i j = true ↔ Better (vectorAt vectors i) (vectorAt vectors j) :=
  dominates_iff_better

/-- **The front is exact:** it lists, in ascending order, the vectors that no other one is better
than, a repeated one as often as it is there, and one of them is better than whatever is left
out. -/
theorem paretoFront_exact (vectors : List (QualityVector F)) :
    (paretoFront vectors).Pairwise (· < ·) ∧
    (∀ i, i ∈ paretoFront vectors ↔ i < vectors.length ∧
      ∀ j < vectors.length, ¬ Better (vectorAt vectors j) (vectorAt vectors i)) ∧
    (∀ i ∈ paretoFront vectors, ∀ j < vectors.length,
      vectorAt vectors j = vectorAt vectors i → j ∈ paretoFront vectors) ∧
    ∀ i < vectors.length, i ∉ paretoFront vectors →
      ∃ m ∈ paretoFront vectors, Better (vectorAt vectors m) (vectorAt vectors i) := by
  have hmem : ∀ i, i ∈ paretoFront vectors ↔ i < vectors.length ∧
      ∀ j < vectors.length, ¬ Better (vectorAt vectors j) (vectorAt vectors i) := by
    intro i
    rw [mem_paretoFront]
    simp only [← beats_iff, Bool.not_eq_true]
  refine ⟨Maximal.survivors_sorted _ _, hmem, ?_, ?_⟩
  · intro i hi j hj he
    obtain ⟨-, hbest⟩ := (hmem i).mp hi
    rw [hmem, he]
    exact ⟨hj, hbest⟩
  · intro i hi hout
    obtain ⟨m, hm, hb⟩ :=
      Maximal.exists_survivor (beats_irrefl vectors) (beats_trans vectors) hi hout
    exact ⟨m, hm, beats_iff.mp hb⟩

structure RankingWeights (F : Type) where
  correctness : F
  completeness : F
  fit : F
  evidence : F
  clarity : F
  overall : F
deriving DecidableEq, Repr

/-- `iter().sum()` -/
def sumOf (xs : List F) : F := xs.foldl (· + ·) 0

def RankingWeights.weightedScore (w : RankingWeights F)
    (correctness completeness fit evidence clarity overall : F) : F :=
  let weights := [w.correctness, w.completeness, w.fit, w.evidence, w.clarity]
  let criteria := [correctness, completeness, fit, evidence, clarity]
  let sum := sumOf weights
  let weightedAvg :=
    if 0 < sum then sumOf ((weights.zip criteria).map fun p => p.1 * p.2) / sum else 0
  let total := sum + w.overall
  if 0 < total then (sum * weightedAvg + w.overall * overall) / total else 0

/-! ## a synthesis against its sources -/

/-- The fold with `max` from `-∞` says that the synthesis is above every source. -/
def shouldReplaceSynthesis (synthesis : QualityVector F) (sources : List (QualityVector F)) :
    Bool :=
  if sources = [] then false
  else
    let strictBestDims := (List.finRange 5).countP fun i =>
      sources.all fun v => v.dimAt i < synthesis.dimAt i
    let anySourceParetoDominates := sources.any fun v => dominates v synthesis
    decide (2 ≤ strictBestDims) && !anySourceParetoDominates

end

end Moagan.Rank
