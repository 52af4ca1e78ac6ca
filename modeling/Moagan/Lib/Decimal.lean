import Mathlib.Data.List.Lex
import Mathlib.Data.String.Basic

/-!
# Decimal notation of a fixed width

* `padded`        the digits behind as many zeros as the width asks for
* `padded_lt`     below `10 ^ w` the order of the texts is the order of the numbers
-/

namespace Decimal

def padded (w n : ℕ) : List Char :=
  List.replicate (w - (Nat.toDigits 10 n).length) '0' ++ Nat.toDigits 10 n

/-- the last `w` digits -/
def fixed : ℕ → ℕ → List Char
  | 0, _ => []
  | w + 1, n => fixed w (n / 10) ++ [Nat.digitChar (n % 10)]

theorem fixed_length (w n : ℕ) : (fixed w n).length = w := by
  induction w generalizing n with
  | zero => rfl
  | succ w ih => rw [fixed, List.length_append, ih, List.length_singleton]

theorem fixed_zero (w : ℕ) : fixed w 0 = List.replicate w '0' := by
  induction w with
  | zero => rfl
  | succ w ih =>
    rw [fixed, ih, List.replicate_succ']
    rfl

theorem padded_eq {w n : ℕ} (hn : n < 10 ^ (w + 1)) : padded (w + 1) n = fixed (w + 1) n := by
  induction w generalizing n with
  | zero =>
    have hn : n < 10 := by simpa using hn
    rw [padded, Nat.toDigits_of_lt_base hn, fixed, fixed, Nat.mod_eq_of_lt hn]
    rfl
  | succ w ih =>
    rw [fixed]
    by_cases h : n < 10
    · rw [padded, Nat.toDigits_of_lt_base h, Nat.div_eq_of_lt h, fixed_zero, Nat.mod_eq_of_lt h]
      rfl
    · have hdiv : n / 10 < 10 ^ (w + 1) := by
        rw [Nat.div_lt_iff_lt_mul (by omega)]
        omega
      rw [padded, Nat.toDigits_of_base_le (by omega) (by omega), ← ih hdiv, padded,
        List.length_append, List.length_singleton, Nat.add_sub_add_right, List.append_assoc]

/-- two texts of one length in order stay so whatever follows -/
theorem append_lt {a b : List Char} (hlen : a.length = b.length) (h : a < b) (s t : List Char) :
    a ++ s < b ++ t := by
  induction h with
  | nil => cases hlen
  | rel hab => exact List.Lex.rel hab
  | cons _ ih => exact List.Lex.cons (ih (Nat.succ.inj hlen))

theorem digitChar_lt : ∀ d < 10, ∀ e < 10, d < e → Nat.digitChar d < Nat.digitChar e := by decide

theorem fixed_lt {w m n : ℕ} (h : m < n) (hn : n < 10 ^ w) : fixed w m < fixed w n := by
  induction w generalizing m n with
  | zero =>
    rw [Nat.pow_zero] at hn
    omega
  | succ w ih =>
    rw [fixed, fixed]
    by_cases hdiv : m / 10 < n / 10
    · refine append_lt ?_ (ih hdiv ?_) _ _
      · rw [fixed_length, fixed_length]
      · rw [Nat.div_lt_iff_lt_mul (by omega)]
        omega
    · have heq : m / 10 = n / 10 := by omega
      rw [heq]
      refine List.append_left_lt (List.Lex.rel ?_)
      exact digitChar_lt _ (Nat.mod_lt _ (by omega)) _ (Nat.mod_lt _ (by omega)) (by omega)

/-- **Padded numbers are ordered as numbers.** -/
theorem padded_lt {w m n : ℕ} (h : m < n) (hn : n < 10 ^ (w + 1)) :
    padded (w + 1) m < padded (w + 1) n := by
  rw [padded_eq hn, padded_eq (h.trans hn)]
  exact fixed_lt h hn

theorem padded_length {w n : ℕ} (hn : n < 10 ^ (w + 1)) : (padded (w + 1) n).length = w + 1 := by
  rw [padded_eq hn, fixed_length]

end Decimal
