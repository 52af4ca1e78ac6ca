import Moagan.Lib.RegexEdges
import Moagan.Redact.LineByLine

/-!
# The markers

* `Pattern.marker`   what a pattern writes
* `noNumber`         a text in which no number and no address begins
* `skips_marker`     no pattern has a match that begins in a marker
* `pairwise_behind`  what stands behind a pattern in the list
-/

namespace Moagan.Redact

open Regex

/-! ## what the patterns write -/

def Pattern.marker (p : Pattern) : List Char :=
  match p.replacement.getLast? with
  | some (.text w) => w
  | _ => []

theorem marker_pat (id : String) (re : Regex Char) (replacement : String) :
    (pat id re replacement).marker = replacement.toList := rfl

theorem marker_key : elevenlabsKey.marker = "[REDACTED:elevenlabs_key]".toList := rfl

def brackets : List (List Char) := (PATTERNS asciiTables).map (·.marker)

/-- the markers do not depend on the tables -/
theorem mem_brackets {U : Unicode} {q : Pattern} (hq : q ∈ PATTERNS U) : q.marker ∈ brackets := by
  have hsame : (PATTERNS U).map (·.marker) = brackets := rfl
  rw [← hsame]
  exact List.mem_map_of_mem hq

theorem replacement_eq {U : Unicode} {p : Pattern} (hp : p ∈ PATTERNS U)
    (h : p.re.anchored = false) : p.replacement = [.text p.marker] := by
  obtain ⟨w, hw, _⟩ := marker_of_plain hp h
  rw [Pattern.marker, hw]
  rfl

/-- no number and no address begins in such a text -/
def noNumber (w : List Char) : Bool :=
  !w.contains '.' && !w.contains '@' &&
    (w.all (fun c => c.toNat < 128 && !c.isDigit) || !w.contains ' ' && !w.contains '-') &&
    (w.getLast? == some ']' || w.getLast? == some '*')

theorem brackets_checked : (brackets.all fun w => noNumber w && w.head? == some '[' &&
    w.getLast? == some ']' && !w.contains '-') = true := by
  -- with the markers as lists of characters
  simp only [brackets, PATTERNS, List.map_cons, List.map_nil, marker_pat, marker_key,
    String.reduceToList]
  decide +kernel

theorem bracket_facts {w : List Char} (h : w ∈ brackets) : noNumber w = true ∧
    w.head? = some '[' ∧ w.getLast? = some ']' ∧ '-' ∉ w := by
  have hall := List.all_eq_true.mp brackets_checked w h
  simp only [Bool.and_eq_true, beq_iff_eq, Bool.not_eq_true'] at hall
  obtain ⟨⟨⟨hnumber, hhead⟩, hlast⟩, hdash⟩ := hall
  refine ⟨hnumber, hhead, hlast, fun hmem => ?_⟩
  rw [List.contains_iff_mem.mpr hmem] at hdash
  cases hdash

/-! ## numbers and addresses -/

/-- a byte value and a dot three times, and a byte value -/
def ipRe (U : Unicode) : Regex Char :=
  sequence [.boundary (wordChar U), .rep true 3 (some 3) (.seq byteValue dot), byteValue,
    .boundary (wordChar U)]

def ssnRe (U : Unicode) : Regex Char :=
  sequence [.boundary (wordChar U), exactly 3 (digitChar U), literal ['-'],
    exactly 2 (digitChar U), literal ['-'], exactly 4 (digitChar U), .boundary (wordChar U)]

def creditCardRe (U : Unicode) : Regex Char :=
  oneOf (cardRe U [4, 4, 4, 4]) [cardRe U [4, 4, 4, 3], cardRe U [4, 6, 5]]

/-- the patterns that depend on the tables -/
theorem numbers_re (U : Unicode) : (((PATTERNS U).drop 24).take 5).map (·.re)
    = [privateIpRe U, ipRe U, ssnRe U, creditCardRe U, emailRe U] := rfl

/-- the first patterns and the last one do not depend on the tables -/
theorem patterns_take (U : Unicode) :
    (PATTERNS U).take 24 = (PATTERNS asciiTables).take 24 := rfl

theorem patterns_drop (U : Unicode) :
    (PATTERNS U).drop 29 = (PATTERNS asciiTables).drop 29 := rfl

section
variable {U : Unicode} {w : List Char}

theorem any_eq_false_of_contains {c : Char} (h : w.contains c = false) :
    w.any (· == c) = false := by
  rw [List.any_eq_false]
  intro d hd heq
  rw [eq_of_beq heq] at hd
  rw [List.contains_iff_mem.mpr hd] at h
  cases h

theorem any_digit (h : w.all (fun c => c.toNat < 128 && !c.isDigit) = true) :
    w.any (digitChar U) = false := by
  rw [List.any_eq_false]
  intro c hc hdigit
  have hplain := List.all_eq_true.mp h c hc
  simp only [Bool.and_eq_true, decide_eq_true_eq, Bool.not_eq_true'] at hplain
  rw [digitChar, if_pos hplain.1, hplain.2] at hdigit
  cases hdigit

/-- the patterns of numbers and addresses do not match within it -/
theorem numbers_within (h : noNumber w = true) :
    ∀ q ∈ ((PATTERNS U).drop 24).take 5, q.re.within w = false := by
  simp only [noNumber, Bool.and_eq_true, Bool.or_eq_true, Bool.not_eq_true'] at h
  obtain ⟨⟨⟨hdot, hat⟩, hdigit⟩, _⟩ := h
  have hdot := any_eq_false_of_contains hdot
  have hat := any_eq_false_of_contains hat
  have hnumber : w.any (digitChar U) = false ∨ w.any (· == '-') = false ∧
      w.any (fun c => c == ' ' || c == '-') = false := by
    obtain hdigit | ⟨hspace, hdash⟩ := hdigit
    · exact Or.inl (any_digit hdigit)
    · have hspace := any_eq_false_of_contains hspace
      have hdash := any_eq_false_of_contains hdash
      refine Or.inr ⟨hdash, ?_⟩
      rw [List.any_eq_false] at hspace hdash ⊢
      intro c hc
      simp only [hspace c hc, hdash c hc, Bool.or_self]
      exact Bool.false_ne_true
  have hcard : ∀ (n m : ℕ) (counts : List ℕ),
      (cardRe U ((n + 1) :: m :: counts)).within w = false := by
    intro n m counts
    obtain hdigit | ⟨_, hgap⟩ := hnumber
    · simp [cardRe, sequence, exactly, within, hdigit]
    · simp [cardRe, sequence, cardGap, List.intersperse, within, hgap]
  intro q hq
  have hre := List.mem_map_of_mem (f := (·.re)) hq
  rw [numbers_re] at hre
  simp only [List.mem_cons, List.not_mem_nil, or_false] at hre
  obtain hre | hre | hre | hre | hre := hre
  all_goals rw [hre]
  · simp [privateIpRe, sequence, oneOf, literal, dot, within, hdot]
  · simp [ipRe, sequence, byteValue, dot, within, hdot]
  · obtain hdigit | ⟨hdash, _⟩ := hnumber
    · simp [ssnRe, sequence, exactly, within, hdigit]
    · simp [ssnRe, sequence, literal, within, hdash]
  · simp [creditCardRe, oneOf, within, hcard]
  · simp [emailRe, sequence, literal, within, hat]

theorem numbers_mayTake (U : Unicode) : ∀ q ∈ ((PATTERNS U).drop 24).take 5,
    q.re.mayTake ']' = false ∧ q.re.mayTake '*' = false := by
  have hall : (((PATTERNS U).drop 24).take 5).all
    (fun q => !q.re.mayTake ']' && !q.re.mayTake '*') = true := rfl
  intro q hq
  simpa using List.all_eq_true.mp hall q hq

theorem numbers_skip (h : noNumber w = true) :
    ∀ q ∈ ((PATTERNS U).drop 24).take 5, q.re.Skips w := by
  intro q hq
  have hwithin := numbers_within h q hq
  obtain ⟨hclose, hstar⟩ := numbers_mayTake U q hq
  simp only [noNumber, Bool.and_eq_true, Bool.or_eq_true, beq_iff_eq] at h
  obtain hlast | hlast := h.2
  · exact skips_within hwithin hlast hclose
  · exact skips_within hwithin hlast hstar

/-! ## no match begins in a marker -/

/-- a pattern of the list that does not depend on the tables, or one of the others -/
theorem pattern_cases {p : Pattern} (hp : p ∈ PATTERNS U) :
    p ∈ (PATTERNS asciiTables).take 24 ∨ p ∈ ((PATTERNS U).drop 24).take 5 ∨
      p ∈ (PATTERNS asciiTables).drop 29 := by
  rw [← List.take_append_drop 24 (PATTERNS U), ← List.take_append_drop 5 ((PATTERNS U).drop 24),
    patterns_take, List.drop_drop, patterns_drop] at hp
  obtain hp | hp := List.mem_append.mp hp
  · exact Or.inl hp
  · exact Or.inr (List.mem_append.mp hp)

def tableless : List Pattern := (PATTERNS asciiTables).take 24 ++ (PATTERNS asciiTables).drop 29

theorem tableless_passes :
    (tableless.all fun p => brackets.all fun w => p.re.passes w) = true := by
  simp only [brackets, PATTERNS, List.map_cons, List.map_nil, marker_pat, marker_key,
    String.reduceToList]
  decide +kernel

/-- **No match begins in a marker.** -/
theorem skips_marker {p q : Pattern} (hp : p ∈ PATTERNS U) (hq : q ∈ PATTERNS U) :
    p.re.Skips q.marker := by
  have hw := mem_brackets hq
  have hpasses : p ∈ tableless → p.re.Skips q.marker := by
    intro hp
    exact skips_of_passes (List.all_eq_true.mp (List.all_eq_true.mp tableless_passes p hp) _ hw)
  obtain hp | hp | hp := pattern_cases hp
  · exact hpasses (List.mem_append_left _ hp)
  · exact numbers_skip (bracket_facts hw).1 p hp
  · exact hpasses (List.mem_append_right _ hp)

end

/-- what stands behind the first element with a property -/
theorem pairwise_behind {β : Type} {B : β → Prop} {k : ℕ} {l : List β}
    (h : ∀ p ∈ l.take k, ¬ B p) : l.Pairwise fun p q => B p → q ∈ l.drop (k + 1) := by
  induction l generalizing k with
  | nil => exact List.Pairwise.nil
  | cons a l ih =>
    cases k with
    | zero =>
      refine List.pairwise_cons.mpr ⟨fun q hq _ => hq, ?_⟩
      exact List.pairwise_of_forall_mem_list fun _ _ q hq _ => hq
    | succ k =>
      refine List.pairwise_cons.mpr ⟨fun q _ ha => absurd ha (h a List.mem_cons_self), ?_⟩
      exact ih fun p hp => h p (List.mem_cons_of_mem a hp)

end Moagan.Redact
