import Mathlib.Data.List.Basic

/-!
# Scanning a text that contains string literals

A scanner reads a text from left to right.  Whether a character is code or belongs to a string
literal is decided by the characters before it only:

* `Lex`, `Lex.next`   code, inside a literal, behind a backslash inside a literal;
* `walk`              a loop whose body sees the current element and the elements after it;
* `walk_inv`          what one round of the loop keeps, the loop keeps;
* `Scan`              the state of a scanner that copies its input: the lexical position, the
                      text written so far and whatever else the scanner keeps;
* `Scan.walk_inside`  a scanner that copies literals verbatim runs over the body of a literal.
-/

namespace Scanning

abbrev Text := List Char

/-! ## the lexical position -/

inductive Lex where
  | code
  | str
  | esc
deriving DecidableEq, Repr

def Lex.next : Lex → Char → Lex
  | .code, c => if c = '"' then .str else .code
  | .str, c => if c = '\\' then .esc else if c = '"' then .code else .str
  | .esc, _ => .str

theorem Lex.next_code_of_ne {c : Char} (h : c ≠ '"') : Lex.next .code c = .code := if_neg h

theorem Lex.next_code_quote : Lex.next .code '"' = .str := rfl

theorem Lex.next_str_quote : Lex.next .str '"' = .code := rfl

/-- a character other than the quote leads to code from code only -/
theorem Lex.code_of_next {m : Lex} {c : Char} (hc : c ≠ '"') (h : m.next c = .code) : m = .code := by
  cases m with
  | code => rfl
  | str =>
    by_cases h1 : c = '\\'
    · simp [Lex.next, h1] at h
    · simp [Lex.next, h1, hc] at h
  | esc => simp [Lex.next] at h

/-! ## loops with look-ahead -/

section
variable {σ α : Type*}

/-- the loop whose body sees the current element and the elements after it -/
def walk (step : σ → α → List α → σ) : σ → List α → σ
  | s, [] => s
  | s, a :: rest => walk step (step s a rest) rest

@[simp] theorem walk_nil (step : σ → α → List α → σ) (s : σ) : walk step s [] = s := rfl

@[simp] theorem walk_cons (step : σ → α → List α → σ) (s : σ) (a : α) (rest : List α) :
    walk step s (a :: rest) = walk step (step s a rest) rest := rfl

/-- What one round keeps (about the elements read so far and the state), the loop keeps. -/
theorem walk_inv (step : σ → α → List α → σ) (I : List α → σ → Prop)
    (hstep : ∀ l s a rest, I l s → I (l ++ [a]) (step s a rest)) (rest : List α) :
    ∀ l s, I l s → I (l ++ rest) (walk step s rest) := by
  induction rest with
  | nil => intro l s h; simpa using h
  | cons a rest ih =>
    intro l s h
    have h' := ih (l ++ [a]) (step s a rest) (hstep l s a rest h)
    simpa using h'

end

/-! ## scanners that copy their input -/

/-- lexical position, text written so far, and what else the scanner keeps -/
structure Scan (ε : Type) where
  lex : Lex
  out : Text
  aux : ε
deriving DecidableEq, Repr

section
variable {ε : Type}

/-- copy the current character -/
def Scan.push (s : Scan ε) (c : Char) : Scan ε :=
  { s with lex := s.lex.next c, out := s.out ++ [c] }

@[simp] theorem Scan.push_lex (s : Scan ε) (c : Char) : (s.push c).lex = s.lex.next c := rfl
@[simp] theorem Scan.push_out (s : Scan ε) (c : Char) : (s.push c).out = s.out ++ [c] := rfl
@[simp] theorem Scan.push_aux (s : Scan ε) (c : Char) : (s.push c).aux = s.aux := rfl

/-- copy a text -/
def Scan.pushAll (s : Scan ε) (t : Text) : Scan ε := t.foldl Scan.push s

@[simp] theorem Scan.pushAll_nil (s : Scan ε) : s.pushAll [] = s := rfl
@[simp] theorem Scan.pushAll_cons (s : Scan ε) (c : Char) (t : Text) :
    s.pushAll (c :: t) = (s.push c).pushAll t := rfl

@[simp] theorem Scan.pushAll_out (s : Scan ε) (t : Text) : (s.pushAll t).out = s.out ++ t := by
  induction t generalizing s with
  | nil => simp
  | cons c t ih => rw [Scan.pushAll_cons, ih, Scan.push_out, List.append_assoc]; rfl

@[simp] theorem Scan.pushAll_aux (s : Scan ε) (t : Text) : (s.pushAll t).aux = s.aux := by
  induction t generalizing s with
  | nil => rfl
  | cons c t ih => rw [Scan.pushAll_cons, ih, Scan.push_aux]

/-- the lexical position behind a text -/
def lexAfter (m : Lex) (t : Text) : Lex := t.foldl Lex.next m

@[simp] theorem lexAfter_nil (m : Lex) : lexAfter m [] = m := rfl
@[simp] theorem lexAfter_cons (m : Lex) (c : Char) (t : Text) :
    lexAfter m (c :: t) = lexAfter (m.next c) t := rfl

theorem lexAfter_snoc (m : Lex) (t : Text) (c : Char) :
    lexAfter m (t ++ [c]) = (lexAfter m t).next c := by
  rw [lexAfter, List.foldl_append]; rfl

@[simp] theorem Scan.pushAll_lex (s : Scan ε) (t : Text) :
    (s.pushAll t).lex = lexAfter s.lex t := by
  induction t generalizing s with
  | nil => rfl
  | cons c t ih => rw [Scan.pushAll_cons, ih, Scan.push_lex]; rfl

theorem Scan.ext_fields {s t : Scan ε} (h1 : s.lex = t.lex) (h2 : s.out = t.out)
    (h3 : s.aux = t.aux) : s = t := by
  cases s; cases t; simp_all

/-! ## the body of a literal -/

/-- From position `m` the text stays inside one literal: no character of it closes the literal. -/
def Inside : Lex → Text → Prop
  | _, [] => True
  | .code, _ :: _ => False
  | .str, c :: t => c ≠ '"' ∧ Inside (Lex.next .str c) t
  | .esc, _ :: t => Inside .str t

/-- A scanner that copies the inside of literals verbatim runs over the body of a literal. -/
theorem Scan.walk_inside (step : Scan ε → Char → Text → Scan ε) (a : ε)
    (hstr : ∀ s c rest, s.aux = a → s.lex = .str → c ≠ '"' → step s c rest = s.push c)
    (hesc : ∀ s c rest, s.aux = a → s.lex = .esc → step s c rest = s.push c)
    (rest t : Text) :
    ∀ s : Scan ε, s.aux = a → Inside s.lex t →
      walk step s (t ++ rest) = walk step (s.pushAll t) rest := by
  induction t with
  | nil => intro s _ _; rfl
  | cons c t ih =>
    intro s ha h
    rw [List.cons_append, walk_cons, Scan.pushAll_cons]
    cases hm : s.lex with
    | code => rw [hm] at h; exact False.elim h
    | str =>
      rw [hm] at h
      rw [hstr s c _ ha hm h.1]
      exact ih (s.push c) ha (by rw [Scan.push_lex, hm]; exact h.2)
    | esc =>
      rw [hm] at h
      rw [hesc s c _ ha hm]
      exact ih (s.push c) ha (by rw [Scan.push_lex, hm]; exact h)

end

end Scanning
