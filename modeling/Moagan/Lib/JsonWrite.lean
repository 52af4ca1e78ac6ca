import Mathlib.Data.Nat.Notation
import Mathlib.Tactic.IntervalCases
import Moagan.Lib.Scan

/-!
# Writing JSON without whitespace

* `quoted`             a string between its quotes, with its escapes
* `object`, `array`    the text of an object from its keys and written members, of an array
* `quoted_append`      a written string is read back from the front of a text
* `object_second`      two objects that open with a string agree on their second key
* `object_sublist`     an object with fewer of the same fields is another text
-/

namespace JsonWrite
open Scanning

/-! ## strings -/

def hexDigit (n : ℕ) : Char := "0123456789abcdef".toList.getD n '0'

/-- quotes, backslashes and the characters below 32 are escaped -/
def escape (c : Char) : Text :=
  if c = '"' then ['\\', '"']
  else if c = '\\' then ['\\', '\\']
  else if c = '\x08' then ['\\', 'b']
  else if c = '\t' then ['\\', 't']
  else if c = '\n' then ['\\', 'n']
  else if c = '\x0c' then ['\\', 'f']
  else if c = '\r' then ['\\', 'r']
  else if c.toNat < 32 then ['\\', 'u', '0', '0', hexDigit (c.toNat / 16), hexDigit (c.toNat % 16)]
  else [c]

def quoted (s : String) : Text := '"' :: (s.toList.flatMap escape ++ ['"'])

def hexValue (c : Char) : ℕ := if c.toNat < 58 then c.toNat - 48 else c.toNat - 87

def unescape (c : Char) : Char :=
  if c = 'b' then '\x08' else if c = 't' then '\t' else if c = 'n' then '\n'
  else if c = 'f' then '\x0c' else if c = 'r' then '\r' else c

/-- the first character of the rest of a string, none at its closing quote -/
def readChar : Text → Option (Char × Text)
  | '\\' :: 'u' :: _ :: _ :: a :: b :: t => some (Char.ofNat (16 * hexValue a + hexValue b), t)
  | '\\' :: c :: t => some (unescape c, t)
  | '"' :: _ => none
  | c :: t => some (c, t)
  | [] => none

theorem readChar_control (n : ℕ) (h : n < 32) (t : Text) :
    readChar (escape (Char.ofNat n) ++ t) = some (Char.ofNat n, t) := by
  interval_cases n <;> rfl

theorem readChar_escape (c : Char) (t : Text) : readChar (escape c ++ t) = some (c, t) := by
  by_cases hlow : c.toNat < 32
  · have := readChar_control c.toNat hlow t
    rwa [Char.ofNat_toNat] at this
  by_cases hq : c = '"'
  · subst hq
    rfl
  by_cases hb : c = '\\'
  · subst hb
    rfl
  -- every other escape is of a character below 32
  have plain : escape c = [c] := by
    unfold escape
    rw [if_neg hq, if_neg hb, if_neg, if_neg, if_neg, if_neg, if_neg, if_neg hlow] <;>
    · intro h
      subst h
      exact hlow (by decide)
  rw [plain, List.singleton_append, readChar]
  · intro _ _ _ _ _ h
    exact absurd h hb
  · intro _ _ h
    exact absurd h hb
  · exact hq

theorem escaped_append {s t : List Char} {r q : Text}
    (h : s.flatMap escape ++ '"' :: r = t.flatMap escape ++ '"' :: q) : s = t ∧ r = q := by
  induction s generalizing t with
  | nil =>
    cases t with
    | nil => exact ⟨rfl, (List.cons.inj h).2⟩
    | cons d t =>
      have hread := congrArg readChar h
      rw [List.flatMap_cons, List.append_assoc, readChar_escape] at hread
      cases hread
  | cons c s ih =>
    have hread := congrArg readChar h
    rw [List.flatMap_cons, List.append_assoc, readChar_escape] at hread
    cases t with
    | nil => cases hread
    | cons d t =>
      rw [List.flatMap_cons, List.append_assoc, readChar_escape] at hread
      obtain ⟨hcd, hrest⟩ := Prod.mk.inj (Option.some.inj hread)
      obtain ⟨hst, hrq⟩ := ih hrest
      exact ⟨by rw [hcd, hst], hrq⟩

/-- **A written string ends at its own quote, and is read back.** -/
theorem quoted_append {s t : String} {r q : Text} (h : quoted s ++ r = quoted t ++ q) :
    s = t ∧ r = q := by
  unfold quoted at h
  rw [List.cons_append, List.cons_append, List.append_assoc, List.append_assoc] at h
  obtain ⟨hst, hrq⟩ := escaped_append (List.cons.inj h).2
  exact ⟨String.toList_inj.mp hst, hrq⟩

/-! ## objects and arrays -/

/-- a key and its written member -/
abbrev Field := String × Text

def field (f : Field) : Text := quoted f.1 ++ ':' :: f.2

/-- the fields behind the first one, and the closing brace -/
def members : List Field → Text
  | [] => ['\x7d']
  | f :: fs => ',' :: (field f ++ members fs)

def object : List Field → Text
  | [] => ['\x7b', '\x7d']
  | f :: fs => '\x7b' :: (field f ++ members fs)

def array (items : List Text) : Text := '[' :: ([','].intercalate items ++ [']'])

/-- **Two objects that open with a string agree on their second key.** -/
theorem object_second {k l l' a b : String} {v w : Text} {fs gs : List Field}
    (h : object ((k, quoted a) :: (l, v) :: fs) = object ((k, quoted b) :: (l', w) :: gs)) :
    l = l' := by
  simp only [object, members, field, List.append_assoc, List.cons_append, List.cons.injEq,
    true_and] at h
  have hvalue := (quoted_append h).2
  have hrest := (quoted_append (List.cons.inj hvalue).2).2
  exact (quoted_append (List.cons.inj hrest).2).1

theorem members_append (pre : List Field) {fs gs : List Field}
    (h : members (pre ++ fs) = members (pre ++ gs)) : members fs = members gs := by
  induction pre with
  | nil => exact h
  | cons f pre ih =>
    simp only [List.cons_append, members, List.cons.injEq, true_and] at h
    exact ih (List.append_cancel_left h)

/-- equal objects with equal first fields are equal behind them -/
theorem object_append {f : Field} (pre : List Field) {fs gs : List Field}
    (h : object (f :: (pre ++ fs)) = object (f :: (pre ++ gs))) : members fs = members gs := by
  unfold object at h
  exact members_append pre (List.append_cancel_left (List.cons.inj h).2)

theorem length_members_cons (f : Field) (fs : List Field) :
    (members (f :: fs)).length = 1 + (field f).length + (members fs).length := by
  simp only [members, List.length_cons, List.length_append]
  omega

theorem length_object (f : Field) (fs : List Field) :
    (object (f :: fs)).length = (members (f :: fs)).length := by
  simp only [members, object, List.length_cons]

theorem length_members_sublist {fs gs : List Field} (h : fs.Sublist gs) :
    (members fs).length ≤ (members gs).length ∧
      (fs ≠ gs → (members fs).length < (members gs).length) := by
  induction h with
  | slnil => exact ⟨Nat.le_refl _, fun h => absurd rfl h⟩
  | cons f _ ih =>
    rw [length_members_cons]
    exact ⟨by omega, fun _ => by omega⟩
  | cons_cons f _ ih =>
    rw [length_members_cons, length_members_cons]
    refine ⟨by omega, fun hne => ?_⟩
    have := ih.2 fun heq => hne (by rw [heq])
    omega

/-- **An object with fewer of the same fields is another text.** -/
theorem object_sublist {f : Field} {fs gs : List Field} (h : fs.Sublist gs) :
    object (f :: fs) = object (f :: gs) ↔ fs = gs := by
  refine ⟨fun heq => ?_, fun heq => by rw [heq]⟩
  by_contra hne
  have hlt := (length_members_sublist h).2 hne
  have hlen := congrArg List.length heq
  rw [length_object, length_object, length_members_cons, length_members_cons] at hlen
  omega

end JsonWrite
