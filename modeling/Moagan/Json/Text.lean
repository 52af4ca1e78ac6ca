import Mathlib.Algebra.GroupWithZero.Nat
import Moagan.Lib.JsonSyntax

/-!
# Model answers as texts

A text is its list of characters.  Some passes of the source walk the UTF-8 bytes instead; every
byte they test is ASCII, and an ASCII byte never occurs inside a longer character, so they visit
the same stops when they walk the characters.  Where a byte pass looks at a byte that need not be
ASCII, it is modelled by the byte it sees (`isByteWhitespace`, `endsInByteWhitespace`).
-/

namespace Moagan
open Scanning

/-- `char::is_whitespace`: the property White_Space of Unicode -/
def isWhitespace (c : Char) : Bool :=
  let n := c.toNat
  (9 ≤ n && n ≤ 13) || n = 32 || n = 0x85 || n = 0xA0 || n = 0x1680 || (0x2000 ≤ n && n ≤ 0x200A)
    || n = 0x2028 || n = 0x2029 || n = 0x202F || n = 0x205F || n = 0x3000

/-- `u8::is_ascii_whitespace` -/
def isAsciiWhitespace (c : Char) : Bool :=
  c = ' ' || c = '\t' || c = '\n' || c = '\r' || c.toNat = 12

/-- `(b as char).is_whitespace()` for the first byte of a character: the lead bytes of the longer
characters are none of the two bytes 0x85 and 0xA0 that are whitespace in Latin-1 -/
def isByteWhitespace (c : Char) : Bool := (9 ≤ c.toNat && c.toNat ≤ 13) || c.toNat = 32

/-- `(b as char).is_whitespace()` for the last byte of a character; in a longer character this is
a continuation byte, 0x80 plus the low six bits -/
def endsInByteWhitespace (c : Char) : Bool :=
  if c.toNat < 128 then isByteWhitespace c else c.toNat % 64 = 5 || c.toNat % 64 = 32

/-- length in bytes -/
def utf8Len (t : Text) : Nat := (t.map Char.utf8Size).sum

@[simp] theorem utf8Len_nil : utf8Len [] = 0 := rfl

@[simp] theorem utf8Len_cons (c : Char) (t : Text) : utf8Len (c :: t) = c.utf8Size + utf8Len t := by
  simp [utf8Len]

@[simp] theorem utf8Len_append (a b : Text) : utf8Len (a ++ b) = utf8Len a + utf8Len b := by
  simp [utf8Len]

/-- the next character that is not whitespace -/
def nextSolid (t : Text) : Option Char := JsonSyntax.firstSolid isWhitespace t

theorem isWhitespace_of_isWs {c : Char} (h : JsonSyntax.isWs c = true) : isWhitespace c = true := by
  simp only [JsonSyntax.isWs, Bool.or_eq_true, decide_eq_true_eq] at h
  rcases h with ((rfl | rfl) | rfl) | rfl <;> rfl

/-- the characters tokens start with are printable ASCII -/
theorem isSolid_range {c : Char} (h : JsonSyntax.isSolid c = true) :
    33 ≤ c.toNat ∧ c.toNat < 127 := by
  simp only [JsonSyntax.isSolid, JsonSyntax.isValueStart, JsonSyntax.isScalarStart,
    JsonSyntax.isDigit, Bool.or_eq_true, Bool.and_eq_true, decide_eq_true_eq] at h
  have e0 : '0'.toNat = 48 := rfl
  have e9 : '9'.toNat = 57 := rfl
  rcases h with (((((((h | h) | h) | h) | h) | h) | h) | h)
  all_goals first
    | (subst h; decide)
    | skip
  rcases h with ((((h | h) | h) | h) | h)
  all_goals first
    | (subst h; decide)
    | omega

theorem not_isWhitespace_of_isSolid {c : Char} (h : JsonSyntax.isSolid c = true) :
    isWhitespace c = false := by
  have hr := isSolid_range h
  simp only [isWhitespace, Bool.or_eq_false_iff, Bool.and_eq_false_iff, decide_eq_false_iff_not]
  omega

theorem isScalarChar_range {c : Char} (h : JsonSyntax.isScalarChar c = true) :
    43 ≤ c.toNat ∧ c.toNat < 127 := by
  simp only [JsonSyntax.isScalarChar, JsonSyntax.isAlpha, JsonSyntax.isDigit, Bool.or_eq_true,
    Bool.and_eq_true, decide_eq_true_eq] at h
  have e0 : '0'.toNat = 48 := rfl
  have e9 : '9'.toNat = 57 := rfl
  have ea : 'a'.toNat = 97 := rfl
  have ez : 'z'.toNat = 122 := rfl
  have eA : 'A'.toNat = 65 := rfl
  have eZ : 'Z'.toNat = 90 := rfl
  rcases h with (((h | h) | rfl) | rfl) | rfl
  · omega
  · omega
  · decide
  · decide
  · decide

end Moagan
