import Moagan.Json.Repair

/-!
# Last-resort repairs (`src/phases/json_slips.rs`)

* `dropStrayClosers`     drop the closers that close nothing, and the one that closes the outermost
                         container while the text goes on
* `quoteBareStrings`     insert the opening quote of a string value written without one
* `repairSlips`          the two passes

The jumps of the second pass over a literal or a quoted run are the counter `copying`: that many
characters are copied before the loop looks at one again.
-/

namespace Moagan
open Scanning

/-! ## stray closers -/

/-- the text behind a complete value goes on as JSON -/
def continuesAfter (rest : Text) : Bool :=
  match JsonSyntax.firstSolid isAsciiWhitespace rest with
  | some c => c = ',' || c = ']' || c = '}'
  | none => false

structure StrayClosers where
  stack : Text
  dropped : Bool
deriving DecidableEq, Repr

def dropStrayStep (s : Scan StrayClosers) (c : Char) (rest : Text) : Scan StrayClosers :=
  if s.lex ≠ .code then s.push c
  else if c = '{' ∨ c = '[' then
    { s with aux := { s.aux with stack := c :: s.aux.stack } }.push c
  else if c = '}' ∨ c = ']' then
    let opener := if c = '}' then '{' else '['
    let closesOutermost := s.aux.stack.length = 1 ∧ continuesAfter rest
    if s.aux.stack.head? = some opener ∧ ¬ closesOutermost then
      { s with aux := { s.aux with stack := s.aux.stack.tail } }.push c
    else { s with aux := { s.aux with dropped := true } }
  else s.push c

def dropStrayClosers (s : Text) : Option Text :=
  let r := walk dropStrayStep ⟨.code, [], ⟨[], false⟩⟩ s
  if r.aux.dropped then some r.out else none

/-! ## literals -/

/-- length of the run of ASCII letters, digits, `+`, `-` and `.` in front -/
def literalEnd (t : Text) : Nat := (t.takeWhile JsonSyntax.isScalarChar).length

def stripSign : Text → Text
  | '+' :: t => t
  | '-' :: t => t
  | t => t

/-- an exponent, or nothing -/
def parsesExp : Text → Bool
  | [] => true
  | e :: t =>
    (e = 'e' || e = 'E') && (stripSign t ≠ [] && (stripSign t).all JsonSyntax.isDigit)

/-- digits with an optional point among them, and an optional exponent -/
def parsesDecimal (t : Text) : Bool :=
  let i := t.takeWhile JsonSyntax.isDigit
  match t.dropWhile JsonSyntax.isDigit with
  | '.' :: r =>
    (i ≠ [] || r.takeWhile JsonSyntax.isDigit ≠ []) && parsesExp (r.dropWhile JsonSyntax.isDigit)
  | r => i ≠ [] && parsesExp r

/-- `token.parse::<f64>().is_ok()` -/
def parsesF64 (t : Text) : Bool :=
  let body := stripSign t
  let lower := body.map Char.toLower
  lower = "inf".toList || lower = "infinity".toList || lower = "nan".toList || parsesDecimal body

/-- `true`, `false`, `null`, or a number that starts with a digit or `-` -/
def isLiteral (token : Text) : Bool :=
  token = "true".toList || token = "false".toList || token = "null".toList ||
    ((match token with | c :: _ => JsonSyntax.isDigit c || c = '-' | [] => false) &&
      parsesF64 token)

/-- the text ends here, or what comes next ends a value -/
def endsValue (t : Text) : Bool :=
  match JsonSyntax.firstSolid isAsciiWhitespace t with
  | some c => c = ',' || c = ']' || c = '}'
  | none => true

/-- index of the first quote on the line, when the value it closes ends there -/
def closingQuote (t : Text) : Option Nat :=
  match (t.takeWhile fun c => c ≠ '\n').findIdx? fun c => c = '"' with
  | some quote => if endsValue (t.drop (quote + 1)) then some quote else none
  | none => none

/-! ## bare strings -/

structure BareStrings where
  stack : Text
  expectValue : Bool
  changed : Bool
  copying : Nat
deriving DecidableEq, Repr

/-- what starts here is not a literal that ends where its value ends -/
def isBare (t : Text) : Bool :=
  !isLiteral (t.take (literalEnd t)) || !endsValue (t.drop (literalEnd t))

/-- a value position that does not start with a quote or a bracket -/
def bareValueStep (s : Scan BareStrings) (c : Char) (rest : Text) : Scan BareStrings :=
  match if isBare (c :: rest) then closingQuote (c :: rest) else none with
  | some quote =>
    { s with
      out := s.out ++ ['"', c]
      aux := { s.aux with expectValue := false, changed := true, copying := quote } }
  | none =>
    { s with
      out := s.out ++ [c]
      aux := { s.aux with expectValue := false, copying := max (literalEnd (c :: rest)) 1 - 1 } }

def quoteBareStep (s : Scan BareStrings) (c : Char) (rest : Text) : Scan BareStrings :=
  if 0 < s.aux.copying then
    { s with out := s.out ++ [c], aux := { s.aux with copying := s.aux.copying - 1 } }
  else if s.lex ≠ .code then s.push c
  else if isAsciiWhitespace c then s.push c
  else if s.aux.expectValue ∧ c ≠ '"' ∧ c ≠ '{' ∧ c ≠ '[' ∧ c ≠ '}' ∧ c ≠ ']' then
    bareValueStep s c rest
  else if c = '{' ∨ c = '[' then
    { s with aux := { s.aux with stack := c :: s.aux.stack, expectValue := c = '[' } }.push c
  else if c = '}' ∨ c = ']' then
    { s with aux := { s.aux with stack := s.aux.stack.tail, expectValue := false } }.push c
  else if c = ':' then
    { s with aux := { s.aux with expectValue := s.aux.stack.head? = some '{' } }.push c
  else if c = ',' then
    { s with aux := { s.aux with expectValue := s.aux.stack.head? = some '[' } }.push c
  else { s with aux := { s.aux with expectValue := false } }.push c

def quoteBareStrings (s : Text) : Option Text :=
  let r := walk quoteBareStep ⟨.code, [], ⟨[], false, false, 0⟩⟩ s
  if r.aux.changed then some r.out else none

/-! ## both -/

/-- the two repairs one after the other, with one event for each that changed the text -/
def repairSlips (s : Text) : Option Text × List RepairTrace :=
  let (current, events) : Option Text × List RepairTrace :=
    match dropStrayClosers s with
    | some patched => (some patched, [⟨.bracket, utf8Len s, utf8Len patched⟩])
    | none => (none, [])
  let base := current.getD s
  match quoteBareStrings base with
  | some patched => (some patched, events ++ [⟨.quote, utf8Len base, utf8Len patched⟩])
  | none => (current, events)

end Moagan
