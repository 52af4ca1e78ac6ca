import Moagan.Json.Text

/-!
# The tolerant extractor (`src/llm/json_extractor.rs`)

* `findFirstJsonDelim`          the first `{` or `[` outside literals and comments that starts the
                                text or follows whitespace
* `looksLikeJsonAfterOpen`      the next solid byte can start the body
* `findBalancedEnd`             the end of the value, counting brackets of the one kind
* `extractTolerantJson`         the byte range of the first value
-/

namespace Moagan
open Scanning

/-- `ExtractError`, as far as the selection returns it -/
inductive ExtractError where
  | noJsonFound
  | unbalancedBraces
deriving DecidableEq, Repr

/-- where the scans stand: code or a literal, a line comment, a block comment -/
inductive Spot where
  | text (m : Lex)
  | line
  | block

/-- position, delimiter, and the text behind it; `prev` is the character before, unless the scan
starts here -/
def findFirstJsonDelim : Spot → Option Char → Nat → Text → Option (Nat × Char × Text)
  | .text .code, _, i, '/' :: '/' :: rest => findFirstJsonDelim .line (some '/') (i + 2) rest
  | .text .code, _, i, '/' :: '*' :: rest => findFirstJsonDelim .block (some '/') (i + 2) rest
  | .line, _, i, '\n' :: rest => findFirstJsonDelim (.text .code) (some '\n') (i + 1) rest
  | .block, _, i, '*' :: '/' :: rest => findFirstJsonDelim (.text .code) (some '/') (i + 2) rest
  | .text m, prev, i, c :: rest =>
    if m = .code ∧ (c = '{' ∨ c = '[') ∧ prev.all endsInByteWhitespace then some (i, c, rest)
    else findFirstJsonDelim (.text (m.next c)) (some c) (i + c.utf8Size) rest
  | spot, _, i, c :: rest => findFirstJsonDelim spot (some c) (i + c.utf8Size) rest
  | _, _, _, [] => none

def looksLikeJsonAfterOpen (rest : Text) (o : Char) : Bool :=
  match rest.dropWhile isByteWhitespace with
  | [] => false
  | b :: _ =>
    if o = '{' then b = '"' || b = '{' || b = '}'
    else b = '"' || b = '{' || b = '[' || b = ']' || b = '-' || b = '+' || b = '.' || b = 't'
      || b = 'f' || b = 'n' || JsonSyntax.isDigit b

/-- the position behind the closer that brings the depth to zero -/
def findBalancedEnd (o c : Char) : Spot → Nat → Nat → Text → Option Nat
  | .text .code, depth, i, '/' :: '/' :: rest => findBalancedEnd o c .line depth (i + 2) rest
  | .text .code, depth, i, '/' :: '*' :: rest => findBalancedEnd o c .block depth (i + 2) rest
  | .line, depth, i, '\n' :: rest => findBalancedEnd o c (.text .code) depth (i + 1) rest
  | .block, depth, i, '*' :: '/' :: rest => findBalancedEnd o c (.text .code) depth (i + 2) rest
  | .text .code, depth, i, b :: rest =>
    if b = o then findBalancedEnd o c (.text .code) (depth + 1) (i + b.utf8Size) rest
    else if b = c then
      if depth - 1 = 0 then some (i + b.utf8Size)
      else findBalancedEnd o c (.text .code) (depth - 1) (i + b.utf8Size) rest
    else findBalancedEnd o c (.text (Lex.next .code b)) depth (i + b.utf8Size) rest
  | .text m, depth, i, b :: rest =>
    findBalancedEnd o c (.text (m.next b)) depth (i + b.utf8Size) rest
  | spot, depth, i, b :: rest => findBalancedEnd o c spot depth (i + b.utf8Size) rest
  | _, _, _, [] => none

def extractTolerantJson (input : Text) : Except ExtractError (Nat × Nat) :=
  let (offset, rest) : Nat × Text :=
    match input with
    | c :: rest => if c = '\uFEFF' then (c.utf8Size, rest) else (0, input)
    | [] => (0, [])
  match findFirstJsonDelim (.text .code) none offset rest with
  | none => .error .noJsonFound
  | some (start, o, body) =>
    if looksLikeJsonAfterOpen body o then
      match findBalancedEnd o (if o = '{' then '}' else ']') (.text .code) 1 (start + o.utf8Size)
        body with
      | some stop => .ok (start, stop)
      | none => .error .unbalancedBraces
    else .error .unbalancedBraces

end Moagan
