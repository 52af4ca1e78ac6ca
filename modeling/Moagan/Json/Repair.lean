import Moagan.Json.Text

/-!
# The m3 repair chain (`src/phases/util.rs`, `src/phases/json_fragment.rs`)

* `repairMissingOpenBrace`       prepend `{` to an answer that starts with a bare `"key":`
* `repairStrayCommaAfterKey`     drop a `,` in front of a `:`
* `repairMissingColon`           insert `:` between a literal and the `[` or `{` behind it
* `repairMissingSeparators`      insert `,` or `:` between values, drop a trailing `,`
* `repairOneMissingBracket`      one missing closer
* `repairBracketsIterative`      up to three closers, with a parse after each
* `repairM3BracketsWithTrace`    the chain

The passes are scanners (`Scan`): lexical position, text written, and the state of the pass.  The
source's `in_string` with its two-character copy of an escape is the lexical position; its
`escape` flag is never set.  `serde_json::from_str::<Value>(t).is_ok()` is the parameter `parses`.
-/

namespace Moagan
open Scanning

/-- `RepairKind` -/
inductive RepairKind where
  | openBrace
  | separator
  | colon
  | bracket
  | quote
deriving DecidableEq, Repr

structure RepairTrace where
  kind : RepairKind
  bytesBefore : Nat
  bytesAfter : Nat
deriving DecidableEq, Repr

/-! ## the missing opening brace -/

/-- step 1: an optional BOM (skipped text, rest) -/
def stripBom : Text → Text × Text
  | c :: rest => if c = '\uFEFF' then ([c], rest) else ([], c :: rest)
  | [] => ([], [])

/-- how the walk over the comments in front stands: between comments, in a line comment, in a
block comment -/
inductive CommentPos where
  | outside
  | line
  | block

/-- step 2: comments at the front; an unclosed block comment reaches to the end of the text -/
def skipComments : CommentPos → Text → Text × Text
  | .outside, '/' :: '/' :: rest =>
    let (skipped, rest) := skipComments .line rest
    ('/' :: '/' :: skipped, rest)
  | .outside, '/' :: '*' :: rest =>
    let (skipped, rest) := skipComments .block rest
    ('/' :: '*' :: skipped, rest)
  -- the newline that ends a line comment is not part of it, and no comment starts there
  | .line, '\n' :: rest => ([], '\n' :: rest)
  | .block, '*' :: '/' :: rest =>
    let (skipped, rest) := skipComments .outside rest
    ('*' :: '/' :: skipped, rest)
  | .outside, rest => ([], rest)
  | m, c :: rest =>
    let (skipped, rest) := skipComments m rest
    (c :: skipped, rest)
  | _, [] => ([], [])

/-- step 3: the first `"`, unless a `{` or `[` comes before it; the source's fast-forward over a
sentence stops at these characters and at newlines, from where it goes on -/
def seekKey : Text → Option (Text × Text)
  | [] => none
  | c :: rest =>
    if c = '{' ∨ c = '[' then none
    else if c = '"' then some ([], c :: rest)
    else (seekKey rest).map fun (skipped, rest) => (c :: skipped, rest)

/-- step 4: what follows the quote that ends the key -/
def afterKey : Text → Option Text
  | '\\' :: _ :: rest => afterKey rest
  | '"' :: rest => some rest
  | _ :: rest => afterKey rest
  | [] => none

/-- step 5: a colon behind the key -/
def colonFollows (t : Text) : Bool := (t.dropWhile isByteWhitespace).head? = some ':'

def repairMissingOpenBrace (s : Text) : Option Text :=
  let (bom, rest) := stripBom s
  let (comments, rest) := skipComments .outside rest
  match seekKey rest with
  | none => none
  | some (prose, key) =>
    match afterKey key.tail with
    | none => none
    | some rest => if colonFollows rest then some (bom ++ comments ++ prose ++ '{' :: key) else none

/-- `inserted_at`: length of the common prefix -/
def insertedAt : Text → Text → Nat
  | a :: as, b :: bs => if a = b then insertedAt as bs + 1 else 0
  | _, _ => 0

/-- the loop of `closes_object` -/
def closesFrom : Nat → Lex → Text → Bool
  | _, _, [] => false
  | depth, .code, b :: bs =>
    if b = '{' ∨ b = '[' then closesFrom (depth + 1) .code bs
    else if b = '}' ∨ b = ']' then depth - 1 = 0 || closesFrom (depth - 1) .code bs
    else closesFrom depth (Lex.next .code b) bs
  | depth, m, b :: bs => closesFrom depth (m.next b) bs

def closesObject (s : Text) (opening : Nat) : Bool :=
  (s.drop opening).head? = some '{' && closesFrom 0 .code (s.drop opening)

/-! ## the stray comma after a key -/

/-- `skipping`: between a dropped comma and the colon behind it -/
structure StrayComma where
  skipping : Bool
  changed : Bool
deriving DecidableEq, Repr

def strayCommaStep (s : Scan StrayComma) (c : Char) (rest : Text) : Scan StrayComma :=
  if s.lex ≠ .code then s.push c
  else if s.aux.skipping ∧ isWhitespace c then s
  else if c = ',' ∧ nextSolid rest = some ':' then { s with aux := ⟨true, true⟩ }
  else { s with aux := { s.aux with skipping := false } }.push c

def repairStrayCommaAfterKey (s : Text) : Option Text :=
  let r := walk strayCommaStep ⟨.code, [], ⟨false, false⟩⟩ s
  if r.aux.changed then some r.out else none

/-! ## the missing colon -/

/-- `aux`: something was inserted -/
def missingColonStep (s : Scan Bool) (c : Char) (rest : Text) : Scan Bool :=
  if s.lex = .str ∧ c = '"' ∧ (nextSolid rest = some '[' ∨ nextSolid rest = some '{') then
    { s.push c with out := (s.push c).out ++ [':'], aux := true }
  else s.push c

def repairMissingColon (s : Text) : Option Text :=
  let r := walk missingColonStep ⟨.code, [], false⟩ s
  -- an unterminated literal is left to the next pass
  if r.lex = .code ∧ r.aux then some r.out else none

/-! ## missing separators -/

/-- `Frame` -/
inductive Frame where
  | object (expectingKey : Bool)
  | array
deriving DecidableEq, Repr

/-- `stack`: open containers, innermost first, each with `has_value` -/
structure Separators where
  stack : List (Frame × Bool)
  changed : Bool
deriving DecidableEq, Repr

/-- mark that the innermost container has seen a value -/
def markValue : List (Frame × Bool) → List (Frame × Bool)
  | (f, _) :: st => (f, true) :: st
  | [] => []

/-- set `expecting_key` of an innermost object -/
def setExpectingKey (b : Bool) : List (Frame × Bool) → List (Frame × Bool)
  | (.object _, v) :: st => (.object b, v) :: st
  | st => st

/-- a colon is due behind a literal: it is a key, or no container is open and a colon comes -/
def expectColon (stack : List (Frame × Bool)) (next : Char) : Bool :=
  match stack with
  | (.object true, _) :: _ => true
  | [] => next = ':'
  | _ => false

/-- what happens behind the closing quote of a literal -/
def afterLiteral (s : Scan Separators) (rest : Text) : Scan Separators :=
  let stack := markValue s.aux.stack
  match nextSolid rest with
  | none => { s with aux := { s.aux with stack } }
  | some next =>
    let want := if expectColon stack next then ':' else ','
    if next ≠ want ∧ next ≠ ']' ∧ next ≠ '}' then
      { s with out := s.out ++ [want], aux := ⟨setExpectingKey (want = ',') stack, true⟩ }
    else if next = want ∧ expectColon stack next then
      { s with aux := { s.aux with stack := setExpectingKey false stack } }
    else { s with aux := { s.aux with stack } }

/-- the value before the whitespace is closed and another one starts behind it -/
def commaMissing (s : Scan Separators) (rest : Text) : Bool :=
  (match s.aux.stack with | (_, hasValue) :: _ => hasValue | [] => false) &&
  (nextSolid rest = some '"' || nextSolid rest = some '{' || nextSolid rest = some '[') &&
  (s.out.getLast? = some '}' || s.out.getLast? = some ']')

def separatorStep (s : Scan Separators) (c : Char) (rest : Text) : Scan Separators :=
  if s.lex ≠ .code then
    if s.lex = .str ∧ c = '"' then afterLiteral (s.push c) rest else s.push c
  else if c = '{' then
    { s with aux := { s.aux with stack := (.object true, false) :: s.aux.stack } }.push c
  else if c = '[' then
    { s with aux := { s.aux with stack := (.array, false) :: s.aux.stack } }.push c
  else if c = '}' ∨ c = ']' then
    let stack := markValue s.aux.stack.tail
    -- a trailing comma goes
    if s.out.getLast? = some ',' then
      let s' : Scan Separators := { s with out := s.out.dropLast, aux := ⟨stack, true⟩ }
      s'.push c
    else { s with aux := { s.aux with stack } }.push c
  else if c = ',' then
    { s with aux := { s.aux with stack := setExpectingKey true s.aux.stack } }.push c
  else if c = ':' then
    { s with aux := { s.aux with stack := setExpectingKey false s.aux.stack } }.push c
  else if isWhitespace c ∧ commaMissing s rest then
    { s with out := s.out ++ [','], aux := { s.aux with changed := true } }.push c
  else s.push c

def repairMissingSeparators (s : Text) : Option Text :=
  let r := walk separatorStep ⟨.code, [], ⟨[], false⟩⟩ s
  -- unclosed containers are left to the bracket repair
  if r.lex = .code ∧ r.aux.stack = [] ∧ r.aux.changed then some r.out else none

/-! ## brackets -/

def closer (o : Char) : Char := if o = '{' then '}' else ']'

/-- `stack`: open brackets, innermost first; `returned`: the early returns of the walk -/
structure Brackets where
  stack : Text
  returned : Option (Option Text)
deriving DecidableEq, Repr

/-- a closer that does not match: one closer for the innermost bracket, then the model's, and the
walk returns what it wrote so far -/
def mismatched (s : Scan Brackets) (c : Char) : Option Text :=
  match s.aux.stack with
  | top :: next :: _ => if closer next = c then some (s.out ++ [closer top, c]) else none
  | _ => none

def bracketStep (s : Scan Brackets) (c : Char) (_rest : Text) : Scan Brackets :=
  if s.aux.returned.isSome then s
  else if s.lex ≠ .code then s.push c
  else if c = '{' ∨ c = '[' then
    { s with aux := { s.aux with stack := c :: s.aux.stack } }.push c
  else if c = '}' ∨ c = ']' then
    if s.aux.stack.head?.map closer = some c then
      { s with aux := { s.aux with stack := s.aux.stack.tail } }.push c
    else { s with aux := { s.aux with returned := some (mismatched s c) } }
  else s.push c

/-- `out` without a trailing comma -/
def popComma (out : Text) : Text := if out.getLast? = some ',' then out.dropLast else out

def repairOneMissingBracket (s : Text) : Option Text :=
  let r := walk bracketStep ⟨.code, [], ⟨[], none⟩⟩ s
  match r.aux.returned with
  | some result => result
  | none =>
    if r.lex ≠ .code then none
    else match r.aux.stack with
      | [] => some s
      | top :: _ => some (popComma r.out ++ [closer top])

/-- `last` is `last_repaired`; the result carries the events of the passes that added a closer -/
def repairBracketsIterative (parses : Text → Bool) :
    Nat → Text → Option Text → Option Text × List RepairTrace
  | 0, current, last => (last.or (some current), [])
  | n + 1, current, last =>
    match repairOneMissingBracket current with
    | none => (none, [])
    | some repaired =>
      if repaired = current then (last.or (some current), [])
      else
        let ev : RepairTrace := ⟨.bracket, utf8Len current, utf8Len repaired⟩
        if parses repaired then (some repaired, [ev])
        else
          let (res, evs) := repairBracketsIterative parses n repaired (some repaired)
          (res, ev :: evs)

/-- `DEFAULT_BRACKET_REPAIR_MAX_ITERS` -/
def defaultBracketRepairMaxIters : Nat := 3

/-! ## the chain -/

/-- one pass of the chain: the patched text counts when its length differs -/
def applyPass (kind : RepairKind) (pass : Text → Option Text) (st : Text × List RepairTrace) :
    Text × List RepairTrace :=
  match pass st.1 with
  | some patched =>
    if utf8Len patched ≠ utf8Len st.1 then
      (patched, st.2 ++ [⟨kind, utf8Len st.1, utf8Len patched⟩])
    else st
  | none => st

/-- the answer is a fragment: the brace it gets would not be closed -/
def isFragment (s : Text) : Bool :=
  match repairMissingOpenBrace s with
  | some patched => utf8Len patched ≠ utf8Len s && !closesObject patched (insertedAt s patched)
  | none => false

/-- the passes between the fragment check and the brackets -/
def separatorPasses (st : Text × List RepairTrace) : Text × List RepairTrace :=
  applyPass .separator repairMissingSeparators
    (applyPass .colon repairMissingColon (applyPass .separator repairStrayCommaAfterKey st))

def repairM3BracketsWithTrace (parses : Text → Bool) (s : Text) : Option Text × List RepairTrace :=
  if isFragment s then (none, [])
  else
    let (current, events) := separatorPasses (applyPass .openBrace repairMissingOpenBrace (s, []))
    let (result, evs) := repairBracketsIterative parses defaultBracketRepairMaxIters current none
    (result, events ++ evs)

end Moagan
