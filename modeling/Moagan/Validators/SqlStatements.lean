import Moagan.Validators.SqlExpr

/-!
# The statements of the SQL validator (`src/validators/sql_validator.rs`)

* `parseStatement`   one statement, and nothing behind it
* `parseSelect`, `parseInsert`, `parseUpdate`, `parseDelete`, `parseCreate`, `parseAlter`
* `commaList`        the loop of every list: an item, and the next one behind a comma
* `dialectCheck`     the columns of a `CREATE TABLE` against the dialect

Texts are their bytes, as in the tokenizer.
-/

namespace Moagan.Sql

open Tokenizer

inductive Column where
  | star
  | expr (e : Expr)
deriving DecidableEq, Repr

abbrev TableRef := Bytes

inductive OrderDir where
  | asc | desc
deriving DecidableEq, Repr

structure ColumnDef where
  name : Bytes
  typeName : Bytes
  constraints : List Bytes
deriving DecidableEq, Repr

inductive AlterAction where
  | addColumn (column : ColumnDef)
  | renameTable (newName : Bytes)
deriving DecidableEq, Repr

inductive Statement where
  | select (distinct : Bool) (columns : List Column) (table : Option TableRef)
      (whereExpr : Option Expr) (orderBy : List (Column × OrderDir)) (limit : Option ℕ)
  | insert (table : Bytes) (columns : List Bytes) (rows : List (List Expr))
  | update (table : Bytes) (assignments : List (Bytes × Expr)) (whereExpr : Option Expr)
  | delete (table : Bytes) (whereExpr : Option Expr)
  | createTable (ifNotExists : Bool) (table : Bytes) (columns : List ColumnDef)
  | alterTable (table : Bytes) (action : AlterAction)
deriving DecidableEq, Repr

/-- what a production found in the place of what it wanted; without a position where the source
reports `0:0` -/
inductive StatementError where
  | token (e : ParseError)
  | expectedDmlDdl (found : Keyword) (line column : ℕ)
  | expectedKeyword (found : Option Tok) (line column : ℕ)
  | expectedIdent (found : Option Tok) (line column : ℕ)
  | expected (want : Tok) (found : Option Tok) (line column : ℕ)
  | invalidLimit (digits : Bytes)
  | expectedLimit (found : Option Tok)
  | invalidDefault (found : Option Tok)
  | expectedSize (found : Option Tok)
  | expectedAddOrRename (found : Option Tok)
  | trailing (extra : Tok) (line column : ℕ)
deriving DecidableEq, Repr

abbrev Production (α : Type) := Tokenizer → Except StatementError (α × Tokenizer)

/-! ## tokens -/

def next : Production (Option Tok) := fun t => t.nextToken.mapError .token

def peek (t : Tokenizer) : Except StatementError (Option Tok) := t.peekToken.mapError .token

/-- is the next token `want`? then it is taken -/
def accept (want : Tok) : Production Bool := fun t => do
  if (← peek t) = some want then
    let (_, s) ← next t
    .ok (true, s)
  else .ok (false, t)

/-- an item, when it is introduced by `want` -/
def optional {α : Type} (want : Tok) (item : Production α) : Production (Option α) := fun t => do
  let (found, s) ← accept want t
  if found then
    let (x, s) ← item s
    .ok (some x, s)
  else .ok (none, s)

def expectKeyword : Production Keyword := fun t => do
  match ← next t with
  | (some (.keyword kw), s) => .ok (kw, s)
  | (found, _) => .error (.expectedKeyword found t.line t.column)

def expectIdent : Production Bytes := fun t => do
  match ← next t with
  | (some (.ident name), s) => .ok (name, s)
  | (found, _) => .error (.expectedIdent found t.line t.column)

def expectPunct (want : Tok) : Production Unit := fun t => do
  let (found, s) ← next t
  if found = some want then .ok ((), s) else .error (.expected want found t.line t.column)

def expectKeywordOr (want : Keyword) : Production Unit := expectPunct (.keyword want)

/-! ## lists -/

/-- `loop { item; if comma { continue; } break; }` -/
def commaListWith {α : Type} (item : Production α) : ℕ → Production (List α)
  | 0, t => do
    let (x, s) ← item t
    .ok ([x], s)
  | fuel + 1, t => do
    let (x, s) ← item t
    let (more, s) ← accept .comma s
    if more then
      let (xs, s) ← commaListWith item fuel s
      .ok (x :: xs, s)
    else .ok ([x], s)

/-- every comma takes a byte -/
def commaList {α : Type} (item : Production α) : Production (List α) := fun t =>
  commaListWith item t.rest.length t

/-! ## queries and updates -/

def expression : Production Expr := fun t => (parseExpr t).mapError .token

def parseColumn : Production Column := fun t => do
  let (star, s) ← accept .star t
  if star then .ok (.star, s)
  else
    let (e, s) ← expression s
    .ok (.expr e, s)

def parseColumnList : Production (List Column) := commaList parseColumn

def parseOrderItem : Production (Column × OrderDir) := fun t => do
  let (col, s) ← parseColumn t
  let (asc, s) ← accept (.keyword .asc) s
  if asc then .ok ((col, .asc), s)
  else
    let (desc, s) ← accept (.keyword .desc) s
    .ok ((col, if desc then .desc else .asc), s)

/-- `str::parse::<i64>` on a number, which has no sign -/
def parseI64 (digits : Bytes) : Option ℕ :=
  if digits ≠ [] ∧ digits.all isAsciiDigit then
    let n := digits.foldl (fun n d => 10 * n + (d - ascii '0').toNat) 0
    if n < 2 ^ 63 then some n else none
  else none

def parseLimit : Production ℕ := fun t => do
  match ← next t with
  | (some (.number digits), s) =>
    match parseI64 digits with
    | some n => .ok (n, s)
    | none => .error (.invalidLimit digits)
  | (found, _) => .error (.expectedLimit found)

def parseWhere : Production (Option Expr) := optional (.keyword .where) expression

def parseOrderBy : Production (List (Column × OrderDir)) := fun t => do
  let (_, t) ← expectKeywordOr .by t
  commaList parseOrderItem t

/-- `SELECT [DISTINCT] <columns> FROM <table> [WHERE] [ORDER BY] [LIMIT]` -/
def parseSelect : Production Statement := fun t => do
  let (distinct, t) ← accept (.keyword .distinct) t
  let (columns, t) ← parseColumnList t
  let (table, t) ← optional (.keyword .from) expectIdent t
  let (whereExpr, t) ← parseWhere t
  let (orderBy, t) ← optional (.keyword .order) parseOrderBy t
  let (limit, t) ← optional (.keyword .limit) parseLimit t
  .ok (.select distinct columns table whereExpr (orderBy.getD []) limit, t)

/-- a list between parentheses, behind the opening one -/
def closedList {α : Type} (item : Production α) : Production (List α) := fun t => do
  let (xs, t) ← commaList item t
  let (_, t) ← expectPunct .rParen t
  .ok (xs, t)

def parseRow : Production (List Expr) := fun t => do
  let (_, t) ← expectPunct .lParen t
  closedList expression t

/-- `INSERT INTO <table> [(<cols>)] VALUES (<row>) [, (<row>)]` -/
def parseInsert : Production Statement := fun t => do
  let (_, t) ← expectKeywordOr .into t
  let (table, t) ← expectIdent t
  let (columns, t) ← optional .lParen (closedList expectIdent) t
  let (_, t) ← expectKeywordOr .values t
  let (rows, t) ← commaList parseRow t
  .ok (.insert table (columns.getD []) rows, t)

def parseAssignment : Production (Bytes × Expr) := fun t => do
  let (col, t) ← expectIdent t
  let (_, t) ← expectPunct .eq t
  let (val, t) ← expression t
  .ok ((col, val), t)

def parseUpdate : Production Statement := fun t => do
  let (table, t) ← expectIdent t
  let (_, t) ← expectKeywordOr .set t
  let (assignments, t) ← commaList parseAssignment t
  let (whereExpr, t) ← parseWhere t
  .ok (.update table assignments whereExpr, t)

def parseDelete : Production Statement := fun t => do
  let (_, t) ← expectKeywordOr .from t
  let (table, t) ← expectIdent t
  let (whereExpr, t) ← parseWhere t
  .ok (.delete table whereExpr, t)

/-! ## definitions -/

def toAsciiUppercase (b : UInt8) : UInt8 :=
  if ascii 'a' ≤ b ∧ b ≤ ascii 'z' then b - 32 else b

def parseSize : Production Bytes := fun t => do
  match ← next t with
  | (some (.number size), t) =>
    let (_, t) ← expectPunct .rParen t
    .ok (utf8 "(" ++ size ++ utf8 ")", t)
  | (found, _) => .error (.expectedSize found)

/-- `while let AUTOINCREMENT = peek_token(tok)`: what is pushed to the name of the type -/
def autoIncrementsWith : ℕ → Production Bytes
  | 0, t => .ok ([], t)
  | fuel + 1, t => do
    let (found, t) ← accept (.keyword .autoIncrement) t
    if found then
      let (more, t) ← autoIncrementsWith fuel t
      .ok (utf8 " AUTOINCREMENT" ++ more, t)
    else .ok ([], t)

def parseTypeName : Production Bytes := fun t => do
  let (first, t) ← expectIdent t
  let (size, t) ← optional .lParen parseSize t
  let (auto, t) ← autoIncrementsWith t.rest.length t
  .ok (first.map toAsciiUppercase ++ size.getD [] ++ auto, t)

def parseDefault : Production Bytes := fun t => do
  match ← next t with
  | (some (.string s), t) => .ok (utf8 "DEFAULT '" ++ s ++ utf8 "'", t)
  | (some (.number n), t) => .ok (utf8 "DEFAULT " ++ n, t)
  | (some (.keyword .null), t) => .ok (utf8 "DEFAULT NULL", t)
  | (found, _) => .error (.invalidDefault found)

/-- one round of the loop over the constraints; `none` ends it -/
def parseConstraint : Production (Option Bytes) := fun t => do
  match ← peek t with
  | some (.keyword .primary) =>
    let (_, t) ← next t
    let (_, t) ← expectKeywordOr .key t
    .ok (some (utf8 "PRIMARY KEY"), t)
  | some (.keyword .not) =>
    let (_, t) ← next t
    let (_, t) ← expectKeywordOr .null t
    .ok (some (utf8 "NOT NULL"), t)
  | some (.keyword .default) =>
    let (_, t) ← next t
    let (val, t) ← parseDefault t
    .ok (some val, t)
  | some (.keyword .autoIncrement) =>
    let (_, t) ← next t
    .ok (some (utf8 "AUTOINCREMENT"), t)
  | _ => .ok (none, t)

/-- every constraint takes a byte -/
def constraintsWith : ℕ → Production (List Bytes)
  | 0, t => .ok ([], t)
  | fuel + 1, t => do
    match ← parseConstraint t with
    | (some k, t) =>
      let (ks, t) ← constraintsWith fuel t
      .ok (k :: ks, t)
    | (none, t) => .ok ([], t)

def parseColumnDef : Production ColumnDef := fun t => do
  let (name, t) ← expectIdent t
  let (typeName, t) ← parseTypeName t
  let (constraints, t) ← constraintsWith t.rest.length t
  .ok (⟨name, typeName, constraints⟩, t)

def parseIfNotExists : Production Unit := fun t => do
  let (_, t) ← expectKeywordOr .not t
  expectKeywordOr .exists t

def parseCreate : Production Statement := fun t => do
  let (_, t) ← expectKeywordOr .table t
  let (ifNotExists, t) ← optional (.keyword .if) parseIfNotExists t
  let (table, t) ← expectIdent t
  let (_, t) ← expectPunct .lParen t
  let (columns, t) ← closedList parseColumnDef t
  .ok (.createTable ifNotExists.isSome table columns, t)

def parseAlter : Production Statement := fun t => do
  let (_, t) ← expectKeywordOr .table t
  let (table, t) ← expectIdent t
  match ← peek t with
  | some (.keyword .add) =>
    let (_, t) ← next t
    let (_, t) ← expectKeywordOr .column t
    let (col, t) ← parseColumnDef t
    .ok (.alterTable table (.addColumn col), t)
  | some (.keyword .rename) =>
    let (_, t) ← next t
    let (_, t) ← expectKeywordOr .to t
    let (newName, t) ← expectIdent t
    .ok (.alterTable table (.renameTable newName), t)
  | found => .error (.expectedAddOrRename found)

/-! ## one statement -/

def parseStatementInner : Production Statement := fun t => do
  match ← expectKeyword t with
  | (.select, t) => parseSelect t
  | (.insert, t) => parseInsert t
  | (.update, t) => parseUpdate t
  | (.delete, t) => parseDelete t
  | (.create, t) => parseCreate t
  | (.alter, t) => parseAlter t
  | (other, t) => .error (.expectedDmlDdl other t.line t.column)

def parseStatement (src : Bytes) : Except StatementError Statement := do
  let (stmt, t) ← parseStatementInner (new src)
  match ← next t with
  | (some extra, t) => .error (.trailing extra t.line t.column)
  | (none, _) => .ok stmt

/-! ## dialects -/

inductive Dialect where
  | sql | sqlite | postgres | mysql
deriving DecidableEq, Repr

/-- `type_name.contains("SERIAL")` -/
def ColumnDef.serial (c : ColumnDef) : Bool := utf8 "SERIAL" <:+: c.typeName

/-- `constraints.iter().any(|k| k == "AUTOINCREMENT")` -/
def ColumnDef.autoIncrement (c : ColumnDef) : Bool := utf8 "AUTOINCREMENT" ∈ c.constraints

/-- the message for a statement that does not belong to the dialect -/
def dialectCheck (dialect : Dialect) : Statement → Option String
  | .createTable _ _ columns =>
    match dialect with
    | .mysql =>
      if columns.any fun c => c.serial || c.autoIncrement then
        some "MySQL does not accept SERIAL / AUTOINCREMENT; use AUTO_INCREMENT"
      else none
    | .sqlite =>
      if columns.any ColumnDef.serial then
        some "SQLite does not accept the SERIAL pseudo-type; use INTEGER PRIMARY KEY"
      else none
    | .postgres =>
      if columns.any ColumnDef.autoIncrement then
        some "PostgreSQL does not accept AUTOINCREMENT; use SERIAL or GENERATED AS IDENTITY"
      else none
    | .sql =>
      if columns.any fun c => c.serial || c.autoIncrement then
        some "ANSI SQL does not accept SERIAL / AUTOINCREMENT; declare a dialect explicitly"
      else none
  | _ => none

end Moagan.Sql
