import Mathlib.Data.List.TakeWhile
import Moagan.Lib.Checks
import Moagan.Validators.SqlStatements

/-!
# The definitions the SQL validator reads (`src/validators/sql_validator.rs`)

* `Ddl`                  the definitions of SQL: `CREATE TABLE`, `ADD COLUMN` and `RENAME`
* `Ddl.tokens`, `Ddl.statement`   their tokens, and the trees the parser builds
* `Ddl.readable`         the parser has productions for all of it
* `parseStatement_read`, `parseStatement_stuck`   exactly the readable ones are parsed
* `ddl_of_parseStatement`   and every definition that is parsed is one of them
-/

namespace Moagan.Sql

open Checks Tokenizer

/-! ## the definitions of SQL -/

inductive Literal where
  | string (text : Bytes)
  | number (digits : Bytes)
  | null
deriving DecidableEq, Repr

/-- `AUTOINCREMENT` is a reserved word of the tokenizer, `AUTO_INCREMENT` an identifier -/
inductive Constraint where
  | primaryKey
  | notNull
  | default (value : Literal)
  | autoincrement
  | auto_increment (word : Bytes) (h : word.map toAsciiLowercase = utf8 "auto_increment")
deriving DecidableEq, Repr

/-- `SERIAL` is a reserved word too -/
inductive TypeName where
  | named (name : Bytes) (size : Option Bytes)
  | serial
deriving DecidableEq, Repr

structure ColumnSyntax where
  name : Bytes
  type : TypeName
  constraints : List Constraint
deriving DecidableEq, Repr

inductive Ddl where
  | create (ifNotExists : Bool) (table : Bytes) (first : ColumnSyntax) (rest : List ColumnSyntax)
  | addColumn (table : Bytes) (column : ColumnSyntax)
  | rename (table newName : Bytes)
deriving DecidableEq, Repr

def Literal.tok : Literal → Tok
  | .string text => .string text
  | .number digits => .number digits
  | .null => .keyword .null

def Constraint.tokens : Constraint → List Tok
  | .primaryKey => [.keyword .primary, .keyword .key]
  | .notNull => [.keyword .not, .keyword .null]
  | .default value => [.keyword .default, value.tok]
  | .autoincrement => [.keyword .autoIncrement]
  | .auto_increment word _ => [.ident word]

def constraintTokens (ks : List Constraint) : List Tok := ks.flatMap Constraint.tokens

def sizeTokens : Option Bytes → List Tok
  | some digits => [.lParen, .number digits, .rParen]
  | none => []

def TypeName.tokens : TypeName → List Tok
  | .named name size => .ident name :: sizeTokens size
  | .serial => [.keyword .serial]

def ColumnSyntax.tokens (c : ColumnSyntax) : List Tok :=
  .ident c.name :: (c.type.tokens ++ constraintTokens c.constraints)

def columnTokens (first : ColumnSyntax) (rest : List ColumnSyntax) : List Tok :=
  first.tokens ++ rest.flatMap fun c => .comma :: c.tokens

def ifNotExistsTokens : Bool → List Tok
  | true => [.keyword .if, .keyword .not, .keyword .exists]
  | false => []

def Ddl.tokens : Ddl → List Tok
  | .create ifNotExists table first rest =>
    .keyword .create :: .keyword .table ::
      (ifNotExistsTokens ifNotExists ++ .ident table :: .lParen ::
        (columnTokens first rest ++ [.rParen]))
  | .addColumn table column =>
    .keyword .alter :: .keyword .table :: .ident table :: .keyword .add :: .keyword .column ::
      column.tokens
  | .rename table newName =>
    [.keyword .alter, .keyword .table, .ident table, .keyword .rename, .keyword .to,
      .ident newName]

def Ddl.columns : Ddl → List ColumnSyntax
  | .create _ _ first rest => first :: rest
  | .addColumn _ column => [column]
  | .rename _ _ => []

/-! ## the trees the parser builds -/

def Statement.isDdl : Statement → Bool
  | .createTable _ _ _ => true
  | .alterTable _ _ => true
  | _ => false

def Constraint.readable : Constraint → Bool
  | .auto_increment _ _ => false
  | _ => true

/-- there is no production for the reserved word `SERIAL`, and none for `AUTO_INCREMENT` -/
def ColumnSyntax.readable (c : ColumnSyntax) : Bool :=
  c.type ≠ .serial ∧ c.constraints.all Constraint.readable

def Ddl.readable (d : Ddl) : Bool := d.columns.all ColumnSyntax.readable

/-- the constraints behind the type; an `AUTOINCREMENT` next to it is taken for a part of it -/
def ColumnSyntax.behindType (c : ColumnSyntax) : List Constraint :=
  c.constraints.dropWhile (· = .autoincrement)

def Literal.text : Literal → Bytes
  | .string text => utf8 "DEFAULT '" ++ text ++ utf8 "'"
  | .number digits => utf8 "DEFAULT " ++ digits
  | .null => utf8 "DEFAULT NULL"

def Constraint.text : Constraint → Bytes
  | .primaryKey => utf8 "PRIMARY KEY"
  | .notNull => utf8 "NOT NULL"
  | .default value => value.text
  | .autoincrement => utf8 "AUTOINCREMENT"
  | .auto_increment word _ => word

def sizeText (digits : Bytes) : Bytes := utf8 "(" ++ digits ++ utf8 ")"

def autoText (ks : List Constraint) : Bytes :=
  (ks.takeWhile (· = .autoincrement)).flatMap fun _ => utf8 " AUTOINCREMENT"

def ColumnSyntax.typeText (c : ColumnSyntax) : Bytes :=
  match c.type with
  | .named name size =>
    name.map toAsciiUppercase ++ (size.map sizeText).getD [] ++ autoText c.constraints
  | .serial => []

def ColumnSyntax.columnDef (c : ColumnSyntax) : ColumnDef :=
  ⟨c.name, c.typeText, c.behindType.map Constraint.text⟩

def Ddl.statement : Ddl → Statement
  | .create ifNotExists table first rest =>
    .createTable ifNotExists table ((first :: rest).map ColumnSyntax.columnDef)
  | .addColumn table column => .alterTable table (.addColumn column.columnDef)
  | .rename table newName => .alterTable table (.renameTable newName)

/-! ## one token -/

section
variable {r s t : Tokenizer} {tok want : Tok} {toks : List Tok} {found : Option Tok}

theorem next_ok (h : t.nextToken = .ok (found, s)) : next t = .ok (found, s) := by
  unfold next
  rw [h]
  rfl

theorem peek_ok (h : t.peekToken = .ok found) : peek t = .ok found := by
  unfold peek
  rw [h]
  rfl

theorem peekToken_of_next (h : t.nextToken = .ok (found, s)) : t.peekToken = .ok found := by
  unfold peekToken
  rw [h]
  rfl

/-- what is seen can be read -/
theorem next_of_peekToken (h : t.peekToken = .ok found) : ∃ s, next t = .ok (found, s) := by
  unfold peekToken at h
  cases hn : t.nextToken with
  | error e =>
    rw [hn] at h
    cases h
  | ok p =>
    obtain ⟨tok, s⟩ := p
    rw [hn] at h
    obtain rfl := Except.ok.inj h
    exact ⟨s, next_ok hn⟩

theorem accept_taken (h : t.nextToken = .ok (some want, s)) : accept want t = .ok (true, s) := by
  unfold accept
  refine (bind_of_ok _ (peek_ok (peekToken_of_next h))).trans ?_
  refine (if_pos rfl).trans ?_
  exact bind_of_ok _ (next_ok h)

theorem accept_left (h : t.peekToken = .ok found) (hn : found ≠ some want) :
    accept want t = .ok (false, t) := by
  unfold accept
  refine (bind_of_ok _ (peek_ok h)).trans ?_
  exact if_neg hn

theorem optional_taken {α : Type} {item : Production α} {x : α}
    (h : t.nextToken = .ok (some want, r)) (hi : item r = .ok (x, s)) :
    optional want item t = .ok (some x, s) := by
  unfold optional
  refine (bind_of_ok _ (accept_taken h)).trans ?_
  exact bind_of_ok _ hi

theorem optional_left {α : Type} (item : Production α) (h : t.peekToken = .ok found)
    (hn : found ≠ some want) : optional want item t = .ok (none, t) := by
  unfold optional
  exact bind_of_ok _ (accept_left h hn)

theorem expectKeyword_ok {kw : Keyword} (h : t.nextToken = .ok (some (.keyword kw), s)) :
    expectKeyword t = .ok (kw, s) := by
  unfold expectKeyword
  exact bind_of_ok _ (next_ok h)

theorem expectIdent_ok {name : Bytes} (h : t.nextToken = .ok (some (.ident name), s)) :
    expectIdent t = .ok (name, s) := by
  unfold expectIdent
  exact bind_of_ok _ (next_ok h)

theorem expectIdent_keyword {kw : Keyword} (h : t.nextToken = .ok (some (.keyword kw), s)) :
    expectIdent t = .error (.expectedIdent (some (.keyword kw)) t.line t.column) := by
  unfold expectIdent
  exact bind_of_ok _ (next_ok h)

theorem expectPunct_ok (h : t.nextToken = .ok (some want, s)) :
    expectPunct want t = .ok ((), s) := by
  unfold expectPunct
  refine (bind_of_ok _ (next_ok h)).trans ?_
  exact if_pos rfl

theorem expectPunct_error (h : t.peekToken = .ok found) (hn : found ≠ some want) :
    expectPunct want t = .error (.expected want found t.line t.column) := by
  obtain ⟨s, hs⟩ := next_of_peekToken h
  unfold expectPunct
  refine (bind_of_ok _ hs).trans ?_
  exact if_neg hn

theorem expectKeywordOr_ok {kw : Keyword} (h : t.nextToken = .ok (some (.keyword kw), s)) :
    expectKeywordOr kw t = .ok ((), s) := expectPunct_ok h

end

/-! ## the name of a type -/

section
variable {r s t : Tokenizer} {found : Option Tok}

theorem optional_size {size : Option Bytes} (h : Reads t (sizeTokens size) s)
    (hp : s.peekToken = .ok found) (hf : found ≠ some .lParen) :
    optional .lParen parseSize t = .ok (size.map sizeText, s) := by
  cases size with
  | none =>
    obtain rfl := h
    exact optional_left parseSize hp hf
  | some digits =>
    obtain ⟨q, hq, r, hr, p, hclose, rfl⟩ := h
    refine optional_taken hq ?_
    unfold parseSize
    refine (bind_of_ok _ (next_ok hr)).trans ?_
    exact bind_of_ok _ (expectPunct_ok hclose)

/-! ## constraints -/

/-- constraints do not go on with a parenthesis -/
theorem constraints_peek {ks : List Constraint} (h : Reads t (constraintTokens ks) s)
    (hp : s.peekToken = .ok found) (hf : found ≠ some .lParen) :
    ∃ head, t.peekToken = .ok head ∧ head ≠ some .lParen := by
  cases ks with
  | nil =>
    obtain rfl := h
    exact ⟨found, hp, hf⟩
  | cons k ks =>
    cases k with
    | _ => exact ⟨_, h.peek, by simp⟩

theorem autoIncrements_read {ks : List Constraint} {fuel : ℕ}
    (h : Reads t (constraintTokens ks) s) (hp : s.peekToken = .ok found)
    (hf : found ≠ some (.keyword .autoIncrement)) (hfuel : t.rest.length ≤ fuel) :
    ∃ r, autoIncrementsWith fuel t = .ok (autoText ks, r) ∧
      Reads r (constraintTokens (ks.dropWhile (· = .autoincrement))) s := by
  induction ks generalizing t fuel with
  | nil =>
    obtain rfl := h
    refine ⟨t, ?_, rfl⟩
    cases fuel with
    | zero => rfl
    | succ fuel => exact bind_of_ok _ (accept_left hp hf)
  | cons k ks ih =>
    by_cases hk : k = .autoincrement
    · obtain rfl := hk
      obtain ⟨q, hq, h⟩ := h
      have hlt := (nextToken_behind hq).2
      cases fuel with
      | zero => omega
      | succ fuel =>
        have hle : q.rest.length ≤ fuel := by omega
        obtain ⟨r, hr, hrest⟩ := ih h hle
        refine ⟨r, ?_, hrest⟩
        refine (bind_of_ok _ (accept_taken hq)).trans ?_
        refine (if_pos rfl).trans ?_
        exact bind_of_ok _ hr
    · refine ⟨t, ?_, ?_⟩
      · have hhead : ∃ head, t.peekToken = .ok (some head) ∧ head ≠ .keyword .autoIncrement := by
          cases k with
          | autoincrement => exact absurd rfl hk
          | _ => exact ⟨_, h.peek, by simp⟩
        obtain ⟨head, hpeek, hne⟩ := hhead
        unfold autoText
        rw [List.takeWhile_cons_of_neg (by simpa using hk)]
        cases fuel with
        | zero => rfl
        | succ fuel => exact bind_of_ok _ (accept_left hpeek (by simpa using hne))
      · rw [List.dropWhile_cons_of_neg (by simpa using hk)]
        exact h

theorem parseDefault_read {value : Literal} (h : t.nextToken = .ok (some value.tok, s)) :
    parseDefault t = .ok (value.text, s) := by
  unfold parseDefault
  cases value with
  | _ => exact bind_of_ok _ (next_ok h)

theorem parseConstraint_read {k : Constraint} (hk : k.readable = true) (h : Reads t k.tokens s) :
    parseConstraint t = .ok (some k.text, s) := by
  unfold parseConstraint
  cases k with
  | primaryKey =>
    refine (bind_of_ok _ (peek_ok h.peek)).trans ?_
    obtain ⟨q, hq, r, hr, rfl⟩ := h
    refine (bind_of_ok _ (next_ok hq)).trans ?_
    exact bind_of_ok _ (expectKeywordOr_ok hr)
  | notNull =>
    refine (bind_of_ok _ (peek_ok h.peek)).trans ?_
    obtain ⟨q, hq, r, hr, rfl⟩ := h
    refine (bind_of_ok _ (next_ok hq)).trans ?_
    exact bind_of_ok _ (expectKeywordOr_ok hr)
  | default value =>
    refine (bind_of_ok _ (peek_ok h.peek)).trans ?_
    obtain ⟨q, hq, r, hr, rfl⟩ := h
    refine (bind_of_ok _ (next_ok hq)).trans ?_
    exact bind_of_ok _ (parseDefault_read hr)
  | autoincrement =>
    refine (bind_of_ok _ (peek_ok h.peek)).trans ?_
    obtain ⟨q, hq, rfl⟩ := h
    exact bind_of_ok _ (next_ok hq)
  | auto_increment word hw => cases hk

/-- every constraint starts with a reserved word of its own -/
theorem parseConstraint_left (hp : t.peekToken = .ok found)
    (hf : ∀ kw, found ≠ some (.keyword kw)) : parseConstraint t = .ok (none, t) := by
  unfold parseConstraint
  refine (bind_of_ok _ (peek_ok hp)).trans ?_
  cases found with
  | none => rfl
  | some tok =>
    cases tok with
    | keyword kw => exact absurd rfl (hf kw)
    | _ => rfl

/-- **The loop takes the constraints up to the first that is no production.** -/
theorem constraints_read {ks : List Constraint} {fuel : ℕ}
    (h : Reads t (constraintTokens ks) s) (hp : s.peekToken = .ok found)
    (hf : ∀ kw, found ≠ some (.keyword kw)) (hfuel : t.rest.length ≤ fuel) :
    ∃ r, constraintsWith fuel t
        = .ok ((ks.takeWhile Constraint.readable).map Constraint.text, r) ∧
      Reads r (constraintTokens (ks.dropWhile Constraint.readable)) s := by
  induction ks generalizing t fuel with
  | nil =>
    obtain rfl := h
    refine ⟨t, ?_, rfl⟩
    cases fuel with
    | zero => rfl
    | succ fuel => exact bind_of_ok _ (parseConstraint_left hp hf)
  | cons k ks ih =>
    cases hk : k.readable with
    | true =>
      obtain ⟨q, hq, h⟩ := reads_append.mp (show Reads t (k.tokens ++ constraintTokens ks) s from h)
      have hlt : q.rest.length < t.rest.length := by
        cases k with
        | _ => exact hq.behind.2
      cases fuel with
      | zero => omega
      | succ fuel =>
        have hle : q.rest.length ≤ fuel := by omega
        obtain ⟨r, hr, hrest⟩ := ih h hle
        rw [List.takeWhile_cons_of_pos hk, List.dropWhile_cons_of_pos hk]
        refine ⟨r, ?_, hrest⟩
        refine (bind_of_ok _ (parseConstraint_read hk hq)).trans ?_
        exact bind_of_ok _ hr
    | false =>
      have hn : ¬ k.readable = true := Bool.eq_false_iff.mp hk
      rw [List.takeWhile_cons_of_neg hn, List.dropWhile_cons_of_neg hn]
      refine ⟨t, ?_, h⟩
      cases k with
      | auto_increment word hw =>
        cases fuel with
        | zero => rfl
        | succ fuel => exact bind_of_ok _ (parseConstraint_left h.peek (by simp))
      | _ => cases hk

/-! ## columns -/

/-- what stands behind a column -/
def Follows (found : Option Tok) : Prop :=
  found = none ∨ found = some .comma ∨ found = some .rParen

theorem Follows.not_keyword (hf : Follows found) (kw : Keyword) : found ≠ some (.keyword kw) := by
  obtain rfl | rfl | rfl := hf <;> simp

theorem Follows.not_lParen (hf : Follows found) : found ≠ some .lParen := by
  obtain rfl | rfl | rfl := hf <;> simp

/-- an error, or an identifier where the statement should go on -/
def Stuck {α : Type} (x : Except StatementError (α × Tokenizer)) : Prop :=
  ∀ a r, x = .ok (a, r) → ∃ word, r.peekToken = .ok (some (.ident word))

theorem stuck_error {α : Type} {x : Except StatementError (α × Tokenizer)} {e : StatementError}
    (h : x = .error e) : Stuck x := by
  intro a r hx
  cases h.symm.trans hx

/-- a column with a named type is read up to the first constraint that is no production -/
theorem parseColumnDef_named {c : ColumnSyntax} (hc : c.type ≠ .serial) (h : Reads t c.tokens s)
    (hp : s.peekToken = .ok found) (hf : Follows found) :
    ∃ r, parseColumnDef t = .ok (⟨c.name, c.typeText,
        (c.behindType.takeWhile Constraint.readable).map Constraint.text⟩, r) ∧
      Reads r (constraintTokens (c.behindType.dropWhile Constraint.readable)) s := by
  obtain ⟨name, type, ks⟩ := c
  cases type with
  | serial => exact absurd rfl hc
  | named type size =>
    obtain ⟨q, hname, p, htype, h⟩ := h
    obtain ⟨o, hsize, hks⟩ := reads_append.mp h
    obtain ⟨head, hhead, hne⟩ := constraints_peek hks hp hf.not_lParen
    obtain ⟨m, hauto, hm⟩ := autoIncrements_read hks hp (hf.not_keyword .autoIncrement) le_rfl
    obtain ⟨r, hr, hrest⟩ := constraints_read hm hp hf.not_keyword le_rfl
    have hty : parseTypeName q
        = .ok (type.map toAsciiUppercase ++ (size.map sizeText).getD [] ++ autoText ks, m) := by
      unfold parseTypeName
      refine (bind_of_ok _ (expectIdent_ok htype)).trans ?_
      refine (bind_of_ok _ (optional_size hsize hhead hne)).trans ?_
      exact bind_of_ok _ hauto
    refine ⟨r, ?_, hrest⟩
    unfold parseColumnDef
    refine (bind_of_ok _ (expectIdent_ok hname)).trans ?_
    refine (bind_of_ok _ hty).trans ?_
    exact bind_of_ok _ hr

/-- what `AUTOINCREMENT` hides is readable with the rest -/
theorem all_behindType (c : ColumnSyntax) :
    c.behindType.all Constraint.readable = c.constraints.all Constraint.readable := by
  unfold ColumnSyntax.behindType
  induction c.constraints with
  | nil => rfl
  | cons k ks ih =>
    by_cases hk : k = .autoincrement
    · obtain rfl := hk
      rw [List.dropWhile_cons_of_pos (by simp), ih]
      rfl
    · rw [List.dropWhile_cons_of_neg (by simpa using hk)]

theorem readable_iff {c : ColumnSyntax} :
    c.readable = true ↔ c.type ≠ .serial ∧ ∀ k ∈ c.behindType, k.readable = true := by
  unfold ColumnSyntax.readable
  rw [decide_eq_true_iff, ← all_behindType, List.all_eq_true]

theorem parseColumnDef_read {c : ColumnSyntax} (hc : c.readable = true) (h : Reads t c.tokens s)
    (hp : s.peekToken = .ok found) (hf : Follows found) :
    parseColumnDef t = .ok (c.columnDef, s) := by
  obtain ⟨htype, hks⟩ := readable_iff.mp hc
  obtain ⟨r, hr, hrest⟩ := parseColumnDef_named htype h hp hf
  rw [List.takeWhile_eq_self_iff.mpr hks] at hr
  rw [List.dropWhile_eq_nil_iff.mpr hks] at hrest
  obtain rfl := hrest
  exact hr

theorem parseColumnDef_stuck {c : ColumnSyntax} (hc : c.readable = false)
    (h : Reads t c.tokens s) (hp : s.peekToken = .ok found) (hf : Follows found) :
    Stuck (parseColumnDef t) := by
  by_cases htype : c.type = .serial
  · obtain ⟨name, type, ks⟩ := c
    obtain rfl := htype
    obtain ⟨q, hname, p, hserial, -⟩ := h
    apply stuck_error
    unfold parseColumnDef
    refine (bind_of_ok _ (expectIdent_ok hname)).trans ?_
    apply bind_of_error
    unfold parseTypeName
    exact bind_of_error _ (expectIdent_keyword hserial)
  · obtain ⟨r, hr, hrest⟩ := parseColumnDef_named htype h hp hf
    intro a r' ha
    obtain ⟨-, rfl⟩ := Prod.mk.inj (Except.ok.inj (hr.symm.trans ha))
    -- the first constraint that is left is no production
    cases hleft : c.behindType.dropWhile Constraint.readable with
    | nil =>
      have := readable_iff.mpr ⟨htype, List.dropWhile_eq_nil_iff.mp hleft⟩
      rw [hc] at this
      cases this
    | cons k ks =>
      have hk : k.readable ≠ true := by
        have := List.head?_dropWhile_not Constraint.readable c.behindType
        rw [hleft] at this
        simpa using this
      rw [hleft] at hrest
      cases k with
      | auto_increment word hw => exact ⟨word, hrest.peek⟩
      | _ => exact absurd rfl hk

theorem columns_read {first : ColumnSyntax} {rest : List ColumnSyntax} {fuel : ℕ}
    (hfirst : first.readable = true) (hrest : ∀ c ∈ rest, c.readable = true)
    (h : Reads t (columnTokens first rest) s) (hp : s.peekToken = .ok (some .rParen))
    (hfuel : rest.length ≤ fuel) :
    commaListWith parseColumnDef fuel t
      = .ok ((first :: rest).map ColumnSyntax.columnDef, s) := by
  induction rest generalizing first t fuel with
  | nil =>
    have hcol := parseColumnDef_read hfirst (by simpa [columnTokens] using h) hp (.inr (.inr rfl))
    cases fuel with
    | zero => exact bind_of_ok _ hcol
    | succ fuel =>
      refine (bind_of_ok _ hcol).trans ?_
      exact bind_of_ok _ (accept_left hp (by simp))
  | cons c rest ih =>
    obtain ⟨q, hq, r, hr, h⟩ := reads_append.mp h
    have hcol := parseColumnDef_read hfirst hq (peekToken_of_next hr) (.inr (.inl rfl))
    cases fuel with
    | zero => cases hfuel
    | succ fuel =>
      have hmore := ih (hrest c List.mem_cons_self)
        (fun d hd => hrest d (List.mem_cons_of_mem c hd)) h (Nat.le_of_succ_le_succ hfuel)
      refine (bind_of_ok _ hcol).trans ?_
      refine (bind_of_ok _ (accept_taken hr)).trans ?_
      refine (if_pos rfl).trans ?_
      exact bind_of_ok _ hmore

theorem commaList_stuck {α : Type} {item : Production α} {fuel : ℕ} (h : Stuck (item t)) :
    Stuck (commaListWith item fuel t) := by
  cases hitem : item t with
  | error e =>
    apply stuck_error (e := e)
    cases fuel with
    | zero => exact bind_of_error _ hitem
    | succ fuel => exact bind_of_error _ hitem
  | ok p =>
    obtain ⟨x, r⟩ := p
    obtain ⟨word, hword⟩ := h x r hitem
    have hlist : commaListWith item fuel t = .ok ([x], r) := by
      cases fuel with
      | zero => exact bind_of_ok _ hitem
      | succ fuel =>
        refine (bind_of_ok _ hitem).trans ?_
        exact bind_of_ok _ (accept_left hword (by simp))
    intro a r' ha
    obtain ⟨-, rfl⟩ := Prod.mk.inj (Except.ok.inj (hlist.symm.trans ha))
    exact ⟨word, hword⟩

theorem columns_stuck {first : ColumnSyntax} {rest : List ColumnSyntax} {fuel : ℕ}
    (hall : (first :: rest).all ColumnSyntax.readable = false)
    (h : Reads t (columnTokens first rest) s) (hp : s.peekToken = .ok (some .rParen))
    (hfuel : rest.length ≤ fuel) : Stuck (commaListWith parseColumnDef fuel t) := by
  induction rest generalizing first t fuel with
  | nil =>
    rw [List.all_cons, List.all_nil, Bool.and_true] at hall
    exact commaList_stuck
      (parseColumnDef_stuck hall (by simpa [columnTokens] using h) hp (.inr (.inr rfl)))
  | cons c rest ih =>
    obtain ⟨q, hq, r, hr, h⟩ := reads_append.mp h
    cases hfirst : first.readable with
    | false =>
      exact commaList_stuck
        (parseColumnDef_stuck hfirst hq (peekToken_of_next hr) (.inr (.inl rfl)))
    | true =>
      have hcol := parseColumnDef_read hfirst hq (peekToken_of_next hr) (.inr (.inl rfl))
      rw [List.all_cons, hfirst, Bool.true_and] at hall
      cases fuel with
      | zero => cases hfuel
      | succ fuel =>
        have hmore := ih hall h (Nat.le_of_succ_le_succ hfuel)
        have hstep : commaListWith parseColumnDef (fuel + 1) t
            = (do
              let found ← commaListWith parseColumnDef fuel r
              .ok (first.columnDef :: found.1, found.2)) := by
          refine (bind_of_ok _ hcol).trans ?_
          refine (bind_of_ok _ (accept_taken hr)).trans ?_
          exact if_pos rfl
        intro a r' ha
        obtain ⟨⟨xs, r''⟩, hxs, hend⟩ := bind_ok.mp (hstep.symm.trans ha)
        obtain ⟨-, rfl⟩ := Prod.mk.inj (Except.ok.inj hend)
        exact hmore xs _ hxs

/-! ## statements -/

theorem ifNotExists_read {b : Bool} (h : Reads t (ifNotExistsTokens b) s)
    (hp : s.peekToken = .ok found) (hf : ∀ kw, found ≠ some (.keyword kw)) :
    ∃ o, optional (.keyword .if) parseIfNotExists t = .ok (o, s) ∧ o.isSome = b := by
  cases b with
  | false =>
    obtain rfl := h
    exact ⟨none, optional_left _ hp (hf .if), rfl⟩
  | true =>
    obtain ⟨q, hq, r, hr, p, hexists, rfl⟩ := h
    refine ⟨some (), optional_taken hq ?_, rfl⟩
    unfold parseIfNotExists
    refine (bind_of_ok _ (expectKeywordOr_ok hr)).trans ?_
    exact expectKeywordOr_ok hexists

/-- what is between the word `CREATE` and the columns -/
theorem parseCreate_head {b : Bool} {table : Bytes} {q : Tokenizer}
    (h : Reads t (.keyword .table :: (ifNotExistsTokens b ++ [.ident table, .lParen])) q) :
    parseCreate t = (do
      let (columns, t) ← closedList parseColumnDef q
      .ok (.createTable b table columns, t)) := by
  obtain ⟨p, htable, h⟩ := h
  obtain ⟨o, hif, hname⟩ := reads_append.mp h
  obtain ⟨b', hb, rfl⟩ := ifNotExists_read hif hname.peek (by simp)
  obtain ⟨m, hname, l, hopen, rfl⟩ := hname
  unfold parseCreate
  refine (bind_of_ok _ (expectKeywordOr_ok htable)).trans ?_
  refine (bind_of_ok _ hb).trans ?_
  refine (bind_of_ok _ (expectIdent_ok hname)).trans ?_
  exact bind_of_ok _ (expectPunct_ok hopen)

theorem length_le_columnTokens (first : ColumnSyntax) (rest : List ColumnSyntax) :
    rest.length ≤ (columnTokens first rest).length := by
  have hrest : rest.length ≤ (rest.flatMap fun c => Tok.comma :: c.tokens).length := by
    induction rest with
    | nil => exact le_rfl
    | cons c rest ih =>
      rw [List.flatMap_cons, List.length_append, List.length_cons, List.length_cons]
      omega
  unfold columnTokens
  rw [List.length_append]
  omega

/-- the columns, and the two tokens around them -/
theorem create_split {b : Bool} {table : Bytes} {first : ColumnSyntax} {rest : List ColumnSyntax}
    (h : Reads t (Ddl.create b table first rest).tokens s) :
    ∃ o q r, t.nextToken = .ok (some (.keyword .create), o) ∧
      parseCreate o = (do
        let (columns, t) ← closedList parseColumnDef q
        .ok (.createTable b table columns, t)) ∧
      Reads q (columnTokens first rest) r ∧ r.nextToken = .ok (some .rParen, s) ∧
      rest.length ≤ q.rest.length := by
  obtain ⟨o, ho, h⟩ := h
  have hsplit : Reads o ((.keyword .table :: (ifNotExistsTokens b ++ [.ident table, .lParen])) ++
      (columnTokens first rest ++ [.rParen])) s := by
    simpa [List.append_assoc] using h
  obtain ⟨q, hq, h⟩ := reads_append.mp hsplit
  obtain ⟨r, hr, p, hclose, rfl⟩ := reads_append.mp h
  have := length_le_columnTokens first rest
  have := reads_length_le hr
  exact ⟨o, q, r, ho, parseCreate_head hq, hr, hclose, by omega⟩

/-- what is between the word `ALTER` and the column -/
theorem addColumn_split {table : Bytes} {c : ColumnSyntax}
    (h : Reads t (Ddl.addColumn table c).tokens s) :
    ∃ o q, t.nextToken = .ok (some (.keyword .alter), o) ∧
      parseAlter o = (do
        let (col, t) ← parseColumnDef q
        .ok (.alterTable table (.addColumn col), t)) ∧ Reads q c.tokens s := by
  obtain ⟨o, ho, p, htable, m, hname, h⟩ := h
  have hpeek := peek_ok h.peek
  obtain ⟨l, hadd, q, hcolumn, h⟩ := h
  refine ⟨o, q, ho, ?_, h⟩
  unfold parseAlter
  refine (bind_of_ok _ (expectKeywordOr_ok htable)).trans ?_
  refine (bind_of_ok _ (expectIdent_ok hname)).trans ?_
  refine (bind_of_ok _ hpeek).trans ?_
  refine (bind_of_ok _ (next_ok hadd)).trans ?_
  exact bind_of_ok _ (expectKeywordOr_ok hcolumn)

theorem rename_read {table newName : Bytes} (h : Reads t (Ddl.rename table newName).tokens s) :
    parseStatementInner t = .ok ((Ddl.rename table newName).statement, s) := by
  obtain ⟨o, ho, p, htable, m, hname, h⟩ := h
  have hpeek := peek_ok h.peek
  obtain ⟨l, hrename, q, hto, r, hnew, rfl⟩ := h
  refine (bind_of_ok _ (expectKeyword_ok ho)).trans ?_
  unfold parseAlter
  refine (bind_of_ok _ (expectKeywordOr_ok htable)).trans ?_
  refine (bind_of_ok _ (expectIdent_ok hname)).trans ?_
  refine (bind_of_ok _ hpeek).trans ?_
  refine (bind_of_ok _ (next_ok hrename)).trans ?_
  refine (bind_of_ok _ (expectKeywordOr_ok hto)).trans ?_
  exact bind_of_ok _ (expectIdent_ok hnew)

theorem statement_read {d : Ddl} (hd : d.readable = true) (h : Reads t d.tokens s)
    (hend : s.peekToken = .ok none) : parseStatementInner t = .ok (d.statement, s) := by
  have hall := List.all_eq_true.mp hd
  cases d with
  | create b table first rest =>
    obtain ⟨o, q, r, ho, hcreate, hr, hclose, hfuel⟩ := create_split h
    have hcols := columns_read (hall first List.mem_cons_self)
      (fun c hc => hall c (List.mem_cons_of_mem first hc)) hr (peekToken_of_next hclose) hfuel
    refine (bind_of_ok _ (expectKeyword_ok ho)).trans ?_
    refine hcreate.trans ?_
    have hclosed : closedList parseColumnDef q
        = .ok ((first :: rest).map ColumnSyntax.columnDef, s) := by
      refine (bind_of_ok _ hcols).trans ?_
      exact bind_of_ok _ (expectPunct_ok hclose)
    exact bind_of_ok _ hclosed
  | addColumn table c =>
    obtain ⟨o, q, ho, halter, hq⟩ := addColumn_split h
    refine (bind_of_ok _ (expectKeyword_ok ho)).trans ?_
    refine halter.trans ?_
    exact bind_of_ok _ (parseColumnDef_read (hall c (List.mem_singleton_self c)) hq hend (.inl rfl))
  | rename table newName => exact rename_read h

theorem statement_stuck {d : Ddl} (hd : d.readable = false) (h : Reads t d.tokens s)
    (hend : s.peekToken = .ok none) : Stuck (parseStatementInner t) := by
  cases d with
  | create b table first rest =>
    obtain ⟨o, q, r, ho, hcreate, hr, hclose, hfuel⟩ := create_split h
    have hcols := columns_stuck hd hr (peekToken_of_next hclose) hfuel
    have hhead : parseStatementInner t = parseCreate o := bind_of_ok _ (expectKeyword_ok ho)
    intro a r' ha
    obtain ⟨⟨columns, p⟩, hclosed, -⟩ := bind_ok.mp (hcreate.symm.trans (hhead.symm.trans ha))
    obtain ⟨⟨xs, m⟩, hxs, hrParen⟩ := bind_ok.mp hclosed
    -- an identifier stands where the parenthesis should close
    obtain ⟨word, hword⟩ := hcols xs m hxs
    have := bind_of_error (fun p : Unit × Tokenizer => Except.ok (xs, p.2))
      (expectPunct_error hword (show some (Tok.ident word) ≠ some .rParen by simp))
    cases this.symm.trans hrParen
  | addColumn table c =>
    obtain ⟨o, q, ho, halter, hq⟩ := addColumn_split h
    have hc : c.readable = false := by
      unfold Ddl.readable Ddl.columns at hd
      rw [List.all_cons, List.all_nil, Bool.and_true] at hd
      exact hd
    have hhead : parseStatementInner t = parseAlter o := bind_of_ok _ (expectKeyword_ok ho)
    intro a r' ha
    obtain ⟨⟨col, p⟩, hcol, hok⟩ := bind_ok.mp (halter.symm.trans (hhead.symm.trans ha))
    obtain ⟨-, rfl⟩ := Prod.mk.inj (Except.ok.inj hok)
    exact parseColumnDef_stuck hc hq hend (.inl rfl) col _ hcol
  | rename table newName => cases hd

variable {src : Bytes} {d : Ddl} {e : Tokenizer}

/-- **A definition the parser has productions for gives its tree.** -/
theorem parseStatement_read (hd : d.readable = true) (h : Reads (new src) d.tokens s)
    (hend : s.nextToken = .ok (none, e)) : parseStatement src = .ok d.statement := by
  unfold parseStatement
  refine (bind_of_ok _ (statement_read hd h (peekToken_of_next hend))).trans ?_
  exact bind_of_ok _ (next_ok hend)

/-- **Any other definition is an error.** -/
theorem parseStatement_stuck (hd : d.readable = false) (h : Reads (new src) d.tokens s)
    (hend : s.nextToken = .ok (none, e)) (stmt : Statement) : parseStatement src ≠ .ok stmt := by
  intro hok
  obtain ⟨⟨stmt', r⟩, hinner, htrailing⟩ := bind_ok.mp hok
  obtain ⟨word, hword⟩ := statement_stuck hd h (peekToken_of_next hend) stmt' r hinner
  obtain ⟨q, hq⟩ := next_of_peekToken hword
  cases (bind_of_ok _ hq).symm.trans htrailing

end

/-! ## nothing else is parsed -/

section
variable {α : Type} {r s t : Tokenizer} {want : Tok} {found : Option Tok}

theorem next_eq_ok : next t = .ok (found, s) ↔ t.nextToken = .ok (found, s) := by
  constructor
  · intro h
    unfold next at h
    cases hn : t.nextToken with
    | error e =>
      rw [hn] at h
      cases h
    | ok p =>
      rw [hn] at h
      exact congrArg Except.ok (Except.ok.inj h)
  · exact next_ok

theorem accept_inv {b : Bool} (h : accept want t = .ok (b, s)) :
    b = true ∧ t.nextToken = .ok (some want, s) ∨ b = false ∧ s = t := by
  obtain ⟨found, hpeek, hrest⟩ := bind_ok.mp h
  split_ifs at hrest with hf
  · obtain ⟨⟨tok, r⟩, hnext, hlast⟩ := bind_ok.mp hrest
    obtain ⟨rfl, rfl⟩ := Prod.mk.inj (Except.ok.inj hlast)
    have hn := next_eq_ok.mp hnext
    have hseen := (peek_ok (peekToken_of_next hn)).symm.trans hpeek
    exact .inl ⟨rfl, hn.trans (by rw [Except.ok.inj hseen, hf])⟩
  · obtain ⟨rfl, rfl⟩ := Prod.mk.inj (Except.ok.inj hrest)
    exact .inr ⟨rfl, rfl⟩

theorem optional_inv {item : Production α} {o : Option α} (h : optional want item t = .ok (o, s)) :
    (∃ x r, o = some x ∧ t.nextToken = .ok (some want, r) ∧ item r = .ok (x, s)) ∨
      o = none ∧ s = t := by
  obtain ⟨⟨b, r⟩, haccept, hrest⟩ := bind_ok.mp h
  obtain ⟨rfl, hn⟩ | ⟨rfl, rfl⟩ := accept_inv haccept
  · obtain ⟨⟨x, q⟩, hitem, hlast⟩ := bind_ok.mp hrest
    obtain ⟨rfl, rfl⟩ := Prod.mk.inj (Except.ok.inj hlast)
    exact .inl ⟨x, r, rfl, hn, hitem⟩
  · obtain ⟨rfl, rfl⟩ := Prod.mk.inj (Except.ok.inj hrest)
    exact .inr ⟨rfl, rfl⟩

theorem expectKeyword_inv {kw : Keyword} (h : expectKeyword t = .ok (kw, s)) :
    t.nextToken = .ok (some (.keyword kw), s) := by
  obtain ⟨⟨found, r⟩, hnext, hrest⟩ := bind_ok.mp h
  cases found with
  | none => cases hrest
  | some tok =>
    cases tok with
    | keyword kw' =>
      obtain ⟨rfl, rfl⟩ := Prod.mk.inj (Except.ok.inj hrest)
      exact next_eq_ok.mp hnext
    | _ => cases hrest

theorem expectIdent_inv {name : Bytes} (h : expectIdent t = .ok (name, s)) :
    t.nextToken = .ok (some (.ident name), s) := by
  obtain ⟨⟨found, r⟩, hnext, hrest⟩ := bind_ok.mp h
  cases found with
  | none => cases hrest
  | some tok =>
    cases tok with
    | ident name' =>
      obtain ⟨rfl, rfl⟩ := Prod.mk.inj (Except.ok.inj hrest)
      exact next_eq_ok.mp hnext
    | _ => cases hrest

theorem expectPunct_inv {u : Unit} (h : expectPunct want t = .ok (u, s)) :
    t.nextToken = .ok (some want, s) := by
  obtain ⟨⟨found, r⟩, hnext, hrest⟩ := bind_ok.mp h
  dsimp only at hrest
  split_ifs at hrest with hf
  obtain ⟨-, rfl⟩ := Prod.mk.inj (Except.ok.inj hrest)
  exact (next_eq_ok.mp hnext).trans (by rw [hf])

theorem parseSize_inv {size : Bytes} (h : parseSize t = .ok (size, s)) :
    ∃ digits, Reads t [.number digits, .rParen] s := by
  obtain ⟨⟨found, r⟩, hnext, hrest⟩ := bind_ok.mp h
  cases found with
  | none => cases hrest
  | some tok =>
    cases tok with
    | number digits =>
      obtain ⟨⟨u, q⟩, hclose, hlast⟩ := bind_ok.mp hrest
      obtain ⟨-, rfl⟩ := Prod.mk.inj (Except.ok.inj hlast)
      exact ⟨digits, r, next_eq_ok.mp hnext, _, expectPunct_inv hclose, rfl⟩
    | _ => cases hrest

theorem autoIncrementsWith_inv {fuel : ℕ} {text : Bytes}
    (h : autoIncrementsWith fuel t = .ok (text, s)) :
    ∃ ks, Reads t (constraintTokens ks) s := by
  induction fuel generalizing t text with
  | zero =>
    obtain ⟨-, rfl⟩ := Prod.mk.inj (Except.ok.inj h)
    exact ⟨[], rfl⟩
  | succ fuel ih =>
    obtain ⟨⟨b, r⟩, haccept, hrest⟩ := bind_ok.mp h
    obtain ⟨rfl, hn⟩ | ⟨rfl, rfl⟩ := accept_inv haccept
    · obtain ⟨⟨more, q⟩, hmore, hlast⟩ := bind_ok.mp hrest
      obtain ⟨-, rfl⟩ := Prod.mk.inj (Except.ok.inj hlast)
      obtain ⟨ks, hks⟩ := ih hmore
      exact ⟨.autoincrement :: ks, r, hn, hks⟩
    · obtain ⟨-, rfl⟩ := Prod.mk.inj (Except.ok.inj hrest)
      exact ⟨[], rfl⟩

theorem parseDefault_inv {val : Bytes} (h : parseDefault t = .ok (val, s)) :
    ∃ value : Literal, t.nextToken = .ok (some value.tok, s) := by
  obtain ⟨⟨found, r⟩, hnext, hrest⟩ := bind_ok.mp h
  have hn := next_eq_ok.mp hnext
  cases found with
  | none => cases hrest
  | some tok =>
    cases tok with
    | string text =>
      obtain ⟨-, rfl⟩ := Prod.mk.inj (Except.ok.inj hrest)
      exact ⟨.string text, hn⟩
    | number digits =>
      obtain ⟨-, rfl⟩ := Prod.mk.inj (Except.ok.inj hrest)
      exact ⟨.number digits, hn⟩
    | keyword kw =>
      cases kw with
      | null =>
        obtain ⟨-, rfl⟩ := Prod.mk.inj (Except.ok.inj hrest)
        exact ⟨.null, hn⟩
      | _ => cases hrest
    | _ => cases hrest

/-- a token that is seen is the one that is taken -/
theorem next_of_peek {tok : Tok} (hp : peek t = .ok (some tok)) (h : next t = .ok (found, s)) :
    t.nextToken = .ok (some tok, s) := by
  have hn := next_eq_ok.mp h
  rw [← Except.ok.inj ((peek_ok (peekToken_of_next hn)).symm.trans hp)]
  exact hn

theorem parseConstraint_inv {o : Option Bytes} (h : parseConstraint t = .ok (o, s)) :
    (∃ k : Constraint, Reads t k.tokens s) ∨ o = none ∧ s = t := by
  obtain ⟨found, hpeek, hrest⟩ := bind_ok.mp h
  split at hrest
  · obtain ⟨⟨tok, r⟩, hnext, hrest⟩ := bind_ok.mp hrest
    obtain ⟨⟨u, q⟩, hkey, hlast⟩ := bind_ok.mp hrest
    obtain ⟨-, rfl⟩ := Prod.mk.inj (Except.ok.inj hlast)
    exact .inl ⟨.primaryKey, r, next_of_peek hpeek hnext, _, expectPunct_inv hkey, rfl⟩
  · obtain ⟨⟨tok, r⟩, hnext, hrest⟩ := bind_ok.mp hrest
    obtain ⟨⟨u, q⟩, hnull, hlast⟩ := bind_ok.mp hrest
    obtain ⟨-, rfl⟩ := Prod.mk.inj (Except.ok.inj hlast)
    exact .inl ⟨.notNull, r, next_of_peek hpeek hnext, _, expectPunct_inv hnull, rfl⟩
  · obtain ⟨⟨tok, r⟩, hnext, hrest⟩ := bind_ok.mp hrest
    obtain ⟨⟨val, q⟩, hval, hlast⟩ := bind_ok.mp hrest
    obtain ⟨-, rfl⟩ := Prod.mk.inj (Except.ok.inj hlast)
    obtain ⟨value, hvalue⟩ := parseDefault_inv hval
    exact .inl ⟨.default value, r, next_of_peek hpeek hnext, _, hvalue, rfl⟩
  · obtain ⟨⟨tok, r⟩, hnext, hlast⟩ := bind_ok.mp hrest
    obtain ⟨-, rfl⟩ := Prod.mk.inj (Except.ok.inj hlast)
    exact .inl ⟨.autoincrement, _, next_of_peek hpeek hnext, rfl⟩
  · obtain ⟨rfl, rfl⟩ := Prod.mk.inj (Except.ok.inj hrest)
    exact .inr ⟨rfl, rfl⟩

theorem constraintsWith_inv {fuel : ℕ} {texts : List Bytes}
    (h : constraintsWith fuel t = .ok (texts, s)) : ∃ ks, Reads t (constraintTokens ks) s := by
  induction fuel generalizing t texts with
  | zero =>
    obtain ⟨-, rfl⟩ := Prod.mk.inj (Except.ok.inj h)
    exact ⟨[], rfl⟩
  | succ fuel ih =>
    obtain ⟨⟨o, r⟩, hone, hrest⟩ := bind_ok.mp h
    obtain ⟨k, hk⟩ | ⟨rfl, rfl⟩ := parseConstraint_inv hone
    · cases o with
      | none =>
        obtain ⟨-, rfl⟩ := Prod.mk.inj (Except.ok.inj hrest)
        exact ⟨[k], reads_append.mpr ⟨_, hk, rfl⟩⟩
      | some text =>
        obtain ⟨⟨more, q⟩, hmore, hlast⟩ := bind_ok.mp hrest
        obtain ⟨-, rfl⟩ := Prod.mk.inj (Except.ok.inj hlast)
        obtain ⟨ks, hks⟩ := ih hmore
        exact ⟨k :: ks, reads_append.mpr ⟨r, hk, hks⟩⟩
    · obtain ⟨-, rfl⟩ := Prod.mk.inj (Except.ok.inj hrest)
      exact ⟨[], rfl⟩

theorem parseTypeName_inv {text : Bytes} (h : parseTypeName t = .ok (text, s)) :
    ∃ name size ks, Reads t ((TypeName.named name size).tokens ++ constraintTokens ks) s := by
  obtain ⟨⟨name, q⟩, hname, hrest⟩ := bind_ok.mp h
  obtain ⟨⟨size, r⟩, hsize, hrest⟩ := bind_ok.mp hrest
  obtain ⟨⟨auto, p⟩, hauto, hlast⟩ := bind_ok.mp hrest
  obtain ⟨-, rfl⟩ := Prod.mk.inj (Except.ok.inj hlast)
  obtain ⟨ks, hks⟩ := autoIncrementsWith_inv hauto
  obtain ⟨x, o, -, hopen, hsize⟩ | ⟨-, rfl⟩ := optional_inv hsize
  · obtain ⟨digits, hdigits⟩ := parseSize_inv hsize
    exact ⟨name, some digits, ks, reads_append.mpr
      ⟨r, ⟨q, expectIdent_inv hname, o, hopen, hdigits⟩, hks⟩⟩
  · exact ⟨name, none, ks, reads_append.mpr ⟨_, ⟨_, expectIdent_inv hname, rfl⟩, hks⟩⟩

theorem parseColumnDef_inv {col : ColumnDef} (h : parseColumnDef t = .ok (col, s)) :
    ∃ c : ColumnSyntax, Reads t c.tokens s := by
  obtain ⟨⟨name, q⟩, hname, hrest⟩ := bind_ok.mp h
  obtain ⟨⟨typeName, r⟩, htype, hrest⟩ := bind_ok.mp hrest
  obtain ⟨⟨texts, p⟩, hks, hlast⟩ := bind_ok.mp hrest
  obtain ⟨-, rfl⟩ := Prod.mk.inj (Except.ok.inj hlast)
  obtain ⟨type, size, before, hbefore⟩ := parseTypeName_inv htype
  obtain ⟨ks, hks⟩ := constraintsWith_inv hks
  refine ⟨⟨name, .named type size, before ++ ks⟩, q, expectIdent_inv hname, ?_⟩
  show Reads q ((TypeName.named type size).tokens ++ constraintTokens (before ++ ks)) _
  unfold constraintTokens at hbefore hks ⊢
  rw [List.flatMap_append, ← List.append_assoc]
  exact reads_append.mpr ⟨r, hbefore, hks⟩

theorem columns_inv {fuel : ℕ} {cols : List ColumnDef}
    (h : commaListWith parseColumnDef fuel t = .ok (cols, s)) :
    ∃ first rest, Reads t (columnTokens first rest) s := by
  induction fuel generalizing t cols with
  | zero =>
    obtain ⟨⟨col, r⟩, hcol, hlast⟩ := bind_ok.mp h
    obtain ⟨-, rfl⟩ := Prod.mk.inj (Except.ok.inj hlast)
    obtain ⟨c, hc⟩ := parseColumnDef_inv hcol
    exact ⟨c, [], reads_append.mpr ⟨_, hc, rfl⟩⟩
  | succ fuel ih =>
    obtain ⟨⟨col, r⟩, hcol, hrest⟩ := bind_ok.mp h
    obtain ⟨⟨b, q⟩, hcomma, hnext⟩ := bind_ok.mp hrest
    obtain ⟨c, hc⟩ := parseColumnDef_inv hcol
    obtain ⟨rfl, hn⟩ | ⟨rfl, rfl⟩ := accept_inv hcomma
    · obtain ⟨⟨more, p⟩, hmore, hlast⟩ := bind_ok.mp hnext
      obtain ⟨-, rfl⟩ := Prod.mk.inj (Except.ok.inj hlast)
      obtain ⟨first, rest, hcols⟩ := ih hmore
      exact ⟨c, first :: rest, reads_append.mpr ⟨r, hc, q, hn, hcols⟩⟩
    · obtain ⟨-, rfl⟩ := Prod.mk.inj (Except.ok.inj hnext)
      exact ⟨c, [], reads_append.mpr ⟨_, hc, rfl⟩⟩

theorem ifNotExists_inv {o : Option Unit}
    (h : optional (.keyword .if) parseIfNotExists t = .ok (o, s)) :
    ∃ b, Reads t (ifNotExistsTokens b) s := by
  obtain ⟨x, r, -, hif, hrest⟩ | ⟨-, rfl⟩ := optional_inv h
  · obtain ⟨⟨u, q⟩, hnot, hexists⟩ := bind_ok.mp hrest
    exact ⟨true, r, hif, q, expectPunct_inv hnot, s, expectPunct_inv hexists, rfl⟩
  · exact ⟨false, rfl⟩

theorem parseCreate_inv {stmt : Statement} {o : Tokenizer} (h : parseCreate o = .ok (stmt, s))
    (ho : t.nextToken = .ok (some (.keyword .create), o)) : ∃ d : Ddl, Reads t d.tokens s := by
  obtain ⟨⟨u, p⟩, htable, hrest⟩ := bind_ok.mp h
  obtain ⟨⟨opt, q⟩, hif, hrest⟩ := bind_ok.mp hrest
  obtain ⟨⟨name, m⟩, hname, hrest⟩ := bind_ok.mp hrest
  obtain ⟨⟨u', l⟩, hopen, hrest⟩ := bind_ok.mp hrest
  obtain ⟨⟨cols, r⟩, hclosed, hlast⟩ := bind_ok.mp hrest
  obtain ⟨-, rfl⟩ := Prod.mk.inj (Except.ok.inj hlast)
  obtain ⟨⟨cols', k⟩, hcols, hclosed⟩ := bind_ok.mp hclosed
  obtain ⟨⟨u'', r'⟩, hclose, hlast⟩ := bind_ok.mp hclosed
  obtain ⟨-, rfl⟩ := Prod.mk.inj (Except.ok.inj hlast)
  obtain ⟨first, rest, hcols⟩ := columns_inv hcols
  obtain ⟨b, hb⟩ := ifNotExists_inv hif
  refine ⟨.create b name first rest, o, ho, p, expectPunct_inv htable, ?_⟩
  refine reads_append.mpr ⟨q, hb, m, expectIdent_inv hname, l, expectPunct_inv hopen, ?_⟩
  exact reads_append.mpr ⟨k, hcols, _, expectPunct_inv hclose, rfl⟩

theorem parseAlter_inv {stmt : Statement} {o : Tokenizer} (h : parseAlter o = .ok (stmt, s))
    (ho : t.nextToken = .ok (some (.keyword .alter), o)) : ∃ d : Ddl, Reads t d.tokens s := by
  obtain ⟨⟨u, p⟩, htable, hrest⟩ := bind_ok.mp h
  obtain ⟨⟨name, q⟩, hname, hrest⟩ := bind_ok.mp hrest
  obtain ⟨found, hpeek, hrest⟩ := bind_ok.mp hrest
  split at hrest
  · obtain ⟨⟨tok, m⟩, hadd, hrest⟩ := bind_ok.mp hrest
    obtain ⟨⟨u', l⟩, hcolumn, hrest⟩ := bind_ok.mp hrest
    obtain ⟨⟨col, r⟩, hcol, hlast⟩ := bind_ok.mp hrest
    obtain ⟨-, rfl⟩ := Prod.mk.inj (Except.ok.inj hlast)
    obtain ⟨c, hc⟩ := parseColumnDef_inv hcol
    exact ⟨.addColumn name c, o, ho, p, expectPunct_inv htable, q, expectIdent_inv hname, m,
      next_of_peek hpeek hadd, l, expectPunct_inv hcolumn, hc⟩
  · obtain ⟨⟨tok, m⟩, hrename, hrest⟩ := bind_ok.mp hrest
    obtain ⟨⟨u', l⟩, hto, hrest⟩ := bind_ok.mp hrest
    obtain ⟨⟨newName, r⟩, hnew, hlast⟩ := bind_ok.mp hrest
    obtain ⟨-, rfl⟩ := Prod.mk.inj (Except.ok.inj hlast)
    exact ⟨.rename name newName, o, ho, p, expectPunct_inv htable, q, expectIdent_inv hname, m,
      next_of_peek hpeek hrename, l, expectPunct_inv hto, _, expectIdent_inv hnew, rfl⟩
  · cases hrest

/-! a query or an update is no definition -/

theorem parseSelect_inv {stmt : Statement} (h : parseSelect t = .ok (stmt, s)) :
    stmt.isDdl = false := by
  obtain ⟨_, -, hrest⟩ := bind_ok.mp h
  obtain ⟨_, -, hrest⟩ := bind_ok.mp hrest
  obtain ⟨_, -, hrest⟩ := bind_ok.mp hrest
  obtain ⟨_, -, hrest⟩ := bind_ok.mp hrest
  obtain ⟨_, -, hrest⟩ := bind_ok.mp hrest
  obtain ⟨_, -, hlast⟩ := bind_ok.mp hrest
  obtain ⟨rfl, -⟩ := Prod.mk.inj (Except.ok.inj hlast)
  rfl

theorem parseInsert_inv {stmt : Statement} (h : parseInsert t = .ok (stmt, s)) :
    stmt.isDdl = false := by
  obtain ⟨_, -, hrest⟩ := bind_ok.mp h
  obtain ⟨_, -, hrest⟩ := bind_ok.mp hrest
  obtain ⟨_, -, hrest⟩ := bind_ok.mp hrest
  obtain ⟨_, -, hrest⟩ := bind_ok.mp hrest
  obtain ⟨_, -, hlast⟩ := bind_ok.mp hrest
  obtain ⟨rfl, -⟩ := Prod.mk.inj (Except.ok.inj hlast)
  rfl

theorem parseUpdate_inv {stmt : Statement} (h : parseUpdate t = .ok (stmt, s)) :
    stmt.isDdl = false := by
  obtain ⟨_, -, hrest⟩ := bind_ok.mp h
  obtain ⟨_, -, hrest⟩ := bind_ok.mp hrest
  obtain ⟨_, -, hrest⟩ := bind_ok.mp hrest
  obtain ⟨_, -, hlast⟩ := bind_ok.mp hrest
  obtain ⟨rfl, -⟩ := Prod.mk.inj (Except.ok.inj hlast)
  rfl

theorem parseDelete_inv {stmt : Statement} (h : parseDelete t = .ok (stmt, s)) :
    stmt.isDdl = false := by
  obtain ⟨_, -, hrest⟩ := bind_ok.mp h
  obtain ⟨_, -, hrest⟩ := bind_ok.mp hrest
  obtain ⟨_, -, hlast⟩ := bind_ok.mp hrest
  obtain ⟨rfl, -⟩ := Prod.mk.inj (Except.ok.inj hlast)
  rfl

theorem parseStatementInner_inv {stmt : Statement} (h : parseStatementInner t = .ok (stmt, s))
    (hddl : stmt.isDdl = true) : ∃ d : Ddl, Reads t d.tokens s := by
  obtain ⟨⟨kw, o⟩, hkw, hrest⟩ := bind_ok.mp h
  have ho := expectKeyword_inv hkw
  cases kw with
  | select => cases (parseSelect_inv hrest).symm.trans hddl
  | insert => cases (parseInsert_inv hrest).symm.trans hddl
  | update => cases (parseUpdate_inv hrest).symm.trans hddl
  | delete => cases (parseDelete_inv hrest).symm.trans hddl
  | create => exact parseCreate_inv hrest ho
  | alter => exact parseAlter_inv hrest ho
  | _ => cases hrest

/-- **Every definition that is parsed is one of the grammar:** the text has its tokens, and the
tree is its tree. -/
theorem ddl_of_parseStatement {src : Bytes} {stmt : Statement} (h : parseStatement src = .ok stmt)
    (hddl : stmt.isDdl = true) : ∃ (d : Ddl) (s e : Tokenizer), Reads (new src) d.tokens s ∧
      s.nextToken = .ok (none, e) ∧ d.statement = stmt := by
  obtain ⟨⟨stmt', s⟩, hinner, hend⟩ := bind_ok.mp h
  obtain ⟨⟨found, e⟩, hnext, hend⟩ := bind_ok.mp hend
  cases found with
  | some extra => cases hend
  | none =>
    obtain rfl := Except.ok.inj hend
    have hlast := next_eq_ok.mp hnext
    obtain ⟨d, hd⟩ := parseStatementInner_inv hinner hddl
    refine ⟨d, s, e, hd, hlast, ?_⟩
    cases hr : d.readable with
    | false => exact absurd h (parseStatement_stuck hr hd hlast stmt')
    | true => exact Except.ok.inj ((parseStatement_read hr hd hlast).symm.trans h)

end

end Moagan.Sql
