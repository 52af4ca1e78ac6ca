import Mathlib.Data.List.Infix
import Moagan.Validators.SqlDefinitions

/-!
# The dialect rule of the SQL validator (`src/validators/sql_validator.rs`)

`SERIAL` is a type of PostgreSQL, `AUTOINCREMENT` a column constraint of SQLite, `AUTO_INCREMENT`
one of MySQL.

* `Ddl.constructs`     the dialect-specific constructs of a definition
* `Ddl.allowed`        they all belong to the dialect
* `Ddl.flagged`        the check of the dialect finds something
* `accepted_iff`       what is accepted: what has a production, and is not flagged
* `dialect_rule_iff`   when a definition is accepted as its dialect says
-/

namespace Moagan.Sql

open Checks Tokenizer

/-! ## what the dialects say -/

inductive Construct where
  | autoincrement | auto_increment | serial
deriving DecidableEq, Repr

/-- the dialect a construct belongs to -/
def allows : Dialect → Construct → Bool
  | .sqlite, .autoincrement => true
  | .mysql, .auto_increment => true
  | .postgres, .serial => true
  | _, _ => false

/-- the serial types -/
def serialTypes : List Bytes :=
  ["SERIAL", "BIGSERIAL", "SMALLSERIAL", "SERIAL2", "SERIAL4", "SERIAL8"].map utf8

instance : LawfulBEq Bytes := List.instLawfulBEq

def TypeName.isSerial : TypeName → Bool
  | .named name _ => name.map toAsciiUppercase ∈ serialTypes
  | .serial => true

def Constraint.construct : Constraint → Option Construct
  | .autoincrement => some .autoincrement
  | .auto_increment _ _ => some .auto_increment
  | _ => none

def ColumnSyntax.constructs (c : ColumnSyntax) : List Construct :=
  (if c.type.isSerial then [.serial] else []) ++ c.constraints.filterMap Constraint.construct

def Ddl.constructs (d : Ddl) : List Construct := d.columns.flatMap ColumnSyntax.constructs

/-- every construct belongs to the dialect -/
def Ddl.allowed (d : Ddl) (dialect : Dialect) : Bool := d.constructs.all (allows dialect)

/-! ## what the code looks at -/

/-- the name of the type holds `SERIAL` -/
def TypeName.mentionsSerial : TypeName → Bool
  | .named name _ => utf8 "SERIAL" <:+: name.map toAsciiUppercase
  | .serial => true

/-- what the dialect rejects in a column of `CREATE TABLE` -/
def ColumnSyntax.flagged (dialect : Dialect) (c : ColumnSyntax) : Bool :=
  (dialect ≠ .postgres ∧ c.type.mentionsSerial) ∨
    (dialect ≠ .sqlite ∧ .autoincrement ∈ c.behindType)

/-- `ALTER TABLE` is not looked at -/
def Ddl.flagged (dialect : Dialect) : Ddl → Bool
  | .create _ _ first rest => (first :: rest).any (ColumnSyntax.flagged dialect)
  | _ => false

/-- a column of `CREATE TABLE` whose type is not serial, with `SERIAL` in its name, in a dialect
where that is looked for -/
def Ddl.misread (dialect : Dialect) : Ddl → Bool
  | .create _ _ first rest =>
    dialect ≠ .postgres ∧ (first :: rest).any fun c => c.type.mentionsSerial && !c.type.isSerial
  | _ => false

/-- the statement is parsed, and the check of the dialect has nothing to say -/
def Accepted (dialect : Dialect) (src : Bytes) : Prop :=
  ∃ stmt, parseStatement src = .ok stmt ∧ dialectCheck dialect stmt = none

/-! ## the check of the dialect -/

/-- a word that ends with a letter the tail has not is in front of the tail -/
theorem infix_append_of_last {α : Type} {w a tail : List α} {l : α} (hl : l ∉ tail) :
    w ++ [l] <:+: a ++ tail ↔ w ++ [l] <:+: a := by
  constructor
  · intro h
    have hend : l ∈ w ++ [l] := List.mem_append_right w (List.mem_singleton_self l)
    obtain h | h | ⟨front, back, hw, ha, hb⟩ := List.infix_append_iff.mp h
    · exact h
    · exact absurd (h.subset hend) hl
    · obtain rfl | hne := List.eq_nil_or_concat back
      · rw [List.append_nil] at hw
        exact hw ▸ ha.isInfix
      · -- the letter is the last one of what stands in the tail
        obtain ⟨back, x, rfl⟩ := hne
        rw [List.concat_eq_append, ← List.append_assoc] at hw
        obtain ⟨-, hx⟩ := List.append_inj' hw rfl
        obtain rfl := (List.cons.inj hx).1
        exact absurd (hb.subset (List.concat_eq_append ▸ List.mem_append_right back
          (List.mem_singleton_self l))) hl
  · intro h
    exact h.trans (List.prefix_append a tail).isInfix

section
variable {s t e : Tokenizer} {src : Bytes} {d : Ddl}

theorem columnDef_serial {c : ColumnSyntax} (hc : c.type ≠ .serial) (h : Reads t c.tokens s) :
    c.columnDef.serial = c.type.mentionsSerial := by
  obtain ⟨name, type, ks⟩ := c
  cases type with
  | serial => exact absurd rfl hc
  | named type size =>
    have htail : ascii 'L' ∉ (size.map sizeText).getD [] ++ autoText ks := by
      intro hmem
      obtain hmem | hmem := List.mem_append.mp hmem
      · cases size with
        | none => cases hmem
        | some digits =>
          obtain hmem | hmem := List.mem_append.mp
            (show ascii 'L' ∈ (utf8 "(" ++ digits) ++ utf8 ")" from hmem)
          · obtain hmem | hmem := List.mem_append.mp hmem
            · exact absurd hmem (by decide)
            · have hnumber : Tok.number digits ∈
                  (ColumnSyntax.mk name (.named type (some digits)) ks).tokens := by
                simp [ColumnSyntax.tokens, TypeName.tokens, sizeTokens]
              exact absurd (reads_number h hnumber _ hmem) (by decide)
          · exact absurd hmem (by decide)
      · obtain ⟨k, -, hk⟩ := List.mem_flatMap.mp hmem
        exact absurd hk (by decide)
    have hword : utf8 "SERIAL" = utf8 "SERIA" ++ [ascii 'L'] := by decide
    unfold ColumnDef.serial TypeName.mentionsSerial
    simp only [ColumnSyntax.columnDef, ColumnSyntax.typeText, List.append_assoc, hword,
      infix_append_of_last htail]

theorem text_autoincrement {k : Constraint} (hk : k.readable = true) :
    k.text = utf8 "AUTOINCREMENT" ↔ k = .autoincrement := by
  cases k with
  | primaryKey => decide
  | notNull => decide
  | autoincrement => decide
  | auto_increment word hw => cases hk
  | default value =>
    constructor
    · intro h
      -- every default starts with a D
      have hhead := congrArg List.head? h
      have hD : (utf8 "DEFAULT '").head? = some (ascii 'D') := by decide
      have hD' : (utf8 "DEFAULT ").head? = some (ascii 'D') := by decide
      cases value with
      | string text =>
        rw [Constraint.text, Literal.text, List.append_assoc, List.head?_append, hD] at hhead
        exact absurd (show some (ascii 'D') = _ from hhead) (by decide)
      | number digits =>
        rw [Constraint.text, Literal.text, List.head?_append, hD'] at hhead
        exact absurd (show some (ascii 'D') = _ from hhead) (by decide)
      | null => exact absurd hhead (by decide)
    · intro h
      cases h

theorem columnDef_autoIncrement {c : ColumnSyntax} (hc : c.readable = true) :
    c.columnDef.autoIncrement = decide (.autoincrement ∈ c.behindType) := by
  have hks := (readable_iff.mp hc).2
  unfold ColumnDef.autoIncrement
  rw [decide_eq_decide]
  constructor
  · intro h
    obtain ⟨k, hk, htext⟩ := List.mem_map.mp h
    exact (text_autoincrement (hks k hk)).mp htext ▸ hk
  · intro h
    exact List.mem_map_of_mem h

/-- the check of one dialect, for the columns one by one -/
theorem dialectCheck_create (dialect : Dialect) (b : Bool) (table : Bytes)
    (columns : List ColumnDef) :
    dialectCheck dialect (.createTable b table columns) = none ↔
      ∀ c ∈ columns, ¬ (dialect ≠ .postgres ∧ c.serial = true) ∧
        ¬ (dialect ≠ .sqlite ∧ c.autoIncrement = true) := by
  cases dialect with
  | _ => simp [dialectCheck]

theorem reads_column {first : ColumnSyntax} {rest : List ColumnSyntax}
    (h : Reads t (columnTokens first rest) s) {c : ColumnSyntax} (hc : c ∈ first :: rest) :
    ∃ q r, Reads q c.tokens r := by
  induction rest generalizing first t with
  | nil =>
    obtain rfl := List.mem_singleton.mp hc
    obtain ⟨r, hr, -⟩ := reads_append.mp h
    exact ⟨t, r, hr⟩
  | cons d rest ih =>
    obtain ⟨q, hq, r, hr, h⟩ := reads_append.mp h
    obtain rfl | hc := List.mem_cons.mp hc
    · exact ⟨t, q, hq⟩
    · exact ih h hc

theorem dialectCheck_read (dialect : Dialect) (hd : d.readable = true)
    (h : Reads t d.tokens s) :
    dialectCheck dialect d.statement = none ↔ d.flagged dialect = false := by
  cases d with
  | addColumn table c => exact iff_of_true rfl rfl
  | rename table newName => exact iff_of_true rfl rfl
  | create b table first rest =>
    obtain ⟨o, q, r, -, -, hr, -, -⟩ := create_split h
    unfold Ddl.statement Ddl.flagged
    rw [dialectCheck_create, List.forall_mem_map, List.any_eq_false]
    refine forall₂_congr fun c hc => ?_
    have hread := List.all_eq_true.mp hd c hc
    obtain ⟨m, l, hm⟩ := reads_column hr hc
    rw [columnDef_serial (readable_iff.mp hread).1 hm, columnDef_autoIncrement hread,
      ColumnSyntax.flagged, decide_eq_true_iff, decide_eq_true_iff, not_or]

/-- **What is accepted:** the definitions with a production, in which the check finds nothing. -/
theorem accepted_iff (dialect : Dialect) (h : Reads (new src) d.tokens s)
    (hend : s.nextToken = .ok (none, e)) :
    Accepted dialect src ↔ d.readable = true ∧ d.flagged dialect = false := by
  cases hd : d.readable with
  | false =>
    constructor
    · intro hacc
      obtain ⟨stmt, hok, -⟩ := hacc
      exact absurd hok (parseStatement_stuck hd h hend stmt)
    · intro hacc
      cases hacc.1
  | true =>
    have hparse := parseStatement_read hd h hend
    rw [← dialectCheck_read dialect hd h]
    constructor
    · intro hacc
      obtain ⟨stmt, hok, hcheck⟩ := hacc
      obtain rfl := Except.ok.inj (hparse.symm.trans hok)
      exact ⟨rfl, hcheck⟩
    · intro hcheck
      exact ⟨d.statement, hparse, hcheck.2⟩

end

/-! ## the rule -/

theorem allows_serial {dialect : Dialect} : allows dialect .serial = true ↔ dialect = .postgres := by
  cases dialect <;> decide

theorem allows_autoincrement {dialect : Dialect} :
    allows dialect .autoincrement = true ↔ dialect = .sqlite := by
  cases dialect <;> decide

theorem autoincrement_constructs {c : ColumnSyntax} (h : .autoincrement ∈ c.behindType) :
    .autoincrement ∈ c.constructs :=
  List.mem_append_right _ (List.mem_filterMap.mpr
    ⟨.autoincrement, (List.dropWhile_suffix _).subset h, rfl⟩)

theorem serial_constructs {c : ColumnSyntax} (h : c.type.isSerial = true) :
    .serial ∈ c.constructs := by
  unfold ColumnSyntax.constructs
  rw [if_pos h]
  exact List.mem_append_left _ (List.mem_singleton_self _)

/-- where every construct is allowed, the check finds only names that are none -/
theorem flagged_of_allowed {dialect : Dialect} {d : Ddl} (h : d.allowed dialect = true) :
    d.flagged dialect = d.misread dialect := by
  have hall := List.all_eq_true.mp h
  cases d with
  | addColumn table c => rfl
  | rename table newName => rfl
  | create b table first rest =>
    have hcol (c) (hc : c ∈ first :: rest) (k) (hk : k ∈ c.constructs) :
        allows dialect k = true := hall k (List.mem_flatMap.mpr ⟨c, hc, hk⟩)
    unfold Ddl.flagged Ddl.misread
    rw [Bool.eq_iff_iff, List.any_eq_true, decide_eq_true_iff, List.any_eq_true]
    constructor
    · intro hflag
      obtain ⟨c, hc, hflag⟩ := hflag
      obtain ⟨hd, hserial⟩ | ⟨hd, hauto⟩ := of_decide_eq_true hflag
      · refine ⟨hd, c, hc, ?_⟩
        rw [hserial, Bool.true_and, Bool.not_eq_true']
        by_contra hs
        exact hd (allows_serial.mp
          (hcol c hc .serial (serial_constructs (Bool.eq_true_of_not_eq_false hs))))
      · exact absurd (allows_autoincrement.mp
          (hcol c hc .autoincrement (autoincrement_constructs hauto))) hd
    · intro hmis
      obtain ⟨hd, c, hc, hname⟩ := hmis
      exact ⟨c, hc, decide_eq_true (.inl ⟨hd, (Bool.and_eq_true_iff.mp hname).1⟩)⟩

/-- **The rule of the dialects, exactly when.** An allowed definition is accepted when it is
readable and no other name of a type is taken for a serial one; one that is not allowed is
rejected when it is not readable or the check looks at what is not allowed. -/
theorem dialect_rule_iff (dialect : Dialect) {src : Bytes} {d : Ddl} {s e : Tokenizer}
    (h : Reads (new src) d.tokens s) (hend : s.nextToken = .ok (none, e)) :
    (Accepted dialect src ↔ d.allowed dialect = true) ↔
      (d.allowed dialect = true → d.readable = true ∧ d.misread dialect = false) ∧
        (d.allowed dialect = false → d.readable = false ∨ d.flagged dialect = true) := by
  rw [accepted_iff dialect h hend]
  cases hallow : d.allowed dialect with
  | true =>
    rw [flagged_of_allowed hallow]
    simp
  | false =>
    simp only [Bool.false_eq_true, iff_false, false_imp_iff, true_and, true_imp_iff, not_and,
      Bool.not_eq_false]
    cases d.readable <;> simp

/-- the rule is kept by a serial type of PostgreSQL, with the other words in a comment and a text -/
theorem dialect_rule_iff_bigserial :
    Accepted .postgres
        (utf8 "create table t (id BigSerial, -- AUTOINCREMENT\nx INT DEFAULT 'AUTO_INCREMENT')") ↔
      (Ddl.create false (utf8 "t") ⟨utf8 "id", .named (utf8 "BigSerial") none, []⟩
        [⟨utf8 "x", .named (utf8 "INT") none,
          [.default (.string (utf8 "AUTO_INCREMENT"))]⟩]).allowed .postgres = true :=
  (dialect_rule_iff .postgres (s := ⟨[], 2, 32⟩) (e := ⟨[], 2, 32⟩) (by decide +kernel)
    (by decide +kernel)).mpr (by decide +kernel)

/-- PostgreSQL takes an `AUTOINCREMENT` in `ALTER TABLE`, and has no `SERIAL` -/
theorem dialect_rule_broken :
    (Reads (new (utf8 "ALTER TABLE t ADD COLUMN id INTEGER PRIMARY KEY AUTOINCREMENT"))
        (Ddl.addColumn (utf8 "t") ⟨utf8 "id", .named (utf8 "INTEGER") none,
          [.primaryKey, .autoincrement]⟩).tokens ⟨[], 1, 62⟩ ∧
      Accepted .postgres (utf8 "ALTER TABLE t ADD COLUMN id INTEGER PRIMARY KEY AUTOINCREMENT") ∧
      allows .postgres .autoincrement = false) ∧
    (Reads (new (utf8 "CREATE TABLE t (id SERIAL)"))
        (Ddl.create false (utf8 "t") ⟨utf8 "id", .serial, []⟩ []).tokens ⟨[], 1, 27⟩ ∧
      ¬ Accepted .postgres (utf8 "CREATE TABLE t (id SERIAL)") ∧
      allows .postgres .serial = true) := by
  refine ⟨⟨by decide +kernel, ⟨Ddl.statement (.addColumn (utf8 "t")
    ⟨utf8 "id", .named (utf8 "INTEGER") none, [.primaryKey, .autoincrement]⟩),
    by decide +kernel, rfl⟩, rfl⟩, by decide +kernel, ?_, rfl⟩
  intro hacc
  obtain ⟨stmt, hok, -⟩ := hacc
  have herr : parseStatement (utf8 "CREATE TABLE t (id SERIAL)")
      = .error (.expectedIdent (some (.keyword .serial)) 1 19) := by decide +kernel
  cases herr.symm.trans hok

end Moagan.Sql
