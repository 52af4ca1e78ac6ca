import Mathlib.Data.List.Infix
import Mathlib.Data.Nat.Notation
import Mathlib.Data.UInt

/-!
# The tokens of the SQL validator (`src/validators/sql_validator.rs`)

The tokenizer reads the bytes of the source; its position is the bytes that are left.

* `Tokenizer.skipWs`      white space, line comments and block comments
* `nextToken`             one token, or nothing at the end
* `peekToken`             the next token, not consumed
* `skipWsWith_stops`      the loop of `skipWs` ends by itself
* `nextToken_behind`      a token takes bytes off the front
* `Reads`                 the tokens between two positions
-/

namespace Moagan.Sql

abbrev Bytes := List UInt8

def ascii (c : Char) : UInt8 := c.toNat.toUInt8

/-- the bytes of a text -/
def utf8 (text : String) : Bytes := text.toUTF8.data.toList

inductive Keyword where
  | select | «from» | «where» | insert | into | values | update | set | delete | create | table
  | «if» | not | «exists» | alter | add | column | rename | to | distinct | order | «by» | asc
  | desc | limit | null | default | primary | key | autoIncrement | serial | engine | cast | as
  | and | or
deriving DecidableEq, Repr

def keywords : List (String × Keyword) :=
  [("select", .select), ("from", .from), ("where", .where), ("insert", .insert), ("into", .into),
    ("values", .values), ("update", .update), ("set", .set), ("delete", .delete),
    ("create", .create), ("table", .table), ("if", .if), ("not", .not), ("exists", .exists),
    ("alter", .alter), ("add", .add), ("column", .column), ("rename", .rename), ("to", .to),
    ("distinct", .distinct), ("order", .order), ("by", .by), ("asc", .asc), ("desc", .desc),
    ("limit", .limit), ("null", .null), ("default", .default), ("primary", .primary),
    ("key", .key), ("autoincrement", .autoIncrement), ("serial", .serial), ("engine", .engine),
    ("cast", .cast), ("as", .as), ("and", .and), ("or", .or)]

def Keyword.fromIdent (lower : Bytes) : Option Keyword :=
  (keywords.find? fun k => utf8 k.1 = lower).map Prod.snd

inductive Tok where
  | ident (name : Bytes)
  | number (digits : Bytes)
  | string (text : Bytes)
  | lParen | rParen | comma | star | semi | dot | eq
  | keyword (kw : Keyword)
deriving DecidableEq, Repr

/-- an error and where the tokenizer stood -/
inductive ParseError where
  | unexpectedCharacter (c : UInt8) (line column : ℕ)
  | unterminatedString (line column : ℕ)
  | unterminatedQuotedIdentifier (line column : ℕ)
  | expectedAtom (found : Option Tok) (line column : ℕ)
deriving DecidableEq, Repr

/-- the bytes that are left, and where the first of them stands -/
structure Tokenizer where
  rest : Bytes
  line : ℕ
  column : ℕ
deriving DecidableEq, Repr

namespace Tokenizer

def new (src : Bytes) : Tokenizer := ⟨src, 1, 1⟩

def advance (place : ℕ × ℕ) (b : UInt8) : ℕ × ℕ :=
  if b = ascii '\n' then (place.1 + 1, 1) else (place.1, place.2 + 1)

def bumpPos (t : Tokenizer) (n : ℕ) : Tokenizer :=
  let (line, column) := (t.rest.take n).foldl advance (t.line, t.column)
  ⟨t.rest.drop n, line, column⟩

/-- `while p(src[pos]) { bump_pos(1) }` -/
def bumpWhile (t : Tokenizer) (p : UInt8 → Bool) : Tokenizer :=
  t.bumpPos (t.rest.takeWhile p).length

def isAsciiWhitespace (b : UInt8) : Bool :=
  b = ascii ' ' ∨ b = ascii '\t' ∨ b = ascii '\n' ∨ b = 12 ∨ b = ascii '\r'

def isAsciiDigit (b : UInt8) : Bool := ascii '0' ≤ b ∧ b ≤ ascii '9'

def isAsciiAlphabetic (b : UInt8) : Bool :=
  (ascii 'a' ≤ b ∧ b ≤ ascii 'z') ∨ (ascii 'A' ≤ b ∧ b ≤ ascii 'Z')

def toAsciiLowercase (b : UInt8) : UInt8 :=
  if ascii 'A' ≤ b ∧ b ≤ ascii 'Z' then b + 32 else b

/-! ## white space and comments -/

/-- the bytes of a block comment before its end; an open one leaves its last byte -/
def blockLength : Bytes → ℕ
  | a :: b :: rest => if a = ascii '*' ∧ b = ascii '/' then 0 else blockLength (b :: rest) + 1
  | _ => 0

def skipBlock (t : Tokenizer) : Tokenizer :=
  let opened := t.bumpPos 2
  let closing := opened.bumpPos (blockLength opened.rest)
  if closing.rest.length > 1 then closing.bumpPos 2 else closing

/-- one round of the loop; `none` ends it -/
def skipOne (t : Tokenizer) : Option Tokenizer :=
  match t.rest with
  | [] => none
  | b :: rest =>
    if isAsciiWhitespace b then some (t.bumpPos 1)
    else if b = ascii '-' ∧ rest.head? = some (ascii '-') then
      some (t.bumpWhile (· ≠ ascii '\n'))
    else if b = ascii '/' ∧ rest.head? = some (ascii '*') then some t.skipBlock
    else none

def skipWsWith : ℕ → Tokenizer → Tokenizer
  | 0, t => t
  | fuel + 1, t =>
    match t.skipOne with
    | some s => skipWsWith fuel s
    | none => t

def skipWs (t : Tokenizer) : Tokenizer := skipWsWith t.rest.length t

/-! ## tokens -/

/-- the bytes of a string before its closing quote; a doubled quote belongs to the string -/
def stringLength : Bytes → Option ℕ
  | [] => none
  | [b] => if b = ascii '\'' then some 0 else none
  | b :: c :: rest =>
    if b = ascii '\'' then
      if c = ascii '\'' then (stringLength rest).map (· + 2) else some 0
    else (stringLength (c :: rest)).map (· + 1)

def readString (t : Tokenizer) : Except ParseError (Option Tok × Tokenizer) :=
  let opened := t.bumpPos 1
  match stringLength opened.rest with
  | some n => .ok (some (.string (opened.rest.take n)), opened.bumpPos (n + 1))
  | none => .error (.unterminatedString t.line t.column)

def readQuotedIdent (t : Tokenizer) : Except ParseError (Option Tok × Tokenizer) :=
  let opened := t.bumpPos 1
  let closing := opened.bumpWhile (· ≠ ascii '"')
  if closing.rest = [] then .error (.unterminatedQuotedIdentifier t.line t.column)
  else .ok (some (.ident (opened.rest.takeWhile (· ≠ ascii '"'))), closing.bumpPos 1)

def readNumber (t : Tokenizer) : Option Tok × Tokenizer :=
  let digit := fun b => isAsciiDigit b || b = ascii '.'
  (some (.number (t.rest.takeWhile digit)), t.bumpWhile digit)

def readIdent (t : Tokenizer) : Option Tok × Tokenizer :=
  let letter := fun b => isAsciiAlphabetic b || isAsciiDigit b || b = ascii '_'
  let raw := t.rest.takeWhile letter
  let tok := match Keyword.fromIdent (raw.map toAsciiLowercase) with
    | some kw => .keyword kw
    | none => .ident raw
  (some tok, t.bumpWhile letter)

def punct (b : UInt8) : Option Tok :=
  if b = ascii '(' then some .lParen
  else if b = ascii ')' then some .rParen
  else if b = ascii ',' then some .comma
  else if b = ascii '*' then some .star
  else if b = ascii '.' then some .dot
  else if b = ascii '=' then some .eq
  else if b = ascii ';' then some .semi
  else none

def nextToken (t : Tokenizer) : Except ParseError (Option Tok × Tokenizer) :=
  let s := t.skipWs
  match s.rest with
  | [] => .ok (none, s)
  | b :: _ =>
    match punct b with
    | some tok => .ok (some tok, s.bumpPos 1)
    | none =>
      if b = ascii '\'' then s.readString
      else if b = ascii '"' then s.readQuotedIdent
      else if isAsciiDigit b then .ok s.readNumber
      else if isAsciiAlphabetic b || b = ascii '_' then .ok s.readIdent
      else .error (.unexpectedCharacter b s.line s.column)

/-- the state is put back -/
def peekToken (t : Tokenizer) : Except ParseError (Option Tok) := t.nextToken.map Prod.fst

/-! ## what is left -/

theorem bumpPos_rest (t : Tokenizer) (n : ℕ) : (t.bumpPos n).rest = t.rest.drop n := rfl

/-- `s` is behind `t` -/
def Behind (s t : Tokenizer) : Prop := s.rest <:+ t.rest ∧ s.rest.length < t.rest.length

theorem Behind.of_suffix {r s t : Tokenizer} (h : r.Behind s) (h' : s.rest <:+ t.rest) :
    r.Behind t := ⟨h.1.trans h', h.2.trans_le h'.length_le⟩

theorem Behind.after {r s t : Tokenizer} (h : r.rest <:+ s.rest) (h' : s.Behind t) :
    r.Behind t := ⟨h.trans h'.1, h.length_le.trans_lt h'.2⟩

theorem Behind.trans {r s t : Tokenizer} (h : r.Behind s) (h' : s.Behind t) : r.Behind t :=
  h.of_suffix h'.1

theorem bumpPos_suffix (t : Tokenizer) (n : ℕ) : (t.bumpPos n).rest <:+ t.rest :=
  List.drop_suffix n t.rest

theorem bumpPos_behind {t : Tokenizer} {n : ℕ} (hn : 0 < n) (ht : t.rest ≠ []) :
    (t.bumpPos n).Behind t := by
  refine ⟨bumpPos_suffix t n, ?_⟩
  have := List.length_pos_iff.mpr ht
  rw [bumpPos_rest, List.length_drop]
  omega

theorem bumpWhile_behind {t : Tokenizer} {p : UInt8 → Bool} {b : UInt8} {rest : Bytes}
    (ht : t.rest = b :: rest) (hb : p b = true) : (t.bumpWhile p).Behind t := by
  apply bumpPos_behind
  · rw [ht, List.takeWhile_cons_of_pos hb]
    exact Nat.succ_pos _
  · rw [ht]
    exact List.cons_ne_nil b rest

theorem skipBlock_behind {t : Tokenizer} (ht : t.rest ≠ []) : t.skipBlock.Behind t := by
  apply Behind.after (s := t.bumpPos 2) _ (bumpPos_behind (by omega) ht)
  unfold skipBlock
  dsimp only
  split_ifs
  · exact (bumpPos_suffix _ _).trans (bumpPos_suffix _ _)
  · exact bumpPos_suffix _ _

theorem skipOne_behind {s t : Tokenizer} (h : t.skipOne = some s) : s.Behind t := by
  unfold skipOne at h
  cases ht : t.rest with
  | nil =>
    rw [ht] at h
    cases h
  | cons b rest =>
    have hne : t.rest ≠ [] := ht ▸ List.cons_ne_nil b rest
    rw [ht] at h
    dsimp only at h
    split_ifs at h with h1 h2 h3
    · obtain rfl := Option.some.inj h
      exact bumpPos_behind (by omega) hne
    · obtain rfl := Option.some.inj h
      -- a dash is not the end of the line
      exact bumpWhile_behind ht (by rw [h2.1]; decide)
    · obtain rfl := Option.some.inj h
      exact skipBlock_behind hne

theorem skipWsWith_suffix (fuel : ℕ) (t : Tokenizer) : (skipWsWith fuel t).rest <:+ t.rest := by
  induction fuel generalizing t with
  | zero => exact List.suffix_refl _
  | succ fuel ih =>
    unfold skipWsWith
    cases h : t.skipOne with
    | none => exact List.suffix_refl _
    | some s => exact (ih s).trans (skipOne_behind h).1

/-- **The loop ends by itself:** every round takes a byte. -/
theorem skipWsWith_stops (fuel : ℕ) (t : Tokenizer) (h : t.rest.length ≤ fuel) :
    (skipWsWith fuel t).skipOne = none := by
  induction fuel generalizing t with
  | zero =>
    have hnil := List.length_eq_zero_iff.mp (Nat.le_zero.mp h)
    unfold skipWsWith skipOne
    rw [hnil]
  | succ fuel ih =>
    unfold skipWsWith
    cases hs : t.skipOne with
    | none => exact hs
    | some s =>
      have := (skipOne_behind hs).2
      exact ih s (by omega)

theorem skipWs_stops (t : Tokenizer) : t.skipWs.skipOne = none := skipWsWith_stops _ t le_rfl

theorem skipWs_suffix (t : Tokenizer) : t.skipWs.rest <:+ t.rest := skipWsWith_suffix _ t

/-! ## what a token takes -/

theorem readString_behind {s t : Tokenizer} {tok : Option Tok} (ht : t.rest ≠ [])
    (h : t.readString = .ok (tok, s)) : s.Behind t := by
  unfold readString at h
  dsimp only at h
  split at h
  · obtain ⟨-, rfl⟩ := Prod.mk.inj (Except.ok.inj h)
    exact Behind.after (bumpPos_suffix _ _) (bumpPos_behind (by omega) ht)
  · cases h

theorem readQuotedIdent_behind {s t : Tokenizer} {tok : Option Tok} (ht : t.rest ≠ [])
    (h : t.readQuotedIdent = .ok (tok, s)) : s.Behind t := by
  unfold readQuotedIdent at h
  dsimp only at h
  split_ifs at h
  · obtain ⟨-, rfl⟩ := Prod.mk.inj (Except.ok.inj h)
    exact Behind.after ((bumpPos_suffix _ _).trans (bumpPos_suffix _ _))
      (bumpPos_behind (by omega) ht)

/-- **A token takes at least one byte off the front.** -/
theorem nextToken_behind {s t : Tokenizer} {tok : Tok} (h : t.nextToken = .ok (some tok, s)) :
    s.Behind t := by
  suffices hs : s.Behind t.skipWs from hs.of_suffix (skipWs_suffix t)
  unfold nextToken at h
  dsimp only at h
  cases ht : t.skipWs.rest with
  | nil =>
    rw [ht] at h
    cases h
  | cons b rest =>
    have hne : t.skipWs.rest ≠ [] := ht ▸ List.cons_ne_nil b rest
    rw [ht] at h
    dsimp only at h
    cases hp : punct b with
    | some tok =>
      rw [hp] at h
      obtain ⟨-, rfl⟩ := Prod.mk.inj (Except.ok.inj h)
      exact bumpPos_behind (by omega) hne
    | none =>
      rw [hp] at h
      dsimp only at h
      split_ifs at h with h1 h2 h3 h4
      · exact readString_behind hne h
      · exact readQuotedIdent_behind hne h
      · obtain ⟨-, rfl⟩ := Prod.mk.inj (Except.ok.inj h)
        exact bumpWhile_behind ht (by rw [h3, Bool.true_or])
      · obtain ⟨-, rfl⟩ := Prod.mk.inj (Except.ok.inj h)
        refine bumpWhile_behind ht ?_
        rw [Bool.or_right_comm, h4, Bool.true_or]

/-- a number has digits and points only -/
theorem nextToken_number {s t : Tokenizer} {digits : Bytes} (h : t.nextToken = .ok (some (.number digits), s)) :
    ∀ b ∈ digits, isAsciiDigit b || b = ascii '.' := by
  unfold nextToken at h
  dsimp only at h
  cases ht : t.skipWs.rest with
  | nil =>
    rw [ht] at h
    cases h
  | cons b rest =>
    rw [ht] at h
    dsimp only at h
    cases hp : punct b with
    | some tok =>
      rw [hp] at h
      obtain ⟨htok, -⟩ := Prod.mk.inj (Except.ok.inj h)
      obtain rfl := Option.some.inj htok
      unfold punct at hp
      split_ifs at hp <;> cases hp
    | none =>
      rw [hp] at h
      dsimp only at h
      split_ifs at h with h1 h2 h3 h4
      · unfold readString at h
        dsimp only at h
        split at h <;> cases h
      · unfold readQuotedIdent at h
        dsimp only at h
        split_ifs at h
        cases h
      · obtain ⟨htok, -⟩ := Prod.mk.inj (Except.ok.inj h)
        obtain rfl := Tok.number.inj (Option.some.inj htok)
        intro c hc
        exact List.all_eq_true.mp List.all_takeWhile c hc
      · obtain ⟨htok, -⟩ := Prod.mk.inj (Except.ok.inj h)
        have := Option.some.inj htok
        split at this <;> cases this

/-! ## a run of tokens -/

/-- the tokens `toks` stand between `t` and `s` -/
def Reads : Tokenizer → List Tok → Tokenizer → Prop
  | t, [], s => t = s
  | t, tok :: toks, s => ∃ r, t.nextToken = .ok (some tok, r) ∧ Reads r toks s

/-- a run of tokens can be checked by reading it -/
instance decidableReads : (t : Tokenizer) → (toks : List Tok) → (s : Tokenizer) →
    Decidable (Reads t toks s)
  | t, [], s => inferInstanceAs (Decidable (t = s))
  | t, tok :: toks, s =>
    match h : t.nextToken with
    | .ok (some read, r) =>
      match decEq read tok, decidableReads r toks s with
      | isTrue he, isTrue hr => isTrue ⟨r, he ▸ h, hr⟩
      | isFalse hn, _ => isFalse fun ⟨_, hq, _⟩ =>
        hn (Option.some.inj (Prod.mk.inj (Except.ok.inj (h.symm.trans hq))).1)
      | _, isFalse hn => isFalse fun ⟨_, hq, hs⟩ =>
        hn ((Prod.mk.inj (Except.ok.inj (h.symm.trans hq))).2 ▸ hs)
    | .ok (none, _) => isFalse fun ⟨_, hq, _⟩ =>
      nomatch (Prod.mk.inj (Except.ok.inj (h.symm.trans hq))).1
    | .error _ => isFalse fun ⟨_, hq, _⟩ => nomatch h.symm.trans hq

theorem reads_append {t s : Tokenizer} {xs ys : List Tok} :
    Reads t (xs ++ ys) s ↔ ∃ r, Reads t xs r ∧ Reads r ys s := by
  induction xs generalizing t with
  | nil =>
    constructor
    · intro h
      exact ⟨t, rfl, h⟩
    · rintro ⟨r, rfl, h⟩
      exact h
  | cons x xs ih =>
    constructor
    · rintro ⟨r, hr, h⟩
      obtain ⟨q, hq, hs⟩ := ih.mp h
      exact ⟨q, ⟨r, hr, hq⟩, hs⟩
    · rintro ⟨q, ⟨r, hr, hq⟩, hs⟩
      exact ⟨r, hr, ih.mpr ⟨q, hq, hs⟩⟩

theorem Reads.suffix {t s : Tokenizer} {toks : List Tok} (h : Reads t toks s) :
    s.rest <:+ t.rest := by
  induction toks generalizing t with
  | nil => exact h ▸ List.suffix_refl _
  | cons tok toks ih =>
    obtain ⟨r, hr, h⟩ := h
    exact (ih h).trans (nextToken_behind hr).1

theorem Reads.behind {t s : Tokenizer} {tok : Tok} {toks : List Tok}
    (h : Reads t (tok :: toks) s) : s.Behind t := by
  obtain ⟨r, hr, h⟩ := h
  exact Behind.after h.suffix (nextToken_behind hr)

/-- a token that was read is the one that is seen -/
theorem Reads.peek {t s : Tokenizer} {tok : Tok} {toks : List Tok}
    (h : Reads t (tok :: toks) s) : t.peekToken = .ok (some tok) := by
  obtain ⟨r, hr, -⟩ := h
  unfold peekToken
  rw [hr]
  rfl

/-- every token takes a byte -/
theorem reads_length_le {t s : Tokenizer} {toks : List Tok} (h : Reads t toks s) : toks.length + s.rest.length ≤ t.rest.length := by
  induction toks generalizing t with
  | nil =>
    rw [h]
    exact (Nat.zero_add _).le
  | cons tok toks ih =>
    obtain ⟨r, hr, h⟩ := h
    have := (nextToken_behind hr).2
    have := ih h
    rw [List.length_cons]
    omega

theorem reads_number {t s : Tokenizer} {toks : List Tok} {digits : Bytes} (h : Reads t toks s)
    (hmem : .number digits ∈ toks) : ∀ b ∈ digits, isAsciiDigit b || b = ascii '.' := by
  induction toks generalizing t with
  | nil => cases hmem
  | cons tok toks ih =>
    obtain ⟨r, hr, h⟩ := h
    obtain rfl | hmem := List.mem_cons.mp hmem
    · exact nextToken_number hr
    · exact ih h hmem

end Tokenizer

end Moagan.Sql
