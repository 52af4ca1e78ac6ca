import Mathlib.Data.List.DropRight
import Moagan.Json.Text
import Moagan.Validators.SqlTokens

/-!
# Splitting a script into statements (`src/validators/sql_validator.rs`)

* `splitStatements`       the script cut at its semicolons; it knows of single quotes only
* `lexemes`               the script as the tokenizer walks over it: white space, comments, tokens
* `lexemes_tokens`        the tokens among them are those the tokenizer reports
* `splitStatements_cuts`  the cuts are at the semicolons among the tokens

The pieces are texts: every byte is pushed as a character of its own.
-/

namespace Moagan.Sql

open Tokenizer

/-- `b as char` -/
def asChar (b : UInt8) : Char := Char.ofUInt8 b

/-- the bytes of a text -/
def encode (text : List Char) : Bytes := text.flatMap String.utf8EncodeChar

/-- `str::trim` -/
def trim (text : List Char) : List Char := (text.dropWhile isWhitespace).rdropWhile isWhitespace

/-- what is pushed for a fragment; empty ones are dropped -/
def piece (current : List Char) : List (List Char) :=
  let trimmed := trim current
  if trimmed = [] then [] else [trimmed]

/-- the loop over the bytes, inside a literal or outside of one -/
def splitFrom : Bool → List Char → Bytes → List (List Char)
  | _, current, [] => piece current
  | true, current, [b] => piece (current ++ [asChar b])
  | true, current, b :: c :: rest =>
    if b = ascii '\'' then
      if c = ascii '\'' then splitFrom true (current ++ [asChar b, '\'']) rest
      else splitFrom false (current ++ [asChar b]) (c :: rest)
    else splitFrom true (current ++ [asChar b]) (c :: rest)
  | false, current, b :: rest =>
    if b = ascii '\'' then splitFrom true (current ++ ['\'']) rest
    else if b = ascii ';' then piece current ++ splitFrom false [] rest
    else splitFrom false (current ++ [asChar b]) rest

def splitStatements (source : Bytes) : List (List Char) := splitFrom false [] source

/-! ## the walk of the tokenizer -/

/-- white space or a comment, or a token -/
structure Lexeme where
  bytes : Bytes
  tok : Option Tok
deriving DecidableEq, Repr

/-- the bytes between two positions -/
def taken (t s : Tokenizer) : Bytes := t.rest.take (t.rest.length - s.rest.length)

def lexeme (t : Tokenizer) : Option (Lexeme × Tokenizer) :=
  match t.skipOne with
  | some s => some (⟨taken t s, none⟩, s)
  | none =>
    match t.nextToken with
    | .ok (some tok, s) => some (⟨taken t s, some tok⟩, s)
    | _ => none

/-- the lexemes up to the end or the first error, and where that is -/
def lexemesWith : ℕ → Tokenizer → List Lexeme × Tokenizer
  | 0, t => ([], t)
  | fuel + 1, t =>
    match lexeme t with
    | some (l, s) =>
      let (ls, r) := lexemesWith fuel s
      (l :: ls, r)
    | none => ([], t)

def lexemes (src : Bytes) : List Lexeme × Tokenizer := lexemesWith src.length (new src)

def bytesOf (ls : List Lexeme) : Bytes := ls.flatMap Lexeme.bytes

/-- the bytes between the separators -/
def segments (ls : List Lexeme) : List Bytes :=
  (ls.splitOnP fun l => l.tok = some .semi).map bytesOf

/-- neither an apostrophe nor a semicolon -/
def Plain (bs : Bytes) : Prop := ascii '\'' ∉ bs ∧ ascii ';' ∉ bs

/-- comments and quoted identifiers have neither an apostrophe nor a semicolon -/
def Lexeme.Unquoting (l : Lexeme) : Prop :=
  l.tok = none ∨ l.bytes.head? = some (ascii '"') → Plain l.bytes

/-! ## what a lexeme takes -/

section
variable {r s t : Tokenizer} {l : Lexeme}

theorem taken_append (h : s.rest <:+ t.rest) : taken t s ++ s.rest = t.rest := by
  obtain ⟨front, hfront⟩ := h
  unfold taken
  rw [← hfront, List.length_append, Nat.add_sub_cancel, List.take_left]

theorem taken_of_drop {n : ℕ} (h : s.rest = t.rest.drop n) : taken t s = t.rest.take n := by
  unfold taken
  rw [h, List.length_drop]
  by_cases hn : n ≤ t.rest.length
  · rw [Nat.sub_sub_self hn]
  · rw [List.take_of_length_le (by omega), List.take_of_length_le (by omega)]

theorem taken_bumpWhile (t : Tokenizer) (p : UInt8 → Bool) :
    taken t (t.bumpWhile p) = t.rest.takeWhile p :=
  (taken_of_drop rfl).trans (List.prefix_iff_eq_take.mp (List.takeWhile_prefix p)).symm

theorem skipWs_of_stop (h : t.skipOne = none) : t.skipWs = t := by
  unfold skipWs
  cases t.rest.length with
  | zero => rfl
  | succ fuel =>
    unfold skipWsWith
    rw [h]

theorem lexeme_behind (h : lexeme t = some (l, s)) : s.Behind t := by
  unfold lexeme at h
  cases hskip : t.skipOne with
  | some r =>
    rw [hskip] at h
    obtain ⟨-, rfl⟩ := Prod.mk.inj (Option.some.inj h)
    exact skipOne_behind hskip
  | none =>
    rw [hskip] at h
    dsimp only at h
    split at h
    · obtain ⟨-, rfl⟩ := Prod.mk.inj (Option.some.inj h)
      exact nextToken_behind ‹_›
    · cases h

theorem lexeme_bytes (h : lexeme t = some (l, s)) : l.bytes = taken t s := by
  unfold lexeme at h
  cases hskip : t.skipOne with
  | some r =>
    rw [hskip] at h
    obtain ⟨rfl, rfl⟩ := Prod.mk.inj (Option.some.inj h)
    rfl
  | none =>
    rw [hskip] at h
    dsimp only at h
    split at h
    · obtain ⟨rfl, rfl⟩ := Prod.mk.inj (Option.some.inj h)
      rfl
    · cases h

theorem lexeme_append (h : lexeme t = some (l, s)) : l.bytes ++ s.rest = t.rest := by
  rw [lexeme_bytes h]
  exact taken_append (lexeme_behind h).1

theorem lexeme_head (h : lexeme t = some (l, s)) : l.bytes.head? = t.rest.head? := by
  have hlt := (lexeme_behind h).2
  rw [← lexeme_append h] at hlt ⊢
  cases hl : l.bytes with
  | nil =>
    rw [hl, List.nil_append] at hlt
    omega
  | cons b bs => rfl

/-- a token starts where the tokenizer stands -/
theorem lexeme_token {tok : Tok} (h : lexeme t = some (l, s)) (htok : l.tok = some tok) :
    t.skipWs = t ∧ t.nextToken = .ok (some tok, s) := by
  unfold lexeme at h
  cases hskip : t.skipOne with
  | some r =>
    rw [hskip] at h
    obtain ⟨rfl, -⟩ := Prod.mk.inj (Option.some.inj h)
    cases htok
  | none =>
    rw [hskip] at h
    dsimp only at h
    split at h
    · rename_i hnext
      obtain ⟨rfl, rfl⟩ := Prod.mk.inj (Option.some.inj h)
      exact ⟨skipWs_of_stop hskip, Option.some.inj htok ▸ hnext⟩
    · cases h

/-! ## the tokens among the lexemes -/

theorem skipWsWith_enough {fuel : ℕ} (h : t.rest.length ≤ fuel) : skipWsWith fuel t = t.skipWs := by
  suffices hany : ∀ (a b : ℕ) (t : Tokenizer), t.rest.length ≤ a → t.rest.length ≤ b →
      skipWsWith a t = skipWsWith b t from hany fuel t.rest.length t h le_rfl
  intro a
  induction a with
  | zero =>
    intro b t ha _
    have hstop : t.skipOne = none := by
      unfold skipOne
      rw [List.length_eq_zero_iff.mp (Nat.le_zero.mp ha)]
    cases b with
    | zero => rfl
    | succ b =>
      unfold skipWsWith
      rw [hstop]
  | succ a ih =>
    intro b t ha hb
    cases hone : t.skipOne with
    | none =>
      cases b with
      | zero =>
        unfold skipWsWith
        rw [hone]
      | succ b =>
        unfold skipWsWith
        rw [hone]
    | some s =>
      have hlt := (skipOne_behind hone).2
      cases b with
      | zero => omega
      | succ b =>
        unfold skipWsWith
        rw [hone]
        exact ih b s (by omega) (by omega)

theorem skipWs_of_skipOne (h : t.skipOne = some s) : t.skipWs = s.skipWs := by
  have hlt := (skipOne_behind h).2
  rw [← skipWsWith_enough (t := t) (Nat.le_succ t.rest.length), skipWsWith, h]
  exact skipWsWith_enough (by omega)

theorem nextToken_of_skipWs (h : t.skipWs = s.skipWs) : t.nextToken = s.nextToken := by
  unfold nextToken
  rw [h]

/-- the tokens do not depend on the white space in front of them -/
theorem reads_of_skipWs {toks : List Tok} (h : t.skipWs = s.skipWs) (hs : Reads s toks r) :
    ∃ q, Reads t toks q ∧ q.skipWs = r.skipWs := by
  cases toks with
  | nil =>
    obtain rfl := hs
    exact ⟨t, rfl, h⟩
  | cons tok toks =>
    obtain ⟨o, ho, hs⟩ := hs
    exact ⟨r, ⟨o, (nextToken_of_skipWs h).trans ho, hs⟩, rfl⟩

theorem tokens_run {fuel : ℕ} {ls : List Lexeme} (h : lexemesWith fuel t = (ls, s))
    (hfuel : t.rest.length ≤ fuel) :
    (∃ q, Reads t (ls.filterMap Lexeme.tok) q ∧ q.skipWs = s.skipWs) ∧ lexeme s = none := by
  induction fuel generalizing t ls with
  | zero =>
    obtain ⟨rfl, rfl⟩ := Prod.mk.inj h
    refine ⟨⟨t, rfl, rfl⟩, ?_⟩
    cases hone : lexeme t with
    | none => rfl
    | some p =>
      have := (lexeme_behind (l := p.1) (s := p.2) hone).2
      omega
  | succ fuel ih =>
    unfold lexemesWith at h
    cases hone : lexeme t with
    | none =>
      rw [hone] at h
      obtain ⟨rfl, rfl⟩ := Prod.mk.inj h
      exact ⟨⟨t, rfl, rfl⟩, hone⟩
    | some p =>
      obtain ⟨l, o⟩ := p
      rw [hone] at h
      obtain ⟨rfl, rfl⟩ := Prod.mk.inj h
      have hlt := (lexeme_behind hone).2
      obtain ⟨⟨q, hq, hws⟩, hend⟩ := ih (t := o) rfl (by omega)
      refine ⟨?_, hend⟩
      cases htok : l.tok with
      | some tok =>
        rw [List.filterMap_cons_some htok]
        exact ⟨q, ⟨o, (lexeme_token hone htok).2, hq⟩, hws⟩
      | none =>
        rw [List.filterMap_cons_none htok]
        have hskip : t.skipWs = o.skipWs := by
          unfold lexeme at hone
          cases hs : t.skipOne with
          | some r =>
            rw [hs] at hone
            obtain ⟨-, rfl⟩ := Prod.mk.inj (Option.some.inj hone)
            exact skipWs_of_skipOne hs
          | none =>
            rw [hs] at hone
            dsimp only at hone
            split at hone
            · obtain ⟨rfl, -⟩ := Prod.mk.inj (Option.some.inj hone)
              cases htok
            · cases hone
        obtain ⟨q', hq', hws'⟩ := reads_of_skipWs hskip hq
        exact ⟨q', hq', hws'.trans hws⟩

/-- **The tokens among the lexemes are those the tokenizer reports,** up to the end of the text or
its first error. -/
theorem lexemes_tokens (src : Bytes) :
    ∃ q, Reads (new src) ((lexemes src).1.filterMap Lexeme.tok) q ∧
      ∀ tok r, q.nextToken ≠ .ok (some tok, r) := by
  obtain ⟨⟨q, hq, hws⟩, hend⟩ := tokens_run
    (show lexemesWith src.length (new src) = ((lexemes src).1, (lexemes src).2) from rfl) le_rfl
  refine ⟨q, hq, fun tok r hnext => ?_⟩
  rw [nextToken_of_skipWs hws] at hnext
  unfold lexeme at hend
  split at hend
  · cases hend
  · rw [hnext] at hend
    cases hend

/-! ## what the splitter does with a lexeme -/

theorem splitFrom_plain {bs : Bytes} (h : Plain bs) (current : List Char) (rest : Bytes) :
    splitFrom false current (bs ++ rest) = splitFrom false (current ++ bs.map asChar) rest := by
  induction bs generalizing current with
  | nil => rw [List.map_nil, List.append_nil, List.nil_append]
  | cons b bs ih =>
    obtain ⟨hquote, hsemi⟩ := h
    have hq := List.ne_of_not_mem_cons hquote
    have hs := List.ne_of_not_mem_cons hsemi
    have hbs : Plain bs :=
      ⟨List.not_mem_of_not_mem_cons hquote, List.not_mem_of_not_mem_cons hsemi⟩
    rw [List.cons_append, splitFrom, if_neg (Ne.symm hq), if_neg (Ne.symm hs), ih hbs,
      List.map_cons, List.append_assoc, List.singleton_append]

/-- inside a literal both scanners look for the same quote -/
theorem splitFrom_string {bs : Bytes} {n : ℕ} (h : stringLength bs = some n)
    (current : List Char) :
    splitFrom true current bs
      = splitFrom false (current ++ (bs.take (n + 1)).map asChar) (bs.drop (n + 1)) := by
  induction bs using stringLength.induct generalizing current n with
  | case1 => cases h
  | case2 =>
    obtain rfl := Option.some.inj h
    rfl
  | case3 b hb =>
    unfold stringLength at h
    rw [if_neg hb] at h
    cases h
  | case4 rest ih =>
    unfold stringLength at h
    rw [if_pos rfl, if_pos rfl] at h
    obtain ⟨m, hm, rfl⟩ := Option.map_eq_some_iff.mp h
    rw [splitFrom, if_pos rfl, if_pos rfl, ih hm, List.append_assoc]
    rfl
  | case5 c rest hc =>
    unfold stringLength at h
    rw [if_pos rfl, if_neg hc] at h
    obtain rfl := Option.some.inj h
    rw [splitFrom, if_pos rfl, if_neg hc]
    rfl
  | case6 b c rest hb ih =>
    unfold stringLength at h
    rw [if_neg hb] at h
    obtain ⟨m, hm, rfl⟩ := Option.map_eq_some_iff.mp h
    rw [splitFrom, if_neg hb, ih hm, List.append_assoc]
    rfl

theorem plain_takeWhile {bs : Bytes} {p : UInt8 → Bool} (hq : p (ascii '\'') = false)
    (hs : p (ascii ';') = false) : Plain (bs.takeWhile p) := by
  have hall := List.all_eq_true.mp (List.all_takeWhile (p := p) (l := bs))
  refine ⟨fun hmem => ?_, fun hmem => ?_⟩
  · rw [hall _ hmem] at hq
    cases hq
  · rw [hall _ hmem] at hs
    cases hs

/-- **What the two scanners agree on:** a token that is no separator is passed over. -/
theorem splitFrom_token {tok : Tok} (h : lexeme t = some (l, s)) (htok : l.tok = some tok)
    (hsemi : tok ≠ .semi) (hl : l.Unquoting) (current : List Char) :
    splitFrom false current t.rest = splitFrom false (current ++ l.bytes.map asChar) s.rest := by
  obtain ⟨hskip, hnext⟩ := lexeme_token h htok
  -- it is enough that the token is plain
  have hplain (hp : Plain l.bytes) :
      splitFrom false current t.rest = splitFrom false (current ++ l.bytes.map asChar) s.rest := by
    rw [← lexeme_append h]
    exact splitFrom_plain hp current s.rest
  have hbytes := lexeme_bytes h
  unfold nextToken at hnext
  rw [hskip] at hnext
  dsimp only at hnext
  cases hrest : t.rest with
  | nil =>
    rw [hrest] at hnext
    cases hnext
  | cons b rest =>
    rw [hrest] at hnext
    dsimp only at hnext
    cases hp : punct b with
    | some tok' =>
      rw [hp] at hnext
      obtain ⟨htok', rfl⟩ := Prod.mk.inj (Except.ok.inj hnext)
      obtain rfl := Option.some.inj htok'
      rw [taken_of_drop (n := 1) rfl, hrest] at hbytes
      rw [← hrest]
      apply hplain
      rw [hbytes]
      refine ⟨fun hmem => ?_, fun hmem => ?_⟩
      · obtain rfl := List.mem_singleton.mp hmem
        cases hp
      · obtain rfl := List.mem_singleton.mp hmem
        exact hsemi (Option.some.inj hp).symm
    | none =>
      rw [hp] at hnext
      dsimp only at hnext
      split_ifs at hnext with h1 h2 h3 h4
      · obtain rfl := h1
        unfold readString at hnext
        dsimp only at hnext
        split at hnext
        · rename_i n hn
          obtain ⟨-, rfl⟩ := Prod.mk.inj (Except.ok.inj hnext)
          rw [bumpPos_rest, hrest, List.drop_one, List.tail_cons] at hn
          have hs : ((t.bumpPos 1).bumpPos (n + 1)).rest = t.rest.drop (n + 2) := by
            rw [bumpPos_rest, bumpPos_rest, List.drop_drop, Nat.add_comm 1]
          rw [taken_of_drop hs, hrest] at hbytes
          rw [hs, hrest, hbytes, splitFrom, if_pos rfl, splitFrom_string hn, List.append_assoc]
          rfl
        · cases hnext
      · obtain rfl := h2
        rw [← hrest]
        exact hplain (hl (.inr (by rw [lexeme_head h, hrest]; rfl)))
      · obtain ⟨-, rfl⟩ := Prod.mk.inj (Except.ok.inj hnext)
        rw [← hrest]
        apply hplain
        rw [hbytes]
        rw [taken_bumpWhile]
        exact plain_takeWhile (by decide) (by decide)
      · obtain ⟨-, rfl⟩ := Prod.mk.inj (Except.ok.inj hnext)
        rw [← hrest]
        apply hplain
        rw [hbytes]
        rw [taken_bumpWhile]
        exact plain_takeWhile (by decide) (by decide)

theorem splitFrom_lexeme (h : lexeme t = some (l, s)) (hsemi : l.tok ≠ some .semi)
    (hl : l.Unquoting) (current : List Char) :
    splitFrom false current t.rest = splitFrom false (current ++ l.bytes.map asChar) s.rest := by
  cases htok : l.tok with
  | none =>
    rw [← lexeme_append h]
    exact splitFrom_plain (hl (.inl htok)) current s.rest
  | some tok => exact splitFrom_token h htok (fun heq => hsemi (by rw [htok, heq])) hl current

/-- a separator is a semicolon, and the only token that is one -/
theorem lexeme_semi (h : lexeme t = some (l, s)) (hsemi : l.tok = some .semi) :
    t.rest = ascii ';' :: s.rest ∧ l.bytes = [ascii ';'] := by
  obtain ⟨hskip, hnext⟩ := lexeme_token h hsemi
  have hbytes := lexeme_bytes h
  unfold nextToken at hnext
  rw [hskip] at hnext
  dsimp only at hnext
  cases hrest : t.rest with
  | nil =>
    rw [hrest] at hnext
    cases hnext
  | cons b rest =>
    rw [hrest] at hnext
    dsimp only at hnext
    cases hp : punct b with
    | some tok =>
      rw [hp] at hnext
      obtain ⟨htok, rfl⟩ := Prod.mk.inj (Except.ok.inj hnext)
      obtain rfl := Option.some.inj htok
      have hb : b = ascii ';' := by
        unfold punct at hp
        split_ifs at hp <;> first | assumption | cases hp
      obtain rfl := hb
      rw [taken_of_drop (n := 1) rfl, hrest] at hbytes
      rw [bumpPos_rest, hrest]
      exact ⟨rfl, hbytes⟩
    | none =>
      rw [hp] at hnext
      dsimp only at hnext
      split_ifs at hnext with h1 h2 h3 h4
      · unfold readString at hnext
        dsimp only at hnext
        split at hnext <;> cases hnext
      · unfold readQuotedIdent at hnext
        dsimp only at hnext
        split_ifs at hnext
        cases hnext
      · cases hnext
      · have htok := (Prod.mk.inj (Except.ok.inj hnext)).1
        have := Option.some.inj htok
        split at this <;> cases this

/-! ## a run of lexemes -/

/-- what is left of a script that is cut into segments: all but the last are pieces -/
def finish (rest : Bytes) (current : List Char) : List Bytes → List (List Char)
  | [] => splitFrom false current rest
  | [last] => splitFrom false (current ++ last.map asChar) rest
  | seg :: segs => piece (current ++ seg.map asChar) ++ finish rest [] segs

theorem finish_cons (rest : Bytes) (current : List Char) (seg : Bytes) {segs : List Bytes}
    (h : segs ≠ []) : finish rest current (seg :: segs)
      = piece (current ++ seg.map asChar) ++ finish rest [] segs := by
  cases segs with
  | nil => exact absurd rfl h
  | cons s segs => rfl

theorem segments_ne_nil (ls : List Lexeme) : segments ls ≠ [] := by
  unfold segments
  rw [Ne, List.map_eq_nil_iff]
  exact List.splitOnP_ne_nil _ ls

theorem segments_semi {ls : List Lexeme} (h : l.tok = some .semi) :
    segments (l :: ls) = [] :: segments ls := by
  unfold segments
  rw [List.splitOnP_cons_eq_if_modifyHead, if_pos (decide_eq_true h)]
  rfl

theorem segments_other {ls : List Lexeme} (h : l.tok ≠ some .semi) :
    segments (l :: ls) = (segments ls).modifyHead (l.bytes ++ ·) := by
  unfold segments
  rw [List.splitOnP_cons_eq_if_modifyHead, if_neg (by simpa using h)]
  obtain ⟨seg, segs, hs⟩ := List.exists_cons_of_ne_nil
    (List.splitOnP_ne_nil (fun l : Lexeme => l.tok = some .semi) ls)
  rw [hs]
  rfl

theorem split_run {fuel : ℕ} {ls : List Lexeme} (h : lexemesWith fuel t = (ls, s))
    (hls : ∀ l ∈ ls, l.Unquoting) (current : List Char) :
    splitFrom false current t.rest = finish s.rest current (segments ls) := by
  induction fuel generalizing t ls current with
  | zero =>
    obtain ⟨rfl, rfl⟩ := Prod.mk.inj h
    exact (congrArg (splitFrom false · t.rest) (List.append_nil current)).symm
  | succ fuel ih =>
    unfold lexemesWith at h
    cases hone : lexeme t with
    | none =>
      rw [hone] at h
      obtain ⟨rfl, rfl⟩ := Prod.mk.inj h
      exact (congrArg (splitFrom false · t.rest) (List.append_nil current)).symm
    | some p =>
      obtain ⟨l, q⟩ := p
      rw [hone] at h
      obtain ⟨rfl, rfl⟩ := Prod.mk.inj h
      have hrun := ih rfl fun k hk => hls k (List.mem_cons_of_mem l hk)
      by_cases hsemi : l.tok = some .semi
      · obtain ⟨hrest, -⟩ := lexeme_semi hone hsemi
        rw [segments_semi hsemi, finish_cons _ _ _ (segments_ne_nil _), hrest, splitFrom,
          if_neg (by decide), if_pos rfl, hrun, List.map_nil, List.append_nil]
      · rw [segments_other hsemi, splitFrom_lexeme hone hsemi (hls l List.mem_cons_self), hrun]
        obtain ⟨seg, segs, hs⟩ := List.exists_cons_of_ne_nil
          (segments_ne_nil (lexemesWith fuel q).1)
        rw [hs]
        cases segs with
        | nil => simp [finish]
        | cons seg' segs => simp [finish]

/-- the bytes of the lexemes are the bytes that were walked over -/
theorem lexemes_bytes {fuel : ℕ} {ls : List Lexeme} (h : lexemesWith fuel t = (ls, s)) :
    [ascii ';'].intercalate (segments ls) ++ s.rest = t.rest := by
  induction fuel generalizing t ls with
  | zero =>
    obtain ⟨rfl, rfl⟩ := Prod.mk.inj h
    rfl
  | succ fuel ih =>
    unfold lexemesWith at h
    cases hone : lexeme t with
    | none =>
      rw [hone] at h
      obtain ⟨rfl, rfl⟩ := Prod.mk.inj h
      rfl
    | some p =>
      obtain ⟨l, q⟩ := p
      rw [hone] at h
      obtain ⟨rfl, rfl⟩ := Prod.mk.inj h
      have hrun := ih (t := q) rfl
      obtain ⟨seg, segs, hs⟩ := List.exists_cons_of_ne_nil (segments_ne_nil (lexemesWith fuel q).1)
      rw [hs] at hrun
      by_cases hsemi : l.tok = some .semi
      · rw [segments_semi hsemi, (lexeme_semi hone hsemi).1, hs, List.intercalate_cons_cons,
          ← hrun]
        rfl
      · rw [segments_other hsemi, hs, ← lexeme_append hone, ← hrun]
        cases segs with
        | nil => simp
        | cons seg' segs => simp [List.intercalate_cons_cons]

theorem mem_intercalate {segs : List Bytes} {seg : Bytes} {b : UInt8} (hseg : seg ∈ segs)
    (hb : b ∈ seg) : b ∈ [ascii ';'].intercalate segs := by
  induction segs with
  | nil => cases hseg
  | cons s segs ih =>
    cases segs with
    | nil =>
      obtain rfl := List.mem_singleton.mp hseg
      simpa using hb
    | cons s' segs =>
      rw [List.intercalate_cons_cons]
      obtain rfl | hseg := List.mem_cons.mp hseg
      · exact List.mem_append_left _ (List.mem_append_left _ hb)
      · exact List.mem_append_right _ (ih hseg)

/-! ## pieces as bytes -/

def trimBytes (bs : Bytes) : Bytes :=
  (bs.dropWhile fun b => isWhitespace (asChar b)).rdropWhile fun b => isWhitespace (asChar b)

theorem trim_map (bs : Bytes) : trim (bs.map asChar) = (trimBytes bs).map asChar := by
  unfold trim trimBytes List.rdropWhile
  rw [List.dropWhile_map, List.map_reverse, ← List.map_reverse, List.dropWhile_map]
  rfl

/-- an ASCII byte is the encoding of its character -/
theorem encode_asChar {b : UInt8} (hb : b < 128) : String.utf8EncodeChar (asChar b) = [b] := by
  have hval : (asChar b).val.toNat = b.toNat := UInt8.toNat_toUInt32 b
  have hle : b.toNat ≤ 0x7f := Nat.le_of_lt_succ (UInt8.lt_iff_toNat_lt.mp hb)
  unfold String.utf8EncodeChar
  dsimp only
  rw [hval, if_pos hle, UInt8.ofNat_toNat]

theorem encode_map {bs : Bytes} (h : ∀ b ∈ bs, b < 128) : encode (bs.map asChar) = bs := by
  induction bs with
  | nil => rfl
  | cons b bs ih =>
    have := ih fun c hc => h c (List.mem_cons_of_mem b hc)
    rw [encode, List.map_cons, List.flatMap_cons, encode_asChar (h b List.mem_cons_self)]
    exact congrArg (b :: ·) this

theorem encode_piece {bs : Bytes} (h : ∀ b ∈ bs, b < 128) :
    (piece (bs.map asChar)).map encode = [trimBytes bs].filter (· ≠ []) := by
  have htrim : ∀ b ∈ trimBytes bs, b < 128 := fun b hb =>
    h b ((List.dropWhile_suffix _).subset ((List.rdropWhile_prefix _ _).subset hb))
  unfold piece
  dsimp only
  rw [trim_map]
  by_cases hnil : trimBytes bs = []
  · rw [hnil]
    rfl
  · rw [if_neg (by rwa [List.map_eq_nil_iff]), List.map_singleton, encode_map htrim,
      List.filter_cons_of_pos (by simpa using hnil)]
    rfl

theorem encode_pieces {segs : List Bytes} (h : ∀ seg ∈ segs, ∀ b ∈ seg, b < 128) :
    (segs.flatMap fun seg => piece (seg.map asChar)).map encode
      = (segs.map trimBytes).filter (· ≠ []) := by
  induction segs with
  | nil => rfl
  | cons seg segs ih =>
    have := ih fun s hs => h s (List.mem_cons_of_mem seg hs)
    rw [List.flatMap_cons, List.map_append, encode_piece (h seg List.mem_cons_self), this,
      ← List.filter_append]
    rfl

theorem finish_concat (rest : Bytes) (closed : List Bytes) (last : Bytes) :
    finish rest [] (closed ++ [last])
      = (closed.flatMap fun seg => piece (seg.map asChar)) ++
        splitFrom false (last.map asChar) rest := by
  induction closed with
  | nil => rfl
  | cons seg closed ih =>
    rw [List.cons_append, finish_cons _ _ _ (by simp), ih, List.flatMap_cons, List.append_assoc]
    rfl

end

/-! ## the cuts -/

/-- whether the condition on comments and quoted identifiers holds can be read off -/
instance (l : Lexeme) : Decidable l.Unquoting :=
  inferInstanceAs (Decidable (l.tok = none ∨ l.bytes.head? = some (ascii '"') →
    ascii '\'' ∉ l.bytes ∧ ascii ';' ∉ l.bytes))

/-- **The splitter cuts at the separators of the tokenizer,** in an ASCII text whose comments and
quoted identifiers have neither an apostrophe nor a semicolon: the segments between the separators
make up what the tokenizer read; each of them but the last is a piece of its own, trimmed and
dropped when nothing is left; and so is the last, when the tokenizer read all of the text. -/
theorem splitStatements_cuts (src : Bytes) (hascii : ∀ b ∈ src, b < 128)
    (hplain : ∀ l ∈ (lexemes src).1, l.Unquoting) :
    [ascii ';'].intercalate (segments (lexemes src).1) ++ (lexemes src).2.rest = src ∧
    (∀ closed last, segments (lexemes src).1 = closed ++ [last] →
      (splitStatements src).map encode = (closed.map trimBytes).filter (· ≠ []) ++
        (splitFrom false (last.map asChar) (lexemes src).2.rest).map encode) ∧
    ((lexemes src).2.rest = [] → (splitStatements src).map encode
      = ((segments (lexemes src).1).map trimBytes).filter (· ≠ [])) := by
  have hwalk : lexemesWith src.length (new src) = ((lexemes src).1, (lexemes src).2) := rfl
  have hbytes : [ascii ';'].intercalate (segments (lexemes src).1) ++ (lexemes src).2.rest = src :=
    lexemes_bytes hwalk
  have hrun := split_run hwalk hplain []
  have hall : ∀ seg ∈ segments (lexemes src).1, ∀ b ∈ seg, b < 128 := fun seg hseg b hb =>
    hascii b (hbytes ▸ List.mem_append_left _ (mem_intercalate hseg hb))
  have hcut : ∀ closed last, segments (lexemes src).1 = closed ++ [last] →
      (splitStatements src).map encode = (closed.map trimBytes).filter (· ≠ []) ++
        (splitFrom false (last.map asChar) (lexemes src).2.rest).map encode := by
    intro closed last hseg
    have hclosed : ∀ seg ∈ closed, ∀ b ∈ seg, b < 128 := fun seg hs =>
      hall seg (hseg ▸ List.mem_append_left _ hs)
    rw [hseg, finish_concat] at hrun
    rw [← encode_pieces hclosed, ← List.map_append]
    exact congrArg _ hrun
  refine ⟨hbytes, hcut, fun hrest => ?_⟩
  obtain ⟨closed, last, hseg⟩ := (List.eq_nil_or_concat (segments (lexemes src).1)).resolve_left
    (segments_ne_nil _)
  rw [List.concat_eq_append] at hseg
  have hlast : ∀ b ∈ last, b < 128 :=
    hall last (hseg ▸ List.mem_append_right closed (List.mem_singleton_self last))
  rw [hcut closed last hseg, hseg, hrest, List.map_append, List.filter_append]
  exact congrArg _ (encode_piece hlast)

/-- a literal with a semicolon, a quoted identifier, a comment, an empty statement -/
theorem splitStatements_cuts_script :
    (splitStatements (utf8 "SELECT 'it''s; a' FROM \"t\" -- all\n; ;\tDELETE FROM t;")).map encode
      = [utf8 "SELECT 'it''s; a' FROM \"t\" -- all", utf8 "DELETE FROM t"] :=
  ((splitStatements_cuts (utf8 "SELECT 'it''s; a' FROM \"t\" -- all\n; ;\tDELETE FROM t;")
    (by decide +kernel) (by decide +kernel)).2.2 (by decide +kernel)).trans (by decide +kernel)

/-- white space is lost at the cut, a comment is cut, and a longer character becomes two -/
theorem splitStatements_alters :
    [ascii ';'].intercalate ((splitStatements (utf8 "SELECT 1; SELECT 2")).map encode)
      ≠ utf8 "SELECT 1; SELECT 2" ∧
    ((lexemes (utf8 "SELECT 1 -- a;b")).1.filterMap Lexeme.tok
        = [.keyword .select, .number (utf8 "1")] ∧
      (splitStatements (utf8 "SELECT 1 -- a;b")).map encode = [utf8 "SELECT 1 -- a", utf8 "b"]) ∧
    (splitStatements (utf8 "SELECT 'é'")).map encode = [utf8 "SELECT 'Ã©'"] := by
  decide +kernel

end Moagan.Sql
