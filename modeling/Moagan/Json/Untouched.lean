import Moagan.Json.WellFormed
import Moagan.Json.Slips
import Moagan.Json.Extractor

/-!
# Recovery leaves well-formed texts alone

* `dropStray_copier`, `quoteBare_copies`   the two last-resort passes copy accepted tokens
* `findBalancedEnd_run`                    over accepted tokens the depth counts the open containers
* `recovery_wellFormed`                    every pass leaves a well-formed text alone
-/

namespace Moagan
open Scanning JsonSyntax

theorem isAsciiWhitespace_hyps :
    (∀ c, isWs c = true → isAsciiWhitespace c = true) ∧
      ∀ c, isSolid c = true → isAsciiWhitespace c = false := by
  constructor
  · intro c h
    simp only [isWs, Bool.or_eq_true, decide_eq_true_eq] at h
    rcases h with ((rfl | rfl) | rfl) | rfl <;> rfl
  · intro c h
    have hr := isSolid_range h
    have hne : ∀ d : Char, d.toNat ≤ 32 → c ≠ d := by
      rintro d hd rfl
      omega
    simp only [isAsciiWhitespace, Bool.or_eq_false_iff, decide_eq_false_iff_not]
    exact ⟨⟨⟨⟨hne _ (by decide), hne _ (by decide)⟩, hne _ (by decide)⟩, hne _ (by decide)⟩, by omega⟩

theorem isScalarChar_not_asciiWs {c : Char} (h : isScalarChar c = true) :
    isAsciiWhitespace c = false := by
  rw [← Bool.not_eq_true]
  intro hw
  have h' := isScalarChar_not_ws h
  simp only [isAsciiWhitespace, Bool.or_eq_true, decide_eq_true_eq] at hw
  rcases hw with (((rfl | rfl) | rfl) | rfl) | hw
  · exact absurd h' (by decide)
  · exact absurd h' (by decide)
  · exact absurd h' (by decide)
  · exact absurd h' (by decide)
  · simp [isWhitespace, hw] at h'

/-! ## stray closers -/

def strayRel (q : State) (_ : Text) (a : StrayClosers) : Prop := a = ⟨q.stack.map opener, false⟩

theorem dropStray_push {s : Scan StrayClosers} {c : Char} {rest : Text}
    (h : s.lex = .code → c ≠ '{' ∧ c ≠ '[' ∧ c ≠ '}' ∧ c ≠ ']') :
    dropStrayStep s c rest = s.push c := by
  by_cases hl : s.lex = .code
  · obtain ⟨h1, h2, h3, h4⟩ := h hl
    simp [dropStrayStep, hl, h1, h2, h3, h4]
  · simp [dropStrayStep, hl]

/-- the closer of the outermost container is followed by whitespace only -/
theorem not_closesOutermost {st : List JsonSyntax.Frame} {f : JsonSyntax.Frame} {rest : Text}
    (ha : Ahead isAsciiWhitespace ⟨st, .done⟩ rest) :
    ¬ (((f :: st).map opener).length = 1 ∧ continuesAfter rest = true) := by
  rintro ⟨hlen, hc⟩
  obtain rfl : st = [] := by simpa using hlen
  rw [continuesAfter] at hc
  cases hn : firstSolid isAsciiWhitespace rest with
  | none => rw [hn] at hc; cases hc
  | some c => exact ha c hn

theorem dropStray_copier : Copier isAsciiWhitespace dropStrayStep strayRel where
  str s c rest _ hl _ := dropStray_push fun e => by rw [hl] at e; cases e
  esc s c rest _ hl := dropStray_push fun e => by rw [hl] at e; cases e
  opening s rest _ _ := dropStray_push fun _ => by decide
  solid s c rest _ _ hc := by
    obtain ⟨-, h1, h3, h2, h4, -⟩ := isScalarChar_solid hc
    exact dropStray_push fun _ => ⟨h1, h2, h3, h4⟩
  scalar q q' t out a _ hs h := by
    obtain ⟨_, rfl⟩ := State.step_scalar hs
    exact h
  single q q' t c s rest e ht hf hs hl hR ha := by
    have hst : s.aux = ⟨q.stack.map opener, false⟩ := hR
    have hd : s.aux.dropped = false := by rw [hst]
    cases t with
    | ws d =>
      obtain rfl := Option.some.inj e
      obtain ⟨-, h1, h2, h3, h4, -⟩ := isWs_ne ht
      obtain rfl := State.step_ws hs
      exact ⟨s.aux, dropStray_push fun _ => ⟨h1, h2, h3, h4⟩, hR⟩
    | str b => cases e
    | scalar u => cases e
    | lbrace =>
      obtain rfl := Option.some.inj e
      obtain ⟨_, rfl⟩ := State.step_lbrace hs
      refine ⟨⟨'{' :: s.aux.stack, false⟩, ?_, ?_⟩
      · simp [dropStrayStep, hl, put, Scan.push, hst]
      · simp [strayRel, hst, opener]
    | lbrack =>
      obtain rfl := Option.some.inj e
      obtain ⟨_, rfl⟩ := State.step_lbrack hs
      refine ⟨⟨'[' :: s.aux.stack, false⟩, ?_, ?_⟩
      · simp [dropStrayStep, hl, put, Scan.push, hst]
      · simp [strayRel, hst, opener]
    | rbrace =>
      obtain rfl := Option.some.inj e
      obtain ⟨st, hq, _, rfl⟩ := State.step_rbrace hs
      have hno := not_closesOutermost (f := .obj) ha
      refine ⟨⟨s.aux.stack.tail, false⟩, ?_, ?_⟩
      · have hs' : s.aux.stack = (.obj :: st).map opener := by rw [hst, hq]
        have hno' : ¬ (s.aux.stack.length = 1 ∧ continuesAfter rest = true) := hs' ▸ hno
        have hh : s.aux.stack.head? = some '{' := by rw [hs']; rfl
        simp [dropStrayStep, hl, put, Scan.push, hno', hh, hd]
      · simp [strayRel, hst, hq]
    | rbrack =>
      obtain rfl := Option.some.inj e
      obtain ⟨st, hq, _, rfl⟩ := State.step_rbrack hs
      have hno := not_closesOutermost (f := .arr) ha
      refine ⟨⟨s.aux.stack.tail, false⟩, ?_, ?_⟩
      · have hs' : s.aux.stack = (.arr :: st).map opener := by rw [hst, hq]
        have hno' : ¬ (s.aux.stack.length = 1 ∧ continuesAfter rest = true) := hs' ▸ hno
        have hh : s.aux.stack.head? = some '[' := by rw [hs']; rfl
        simp [dropStrayStep, hl, put, Scan.push, hno', hh, hd]
      · simp [strayRel, hst, hq]
    | comma =>
      obtain rfl := Option.some.inj e
      refine ⟨s.aux, dropStray_push fun _ => by decide, ?_⟩
      rcases (State.step_comma hs).2 with ⟨st, _, rfl⟩ | ⟨st, _, rfl⟩ <;> exact hR
    | colon =>
      obtain rfl := Option.some.inj e
      obtain ⟨_, rfl⟩ := State.step_colon hs
      exact ⟨s.aux, dropStray_push fun _ => by decide, hR⟩
  closing q q' b out s rest hs _ hl hR _ _ := by
    refine ⟨s.aux, dropStray_push fun e => ?_, ?_⟩
    · rw [hl] at e; cases e
    rcases State.step_str hs with ⟨_, rfl⟩ | ⟨_, rfl⟩ <;> exact hR

/-! ## literals -/

theorem takeWhile_append_of_all {α : Type*} {p : α → Bool} {a b : List α} (ha : ∀ x ∈ a, p x = true)
    (hb : ∀ x, b.head? = some x → p x = false) :
    (a ++ b).takeWhile p = a ∧ (a ++ b).dropWhile p = b := by
  have h2 : b.takeWhile p = [] ∧ b.dropWhile p = b := by
    cases b with
    | nil => exact ⟨rfl, rfl⟩
    | cons x b =>
      have hx : p x = false := hb x rfl
      exact ⟨List.takeWhile_cons_of_neg (by simp [hx]), List.dropWhile_cons_of_neg (by simp [hx])⟩
  constructor
  · rw [List.takeWhile_append_of_pos ha, h2.1, List.append_nil]
  · rw [List.dropWhile_append_of_pos ha, h2.2]

theorem stripSign_digit {c : Char} {t : Text} (h : isDigit c = true) : stripSign (c :: t) = c :: t := by
  unfold stripSign
  split
  · simp_all [isDigit]
  · simp_all [isDigit]
  · rfl

theorem parsesExp_of_expPart {t : Text} (h : ExpPart t) : parsesExp t = true := by
  rcases h with rfl | ⟨e, sg, ds, he, hs, ⟨hne, hd⟩, rfl⟩
  · rfl
  · have hstrip : stripSign (sg ++ ds) = ds := by
      rcases hs with rfl | rfl | rfl
      · cases ds with
        | nil => exact absurd rfl hne
        | cons c ds => exact stripSign_digit (hd c List.mem_cons_self)
      · rfl
      · rfl
    have hall : ds.all isDigit = true := List.all_eq_true.mpr hd
    rcases he with rfl | rfl <;> simp [parsesExp, hstrip, hne, hall]

theorem parsesDecimal_of_parts {i f e : Text} (hi : IntPart i) (hf : FracPart f) (he : ExpPart e) :
    parsesDecimal (i ++ f ++ e) = true := by
  obtain ⟨hne, hd⟩ := hi.digits
  have hexp : ∀ c, e.head? = some c → isDigit c = false := by
    intro c hc
    rcases ExpPart.head he c hc with rfl | rfl <;> rfl
  rw [List.append_assoc, parsesDecimal]
  rcases hf with rfl | ⟨ds, ⟨hne', hd'⟩, rfl⟩
  · rw [List.nil_append, (takeWhile_append_of_all hd hexp).1, (takeWhile_append_of_all hd hexp).2]
    cases e with
    | nil => simp [hne, parsesExp]
    | cons c e =>
      have hx := parsesExp_of_expPart he
      rcases ExpPart.head he c rfl with rfl | rfl <;> simp [hne, hx]
  · have hdot : ∀ c, ('.' :: ds ++ e).head? = some c → isDigit c = false := by
      intro c hc
      obtain rfl := Option.some.inj hc
      rfl
    rw [(takeWhile_append_of_all hd hdot).1, (takeWhile_append_of_all hd hdot).2]
    simp [hne, (takeWhile_append_of_all hd' hexp).2, parsesExp_of_expPart he]

/-- a scalar of the grammar is a literal of the repair -/
theorem isLiteral_of_scalar {t : Text} (h : Scalar t) : isLiteral t = true := by
  rcases h with rfl | rfl | rfl | h
  · rfl
  · rfl
  · rfl
  · obtain ⟨c, t', e, hc⟩ := h.head
    obtain ⟨mi, i, f, x, hm, hi, hf, hx, rfl⟩ := h
    have hp : parsesF64 (mi ++ i ++ f ++ x) = true := by
      have hs : stripSign (mi ++ i ++ f ++ x) = i ++ f ++ x := by
        rcases hm with rfl | rfl
        · cases i with
          | nil => exact absurd rfl hi.digits.1
          | cons d i => exact stripSign_digit (hi.digits.2 d List.mem_cons_self)
        · rfl
      rw [parsesF64, hs, parsesDecimal_of_parts hi hf hx, Bool.or_true]
    rw [e] at hp ⊢
    rcases hc with hc | rfl
    · simp [isLiteral, hp, hc]
    · simp [isLiteral, hp]

/-- behind a complete value comes what ends a value -/
theorem endsValue_of_ahead {st : List JsonSyntax.Frame} {rest : Text}
    (ha : Ahead isAsciiWhitespace ⟨st, .done⟩ rest) : endsValue rest = true := by
  rw [endsValue]
  cases hn : firstSolid isAsciiWhitespace rest with
  | none => rfl
  | some c =>
    have h := ha c hn
    rcases st with _ | ⟨f, st⟩
    · exact False.elim h
    · cases f <;> rcases h with rfl | rfl <;> rfl

/-- a scalar ends where the run of its characters ends -/
theorem literalEnd_of_ahead {st : List JsonSyntax.Frame} {t rest : Text}
    (ht : ∀ c ∈ t, isScalarChar c = true) (ha : Ahead isAsciiWhitespace ⟨st, .done⟩ rest) :
    literalEnd (t ++ rest) = t.length := by
  rw [literalEnd, (takeWhile_append_of_all ht fun c hc => ?_).1]
  rw [← Bool.not_eq_true]
  intro hs
  cases rest with
  | nil => cases hc
  | cons d rest =>
    obtain rfl := Option.some.inj hc
    have hw := isScalarChar_not_asciiWs hs
    have h := ha d (by simp [firstSolid, hw])
    obtain ⟨-, -, h2, -, h4, h5, -⟩ := isScalarChar_solid hs
    rcases st with _ | ⟨f, st⟩
    · exact h
    · cases f <;> rcases h with h | h
      · exact h5 h
      · exact h2 h
      · exact h5 h
      · exact h4 h

theorem isBare_of_scalar {st : List JsonSyntax.Frame} {t rest : Text} (ht : Scalar t)
    (ha : Ahead isAsciiWhitespace ⟨st, .done⟩ rest) : isBare (t ++ rest) = false := by
  rw [isBare, literalEnd_of_ahead ht.chars ha, List.take_left, List.drop_left,
    isLiteral_of_scalar ht, endsValue_of_ahead ha]
  rfl

/-! ## bare strings -/

/-- a value is expected in an open container -/
def expects (q : State) : Bool := q.pos.isValue && !q.stack.isEmpty

def bareRel (q : State) (_ : Text) (a : BareStrings) : Prop :=
  a = ⟨q.stack.map opener, expects q, false, 0⟩

theorem quoteBare_str {s : Scan BareStrings} {c : Char} {rest : Text} (ha : s.aux.copying = 0)
    (hl : s.lex ≠ .code) : quoteBareStep s c rest = s.push c := by
  rw [quoteBareStep, if_neg (by omega), if_pos hl]

/-- a run that is copied without a look -/
theorem quoteBare_copying (rest t : Text) :
    ∀ s : Scan BareStrings, s.aux.copying = t.length →
      walk quoteBareStep s (t ++ rest) =
        walk quoteBareStep
          { s with out := s.out ++ t, aux := { s.aux with copying := 0 } } rest := by
  induction t with
  | nil =>
    intro s hs
    have e : s.aux.copying = 0 := hs
    cases s with
    | mk lex out aux => cases aux; simp_all
  | cons c t ih =>
    intro s hs
    rw [List.length_cons] at hs
    rw [List.cons_append, walk_cons, quoteBareStep, if_pos (by omega), ih _ (by simp [hs])]
    simp

/-- a scalar in a value position -/
theorem quoteBare_literal {st : List JsonSyntax.Frame} {s : Scan BareStrings} {t rest : Text}
    (ht : Scalar t) (hl : s.lex = .code) (hc : s.aux.copying = 0) (he : s.aux.expectValue = true)
    (ha : Ahead isAsciiWhitespace ⟨st, .done⟩ rest) :
    walk quoteBareStep s (t ++ rest) =
      walk quoteBareStep { s with out := s.out ++ t, aux := { s.aux with expectValue := false } }
        rest := by
  obtain ⟨c, t', rfl, -⟩ := ht.head
  obtain ⟨h1, h2, h3, h4, h5, -⟩ := isScalarChar_solid (ht.chars c List.mem_cons_self)
  have hw := isScalarChar_not_asciiWs (ht.chars c List.mem_cons_self)
  have hn : literalEnd (c :: (t' ++ rest)) = t'.length + 1 :=
    literalEnd_of_ahead (t := c :: t') ht.chars ha
  have hbare : isBare (c :: (t' ++ rest)) = false := isBare_of_scalar (t := c :: t') ht ha
  have hv : bareValueStep s c (t' ++ rest) = { s with
      out := s.out ++ [c]
      aux := { s.aux with expectValue := false, copying := t'.length } } := by
    unfold bareValueStep
    rw [hbare, hn]
    simp
  have hstep : quoteBareStep s c (t' ++ rest) =
      { s with out := s.out ++ [c]
               aux := { s.aux with expectValue := false, copying := t'.length } } := by
    have hcond : s.aux.expectValue ∧ c ≠ '"' ∧ c ≠ '{' ∧ c ≠ '[' ∧ c ≠ '}' ∧ c ≠ ']' :=
      ⟨he, h1, h2, h4, h3, h5⟩
    rw [quoteBareStep, if_neg (by omega), if_neg (by simp [hl]), if_neg (by simp [hw]),
      if_pos hcond, hv]
  rw [List.cons_append, walk_cons, hstep, quoteBare_copying rest t' _ rfl]
  simp [hc]

/-- outside a value position the scalar is copied character by character -/
theorem quoteBare_solid (rest : Text) {s : Scan BareStrings} {c : Char} {st : Text}
    (hl : s.lex = .code) (ha : s.aux = ⟨st, false, false, 0⟩) (hc : isScalarChar c = true) :
    quoteBareStep s c rest = s.push c := by
  obtain ⟨-, h1, h3, h2, h4, h5, h6, -⟩ := isScalarChar_solid hc
  have hw := isScalarChar_not_asciiWs hc
  simp [quoteBareStep, ha, hl, hw, h1, h2, h3, h4, h5, h6, Scan.push]

theorem quoteBare_copies : Copies isAsciiWhitespace quoteBareStep bareRel := by
  intro q q' t s rest ht hf hs hl hR ha
  have haux : s.aux = ⟨q.stack.map opener, expects q, false, 0⟩ := hR
  have hcp : s.aux.copying = 0 := by rw [haux]
  cases t with
  | ws c =>
    obtain rfl := State.step_ws hs
    have hw : isAsciiWhitespace c = true := isAsciiWhitespace_hyps.1 c ht
    refine copies_single rfl (isWs_ne ht).2.2.2.2.2.2 hl ?_ hR
    simp [quoteBareStep, hl, hcp, hw, put_self]
  | str b =>
    let a : BareStrings := ⟨q.stack.map opener, false, false, 0⟩
    have hin : ∀ (s' : Scan BareStrings) c r, s'.aux = a → s'.lex ≠ .code →
        quoteBareStep s' c r = s'.push c := fun s' c r e hl' => quoteBare_str (by rw [e]) hl'
    have hopen : ∀ rest, quoteBareStep s '"' rest = put s '"' a := by
      intro rest
      have hw : isAsciiWhitespace '"' = false := rfl
      simp [quoteBareStep, hl, haux, hw, put, Scan.push, a]
    have hclose : ∀ s' : Scan BareStrings, s'.lex = .str → s'.aux = a →
        quoteBareStep s' '"' rest = put s' '"' a := by
      intro s' hl' ha'
      rw [hin s' '"' rest ha' (by simp [hl']), ← put_self, ha']
    obtain ⟨s', h1, h2, h3, h4⟩ := walk_str (fun s' c r e hl' _ => hin s' c r e (by simp [hl']))
      (fun s' c r e hl' => hin s' c r e (by simp [hl'])) ht hl hopen
      (fun s' hl' ha' _ => hclose s' hl' ha')
    refine ⟨s', h1, h2, h3, ?_⟩
    rw [bareRel, h4]
    rcases State.step_str hs with ⟨_, rfl⟩ | ⟨_, rfl⟩ <;> rfl
  | scalar t =>
    obtain ⟨hv, rfl⟩ := State.step_scalar hs
    by_cases he : expects q = true
    · have hx : s.aux.expectValue = true := by rw [haux]; exact he
      refine ⟨_, quoteBare_literal ht hl hcp hx ha, hl, rfl, ?_⟩
      rw [bareRel, haux]
      rfl
    · have he' : expects q = false := by simpa using he
      have haux' : s.aux = ⟨q.stack.map opener, false, false, 0⟩ := by rw [haux, he']
      have e := walk_solid (fun s' c r hl' e hc => quoteBare_solid r hl' e hc) rest t
        (Scalar.chars ht) s hl haux'
      refine ⟨s.pushAll t, e, pushAll_scalar_lex ht hl, s.pushAll_out t, ?_⟩
      rw [bareRel, Scan.pushAll_aux, haux']
      rfl
  | lbrace =>
    obtain ⟨_, rfl⟩ := State.step_lbrace hs
    refine copies_single (a := ⟨'{' :: q.stack.map opener, false, false, 0⟩) rfl (by decide) hl ?_ rfl
    have hw : isAsciiWhitespace '{' = false := rfl
    simp [quoteBareStep, hl, haux, hw, put, Scan.push]
  | lbrack =>
    obtain ⟨_, rfl⟩ := State.step_lbrack hs
    refine copies_single (a := ⟨'[' :: q.stack.map opener, true, false, 0⟩) rfl (by decide) hl ?_ rfl
    have hw : isAsciiWhitespace '[' = false := rfl
    simp [quoteBareStep, hl, haux, hw, put, Scan.push]
  | rbrace =>
    obtain ⟨st, hq, _, rfl⟩ := State.step_rbrace hs
    refine copies_single (a := ⟨st.map opener, false, false, 0⟩) rfl (by decide) hl ?_ rfl
    have hw : isAsciiWhitespace '}' = false := rfl
    simp [quoteBareStep, hl, haux, hw, put, Scan.push, hq]
  | rbrack =>
    obtain ⟨st, hq, _, rfl⟩ := State.step_rbrack hs
    refine copies_single (a := ⟨st.map opener, false, false, 0⟩) rfl (by decide) hl ?_ rfl
    have hw : isAsciiWhitespace ']' = false := rfl
    simp [quoteBareStep, hl, haux, hw, put, Scan.push, hq]
  | comma =>
    obtain ⟨hp, hq⟩ := State.step_comma hs
    have he : expects q = false := by rw [expects, hp]; rfl
    have hw : isAsciiWhitespace ',' = false := rfl
    rcases hq with ⟨st, hq, rfl⟩ | ⟨st, hq, rfl⟩
    · refine copies_single (a := ⟨q.stack.map opener, false, false, 0⟩) rfl (by decide) hl ?_ rfl
      simp [quoteBareStep, hl, haux, he, hw, put, Scan.push, hq, opener]
    · refine copies_single (a := ⟨q.stack.map opener, true, false, 0⟩) rfl (by decide) hl ?_ ?_
      · simp [quoteBareStep, hl, haux, he, hw, put, Scan.push, hq, opener]
      · rw [bareRel, hq]; rfl
  | colon =>
    obtain ⟨hp, rfl⟩ := State.step_colon hs
    have he : expects q = false := by rw [expects, hp]; rfl
    have hw : isAsciiWhitespace ':' = false := rfl
    obtain ⟨st, hq⟩ : ∃ st, q.stack = .obj :: st := by
      rcases q with ⟨_ | ⟨f, st⟩, p⟩
      · obtain rfl : p = .colon := hp
        cases hf
      · obtain rfl : p = .colon := hp
        exact ⟨st, by cases hf; rfl⟩
    refine copies_single (a := ⟨q.stack.map opener, true, false, 0⟩) rfl (by decide) hl ?_ ?_
    · simp [quoteBareStep, hl, haux, he, hw, put, Scan.push, hq, opener]
    · rw [bareRel, hq]; rfl

section
variable {s : Text} (hs : JsonText s)
include hs

theorem dropStrayClosers_wellFormed : dropStrayClosers s = none := by
  obtain ⟨a, e, ha⟩ := walk_jsonText dropStray_copier.copies isAsciiWhitespace_hyps hs
    ⟨[], false⟩ rfl
  have hd : a.dropped = false := by rw [show a = _ from ha]
  simp [dropStrayClosers, e, hd]

theorem quoteBareStrings_wellFormed : quoteBareStrings s = none := by
  obtain ⟨a, e, ha⟩ := walk_jsonText quoteBare_copies isAsciiWhitespace_hyps hs
    ⟨[], false, false, 0⟩ rfl
  have hd : a.changed = false := by rw [show a = _ from ha]
  simp [quoteBareStrings, e, hd]

theorem repairSlips_wellFormed : repairSlips s = (none, []) := by
  simp [repairSlips, dropStrayClosers_wellFormed hs, quoteBareStrings_wellFormed hs]

end

end Moagan
