import Moagan.Json.Repair
import Moagan.Lib.JsonScan

/-!
# The m3 chain on well-formed texts

Each pass of the chain is a `Copier`: over accepted tokens it copies its input.

* `strayComma_copier`, `missingColon_copier`, `separator_copier`, `bracket_copier`
* `pass_of_copier`   a pass that ends with nothing changed
-/

namespace Moagan
open Scanning JsonSyntax

/-! ## what can follow -/

theorem follow_colon {q : State} (h : q.follow ':') : q.pos = .colon := by
  rcases q with ⟨st, p⟩
  cases p with
  | colon => rfl
  | done =>
    cases st with
    | nil => exact False.elim h
    | cons f st => cases f <;> simp [State.follow] at h
  | value => exact absurd (show isValueStart ':' = true from h) (by decide)
  | valueOrEnd =>
    rcases h with h | h
    · exact absurd h (by decide)
    · exact absurd h (by decide)
  | keyOrEnd => simp [State.follow] at h
  | key => simp [State.follow] at h

theorem follow_open {q : State} {c : Char} (hc : c = '[' ∨ c = '{') (h : q.follow c) :
    q.pos = .value ∨ q.pos = .valueOrEnd := by
  rcases q with ⟨st, p⟩
  cases p with
  | value => exact Or.inl rfl
  | valueOrEnd => exact Or.inr rfl
  | done =>
    cases st with
    | nil => exact False.elim h
    | cons f st => rcases hc with rfl | rfl <;> cases f <;> simp [State.follow] at h
  | colon => rcases hc with rfl | rfl <;> simp [State.follow] at h
  | keyOrEnd => rcases hc with rfl | rfl <;> simp [State.follow] at h
  | key => rcases hc with rfl | rfl <;> simp [State.follow] at h

theorem isWs_ne {c : Char} (h : isWs c = true) :
    c ≠ ',' ∧ c ≠ '{' ∧ c ≠ '[' ∧ c ≠ '}' ∧ c ≠ ']' ∧ c ≠ ':' ∧ c ≠ '"' := by
  simp only [isWs, Bool.or_eq_true, decide_eq_true_eq] at h
  rcases h with ((rfl | rfl) | rfl) | rfl <;> decide

/-! ## the stray comma -/

theorem strayComma_push {s : Scan StrayComma} {c : Char} {rest : Text}
    (ha : s.aux = ⟨false, false⟩) (h : c = ',' → nextSolid rest ≠ some ':') :
    strayCommaStep s c rest = s.push c := by
  by_cases hl : s.lex = .code
  · have h2 : ¬ (c = ',' ∧ nextSolid rest = some ':') := fun e => h e.1 e.2
    rw [strayCommaStep, if_neg (by simpa using hl), if_neg (by simp [ha]), if_neg h2]
    cases s
    simp_all [Scan.push]
  · rw [strayCommaStep, if_pos hl]

theorem strayComma_copier :
    Copier isWhitespace strayCommaStep fun _ _ a => a = ⟨false, false⟩ where
  str s c rest := by
    rintro ⟨_, _, ha⟩ hl _
    rw [strayCommaStep, if_pos (by simp [hl])]
  esc s c rest := by
    rintro ⟨_, _, ha⟩ hl
    rw [strayCommaStep, if_pos (by simp [hl])]
  opening s rest := by
    rintro ⟨_, _, ha⟩ _
    exact strayComma_push ha fun e => absurd e (by decide)
  solid s c rest := by
    rintro ⟨_, _, ha⟩ _ hc
    exact strayComma_push ha fun e => absurd e (isScalarChar_solid hc).2.2.2.2.2.1
  scalar q q' t out a _ _ h := h
  single q q' t c s rest e ht _ hs hl hR ha := by
    refine ⟨s.aux, ?_, hR⟩
    rw [put_self]
    refine strayComma_push hR fun hc hn => ?_
    subst hc
    have e' : t = .comma := by
      cases t with
      | ws d => exact absurd (Option.some.inj e) (isWs_ne ht).1
      | comma => rfl
      | str b => cases e
      | scalar u => cases e
      | _ => exact absurd (Option.some.inj e) (by decide)
    subst e'
    have hq := follow_colon (ha ':' hn)
    rcases (State.step_comma hs).2 with ⟨st, _, rfl⟩ | ⟨st, _, rfl⟩ <;> cases hq
  closing q q' b out s rest _ _ hl hR _ _ := by
    refine ⟨s.aux, ?_, hR⟩
    rw [put_self, strayCommaStep, if_pos (by simp [hl])]

/-! ## the missing colon -/

theorem missingColon_push {s : Scan Bool} {c : Char} {rest : Text}
    (h : s.lex = .str → c = '"' → nextSolid rest ≠ some '[' ∧ nextSolid rest ≠ some '{') :
    missingColonStep s c rest = s.push c := by
  refine if_neg ?_
  rintro ⟨hl, hc, hn | hn⟩
  · exact (h hl hc).1 hn
  · exact (h hl hc).2 hn

theorem missingColon_copier : Copier isWhitespace missingColonStep fun _ _ a => a = false where
  str s c rest _ _ hc := missingColon_push fun _ e => absurd e hc
  esc s c rest _ hl := missingColon_push fun e => by rw [hl] at e; cases e
  opening s rest _ hl := missingColon_push fun e => by rw [hl] at e; cases e
  solid s c rest _ hl _ := missingColon_push fun e => by rw [hl] at e; cases e
  scalar q q' t out a _ _ h := h
  single q q' t c s rest _ _ _ _ hl hR _ := by
    refine ⟨s.aux, ?_, hR⟩
    rw [put_self]
    exact missingColon_push fun e => by rw [hl] at e; cases e
  closing q q' b out s rest hs _ _ hR _ ha := by
    refine ⟨s.aux, ?_, hR⟩
    rw [put_self]
    have hno : ∀ c, c = '[' ∨ c = '{' → nextSolid rest ≠ some c := by
      intro c hc hn
      have hq := follow_open hc (ha c hn)
      rcases State.step_str hs with ⟨_, rfl⟩ | ⟨_, rfl⟩ <;> simp at hq
    exact missingColon_push fun _ _ => ⟨hno _ (Or.inl rfl), hno _ (Or.inr rfl)⟩

/-! ## brackets -/

def opener : JsonSyntax.Frame → Char
  | .obj => '{'
  | .arr => '['

/-- the walk is still going, and its stack is the one of the machine -/
def bracketRel (q : State) (_ : Text) (a : Brackets) : Prop :=
  a = ⟨q.stack.map opener, none⟩

theorem bracket_push {s : Scan Brackets} {c : Char} {rest : Text} (ha : s.aux.returned = none)
    (h : s.lex = .code → c ≠ '{' ∧ c ≠ '[' ∧ c ≠ '}' ∧ c ≠ ']') :
    bracketStep s c rest = s.push c := by
  by_cases hl : s.lex = .code
  · obtain ⟨h1, h2, h3, h4⟩ := h hl
    simp [bracketStep, ha, hl, h1, h2, h3, h4]
  · simp [bracketStep, ha, hl]

theorem bracketRel_none {a : Brackets} (h : Related bracketRel a) : a.returned = none := by
  obtain ⟨q, out, h⟩ := h
  rw [show a = _ from h]

theorem bracket_copier : Copier isWhitespace bracketStep bracketRel where
  str s c rest h hl _ := bracket_push (bracketRel_none h) fun e => by rw [hl] at e; cases e
  esc s c rest h hl := bracket_push (bracketRel_none h) fun e => by rw [hl] at e; cases e
  opening s rest h _ := bracket_push (bracketRel_none h) fun _ => by decide
  solid s c rest h _ hc := by
    obtain ⟨-, h1, h3, h2, h4, -⟩ := isScalarChar_solid hc
    exact bracket_push (bracketRel_none h) fun _ => ⟨h1, h2, h3, h4⟩
  scalar q q' t out a _ hs h := by
    obtain ⟨_, rfl⟩ := State.step_scalar hs
    exact h
  single q q' t c s rest e ht hf hs hl hR _ := by
    have hr : s.aux.returned = none := bracketRel_none ⟨q, s.out, hR⟩
    have hst : s.aux.stack = q.stack.map opener := by rw [show s.aux = _ from hR]
    cases t with
    | ws d =>
      obtain rfl := Option.some.inj e
      obtain ⟨-, h1, h2, h3, h4, -⟩ := isWs_ne ht
      obtain rfl := State.step_ws hs
      exact ⟨s.aux, bracket_push hr fun _ => ⟨h1, h2, h3, h4⟩, hR⟩
    | str b => cases e
    | scalar u => cases e
    | lbrace =>
      obtain rfl := Option.some.inj e
      obtain ⟨_, rfl⟩ := State.step_lbrace hs
      refine ⟨⟨'{' :: s.aux.stack, none⟩, ?_, ?_⟩
      · simp [bracketStep, hr, hl, put, Scan.push]
      · simp [bracketRel, hst, opener]
    | lbrack =>
      obtain rfl := Option.some.inj e
      obtain ⟨_, rfl⟩ := State.step_lbrack hs
      refine ⟨⟨'[' :: s.aux.stack, none⟩, ?_, ?_⟩
      · simp [bracketStep, hr, hl, put, Scan.push]
      · simp [bracketRel, hst, opener]
    | rbrace =>
      obtain rfl := Option.some.inj e
      obtain ⟨st, hq, _, rfl⟩ := State.step_rbrace hs
      refine ⟨⟨s.aux.stack.tail, none⟩, ?_, ?_⟩
      · simp [bracketStep, hr, hl, put, Scan.push, hst, hq, opener, closer]
      · simp [bracketRel, hst, hq]
    | rbrack =>
      obtain rfl := Option.some.inj e
      obtain ⟨st, hq, _, rfl⟩ := State.step_rbrack hs
      refine ⟨⟨s.aux.stack.tail, none⟩, ?_, ?_⟩
      · simp [bracketStep, hr, hl, put, Scan.push, hst, hq, opener, closer]
      · simp [bracketRel, hst, hq]
    | comma =>
      obtain rfl := Option.some.inj e
      refine ⟨s.aux, bracket_push hr fun _ => by decide, ?_⟩
      rcases (State.step_comma hs).2 with ⟨st, _, rfl⟩ | ⟨st, _, rfl⟩ <;> exact hR
    | colon =>
      obtain rfl := Option.some.inj e
      obtain ⟨_, rfl⟩ := State.step_colon hs
      exact ⟨s.aux, bracket_push hr fun _ => by decide, hR⟩
  closing q q' b out s rest hs _ hl hR _ _ := by
    refine ⟨s.aux, bracket_push (bracketRel_none ⟨q, out, hR⟩) fun e => ?_, ?_⟩
    · rw [hl] at e; cases e
    · rcases State.step_str hs with ⟨_, rfl⟩ | ⟨_, rfl⟩ <;> exact hR

/-! ## separators -/

/-- the frame of an open container; `b`: it waits for a key -/
def sepFrame (b : Bool) : JsonSyntax.Frame → Frame
  | .obj => .object b
  | .arr => .array

/-- the frames of the open containers, where the outer ones are inside a value -/
def sepStack (b : Bool) : List JsonSyntax.Frame → List Frame
  | [] => []
  | f :: st => sepFrame b f :: st.map (sepFrame false)

theorem sepStack_false (st : List JsonSyntax.Frame) : sepStack false st = st.map (sepFrame false) := by
  cases st <;> rfl

def wantsKey : Pos → Bool
  | .key | .keyOrEnd => true
  | _ => false

theorem wantsKey_of_isValue {p : Pos} (h : p.isValue = true) : wantsKey p = false := by
  cases p <;> first | rfl | cases h

theorem map_markValue (st : List (Frame × Bool)) : (markValue st).map Prod.fst = st.map Prod.fst := by
  cases st <;> rfl

/-- `setExpectingKey` on the frames alone -/
theorem map_setExpectingKey {st : List (Frame × Bool)} {b b' : Bool} {fs : List JsonSyntax.Frame}
    (h : st.map Prod.fst = sepStack b' fs) :
    (setExpectingKey b st).map Prod.fst = sepStack b fs := by
  rcases st with _ | ⟨⟨f, v⟩, st⟩
  · cases fs with
    | nil => rfl
    | cons f fs => cases h
  · cases fs with
    | nil => cases h
    | cons g fs =>
      obtain ⟨h1, h2⟩ := List.cons.inj h
      have hf : f = sepFrame b' g := h1
      cases g <;> subst hf <;> simp [setExpectingKey, sepStack, sepFrame, h2]

theorem expectColon_eq {st : List (Frame × Bool)} {b : Bool} {fs : List JsonSyntax.Frame}
    {next : Char} (h : st.map Prod.fst = sepStack b fs) :
    expectColon st next =
      match fs with | [] => decide (next = ':') | .obj :: _ => b | .arr :: _ => false := by
  rcases st with _ | ⟨⟨f, v⟩, st⟩
  · cases fs with
    | nil => rfl
    | cons f fs => cases h
  · cases fs with
    | nil => cases h
    | cons g fs =>
      obtain ⟨h1, h2⟩ := List.cons.inj h
      have hf : f = sepFrame b g := h1
      cases g <;> subst hf
      · cases b <;> rfl
      · rfl

/-- the frames are the open containers; nothing was changed; behind a closer a value is complete,
behind a comma none is -/
structure SepRel (q : State) (out : Text) (a : Separators) : Prop where
  frames : ∃ b, a.stack.map Prod.fst = sepStack b q.stack ∧ (q.pos ≠ .colon → b = wantsKey q.pos)
  changed : a.changed = false
  closed : out.getLast? = some '}' ∨ out.getLast? = some ']' → q.pos = .done
  comma : out.getLast? = some ',' → q.pos = .key ∨ q.pos = .value

/-- the frames when the position does not wait for the colon -/
theorem SepRel.stack {q : State} {out : Text} {a : Separators} (h : SepRel q out a)
    (hp : q.pos ≠ .colon) : a.stack.map Prod.fst = sepStack (wantsKey q.pos) q.stack := by
  obtain ⟨b, e, hb⟩ := h.frames
  rw [e, hb hp]

theorem not_colon_of_isValue {p : Pos} (h : p.isValue = true) : p ≠ .colon := by
  rintro rfl; cases h

/-- a state after a character that is neither a closer nor a comma -/
theorem SepRel.snoc {q : State} {out : Text} {a : Separators} {c : Char}
    (hf : ∃ b, a.stack.map Prod.fst = sepStack b q.stack ∧ (q.pos ≠ .colon → b = wantsKey q.pos))
    (ha : a.changed = false) (hc : c ≠ '}' ∧ c ≠ ']' ∧ c ≠ ',') : SepRel q (out ++ [c]) a where
  frames := hf
  changed := ha
  closed h := by simp [hc.1, hc.2.1] at h
  comma h := by simp [hc.2.2] at h

theorem not_commaMissing {q : State} {s : Scan Separators} {rest : Text} (h : SepRel q s.out s.aux)
    (ha : Ahead isWhitespace q rest) : commaMissing s rest = false := by
  rw [← Bool.not_eq_true]
  intro hm
  simp only [commaMissing, Bool.and_eq_true, Bool.or_eq_true, decide_eq_true_eq] at hm
  have hp := h.closed hm.2
  have hn : ∃ c, (c = '"' ∨ c = '{' ∨ c = '[') ∧ nextSolid rest = some c := by
    rcases hm.1.2 with (h | h) | h
    · exact ⟨_, Or.inl rfl, h⟩
    · exact ⟨_, Or.inr (Or.inl rfl), h⟩
    · exact ⟨_, Or.inr (Or.inr rfl), h⟩
  obtain ⟨c, hc, hn⟩ := hn
  have hfol := ha c hn
  rcases q with ⟨st, p⟩
  obtain rfl : p = .done := hp
  rcases st with _ | ⟨f, st⟩
  · exact hfol
  · rcases hc with rfl | rfl | rfl <;> cases f <;> simp [State.follow] at hfol

/-- behind a literal that is a value nothing is inserted -/
theorem afterLiteral_value {st : List JsonSyntax.Frame} {s : Scan Separators} {rest : Text}
    (hf : s.aux.stack.map Prod.fst = sepStack false st) (ha : Ahead isWhitespace ⟨st, .done⟩ rest) :
    afterLiteral s rest = { s with aux := { s.aux with stack := markValue s.aux.stack } } := by
  have hm : (markValue s.aux.stack).map Prod.fst = sepStack false st := by rw [map_markValue, hf]
  cases hn : nextSolid rest with
  | none => simp [afterLiteral, hn]
  | some next =>
    have hfol := ha next hn
    rcases st with _ | ⟨f, st⟩
    · exact False.elim hfol
    · have he : expectColon (markValue s.aux.stack) next = false := by
        rw [expectColon_eq hm]; cases f <;> rfl
      have hnext : next = ',' ∨ next = '}' ∨ next = ']' := by
        cases f with
        | obj => exact hfol.elim Or.inl fun h => Or.inr (Or.inl h)
        | arr => exact hfol.elim Or.inl fun h => Or.inr (Or.inr h)
      rcases hnext with rfl | rfl | rfl <;> simp [afterLiteral, hn, he]

/-- behind a key nothing is inserted -/
theorem afterLiteral_key {st : List JsonSyntax.Frame} {s : Scan Separators} {rest : Text}
    (hf : s.aux.stack.map Prod.fst = sepStack true (.obj :: st))
    (ha : Ahead isWhitespace ⟨.obj :: st, .colon⟩ rest) :
    ∃ b stack, afterLiteral s rest = { s with aux := { s.aux with stack := stack } } ∧
      stack.map Prod.fst = sepStack b (.obj :: st) := by
  have hm : (markValue s.aux.stack).map Prod.fst = sepStack true (.obj :: st) := by
    rw [map_markValue, hf]
  cases hn : nextSolid rest with
  | none => exact ⟨true, markValue s.aux.stack, by simp [afterLiteral, hn], hm⟩
  | some next =>
    obtain rfl : next = ':' := ha next hn
    have he : expectColon (markValue s.aux.stack) ':' = true := by rw [expectColon_eq hm]
    refine ⟨false, setExpectingKey false (markValue s.aux.stack), ?_, map_setExpectingKey hm⟩
    simp [afterLiteral, hn, he]

theorem separator_str {s : Scan Separators} {c : Char} {rest : Text} (hl : s.lex ≠ .code)
    (h : s.lex = .str → c ≠ '"') : separatorStep s c rest = s.push c := by
  rw [separatorStep, if_pos hl, if_neg fun e => h e.1 e.2]

/-- a character of code that is neither structural nor followed by a missing comma -/
theorem separator_push {s : Scan Separators} {c : Char} {rest : Text} (hl : s.lex = .code)
    (hc : c ≠ ',' ∧ c ≠ '{' ∧ c ≠ '[' ∧ c ≠ '}' ∧ c ≠ ']' ∧ c ≠ ':')
    (hw : isWhitespace c = true → commaMissing s rest = false) :
    separatorStep s c rest = s.push c := by
  obtain ⟨h1, h2, h3, h4, h5, h6⟩ := hc
  have hn : ¬ (isWhitespace c = true ∧ commaMissing s rest = true) := by
    rintro ⟨h, h'⟩
    rw [hw h] at h'; cases h'
  simp [separatorStep, hl, h1, h2, h3, h4, h5, h6, hn]

theorem isScalarChar_not_ws {c : Char} (h : isScalarChar c = true) : isWhitespace c = false := by
  have hr := isScalarChar_range h
  simp only [isWhitespace, Bool.or_eq_false_iff, Bool.and_eq_false_iff, decide_eq_false_iff_not]
  omega

/-- a container closes, not behind a comma -/
theorem separator_closed {q : State} {s : Scan Separators} {c : Char} {rest : Text} (hl : s.lex = .code)
    (hR : SepRel q s.out s.aux) {f : JsonSyntax.Frame} {st : List JsonSyntax.Frame}
    (hq : q.stack = f :: st) (hc : c = '}' ∨ c = ']')
    (hp : q.pos ≠ .colon ∧ q.pos ≠ .key ∧ q.pos ≠ .value) :
    ∃ a, separatorStep s c rest = put s c a ∧ SepRel ⟨st, .done⟩ (s.out ++ [c]) a := by
  have hno : s.out.getLast? ≠ some ',' := fun h => (hR.comma h).elim hp.2.1 hp.2.2
  have hst := hR.stack hp.1
  have hcomma : c ≠ ',' := by rcases hc with rfl | rfl <;> decide
  refine ⟨⟨markValue s.aux.stack.tail, s.aux.changed⟩, ?_, ⟨false, ?_, fun _ => rfl⟩, hR.changed,
    fun _ => rfl, fun h => ?_⟩
  · rcases hc with rfl | rfl <;> simp [separatorStep, hl, put, Scan.push, hno]
  · rw [map_markValue, List.map_tail, hst, hq, sepStack_false]
    rfl
  · rw [List.getLast?_concat] at h
    exact absurd (Option.some.inj h) hcomma

theorem separator_copier : Copier isWhitespace separatorStep SepRel where
  str s c rest _ hl hc := separator_str (by simp [hl]) fun _ => hc
  esc s c rest _ hl := separator_str (by simp [hl]) fun e => by rw [hl] at e; cases e
  opening s rest _ hl := separator_push hl (by decide) fun h => absurd h (by decide)
  solid s c rest _ hl hc := by
    obtain ⟨-, h1, h2, h3, h4, h5, h6, -⟩ := isScalarChar_solid hc
    refine separator_push hl ⟨h5, h1, h3, h2, h4, h6⟩ fun h => ?_
    rw [isScalarChar_not_ws hc] at h; cases h
  scalar q q' t out a ht hs h := by
    obtain ⟨hv, rfl⟩ := State.step_scalar hs
    have hl : ∀ c, (out ++ t).getLast? = some c → isScalarChar c = true := by
      intro c hc
      obtain ⟨d, t', rfl, -⟩ := ht.head
      rw [List.getLast?_append_cons] at hc
      exact Scalar.chars ht c (List.mem_of_getLast? hc)
    refine ⟨⟨false, ?_, fun _ => rfl⟩, h.changed, fun _ => rfl, fun e => ?_⟩
    · rw [h.stack (not_colon_of_isValue hv), wantsKey_of_isValue hv]
    · exact absurd (hl _ e) (by decide)
  single q q' t c s rest e ht hf hs hl hR ha := by
    cases t with
    | ws d =>
      obtain rfl := Option.some.inj e
      obtain rfl := State.step_ws hs
      obtain ⟨h1, h2, h3, h4, h5, h6, -⟩ := isWs_ne ht
      refine ⟨s.aux, ?_, SepRel.snoc hR.frames hR.changed ⟨h4, h5, h1⟩⟩
      exact separator_push hl ⟨h1, h2, h3, h4, h5, h6⟩ fun _ => not_commaMissing hR ha
    | str b => cases e
    | scalar u => cases e
    | lbrace =>
      obtain rfl := Option.some.inj e
      obtain ⟨hv, rfl⟩ := State.step_lbrace hs
      refine ⟨⟨(.object true, false) :: s.aux.stack, s.aux.changed⟩, ?_, ?_⟩
      · simp [separatorStep, hl, put, Scan.push]
      · refine SepRel.snoc ⟨true, ?_, fun _ => rfl⟩ hR.changed (by decide)
        rw [List.map_cons, hR.stack (not_colon_of_isValue hv), wantsKey_of_isValue hv,
          sepStack_false]
        rfl
    | lbrack =>
      obtain rfl := Option.some.inj e
      obtain ⟨hv, rfl⟩ := State.step_lbrack hs
      refine ⟨⟨(.array, false) :: s.aux.stack, s.aux.changed⟩, ?_, ?_⟩
      · simp [separatorStep, hl, put, Scan.push]
      · refine SepRel.snoc ⟨false, ?_, fun _ => rfl⟩ hR.changed (by decide)
        rw [List.map_cons, hR.stack (not_colon_of_isValue hv), wantsKey_of_isValue hv,
          sepStack_false]
        rfl
    | rbrace =>
      obtain rfl := Option.some.inj e
      obtain ⟨st, hq, hp, rfl⟩ := State.step_rbrace hs
      exact separator_closed hl hR hq (Or.inl rfl) (by rcases hp with h | h <;> simp [h])
    | rbrack =>
      obtain rfl := Option.some.inj e
      obtain ⟨st, hq, hp, rfl⟩ := State.step_rbrack hs
      exact separator_closed hl hR hq (Or.inr rfl) (by rcases hp with h | h <;> simp [h])
    | comma =>
      obtain rfl := Option.some.inj e
      obtain ⟨hp, hq⟩ := State.step_comma hs
      have hst := hR.stack (by simp [hp])
      refine ⟨⟨setExpectingKey true s.aux.stack, s.aux.changed⟩, ?_, ?_⟩
      · simp [separatorStep, hl, put, Scan.push]
      · have hm := map_setExpectingKey (b := true) hst
        rcases hq with ⟨st, hq, rfl⟩ | ⟨st, hq, rfl⟩
        · exact ⟨⟨true, hm, fun _ => rfl⟩, hR.changed, fun h => by simp at h, fun _ => Or.inl rfl⟩
        · refine ⟨⟨false, ?_, fun _ => rfl⟩, hR.changed, fun h => by simp at h, fun _ => Or.inr rfl⟩
          rw [hm, hq]
          rfl
    | colon =>
      obtain rfl := Option.some.inj e
      obtain ⟨hp, rfl⟩ := State.step_colon hs
      obtain ⟨b, hb, -⟩ := hR.frames
      refine ⟨⟨setExpectingKey false s.aux.stack, s.aux.changed⟩, ?_, ?_⟩
      · simp [separatorStep, hl, put, Scan.push]
      · exact SepRel.snoc ⟨false, map_setExpectingKey hb, fun _ => rfl⟩ hR.changed (by decide)
  closing q q' b out s rest hs hf hl hR ho ha := by
    have e : separatorStep s '"' rest = afterLiteral (s.push '"') rest := by
      rw [separatorStep, if_pos (by simp [hl]), if_pos ⟨hl, rfl⟩]
    rcases State.step_str hs with ⟨hv, rfl⟩ | ⟨hk, rfl⟩
    · have hst : s.aux.stack.map Prod.fst = sepStack false q.stack := by
        rw [hR.stack (not_colon_of_isValue hv), wantsKey_of_isValue hv]
      refine ⟨⟨markValue s.aux.stack, s.aux.changed⟩, ?_, ?_⟩
      · rw [e, afterLiteral_value (s := s.push '"') hst ha]
        rfl
      · refine SepRel.snoc ⟨false, ?_, fun _ => rfl⟩ hR.changed (by decide)
        rw [map_markValue, hst]
    · have hst := hR.stack (by rcases hk with h | h <;> simp [h])
      have hw : wantsKey q.pos = true := by rcases hk with h | h <;> rw [h] <;> rfl
      rw [hw] at hst
      obtain ⟨st, hq⟩ : ∃ st, q.stack = .obj :: st := by
        rcases q with ⟨_ | ⟨f, st⟩, p⟩
        · rcases hk with rfl | rfl <;> cases hf
        · exact ⟨st, by rcases hk with rfl | rfl <;> cases hf <;> rfl⟩
      rw [hq] at hst ha ⊢
      obtain ⟨b', stack, e', hb'⟩ := afterLiteral_key (s := s.push '"') hst ha
      refine ⟨⟨stack, s.aux.changed⟩, ?_, ?_⟩
      · rw [e, e']
        rfl
      · exact SepRel.snoc ⟨b', hb', fun h => absurd rfl h⟩ hR.changed (by decide)

/-! ## the passes on a well-formed text -/

theorem isWhitespace_hyps :
    (∀ c, isWs c = true → isWhitespace c = true) ∧ ∀ c, isSolid c = true → isWhitespace c = false :=
  ⟨fun _ => isWhitespace_of_isWs, fun _ => not_isWhitespace_of_isSolid⟩

/-- **A scanner that copies tokens copies a well-formed text.** -/
theorem walk_jsonText {ε : Type} {ws : Char → Bool} {step : Scan ε → Char → Text → Scan ε}
    {R : State → Text → ε → Prop} (h : Copies ws step R)
    (hws : (∀ c, isWs c = true → ws c = true) ∧ ∀ c, isSolid c = true → ws c = false)
    {s : Text} (hs : JsonText s) (a : ε) (hR : R State.start [] a) :
    ∃ a', walk step ⟨.code, [], a⟩ s = ⟨.code, s, a'⟩ ∧ R State.final s a' := by
  obtain ⟨ts, rfl, hr⟩ := hs.reads
  obtain ⟨a', e, hR'⟩ := walk_reads h hws hr (ahead_nil ws State.final) a hR
  rw [List.append_nil] at e
  exact ⟨a', e, hR'⟩

theorem sepRel_start : SepRel State.start [] ⟨[], false⟩ :=
  ⟨⟨false, rfl, fun _ => rfl⟩, rfl, fun h => by simp at h, fun h => by simp at h⟩

section
variable {ts : List Tok} {q : State} (hr : Reads ts q)
include hr

theorem repairStrayCommaAfterKey_reads : repairStrayCommaAfterKey (render ts) = none := by
  obtain ⟨a, e, rfl⟩ := walk_reads strayComma_copier.copies isWhitespace_hyps hr (ahead_nil _ q) _ rfl
  rw [List.append_nil] at e
  simp [repairStrayCommaAfterKey, e]

theorem repairMissingColon_reads : repairMissingColon (render ts) = none := by
  obtain ⟨a, e, rfl⟩ := walk_reads missingColon_copier.copies isWhitespace_hyps hr (ahead_nil _ q) _ rfl
  rw [List.append_nil] at e
  simp [repairMissingColon, e]

theorem repairMissingSeparators_reads : repairMissingSeparators (render ts) = none := by
  obtain ⟨a, e, ha⟩ := walk_reads separator_copier.copies isWhitespace_hyps hr (ahead_nil _ q) _
    sepRel_start
  rw [List.append_nil] at e
  simp [repairMissingSeparators, e, ha.changed]

/-- behind a complete value the text does not end with a comma -/
theorem getLast_reads (hp : q.pos = .done) : (render ts).getLast? ≠ some ',' := by
  obtain ⟨a, -, ha⟩ := walk_reads separator_copier.copies isWhitespace_hyps hr (ahead_nil _ q) _
    sepRel_start
  intro h
  rcases ha.comma h with h | h <;> rw [hp] at h <;> cases h

/-- the walk over the brackets opens what the machine opens -/
theorem bracketWalk_reads :
    walk bracketStep ⟨.code, [], ⟨[], none⟩⟩ (render ts) =
      ⟨.code, render ts, ⟨q.stack.map opener, none⟩⟩ := by
  obtain ⟨a, e, rfl⟩ := walk_reads bracket_copier.copies isWhitespace_hyps hr (ahead_nil _ q) _ rfl
  rw [List.append_nil] at e
  exact e

end

section
variable {s : Text} (hs : JsonText s)
include hs

theorem repairStrayCommaAfterKey_wellFormed : repairStrayCommaAfterKey s = none := by
  obtain ⟨ts, rfl, hr⟩ := hs.reads
  exact repairStrayCommaAfterKey_reads hr

theorem repairMissingColon_wellFormed : repairMissingColon s = none := by
  obtain ⟨ts, rfl, hr⟩ := hs.reads
  exact repairMissingColon_reads hr

theorem repairMissingSeparators_wellFormed : repairMissingSeparators s = none := by
  obtain ⟨ts, rfl, hr⟩ := hs.reads
  exact repairMissingSeparators_reads hr

/-- the brackets of a well-formed text are balanced -/
theorem bracketWalk_wellFormed :
    walk bracketStep ⟨.code, [], ⟨[], none⟩⟩ s = ⟨.code, s, ⟨[], none⟩⟩ := by
  obtain ⟨ts, rfl, hr⟩ := hs.reads
  exact bracketWalk_reads hr

theorem repairOneMissingBracket_wellFormed : repairOneMissingBracket s = some s := by
  simp [repairOneMissingBracket, bracketWalk_wellFormed hs]

end

/-! ## the opening brace -/

theorem skipComments_outside {c : Char} {t : Text} (h : c ≠ '/') :
    skipComments .outside (c :: t) = ([], c :: t) := by
  unfold skipComments
  split <;> simp_all

theorem seekKey_none {o : Char} (ho : o = '{' ∨ o = '[') (t : Text) {w : Text} (hw : Ws w) :
    seekKey (w ++ o :: t) = none := by
  induction w with
  | nil => rw [List.nil_append, seekKey, if_pos ho]
  | cons c w ih =>
    have hc := isWs_ne (hw c List.mem_cons_self)
    rw [List.cons_append, seekKey, if_neg (by simp [hc.2.1, hc.2.2.1]), if_neg hc.2.2.2.2.2.2,
      ih fun d hd => hw d (List.mem_cons_of_mem _ hd)]
    rfl

/-- a text that starts with whitespace and a token has no mark and no comment in front -/
theorem no_comment_front {o : Char} (ho : o = '{' ∨ o = '[' ∨ o = '"') (t : Text) {w : Text}
    (hw : Ws w) : stripBom (w ++ o :: t) = ([], w ++ o :: t) ∧
      skipComments .outside (w ++ o :: t) = ([], w ++ o :: t) := by
  obtain ⟨c, r, e, h1, h2⟩ : ∃ c r, w ++ o :: t = c :: r ∧ c ≠ '\uFEFF' ∧ c ≠ '/' := by
    cases w with
    | nil => exact ⟨o, t, rfl, by rcases ho with rfl | rfl | rfl <;> decide⟩
    | cons c w =>
      have hc : isWs c = true := hw c List.mem_cons_self
      refine ⟨c, w ++ o :: t, rfl, ?_, ?_⟩
      · rintro rfl; exact absurd hc (by decide)
      · rintro rfl; exact absurd hc (by decide)
  rw [e]
  exact ⟨if_neg h1, skipComments_outside h2⟩

/-- a text whose first solid character opens a container is no bare object body -/
theorem repairMissingOpenBrace_none {o : Char} (ho : o = '{' ∨ o = '[') (t : Text) {w : Text}
    (hw : Ws w) : repairMissingOpenBrace (w ++ o :: t) = none := by
  obtain ⟨hbom, hcomments⟩ := no_comment_front (ho.imp_right Or.inl) t hw
  simp [repairMissingOpenBrace, hbom, hcomments, seekKey_none ho t hw]

end Moagan
