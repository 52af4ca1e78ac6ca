import Moagan.Lib.Scan

/-!
# JSON texts: the grammar, and a push-down machine over its tokens

* `Derives`          the grammar of RFC 8259 on characters, one inductive family over the
                     nonterminals `value`, `elements`, `members`;
* `JsonText`         a value between whitespace;
* `Tok`, `render`    the tokens of a text;
* `State.step`       the machine: a stack of open containers and what it waits for;
* `Derives.tokens`   a derived text is the rendering of tokens the machine accepts;
* `run_follow`       what the next solid character of a text can be, from the state of the machine.

The machine reads prefixes, so what is proved of its runs holds of cut texts as well.
-/

namespace JsonSyntax
open Scanning

/-! ## characters -/

/-- whitespace of the grammar -/
def isWs (c : Char) : Bool := c = ' ' || c = '\t' || c = '\n' || c = '\r'

def isDigit (c : Char) : Bool := '0'.toNat ≤ c.toNat && c.toNat ≤ '9'.toNat

def isHex (c : Char) : Bool :=
  isDigit c || ('a'.toNat ≤ c.toNat && c.toNat ≤ 'f'.toNat)
    || ('A'.toNat ≤ c.toNat && c.toNat ≤ 'F'.toNat)

def Ws (t : Text) : Prop := ∀ c ∈ t, isWs c = true

/-! ## scalars -/

/-- one digit or more -/
def Digits (t : Text) : Prop := t ≠ [] ∧ ∀ c ∈ t, isDigit c = true

/-- `zero / (digit1-9 *DIGIT)` -/
def IntPart (t : Text) : Prop := t = ['0'] ∨ (Digits t ∧ t.head? ≠ some '0')

def FracPart (t : Text) : Prop := t = [] ∨ ∃ ds, Digits ds ∧ t = '.' :: ds

def Sign (t : Text) : Prop := t = [] ∨ t = ['+'] ∨ t = ['-']

def ExpPart (t : Text) : Prop :=
  t = [] ∨ ∃ e sg ds, (e = 'e' ∨ e = 'E') ∧ Sign sg ∧ Digits ds ∧ t = e :: (sg ++ ds)

def Number (t : Text) : Prop :=
  ∃ mi i f e, (mi = [] ∨ mi = ['-']) ∧ IntPart i ∧ FracPart f ∧ ExpPart e ∧ t = mi ++ i ++ f ++ e

def Scalar (t : Text) : Prop :=
  t = "true".toList ∨ t = "false".toList ∨ t = "null".toList ∨ Number t

/-! ## strings -/

/-- the characters between the quotes of a string -/
inductive StrBody : Text → Prop
  | nil : StrBody []
  | plain {c : Char} {t : Text} : c ≠ '"' → c ≠ '\\' → 32 ≤ c.toNat → StrBody t → StrBody (c :: t)
  | escape {c : Char} {t : Text} : c ∈ ['"', '\\', '/', 'b', 'f', 'n', 'r', 't'] → StrBody t →
      StrBody ('\\' :: c :: t)
  | unicode {a b c d : Char} {t : Text} : isHex a = true → isHex b = true → isHex c = true →
      isHex d = true → StrBody t → StrBody ('\\' :: 'u' :: a :: b :: c :: d :: t)

theorem hex_plain {c : Char} (h : isHex c = true) : c ≠ '"' ∧ c ≠ '\\' := by
  constructor <;> rintro rfl <;> exact absurd h (by decide)

theorem Lex.next_plain {c : Char} (h1 : c ≠ '"') (h2 : c ≠ '\\') : Lex.next .str c = .str := by
  rw [Lex.next, if_neg h2, if_neg h1]

theorem inside_plain {c : Char} {t : Text} (h1 : c ≠ '"') (h2 : c ≠ '\\')
    (h : Inside .str t ∧ lexAfter .str t = .str) :
    Inside .str (c :: t) ∧ lexAfter .str (c :: t) = .str := by
  rw [lexAfter_cons, Lex.next_plain h1 h2]
  exact ⟨⟨h1, by rw [Lex.next_plain h1 h2]; exact h.1⟩, h.2⟩

theorem inside_escape {c : Char} {t : Text} (h : Inside .str t ∧ lexAfter .str t = .str) :
    Inside .str ('\\' :: c :: t) ∧ lexAfter .str ('\\' :: c :: t) = .str :=
  ⟨⟨by decide, h.1⟩, h.2⟩

/-- a string body stays inside its literal, and ends outside an escape -/
theorem StrBody.inside {b : Text} (h : StrBody b) : Inside .str b ∧ lexAfter .str b = .str := by
  induction h with
  | nil => exact ⟨trivial, rfl⟩
  | plain h1 h2 _ _ ih => exact inside_plain h1 h2 ih
  | escape _ _ ih => exact inside_escape ih
  | unicode ha hb hc hd _ ih =>
    have hex : ∀ {x : Char} {t : Text}, isHex x = true →
        Inside .str t ∧ lexAfter .str t = .str →
        Inside .str (x :: t) ∧ lexAfter .str (x :: t) = .str := fun hx h =>
      inside_plain (hex_plain hx).1 (hex_plain hx).2 h
    exact inside_escape (hex ha (hex hb (hex hc (hex hd ih))))

/-! ## the grammar -/

inductive Part where
  | value
  | elements
  | members

/-- RFC 8259, section 2 to 7: the texts of a nonterminal -/
inductive Derives : Part → Text → Prop
  | scalar {t : Text} : Scalar t → Derives .value t
  | str {b : Text} : StrBody b → Derives .value ('"' :: b ++ ['"'])
  | emptyArr {w : Text} : Ws w → Derives .value ('[' :: w ++ [']'])
  | arr {es : Text} : Derives .elements es → Derives .value ('[' :: es ++ [']'])
  | emptyObj {w : Text} : Ws w → Derives .value ('{' :: w ++ ['}'])
  | obj {ms : Text} : Derives .members ms → Derives .value ('{' :: ms ++ ['}'])
  | element {w₁ v w₂ : Text} : Ws w₁ → Derives .value v → Ws w₂ → Derives .elements (w₁ ++ v ++ w₂)
  | elements {w₁ v w₂ es : Text} : Ws w₁ → Derives .value v → Ws w₂ → Derives .elements es →
      Derives .elements (w₁ ++ v ++ w₂ ++ ',' :: es)
  | member {w₁ k w₂ w₃ v w₄ : Text} : Ws w₁ → StrBody k → Ws w₂ → Ws w₃ → Derives .value v → Ws w₄ →
      Derives .members (w₁ ++ ('"' :: k ++ ['"']) ++ w₂ ++ ':' :: (w₃ ++ v ++ w₄))
  | members {w₁ k w₂ w₃ v w₄ ms : Text} : Ws w₁ → StrBody k → Ws w₂ → Ws w₃ → Derives .value v →
      Ws w₄ → Derives .members ms →
      Derives .members (w₁ ++ ('"' :: k ++ ['"']) ++ w₂ ++ ':' :: (w₃ ++ v ++ w₄ ++ ',' :: ms))

/-- `JSON-text = ws value ws` -/
def JsonText (t : Text) : Prop :=
  ∃ w₁ v w₂, Ws w₁ ∧ Derives .value v ∧ Ws w₂ ∧ t = w₁ ++ v ++ w₂

/-! ## tokens and the machine -/

inductive Tok where
  | ws (c : Char)
  | str (b : Text)
  | scalar (t : Text)
  | lbrace
  | rbrace
  | lbrack
  | rbrack
  | comma
  | colon

def Tok.text : Tok → Text
  | .ws c => [c]
  | .str b => '"' :: b ++ ['"']
  | .scalar t => t
  | .lbrace => ['{']
  | .rbrace => ['}']
  | .lbrack => ['[']
  | .rbrack => [']']
  | .comma => [',']
  | .colon => [':']

/-- the text of the token is one of the grammar -/
def Tok.ok : Tok → Prop
  | .ws c => isWs c = true
  | .str b => StrBody b
  | .scalar t => Scalar t
  | _ => True

def render (ts : List Tok) : Text := ts.flatMap Tok.text

theorem render_nil : render [] = [] := rfl
theorem render_cons (t : Tok) (ts : List Tok) : render (t :: ts) = t.text ++ render ts := rfl
theorem render_append (a b : List Tok) : render (a ++ b) = render a ++ render b := by
  simp [render, List.flatMap_append]

inductive Frame where
  | obj
  | arr
deriving DecidableEq, Repr

/-- what the machine waits for: a value; a value or `]`; a key or `}`; a key; the colon; what
follows a complete value -/
inductive Pos where
  | value
  | valueOrEnd
  | keyOrEnd
  | key
  | colon
  | done
deriving DecidableEq, Repr

/-- open containers, innermost first, and the position -/
structure State where
  stack : List Frame
  pos : Pos
deriving DecidableEq, Repr

/-- a value is allowed here -/
def Pos.isValue : Pos → Bool
  | .value | .valueOrEnd => true
  | _ => false

def State.step : State → Tok → Option State
  | q, .ws _ => some q
  | ⟨st, .value⟩, .str _ | ⟨st, .valueOrEnd⟩, .str _ => some ⟨st, .done⟩
  | ⟨st, .value⟩, .scalar _ | ⟨st, .valueOrEnd⟩, .scalar _ => some ⟨st, .done⟩
  | ⟨st, .value⟩, .lbrace | ⟨st, .valueOrEnd⟩, .lbrace => some ⟨.obj :: st, .keyOrEnd⟩
  | ⟨st, .value⟩, .lbrack | ⟨st, .valueOrEnd⟩, .lbrack => some ⟨.arr :: st, .valueOrEnd⟩
  | ⟨.arr :: st, .valueOrEnd⟩, .rbrack => some ⟨st, .done⟩
  | ⟨st, .keyOrEnd⟩, .str _ | ⟨st, .key⟩, .str _ => some ⟨st, .colon⟩
  | ⟨.obj :: st, .keyOrEnd⟩, .rbrace => some ⟨st, .done⟩
  | ⟨st, .colon⟩, .colon => some ⟨st, .value⟩
  | ⟨.obj :: st, .done⟩, .comma => some ⟨.obj :: st, .key⟩
  | ⟨.arr :: st, .done⟩, .comma => some ⟨.arr :: st, .value⟩
  | ⟨.obj :: st, .done⟩, .rbrace => some ⟨st, .done⟩
  | ⟨.arr :: st, .done⟩, .rbrack => some ⟨st, .done⟩
  | _, _ => none

/-! what one step does, token by token -/

def State.Does (q : State) : Tok → State → Prop
  | .ws _, q' => q' = q
  | .scalar _, q' => q.pos.isValue = true ∧ q' = ⟨q.stack, .done⟩
  -- a literal is a value or a key
  | .str _, q' => (q.pos.isValue = true ∧ q' = ⟨q.stack, .done⟩) ∨
      ((q.pos = .key ∨ q.pos = .keyOrEnd) ∧ q' = ⟨q.stack, .colon⟩)
  | .lbrace, q' => q.pos.isValue = true ∧ q' = ⟨.obj :: q.stack, .keyOrEnd⟩
  | .lbrack, q' => q.pos.isValue = true ∧ q' = ⟨.arr :: q.stack, .valueOrEnd⟩
  | .rbrace, q' => ∃ st, q.stack = .obj :: st ∧ (q.pos = .keyOrEnd ∨ q.pos = .done) ∧ q' = ⟨st, .done⟩
  | .rbrack, q' => ∃ st, q.stack = .arr :: st ∧ (q.pos = .valueOrEnd ∨ q.pos = .done) ∧ q' = ⟨st, .done⟩
  | .comma, q' => q.pos = .done ∧ ((∃ st, q.stack = .obj :: st ∧ q' = ⟨q.stack, .key⟩) ∨
      ∃ st, q.stack = .arr :: st ∧ q' = ⟨q.stack, .value⟩)
  | .colon, q' => q.pos = .colon ∧ q' = ⟨q.stack, .value⟩

/-- **What a step does.** -/
theorem State.step_does {q q' : State} {t : Tok} (h : q.step t = some q') : q.Does t q' := by
  rcases q with ⟨st, p⟩
  cases t with
  | ws c => exact (Option.some.inj h).symm
  | scalar t => cases p <;> simp [State.step] at h <;> exact ⟨rfl, h.symm⟩
  | str b => cases p <;> simp [State.step] at h <;> simp [State.Does, Pos.isValue, h]
  | lbrace => cases p <;> simp [State.step] at h <;> exact ⟨rfl, h.symm⟩
  | lbrack => cases p <;> simp [State.step] at h <;> exact ⟨rfl, h.symm⟩
  | rbrace =>
    rcases st with _ | ⟨f, st⟩
    · cases p <;> simp [State.step] at h
    · cases p <;> cases f <;> simp [State.step] at h <;> exact ⟨st, rfl, by simp, h.symm⟩
  | rbrack =>
    rcases st with _ | ⟨f, st⟩
    · cases p <;> simp [State.step] at h
    · cases p <;> cases f <;> simp [State.step] at h <;> exact ⟨st, rfl, by simp, h.symm⟩
  | comma =>
    rcases st with _ | ⟨f, st⟩
    · cases p <;> simp [State.step] at h
    · cases p <;> cases f <;> simp [State.step] at h <;> simp [State.Does, h]
  | colon =>
    cases p <;> simp [State.step] at h
    exact ⟨rfl, h.symm⟩

theorem State.step_ws {q q' : State} {c : Char} (h : q.step (.ws c) = some q') : q' = q :=
  step_does h

theorem State.step_scalar {q q' : State} {t : Text} (h : q.step (.scalar t) = some q') :
    q.pos.isValue = true ∧ q' = ⟨q.stack, .done⟩ :=
  step_does h

theorem State.step_str {q q' : State} {b : Text} (h : q.step (.str b) = some q') :
    (q.pos.isValue = true ∧ q' = ⟨q.stack, .done⟩) ∨
      ((q.pos = .key ∨ q.pos = .keyOrEnd) ∧ q' = ⟨q.stack, .colon⟩) :=
  step_does h

theorem State.step_lbrace {q q' : State} (h : q.step .lbrace = some q') :
    q.pos.isValue = true ∧ q' = ⟨.obj :: q.stack, .keyOrEnd⟩ :=
  step_does h

theorem State.step_lbrack {q q' : State} (h : q.step .lbrack = some q') :
    q.pos.isValue = true ∧ q' = ⟨.arr :: q.stack, .valueOrEnd⟩ :=
  step_does h

theorem State.step_rbrace {q q' : State} (h : q.step .rbrace = some q') :
    ∃ st, q.stack = .obj :: st ∧ (q.pos = .keyOrEnd ∨ q.pos = .done) ∧ q' = ⟨st, .done⟩ :=
  step_does h

theorem State.step_rbrack {q q' : State} (h : q.step .rbrack = some q') :
    ∃ st, q.stack = .arr :: st ∧ (q.pos = .valueOrEnd ∨ q.pos = .done) ∧ q' = ⟨st, .done⟩ :=
  step_does h

theorem State.step_comma {q q' : State} (h : q.step .comma = some q') :
    q.pos = .done ∧ ((∃ st, q.stack = .obj :: st ∧ q' = ⟨q.stack, .key⟩) ∨
      ∃ st, q.stack = .arr :: st ∧ q' = ⟨q.stack, .value⟩) :=
  step_does h

theorem State.step_colon {q q' : State} (h : q.step .colon = some q') :
    q.pos = .colon ∧ q' = ⟨q.stack, .value⟩ :=
  step_does h

def State.run : State → List Tok → Option State
  | q, [] => some q
  | q, t :: ts => (q.step t).bind fun q' => q'.run ts

theorem State.run_nil (q : State) : q.run [] = some q := rfl

theorem State.run_cons (q : State) (t : Tok) (ts : List Tok) :
    q.run (t :: ts) = (q.step t).bind fun q' => q'.run ts := rfl

theorem State.run_append (q : State) (a b : List Tok) :
    q.run (a ++ b) = (q.run a).bind fun q' => q'.run b := by
  induction a generalizing q with
  | nil => rfl
  | cons t ts ih =>
    rw [List.cons_append, run_cons, run_cons]
    cases q.step t with
    | none => rfl
    | some q' => exact ih q'

/-- run two parts one after the other -/
theorem State.run_trans {q r q' : State} {a b : List Tok} (ha : q.run a = some r)
    (hb : r.run b = some q') : q.run (a ++ b) = some q' := by
  rw [run_append, ha]; exact hb

/-- the start and the accepting state -/
def State.start : State := ⟨[], .value⟩
def State.final : State := ⟨[], .done⟩

def Valid (ts : List Tok) : Prop := ∀ t ∈ ts, t.ok

theorem valid_nil : Valid [] := by intro t h; cases h

theorem valid_cons {t : Tok} {ts : List Tok} : Valid (t :: ts) ↔ t.ok ∧ Valid ts := by
  simp [Valid]

theorem valid_append {a b : List Tok} : Valid (a ++ b) ↔ Valid a ∧ Valid b := by
  simp only [Valid, List.mem_append]
  constructor
  · intro h; exact ⟨fun t ht => h t (Or.inl ht), fun t ht => h t (Or.inr ht)⟩
  · rintro ⟨h1, h2⟩ t (ht | ht)
    · exact h1 t ht
    · exact h2 t ht

/-- the machine reads the tokens from the start and is then in the state -/
structure Reads (ts : List Tok) (q : State) : Prop where
  valid : Valid ts
  run : State.start.run ts = some q

theorem Reads.snoc {ts : List Tok} {t : Tok} {q q' : State} (h : Reads ts q) (ht : t.ok)
    (hs : q.step t = some q') : Reads (ts ++ [t]) q' where
  valid := valid_append.mpr ⟨h.valid, valid_cons.mpr ⟨ht, valid_nil⟩⟩
  run := State.run_trans h.run (by rw [State.run_cons, hs]; rfl)

/-- a comma is read behind a value in a container -/
theorem Reads.comma {ts : List Tok} {st : List Frame} (h : Reads ts ⟨st, .done⟩)
    (hopen : st ≠ []) : ∃ p, Reads (ts ++ [.comma]) ⟨st, p⟩ := by
  rcases st with _ | ⟨f, st⟩
  · exact absurd rfl hopen
  · cases f with
    | obj => exact ⟨.key, h.snoc trivial rfl⟩
    | arr => exact ⟨.value, h.snoc trivial rfl⟩

/-! ## derived texts are accepted -/

theorem Ws.tokens {w : Text} (h : Ws w) :
    ∃ ts, Valid ts ∧ render ts = w ∧ ∀ q : State, q.run ts = some q := by
  induction w with
  | nil => exact ⟨[], valid_nil, rfl, fun _ => rfl⟩
  | cons c w ih =>
    obtain ⟨ts, h1, h2, h3⟩ := ih (fun d hd => h d (List.mem_cons_of_mem _ hd))
    refine ⟨.ws c :: ts, valid_cons.mpr ⟨h c List.mem_cons_self, h1⟩, ?_, ?_⟩
    · rw [render_cons, h2]; rfl
    · intro q
      show (q.step (.ws c)).bind _ = _
      rw [show q.step (.ws c) = some q by rcases q with ⟨st, p⟩; rfl]
      exact h3 q

/-- what a run over the tokens of a nonterminal does -/
def Part.runs : Part → List Tok → Prop
  | .value, ts => ∀ st p, p.isValue = true → State.run ⟨st, p⟩ ts = some ⟨st, .done⟩
  | .elements, ts => ∀ st p, p.isValue = true →
      State.run ⟨.arr :: st, p⟩ ts = some ⟨.arr :: st, .done⟩
  | .members, ts => ∀ st p, p = .key ∨ p = .keyOrEnd →
      State.run ⟨.obj :: st, p⟩ ts = some ⟨.obj :: st, .done⟩

theorem isValue_cases {p : Pos} (h : p.isValue = true) : p = .value ∨ p = .valueOrEnd := by
  cases p <;> simp_all [Pos.isValue]

/-- the tokens of `key ws : ws value ws` -/
theorem member_tokens {w₁ k w₂ w₃ v w₄ : Text} (h₁ : Ws w₁) (hk : StrBody k) (h₂ : Ws w₂)
    (h₃ : Ws w₃) (h₄ : Ws w₄)
    (hv : ∃ ts, Valid ts ∧ render ts = v ∧ Part.value.runs ts) :
    ∃ ts, Valid ts ∧ render ts = w₁ ++ ('"' :: k ++ ['"']) ++ w₂ ++ ':' :: (w₃ ++ v ++ w₄) ∧
      Part.members.runs ts := by
  obtain ⟨t₁, a₁, b₁, c₁⟩ := h₁.tokens
  obtain ⟨t₂, a₂, b₂, c₂⟩ := h₂.tokens
  obtain ⟨t₃, a₃, b₃, c₃⟩ := h₃.tokens
  obtain ⟨t₄, a₄, b₄, c₄⟩ := h₄.tokens
  obtain ⟨tv, av, bv, cv⟩ := hv
  refine ⟨t₁ ++ ([.str k] ++ (t₂ ++ ([.colon] ++ (t₃ ++ (tv ++ t₄))))), ?_, ?_, ?_⟩
  · simp only [valid_append, valid_cons, Tok.ok]
    exact ⟨a₁, ⟨hk, valid_nil⟩, a₂, ⟨trivial, valid_nil⟩, a₃, av, a₄⟩
  · simp only [render_append, render_cons, render_nil, b₁, b₂, b₃, b₄, bv, Tok.text]
    simp
  · intro st p hp
    have e : State.run ⟨.obj :: st, p⟩ [.str k] = some ⟨.obj :: st, .colon⟩ := by
      rcases hp with rfl | rfl <;> rfl
    refine State.run_trans (c₁ _) (State.run_trans e (State.run_trans (c₂ _) ?_))
    refine State.run_trans (r := ⟨.obj :: st, .value⟩) rfl (State.run_trans (c₃ _) ?_)
    exact State.run_trans (cv _ _ rfl) (c₄ _)

/-- **A derived text is the rendering of tokens that the machine accepts.** -/
theorem Derives.tokens {p : Part} {t : Text} (h : Derives p t) :
    ∃ ts, Valid ts ∧ render ts = t ∧ p.runs ts := by
  induction h with
  | @scalar t ht =>
    refine ⟨[.scalar t], valid_cons.mpr ⟨ht, valid_nil⟩, by simp [render, Tok.text], ?_⟩
    intro st p hp
    rcases isValue_cases hp with rfl | rfl <;> rfl
  | @str b hb =>
    refine ⟨[.str b], valid_cons.mpr ⟨hb, valid_nil⟩, by simp [render, Tok.text], ?_⟩
    intro st p hp
    rcases isValue_cases hp with rfl | rfl <;> rfl
  | @emptyArr w hw =>
    obtain ⟨tw, a, b, c⟩ := hw.tokens
    refine ⟨[.lbrack] ++ (tw ++ [.rbrack]), ?_, ?_, ?_⟩
    · simp only [valid_append, valid_cons, Tok.ok]
      exact ⟨⟨trivial, valid_nil⟩, a, trivial, valid_nil⟩
    · simp [render_append, render_cons, render_nil, b, Tok.text]
    · intro st p hp
      refine State.run_trans (r := ⟨.arr :: st, .valueOrEnd⟩) ?_ (State.run_trans (c _) rfl)
      rcases isValue_cases hp with rfl | rfl <;> rfl
  | @arr es _ ih =>
    obtain ⟨te, a, b, c⟩ := ih
    refine ⟨[.lbrack] ++ (te ++ [.rbrack]), ?_, ?_, ?_⟩
    · simp only [valid_append, valid_cons, Tok.ok]
      exact ⟨⟨trivial, valid_nil⟩, a, trivial, valid_nil⟩
    · simp [render_append, render_cons, render_nil, b, Tok.text]
    · intro st p hp
      refine State.run_trans (r := ⟨.arr :: st, .valueOrEnd⟩) ?_
        (State.run_trans (c st _ rfl) rfl)
      rcases isValue_cases hp with rfl | rfl <;> rfl
  | @emptyObj w hw =>
    obtain ⟨tw, a, b, c⟩ := hw.tokens
    refine ⟨[.lbrace] ++ (tw ++ [.rbrace]), ?_, ?_, ?_⟩
    · simp only [valid_append, valid_cons, Tok.ok]
      exact ⟨⟨trivial, valid_nil⟩, a, trivial, valid_nil⟩
    · simp [render_append, render_cons, render_nil, b, Tok.text]
    · intro st p hp
      refine State.run_trans (r := ⟨.obj :: st, .keyOrEnd⟩) ?_ (State.run_trans (c _) rfl)
      rcases isValue_cases hp with rfl | rfl <;> rfl
  | @obj ms _ ih =>
    obtain ⟨te, a, b, c⟩ := ih
    refine ⟨[.lbrace] ++ (te ++ [.rbrace]), ?_, ?_, ?_⟩
    · simp only [valid_append, valid_cons, Tok.ok]
      exact ⟨⟨trivial, valid_nil⟩, a, trivial, valid_nil⟩
    · simp [render_append, render_cons, render_nil, b, Tok.text]
    · intro st p hp
      refine State.run_trans (r := ⟨.obj :: st, .keyOrEnd⟩) ?_
        (State.run_trans (c st _ (Or.inr rfl)) rfl)
      rcases isValue_cases hp with rfl | rfl <;> rfl
  | element h₁ _ h₂ ih =>
    obtain ⟨t₁, a₁, b₁, c₁⟩ := h₁.tokens
    obtain ⟨t₂, a₂, b₂, c₂⟩ := h₂.tokens
    obtain ⟨tv, av, bv, cv⟩ := ih
    refine ⟨t₁ ++ (tv ++ t₂), ?_, ?_, ?_⟩
    · simp only [valid_append]; exact ⟨a₁, av, a₂⟩
    · simp [render_append, b₁, b₂, bv]
    · intro st p hp
      exact State.run_trans (c₁ _) (State.run_trans (cv _ _ hp) (c₂ _))
  | elements h₁ _ h₂ _ ih ih' =>
    obtain ⟨t₁, a₁, b₁, c₁⟩ := h₁.tokens
    obtain ⟨t₂, a₂, b₂, c₂⟩ := h₂.tokens
    obtain ⟨tv, av, bv, cv⟩ := ih
    obtain ⟨te, ae, be, ce⟩ := ih'
    refine ⟨t₁ ++ (tv ++ (t₂ ++ ([.comma] ++ te))), ?_, ?_, ?_⟩
    · simp only [valid_append, valid_cons, Tok.ok]
      exact ⟨a₁, av, a₂, ⟨trivial, valid_nil⟩, ae⟩
    · simp [render_append, render_cons, b₁, b₂, bv, be, Tok.text]
    · intro st p hp
      refine State.run_trans (c₁ _) (State.run_trans (cv _ _ hp) (State.run_trans (c₂ _) ?_))
      exact State.run_trans (r := ⟨.arr :: st, .value⟩) rfl (ce st _ rfl)
  | member h₁ hk h₂ h₃ _ h₄ ih => exact member_tokens h₁ hk h₂ h₃ h₄ ih
  | members h₁ hk h₂ h₃ _ h₄ _ ih ih' =>
    obtain ⟨tm, am, bm, cm⟩ := member_tokens h₁ hk h₂ h₃ h₄ ih
    obtain ⟨te, ae, be, ce⟩ := ih'
    refine ⟨tm ++ ([.comma] ++ te), ?_, ?_, ?_⟩
    · simp only [valid_append, valid_cons, Tok.ok]
      exact ⟨am, ⟨trivial, valid_nil⟩, ae⟩
    · simp [render_append, render_cons, bm, be, Tok.text]
    · intro st p hp
      exact State.run_trans (cm st p hp)
        (State.run_trans (r := ⟨.obj :: st, .key⟩) rfl (ce st _ (Or.inl rfl)))

/-- a JSON text is the rendering of tokens accepted from start to end -/
theorem JsonText.tokens {t : Text} (h : JsonText t) :
    ∃ ts, Valid ts ∧ render ts = t ∧ State.start.run ts = some State.final := by
  obtain ⟨w₁, v, w₂, h₁, hv, h₂, rfl⟩ := h
  obtain ⟨t₁, a₁, b₁, c₁⟩ := h₁.tokens
  obtain ⟨t₂, a₂, b₂, c₂⟩ := h₂.tokens
  obtain ⟨tv, av, bv, cv⟩ := hv.tokens
  refine ⟨t₁ ++ (tv ++ t₂), ?_, ?_, ?_⟩
  · simp only [valid_append]; exact ⟨a₁, av, a₂⟩
  · simp [render_append, b₁, b₂, bv]
  · exact State.run_trans (c₁ _) (State.run_trans (cv _ _ rfl) (c₂ _))

theorem JsonText.reads {t : Text} (h : JsonText t) : ∃ ts, render ts = t ∧ Reads ts State.final := by
  obtain ⟨ts, hv, ht, hr⟩ := h.tokens
  exact ⟨ts, ht, hv, hr⟩

/-! ## the characters of a scalar -/

def isAlpha (c : Char) : Bool :=
  ('a'.toNat ≤ c.toNat && c.toNat ≤ 'z'.toNat) || ('A'.toNat ≤ c.toNat && c.toNat ≤ 'Z'.toNat)

/-- the characters numbers and the three literal names are made of -/
def isScalarChar (c : Char) : Bool := isAlpha c || isDigit c || c = '+' || c = '-' || c = '.'

/-- the first character of a scalar -/
def isScalarStart (c : Char) : Bool := c = 't' || c = 'f' || c = 'n' || c = '-' || isDigit c

theorem isScalarChar_digit {c : Char} (h : isDigit c = true) : isScalarChar c = true := by
  simp [isScalarChar, h]

theorem Digits.chars {t : Text} (h : Digits t) : ∀ c ∈ t, isScalarChar c = true :=
  fun c hc => isScalarChar_digit (h.2 c hc)

theorem IntPart.digits {t : Text} (h : IntPart t) : Digits t := by
  rcases h with rfl | ⟨h, _⟩
  · exact ⟨by simp, List.all_eq_true.mp rfl⟩
  · exact h

theorem FracPart.chars {t : Text} (h : FracPart t) : ∀ c ∈ t, isScalarChar c = true := by
  rcases h with rfl | ⟨ds, hd, rfl⟩
  · simp
  · intro c hc
    rcases List.mem_cons.mp hc with rfl | hc
    · decide
    · exact hd.chars c hc

theorem ExpPart.chars {t : Text} (h : ExpPart t) : ∀ c ∈ t, isScalarChar c = true := by
  rcases h with rfl | ⟨e, sg, ds, he, hs, hd, rfl⟩
  · simp
  · intro c hc
    rcases List.mem_cons.mp hc with rfl | hc
    · rcases he with rfl | rfl <;> decide
    · rcases List.mem_append.mp hc with hc | hc
      · rcases hs with rfl | rfl | rfl <;> simp at hc <;> subst hc <;> decide
      · exact hd.chars c hc

theorem ExpPart.head {t : Text} (h : ExpPart t) : ∀ c, t.head? = some c → c = 'e' ∨ c = 'E' := by
  rcases h with rfl | ⟨e, sg, ds, he, -, -, rfl⟩
  · simp
  · intro c hc
    exact Option.some.inj hc ▸ he

theorem Number.chars {t : Text} (h : Number t) : ∀ c ∈ t, isScalarChar c = true := by
  obtain ⟨mi, i, f, e, hm, hi, hf, he, rfl⟩ := h
  intro c hc
  simp only [List.mem_append] at hc
  rcases hc with ((hc | hc) | hc) | hc
  · rcases hm with rfl | rfl <;> simp at hc
    subst hc; decide
  · exact hi.digits.chars c hc
  · exact hf.chars c hc
  · exact he.chars c hc

theorem Number.head {t : Text} (h : Number t) :
    ∃ c t', t = c :: t' ∧ (isDigit c = true ∨ c = '-') := by
  obtain ⟨mi, i, f, e, hm, hi, hf, he, rfl⟩ := h
  rcases hm with rfl | rfl
  · cases i with
    | nil => exact absurd rfl hi.digits.1
    | cons c i => exact ⟨c, i ++ f ++ e, by simp, Or.inl (hi.digits.2 c List.mem_cons_self)⟩
  · exact ⟨'-', i ++ f ++ e, by simp, Or.inr rfl⟩

theorem Scalar.chars {t : Text} (h : Scalar t) : ∀ c ∈ t, isScalarChar c = true := by
  rcases h with rfl | rfl | rfl | h
  · exact List.all_eq_true.mp rfl
  · exact List.all_eq_true.mp rfl
  · exact List.all_eq_true.mp rfl
  · exact h.chars

theorem Scalar.head {t : Text} (h : Scalar t) : ∃ c t', t = c :: t' ∧ isScalarStart c = true := by
  rcases h with rfl | rfl | rfl | h
  · exact ⟨'t', "rue".toList, rfl, rfl⟩
  · exact ⟨'f', "alse".toList, rfl, rfl⟩
  · exact ⟨'n', "ull".toList, rfl, rfl⟩
  · obtain ⟨c, t', rfl, hc⟩ := h.head
    refine ⟨c, t', rfl, ?_⟩
    rcases hc with hc | rfl
    · simp [isScalarStart, hc]
    · rfl

/-- no character of a scalar is structural -/
theorem isScalarChar_solid {c : Char} (h : isScalarChar c = true) :
    c ≠ '"' ∧ c ≠ '{' ∧ c ≠ '}' ∧ c ≠ '[' ∧ c ≠ ']' ∧ c ≠ ',' ∧ c ≠ ':' ∧ isWs c = false := by
  refine ⟨?_, ?_, ?_, ?_, ?_, ?_, ?_, ?_⟩
  all_goals first
    | (rintro rfl; exact absurd h (by decide))
    | skip
  cases hw : isWs c with
  | false => rfl
  | true =>
    simp only [isWs, Bool.or_eq_true, decide_eq_true_eq] at hw
    rcases hw with ((rfl | rfl) | rfl) | rfl <;> exact absurd h (by decide)

/-! ## what can follow -/

def isValueStart (c : Char) : Bool := c = '"' || c = '{' || c = '[' || isScalarStart c

/-- the characters tokens other than whitespace start with -/
def isSolid (c : Char) : Bool := isValueStart c || c = '}' || c = ']' || c = ',' || c = ':'

/-- the solid characters that can follow in a state -/
def State.follow : State → Char → Prop
  | ⟨_, .value⟩, c => isValueStart c = true
  | ⟨_, .valueOrEnd⟩, c => isValueStart c = true ∨ c = ']'
  | ⟨_, .keyOrEnd⟩, c => c = '"' ∨ c = '}'
  | ⟨_, .key⟩, c => c = '"'
  | ⟨_, .colon⟩, c => c = ':'
  | ⟨.obj :: _, .done⟩, c => c = ',' ∨ c = '}'
  | ⟨.arr :: _, .done⟩, c => c = ',' ∨ c = ']'
  | ⟨[], .done⟩, _ => False

theorem Tok.solid_head {t : Tok} (h : t.ok) (hw : ∀ c, t ≠ .ws c) :
    ∃ c t', t.text = c :: t' ∧ isSolid c = true := by
  cases t with
  | ws c => exact absurd rfl (hw c)
  | str b => exact ⟨'"', b ++ ['"'], rfl, rfl⟩
  | scalar t =>
    obtain ⟨c, t', e, hc⟩ := Scalar.head h
    exact ⟨c, t', e, by simp [isSolid, isValueStart, hc]⟩
  | lbrace => exact ⟨'{', [], rfl, rfl⟩
  | rbrace => exact ⟨'}', [], rfl, rfl⟩
  | lbrack => exact ⟨'[', [], rfl, rfl⟩
  | rbrack => exact ⟨']', [], rfl, rfl⟩
  | comma => exact ⟨',', [], rfl, rfl⟩
  | colon => exact ⟨':', [], rfl, rfl⟩

/-- a token the machine accepts starts with a character that can follow -/
theorem State.follow_of_step {q q' : State} {t : Tok} {c : Char} {t' : Text} (h : t.ok)
    (hw : ∀ c, t ≠ .ws c) (hs : q.step t = some q') (e : t.text = c :: t') : q.follow c := by
  have hc : ∀ {s : Text}, Scalar s → s = c :: t' → isValueStart c = true := by
    intro s hs' e'
    obtain ⟨d, s', e'', hd⟩ := hs'.head
    rw [e'] at e''
    rw [(List.cons.inj e'').1]
    simp [isValueStart, hd]
  rcases q with ⟨st, p⟩
  cases t with
  | ws d => exact absurd rfl (hw d)
  | scalar s =>
    cases p <;> simp [State.step] at hs
    · exact hc h e
    · exact Or.inl (hc h e)
  | str b =>
    obtain ⟨rfl, -⟩ : '"' = c ∧ _ := List.cons.inj e
    cases p <;> simp [State.step] at hs <;> simp [State.follow, isValueStart]
  | lbrace =>
    obtain ⟨rfl, -⟩ : '{' = c ∧ _ := List.cons.inj e
    cases p <;> simp [State.step] at hs <;> simp [State.follow, isValueStart]
  | lbrack =>
    obtain ⟨rfl, -⟩ : '[' = c ∧ _ := List.cons.inj e
    cases p <;> simp [State.step] at hs <;> simp [State.follow, isValueStart]
  | rbrace =>
    obtain ⟨rfl, -⟩ : '}' = c ∧ _ := List.cons.inj e
    rcases st with _ | ⟨f, st⟩
    · cases p <;> simp [State.step] at hs
    · cases p <;> cases f <;> simp [State.step] at hs <;> simp [State.follow]
  | rbrack =>
    obtain ⟨rfl, -⟩ : ']' = c ∧ _ := List.cons.inj e
    rcases st with _ | ⟨f, st⟩
    · cases p <;> simp [State.step] at hs
    · cases p <;> cases f <;> simp [State.step] at hs <;> simp [State.follow]
  | comma =>
    obtain ⟨rfl, -⟩ : ',' = c ∧ _ := List.cons.inj e
    rcases st with _ | ⟨f, st⟩
    · cases p <;> simp [State.step] at hs
    · cases p <;> cases f <;> simp [State.step] at hs <;> simp [State.follow]
  | colon =>
    obtain ⟨rfl, -⟩ : ':' = c ∧ _ := List.cons.inj e
    cases p <;> simp [State.step] at hs
    simp [State.follow]

section
variable (ws : Char → Bool)

/-- the first character that is not whitespace in the sense of `ws` -/
def firstSolid (t : Text) : Option Char := t.find? fun c => !ws c

theorem head?_dropWhile (t : Text) : (t.dropWhile ws).head? = firstSolid ws t := by
  induction t with
  | nil => rfl
  | cons c t ih =>
    rw [firstSolid, List.dropWhile_cons, List.find?_cons]
    cases ws c with
    | true => exact ih
    | false => rfl

/-- what comes next can follow in the state -/
def Ahead (q : State) (rest : Text) : Prop := ∀ c, firstSolid ws rest = some c → q.follow c

theorem ahead_nil (q : State) : Ahead ws q [] := by intro c h; cases h

variable (hws : ∀ c, isWs c = true → ws c = true) (hsolid : ∀ c, isSolid c = true → ws c = false)
include hws hsolid

/-- **Look-ahead.**  Between accepted tokens the next solid character is one that can follow. -/
theorem run_follow {rest : Text} {q' : State} (hrest : Ahead ws q' rest) (ts : List Tok) :
    ∀ q : State, Valid ts → q.run ts = some q' → Ahead ws q (render ts ++ rest) := by
  induction ts with
  | nil =>
    intro q _ hr c hc
    obtain rfl : q = q' := Option.some.inj hr
    exact hrest c hc
  | cons t ts ih =>
    intro q hv hr c hc
    obtain ⟨ht, hts⟩ := valid_cons.mp hv
    rw [State.run_cons] at hr
    obtain ⟨q₁, h1, h2⟩ := Option.bind_eq_some_iff.mp hr
    rw [render_cons, List.append_assoc] at hc
    by_cases hw : ∃ d, t = .ws d
    · obtain ⟨d, rfl⟩ := hw
      have e : q₁ = q := by rcases q with ⟨st, p⟩; exact (Option.some.inj h1).symm
      have hd : ws d = true := hws d ht
      rw [e] at h2
      refine ih q hts h2 c ?_
      simpa [firstSolid, Tok.text, hd] using hc
    · have hw' : ∀ d, t ≠ .ws d := fun d e => hw ⟨d, e⟩
      obtain ⟨d, t', e, hd⟩ := Tok.solid_head ht hw'
      have hsd := hsolid d hd
      rw [e] at hc
      have e' : d = c := by simpa [firstSolid, hsd] using hc
      exact e' ▸ State.follow_of_step ht hw' h1 e

end

/-! ## cut texts -/

/-- behind the complete text the machine reads whitespace only -/
theorem run_done {ts : List Tok} {q : State} (h : State.run ⟨[], .done⟩ ts = some q) :
    q = ⟨[], .done⟩ := by
  induction ts with
  | nil => exact (Option.some.inj h).symm
  | cons t ts ih =>
    rw [State.run_cons] at h
    obtain ⟨q₁, h1, h2⟩ := Option.bind_eq_some_iff.mp h
    cases t with
    | ws c => exact ih (State.step_ws h1 ▸ h2)
    | _ => cases h1

end JsonSyntax
