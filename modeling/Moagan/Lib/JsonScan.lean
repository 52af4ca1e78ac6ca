import Moagan.Lib.JsonSyntax

/-!
# Scanners over accepted tokens

A scanner (`Scanning.Scan`) walks characters, the machine of `JsonSyntax` walks tokens.

* `State.Fits`     the position fits the innermost container; every step keeps it;
* `Copies`         over one token the scanner copies the text of the token and stays related to
                   the machine;
* `Copies.run`     then it does so over every accepted list of tokens;
* `Copier`         what a scanner that reacts to single characters has to do, `Copier.copies`.
-/

namespace JsonSyntax
open Scanning

/-! ## positions that fit -/

def State.Fits : State → Prop
  | ⟨st, .key⟩ | ⟨st, .keyOrEnd⟩ | ⟨st, .colon⟩ => st.head? = some .obj
  | ⟨st, .valueOrEnd⟩ => st.head? = some .arr
  | ⟨_, .value⟩ | ⟨_, .done⟩ => True

theorem State.Fits.step {q q' : State} {t : Tok} (h : q.Fits) (hs : q.step t = some q') :
    q'.Fits := by
  cases t with
  | ws c => exact State.step_ws hs ▸ h
  | str b =>
    rcases State.step_str hs with ⟨_, rfl⟩ | ⟨hp, rfl⟩
    · trivial
    · rcases q with ⟨st, p⟩
      rcases hp with rfl | rfl <;> exact h
  | scalar t => obtain ⟨_, rfl⟩ := State.step_scalar hs; trivial
  | lbrace => obtain ⟨_, rfl⟩ := State.step_lbrace hs; rfl
  | lbrack => obtain ⟨_, rfl⟩ := State.step_lbrack hs; rfl
  | rbrace => obtain ⟨st, _, _, rfl⟩ := State.step_rbrace hs; trivial
  | rbrack => obtain ⟨st, _, _, rfl⟩ := State.step_rbrack hs; trivial
  | comma =>
    rcases (State.step_comma hs).2 with ⟨st, e, rfl⟩ | ⟨st, e, rfl⟩
    · rw [e]; rfl
    · trivial
  | colon => obtain ⟨_, rfl⟩ := State.step_colon hs; trivial

/-! ## scanners that copy tokens -/

section
variable {ε : Type}

/-- Over one token the scanner copies the text of the token; `R` relates the machine to what the
scanner wrote and keeps. -/
def Copies (ws : Char → Bool) (step : Scan ε → Char → Text → Scan ε)
    (R : State → Text → ε → Prop) : Prop :=
  ∀ q q' t s rest, Tok.ok t → State.Fits q → q.step t = some q' → s.lex = .code →
    R q s.out s.aux → Ahead ws q' rest →
    ∃ s', walk step s (t.text ++ rest) = walk step s' rest ∧ s'.lex = .code ∧
      s'.out = s.out ++ t.text ∧ R q' s'.out s'.aux

variable {ws : Char → Bool} {step : Scan ε → Char → Text → Scan ε} {R : State → Text → ε → Prop}

/-- **Over accepted tokens the scanner copies its input and stays related to the machine.** -/
theorem Copies.run (h : Copies ws step R) (hws : ∀ c, isWs c = true → ws c = true)
    (hsolid : ∀ c, isSolid c = true → ws c = false) {rest : Text} {q' : State}
    (hrest : Ahead ws q' rest) (ts : List Tok) :
    ∀ q s, Valid ts → State.Fits q → q.run ts = some q' → s.lex = .code → R q s.out s.aux →
      ∃ s', walk step s (render ts ++ rest) = walk step s' rest ∧ s'.lex = .code ∧
        s'.out = s.out ++ render ts ∧ R q' s'.out s'.aux := by
  induction ts with
  | nil =>
    intro q s _ _ hr hl hR
    obtain rfl : q = q' := Option.some.inj hr
    exact ⟨s, rfl, hl, by simp [render_nil], hR⟩
  | cons t ts ih =>
    intro q s hv hf hr hl hR
    obtain ⟨ht, hts⟩ := valid_cons.mp hv
    rw [State.run_cons] at hr
    obtain ⟨q₁, h1, h2⟩ := Option.bind_eq_some_iff.mp hr
    have ha : Ahead ws q₁ (render ts ++ rest) := run_follow ws hws hsolid hrest ts q₁ hts h2
    obtain ⟨s₁, e₁, hl₁, ho₁, hR₁⟩ := h q q₁ t s (render ts ++ rest) ht hf h1 hl hR ha
    obtain ⟨s₂, e₂, hl₂, ho₂, hR₂⟩ := ih q₁ s₁ hts (hf.step h1) h2 hl₁ hR₁
    refine ⟨s₂, ?_, hl₂, ?_, hR₂⟩
    · rw [render_cons, List.append_assoc, e₁, e₂]
    · rw [ho₂, ho₁, render_cons, List.append_assoc]

/-- **A scanner that copies tokens copies what the machine reads.** -/
theorem walk_reads (h : Copies ws step R)
    (hws : (∀ c, isWs c = true → ws c = true) ∧ ∀ c, isSolid c = true → ws c = false)
    {ts : List Tok} {q : State} (hr : Reads ts q) {rest : Text} (hrest : Ahead ws q rest) (a : ε)
    (hR : R State.start [] a) :
    ∃ a', walk step ⟨.code, [], a⟩ (render ts ++ rest) = walk step ⟨.code, render ts, a'⟩ rest ∧
      R q (render ts) a' := by
  obtain ⟨s', e, hl, ho, hR'⟩ := h.run hws.1 hws.2 hrest ts State.start ⟨.code, [], a⟩ hr.valid
    trivial hr.run rfl hR
  have ho' : s'.out = render ts := ho
  refine ⟨s'.aux, ?_, ho' ▸ hR'⟩
  rw [e, show s' = ⟨.code, render ts, s'.aux⟩ from Scan.ext_fields hl ho' rfl]

/-! ## scanners that react to single characters -/

/-- copy a character and change the state of the scanner -/
def put (s : Scan ε) (c : Char) (a : ε) : Scan ε := { s.push c with aux := a }

@[simp] theorem put_lex (s : Scan ε) (c : Char) (a : ε) : (put s c a).lex = s.lex.next c := rfl
@[simp] theorem put_out (s : Scan ε) (c : Char) (a : ε) : (put s c a).out = s.out ++ [c] := rfl
@[simp] theorem put_aux (s : Scan ε) (c : Char) (a : ε) : (put s c a).aux = a := rfl

theorem put_self (s : Scan ε) (c : Char) : put s c s.aux = s.push c := rfl

/-- the character of a token that is always a single one -/
def Tok.single : Tok → Option Char
  | .ws c => some c
  | .str _ | .scalar _ => none
  | .lbrace => some '{'
  | .rbrace => some '}'
  | .lbrack => some '['
  | .rbrack => some ']'
  | .comma => some ','
  | .colon => some ':'

theorem Tok.text_of_single {t : Tok} {c : Char} (h : t.single = some c) : t.text = [c] := by
  cases t with
  | str b => cases h
  | scalar t => cases h
  | _ => exact congrArg (fun d => [d]) (Option.some.inj h)

/-- some state of the machine is related to what the scanner keeps -/
def Related (R : State → Text → ε → Prop) (a : ε) : Prop := ∃ q out, R q out a

/-- the scanner copies the inside of literals, opening quotes and scalars, and keeps the relation
at single characters and at closing quotes -/
structure Copier (ws : Char → Bool) (step : Scan ε → Char → Text → Scan ε)
    (R : State → Text → ε → Prop) : Prop where
  str : ∀ s c rest, Related R s.aux → s.lex = .str → c ≠ '"' → step s c rest = s.push c
  esc : ∀ s c rest, Related R s.aux → s.lex = .esc → step s c rest = s.push c
  opening : ∀ s rest, Related R s.aux → s.lex = .code → step s '"' rest = s.push '"'
  solid : ∀ s c rest, Related R s.aux → s.lex = .code → isScalarChar c = true →
    step s c rest = s.push c
  scalar : ∀ q q' t out a, Scalar t → q.step (.scalar t) = some q' → R q out a → R q' (out ++ t) a
  single : ∀ q q' t c s rest, Tok.single t = some c → t.ok → q.Fits → q.step t = some q' →
    s.lex = .code → R q s.out s.aux → Ahead ws q' rest →
    ∃ a, step s c rest = put s c a ∧ R q' (s.out ++ [c]) a
  closing : ∀ q q' b out s rest, q.step (.str b) = some q' → q.Fits → s.lex = .str →
    R q out s.aux → s.out = out ++ '"' :: b → Ahead ws q' rest →
    ∃ a, step s '"' rest = put s '"' a ∧ R q' (s.out ++ ['"']) a

theorem lexAfter_code {t : Text} (h : ∀ c ∈ t, c ≠ '"') : lexAfter .code t = .code := by
  induction t with
  | nil => rfl
  | cons c t ih =>
    rw [lexAfter_cons, Lex.next_code_of_ne (h c List.mem_cons_self)]
    exact ih fun d hd => h d (List.mem_cons_of_mem _ hd)

/-- over a scalar -/
theorem walk_solid {a : ε}
    (h : ∀ s c rest, s.lex = .code → s.aux = a → isScalarChar c = true → step s c rest = s.push c)
    (rest t : Text) (ht : ∀ c ∈ t, isScalarChar c = true) :
    ∀ s : Scan ε, s.lex = .code → s.aux = a →
      walk step s (t ++ rest) = walk step (s.pushAll t) rest := by
  induction t with
  | nil => intro s _ _; rfl
  | cons c t ih =>
    intro s hl ha
    have hc : isScalarChar c = true := ht c List.mem_cons_self
    rw [List.cons_append, walk_cons, h s c _ hl ha hc, Scan.pushAll_cons]
    refine ih (fun d hd => ht d (List.mem_cons_of_mem _ hd)) _ ?_ ha
    rw [Scan.push_lex, hl, Lex.next_code_of_ne (isScalarChar_solid hc).1]

theorem pushAll_scalar_lex {t : Text} (ht : Scalar t) {s : Scan ε} (hl : s.lex = .code) :
    (s.pushAll t).lex = .code := by
  rw [Scan.pushAll_lex, hl]
  exact lexAfter_code fun c hc => (isScalarChar_solid (ht.chars c hc)).1

/-- over a token that is a single character -/
theorem copies_single {q' : State} {t : Tok} {c : Char} {s : Scan ε} {rest : Text} {a : ε}
    (e : t.single = some c) (hc : c ≠ '"') (hl : s.lex = .code) (h : step s c rest = put s c a)
    (hR : R q' (s.out ++ [c]) a) :
    ∃ s', walk step s (t.text ++ rest) = walk step s' rest ∧ s'.lex = .code ∧
      s'.out = s.out ++ t.text ∧ R q' s'.out s'.aux := by
  refine ⟨put s c a, ?_, ?_, ?_, hR⟩
  · rw [Tok.text_of_single e, List.cons_append, List.nil_append, walk_cons, h]
  · rw [put_lex, hl, Lex.next_code_of_ne hc]
  · rw [put_out, Tok.text_of_single e]

/-- Over a literal: `a` is what the scanner keeps inside it, `a'` behind it. -/
theorem walk_str {a a' : ε} {s : Scan ε} {b rest : Text}
    (hstr : ∀ s c rest, s.aux = a → s.lex = .str → c ≠ '"' → step s c rest = s.push c)
    (hesc : ∀ s c rest, s.aux = a → s.lex = .esc → step s c rest = s.push c)
    (hb : StrBody b) (hl : s.lex = .code) (hopen : ∀ rest, step s '"' rest = put s '"' a)
    (hclose : ∀ s' : Scan ε, s'.lex = .str → s'.aux = a → s'.out = s.out ++ '"' :: b →
      step s' '"' rest = put s' '"' a') :
    ∃ s', walk step s ('"' :: b ++ ['"'] ++ rest) = walk step s' rest ∧ s'.lex = .code ∧
      s'.out = s.out ++ ('"' :: b ++ ['"']) ∧ s'.aux = a' := by
  obtain ⟨hin, hend⟩ := hb.inside
  have hq : (put s '"' a).lex = .str := by rw [put_lex, hl]; rfl
  let s₁ := (put s '"' a).pushAll b
  have hl₁ : s₁.lex = .str := by
    show ((put s '"' a).pushAll b).lex = _
    rw [Scan.pushAll_lex, hq, hend]
  have ho₁ : s₁.out = s.out ++ '"' :: b := by
    show ((put s '"' a).pushAll b).out = _
    simp
  have ha₁ : s₁.aux = a := by
    show ((put s '"' a).pushAll b).aux = _
    simp
  refine ⟨put s₁ '"' a', ?_, ?_, ?_, rfl⟩
  · have e : '"' :: b ++ ['"'] ++ rest = '"' :: (b ++ '"' :: rest) := by simp
    rw [e, walk_cons, hopen,
      Scan.walk_inside step a hstr hesc ('"' :: rest) b (put s '"' a) rfl (by rw [hq]; exact hin)]
    show walk step (step s₁ '"' rest) rest = _
    rw [hclose s₁ hl₁ ha₁ ho₁]
  · rw [put_lex, hl₁]; rfl
  · rw [put_out, ho₁]; simp

theorem Copier.str_copies (h : Copier ws step R) {q q' : State} {b : Text} {s : Scan ε}
    {rest : Text} (hb : StrBody b) (hf : q.Fits) (hs : q.step (.str b) = some q')
    (hl : s.lex = .code) (hR : R q s.out s.aux) (ha : Ahead ws q' rest) :
    ∃ s', walk step s ('"' :: b ++ ['"'] ++ rest) = walk step s' rest ∧ s'.lex = .code ∧
      s'.out = s.out ++ ('"' :: b ++ ['"']) ∧ R q' s'.out s'.aux := by
  have hr : Related R s.aux := ⟨q, s.out, hR⟩
  obtain ⟨a', e, hR'⟩ := h.closing q q' b s.out ⟨.str, s.out ++ '"' :: b, s.aux⟩ rest hs hf rfl hR
    rfl ha
  obtain ⟨s', h1, h2, h3, h4⟩ := walk_str
    (fun s' c r e => h.str s' c r (e ▸ hr)) (fun s' c r e => h.esc s' c r (e ▸ hr)) hb hl
    (fun rest => h.opening s rest hr hl) (fun s' hl' ha' ho' => by
      rw [show s' = ⟨.str, s.out ++ '"' :: b, s.aux⟩ from Scan.ext_fields hl' ho' ha']
      exact e)
  refine ⟨s', h1, h2, h3, ?_⟩
  rw [h3, h4]
  simpa using hR'

/-- over a token that is always a single character -/
theorem Copier.single_copies (h : Copier ws step R) {q q' : State} {t : Tok} {c : Char}
    {s : Scan ε} {rest : Text} (e : t.single = some c) (hc : c ≠ '"') (ht : t.ok) (hf : q.Fits)
    (hs : q.step t = some q') (hl : s.lex = .code) (hR : R q s.out s.aux)
    (ha : Ahead ws q' rest) :
    ∃ s', walk step s (t.text ++ rest) = walk step s' rest ∧ s'.lex = .code ∧
      s'.out = s.out ++ t.text ∧ R q' s'.out s'.aux := by
  obtain ⟨a, e', hR'⟩ := h.single q q' t c s rest e ht hf hs hl hR ha
  exact copies_single e hc hl e' hR'

/-- **A scanner that copies characters copies tokens.** -/
theorem Copier.copies (h : Copier ws step R) : Copies ws step R := by
  intro q q' t s rest ht hf hs hl hR ha
  cases t with
  | ws c =>
    have hc : c ≠ '"' := by rintro rfl; exact absurd (show isWs '"' = true from ht) (by decide)
    exact h.single_copies rfl hc ht hf hs hl hR ha
  | str b => exact h.str_copies ht hf hs hl hR ha
  | scalar t =>
    have hr : Related R s.aux := ⟨q, s.out, hR⟩
    have e := walk_solid (fun s' c r hl' e hc => h.solid s' c r (e ▸ hr) hl' hc) rest t
      (Scalar.chars ht) s hl rfl
    refine ⟨s.pushAll t, e, pushAll_scalar_lex ht hl, s.pushAll_out t, ?_⟩
    · rw [Scan.pushAll_out, Scan.pushAll_aux]
      exact h.scalar q q' t s.out s.aux ht hs hR
  | _ => exact h.single_copies rfl (by decide) ht hf hs hl hR ha

end

end JsonSyntax
