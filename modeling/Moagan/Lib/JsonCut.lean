import Moagan.Lib.JsonScan

/-!
# Cut JSON texts

* `run_opening`       what is read is whitespace, or complete, or opens a container
* `CutString`         a text that stops inside a string: tokens, and the beginning of a body
* `cutString_of_lex`  a prefix of a JSON text that stops inside a literal is one
* `Copier.walk_cut`   a scanner that copies tokens copies such a text
-/

namespace JsonSyntax
open Scanning

/-! ## the opening of a text -/

/-- What the machine has read is whitespace, or a complete text, or it opens a container. -/
theorem run_opening (ts : List Tok) {q : State} (hv : Valid ts) (hr : State.start.run ts = some q) :
    (Ws (render ts) ∧ q = State.start) ∨ q = State.final ∨
      ∃ ws t us q₁, ts = ws ++ t :: us ∧ Ws (render ws) ∧ (t = .lbrace ∨ t = .lbrack) ∧
        State.start.step t = some q₁ ∧ q₁.run us = some q := by
  induction ts with
  | nil => exact Or.inl ⟨fun c hc => absurd hc (by simp [render_nil]), (Option.some.inj hr).symm⟩
  | cons t ts ih =>
    obtain ⟨ht, hts⟩ := valid_cons.mp hv
    rw [State.run_cons] at hr
    obtain ⟨q₁, h1, h2⟩ := Option.bind_eq_some_iff.mp hr
    have hnil : Ws (render []) := fun c hc => absurd hc (by simp [render_nil])
    cases t with
    | ws c =>
      obtain rfl := State.step_ws h1
      have hws : ∀ {us : List Tok}, Ws (render us) → Ws (render (.ws c :: us)) := by
        intro us hw d hd
        rcases List.mem_cons.mp hd with rfl | hd
        · exact ht
        · exact hw d hd
      rcases ih hts h2 with ⟨h, e⟩ | e | ⟨ws, t, us, q₂, rfl, hw, h⟩
      · exact Or.inl ⟨hws h, e⟩
      · exact Or.inr (Or.inl e)
      · exact Or.inr (Or.inr ⟨.ws c :: ws, t, us, q₂, rfl, hws hw, h⟩)
    | str b => exact Or.inr (Or.inl (run_done (Option.some.inj h1 ▸ h2)))
    | scalar u => exact Or.inr (Or.inl (run_done (Option.some.inj h1 ▸ h2)))
    | lbrace => exact Or.inr (Or.inr ⟨[], .lbrace, ts, q₁, rfl, hnil, Or.inl rfl, h1, h2⟩)
    | lbrack => exact Or.inr (Or.inr ⟨[], .lbrack, ts, q₁, rfl, hnil, Or.inr rfl, h1, h2⟩)
    | _ => cases h1

/-! ## texts that stop inside a string -/

/-- a string is read here: a value or a key -/
def State.TakesString (q : State) : Prop := ∀ b, ∃ q', q.step (.str b) = some q'

theorem State.takesString_of_step {q q' : State} {b : Text} (h : q.step (.str b) = some q') :
    q.TakesString := by
  intro b'
  rcases q with ⟨st, p⟩
  cases p <;> simp [State.step] at h <;> exact ⟨_, rfl⟩

theorem State.TakesString.follow {q : State} (h : q.TakesString) : q.follow '"' := by
  obtain ⟨q', hs⟩ := h []
  exact State.follow_of_step (t := .str []) StrBody.nil nofun hs rfl

/-- tokens that are read, and the beginning of the body of the string that is read next -/
structure CutString (ts : List Tok) (q : State) (b : Text) : Prop where
  reads : Reads ts q
  takes : q.TakesString
  body : ∃ e, StrBody (b ++ e)

theorem inside_append {t e : Text} : ∀ {m : Lex}, Inside m (t ++ e) → Inside m t := by
  induction t with
  | nil => intro m _; trivial
  | cons c t ih =>
    intro m h
    cases m with
    | code => exact h
    | str => exact ⟨h.1, ih h.2⟩
    | esc => exact ih h

theorem lexAfter_inside {t : Text} : ∀ {m : Lex}, m ≠ .code → Inside m t → lexAfter m t ≠ .code := by
  induction t with
  | nil => intro m hm _; exact hm
  | cons c t ih =>
    intro m hm h
    cases m with
    | code => exact absurd rfl hm
    | str =>
      refine ih (fun e => ?_) h.2
      exact absurd (Lex.code_of_next h.1 e) (by decide)
    | esc => exact ih (m := .str) nofun h

theorem CutString.inside {ts : List Tok} {q : State} {b : Text} (h : CutString ts q b) :
    Inside .str b := by
  obtain ⟨e, he⟩ := h.body
  exact inside_append he.inside.1

theorem lexAfter_append (m : Lex) (a b : Text) :
    lexAfter m (a ++ b) = lexAfter (lexAfter m a) b := List.foldl_append

/-- behind a token the text is in code -/
theorem Tok.lexAfter_text {t : Tok} (h : t.ok) : lexAfter .code t.text = .code := by
  cases t with
  | ws c =>
    refine lexAfter_code fun d hd => ?_
    obtain rfl := List.mem_singleton.mp hd
    rintro rfl
    exact absurd (show isWs '"' = true from h) (by decide)
  | str b =>
    have e : Tok.text (.str b) = ['"'] ++ b ++ ['"'] := rfl
    rw [e, lexAfter_append, lexAfter_append, show lexAfter .code ['"'] = .str from rfl,
      (StrBody.inside h).2]
    rfl
  | scalar t => exact lexAfter_code fun c hc => (isScalarChar_solid (Scalar.chars h c hc)).1
  | _ => rfl

/-- a prefix of a token that ends inside a literal -/
theorem Tok.cut_text {t : Tok} (h : t.ok) {p z : Text} (e : t.text = p ++ z) (hz : z ≠ [])
    (hl : lexAfter .code p ≠ .code) : ∃ b e, t = .str (b ++ e) ∧ p = '"' :: b := by
  have plain : (∀ c ∈ t.text, c ≠ '"') → False := by
    intro hc
    exact hl (lexAfter_code fun c hcp => hc c (e ▸ List.mem_append_left z hcp))
  cases t with
  | str b =>
    cases p with
    | nil => exact absurd rfl hl
    | cons c b' =>
      obtain ⟨rfl, h2⟩ := List.cons.inj (show '"' :: (b ++ ['"']) = c :: (b' ++ z) from e)
      obtain ⟨z', d, rfl⟩ : ∃ z' d, z = z' ++ [d] :=
        ⟨z.dropLast, z.getLast hz, (List.dropLast_append_getLast hz).symm⟩
      rw [← List.append_assoc] at h2
      exact ⟨b', z', by rw [(List.append_inj' h2 rfl).1], rfl⟩
  | ws c =>
    refine (plain fun d hd => ?_).elim
    obtain rfl := List.mem_singleton.mp hd
    rintro rfl
    exact absurd (show isWs '"' = true from h) (by decide)
  | scalar t => exact (plain fun c hc => (isScalarChar_solid (Scalar.chars h c hc)).1).elim
  | _ => exact (plain (by simp [Tok.text])).elim

theorem cut_run (ts : List Tok) : ∀ (q q' : State) (p z : Text), Valid ts → q.run ts = some q' →
    render ts = p ++ z → lexAfter .code p ≠ .code →
    ∃ us r b, p = render us ++ '"' :: b ∧ Valid us ∧ q.run us = some r ∧ r.TakesString ∧
      ∃ e, StrBody (b ++ e) := by
  induction ts with
  | nil =>
    intro q q' p z _ _ e hl
    obtain ⟨rfl, -⟩ := List.append_eq_nil_iff.mp e.symm
    exact absurd rfl hl
  | cons t ts ih =>
    intro q q' p z hv hr e hl
    obtain ⟨ht, hts⟩ := valid_cons.mp hv
    rw [State.run_cons] at hr
    obtain ⟨q₁, h1, h2⟩ := Option.bind_eq_some_iff.mp hr
    rw [render_cons] at e
    by_cases hlen : t.text.length ≤ p.length
    · -- the token is read completely
      obtain ⟨p', rfl⟩ := List.prefix_of_prefix_length_le ⟨_, rfl⟩ ⟨z, e.symm⟩ hlen
      rw [List.append_assoc] at e
      have hl' : lexAfter .code p' ≠ .code := by
        rw [lexAfter_append, Tok.lexAfter_text ht] at hl
        exact hl
      obtain ⟨us, r, b, rfl, hus, hrun, htake, hbody⟩ :=
        ih q₁ q' p' z hts h2 (List.append_cancel_left e) hl'
      refine ⟨t :: us, r, b, ?_, valid_cons.mpr ⟨ht, hus⟩, ?_, htake, hbody⟩
      · rw [render_cons, List.append_assoc]
      · rw [State.run_cons, h1]
        exact hrun
    · -- the text stops inside the token
      obtain ⟨x, hx⟩ := List.prefix_of_prefix_length_le ⟨z, rfl⟩ ⟨_, e⟩ (by omega : p.length ≤ t.text.length)
      have hne : x ≠ [] := by
        rintro rfl
        rw [List.append_nil] at hx
        exact hlen (hx ▸ Nat.le_refl _)
      obtain ⟨b, e', rfl, rfl⟩ := Tok.cut_text ht hx.symm hne hl
      exact ⟨[], q, b, rfl, valid_nil, rfl, State.takesString_of_step h1, e', ht⟩

/-- **A prefix of a JSON text that stops inside a literal** is tokens and the beginning of a
string. -/
theorem cutString_of_lex {t p : Text} (ht : JsonText t) (hp : p <+: t)
    (hl : lexAfter .code p ≠ .code) : ∃ ts q b, p = render ts ++ '"' :: b ∧ CutString ts q b := by
  obtain ⟨ts, rfl, hr⟩ := ht.reads
  obtain ⟨z, hz⟩ := hp
  obtain ⟨us, q, b, e, hv, hrun, htake, hbody⟩ :=
    cut_run ts _ _ p z hr.valid hr.run hz.symm hl
  exact ⟨us, q, b, e, ⟨hv, hrun⟩, htake, hbody⟩

/-! ## scanners on such a text -/

section
variable {ε : Type} {ws : Char → Bool} {step : Scan ε → Char → Text → Scan ε}
  {R : State → Text → ε → Prop}

theorem CutString.ahead {ts : List Tok} {q : State} {b : Text} (h : CutString ts q b)
    (hsolid : ∀ c, isSolid c = true → ws c = false) : Ahead ws q ('"' :: b) := by
  intro c hc
  have hq : ws '"' = false := hsolid '"' rfl
  obtain rfl : '"' = c := by simpa [firstSolid, hq] using hc
  exact h.takes.follow

/-- the opening quote, and what the text has of the literal -/
theorem CutString.walk_literal {ts : List Tok} {q : State} {b : Text} (h : CutString ts q b)
    {a a' : ε} (hstr : ∀ s c rest, s.aux = a' → s.lex = .str → c ≠ '"' → step s c rest = s.push c)
    (hesc : ∀ s c rest, s.aux = a' → s.lex = .esc → step s c rest = s.push c)
    (hopen : step ⟨.code, render ts, a⟩ '"' b = put ⟨.code, render ts, a⟩ '"' a') :
    walk step ⟨.code, render ts, a⟩ ('"' :: b) =
      ⟨lexAfter .str b, render ts ++ '"' :: b, a'⟩ := by
  have hin := Scan.walk_inside step a' hstr hesc [] b (put ⟨.code, render ts, a⟩ '"' a') rfl h.inside
  rw [List.append_nil, walk_nil] at hin
  rw [walk_cons, hopen, hin]
  refine Scan.ext_fields ?_ ?_ ?_
  · rw [Scan.pushAll_lex]
    rfl
  · rw [Scan.pushAll_out, put_out, List.append_assoc]
    rfl
  · rw [Scan.pushAll_aux]
    rfl

/-- **A scanner that copies characters copies a text that stops inside a string.** -/
theorem Copier.walk_cut (h : Copier ws step R)
    (hws : (∀ c, isWs c = true → ws c = true) ∧ ∀ c, isSolid c = true → ws c = false)
    {ts : List Tok} {q : State} {b : Text} (hc : CutString ts q b) (a : ε)
    (hR : R State.start [] a) :
    ∃ a', walk step ⟨.code, [], a⟩ (render ts ++ '"' :: b) =
        ⟨lexAfter .str b, render ts ++ '"' :: b, a'⟩ ∧ R q (render ts) a' := by
  obtain ⟨a', e, hR'⟩ := walk_reads h.copies hws hc.reads (hc.ahead hws.2) a hR
  have hrel : Related R a' := ⟨q, render ts, hR'⟩
  refine ⟨a', ?_, hR'⟩
  rw [e]
  exact hc.walk_literal (fun s c r e => h.str s c r (e ▸ hrel)) (fun s c r e => h.esc s c r (e ▸ hrel))
    (h.opening _ b hrel rfl)

end

end JsonSyntax
