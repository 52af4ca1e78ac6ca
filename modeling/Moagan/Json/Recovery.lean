import Moagan.Json.Untouched

/-!
# Recovery is the identity on well-formed texts

* `findBalancedEnd_run`      over accepted tokens the depth counts the open containers of the kind
* `container_tokens`         a container is its brackets around accepted tokens
* `extract_wellFormed`       the extractor selects the top-level container
* `recovery_wellFormed`      every pass of the recovery leaves a well-formed text alone
-/

namespace Moagan
open Scanning JsonSyntax

/-! ## the balanced end -/

section
variable {o c : Char}

theorem findBalancedEnd_lit {m : Lex} (hm : m ≠ .code) (d i : Nat) (b : Char) (rest : Text) :
    findBalancedEnd o c (.text m) d i (b :: rest) =
      findBalancedEnd o c (.text (m.next b)) d (i + b.utf8Size) rest := by
  conv => lhs; unfold findBalancedEnd
  split <;> simp_all

/-- a character of code that does not start a comment -/
theorem findBalancedEnd_code {b : Char} (hb : b ≠ '/') (d i : Nat) (rest : Text) :
    findBalancedEnd o c (.text .code) d i (b :: rest) =
      if b = o then findBalancedEnd o c (.text .code) (d + 1) (i + b.utf8Size) rest
      else if b = c then
        if d - 1 = 0 then some (i + b.utf8Size)
        else findBalancedEnd o c (.text .code) (d - 1) (i + b.utf8Size) rest
      else findBalancedEnd o c (.text (Lex.next .code b)) d (i + b.utf8Size) rest := by
  conv => lhs; unfold findBalancedEnd
  split <;> simp_all

theorem findBalancedEnd_inside (d : Nat) (rest t : Text) :
    ∀ m i, Inside m t →
      findBalancedEnd o c (.text m) d i (t ++ rest) =
        findBalancedEnd o c (.text (lexAfter m t)) d (i + utf8Len t) rest := by
  induction t with
  | nil => intro m i _; rfl
  | cons b t ih =>
    intro m i h
    have hm : m ≠ .code := by rintro rfl; exact h
    rw [List.cons_append, findBalancedEnd_lit hm, ih, utf8Len_cons, Nat.add_assoc]
    · rfl
    · cases m with
      | code => exact False.elim h
      | str => exact h.2
      | esc => exact h

/-- a text without quotes, slashes and the two brackets is passed over -/
theorem findBalancedEnd_plain (d : Nat) (rest t : Text)
    (ht : ∀ b ∈ t, b ≠ '"' ∧ b ≠ '/' ∧ b ≠ o ∧ b ≠ c) :
    ∀ i, findBalancedEnd o c (.text .code) d i (t ++ rest) =
      findBalancedEnd o c (.text .code) d (i + utf8Len t) rest := by
  induction t with
  | nil => intro i; rfl
  | cons b t ih =>
    intro i
    obtain ⟨h1, h2, h3, h4⟩ := ht b List.mem_cons_self
    rw [List.cons_append, findBalancedEnd_code h2, if_neg h3, if_neg h4, Lex.next_code_of_ne h1,
      ih fun d hd => ht d (List.mem_cons_of_mem _ hd)]
    rw [utf8Len_cons, Nat.add_assoc]

end

/-- the closer of a kind of container -/
def closing : JsonSyntax.Frame → Char
  | .obj => '}'
  | .arr => ']'

/-- when the last container closes the text is complete -/
theorem step_to_empty {q q' : State} {t : Tok} (h : q.step t = some q') (hne : q.stack ≠ [])
    (he : q'.stack = []) : q' = ⟨[], .done⟩ := by
  cases t with
  | ws c => exact absurd (State.step_ws h ▸ he) hne
  | str b => rcases State.step_str h with ⟨_, rfl⟩ | ⟨_, rfl⟩ <;> exact absurd he hne
  | scalar u => obtain ⟨_, rfl⟩ := State.step_scalar h; exact absurd he hne
  | lbrace => obtain ⟨_, rfl⟩ := State.step_lbrace h; cases he
  | lbrack => obtain ⟨_, rfl⟩ := State.step_lbrack h; cases he
  | rbrace => obtain ⟨st, _, _, rfl⟩ := State.step_rbrace h; rw [show st = [] from he]
  | rbrack => obtain ⟨st, _, _, rfl⟩ := State.step_rbrack h; rw [show st = [] from he]
  | comma => rcases (State.step_comma h).2 with ⟨_, _, rfl⟩ | ⟨_, _, rfl⟩ <;> exact absurd he hne
  | colon => obtain ⟨_, rfl⟩ := State.step_colon h; exact absurd he hne

/-- the kind of the outermost container -/
def Outermost (f : JsonSyntax.Frame) (st : List JsonSyntax.Frame) : Prop := st.getLast? = some f

theorem Outermost.cons {f g : JsonSyntax.Frame} {st : List JsonSyntax.Frame} (h : Outermost f st) :
    Outermost f (g :: st) := by
  cases st with
  | nil => cases h
  | cons g' st => rw [Outermost, List.getLast?_cons_cons]; exact h

theorem Outermost.tail {f g : JsonSyntax.Frame} {st : List JsonSyntax.Frame}
    (h : Outermost f (g :: st)) (hne : st ≠ []) : Outermost f st := by
  cases st with
  | nil => exact absurd rfl hne
  | cons g' st => rw [Outermost, List.getLast?_cons_cons] at h; exact h

theorem Outermost.count_pos {f : JsonSyntax.Frame} {st : List JsonSyntax.Frame}
    (h : Outermost f st) : 0 < st.count f :=
  List.count_pos_iff.mpr (List.mem_of_getLast? h)

/-- one token: the depth follows the number of open containers of the kind -/
theorem findBalancedEnd_tok {f : JsonSyntax.Frame} {q q' : State} {t : Tok} (ht : t.ok)
    (hs : q.step t = some q') (hout : Outermost f q.stack) (hne : q'.stack ≠ []) (i : Nat)
    (rest : Text) :
    Outermost f q'.stack ∧
      findBalancedEnd (opener f) (closing f) (.text .code) (q.stack.count f) i (t.text ++ rest) =
        findBalancedEnd (opener f) (closing f) (.text .code) (q'.stack.count f)
          (i + utf8Len t.text) rest := by
  have plain : ∀ {u : Text}, (∀ b ∈ u, b ≠ '"' ∧ b ≠ '/' ∧ b ≠ '{' ∧ b ≠ '}' ∧ b ≠ '[' ∧ b ≠ ']') →
      findBalancedEnd (opener f) (closing f) (.text .code) (q.stack.count f) i (u ++ rest) =
        findBalancedEnd (opener f) (closing f) (.text .code) (q.stack.count f)
          (i + utf8Len u) rest := by
    intro u hu
    refine findBalancedEnd_plain _ rest u (fun b hb => ?_) i
    obtain ⟨h1, h2, h3, h4, h5, h6⟩ := hu b hb
    cases f with
    | obj => exact ⟨h1, h2, h3, h4⟩
    | arr => exact ⟨h1, h2, h5, h6⟩
  cases t with
  | ws b =>
    obtain rfl := State.step_ws hs
    refine ⟨hout, plain fun d hd => ?_⟩
    obtain rfl : d = b := List.mem_singleton.mp hd
    obtain ⟨_, h1, h2, h3, h4, _, h5⟩ := isWs_ne ht
    refine ⟨h5, ?_, h1, h3, h2, h4⟩
    rintro rfl
    exact absurd (show isWs '/' = true from ht) (by decide)
  | str b =>
    have hst : q'.stack = q.stack := by
      rcases State.step_str hs with ⟨_, rfl⟩ | ⟨_, rfl⟩ <;> rfl
    obtain ⟨hin, hend⟩ := StrBody.inside ht
    have ho : ('"' : Char) ≠ opener f := by cases f <;> decide
    have hc : ('"' : Char) ≠ closing f := by cases f <;> decide
    have e : Tok.text (.str b) ++ rest = '"' :: (b ++ '"' :: rest) := by simp [Tok.text]
    refine ⟨hst ▸ hout, ?_⟩
    rw [hst, e, findBalancedEnd_code (by decide), if_neg ho, if_neg hc, Lex.next_code_quote,
      findBalancedEnd_inside _ _ _ _ _ hin, hend, findBalancedEnd_lit (by decide), Lex.next_str_quote]
    congr 1
    simp [Tok.text, Nat.add_assoc]
  | scalar t =>
    obtain ⟨_, rfl⟩ := State.step_scalar hs
    refine ⟨hout, plain fun d hd => ?_⟩
    have hd' := Scalar.chars ht d hd
    obtain ⟨h1, h2, h3, h4, h5, _⟩ := isScalarChar_solid hd'
    refine ⟨h1, ?_, h2, h3, h4, h5⟩
    rintro rfl
    exact absurd hd' (by decide)
  | lbrace =>
    obtain ⟨_, rfl⟩ := State.step_lbrace hs
    refine ⟨hout.cons, ?_⟩
    cases f with
    | obj =>
      show findBalancedEnd '{' '}' _ _ i ('{' :: rest) = _
      rw [findBalancedEnd_code (by decide), if_pos rfl, List.count_cons_self]
      rfl
    | arr =>
      show findBalancedEnd '[' ']' _ _ i ('{' :: rest) = _
      rw [findBalancedEnd_code (by decide), if_neg (by decide), if_neg (by decide),
        List.count_cons_of_ne (by decide)]
      rfl
  | lbrack =>
    obtain ⟨_, rfl⟩ := State.step_lbrack hs
    refine ⟨hout.cons, ?_⟩
    cases f with
    | obj =>
      show findBalancedEnd '{' '}' _ _ i ('[' :: rest) = _
      rw [findBalancedEnd_code (by decide), if_neg (by decide), if_neg (by decide),
        List.count_cons_of_ne (by decide)]
      rfl
    | arr =>
      show findBalancedEnd '[' ']' _ _ i ('[' :: rest) = _
      rw [findBalancedEnd_code (by decide), if_pos rfl, List.count_cons_self]
      rfl
  | rbrace =>
    obtain ⟨st, hq, _, rfl⟩ := State.step_rbrace hs
    rw [hq] at hout ⊢
    have hout' := hout.tail hne
    refine ⟨hout', ?_⟩
    cases f with
    | obj =>
      have hpos := hout'.count_pos
      show findBalancedEnd '{' '}' _ _ i ('}' :: rest) = _
      rw [findBalancedEnd_code (by decide), if_neg (by decide), if_pos rfl, List.count_cons_self,
        Nat.add_sub_cancel, if_neg (by omega)]
      rfl
    | arr =>
      show findBalancedEnd '[' ']' _ _ i ('}' :: rest) = _
      rw [findBalancedEnd_code (by decide), if_neg (by decide), if_neg (by decide),
        List.count_cons_of_ne (by decide)]
      rfl
  | rbrack =>
    obtain ⟨st, hq, _, rfl⟩ := State.step_rbrack hs
    rw [hq] at hout ⊢
    have hout' := hout.tail hne
    refine ⟨hout', ?_⟩
    cases f with
    | obj =>
      show findBalancedEnd '{' '}' _ _ i (']' :: rest) = _
      rw [findBalancedEnd_code (by decide), if_neg (by decide), if_neg (by decide),
        List.count_cons_of_ne (by decide)]
      rfl
    | arr =>
      have hpos := hout'.count_pos
      show findBalancedEnd '[' ']' _ _ i (']' :: rest) = _
      rw [findBalancedEnd_code (by decide), if_neg (by decide), if_pos rfl, List.count_cons_self,
        Nat.add_sub_cancel, if_neg (by omega)]
      rfl
  | comma =>
    have hst : q'.stack = q.stack := by
      rcases (State.step_comma hs).2 with ⟨_, _, rfl⟩ | ⟨_, _, rfl⟩ <;> rfl
    refine ⟨hst ▸ hout, ?_⟩
    rw [hst]
    exact plain (by simp [Tok.text])
  | colon =>
    obtain ⟨_, rfl⟩ := State.step_colon hs
    exact ⟨hout, plain (by simp [Tok.text])⟩

/-- **Over accepted tokens inside the outermost container the depth counts the open containers of
its kind.** -/
theorem findBalancedEnd_run {f : JsonSyntax.Frame} {r : State} (hne : r.stack ≠ []) (rest : Text)
    (ts : List Tok) :
    ∀ (q : State) i, Valid ts → q.run ts = some r → Outermost f q.stack →
      findBalancedEnd (opener f) (closing f) (.text .code) (q.stack.count f) i (render ts ++ rest) =
        findBalancedEnd (opener f) (closing f) (.text .code) (r.stack.count f)
          (i + utf8Len (render ts)) rest := by
  induction ts with
  | nil =>
    intro q i _ hr _
    obtain rfl : q = r := Option.some.inj hr
    rfl
  | cons t ts ih =>
    intro q i hv hr hout
    obtain ⟨ht, hts⟩ := valid_cons.mp hv
    rw [State.run_cons] at hr
    obtain ⟨q₁, h1, h2⟩ := Option.bind_eq_some_iff.mp hr
    have hne₀ : q.stack ≠ [] := by
      intro h
      rw [h] at hout; cases hout
    have hne₁ : q₁.stack ≠ [] := by
      intro h
      rw [step_to_empty h1 hne₀ h] at h2
      exact hne (by rw [run_done h2])
    obtain ⟨hout₁, e₁⟩ := findBalancedEnd_tok ht h1 hout hne₁ i (render ts ++ rest)
    rw [render_cons, List.append_assoc, e₁, ih q₁ _ hts h2 hout₁, utf8Len_append, Nat.add_assoc]

/-! ## containers -/

/-- the position behind the opening bracket -/
def inner : JsonSyntax.Frame → Pos
  | .obj => .keyOrEnd
  | .arr => .valueOrEnd

/-- A value that opens a container is its brackets around accepted tokens. -/
theorem container_tokens {v : Text} (hv : Derives .value v) {f : JsonSyntax.Frame}
    (hf : v.head? = some (opener f)) :
    ∃ ts p, v = opener f :: render ts ++ [closing f] ∧ Valid ts ∧
      State.run ⟨[f], inner f⟩ ts = some ⟨[f], p⟩ ∧ (p = inner f ∨ p = .done) := by
  cases hv with
  | scalar h =>
    obtain ⟨c, t', rfl, hc⟩ := h.head
    obtain rfl := Option.some.inj hf
    cases f <;> exact absurd hc (by decide)
  | str h => cases f <;> exact absurd (Option.some.inj hf) (by decide)
  | emptyArr h =>
    obtain rfl : f = .arr := by
      cases f with
      | obj => exact absurd (Option.some.inj hf) (by decide)
      | arr => rfl
    obtain ⟨ts, a, rfl, c⟩ := h.tokens
    exact ⟨ts, _, rfl, a, c _, Or.inl rfl⟩
  | arr h =>
    obtain rfl : f = .arr := by
      cases f with
      | obj => exact absurd (Option.some.inj hf) (by decide)
      | arr => rfl
    obtain ⟨ts, a, rfl, c⟩ := h.tokens
    exact ⟨ts, _, rfl, a, c [] _ rfl, Or.inr rfl⟩
  | emptyObj h =>
    obtain rfl : f = .obj := by
      cases f with
      | obj => rfl
      | arr => exact absurd (Option.some.inj hf) (by decide)
    obtain ⟨ts, a, rfl, c⟩ := h.tokens
    exact ⟨ts, _, rfl, a, c _, Or.inl rfl⟩
  | obj h =>
    obtain rfl : f = .obj := by
      cases f with
      | obj => rfl
      | arr => exact absurd (Option.some.inj hf) (by decide)
    obtain ⟨ts, a, rfl, c⟩ := h.tokens
    exact ⟨ts, _, rfl, a, c [] _ (Or.inr rfl), Or.inr rfl⟩

theorem isByteWhitespace_hyps :
    (∀ c, isWs c = true → isByteWhitespace c = true) ∧
      ∀ c, isSolid c = true → isByteWhitespace c = false := by
  constructor
  · intro c h
    simp only [isWs, Bool.or_eq_true, decide_eq_true_eq] at h
    rcases h with ((rfl | rfl) | rfl) | rfl <;> rfl
  · intro c h
    have hr := isSolid_range h
    simp only [isByteWhitespace, Bool.or_eq_false_iff, Bool.and_eq_false_iff,
      decide_eq_false_iff_not]
    omega

/-- the body of a container looks like JSON -/
theorem looksLikeJsonAfterOpen_container {f : JsonSyntax.Frame} {ts : List Tok} {p : Pos}
    (hv : Valid ts) (hr : State.run ⟨[f], inner f⟩ ts = some ⟨[f], p⟩)
    (hp : p = inner f ∨ p = .done) (rest : Text) :
    looksLikeJsonAfterOpen (render ts ++ closing f :: rest) (opener f) = true := by
  have hsolid : isSolid (closing f) = true := by cases f <;> rfl
  have hrest : Ahead isByteWhitespace ⟨[f], p⟩ (closing f :: rest) := by
    intro c hc
    have e : c = closing f := by
      simpa [firstSolid, isByteWhitespace_hyps.2 _ hsolid] using hc.symm
    subst e
    rcases hp with rfl | rfl <;> cases f <;> simp [State.follow, inner, closing]
  have ha := run_follow isByteWhitespace isByteWhitespace_hyps.1 isByteWhitespace_hyps.2 hrest ts
    _ hv hr
  rw [looksLikeJsonAfterOpen]
  have hhead := head?_dropWhile isByteWhitespace (render ts ++ closing f :: rest)
  cases hd : (render ts ++ closing f :: rest).dropWhile isByteWhitespace with
  | nil =>
    rw [hd] at hhead
    have hw := List.find?_eq_none.mp hhead.symm (closing f) (by simp)
    simp [isByteWhitespace_hyps.2 _ hsolid] at hw
  | cons b t =>
    have hb : firstSolid isByteWhitespace (render ts ++ closing f :: rest) = some b := by
      rw [← hhead, hd]; rfl
    have hfol := ha b hb
    cases f with
    | obj => rcases hfol with rfl | rfl <;> rfl
    | arr =>
      rcases hfol with h | rfl
      · simp only [isValueStart, isScalarStart, Bool.or_eq_true, decide_eq_true_eq] at h
        rcases h with ((rfl | rfl) | rfl) | ((((rfl | rfl) | rfl) | rfl) | h)
        all_goals first
          | rfl
          | simp [opener, h]
      · rfl

/-! ## the selection -/

theorem findFirstJsonDelim_code {c : Char} (hc : c ≠ '/') (prev : Option Char) (i : Nat)
    (rest : Text) :
    findFirstJsonDelim (.text .code) prev i (c :: rest) =
      if (c = '{' ∨ c = '[') ∧ prev.all endsInByteWhitespace = true then some (i, c, rest)
      else findFirstJsonDelim (.text (Lex.next .code c)) (some c) (i + c.utf8Size) rest := by
  rw [findFirstJsonDelim]
  · simp
  all_goals simp_all

theorem findFirstJsonDelim_ws {f : JsonSyntax.Frame} (body : Text) {w : Text} (hw : Ws w) :
    ∀ prev i, prev.all endsInByteWhitespace = true →
      findFirstJsonDelim (.text .code) prev i (w ++ opener f :: body) =
        some (i + utf8Len w, opener f, body) := by
  induction w with
  | nil =>
    intro prev i hp
    cases f <;> simp [findFirstJsonDelim, opener, hp]
  | cons c w ih =>
    intro prev i hp
    have hc : isWs c = true := hw c List.mem_cons_self
    obtain ⟨_, h1, h2, _, _, _, h3⟩ := isWs_ne hc
    have hslash : c ≠ '/' := by rintro rfl; exact absurd hc (by decide)
    have he : endsInByteWhitespace c = true := by
      simp only [isWs, Bool.or_eq_true, decide_eq_true_eq] at hc
      rcases hc with ((rfl | rfl) | rfl) | rfl <;> rfl
    rw [List.cons_append, findFirstJsonDelim_code hslash, if_neg (by simp [h1, h2]),
      Lex.next_code_of_ne h3,
      ih (fun d hd => hw d (List.mem_cons_of_mem _ hd)) _ _ (by simpa using he),
      utf8Len_cons, Nat.add_assoc]

/-- a container that the selection stops at is found to its end -/
theorem findBalancedEnd_container {f : JsonSyntax.Frame} {ts : List Tok} {p : Pos}
    (hvalid : Valid ts) (hrun : State.run ⟨[f], inner f⟩ ts = some ⟨[f], p⟩) (rest : Text) (i : Nat) :
    findBalancedEnd (opener f) (closing f) (.text .code) 1 i (render ts ++ closing f :: rest) =
      some (i + utf8Len (render ts) + (closing f).utf8Size) := by
  have hbal := findBalancedEnd_run (f := f) (r := ⟨[f], p⟩) (by simp) (closing f :: rest) ts
    ⟨[f], inner f⟩ i hvalid hrun rfl
  rw [show ([f].count f) = 1 by simp] at hbal
  rw [hbal, findBalancedEnd_code (by cases f <;> decide), if_neg (by cases f <;> decide), if_pos rfl,
    if_pos rfl]

/-- the text behind a byte order mark, and the length of the mark -/
def skipBom : Text → Nat × Text
  | [] => (0, [])
  | c :: rest => if c = '\uFEFF' then (c.utf8Size, rest) else (0, c :: rest)

theorem extractTolerantJson_eq (input : Text) : extractTolerantJson input =
    match findFirstJsonDelim (.text .code) none (skipBom input).1 (skipBom input).2 with
    | none => .error .noJsonFound
    | some (start, o, body) =>
      if looksLikeJsonAfterOpen body o then
        match findBalancedEnd o (if o = '{' then '}' else ']') (.text .code) 1 (start + o.utf8Size)
          body with
        | some stop => .ok (start, stop)
        | none => .error .unbalancedBraces
      else .error .unbalancedBraces := by
  cases input <;> rfl

/-- **What the selection stops at is extracted, when it is a container.** -/
theorem extract_found {input : Text} {start : Nat} {f : JsonSyntax.Frame} {ts : List Tok} {p : Pos}
    {rest : Text} (hvalid : Valid ts) (hrun : State.run ⟨[f], inner f⟩ ts = some ⟨[f], p⟩)
    (hp : p = inner f ∨ p = .done)
    (hfound : findFirstJsonDelim (.text .code) none (skipBom input).1 (skipBom input).2 =
      some (start, opener f, render ts ++ closing f :: rest)) :
    extractTolerantJson input = .ok (start, start + utf8Len (opener f :: render ts ++ [closing f])) := by
  have hlook := looksLikeJsonAfterOpen_container hvalid hrun hp rest
  have hclose : (if opener f = '{' then '}' else ']') = closing f := by cases f <;> rfl
  have hbal := findBalancedEnd_container hvalid hrun rest (start + (opener f).utf8Size)
  have hlen : utf8Len (opener f :: render ts ++ [closing f]) =
      (opener f).utf8Size + utf8Len (render ts) + (closing f).utf8Size := by
    simp [Nat.add_assoc]
  rw [extractTolerantJson_eq, hfound]
  dsimp only
  rw [if_pos hlook, hclose, hbal, hlen]
  simp only [Nat.add_assoc]

theorem skipBom_of_ne {t : Text} (h : t.head? ≠ some '\uFEFF') : skipBom t = (0, t) := by
  cases t with
  | nil => rfl
  | cons c t => exact if_neg fun hc => h (congrArg some hc)

/-- **The extractor selects the top-level container.** -/
theorem extract_wellFormed {w₁ v w₂ : Text} (h₁ : Ws w₁) (hv : Derives .value v)
    {f : JsonSyntax.Frame} (hf : v.head? = some (opener f)) :
    extractTolerantJson (w₁ ++ v ++ w₂) = .ok (utf8Len w₁, utf8Len w₁ + utf8Len v) := by
  obtain ⟨ts, p, rfl, hvalid, hrun, hp⟩ := container_tokens hv hf
  have e : w₁ ++ (opener f :: render ts ++ [closing f]) ++ w₂ =
      w₁ ++ opener f :: (render ts ++ closing f :: w₂) := by simp
  have hbom : (w₁ ++ opener f :: (render ts ++ closing f :: w₂)).head? ≠ some '\uFEFF' := by
    cases w₁ with
    | nil => cases f <;> simp [opener]
    | cons d w =>
      intro hd
      obtain rfl := Option.some.inj hd
      exact absurd (h₁ _ List.mem_cons_self) (by decide)
  have hdelim := findFirstJsonDelim_ws (f := f) (render ts ++ closing f :: w₂) h₁ none 0 rfl
  rw [Nat.zero_add] at hdelim
  rw [e]
  refine extract_found hvalid hrun hp (?_ : _ = some (_, _, render ts ++ closing f :: w₂))
  rw [skipBom_of_ne hbom]
  exact hdelim

/-! ## the recovery -/

/-- **Recovery is the identity on well-formed texts.**  For a JSON text whose top value is an
object or an array the m3 chain returns the text with no event, the slip repairs report nothing,
the extractor selects the top-level value, and each single pass leaves the text alone. -/
theorem recovery_wellFormed (parses : Text → Bool) {w₁ v w₂ : Text} (h₁ : Ws w₁)
    (hv : Derives .value v) (h₂ : Ws w₂) (ho : v.head? = some '{' ∨ v.head? = some '[') :
    repairM3BracketsWithTrace parses (w₁ ++ v ++ w₂) = (some (w₁ ++ v ++ w₂), []) ∧
      repairSlips (w₁ ++ v ++ w₂) = (none, []) ∧
      extractTolerantJson (w₁ ++ v ++ w₂) = .ok (utf8Len w₁, utf8Len w₁ + utf8Len v) ∧
      (repairMissingOpenBrace (w₁ ++ v ++ w₂) = none ∧
        repairStrayCommaAfterKey (w₁ ++ v ++ w₂) = none ∧
        repairMissingColon (w₁ ++ v ++ w₂) = none ∧
        repairMissingSeparators (w₁ ++ v ++ w₂) = none ∧
        repairOneMissingBracket (w₁ ++ v ++ w₂) = some (w₁ ++ v ++ w₂) ∧
        dropStrayClosers (w₁ ++ v ++ w₂) = none ∧ quoteBareStrings (w₁ ++ v ++ w₂) = none) := by
  have hs : JsonText (w₁ ++ v ++ w₂) := ⟨w₁, v, w₂, h₁, hv, h₂, rfl⟩
  obtain ⟨f, hf⟩ : ∃ f, v.head? = some (opener f) := by
    rcases ho with h | h
    · exact ⟨.obj, h⟩
    · exact ⟨.arr, h⟩
  have hbrace : repairMissingOpenBrace (w₁ ++ v ++ w₂) = none := by
    obtain ⟨t, rfl⟩ : ∃ t, v = opener f :: t := by
      cases v with
      | nil => cases hf
      | cons c t => exact ⟨t, by rw [Option.some.inj hf]⟩
    have e : w₁ ++ opener f :: t ++ w₂ = w₁ ++ opener f :: (t ++ w₂) := by simp
    rw [e]
    exact repairMissingOpenBrace_none (by cases f <;> simp [opener]) _ h₁
  have hcomma := repairStrayCommaAfterKey_wellFormed hs
  have hcolon := repairMissingColon_wellFormed hs
  have hsep := repairMissingSeparators_wellFormed hs
  have hbr := repairOneMissingBracket_wellFormed hs
  have hchain : repairM3BracketsWithTrace parses (w₁ ++ v ++ w₂) = (some (w₁ ++ v ++ w₂), []) := by
    simp only [repairM3BracketsWithTrace, isFragment, hbrace, applyPass, separatorPasses, hcomma,
      hcolon, hsep, repairBracketsIterative, defaultBracketRepairMaxIters, hbr]
    simp
  exact ⟨hchain, repairSlips_wellFormed hs, extract_wellFormed h₁ hv hf, hbrace, hcomma, hcolon,
    hsep, hbr, dropStrayClosers_wellFormed hs, quoteBareStrings_wellFormed hs⟩

theorem derives_sample : Derives .value "\x7b\"a\": [1]\x7d".toList := by
  have one : Derives .value ['1'] := by
    refine .scalar (Or.inr (Or.inr (Or.inr ⟨[], ['1'], [], [], Or.inl rfl, Or.inr ⟨?_, by decide⟩,
      Or.inl rfl, Or.inl rfl, rfl⟩)))
    exact ⟨by decide, List.all_eq_true.mp rfl⟩
  have none : Ws [] := by simp [Ws]
  have list : Derives .value "[1]".toList := .arr (.element none one none)
  have key : StrBody ['a'] := .plain (by decide) (by decide) (by decide) .nil
  have blank : Ws [' '] := by simp [Ws, isWs]
  exact .obj (.member none key none blank list none)

theorem recovery_sample :
    repairM3BracketsWithTrace (fun _ => false) "\n\x7b\"a\": [1]\x7d ".toList =
        (some "\n\x7b\"a\": [1]\x7d ".toList, []) ∧
      repairSlips "\n\x7b\"a\": [1]\x7d ".toList = (none, []) ∧
      extractTolerantJson "\n\x7b\"a\": [1]\x7d ".toList = .ok (1, 11) := by
  have h := recovery_wellFormed (fun _ => false) (show Ws ['\n'] by simp [Ws, isWs]) derives_sample
    (show Ws [' '] by simp [Ws, isWs]) (Or.inl rfl)
  exact ⟨h.1, h.2.1, h.2.2.1⟩

end Moagan
