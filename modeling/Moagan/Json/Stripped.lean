import Mathlib.Data.List.Infix
import Moagan.Json.Traced
import Moagan.Lib.JsonCut

/-!
# Trimming and stripping a text that stops inside a string

* `clean`             markers become blanks, control characters go: `stripResponseText_eq`
* `StrBody.clean`     a string body stays one
* `clean_cut`         only the bodies of the strings change
* `stripCodeFence_cut`  whitespace goes at the front and at the end of the open string
-/

namespace Moagan
open Scanning JsonSyntax

/-! ## markers -/

theorem matchesAt_split {m : Marker} : ∀ {t : Text}, m.matchesAt t = true →
    ∃ taken rest, t = taken ++ rest ∧ taken.length = m.length ∧ ∀ d ∈ taken, d ∈ m.flatten := by
  induction m with
  | nil => intro t _; exact ⟨[], t, rfl, rfl, by simp⟩
  | cons cs m ih =>
    intro t h
    cases t with
    | nil => cases h
    | cons c t =>
      obtain ⟨hc, ht⟩ := Bool.and_eq_true_iff.mp h
      obtain ⟨taken, rest, rfl, hlen, hd⟩ := ih ht
      refine ⟨c :: taken, rest, rfl, congrArg (· + 1) hlen, fun d hd' => ?_⟩
      rw [List.flatten_cons]
      rcases List.mem_cons.mp hd' with rfl | hd'
      · exact List.mem_append_left _ (of_decide_eq_true hc)
      · exact List.mem_append_right _ (hd d hd')

/-- a quote stops every marker -/
theorem matchesAt_quote {m : Marker} (hm : ∀ cs ∈ m, '"' ∉ cs) (rest : Text) :
    ∀ b : Text, m.matchesAt (b ++ '"' :: rest) = m.matchesAt b := by
  induction m with
  | nil => intro b; rfl
  | cons cs m ih =>
    intro b
    have hcs : '"' ∉ cs := hm cs List.mem_cons_self
    cases b with
    | nil => simp [Marker.matchesAt, hcs]
    | cons c b =>
      rw [List.cons_append, Marker.matchesAt, Marker.matchesAt,
        ih (fun x hx => hm x (List.mem_cons_of_mem _ hx)) b]

/-- the characters of the markers -/
theorem marker_chars : ∀ d ∈ chatTemplateMarkers.flatten.flatten,
    d ≠ '"' ∧ d ≠ '\\' ∧ 32 ≤ d.toNat := by
  have hall : chatTemplateMarkers.flatten.flatten.all
      (fun d => d ≠ '"' ∧ d ≠ '\\' ∧ 32 ≤ d.toNat) = true := by decide +kernel
  exact fun d hd => of_decide_eq_true (List.all_eq_true.mp hall d hd)

/-- a marker starts with `[` and a letter, or with `<` -/
theorem marker_start : ∀ m ∈ chatTemplateMarkers, m.head? = some ['<'] ∨ (m.head? = some ['['] ∧
    (m.tail.head? = some ['B', 'b'] ∨ m.tail.head? = some ['E', 'e'])) := by decide

theorem markerLength_some {t : Text} {n : Nat} (h : markerLength t = some n) :
    ∃ taken rest, t = taken ++ rest ∧ taken.length = n ∧ 0 < n ∧
      ∀ d ∈ taken, d ≠ '"' ∧ d ≠ '\\' ∧ 32 ≤ d.toNat := by
  obtain ⟨m, hm, rfl⟩ := Option.map_eq_some_iff.mp h
  have hmem := List.mem_of_find?_eq_some hm
  have hmatch : Marker.matchesAt m t = true := by simpa using List.find?_some hm
  obtain ⟨taken, rest, rfl, hlen, hd⟩ := matchesAt_split hmatch
  refine ⟨taken, rest, rfl, hlen, ?_, fun d hd' => marker_chars d ?_⟩
  · cases m with
    | nil => rcases marker_start [] hmem with h | ⟨h, _⟩ <;> cases h
    | cons cs m => exact Nat.succ_pos _
  · obtain ⟨cs, hcs, hdcs⟩ := List.mem_flatten.mp (hd d hd')
    exact List.mem_flatten.mpr ⟨cs, List.mem_flatten.mpr ⟨m, hmem, hcs⟩, hdcs⟩

theorem markerLength_quote (b rest : Text) : markerLength (b ++ '"' :: rest) = markerLength b := by
  have hfilter : chatTemplateMarkers.filter (fun m => m.matchesAt (b ++ '"' :: rest)) =
      chatTemplateMarkers.filter fun m => m.matchesAt b := by
    refine List.filter_congr fun m hm => matchesAt_quote (fun cs hcs hq => ?_) rest b
    exact (marker_chars '"' (List.mem_flatten.mpr ⟨cs, List.mem_flatten.mpr ⟨m, hm, hcs⟩, hq⟩)).1 rfl
  rw [markerLength, ← List.head?_filter, hfilter, List.head?_filter]
  rfl

/-- where no marker starts -/
theorem markerLength_none {c : Char} {t : Text} (h1 : c ≠ '<')
    (h2 : c = '[' → ∀ d, t.head? = some d → d ≠ 'B' ∧ d ≠ 'b' ∧ d ≠ 'E' ∧ d ≠ 'e') :
    markerLength (c :: t) = none := by
  have hno : ∀ m ∈ chatTemplateMarkers, ¬ m.matchesAt (c :: t) = true := by
    intro m hm hmatch
    rcases m with _ | ⟨cs, m⟩
    · rcases marker_start [] hm with h | ⟨h, _⟩ <;> cases h
    obtain ⟨hc, ht⟩ := Bool.and_eq_true_iff.mp hmatch
    have hc : c ∈ cs := of_decide_eq_true hc
    rcases marker_start _ hm with h | ⟨h, h'⟩
    · obtain rfl := Option.some.inj h
      exact h1 (List.mem_singleton.mp hc)
    · obtain rfl := Option.some.inj h
      have hd := h2 (List.mem_singleton.mp hc)
      rcases m with _ | ⟨ds, m⟩
      · rcases h' with h' | h' <;> cases h'
      rcases t with _ | ⟨d, t⟩
      · cases ht
      have hdm : d ∈ ds := of_decide_eq_true (Bool.and_eq_true_iff.mp ht).1
      obtain ⟨hB, hb, hE, he⟩ := hd d rfl
      rcases h' with h' | h'
      · obtain rfl := Option.some.inj h'
        simp [hB, hb] at hdm
      · obtain rfl := Option.some.inj h'
        simp [hE, he] at hdm
  rw [markerLength, List.find?_eq_none.mpr hno]
  rfl

/-! ## replacing -/

theorem replaceMarkers_skip (rest : Text) : ∀ taken : Text,
    replaceMarkers taken.length (taken ++ rest) = replaceMarkers 0 rest := by
  intro taken
  induction taken with
  | nil => rfl
  | cons c taken ih => exact ih

theorem replaceMarkers_plain {c : Char} {t : Text} (h : markerLength (c :: t) = none) :
    replaceMarkers 0 (c :: t) = c :: replaceMarkers 0 t := by
  rw [replaceMarkers, h]

theorem replaceMarkers_marker {c : Char} {taken rest : Text}
    (h : markerLength (c :: (taken ++ rest)) = some (taken.length + 1)) :
    replaceMarkers 0 (c :: (taken ++ rest)) = ' ' :: replaceMarkers 0 rest := by
  rw [replaceMarkers, h]
  show ' ' :: replaceMarkers taken.length (taken ++ rest) = _
  rw [replaceMarkers_skip]

/-- without a marker nothing is replaced -/
theorem replaceMarkers_none : ∀ {t : Text}, (∀ u ∈ t.tails, markerLength u = none) →
    replaceMarkers 0 t = t := by
  intro t
  induction t with
  | nil => intro _; rfl
  | cons c t ih =>
    intro h
    rw [List.tails_cons] at h
    rw [replaceMarkers_plain (h _ List.mem_cons_self),
      ih fun u hu => h u (List.mem_cons_of_mem _ hu)]

/-- the two passes together -/
def clean (t : Text) : Text := (replaceMarkers 0 t).filter shouldKeep

theorem stripControl_eq (t : Text) :
    (stripControl t).getD t = t.filter shouldKeep ∧
      ∀ u, stripControl t = some u → u = t.filter shouldKeep := by
  unfold stripControl
  split
  · exact ⟨rfl, fun u hu => (Option.some.inj hu).symm⟩
  · rename_i h
    have hall : ∀ c ∈ t, shouldKeep c = true := by simpa using h
    exact ⟨(List.filter_eq_self.mpr hall).symm, nofun⟩

/-- **Stripping**: what the source borrows or owns is the cleaned text. -/
theorem stripResponseText_eq (t : Text) :
    (stripResponseText t).getD t = clean t ∧ ∀ u, stripResponseText t = some u → u = clean t := by
  unfold stripResponseText stripChatTemplateTokens clean
  split
  · rename_i h
    have hnone : ∀ u ∈ t.tails, markerLength u = none := by simpa using h
    rw [replaceMarkers_none hnone]
    exact stripControl_eq t
  · rename_i owned h
    obtain rfl : replaceMarkers 0 t = owned := by
      split at h
      · exact Option.some.inj h
      · cases h
    have e := (stripControl_eq (replaceMarkers 0 t)).1
    exact ⟨e, fun u hu => (Option.some.inj hu).symm.trans e⟩

/-! ## string bodies -/

theorem clean_plain {c : Char} {t : Text} (h : markerLength (c :: t) = none)
    (hk : shouldKeep c = true) : clean (c :: t) = c :: clean t := by
  rw [clean, replaceMarkers_plain h, List.filter_cons_of_pos hk]
  rfl

/-- characters that start no marker and are kept -/
def Inert (t : Text) : Prop := ∀ c ∈ t, c ≠ '<' ∧ c ≠ '[' ∧ shouldKeep c = true

instance (t : Text) : Decidable (Inert t) :=
  List.decidableBAll (fun c => c ≠ '<' ∧ c ≠ '[' ∧ shouldKeep c = true) t

theorem clean_inert {t : Text} (h : Inert t) (rest : Text) : clean (t ++ rest) = t ++ clean rest := by
  induction t with
  | nil => rfl
  | cons c t ih =>
    obtain ⟨h1, h2, hk⟩ := h c List.mem_cons_self
    rw [List.cons_append, clean_plain (markerLength_none h1 fun e => absurd e h2) hk,
      ih fun d hd => h d (List.mem_cons_of_mem _ hd)]
    rfl

theorem clean_inert_self {t : Text} (h : Inert t) : clean t = t := by
  have e := clean_inert h []
  rw [List.append_nil] at e
  rw [e]
  exact List.append_nil t

theorem inert_of_range {c : Char} (h : 33 ≤ c.toNat ∧ c.toNat < 127) (h1 : c ≠ '<') (h2 : c ≠ '[') :
    c ≠ '<' ∧ c ≠ '[' ∧ shouldKeep c = true := by
  refine ⟨h1, h2, ?_⟩
  simp only [shouldKeep, Bool.or_eq_true, Bool.and_eq_true, decide_eq_true_eq]
  exact Or.inr ⟨by omega, by omega⟩

theorem inert_hex {c : Char} (h : isHex c = true) : c ≠ '<' ∧ c ≠ '[' ∧ shouldKeep c = true := by
  refine inert_of_range ?_ ?_ ?_
  · simp only [isHex, isDigit, Bool.or_eq_true, Bool.and_eq_true, decide_eq_true_eq] at h
    have e0 : '0'.toNat = 48 := rfl
    have e9 : '9'.toNat = 57 := rfl
    have ea : 'a'.toNat = 97 := rfl
    have ef : 'f'.toNat = 102 := rfl
    have eA : 'A'.toNat = 65 := rfl
    have eF : 'F'.toNat = 70 := rfl
    rcases h with (h | h) | h <;> omega
  · rintro rfl; exact absurd h (by decide)
  · rintro rfl; exact absurd h (by decide)

/-- an escape of a string body -/
def Escape (esc : Text) : Prop :=
  (∃ c ∈ ['"', '\\', '/', 'b', 'f', 'n', 'r', 't'], esc = ['\\', c]) ∨
    ∃ a b c d, isHex a = true ∧ isHex b = true ∧ isHex c = true ∧ isHex d = true ∧
      esc = ['\\', 'u', a, b, c, d]

theorem Escape.append {esc u : Text} (h : Escape esc) (hu : StrBody u) : StrBody (esc ++ u) := by
  rcases h with ⟨c, hc, rfl⟩ | ⟨a, b, c, d, ha, hb, hc, hd, rfl⟩
  · exact .escape hc hu
  · exact .unicode ha hb hc hd hu

theorem Escape.inert {esc : Text} (h : Escape esc) : Inert esc := by
  have hall : Inert ['"', '\\', '/', 'b', 'f', 'n', 'r', 't'] := by decide
  have hslash : '\\' ≠ '<' ∧ '\\' ≠ '[' ∧ shouldKeep '\\' = true := by decide
  intro x hx
  rcases h with ⟨c, hc, rfl⟩ | ⟨a, b, c, d, ha, hb, hc, hd, rfl⟩
  · simp only [List.mem_cons, List.not_mem_nil, or_false] at hx
    rcases hx with rfl | rfl
    · exact hslash
    · exact hall x hc
  · simp only [List.mem_cons, List.not_mem_nil, or_false] at hx
    rcases hx with rfl | rfl | rfl | rfl | rfl | rfl
    · exact hslash
    · exact ⟨by decide, by decide, by decide⟩
    · exact inert_hex ha
    · exact inert_hex hb
    · exact inert_hex hc
    · exact inert_hex hd

theorem Escape.head {esc : Text} (h : Escape esc) : ∃ t, esc = '\\' :: t := by
  rcases h with ⟨c, -, rfl⟩ | ⟨a, b, c, d, -, -, -, -, rfl⟩ <;> exact ⟨_, rfl⟩

/-- what a body starts with -/
theorem strBody_front {s : Text} (h : StrBody s) : s = [] ∨
    (∃ c t, s = c :: t ∧ c ≠ '"' ∧ c ≠ '\\' ∧ 32 ≤ c.toNat ∧ StrBody t) ∨
      ∃ esc u, s = esc ++ u ∧ Escape esc ∧ StrBody u := by
  cases h with
  | nil => exact Or.inl rfl
  | plain h1 h2 h3 h => exact Or.inr (Or.inl ⟨_, _, rfl, h1, h2, h3, h⟩)
  | @escape c u hc h => exact Or.inr (Or.inr ⟨['\\', c], u, rfl, Or.inl ⟨c, hc, rfl⟩, h⟩)
  | @unicode a b c d u ha hb hc hd h =>
    exact Or.inr (Or.inr ⟨['\\', 'u', a, b, c, d], u, rfl,
      Or.inr ⟨a, b, c, d, ha, hb, hc, hd, rfl⟩, h⟩)

/-- the body behind plain characters -/
theorem strBody_of_plain {t : Text} : ∀ {taken : Text},
    (∀ d ∈ taken, d ≠ '"' ∧ d ≠ '\\' ∧ 32 ≤ d.toNat) → StrBody (taken ++ t) → StrBody t := by
  intro taken
  induction taken with
  | nil => intro _ h; exact h
  | cons c taken ih =>
    intro hd h
    obtain ⟨-, h2, -⟩ := hd c List.mem_cons_self
    rcases strBody_front h with h | ⟨c', t', e, -, -, -, h⟩ | ⟨esc, u, e, he, -⟩
    · cases h
    · obtain ⟨rfl, rfl⟩ := List.cons.inj e
      exact ih (fun d hd' => hd d (List.mem_cons_of_mem _ hd')) h
    · obtain ⟨x, rfl⟩ := he.head
      exact absurd (List.cons.inj e).1 h2

/-- **Cleaning keeps string bodies**, also when only their beginning is cleaned. -/
theorem strBody_clean (n : Nat) : ∀ {b e : Text}, b.length ≤ n → StrBody (b ++ e) →
    StrBody (clean b ++ e) := by
  induction n with
  | zero =>
    intro b e hn h
    obtain rfl := List.length_eq_zero_iff.mp (Nat.le_zero.mp hn)
    exact h
  | succ n ih =>
    intro b e hn h
    rcases b with _ | ⟨c, b⟩
    · exact h
    rw [List.length_cons] at hn
    cases hm : markerLength (c :: b) with
    | some k =>
      -- the characters of a marker are plain, and so is the blank
      obtain ⟨taken, rest, hsplit, rfl, hpos, hd⟩ := markerLength_some hm
      rcases taken with _ | ⟨d, taken⟩
      · exact absurd hpos (Nat.lt_irrefl 0)
      obtain ⟨rfl, rfl⟩ : c = d ∧ b = taken ++ rest := List.cons.inj hsplit
      have hrest : StrBody (rest ++ e) := by
        refine strBody_of_plain hd ?_
        rw [← List.append_assoc]
        exact h
      have hlen : rest.length ≤ n := by
        have hl : (taken ++ rest).length = taken.length + rest.length := List.length_append
        omega
      have e' : clean (c :: (taken ++ rest)) = ' ' :: clean rest := by
        rw [clean, replaceMarkers_marker hm]
        rfl
      rw [e']
      exact .plain (by decide) (by decide) (by decide) (ih hlen hrest)
    | none =>
      rcases strBody_front h with h' | ⟨c', t, e', h1, h2, h3, ht⟩ | ⟨esc, t, e', hesc, ht⟩
      · cases h'
      · obtain ⟨rfl, rfl⟩ : c = c' ∧ b ++ e = t := List.cons.inj e'
        have hb := ih (by omega) ht
        cases hk : shouldKeep c with
        | true =>
          rw [clean_plain hm hk]
          exact .plain h1 h2 h3 hb
        | false =>
          rw [clean, replaceMarkers_plain hm, List.filter_cons_of_neg (by simp [hk])]
          exact hb
      · rcases List.append_eq_append_iff.mp e' with ⟨x, rfl, rfl⟩ | ⟨u, hu, rfl⟩
        · -- the text stops inside the escape
          rw [clean_inert_self fun d hd => hesc.inert d (List.mem_append_left x hd)]
          exact h
        · have hlen : u.length ≤ n := by
            obtain ⟨x, rfl⟩ := hesc.head
            have hb : b = x ++ u := (List.cons.inj hu).2
            have hl : (x ++ u).length = x.length + u.length := List.length_append
            rw [hb] at hn
            omega
          rw [hu, clean_inert hesc.inert, List.append_assoc]
          exact hesc.append (ih hlen ht)

/-! ## the whole text -/

theorem replaceMarkers_quote (rest : Text) : ∀ (b : Text) (skip : Nat), skip ≤ b.length →
    replaceMarkers skip (b ++ '"' :: rest) = replaceMarkers skip b ++ '"' :: replaceMarkers 0 rest := by
  intro b
  induction b with
  | nil =>
    intro skip h
    obtain rfl := Nat.le_zero.mp h
    exact replaceMarkers_plain (markerLength_none (by decide) fun e => absurd e (by decide))
  | cons c b ih =>
    intro skip h
    cases skip with
    | succ k => exact ih k (Nat.le_of_succ_le_succ h)
    | zero =>
      have hq := markerLength_quote (c :: b) rest
      rw [List.cons_append] at hq
      rw [List.cons_append, replaceMarkers, replaceMarkers, hq]
      cases hm : markerLength (c :: b) with
      | none => exact congrArg (c :: ·) (ih 0 (Nat.zero_le _))
      | some n =>
        obtain ⟨taken, u, hsplit, rfl, -, -⟩ := markerLength_some hm
        have hl : (taken ++ u).length = taken.length + u.length := List.length_append
        have hc := congrArg List.length hsplit
        rw [List.length_cons] at hc
        exact congrArg (' ' :: ·) (ih (taken.length - 1) (by omega))

theorem clean_quote (b rest : Text) : clean (b ++ '"' :: rest) = clean b ++ '"' :: clean rest := by
  rw [clean, replaceMarkers_quote rest b 0 (Nat.zero_le _), List.filter_append,
    List.filter_cons_of_pos (by decide)]
  rfl

/-- only the bodies of the strings change -/
def cleanTok : Tok → Tok
  | .str b => .str (clean b)
  | t => t

theorem cleanTok_ok {t : Tok} (h : t.ok) : (cleanTok t).ok := by
  cases t with
  | str b =>
    have hb := strBody_clean b.length (b := b) (e := []) (Nat.le_refl _)
      (by rw [List.append_nil]; exact h)
    rw [List.append_nil] at hb
    exact hb
  | _ => exact h

theorem step_cleanTok (q : State) (t : Tok) : q.step (cleanTok t) = q.step t := by
  cases t with
  | str b =>
    rcases q with ⟨st, p⟩
    cases p <;> rfl
  | _ => rfl

theorem run_cleanTok (ts : List Tok) : ∀ q : State, q.run (ts.map cleanTok) = q.run ts := by
  induction ts with
  | nil => intro q; rfl
  | cons t ts ih =>
    intro q
    rw [List.map_cons, State.run_cons, State.run_cons, step_cleanTok]
    exact congrArg _ (funext ih)

/-- behind the bracket of a list no marker goes on -/
theorem ahead_no_marker {q : State} {st : List JsonSyntax.Frame} {rest : Text}
    (hq : q = ⟨.arr :: st, .valueOrEnd⟩) (ha : Ahead isWs q rest) :
    ∀ d, rest.head? = some d → d ≠ 'B' ∧ d ≠ 'b' ∧ d ≠ 'E' ∧ d ≠ 'e' := by
  intro d hd
  have hno : ∀ x : Char, isWs x = false → ¬ (isValueStart x = true ∨ x = ']') → d ≠ x := by
    rintro x hw hx rfl
    have hfirst : firstSolid isWs rest = some d := by
      cases rest with
      | nil => cases hd
      | cons y rest =>
        obtain rfl := Option.some.inj hd
        simp [firstSolid, hw]
    have hf := ha d hfirst
    rw [hq] at hf
    exact hx hf
  exact ⟨hno 'B' (by decide) (by decide), hno 'b' (by decide) (by decide),
    hno 'E' (by decide) (by decide), hno 'e' (by decide) (by decide)⟩

theorem isWs_hyps : (∀ c, isWs c = true → isWs c = true) ∧ ∀ c, isSolid c = true → isWs c = false := by
  refine ⟨fun _ h => h, fun c h => ?_⟩
  have hw := not_isWhitespace_of_isSolid h
  cases hc : isWs c with
  | false => rfl
  | true =>
    rw [isWhitespace_of_isWs hc] at hw
    cases hw

/-- one token -/
theorem clean_tok {q q' : State} {t : Tok} (ht : t.ok) (hs : q.step t = some q') {rest : Text}
    (ha : Ahead isWs q' rest) : clean (t.text ++ rest) = (cleanTok t).text ++ clean rest := by
  cases t with
  | ws c =>
    refine clean_inert (fun d hd => ?_) rest
    obtain rfl := List.mem_singleton.mp hd
    have hw : isWs d = true := ht
    simp only [isWs, Bool.or_eq_true, decide_eq_true_eq] at hw
    rcases hw with ((rfl | rfl) | rfl) | rfl <;> decide
  | str b =>
    have e : Tok.text (.str b) ++ rest = '"' :: (b ++ '"' :: rest) := by simp [Tok.text]
    have e' : (cleanTok (.str b)).text ++ clean rest = '"' :: (clean b ++ '"' :: clean rest) := by
      simp [cleanTok, Tok.text]
    rw [e, e', clean_plain (markerLength_none (by decide) fun e => absurd e (by decide)) (by decide),
      clean_quote]
  | scalar u =>
    refine clean_inert (fun c hc => ?_) rest
    have hsc := Scalar.chars ht c hc
    obtain ⟨-, -, -, h2, -⟩ := isScalarChar_solid hsc
    have hr := isScalarChar_range hsc
    refine inert_of_range ⟨by omega, hr.2⟩ ?_ h2
    rintro rfl
    exact absurd hsc (by decide)
  | lbrack =>
    obtain ⟨-, hq⟩ := State.step_lbrack hs
    exact clean_plain (markerLength_none (by decide) fun _ => ahead_no_marker hq ha) (by decide)
  | _ => exact clean_inert (by decide) rest

/-- **Cleaning a text that stops inside a string** changes the bodies of its strings only. -/
theorem clean_cut {ts : List Tok} {q : State} {b : Text} (h : CutString ts q b) :
    clean (render ts ++ '"' :: b) = render (ts.map cleanTok) ++ '"' :: clean b ∧
      CutString (ts.map cleanTok) q (clean b) := by
  have hgo : ∀ (us : List Tok) (r : State), Valid us → r.run us = some q →
      clean (render us ++ '"' :: b) = render (us.map cleanTok) ++ '"' :: clean b := by
    intro us
    induction us with
    | nil =>
      intro r _ _
      exact clean_plain (markerLength_none (by decide) fun e => absurd e (by decide)) (by decide)
    | cons t us ih =>
      intro r hv hr
      obtain ⟨ht, hus⟩ := valid_cons.mp hv
      rw [State.run_cons] at hr
      obtain ⟨r₁, h1, h2⟩ := Option.bind_eq_some_iff.mp hr
      have ha : Ahead isWs r₁ (render us ++ '"' :: b) :=
        run_follow isWs isWs_hyps.1 isWs_hyps.2 (h.ahead isWs_hyps.2) us r₁ hus h2
      rw [render_cons, List.append_assoc, clean_tok ht h1 ha, ih r₁ hus h2, List.map_cons,
        render_cons, List.append_assoc]
  obtain ⟨e, he⟩ := h.body
  refine ⟨hgo ts _ h.reads.valid h.reads.run, ⟨⟨?_, ?_⟩, h.takes, e, strBody_clean _ (Nat.le_refl _) he⟩⟩
  · intro t ht
    obtain ⟨u, hu, rfl⟩ := List.mem_map.mp ht
    exact cleanTok_ok (h.reads.valid u hu)
  · rw [run_cleanTok]
    exact h.reads.run

/-! ## trimming -/

/-- what a trimmed text starts with: the string, or the bracket of a container -/
def Front (ts : List Tok) (q : State) : Prop :=
  (ts = [] ∧ q = State.start) ∨
    ∃ t us q₁, ts = t :: us ∧ (t = .lbrace ∨ t = .lbrack) ∧ State.start.step t = some q₁ ∧
      q₁.run us = some q

/-- the whitespace in front is read before anything else -/
theorem dropWhile_cut {ts : List Tok} {q : State} {b : Text} (h : CutString ts q b) :
    ∃ us, (render ts ++ '"' :: b).dropWhile isWhitespace = render us ++ '"' :: b ∧
      CutString us q b ∧ Front us q := by
  have hws : ∀ {w : Text}, Ws w → ∀ c ∈ w, isWhitespace c = true :=
    fun hw c hc => isWhitespace_of_isWs (hw c hc)
  have hdrop : ∀ {w : Text} (c : Char) (t : Text), Ws w → isWhitespace c = false →
      (w ++ c :: t).dropWhile isWhitespace = c :: t := by
    intro w c t hw hc
    rw [List.dropWhile_append_of_pos (hws hw), List.dropWhile_cons_of_neg (by simp [hc])]
  rcases run_opening ts h.reads.valid h.reads.run with ⟨hw, rfl⟩ | rfl | ⟨ws, t, vs, q₁, rfl, hw, ht, h1, h2⟩
  · exact ⟨[], hdrop '"' b hw rfl, ⟨⟨valid_nil, rfl⟩, h.takes, h.body⟩, Or.inl ⟨rfl, rfl⟩⟩
  · obtain ⟨q', hq⟩ := h.takes []
    cases hq
  · have hvalid := (valid_append.mp h.reads.valid).2
    have hrun : State.start.run (t :: vs) = some q := by
      rw [State.run_cons, h1]
      exact h2
    refine ⟨t :: vs, ?_, ⟨⟨hvalid, hrun⟩, h.takes, h.body⟩, Or.inr ⟨t, vs, q₁, rfl, ht, h1, h2⟩⟩
    rw [render_append, List.append_assoc, render_cons, List.append_assoc]
    rcases ht with rfl | rfl
    · exact hdrop '{' _ hw rfl
    · exact hdrop '[' _ hw rfl

/-- the whitespace at the end is part of the literal -/
theorem trimEnd_literal (s b : Text) : ∃ b' e, b = b' ++ e ∧ trimEnd (s ++ '"' :: b) = s ++ '"' :: b' := by
  refine ⟨trimEnd b, (b.reverse.takeWhile isWhitespace).reverse, ?_, ?_⟩
  · rw [trimEnd, ← List.reverse_append, List.takeWhile_append_dropWhile, List.reverse_reverse]
  · have e : (s ++ '"' :: b).reverse = b.reverse ++ '"' :: s.reverse := by simp
    have hq : ('"' :: s.reverse).dropWhile isWhitespace = '"' :: s.reverse := rfl
    rw [trimEnd, trimEnd, e, List.dropWhile_append]
    split
    · rename_i hnil
      rw [hq, List.isEmpty_iff.mp hnil]
      simp
    · simp

/-- the fences of a code block are none of the characters a cut text starts with -/
theorem insideFence_none {c : Char} (t : Text) (hc : c = '{' ∨ c = '[' ∨ c = '"') :
    insideFence "```json".toList (c :: t) = none ∧ insideFence "```".toList (c :: t) = none := by
  rcases hc with rfl | rfl | rfl <;> exact ⟨rfl, rfl⟩

/-- **Trimming a text that stops inside a string** keeps it one; what it starts with is the string
or the bracket of a container. -/
theorem stripCodeFence_cut {ts : List Tok} {q : State} {b : Text} (h : CutString ts q b) :
    ∃ us b', stripCodeFence (render ts ++ '"' :: b) = render us ++ '"' :: b' ∧
      CutString us q b' ∧ Front us q := by
  obtain ⟨us, hdrop, hus, hfront⟩ := dropWhile_cut h
  obtain ⟨b', e, rfl, htrim⟩ := trimEnd_literal (render us) b
  obtain ⟨e', he'⟩ := hus.body
  have hcut : CutString us q b' := ⟨hus.reads, hus.takes, e ++ e', by rwa [← List.append_assoc]⟩
  have hs : trim (render ts ++ '"' :: (b' ++ e)) = render us ++ '"' :: b' := by
    rw [trim, hdrop, htrim]
  refine ⟨us, b', ?_, hcut, hfront⟩
  obtain ⟨c, t, hct, hc⟩ : ∃ c t, render us ++ '"' :: b' = c :: t ∧ (c = '{' ∨ c = '[' ∨ c = '"') := by
    rcases hfront with ⟨rfl, -⟩ | ⟨t, vs, q₁, rfl, rfl | rfl, -⟩
    · exact ⟨'"', b', rfl, Or.inr (Or.inr rfl)⟩
    · exact ⟨'{', render vs ++ '"' :: b', rfl, Or.inl rfl⟩
    · exact ⟨'[', render vs ++ '"' :: b', rfl, Or.inr (Or.inl rfl)⟩
  have hfence := insideFence_none t hc
  unfold stripCodeFence
  rw [hs, hct]
  show ((insideFence "```json".toList (c :: t)).or (insideFence "```".toList (c :: t))).getD (c :: t) = _
  rw [hfence.1, hfence.2]
  rfl

end Moagan
