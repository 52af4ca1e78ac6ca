import Moagan.Json.Loss
import Moagan.Json.Stripped

/-!
# A text that stops inside a string is never salvaged

* `repairM3_cut`       the chain gives up and reports nothing
* `repairSlips_cut`    the slip repairs leave the text alone
* `extract_cut`        the extractor finds no complete container
* `parse_cut_string`   the parse fails and reports nothing
-/

namespace Moagan
open Scanning JsonSyntax

/-! ## the opening brace -/

/-- a key that does not end -/
theorem afterKey_inside (t : Text) : Inside .str t → afterKey t = none := by
  induction t using afterKey.induct with
  | case1 c rest ih => intro h; exact ih h.2
  | case2 rest => intro h; exact absurd rfl h.1
  | case3 c rest h1 h2 ih =>
    intro h
    rw [afterKey]
    · refine ih ?_
      by_cases hc : c = '\\'
      · cases rest with
        | nil => trivial
        | cons d rest => exact absurd hc (h1 d rest · rfl)
      · have hn : Lex.next .str c = .str := by rw [Lex.next, if_neg hc, if_neg h.1]
        exact hn ▸ h.2
    all_goals assumption
  | case4 => intro _; rfl

theorem seekKey_ws {w : Text} (hw : Ws w) (t : Text) : seekKey (w ++ '"' :: t) = some (w, '"' :: t) := by
  induction w with
  | nil => rfl
  | cons c w ih =>
    have hc := isWs_ne (hw c List.mem_cons_self)
    rw [List.cons_append, seekKey, if_neg (by simp [hc.2.1, hc.2.2.1]), if_neg hc.2.2.2.2.2.2,
      ih fun d hd => hw d (List.mem_cons_of_mem _ hd)]
    rfl

section
variable {ts : List Tok} {q : State} {b : Text} (h : CutString ts q b)
include h

theorem repairMissingOpenBrace_cut : repairMissingOpenBrace (render ts ++ '"' :: b) = none := by
  rcases run_opening ts h.reads.valid h.reads.run with ⟨hw, rfl⟩ | rfl | ⟨ws, t, us, q₁, rfl, hw, ht, -⟩
  · obtain ⟨hbom, hcomments⟩ := no_comment_front (Or.inr (Or.inr rfl)) b hw
    simp [repairMissingOpenBrace, hbom, hcomments, seekKey_ws hw, afterKey_inside b h.inside]
  · obtain ⟨q', hq⟩ := h.takes []
    cases hq
  · rw [render_append, List.append_assoc, render_cons, List.append_assoc]
    rcases ht with rfl | rfl
    · exact repairMissingOpenBrace_none (Or.inl rfl) _ hw
    · exact repairMissingOpenBrace_none (Or.inr rfl) _ hw

/-! ## the m3 chain -/

theorem lexAfter_cut : lexAfter .str b ≠ .code := lexAfter_inside nofun h.inside

theorem repairStrayCommaAfterKey_cut : repairStrayCommaAfterKey (render ts ++ '"' :: b) = none := by
  obtain ⟨a, e, rfl⟩ := strayComma_copier.walk_cut isWhitespace_hyps h _ rfl
  simp [repairStrayCommaAfterKey, e]

theorem repairMissingColon_cut : repairMissingColon (render ts ++ '"' :: b) = none := by
  obtain ⟨a, e, -⟩ := missingColon_copier.walk_cut isWhitespace_hyps h _ rfl
  simp [repairMissingColon, e, lexAfter_cut h]

theorem repairMissingSeparators_cut : repairMissingSeparators (render ts ++ '"' :: b) = none := by
  obtain ⟨a, e, -⟩ := separator_copier.walk_cut isWhitespace_hyps h _ sepRel_start
  simp [repairMissingSeparators, e, lexAfter_cut h]

theorem repairOneMissingBracket_cut : repairOneMissingBracket (render ts ++ '"' :: b) = none := by
  obtain ⟨a, e, rfl⟩ := bracket_copier.walk_cut isWhitespace_hyps h ⟨[], none⟩ rfl
  simp [repairOneMissingBracket, e, lexAfter_cut h]

/-- **The chain gives up on a text that stops inside a string**, and reports nothing. -/
theorem repairM3_cut (parses : Text → Bool) :
    repairM3BracketsWithTrace parses (render ts ++ '"' :: b) = (none, []) := by
  have hbrace := repairMissingOpenBrace_cut h
  have hf : isFragment (render ts ++ '"' :: b) = false := by simp [isFragment, hbrace]
  have hsep : separatorPasses (render ts ++ '"' :: b, []) = (render ts ++ '"' :: b, []) := by
    simp [separatorPasses, applyPass, repairStrayCommaAfterKey_cut h, repairMissingColon_cut h,
      repairMissingSeparators_cut h]
  have ho : applyPass .openBrace repairMissingOpenBrace (render ts ++ '"' :: b, []) =
      (render ts ++ '"' :: b, []) := by
    simp [applyPass, hbrace]
  rw [repairM3BracketsWithTrace, hf, ho, hsep]
  simp only [defaultBracketRepairMaxIters, repairBracketsIterative, repairOneMissingBracket_cut h]
  rfl

/-! ## the slip repairs -/

theorem dropStrayClosers_cut : dropStrayClosers (render ts ++ '"' :: b) = none := by
  obtain ⟨a, e, rfl⟩ := dropStray_copier.walk_cut isAsciiWhitespace_hyps h ⟨[], false⟩ rfl
  simp [dropStrayClosers, e]

theorem quoteBareStrings_cut : quoteBareStrings (render ts ++ '"' :: b) = none := by
  obtain ⟨a, e, rfl⟩ := walk_reads quoteBare_copies isAsciiWhitespace_hyps h.reads
    (h.ahead isAsciiWhitespace_hyps.2) ⟨[], false, false, 0⟩ rfl
  let a' : BareStrings := ⟨q.stack.map opener, false, false, 0⟩
  have hin : ∀ (s : Scan BareStrings) c rest, s.aux = a' → s.lex ≠ .code →
      quoteBareStep s c rest = s.push c := fun s c rest ha hl => quoteBare_str (by rw [ha]) hl
  have hopen : quoteBareStep ⟨.code, render ts, ⟨q.stack.map opener, expects q, false, 0⟩⟩ '"' b =
      put ⟨.code, render ts, ⟨q.stack.map opener, expects q, false, 0⟩⟩ '"' a' := by
    have hw : isAsciiWhitespace '"' = false := rfl
    simp [quoteBareStep, hw, put, Scan.push, a']
  have hlit := h.walk_literal (fun s c r ha hl _ => hin s c r ha (by simp [hl]))
    (fun s c r ha hl => hin s c r ha (by simp [hl])) hopen
  rw [quoteBareStrings, e, hlit]
  rfl

theorem repairSlips_cut : repairSlips (render ts ++ '"' :: b) = (none, []) := by
  simp [repairSlips, dropStrayClosers_cut h, quoteBareStrings_cut h]

end

/-! ## the extractor -/

theorem findFirstJsonDelim_inside (t : Text) : ∀ (m : Lex) (prev : Option Char) (i : Nat), m ≠ .code →
    Inside m t → findFirstJsonDelim (.text m) prev i t = none := by
  induction t with
  | nil =>
    intro m prev i hm _
    cases m with
    | code => exact absurd rfl hm
    | str => rfl
    | esc => rfl
  | cons c t ih =>
    intro m prev i hm h
    have hstep : findFirstJsonDelim (.text m) prev i (c :: t) =
        findFirstJsonDelim (.text (m.next c)) (some c) (i + c.utf8Size) t := by
      cases m with
      | code => exact absurd rfl hm
      | str => simp [findFirstJsonDelim]
      | esc => simp [findFirstJsonDelim]
    rw [hstep]
    cases m with
    | code => exact absurd rfl hm
    | str =>
      refine ih _ _ _ (fun e => ?_) h.2
      exact absurd (Lex.code_of_next h.1 e) fun hcode => by cases hcode
    | esc => exact ih .str _ _ (fun hcode => by cases hcode) h

/-- the container in front does not end -/
theorem findBalancedEnd_cut {f : JsonSyntax.Frame} {ts : List Tok} {q : State} {b : Text}
    (hv : Valid ts) (hr : State.run ⟨[f], inner f⟩ ts = some q) (hopen : q.stack ≠ [])
    (hb : Inside .str b) (i : Nat) :
    findBalancedEnd (opener f) (closing f) (.text .code) 1 i (render ts ++ '"' :: b) = none := by
  have hbal := findBalancedEnd_run (f := f) hopen ('"' :: b) ts ⟨[f], inner f⟩ i hv hr rfl
  rw [show ([f].count f) = 1 by simp] at hbal
  have ho : ('"' : Char) ≠ opener f := by cases f <;> decide
  have hc : ('"' : Char) ≠ closing f := by cases f <;> decide
  have hin := findBalancedEnd_inside (q.stack.count f) [] b .str (i + utf8Len (render ts) + 1) hb
    (o := opener f) (c := closing f)
  rw [List.append_nil] at hin
  rw [hbal, findBalancedEnd_code (by decide), if_neg ho, if_neg hc, Lex.next_code_quote]
  refine hin.trans ?_
  cases lexAfter .str b <;> rfl

/-- a container is open where the machine takes a string behind its bracket -/
theorem stack_of_takes (ts : List Tok) : ∀ {q r : State}, q.stack ≠ [] → q.run ts = some r →
    r.TakesString → r.stack ≠ [] := by
  induction ts with
  | nil =>
    intro q r hq hr _
    exact Option.some.inj hr ▸ hq
  | cons t ts ih =>
    intro q r hq hr htake
    rw [State.run_cons] at hr
    obtain ⟨q₁, h1, h2⟩ := Option.bind_eq_some_iff.mp hr
    by_cases he : q₁.stack = []
    · rw [step_to_empty h1 hq he] at h2
      obtain ⟨q', hs⟩ := htake []
      rw [run_done h2] at hs
      cases hs
    · exact ih he h2 htake

theorem extract_container {f : JsonSyntax.Frame} {us : List Tok} {q : State} {b : Text}
    (hv : Valid us) (hr : State.run ⟨[f], inner f⟩ us = some q) (htake : q.TakesString)
    (hb : Inside .str b) :
    extractTolerantJson (opener f :: (render us ++ '"' :: b)) = .error .unbalancedBraces := by
  have hbom : opener f ≠ '\uFEFF' := by cases f <;> decide
  have hslash : opener f ≠ '/' := by cases f <;> decide
  have hopener : opener f = '{' ∨ opener f = '[' := by cases f <;> simp [opener]
  have hclose : (if opener f = '{' then '}' else ']') = closing f := by cases f <;> rfl
  have hstack : q.stack ≠ [] := stack_of_takes us (List.cons_ne_nil f []) hr htake
  have hskip : skipBom (opener f :: (render us ++ '"' :: b)) =
      (0, opener f :: (render us ++ '"' :: b)) := skipBom_of_ne fun e => hbom (Option.some.inj e)
  rw [extractTolerantJson_eq, hskip]
  dsimp only
  rw [findFirstJsonDelim_code hslash, if_pos ⟨hopener, rfl⟩]
  dsimp only
  rw [hclose, findBalancedEnd_cut hv hr hstack hb]
  split <;> rfl

section
variable {ts : List Tok} {q : State} {b : Text} (h : CutString ts q b)
include h

/-- **The extractor finds no complete container.** -/
theorem extract_cut (hfront : Front ts q) :
    ∃ e, extractTolerantJson (render ts ++ '"' :: b) = .error e := by
  rcases hfront with ⟨rfl, -⟩ | ⟨t, us, q₁, rfl, ht, h1, h2⟩
  · refine ⟨.noJsonFound, ?_⟩
    show extractTolerantJson ('"' :: b) = _
    rw [extractTolerantJson_eq, skipBom_of_ne (by simp), findFirstJsonDelim_code (by decide),
      if_neg (by simp), Lex.next_code_quote, findFirstJsonDelim_inside b .str _ _ nofun h.inside]
  · have hv : Valid us := (valid_cons.mp h.reads.valid).2
    refine ⟨.unbalancedBraces, ?_⟩
    rcases ht with rfl | rfl
    · obtain rfl := Option.some.inj h1
      exact extract_container (f := .obj) hv h2 h.takes h.inside
    · obtain rfl := Option.some.inj h1
      exact extract_container (f := .arr) hv h2 h.takes h.inside

/-- a text that stops inside a string is no JSON text -/
theorem not_jsonText_cut : ¬ JsonText (render ts ++ '"' :: b) := by
  intro hj
  have hw := repairOneMissingBracket_wellFormed hj
  rw [repairOneMissingBracket_cut h] at hw
  cases hw

end

/-! ## the parse -/

section
variable {T : Type} {fromStr : Text → Option T}

theorem fromStr_cut (hfrom : ∀ t v, fromStr t = some v → JsonText t) {ts : List Tok} {q : State}
    {b : Text} (h : CutString ts q b) : fromStr (render ts ++ '"' :: b) = none := by
  cases he : fromStr (render ts ++ '"' :: b) with
  | none => rfl
  | some v => exact absurd (hfrom _ v he) (not_jsonText_cut h)

/-- every attempt fails on a trimmed text -/
theorem parseBraced_cut (parses : Text → Bool) (hfrom : ∀ t v, fromStr t = some v → JsonText t)
    {ts : List Tok} {q : State} {b : Text} (h : CutString ts q b) (hfront : Front ts q) :
    parseBraced parses fromStr (render ts ++ '"' :: b) [] =
      (.error (.notJson (render ts ++ '"' :: b)), []) := by
  obtain ⟨e, hext⟩ := extract_cut h hfront
  have hcand : ∀ cutShort, tryCandidate parses fromStr (render ts ++ '"' :: b) cutShort =
      (none, []) := by
    intro cutShort
    rw [tryCandidate, tolerantCandidate, hext]
  have hslips : trySlips fromStr (render ts ++ '"' :: b) = (none, []) := by
    rw [trySlips, repairSlips_cut h]
  have hrepair : tryRepair parses fromStr (render ts ++ '"' :: b) =
      ((none, []), .notJson (render ts ++ '"' :: b)) := by
    rw [tryRepair, repairM3_cut h]
  simp [parseBraced, fromStr_cut hfrom h, hcand, hslips, hrepair, orTry]

/-- **A cut inside a string is never salvaged**: for a prefix of a JSON text that stops inside a
literal the repair chain gives up, and the parse fails without a repair event. -/
theorem parse_cut_string (parses : Text → Bool) (hfrom : ∀ t v, fromStr t = some v → JsonText t)
    {t p : Text} (ht : JsonText t) (hp : p <+: t) (hin : lexAfter .code p ≠ .code) :
    (repairM3BracketsWithTrace parses p).1 = none ∧
      ∃ e, parseModelJsonTraced parses fromStr p = (.error e, []) := by
  obtain ⟨ts, q, b, rfl, h⟩ := cutString_of_lex ht hp hin
  refine ⟨by rw [repairM3_cut h], ?_⟩
  obtain ⟨us, b', htrim, hus, hfront⟩ := stripCodeFence_cut h
  obtain ⟨hclean, hcut⟩ := clean_cut hus
  obtain ⟨hgetD, hsome⟩ := stripResponseText_eq (render us ++ '"' :: b')
  rw [hclean] at hgetD hsome
  have hdirect : fromStr (render us ++ '"' :: b') = none := fromStr_cut hfrom hus
  have hstripped : (stripResponseText (render us ++ '"' :: b')).bind fromStr = none := by
    cases hs : stripResponseText (render us ++ '"' :: b') with
    | none => rfl
    | some u =>
      rw [hsome u hs]
      exact fromStr_cut hfrom hcut
  have hfront' : Front (us.map cleanTok) q := by
    rcases hfront with ⟨rfl, hq⟩ | ⟨t, vs, q₁, rfl, ht, h1, h2⟩
    · exact Or.inl ⟨rfl, hq⟩
    · refine Or.inr ⟨t, vs.map cleanTok, q₁, ?_, ht, h1, ?_⟩
      · rcases ht with rfl | rfl <;> rfl
      · rw [run_cleanTok]
        exact h2
  refine ⟨.notJson (render (us.map cleanTok) ++ '"' :: clean b'), ?_⟩
  rw [parseModelJsonTraced, htrim]
  simp only [hdirect, hstripped, hgetD, repairMissingOpenBrace_cut hcut, Option.none_or]
  exact parseBraced_cut parses hfrom hcut hfront'

end

theorem parse_cut_string_sample :
    (repairM3BracketsWithTrace (parsesOnly "\x7b\"a\": [1]\x7d".toList) "\x7b\"a".toList).1 = none ∧
      ∃ e, parseModelJsonTraced (parsesOnly "\x7b\"a\": [1]\x7d".toList)
        (fun s => if s = "\x7b\"a\": [1]\x7d".toList then some () else none) "\x7b\"a".toList =
          (.error e, []) := by
  have hws : Ws [] := fun c hc => absurd hc (by simp)
  have hwhole : JsonText "\x7b\"a\": [1]\x7d".toList := ⟨[], _, [], hws, derives_sample, hws, rfl⟩
  refine parse_cut_string _ (fun s v hs => ?_) hwhole ⟨"\": [1]\x7d".toList, rfl⟩ (by decide)
  split at hs
  · rename_i e
    exact e ▸ hwhole
  · cases hs

end Moagan
