import Mathlib.Data.List.Induction
import Moagan.Json.Edited
import Moagan.Json.Recovery

/-!
# What the bracket repair loses

The walk over the brackets stops at the first closer that does not match: it writes the closer
that was due and the model's, and returns.  What follows is gone.

* `BracketWalk`               the walk without the text it writes: `bracketWalk_spec`
* `iterative_open`            the loop over the brackets from a text without mismatched closers
* `SameWalk`, `Edited.walk`   edits do not move the place where the walk stops
* `repair_keeps_iff`          the repair keeps every character of the answer that is neither
                              whitespace nor a comma iff nothing but closers it writes again
                              follows the closer it stops at
-/

namespace Moagan
open Scanning

/-! ## the walk -/

/-- still going; refused; stopped at a closer that does not match, with the brackets still open
and the text behind it -/
inductive BracketWalk where
  | going (lex : Lex) (stack : Text)
  | refused
  | stopped (stack tail : Text)
deriving DecidableEq, Repr

def BracketWalk.next : BracketWalk → Char → BracketWalk
  | .going m st, c =>
    if m ≠ .code then .going (m.next c) st
    else if c = '{' ∨ c = '[' then .going .code (c :: st)
    else if c = '}' ∨ c = ']' then
      if st.head?.map closer = some c then .going .code st.tail
      else match st with
        | _ :: o :: st' => if closer o = c then .stopped st' [] else .refused
        | _ => .refused
    else .going (m.next c) st
  | .refused, _ => .refused
  | .stopped st t, c => .stopped st (t ++ [c])

def bracketWalk (s : Text) : BracketWalk := s.foldl BracketWalk.next (.going .code [])

theorem bracketWalk_snoc (s : Text) (c : Char) :
    bracketWalk (s ++ [c]) = (bracketWalk s).next c := by
  rw [bracketWalk, List.foldl_append]; rfl

theorem closer_cases (o : Char) : closer o = '}' ∨ closer o = ']' := by
  unfold closer; split <;> simp

/-- a character that is no bracket -/
theorem BracketWalk.next_plain {m : Lex} {st : Text} {c : Char}
    (hc : m = .code → c ≠ '{' ∧ c ≠ '[' ∧ c ≠ '}' ∧ c ≠ ']') :
    BracketWalk.next (.going m st) c = .going (m.next c) st := by
  by_cases hm : m = .code
  · obtain ⟨h1, h2, h3, h4⟩ := hc hm
    simp [BracketWalk.next, hm, h1, h2, h3, h4]
  · simp [BracketWalk.next, hm]

/-- a closer that matches -/
theorem BracketWalk.next_closer (o : Char) (st : Text) :
    BracketWalk.next (.going .code (o :: st)) (closer o) = .going .code st := by
  rcases closer_cases o with h | h <;> simp [BracketWalk.next, h]

/-- the position of a walk that is still going is the lexical one -/
theorem bracketWalk_lex (s : Text) :
    ∀ m st, bracketWalk s = .going m st → m = lexAfter .code s := by
  induction s using List.reverseRecOn with
  | nil =>
    intro m st h
    cases h; rfl
  | append_singleton s c ih =>
    intro m st h
    rw [bracketWalk_snoc] at h
    rw [lexAfter_snoc]
    cases hw : bracketWalk s with
    | refused => rw [hw] at h; cases h
    | stopped st' t => rw [hw] at h; cases h
    | going m' st' =>
      rw [hw] at h
      have e := ih m' st' hw
      rw [← e]
      unfold BracketWalk.next at h
      simp only at h
      split at h
      · cases h; rfl
      · have hm : m' = .code := by
          rename_i hm; simpa using hm
        subst hm
        split at h
        · rename_i hc
          cases h
          rcases hc with rfl | rfl <;> rfl
        · split at h
          · rename_i hc
            split at h
            · cases h
              rcases hc with rfl | rfl <;> rfl
            · split at h
              · split at h <;> cases h
              · cases h
          · cases h; rfl

/-- the scanner of the repair walks this walk -/
def WalkRel (l : Text) (s : Scan Brackets) : Prop :=
  match bracketWalk l with
  | .going m st => s = ⟨m, l, ⟨st, none⟩⟩
  | .refused => s.aux.returned = some none
  | .stopped st t => ∃ p top o, l = p ++ closer o :: t ∧ closer top ≠ closer o ∧
      bracketWalk p = .going .code (top :: o :: st) ∧
      s.aux.returned = some (some (p ++ [closer top, closer o]))

theorem bracket_step (l : Text) (s : Scan Brackets) (c : Char) (rest : Text) (h : WalkRel l s) :
    WalkRel (l ++ [c]) (bracketStep s c rest) := by
  unfold WalkRel at h ⊢
  rw [bracketWalk_snoc]
  cases hw : bracketWalk l with
  | refused =>
    rw [hw] at h
    simp only [BracketWalk.next]
    rw [bracketStep, if_pos (by rw [h]; rfl)]
    exact h
  | stopped st t =>
    rw [hw] at h
    obtain ⟨p, top, o, rfl, hne, hp, hr⟩ := h
    simp only [BracketWalk.next]
    rw [bracketStep, if_pos (by rw [hr]; rfl)]
    exact ⟨p, top, o, by simp, hne, hp, hr⟩
  | going m st =>
    rw [hw] at h
    simp only at h
    subst h
    unfold bracketStep
    rw [if_neg (by simp)]
    by_cases hm : m = .code
    · subst hm
      rw [if_neg (by simp)]
      by_cases h1 : c = '{' ∨ c = '['
      · rw [if_pos h1]
        simp only [BracketWalk.next, if_pos h1, ne_eq, not_true, if_false]
        rcases h1 with rfl | rfl <;> rfl
      · rw [if_neg h1]
        by_cases h2 : c = '}' ∨ c = ']'
        · rw [if_pos h2]
          by_cases h3 : st.head?.map closer = some c
          · simp only [BracketWalk.next, if_neg h1, if_pos h2, if_pos h3, ne_eq, not_true, if_false]
            rcases h2 with rfl | rfl <;> rfl
          · simp only [BracketWalk.next, if_neg h1, if_pos h2, if_neg h3, ne_eq, not_true, if_false]
            rcases st with _ | ⟨top, _ | ⟨o, st⟩⟩
            · rfl
            · rfl
            · by_cases h4 : closer o = c
              · subst h4
                have h3' : closer top ≠ closer o := by simpa using h3
                simp only [mismatched, if_pos]
                exact ⟨l, top, o, rfl, h3', hw, rfl⟩
              · simp [mismatched, h4]
        · rw [if_neg h2]
          simp only [BracketWalk.next, if_neg h1, if_neg h2, ne_eq, not_true, if_false]
          rfl
    · rw [if_pos hm]
      simp only [BracketWalk.next, if_pos hm]
      rfl

theorem bracketWalk_spec (s : Text) :
    WalkRel s (walk bracketStep ⟨.code, [], ⟨[], none⟩⟩ s) := by
  have h := walk_inv bracketStep WalkRel bracket_step s [] ⟨.code, [], ⟨[], none⟩⟩ rfl
  simpa using h

/-- where a walk stopped -/
theorem bracketWalk_stopped {s st t : Text} (h : bracketWalk s = .stopped st t) :
    ∃ p top o, s = p ++ closer o :: t ∧ closer top ≠ closer o ∧
      bracketWalk p = .going .code (top :: o :: st) ∧
      repairOneMissingBracket s = some (p ++ [closer top, closer o]) := by
  have hs := bracketWalk_spec s
  unfold WalkRel at hs
  rw [h] at hs
  obtain ⟨p, top, o, e, hne, hp, hr⟩ := hs
  exact ⟨p, top, o, e, hne, hp, by simp [repairOneMissingBracket, hr]⟩

theorem repairOne_refused {s : Text} (h : bracketWalk s = .refused) :
    repairOneMissingBracket s = none := by
  have hs := bracketWalk_spec s
  unfold WalkRel at hs
  rw [h] at hs
  simp [repairOneMissingBracket, show _ = _ from hs]

theorem repairOne_going {s st : Text} {m : Lex} (h : bracketWalk s = .going m st) :
    repairOneMissingBracket s =
      if m ≠ .code then none
      else match st with
        | [] => some s
        | top :: _ => some (popComma s ++ [closer top]) := by
  have hs := bracketWalk_spec s
  unfold WalkRel at hs
  rw [h] at hs
  have hs : walk bracketStep ⟨.code, [], ⟨[], none⟩⟩ s = ⟨m, s, ⟨st, none⟩⟩ := hs
  unfold repairOneMissingBracket
  rewrite [hs]
  cases st <;> rfl

/-- what the scanner kept, the walk keeps -/
theorem bracketWalk_of_walk {s st : Text}
    (h : walk bracketStep ⟨.code, [], ⟨[], none⟩⟩ s = ⟨.code, s, ⟨st, none⟩⟩) :
    bracketWalk s = .going .code st := by
  have hs := bracketWalk_spec s
  rw [h] at hs
  unfold WalkRel at hs
  cases hw : bracketWalk s with
  | refused => rw [hw] at hs; cases hs
  | stopped st' t =>
    rw [hw] at hs
    obtain ⟨_, _, _, _, _, _, hr⟩ := hs
    cases hr
  | going m st' =>
    rw [hw] at hs
    cases hs; rfl

/-- the walk over a JSON text ends with every bracket closed -/
theorem bracketWalk_jsonText {s : Text} (h : JsonSyntax.JsonText s) :
    bracketWalk s = .going .code [] :=
  bracketWalk_of_walk (bracketWalk_wellFormed h)

/-! ## the loop over the brackets -/

theorem popComma_cases (s : Text) : popComma s = s ∨ s = popComma s ++ [','] := by
  unfold popComma
  split
  · rename_i h
    exact Or.inr (List.dropLast_append_getLast? _ h).symm
  · exact Or.inl rfl

theorem kept_popComma (s : Text) : kept (popComma s) = kept s := by
  rcases popComma_cases s with h | h
  · rw [h]
  · conv_rhs => rw [h, kept_append, show kept [','] = [] from rfl, List.append_nil]

/-- dropping a comma behind code does not change where the walk is -/
theorem bracketWalk_popComma {s st : Text} (h : bracketWalk s = .going .code st) :
    bracketWalk (popComma s) = .going .code st := by
  rcases popComma_cases s with e | e
  · rw [e]; exact h
  · rw [e, bracketWalk_snoc] at h
    cases hw : bracketWalk (popComma s) with
    | refused => rw [hw] at h; cases h
    | stopped st' t => rw [hw] at h; cases h
    | going m st' =>
      rw [hw, BracketWalk.next_plain fun _ => by decide] at h
      cases m <;> cases h
      rfl

/-- one closer behind a text whose brackets are open -/
theorem bracketWalk_close {s st : Text} {top : Char} (h : bracketWalk s = .going .code (top :: st)) :
    bracketWalk (popComma s ++ [closer top]) = .going .code st := by
  rw [bracketWalk_snoc, bracketWalk_popComma h, BracketWalk.next_closer]

theorem close_ne (s : Text) (top : Char) : popComma s ++ [closer top] ≠ s := by
  intro h
  rcases popComma_cases s with e | e
  · rw [e] at h
    simpa using congrArg List.length h
  · rw [e] at h
    have h' := congrArg List.getLast? h
    simp at h'
    rcases closer_cases top with hc | hc <;> rw [hc] at h' <;> simp at h'

theorem isKept_closer (o : Char) : isKept (closer o) = true := by
  rcases closer_cases o with h | h <;> rw [h] <;> rfl

/-- closers behind a text; the first one takes the place of a trailing comma -/
def closeWith (s closers : Text) : Text := if closers = [] then s else popComma s ++ closers

theorem popComma_close (s : Text) (top : Char) : popComma (s ++ [closer top]) = s ++ [closer top] := by
  rcases closer_cases top with h | h <;> simp [popComma, h]

/-- one closer, then the others -/
theorem closeWith_close (s : Text) (top : Char) (closers : Text) :
    closeWith (popComma s ++ [closer top]) closers = closeWith s (closer top :: closers) := by
  unfold closeWith
  rw [popComma_close, if_neg (List.cons_ne_nil _ _), List.append_assoc]
  split
  · rename_i h
    rw [h]
  · rfl

theorem kept_closeWith (s : Text) {closers : Text} (h : ∀ c ∈ closers, isKept c = true) :
    kept (closeWith s closers) = kept s ++ closers := by
  have hk : kept closers = closers := List.filter_eq_self.mpr h
  unfold closeWith
  split
  · rename_i h
    rw [h, List.append_nil]
  · rw [kept_append, kept_popComma, hk]

section
variable {parses : Text → Bool} (hparses : ∀ t, parses t = true → JsonSyntax.JsonText t)
include hparses

/-- **From a text without mismatched closers the loop appends the closers that are due**, one a
round, as far as its rounds go. -/
theorem iterative_closes (n : Nat) :
    ∀ current st last, bracketWalk current = .going .code st → (last = none ∨ last = some current) →
      ∃ evs : List RepairTrace, evs.map RepairTrace.kind = List.replicate (min n st.length) .bracket ∧
        repairBracketsIterative parses n current last =
          (some (closeWith current ((st.map closer).take n)), evs) := by
  induction n with
  | zero =>
    intro current st last _ hlast
    refine ⟨[], by simp, ?_⟩
    rcases hlast with rfl | rfl <;> rfl
  | succ n ih =>
    intro current st last hw hlast
    have hrep := repairOne_going hw
    cases st with
    | nil =>
      refine ⟨[], by simp, ?_⟩
      rw [repairBracketsIterative, hrep]
      rcases hlast with rfl | rfl <;> simp [closeWith]
    | cons top st =>
      have hclose := bracketWalk_close hw
      let ev : RepairTrace := ⟨.bracket, utf8Len current, utf8Len (popComma current ++ [closer top])⟩
      rw [repairBracketsIterative, hrep]
      simp only [ne_eq, not_true, if_false, if_neg (close_ne current top)]
      by_cases hp : parses (popComma current ++ [closer top]) = true
      · rw [if_pos hp]
        have hj := bracketWalk_jsonText (hparses _ hp)
        rw [hclose] at hj
        cases hj
        have hmin : min (n + 1) [top].length = 1 := by
          show min (n + 1) 1 = 1
          omega
        refine ⟨[ev], ?_, ?_⟩
        · rw [hmin]
          rfl
        · rw [List.map_cons, List.take_succ_cons, List.map_nil, List.take_nil, closeWith,
            if_neg (List.cons_ne_nil _ _)]
      · rw [if_neg hp]
        obtain ⟨evs, h1, h2⟩ := ih _ st _ hclose (Or.inr rfl)
        have hmin : min (n + 1) (top :: st).length = min n st.length + 1 := by
          show min (n + 1) (st.length + 1) = _
          omega
        refine ⟨ev :: evs, ?_, ?_⟩
        · rw [List.map_cons, h1, hmin]
          rfl
        · rw [h2, closeWith_close, List.map_cons, List.take_succ_cons]

theorem iterative_going (n : Nat) (current st : Text) (last : Option Text)
    (hw : bracketWalk current = .going .code st) (hlast : last = none ∨ last = some current) :
    ∃ t, (repairBracketsIterative parses n current last).1 = some t ∧
      kept t = kept current ++ (st.map closer).take n := by
  obtain ⟨evs, -, h⟩ := iterative_closes hparses n current st last hw hlast
  refine ⟨_, by rw [h], kept_closeWith current fun c hc => ?_⟩
  obtain ⟨o, -, rfl⟩ := List.mem_map.mp (List.mem_of_mem_take hc)
  exact isKept_closer o

/-- **From a text with a mismatched closer** the loop keeps what stands before it, writes the two
closers and appends those that are due then. -/
theorem iterative_stopped {o p t st : Text} {top next : Char} (n : Nat)
    (ho : o = p ++ closer next :: t) (hne : closer top ≠ closer next)
    (hp : bracketWalk p = .going .code (top :: next :: st))
    (hr : repairOneMissingBracket o = some (p ++ [closer top, closer next])) :
    ∃ r, (repairBracketsIterative parses (n + 1) o none).1 = some r ∧
      kept r = kept p ++ [closer top, closer next] ++ (st.map closer).take n := by
  have hwalk : bracketWalk (p ++ [closer top, closer next]) = .going .code st := by
    rw [show p ++ [closer top, closer next] = p ++ [closer top] ++ [closer next] by simp,
      bracketWalk_snoc, bracketWalk_snoc, hp, BracketWalk.next_closer, BracketWalk.next_closer]
  have hkept : kept (p ++ [closer top, closer next]) = kept p ++ [closer top, closer next] := by
    rw [kept_append]
    simp [kept, isKept_closer]
  have hdiff : p ++ [closer top, closer next] ≠ o := by
    rw [ho]
    intro h
    exact hne (List.cons.inj (List.append_cancel_left h)).1
  rw [repairBracketsIterative, hr]
  simp only [if_neg hdiff]
  by_cases hpar : parses (p ++ [closer top, closer next]) = true
  · rw [if_pos hpar]
    have hj := bracketWalk_jsonText (hparses _ hpar)
    rw [hwalk] at hj
    cases hj
    exact ⟨_, rfl, by rw [hkept]; simp⟩
  · rw [if_neg hpar]
    obtain ⟨r, h1, h2⟩ := iterative_going hparses n _ st _ hwalk (Or.inr rfl)
    exact ⟨r, h1, by rw [h2, hkept]⟩

end

/-! ## edits and the walk -/

/-- two walks that end alike: where they stopped, the same brackets are open and the same is
behind, unless a string is there -/
def SameWalk : BracketWalk → BracketWalk → Prop
  | .going m st, .going m' st' => m = m' ∧ st = st'
  | .refused, .refused => True
  | .stopped st t, .stopped st' t' =>
    st = st' ∧ ('"' ∈ t ↔ '"' ∈ t') ∧ ('"' ∉ t → kept t = kept t')
  | _, _ => False

theorem SameWalk.refl (w : BracketWalk) : SameWalk w w := by
  cases w with
  | going m st => exact ⟨rfl, rfl⟩
  | refused => trivial
  | stopped st t => exact ⟨rfl, Iff.rfl, fun _ => rfl⟩

theorem SameWalk.trans {a b c : BracketWalk} (h₁ : SameWalk a b) (h₂ : SameWalk b c) :
    SameWalk a c := by
  cases a with
  | going m st =>
    cases b with
    | going m' st' =>
      obtain ⟨rfl, rfl⟩ := h₁
      exact h₂
    | refused => exact False.elim h₁
    | stopped st' t' => exact False.elim h₁
  | refused =>
    cases b with
    | going m' st' => exact False.elim h₁
    | refused => exact h₂
    | stopped st' t' => exact False.elim h₁
  | stopped st t =>
    cases b with
    | going m' st' => exact False.elim h₁
    | refused => exact False.elim h₁
    | stopped st' t' =>
      cases c with
      | going m'' st'' => exact False.elim h₂
      | refused => exact False.elim h₂
      | stopped st'' t'' =>
        obtain ⟨rfl, q₁, k₁⟩ := h₁
        obtain ⟨rfl, q₂, k₂⟩ := h₂
        exact ⟨rfl, q₁.trans q₂, fun h => (k₁ h).trans (k₂ fun h' => h (q₁.mpr h'))⟩

theorem SameWalk.next {a b : BracketWalk} (h : SameWalk a b) (c : Char) :
    SameWalk (a.next c) (b.next c) := by
  cases a with
  | going m st =>
    cases b with
    | going m' st' =>
      obtain ⟨rfl, rfl⟩ := h
      exact SameWalk.refl _
    | refused => exact False.elim h
    | stopped st' t' => exact False.elim h
  | refused =>
    cases b with
    | going m' st' => exact False.elim h
    | refused => trivial
    | stopped st' t' => exact False.elim h
  | stopped st t =>
    cases b with
    | going m' st' => exact False.elim h
    | refused => exact False.elim h
    | stopped st' t' =>
      obtain ⟨rfl, q, k⟩ := h
      refine ⟨rfl, by simp [q], fun hn => ?_⟩
      rw [kept_append, kept_append, k fun h' => hn (by simp [h'])]

/-- a character of code that is neither a bracket nor a quote, inserted or dropped on the right -/
theorem SameWalk.skip {a b : BracketWalk} {c : Char} (h : SameWalk a b)
    (hm : ∀ m st, b = .going m st → m = .code)
    (hc : c ≠ '{' ∧ c ≠ '[' ∧ c ≠ '}' ∧ c ≠ ']' ∧ c ≠ '"')
    (hk : ∀ st t, b = .stopped st t → '"' ∉ t → isKept c = false) : SameWalk a (b.next c) := by
  obtain ⟨h1, h2, h3, h4, h5⟩ := hc
  cases b with
  | going m st =>
    obtain rfl := hm m st rfl
    rw [BracketWalk.next_plain fun _ => ⟨h1, h2, h3, h4⟩, Lex.next_code_of_ne h5]
    exact h
  | refused => exact h
  | stopped st t =>
    cases a with
    | going m' st' => exact False.elim h
    | refused => exact False.elim h
    | stopped st' t' =>
      obtain ⟨rfl, q, k⟩ := h
      refine ⟨rfl, by simp [q, h5.symm], fun hn => ?_⟩
      have hn' : '"' ∉ t := fun h' => hn (q.mpr h')
      rw [kept_append, kept_of_not (hk st' t rfl hn'), List.append_nil, k hn]

/-- behind code the other walk is in code as well -/
theorem SameWalk.code {l o : Text} (h : SameWalk (bracketWalk l) (bracketWalk o))
    (hl : lexAfter .code l = .code) : ∀ m st, bracketWalk o = .going m st → m = .code := by
  intro m st e
  rw [e] at h
  cases hw : bracketWalk l with
  | going m' st' =>
    rw [hw] at h
    rw [← h.1, bracketWalk_lex l _ _ hw, hl]
  | refused => rw [hw] at h; exact False.elim h
  | stopped st' t' => rw [hw] at h; exact False.elim h

theorem SameWalk.symm {a b : BracketWalk} (h : SameWalk a b) : SameWalk b a := by
  cases a <;> cases b <;> first | exact h | exact False.elim h | skip
  · exact ⟨h.1.symm, h.2.symm⟩
  · exact ⟨h.1.symm, h.2.1.symm, fun hn => (h.2.2 fun h' => hn (h.2.1.mp h')).symm⟩

/-- **Edits do not move the place where the walk stops.** -/
theorem Edited.walk {l o : Text} (h : Edited l o) : SameWalk (bracketWalk l) (bracketWalk o) := by
  induction h with
  | nil => exact SameWalk.refl _
  | keep c _ ih =>
    rw [bracketWalk_snoc, bracketWalk_snoc]
    exact ih.next c
  | @comma l o hl _ ih =>
    rw [bracketWalk_snoc]
    exact ih.skip (ih.code hl) (by decide) fun _ _ _ _ => rfl
  | @colon l o hq hl _ ih =>
    rw [bracketWalk_snoc]
    refine ih.skip (ih.code hl) (by decide) fun st t e hn => ?_
    -- behind the place where the walk stopped a colon follows a quote that is there too
    rw [e] at ih
    cases hw : bracketWalk l with
    | going m' st' => rw [hw] at ih; exact False.elim ih
    | refused => rw [hw] at ih; exact False.elim ih
    | stopped st' t' =>
      rw [hw] at ih
      obtain ⟨p, top, o', rfl, -, -, -⟩ := bracketWalk_stopped hw
      refine absurd (ih.2.1.mp ?_) hn
      rcases List.eq_nil_or_concat t' with rfl | ⟨t₁, d, rfl⟩
      · have hd : closer o' = '"' := by simpa using hq
        rcases closer_cases o' with h | h <;> rw [h] at hd <;> exact absurd hd (by decide)
      · have e' : p ++ closer o' :: t₁.concat d = (p ++ closer o' :: t₁) ++ [d] := by simp
        rw [e', List.getLast?_concat] at hq
        simp [Option.some.inj hq]
  | @drop l o c hl hc _ ih =>
    rw [bracketWalk_snoc]
    refine (ih.symm.skip (fun m st e => ?_) ?_ fun _ _ _ _ => hc).symm
    · rw [bracketWalk_lex l _ _ e, hl]
    · refine ⟨?_, ?_, ?_, ?_, ?_⟩ <;> (rintro rfl; cases hc)
  | @pop l o hl _ ih =>
    rw [bracketWalk_snoc] at ih
    cases hw : bracketWalk o with
    | refused => rw [hw] at ih; exact ih
    | going m st =>
      rw [hw, BracketWalk.next_plain fun _ => by decide] at ih
      cases hl' : bracketWalk l with
      | going m' st' =>
        rw [hl'] at ih
        obtain ⟨rfl, rfl⟩ := ih
        have hm := bracketWalk_lex l _ _ hl'
        rw [hl] at hm
        rw [Lex.code_of_next (by decide) hm]
        exact ⟨rfl, rfl⟩
      | refused => rw [hl'] at ih; exact False.elim ih
      | stopped st' t' => rw [hl'] at ih; exact False.elim ih
    | stopped st t =>
      rw [hw] at ih
      cases hl' : bracketWalk l with
      | going m' st' => rw [hl'] at ih; exact False.elim ih
      | refused => rw [hl'] at ih; exact False.elim ih
      | stopped st' t' =>
        rw [hl'] at ih
        obtain ⟨rfl, q, k⟩ := ih
        refine ⟨rfl, by rw [q]; simp, fun hn => ?_⟩
        rw [k hn, kept_append, show kept [','] = [] from rfl, List.append_nil]

/-! ## the chain -/

/-- the answer with the brace it lacks -/
def braced (s : Text) : Text := (repairMissingOpenBrace s).getD s

theorem stripBom_append (s : Text) : (stripBom s).1 ++ (stripBom s).2 = s := by
  cases s with
  | nil => rfl
  | cons c s => by_cases h : c = '\uFEFF' <;> simp [stripBom, h]

theorem skipComments_append (m : CommentPos) (s : Text) :
    (skipComments m s).1 ++ (skipComments m s).2 = s := by
  fun_induction skipComments m s <;> simp_all

theorem seekKey_some (s : Text) :
    ∀ a b, seekKey s = some (a, b) → s = a ++ b ∧ b.head? = some '"' := by
  induction s with
  | nil => intro a b h; cases h
  | cons c s ih =>
    intro a b h
    rw [seekKey] at h
    split at h
    · cases h
    · split at h
      · rename_i hc
        cases h
        exact ⟨rfl, by simp [hc]⟩
      · obtain ⟨⟨a', b'⟩, h1, h2⟩ := Option.map_eq_some_iff.mp h
        cases h2
        obtain ⟨rfl, hb⟩ := ih a' b h1
        exact ⟨rfl, hb⟩

/-- the brace stands in front of a quote -/
theorem repairMissingOpenBrace_some {s p : Text} (h : repairMissingOpenBrace s = some p) :
    ∃ a b, s = a ++ '"' :: b ∧ p = a ++ '{' :: '"' :: b := by
  unfold repairMissingOpenBrace at h
  have e₁ := stripBom_append s
  generalize stripBom s = b₁ at h e₁
  obtain ⟨bom, rest⟩ := b₁
  have e₂ := skipComments_append .outside rest
  simp only at h e₁
  generalize skipComments .outside rest = b₂ at h e₂
  obtain ⟨comments, rest₂⟩ := b₂
  simp only at h e₂
  cases hk : seekKey rest₂ with
  | none => rw [hk] at h; cases h
  | some pk =>
    obtain ⟨prose, key⟩ := pk
    obtain ⟨e₃, hq⟩ := seekKey_some rest₂ prose key hk
    rw [hk] at h
    simp only at h
    split at h
    · cases h
    · split at h
      · cases key with
        | nil => cases hq
        | cons c key =>
          obtain rfl := Option.some.inj hq
          refine ⟨bom ++ comments ++ prose, key, ?_, (Option.some.inj h).symm⟩
          rw [← e₁, ← e₂, e₃]
          simp
      · cases h

/-- the brace makes the text one character longer, or nothing happens -/
theorem braced_cases (s : Text) :
    braced s = s ∨ ∃ a b, s = a ++ '"' :: b ∧ braced s = a ++ '{' :: '"' :: b := by
  unfold braced
  cases h : repairMissingOpenBrace s with
  | none => exact Or.inl rfl
  | some p => exact Or.inr (repairMissingOpenBrace_some h)

theorem applyPass_brace (s : Text) :
    (applyPass .openBrace repairMissingOpenBrace (s, [])).1 = braced s := by
  unfold applyPass braced
  cases h : repairMissingOpenBrace s with
  | none => simp
  | some p =>
    obtain ⟨a, b, rfl, rfl⟩ := repairMissingOpenBrace_some h
    have e : ('{' : Char).utf8Size = 1 := rfl
    simp [e]

/-- what a chain of edits keeps -/
structure Safe (l o : Text) : Prop where
  kept : (kept l).Sublist (kept o)
  count : ∀ c, isKept c = true → c ≠ ':' → l.count c = o.count c
  walk : SameWalk (bracketWalk l) (bracketWalk o)

theorem Safe.refl (l : Text) : Safe l l :=
  ⟨List.Sublist.refl _, fun _ _ _ => rfl, SameWalk.refl _⟩

theorem Safe.trans {a b c : Text} (h₁ : Safe a b) (h₂ : Safe b c) : Safe a c :=
  ⟨h₁.kept.trans h₂.kept, fun x hx hx' => (h₁.count x hx hx').trans (h₂.count x hx hx'),
    h₁.walk.trans h₂.walk⟩

theorem Edited.safe {l o : Text} (h : Edited l o) : Safe l o :=
  ⟨h.kept_sublist, fun _ hc hc' => h.count hc hc', h.walk⟩

theorem applyPass_safe {kind : RepairKind} {pass : Text → Option Text}
    (hpass : ∀ s o, pass s = some o → Edited s o) (st : Text × List RepairTrace) :
    Safe st.1 (applyPass kind pass st).1 := by
  unfold applyPass
  cases h : pass st.1 with
  | none => exact Safe.refl _
  | some p =>
    simp only
    split
    · exact (hpass _ _ h).safe
    · exact Safe.refl _

theorem separatorPasses_safe (st : Text × List RepairTrace) :
    Safe st.1 (separatorPasses st).1 :=
  ((applyPass_safe (fun _ _ => strayComma_edited) st).trans
    (applyPass_safe (fun _ _ => missingColon_edited) _)).trans
      (applyPass_safe (fun _ _ => separators_edited) _)

/-- the text that reaches the loop over the brackets -/
def separated (s : Text) : Text := (separatorPasses (applyPass .openBrace repairMissingOpenBrace (s, []))).1

theorem separated_safe (s : Text) : Safe (braced s) (separated s) := by
  rw [← applyPass_brace]
  exact separatorPasses_safe _

theorem repair_result (parses : Text → Bool) (s : Text) :
    (repairM3BracketsWithTrace parses s).1 =
      if isFragment s then none
      else (repairBracketsIterative parses defaultBracketRepairMaxIters (separated s) none).1 := by
  unfold repairM3BracketsWithTrace
  split <;> rfl

theorem kept_braced (s : Text) : (kept s).Sublist (kept (braced s)) := by
  rcases braced_cases s with h | ⟨a, b, rfl, h⟩
  · rw [h]
  · rw [h, kept_append, kept_append]
    exact (List.Sublist.refl _).append ((List.sublist_cons_self _ _).filter _)

theorem count_braced {c : Char} (hc : c ≠ '{') (s : Text) : s.count c = (braced s).count c := by
  rcases braced_cases s with h | ⟨a, b, rfl, h⟩
  · rw [h]
  · rw [h, List.count_append, List.count_append, List.count_cons_of_ne hc.symm]

/-- an end of the text that starts with a closer and has no quote is an end of the answer -/
theorem suffix_of_braced {s t : Text} {c : Char} (hc : c ≠ '"') (ht : '"' ∉ t)
    (h : (c :: t) <:+ braced s) : (c :: t) <:+ s := by
  rcases braced_cases s with e | ⟨a, b, rfl, e⟩
  · exact e ▸ h
  · rw [e] at h
    have hq : ('"' :: b) <:+ a ++ '{' :: '"' :: b := ⟨a ++ ['{'], by simp⟩
    rcases List.suffix_or_suffix_of_suffix h hq with h' | h'
    · exact h'.trans (List.suffix_append _ _)
    · have hm : '"' ∈ c :: t := h'.subset List.mem_cons_self
      rcases List.mem_cons.mp hm with hm | hm
      · exact absurd hm.symm hc
      · exact absurd hm ht

/-- What is left of a text behind as many `c` as the first part of another one has, is left of that
one too. -/
theorem sublist_of_count {a b x y : Text} {c : Char} (hx : x.getLast? = some c)
    (hn : x.count c ≤ a.count c) (h : (a ++ b).Sublist (x ++ y)) : b.Sublist y := by
  obtain ⟨r₁, r₂, e, h₁, h₂⟩ := List.append_sublist_iff.mp h
  rcases List.append_eq_append_iff.mp e with ⟨z, rfl, rfl⟩ | ⟨z, rfl, rfl⟩
  · exact h₂.trans (List.sublist_append_right _ _)
  · have hz : z = [] := by
      by_contra hne
      have hcz : 0 < z.count c := by
        rw [List.getLast?_append_of_ne_nil _ hne] at hx
        exact List.count_pos_iff.mpr (List.mem_of_getLast? hx)
      have hle := h₁.count_le c
      rw [List.count_append] at hn
      omega
    rw [hz, List.nil_append] at h₂
    exact h₂

/-- the answer loses nothing: it is a fragment and left alone, or the walk over its brackets does
not stop, or only closers that are written again follow the closer it stops at -/
def KeepsAll (s : Text) : Prop :=
  isFragment s = true ∨
    ∀ st t, bracketWalk (braced s) = .stopped st t → (kept t).Sublist ((st.map closer).take 2)

theorem quote_not_kept {st t : Text} (h : (kept t).Sublist ((st.map closer).take 2)) : '"' ∉ t := by
  intro hq
  have hk : '"' ∈ kept t := List.mem_filter.mpr ⟨hq, rfl⟩
  obtain ⟨o, _, ho⟩ := List.mem_map.mp (List.mem_of_mem_take (h.subset hk))
  rcases closer_cases o with e | e <;> rw [e] at ho <;> exact absurd ho (by decide)

/-- the two sides, where the walk stops -/
theorem keeps_stopped {s st t p u r : Text} {top o : Char} (hb : bracketWalk (braced s) = .stopped st t)
    (hsep : separated s = p ++ closer o :: u) (hne : closer top ≠ closer o)
    (hq : '"' ∈ t ↔ '"' ∈ u) (hk : '"' ∉ t → kept t = kept u)
    (hr : kept r = kept p ++ [closer top, closer o] ++ (st.map closer).take 2) :
    (kept s).Sublist (kept r) ↔ (kept t).Sublist ((st.map closer).take 2) := by
  have hsafe := separated_safe s
  have hcl : closer o ≠ '"' := by rcases closer_cases o with h | h <;> rw [h] <;> decide
  have hcnt : ∀ c, isKept c = true → c ≠ ':' → c ≠ '{' → (kept s).count c =
      p.count c + (closer o :: u).count c := by
    intro c h1 h2 h3
    rw [count_kept h1, count_braced h3, hsafe.count c h1 h2, hsep, List.count_append]
  constructor
  · intro h
    by_cases hqt : '"' ∈ t
    · -- a lost string: the repaired text has fewer quotes
      have hle := h.count_le '"'
      have hpos : 0 < u.count '"' := List.count_pos_iff.mpr (hq.mp hqt)
      have hnone : ((st.map closer).take 2).count '"' = 0 := by
        rw [List.count_eq_zero]
        intro hm
        obtain ⟨o', _, ho⟩ := List.mem_map.mp (List.mem_of_mem_take hm)
        rcases closer_cases o' with e | e <;> rw [e] at ho <;> exact absurd ho (by decide)
      have htop : closer top ≠ '"' := by rcases closer_cases top with h | h <;> rw [h] <;> decide
      rw [hcnt '"' rfl (by decide) (by decide), hr, List.count_append, List.count_append, hnone,
        count_kept rfl, List.count_cons_of_ne hcl, List.count_cons_of_ne htop,
        List.count_cons_of_ne hcl, List.count_nil] at hle
      omega
    · -- otherwise the part in front has all the closers that the repaired text has there
      obtain ⟨p', top', o', e', -, -, -⟩ := bracketWalk_stopped hb
      have hcl' : closer o' ≠ '"' := by rcases closer_cases o' with h | h <;> rw [h] <;> decide
      obtain ⟨y, hy⟩ := suffix_of_braced hcl' hqt ⟨p', e'.symm⟩
      have es : kept s = kept (y ++ [closer o']) ++ kept t := by
        rw [← kept_append, ← hy]
        simp
      have hc : closer o ≠ ':' ∧ closer o ≠ '{' := by
        rcases closer_cases o with h | h <;> rw [h] <;> decide
      have hn := hcnt (closer o) (isKept_closer o) hc.1 hc.2
      have hu : (kept u).count (closer o) = u.count (closer o) := count_kept (isKept_closer o) u
      rw [es, List.count_append, hk hqt, hu, List.count_cons_self] at hn
      rw [es, hr] at h
      refine sublist_of_count (c := closer o) (by simp) ?_ h
      rw [List.count_append, count_kept (isKept_closer o), List.count_cons_of_ne hne,
        List.count_cons_self, List.count_nil]
      omega
  · intro h
    have hqt := quote_not_kept h
    have e : kept (separated s) = kept p ++ ([closer o] ++ kept t) := by
      rw [hsep, kept_append, kept_cons, kept_of_isKept (isKept_closer o), hk hqt]
    have h' : (kept (separated s)).Sublist (kept r) := by
      rw [e, hr, List.append_assoc]
      refine (List.Sublist.refl _).append (List.Sublist.append ?_ h)
      exact List.sublist_cons_self _ _
    exact (kept_braced s).trans (hsafe.kept.trans h')

/-- **The bracket repair loses nothing exactly when `KeepsAll` holds.**  `parses` is the JSON parser
of the loop; it accepts JSON texts only. -/
theorem repair_keeps_iff (parses : Text → Bool)
    (hparses : ∀ t, parses t = true → JsonSyntax.JsonText t) (s : Text) :
    (∀ t, (repairM3BracketsWithTrace parses s).1 = some t → (kept s).Sublist t) ↔ KeepsAll s := by
  rw [repair_result]
  unfold KeepsAll
  by_cases hf : isFragment s = true
  · simp [hf]
  · rw [if_neg hf]
    have hsafe := separated_safe s
    have hwalk := hsafe.walk
    cases hb : bracketWalk (braced s) with
    | going m st =>
      refine ⟨fun _ => Or.inr (by simp), fun _ t ht => ?_⟩
      rw [hb] at hwalk
      cases hs : bracketWalk (separated s) with
      | refused => rw [hs] at hwalk; exact False.elim hwalk
      | stopped st' t' => rw [hs] at hwalk; exact False.elim hwalk
      | going m' st' =>
        by_cases hm : m' = .code
        · subst hm
          obtain ⟨r, h1, h2⟩ := iterative_going hparses defaultBracketRepairMaxIters _ _ none hs
            (Or.inl rfl)
          obtain rfl := Option.some.inj (h1.symm.trans ht)
          rw [kept_sublist_iff, h2]
          exact ((kept_braced s).trans hsafe.kept).trans (List.sublist_append_left _ _)
        · have hrep := repairOne_going hs
          rw [if_pos hm] at hrep
          rw [defaultBracketRepairMaxIters, repairBracketsIterative, hrep] at ht
          cases ht
    | refused =>
      refine ⟨fun _ => Or.inr (by simp), fun _ t ht => ?_⟩
      rw [hb] at hwalk
      cases hs : bracketWalk (separated s) with
      | going m' st' => rw [hs] at hwalk; exact False.elim hwalk
      | stopped st' t' => rw [hs] at hwalk; exact False.elim hwalk
      | refused =>
        rw [defaultBracketRepairMaxIters, repairBracketsIterative, repairOne_refused hs] at ht
        cases ht
    | stopped st t =>
      rw [hb] at hwalk
      cases hs : bracketWalk (separated s) with
      | going m' st' => rw [hs] at hwalk; exact False.elim hwalk
      | refused => rw [hs] at hwalk; exact False.elim hwalk
      | stopped st' u =>
        rw [hs] at hwalk
        obtain ⟨rfl, hq, hk⟩ := hwalk
        obtain ⟨p, top, o, ho, hne, hp, hr⟩ := bracketWalk_stopped hs
        obtain ⟨r, h1, h2⟩ := iterative_stopped hparses 2 ho hne hp hr
        have hiff := keeps_stopped hb ho hne hq hk h2
        have hres : (repairBracketsIterative parses defaultBracketRepairMaxIters (separated s)
            none).1 = some r := h1
        constructor
        · intro h
          right
          rintro st₁ t₁ ⟨⟩
          exact hiff.mp ((kept_sublist_iff _ _).mp (h r hres))
        · rintro (h | h) t' ht'
          · exact absurd h hf
          · obtain rfl := Option.some.inj (hres.symm.trans ht')
            exact (kept_sublist_iff _ _).mpr (hiff.mpr (h _ _ rfl))

/-- a parser that knows one text -/
def parsesOnly (s t : Text) : Bool := t = s

theorem parsesOnly_list : ∀ t, parsesOnly "[1]".toList t = true → JsonSyntax.JsonText t := by
  intro t ht
  obtain rfl : t = "[1]".toList := of_decide_eq_true ht
  have one : JsonSyntax.Derives .value ['1'] :=
    .scalar (Or.inr (Or.inr (Or.inr ⟨[], ['1'], [], [], Or.inl rfl,
      Or.inr ⟨⟨by decide, List.all_eq_true.mp rfl⟩, by decide⟩, Or.inl rfl, Or.inl rfl, rfl⟩)))
  have none : JsonSyntax.Ws [] := by simp [JsonSyntax.Ws]
  exact ⟨[], "[1]".toList, [], none, .arr (.element none one none), none, rfl⟩

/-- a truncated list gets its closer -/
theorem repair_keeps_truncated :
    (repairM3BracketsWithTrace (parsesOnly "[1]".toList) "[1".toList).1 = some "[1]".toList ∧
      ((∀ t, (repairM3BracketsWithTrace (parsesOnly "[1]".toList) "[1".toList).1 = some t →
        (kept "[1".toList).Sublist t) ↔ KeepsAll "[1".toList) :=
  ⟨by decide, repair_keeps_iff (parsesOnly "[1]".toList) parsesOnly_list "[1".toList⟩

/-- everything behind the first closer that does not match is gone -/
theorem repair_drops_tail :
    (repairM3BracketsWithTrace (parsesOnly "\x7b\"a\":[1]\x7d".toList)
        "\x7b\"a\":[1\x7d,\"b\":2\x7d".toList).1 = some "\x7b\"a\":[1]\x7d".toList ∧
      ¬ (kept "\x7b\"a\":[1\x7d,\"b\":2\x7d".toList).Sublist "\x7b\"a\":[1]\x7d".toList := by
  decide

end Moagan
