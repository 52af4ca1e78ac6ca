import Moagan.Json.Repair

/-!
# What the separator passes can do to a text

* `Edited l o`    `o` comes from `l` by inserting commas in code, inserting colons behind closing
                  quotes, dropping commas and whitespace of code, and dropping a comma again
* `strayComma_edited`, `missingColon_edited`, `separators_edited`   what the passes do
* `kept`          the characters that are neither whitespace nor commas: `Edited.kept_sublist`
-/

namespace Moagan
open Scanning

/-! ## the characters that must not get lost -/

def isKept (c : Char) : Bool := !isWhitespace c && c ≠ ','

def kept (t : Text) : Text := t.filter isKept

@[simp] theorem kept_nil : kept [] = [] := rfl

@[simp] theorem kept_append (a b : Text) : kept (a ++ b) = kept a ++ kept b := List.filter_append ..

theorem kept_cons (c : Char) (t : Text) : kept (c :: t) = kept [c] ++ kept t := by
  rw [← kept_append]; rfl

theorem kept_of_isKept {c : Char} (h : isKept c = true) : kept [c] = [c] := by
  simp [kept, h]

theorem kept_of_not {c : Char} (h : isKept c = false) : kept [c] = [] := by
  simp [kept, h]

theorem kept_sublist (t : Text) : (kept t).Sublist t := List.filter_sublist

/-- being part of a text and being part of what is kept of it are the same -/
theorem kept_sublist_iff (s t : Text) : (kept s).Sublist t ↔ (kept s).Sublist (kept t) := by
  constructor
  · intro h
    have h' : (kept (kept s)).Sublist (kept t) := h.filter isKept
    rwa [show kept (kept s) = kept s by simp [kept]] at h'
  · exact fun h => h.trans (kept_sublist t)

theorem count_kept {c : Char} (h : isKept c = true) (t : Text) : (kept t).count c = t.count c :=
  List.count_filter h

/-! ## edits -/

inductive Edited : Text → Text → Prop
  | nil : Edited [] []
  | keep {l o : Text} (c : Char) : Edited l o → Edited (l ++ [c]) (o ++ [c])
  | comma {l o : Text} : lexAfter .code l = .code → Edited l o → Edited l (o ++ [','])
  | colon {l o : Text} : l.getLast? = some '"' → lexAfter .code l = .code → Edited l o →
      Edited l (o ++ [':'])
  | drop {l o : Text} {c : Char} : lexAfter .code l = .code → isKept c = false → Edited l o →
      Edited (l ++ [c]) o
  | pop {l o : Text} : lexAfter .code l = .code → Edited l (o ++ [',']) → Edited l o

/-- **No edit drops a character that is neither whitespace nor a comma.** -/
theorem Edited.kept_sublist {l o : Text} (h : Edited l o) : (kept l).Sublist (kept o) := by
  induction h with
  | nil => exact List.Sublist.refl _
  | keep c _ ih => rw [kept_append, kept_append]; exact ih.append (List.Sublist.refl _)
  | comma _ _ ih => rw [kept_append]; exact ih.trans (List.sublist_append_left _ _)
  | colon _ _ _ ih => rw [kept_append]; exact ih.trans (List.sublist_append_left _ _)
  | drop _ hc _ ih => rw [kept_append, kept_of_not hc, List.append_nil]; exact ih
  | pop _ _ ih =>
    rw [kept_append, show kept [','] = [] from rfl, List.append_nil] at ih
    exact ih

/-- the characters that no edit touches are as many as before -/
theorem Edited.count {l o : Text} (h : Edited l o) {c : Char} (hc : isKept c = true) (hc' : c ≠ ':') :
    l.count c = o.count c := by
  have hcomma : c ≠ ',' := by rintro rfl; cases hc
  induction h with
  | nil => rfl
  | keep d _ ih => rw [List.count_append, List.count_append, ih]
  | comma _ _ ih => rw [List.count_append, ih, List.count_singleton, if_neg (by simpa using hcomma.symm)]; rfl
  | colon _ _ _ ih => rw [List.count_append, ih, List.count_singleton, if_neg (by simpa using hc'.symm)]; rfl
  | @drop _ _ d _ hd _ ih =>
    have hne : c ≠ d := by rintro rfl; rw [hc] at hd; cases hd
    rw [List.count_append, ih, List.count_singleton, if_neg (by simpa using hne.symm)]; rfl
  | pop _ _ ih =>
    rw [List.count_append, List.count_singleton, if_neg (by simpa using hcomma.symm)] at ih
    exact ih

/-! ## the passes edit -/

/-- what the passes keep: the text written is an edit of the text read -/
def Edits {ε : Type} (l : Text) (s : Scan ε) : Prop := Edited l s.out ∧ s.lex = lexAfter .code l

theorem Edits.push {ε : Type} {l : Text} {s : Scan ε} (h : Edits l s) (c : Char) :
    Edits (l ++ [c]) (s.push c) := by
  refine ⟨h.1.keep c, ?_⟩
  rw [lexAfter_snoc, ← h.2]; rfl

theorem Edits.aux {ε : Type} {l : Text} {s : Scan ε} (h : Edits l s) (a : ε) :
    Edits l { s with aux := a } := h

/-- drop a comma or whitespace of code -/
theorem Edits.drop {ε : Type} {l : Text} {s : Scan ε} {c : Char} (h : Edits l s)
    (hl : s.lex = .code) (hc : isKept c = false) : Edits (l ++ [c]) s := by
  have hcode : lexAfter .code l = .code := by rw [← h.2, hl]
  refine ⟨h.1.drop hcode hc, ?_⟩
  have hq : c ≠ '"' := by rintro rfl; cases hc
  rw [lexAfter_snoc, hcode, Lex.next_code_of_ne hq, hl]

theorem not_isKept_ws {c : Char} (h : isWhitespace c = true) : isKept c = false := by
  simp [isKept, h]

theorem strayComma_step (l : Text) (s : Scan StrayComma) (c : Char) (rest : Text)
    (h : Edits l s) : Edits (l ++ [c]) (strayCommaStep s c rest) := by
  unfold strayCommaStep
  by_cases hl : s.lex ≠ .code
  · rw [if_pos hl]; exact h.push c
  · have hl' : s.lex = .code := by simpa using hl
    rw [if_neg hl]
    by_cases h1 : s.aux.skipping ∧ isWhitespace c
    · rw [if_pos h1]; exact h.drop hl' (not_isKept_ws h1.2)
    · rw [if_neg h1]
      by_cases h2 : c = ',' ∧ nextSolid rest = some ':'
      · rw [if_pos h2, h2.1]
        exact (h.aux _).drop hl' rfl
      · rw [if_neg h2]
        exact (h.aux _).push c

theorem strayComma_edited {s o : Text} (h : repairStrayCommaAfterKey s = some o) : Edited s o := by
  unfold repairStrayCommaAfterKey at h
  have hI := walk_inv strayCommaStep Edits strayComma_step s [] ⟨.code, [], ⟨false, false⟩⟩
    ⟨.nil, rfl⟩
  simp only at h
  split at h
  · exact Option.some.inj h ▸ hI.1
  · cases h

theorem missingColon_step (l : Text) (s : Scan Bool) (c : Char) (rest : Text)
    (h : Edits l s) : Edits (l ++ [c]) (missingColonStep s c rest) := by
  unfold missingColonStep
  have hp := h.push c
  by_cases h1 : s.lex = .str ∧ c = '"' ∧ (nextSolid rest = some '[' ∨ nextSolid rest = some '{')
  · rw [if_pos h1]
    obtain ⟨hl, rfl, _⟩ := h1
    refine ⟨Edited.colon (by simp) ?_ hp.1, hp.2⟩
    rw [lexAfter_snoc, ← h.2, hl]; rfl
  · rw [if_neg h1]; exact hp

theorem missingColon_edited {s o : Text} (h : repairMissingColon s = some o) : Edited s o := by
  unfold repairMissingColon at h
  have hI := walk_inv missingColonStep Edits missingColon_step s [] ⟨.code, [], false⟩ ⟨.nil, rfl⟩
  simp only at h
  split at h
  · exact Option.some.inj h ▸ hI.1
  · cases h

/-- a comma or a colon behind a closing quote -/
theorem afterLiteral_edits {l : Text} {s : Scan Separators} (rest : Text)
    (h : Edits (l ++ ['"']) s) (hl : s.lex = .code) : Edits (l ++ ['"']) (afterLiteral s rest) := by
  have hcode : lexAfter .code (l ++ ['"']) = .code := by rw [← h.2, hl]
  unfold afterLiteral
  cases nextSolid rest with
  | none => exact h.aux _
  | some next =>
    simp only
    generalize hw : (if expectColon (markValue s.aux.stack) next = true then ':' else ',') = want
    split
    · refine ⟨?_, h.2⟩
      have hwant : want = ':' ∨ want = ',' := by
        rw [← hw]; split <;> simp
      rcases hwant with rfl | rfl
      · exact Edited.colon (by simp) hcode h.1
      · exact Edited.comma hcode h.1
    · split
      · exact h.aux _
      · exact h.aux _

theorem separator_step (l : Text) (s : Scan Separators) (c : Char) (rest : Text)
    (h : Edits l s) : Edits (l ++ [c]) (separatorStep s c rest) := by
  unfold separatorStep
  by_cases hl : s.lex ≠ .code
  · rw [if_pos hl]
    by_cases h1 : s.lex = .str ∧ c = '"'
    · rw [if_pos h1]
      obtain ⟨hs, rfl⟩ := h1
      exact afterLiteral_edits rest (h.push _) (by rw [Scan.push_lex, hs]; rfl)
    · rw [if_neg h1]; exact h.push c
  · have hl' : s.lex = .code := by simpa using hl
    have hcode : lexAfter .code l = .code := by rw [← h.2, hl']
    rw [if_neg hl]
    split
    · exact (h.aux _).push c
    split
    · exact (h.aux _).push c
    split
    · split
      · rename_i hc
        have e : s.out = s.out.dropLast ++ [','] := (List.dropLast_append_getLast? _ hc).symm
        have h' : Edits l { s with out := s.out.dropLast } :=
          ⟨Edited.pop hcode (e ▸ h.1), h.2⟩
        exact (h'.aux _).push c
      · exact (h.aux _).push c
    split
    · exact (h.aux _).push c
    split
    · exact (h.aux _).push c
    split
    · have h' : Edits l { s with out := s.out ++ [','] } := ⟨Edited.comma hcode h.1, h.2⟩
      exact (h'.aux _).push c
    · exact h.push c

theorem separators_edited {s o : Text} (h : repairMissingSeparators s = some o) : Edited s o := by
  unfold repairMissingSeparators at h
  have hI := walk_inv separatorStep Edits separator_step s [] ⟨.code, [], ⟨[], false⟩⟩ ⟨.nil, rfl⟩
  simp only at h
  split at h
  · exact Option.some.inj h ▸ hI.1
  · cases h

end Moagan
