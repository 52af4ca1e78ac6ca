import Moagan.Json.Loss
import Moagan.Lib.JsonCut

/-!
# The repair of a text cut behind a value

* `CutBehindValue`      a prefix of a JSON text that ends behind a complete value
* `separatorPasses_reads`  what the machine reads is left alone by the passes before the brackets
* `repairM3_truncated`  the chain appends the closers that are due and nothing else
-/

namespace Moagan
open Scanning JsonSyntax

/-- the text `p` is a prefix of the JSON text `t` and ends behind a complete value, inside the
containers `st` (innermost first) -/
structure CutBehindValue (t p : Text) (st : List JsonSyntax.Frame) : Prop where
  whole : JsonText t
  cut : p <+: t
  value : ∃ ts, render ts = p ∧ Reads ts ⟨st, .done⟩

/-! ## the passes before the brackets -/

section
variable {ts : List Tok} {q : State} (hr : Reads ts q)
include hr

theorem separatorPasses_reads (evs : List RepairTrace) :
    separatorPasses (render ts, evs) = (render ts, evs) := by
  simp [separatorPasses, applyPass, repairStrayCommaAfterKey_reads hr, repairMissingColon_reads hr,
    repairMissingSeparators_reads hr]

/-- with a container open the text does not start with a key -/
theorem repairMissingOpenBrace_reads (hopen : q.stack ≠ []) :
    repairMissingOpenBrace (render ts) = none := by
  rcases run_opening ts hr.valid hr.run with ⟨-, rfl⟩ | rfl | ⟨ws, t, us, q₁, rfl, hw, ht, -⟩
  · exact absurd rfl hopen
  · exact absurd rfl hopen
  · rw [render_append, render_cons]
    rcases ht with rfl | rfl
    · exact repairMissingOpenBrace_none (Or.inl rfl) (render us) hw
    · exact repairMissingOpenBrace_none (Or.inr rfl) (render us) hw

theorem going_reads : bracketWalk (render ts) = .going .code (q.stack.map opener) :=
  bracketWalk_of_walk (bracketWalk_reads hr)

/-- **From what the machine reads the chain goes to the loop over the brackets.** -/
theorem repairM3_reads (parses : Text → Bool) (hopen : q.stack ≠ []) :
    repairM3BracketsWithTrace parses (render ts) =
      repairBracketsIterative parses defaultBracketRepairMaxIters (render ts) none := by
  have hb := repairMissingOpenBrace_reads hr hopen
  have hf : isFragment (render ts) = false := by simp [isFragment, hb]
  have ho : applyPass .openBrace repairMissingOpenBrace (render ts, []) = (render ts, []) := by
    simp [applyPass, hb]
  rw [repairM3BracketsWithTrace, hf, ho, separatorPasses_reads hr]
  rfl

end

/-! ## the closers -/

theorem closer_opener (f : JsonSyntax.Frame) : closer (opener f) = closing f := by
  cases f <;> rfl

/-- **The repair of a truncation is minimal**: behind a complete value, or behind the comma that
follows it, with one to three containers open, the chain drops the comma, appends the closers of
these containers, innermost first, and records each closer. -/
theorem repairM3_truncated {parses : Text → Bool} (hparses : ∀ t, parses t = true → JsonText t)
    {t p u : Text} {st : List JsonSyntax.Frame} (h : CutBehindValue t p st)
    (hopen : 1 ≤ st.length) (hmax : st.length ≤ 3) (hu : u <+: t) (hcut : u = p ∨ u = p ++ [',']) :
    (repairM3BracketsWithTrace parses u).1 = some (p ++ st.map closing) ∧
      (repairM3BracketsWithTrace parses u).2.map RepairTrace.kind =
        List.replicate st.length .bracket := by
  obtain ⟨ts, rfl, hr⟩ := h.value
  have hne : st ≠ [] := by
    intro e
    rw [e] at hopen
    exact absurd hopen (by decide)
  have hlast := getLast_reads hr rfl
  obtain ⟨us, pos, rfl, hus, hpop⟩ : ∃ us pos, render us = u ∧ Reads us ⟨st, pos⟩ ∧
      popComma u = render ts := by
    rcases hcut with rfl | rfl
    · exact ⟨ts, .done, rfl, hr, if_neg hlast⟩
    · obtain ⟨pos, hc⟩ := hr.comma hne
      refine ⟨ts ++ [.comma], pos, ?_, hc, ?_⟩
      · rw [render_append]
        rfl
      · simp [popComma]
  obtain ⟨evs, hk, he⟩ := iterative_closes hparses defaultBracketRepairMaxIters _ _ none
    (going_reads hus) (Or.inl rfl)
  have hclosers : ((st.map opener).map closer).take defaultBracketRepairMaxIters = st.map closing := by
    rw [List.map_map, List.take_of_length_le (by rw [List.length_map]; exact hmax)]
    exact List.map_congr_left fun f _ => closer_opener f
  have hmin : min defaultBracketRepairMaxIters (st.map opener).length = st.length := by
    rw [List.length_map]
    show min 3 st.length = st.length
    omega
  have hclose : closeWith (render us) (st.map closing) = render ts ++ st.map closing := by
    rw [closeWith, if_neg (by simpa using hne), hpop]
  rw [repairM3_reads hus parses hne, he]
  refine ⟨?_, ?_⟩
  · show some (closeWith (render us) _) = _
    rw [hclosers, hclose]
  · show evs.map RepairTrace.kind = _
    rw [hk, hmin]

/-- the tokens of `{"a": [1`, with two containers open -/
theorem reads_sample : ∃ ts, render ts = "\x7b\"a\": [1".toList ∧ Reads ts ⟨[.arr, .obj], .done⟩ := by
  refine ⟨[.lbrace, .str ['a'], .colon, .ws ' ', .lbrack, .scalar ['1']], rfl, ?_, rfl⟩
  have hstr : StrBody ['a'] := .plain (by decide) (by decide) (by decide) .nil
  have hnum : Scalar ['1'] := Or.inr (Or.inr (Or.inr ⟨[], ['1'], [], [], Or.inl rfl,
    Or.inr ⟨⟨by decide, List.all_eq_true.mp rfl⟩, by decide⟩, Or.inl rfl, Or.inl rfl, rfl⟩))
  simp only [valid_cons]
  exact ⟨trivial, hstr, trivial, rfl, trivial, hnum, valid_nil⟩

theorem repairM3_truncated_sample :
    (repairM3BracketsWithTrace (parsesOnly "\x7b\"a\": [1]\x7d".toList) "\x7b\"a\": [1".toList).1 =
        some ("\x7b\"a\": [1".toList ++ [JsonSyntax.Frame.arr, .obj].map closing) ∧
      (repairM3BracketsWithTrace (parsesOnly "\x7b\"a\": [1]\x7d".toList)
        "\x7b\"a\": [1".toList).2.map RepairTrace.kind =
          List.replicate [JsonSyntax.Frame.arr, .obj].length .bracket := by
  have hws : Ws [] := fun c hc => absurd hc (by simp)
  have hwhole : JsonText "\x7b\"a\": [1]\x7d".toList :=
    ⟨[], _, [], hws, derives_sample, hws, rfl⟩
  have hparses : ∀ t, parsesOnly "\x7b\"a\": [1]\x7d".toList t = true → JsonText t := by
    intro t ht
    obtain rfl : t = "\x7b\"a\": [1]\x7d".toList := of_decide_eq_true ht
    exact hwhole
  have hcut : "\x7b\"a\": [1".toList <+: "\x7b\"a\": [1]\x7d".toList := ⟨"]\x7d".toList, rfl⟩
  exact repairM3_truncated hparses ⟨hwhole, hcut, reads_sample⟩ (by decide) (by decide) hcut
    (Or.inl rfl)

end Moagan
