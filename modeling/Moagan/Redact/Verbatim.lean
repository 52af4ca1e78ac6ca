import Moagan.Redact.Writer

/-!
# The writer under a policy that redacts nothing

A complete line goes through `from_utf8(..).unwrap_or("")`, and the rest of the buffer goes on as it
is when it is no text.

* `lineOut_idle`          a line that is no text is lost
* `stream_verbatim_iff`   the sink gets the bytes exactly when all complete lines are text
-/

namespace Moagan.Redact

open Lines

/-! ## bytes that are text -/

theorem utf8_of_fromUtf8 {bytes : List UInt8} {text : List Char} (h : fromUtf8 bytes = some text) :
    utf8 text = bytes := by
  obtain ⟨chars, hdecode, rfl⟩ := Option.map_eq_some_iff.mp h
  have hvalid : bytes.toByteArray.utf8Decode?.isSome := by
    rw [hdecode]
    rfl
  obtain ⟨l, hl⟩ := ByteArray.isSome_utf8Decode?_iff.mp hvalid
  have hencode : bytes.toByteArray = (utf8 l).toByteArray := hl
  have hbytes : bytes = utf8 l := by
    have hlist := congrArg (fun b : ByteArray => b.data.toList) hencode
    simpa using hlist
  rw [hbytes, fromUtf8_utf8] at h
  rw [hbytes, Option.some.inj h]

/-- `from_utf8(..).is_ok()` -/
def isText (bytes : List UInt8) : Bool := (fromUtf8 bytes).isSome

/-! ## the lines -/

section
variable {U : Unicode} {policy : RedactPolicy} {surface : Surface}

/-- the policy redacts nothing on the surface -/
def RedactsNothing (U : Unicode) (policy : RedactPolicy) (surface : Surface) : Prop :=
  ∀ text, apply U policy surface text = text

theorem redactsNothing_of_disabled (h : policy.isEnabled surface = false) :
    RedactsNothing U policy surface := apply_disabled h

theorem lineOut_idle (hidle : RedactsNothing U policy surface) (line : List UInt8) :
    lineOut U policy surface line = if isText line then line else [] := by
  unfold lineOut isText
  rw [hidle]
  cases htext : fromUtf8 line with
  | none => rfl
  | some text => exact utf8_of_fromUtf8 htext

theorem restOut_idle (hidle : RedactsNothing U policy surface) (rest : List UInt8) :
    restOut U policy surface rest = rest := by
  unfold restOut
  cases htext : fromUtf8 rest with
  | none => rfl
  | some text =>
    show utf8 (apply U policy surface text) = rest
    rw [hidle]
    exact utf8_of_fromUtf8 htext

/-- of lines that are not empty none may be left out -/
theorem flatMap_kept_iff {keep : List UInt8 → Bool} {cs : List (List UInt8)}
    (hne : ∀ c ∈ cs, c ≠ []) : cs.flatMap (fun c => if keep c then c else []) = cs.flatten ↔
      ∀ c ∈ cs, keep c = true := by
  have hlen : ∀ cs : List (List UInt8),
      (cs.flatMap fun c => if keep c then c else []).length ≤ cs.flatten.length := by
    intro cs
    induction cs with
    | nil => exact Nat.le_refl _
    | cons c cs ih =>
      rw [List.flatMap_cons, List.flatten_cons, List.length_append, List.length_append]
      cases keep c with
      | true => exact Nat.add_le_add_left ih _
      | false =>
        show 0 + _ ≤ _
        omega
  induction cs with
  | nil => exact iff_of_true rfl fun _ h => absurd h List.not_mem_nil
  | cons c cs ih =>
    have ih := ih fun c' h => hne c' (List.mem_cons_of_mem _ h)
    rw [List.flatMap_cons, List.flatten_cons, List.forall_mem_cons]
    cases hkeep : keep c with
    | true =>
      show c ++ _ = c ++ _ ↔ _
      rw [List.append_right_inj]
      exact ih.trans (and_iff_right rfl).symm
    | false =>
      refine iff_of_false (fun heq => ?_) fun h => absurd h.1 Bool.false_ne_true
      have hpos := List.length_pos_iff.mpr (hne c List.mem_cons_self)
      have hshort := hlen cs
      have hsum := congrArg List.length heq
      rw [List.length_append, List.length_append] at hsum
      have hzero : (if false = true then c else []).length = 0 := rfl
      omega

/-- the lines that a line end closes -/
def completeLines (bytes : List UInt8) : List (List UInt8) := (lines newline bytes).dropLast

/-- **The sink gets the bytes exactly when all complete lines are text.** -/
theorem stream_verbatim_iff (hidle : RedactsNothing U policy surface)
    (chunks : List (List UInt8)) :
    stream U policy surface chunks = some chunks.flatten ↔
      ∀ line ∈ completeLines chunks.flatten, isText line = true := by
  obtain ⟨cs, o, hlines, hstream⟩ := stream_lines (U := U) policy surface chunks
  have hne : ∀ c ∈ cs, c ≠ [] := by
    obtain ⟨cs', o', heq, hclosed, -⟩ := lined_lines (d := newline) chunks.flatten
    rw [hlines] at heq
    obtain ⟨rfl, -⟩ := List.append_inj' heq rfl
    intro c hc hnil
    obtain ⟨b, hb, -⟩ := hclosed c hc
    rw [hnil] at hb
    exact absurd hb.symm (List.append_ne_nil_of_right_ne_nil b (List.cons_ne_nil _ _))
  have hflat : chunks.flatten = cs.flatten ++ o := by
    conv_lhs => rw [← lines_flatten (d := newline) chunks.flatten, hlines]
    rw [List.flatten_append, List.flatten_cons, List.flatten_nil, List.append_nil]
  have hcomplete : completeLines chunks.flatten = cs := by
    rw [completeLines, hlines, List.dropLast_concat]
  have hline : lineOut U policy surface = fun line => if isText line then line else [] :=
    funext (lineOut_idle hidle)
  rw [hstream, hcomplete, restOut_idle hidle, hflat, hline, Option.some_inj,
    List.append_left_inj]
  exact flatMap_kept_iff hne

end

/-- a line with a byte that begins no character -/
def brokenLine : List UInt8 := [0xFF, 10]

/-- the line is lost -/
theorem stream_loses_bytes : ¬ ∀ (U : Unicode) (policy : RedactPolicy) (surface : Surface)
    (chunks : List (List UInt8)), RedactsNothing U policy surface →
      stream U policy surface chunks = some chunks.flatten := by
  intro h
  have hidle : RedactsNothing ⟨fun _ => false, fun _ => false⟩ .allowAll .telemetry :=
    redactsNothing_of_disabled rfl
  exact absurd (h _ .allowAll .telemetry [brokenLine] hidle) (by decide +kernel)

/-- the same byte without a line end goes on -/
theorem stream_verbatim_iff_rest :
    stream ⟨fun _ => false, fun _ => false⟩ .allowAll .telemetry [[0xFF]] = some [0xFF] ↔
      ∀ line ∈ completeLines [0xFF], isText line = true :=
  stream_verbatim_iff (redactsNothing_of_disabled rfl) [[0xFF]]

end Moagan.Redact
