import Moagan.Lib.Separated
import Moagan.Redact.Apply

/-!
# The redacting writer

* `RedactWriter`      bytes come in, every complete line goes on redacted, the rest waits
* `stream_lines`      however the bytes are split, the lines go on one by one
* `stream_text`       and for a valid text each of them as `apply` has it
-/

namespace Moagan.Redact

open Lines

/-! ## UTF-8 -/

def utf8 (text : List Char) : List UInt8 := text.flatMap String.utf8EncodeChar

def fromUtf8 (bytes : List UInt8) : Option (List Char) :=
  bytes.toByteArray.utf8Decode?.map Array.toList

theorem fromUtf8_utf8 (text : List Char) : fromUtf8 (utf8 text) = some text := by
  have h : (utf8 text).toByteArray.utf8Decode? = some text.toArray := List.utf8Decode?_utf8Encode
  rw [fromUtf8, h]
  rfl

theorem utf8_append (s t : List Char) : utf8 (s ++ t) = utf8 s ++ utf8 t := List.flatMap_append

theorem utf8_inj {s t : List Char} (h : utf8 s = utf8 t) : s = t := by
  have heq := fromUtf8_utf8 s
  rw [h, fromUtf8_utf8] at heq
  exact (Option.some.inj heq).symm

theorem utf8_flatten (ls : List (List Char)) : utf8 ls.flatten = (ls.map utf8).flatten := by
  induction ls with
  | nil => rfl
  | cons l ls ih => rw [List.flatten_cons, utf8_append, ih, List.map_cons, List.flatten_cons]

/-- `b'\n'` -/
def newline : UInt8 := 10

theorem mem_utf8_newline {text : List Char} (h : newline ∈ utf8 text) : '\n' ∈ text := by
  have hmem : newline ∈ Separated.bytes (String.ofList text) := by
    rwa [Separated.bytes, String.toList_ofList]
  have hascii := Separated.mem_bytes_ascii (by decide) hmem
  rwa [String.toList_ofList] at hascii

/-- the lines of the bytes are those of the text -/
theorem lines_utf8 (text : List Char) :
    lines newline (utf8 text) = (lines '\n' text).map utf8 := by
  have hnewline : utf8 ['\n'] = [newline] := rfl
  induction text using lines_induction (d := '\n') with
  | last o h => rw [lines_open h, lines_open fun hm => h (mem_utf8_newline hm)]; rfl
  | line b t h ih =>
    have heq : utf8 (b ++ '\n' :: t) = utf8 b ++ newline :: utf8 t := by
      rw [utf8_append, ← List.singleton_append, utf8_append, hnewline]
      rfl
    rw [heq, lines_closed fun hm => h (mem_utf8_newline hm), lines_closed h, ih, List.map_cons,
      utf8_append, hnewline]

/-! ## the writer -/

/-- `inner` is what the sink has got -/
structure RedactWriter where
  inner : Option (List UInt8)
  policy : RedactPolicy
  surface : Surface
  buffer : List UInt8

def RedactWriter.new (inner : List UInt8) (policy : RedactPolicy) (surface : Surface) :
    RedactWriter := ⟨some inner, policy, surface, []⟩

/-- `inner.write_all`; the sink takes all of it -/
def RedactWriter.writeAll (w : RedactWriter) (bytes : List UInt8) : RedactWriter :=
  { w with inner := w.inner.map (· ++ bytes) }

section
variable (U : Unicode)

/-- the rounds of the loop of `write`, each of which takes a byte of the buffer at least -/
def RedactWriter.writeLines : ℕ → RedactWriter → RedactWriter
  | 0, w => w
  | n + 1, w =>
    match w.buffer.findIdx? (· == newline) with
    | none => w
    | some pos =>
      let line := w.buffer.take (pos + 1)
      let text := (fromUtf8 line).getD []
      let redacted := apply U w.policy w.surface text
      writeLines n ({ w with buffer := w.buffer.drop (pos + 1) }.writeAll (utf8 redacted))

def RedactWriter.write (w : RedactWriter) (buf : List UInt8) : RedactWriter × ℕ :=
  let w := { w with buffer := w.buffer ++ buf }
  (w.writeLines U w.buffer.length, buf.length)

def RedactWriter.flushBuffer (w : RedactWriter) : RedactWriter :=
  if w.inner.isNone || w.buffer.isEmpty then w
  else
    match fromUtf8 w.buffer with
    | none => { w.writeAll w.buffer with buffer := [] }
    | some text => { w.writeAll (utf8 (apply U w.policy w.surface text)) with buffer := [] }

def RedactWriter.flush (w : RedactWriter) : RedactWriter := w.flushBuffer U

/-- the sink, behind a flush -/
def RedactWriter.intoInner (w : RedactWriter) : Option (List UInt8) := (w.flush U).inner

/-- what the sink has got when `chunks` have been written and flushed -/
def stream (policy : RedactPolicy) (surface : Surface) (chunks : List (List UInt8)) :
    Option (List UInt8) :=
  let written := chunks.foldl (fun w buf => (RedactWriter.write U w buf).1)
    (RedactWriter.new [] policy surface)
  (written.flush U).inner

/-! ## line by line -/

/-- what goes on for a complete line -/
def lineOut (policy : RedactPolicy) (surface : Surface) (line : List UInt8) : List UInt8 :=
  utf8 (apply U policy surface ((fromUtf8 line).getD []))

/-- what goes on for the rest -/
def restOut (policy : RedactPolicy) (surface : Surface) (rest : List UInt8) : List UInt8 :=
  match fromUtf8 rest with
  | none => rest
  | some text => utf8 (apply U policy surface text)

variable {U}

theorem writeAll_nil (w : RedactWriter) : w.writeAll [] = w := by
  have hid : (fun bytes : List UInt8 => bytes ++ []) = id := funext List.append_nil
  rw [RedactWriter.writeAll, hid, Option.map_id]
  rfl

theorem writeAll_writeAll (w : RedactWriter) (a b : List UInt8) :
    (w.writeAll a).writeAll b = w.writeAll (a ++ b) := by
  have hcomp : (fun bytes : List UInt8 => bytes ++ b) ∘ (fun bytes => bytes ++ a)
      = fun bytes => bytes ++ (a ++ b) := funext fun _ => List.append_assoc ..
  simp only [RedactWriter.writeAll, Option.map_map, hcomp]

theorem writeLines_open {w : RedactWriter} (h : newline ∉ w.buffer) (n : ℕ) :
    w.writeLines U n = w := by
  have hnone : w.buffer.findIdx? (· == newline) = none := by
    rw [List.findIdx?_eq_none_iff]
    intro c hc
    exact beq_eq_false_iff_ne.mpr fun heq => h (heq ▸ hc)
  cases n with
  | zero => rfl
  | succ n => rw [RedactWriter.writeLines, hnone]

theorem writeLines_closed {w : RedactWriter} {b t : List UInt8} (h : newline ∉ b)
    (hw : w.buffer = b ++ newline :: t) (n : ℕ) : w.writeLines U (n + 1)
      = ({ w with buffer := t }.writeAll (lineOut U w.policy w.surface (b ++ [newline]))).writeLines
          U n := by
  have heq : w.buffer = (b ++ [newline]) ++ t := by rw [hw, List.append_assoc]; rfl
  have hlen : (b ++ [newline]).length = b.length + 1 := by simp
  have hpos : w.buffer.findIdx? (· == newline) = some b.length := by
    rw [hw, List.findIdx?_append, List.findIdx?_cons]
    have hnone : b.findIdx? (· == newline) = none := by
      rw [List.findIdx?_eq_none_iff]
      intro c hc
      exact beq_eq_false_iff_ne.mpr fun heq => h (heq ▸ hc)
    rw [hnone]
    simp
  have htake : w.buffer.take (b.length + 1) = b ++ [newline] := by
    rw [heq, ← hlen, List.take_left]
  have hdrop : w.buffer.drop (b.length + 1) = t := by rw [heq, ← hlen, List.drop_left]
  rw [RedactWriter.writeLines, hpos]
  show RedactWriter.writeLines U n (RedactWriter.writeAll { w with buffer := w.buffer.drop _ }
    (utf8 (apply U w.policy w.surface ((fromUtf8 (w.buffer.take _)).getD [])))) = _
  rw [htake, hdrop]
  rfl

/-- the complete lines of the buffer go on -/
theorem writeLines_lines {n : ℕ} {w : RedactWriter} {cs : List (List UInt8)} {o : List UInt8}
    (hn : w.buffer.length ≤ n) (h : lines newline w.buffer = cs ++ [o]) :
    w.writeLines U n
      = { w with buffer := o }.writeAll (cs.flatMap (lineOut U w.policy w.surface)) := by
  obtain ⟨inner, policy, surface, buffer⟩ := w
  induction buffer using lines_induction (d := newline) generalizing n inner cs with
  | last u hu =>
    rw [lines_open hu] at h
    have h : [] ++ [u] = cs ++ [o] := h
    obtain ⟨rfl, ho⟩ := List.append_inj' h rfl
    rw [writeLines_open hu, ← (List.cons.inj ho).1, List.flatMap_nil, writeAll_nil]
  | line b t hnot ih =>
    have hlen : (b ++ newline :: t).length ≤ n := hn
    rw [List.length_append, List.length_cons] at hlen
    obtain ⟨n, rfl⟩ : ∃ k, n = k + 1 := ⟨n - 1, by omega⟩
    rw [lines_closed hnot] at h
    cases cs with
    | nil =>
      obtain ⟨_, hnil⟩ := List.cons.inj h
      obtain ⟨cs', o', hlined, _⟩ := lined_lines (d := newline) t
      rw [hlined] at hnil
      exact absurd hnil (by simp)
    | cons c cs =>
      obtain ⟨hc, hrest⟩ := List.cons.inj h
      rw [writeLines_closed hnot rfl]
      show RedactWriter.writeLines U n ⟨_, policy, surface, t⟩ = _
      rw [ih _ (by show t.length ≤ n; omega) hrest, ← hc, List.flatMap_cons, ← writeAll_writeAll]
      rfl

/-- the state behind the bytes `x`, however they came -/
theorem foldl_write {policy : RedactPolicy} {surface : Surface} (chunks : List (List UInt8))
    {x out o : List UInt8} {cs : List (List UInt8)} (hx : lines newline x = cs ++ [o])
    (hout : out = cs.flatMap (lineOut U policy surface)) :
    ∃ cs' o', lines newline (x ++ chunks.flatten) = cs' ++ [o'] ∧
      chunks.foldl (fun w buf => (RedactWriter.write U w buf).1) ⟨some out, policy, surface, o⟩
        = ⟨some (cs'.flatMap (lineOut U policy surface)), policy, surface, o'⟩ := by
  induction chunks generalizing x out o cs with
  | nil => exact ⟨cs, o, by rw [List.flatten_nil, List.append_nil, hx], by rw [hout]; rfl⟩
  | cons buf chunks ih =>
    obtain ⟨cs', o', hlined, _⟩ := lined_lines (d := newline) (o ++ buf)
    have hlines : lines newline (x ++ buf) = (cs ++ cs') ++ [o'] := by
      rw [lines_append hx, hlined, List.append_assoc]
    have hwrite : (RedactWriter.write U ⟨some out, policy, surface, o⟩ buf).1
        = ⟨some ((cs ++ cs').flatMap (lineOut U policy surface)), policy, surface, o'⟩ := by
      show RedactWriter.writeLines U _ ⟨some out, policy, surface, o ++ buf⟩ = _
      rw [writeLines_lines (Nat.le_refl _) hlined, List.flatMap_append, ← hout]
      rfl
    rw [List.foldl_cons, hwrite, List.flatten_cons, ← List.append_assoc]
    exact ih hlines rfl

/-- **However the bytes are split, the lines go on one by one.** -/
theorem stream_lines (policy : RedactPolicy) (surface : Surface) (chunks : List (List UInt8)) :
    ∃ cs o, lines newline chunks.flatten = cs ++ [o] ∧ stream U policy surface chunks
      = some (cs.flatMap (lineOut U policy surface) ++ restOut U policy surface o) := by
  have hstart : lines newline ([] : List UInt8) = [] ++ [[]] := rfl
  have hnone : ([] : List UInt8) = [].flatMap (lineOut U policy surface) := rfl
  obtain ⟨cs, o, hlines, hfold⟩ := foldl_write chunks hstart hnone
  refine ⟨cs, o, hlines, ?_⟩
  unfold stream RedactWriter.new
  rw [hfold]
  unfold RedactWriter.flush RedactWriter.flushBuffer restOut
  cases o with
  | nil =>
    have hnil : fromUtf8 [] = some [] := fromUtf8_utf8 []
    have happly : apply U policy surface [] = [] := by simp [apply]
    rw [hnil]
    show some _ = some (_ ++ utf8 (apply U policy surface []))
    rw [happly]
    exact congrArg some (List.append_nil _).symm
  | cons b o =>
    cases hutf : fromUtf8 (b :: o) with
    | none => simp [RedactWriter.writeAll, hutf]
    | some text => simp [RedactWriter.writeAll, hutf]

/-- **The lines of a valid text go on as `apply` has each of them.** -/
theorem stream_text (policy : RedactPolicy) (surface : Surface) {chunks : List (List UInt8)}
    {text : List Char} (h : chunks.flatten = utf8 text) : stream U policy surface chunks
      = some (utf8 ((lines '\n' text).map (apply U policy surface)).flatten) := by
  obtain ⟨cs, o, hlines, hstream⟩ := stream_lines (U := U) policy surface chunks
  rw [h, lines_utf8] at hlines
  obtain ⟨ds, p, hchars, _⟩ := lined_lines (d := '\n') text
  rw [hchars, List.map_append] at hlines
  obtain ⟨rfl, ho⟩ := List.append_inj' hlines rfl
  obtain rfl : utf8 p = o := (List.cons.inj ho).1
  have hline : ∀ l, lineOut U policy surface (utf8 l) = utf8 (apply U policy surface l) := by
    intro l
    rw [lineOut, fromUtf8_utf8, Option.getD_some]
  have hrest : restOut U policy surface (utf8 p) = utf8 (apply U policy surface p) := by
    rw [restOut, fromUtf8_utf8]
  rw [hstream, hrest, hchars, List.map_append, List.flatten_append, utf8_append, utf8_flatten,
    utf8_flatten, List.flatMap_map, List.map_map]
  simp [List.flatMap_def, hline, Function.comp_def]

end

end Moagan.Redact
