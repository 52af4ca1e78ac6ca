import Mathlib.Data.List.Basic
import Moagan.Json.Text

/-!
# The SHA256SUMS manifest (`src/telemetry/export.rs`)

* `formatSha256sums`   one line for each file: digest, two spaces, path
* `parseSha256sums`    the first two words of each line
* `parse_ok`           what is read back of a path is its first word
* `parse_format`       paths without white space are read back
* `mem_words`          a word has no white space, and its characters are those of the text
-/

namespace Moagan.Telemetry

abbrev Text := List Char

structure HashEntry where
  sha256 : Text
  path : Text
deriving DecidableEq, Repr

/-- the number of the line -/
inductive SumsError where
  | missingDigest (line : ℕ)
  | missingPath (line : ℕ)
deriving DecidableEq, Repr

def entryLine (e : HashEntry) : Text := e.sha256 ++ ' ' :: ' ' :: e.path

def formatSha256sums (entries : List HashEntry) : Text :=
  entries.flatMap fun e => entryLine e ++ ['\n']

/-- `split_whitespace` -/
def words (text : Text) : List Text := (text.splitOnP isWhitespace).filter (· ≠ [])

def trimEndCr (line : Text) : Text := (line.reverse.dropWhile (· = '\r')).reverse

/-- nothing for an empty line -/
def parseLine (idx : ℕ) (line : Text) : Except SumsError (Option HashEntry) :=
  let line := trimEndCr line
  if line = [] then .ok none
  else
    match words line with
    | [] => .error (.missingDigest (idx + 1))
    | [_] => .error (.missingPath (idx + 1))
    | sha :: path :: _ => .ok (some ⟨sha, path⟩)

def parseLines : ℕ → List Text → Except SumsError (List HashEntry)
  | _, [] => .ok []
  | idx, line :: rest =>
    match parseLine idx line with
    | .error err => .error err
    | .ok none => parseLines (idx + 1) rest
    | .ok (some e) => (parseLines (idx + 1) rest).map (e :: ·)

/-- `lines` drops the empty piece behind the last line feed, which is skipped here -/
def parseSha256sums (body : Text) : Except SumsError (List HashEntry) :=
  parseLines 0 (body.splitOn '\n')

/-! ## words -/

/-- a word: not empty, and no white space in it -/
def Solid (w : Text) : Prop := w ≠ [] ∧ ∀ c ∈ w, isWhitespace c = false

theorem words_nil : words [] = [] := rfl

theorem words_append_cons (x y : Text) {c : Char} (hc : isWhitespace c = true) :
    words (x ++ c :: y) = words x ++ words y := by
  rw [words, List.splitOnP_append_cons x y hc, List.filter_append]
  rfl

theorem words_solid {w : Text} (h : Solid w) : words w = [w] := by
  rw [words, List.splitOnP_eq_singleton h.2]
  exact List.filter_eq_self.mpr fun x hx => decide_eq_true (List.mem_singleton.mp hx ▸ h.1)

theorem mem_splitOnP {p : Char → Bool} {text w : Text} (h : w ∈ text.splitOnP p) :
    ∀ c ∈ w, c ∈ text ∧ p c = false := by
  induction text generalizing w with
  | nil =>
    obtain rfl := List.mem_singleton.mp h
    exact fun c hc => absurd hc List.not_mem_nil
  | cons a text ih =>
    rw [List.splitOnP_cons_eq_if_modifyHead] at h
    split_ifs at h with ha
    · obtain rfl | h := List.mem_cons.mp h
      · exact fun c hc => absurd hc List.not_mem_nil
      · intro c hc
        exact ⟨List.mem_cons_of_mem _ (ih h c hc).1, (ih h c hc).2⟩
    · obtain ⟨v, vs, hv⟩ := List.exists_cons_of_ne_nil (List.splitOnP_ne_nil p text)
      rw [hv, List.modifyHead_cons] at h
      intro c hc
      obtain rfl | h := List.mem_cons.mp h
      · obtain rfl | hc := List.mem_cons.mp hc
        · exact ⟨List.mem_cons_self, Bool.eq_false_iff.mpr ha⟩
        · have := ih (hv ▸ List.mem_cons_self) c hc
          exact ⟨List.mem_cons_of_mem _ this.1, this.2⟩
      · have := ih (hv ▸ List.mem_cons_of_mem _ h) c hc
        exact ⟨List.mem_cons_of_mem _ this.1, this.2⟩

/-- a word is solid, and its characters are those of the text -/
theorem mem_words {text w : Text} (h : w ∈ words text) : Solid w ∧ ∀ c ∈ w, c ∈ text := by
  obtain ⟨hsplit, hne⟩ := List.mem_filter.mp h
  have hchars := mem_splitOnP hsplit
  exact ⟨⟨of_decide_eq_true hne, fun c hc => (hchars c hc).2⟩, fun c hc => (hchars c hc).1⟩

/-- the carriage returns at the end belong to no word -/
theorem words_trimEndCr (line : Text) : words (trimEndCr line) = words line := by
  have key : ∀ r : Text, words (r.dropWhile (· = '\r')).reverse = words r.reverse := by
    intro r
    induction r with
    | nil => rfl
    | cons c r ih =>
      by_cases hc : c = '\r'
      · subst hc
        rw [List.dropWhile_cons_of_pos (by decide), ih, List.reverse_cons,
          words_append_cons _ _ (by decide), words_nil, List.append_nil]
      · rw [List.dropWhile_cons_of_neg (by simpa using hc)]
  have := key line.reverse
  rwa [List.reverse_reverse] at this

/-! ## reading the manifest back -/

/-- the digest is a word, and the path is on one line -/
structure HashEntry.OneLine (e : HashEntry) : Prop where
  sha256 : Solid e.sha256
  path : '\n' ∉ e.path

theorem entryLine_words {e : HashEntry} (h : e.OneLine) :
    words (entryLine e) = e.sha256 :: words e.path := by
  rw [entryLine, words_append_cons e.sha256 (' ' :: e.path) (by decide),
    ← List.nil_append (' ' :: e.path), words_append_cons [] e.path (by decide),
    words_solid h.sha256]
  rfl

theorem entryLine_newline {e : HashEntry} (h : e.OneLine) : '\n' ∉ entryLine e := by
  intro hc
  obtain hc | hc := List.mem_append.mp hc
  · exact absurd (h.sha256.2 _ hc) (by decide)
  · obtain hc | hc := List.mem_cons.mp hc
    · exact absurd hc (by decide)
    · obtain hc | hc := List.mem_cons.mp hc
      · exact absurd hc (by decide)
      · exact h.path hc

/-- the lines of the manifest are the entries, and an empty one -/
theorem format_lines {entries : List HashEntry} (h : ∀ e ∈ entries, e.OneLine) :
    (formatSha256sums entries).splitOn '\n' = entries.map entryLine ++ [[]] := by
  induction entries with
  | nil => rfl
  | cons e es ih =>
    have hsplit := List.splitOn_append_cons_self_of_not_mem
      (entryLine_newline (h e List.mem_cons_self)) (formatSha256sums es)
    rw [ih fun e he => h e (List.mem_cons_of_mem _ he)] at hsplit
    rw [List.map_cons, List.cons_append, ← hsplit, formatSha256sums, List.flatMap_cons,
      List.append_assoc]
    rfl

theorem parseLine_entry {e : HashEntry} (h : e.OneLine) (idx : ℕ) :
    parseLine idx (entryLine e) = match words e.path with
      | [] => .error (.missingPath (idx + 1))
      | path :: _ => .ok (some ⟨e.sha256, path⟩) := by
  have hwords := (words_trimEndCr (entryLine e)).trans (entryLine_words h)
  have hne : trimEndCr (entryLine e) ≠ [] := by
    intro hnil
    rw [hnil, words_nil] at hwords
    cases hwords
  unfold parseLine
  dsimp only
  rw [if_neg hne, hwords]
  cases words e.path <;> rfl

/-- **What is read back of a path is its first word.** -/
theorem parse_ok {entries es : List HashEntry} (h : ∀ e ∈ entries, e.OneLine)
    (hp : parseSha256sums (formatSha256sums entries) = .ok es) :
    es.map HashEntry.path = entries.map fun e => (words e.path).headD [] := by
  unfold parseSha256sums at hp
  rw [format_lines h] at hp
  generalize 0 = idx at hp
  induction entries generalizing idx es with
  | nil =>
    obtain rfl := Except.ok.inj hp
    rfl
  | cons e entries ih =>
    rw [List.map_cons, List.cons_append, parseLines, parseLine_entry (h e List.mem_cons_self)] at hp
    cases hw : words e.path with
    | nil =>
      rw [hw] at hp
      cases hp
    | cons path rest =>
      rw [hw] at hp
      dsimp only at hp
      cases hrest : parseLines (idx + 1) (entries.map entryLine ++ [[]]) with
      | error err =>
        rw [hrest] at hp
        cases hp
      | ok es' =>
        rw [hrest] at hp
        obtain rfl := Except.ok.inj hp
        rw [List.map_cons, List.map_cons, hw,
          ih (fun e he => h e (List.mem_cons_of_mem _ he)) _ hrest]
        rfl

/-- **Paths without white space are read back.** -/
theorem parse_format {entries : List HashEntry}
    (h : ∀ e ∈ entries, Solid e.sha256 ∧ Solid e.path) :
    parseSha256sums (formatSha256sums entries) = .ok entries := by
  have hline : ∀ e ∈ entries, e.OneLine := fun e he =>
    ⟨(h e he).1, fun hc => absurd ((h e he).2.2 _ hc) (by decide)⟩
  unfold parseSha256sums
  rw [format_lines hline]
  generalize 0 = idx
  induction entries generalizing idx with
  | nil => rfl
  | cons e entries ih =>
    rw [List.map_cons, List.cons_append, parseLines, parseLine_entry (hline e List.mem_cons_self),
      words_solid (h e List.mem_cons_self).2]
    dsimp only
    rw [ih (fun e he => h e (List.mem_cons_of_mem _ he))
      (fun e he => hline e (List.mem_cons_of_mem _ he))]
    rfl

end Moagan.Telemetry
