import Moagan.Lib.RegexEdits
import Moagan.Redact.Markers

/-!
# What is left to match

Whether a pattern matches in what `apply` has written.

* `Pattern.edits`      the turn of a pattern as edits
* `Spoils`             a pattern whose marker can complete a match of an earlier one
* `lifts_pattern`      no other turn makes a match
* `apply_complete`     a match that is left has been made by such a marker, and takes it in or is
                       beside it
* `apply_incomplete`   there are such matches
-/

namespace Moagan.Redact

open Regex

/-! ## the turn of a pattern -/

/-- the context of a key is kept -/
def keyEdits : Piece Char → List (Edit Char)
  | .plain c => [.keep c]
  | .found m => Regex.kept (m.group "ctx") ++
      [.cut (m.taken.drop (m.group "ctx").length) elevenlabsKey.marker]

def Pattern.edits (p : Pattern) (text : List Char) : List (Edit Char) :=
  if p.re.anchored then (p.re.scan none text).flatMap keyEdits else p.re.edits p.marker text

theorem edits_of_plain {p : Pattern} (h : p.re.anchored = false) (text : List Char) :
    p.edits text = p.re.edits p.marker text := by
  unfold Pattern.edits
  rw [h]
  rfl

/-- a key with its context -/
def KeyMatch (m : Match Char) : Prop :=
  ∃ k, m.taken = m.group "ctx" ++ k ∧ k ≠ [] ∧ (m.group "ctx").length ≤ 1

theorem key_match {prev : Option Char} {l : List Char} {m : Match Char}
    (h : m ∈ elevenlabsRe.ends prev l) : KeyMatch m := by
  have hkey : ∀ {l : List Char} {m : Match Char}, m ∈ keyEnds l →
      ∃ k, k ≠ [] ∧ m = ⟨k, l.drop 32, [("key", k)]⟩ := by
    intro l m hm
    unfold keyEnds at hm
    cases hstart : startsWithKey l with
    | false =>
      rw [hstart] at hm
      cases hm
    | true =>
      rw [hstart] at hm
      refine ⟨l.take 32, fun hnil => ?_, List.mem_singleton.mp hm⟩
      have hlen := (Bool.and_eq_true_iff.mp hstart).1
      have hzero := congrArg List.length hnil
      simp only [decide_eq_true_eq, List.length_take, List.length_nil] at hlen hzero
      omega
  rw [elevenlabs_ends] at h
  obtain h | h := List.mem_append.mp h
  · cases prev with
    | some c => cases h
    | none =>
      obtain ⟨k, hk, rfl⟩ := hkey h
      exact ⟨k, rfl, hk, Nat.zero_le _⟩
  · obtain ⟨m', hm', hm⟩ := List.mem_flatMap.mp h
    obtain ⟨m'', hm'', rfl⟩ := List.mem_map.mp hm
    obtain ⟨k, hk, rfl⟩ := hkey hm''
    obtain ⟨n, hn, rfl⟩ := List.mem_map.mp hm'
    cases l with
    | nil => cases hn
    | cons c l =>
      have hn : n ∈ if contextChar c then [(⟨[c], l, []⟩ : Match Char)] else [] := hn
      cases hc : contextChar c with
      | false =>
        rw [hc] at hn
        cases hn
      | true =>
        rw [hc] at hn
        obtain rfl := List.mem_singleton.mp hn
        exact ⟨k, rfl, hk, Nat.le_refl 1⟩

theorem before_keyEdits {piece : Piece Char} (h : ∀ m, piece = .found m → KeyMatch m) :
    before (keyEdits piece) = piece.source := by
  cases piece with
  | plain c => rfl
  | found m =>
    obtain ⟨k, hk, _, _⟩ := h m rfl
    have hdrop : m.taken.drop (m.group "ctx").length = k := by
      rw [hk]
      exact List.drop_left
    rw [keyEdits, before_append, before_kept, hdrop, source_found, hk]
    exact congrArg _ (List.append_nil k)

theorem before_flat {ps : List (Piece Char)} (h : ∀ m, .found m ∈ ps → KeyMatch m) :
    before (ps.flatMap keyEdits) = ps.flatMap Piece.source := by
  rw [before, List.flatMap_assoc]
  exact List.flatMap_congr fun piece hpiece => before_keyEdits fun m hm => h m (hm ▸ hpiece)

theorem scan_keyMatch {text : List Char} {m : Match Char}
    (h : .found m ∈ elevenlabsRe.scan none text) : KeyMatch m := by
  obtain ⟨prev, u, hm, _, _⟩ := scan_mem h
  exact key_match hm

section
variable {U : Unicode} {p q : Pattern}

theorem nullable_of_mem (hp : p ∈ PATTERNS U) : p.re.nullable = false := by
  have hsound := patterns_sound U p hp
  simp only [Pattern.sound, Bool.and_eq_true, Bool.not_eq_true'] at hsound
  exact hsound.2

theorem before_pattern (hp : p ∈ PATTERNS U) (text : List Char) : before (p.edits text) = text := by
  cases hanch : p.re.anchored with
  | false =>
    rw [edits_of_plain hanch]
    exact before_edits p.re p.marker text
  | true =>
    obtain rfl := anchored_eq hp hanch
    show before ((elevenlabsRe.scan none text).flatMap keyEdits) = text
    rw [before_flat fun m => scan_keyMatch]
    exact scan_source elevenlabsRe none text

theorem after_pattern (hp : p ∈ PATTERNS U) (text : List Char) :
    after (p.edits text) = p.replaceAll text := by
  cases hanch : p.re.anchored with
  | false =>
    rw [edits_of_plain hanch, after_edits, Pattern.replaceAll, replacement_eq hp hanch]
  | true =>
    obtain rfl := anchored_eq hp hanch
    show after ((elevenlabsRe.scan none text).flatMap keyEdits) = _
    rw [after, List.flatMap_assoc]
    refine List.flatMap_congr fun piece _ => ?_
    cases piece with
    | plain c => rfl
    | found m =>
      show after (keyEdits (.found m)) = m.group "ctx" ++ (elevenlabsKey.marker ++ [])
      rw [keyEdits, after_append, after_kept]
      rfl

theorem cut_pattern (hp : p ∈ PATTERNS U) {text old new : List Char}
    (h : .cut old new ∈ p.edits text) : old ≠ [] ∧ new = p.marker := by
  cases hanch : p.re.anchored with
  | false =>
    rw [edits_of_plain hanch] at h
    obtain ⟨prev, next, hspells⟩ := spells_of_cut h
    exact ⟨spells_ne_nil (nullable_of_mem hp) hspells, (mem_edits h).1⟩
  | true =>
    obtain rfl := anchored_eq hp hanch
    obtain ⟨piece, hpiece, hmem⟩ := List.mem_flatMap.mp
      (show .cut old new ∈ (elevenlabsRe.scan none text).flatMap keyEdits from h)
    cases piece with
    | plain c => simp [keyEdits] at hmem
    | found m =>
      obtain ⟨k, hk, hne, _⟩ := scan_keyMatch hpiece
      obtain hmem | hmem := List.mem_append.mp hmem
      · obtain ⟨c, _, heq⟩ := List.mem_map.mp hmem
        cases heq
      · obtain ⟨rfl, rfl⟩ := Edit.cut.inj (List.mem_singleton.mp hmem)
        refine ⟨?_, rfl⟩
        rw [hk, List.drop_left]
        exact hne

theorem marks_pattern (hp : p ∈ PATTERNS U) (text : List Char) : Marks '[' (p.edits text) := by
  intro old new h
  obtain ⟨hold, rfl⟩ := cut_pattern hp h
  exact ⟨hold, (bracket_facts (mem_brackets hp)).2.1⟩

end

/-! ## the key -/

/-- behind the context of a key stands its marker -/
theorem key_places {ps : List (Piece Char)} (h : ∀ m, .found m ∈ ps → KeyMatch m)
    {es₁ es₂ : List (Edit Char)} {c d : Char}
    (hes : ps.flatMap keyEdits = es₁ ++ .keep c :: .keep d :: es₂) :
    ∃ ps₁ ps₂, ps = ps₁ ++ .plain c :: ps₂ ∧ before es₁ = ps₁.flatMap Piece.source ∧
      before (.keep d :: es₂) = ps₂.flatMap Piece.source := by
  induction ps generalizing es₁ with
  | nil => cases es₁ <;> cases hes
  | cons piece ps ih =>
    have hrest : ∀ m, .found m ∈ ps → KeyMatch m := fun m hm => h m (List.mem_cons_of_mem piece hm)
    have hpiece := before_keyEdits fun m hm => h m (hm ▸ List.mem_cons_self)
    have hsplit : (∃ es₃, es₁ = keyEdits piece ++ es₃ ∧
        ps.flatMap keyEdits = es₃ ++ .keep c :: .keep d :: es₂) ∨
        ∃ es₃, keyEdits piece = es₁ ++ .keep c :: es₃ ∧
          .keep d :: es₂ = es₃ ++ ps.flatMap keyEdits := by
      rw [List.flatMap_cons] at hes
      obtain hleft | ⟨es₃, hedits, htail⟩ := List.append_eq_append_iff.mp hes
      · exact Or.inl hleft
      cases es₃ with
      | nil => exact Or.inl ⟨[], by rw [hedits, List.append_nil, List.append_nil], htail.symm⟩
      | cons e es₃ =>
        obtain ⟨rfl, hcons⟩ := List.cons.inj htail
        exact Or.inr ⟨es₃, hedits, hcons⟩
    obtain ⟨es₃, rfl, htail⟩ | ⟨es₃, hedits, htail⟩ := hsplit
    · obtain ⟨ps₁, ps₂, rfl, hleft, hright⟩ := ih hrest htail
      refine ⟨piece :: ps₁, ps₂, rfl, ?_, hright⟩
      rw [before_append, hleft, hpiece]
      rfl
    cases piece with
    | plain c' =>
      obtain ⟨rfl, heq⟩ : es₁ = [] ∧ [Edit.keep c'] = .keep c :: es₃ := by
        cases es₁ with
        | nil => exact ⟨rfl, hedits⟩
        | cons e es₁ =>
          have hlen := congrArg List.length hedits
          simp [keyEdits] at hlen
      obtain ⟨hc, rfl⟩ := List.cons.inj heq
      obtain rfl := Edit.keep.inj hc
      refine ⟨[], ps, rfl, rfl, ?_⟩
      rw [htail]
      exact before_flat hrest
    | found m =>
      obtain ⟨k, _, _, hone⟩ := h m List.mem_cons_self
      -- two edits at most, of which the last is the marker
      obtain ⟨x, hx⟩ : ∃ x, m.group "ctx" = x := ⟨_, rfl⟩
      have hlen := congrArg List.length hedits
      rw [keyEdits, hx] at hedits hlen
      rw [hx] at hone
      cases es₃ with
      | nil =>
        obtain ⟨_, hlast⟩ := List.append_inj' hedits rfl
        cases hlast
      | cons e es₃ =>
        obtain ⟨rfl, _⟩ := List.cons.inj htail
        simp only [Regex.kept, List.length_append, List.length_map, List.length_cons,
          List.length_nil] at hlen
        obtain rfl : es₁ = [] := List.length_eq_zero_iff.mp (by omega)
        cases x with
        | nil => cases hedits
        | cons c' x =>
          obtain rfl : x = [] := List.length_eq_zero_iff.mp (by
            rw [List.length_cons] at hone
            omega)
          cases hedits

theorem lifts_generic {r : Regex Char} (htake : r.mayTake '[' = false) (hbound : r.bounded = false)
    {es : List (Edit Char)} (hmarks : Marks '[' es) : Lifts r.Spells es :=
  lifts_of_unseen (fun _ _ _ ha => spells_avoid htake ha) hmarks (unseen_of_unbounded hbound hmarks)

/-- the turn of the key leaves none -/
theorem noMatch_key (text : List Char) :
    elevenlabsRe.NoMatch (elevenlabsKey.replaceAll text) := by
  have hp : elevenlabsKey ∈ PATTERNS asciiTables := by simp [PATTERNS]
  have hmarks := marks_pattern hp text
  rw [← after_pattern hp]
  refine noMatch_after rfl hmarks (fun old new h => ?_) (lifts_generic rfl rfl hmarks)
    fun es₁ c es₂ a v hes hafter ha => ?_
  · rw [(cut_pattern hp h).2]
    exact skips_marker hp hp
  -- a key is longer than its context
  have hlen : 32 ≤ a.length := Nat.le_trans (by decide) (minLen_le ha)
  rw [hes] at hmarks
  obtain ⟨es', heq, _⟩ := split_kept hmarks.append_right (spells_avoid rfl ha) hafter
  cases a with
  | nil => cases hlen
  | cons c' a =>
    cases a with
    | nil =>
      rw [List.length_singleton] at hlen
      omega
    | cons d a =>
      obtain ⟨_, rfl⟩ := List.cons.inj heq
      obtain ⟨ps₁, ps₂, hps, hleft, hright⟩ := key_places (fun m => scan_keyMatch) hes
      have hfirst := scan_at hps
      rw [Option.or_none, ← hleft, ← hright] at hfirst
      exact hfirst

/-! ## blocks and connections -/

theorem literal_free (s : List Char) :
    (literal s).bounded = false ∧ (literal s).anchored = false := by
  induction s with
  | nil => exact ⟨rfl, rfl⟩
  | cons c s ih => exact ih

/-- **A block** begins and ends outside of the markers. -/
theorem lifts_block {label : Regex Char} (hbound : label.bounded = false)
    (hstart : label.anchored = false) (htake : label.mayTake '[' = false) {es : List (Edit Char)}
    (hmarks : Marks '[' es) (hcut : ∀ old new, .cut old new ∈ es → '-' ∉ new) :
    Lifts (block label).Spells es := by
  have hfree : ∀ {s : List Char} {prev next : Option Char} {a : List Char} (prev' next'),
      (literal s).Spells prev a next → (literal s).Spells prev' a next' :=
    fun prev' next' => spells_free (literal_free _).1 (literal_free _).2 prev' next'
  have hlabel : ∀ {prev next : Option Char} {a : List Char} (prev' next'),
      label.Spells prev a next → label.Spells prev' a next' := spells_free hbound hstart
  refine lifts_gap (d := '-')
    (H := fun h => (sequence [literal (dashes ++ ['B', 'E', 'G', 'I', 'N', ' ']), label,
      literal dashes]).Spells none h none)
    (T := fun t => (sequence [literal (dashes ++ ['E', 'N', 'D', ' ']), label,
      literal dashes]).Spells none t none)
    (fun prev a next => ⟨?_, ?_⟩) (fun h hh => ?_) (fun t ht => ⟨?_, ?_⟩) hmarks hcut
  · rintro ⟨x, _, rfl, hx, y, _, rfl, hy, z, _, rfl, hz, g, _, rfl, hg,
      x', _, rfl, hx', y', _, rfl, hy', z', _, rfl, hz', rfl⟩
    refine ⟨x ++ (y ++ (z ++ [])), g, x' ++ (y' ++ (z' ++ [])), ?_,
      ⟨x, _, rfl, hfree _ _ hx, y, _, rfl, hlabel _ _ hy, z, _, rfl, hfree _ _ hz, rfl⟩, ?_,
      x', _, rfl, hfree _ _ hx', y', _, rfl, hlabel _ _ hy', z', _, rfl, hfree _ _ hz', rfl⟩
    · simp only [List.append_assoc, List.append_nil]
    · exact List.ne_nil_of_length_pos (spells_atLeast.mp hg).1
  · rintro ⟨_, g, _, rfl, ⟨x, _, rfl, hx, y, _, rfl, hy, z, _, rfl, hz, rfl⟩, hg,
      x', _, rfl, hx', y', _, rfl, hy', z', _, rfl, hz', rfl⟩
    refine ⟨x, y ++ (z ++ (g ++ (x' ++ (y' ++ (z' ++ []))))), ?_, hfree _ _ hx, y, _, rfl,
      hlabel _ _ hy, z, _, rfl, hfree _ _ hz, g, _, rfl, ?_, x', _, rfl, hfree _ _ hx', y', _, rfl,
      hlabel _ _ hy', z', _, rfl, hfree _ _ hz', rfl⟩
    · simp only [List.append_assoc, List.append_nil]
    · exact spells_atLeast.mpr ⟨List.length_pos_iff.mpr hg, List.all_eq_true.mpr fun _ _ => rfl⟩
  · refine spells_avoid ?_ hh
    simp [sequence, mayTake, htake, literal, dashes]
  · refine spells_avoid ?_ ht
    simp [sequence, mayTake, htake, literal, dashes]
  · obtain ⟨_, _, rfl, ⟨_, _, rfl, ⟨c, rfl, hc⟩, _⟩, _⟩ := ht
    rw [eq_of_beq hc]
    rfl

/-- **An open end** has enough characters without the markers. -/
theorem lifts_open {r s : Regex Char} {p : Char → Bool} {n : ℕ} (hr : r.bounded = false)
    (hr' : r.anchored = false) (hs : s.bounded = false) (hs' : s.anchored = false)
    (htake : r.mayTake '[' = false) (htake' : s.mayTake '[' = false) {es : List (Edit Char)}
    (hmarks : Marks '[' es)
    (hcut : ∀ old new, .cut old new ∈ es → n ≤ old.length ∧ old.all p = true) :
    Lifts (sequence [r, s, atLeast n p]).Spells es := by
  refine lifts_class (H := fun h => (sequence [r, s]).Spells none h none)
    (fun prev a next => ⟨?_, ?_⟩) (fun h hh => ?_) hmarks hcut
  · rintro ⟨x, _, rfl, hx, y, _, rfl, hy, b, _, rfl, hb, rfl⟩
    refine ⟨x ++ (y ++ []), b, ?_, ⟨x, _, rfl, spells_free hr hr' _ _ hx, y, _, rfl,
      spells_free hs hs' _ _ hy, rfl⟩, spells_atLeast.mp hb⟩
    simp only [List.append_assoc, List.append_nil]
  · rintro ⟨_, b, rfl, ⟨x, _, rfl, hx, y, _, rfl, hy, rfl⟩, hb⟩
    refine ⟨x, y ++ (b ++ []), ?_, spells_free hr hr' _ _ hx, y, _, rfl, spells_free hs hs' _ _ hy,
      b, _, rfl, spells_atLeast.mpr hb, rfl⟩
    simp only [List.append_assoc, List.append_nil]
  · refine spells_avoid ?_ hh
    simp [sequence, mayTake, htake, htake']

/-! ## numbers -/

section
variable {U : Unicode} {text : List Char}

theorem closes_sequence (word : Char → Bool) (rs : List (Regex Char)) :
    Closes word (sequence (rs ++ [.boundary word])) := by
  induction rs with
  | nil => exact closes_boundary word
  | cons r rs ih => exact ih.seq r

theorem edged_sequence {word : Char → Bool} (rs : List (Regex Char))
    (h : (sequence (.boundary word :: (rs ++ [.boundary word]))).nullable = false) :
    Edged word (sequence (.boundary word :: (rs ++ [.boundary word]))) :=
  edged_of h (opens_boundary word _) (closes_sequence word (.boundary word :: rs))

theorem edged_card (U : Unicode) (n m : ℕ) (counts : List ℕ) :
    Edged (wordChar U) (cardRe U ((n + 1) :: m :: counts)) :=
  edged_sequence ((((n + 1) :: m :: counts).map fun n =>
    exactly n (digitChar U)).intersperse cardGap) rfl

/-- the patterns of numbers -/
theorem numbers_take (U : Unicode) : (((PATTERNS U).drop 24).take 4).map (·.re)
    = [privateIpRe U, ipRe U, ssnRe U, creditCardRe U] := rfl

/-- a number is a word -/
theorem numbers_edged {p : Pattern} (hp : p ∈ ((PATTERNS U).drop 24).take 4) :
    Edged (wordChar U) p.re := by
  have hre := List.mem_map_of_mem (f := (·.re)) hp
  rw [numbers_take] at hre
  simp only [List.mem_cons, List.not_mem_nil, or_false] at hre
  obtain hre | hre | hre | hre := hre
  all_goals rw [hre]
  · exact edged_sequence [_] rfl
  · exact edged_sequence [_, _] rfl
  · exact edged_sequence [_, _, _, _, _] rfl
  · exact ((edged_card U 3 4 [4, 4]).alt (edged_card U 3 4 [4, 3])).alt (edged_card U 3 6 [5])

/-- and sees of its surroundings whether they belong to a word -/
theorem numbers_alike {p : Pattern} (hp : p ∈ ((PATTERNS U).drop 24).take 4) {x y : Option Char}
    (h : x.any (wordChar U) = y.any (wordChar U)) : p.re.alike x y = true := by
  have hre := List.mem_map_of_mem (f := (·.re)) hp
  rw [numbers_take] at hre
  simp only [List.mem_cons, List.not_mem_nil, or_false] at hre
  obtain hre | hre | hre | hre := hre
  all_goals rw [hre]
  · simp [privateIpRe, sequence, oneOf, literal, dot, octet, alike, h]
  · simp [ipRe, sequence, byteValue, oneOf, literal, dot, asciiDigit, optional, alike, h]
  · simp [ssnRe, sequence, exactly, literal, alike, h]
  · simp [creditCardRe, cardRe, oneOf, sequence, exactly, cardGap, List.intersperse, alike, h]

/-- **An address** goes on as long as there are characters of a word, and begins as soon as one. -/
theorem wordwise_email (U : Unicode) (text : List Char) :
    Wordwise (wordChar U) ((emailRe U).scan none text) := by
  refine wordwise_of_greedy (c := fun c => wordChar U c || c == '.' || c == '-') rfl ?_
    (fun d hd => ?_) (fun prev d a next hd ha => ?_) text
  · refine Stops.andThen (Stops.andThen (Stops.andThen (Stops.andThen ?_)))
    show Stops _ (andThen (atLeast 1 _).ends fun _ text => [.stay text])
    rw [andThen_stay]
    exact stops_atLeast 1
  · simp [hd]
  · obtain ⟨b, c, rfl, hb, hc⟩ := ha
    obtain ⟨hlen, hall⟩ := spells_atLeast.mp hb
    refine ⟨d :: b, c, rfl, spells_atLeast.mpr ⟨Nat.le_add_left 1 _, ?_⟩, ?_⟩
    · simp [hall, hd]
    · cases b with
      | nil => cases hlen
      | cons e b =>
        rw [List.getLast?_cons_cons]
        exact hc

theorem numbers_wordwise {q : Pattern} (hq : q ∈ ((PATTERNS U).drop 24).take 5)
    (text : List Char) : Wordwise (wordChar U) (q.re.scan none text) := by
  have hsplit : ((PATTERNS U).drop 24).take 5
      = ((PATTERNS U).drop 24).take 4 ++ ((PATTERNS U).drop 28).take 1 := rfl
  rw [hsplit] at hq
  obtain hq | hq := List.mem_append.mp hq
  · exact wordwise_of_edged (numbers_edged hq) text
  · have hre := List.mem_map_of_mem (f := (·.re)) hq
    rw [show (((PATTERNS U).drop 28).take 1).map (·.re) = [emailRe U] from rfl] at hre
    rw [List.mem_singleton.mp hre]
    exact wordwise_email U text

end

/-! ## which turns make no match -/

/-- a match is outside of the markers, whatever is around it -/
def Pattern.generic (p : Pattern) : Bool := !p.re.mayTake '[' && !p.re.bounded

/-- the labels of the blocks -/
def keyLabel : Regex Char := .seq (atLeast 0 fun c => c.isUpper || c == ' ')
  (literal ['P', 'R', 'I', 'V', 'A', 'T', 'E', ' ', 'K', 'E', 'Y'])

def certificateLabel : Regex Char :=
  literal ['C', 'E', 'R', 'T', 'I', 'F', 'I', 'C', 'A', 'T', 'E']

def connectionString : Pattern :=
  pat "connection_string" connectionStringRe "[REDACTED:connection_string]"

/-- the other patterns -/
theorem specials (U : Unicode) : (PATTERNS U).filter (fun p => !p.generic)
    = [pat "ssh_private_key" (block keyLabel) "[REDACTED:ssh_private_key]",
      pat "pem_certificate" (block certificateLabel) "[REDACTED:pem_certificate]",
      connectionString] ++ ((PATTERNS U).drop 24).take 4 := id rfl

/-- Of most patterns a match can always be carried back. -/
theorem pattern_kinds {U : Unicode} {p : Pattern} (hp : p ∈ PATTERNS U) :
    (∀ es, Marks '[' es → (∀ old new, .cut old new ∈ es → '-' ∉ new) → Lifts p.re.Spells es) ∨
      p = connectionString ∨ p ∈ ((PATTERNS U).drop 24).take 4 := by
  by_cases hgeneric : p.generic = true
  · rw [Pattern.generic, Bool.and_eq_true, Bool.not_eq_true', Bool.not_eq_true'] at hgeneric
    exact Or.inl fun es hmarks _ => lifts_generic hgeneric.1 hgeneric.2 hmarks
  have hmem : p ∈ (PATTERNS U).filter fun p => !p.generic :=
    List.mem_filter.mpr ⟨hp, by simpa using hgeneric⟩
  rw [specials] at hmem
  obtain hmem | hmem := List.mem_append.mp hmem
  · simp only [List.mem_cons, List.not_mem_nil, or_false] at hmem
    obtain rfl | rfl | rfl := hmem
    · exact Or.inl fun es => lifts_block rfl rfl rfl
    · exact Or.inl fun es => lifts_block rfl rfl rfl
    · exact Or.inr (Or.inl rfl)
  · exact Or.inr (Or.inr hmem)

/-- the marker of `q` can complete a match of `p` -/
def Spoils (p q : Pattern) : Prop :=
  p.id = "connection_string" ∧ q.id ∈ ["ip_v4", "credit_card", "email"] ∨
    p.id ∈ ["private_ip", "ip_v4", "ssn_like", "credit_card"] ∧ q.id = "moagan_minimax_endpoint"

/-- characters that are not in a connection string -/
def gaps : List Char := (List.range' 9 5 ++ [0x20, 0x22, 0x27, 0x85, 0xA0, 0x1680] ++
  List.range' 0x2000 11 ++ [0x2028, 0x2029, 0x202F, 0x205F, 0x3000]).map Char.ofNat

theorem mem_gaps {c : Char} (h : (spaceChar c || quote c) = true) : c ∈ gaps := by
  have hnat : c.toNat ∈ List.range' 9 5 ++ [0x20, 0x22, 0x27, 0x85, 0xA0, 0x1680] ++
      List.range' 0x2000 11 ++ [0x2028, 0x2029, 0x202F, 0x205F, 0x3000] := by
    simp only [List.mem_append, List.mem_range'_1, List.mem_cons, List.not_mem_nil, or_false]
    obtain h | h := Bool.or_eq_true_iff.mp h
    · simp only [spaceChar, Bool.or_eq_true, Bool.and_eq_true, decide_eq_true_eq, beq_iff_eq] at h
      omega
    · simp only [quote, Bool.or_eq_true, beq_iff_eq] at h
      obtain rfl | rfl := h
      all_goals decide
  have hmem := List.mem_map_of_mem (f := Char.ofNat) hnat
  rwa [Char.ofNat_toNat] at hmem

section
variable {U : Unicode} {p q : Pattern}

theorem privateIp_take {c : Char} (h : digitChar U c = digitChar asciiTables c) :
    (privateIpRe U).mayTake c = (privateIpRe asciiTables).mayTake c := by
  simp only [privateIpRe, sequence, oneOf, octet, mayTake, List.foldr, List.foldl, h]

theorem ssn_take {c : Char} (h : digitChar U c = digitChar asciiTables c) :
    (ssnRe U).mayTake c = (ssnRe asciiTables).mayTake c := by
  simp only [ssnRe, sequence, exactly, mayTake, List.foldr, h]

/-- what is looked through for the patterns from `connection_string` on -/
structure LateChecked (late : List Pattern) : Prop where
  length : ∀ a ∈ late.map fun q => (q.id, q.re.minLen),
    a.1 ∈ ["ip_v4", "credit_card", "email"] ∨ 8 ≤ a.2
  gaps : (late.all fun q => q.id == "ip_v4" || q.id == "credit_card" || q.id == "email" ||
    gaps.all fun c => !q.re.mayTake c) = true

theorem late_checked : LateChecked ((PATTERNS asciiTables).drop 17) where
  length := by decide +kernel
  gaps := by decide +kernel

/-- the patterns from `connection_string` on that leave enough of it -/
theorem late_length : ∀ q ∈ (PATTERNS U).drop 17,
    q.id ∈ ["ip_v4", "credit_card", "email"] ∨ 8 ≤ q.re.minLen := by
  have hall : ((PATTERNS U).drop 17).map (fun q => (q.id, q.re.minLen))
      = ((PATTERNS asciiTables).drop 17).map fun q => (q.id, q.re.minLen) := rfl
  intro q hq
  exact late_checked.length (q.id, q.re.minLen) (hall ▸ List.mem_map_of_mem hq)

/-- and that take nothing else than its characters; no digit is a space -/
theorem late_gaps (hU : ∀ c, U.digit c = true → spaceChar c = false)
    (hq : q ∈ (PATTERNS U).drop 17) (hid : q.id ∉ ["ip_v4", "credit_card", "email"]) {c : Char}
    (hc : (spaceChar c || quote c) = true) : q.re.mayTake c = false := by
  have hascii : ∀ q ∈ (PATTERNS asciiTables).drop 17,
      q.id ∉ ["ip_v4", "credit_card", "email"] → q.re.mayTake c = false := by
    intro q hq hid
    simp only [List.mem_cons, List.not_mem_nil, or_false, not_or] at hid
    have hall := List.all_eq_true.mp late_checked.gaps q hq
    simp only [Bool.or_eq_true, beq_iff_eq, hid.1, hid.2.1, hid.2.2, false_or] at hall
    simpa using List.all_eq_true.mp hall c (mem_gaps hc)
  have hdigit : digitChar U c = digitChar asciiTables c := by
    unfold digitChar
    by_cases hlt : c.toNat < 128
    · rw [if_pos hlt, if_pos hlt]
    · rw [if_neg hlt, if_neg hlt]
      cases hd : U.digit c with
      | false => rfl
      | true =>
        rw [hU c hd, Bool.false_or] at hc
        simp only [quote, Bool.or_eq_true, beq_iff_eq] at hc
        obtain rfl | rfl := hc
        all_goals exact absurd (by decide) hlt
  have hsplit : (PATTERNS U).drop 17 = ((PATTERNS asciiTables).drop 17).take 7 ++
      ((PATTERNS U).drop 24).take 5 ++ (PATTERNS asciiTables).drop 29 := rfl
  rw [hsplit, List.append_assoc] at hq
  obtain hq | hq := List.mem_append.mp hq
  · exact hascii q (List.mem_of_mem_take hq) hid
  obtain hq | hq := List.mem_append.mp hq
  · have hre := List.mem_map_of_mem (f := fun q => (q.id, q.re)) hq
    rw [show (((PATTERNS U).drop 24).take 5).map (fun q => (q.id, q.re))
      = [("private_ip", privateIpRe U), ("ip_v4", ipRe U), ("ssn_like", ssnRe U),
        ("credit_card", creditCardRe U), ("email", emailRe U)] from rfl] at hre
    simp only [List.mem_cons, Prod.mk.injEq, List.not_mem_nil, or_false] at hre hid
    obtain ⟨_, hre⟩ | ⟨hmem, _⟩ | ⟨_, hre⟩ | ⟨hmem, _⟩ | ⟨hmem, _⟩ := hre
    · rw [hre, privateIp_take hdigit]
      exact hascii (pat "private_ip" (privateIpRe asciiTables) "[REDACTED:private_ip]")
        (by simp [PATTERNS]) (by decide)
    · exact absurd (Or.inl hmem) hid
    · rw [hre, ssn_take hdigit]
      exact hascii (pat "ssn_like" (ssnRe asciiTables) "[REDACTED:ssn]")
        (by simp [PATTERNS, ssnRe]) (by decide)
    · exact absurd (Or.inr (Or.inl hmem)) hid
    · exact absurd (Or.inr (Or.inr hmem)) hid
  · exact hascii q (List.drop_subset_drop_left _ (by decide) hq) hid

/-- the match of a pattern that is behind `p` or is `p` -/
structure Behind (U : Unicode) (p q : Pattern) : Prop where
  connection : p.re.mayTake '[' = true → p.re.mayTake ' ' = false → q ∈ (PATTERNS U).drop 17
  number : p.re.bounded = true → q ∈ (PATTERNS U).drop 24

theorem late_plain (hq : q ∈ (PATTERNS U).drop 17) : q.re.anchored = false := by
  have hall : ((PATTERNS U).drop 17).all (fun q => !q.re.anchored) = true := rfl
  simpa using List.all_eq_true.mp hall q hq

theorem numbers_facts (hp : p ∈ ((PATTERNS U).drop 24).take 4) :
    p.re.bounded = true ∧ p.re.mayTake '[' = false ∧
      p.id ∈ ["private_ip", "ip_v4", "ssn_like", "credit_card"] := by
  have hall : (((PATTERNS U).drop 24).take 4).all
    (fun p => p.re.bounded && !p.re.mayTake '[') = true := rfl
  have hids : (((PATTERNS U).drop 24).take 4).map (·.id)
    = ["private_ip", "ip_v4", "ssn_like", "credit_card"] := rfl
  have hboth := List.all_eq_true.mp hall p hp
  rw [Bool.and_eq_true, Bool.not_eq_true'] at hboth
  exact ⟨hboth.1, hboth.2, hids ▸ List.mem_map_of_mem hp⟩

/-- behind the numbers there is the address, and the endpoint -/
theorem number_or_endpoint (hq : q ∈ (PATTERNS U).drop 24) (h : q.id ≠ "moagan_minimax_endpoint") :
    q ∈ ((PATTERNS U).drop 24).take 5 := by
  rw [← List.take_append_drop 5 ((PATTERNS U).drop 24)] at hq
  obtain hq | hq := List.mem_append.mp hq
  · exact hq
  · have hids : (((PATTERNS U).drop 24).drop 5).map (·.id) = ["moagan_minimax_endpoint"] := rfl
    have hid := List.mem_map_of_mem (f := (·.id)) hq
    rw [hids] at hid
    exact absurd (List.mem_singleton.mp hid) h

/-- **No other turn makes a match.** -/
theorem lifts_pattern (hU : ∀ c, U.digit c = true → spaceChar c = false) (hp : p ∈ PATTERNS U)
    (hq : q ∈ PATTERNS U) (hbehind : Behind U p q) (hspoils : ¬ Spoils p q) (text : List Char) :
    Lifts p.re.Spells (q.edits text) := by
  have hmarks := marks_pattern hq text
  obtain ⟨_, hhead, hlast, hdash⟩ := bracket_facts (mem_brackets hq)
  obtain hsteady | rfl | hmem := pattern_kinds hp
  · exact hsteady _ hmarks fun old new h => (cut_pattern hq h).2 ▸ hdash
  · -- what is cut out has been eight characters of a connection string
    have hlate := hbehind.connection rfl rfl
    have hid : q.id ∉ ["ip_v4", "credit_card", "email"] := fun h => hspoils (Or.inl ⟨rfl, h⟩)
    refine lifts_open rfl rfl rfl rfl rfl rfl hmarks fun old new h => ?_
    rw [edits_of_plain (late_plain hlate)] at h
    obtain ⟨prev, next, ha⟩ := spells_of_cut h
    refine ⟨Nat.le_trans ((late_length q hlate).resolve_left hid) (minLen_le ha), ?_⟩
    rw [List.all_eq_true]
    intro c hc
    rw [Bool.not_eq_true', Bool.eq_false_iff]
    exact fun hgap => spells_avoid (late_gaps hU hlate hid hgap) ha hc
  · -- a number is not next to a word
    obtain ⟨hbound, htake, hid⟩ := numbers_facts hmem
    have hlate := hbehind.number hbound
    have hword := number_or_endpoint hlate fun h => hspoils (Or.inr ⟨hid, h⟩)
    have hplain := late_plain (List.drop_subset_drop_left _ (by decide : 17 ≤ 24) hlate)
    rw [edits_of_plain hplain] at hmarks ⊢
    refine lifts_of_unseen (fun _ _ _ ha => spells_avoid htake ha) hmarks ?_
    refine unseen_of_wordwise (nullable_of_mem hp) (nullable_of_mem hq) hhead
      (numbers_edged hmem) (fun x y h => numbers_alike hmem h) ?_ ?_ (numbers_wordwise hword text)
    · rw [hhead]
      rfl
    · rw [hlast]
      rfl

/-- Nor does any turn make a connection string without a marker, -/
theorem lifts_unmarked (hq : q ∈ PATTERNS U) (text : List Char) :
    Lifts (fun prev a next => connectionStringRe.Spells prev a next ∧ '[' ∉ a) (q.edits text) :=
  lifts_of_unseen (fun _ _ _ ha => ha.2) (marks_pattern hq text)
    ((unseen_of_unbounded rfl (marks_pattern hq text)).and _)

/-- or a number apart from the markers. -/
theorem lifts_apart (hp : p ∈ ((PATTERNS U).drop 24).take 4) (hq : q ∈ PATTERNS U)
    (text : List Char) : Lifts (fun prev a next =>
      p.re.Spells prev a next ∧ prev ≠ some ']' ∧ next ≠ some '[') (q.edits text) := by
  have hmarks := marks_pattern hq text
  refine lifts_of_unseen (fun _ _ _ ha => spells_avoid (numbers_facts hp).2.1 ha.1) hmarks
    (unseen_apart hmarks fun old new h => ?_)
  rw [(cut_pattern hq h).2]
  exact (bracket_facts (mem_brackets hq)).2.2.1

/-! ## the run -/

theorem behind_self (hp : p ∈ PATTERNS U) : Behind U p p := by
  have hlate : ∀ (k : ℕ) (B : Pattern → Bool), ((PATTERNS U).take k).all (fun p => !B p) = true →
      B p = true → p ∈ (PATTERNS U).drop k := by
    intro k B hall hB
    rw [← List.take_append_drop k (PATTERNS U)] at hp
    obtain hp | hp := List.mem_append.mp hp
    · have hno := List.all_eq_true.mp hall p hp
      rw [hB] at hno
      cases hno
    · exact hp
  refine ⟨fun htake hspace => ?_, hlate 24 (·.re.bounded) rfl⟩
  refine hlate 17 (fun p => p.re.mayTake '[' && !p.re.mayTake ' ') rfl ?_
  rw [htake, hspace]
  rfl

theorem behind_pairwise (U : Unicode) : (PATTERNS U).Pairwise (Behind U) := by
  have hall : ((PATTERNS U).take 17).all
    (fun p => !(p.re.mayTake '[' && !p.re.mayTake ' ')) = true := rfl
  have hall' : ((PATTERNS U).take 24).all (fun p => !p.re.bounded) = true := rfl
  have hconn := pairwise_behind (B := fun p : Pattern =>
    (p.re.mayTake '[' && !p.re.mayTake ' ') = true) fun p hp htake => by
      have hno := List.all_eq_true.mp hall p hp
      rw [htake] at hno
      cases hno
  have hnum := pairwise_behind (B := fun p : Pattern => p.re.bounded = true) fun p hp => by
    simpa using List.all_eq_true.mp hall' p hp
  refine (hconn.and hnum).imp fun h => ⟨fun htake hspace => ?_, fun hbound => ?_⟩
  · refine List.drop_subset_drop_left _ (by decide) (h.1 ?_)
    rw [htake, hspace]
    rfl
  · exact List.drop_subset_drop_left _ (by decide) (h.2 hbound)

theorem not_spoils_self (p : Pattern) : ¬ Spoils p p := by
  rintro (⟨hid, hmem⟩ | ⟨hmem, hid⟩)
  all_goals
    rw [hid] at hmem
    revert hmem
    decide

/-- **A pattern's own turn leaves no match of it.** -/
theorem own_absent (hU : ∀ c, U.digit c = true → spaceChar c = false) (hp : p ∈ PATTERNS U)
    (text : List Char) : p.re.NoMatch (p.replaceAll text) := by
  cases hanch : p.re.anchored with
  | true =>
    obtain rfl := anchored_eq hp hanch
    exact noMatch_key text
  | false =>
    have hlifts := lifts_pattern hU hp hp (behind_self hp) (not_spoils_self p) text
    rw [edits_of_plain hanch] at hlifts
    rw [Pattern.replaceAll, replacement_eq hp hanch]
    exact noMatch_own (nullable_of_mem hp) (bracket_facts (mem_brackets hp)).2.1
      (skips_marker hp hp) hlifts

/-- one turn after the other -/
theorem replaceEach_absent {L : Option Char → List Char → Option Char → Prop}
    {done left : List Pattern} {text : List Char} (h : Absent L (replaceEach done text))
    (hstep : ∀ earlier q later, done ++ left = earlier ++ q :: later → q ∈ left →
      Absent L (replaceEach earlier text) → Absent L (q.replaceAll (replaceEach earlier text))) :
    Absent L (replaceEach (done ++ left) text) := by
  induction left generalizing done with
  | nil => rwa [List.append_nil]
  | cons q left ih =>
    have hturn : replaceEach (done ++ [q]) text = q.replaceAll (replaceEach done text) :=
      List.foldl_append
    have hq := hstep done q left rfl List.mem_cons_self h
    rw [← hturn] at hq
    have hassoc : done ++ q :: left = (done ++ [q]) ++ left := by rw [List.append_assoc]; rfl
    rw [hassoc] at hstep ⊢
    exact ih hq fun earlier q' later heq hmem =>
      hstep earlier q' later heq (List.mem_cons_of_mem q hmem)

/-- **A whole run.** `L` are the matches of `p` in question. -/
theorem run_absent (hU : ∀ c, U.digit c = true → spaceChar c = false) {active : List Pattern}
    (hsub : active.Sublist (PATTERNS U)) (hp : p ∈ active)
    {L : Option Char → List Char → Option Char → Prop}
    (hL : ∀ prev a next, L prev a next → p.re.Spells prev a next) {text : List Char}
    (h : ∀ earlier q later, active = earlier ++ q :: later → q ∈ PATTERNS U → Behind U p q →
      q.re.findIter (replaceEach earlier text) ≠ [] →
      Lifts L (q.edits (replaceEach earlier text))) : Absent L (replaceEach active text) := by
  obtain ⟨done, left, rfl⟩ := List.append_of_mem hp
  have hmem := hsub.subset hp
  have hpairs := (List.pairwise_append.mp ((behind_pairwise U).sublist hsub)).2.1
  have hassoc : done ++ p :: left = (done ++ [p]) ++ left := by rw [List.append_assoc]; rfl
  rw [hassoc] at h hsub ⊢
  refine replaceEach_absent (fun u a v htext ha => ?_) fun earlier q later heq hq hno => ?_
  · rw [replaceEach, List.foldl_append] at htext
    exact own_absent hU hmem _ u a v htext (hL _ _ _ ha)
  · have hqmem := hsub.subset (List.mem_append_right _ hq)
    by_cases hfound : q.re.findIter (replaceEach earlier text) = []
    · rwa [Pattern.replaceAll, replaceAll_of_findIter hfound]
    rw [← after_pattern hqmem]
    refine absent_lift hL (nullable_of_mem hmem) (marks_pattern hqmem _) (fun old new hcut => ?_)
      (h earlier q later heq hqmem ((List.pairwise_cons.mp hpairs).1 q hq) hfound) ?_
    · rw [(cut_pattern hqmem hcut).2]
      exact skips_marker hmem hqmem
    · rwa [before_pattern hqmem]

/-! ## the whole output -/

/-- the match is made of a marker: it takes in where one begins, or is beside one -/
def Touches (p : Pattern) (prev : Option Char) (a : List Char) (next : Option Char) : Prop :=
  p.id = "connection_string" ∧ '[' ∈ a ∨
    p.id ∈ ["private_ip", "ip_v4", "ssn_like", "credit_card"] ∧ (prev = some ']' ∨ next = some '[')

/-- a pattern that can spoil `p` has found something in its turn -/
def Spoiled (U : Unicode) (policy : RedactPolicy) (p : Pattern) (text : List Char) : Prop :=
  ∃ earlier q later, policy.activePatterns U = earlier ++ q :: later ∧ Spoils p q ∧
    q.re.findIter (replaceEach earlier text) ≠ []

/-- what matches nowhere is left as it is -/
theorem replaceEach_of_findIter {active : List Pattern} {text : List Char}
    (h : ∀ p ∈ active, p.re.findIter text = []) : replaceEach active text = text := by
  induction active with
  | nil => rfl
  | cons p active ih =>
    have hturn : p.replaceAll text = text := replaceAll_of_findIter (h p List.mem_cons_self) _
    show replaceEach active (p.replaceAll text) = text
    rw [hturn]
    exact ih fun q hq => h q (List.mem_cons_of_mem p hq)

/-- **A match that is left has been made by a marker.**  It takes the marker in or is beside it,
and the pattern of the marker has found something; where no marker can make a match, nothing matches
any more, and another run changes nothing. -/
theorem apply_complete (U : Unicode) (hU : ∀ c, U.digit c = true → spaceChar c = false)
    (policy : RedactPolicy) (surface : Surface) (h : policy.isEnabled surface = true)
    (text : List Char) :
    (∀ p ∈ policy.activePatterns U, ∀ u rest, apply U policy surface text = u ++ rest →
      ∀ m ∈ p.re.ends u.getLast? rest,
        Touches p u.getLast? m.taken m.rest.head? ∧ Spoiled U policy p text) ∧
    (∀ p ∈ policy.activePatterns U, ¬ Spoiled U policy p text →
      p.re.findIter (apply U policy surface text) = []) ∧
    ((∀ p ∈ policy.activePatterns U, ¬ Spoiled U policy p text) →
      apply U policy surface (apply U policy surface text) = apply U policy surface text) := by
  have hsub := activePatterns_sublist U policy
  have hclean : ∀ p ∈ policy.activePatterns U, ¬ Spoiled U policy p text →
      p.re.NoMatch (apply U policy surface text) := by
    intro p hp hspoiled
    rw [apply_enabled h]
    refine run_absent hU hsub hp (fun _ _ _ ha => ha) fun earlier q later heq hq hbehind hfound => ?_
    refine lifts_pattern hU (hsub.subset hp) hq hbehind (fun hspoils => ?_) _
    exact hspoiled ⟨earlier, q, later, heq, hspoils, hfound⟩
  have hfind : ∀ p ∈ policy.activePatterns U, ¬ Spoiled U policy p text →
      p.re.findIter (apply U policy surface text) = [] := fun p hp hspoiled =>
    (findIter_nil (nullable_of_mem (hsub.subset hp))).mpr (hclean p hp hspoiled)
  refine ⟨fun p hp u rest htext m hm => ?_, hfind, fun hspoiled => ?_⟩
  · have ha := spells_of_mem p.re _ _ _ hm
    have hplace : apply U policy surface text = u ++ (m.taken ++ m.rest) := by
      rw [htext, split_of_mem hm]
    have hspoiled : Spoiled U policy p text := by
      by_contra hno
      exact hclean p hp hno u m.taken m.rest hplace ha
    refine ⟨?_, hspoiled⟩
    rw [apply_enabled h] at hplace
    by_contra hapart
    obtain hsteady | rfl | hmem := pattern_kinds (hsub.subset hp)
    · refine run_absent hU hsub hp (fun _ _ _ ha => ha) (fun earlier q later _ hq _ _ => ?_) u
        m.taken m.rest hplace ha
      refine hsteady _ (marks_pattern hq _) fun old new hcut => ?_
      rw [(cut_pattern hq hcut).2]
      exact (bracket_facts (mem_brackets hq)).2.2.2
    · exact run_absent hU hsub hp (fun _ _ _ ha => ha.1)
        (fun earlier q later _ hq _ _ => lifts_unmarked hq _) u m.taken m.rest hplace
        ⟨ha, fun hin => hapart (Or.inl ⟨rfl, hin⟩)⟩
    · have hid := (numbers_facts hmem).2.2
      exact run_absent hU hsub hp (fun _ _ _ ha => ha.1)
        (fun earlier q later _ hq _ _ => lifts_apart hmem hq _) u m.taken m.rest hplace
        ⟨ha, fun heq => hapart (Or.inr ⟨hid, Or.inl heq⟩),
          fun heq => hapart (Or.inr ⟨hid, Or.inr heq⟩)⟩
  · rw [apply_enabled h (apply U policy surface text)]
    exact replaceEach_of_findIter fun p hp => hfind p hp (hspoiled p hp)

end

/-- a key, and an address beside it -/
def keyAndAddress : List Char := ['h', 'f', '_'] ++ List.replicate 20 'a' ++
  [' ', 'a', '@', 'b', '.', 'c']

def tokenPolicy : RedactPolicy := RedactPolicy.default.withPatterns ["huggingface_token", "email"]

theorem apply_complete_tokens :
    apply asciiTables tokenPolicy .storage (apply asciiTables tokenPolicy .storage keyAndAddress)
      = apply asciiTables tokenPolicy .storage keyAndAddress := by
  refine (apply_complete asciiTables (fun _ h => by cases h) tokenPolicy .storage rfl
    keyAndAddress).2.2 fun p hp hspoiled => ?_
  obtain ⟨_, q, _, _, hspoils, _⟩ := hspoiled
  have hids : ∀ p ∈ tokenPolicy.activePatterns asciiTables,
      p.id ∉ ["connection_string", "private_ip", "ip_v4", "ssn_like", "credit_card"] := by
    decide +kernel
  refine hids p hp (hspoils.elim (fun h => ?_) fun h => List.mem_cons_of_mem _ h.1)
  rw [h.1]
  exact List.mem_cons_self

/-- `redis://1.2.3.4`: the address is too short for a connection string -/
def redisText : List Char :=
  ['r', 'e', 'd', 'i', 's', ':', '/', '/', '1', '.', '2', '.', '3', '.', '4']

/-- `1.2.3.4https://api.minimax.io/x`: the address is not at the end of a word -/
def endpointText : List Char :=
  ['1', '.', '2', '.', '3', '.', '4', 'h', 't', 't', 'p', 's', ':', '/', '/', 'a', 'p', 'i', '.',
    'm', 'i', 'n', 'i', 'm', 'a', 'x', '.', 'i', 'o', '/', 'x']

/-- A marker can complete a connection string, and can end a word beside a number, and then another
run changes the output. -/
theorem apply_incomplete :
    (¬ ∀ (U : Unicode) (text : List Char), ∀ p ∈ PATTERNS U,
      p.re.findIter (apply U .default .storage text) = []) ∧
    (¬ ∀ (U : Unicode) (text : List Char), apply U .default .storage (apply U .default .storage text)
      = apply U .default .storage text) ∧
    ¬ ∀ (U : Unicode) (text : List Char), ∀ p ∈ PATTERNS U, p.id = "ip_v4" →
      p.re.findIter (apply U .default .storage text) = [] := by
  refine ⟨fun h => ?_, fun h => ?_, fun h => ?_⟩
  · have hleft : ¬ ∀ p ∈ PATTERNS asciiTables,
        p.re.findIter (apply asciiTables .default .storage redisText) = [] := by decide +kernel
    exact hleft (h asciiTables redisText)
  · have hchange : apply asciiTables .default .storage
        (apply asciiTables .default .storage redisText)
          ≠ apply asciiTables .default .storage redisText := by decide +kernel
    exact hchange (h asciiTables redisText)
  · have hleft : ¬ ∀ p ∈ PATTERNS asciiTables, p.id = "ip_v4" →
        p.re.findIter (apply asciiTables .default .storage endpointText) = [] := by decide +kernel
    exact hleft (h asciiTables endpointText)

end Moagan.Redact
