import Moagan.Redact.Writer

/-!
# Redaction line by line, and of the whole text

* `StayInLines`        what each pattern finds at its turn stays within a line
* `replaceEach_iff`    then, and only then, the lines can be redacted one by one
* `stream_whole`       for the writer, however the bytes are split
* `stream_leaks`       a certificate goes on as it is
-/

namespace Moagan.Redact

open Regex Lines

/-! ## the condition -/

/-- a key at the beginning of a line -/
def startsWithKey (l : List Char) : Bool := 32 ≤ l.length && (l.take 32).all hexChar

/-- No match of `p` takes a line end; and if `p` has `^`, which stands for the beginning of the text,
no line but the first begins with a key. -/
def Pattern.StaysInLines (p : Pattern) (text : List Char) : Prop :=
  (∀ m ∈ p.re.findIter text, '\n' ∉ m) ∧
    (p.re.anchored = true → ∀ l ∈ (lines '\n' text).tail, startsWithKey l = false)

instance (p : Pattern) (text : List Char) : Decidable (p.StaysInLines text) :=
  inferInstanceAs (Decidable (_ ∧ (_ → _)))

/-- each pattern at its turn -/
def StayInLines : List Pattern → List Char → Prop
  | [], _ => True
  | p :: active, text => p.StaysInLines text ∧ StayInLines active (p.replaceAll text)

instance decidableStayInLines : (active : List Pattern) → (text : List Char) →
    Decidable (StayInLines active text)
  | [], _ => isTrue trivial
  | p :: active, text =>
    have := decidableStayInLines active (p.replaceAll text)
    inferInstanceAs (Decidable (_ ∧ _))

theorem mem_findIter {r : Regex Char} {text : List Char} :
    (∀ t ∈ r.findIter text, '\n' ∉ t) ↔ ∀ m, .found m ∈ r.scan none text → '\n' ∉ m.taken := by
  unfold findIter
  constructor
  · intro h m hm
    exact h m.taken (List.mem_filterMap.mpr ⟨.found m, hm, rfl⟩)
  · intro h t ht
    obtain ⟨piece, hpiece, heq⟩ := List.mem_filterMap.mp ht
    cases piece with
    | plain c => cases heq
    | found m =>
      obtain rfl : m.taken = t := Option.some.inj heq
      exact h m hpiece

/-! ## the patterns at the lines -/

section
variable {U : Unicode} {p : Pattern}

theorem anchored_eq (hp : p ∈ PATTERNS U) (h : p.re.anchored = true) : p = elevenlabsKey := by
  have hmem : p ∈ (PATTERNS U).filter (·.re.anchored) := List.mem_filter.mpr ⟨hp, h⟩
  rw [patterns_anchored] at hmem
  exact List.mem_singleton.mp hmem

theorem keyMarker_eq : "[REDACTED:elevenlabs_key]".toList = keyMarker := by decide +kernel

theorem marker_of_plain (hp : p ∈ PATTERNS U) (h : p.re.anchored = false) :
    ∃ w, p.replacement = [.text w] ∧ isMarker w = true := by
  have hmarked := patterns_marked U p hp
  unfold Pattern.marked at hmarked
  split at hmarked
  · rename_i w hw
    exact ⟨w, hw, hmarked⟩
  · rw [h] at hmarked
    cases hmarked

theorem pattern_safe (hp : p ∈ PATTERNS U) : LineSafe '\n' p.re p.replacement := by
  have hsound := patterns_sound U p hp
  simp only [Pattern.sound, Bool.and_eq_true, Bool.not_eq_true'] at hsound
  refine ⟨hsound.1.1, hsound.1.2, fun s hs => ?_⟩
  cases hanch : p.re.anchored with
  | true =>
    rw [anchored_eq hp hanch] at hs
    have hs : s = "[REDACTED:elevenlabs_key]".toList := by simpa [elevenlabsKey] using hs
    rw [hs, keyMarker_eq]
    decide
  | false =>
    obtain ⟨w, hrep, hw⟩ := marker_of_plain hp hanch
    rw [hrep] at hs
    obtain rfl : s = w := Part.text.inj (List.mem_singleton.mp hs)
    simp only [isMarker, Bool.and_eq_true, Bool.not_eq_true'] at hw
    intro hm
    have hno := hw.2
    rw [List.contains_iff_mem.mpr hm] at hno
    cases hno

/-! ## `elevenlabs_key` at the beginning of a line -/

/-- the characters before a key -/
def contextChar (c : Char) : Bool := c == '=' || c == ':' || c == ' ' || c == '\t'

/-- the key behind what has been matched before it -/
def keyEnds (l : List Char) : List (Match Char) :=
  if startsWithKey l then [⟨l.take 32, l.drop 32, [("key", l.take 32)]⟩] else []

theorem key_ends (prev : Option Char) (l : List Char) :
    (group "key" (exactly 32 hexChar)).ends prev l = keyEnds l := by
  show ((rep true 32 (some 32) (cls hexChar)).ends prev l).map _ = _
  rw [ends_exactly, keyEnds, startsWithKey]
  by_cases h : 32 ≤ l.length ∧ (l.take 32).all hexChar = true
  · rw [if_pos h, if_pos (by simpa using h)]
    rfl
  · rw [if_neg h, if_neg (by simpa using h)]
    rfl

/-- what `^` or a character of the context leaves -/
theorem elevenlabs_ends (prev : Option Char) (l : List Char) : elevenlabsRe.ends prev l
    = (if prev.isNone then keyEnds l else []) ++
      ((group "ctx" (cls contextChar)).ends none l).flatMap fun m =>
        (keyEnds m.rest).map m.append := by
  show andThen _ _ prev l = _
  have hkey : ∀ (m : Match Char), (group "key" (exactly 32 hexChar)).ends (m.last prev) m.rest
      = keyEnds m.rest := fun m => key_ends _ _
  have hstay : ∀ ms : List (Match Char), ms.map (Match.stay l).append = ms := by
    intro ms
    exact List.map_id _
  have hctx : (group "ctx" (cls contextChar)).ends prev l
      = (group "ctx" (cls contextChar)).ends none l := by
    cases l with
    | nil => rfl
    | cons c l => rfl
  unfold andThen
  simp only [hkey]
  show ((if prev.isNone then [Match.stay l] else []) ++
    (group "ctx" (cls contextChar)).ends prev l).flatMap _ = _
  rw [List.flatMap_append, hctx]
  cases prev.isNone with
  | true =>
    rw [if_pos rfl, if_pos rfl, List.flatMap_cons, List.flatMap_nil, List.append_nil, hstay]
    rfl
  | false => rfl

/-- without a key at its beginning a line is the same behind the text before it -/
theorem elevenlabs_behind {l : List Char} (h : startsWithKey l = false) (prev : Option Char) :
    elevenlabsRe.ends prev l = elevenlabsRe.ends none l := by
  have hkey : keyEnds l = [] := by
    rw [keyEnds, h]
    rfl
  rw [elevenlabs_ends, elevenlabs_ends none, hkey]
  cases prev with
  | none => rfl
  | some c => rfl

theorem hex_of_startsWithKey {c : Char} {l : List Char} (h : startsWithKey (c :: l) = true) :
    hexChar c = true := by
  simp only [startsWithKey, Bool.and_eq_true, List.all_eq_true] at h
  exact h.2 c (by simp)

theorem not_context_of_hex {c : Char} (h : hexChar c = true) : contextChar c = false ∧ c ≠ '[' := by
  have hne : ∀ a : Char, hexChar a = false → c ≠ a := by
    intro a ha heq
    rw [heq, ha] at h
    cases h
  refine ⟨?_, hne '[' rfl⟩
  simp only [contextChar, Bool.or_eq_false_iff, beq_eq_false_iff_ne]
  exact ⟨⟨⟨hne '=' rfl, hne ':' rfl⟩, hne ' ' rfl⟩, hne '\t' rfl⟩

/-- behind another line a key at the beginning stays -/
theorem key_behind {c : Char} {l : List Char} (h : startsWithKey (c :: l) = true)
    (template : List (Regex.Part Char)) :
    ∃ out, elevenlabsRe.replaceFrom template (some '\n') (c :: l) = c :: out := by
  have hctx := (not_context_of_hex (hex_of_startsWithKey h)).1
  have hends : elevenlabsRe.ends (some '\n') (c :: l) = [] := by
    rw [elevenlabs_ends]
    show [] ++ ((if contextChar c then _ else []).map _).flatMap _ = _
    rw [hctx]
    rfl
  have hfirst : elevenlabsRe.first (some '\n') (c :: l) = none := by
    rw [first, hends]
    rfl
  refine ⟨elevenlabsRe.replaceFrom template (some c) l, ?_⟩
  rw [replaceFrom, scan_plain hfirst, List.flatMap_cons]
  rfl

/-- at the beginning of a text it is redacted -/
theorem key_first {l : List Char} (h : startsWithKey l = true) :
    ∃ out, elevenlabsKey.replaceAll l = keyMarker ++ out := by
  have hne : (l.take 32).isEmpty = false := by
    simp only [startsWithKey, Bool.and_eq_true, decide_eq_true_eq] at h
    rw [List.isEmpty_eq_false_iff, ← List.length_pos_iff, List.length_take]
    omega
  have hfirst : elevenlabsRe.first none l
      = some ⟨l.take 32, l.drop 32, [("key", l.take 32)]⟩ := by
    have hkey : keyEnds l = [⟨l.take 32, l.drop 32, [("key", l.take 32)]⟩] := by
      rw [keyEnds, h]
      rfl
    rw [first, elevenlabs_ends, hkey]
    show (some _ : Option (Match Char)).filter _ = _
    rw [Option.filter_some, hne]
    rfl
  cases l with
  | nil => cases h
  | cons c l =>
    refine ⟨elevenlabsRe.replaceFrom elevenlabsKey.replacement
      ((c :: l).take 32).getLast? ((c :: l).drop 32), ?_⟩
    show elevenlabsRe.replaceFrom _ none (c :: l) = _
    rw [replaceFrom, scan_found hfirst, List.flatMap_cons, write_found]
    show (Match.group _ "ctx" ++ ("[REDACTED:elevenlabs_key]".toList ++ [])) ++ _ = _
    rw [keyMarker_eq, List.append_nil]
    have hgroup : Match.group (α := Char)
        ⟨(c :: l).take 32, (c :: l).drop 32, [("key", (c :: l).take 32)]⟩ "ctx" = [] := by
      simp [Match.group]
    rw [hgroup, List.nil_append]
    rfl

/-! ## the two markers never agree -/

/-- the marker of `elevenlabs_key` stays -/
theorem marker_stays {active : List Pattern}
    (h : ∀ p ∈ active, p ∈ PATTERNS U ∧ p.re.anchored = false) (out : List Char) :
    ∃ out', replaceEach active (keyMarker ++ out) = keyMarker ++ out' := by
  induction active generalizing out with
  | nil => exact ⟨out, rfl⟩
  | cons p active ih =>
    obtain ⟨hp, hanch⟩ := h p List.mem_cons_self
    have hplain := patterns_plain U p hp
    simp only [Pattern.plain, hanch, Bool.false_or, Bool.and_eq_true] at hplain
    obtain ⟨out', hout⟩ := replace_passes hplain.2 p.replacement none out
    obtain ⟨out'', hout'⟩ := ih (fun q hq => h q (List.mem_cons_of_mem p hq)) out'
    refine ⟨out'', ?_⟩
    rw [← hout', ← hout]
    rfl

/-- and no other pattern writes its beginning -/
theorem no_marker {active : List Pattern}
    (h : ∀ p ∈ active, p ∈ PATTERNS U ∧ p.re.anchored = false) {l : List Char}
    (hl : ¬ keyMarker.take 12 <+: l) : ¬ keyMarker.take 12 <+: replaceEach active l := by
  induction active generalizing l with
  | nil => exact hl
  | cons p active ih =>
    obtain ⟨hp, hanch⟩ := h p List.mem_cons_self
    refine ih (fun q hq => h q (List.mem_cons_of_mem p hq)) (l := p.replaceAll l) fun hpre => hl ?_
    obtain ⟨w, hrep, hw⟩ := marker_of_plain hp hanch
    simp only [isMarker, Bool.and_eq_true, Bool.not_eq_true', decide_eq_true_eq, beq_iff_eq] at hw
    obtain ⟨⟨⟨hhead, hlen⟩, hnot⟩, _⟩ := hw
    have hexpand : ∀ m : Match Char, expand p.replacement m = w := by
      intro m
      rw [hrep]
      exact List.append_nil w
    unfold Pattern.replaceAll Regex.replaceAll replaceFrom at hpre
    rw [← scan_source p.re none l]
    cases hscan : p.re.scan none l with
    | nil =>
      rw [hscan] at hpre
      exact hpre
    | cons piece ps =>
      rw [hscan, List.flatMap_cons] at hpre
      cases piece with
      | plain c =>
        obtain ⟨hc, hpre⟩ := List.cons_prefix_cons.mp (show '[' :: _ <+: c :: _ from hpre)
        rw [List.flatMap_cons]
        refine List.cons_prefix_cons.mpr ⟨hc, prefix_of_write (c := '[') ?_ (by decide) hpre⟩
        intro m _
        cases w with
        | nil => cases hhead
        | cons a w =>
          obtain rfl : a = '[' := Option.some.inj hhead
          exact ⟨w, hexpand m⟩
      | found m =>
        rw [write_found, hexpand] at hpre
        have hwpre : keyMarker.take 12 <+: w := by
          refine List.prefix_of_prefix_length_le hpre (List.prefix_append w _) ?_
          exact hlen
        rw [List.isPrefixOf_iff_prefix.mpr hwpre] at hnot
        cases hnot

/-! ## one turn -/

theorem isLine_lines {text l : List Char} (h : l ∈ lines '\n' text) : IsLine '\n' l := by
  obtain ⟨cs, o, heq, hcs, ho⟩ := lined_lines (d := '\n') text
  rw [heq] at h
  obtain h | h := List.mem_append.mp h
  · exact Or.inl (hcs l h)
  · rw [List.mem_singleton.mp h]
    exact Or.inr ho

theorem isLine_replaceAll (hp : p ∈ PATTERNS U) {l : List Char} (hl : IsLine '\n' l) :
    IsLine '\n' (p.replaceAll l) :=
  hl.imp ((pattern_safe hp).closed none) ((pattern_safe hp).open none)

/-- the lines behind the turn, when no match took a line end -/
theorem lines_turn (hp : p ∈ PATTERNS U) {text : List Char}
    (h : ∀ m ∈ p.re.findIter text, '\n' ∉ m) : lines '\n' (p.replaceAll text)
      = replaceLines '\n' p.re p.replacement none (lines '\n' text) := by
  have hsafe := pattern_safe hp
  unfold Pattern.replaceAll Regex.replaceAll
  rw [replace_lines hsafe.ends p.replacement (mem_findIter.mp h)]
  exact lines_of_lined (hsafe.replaceLines none (lined_lines text))

/-- behind a text a line is replaced as alone -/
theorem replace_behind (hp : p ∈ PATTERNS U) {l : List Char} (hl : IsLine '\n' l)
    (h : p.re.anchored = true → startsWithKey l = false) :
    p.re.replaceFrom p.replacement (some '\n') l = p.replaceAll l := by
  cases hanch : p.re.anchored with
  | true =>
    rw [anchored_eq hp hanch]
    show elevenlabsRe.replaceFrom _ (some '\n') l = elevenlabsRe.replaceFrom _ none l
    rw [replaceFrom, replaceFrom, scan_congr (elevenlabs_behind (h hanch) _)]
  | false =>
    have hplain := patterns_plain U p hp
    simp only [Pattern.plain, hanch, Bool.false_or, Bool.and_eq_true] at hplain
    exact replace_alike (pattern_safe hp).ends p.replacement hplain.1 hl

theorem lines_stay (hp : p ∈ PATTERNS U) {text : List Char} (h : p.StaysInLines text) :
    lines '\n' (p.replaceAll text) = (lines '\n' text).map p.replaceAll := by
  rw [lines_turn hp h.1]
  apply replaceLines_map
  intro l hl
  exact replace_behind hp (isLine_lines (List.mem_of_mem_tail hl)) fun hanch => h.2 hanch l hl

theorem replaceAll_count_le (hp : p ∈ PATTERNS U) (text : List Char) :
    (p.replaceAll text).count '\n' ≤ text.count '\n' := (pattern_safe hp).count_le none text

theorem replaceAll_count_eq (hp : p ∈ PATTERNS U) {text : List Char} :
    (p.replaceAll text).count '\n' = text.count '\n' ↔ ∀ m ∈ p.re.findIter text, '\n' ∉ m := by
  rw [mem_findIter]
  exact (pattern_safe hp).count_eq none text

/-! ## all turns -/

section
variable {active : List Pattern} (hactive : ∀ p ∈ active, p ∈ PATTERNS U)
include hactive

theorem replaceEach_count_le (text : List Char) :
    (replaceEach active text).count '\n' ≤ text.count '\n' := by
  induction active generalizing text with
  | nil => exact Nat.le_refl _
  | cons p active ih =>
    have hrest := ih (fun q hq => hactive q (List.mem_cons_of_mem p hq)) (p.replaceAll text)
    exact Nat.le_trans hrest (replaceAll_count_le (hactive p List.mem_cons_self) text)

/-- a line keeps its end -/
theorem replaceEach_line {l : List Char} (hl : IsLine '\n' l) :
    (replaceEach active l).count '\n' = l.count '\n' := by
  induction active generalizing l with
  | nil => rfl
  | cons p active ih =>
    have hp := hactive p List.mem_cons_self
    have hrest := ih (fun q hq => hactive q (List.mem_cons_of_mem p hq)) (isLine_replaceAll hp hl)
    exact hrest.trans ((pattern_safe hp).count_line none hl)

theorem replaceEach_lined {ls : List (List Char)} (hls : Lined '\n' ls) :
    Lined '\n' (ls.map (replaceEach active)) := by
  induction active generalizing ls with
  | nil =>
    have hid : replaceEach [] = id := rfl
    rwa [hid, List.map_id]
  | cons p active ih =>
    have hsafe := pattern_safe (hactive p List.mem_cons_self)
    have hrest := ih (fun q hq => hactive q (List.mem_cons_of_mem p hq))
      (hls.map (f := p.replaceAll) (fun _ => hsafe.closed none) fun _ => hsafe.open none)
    rwa [List.map_map] at hrest

/-- redacting line by line loses no line end -/
theorem lines_count (text : List Char) :
    ((lines '\n' text).map (replaceEach active)).flatten.count '\n' = text.count '\n' := by
  have hcount : ∀ ls : List (List Char), (∀ l ∈ ls, IsLine '\n' l) →
      (ls.map (replaceEach active)).flatten.count '\n' = ls.flatten.count '\n' := by
    intro ls hls
    induction ls with
    | nil => rfl
    | cons l ls ih =>
      rw [List.map_cons, List.flatten_cons, List.flatten_cons, List.count_append, List.count_append,
        replaceEach_line hactive (hls l List.mem_cons_self),
        ih fun l' hl' => hls l' (List.mem_cons_of_mem l hl')]
  rw [hcount _ fun _ => isLine_lines, lines_flatten]

/-- **If what is found stays within the lines, they can be redacted one by one.** -/
theorem replaceEach_stay {text : List Char} (h : StayInLines active text) :
    ((lines '\n' text).map (replaceEach active)).flatten = replaceEach active text := by
  induction active generalizing text with
  | nil =>
    have hid : replaceEach [] = id := rfl
    rw [hid, List.map_id, lines_flatten]
    rfl
  | cons p active ih =>
    have hp := hactive p List.mem_cons_self
    have hrest := ih (fun q hq => hactive q (List.mem_cons_of_mem p hq)) h.2
    rw [lines_stay hp h.1, List.map_map] at hrest
    exact hrest

/-- patterns without `^`: as many line ends as before are enough -/
theorem stay_of_count (hplain : ∀ p ∈ active, p.re.anchored = false) {text : List Char}
    (h : (replaceEach active text).count '\n' = text.count '\n') : StayInLines active text := by
  induction active generalizing text with
  | nil => trivial
  | cons p active ih =>
    have hp := hactive p List.mem_cons_self
    have hrest := fun q hq => hactive q (List.mem_cons_of_mem p hq)
    have hle := replaceEach_count_le hrest (p.replaceAll text)
    have hle' := replaceAll_count_le hp text
    have h : (replaceEach active (p.replaceAll text)).count '\n' = text.count '\n' := h
    refine ⟨⟨(replaceAll_count_eq hp).mp (by omega), fun hanch => ?_⟩,
      ih hrest (fun q hq => hplain q (List.mem_cons_of_mem p hq)) (by omega)⟩
    rw [hplain p List.mem_cons_self] at hanch
    cases hanch

end

/-- a later line that begins with a key is redacted alone, and not in the text -/
theorem no_key_behind {active : List Pattern}
    (hactive : ∀ p ∈ active, p ∈ PATTERNS U ∧ p.re.anchored = false) {l : List Char}
    (h : startsWithKey l = true) :
    replaceEach active (elevenlabsRe.replaceFrom elevenlabsKey.replacement (some '\n') l)
      ≠ replaceEach active (elevenlabsKey.replaceAll l) := by
  intro heq
  obtain ⟨out, hout⟩ := key_first h
  obtain ⟨out', hout'⟩ := marker_stays hactive out
  cases l with
  | nil => cases h
  | cons c l =>
    obtain ⟨rest, hrest⟩ := key_behind h elevenlabsKey.replacement
    have hne := (not_context_of_hex (hex_of_startsWithKey h)).2
    have hnot : ¬ keyMarker.take 12 <+: c :: rest := fun hpre =>
      hne (List.cons_prefix_cons.mp (show '[' :: _ <+: c :: rest from hpre)).1.symm
    apply no_marker hactive hnot
    rw [← hrest, heq, hout, hout']
    exact (List.take_prefix 12 keyMarker).trans (List.prefix_append keyMarker out')

/-- a pattern with `^` is the only one -/
theorem plain_behind {active : List Pattern} (hactive : (p :: active).Sublist (PATTERNS U))
    (h : p.re.anchored = true) : ∀ q ∈ active, q.re.anchored = false := by
  have hsub := hactive.filter (·.re.anchored)
  rw [patterns_anchored, List.filter_cons_of_pos (p := fun q : Pattern => q.re.anchored) h] at hsub
  have hnil := hsub.length_le
  rw [List.length_cons, List.length_singleton] at hnil
  intro q hq
  by_contra hanch
  have hmem : q ∈ active.filter (·.re.anchored) :=
    List.mem_filter.mpr ⟨hq, Bool.not_eq_false _ ▸ hanch⟩
  have hpos := List.length_pos_of_mem hmem
  omega

/-- **Exactly then.**  The lines redacted one by one make up the redacted text iff what each pattern
finds at its turn stays within a line. -/
theorem replaceEach_iff {active : List Pattern} (hactive : active.Sublist (PATTERNS U))
    (text : List Char) : ((lines '\n' text).map (replaceEach active)).flatten
      = replaceEach active text ↔ StayInLines active text := by
  refine ⟨fun heq => ?_, replaceEach_stay fun p hp => hactive.subset hp⟩
  induction active generalizing text with
  | nil => trivial
  | cons p active ih =>
    have hall : ∀ q ∈ p :: active, q ∈ PATTERNS U := fun q hq => hactive.subset hq
    have hp := hall p List.mem_cons_self
    have hrest : ∀ q ∈ active, q ∈ PATTERNS U := fun q hq => hall q (List.mem_cons_of_mem p hq)
    -- no line end is lost at any turn
    have hcount := lines_count hall text
    rw [heq] at hcount
    have hcount : (replaceEach active (p.replaceAll text)).count '\n' = text.count '\n' := hcount
    have hle := replaceEach_count_le hrest (p.replaceAll text)
    have hle' := replaceAll_count_le hp text
    have hin : ∀ m ∈ p.re.findIter text, '\n' ∉ m := (replaceAll_count_eq hp).mp (by omega)
    have hstays : p.StaysInLines text := by
      refine ⟨hin, fun hanch l hl => ?_⟩
      by_contra hkey
      have hplain := plain_behind hactive hanch
      have hstay : StayInLines active (p.replaceAll text) := stay_of_count hrest hplain (by omega)
      have heq' := (replaceEach_stay hrest hstay).trans heq.symm
      have hmap := (replaceEach_lined hrest (lined_lines _)).inj
        (replaceEach_lined hall (lined_lines text)) heq'
      rw [lines_turn hp hin] at hmap
      cases hlines : lines '\n' text with
      | nil =>
        rw [hlines] at hl
        cases hl
      | cons l₀ ls =>
        rw [hlines, List.tail_cons] at hl
        rw [hlines, replaceLines_none, List.map_cons, List.map_cons, List.map_map] at hmap
        have hl := List.map_inj_left.mp (List.cons.inj hmap).2 l hl
        rw [anchored_eq hp hanch] at hl
        exact no_key_behind (fun q hq => ⟨hrest q hq, hplain q hq⟩)
          ((Bool.not_eq_false _).mp hkey) hl
    refine ⟨hstays, ih ((List.sublist_cons_self p active).trans hactive) (p.replaceAll text) ?_⟩
    rw [lines_stay hp hstays, List.map_map]
    exact heq

/-! ## the writer and the whole text -/

/-- **The writer redacts as `apply` does.**  However the bytes of a valid text are split into writes,
the sink gets the redacted text iff, where redaction is enabled, what each pattern finds at its turn
stays within a line. -/
theorem stream_whole (U : Unicode) (policy : RedactPolicy) (surface : Surface) (text : List Char)
    (chunks : List (List UInt8)) (h : chunks.flatten = utf8 text) :
    stream U policy surface chunks = some (utf8 (apply U policy surface text)) ↔
      (policy.isEnabled surface = true → StayInLines (policy.activePatterns U) text) := by
  rw [stream_text policy surface h]
  have hiff : some (utf8 ((lines '\n' text).map (apply U policy surface)).flatten)
      = some (utf8 (apply U policy surface text)) ↔
        ((lines '\n' text).map (apply U policy surface)).flatten = apply U policy surface text :=
    ⟨fun heq => utf8_inj (Option.some.inj heq), fun heq => by rw [heq]⟩
  rw [hiff]
  cases henabled : policy.isEnabled surface with
  | false =>
    have hid : apply U policy surface = id := funext (apply_disabled henabled)
    rw [hid, List.map_id, lines_flatten]
    exact ⟨fun _ => nofun, fun _ => rfl⟩
  | true =>
    have hid : apply U policy surface = replaceEach (policy.activePatterns U) :=
      funext (apply_enabled henabled)
    rw [hid, replaceEach_iff (activePatterns_sublist U policy)]
    exact ⟨fun hstay _ => hstay, fun hstay => hstay rfl⟩

def asciiTables : Unicode := ⟨fun _ => false, fun _ => false⟩

def minimaxPolicy : RedactPolicy := RedactPolicy.default.withPatterns ["minimax_sk_cp"]

/-- a key, and a second line -/
def sampleText : List Char :=
  ['k', '=', 's', 'k', '-', 'c', 'p', '-', 'a', 'a', 'a', 'a', 'a', 'a', 'a', 'a', 'a', 'a', 'a', 'a',
    'a', 'a', 'a', 'a', '\n', 'o', 'k']

def sampleChunks : List (List UInt8) := [utf8 (sampleText.take 6), utf8 (sampleText.drop 6)]

theorem stream_whole_sample :
    stream asciiTables minimaxPolicy .telemetry sampleChunks
      = some (utf8 (apply asciiTables minimaxPolicy .telemetry sampleText)) := by
  have hflat : sampleChunks.flatten = utf8 sampleText := by decide +kernel
  refine (stream_whole asciiTables minimaxPolicy .telemetry sampleText sampleChunks hflat).mpr
    fun _ => ?_
  decide +kernel

/-- three lines -/
def certificate : List Char :=
  dashes ++ ['B', 'E', 'G', 'I', 'N', ' ', 'C', 'E', 'R', 'T', 'I', 'F', 'I', 'C', 'A', 'T', 'E'] ++
    dashes ++ ['\n', 'M', 'I', 'I', '\n'] ++ dashes ++
    ['E', 'N', 'D', ' ', 'C', 'E', 'R', 'T', 'I', 'F', 'I', 'C', 'A', 'T', 'E'] ++ dashes

/-- the certificate goes on as it is -/
theorem stream_leaks :
    ¬ ∀ (U : Unicode) (policy : RedactPolicy) (surface : Surface) (text : List Char)
      (chunks : List (List UInt8)), chunks.flatten = utf8 text →
        stream U policy surface chunks = some (utf8 (apply U policy surface text)) := by
  intro hall
  have hwhole := hall asciiTables .default .telemetry certificate [utf8 certificate] (by simp)
  rw [stream_text _ _ (show [utf8 certificate].flatten = utf8 certificate by simp)] at hwhole
  have heq := utf8_inj (Option.some.inj hwhole)
  revert heq
  decide +kernel

end

end Moagan.Redact
