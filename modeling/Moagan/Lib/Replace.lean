import Moagan.Lib.Lines
import Moagan.Lib.Regex

set_option linter.unusedSectionVars false

/-!
# Replacing all matches

* `scan`            the text as characters and matches, from left to right
* `replaceAll`      every match is written as the template says
* `scan_source`     the pieces make up the text
* `count_replace`   a match that takes `d` makes the `d`s fewer
* `replace_lines`   else the lines are replaced one by one
* `replace_alike`   and nothing but `^` and `\b` tells the first line from the others
-/

namespace Regex

open Lines

variable {α : Type}

/-! ## the scan -/

inductive Piece (α : Type) where
  | plain (c : α)
  | found (m : Match α)

/-- the preferred match, if it takes a character -/
def first (r : Regex α) (prev : Option α) (text : List α) : Option (Match α) :=
  (r.ends prev text).head?.filter fun m => !m.taken.isEmpty

/-- one piece of the text is left behind in a round, so that its length is enough of them -/
def pieces (r : Regex α) : ℕ → Option α → List α → List (Piece α)
  | 0, _, _ => []
  | _ + 1, _, [] => []
  | n + 1, prev, c :: text =>
    match r.first prev (c :: text) with
    | none => .plain c :: pieces r n (some c) text
    | some m => .found m :: pieces r n (m.last prev) m.rest

def scan (r : Regex α) (prev : Option α) (text : List α) : List (Piece α) :=
  r.pieces text.length prev text

/-- a part of a template -/
inductive Part (α : Type) where
  | text (s : List α)
  | group (name : String)

/-- the text of a group, and no text if it took no part -/
def Match.group (m : Match α) (name : String) : List α :=
  (((m.groups.filter fun g => g.1 == name).getLast?).map Prod.snd).getD []

def Part.write (m : Match α) : Part α → List α
  | .text s => s
  | .group name => m.group name

def expand (template : List (Part α)) (m : Match α) : List α := template.flatMap (·.write m)

def Piece.source : Piece α → List α
  | .plain c => [c]
  | .found m => m.taken

def Piece.write (template : List (Part α)) : Piece α → List α
  | .plain c => [c]
  | .found m => expand template m

@[simp] theorem write_plain (template : List (Part α)) (c : α) :
    (Piece.plain c).write template = [c] := rfl

@[simp] theorem write_found (template : List (Part α)) (m : Match α) :
    (Piece.found m).write template = expand template m := rfl

@[simp] theorem source_plain (c : α) : (Piece.plain c).source = [c] := rfl

@[simp] theorem source_found (m : Match α) : (Piece.found m).source = m.taken := rfl

def replaceFrom (r : Regex α) (template : List (Part α)) (prev : Option α) (text : List α) :
    List α := (r.scan prev text).flatMap (·.write template)

def replaceAll (r : Regex α) (template : List (Part α)) (text : List α) : List α :=
  r.replaceFrom template none text

/-- the texts that match -/
def findIter (r : Regex α) (text : List α) : List (List α) :=
  (r.scan none text).filterMap fun
    | .plain _ => none
    | .found m => some m.taken

theorem first_eq_head {r : Regex α} (h : r.nullable = false) (prev : Option α) (text : List α) :
    r.first prev text = (r.ends prev text).head? := by
  unfold first
  cases hhead : (r.ends prev text).head? with
  | none => rfl
  | some m =>
    have hne : m.taken ≠ [] := ends_takes h _ _ _ (List.mem_of_mem_head? hhead)
    rw [Option.filter_some, if_pos (by simpa using hne)]

theorem first_mem {r : Regex α} {prev : Option α} {text : List α} {m : Match α}
    (h : r.first prev text = some m) : m ∈ r.ends prev text ∧ m.taken ≠ [] := by
  obtain ⟨hhead, hne⟩ := Option.filter_eq_some_iff.mp h
  exact ⟨List.mem_of_mem_head? hhead, by simpa using hne⟩

theorem rest_lt {r : Regex α} {prev : Option α} {text : List α} {m : Match α}
    (h : r.first prev text = some m) : m.rest.length < text.length := by
  obtain ⟨hmem, hne⟩ := first_mem h
  have hpos := List.length_pos_iff.mpr hne
  rw [← split_of_mem hmem, List.length_append]
  omega

theorem pieces_fuel (r : Regex α) {n k : ℕ} {prev : Option α} {text : List α}
    (hn : text.length ≤ n) (hk : text.length ≤ k) : r.pieces n prev text = r.pieces k prev text := by
  induction n generalizing k prev text with
  | zero =>
    obtain rfl := List.length_eq_zero_iff.mp (Nat.le_zero.mp hn)
    cases k with
    | zero => rfl
    | succ k => rfl
  | succ n ih =>
    cases text with
    | nil =>
      cases k with
      | zero => rfl
      | succ k => rfl
    | cons c text =>
      rw [List.length_cons] at hn hk
      obtain ⟨k, rfl⟩ : ∃ j, k = j + 1 := ⟨k - 1, by omega⟩
      rw [pieces, pieces]
      cases hfirst : r.first prev (c :: text) with
      | none =>
        show _ :: _ = _ :: _
        rw [ih (k := k) (by omega) (by omega)]
      | some m =>
        have hlt := rest_lt hfirst
        rw [List.length_cons] at hlt
        show _ :: _ = _ :: _
        rw [ih (k := k) (by omega) (by omega)]

@[simp] theorem scan_nil (r : Regex α) (prev : Option α) : r.scan prev [] = [] := rfl

theorem scan_plain {r : Regex α} {prev : Option α} {c : α} {text : List α}
    (h : r.first prev (c :: text) = none) :
    r.scan prev (c :: text) = .plain c :: r.scan (some c) text := by
  rw [scan, List.length_cons, pieces, h]
  rfl

theorem scan_found {r : Regex α} {prev : Option α} {c : α} {text : List α} {m : Match α}
    (h : r.first prev (c :: text) = some m) :
    r.scan prev (c :: text) = .found m :: r.scan (m.last prev) m.rest := by
  have hlt := rest_lt h
  rw [List.length_cons] at hlt
  rw [scan, List.length_cons, pieces, h]
  show _ :: _ = _ :: _
  rw [pieces_fuel r (k := m.rest.length) (by omega) (Nat.le_refl _)]
  rfl

theorem found_of_first {r : Regex α} {prev : Option α} {text : List α} {m : Match α}
    (h : r.first prev text = some m) : .found m ∈ r.scan prev text := by
  cases text with
  | nil => exact absurd (rest_lt h) (Nat.not_lt_zero _)
  | cons c text =>
    rw [scan_found h]
    exact List.mem_cons_self

/-- induction over the pieces of a text -/
theorem scan_induction (r : Regex α) {motive : Option α → List α → Prop}
    (nil : ∀ prev, motive prev [])
    (plain : ∀ prev c text, r.first prev (c :: text) = none → motive (some c) text →
      motive prev (c :: text))
    (found : ∀ prev c text m, r.first prev (c :: text) = some m → motive (m.last prev) m.rest →
      motive prev (c :: text)) (prev : Option α) (text : List α) : motive prev text := by
  cases text with
  | nil => exact nil prev
  | cons c text =>
    cases h : r.first prev (c :: text) with
    | none => exact plain prev c text h (scan_induction r nil plain found (some c) text)
    | some m => exact found prev c text m h (scan_induction r nil plain found (m.last prev) m.rest)
termination_by text.length
decreasing_by
  · exact Nat.lt_succ_self _
  · exact rest_lt h

/-- **The pieces make up the text.** -/
theorem scan_source (r : Regex α) (prev : Option α) (text : List α) :
    (r.scan prev text).flatMap Piece.source = text := by
  induction prev, text using scan_induction r with
  | nil prev => rfl
  | plain prev c text h ih =>
    rw [scan_plain h, List.flatMap_cons, ih]
    rfl
  | found prev c text m h ih =>
    rw [scan_found h, List.flatMap_cons, ih]
    exact split_of_mem (first_mem h).1

/-- without a match nothing is replaced -/
theorem replaceAll_of_findIter {r : Regex α} {text : List α} (h : r.findIter text = [])
    (template : List (Part α)) : r.replaceAll template text = text := by
  have hplain : ∀ piece ∈ r.scan none text, piece.write template = piece.source := by
    intro piece hpiece
    cases piece with
    | plain c => rfl
    | found m =>
      have hmem : m.taken ∈ r.findIter text := List.mem_filterMap.mpr ⟨.found m, hpiece, rfl⟩
      rw [h] at hmem
      cases hmem
  exact (List.flatMap_congr hplain).trans (scan_source r none text)

/-- a match of the scan is one at its place -/
theorem scan_mem {r : Regex α} {prev : Option α} {text : List α} {m : Match α}
    (h : .found m ∈ r.scan prev text) : ∃ prev' u, m ∈ r.ends prev' (m.taken ++ m.rest) ∧
      u ++ (m.taken ++ m.rest) = text ∧ m.taken ≠ [] := by
  induction prev, text using scan_induction r with
  | nil prev => cases h
  | plain prev c text hfirst ih =>
    rw [scan_plain hfirst] at h
    obtain h | h := List.mem_cons.mp h
    · cases h
    · obtain ⟨prev', u, hm, heq, hne⟩ := ih h
      exact ⟨prev', c :: u, hm, by rw [List.cons_append, heq], hne⟩
  | found prev c text m' hfirst ih =>
    rw [scan_found hfirst] at h
    obtain h | h := List.mem_cons.mp h
    · obtain rfl : m = m' := Piece.found.inj h
      obtain ⟨hm, hne⟩ := first_mem hfirst
      have hsplit := split_of_mem hm
      exact ⟨prev, [], by rwa [hsplit], hsplit, hne⟩
    · obtain ⟨prev', u, hm, heq, hne⟩ := ih h
      refine ⟨prev', m'.taken ++ u, hm, ?_, hne⟩
      rw [List.append_assoc, heq]
      exact split_of_mem (first_mem hfirst).1

/-! ## the matches in a line -/

section
variable {d : α} {r : Regex α} {template : List (Part α)}

/-- a text in which nothing is behind a `d` -/
def IsLine (d : α) (l : List α) : Prop := Closed d l ∨ d ∉ l

theorem taken_avoids (hend : r.mayEnd d = false) {prev : Option α} {u : List α} {m : Match α}
    (hm : m ∈ r.ends prev (m.taken ++ m.rest)) (hline : IsLine d (u ++ (m.taken ++ m.rest))) :
    d ∉ m.taken := by
  intro hd
  obtain hclosed | hopen := hline
  · obtain ⟨x, y, htaken⟩ := List.append_of_mem hd
    have hnil := hclosed.tail (u := u ++ x) (v := y ++ m.rest) (by simp [htaken])
    rw [(List.append_eq_nil_iff.mp hnil).1] at htaken
    have hoff : m.taken.getLast? ≠ some d := ends_off hend _ _ _ hm
    rw [htaken, List.getLast?_concat] at hoff
    exact hoff rfl
  · exact hopen (List.mem_append_right u (List.mem_append_left m.rest hd))

theorem scan_avoids (hend : r.mayEnd d = false) {prev : Option α} {text : List α}
    (hline : IsLine d text) {m : Match α} (h : .found m ∈ r.scan prev text) : d ∉ m.taken := by
  obtain ⟨prev', u, hm, heq, _⟩ := scan_mem h
  rw [← heq] at hline
  exact taken_avoids hend hm hline

theorem mem_group {m : Match α} {name : String} {c : α} (h : c ∈ m.group name) :
    ∃ g ∈ m.groups, c ∈ g.2 := by
  unfold Match.group at h
  cases hlast : (m.groups.filter fun g => g.1 == name).getLast? with
  | none =>
    rw [hlast] at h
    cases h
  | some g =>
    rw [hlast] at h
    exact ⟨g, (List.mem_filter.mp (List.mem_of_mem_getLast? hlast)).1, h⟩

/-- neither a match nor what is written for it brings a `d` to the end of a line -/
structure LineSafe (d : α) (r : Regex α) (template : List (Part α)) : Prop where
  ends : r.mayEnd d = false
  captures : r.mayCapture d = false
  template : ∀ s, .text s ∈ template → d ∉ s

def Part.mayWrite [BEq α] (c : α) : Part α → Bool
  | .text s => s.contains c
  | .group _ => false

def lineSafe [BEq α] (d : α) (r : Regex α) (template : List (Part α)) : Bool :=
  !r.mayEnd d && !r.mayCapture d && template.all fun part => !part.mayWrite d

theorem lineSafe_of [BEq α] [LawfulBEq α] (h : lineSafe d r template = true) :
    LineSafe d r template := by
  simp only [lineSafe, Bool.and_eq_true, Bool.not_eq_true', List.all_eq_true] at h
  refine ⟨h.1.1, h.1.2, fun s hs hd => ?_⟩
  have hfalse : s.contains d = false := h.2 _ hs
  rw [List.contains_iff_mem.mpr hd] at hfalse
  cases hfalse

theorem LineSafe.write (h : LineSafe d r template) {prev : Option α} {text : List α} {m : Match α}
    (hm : .found m ∈ r.scan prev text) : d ∉ expand template m := by
  intro hd
  obtain ⟨part, hpart, hd⟩ := List.mem_flatMap.mp hd
  cases part with
  | text s => exact h.template s hpart hd
  | group name =>
    obtain ⟨prev', u, hm, _, _⟩ := scan_mem hm
    obtain ⟨g, hg, hd⟩ := mem_group hd
    exact ends_groups h.captures _ _ _ hm g hg hd

/-! ## what is written for the pieces -/

section
variable {ps : List (Piece α)} (hwrite : ∀ m, .found m ∈ ps → d ∉ expand template m)
include hwrite

theorem count_write [DecidableEq α] : (ps.flatMap (·.write template)).count d ≤
      (ps.flatMap Piece.source).count d ∧
    ((ps.flatMap (·.write template)).count d = (ps.flatMap Piece.source).count d ↔
      ∀ m, .found m ∈ ps → d ∉ m.taken) := by
  induction ps with
  | nil => exact ⟨Nat.le_refl _, fun _ => nofun, fun _ => rfl⟩
  | cons p ps ih =>
    obtain ⟨hle, hiff⟩ := ih fun m hm => hwrite m (List.mem_cons_of_mem p hm)
    simp only [List.flatMap_cons, List.count_append, List.mem_cons]
    cases p with
    | plain c =>
      simp only [write_plain, source_plain, reduceCtorEq, false_or, Nat.add_right_inj,
        Nat.add_le_add_iff_left]
      exact ⟨hle, hiff⟩
    | found m =>
      have hzero : (expand template m).count d = 0 :=
        List.count_eq_zero.mpr (hwrite m List.mem_cons_self)
      simp only [write_found, source_found, hzero, Nat.zero_add, Piece.found.injEq]
      refine ⟨Nat.le_add_left_of_le hle, fun heq m' hm' => ?_, fun hall => ?_⟩
      · obtain rfl | hm' := hm'
        · exact List.count_eq_zero.mp (by omega)
        · exact hiff.mp (by omega) m' hm'
      · rw [List.count_eq_zero.mpr (hall m (Or.inl rfl)), Nat.zero_add]
        exact hiff.mpr fun m' hm' => hall m' (Or.inr hm')

theorem closed_write (htaken : ∀ m, .found m ∈ ps → d ∉ m.taken ∧ m.taken ≠ [])
    (h : Closed d (ps.flatMap Piece.source)) : Closed d (ps.flatMap (·.write template)) := by
  induction ps with
  | nil =>
    obtain ⟨b, hb, _⟩ := h
    cases b with
    | nil => cases hb
    | cons c b => cases hb
  | cons p ps ih =>
    have htaken' := fun m hm => htaken m (List.mem_cons_of_mem p hm)
    have ih := ih (fun m hm => hwrite m (List.mem_cons_of_mem p hm)) htaken'
    rw [List.flatMap_cons] at h ⊢
    cases p with
    | plain c =>
      by_cases hc : c = d
      · -- the end of the line is the last piece
        obtain rfl := hc
        have hnil := h.nil_of_cons
        cases ps with
        | nil => exact h
        | cons p ps =>
          cases p with
          | plain c => cases hnil
          | found m =>
            have hnil : m.taken ++ ps.flatMap Piece.source = [] := hnil
            exact absurd (List.append_eq_nil_iff.mp hnil).1 (htaken' m List.mem_cons_self).2
      · have hnot : d ∉ [c] := fun hm => hc (List.mem_singleton.mp hm).symm
        exact (closed_append hnot).mpr (ih ((closed_append hnot).mp h))
    | found m =>
      exact (closed_append (hwrite m List.mem_cons_self)).mpr
        (ih ((closed_append (htaken m List.mem_cons_self).1).mp h))

end

/-! ## line by line -/

theorem LineSafe.pieces (h : LineSafe d r template) {prev : Option α} {l : List α}
    (hline : IsLine d l) {m : Match α} (hm : .found m ∈ r.scan prev l) :
    d ∉ m.taken ∧ m.taken ≠ [] := by
  obtain ⟨_, _, _, _, hne⟩ := scan_mem hm
  exact ⟨scan_avoids h.ends hline hm, hne⟩

theorem LineSafe.closed (h : LineSafe d r template) (prev : Option α) {l : List α}
    (hl : Closed d l) : Closed d (r.replaceFrom template prev l) := by
  apply closed_write (fun m hm => h.write hm) fun m hm => h.pieces (Or.inl hl) hm
  rwa [scan_source]

variable [DecidableEq α]

theorem LineSafe.count_le (h : LineSafe d r template) (prev : Option α) (text : List α) :
    (r.replaceFrom template prev text).count d ≤ text.count d := by
  have hwrite : ∀ m, .found m ∈ r.scan prev text → d ∉ expand template m := fun m hm => h.write hm
  have hle := (count_write hwrite).1
  rwa [scan_source] at hle

/-- **A match that takes `d` makes the `d`s fewer.** -/
theorem LineSafe.count_eq (h : LineSafe d r template) (prev : Option α) (text : List α) :
    (r.replaceFrom template prev text).count d = text.count d ↔
      ∀ m, .found m ∈ r.scan prev text → d ∉ m.taken := by
  have hwrite : ∀ m, .found m ∈ r.scan prev text → d ∉ expand template m := fun m hm => h.write hm
  have hiff := (count_write hwrite).2
  rwa [scan_source] at hiff

theorem LineSafe.count_line (h : LineSafe d r template) (prev : Option α) {l : List α}
    (hl : IsLine d l) : (r.replaceFrom template prev l).count d = l.count d :=
  (h.count_eq prev l).mpr fun _ hm => (h.pieces hl hm).1

theorem LineSafe.open (h : LineSafe d r template) (prev : Option α) {l : List α} (hl : d ∉ l) :
    d ∉ r.replaceFrom template prev l := by
  have hzero := h.count_line prev (Or.inr hl)
  rw [List.count_eq_zero.mpr hl] at hzero
  exact List.count_eq_zero.mp hzero

/-- in a line all matches are without `d` -/
theorem keeps_ends (hend : r.mayEnd d = false) (prev : Option α) {l : List α} (hl : IsLine d l) :
    keeps d (r.ends prev l) = r.ends prev l := by
  apply List.filter_eq_self.mpr
  intro m hm
  have hsplit := split_of_mem hm
  have hd : d ∉ m.taken := taken_avoids (u := []) hend (by rwa [hsplit]) (by rwa [hsplit])
  simpa using hd

def Piece.extend (tail : List α) : Piece α → Piece α
  | .plain c => .plain c
  | .found m => .found (m.extend tail)

omit [DecidableEq α] in
theorem write_extend (tail : List α) (ps : List (Piece α)) :
    (ps.map (·.extend tail)).flatMap (·.write template) = ps.flatMap (·.write template) := by
  rw [List.flatMap_map]
  apply List.flatMap_congr
  intro p _
  cases p with
  | plain c => rfl
  | found m => rfl

/-- the first match in a line, when it does not take `d` in the whole text -/
theorem first_append (hend : r.mayEnd d = false) {prev : Option α} {l tail : List α}
    (hl : Closed d l) (h : ∀ m, r.first prev (l ++ tail) = some m → d ∉ m.taken) :
    r.first prev (l ++ tail) = (r.first prev l).map (·.extend tail) := by
  obtain ⟨b, hb, _⟩ := id hl
  have hmem : d ∈ l := by
    rw [hb]
    exact List.mem_append_right b (List.mem_singleton_self d)
  have hlocal := ends_local (d := d) (P := Eq) (fun _ => rfl)
    (fun prev prev' heq => by rw [heq]; exact alike_refl prev' r) prev prev l tail rfl (Or.inr hmem)
  rw [keeps_ends hend prev (Or.inl hl)] at hlocal
  unfold first at h ⊢
  cases hwhole : r.ends prev (l ++ tail) with
  | nil =>
    rw [hwhole] at hlocal
    rw [List.map_eq_nil_iff.mp hlocal.symm]
    rfl
  | cons m ms =>
    have hd : d ∉ m.taken := by
      cases htaken : m.taken with
      | nil => exact List.not_mem_nil
      | cons c cs =>
        rw [← htaken]
        apply h m
        rw [hwhole, List.head?_cons, Option.filter_some, if_pos (by rw [htaken]; rfl)]
    have hkeep : keeps d (m :: ms) = m :: keeps d ms := by simp [keeps, hd]
    rw [hwhole, hkeep] at hlocal
    cases hline : r.ends prev l with
    | nil =>
      rw [hline] at hlocal
      cases hlocal
    | cons m' ms' =>
      rw [hline, List.map_cons] at hlocal
      obtain ⟨rfl, _⟩ := List.cons.inj hlocal
      rw [List.head?_cons, List.head?_cons, Option.filter_some, Option.filter_some]
      show (if (!m'.taken.isEmpty) = true then _ else _) = _
      cases m'.taken.isEmpty with
      | true => rfl
      | false => rfl


theorem scan_append (hend : r.mayEnd d = false) {prev : Option α} {l tail : List α}
    (hl : Closed d l) (h : ∀ m, .found m ∈ r.scan prev (l ++ tail) → d ∉ m.taken) :
    r.scan prev (l ++ tail) = (r.scan prev l).map (·.extend tail) ++ r.scan (some d) tail := by
  induction prev, l using scan_induction r with
  | nil prev =>
    obtain ⟨b, hb, _⟩ := hl
    cases b with
    | nil => cases hb
    | cons c b => cases hb
  | plain prev c text hfirst ih =>
    have hwhole : r.first prev (c :: (text ++ tail)) = _ :=
      first_append hend hl fun m hm => h m (found_of_first hm)
    rw [hfirst, Option.map_none] at hwhole
    rw [List.cons_append] at h ⊢
    rw [scan_plain hwhole] at h ⊢
    rw [scan_plain hfirst, List.map_cons, List.cons_append]
    by_cases hc : c = d
    · obtain rfl := hc
      rw [hl.nil_of_cons]
      rfl
    · have hnot : d ∉ [c] := fun hm => hc (List.mem_singleton.mp hm).symm
      rw [ih ((closed_append hnot).mp hl) fun m hm => h m (List.mem_cons_of_mem _ hm)]
      rfl
  | found prev c text m hfirst ih =>
    have hwhole : r.first prev (c :: (text ++ tail)) = _ :=
      first_append hend hl fun m hm => h m (found_of_first hm)
    rw [hfirst, Option.map_some] at hwhole
    rw [List.cons_append] at h ⊢
    rw [scan_found hwhole] at h ⊢
    have hd : d ∉ m.taken := h (m.extend tail) List.mem_cons_self
    have hrest : Closed d m.rest := by
      rw [← split_of_mem (first_mem hfirst).1] at hl
      exact (closed_append hd).mp hl
    rw [scan_found hfirst, List.map_cons, List.cons_append]
    show _ :: r.scan (m.last prev) (m.rest ++ tail) = _
    rw [ih hrest fun m hm => h m (List.mem_cons_of_mem _ hm)]
    rfl

/-- the lines, the first one behind `prev` and the others behind `d` -/
def replaceLines (d : α) (r : Regex α) (template : List (Part α)) (prev : Option α) :
    List (List α) → List (List α)
  | [] => []
  | l :: ls => r.replaceFrom template prev l :: replaceLines d r template (some d) ls

/-- **The lines are replaced one by one**, when no match takes `d`. -/
theorem replace_lines (hend : r.mayEnd d = false) (template : List (Part α)) {prev : Option α}
    {text : List α} (h : ∀ m, .found m ∈ r.scan prev text → d ∉ m.taken) :
    r.replaceFrom template prev text
      = (replaceLines d r template prev (lines d text)).flatten := by
  induction text using lines_induction (d := d) generalizing prev with
  | last o ho =>
    rw [lines_open ho, replaceLines, replaceLines, List.flatten_cons, List.flatten_nil,
      List.append_nil]
  | line b t hb ih =>
    rw [lines_closed hb, replaceLines, List.flatten_cons]
    have heq : b ++ d :: t = (b ++ [d]) ++ t := by rw [List.append_assoc, List.singleton_append]
    rw [heq] at h ⊢
    have hscan := scan_append hend ⟨b, rfl, hb⟩ h
    rw [hscan] at h
    rw [← ih fun m hm => h m (List.mem_append_right _ hm), replaceFrom, hscan, List.flatMap_append,
      write_extend]
    rfl

omit [DecidableEq α] in
/-- what is before a text matters for a match at its beginning alone -/
theorem scan_congr {prev prev' : Option α} {l : List α} (h : r.ends prev l = r.ends prev' l) :
    r.scan prev l = r.scan prev' l := by
  cases l with
  | nil => rfl
  | cons c l =>
    have hfirst : r.first prev (c :: l) = r.first prev' (c :: l) := by rw [first, first, h]
    cases hm : r.first prev' (c :: l) with
    | none =>
      rw [hm] at hfirst
      rw [scan_plain hm, scan_plain hfirst]
    | some m =>
      rw [hm] at hfirst
      have hlast : m.last prev = m.last prev' := by
        unfold Match.last
        rw [List.getLast?_eq_some_getLast (first_mem hm).2]
        rfl
      rw [scan_found hm, scan_found hfirst, hlast]

/-- **Behind `prev` a line is replaced as behind `prev'`**, if the expression does not tell them
apart. -/
theorem replace_alike (hend : r.mayEnd d = false) (template : List (Part α)) {prev prev' : Option α}
    (h : r.alike prev prev' = true) {l : List α} (hl : IsLine d l) :
    r.replaceFrom template prev l = r.replaceFrom template prev' l := by
  have hlocal := ends_local (d := d) (P := fun a b => a = b ∨ a = prev ∧ b = prev')
    (fun _ => Or.inl rfl) (r := r) (by
      intro a b hab
      obtain rfl | ⟨rfl, rfl⟩ := hab
      · exact alike_refl a r
      · exact h) prev prev' l [] (Or.inr ⟨rfl, rfl⟩) (Or.inl rfl)
  have hid : ∀ m : Match α, m.extend [] = m := fun m => by rw [Match.extend, List.append_nil]
  simp only [List.append_nil, keeps_ends hend _ hl, hid, List.map_id'] at hlocal
  rw [replaceFrom, replaceFrom, scan_congr hlocal]

/-- the first line is behind nothing, the others are behind `d` -/
theorem replaceLines_none (template : List (Part α)) (l : List α) (ls : List (List α)) :
    replaceLines d r template none (l :: ls)
      = r.replaceAll template l :: ls.map (r.replaceFrom template (some d)) := by
  have htail : ∀ ls, replaceLines d r template (some d) ls
      = ls.map (r.replaceFrom template (some d)) := by
    intro ls
    induction ls with
    | nil => rfl
    | cons l ls ih => rw [replaceLines, ih, List.map_cons]
  rw [replaceLines, htail]
  rfl

theorem replaceLines_map (template : List (Part α)) {ls : List (List α)}
    (h : ∀ l ∈ ls.tail, r.replaceFrom template (some d) l = r.replaceAll template l) :
    replaceLines d r template none ls = ls.map (r.replaceAll template) := by
  cases ls with
  | nil => rfl
  | cons l ls =>
    rw [List.tail_cons] at h
    rw [replaceLines_none, List.map_cons, List.map_congr_left h]

theorem LineSafe.replaceLines (h : LineSafe d r template) (prev : Option α) {ls : List (List α)}
    (hls : Lined d ls) : Lined d (replaceLines d r template prev ls) := by
  obtain ⟨cs, o, rfl, hcs, ho⟩ := hls
  induction cs generalizing prev with
  | nil => exact ⟨[], _, rfl, nofun, h.open prev ho⟩
  | cons c cs ih =>
    obtain ⟨cs', o', heq, hcs', ho'⟩ := ih (some d) fun c hc => hcs c (List.mem_cons_of_mem _ hc)
    refine ⟨r.replaceFrom template prev c :: cs', o', ?_, fun c' hc' => ?_, ho'⟩
    · rw [List.cons_append, Regex.replaceLines, heq]
      rfl
    · obtain rfl | hc' := List.mem_cons.mp hc'
      · exact h.closed prev (hcs c List.mem_cons_self)
      · exact hcs' c' hc'

end

/-! ## a text that no match touches -/

section
variable {r : Regex α} {template : List (Part α)}

/-- no match begins in the text, whatever is behind it -/
def passes (r : Regex α) : List α → Bool
  | [] => true
  | c :: s =>
    (match r.reach (c :: s) with
    | some [] => true
    | _ => false) && passes r s

theorem reach_of_passes {c : α} {s : List α} (h : r.passes (c :: s) = true) :
    r.reach (c :: s) = some [] := by
  have h := (Bool.and_eq_true_iff.mp h).1
  revert h
  match r.reach (c :: s) with
  | some [] => exact fun _ => rfl
  | some (_ :: _) => nofun
  | none => nofun

theorem first_none_of_passes {c : α} {s : List α} (h : r.passes (c :: s) = true) (prev : Option α)
    (tail : List α) : r.first prev (c :: (s ++ tail)) = none := by
  unfold first
  rw [← List.cons_append, ends_nil_of_reach (reach_of_passes h)]
  rfl

theorem replace_passes {s : List α} (h : r.passes s = true) (template : List (Part α))
    (prev : Option α) (tail : List α) :
    ∃ out, r.replaceFrom template prev (s ++ tail) = s ++ out := by
  induction s generalizing prev with
  | nil => exact ⟨_, rfl⟩
  | cons c s ih =>
    obtain ⟨out, hout⟩ := ih (Bool.and_eq_true_iff.mp h).2 (some c)
    refine ⟨out, ?_⟩
    unfold replaceFrom at hout ⊢
    rw [List.cons_append, scan_plain (first_none_of_passes h prev tail), List.flatMap_cons, hout]
    rfl

/-- no text but what is written for a match begins with `c` -/
theorem prefix_of_write {c : α} {ps : List (Piece α)}
    (hw : ∀ m, .found m ∈ ps → ∃ w, expand template m = c :: w) {y : List α} (hy : c ∉ y)
    (h : y <+: ps.flatMap (·.write template)) : y <+: ps.flatMap Piece.source := by
  induction ps generalizing y with
  | nil => exact h
  | cons p ps ih =>
    rw [List.flatMap_cons] at h ⊢
    cases y with
    | nil => exact List.nil_prefix
    | cons a y =>
      cases p with
      | plain b =>
        have h : a :: y <+: b :: ps.flatMap (·.write template) := h
        obtain ⟨hab, htail⟩ := List.cons_prefix_cons.mp h
        exact List.cons_prefix_cons.mpr ⟨hab, ih (fun m hm => hw m (List.mem_cons_of_mem _ hm))
          (fun hm => hy (List.mem_cons_of_mem a hm)) htail⟩
      | found m =>
        obtain ⟨w, hw⟩ := hw m List.mem_cons_self
        rw [write_found, hw, List.cons_append] at h
        rw [(List.cons_prefix_cons.mp h).1] at hy
        exact absurd List.mem_cons_self hy

end

end Regex
