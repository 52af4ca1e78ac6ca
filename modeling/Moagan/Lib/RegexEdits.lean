import Moagan.Lib.RegexEdges
import Moagan.Lib.RegexLanguage

/-!
# Matches in a replaced text

A replacement is read as edits: characters that are kept, and matches that are cut out for a marker.
A match in the new text is carried back to the old one.

* `Edit`             a character that is kept, or a text that is cut
* `Lifts`            a match behind the edits comes from a match before them
* `absent_lift`      then the edits bring no match into a text that has none
* `noMatch_own`      and the expression's own replacement leaves none
* `lifts_of_unseen`, `lifts_gap`, `lifts_class`   expressions that lift
-/

namespace Regex

variable {α : Type}

/-! ## edits -/

inductive Edit (α : Type) where
  | keep (c : α)
  | cut (old new : List α)

def Edit.old : Edit α → List α
  | .keep c => [c]
  | .cut old _ => old

def Edit.new : Edit α → List α
  | .keep c => [c]
  | .cut _ new => new

def before (es : List (Edit α)) : List α := es.flatMap Edit.old

def after (es : List (Edit α)) : List α := es.flatMap Edit.new

def kept (a : List α) : List (Edit α) := a.map .keep

theorem before_append (es es' : List (Edit α)) : before (es ++ es') = before es ++ before es' :=
  List.flatMap_append

theorem after_append (es es' : List (Edit α)) : after (es ++ es') = after es ++ after es' :=
  List.flatMap_append

theorem before_kept (a : List α) : before (kept a) = a := by
  rw [before, kept, List.flatMap_map]
  exact List.flatMap_singleton' a

theorem after_kept (a : List α) : after (kept a) = a := by
  rw [after, kept, List.flatMap_map]
  exact List.flatMap_singleton' a

/-- something is cut out, and the marker begins with `o` -/
def Marks (o : α) (es : List (Edit α)) : Prop :=
  ∀ old new, .cut old new ∈ es → old ≠ [] ∧ new.head? = some o

section
variable {o : α} {es : List (Edit α)}

theorem Marks.append_left {es₁ es₂ : List (Edit α)} (h : Marks o (es₁ ++ es₂)) : Marks o es₁ :=
  fun old new hmem => h old new (List.mem_append_left es₂ hmem)

theorem Marks.append_right {es₁ es₂ : List (Edit α)} (h : Marks o (es₁ ++ es₂)) : Marks o es₂ :=
  fun old new hmem => h old new (List.mem_append_right es₁ hmem)

theorem Marks.ne_nil (h : Marks o es) {e : Edit α} (he : e ∈ es) : e.old ≠ [] ∧ e.new ≠ [] := by
  cases e with
  | keep c => exact ⟨List.cons_ne_nil c [], List.cons_ne_nil c []⟩
  | cut old new =>
    obtain ⟨hold, hnew⟩ := h old new he
    refine ⟨hold, fun hnil => ?_⟩
    rw [show new = [] from hnil] at hnew
    cases hnew

theorem Marks.eq_nil (h : Marks o es) : (before es = [] ↔ es = []) ∧ (after es = [] ↔ es = []) := by
  cases es with
  | nil => exact ⟨⟨fun _ => rfl, fun _ => rfl⟩, ⟨fun _ => rfl, fun _ => rfl⟩⟩
  | cons e es =>
    obtain ⟨hold, hnew⟩ := h.ne_nil List.mem_cons_self
    refine ⟨⟨fun hnil => ?_, fun hnil => by cases hnil⟩, ⟨fun hnil => ?_, fun hnil => by cases hnil⟩⟩
    · exact absurd (List.append_eq_nil_iff.mp hnil).1 hold
    · exact absurd (List.append_eq_nil_iff.mp hnil).1 hnew

/-- a place in the new text is between two edits or within a marker -/
theorem split_after {u t : List α} (h : after es = u ++ t) :
    (∃ es₁ es₂, es = es₁ ++ es₂ ∧ after es₁ = u ∧ after es₂ = t) ∨
      ∃ old new x y, .cut old new ∈ es ∧ new = x ++ y ∧ y ≠ [] ∧ y <+: t := by
  induction es generalizing u with
  | nil =>
    obtain ⟨rfl, rfl⟩ := List.append_eq_nil_iff.mp h.symm
    exact Or.inl ⟨[], [], rfl, rfl, rfl⟩
  | cons e es ih =>
    have h : e.new ++ after es = u ++ t := h
    obtain ⟨u', rfl, hrest⟩ | ⟨y, hnew, rfl⟩ := List.append_eq_append_iff.mp h
    · obtain ⟨es₁, es₂, rfl, hu, ht⟩ | ⟨old, new, x, y, hmem, hnew, hy, hpre⟩ := ih hrest
      · refine Or.inl ⟨e :: es₁, es₂, rfl, ?_, ht⟩
        rw [← hu]
        rfl
      · exact Or.inr ⟨old, new, x, y, List.mem_cons_of_mem e hmem, hnew, hy, hpre⟩
    · by_cases hy : y = []
      · subst hy
        rw [List.append_nil] at hnew
        refine Or.inl ⟨[e], es, rfl, ?_, rfl⟩
        rw [← hnew]
        exact List.append_nil _
      · cases e with
        | cut old new =>
          exact Or.inr ⟨old, new, u, y, List.mem_cons_self, hnew, hy, List.prefix_append y _⟩
        | keep c =>
          -- one character is not split
          have hu : u = [] := by
            have hlen := congrArg List.length hnew
            have hpos := List.length_pos_iff.mpr hy
            rw [List.length_append] at hlen
            have hone : (Edit.keep c).new.length = 1 := rfl
            exact List.length_eq_zero_iff.mp (by omega)
          subst hu
          refine Or.inl ⟨[], .keep c :: es, rfl, rfl, ?_⟩
          rw [← show (Edit.keep c).new = y from hnew]
          rfl

/-- what does not take `o` is kept -/
theorem split_kept (h : Marks o es) {a v : List α} (ho : o ∉ a) (hafter : after es = a ++ v) :
    ∃ es', es = kept a ++ es' ∧ after es' = v := by
  induction a generalizing es with
  | nil => exact ⟨es, rfl, hafter⟩
  | cons c a ih =>
    cases es with
    | nil => cases hafter
    | cons e es =>
      cases e with
      | keep d =>
        have hcons : d :: after es = c :: (a ++ v) := hafter
        obtain ⟨rfl, htail⟩ := List.cons.inj hcons
        obtain ⟨es', rfl, hv⟩ := ih (fun old new hmem => h old new (List.mem_cons_of_mem _ hmem))
          (fun hmem => ho (List.mem_cons_of_mem d hmem)) htail
        exact ⟨es', rfl, hv⟩
      | cut old new =>
        obtain ⟨_, hhead⟩ := h old new List.mem_cons_self
        have hcons : new ++ after es = c :: (a ++ v) := hafter
        have hc : (new ++ after es).head? = some c := by
          rw [hcons]
          rfl
        rw [head?_append_eq, hhead] at hc
        exact absurd (Option.some.inj hc ▸ List.mem_cons_self) ho

end

/-! ## matches are carried back -/

/-- a match at a place of the new text comes from one at that place of the old text -/
def Lifts (L : Option α → List α → Option α → Prop) (es : List (Edit α)) : Prop :=
  ∀ es₁ es₂ a v, es = es₁ ++ es₂ → after es₂ = a ++ v → L (after es₁).getLast? a v.head? →
    ∃ a' v', before es₂ = a' ++ v' ∧ L (before es₁).getLast? a' v'.head?

section
variable {r : Regex α} {o : α} {es : List (Edit α)}

/-- a match begins at a character that is kept -/
theorem place_of_match (hnull : r.nullable = false) (hmarks : Marks o es)
    (hskips : ∀ old new, .cut old new ∈ es → r.Skips new) {u a v : List α}
    (hafter : after es = u ++ (a ++ v)) (ha : r.Spells u.getLast? a v.head?) :
    ∃ es₁ c es₂, es = es₁ ++ .keep c :: es₂ ∧ after es₁ = u ∧
      after (.keep c :: es₂) = a ++ v := by
  have hno : ∀ old new, .cut old new ∈ es → ∀ y, y <:+ new → y ≠ [] → ¬ y <+: a ++ v := by
    rintro old new hmem y hy hne ⟨tail, htail⟩
    have hnil := hskips old new hmem y hy hne u.getLast? tail
    exact ends_nil_iff.mp hnil a v htail ha
  obtain ⟨es₁, es₂, rfl, hu, ht⟩ | ⟨old, new, x, y, hmem, rfl, hy, hpre⟩ := split_after hafter
  · cases es₂ with
    | nil =>
      have hnil : a = [] := (List.append_eq_nil_iff.mp ht.symm).1
      exact absurd hnil (spells_ne_nil hnull ha)
    | cons e es₂ =>
      cases e with
      | keep c => exact ⟨es₁, c, es₂, rfl, hu, ht⟩
      | cut old new =>
        have hmem : .cut old new ∈ es₁ ++ .cut old new :: es₂ :=
          List.mem_append_right es₁ List.mem_cons_self
        exact absurd (ht ▸ List.prefix_append new (after es₂))
          (hno old new hmem new (List.suffix_refl new) (hmarks.ne_nil hmem).2)
  · exact absurd hpre (hno old (x ++ y) hmem y (List.suffix_append x y) hy)

/-- **No match comes into a text that has none.** `L` are the matches in question. -/
theorem absent_lift {L : Option α → List α → Option α → Prop}
    (hL : ∀ prev a next, L prev a next → r.Spells prev a next) (hnull : r.nullable = false)
    (hmarks : Marks o es) (hskips : ∀ old new, .cut old new ∈ es → r.Skips new)
    (hlifts : Lifts L es) (h : Absent L (before es)) : Absent L (after es) := by
  intro u a v hafter ha
  obtain ⟨es₁, c, es₂, rfl, rfl, hplace⟩ :=
    place_of_match hnull hmarks hskips hafter (hL _ _ _ ha)
  obtain ⟨a', v', hbefore, ha'⟩ := hlifts es₁ _ a v rfl hplace ha
  refine h (before es₁) a' v' ?_ ha'
  rw [before_append, hbefore]

/-- **Nor does one stay**, if there has been none at the characters where one is left. -/
theorem noMatch_after (hnull : r.nullable = false) (hmarks : Marks o es)
    (hskips : ∀ old new, .cut old new ∈ es → r.Skips new) (hlifts : Lifts r.Spells es)
    (h : ∀ es₁ c es₂ a v, es = es₁ ++ .keep c :: es₂ → after (.keep c :: es₂) = a ++ v →
      r.Spells (after es₁).getLast? a v.head? →
      r.first (before es₁).getLast? (before (.keep c :: es₂)) = none) : r.NoMatch (after es) := by
  intro u a v hafter ha
  obtain ⟨es₁, c, es₂, rfl, rfl, hplace⟩ := place_of_match hnull hmarks hskips hafter ha
  have hends := ends_nil_of_first hnull (h es₁ c es₂ a v rfl hplace ha)
  obtain ⟨a', v', hbefore, ha'⟩ := hlifts es₁ _ a v rfl hplace ha
  exact ends_nil_iff.mp hends a' v' hbefore ha'

end

/-! ## the edits of a replacement -/

/-- a match is cut out for the marker `w` -/
def Piece.edit (w : List α) : Piece α → Edit α
  | .plain c => .keep c
  | .found m => .cut m.taken w

def edits (r : Regex α) (w text : List α) : List (Edit α) := (r.scan none text).map (·.edit w)

theorem before_edit (w : List α) (ps : List (Piece α)) :
    before (ps.map (·.edit w)) = ps.flatMap Piece.source := by
  rw [before, List.flatMap_map]
  apply List.flatMap_congr
  intro p _
  cases p with
  | plain c => rfl
  | found m => rfl

theorem before_edits (r : Regex α) (w text : List α) : before (r.edits w text) = text :=
  (before_edit w _).trans (scan_source r none text)

theorem after_edits (r : Regex α) (w text : List α) :
    after (r.edits w text) = r.replaceAll [.text w] text := by
  rw [after, edits, List.flatMap_map]
  apply List.flatMap_congr
  intro p _
  cases p with
  | plain c => rfl
  | found m => exact (List.append_nil w).symm

theorem mem_edits {r : Regex α} {w text old new : List α} (h : .cut old new ∈ r.edits w text) :
    new = w ∧ ∃ ps₁ m ps₂, r.scan none text = ps₁ ++ .found m :: ps₂ ∧ m.taken = old := by
  obtain ⟨p, hp, heq⟩ := List.mem_map.mp h
  cases p with
  | plain c => cases heq
  | found m =>
    obtain ⟨hold, hnew⟩ := Edit.cut.inj heq
    obtain ⟨ps₁, ps₂, hps⟩ := List.append_of_mem hp
    exact ⟨hnew.symm, ps₁, m, ps₂, hps, hold⟩

/-- what is cut out has been a match -/
theorem spells_of_cut {r : Regex α} {w text old new : List α}
    (h : .cut old new ∈ r.edits w text) : ∃ prev next, r.Spells prev old next := by
  obtain ⟨_, ps₁, m, ps₂, hps, rfl⟩ := mem_edits h
  exact ⟨_, _, spells_of_mem r _ _ _ (scan_rest hps).2⟩

theorem marks_edits {r : Regex α} (hnull : r.nullable = false) {o : α} {w : List α}
    (hw : w.head? = some o) (text : List α) : Marks o (r.edits w text) := by
  intro old new h
  obtain ⟨prev, next, hspells⟩ := spells_of_cut h
  refine ⟨spells_ne_nil hnull hspells, ?_⟩
  rw [(mem_edits h).1]
  exact hw

/-- **The expression's own replacement leaves no match.** -/
theorem noMatch_own {r : Regex α} (hnull : r.nullable = false) {o : α} {w text : List α}
    (hw : w.head? = some o) (hskips : r.Skips w) (hlifts : Lifts r.Spells (r.edits w text)) :
    r.NoMatch (r.replaceAll [.text w] text) := by
  rw [← after_edits]
  refine noMatch_after hnull (marks_edits hnull hw text)
    (fun old new h => (mem_edits h).1 ▸ hskips) hlifts fun es₁ c es₂ a v hes _ _ => ?_
  -- the engine has found nothing at this character
  obtain ⟨ps₁, ps, hps, rfl, htail⟩ := List.map_eq_append_iff.mp hes
  obtain ⟨p, ps₂, rfl, hp, rfl⟩ := List.map_eq_cons_iff.mp htail
  cases p with
  | found m => cases hp
  | plain d =>
    obtain rfl : d = c := Edit.keep.inj hp
    have hfirst := scan_at hps
    rw [Option.or_none, ← before_edit w ps₁] at hfirst
    have hrest : before (.keep d :: ps₂.map (·.edit w)) = d :: ps₂.flatMap Piece.source := by
      rw [← before_edit w ps₂]
      rfl
    rw [hrest]
    exact hfirst

/-! ## expressions whose matches are kept whole -/

/-- what is kept matches as well where the markers have not been written yet -/
def Unseen (L : Option α → List α → Option α → Prop) (es : List (Edit α)) : Prop :=
  ∀ es₁ a es₂, es = es₁ ++ (kept a ++ es₂) → L (after es₁).getLast? a (after es₂).head? →
    L (before es₁).getLast? a (before es₂).head?

theorem lifts_of_unseen {L : Option α → List α → Option α → Prop} {o : α} {es : List (Edit α)}
    (ho : ∀ prev a next, L prev a next → o ∉ a) (hmarks : Marks o es) (h : Unseen L es) :
    Lifts L es := by
  intro es₁ es₂ a v hes hafter ha
  subst hes
  obtain ⟨es₃, rfl, rfl⟩ := split_kept hmarks.append_right (ho _ _ _ ha) hafter
  refine ⟨a, before es₃, ?_, h es₁ a es₃ rfl ha⟩
  rw [before_append, before_kept]

theorem Unseen.and {L : Option α → List α → Option α → Prop} {es : List (Edit α)}
    (h : Unseen L es) (Q : List α → Prop) : Unseen (fun prev a next => L prev a next ∧ Q a) es :=
  fun es₁ a es₂ hes ha => ⟨h es₁ a es₂ hes ha.1, ha.2⟩

/-- it looks for a boundary -/
def bounded : Regex α → Bool
  | .boundary _ => true
  | .empty | .start | .cls _ => false
  | .seq r s | .alt r s => r.bounded || s.bounded
  | .rep _ _ _ r | .group _ r => r.bounded

theorem alike_of_isNone {r : Regex α} (h : r.bounded = false) {x y : Option α}
    (hxy : x.isNone = y.isNone) : r.alike x y = true := by
  induction r with
  | empty | cls p => rfl
  | start => exact beq_iff_eq.mpr hxy
  | boundary word => cases h
  | seq r s ihr ihs | alt r s ihr ihs =>
    obtain ⟨h1, h2⟩ := Bool.or_eq_false_iff.mp h
    exact Bool.and_eq_true_iff.mpr ⟨ihr h1, ihs h2⟩
  | rep greedy min max r ih | group name r ih => exact ih h

/-- the surroundings do not matter -/
theorem spells_free {r : Regex α} (hbound : r.bounded = false) (hstart : r.anchored = false)
    {prev next : Option α} {a : List α} (prev' next' : Option α) (h : r.Spells prev a next) :
    r.Spells prev' a next' := by
  have hlike : ∀ x y : Option α, r.alike x y = true := by
    intro x y
    clear h
    induction r with
    | empty | cls p => rfl
    | start => cases hstart
    | boundary word => cases hbound
    | seq r s ihr ihs | alt r s ihr ihs =>
      obtain ⟨h1, h2⟩ := Bool.or_eq_false_iff.mp hbound
      obtain ⟨h3, h4⟩ := Bool.or_eq_false_iff.mp hstart
      exact Bool.and_eq_true_iff.mpr ⟨ihr h1 h3, ihs h2 h4⟩
    | rep greedy min max r ih | group name r ih => exact ih hbound hstart
  exact spells_alike (hlike _ _) (hlike _ _) h

theorem unseen_of_unbounded {r : Regex α} {o : α} {es : List (Edit α)} (h : r.bounded = false)
    (hmarks : Marks o es) : Unseen r.Spells es := by
  intro es₁ a es₂ hes ha
  subst hes
  have hempty : ∀ l : List α, l.getLast?.isNone = l.isEmpty ∧ l.head?.isNone = l.isEmpty := by
    intro l
    cases l with
    | nil => exact ⟨rfl, rfl⟩
    | cons c l => simp
  have hiff : ∀ {l l' : List α}, (l = [] ↔ l' = []) → l.isEmpty = l'.isEmpty := by
    intro l l' h
    rw [Bool.eq_iff_iff, List.isEmpty_iff, List.isEmpty_iff]
    exact h
  have hleft := hmarks.append_left.eq_nil
  have hright := hmarks.append_right.append_right.eq_nil
  refine spells_alike (alike_of_isNone h ?_) (alike_of_isNone h ?_) ha
  · rw [(hempty _).1, (hempty _).1, hiff (hleft.2.trans hleft.1.symm)]
  · rw [(hempty _).2, (hempty _).2, hiff (hright.2.trans hright.1.symm)]

/-! ## matches at the edges of words -/

/-- a match begins and ends at the edge of a word -/
def Edged (word : α → Bool) (r : Regex α) : Prop := ∀ prev a next, r.Spells prev a next →
  prev.any word ≠ a.head?.any word ∧ a.getLast?.any word ≠ next.any word

/-- at the beginning of a match is the edge of a word -/
def Opens (word : α → Bool) (r : Regex α) : Prop := ∀ prev a next, r.Spells prev a next →
  prev.any word ≠ (a.head?.or next).any word

/-- and at its end -/
def Closes (word : α → Bool) (r : Regex α) : Prop := ∀ prev a next, r.Spells prev a next →
  (a.getLast?.or prev).any word ≠ next.any word

theorem opens_boundary (word : α → Bool) (r : Regex α) : Opens word (.seq (.boundary word) r) := by
  rintro prev _ next ⟨_, c, rfl, ⟨rfl, hedge⟩, _⟩
  exact hedge

theorem closes_boundary (word : α → Bool) : Closes word (.seq (.boundary word) .empty) := by
  rintro prev _ next ⟨_, _, rfl, ⟨rfl, hedge⟩, rfl⟩
  exact hedge

theorem Closes.seq {word : α → Bool} {s : Regex α} (h : Closes word s) (r : Regex α) :
    Closes word (.seq r s) := by
  rintro prev _ next ⟨b, c, rfl, _, hc⟩
  rw [getLast?_append_or]
  exact h _ _ _ hc

theorem edged_of {word : α → Bool} {r : Regex α} (hnull : r.nullable = false) (hopen : Opens word r)
    (hclose : Closes word r) : Edged word r := by
  intro prev a next ha
  have hhead := hopen prev a next ha
  have hlast := hclose prev a next ha
  cases a with
  | nil => exact absurd rfl (spells_ne_nil hnull ha)
  | cons c a =>
    refine ⟨hhead, ?_⟩
    rw [List.getLast?_cons] at hlast ⊢
    exact hlast

theorem Edged.alt {word : α → Bool} {r s : Regex α} (hr : Edged word r) (hs : Edged word s) :
    Edged word (.alt r s) := fun prev a next h => h.elim (hr prev a next) (hs prev a next)

/-- no match of the scan is next to what continues a word of it -/
def Wordwise (word : α → Bool) (ps : List (Piece α)) : Prop :=
  ∀ ps₁ p p' ps₂, ps = ps₁ ++ p :: p' :: ps₂ → (∃ m, p = .found m ∨ p' = .found m) →
    p.source.getLast?.any word = true → p'.source.head?.any word = false

theorem source_ne_nil {r : Regex α} {prev : Option α} {text : List α} {p : Piece α}
    (h : p ∈ r.scan prev text) : p.source ≠ [] := by
  cases p with
  | plain c => exact List.cons_ne_nil c []
  | found m => exact (scan_mem h).elim fun _ h => h.elim fun _ h => h.2.2

section
variable {word : α → Bool} {r : Regex α} {text : List α} {ps₁ ps₂ : List (Piece α)} {p p' : Piece α}

/-- the character before a piece -/
theorem last_of_scan (h : r.scan none text = ps₁ ++ p :: ps₂) :
    ((ps₁ ++ [p]).flatMap Piece.source).getLast? = p.source.getLast? := by
  have hne : p.source ≠ [] := source_ne_nil (h ▸ List.mem_append_right ps₁ List.mem_cons_self)
  rw [List.flatMap_append, List.flatMap_singleton, List.getLast?_append_of_ne_nil _ hne]

/-- and the one behind it -/
theorem head_of_scan (h : r.scan none text = ps₁ ++ p :: ps₂) :
    ((p :: ps₂).flatMap Piece.source).head? = p.source.head? := by
  have hne : p.source ≠ [] := source_ne_nil (h ▸ List.mem_append_right ps₁ List.mem_cons_self)
  rw [List.flatMap_cons, List.head?_append_of_ne_nil _ hne]

theorem wordwise_of_edged (h : Edged word r) (text : List α) :
    Wordwise word (r.scan none text) := by
  intro ps₁ p p' ps₂ hscan hfound hlast
  have hscan' : r.scan none text = (ps₁ ++ [p]) ++ p' :: ps₂ := by
    rw [hscan, List.append_assoc]
    rfl
  obtain ⟨m, rfl | rfl⟩ := hfound
  · obtain ⟨hrest, hm⟩ := scan_rest hscan
    have hedge := (h _ _ _ (spells_of_mem r _ _ _ hm)).2
    rw [hrest, head_of_scan hscan', show m.taken.getLast?.any word = true from hlast] at hedge
    exact Bool.eq_false_iff.mpr fun heq => hedge heq.symm
  · obtain ⟨_, hm⟩ := scan_rest hscan'
    have hedge := (h _ _ _ (spells_of_mem r _ _ _ hm)).1
    rw [Option.or_none, last_of_scan hscan, hlast] at hedge
    exact Bool.eq_false_iff.mpr fun heq => hedge heq.symm

/-- a match that goes on as long as there are characters of the word, and begins as soon as one -/
theorem wordwise_of_greedy {c : α → Bool} (hnull : r.nullable = false) (hstops : Stops c r.ends)
    (hclass : ∀ d, word d = true → c d = true)
    (hgrow : ∀ prev d a next, word d = true → r.Spells (some d) a next → r.Spells prev (d :: a) next)
    (text : List α) : Wordwise word (r.scan none text) := by
  intro ps₁ p p' ps₂ hscan hfound hlast
  have hscan' : r.scan none text = (ps₁ ++ [p]) ++ p' :: ps₂ := by
    rw [hscan, List.append_assoc]
    rfl
  cases p with
  | found m =>
    -- it would have gone on
    have hrest := first_stops hstops (scan_at hscan)
    rw [(scan_rest hscan).1, head_of_scan hscan'] at hrest
    rw [Bool.eq_false_iff]
    intro hword
    obtain ⟨d, hd, hw⟩ := (Option.any_eq_true _ _).mp hword
    rw [hd, show (some d).any c = c d from rfl, hclass d hw] at hrest
    cases hrest
  | plain d =>
    obtain ⟨m, hm | rfl⟩ := hfound
    · cases hm
    · -- it would have begun before
      have hmem := spells_of_mem r _ _ _ (scan_rest hscan').2
      rw [Option.or_none, last_of_scan hscan] at hmem
      have hends := ends_nil_of_first hnull (scan_at hscan)
      refine absurd (hgrow _ d _ _ hlast hmem) (ends_nil_iff.mp hends _ _ ?_)
      show d :: (m.taken ++ ps₂.flatMap Piece.source) = _
      rw [← (scan_rest hscan').1]
      rfl

theorem last_edit {f : Edit α → List α} {es : List (Edit α)} {e : Edit α} (h : f e ≠ []) :
    ((es ++ [e]).flatMap f).getLast? = (f e).getLast? := by
  rw [List.flatMap_append, List.flatMap_singleton, List.getLast?_append_of_ne_nil _ h]

theorem head_edit {f : Edit α → List α} {es : List (Edit α)} {e : Edit α} (h : f e ≠ []) :
    ((e :: es).flatMap f).head? = (f e).head? := by
  rw [List.flatMap_cons, List.head?_append_of_ne_nil _ h]

/-- **A match at the edges of words does not see a marker**, if the matches that have been cut out
left the words whole. -/
theorem unseen_of_wordwise {q : Regex α} {o : α} {w : List α} (hnull : r.nullable = false)
    (hnull' : q.nullable = false) (hw : w.head? = some o) (hedged : Edged word r)
    (hlike : ∀ x y : Option α, x.any word = y.any word → r.alike x y = true)
    (hhead : w.head?.any word = false) (hlast : w.getLast?.any word = false) {text : List α}
    (hwordwise : Wordwise word (q.scan none text)) : Unseen r.Spells (q.edits w text) := by
  intro es₁ a es₂ hes ha
  obtain ⟨ps₁, ps, hps, rfl, htail⟩ := List.map_eq_append_iff.mp hes
  obtain ⟨psa, ps₂, rfl, hkept, rfl⟩ := List.map_eq_append_iff.mp htail
  have hplain : psa = a.map .plain := by
    clear hps htail hes ha
    induction a generalizing psa with
    | nil => exact List.map_eq_nil_iff.mp hkept
    | cons c a ih =>
      obtain ⟨p, psa, rfl, hp, hrest⟩ := List.map_eq_cons_iff.mp hkept
      cases p with
      | found m => cases hp
      | plain d =>
        obtain rfl : d = c := Edit.keep.inj hp
        rw [ih psa hrest]
        rfl
  subst hplain
  obtain ⟨hopen, hclose⟩ := hedged _ _ _ ha
  have hscan : q.scan none text = ps₁ ++ (a.map .plain ++ ps₂) := hps
  have hmarks : Marks o (q.edits w text) := marks_edits hnull' hw text
  have hfull : ∀ p ∈ q.scan none text, (p.edit w).old ≠ [] ∧ (p.edit w).new ≠ [] := fun p hp =>
    hmarks.ne_nil (List.mem_map_of_mem hp)
  have hne := spells_ne_nil hnull ha
  refine spells_alike (hlike _ _ ?_) (hlike _ _ ?_) ha
  · -- before the match
    obtain rfl | ⟨ps₁, p, rfl⟩ := List.eq_nil_or_concat ps₁
    · rfl
    rw [List.concat_eq_append] at hopen hscan ⊢
    obtain ⟨hold, hnew⟩ := hfull p (by simp [hscan])
    rw [List.map_append, after, List.map_singleton, last_edit hnew] at hopen ⊢
    rw [before, last_edit hold]
    cases p with
    | plain c => rfl
    | found m =>
      cases a with
      | nil => exact absurd rfl hne
      | cons c a =>
        have hin := hwordwise ps₁ (.found m) (.plain c) (a.map .plain ++ ps₂)
          (by rw [hscan, List.append_assoc]; rfl) ⟨m, Or.inl rfl⟩
        show w.getLast?.any word = m.taken.getLast?.any word
        rw [show (Edit.new (Piece.edit w (.found m))).getLast?.any word = false from hlast] at hopen
        rw [hlast]
        cases hm : m.taken.getLast?.any word with
        | false => rfl
        | true => exact absurd (hin hm).symm hopen
  · -- behind it
    cases ps₂ with
    | nil => rfl
    | cons p ps₂ =>
      obtain ⟨hold, hnew⟩ := hfull p (by simp [hscan])
      rw [List.map_cons, after, head_edit hnew] at hclose ⊢
      rw [before, head_edit hold]
      cases p with
      | plain c => rfl
      | found m =>
        obtain rfl | ⟨a, c, rfl⟩ := List.eq_nil_or_concat a
        · exact absurd rfl hne
        rw [List.concat_eq_append] at hclose hscan
        have hin := hwordwise (ps₁ ++ a.map .plain) (.plain c) (.found m) ps₂
          (by rw [hscan, List.map_append, List.append_assoc, List.append_assoc]; rfl) ⟨m, Or.inr rfl⟩
        show w.head?.any word = m.taken.head?.any word
        rw [show (Edit.new (Piece.edit w (.found m))).head?.any word = false from hhead,
          List.getLast?_concat] at hclose
        rw [hhead]
        cases hc : word c with
        | false => exact absurd hc hclose
        | true => exact (hin hc).symm

end

/-- **Nor does a match that is apart from the markers.** -/
theorem unseen_apart {r : Regex α} {o e : α} {es : List (Edit α)} (hmarks : Marks o es)
    (hends : ∀ old new, .cut old new ∈ es → new.getLast? = some e) :
    Unseen (fun prev a next => r.Spells prev a next ∧ prev ≠ some e ∧ next ≠ some o) es := by
  rintro es₁ a es₂ rfl ⟨ha, hprev, hnext⟩
  have hbefore : (after es₁).getLast? = (before es₁).getLast? := by
    obtain rfl | ⟨es₁, e, rfl⟩ := List.eq_nil_or_concat es₁
    · rfl
    rw [List.concat_eq_append] at hprev hmarks hends ⊢
    obtain ⟨hold, hnew⟩ := hmarks.append_left.ne_nil (e := e) (by simp)
    rw [after, last_edit hnew] at hprev ⊢
    rw [before, last_edit hold]
    cases e with
    | keep c => rfl
    | cut old new => exact absurd (hends old new (by simp)) hprev
  have hbehind : (after es₂).head? = (before es₂).head? := by
    cases es₂ with
    | nil => rfl
    | cons e es₂ =>
      obtain ⟨hold, hnew⟩ := hmarks.append_right.append_right.ne_nil (e := e) (by simp)
      rw [after, head_edit hnew] at hnext ⊢
      rw [before, head_edit hold]
      cases e with
      | keep c => rfl
      | cut old new => exact absurd (hmarks old new (by simp)).2 hnext
  rw [hbefore, hbehind] at ha
  rw [hbefore] at hprev
  rw [hbehind] at hnext
  exact ⟨ha, hprev, hnext⟩

/-! ## expressions that take markers as well -/

section
variable {r : Regex α} {o : α} {es : List (Edit α)}

/-- **A match with a gap**: its ends are kept, and between them there may be anything. -/
theorem lifts_gap {H T : List α → Prop} {d : α}
    (hspells : ∀ prev a next, r.Spells prev a next ↔
      ∃ h g t, a = h ++ (g ++ t) ∧ H h ∧ g ≠ [] ∧ T t)
    (hH : ∀ h, H h → o ∉ h) (hT : ∀ t, T t → o ∉ t ∧ t.head? = some d) (hmarks : Marks o es)
    (hcut : ∀ old new, .cut old new ∈ es → d ∉ new) : Lifts r.Spells es := by
  intro es₁ es₂ a v hes hafter ha
  subst hes
  obtain ⟨h, g, t, rfl, hh, hg, ht⟩ := (hspells _ _ _).mp ha
  rw [List.append_assoc, List.append_assoc] at hafter
  obtain ⟨es₃, rfl, hafter₃⟩ := split_kept hmarks.append_right (hH h hh) hafter
  obtain ⟨es₄, es₅, rfl, rfl, hafter₅⟩ | ⟨old, new, x, y, hmem, rfl, hy, hpre⟩ :=
    split_after hafter₃
  · obtain ⟨es₆, rfl, rfl⟩ :=
      split_kept hmarks.append_right.append_right.append_right (hT t ht).1 hafter₅
    have hgap : before es₄ ≠ [] := by
      intro hnil
      have hempty := hmarks.append_right.append_right.append_left.eq_nil
      exact hg (hempty.2.mpr (hempty.1.mp hnil))
    refine ⟨h ++ (before es₄ ++ t), before es₆, ?_, (hspells _ _ _).mpr ⟨h, _, t, rfl, hh, hgap, ht⟩⟩
    simp only [before_append, before_kept, List.append_assoc]
  · -- the other end would begin within a marker
    have hhead : y.head? = some d := by
      obtain ⟨z, hz⟩ := hpre
      rw [← (hT t ht).2]
      have hne : t ≠ [] := by
        intro hnil
        have hhead := (hT t ht).2
        rw [hnil] at hhead
        cases hhead
      rw [← List.head?_append_of_ne_nil y hy, hz, List.head?_append_of_ne_nil t hne]
    have hd : d ∈ x ++ y := List.mem_append_right x (List.mem_of_mem_head? hhead)
    exact absurd hd (hcut old (x ++ y) (by simp [hmem]))

/-- characters of a class, of which each match that is cut out has enough -/
theorem before_class {p : α → Bool} {n : ℕ}
    (hcut : ∀ old new, .cut old new ∈ es → n ≤ old.length ∧ old.all p = true) {k : ℕ} (hk : k ≤ n)
    {b v : List α} (hafter : after es = b ++ v) (hlen : k ≤ b.length) (hall : b.all p = true) :
    ∃ b' v', before es = b' ++ v' ∧ k ≤ b'.length ∧ b'.all p = true := by
  induction es generalizing k b with
  | nil =>
    obtain ⟨rfl, _⟩ := List.append_eq_nil_iff.mp hafter.symm
    exact ⟨[], [], rfl, hlen, rfl⟩
  | cons e es ih =>
    cases e with
    | cut old new =>
      obtain ⟨hold, hclass⟩ := hcut old new List.mem_cons_self
      exact ⟨old, before es, rfl, by omega, hclass⟩
    | keep c =>
      cases k with
      | zero => exact ⟨[], _, rfl, Nat.zero_le _, rfl⟩
      | succ k =>
        cases b with
        | nil => cases hlen
        | cons d b =>
          have hcons : c :: after es = d :: (b ++ v) := hafter
          obtain ⟨rfl, htail⟩ := List.cons.inj hcons
          obtain ⟨hc, hb⟩ := Bool.and_eq_true_iff.mp hall
          obtain ⟨b', v', hbefore, hlen', hall'⟩ :=
            ih (fun old new hmem => hcut old new (List.mem_cons_of_mem _ hmem)) (by omega) htail
              (Nat.le_of_succ_le_succ hlen) hb
          refine ⟨c :: b', v', ?_, Nat.succ_le_succ hlen', Bool.and_eq_true_iff.mpr ⟨hc, hall'⟩⟩
          show c :: before es = _
          rw [hbefore]
          rfl

/-- **A match with an open end** of characters of a class. -/
theorem lifts_class {H : List α → Prop} {p : α → Bool} {n : ℕ}
    (hspells : ∀ prev a next, r.Spells prev a next ↔
      ∃ h b, a = h ++ b ∧ H h ∧ n ≤ b.length ∧ b.all p = true)
    (hH : ∀ h, H h → o ∉ h) (hmarks : Marks o es)
    (hcut : ∀ old new, .cut old new ∈ es → n ≤ old.length ∧ old.all p = true) : Lifts r.Spells es := by
  intro es₁ es₂ a v hes hafter ha
  subst hes
  obtain ⟨h, b, rfl, hh, hlen, hall⟩ := (hspells _ _ _).mp ha
  rw [List.append_assoc] at hafter
  obtain ⟨es₃, rfl, hafter₃⟩ := split_kept hmarks.append_right (hH h hh) hafter
  obtain ⟨b', v', hbefore, hlen', hall'⟩ := before_class (fun old new hmem =>
    hcut old new (by simp [hmem])) (Nat.le_refl n) hafter₃ hlen hall
  refine ⟨h ++ b', v', ?_, (hspells _ _ _).mpr ⟨h, b', rfl, hh, hlen', hall'⟩⟩
  rw [before_append, before_kept, hbefore, List.append_assoc]

end

end Regex
