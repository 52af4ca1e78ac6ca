import Mathlib.Data.List.Forall2
import Moagan.Lib.Replace

/-!
# Matches at the edge of a text

* `Skips`          no match begins in a text, whatever is around it
* `skips_within`   as its characters do not suffice for a match, and its last one is not taken
* `ends_beside`    a match that does not get to the edge does not see what is behind it
* `first_parts`    nor does the preferred one
* `first_stops`    a greedy end takes all there is of its class
-/

namespace Regex

variable {α : Type}

/-! ## texts in which no match begins -/

def Skips (r : Regex α) (w : List α) : Prop :=
  ∀ v, v <:+ w → v ≠ [] → ∀ prev tail, r.ends prev (v ++ tail) = []

theorem Skips.tail {r : Regex α} {c : α} {w : List α} (h : r.Skips (c :: w)) : r.Skips w :=
  fun v hv => h v (hv.trans (List.suffix_cons c w))

theorem skips_of_passes {r : Regex α} {w : List α} (h : r.passes w = true) : r.Skips w := by
  induction w with
  | nil =>
    intro v hv hne
    exact absurd (List.suffix_nil.mp hv) hne
  | cons c w ih =>
    intro v hv hne prev tail
    obtain rfl | hv := List.suffix_cons_iff.mp hv
    · exact ends_nil_of_reach (reach_of_passes h) prev tail
    · exact ih (Bool.and_eq_true_iff.mp h).2 v hv hne prev tail

/-- it can match with the characters of `w` alone -/
def within (w : List α) : Regex α → Bool
  | .empty | .start | .boundary _ => true
  | .cls p => w.any p
  | .seq r s => r.within w && s.within w
  | .alt r s => r.within w || s.within w
  | .rep _ min _ r => min == 0 || r.within w
  | .group _ r => r.within w

/-- a match takes a character that is not in `w` -/
def Leaves (w : List α) (_ : Option α) (_ : List α) (m : Match α) : Prop := ∃ c ∈ m.taken, c ∉ w

theorem andThen_leaves {w : List α} {f g : Ways α} (h : All (Leaves w) f ∨ All (Leaves w) g) :
    All (Leaves w) (andThen f g) := by
  intro prev text x hx
  obtain ⟨m, hm, m', hm', rfl⟩ := mem_andThen.mp hx
  obtain h | h := h
  · obtain ⟨c, hc, hw⟩ := h _ _ _ hm
    exact ⟨c, List.mem_append_left m'.taken hc, hw⟩
  · obtain ⟨c, hc, hw⟩ := h _ _ _ hm'
    exact ⟨c, List.mem_append_right m.taken hc, hw⟩

theorem ends_leaves {w : List α} {r : Regex α} (h : r.within w = false) :
    All (Leaves w) r.ends := by
  induction r with
  | empty | start | boundary word => cases h
  | cls p =>
    refine all_cls fun _ c _ hp => ⟨c, List.mem_singleton_self c, fun hc => ?_⟩
    have hany : w.any p = true := List.any_eq_true.mpr ⟨c, hc, hp⟩
    rw [show w.any p = false from h] at hany
    cases hany
  | seq r s ihr ihs =>
    obtain h | h := Bool.and_eq_false_iff.mp h
    · exact andThen_leaves (Or.inl (ihr h))
    · exact andThen_leaves (Or.inr (ihs h))
  | alt r s ihr ihs =>
    obtain ⟨h1, h2⟩ := Bool.or_eq_false_iff.mp h
    exact all_alt (ihr h1) (ihs h2)
  | rep greedy min max r ih =>
    obtain ⟨h1, h2⟩ := Bool.or_eq_false_iff.mp h
    apply andThen_leaves
    cases min with
    | zero => cases h1
    | succ n => exact Or.inl (andThen_leaves (Or.inl (ih h2)))
  | group name r ih => exact all_group (ih h) name fun _ _ _ _ h => h

/-- **No match begins in `w`**, as its last character is never taken and the others do not
suffice. -/
theorem skips_within {r : Regex α} {w : List α} {e : α} (h : r.within w = false)
    (hlast : w.getLast? = some e) (htake : r.mayTake e = false) : r.Skips w := by
  intro v hv hne prev tail
  rw [List.eq_nil_iff_forall_not_mem]
  intro m hm
  have hsplit := split_of_mem hm
  have hoff : e ∉ m.taken := ends_avoid htake _ _ _ hm
  obtain ⟨c, hc, hw⟩ := ends_leaves h _ _ _ hm
  -- a match that stays in front of the last character takes characters of `w` alone
  have hlast' : v.getLast? = some e := by
    obtain ⟨u, rfl⟩ := hv
    rwa [List.getLast?_append_of_ne_nil u hne] at hlast
  obtain ⟨v', rfl⟩ : ∃ v', v = v' ++ [e] := List.getLast?_eq_some_iff.mp hlast'
  rw [List.append_assoc] at hsplit
  obtain ⟨a, ha, _⟩ | ⟨b, hb, htail⟩ := List.append_eq_append_iff.mp hsplit
  · apply hw
    apply hv.subset
    apply List.mem_append_left
    rw [ha]
    exact List.mem_append_left a hc
  · cases b with
    | nil =>
      rw [List.append_nil] at hb
      exact hw (hv.subset (List.mem_append_left [e] (hb ▸ hc)))
    | cons d b =>
      obtain ⟨rfl, _⟩ := List.cons.inj htail
      exact hoff (hb ▸ List.mem_append_right v' List.mem_cons_self)

/-- the same way to match in front of `t` and of `t'` -/
def Match.Beside (t t' : List α) (m m' : Match α) : Prop :=
  m.taken = m'.taken ∧ m.groups = m'.groups ∧ ∃ u, m.rest = u ++ t ∧ m'.rest = u ++ t'

/-- what is left in front of the edge: `x` is its last character, and it is gone only where `entry`
allows it -/
def Near (x : α) (entry : Bool) (s : List α) : Prop :=
  (s = [] → entry = true) ∧ ∀ y, s.getLast? = some y → y = x

/-- the ways to match in `s` are the same in front of `t` and of `t'` -/
def Even (x : α) (t t' : List α) (entry : Bool) (P : Option α → Option α → Prop) (f : Ways α) :
    Prop := ∀ prev prev' s, P prev prev' → Near x entry s →
  List.Forall₂ (Match.Beside t t') (f prev (s ++ t)) (f prev' (s ++ t'))

theorem forall₂_flatMap {β γ : Type} {R : β → β → Prop} {S : γ → γ → Prop} {F F' : β → List γ}
    {l l' : List β} (h : List.Forall₂ R l l')
    (hF : ∀ b ∈ l, ∀ b', R b b' → List.Forall₂ S (F b) (F' b')) :
    List.Forall₂ S (l.flatMap F) (l'.flatMap F') := by
  induction h with
  | nil => exact List.Forall₂.nil
  | @cons b b' l l' hb _ ih =>
    rw [List.flatMap_cons, List.flatMap_cons]
    exact List.rel_append (hF b List.mem_cons_self b' hb)
      (ih fun c hc => hF c (List.mem_cons_of_mem b hc))

section
variable {x : α} {t t' : List α} {P : Option α → Option α → Prop} (hP : ∀ a, P a a)
  {f g : Ways α} {entry entry' : Bool}

theorem Near.behind {a u : List α} (h : Near x entry (a ++ u)) : Near x true u := by
  refine ⟨fun _ => rfl, fun y hy => h.2 y ?_⟩
  rw [List.getLast?_append, hy]
  rfl

/-- what a match leaves in front of the edge -/
theorem split_beside {s u : List α} {m : Match α} (hsplit : m.taken ++ m.rest = s ++ t)
    (hrest : m.rest = u ++ t) : s = m.taken ++ u := by
  rw [hrest, ← List.append_assoc] at hsplit
  exact (List.append_cancel_right hsplit).symm

theorem beside_append {m m' : Match α} (h : m.Beside t t' m') {ms ms' : List (Match α)}
    (hms : List.Forall₂ (Match.Beside t t') ms ms') :
    List.Forall₂ (Match.Beside t t') (ms.map m.append) (ms'.map m'.append) := by
  obtain ⟨htaken, hgroups, _⟩ := h
  induction hms with
  | nil => exact List.Forall₂.nil
  | @cons n n' ms ms' hn _ ih =>
    obtain ⟨htaken', hgroups', hrest⟩ := hn
    refine List.Forall₂.cons ⟨?_, ?_, hrest⟩ ih
    · show m.taken ++ n.taken = m'.taken ++ n'.taken
      rw [htaken, htaken']
    · show m.groups ++ n.groups = m'.groups ++ n'.groups
      rw [hgroups, hgroups']

theorem even_stay (entry : Bool) : Even x t t' entry P fun _ text => [.stay text] :=
  fun _ _ s _ _ => List.Forall₂.cons ⟨rfl, rfl, s, rfl, rfl⟩ List.Forall₂.nil

include hP

/-- behind a match -/
theorem Even.next (hg : Even x t t' entry P g) {prev prev' : Option α} (h : P prev prev')
    {m m' : Match α} (hm : m.Beside t t' m') (hnear : ∀ u, m.rest = u ++ t → Near x entry u) :
    List.Forall₂ (Match.Beside t t') ((g (m.last prev) m.rest).map m.append)
      ((g (m'.last prev') m'.rest).map m'.append) := by
  obtain ⟨htaken, _, u, hrest, hrest'⟩ := id hm
  have hlast : m'.last prev' = m.last prev' := by rw [Match.last, Match.last, htaken]
  apply beside_append hm
  rw [hrest, hrest', hlast]
  exact hg _ _ u (like_last hP h m) (hnear u hrest)

theorem Even.andThen (hs : All Splits f) (hf : Even x t t' entry P f) (hg : Even x t t' entry' P g)
    (hexit : ∀ prev u, ∀ m ∈ f prev (m.taken ++ (u ++ t)), m.rest = u ++ t →
      Near x entry (m.taken ++ u) → Near x entry' u) : Even x t t' entry P (andThen f g) := by
  intro prev prev' s hlike hnear
  refine forall₂_flatMap (hf prev prev' s hlike hnear) fun m hm m' hbeside => ?_
  refine hg.next hP hlike hbeside fun u hrest => ?_
  obtain rfl := split_beside (hs _ _ _ hm) hrest
  rw [List.append_assoc] at hm
  exact hexit prev u m hm hrest hnear

theorem Even.times (hs : All Splits f) (hf : Even x t t' true P f) (n : ℕ) :
    Even x t t' true P (times f n) := by
  induction n with
  | zero => exact even_stay true
  | succ n ih => exact hf.andThen hP hs ih fun _ _ _ _ _ hnear => hnear.behind

theorem Even.further (hs : All Splits f) (hg : Even x t t' true P g) {prev prev' : Option α}
    (h : P prev prev') {s : List α} (hnear : Near x true s) {m m' : Match α}
    (hm : m ∈ f prev (s ++ t)) (hbeside : m.Beside t t' m') :
    List.Forall₂ (Match.Beside t t') (further g prev m) (further g prev' m') := by
  unfold Regex.further
  rw [← hbeside.1]
  cases m.taken.isEmpty with
  | true => exact List.Forall₂.cons hbeside List.Forall₂.nil
  | false =>
    refine hg.next hP h hbeside fun u hrest => ?_
    obtain rfl := split_beside (hs _ _ _ hm) hrest
    exact hnear.behind

theorem Even.upTo (hs : All Splits f) (hf : Even x t t' true P f) (greedy : Bool) (n : ℕ) :
    Even x t t' true P (upTo greedy f n) := by
  induction n with
  | zero => exact even_stay true
  | succ n ih =>
    intro prev prev' s hlike hnear
    have hmore := forall₂_flatMap (hf prev prev' s hlike hnear)
      fun m hm m' hbeside => ih.further hP hs hlike hnear hm hbeside
    have hstay : List.Forall₂ (Match.Beside t t') [.stay (s ++ t)] [.stay (s ++ t')] :=
      even_stay true prev prev' s hlike hnear
    cases greedy with
    | true => exact List.rel_append hmore hstay
    | false => exact List.rel_append hstay hmore

theorem Even.many (hs : All Splits f) (hf : Even x t t' true P f) (greedy : Bool) :
    Even x t t' true P (many greedy f) := by
  intro prev prev' s hlike hnear
  -- rounds enough for both texts
  have hlen : (s ++ t).length = s.length + t.length := List.length_append
  have hlen' : (s ++ t').length = s.length + t'.length := List.length_append
  have hfuel : Regex.upTo greedy f ((s ++ t).length + 1) prev (s ++ t)
      = Regex.upTo greedy f (s.length + t.length + t'.length + 1) prev (s ++ t) :=
    upTo_fuel hs greedy (by omega) (by omega)
  have hfuel' : Regex.upTo greedy f ((s ++ t').length + 1) prev' (s ++ t')
      = Regex.upTo greedy f (s.length + t.length + t'.length + 1) prev' (s ++ t') :=
    upTo_fuel hs greedy (by omega) (by omega)
  unfold Regex.many
  rw [hfuel, hfuel']
  exact hf.upTo hP hs greedy _ prev prev' s hlike hnear

omit hP

/-! ## the preferred match -/

end
/-! ## a greedy end -/

/-- the preferred match goes on as long as there are characters of the class -/
def Stops (p : α → Bool) (f : Ways α) : Prop :=
  ∀ prev text m, (f prev text).head? = some m → m.rest.head?.any p = false

section
variable {p : α → Bool} {f g : Ways α}

theorem Stops.andThen (hg : Stops p g) : Stops p (andThen f g) := by
  intro prev text x hx
  rw [Regex.andThen, List.head?_flatMap] at hx
  obtain ⟨m, _, hm⟩ := List.exists_of_findSome?_eq_some hx
  rw [List.head?_map] at hm
  obtain ⟨m', hm', rfl⟩ := Option.map_eq_some_iff.mp hm
  exact hg _ _ m' hm'

theorem andThen_stay (f : Ways α) : Regex.andThen f (fun _ text => [.stay text]) = f := by
  funext prev text
  have hstay : ∀ m ∈ f prev text, ([Match.stay m.rest].map m.append : List (Match α)) = [m] := by
    intro m _
    simp [Match.append, Match.stay]
  show (f prev text).flatMap (fun m => [Match.stay m.rest].map m.append) = _
  rw [List.flatMap_congr hstay]
  exact List.flatMap_singleton' _

theorem upTo_ne_nil (greedy : Bool) (k : ℕ) (prev : Option α) (text : List α) :
    upTo greedy f k prev text ≠ [] := by
  apply List.ne_nil_of_mem (a := .stay text)
  cases k with
  | zero => exact List.mem_singleton_self _
  | succ k => exact mem_upTo_succ.mpr (Or.inl rfl)

theorem stops_upTo {k : ℕ} {prev : Option α} {text : List α} {m : Match α}
    (hk : text.length < k) (h : (upTo true (cls p).ends k prev text).head? = some m) :
    m.rest.head?.any p = false := by
  induction k generalizing prev text m with
  | zero => omega
  | succ k ih =>
    cases text with
    | nil =>
      obtain rfl := Option.some.inj h
      rfl
    | cons c text =>
      cases hc : p c with
      | false =>
        have hmore : upTo true (cls p).ends (k + 1) prev (c :: text) = [.stay (c :: text)] := by
          show ((if p c then _ else [] : List (Match α)).flatMap _) ++ _ = _
          rw [hc]
          rfl
        rw [hmore] at h
        obtain rfl := Option.some.inj h
        exact hc
      | true =>
        have hmore : upTo true (cls p).ends (k + 1) prev (c :: text)
            = (upTo true (cls p).ends k (some c) text).map (Match.append ⟨[c], text, []⟩)
              ++ [.stay (c :: text)] := by
          show ((if p c then _ else [] : List (Match α)).flatMap _) ++ _ = _
          rw [hc, if_pos rfl, List.flatMap_singleton]
          rfl
        rw [hmore, List.head?_append_of_ne_nil _ (by simpa using upTo_ne_nil true k _ _),
          List.head?_map] at h
        obtain ⟨m', hm', rfl⟩ := Option.map_eq_some_iff.mp h
        rw [List.length_cons] at hk
        have hk : text.length < k := by omega
        have hrest : m'.rest.head?.any p = false := ih hk hm'
        exact hrest

theorem stops_atLeast (n : ℕ) : Stops p (rep true n none (cls p)).ends :=
  Stops.andThen fun _ text _ h => stops_upTo (Nat.lt_succ_self text.length) h

theorem first_stops {r : Regex α} (h : Stops p r.ends) {prev : Option α} {text : List α}
    {m : Match α} (hm : r.first prev text = some m) : m.rest.head?.any p = false := by
  obtain ⟨hhead, _⟩ := Option.filter_eq_some_iff.mp hm
  exact h prev text m hhead

end
end Regex
