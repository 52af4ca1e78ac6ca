import Mathlib.Data.List.Basic
import Mathlib.Data.Nat.Notation

/-!
# Regular expressions with preferences

A regular expression is read as the list of all ways to match at a place, the preferred way first:
an alternative prefers its left side, a greedy repetition one round more, a lazy one the end.  What
the engine finds at the place is the head of that list.

* `Regex`          the syntax
* `ends`           the ways to match
* `ends_split`     what is taken and what is left make up the text
* `nullable`, `mayEnd`, `mayTake`, `mayCapture`   what a match can take, end in and capture
* `ends_local`     a match that does not take `d` sees nothing behind the next `d`
* `reach`          what can be left of a text of which the beginning alone is known
-/

/-- `boundary word` is a place with a word character on one side, `start` the beginning of the
text; `rep` takes from `min` to `max` rounds -/
inductive Regex (α : Type) where
  | empty
  | start
  | boundary (word : α → Bool)
  | cls (p : α → Bool)
  | seq (r s : Regex α)
  | alt (r s : Regex α)
  | rep (greedy : Bool) (min : ℕ) (max : Option ℕ) (r : Regex α)
  | group (name : String) (r : Regex α)

namespace Regex

variable {α : Type}

/-! ## the ways to match -/

structure Match (α : Type) where
  taken : List α
  rest : List α
  groups : List (String × List α)

def Match.stay (text : List α) : Match α := ⟨[], text, []⟩

/-- the character before what is left -/
def Match.last (prev : Option α) (m : Match α) : Option α := m.taken.getLast?.or prev

def Match.append (m m' : Match α) : Match α :=
  ⟨m.taken ++ m'.taken, m'.rest, m.groups ++ m'.groups⟩

/-- from the character before a place and the text behind it -/
abbrev Ways (α : Type) := Option α → List α → List (Match α)

def andThen (f g : Ways α) : Ways α := fun prev text =>
  (f prev text).flatMap fun m => (g (m.last prev) m.rest).map m.append

def times (f : Ways α) : ℕ → Ways α
  | 0 => fun _ text => [.stay text]
  | n + 1 => andThen f (times f n)

/-- a round that takes nothing is the last one -/
def further (g : Ways α) (prev : Option α) (m : Match α) : List (Match α) :=
  if m.taken.isEmpty then [m] else (g (m.last prev) m.rest).map m.append

/-- at most `n` rounds -/
def upTo (greedy : Bool) (f : Ways α) : ℕ → Ways α
  | 0 => fun _ text => [.stay text]
  | n + 1 => fun prev text =>
    let more := (f prev text).flatMap (further (upTo greedy f n) prev)
    if greedy then more ++ [.stay text] else [.stay text] ++ more

/-- as many rounds as there can be: all but the last take a character -/
def many (greedy : Bool) (f : Ways α) : Ways α := fun prev text =>
  upTo greedy f (text.length + 1) prev text

def ends : Regex α → Ways α
  | .empty => fun _ text => [.stay text]
  | .start => fun prev text => if prev.isNone then [.stay text] else []
  | .boundary word => fun prev text =>
    if prev.any word != text.head?.any word then [.stay text] else []
  | .cls p => fun _ text =>
    match text with
    | [] => []
    | c :: text => if p c then [⟨[c], text, []⟩] else []
  | .seq r s => andThen r.ends s.ends
  | .alt r s => fun prev text => r.ends prev text ++ s.ends prev text
  | .rep greedy min max r =>
    andThen (times r.ends min) <|
      match max with
      | none => many greedy r.ends
      | some n => upTo greedy r.ends (n - min)
  | .group name r => fun prev text =>
    (r.ends prev text).map fun m => { m with groups := (name, m.taken) :: m.groups }

theorem mem_andThen {f g : Ways α} {prev : Option α} {text : List α} {x : Match α} :
    x ∈ andThen f g prev text ↔
      ∃ m ∈ f prev text, ∃ m' ∈ g (m.last prev) m.rest, m.append m' = x := by
  simp only [andThen, List.mem_flatMap, List.mem_map]

theorem mem_further {g : Ways α} {prev : Option α} {m x : Match α} : x ∈ further g prev m ↔
    m.taken = [] ∧ x = m ∨ m.taken ≠ [] ∧ ∃ m' ∈ g (m.last prev) m.rest, m.append m' = x := by
  by_cases h : m.taken = []
  · simp [further, h]
  · simp [further, h]

theorem mem_upTo_succ {greedy : Bool} {f : Ways α} {n : ℕ} {prev : Option α} {text : List α}
    {x : Match α} : x ∈ upTo greedy f (n + 1) prev text ↔
      x = .stay text ∨ ∃ m ∈ f prev text, x ∈ further (upTo greedy f n) prev m := by
  cases greedy with
  | true => simp only [upTo, if_true, List.mem_append, List.mem_flatMap, List.mem_singleton, or_comm]
  | false => simp only [upTo, Bool.false_eq_true, if_false, List.mem_append, List.mem_flatMap,
      List.mem_singleton]

/-- a class so many times -/
theorem times_cls (p : α → Bool) (n : ℕ) (prev : Option α) (text : List α) :
    times (cls p).ends n prev text = if n ≤ text.length ∧ (text.take n).all p = true then
      [⟨text.take n, text.drop n, []⟩] else [] := by
  induction n generalizing prev text with
  | zero => rfl
  | succ n ih =>
    cases text with
    | nil => rfl
    | cons c text =>
      show ((if p c then [⟨[c], text, []⟩] else [] : List (Match α)).flatMap fun m =>
        (times (cls p).ends n (m.last prev) m.rest).map m.append) = _
      cases hc : p c with
      | false => simp [hc]
      | true =>
        simp only [if_true, List.flatMap_cons, List.flatMap_nil, List.append_nil, ih]
        by_cases h : n ≤ text.length ∧ (text.take n).all p = true
        · rw [if_pos h, if_pos (by simpa [hc] using h)]
          rfl
        · rw [if_neg h, if_neg (by simpa [hc] using h)]
          rfl

theorem ends_exactly (greedy : Bool) (p : α → Bool) (n : ℕ) (prev : Option α) (text : List α) :
    (rep greedy n (some n) (cls p)).ends prev text
      = if n ≤ text.length ∧ (text.take n).all p = true then
        [⟨text.take n, text.drop n, []⟩] else [] := by
  show andThen (times (cls p).ends n) (upTo greedy (cls p).ends (n - n)) prev text = _
  rw [Nat.sub_self, andThen, times_cls]
  by_cases h : n ≤ text.length ∧ (text.take n).all p = true
  · rw [if_pos h]
    simp [upTo, Match.append, Match.stay]
  · rw [if_neg h]
    rfl

/-! ## what holds of every round holds of their sequence -/

structure Composes (Q : Option α → List α → Match α → Prop) : Prop where
  stay : ∀ prev text, Q prev text (.stay text)
  append : ∀ prev text m m', Q prev text m → Q (m.last prev) m.rest m' → Q prev text (m.append m')

def All (Q : Option α → List α → Match α → Prop) (f : Ways α) : Prop :=
  ∀ prev text, ∀ m ∈ f prev text, Q prev text m

section
variable {Q : Option α → List α → Match α → Prop} {f g : Ways α}

theorem Composes.andThen (hQ : Composes Q) (hf : All Q f) (hg : All Q g) : All Q (andThen f g) := by
  intro prev text x hx
  obtain ⟨m, hm, m', hm', rfl⟩ := mem_andThen.mp hx
  exact hQ.append _ _ _ _ (hf _ _ _ hm) (hg _ _ _ hm')

theorem Composes.stays (hQ : Composes Q) : All Q fun _ text => [.stay text] := by
  intro prev text m hm
  rw [List.mem_singleton.mp hm]
  exact hQ.stay prev text

theorem Composes.times (hQ : Composes Q) (hf : All Q f) (n : ℕ) : All Q (times f n) := by
  induction n with
  | zero => exact hQ.stays
  | succ n ih => exact hQ.andThen hf ih

theorem Composes.upTo (hQ : Composes Q) (hf : All Q f) (greedy : Bool) (n : ℕ) :
    All Q (upTo greedy f n) := by
  induction n with
  | zero => exact hQ.stays
  | succ n ih =>
    intro prev text x hx
    obtain rfl | ⟨m, hm, hx⟩ := mem_upTo_succ.mp hx
    · exact hQ.stay prev text
    · obtain ⟨_, rfl⟩ | ⟨_, m', hm', rfl⟩ := mem_further.mp hx
      · exact hf _ _ _ hm
      · exact hQ.append _ _ _ _ (hf _ _ _ hm) (ih _ _ _ hm')

theorem Composes.rep (hQ : Composes Q) {r : Regex α} (hr : All Q r.ends) (greedy : Bool) (min : ℕ)
    (max : Option ℕ) : All Q (rep greedy min max r).ends := by
  apply hQ.andThen (hQ.times hr min)
  cases max with
  | none => exact fun prev text => hQ.upTo hr greedy (text.length + 1) prev text
  | some n => exact hQ.upTo hr greedy (n - min)

/-- a property that does not look at the groups -/
theorem all_group {r : Regex α} (hr : All Q r.ends) (name : String)
    (h : ∀ prev text m gs, Q prev text m → Q prev text { m with groups := gs }) :
    All Q (group name r).ends := by
  intro prev text x hx
  obtain ⟨m, hm, rfl⟩ := List.mem_map.mp hx
  exact h _ _ _ _ (hr _ _ _ hm)

theorem all_alt {r s : Regex α} (hr : All Q r.ends) (hs : All Q s.ends) : All Q (alt r s).ends := by
  intro prev text x hx
  obtain hx | hx := List.mem_append.mp hx
  · exact hr _ _ _ hx
  · exact hs _ _ _ hx

/-- what takes nothing, where a condition on the place holds -/
theorem all_stay {b : Option α → List α → Bool} (hQ : Composes Q) :
    All Q fun prev text => if b prev text then [.stay text] else [] := by
  intro prev text m hm
  have hm : m ∈ if b prev text then [.stay text] else [] := hm
  by_cases hb : b prev text = true
  · rw [if_pos hb] at hm
    exact hQ.stays prev text m hm
  · rw [if_neg hb] at hm
    cases hm

theorem Composes.start (hQ : Composes Q) : All Q (start : Regex α).ends :=
  all_stay (b := fun prev _ => prev.isNone) hQ

theorem Composes.boundary (hQ : Composes Q) (word : α → Bool) : All Q (boundary word).ends :=
  all_stay (b := fun prev text => prev.any word != text.head?.any word) hQ

theorem all_cls {p : α → Bool} (h : ∀ prev c text, p c = true → Q prev (c :: text) ⟨[c], text, []⟩) :
    All Q (cls p).ends := by
  intro prev text m hm
  cases text with
  | nil => cases hm
  | cons c text =>
    have hm : m ∈ if p c then [⟨[c], text, []⟩] else [] := hm
    by_cases hc : p c = true
    · rw [if_pos hc] at hm
      rw [List.mem_singleton.mp hm]
      exact h prev c text hc
    · rw [if_neg hc] at hm
      cases hm

end

/-! ## what a match takes -/

def Splits (_ : Option α) (text : List α) (m : Match α) : Prop := m.taken ++ m.rest = text

theorem splits_composes : Composes (Splits (α := α)) where
  stay _ _ := rfl
  append _ text m m' h h' := by
    have h' : m'.taken ++ m'.rest = m.rest := h'
    show (m.taken ++ m'.taken) ++ m'.rest = text
    rw [List.append_assoc, h']
    exact h

theorem ends_split (r : Regex α) : All Splits r.ends := by
  induction r with
  | empty => exact splits_composes.stays
  | start => exact splits_composes.start
  | boundary word => exact splits_composes.boundary word
  | cls p => exact all_cls fun _ _ _ _ => rfl
  | seq r s ihr ihs => exact splits_composes.andThen ihr ihs
  | alt r s ihr ihs => exact all_alt ihr ihs
  | rep greedy min max r ih => exact splits_composes.rep ih greedy min max
  | group name r ih => exact all_group ih name fun _ _ _ _ h => h

theorem split_of_mem {r : Regex α} {prev : Option α} {text : List α} {m : Match α}
    (h : m ∈ r.ends prev text) : m.taken ++ m.rest = text := ends_split r prev text m h

/-- it can match without taking a character -/
def nullable : Regex α → Bool
  | .empty | .start | .boundary _ => true
  | .cls _ => false
  | .seq r s => r.nullable && s.nullable
  | .alt r s => r.nullable || s.nullable
  | .rep _ min _ r => min == 0 || r.nullable
  | .group _ r => r.nullable

/-- a match can take `c` -/
def mayTake (c : α) : Regex α → Bool
  | .empty | .start | .boundary _ => false
  | .cls p => p c
  | .seq r s | .alt r s => r.mayTake c || s.mayTake c
  | .rep _ _ _ r | .group _ r => r.mayTake c

/-- the last character that a match takes can be `c` -/
def mayEnd (c : α) : Regex α → Bool
  | .empty | .start | .boundary _ => false
  | .cls p => p c
  | .seq r s => s.mayEnd c || s.nullable && r.mayEnd c
  | .alt r s => r.mayEnd c || s.mayEnd c
  | .rep _ _ _ r | .group _ r => r.mayEnd c

/-- it looks for the beginning of the text -/
def anchored : Regex α → Bool
  | .start => true
  | .empty | .boundary _ | .cls _ => false
  | .seq r s | .alt r s => r.anchored || s.anchored
  | .rep _ _ _ r | .group _ r => r.anchored

/-- a group can take `c` -/
def mayCapture (c : α) : Regex α → Bool
  | .empty | .start | .boundary _ | .cls _ => false
  | .seq r s | .alt r s => r.mayCapture c || s.mayCapture c
  | .rep _ _ _ r => r.mayCapture c
  | .group _ r => r.mayTake c || r.mayCapture c

def Takes (_ : Option α) (_ : List α) (m : Match α) : Prop := m.taken ≠ []

theorem andThen_takes {f g : Ways α} (h : All Takes f ∨ All Takes g) : All Takes (andThen f g) := by
  intro prev text x hx hnil
  obtain ⟨m, hm, m', hm', rfl⟩ := mem_andThen.mp hx
  obtain ⟨h1, h2⟩ := List.append_eq_nil_iff.mp hnil
  obtain h | h := h
  · exact h _ _ _ hm h1
  · exact h _ _ _ hm' h2

theorem ends_takes {r : Regex α} (h : r.nullable = false) : All Takes r.ends := by
  induction r with
  | empty | start | boundary word => cases h
  | cls p => exact all_cls fun _ _ _ _ => List.cons_ne_nil _ _
  | seq r s ihr ihs =>
    obtain h | h := Bool.and_eq_false_iff.mp h
    · exact andThen_takes (Or.inl (ihr h))
    · exact andThen_takes (Or.inr (ihs h))
  | alt r s ihr ihs =>
    obtain ⟨h1, h2⟩ := Bool.or_eq_false_iff.mp h
    exact all_alt (ihr h1) (ihs h2)
  | rep greedy min max r ih =>
    obtain ⟨h1, h2⟩ := Bool.or_eq_false_iff.mp h
    apply andThen_takes
    cases min with
    | zero => cases h1
    | succ n => exact Or.inl (andThen_takes (Or.inl (ih h2)))
  | group name r ih => exact all_group (ih h) name fun _ _ _ _ h => h

def Avoids (c : α) (_ : Option α) (_ : List α) (m : Match α) : Prop := c ∉ m.taken

theorem avoids_composes (c : α) : Composes (Avoids c) where
  stay _ _ := List.not_mem_nil
  append _ _ _ _ h h' hm := (List.mem_append.mp hm).elim h h'

theorem ends_avoid {c : α} {r : Regex α} (h : r.mayTake c = false) : All (Avoids c) r.ends := by
  have hQ := avoids_composes c
  induction r with
  | empty => exact hQ.stays
  | start => exact hQ.start
  | boundary word => exact hQ.boundary word
  | cls p =>
    refine all_cls fun _ a _ hp hm => ?_
    rw [List.mem_singleton.mp hm] at h
    exact absurd hp (Bool.eq_false_iff.mp h)
  | seq r s ihr ihs =>
    obtain ⟨h1, h2⟩ := Bool.or_eq_false_iff.mp h
    exact hQ.andThen (ihr h1) (ihs h2)
  | alt r s ihr ihs =>
    obtain ⟨h1, h2⟩ := Bool.or_eq_false_iff.mp h
    exact all_alt (ihr h1) (ihs h2)
  | rep greedy min max r ih => exact hQ.rep (ih h) greedy min max
  | group name r ih => exact all_group (ih h) name fun _ _ _ _ h => h

def EndsOff (c : α) (_ : Option α) (_ : List α) (m : Match α) : Prop := m.taken.getLast? ≠ some c

theorem endsOff_composes (c : α) : Composes (EndsOff c) where
  stay _ _ := nofun
  append _ _ m m' h h' := by
    show (m.taken ++ m'.taken).getLast? ≠ some c
    have h' : m'.taken.getLast? ≠ some c := h'
    rw [List.getLast?_append]
    cases hlast : m'.taken.getLast? with
    | none => exact h
    | some a =>
      rw [hlast] at h'
      exact h'

theorem ends_off {c : α} {r : Regex α} (h : r.mayEnd c = false) : All (EndsOff c) r.ends := by
  have hQ := endsOff_composes c
  induction r with
  | empty => exact hQ.stays
  | start => exact hQ.start
  | boundary word => exact hQ.boundary word
  | cls p =>
    refine all_cls fun _ a _ hp hm => ?_
    obtain rfl : a = c := Option.some.inj hm
    exact absurd hp (Bool.eq_false_iff.mp h)
  | seq r s ihr ihs =>
    obtain ⟨h1, h2⟩ := Bool.or_eq_false_iff.mp h
    obtain h2 | h2 := Bool.and_eq_false_iff.mp h2
    · -- the right side takes a character
      intro prev text x hx
      obtain ⟨m, _, m', hm', rfl⟩ := mem_andThen.mp hx
      have hoff := ihs h1 _ _ _ hm'
      have hne : m'.taken ≠ [] := ends_takes h2 _ _ _ hm'
      show (m.taken ++ m'.taken).getLast? ≠ some c
      rwa [List.getLast?_append_of_ne_nil _ hne]
    · exact hQ.andThen (ihr h2) (ihs h1)
  | alt r s ihr ihs =>
    obtain ⟨h1, h2⟩ := Bool.or_eq_false_iff.mp h
    exact all_alt (ihr h1) (ihs h2)
  | rep greedy min max r ih => exact hQ.rep (ih h) greedy min max
  | group name r ih => exact all_group (ih h) name fun _ _ _ _ h => h

def GroupsAvoid (c : α) (_ : Option α) (_ : List α) (m : Match α) : Prop :=
  ∀ g ∈ m.groups, c ∉ g.2

theorem groupsAvoid_composes (c : α) : Composes (GroupsAvoid c) where
  stay _ _ := nofun
  append _ _ _ _ h h' g hg := (List.mem_append.mp hg).elim (h g) (h' g)

theorem ends_groups {c : α} {r : Regex α} (h : r.mayCapture c = false) :
    All (GroupsAvoid c) r.ends := by
  have hQ := groupsAvoid_composes c
  induction r with
  | empty => exact hQ.stays
  | start => exact hQ.start
  | boundary word => exact hQ.boundary word
  | cls p => exact all_cls fun _ _ _ _ => nofun
  | seq r s ihr ihs =>
    obtain ⟨h1, h2⟩ := Bool.or_eq_false_iff.mp h
    exact hQ.andThen (ihr h1) (ihs h2)
  | alt r s ihr ihs =>
    obtain ⟨h1, h2⟩ := Bool.or_eq_false_iff.mp h
    exact all_alt (ihr h1) (ihs h2)
  | rep greedy min max r ih => exact hQ.rep (ih h) greedy min max
  | group name r ih =>
    obtain ⟨h1, h2⟩ := Bool.or_eq_false_iff.mp h
    intro prev text x hx g hg
    obtain ⟨m, hm, rfl⟩ := List.mem_map.mp hx
    obtain rfl | hg := List.mem_cons.mp hg
    · exact ends_avoid h1 _ _ _ hm
    · exact ih h2 _ _ _ hm g hg

/-! ## what is behind the next `d` does not matter -/

/-- more rounds than characters change nothing -/
theorem upTo_fuel {f : Ways α} (hf : All Splits f) (greedy : Bool) {n k : ℕ} {prev : Option α}
    {text : List α} (hn : text.length < n) (hk : text.length < k) :
    upTo greedy f n prev text = upTo greedy f k prev text := by
  induction n generalizing k prev text with
  | zero => omega
  | succ n ih =>
    obtain ⟨k, rfl⟩ : ∃ j, k = j + 1 := ⟨k - 1, by omega⟩
    have hmore : ∀ m ∈ f prev text,
        further (upTo greedy f n) prev m = further (upTo greedy f k) prev m := by
      intro m hm
      unfold further
      cases htaken : m.taken with
      | nil => rfl
      | cons c cs =>
        have hsplit : m.taken ++ m.rest = text := hf _ _ _ hm
        have hlen := congrArg List.length hsplit
        rw [htaken, List.length_append, List.length_cons] at hlen
        rw [ih (k := k) (by omega) (by omega)]
    simp only [upTo, List.flatMap_congr hmore]

variable [DecidableEq α]

/-- the matches that do not take `d` -/
def keeps (d : α) (ms : List (Match α)) : List (Match α) := ms.filter fun m => d ∉ m.taken

def Match.extend (tail : List α) (m : Match α) : Match α := { m with rest := m.rest ++ tail }

/-- The matches of `f` that do not take `d` are the same with another character before, as far as
`P` allows it, and whatever is behind the next `d`. -/
def Local (d : α) (P : Option α → Option α → Prop) (f : Ways α) : Prop :=
  ∀ prev prev' text tail, P prev prev' → tail = [] ∨ d ∈ text →
    keeps d (f prev (text ++ tail)) = (keeps d (f prev' text)).map (·.extend tail)

theorem keeps_append (d : α) (ms ms' : List (Match α)) :
    keeps d (ms ++ ms') = keeps d ms ++ keeps d ms' := List.filter_append ..

theorem mem_keeps {d : α} {ms : List (Match α)} {m : Match α} :
    m ∈ keeps d ms ↔ m ∈ ms ∧ d ∉ m.taken := by
  simp only [keeps, List.mem_filter, decide_eq_true_eq]

theorem keeps_map_append {d : α} {m : Match α} (h : d ∉ m.taken) (ms : List (Match α)) :
    keeps d (ms.map m.append) = (keeps d ms).map m.append := by
  induction ms with
  | nil => rfl
  | cons m' ms ih =>
    have hiff : d ∉ (m.append m').taken ↔ d ∉ m'.taken := by simp [Match.append, h]
    simp only [keeps, List.map_cons, List.filter_cons, hiff] at ih ⊢
    rw [ih]
    by_cases hd : d ∈ m'.taken
    · simp [hd]
    · simp [hd]

theorem keeps_flatMap {d : α} {ms : List (Match α)} {F : Match α → List (Match α)}
    (h : ∀ m, d ∈ m.taken → keeps d (F m) = []) :
    keeps d (ms.flatMap F) = (keeps d ms).flatMap fun m => keeps d (F m) := by
  induction ms with
  | nil => rfl
  | cons m ms ih =>
    rw [List.flatMap_cons, keeps_append, ih]
    by_cases hd : d ∈ m.taken
    · rw [h m hd]
      simp [keeps, hd]
    · simp [keeps, hd]

theorem keeps_map_append_of_mem {d : α} {m : Match α} (h : d ∈ m.taken) (ms : List (Match α)) :
    keeps d (ms.map m.append) = [] := by
  rw [keeps, List.filter_eq_nil_iff]
  intro x hx
  obtain ⟨m', _, rfl⟩ := List.mem_map.mp hx
  simp [Match.append, h]

theorem keeps_further_of_mem {d : α} {g : Ways α} {prev : Option α} {m : Match α}
    (h : d ∈ m.taken) : keeps d (further g prev m) = [] := by
  have hne : m.taken.isEmpty = false := List.isEmpty_eq_false_iff.mpr (List.ne_nil_of_mem h)
  rw [further, hne]
  exact keeps_map_append_of_mem h _

theorem local_flatMap {d : α} {tail : List α} {ms ms' : List (Match α)}
    {F F' : Match α → List (Match α)} (hms : keeps d ms = (keeps d ms').map (·.extend tail))
    (h : ∀ m, d ∈ m.taken → keeps d (F m) = []) (h' : ∀ m, d ∈ m.taken → keeps d (F' m) = [])
    (hF : ∀ m ∈ ms', d ∉ m.taken →
      keeps d (F (m.extend tail)) = (keeps d (F' m)).map (·.extend tail)) :
    keeps d (ms.flatMap F) = (keeps d (ms'.flatMap F')).map (·.extend tail) := by
  rw [keeps_flatMap h, keeps_flatMap h', hms, List.flatMap_map, List.map_flatMap]
  apply List.flatMap_congr
  intro m hm
  obtain ⟨hm, hd⟩ := mem_keeps.mp hm
  exact hF m hm hd

section
variable {d : α} {P : Option α → Option α → Prop} (hP : ∀ a, P a a) {f g : Ways α}
include hP

omit [DecidableEq α] in
/-- behind a match that does not take `d` -/
theorem like_last {prev prev' : Option α} (h : P prev prev') (m : Match α) :
    P (m.last prev) (m.last prev') := by
  unfold Match.last
  cases m.taken.getLast? with
  | none => exact h
  | some c => exact hP _

theorem Local.next (hg : Local d P g) {prev prev' : Option α} {text tail : List α} {m : Match α}
    (h : P prev prev') (ht : tail = [] ∨ d ∈ text) (hsplit : m.taken ++ m.rest = text)
    (hd : d ∉ m.taken) :
    keeps d ((g ((m.extend tail).last prev) (m.extend tail).rest).map (m.extend tail).append)
      = (keeps d ((g (m.last prev') m.rest).map m.append)).map (·.extend tail) := by
  have hrest : tail = [] ∨ d ∈ m.rest := by
    refine ht.imp_right fun hmem => ?_
    rw [← hsplit] at hmem
    exact (List.mem_append.mp hmem).resolve_left hd
  have hg := hg (m.last prev) (m.last prev') m.rest tail (like_last hP h m) hrest
  rw [keeps_map_append (m := m.extend tail) hd, keeps_map_append hd]
  show (keeps d (g (m.last prev) (m.rest ++ tail))).map _ = _
  rw [hg, List.map_map, List.map_map]
  rfl

theorem Local.further (hg : Local d P g) {prev prev' : Option α} {text tail : List α} {m : Match α}
    (h : P prev prev') (ht : tail = [] ∨ d ∈ text) (hsplit : m.taken ++ m.rest = text)
    (hd : d ∉ m.taken) : keeps d (further g prev (m.extend tail))
      = (keeps d (further g prev' m)).map (·.extend tail) := by
  unfold Regex.further
  have htaken : (m.extend tail).taken = m.taken := rfl
  rw [htaken]
  cases m.taken.isEmpty with
  | true =>
    have hkeep : ∀ m : Match α, d ∉ m.taken → keeps d [m] = [m] := by
      intro m hm
      simp [keeps, hm]
    rw [if_pos rfl, if_pos rfl, hkeep m hd, hkeep (m.extend tail) hd]
    rfl
  | false => exact hg.next hP h ht hsplit hd

theorem Local.andThen (hs : All Splits f) (hf : Local d P f) (hg : Local d P g) :
    Local d P (andThen f g) := by
  intro prev prev' text tail h ht
  refine local_flatMap (hf prev prev' text tail h ht) (fun m => (keeps_map_append_of_mem · _))
    (fun m => (keeps_map_append_of_mem · _)) fun m hm hd => ?_
  exact hg.next hP h ht (hs _ _ _ hm) hd

omit hP in
theorem local_stay : Local d P fun _ text => [.stay text] := fun _ _ _ _ _ _ => rfl

theorem Local.times (hs : All Splits f) (hf : Local d P f) (n : ℕ) : Local d P (times f n) := by
  induction n with
  | zero => exact local_stay
  | succ n ih => exact Local.andThen hP hs hf ih

theorem Local.upTo (hs : All Splits f) (hf : Local d P f) (greedy : Bool) (n : ℕ) :
    Local d P (upTo greedy f n) := by
  induction n with
  | zero => exact local_stay
  | succ n ih =>
    intro prev prev' text tail h ht
    have hmore := local_flatMap (hf prev prev' text tail h ht) (fun m => keeps_further_of_mem)
      (fun m => keeps_further_of_mem) fun m hm hd => ih.further hP h ht (hs _ _ _ hm) hd
    cases greedy with
    | true =>
      show keeps d (_ ++ [.stay (text ++ tail)]) = (keeps d (_ ++ [.stay text])).map _
      rw [keeps_append, keeps_append, List.map_append, hmore]
      rfl
    | false =>
      show keeps d ([.stay (text ++ tail)] ++ _) = (keeps d ([.stay text] ++ _)).map _
      rw [keeps_append, keeps_append, List.map_append, hmore]
      rfl

theorem Local.many (hs : All Splits f) (hf : Local d P f) (greedy : Bool) :
    Local d P (many greedy f) := by
  intro prev prev' text tail h ht
  show keeps d (Regex.upTo greedy f _ prev (text ++ tail)) = _
  rw [Local.upTo hP hs hf greedy _ prev prev' text tail h ht, Regex.many,
    upTo_fuel hs greedy (k := text.length + 1) (by rw [List.length_append]; omega) (by omega)]

end

/-- the expression does not tell `prev` from `prev'` before its place -/
def alike (prev prev' : Option α) : Regex α → Bool
  | .empty | .cls _ => true
  | .start => prev.isNone == prev'.isNone
  | .boundary word => prev.any word == prev'.any word
  | .seq r s | .alt r s => r.alike prev prev' && s.alike prev prev'
  | .rep _ _ _ r | .group _ r => r.alike prev prev'

omit [DecidableEq α] in
theorem alike_refl (prev : Option α) (r : Regex α) : r.alike prev prev = true := by
  induction r with
  | empty | cls p => rfl
  | start | boundary word => exact beq_self_eq_true _
  | seq r s ihr ihs | alt r s ihr ihs => exact Bool.and_eq_true_iff.mpr ⟨ihr, ihs⟩
  | rep greedy min max r ih | group name r ih => exact ih

/-- **A match that does not take `d` sees nothing behind the next `d`.** -/
theorem ends_local {d : α} {P : Option α → Option α → Prop} (hP : ∀ a, P a a) {r : Regex α}
    (h : ∀ prev prev', P prev prev' → r.alike prev prev' = true) : Local d P r.ends := by
  induction r with
  | empty => exact local_stay
  | start =>
    intro prev prev' text tail hlike _
    have hp : prev.isNone = prev'.isNone := eq_of_beq (h prev prev' hlike)
    show keeps d (if prev.isNone then _ else _) = (keeps d (if prev'.isNone then _ else _)).map _
    rw [hp]
    cases prev'.isNone with
    | true => rfl
    | false => rfl
  | boundary word =>
    intro prev prev' text tail hlike ht
    have hp : prev.any word = prev'.any word := eq_of_beq (h prev prev' hlike)
    have hhead : (text ++ tail).head? = text.head? := by
      cases text with
      | nil =>
        obtain rfl | hmem := ht
        · rfl
        · cases hmem
      | cons c text => rfl
    show keeps d (if prev.any word != (text ++ tail).head?.any word then _ else _)
      = (keeps d (if prev'.any word != text.head?.any word then _ else _)).map _
    rw [hp, hhead]
    cases prev'.any word != text.head?.any word with
    | true => rfl
    | false => rfl
  | cls p =>
    intro prev prev' text tail _ ht
    cases text with
    | nil =>
      obtain rfl | hmem := ht
      · rfl
      · cases hmem
    | cons c text =>
      show keeps d (if p c then [⟨[c], text ++ tail, []⟩] else [])
        = (keeps d (if p c then [⟨[c], text, []⟩] else [])).map _
      cases p c with
      | false => rfl
      | true =>
        by_cases hd : d = c
        · simp [keeps, hd]
        · simp [keeps, hd, Match.extend]
  | seq r s ihr ihs =>
    have hand := fun prev prev' hlike => Bool.and_eq_true_iff.mp (h prev prev' hlike)
    exact Local.andThen hP (ends_split r) (ihr fun _ _ hl => (hand _ _ hl).1)
      (ihs fun _ _ hl => (hand _ _ hl).2)
  | alt r s ihr ihs =>
    have hand := fun prev prev' hlike => Bool.and_eq_true_iff.mp (h prev prev' hlike)
    intro prev prev' text tail hlike ht
    show keeps d (r.ends prev (text ++ tail) ++ s.ends prev (text ++ tail))
      = (keeps d (r.ends prev' text ++ s.ends prev' text)).map _
    rw [keeps_append, keeps_append, List.map_append,
      ihr (fun _ _ hl => (hand _ _ hl).1) prev prev' text tail hlike ht,
      ihs (fun _ _ hl => (hand _ _ hl).2) prev prev' text tail hlike ht]
  | rep greedy min max r ih =>
    have hr := ih h
    apply Local.andThen hP (splits_composes.times (ends_split r) min)
      (Local.times hP (ends_split r) hr min)
    cases max with
    | none => exact Local.many hP (ends_split r) hr greedy
    | some n => exact Local.upTo hP (ends_split r) hr greedy (n - min)
  | group name r ih =>
    intro prev prev' text tail hlike ht
    have hr := ih h prev prev' text tail hlike ht
    have hkeeps : ∀ ms : List (Match α), keeps d (ms.map fun m =>
        { m with groups := (name, m.taken) :: m.groups })
          = (keeps d ms).map fun m => { m with groups := (name, m.taken) :: m.groups } :=
      fun ms => List.filter_map ..
    show keeps d ((r.ends prev (text ++ tail)).map _) = (keeps d ((r.ends prev' text).map _)).map _
    rw [hkeeps, hkeeps, hr, List.map_map, List.map_map]
    rfl

/-! ## a text of which the beginning is known -/

omit [DecidableEq α]

/-- from the known beginning to all that can be left of it; `none` where a match could pass its
end -/
abbrev Reach (α : Type) := List α → Option (List (List α))

def gather (F : Reach α) : List (List α) → Option (List (List α))
  | [] => some []
  | s :: ss => do return (← F s) ++ (← gather F ss)

def reachSeq (F G : Reach α) : Reach α := fun s => (F s).bind (gather G)

def reachTimes (F : Reach α) : ℕ → Reach α
  | 0 => fun s => some [s]
  | n + 1 => reachSeq F (reachTimes F n)

def reachMany (F : Reach α) : ℕ → Reach α
  | 0 => fun s => (F s).map fun _ => [s]
  | n + 1 => fun s => do
    return s :: (← gather (reachMany F n) ((← F s).filter fun s' => s'.length < s.length))

/-- what can be left of the known beginning behind a match, whatever the rest of the text is -/
def reach : Regex α → Reach α
  | .empty | .start | .boundary _ => fun s => some [s]
  | .cls p => fun s =>
    match s with
    | [] => none
    | c :: s => some (if p c then [s] else [])
  | .seq r s => reachSeq r.reach s.reach
  | .alt r s => fun t => do return (← r.reach t) ++ (← s.reach t)
  | .rep _ min _ r => reachSeq (reachTimes r.reach min) fun s => reachMany r.reach s.length s
  | .group _ r => r.reach

/-- all that `f` leaves of a text `s ++ tail` is in `F s` -/
def Covers (tail : List α) (f : Ways α) (F : Reach α) : Prop :=
  ∀ prev s, ∀ m ∈ f prev (s ++ tail), ∀ ss, F s = some ss → ∃ s' ∈ ss, m.rest = s' ++ tail

theorem gather_mem {F : Reach α} {ss ss' : List (List α)} (h : gather F ss = some ss') {s : List α}
    (hs : s ∈ ss) : ∃ ts, F s = some ts ∧ ts ⊆ ss' := by
  induction ss generalizing ss' with
  | nil => cases hs
  | cons t ss ih =>
    simp only [gather, Option.bind_eq_bind, Option.bind_eq_some_iff, Option.pure_def,
      Option.some.injEq] at h
    obtain ⟨ts, ht, us, hu, rfl⟩ := h
    obtain rfl | hs := List.mem_cons.mp hs
    · exact ⟨ts, ht, List.subset_append_left ts us⟩
    · obtain ⟨vs, hv, hsub⟩ := ih hu hs
      exact ⟨vs, hv, List.Subset.trans hsub (List.subset_append_right ts us)⟩

theorem reachMany_self {F : Reach α} {n : ℕ} {s : List α} {ss : List (List α)}
    (h : reachMany F n s = some ss) : s ∈ ss := by
  cases n with
  | zero =>
    obtain ⟨ts, _, rfl⟩ := Option.map_eq_some_iff.mp h
    exact List.mem_singleton_self s
  | succ n =>
    simp only [reachMany, Option.bind_eq_bind, Option.bind_eq_some_iff, Option.pure_def,
      Option.some.injEq] at h
    obtain ⟨ts, _, us, _, rfl⟩ := h
    exact List.mem_cons_self

theorem reachMany_round {F : Reach α} {n : ℕ} {s : List α} {ss : List (List α)}
    (h : reachMany F n s = some ss) : ∃ ts, F s = some ts := by
  cases n with
  | zero =>
    obtain ⟨ts, ht, _⟩ := Option.map_eq_some_iff.mp h
    exact ⟨ts, ht⟩
  | succ n =>
    simp only [reachMany, Option.bind_eq_bind, Option.bind_eq_some_iff] at h
    obtain ⟨ts, ht, _⟩ := h
    exact ⟨ts, ht⟩

theorem reachMany_succ {F : Reach α} {n : ℕ} {s : List α} {ss ts : List (List α)}
    (h : reachMany F (n + 1) s = some ss) (ht : F s = some ts) {s' : List α} (hs' : s' ∈ ts)
    (hlen : s'.length < s.length) : ∃ us, reachMany F n s' = some us ∧ us ⊆ ss := by
  simp only [reachMany, Option.bind_eq_bind, Option.bind_eq_some_iff, Option.pure_def,
    Option.some.injEq, ht] at h
  obtain ⟨_, rfl, us, hu, rfl⟩ := h
  obtain ⟨vs, hv, hsub⟩ := gather_mem hu (List.mem_filter.mpr ⟨hs', decide_eq_true hlen⟩)
  exact ⟨vs, hv, List.Subset.trans hsub (List.subset_cons_self s us)⟩

section
variable {tail : List α} {f g : Ways α} {F G : Reach α}

theorem covers_stay : Covers tail (fun _ text => [.stay text]) fun s => some [s] := by
  intro prev s m hm ss hs
  rw [List.mem_singleton.mp hm, ← Option.some.inj hs]
  exact ⟨s, List.mem_singleton_self s, rfl⟩

theorem Covers.andThen (hf : Covers tail f F) (hg : Covers tail g G) :
    Covers tail (andThen f g) (reachSeq F G) := by
  intro prev s x hx ss hs
  obtain ⟨m, hm, m', hm', rfl⟩ := mem_andThen.mp hx
  obtain ⟨ts, ht, hgather⟩ := Option.bind_eq_some_iff.mp hs
  obtain ⟨s', hs', hrest⟩ := hf prev s m hm ts ht
  obtain ⟨us, hu, hsub⟩ := gather_mem hgather hs'
  rw [hrest] at hm'
  obtain ⟨s'', hs'', hrest'⟩ := hg _ s' m' hm' us hu
  exact ⟨s'', hsub hs'', hrest'⟩

theorem Covers.times (hf : Covers tail f F) (n : ℕ) : Covers tail (times f n) (reachTimes F n) := by
  induction n with
  | zero => exact covers_stay
  | succ n ih => exact hf.andThen ih

/-- a round that takes a character leaves less of the beginning -/
theorem shorter_of_split {s s' : List α} {m : Match α} (hsplit : m.taken ++ m.rest = s ++ tail)
    (hrest : m.rest = s' ++ tail) (hne : m.taken ≠ []) : s'.length < s.length := by
  have hpos := List.length_pos_iff.mpr hne
  have hlen := congrArg List.length hsplit
  rw [hrest, List.length_append, List.length_append, List.length_append] at hlen
  omega

theorem Covers.upTo (hs : All Splits f) (hf : Covers tail f F) (greedy : Bool) (k : ℕ) {n : ℕ}
    {prev : Option α} {s : List α} {x : Match α} (hn : s.length ≤ n)
    (hx : x ∈ upTo greedy f k prev (s ++ tail)) {ss : List (List α)}
    (hss : reachMany F n s = some ss) : ∃ s' ∈ ss, x.rest = s' ++ tail := by
  induction k generalizing n prev s x ss with
  | zero =>
    rw [List.mem_singleton.mp hx]
    exact ⟨s, reachMany_self hss, rfl⟩
  | succ k ih =>
    obtain rfl | ⟨m, hm, hx⟩ := mem_upTo_succ.mp hx
    · exact ⟨s, reachMany_self hss, rfl⟩
    have hsplit : m.taken ++ m.rest = s ++ tail := hs _ _ _ hm
    obtain ⟨hnil, rfl⟩ | ⟨hne, m', hm', rfl⟩ := mem_further.mp hx
    · -- the round took nothing
      rw [hnil] at hsplit
      exact ⟨s, reachMany_self hss, hsplit⟩
    · obtain ⟨ts, ht⟩ := reachMany_round hss
      obtain ⟨s', hs', hrest⟩ := hf _ _ _ hm _ ht
      have hlen := shorter_of_split hsplit hrest hne
      obtain ⟨n, rfl⟩ : ∃ k, n = k + 1 := ⟨n - 1, by omega⟩
      obtain ⟨us, hu, hsub⟩ := reachMany_succ hss ht hs' hlen
      rw [hrest] at hm'
      obtain ⟨s'', hs'', hrest'⟩ := ih (by omega) hm' hu
      exact ⟨s'', hsub hs'', hrest'⟩

end

theorem ends_covers (tail : List α) (r : Regex α) : Covers tail r.ends r.reach := by
  induction r with
  | empty => exact covers_stay
  | start =>
    intro prev s m hm
    have hm : m ∈ if prev.isNone then [.stay (s ++ tail)] else [] := hm
    cases hb : prev.isNone with
    | true => exact covers_stay prev s m (by rwa [hb] at hm)
    | false =>
      rw [hb] at hm
      cases hm
  | boundary word =>
    intro prev s m hm
    have hm : m ∈ if prev.any word != (s ++ tail).head?.any word then [.stay (s ++ tail)] else [] := hm
    cases hb : prev.any word != (s ++ tail).head?.any word with
    | true => exact covers_stay prev s m (by rwa [hb] at hm)
    | false =>
      rw [hb] at hm
      cases hm
  | cls p =>
    intro prev s m hm ss hss
    cases s with
    | nil => cases hss
    | cons c s =>
      have hm : m ∈ if p c then [⟨[c], s ++ tail, []⟩] else [] := hm
      have hss : some (if p c then [s] else []) = some ss := hss
      cases hp : p c with
      | true =>
        rw [hp] at hm hss
        rw [List.mem_singleton.mp hm, ← Option.some.inj hss]
        exact ⟨s, List.mem_singleton_self s, rfl⟩
      | false =>
        rw [hp] at hm
        cases hm
  | seq r s ihr ihs => exact ihr.andThen ihs
  | alt r s ihr ihs =>
    intro prev t m hm ss hss
    simp only [reach, Option.bind_eq_bind, Option.bind_eq_some_iff, Option.pure_def,
      Option.some.injEq] at hss
    obtain ⟨rs, hr, us, hs, rfl⟩ := hss
    obtain hm | hm := List.mem_append.mp hm
    · obtain ⟨s', hs', hrest⟩ := ihr prev t m hm rs hr
      exact ⟨s', List.mem_append_left us hs', hrest⟩
    · obtain ⟨s', hs', hrest⟩ := ihs prev t m hm us hs
      exact ⟨s', List.mem_append_right rs hs', hrest⟩
  | rep greedy min max r ih =>
    apply (ih.times min).andThen
    intro prev s m hm ss hss
    cases max with
    | none => exact ih.upTo (ends_split r) greedy _ (Nat.le_refl _) hm hss
    | some n => exact ih.upTo (ends_split r) greedy _ (Nat.le_refl _) hm hss
  | group name r ih =>
    intro prev s m hm ss hss
    obtain ⟨m', hm', rfl⟩ := List.mem_map.mp hm
    exact ih prev s m' hm' ss hss

/-- **There is no match where the known beginning leaves none.** -/
theorem ends_nil_of_reach {r : Regex α} {s : List α} (h : r.reach s = some []) (prev : Option α)
    (tail : List α) : r.ends prev (s ++ tail) = [] := by
  rw [List.eq_nil_iff_forall_not_mem]
  intro m hm
  obtain ⟨s', hs', _⟩ := ends_covers tail r prev s m hm [] h
  cases hs'

end Regex
