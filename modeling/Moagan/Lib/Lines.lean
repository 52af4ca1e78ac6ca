import Mathlib.Data.List.Basic

/-!
# A list cut behind every `d`

* `lines`            the pieces: all but the last one end with `d`
* `Lined`            what such pieces look like
* `lines_flatten`    they make up the list
* `lines_of_lined`   and are recovered from it
-/

namespace Lines

section
variable {α : Type} [DecidableEq α] (d : α)

def lines : List α → List (List α)
  | [] => [[]]
  | c :: t =>
    if c = d then [c] :: lines t
    else
      match lines t with
      | [] => [[c]]
      | l :: ls => (c :: l) :: ls

/-- a line with its end -/
def Closed (l : List α) : Prop := ∃ b, l = b ++ [d] ∧ d ∉ b

/-- closed lines, and a last one without an end -/
def Lined (ls : List (List α)) : Prop :=
  ∃ cs o, ls = cs ++ [o] ∧ (∀ c ∈ cs, Closed d c) ∧ d ∉ o

variable {d}

theorem lines_open {o : List α} (h : d ∉ o) : lines d o = [o] := by
  induction o with
  | nil => rfl
  | cons c t ih =>
    obtain ⟨hc, ht⟩ := List.ne_and_not_mem_of_not_mem_cons h
    rw [lines, if_neg (Ne.symm hc), ih ht]

theorem lines_closed {b : List α} (h : d ∉ b) (t : List α) :
    lines d (b ++ d :: t) = (b ++ [d]) :: lines d t := by
  induction b with
  | nil => simp [lines]
  | cons c b ih =>
    obtain ⟨hc, hb⟩ := List.ne_and_not_mem_of_not_mem_cons h
    rw [List.cons_append, lines, if_neg (Ne.symm hc), ih hb]
    rfl

/-- induction over the lines of a text -/
theorem lines_induction {motive : List α → Prop} (last : ∀ o, d ∉ o → motive o)
    (line : ∀ b t, d ∉ b → motive t → motive (b ++ d :: t)) (t : List α) : motive t := by
  by_cases h : d ∈ t
  · obtain ⟨b, t', heq, hb⟩ := List.eq_append_cons_of_mem h
    rw [heq]
    exact line b t' hb (lines_induction last line t')
  · exact last t h
termination_by t.length
decreasing_by
  rw [heq, List.length_append, List.length_cons]
  omega

theorem lines_flatten (t : List α) : (lines d t).flatten = t := by
  induction t using lines_induction (d := d) with
  | last o h => rw [lines_open h, List.flatten_cons, List.flatten_nil, List.append_nil]
  | line b t h ih =>
    rw [lines_closed h, List.flatten_cons, ih, List.append_assoc]
    rfl

theorem lined_lines (t : List α) : Lined d (lines d t) := by
  induction t using lines_induction (d := d) with
  | last o h => exact ⟨[], o, lines_open h, nofun, h⟩
  | line b t h ih =>
    obtain ⟨cs, o, heq, hcs, ho⟩ := ih
    refine ⟨(b ++ [d]) :: cs, o, ?_, ?_, ho⟩
    · rw [lines_closed h, heq]
      rfl
    · intro c hc
      obtain rfl | hc := List.mem_cons.mp hc
      · exact ⟨b, rfl, h⟩
      · exact hcs c hc

/-- **Lines are recovered from the text they make up.** -/
theorem lines_of_lined {ls : List (List α)} (h : Lined d ls) : lines d ls.flatten = ls := by
  obtain ⟨cs, o, rfl, hcs, ho⟩ := h
  induction cs with
  | nil => rw [List.nil_append, List.flatten_cons, List.flatten_nil, List.append_nil, lines_open ho]
  | cons c cs ih =>
    obtain ⟨b, rfl, hb⟩ := hcs c List.mem_cons_self
    rw [List.cons_append, List.flatten_cons, List.append_assoc, List.singleton_append,
      lines_closed hb, ih fun c hc => hcs c (List.mem_cons_of_mem _ hc)]

theorem Lined.inj {ls ls' : List (List α)} (h : Lined d ls) (h' : Lined d ls')
    (heq : ls.flatten = ls'.flatten) : ls = ls' := by
  rw [← lines_of_lined h, ← lines_of_lined h', heq]

omit [DecidableEq α] in
theorem Lined.map {ls : List (List α)} (h : Lined d ls) {f : List α → List α}
    (hc : ∀ l, Closed d l → Closed d (f l)) (ho : ∀ l, d ∉ l → d ∉ f l) : Lined d (ls.map f) := by
  obtain ⟨cs, o, rfl, hcs, hopen⟩ := h
  refine ⟨cs.map f, f o, by simp, ?_, ho o hopen⟩
  intro l hl
  obtain ⟨c, hm, rfl⟩ := List.mem_map.mp hl
  exact hc c (hcs c hm)

omit [DecidableEq α] in
/-- nothing is behind the end -/
theorem Closed.tail {u v l : List α} (h : Closed d l) (heq : l = u ++ d :: v) : v = [] := by
  obtain ⟨b, rfl, hb⟩ := h
  obtain rfl | ⟨v, c, rfl⟩ := List.eq_nil_or_concat v
  · rfl
  · rw [List.concat_eq_append, ← List.cons_append, ← List.append_assoc] at heq
    have hbody := (List.append_inj' heq rfl).1
    rw [hbody] at hb
    exact absurd (List.mem_append_right u List.mem_cons_self) hb

/-- what comes behind a text goes on from its last line -/
theorem lines_append {x o : List α} {cs : List (List α)} (hx : lines d x = cs ++ [o]) (y : List α) :
    lines d (x ++ y) = cs ++ lines d (o ++ y) := by
  induction x using lines_induction (d := d) generalizing cs with
  | last u h =>
    rw [lines_open h] at hx
    have hx : [] ++ [u] = cs ++ [o] := hx
    obtain ⟨rfl, ho⟩ := List.append_inj' hx rfl
    rw [List.nil_append, (List.cons.inj ho).1]
  | line b t h ih =>
    rw [lines_closed h] at hx
    cases cs with
    | nil =>
      obtain ⟨_, hnil⟩ := List.cons.inj hx
      obtain ⟨cs', o', hlined, _⟩ := lined_lines (d := d) t
      rw [hlined] at hnil
      exact absurd hnil (by simp)
    | cons c cs =>
      obtain ⟨hc, hrest⟩ := List.cons.inj hx
      rw [List.append_assoc, List.cons_append, lines_closed h, ih hrest, ← hc]
      rfl

omit [DecidableEq α] in
theorem closed_append {a l : List α} (h : d ∉ a) : Closed d (a ++ l) ↔ Closed d l := by
  constructor
  · intro ⟨b, heq, hb⟩
    obtain ⟨x, rfl, hx⟩ | ⟨x, rfl, hx⟩ := List.append_eq_append_iff.mp heq
    · exact ⟨x, hx, fun hm => hb (List.mem_append_right a hm)⟩
    · cases x with
      | nil => exact ⟨[], hx.symm, List.not_mem_nil⟩
      | cons c x =>
        obtain ⟨rfl, _⟩ := List.cons.inj hx
        exact absurd (List.mem_append_right b List.mem_cons_self) h
  · intro ⟨b, heq, hb⟩
    exact ⟨a ++ b, by rw [heq, List.append_assoc], fun hm => (List.mem_append.mp hm).elim h hb⟩

omit [DecidableEq α] in
/-- a line that begins with its end -/
theorem Closed.nil_of_cons {l : List α} (h : Closed d (d :: l)) : l = [] := h.tail (u := []) rfl

end

end Lines
