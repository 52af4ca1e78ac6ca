import Mathlib.Data.List.Basic

/-!
# Input that arrives in pieces

A stream is the list of the pieces that are read from it, one after the other.  No piece is empty:
an empty one would be the end.

* `items`        what arrives, without the pieces
* `takeLine`     up to the first delimiter, or to the end, with a bound on the length
* `takeExact`    a number of items
* `takeLine_items`, `takeExact_items`   both depend on what arrives, and not on the pieces
-/

namespace Pieces

section
variable {α : Type*}

abbrev Piece (α : Type*) := {l : List α // l ≠ []}

def items (ps : List (Piece α)) : List α := ps.flatMap (·.1)

theorem items_cons (p : Piece α) (ps : List (Piece α)) : items (p :: ps) = p.1 ++ items ps :=
  List.flatMap_cons

/-- what is left of a piece in front of the others -/
def push : List α → List (Piece α) → List (Piece α)
  | [], ps => ps
  | a :: l, ps => ⟨a :: l, List.cons_ne_nil a l⟩ :: ps

@[simp] theorem items_push (l : List α) (ps : List (Piece α)) :
    items (push l ps) = l ++ items ps := by
  cases l with
  | nil => rfl
  | cons a l => exact items_cons _ ps

/-! ## a line -/

/-- the line does not fit, has its delimiter, or is what is left -/
inductive Line (α β : Type*) where
  | tooLong
  | closed (line : List α) (rest : β)
  | ended (line : List α)

def Line.map {β γ : Type*} (f : β → γ) : Line α β → Line α γ
  | tooLong => tooLong
  | closed line rest => closed line (f rest)
  | ended line => ended line

variable (stop : α → Bool) (limit : ℕ)

/-- up to and with the first delimiter -/
def lineLength (l : List α) : ℕ := min (l.findIdx stop + 1) l.length

/-- `line` is what the pieces before had of the line -/
def takeLine : List (Piece α) → List α → Line α (List (Piece α))
  | [], line => .ended line
  | p :: ps, line =>
    let count := lineLength stop p.1
    if limit < line.length + count then .tooLong
    else
      let line := line ++ p.1.take count
      if line.getLast?.any stop then .closed line (push (p.1.drop count) ps)
      else takeLine ps line

/-- the same for all that arrives -/
def lineOf (l line : List α) : Line α (List α) :=
  let count := lineLength stop l
  if limit < line.length + count then .tooLong
  else if l.any stop then .closed (line ++ l.take count) (l.drop count)
  else .ended (line ++ l)

variable {stop}

theorem lineLength_of_none {l : List α} (h : l.any stop = false) :
    lineLength stop l = l.length := by
  have hidx : l.findIdx stop = l.length := by
    rw [List.findIdx_eq_length]
    exact fun a ha => by simpa using List.any_eq_false.mp h a ha
  unfold lineLength
  omega

theorem lineLength_of_any {l : List α} (h : l.any stop = true) :
    lineLength stop l = l.findIdx stop + 1 := by
  have hlt := List.findIdx_lt_length_of_exists (List.any_eq_true.mp h)
  unfold lineLength
  omega

theorem lineLength_append_of_any {l : List α} (h : l.any stop = true) (l' : List α) :
    lineLength stop (l ++ l') = lineLength stop l := by
  have hlt := List.findIdx_lt_length_of_exists (List.any_eq_true.mp h)
  rw [lineLength_of_any h, lineLength_of_any (by rw [List.any_append, h]; rfl), List.findIdx_append,
    if_pos hlt]

theorem lineLength_append_of_none {l : List α} (h : l.any stop = false) (l' : List α) :
    lineLength stop (l ++ l') = l.length + lineLength stop l' := by
  have hidx : l.findIdx stop = l.length := by
    rw [List.findIdx_eq_length]
    exact fun a ha => by simpa using List.any_eq_false.mp h a ha
  unfold lineLength
  rw [List.findIdx_append, hidx, if_neg (Nat.lt_irrefl _), List.length_append]
  omega

/-- the line so far ends at a delimiter when the piece has one -/
theorem getLast?_line {l line : List α} (hline : ∀ a ∈ line, stop a = false) :
    (line ++ l.take (lineLength stop l)).getLast?.any stop = l.any stop := by
  cases h : l.any stop with
  | true =>
    have hlt := List.findIdx_lt_length_of_exists (List.any_eq_true.mp h)
    rw [lineLength_of_any h, List.take_succ_eq_append_getElem hlt, ← List.append_assoc,
      List.getLast?_concat]
    exact List.findIdx_getElem
  | false =>
    rw [lineLength_of_none h, List.take_length]
    cases hlast : (line ++ l).getLast? with
    | none => rfl
    | some a =>
      show stop a = false
      obtain ha | ha := List.mem_append.mp (List.mem_of_getLast? hlast)
      · exact hline a ha
      · simpa using List.any_eq_false.mp h a ha

/-- **A line depends on what arrives**, and not on the pieces. -/
theorem takeLine_items (ps : List (Piece α)) {line : List α} (hline : ∀ a ∈ line, stop a = false)
    (hlimit : line.length ≤ limit) :
    (takeLine stop limit ps line).map items = lineOf stop limit (items ps) line := by
  induction ps generalizing line with
  | nil =>
    unfold takeLine lineOf
    rw [if_neg (by show ¬ limit < line.length + 0; omega)]
    show Line.ended line = Line.ended (line ++ [])
    rw [List.append_nil]
  | cons p ps ih =>
    rw [takeLine, lineOf, items_cons]
    dsimp only
    rw [getLast?_line hline]
    cases h : p.1.any stop with
    | true =>
      rw [lineLength_append_of_any h, List.any_append, h, Bool.true_or]
      by_cases hlong : limit < line.length + lineLength stop p.1
      · rw [if_pos hlong, if_pos hlong]
        rfl
      · rw [if_neg hlong, if_neg hlong, if_pos rfl, if_pos rfl]
        have hle : lineLength stop p.1 ≤ p.1.length := Nat.min_le_right _ _
        rw [Line.map, items_push, List.take_append_of_le_length hle,
          List.drop_append_of_le_length hle]
    | false =>
      rw [lineLength_append_of_none h, lineLength_of_none h, List.take_length, List.any_append, h,
        Bool.false_or]
      by_cases hlong : limit < line.length + p.1.length
      · rw [if_pos hlong, if_pos (by omega)]
        rfl
      · have hline' : ∀ a ∈ line ++ p.1, stop a = false := by
          intro a ha
          obtain ha | ha := List.mem_append.mp ha
          · exact hline a ha
          · simpa using List.any_eq_false.mp h a ha
        rw [if_neg hlong, if_neg Bool.false_ne_true,
          ih hline' (by rw [List.length_append]; omega)]
        rw [lineOf]
        simp only [List.length_append, Nat.add_assoc, List.append_assoc,
          List.take_length_add_append, List.drop_length_add_append]

variable (stop) in
theorem takeLine_items_nil (ps : List (Piece α)) :
    (takeLine stop limit ps []).map items = lineOf stop limit (items ps) [] :=
  takeLine_items limit ps (fun _ h => absurd h List.not_mem_nil) (Nat.zero_le _)

/-- a line with its delimiter, in whatever pieces -/
theorem takeLine_closed {limit : ℕ} {ps : List (Piece α)} {x rest : List α} {d : α}
    (hps : items ps = x ++ d :: rest) (hx : ∀ a ∈ x, stop a = false) (hd : stop d = true)
    (hlimit : x.length < limit) :
    ∃ ps', takeLine stop limit ps [] = .closed (x ++ [d]) ps' ∧ items ps' = rest := by
  have hx' : x.any stop = false := List.any_eq_false.mpr fun a ha => by simp [hx a ha]
  have hcount : lineLength stop (x ++ d :: rest) = x.length + 1 := by
    rw [lineLength_append_of_none hx', lineLength_of_any (by rw [List.any_cons, hd]; rfl),
      List.findIdx_cons, hd]
    rfl
  have hline := takeLine_items_nil stop limit ps
  rw [hps, lineOf, hcount, if_neg (by show ¬ limit < 0 + (x.length + 1); omega),
    if_pos (by rw [List.any_append, List.any_cons, hd, Bool.true_or, Bool.or_true]),
    List.take_length_add_append, List.drop_length_add_append] at hline
  generalize takeLine stop limit ps [] = y at hline
  cases y with
  | tooLong => cases hline
  | ended line => cases hline
  | closed line ps' =>
    obtain ⟨h1, h2⟩ := Line.closed.inj hline
    exact ⟨ps', by rw [h1]; rfl, h2⟩

/-- what was read of the pieces, and what is left -/
theorem takeLine_append {limit : ℕ} {ps rest : List (Piece α)} {line : List α}
    (h : takeLine stop limit ps [] = .closed line rest) : items ps = line ++ items rest := by
  have hline := takeLine_items_nil stop limit ps
  rw [h, lineOf] at hline
  split at hline
  · cases hline
  · split at hline
    · obtain ⟨hl, hr⟩ := Line.closed.inj hline
      rw [hl, hr, List.nil_append, List.take_append_drop]
    · cases hline

/-! ## a number of items -/

def takeExact : ℕ → List (Piece α) → Option (List α × List (Piece α))
  | 0, ps => some ([], ps)
  | _ + 1, [] => none
  | n + 1, p :: ps =>
    if n + 1 ≤ p.1.length then some (p.1.take (n + 1), push (p.1.drop (n + 1)) ps)
    else (takeExact (n + 1 - p.1.length) ps).map fun r => (p.1 ++ r.1, r.2)

/-- **A number of items depends on what arrives**, and not on the pieces. -/
theorem takeExact_items (ps : List (Piece α)) (n : ℕ) :
    (takeExact n ps).map (fun r => (r.1, items r.2)) =
      if n ≤ (items ps).length then some ((items ps).take n, (items ps).drop n) else none := by
  induction ps generalizing n with
  | nil =>
    cases n with
    | zero => rfl
    | succ n => rfl
  | cons p ps ih =>
    cases n with
    | zero => rfl
    | succ n =>
      rw [takeExact, items_cons, List.length_append]
      by_cases h : n + 1 ≤ p.1.length
      · rw [if_pos h, if_pos (by omega), Option.map_some, items_push,
          List.take_append_of_le_length h, List.drop_append_of_le_length h]
      · have hmap := ih (n + 1 - p.1.length)
        rw [if_neg h, Option.map_map]
        have hle : n + 1 ≤ p.1.length + (items ps).length ↔
            n + 1 - p.1.length ≤ (items ps).length := by omega
        simp only [hle, List.take_append, List.drop_append, List.take_of_length_le
          (Nat.le_of_not_le h), List.drop_eq_nil_of_le (Nat.le_of_not_le h), List.nil_append]
        cases hr : takeExact (n + 1 - p.1.length) ps with
        | none =>
          rw [hr] at hmap
          by_cases hn : n + 1 - p.1.length ≤ (items ps).length
          · rw [if_pos hn] at hmap
            cases hmap
          · rw [if_neg hn]
            rfl
        | some r =>
          rw [hr] at hmap
          by_cases hn : n + 1 - p.1.length ≤ (items ps).length
          · rw [if_pos hn] at hmap ⊢
            obtain ⟨h1, h2⟩ := Prod.mk.inj (Option.some.inj hmap)
            show some (p.1 ++ r.1, items r.2) = _
            rw [h1, h2]
          · rw [if_neg hn] at hmap
            cases hmap

theorem takeExact_some {ps rest : List (Piece α)} {n : ℕ} {x : List α}
    (h : takeExact n ps = some (x, rest)) : items ps = x ++ items rest ∧ x.length = n := by
  have hmap := takeExact_items ps n
  rw [h] at hmap
  split at hmap
  · rename_i hn
    obtain ⟨rfl, hr⟩ := Prod.mk.inj (Option.some.inj hmap)
    dsimp only at hr
    rw [hr, List.take_append_drop, List.length_take]
    exact ⟨rfl, Nat.min_eq_left hn⟩
  · cases hmap

theorem takeExact_append {ps : List (Piece α)} {x rest : List α} (hps : items ps = x ++ rest) :
    ∃ ps', takeExact x.length ps = some (x, ps') ∧ items ps' = rest := by
  have hmap := takeExact_items ps x.length
  rw [hps, if_pos (by rw [List.length_append]; omega), List.take_left, List.drop_left] at hmap
  obtain ⟨r, hr, heq⟩ := Option.map_eq_some_iff.mp hmap
  obtain ⟨h1, h2⟩ := Prod.mk.inj heq
  exact ⟨r.2, by rw [hr, ← h1], h2⟩

end

end Pieces
