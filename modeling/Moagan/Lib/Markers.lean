import Moagan.Lib.RegexEdges

/-!
# One text with two kinds of markers

A replacement is done twice, with two templates that write different markers.  What is left of the
source is the same both times, as long as no later expression sees which marker is there.

* `replaceTraced`   the replacement on characters that carry marks
* `Cell`            a character of the source, or a marker in both of its forms
* `Blind`           an expression does not see the form of a marker
* `replace_cells`   one replacement with both templates
-/

namespace Regex

variable {α τ : Type}

/-! ## characters with marks -/

/-- what is written carries no mark -/
def writeTraced (template : List (Part α)) :
    List (Piece α) → List (α × Option τ) → List (α × Option τ)
  | [], _ => []
  | .plain _ :: ps, text => text.take 1 ++ writeTraced template ps (text.drop 1)
  | .found m :: ps, text =>
    (expand template m).map (·, none) ++ writeTraced template ps (text.drop m.taken.length)

def replaceTraced (r : Regex α) (template : List (Part α)) (prev : Option α)
    (text : List (α × Option τ)) : List (α × Option τ) :=
  writeTraced template (r.scan prev (text.map Prod.fst)) text

theorem writeTraced_fst (template : List (Part α)) {ps : List (Piece α)}
    {text : List (α × Option τ)} (h : text.map Prod.fst = ps.flatMap Piece.source) :
    (writeTraced template ps text).map Prod.fst = ps.flatMap (·.write template) := by
  induction ps generalizing text with
  | nil => rfl
  | cons p ps ih =>
    rw [List.flatMap_cons] at h ⊢
    obtain ⟨s, rest, rfl, hs, hrest⟩ := List.map_eq_append_iff.mp h
    cases p with
    | plain c =>
      have hlen : s.length = 1 := by
        rw [← List.length_map Prod.fst, hs]
        rfl
      show (List.take 1 (s ++ rest) ++ writeTraced template ps (List.drop 1 (s ++ rest))).map _ = _
      rw [← hlen, List.take_left, List.drop_left, List.map_append, hs, ih hrest]
      rfl
    | found m =>
      have hlen : s.length = m.taken.length := by
        rw [← List.length_map Prod.fst, hs]
        rfl
      show ((expand template m).map _ ++
        writeTraced template ps (List.drop m.taken.length (s ++ rest))).map _ = _
      rw [← hlen, List.drop_left, List.map_append, List.map_map, ih hrest]
      show List.map id _ ++ _ = _
      rw [List.map_id]
      rfl

/-- **Without the marks it is the replacement.** -/
theorem replaceTraced_fst (r : Regex α) (template : List (Part α)) (prev : Option α)
    (text : List (α × Option τ)) : (r.replaceTraced template prev text).map Prod.fst
      = r.replaceFrom template prev (text.map Prod.fst) :=
  writeTraced_fst template (scan_source r prev _).symm

/-- what carries a mark has been there before -/
theorem mem_replaceTraced {r : Regex α} {template : List (Part α)} {prev : Option α}
    {text : List (α × Option τ)} {c : α} {i : τ}
    (h : (c, some i) ∈ r.replaceTraced template prev text) : (c, some i) ∈ text := by
  unfold replaceTraced at h
  generalize r.scan prev (text.map Prod.fst) = ps at h
  induction ps generalizing text with
  | nil => cases h
  | cons p ps ih =>
    cases p with
    | plain c' =>
      obtain h | h := List.mem_append.mp h
      · exact List.mem_of_mem_take h
      · exact List.mem_of_mem_drop (ih h)
    | found m =>
      obtain h | h := List.mem_append.mp h
      · obtain ⟨_, _, heq⟩ := List.mem_map.mp h
        cases heq
      · exact List.mem_of_mem_drop (ih h)

inductive Cell (α τ : Type) where
  | char (c : α) (i : τ)
  | marker (w : Bool → List α)

def Cell.write (side : Bool) : Cell α τ → List (α × Option τ)
  | .char c i => [(c, some i)]
  | .marker w => (w side).map (·, none)

/-- the text with the markers of one side -/
def traced (side : Bool) (cells : List (Cell α τ)) : List (α × Option τ) :=
  cells.flatMap (·.write side)

def chars (run : List (α × τ)) : List (Cell α τ) := run.map fun a => .char a.1 a.2

section
variable (glue : α → Bool) (loud : (Bool → List α) → Bool)

/-- no loud marker is directly behind a character of `glue` -/
def Loose : Bool → List (Cell α τ) → Prop
  | _, [] => True
  | _, .char c _ :: cells => Loose (glue c) cells
  | glued, .marker w :: cells => (loud w = true → glued = false) ∧ Loose false cells

/-- no match is directly behind a character of `glue` -/
def loosePieces : Bool → List (Piece α) → Bool
  | _, [] => true
  | _, .plain c :: ps => loosePieces (glue c) ps
  | glued, .found _ :: ps => !glued && loosePieces false ps

variable {glue loud}

theorem Loose.behind {glued : Bool} {cells : List (Cell α τ)} (h : Loose glue loud glued cells) :
    Loose glue loud false cells := by
  cases cells with
  | nil => trivial
  | cons cell cells =>
    cases cell with
    | char c i => exact h
    | marker w => exact ⟨fun _ => rfl, h.2⟩

theorem Loose.chars {glued : Bool} {run : List (α × τ)} {rest : List (Cell α τ)}
    (h : Loose glue loud glued (chars run ++ rest)) {a : α × τ} (ha : run.getLast? = some a) :
    Loose glue loud (glue a.1) rest := by
  induction run generalizing glued with
  | nil => cases ha
  | cons b run ih =>
    have h : Loose glue loud (glue b.1) (Regex.chars run ++ rest) := h
    cases run with
    | nil =>
      obtain rfl : b = a := Option.some.inj ha
      exact h
    | cons c run => exact ih h (by rwa [List.getLast?_cons_cons] at ha)

end
end Regex
