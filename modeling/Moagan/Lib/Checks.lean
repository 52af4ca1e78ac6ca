import Mathlib.Data.List.Forall2

/-!
# Checks that stop at the first failure

* `bind_of_ok`, `bind_of_error`      one step of a chain
* `bind_ok`, `mapM_ok`, `forM_ok`    a chain of checks succeeds when every one of them does
* `firstRepeated`                    the first element that was there before; there is none exactly
                                     when the elements are distinct
-/

namespace Checks

section
variable {α β ε : Type}

theorem bind_ok {x : Except ε α} {f : α → Except ε β} {b : β} :
    (x >>= f) = .ok b ↔ ∃ a, x = .ok a ∧ f a = .ok b := by
  cases x with
  | error e =>
    constructor
    · intro h
      cases h
    · intro h
      obtain ⟨a, ha, -⟩ := h
      cases ha
  | ok a =>
    constructor
    · intro h
      exact ⟨a, rfl, h⟩
    · intro h
      obtain ⟨a', ha, h⟩ := h
      cases ha
      exact h

theorem bind_of_ok {x : Except ε α} {a : α} (f : α → Except ε β) (h : x = .ok a) :
    (x >>= f) = f a := by
  rw [h]
  rfl

theorem bind_of_error {x : Except ε α} {e : ε} (f : α → Except ε β) (h : x = .error e) :
    (x >>= f) = .error e := by
  rw [h]
  rfl

theorem forall₂_split {R : α → β → Prop} {xs xs' : List α} {zs : List β}
    (h : List.Forall₂ R (xs ++ xs') zs) :
    ∃ ys ys', zs = ys ++ ys' ∧ List.Forall₂ R xs ys ∧ List.Forall₂ R xs' ys' := by
  induction xs generalizing zs with
  | nil => exact ⟨[], zs, rfl, List.Forall₂.nil, h⟩
  | cons x xs ih =>
    cases h with
    | cons hxy h =>
      obtain ⟨ys, ys', rfl, h1, h2⟩ := ih h
      exact ⟨_ :: ys, ys', rfl, List.Forall₂.cons hxy h1, h2⟩

theorem mapM_ok {f : α → Except ε β} {xs : List α} {ys : List β} :
    xs.mapM f = .ok ys ↔ List.Forall₂ (fun x y => f x = .ok y) xs ys := by
  induction xs generalizing ys with
  | nil =>
    rw [List.mapM_nil, List.forall₂_nil_left_iff]
    constructor
    · intro h
      exact (Except.ok.inj h).symm
    · intro h
      rw [h]
      rfl
  | cons x xs ih =>
    rw [List.mapM_cons, List.forall₂_cons_left_iff]
    constructor
    · intro h
      obtain ⟨y, hy, h⟩ := bind_ok.mp h
      obtain ⟨ys', hys, h⟩ := bind_ok.mp h
      exact ⟨y, ys', hy, ih.mp hys, (Except.ok.inj h).symm⟩
    · intro h
      obtain ⟨y, ys', hy, hys, rfl⟩ := h
      exact bind_ok.mpr ⟨y, hy, bind_ok.mpr ⟨ys', ih.mpr hys, rfl⟩⟩

/-- every result comes from one of the inputs -/
theorem exists_of_mapM {f : α → Except ε β} {xs : List α} {ys : List β} (h : xs.mapM f = .ok ys)
    {y : β} (hy : y ∈ ys) : ∃ x ∈ xs, f x = .ok y := by
  have hall := mapM_ok.mp h
  induction hall with
  | nil => cases hy
  | cons hx _ ih =>
    obtain rfl | hy := List.mem_cons.mp hy
    · exact ⟨_, List.mem_cons_self, hx⟩
    · obtain ⟨x, hmem, hx⟩ := ih (mapM_ok.mpr ‹_›) hy
      exact ⟨x, List.mem_cons_of_mem _ hmem, hx⟩

/-- every input has a result -/
theorem forall_of_mapM {f : α → Except ε β} {xs : List α} {ys : List β} (h : xs.mapM f = .ok ys)
    {x : α} (hx : x ∈ xs) : ∃ y ∈ ys, f x = .ok y := by
  have hall := mapM_ok.mp h
  induction hall with
  | nil => cases hx
  | cons hxy _ ih =>
    obtain rfl | hx := List.mem_cons.mp hx
    · exact ⟨_, List.mem_cons_self, hxy⟩
    · obtain ⟨y, hmem, hy⟩ := ih (mapM_ok.mpr ‹_›) hx
      exact ⟨y, List.mem_cons_of_mem _ hmem, hy⟩

theorem mapM_total {f : α → Except ε β} {xs : List α} (h : ∀ x ∈ xs, ∃ y, f x = .ok y) :
    ∃ ys, xs.mapM f = .ok ys := by
  induction xs with
  | nil => exact ⟨[], rfl⟩
  | cons x xs ih =>
    obtain ⟨y, hy⟩ := h x List.mem_cons_self
    obtain ⟨ys, hys⟩ := ih fun x' hx' => h x' (List.mem_cons_of_mem x hx')
    exact ⟨y :: ys, mapM_ok.mpr (List.Forall₂.cons hy (mapM_ok.mp hys))⟩

theorem toOption_eq_some {x : Except ε α} {a : α} : x.toOption = some a ↔ x = .ok a := by
  cases x with
  | error e => simp [Except.toOption]
  | ok b => simp [Except.toOption]

theorem forM_ok {f : α → Except ε Unit} {xs : List α} :
    forM xs f = .ok () ↔ ∀ x ∈ xs, f x = .ok () := by
  induction xs with
  | nil => exact ⟨fun _ x hx => absurd hx List.not_mem_nil, fun _ => rfl⟩
  | cons x xs ih =>
    rw [List.forM_cons, List.forall_mem_cons, bind_ok, ih]
    constructor
    · intro h
      obtain ⟨_, hx, h⟩ := h
      exact ⟨hx, h⟩
    · intro h
      exact ⟨(), h.1, h.2⟩

end

/-! ## repeated elements -/

section
variable {α : Type} [DecidableEq α]

/-- the loop over a set of the elements seen -/
def firstRepeated : List α → List α → Option α
  | _, [] => none
  | seen, a :: rest => if a ∈ seen then some a else firstRepeated (a :: seen) rest

theorem firstRepeated_none {seen l : List α} :
    firstRepeated seen l = none ↔ l.Nodup ∧ ∀ a ∈ l, a ∉ seen := by
  induction l generalizing seen with
  | nil => simp [firstRepeated]
  | cons a rest ih =>
    rw [firstRepeated]
    by_cases ha : a ∈ seen
    · rw [if_pos ha]
      constructor
      · intro h
        cases h
      · intro h
        exact absurd ha (h.2 a List.mem_cons_self)
    · rw [if_neg ha, ih, List.nodup_cons, List.forall_mem_cons]
      simp only [List.mem_cons, not_or]
      constructor
      · intro h
        exact ⟨⟨fun hm => (h.2 a hm).1 rfl, h.1⟩, ha, fun b hb => (h.2 b hb).2⟩
      · intro h
        exact ⟨h.1.2, fun b hb => ⟨fun heq => h.1.1 (heq ▸ hb), h.2.2 b hb⟩⟩

/-- **Nothing is repeated exactly when the elements are distinct.** -/
theorem nodup_iff (l : List α) : firstRepeated [] l = none ↔ l.Nodup := by
  rw [firstRepeated_none]
  exact and_iff_left fun a _ => List.not_mem_nil

end

end Checks
