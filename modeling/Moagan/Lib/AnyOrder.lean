import Mathlib.Data.List.Sort

/-!
# Lists in any order

* `foldl_alike`   states that are alike stay so, when one list is folded into both
* `foldl_perm`    the same for two orders of a list, when two elements in turn lead to states that
                  are alike whichever comes first
* `foldl_collect` a fold that counts and collects, as the two folds
* `collect_perm`  its count does not depend on the order, and what it collects only in the order
* `sort_perm`     a list has one sorted order, when elements with the same key are the same
-/

namespace AnyOrder

section
variable {σ α : Type*} {R : σ → σ → Prop} {f : σ → α → σ}

theorem foldl_alike (hstep : ∀ s t a, R s t → R (f s a) (f t a)) (l : List α) :
    ∀ s t, R s t → R (l.foldl f s) (l.foldl f t) := by
  induction l with
  | nil => exact fun _ _ h => h
  | cons a l ih => exact fun s t h => ih (f s a) (f t a) (hstep s t a h)

/-- **The order of a list does not matter, up to `R`.** -/
theorem foldl_perm (hrefl : ∀ s, R s s) (htrans : ∀ s t u, R s t → R t u → R s u)
    (hstep : ∀ s t a, R s t → R (f s a) (f t a))
    (hswap : ∀ s a b, R (f (f s a) b) (f (f s b) a)) {l l' : List α} (h : l.Perm l') :
    ∀ s t, R s t → R (l.foldl f s) (l'.foldl f t) := by
  induction h with
  | nil => exact fun _ _ h => h
  | cons a _ ih => exact fun s t h => ih (f s a) (f t a) (hstep s t a h)
  | swap a b l =>
    intro s t h
    have hst := hstep _ _ a (hstep s t b h)
    exact foldl_alike hstep l _ _ (htrans _ _ _ hst (hswap t b a))
  | trans _ _ ih ih' => exact fun s t h => htrans _ _ _ (ih s s (hrefl s)) (ih' s t h)

end

section
variable {ρ α β : Type*} {f : ρ × List β → α → ρ × List β} (count : ρ → α → ρ)
  (kept : α → List β)

theorem foldl_collect (hf : ∀ s a, f s a = (count s.1 a, s.2 ++ kept a)) (l : List α) :
    ∀ s, l.foldl f s = (l.foldl count s.1, s.2 ++ l.flatMap kept) := by
  induction l with
  | nil =>
    intro s
    rw [List.flatMap_nil, List.append_nil]
    rfl
  | cons a l ih =>
    intro s
    rw [List.foldl_cons, ih, hf, List.flatMap_cons, List.append_assoc]
    rfl

/-- **A count and a collection in any order of the list.** -/
theorem collect_perm (hf : ∀ s a, f s a = (count s.1 a, s.2 ++ kept a))
    (hcount : ∀ r a b, count (count r a) b = count (count r b) a) {l l' : List α}
    (h : l.Perm l') (s : ρ × List β) :
    (l.foldl f s).1 = (l'.foldl f s).1 ∧ (l.foldl f s).2.Perm (l'.foldl f s).2 := by
  rw [foldl_collect count kept hf, foldl_collect count kept hf]
  exact ⟨h.foldl_eq' (fun a _ b _ r => hcount r a b) s.1, (h.flatMap_right kept).append_left s.2⟩

end

/-- **A list is sorted in one way only**, when its elements have keys of their own. -/
theorem sort_perm {α κ : Type*} [LinearOrder κ] (key : α → κ) {l l' : List α} (h : l.Perm l')
    (hinj : ∀ a ∈ l, ∀ b ∈ l, key a = key b → a = b) :
    (l.insertionSort fun a b => key a ≤ key b) = l'.insertionSort fun a b => key a ≤ key b := by
  have htotal : Std.Total fun a b : α => key a ≤ key b := ⟨fun a b => le_total _ _⟩
  have htrans : IsTrans α fun a b => key a ≤ key b := ⟨fun _ _ _ => le_trans⟩
  have hsorted : ∀ l : List α, (l.insertionSort fun a b => key a ≤ key b).Pairwise
      fun a b => key a ≤ key b := fun l => List.pairwise_insertionSort _ l
  have hperm : ∀ l : List α, (l.insertionSort fun a b => key a ≤ key b).Perm l :=
    fun l => List.perm_insertionSort _ l
  refine List.Perm.eq_of_pairwise ?_ (hsorted l) (hsorted l')
    ((hperm l).trans (h.trans (hperm l').symm))
  intro a b ha hb hab hba
  exact hinj a ((hperm l).mem_iff.mp ha) b (h.mem_iff.mpr ((hperm l').mem_iff.mp hb))
    (le_antisymm hab hba)

end AnyOrder
