import Mathlib.Data.List.Perm.Subperm
import Mathlib.Order.Bounds.Basic

/-!
# First fit

Each element of a list takes the first element of another list that fits it and is left.

* `Matching`         disjoint pairs of elements that fit
* `firstFit`         how many pairs the first fit makes
* `Matches`          the sizes of matchings, one element of the first list after the other
* `matches_iff`      these are the sizes
* `Matches.replace`  an element of the second list may stand in for another one
* `firstFit_max`     the first fit is a greatest matching, when a later element that fits an earlier
                     one fits whatever is paired later with what comes before
-/

namespace FirstFit

section
variable {α β : Type*}

/-- disjoint pairs of elements that fit -/
structure Matching (r : α → β → Bool) (xs : List α) (ys : List β) (ps : List (α × β)) : Prop where
  left : (ps.map Prod.fst).Subperm xs
  right : (ps.map Prod.snd).Subperm ys
  fit : ∀ p ∈ ps, r p.1 p.2 = true

def firstFit (r : α → β → Bool) : List α → List β → ℕ
  | [], _ => 0
  | x :: xs, ys =>
    if ys.any (r x) then firstFit r xs (ys.eraseP (r x)) + 1 else firstFit r xs ys

/-- there is a matching of this size -/
inductive Matches (r : α → β → Bool) : List α → List β → ℕ → Prop
  | nil (ys : List β) : Matches r [] ys 0
  | skip {x : α} {xs : List α} {ys : List β} {k : ℕ} :
    Matches r xs ys k → Matches r (x :: xs) ys k
  | pair {x : α} {y : β} {xs : List α} {ys zs : List β} {k : ℕ} :
    r x y = true → ys.Perm (y :: zs) → Matches r xs zs k → Matches r (x :: xs) ys (k + 1)

variable {r : α → β → Bool}

/-! ## matchings and their sizes -/

theorem Matches.exists_matching {xs : List α} {ys : List β} {k : ℕ} (h : Matches r xs ys k) :
    ∃ ps, Matching r xs ys ps ∧ ps.length = k := by
  induction h with
  | nil ys => exact ⟨[], ⟨List.nil_subperm, List.nil_subperm, fun p hp => by cases hp⟩, rfl⟩
  | skip _ ih =>
    obtain ⟨ps, h, hlen⟩ := ih
    exact ⟨ps, ⟨h.left.trans (List.sublist_cons_self _ _).subperm, h.right, h.fit⟩, hlen⟩
  | @pair x y _ _ _ _ hr hperm _ ih =>
    obtain ⟨ps, h, hlen⟩ := ih
    refine ⟨(x, y) :: ps, ⟨?_, ?_, fun p hp => ?_⟩, congrArg (· + 1) hlen⟩
    · exact (List.subperm_cons x).mpr h.left
    · exact ((List.subperm_cons y).mpr h.right).trans hperm.symm.subperm
    · obtain rfl | hp := List.mem_cons.mp hp
      · exact hr
      · exact h.fit p hp

theorem Matching.matches {xs : List α} : ∀ {ys : List β} {ps : List (α × β)},
    Matching r xs ys ps → Matches r xs ys ps.length := by
  classical
  induction xs with
  | nil =>
    intro ys ps h
    have hnil : ps = [] := List.map_eq_nil_iff.mp (List.subperm_nil.mp h.left)
    rw [hnil]
    exact .nil ys
  | cons x xs ih =>
    intro ys ps h
    by_cases hx : x ∈ ps.map Prod.fst
    · obtain ⟨⟨x', y⟩, hp, rfl⟩ := List.mem_map.mp hx
      obtain ⟨qs, hqs⟩ : ∃ qs, ps.Perm ((x', y) :: qs) :=
        ⟨ps.erase (x', y), List.perm_cons_erase hp⟩
      have hy : y ∈ ys := h.right.subset (List.mem_map_of_mem (f := Prod.snd) hp)
      have hys := List.perm_cons_erase hy
      rw [hqs.length_eq]
      refine .pair (h.fit _ hp) hys (ih ⟨?_, ?_, fun p hq => h.fit p ?_⟩)
      · exact (List.subperm_cons x').mp ((hqs.map Prod.fst).symm.subperm.trans h.left)
      · have hright := (hqs.map Prod.snd).symm.subperm.trans (h.right.trans hys.subperm)
        exact (List.subperm_cons y).mp hright
      · exact hqs.mem_iff.mpr (List.mem_cons_of_mem _ hq)
    · refine .skip (ih ⟨?_, h.right, h.fit⟩)
      have herase := h.left.erase x
      rwa [List.erase_of_not_mem hx, List.erase_cons_head] at herase

/-- **These are the sizes of matchings.** -/
theorem matches_iff {xs : List α} {ys : List β} {k : ℕ} :
    Matches r xs ys k ↔ ∃ ps, Matching r xs ys ps ∧ ps.length = k :=
  ⟨Matches.exists_matching, fun ⟨_, h, hlen⟩ => hlen ▸ h.matches⟩

/-! ## exchange -/

theorem Matches.perm {xs : List α} {ys : List β} {k : ℕ} (h : Matches r xs ys k) :
    ∀ {zs : List β}, ys.Perm zs → Matches r xs zs k := by
  induction h with
  | nil ys => exact fun _ => .nil _
  | skip _ ih => exact fun hp => .skip (ih hp)
  | pair hr hperm h _ => exact fun hp => .pair hr (hp.symm.trans hperm) h

/-- without an element of the second list there is a matching with one pair less -/
theorem Matches.drop {xs : List α} {ys : List β} {k : ℕ} (h : Matches r xs ys k) :
    ∀ {y : β} {zs : List β}, ys.Perm (y :: zs) → ∃ k', k ≤ k' + 1 ∧ Matches r xs zs k' := by
  classical
  induction h with
  | nil ys => exact fun _ => ⟨0, Nat.zero_le 1, .nil _⟩
  | skip _ ih =>
    intro y zs hp
    obtain ⟨k', hk, h⟩ := ih hp
    exact ⟨k', hk, .skip h⟩
  | @pair x y xs ys zs k hr hperm h ih =>
    intro z ws hp
    by_cases heq : y = z
    · subst heq
      exact ⟨k, le_refl _, .skip (h.perm (List.Perm.cons_inv (hperm.symm.trans hp)))⟩
    · -- the pair stays, and the element is missing in the rest
      have hz : z ∈ zs := (List.mem_cons.mp ((hperm.symm.trans hp).mem_iff.mpr
        List.mem_cons_self)).resolve_left (Ne.symm heq)
      have hzs := List.perm_cons_erase hz
      obtain ⟨k', hk, h'⟩ := ih hzs
      have hall : (z :: ws).Perm (z :: y :: zs.erase z) :=
        (hp.symm.trans hperm).trans ((hzs.cons y).trans (List.Perm.swap z y _))
      exact ⟨k' + 1, Nat.succ_le_succ hk, .pair hr hall.cons_inv h'⟩

/-- **An element of the second list may stand in for another one**, where it fits what the other
one fits. -/
theorem Matches.replace {xs : List α} {ys : List β} {k : ℕ} (h : Matches r xs ys k) :
    ∀ {y z : β} {ws : List β}, ys.Perm (y :: ws) → (∀ x ∈ xs, r x y = true → r x z = true) →
    Matches r xs (z :: ws) k := by
  classical
  induction h with
  | nil ys => exact fun _ _ => .nil _
  | skip _ ih =>
    exact fun hp hfit => .skip (ih hp fun x hx => hfit x (List.mem_cons_of_mem _ hx))
  | @pair x v xs ys zs k hr hperm h ih =>
    intro y z ws hp hfit
    by_cases heq : v = y
    · subst heq
      have hrest := h.perm (List.Perm.cons_inv (hperm.symm.trans hp))
      exact .pair (hfit x List.mem_cons_self hr) (List.Perm.refl _) hrest
    · have hy : y ∈ zs := (List.mem_cons.mp ((hperm.symm.trans hp).mem_iff.mpr
        List.mem_cons_self)).resolve_left (Ne.symm heq)
      have hzs := List.perm_cons_erase hy
      have hrest := ih (z := z) hzs fun x hx => hfit x (List.mem_cons_of_mem _ hx)
      have hall : (y :: ws).Perm (y :: v :: zs.erase y) :=
        (hp.symm.trans hperm).trans ((hzs.cons v).trans (List.Perm.swap y v _))
      refine .pair hr ?_ hrest
      exact (hall.cons_inv.cons z).trans (List.Perm.swap v z _)

/-! ## the first fit -/

theorem firstFit_matches (xs : List α) : ∀ ys : List β, Matches r xs ys (firstFit r xs ys) := by
  induction xs with
  | nil => exact fun ys => .nil ys
  | cons x xs ih =>
    intro ys
    unfold firstFit
    split
    · rename_i hany
      obtain ⟨y, hy, hr⟩ := List.any_eq_true.mp hany
      obtain ⟨y', a, b, -, hr', heq, herase⟩ := List.exists_of_eraseP hy hr
      rw [herase]
      refine .pair hr' ?_ (ih (a ++ b))
      rw [heq]
      exact List.perm_middle
    · exact .skip (ih ys)

/-- **The first fit is a greatest matching.**  `P` and `Q` order the two lists. -/
theorem Matches.le_firstFit {P : α → α → Prop} {Q : β → β → Prop}
    (hexchange : ∀ x x' y y', P x x' → Q y y' → r x y = true → r x y' = true → r x' y = true →
      r x' y' = true)
    (xs : List α) : ∀ (ys : List β) (k : ℕ), xs.Pairwise P → ys.Pairwise Q → Matches r xs ys k →
    k ≤ firstFit r xs ys := by
  induction xs with
  | nil =>
    intro ys k _ _ h
    cases h with
    | nil => exact Nat.zero_le _
  | cons x xs ih =>
    intro ys k hxs hys h
    obtain ⟨hx, hxs⟩ := List.pairwise_cons.mp hxs
    unfold firstFit
    split
    · rename_i hany
      obtain ⟨y, hy, hr⟩ := List.any_eq_true.mp hany
      -- `first` is what `x` takes
      obtain ⟨first, a, b, hnone, hfirst, heq, herase⟩ := List.exists_of_eraseP hy hr
      rw [herase]
      have hmiddle : ys.Perm (first :: (a ++ b)) := heq ▸ List.perm_middle
      rw [heq] at hys
      obtain ⟨ha, hb, hab⟩ := List.pairwise_append.mp hys
      obtain ⟨hfirstb, hb⟩ := List.pairwise_cons.mp hb
      have hrest : (a ++ b).Pairwise Q := List.pairwise_append.mpr
        ⟨ha, hb, fun u hu v hv => hab u hu v (List.mem_cons_of_mem _ hv)⟩
      cases h with
      | skip h =>
        obtain ⟨k', hk, h'⟩ := h.drop hmiddle
        exact hk.trans (Nat.succ_le_succ (ih _ _ hxs hrest h'))
      | @pair _ z _ _ zs k hz hperm h =>
        refine Nat.succ_le_succ (ih _ _ hxs hrest ?_)
        by_cases hsame : z = first
        · subst hsame
          exact h.perm (List.Perm.cons_inv (hperm.symm.trans hmiddle))
        · -- `x` takes an earlier one, and what it leaves stands in for that
          have hzb : z ∈ b := by
            have hmem : z ∈ first :: (a ++ b) :=
              hmiddle.mem_iff.mp (hperm.mem_iff.mpr List.mem_cons_self)
            have hmem' := (List.mem_cons.mp hmem).resolve_left hsame
            obtain hza | hzb := List.mem_append.mp hmem'
            · exact absurd hz (hnone z hza)
            · exact hzb
          obtain ⟨c, hc⟩ : ∃ c, (a ++ b).Perm (z :: c) := by
            classical
            exact ⟨_, List.perm_cons_erase (List.mem_append_right a hzb)⟩
          have hzs : zs.Perm (first :: c) := by
            have hall : (z :: zs).Perm (z :: first :: c) :=
              (hperm.symm.trans hmiddle).trans ((hc.cons first).trans (List.Perm.swap z first c))
            exact hall.cons_inv
          refine (h.replace hzs fun x' hx' hfit => ?_).perm hc.symm
          exact hexchange x x' first z (hx x' hx') (hfirstb z hzb) hfirst hz hfit
    · rename_i hany
      cases h with
      | skip h => exact ih ys k hxs hys h
      | @pair _ z _ _ zs k hz hperm h =>
        refine absurd (List.any_eq_true.mpr ⟨z, ?_, hz⟩) hany
        exact hperm.mem_iff.mpr List.mem_cons_self

theorem firstFit_max {P : α → α → Prop} {Q : β → β → Prop} {xs : List α} {ys : List β}
    (hexchange : ∀ x x' y y', P x x' → Q y y' → r x y = true → r x y' = true → r x' y = true →
      r x' y' = true)
    (hxs : xs.Pairwise P) (hys : ys.Pairwise Q) :
    IsGreatest {k | ∃ ps, Matching r xs ys ps ∧ ps.length = k} (firstFit r xs ys) :=
  ⟨(firstFit_matches xs ys).exists_matching,
    fun _ h => (matches_iff.mpr h).le_firstFit hexchange xs ys _ hxs hys⟩

end

end FirstFit
