import Mathlib.Logic.Function.Basic
import Mathlib.Order.MinMax
import Mathlib.Data.Nat.Notation

/-!
# Union-find on an ordered forest

`Forest` is a parent function that never points upwards, so a walk to the root ends within as many
steps as its first element says.

* `Forest.root`     the root of an element
* `Forest.find`     the walk to the root; on its way it points every element it visits to its
                    grandparent
* `Forest.union`    the larger of two roots is put under the smaller one
* `find_root`, `find_keeps`, `union_root`   what they do to the roots
-/

structure Forest where
  parent : ℕ → ℕ
  parent_le : ∀ n, parent n ≤ n

namespace Forest

/-- every element is a root -/
def init : Forest := ⟨id, fun _ => le_rfl⟩

/-- `parent[n] = p` -/
def set (F : Forest) (n p : ℕ) (hp : p ≤ n) : Forest where
  parent := Function.update F.parent n p
  parent_le k := by
    by_cases h : k = n
    · rw [h, Function.update_self]
      exact hp
    · rw [Function.update_of_ne h]
      exact F.parent_le k

theorem set_parent_self (F : Forest) {n p : ℕ} (hp : p ≤ n) : (F.set n p hp).parent n = p :=
  Function.update_self ..

theorem set_parent_of_ne (F : Forest) {n p k : ℕ} (hp : p ≤ n) (h : k ≠ n) :
    (F.set n p hp).parent k = F.parent k := Function.update_of_ne h _ _

def rootWith (F : Forest) : ℕ → ℕ → ℕ
  | 0, n => n
  | fuel + 1, n => if F.parent n = n then n else rootWith F fuel (F.parent n)

def root (F : Forest) (n : ℕ) : ℕ := F.rootWith (n + 1) n

theorem rootWith_fuel (F : Forest) {fuel n : ℕ} (hf : n < fuel) : F.rootWith fuel n = F.root n := by
  induction n using Nat.strong_induction_on generalizing fuel with
  | _ n ih =>
    obtain ⟨f, rfl⟩ := Nat.exists_eq_add_of_lt (Nat.zero_lt_of_lt hf)
    rw [root, Nat.zero_add, rootWith, rootWith]
    by_cases h : F.parent n = n
    · rw [if_pos h, if_pos h]
    · have hlt : F.parent n < n := lt_of_le_of_ne (F.parent_le n) h
      rw [if_neg h, if_neg h, ih _ hlt (by omega), ih _ hlt hlt]

theorem root_of_fixed {F : Forest} {n : ℕ} (h : F.parent n = n) : F.root n = n := by
  rw [root, rootWith, if_pos h]

theorem root_parent (F : Forest) (n : ℕ) : F.root (F.parent n) = F.root n := by
  by_cases h : F.parent n = n
  · rw [h]
  · have hlt : F.parent n < n := lt_of_le_of_ne (F.parent_le n) h
    rw [← F.rootWith_fuel hlt, root, rootWith, if_neg h]

/-- what holds at the roots and follows from the parent holds everywhere -/
theorem induct (F : Forest) {P : ℕ → Prop} (hroot : ∀ n, F.parent n = n → P n)
    (hstep : ∀ n, F.parent n < n → P (F.parent n) → P n) (n : ℕ) : P n := by
  induction n using Nat.strong_induction_on with
  | _ n ih =>
    by_cases h : F.parent n = n
    · exact hroot n h
    · have hlt : F.parent n < n := lt_of_le_of_ne (F.parent_le n) h
      exact hstep n hlt (ih _ hlt)

theorem root_fixed (F : Forest) (n : ℕ) : F.parent (F.root n) = F.root n := by
  refine F.induct (P := fun n => F.parent (F.root n) = F.root n) ?_ ?_ n
  · intro n h
    rw [root_of_fixed h, h]
  · intro n _ ih
    rwa [← F.root_parent n]

/-- an element that is moved inside its own tree keeps every root -/
theorem root_set_inside {F : Forest} {n p : ℕ} (hp : p ≤ n) (hn : F.parent n ≠ n) (hpn : p ≠ n)
    (hr : F.root p = F.root n) (k : ℕ) : (F.set n p hp).root k = F.root k := by
  refine (F.set n p hp).induct (P := fun k => (F.set n p hp).root k = F.root k) ?_ ?_ k
  · intro k hk
    rw [root_of_fixed hk]
    by_cases h : k = n
    · subst h
      rw [F.set_parent_self] at hk
      exact absurd hk hpn
    · rw [F.set_parent_of_ne hp h] at hk
      exact (root_of_fixed hk).symm
  · intro k _ ih
    rw [← (F.set n p hp).root_parent k, ih]
    by_cases h : k = n
    · subst h
      rw [F.set_parent_self]
      exact hr
    · rw [F.set_parent_of_ne hp h]
      exact F.root_parent k

/-- a root that is put under another root takes its tree along -/
theorem root_set_root {F : Forest} {a b : ℕ} (hab : b ≤ a) (ha : F.parent a = a)
    (hb : F.parent b = b) (k : ℕ) :
    (F.set a b hab).root k = if F.root k = a then b else F.root k := by
  refine F.induct (P := fun k => (F.set a b hab).root k = if F.root k = a then b else F.root k)
    ?_ ?_ k
  · intro k hk
    rw [root_of_fixed hk]
    by_cases h : k = a
    · subst h
      rw [if_pos rfl, ← (F.set k b hab).root_parent k, F.set_parent_self]
      apply root_of_fixed
      by_cases hbk : b = k
      · subst hbk
        exact F.set_parent_self hab
      · rw [F.set_parent_of_ne hab hbk, hb]
    · rw [if_neg h]
      apply root_of_fixed
      rw [F.set_parent_of_ne hab h, hk]
  · intro k hlt ih
    have hne : k ≠ a := by
      intro h
      rw [h, ha] at hlt
      exact lt_irrefl a hlt
    rw [← (F.set a b hab).root_parent k, F.set_parent_of_ne hab hne, ih, F.root_parent]

/-! ## find and union -/

def findWith : ℕ → Forest → ℕ → Forest × ℕ
  | 0, F, n => (F, n)
  | fuel + 1, F, n =>
    if F.parent n = n then (F, n)
    else
      let F' := F.set n (F.parent (F.parent n)) ((F.parent_le _).trans (F.parent_le n))
      findWith fuel F' (F'.parent n)

/-- `while parent[n] != n { parent[n] = parent[parent[n]]; n = parent[n]; }` -/
def find (F : Forest) (n : ℕ) : Forest × ℕ := findWith n F n

/-- **The walk ends at the root, and no root changes.** -/
theorem findWith_spec (fuel : ℕ) : ∀ (F : Forest) (n : ℕ), n ≤ fuel →
    (findWith fuel F n).2 = F.root n ∧ ∀ k, (findWith fuel F n).1.root k = F.root k := by
  induction fuel with
  | zero =>
    intro F n hn
    obtain rfl : n = 0 := by omega
    exact ⟨(root_of_fixed (Nat.le_zero.mp (F.parent_le 0))).symm, fun _ => rfl⟩
  | succ fuel ih =>
    intro F n hn
    unfold findWith
    split_ifs with h
    · exact ⟨(root_of_fixed h).symm, fun _ => rfl⟩
    · have hlt : F.parent n < n := lt_of_le_of_ne (F.parent_le n) h
      have hgrand : F.parent (F.parent n) < n := (F.parent_le _).trans_lt hlt
      have hkeep := root_set_inside ((F.parent_le _).trans (F.parent_le n)) h hgrand.ne
        ((F.root_parent _).trans (F.root_parent n))
      have hpar : (F.set n (F.parent (F.parent n))
          ((F.parent_le _).trans (F.parent_le n))).parent n = F.parent (F.parent n) :=
        Function.update_self ..
      obtain ⟨h1, h2⟩ := ih (F.set n (F.parent (F.parent n))
        ((F.parent_le _).trans (F.parent_le n))) (F.parent (F.parent n)) (by omega)
      dsimp only
      rw [hpar]
      refine ⟨?_, fun k => (h2 k).trans (hkeep k)⟩
      rw [h1, hkeep, F.root_parent, F.root_parent]

theorem find_root (F : Forest) (n : ℕ) : (F.find n).2 = F.root n := (findWith_spec n F n le_rfl).1

theorem find_keeps (F : Forest) (n k : ℕ) : (F.find n).1.root k = F.root k :=
  (findWith_spec n F n le_rfl).2 k

/-- `parent[max(rn, rm)] = min(rn, rm)` -/
def union (F : Forest) (n m : ℕ) : Forest :=
  let (F₁, rn) := F.find n
  let (F₂, rm) := F₁.find m
  F₂.set (max rn rm) (min rn rm) min_le_max

/-- **The two trees become one, under the smaller root.** -/
theorem union_root (F : Forest) (n m k : ℕ) : (F.union n m).root k
    = if F.root k = max (F.root n) (F.root m) then min (F.root n) (F.root m) else F.root k := by
  have h2 : ∀ k, ((F.find n).1.find m).1.root k = F.root k :=
    fun k => (find_keeps _ m k).trans (F.find_keeps n k)
  have hrm : ((F.find n).1.find m).2 = F.root m := (find_root _ m).trans (F.find_keeps n m)
  have hfix : ∀ k, ((F.find n).1.find m).1.parent (F.root k) = F.root k := by
    intro k
    rw [← h2 k]
    exact root_fixed _ k
  have hmax : ((F.find n).1.find m).1.parent (max (F.root n) (F.root m))
      = max (F.root n) (F.root m) := by
    obtain h | h := max_choice (F.root n) (F.root m) <;> rw [h] <;> exact hfix _
  have hmin : ((F.find n).1.find m).1.parent (min (F.root n) (F.root m))
      = min (F.root n) (F.root m) := by
    obtain h | h := min_choice (F.root n) (F.root m) <;> rw [h] <;> exact hfix _
  have := root_set_root min_le_max hmax hmin k
  rw [h2] at this
  rw [← this]
  unfold union
  dsimp only
  simp only [hrm, F.find_root]

end Forest
