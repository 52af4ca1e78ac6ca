import Mathlib.Data.List.Nodup
import Mathlib.Order.Bounds.Basic

/-!
# Layers of a relation

* `At`              the elements of a layer
* `Walk`, `Source`  a path of so many edges; an element that no edge leads to
* `Layered`         all parents are in earlier layers, and one of them is in the layer before
* `Layered.snoc`    one more layer
* `Layered.longest` the layer of an element is the length of the longest path from a source to it
* `Layered.lt`      every edge leads to a later layer
-/

namespace Layering

section
variable {α : Type*} {r : α → α → Prop}

/-- the element is in the layer of this number -/
def At (ls : List (List α)) (i : ℕ) (v : α) : Prop := ∃ l, ls[i]? = some l ∧ v ∈ l

/-- a path of so many edges -/
inductive Walk (r : α → α → Prop) : ℕ → α → α → Prop
  | nil (a : α) : Walk r 0 a a
  | snoc {k : ℕ} {a b c : α} : Walk r k a b → r b c → Walk r (k + 1) a c

/-- no edge leads to the element -/
def Source (r : α → α → Prop) (a : α) : Prop := ∀ p, ¬ r p a

def Layered (r : α → α → Prop) (ls : List (List α)) : Prop :=
  ∀ i v, At ls i v →
    (∀ p, r p v → ∃ j < i, At ls j p) ∧ ∀ j, i = j + 1 → ∃ p, At ls j p ∧ r p v

/-- what a list may be the next layer behind these -/
def Next (r : α → α → Prop) (ls : List (List α)) (l : List α) : Prop :=
  ∀ v ∈ l, (∀ p, r p v → p ∈ ls.flatten) ∧ ∀ j, ls.length = j + 1 → ∃ p, At ls j p ∧ r p v

theorem mem_flatten_iff {ls : List (List α)} {v : α} : v ∈ ls.flatten ↔ ∃ i, At ls i v := by
  rw [List.mem_flatten]
  constructor
  · intro ⟨l, hl, hv⟩
    obtain ⟨i, hi⟩ := List.getElem?_of_mem hl
    exact ⟨i, l, hi, hv⟩
  · intro ⟨i, l, hi, hv⟩
    exact ⟨l, List.mem_of_getElem? hi, hv⟩

theorem At.lt {ls : List (List α)} {i : ℕ} {v : α} (h : At ls i v) : i < ls.length := by
  obtain ⟨l, hl, -⟩ := h
  exact (List.getElem?_eq_some_iff.mp hl).1

theorem At.mem_take {ls : List (List α)} {i k : ℕ} {v : α} (h : At ls i v) (hik : i < k) :
    v ∈ (ls.take k).flatten := by
  obtain ⟨l, hl, hv⟩ := h
  refine List.mem_flatten.mpr ⟨l, ?_, hv⟩
  exact List.mem_of_getElem? (by rwa [List.getElem?_take_of_lt hik])

theorem exists_of_mem_take {ls : List (List α)} {k : ℕ} {v : α} (h : v ∈ (ls.take k).flatten) :
    ∃ i < k, At ls i v := by
  obtain ⟨i, l, hl, hv⟩ := mem_flatten_iff.mp h
  have hlt := (List.getElem?_eq_some_iff.mp hl).1
  rw [List.length_take] at hlt
  have hik : i < k := by omega
  exact ⟨i, hik, l, by rwa [List.getElem?_take_of_lt hik] at hl, hv⟩

/-- an element of distinct layers is in one of them -/
theorem At.unique {ls : List (List α)} (hn : ls.flatten.Nodup) {i j : ℕ} {v : α} (hi : At ls i v)
    (hj : At ls j v) : i = j := by
  obtain ⟨-, hd⟩ := List.nodup_flatten.mp hn
  obtain ⟨l, hl, hv⟩ := hi
  obtain ⟨l', hl', hv'⟩ := hj
  obtain ⟨hi, rfl⟩ := List.getElem?_eq_some_iff.mp hl
  obtain ⟨hj, rfl⟩ := List.getElem?_eq_some_iff.mp hl'
  rw [List.pairwise_iff_getElem] at hd
  by_contra hne
  obtain hlt | hlt := Nat.lt_or_gt_of_ne hne
  · exact hd i j _ _ hlt hv hv'
  · exact hd j i _ _ hlt hv' hv

theorem at_snoc {ls : List (List α)} {l : List α} {i : ℕ} {v : α} :
    At (ls ++ [l]) i v ↔ At ls i v ∨ (i = ls.length ∧ v ∈ l) := by
  unfold At
  by_cases hi : i < ls.length
  · rw [List.getElem?_append_left hi]
    exact ⟨Or.inl, fun h => h.resolve_right fun h => hi.ne h.1⟩
  · rw [List.getElem?_append_right (by omega), List.getElem?_eq_none (l := ls) (by omega)]
    by_cases heq : i = ls.length
    · subst heq
      simp
    · rw [List.getElem?_eq_none (by simp; omega)]
      simp [heq]

theorem layered_nil : Layered r [] := by
  intro i v ⟨l, hl, _⟩
  cases hl

/-- **One more layer.** -/
theorem Layered.snoc {ls : List (List α)} {l : List α} (h : Layered r ls) (hl : Next r ls l) :
    Layered r (ls ++ [l]) := by
  intro i v hv
  obtain hv | ⟨rfl, hmem⟩ := at_snoc.mp hv
  · obtain ⟨hall, hone⟩ := h i v hv
    refine ⟨fun p hp => ?_, fun j hj => ?_⟩
    · obtain ⟨j, hj, hat⟩ := hall p hp
      exact ⟨j, hj, at_snoc.mpr (Or.inl hat)⟩
    · obtain ⟨p, hat, hp⟩ := hone j hj
      exact ⟨p, at_snoc.mpr (Or.inl hat), hp⟩
  · obtain ⟨hall, hone⟩ := hl v hmem
    refine ⟨fun p hp => ?_, fun j hj => ?_⟩
    · obtain ⟨j, hat⟩ := mem_flatten_iff.mp (hall p hp)
      exact ⟨j, hat.lt, at_snoc.mpr (Or.inl hat)⟩
    · obtain ⟨p, hat, hp⟩ := hone j hj
      exact ⟨p, at_snoc.mpr (Or.inl hat), hp⟩

/-- every edge of a path goes on at least one layer -/
theorem Layered.walk_le {ls : List (List α)} (h : Layered r ls) {k : ℕ} {a v : α}
    (hw : Walk r k a v) : ∀ i, At ls i v → k ≤ i := by
  induction hw with
  | nil a => exact fun i _ => Nat.zero_le i
  | snoc hw hr ih =>
    intro i hv
    obtain ⟨j, hj, hat⟩ := (h i _ hv).1 _ hr
    have := ih j hat
    omega

/-- back from layer to layer, down to a source -/
theorem Layered.exists_walk {ls : List (List α)} (h : Layered r ls) (i : ℕ) :
    ∀ v, At ls i v → ∃ s, Source r s ∧ Walk r i s v := by
  induction i with
  | zero =>
    intro v hv
    refine ⟨v, fun p hp => ?_, .nil v⟩
    obtain ⟨j, hj, -⟩ := (h 0 v hv).1 p hp
    exact absurd hj (Nat.not_lt_zero j)
  | succ i ih =>
    intro v hv
    obtain ⟨p, hat, hp⟩ := (h (i + 1) v hv).2 i rfl
    obtain ⟨s, hs, hw⟩ := ih p hat
    exact ⟨s, hs, hw.snoc hp⟩

/-- **The layer of an element is the length of the longest path from a source to it.** -/
theorem Layered.longest {ls : List (List α)} (h : Layered r ls) {i : ℕ} {v : α} (hv : At ls i v) :
    IsGreatest {k | ∃ s, Source r s ∧ Walk r k s v} i :=
  ⟨h.exists_walk i v hv, fun _ ⟨_, _, hw⟩ => h.walk_le hw i hv⟩

/-- **Every edge leads to a later layer.** -/
theorem Layered.lt {ls : List (List α)} (h : Layered r ls) {i j : ℕ} {u v : α} (hu : At ls i u)
    (hv : At ls j v) (hr : r u v) : i < j := by
  obtain ⟨s, -, hw⟩ := h.exists_walk i u hu
  have := h.walk_le (hw.snoc hr) j hv
  omega

end

end Layering
