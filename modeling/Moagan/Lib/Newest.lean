import Mathlib.Data.List.Induction
import Mathlib.Data.Set.Basic

/-!
# Keeping the newest copy

A relation `newer` compares two copies of a thing; `join` keeps the copy that is there when it is
newer, and takes the other one otherwise.

* `Decided`      on the copies at hand `newer` decides between any two, and is transitive
* `IsNewest`     one of the copies, and newer than all others
* `foldl_join`   joining copies one after another, in any order and repeated or not, leaves the
                 newest
-/

namespace Newest

section
variable {α : Type*} (newer : α → α → Bool)

def join (d b : Option α) : Option α :=
  match b, d with
  | none, d => d
  | some b, none => some b
  | some b, some a => if newer a b then some a else some b

structure Decided (S : Set α) : Prop where
  total : ∀ a ∈ S, ∀ b ∈ S, a = b ∨ newer a b ∨ newer b a
  trans : ∀ a ∈ S, ∀ b ∈ S, ∀ c ∈ S, newer a b → newer b c → newer a c

structure IsNewest (S : Set α) (r : Option α) : Prop where
  mem : ∀ a ∈ r, a ∈ S
  newest : ∀ b ∈ S, ∃ a ∈ r, b = a ∨ newer a b

/-- the copies of a list with the one that was there -/
def copies (d : Option α) (bs : List (Option α)) : Set α := fun x => x ∈ d ∨ some x ∈ bs

variable {newer}

theorem isNewest_option (d : Option α) : IsNewest newer (copies d []) d where
  mem _ ha := Or.inl ha
  newest b hb := ⟨b, hb.resolve_right List.not_mem_nil, Or.inl rfl⟩

theorem copies_append (d : Option α) (bs : List (Option α)) (b : Option α) (x : α) :
    copies d (bs ++ [b]) x ↔ copies d bs x ∨ b = some x := by
  unfold copies
  rw [List.mem_append, List.mem_singleton, or_assoc]
  exact or_congr_right (or_congr_right eq_comm)

theorem isNewest_join {d : Option α} {bs : List (Option α)} {b r : Option α}
    (h : Decided newer (copies d (bs ++ [b]))) (hr : IsNewest newer (copies d bs) r) :
    IsNewest newer (copies d (bs ++ [b])) (join newer r b) := by
  have old : ∀ x, copies d bs x → copies d (bs ++ [b]) x :=
    fun x hx => (copies_append d bs b x).mpr (Or.inl hx)
  cases b with
  | none =>
    refine ⟨fun a ha => old a (hr.mem a ha), fun x hx => ?_⟩
    exact hr.newest x (((copies_append d bs none x).mp hx).resolve_right nofun)
  | some b =>
    have hb : copies d (bs ++ [some b]) b := (copies_append d bs (some b) b).mpr (Or.inr rfl)
    -- the newest copy so far loses to `b`, or there is none
    have take : (∀ a ∈ r, a = b ∨ newer b a) → IsNewest newer (copies d (bs ++ [some b])) (some b) := by
      intro hlose
      refine ⟨fun a ha => Option.some.inj ha ▸ hb, fun x hx => ⟨b, rfl, ?_⟩⟩
      rcases (copies_append d bs (some b) x).mp hx with hx' | hx'
      · obtain ⟨a, ha, hxa⟩ := hr.newest x hx'
        have hmem := old a (hr.mem a ha)
        rcases hxa with rfl | hax
        · exact hlose x ha
        · rcases hlose a ha with rfl | hba
          · exact Or.inr hax
          · exact Or.inr (h.trans b hb a hmem x hx hba hax)
      · exact Or.inl (Option.some.inj hx').symm
    cases hrr : r with
    | none =>
      subst hrr
      exact take nofun
    | some a =>
      have ha : a ∈ r := hrr
      show IsNewest newer _ (if newer a b then some a else some b)
      by_cases hn : newer a b = true
      · rw [if_pos hn]
        refine ⟨fun x hx => Option.some.inj hx ▸ old a (hr.mem a ha), fun x hx => ?_⟩
        rcases (copies_append d bs (some b) x).mp hx with hx' | hx'
        · rw [← hrr]
          exact hr.newest x hx'
        · exact ⟨a, rfl, Or.inr (Option.some.inj hx' ▸ hn)⟩
      · rw [if_neg hn]
        refine take fun a' ha' => ?_
        obtain rfl := Option.some.inj (hrr.symm.trans ha')
        rcases h.total a (old a (hr.mem a ha)) b hb with e | hab | hba
        · exact Or.inl e
        · exact absurd hab hn
        · exact Or.inr hba

theorem Decided.mono {S S' : Set α} (h : Decided newer S) (hs : ∀ x ∈ S', x ∈ S) : Decided newer S' where
  total a ha b hb := h.total a (hs a ha) b (hs b hb)
  trans a ha b hb c hc := h.trans a (hs a ha) b (hs b hb) c (hs c hc)

/-- **Joining copies one after another leaves the newest.** -/
theorem foldl_join {d : Option α} {bs : List (Option α)} (h : Decided newer (copies d bs)) :
    IsNewest newer (copies d bs) (bs.foldl (join newer) d) := by
  induction bs using List.reverseRecOn with
  | nil => exact isNewest_option d
  | append_singleton bs b ih =>
    rw [List.foldl_append]
    have hs : ∀ x ∈ copies d bs, x ∈ copies d (bs ++ [b]) :=
      fun x hx => (copies_append d bs b x).mpr (Or.inl hx)
    exact isNewest_join h (ih (h.mono hs))

end

end Newest
