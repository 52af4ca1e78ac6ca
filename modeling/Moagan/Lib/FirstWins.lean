import Mathlib.Data.List.Nodup

/-!
# Unions in which the first element of a key stays

* `addAll`            a list, and then the elements of another whose key is new
* `addAll_nested`     a union of unions is the union of everything
-/

namespace FirstWins

section
variable {α κ : Type} [DecidableEq κ] (key : α → κ)

def add (known : List α) (a : α) : List α :=
  if known.any fun b => key b = key a then known else known ++ [a]

def addAll (known l : List α) : List α := l.foldl (add key) known

variable {key}

theorem add_new {known : List α} {a : α} (h : key a ∉ known.map key) :
    add key known a = known ++ [a] := by
  refine if_neg fun hany => h ?_
  obtain ⟨b, hb, heq⟩ := List.any_eq_true.mp hany
  exact List.mem_map.mpr ⟨b, hb, of_decide_eq_true heq⟩

theorem add_known {known : List α} {a : α} (h : key a ∈ known.map key) :
    add key known a = known := by
  obtain ⟨b, hb, heq⟩ := List.mem_map.mp h
  exact if_pos (List.any_eq_true.mpr ⟨b, hb, decide_eq_true heq⟩)

theorem add_distinct {known : List α} (h : (known.map key).Nodup) (a : α) :
    ((add key known a).map key).Nodup := by
  by_cases ha : key a ∈ known.map key
  · rwa [add_known ha]
  · rw [add_new ha, List.map_append, List.nodup_append]
    refine ⟨h, List.nodup_singleton _, fun x hx y hy heq => ha ?_⟩
    rw [← List.mem_singleton.mp hy, ← heq]
    exact hx

theorem addAll_distinct (l : List α) {known : List α} (h : (known.map key).Nodup) :
    ((addAll key known l).map key).Nodup := by
  induction l generalizing known with
  | nil => exact h
  | cons a l ih => exact ih (add_distinct h a)

theorem addAll_append (known l l' : List α) :
    addAll key known (l ++ l') = addAll key (addAll key known l) l' := List.foldl_append

theorem addAll_known {known l : List α} (h : ∀ a ∈ l, key a ∈ known.map key) :
    addAll key known l = known := by
  induction l with
  | nil => rfl
  | cons a l ih =>
    show addAll key (add key known a) l = known
    rw [add_known (h a List.mem_cons_self)]
    exact ih fun b hb => h b (List.mem_cons_of_mem _ hb)

theorem addAll_of_distinct {known l : List α} (h : ((known ++ l).map key).Nodup) :
    addAll key known l = known ++ l := by
  induction l generalizing known with
  | nil => exact (List.append_nil known).symm
  | cons a l ih =>
    have ha : key a ∉ known.map key := by
      intro hmem
      rw [List.map_append, List.nodup_append] at h
      exact h.2.2 _ hmem _ List.mem_cons_self rfl
    rw [List.append_cons] at h ⊢
    show addAll key (add key known a) l = _
    rw [add_new ha]
    exact ih h

/-- **A union of unions is the union of everything.** -/
theorem addAll_nested (l l' : List α) :
    addAll key [] (addAll key [] l ++ l') = addAll key [] (l ++ l') := by
  have hself : addAll key [] (addAll key [] l) = addAll key [] l :=
    addAll_of_distinct (addAll_distinct l List.nodup_nil)
  rw [addAll_append, addAll_append, hself]

end

end FirstWins
