import Mathlib.Data.List.Infix
import Mathlib.Order.Lattice

/-!
# Positions in a list of blocks

Every key has a block of values; the blocks stand behind one another in the order of the keys.  When
are the positions of the values the same in two such lists?

* `flat`              the values with their keys, block behind block
* `Agree`             the keys of both lists have the same values at the same positions, and a
                      position that both lists have belongs to one value
* `Compatible`        common keys have the same block, and what only one list has comes behind
                      everything of the other
* `agree_iff`         the two are the same
-/

namespace Blocks

section
variable {K V : Type*}

def flat (L : List (K × List V)) : List (K × V) := L.flatMap fun b => b.2.map fun v => (b.1, v)

def keys (L : List (K × List V)) : List K := L.map Prod.fst

theorem flat_cons (b : K × List V) (L : List (K × List V)) :
    flat (b :: L) = b.2.map (fun v => (b.1, v)) ++ flat L := List.flatMap_cons

theorem flat_append (L M : List (K × List V)) : flat (L ++ M) = flat L ++ flat M :=
  List.flatMap_append

theorem mem_flat {L : List (K × List V)} {k : K} {v : V} :
    (k, v) ∈ flat L ↔ ∃ vs, (k, vs) ∈ L ∧ v ∈ vs := by
  unfold flat
  rw [List.mem_flatMap]
  constructor
  · intro h
    obtain ⟨⟨k', vs⟩, hb, hv⟩ := h
    obtain ⟨v', hv', e⟩ := List.mem_map.mp hv
    obtain ⟨rfl, rfl⟩ := Prod.mk.inj e
    exact ⟨vs, hb, hv'⟩
  · intro h
    obtain ⟨vs, hb, hv⟩ := h
    exact ⟨(k, vs), hb, List.mem_map_of_mem hv⟩

theorem mem_keys {L : List (K × List V)} {k : K} : k ∈ keys L ↔ ∃ vs, (k, vs) ∈ L := by
  unfold keys
  simp

/-- the blocks that are not empty -/
def full (L : List (K × List V)) : List (K × List V) := L.filter fun b => !b.2.isEmpty

theorem mem_full {L : List (K × List V)} {b : K × List V} : b ∈ full L ↔ b ∈ L ∧ b.2 ≠ [] := by
  simp [full, List.mem_filter]

theorem flat_full (L : List (K × List V)) : flat (full L) = flat L := by
  induction L with
  | nil => rfl
  | cons b L ih =>
    unfold full at ih ⊢
    rw [List.filter_cons, flat_cons]
    by_cases hb : b.2 = []
    · rw [hb]
      simpa using ih
    · rw [if_pos (by simpa using hb), flat_cons, ih]

theorem flat_ne_nil {L : List (K × List V)} (h : ∀ b ∈ L, b.2 ≠ []) (hL : L ≠ []) : flat L ≠ [] := by
  obtain ⟨b, L, rfl⟩ := List.exists_cons_of_ne_nil hL
  rw [flat_cons]
  intro he
  exact h b List.mem_cons_self (List.map_eq_nil_iff.mp (List.append_eq_nil_iff.mp he).1)

theorem prefix_of_flat {A B : List (K × List V)} (hA : ∀ b ∈ A, b.2 ≠ [])
    (hB : ∀ b ∈ B, b.2 ≠ []) (same : ∀ k vs ws, (k, vs) ∈ A → (k, ws) ∈ B → vs = ws)
    (h : flat A <+: flat B) : A <+: B := by
  induction A generalizing B with
  | nil => exact List.nil_prefix
  | cons a A ih =>
    have hne : flat B ≠ [] := by
      intro he
      rw [he] at h
      exact flat_ne_nil hA (List.cons_ne_nil a A) (List.prefix_nil.mp h)
    cases B with
    | nil => exact absurd rfl hne
    | cons b B =>
      obtain ⟨k, vs⟩ := a
      obtain ⟨l, ws⟩ := b
      obtain ⟨v, vs', rfl⟩ := List.exists_cons_of_ne_nil (hA _ List.mem_cons_self)
      obtain ⟨w, ws', rfl⟩ := List.exists_cons_of_ne_nil (hB _ List.mem_cons_self)
      have hhead : k = l := by
        rw [flat_cons, flat_cons] at h
        exact (Prod.mk.inj (List.cons_prefix_cons.mp h).1).1
      subst hhead
      obtain ⟨rfl, rfl⟩ := List.cons.inj
        (same k (v :: vs') (w :: ws') List.mem_cons_self List.mem_cons_self)
      rw [flat_cons, flat_cons] at h
      refine List.cons_prefix_cons.mpr ⟨rfl, ih (fun b hb => hA b (List.mem_cons_of_mem _ hb))
        (fun b hb => hB b (List.mem_cons_of_mem _ hb)) (fun k vs ws hv hw => same k vs ws
          (List.mem_cons_of_mem _ hv) (List.mem_cons_of_mem _ hw)) ?_⟩
      exact (List.prefix_append_right_inj _).mp h

theorem full_prefix {L M : List (K × List V)}
    (same : ∀ k vs ws, (k, vs) ∈ L → (k, ws) ∈ M → vs = ws) (h : flat L <+: flat M) :
    full L <+: full M := by
  refine prefix_of_flat (fun b hb => (mem_full.mp hb).2) (fun b hb => (mem_full.mp hb).2)
    (fun k vs ws hv hw => same k vs ws (mem_full.mp hv).1 (mem_full.mp hw).1) ?_
  rw [flat_full, flat_full]
  exact h

theorem full_key {L M : List (K × List V)}
    (same : ∀ k vs ws, (k, vs) ∈ L → (k, ws) ∈ M → vs = ws) {p : K × List V} (hp : p ∈ full L)
    (hk : p.1 ∉ keys (full M)) : p.1 ∉ keys M := by
  intro hM
  obtain ⟨ws, hw⟩ := mem_keys.mp hM
  obtain ⟨hpL, hne⟩ := mem_full.mp hp
  obtain rfl := same p.1 p.2 ws hpL hw
  exact hk (mem_keys.mpr ⟨p.2, mem_full.mpr ⟨hw, hne⟩⟩)

/-- where the lists agree at every common position, one is the front of the other -/
theorem prefix_or_prefix {α : Type*} {xs ys : List α}
    (h : ∀ (n : ℕ) x y, xs[n]? = some x → ys[n]? = some y → x = y) : xs <+: ys ∨ ys <+: xs := by
  induction xs generalizing ys with
  | nil => exact Or.inl List.nil_prefix
  | cons x xs ih =>
    cases ys with
    | nil => exact Or.inr List.nil_prefix
    | cons y ys =>
      obtain rfl := h 0 x y rfl rfl
      obtain hp | hp := ih fun n a b ha hb => h (n + 1) a b ha hb
      · exact Or.inl (List.cons_prefix_cons.mpr ⟨rfl, hp⟩)
      · exact Or.inr (List.cons_prefix_cons.mpr ⟨rfl, hp⟩)

/-! ## agreement -/

def Agree (L M : List (K × List V)) : Prop :=
  (∀ k, k ∈ keys L → k ∈ keys M →
    ∀ (n : ℕ) v, (flat L)[n]? = some (k, v) ↔ (flat M)[n]? = some (k, v)) ∧
  ∀ (n : ℕ) x y, (flat L)[n]? = some x → (flat M)[n]? = some y → x = y

theorem Agree.symm {L M : List (K × List V)} (h : Agree L M) : Agree M L :=
  ⟨fun k hk hk' n v => (h.1 k hk' hk n v).symm, fun n x y hx hy => (h.2 n y x hy hx).symm⟩

variable [LinearOrder K]

structure Compatible (L M : List (K × List V)) : Prop where
  same : ∀ k vs ws, (k, vs) ∈ L → (k, ws) ∈ M → vs = ws
  behind : ∀ p ∈ full L, ∀ q ∈ full M, p.1 ∉ keys M → q.1 < p.1
  front : ∀ p ∈ full L, ∀ q ∈ full M, q.1 ∉ keys L → p.1 < q.1

theorem Compatible.symm {L M : List (K × List V)} (h : Compatible L M) : Compatible M L :=
  ⟨fun k vs ws hv hw => (h.same k ws vs hw hv).symm, fun p hp q hq hk => h.front q hq p hp hk,
    fun p hp q hq hk => h.behind q hq p hp hk⟩

abbrev Ascending (L : List (K × List V)) : Prop := L.Pairwise fun a b => a.1 < b.1

theorem filter_flat_nil {L : List (K × List V)} {k : K} (h : k ∉ keys L) :
    (flat L).filter (fun x => x.1 = k) = [] := by
  apply List.filter_eq_nil_iff.mpr
  intro x hx he
  obtain ⟨vs, hvs, -⟩ := mem_flat.mp (show (x.1, x.2) ∈ flat L from hx)
  exact h (mem_keys.mpr ⟨vs, by simpa using (decide_eq_true_iff.mp he) ▸ hvs⟩)

theorem not_mem_keys_of_lt {L : List (K × List V)} {k : K} (h : ∀ b ∈ L, k < b.1) : k ∉ keys L := by
  intro hk
  obtain ⟨vs, hvs⟩ := mem_keys.mp hk
  exact lt_irrefl k (h _ hvs)

theorem filter_flat {L : List (K × List V)} (hL : Ascending L) {k : K} {vs : List V}
    (h : (k, vs) ∈ L) : (flat L).filter (fun x => x.1 = k) = vs.map fun v => (k, v) := by
  induction L with
  | nil => exact absurd h List.not_mem_nil
  | cons b L ih =>
    obtain ⟨hlt, hs⟩ := List.pairwise_cons.mp hL
    rw [flat_cons, List.filter_append]
    obtain rfl | h' := List.mem_cons.mp h
    · rw [filter_flat_nil (not_mem_keys_of_lt hlt), List.append_nil]
      simp
    · have hne : b.1 ≠ k := (hlt _ h').ne
      rw [ih hs h']
      simp [hne]

/-! ## from agreement to compatibility -/

theorem Agree.same {L M : List (K × List V)} (hL : Ascending L) (hM : Ascending M)
    (h : Agree L M) (hp : flat L <+: flat M) {k : K} {vs ws : List V} (hv : (k, vs) ∈ L)
    (hw : (k, ws) ∈ M) : vs = ws := by
  obtain ⟨R, hR⟩ := hp
  have hrest : R.filter (fun x => x.1 = k) = [] := by
    apply List.filter_eq_nil_iff.mpr
    intro x hx he
    have hk : x.1 = k := of_decide_eq_true he
    obtain ⟨n, hn⟩ := List.mem_iff_getElem?.mp hx
    have hM' : (flat M)[(flat L).length + n]? = some (k, x.2) := by
      rw [← hR, List.getElem?_append_right (Nat.le_add_right _ _), Nat.add_sub_cancel_left, hn, ← hk]
    have hL' := (h.1 k (mem_keys.mpr ⟨vs, hv⟩) (mem_keys.mpr ⟨ws, hw⟩) _ _).mpr hM'
    rw [List.getElem?_eq_none (Nat.le_add_right _ _)] at hL'
    cases hL'
  have he := congrArg (List.filter fun x => x.1 = k) hR
  rw [List.filter_append, hrest, List.append_nil, filter_flat hL hv, filter_flat hM hw] at he
  exact List.map_injective_iff.mpr (fun _ _ e => (Prod.mk.inj e).2) he

theorem full_ascending {L : List (K × List V)} (hL : Ascending L) : Ascending (full L) :=
  hL.filter _

theorem Agree.compatible_of_prefix {L M : List (K × List V)} (hL : Ascending L) (hM : Ascending M)
    (h : Agree L M) (hp : flat L <+: flat M) : Compatible L M := by
  have same : ∀ k vs ws, (k, vs) ∈ L → (k, ws) ∈ M → vs = ws :=
    fun _ _ _ hv hw => h.same hL hM hp hv hw
  obtain ⟨C, hC⟩ := full_prefix same hp
  refine ⟨same, fun p hpL q _ hk => ?_, fun p hpL q hq hk => ?_⟩
  · have : p ∈ full M := hC ▸ List.mem_append_left C hpL
    exact absurd (mem_keys.mpr ⟨p.2, (mem_full.mp this).1⟩) hk
  · rw [← hC] at hq
    obtain hq | hq := List.mem_append.mp hq
    · exact absurd (mem_keys.mpr ⟨q.2, (mem_full.mp hq).1⟩) hk
    · have := full_ascending hM
      rw [← hC] at this
      exact (List.pairwise_append.mp this).2.2 p hpL q hq

/-! ## from compatibility to agreement -/

theorem prefix_of_ascending {A B : List (K × List V)} (hA : Ascending A) (hB : Ascending B)
    (same : ∀ k vs ws, (k, vs) ∈ A → (k, ws) ∈ B → vs = ws)
    (behind : ∀ p ∈ A, ∀ q ∈ B, p.1 ∉ keys B → q.1 < p.1)
    (front : ∀ p ∈ A, ∀ q ∈ B, q.1 ∉ keys A → p.1 < q.1) : A <+: B ∨ B <+: A := by
  induction A generalizing B with
  | nil => exact Or.inl List.nil_prefix
  | cons a A ih =>
    cases B with
    | nil => exact Or.inr List.nil_prefix
    | cons b B =>
      obtain ⟨hltA, hsA⟩ := List.pairwise_cons.mp hA
      obtain ⟨hltB, hsB⟩ := List.pairwise_cons.mp hB
      obtain hab | hab | hab := lt_trichotomy a.1 b.1
      · -- the first key of `A` is missing in `B`, so it should come last
        have hk : a.1 ∉ keys (b :: B) := by
          refine not_mem_keys_of_lt fun x hx => ?_
          obtain rfl | hx := List.mem_cons.mp hx
          · exact hab
          · exact hab.trans (hltB x hx)
        exact absurd (behind a List.mem_cons_self b List.mem_cons_self hk) hab.asymm
      · obtain ⟨k, vs⟩ := a
        obtain ⟨l, ws⟩ := b
        obtain rfl : k = l := hab
        obtain rfl := same k vs ws List.mem_cons_self List.mem_cons_self
        have tail : ∀ {D : List (K × List V)} {p : K × List V}, k < p.1 → p.1 ∉ keys D →
            p.1 ∉ keys ((k, vs) :: D) := by
          intro D p hlt hp hk
          obtain e | hk := List.mem_cons.mp hk
          · exact hlt.ne' e
          · exact hp hk
        obtain hp | hp := ih hsA hsB
          (fun k vs ws hv hw => same k vs ws (List.mem_cons_of_mem _ hv) (List.mem_cons_of_mem _ hw))
          (fun p hp q hq hk => behind p (List.mem_cons_of_mem _ hp) q (List.mem_cons_of_mem _ hq)
            (tail (hltA p hp) hk))
          (fun p hp q hq hk => front p (List.mem_cons_of_mem _ hp) q (List.mem_cons_of_mem _ hq)
            (tail (hltB q hq) hk))
        · exact Or.inl (List.cons_prefix_cons.mpr ⟨rfl, hp⟩)
        · exact Or.inr (List.cons_prefix_cons.mpr ⟨rfl, hp⟩)
      · have hk : b.1 ∉ keys (a :: A) := by
          refine not_mem_keys_of_lt fun x hx => ?_
          obtain rfl | hx := List.mem_cons.mp hx
          · exact hab
          · exact hab.trans (hltA x hx)
        exact absurd (front a List.mem_cons_self b List.mem_cons_self hk) hab.asymm

theorem Compatible.prefix {L M : List (K × List V)} (hL : Ascending L) (hM : Ascending M)
    (h : Compatible L M) : full L <+: full M ∨ full M <+: full L := by
  have same' := fun k vs ws hw hv => (h.same k ws vs hv hw).symm
  refine prefix_of_ascending (full_ascending hL) (full_ascending hM)
    (fun k vs ws hv hw => h.same k vs ws (mem_full.mp hv).1 (mem_full.mp hw).1) ?_ ?_
  · intro p hp q hq hk
    exact h.behind p hp q hq (full_key h.same hp hk)
  · intro p hp q hq hk
    exact h.front p hp q hq (full_key same' hq hk)

theorem Compatible.agree_of_prefix {L M : List (K × List V)} (hM : Ascending M)
    (h : Compatible L M) (hp : full L <+: full M) : Agree L M := by
  obtain ⟨C, hC⟩ := hp
  have hflat : flat M = flat L ++ flat C := by
    rw [← flat_full L, ← flat_full M, ← hC, flat_append]
  have hfront : ∀ (n : ℕ) x, (flat L)[n]? = some x → (flat M)[n]? = some x := by
    intro n x hx
    obtain ⟨hn, -⟩ := List.getElem?_eq_some_iff.mp hx
    rw [hflat, List.getElem?_append_left hn, hx]
  refine ⟨fun k hkL _ n v => ⟨hfront n _, fun hn => ?_⟩, fun n x y hx hy => ?_⟩
  · by_cases hlt : n < (flat L).length
    · rw [hflat, List.getElem?_append_left hlt] at hn
      exact hn
    · -- a key of `L` has no value behind the values of `L`
      rw [hflat, List.getElem?_append_right (not_lt.mp hlt)] at hn
      obtain ⟨ws, hw, hv⟩ := mem_flat.mp (List.mem_of_getElem? hn)
      obtain ⟨vs, hvs⟩ := mem_keys.mp hkL
      have hwM : (k, ws) ∈ full M := hC ▸ List.mem_append_right _ hw
      obtain rfl := h.same k vs ws hvs (mem_full.mp hwM).1
      have hvL : (k, vs) ∈ full L := mem_full.mpr ⟨hvs, List.ne_nil_of_mem hv⟩
      have hasc := full_ascending hM
      rw [← hC] at hasc
      exact absurd rfl ((List.pairwise_append.mp hasc).2.2 _ hvL _ hw).ne
  · exact Option.some.inj ((hfront n x hx).symm.trans hy)

/-- **Positions agree iff common keys have the same blocks and the rest comes last.** -/
theorem agree_iff {L M : List (K × List V)} (hL : Ascending L) (hM : Ascending M) :
    Agree L M ↔ Compatible L M := by
  constructor
  · intro h
    obtain hp | hp := prefix_or_prefix h.2
    · exact h.compatible_of_prefix hL hM hp
    · exact (h.symm.compatible_of_prefix hM hL hp).symm
  · intro h
    obtain hp | hp := h.prefix hL hM
    · exact h.agree_of_prefix hM hp
    · exact (h.symm.agree_of_prefix hL hp).symm

end
end Blocks
