import Mathlib.Data.List.GetD
import Mathlib.Data.List.Nodup
import Mathlib.Data.List.Range
import Mathlib.Data.Nat.Notation

/-!
# Dealing from lists in turn

Row `k` has the members at place `k` of the lists that are long enough, in the order of the lists.
The rows are dealt one after the other, and a deal may be cut short anywhere.

* `deal`            the members, row after row
* `deal_perm`       every member is dealt once
* `turns`           the places that are dealt: a row, and a list
* `given`           how many members a list has given among the first ones
* `given_fair`      no list is ahead of another by more than the turn that is running
-/

namespace RoundRobin

section
variable {α : Type*}

def row (lists : List (List α)) (k : ℕ) : List α := lists.filterMap fun l => l[k]?

def deal (rows : ℕ) (lists : List (List α)) : List α := (List.range rows).flatMap (row lists)

theorem row_tail (lists : List (List α)) (k : ℕ) :
    row (lists.map List.tail) k = row lists (k + 1) := by
  unfold row
  rw [List.filterMap_map]
  congr 1
  funext l
  exact List.getElem?_tail

/-- the first row, and then the rows of the tails -/
theorem deal_succ (rows : ℕ) (lists : List (List α)) :
    deal (rows + 1) lists = row lists 0 ++ deal rows (lists.map List.tail) := by
  unfold deal
  rw [List.range_succ_eq_map, List.flatMap_cons, List.flatMap_map]
  congr 2
  funext k
  exact (row_tail lists k).symm

theorem row_eq_nil {lists : List (List α)} (h : ∀ l ∈ lists, l = []) (k : ℕ) :
    row lists k = [] := by
  rw [row, List.filterMap_eq_nil_iff]
  intro l hl
  rw [h l hl, List.getElem?_nil]

theorem deal_eq_nil {lists : List (List α)} (h : ∀ l ∈ lists, l = []) (rows : ℕ) :
    deal rows lists = [] := by
  rw [deal, List.flatMap_eq_nil_iff]
  exact fun k _ => row_eq_nil h k

theorem row_zero_perm (lists : List (List α)) :
    (row lists 0 ++ (lists.map List.tail).flatten).Perm lists.flatten := by
  induction lists with
  | nil => exact List.Perm.refl _
  | cons l ls ih =>
    cases l with
    | nil => exact ih
    | cons x l =>
      show (x :: (row ls 0 ++ (l ++ (ls.map List.tail).flatten))).Perm (x :: (l ++ ls.flatten))
      have hswap : (row ls 0 ++ (l ++ (ls.map List.tail).flatten)).Perm
          (l ++ (row ls 0 ++ (ls.map List.tail).flatten)) := by
        rw [← List.append_assoc, ← List.append_assoc]
        exact List.Perm.append_right _ List.perm_append_comm
      exact List.Perm.cons x (hswap.trans (List.Perm.append_left l ih))

/-- **Every member is dealt once.** -/
theorem deal_perm (rows : ℕ) (lists : List (List α)) (h : ∀ l ∈ lists, l.length ≤ rows) :
    (deal rows lists).Perm lists.flatten := by
  induction rows generalizing lists with
  | zero =>
    have hnil : ∀ l ∈ lists, l = [] := fun l hl => List.length_eq_zero_iff.mp (by
      have := h l hl
      omega)
    rw [deal_eq_nil hnil, List.flatten_eq_nil_iff.mpr hnil]
  | succ rows ih =>
    have htails : ∀ l ∈ lists.map List.tail, l.length ≤ rows := by
      intro l hl
      obtain ⟨l', hl', rfl⟩ := List.mem_map.mp hl
      have := h l' hl'
      rw [List.length_tail]
      omega
    rw [deal_succ]
    exact (List.Perm.append_left _ (ih _ htails)).trans (row_zero_perm lists)

/-! ## turns -/

/-- the lists that have a member in row `k` -/
def rowTurns (lists : List (List α)) (k : ℕ) : List (ℕ × ℕ) :=
  ((List.range lists.length).filter fun a => k < (lists.getD a []).length).map fun a => (k, a)

def turns (rows : ℕ) (lists : List (List α)) : List (ℕ × ℕ) :=
  (List.range rows).flatMap (rowTurns lists)

/-- an earlier row, or an earlier list in the same row -/
def Before (s t : ℕ × ℕ) : Prop := s.1 < t.1 ∨ s.1 = t.1 ∧ s.2 < t.2

theorem mem_turns {rows : ℕ} {lists : List (List α)} {k a : ℕ} :
    (k, a) ∈ turns rows lists ↔ k < rows ∧ k < (lists.getD a []).length := by
  unfold turns rowTurns
  rw [List.mem_flatMap]
  constructor
  · intro h
    obtain ⟨k', hk', hm⟩ := h
    obtain ⟨a', ha', he⟩ := List.mem_map.mp hm
    obtain ⟨rfl, rfl⟩ := Prod.mk.inj he
    exact ⟨List.mem_range.mp hk', of_decide_eq_true (List.mem_filter.mp ha').2⟩
  · intro h
    obtain ⟨hk, hlen⟩ := h
    have ha : a < lists.length := by
      by_contra hno
      rw [List.getD_eq_default _ _ (by omega)] at hlen
      exact absurd hlen (Nat.not_lt_zero k)
    refine ⟨k, List.mem_range.mpr hk, List.mem_map.mpr ⟨a, ?_, rfl⟩⟩
    exact List.mem_filter.mpr ⟨List.mem_range.mpr ha, decide_eq_true hlen⟩

theorem turns_sorted (rows : ℕ) (lists : List (List α)) :
    (turns rows lists).Pairwise Before := by
  unfold turns rowTurns
  rw [List.pairwise_flatMap]
  constructor
  · intro k _
    rw [List.pairwise_map]
    refine List.Pairwise.filter _ (List.pairwise_lt_range.imp ?_)
    exact fun hab => Or.inr ⟨rfl, hab⟩
  · refine List.pairwise_lt_range.imp ?_
    intro k k' hk s hs t ht
    obtain ⟨a, -, rfl⟩ := List.mem_map.mp hs
    obtain ⟨b, -, rfl⟩ := List.mem_map.mp ht
    exact Or.inl hk

/-- what comes before a turn that is taken is taken -/
theorem mem_take_of_before {ts : List (ℕ × ℕ)} (hts : ts.Pairwise Before) {m : ℕ} {s t : ℕ × ℕ}
    (ht : t ∈ ts.take m) (hs : s ∈ ts) (hst : Before s t) : s ∈ ts.take m := by
  rw [← List.take_append_drop m ts] at hts hs
  obtain hs | hs := List.mem_append.mp hs
  · exact hs
  · have hts' := (List.pairwise_append.mp hts).2.2 t ht s hs
    unfold Before at hst hts'
    omega

/-- the member of a turn -/
def member [Inhabited α] (lists : List (List α)) (t : ℕ × ℕ) : α :=
  (lists.getD t.2 []).getD t.1 default

theorem filterMap_eq_map_filter {β γ : Type*} {f : β → Option γ} {p : β → Bool} {g : β → γ}
    (h : ∀ b, f b = if p b then some (g b) else none) (bs : List β) :
    bs.filterMap f = (bs.filter p).map g := by
  induction bs with
  | nil => rfl
  | cons b bs ih =>
    rw [List.filterMap_cons, h, List.filter_cons]
    cases p b with
    | true =>
      show g b :: bs.filterMap f = g b :: (bs.filter p).map g
      rw [ih]
    | false => exact ih

theorem row_eq [Inhabited α] (lists : List (List α)) (k : ℕ) :
    row lists k = (rowTurns lists k).map (member lists) := by
  have hlists : lists = (List.range lists.length).map fun a => lists.getD a [] := by
    refine List.ext_getElem (by simp) fun a h1 h2 => ?_
    rw [List.getElem_map, List.getElem_range, List.getD_eq_getElem _ _ h1]
  unfold row rowTurns
  rw [List.map_map]
  conv_lhs => rw [hlists]
  rw [List.filterMap_map]
  refine filterMap_eq_map_filter (fun a => ?_) _
  show (lists.getD a [])[k]? = _
  by_cases h : k < (lists.getD a []).length
  · rw [if_pos (decide_eq_true h), List.getElem?_eq_getElem h]
    show some _ = some ((lists.getD a []).getD k default)
    rw [List.getD_eq_getElem _ _ h]
  · rw [if_neg (by simpa using h), List.getElem?_eq_none (by omega)]

theorem deal_eq [Inhabited α] (rows : ℕ) (lists : List (List α)) :
    deal rows lists = (turns rows lists).map (member lists) := by
  unfold deal turns
  rw [List.map_flatMap]
  congr 1
  funext k
  exact row_eq lists k

/-! ## what the lists have given -/

/-- how many members the list `a` gives in the first `m` turns -/
def given (rows : ℕ) (lists : List (List α)) (m a : ℕ) : ℕ :=
  ((turns rows lists).take m).countP fun t => t.2 = a

/-- an ascending list of numbers that has all numbers below its members -/
theorem mem_iff_lt_length {ks : List ℕ} (hs : ks.Pairwise (· < ·))
    (hdown : ∀ k ∈ ks, ∀ j < k, j ∈ ks) (k : ℕ) : k ∈ ks ↔ k < ks.length := by
  have key : ks = List.range ks.length := by
    induction ks using List.reverseRecOn with
    | nil => rfl
    | append_singleton ks x ih =>
      obtain ⟨hks, -, hlt⟩ := List.pairwise_append.mp hs
      have hx : ∀ j ∈ ks, j < x := fun j hj => hlt j hj x List.mem_cons_self
      have hdown' : ∀ k ∈ ks, ∀ j < k, j ∈ ks := by
        intro k hk j hj
        obtain h | h := List.mem_append.mp (hdown k (List.mem_append_left _ hk) j hj)
        · exact h
        · have := List.mem_singleton.mp h
          have := hx k hk
          omega
      have hrange := ih hks hdown'
      -- the last member is the first number that is not there
      have hle : ks.length ≤ x := by
        by_contra hno
        have hmem : x ∈ ks := by
          rw [hrange]
          exact List.mem_range.mpr (by omega)
        exact lt_irrefl x (hx x hmem)
      have hge : x ≤ ks.length := by
        by_contra hno
        obtain h | h := List.mem_append.mp
          (hdown x (List.mem_append_right _ List.mem_cons_self) ks.length (by omega))
        · rw [hrange] at h
          have := List.mem_range.mp h
          rw [List.length_range] at this
          omega
        · have := List.mem_singleton.mp h
          omega
      rw [List.length_append, List.length_singleton, List.range_succ, ← hrange,
        show x = ks.length by omega]
  rw [key, List.mem_range, List.length_range]

theorem lt_given_iff {rows : ℕ} {lists : List (List α)} {m a k : ℕ} :
    k < given rows lists m a ↔ (k, a) ∈ (turns rows lists).take m := by
  let ks : List ℕ := (((turns rows lists).take m).filter fun t => t.2 = a).map Prod.fst
  have hmem : ∀ k, k ∈ ks ↔ (k, a) ∈ (turns rows lists).take m := by
    intro k
    constructor
    · intro h
      obtain ⟨⟨k', a'⟩, ht, rfl⟩ := List.mem_map.mp h
      obtain ⟨htake, ha⟩ := List.mem_filter.mp ht
      obtain rfl := of_decide_eq_true ha
      exact htake
    · intro h
      exact List.mem_map.mpr ⟨(k, a), List.mem_filter.mpr ⟨h, decide_eq_true rfl⟩, rfl⟩
  have hsorted : ks.Pairwise (· < ·) := by
    rw [List.pairwise_map]
    refine List.Pairwise.imp_of_mem ?_
      (((turns_sorted rows lists).sublist (List.take_sublist m _)).filter _)
    intro s t hs ht hst
    have h1 := of_decide_eq_true (List.mem_filter.mp hs).2
    have h2 := of_decide_eq_true (List.mem_filter.mp ht).2
    unfold Before at hst
    omega
  have hdown : ∀ k ∈ ks, ∀ j < k, j ∈ ks := by
    intro k hk j hj
    rw [hmem] at hk ⊢
    obtain ⟨h1, h2⟩ := mem_turns.mp (List.mem_of_mem_take hk)
    exact mem_take_of_before (turns_sorted rows lists) hk (mem_turns.mpr (by omega)) (Or.inl hj)
  rw [← hmem, mem_iff_lt_length hsorted hdown, given, List.countP_eq_length_filter,
    List.length_map]

/-- **Dealing is fair:** when a list has given its member `k`, every other list that has one has
given its own, or the deal has not come to its turn in this row. -/
theorem given_fair {rows : ℕ} {lists : List (List α)} {m a b k : ℕ}
    (ha : k < given rows lists m a) (hb : k < (lists.getD b []).length) :
    k < given rows lists m b ∨
      a < b ∧ given rows lists m b = k ∧ given rows lists m a = k + 1 ∧
        m < (turns rows lists).length := by
  have hat := lt_given_iff.mp ha
  have hsorted := turns_sorted rows lists
  obtain ⟨hk, -⟩ := mem_turns.mp (List.mem_of_mem_take hat)
  have hbt : (k, b) ∈ turns rows lists := mem_turns.mpr ⟨hk, hb⟩
  by_cases h : k < given rows lists m b
  · exact Or.inl h
  · right
    have hout : (k, b) ∉ (turns rows lists).take m := fun hin => h (lt_given_iff.mpr hin)
    have hlt : a < b := by
      by_contra hno
      obtain rfl | hba := Nat.eq_or_lt_of_le (Nat.le_of_not_lt hno)
      · exact h ha
      · exact hout (mem_take_of_before hsorted hat hbt (Or.inr ⟨rfl, hba⟩))
    have hbk : given rows lists m b = k := by
      by_contra hno
      have hpre : ¬ k - 1 < given rows lists m b := by omega
      refine hpre (lt_given_iff.mpr ?_)
      exact mem_take_of_before hsorted hat (mem_turns.mpr (by omega))
        (Or.inl (show k - 1 < k by omega))
    have hak : given rows lists m a = k + 1 := by
      by_contra hno
      have hnext : k + 1 < given rows lists m a := by omega
      exact hout (mem_take_of_before hsorted (lt_given_iff.mp hnext) hbt
        (Or.inl (Nat.lt_succ_self k)))
    refine ⟨hlt, hbk, hak, ?_⟩
    by_contra hno
    rw [List.take_of_length_le (by omega)] at hout
    exact hout hbt

/-- the members that are dealt from a list, when no member is in two lists -/
theorem countP_deal [Inhabited α] [DecidableEq α] {rows : ℕ} {lists : List (List α)}
    (hnodup : lists.flatten.Nodup) (m a : ℕ) :
    ((deal rows lists).take m).countP (fun x => x ∈ lists.getD a []) = given rows lists m a := by
  obtain ⟨-, hdisj⟩ := List.nodup_flatten.mp hnodup
  rw [deal_eq, ← List.map_take, List.countP_map, given]
  refine List.countP_congr fun t ht => ?_
  obtain ⟨k, b⟩ := t
  obtain ⟨-, hk⟩ := mem_turns.mp (List.mem_of_mem_take ht)
  have hmem : member lists (k, b) ∈ lists.getD b [] := by
    show (lists.getD b []).getD k default ∈ lists.getD b []
    rw [List.getD_eq_getElem _ _ hk]
    exact List.getElem_mem hk
  show decide (member lists (k, b) ∈ lists.getD a []) = true ↔ decide (b = a) = true
  rw [decide_eq_true_iff, decide_eq_true_iff]
  constructor
  · intro h
    have hb : b < lists.length := by
      by_contra hno
      rw [List.getD_eq_default _ _ (by omega)] at hk
      exact absurd hk (Nat.not_lt_zero k)
    have ha : a < lists.length := by
      by_contra hno
      rw [List.getD_eq_default _ _ (by omega)] at h
      exact absurd h List.not_mem_nil
    rw [List.getD_eq_getElem _ _ hb] at hmem
    rw [List.getD_eq_getElem _ _ ha] at h
    by_contra hne
    obtain hlt | hlt := Nat.lt_or_gt_of_ne hne
    · exact List.pairwise_iff_getElem.mp hdisj b a hb ha hlt hmem h
    · exact List.pairwise_iff_getElem.mp hdisj a b ha hb hlt h hmem
  · rintro rfl
    exact hmem

end

end RoundRobin
