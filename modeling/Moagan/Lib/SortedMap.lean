import Mathlib.Order.Lattice

/-!
# Maps that iterate in the order of their keys

`SortedMap K V` is a list of entries with strictly ascending keys, so that every key has one entry
and the iteration is determined by the lookups.

* `insert`, `orInsert`   an entry of its own for the key; the old one is replaced, or kept
* `get?_insert`          what a lookup finds behind an insertion
* `get?_eq_some_iff`     a lookup finds the entries
* `remove`               all entries but the one of the key
* `foldl_entries`        what a loop over the entries leaves at a key
-/

structure SortedMap (K V : Type*) [LinearOrder K] where
  entries : List (K × V)
  sorted : entries.Pairwise fun a b => a.1 < b.1

namespace SortedMap

section
variable {K V : Type*} [LinearOrder K]

def empty : SortedMap K V := ⟨[], List.Pairwise.nil⟩

def insertEntry (k : K) (v : V) : List (K × V) → List (K × V)
  | [] => [(k, v)]
  | e :: es =>
    if k < e.1 then (k, v) :: e :: es
    else if k = e.1 then (k, v) :: es
    else e :: insertEntry k v es

theorem mem_insertEntry {k : K} {v : V} {es : List (K × V)} {x : K × V}
    (h : es.Pairwise fun a b => a.1 < b.1) :
    x ∈ insertEntry k v es ↔ x = (k, v) ∨ (x ∈ es ∧ x.1 ≠ k) := by
  induction es with
  | nil => simp [insertEntry]
  | cons e es ih =>
    obtain ⟨hlt, hs⟩ := List.pairwise_cons.mp h
    unfold insertEntry
    split_ifs with h1 h2
    · -- in front of all: no entry has the key
      have hne : ∀ y ∈ e :: es, y.1 ≠ k := by
        intro y hy
        obtain rfl | hy := List.mem_cons.mp hy
        · exact h1.ne'
        · exact (h1.trans (hlt y hy)).ne'
      rw [List.mem_cons]
      exact or_congr_right ⟨fun hx => ⟨hx, hne x hx⟩, fun hx => hx.1⟩
    · -- in place of the first entry
      have hne : ∀ y ∈ es, y.1 ≠ k := fun y hy => h2 ▸ (hlt y hy).ne'
      rw [List.mem_cons, List.mem_cons]
      refine or_congr_right ⟨fun hx => ⟨Or.inr hx, hne x hx⟩, fun hx => ?_⟩
      obtain ⟨rfl | hx, hk⟩ := hx
      · exact absurd h2.symm hk
      · exact hx
    · rw [List.mem_cons, ih hs, List.mem_cons]
      constructor
      · intro hx
        obtain rfl | rfl | ⟨hx, hk⟩ := hx
        · exact Or.inr ⟨Or.inl rfl, fun hk => h2 hk.symm⟩
        · exact Or.inl rfl
        · exact Or.inr ⟨Or.inr hx, hk⟩
      · intro hx
        obtain rfl | ⟨rfl | hx, hk⟩ := hx
        · exact Or.inr (Or.inl rfl)
        · exact Or.inl rfl
        · exact Or.inr (Or.inr ⟨hx, hk⟩)

theorem insertEntry_sorted {k : K} {v : V} {es : List (K × V)}
    (h : es.Pairwise fun a b => a.1 < b.1) :
    (insertEntry k v es).Pairwise fun a b => a.1 < b.1 := by
  induction es with
  | nil => exact List.pairwise_singleton _ _
  | cons e es ih =>
    obtain ⟨hlt, hs⟩ := List.pairwise_cons.mp h
    unfold insertEntry
    split_ifs with h1 h2
    · refine List.pairwise_cons.mpr ⟨fun y hy => ?_, h⟩
      obtain rfl | hy := List.mem_cons.mp hy
      · exact h1
      · exact h1.trans (hlt y hy)
    · exact List.pairwise_cons.mpr ⟨fun y hy => h2 ▸ hlt y hy, hs⟩
    · refine List.pairwise_cons.mpr ⟨fun y hy => ?_, ih hs⟩
      obtain rfl | ⟨hy, -⟩ := (mem_insertEntry hs).mp hy
      · exact lt_of_le_of_ne (not_lt.mp h1) (Ne.symm h2)
      · exact hlt y hy

def insert (m : SortedMap K V) (k : K) (v : V) : SortedMap K V :=
  ⟨insertEntry k v m.entries, insertEntry_sorted m.sorted⟩

def get? (m : SortedMap K V) (k : K) : Option V :=
  (m.entries.find? fun e => e.1 = k).map Prod.snd

/-- `entry(k).or_insert(v)` -/
def orInsert (m : SortedMap K V) (k : K) (v : V) : SortedMap K V :=
  if (m.get? k).isSome then m else m.insert k v

/-- a key has one entry -/
theorem entry_inj {es : List (K × V)} (h : es.Pairwise fun a b => a.1 < b.1) {x y : K × V}
    (hx : x ∈ es) (hy : y ∈ es) (hk : x.1 = y.1) : x = y := by
  induction es with
  | nil => exact absurd hx List.not_mem_nil
  | cons e es ih =>
    obtain ⟨hlt, hs⟩ := List.pairwise_cons.mp h
    obtain rfl | hx' := List.mem_cons.mp hx
    · obtain rfl | hy' := List.mem_cons.mp hy
      · rfl
      · exact absurd hk (hlt y hy').ne
    · obtain rfl | hy' := List.mem_cons.mp hy
      · exact absurd hk (hlt x hx').ne'
      · exact ih hs hx' hy'

theorem get?_eq_some_iff {m : SortedMap K V} {k : K} {v : V} :
    m.get? k = some v ↔ (k, v) ∈ m.entries := by
  unfold get?
  constructor
  · intro h
    obtain ⟨e, he, rfl⟩ := Option.map_eq_some_iff.mp h
    have hk : e.1 = k := by simpa using List.find?_some he
    rw [← hk]
    exact List.mem_of_find?_eq_some he
  · intro h
    cases hf : m.entries.find? fun e => e.1 = k with
    | none =>
      have := List.find?_eq_none.mp hf (k, v) h
      simp at this
    | some e =>
      have hk : e.1 = k := by simpa using List.find?_some hf
      rw [Option.map_some, entry_inj m.sorted (List.mem_of_find?_eq_some hf) h hk]

theorem get?_insert (m : SortedMap K V) (k q : K) (v : V) :
    (m.insert k v).get? q = if q = k then some v else m.get? q := by
  apply Option.ext
  intro w
  rw [get?_eq_some_iff, insert, mem_insertEntry m.sorted]
  by_cases hq : q = k
  · rw [if_pos hq, hq]
    simp [eq_comm]
  · rw [if_neg hq, get?_eq_some_iff]
    simp [hq]

theorem get?_orInsert (m : SortedMap K V) (k q : K) (v : V) :
    (m.orInsert k v).get? q = if q = k then some ((m.get? k).getD v) else m.get? q := by
  unfold orInsert
  cases hk : m.get? k with
  | none => exact get?_insert m k q v
  | some w =>
    by_cases hq : q = k
    · rw [if_pos hq, hq]
      exact hk
    · rw [if_neg hq]
      rfl

def remove (m : SortedMap K V) (k : K) : SortedMap K V :=
  ⟨m.entries.filter fun e => e.1 ≠ k, m.sorted.filter _⟩

theorem get?_remove (m : SortedMap K V) (k q : K) :
    (m.remove k).get? q = if q = k then none else m.get? q := by
  apply Option.ext
  intro w
  rw [get?_eq_some_iff, remove, List.mem_filter]
  by_cases hq : q = k
  · simp [hq]
  · rw [if_neg hq, get?_eq_some_iff]
    simp [hq]

/-- **A loop over the entries, read at one key.**  Where a round touches only the key of its entry,
the loop leaves at a key what the round of its one entry makes of it. -/
theorem foldl_entries {M W : Type*} (look : M → K → W) (round : M → K × V → M) (g : W → V → W)
    (hround : ∀ d k v q, look (round d (k, v)) q = if q = k then g (look d k) v else look d q)
    (m : SortedMap K V) (d : M) (q : K) :
    look (m.entries.foldl round d) q = (m.get? q).elim (look d q) (g (look d q)) := by
  obtain ⟨es, hs⟩ := m
  unfold get?
  induction es generalizing d with
  | nil => rfl
  | cons e es ih =>
    obtain ⟨k, v⟩ := e
    obtain ⟨hlt, hs'⟩ := List.pairwise_cons.mp hs
    rw [List.foldl_cons, ih _ hs', hround]
    by_cases hk : k = q
    · subst hk
      have hnone : es.find? (fun e => decide (e.1 = k)) = none := by
        rw [List.find?_eq_none]
        intro x hx
        have hne : x.1 ≠ k := (hlt x hx).ne'
        simpa using hne
      rw [if_pos rfl, List.find?_cons_of_pos (by simp)]
      show Option.elim (Option.map Prod.snd (es.find? fun e => decide (e.1 = k))) _ _ = _
      rw [hnone]
      rfl
    · rw [if_neg (Ne.symm hk), List.find?_cons_of_neg (by simpa using hk)]

end

end SortedMap
