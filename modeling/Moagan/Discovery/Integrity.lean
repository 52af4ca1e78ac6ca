import Mathlib.Data.List.Induction
import Mathlib.Data.List.Nodup
import Mathlib.Data.List.Perm.Basic
import Moagan.Discovery.Curation

/-!
# The curated catalogue lists every thesis once

* `buildCatalog_ids`       the catalogue lists the theses
* `validate_of_perm`       a catalogue that lists the theses once is valid
* `joined_groups`          a duplicate set stays inside one group
* `normalise_kept`         a folded duplicate points at a thesis that is not folded itself
* `applyCuration_ids`      a curation keeps the ids of a cell
* `catalog_integrity`      all of it, for any answers
-/

namespace Moagan.Discovery

theorem sortIds_perm (ids : List String) : (sortIds ids).Perm ids := List.perm_insertionSort _ _

theorem perm_of_sortIds {xs ys : List String} (h : sortIds xs = sortIds ys) : xs.Perm ys :=
  (sortIds_perm xs).symm.trans (h ▸ sortIds_perm ys)

def Catalog.ids (c : Catalog) : List String := c.cells.flatMap fun cell => listedIds cell.groups

theorem map_members (c : Catalog) : c.members.map Member.thesisId = c.ids := by
  simp only [Catalog.members, Catalog.ids, listedIds, List.map_flatMap]
  rfl

/-! ## the catalogue before any curation -/

section
variable {F : Type}

/-- every index is a cell, and no cell has a group yet -/
structure Frame.Empty (s : Frame) : Prop where
  index : ∀ key i, s.indexOf.get? key = some i → i < s.cells.length
  groups : ∀ cell ∈ s.cells, cell.groups = []

theorem addCell_empty {descriptions : List DimensionFacetDescription} {dimension : Dimension}
    {s : Frame} (h : s.Empty) (facet : Facet) : (addCell descriptions dimension s facet).Empty := by
  constructor
  · intro key i hi
    show i < (s.cells ++ [_]).length
    rw [List.length_append, List.length_singleton]
    rw [addCell, SortedMap.get?_orInsert] at hi
    split_ifs at hi with hk
    · cases hg : s.indexOf.get? (dimension.id ++ ":" ++ facet.id) with
      | none =>
        rw [hg, Option.getD_none] at hi
        have := Option.some.inj hi
        omega
      | some j =>
        rw [hg, Option.getD_some] at hi
        have := h.index _ _ hg
        have := Option.some.inj hi
        omega
    · have := h.index _ _ hi
      omega
  · intro cell hc
    obtain hc | hc := List.mem_append.mp hc
    · exact h.groups cell hc
    · rw [List.mem_singleton.mp hc]

/-- the frame takes the cells one by one -/
theorem frame_eq (matrix : ExplorationMatrix F) (descriptions : List DimensionFacetDescription) :
    frame matrix descriptions = (matrix.dimensions.flatMap fun d => d.facets.map (d, ·)).foldl
      (fun s p => addCell descriptions p.1 s p.2) ⟨[], SortedMap.empty⟩ := by
  rw [List.foldl_flatMap, frame]
  simp only [List.foldl_map]

theorem frame_empty (matrix : ExplorationMatrix F)
    (descriptions : List DimensionFacetDescription) : (frame matrix descriptions).Empty := by
  have cells : ∀ (pairs : List (Dimension × Facet)) (s : Frame), s.Empty →
      (pairs.foldl (fun s p => addCell descriptions p.1 s p.2) s).Empty := by
    intro pairs
    induction pairs with
    | nil => exact fun s h => h
    | cons p pairs ih => exact fun s h => ih _ (addCell_empty h p.2)
  rw [frame_eq]
  refine cells _ _ ⟨fun key i hi => ?_, fun cell hc => absurd hc List.not_mem_nil⟩
  cases hi

theorem modify_append_flatten {α : Type} (x : α) (L : List (List α)) (i : ℕ) (hi : i < L.length) :
    (L.modify i (· ++ [x])).flatten.Perm (L.flatten ++ [x]) := by
  induction L generalizing i with
  | nil => exact absurd hi (Nat.not_lt_zero i)
  | cons l L ih =>
    cases i with
    | zero =>
      rw [List.modify_zero_cons, List.flatten_cons, List.flatten_cons, List.append_assoc,
        List.append_assoc]
      exact List.Perm.append_left _ List.perm_append_comm
    | succ i =>
      rw [List.modify_succ_cons, List.flatten_cons, List.flatten_cons, List.append_assoc]
      exact List.Perm.append_left _ (ih i (by simpa using hi))

def Placed.ids (s : Placed) : List String := s.membersOf.flatten ++ s.outside

theorem place_ids {indexOf : SortedMap String ℕ} {s : Placed} (thesis : Thesis)
    (h : ∀ key i, indexOf.get? key = some i → i < s.membersOf.length) :
    (place indexOf s thesis).ids.Perm (s.ids ++ [thesis.id]) ∧
      (place indexOf s thesis).membersOf.length = s.membersOf.length := by
  unfold place
  cases hi : indexOf.get? thesis.angle with
  | none => exact ⟨by simp [Placed.ids], rfl⟩
  | some i =>
    refine ⟨?_, List.length_modify ..⟩
    have := modify_append_flatten thesis.id s.membersOf i (h _ _ hi)
    refine (this.append_right s.outside).trans ?_
    rw [Placed.ids, List.append_assoc, List.append_assoc]
    exact List.Perm.append_left _ List.perm_append_comm

/-- **Placing loses no thesis.** -/
theorem foldl_place_ids {indexOf : SortedMap String ℕ} (theses : List Thesis) (s : Placed)
    (h : ∀ key i, indexOf.get? key = some i → i < s.membersOf.length) :
    (theses.foldl (place indexOf) s).ids.Perm (s.ids ++ theses.map Thesis.id) ∧
      (theses.foldl (place indexOf) s).membersOf.length = s.membersOf.length := by
  induction theses generalizing s with
  | nil => exact ⟨by simp, rfl⟩
  | cons t ts ih =>
    obtain ⟨h1, h2⟩ := place_ids t h
    obtain ⟨h3, h4⟩ := ih (place indexOf s t) (by rwa [h2])
    refine ⟨h3.trans ?_, h4.trans h2⟩
    rw [List.map_cons, List.append_cons]
    exact h1.append_right _

theorem listedIds_fill {cell : CellEntry} (h : cell.groups = []) (ids : List String) :
    (listedIds (fill cell ids).groups).Perm ids := by
  unfold fill
  split_ifs with he
  · rw [h, he]
    exact List.Perm.refl _
  · rw [h]
    simp only [List.nil_append, listedIds, List.flatMap_cons, List.flatMap_nil, List.append_nil,
      Group.ids, List.map_map]
    exact (List.map_id _).symm ▸ sortIds_perm ids

theorem zipWith_fill_ids (cells : List CellEntry) (lists : List (List String))
    (hlen : cells.length = lists.length) (h : ∀ cell ∈ cells, cell.groups = []) :
    (Catalog.ids ⟨cells.zipWith fill lists⟩).Perm lists.flatten := by
  induction cells generalizing lists with
  | nil =>
    obtain rfl : lists = [] := List.length_eq_zero_iff.mp hlen.symm
    exact List.Perm.refl _
  | cons cell cells ih =>
    cases lists with
    | nil => cases hlen
    | cons l ls =>
      rw [Catalog.ids, List.zipWith_cons_cons, List.flatMap_cons, List.flatten_cons]
      exact (listedIds_fill (h cell List.mem_cons_self) l).append
        (ih ls (Nat.succ.inj hlen) fun c hc => h c (List.mem_cons_of_mem _ hc))

theorem fill_plain {cell : CellEntry} (h : cell.groups = []) (ids : List String) :
    ∀ g ∈ (fill cell ids).groups, ∀ m ∈ g.members, m.duplicateOf = none := by
  intro g hg m hm
  unfold fill at hg
  split_ifs at hg with he
  · rw [h] at hg
    exact absurd hg List.not_mem_nil
  · rw [h, List.nil_append] at hg
    obtain rfl := List.mem_singleton.mp hg
    obtain ⟨id, -, rfl⟩ := List.mem_map.mp hm
    rfl

theorem mem_zipWith_fill {cells : List CellEntry} {lists : List (List String)} {cell : CellEntry}
    (h : cell ∈ cells.zipWith fill lists) : ∃ c ∈ cells, ∃ ids, cell = fill c ids := by
  rw [← List.map_uncurry_zip_eq_zipWith] at h
  obtain ⟨⟨c, ids⟩, hc, rfl⟩ := List.mem_map.mp h
  exact ⟨c, (List.of_mem_zip hc).1, ids, rfl⟩

/-- **The catalogue lists the theses.** -/
theorem buildCatalog_ids (matrix : ExplorationMatrix F)
    (descriptions : List DimensionFacetDescription) (theses : List Thesis) :
    (buildCatalog matrix descriptions theses).ids.Perm (theses.map Thesis.id) := by
  have hframe := frame_empty matrix descriptions
  have hnil : (⟨(frame matrix descriptions).cells.map fun _ => [], []⟩ : Placed).ids = [] := by
    simp [Placed.ids]
  obtain ⟨h1, h2⟩ := foldl_place_ids theses
    ⟨(frame matrix descriptions).cells.map fun _ => [], []⟩
    (fun key i hi => by simpa using hframe.index key i hi)
  rw [hnil, List.nil_append] at h1
  rw [List.length_map] at h2
  unfold buildCatalog
  dsimp only
  split_ifs with ho
  · refine (zipWith_fill_ids _ _ h2.symm hframe.groups).trans ?_
    rw [Placed.ids, ho, List.append_nil] at h1
    exact h1
  · refine (zipWith_fill_ids _ _ (by rw [List.length_append, List.length_append, h2]; rfl) ?_).trans ?_
    · intro cell hc
      obtain hc | hc := List.mem_append.mp hc
      · exact hframe.groups cell hc
      · rw [List.mem_singleton.mp hc]
        rfl
    · rw [List.flatten_append, List.flatten_singleton]
      exact h1

/-- no thesis is folded before the curation -/
theorem buildCatalog_plain (matrix : ExplorationMatrix F)
    (descriptions : List DimensionFacetDescription) (theses : List Thesis) :
    ∀ cell ∈ (buildCatalog matrix descriptions theses).cells, ∀ g ∈ cell.groups,
      ∀ m ∈ g.members, m.duplicateOf = none := by
  have hframe := frame_empty matrix descriptions
  intro cell hc
  unfold buildCatalog at hc
  dsimp only at hc
  split_ifs at hc
  · obtain ⟨c, hmem, ids, rfl⟩ := mem_zipWith_fill hc
    exact fill_plain (hframe.groups c hmem) ids
  · obtain ⟨c, hmem, ids, rfl⟩ := mem_zipWith_fill hc
    obtain hmem | hmem := List.mem_append.mp hmem
    · exact fill_plain (hframe.groups c hmem) ids
    · rw [List.mem_singleton.mp hmem]
      exact fill_plain rfl ids

end

/-! ## validity -/

theorem validate_of_perm {c : Catalog} {theses : List Thesis}
    (h : c.ids.Perm (theses.map Thesis.id)) (hn : (theses.map Thesis.id).Nodup) :
    c.validate theses = .ok () := by
  have h1 : theses.findSome? c.checkThesis = none := by
    rw [List.findSome?_eq_none_iff]
    intro t ht
    have hcount : c.count t.id = 1 := by
      rw [Catalog.count, map_members, h.count_eq]
      exact List.count_eq_one_of_mem hn (List.mem_map_of_mem ht)
    unfold Catalog.checkThesis
    rw [hcount]
    rfl
  have h2 : c.members.findSome? (checkMember theses) = none := by
    rw [List.findSome?_eq_none_iff]
    intro m hm
    have : m.thesisId ∈ theses.map Thesis.id := by
      rw [← h.mem_iff, ← map_members]
      exact List.mem_map_of_mem hm
    unfold checkMember
    rw [if_pos (by simpa using this)]
  unfold Catalog.validate
  rw [h1, h2]

/-- an element of a joined list without repetitions comes from one place -/
theorem existsUnique_place {α β : Type} {f : α → List β} {L : List α} {x : β}
    (hn : (L.flatMap f).Nodup) (hx : x ∈ L.flatMap f) :
    ∃! i : ℕ, ∃ a, L[i]? = some a ∧ x ∈ f a := by
  induction L with
  | nil => exact absurd hx List.not_mem_nil
  | cons l L ih =>
    rw [List.flatMap_cons] at hn hx
    obtain ⟨-, h2, h3⟩ := List.nodup_append.mp hn
    obtain hl | hL := List.mem_append.mp hx
    · refine ⟨0, ⟨l, rfl, hl⟩, ?_⟩
      intro i hi
      obtain ⟨a, ha, hxa⟩ := hi
      cases i with
      | zero => rfl
      | succ i =>
        have : x ∈ L.flatMap f := List.mem_flatMap.mpr ⟨a, List.mem_of_getElem? ha, hxa⟩
        exact absurd rfl (h3 x hl x this)
    · obtain ⟨i, ⟨a, ha, hxa⟩, huniq⟩ := ih h2 hL
      refine ⟨i + 1, ⟨a, ha, hxa⟩, ?_⟩
      intro j hj
      obtain ⟨b, hb, hxb⟩ := hj
      cases j with
      | zero =>
        obtain rfl := Option.some.inj hb
        exact absurd rfl (h3 x hxb x hL)
      | succ j => rw [huniq j ⟨b, hb, hxb⟩]

/-- group `j` of cell `i` lists `id` -/
def Catalog.Lists (c : Catalog) (i j : ℕ) (id : String) : Prop :=
  ∃ cell, c.cells[i]? = some cell ∧ ∃ g, cell.groups[j]? = some g ∧ id ∈ g.ids

/-- **A thesis that is listed once is in one group of one cell.** -/
theorem existsUnique_lists {c : Catalog} (hn : c.ids.Nodup) {id : String} (hid : id ∈ c.ids) :
    ∃! p : ℕ × ℕ, c.Lists p.1 p.2 id := by
  obtain ⟨i, ⟨cell, hcell, hic⟩, hi⟩ := existsUnique_place hn hid
  have hcn : (listedIds cell.groups).Nodup := by
    have hsub := List.pairwise_flatMap.mp hn
    exact hsub.1 cell (List.mem_of_getElem? hcell)
  obtain ⟨j, ⟨g, hg, hjg⟩, hj⟩ := existsUnique_place hcn hic
  refine ⟨(i, j), ⟨cell, hcell, g, hg, hjg⟩, ?_⟩
  rintro ⟨i', j'⟩ ⟨cell', hcell', g', hg', hjg'⟩
  have hic' : id ∈ listedIds cell'.groups :=
    List.mem_flatMap.mpr ⟨g', List.mem_of_getElem? hg', hjg'⟩
  obtain rfl := hi i' ⟨cell', hcell', hic'⟩
  obtain rfl := Option.some.inj (hcell.symm.trans hcell')
  rw [hj j' ⟨g', hg', hjg'⟩]

/-! ## duplicate sets -/

/-- the groups of a forest: an element has the group of its root -/
def Groups (forest : Forest) (groupOf : ℕ → Option ℕ) : Prop :=
  ∀ k, groupOf (forest.root k) = groupOf k

theorem joinPair_groups {len : ℕ} {groupOf : ℕ → Option ℕ} {s : Forest × ℕ}
    (h : Groups s.1 groupOf) (entry : Value) : Groups (joinPair len groupOf s entry).1 groupOf := by
  unfold joinPair
  cases pairOfEntry entry len with
  | none => exact h
  | some p =>
    dsimp only
    split_ifs with hg
    · intro k
      rw [Forest.union_root]
      split_ifs with hk
      · -- `k` is in the tree of `n` or of `m`, and both are in one group
        have hnm : groupOf (s.1.root p.1) = groupOf (s.1.root p.2) := by rw [h, h, hg.2]
        have hmin : groupOf (min (s.1.root p.1) (s.1.root p.2)) = groupOf (s.1.root p.1) := by
          obtain e | e := min_choice (s.1.root p.1) (s.1.root p.2)
          · rw [e]
          · rw [e, hnm]
        have hmax : groupOf (max (s.1.root p.1) (s.1.root p.2)) = groupOf (s.1.root p.1) := by
          obtain e | e := max_choice (s.1.root p.1) (s.1.root p.2)
          · rw [e]
          · rw [e, hnm]
        rw [hmin, ← hmax, ← hk, h]
      · exact h k
    · exact h

theorem joined_groups (ids : List String) (raw : RawCuration) :
    Groups (joined ids raw).1 (assigned ids raw).groupOf := by
  have key : ∀ (entries : List Value) (s : Forest × ℕ), Groups s.1 (assigned ids raw).groupOf →
      Groups (entries.foldl (joinPair ids.length (assigned ids raw).groupOf) s).1
        (assigned ids raw).groupOf := by
    intro entries
    induction entries with
    | nil => exact fun s h => h
    | cons e es ih => exact fun s h => ih _ (joinPair_groups h e)
  refine key _ _ fun k => ?_
  rw [show Forest.init.root k = k from Forest.root_of_fixed rfl]

theorem mem_duplicateSets {len : ℕ} {forest : Forest} {set : List ℕ}
    (h : set ∈ duplicateSets len forest) : ∃ r, set = forest.under (List.range len) r :=
  (Forest.mem_trees.mp (List.mem_of_mem_filter h)).2

theorem set_in_group {ids : List String} {raw : RawCuration} {set : List ℕ} {g : ℕ}
    (hset : set ∈ duplicateSets ids.length (joined ids raw).1)
    (hg : set.head?.bind (assigned ids raw).groupOf = some g) {n : ℕ} (hn : n ∈ set) :
    n ∈ inGroup ids.length (assigned ids raw).groupOf (some g) := by
  obtain ⟨r, rfl⟩ := mem_duplicateSets hset
  have hgroups := joined_groups ids raw
  obtain ⟨k, hk, hkg⟩ := Option.bind_eq_some_iff.mp hg
  obtain ⟨-, hkr⟩ := List.mem_filter.mp (List.mem_of_head? hk)
  obtain ⟨hlt, hnr⟩ := List.mem_filter.mp hn
  refine List.mem_filter.mpr ⟨hlt, decide_eq_true ?_⟩
  rw [← hgroups n, of_decide_eq_true hnr, ← of_decide_eq_true hkr, hgroups k, hkg]

theorem set_eq_of_mem {len : ℕ} {forest : Forest} {set set' : List ℕ}
    (h : set ∈ duplicateSets len forest) (h' : set' ∈ duplicateSets len forest) {n : ℕ}
    (hn : n ∈ set) (hn' : n ∈ set') : set = set' := by
  obtain ⟨r, rfl⟩ := mem_duplicateSets h
  obtain ⟨r', rfl⟩ := mem_duplicateSets h'
  have h1 := of_decide_eq_true (List.mem_filter.mp hn).2
  have h2 := of_decide_eq_true (List.mem_filter.mp hn').2
  rw [← h1, h2]

/-! ## one group -/

/-- the representative of a group that is made -/
def madeRepresentative (ids : List String) (members : List ℕ) (wanted : Option ℕ) : String :=
  match wanted with
  | some n => idAt ids n
  | none => (sortIds (members.map (idAt ids))).headD ""

theorem makeGroup_representative (ids : List String) (label summary : String) (members : List ℕ)
    (wanted : Option ℕ) : (makeGroup ids label summary members wanted).representative
      = some (madeRepresentative ids members wanted) := rfl

theorem makeGroup_ids (ids : List String) (label summary : String) (members : List ℕ)
    (wanted : Option ℕ) : (makeGroup ids label summary members wanted).ids
      = madeRepresentative ids members wanted :: (sortIds (members.map (idAt ids))).filter
          (· ≠ madeRepresentative ids members wanted) := by
  unfold makeGroup Group.ids
  dsimp only
  rw [List.map_map]
  exact List.map_id _

theorem makeGroup_kept {ids : List String} {label summary : String} {members : List ℕ}
    {wanted : Option ℕ} {m : Member} (h : m ∈ (makeGroup ids label summary members wanted).members) :
    m.duplicateOf = none := by
  obtain ⟨id, -, rfl⟩ := List.mem_map.mp h
  rfl

theorem mem_makeGroup_ids {ids : List String} (label summary : String) {members : List ℕ}
    (wanted : Option ℕ) {n : ℕ} (hn : n ∈ members) :
    idAt ids n ∈ (makeGroup ids label summary members wanted).ids := by
  rw [makeGroup_ids, List.mem_cons]
  by_cases h : idAt ids n = madeRepresentative ids members wanted
  · exact Or.inl h
  · right
    refine List.mem_filter.mpr ⟨?_, decide_eq_true h⟩
    exact (sortIds_perm _).mem_iff.mpr (List.mem_map_of_mem hn)

/-- in a group that lists every id once, an id stands for one thesis, the representative apart -/
theorem makeGroup_index {ids : List String} {label summary : String} {members : List ℕ}
    {wanted : Option ℕ} (hn : (makeGroup ids label summary members wanted).ids.Nodup) {n k : ℕ}
    (hnm : n ∈ members) (hkm : k ∈ members) (he : idAt ids n = idAt ids k)
    (hr : idAt ids n ≠ madeRepresentative ids members wanted) : n = k := by
  rw [makeGroup_ids] at hn
  have hperm := (sortIds_perm (members.map (idAt ids))).filter
    (fun id => id ≠ madeRepresentative ids members wanted)
  have hnodup := hperm.nodup_iff.mp (List.nodup_cons.mp hn).2
  rw [List.filter_map] at hnodup
  have hin : ∀ i ∈ members, idAt ids i = idAt ids n → i ∈ members.filter
      ((fun id => decide (id ≠ madeRepresentative ids members wanted)) ∘ idAt ids) := by
    intro i hi hid
    refine List.mem_filter.mpr ⟨hi, decide_eq_true ?_⟩
    rw [hid]
    exact hr
  exact List.inj_on_of_nodup_map hnodup (hin n hnm rfl) (hin k hkm he.symm) he

/-! ## folding -/

theorem headOf_mem {ids : List String} {group : Group} {set : List ℕ} {h : String}
    (hh : headOf ids group set = some h) : h ∈ set.map (idAt ids) := by
  unfold headOf at hh
  dsimp only at hh
  cases hf : (set.map (idAt ids)).find? fun id => some id = group.representative with
  | some id =>
    rw [hf] at hh
    obtain rfl := Option.some.inj hh
    exact List.mem_of_find?_eq_some hf
  | none =>
    rw [hf] at hh
    exact List.min?_mem hh

theorem headOf_representative {ids : List String} {group : Group} {set : List ℕ} {r : String}
    (hr : group.representative = some r) (hmem : r ∈ set.map (idAt ids)) :
    headOf ids group set = some r := by
  unfold headOf
  dsimp only
  cases hf : (set.map (idAt ids)).find? fun id => some id = group.representative with
  | some id =>
    have := List.find?_some hf
    rw [hr] at this
    simpa using this
  | none =>
    have := List.find?_eq_none.mp hf r hmem
    rw [hr] at this
    simp at this

theorem fold_ids (ids : List String) (group : Group) (set : List ℕ) :
    (fold ids group set).ids = group.ids := by
  unfold fold Group.ids
  dsimp only
  rw [List.map_map]
  apply List.map_congr_left
  intro m _
  simp only [Function.comp_apply]
  split_ifs <;> rfl

theorem foldl_fold_ids (ids : List String) (sets : List (List ℕ)) (group : Group) :
    (sets.foldl (fold ids) group).ids = group.ids := by
  induction sets generalizing group with
  | nil => rfl
  | cons s ss ih => exact (ih _).trans (fold_ids ids group s)

theorem foldl_fold_representative (ids : List String) (sets : List (List ℕ)) (group : Group) :
    (sets.foldl (fold ids) group).representative = group.representative := by
  induction sets generalizing group with
  | nil => rfl
  | cons s ss ih => exact ih _

/-- a thesis that is folded has been folded under the head of a set that holds it -/
theorem foldl_fold_member {ids : List String} {group : Group}
    (hkept : ∀ m ∈ group.members, m.duplicateOf = none) (sets : List (List ℕ)) :
    ∀ m ∈ (sets.foldl (fold ids) group).members, ∀ h, m.duplicateOf = some h →
      ∃ set ∈ sets, m.thesisId ∈ set.map (idAt ids) ∧ headOf ids group set = some h ∧
        m.thesisId ≠ h := by
  induction sets using List.reverseRecOn with
  | nil =>
    intro m hm h hd
    rw [hkept m hm] at hd
    cases hd
  | append_singleton sets set ih =>
    intro m hm h hd
    rw [List.foldl_append, List.foldl_cons, List.foldl_nil] at hm
    have hhead : headOf ids (sets.foldl (fold ids) group) set = headOf ids group set := by
      unfold headOf
      rw [foldl_fold_representative]
    obtain ⟨k, hk, rfl⟩ := List.mem_map.mp hm
    rw [hhead] at hd ⊢
    split_ifs at hd ⊢ with hin
    · refine ⟨set, List.mem_append_right _ List.mem_cons_self, hin.1, hd, ?_⟩
      intro e
      exact hin.2 (e ▸ hd.symm)
    · obtain ⟨s, hs, h1⟩ := ih k hk h hd
      exact ⟨s, List.mem_append_left _ hs, h1⟩

/-- the sets of a group fold in it, one after the other -/
theorem foldl_foldSet (ids : List String) (groupOf : ℕ → Option ℕ) (sets : List (List ℕ))
    (groups : List (ℕ × Group)) : sets.foldl (foldSet ids groupOf) groups
      = groups.map fun e => (e.1, (sets.filter fun set =>
          set.head?.bind groupOf = some e.1).foldl (fold ids) e.2) := by
  induction sets generalizing groups with
  | nil => simp
  | cons set sets ih =>
    rw [List.foldl_cons, ih]
    unfold foldSet
    cases hg : set.head?.bind groupOf with
    | none =>
      dsimp only
      apply List.map_congr_left
      intro e _
      rw [List.filter_cons, hg]
      rfl
    | some g =>
      dsimp only
      rw [List.map_map]
      apply List.map_congr_left
      intro e _
      simp only [Function.comp_apply]
      rw [List.filter_cons, hg]
      by_cases he : e.1 = g
      · rw [if_pos he, if_pos (decide_eq_true (congrArg some he.symm)), List.foldl_cons]
      · rw [if_neg he, if_neg]
        intro h
        exact he (Option.some.inj (of_decide_eq_true h)).symm

/-- a model group is made of its members, and the model's representative is one of them -/
theorem mem_modelGroups {ids : List String} {raw : RawCuration} {g : ℕ} {group : Group}
    (h : (g, group) ∈ modelGroups ids raw) : ∃ label summary wanted,
      inGroup ids.length (assigned ids raw).groupOf (some g) ≠ [] ∧
      (∀ n, wanted = some n → n ∈ inGroup ids.length (assigned ids raw).groupOf (some g)) ∧
      group = makeGroup ids label summary
        (inGroup ids.length (assigned ids raw).groupOf (some g)) wanted := by
  obtain ⟨⟨v, k⟩, -, he⟩ := List.mem_filterMap.mp h
  unfold modelGroup at he
  dsimp only at he
  by_cases hnil : inGroup ids.length (assigned ids raw).groupOf (some k) = []
  · rw [if_pos hnil] at he
    cases he
  · rw [if_neg hnil] at he
    obtain ⟨rfl, rfl⟩ := Prod.mk.inj (Option.some.inj he)
    refine ⟨_, _, _, hnil, fun n hn => ?_, rfl⟩
    exact List.contains_iff_mem.mp (Option.filter_eq_some_iff.mp hn).2

/-- the sets that are folded in model group `g` -/
def setsOf (ids : List String) (raw : RawCuration) (g : ℕ) : List (List ℕ) :=
  (duplicateSets ids.length (joined ids raw).1).filter fun set =>
    set.head?.bind (assigned ids raw).groupOf = some g

theorem mem_foldedGroups {ids : List String} {raw : RawCuration} {e : ℕ × Group}
    (he : e ∈ foldedGroups ids raw) : ∃ group, (e.1, group) ∈ modelGroups ids raw ∧
      e.2 = (setsOf ids raw e.1).foldl (fold ids) group := by
  unfold foldedGroups at he
  rw [foldl_foldSet] at he
  obtain ⟨⟨g, group⟩, hgroup, rfl⟩ := List.mem_map.mp he
  exact ⟨group, hgroup, rfl⟩

/-- a folded member of a group points at a member that is not folded -/
def Group.Kept (g : Group) : Prop :=
  ∀ m ∈ g.members, ∀ h, m.duplicateOf = some h →
    ∃ k ∈ g.members, k.thesisId = h ∧ k.duplicateOf = none

theorem exists_member {g : Group} {id : String} (h : id ∈ g.ids) :
    ∃ m ∈ g.members, m.thesisId = id := by
  obtain ⟨m, hm, rfl⟩ := List.mem_map.mp h
  exact ⟨m, hm, rfl⟩

theorem folded_kept {ids : List String} {raw : RawCuration} {e : ℕ × Group}
    (he : e ∈ foldedGroups ids raw) (hn : e.2.ids.Nodup) : e.2.Kept := by
  obtain ⟨group, hgroup, heq⟩ := mem_foldedGroups he
  obtain ⟨g, folded⟩ := e
  dsimp only at hn hgroup heq ⊢
  subst heq
  rw [foldl_fold_ids] at hn
  obtain ⟨label, summary, wanted, -, -, rfl⟩ := mem_modelGroups hgroup
  have hplain : ∀ m ∈ (makeGroup ids label summary
      (inGroup ids.length (assigned ids raw).groupOf (some g)) wanted).members,
      m.duplicateOf = none := fun m hm => makeGroup_kept hm
  have trace := @foldl_fold_member ids _ hplain (setsOf ids raw g)
  intro m hm h hd
  obtain ⟨set, hset, -, hhead, -⟩ := trace m hm h hd
  obtain ⟨hdup, hslot⟩ := List.mem_filter.mp hset
  obtain ⟨n, hns, hnid⟩ := List.mem_map.mp (headOf_mem hhead)
  have hng := set_in_group hdup (of_decide_eq_true hslot) hns
  -- the head is a member of the group
  have hin : idAt ids n ∈ (makeGroup ids label summary
      (inGroup ids.length (assigned ids raw).groupOf (some g)) wanted).ids :=
    mem_makeGroup_ids label summary wanted hng
  rw [hnid, ← foldl_fold_ids ids] at hin
  obtain ⟨k, hk, hkid⟩ := exists_member hin
  refine ⟨k, hk, hkid, ?_⟩
  cases hkd : k.duplicateOf with
  | none => rfl
  | some h' =>
    obtain ⟨set', hset', hkin, hhead', hne⟩ := trace k hk h' hkd
    obtain ⟨hdup', hslot'⟩ := List.mem_filter.mp hset'
    obtain ⟨n', hns', hnid'⟩ := List.mem_map.mp hkin
    have hng' := set_in_group hdup' (of_decide_eq_true hslot') hns'
    exfalso
    apply hne
    rw [hkid]
    apply Option.some.inj
    rw [← hhead']
    by_cases hr : h = madeRepresentative ids
        (inGroup ids.length (assigned ids raw).groupOf (some g)) wanted
    · -- the representative is the head of every set that holds it
      rw [hr]
      exact (headOf_representative (makeGroup_representative ..) (by
        rw [← hr, ← hkid]
        exact hkin)).symm
    · -- any other id stands for one thesis, so the two sets are one
      have hnn' : n = n' := makeGroup_index hn hng hng' (by rw [hnid, hnid', hkid])
        (by rw [hnid]; exact hr)
      rw [← hhead, set_eq_of_mem hdup hdup' hns (hnn' ▸ hns')]

/-- **A folded duplicate points at a thesis that is not folded itself.** -/
theorem normalise_kept (ids : List String) (raw : RawCuration) {g : Group}
    (hg : g ∈ (normalise ids raw).groups) (hn : g.ids.Nodup) : g.Kept := by
  obtain hg | hg := List.mem_append.mp hg
  · obtain ⟨e, he, rfl⟩ := List.mem_map.mp hg
    exact folded_kept he hn
  · unfold ungrouped at hg
    dsimp only at hg
    split_ifs at hg
    · exact absurd hg List.not_mem_nil
    · obtain rfl := List.mem_singleton.mp hg
      intro m hm h hd
      rw [makeGroup_kept hm] at hd
      cases hd

/-! ## cells -/

/-- the answers for the chunks of a cell; `none` is a chunk without an acceptable one -/
structure CellAnswers where
  cell : String
  members : List String
  chunks : List (Option (List String × RawCuration))

def CellAnswers.curation (a : CellAnswers) : Curation :=
  Curation.merge a.cell a.members (a.chunks.map (Option.map fun c => normalise c.1 c.2))

theorem curation_groups {a : CellAnswers} {g : Group} (hg : g ∈ a.curation.groups) :
    ∃ ids raw, g ∈ (normalise ids raw).groups := by
  unfold CellAnswers.curation Curation.merge at hg
  dsimp only at hg
  split_ifs at hg
  · exact absurd hg List.not_mem_nil
  · obtain ⟨chunk, hc, hgc⟩ := List.mem_flatMap.mp hg
    obtain ⟨o, ho, ho'⟩ := List.mem_filterMap.mp hc
    obtain ⟨c, -, rfl⟩ := List.mem_map.mp ho
    obtain ⟨⟨ids, raw⟩, -, rfl⟩ := Option.map_eq_some_iff.mp ho'
    exact ⟨ids, raw, hgc⟩

theorem covers_ok {c : Curation} {cell : String} {ids : List String} (h : c.covers cell ids = true)
    (hok : c.status = .ok) : sortIds (listedIds c.groups) = ids := by
  unfold Curation.covers at h
  split_ifs at h with h1 h2
  · rw [hok] at h2
    cases h2
  · exact of_decide_eq_true h

theorem applyCuration_none {curations : List Curation} {cell : CellEntry} (h : curations.find?
    (fun c => c.covers (cellKey cell) (cellMemberIds cell)) = none) :
    applyCuration curations cell = cell := by
  unfold applyCuration
  rw [h]

theorem applyCuration_some {curations : List Curation} {cell : CellEntry} {c : Curation}
    (h : curations.find? (fun c => c.covers (cellKey cell) (cellMemberIds cell)) = some c) :
    applyCuration curations cell = match c.status with
      | .ok => { cell with groups := c.groups, tensions := c.tensions, curation := .grouped }
      | .failed => { cell with curation := .failed } := by
  unfold applyCuration
  rewrite [h]
  rfl

/-- what a curation leaves of a cell -/
theorem applyCuration_cases (curations : List Curation) (cell : CellEntry) :
    applyCuration curations cell = cell ∨
    applyCuration curations cell = { cell with curation := .failed } ∨
    ∃ c ∈ curations, sortIds (listedIds c.groups) = cellMemberIds cell ∧ applyCuration curations cell
      = { cell with groups := c.groups, tensions := c.tensions, curation := .grouped } := by
  cases hf : curations.find? fun c => c.covers (cellKey cell) (cellMemberIds cell) with
  | none => exact Or.inl (applyCuration_none hf)
  | some c =>
    have happ := applyCuration_some hf
    cases hs : c.status with
    | ok =>
      have hcov := @List.find?_some _ _ _ _ hf
      rw [hs] at happ
      exact Or.inr (Or.inr ⟨c, List.mem_of_find?_eq_some hf, covers_ok hcov hs, happ⟩)
    | failed =>
      rw [hs] at happ
      exact Or.inr (Or.inl happ)

theorem applyCuration_ids (curations : List Curation) (cell : CellEntry) :
    cellMemberIds (applyCuration curations cell) = cellMemberIds cell := by
  obtain h | h | ⟨c, -, hids, h⟩ := applyCuration_cases curations cell
  · rw [h]
  · rw [h]
    rfl
  · rw [h]
    exact hids

theorem applyCuration_key (curations : List Curation) (cell : CellEntry) :
    cellKey (applyCuration curations cell) = cellKey cell := by
  obtain h | h | ⟨c, -, -, h⟩ := applyCuration_cases curations cell <;> rw [h] <;> rfl

/-- **Applying the curations again changes nothing.** -/
theorem applyCuration_idem (curations : List Curation) (cell : CellEntry) :
    applyCuration curations (applyCuration curations cell) = applyCuration curations cell := by
  -- the second time the same curation is found, as key and ids are the same
  have hsame : curations.find? (fun c => c.covers (cellKey (applyCuration curations cell))
      (cellMemberIds (applyCuration curations cell)))
      = curations.find? fun c => c.covers (cellKey cell) (cellMemberIds cell) := by
    rw [applyCuration_key, applyCuration_ids]
  cases hf : curations.find? fun c => c.covers (cellKey cell) (cellMemberIds cell) with
  | none => rw [applyCuration_none (hsame.trans hf)]
  | some c =>
    rw [applyCuration_some (hsame.trans hf), applyCuration_some hf]
    cases c.status <;> rfl

theorem applyCurations_ids (catalog : Catalog) (curations : List Curation) :
    (applyCurations catalog curations).cells.map cellMemberIds
      = catalog.cells.map cellMemberIds := by
  show (catalog.cells.map (applyCuration curations)).map cellMemberIds = _
  rw [List.map_map]
  apply List.map_congr_left
  intro cell _
  exact applyCuration_ids curations cell

theorem applyCurations_perm (catalog : Catalog) (curations : List Curation) :
    (applyCurations catalog curations).ids.Perm catalog.ids := by
  show ((catalog.cells.map (applyCuration curations)).flatMap _).Perm _
  rw [List.flatMap_map]
  apply List.Perm.flatMap_left
  intro cell _
  exact perm_of_sortIds (applyCuration_ids curations cell)

theorem applyCurations_idem (catalog : Catalog) (curations : List Curation) :
    applyCurations (applyCurations catalog curations) curations
      = applyCurations catalog curations := by
  unfold applyCurations
  rw [List.map_map]
  congr 1
  apply List.map_congr_left
  intro cell _
  exact applyCuration_idem curations cell

/-- a duplicate that is set aside points at a thesis of its group that is kept -/
theorem applyCurations_kept {catalog : Catalog} (hplain : ∀ cell ∈ catalog.cells,
    ∀ g ∈ cell.groups, ∀ m ∈ g.members, m.duplicateOf = none) (hn : catalog.ids.Nodup)
    (answers : List CellAnswers) :
    ∀ cell ∈ (applyCurations catalog (answers.map CellAnswers.curation)).cells,
      ∀ g ∈ cell.groups, g.Kept := by
  intro cell' hc' g hg
  have hin := hc'
  obtain ⟨cell, hc, rfl⟩ := List.mem_map.mp hc'
  have hsame : ∀ g ∈ cell.groups, g.Kept := by
    intro g hg m hm h hd
    rw [hplain cell hc g hg m hm] at hd
    cases hd
  obtain h | h | ⟨c, hcur, -, h⟩ :=
    applyCuration_cases (answers.map CellAnswers.curation) cell
  · rw [h] at hg
    exact hsame g hg
  · rw [h] at hg
    exact hsame g hg
  · -- the group is one of a curation, and the catalogue lists its theses once
    have hgn : g.ids.Nodup := by
      have hall := (applyCurations_perm catalog (answers.map CellAnswers.curation)).nodup_iff.mpr hn
      have hcell := (List.pairwise_flatMap.mp hall).1 _ hin
      exact (List.pairwise_flatMap.mp hcell).1 g hg
    rw [h] at hg
    obtain ⟨a, -, rfl⟩ := List.mem_map.mp hcur
    obtain ⟨ids, raw, hnorm⟩ := curation_groups hg
    exact normalise_kept ids raw hnorm hgn

/-! ## the catalogue a reader sees -/

/-- **Whatever the curator answers, the catalogue lists every thesis in exactly one group of one
cell, keeps the ids of every cell, and sets a thesis aside only for one that it keeps.** -/
theorem catalog_integrity {F : Type} (matrix : ExplorationMatrix F)
    (descriptions : List DimensionFacetDescription) (theses : List Thesis)
    (hids : (theses.map Thesis.id).Nodup) (answers : List CellAnswers) :
    let base := buildCatalog matrix descriptions theses
    let curations := answers.map CellAnswers.curation
    let catalog := applyCurations base curations
    catalog.validate theses = .ok () ∧
    (∀ t ∈ theses, ∃! p : ℕ × ℕ, catalog.Lists p.1 p.2 t.id) ∧
    catalog.cells.map cellMemberIds = base.cells.map cellMemberIds ∧
    (∀ cell ∈ catalog.cells, ∀ g ∈ cell.groups, g.Kept) ∧
    applyCurations catalog curations = catalog := by
  intro base curations catalog
  have hbase : base.ids.Perm (theses.map Thesis.id) := buildCatalog_ids matrix descriptions theses
  have hperm : catalog.ids.Perm (theses.map Thesis.id) :=
    (applyCurations_perm base curations).trans hbase
  have hn : catalog.ids.Nodup := hperm.nodup_iff.mpr hids
  have hone : ∀ t ∈ theses, ∃! p : ℕ × ℕ, catalog.Lists p.1 p.2 t.id := by
    intro t ht
    exact existsUnique_lists hn (hperm.mem_iff.mpr (List.mem_map_of_mem ht))
  have hkept : ∀ cell ∈ catalog.cells, ∀ g ∈ cell.groups, g.Kept :=
    applyCurations_kept (buildCatalog_plain matrix descriptions theses)
      (hbase.nodup_iff.mpr hids) answers
  exact ⟨validate_of_perm hperm hids, hone, applyCurations_ids base curations, hkept,
    applyCurations_idem base curations⟩

/-- one cell, with one facet -/
def sampleCell : ExplorationMatrix ℕ where
  dimensions := [⟨"storage", "Storage", [⟨"local", "Local files"⟩]⟩]
  thesesPerCell := 1
  temperatureProfiles := []
  defaultProfile := ⟨[0], 1⟩

def sampleTheses : List Thesis :=
  [⟨"thesis_002", "storage:local"⟩, ⟨"thesis_001", "storage:local"⟩, ⟨"thesis_003", "cloud"⟩]

/-- an answer that puts both theses of the cell in one group and calls them duplicates -/
def sampleAnswer : RawCuration where
  groups := .array [.object [("label", .string "One file")]]
  assign := .array [.object [("n", .number (.posInt 0)), ("g", .number (.posInt 0))],
    .object [("n", .number (.posInt 1)), ("g", .number (.posInt 0))]]
  duplicates := .array [.array [.number (.posInt 1), .number (.posInt 0)]]
  tensions := .null

def sampleAnswers : List CellAnswers :=
  [⟨"storage:local", ["thesis_001", "thesis_002"],
    [some (["thesis_001", "thesis_002"], sampleAnswer)]⟩]

/-- the second thesis is set aside, and the catalogue is sound -/
theorem catalog_integrity_sample :
    let catalog := applyCurations (buildCatalog sampleCell [] sampleTheses)
      (sampleAnswers.map CellAnswers.curation)
    catalog.members = [⟨"thesis_001", none⟩, ⟨"thesis_002", some "thesis_001"⟩,
      ⟨"thesis_003", none⟩] ∧ catalog.validate sampleTheses = .ok () :=
  ⟨by decide +kernel, (catalog_integrity sampleCell [] sampleTheses (by decide)
    sampleAnswers).1⟩

end Moagan.Discovery
