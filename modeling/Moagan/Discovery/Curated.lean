import Mathlib.Data.List.GetD
import Moagan.Discovery.Integrity
import Moagan.Lib.Connected

/-!
# What a normalised answer looks like

* `assigned_balance`     every `assign` entry is counted once
* `normalise_ids`        the groups list the theses of the chunk
* `normalise_first`      a group begins with its representative
* `sameSet_iff`          the duplicate sets are the connected theses
* `normalise_permuted`   the order of the reported pairs does not matter
* `normalise_normalised` all of it, for any answer
-/

namespace Moagan.Discovery

/-! ## reading ids -/

theorem map_idAt (ids : List String) : (List.range ids.length).map (idAt ids) = ids := by
  apply List.ext_getElem
  · rw [List.length_map, List.length_range]
  · intro i h1 h2
    rw [List.getElem_map, List.getElem_range]
    exact List.getD_eq_getElem ids "" h2

theorem idAt_inj {ids : List String} (h : ids.Nodup) {n k : ℕ} (hn : n < ids.length)
    (hk : k < ids.length) (he : idAt ids n = idAt ids k) : n = k := by
  rw [← map_idAt ids] at h
  exact List.inj_on_of_nodup_map h (List.mem_range.mpr hn) (List.mem_range.mpr hk) he

theorem mem_inGroup {len : ℕ} {groupOf : ℕ → Option ℕ} {o : Option ℕ} {n : ℕ} :
    n ∈ inGroup len groupOf o ↔ n < len ∧ groupOf n = o := by
  rw [inGroup, List.mem_filter, List.mem_range, decide_eq_true_iff]

theorem inGroup_nodup (len : ℕ) (groupOf : ℕ → Option ℕ) (o : Option ℕ) :
    (inGroup len groupOf o).Nodup := List.nodup_range.filter _

/-! ## the assignments -/

section
variable {len groups : ℕ}

/-- the entries so far are the repeated, the unknown and the assigned ones -/
structure Assigned.Balanced (len groups done : ℕ) (s : Assigned) : Prop where
  known : ∀ n g, s.groupOf n = some g → g < groups
  counted : done + (inGroup len s.groupOf none).length = s.repeated + s.unknown + len

theorem inGroup_update {groupOf : ℕ → Option ℕ} {n g : ℕ} :
    inGroup len (Function.update groupOf n (some g)) none = (inGroup len groupOf none).erase n := by
  rw [(inGroup_nodup len groupOf none).erase_eq_filter, inGroup, inGroup, List.filter_filter]
  apply List.filter_congr
  intro k _
  by_cases hk : k = n
  · subst hk
    rw [Function.update_self]
    simp
  · rw [Function.update_of_ne hk]
    simp [hk]

theorem assign_balanced {done : ℕ} {s : Assigned} (h : s.Balanced len groups done)
    (entry : Value) : (assign len groups s entry).Balanced len groups (done + 1) := by
  have hcount := h.counted
  unfold assign
  cases hn : (indexField entry "n").filter (· < len) with
  | none =>
    refine ⟨h.known, ?_⟩
    show done + 1 + (inGroup len s.groupOf none).length = s.repeated + (s.unknown + 1) + len
    omega
  | some n =>
    cases hg : (indexField entry "g").filter (· < groups) with
    | none =>
      refine ⟨h.known, ?_⟩
      show done + 1 + (inGroup len s.groupOf none).length = s.repeated + (s.unknown + 1) + len
      omega
    | some g =>
      have hnlt : n < len := of_decide_eq_true (Option.filter_eq_some_iff.mp hn).2
      have hglt : g < groups := of_decide_eq_true (Option.filter_eq_some_iff.mp hg).2
      dsimp only
      split_ifs with hs
      · refine ⟨h.known, ?_⟩
        show done + 1 + (inGroup len s.groupOf none).length = s.repeated + 1 + s.unknown + len
        omega
      · refine ⟨fun k j hk => ?_, ?_⟩
        · change Function.update s.groupOf n (some g) k = some j at hk
          by_cases hkn : k = n
          · subst hkn
            rw [Function.update_self] at hk
            obtain rfl := Option.some.inj hk
            exact hglt
          · rw [Function.update_of_ne hkn] at hk
            exact h.known k j hk
        · have hmem : n ∈ inGroup len s.groupOf none :=
            mem_inGroup.mpr ⟨hnlt, Option.not_isSome_iff_eq_none.mp hs⟩
          have hpos := List.length_pos_of_mem hmem
          show done + 1 + (inGroup len (Function.update s.groupOf n (some g)) none).length
            = s.repeated + s.unknown + len
          rw [inGroup_update, List.length_erase_of_mem hmem]
          omega

theorem foldl_assign_balanced (entries : List Value) {done : ℕ} {s : Assigned}
    (h : s.Balanced len groups done) :
    (entries.foldl (assign len groups) s).Balanced len groups (done + entries.length) := by
  induction entries generalizing done s with
  | nil => exact h
  | cons e es ih =>
    have hlen : done + (e :: es).length = done + 1 + es.length := by
      rw [List.length_cons]
      omega
    rw [List.foldl_cons, hlen]
    exact ih (assign_balanced h e)

end

/-- **Every entry is counted once.** -/
theorem assigned_balanced (ids : List String) (raw : RawCuration) :
    (assigned ids raw).Balanced ids.length raw.groups.items.length raw.assign.items.length := by
  have hinit : Assigned.Balanced ids.length raw.groups.items.length 0 ⟨fun _ => none, 0, 0⟩ := by
    refine ⟨fun n g h => (nomatch h), ?_⟩
    show 0 + (inGroup ids.length (fun _ => none) none).length = 0 + 0 + ids.length
    rw [inGroup, List.filter_eq_self.mpr fun _ _ => decide_eq_true rfl, List.length_range]
  have := foldl_assign_balanced raw.assign.items hinit
  rwa [Nat.zero_add] at this

/-! ## every thesis once -/

theorem inGroup_partition (ids : List String) (raw : RawCuration) :
    ((List.range raw.groups.items.length).flatMap (fun g =>
        inGroup ids.length (assigned ids raw).groupOf (some g))
      ++ inGroup ids.length (assigned ids raw).groupOf none).Perm (List.range ids.length) := by
  have hapart : ∀ {o p : Option ℕ} {n : ℕ}, n ∈ inGroup ids.length (assigned ids raw).groupOf o →
      n ∈ inGroup ids.length (assigned ids raw).groupOf p → o = p := by
    intro o p n ho hp
    exact (mem_inGroup.mp ho).2.symm.trans (mem_inGroup.mp hp).2
  rw [List.perm_ext_iff_of_nodup _ List.nodup_range]
  · intro n
    rw [List.mem_append, List.mem_flatMap, List.mem_range]
    constructor
    · rintro (⟨g, -, hn⟩ | hn)
      · exact (mem_inGroup.mp hn).1
      · exact (mem_inGroup.mp hn).1
    · intro hn
      cases hg : (assigned ids raw).groupOf n with
      | none => exact Or.inr (mem_inGroup.mpr ⟨hn, hg⟩)
      | some g =>
        have hlt := (assigned_balanced ids raw).known n g hg
        exact Or.inl ⟨g, List.mem_range.mpr hlt, mem_inGroup.mpr ⟨hn, hg⟩⟩
  · refine List.nodup_append.mpr ⟨?_, inGroup_nodup _ _ _, ?_⟩
    · refine List.pairwise_flatMap.mpr ⟨fun g _ => inGroup_nodup _ _ _, ?_⟩
      refine List.nodup_range.imp fun {g j} hne n hn k hk he => ?_
      subst he
      exact hne (Option.some.inj (hapart hn hk))
    · intro n hn k hk he
      subst he
      obtain ⟨g, -, hg⟩ := List.mem_flatMap.mp hn
      cases hapart hg hk

theorem madeRepresentative_mem {ids : List String} {members : List ℕ} {wanted : Option ℕ}
    (hne : members ≠ []) (hw : ∀ n, wanted = some n → n ∈ members) :
    madeRepresentative ids members wanted ∈ sortIds (members.map (idAt ids)) := by
  unfold madeRepresentative
  cases wanted with
  | some n => exact (sortIds_perm _).mem_iff.mpr (List.mem_map_of_mem (hw n rfl))
  | none =>
    cases hs : sortIds (members.map (idAt ids)) with
    | nil =>
      have hnil := (sortIds_perm (members.map (idAt ids))).length_eq
      rw [hs, List.length_map] at hnil
      exact absurd (List.length_eq_zero_iff.mp hnil.symm) hne
    | cons id rest => exact List.mem_cons_self

/-- **A group that is made lists its members, each once.** -/
theorem makeGroup_perm {ids : List String} (h : ids.Nodup) {label summary : String}
    {members : List ℕ} {wanted : Option ℕ} (hsub : ∀ n ∈ members, n < ids.length)
    (hn : members.Nodup) (hne : members ≠ []) (hw : ∀ n, wanted = some n → n ∈ members) :
    (makeGroup ids label summary members wanted).ids.Perm (members.map (idAt ids)) := by
  have hperm := sortIds_perm (members.map (idAt ids))
  have hnames : (members.map (idAt ids)).Nodup :=
    hn.map_on fun n hn k hk he => idAt_inj h (hsub n hn) (hsub k hk) he
  have hmem := @madeRepresentative_mem ids _ _ hne hw
  rw [makeGroup_ids]
  refine List.Perm.trans ?_ hperm
  have herase := (hperm.nodup_iff.mpr hnames).erase_eq_filter
    (madeRepresentative ids members wanted)
  refine List.Perm.trans ?_ (List.perm_cons_erase hmem).symm
  rw [herase]
  refine List.Perm.cons _ (List.Perm.of_eq (List.filter_congr fun id _ => ?_))
  rw [Bool.eq_iff_iff, decide_eq_true_iff, bne_iff_ne]

section
variable {ids : List String} {groupOf : ℕ → Option ℕ}

theorem modelGroup_perm (h : ids.Nodup) (e : Value × ℕ) :
    ((modelGroup ids groupOf e).toList.flatMap fun e => e.2.ids).Perm
      ((inGroup ids.length groupOf (some e.2)).map (idAt ids)) := by
  unfold modelGroup
  dsimp only
  by_cases hnil : inGroup ids.length groupOf (some e.2) = []
  · rw [if_pos hnil, hnil]
    exact List.Perm.refl _
  · rw [if_neg hnil, Option.toList_some, List.flatMap_singleton]
    refine makeGroup_perm h (fun n hn => (mem_inGroup.mp hn).1) (inGroup_nodup _ _ _) hnil ?_
    intro n hn
    exact List.contains_iff_mem.mp (Option.filter_eq_some_iff.mp hn).2

theorem ungrouped_perm (h : ids.Nodup) : (listedIds (ungrouped ids groupOf)).Perm
    ((inGroup ids.length groupOf none).map (idAt ids)) := by
  unfold ungrouped
  dsimp only
  by_cases hnil : inGroup ids.length groupOf none = []
  · rw [if_pos hnil, hnil]
    exact List.Perm.refl _
  · rw [if_neg hnil, listedIds, List.flatMap_singleton]
    exact makeGroup_perm h (fun n hn => (mem_inGroup.mp hn).1) (inGroup_nodup _ _ _) hnil
      fun n hn => by cases hn

theorem modelGroups_perm (h : ids.Nodup) (raw : RawCuration) :
    ((modelGroups ids raw).flatMap fun e => e.2.ids).Perm
      ((List.range raw.groups.items.length).flatMap fun g =>
        (inGroup ids.length (assigned ids raw).groupOf (some g)).map (idAt ids)) := by
  have key : ∀ es : List (Value × ℕ),
      ((es.filterMap (modelGroup ids (assigned ids raw).groupOf)).flatMap fun e => e.2.ids).Perm
        ((es.map Prod.snd).flatMap fun g =>
          (inGroup ids.length (assigned ids raw).groupOf (some g)).map (idAt ids)) := by
    intro es
    rw [List.filterMap_eq_flatMap_toList, List.flatMap_assoc, List.flatMap_map]
    exact List.Perm.flatMap_left es fun e _ => modelGroup_perm h e
  have := key raw.groups.items.zipIdx
  rwa [List.zipIdx_map_snd, ← List.range_eq_range'] at this

/-- folding keeps the ids of the groups -/
theorem foldedGroups_ids (raw : RawCuration) :
    ((foldedGroups ids raw).flatMap fun e => e.2.ids)
      = (modelGroups ids raw).flatMap fun e => e.2.ids := by
  rw [foldedGroups, foldl_foldSet, List.flatMap_map]
  apply List.flatMap_congr
  intro e _
  exact foldl_fold_ids ids _ e.2

end

/-- **The groups list every thesis once.** -/
theorem normalise_ids {ids : List String} (h : ids.Nodup) (raw : RawCuration) :
    (listedIds (normalise ids raw).groups).Perm ids := by
  have hpart := (inGroup_partition ids raw).map (idAt ids)
  rw [map_idAt, List.map_append, List.map_flatMap] at hpart
  refine List.Perm.trans ?_ hpart
  show (((foldedGroups ids raw).map Prod.snd ++ ungrouped ids (assigned ids raw).groupOf).flatMap
    Group.ids).Perm _
  rw [List.flatMap_append, List.flatMap_map, foldedGroups_ids]
  exact (modelGroups_perm h raw).append (ungrouped_perm h)

/-! ## the reported pairs -/

/-- a pair counts when both theses are known, differ, and are in one model group -/
def validPair (len : ℕ) (groupOf : ℕ → Option ℕ) (entry : Value) : Option (ℕ × ℕ) :=
  (pairOfEntry entry len).filter fun p => (groupOf p.1).isSome ∧ groupOf p.1 = groupOf p.2

def validPairs (ids : List String) (raw : RawCuration) : List (ℕ × ℕ) :=
  raw.duplicates.items.filterMap (validPair ids.length (assigned ids raw).groupOf)

theorem joinPair_eq {len : ℕ} {groupOf : ℕ → Option ℕ} (s : Forest × ℕ) (entry : Value) :
    (joinPair len groupOf s entry).1 = match validPair len groupOf entry with
      | some p => s.1.union p.1 p.2
      | none => s.1 := by
  unfold joinPair validPair
  cases pairOfEntry entry len with
  | none => rfl
  | some p =>
    obtain ⟨n, m⟩ := p
    dsimp only
    rw [Option.filter_some]
    by_cases hg : (groupOf n).isSome ∧ groupOf n = groupOf m
    · rw [if_pos hg, if_pos (decide_eq_true hg)]
    · rw [if_neg hg, if_neg (fun h => hg (of_decide_eq_true h))]

/-- **The forest joins the valid pairs.** -/
theorem joined_forest (ids : List String) (raw : RawCuration) :
    (joined ids raw).1 = Forest.joinAll (validPairs ids raw) := by
  have key : ∀ (entries : List Value) (s : Forest × ℕ),
      (entries.foldl (joinPair ids.length (assigned ids raw).groupOf) s).1
        = (entries.filterMap (validPair ids.length (assigned ids raw).groupOf)).foldl
            (fun F p => F.union p.1 p.2) s.1 := by
    intro entries
    induction entries with
    | nil => exact fun s => rfl
    | cons e es ih =>
      intro s
      rw [List.foldl_cons, ih, joinPair_eq, List.filterMap_cons]
      cases validPair ids.length (assigned ids raw).groupOf e <;> rfl
  exact key _ _

theorem validPairs_group {ids : List String} {raw : RawCuration} :
    ∀ p ∈ validPairs ids raw, ((assigned ids raw).groupOf p.1).isSome ∧
      (assigned ids raw).groupOf p.1 = (assigned ids raw).groupOf p.2 := by
  intro p hp
  obtain ⟨e, -, he⟩ := List.mem_filterMap.mp hp
  exact of_decide_eq_true (Option.filter_eq_some_iff.mp he).2

/-- a thesis outside the model groups is connected to itself only -/
theorem connected_ungrouped {ids : List String} {raw : RawCuration} {n k : ℕ}
    (h : Forest.Connected (validPairs ids raw) n k) (hn : (assigned ids raw).groupOf n = none) :
    n = k := by
  have hgroup := h.eq_of (f := (assigned ids raw).groupOf) fun p hp => (validPairs_group p hp).2
  have hself := h.eq_of (f := fun i =>
    if (assigned ids raw).groupOf i = none then some i else none) fun p hp => by
      have hp := validPairs_group p hp
      have hp2 := hp.1
      rw [hp.2] at hp2
      rw [if_neg (Option.isSome_iff_ne_none.mp hp.1), if_neg (Option.isSome_iff_ne_none.mp hp2)]
  rw [if_pos hn, if_pos (hgroup ▸ hn)] at hself
  exact Option.some.inj hself

/-! ## the sets -/

/-- the thesis under which a member is kept: the one it is folded under, or itself -/
def Member.keeper (m : Member) : String := m.duplicateOf.getD m.thesisId

/-- two theses end in one duplicate set -/
def SameSet (groups : List Group) (a b : String) : Prop :=
  ∃ g ∈ groups, ∃ m ∈ g.members, ∃ k ∈ g.members,
    m.thesisId = a ∧ k.thesisId = b ∧ m.keeper = k.keeper

theorem headOf_some {ids : List String} {group : Group} {set : List ℕ} {id : String}
    (h : id ∈ set.map (idAt ids)) : headOf ids group set ≠ none := by
  intro hnone
  unfold headOf at hnone
  dsimp only at hnone
  split at hnone
  · cases hnone
  · rw [List.min?_eq_none_iff] at hnone
    rw [hnone] at h
    exact absurd h List.not_mem_nil

theorem headOf_congr {ids : List String} {group group' : Group}
    (h : group.representative = group'.representative) (set : List ℕ) :
    headOf ids group set = headOf ids group' set := by
  unfold headOf
  rw [h]

/-- every thesis of a set except its head is folded -/
theorem foldl_fold_folded {ids : List String} {group : Group} (sets : List (List ℕ)) :
    ∀ m ∈ (sets.foldl (fold ids) group).members, ∀ set ∈ sets, m.thesisId ∈ set.map (idAt ids) →
      headOf ids group set ≠ some m.thesisId → m.duplicateOf ≠ none := by
  induction sets using List.reverseRecOn with
  | nil => exact fun m _ set hset => absurd hset List.not_mem_nil
  | append_singleton sets last ih =>
    intro m hm set hset hin hhead
    rw [List.foldl_append, List.foldl_cons, List.foldl_nil] at hm
    obtain ⟨k, hk, rfl⟩ := List.mem_map.mp hm
    have hlast := @headOf_congr ids _ _ (foldl_fold_representative ids sets group) last
    rw [hlast] at hin hhead ⊢
    by_cases hfold : k.thesisId ∈ last.map (idAt ids) ∧
        some k.thesisId ≠ headOf ids group last
    · rw [if_pos hfold]
      exact headOf_some hfold.1
    · rw [if_neg hfold] at hin hhead ⊢
      obtain hset | hset := List.mem_append.mp hset
      · exact ih k hk set hset hin hhead
      · obtain rfl := List.mem_singleton.mp hset
        exact absurd ⟨hin, fun he => hhead he.symm⟩ hfold

/-! ## folded groups -/

/-- the theses that have the root of `n` -/
def treeOf (ids : List String) (raw : RawCuration) (n : ℕ) : List ℕ :=
  (joined ids raw).1.under (List.range ids.length) ((joined ids raw).1.root n)

section
variable {ids : List String} {raw : RawCuration}

theorem mem_treeOf {n k : ℕ} : k ∈ treeOf ids raw n ↔
    k < ids.length ∧ (joined ids raw).1.root k = (joined ids raw).1.root n := by
  rw [treeOf, Forest.under, List.mem_filter, List.mem_range, decide_eq_true_iff]

theorem set_eq_treeOf {set : List ℕ} (hset : set ∈ duplicateSets ids.length (joined ids raw).1)
    {n : ℕ} (hn : n ∈ set) : set = treeOf ids raw n := by
  obtain ⟨r, rfl⟩ := mem_duplicateSets hset
  rw [treeOf, of_decide_eq_true (List.mem_filter.mp hn).2]

/-- a tree is a duplicate set, or it is its one thesis -/
theorem treeOf_single {n k : ℕ} (hn : n < ids.length)
    (h : treeOf ids raw n ∉ duplicateSets ids.length (joined ids raw).1)
    (hk : k ∈ treeOf ids raw n) : k = n := by
  have hmem : n ∈ treeOf ids raw n := mem_treeOf.mpr ⟨hn, rfl⟩
  have htree : treeOf ids raw n ∈ (joined ids raw).1.trees ids.length :=
    Forest.mem_trees.mpr ⟨List.ne_nil_of_mem hmem, _, rfl⟩
  have hlen : ¬ (treeOf ids raw n).length > 1 := fun hl =>
    h (List.mem_filter.mpr ⟨htree, decide_eq_true hl⟩)
  have hpos := List.length_pos_of_mem hmem
  obtain ⟨i, hi⟩ := List.length_eq_one_iff.mp (show (treeOf ids raw n).length = 1 by omega)
  rw [hi] at hk hmem
  rw [List.mem_singleton.mp hk, List.mem_singleton.mp hmem]

theorem folded_perm (h : ids.Nodup) {e : ℕ × Group} (he : e ∈ foldedGroups ids raw) :
    e.2.ids.Perm ((inGroup ids.length (assigned ids raw).groupOf (some e.1)).map (idAt ids)) := by
  obtain ⟨group, hgroup, heq⟩ := mem_foldedGroups he
  obtain ⟨label, summary, wanted, hne, hw, rfl⟩ := mem_modelGroups hgroup
  rw [heq, foldl_fold_ids]
  exact makeGroup_perm h (fun n hn => (mem_inGroup.mp hn).1) (inGroup_nodup _ _ _) hne hw

theorem folded_first {e : ℕ × Group} (he : e ∈ foldedGroups ids raw) :
    ∃ id, e.2.representative = some id ∧ e.2.ids.head? = some id := by
  obtain ⟨group, hgroup, heq⟩ := mem_foldedGroups he
  obtain ⟨label, summary, wanted, -, -, rfl⟩ := mem_modelGroups hgroup
  rw [heq, foldl_fold_ids, foldl_fold_representative, makeGroup_ids]
  exact ⟨_, rfl, rfl⟩

theorem mem_ids_iff {groupOf : ℕ → Option ℕ} {o : Option ℕ} {xs : List String} (h : ids.Nodup)
    (hperm : xs.Perm ((inGroup ids.length groupOf o).map (idAt ids))) {n : ℕ}
    (hn : n < ids.length) : idAt ids n ∈ xs ↔ groupOf n = o := by
  rw [hperm.mem_iff, List.mem_map]
  constructor
  · rintro ⟨k, hk, he⟩
    obtain ⟨hlt, hg⟩ := mem_inGroup.mp hk
    rwa [← idAt_inj h hlt hn he]
  · intro hg
    exact ⟨n, mem_inGroup.mpr ⟨hn, hg⟩, rfl⟩

/-- **A member is kept under the head of its set; a thesis that is in no set keeps itself.** -/
theorem folded_keeper (h : ids.Nodup) {e : ℕ × Group} (he : e ∈ foldedGroups ids raw)
    {m : Member} (hm : m ∈ e.2.members) {n : ℕ} (hn : n < ids.length)
    (hid : m.thesisId = idAt ids n) :
    (treeOf ids raw n ∈ duplicateSets ids.length (joined ids raw).1 →
      headOf ids e.2 (treeOf ids raw n) = some m.keeper) ∧
    (treeOf ids raw n ∉ duplicateSets ids.length (joined ids raw).1 →
      m.keeper = idAt ids n) := by
  have hng : (assigned ids raw).groupOf n = some e.1 := by
    rw [← mem_ids_iff h (folded_perm h he) hn, ← hid]
    exact List.mem_map_of_mem hm
  obtain ⟨group, hgroup, heq⟩ := mem_foldedGroups he
  have hhead : ∀ set, headOf ids e.2 set = headOf ids group set := by
    intro set
    apply headOf_congr
    rw [heq, foldl_fold_representative]
  rw [hhead]
  rw [heq] at hm
  have hin : n ∈ treeOf ids raw n := mem_treeOf.mpr ⟨hn, rfl⟩
  cases hd : m.duplicateOf with
  | none =>
    have hkeep : m.keeper = m.thesisId := by rw [Member.keeper, hd, Option.getD_none]
    rw [hkeep]
    refine ⟨fun hset => ?_, fun _ => hid⟩
    -- a thesis that is not folded is the head of its set
    by_contra hne
    have hslot : treeOf ids raw n ∈ setsOf ids raw e.1 := by
      refine List.mem_filter.mpr ⟨hset, decide_eq_true ?_⟩
      obtain ⟨k, hk⟩ := Option.isSome_iff_exists.mp
        (List.isSome_head?.mpr (List.ne_nil_of_mem hin))
      rw [hk]
      have hroot := (mem_treeOf.mp (List.mem_of_head? hk)).2
      show (assigned ids raw).groupOf k = some e.1
      rw [← joined_groups ids raw k, hroot, joined_groups, hng]
    have hmem : m.thesisId ∈ (treeOf ids raw n).map (idAt ids) := by
      rw [hid]
      exact List.mem_map_of_mem hin
    exact foldl_fold_folded _ m hm _ hslot hmem hne hd
  | some x =>
    have hkeep : m.keeper = x := by rw [Member.keeper, hd, Option.getD_some]
    obtain ⟨label, summary, wanted, -, -, rfl⟩ := mem_modelGroups hgroup
    obtain ⟨set, hset, hmem, hx, -⟩ :=
      foldl_fold_member (fun m hm => makeGroup_kept hm) _ m hm x hd
    -- the set that holds the thesis is its tree
    obtain ⟨hdup, -⟩ := List.mem_filter.mp hset
    obtain ⟨k, hk, hke⟩ := List.mem_map.mp hmem
    have hktree := set_eq_treeOf hdup hk
    have hlt : k < ids.length := by
      rw [hktree] at hk
      exact (mem_treeOf.mp hk).1
    obtain rfl := idAt_inj h hlt hn (hke.trans hid)
    rw [hkeep, ← hktree]
    exact ⟨fun _ => hx, fun hno => absurd hdup hno⟩

/-- the keeper of a member is a thesis of its tree -/
theorem folded_keeper_mem (h : ids.Nodup) {e : ℕ × Group} (he : e ∈ foldedGroups ids raw)
    {m : Member} (hm : m ∈ e.2.members) {n : ℕ} (hn : n < ids.length)
    (hid : m.thesisId = idAt ids n) : m.keeper ∈ (treeOf ids raw n).map (idAt ids) := by
  obtain ⟨hset, hsingle⟩ := folded_keeper h he hm hn hid
  by_cases hdup : treeOf ids raw n ∈ duplicateSets ids.length (joined ids raw).1
  · exact headOf_mem (hset hdup)
  · rw [hsingle hdup]
    exact List.mem_map_of_mem (mem_treeOf.mpr ⟨hn, rfl⟩)

theorem ungrouped_plain {groupOf : ℕ → Option ℕ} {g : Group} (hg : g ∈ ungrouped ids groupOf)
    {m : Member} (hm : m ∈ g.members) : m.keeper = m.thesisId := by
  unfold ungrouped at hg
  dsimp only at hg
  split_ifs at hg
  · exact absurd hg List.not_mem_nil
  · obtain rfl := List.mem_singleton.mp hg
    rw [Member.keeper, makeGroup_kept hm, Option.getD_none]

/-- the theses of one group that are connected have one keeper -/
theorem keeper_eq (h : ids.Nodup) {e : ℕ × Group} (he : e ∈ foldedGroups ids raw) {m k : Member}
    (hm : m ∈ e.2.members) (hk : k ∈ e.2.members) {n i : ℕ} (hn : n < ids.length)
    (hi : i < ids.length) (hmn : m.thesisId = idAt ids n) (hki : k.thesisId = idAt ids i)
    (hroot : (joined ids raw).1.root n = (joined ids raw).1.root i) : m.keeper = k.keeper := by
  have htree : treeOf ids raw i = treeOf ids raw n := by rw [treeOf, treeOf, hroot]
  obtain ⟨hset, hsingle⟩ := folded_keeper h he hm hn hmn
  obtain ⟨hset', hsingle'⟩ := folded_keeper h he hk hi hki
  by_cases hdup : treeOf ids raw n ∈ duplicateSets ids.length (joined ids raw).1
  · have h1 := hset hdup
    have h2 := hset' (htree ▸ hdup)
    rw [htree, h1] at h2
    exact Option.some.inj h2
  · have hin : i ∈ treeOf ids raw n := mem_treeOf.mpr ⟨hi, hroot.symm⟩
    rw [hsingle hdup, hsingle' (htree ▸ hdup), treeOf_single hn hdup hin]

/-- **Two theses end in one duplicate set exactly when valid pairs connect them.** -/
theorem sameSet_iff (h : ids.Nodup) {n k : ℕ} (hn : n < ids.length) (hk : k < ids.length) :
    SameSet (normalise ids raw).groups (idAt ids n) (idAt ids k) ↔
      Forest.Connected (validPairs ids raw) n k := by
  rw [← Forest.root_eq_iff, ← joined_forest]
  constructor
  · rintro ⟨g, hg, m, hm, i, hi, hmn, hik, hkeep⟩
    obtain hg | hg := List.mem_append.mp hg
    · obtain ⟨e, he, rfl⟩ := List.mem_map.mp hg
      obtain ⟨a, ha, hae⟩ := List.mem_map.mp (folded_keeper_mem h he hm hn hmn)
      obtain ⟨b, hb, hbe⟩ := List.mem_map.mp (folded_keeper_mem h he hi hk hik)
      obtain ⟨halt, haroot⟩ := mem_treeOf.mp ha
      obtain ⟨hblt, hbroot⟩ := mem_treeOf.mp hb
      -- the one keeper is a thesis of both trees
      have hab : a = b := idAt_inj h halt hblt (by rw [hae, hbe, hkeep])
      rw [← haroot, ← hbroot, hab]
    · rw [ungrouped_plain hg hm, ungrouped_plain hg hi, hmn, hik] at hkeep
      rw [idAt_inj h hn hk hkeep]
  · intro hroot
    have hmem : idAt ids n ∈ listedIds (normalise ids raw).groups := by
      rw [(normalise_ids h raw).mem_iff, idAt, List.getD_eq_getElem ids "" hn]
      exact List.getElem_mem hn
    obtain ⟨g, hg, hng⟩ := List.mem_flatMap.mp hmem
    obtain ⟨m, hm, hmn⟩ := exists_member hng
    obtain hfold | hun := List.mem_append.mp hg
    · obtain ⟨e, he, rfl⟩ := List.mem_map.mp hfold
      have hperm := folded_perm h he
      have hgk : (assigned ids raw).groupOf k = some e.1 := by
        rw [← joined_groups ids raw k, ← hroot, joined_groups]
        exact (mem_ids_iff h hperm hn).mp hng
      obtain ⟨i, hi, hik⟩ := exists_member ((mem_ids_iff h hperm hk).mpr hgk)
      exact ⟨e.2, hg, m, hm, i, hi, hmn, hik, keeper_eq h he hm hi hn hk hmn hik hroot⟩
    · have hnone : (assigned ids raw).groupOf n = none := by
        rw [← mem_ids_iff h (ungrouped_perm h) hn]
        exact List.mem_flatMap.mpr ⟨g, hun, hng⟩
      rw [joined_forest, Forest.root_eq_iff] at hroot
      obtain rfl := connected_ungrouped hroot hnone
      exact ⟨g, hg, m, hm, m, hm, hmn, hmn, rfl⟩

/-! ## the order of the reported pairs -/

/-- **The order of the reported pairs does not change the groups.** -/
theorem normalise_permuted {raw' : RawCuration} (hgroups : raw'.groups = raw.groups)
    (hassign : raw'.assign = raw.assign)
    (hperm : raw'.duplicates.items.Perm raw.duplicates.items) :
    (normalise ids raw').groups = (normalise ids raw).groups := by
  have hassigned : assigned ids raw' = assigned ids raw := by
    unfold assigned
    rw [hgroups, hassign]
  have hpairs : (validPairs ids raw').Perm (validPairs ids raw) := by
    unfold validPairs
    rw [hassigned]
    exact hperm.filterMap _
  have hroot : ∀ n, (joined ids raw').1.root n = (joined ids raw).1.root n := by
    intro n
    rw [joined_forest, joined_forest]
    refine Forest.root_congr (fun i j => ⟨fun hc => ?_, fun hc => ?_⟩) n
    · exact hc.mono hpairs.subset
    · exact hc.mono hpairs.symm.subset
  have hmodel : modelGroups ids raw' = modelGroups ids raw := by
    unfold modelGroups
    rw [hgroups, hassigned]
  show (foldedGroups ids raw').map Prod.snd ++ ungrouped ids (assigned ids raw').groupOf = _
  unfold foldedGroups duplicateSets
  rw [Forest.trees_congr hroot, hassigned, hmodel]
  rfl

/-! ## tensions -/

theorem foldl_addTension (entries : List Value) (s : Tensions) :
    (entries.foldl (addTension ids) s).tensions.length + (entries.foldl (addTension ids) s).dropped
      = s.tensions.length + s.dropped + entries.length := by
  induction entries generalizing s with
  | nil => rfl
  | cons e es ih =>
    have hstep : (addTension ids s e).tensions.length + (addTension ids s e).dropped
        = s.tensions.length + s.dropped + 1 := by
      unfold addTension
      cases pairOfEntry e ids.length with
      | none => rfl
      | some p =>
        dsimp only
        split_ifs
        · rfl
        · rw [List.length_append, List.length_singleton]
          show s.tensions.length + 1 + s.dropped = s.tensions.length + s.dropped + 1
          omega
    rw [List.foldl_cons, ih, hstep, List.length_cons]
    omega

/-! ## one answer -/

theorem normalise_first {g : Group} (hg : g ∈ (normalise ids raw).groups) :
    ∃ m, g.members.head? = some m ∧ g.representative = some m.thesisId := by
  have hfirst : ∃ id, g.representative = some id ∧ g.ids.head? = some id := by
    obtain hg | hg := List.mem_append.mp hg
    · obtain ⟨e, he, rfl⟩ := List.mem_map.mp hg
      exact folded_first he
    · unfold ungrouped at hg
      dsimp only at hg
      split_ifs at hg
      · exact absurd hg List.not_mem_nil
      · obtain rfl := List.mem_singleton.mp hg
        rw [makeGroup_ids]
        exact ⟨_, rfl, rfl⟩
  obtain ⟨id, hrep, hhead⟩ := hfirst
  rw [Group.ids, List.head?_map] at hhead
  obtain ⟨m, hm, rfl⟩ := Option.map_eq_some_iff.mp hhead
  exact ⟨m, hm, hrep⟩

end

/-- what the groups, the tensions and the report of an answer promise -/
structure Normalised (ids : List String) (raw : RawCuration) : Prop where
  once : (listedIds (normalise ids raw).groups).Perm ids
  one : ∀ id ∈ ids, ∃! j : ℕ, ∃ g, (normalise ids raw).groups[j]? = some g ∧ id ∈ g.ids
  nonempty : ∀ g ∈ (normalise ids raw).groups, g.members ≠ []
  first : ∀ g ∈ (normalise ids raw).groups,
    ∃ m, g.members.head? = some m ∧ g.representative = some m.thesisId
  kept : ∀ g ∈ (normalise ids raw).groups, g.Kept
  sets : ∀ n k, n < ids.length → k < ids.length →
    (SameSet (normalise ids raw).groups (idAt ids n) (idAt ids k) ↔
      Forest.Connected (validPairs ids raw) n k)
  permuted : ∀ raw' : RawCuration, raw'.groups = raw.groups → raw'.assign = raw.assign →
    raw'.duplicates.items.Perm raw.duplicates.items →
    (normalise ids raw').groups = (normalise ids raw).groups
  theses : (normalise ids raw).report.theses = ids.length
  assigned : (normalise ids raw).report.repeated + (normalise ids raw).report.unknown
      ≤ raw.assign.items.length ∧
    (normalise ids raw).report.unassigned ≤ ids.length ∧
    raw.assign.items.length - (normalise ids raw).report.repeated
      - (normalise ids raw).report.unknown = ids.length - (normalise ids raw).report.unassigned
  tensions : (normalise ids raw).tensions.length + (normalise ids raw).report.droppedTensions
    = raw.tensions.items.length

/-- **Whatever the curator answers, the groups hold every thesis once, the duplicates are folded
by connectedness, and the report balances.** -/
theorem normalise_normalised (ids : List String) (h : ids.Nodup) (raw : RawCuration) :
    Normalised ids raw := by
  have honce := normalise_ids h raw
  have hn : (listedIds (normalise ids raw).groups).Nodup := honce.nodup_iff.mpr h
  have hcount := (assigned_balanced ids raw).counted
  have hle : (inGroup ids.length (assigned ids raw).groupOf none).length ≤ ids.length := by
    have := List.length_filter_le (fun n => (assigned ids raw).groupOf n = none)
      (List.range ids.length)
    rwa [List.length_range] at this
  refine ⟨honce, fun id hid => ?_, fun g hg => ?_, fun g hg => normalise_first hg,
    fun g hg => ?_, fun n k hn hk => sameSet_iff h hn hk,
    fun raw' h1 h2 h3 => normalise_permuted h1 h2 h3, rfl, ?_, ?_⟩
  · exact existsUnique_place hn (honce.mem_iff.mpr hid)
  · obtain ⟨m, hm, -⟩ := normalise_first hg
    exact List.ne_nil_of_mem (List.mem_of_head? hm)
  · exact normalise_kept ids raw hg ((List.pairwise_flatMap.mp hn).1 g hg)
  · show (assigned ids raw).repeated + (assigned ids raw).unknown ≤ raw.assign.items.length ∧
      (inGroup ids.length (assigned ids raw).groupOf none).length ≤ ids.length ∧
      raw.assign.items.length - (assigned ids raw).repeated - (assigned ids raw).unknown
        = ids.length - (inGroup ids.length (assigned ids raw).groupOf none).length
    omega
  · exact (foldl_addTension raw.tensions.items ⟨[], [], 0⟩).trans (Nat.zero_add _)

/-- four theses, one of them in no group, two of them reported as duplicates twice -/
def sampleIds : List String := ["thesis_003", "thesis_001", "thesis_002", "thesis_004"]

def sampleRaw : RawCuration where
  groups := .array [.object [("label", .string "One file"),
    ("representative", .number (.posInt 1))], .null]
  assign := .array ([(0, 0), (1, 0), (2, 0), (2, 1), (9, 0)].map fun p =>
    .object [("n", .number (.posInt p.1)), ("g", .number (.posInt p.2))])
  duplicates := .array ([(0, 2), (2, 0), (1, 1), (0, 3)].map fun p =>
    .array [.number (.posInt p.1), .number (.posInt p.2)])
  tensions := .array [.array [.number (.posInt 0), .number (.posInt 1)],
    .array [.number (.posInt 1), .number (.posInt 0)]]

/-- the two duplicates are folded, the representative comes first -/
theorem normalise_normalised_sample :
    (normalise sampleIds sampleRaw).groups.map Group.members
      = [[⟨"thesis_001", none⟩, ⟨"thesis_002", none⟩, ⟨"thesis_003", some "thesis_002"⟩],
        [⟨"thesis_004", none⟩]] ∧ Normalised sampleIds sampleRaw :=
  ⟨by decide +kernel, normalise_normalised sampleIds (by decide) sampleRaw⟩

end Moagan.Discovery
