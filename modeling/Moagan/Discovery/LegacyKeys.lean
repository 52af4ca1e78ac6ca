import Mathlib.Data.List.AList
import Moagan.Discovery.Numbering

/-!
# The migration of bare profile keys (`migrate_legacy_keys` in `src/discovery/matrix.rs`)

* `Profiles`              the map of temperature profiles, with an order in which it iterates
* `migrateLegacyKeys`     the plan of the loop over the map, then its insertions and removals
* `migrate_eq`            only the bare key of the default model is rewritten
* `migrate_lookup`        what a lookup finds behind a migration
* `migrate_migrated`      nothing is lost, a second call does nothing, and every pair comes once
-/

namespace Moagan.Discovery

/-- `HashMap<String, TemperatureProfile>` -/
abbrev Profiles (F : Type) := AList fun _ : String => TemperatureProfile F

/-- `contains("::")` -/
def isJoined (key : String) : Bool := decide ("::".toList <:+: key.toList)

section
variable {F : Type}

/-! ## the loop -/

structure Plan (F : Type) where
  toInsert : List (String × TemperatureProfile F)
  toRemove : List String
  outOfScope : List String
  rewritten : ℕ

def Plan.empty : Plan F := ⟨[], [], [], 0⟩

variable (profiles : Profiles F) (defaultPair : Pair)

/-- the key of a bare key under the default section -/
def joinedKey (key : String) : String := registryKey (toLex ((ofLex defaultPair).1, key))

def planKey (plan : Plan F) (key : String) (profile : TemperatureProfile F) : Plan F :=
  if isJoined key then plan
  else if key ≠ (ofLex defaultPair).2 then { plan with outOfScope := plan.outOfScope ++ [key] }
  else if joinedKey defaultPair key = key then plan
  else if joinedKey defaultPair key ∈ profiles then
    { plan with toRemove := plan.toRemove ++ [key], rewritten := plan.rewritten + 1 }
  else
    { plan with
      toInsert := plan.toInsert ++ [(joinedKey defaultPair key, profile)]
      toRemove := plan.toRemove ++ [key]
      rewritten := plan.rewritten + 1 }

/-- the map behind a migration, and the number of keys rewritten -/
def migrateLegacyKeys : Profiles F × ℕ :=
  let plan := profiles.foldl (planKey profiles defaultPair) Plan.empty
  let inserted := plan.toInsert.foldl (fun ps e => ps.insert e.1 e.2) profiles
  (plan.toRemove.foldl (fun ps key => ps.erase key) inserted, plan.rewritten)

/-- the reader splits the keys that the migration takes for joined -/
theorem splitOnce_isSome (t : List Char) : (splitOnce t).isSome = true ↔ "::".toList <:+: t := by
  fun_induction splitOnce t with
  | case1 => simp
  | case2 rest => exact iff_of_true rfl ⟨[], rest, rfl⟩
  | case3 c rest hne ih =>
    rw [Option.isSome_map, ih, List.infix_cons_iff, or_iff_right]
    intro hfront
    obtain ⟨t, ht⟩ := hfront
    have ht : ':' :: ':' :: t = c :: rest := ht
    obtain ⟨hc, hrest⟩ := List.cons.inj ht
    exact hne t hc.symm hrest.symm

theorem isJoined_iff {key : String} : isJoined key = true ↔ (splitOnce key.toList).isSome = true := by
  rw [isJoined, decide_eq_true_eq, splitOnce_isSome]

/-! ## what is rewritten -/

theorem isJoined_registryKey (pair : Pair) : isJoined (registryKey pair) = true := by
  unfold isJoined registryKey
  rw [decide_eq_true_eq, String.toList_append, String.toList_append]
  exact ⟨_, _, rfl⟩

/-- the profile of the bare key of the default model -/
def legacy : Option (TemperatureProfile F) :=
  if isJoined (ofLex defaultPair).2 then none else profiles.lookup (ofLex defaultPair).2

/-- the key of the default pair -/
def defaultKey : String := joinedKey defaultPair (ofLex defaultPair).2

/-- only the out-of-scope keys are noted -/
theorem plan_other {es : List (Σ _ : String, TemperatureProfile F)} (plan : Plan F)
    (h : ∀ e ∈ es, isJoined e.1 = true ∨ e.1 ≠ (ofLex defaultPair).2) :
    ∃ out, es.foldl (fun p e => planKey profiles defaultPair p e.1 e.2) plan
      = { plan with outOfScope := out } := by
  induction es generalizing plan with
  | nil => exact ⟨plan.outOfScope, rfl⟩
  | cons e es ih =>
    have hes := fun plan => ih plan fun e' he' => h e' (List.mem_cons_of_mem _ he')
    rw [List.foldl_cons]
    by_cases hj : isJoined e.1 = true
    · rw [planKey, if_pos hj]
      exact hes plan
    · have hne := (h e List.mem_cons_self).resolve_left hj
      rw [planKey, if_neg hj, if_pos hne]
      exact hes _

variable {profiles defaultPair}

theorem legacy_eq_some {p : TemperatureProfile F} : legacy profiles defaultPair = some p ↔
    isJoined (ofLex defaultPair).2 = false ∧ profiles.lookup (ofLex defaultPair).2 = some p := by
  unfold legacy
  cases isJoined (ofLex defaultPair).2 <;> simp

theorem defaultKey_ne (h : isJoined (ofLex defaultPair).2 = false) :
    defaultKey defaultPair ≠ (ofLex defaultPair).2 := by
  intro he
  rw [← he, defaultKey, joinedKey, isJoined_registryKey] at h
  cases h

variable (profiles defaultPair)

/-- **Only the bare key of the default model is rewritten**: its profile moves to the key of the
default pair, unless there is one already. -/
theorem migrate_eq : migrateLegacyKeys profiles defaultPair =
    match legacy profiles defaultPair with
    | none => (profiles, 0)
    | some p => ((if defaultKey defaultPair ∈ profiles then profiles
        else profiles.insert (defaultKey defaultPair) p).erase (ofLex defaultPair).2, 1) := by
  unfold migrateLegacyKeys AList.foldl
  cases hleg : legacy profiles defaultPair with
  | none =>
    have hother : ∀ e ∈ profiles.entries, isJoined e.1 = true ∨ e.1 ≠ (ofLex defaultPair).2 := by
      intro e he
      by_cases hj : isJoined e.1 = true
      · exact Or.inl hj
      · right
        intro hk
        have hlook : profiles.lookup (ofLex defaultPair).2 = some e.2 :=
          AList.mem_lookup_iff.mpr (hk ▸ he)
        rw [legacy_eq_some.mpr ⟨by rw [← hk]; simpa using hj, hlook⟩] at hleg
        cases hleg
    obtain ⟨out, hout⟩ := plan_other profiles defaultPair Plan.empty hother
    simp only [hout]
    rfl
  | some p =>
    obtain ⟨hbare, hlook⟩ := legacy_eq_some.mp hleg
    obtain ⟨l₁, l₂, hsplit⟩ := List.append_of_mem (AList.mem_lookup_iff.mp hlook)
    have hnodup := profiles.nodupKeys
    rw [hsplit] at hnodup
    have hfresh := (List.nodupKeys_cons.mp (List.nodupKeys_middle.mp hnodup)).1
    have hother : ∀ e ∈ l₁ ++ l₂, isJoined e.1 = true ∨ e.1 ≠ (ofLex defaultPair).2 := by
      intro e he
      right
      intro hk
      apply hfresh
      show (ofLex defaultPair).2 ∈ (l₁ ++ l₂).keys
      rw [← hk]
      exact List.mem_keys_of_mem he
    obtain ⟨out₁, h₁⟩ := plan_other profiles defaultPair Plan.empty
      fun e he => hother e (List.mem_append_left _ he)
    have h₂ := fun plan => plan_other profiles defaultPair plan
      fun e he => hother e (List.mem_append_right l₁ he)
    rw [hsplit, List.foldl_append, h₁, List.foldl_cons, planKey, if_neg (by simp [hbare]),
      if_neg (by simp), ← defaultKey, if_neg (defaultKey_ne hbare)]
    by_cases hin : defaultKey defaultPair ∈ profiles
    · rw [if_pos hin]
      obtain ⟨out₂, h₂⟩ := h₂ _
      rw [h₂]
      simp [hin, Plan.empty]
    · rw [if_neg hin]
      obtain ⟨out₂, h₂⟩ := h₂ _
      rw [h₂]
      simp [hin, Plan.empty]

/-! ## what is left -/

variable {profiles defaultPair}

theorem migrate_none (h : legacy profiles defaultPair = none) :
    migrateLegacyKeys profiles defaultPair = (profiles, 0) := by
  rw [migrate_eq, h]

/-- **What a lookup finds behind a migration.** -/
theorem migrate_lookup {p : TemperatureProfile F} (h : legacy profiles defaultPair = some p)
    (key : String) : (migrateLegacyKeys profiles defaultPair).1.lookup key =
      if key = (ofLex defaultPair).2 then none
      else if key = defaultKey defaultPair then (profiles.lookup key).or (some p)
      else profiles.lookup key := by
  rw [migrate_eq, h]
  dsimp only
  by_cases hkey : key = (ofLex defaultPair).2
  · rw [if_pos hkey, hkey, AList.lookup_erase]
  · rw [if_neg hkey, AList.lookup_erase_ne hkey]
    by_cases hin : defaultKey defaultPair ∈ profiles
    · rw [if_pos hin]
      by_cases hk : key = defaultKey defaultPair
      · obtain ⟨q, hq⟩ := Option.isSome_iff_exists.mp (AList.lookup_isSome.mpr hin)
        rw [if_pos hk, hk, hq]
        rfl
      · rw [if_neg hk]
    · rw [if_neg hin]
      by_cases hk : key = defaultKey defaultPair
      · rw [if_pos hk, hk, AList.lookup_insert, AList.lookup_eq_none.mpr hin]
        rfl
      · rw [if_neg hk, AList.lookup_insert_ne hk]

/-- no bare key of the default model is left -/
theorem legacy_migrate : legacy (migrateLegacyKeys profiles defaultPair).1 defaultPair = none := by
  cases h : legacy profiles defaultPair with
  | none => rw [migrate_none h, h]
  | some p =>
    rw [legacy, migrate_lookup h, if_pos rfl]
    split_ifs <;> rfl

/-! ## the pairs behind a migration -/

/-- the map as it iterates -/
def iteration (ps : Profiles F) : List (String × TemperatureProfile F) :=
  ps.entries.map fun e => (e.1, e.2)

theorem mem_iteration {ps : Profiles F} {key : String} {p : TemperatureProfile F} :
    (key, p) ∈ iteration ps ↔ ps.lookup key = some p := by
  unfold iteration
  rw [List.mem_map]
  constructor
  · intro h
    obtain ⟨⟨k, q⟩, he, hkq⟩ := h
    obtain ⟨rfl, rfl⟩ := Prod.mk.inj hkq
    exact AList.mem_lookup_iff.mpr he
  · intro h
    exact ⟨⟨key, p⟩, AList.mem_lookup_iff.mp h, rfl⟩

/-- each pair once, whatever the order of the iteration; a key that alone names its pair gives it its
profile -/
structure PairsOnce (ps : Profiles F) (m : ExplorationMatrix F) (r : Run F) : Prop where
  nodup : ((activeProviderProfiles m r).entries.map Prod.fst).Nodup
  pairs : ∀ pair, pair ∈ (activeProviderProfiles m r).entries.map Prod.fst ↔
    pair = r.defaultPair ∨ ∃ key ∈ ps, pairOf (ofLex r.defaultPair).1 key = pair
  alone : ∀ key p, ps.lookup key = some p →
    (∀ key' ∈ ps, pairOf (ofLex r.defaultPair).1 key' = pairOf (ofLex r.defaultPair).1 key →
      key' = key) →
    (pairOf (ofLex r.defaultPair).1 key, p) ∈ (activeProviderProfiles m r).entries

theorem pairs_once {ps : Profiles F} (m : ExplorationMatrix F) {r : Run F}
    (horder : r.order.Perm (iteration ps)) : PairsOnce ps m r := by
  have hmem : ∀ key p, (key, p) ∈ r.order.reverse ↔ ps.lookup key = some p := fun key p => by
    rw [List.mem_reverse, horder.mem_iff, mem_iteration]
  refine ⟨List.pairwise_map.mpr ((activeProviderProfiles m r).sorted.imp ne_of_lt),
    fun pair => ?_, fun key p hp halone => ?_⟩
  · have hget : pair ∈ (activeProviderProfiles m r).entries.map Prod.fst ↔
        ((activeProviderProfiles m r).get? pair).isSome = true := by
      rw [List.mem_map, Option.isSome_iff_exists]
      constructor
      · intro h
        obtain ⟨e, he, rfl⟩ := h
        exact ⟨e.2, SortedMap.get?_eq_some_iff.mpr he⟩
      · intro h
        obtain ⟨p, hp⟩ := h
        exact ⟨_, SortedMap.get?_eq_some_iff.mp hp, rfl⟩
    rw [hget, activeProviderProfiles_get?, Option.isSome_or, Option.isSome_map, Bool.or_eq_true,
      List.find?_isSome]
    constructor
    · intro h
      obtain ⟨e, he, hpair⟩ | hdef := h
      · have hin : e.1 ∈ ps := AList.lookup_isSome.mp (by rw [(hmem e.1 e.2).mp he]; rfl)
        exact Or.inr ⟨e.1, hin, of_decide_eq_true hpair⟩
      · left
        by_contra hne
        rw [if_neg hne] at hdef
        cases hdef
    · intro h
      obtain rfl | ⟨key, hkey, hpair⟩ := h
      · right
        rw [if_pos rfl]
        rfl
      · obtain ⟨p, hp⟩ := Option.isSome_iff_exists.mp (AList.lookup_isSome.mpr hkey)
        exact Or.inl ⟨(key, p), (hmem key p).mpr hp, decide_eq_true hpair⟩
  · rw [← SortedMap.get?_eq_some_iff, activeProviderProfiles_get?]
    cases hf : r.order.reverse.find? fun e =>
        pairOf (ofLex r.defaultPair).1 e.1 = pairOf (ofLex r.defaultPair).1 key with
    | none =>
      have := List.find?_eq_none.mp hf (key, p) ((hmem key p).mpr hp)
      simp at this
    | some e =>
      have hlook := (hmem e.1 e.2).mp (List.mem_of_find?_eq_some hf)
      have hkey : e.1 = key := halone e.1 (AList.lookup_isSome.mp (by rw [hlook]; rfl))
        (by simpa using List.find?_some hf)
      rw [hkey, hp] at hlook
      rw [Option.map_some, Option.some_or, Option.some.inj hlook]

/-! ## the migration -/

/-- what a migration leaves -/
structure Migrated (before after : Profiles F) (rewritten : ℕ) (defaultPair : Pair) : Prop where
  /-- a key names its pair, or is the bare key of another model, as before -/
  named : ∀ key ∈ after, (splitOnce key.toList).isSome = true ∨
    key ≠ (ofLex defaultPair).2 ∧ key ∈ before
  /-- no profile is lost: it stays, or moves to the key of the default pair, where an explicit entry
  wins -/
  kept : ∀ key p, before.lookup key = some p → after.lookup key = some p ∨
    key = (ofLex defaultPair).2 ∧ after.lookup (defaultKey defaultPair)
      = (before.lookup (defaultKey defaultPair)).or (some p)
  /-- none is made up -/
  origin : ∀ key p, after.lookup key = some p → before.lookup key = some p ∨
    key = defaultKey defaultPair ∧ before.lookup (ofLex defaultPair).2 = some p
  count : rewritten = (before.keys.filter fun key => decide (key ∉ after)).length
  settled : migrateLegacyKeys after defaultPair = (after, 0)
  once : ∀ (m : ExplorationMatrix F) (r : Run F), r.defaultPair = defaultPair →
    r.order.Perm (iteration after) → PairsOnce after m r

/-- a key but the rewritten one is found where it was -/
theorem mem_migrate {p : TemperatureProfile F} (h : legacy profiles defaultPair = some p)
    {key : String} (hkey : key ∈ profiles) :
    key ∈ (migrateLegacyKeys profiles defaultPair).1 ↔ key ≠ (ofLex defaultPair).2 := by
  rw [← AList.lookup_isSome, migrate_lookup h]
  have hsome := AList.lookup_isSome.mpr hkey
  by_cases hm : key = (ofLex defaultPair).2
  · simp [hm]
  · rw [if_neg hm]
    split_ifs
    · simp [hm]
    · simp [hsome, hm]

section
variable {p : TemperatureProfile F} (h : legacy profiles defaultPair = some p)
include h

theorem migrate_named {key : String} (hkey : key ∈ (migrateLegacyKeys profiles defaultPair).1) :
    (splitOnce key.toList).isSome = true ∨ key ≠ (ofLex defaultPair).2 ∧ key ∈ profiles := by
  rw [← AList.lookup_isSome, migrate_lookup h] at hkey
  by_cases hm : key = (ofLex defaultPair).2
  · rw [if_pos hm] at hkey
    cases hkey
  · rw [if_neg hm] at hkey
    by_cases hd : key = defaultKey defaultPair
    · left
      rw [hd]
      exact isJoined_iff.mp (isJoined_registryKey _)
    · rw [if_neg hd] at hkey
      exact Or.inr ⟨hm, AList.lookup_isSome.mp hkey⟩

theorem migrate_kept {key : String} {q : TemperatureProfile F} (hq : profiles.lookup key = some q) :
    (migrateLegacyKeys profiles defaultPair).1.lookup key = some q ∨
      key = (ofLex defaultPair).2 ∧
        (migrateLegacyKeys profiles defaultPair).1.lookup (defaultKey defaultPair)
          = (profiles.lookup (defaultKey defaultPair)).or (some q) := by
  obtain ⟨hbare, hlook⟩ := legacy_eq_some.mp h
  rw [migrate_lookup h, migrate_lookup h]
  by_cases hm : key = (ofLex defaultPair).2
  · right
    rw [hm, hlook] at hq
    rw [if_neg (defaultKey_ne hbare), if_pos rfl, ← Option.some.inj hq]
    exact ⟨hm, rfl⟩
  · left
    rw [if_neg hm, hq]
    split_ifs <;> rfl

theorem migrate_origin {key : String} {q : TemperatureProfile F}
    (hq : (migrateLegacyKeys profiles defaultPair).1.lookup key = some q) :
    profiles.lookup key = some q ∨
      key = defaultKey defaultPair ∧ profiles.lookup (ofLex defaultPair).2 = some q := by
  obtain ⟨-, hlook⟩ := legacy_eq_some.mp h
  rw [migrate_lookup h] at hq
  by_cases hm : key = (ofLex defaultPair).2
  · rw [if_pos hm] at hq
    cases hq
  · rw [if_neg hm] at hq
    by_cases hd : key = defaultKey defaultPair
    · rw [if_pos hd] at hq
      cases hold : profiles.lookup key with
      | none =>
        rw [hold] at hq
        exact Or.inr ⟨hd, hlook.trans hq⟩
      | some q' =>
        rw [hold] at hq
        exact Or.inl hq
    · rw [if_neg hd] at hq
      exact Or.inl hq

/-- the one key that is gone is the rewritten one -/
theorem migrate_count : (migrateLegacyKeys profiles defaultPair).2 = (profiles.keys.filter
    fun key => decide (key ∉ (migrateLegacyKeys profiles defaultPair).1)).length := by
  obtain ⟨-, hlook⟩ := legacy_eq_some.mp h
  have hgone : profiles.keys.filter
      (fun key => decide (key ∉ (migrateLegacyKeys profiles defaultPair).1))
        = profiles.keys.filter (· == (ofLex defaultPair).2) := by
    apply List.filter_congr
    intro key hkey
    have hmem := mem_migrate h (AList.mem_keys.mpr hkey)
    rw [beq_eq_decide, decide_eq_decide, hmem, not_not]
  have hin : (ofLex defaultPair).2 ∈ profiles.keys :=
    AList.mem_keys.mp (AList.lookup_isSome.mp (by rw [hlook]; rfl))
  rw [hgone, ← List.countP_eq_length_filter, ← List.count,
    List.count_eq_one_of_mem profiles.keys_nodup hin, migrate_eq, h]

end

/-- where no bare key is left, every key is joined or of another model -/
theorem named_of_legacy_none (h : legacy profiles defaultPair = none) {key : String}
    (hkey : key ∈ profiles) :
    (splitOnce key.toList).isSome = true ∨ key ≠ (ofLex defaultPair).2 ∧ key ∈ profiles := by
  by_cases hj : isJoined key = true
  · exact Or.inl (isJoined_iff.mp hj)
  · refine Or.inr ⟨fun hk => ?_, hkey⟩
    obtain ⟨p, hp⟩ := Option.isSome_iff_exists.mp (AList.lookup_isSome.mpr hkey)
    have hbare : isJoined (ofLex defaultPair).2 = false := by
      rw [← hk]
      simpa using hj
    rw [legacy_eq_some.mpr ⟨hbare, hk ▸ hp⟩] at h
    cases h

/-- **A migration loses no profile and leaves no bare key of the default model; a second one does
nothing, and behind it every pair comes once, whatever the order of the iteration.** -/
theorem migrate_migrated (profiles : Profiles F) (defaultPair : Pair) :
    Migrated profiles (migrateLegacyKeys profiles defaultPair).1
      (migrateLegacyKeys profiles defaultPair).2 defaultPair := by
  have hleft : legacy (migrateLegacyKeys profiles defaultPair).1 defaultPair = none := legacy_migrate
  have hsettled := migrate_none hleft
  have honce : ∀ (m : ExplorationMatrix F) (r : Run F), r.defaultPair = defaultPair →
      r.order.Perm (iteration (migrateLegacyKeys profiles defaultPair).1) →
      PairsOnce (migrateLegacyKeys profiles defaultPair).1 m r :=
    fun m r _ horder => pairs_once m horder
  cases hleg : legacy profiles defaultPair with
  | none =>
    rw [migrate_none hleg] at hsettled honce ⊢
    have hall : profiles.keys.filter (fun key => decide (key ∉ profiles)) = [] := by
      rw [List.filter_eq_nil_iff]
      intro key hkey
      simpa using AList.mem_keys.mpr hkey
    refine ⟨fun key hkey => named_of_legacy_none hleg hkey, fun key p hp => Or.inl hp,
      fun key p hp => Or.inl hp, ?_, hsettled, honce⟩
    rw [hall]
    rfl
  | some p =>
    exact ⟨fun key hkey => migrate_named hleg hkey, fun key q hq => migrate_kept hleg hq,
      fun key q hq => migrate_origin hleg hq, migrate_count hleg, hsettled, honce⟩

end

/-- the one entry of a sidecar that a run of another provider wrote -/
def bareProfiles : Profiles ℕ := AList.singleton "MiniMax-M3" ⟨[0, 5], 2⟩

/-- a bare key of another model stays, and names neither an explicit pair nor the default one -/
theorem bare_key_stays :
    ¬ ∀ (profiles : Profiles ℕ) (defaultPair : Pair),
      ∀ key ∈ (migrateLegacyKeys profiles defaultPair).1,
        (splitOnce key.toList).isSome = true ∨ pairOf (ofLex defaultPair).1 key = defaultPair := by
  intro hall
  have hleg : legacy bareProfiles (toLex ("deepseek", "deepseek-v4-flash")) = none := by
    decide +kernel
  have hkey : "MiniMax-M3" ∈ bareProfiles := by decide
  have := hall bareProfiles (toLex ("deepseek", "deepseek-v4-flash")) "MiniMax-M3"
    (by rw [migrate_none hleg]; exact hkey)
  exact absurd this (by decide +kernel)

end Moagan.Discovery
