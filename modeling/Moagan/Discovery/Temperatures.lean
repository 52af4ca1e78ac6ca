import Mathlib.Algebra.Order.Field.Rat
import Mathlib.Algebra.Order.Group.Abs
import Mathlib.Data.List.Dedup
import Mathlib.Data.List.MinMax
import Mathlib.Tactic.NormNum
import Moagan.Discovery.LegacyKeys

/-!
# Temperatures that the providers support (`src/discovery/matrix.rs`,
`src/llm/temperature_probe.rs`)

* `nearestInSet`                    the first of the nearest candidates
* `rewriteTemperaturesToSupported`  every profile with a set is snapped to it
* `nearestInSet_eq_argmin`          the loop finds what `List.argmin` finds
* `snap_snap`                       a snapped temperature stays
* `rewrite_lookup`                  what a lookup finds behind a rewrite
* `rewrite_settles`                 one pass is enough

Temperatures are exact rationals.
-/

namespace Moagan.Discovery

/-! ## the nearest candidate -/

/-- the best candidate so far, its distance and its index -/
abbrev Best := Option (ℚ × ℚ × ℕ)

def nearer (requested : ℚ) (best : Best) (candidate : ℚ × ℕ) : Best :=
  let dist := |candidate.1 - requested|
  match best with
  | none => some (candidate.1, dist, candidate.2)
  | some (c, bestDist, bestIdx) =>
    if dist < bestDist ∨ dist = bestDist ∧ candidate.2 < bestIdx then
      some (candidate.1, dist, candidate.2)
    else some (c, bestDist, bestIdx)

def nearestInSet (candidates : List ℚ) (requested : ℚ) : Option ℚ :=
  (candidates.zipIdx.foldl (nearer requested) none).map Prod.fst

/-- the loop holds what `List.argmin` finds, with its distance -/
def HoldsNearest (candidates : List ℚ) (requested : ℚ) : Best → Prop
  | none => candidates.argmin (fun c => |c - requested|) = none
  | some (c, dist, idx) => candidates.argmin (fun c => |c - requested|) = some c ∧
      dist = |c - requested| ∧ idx < candidates.length

theorem foldl_nearer (candidates : List ℚ) (requested : ℚ) :
    HoldsNearest candidates requested (candidates.zipIdx.foldl (nearer requested) none) := by
  induction candidates using List.reverseRecOn with
  | nil => exact List.argmin_nil _
  | append_singleton cs x ih =>
    rw [List.zipIdx_append, List.foldl_append]
    show HoldsNearest (cs ++ [x]) requested
      (nearer requested (cs.zipIdx.foldl (nearer requested) none) (x, 0 + cs.length))
    have hlen : cs.length < (cs ++ [x]).length := by
      rw [List.length_append, List.length_singleton]
      exact Nat.lt_succ_self _
    have hmin := List.argmin_concat (fun c => |c - requested|) x cs
    rw [Nat.zero_add]
    cases hb : cs.zipIdx.foldl (nearer requested) none with
    | none =>
      rw [hb] at ih
      have ih : cs.argmin (fun c => |c - requested|) = none := ih
      rw [ih] at hmin
      exact ⟨hmin, rfl, hlen⟩
    | some best =>
      obtain ⟨c, dist, idx⟩ := best
      rw [hb] at ih
      obtain ⟨hc, rfl, hidx⟩ := ih
      rw [hc] at hmin
      dsimp only at hmin
      by_cases hlt : |x - requested| < |c - requested|
      · rw [if_pos hlt] at hmin
        rw [nearer, if_pos (Or.inl hlt)]
        exact ⟨hmin, rfl, hlen⟩
      · -- at a tie the earlier candidate stays
        have hstay : ¬ (|x - requested| < |c - requested| ∨
            |x - requested| = |c - requested| ∧ cs.length < idx) := by
          intro h
          obtain h | ⟨-, h⟩ := h
          · exact hlt h
          · omega
        rw [if_neg hlt] at hmin
        rw [nearer, if_neg hstay]
        exact ⟨hmin, rfl, hidx.trans hlen⟩

/-- **The loop finds the first of the nearest candidates.** -/
theorem nearestInSet_eq_argmin (candidates : List ℚ) (requested : ℚ) :
    nearestInSet candidates requested = candidates.argmin fun c => |c - requested| := by
  have h := foldl_nearer candidates requested
  unfold nearestInSet
  cases hb : candidates.zipIdx.foldl (nearer requested) none with
  | none =>
    rw [hb] at h
    exact h.symm
  | some best =>
    rw [hb] at h
    exact h.1.symm

/-- the temperature that takes the place of a declared one -/
def snap (supported : List ℚ) (t : ℚ) : ℚ := (nearestInSet supported t).getD t

theorem snap_nil (t : ℚ) : snap [] t = t := rfl

/-- a snapped temperature is the nearest of its set -/
theorem snap_nearest {supported : List ℚ} (h : supported ≠ []) (t : ℚ) :
    snap supported t ∈ supported ∧ ∀ c ∈ supported, |snap supported t - t| ≤ |c - t| := by
  unfold snap
  rw [nearestInSet_eq_argmin]
  cases hm : supported.argmin fun c => |c - t| with
  | none => exact absurd (List.argmin_eq_none.mp hm) h
  | some m => exact ⟨List.argmin_mem hm, fun c hc =>
    List.le_of_mem_argmin (f := fun c => |c - t|) hc hm⟩

/-- **A snapped temperature stays.** -/
theorem snap_snap (supported : List ℚ) (t : ℚ) :
    snap supported (snap supported t) = snap supported t := by
  by_cases h : supported = []
  · rw [h, snap_nil, snap_nil]
  · have hmem := (snap_nearest h t).1
    have hle := (snap_nearest h (snap supported t)).2 _ hmem
    rw [sub_self, abs_zero, abs_nonpos_iff, sub_eq_zero] at hle
    exact hle

/-! ## the rewrite -/

structure RewriteEvent where
  providerModel : String
  requested : List ℚ
  clampedTo : List ℚ
  nClamped : ℕ
  originalCount : ℕ
  uniqueCount : ℕ
  droppedCount : ℕ
  effectiveFanoutPerCell : ℕ
deriving DecidableEq, Repr

/-- further apart than `1e-3` -/
def movedFar (a b : ℚ) : Bool := decide (1 / 1000 < |a - b|)

section
variable (supported : List ℚ) (p : TemperatureProfile ℚ)

def rewritten : List ℚ := p.temperatures.map (snap supported)

def nClamped : ℕ :=
  ((p.temperatures.zip (rewritten supported p)).filter fun x => movedFar x.1 x.2).length

def rewriteEvent (model : String) : RewriteEvent :=
  let unique := (rewritten supported p).dedup.length
  { providerModel := model
    requested := p.temperatures
    clampedTo := rewritten supported p
    nClamped := nClamped supported p
    originalCount := p.temperatures.length
    uniqueCount := unique
    droppedCount := p.temperatures.length - unique
    effectiveFanoutPerCell := p.replicasPerTemperature * unique }

end

/-- one round of the loop over the supported sets -/
def rewriteRound (st : Profiles ℚ × List RewriteEvent) (model : String) (supported : List ℚ) :
    Profiles ℚ × List RewriteEvent :=
  match st.1.lookup model with
  | none => st
  | some p =>
    if nClamped supported p = 0 then st
    else (st.1.insert model { p with temperatures := rewritten supported p },
      st.2 ++ [rewriteEvent supported p model])

/-- `supportedSets` as the map iterates -/
def rewriteTemperaturesToSupported (profiles : Profiles ℚ)
    (supportedSets : AList fun _ : String => List ℚ) : Profiles ℚ × List RewriteEvent :=
  supportedSets.foldl rewriteRound (profiles, [])

/-! ## one profile -/

/-- the profile behind the round of its set -/
def snapped (supported : List ℚ) (p : TemperatureProfile ℚ) : TemperatureProfile ℚ :=
  if nClamped supported p = 0 then p else { p with temperatures := rewritten supported p }

theorem zip_map_self {α β : Type*} (f : α → β) (xs : List α) :
    xs.zip (xs.map f) = xs.map fun x => (x, f x) := by
  induction xs with
  | nil => rfl
  | cons x xs ih => rw [List.map_cons, List.zip_cons_cons, ih, List.map_cons]

/-- nothing is counted iff no temperature is far from its set -/
theorem nClamped_eq_zero {supported : List ℚ} {p : TemperatureProfile ℚ} :
    nClamped supported p = 0 ↔ ∀ t ∈ p.temperatures, movedFar t (snap supported t) = false := by
  unfold nClamped rewritten
  rw [zip_map_self, List.length_eq_zero_iff, List.filter_eq_nil_iff, List.forall_mem_map]
  simp

theorem movedFar_self (t : ℚ) : movedFar t t = false := by
  rw [movedFar, sub_self, abs_zero]
  norm_num

/-- **A snapped profile has nothing left to snap.** -/
theorem nClamped_snapped (supported : List ℚ) (p : TemperatureProfile ℚ) :
    nClamped supported (snapped supported p) = 0 := by
  unfold snapped
  by_cases h : nClamped supported p = 0
  · rw [if_pos h]
    exact h
  · rw [if_neg h, nClamped_eq_zero]
    intro t ht
    obtain ⟨t₀, -, rfl⟩ := List.mem_map.mp ht
    rw [snap_snap, movedFar_self]

/-- **Every temperature of a snapped profile is near a member of the set.** -/
theorem snapped_near {supported : List ℚ} (hs : supported ≠ []) (p : TemperatureProfile ℚ) :
    ∀ t ∈ (snapped supported p).temperatures, ∃ c ∈ supported, |t - c| ≤ 1 / 1000 := by
  intro t ht
  have hfar := nClamped_eq_zero.mp (nClamped_snapped supported p) t ht
  refine ⟨snap supported t, (snap_nearest hs t).1, ?_⟩
  rw [movedFar, decide_eq_false_iff_not] at hfar
  exact not_lt.mp hfar

/-- a profile changes iff something is counted -/
theorem snapped_eq_iff {supported : List ℚ} {p : TemperatureProfile ℚ} :
    snapped supported p = p ↔ nClamped supported p = 0 := by
  unfold snapped
  constructor
  · intro h
    by_contra hne
    rw [if_neg hne] at h
    have htemps := congrArg TemperatureProfile.temperatures h
    apply hne
    rw [nClamped_eq_zero]
    intro t ht
    have hself : snap supported t = t := by
      have hmap : p.temperatures.map (snap supported) = p.temperatures.map id :=
        htemps.trans (List.map_id _).symm
      exact List.map_inj_left.mp hmap t ht
    rw [hself, movedFar_self]
  · intro h
    rw [if_pos h]

/-! ## the loop -/

/-- what a round leaves at a key, and what it emits -/
theorem round_spec (st : Profiles ℚ × List RewriteEvent) (model : String) (supported : List ℚ) :
    (∀ key, (rewriteRound st model supported).1.lookup key =
      if key = model then (st.1.lookup model).map (snapped supported) else st.1.lookup key) ∧
    (rewriteRound st model supported).2 = st.2 ++ ((st.1.lookup model).bind fun p =>
      if nClamped supported p = 0 then none else some (rewriteEvent supported p model)).toList := by
  unfold rewriteRound
  cases hp : st.1.lookup model with
  | none =>
    refine ⟨fun key => ?_, (List.append_nil _).symm⟩
    split_ifs with hk
    · rw [hk, hp]
      rfl
    · rfl
  | some p =>
    dsimp only [Option.map_some, Option.bind_some]
    unfold snapped
    by_cases h : nClamped supported p = 0
    · rw [if_pos h, if_pos h, if_pos h]
      refine ⟨fun key => ?_, (List.append_nil _).symm⟩
      split_ifs with hk
      · rw [hk, hp]
      · rfl
    · rw [if_neg h, if_neg h, if_neg h]
      refine ⟨fun key => ?_, rfl⟩
      split_ifs with hk
      · rw [hk, AList.lookup_insert]
      · rw [AList.lookup_insert_ne hk]

/-- the event of a set -/
def eventOf (profiles : Profiles ℚ) (e : Σ _ : String, List ℚ) : Option RewriteEvent :=
  (profiles.lookup e.1).bind fun p =>
    if nClamped e.2 p = 0 then none else some (rewriteEvent e.2 p e.1)

/-- **What the loop leaves at a key, and what it emits**: every set acts on its own profile. -/
theorem foldl_round (es : List (Σ _ : String, List ℚ)) : ∀ (st : Profiles ℚ × List RewriteEvent),
    es.NodupKeys →
    (∀ key, (es.foldl (fun st e => rewriteRound st e.1 e.2) st).1.lookup key =
      match es.dlookup key with
      | none => st.1.lookup key
      | some supported => (st.1.lookup key).map (snapped supported)) ∧
    (es.foldl (fun st e => rewriteRound st e.1 e.2) st).2 = st.2 ++ es.filterMap (eventOf st.1) := by
  induction es with
  | nil => exact fun st _ => ⟨fun _ => rfl, (List.append_nil _).symm⟩
  | cons e es ih =>
    obtain ⟨model, supported⟩ := e
    intro st hnodup
    obtain ⟨hfresh, hes⟩ := List.nodupKeys_cons.mp hnodup
    obtain ⟨hlook, hevents⟩ := round_spec st model supported
    obtain ⟨ihlook, ihevents⟩ := ih (rewriteRound st model supported) hes
    rw [List.foldl_cons]
    refine ⟨fun key => ?_, ?_⟩
    · rw [ihlook, hlook]
      by_cases hk : key = model
      · subst hk
        rw [if_pos rfl, List.dlookup_cons_eq, List.dlookup_eq_none.mpr hfresh]
      · have hskip : List.dlookup key ((⟨model, supported⟩ : Σ _ : String, List ℚ) :: es)
            = List.dlookup key es := List.dlookup_cons_ne es ⟨model, supported⟩ hk
        rw [if_neg hk, hskip]
    · have hrest : es.filterMap (eventOf (rewriteRound st model supported).1)
          = es.filterMap (eventOf st.1) := by
        apply List.filterMap_congr
        intro e' he'
        have hne : e'.1 ≠ model := by
          intro h
          have hmem := List.mem_keys_of_mem he'
          rw [h] at hmem
          exact hfresh hmem
        rw [eventOf, eventOf, hlook, if_neg hne]
      rw [ihevents, hevents, hrest, List.append_assoc]
      congr 1
      rw [List.filterMap_cons]
      show (eventOf st.1 ⟨model, supported⟩).toList ++ _ = _
      cases eventOf st.1 ⟨model, supported⟩ <;> rfl

section
variable (profiles : Profiles ℚ) (sets : AList fun _ : String => List ℚ)

/-- **What a lookup finds behind a rewrite.** -/
theorem rewrite_lookup (key : String) :
    (rewriteTemperaturesToSupported profiles sets).1.lookup key =
      match sets.lookup key with
      | none => profiles.lookup key
      | some supported => (profiles.lookup key).map (snapped supported) :=
  (foldl_round sets.entries (profiles, []) sets.nodupKeys).1 key

theorem rewrite_events :
    (rewriteTemperaturesToSupported profiles sets).2 = sets.entries.filterMap (eventOf profiles) :=
  (foldl_round sets.entries (profiles, []) sets.nodupKeys).2

variable {profiles sets}

theorem mem_events {ev : RewriteEvent} : ev ∈ (rewriteTemperaturesToSupported profiles sets).2 ↔
    ∃ model supported p, sets.lookup model = some supported ∧ profiles.lookup model = some p ∧
      nClamped supported p ≠ 0 ∧ rewriteEvent supported p model = ev := by
  rw [rewrite_events, List.mem_filterMap]
  constructor
  · intro h
    obtain ⟨⟨model, supported⟩, he, hev⟩ := h
    obtain ⟨p, hp, hev⟩ := Option.bind_eq_some_iff.mp hev
    split_ifs at hev with h0
    exact ⟨model, supported, p, AList.mem_lookup_iff.mpr he, hp, h0, Option.some.inj hev⟩
  · intro h
    obtain ⟨model, supported, p, hs, hp, h0, rfl⟩ := h
    refine ⟨⟨model, supported⟩, AList.mem_lookup_iff.mp hs, ?_⟩
    rw [eventOf, hp, Option.bind_some, if_neg h0]

/-- the events come for models of their own -/
theorem events_nodup :
    ((rewriteTemperaturesToSupported profiles sets).2.map RewriteEvent.providerModel).Nodup := by
  rw [rewrite_events]
  have hsub : ∀ es : List (Σ _ : String, List ℚ),
      ((es.filterMap (eventOf profiles)).map RewriteEvent.providerModel).Sublist es.keys := by
    intro es
    induction es with
    | nil => exact List.Sublist.slnil
    | cons e es ih =>
      rw [List.filterMap_cons, List.keys_cons]
      cases hev : eventOf profiles e with
      | none => exact ih.cons _
      | some ev =>
        obtain ⟨p, -, hev⟩ := Option.bind_eq_some_iff.mp hev
        have hmodel : ev.providerModel = e.1 := by
          split_ifs at hev
          rw [← Option.some.inj hev]
          rfl
        rw [List.map_cons, hmodel]
        exact ih.cons_cons _
  exact (hsub sets.entries).nodup sets.nodupKeys

/-- a rewrite that finds nothing far from its set leaves everything -/
theorem rewrite_idle (h : ∀ model supported p, sets.lookup model = some supported →
    profiles.lookup model = some p → nClamped supported p = 0) :
    rewriteTemperaturesToSupported profiles sets = (profiles, []) := by
  have hidle : ∀ es : List (Σ _ : String, List ℚ), (∀ e ∈ es, e ∈ sets.entries) →
      es.foldl (fun st e => rewriteRound st e.1 e.2) (profiles, []) = (profiles, []) := by
    intro es
    induction es with
    | nil => exact fun _ => rfl
    | cons e es ih =>
      intro hes
      have hround : rewriteRound (profiles, []) e.1 e.2 = (profiles, []) := by
        unfold rewriteRound
        cases hp : profiles.lookup e.1 with
        | none => rfl
        | some p =>
          dsimp only
          rw [if_pos (h e.1 e.2 p (AList.mem_lookup_iff.mpr (hes e List.mem_cons_self)) hp)]
      rw [List.foldl_cons, hround]
      exact ih fun e' he' => hes e' (List.mem_cons_of_mem _ he')
  exact hidle sets.entries fun _ he => he

/-! ## one pass -/

/-- what a rewrite leaves -/
structure Settled (before : Profiles ℚ) (sets : AList fun _ : String => List ℚ) (after : Profiles ℚ)
    (events : List RewriteEvent) : Prop where
  near : ∀ model supported p, sets.lookup model = some supported → supported ≠ [] →
    after.lookup model = some p → ∀ t ∈ p.temperatures, ∃ c ∈ supported, |t - c| ≤ 1 / 1000
  untouched : ∀ model, model ∉ sets → after.lookup model = before.lookup model
  kept : ∀ model p, before.lookup model = some p → ∃ q, after.lookup model = some q ∧
    q.replicasPerTemperature = p.replicasPerTemperature ∧
    q.temperatures.length = p.temperatures.length
  /-- an event a changed profile -/
  once : (events.map RewriteEvent.providerModel).Nodup
  changed : ∀ model, model ∈ events.map RewriteEvent.providerModel ↔
    after.lookup model ≠ before.lookup model
  /-- the event has the temperatures of the profile in front and behind, and counts those that moved
  far -/
  told : ∀ ev ∈ events, ∃ p, before.lookup ev.providerModel = some p ∧ ev.requested = p.temperatures ∧
    after.lookup ev.providerModel = some { p with temperatures := ev.clampedTo } ∧
    ev.nClamped = ((ev.requested.zip ev.clampedTo).filter fun x => movedFar x.1 x.2).length
  settled : rewriteTemperaturesToSupported after sets = (after, [])

theorem snapped_length (supported : List ℚ) (p : TemperatureProfile ℚ) :
    (snapped supported p).replicasPerTemperature = p.replicasPerTemperature ∧
      (snapped supported p).temperatures.length = p.temperatures.length := by
  unfold snapped
  split_ifs
  · exact ⟨rfl, rfl⟩
  · exact ⟨rfl, List.length_map _⟩

/-- the profile of a model with a set -/
theorem rewrite_listed {model : String} {supported : List ℚ}
    (hs : sets.lookup model = some supported) :
    (rewriteTemperaturesToSupported profiles sets).1.lookup model
      = (profiles.lookup model).map (snapped supported) := by
  rw [rewrite_lookup, hs]

theorem rewrite_unlisted {model : String} (hs : sets.lookup model = none) :
    (rewriteTemperaturesToSupported profiles sets).1.lookup model = profiles.lookup model := by
  rw [rewrite_lookup, hs]

theorem rewrite_changed (model : String) :
    model ∈ (rewriteTemperaturesToSupported profiles sets).2.map RewriteEvent.providerModel ↔
      (rewriteTemperaturesToSupported profiles sets).1.lookup model ≠ profiles.lookup model := by
  rw [List.mem_map]
  constructor
  · intro h
    obtain ⟨ev, hev, rfl⟩ := h
    obtain ⟨model, supported, p, hs, hp, h0, rfl⟩ := mem_events.mp hev
    show (rewriteTemperaturesToSupported profiles sets).1.lookup model ≠ profiles.lookup model
    rw [rewrite_listed hs, hp, Option.map_some]
    exact fun he => h0 (snapped_eq_iff.mp (Option.some.inj he))
  · intro h
    cases hs : sets.lookup model with
    | none => exact absurd (rewrite_unlisted hs) h
    | some supported =>
      rw [rewrite_listed hs] at h
      cases hp : profiles.lookup model with
      | none =>
        rw [hp] at h
        exact absurd rfl h
      | some p =>
        rw [hp, Option.map_some] at h
        have h0 : nClamped supported p ≠ 0 :=
          fun h0 => h (congrArg some (snapped_eq_iff.mpr h0))
        exact ⟨_, mem_events.mpr ⟨model, supported, p, hs, hp, h0, rfl⟩, rfl⟩

variable (profiles sets)

/-- **One pass is enough**: behind it every temperature of a listed profile is near a member of its
set, the other profiles are as they were, every event tells of one changed profile, and a second pass
emits nothing and changes nothing. -/
theorem rewrite_settles : Settled profiles sets (rewriteTemperaturesToSupported profiles sets).1
    (rewriteTemperaturesToSupported profiles sets).2 := by
  refine ⟨fun model supported p hs hne hp => ?_, fun model hs => ?_, fun model p hp => ?_,
    events_nodup, rewrite_changed, fun ev hev => ?_, ?_⟩
  · rw [rewrite_listed hs] at hp
    obtain ⟨p₀, -, rfl⟩ := Option.map_eq_some_iff.mp hp
    exact snapped_near hne p₀
  · exact rewrite_unlisted (AList.lookup_eq_none.mpr hs)
  · cases hs : sets.lookup model with
    | none => exact ⟨p, (rewrite_unlisted hs).trans hp, rfl, rfl⟩
    | some supported =>
      refine ⟨snapped supported p, ?_, snapped_length supported p⟩
      rw [rewrite_listed hs, hp]
      rfl
  · obtain ⟨model, supported, p, hs, hp, h0, rfl⟩ := mem_events.mp hev
    refine ⟨p, hp, rfl, ?_, rfl⟩
    show (rewriteTemperaturesToSupported profiles sets).1.lookup model = _
    rw [rewrite_listed hs, hp, Option.map_some, snapped, if_neg h0]
    rfl
  · apply rewrite_idle
    intro model supported p hs hp
    rw [rewrite_listed hs] at hp
    obtain ⟨p₀, -, rfl⟩ := Option.map_eq_some_iff.mp hp
    exact nClamped_snapped supported p₀

end

/-- two temperatures on either side of the one that is supported -/
def spreadProfiles : Profiles ℚ := AList.singleton "minimax::MiniMax-M3" ⟨[0, 1], 1⟩

def oneSupported : AList fun _ : String => List ℚ := AList.singleton "minimax::MiniMax-M3" [1 / 2]

def noneSupported : AList fun _ : String => List ℚ := AList.singleton "minimax::MiniMax-M3" []

/-- an empty set has no member to be near, and one event tells of two changed temperatures -/
theorem empty_set_and_two_values :
    (¬ ∀ (profiles : Profiles ℚ) (sets : AList fun _ : String => List ℚ) (model : String)
      (supported : List ℚ) (q : TemperatureProfile ℚ), sets.lookup model = some supported →
      (rewriteTemperaturesToSupported profiles sets).1.lookup model = some q →
        ∀ t ∈ q.temperatures, ∃ c ∈ supported, |t - c| ≤ 1 / 1000) ∧
    ¬ ∀ (profiles : Profiles ℚ) (sets : AList fun _ : String => List ℚ) (model : String)
      (p q : TemperatureProfile ℚ), profiles.lookup model = some p →
      (rewriteTemperaturesToSupported profiles sets).1.lookup model = some q →
        ((rewriteTemperaturesToSupported profiles sets).2.filter fun ev =>
            ev.providerModel = model).length
          = ((p.temperatures.zip q.temperatures).filter fun x => x.1 ≠ x.2).length := by
  refine ⟨fun hall => ?_, fun hall => ?_⟩
  · obtain ⟨c, hc, -⟩ := hall spreadProfiles noneSupported "minimax::MiniMax-M3" [] ⟨[0, 1], 1⟩
      (by decide +kernel) (by decide +kernel) 0 List.mem_cons_self
    exact absurd hc List.not_mem_nil
  · have := hall spreadProfiles oneSupported "minimax::MiniMax-M3" ⟨[0, 1], 1⟩ ⟨[1 / 2, 1 / 2], 1⟩
      (by decide +kernel) (by decide +kernel)
    exact absurd this (by decide +kernel)

end Moagan.Discovery
