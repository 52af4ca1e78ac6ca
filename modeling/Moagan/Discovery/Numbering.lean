import Mathlib.Data.List.Induction
import Moagan.Discovery.Fanout
import Moagan.Lib.Blocks

/-!
# When the numbers of the fan-out survive a resume

* `points_eq`       the fan-out numbers the values of one block a pair
* `mem_execute`     the files behind a run
* `Aligned`         the hosted pairs of two runs fit together
* `stable_iff`      numbering is stable iff there is no cell or the runs are aligned
-/

namespace Moagan.Discovery

open Blocks

section
variable {F : Type}

/-! ## the fan-out as a list of blocks -/

/-- cell, temperature, replica and index -/
abbrev Place (F : Type) := MatrixCell × F × ℕ × ℕ

def mkPoint (x : Pair × Place F) : Point F := ⟨x.1, x.2.1, x.2.2.1, x.2.2.2.1, x.2.2.2.2⟩

theorem mkPoint_inj {x y : Pair × Place F} (h : mkPoint x = mkPoint y) : x = y := by
  obtain ⟨k, c, t, r, i⟩ := x
  obtain ⟨k', c', t', r', i'⟩ := y
  simp only [mkPoint, Point.mk.injEq] at h
  obtain ⟨rfl, rfl, rfl, rfl, rfl⟩ := h
  rfl

/-- temperature and replica -/
def TemperatureProfile.slots (p : TemperatureProfile F) : List (F × ℕ) :=
  p.temperatures.flatMap fun t => (List.range (max p.replicasPerTemperature 1)).map fun r => (t, r)

def block (cells : List MatrixCell) (perCell : ℕ) (p : TemperatureProfile F) : List (Place F) :=
  cells.flatMap fun c => p.slots.flatMap fun s => (List.range perCell).map fun i => (c, s.1, s.2, i)

def blocks (pairs : List (Pair × TemperatureProfile F)) (cells : List MatrixCell) (perCell : ℕ) :
    List (Pair × List (Place F)) :=
  pairs.map fun e => (e.1, block cells perCell e.2)

def number (ps : List (Point F)) : List (FanoutPoint F) := ps.zipIdx.map fun x => ⟨x.2, x.1⟩

theorem foldl_push (ps : List (Point F)) : ps.foldl push [] = number ps := by
  induction ps using List.reverseRecOn with
  | nil => rfl
  | append_singleton ps p ih =>
    rw [List.foldl_append, ih]
    simp [push, number, List.zipIdx_append]

theorem mem_number {ps : List (Point F)} {p : FanoutPoint F} :
    p ∈ number ps ↔ ps[p.n]? = some p.point := by
  unfold number
  rw [List.mem_map]
  constructor
  · intro h
    obtain ⟨x, hx, rfl⟩ := h
    exact (List.mem_zipIdx_iff_getElem?).mp hx
  · intro h
    exact ⟨(p.point, p.n), List.mem_zipIdx_iff_getElem?.mpr h, rfl⟩

theorem fanout_eq (pairs : List (Pair × TemperatureProfile F)) (cells : List MatrixCell)
    (thesesPerCell : ℕ) : fanout pairs cells thesesPerCell
      = number ((flat (blocks pairs cells (max thesesPerCell 1))).map mkPoint) := by
  rw [← foldl_push]
  unfold fanout flat blocks block TemperatureProfile.slots
  simp only [List.foldl_map, List.foldl_flatMap, List.flatMap_map]
  rfl

/-! ## thesis ids -/

theorem ofDigitChars_zeros (k : ℕ) (cs : List Char) :
    Nat.ofDigitChars 10 (List.replicate k '0' ++ cs) 0 = Nat.ofDigitChars 10 cs 0 := by
  induction k with
  | zero => rfl
  | succ k ih =>
    rw [List.replicate_succ, List.cons_append]
    exact ih

theorem zeroPad_inj {w n n' : ℕ} (h : zeroPad w n = zeroPad w n') : n = n' := by
  have hl := congrArg (fun s => Nat.ofDigitChars 10 s.toList 0) h
  simp only [zeroPad, String.toList_ofList, ofDigitChars_zeros] at hl
  rwa [Nat.ofDigitChars_toDigits (by decide) (by decide),
    Nat.ofDigitChars_toDigits (by decide) (by decide)] at hl

theorem thesisId_inj {p q : FanoutPoint F} (h : p.thesisId = q.thesisId) : p.n = q.n :=
  zeroPad_inj ((String.append_right_inj "th_").mp h)

/-- the files behind a list of points with ids of their own -/
theorem foldl_accept (accepts : FanoutPoint F → Bool) (ps : List (FanoutPoint F))
    (hid : ∀ p ∈ ps, ∀ q ∈ ps, p.thesisId = q.thesisId → p = q) (id : String) (x : Point F) :
    ps.foldl (record accepts) (fun _ => none) id = some x ↔
      ∃ p ∈ ps, accepts p = true ∧ p.thesisId = id ∧ p.point = x := by
  induction ps using List.reverseRecOn with
  | nil => simp
  | append_singleton ps p ih =>
    have ih := ih fun a ha b hb => hid a (List.mem_append_left _ ha) b (List.mem_append_left _ hb)
    rw [List.foldl_append, List.foldl_cons, List.foldl_nil]
    by_cases hp : accepts p = true ∧ p.thesisId = id
    · obtain ⟨ha, rfl⟩ := hp
      rw [record, if_pos ha, Function.update_self]
      constructor
      · intro h
        exact ⟨p, List.mem_append_right _ List.mem_cons_self, ha, rfl, Option.some.inj h⟩
      · intro h
        obtain ⟨q, hq, -, he, rfl⟩ := h
        rw [hid q hq p (List.mem_append_right _ List.mem_cons_self) he]
    · have hsame : ∀ theses : Theses F, record accepts theses p id = theses id := by
        intro theses
        unfold record
        split_ifs with ha
        · exact Function.update_of_ne (fun he => hp ⟨ha, he.symm⟩) _ _
        · rfl
      rw [hsame, ih]
      constructor
      · intro h
        obtain ⟨q, hq, h⟩ := h
        exact ⟨q, List.mem_append_left _ hq, h⟩
      · intro h
        obtain ⟨q, hq, h⟩ := h
        obtain hq | hq := List.mem_append.mp hq
        · exact ⟨q, hq, h⟩
        · obtain rfl := List.mem_singleton.mp hq
          exact absurd ⟨h.1, h.2.1⟩ hp

/-! ## two runs -/

variable (m : ExplorationMatrix F) (r : Run F)

/-- the blocks of a run -/
def runBlocks : List (Pair × List (Place F)) :=
  blocks (hostedPairs m r) m.iterCells (max m.thesesPerCell 1)

theorem runBlocks_ascending : Ascending (runBlocks m r) := by
  unfold runBlocks blocks hostedPairs
  rw [Ascending, List.pairwise_map]
  exact (activeProviderProfiles m r).sorted.filter _

theorem keys_runBlocks : keys (runBlocks m r) = (hostedPairs m r).map Prod.fst := by
  simp [runBlocks, keys, blocks]

variable {m r}

theorem mem_points {p : FanoutPoint F} {x : Pair × Place F} (hx : mkPoint x = p.point) :
    p ∈ points m r ↔ (flat (runBlocks m r))[p.n]? = some x := by
  rw [points, fanout_eq, mem_number, ← runBlocks, List.getElem?_map, ← hx]
  constructor
  · intro h
    obtain ⟨y, hy, he⟩ := Option.map_eq_some_iff.mp h
    rw [hy, mkPoint_inj he]
  · intro h
    rw [h, Option.map_some]

theorem exists_place (p : Point F) : ∃ x : Pair × Place F, mkPoint x = p ∧ x.1 = p.pair :=
  ⟨(p.pair, p.cell, p.temperature, p.replica, p.index), rfl, rfl⟩

theorem points_inj {p q : FanoutPoint F} (hp : p ∈ points m r) (hq : q ∈ points m r)
    (h : p.n = q.n) : p = q := by
  obtain ⟨x, hx, -⟩ := exists_place p.point
  obtain ⟨y, hy, -⟩ := exists_place q.point
  have h1 := (mem_points hx).mp hp
  have h2 := (mem_points hy).mp hq
  rw [h, h2] at h1
  obtain ⟨n, a⟩ := p
  obtain ⟨n', b⟩ := q
  obtain rfl : n = n' := h
  obtain rfl : a = b := hx.symm.trans ((congrArg mkPoint (Option.some.inj h1).symm).trans hy)
  rfl

/-- **The files behind a run are those of the accepted points.** -/
theorem mem_execute (accepts : FanoutPoint F → Bool) (id : String) (x : Point F) :
    execute m r accepts (fun _ => none) id = some x ↔
      ∃ p ∈ points m r, accepts p = true ∧ p.thesisId = id ∧ p.point = x := by
  have hall : pending (points m r) (fun _ => none) = points m r :=
    List.filter_eq_self.mpr fun _ _ => rfl
  unfold execute
  rw [hall]
  exact foldl_accept accepts _
    (fun p hp q hq he => points_inj hp hq (thesisId_inj he)) id x

theorem not_pending_iff {r' : Run F} {p : FanoutPoint F} (hp : p ∈ points m r')
    (theses : Theses F) : p ∉ pending (points m r') theses ↔ ∃ x, theses p.thesisId = some x := by
  unfold pending
  rw [List.mem_filter, ← Option.isSome_iff_exists]
  cases theses p.thesisId <;> simp [hp]

theorem stable_iff_agree {r' : Run F} :
    Stable m r r' ↔ Agree (runBlocks m r) (runBlocks m r') := by
  unfold Stable Agree
  rw [keys_runBlocks, keys_runBlocks]
  refine and_congr ⟨fun h k hk hk' n v => ?_, fun h p hp hp' => ?_⟩ ⟨fun h n x y hx hy => ?_,
    fun h accepts p hp hskip => ?_⟩
  · have hpt : mkPoint (k, v) = (⟨n, mkPoint (k, v)⟩ : FanoutPoint F).point := rfl
    have := h ⟨n, mkPoint (k, v)⟩ hk hk'
    rwa [mem_points hpt, mem_points hpt] at this
  · obtain ⟨x, hx, hk⟩ := exists_place p.point
    rw [mem_points hx, mem_points hx]
    exact h x.1 (hk ▸ hp) (hk ▸ hp') p.n x.2
  · -- the first run accepts everything, so the second skips the point with this number
    have hp : (⟨n, mkPoint x⟩ : FanoutPoint F) ∈ points m r := (mem_points rfl).mpr hx
    have hq : (⟨n, mkPoint y⟩ : FanoutPoint F) ∈ points m r' := (mem_points rfl).mpr hy
    have hfile := (mem_execute (fun _ => true) _ _).mpr ⟨_, hp, rfl, rfl, rfl⟩
    have hown := h (fun _ => true) _ hq ((not_pending_iff hq _).mpr ⟨_, hfile⟩)
    exact mkPoint_inj (Option.some.inj (hfile.symm.trans hown))
  · obtain ⟨x, hx⟩ := (not_pending_iff hp _).mp hskip
    obtain ⟨q, hq, -, he, rfl⟩ := (mem_execute accepts _ _).mp hx
    obtain ⟨y, hy, -⟩ := exists_place q.point
    obtain ⟨z, hz, -⟩ := exists_place p.point
    have h1 := (mem_points hy).mp hq
    rw [thesisId_inj he] at h1
    rw [hx, ← hy, ← hz, h _ _ _ h1 ((mem_points hz).mp hp)]

/-! ## blocks and slots -/

/-- the slots are read off the first thesis of each -/
theorem slots_of_places {c : MatrixCell} {perCell : ℕ} (hper : 0 < perCell) (ss : List (F × ℕ)) :
    (ss.flatMap fun s => (List.range perCell).map fun i =>
        ((c, s.1, s.2, i) : Place F)).filterMap
      (fun x => if x.2.2.2 = 0 then some (x.2.1, x.2.2.1) else none) = ss := by
  obtain ⟨k, rfl⟩ := Nat.exists_eq_add_of_le' hper
  induction ss with
  | nil => rfl
  | cons s ss ih =>
    rw [List.flatMap_cons, List.filterMap_append, ih, List.range_succ_eq_map]
    simp [List.filterMap_map]

theorem places_length (c : MatrixCell) (perCell : ℕ) (ss : List (F × ℕ)) :
    (ss.flatMap fun s => (List.range perCell).map fun i => ((c, s.1, s.2, i) : Place F)).length
      = ss.length * perCell := by
  rw [List.length_flatMap]
  simp

theorem block_length (cells : List MatrixCell) (perCell : ℕ) (p : TemperatureProfile F) :
    (block cells perCell p).length = cells.length * (p.slots.length * perCell) := by
  unfold block
  rw [List.length_flatMap]
  simp

theorem block_inj {cells : List MatrixCell} (hc : cells ≠ []) {perCell : ℕ} (hper : 0 < perCell)
    {p q : TemperatureProfile F} :
    block cells perCell p = block cells perCell q ↔ p.slots = q.slots := by
  constructor
  · intro h
    have hl := congrArg List.length h
    rw [block_length, block_length] at hl
    have hl' := Nat.eq_of_mul_eq_mul_left (List.length_pos_of_ne_nil hc) hl
    obtain ⟨c, cs, rfl⟩ := List.exists_cons_of_ne_nil hc
    unfold block at h
    rw [List.flatMap_cons, List.flatMap_cons] at h
    have hfirst := (List.append_inj h (by rw [places_length, places_length, hl'])).1
    rw [← slots_of_places (c := c) hper p.slots, hfirst, slots_of_places hper]
  · intro h
    unfold block
    rw [h]

theorem block_eq_nil {cells : List MatrixCell} (hc : cells ≠ []) {perCell : ℕ} (hper : 0 < perCell)
    {p : TemperatureProfile F} : block cells perCell p = [] ↔ p.slots = [] := by
  rw [← List.length_eq_zero_iff, block_length, ← List.length_eq_zero_iff]
  have := List.length_pos_of_ne_nil hc
  simp only [Nat.mul_eq_zero]
  omega

/-! ## the profile of a pair -/

theorem foldl_insert_get? (ds : String) (es : List (String × TemperatureProfile F)) (k : Pair) :
    (es.foldl (fun byPair e => byPair.insert (pairOf ds e.1) e.2) SortedMap.empty).get? k
      = (es.reverse.find? fun e => pairOf ds e.1 = k).map Prod.snd := by
  induction es using List.reverseRecOn with
  | nil => rfl
  | append_singleton es e ih =>
    rw [List.foldl_append, List.foldl_cons, List.foldl_nil, SortedMap.get?_insert, ih,
      List.reverse_append, List.reverse_singleton, List.singleton_append, List.find?_cons]
    by_cases h : k = pairOf ds e.1
    · rw [if_pos h, decide_eq_true h.symm]
      rfl
    · rw [if_neg h, decide_eq_false fun e => h e.symm]

/-- the last key that names the pair gives its profile; the default profile is for the default pair
alone -/
theorem activeProviderProfiles_get? (k : Pair) : (activeProviderProfiles m r).get? k
    = ((r.order.reverse.find? fun e => pairOf (ofLex r.defaultPair).1 e.1 = k).map Prod.snd).or
      (if k = r.defaultPair then some m.defaultProfile else none) := by
  unfold activeProviderProfiles
  rw [SortedMap.get?_orInsert, foldl_insert_get?, foldl_insert_get?]
  by_cases h : k = r.defaultPair
  · rw [if_pos h, if_pos h, h]
    cases (r.order.reverse.find? fun e => pairOf (ofLex r.defaultPair).1 e.1 = r.defaultPair) <;> rfl
  · rw [if_neg h, if_neg h, Option.or_none]

/-! ## alignment -/

/-- the profile of a pair that the run hosts -/
def hostedProfile (m : ExplorationMatrix F) (r : Run F) (pair : Pair) :
    Option (TemperatureProfile F) :=
  if r.hasProviderFor pair then (activeProviderProfiles m r).get? pair else none

/-- a pair that both runs host has the same slots in both, and a pair that one run hosts alone comes
behind every pair of the other, where pairs without slots do not count -/
structure Aligned (m : ExplorationMatrix F) (r r' : Run F) : Prop where
  same : ∀ k p p', hostedProfile m r k = some p → hostedProfile m r' k = some p' →
    p.slots = p'.slots
  behind : ∀ k p k' p', hostedProfile m r k = some p → p.slots ≠ [] →
    hostedProfile m r' k' = some p' → p'.slots ≠ [] → hostedProfile m r' k = none → k' < k
  front : ∀ k p k' p', hostedProfile m r k = some p → p.slots ≠ [] →
    hostedProfile m r' k' = some p' → p'.slots ≠ [] → hostedProfile m r k' = none → k < k'

theorem mem_hostedPairs {k : Pair} {p : TemperatureProfile F} :
    (k, p) ∈ hostedPairs m r ↔ hostedProfile m r k = some p := by
  unfold hostedPairs hostedProfile
  rw [List.mem_filter, ← SortedMap.get?_eq_some_iff]
  split_ifs with h <;> simp [h]

theorem mem_runBlocks {k : Pair} {vs : List (Place F)} : (k, vs) ∈ runBlocks m r ↔
    ∃ p, hostedProfile m r k = some p ∧ block m.iterCells (max m.thesesPerCell 1) p = vs := by
  unfold runBlocks blocks
  rw [List.mem_map]
  constructor
  · intro h
    obtain ⟨⟨k', p⟩, hp, he⟩ := h
    obtain ⟨rfl, rfl⟩ := Prod.mk.inj he
    exact ⟨p, mem_hostedPairs.mp hp, rfl⟩
  · intro h
    obtain ⟨p, hp, rfl⟩ := h
    exact ⟨(k, p), mem_hostedPairs.mpr hp, rfl⟩

theorem not_mem_keys {k : Pair} : k ∉ keys (runBlocks m r) ↔ hostedProfile m r k = none := by
  rw [mem_keys, Option.eq_none_iff_forall_ne_some]
  constructor
  · intro h p hp
    exact h ⟨_, mem_runBlocks.mpr ⟨p, hp, rfl⟩⟩
  · intro h hk
    obtain ⟨vs, hvs⟩ := hk
    obtain ⟨p, hp, -⟩ := mem_runBlocks.mp hvs
    exact h p hp

theorem compatible_iff_aligned (hc : m.iterCells ≠ []) {r' : Run F} :
    Compatible (runBlocks m r) (runBlocks m r') ↔ Aligned m r r' := by
  have hper : 0 < max m.thesesPerCell 1 := by omega
  have full_intro : ∀ {s : Run F} {k p}, hostedProfile m s k = some p → p.slots ≠ [] →
      (k, block m.iterCells (max m.thesesPerCell 1) p) ∈ full (runBlocks m s) := by
    intro s k p hp hs
    exact mem_full.mpr ⟨mem_runBlocks.mpr ⟨p, hp, rfl⟩, fun h => hs ((block_eq_nil hc hper).mp h)⟩
  have full_elim : ∀ {s : Run F} {b : Pair × List (Place F)}, b ∈ full (runBlocks m s) →
      ∃ p, hostedProfile m s b.1 = some p ∧ p.slots ≠ [] := by
    intro s b hb
    obtain ⟨hb, hne⟩ := mem_full.mp hb
    obtain ⟨p, hp, he⟩ := mem_runBlocks.mp hb
    exact ⟨p, hp, fun h => hne (he ▸ (block_eq_nil hc hper).mpr h)⟩
  constructor
  · intro h
    refine ⟨fun k p p' hp hp' => ?_, fun k p k' p' hp hs hp' hs' hn => ?_,
      fun k p k' p' hp hs hp' hs' hn => ?_⟩
    · exact (block_inj hc hper).mp
        (h.same k _ _ (mem_runBlocks.mpr ⟨p, hp, rfl⟩) (mem_runBlocks.mpr ⟨p', hp', rfl⟩))
    · exact h.behind _ (full_intro hp hs) _ (full_intro hp' hs') (not_mem_keys.mpr hn)
    · exact h.front _ (full_intro hp hs) _ (full_intro hp' hs') (not_mem_keys.mpr hn)
  · intro h
    refine ⟨fun k vs ws hv hw => ?_, fun b hb b' hb' hk => ?_, fun b hb b' hb' hk => ?_⟩
    · obtain ⟨p, hp, rfl⟩ := mem_runBlocks.mp hv
      obtain ⟨p', hp', rfl⟩ := mem_runBlocks.mp hw
      exact (block_inj hc hper).mpr (h.same k p p' hp hp')
    · obtain ⟨p, hp, hs⟩ := full_elim hb
      obtain ⟨p', hp', hs'⟩ := full_elim hb'
      exact h.behind _ p _ p' hp hs hp' hs' (not_mem_keys.mp hk)
    · obtain ⟨p, hp, hs⟩ := full_elim hb
      obtain ⟨p', hp', hs'⟩ := full_elim hb'
      exact h.front _ p _ p' hp hs hp' hs' (not_mem_keys.mp hk)

theorem stable_of_no_cells (hc : m.iterCells = []) (r' : Run F) : Stable m r r' := by
  have hflat : ∀ s : Run F, flat (runBlocks m s) = [] := by
    intro s
    unfold runBlocks flat blocks block
    rw [hc]
    simp
  rw [stable_iff_agree, Agree, hflat, hflat]
  exact ⟨fun _ _ _ _ _ => Iff.rfl, fun _ _ _ hx _ => nomatch hx⟩

/-- **Numbering is stable from one run to the next iff there is no cell or the runs are aligned.** -/
theorem stable_iff (m : ExplorationMatrix F) (r r' : Run F) :
    Stable m r r' ↔ m.iterCells = [] ∨ Aligned m r r' := by
  by_cases hc : m.iterCells = []
  · exact iff_of_true (stable_of_no_cells hc r') (Or.inl hc)
  · rw [stable_iff_agree, agree_iff (runBlocks_ascending m r) (runBlocks_ascending m r'),
      compatible_iff_aligned hc]
    exact ⟨Or.inr, fun h => h.resolve_left hc⟩

end

/-! ## a provider that comes back -/

def oneProfile : TemperatureProfile ℕ := { temperatures := [1], replicasPerTemperature := 1 }

/-- one cell, two providers -/
def sampleMatrix : ExplorationMatrix ℕ where
  dimensions := [{ id := "dim-00", label := "Dimension 0", facets := [{ id := "f1", label := "F1" }] }]
  thesesPerCell := 1
  temperatureProfiles := [("deepseek::deepseek-v4-flash", oneProfile), ("minimax::MiniMax-M3", oneProfile)]
  defaultProfile := oneProfile

def sampleRun (registry : List String) : Run ℕ where
  order := sampleMatrix.temperatureProfiles
  registry := registry
  defaultPair := toLex ("minimax", "MiniMax-M3")

/-- the first run hosts `minimax` alone, the second `deepseek` too: the file of the `minimax` thesis
makes the second run skip its `deepseek` point -/
theorem numbering_shifts : ¬ Stable sampleMatrix (sampleRun ["minimax"])
    (sampleRun ["minimax", "deepseek"]) := by
  intro h
  have hmem : (⟨0, toLex ("minimax", "MiniMax-M3"), ⟨"dim-00", "f1", "Dimension 0 / F1"⟩, 1, 0, 0⟩ :
      FanoutPoint ℕ) ∈ points sampleMatrix (sampleRun ["minimax", "deepseek"]) :=
    (h.1 _ (by decide +kernel) (by decide +kernel)).mp (by decide +kernel)
  revert hmem
  decide +kernel

end Moagan.Discovery
