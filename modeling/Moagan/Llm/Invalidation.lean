import Mathlib.Data.List.Infix
import Moagan.Llm.Sidecar

/-!
# Verifying a cached entry (`verify` of `TemperatureTable` and `MaxTokensTable`)

* `settle`                 what the answers of the provider do to the entry, under the write lock
* `TemperatureTable.verify`, `MaxTokensTable.verify`
* `Invalidated`            a dropped entry is gone from the file and from all that is loaded from it
* `invalidation_survives`  it is, exactly when neither the file nor a table saved later has a copy
-/

set_option linter.unusedSectionVars false

namespace Moagan.Sidecar

open LockedUpdate

inductive ProbeOutcome where
  | accepted
  | rejected
  | indeterminate
deriving DecidableEq, Repr

/-! ## the two tables -/

section
variable {E C : Type}

/-- The end of both `verify`s.  The entry is touched only when it still is the one that was probed:
stamped when all was accepted, dropped when the provider rejected it. -/
def settle (t : TableInner E C) (k : PairKey) (same : E → Bool) (verified : E → E)
    (ok rejected : Bool) : TableInner E C × Bool :=
  match t.entries.get? k with
  | none => (t, false)
  | some e =>
    if !same e then (t, false)
    else if ok then ({ t with entries := t.entries.insert k (verified e) }, true)
    else if rejected then ({ t with entries := t.entries.remove k }, true)
    else (t, true)

/-- a dropped entry was rejected, and nothing else changed -/
theorem settle_dropped {t : TableInner E C} {k : PairKey} {same : E → Bool} {verified : E → E}
    {ok rejected : Bool} (h : t.entries.get? k ≠ none)
    (hgone : (settle t k same verified ok rejected).1.entries.get? k = none) :
    rejected = true ∧
      (settle t k same verified ok rejected).1 = { t with entries := t.entries.remove k } := by
  unfold settle at hgone ⊢
  cases he : t.entries.get? k with
  | none => exact absurd he h
  | some e =>
    simp only [he] at hgone ⊢
    split at hgone
    · exact absurd hgone h
    · rename_i hsame
      rw [if_neg hsame]
      split at hgone
      · exact absurd hgone (by simp [SortedMap.get?_insert])
      · rename_i hok
        rw [if_neg hok]
        split at hgone
        · rename_i hr
          rw [if_pos hr]
          exact ⟨hr, rfl⟩
        · exact absurd hgone h

end

def F32.isNan (x : F32) : Bool := 0x7f800000 < x.bits &&& 0x7fffffff

/-- `==` of two `f32` -/
def F32.eq (x y : F32) : Bool :=
  !x.isNan && !y.isNan && (x.bits == y.bits || (x.bits ||| y.bits) &&& 0x7fffffff == 0)

/-- `==` of two `Vec<f32>` -/
def F32.eqs : List F32 → List F32 → Bool
  | [], [] => true
  | x :: xs, y :: ys => x.eq y && F32.eqs xs ys
  | _, _ => false

/-- The committed answer for one temperature and the number of the next request.  An indeterminate
answer is asked for again, and once more inside `retry_once_on_indeterminate`. -/
def committed (send : ℕ → F32 → ProbeOutcome) (n : ℕ) (t : F32) : ProbeOutcome × ℕ :=
  match send n t with
  | .indeterminate =>
    match send (n + 1) t with
    | .indeterminate => (send (n + 2) t, n + 3)
    | o => (o, n + 2)
  | o => (o, n + 1)

/-- `(ok, rejected)`: the loop ends at the first temperature that is not accepted -/
def probeTemperatures (send : ℕ → F32 → ProbeOutcome) : ℕ → List F32 → Bool × Bool
  | _, [] => (true, false)
  | n, t :: ts =>
    match committed send n t with
    | (.accepted, n') => probeTemperatures send n' ts
    | (.rejected, _) => (false, true)
    | (.indeterminate, _) => (false, false)

section
variable {C : Type}

/-- `before` is the table when the entry is read, `t` the one under the write lock.  Without a
cached entry nothing is probed and nothing is saved. -/
def TemperatureTable.verify (before t : TableInner TemperatureEntry C) (k : PairKey)
    (send : ℕ → F32 → ProbeOutcome) (now : String) :
    Option (TableInner TemperatureEntry C × Bool) :=
  (before.entries.get? k).map fun entry =>
    let (ok, rejected) := probeTemperatures send 0 entry.temperatures
    let (t', stillMatches) := settle t k
      (fun e => F32.eqs e.temperatures entry.temperatures && e.detectedAt == entry.detectedAt)
      (fun e => { e with verifiedAt := now }) ok rejected
    (t', (ok || !rejected) && stillMatches)

def MaxTokensTable.verify (before t : TableInner MaxTokensEntry C) (k : PairKey)
    (send : ℕ → ProbeOutcome) (now : String) : Option (TableInner MaxTokensEntry C × Bool) :=
  (before.entries.get? k).map fun entry =>
    let outcome := send entry.maxTokens
    let ok := outcome == .accepted
    let rejected := outcome == .rejected
    let (t', stillMatches) := settle t k
      (fun e => e.maxTokens == entry.maxTokens && e.detectedAt == entry.detectedAt)
      (fun e => { e with verifiedAt := now }) ok rejected
    (t', (ok || !rejected) && stillMatches)

theorem TemperatureTable.verify_dropped {before t t' : TableInner TemperatureEntry C} {k : PairKey}
    {send : ℕ → F32 → ProbeOutcome} {now : String} {r : Bool}
    (hv : TemperatureTable.verify before t k send now = some (t', r))
    (h : t.entries.get? k ≠ none) (hgone : t'.entries.get? k = none) :
    t' = { t with entries := t.entries.remove k } := by
  obtain ⟨entry, -, he⟩ := Option.map_eq_some_iff.mp hv
  obtain ⟨rfl, -⟩ := Prod.mk.inj he
  exact (settle_dropped h hgone).2

theorem MaxTokensTable.verify_dropped {before t t' : TableInner MaxTokensEntry C} {k : PairKey}
    {send : ℕ → ProbeOutcome} {now : String} {r : Bool}
    (hv : MaxTokensTable.verify before t k send now = some (t', r))
    (h : t.entries.get? k ≠ none) (hgone : t'.entries.get? k = none) :
    t' = { t with entries := t.entries.remove k } := by
  obtain ⟨entry, -, he⟩ := Option.map_eq_some_iff.mp hv
  obtain ⟨rfl, -⟩ := Prod.mk.inj he
  exact (settle_dropped h hgone).2

end

/-! ## what becomes of a dropped entry -/

section
variable {E C T : Type} [Stamped E] [LinearOrder T] (parse : String → Option T)

/-- After the table `t` became `t'` by dropping the pair `k` and was saved over `c`, and behind each
of the `later` saves: the pair is neither in the file nor in a table loaded from it, and all other
pairs have what they had in the table and the newer copy in the file. -/
structure Invalidated (t t' : TableInner E C) (c : Content E C) (later : List (TableInner E C))
    (k : PairKey) : Prop where
  gone : ∀ us, us <+: later → (applied (persistTo parse) (persistTo parse t' c) us).at k = none
  loaded : ∀ us, us <+: later →
    ∀ u ∈ fromPath (applied (persistTo parse) (persistTo parse t' c) us), u.entries.get? k = none
  table : ∀ q ≠ k, t'.entries.get? q = t.entries.get? q
  file : ∀ q ≠ k, (persistTo parse t' c).at q = Newest.join (newer parse) (c.at q) (t.entries.get? q)
  kept : ∀ q ≠ k, (persistTo parse t' c).at q ≠ none →
    ∀ us, us <+: later → (applied (persistTo parse) (persistTo parse t' c) us).at q ≠ none

/-- neither the file that the save reads nor a table that is saved later has the pair -/
def Forgotten (c : Content E C) (later : List (TableInner E C)) (k : PairKey) : Prop :=
  c.at k = none ∧ ∀ u ∈ later, u.entries.get? k = none

theorem join_eq_none {newer : E → E → Bool} {d b : Option E} :
    Newest.join newer d b = none ↔ d = none ∧ b = none := by
  cases b with
  | none => exact ⟨fun h => ⟨h, rfl⟩, fun h => h.1⟩
  | some b =>
    cases d with
    | none => exact ⟨nofun, fun h => h.2⟩
    | some a =>
      refine ⟨fun h => ?_, fun h => by cases h.1⟩
      unfold Newest.join at h
      simp only at h
      split at h <;> cases h

/-- saves bring a pair into the file only from the file or from their tables -/
theorem applied_at_eq_none (c : Content E C) (us : List (TableInner E C)) (k : PairKey) :
    (applied (persistTo parse) c us).at k = none ↔
      c.at k = none ∧ ∀ u ∈ us, u.entries.get? k = none := by
  induction us using List.reverseRecOn with
  | nil => exact ⟨fun h => ⟨h, fun u hu => absurd hu List.not_mem_nil⟩, fun h => h.1⟩
  | append_singleton us u ih =>
    rw [applied, List.foldl_append]
    show (persistTo parse u (applied (persistTo parse) c us)).at k = none ↔ _
    rw [at_persistTo, join_eq_none, ih]
    constructor
    · intro h
      refine ⟨h.1.1, fun v hv => ?_⟩
      rcases List.mem_append.mp hv with hv | hv
      · exact h.1.2 v hv
      · rw [List.mem_singleton.mp hv]
        exact h.2
    · intro h
      exact ⟨⟨h.1, fun v hv => h.2 v (List.mem_append_left _ hv)⟩,
        h.2 u (List.mem_append_right _ (List.mem_singleton_self u))⟩

/-- **A removed pair stays away exactly when no copy of it is left.** -/
theorem removed_invalidated (t : TableInner E C) (c : Content E C) (later : List (TableInner E C))
    (k : PairKey) :
    Invalidated parse t { t with entries := t.entries.remove k } c later k ↔ Forgotten c later k := by
  have hown : (t.entries.remove k).get? k = none := by
    rw [SortedMap.get?_remove, if_pos rfl]
  have hother : ∀ q ≠ k, (t.entries.remove k).get? q = t.entries.get? q := fun q hq => by
    rw [SortedMap.get?_remove, if_neg hq]
  have hsaved : ∀ us, (applied (persistTo parse)
        (persistTo parse { t with entries := t.entries.remove k } c) us).at k = none ↔
      c.at k = none ∧ ∀ u ∈ us, u.entries.get? k = none := by
    intro us
    rw [applied_at_eq_none, at_persistTo, join_eq_none]
    exact and_congr_left fun _ => and_iff_left hown
  constructor
  · intro h
    exact (hsaved later).mp (h.gone later (List.prefix_refl later))
  · intro h
    have hgone : ∀ us, us <+: later → (applied (persistTo parse)
        (persistTo parse { t with entries := t.entries.remove k } c) us).at k = none :=
      fun us hus => (hsaved us).mpr ⟨h.1, fun u hu => h.2 u (hus.subset hu)⟩
    refine ⟨hgone, fun us hus u hu => ?_, hother, fun q hq => ?_, fun q _ hq us _ h0 => ?_⟩
    · rw [fromPath_entries hu]
      exact hgone us hus
    · rw [at_persistTo]
      exact congrArg _ (hother q hq)
    · exact hq ((applied_at_eq_none parse _ us q).mp h0).1

/-- **Invalidations that survive.**  When `verify` drops an entry, of either table, and the table is
saved, the entry stays away exactly when the file that the save reads has no copy of it and no table
saved later has one. -/
theorem invalidation_survives (k : PairKey) (now : String) :
    (∀ (before t t' : TableInner TemperatureEntry C) (send : ℕ → F32 → ProbeOutcome) (r : Bool),
      TemperatureTable.verify before t k send now = some (t', r) →
      t.entries.get? k ≠ none → t'.entries.get? k = none →
      ∀ c later, Invalidated parse t t' c later k ↔ Forgotten c later k) ∧
    (∀ (before t t' : TableInner MaxTokensEntry C) (send : ℕ → ProbeOutcome) (r : Bool),
      MaxTokensTable.verify before t k send now = some (t', r) →
      t.entries.get? k ≠ none → t'.entries.get? k = none →
      ∀ c later, Invalidated parse t t' c later k ↔ Forgotten c later k) := by
  constructor
  · intro before t t' send r hv h hgone c later
    rw [TemperatureTable.verify_dropped hv h hgone]
    exact removed_invalidated parse t c later k
  · intro before t t' send r hv h hgone c later
    rw [MaxTokensTable.verify_dropped hv h hgone]
    exact removed_invalidated parse t c later k

end

/-- one temperature, 0.5, found at ten -/
def halfAtTen : TemperatureEntry :=
  ⟨[⟨0x3f000000⟩], "2026-10-23T10:00:00+00:00", "2026-10-23T10:00:00+00:00", true, 1⟩

/-- a table without its entry -/
def droppedFrom {E : Type} (e : E) : TableInner E ℕ :=
  { (tableOf e) with entries := (tableOf e).entries.remove (pair "or" "a") }

/-- the provider rejects what both tables have, and no file was there yet -/
theorem invalidation_survives_missing :
    Invalidated tenAndEleven (tableOf halfAtTen) (droppedFrom halfAtTen) .missing [] (pair "or" "a") ∧
    Invalidated tenAndEleven (tableOf atTen) (droppedFrom atTen) .missing [] (pair "or" "a") := by
  obtain ⟨h1, h2⟩ :=
    invalidation_survives tenAndEleven (C := ℕ) (pair "or" "a") "2026-10-23T11:00:00+00:00"
  constructor
  · have hv : TemperatureTable.verify (tableOf halfAtTen) (tableOf halfAtTen) (pair "or" "a")
        (fun _ _ => .rejected) "2026-10-23T11:00:00+00:00" = some (droppedFrom halfAtTen, false) := rfl
    exact (h1 _ _ _ _ _ hv (by decide +kernel) (by decide +kernel) .missing []).mpr
      ⟨rfl, fun u hu => absurd hu List.not_mem_nil⟩
  · have hv : MaxTokensTable.verify (tableOf atTen) (tableOf atTen) (pair "or" "a")
        (fun _ => .rejected) "2026-10-23T11:00:00+00:00" = some (droppedFrom atTen, false) := rfl
    exact (h2 _ _ _ _ _ hv (by decide +kernel) (by decide +kernel) .missing []).mpr
      ⟨rfl, fun u hu => absurd hu List.not_mem_nil⟩

/-- The file has the entry that an earlier save wrote.  `verify` drops it from the table, and the save
brings it back. -/
theorem dropped_entry_returns :
    let file := persistTo tenAndEleven (tableOf atTen) .missing
    ∃ t', MaxTokensTable.verify (tableOf atTen) (tableOf atTen) (pair "or" "a")
        (fun _ => .rejected) "2026-10-23T11:00:00+00:00" = some (t', false) ∧
      t'.entries.get? (pair "or" "a") = none ∧
      (persistTo tenAndEleven t' file).at (pair "or" "a") = some atTen :=
  ⟨droppedFrom atTen, rfl, by decide +kernel, by decide +kernel⟩

end Moagan.Sidecar
