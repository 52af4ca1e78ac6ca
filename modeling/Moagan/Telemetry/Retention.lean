import Mathlib.Data.List.Destutter
import Mathlib.Data.List.Sort
import Mathlib.Data.Int.Order.Basic
import Mathlib.Data.UInt
import Moagan.Lib.FirstWins
import Moagan.Lib.Overrun

/-!
# Retention of runs (`src/telemetry/retention.rs`)

* `scan`, `plan`        the runs of a directory, and those that go: by age, by count, by storage
* `plan_candidates`     the runs over the age or the count limit, and the newest ones behind the
                        place where the running total passes the storage cap
* `plan_right`          the plan is right iff there is no such place, and in degenerate cases
* `newest_removed`      else the newest runs go and older ones stay
-/

namespace Moagan.Retention
open Evict Overrun

/-! ## configuration and runs -/

inductive RetentionPolicy where
  | delete
  | archive
deriving DecidableEq, Repr

structure RetentionConfig where
  keepRunsDays : UInt32
  keepRunsCount : UInt32
  maxStorageBytes : UInt64
  policy : RetentionPolicy
deriving DecidableEq, Repr

section
variable {ι : Type}

structure RetentionCandidate (ι : Type) where
  runId : ι
  path : String
  bytes : UInt64
  updatedUnix : ℤ
deriving DecidableEq, Repr

structure RetentionReport (ι : Type) where
  candidates : List (RetentionCandidate ι)
  totalBytes : UInt64
  dryRun : Bool
  policy : RetentionPolicy
deriving DecidableEq, Repr

/-- an entry of the runs directory: its name as a run id, `dir_bytes` and the time of its last
change -/
structure DirEntry (ι : Type) where
  path : String
  isDir : Bool
  runId : Option ι
  dirBytes : Option UInt64
  modified : Option ℤ
deriving DecidableEq, Repr

def scan (dbUpdated : ι → Option ℤ) (entries : List (DirEntry ι)) : List (RetentionCandidate ι) :=
  entries.filterMap fun entry =>
    if entry.isDir then entry.runId.map fun runId => {
      runId
      path := entry.path
      bytes := entry.dirBytes.getD 0
      updatedUnix := (dbUpdated runId).getD (entry.modified.getD 0) }
    else none

/-! ## the plan -/

def i64Max : ℤ := 2 ^ 63 - 1
def u64Max : ℕ := 2 ^ 64 - 1

/-- `i64::saturating_sub` -/
def saturatingSub (a b : ℤ) : ℤ := max (-2 ^ 63) (min i64Max (a - b))

def ageCutoffSecs (cfg : RetentionConfig) : ℤ := min i64Max (cfg.keepRunsDays.toNat * 86400)

/-- `sort_by_key` is stable -/
def sortByUpdated (runs : List (RetentionCandidate ι)) : List (RetentionCandidate ι) :=
  runs.insertionSort fun a b => a.updatedUnix ≤ b.updatedUnix

def overAge (cfg : RetentionConfig) (now : ℤ) (r : RetentionCandidate ι) : Bool :=
  0 < cfg.keepRunsDays && ageCutoffSecs cfg < saturatingSub now r.updatedUnix

def ageFilter (cfg : RetentionConfig) (now : ℤ) (runs : List (RetentionCandidate ι)) :
    List (RetentionCandidate ι) :=
  runs.filter (overAge cfg now)

/-- how many runs are too many -/
def excess (cfg : RetentionConfig) (runs : List (RetentionCandidate ι)) : ℕ :=
  runs.length - cfg.keepRunsCount.toNat

section
variable [DecidableEq ι]

def countFilter (cfg : RetentionConfig) (runs candidates : List (RetentionCandidate ι)) :
    List (RetentionCandidate ι) :=
  if cfg.keepRunsCount.toNat < runs.length then
    FirstWins.addAll (·.runId) candidates (runs.take (excess cfg runs))
  else candidates

/-- the loop of the storage filter -/
def storagePass (cap : ℕ) : ℕ → List (RetentionCandidate ι) → List (RetentionCandidate ι) →
    List (RetentionCandidate ι)
  | _, [], candidates => candidates
  | runningTotal, r :: runs, candidates =>
    let runningTotal := min (runningTotal + r.bytes.toNat) u64Max
    storagePass cap runningTotal runs
      (if cap < runningTotal then FirstWins.add (·.runId) candidates r else candidates)

def storageFilter (cfg : RetentionConfig) (runs candidates : List (RetentionCandidate ι)) :
    List (RetentionCandidate ι) :=
  if 0 < cfg.maxStorageBytes then storagePass cfg.maxStorageBytes.toNat 0 runs candidates
  else candidates

/-- `dedup_by`: an element goes that is equal to the one before -/
def dedupByRunId (candidates : List (RetentionCandidate ι)) : List (RetentionCandidate ι) :=
  candidates.destutter fun a b => a.runId ≠ b.runId

def plan (dbUpdated : ι → Option ℤ) (entries : List (DirEntry ι)) (cfg : RetentionConfig) (now : ℤ) :
    RetentionReport ι :=
  let runs := sortByUpdated (scan dbUpdated entries)
  let candidates := storageFilter cfg runs (countFilter cfg runs (ageFilter cfg now runs))
  let candidates := dedupByRunId (sortByUpdated candidates)
  { candidates
    totalBytes := (candidates.map (·.bytes)).sum
    dryRun := true
    policy := cfg.policy }

end

/-! ## what a plan should be -/

def size (r : RetentionCandidate ι) : ℕ := r.bytes.toNat

structure WithinLimits (cfg : RetentionConfig) (now : ℤ) (runs : List (RetentionCandidate ι)) :
    Prop where
  age : ∀ r ∈ runs, now - r.updatedUnix ≤ cfg.keepRunsDays.toNat * 86400
  count : runs.length ≤ cfg.keepRunsCount.toNat
  storage : total size runs ≤ cfg.maxStorageBytes.toNat

theorem WithinLimits.perm {cfg : RetentionConfig} {now : ℤ} {runs runs' : List (RetentionCandidate ι)}
    (h : WithinLimits cfg now runs) (hp : runs.Perm runs') : WithinLimits cfg now runs' where
  age r hr := h.age r (hp.mem_iff.mpr hr)
  count := hp.length_eq ▸ h.count
  storage := total_perm size hp ▸ h.storage

def kept [DecidableEq ι] (runs removed : List (RetentionCandidate ι)) : List (RetentionCandidate ι) :=
  runs.filter fun r => r.runId ∉ removed.map (·.runId)

/-- no run stays that is older than one that goes, what stays is within the limits, and with the
newest that goes (the last one of the plan) it would not be -/
structure Right [DecidableEq ι] (cfg : RetentionConfig) (now : ℤ)
    (runs removed : List (RetentionCandidate ι)) : Prop where
  oldest : ∀ k ∈ kept runs removed, ∀ r ∈ removed, r.updatedUnix ≤ k.updatedUnix
  within : WithinLimits cfg now (kept runs removed)
  needed : ∀ r ∈ removed.getLast?, ¬ WithinLimits cfg now (r :: kept runs removed)

/-! ## the limits of age and count -/

/-- the oldest runs, as many as the limits of age and count take -/
def limited (cfg : RetentionConfig) (now : ℤ) (runs : List (RetentionCandidate ι)) : ℕ :=
  max ((ageFilter cfg now runs).length) (excess cfg runs)

def overLimits (cfg : RetentionConfig) (now : ℤ) (runs : List (RetentionCandidate ι)) :
    List (RetentionCandidate ι) :=
  (sortByUpdated runs).take (limited cfg now runs)

def underLimits (cfg : RetentionConfig) (now : ℤ) (runs : List (RetentionCandidate ι)) :
    List (RetentionCandidate ι) :=
  (sortByUpdated runs).drop (limited cfg now runs)

theorem overAge_iff {cfg : RetentionConfig} (hdays : 0 < cfg.keepRunsDays) (now : ℤ)
    (r : RetentionCandidate ι) :
    overAge cfg now r = true ↔ cfg.keepRunsDays.toNat * 86400 < now - r.updatedUnix := by
  have hlt := cfg.keepRunsDays.toNat_lt
  rw [overAge, Bool.and_eq_true, decide_eq_true_iff, decide_eq_true_iff, and_iff_right hdays,
    ageCutoffSecs, saturatingSub, i64Max]
  omega

/-- a property that the elements before have too holds of a front -/
theorem filter_front {α : Type*} {p : α → Bool} {l : List α}
    (h : l.Pairwise fun a b => p b = true → p a = true) :
    l.filter p = l.take (l.filter p).length ∧ ∀ a ∈ l.drop (l.filter p).length, ¬ p a = true := by
  induction l with
  | nil => exact ⟨rfl, fun a ha => absurd ha List.not_mem_nil⟩
  | cons a l ih =>
    obtain ⟨ha, hl⟩ := List.pairwise_cons.mp h
    by_cases hp : p a = true
    · rw [List.filter_cons_of_pos hp, List.length_cons, List.take_succ_cons, List.drop_succ_cons,
        ← (ih hl).1]
      exact ⟨rfl, (ih hl).2⟩
    · have hnot : ∀ b ∈ l, ¬ p b = true := fun b hb hpb => hp (ha b hb hpb)
      rw [List.filter_cons_of_neg hp, List.filter_eq_nil_iff.mpr hnot]
      exact ⟨rfl, List.forall_mem_cons.mpr ⟨hp, hnot⟩⟩

theorem sorted_runs (runs : List (RetentionCandidate ι)) :
    (sortByUpdated runs).Pairwise fun a b => a.updatedUnix ≤ b.updatedUnix :=
  List.pairwise_insertionSort _ runs

theorem runs_split (cfg : RetentionConfig) (now : ℤ) (runs : List (RetentionCandidate ι)) :
    overLimits cfg now runs ++ underLimits cfg now runs = sortByUpdated runs :=
  List.take_append_drop _ _

section
variable {cfg : RetentionConfig} (hdays : 0 < cfg.keepRunsDays) (now : ℤ)
  (runs : List (RetentionCandidate ι))

include hdays

/-- the runs that the age filter finds are the oldest ones -/
theorem age_front : ageFilter cfg now (sortByUpdated runs)
      = (sortByUpdated runs).take (ageFilter cfg now runs).length ∧
    ∀ r ∈ (sortByUpdated runs).drop (ageFilter cfg now runs).length, ¬ overAge cfg now r = true := by
  have hlen : (ageFilter cfg now runs).length = (ageFilter cfg now (sortByUpdated runs)).length :=
    ((List.perm_insertionSort _ runs).filter _).length_eq.symm
  rw [hlen]
  refine filter_front ((sorted_runs runs).imp fun {a b} hab hb => ?_)
  rw [overAge_iff hdays] at hb ⊢
  omega

theorem under_age {r : RetentionCandidate ι} (hr : r ∈ underLimits cfg now runs) :
    now - r.updatedUnix ≤ cfg.keepRunsDays.toNat * 86400 := by
  rw [← not_lt, ← overAge_iff hdays]
  refine (age_front hdays now runs).2 r ?_
  have hsub : ((sortByUpdated runs).drop (limited cfg now runs)).Sublist
      ((sortByUpdated runs).drop (ageFilter cfg now runs).length) :=
    List.drop_sublist_drop_left _ (le_max_left _ _)
  exact hsub.subset hr

omit hdays in
theorem under_count : (underLimits cfg now runs).length ≤ cfg.keepRunsCount.toNat := by
  have hlen : (sortByUpdated runs).length = runs.length := List.length_insertionSort _ _
  rw [underLimits, List.length_drop, hlen, limited, excess]
  omega

/-- the newest run over a limit is over age, or one more would be too many -/
theorem over_last {r : RetentionCandidate ι} (hr : r ∈ (overLimits cfg now runs).getLast?) :
    cfg.keepRunsDays.toNat * 86400 < now - r.updatedUnix ∨
      (underLimits cfg now runs).length = cfg.keepRunsCount.toNat := by
  have hmem : r ∈ overLimits cfg now runs := List.mem_of_getLast? hr
  by_cases hage : excess cfg runs ≤ (ageFilter cfg now runs).length
  · refine Or.inl ((overAge_iff hdays now r).mp ?_)
    rw [overLimits, limited, max_eq_left hage, ← (age_front hdays now runs).1] at hmem
    exact (List.mem_filter.mp hmem).2
  · have hlen : (sortByUpdated runs).length = runs.length := List.length_insertionSort _ _
    right
    rw [underLimits, List.length_drop, hlen, limited, max_eq_right (Nat.le_of_not_le hage)]
    rw [excess] at hage ⊢
    omega

end

/-! ## the runs that go -/

section
variable [DecidableEq ι] {cfg : RetentionConfig}

theorem storagePass_eq (cap : ℕ) (runs : List (RetentionCandidate ι)) :
    ∀ n candidates, storagePass cap n runs candidates
      = FirstWins.addAll (·.runId) candidates (past size u64Max cap n runs) := by
  induction runs with
  | nil => intro n candidates; rfl
  | cons r runs ih =>
    intro n candidates
    show storagePass cap (min (n + size r) u64Max) runs
      (if cap < min (n + size r) u64Max then FirstWins.add (·.runId) candidates r else candidates) = _
    rw [ih, past]
    by_cases h : cap < min (n + size r) u64Max
    · rw [if_pos h, if_pos h]
      rfl
    · rw [if_neg h, if_neg h]

/-- the runs behind the place where the running total passes the storage cap -/
def pastStorage (cfg : RetentionConfig) (now : ℤ) (runs : List (RetentionCandidate ι)) :
    List (RetentionCandidate ι) :=
  past size u64Max cfg.maxStorageBytes.toNat (min (total size (overLimits cfg now runs)) u64Max)
    (underLimits cfg now runs)

variable {now : ℤ} {runs : List (RetentionCandidate ι)} (hdistinct : (runs.map (·.runId)).Nodup)

include hdistinct

omit [DecidableEq ι] in
theorem sorted_distinct : ((sortByUpdated runs).map (·.runId)).Nodup :=
  ((List.perm_insertionSort _ runs).map _).nodup_iff.mpr hdistinct

theorem count_candidates (hdays : 0 < cfg.keepRunsDays) :
    countFilter cfg (sortByUpdated runs) (ageFilter cfg now (sortByUpdated runs))
      = overLimits cfg now runs := by
  have hlen : (sortByUpdated runs).length = runs.length := List.length_insertionSort _ _
  have hnodup := sorted_distinct hdistinct
  have hexcess : excess cfg (sortByUpdated runs) = excess cfg runs := by
    rw [excess, excess, hlen]
  rw [countFilter, (age_front hdays now runs).1, hlen, hexcess, overLimits, limited]
  by_cases hmany : cfg.keepRunsCount.toNat < runs.length
  · rw [if_pos hmany]
    by_cases hage : excess cfg runs ≤ (ageFilter cfg now runs).length
    · rw [max_eq_left hage]
      refine FirstWins.addAll_known fun r hr => List.mem_map_of_mem ?_
      exact (List.take_sublist_take_left hage).subset hr
    · rw [max_eq_right (Nat.le_of_not_le hage)]
      have hsplit : (sortByUpdated runs).take (excess cfg runs)
          = (sortByUpdated runs).take (ageFilter cfg now runs).length ++
            ((sortByUpdated runs).take (excess cfg runs)).drop (ageFilter cfg now runs).length := by
        have := List.take_append_drop (ageFilter cfg now runs).length
          ((sortByUpdated runs).take (excess cfg runs))
        rwa [List.take_take, min_eq_left (Nat.le_of_not_le hage), eq_comm] at this
      have hnodup' : (((sortByUpdated runs).take (excess cfg runs)).map (·.runId)).Nodup :=
        hnodup.sublist ((List.take_sublist _ _).map _)
      rw [hsplit] at hnodup' ⊢
      rw [FirstWins.addAll_append, FirstWins.addAll_known fun r hr => List.mem_map_of_mem hr,
        FirstWins.addAll_of_distinct hnodup']
  · have hnone : excess cfg runs = 0 := by
      rw [excess]
      omega
    rw [if_neg hmany, hnone, Nat.max_zero]

omit [DecidableEq ι] hdistinct in
theorem removed_sublist :
    (overLimits cfg now runs ++ pastStorage cfg now runs).Sublist (sortByUpdated runs) := by
  rw [← runs_split cfg now runs]
  exact (past_sublist _ _).append_left _

/-- **The runs that go**: those over a limit of age or count, and those behind the place where the
running total of all passes the storage cap. -/
theorem candidates_eq (hdays : 0 < cfg.keepRunsDays) (hstorage : 0 < cfg.maxStorageBytes) :
    dedupByRunId (sortByUpdated (storageFilter cfg (sortByUpdated runs)
        (countFilter cfg (sortByUpdated runs) (ageFilter cfg now (sortByUpdated runs)))))
      = overLimits cfg now runs ++ pastStorage cfg now runs := by
  have hsub : (overLimits cfg now runs ++ pastStorage cfg now runs).Sublist (sortByUpdated runs) :=
    removed_sublist
  have hnodup : ((overLimits cfg now runs ++ pastStorage cfg now runs).map (·.runId)).Nodup :=
    (sorted_distinct hdistinct).sublist (hsub.map _)
  have hfilter : storageFilter cfg (sortByUpdated runs) (overLimits cfg now runs)
      = overLimits cfg now runs ++ pastStorage cfg now runs := by
    have hpast : past size u64Max cfg.maxStorageBytes.toNat 0 (sortByUpdated runs)
        = past size u64Max cfg.maxStorageBytes.toNat 0 (overLimits cfg now runs) ++
          pastStorage cfg now runs := by
      have happend := @past_append _ size u64Max cfg.maxStorageBytes.toNat 0 (overLimits cfg now runs)
        (underLimits cfg now runs)
      rwa [runs_split, Nat.zero_min, Nat.zero_add] at happend
    rw [storageFilter, if_pos hstorage, storagePass_eq, hpast, FirstWins.addAll_append,
      FirstWins.addAll_known fun r hr => List.mem_map_of_mem ((past_sublist _ _).subset hr)]
    exact FirstWins.addAll_of_distinct hnodup
  have hsorted : sortByUpdated (overLimits cfg now runs ++ pastStorage cfg now runs)
      = overLimits cfg now runs ++ pastStorage cfg now runs :=
    ((sorted_runs runs).sublist hsub).insertionSort_eq
  rw [count_candidates hdistinct hdays, hfilter, hsorted]
  exact (List.destutter_of_isChain _ _ (List.pairwise_map.mp hnodup).isChain)

/-- between the runs that go, `front` stays -/
theorem kept_perm {front : List (RetentionCandidate ι)}
    (hfront : underLimits cfg now runs = front ++ pastStorage cfg now runs) :
    (kept runs (overLimits cfg now runs ++ pastStorage cfg now runs)).Perm front := by
  have hnodup := sorted_distinct hdistinct
  rw [← runs_split cfg now runs, hfront, List.map_append, List.map_append] at hnodup
  obtain ⟨-, hrest, hover⟩ := List.nodup_append.mp hnodup
  obtain ⟨-, -, hpast⟩ := List.nodup_append.mp hrest
  have hgone : ∀ l : List (RetentionCandidate ι), (∀ r ∈ l, r.runId ∈
      (overLimits cfg now runs ++ pastStorage cfg now runs).map (·.runId)) →
      kept l (overLimits cfg now runs ++ pastStorage cfg now runs) = [] := by
    intro l hl
    refine List.filter_eq_nil_iff.mpr fun r hr => ?_
    rw [decide_eq_true_iff]
    exact fun hnot => hnot (hl r hr)
  have hstay : kept front (overLimits cfg now runs ++ pastStorage cfg now runs) = front := by
    refine List.filter_eq_self.mpr fun r hr => decide_eq_true fun hmem => ?_
    have hid : r.runId ∈ front.map (·.runId) := List.mem_map_of_mem hr
    rw [List.map_append] at hmem
    obtain hmem | hmem := List.mem_append.mp hmem
    · exact hover _ hmem _ (List.mem_append_left _ hid) rfl
    · exact hpast _ hid _ hmem rfl
  have hperm : (kept runs (overLimits cfg now runs ++ pastStorage cfg now runs)).Perm
      (kept (sortByUpdated runs) (overLimits cfg now runs ++ pastStorage cfg now runs)) :=
    ((List.perm_insertionSort _ runs).symm).filter _
  refine hperm.trans (List.Perm.of_eq ?_)
  calc kept (sortByUpdated runs) (overLimits cfg now runs ++ pastStorage cfg now runs)
      = kept (overLimits cfg now runs) (overLimits cfg now runs ++ pastStorage cfg now runs) ++
        (kept front (overLimits cfg now runs ++ pastStorage cfg now runs) ++
        kept (pastStorage cfg now runs) (overLimits cfg now runs ++ pastStorage cfg now runs)) := by
        rw [← runs_split cfg now runs, hfront]
        unfold kept
        rw [List.filter_append, List.filter_append]
    _ = front := by
        rw [hstay, hgone _ fun r hr => List.mem_map_of_mem (List.mem_append_left _ hr),
          hgone _ fun r hr => List.mem_map_of_mem (List.mem_append_right _ hr),
          List.nil_append, List.append_nil]

/-- what the limits say about the runs that stay -/
theorem right_iff_front (hdays : 0 < cfg.keepRunsDays) {front : List (RetentionCandidate ι)}
    (hfront : underLimits cfg now runs = front ++ pastStorage cfg now runs) :
    Right cfg now runs (overLimits cfg now runs ++ pastStorage cfg now runs) ↔
      total size front ≤ cfg.maxStorageBytes.toNat ∧
      ∀ newest ∈ (pastStorage cfg now runs).getLast?,
        (∀ k ∈ front, k.updatedUnix = newest.updatedUnix) ∧
        cfg.maxStorageBytes.toNat < total size front + size newest := by
  have hkept := kept_perm hdistinct hfront
  have hsorted := sorted_runs runs
  rw [← runs_split cfg now runs, hfront] at hsorted
  obtain ⟨-, hrest, hover⟩ := List.pairwise_append.mp hsorted
  obtain ⟨-, hpastSorted, hpast⟩ := List.pairwise_append.mp hrest
  have hage : ∀ r ∈ front ++ pastStorage cfg now runs,
      now - r.updatedUnix ≤ cfg.keepRunsDays.toNat * 86400 :=
    fun r hr => under_age hdays now runs (hfront ▸ hr)
  have hcount : (underLimits cfg now runs).length ≤ cfg.keepRunsCount.toNat := under_count now runs
  rw [hfront, List.length_append] at hcount
  constructor
  · intro h
    refine ⟨(h.within.perm hkept).storage, fun newest hnewest => ⟨fun k hk => ?_, ?_⟩⟩
    · have hmem := List.mem_of_getLast? hnewest
      have hle := h.oldest k (hkept.mem_iff.mpr hk) newest (List.mem_append_right _ hmem)
      exact le_antisymm (hpast k hk newest hmem) hle
    · by_contra hfits
      have hmem := List.mem_of_getLast? hnewest
      have hpos := List.length_pos_of_mem hmem
      have hlast : newest ∈ (overLimits cfg now runs ++ pastStorage cfg now runs).getLast? := by
        rw [List.getLast?_append, Option.mem_def.mp hnewest]
        rfl
      refine h.needed newest hlast (WithinLimits.perm ?_ (hkept.symm.cons newest))
      constructor
      · intro r hr
        obtain rfl | hr := List.mem_cons.mp hr
        · exact hage r (List.mem_append_right _ hmem)
        · exact hage r (List.mem_append_left _ hr)
      · rw [List.length_cons]
        omega
      · rw [total_cons]
        omega
  · intro ⟨hstorage, hlast⟩
    refine ⟨fun k hk r hr => ?_, WithinLimits.perm ⟨?_, ?_, hstorage⟩ hkept.symm, fun r hr hin => ?_⟩
    · have hk := hkept.mem_iff.mp hk
      obtain hr | hr := List.mem_append.mp hr
      · exact hover r hr k (List.mem_append_left _ hk)
      · obtain ⟨newest, hnewest⟩ : ∃ newest, newest ∈ (pastStorage cfg now runs).getLast? :=
          ⟨_, List.getLast?_eq_some_getLast (List.ne_nil_of_mem hr)⟩
        rw [(hlast newest hnewest).1 k hk]
        obtain ⟨older, holder⟩ := List.getLast?_eq_some_iff.mp hnewest
        rw [holder] at hr hpastSorted
        obtain hr | hr := List.mem_append.mp hr
        · exact (List.pairwise_append.mp hpastSorted).2.2 r hr newest (List.mem_singleton_self _)
        · rw [List.mem_singleton.mp hr]
    · exact fun r hr => hage r (List.mem_append_left _ hr)
    · omega
    · have hin := hin.perm (hkept.cons r)
      rw [List.getLast?_append] at hr
      cases hpl : (pastStorage cfg now runs).getLast? with
      | some newest =>
        rw [hpl] at hr
        obtain rfl := Option.some.inj hr
        have hsize := hin.storage
        rw [total_cons] at hsize
        have := (hlast newest hpl).2
        omega
      | none =>
        rw [hpl] at hr
        have hnil := List.getLast?_eq_none_iff.mp hpl
        obtain hold | hfull := over_last hdays now runs hr
        · have := hin.age r List.mem_cons_self
          omega
        · have hlen := hin.count
          rw [hfront, hnil, List.append_nil] at hfull
          rw [List.length_cons] at hlen
          omega

omit hdistinct [DecidableEq ι] in
theorem total_runs : total size (overLimits cfg now runs) + total size (underLimits cfg now runs)
    = total size runs := by
  rw [← total_append, runs_split]
  exact total_perm size (List.perm_insertionSort _ runs)

end

/-- The storage filter does no harm: nothing is under the limits of age and count, or all runs
together are within the storage cap; or, behind the place where the running total of all runs passes
the cap, the newest run is too large beside those under the limits before it, and none of these is
older. -/
def StorageHarmless (cfg : RetentionConfig) (now : ℤ) (runs : List (RetentionCandidate ι)) : Prop :=
  underLimits cfg now runs = [] ∨
  (total size (underLimits cfg now runs) ≤ cfg.maxStorageBytes.toNat ∧
    ¬ Over u64Max cfg.maxStorageBytes.toNat (total size runs)) ∨
  ∃ front r rest, underLimits cfg now runs = front ++ r :: rest ∧
    (front ≠ [] → ¬ Over u64Max cfg.maxStorageBytes.toNat
      (total size (overLimits cfg now runs) + total size front)) ∧
    Over u64Max cfg.maxStorageBytes.toNat
      (total size (overLimits cfg now runs) + total size front + size r) ∧
    ∀ newest ∈ (r :: rest).getLast?, (∀ k ∈ front, k.updatedUnix = newest.updatedUnix) ∧
      cfg.maxStorageBytes.toNat < total size front + size newest

section
variable [DecidableEq ι] {cfg : RetentionConfig} {now : ℤ} {runs : List (RetentionCandidate ι)}
  (hdistinct : (runs.map (·.runId)).Nodup)

include hdistinct

theorem right_iff (hdays : 0 < cfg.keepRunsDays) :
    Right cfg now runs (overLimits cfg now runs ++ pastStorage cfg now runs) ↔
      StorageHarmless cfg now runs := by
  obtain ⟨front, hfront, hfits, hpast⟩ := @past_split _ size u64Max cfg.maxStorageBytes.toNat
    (total size (overLimits cfg now runs)) (underLimits cfg now runs)
  change underLimits cfg now runs = front ++ pastStorage cfg now runs at hfront
  change ∀ r rest, pastStorage cfg now runs = r :: rest → _ at hpast
  have htotal : total size (overLimits cfg now runs) + total size (underLimits cfg now runs)
      = total size runs := total_runs
  rw [right_iff_front hdistinct hdays hfront]
  cases hp : pastStorage cfg now runs with
  | nil =>
    rw [hp, List.append_nil] at hfront
    constructor
    · intro ⟨hstorage, _⟩
      by_cases hnil : front = []
      · exact Or.inl (hfront.trans hnil)
      · refine Or.inr (Or.inl ⟨hfront ▸ hstorage, ?_⟩)
        rw [← htotal, hfront]
        exact hfits hnil
    · intro h
      refine ⟨?_, fun _ h => nomatch h⟩
      obtain hnil | ⟨hstorage, -⟩ | ⟨before, r, rest, hsplit, -, hover, -⟩ := h
      · rw [← hfront, hnil]
        exact Nat.zero_le _
      · exact hfront ▸ hstorage
      · -- the place of the third case is no place of the running total
        have hne : front ≠ [] := by
          rw [← hfront, hsplit]
          simp
        refine absurd (hover.mono ?_) (hfits hne)
        rw [← hfront, hsplit, total_append, total_cons]
        omega
  | cons r rest =>
    have hover := hpast r rest hp
    rw [hp] at hfront
    constructor
    · intro ⟨_, hlast⟩
      exact Or.inr (Or.inr ⟨front, r, rest, hfront, hfits, hover, hlast⟩)
    · intro h
      obtain hnil | ⟨-, hunder⟩ | ⟨before, r', rest', hsplit, hbefore, hover', hlast⟩ := h
      · rw [hfront] at hnil
        exact absurd hnil (by simp)
      · refine absurd (hover.mono ?_) hunder
        rw [← htotal, hfront, total_append, total_cons]
        omega
      · obtain rfl : front = before := split_unique hfront hsplit hover hover' hfits hbefore
        obtain ⟨rfl, rfl⟩ : r = r' ∧ rest = rest' :=
          List.cons.inj (List.append_cancel_left (hfront.symm.trans hsplit))
        refine ⟨?_, hlast⟩
        by_cases hnil : front = []
        · rw [hnil]
          exact Nat.zero_le _
        · -- over the cap, so the cap is below what is counted
          have := hfits hnil
          unfold Over at this hover
          omega

end

/-- **The plan is right iff the storage filter does no harm.** -/
theorem plan_right [DecidableEq ι] (dbUpdated : ι → Option ℤ) (entries : List (DirEntry ι))
    (hdistinct : ((scan dbUpdated entries).map (·.runId)).Nodup) (cfg : RetentionConfig)
    (hdays : 0 < cfg.keepRunsDays) (hstorage : 0 < cfg.maxStorageBytes) (now : ℤ) :
    Right cfg now (scan dbUpdated entries) (plan dbUpdated entries cfg now).candidates ↔
      StorageHarmless cfg now (scan dbUpdated entries) := by
  have hplan : (plan dbUpdated entries cfg now).candidates
      = overLimits cfg now (scan dbUpdated entries) ++
        pastStorage cfg now (scan dbUpdated entries) := candidates_eq hdistinct hdays hstorage
  rw [hplan]
  exact right_iff hdistinct hdays

/-- a run of `bytes` bytes, last updated at `updated` -/
def runEntry (runId : ℕ) (bytes : UInt64) (updated : ℤ) : DirEntry ℕ :=
  ⟨"run", true, some runId, some bytes, some updated⟩

/-- run 1 is 31 days old; run 2 is one too many, as the database knows of an update of run 3 -/
def sampleEntries : List (DirEntry ℕ) :=
  [runEntry 3 10 100, runEntry 1 10 0, runEntry 2 10 2678000]

def sampleUpdated : ℕ → Option ℤ
  | 3 => some 2678300
  | _ => none

def sampleConfig : RetentionConfig := ⟨30, 1, 30, .delete⟩

theorem plan_right_sample : Right sampleConfig 2678400 (scan sampleUpdated sampleEntries)
    (plan sampleUpdated sampleEntries sampleConfig 2678400).candidates :=
  (plan_right sampleUpdated sampleEntries (by decide +kernel) sampleConfig (by decide) (by decide)
    2678400).mpr (Or.inr (Or.inl (by decide +kernel)))

/-- two runs of the same day, together over the cap -/
def twoRuns : List (DirEntry ℕ) := [runEntry 1 10 100, runEntry 2 10 900]

/-- **The newest run goes and an older one stays**, where they are over the storage cap. -/
theorem newest_removed :
    ((plan (fun _ => none) twoRuns ⟨30, 100, 15, .delete⟩ 1000).candidates.map (·.runId)) = [2] ∧
    (kept (scan (fun _ => none) twoRuns)
      (plan (fun _ => none) twoRuns ⟨30, 100, 15, .delete⟩ 1000).candidates).map (·.runId) = [1] ∧
    ¬ Right ⟨30, 100, 15, .delete⟩ 1000 (scan (fun _ => none) twoRuns)
      (plan (fun _ => none) twoRuns ⟨30, 100, 15, .delete⟩ 1000).candidates := by
  refine ⟨by decide +kernel, by decide +kernel, fun h => ?_⟩
  have hle := h.oldest ⟨1, "run", 10, 100⟩ (by decide +kernel) ⟨2, "run", 10, 900⟩ (by decide +kernel)
  exact absurd hle (by decide)

end

end Moagan.Retention
