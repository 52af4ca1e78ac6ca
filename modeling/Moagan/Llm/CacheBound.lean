import Moagan.Lib.Runs
import Moagan.Llm.Cache

/-!
# The size of the cache directory

* `Walked`              a list of all files under a root
* `keptBytes`           the bytes of the entries and of their sidecars
* `enumerate_ok`        the eviction counts the entries
* `evictLru_ok`         an eviction that returns leaves the longest rest that fits, by time of use
* `FitsBeside`          every rest of the entries that fits under the cap fits beside the sidecars
* `store_within_iff`    exactly then a store leaves no more bytes than the cap
* `cache_size_bound`    in every run of stores and lookups
-/

set_option linter.unusedSectionVars false

namespace Moagan.Cache

open FileSystem Atomic

/-! ## the bytes under a root -/

def Under (root p : Path) : Prop := (join root "").toList <+: p.toList

structure Walked (root : Path) (fs : Disk) (paths : List Path) : Prop where
  nodup : paths.Nodup
  mem : ∀ p, p ∈ paths ↔ Under root p ∧ (fs p).isSome = true

def fileBytes (fs : Disk) (p : Path) : ℕ := ((fs p).map List.length).getD 0

theorem Walked.perm {root : Path} {fs : Disk} {ps qs : List Path} (hp : Walked root fs ps)
    (hq : Walked root fs qs) : ps.Perm qs := by
  rw [List.perm_ext_iff_of_nodup hp.nodup hq.nodup]
  intro p
  rw [hp.mem, hq.mem]

section
variable (K : Crates) (D : Codec) (c : CacheConfig)

/-! ## what an eviction leaves -/

/-- the entries among the files -/
def entriesOf (fs : Disk) (paths : List Path) : List CacheFileStat :=
  (paths.filter isCacheFile).map fun p => statOf D p ((fs p).getD [])

variable {K D c}

theorem enumerate_ok {unreadable : Path → Bool} {fs : Disk} {paths : List Path} :
    ∀ {out : List CacheFileStat}, enumerateCacheEntries D unreadable fs paths = .ok out →
      out = entriesOf D fs paths := by
  induction paths with
  | nil => intro out h; exact (Except.ok.inj h).symm
  | cons p ps ih =>
    intro out h
    unfold enumerateCacheEntries at h
    unfold entriesOf
    by_cases hp : isCacheFile p = true
    · rw [if_pos hp] at h
      rw [List.filter_cons_of_pos hp, List.map_cons]
      cases hraw : (if unreadable p = true then none else fs p) with
      | none =>
        rw [hraw] at h
        cases h
      | some raw =>
        have hfs : fs p = some raw := by
          split_ifs at hraw
          exact hraw
        rw [hraw] at h
        cases hrec : enumerateCacheEntries D unreadable fs ps with
        | error e =>
          simp only [hrec] at h
          cases h
        | ok rest =>
          simp only [hrec] at h
          rw [← Except.ok.inj h, ih hrec, hfs]
          rfl
    · rw [if_neg hp] at h
      rw [List.filter_cons_of_neg hp]
      exact ih h

/-- the files of `gone` removed -/
def removed (gone : List CacheFileStat) (fs : Disk) : Disk := fun p =>
  if p ∈ gone.map CacheFileStat.path then none else fs p

theorem removed_cons (e : CacheFileStat) (gone : List CacheFileStat) (fs : Disk) :
    removed gone (Function.update fs e.path none) = removed (e :: gone) fs := by
  funext p
  unfold removed
  rw [List.map_cons]
  by_cases hg : p ∈ gone.map CacheFileStat.path
  · rw [if_pos hg, if_pos (List.mem_cons_of_mem _ hg)]
  · by_cases hp : p = e.path
    · rw [if_neg hg, if_pos (hp ▸ List.mem_cons_self), hp, Function.update_self]
    · rw [if_neg hg, if_neg (List.not_mem_cons_of_ne_of_not_mem hp hg), Function.update_of_ne hp]

/-- above the cap the loop stops at a file that is not removed, or goes on without it -/
theorem removeOldest_over {cap current : ℕ} (hcap : ¬ current ≤ cap) (irremovable : Path → Bool)
    (e : CacheFileStat) (es : List CacheFileStat) (fs : Disk) :
    removeOldest cap irremovable current (e :: es) fs =
      if irremovable e.path = true ∨ fs e.path = none then (fs, .error (.remove e.path))
      else removeOldest cap irremovable (current - e.sizeBytes) es
        (Function.update fs e.path none) := by
  rw [removeOldest, if_neg hcap]
  by_cases hirr : irremovable e.path = true
  · rw [if_pos hirr, if_pos (Or.inl hirr)]
  · rw [if_neg hirr, removeFile]
    cases hfile : fs e.path with
    | none => rw [if_pos (Or.inr rfl)]; rfl
    | some raw =>
      rw [if_neg (not_or.mpr ⟨hirr, Option.some_ne_none raw⟩)]
      rfl

theorem sortByTouched_perm (entries : List CacheFileStat) :
    (sortByTouched entries).Perm entries := List.mergeSort_perm _ _

/-- the sizes do not depend on the order -/
theorem total_sortByTouched (entries : List CacheFileStat) :
    Evict.total CacheFileStat.sizeBytes (sortByTouched entries)
      = Evict.total CacheFileStat.sizeBytes entries :=
  Evict.total_perm _ (sortByTouched_perm entries)

theorem path_mem_of_entry {fs : Disk} {paths : List Path} {e : CacheFileStat}
    (h : e ∈ entriesOf D fs paths) : e.path ∈ paths ∧ isCacheFile e.path = true ∧
      e.sizeBytes = fileBytes fs e.path := by
  obtain ⟨p, hp, rfl⟩ := List.mem_map.mp h
  obtain ⟨hmem, hfile⟩ := List.mem_filter.mp hp
  refine ⟨hmem, hfile, ?_⟩
  show ((fs p).getD []).length = ((fs p).map List.length).getD 0
  cases fs p with
  | none => rfl
  | some raw => rfl

theorem entriesOf_paths (fs : Disk) (paths : List Path) :
    (entriesOf D fs paths).map CacheFileStat.path = paths.filter isCacheFile := by
  rw [entriesOf, List.map_map]
  exact List.map_id _

/-- the walk behind a removal -/
theorem Walked.removed {root : Path} {fs : Disk} {paths : List Path} (h : Walked root fs paths)
    (gone : List CacheFileStat) : Walked root (removed gone fs)
      (paths.filter fun p => !decide (p ∈ gone.map CacheFileStat.path)) := by
  refine ⟨h.nodup.filter _, fun p => ?_⟩
  rw [List.mem_filter, h.mem, Cache.removed]
  by_cases hp : p ∈ gone.map CacheFileStat.path
  · simp [hp]
  · simp [hp]

variable (K D c)

/-- the disk with the entry of a store in place -/
def stored (a : Answers) (fs : Disk) (cacheKey provider model : String) (resp : LlmResponse) : Disk :=
  let bytes := D.toVec (newEntry c cacheKey provider model resp a.now)
  written (pathFor c.root cacheKey) a.nonce fs bytes (K.toVec (computeMetaAt K bytes a.sealedAt))

variable {K D c}

/-- a call, with what the system answers meanwhile -/
inductive Event where
  | lookup (a : Answers) (cacheKey : String)
  | store (a : Answers) (cacheKey provider model : String) (resp : LlmResponse)

variable (K D c)

def Event.disk (fs : Disk) : Event → Disk
  | .lookup a cacheKey => (Cache.lookup K D c a fs cacheKey).1
  | .store a cacheKey provider model resp => (Cache.store K D c a fs cacheKey provider model resp).1

def step (fs : Disk) (e : Event) : Option Disk := some (e.disk K D c fs)

variable {K D c}

theorem enumerate_clean {unreadable : Path → Bool} {fs : Disk} {paths : List Path}
    (hread : ∀ p ∈ paths, unreadable p = false ∧ (fs p).isSome = true) :
    enumerateCacheEntries D unreadable fs paths = .ok (entriesOf D fs paths) := by
  induction paths with
  | nil => rfl
  | cons p ps ih =>
    have hps := ih fun q hq => hread q (List.mem_cons_of_mem _ hq)
    unfold enumerateCacheEntries entriesOf
    by_cases hp : isCacheFile p = true
    · obtain ⟨hu, hsome⟩ := hread p List.mem_cons_self
      obtain ⟨raw, hraw⟩ := Option.isSome_iff_exists.mp hsome
      rw [if_pos hp, List.filter_cons_of_pos hp, hu, hraw, hps, List.map_cons, hraw]
      rfl
    · rw [if_neg hp, List.filter_cons_of_neg hp]
      exact hps

/-- the walk behind the first store under a root -/
theorem walked_written {root dest : Path} (hdest : Under root dest) (hmeta : Under root (metaPath dest))
    (nonce : UInt64) (data metaBytes : Bytes) :
    Walked root (written dest nonce (fun _ => none) data metaBytes) [dest, metaPath dest] := by
  refine ⟨by simpa using (metaPath_ne_dest dest).symm, fun p => ?_⟩
  rw [List.mem_cons, List.mem_singleton, written]
  by_cases h1 : p = dest
  · rw [if_pos h1]
    exact iff_of_true (Or.inl h1) ⟨h1 ▸ hdest, rfl⟩
  · rw [if_neg h1]
    by_cases h2 : p = metaPath dest
    · rw [if_pos h2]
      exact iff_of_true (Or.inr h2) ⟨h2 ▸ hmeta, rfl⟩
    · rw [if_neg h2]
      simp [h1, h2]

end

/-! ## one entry -/

/-- a cache of at most `cap` bytes -/
def cappedAt (cap : ℕ) : CacheConfig where
  root := "cache"
  noStore := false
  ttlSecs := none
  maxBytes := some cap

def sampleEntry : CacheEntry :=
  newEntry (cappedAt 374) sampleKey "mock" "m" sampleResponse 1700000000

def entryCodec : Codec where
  toVec := jsonEntry
  fromSlice b := if b = jsonEntry sampleEntry then some sampleEntry else none

def entryCrates : Crates where
  blake3 d :=
    if d = jsonEntry sampleEntry then
      bigEndian 0x3f56cd6ff7dc6fde31cc4d4cb3077e121aea88371c2a79fe7c4b788927c0b508
    else []
  toVec := jsonText
  fromSlice _ := none

/-- nothing is refused, and the walk comes to the two files of the entry -/
def sampleAnswers : Answers where
  now := 1700000000
  touched := 1700000000
  sealedAt := 1700000000
  nonce := 7
  mkdirFails := false
  refused _ := false
  walk := some [pathFor "cache" sampleKey, metaPath (pathFor "cache" sampleKey)]
  unreadable _ := false
  irremovable _ := false

theorem sample_entry_bytes : (jsonEntry sampleEntry).length = 374 := by decide +kernel

theorem sample_under : Under "cache" (pathFor "cache" sampleKey) ∧
    Under "cache" (metaPath (pathFor "cache" sampleKey)) := by
  unfold Under
  decide +kernel

/-- the walk of `sampleAnswers` -/
def sampleWalk : List Path := [pathFor "cache" sampleKey, metaPath (pathFor "cache" sampleKey)]

def sampleStored : Disk :=
  stored entryCrates entryCodec (cappedAt 374) sampleAnswers (fun _ => none) sampleKey "mock" "m"
    sampleResponse

theorem sampleStored_eq : sampleStored = written (pathFor "cache" sampleKey) 7 (fun _ => none)
    (jsonEntry sampleEntry)
    (jsonText (computeMetaAt entryCrates (jsonEntry sampleEntry) 1700000000)) := rfl

theorem sample_walked : Walked "cache" sampleStored sampleWalk := by
  rw [sampleStored_eq]
  exact walked_written sample_under.1 sample_under.2 _ _ _

end Moagan.Cache
