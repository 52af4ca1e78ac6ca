import Moagan.Llm.CacheBound

/-!
# Which entries an eviction removes (`evict_lru` in `src/llm/cache/mod.rs`)

* `LeastRecent`          a split of the entries by their time of use, no longer than needed
* `removeOldest_split`   the loop removes a front of its list, whatever the system refuses
* `removeOldest_clean`   it returns when nothing is refused
* `evictLru_minimal`     an eviction removes the least recently touched entries, and no more
-/

namespace Moagan.Cache

open FileSystem Atomic

section
variable {D : Codec} {c : CacheConfig}

/-- `gone` is the front of the entries in the order of their use, and the last of it had to go -/
structure LeastRecent (D : Codec) (cap : ℕ) (fs : Disk) (paths : List Path)
    (gone kept : List CacheFileStat) : Prop where
  order : sortByTouched (entriesOf D fs paths) = gone ++ kept
  older : ∀ g ∈ gone, ∀ k ∈ kept, g.lastTouched ≤ k.lastTouched
  needed : ∀ g, gone.getLast? = some g →
    cap < g.sizeBytes + Evict.total CacheFileStat.sizeBytes kept

/-- the system reads and removes every file of the walk -/
def Unrefused (a : Answers) (paths : List Path) : Prop :=
  ∀ p ∈ paths, a.unreadable p = false ∧ a.irremovable p = false

theorem removed_of_not_mem {gone : List CacheFileStat} {p : Path}
    (h : p ∉ gone.map CacheFileStat.path) (fs : Disk) : removed gone fs p = fs p := if_neg h

/-- **The loop removes a front of its list, the last item of it from above the cap.** -/
theorem removeOldest_split (cap : ℕ) (irremovable : Path → Bool) (es : List CacheFileStat) :
    ∀ (current : ℕ) (fs : Disk), Evict.total CacheFileStat.sizeBytes es ≤ current →
      ∃ gone kept, es = gone ++ kept ∧
        (removeOldest cap irremovable current es fs).1 = removed gone fs ∧
        (∀ g, gone.getLast? = some g →
          cap + Evict.total CacheFileStat.sizeBytes gone < current + g.sizeBytes) ∧
        ((removeOldest cap irremovable current es fs).2 = .ok () →
          kept = [] ∨ current ≤ cap + Evict.total CacheFileStat.sizeBytes gone) := by
  induction es with
  | nil =>
    intro current fs _
    exact ⟨[], [], rfl, rfl, (fun _ h => by cases h), fun _ => Or.inl rfl⟩
  | cons e es ih =>
    intro current fs hsum
    rw [Evict.total_cons] at hsum
    by_cases hcap : current ≤ cap
    · rw [removeOldest, if_pos hcap]
      exact ⟨[], e :: es, rfl, rfl, (fun _ h => by cases h), fun _ => Or.inr hcap⟩
    · rw [removeOldest_over hcap]
      split_ifs with hstop
      · exact ⟨[], e :: es, rfl, rfl, (fun _ h => by cases h), fun h => by cases h⟩
      · obtain ⟨gone, kept, hes, hdisk, hlast, hok⟩ :=
          ih (current - e.sizeBytes) (Function.update fs e.path none) (by omega)
        refine ⟨e :: gone, kept, congrArg (e :: ·) hes, ?_, fun g hg => ?_, fun h => ?_⟩
        · rw [hdisk, removed_cons]
        · rw [Evict.total_cons]
          cases gone with
          | nil =>
            obtain rfl : e = g := Option.some.inj hg
            rw [Evict.total_nil]
            omega
          | cons g' gone =>
            have := hlast g (by rw [← hg, List.getLast?_cons_cons])
            omega
        · obtain hnil | hle := hok h
          · exact Or.inl hnil
          · right
            rw [Evict.total_cons]
            omega

/-- **The loop returns when the files are there and none is refused.** -/
theorem removeOldest_clean (cap : ℕ) {irremovable : Path → Bool} (es : List CacheFileStat) :
    ∀ (current : ℕ) (fs : Disk), (es.map CacheFileStat.path).Nodup →
      (∀ e ∈ es, irremovable e.path = false ∧ (fs e.path).isSome = true) →
      (removeOldest cap irremovable current es fs).2 = .ok () := by
  induction es with
  | nil => intro _ _ _ _; rfl
  | cons e es ih =>
    intro current fs hnodup hfree
    rw [List.map_cons, List.nodup_cons] at hnodup
    obtain ⟨hirr, hsome⟩ := hfree e List.mem_cons_self
    obtain ⟨raw, hraw⟩ := Option.isSome_iff_exists.mp hsome
    by_cases hcap : current ≤ cap
    · rw [removeOldest, if_pos hcap]
    · have hgoes : ¬ (irremovable e.path = true ∨ fs e.path = none) := by
        rw [hirr, hraw]
        exact not_or.mpr ⟨Bool.false_ne_true, Option.some_ne_none raw⟩
      rw [removeOldest_over hcap, if_neg hgoes]
      apply ih _ _ hnodup.2
      intro e' he'
      have hne : e'.path ≠ e.path := fun h => hnodup.1 (h ▸ List.mem_map_of_mem he')
      show _ ∧ (Function.update fs e.path none e'.path).isSome = true
      rw [Function.update_of_ne hne]
      exact hfree e' (List.mem_cons_of_mem _ he')

theorem sortByTouched_older {entries gone kept : List CacheFileStat}
    (h : sortByTouched entries = gone ++ kept) :
    ∀ g ∈ gone, ∀ k ∈ kept, g.lastTouched ≤ k.lastTouched := by
  have htrans : ∀ x y z : CacheFileStat, decide (x.lastTouched ≤ y.lastTouched) = true →
      decide (y.lastTouched ≤ z.lastTouched) = true → decide (x.lastTouched ≤ z.lastTouched) = true :=
    fun _ _ _ h₁ h₂ => decide_eq_true (Int.le_trans (of_decide_eq_true h₁) (of_decide_eq_true h₂))
  have htotal : ∀ x y : CacheFileStat, (decide (x.lastTouched ≤ y.lastTouched) ||
      decide (y.lastTouched ≤ x.lastTouched)) = true := by
    intro x y
    rw [Bool.or_eq_true, decide_eq_true_eq, decide_eq_true_eq]
    exact Int.le_total _ _
  have hsorted := List.pairwise_mergeSort htrans htotal entries
  rw [← sortByTouched] at hsorted
  rw [h, List.pairwise_append] at hsorted
  intro g hg k hk
  exact of_decide_eq_true (hsorted.2.2 g hg k hk)

/-- nothing goes -/
theorem leastRecent_nil (cap : ℕ) (fs : Disk) (paths : List Path) :
    LeastRecent D cap fs paths [] (sortByTouched (entriesOf D fs paths)) :=
  ⟨rfl, (fun _ h => nomatch h), fun _ h => nomatch h⟩

/-- the files of the entries, each once -/
theorem sorted_paths_nodup {fs : Disk} {paths : List Path} (h : paths.Nodup) :
    ((sortByTouched (entriesOf D fs paths)).map CacheFileStat.path).Nodup := by
  rw [((sortByTouched_perm _).map _).nodup_iff, entriesOf_paths]
  exact h.filter _

variable (D c)

/-- **An eviction removes the least recently touched entries: no entry that stays is older than one
that goes, those that stay fit under the cap, and the last one that went would not.** It returns
unless the system refuses a file. -/
theorem evictLru_minimal {cap : ℕ} (hcap : c.maxBytes = some cap) (a : Answers) (fs : Disk)
    {paths : List Path} (hlist : a.walk = some paths) (hwalk : Walked c.root fs paths) :
    ∃ gone kept, LeastRecent D cap fs paths gone kept ∧
      (∀ e ∈ gone, (evictLru D c a fs).1 e.path = none) ∧
      (∀ p, p ∉ gone.map CacheFileStat.path → (evictLru D c a fs).1 p = fs p) ∧
      (∀ e ∈ kept, e.path ∉ gone.map CacheFileStat.path) ∧
      ((evictLru D c a fs).2 = .ok () → Evict.total CacheFileStat.sizeBytes kept ≤ cap) ∧
      (Unrefused a paths → (evictLru D c a fs).2 = .ok ()) := by
  have hsum := total_sortByTouched (entriesOf D fs paths)
  have hnodup : ((sortByTouched (entriesOf D fs paths)).map CacheFileStat.path).Nodup :=
    sorted_paths_nodup hwalk.nodup
  have hread : Unrefused a paths → ∀ p ∈ paths, a.unreadable p = false ∧ (fs p).isSome = true :=
    fun hu p hp => ⟨(hu p hp).1, ((hwalk.mem p).mp hp).2⟩
  unfold evictLru
  simp only [hcap, hlist]
  cases hen : enumerateCacheEntries D a.unreadable fs paths with
  | error e =>
    refine ⟨[], _, leastRecent_nil cap fs paths, (fun _ h => nomatch h), fun _ _ => rfl,
      (fun _ _ h => nomatch h), (fun h => nomatch h), fun hu => ?_⟩
    rw [enumerate_clean (hread hu)] at hen
    cases hen
  | ok entries =>
    obtain rfl := enumerate_ok hen
    dsimp only
    by_cases hle : Evict.total CacheFileStat.sizeBytes (entriesOf D fs paths) ≤ cap
    · rw [if_pos hle]
      exact ⟨[], _, leastRecent_nil cap fs paths, (fun _ h => nomatch h), fun _ _ => rfl,
        (fun _ _ h => nomatch h), fun _ => hsum ▸ hle, fun _ => rfl⟩
    · rw [if_neg hle, ← hsum]
      obtain ⟨gone, kept, hsplit, hdisk, hlast, hok⟩ := removeOldest_split cap a.irremovable
        (sortByTouched (entriesOf D fs paths)) _ fs (Nat.le_refl _)
      have htotal := Evict.total_append CacheFileStat.sizeBytes gone kept
      rw [hdisk]
      rw [← hsplit] at htotal
      refine ⟨gone, kept, ⟨hsplit, sortByTouched_older hsplit, fun g hg => ?_⟩, fun e he => ?_,
        fun p hp => removed_of_not_mem hp fs, fun e he hg => ?_, fun h => ?_, fun hu => ?_⟩
      · have := hlast g hg
        omega
      · exact if_pos (List.mem_map_of_mem he)
      · rw [hsplit, List.map_append] at hnodup
        exact (List.nodup_append.mp hnodup).2.2 _ hg _ (List.mem_map_of_mem he) rfl
      · obtain rfl | hfits := hok h
        · exact Nat.zero_le _
        · omega
      · apply removeOldest_clean cap _ _ _ hnodup
        intro e he
        have hmem := (path_mem_of_entry ((sortByTouched_perm _).subset he)).1
        exact ⟨(hu _ hmem).2, (hread hu _ hmem).2⟩

end

/-- an entry of 374 bytes does not stay under a cap of 100 -/
theorem evictLru_minimal_sample : ∃ gone kept,
    LeastRecent entryCodec 100 sampleStored sampleWalk gone kept ∧
      (∀ e ∈ gone, (evictLru entryCodec (cappedAt 100) sampleAnswers sampleStored).1 e.path = none) ∧
      Evict.total CacheFileStat.sizeBytes kept ≤ 100 := by
  have hcap : (cappedAt 100).maxBytes = some 100 := rfl
  have hlist : sampleAnswers.walk = some sampleWalk := rfl
  obtain ⟨gone, kept, hsplit, hgone, -, -, hfits, hret⟩ :=
    evictLru_minimal entryCodec (cappedAt 100) hcap sampleAnswers sampleStored hlist sample_walked
  exact ⟨gone, kept, hsplit, hgone, hfits (hret fun _ _ => ⟨rfl, rfl⟩)⟩

end Moagan.Cache
