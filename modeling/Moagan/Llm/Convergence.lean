import Moagan.Llm.Sidecar

/-!
# Processes that save to one sidecar

Every save takes the lock of the file, reads it, folds its own table in and writes it back.

* `Saved`             the entries that any process has written for a pair
* `merge_converges`   the file holds the latest of them, whatever the order of the saves
-/

set_option linter.unusedSectionVars false

namespace Moagan.Sidecar

open LockedUpdate

section
variable {ι E C T : Type} [DecidableEq ι] [Stamped E] [LinearOrder T] (parse : String → Option T)

/-- a step of the processes that save to the sidecar; an update is the table of its process -/
def saveStep (s : Sys ι (TableInner E C) (Content E C)) (e : LockedUpdate.Event ι (TableInner E C)) :
    Option (Sys ι (TableInner E C) (Content E C)) :=
  s.step (persistTo parse) e

/-- an entry that the file had at first, or that a completed save brought -/
def Saved (file : Content E C) (tables : List (TableInner E C)) (k : PairKey) (e : E) : Prop :=
  file.at k = some e ∨ ∃ t ∈ tables, t.entries.get? k = some e

/-- one of the entries, verified no earlier than any other -/
def Latest (S : E → Prop) (e : E) : Prop :=
  S e ∧ ∀ e', S e' → ∀ t ∈ parse (Stamped.verifiedAt e), ∀ t' ∈ parse (Stamped.verifiedAt e'), t' ≤ t

theorem applied_at (file : Content E C) (tables : List (TableInner E C)) (k : PairKey) :
    (applied (persistTo parse) file tables).at k =
      (tables.map fun t => t.entries.get? k).foldl (Newest.join (newer parse)) (file.at k) := by
  induction tables using List.reverseRecOn with
  | nil => rfl
  | append_singleton ts t ih =>
    rw [applied, List.foldl_append, List.map_append, List.foldl_append, ← ih]
    exact at_persistTo parse t _ k

theorem copies_iff (file : Content E C) (tables : List (TableInner E C)) (k : PairKey) (e : E) :
    e ∈ Newest.copies (file.at k) (tables.map fun t => t.entries.get? k) ↔ Saved file tables k e := by
  show file.at k = some e ∨ _ ↔ _
  rw [List.mem_map]
  rfl

theorem newer_iff {a b : E} {t u : T} (ht : parse (Stamped.verifiedAt a) = some t)
    (hu : parse (Stamped.verifiedAt b) = some u) : newer parse a b = true ↔ u < t := by
  unfold newer isNewer
  rw [ht, hu]
  exact decide_eq_true_iff

/-- stamps that parse, different for different entries, put the entries in order -/
theorem stamps_decide {S : Set E}
    (hparse : ∀ e ∈ S, ∃ t, parse (Stamped.verifiedAt e) = some t)
    (hdistinct : ∀ e ∈ S, ∀ e' ∈ S,
      parse (Stamped.verifiedAt e) = parse (Stamped.verifiedAt e') → e = e') :
    Newest.Decided (newer parse) S where
  total a ha b hb := by
    obtain ⟨t, ht⟩ := hparse a ha
    obtain ⟨u, hu⟩ := hparse b hb
    rcases lt_trichotomy t u with h | h | h
    · exact Or.inr (Or.inr ((newer_iff parse hu ht).mpr h))
    · exact Or.inl (hdistinct a ha b hb (by rw [ht, hu, h]))
    · exact Or.inr (Or.inl ((newer_iff parse ht hu).mpr h))
  trans a ha b hb c hc hab hbc := by
    obtain ⟨t, ht⟩ := hparse a ha
    obtain ⟨u, hu⟩ := hparse b hb
    obtain ⟨v, hv⟩ := hparse c hc
    have h1 := (newer_iff parse ht hu).mp hab
    have h2 := (newer_iff parse hu hv).mp hbc
    exact (newer_iff parse ht hv).mpr (h2.trans h1)

/-- the newest copy has the greatest stamp, and nothing else has -/
theorem newest_iff_latest {S : Set E} {r : Option E} (hr : Newest.IsNewest (newer parse) S r)
    (hparse : ∀ e ∈ S, ∃ t, parse (Stamped.verifiedAt e) = some t)
    (hdistinct : ∀ e ∈ S, ∀ e' ∈ S,
      parse (Stamped.verifiedAt e) = parse (Stamped.verifiedAt e') → e = e') (e : E) :
    r = some e ↔ Latest parse (fun x => x ∈ S) e := by
  have latest : ∀ a, r = some a → Latest parse (fun x => x ∈ S) a := by
    intro a ha
    refine ⟨hr.mem a ha, fun b hb t ht u hu => ?_⟩
    obtain ⟨a', ha', hba⟩ := hr.newest b hb
    obtain rfl := Option.some.inj (ha.symm.trans ha')
    rcases hba with rfl | hab
    · exact (Option.some.inj (ht.symm.trans hu)).ge
    · exact ((newer_iff parse ht hu).mp hab).le
  refine ⟨latest e, fun he => ?_⟩
  obtain ⟨a, ha, -⟩ := hr.newest e he.1
  obtain ⟨hmem, hle⟩ := latest a ha
  obtain ⟨t, ht⟩ := hparse a hmem
  obtain ⟨u, hu⟩ := hparse e he.1
  have htu : t = u := le_antisymm (he.2 a hmem u hu t ht) (hle e he.1 t ht u hu)
  rw [ha, hdistinct a hmem e he.1 (by rw [ht, hu, htu])]

/-- **Sidecar merge convergence.**  When the stamps that were saved for a pair parse and differ, the
file has, for every pair that was ever saved, exactly the entry with the greatest stamp.  Any other
run that saved the same entries ends with the same ones. -/
theorem merge_converges (file : Content E C) (es : List (LockedUpdate.Event ι (TableInner E C)))
    (s : Sys ι (TableInner E C) (Content E C))
    (hrun : Runs.run (saveStep parse) (Sys.init file) es = some s)
    (hparse : ∀ k e, Saved file s.log k e → ∃ t, parse (Stamped.verifiedAt e) = some t)
    (hdistinct : ∀ k e e', Saved file s.log k e → Saved file s.log k e' →
      parse (Stamped.verifiedAt e) = parse (Stamped.verifiedAt e') → e = e') :
    (∀ k, (∃ e, Saved file s.log k e) → ∃ e, s.file.at k = some e) ∧
    (∀ k e, s.file.at k = some e ↔ Latest parse (Saved file s.log k) e) ∧
    ∀ es' (s' : Sys ι (TableInner E C) (Content E C)),
      Runs.run (saveStep parse) (Sys.init file) es' = some s' →
      (∀ k e, Saved file s'.log k e ↔ Saved file s.log k e) → ∀ k, s'.file.at k = s.file.at k := by
  -- any run that saved these entries
  have newest : ∀ es' (s' : Sys ι (TableInner E C) (Content E C)),
      Runs.run (saveStep parse) (Sys.init file) es' = some s' →
      (∀ k e, Saved file s'.log k e ↔ Saved file s.log k e) →
      ∀ k, Newest.IsNewest (newer parse) (Saved file s.log k) (s'.file.at k) := by
    intro es' s' hrun' hsame k
    have hcopies : Newest.copies (file.at k) (s'.log.map fun t => t.entries.get? k) =
        Saved file s.log k := by
      ext e
      exact (copies_iff file s'.log k e).trans (hsame k e)
    have hd := stamps_decide parse (S := Saved file s.log k) (hparse k)
      (fun e he e' he' => hdistinct k e e' he he')
    rw [← hcopies] at hd
    rw [file_eq hrun', applied_at, ← hcopies]
    exact Newest.foldl_join hd
  have latest : ∀ es' (s' : Sys ι (TableInner E C) (Content E C)),
      Runs.run (saveStep parse) (Sys.init file) es' = some s' →
      (∀ k e, Saved file s'.log k e ↔ Saved file s.log k e) →
      ∀ k e, s'.file.at k = some e ↔ Latest parse (Saved file s.log k) e :=
    fun es' s' hrun' hsame k => newest_iff_latest parse (newest es' s' hrun' hsame k) (hparse k)
      fun e he e' he' => hdistinct k e e' he he'
  refine ⟨fun k ⟨e, he⟩ => ?_, latest es s hrun fun _ _ => Iff.rfl, fun es' s' hrun' hsame k => ?_⟩
  · obtain ⟨a, ha, -⟩ := (newest es s hrun (fun _ _ => Iff.rfl) k).newest e he
    exact ⟨a, ha⟩
  · apply Option.ext
    intro e
    rw [latest es' s' hrun' hsame k e]
    exact (latest es s hrun (fun _ _ => Iff.rfl) k e).symm

end

theorem saved_two {k : PairKey} {e : MaxTokensEntry}
    (h : Saved .missing [tableOf atEleven, tableOf atTen] k e) : e = atEleven ∨ e = atTen := by
  rcases h with h | ⟨t, ht, h⟩
  · cases h
  · rcases List.mem_cons.mp ht with rfl | ht
    · exact Or.inl (get?_tableOf h)
    · rw [List.mem_singleton.mp ht] at h
      exact Or.inr (get?_tableOf h)

/-- the process with the older entry saves last -/
def staleLast : List (LockedUpdate.Event Bool (TableInner MaxTokensEntry ℕ)) :=
  [.lock true (tableOf atEleven), .load true, .save true, .unlock true,
    .lock false (tableOf atTen), .load false, .save false, .unlock false]

theorem merge_converges_staleLast :
    ∃ s, Runs.run (saveStep tenAndEleven) (Sys.init Content.missing) staleLast = some s ∧
      s.log = [tableOf atEleven, tableOf atTen] ∧
      ∀ k e, s.file.at k = some e ↔ Latest tenAndEleven (Saved .missing s.log k) e := by
  refine ⟨_, rfl, rfl, (merge_converges tenAndEleven .missing staleLast _ rfl ?_ ?_).2.1⟩
  · intro k e he
    rcases saved_two he with rfl | rfl
    · exact ⟨1792753200, by decide +kernel⟩
    · exact ⟨1792749600, by decide +kernel⟩
  · intro k e e' he he' h
    have hne : tenAndEleven (Stamped.verifiedAt atEleven) ≠ tenAndEleven (Stamped.verifiedAt atTen) := by
      decide +kernel
    rcases saved_two he with rfl | rfl
    · rcases saved_two he' with rfl | rfl
      · rfl
      · exact absurd h hne
    · rcases saved_two he' with rfl | rfl
      · exact absurd h.symm hne
      · rfl

end Moagan.Sidecar
