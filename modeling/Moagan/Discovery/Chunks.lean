import Moagan.Discovery.Curated
import Moagan.Lib.Balanced

/-!
# Curation of a cell in chunks (`src/discovery/curation.rs`, `src/phases/discover_curate.rs`)

* `chunkRanges`       the positions of the theses, split for one call each
* `curateChunk`       two attempts at one chunk
* `curateCell`        all chunks of a cell, merged
* `chunkRanges_flat_iff`   the ranges are the positions exactly when no product wraps
* `merge_covers`      merged chunks cover the cell
* `chunked_covers`    the ranges are balanced, and their curations cover the cell

The products of `chunk_ranges` are `usize` ones and wrap.
-/

namespace Moagan.Discovery

open Balanced

def MAX_THESES_PER_CALL : ℕ := 140

/-- a product of two `usize` -/
def usizeMul (a b : ℕ) : ℕ := a * b % 2 ^ 64

def divCeil (n m : ℕ) : ℕ := if n % m = 0 then n / m else n / m + 1

/-- `n.div_ceil(max.max(1))` -/
def chunkCount (n max : ℕ) : ℕ := divCeil n (Nat.max max 1)

def chunkRanges (n max : ℕ) : List (ℕ × ℕ) :=
  let chunks := chunkCount n max
  (List.range chunks).map fun i => (usizeMul i n / chunks, usizeMul (i + 1) n / chunks)

def CurationReport.isAcceptable (r : CurationReport) : Bool := r.unassigned * 5 ≤ r.theses

/-- the first acceptable answer of two attempts; an attempt without an answer failed -/
def curateChunk (answers : ℕ → Option RawCuration) (ids : List String) : Option ChunkCuration :=
  (List.range 2).findSome? fun attempt => (answers attempt).bind fun raw =>
    let chunk := normalise ids raw
    if chunk.report.isAcceptable then some chunk else none

/-- the chunks in order, from chunk `i` on; a cancelled run ends the loop -/
def curateChunks (cancelled : ℕ → Bool) (answers : ℕ → ℕ → Option RawCuration)
    (ids : List String) : ℕ → List (ℕ × ℕ) → List (Option ChunkCuration)
  | _, [] => []
  | i, range :: ranges =>
    if cancelled i then [none]
    else curateChunk (answers i) (slice ids range) ::
      curateChunks cancelled answers ids (i + 1) ranges

def curateCell (permit : Bool) (cancelled : ℕ → Bool) (answers : ℕ → ℕ → Option RawCuration)
    (cell : CellEntry) : Curation :=
  let ids := cellMemberIds cell
  if permit then Curation.merge (cellKey cell) ids
    (curateChunks cancelled answers ids 0 (chunkRanges ids.length MAX_THESES_PER_CALL))
  else Curation.merge (cellKey cell) ids [none]

/-! ## the ranges -/

theorem le_divCeil_mul (n : ℕ) {m : ℕ} (hm : 0 < m) : n ≤ divCeil n m * m := by
  have hdiv := Nat.div_add_mod n m
  have hlt := Nat.mod_lt n hm
  unfold divCeil
  split_ifs with h
  · rw [Nat.mul_comm]
    omega
  · rw [Nat.add_mul, Nat.one_mul, Nat.mul_comm]
    omega

theorem divCeil_le (n : ℕ) {m : ℕ} (hm : 0 < m) : divCeil n m ≤ n := by
  have hdiv := Nat.div_add_mod n m
  have hle : n / m ≤ m * (n / m) := Nat.le_mul_of_pos_left _ hm
  unfold divCeil
  split_ifs with h
  · omega
  · omega

theorem le_chunkCount (n max : ℕ) : n ≤ chunkCount n max * Nat.max max 1 :=
  le_divCeil_mul n (Nat.le_max_right max 1)

theorem chunkCount_le (n max : ℕ) : chunkCount n max ≤ n :=
  divCeil_le n (Nat.le_max_right max 1)

theorem chunkCount_pos {n : ℕ} (h : 0 < n) (max : ℕ) : 0 < chunkCount n max := by
  have := le_chunkCount n max
  by_contra h0
  rw [Nat.eq_zero_of_not_pos h0, Nat.zero_mul] at this
  omega

/-- no product wraps -/
theorem chunkRanges_eq {n max : ℕ} (h : n * chunkCount n max < 2 ^ 64) :
    chunkRanges n max = parts n (chunkCount n max) := by
  have hmul : ∀ i ≤ chunkCount n max, usizeMul i n = i * n := by
    intro i hi
    apply Nat.mod_eq_of_lt
    rw [Nat.mul_comm]
    exact (Nat.mul_le_mul_left n hi).trans_lt h
  apply List.map_congr_left
  intro i hi
  have hlt := List.mem_range.mp hi
  rw [hmul i hlt.le, hmul (i + 1) hlt]
  rfl

/-- **The ranges are the positions, in order, exactly when the last product does not wrap.** -/
theorem chunkRanges_flat_iff (n max : ℕ) :
    (chunkRanges n max).flatMap positions = List.range n ↔ n * chunkCount n max < 2 ^ 64 := by
  constructor
  · intro h
    by_cases hn : n = 0
    · rw [hn, Nat.zero_mul]
      exact Nat.two_pow_pos 64
    · have hmem : n - 1 ∈ (chunkRanges n max).flatMap positions := by
        rw [h, List.mem_range]
        omega
      obtain ⟨r, hr, hpos⟩ := List.mem_flatMap.mp hmem
      obtain ⟨i, -, rfl⟩ := List.mem_map.mp hr
      -- the range of the last position ends at `n` or later
      have hend : n ≤ usizeMul (i + 1) n / chunkCount n max := by
        obtain ⟨hstart, hlast⟩ := List.mem_range'_1.mp hpos
        omega
      have hmul := (Nat.le_div_iff_mul_le (chunkCount_pos (Nat.pos_of_ne_zero hn) max)).mp hend
      exact hmul.trans_lt (Nat.mod_lt _ (Nat.two_pow_pos 64))
  · intro h
    rw [chunkRanges_eq h]
    by_cases hn : n = 0
    · rw [hn, Nat.le_zero.mp (chunkCount_le 0 max)]
      rfl
    · exact parts_positions (chunkCount_pos (Nat.pos_of_ne_zero hn) max)

theorem mem_chunkRanges {n max : ℕ} (h : n * chunkCount n max < 2 ^ 64) {r : ℕ × ℕ}
    (hr : r ∈ chunkRanges n max) :
    ∃ i, r = part n (chunkCount n max) i ∧ 0 < chunkCount n max := by
  rw [chunkRanges_eq h] at hr
  obtain ⟨i, hi, rfl⟩ := List.mem_map.mp hr
  exact ⟨i, rfl, Nat.zero_lt_of_lt (List.mem_range.mp hi)⟩

theorem chunkRanges_pos {n max : ℕ} (h : n * chunkCount n max < 2 ^ 64) {r : ℕ × ℕ}
    (hr : r ∈ chunkRanges n max) : r.1 < r.2 := by
  obtain ⟨i, rfl, hc⟩ := mem_chunkRanges h hr
  have hone : 1 ≤ n / chunkCount n max := (Nat.one_le_div_iff hc).mpr (chunkCount_le n max)
  have := part_lower n (chunkCount n max) i
  omega

theorem chunkRanges_size {n max : ℕ} (h : n * chunkCount n max < 2 ^ 64) {r : ℕ × ℕ}
    (hr : r ∈ chunkRanges n max) : r.2 - r.1 ≤ Nat.max max 1 := by
  obtain ⟨i, rfl, hc⟩ := mem_chunkRanges h hr
  exact part_le hc (le_chunkCount n max) i

theorem chunkRanges_balanced {n max : ℕ} (h : n * chunkCount n max < 2 ^ 64) {r s : ℕ × ℕ}
    (hr : r ∈ chunkRanges n max) (hs : s ∈ chunkRanges n max) :
    r.2 - r.1 ≤ s.2 - s.1 + 1 := by
  obtain ⟨i, rfl, hc⟩ := mem_chunkRanges h hr
  obtain ⟨j, rfl, -⟩ := mem_chunkRanges h hs
  have hupper := part_upper (n := n) hc i
  have hlower := part_lower n (chunkCount n max) j
  omega

theorem chunkRanges_slices {α : Type} {max : ℕ} (xs : List α)
    (h : xs.length * chunkCount xs.length max < 2 ^ 64) :
    (chunkRanges xs.length max).flatMap (slice xs) = xs := by
  rw [chunkRanges_eq h]
  by_cases hn : xs.length = 0
  · rw [List.length_eq_zero_iff.mp hn, List.length_nil, Nat.le_zero.mp (chunkCount_le 0 max)]
    rfl
  · exact parts_slices xs (chunkCount_pos (Nat.pos_of_ne_zero hn) max)

/-! ## merging -/

theorem sortIds_eq_of_perm {xs ys : List String} (h : xs.Perm ys) : sortIds xs = sortIds ys :=
  (((sortIds_perm xs).trans h).trans (sortIds_perm ys).symm).eq_of_pairwise
    (fun _ _ _ _ => le_antisymm) (List.pairwise_insertionSort _ _) (List.pairwise_insertionSort _ _)

theorem cellMemberIds_sorted (cell : CellEntry) :
    sortIds (cellMemberIds cell) = cellMemberIds cell := sortIds_eq_of_perm (sortIds_perm _)

/-- a chunk and the theses it was made for -/
def Lists (p : List String × Option ChunkCuration) : Prop :=
  ∀ c, p.2 = some c → (listedIds c.groups).Perm p.1

theorem answers_perm (chunks : List (List String × Option ChunkCuration))
    (h : ∀ p ∈ chunks, Lists p) (hall : ∀ p ∈ chunks, p.2 ≠ none) :
    (listedIds (((chunks.map Prod.snd).filterMap id).flatMap ChunkCuration.groups)).Perm
      (chunks.flatMap Prod.fst) := by
  induction chunks with
  | nil => exact List.Perm.refl _
  | cons p ps ih =>
    obtain ⟨c, hc⟩ := Option.ne_none_iff_exists'.mp (hall p List.mem_cons_self)
    rw [List.map_cons, List.filterMap_cons_some (f := id) hc, List.flatMap_cons, listedIds,
      List.flatMap_append, List.flatMap_cons]
    exact (h p List.mem_cons_self c hc).append
      (ih (fun q hq => h q (List.mem_cons_of_mem _ hq))
        fun q hq => hall q (List.mem_cons_of_mem _ hq))

theorem any_isNone {chunks : List (Option ChunkCuration)} :
    chunks.any Option.isNone = true ↔ none ∈ chunks := by
  rw [List.any_eq_true]
  constructor
  · rintro ⟨o, ho, hn⟩
    rwa [Option.isNone_iff_eq_none.mp hn] at ho
  · intro h
    exact ⟨none, h, rfl⟩

theorem merge_status (cell : String) (members : List String)
    (chunks : List (Option ChunkCuration)) :
    (Curation.merge cell members chunks).status = .failed ↔ none ∈ chunks := by
  rw [← any_isNone]
  unfold Curation.merge
  dsimp only
  cases chunks.any Option.isNone with
  | true => exact ⟨fun _ => rfl, fun _ => rfl⟩
  | false => exact ⟨fun h => (nomatch h), fun h => (nomatch h)⟩

theorem covers_of_failed {cell : String} {ids : List String}
    {chunks : List (Option ChunkCuration)} (h : none ∈ chunks) :
    (Curation.merge cell ids chunks).covers cell ids = true := by
  have hstatus := (merge_status cell ids chunks).mpr h
  unfold Curation.covers
  rw [if_neg (by simp [Curation.merge]), if_pos hstatus]

/-- **Chunks that list the theses they were made for cover the cell.** -/
theorem merge_covers {cell : String} {ids : List String} (hsorted : sortIds ids = ids)
    (chunks : List (List String × Option ChunkCuration)) (h : ∀ p ∈ chunks, Lists p)
    (hids : chunks.flatMap Prod.fst = ids) :
    (Curation.merge cell ids (chunks.map Prod.snd)).covers cell ids = true := by
  by_cases hnone : none ∈ chunks.map Prod.snd
  · exact covers_of_failed hnone
  · have hall : ∀ p ∈ chunks, p.2 ≠ none := fun p hp he =>
      hnone (List.mem_map.mpr ⟨p, hp, he⟩)
    have hok := (merge_status cell ids (chunks.map Prod.snd)).not.mpr hnone
    have hfailed : (chunks.map Prod.snd).any Option.isNone = false :=
      Bool.eq_false_iff.mpr fun h => hnone (any_isNone.mp h)
    unfold Curation.covers
    rw [if_neg (by simp [Curation.merge]), if_neg hok]
    apply decide_eq_true
    unfold Curation.merge
    dsimp only
    rw [hfailed, if_neg Bool.false_ne_true, sortIds_eq_of_perm (answers_perm chunks h hall), hids,
      hsorted]

/-! ## cells -/

theorem slice_nodup {ids : List String} (h : ids.Nodup) (r : ℕ × ℕ) : (slice ids r).Nodup :=
  h.sublist ((List.take_sublist _ _).trans (List.drop_sublist _ _))

theorem curateChunk_lists {ids : List String} (h : ids.Nodup) (answers : ℕ → Option RawCuration) :
    Lists (ids, curateChunk answers ids) := by
  intro c hc
  obtain ⟨attempt, -, hattempt⟩ := List.exists_of_findSome?_eq_some hc
  obtain ⟨raw, -, hraw⟩ := Option.bind_eq_some_iff.mp hattempt
  dsimp only at hraw
  split_ifs at hraw
  obtain rfl := Option.some.inj hraw
  exact normalise_ids h raw

/-- the loop makes a chunk for every range, or leaves a `none` behind -/
theorem curateChunks_cases {ids : List String} (h : ids.Nodup) (cancelled : ℕ → Bool)
    (answers : ℕ → ℕ → Option RawCuration) (i : ℕ) (ranges : List (ℕ × ℕ)) :
    none ∈ curateChunks cancelled answers ids i ranges ∨
    ∃ chunks : List (List String × Option ChunkCuration),
      curateChunks cancelled answers ids i ranges = chunks.map Prod.snd ∧
      chunks.flatMap Prod.fst = ranges.flatMap (slice ids) ∧ ∀ p ∈ chunks, Lists p := by
  induction ranges generalizing i with
  | nil => exact Or.inr ⟨[], rfl, rfl, fun p hp => absurd hp List.not_mem_nil⟩
  | cons r rs ih =>
    unfold curateChunks
    by_cases hcancel : cancelled i = true
    · rw [if_pos hcancel]
      exact Or.inl List.mem_cons_self
    · rw [if_neg hcancel]
      obtain hnone | ⟨chunks, heq, hflat, hlists⟩ := ih (i + 1)
      · exact Or.inl (List.mem_cons_of_mem _ hnone)
      · refine Or.inr ⟨(slice ids r, curateChunk (answers i) (slice ids r)) :: chunks, ?_, ?_, ?_⟩
        · rw [heq, List.map_cons]
        · rw [List.flatMap_cons, List.flatMap_cons, hflat]
        · intro p hp
          obtain rfl | hp := List.mem_cons.mp hp
          · exact curateChunk_lists (slice_nodup h r) (answers i)
          · exact hlists p hp

/-- **Whatever the permit, the cancellation and the answers, the curation covers its cell.** -/
theorem curateCell_covers (cell : CellEntry) (h : (cellMemberIds cell).Nodup)
    (hfit : (cellMemberIds cell).length *
      chunkCount (cellMemberIds cell).length MAX_THESES_PER_CALL < 2 ^ 64)
    (permit : Bool) (cancelled : ℕ → Bool) (answers : ℕ → ℕ → Option RawCuration) :
    (curateCell permit cancelled answers cell).covers (cellKey cell) (cellMemberIds cell)
      = true := by
  unfold curateCell
  dsimp only
  by_cases hp : permit = true
  · rw [if_pos hp]
    obtain hnone | ⟨chunks, heq, hflat, hlists⟩ := curateChunks_cases h cancelled answers 0
      (chunkRanges (cellMemberIds cell).length MAX_THESES_PER_CALL)
    · exact covers_of_failed hnone
    · rw [heq]
      apply merge_covers (cellMemberIds_sorted cell) chunks hlists
      rw [hflat, chunkRanges_slices _ hfit]
  · rw [if_neg hp]
    exact covers_of_failed List.mem_cons_self

/-- the chunks of `ids`, each with its answer -/
def normalisedChunks (ids : List String) (ranges : List (ℕ × ℕ)) (answer : ℕ → RawCuration) :
    List (Option ChunkCuration) :=
  ranges.zipIdx.map fun e => some (normalise (slice ids e.1) (answer e.2))

theorem normalisedChunks_covers {cell : CellEntry} (h : (cellMemberIds cell).Nodup) {max : ℕ}
    (hfit : (cellMemberIds cell).length * chunkCount (cellMemberIds cell).length max < 2 ^ 64)
    (answer : ℕ → RawCuration) :
    (Curation.merge (cellKey cell) (cellMemberIds cell) (normalisedChunks (cellMemberIds cell)
      (chunkRanges (cellMemberIds cell).length max) answer)).covers (cellKey cell)
        (cellMemberIds cell) = true := by
  have hchunks : normalisedChunks (cellMemberIds cell)
      (chunkRanges (cellMemberIds cell).length max) answer
      = ((chunkRanges (cellMemberIds cell).length max).zipIdx.map fun e =>
          (slice (cellMemberIds cell) e.1,
            some (normalise (slice (cellMemberIds cell) e.1) (answer e.2)))).map Prod.snd := by
    rw [List.map_map]
    rfl
  rw [hchunks]
  apply merge_covers (cellMemberIds_sorted cell)
  · intro p hp c hc
    obtain ⟨e, -, rfl⟩ := List.mem_map.mp hp
    obtain rfl := Option.some.inj hc
    exact normalise_ids (slice_nodup h e.1) (answer e.2)
  · rw [List.flatMap_map]
    have hfst : ∀ ranges : List (ℕ × ℕ), (ranges.zipIdx.flatMap fun e =>
        slice (cellMemberIds cell) e.1) = ranges.flatMap (slice (cellMemberIds cell)) := by
      intro ranges
      rw [← List.flatMap_map Prod.fst, List.zipIdx_map_fst]
    rw [hfst, chunkRanges_slices _ hfit]

/-- **The ranges cut the positions into consecutive parts of near-equal size, and whatever the
curator answers for each part, the merged curation covers the cell.** -/
theorem chunked_covers (n max : ℕ) (h : n * chunkCount n max < 2 ^ 64) :
    (chunkRanges n max).flatMap positions = List.range n ∧
    (∀ r ∈ chunkRanges n max, r.1 < r.2 ∧ r.2 - r.1 ≤ Nat.max max 1) ∧
    (∀ r ∈ chunkRanges n max, ∀ s ∈ chunkRanges n max, r.2 - r.1 ≤ s.2 - s.1 + 1) ∧
    ∀ cell : CellEntry, (cellMemberIds cell).length = n → (cellMemberIds cell).Nodup →
      ∀ answer : ℕ → RawCuration,
        let c := Curation.merge (cellKey cell) (cellMemberIds cell)
          (normalisedChunks (cellMemberIds cell) (chunkRanges n max) answer)
        c.status = .ok ∧ c.covers (cellKey cell) (cellMemberIds cell) = true := by
  refine ⟨(chunkRanges_flat_iff n max).mpr h, fun r hr => ⟨chunkRanges_pos h hr,
    chunkRanges_size h hr⟩, fun r hr s hs => chunkRanges_balanced h hr hs, ?_⟩
  intro cell hlen hn answer
  subst hlen
  refine ⟨?_, normalisedChunks_covers hn h answer⟩
  have hsome : none ∉ normalisedChunks (cellMemberIds cell)
      (chunkRanges (cellMemberIds cell).length max) answer := by
    intro hmem
    obtain ⟨e, -, he⟩ := List.mem_map.mp hmem
    cases he
  have hnot := (merge_status (cellKey cell) (cellMemberIds cell) _).not.mpr hsome
  cases hs : (Curation.merge (cellKey cell) (cellMemberIds cell) (normalisedChunks
      (cellMemberIds cell) (chunkRanges (cellMemberIds cell).length max) answer)).status with
  | ok => rfl
  | failed => exact absurd hs hnot

/-- a maximum of `0` counts as `1`, and for `2 ^ 32` chunks of one thesis the products wrap -/
theorem chunk_limits :
    (∃ r ∈ chunkRanges 3 0, ¬ r.2 - r.1 ≤ 0) ∧
    (chunkRanges (2 ^ 32) 1).flatMap positions ≠ List.range (2 ^ 32) := by
  refine ⟨⟨(0, 1), by decide, by decide⟩, fun h => ?_⟩
  have := (chunkRanges_flat_iff (2 ^ 32) 1).mp h
  revert this
  decide

/-- a cell with three theses -/
def sampleThree : CellEntry where
  dimensionId := "storage"
  facetId := "local"
  dimensionLabel := "Storage"
  facetLabel := "Local files"
  description := ""
  curation := .flat
  groups := [⟨"Local files", "", none,
    [⟨"thesis_003", none⟩, ⟨"thesis_001", none⟩, ⟨"thesis_002", none⟩]⟩]
  tensions := []

/-- two calls, both answered with duplicates -/
theorem chunked_covers_sample : chunkRanges 3 2 = [(0, 1), (1, 3)] ∧
    (Curation.merge (cellKey sampleThree) (cellMemberIds sampleThree)
      (normalisedChunks (cellMemberIds sampleThree) (chunkRanges 3 2) fun _ => sampleRaw)).covers
        (cellKey sampleThree) (cellMemberIds sampleThree) = true :=
  ⟨by decide, ((chunked_covers 3 2 (by decide)).2.2.2 sampleThree (by decide +kernel)
    (by decide +kernel) fun _ => sampleRaw).2⟩

end Moagan.Discovery
