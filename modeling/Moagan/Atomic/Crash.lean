import Mathlib.Algebra.Group.Nat.Defs
import Moagan.Atomic.Writer

/-!
# Where the atomic writer can stop

* `dest_intact`, `metaPath_intact`   each of the two files is replaced atomically
* `write_read`                       a write that returns is read back
* `write_error_stops`                a write that fails leaves what a stop would leave
* `BetweenRenames`                   the data is in place and the sidecar is not
* `crash_atomic_iff`                 the pair is replaced atomically except between the renames
-/

namespace Moagan.Atomic

open FileSystem

section
variable (K : Crates) (w : AtomicWriter) (dest : Path) (nonce : UInt64)

/-! ## what the staging does -/

theorem staging_touches {dir : Path} {data metaBytes : Bytes} {op : Op Path UInt8}
    (h : op ∈ w.staging dest nonce dir data metaBytes) {q : Path} (hq : op.Touches q) :
    q = tmpPath dest nonce ∨ q = tmpMetaPath dest nonce := by
  simp only [AtomicWriter.staging, writeAll, List.mem_append, List.mem_cons, List.mem_map,
    List.not_mem_nil, or_false] at h
  have hsync : ∀ p, op ∈ (if w.fsyncOnCommit then [Op.sync p] else []) → False := by
    intro p hp
    split_ifs at hp
    · obtain rfl := List.mem_singleton.mp hp
      exact hq
    · exact List.not_mem_nil hp
  obtain (((rfl | rfl | ⟨b, -, rfl⟩) | h) | rfl | ⟨b, -, rfl⟩) | h := h
  · exact hq.elim
  · exact Or.inl hq
  · exact Or.inl hq
  · exact (hsync _ h).elim
  · exact Or.inr hq
  · exact Or.inr hq
  · exact (hsync _ h).elim

theorem sealing_touches {dir : Path} {op : Op Path UInt8} (h : op ∈ w.sealing dir) (q : Path) :
    ¬ op.Touches q := by
  unfold AtomicWriter.sealing at h
  split_ifs at h
  · obtain rfl | h := List.mem_cons.mp h
    · exact id
    · obtain rfl := List.mem_singleton.mp h
      exact id
  · exact absurd h List.not_mem_nil

theorem run_sync (p : Path) (b : Bool) (fs : Disk) :
    runOps fs (if b then [.sync p] else []) = some fs := by
  cases b <;> rfl

/-- the staged file system -/
def staged (fs : Disk) (data metaBytes : Bytes) : Disk :=
  Function.update (Function.update fs (tmpPath dest nonce) (some data))
    (tmpMetaPath dest nonce) (some metaBytes)

theorem run_staging (fs : Disk) (dir : Path) (data metaBytes : Bytes) :
    runOps fs (w.staging dest nonce dir data metaBytes)
      = some (staged dest nonce fs data metaBytes) := by
  unfold AtomicWriter.staging
  simp only [runOps, Runs.run_append]
  have hdir : runOps fs [.mkdir dir] = some fs := rfl
  have htmp := run_create (tmpPath dest nonce) data fs
  have hmeta := run_create (tmpMetaPath dest nonce) metaBytes
    (Function.update fs (tmpPath dest nonce) (some data))
  simp only [runOps] at hdir htmp hmeta
  have hsync := run_sync
  simp only [runOps] at hsync
  rw [hdir, Option.bind_some, htmp, Option.bind_some, hsync, Option.bind_some, hmeta,
    Option.bind_some, hsync]
  rfl

/-! ## the two renames -/

/-- step 5 -/
def dataRename : Op Path UInt8 := .rename (tmpPath dest nonce) dest

/-- step 6 -/
def metaRename : Op Path UInt8 := .rename (tmpMetaPath dest nonce) (metaPath dest)

theorem rename_not_mem_staging (dir : Path) (data metaBytes : Bytes) (src dst : Path) :
    Op.rename src dst ∉ w.staging dest nonce dir data metaBytes := by
  simp only [AtomicWriter.staging, writeAll, List.mem_append, List.mem_cons, List.mem_map]
  cases w.fsyncOnCommit <;> simp

theorem dataRename_ne_metaRename : dataRename dest nonce ≠ metaRename dest nonce := by
  intro h
  exact tmpPath_ne_tmpMetaPath dest nonce (Op.rename.inj h).1

theorem steps_eq {dir : Path} (hdir : parent dest = some dir) (data : Bytes) (now : ℤ) :
    w.steps K dest nonce data now
      = w.staging dest nonce dir data (K.toVec (computeMetaAt K data now))
        ++ dataRename dest nonce :: metaRename dest nonce :: w.sealing dir := by
  unfold AtomicWriter.steps
  rw [hdir]
  rfl

theorem staging_not_touches_dest {dir : Path} {data metaBytes : Bytes} {op : Op Path UInt8}
    (h : op ∈ w.staging dest nonce dir data metaBytes) : ¬ op.Touches dest := by
  intro ht
  obtain e | e := staging_touches w dest nonce h ht
  · exact tmpPath_ne_dest dest nonce e.symm
  · exact tmpMetaPath_ne_dest dest nonce e.symm

theorem staging_not_touches_metaPath {dir : Path} {data metaBytes : Bytes} {op : Op Path UInt8}
    (h : op ∈ w.staging dest nonce dir data metaBytes) : ¬ op.Touches (metaPath dest) := by
  intro ht
  obtain e | e := staging_touches w dest nonce h ht
  · exact tmpPath_ne_metaPath dest nonce e.symm
  · exact tmpMetaPath_ne_metaPath dest nonce e.symm

theorem dataRename_not_touches : ¬ (dataRename dest nonce).Touches (metaPath dest) := by
  intro h
  obtain e | e := h
  · exact tmpPath_ne_metaPath dest nonce e.symm
  · exact metaPath_ne_dest dest e

theorem metaRename_not_touches : ¬ (metaRename dest nonce).Touches dest := by
  intro h
  obtain e | e := h
  · exact tmpMetaPath_ne_dest dest nonce e.symm
  · exact metaPath_ne_dest dest e.symm

/-- the first rename, behind the staging -/
theorem apply_dataRename (fs : Disk) (data metaBytes : Bytes) :
    ∃ fs', (dataRename dest nonce).apply (staged dest nonce fs data metaBytes) = some fs' ∧
      fs' dest = some data ∧ fs' (tmpMetaPath dest nonce) = some metaBytes ∧
      fs' (metaPath dest) = fs (metaPath dest) := by
  have htmp : staged dest nonce fs data metaBytes (tmpPath dest nonce) = some data := by
    rw [staged, Function.update_of_ne (tmpPath_ne_tmpMetaPath dest nonce), Function.update_self]
  obtain ⟨fs', h, hdest⟩ := apply_rename dest htmp
  refine ⟨fs', h, hdest, ?_, ?_⟩
  · have hnot : ¬ (dataRename dest nonce).Touches (tmpMetaPath dest nonce) := by
      intro ht
      obtain e | e := ht
      · exact tmpPath_ne_tmpMetaPath dest nonce e.symm
      · exact tmpMetaPath_ne_dest dest nonce e
    rw [apply_frame h hnot, staged, Function.update_self]
  · rw [apply_frame h (dataRename_not_touches dest nonce), staged,
      Function.update_of_ne (tmpMetaPath_ne_metaPath dest nonce).symm,
      Function.update_of_ne (tmpPath_ne_metaPath dest nonce).symm]

/-! ## where a stop falls -/

variable {K w dest nonce} {data : Bytes} {now : ℤ}

theorem run_sealing {dir : Path} {done : List (Op Path UInt8)} (h : done <+: w.sealing dir)
    (fs : Disk) : ∃ fs', runOps fs done = some fs' ∧ ∀ q, fs' q = fs q := by
  have hall : runOps fs (w.sealing dir) = some fs := by
    unfold AtomicWriter.sealing
    cases w.fsyncOnCommit <;> rfl
  obtain ⟨rest, hrest⟩ := h
  obtain ⟨fs', h1, -⟩ := Runs.run_front (hrest ▸ hall)
  refine ⟨fs', h1, fun q => run_frame (fun op hop => ?_) h1⟩
  exact sealing_touches w (hrest ▸ List.mem_append_left rest hop) q

/-- **What a stop leaves at the two paths is decided by the renames in front of it.** -/
theorem stop_seen {done : List (Op Path UInt8)} (hd : done <+: w.steps K dest nonce data now)
    (fs : Disk) : ∃ fs', runOps fs done = some fs' ∧
      fs' dest = (if dataRename dest nonce ∈ done then some data else fs dest) ∧
      fs' (metaPath dest) = (if metaRename dest nonce ∈ done
        then some (K.toVec (computeMetaAt K data now)) else fs (metaPath dest)) ∧
      (metaRename dest nonce ∈ done → dataRename dest nonce ∈ done) := by
  cases hdir : parent dest with
  | none =>
    unfold AtomicWriter.steps at hd
    rw [hdir] at hd
    obtain rfl := List.prefix_nil.mp hd
    exact ⟨fs, rfl, by simp, by simp, by simp⟩
  | some dir =>
    rw [steps_eq K w dest nonce hdir] at hd
    generalize K.toVec (computeMetaAt K data now) = metaBytes at hd ⊢
    have hstaging := run_staging w dest nonce fs dir data metaBytes
    have hns := rename_not_mem_staging w dest nonce dir data metaBytes
    obtain hp | ⟨d, hd', rfl⟩ := stop_cases hd
    · -- in front of both renames
      have h1 : dataRename dest nonce ∉ done := fun h => hns _ _ (hp.subset h)
      have h2 : metaRename dest nonce ∉ done := fun h => hns _ _ (hp.subset h)
      obtain ⟨rest, hrest⟩ := id hp
      obtain ⟨fs', hr, -⟩ := Runs.run_front (hrest ▸ hstaging)
      rw [if_neg h1, if_neg h2]
      refine ⟨fs', hr, ?_, ?_, fun h => absurd h h2⟩
      · exact run_frame
          (fun op hop => staging_not_touches_dest w dest nonce (hp.subset hop)) hr
      · exact run_frame
          (fun op hop => staging_not_touches_metaPath w dest nonce (hp.subset hop)) hr
    · -- behind the first rename
      have h1 : dataRename dest nonce ∈ w.staging dest nonce dir data metaBytes
          ++ dataRename dest nonce :: d := List.mem_append_right _ List.mem_cons_self
      obtain ⟨s2, hs2, hdest2, htmp2, hmeta2⟩ := apply_dataRename dest nonce fs data metaBytes
      rw [if_pos h1, runOps, Runs.run_append, ← runOps, hstaging, Option.bind_some,
        Runs.run_cons, hs2, Option.bind_some]
      cases d with
      | nil =>
        have h2 : metaRename dest nonce ∉ w.staging dest nonce dir data metaBytes
            ++ [dataRename dest nonce] := by
          rw [List.mem_append, List.mem_singleton, not_or]
          exact ⟨hns _ _, (dataRename_ne_metaRename dest nonce).symm⟩
        rw [if_neg h2]
        exact ⟨s2, rfl, hdest2, hmeta2, fun h => absurd h h2⟩
      | cons r e =>
        obtain ⟨rfl, he⟩ := List.cons_prefix_cons.mp hd'
        have h2 : metaRename dest nonce ∈ w.staging dest nonce dir data metaBytes
            ++ dataRename dest nonce :: metaRename dest nonce :: e := by simp
        obtain ⟨s3, hs3, hmeta3⟩ := apply_rename (metaPath dest) htmp2
        have hdest3 : s3 dest = s2 dest := apply_frame hs3 (metaRename_not_touches dest nonce)
        obtain ⟨s4, hs4, hsame⟩ := run_sealing he s3
        rw [if_pos h2, Runs.run_cons]
        refine ⟨s4, ?_, ?_, ?_, fun _ => h1⟩
        · rw [show (metaRename dest nonce).apply s2 = some s3 from hs3]
          exact hs4
        · rw [hsame, hdest3, hdest2]
        · rw [hsame, hmeta3]

/-! ## each file alone -/

variable (K w dest nonce data now)

theorem steps_nil (hdir : parent dest = none) : w.steps K dest nonce data now = [] := by
  unfold AtomicWriter.steps
  rw [hdir]

/-- **The data file is replaced atomically.** -/
theorem dest_intact (fs : Disk) :
    Intact (fun s => s dest) (w.steps K dest nonce data now) fs := by
  cases hdir : parent dest with
  | none =>
    rw [steps_nil K w dest nonce data now hdir]
    exact intact_nil _ fs
  | some dir =>
    rw [steps_eq K w dest nonce hdir]
    apply intact_of_commit
    · intro op h s s' hs
      exact apply_frame hs (staging_not_touches_dest w dest nonce h)
    · intro op h s s' hs
      obtain rfl | h := List.mem_cons.mp h
      · exact apply_frame hs (metaRename_not_touches dest nonce)
      · exact apply_frame hs (sealing_touches w h _)

/-- **The sidecar is replaced atomically.** -/
theorem metaPath_intact (fs : Disk) :
    Intact (fun s => s (metaPath dest)) (w.steps K dest nonce data now) fs := by
  cases hdir : parent dest with
  | none =>
    rw [steps_nil K w dest nonce data now hdir]
    exact intact_nil _ fs
  | some dir =>
    rw [steps_eq K w dest nonce hdir, List.append_cons]
    apply intact_of_commit
    · intro op h s s' hs
      obtain h | h := List.mem_append.mp h
      · exact apply_frame hs (staging_not_touches_metaPath w dest nonce h)
      · obtain rfl := List.mem_singleton.mp h
        exact apply_frame hs (dataRename_not_touches dest nonce)
    · intro op h s s' hs
      exact apply_frame hs (sealing_touches w h _)

/-! ## the call -/

variable {K w dest nonce data now}

/-- a call that fails leaves what a stop leaves; one that returns has made every step -/
theorem perform_stops (ops : List (Op Path UInt8)) : ∀ (faults : ℕ → Bool) {fs fs' : Disk}
    {e : Option IoError}, perform faults ops fs = (fs', e) →
    ∃ done, done <+: ops ∧ runOps fs done = some fs' ∧ (e = none → done = ops) := by
  induction ops with
  | nil =>
    intro faults fs fs' e h
    obtain ⟨rfl, -⟩ := Prod.mk.inj h
    exact ⟨[], List.prefix_refl _, rfl, fun _ => rfl⟩
  | cons op ops ih =>
    intro faults fs fs' e h
    unfold perform at h
    cases hop : (if faults 0 then none else op.apply fs) with
    | none =>
      rw [hop] at h
      obtain ⟨rfl, rfl⟩ := Prod.mk.inj h
      exact ⟨[], List.nil_prefix, rfl, fun h => nomatch h⟩
    | some fs₁ =>
      rw [hop] at h
      obtain ⟨done, hd, hr, he⟩ := ih _ h
      have happly : op.apply fs = some fs₁ := by
        split_ifs at hop
        exact hop
      refine ⟨op :: done, List.cons_prefix_cons.mpr ⟨rfl, hd⟩, ?_, fun h => by rw [he h]⟩
      rw [runOps, Runs.run_cons, happly]
      exact hr

/-- **A write that returns an error leaves what a stop leaves.** -/
theorem write_error_stops {faults : ℕ → Bool} {fs fs' : Disk} {e : IoError}
    (h : w.write K faults fs dest nonce data now = (fs', .error e)) :
    ∃ done, done <+: w.steps K dest nonce data now ∧ runOps fs done = some fs' := by
  unfold AtomicWriter.write at h
  cases hdir : parent dest with
  | none =>
    rw [hdir] at h
    obtain ⟨rfl, -⟩ := Prod.mk.inj h
    exact ⟨[], List.nil_prefix, rfl⟩
  | some dir =>
    rw [hdir] at h
    obtain ⟨done, hd, hr, -⟩ := perform_stops (w.steps K dest nonce data now) faults
      rfl
    refine ⟨done, hd, ?_⟩
    rw [hr]
    cases hp : perform faults (w.steps K dest nonce data now) fs with
    | mk s e' =>
      dsimp only at h
      rw [hp] at h
      cases e' with
      | none => cases (Prod.mk.inj h).2
      | some e' => exact congrArg some (Prod.mk.inj h).1

theorem renames_mem_steps (K : Crates) (w : AtomicWriter) (dest : Path) (nonce : UInt64)
    (data : Bytes) (now : ℤ) {dir : Path} (hdir : parent dest = some dir) :
    dataRename dest nonce ∈ w.steps K dest nonce data now ∧
      metaRename dest nonce ∈ w.steps K dest nonce data now := by
  rw [steps_eq K w dest nonce hdir]
  simp

/-- a write that returns has taken all its steps -/
theorem write_ok_runs {faults : ℕ → Bool} {fs fs' : Disk} {m : ArtifactMeta}
    (h : w.write K faults fs dest nonce data now = (fs', .ok m)) :
    ∃ dir, parent dest = some dir ∧ m = computeMetaAt K data now ∧
      runOps fs (w.steps K dest nonce data now) = some fs' := by
  unfold AtomicWriter.write at h
  cases hdir : parent dest with
  | none =>
    rw [hdir] at h
    cases (Prod.mk.inj h).2
  | some dir =>
    rw [hdir] at h
    cases hp : perform faults (w.steps K dest nonce data now) fs with
    | mk s e =>
      obtain ⟨done, -, hr, hall⟩ := perform_stops _ faults hp
      dsimp only at h
      rw [hp] at h
      cases e with
      | some e => cases (Prod.mk.inj h).2
      | none =>
        obtain ⟨rfl, hm⟩ := Prod.mk.inj h
        obtain rfl := hall rfl
        exact ⟨dir, rfl, (Except.ok.inj hm).symm, hr⟩

/-- **A write that returns is read back.** -/
theorem write_read {faults : ℕ → Bool} {fs fs' : Disk} {m : ArtifactMeta}
    (hcodec : K.fromSlice (K.toVec (computeMetaAt K data now)) = some (computeMetaAt K data now))
    (h : w.write K faults fs dest nonce data now = (fs', .ok m)) :
    readWithMeta K fs' dest = .ok (data, m) := by
  obtain ⟨dir, hdir, rfl, hr⟩ := write_ok_runs h
  obtain ⟨s, hs, hdest, hmeta, -⟩ :=
    stop_seen (List.prefix_refl (w.steps K dest nonce data now)) fs
  obtain rfl : fs' = s := Option.some.inj (hr.symm.trans hs)
  obtain ⟨hm1, hm2⟩ := renames_mem_steps K w dest nonce data now hdir
  rw [if_pos hm1] at hdest
  rw [if_pos hm2] at hmeta
  rw [readWithMeta_ok_iff, hmeta]
  exact ⟨hdest, hcodec, dataFingerprintMatches_computeMetaAt K data now⟩

/-! ## the pair -/

/-- the new data is in place and the new sidecar is not -/
def BetweenRenames (dest : Path) (nonce : UInt64) (done : List (Op Path UInt8)) : Prop :=
  dataRename dest nonce ∈ done ∧ metaRename dest nonce ∉ done

theorem readWithMeta_between {data0 : Bytes} {m0 : ArtifactMeta} {fs fs' : Disk}
    (hold : readWithMeta K fs dest = .ok (data0, m0)) (hdest : fs' dest = some data)
    (hmeta : fs' (metaPath dest) = fs (metaPath dest)) (d : Bytes) (m : ArtifactMeta) :
    readWithMeta K fs' dest = .ok (d, m) ↔
      d = data ∧ m = m0 ∧ dataFingerprintMatches K data m0 = true := by
  obtain ⟨-, h2, -⟩ := (readWithMeta_ok_iff K).mp hold
  rw [readWithMeta_ok_iff, hdest, hmeta, h2]
  constructor
  · rintro ⟨h3, h4, h5⟩
    obtain rfl := Option.some.inj h3
    obtain rfl := Option.some.inj h4
    exact ⟨rfl, rfl, h5⟩
  · rintro ⟨rfl, rfl, h5⟩
    exact ⟨rfl, rfl, h5⟩

/-- **A stopped write leaves the old or the new pair unless it stopped between the renames.**
Between them the pair is one of the two only when the write changes one of the files at most: the
data is the old data, or the old sidecar is the one that the write would seal. -/
theorem crash_atomic_iff (fs : Disk) (data0 : Bytes) (m0 : ArtifactMeta)
    (hold : readWithMeta K fs dest = .ok (data0, m0))
    (hcodec : K.fromSlice (K.toVec (computeMetaAt K data now)) = some (computeMetaAt K data now))
    (done : List (Op Path UInt8)) (hd : done <+: w.steps K dest nonce data now) :
    (∃ fs', runOps fs done = some fs' ∧ (readWithMeta K fs' dest = .ok (data0, m0) ∨
        readWithMeta K fs' dest = .ok (data, computeMetaAt K data now))) ↔
      ¬ BetweenRenames dest nonce done ∨ data = data0 ∨
        (dataFingerprintMatches K data m0 = true ∧
          m0.schemaVersion = ArtifactMeta.SCHEMA_VERSION ∧ m0.sealedAtUnix = now) := by
  rw [← eq_computeMetaAt_iff]
  obtain ⟨fs', hr, hdest, hmeta, hboth⟩ := stop_seen hd fs
  have hread := (readWithMeta_ok_iff K).mp hold
  have hiff : ∀ P : Disk → Prop, (∃ s, runOps fs done = some s ∧ P s) ↔ P fs' := by
    intro P
    constructor
    · rintro ⟨s, hs, hP⟩
      rw [hr] at hs
      exact Option.some.inj hs ▸ hP
    · intro hP
      exact ⟨fs', hr, hP⟩
  rw [hiff]
  by_cases h1 : dataRename dest nonce ∈ done
  · by_cases h2 : metaRename dest nonce ∈ done
    · rw [if_pos h1] at hdest
      rw [if_pos h2] at hmeta
      refine iff_of_true (Or.inr ?_) (Or.inl fun h => h.2 h2)
      rw [readWithMeta_ok_iff, hmeta]
      exact ⟨hdest, hcodec, dataFingerprintMatches_computeMetaAt K data now⟩
    · rw [if_pos h1] at hdest
      rw [if_neg h2] at hmeta
      rw [readWithMeta_between hold hdest hmeta, readWithMeta_between hold hdest hmeta]
      constructor
      · intro h
        right
        obtain ⟨e, -, -⟩ | ⟨-, e, -⟩ := h
        · exact Or.inl e.symm
        · exact Or.inr e.symm
      · intro h
        obtain h | rfl | e := h
        · exact absurd ⟨h1, h2⟩ h
        · exact Or.inl ⟨rfl, rfl, hread.2.2⟩
        · exact Or.inr ⟨rfl, e.symm, e ▸ dataFingerprintMatches_computeMetaAt K data now⟩
  · have h2 : metaRename dest nonce ∉ done := fun h => h1 (hboth h)
    rw [if_neg h1] at hdest
    rw [if_neg h2] at hmeta
    refine iff_of_true (Or.inl ?_) (Or.inl fun h => h1 h.1)
    rw [readWithMeta_ok_iff, hdest, hmeta]
    exact hread

end

/-! ## a torn pair -/

def bigEndian (n : ℕ) : Bytes := (List.range 32).map fun i => (n / 256 ^ (31 - i)).toUInt8

def alpha : Bytes := [97, 108, 112, 104, 97]

def beta : Bytes := [98, 101, 116, 97]

def alphaMeta : ArtifactMeta where
  schemaVersion := "v1"
  sizeBytes := 5
  blake3Hex := "644a9bc57c6063e2ba4028fa73ed585170ae7db8ac7723d32be49c021a0225f5"
  sealedAtUnix := 1700000000
  crc32cHex := "78d92f81"

def betaMeta : ArtifactMeta where
  schemaVersion := "v1"
  sizeBytes := 4
  blake3Hex := "c607f0e66519ff41d34c1c8e2e312228c3cc358c0a5b75cef4b22cf8ed3875db"
  sealedAtUnix := 1700000060
  crc32cHex := "f443cbb9"

/-- the sidecar's text; no field here needs an escape -/
def jsonText (m : ArtifactMeta) : Bytes :=
  let text := ["\x7b\"schema_version\":\"", m.schemaVersion,
    "\",\"size_bytes\":", toString m.sizeBytes.toNat,
    ",\"blake3_hex\":\"", m.blake3Hex,
    "\",\"sealed_at_unix\":", toString m.sealedAtUnix,
    ",\"crc32c_hex\":\"", m.crc32cHex, "\"\x7d"]
  text.flatMap fun s => s.toList.map fun c => c.toNat.toUInt8

/-- the two crates on the two files -/
def sampleCrates : Crates where
  blake3 d :=
    if d = alpha then
      bigEndian 0x644a9bc57c6063e2ba4028fa73ed585170ae7db8ac7723d32be49c021a0225f5
    else if d = beta then
      bigEndian 0xc607f0e66519ff41d34c1c8e2e312228c3cc358c0a5b75cef4b22cf8ed3875db
    else []
  toVec := jsonText
  fromSlice b := [alphaMeta, betaMeta].find? fun m => jsonText m = b

def sampleDest : Path := "runs/plan.json"

/-- `alpha` is sealed at the destination -/
def sampleDisk : Disk := fun p =>
  if p = sampleDest then some alpha
  else if p = metaPath sampleDest then some (jsonText alphaMeta)
  else none

def sampleWriter : AtomicWriter := { fsyncOnCommit := true }

/-- the write of `beta` up to its first rename -/
def tornStop : List (Op Path UInt8) :=
  sampleWriter.staging sampleDest 7 "runs" beta (sampleCrates.toVec betaMeta) ++ [dataRename sampleDest 7]

/-- the destination, the two seals and the two readings, evaluated at once -/
theorem sample_checked : parent sampleDest = some "runs" ∧
    computeMetaAt sampleCrates beta 1700000060 = betaMeta ∧
    sampleCrates.fromSlice (sampleCrates.toVec betaMeta) = some betaMeta ∧
    readWithMeta sampleCrates sampleDisk sampleDest = .ok (alpha, alphaMeta) ∧
    dataFingerprintMatches sampleCrates beta alphaMeta = false := by
  decide +kernel

theorem sample_dir : parent sampleDest = some "runs" := sample_checked.1

theorem sample_beta : computeMetaAt sampleCrates beta 1700000060 = betaMeta := sample_checked.2.1

theorem sample_alpha : readWithMeta sampleCrates sampleDisk sampleDest = .ok (alpha, alphaMeta) :=
  sample_checked.2.2.2.1

theorem sample_codec : sampleCrates.fromSlice (sampleCrates.toVec (computeMetaAt sampleCrates beta
    1700000060)) = some (computeMetaAt sampleCrates beta 1700000060) := by
  rw [sample_beta]
  exact sample_checked.2.2.1

theorem tornStop_stop : tornStop <+: sampleWriter.steps sampleCrates sampleDest 7 beta 1700000060 := by
  rw [steps_eq sampleCrates sampleWriter sampleDest 7 sample_dir, sample_beta,
    List.append_cons, ← tornStop]
  exact List.prefix_append ..

/-- stopped between its renames, the write of `beta` leaves a pair that no read accepts -/
theorem torn_pair : ¬ ∀ (K : Crates) (w : AtomicWriter) (dest : Path) (nonce : UInt64)
    (data data0 : Bytes) (now : ℤ) (fs : Disk) (m0 : ArtifactMeta),
    readWithMeta K fs dest = .ok (data0, m0) →
    K.fromSlice (K.toVec (computeMetaAt K data now)) = some (computeMetaAt K data now) →
    ∀ done, done <+: w.steps K dest nonce data now → ∃ fs', runOps fs done = some fs' ∧
      (readWithMeta K fs' dest = .ok (data0, m0) ∨
        readWithMeta K fs' dest = .ok (data, computeMetaAt K data now)) := by
  intro h
  obtain ⟨fs', hr, hread⟩ := h sampleCrates sampleWriter sampleDest 7 beta alpha 1700000060
    sampleDisk alphaMeta sample_alpha sample_codec tornStop tornStop_stop
  obtain ⟨s, hs, hdest, hmeta, -⟩ := stop_seen tornStop_stop sampleDisk
  obtain rfl : fs' = s := Option.some.inj (hr.symm.trans hs)
  have h1 : dataRename sampleDest 7 ∈ tornStop := List.mem_append_right _ (List.mem_singleton_self _)
  have h2 : metaRename sampleDest 7 ∉ tornStop := by
    rw [tornStop, List.mem_append, List.mem_singleton, not_or]
    exact ⟨rename_not_mem_staging sampleWriter sampleDest 7 _ _ _ _ _,
      (dataRename_ne_metaRename sampleDest 7).symm⟩
  rw [if_pos h1] at hdest
  rw [if_neg h2] at hmeta
  obtain ⟨-, -, -, -, hfits⟩ := sample_checked
  rw [readWithMeta_between sample_alpha hdest hmeta, readWithMeta_between sample_alpha hdest hmeta,
    hfits] at hread
  simp at hread

/-- behind both renames the new pair is read -/
theorem crash_atomic_sample :
    (∃ fs', runOps sampleDisk (sampleWriter.steps sampleCrates sampleDest 7 beta 1700000060)
        = some fs' ∧ (readWithMeta sampleCrates fs' sampleDest = .ok (alpha, alphaMeta) ∨
        readWithMeta sampleCrates fs' sampleDest
          = .ok (beta, computeMetaAt sampleCrates beta 1700000060))) ↔
      ¬ BetweenRenames sampleDest 7 (sampleWriter.steps sampleCrates sampleDest 7 beta 1700000060) ∨
        beta = alpha ∨ (dataFingerprintMatches sampleCrates beta alphaMeta = true ∧
          alphaMeta.schemaVersion = ArtifactMeta.SCHEMA_VERSION ∧
          alphaMeta.sealedAtUnix = 1700000060) :=
  crash_atomic_iff sampleDisk alpha alphaMeta sample_alpha sample_codec _ (List.prefix_refl _)

end Moagan.Atomic
