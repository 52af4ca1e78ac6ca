import Moagan.Telemetry.Export

/-!
# Verification of a bundle (`src/telemetry/verify.rs`)

* `verify`        every file that the manifest names is hashed again
* `RoundTrips`    what is exported is listed once and verified
* `Bundles`       the runs, levels and formats for which it is
* `staged_plain`  files whose names have no backslash are staged under them
* `verify_staged` verification of a bundle reads the manifest and the files that were staged
-/

namespace Moagan.Telemetry

open FileTree

inductive VerifyVerdict where
  | ok
  | missing
  | mismatch (expected actual : Text)
deriving DecidableEq, Repr

structure VerifyRow where
  path : Text
  verdict : VerifyVerdict
deriving DecidableEq, Repr

/-- `Path::extension` of a file name -/
def extension (name : Name) : Option Text :=
  if name = ['.', '.'] then none
  else if (name.reverse.dropWhile (· ≠ '.')).length ≤ 1 then none
  else some (name.reverse.takeWhile (· ≠ '.')).reverse

def toAsciiLowercase (text : Text) : Text := text.map Char.toLower

/-- how a bundle of that name is unpacked; any other name is that of a directory -/
def unpacker (name : Name) : Option ExportFormat :=
  let ext := (extension name).map toAsciiLowercase
  if ext = some "zip".toList then some .zip
  else if ext = some "tar".toList then some .tar
  else if ext = some "gz".toList then some .tarGz
  else none

section
variable {A : Type} (sys : System) (sha : Sha256) (archives : Archives A)

/-- there is no `SHA256SUMS` in an archive that is taken for a directory -/
def openBundle (name : Name) (bundle : A) : Except ExportError (Files ByteArray) :=
  match unpacker name with
  | some format => archives.unpack format bundle
  | none => .error .noManifest

def readManifest (t : Files ByteArray) : Except ExportError (List HashEntry) :=
  match readAt sys t sumsName with
  | .error err => .error err
  | .ok none => .error .noManifest
  | .ok (some data) =>
    match String.fromUTF8? data with
    | none => .error (.read sumsName)
    | some body => (parseSha256sums body.toList).mapError .manifest

def checkEntry (t : Files ByteArray) (e : HashEntry) : Except ExportError VerifyRow :=
  match readAt sys t e.path with
  | .error err => .error err
  | .ok none => .ok ⟨e.path, .missing⟩
  | .ok (some data) =>
    let actual := hexEncode (sha data).1
    .ok ⟨e.path, if actual = e.sha256 then .ok else .mismatch e.sha256 actual⟩

def checkEntries (t : Files ByteArray) (entries : List HashEntry) :
    Except ExportError (List VerifyRow) :=
  entries.mapM (checkEntry sys sha t)

def verify (name : Name) (bundle : A) : Except ExportError (List VerifyRow) := do
  let t ← openBundle archives name bundle
  let entries ← readManifest sys t
  checkEntries sys sha t entries

end

/-! ## export, then verify -/

/-- `extension_for` -/
def extensionFor : ExportFormat → Text
  | .tarGz => "tar.gz".toList
  | .tar => "tar".toList
  | .zip => "zip".toList
  | .tarZst => "tar.zst".toList

def bundleName (stem : Text) (format : ExportFormat) : Name := stem ++ '.' :: extensionFor format

def includedAt (level : ExportLevel) (p : Path) : Prop :=
  (∃ rel ∈ always, joined rel = p) ∨ ∃ rel ∈ levelSpecific level, Covers rel p

instance (level : ExportLevel) (p : Path) : Decidable (includedAt level p) :=
  inferInstanceAs (Decidable (_ ∨ _))

/-- the files that a level is about, each once -/
def exportedFiles (run : RunDir) (level : ExportLevel) : List Path :=
  run.tree.paths.filter fun p => includedAt level p

/-- a bundle is made, every exported file is a row of its verification, once and verified, and the
manifest is read back -/
structure RoundTrips {A : Type} (sys : System) (sha : Sha256) (archives : Archives A)
    (run : RunDir) (level : ExportLevel) (format : ExportFormat) (name : Name) : Prop where
  verified : ∃ bundle rows, exportRun sys sha archives run level format = .ok bundle ∧
    verify sys sha archives name bundle = .ok rows ∧
    (rows.map VerifyRow.path).Perm ((exportedFiles run level).map pathText) ∧
    ∀ row ∈ rows, row.verdict = .ok
  manifest : ∀ entries t, staged sys sha run level = .ok (entries, t) →
    parseSha256sums (formatSha256sums entries) = .ok entries

def rankingPath : Path := joined "rankings/ranking.json".toList

structure Bundles (run : RunDir) (level : ExportLevel) (format : ExportFormat) : Prop where
  /-- `verify` has no branch for it -/
  format : format ≠ .tarZst
  /-- the full level collects it with its directory too -/
  ranking : level = .full → rankingPath ∉ run.tree.paths
  /-- they are copied as files -/
  always : ∀ rel ∈ always, run.isDir (joined rel) = false
  /-- the manifest is cut at white space, and backslashes are replaced -/
  names : ∀ p ∈ exportedFiles run level, ∀ c ∈ pathText p, isWhitespace c = false ∧ c ≠ '\\'

/-! ## the exported files are what is collected -/

section
variable {run : RunDir} {level : ExportLevel}

theorem mem_exportedFiles {p : Path} :
    p ∈ exportedFiles run level ↔ p ∈ run.tree.paths ∧ includedAt level p := by
  rw [exportedFiles, List.mem_filter, decide_eq_true_eq]

theorem mem_collect (h : ∀ rel ∈ always, run.isDir (joined rel) = false) {p : Path} :
    p ∈ (collect run level).map Prod.fst ↔ p ∈ exportedFiles run level := by
  have hexists : ∀ rel ∈ always,
      (run.exists (joined rel) = true ↔ joined rel ∈ run.tree.paths) := by
    intro rel hrel
    rw [RunDir.exists, h rel hrel, Bool.or_false]
    exact RunDir.isFile_iff
  have hfixed : p ∈ ((always.filter fun rel => run.exists (joined rel)).map
      fun rel => (joined rel, rel)).map Prod.fst ↔
      p ∈ run.tree.paths ∧ ∃ rel ∈ always, joined rel = p := by
    rw [List.map_map, List.mem_map]
    constructor
    · rintro ⟨rel, hrel, rfl⟩
      obtain ⟨hrel, hex⟩ := List.mem_filter.mp hrel
      exact ⟨(hexists rel hrel).mp hex, rel, hrel, rfl⟩
    · rintro ⟨hp, rel, hrel, rfl⟩
      exact ⟨rel, List.mem_filter.mpr ⟨hrel, (hexists rel hrel).mpr hp⟩, rfl⟩
  have hlevel : p ∈ ((levelSpecific level).flatMap (collectEntry run)).map Prod.fst ↔
      p ∈ run.tree.paths ∧ ∃ rel ∈ levelSpecific level, Covers rel p := by
    rw [List.map_flatMap, List.mem_flatMap]
    constructor
    · rintro ⟨rel, hrel, hp⟩
      obtain ⟨hp, hcov⟩ := mem_collectEntry.mp hp
      exact ⟨hp, rel, hrel, hcov⟩
    · rintro ⟨hp, rel, hrel, hcov⟩
      exact ⟨rel, hrel, mem_collectEntry.mpr ⟨hp, hcov⟩⟩
  rw [collect, List.map_append, List.mem_append, hfixed, hlevel, mem_exportedFiles, includedAt,
    and_or_left]

/-- no entry of a level is above another -/
theorem levels_apart (level : ExportLevel) : (levelSpecific level).Pairwise fun a b =>
    ¬ joined a <+: joined b ∧ ¬ joined b <+: joined a := by
  cases level <;> decide +kernel

/-- the ranking is the one fixed name that is also below an entry of a level -/
theorem always_apart (level : ExportLevel) : ∀ rel ∈ always, ∀ rel' ∈ levelSpecific level,
    Covers rel' (joined rel) → level = .full ∧ joined rel = rankingPath := by
  cases level <;> decide +kernel

/-- **But for the ranking at the full level, each file is collected once.** -/
theorem collect_nodup (h : level = .full → rankingPath ∉ run.tree.paths) :
    ((collect run level).map Prod.fst).Nodup := by
  have hfixed : (always.map joined).Nodup := by decide +kernel
  rw [collect, List.map_append, List.map_map, List.map_flatMap]
  refine List.Nodup.append (hfixed.sublist (List.filter_sublist.map joined))
    (List.nodup_flatMap.mpr ⟨fun rel _ => collectEntry_nodup rel, ?_⟩) fun p hp hp' => ?_
  · apply (levels_apart level).imp
    intro a b hab p hp hp'
    obtain ⟨-, hpre, -⟩ := mem_collectEntry.mp hp
    obtain ⟨-, hpre', -⟩ := mem_collectEntry.mp hp'
    obtain hpre | hpre := List.prefix_or_prefix_of_prefix hpre hpre'
    · exact hab.1 hpre
    · exact hab.2 hpre
  · obtain ⟨rel, hrel, rfl⟩ := List.mem_map.mp hp
    obtain ⟨rel', hrel', hp'⟩ := List.mem_flatMap.mp hp'
    obtain ⟨hin, hcov⟩ := mem_collectEntry.mp hp'
    obtain ⟨hfull, hrank⟩ := always_apart level rel (List.mem_of_mem_filter hrel) rel' hrel' hcov
    exact h hfull (hrank ▸ hin)

/-- a path without backslashes keeps its text -/
theorem collect_pathText {item : Path × Text} (h : item ∈ collect run level)
    (hback : '\\' ∉ pathText item.1) : item.2 = pathText item.1 := by
  obtain ⟨hname, -⟩ | ⟨hpath, hslash, hrel⟩ := collect_name h
  · rw [hname, bundled]
    refine (List.map_congr_left fun c hc => if_neg ?_).trans (List.map_id _)
    rintro rfl
    exact hback hc
  · rw [hpath]
    exact ((levels_plain level _ hrel).2.2.2.2 hslash).symm

/-- at the full level the ranking is collected twice under its name -/
theorem collect_ranking (h : rankingPath ∈ run.tree.paths) :
    ¬ ((collect run .full).map Prod.snd).Nodup := by
  have hfixed : "rankings/ranking.json".toList ∈ always := by decide +kernel
  have hdir : "rankings/".toList ∈ levelSpecific .full := by decide +kernel
  have hcov : Covers "rankings/".toList rankingPath := by decide +kernel
  have hback : '\\' ∉ pathText rankingPath := by decide +kernel
  have htext : pathText rankingPath = "rankings/ranking.json".toList := by decide +kernel
  intro hnodup
  obtain ⟨item, hitem, hfst⟩ := List.mem_map.mp (mem_collectEntry.mpr ⟨h, hcov⟩)
  have hlevel := List.mem_flatMap.mpr ⟨_, hdir, hitem⟩
  have hname : item.2 = "rankings/ranking.json".toList := by
    rw [← htext, ← hfst]
    exact collect_pathText (List.mem_append_right _ hlevel) (hfst ▸ hback)
  rw [collect, List.map_append] at hnodup
  refine List.disjoint_of_nodup_append hnodup (List.mem_map.mpr ⟨(rankingPath, _), ?_, rfl⟩)
    (List.mem_map.mpr ⟨item, hlevel, hname⟩)
  refine List.mem_map.mpr ⟨_, List.mem_filter.mpr ⟨hfixed, ?_⟩, rfl⟩
  exact Bool.or_eq_true_iff.mpr (Or.inl (RunDir.isFile_iff.mpr h))

end

/-! ## the name of a bundle -/

theorem extension_append {stem ext : Text} (h : stem ≠ []) (hext : ext ≠ []) (hdot : '.' ∉ ext) :
    extension (stem ++ '.' :: ext) = some ext := by
  have hrev : (stem ++ '.' :: ext).reverse = ext.reverse ++ '.' :: stem.reverse := by simp
  have hall : ∀ c ∈ ext.reverse, decide (c ≠ '.') = true := by
    intro c hc
    exact decide_eq_true fun he => hdot (he ▸ List.mem_reverse.mp hc)
  have hdots : stem ++ '.' :: ext ≠ ['.', '.'] := by
    intro he
    rw [he] at hrev
    cases hl : ext.reverse with
    | nil => exact hext (List.reverse_eq_nil_iff.mp hl)
    | cons c l =>
      rw [hl, List.cons_append] at hrev
      obtain ⟨rfl, -⟩ := List.cons.inj hrev
      exact hdot (List.mem_reverse.mp (hl ▸ List.mem_cons_self))
  have hlen := List.length_pos_of_ne_nil h
  unfold extension
  rw [if_neg hdots, hrev, List.takeWhile_append_of_pos hall, List.dropWhile_append_of_pos hall,
    List.takeWhile_cons_of_neg (by decide), List.dropWhile_cons_of_neg (by decide),
    List.append_nil, List.reverse_reverse, if_neg]
  rw [List.length_cons, List.length_reverse]
  omega

/-- **A bundle with its usual name is unpacked as it was packed, but for `tar.zst`.** -/
theorem unpacker_bundleName {stem : Text} (h : stem ≠ []) (format : ExportFormat) :
    unpacker (bundleName stem format) = if format = .tarZst then none else some format := by
  have key : ∀ first ext : Text, ext ≠ [] → '.' ∉ ext →
      '.' :: extensionFor format = first ++ '.' :: ext →
      extension (bundleName stem format) = some ext := by
    intro first ext hext hdot heq
    rw [bundleName, heq, ← List.append_assoc]
    exact extension_append (fun hnil => h (List.append_eq_nil_iff.mp hnil).1) hext hdot
  unfold unpacker
  cases format with
  | tarGz =>
    rw [key ".tar".toList "gz".toList (by decide) (by decide) (by decide)]
    decide
  | tar =>
    rw [key [] "tar".toList (by decide) (by decide) (by decide)]
    decide
  | zip =>
    rw [key [] "zip".toList (by decide) (by decide) (by decide)]
    decide
  | tarZst =>
    rw [key ".tar".toList "zst".toList (by decide) (by decide) (by decide)]
    decide

/-! ## what is read of a bundle -/

section
variable {A : Type} {sys : System} {sha : Sha256} {archives : Archives A} {run : RunDir}
  {level : ExportLevel} {format : ExportFormat} {stem : Text}

theorem fromUTF8?_toUTF8 (s : String) : String.fromUTF8? s.toUTF8 = some s :=
  dif_pos s.isValidUTF8

theorem plainPath_sumsName : plainPath sumsName = some [sumsName] := by decide +kernel

/-- the manifest is written beside the files -/
theorem file_of_writeAt {t t' : Files ByteArray} {data : ByteArray}
    (h : writeAt sys t sumsName data = .ok t') :
    ∀ p, t'.file p = if p = [sumsName] then some data else t.file p := by
  unfold writeAt at h
  rw [plainPath_sumsName] at h
  dsimp only at h
  split_ifs at h with hroom
  obtain rfl := Except.ok.inj h
  exact Files.file_put t data hroom

theorem readAt_file {t : Files ByteArray} {path : Text} {p : Path} {data : ByteArray}
    (hp : plainPath path = some p) (h : t.file p = some data) :
    readAt sys t path = .ok (some data) := by
  unfold readAt
  rw [hp]
  dsimp only
  rw [h]

variable (archives) in
/-- **The verification of a bundle reads the manifest and the files that were staged.** -/
theorem verify_staged {entries : List HashEntry} {t' : Files ByteArray} (hstem : stem ≠ [])
    (hformat : format ≠ .tarZst) (h : staged sys sha run level = .ok (entries, t')) :
    ∃ t'', (∀ p, t''.file p = t'.file p) ∧ ∀ rows,
      verify sys sha archives (bundleName stem format) (archives.pack format t') = .ok rows ↔
      ∃ es, parseSha256sums (formatSha256sums entries) = .ok es ∧
        checkEntries sys sha t'' es = .ok rows := by
  obtain ⟨t'', hunpack, hfile⟩ := archives.unpack_pack format t'
  obtain ⟨t, -, -, hwrite⟩ := staged_ok.mp h
  have hopen : openBundle archives (bundleName stem format) (archives.pack format t') =
      .ok t'' := by
    unfold openBundle
    rw [unpacker_bundleName hstem, if_neg hformat]
    exact hunpack
  have hsums : t''.file [sumsName] =
      some (String.ofList (formatSha256sums entries)).toUTF8 := by
    rw [hfile, file_of_writeAt hwrite, if_pos rfl]
  have hread : readManifest sys t'' =
      (parseSha256sums (formatSha256sums entries)).mapError .manifest := by
    unfold readManifest
    rw [readAt_file plainPath_sumsName hsums]
    dsimp only
    rw [fromUTF8?_toUTF8]
    dsimp only
    rw [String.toList_ofList]
  refine ⟨t'', hfile, fun rows => ?_⟩
  unfold verify
  rw [hopen, Checks.bind_ok]
  constructor
  · rintro ⟨_, he, h⟩
    obtain rfl := Except.ok.inj he
    obtain ⟨es, hes, h⟩ := Checks.bind_ok.mp h
    rw [hread] at hes
    cases hp : parseSha256sums (formatSha256sums entries) with
    | error err =>
      rw [hp] at hes
      cases hes
    | ok es' =>
      rw [hp] at hes
      obtain rfl := Except.ok.inj hes
      exact ⟨es', rfl, h⟩
  · rintro ⟨es, hes, h⟩
    refine ⟨t'', rfl, Checks.bind_ok.mpr ⟨es, ?_, h⟩⟩
    rw [hread, hes]
    rfl

/-- a row for each entry -/
theorem rows_path {t : Files ByteArray} {es : List HashEntry} {rows : List VerifyRow}
    (h : checkEntries sys sha t es = .ok rows) :
    rows.map VerifyRow.path = es.map HashEntry.path := by
  have hrow : ∀ {e : HashEntry} {row : VerifyRow}, checkEntry sys sha t e = .ok row →
      row.path = e.path := by
    intro e row he
    unfold checkEntry at he
    split at he
    · cases he
    · rw [← Except.ok.inj he]
    · rw [← Except.ok.inj he]
  have hall := Checks.mapM_ok.mp h
  clear h
  induction hall with
  | nil => rfl
  | cons he _ ih => rw [List.map_cons, List.map_cons, hrow he, ih]

/-! ## when it round trips -/

theorem mem_collectFiles {item : Path × Text} :
    item ∈ collectFiles run level ↔ item ∈ collect run level :=
  (List.mergeSort_perm _ _).mem_iff

/-- what is staged is on lines of its own -/
theorem entries_oneLine {t : Files ByteArray} {entries : List HashEntry}
    (h : (collectFiles run level).mapM (hashEntry sys sha t) = .ok entries) :
    ∀ e ∈ entries, e.OneLine := by
  intro e he
  obtain ⟨item, hitem, hash⟩ := Checks.exists_of_mapM h he
  obtain ⟨data, -, rfl⟩ := hashEntry_ok hash
  exact ⟨hexEncode_solid _, fun hc => (collect_chars (mem_collectFiles.mp hitem) _ hc).1 rfl⟩

/-- **A verification that ends has a row for the first word of each collected name.** -/
theorem rows_words (hstem : stem ≠ []) {bundle : A} {rows : List VerifyRow}
    (hexport : exportRun sys sha archives run level format = .ok bundle)
    (hverify : verify sys sha archives (bundleName stem format) bundle = .ok rows) :
    format ≠ .tarZst ∧ (∀ item ∈ collect run level, item.1 ∈ run.tree.paths) ∧
      rows.map VerifyRow.path =
        (collectFiles run level).map fun item => (words item.2).headD [] := by
  have hformat : format ≠ .tarZst := by
    rintro rfl
    unfold verify openBundle at hverify
    rw [unpacker_bundleName hstem, if_pos rfl] at hverify
    cases hverify
  unfold exportRun at hexport
  cases hst : staged sys sha run level with
  | error err =>
    rw [hst] at hexport
    cases hexport
  | ok r =>
    obtain ⟨entries, t'⟩ := r
    rw [hst] at hexport
    obtain rfl := Except.ok.inj hexport
    obtain ⟨t, hcopies, hhash, -⟩ := staged_ok.mp hst
    obtain ⟨t'', -, hrows⟩ := verify_staged archives hstem hformat hst
    obtain ⟨es, hparse, hcheck⟩ := (hrows rows).mp hverify
    refine ⟨hformat, fun item hitem => copies_file hcopies item (mem_collectFiles.mpr hitem), ?_⟩
    rw [rows_path hcheck, parse_ok (entries_oneLine hhash) hparse]
    calc entries.map (fun e => (words e.path).headD [])
        = (entries.map HashEntry.path).map fun path => (words path).headD [] := by
          rw [List.map_map]
          rfl
      _ = ((collectFiles run level).map Prod.snd).map fun path => (words path).headD [] := by
          rw [hashEntries_path hhash]
      _ = (collectFiles run level).map fun item => (words item.2).headD [] := by
          rw [List.map_map]
          rfl

theorem exportedFiles_nodup : ((exportedFiles run level).map pathText).Nodup := by
  refine List.Nodup.map_on (fun p hp q hq h => ?_) (run.tree.nodup.filter _)
  exact pathText_inj (Files.proper_of_mem (List.mem_of_mem_filter hp))
    (Files.proper_of_mem (List.mem_of_mem_filter hq)) h

theorem RoundTrips.bundles (hstem : stem ≠ [])
    (h : RoundTrips sys sha archives run level format (bundleName stem format)) :
    Bundles run level format := by
  obtain ⟨bundle, rows, hexport, hverify, hperm, -⟩ := h.verified
  obtain ⟨hformat, hfiles, hrows⟩ := rows_words hstem hexport hverify
  refine ⟨hformat, fun hfull hrank => ?_, fun rel hrel => ?_, fun p hp c hc => ?_⟩
  · -- two rows for the ranking, and the paths of the files are distinct
    subst hfull
    have hnodup := hperm.nodup_iff.mpr exportedFiles_nodup
    rw [hrows] at hnodup
    have hsnd : ((collectFiles run .full).map Prod.snd).Nodup := by
      apply List.Nodup.of_map fun path => (words path).headD []
      rw [List.map_map]
      exact hnodup
    have hcollect := ((List.mergeSort_perm (collect run .full) _).map Prod.snd).nodup_iff.mp hsnd
    exact collect_ranking hrank hcollect
  · -- a directory is not copied
    rw [Bool.eq_false_iff]
    intro hdir
    have hex : run.exists (joined rel) = true := Bool.or_eq_true_iff.mpr (Or.inr hdir)
    have hin := hfiles (joined rel, rel) (List.mem_append_left _
      (List.mem_map.mpr ⟨rel, List.mem_filter.mpr ⟨hrel, hex⟩, rfl⟩))
    rw [RunDir.not_isDir hin] at hdir
    cases hdir
  · -- the row of `p` is a word of a name in the bundle
    have hrow := hperm.mem_iff.mpr (List.mem_map_of_mem hp)
    rw [hrows] at hrow
    obtain ⟨item, hitem, hhead⟩ := List.mem_map.mp hrow
    have hne := pathText_ne_nil (Files.proper_of_mem (mem_exportedFiles.mp hp).1)
    have hword : pathText p ∈ words item.2 := by
      cases hw : words item.2 with
      | nil =>
        rw [hw] at hhead
        exact absurd hhead.symm hne
      | cons w ws =>
        rw [hw] at hhead
        exact hhead ▸ List.mem_cons_self
    obtain ⟨hsolid, hchars⟩ := mem_words hword
    exact ⟨hsolid.2 c hc, (collect_chars (mem_collectFiles.mp hitem) c (hchars c hc)).2⟩

/-- no exported file is, or is below, what has the name of the manifest -/
theorem exported_head {p : Path} (h : p ∈ exportedFiles run level) : p.head? ≠ some sumsName := by
  have hpre : ∃ rel ∈ always ++ levelSpecific level, joined rel <+: p := by
    obtain ⟨rel, hrel, rfl⟩ | ⟨rel, hrel, hcov⟩ := (mem_exportedFiles.mp h).2
    · exact ⟨rel, List.mem_append_left _ hrel, List.prefix_rfl⟩
    · exact ⟨rel, List.mem_append_right _ hrel, hcov.1⟩
  obtain ⟨rel, hrel, rest, rfl⟩ := hpre
  obtain ⟨-, -, hne, hhead, -⟩ := levels_plain level rel hrel
  rwa [List.head?_append_of_ne_nil _ hne]

section
variable (hb : Bundles run level format)
include hb

theorem Bundles.plain {item : Path × Text} (hitem : item ∈ collectFiles run level) :
    item.1 ∈ exportedFiles run level ∧ item.2 = pathText item.1 := by
  have hcollect := mem_collectFiles.mp hitem
  have hin := (mem_collect hb.always).mp (List.mem_map_of_mem hcollect)
  exact ⟨hin, collect_pathText hcollect fun hc => (hb.names _ hin _ hc).2 rfl⟩

variable (sys) in
/-- the files are copied under their own paths -/
theorem Bundles.copies : ∃ t, (collectFiles run level).foldlM (copyFile sys run) Files.empty = .ok t ∧
    t.Room [sumsName] ∧
    ∀ item ∈ collectFiles run level, t.file item.1 = run.tree.file item.1 := by
  have hitems : ∀ item ∈ collectFiles run level,
      item.1 ∈ run.tree.paths ∧ plainPath item.2 = some item.1 := by
    intro item hitem
    obtain ⟨hin, htext⟩ := hb.plain hitem
    have hp := (mem_exportedFiles.mp hin).1
    exact ⟨hp, htext ▸ plainPath_pathText (Files.proper_of_mem hp)⟩
  obtain ⟨t, hfold, hfile⟩ := copies_ok sys hitems Files.empty
    fun p hp => absurd hp List.not_mem_nil
  refine ⟨t, hfold, sums_room fun p hp => ?_, fun item hitem => ?_⟩
  · have hsome := Files.file_isSome.mpr hp
    rw [hfile] at hsome
    split_ifs at hsome with hmem
    · obtain ⟨item, hitem, rfl⟩ := List.mem_map.mp hmem
      exact exported_head (hb.plain hitem).1
    · rw [Files.file_empty] at hsome
      cases hsome
  · rw [hfile, if_pos (List.mem_map_of_mem hitem)]

variable (sys sha) in
theorem Bundles.staged_total : ∃ entries t', staged sys sha run level = .ok (entries, t') := by
  obtain ⟨t, hfold, hroom, hfile⟩ := hb.copies sys
  have hhash : ∀ item ∈ collectFiles run level, ∃ e, hashEntry sys sha t item = .ok e := by
    intro item hitem
    obtain ⟨hin, htext⟩ := hb.plain hitem
    have hp := (mem_exportedFiles.mp hin).1
    obtain ⟨data, hdata⟩ := Option.isSome_iff_exists.mp (Files.file_isSome.mpr hp)
    have hplain : plainPath item.2 = some item.1 :=
      htext ▸ plainPath_pathText (Files.proper_of_mem hp)
    unfold hashEntry
    rw [readAt_file hplain ((hfile item hitem).trans hdata)]
    exact ⟨_, rfl⟩
  obtain ⟨entries, hentries⟩ := Checks.mapM_total hhash
  have hwrite : writeAt sys t sumsName (String.ofList (formatSha256sums entries)).toUTF8 =
      .ok (t.put [sumsName] (String.ofList (formatSha256sums entries)).toUTF8 hroom) := by
    unfold writeAt
    rw [plainPath_sumsName]
    exact dif_pos hroom
  exact ⟨entries, _, staged_ok.mpr ⟨t, hfold, hentries, hwrite⟩⟩

/-- what is staged is read back, and hashed to what the manifest says -/
theorem Bundles.entry {entries : List HashEntry} {t' t'' : Files ByteArray}
    (h : staged sys sha run level = .ok (entries, t')) (hsame : ∀ p, t''.file p = t'.file p) :
    ∀ e ∈ entries, Solid e.sha256 ∧ Solid e.path ∧
      checkEntry sys sha t'' e = .ok ⟨e.path, .ok⟩ := by
  obtain ⟨t, hfold, hhash, hwrite⟩ := staged_ok.mp h
  intro e he
  obtain ⟨item, hitem, hash⟩ := Checks.exists_of_mapM hhash he
  obtain ⟨data, hdata, rfl⟩ := hashEntry_ok hash
  obtain ⟨hin, htext⟩ := hb.plain hitem
  have hproper := Files.proper_of_mem (mem_exportedFiles.mp hin).1
  have hplain : plainPath item.2 = some item.1 := htext ▸ plainPath_pathText hproper
  have hsolid : Solid item.2 := by
    rw [htext]
    exact ⟨pathText_ne_nil hproper, fun c hc => (hb.names _ hin c hc).1⟩
  have hsums : item.1 ≠ [sumsName] := fun he => exported_head hin (he ▸ rfl)
  have hread : readAt sys t'' item.2 = readAt sys t item.2 := by
    obtain ⟨t1, hfold1, -, hfile⟩ := hb.copies sys
    obtain rfl := Except.ok.inj (hfold.symm.trans hfold1)
    obtain ⟨data', hdata'⟩ :=
      Option.isSome_iff_exists.mp (Files.file_isSome.mpr (mem_exportedFiles.mp hin).1)
    have ht : t.file item.1 = some data' := (hfile item hitem).trans hdata'
    have ht'' : t''.file item.1 = some data' := by
      rw [hsame, file_of_writeAt hwrite, if_neg hsums, ht]
    rw [readAt_file hplain ht, readAt_file hplain ht'']
  refine ⟨hexEncode_solid _, hsolid, ?_⟩
  unfold checkEntry
  dsimp only
  rw [hread, hdata]
  dsimp only
  rw [if_pos rfl]

theorem Bundles.collected :
    ((collectFiles run level).map Prod.snd).Perm ((exportedFiles run level).map pathText) := by
  have hfst : ((collectFiles run level).map Prod.fst).Perm (exportedFiles run level) := by
    refine ((List.mergeSort_perm _ _).map Prod.fst).trans ?_
    refine (List.perm_ext_iff_of_nodup (collect_nodup hb.ranking)
      (run.tree.nodup.filter _)).mpr fun p => ?_
    exact mem_collect hb.always
  have hsnd : (collectFiles run level).map Prod.snd =
      ((collectFiles run level).map Prod.fst).map pathText := by
    rw [List.map_map]
    exact List.map_congr_left fun item hitem => (hb.plain hitem).2
  rw [hsnd]
  exact hfst.map pathText

theorem Bundles.roundTrips (hstem : stem ≠ []) :
    RoundTrips sys sha archives run level format (bundleName stem format) := by
  have hparse : ∀ entries t', staged sys sha run level = .ok (entries, t') →
      parseSha256sums (formatSha256sums entries) = .ok entries := by
    intro entries t' hst
    apply parse_format
    intro e he
    obtain ⟨hsha, hpath, -⟩ := hb.entry hst (fun _ => rfl) e he
    exact ⟨hsha, hpath⟩
  refine ⟨?_, hparse⟩
  obtain ⟨entries, t', hst⟩ := hb.staged_total sys sha
  obtain ⟨t'', hsame, hrows⟩ := verify_staged archives hstem hb.format hst
  have hcheck : checkEntries sys sha t'' entries =
      .ok (entries.map fun e => ⟨e.path, .ok⟩) := by
    apply Checks.mapM_ok.mpr
    rw [List.forall₂_map_right_iff, List.forall₂_same]
    intro e he
    exact (hb.entry hst hsame e he).2.2
  refine ⟨archives.pack format t', _, ?_, (hrows _).mpr ⟨entries, hparse entries t' hst, hcheck⟩,
    ?_, fun row hrow => ?_⟩
  · unfold exportRun
    rw [hst]
    rfl
  · obtain ⟨t, -, hhash, -⟩ := staged_ok.mp hst
    rw [rows_path hcheck, hashEntries_path hhash]
    exact hb.collected
  · obtain ⟨e, -, rfl⟩ := List.mem_map.mp hrow
    rfl

end

/-- **A run is exported and verified, every file once, exactly when the format is one that `verify`
unpacks, the ranking is not collected twice, no fixed name is a directory, and no exported path has
white space or a backslash.** -/
theorem roundTrips_iff (sys : System) (sha : Sha256) (archives : Archives A) (run : RunDir)
    (level : ExportLevel) (format : ExportFormat) (stem : Text) (hstem : stem ≠ []) :
    RoundTrips sys sha archives run level format (bundleName stem format) ↔
      Bundles run level format := by
  constructor
  · intro h
    exact h.bundles hstem
  · intro h
    exact h.roundTrips hstem

end

/-! ## a run with a ranking and a proposal -/

def braces : ByteArray := ⟨#[123, 125]⟩

/-- the digest of `{}`, the content of each file below -/
def bracesSha : Sha256 := fun data =>
  if data.data = braces.data then
    ⟨[68, 19, 111, 163, 85, 179, 103, 138, 17, 70, 173, 22, 247, 232, 100, 158,
      148, 251, 79, 194, 31, 231, 126, 131, 16, 192, 96, 246, 28, 170, 255, 138], rfl⟩
  else ⟨List.replicate 32 0, rfl⟩

/-- none of the names below is left to it -/
def strictSystem : System where
  write := fun _ path _ => .error (.write path)
  read := fun _ path => .error (.read path)

def treeArchives : Archives (Files ByteArray) where
  pack := fun _ t => t
  unpack := fun _ t => .ok t
  unpack_pack := fun _ t => ⟨t, rfl, fun _ => rfl⟩

def rankedTree : Files ByteArray where
  files := [(["manifest.json".toList], braces), (["brief.json".toList], braces),
    (["rankings".toList, "ranking.json".toList], braces),
    (["proposals".toList, "p_01.json".toList], braces)]
  nodup := by decide +kernel
  proper := by
    simp only [List.forall_mem_cons]
    exact ⟨by decide +kernel, by decide +kernel, by decide +kernel, by decide +kernel,
      fun _ h => absurd h List.not_mem_nil⟩
  apart := by
    intro e he e' he'
    have key : ∀ p ∈ [["manifest.json".toList], ["brief.json".toList],
        ["rankings".toList, "ranking.json".toList], ["proposals".toList, "p_01.json".toList]],
        ∀ q ∈ [["manifest.json".toList], ["brief.json".toList],
          ["rankings".toList, "ranking.json".toList], ["proposals".toList, "p_01.json".toList]],
        p <+: q → p = q := by decide +kernel
    exact key _ (List.mem_map_of_mem he) _ (List.mem_map_of_mem he')

def rankedRun : RunDir where
  tree := rankedTree
  emptyDirs := []
  apart := fun d hd => absurd hd List.not_mem_nil
  oneLine := by decide +kernel

theorem roundTrips_iff_sample : "bundle".toList ≠ [] ∧
    RoundTrips strictSystem bracesSha treeArchives rankedRun .summary .tarGz
      (bundleName "bundle".toList .tarGz) := by
  refine ⟨by decide, (roundTrips_iff strictSystem bracesSha treeArchives rankedRun .summary .tarGz
    "bundle".toList (by decide)).mpr ⟨by decide, ?_, ?_, ?_⟩⟩
  · intro h
    cases h
  · decide +kernel
  · have hall : ((exportedFiles rankedRun .summary).all fun p => (pathText p).all fun c =>
        isWhitespace c = false ∧ c ≠ '\\') = true := by decide +kernel
    exact fun p hp c hc => of_decide_eq_true (List.all_eq_true.mp (List.all_eq_true.mp hall p hp) c hc)

/-- the ranking is verified twice at the full level, and a `tar.zst` not at all -/
theorem exported_twice :
    (¬ RoundTrips strictSystem bracesSha treeArchives rankedRun .full .tarGz
      (bundleName "bundle".toList .tarGz)) ∧
    ¬ RoundTrips strictSystem bracesSha treeArchives rankedRun .summary .tarZst
      (bundleName "bundle".toList .tarZst) := by
  refine ⟨fun h => ?_, fun h => ?_⟩
  · exact (h.bundles (by decide)).ranking rfl (by decide +kernel)
  · exact (h.bundles (by decide)).format rfl

end Moagan.Telemetry
