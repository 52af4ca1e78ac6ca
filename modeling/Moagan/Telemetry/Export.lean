import Mathlib.Data.Char
import Mathlib.Data.List.Lex
import Moagan.Lib.Checks
import Moagan.Lib.FileTree
import Moagan.Telemetry.Sums

/-!
# Export of a run (`src/telemetry/export.rs`)

* `RunDir`          what a run directory holds
* `collectFiles`    the files of a level, with their names in the bundle
* `exportRun`       the files copied, hashed and packed, with their manifest
* `mem_collectEntry`, `collect_chars`   what is collected, and under which names
* `staged_ok`       what a staging that succeeds has done
* `copies_ok`       files that keep their own paths are all copied

The hash and the archives are those of crates; `System` is what the operating system does with a
name in the bundle that has an empty piece, `.` or `..` in it.
-/

namespace Moagan.Telemetry

open FileTree

inductive ExportLevel where
  | summary | full
deriving DecidableEq, Repr

inductive ExportFormat where
  | tarGz | tar | zip | tarZst
deriving DecidableEq, Repr

/-- files, and directories without files; a name has no line feed -/
structure RunDir where
  tree : Files ByteArray
  emptyDirs : List Path
  apart : ∀ d ∈ emptyDirs, ∀ p ∈ tree.paths, ¬ p <+: d
  oneLine : ∀ p ∈ tree.paths, ∀ n ∈ p, '\n' ∉ n

def RunDir.isFile (run : RunDir) (p : Path) : Bool := (run.tree.file p).isSome

def RunDir.isDir (run : RunDir) (p : Path) : Bool :=
  run.tree.isDir p || run.emptyDirs.any (p.isPrefixOf ·)

def RunDir.exists (run : RunDir) (p : Path) : Bool := run.isFile p || run.isDir p

/-- the files below a directory -/
def RunDir.walk (run : RunDir) (dir : Path) : List Path := run.tree.paths.filter (dir.isPrefixOf ·)

/-! ## which files -/

def always : List Text :=
  ["manifest.json", "brief.json", "rankings/ranking.json"].map String.toList

def levelSpecific : ExportLevel → List Text
  | .summary => ["theses/", "proposals/", "critiques/", "revisions/", "evaluations/",
      "final/"].map String.toList
  | .full => ["theses/", "proposals/", "critiques/", "revisions/", "validation/", "evaluations/",
      "rankings/", "final/", "synthesized/", "cluster_proposals/", "adversaries/", "checkpoints/",
      "telemetry/calls.jsonl.gz", "telemetry/phases.jsonl.gz", "telemetry/warnings.jsonl",
      "telemetry/checkpoints.jsonl"].map String.toList

/-- `root.join(rel)` -/
def joined (rel : Text) : Path := (rel.splitOn '/').filter (· ≠ [])

/-- such a path names a directory or nothing -/
def endsInSlash (rel : Text) : Bool := rel.getLast? = some '/'

/-- the name in the bundle of a file that a walk finds -/
def bundled (p : Path) : Text := (pathText p).map fun c => if c = '\\' then '/' else c

/-- the files that an entry of the level adds, with their names in the bundle -/
def collectEntry (run : RunDir) (rel : Text) : List (Path × Text) :=
  if run.isDir (joined rel) then (run.walk (joined rel)).map fun p => (p, bundled p)
  else if run.isFile (joined rel) ∧ endsInSlash rel = false then [(joined rel, rel)]
  else []

def collect (run : RunDir) (level : ExportLevel) : List (Path × Text) :=
  (always.filter fun rel => run.exists (joined rel)).map (fun rel => (joined rel, rel)) ++
    (levelSpecific level).flatMap (collectEntry run)

def collectFiles (run : RunDir) (level : ExportLevel) : List (Path × Text) :=
  (collect run level).mergeSort fun a b => a.2 ≤ b.2

/-! ## staging -/

inductive ExportError where
  | write (path : Text)
  | read (path : Text)
  | manifest (err : SumsError)
  | archive
  /-- `no SHA256SUMS at …; cannot verify` -/
  | noManifest
deriving DecidableEq, Repr

structure System where
  write : Files ByteArray → Text → ByteArray → Except ExportError (Files ByteArray)
  /-- `none` when nothing is there -/
  read : Files ByteArray → Text → Except ExportError (Option ByteArray)

/-- `create_dir_all` of the parent and a write -/
def writeAt (sys : System) (t : Files ByteArray) (path : Text) (data : ByteArray) :
    Except ExportError (Files ByteArray) :=
  match plainPath path with
  | none => sys.write t path data
  | some p => if h : t.Room p then .ok (t.put p data h) else .error (.write path)

/-- the content of a file; a directory cannot be read -/
def readAt (sys : System) (t : Files ByteArray) (path : Text) :
    Except ExportError (Option ByteArray) :=
  match plainPath path with
  | none => sys.read t path
  | some p =>
    match t.file p with
    | some data => .ok (some data)
    | none => if t.isDir p then .error (.read path) else .ok none

/-- `std::fs::copy` of a file of the run -/
def copyFile (sys : System) (run : RunDir) (t : Files ByteArray) (item : Path × Text) :
    Except ExportError (Files ByteArray) :=
  match run.tree.file item.1 with
  | none => .error (.write item.2)
  | some data => writeAt sys t item.2 data

def hexDigit (n : ℕ) : Char := "0123456789abcdef".toList.getD n '0'

/-- `hex::encode` -/
def hexEncode (digest : List UInt8) : Text :=
  digest.flatMap fun b => [hexDigit (b.toNat / 16), hexDigit (b.toNat % 16)]

/-- a digest of 32 bytes -/
abbrev Sha256 := ByteArray → { digest : List UInt8 // digest.length = 32 }

def hashEntry (sys : System) (sha : Sha256) (t : Files ByteArray) (item : Path × Text) :
    Except ExportError HashEntry :=
  match readAt sys t item.2 with
  | .error err => .error err
  | .ok none => .error (.read item.2)
  | .ok (some data) => .ok ⟨hexEncode (sha data).1, item.2⟩

def sumsName : Text := "SHA256SUMS".toList

/-- the manifest, and the staged files with it -/
def staged (sys : System) (sha : Sha256) (run : RunDir) (level : ExportLevel) :
    Except ExportError (List HashEntry × Files ByteArray) := do
  let included := collectFiles run level
  let t ← included.foldlM (copyFile sys run) Files.empty
  let entries ← included.mapM (hashEntry sys sha t)
  let t ← writeAt sys t sumsName (String.ofList (formatSha256sums entries)).toUTF8
  .ok (entries, t)

/-- the archive crates: what they pack is unpacked again -/
structure Archives (A : Type) where
  pack : ExportFormat → Files ByteArray → A
  unpack : ExportFormat → A → Except ExportError (Files ByteArray)
  unpack_pack : ∀ format t, ∃ t', unpack format (pack format t) = .ok t' ∧
    ∀ p, t'.file p = t.file p

def exportRun {A : Type} (sys : System) (sha : Sha256) (archives : Archives A) (run : RunDir)
    (level : ExportLevel) (format : ExportFormat) : Except ExportError A :=
  (staged sys sha run level).map fun r => archives.pack format r.2

/-! ## what is collected -/

theorem RunDir.isFile_iff {run : RunDir} {p : Path} : run.isFile p = true ↔ p ∈ run.tree.paths :=
  Files.file_isSome

theorem RunDir.not_isDir {run : RunDir} {p : Path} (h : p ∈ run.tree.paths) :
    run.isDir p = false := by
  rw [RunDir.isDir, Files.not_isDir h, Bool.false_or, List.any_eq_false]
  intro d hd hpre
  exact run.apart d hd p h (List.isPrefixOf_iff_prefix.mp hpre)

theorem RunDir.isDir_of_below {run : RunDir} {d p : Path} (h : p ∈ run.tree.paths) (hpre : d <+: p)
    (hne : d ≠ p) : run.isDir d = true := by
  rw [RunDir.isDir, Files.isDir_iff.mpr ⟨p, h, hpre, hne⟩, Bool.true_or]

/-- the files that an entry of the level is about -/
def Covers (rel : Text) (p : Path) : Prop :=
  joined rel <+: p ∧ (endsInSlash rel = true → joined rel ≠ p)

instance (rel : Text) (p : Path) : Decidable (Covers rel p) :=
  inferInstanceAs (Decidable (_ ∧ _))

section
variable {run : RunDir} {level : ExportLevel}

theorem mem_collectEntry {rel : Text} {p : Path} :
    p ∈ (collectEntry run rel).map Prod.fst ↔ p ∈ run.tree.paths ∧ Covers rel p := by
  unfold collectEntry
  by_cases hdir : run.isDir (joined rel) = true
  · rw [if_pos hdir, List.map_map]
    have hmem : p ∈ (run.walk (joined rel)).map (Prod.fst ∘ fun p => (p, bundled p)) ↔
        p ∈ run.walk (joined rel) := by
      rw [show (Prod.fst ∘ fun p => (p, bundled p)) = id from rfl, List.map_id]
    rw [hmem, RunDir.walk, List.mem_filter, List.isPrefixOf_iff_prefix]
    constructor
    · rintro ⟨hp, hpre⟩
      refine ⟨hp, hpre, fun _ he => ?_⟩
      rw [he, RunDir.not_isDir hp] at hdir
      cases hdir
    · rintro ⟨hp, hpre, -⟩
      exact ⟨hp, hpre⟩
  · rw [if_neg hdir]
    split_ifs with hfile
    · obtain ⟨hf, hslash⟩ := hfile
      have hin := RunDir.isFile_iff.mp hf
      rw [List.map_singleton, List.mem_singleton]
      constructor
      · rintro rfl
        exact ⟨hin, List.prefix_rfl, fun h => absurd h (hslash ▸ Bool.false_ne_true)⟩
      · rintro ⟨hp, hpre, -⟩
        exact (Files.apart_paths hin hp hpre).symm
    · constructor
      · intro h
        exact absurd h List.not_mem_nil
      · rintro ⟨hp, hpre, hslash⟩
        by_cases he : joined rel = p
        · -- a file that the entry names with a slash
          refine absurd ⟨?_, ?_⟩ hfile
          · rw [he]
            exact RunDir.isFile_iff.mpr hp
          · exact Bool.eq_false_iff.mpr fun h => hslash h he
        · exact absurd (RunDir.isDir_of_below hp hpre he) hdir

theorem collectEntry_nodup (rel : Text) : ((collectEntry run rel).map Prod.fst).Nodup := by
  unfold collectEntry
  split_ifs
  · rw [List.map_map, show (Prod.fst ∘ fun p => (p, bundled p)) = id from rfl, List.map_id]
    exact run.tree.nodup.filter _
  · exact List.nodup_singleton _
  · exact List.nodup_nil

/-- the name in the bundle of a collected item -/
theorem collect_name {item : Path × Text} (h : item ∈ collect run level) :
    (item.2 = bundled item.1 ∧ item.1 ∈ run.tree.paths) ∨
    (item.1 = joined item.2 ∧ endsInSlash item.2 = false ∧
      item.2 ∈ always ++ levelSpecific level) := by
  obtain h | h := List.mem_append.mp h
  · obtain ⟨rel, hrel, rfl⟩ := List.mem_map.mp h
    have hin := List.mem_of_mem_filter hrel
    have hslash : ∀ rel ∈ always, endsInSlash rel = false := by decide +kernel
    exact Or.inr ⟨rfl, hslash rel hin, List.mem_append_left _ hin⟩
  · obtain ⟨rel, hrel, h⟩ := List.mem_flatMap.mp h
    unfold collectEntry at h
    split_ifs at h with hdir hfile
    · obtain ⟨p, hp, rfl⟩ := List.mem_map.mp h
      exact Or.inl ⟨rfl, List.mem_of_mem_filter hp⟩
    · obtain rfl := List.mem_singleton.mp h
      exact Or.inr ⟨rfl, hfile.2, List.mem_append_right _ hrel⟩
    · exact absurd h List.not_mem_nil

theorem levels_plain (level : ExportLevel) : ∀ rel ∈ always ++ levelSpecific level,
    '\n' ∉ rel ∧ '\\' ∉ rel ∧ joined rel ≠ [] ∧ (joined rel).head? ≠ some sumsName ∧
      (endsInSlash rel = false → pathText (joined rel) = rel) := by
  cases level <;> decide +kernel

/-- **No name in the bundle has a line feed or a backslash.** -/
theorem collect_chars {item : Path × Text} (h : item ∈ collect run level) :
    ∀ c ∈ item.2, c ≠ '\n' ∧ c ≠ '\\' := by
  obtain ⟨hname, hp⟩ | ⟨-, -, hrel⟩ := collect_name h
  · intro c hc
    rw [hname] at hc
    obtain ⟨d, hd, rfl⟩ := List.mem_map.mp hc
    by_cases hback : d = '\\'
    · rw [if_pos hback]
      decide
    · rw [if_neg hback]
      refine ⟨fun hnl => ?_, hback⟩
      subst hnl
      obtain hslash | ⟨n, hn, hin⟩ := mem_pathText hd
      · exact absurd hslash (by decide)
      · exact run.oneLine _ hp n hn hin
  · obtain ⟨hnl, hback, -⟩ := levels_plain level _ hrel
    exact fun c hc => ⟨fun he => hnl (he ▸ hc), fun he => hback (he ▸ hc)⟩

end

/-! ## what is staged -/

theorem hexEncode_solid (digest : { digest : List UInt8 // digest.length = 32 }) :
    Solid (hexEncode digest.1) := by
  have hdigit : ∀ n < 16, isWhitespace (hexDigit n) = false := by decide
  obtain ⟨digest, hlen⟩ := digest
  refine ⟨fun hnil => ?_, fun c hc => ?_⟩
  · cases digest with
    | nil => cases hlen
    | cons b digest => cases hnil
  · obtain ⟨b, -, hc⟩ := List.mem_flatMap.mp hc
    have hb := b.toNat_lt
    obtain rfl | hc := List.mem_cons.mp hc
    · exact hdigit _ (by omega)
    · obtain rfl := List.mem_singleton.mp hc
      exact hdigit _ (by omega)

section
variable {sys : System} {sha : Sha256} {run : RunDir} {level : ExportLevel}

theorem staged_ok {entries : List HashEntry} {t' : Files ByteArray} :
    staged sys sha run level = .ok (entries, t') ↔
      ∃ t, (collectFiles run level).foldlM (copyFile sys run) Files.empty = .ok t ∧
        (collectFiles run level).mapM (hashEntry sys sha t) = .ok entries ∧
        writeAt sys t sumsName (String.ofList (formatSha256sums entries)).toUTF8 = .ok t' := by
  unfold staged
  constructor
  · intro h
    obtain ⟨t, ht, h⟩ := Checks.bind_ok.mp h
    obtain ⟨es, hes, h⟩ := Checks.bind_ok.mp h
    obtain ⟨t1, ht1, h⟩ := Checks.bind_ok.mp h
    cases h
    exact ⟨t, ht, hes, ht1⟩
  · rintro ⟨t, ht, hes, ht1⟩
    exact Checks.bind_ok.mpr ⟨t, ht, Checks.bind_ok.mpr ⟨entries, hes,
      Checks.bind_ok.mpr ⟨t', ht1, rfl⟩⟩⟩

theorem hashEntry_ok {t : Files ByteArray} {item : Path × Text} {e : HashEntry}
    (h : hashEntry sys sha t item = .ok e) : ∃ data, readAt sys t item.2 = .ok (some data) ∧
      e = ⟨hexEncode (sha data).1, item.2⟩ := by
  unfold hashEntry at h
  split at h
  · cases h
  · cases h
  · exact ⟨_, ‹_›, (Except.ok.inj h).symm⟩

/-- the manifest names the files in their order -/
theorem hashEntries_path {t : Files ByteArray} {items : List (Path × Text)}
    {entries : List HashEntry} (h : items.mapM (hashEntry sys sha t) = .ok entries) :
    entries.map HashEntry.path = items.map Prod.snd := by
  have hall := Checks.mapM_ok.mp h
  clear h
  induction hall with
  | nil => rfl
  | cons he _ ih =>
    obtain ⟨data, -, rfl⟩ := hashEntry_ok he
    rw [List.map_cons, List.map_cons, ih]

/-- only a file is copied -/
theorem copies_file {items : List (Path × Text)} {t t' : Files ByteArray}
    (h : items.foldlM (copyFile sys run) t = .ok t') : ∀ item ∈ items, item.1 ∈ run.tree.paths := by
  induction items generalizing t with
  | nil => exact fun item hi => absurd hi List.not_mem_nil
  | cons a items ih =>
    rw [List.foldlM_cons] at h
    obtain ⟨t1, hcopy, h⟩ := Checks.bind_ok.mp h
    intro item hi
    obtain rfl | hi := List.mem_cons.mp hi
    · apply Files.file_isSome.mp
      unfold copyFile at hcopy
      cases hfile : run.tree.file item.1 with
      | none =>
        rw [hfile] at hcopy
        cases hcopy
      | some data => rfl
    · exact ih h item hi

variable (sys) in
/-- **Files that keep their own paths are all copied.**  The tree that is staged stays a part of
the run, which has room for each of its files. -/
theorem copies_ok {items : List (Path × Text)}
    (h : ∀ item ∈ items, item.1 ∈ run.tree.paths ∧ plainPath item.2 = some item.1)
    (t : Files ByteArray) (ht : ∀ p ∈ t.paths, p ∈ run.tree.paths) :
    ∃ t', items.foldlM (copyFile sys run) t = .ok t' ∧
      ∀ p, t'.file p = if p ∈ items.map Prod.fst then run.tree.file p else t.file p := by
  induction items generalizing t with
  | nil => exact ⟨t, rfl, fun p => (if_neg List.not_mem_nil).symm⟩
  | cons a items ih =>
    obtain ⟨hin, hplain⟩ := h a List.mem_cons_self
    obtain ⟨data, hdata⟩ := Option.isSome_iff_exists.mp (Files.file_isSome.mpr hin)
    have hroom : t.Room a.1 := ⟨Files.proper_of_mem hin, fun q hq =>
      ⟨fun hpre => Files.apart_paths (ht q hq) hin hpre,
        fun hpre => (Files.apart_paths hin (ht q hq) hpre).symm⟩⟩
    have hcopy : copyFile sys run t a = .ok (t.put a.1 data hroom) := by
      unfold copyFile writeAt
      simp only [hdata, hplain]
      exact dif_pos hroom
    obtain ⟨t', hfold, hfile⟩ := ih (fun item hi => h item (List.mem_cons_of_mem _ hi))
      (t.put a.1 data hroom) (fun p hp => by
        obtain rfl | hp := Files.mem_paths_put hp
        · exact hin
        · exact ht p hp)
    refine ⟨t', ?_, fun p => ?_⟩
    · rw [List.foldlM_cons, hcopy]
      exact hfold
    · rw [hfile, Files.file_put]
      by_cases he : p = a.1
      · simp [he, hdata]
      · have hmem : p ∈ (a :: items).map Prod.fst ↔ p ∈ items.map Prod.fst := by
          rw [List.map_cons, List.mem_cons]
          exact or_iff_right he
        simp only [hmem, if_neg he]

/-- the files have room for the manifest: none is called so, and none is below such a name -/
theorem sums_room {t : Files ByteArray} (h : ∀ p ∈ t.paths, p.head? ≠ some sumsName) :
    t.Room [sumsName] := by
  have hproper : Proper [sumsName] := by decide +kernel
  refine ⟨hproper, fun q hq => ⟨fun hpre => ?_, fun hpre => ?_⟩⟩
  · obtain rfl | ⟨rest, rfl, hrest⟩ := List.prefix_cons_iff.mp hpre
    · exact absurd rfl (Files.proper_of_mem hq).1
    · rw [List.prefix_nil.mp hrest]
  · obtain ⟨rest, rfl⟩ := hpre
    exact absurd rfl (h _ hq)

end

end Moagan.Telemetry
