import Mathlib.Logic.Function.Iterate
import Moagan.Lib.FileSystem

/-!
# The atomic writer (`src/atomic/writer.rs`)

* `Crates`                     what the writer takes from `blake3` and `serde_json`
* `AtomicWriter.staging`       steps 1 to 4: both temporary files
* `AtomicWriter.steps`         the whole sequence, with the two renames
* `AtomicWriter.write`         the call, with the I/O errors it reports
* `readWithMeta`               the read that checks the data against its sidecar

A stop is a prefix of `steps`; the bytes of a `write_all` are steps of their own.
-/

namespace Moagan.Atomic

open FileSystem

abbrev Path := String
abbrev Bytes := List UInt8
abbrev Disk := Files Path UInt8

structure ArtifactMeta where
  schemaVersion : String
  sizeBytes : UInt64
  blake3Hex : String
  sealedAtUnix : ℤ
  crc32cHex : String
deriving DecidableEq, Repr

def ArtifactMeta.SCHEMA_VERSION : String := "v1"

inductive IoError where
  | noParent (path : Path)
  | createDir (path : Path)
  | createFile (path : Path)
  | write (path : Path)
  | sync (path : Path)
  | rename (src dst : Path)
  | openDir (path : Path)
  | read (path : Path)
  | deserializeMeta
  | metaMismatch (path : Path) (expected got : ArtifactMeta)
deriving DecidableEq, Repr

/-- `blake3` is the digest; `toVec` and `fromSlice` are `serde_json` on the sidecar -/
structure Crates where
  blake3 : Bytes → Bytes
  toVec : ArtifactMeta → Bytes
  fromSlice : Bytes → Option ArtifactMeta

/-! ## fingerprints -/

/-- `{:0width$x}` -/
def lowerHex (width n : ℕ) : String :=
  let digits := Nat.toDigits 16 n
  String.ofList (List.replicate (width - digits.length) '0' ++ digits)

/-- `hex::encode` -/
def hexEncode (bytes : Bytes) : String :=
  String.join (bytes.map fun b => lowerHex 2 b.toNat)

/-- one turn of the inner loop that fills `TABLE` -/
def tableStep (c : UInt32) : UInt32 :=
  if c &&& 1 ≠ 0 then (0x82f63b78 : UInt32) ^^^ (c >>> 1) else c >>> 1

/-- `TABLE[i]` -/
def table (i : UInt32) : UInt32 := tableStep^[8] i

def crc32c (data : Bytes) : UInt32 :=
  let crc := data.foldl
    (fun (crc : UInt32) b => (crc >>> 8) ^^^ table ((crc ^^^ b.toUInt32) &&& 0xff)) 0xffffffff
  crc ^^^ 0xffffffff

def crc32cHex (data : Bytes) : String := lowerHex 8 (crc32c data).toNat

-- "123456789"
example : crc32cHex [49, 50, 51, 52, 53, 54, 55, 56, 57] = "e3069283" := by decide +kernel

structure AtomicWriter where
  fsyncOnCommit : Bool
deriving DecidableEq, Repr

section
variable (K : Crates)

def computeMetaAt (data : Bytes) (sealedAtUnix : ℤ) : ArtifactMeta where
  schemaVersion := ArtifactMeta.SCHEMA_VERSION
  sizeBytes := data.length.toUInt64
  blake3Hex := hexEncode (K.blake3 data)
  sealedAtUnix := sealedAtUnix
  crc32cHex := crc32cHex data

/-- the version and the time of sealing are not compared -/
def dataFingerprintMatches (data : Bytes) (m : ArtifactMeta) : Bool :=
  if data.length.toUInt64 ≠ m.sizeBytes then false
  else if hexEncode (K.blake3 data) ≠ m.blake3Hex then false
  else if crc32cHex data ≠ m.crc32cHex then false
  else true

theorem dataFingerprintMatches_iff {data : Bytes} {m : ArtifactMeta} :
    dataFingerprintMatches K data m = true ↔ data.length.toUInt64 = m.sizeBytes ∧
      hexEncode (K.blake3 data) = m.blake3Hex ∧ crc32cHex data = m.crc32cHex := by
  unfold dataFingerprintMatches
  split_ifs <;> simp_all

theorem dataFingerprintMatches_computeMetaAt (data : Bytes) (t : ℤ) :
    dataFingerprintMatches K data (computeMetaAt K data t) = true :=
  (dataFingerprintMatches_iff K).mpr ⟨rfl, rfl, rfl⟩

/-- a sidecar is the one the writer would write iff it fits the data and its free fields agree -/
theorem eq_computeMetaAt_iff {data : Bytes} {m : ArtifactMeta} {t : ℤ} :
    m = computeMetaAt K data t ↔ dataFingerprintMatches K data m = true ∧
      m.schemaVersion = ArtifactMeta.SCHEMA_VERSION ∧ m.sealedAtUnix = t := by
  rw [dataFingerprintMatches_iff]
  constructor
  · rintro rfl
    exact ⟨⟨rfl, rfl, rfl⟩, rfl, rfl⟩
  · rintro ⟨⟨h1, h2, h3⟩, h4, h5⟩
    obtain ⟨v, n, b, s, c⟩ := m
    simp only at h1 h2 h3 h4 h5
    rw [computeMetaAt, h1, h2, h3, h4, h5]

/-! ## paths -/

/-- the components of a path, without `.` except in front -/
def components (path : Path) : List Path :=
  match path.toList.splitOn '/' with
  | [] => []
  | first :: rest =>
    ((if first = [] then [] else [first]) ++ rest.filter fun c => c ≠ [] ∧ c ≠ ['.']).map
      String.ofList

/-- `Path::parent`: nothing for the empty path and the root -/
def parent (path : Path) : Option Path :=
  let root := if path.toList.head? = some '/' then "/" else ""
  if components path = [] then none
  else some (root ++ "/".intercalate (components path).dropLast)

example : parent "runs/r1/th_0001.json" = some "runs/r1" := by decide +kernel

def metaPath (dest : Path) : Path := dest ++ ".meta.json"

def tmpPath (dest : Path) (nonce : UInt64) : Path :=
  dest ++ (".tmp." ++ lowerHex 16 nonce.toNat)

def tmpMetaPath (dest : Path) (nonce : UInt64) : Path :=
  metaPath dest ++ (".tmp." ++ lowerHex 16 nonce.toNat)

theorem append_ne_self (s : String) {t : String} (h : 0 < t.length) : s ++ t ≠ s := by
  intro e
  have := congrArg String.length e
  rw [String.length_append] at this
  omega

theorem tmp_length (n : ℕ) : 0 < (".tmp." ++ lowerHex 16 n).length := by
  rw [String.length_append]
  have : 0 < ".tmp.".length := by decide
  omega

theorem metaPath_ne_dest (dest : Path) : metaPath dest ≠ dest := append_ne_self _ (by decide)

theorem tmpPath_ne_dest (dest : Path) (nonce : UInt64) : tmpPath dest nonce ≠ dest :=
  append_ne_self _ (tmp_length _)

theorem tmpMetaPath_ne_metaPath (dest : Path) (nonce : UInt64) :
    tmpMetaPath dest nonce ≠ metaPath dest := append_ne_self _ (tmp_length _)

theorem tmpMetaPath_ne_dest (dest : Path) (nonce : UInt64) : tmpMetaPath dest nonce ≠ dest := by
  rw [tmpMetaPath, metaPath, String.append_assoc]
  refine append_ne_self _ ?_
  rw [String.length_append]
  have := tmp_length nonce.toNat
  omega

/-- two names behind one stem that differ in their first letters -/
theorem append_ne_append (s : String) {t u : String} (h : t.toList.take 2 ≠ u.toList.take 2) :
    s ++ t ≠ s ++ u := fun e => h (by rw [(String.append_right_inj s).mp e])

theorem tmpPath_ne_metaPath (dest : Path) (nonce : UInt64) : tmpPath dest nonce ≠ metaPath dest := by
  apply append_ne_append
  rw [String.toList_append]
  simp

theorem tmpPath_ne_tmpMetaPath (dest : Path) (nonce : UInt64) :
    tmpPath dest nonce ≠ tmpMetaPath dest nonce := by
  rw [tmpPath, tmpMetaPath, metaPath, String.append_assoc]
  apply append_ne_append
  rw [String.toList_append, String.toList_append]
  simp

/-! ## the write -/

/-- steps 1 to 4 -/
def AtomicWriter.staging (w : AtomicWriter) (dest : Path) (nonce : UInt64) (dir : Path)
    (data metaBytes : Bytes) : List (Op Path UInt8) :=
  let tmp := tmpPath dest nonce
  let tmpMeta := tmpMetaPath dest nonce
  [.mkdir dir]
    ++ .create tmp :: writeAll tmp data ++ (if w.fsyncOnCommit then [.sync tmp] else [])
    ++ .create tmpMeta :: writeAll tmpMeta metaBytes
    ++ (if w.fsyncOnCommit then [.sync tmpMeta] else [])

/-- step 7, `fsync_dir` -/
def AtomicWriter.sealing (w : AtomicWriter) (dir : Path) : List (Op Path UInt8) :=
  if w.fsyncOnCommit then [.openDir dir, .sync dir] else []

/-- the file operations of `write`, in their order; a destination without a parent has none -/
def AtomicWriter.steps (w : AtomicWriter) (dest : Path) (nonce : UInt64) (data : Bytes) (now : ℤ) :
    List (Op Path UInt8) :=
  match parent dest with
  | none => []
  | some dir =>
    w.staging dest nonce dir data (K.toVec (computeMetaAt K data now))
      ++ .rename (tmpPath dest nonce) dest
      :: .rename (tmpMetaPath dest nonce) (metaPath dest)
      :: w.sealing dir

/-- the error that `write` returns when an operation fails -/
def ioError : Op Path UInt8 → IoError
  | .mkdir dir => .createDir dir
  | .create p => .createFile p
  | .append p _ => .write p
  | .sync p => .sync p
  | .rename src dst => .rename src dst
  | .openDir dir => .openDir dir

/-- the operations up to the first that fails; `faults` says which ones the system refuses -/
def perform (faults : ℕ → Bool) : List (Op Path UInt8) → Disk → Disk × Option IoError
  | [], fs => (fs, none)
  | op :: ops, fs =>
    match if faults 0 then none else op.apply fs with
    | none => (fs, some (ioError op))
    | some fs' => perform (fun n => faults (n + 1)) ops fs'

def AtomicWriter.write (w : AtomicWriter) (faults : ℕ → Bool) (fs : Disk) (dest : Path)
    (nonce : UInt64) (data : Bytes) (now : ℤ) : Disk × Except IoError ArtifactMeta :=
  match parent dest with
  | none => (fs, .error (.noParent dest))
  | some _ =>
    match perform faults (w.steps K dest nonce data now) fs with
    | (fs', none) => (fs', .ok (computeMetaAt K data now))
    | (fs', some e) => (fs', .error e)

/-! ## the read -/

def readWithMeta (fs : Disk) (dest : Path) : Except IoError (Bytes × ArtifactMeta) :=
  match fs dest with
  | none => .error (.read dest)
  | some data =>
    match fs (metaPath dest) with
    | none => .error (.read (metaPath dest))
    | some metaBytes =>
      match K.fromSlice metaBytes with
      | none => .error .deserializeMeta
      | some m =>
        if dataFingerprintMatches K data m then .ok (data, m)
        else .error (.metaMismatch dest (computeMetaAt K data m.sealedAtUnix) m)

theorem readWithMeta_ok_iff {fs : Disk} {dest : Path} {data : Bytes} {m : ArtifactMeta} :
    readWithMeta K fs dest = .ok (data, m) ↔ fs dest = some data ∧
      (fs (metaPath dest)).bind K.fromSlice = some m ∧ dataFingerprintMatches K data m = true := by
  unfold readWithMeta
  cases fs dest with
  | none => simp
  | some d =>
    cases fs (metaPath dest) with
    | none => simp
    | some b =>
      show (match K.fromSlice b with | none => _ | some m => _) = _ ↔ _ ∧ K.fromSlice b = _ ∧ _
      cases K.fromSlice b with
      | none => simp
      | some m' =>
        dsimp only
        by_cases hm : dataFingerprintMatches K d m' = true
        · rw [if_pos hm]
          constructor
          · intro h
            obtain ⟨rfl, rfl⟩ := Prod.mk.inj (Except.ok.inj h)
            exact ⟨rfl, rfl, hm⟩
          · rintro ⟨h1, h2, -⟩
            rw [Option.some.inj h1, Option.some.inj h2]
        · rw [if_neg hm]
          constructor
          · intro h; cases h
          · rintro ⟨h1, h2, h3⟩
            rw [Option.some.inj h1, Option.some.inj h2] at hm
            exact absurd h3 hm

end
end Moagan.Atomic
