import Moagan.Atomic.Commit
import Moagan.Lib.Evict

/-!
# The response cache (`src/llm/cache/mod.rs`, `src/llm/cache/sharded.rs`)

* `CacheEntry`, `Codec`          an entry, and `serde_json` on it
* `pathFor`                      where the entry of a key is
* `isCacheFile_metaPath`         a sidecar is no entry
* `lookup`                       reads the entry and writes it back with a new time of use
* `store`                        writes the entry, then evicts
* `enumerateCacheEntries`        the files that the eviction counts
* `evictLru`, `removeOldest`     the least recently touched ones go first
* `Answers`                      what the system answers during one call

The paths of the walk are a list, in the order in which the walk comes to the files.
-/

namespace Moagan.Cache

open FileSystem Atomic

structure Usage where
  inputTokens : UInt64
  outputTokens : UInt64
  cacheRead : UInt64
  cacheCreation : UInt64
deriving DecidableEq, Repr

structure LlmResponse where
  text : String
  finishReason : Option String
  truncated : Bool
  usage : Usage
  httpStatus : UInt16
deriving DecidableEq, Repr

structure CacheEntry where
  schemaVersion : String
  cacheKey : String
  provider : String
  model : String
  response : LlmResponse
  usage : Usage
  createdUnix : ℤ
  staleAtUnix : Option ℤ
  touchedAtUnix : Option ℤ
deriving DecidableEq, Repr

def CacheEntry.SCHEMA_VERSION : String := "v1"

def CacheEntry.isFresh (e : CacheEntry) (nowUnix : ℤ) : Bool :=
  match e.staleAtUnix with
  | none => true
  | some t => t > nowUnix

structure CacheConfig where
  root : Path
  noStore : Bool
  ttlSecs : Option UInt64
  maxBytes : Option ℕ

/-- `serde_json` on an entry -/
structure Codec where
  toVec : CacheEntry → Bytes
  fromSlice : Bytes → Option CacheEntry

inductive CacheError where
  | read (path : Path)
  | decode (path : Path)
  | mkdir (path : Path)
  | readDir (path : Path)
  | remove (path : Path)
  | write (e : IoError)
deriving DecidableEq, Repr

/-! ## 64-bit times -/

def i64Min : ℤ := -2 ^ 63

def i64Max : ℤ := 2 ^ 63 - 1

/-- `as i64` -/
def asI64 (n : UInt64) : ℤ := (n.toNat : ℤ).bmod (2 ^ 64)

def saturatingAdd (a b : ℤ) : ℤ := max i64Min (min i64Max (a + b))

example : saturatingAdd 1700000000 (asI64 3600) = 1700003600 := by decide

/-! ## paths -/

/-- `Path::join` -/
def join (base path : Path) : Path :=
  if path.toList.head? = some '/' then path
  else if base = "" ∨ base.toList.getLast? = some '/' then base ++ path
  else base ++ "/" ++ path

def SHARD_HEX_LEN : ℕ := 2

/-- the keys are hexadecimal, so that their bytes are characters -/
def shardFor (key : String) : String := String.ofList (key.toList.take SHARD_HEX_LEN)

def pathFor (root : Path) (key : String) : Path := join (join root (shardFor key)) (key ++ ".json")

example : pathFor "cache" "abcd" = "cache/ab/abcd.json" := by decide

def fileName (p : Path) : List Char := (p.toList.reverse.takeWhile (· ≠ '/')).reverse

/-- in front of the last dot of a file name, and behind it -/
def rsplitFileAtDot (file : List Char) : Option (List Char) × Option (List Char) :=
  if file = ['.', '.'] then (some file, none)
  else
    let after := (file.reverse.takeWhile (· ≠ '.')).reverse
    let before := match file.reverse.dropWhile (· ≠ '.') with
      | [] => none
      | _ :: rest => some rest.reverse
    if before = some [] then (some file, none) else (before, some after)

def extension (p : Path) : Option (List Char) :=
  (rsplitFileAtDot (fileName p)).1.bind fun _ => (rsplitFileAtDot (fileName p)).2

def fileStem (p : Path) : Option (List Char) :=
  (rsplitFileAtDot (fileName p)).1.or (rsplitFileAtDot (fileName p)).2

def isJson (p : Path) : Bool := extension p = some "json".toList

def isSidecar (p : Path) : Bool := (fileStem p).any fun stem => ".meta".toList.isSuffixOf stem

/-- the files that the walk collects -/
def isCacheFile (p : Path) : Bool := isJson p && (fileStem p).isSome && !isSidecar p

theorem isJson_of_isCacheFile {p : Path} (h : isCacheFile p = true) : isJson p = true := by
  unfold isCacheFile at h
  simp only [Bool.and_eq_true] at h
  exact h.1.1

structure CacheFileStat where
  path : Path
  sizeBytes : ℕ
  touchedAtUnix : Option ℤ
deriving DecidableEq, Repr

section
variable (K : Crates) (D : Codec) (c : CacheConfig)

/-- a file that is no entry has no time of use -/
def statOf (p : Path) (raw : Bytes) : CacheFileStat where
  path := p
  sizeBytes := raw.length
  touchedAtUnix := (D.fromSlice raw).bind CacheEntry.touchedAtUnix

def enumerateCacheEntries (unreadable : Path → Bool) (fs : Disk) :
    List Path → Except CacheError (List CacheFileStat)
  | [] => .ok []
  | p :: ps =>
    if isCacheFile p then
      match if unreadable p then none else fs p with
      | none => .error (.read p)
      | some raw =>
        match enumerateCacheEntries unreadable fs ps with
        | .ok out => .ok (statOf D p raw :: out)
        | .error e => .error e
    else enumerateCacheEntries unreadable fs ps

/-! ## the eviction -/

/-- a file without a time of use is older than all others -/
def CacheFileStat.lastTouched (e : CacheFileStat) : ℤ := e.touchedAtUnix.getD i64Min

/-- `sort_by_key`, which is stable -/
def sortByTouched (entries : List CacheFileStat) : List CacheFileStat :=
  entries.mergeSort fun a b => a.lastTouched ≤ b.lastTouched

def removeFile (fs : Disk) (p : Path) : Option Disk :=
  (fs p).map fun _ => Function.update fs p none

def removeOldest (cap : ℕ) (irremovable : Path → Bool) :
    ℕ → List CacheFileStat → Disk → Disk × Except CacheError Unit
  | _, [], fs => (fs, .ok ())
  | current, e :: es, fs =>
    if current ≤ cap then (fs, .ok ())
    else
      match if irremovable e.path then none else removeFile fs e.path with
      | none => (fs, .error (.remove e.path))
      | some fs' => removeOldest cap irremovable (current - e.sizeBytes) es fs'

/-- what the system answers during one call; a walk that fails lists nothing -/
structure Answers where
  now : ℤ
  touched : ℤ
  sealedAt : ℤ
  nonce : UInt64
  mkdirFails : Bool
  refused : ℕ → Bool
  walk : Option (List Path)
  unreadable : Path → Bool
  irremovable : Path → Bool

def evictLru (a : Answers) (fs : Disk) : Disk × Except CacheError Unit :=
  match c.maxBytes with
  | none => (fs, .ok ())
  | some cap =>
    match a.walk with
    | none => (fs, .error (.readDir c.root))
    | some paths =>
      match enumerateCacheEntries D a.unreadable fs paths with
      | .error e => (fs, .error e)
      | .ok entries =>
        let total := Evict.total CacheFileStat.sizeBytes entries
        if total ≤ cap then (fs, .ok ())
        else removeOldest cap a.irremovable total (sortByTouched entries) fs

/-! ## the calls -/

/-- `AtomicWriter::new()` -/
def writer : AtomicWriter := { fsyncOnCommit := true }

/-- the entry with a new time of use -/
def CacheEntry.touch (e : CacheEntry) (nowUnix : ℤ) : CacheEntry :=
  { e with touchedAtUnix := some nowUnix }

def lookup (a : Answers) (fs : Disk) (cacheKey : String) :
    Disk × Except CacheError (Option CacheEntry) :=
  if c.noStore then (fs, .ok none)
  else
    let path := pathFor c.root cacheKey
    match fs path with
    | none => (fs, .ok none)
    | some raw =>
      if a.unreadable path then (fs, .error (.read path))
      else
        match D.fromSlice raw with
        | none => (fs, .error (.decode path))
        | some entry =>
          if entry.isFresh a.now then
            match writer.write K a.refused fs path a.nonce (D.toVec (entry.touch a.touched))
                a.sealedAt with
            | (fs', .ok _) => (fs', .ok (some (entry.touch a.touched)))
            | (fs', .error e) => (fs', .error (.write e))
          else (fs, .ok none)

/-- the entry that a store writes -/
def newEntry (cacheKey provider model : String) (resp : LlmResponse) (createdUnix : ℤ) :
    CacheEntry where
  schemaVersion := CacheEntry.SCHEMA_VERSION
  cacheKey := cacheKey
  provider := provider
  model := model
  response := resp
  usage := resp.usage
  createdUnix := createdUnix
  staleAtUnix := c.ttlSecs.map fun ttl => saturatingAdd createdUnix (asI64 ttl)
  touchedAtUnix := some createdUnix

def store (a : Answers) (fs : Disk) (cacheKey provider model : String) (resp : LlmResponse) :
    Disk × Except CacheError Unit :=
  if c.noStore then (fs, .ok ())
  else
    let path := pathFor c.root cacheKey
    match if a.mkdirFails then parent path else none with
    | some dir => (fs, .error (.mkdir dir))
    | none =>
      match writer.write K a.refused fs path a.nonce
          (D.toVec (newEntry c cacheKey provider model resp a.now)) a.sealedAt with
      | (fs', .error e) => (fs', .error (.write e))
      | (fs', .ok _) => if c.maxBytes.isSome then evictLru D c a fs' else (fs', .ok ())

end

/-! ## the text of an entry -/

def jsonUsage (u : Usage) : String :=
  String.join ["\x7b\"input_tokens\":", toString u.inputTokens.toNat,
    ",\"output_tokens\":", toString u.outputTokens.toNat,
    ",\"cache_read\":", toString u.cacheRead.toNat,
    ",\"cache_creation\":", toString u.cacheCreation.toNat, "\x7d"]

/-- the text of an entry whose strings need no escape -/
def jsonEntry (e : CacheEntry) : Bytes :=
  let text := ["\x7b\"schema_version\":\"", e.schemaVersion, "\",\"cache_key\":\"", e.cacheKey,
    "\",\"provider\":\"", e.provider, "\",\"model\":\"", e.model,
    "\",\"response\":\x7b\"text\":\"", e.response.text, "\",\"finish_reason\":",
    (e.response.finishReason.map fun r => "\"" ++ r ++ "\"").getD "null",
    ",\"truncated\":", if e.response.truncated then "true" else "false",
    ",\"usage\":", jsonUsage e.response.usage,
    ",\"http_status\":", toString e.response.httpStatus.toNat,
    "\x7d,\"usage\":", jsonUsage e.usage, ",\"created_unix\":", toString e.createdUnix,
    (e.staleAtUnix.map fun t => ",\"stale_at_unix\":" ++ toString t).getD "",
    (e.touchedAtUnix.map fun t => ",\"touched_at_unix\":" ++ toString t).getD "", "\x7d"]
  text.flatMap fun s => s.toList.map fun c => c.toNat.toUInt8

def sampleKey : String := "new"

def sampleResponse : LlmResponse where
  text := "ok"
  finishReason := some "end_turn"
  truncated := false
  usage := ⟨10, 2, 0, 0⟩
  httpStatus := 200

end Moagan.Cache
