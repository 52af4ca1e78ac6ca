import Moagan.Atomic.Concurrent
import Moagan.Llm.Cache

/-!
# Concurrent calls on one key of the cache

Every file operation of a call is one step, and so is every byte of a write; the steps of different
calls interleave in any order.  A rename replaces a file at once.

* `Phase`            between which file operations a call stands
* `Reply`            what the system answers to one of them
* `Sys.step`         a call begins, or makes its next operation
* `Nexted`           everything that an operation can do
* `not_isCacheFile_of_isTmp`   the eviction removes no temporary file

The stores of the other keys take part through the files that a walk finds.
-/

namespace Moagan.Cache

open FileSystem Atomic

/-! ## the calls -/

inductive Phase where
  | idle
  /-- a lookup, in front of `exists` -/
  | checking
  /-- in front of `read` -/
  | reading
  /-- it writes the entry back -/
  | touching (entry : CacheEntry) (nonce : UInt64) (rest : List (Op Path UInt8))
  /-- a store, in front of `create_dir_all` -/
  | making (entry : CacheEntry)
  | storing (entry : CacheEntry) (nonce : UInt64) (rest : List (Op Path UInt8))
  /-- the eviction, in front of `read_dir` -/
  | listing
  /-- it reads one file after the other -/
  | walking (files : List Path) (found : List CacheFileStat)
  | evicting (current : ℕ) (rest : List CacheFileStat)
deriving DecidableEq

/-- a call that returns, or goes on -/
inductive Outcome where
  | going
  | missed
  | hit (entry : CacheEntry)
  | stored
  | failed
deriving DecidableEq

structure Reply where
  refused : Bool
  now : ℤ
  touched : ℤ
  sealedAt : ℤ
  nonce : UInt64
  files : List Path

structure Sys (ι : Type) where
  disk : Disk
  phase : ι → Phase

/-- `next` is the next operation of the call under way -/
inductive CallEvent (ι : Type) where
  | lookup (i : ι)
  | store (i : ι) (provider model : String) (resp : LlmResponse) (createdUnix : ℤ)
  | next (i : ι) (x : Reply)

section
variable {ι : Type} [DecidableEq ι] (K : Crates) (D : Codec) (c : CacheConfig) (key : String)

def Sys.goto (s : Sys ι) (i : ι) (ph : Phase) : Sys ι :=
  { s with phase := Function.update s.phase i ph }

def Sys.write (s : Sys ι) (i : ι) (fs : Disk) (ph : Phase) : Sys ι :=
  { disk := fs, phase := Function.update s.phase i ph }

/-- the call returns -/
def Sys.done (s : Sys ι) (i : ι) (o : Outcome) : Option (Sys ι × Outcome) := some (s.goto i .idle, o)

/-- what the system does not refuse -/
def Reply.grant {α : Type*} (x : Reply) (r : Option α) : Option α := if x.refused then none else r

/-- the operations of `AtomicWriter::write` on the entry -/
def writeBack (entry : CacheEntry) (x : Reply) : List (Op Path UInt8) :=
  writer.steps K (pathFor c.root key) x.nonce (D.toVec entry) x.sealedAt

/-- the next operation of a call -/
def Sys.next (s : Sys ι) (i : ι) (x : Reply) : Option (Sys ι × Outcome) :=
  let path := pathFor c.root key
  match s.phase i with
  | .idle => none
  | .checking =>
    match x.grant (s.disk path) with
    | none => s.done i .missed
    | some _ => some (s.goto i .reading, .going)
  | .reading =>
    match (x.grant (s.disk path)).bind D.fromSlice with
    | none => s.done i .failed
    | some entry =>
      if entry.isFresh x.now then
        if (parent path).isNone then s.done i .failed
        else
          some (s.goto i (.touching (entry.touch x.touched) x.nonce
            (writeBack K D c key (entry.touch x.touched) x)), .going)
      else s.done i .missed
  | .touching entry _ [] => s.done i (.hit entry)
  | .touching entry nonce (op :: rest) =>
    match x.grant (op.apply s.disk) with
    | none => s.done i .failed
    | some fs => some (s.write i fs (.touching entry nonce rest), .going)
  | .making entry =>
    if x.refused || (parent path).isNone then s.done i .failed
    else some (s.goto i (.storing entry x.nonce (writeBack K D c key entry x)), .going)
  | .storing _ _ [] =>
    if c.maxBytes.isSome then some (s.goto i .listing, .going) else s.done i .stored
  | .storing entry nonce (op :: rest) =>
    match x.grant (op.apply s.disk) with
    | none => s.done i .failed
    | some fs => some (s.write i fs (.storing entry nonce rest), .going)
  | .listing =>
    if x.refused then s.done i .failed else some (s.goto i (.walking x.files []), .going)
  | .walking [] found =>
    let total := Evict.total CacheFileStat.sizeBytes found
    if total ≤ c.maxBytes.getD 0 then s.done i .stored
    else some (s.goto i (.evicting total (sortByTouched found)), .going)
  | .walking (p :: ps) found =>
    if isCacheFile p then
      match x.grant (s.disk p) with
      | none => s.done i .failed
      | some raw => some (s.goto i (.walking ps (found ++ [statOf D p raw])), .going)
    else some (s.goto i (.walking ps found), .going)
  | .evicting _ [] => s.done i .stored
  | .evicting current (e :: es) =>
    if current ≤ c.maxBytes.getD 0 then s.done i .stored
    else
      match x.grant (removeFile s.disk e.path) with
      | none => s.done i .failed
      | some fs => some (s.write i fs (.evicting (current - e.sizeBytes) es), .going)

/-- a cache that stores nothing returns at once -/
def Sys.step (s : Sys ι) : CallEvent ι → Option (Sys ι × Outcome)
  | .lookup i =>
    if s.phase i = .idle then
      if c.noStore then some (s, .missed) else some (s.goto i .checking, .going)
    else none
  | .store i provider model resp createdUnix =>
    if s.phase i = .idle then
      if c.noStore then some (s, .stored)
      else some (s.goto i (.making (newEntry c key provider model resp createdUnix)), .going)
    else none
  | .next i x => s.next K D c key i x

/-- no call is under way -/
def Sys.init (fs : Disk) : Sys ι := { disk := fs, phase := fun _ => .idle }

/-- a call that changes no file -/
theorem goto_eq (s : Sys ι) (i : ι) (ph : Phase) : s.goto i ph = s.write i s.disk ph := rfl

@[simp] theorem write_phase_self (s : Sys ι) (i : ι) (fs : Disk) (ph : Phase) :
    (s.write i fs ph).phase i = ph := by
  show Function.update s.phase i ph i = ph
  exact Function.update_self ..

theorem write_phase_of_ne (s : Sys ι) {i j : ι} (h : j ≠ i) (fs : Disk) (ph : Phase) :
    (s.write i fs ph).phase j = s.phase j := by
  show Function.update s.phase i ph j = s.phase j
  exact Function.update_of_ne h ..

/-! ## what an operation can do -/

def Phase.isStore : Phase → Bool
  | .making _ | .storing _ _ _ | .listing | .walking _ _ | .evicting _ _ => true
  | _ => false

/-- a store behind its write -/
def Phase.isWritten : Phase → Bool
  | .storing _ _ [] | .listing | .walking _ _ | .evicting _ _ => true
  | _ => false

/-- the nonce of the write under way -/
def Phase.nonce : Phase → Option UInt64
  | .touching _ n _ | .storing _ n _ => some n
  | _ => none

variable {K D c key}

inductive Nexted (K : Crates) (D : Codec) (c : CacheConfig) (key : String) (s : Sys ι) (i : ι)
    (x : Reply) : Phase → Sys ι → Outcome → Prop
  | missed (ph : Phase) : ph.isStore = false → Nexted K D c key s i x ph (s.goto i .idle) .missed
  | failed (ph : Phase) : Nexted K D c key s i x ph (s.goto i .idle) .failed
  | found : Nexted K D c key s i x .checking (s.goto i .reading) .going
  | read (raw : Bytes) (entry : CacheEntry) : s.disk (pathFor c.root key) = some raw →
      D.fromSlice raw = some entry → Nexted K D c key s i x .reading
        (s.goto i (.touching (entry.touch x.touched) x.nonce
          (writeBack K D c key (entry.touch x.touched) x))) .going
  | touched (entry : CacheEntry) (nonce : UInt64) (op : Op Path UInt8) (rest : List (Op Path UInt8))
      (fs : Disk) : x.refused = false → op.apply s.disk = some fs → Nexted K D c key s i x
        (.touching entry nonce (op :: rest)) (s.write i fs (.touching entry nonce rest)) .going
  | hit (entry : CacheEntry) (nonce : UInt64) :
      Nexted K D c key s i x (.touching entry nonce []) (s.goto i .idle) (.hit entry)
  | made (entry : CacheEntry) : (parent (pathFor c.root key)).isSome → Nexted K D c key s i x
      (.making entry) (s.goto i (.storing entry x.nonce (writeBack K D c key entry x))) .going
  | wrote (entry : CacheEntry) (nonce : UInt64) (op : Op Path UInt8) (rest : List (Op Path UInt8))
      (fs : Disk) : op.apply s.disk = some fs → Nexted K D c key s i x
        (.storing entry nonce (op :: rest)) (s.write i fs (.storing entry nonce rest)) .going
  | listing (entry : CacheEntry) (nonce : UInt64) :
      Nexted K D c key s i x (.storing entry nonce []) (s.goto i .listing) .going
  | walking : Nexted K D c key s i x .listing (s.goto i (.walking x.files [])) .going
  | walked (p : Path) (ps : List Path) (found found' : List CacheFileStat) :
      (∀ e ∈ found', e ∈ found ∨ isCacheFile e.path = true) → Nexted K D c key s i x
        (.walking (p :: ps) found) (s.goto i (.walking ps found')) .going
  | evicting (found : List CacheFileStat) (current : ℕ) : Nexted K D c key s i x (.walking [] found)
      (s.goto i (.evicting current (sortByTouched found))) .going
  | evicted (current current' : ℕ) (e : CacheFileStat) (es : List CacheFileStat) (fs : Disk) :
      removeFile s.disk e.path = some fs → Nexted K D c key s i x (.evicting current (e :: es))
        (s.write i fs (.evicting current' es)) .going
  | stored (ph : Phase) : ph.isWritten = true → Nexted K D c key s i x ph (s.goto i .idle) .stored

theorem grant_some {α : Type*} {x : Reply} {r : Option α} {a : α} (h : x.grant r = some a) :
    x.refused = false ∧ r = some a := by
  unfold Reply.grant at h
  split_ifs at h with hx
  exact ⟨by simpa using hx, h⟩

theorem next_cases {s s' : Sys ι} {i : ι} {x : Reply} {o : Outcome}
    (h : s.next K D c key i x = some (s', o)) : Nexted K D c key s i x (s.phase i) s' o := by
  unfold Sys.next at h
  simp only at h
  generalize s.phase i = ph at h ⊢
  have done : ∀ {o' : Outcome}, s.done i o' = some (s', o) → s' = s.goto i .idle ∧ o = o' := by
    intro o' h
    have h := Prod.mk.inj (Option.some.inj h)
    exact ⟨h.1.symm, h.2.symm⟩
  have going : ∀ {s₁ : Sys ι}, some (s₁, Outcome.going) = some (s', o) → s' = s₁ ∧ o = .going := by
    intro s₁ h
    have h := Prod.mk.inj (Option.some.inj h)
    exact ⟨h.1.symm, h.2.symm⟩
  have failed : s.done i .failed = some (s', o) → Nexted K D c key s i x ph s' o := by
    intro h
    obtain ⟨rfl, rfl⟩ := done h
    exact .failed ph
  cases ph with
  | idle => cases h
  | checking =>
    simp only at h
    cases hr : x.grant (s.disk (pathFor c.root key)) with
    | none =>
      rw [hr] at h
      obtain ⟨rfl, rfl⟩ := done h
      exact .missed _ rfl
    | some raw =>
      rw [hr] at h
      obtain ⟨rfl, rfl⟩ := going h
      exact .found
  | reading =>
    simp only at h
    cases hr : (x.grant (s.disk (pathFor c.root key))).bind D.fromSlice with
    | none =>
      rw [hr] at h
      exact failed h
    | some entry =>
      rw [hr] at h
      simp only at h
      obtain ⟨raw, hraw, hentry⟩ := Option.bind_eq_some_iff.mp hr
      split_ifs at h with hf hp
      · exact failed h
      · obtain ⟨rfl, rfl⟩ := going h
        exact .read raw entry (grant_some hraw).2 hentry
      · obtain ⟨rfl, rfl⟩ := done h
        exact .missed _ rfl
  | touching entry nonce rest =>
    cases rest with
    | nil =>
      obtain ⟨rfl, rfl⟩ := done h
      exact .hit entry nonce
    | cons op rest =>
      simp only at h
      cases hr : x.grant (op.apply s.disk) with
      | none =>
        rw [hr] at h
        exact failed h
      | some fs =>
        rw [hr] at h
        obtain ⟨rfl, rfl⟩ := going h
        exact .touched entry nonce op rest fs (grant_some hr).1 (grant_some hr).2
  | making entry =>
    simp only at h
    split_ifs at h with hp
    · exact failed h
    · obtain ⟨rfl, rfl⟩ := going h
      refine .made entry ?_
      simp only [Bool.or_eq_true, not_or] at hp
      exact Option.isSome_iff_ne_none.mpr (by simpa using hp.2)
  | storing entry nonce rest =>
    cases rest with
    | nil =>
      simp only at h
      split_ifs at h with hc
      · obtain ⟨rfl, rfl⟩ := going h
        exact .listing entry nonce
      · obtain ⟨rfl, rfl⟩ := done h
        exact .stored _ rfl
    | cons op rest =>
      simp only at h
      cases hr : x.grant (op.apply s.disk) with
      | none =>
        rw [hr] at h
        exact failed h
      | some fs =>
        rw [hr] at h
        obtain ⟨rfl, rfl⟩ := going h
        exact .wrote entry nonce op rest fs (grant_some hr).2
  | listing =>
    simp only at h
    split_ifs at h with hr
    · exact failed h
    · obtain ⟨rfl, rfl⟩ := going h
      exact .walking
  | walking files found =>
    cases files with
    | nil =>
      simp only at h
      split_ifs at h with hc
      · obtain ⟨rfl, rfl⟩ := done h
        exact .stored _ rfl
      · obtain ⟨rfl, rfl⟩ := going h
        exact .evicting found _
    | cons p ps =>
      simp only at h
      split_ifs at h with hp
      · cases hr : x.grant (s.disk p) with
        | none =>
          rw [hr] at h
          exact failed h
        | some raw =>
          rw [hr] at h
          obtain ⟨rfl, rfl⟩ := going h
          refine .walked p ps found _ fun e he => ?_
          obtain he | he := List.mem_append.mp he
          · exact Or.inl he
          · obtain rfl := List.mem_singleton.mp he
            exact Or.inr hp
      · obtain ⟨rfl, rfl⟩ := going h
        exact .walked p ps found found fun e he => Or.inl he
  | evicting current es =>
    cases es with
    | nil =>
      obtain ⟨rfl, rfl⟩ := done h
      exact .stored _ rfl
    | cons e es =>
      simp only at h
      split_ifs at h with hc
      · obtain ⟨rfl, rfl⟩ := done h
        exact .stored _ rfl
      · cases hr : x.grant (removeFile s.disk e.path) with
        | none =>
          rw [hr] at h
          exact failed h
        | some fs =>
          rw [hr] at h
          obtain ⟨rfl, rfl⟩ := going h
          exact .evicted current _ e es fs (grant_some hr).2

/-! ## the names that a walk collects -/

theorem fileName_append (p : Path) {t : Path} (ht : '/' ∉ t.toList) :
    fileName (p ++ t) = fileName p ++ t.toList := by
  have hall : ∀ a ∈ t.toList.reverse, decide (a ≠ '/') = true := by
    intro a ha
    have hmem := List.mem_reverse.mp ha
    exact decide_eq_true fun e => ht (e ▸ hmem)
  rw [fileName, fileName, String.toList_append, List.reverse_append, List.takeWhile_append_of_pos hall,
    List.reverse_append, List.reverse_reverse]

/-- what is behind the last dot -/
theorem extension_append (p : Path) {t : Path} (hslash : '/' ∉ t.toList) (hdot : '.' ∉ t.toList)
    (hp : extension (p ++ ("." ++ t)) = some "json".toList) : t.toList = "json".toList := by
  have hall : ∀ a ∈ t.toList.reverse, decide (a ≠ '.') = true := by
    intro a ha
    have hmem := List.mem_reverse.mp ha
    exact decide_eq_true fun e => hdot (e ▸ hmem)
  have hname : fileName (p ++ ("." ++ t)) = fileName p ++ '.' :: t.toList := by
    rw [fileName_append]
    · rw [String.toList_append]
      rfl
    · rw [String.toList_append, List.mem_append, not_or]
      exact ⟨by decide, hslash⟩
  obtain ⟨_, -, hafter⟩ := Option.bind_eq_some_iff.mp hp
  rw [hname, rsplitFileAtDot] at hafter
  split_ifs at hafter
  have hrev : ((fileName p ++ '.' :: t.toList).reverse.takeWhile fun a => decide (a ≠ '.'))
      = t.toList.reverse := by
    rw [List.reverse_append, List.reverse_cons, List.append_assoc,
      List.takeWhile_append_of_pos hall]
    simp
  simp only [hrev, List.reverse_reverse] at hafter
  split_ifs at hafter
  exact Option.some.inj hafter

theorem isCacheFile_tmp (p : Path) (nonce : UInt64) :
    isCacheFile (p ++ (".tmp." ++ lowerHex 16 nonce.toNat)) = false := by
  have hdigit : ∀ d < 16, Nat.digitChar d ≠ '/' ∧ Nat.digitChar d ≠ '.' := by decide
  have hslash : '/' ∉ (lowerHex 16 nonce.toNat).toList := by
    intro h
    obtain ⟨d, hd, e⟩ := mem_lowerHex h
    exact (hdigit d hd).1 e.symm
  have hdot : '.' ∉ (lowerHex 16 nonce.toNat).toList := by
    intro h
    obtain ⟨d, hd, e⟩ := mem_lowerHex h
    exact (hdigit d hd).2 e.symm
  rw [Bool.eq_false_iff]
  intro h
  have hjson : isJson (p ++ (".tmp." ++ lowerHex 16 nonce.toNat)) = true := isJson_of_isCacheFile h
  have hsplit : p ++ (".tmp." ++ lowerHex 16 nonce.toNat)
      = (p ++ ".tmp") ++ ("." ++ lowerHex 16 nonce.toNat) := by
    rw [String.append_assoc]
    congr 1
  rw [isJson, hsplit] at hjson
  have hext := extension_append _ hslash hdot (by simpa using hjson)
  have hlen := lowerHex_length 16 nonce.toNat
  rw [hext] at hlen
  exact absurd hlen (by decide)

/-- **The eviction removes no temporary file.** -/
theorem not_isCacheFile_of_isTmp {dest p : Path} {nonce : UInt64} (h : IsTmp dest nonce p) :
    isCacheFile p = false := by
  obtain rfl | rfl := h
  · exact isCacheFile_tmp dest nonce
  · exact isCacheFile_tmp (metaPath dest) nonce

end

end Moagan.Cache
