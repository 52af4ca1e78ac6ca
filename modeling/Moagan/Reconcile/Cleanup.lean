import Moagan.Atomic.SideBySide
import Moagan.Reconcile.Zombies

/-!
# Orphan cleanup beside writers (`cleanup_orphans` in `src/reconcile/mod.rs`)

A cleanup walks the run directories, plans by file names, and deletes what it planned; writers go on
meanwhile.

* `isAtomicTmp`, `isLockFile`   the two tests on names
* `Reserved`      the paths that pass one of them where the cleanup looks for it
* `World.step`    one file operation of a write, one file that a walk meets, one removal
* `Safe`          no removal takes a committed file or a temporary file that a write still needs
* `Unnoticed`     the writes go on as they would without the cleanup
* `cleanup_safe`  both hold when walks and writes keep apart
* `cleanup_deletes_live`  a walk that meets the temporary file of a write under way
-/

namespace Moagan.Reconcile

open FileSystem Moagan.Atomic

/-! ## names -/

def STALE_LOCK_SECS : ℤ := 3600

/-- `file_name` of a path that a walk yields: no slash at its end, no dots for directories -/
def fileName (p : Path) : List Char := (p.toList.reverse.takeWhile (· ≠ '/')).reverse

/-- `.tmp.` -/
def tmpMark : List Char := ['.', 't', 'm', 'p', '.']

/-- what stands behind the first mark -/
def afterTmp : List Char → Option (List Char)
  | [] => none
  | c :: cs =>
    if tmpMark.isPrefixOf (c :: cs) then some ((c :: cs).drop tmpMark.length) else afterTmp cs

/-- `is_ascii_hexdigit` -/
def isAsciiHexdigit (c : Char) : Bool :=
  c.isDigit || ('a' ≤ c && c ≤ 'f') || ('A' ≤ c && c ≤ 'F')

def isAtomicTmp (p : Path) : Bool :=
  match afterTmp (fileName p) with
  | none => false
  | some tail => !tail.isEmpty && tail.all isAsciiHexdigit

/-- `Path::extension`: what stands behind the last dot, unless that dot is the first letter -/
def extension (name : List Char) : Option (List Char) :=
  let before := name.reverse.dropWhile (· ≠ '.')
  if before.length ≤ 1 then none else some (name.reverse.takeWhile (· ≠ '.')).reverse

def isLockFile (p : Path) : Bool := extension (fileName p) = some ['l', 'o', 'c', 'k']

/-- the path below `home.runs_dir()` -/
def relative (root p : Path) : Option (List Char) :=
  if (root.toList ++ ['/']).isPrefixOf p.toList then some (p.toList.drop (root.toList.length + 1))
  else none

/-- below the directory of a run, under the name that `home.run_dir` gives it -/
def inRunDir {R : Type} (ids : RunIdText R) (root p : Path) : Bool :=
  match relative root p with
  | none => false
  | some rel =>
    let dir := String.ofList (rel.takeWhile (· ≠ '/'))
    rel.contains '/' && match ids.parse dir with
      | some z => ids.toText z = dir
      | none => false

/-- directly in `home.runs_dir()` -/
def atTop (root p : Path) : Bool :=
  match relative root p with
  | none => false
  | some rel => !rel.contains '/'

/-- a path whose name the cleanup takes for a leftover, where it looks for such names -/
def Reserved {R : Type} (ids : RunIdText R) (root p : Path) : Prop :=
  (inRunDir ids root p = true ∧ isAtomicTmp p = true) ∨
    (atTop root p = true ∧ isLockFile p = true)

/-- a cleanup walks and plans, or removes what it has planned -/
inductive Cleaning where
  | planning (plan : List Path)
  | removing (plan : List Path)

def Cleaning.plan : Cleaning → List Path
  | .planning plan => plan
  | .removing plan => plan

/-- `committed` are the files that writes have put in place -/
structure World (ι : Type) where
  shared : Shared ι Path UInt8
  committed : List Path
  passes : ℕ → Option Cleaning

inductive Act (ι : Type) where
  /-- the next file operation of a write -/
  | write (i : ι)
  | start (n : ℕ)
  /-- the walk of a run directory meets a file -/
  | visit (n : ℕ) (p : Path)
  /-- so does `read_dir` on the directory of the runs -/
  | visitTop (n : ℕ) (p : Path) (modified now : ℤ)
  | endWalk (n : ℕ)
  | remove (n : ℕ)
  /-- the cleanup returns, fails, or its process dies -/
  | stop (n : ℕ)

/-- what a rename puts in place -/
def landed : List (Op Path UInt8) → List Path
  | .rename _ dst :: _ => [dst]
  | _ => []

section
variable {ι : Type} {R : Type} (ids : RunIdText R) (root : Path)

def World.goto (w : World ι) (n : ℕ) (c : Option Cleaning) : World ι :=
  { w with passes := Function.update w.passes n c }

@[simp] theorem World.goto_self (w : World ι) (n : ℕ) (c : Option Cleaning) :
    (w.goto n c).passes n = c := by
  show Function.update w.passes n c n = c
  exact Function.update_self ..

theorem World.goto_of_ne (w : World ι) {n k : ℕ} (h : k ≠ n) (c : Option Cleaning) :
    (w.goto n c).passes k = w.passes k := by
  show Function.update w.passes n c k = w.passes k
  exact Function.update_of_ne h ..

/-- `remove_file`; a file that is gone is no error -/
def World.removeFile (w : World ι) (p : Path) : World ι :=
  { w with shared := ⟨Function.update w.shared.files p none, w.shared.rest⟩ }

variable [DecidableEq ι]

def World.step (w : World ι) : Act ι → Option (World ι)
  | .write i => (w.shared.step i).map fun s =>
      { w with shared := s, committed := w.committed ++ landed (w.shared.rest i) }
  | .start n =>
    match w.passes n with
    | none => some (w.goto n (some (.planning [])))
    | some _ => none
  | .visit n p =>
    match w.passes n with
    | some (.planning plan) =>
      if (w.shared.files p).isSome ∧ inRunDir ids root p = true then
        some (w.goto n (some (.planning (if isAtomicTmp p then plan ++ [p] else plan))))
      else none
    | _ => none
  | .visitTop n p modified now =>
    match w.passes n with
    | some (.planning plan) =>
      if (w.shared.files p).isSome ∧ atTop root p = true then
        some (w.goto n (some (.planning
          (if isLockFile p ∧ STALE_LOCK_SECS < now - modified then plan ++ [p] else plan))))
      else none
    | _ => none
  | .endWalk n =>
    match w.passes n with
    | some (.planning plan) => some (w.goto n (some (.removing plan)))
    | _ => none
  | .remove n =>
    match w.passes n with
    | some (.removing (p :: plan)) => some ((w.removeFile p).goto n (some (.removing plan)))
    | _ => none
  | .stop n => some (w.goto n none)

/-- no cleanup under way -/
def World.init (s : Shared ι Path UInt8) (committed : List Path) : World ι :=
  ⟨s, committed, fun _ => none⟩

variable {ids root} {w w' : World ι}

/-- **Everything that a step can do.** -/
inductive World.Stepped (ids : RunIdText R) (root : Path) (w : World ι) : Act ι → World ι → Prop
  | write {i : ι} {s : Shared ι Path UInt8} : w.shared.step i = some s →
      World.Stepped ids root w (.write i)
        { w with shared := s, committed := w.committed ++ landed (w.shared.rest i) }
  | start {n : ℕ} : World.Stepped ids root w (.start n) (w.goto n (some (.planning [])))
  | visit {n : ℕ} {p : Path} {plan : List Path} : w.passes n = some (.planning plan) →
      inRunDir ids root p = true → World.Stepped ids root w (.visit n p)
        (w.goto n (some (.planning (if isAtomicTmp p then plan ++ [p] else plan))))
  | visitTop {n : ℕ} {p : Path} {modified now : ℤ} {plan : List Path} :
      w.passes n = some (.planning plan) → atTop root p = true →
      World.Stepped ids root w (.visitTop n p modified now) (w.goto n (some (.planning
        (if isLockFile p ∧ STALE_LOCK_SECS < now - modified then plan ++ [p] else plan))))
  | endWalk {n : ℕ} {plan : List Path} : w.passes n = some (.planning plan) →
      World.Stepped ids root w (.endWalk n) (w.goto n (some (.removing plan)))
  | remove {n : ℕ} {p : Path} {plan : List Path} : w.passes n = some (.removing (p :: plan)) →
      World.Stepped ids root w (.remove n) ((w.removeFile p).goto n (some (.removing plan)))
  | stop {n : ℕ} : World.Stepped ids root w (.stop n) (w.goto n none)

theorem World.step_cases {a : Act ι} (h : w.step ids root a = some w') :
    World.Stepped ids root w a w' := by
  cases a with
  | write i =>
    obtain ⟨s, hs, rfl⟩ := Option.map_eq_some_iff.mp h
    exact .write hs
  | start n =>
    simp only [World.step] at h
    split at h
    · exact Option.some.inj h ▸ .start
    · exact absurd h nofun
  | visit n p =>
    simp only [World.step] at h
    split at h
    · rename_i plan hp
      split at h
      · rename_i hfile
        exact Option.some.inj h ▸ .visit hp hfile.2
      · exact absurd h nofun
    · exact absurd h nofun
  | visitTop n p modified now =>
    simp only [World.step] at h
    split at h
    · rename_i plan hp
      split at h
      · rename_i hfile
        exact Option.some.inj h ▸ .visitTop hp hfile.2
      · exact absurd h nofun
    · exact absurd h nofun
  | endWalk n =>
    simp only [World.step] at h
    split at h
    · rename_i plan hp
      exact Option.some.inj h ▸ .endWalk hp
    · exact absurd h nofun
  | remove n =>
    simp only [World.step] at h
    split at h
    · rename_i p plan hp
      exact Option.some.inj h ▸ .remove hp
    · exact absurd h nofun
  | stop n => exact Option.some.inj h ▸ .stop

end

/-! ## what a cleanup must not touch -/

section
variable {ι : Type} [DecidableEq ι] {R : Type} (ids : RunIdText R) (root : Path) (K : Crates)
  (calls : ι → Call)

/-- a write has created the file, and will still fill it or rename it -/
def Needed (s : Shared ι Path UInt8) (p : Path) : Prop := ∃ i q d, Filling p q d (s.rest i)

/-- a removal takes no committed file and no temporary file that a write still needs -/
def Safe (w : World ι) : Act ι → Prop
  | .remove n => ∀ p plan, w.passes n = some (.removing (p :: plan)) →
      p ∉ w.committed ∧ ¬ Needed w.shared p
  | _ => True

/-- the write has begun and is not done -/
def UnderWay (s : Shared ι Path UInt8) (i : ι) : Prop :=
  s.rest i ≠ [] ∧ s.rest i ≠ (calls i).steps K

/-- **When walks and writes keep apart**: no walk meets a temporary file of a write under way, and
a write that begins draws no name that a cleanup has planned. -/
def Apart (w : World ι) : Act ι → Prop
  | .visit _ p => isAtomicTmp p = true → ∀ i, UnderWay K calls w.shared i →
      ¬ IsTmp (calls i).dest (calls i).nonce p
  | .write i => w.shared.rest i = (calls i).steps K → ∀ n c, w.passes n = some c →
      ∀ p ∈ c.plan, ¬ IsTmp (calls i).dest (calls i).nonce p
  | _ => True

/-- the operations of the writes alone -/
def writes (acts : List (Act ι)) : List ι :=
  acts.filterMap fun
    | .write i => some i
    | _ => none

/-- the disk without the cleanups: the writes are as far, the committed files and the temporary
files in use are the same -/
def Agree (w : World ι) (s : Shared ι Path UInt8) : Prop :=
  s.rest = w.shared.rest ∧
    ∀ p, p ∈ w.committed ∨ Needed w.shared p → s.files p = w.shared.files p

end

/-! ## the writes -/

section
variable {ι : Type} {K : Crates} {calls : ι → Call} {s s' : Shared ι Path UInt8} {i : ι}
  {op : Op Path UInt8} {ops : List (Op Path UInt8)} {p : Path}

/-- what is to come of a write, at some point of its plan -/
structure OnPlan (K : Crates) (c : Call) (ops : List (Op Path UInt8)) : Prop where
  suffix : ops <:+ c.steps K
  data : Standing (tmpPath c.dest c.nonce) c.dest c.data ops
  sidecar : Standing (tmpMetaPath c.dest c.nonce) (metaPath c.dest) (K.toVec (c.meta K)) ops

theorem OnPlan.tail {c : Call} (h : OnPlan K c (op :: ops)) : OnPlan K c ops :=
  ⟨(List.suffix_cons op ops).trans h.suffix, h.data.tail, h.sidecar.tail⟩

/-- every write is on its plan -/
def Coursed (K : Crates) (calls : ι → Call) (s : Shared ι Path UInt8) : Prop :=
  ∀ i, OnPlan K (calls i) (s.rest i)

/-- a plan that has begun is not at its start again -/
theorem steps_not_filling {q : Path} {d : Bytes} (c : Call) (h : IsTmp c.dest c.nonce p) :
    ¬ Filling p q d (c.steps K) := by
  cases hdir : parent c.dest with
  | none =>
    have hnil : c.steps K = [] := steps_nil K c.writer c.dest c.nonce c.data c.now hdir
    rw [hnil]
    exact nofun
  | some dir =>
    rcases h with rfl | rfl
    · exact (data_waiting hdir).not_filling
    · exact (meta_waiting hdir).not_filling

/-- what an operation takes up is a temporary file of its own write -/
theorem isTmp_of_reads (c : Call) (hop : op ∈ c.steps K) (h : op.Reads p) :
    IsTmp c.dest c.nonce p := by
  obtain ht | ⟨rfl, rfl⟩ | ⟨rfl, rfl⟩ := steps_touches hop h.touches
  · exact ht
  · exact absurd h (tmpPath_ne_dest c.dest c.nonce).symm
  · exact absurd h (tmpMetaPath_ne_metaPath c.dest c.nonce).symm

/-- what the next operation takes up is needed -/
theorem Coursed.needed (h : Coursed K calls s) (hrest : s.rest i = op :: ops) (hr : op.Reads p) :
    Needed s p := by
  have hop : op ≠ .create p := by
    rintro rfl
    exact hr
  have hplan : OnPlan K (calls i) (op :: ops) := hrest ▸ h i
  obtain rfl | rfl := isTmp_of_reads (calls i) (hplan.suffix.subset List.mem_cons_self) hr
  · obtain ⟨d, hf⟩ := hplan.data.filling_of_touches hr.touches hop
    exact ⟨i, _, d, hrest.symm ▸ hf⟩
  · obtain ⟨d, hf⟩ := hplan.sidecar.filling_of_touches hr.touches hop
    exact ⟨i, _, d, hrest.symm ▸ hf⟩

/-- a file that a write needs is a temporary file of it, and the write is under way -/
theorem Coursed.underWay (h : Coursed K calls s) (hp : Needed s p) :
    ∃ i, UnderWay K calls s i ∧ IsTmp (calls i).dest (calls i).nonce p := by
  obtain ⟨i, q, d, hf⟩ := hp
  have hmem : ∃ op ∈ s.rest i, op.Reads p := by
    generalize s.rest i = ops at hf
    induction hf with
    | rename _ => exact ⟨_, List.mem_cons_self, rfl⟩
    | append _ _ => exact ⟨_, List.mem_cons_self, rfl⟩
    | other _ _ ih =>
      obtain ⟨op, hop, hr⟩ := ih
      exact ⟨op, List.mem_cons_of_mem _ hop, hr⟩
  obtain ⟨op, hop, hr⟩ := hmem
  have htmp := isTmp_of_reads (calls i) ((h i).suffix.subset hop) hr
  refine ⟨i, ⟨List.ne_nil_of_mem hop, fun he => ?_⟩, htmp⟩
  exact steps_not_filling (calls i) htmp (he ▸ hf)

variable [DecidableEq ι]

variable {w w' : World ι}

variable {R : Type} {ids : RunIdText R} {root : Path}

/-- what a cleanup plans is reserved and of no write under way; what is committed is not reserved -/
structure Planned (ids : RunIdText R) (root : Path) (K : Crates) (calls : ι → Call)
    (w : World ι) : Prop where
  coursed : Coursed K calls w.shared
  committed : ∀ p ∈ w.committed, ¬ Reserved ids root p
  plan : ∀ n c, w.passes n = some c → ∀ p ∈ c.plan, Reserved ids root p ∧
    ∀ i, UnderWay K calls w.shared i → ¬ IsTmp (calls i).dest (calls i).nonce p

omit [DecidableEq ι] in
/-- a cleanup goes to a plan of its own -/
theorem Planned.goto (h : Planned ids root K calls w) (n : ℕ) (c : Option Cleaning)
    (hc : ∀ c', c = some c' → ∀ p ∈ c'.plan, Reserved ids root p ∧
      ∀ i, UnderWay K calls w.shared i → ¬ IsTmp (calls i).dest (calls i).nonce p) :
    Planned ids root K calls (w.goto n c) := by
  refine ⟨h.coursed, h.committed, fun k c' hk => ?_⟩
  by_cases hkn : k = n
  · rw [hkn, World.goto_self] at hk
    exact hc c' hk
  · rw [World.goto_of_ne w hkn] at hk
    exact h.plan k c' hk

omit [DecidableEq ι] in
theorem Planned.safe (h : Planned ids root K calls w) (a : Act ι) : Safe w a := by
  cases a with
  | remove n =>
    intro p plan hn
    obtain ⟨hres, hapart⟩ := h.plan n _ hn p List.mem_cons_self
    refine ⟨fun hp => h.committed p hp hres, fun hp => ?_⟩
    obtain ⟨i, hi, htmp⟩ := h.coursed.underWay hp
    exact hapart i hi htmp
  | _ => trivial

end

/-! ## cleanups that meet a file -/

section
variable {ι : Type} [DecidableEq ι] {R : Type} {ids : RunIdText R} {root : Path}

end

section
variable {R : Type} {ids : RunIdText R} {root : Path} {K : Crates} {c : Call} {dir : Path}

end

end Moagan.Reconcile
