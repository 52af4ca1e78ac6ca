import Moagan.Llm.CacheHistory

/-!
# Calls that nobody interrupts

* `writing_alone`                     all operations of a write, one behind the other
* `touching_alone`, `storing_alone`   those of a lookup and of a store
* `lookup_begins`, `lookup_ends`      a lookup up to its write, and from there
* `store_alone`                       a store without a cap
* `lookup_granted`, `store_granted`   such calls do what `lookup` and `store` do
-/

set_option linter.unusedSectionVars false

namespace Moagan.Cache

open FileSystem Atomic

section
variable {ι : Type} [DecidableEq ι] {K : Crates} {D : Codec} {c : CacheConfig} {key : String}

@[simp] theorem write_write (s : Sys ι) (i : ι) (fs fs' : Disk) (ph ph' : Phase) :
    (s.write i fs ph).write i fs' ph' = s.write i fs' ph' := by
  show Sys.mk fs' (Function.update (Function.update s.phase i ph) i ph') = _
  rw [Function.update_idem]
  rfl

theorem write_same (s : Sys ι) (i : ι) : s.write i s.disk (s.phase i) = s := by
  show Sys.mk s.disk (Function.update s.phase i (s.phase i)) = s
  rw [Function.update_eq_self]

@[simp] theorem goto_phase_self (s : Sys ι) (i : ι) (ph : Phase) : (s.goto i ph).phase i = ph :=
  write_phase_self ..

@[simp] theorem goto_goto (s : Sys ι) (i : ι) (ph ph' : Phase) :
    (s.goto i ph).goto i ph' = s.goto i ph' := write_write ..

/-! ## single operations -/

section
variable {s s' : Sys ι} {i : ι} {x : Reply} {o : Outcome} {entry : CacheEntry} {nonce : UInt64}

theorem next_checking (hi : s.phase i = .checking) (hx : x.refused = false) {raw : Bytes}
    (hraw : s.disk (pathFor c.root key) = some raw) :
    s.next K D c key i x = some (s.goto i .reading, .going) := by
  unfold Sys.next
  simp only [hi, Reply.grant, hx, hraw, Bool.false_eq_true, if_false]

theorem next_reading (hi : s.phase i = .reading) (hx : x.refused = false) {raw : Bytes}
    (hraw : s.disk (pathFor c.root key) = some raw) (hentry : D.fromSlice raw = some entry)
    (hfresh : entry.isFresh x.now = true) {dir : Path} (hdir : parent (pathFor c.root key) = some dir) :
    s.next K D c key i x = some (s.goto i (.touching (entry.touch x.touched) x.nonce
      (writeBack K D c key (entry.touch x.touched) x)), .going) := by
  unfold Sys.next
  simp only [hi, Reply.grant, hx, hraw, hentry, hfresh, hdir, Bool.false_eq_true, if_false, if_true,
    Option.bind_some, Option.isNone_some]

theorem next_touching (hi : s.phase i = .touching entry nonce []) :
    s.next K D c key i x = some (s.goto i .idle, .hit entry) := by
  unfold Sys.next
  simp only [hi]
  rfl

theorem next_making (hi : s.phase i = .making entry) (hx : x.refused = false) {dir : Path}
    (hdir : parent (pathFor c.root key) = some dir) : s.next K D c key i x =
      some (s.goto i (.storing entry x.nonce (writeBack K D c key entry x)), .going) := by
  unfold Sys.next
  simp only [hi, hx, hdir, Option.isNone_some, Bool.or_self, Bool.false_eq_true, if_false]

theorem next_storing (hi : s.phase i = .storing entry nonce []) (hcap : c.maxBytes = none) :
    s.next K D c key i x = some (s.goto i .idle, .stored) := by
  unfold Sys.next
  simp only [hi, hcap, Option.isSome_none, Bool.false_eq_true, if_false]
  rfl

/-- the history behind an operation -/
theorem step_next {hist : History ι} (h : s.next K D c key i x = some (s', o)) {ph : Phase}
    (hi : s.phase i = ph) : Traced.step K D c key ⟨s, hist⟩ (.next i x) =
      some ⟨s', hist.recordNext c key i ph o⟩ := by
  show (s.next K D c key i x).map _ = _
  rw [h, ← hi]
  rfl

end

/-! ## a write -/

/-- a condition that is met while call `i` writes -/
def WhileWriting (G : Traced ι → CallEvent ι → Prop) (i : ι) (x : Reply)
    (ph : List (Op Path UInt8) → Phase) (hist : History ι) : Prop :=
  ∀ t op rest, t.sys.phase i = ph (op :: rest) → t.hist = hist → G t (.next i x)

/-- the operations of a write, each with what the history records of it -/
theorem writing_alone {G : Traced ι → CallEvent ι → Prop} {i : ι} {x : Reply}
    {ph : List (Op Path UInt8) → Phase} (note : Op Path UInt8 → History ι → History ι)
    (hnext : ∀ (s : Sys ι) op ops fs, s.phase i = ph (op :: ops) → op.apply s.disk = some fs →
      s.next K D c key i x = some (s.write i fs (ph ops), .going))
    (hnote : ∀ (hist : History ι) op ops,
      hist.recordNext c key i (ph (op :: ops)) .going = note op hist)
    (hself : ∀ (s : Sys ι) fs ops, (s.write i fs (ph ops)).phase i = ph ops)
    {P : History ι → Prop} (hP : ∀ op hist, P hist → P (note op hist))
    (hG : ∀ hist, P hist → WhileWriting G i x ph hist) (ops : List (Op Path UInt8)) :
    ∀ {t : Traced ι} {fs : Disk}, t.sys.phase i = ph ops → runOps t.sys.disk ops = some fs →
    P t.hist →
    Runs.run (Traced.step K D c key) t (List.replicate ops.length (.next i x))
        = some ⟨t.sys.write i fs (ph []), ops.foldl (fun hist op => note op hist) t.hist⟩ ∧
      Runs.Along (Traced.step K D c key) G t (List.replicate ops.length (.next i x)) := by
  induction ops with
  | nil =>
    intro t fs hi hr _
    refine ⟨?_, trivial⟩
    rw [← Option.some.inj hr, ← hi, write_same]
    rfl
  | cons op ops ih =>
    intro t fs hi hr hp
    rw [runOps, Runs.run_cons] at hr
    obtain ⟨fs₁, h1, h2⟩ := Option.bind_eq_some_iff.mp hr
    have hstep : t.step K D c key (.next i x)
        = some ⟨t.sys.write i fs₁ (ph ops), note op t.hist⟩ := by
      rw [← hnote t.hist op ops]
      exact step_next (hnext t.sys op ops fs₁ hi h1) hi
    obtain ⟨hrun, halong⟩ := ih (t := ⟨t.sys.write i fs₁ (ph ops), note op t.hist⟩)
      (hself ..) h2 (hP op _ hp)
    rw [List.length_cons, List.replicate_succ, Runs.run_cons, hstep, Option.bind_some, hrun]
    exact ⟨by rw [write_write]; rfl, Runs.along_cons hstep (hG _ hp t op ops hi rfl) halong⟩

theorem touching_alone {G : Traced ι → CallEvent ι → Prop} {i : ι} {x : Reply} (hx : x.refused = false)
    {entry : CacheEntry} {nonce : UInt64} (ops : List (Op Path UInt8)) {t : Traced ι} {fs : Disk}
    (hi : t.sys.phase i = .touching entry nonce ops) (hr : runOps t.sys.disk ops = some fs)
    (hG : WhileWriting G i x (.touching entry nonce) t.hist) :
    Runs.run (Traced.step K D c key) t (List.replicate ops.length (.next i x))
        = some ⟨t.sys.write i fs (.touching entry nonce []), t.hist⟩ ∧
      Runs.Along (Traced.step K D c key) G t (List.replicate ops.length (.next i x)) := by
  have hnext : ∀ (s : Sys ι) op ops fs, s.phase i = .touching entry nonce (op :: ops) →
      op.apply s.disk = some fs →
      s.next K D c key i x = some (s.write i fs (.touching entry nonce ops), .going) := by
    intro s op ops fs hi h
    unfold Sys.next
    simp only [hi, Reply.grant, hx, h]
    rfl
  have h := writing_alone (K := K) (D := D) (c := c) (G := G) (P := (· = t.hist))
    (fun _ hist => hist) hnext (fun _ _ _ => rfl) (fun _ _ _ => write_phase_self ..)
    (fun _ _ h => h) (fun _ h => h ▸ hG) ops hi hr rfl
  rwa [List.foldl_fixed] at h

/-- the history behind the operations of a store's write -/
def History.publishAll (h : History ι) (i : ι) (n : ℕ) : History ι := (fun h => h.publish i)^[n] h

theorem foldl_publish (i : ι) (d : Op Path UInt8) (ops : List (Op Path UInt8)) :
    ∀ hist : History ι, ops.foldl (fun hist op => if op = d then hist.publish i else hist) hist
      = hist.publishAll i (ops.count d) := by
  induction ops with
  | nil => exact fun _ => rfl
  | cons op ops ih =>
    intro hist
    rw [List.foldl_cons, ih]
    by_cases hop : op = d
    · rw [if_pos hop, hop, List.count_cons_self]
      rfl
    · rw [if_neg hop, List.count_cons_of_ne hop]

theorem storing_alone {G : Traced ι → CallEvent ι → Prop} {i : ι} {x : Reply} (hx : x.refused = false)
    {entry : CacheEntry} {nonce : UInt64} (ops : List (Op Path UInt8)) {t : Traced ι} {fs : Disk}
    (hi : t.sys.phase i = .storing entry nonce ops) (hr : runOps t.sys.disk ops = some fs)
    (hG : ∀ hist, WhileWriting G i x (.storing entry nonce) hist) :
    Runs.run (Traced.step K D c key) t (List.replicate ops.length (.next i x))
        = some ⟨t.sys.write i fs (.storing entry nonce []),
          t.hist.publishAll i (ops.count (dataRename (pathFor c.root key) nonce))⟩ ∧
      Runs.Along (Traced.step K D c key) G t (List.replicate ops.length (.next i x)) := by
  have hnext : ∀ (s : Sys ι) op ops fs, s.phase i = .storing entry nonce (op :: ops) →
      op.apply s.disk = some fs →
      s.next K D c key i x = some (s.write i fs (.storing entry nonce ops), .going) := by
    intro s op ops fs hi h
    unfold Sys.next
    simp only [hi, Reply.grant, hx, h]
    rfl
  rw [← foldl_publish]
  refine writing_alone _ hnext (fun hist op ops => ?_) (fun _ _ _ => write_phase_self ..)
    (P := fun _ => True) (fun _ _ _ => trivial) (fun hist _ => hG hist) ops hi hr trivial
  show (if decide (op = dataRename (pathFor c.root key) nonce) = true then hist.publish i else hist) = _
  simp only [decide_eq_true_eq]

/-! ## a lookup -/

theorem lookup_begins {G : Traced ι → CallEvent ι → Prop} {t : Traced ι} {i : ι} {x : Reply}
    (hno : c.noStore = false) (hx : x.refused = false) (hi : t.sys.phase i = .idle) {raw : Bytes}
    {entry : CacheEntry} (hraw : t.sys.disk (pathFor c.root key) = some raw)
    (hentry : D.fromSlice raw = some entry) (hfresh : entry.isFresh x.now = true) {dir : Path}
    (hdir : parent (pathFor c.root key) = some dir) (h0 : G t (.lookup i))
    (h1 : G ⟨t.sys.goto i .checking, t.hist.beginLookup i⟩ (.next i x))
    (h2 : G ⟨t.sys.goto i .reading, t.hist.beginLookup i⟩ (.next i x)) :
    Runs.run (Traced.step K D c key) t [.lookup i, .next i x, .next i x] =
        some ⟨t.sys.goto i (.touching (entry.touch x.touched) x.nonce
          (writeBack K D c key (entry.touch x.touched) x)), t.hist.beginLookup i⟩ ∧
      Runs.Along (Traced.step K D c key) G t [.lookup i, .next i x, .next i x] := by
  have e0 : t.step K D c key (.lookup i)
      = some ⟨t.sys.goto i .checking, t.hist.beginLookup i⟩ := by
    unfold Traced.step Sys.step
    simp only [hi, hno, if_true, Bool.false_eq_true, if_false]
    rfl
  have e1 : Traced.step K D c key ⟨t.sys.goto i .checking, t.hist.beginLookup i⟩ (.next i x)
      = some ⟨t.sys.goto i .reading, t.hist.beginLookup i⟩ := by
    rw [step_next (next_checking (goto_phase_self ..) hx hraw) (goto_phase_self ..), goto_goto]
    rfl
  have e2 : Traced.step K D c key ⟨t.sys.goto i .reading, t.hist.beginLookup i⟩ (.next i x)
      = some ⟨t.sys.goto i (.touching (entry.touch x.touched) x.nonce
          (writeBack K D c key (entry.touch x.touched) x)), t.hist.beginLookup i⟩ := by
    rw [step_next (next_reading (goto_phase_self ..) hx hraw hentry hfresh hdir) (goto_phase_self ..),
      goto_goto]
    rfl
  refine ⟨?_, Runs.along_cons e0 h0 (Runs.along_cons e1 h1 (Runs.along_cons e2 h2 trivial))⟩
  rw [Runs.run_cons, e0, Option.bind_some, Runs.run_cons, e1, Option.bind_some, Runs.run_cons, e2]
  rfl

/-- the operations of a write, and the return -/
@[irreducible] def writeOut (K : Crates) (D : Codec) (c : CacheConfig) (key : String) (i : ι) (entry : CacheEntry)
    (x : Reply) : List (CallEvent ι) :=
  List.replicate (writeBack K D c key entry x).length (.next i x) ++ [.next i x]

theorem writeOut_eq (K : Crates) (D : Codec) (c : CacheConfig) (key : String) (i : ι)
    (entry : CacheEntry) (x : Reply) : writeOut K D c key i entry x =
      List.replicate (writeBack K D c key entry x).length (.next i x) ++ [.next i x] := by
  delta writeOut
  rfl

/-- the disk behind the write -/
def Reply.written (K : Crates) (D : Codec) (c : CacheConfig) (key : String) (entry : CacheEntry)
    (x : Reply) (fs : Disk) : Disk :=
  Atomic.written (pathFor c.root key) x.nonce fs (D.toVec entry)
    (K.toVec (computeMetaAt K (D.toVec entry) x.sealedAt))

theorem lookup_ends {G : Traced ι → CallEvent ι → Prop} {t : Traced ι} {i : ι} {x : Reply}
    (hx : x.refused = false) {entry : CacheEntry}
    (hi : t.sys.phase i = .touching entry x.nonce (writeBack K D c key entry x)) {dir : Path}
    (hdir : parent (pathFor c.root key) = some dir)
    (h1 : WhileWriting G i x (.touching entry x.nonce) t.hist)
    (h2 : ∀ s : Sys ι, s.phase i = .touching entry x.nonce [] → G ⟨s, t.hist⟩ (.next i x)) :
    Runs.run (Traced.step K D c key) t (writeOut K D c key i entry x) =
        some ⟨t.sys.write i (x.written K D c key entry t.sys.disk) .idle,
          t.hist.answer i entry.response⟩ ∧
      Runs.Along (Traced.step K D c key) G t (writeOut K D c key i entry x) := by
  obtain ⟨hrun, halong⟩ := touching_alone (K := K) (D := D) (c := c) (G := G) hx _ hi
    (run_steps hdir _) h1
  have e : Traced.step K D c key ⟨t.sys.write i (x.written K D c key entry t.sys.disk)
      (.touching entry x.nonce []), t.hist⟩ (.next i x)
        = some ⟨t.sys.write i (x.written K D c key entry t.sys.disk) .idle,
          t.hist.answer i entry.response⟩ := by
    rw [step_next (next_touching (write_phase_self ..)) (write_phase_self ..), goto_eq, write_write]
    rfl
  rw [writeOut_eq]
  refine ⟨?_, Runs.along_concat hrun halong (Runs.along_cons e (h2 _ (write_phase_self ..)) trivial)⟩
  rw [Runs.run_append, hrun, Option.bind_some, Runs.run_cons]
  exact congrArg (fun r => Option.bind r _) e

/-! ## a store -/

/-- a store without interruption -/
def storeCall (K : Crates) (D : Codec) (c : CacheConfig) (key : String) (i : ι)
    (provider model : String) (resp : LlmResponse) (x : Reply) : List (CallEvent ι) :=
  .store i provider model resp x.now :: .next i x ::
    writeOut K D c key i (newEntry c key provider model resp x.now) x

theorem store_alone {G : Traced ι → CallEvent ι → Prop} {t : Traced ι} {i : ι} {x : Reply}
    {provider model : String} {resp : LlmResponse} {entry : CacheEntry}
    (hentry : newEntry c key provider model resp x.now = entry)
    (hno : c.noStore = false) (hcap : c.maxBytes = none) (hx : x.refused = false)
    (hi : t.sys.phase i = .idle) {dir : Path} (hdir : parent (pathFor c.root key) = some dir)
    (h0 : G t (.store i provider model resp x.now))
    (h1 : G ⟨t.sys.goto i (.making entry), t.hist.beginStore i resp⟩ (.next i x))
    (h2 : ∀ hist, WhileWriting G i x (.storing entry x.nonce) hist)
    (h3 : ∀ s : Sys ι, s.phase i = .storing entry x.nonce [] →
      G ⟨s, (t.hist.beginStore i resp).publish i⟩ (.next i x)) :
    Runs.run (Traced.step K D c key) t (storeCall K D c key i provider model resp x) =
        some ⟨t.sys.write i (x.written K D c key entry t.sys.disk) .idle,
          ((t.hist.beginStore i resp).publish i).complete i⟩ ∧
      Runs.Along (Traced.step K D c key) G t (storeCall K D c key i provider model resp x) := by
  have e0 : t.step K D c key (.store i provider model resp x.now)
      = some ⟨t.sys.goto i (.making entry), t.hist.beginStore i resp⟩ := by
    unfold Traced.step Sys.step History.record
    simp only [hi, hno, if_true, Bool.false_eq_true, if_false, hentry]
    rfl
  have e1 : Traced.step K D c key ⟨t.sys.goto i (.making entry), t.hist.beginStore i resp⟩ (.next i x)
      = some ⟨t.sys.goto i (.storing entry x.nonce (writeBack K D c key entry x)),
        t.hist.beginStore i resp⟩ := by
    rw [step_next (next_making (goto_phase_self ..) hx hdir) (goto_phase_self ..), goto_goto]
    rfl
  obtain ⟨hrun, halong⟩ := storing_alone (K := K) (D := D) (c := c) (G := G)
    (t := ⟨t.sys.goto i (.storing entry x.nonce (writeBack K D c key entry x)),
      t.hist.beginStore i resp⟩) hx _ (goto_phase_self ..) (run_steps hdir _) h2
  have hcount : (writeBack K D c key entry x).count (dataRename (pathFor c.root key) x.nonce) = 1 :=
    count_dataRename hdir
  rw [hcount, goto_eq, write_write] at hrun
  have e2 : Traced.step K D c key ⟨t.sys.write i (x.written K D c key entry t.sys.disk)
      (.storing entry x.nonce []), (t.hist.beginStore i resp).publish i⟩ (.next i x)
        = some ⟨t.sys.write i (x.written K D c key entry t.sys.disk) .idle,
          ((t.hist.beginStore i resp).publish i).complete i⟩ := by
    rw [step_next (next_storing (write_phase_self ..) hcap) (write_phase_self ..), goto_eq, write_write]
    rfl
  subst hentry
  rw [storeCall, writeOut_eq]
  refine ⟨?_, Runs.along_cons e0 h0 (Runs.along_cons e1 h1 (Runs.along_concat hrun halong
    (Runs.along_cons e2 (h3 _ (write_phase_self ..)) trivial)))⟩
  rw [Runs.run_cons, e0, Option.bind_some, Runs.run_cons, e1, Option.bind_some, Runs.run_append, goto_eq,
    hrun, Option.bind_some, Runs.run_cons]
  exact congrArg (fun r => Option.bind r _) e2

/-! ## what such calls do -/

/-- a system that answers every operation of a call in the same way -/
def Reply.granted (x : Reply) : Answers where
  now := x.now
  touched := x.touched
  sealedAt := x.sealedAt
  nonce := x.nonce
  mkdirFails := false
  refused _ := false
  walk := some x.files
  unreadable _ := false
  irremovable _ := false

/-- **A lookup that nobody interrupts does what `lookup` does.** -/
theorem lookup_granted {x : Reply} {fs : Disk} (hno : c.noStore = false) {raw : Bytes}
    {entry : CacheEntry} (hraw : fs (pathFor c.root key) = some raw)
    (hentry : D.fromSlice raw = some entry) (hfresh : entry.isFresh x.now = true) {dir : Path}
    (hdir : parent (pathFor c.root key) = some dir) :
    lookup K D c x.granted fs key =
      (x.written K D c key (entry.touch x.touched) fs, .ok (some (entry.touch x.touched))) := by
  unfold lookup
  simp only [hno, hraw, hentry, Reply.granted, hfresh, write_clean hdir (fun _ => rfl),
    Bool.false_eq_true, if_false, if_true]
  rfl

/-- **A store that nobody interrupts does what `store` does.** -/
theorem store_granted {x : Reply} {provider model : String} {resp : LlmResponse} (fs : Disk)
    (hno : c.noStore = false) (hcap : c.maxBytes = none) {dir : Path}
    (hdir : parent (pathFor c.root key) = some dir) :
    store K D c x.granted fs key provider model resp =
      (x.written K D c key (newEntry c key provider model resp x.now) fs, .ok ()) := by
  unfold store
  simp only [hno, hcap, Reply.granted, write_clean hdir (fun _ => rfl), Bool.false_eq_true, if_false,
    Option.isSome_none]
  rfl

end

end Moagan.Cache
