import Moagan.Atomic.Commit

/-!
# A write among others

* `lowerHex_injective`     different nonces have different texts
* `tmp_disjoint`           writes with different nonces have no temporary file in common
* `steps_touches`          the four paths that a write can change
* `Staged`                 a write under way, whose temporary files nobody else has changed
* `Staged.step`            its next operation succeeds, and it goes on like that
* `Staged.frame`           so do the operations of others, when they leave its files alone
* `Staged.publish`         its first rename brings its own bytes to the destination
-/

namespace Moagan.Atomic

open FileSystem

/-! ## hexadecimal texts -/

/-- the value of a digit of `Nat.toDigits 16` -/
def hexDigit (c : Char) : ℕ := if c.isDigit then c.toNat - 48 else c.toNat - 87

def hexVal (cs : List Char) : ℕ := cs.foldl (fun a c => 16 * a + hexDigit c) 0

theorem hexDigit_digitChar : ∀ d < 16, hexDigit (Nat.digitChar d) = d := by decide

theorem hexVal_concat (cs : List Char) (c : Char) : hexVal (cs ++ [c]) = 16 * hexVal cs + hexDigit c := by
  rw [hexVal, List.foldl_append]
  rfl

theorem hexVal_toDigits (n : ℕ) : hexVal (Nat.toDigits 16 n) = n := by
  induction n using Nat.strong_induction_on with
  | _ n ih =>
    by_cases h : n < 16
    · rw [Nat.toDigits_of_lt_base h]
      show 16 * 0 + hexDigit (Nat.digitChar n) = n
      rw [hexDigit_digitChar n h]
      omega
    · rw [Nat.toDigits_of_base_le (by decide) (Nat.not_lt.mp h), hexVal_concat,
        ih (n / 16) (by omega), hexDigit_digitChar _ (Nat.mod_lt _ (by decide))]
      omega

theorem hexVal_zeros (k : ℕ) (cs : List Char) : hexVal (List.replicate k '0' ++ cs) = hexVal cs := by
  induction k with
  | zero => rfl
  | succ k ih => exact ih

theorem lowerHex_toList (width n : ℕ) : (lowerHex width n).toList
    = List.replicate (width - (Nat.toDigits 16 n).length) '0' ++ Nat.toDigits 16 n := by
  rw [lowerHex, String.toList_ofList]

/-- **Different numbers have different texts.** -/
theorem lowerHex_injective {width m n : ℕ} (h : lowerHex width m = lowerHex width n) : m = n := by
  have hv := congrArg (fun s => hexVal s.toList) h
  simp only [lowerHex_toList, hexVal_zeros, hexVal_toDigits] at hv
  exact hv

theorem mem_toDigits {n : ℕ} {c : Char} (h : c ∈ Nat.toDigits 16 n) : ∃ d < 16, c = Nat.digitChar d := by
  induction n using Nat.strong_induction_on with
  | _ n ih =>
    by_cases hn : n < 16
    · rw [Nat.toDigits_of_lt_base hn] at h
      exact ⟨n, hn, List.mem_singleton.mp h⟩
    · rw [Nat.toDigits_of_base_le (by decide) (Nat.not_lt.mp hn)] at h
      obtain h | h := List.mem_append.mp h
      · exact ih (n / 16) (by omega) h
      · exact ⟨n % 16, Nat.mod_lt _ (by decide), List.mem_singleton.mp h⟩

/-- a text has no character but digits -/
theorem mem_lowerHex {width n : ℕ} {c : Char} (h : c ∈ (lowerHex width n).toList) :
    ∃ d < 16, c = Nat.digitChar d := by
  rw [lowerHex_toList] at h
  obtain h | h := List.mem_append.mp h
  · exact ⟨0, by decide, List.eq_of_mem_replicate h⟩
  · exact mem_toDigits h

theorem lowerHex_length (width n : ℕ) : width ≤ (lowerHex width n).toList.length := by
  rw [lowerHex_toList, List.length_append, List.length_replicate]
  omega

/-! ## temporary names -/

theorem tmpPath_injective {dest : Path} {m n : UInt64} (h : tmpPath dest m = tmpPath dest n) : m = n :=
  UInt64.toNat_inj.mp (lowerHex_injective
    ((String.append_right_inj _).mp ((String.append_right_inj dest).mp h)))

theorem tmpMetaPath_injective {dest : Path} {m n : UInt64}
    (h : tmpMetaPath dest m = tmpMetaPath dest n) : m = n :=
  UInt64.toNat_inj.mp (lowerHex_injective
    ((String.append_right_inj _).mp ((String.append_right_inj (metaPath dest)).mp h)))

theorem tmpPath_ne_tmpMetaPath_of (dest : Path) (m n : UInt64) : tmpPath dest m ≠ tmpMetaPath dest n := by
  rw [tmpPath, tmpMetaPath, metaPath, String.append_assoc]
  apply append_ne_append
  rw [String.toList_append, String.toList_append]
  simp

/-- the temporary files of a write -/
def IsTmp (dest : Path) (nonce : UInt64) (p : Path) : Prop :=
  p = tmpPath dest nonce ∨ p = tmpMetaPath dest nonce

theorem tmp_disjoint {dest : Path} {m n : UInt64} (h : m ≠ n) {p : Path} (hp : IsTmp dest m p) :
    ¬ IsTmp dest n p := by
  intro hq
  obtain rfl | rfl := hp
  · obtain hq | hq := hq
    · exact h (tmpPath_injective hq)
    · exact tmpPath_ne_tmpMetaPath_of dest m n hq
  · obtain hq | hq := hq
    · exact tmpPath_ne_tmpMetaPath_of dest n m hq.symm
    · exact h (tmpMetaPath_injective hq)

theorem not_isTmp_dest (dest : Path) (nonce : UInt64) : ¬ IsTmp dest nonce dest := by
  intro h
  obtain h | h := h
  · exact tmpPath_ne_dest dest nonce h.symm
  · exact tmpMetaPath_ne_dest dest nonce h.symm

theorem not_isTmp_metaPath (dest : Path) (nonce : UInt64) : ¬ IsTmp dest nonce (metaPath dest) := by
  intro h
  obtain h | h := h
  · exact tmpPath_ne_metaPath dest nonce h.symm
  · exact tmpMetaPath_ne_metaPath dest nonce h.symm

section
variable {K : Crates} {w : AtomicWriter} {dest : Path} {nonce : UInt64} {data : Bytes} {now : ℤ}

/-- what is written to: the temporary files, and by the renames the two destinations -/
theorem steps_touches {op : Op Path UInt8} (h : op ∈ w.steps K dest nonce data now) {q : Path}
    (hq : op.Touches q) : IsTmp dest nonce q ∨ q = dest ∧ op = dataRename dest nonce ∨
      q = metaPath dest ∧ op = metaRename dest nonce := by
  cases hdir : parent dest with
  | none =>
    rw [steps_nil K w dest nonce data now hdir] at h
    exact absurd h List.not_mem_nil
  | some dir =>
    rw [steps_eq K w dest nonce hdir, List.mem_append, List.mem_cons, List.mem_cons] at h
    obtain h | rfl | rfl | h := h
    · exact Or.inl (staging_touches w dest nonce h hq)
    · obtain rfl | rfl := hq
      · exact Or.inl (Or.inl rfl)
      · exact Or.inr (Or.inl ⟨rfl, rfl⟩)
    · obtain rfl | rfl := hq
      · exact Or.inl (Or.inr rfl)
      · exact Or.inr (Or.inr ⟨rfl, rfl⟩)
    · exact absurd hq (sealing_touches w h q)

/-- the temporary files of the other writes -/
theorem steps_frame_tmp {op : Op Path UInt8} (h : op ∈ w.steps K dest nonce data now) {fs fs' : Disk}
    (ha : op.apply fs = some fs') {m : UInt64} (hm : m ≠ nonce) {p : Path} (hp : IsTmp dest m p) :
    fs' p = fs p := by
  apply apply_frame ha
  intro ht
  obtain h | ⟨h, -⟩ | ⟨h, -⟩ := steps_touches h ht
  · exact tmp_disjoint hm hp h
  · exact not_isTmp_dest dest m (h ▸ hp)
  · exact not_isTmp_metaPath dest m (h ▸ hp)

/-- only the first rename changes the destination -/
theorem steps_frame_dest {op : Op Path UInt8} (h : op ∈ w.steps K dest nonce data now) {fs fs' : Disk}
    (ha : op.apply fs = some fs') (hop : op ≠ dataRename dest nonce) : fs' dest = fs dest := by
  apply apply_frame ha
  intro ht
  obtain h | ⟨-, h⟩ | ⟨h, -⟩ := steps_touches h ht
  · exact not_isTmp_dest dest nonce h
  · exact hop h
  · exact metaPath_ne_dest dest h.symm

/-! ## a write under way -/

/-- two disks with the same temporary files -/
def AgreeTmp (dest : Path) (nonce : UInt64) (fs gs : Disk) : Prop :=
  ∀ p, IsTmp dest nonce p → fs p = gs p

/-- `rest` is still to come, and the temporary files are as if the write had been alone -/
def Staged (K : Crates) (w : AtomicWriter) (dest : Path) (nonce : UInt64) (data : Bytes) (now : ℤ)
    (rest : List (Op Path UInt8)) (fs : Disk) : Prop :=
  ∃ done fs₀ gs, done ++ rest = w.steps K dest nonce data now ∧ runOps fs₀ done = some gs ∧
    AgreeTmp dest nonce fs gs

theorem Staged.begin (fs : Disk) :
    Staged K w dest nonce data now (w.steps K dest nonce data now) fs :=
  ⟨[], fs, fs, rfl, rfl, fun _ _ => rfl⟩

theorem Staged.mem {op : Op Path UInt8} {rest : List (Op Path UInt8)} {fs : Disk}
    (h : Staged K w dest nonce data now (op :: rest) fs) : op ∈ w.steps K dest nonce data now := by
  obtain ⟨done, _, _, hsteps, _⟩ := h
  rw [← hsteps]
  exact List.mem_append_right _ List.mem_cons_self

/-- **What others do to other files does not matter.** -/
theorem Staged.frame {rest : List (Op Path UInt8)} {fs fs' : Disk}
    (h : Staged K w dest nonce data now rest fs) (hfs : ∀ p, IsTmp dest nonce p → fs' p = fs p) :
    Staged K w dest nonce data now rest fs' := by
  obtain ⟨done, fs₀, gs, hsteps, hrun, hag⟩ := h
  exact ⟨done, fs₀, gs, hsteps, hrun, fun p hp => (hfs p hp).trans (hag p hp)⟩

/-- an operation that moves nothing but temporary files does the same on two such disks -/
theorem apply_agree {op : Op Path UInt8} {fs gs fs' : Disk} (hag : AgreeTmp dest nonce fs gs)
    (hop : op ∈ w.steps K dest nonce data now) (ha : op.apply fs = some fs') :
    ∃ gs', op.apply gs = some gs' ∧ AgreeTmp dest nonce fs' gs' := by
  have htouch := fun q => steps_touches hop (q := q)
  cases op with
  | mkdir p | sync p | openDir p => exact ⟨gs, rfl, Option.some.inj ha ▸ hag⟩
  | create p =>
    refine ⟨_, rfl, fun q hq => ?_⟩
    rw [← Option.some.inj ha, Function.update_apply, Function.update_apply, hag q hq]
  | append p b =>
    refine ⟨_, rfl, fun q hq => ?_⟩
    rw [← Option.some.inj ha, Function.update_apply, Function.update_apply, hag q hq]
    by_cases hqp : q = p
    · rw [if_pos hqp, if_pos hqp, ← hqp, hag q hq]
    · rw [if_neg hqp, if_neg hqp]
  | rename src dst =>
    obtain ⟨content, hsrc, rfl⟩ := Option.map_eq_some_iff.mp ha
    have hsrc_tmp : IsTmp dest nonce src := by
      obtain h | ⟨h, hr⟩ | ⟨h, hr⟩ := htouch src (Or.inl rfl)
      · exact h
      · exact Or.inl (Op.rename.inj hr).1
      · exact Or.inr (Op.rename.inj hr).1
    refine ⟨_, by rw [Op.apply, ← hag src hsrc_tmp, hsrc, Option.map_some], fun q hq => ?_⟩
    simp only [Function.update_apply, hag q hq]

/-- **Its next operation.** -/
theorem Staged.step {op : Op Path UInt8} {rest : List (Op Path UInt8)} {fs fs' : Disk}
    (h : Staged K w dest nonce data now (op :: rest) fs) (ha : op.apply fs = some fs') :
    Staged K w dest nonce data now rest fs' := by
  have hmem := h.mem
  obtain ⟨done, fs₀, gs, hsteps, hrun, hag⟩ := h
  obtain ⟨gs', hgs, hag'⟩ := apply_agree hag hmem ha
  refine ⟨done ++ [op], fs₀, gs', by rw [← hsteps, List.append_assoc]; rfl, ?_, hag'⟩
  rw [runOps, Runs.run_append, ← runOps, hrun, Option.bind_some, Runs.run_cons, hgs]
  rfl

/-- **Its first rename brings its own bytes.** -/
theorem Staged.publish {rest : List (Op Path UInt8)} {fs fs' : Disk}
    (h : Staged K w dest nonce data now (dataRename dest nonce :: rest) fs)
    (ha : (dataRename dest nonce).apply fs = some fs') : fs' dest = some data := by
  have hmem := h.mem
  obtain ⟨done, fs₀, gs, hsteps, hrun, hag⟩ := h
  obtain ⟨gs', hgs, -⟩ := apply_agree hag hmem ha
  have hprefix : done ++ [dataRename dest nonce] <+: w.steps K dest nonce data now :=
    ⟨rest, by rw [← hsteps, List.append_assoc]; rfl⟩
  have hrun' : runOps fs₀ (done ++ [dataRename dest nonce]) = some gs' := by
    rw [runOps, Runs.run_append, ← runOps, hrun, Option.bind_some, Runs.run_cons, hgs]
    rfl
  -- alone, the write has its bytes in place behind the rename
  obtain ⟨s, hs, hdest, -⟩ := stop_seen hprefix fs₀
  rw [if_pos (List.mem_append_right _ (List.mem_singleton_self _))] at hdest
  obtain rfl : gs' = s := Option.some.inj (hrun'.symm.trans hs)
  obtain ⟨content, hsrc, rfl⟩ := Option.map_eq_some_iff.mp ha
  obtain ⟨content', hsrc', rfl⟩ := Option.map_eq_some_iff.mp hgs
  rw [Function.update_self] at hdest ⊢
  rw [← hag _ (Or.inl rfl), hsrc] at hsrc'
  exact hsrc'.trans hdest

/-- there is one such rename -/
theorem count_dataRename {dir : Path} (hdir : parent dest = some dir) :
    (w.steps K dest nonce data now).count (dataRename dest nonce) = 1 := by
  have hstaging : (w.staging dest nonce dir data (K.toVec (computeMetaAt K data now))).count
      (dataRename dest nonce) = 0 :=
    List.count_eq_zero_of_not_mem (rename_not_mem_staging w dest nonce _ _ _ _ _)
  have hsealing : (w.sealing dir).count (dataRename dest nonce) = 0 :=
    List.count_eq_zero_of_not_mem fun hm => sealing_touches w hm dest (Or.inr rfl)
  rw [steps_eq K w dest nonce hdir, List.count_append, List.count_cons_self,
    List.count_cons_of_ne (dataRename_ne_metaRename dest nonce).symm, hstaging, hsealing]

theorem Staged.dataRename_once {rest : List (Op Path UInt8)} {fs : Disk}
    (h : Staged K w dest nonce data now (dataRename dest nonce :: rest) fs) :
    dataRename dest nonce ∉ rest := by
  obtain ⟨done, _, _, hsteps, _⟩ := h
  cases hdir : parent dest with
  | none =>
    rw [steps_nil K w dest nonce data now hdir] at hsteps
    simp at hsteps
  | some dir =>
    have hcount : (w.steps K dest nonce data now).count (dataRename dest nonce) = 1 :=
      count_dataRename hdir
    rw [← hsteps, List.count_append, List.count_cons_self] at hcount
    exact List.count_eq_zero.mp (by omega)

end

end Moagan.Atomic
