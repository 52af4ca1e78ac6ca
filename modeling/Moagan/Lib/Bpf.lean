import Mathlib.Data.List.Basic

/-!
# Classic BPF programs

A filter is a list of 8-byte instructions that reads words of a constant record into one
accumulator, jumps forward only, and ends by returning a word.

* `exec`         the machine; a jump skips instructions, so it is a recursion over the list
* `check`        what a kernel asks of a filter before it is attached
* `exec_total`   a checked filter always returns: it neither runs off its end nor meets an
                 instruction that does not decode
* `exec_guards`  the rule for a list of guards, each a comparison in front of a return
-/

namespace Bpf

/-- `struct sock_filter` -/
structure SockFilter where
  code : UInt16
  jt : UInt8
  jf : UInt8
  k : UInt32
  deriving DecidableEq, Repr

/-! ## instruction codes -/

def BPF_LD : UInt16 := 0x00
def BPF_JMP : UInt16 := 0x05
def BPF_RET : UInt16 := 0x06
def BPF_W : UInt16 := 0x00
def BPF_ABS : UInt16 := 0x20
def BPF_JA : UInt16 := 0x00
def BPF_JEQ : UInt16 := 0x10
def BPF_JGT : UInt16 := 0x20
def BPF_JGE : UInt16 := 0x30
def BPF_JSET : UInt16 := 0x40
def BPF_K : UInt16 := 0x00

def stmt (code : UInt16) (k : UInt32) : SockFilter := ⟨code, 0, 0, k⟩

def jump (code : UInt16) (k : UInt32) (jt jf : UInt8) : SockFilter := ⟨code, jt, jf, k⟩

inductive Test where
  | eq | gt | ge | set
  deriving DecidableEq, Repr

def Test.holds (a k : UInt32) : Test → Bool
  | .eq => a == k
  | .gt => decide (k < a)
  | .ge => decide (k ≤ a)
  | .set => a &&& k != 0

/-- the instructions of the fragment; offsets count from the next instruction -/
inductive Insn where
  | load (k : UInt32)
  | skip (k : UInt32)
  | test (t : Test) (k : UInt32) (jt jf : UInt8)
  | ret (k : UInt32)
  deriving DecidableEq, Repr

def decode (i : SockFilter) : Option Insn :=
  if i.code = BPF_LD ||| BPF_W ||| BPF_ABS then some (.load i.k)
  else if i.code = BPF_JMP ||| BPF_JA then some (.skip i.k)
  else if i.code = BPF_JMP ||| BPF_JEQ ||| BPF_K then some (.test .eq i.k i.jt i.jf)
  else if i.code = BPF_JMP ||| BPF_JGT ||| BPF_K then some (.test .gt i.k i.jt i.jf)
  else if i.code = BPF_JMP ||| BPF_JGE ||| BPF_K then some (.test .ge i.k i.jt i.jf)
  else if i.code = BPF_JMP ||| BPF_JSET ||| BPF_K then some (.test .set i.k i.jt i.jf)
  else if i.code = BPF_RET ||| BPF_K then some (.ret i.k)
  else none

@[simp] theorem decode_load (k : UInt32) :
    decode (stmt (BPF_LD ||| BPF_W ||| BPF_ABS) k) = some (.load k) := rfl

@[simp] theorem decode_jeq (k : UInt32) (jt jf : UInt8) :
    decode (jump (BPF_JMP ||| BPF_JEQ ||| BPF_K) k jt jf) = some (.test .eq k jt jf) := rfl

@[simp] theorem decode_ret (k : UInt32) :
    decode (stmt (BPF_RET ||| BPF_K) k) = some (.ret k) := rfl

/-! ## the machine -/

section
variable (word : UInt32 → UInt32)

/-- the word that the program returns from its `n`-th instruction on, with `a` in the
accumulator; `none` when it runs off its end or meets an unknown instruction -/
def exec : List SockFilter → ℕ → UInt32 → Option UInt32
  | [], _, _ => none
  | _ :: p, n + 1, a => exec p n a
  | i :: p, 0, a =>
    match decode i with
    | some (.load k) => exec p 0 (word k)
    | some (.skip k) => exec p k.toNat a
    | some (.test t k jt jf) => exec p (if t.holds a k then jt else jf).toNat a
    | some (.ret k) => some k
    | none => none

def run (p : List SockFilter) : Option UInt32 := exec word p 0 0

theorem exec_skip (i : SockFilter) (p : List SockFilter) (n : ℕ) (a : UInt32) :
    exec word (i :: p) (n + 1) a = exec word p n a := rfl

theorem exec_load {i : SockFilter} {k : UInt32} (h : decode i = some (.load k))
    (p : List SockFilter) (a : UInt32) : exec word (i :: p) 0 a = exec word p 0 (word k) := by
  rw [exec, h]

theorem exec_test {i : SockFilter} {t : Test} {k : UInt32} {jt jf : UInt8}
    (h : decode i = some (.test t k jt jf)) (p : List SockFilter) (a : UInt32) :
    exec word (i :: p) 0 a = exec word p (if t.holds a k then jt else jf).toNat a := by
  rw [exec, h]

theorem exec_ret {i : SockFilter} {k : UInt32} (h : decode i = some (.ret k))
    (p : List SockFilter) (a : UInt32) : exec word (i :: p) 0 a = some k := by
  rw [exec, h]

/-- `JEQ k, 0, 1` in front of `RET v` -/
def guarded (v k : UInt32) : List SockFilter :=
  [jump (BPF_JMP ||| BPF_JEQ ||| BPF_K) k 0 1, stmt (BPF_RET ||| BPF_K) v]

theorem exec_guard (v k : UInt32) (p : List SockFilter) (a : UInt32) :
    exec word (guarded v k ++ p) 0 a = if a = k then some v else exec word p 0 a := by
  show exec word (jump _ k 0 1 :: stmt _ v :: p) 0 a = _
  rw [exec_test word (decode_jeq k 0 1)]
  by_cases h : a = k
  · rw [if_pos h, show Test.holds a k .eq = true from beq_iff_eq.mpr h]
    exact exec_ret word (decode_ret v) p a
  · rw [if_neg h, show Test.holds a k .eq = false from beq_eq_false_iff_ne.mpr h]
    rfl

theorem exec_guards (v : UInt32) (ks : List UInt32) (p : List SockFilter) (a : UInt32) :
    exec word (ks.flatMap (guarded v) ++ p) 0 a = if a ∈ ks then some v else exec word p 0 a := by
  induction ks with
  | nil => simp
  | cons k ks ih =>
    rw [List.flatMap_cons, List.append_assoc, exec_guard, ih]
    by_cases h : a = k
    · simp [h]
    · simp [h]

end

/-! ## the check before a filter is attached -/

def BPF_MAXINSNS : ℕ := 4096

/-- the instruction reads a whole word of a record of `size` bytes, or lands on one of the `n`
instructions behind it -/
def Insn.fits (size n : ℕ) : Insn → Bool
  | .load k => decide (k.toNat % 4 = 0 ∧ k.toNat + 4 ≤ size)
  | .skip k => decide (k.toNat < n)
  | .test _ _ jt jf => decide (jt.toNat < n ∧ jf.toNat < n)
  | .ret _ => true

def Insn.returns : Insn → Bool
  | .ret _ => true
  | _ => false

def checkFrom (size : ℕ) : List SockFilter → Bool
  | [] => false
  | [i] => (decode i).any Insn.returns
  | i :: j :: p => (decode i).any (Insn.fits size (p.length + 1)) && checkFrom size (j :: p)

def check (size : ℕ) (p : List SockFilter) : Bool :=
  decide (p.length ≤ BPF_MAXINSNS) && checkFrom size p

theorem checkFrom_cons (size : ℕ) {i : SockFilter} {p : List SockFilter} (hp : p ≠ []) :
    checkFrom size (i :: p)
      = ((decode i).any (Insn.fits size p.length) && checkFrom size p) := by
  cases p with
  | nil => exact absurd rfl hp
  | cons j p => rfl

/-- the last instruction of a checked filter returns -/
theorem checkFrom_last {size : ℕ} {p : List SockFilter} {i : SockFilter}
    (h : checkFrom size (p ++ [i]) = true) : (decode i).any Insn.returns = true := by
  induction p with
  | nil => exact h
  | cons j p ih =>
    rw [List.cons_append, checkFrom_cons size (by simp), Bool.and_eq_true] at h
    exact ih h.2

/-- **A checked filter returns.** -/
theorem exec_total (word : UInt32 → UInt32) {size : ℕ} {p : List SockFilter}
    (h : checkFrom size p = true) {n : ℕ} (hn : n < p.length) (a : UInt32) :
    ∃ v, exec word p n a = some v := by
  induction p generalizing n a with
  | nil => exact absurd hn (Nat.not_lt_zero n)
  | cons i p ih =>
    cases n with
    | succ n =>
      have hlt : n < p.length := Nat.lt_of_succ_lt_succ hn
      have hp : p ≠ [] := List.ne_nil_of_length_pos (by omega)
      rw [checkFrom_cons size hp, Bool.and_eq_true] at h
      exact ih h.2 hlt a
    | zero =>
      by_cases hp : p = []
      · subst hp
        obtain ⟨j, hj, hr⟩ := (Option.any_eq_true _ _).mp h
        cases j with
        | ret k => exact ⟨k, exec_ret word hj [] a⟩
        | load k => exact absurd hr (by simp [Insn.returns])
        | skip k => exact absurd hr (by simp [Insn.returns])
        | test t k jt jf => exact absurd hr (by simp [Insn.returns])
      · rw [checkFrom_cons size hp, Bool.and_eq_true] at h
        obtain ⟨j, hj, hf⟩ := (Option.any_eq_true _ _).mp h.1
        have hpos : 0 < p.length := List.length_pos_of_ne_nil hp
        cases j with
        | ret k => exact ⟨k, exec_ret word hj p a⟩
        | load k =>
          rw [exec_load word hj]
          exact ih h.2 hpos _
        | skip k =>
          have hk : k.toNat < p.length := of_decide_eq_true hf
          obtain ⟨v, hv⟩ := ih h.2 hk a
          exact ⟨v, by rw [exec, hj]; exact hv⟩
        | test t k jt jf =>
          obtain ⟨ht, hf⟩ := of_decide_eq_true hf
          rw [exec_test word hj]
          refine ih h.2 ?_ a
          by_cases hc : t.holds a k = true
          · rw [if_pos hc]
            exact ht
          · rw [if_neg hc]
            exact hf

theorem checkFrom_guards (size : ℕ) (v : UInt32) (ks : List UInt32) {p : List SockFilter}
    (hp : p ≠ []) (h : checkFrom size p = true) :
    checkFrom size (ks.flatMap (guarded v) ++ p) = true := by
  induction ks with
  | nil => exact h
  | cons k ks ih =>
    have hne : ks.flatMap (guarded v) ++ p ≠ [] := by simp [hp]
    have hpos : 0 < (ks.flatMap (guarded v) ++ p).length := List.length_pos_of_ne_nil hne
    rw [List.flatMap_cons, List.append_assoc]
    show checkFrom size (jump _ k 0 1 :: stmt _ v :: (ks.flatMap (guarded v) ++ p)) = true
    rw [checkFrom_cons size (by simp), checkFrom_cons size hne, ih]
    simp only [decode_jeq, decode_ret, Option.any_some, Insn.fits, Bool.and_true,
      decide_eq_true_eq, List.length_cons]
    constructor
    · exact Nat.succ_pos _
    · exact Nat.succ_lt_succ hpos

theorem length_guards (v : UInt32) (ks : List UInt32) :
    (ks.flatMap (guarded v)).length = 2 * ks.length := by
  induction ks with
  | nil => rfl
  | cons k ks ih =>
    rw [List.flatMap_cons, List.length_append, ih, List.length_cons]
    show 2 + 2 * ks.length = _
    omega

/-- a list of guards that is cut behind a comparison ends in a comparison -/
theorem take_guards (v : UInt32) (ks : List UInt32) {m : ℕ} (hm : m < ks.length) :
    ∃ q k, (ks.flatMap (guarded v)).take (2 * m + 1)
      = q ++ [jump (BPF_JMP ||| BPF_JEQ ||| BPF_K) k 0 1] := by
  induction ks generalizing m with
  | nil => exact absurd hm (Nat.not_lt_zero m)
  | cons k ks ih =>
    rw [List.flatMap_cons]
    cases m with
    | zero => exact ⟨[], k, rfl⟩
    | succ m =>
      obtain ⟨q, k', hq⟩ := ih (Nat.lt_of_succ_lt_succ hm)
      refine ⟨guarded v k ++ q, k', ?_⟩
      rw [List.append_assoc, ← hq]
      show ((jump _ k 0 1 :: stmt _ v :: ks.flatMap (guarded v)).take (2 * m + 1 + 2)) = _
      rfl

end Bpf
