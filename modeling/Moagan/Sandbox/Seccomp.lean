import Mathlib.Data.List.Destutter
import Moagan.Lib.Bpf

/-!
# The syscall filter of the sandbox

The strict policy compiles a list of syscall numbers to a classic BPF program: a test of the
architecture, a load of the syscall number, one guard for each number, and a default that kills.

* `buildBpfProgram`   the compiler
* `intended`          what the policy is for: the listed calls of an x86_64 process
* `run_bpfProgram`    what the program does: the test of the architecture falls through to the
                      kill, so it allows the listed calls of every **other** architecture
* `attach_iff`        the lists whose program a kernel attaches
-/

namespace Moagan.Seccomp
open Bpf

/-! ## the constants of the kernel interface -/

def AUDIT_ARCH_X86_64 : UInt32 := 0xC000003E
def SECCOMP_DATA_OFFSET_NR : UInt32 := 0
def SECCOMP_DATA_OFFSET_ARCH : UInt32 := 4
def SECCOMP_RET_KILL_PROCESS : UInt32 := 0x80000000
def SECCOMP_RET_ALLOW : UInt32 := 0x7FFF0000

/-- bytes of a `struct seccomp_data` -/
def SECCOMP_DATA_SIZE : ℕ := 64

/-- a `struct seccomp_data`; `other` are the words from offset 8 on -/
structure SeccompData where
  nr : UInt32
  arch : UInt32
  other : UInt32 → UInt32

def SeccompData.word (d : SeccompData) (k : UInt32) : UInt32 :=
  if k = SECCOMP_DATA_OFFSET_NR then d.nr
  else if k = SECCOMP_DATA_OFFSET_ARCH then d.arch
  else d.other k

/-! ## the compiler -/

/-- `nr as u32` -/
def nrWord (nr : Int64) : UInt32 := nr.toUInt64.toUInt32

def header : List SockFilter :=
  [stmt (BPF_LD ||| BPF_W ||| BPF_ABS) SECCOMP_DATA_OFFSET_ARCH,
   jump (BPF_JMP ||| BPF_JEQ ||| BPF_K) AUDIT_ARCH_X86_64 0 1,
   stmt (BPF_RET ||| BPF_K) SECCOMP_RET_KILL_PROCESS,
   stmt (BPF_LD ||| BPF_W ||| BPF_ABS) SECCOMP_DATA_OFFSET_NR]

/-- the two instructions pushed for one allowed number -/
def allowEntry (nr : Int64) : List SockFilter :=
  [jump (BPF_JMP ||| BPF_JEQ ||| BPF_K) (nrWord nr) 0 1,
   stmt (BPF_RET ||| BPF_K) SECCOMP_RET_ALLOW]

def buildBpfProgram (allow : List Int64) : List SockFilter :=
  header ++ allow.flatMap allowEntry ++ [stmt (BPF_RET ||| BPF_K) SECCOMP_RET_KILL_PROCESS]

/-- the list before `sort_unstable` and `dedup` -/
def rustBuildSyscalls : List Int64 :=
  [0, 1, 2, 3, 4, 5, 8, 9, 10, 11, 12, 13, 14, 15, 16, 17, 18, 19, 20, 21, 22, 24, 28, 33, 35, 39,
   56, 57, 59, 60, 61, 62, 63, 72, 79, 96, 102, 104, 107, 108, 110, 112, 158, 186, 202, 218, 231,
   257, 262, 273, 292, 293, 302, 318, 332]

/-- `Vec::dedup` drops an element that equals the one before it -/
def rustBuildAllowlist : List Int64 := (rustBuildSyscalls.mergeSort (· ≤ ·)).destutter (· ≠ ·)

def ALLOWLIST_LEN : ℕ := 55

inductive SeccompPolicyKind where
  | permissive
  | strictRustBuild
  deriving DecidableEq, Repr

/-- the `sock_fprog` that is handed over: its length is a `u16` -/
def fprog (program : List SockFilter) : List SockFilter := program.take (program.length % 65536)

/-- the kernel's side of `seccomp(SECCOMP_MODE_FILTER)`: the filter in force, when it is checked -/
def attach (program : List SockFilter) : Option (List SockFilter) :=
  if check SECCOMP_DATA_SIZE program then some program else none

/-- the filters that a process has after `seccomp::apply`, the newest first; `none` when the call
fails -/
def apply (filters : List (List SockFilter)) :
    SeccompPolicyKind → Option (List (List SockFilter))
  | .permissive => some filters
  | .strictRustBuild =>
    (attach (fprog (buildBpfProgram rustBuildAllowlist))).map fun p => p :: filters

/-- a call goes through when every filter of the process allows it -/
def allowed (filters : List (List SockFilter)) (d : SeccompData) : Bool :=
  filters.all fun p => run d.word p == some SECCOMP_RET_ALLOW

/-! ## what the policy is for -/

/-- the policy as the module states it -/
def intended (allow : List Int64) (d : SeccompData) : Bool :=
  decide (d.arch = AUDIT_ARCH_X86_64 ∧ d.nr ∈ allow.map nrWord)

/-! ## what the program does -/

theorem flatMap_allowEntry (allow : List Int64) :
    allow.flatMap allowEntry = (allow.map nrWord).flatMap (guarded SECCOMP_RET_ALLOW) := by
  rw [List.flatMap_map]
  rfl

theorem buildBpfProgram_eq (allow : List Int64) :
    buildBpfProgram allow = header ++ ((allow.map nrWord).flatMap (guarded SECCOMP_RET_ALLOW)
      ++ [stmt (BPF_RET ||| BPF_K) SECCOMP_RET_KILL_PROCESS]) := by
  rw [buildBpfProgram, flatMap_allowEntry, List.append_assoc]

theorem word_arch (d : SeccompData) : d.word SECCOMP_DATA_OFFSET_ARCH = d.arch := rfl

theorem word_nr (d : SeccompData) : d.word SECCOMP_DATA_OFFSET_NR = d.nr := rfl

/-- the header kills an x86_64 call, and hands the number of any other to the program behind it -/
theorem exec_header (d : SeccompData) (p : List SockFilter) (a : UInt32) :
    exec d.word (header ++ p) 0 a =
      if d.arch = AUDIT_ARCH_X86_64 then some SECCOMP_RET_KILL_PROCESS
      else exec d.word p 0 d.nr := by
  show exec d.word (stmt _ _ :: jump _ _ 0 1 :: stmt _ _ :: stmt _ _ :: p) 0 a = _
  rw [exec_load d.word (decode_load _), exec_test d.word (decode_jeq _ 0 1), word_arch]
  by_cases h : d.arch = AUDIT_ARCH_X86_64
  · -- `jt = 0` is the next instruction, which is the kill
    rw [if_pos h, show Test.holds d.arch AUDIT_ARCH_X86_64 .eq = true from beq_iff_eq.mpr h]
    exact exec_ret d.word (decode_ret _) _ _
  · rw [if_neg h,
      show Test.holds d.arch AUDIT_ARCH_X86_64 .eq = false from beq_eq_false_iff_ne.mpr h]
    show exec d.word (stmt _ _ :: stmt _ _ :: p) 1 d.arch = _
    rw [exec_skip, exec_load d.word (decode_load _), word_nr]

/-- the verdict of the program, for every list and every call -/
theorem run_bpfProgram (allow : List Int64) (d : SeccompData) :
    run d.word (buildBpfProgram allow) =
      some (if d.arch ≠ AUDIT_ARCH_X86_64 ∧ d.nr ∈ allow.map nrWord then SECCOMP_RET_ALLOW
        else SECCOMP_RET_KILL_PROCESS) := by
  rw [run, buildBpfProgram_eq, exec_header]
  by_cases harch : d.arch = AUDIT_ARCH_X86_64
  · rw [if_pos harch, if_neg (fun h => h.1 harch)]
  · rw [if_neg harch, exec_guards]
    by_cases hnr : d.nr ∈ allow.map nrWord
    · rw [if_pos hnr, if_pos ⟨harch, hnr⟩]
    · rw [if_neg hnr, if_neg (fun h => hnr h.2)]
      exact exec_ret d.word (decode_ret _) _ _

/-- the verdict against the stated policy: they part on every listed number, for any architecture,
and only there -/
theorem intended_iff (allow : List Int64) (d : SeccompData) :
    (run d.word (buildBpfProgram allow) = some SECCOMP_RET_ALLOW ↔ intended allow d = true)
      ↔ d.nr ∉ allow.map nrWord := by
  have hne : SECCOMP_RET_KILL_PROCESS ≠ SECCOMP_RET_ALLOW := by decide
  rw [run_bpfProgram, intended, decide_eq_true_eq]
  by_cases hnr : d.nr ∈ allow.map nrWord
  · by_cases harch : d.arch = AUDIT_ARCH_X86_64
    · simp [hnr, harch, hne]
    · simp [hnr, harch]
  · simp [hnr, hne]

/-! ## the check of the kernel -/

theorem length_buildBpfProgram (allow : List Int64) :
    (buildBpfProgram allow).length = 4 + 2 * allow.length + 1 := by
  rw [buildBpfProgram_eq, List.length_append, List.length_append, length_guards, List.length_map]
  show 4 + (2 * allow.length + 1) = _
  omega

theorem checkFrom_buildBpfProgram (allow : List Int64) :
    checkFrom SECCOMP_DATA_SIZE (buildBpfProgram allow) = true := by
  rw [buildBpfProgram_eq]
  have hbody := checkFrom_guards SECCOMP_DATA_SIZE SECCOMP_RET_ALLOW (allow.map nrWord)
    (p := [stmt (BPF_RET ||| BPF_K) SECCOMP_RET_KILL_PROCESS]) (by simp) rfl
  generalize hp : (allow.map nrWord).flatMap (guarded SECCOMP_RET_ALLOW)
    ++ [stmt (BPF_RET ||| BPF_K) SECCOMP_RET_KILL_PROCESS] = p at hbody
  have hne : p ≠ [] := by
    rw [← hp]
    simp
  show checkFrom SECCOMP_DATA_SIZE (stmt _ _ :: jump _ _ 0 1 :: stmt _ _ :: stmt _ _ :: p) = true
  rw [checkFrom_cons _ (by simp), checkFrom_cons _ (by simp), checkFrom_cons _ (by simp),
    checkFrom_cons _ hne, hbody]
  simp only [decode_load, decode_jeq, decode_ret, Option.any_some, Insn.fits, Bool.and_true,
    List.length_cons, Bool.and_eq_true, decide_eq_true_eq]
  refine ⟨by decide, ⟨by simp, by simp⟩, by decide⟩

/-- a prefix that the `u16` length leaves of a longer program does not end in a return -/
theorem checkFrom_take (allow : List Int64) {n : ℕ} (hodd : n % 2 = 1)
    (hn : n < 4 + 2 * allow.length + 1) (h3 : n ≠ 3) :
    checkFrom SECCOMP_DATA_SIZE ((buildBpfProgram allow).take n) = false := by
  by_cases h1 : n = 1
  · subst h1
    rfl
  · obtain ⟨m, rfl⟩ : ∃ m, n = 4 + (2 * m + 1) := ⟨(n - 5) / 2, by omega⟩
    have hm : m < (allow.map nrWord).length := by
      rw [List.length_map]
      omega
    obtain ⟨q, k, hq⟩ := take_guards SECCOMP_RET_ALLOW (allow.map nrWord) hm
    have htake : (buildBpfProgram allow).take (4 + (2 * m + 1))
        = (header ++ q) ++ [jump (BPF_JMP ||| BPF_JEQ ||| BPF_K) k 0 1] := by
      rw [buildBpfProgram_eq, show 4 = header.length from rfl, List.take_length_add_append,
        List.take_append_of_le_length (by rw [length_guards]; omega), hq, List.append_assoc]
    rw [htake]
    refine Bool.eq_false_iff.mpr fun h => ?_
    have hlast := checkFrom_last h
    rw [decode_jeq] at hlast
    exact absurd hlast (by simp [Insn.returns])

theorem attach_iff (allow : List Int64) :
    (attach (fprog (buildBpfProgram allow))).isSome = true ↔ allow.length ≤ 2045 := by
  have hlen := length_buildBpfProgram allow
  unfold attach check
  by_cases hfit : 4 + 2 * allow.length + 1 < 65536
  · have hp : fprog (buildBpfProgram allow) = buildBpfProgram allow := by
      rw [fprog, hlen, Nat.mod_eq_of_lt hfit, ← hlen, List.take_length]
    rw [hp, checkFrom_buildBpfProgram, Bool.and_true, hlen]
    have hmax : (4 + 2 * allow.length + 1 ≤ BPF_MAXINSNS) ↔ allow.length ≤ 2045 := by
      show (4 + 2 * allow.length + 1 ≤ 4096) ↔ _
      omega
    by_cases h : allow.length ≤ 2045
    · simp [hmax, h]
    · simp [hmax, h]
  · have hnot : ¬ allow.length ≤ 2045 := by omega
    have hfalse : checkFrom SECCOMP_DATA_SIZE (fprog (buildBpfProgram allow)) = false := by
      rw [fprog, hlen]
      by_cases h3 : (4 + 2 * allow.length + 1) % 65536 = 3
      · rw [h3]
        rfl
      · exact checkFrom_take allow (by omega) (by omega) h3
    rw [hfalse, Bool.and_false]
    simp [hnot]

/-! ## the strict policy -/

theorem rustBuildAllowlist_perm : rustBuildAllowlist.Perm rustBuildSyscalls := by
  have hperm := List.mergeSort_perm rustBuildSyscalls (· ≤ ·)
  have hnodup : (rustBuildSyscalls.mergeSort (· ≤ ·)).Nodup := hperm.nodup_iff.mpr (by decide)
  rw [rustBuildAllowlist, List.destutter_of_isChain _ _ hnodup.isChain]
  exact hperm

/-- what the assertion of the compiler says of the one list it is called with -/
theorem length_rustBuildProgram :
    (buildBpfProgram rustBuildAllowlist).length = 4 + 2 * ALLOWLIST_LEN + 1 := by
  rw [length_buildBpfProgram, rustBuildAllowlist_perm.length_eq]
  rfl

/-- the strict policy is attached, and from then on it kills an x86_64 process at its next call,
the `execve` of the command included -/
theorem apply_strict (filters : List (List SockFilter)) :
    ∃ fs, apply filters .strictRustBuild = some fs ∧
      ∀ d : SeccompData, d.arch = AUDIT_ARCH_X86_64 → allowed fs d = false := by
  have hattach : (attach (fprog (buildBpfProgram rustBuildAllowlist))).isSome = true := by
    rw [attach_iff, rustBuildAllowlist_perm.length_eq]
    decide
  obtain ⟨p, hp⟩ := Option.isSome_iff_exists.mp hattach
  have hprog : p = buildBpfProgram rustBuildAllowlist := by
    have hfit : (buildBpfProgram rustBuildAllowlist).length % 65536
        = (buildBpfProgram rustBuildAllowlist).length := by
      rw [length_rustBuildProgram]
      decide
    unfold attach at hp
    rw [fprog, hfit, List.take_length] at hp
    split at hp
    · exact (Option.some.inj hp).symm
    · exact absurd hp (by simp)
  refine ⟨p :: filters, by rw [apply, hp]; rfl, fun d hd => ?_⟩
  have hrun := run_bpfProgram rustBuildAllowlist d
  rw [if_neg (fun h => h.1 hd), ← hprog] at hrun
  rw [allowed, List.all_cons, hrun]
  rfl

/-- **The compiled filter.**  A kernel attaches it for the lists of at most 2045 numbers.  It then
allows the listed calls of every architecture but x86_64 and kills on all others, so it parts from
the stated policy on each listed number. -/
theorem compiled_filter (allow : List Int64) :
    ((attach (fprog (buildBpfProgram allow))).isSome = true ↔ allow.length ≤ 2045) ∧
    ∀ d : SeccompData,
      run d.word (buildBpfProgram allow) =
        some (if d.arch ≠ AUDIT_ARCH_X86_64 ∧ d.nr ∈ allow.map nrWord then SECCOMP_RET_ALLOW
          else SECCOMP_RET_KILL_PROCESS) ∧
      ((run d.word (buildBpfProgram allow) = some SECCOMP_RET_ALLOW ↔ intended allow d = true)
        ↔ d.nr ∉ allow.map nrWord) :=
  ⟨attach_iff allow, fun d => ⟨run_bpfProgram allow d, intended_iff allow d⟩⟩

end Moagan.Seccomp
