import Mathlib.Data.Fintype.Basic
import Mathlib.Logic.Function.Basic
import Moagan.Lib.Runs
import Moagan.Storage.Schema

/-!
# Opening the meta-database (`run_migrations`, `apply_step` in `src/storage/sqlite.rs`)

Any number of openers share the database file.  A statement outside a transaction is one atomic
step, and so is the transaction of `apply_step`; the steps of the openers interleave in any order,
and an opener can die between two of them.

* `Phase`             the next statement of an opener
* `Sys.step`          one statement of one opener, a new open, or a death
* `ExactlyOnce`       the steps ran once each and in order, no open failed, and the version does not
                      run ahead
* `Fresh`             no step begins that another opener has already recorded
* `migrations_once`   then `ExactlyOnce` holds along the run

`log` lists the steps that ran to completion; no statement reads it.
-/

set_option linter.unusedSectionVars false

namespace Moagan.Storage.Migrations

open Storage

/-! ## openers -/

structure Db where
  schema : Schema
  /-- `PRAGMA user_version` -/
  version : ℕ
deriving DecidableEq, Repr

/-- the statement that comes next -/
inductive Phase where
  | closed
  /-- the first read of the version -/
  | starting
  /-- statement `k` of v001 -/
  | first (k : ℕ)
  /-- `PRAGMA user_version = 1` -/
  | stamping
  /-- the read of the version behind a step; the checks for the steps of `rest` follow -/
  | rereading (rest : List ℕ)
  /-- `apply_step(n)`, with the version that was read last -/
  | applying (n current : ℕ) (rest : List ℕ)
  | opened
  | failed
deriving DecidableEq, Repr

structure Sys (ι : Type) where
  db : Db
  log : List ℕ
  phase : ι → Phase

inductive Event (ι : Type) where
  | start (i : ι)
  | next (i : ι)
  | crash (i : ι)

/-- `if current < n` for one step after the other -/
def checks (current : ℕ) : List ℕ → Phase
  | [] => .opened
  | n :: rest => if current < n then .applying n current rest else checks current rest

/-- the steps behind step `n` -/
def stepsAfter (n : ℕ) : List ℕ := List.range' (n + 1) (19 - n)

/-- `apply_step`: the schema change and the version commit together -/
def applyStep (db : Db) (n : ℕ) : Option Db :=
  (execAll db.schema (migration n)).map fun schema => ⟨schema, n⟩

section
variable {ι : Type} [DecidableEq ι]

def Sys.goto (s : Sys ι) (i : ι) (ph : Phase) : Sys ι :=
  { s with phase := Function.update s.phase i ph }

def Sys.next (s : Sys ι) (i : ι) : Option (Sys ι) :=
  match s.phase i with
  | .closed => none
  | .starting =>
    some (s.goto i (if s.db.version < 1 then .first 0 else checks s.db.version (stepsAfter 1)))
  | .first k =>
    match (v001.getD k .pragma).exec s.db.schema with
    | none => some (s.goto i .failed)
    | some schema =>
      let db : Db := { s.db with schema := schema }
      if k + 1 = v001.length then some ({ s with db := db, log := s.log ++ [1] }.goto i .stamping)
      else some ({ s with db := db }.goto i (.first (k + 1)))
  | .stamping =>
    some ({ s with db := { s.db with version := 1 } }.goto i (.rereading (stepsAfter 1)))
  | .rereading rest => some (s.goto i (checks s.db.version rest))
  | .applying n current rest =>
    match applyStep s.db n with
    | none => some (s.goto i .failed)
    -- the version is not read again behind v010 and later steps
    | some db => some ({ s with db := db, log := s.log ++ [n] }.goto i
        (if n < 10 then .rereading rest else checks current rest))
  | .opened => none
  | .failed => none

def Sys.step (s : Sys ι) : Event ι → Option (Sys ι)
  | .start i =>
    match s.phase i with
    | .closed | .opened | .failed => some (s.goto i .starting)
    | _ => none
  | .next i => s.next i
  | .crash i => some (s.goto i .closed)

/-- an empty file -/
def Sys.init : Sys ι := ⟨⟨[], 0⟩, [], fun _ => .closed⟩

/-! ## what the comments say -/

structure ExactlyOnce (s : Sys ι) : Prop where
  inOrder : s.log = List.range' 1 s.log.length
  complete : ∀ i, s.phase i = .opened → s.log.length = 19
  noFailure : ∀ i, s.phase i ≠ .failed
  version : s.db.version ≤ s.log.length

def FreshStep (s : Sys ι) : Phase → Prop
  | .first _ => s.db.version = 0 ∧ ∀ j, s.phase j ≠ .stamping
  | .applying n _ _ => s.db.version < n
  | _ => True

/-- **When a step is fresh**: v001 runs while no version is recorded and nobody is about to record
it, a later step while a lower version is recorded, and nobody dies between v001 and its version. -/
def Fresh (s : Sys ι) : Event ι → Prop
  | .start _ => True
  | .next i => FreshStep s (s.phase i)
  | .crash i => s.phase i ≠ .stamping

instance [Fintype ι] (s : Sys ι) (ph : Phase) : Decidable (FreshStep s ph) :=
  match ph with
  | .first _ => inferInstanceAs (Decidable (s.db.version = 0 ∧ ∀ j, s.phase j ≠ .stamping))
  | .applying n _ _ => inferInstanceAs (Decidable (s.db.version < n))
  | .closed | .starting | .stamping | .rereading _ | .opened | .failed => .isTrue trivial

instance [Fintype ι] (s : Sys ι) (e : Event ι) : Decidable (Fresh s e) :=
  match e with
  | .start _ => .isTrue trivial
  | .next i => inferInstanceAs (Decidable (FreshStep s (s.phase i)))
  | .crash i => inferInstanceAs (Decidable (s.phase i ≠ .stamping))

/-! ## the invariant -/

theorem goto_self (s : Sys ι) (i : ι) (ph : Phase) : (s.goto i ph).phase i = ph :=
  Function.update_self ..

theorem goto_of_ne (s : Sys ι) {i j : ι} (h : j ≠ i) (ph : Phase) :
    (s.goto i ph).phase j = s.phase j := Function.update_of_ne h ..

theorem goto_or (s : Sys ι) (i j : ι) (ph : Phase) :
    (j = i ∧ (s.goto i ph).phase j = ph) ∨ (j ≠ i ∧ (s.goto i ph).phase j = s.phase j) := by
  by_cases h : j = i
  · subst h
    exact Or.inl ⟨rfl, goto_self s j ph⟩
  · exact Or.inr ⟨h, goto_of_ne s h ph⟩

theorem stepsAfter_cons {n : ℕ} (h : n < 19) : stepsAfter n = (n + 1) :: stepsAfter (n + 1) := by
  unfold stepsAfter
  rw [show 19 - n = (19 - (n + 1)) + 1 by omega, List.range'_succ]

/-- an opener is not behind the recorded version by more than the step it is about to run -/
def Follows (v : ℕ) : Phase → Prop
  | .first k => k < v001.length
  | .rereading rest => ∃ n ≤ v, 1 ≤ n ∧ n ≤ 19 ∧ rest = stepsAfter n
  | .applying n current rest => n ≤ v + 1 ∧ 2 ≤ n ∧ n ≤ 19 ∧ current < n ∧ rest = stepsAfter n
  | .opened => 19 ≤ v
  | .failed => False
  | _ => True

theorem Follows.mono {v w : ℕ} {ph : Phase} (h : Follows v ph) (hvw : v ≤ w) : Follows w ph := by
  cases ph with
  | rereading rest =>
    obtain ⟨n, hn, hrest⟩ := h
    exact ⟨n, by omega, hrest⟩
  | applying n current rest => exact ⟨by have := h.1; omega, h.2⟩
  | opened => exact Nat.le_trans h hvw
  | _ => exact h

/-- the checks end in a step that follows the version, when they start behind such a one -/
theorem follows_checks {v current n : ℕ} (hcurrent : current ≤ v) (hn : n ≤ v) (h1 : 1 ≤ n)
    (h19 : n ≤ 19) : Follows v (checks current (stepsAfter n)) := by
  obtain ⟨d, hd⟩ : ∃ d, d = 19 - n := ⟨_, rfl⟩
  induction d generalizing n with
  | zero =>
    have : stepsAfter n = [] := by
      unfold stepsAfter
      rw [← hd]
      rfl
    rw [this]
    show 19 ≤ v
    omega
  | succ d ih =>
    rw [stepsAfter_cons (by omega)]
    unfold checks
    split
    · exact ⟨by omega, by omega, by omega, by omega, rfl⟩
    · exact ih (by omega) (by omega) (by omega) (by omega)

theorem checks_cases (current : ℕ) (ns : List ℕ) :
    checks current ns = .opened ∨ ∃ n rest, checks current ns = .applying n current rest := by
  induction ns with
  | nil => exact Or.inl rfl
  | cons n rest ih =>
    unfold checks
    split
    · exact Or.inr ⟨n, rest, rfl⟩
    · exact ih

theorem checks_ne_stamping (current : ℕ) (ns : List ℕ) : checks current ns ≠ .stamping := by
  intro heq
  rcases checks_cases current ns with h | ⟨_, _, h⟩
  · cases h.symm.trans heq
  · cases h.symm.trans heq

theorem checks_ne_first (current : ℕ) (ns : List ℕ) (k : ℕ) : checks current ns ≠ .first k := by
  intro heq
  rcases checks_cases current ns with h | ⟨_, _, h⟩
  · cases h.symm.trans heq
  · cases h.symm.trans heq

/-- before the first version is recorded, v001 is under way or done by one opener; behind it, the
schema is that of the version -/
structure Inv (s : Sys ι) : Prop where
  before : s.db.version = 0 →
    (s.log = [] ∧ (∀ j, s.phase j ≠ .stamping) ∧
      ∃ m < v001.length, s.db.schema = firstAt m ∧ ∀ j k, s.phase j = .first k → k ≤ m) ∨
    (s.log = [1] ∧ s.db.schema = schemaAt 1 ∧
      ∃ i, s.phase i = .stamping ∧ ∀ j, s.phase j = .stamping → j = i)
  behind : 0 < s.db.version → s.log = List.range' 1 s.db.version ∧
    s.db.schema = schemaAt s.db.version ∧ s.db.version ≤ 19 ∧ ∀ j, s.phase j ≠ .stamping
  follows : ∀ j, Follows s.db.version (s.phase j)

theorem inv_init : Inv (Sys.init : Sys ι) where
  before _ := Or.inl ⟨rfl, fun _ => nofun, 0, by decide, rfl, fun _ _ h => by cases h⟩
  behind h := by cases h
  follows _ := trivial

theorem Inv.exactlyOnce {s : Sys ι} (h : Inv s) : ExactlyOnce s := by
  have noFailure : ∀ i, s.phase i ≠ .failed := fun i hi => by
    have := h.follows i
    rw [hi] at this
    exact this
  rcases Nat.eq_zero_or_pos s.db.version with hz | hpos
  · refine ⟨?_, fun i hi => ?_, noFailure, by rw [hz]; exact Nat.zero_le _⟩
    · rcases h.before hz with ⟨hlog, _⟩ | ⟨hlog, _⟩
      · rw [hlog]
        rfl
      · rw [hlog]
        rfl
    · have h19 := h.follows i
      rw [hi, hz] at h19
      exact absurd (show 19 ≤ 0 from h19) (by decide)
  · obtain ⟨hlog, _, h19, _⟩ := h.behind hpos
    have hlen : s.log.length = s.db.version := by rw [hlog, List.length_range']
    refine ⟨by rw [hlen]; exact hlog, fun i hi => ?_, noFailure, Nat.le_of_eq hlen.symm⟩
    have := h.follows i
    rw [hi] at this
    have h19' : 19 ≤ s.db.version := this
    omega

/-! ## the steps -/

/-- a statement that changes nothing in the database, of an opener that is not about to record v001 -/
theorem Inv.goto {s : Sys ι} (h : Inv s) {i : ι} (hi : s.phase i ≠ .stamping) {ph : Phase}
    (hph : ph ≠ .stamping) (hfirst : ∀ k, ph = .first k → k = 0) (hf : Follows s.db.version ph) :
    Inv (s.goto i ph) := by
  have stamps : ∀ j, (s.goto i ph).phase j = .stamping → s.phase j = .stamping := by
    intro j hj
    rcases goto_or s i j ph with ⟨rfl, heq⟩ | ⟨_, heq⟩
    · exact absurd (heq.symm.trans hj) hph
    · exact heq.symm.trans hj
  refine ⟨fun hz => ?_, fun hpos => ?_, fun j => ?_⟩
  · rcases h.before hz with ⟨hlog, hnone, m, hm, hschema, hk⟩ | ⟨hlog, hschema, i₁, hi₁, honly⟩
    · refine Or.inl ⟨hlog, fun j hj => hnone j (stamps j hj), m, hm, hschema, fun j k hj => ?_⟩
      rcases goto_or s i j ph with ⟨rfl, heq⟩ | ⟨_, heq⟩
      · rw [hfirst k (heq.symm.trans hj)]
        exact Nat.zero_le m
      · exact hk j k (heq.symm.trans hj)
    · refine Or.inr ⟨hlog, hschema, i₁, ?_, fun j hj => honly j (stamps j hj)⟩
      have hne : i₁ ≠ i := by
        intro heq
        exact hi (by rw [← heq]; exact hi₁)
      rw [goto_of_ne s hne]
      exact hi₁
  · obtain ⟨hlog, hschema, h19, hnone⟩ := h.behind hpos
    exact ⟨hlog, hschema, h19, fun j hj => hnone j (stamps j hj)⟩
  · rcases goto_or s i j ph with ⟨_, heq⟩ | ⟨_, heq⟩
    · rw [heq]
      exact hf
    · rw [heq]
      exact h.follows j

/-- v001 is run while nobody has completed it -/
theorem first_inv {s s' : Sys ι} (h : Inv s) {i : ι} {k : ℕ} (hi : s.phase i = .first k)
    (hz : s.db.version = 0) (hnone : ∀ j, s.phase j ≠ .stamping) (hs : s.next i = some s') :
    Inv s' := by
  obtain ⟨hlog, _, m, hm, hschema, hk⟩ := (h.before hz).resolve_right fun ⟨_, _, j, hj, _⟩ => hnone j hj
  have hklt : k < v001.length := by
    have := h.follows i
    rw [hi] at this
    exact this
  have hexec := first_replay m k (hk i k hi) (by omega) hklt
  unfold Sys.next at hs
  rw [hi] at hs
  simp only [hschema, hexec] at hs
  split at hs
  · -- the last statement: the step is complete
    rename_i hlast
    rw [← Option.some.inj hs]
    have hmax : max m (k + 1) = v001.length := by omega
    refine ⟨fun _ => Or.inr ⟨by rw [hlog]; rfl, ?_, i, goto_self _ i _, fun j hj => ?_⟩,
      fun hpos => ?_, fun j => ?_⟩
    · show firstAt (max m (k + 1)) = schemaAt 1
      rw [hmax, firstAt_length]
    · rcases goto_or _ i j .stamping with ⟨rfl, _⟩ | ⟨_, heq⟩
      · rfl
      · exact absurd (heq.symm.trans hj) (hnone j)
    · exact absurd hz (Nat.pos_iff_ne_zero.mp hpos)
    · rcases goto_or _ i j .stamping with ⟨_, heq⟩ | ⟨_, heq⟩
      · rw [heq]
        trivial
      · rw [heq]
        exact h.follows j
  · rename_i hmore
    rw [← Option.some.inj hs]
    refine ⟨fun _ => Or.inl ⟨hlog, fun j hj => ?_, max m (k + 1), by omega, rfl, fun j l hj => ?_⟩,
      fun hpos => ?_, fun j => ?_⟩
    · rcases goto_or _ i j (.first (k + 1)) with ⟨_, heq⟩ | ⟨_, heq⟩
      · cases heq.symm.trans hj
      · exact hnone j (heq.symm.trans hj)
    · rcases goto_or _ i j (.first (k + 1)) with ⟨_, heq⟩ | ⟨_, heq⟩
      · cases heq.symm.trans hj
        omega
      · have := hk j l (heq.symm.trans hj)
        omega
    · exact absurd hz (Nat.pos_iff_ne_zero.mp hpos)
    · rcases goto_or _ i j (.first (k + 1)) with ⟨_, heq⟩ | ⟨_, heq⟩
      · rw [heq]
        show k + 1 < v001.length
        omega
      · rw [heq]
        exact h.follows j

/-- the version of v001 is recorded -/
theorem stamp_inv {s : Sys ι} (h : Inv s) {i : ι} (hi : s.phase i = .stamping) :
    Inv ({ s with db := { s.db with version := 1 } }.goto i (.rereading (stepsAfter 1))) := by
  have hz : s.db.version = 0 := by
    by_contra hne
    exact (h.behind (Nat.pos_of_ne_zero hne)).2.2.2 i hi
  obtain ⟨hlog, hschema, i₁, _, honly⟩ := (h.before hz).resolve_left fun hno => hno.2.1 i hi
  refine ⟨fun hno => absurd (show 1 = 0 from hno) (by decide),
    fun _ => ⟨hlog, hschema, show 1 ≤ 19 by decide, fun j hj => ?_⟩, fun j => ?_⟩
  · rcases goto_or _ i j (.rereading (stepsAfter 1)) with ⟨_, heq⟩ | ⟨hne, heq⟩
    · cases heq.symm.trans hj
    · exact hne ((honly j (heq.symm.trans hj)).trans (honly i hi).symm)
  · rcases goto_or _ i j (.rereading (stepsAfter 1)) with ⟨_, heq⟩ | ⟨_, heq⟩
    · rw [heq]
      exact ⟨1, Nat.le_refl 1, Nat.le_refl 1, by decide, rfl⟩
    · rw [heq]
      exact (h.follows j).mono (by rw [hz]; exact Nat.zero_le _)

/-- a fresh step applies to the schema that it was written for -/
theorem apply_inv {s s' : Sys ι} (h : Inv s) {i : ι} {n current : ℕ} {rest : List ℕ}
    (hi : s.phase i = .applying n current rest) (hn : s.db.version < n) (hs : s.next i = some s') :
    Inv s' := by
  have hf := h.follows i
  rw [hi] at hf
  obtain ⟨hv, h2, h19, hcurrent, hrest⟩ := hf
  have hnv : n = s.db.version + 1 := by omega
  obtain ⟨hlog, hschema, _, hnone⟩ := h.behind (by omega)
  have hexec : applyStep s.db n = some ⟨schemaAt n, n⟩ := by
    unfold applyStep
    rw [hschema, hnv, migration_ok s.db.version (by omega)]
    rfl
  unfold Sys.next at hs
  rw [hi] at hs
  simp only [hexec] at hs
  rw [← Option.some.inj hs]
  have hfollows : Follows n (if n < 10 then .rereading rest else checks current rest) := by
    rw [hrest]
    split
    · exact ⟨n, Nat.le_refl n, by omega, h19, rfl⟩
    · exact follows_checks (Nat.le_of_lt hcurrent) (Nat.le_refl n) (by omega) h19
  have hquiet : (if n < 10 then Phase.rereading rest else checks current rest) ≠ .stamping := by
    intro heq
    split at heq
    · cases heq
    · rw [hrest] at heq
      have := checks_ne_stamping current (stepsAfter n)
      exact this heq
  refine ⟨fun hno => absurd hno (show n ≠ 0 by omega), fun _ => ⟨?_, rfl, h19, fun j hj => ?_⟩,
    fun j => ?_⟩
  · show s.log ++ [n] = List.range' 1 n
    rw [hlog, hnv, List.range'_1_concat, Nat.add_comm]
  · rcases goto_or _ i j _ with ⟨_, heq⟩ | ⟨_, heq⟩
    · exact hquiet (heq.symm.trans hj)
    · exact hnone j (heq.symm.trans hj)
  · rcases goto_or _ i j _ with ⟨_, heq⟩ | ⟨_, heq⟩
    · rw [heq]
      exact hfollows
    · rw [heq]
      exact (h.follows j).mono (show s.db.version ≤ n by omega)

/-- an opener dies outside the recording of v001 -/
theorem crash_inv {s : Sys ι} (h : Inv s) {i : ι} (hi : s.phase i ≠ .stamping) :
    Inv (s.goto i .closed) := h.goto hi nofun nofun trivial

/-- only an opener at rest starts -/
theorem start_cases {s s' : Sys ι} {i : ι} (hs : s.step (.start i) = some s') :
    s.phase i ≠ .stamping ∧ s' = s.goto i .starting := by
  simp only [Sys.step] at hs
  split at hs <;> rename_i hi
  · exact ⟨by rw [hi]; nofun, (Option.some.inj hs).symm⟩
  · exact ⟨by rw [hi]; nofun, (Option.some.inj hs).symm⟩
  · exact ⟨by rw [hi]; nofun, (Option.some.inj hs).symm⟩
  · cases hs

/-- **A fresh step keeps the invariant.** -/
theorem step_inv (s : Sys ι) (e : Event ι) (s' : Sys ι) (h : Inv s) (hc : Fresh s e)
    (hs : s.step e = some s') : Inv s' := by
  cases e with
  | start i =>
    obtain ⟨hi, hgoto⟩ := start_cases hs
    rw [hgoto]
    exact h.goto hi nofun nofun trivial
  | crash i => exact Option.some.inj hs ▸ crash_inv h hc
  | next i =>
    have hs : s.next i = some s' := hs
    have hc : FreshStep s (s.phase i) := hc
    cases hi : s.phase i with
    | closed =>
      unfold Sys.next at hs
      rw [hi] at hs
      cases hs
    | starting =>
      unfold Sys.next at hs
      rw [hi] at hs
      simp only at hs
      rw [← Option.some.inj hs]
      have hne : s.phase i ≠ .stamping := by rw [hi]; nofun
      by_cases hv : s.db.version < 1
      · rw [if_pos hv]
        exact h.goto hne nofun (fun k hk => by cases hk; rfl) (show 0 < v001.length by decide)
      · rw [if_neg hv]
        exact h.goto hne (checks_ne_stamping _ _) (fun k hk => absurd hk (checks_ne_first _ _ k))
          (follows_checks (Nat.le_refl _) (by omega) (Nat.le_refl 1) (by decide))
    | first k =>
      rw [hi] at hc
      exact first_inv h hi hc.1 hc.2 hs
    | stamping =>
      unfold Sys.next at hs
      rw [hi] at hs
      simp only at hs
      exact Option.some.inj hs ▸ stamp_inv h hi
    | rereading rest =>
      have hf := h.follows i
      rw [hi] at hf
      obtain ⟨n, hn, h1, h19, rfl⟩ := hf
      unfold Sys.next at hs
      rw [hi] at hs
      simp only at hs
      rw [← Option.some.inj hs]
      exact h.goto (by rw [hi]; nofun) (checks_ne_stamping _ _)
        (fun k hk => absurd hk (checks_ne_first _ _ k))
        (follows_checks (Nat.le_refl _) hn h1 h19)
    | applying n current rest =>
      rw [hi] at hc
      exact apply_inv h hi hc hs
    | opened =>
      unfold Sys.next at hs
      rw [hi] at hs
      cases hs
    | failed =>
      unfold Sys.next at hs
      rw [hi] at hs
      cases hs

/-- **Migrations apply exactly once** in every run from an empty file whose steps are fresh. -/
theorem migrations_once (es : List (Event ι)) (s : Sys ι)
    (hrun : Runs.run Sys.step Sys.init es = some s)
    (hc : Runs.Along Sys.step Fresh Sys.init es) : ExactlyOnce s :=
  (Runs.run_inv (I := Inv) step_inv es _ s inv_init hc hrun).exactlyOnce

end

/-! ## two openers -/

/-- an open of an empty file up to version 2: the read, v001 with its version, the read, v002 -/
def openTo2 (i : Bool) : List (Event Bool) :=
  .start i :: .next i :: (List.replicate v001.length (.next i) ++ [.next i, .next i, .next i])

/-- the rest of it: v003 to v009 with a read behind each, and the later steps -/
def openFrom2 (i : Bool) : List (Event Bool) := .next i :: List.replicate 24 (.next i)

theorem migrations_once_open :
    ∃ s, Runs.run Sys.step Sys.init (openTo2 false ++ openFrom2 false) = some s ∧
      s.phase false = .opened ∧ ExactlyOnce s := by
  obtain ⟨s, hs, hopen⟩ := Option.map_eq_some_iff.mp
    (show (Runs.run Sys.step Sys.init (openTo2 false ++ openFrom2 false)).map
      (fun s => s.phase false) = some .opened by decide +kernel)
  refine ⟨s, hs, hopen, migrations_once _ s hs ?_⟩
  exact Runs.along_of_check (g := fun s e => decide (Fresh s e)) (fun _ _ => of_decide_eq_true) _ _
    (by decide +kernel)

/-- the first opener reads version 2, and so does the second; both go on to v003 -/
def collision : List (Event Bool) :=
  openTo2 false ++ [.next false, .start true, .next true, .next false, .next true]

/-- the second open fails on a column that the first has added -/
theorem second_open_fails :
    ¬ ∀ (es : List (Event Bool)) (s : Sys Bool), Runs.run Sys.step Sys.init es = some s →
      ExactlyOnce s := by
  intro hall
  obtain ⟨s, hs, hfail⟩ := Option.map_eq_some_iff.mp
    (show (Runs.run Sys.step Sys.init collision).map (fun s => s.phase true) = some .failed by
      decide +kernel)
  exact (hall collision s hs).noFailure true hfail

/-- A late opener that read version 0 takes the recorded version back to 1. -/
def setback : List (Event Bool) :=
  [.start true, .next true] ++ openTo2 false ++ List.replicate (v001.length + 1) (.next true)

example :
    (Runs.run Sys.step Sys.init setback).map (fun s => (s.db.version, s.log)) =
      some (1, [1, 2, 1]) := by
  decide +kernel

end Moagan.Storage.Migrations
