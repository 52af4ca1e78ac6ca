import Mathlib.Algebra.Group.Int.Defs
import Mathlib.Algebra.Group.Nat.Defs
import Mathlib.Data.Int.Order.Basic
import Mathlib.Logic.Function.Basic
import Moagan.Lib.Runs

/-!
# Run leases (`src/storage/lease.rs`, `renew_lease` in `src/storage/sqlite.rs`)

Processes share the table `process_locks`.  Every SQL statement is one atomic step; the steps of
different processes interleave in any order.

* `LockRow`, `Table`     the table and the statements on it
* `Proc`, `Phase`        a process: what it holds, and between which statements it stands
* `Sys.call`             the first statement of an operation, with the checks on what it read
* `Sys.next`             the next statement of an operation under way
* `call_cases`, `next_cases`   everything that the two can do
* `holds`                a process believes that it holds the run and owns the stored row

An operation reads the wall clock before its first statement; time can pass before the others.
-/

namespace Moagan.Storage

/-! ## the table -/

/-- the primary key `{run_id}|{holder}` -/
structure LockKey where
  run : String
  holder : String
deriving DecidableEq, Repr

structure LockRow where
  key : LockKey
  acquiredAt : ℤ
  expiresAt : ℤ
  fence : ℕ
  lastHeartbeat : ℤ
deriving DecidableEq, Repr

abbrev Table := List LockRow

def i64Max : ℤ := 2 ^ 63 - 1
def u64Max : ℕ := 2 ^ 64 - 1

/-- `SELECT … WHERE holder = ?` -/
def Table.get (t : Table) (k : LockKey) : Option LockRow := t.find? fun r => r.key = k

/-- `SELECT … WHERE holder LIKE '{run}|%' ORDER BY acquired_at_unix DESC LIMIT 1`; among rows
acquired in the same second any one may come first -/
def Table.IsLatest (t : Table) (run : String) : Option LockRow → Prop
  | none => ∀ r ∈ t, r.key.run ≠ run
  | some r => r ∈ t ∧ r.key.run = run ∧ ∀ x ∈ t, x.key.run = run → x.acquiredAt ≤ r.acquiredAt

instance (t : Table) (run : String) (pick : Option LockRow) : Decidable (t.IsLatest run pick) :=
  match pick with
  | none => inferInstanceAs (Decidable (∀ r ∈ t, r.key.run ≠ run))
  | some r => inferInstanceAs (Decidable
      (r ∈ t ∧ r.key.run = run ∧ ∀ x ∈ t, x.key.run = run → x.acquiredAt ≤ r.acquiredAt))

/-- `INSERT`; it fails when the key is there -/
def Table.insert (t : Table) (r : LockRow) : Option Table :=
  if t.any fun x => x.key = r.key then none else some (t ++ [r])

/-- `INSERT … ON CONFLICT(holder) DO UPDATE` -/
def Table.upsert (t : Table) (r : LockRow) : Table :=
  if t.any fun x => x.key = r.key then t.map fun x => if x.key = r.key then r else x else t ++ [r]

/-- `UPDATE … SET holder = key, … WHERE holder = stored`; it fails when another row has the new
key, and changes nothing when no row has the old one -/
def Table.renew (t : Table) (stored key : LockKey) (now expires : ℤ) (fence : ℕ) : Option Table :=
  if stored ≠ key ∧ (t.any fun x => x.key = stored) ∧ t.any fun x => x.key = key then none
  else some (t.map fun x =>
    if x.key = stored then { x with key := key, acquiredAt := now, expiresAt := expires, fence := fence }
    else x)

/-- `DELETE … WHERE holder = ?` -/
def Table.delete (t : Table) (k : LockKey) : Table := t.filter fun r => r.key ≠ k

/-- `UPDATE … SET last_heartbeat_unix = ? WHERE holder = ?` -/
def Table.beat (t : Table) (k : LockKey) (now : ℤ) : Table :=
  t.map fun x => if x.key = k then { x with lastHeartbeat := now } else x

/-- `SELECT COALESCE(MAX(CAST(fence AS INTEGER)), 0) + 1`; the cast saturates, and a sum that is no
`i64` is an error -/
def Table.nextFence (t : Table) : Option ℕ :=
  let m := (t.map fun r => min r.fence i64Max.toNat).foldl max 0
  if m + 1 ≤ i64Max.toNat then some (m + 1) else none

/-! ## processes -/

/-- the lease in hand: a `LeaseGuard` or a `ProcessLease` -/
structure Lease where
  fence : ℕ
  expiresAt : ℤ
  ttl : ℕ
deriving DecidableEq, Repr

/-- the statement that comes next -/
inductive Phase where
  | idle
  /-- `renew_lease` has read a row or none, and writes -/
  | renewing (now : ℤ) (ttl : ℕ) (read : Option LockRow)
  /-- `acquire_process_lock` found no lease in the way, and reads the fences -/
  | counting (now : ℤ) (ttl : ℕ)
  /-- it writes -/
  | storing (now : ℤ) (ttl fence : ℕ)
  | beating (now : ℤ)
  | releasing
deriving DecidableEq, Repr

/-- `confirmed`: the last acquire or renew returned `Ok` -/
structure Proc where
  phase : Phase
  lease : Option Lease
  confirmed : Bool
deriving DecidableEq, Repr

/-- an acquire or a renew returns `Ok` -/
def Proc.ok (l : Lease) : Proc := { phase := .idle, lease := some l, confirmed := true }

/-- it returns an error -/
def Proc.fail (p : Proc) : Proc := { p with phase := .idle, confirmed := false }

/-- the lease is given up -/
def Proc.free : Proc := { phase := .idle, lease := none, confirmed := false }

inductive Call where
  /-- `LeaseGuard::acquire` -/
  | acquire (ttl : ℕ)
  /-- `LeaseGuard::renew` -/
  | renew
  /-- `acquire_process_lock` -/
  | acquireProcessLock (ttl : ℕ)
  /-- `heartbeat_process_lock` -/
  | heartbeat
  /-- `release_process_lock` -/
  | release
  /-- `LeaseGuard::drop` -/
  | drop
deriving DecidableEq, Repr

/-- `pick` is the row that the `SELECT` of `renew_lease` returns -/
inductive Event (ι : Type) where
  | tick (clock : ℤ)
  | call (i : ι) (c : Call) (now : ℤ) (pick : Option LockRow)
  | next (i : ι)

structure Sys (ι : Type) where
  table : Table
  clock : ℤ
  procs : ι → Proc

section
variable {ι : Type} [DecidableEq ι] (key : ι → LockKey)

def Sys.set (s : Sys ι) (i : ι) (p : Proc) : Sys ι := { s with procs := Function.update s.procs i p }

@[simp] theorem Sys.set_self (s : Sys ι) (i : ι) (p : Proc) : (s.set i p).procs i = p := by
  show Function.update s.procs i p i = p
  exact Function.update_self ..

theorem Sys.set_of_ne (s : Sys ι) {i j : ι} (h : j ≠ i) (p : Proc) :
    (s.set i p).procs j = s.procs j := by
  show Function.update s.procs i p j = s.procs j
  exact Function.update_of_ne h ..

def Sys.goto (s : Sys ι) (i : ι) (ph : Phase) : Sys ι := s.set i { s.procs i with phase := ph }

def Sys.fail (s : Sys ι) (i : ι) : Sys ι := s.set i (s.procs i).fail

/-- the checks of `renew_lease` on the row it read -/
def renewRefused (holder : String) (now : ℤ) (r : LockRow) (expected : Option ℕ) : Bool :=
  let active : Bool := now < r.expiresAt
  match expected with
  | some f => r.key.holder ≠ holder || r.fence ≠ f || !active
  | none => active && r.key.holder ≠ holder

/-- `renew_lease` up to the checks behind its first statement -/
def Sys.renewSelect (s : Sys ι) (i : ι) (now : ℤ) (ttl : ℕ) (expected : Option ℕ) :
    Option LockRow → Sys ι
  | none => if expected.isSome then s.fail i else s.goto i (.renewing now ttl none)
  | some r =>
    if renewRefused (key i).holder now r expected ∨ u64Max < r.fence + 1 then s.fail i
    else s.goto i (.renewing now ttl (some r))

/-- the expiry stamp fits an `i64` -/
def stampFits (now : ℤ) (ttl : ℕ) : Bool := (ttl : ℤ) ≤ i64Max ∧ now + ttl ≤ i64Max

/-- the first statement of an operation -/
def Sys.call (s : Sys ι) (i : ι) (c : Call) (now : ℤ) (pick : Option LockRow) : Option (Sys ι) :=
  match c, (s.procs i).lease with
  | .acquire ttl, _ =>
    if !stampFits now ttl then some (s.fail i)
    else if s.table.IsLatest (key i).run pick then some (s.renewSelect key i now ttl none pick)
    else none
  | .renew, some l =>
    if !stampFits now l.ttl then some (s.fail i)
    else if s.table.IsLatest (key i).run pick then
      some (s.renewSelect key i now l.ttl (some l.fence) pick)
    else none
  | .acquireProcessLock ttl, _ =>
    if !stampFits now ttl then some (s.fail i)
    else match s.table.get (key i) with
      | some r => some (if now < r.expiresAt then s.fail i else s.goto i (.counting now ttl))
      | none => some (s.goto i (.counting now ttl))
  | .heartbeat, some l =>
    match s.table.get (key i) with
    | none => some s
    | some r =>
      some (if r.fence ≠ l.fence ∨ r.expiresAt ≤ now then s else s.goto i (.beating now))
  | .release, some l =>
    match s.table.get (key i) with
    | none => some (s.set i .free)
    | some r => some (if r.fence ≠ l.fence ∨ r.expiresAt ≤ now then s else s.goto i .releasing)
  | .drop, some _ => some ({ s with table := s.table.delete (key i) }.set i .free)
  | _, none => none

/-- the next statement of an operation under way -/
def Sys.next (s : Sys ι) (i : ι) : Option (Sys ι) :=
  match (s.procs i).phase with
  | .idle => none
  | .renewing now ttl none =>
    match s.table.insert ⟨key i, now, now + ttl, 1, 0⟩ with
    | some t => some ({ s with table := t }.set i (.ok ⟨1, now + ttl, ttl⟩))
    | none => some (s.fail i)
  | .renewing now ttl (some r) =>
    match s.table.renew r.key (key i) now (now + ttl) (r.fence + 1) with
    | some t => some ({ s with table := t }.set i (.ok ⟨r.fence + 1, now + ttl, ttl⟩))
    | none => some (s.fail i)
  | .counting now ttl =>
    match s.table.nextFence with
    | some f => some (s.goto i (.storing now ttl f))
    | none => some (s.fail i)
  | .storing now ttl f =>
    some ({ s with table := s.table.upsert ⟨key i, now, now + ttl, f, now⟩ }.set i
      (.ok ⟨f, now + ttl, ttl⟩))
  | .beating now => some ({ s with table := s.table.beat (key i) now }.goto i .idle)
  | .releasing => some ({ s with table := s.table.delete (key i) }.set i .free)

def Sys.step (s : Sys ι) : Event ι → Option (Sys ι)
  | .tick t => if s.clock ≤ t then some { s with clock := t } else none
  | .call i c now pick =>
    if (s.procs i).phase = .idle ∧ now ≤ s.clock then s.call key i c now pick else none
  | .next i => s.next key i

def Sys.init (start : ℤ) : Sys ι := { table := [], clock := start, procs := fun _ => .free }

/-! ## holding a run -/

/-- the last acquire or renew returned `Ok`, and the lease has not expired -/
def Sys.believes (s : Sys ι) (i : ι) (l : Lease) : Prop :=
  (s.procs i).confirmed = true ∧ (s.procs i).lease = some l ∧ s.clock < l.expiresAt

/-- the stored row of the process has its fence -/
def Sys.owns (s : Sys ι) (i : ι) (l : Lease) : Prop :=
  ∃ r ∈ s.table, r.key = key i ∧ r.fence = l.fence

def Sys.holds (s : Sys ι) (i : ι) : Prop := ∃ l, s.believes i l ∧ s.owns key i l

/-! ## what the statements check, at the time of the write -/

/-- the row is the one of the process's own unexpired lease -/
def Sys.ownRow (s : Sys ι) (i : ι) (r : LockRow) : Prop :=
  ∃ l, s.believes i l ∧ r.key = key i ∧ r.fence = l.fence

/-- no other lease of the run is active -/
def Sys.onlyOwn (s : Sys ι) (i : ι) : Prop :=
  ∀ r ∈ s.table, r.key.run = (key i).run → s.clock < r.expiresAt → s.ownRow key i r

end

/-! ## what an operation can do -/

section
variable {ι : Type} [DecidableEq ι] {key : ι → LockKey} {s s' : Sys ι} {i : ι}

/-- what the first statement of an operation leads to -/
inductive Called (key : ι → LockKey) (s : Sys ι) (i : ι) (now : ℤ) (pick : Option LockRow) :
    Call → Sys ι → Prop
  | refused {c : Call} : c ≠ .drop → Called key s i now pick c (s.fail i)
  | acquiring (ttl : ℕ) : s.table.IsLatest (key i).run pick →
      Called key s i now pick (.acquire ttl) (s.goto i (.renewing now ttl pick))
  | renewing (l : Lease) (r : LockRow) : (s.procs i).lease = some l → r.key = key i →
      r.fence = l.fence → Called key s i now pick .renew (s.goto i (.renewing now l.ttl (some r)))
  | counting (ttl : ℕ) :
      Called key s i now pick (.acquireProcessLock ttl) (s.goto i (.counting now ttl))
  | missed : Called key s i now pick .heartbeat s
  | beating : (s.procs i).lease.isSome → Called key s i now pick .heartbeat (s.goto i (.beating now))
  | gone : Called key s i now pick .release (s.set i .free)
  | kept : Called key s i now pick .release s
  | releasing : (s.procs i).lease.isSome → Called key s i now pick .release (s.goto i .releasing)
  | dropped : (s.procs i).lease.isSome →
      Called key s i now pick .drop ({ s with table := s.table.delete (key i) }.set i .free)

theorem renewRefused_expected {holder : String} {now : ℤ} {r : LockRow} {f : ℕ}
    (h : renewRefused holder now r (some f) = false) : r.key.holder = holder ∧ r.fence = f := by
  unfold renewRefused at h
  simpa using And.intro (Bool.or_eq_false_iff.mp (Bool.or_eq_false_iff.mp h).1).1
    (Bool.or_eq_false_iff.mp (Bool.or_eq_false_iff.mp h).1).2

theorem call_cases {c : Call} {now : ℤ} {pick : Option LockRow}
    (h : s.call key i c now pick = some s') : Called key s i now pick c s' := by
  unfold Sys.call at h
  split at h
  · rename_i ttl
    split at h
    · exact Option.some.inj h ▸ .refused nofun
    · split at h
      · rename_i hp
        rw [← Option.some.inj h]
        unfold Sys.renewSelect
        cases pick with
        | none => exact .acquiring ttl hp
        | some r =>
          simp only
          split
          · exact .refused nofun
          · exact .acquiring ttl hp
      · cases h
  · rename_i l hl
    split at h
    · exact Option.some.inj h ▸ .refused nofun
    · split at h
      · rename_i hp
        rw [← Option.some.inj h]
        unfold Sys.renewSelect
        cases pick with
        | none => exact .refused nofun
        | some r =>
          simp only
          split
          · exact .refused nofun
          · rename_i hok
            obtain ⟨hholder, hf⟩ := renewRefused_expected
              (Bool.eq_false_iff.mpr fun ht => hok (Or.inl ht))
            have hk : r.key = key i := by
              rw [show r.key = ⟨r.key.run, r.key.holder⟩ from rfl, hp.2.1, hholder]
            exact .renewing l r hl hk hf
      · cases h
  · rename_i ttl
    split at h
    · exact Option.some.inj h ▸ .refused nofun
    · split at h
      · rw [← Option.some.inj h]
        split
        · exact .refused nofun
        · exact .counting ttl
      · exact Option.some.inj h ▸ .counting ttl
  · rename_i l hl
    split at h
    · exact Option.some.inj h ▸ .missed
    · rw [← Option.some.inj h]
      split
      · exact .missed
      · exact .beating (by rw [hl]; rfl)
  · rename_i l hl
    split at h
    · exact Option.some.inj h ▸ .gone
    · rw [← Option.some.inj h]
      split
      · exact .kept
      · exact .releasing (by rw [hl]; rfl)
  · rename_i l hl
    exact Option.some.inj h ▸ .dropped (by rw [hl]; rfl)
  · cases h

/-- what the next statement of an operation leads to, from the phase it stands in -/
inductive Nexted (key : ι → LockKey) (s : Sys ι) (i : ι) : Phase → Sys ι → Prop
  | refused (now : ℤ) (ttl : ℕ) (read : Option LockRow) :
      Nexted key s i (.renewing now ttl read) (s.fail i)
  | inserted (now : ℤ) (ttl : ℕ) (t : Table) :
      s.table.insert ⟨key i, now, now + ttl, 1, 0⟩ = some t →
      Nexted key s i (.renewing now ttl none)
        ({ s with table := t }.set i (.ok ⟨1, now + ttl, ttl⟩))
  | renewed (now : ℤ) (ttl : ℕ) (r : LockRow) (t : Table) :
      s.table.renew r.key (key i) now (now + ttl) (r.fence + 1) = some t →
      Nexted key s i (.renewing now ttl (some r))
        ({ s with table := t }.set i (.ok ⟨r.fence + 1, now + ttl, ttl⟩))
  | overflowed (now : ℤ) (ttl : ℕ) : Nexted key s i (.counting now ttl) (s.fail i)
  | counted (now : ℤ) (ttl f : ℕ) : s.table.nextFence = some f →
      Nexted key s i (.counting now ttl) (s.goto i (.storing now ttl f))
  | stored (now : ℤ) (ttl f : ℕ) :
      Nexted key s i (.storing now ttl f)
        ({ s with table := s.table.upsert ⟨key i, now, now + ttl, f, now⟩ }.set i
          (.ok ⟨f, now + ttl, ttl⟩))
  | beaten (now : ℤ) :
      Nexted key s i (.beating now) ({ s with table := s.table.beat (key i) now }.goto i .idle)
  | released :
      Nexted key s i .releasing ({ s with table := s.table.delete (key i) }.set i .free)

theorem next_cases (h : s.next key i = some s') : Nexted key s i (s.procs i).phase s' := by
  unfold Sys.next at h
  split at h <;> rename_i hph
  · cases h
  · rw [hph]
    split at h
    · exact Option.some.inj h ▸ .inserted _ _ _ ‹_›
    · exact Option.some.inj h ▸ .refused _ _ _
  · rw [hph]
    split at h
    · exact Option.some.inj h ▸ .renewed _ _ _ _ ‹_›
    · exact Option.some.inj h ▸ .refused _ _ _
  · rw [hph]
    split at h
    · exact Option.some.inj h ▸ .counted _ _ _ ‹_›
    · exact Option.some.inj h ▸ .overflowed _ _
  · rw [hph]
    exact Option.some.inj h ▸ .stored _ _ _
  · rw [hph]
    exact Option.some.inj h ▸ .beaten _
  · rw [hph]
    exact Option.some.inj h ▸ .released

end

end Moagan.Storage
