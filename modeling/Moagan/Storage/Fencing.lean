import Mathlib.Data.List.Basic
import Moagan.Storage.Exclusion

/-!
# Fencing of run leases

* `History`        the acquisitions so far, in order, and for every row, lease and read the
                   acquisition it belongs to
* `Traced.step`    a step of the processes, or the death of one
* `Fenced`         an acquisition has read the row of the last one of its run, and nobody else holds
                   a lease under its name
* `step_inv`       what such a step keeps
* `lease_fencing`  then the tokens of a run increase from one acquisition to the next, and no lease
                   changes the row of a later one

Acquisitions are numbered in their order, over all runs.
-/

set_option linter.unusedSectionVars false

namespace Moagan.Storage

/-! ## the history -/

/-- a lease that was handed out -/
structure Acquisition where
  run : String
  fence : ℕ
deriving DecidableEq, Repr

structure History (ι : Type) where
  log : List Acquisition
  /-- the last acquisition of a run -/
  last : String → Option ℕ
  /-- the acquisition that a row comes from, also when it was renewed since -/
  rowOf : LockKey → ℕ
  /-- the acquisition that a lease in hand comes from -/
  guardOf : ι → ℕ
  /-- the operation under way is an acquisition -/
  acquiring : ι → Bool
  /-- the acquisition whose row it has read -/
  seen : ι → Option ℕ
  /-- the writes through a lease: the acquisition of the lease, and that of the row it changed -/
  hits : List (ℕ × ℕ)

structure Traced (ι : Type) where
  sys : Sys ι
  hist : History ι

section
variable {ι : Type} [DecidableEq ι] (key : ι → LockKey)

def History.init : History ι where
  log := []
  last _ := none
  rowOf _ := 0
  guardOf _ := 0
  acquiring _ := false
  seen _ := none
  hits := []

def History.start (h : History ι) (i : ι) (acquiring : Bool) (seen : Option ℕ) : History ι :=
  { h with
    acquiring := Function.update h.acquiring i acquiring
    seen := Function.update h.seen i seen }

/-- process `i` writes under its own key -/
def History.touch (h : History ι) (s : Sys ι) (i : ι) : History ι :=
  if (s.table.get (key i)).isSome then
    { h with hits := h.hits ++ [(h.guardOf i, h.rowOf (key i))] }
  else h

/-- process `i` is handed out `fence`; `stored` when the row was written -/
def History.acquire (h : History ι) (i : ι) (fence : ℕ) (stored : Bool) : History ι :=
  { h with
    log := h.log ++ [⟨(key i).run, fence⟩]
    last := Function.update h.last (key i).run (some h.log.length)
    rowOf := if stored then Function.update h.rowOf (key i) h.log.length else h.rowOf
    guardOf := Function.update h.guardOf i h.log.length }

/-- the fence of the lease in hand -/
def Sys.handed (s : Sys ι) (i : ι) : ℕ := ((s.procs i).lease.map Lease.fence).getD 0

/-- the last acquisition of the run, when its row is stored -/
def History.lastStored (h : History ι) (s : Sys ι) (run : String) : Option ℕ :=
  (h.last run).filter fun n => s.table.any fun x => x.key.run = run && h.rowOf x.key = n

/-- the history behind a step from `s` to `s'` -/
def History.record (h : History ι) (s : Sys ι) (e : Event ι) (s' : Sys ι) : History ι :=
  match e with
  | .tick _ => h
  | .call i (.acquire _) _ pick => h.start i true (pick.map fun r => h.rowOf r.key)
  | .call i (.acquireProcessLock _) _ _ => h.start i true none
  | .call i .renew _ _ => h.start i false none
  | .call i .drop _ _ => h.touch key s i
  | .call _ .heartbeat _ _ => h
  | .call _ .release _ _ => h
  | .next i =>
    match (s.procs i).phase with
    | .renewing _ _ none =>
      if (s'.procs i).confirmed then h.acquire key i (s'.handed i) true else h
    | .renewing _ _ (some r) =>
      if (s'.procs i).confirmed then
        if h.acquiring i then h.acquire key i (s'.handed i) (s.table.any fun x => x.key = r.key)
        else h.touch key s i
      else h
    | .counting _ _ => h.start i true (h.lastStored s (key i).run)
    | .storing _ _ _ => h.acquire key i (s'.handed i) true
    | .beating _ => h.touch key s i
    | .releasing => h.touch key s i
    | .idle => h

/-- a process can also die: its lease is gone, and its row stays -/
inductive Move (ι : Type) where
  | step (e : Event ι)
  | crash (i : ι)

def Traced.step (t : Traced ι) : Move ι → Option (Traced ι)
  | .step e => (t.sys.step key e).map fun s' => ⟨s', t.hist.record key t.sys e s'⟩
  | .crash i => some ⟨t.sys.set i .free, t.hist⟩

def Traced.init (start : ℤ) : Traced ι := ⟨Sys.init start, .init⟩

/-- the history takes no part in the run -/
theorem traced_run (t : Traced ι) (es : List (Event ι)) :
    (Runs.run (Traced.step key) t (es.map .step)).map Traced.sys
      = Runs.run (Sys.step key) t.sys es := by
  induction es generalizing t with
  | nil => rfl
  | cons e es ih =>
    have hstep : t.step key (.step e) =
        (t.sys.step key e).map fun s' => ⟨s', t.hist.record key t.sys e s'⟩ := rfl
    rw [List.map_cons, Runs.run_cons, Runs.run_cons, hstep]
    cases t.sys.step key e with
    | none => rfl
    | some s' => exact ih ⟨s', _⟩

/-! ## when the tokens fence -/

/-- the next statement of `i` hands out a lease -/
def Traced.acquires (t : Traced ι) (i : ι) : Prop :=
  match (t.sys.procs i).phase with
  | .renewing _ _ _ => t.hist.acquiring i = true
  | .storing _ _ _ => True
  | _ => False

/-- **When an acquisition is fenced**: it has read the row of the last acquisition of its run, and
no other lease is held under its name. -/
def Fenced (t : Traced ι) : Move ι → Prop
  | .step (.next i) => t.acquires i → t.hist.seen i = t.hist.last (key i).run ∧
      ∀ j, j ≠ i → key j = key i → (t.sys.procs j).lease = none
  | _ => True

end

/-! ## the invariant -/

/-- acquisition `n` is one of the run, with a fence up to `f` -/
def Within (log : List Acquisition) (n : ℕ) (run : String) (f : ℕ) : Prop :=
  ∃ a, log[n]? = some a ∧ a.run = run ∧ a.fence ≤ f

/-- every later acquisition of a run has a larger fence -/
def Rising (log : List Acquisition) : Prop :=
  log.Pairwise fun a b => a.run = b.run → a.fence < b.fence

theorem Within.append {log : List Acquisition} {n f : ℕ} {run : String} (h : Within log n run f)
    (more : List Acquisition) : Within (log ++ more) n run f := by
  obtain ⟨a, ha, hrun, hf⟩ := h
  exact ⟨a, by rw [List.getElem?_append_left (List.getElem?_eq_some_iff.mp ha).1, ha], hrun, hf⟩

theorem Within.lt {log : List Acquisition} {n f : ℕ} {run : String} (h : Within log n run f) :
    n < log.length := by
  obtain ⟨a, ha, _⟩ := h
  exact (List.getElem?_eq_some_iff.mp ha).1

theorem Within.mono {log : List Acquisition} {n f g : ℕ} {run : String} (h : Within log n run f)
    (hfg : f ≤ g) : Within log n run g := by
  obtain ⟨a, ha, hrun, hf⟩ := h
  exact ⟨a, ha, hrun, Nat.le_trans hf hfg⟩

theorem within_concat (log : List Acquisition) (run : String) (f : ℕ) :
    Within (log ++ [⟨run, f⟩]) log.length run f :=
  ⟨⟨run, f⟩, by rw [List.getElem?_concat_length], rfl, Nat.le_refl f⟩

/-- of two acquisitions of a run, the earlier has the lower fence -/
theorem Rising.fence_le {log : List Acquisition} (h : Rising log) {m n : ℕ} {a b : Acquisition}
    (ha : log[m]? = some a) (hb : log[n]? = some b) (hrun : a.run = b.run) (hmn : m ≤ n) :
    a.fence ≤ b.fence := by
  rcases Nat.lt_or_eq_of_le hmn with hlt | heq
  · obtain ⟨hm, rfl⟩ := List.getElem?_eq_some_iff.mp ha
    obtain ⟨hn, rfl⟩ := List.getElem?_eq_some_iff.mp hb
    exact Nat.le_of_lt (List.pairwise_iff_getElem.mp h m n hm hn hlt hrun)
  · subst heq
    rw [ha] at hb
    exact Nat.le_of_eq (congrArg Acquisition.fence (Option.some.inj hb))

/-- an earlier acquisition of the run is within every fence that a later one is within -/
theorem Rising.within {log : List Acquisition} (h : Rising log) {m n f g : ℕ} {run : String}
    (hm : Within log m run g) (hn : Within log n run f) (hmn : m ≤ n) : Within log m run f := by
  obtain ⟨a, ha, harun, _⟩ := hm
  obtain ⟨b, hb, hbrun, hbf⟩ := hn
  exact ⟨a, ha, harun, Nat.le_trans (h.fence_le ha hb (harun.trans hbrun.symm) hmn) hbf⟩

section
variable {ι : Type} [DecidableEq ι] {key : ι → LockKey}

/-- what a process has read is what it needs for its next statement -/
def Ready (key : ι → LockKey) (h : History ι) (lease : Option Lease) (i : ι) : Phase → Prop
  | .idle => True
  | .renewing _ _ none => h.acquiring i = true ∧ h.seen i = none
  | .renewing _ _ (some r) =>
    if h.acquiring i then ∃ n, h.seen i = some n ∧ Within h.log n (key i).run r.fence
    else ∃ l, lease = some l ∧ r.key = key i ∧ r.fence = l.fence
  | .counting _ _ => True
  | .storing _ _ f => ∀ n, h.seen i = some n → ∃ g, g < f ∧ Within h.log n (key i).run g
  | .beating _ => lease.isSome = true
  | .releasing => lease.isSome = true

theorem Ready.keep {h h' : History ι} {lease : Option Lease} {i : ι} {ph : Phase}
    (hr : Ready key h lease i ph) (ha : h'.acquiring i = h.acquiring i)
    (hs : h'.seen i = h.seen i)
    (hw : ∀ n f, Within h.log n (key i).run f → Within h'.log n (key i).run f) :
    Ready key h' lease i ph := by
  cases ph with
  | renewing now ttl read =>
    cases read with
    | none => exact ⟨ha.trans hr.1, hs.trans hr.2⟩
    | some r =>
      unfold Ready at hr ⊢
      simp only [ha, hs] at hr ⊢
      split
      · rename_i hacq
        rw [if_pos hacq] at hr
        obtain ⟨n, hn, hwn⟩ := hr
        exact ⟨n, hn, hw n _ hwn⟩
      · rename_i hacq
        rwa [if_neg hacq] at hr
  | storing now ttl f =>
    intro n hn
    obtain ⟨g, hg, hwg⟩ := hr n (hs.symm.trans hn)
    exact ⟨g, hg, hw n g hwg⟩
  | _ => exact hr

/-- the history is about the table and the leases, and no lease has changed the row of a later one -/
structure Inv (key : ι → LockKey) (t : Traced ι) : Prop where
  rising : Rising t.hist.log
  last_none : ∀ run, t.hist.last run = none → ∀ a ∈ t.hist.log, a.run ≠ run
  last_some : ∀ run n, t.hist.last run = some n →
    ∀ m a, t.hist.log[m]? = some a → a.run = run → m ≤ n
  row : ∀ x ∈ t.sys.table, Within t.hist.log (t.hist.rowOf x.key) x.key.run x.fence
  guard : ∀ i l, (t.sys.procs i).lease = some l →
    Within t.hist.log (t.hist.guardOf i) (key i).run l.fence
  newest : ∀ i l, (t.sys.procs i).lease = some l → ∀ x ∈ t.sys.table, x.key = key i →
    t.hist.rowOf (key i) ≤ t.hist.guardOf i
  ready : ∀ i, Ready key t.hist (t.sys.procs i).lease i (t.sys.procs i).phase
  hits : ∀ p ∈ t.hist.hits, p.2 ≤ p.1

theorem inv_init (start : ℤ) : Inv key (Traced.init start : Traced ι) where
  rising := List.Pairwise.nil
  last_none _ _ a ha := by cases ha
  last_some _ _ h := by cases h
  row x hx := by cases hx
  guard i l h := by cases h
  newest i l h := by cases h
  ready _ := trivial
  hits p hp := by cases hp

/-! ## steps that hand out no lease -/

/-- the rows come from the old ones, and the processes are as before or rest with a lease that they
had -/
structure Quiet (key : ι → LockKey) (t : Traced ι) (s' : Sys ι) : Prop where
  row : ∀ x ∈ s'.table, (∃ y ∈ t.sys.table, y.key = x.key) ∧
    Within t.hist.log (t.hist.rowOf x.key) x.key.run x.fence
  proc : ∀ j, s'.procs j = t.sys.procs j ∨ ((s'.procs j).phase = .idle ∧
    ∀ l', (s'.procs j).lease = some l' →
      ∃ l, (t.sys.procs j).lease = some l ∧ l.fence ≤ l'.fence)

theorem Inv.quiet {t : Traced ι} (h : Inv key t) {s' : Sys ι} (hq : Quiet key t s') :
    Inv key ⟨s', t.hist⟩ := by
  have had : ∀ j l', (s'.procs j).lease = some l' →
      ∃ l, (t.sys.procs j).lease = some l ∧ l.fence ≤ l'.fence := by
    intro j l' hl
    rcases hq.proc j with heq | hrest
    · exact ⟨l', by rw [← heq]; exact hl, Nat.le_refl _⟩
    · exact hrest.2 l' hl
  refine ⟨h.rising, h.last_none, h.last_some, fun x hx => (hq.row x hx).2, fun i l' hl => ?_,
    fun i l' hl x hx hk => ?_, fun i => ?_, h.hits⟩
  · obtain ⟨l, hold, hle⟩ := had i l' hl
    exact (h.guard i l hold).mono hle
  · obtain ⟨l, hold, _⟩ := had i l' hl
    obtain ⟨y, hy, hyk⟩ := (hq.row x hx).1
    exact h.newest i l hold y hy (hyk.trans hk)
  · rcases hq.proc i with heq | hrest
    · show Ready key t.hist (s'.procs i).lease i (s'.procs i).phase
      rw [heq]
      exact h.ready i
    · show Ready key t.hist (s'.procs i).lease i (s'.procs i).phase
      rw [hrest.1]
      trivial

/-- a write under the own key, through a lease -/
theorem Inv.touch {t : Traced ι} (h : Inv key t) {s' : Sys ι} (h' : Inv key ⟨s', t.hist⟩) {i : ι}
    (hl : (t.sys.procs i).lease.isSome) : Inv key ⟨s', t.hist.touch key t.sys i⟩ := by
  obtain ⟨l, hl⟩ := Option.isSome_iff_exists.mp hl
  unfold History.touch
  split
  · rename_i hrow
    obtain ⟨x, hx⟩ := Option.isSome_iff_exists.mp hrow
    have hmem := List.mem_of_find?_eq_some hx
    have hkey : x.key = key i := by simpa using List.find?_some hx
    refine ⟨h'.rising, h'.last_none, h'.last_some, h'.row, h'.guard, h'.newest, fun j => ?_,
      fun p hp => ?_⟩
    · exact (h'.ready j).keep rfl rfl fun _ _ hw => hw
    · rcases List.mem_append.mp hp with hold | hnew
      · exact h'.hits p hold
      · rw [List.mem_singleton] at hnew
        subst hnew
        exact h.newest i l hl x hmem hkey
  · exact h'

/-- process `i` goes on to a statement that it is ready for -/
theorem Inv.start {t : Traced ι} (h : Inv key t) (i : ι) (acquiring : Bool) (seen : Option ℕ)
    (s' : Sys ι) (htable : s'.table = t.sys.table) (hother : ∀ j, j ≠ i → s'.procs j = t.sys.procs j)
    (hlease : (s'.procs i).lease = (t.sys.procs i).lease)
    (hready : Ready key (t.hist.start i acquiring seen) (s'.procs i).lease i (s'.procs i).phase) :
    Inv key ⟨s', t.hist.start i acquiring seen⟩ := by
  have hl : ∀ j, (s'.procs j).lease = (t.sys.procs j).lease := by
    intro j
    by_cases hj : j = i
    · rw [hj]; exact hlease
    · rw [hother j hj]
  refine ⟨h.rising, h.last_none, h.last_some, fun x hx => h.row x (htable ▸ hx),
    fun j l hlj => h.guard j l ((hl j).symm.trans hlj),
    fun j l hlj x hx => h.newest j l ((hl j).symm.trans hlj) x (htable ▸ hx), fun j => ?_, h.hits⟩
  by_cases hj : j = i
  · subst hj
    exact hready
  · show Ready key _ (s'.procs j).lease j (s'.procs j).phase
    rw [hother j hj]
    refine (h.ready j).keep ?_ ?_ fun _ _ hw => hw
    · exact Function.update_of_ne hj ..
    · exact Function.update_of_ne hj ..

/-! ## steps that hand out a lease -/

section
variable (h : History ι) (i : ι) (fence : ℕ) (stored : Bool)

theorem acquire_log : (h.acquire key i fence stored).log = h.log ++ [⟨(key i).run, fence⟩] := rfl

theorem acquire_last_self :
    (h.acquire key i fence stored).last (key i).run = some h.log.length := Function.update_self ..

theorem acquire_last_of_ne {run : String} (hr : run ≠ (key i).run) :
    (h.acquire key i fence stored).last run = h.last run := Function.update_of_ne hr ..

theorem acquire_rowOf_self : (h.acquire key i fence true).rowOf (key i) = h.log.length := by
  unfold History.acquire
  exact Function.update_self ..

theorem acquire_rowOf_old {k : LockKey} (hk : k = key i → stored = false) :
    (h.acquire key i fence stored).rowOf k = h.rowOf k := by
  unfold History.acquire
  cases stored with
  | false => rfl
  | true => exact Function.update_of_ne (fun heq => by cases hk heq) ..

theorem acquire_guardOf_self :
    (h.acquire key i fence stored).guardOf i = h.log.length := Function.update_self ..

theorem acquire_guardOf_of_ne {j : ι} (hj : j ≠ i) :
    (h.acquire key i fence stored).guardOf j = h.guardOf j := Function.update_of_ne hj ..

/-- the last acquisition of a run stays the last one of the run -/
theorem acquire_last_none
    (hnone : ∀ run, h.last run = none → ∀ a ∈ h.log, a.run ≠ run) (run : String)
    (hn : (h.acquire key i fence stored).last run = none) :
    ∀ a ∈ (h.acquire key i fence stored).log, a.run ≠ run := by
  intro a ha
  by_cases hr : run = (key i).run
  · subst hr
    rw [acquire_last_self] at hn
    cases hn
  · rw [acquire_last_of_ne h i fence stored hr] at hn
    rcases List.mem_append.mp ha with hold | hnew
    · exact hnone run hn a hold
    · rw [List.mem_singleton.mp hnew]
      exact Ne.symm hr

theorem acquire_last_some
    (hsome : ∀ run n, h.last run = some n → ∀ m a, h.log[m]? = some a → a.run = run → m ≤ n)
    (run : String) (n : ℕ) (hn : (h.acquire key i fence stored).last run = some n) (m : ℕ)
    (a : Acquisition) (hm : (h.acquire key i fence stored).log[m]? = some a) (hrun : a.run = run) :
    m ≤ n := by
  rw [acquire_log] at hm
  have hlen := (List.getElem?_eq_some_iff.mp hm).1
  rw [List.length_append, List.length_singleton] at hlen
  by_cases hr : run = (key i).run
  · subst hr
    rw [acquire_last_self] at hn
    have := Option.some.inj hn
    omega
  · rw [acquire_last_of_ne h i fence stored hr] at hn
    rcases Nat.lt_or_eq_of_le (Nat.le_of_lt_succ hlen) with hlt | heq
    · rw [List.getElem?_append_left hlt] at hm
      exact hsome run n hn m a hm hrun
    · subst heq
      rw [List.getElem?_concat_length] at hm
      exact absurd ((congrArg Acquisition.run (Option.some.inj hm)).trans hrun) (Ne.symm hr)

end

/-- behind what the operation has read, no fence of the run reaches the new one -/
theorem Inv.below {t : Traced ι} (h : Inv key t) {i : ι} {fence : ℕ}
    (hseen : ∀ n, t.hist.seen i = some n → ∃ g, g < fence ∧ Within t.hist.log n (key i).run g)
    (hlast : t.hist.seen i = t.hist.last (key i).run) :
    ∀ a ∈ t.hist.log, a.run = (key i).run → a.fence < fence := by
  intro a ha hrun
  cases hl : t.hist.last (key i).run with
  | none => exact absurd hrun (h.last_none _ hl a ha)
  | some n =>
    obtain ⟨m, hm⟩ := List.getElem?_of_mem ha
    obtain ⟨g, hg, b, hb, hbrun, hbf⟩ := hseen n (hlast.trans hl)
    have := h.rising.fence_le hm hb (hrun.trans hbrun.symm) (h.last_some _ n hl m a hm hrun)
    omega

/-- **A lease is handed out**: its fence is above the one of the acquisition that was read, and that
one is the last of the run. -/
theorem Inv.acquire {t : Traced ι} (h : Inv key t) {i : ι} {l : Lease} {table : Table} (stored : Bool)
    (hseen : ∀ n, t.hist.seen i = some n → ∃ g, g < l.fence ∧ Within t.hist.log n (key i).run g)
    (hlast : t.hist.seen i = t.hist.last (key i).run)
    (halone : ∀ j, j ≠ i → key j = key i → (t.sys.procs j).lease = none)
    (hrow : ∀ x ∈ table, (x.key = key i ∧ stored = true ∧ x.fence = l.fence) ∨
      ((x.key = key i → stored = false) ∧ x ∈ t.sys.table)) :
    Inv key ⟨{ t.sys with table := table }.set i (.ok l), t.hist.acquire key i l.fence stored⟩ := by
  have other : ∀ j, j ≠ i → ({ t.sys with table := table }.set i (.ok l)).procs j = t.sys.procs j :=
    fun j hj => Sys.set_of_ne _ hj _
  have self : ({ t.sys with table := table }.set i (.ok l)).procs i = .ok l := Sys.set_self ..
  refine ⟨?_, acquire_last_none _ i _ stored h.last_none, acquire_last_some _ i _ stored h.last_some,
    fun x hx => ?_, fun j m hm => ?_, fun j m hm x hx hk => ?_, fun j => ?_, h.hits⟩
  · refine List.pairwise_append.mpr ⟨h.rising, List.pairwise_singleton .., fun a ha b hb hrun => ?_⟩
    rw [List.mem_singleton.mp hb] at hrun ⊢
    exact h.below hseen hlast a ha hrun
  · rcases hrow x hx with ⟨hk, hst, hf⟩ | ⟨hst, hold⟩
    · subst hst
      show Within _ ((t.hist.acquire key i l.fence true).rowOf x.key) _ _
      rw [hk, hf, acquire_rowOf_self]
      exact within_concat _ _ _
    · show Within _ ((t.hist.acquire key i l.fence stored).rowOf x.key) _ _
      rw [acquire_rowOf_old _ i _ stored hst]
      exact (h.row x hold).append _
  · by_cases hj : j = i
    · subst hj
      obtain rfl : m = l := (Option.some.inj ((congrArg Proc.lease self).symm.trans hm)).symm
      show Within _ ((t.hist.acquire key j m.fence stored).guardOf j) _ _
      rw [acquire_guardOf_self]
      exact within_concat _ _ _
    · show Within _ ((t.hist.acquire key i l.fence stored).guardOf j) _ _
      rw [acquire_guardOf_of_ne _ i _ stored hj]
      exact (h.guard j m ((congrArg Proc.lease (other j hj)).symm.trans hm)).append _
  · show (t.hist.acquire key i l.fence stored).rowOf (key j)
      ≤ (t.hist.acquire key i l.fence stored).guardOf j
    by_cases hj : j = i
    · subst hj
      rw [acquire_guardOf_self]
      rcases hrow x hx with ⟨_, hst, _⟩ | ⟨hst, hold⟩
      · subst hst
        exact Nat.le_of_eq (acquire_rowOf_self ..)
      · rw [← hk, acquire_rowOf_old _ j _ stored hst]
        exact Nat.le_of_lt (h.row x hold).lt
    · -- a lease of the others under this name would have been in the way
      have hmold := (congrArg Proc.lease (other j hj)).symm.trans hm
      have hne : key j ≠ key i := by
        intro heq
        rw [halone j hj heq] at hmold
        cases hmold
      rw [acquire_guardOf_of_ne _ i _ stored hj,
        acquire_rowOf_old _ i _ stored fun heq => absurd heq hne]
      rcases hrow x hx with ⟨hki, _, _⟩ | ⟨_, hold⟩
      · exact absurd (hk.symm.trans hki) hne
      · exact h.newest j m hmold x hold hk
  · show Ready key _ (({ t.sys with table := table }.set i (.ok l)).procs j).lease j
      (({ t.sys with table := table }.set i (.ok l)).procs j).phase
    by_cases hj : j = i
    · subst hj
      rw [self]
      trivial
    · rw [other j hj]
      exact (h.ready j).keep rfl rfl fun _ _ hw => hw.append _

/-! ## the rows that a statement leaves -/

theorem insert_fresh {t t' : Table} {r : LockRow} (h : t.insert r = some t') :
    ∀ x ∈ t, x.key ≠ r.key := by
  unfold Table.insert at h
  split at h
  · cases h
  · rename_i hany
    intro x hx hk
    exact hany (List.any_eq_true.mpr ⟨x, hx, by simpa using hk⟩)

theorem upsert_rows {t : Table} {r x : LockRow} (h : x ∈ t.upsert r) :
    x = r ∨ x ∈ t ∧ x.key ≠ r.key := by
  unfold Table.upsert at h
  split at h
  · obtain ⟨y, hy, rfl⟩ := List.mem_map.mp h
    split
    · exact Or.inl rfl
    · exact Or.inr ⟨hy, ‹_›⟩
  · rename_i hany
    rcases List.mem_append.mp h with hx | hx
    · exact Or.inr ⟨hx, fun hk => hany (List.any_eq_true.mpr ⟨x, hx, by simpa using hk⟩)⟩
    · exact Or.inl (List.mem_singleton.mp hx)

theorem renew_rows {t t' : Table} {stored k : LockKey} {now expires : ℤ} {f : ℕ}
    (h : t.renew stored k now expires f = some t') {x : LockRow} (hx : x ∈ t') :
    (∃ y ∈ t, y.key = stored ∧ x.key = k ∧ x.fence = f) ∨ x ∈ t ∧ x.key ≠ stored := by
  unfold Table.renew at h
  split at h
  · cases h
  · rw [← Option.some.inj h] at hx
    obtain ⟨y, hy, rfl⟩ := List.mem_map.mp hx
    split
    · exact Or.inl ⟨y, hy, ‹_›, rfl, rfl⟩
    · exact Or.inr ⟨hy, ‹_›⟩

/-- no row moves onto the key of another -/
theorem renew_free {t t' : Table} {stored k : LockKey} {now expires : ℤ} {f : ℕ}
    (h : t.renew stored k now expires f = some t') (hs : ∃ y ∈ t, y.key = stored) {x : LockRow}
    (hx : x ∈ t) (hk : x.key ≠ stored) : x.key ≠ k := by
  intro hxk
  unfold Table.renew at h
  rw [if_pos] at h
  · cases h
  · obtain ⟨y, hy, hys⟩ := hs
    exact ⟨fun heq => hk (hxk.trans heq.symm), List.any_eq_true.mpr ⟨y, hy, by simpa using hys⟩,
      List.any_eq_true.mpr ⟨x, hx, by simpa using hxk⟩⟩

theorem beat_rows {t : Table} {k : LockKey} {now : ℤ} {x : LockRow} (h : x ∈ t.beat k now) :
    ∃ y ∈ t, y.key = x.key ∧ y.fence = x.fence := by
  obtain ⟨y, hy, rfl⟩ := List.mem_map.mp h
  refine ⟨y, hy, ?_⟩
  split <;> exact ⟨rfl, rfl⟩

theorem le_foldl_max (xs : List ℕ) : ∀ a, a ≤ xs.foldl max a ∧ ∀ x ∈ xs, x ≤ xs.foldl max a := by
  induction xs with
  | nil => exact fun a => ⟨Nat.le_refl a, fun x hx => by cases hx⟩
  | cons y ys ih =>
    intro a
    obtain ⟨h1, h2⟩ := ih (max a y)
    rw [List.foldl_cons]
    refine ⟨by omega, fun x hx => ?_⟩
    rcases List.mem_cons.mp hx with rfl | hx
    · omega
    · exact h2 x hx

/-- the next fence is above every stored one -/
theorem nextFence_gt {t : Table} {f : ℕ} (h : t.nextFence = some f) : ∀ x ∈ t, x.fence < f := by
  intro x hx
  unfold Table.nextFence at h
  have hmax := (le_foldl_max (t.map fun r => min r.fence i64Max.toNat) 0).2 _
    (List.mem_map.mpr ⟨x, hx, rfl⟩)
  simp only at h
  split at h
  · have := Option.some.inj h
    omega
  · cases h

/-! ## the steps -/

theorem Inv.fail {t : Traced ι} (h : Inv key t) (i : ι) : Inv key ⟨t.sys.fail i, t.hist⟩ := by
  refine h.quiet ⟨fun x hx => ⟨⟨x, hx, rfl⟩, h.row x hx⟩, fun j => ?_⟩
  by_cases hj : j = i
  · subst hj
    refine Or.inr ?_
    unfold Sys.fail
    rw [Sys.set_self]
    exact ⟨rfl, fun l hl => ⟨l, hl, Nat.le_refl _⟩⟩
  · exact Or.inl (Sys.set_of_ne _ hj _)

/-- the lease is given up, and rows may go -/
theorem Inv.free {t : Traced ι} (h : Inv key t) (i : ι) {table : Table}
    (ht : ∀ x ∈ table, x ∈ t.sys.table) :
    Inv key ⟨{ t.sys with table := table }.set i .free, t.hist⟩ := by
  refine h.quiet ⟨fun x hx => ⟨⟨x, ht x hx, rfl⟩, h.row x (ht x hx)⟩, fun j => ?_⟩
  by_cases hj : j = i
  · subst hj
    rw [Sys.set_self]
    exact Or.inr ⟨rfl, fun l hl => by cases hl⟩
  · exact Or.inl (Sys.set_of_ne _ hj _)

theorem start_self (h : History ι) (i : ι) : h.start i (h.acquiring i) (h.seen i) = h := by
  unfold History.start
  rw [Function.update_eq_self, Function.update_eq_self]

/-- process `i` goes on, with what it is about to do in the history -/
theorem Inv.goto {t : Traced ι} (h : Inv key t) (i : ι) (acquiring : Bool) (seen : Option ℕ)
    (ph : Phase) (hready : Ready key (t.hist.start i acquiring seen) (t.sys.procs i).lease i ph) :
    Inv key ⟨t.sys.goto i ph, t.hist.start i acquiring seen⟩ := by
  have self : (t.sys.goto i ph).procs i = { t.sys.procs i with phase := ph } := Sys.set_self ..
  refine h.start i acquiring seen _ rfl (fun j hj => Sys.set_of_ne _ hj _) (by rw [self]) ?_
  rw [self]
  exact hready

theorem Inv.refuse {t : Traced ι} (h : Inv key t) (i : ι) (acquiring : Bool) (seen : Option ℕ) :
    Inv key ⟨t.sys.fail i, t.hist.start i acquiring seen⟩ := by
  refine (h.fail i).start i acquiring seen _ rfl (fun _ _ => rfl) rfl ?_
  unfold Sys.fail
  rw [Sys.set_self]
  trivial

theorem call_inv {t : Traced ι} (h : Inv key t) {i : ι} {c : Call} {now : ℤ}
    {pick : Option LockRow} {s' : Sys ι} (hs : t.sys.call key i c now pick = some s') :
    Inv key ⟨s', t.hist.record key t.sys (.call i c now pick) s'⟩ := by
  cases call_cases hs with
  | refused hc =>
    cases c with
    | acquire ttl => exact h.refuse i true _
    | renew => exact h.refuse i false none
    | acquireProcessLock ttl => exact h.refuse i true none
    | heartbeat => exact h.fail i
    | release => exact h.fail i
    | drop => exact absurd rfl hc
  | acquiring ttl hp =>
    refine h.goto i true _ _ ?_
    cases pick with
    | none => exact ⟨Function.update_self .., Function.update_self ..⟩
    | some r =>
      show if Function.update t.hist.acquiring i true i = true then _ else _
      rw [Function.update_self, if_pos rfl]
      refine ⟨t.hist.rowOf r.key, Function.update_self .., ?_⟩
      exact hp.2.1 ▸ h.row r hp.1
  | renewing l r hl hk hf =>
    refine h.goto i false none _ ?_
    show if Function.update t.hist.acquiring i false i = true then _ else _
    rw [Function.update_self, if_neg Bool.false_ne_true]
    exact ⟨l, hl, hk, hf⟩
  | counting ttl => exact h.goto i true none _ trivial
  | missed => exact h
  | beating hl =>
    have := h.goto i (t.hist.acquiring i) (t.hist.seen i) (.beating now) hl
    rwa [start_self] at this
  | gone => exact h.free i fun _ hx => hx
  | kept => exact h
  | releasing hl =>
    have := h.goto i (t.hist.acquiring i) (t.hist.seen i) .releasing hl
    rwa [start_self] at this
  | dropped hl => exact h.touch (h.free i fun x hx => (List.mem_filter.mp hx).1) hl

/-- a renewal changes the row of the lease, or of an earlier one under its name -/
theorem Inv.renewed {t : Traced ι} (h : Inv key t) {i : ι} {l m : Lease} {r : LockRow} {now expires : ℤ}
    {table : Table} (hl : (t.sys.procs i).lease = some l) (hk : r.key = key i)
    (hf : r.fence = l.fence) (hm : m.fence = r.fence + 1)
    (ht : t.sys.table.renew r.key (key i) now expires (r.fence + 1) = some table) :
    Inv key ⟨{ t.sys with table := table }.set i (.ok m), t.hist⟩ := by
  refine h.quiet ⟨fun x hx => ?_, fun j => ?_⟩
  · rcases renew_rows ht hx with ⟨y, hy, hyk, hxk, hxf⟩ | ⟨hold, _⟩
    · have hyi : y.key = key i := hyk.trans hk
      refine ⟨⟨y, hy, hyi.trans hxk.symm⟩, ?_⟩
      have hrow := h.row y hy
      rw [hyi] at hrow
      rw [hxk, hxf]
      refine (h.rising.within hrow (h.guard i l hl) (h.newest i l hl y hy hyi)).mono ?_
      omega
    · exact ⟨⟨x, hold, rfl⟩, h.row x hold⟩
  · by_cases hj : j = i
    · subst hj
      rw [Sys.set_self]
      refine Or.inr ⟨rfl, fun l' hl' => ⟨l, hl, ?_⟩⟩
      rw [← Option.some.inj hl']
      omega
    · exact Or.inl (Sys.set_of_ne _ hj _)

theorem next_inv {t : Traced ι} (h : Inv key t) {i : ι} {s' : Sys ι}
    (hc : Fenced key t (.step (.next i))) (hs : t.sys.next key i = some s') :
    Inv key ⟨s', t.hist.record key t.sys (.next i) s'⟩ := by
  have hready := h.ready i
  have hcases := next_cases hs
  have hc : t.acquires i → _ ∧ _ := hc
  unfold Traced.acquires at hc
  unfold History.record
  simp only
  generalize hph : (t.sys.procs i).phase = ph at hready hcases hc
  cases hcases with
  | refused now ttl read =>
    have hno : ((t.sys.fail i).procs i).confirmed = false := by
      unfold Sys.fail
      rw [Sys.set_self]
      rfl
    cases read with
    | none =>
      simp only [hno]
      exact h.fail i
    | some r =>
      simp only [hno]
      exact h.fail i
  | inserted now ttl table ht =>
    obtain ⟨hacq, hseen⟩ := hready
    obtain ⟨hlast, halone⟩ := hc hacq
    simp only [Sys.handed, Sys.set_self]
    refine h.acquire true (fun n hn => ?_) hlast halone fun x hx => ?_
    · rw [hseen] at hn
      cases hn
    · rcases (mem_insert ht x).mp hx with hold | rfl
      · exact Or.inr ⟨fun hk => absurd hk (insert_fresh ht x hold), hold⟩
      · exact Or.inl ⟨rfl, rfl, rfl⟩
  | renewed now ttl r table ht =>
    have hready : if t.hist.acquiring i = true then _ else _ := hready
    simp only [Sys.handed, Sys.set_self]
    show Inv key ⟨_, if t.hist.acquiring i = true then _ else _⟩
    by_cases hacq : t.hist.acquiring i = true
    · obtain ⟨hlast, halone⟩ := hc hacq
      rw [if_pos hacq] at hready ⊢
      obtain ⟨m, hm, hw⟩ := hready
      refine h.acquire _ (fun n hn => ?_) hlast halone fun x hx => ?_
      · rw [hm] at hn
        exact ⟨r.fence, Nat.lt_succ_self _, Option.some.inj hn ▸ hw⟩
      · rcases renew_rows ht hx with ⟨y, hy, hyk, hxk, hxf⟩ | ⟨hold, hne⟩
        · exact Or.inl ⟨hxk, List.any_eq_true.mpr ⟨y, hy, by simpa using hyk⟩, hxf⟩
        · refine Or.inr ⟨fun hk => Bool.eq_false_iff.mpr fun hany => ?_, hold⟩
          obtain ⟨y, hy, hyk⟩ := List.any_eq_true.mp hany
          exact renew_free ht ⟨y, hy, by simpa using hyk⟩ hold hne hk
    · rw [if_neg hacq] at hready ⊢
      obtain ⟨l, hl, hk, hf⟩ := hready
      refine h.touch (h.renewed hl hk hf rfl ht) ?_
      rw [hl]
      rfl
  | overflowed now ttl => exact h.refuse i true _
  | counted now ttl f hf =>
    refine h.goto i true _ _ ?_
    intro n hn
    have hn : t.hist.lastStored t.sys (key i).run = some n :=
      (Function.update_self i _ t.hist.seen).symm.trans hn
    obtain ⟨_, hany⟩ := Option.filter_eq_some_iff.mp hn
    obtain ⟨x, hx, hxn⟩ := List.any_eq_true.mp hany
    simp only [Bool.and_eq_true, decide_eq_true_eq] at hxn
    refine ⟨x.fence, nextFence_gt hf x hx, ?_⟩
    exact hxn.2 ▸ hxn.1 ▸ h.row x hx
  | stored now ttl f =>
    obtain ⟨hlast, halone⟩ := hc trivial
    simp only [Sys.handed, Sys.set_self]
    refine h.acquire true (fun n hn => hready n hn) hlast halone fun x hx => ?_
    rcases upsert_rows hx with rfl | ⟨hold, hne⟩
    · exact Or.inl ⟨rfl, rfl, rfl⟩
    · exact Or.inr ⟨fun hk => absurd hk hne, hold⟩
  | beaten now =>
    refine h.touch (h.quiet ⟨fun x hx => ?_, fun j => ?_⟩) hready
    · obtain ⟨y, hy, hk, hf⟩ := beat_rows hx
      have := h.row y hy
      rw [hk, hf] at this
      exact ⟨⟨y, hy, hk⟩, this⟩
    · by_cases hj : j = i
      · subst hj
        refine Or.inr ?_
        unfold Sys.goto
        rw [Sys.set_self]
        exact ⟨rfl, fun l hl => ⟨l, hl, Nat.le_refl _⟩⟩
      · exact Or.inl (Sys.set_of_ne _ hj _)
  | released => exact h.touch (h.free i fun x hx => (List.mem_filter.mp hx).1) hready

/-- **A step whose acquisition is fenced keeps the invariant.** -/
theorem step_inv (t : Traced ι) (e : Move ι) (t' : Traced ι) (h : Inv key t) (hc : Fenced key t e)
    (hs : t.step key e = some t') : Inv key t' := by
  cases e with
  | crash i => exact Option.some.inj hs ▸ h.free i fun _ hx => hx
  | step e =>
    obtain ⟨s', hs', rfl⟩ := Option.map_eq_some_iff.mp hs
    cases e with
    | tick clock =>
      simp only [Sys.step] at hs'
      split at hs'
      · rw [← Option.some.inj hs']
        exact h.quiet ⟨fun x hx => ⟨⟨x, hx, rfl⟩, h.row x hx⟩, fun _ => Or.inl rfl⟩
      · cases hs'
    | call i c now pick =>
      simp only [Sys.step] at hs'
      split at hs'
      · exact call_inv h hs'
      · cases hs'
    | next i => exact next_inv h hc hs'

end

/-- the name under which every pipeline holds its run -/
def oneName (_ : Bool) : LockKey := ⟨"run", "heartbeat"⟩

/-- A second process acquires the run under the same name, and the first drops its lease. -/
def superseded : List (Event Bool) :=
  [.call false (.acquire 10) 0 none, .next false,
    .call true (.acquire 10) 0 (some ⟨oneName true, 0, 10, 1, 0⟩), .next true,
    .call false .drop 0 none]

/-- the drop deletes the row of the second acquisition -/
example :
    (Runs.run (Traced.step oneName) (Traced.init 0) (superseded.map .step)).map
      (fun t => (t.hist.log, t.hist.hits, t.sys.table)) =
        some ([⟨"run", 1⟩, ⟨"run", 2⟩], [(0, 1)], []) := by
  decide +kernel

end Moagan.Storage
