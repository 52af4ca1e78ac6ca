import Moagan.Reconcile.Zombies

/-!
# Recovery and live runs (`recover_zombies` in `src/reconcile/mod.rs`)

A pass decides on the rows of one query and updates them row by row later, by key alone.

* `HitsZombies`    an update of a pass changes only runs that are marked running and stale then
* `Undisturbed`    the runs in the hands of a pass are left alone, and the clock does not go back
* `recovery_hits_zombies`  the first follows from the second, over every run
* `completed_run_overwritten`  a run that completes behind the query is set to interrupted
-/

namespace Moagan.Reconcile

section
variable {R : Type} (ids : RunIdText R)

/-- the update of a pass changes the status of no run but one that is marked running and has given
no sign of life for longer than the limit -/
def HitsZombies (s : State R) : Event R → Prop
  | .update i _ => ∀ z zs now, s.passes i = some (.flipping (z :: zs) now) →
      ∀ r ∈ s.runs.rows, r.runId = ids.toText z → r.status ≠ "interrupted" →
        r.status = "running" ∧ r.updatedUnix < s.now - ZOMBIE_HEARTBEAT_SECS
  | _ => True

/-- no pass has listed the run and not yet updated it -/
def State.Free (s : State R) (r : R) : Prop := ∀ i ph, s.passes i = some ph → r ∉ ph.toFlip

/-- **When recovery is safe**: other processes write to no run between its listing and its update,
and the clock is not set back. -/
def Undisturbed (s : State R) : Event R → Prop
  | .tick t => s.now ≤ t
  | .register r .. => s.Free r
  | .setStatus r .. => s.Free r
  | .touch r .. => s.Free r
  | _ => True

/-- ids are stored as `register_run` writes them -/
def RunsTable.Spelled (t : RunsTable) : Prop :=
  ∀ r ∈ t.rows, ∀ z, ids.parse r.runId = some z → r.runId = ids.toText z

/-- the row may be updated: nothing changes, or it is a zombie's -/
def RunRow.Updatable (r : RunRow) (now : ℤ) : Prop :=
  r.status = "interrupted" ∨ (r.status = "running" ∧ r.updatedUnix < now - ZOMBIE_HEARTBEAT_SECS)

/-- what holds at a pass: its limit is no later than the clock's, its list is updatable -/
def PassInv (t : RunsTable) (now : ℤ) : Phase R → Prop
  | .listing threshold => threshold ≤ now - ZOMBIE_HEARTBEAT_SECS
  | ph => ∀ z ∈ ph.toFlip, ∀ r ∈ t.rows, r.runId = ids.toText z → r.Updatable now

structure LiveInv (s : State R) : Prop where
  spelled : s.runs.Spelled ids
  passes : ∀ i ph, s.passes i = some ph → PassInv ids s.runs s.now ph

end

section
variable {R : Type} {ids : RunIdText R} {s s' : State R}

theorem spelled_update {t : RunsTable} (h : t.Spelled ids) (key : String)
    (status : String → String) (now : ℤ) : (t.update key status now).Spelled ids := by
  intro r hr z hp
  obtain ⟨r₀, hr₀, rfl⟩ := RunsTable.mem_update hr
  rw [RunRow.written_runId] at hp ⊢
  exact h r₀ hr₀ z hp

theorem spelled_registerRun {t : RunsTable} (h : t.Spelled ids) (r : R) (status : String)
    (now : ℤ) : (t.registerRun (ids.toText r) status now).Spelled ids := by
  intro x hx z hp
  rcases RunsTable.mem_registerRun hx with ⟨hx, -⟩ | rfl
  · exact h x hx z hp
  · rw [ids.parse_toText] at hp
    rw [Option.some.inj hp]

theorem Wrote.spelled {t t' : RunsTable} {e : Event R} (h : Wrote ids t e t')
    (ht : t.Spelled ids) : t'.Spelled ids := by
  cases h with
  | register r status unix => exact spelled_registerRun ht r status unix
  | setStatus r status unix => exact spelled_update ht _ _ _
  | touch r unix => exact spelled_update ht _ _ _

/-- the run that a statement of another process writes to -/
def Event.writes : Event R → Option R
  | .register r .. => some r
  | .setStatus r .. => some r
  | .touch r .. => some r
  | _ => none

/-- rows of other runs stay as they are -/
theorem Wrote.other {t t' : RunsTable} {e : Event R} (h : Wrote ids t e t') {x : RunRow} {z : R}
    (hx : x ∈ t'.rows) (hk : x.runId = ids.toText z) (hz : e.writes ≠ some z) : x ∈ t.rows := by
  have hupdate : ∀ r status unix, r ≠ z → x ∈ (t.update (ids.toText r) status unix).rows →
      x ∈ t.rows := by
    intro r status unix hr hx
    obtain ⟨x₀, hx₀, rfl⟩ := RunsTable.mem_update hx
    rw [RunRow.written_runId] at hk
    have hne : x₀.runId ≠ ids.toText r := fun he => hr (ids.toText_inj (he.symm.trans hk))
    unfold RunRow.written
    rwa [if_neg hne]
  cases h with
  | register r status unix =>
    have hr : r ≠ z := fun he => hz (congrArg some he)
    rcases RunsTable.mem_registerRun hx with ⟨hx, -⟩ | rfl
    · exact hx
    · exact absurd (ids.toText_inj hk) hr
  | setStatus r status unix => exact hupdate r _ unix (fun he => hz (congrArg some he)) hx
  | touch r unix => exact hupdate r _ unix (fun he => hz (congrArg some he)) hx

theorem Wrote.free {t t' : RunsTable} {e : Event R} (h : Wrote ids t e t')
    (hg : Undisturbed s e) {i : ℕ} {ph : Phase R} (hi : s.passes i = some ph) {z : R}
    (hz : z ∈ ph.toFlip) : e.writes ≠ some z := by
  cases h with
  | register r status unix => exact fun he => hg i ph hi (Option.some.inj he ▸ hz)
  | setStatus r status unix => exact fun he => hg i ph hi (Option.some.inj he ▸ hz)
  | touch r unix => exact fun he => hg i ph hi (Option.some.inj he ▸ hz)

/-- an updatable row stays so as time goes on -/
theorem RunRow.Updatable.mono {r : RunRow} {now now' : ℤ} (h : r.Updatable now) (hn : now ≤ now') :
    r.Updatable now' := by
  refine h.imp_right fun ⟨hs, hu⟩ => ⟨hs, ?_⟩
  omega

theorem PassInv.tick {t : RunsTable} {now now' : ℤ} {ph : Phase R} (h : PassInv ids t now ph)
    (hn : now ≤ now') : PassInv ids t now' ph := by
  cases ph with
  | listing threshold =>
    change threshold ≤ now - _ at h
    show threshold ≤ now' - _
    omega
  | flipping zs n => exact fun z hz r hr hk => (h z hz r hr hk).mono hn
  | recording y took zs n => exact fun z hz r hr hk => (h z hz r hr hk).mono hn

/-- another table whose rows of listed runs were there or are updatable -/
theorem PassInv.rows {t t' : RunsTable} {now : ℤ} {ph : Phase R} (h : PassInv ids t now ph)
    (ht : ∀ z ∈ ph.toFlip, ∀ r ∈ t'.rows, r.runId = ids.toText z → r ∈ t.rows ∨ r.Updatable now) :
    PassInv ids t' now ph := by
  cases ph with
  | listing threshold => exact h
  | flipping zs n =>
    exact fun z hz r hr hk => (ht z hz r hr hk).elim (fun hr => h z hz r hr hk) id
  | recording y took zs n =>
    exact fun z hz r hr hk => (ht z hz r hr hk).elim (fun hr => h z hz r hr hk) id

/-- the pass at `i` is replaced -/
theorem LiveInv.goto (h : LiveInv ids s) (i : ℕ) (ph : Option (Phase R))
    (hph : ∀ p, ph = some p → PassInv ids s.runs s.now p) : LiveInv ids (s.goto i ph) := by
  refine ⟨h.spelled, fun j p hp => ?_⟩
  by_cases hj : j = i
  · rw [hj, State.goto_self] at hp
    exact hph p hp
  · rw [State.goto_of_ne s hj] at hp
    exact h.passes j p hp

/-- what the query returns is updatable: one row has the key of a listed run, and it was read -/
theorem updatable_of_read {threshold : ℤ} {z : R} {r : RunRow}
    (ht : threshold ≤ s.now - ZOMBIE_HEARTBEAT_SECS) (hr : r ∈ s.runs.rows)
    (hk : r.runId = ids.toText z) (hs : r.status = "running") (hu : r.updatedUnix < threshold) :
    ∀ x ∈ s.runs.rows, x.runId = ids.toText z → x.Updatable s.now := by
  intro x hx hxk
  obtain rfl := RunsTable.eq_of_runId hr hx (hk.trans hxk.symm)
  exact .inr ⟨hs, by omega⟩

theorem liveInv_step {e : Event R} (hi : LiveInv ids s) (hg : Undisturbed s e)
    (h : step ids s e = some s') : LiveInv ids s' := by
  have hs := step_cases h
  cases hs with
  | tick t => exact ⟨hi.spelled, fun i ph hp => (hi.passes i ph hp).tick hg⟩
  | wrote hw =>
    refine ⟨hw.spelled hi.spelled, fun i ph hp => (hi.passes i ph hp).rows fun z hz r hr hk => ?_⟩
    exact .inl (hw.other hr hk (hw.free hg hp hz))
  | log o => exact ⟨hi.spelled, hi.passes⟩
  | start i hp =>
    exact hi.goto i _ fun p hp => Option.some.inj hp ▸ le_refl (s.now - ZOMBIE_HEARTBEAT_SECS)
  | list hp hl =>
    refine hi.goto _ _ fun p hp' => Option.some.inj hp' ▸ fun z hz => ?_
    obtain ⟨r, hr, hparse, hrun, hu⟩ := mem_listZombieRunIds ids hz
    have hr := hl.1.subset hr
    exact updatable_of_read (hi.passes _ _ hp) hr (hi.spelled r hr z hparse) hrun hu
  | get hp hx hk =>
    rename_i i r threshold x
    refine hi.goto _ _ fun p hp' => Option.some.inj hp' ▸ fun z hz => ?_
    change z ∈ (if x.isZombie threshold then [r] else []) at hz
    split at hz
    · rename_i hzombie
      obtain ⟨hrun, hu⟩ := (Bool.and_eq_true ..).mp hzombie
      rw [List.mem_singleton.mp hz]
      exact updatable_of_read (hi.passes _ _ hp) hx hk (of_decide_eq_true hrun) (of_decide_eq_true hu)
    · exact absurd hz List.not_mem_nil
  | missed hp => exact hi.goto _ _ fun p hp => absurd hp nofun
  | update hp =>
    rename_i i z zs now t
    -- a row is as before or interrupted now, and nothing changes in an interrupted one
    have hrows : ∀ y, ∀ r ∈ (s.runs.updateRunStatus (ids.toText z) "interrupted" t).rows,
        r.runId = ids.toText y → r ∈ s.runs.rows ∨ r.Updatable s.now := by
      intro y r hr _
      obtain ⟨r₀, hr₀, rfl⟩ := RunsTable.mem_update hr
      unfold RunRow.written
      split
      · exact .inr (.inl rfl)
      · exact .inl hr₀
    have hpass : PassInv ids s.runs s.now (.recording z (s.isRunning ids z) zs now) :=
      fun y hy => hi.passes i _ hp y (List.mem_cons_of_mem z hy)
    have hgoto := hi.goto i (some (.recording z (s.isRunning ids z) zs now)) fun p hp =>
      Option.some.inj hp ▸ hpass
    exact ⟨spelled_update hi.spelled _ _ _, fun j ph hj =>
      (hgoto.passes j ph hj).rows fun y _ r hr hk => hrows y r hr hk⟩
  | insert hp =>
    rename_i i z took zs now
    unfold State.record
    split
    · have hgoto := hi.goto i (some (.flipping zs now)) fun p hp' =>
        Option.some.inj hp' ▸ fun y hy => hi.passes i _ hp y hy
      exact ⟨hgoto.spelled, hgoto.passes⟩
    · exact hi.goto i none fun p hp => absurd hp nofun
  | stop i => exact hi.goto i none fun p hp => absurd hp nofun

/-- an update of a listed run meets an updatable row -/
theorem LiveInv.hits (hi : LiveInv ids s) (e : Event R) : HitsZombies ids s e := by
  cases e with
  | update i t =>
    intro z zs now hp r hr hk hne
    exact (hi.passes i _ hp z List.mem_cons_self r hr hk).resolve_left hne
  | _ => trivial

end

/-- **Recovery interrupts zombies only**, in every run in which the listed runs are left alone and
the clock does not go back. -/
theorem recovery_hits_zombies {R : Type} (ids : RunIdText R) (runs : RunsTable)
    (hspelled : runs.Spelled ids) (outbox : List OutboxRow) (now : ℤ) (es : List (Event R))
    (s : State R) (hg : Runs.Along (step ids) Undisturbed (start runs outbox now) es)
    (hr : Runs.run (step ids) (start runs outbox now) es = some s) :
    Runs.Along (step ids) (HitsZombies ids) (start runs outbox now) es :=
  Runs.along_of_inv (I := LiveInv ids)
    (fun _ e _ hi hg h => ⟨liveInv_step hi hg h, hi.hits e⟩) es _ s
    ⟨hspelled, fun _ _ hp => absurd hp nofun⟩ hg hr

/-- a pass with the table to itself -/
theorem recovery_hits_zombies_once :
    HitsZombies plainIds (listedState plainIds "0190163d-8694-739b-aea5-966c26f8ad91")
      (.update 0 8000) := by
  let r := "0190163d-8694-739b-aea5-966c26f8ad91"
  have hlist := run_listed plainIds r
  have hp : (listedState plainIds r).passes 0 = some (.flipping [r] 8000) := State.goto_self ..
  have halone : Runs.Along (step plainIds) Undisturbed (start (oneZombie plainIds r) [] 8000)
      [.start 0, .list 0 (oneZombie plainIds r).rows] :=
    ⟨trivial, fun _ _ => ⟨trivial, fun _ _ => trivial⟩⟩
  have hlast : Runs.Along (step plainIds) Undisturbed (listedState plainIds r) [.update 0 8000] :=
    ⟨trivial, fun _ _ => trivial⟩
  have hrun : Runs.run (step plainIds) (start (oneZombie plainIds r) [] 8000)
      ([.start 0, .list 0 (oneZombie plainIds r).rows] ++ [.update 0 8000]) =
        some ((listedState plainIds r).flip plainIds 0 r [] 8000 8000) := by
    rw [Runs.run_append, hlist, Option.bind_some, Runs.run_cons, step_update 8000 hp]
    rfl
  have h := recovery_hits_zombies plainIds (oneZombie plainIds r)
    (fun x _ z hp => Option.some.inj hp) [] 8000 _ _ (Runs.along_concat hlist halone hlast) hrun
  exact (Runs.along_append h hlist).1

/-- **A run that completes behind the query is set to interrupted.** -/
theorem completed_run_overwritten : ∃ s, Runs.run (step plainIds)
    (start (oneZombie plainIds "0190163d-8694-739b-aea5-966c26f8ad91") [] 8000)
      [.start 0, .list 0 (oneZombie plainIds "0190163d-8694-739b-aea5-966c26f8ad91").rows,
        .setStatus "0190163d-8694-739b-aea5-966c26f8ad91" "completed" 8001, .update 0 8001] =
          some s ∧ ¬ Runs.Along (step plainIds) (HitsZombies plainIds)
    (start (oneZombie plainIds "0190163d-8694-739b-aea5-966c26f8ad91") [] 8000)
      [.start 0, .list 0 (oneZombie plainIds "0190163d-8694-739b-aea5-966c26f8ad91").rows,
        .setStatus "0190163d-8694-739b-aea5-966c26f8ad91" "completed" 8001, .update 0 8001] := by
  let r := "0190163d-8694-739b-aea5-966c26f8ad91"
  have hlist := run_listed plainIds r
  let s₁ : State String :=
    { listedState plainIds r with
      runs := (oneZombie plainIds r).updateRunStatus r "completed" 8001 }
  have hs : step plainIds (listedState plainIds r) (.setStatus r "completed" 8001) = some s₁ := rfl
  have hp : s₁.passes 0 = some (.flipping [r] 8000) := by
    show (listedState plainIds r).passes 0 = _
    exact State.goto_self ..
  refine ⟨s₁.flip plainIds 0 r [] 8000 8001, ?_, fun h => ?_⟩
  · show Runs.run (step plainIds) _ ([.start 0, .list 0 (oneZombie plainIds r).rows] ++ _) = _
    rw [Runs.run_append, hlist, Option.bind_some, Runs.run_cons, hs, Option.bind_some,
      Runs.run_cons, step_update 8001 hp]
    rfl
  · have hrow : (⟨r, "completed", 0, 8001⟩ : RunRow) ∈ s₁.runs.rows := by
      show _ ∈ [RunRow.written ⟨r, "running", 0, 0⟩ r (fun _ => "completed") 8001]
      unfold RunRow.written
      rw [if_pos rfl]
      exact List.mem_singleton_self _
    have hafter : Runs.Along (step plainIds) (HitsZombies plainIds) (listedState plainIds r)
        [.setStatus r "completed" 8001, .update 0 8001] :=
      Runs.along_append h hlist
    have hhits := (hafter.2 s₁ hs).1
    have hrun := (hhits r [] 8000 hp _ hrow rfl (by decide)).1
    exact absurd hrun (by decide)

end Moagan.Reconcile
