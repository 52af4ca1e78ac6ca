import Moagan.Llm.Sidecar

/-!
# Operator caps (`set_operator_cap` of `TemperatureTable`)

* `setOperatorCap`     the union with what the table has in memory, which is then saved
* `CapSys`             any number of processes with their tables and calls, and the one sidecar
* `Covers`             a table that is saved has, for each of its providers, the caps of the file
* `caps_accumulate`    then the file ends with what all calls have passed
-/

set_option linter.unusedSectionVars false

namespace Moagan.Sidecar

open LockedUpdate

/-! ## one call -/

/-- `temperature_probe::OperatorCap` -/
structure OperatorCap where
  temperatures : List F32
  auto : Bool
  detectedAt : String
deriving DecidableEq, Repr

abbrev TemperatureInner := TableInner TemperatureEntry OperatorCap

abbrev TemperatureFile := Content TemperatureEntry OperatorCap

/-- new temperatures go to the end, told apart by their bits -/
def unionTemperatures (temperatures new : List F32) : List F32 :=
  new.foldl (fun ts t => if t ∈ ts then ts else ts ++ [t]) temperatures

/-- `set_operator_cap`, up to the save -/
def setOperatorCap (t : TemperatureInner) (provider : String) (temperatures : List F32) (now : String) :
    TemperatureInner :=
  let entry := (t.operatorCaps.get? provider).getD
    { temperatures := [], auto := false, detectedAt := now }
  let cap : OperatorCap :=
    { entry with temperatures := unionTemperatures entry.temperatures temperatures, detectedAt := now }
  { t with operatorCaps := t.operatorCaps.insert provider cap }

/-- the temperatures of a provider's cap -/
def allowed (caps : SortedMap String OperatorCap) (provider : String) : List F32 :=
  (caps.get? provider).elim [] OperatorCap.temperatures

/-- the cap set that the file has for a provider -/
def fileCaps (c : TemperatureFile) (provider : String) : List F32 :=
  allowed c.loadOrEmpty.operatorCaps provider

theorem mem_unionTemperatures {ts new : List F32} {v : F32} :
    v ∈ unionTemperatures ts new ↔ v ∈ ts ∨ v ∈ new := by
  unfold unionTemperatures
  induction new generalizing ts with
  | nil => simp
  | cons t new ih =>
    rw [List.foldl_cons, ih, List.mem_cons]
    by_cases ht : t ∈ ts
    · rw [if_pos ht]
      constructor
      · exact fun h => h.imp_right Or.inr
      · rintro (h | rfl | h)
        · exact Or.inl h
        · exact Or.inl ht
        · exact Or.inr h
    · rw [if_neg ht, List.mem_append, List.mem_singleton, or_assoc]

theorem mem_allowed_set (t : TemperatureInner) (provider : String) (new : List F32) (now : String)
    (p : String) (v : F32) :
    v ∈ allowed (setOperatorCap t provider new now).operatorCaps p ↔
      v ∈ allowed t.operatorCaps p ∨ (p = provider ∧ v ∈ new) := by
  unfold allowed setOperatorCap
  simp only [SortedMap.get?_insert]
  by_cases hp : p = provider
  · subst hp
    rw [if_pos rfl, Option.elim_some, mem_unionTemperatures]
    cases t.operatorCaps.get? p <;> simp
  · simp [hp]

section
variable {T : Type} [LinearOrder T] (parse : String → Option T)

/-- a save takes the caps of the table where it has one, and keeps the others -/
theorem fileCaps_persistTo (t : TemperatureInner) (c : TemperatureFile) (p : String) :
    fileCaps (persistTo parse t c) p =
      (t.operatorCaps.get? p).elim (fileCaps c p) OperatorCap.temperatures := by
  unfold fileCaps allowed
  rw [caps_persistTo]
  cases t.operatorCaps.get? p <;> rfl

/-- a process starts with the caps of the file -/
theorem fromPath_caps {c : TemperatureFile} {t : TemperatureInner} (h : fromPath c = some t) (p : String) :
    allowed t.operatorCaps p = fileCaps c p := by
  obtain ⟨f, hf, rfl⟩ := Option.map_eq_some_iff.mp h
  unfold fileCaps Content.loadOrEmpty
  rw [hf]
  rfl

/-! ## the processes -/

/-- A call `i` runs in the process `home i`.  `asked` has what the calls so far have passed. -/
structure CapSys (ι π : Type) where
  store : Sys ι TemperatureInner TemperatureFile
  tables : π → Option TemperatureInner
  pending : ι → Bool
  asked : List (String × List F32)

inductive CapEvent (ι π : Type) where
  /-- a process loads the sidecar -/
  | start (p : π)
  | set (i : ι) (provider : String) (temperatures : List F32) (now : String)
  | lock (i : ι)
  | load (i : ι)
  | save (i : ι)
  /-- the lock goes, and the call returns -/
  | done (i : ι)

variable {ι π : Type} [DecidableEq ι] [DecidableEq π] (home : ι → π)

def CapSys.init (file : TemperatureFile) : CapSys ι π :=
  { store := Sys.init file, tables := fun _ => none, pending := fun _ => false, asked := [] }

/-- a call of the process is in `persist_to`, which holds its table -/
def CapSys.persisting (s : CapSys ι π) (p : π) : Bool :=
  match s.store.holder with
  | some (i, _) => home i = p
  | none => false

def CapSys.started (s : CapSys ι π) (p : π) (t : TemperatureInner) : CapSys ι π :=
  { s with tables := Function.update s.tables p (some t) }

/-- a call has changed the table of its process, and is about to save it -/
def CapSys.called (s : CapSys ι π) (i : ι) (provider : String) (new : List F32)
    (t : TemperatureInner) : CapSys ι π :=
  { s with
    tables := Function.update s.tables (home i) (some t)
    pending := Function.update s.pending i true
    asked := s.asked ++ [(provider, new)] }

def CapSys.step (s : CapSys ι π) : CapEvent ι π → Option (CapSys ι π)
  | .start p =>
    if (s.tables p).isSome then none
    else (fromPath s.store.file).map fun t => s.started p t
  | .set i provider temperatures now =>
    if s.pending i || s.persisting home (home i) then none
    else (s.tables (home i)).map fun t =>
      s.called home i provider temperatures (setOperatorCap t provider temperatures now)
  | .lock i =>
    if s.pending i then
      (s.tables (home i)).bind fun t =>
        (s.store.step (persistTo parse) (.lock i t)).map fun st => { s with store := st }
    else none
  | .load i => (s.store.step (persistTo parse) (.load i)).map fun st => { s with store := st }
  | .save i => (s.store.step (persistTo parse) (.save i)).map fun st => { s with store := st }
  | .done i =>
    match s.store.holder with
    | some (_, .saved) => (s.store.step (persistTo parse) (.unlock i)).map fun st =>
      { s with store := st, pending := Function.update s.pending i false }
    | _ => none

/-- A save finds that the table has, for every provider it has a cap of, all that the file has. -/
def Covers (s : CapSys ι π) : CapEvent ι π → Prop
  | .save i => ∀ t ∈ s.tables (home i), ∀ p cap, t.operatorCaps.get? p = some cap →
      ∀ v ∈ fileCaps s.store.file p, v ∈ cap.temperatures
  | _ => True

theorem capStep_cases {s s' : CapSys ι π} {e : CapEvent ι π} (h : s.step parse home e = some s') :
    (∃ p t, e = .start p ∧ s.tables p = none ∧ fromPath s.store.file = some t ∧
      s' = s.started p t) ∨
    (∃ i provider new now t, e = .set i provider new now ∧ s.pending i = false ∧
      s.persisting home (home i) = false ∧ s.tables (home i) = some t ∧
      s' = s.called home i provider new (setOperatorCap t provider new now)) ∨
    (∃ i t, e = .lock i ∧ s.pending i = true ∧ s.tables (home i) = some t ∧ s.store.holder = none ∧
      s' = { s with store := { s.store with holder := some (i, .locked t) } }) ∨
    (∃ i t, e = .load i ∧ s.store.holder = some (i, .locked t) ∧
      s' = { s with store := { s.store with holder := some (i, .loaded t s.store.file) } }) ∨
    (∃ i t f, e = .save i ∧ s.store.holder = some (i, .loaded t f) ∧
      s' = { s with store :=
        { file := persistTo parse t f, holder := some (i, .saved), log := s.store.log ++ [t] } }) ∨
    (∃ i, e = .done i ∧ s.store.holder = some (i, .saved) ∧
      s' = { s with
        store := { s.store with holder := none }, pending := Function.update s.pending i false }) := by
  cases e with
  | start p =>
    simp only [CapSys.step] at h
    split at h
    · cases h
    · rename_i hn
      obtain ⟨t, ht, rfl⟩ := Option.map_eq_some_iff.mp h
      exact Or.inl ⟨p, t, rfl, by simpa using hn, ht, rfl⟩
  | set i provider new now =>
    simp only [CapSys.step] at h
    split at h
    · cases h
    · rename_i hn
      obtain ⟨t, ht, rfl⟩ := Option.map_eq_some_iff.mp h
      obtain ⟨h1, h2⟩ : s.pending i = false ∧ s.persisting home (home i) = false := by simpa using hn
      exact Or.inr (Or.inl ⟨i, provider, new, now, t, rfl, h1, h2, ht, rfl⟩)
  | lock i =>
    simp only [CapSys.step] at h
    split at h
    · rename_i hp
      obtain ⟨t, ht, h⟩ := Option.bind_eq_some_iff.mp h
      obtain ⟨st, hst, rfl⟩ := Option.map_eq_some_iff.mp h
      obtain ⟨j, u, e, hh, rfl⟩ | ⟨j, u, e, -, -⟩ | ⟨j, u, f, e, -, -⟩ | ⟨j, q, e, -, -⟩ := step_cases hst
      · cases e
        exact Or.inr (Or.inr (Or.inl ⟨i, t, rfl, hp, ht, hh, rfl⟩))
      · cases e
      · cases e
      · cases e
    · cases h
  | load i =>
    obtain ⟨st, hst, rfl⟩ := Option.map_eq_some_iff.mp h
    obtain ⟨j, u, e, -, -⟩ | ⟨j, u, e, hh, rfl⟩ | ⟨j, u, f, e, -, -⟩ | ⟨j, q, e, -, -⟩ := step_cases hst
    · cases e
    · cases e
      exact Or.inr (Or.inr (Or.inr (Or.inl ⟨i, u, rfl, hh, rfl⟩)))
    · cases e
    · cases e
  | save i =>
    obtain ⟨st, hst, rfl⟩ := Option.map_eq_some_iff.mp h
    obtain ⟨j, u, e, -, -⟩ | ⟨j, u, e, -, -⟩ | ⟨j, u, f, e, hh, rfl⟩ | ⟨j, q, e, -, -⟩ := step_cases hst
    · cases e
    · cases e
    · cases e
      exact Or.inr (Or.inr (Or.inr (Or.inr (Or.inl ⟨i, u, f, rfl, hh, rfl⟩))))
    · cases e
  | done i =>
    simp only [CapSys.step] at h
    split at h
    · rename_i j hh
      obtain ⟨st, hst, rfl⟩ := Option.map_eq_some_iff.mp h
      obtain ⟨j, u, e, -, -⟩ | ⟨j, u, e, -, -⟩ | ⟨j, u, f, e, -, -⟩ | ⟨j, q, e, hh', rfl⟩ :=
        step_cases hst
      · cases e
      · cases e
      · cases e
      · cases e
        have hj := congrArg Prod.fst (Option.some.inj (hh.symm.trans hh'))
        simp only at hj
        subst hj
        exact Or.inr (Or.inr (Or.inr (Or.inr (Or.inr ⟨_, rfl, hh, rfl⟩))))
    · cases h

/-! ## the caps of a run -/

/-- passed by a call, or in the file at first -/
def Asked (file : TemperatureFile) (asked : List (String × List F32)) (p : String) (v : F32) : Prop :=
  v ∈ fileCaps file p ∨ ∃ q ∈ asked, q.1 = p ∧ v ∈ q.2

/-- a call that has not saved yet has the value in its table -/
def Carried (s : CapSys ι π) (p : String) (v : F32) : Prop :=
  ∃ i, s.pending i = true ∧ s.store.holder ≠ some (i, .saved) ∧
    ∃ t ∈ s.tables (home i), v ∈ allowed t.operatorCaps p

/-- Nothing is in the file or a table that was not asked for, and what was asked for is in the file,
or a call still carries it there. -/
structure Accumulated (file : TemperatureFile) (s : CapSys ι π) : Prop where
  fresh : Fresh s.store
  locked : ∀ i t, s.store.holder = some (i, .locked t) → s.tables (home i) = some t
  loaded : ∀ i t f, s.store.holder = some (i, .loaded t f) → s.tables (home i) = some t
  within : ∀ p v, v ∈ fileCaps s.store.file p → Asked file s.asked p v
  tables : ∀ q t, s.tables q = some t → ∀ p v, v ∈ allowed t.operatorCaps p → Asked file s.asked p v
  reached : ∀ p v, Asked file s.asked p v → v ∈ fileCaps s.store.file p ∨ Carried home s p v

theorem accumulated_init (file : TemperatureFile) :
    Accumulated home file (CapSys.init file : CapSys ι π) where
  fresh := nofun
  locked := nofun
  loaded := nofun
  within _ _ h := Or.inl h
  tables := nofun
  reached p v h := by
    rcases h with h | ⟨q, hq, -⟩
    · exact Or.inl h
    · exact absurd hq List.not_mem_nil

theorem Asked.mono {file : TemperatureFile} {asked : List (String × List F32)} {p : String} {v : F32}
    (h : Asked file asked p v) (q : String × List F32) : Asked file (asked ++ [q]) p v :=
  h.imp_right fun ⟨r, hr, hp, hv⟩ => ⟨r, List.mem_append_left _ hr, hp, hv⟩

/-- while a process persists, its table is the one that is held -/
theorem persisting_of_holder {s : CapSys ι π} {i : ι} {ph : Hold TemperatureInner TemperatureFile}
    (h : s.store.holder = some (i, ph)) : s.persisting home (home i) = true := by
  unfold CapSys.persisting
  rw [h]
  exact decide_eq_true rfl

theorem started_tables {s : CapSys ι π} {p : π} (hn : s.tables p = none) (t : TemperatureInner) (q : π)
    (u : TemperatureInner) :
    (s.started p t).tables q = some u ↔ s.tables q = some u ∨ (q = p ∧ t = u) := by
  show Function.update s.tables p (some t) q = some u ↔ _
  by_cases hq : q = p
  · subst hq
    rw [Function.update_self, hn]
    simp
  · rw [Function.update_of_ne hq]
    simp [hq]

theorem start_accumulated {file : TemperatureFile} {s : CapSys ι π} (h : Accumulated home file s)
    {p : π} {t : TemperatureInner} (hn : s.tables p = none) (ht : fromPath s.store.file = some t) :
    Accumulated home file (s.started p t) := by
  have old : ∀ q u, s.tables q = some u → (s.started p t).tables q = some u :=
    fun q u hu => (started_tables hn t q u).mpr (Or.inl hu)
  refine ⟨h.fresh, fun i u hu => old _ u (h.locked i u hu), fun i u f hu => old _ u (h.loaded i u f hu),
    h.within, fun q u hu r v hv => ?_, fun r v hv => ?_⟩
  · rcases (started_tables hn t q u).mp hu with hu | ⟨-, rfl⟩
    · exact h.tables q u hu r v hv
    · rw [fromPath_caps ht] at hv
      exact h.within r v hv
  · refine (h.reached r v hv).imp_right ?_
    intro ⟨i, hi, hs, u, hu, hv⟩
    exact ⟨i, hi, hs, u, old _ u hu, hv⟩

theorem called_tables_self (s : CapSys ι π) (i : ι) (provider : String) (new : List F32)
    (t : TemperatureInner) : (s.called home i provider new t).tables (home i) = some t :=
  Function.update_self ..

theorem called_tables_of_ne (s : CapSys ι π) (i : ι) (provider : String) (new : List F32)
    (t : TemperatureInner) {q : π} (hq : q ≠ home i) :
    (s.called home i provider new t).tables q = s.tables q :=
  Function.update_of_ne hq ..

theorem called_pending (s : CapSys ι π) (i : ι) (provider : String) (new : List F32)
    (t : TemperatureInner) (j : ι) :
    (s.called home i provider new t).pending j = true ↔ j = i ∨ s.pending j = true := by
  show Function.update s.pending i true j = true ↔ _
  by_cases hj : j = i
  · subst hj
    rw [Function.update_self]
    simp
  · rw [Function.update_of_ne hj]
    simp [hj]

/-- what a call carried before another call began, it still carries -/
theorem called_carried {s : CapSys ι π} {i : ι} (provider : String) (new : List F32)
    {t t' : TemperatureInner} (ht : s.tables (home i) = some t)
    (hgrown : ∀ p v, v ∈ allowed t.operatorCaps p → v ∈ allowed t'.operatorCaps p) {p : String}
    {v : F32} (h : Carried home s p v) : Carried home (s.called home i provider new t') p v := by
  obtain ⟨j, hj, hs, u, hu, hv⟩ := h
  refine ⟨j, (called_pending home s i provider new t' j).mpr (Or.inr hj), hs, ?_⟩
  by_cases hji : home j = home i
  · have hut : s.tables (home i) = some u := hji ▸ hu
    obtain rfl := Option.some.inj (ht.symm.trans hut)
    rw [hji, called_tables_self]
    exact ⟨t', rfl, hgrown p v hv⟩
  · rw [called_tables_of_ne home s i provider new t' hji]
    exact ⟨u, hu, hv⟩

theorem set_accumulated {file : TemperatureFile} {s : CapSys ι π} (h : Accumulated home file s)
    {i : ι} {provider : String} {new : List F32} {now : String} {t : TemperatureInner}
    (hp : s.persisting home (home i) = false) (ht : s.tables (home i) = some t) :
    Accumulated home file (s.called home i provider new (setOperatorCap t provider new now)) := by
  have hset := mem_allowed_set t provider new now
  have other : ∀ j ph, s.store.holder = some (j, ph) → home j ≠ home i := by
    intro j ph hj e
    have hpj := persisting_of_holder home hj
    rw [e, hp] at hpj
    cases hpj
  refine ⟨h.fresh, fun j u hj => ?_, fun j u f hj => ?_, fun p v hv => (h.within p v hv).mono _,
    fun q u hu p v hv => ?_, fun p v hv => ?_⟩
  · rw [called_tables_of_ne home s i provider new _ (other j _ hj)]
    exact h.locked j u hj
  · rw [called_tables_of_ne home s i provider new _ (other j _ hj)]
    exact h.loaded j u f hj
  · by_cases hq : q = home i
    · subst hq
      rw [called_tables_self] at hu
      obtain rfl := Option.some.inj hu
      rcases (hset p v).mp hv with hold | ⟨rfl, hnew⟩
      · exact (h.tables _ t ht p v hold).mono _
      · exact Or.inr ⟨(p, new), List.mem_append_right _ (List.mem_singleton_self _), rfl, hnew⟩
    · rw [called_tables_of_ne home s i provider new _ hq] at hu
      exact (h.tables q u hu p v hv).mono _
  · have before : Asked file s.asked p v → _ := fun hv => (h.reached p v hv).imp_right
      (called_carried home provider new ht fun p v hv => (hset p v).mpr (Or.inl hv))
    rcases hv with hv | ⟨q, hq, hqp, hv⟩
    · exact before (Or.inl hv)
    · rcases List.mem_append.mp hq with hq | hq
      · exact before (Or.inr ⟨q, hq, hqp, hv⟩)
      · -- the call carries what it passes
        obtain rfl := List.mem_singleton.mp hq
        exact Or.inr ⟨i, (called_pending home s i provider new _ i).mpr (Or.inl rfl),
          fun e => other i _ e rfl, _, called_tables_self .., (hset p v).mpr (Or.inr ⟨hqp.symm, hv⟩)⟩

/-- the holder changes, the file does not -/
theorem hold_accumulated {file : TemperatureFile} {s : CapSys ι π} (h : Accumulated home file s)
    {o : Option (ι × Hold TemperatureInner TemperatureFile)}
    (hfresh : ∀ i t f, o = some (i, .loaded t f) → f = s.store.file)
    (hlocked : ∀ i t, o = some (i, .locked t) → s.tables (home i) = some t)
    (hloaded : ∀ i t f, o = some (i, .loaded t f) → s.tables (home i) = some t)
    (hsaved : ∀ i, o ≠ some (i, .saved)) :
    Accumulated home file { s with store := { s.store with holder := o } } := by
  refine ⟨hfresh, hlocked, hloaded, h.within, h.tables, fun p v hv => ?_⟩
  refine (h.reached p v hv).imp_right ?_
  intro ⟨i, hi, _, hu⟩
  exact ⟨i, hi, hsaved i, hu⟩

/-- a save whose table covers the file loses no cap -/
theorem save_accumulated {file : TemperatureFile} {s : CapSys ι π} (h : Accumulated home file s)
    {i : ι} {t : TemperatureInner} {f : TemperatureFile}
    (hh : s.store.holder = some (i, .loaded t f))
    (hc : ∀ p cap, t.operatorCaps.get? p = some cap →
      ∀ v ∈ fileCaps s.store.file p, v ∈ cap.temperatures) :
    Accumulated home file { s with store :=
      { file := persistTo parse t f, holder := some (i, .saved), log := s.store.log ++ [t] } } := by
  have ht := h.loaded i t f hh
  obtain rfl := h.fresh i t f hh
  have hcaps : ∀ p v, v ∈ fileCaps (persistTo parse t s.store.file) p ↔
      v ∈ fileCaps s.store.file p ∨ v ∈ allowed t.operatorCaps p := by
    intro p v
    rw [fileCaps_persistTo]
    unfold allowed
    cases hp : t.operatorCaps.get? p with
    | none => simp
    | some cap =>
      show v ∈ cap.temperatures ↔ _ ∨ v ∈ cap.temperatures
      exact ⟨Or.inr, fun hv => hv.elim (hc p cap hp v) id⟩
  refine ⟨nofun, nofun, nofun, fun p v hv => ?_, h.tables, fun p v hv => ?_⟩
  · rcases (hcaps p v).mp hv with hv | hv
    · exact h.within p v hv
    · exact h.tables _ t ht p v hv
  · rcases h.reached p v hv with hv | ⟨j, hj, hs, u, hu, hv⟩
    · exact Or.inl ((hcaps p v).mpr (Or.inl hv))
    · by_cases hji : j = i
      · subst hji
        obtain rfl := Option.some.inj (ht.symm.trans hu)
        exact Or.inl ((hcaps p v).mpr (Or.inr hv))
      · refine Or.inr ⟨j, hj, fun e => hji ?_, u, hu, hv⟩
        exact (congrArg Prod.fst (Option.some.inj e)).symm

/-- a call that has saved returns -/
theorem done_accumulated {file : TemperatureFile} {s : CapSys ι π} (h : Accumulated home file s)
    {i : ι} (hh : s.store.holder = some (i, .saved)) :
    Accumulated home file { s with
      store := { s.store with holder := none }, pending := Function.update s.pending i false } := by
  refine ⟨nofun, nofun, nofun, h.within, h.tables, fun p v hv => ?_⟩
  refine (h.reached p v hv).imp_right ?_
  intro ⟨j, hj, hs, hu⟩
  have hji : j ≠ i := by
    rintro rfl
    exact hs hh
  refine ⟨j, ?_, nofun, hu⟩
  show Function.update s.pending i false j = true
  rw [Function.update_of_ne hji]
  exact hj

/-- **A step whose save covers the file loses no cap.** -/
theorem step_accumulated {file : TemperatureFile} (s : CapSys ι π) (e : CapEvent ι π) (s' : CapSys ι π)
    (h : Accumulated home file s) (hc : Covers home s e) (hs : s.step parse home e = some s') :
    Accumulated home file s' := by
  obtain ⟨p, t, rfl, hn, ht, rfl⟩ | ⟨i, provider, new, now, t, rfl, -, hp, ht, rfl⟩ |
    ⟨i, t, rfl, -, ht, -, rfl⟩ | ⟨i, t, rfl, hh, rfl⟩ | ⟨i, t, f, rfl, hh, rfl⟩ | ⟨i, rfl, hh, rfl⟩ :=
    capStep_cases parse home hs
  · exact start_accumulated home h hn ht
  · exact set_accumulated home h hp ht
  · refine hold_accumulated home h nofun (fun j u e => ?_) nofun nofun
    obtain ⟨rfl, rfl⟩ : i = j ∧ t = u := by simpa using e
    exact ht
  · refine hold_accumulated home h (fun j u f e => ?_) nofun (fun j u f e => ?_) nofun
    · obtain ⟨-, -, rfl⟩ : i = j ∧ t = u ∧ s.store.file = f := by simpa using e
      rfl
    · obtain ⟨rfl, rfl, -⟩ : i = j ∧ t = u ∧ s.store.file = f := by simpa using e
      exact h.locked i t hh
  · exact save_accumulated parse home h hh fun p cap hp => hc t (h.loaded i t f hh) p cap hp
  · exact done_accumulated home h hh

/-- **Operator caps accumulate.**  In every run whose saves cover the file, when no call is under
way, the cap set that the file has for a provider is what it had at first and what all the calls
have passed. -/
theorem caps_accumulate (file : TemperatureFile) (es : List (CapEvent ι π)) (s : CapSys ι π)
    (hrun : Runs.run (CapSys.step parse home) (CapSys.init file) es = some s)
    (hc : Runs.Along (CapSys.step parse home) (Covers home) (CapSys.init file) es)
    (hdone : ∀ i, s.pending i = false) (p : String) (v : F32) :
    v ∈ fileCaps s.store.file p ↔
      v ∈ fileCaps file p ∨ ∃ q ∈ s.asked, q.1 = p ∧ v ∈ q.2 := by
  have h := Runs.run_inv (step_accumulated parse home) es _ s (accumulated_init home file) hc hrun
  refine ⟨h.within p v, fun hv => ?_⟩
  rcases h.reached p v hv with hv | ⟨i, hi, -⟩
  · exact hv
  · rw [hdone i] at hi
    cases hi

end

/-- a call in a process that started from the file as it is -/
theorem covers_fromPath {c : TemperatureFile} {t : TemperatureInner} (h : fromPath c = some t)
    (provider : String) (new : List F32) (now : String) (p : String) (cap : OperatorCap)
    (hcap : (setOperatorCap t provider new now).operatorCaps.get? p = some cap) (v : F32)
    (hv : v ∈ fileCaps c p) : v ∈ cap.temperatures := by
  rw [← fromPath_caps h] at hv
  have hset := (mem_allowed_set t provider new now p v).mpr (Or.inl hv)
  rw [allowed, hcap] at hset
  exact hset

/-- the call of a process, from its start to its return -/
def calling (i : Bool) (bits : UInt32) : List (CapEvent Bool Bool) :=
  [.set i "or" [⟨bits⟩] "2026-10-23T10:00:00+00:00", .lock i, .load i, .save i, .done i]

/-- the second process starts when the first is done -/
def inTurn : List (CapEvent Bool Bool) :=
  .start false :: calling false 0x3f000000 ++ .start true :: calling true 0x3f333333

theorem caps_accumulate_inTurn :
    ∃ s, Runs.run (CapSys.step tenAndEleven id) (CapSys.init .missing) inTurn = some s ∧
      s.asked = [("or", [⟨0x3f000000⟩]), ("or", [⟨0x3f333333⟩])] ∧
      ∀ p v, v ∈ fileCaps s.store.file p ↔
        v ∈ fileCaps .missing p ∨ ∃ q ∈ s.asked, q.1 = p ∧ v ∈ q.2 := by
  refine ⟨_, rfl, rfl, caps_accumulate tenAndEleven id .missing inTurn _ rfl ?_ ?_⟩
  · have run : ∀ {s s' : CapSys Bool Bool} {e : CapEvent Bool Bool} {es : List (CapEvent Bool Bool)},
        s.step tenAndEleven id e = some s' → Covers id s e →
        Runs.Along (CapSys.step tenAndEleven id) (Covers id) s' es →
        Runs.Along (CapSys.step tenAndEleven id) (Covers id) s (e :: es) :=
      fun hs hg h => Runs.along_cons hs hg h
    refine run rfl trivial (run rfl trivial (run rfl trivial (run rfl trivial (run rfl ?_ ?_))))
    · intro t ht p cap hcap v hv
      obtain rfl := Option.some.inj ht
      exact covers_fromPath (c := .missing) rfl _ _ _ p cap hcap v hv
    refine run rfl trivial (run rfl trivial (run rfl trivial (run rfl trivial (run rfl trivial
      (run rfl ?_ (run rfl trivial trivial))))))
    intro t ht p cap hcap v hv
    obtain rfl := Option.some.inj ht
    exact covers_fromPath rfl _ _ _ p cap hcap v hv
  · intro i
    cases i <;> rfl

/-- Both processes start on the empty sidecar; the second still has its old table when it saves. -/
def fromOldTable : List (CapEvent Bool Bool) :=
  .start false :: .start true :: calling false 0x3f000000 ++ calling true 0x3f333333

theorem cap_lost :
    ∃ s, Runs.run (CapSys.step tenAndEleven id) (CapSys.init .missing) fromOldTable = some s ∧
      (∀ i, s.pending i = false) ∧ s.asked = [("or", [⟨0x3f000000⟩]), ("or", [⟨0x3f333333⟩])] ∧
      ⟨0x3f000000⟩ ∉ fileCaps s.store.file "or" := by
  refine ⟨_, rfl, fun i => ?_, rfl, ?_⟩
  · cases i <;> rfl
  · decide +kernel

end Moagan.Sidecar
