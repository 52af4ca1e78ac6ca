import Mathlib.Logic.Basic
import Moagan.Lib.Runs

/-!
# A shared set that is written back to a file

Any number of tasks put elements into one set in memory.  A task whose element is new takes the
lock of the file, loads it, merges all of the set into it, saves it and lets the lock go; a task
whose element is known does nothing.  The set has a lock of its own, so that an insertion or a
merge is one step, and other tasks run between any two of them.

* `Sys.step`       one step of a task
* `Laws`           what the set, the merge and the file have to do with each other
* `Inv`            what holds between the steps: an element that is not in the file will be
* `file_keeps`     when no task is under way the file has every element, and what it had before
-/

namespace WriteBack

section
variable {ι α μ β φ : Type*}

/-- how far the holder of the lock is -/
inductive Hold (β : Type*) where
  | locked
  | loaded (b : β)
  | merged (b : β)
  | saved

inductive Event (ι α : Type*) where
  | record (i : ι) (x : α)
  | lock (i : ι)
  | load (i : ι)
  | merge (i : ι)
  | save (i : ι)
  | unlock (i : ι)

/-- `waiting`: the tasks that want the lock; `log`: the elements of all calls -/
structure Sys (ι α μ β φ : Type*) where
  memory : μ
  file : φ
  waiting : ι → Bool
  holder : Option (ι × Hold β)
  log : List α

def Sys.init (memory : μ) (file : φ) : Sys ι α μ β φ :=
  { memory := memory, file := file, waiting := fun _ => false, holder := none, log := [] }

/-- the set, its insertion, and the file -/
structure Ops (α μ β φ : Type*) where
  known : μ → α → Bool
  insert : μ → α → μ
  load : φ → Option β
  merge : β → μ → β
  save : β → φ

variable [DecidableEq ι] (ops : Ops α μ β φ)

def Sys.step (s : Sys ι α μ β φ) : Event ι α → Option (Sys ι α μ β φ)
  | .record i x =>
    if s.waiting i = true ∨ s.holder.map Prod.fst = some i then none
    else if ops.known s.memory x then some { s with log := s.log ++ [x] }
    else some { s with
      memory := ops.insert s.memory x
      waiting := fun j => if j = i then true else s.waiting j
      log := s.log ++ [x] }
  | .lock i =>
    match s.holder with
    | none =>
      if s.waiting i then some { s with
        waiting := fun j => if j = i then false else s.waiting j
        holder := some (i, .locked) }
      else none
    | some _ => none
  | .load i =>
    match s.holder with
    | some (j, .locked) =>
      if j = i then
        match ops.load s.file with
        | some b => some { s with holder := some (i, .loaded b) }
        -- the call fails, and the lock goes
        | none => some { s with holder := none }
      else none
    | _ => none
  | .merge i =>
    match s.holder with
    | some (j, .loaded b) =>
      if j = i then some { s with holder := some (i, .merged (ops.merge b s.memory)) } else none
    | _ => none
  | .save i =>
    match s.holder with
    | some (j, .merged b) =>
      if j = i then some { s with file := ops.save b, holder := some (i, .saved) } else none
    | _ => none
  | .unlock i =>
    match s.holder with
    | some (j, .saved) => if j = i then some { s with holder := none } else none
    | _ => none

/-- no call is under way -/
structure Sys.Finished (s : Sys ι α μ β φ) : Prop where
  waiting : ∀ i, s.waiting i = false
  holder : s.holder = none

/-! ## what a step does -/

/-- the events, their guards and what they leave -/
inductive Does (s : Sys ι α μ β φ) : Event ι α → Sys ι α μ β φ → Prop
  | known {i : ι} {x : α} : ops.known s.memory x = true →
      Does s (.record i x) { s with log := s.log ++ [x] }
  | insert {i : ι} {x : α} : ops.known s.memory x = false →
      Does s (.record i x) { s with
        memory := ops.insert s.memory x
        waiting := fun j => if j = i then true else s.waiting j
        log := s.log ++ [x] }
  | lock {i : ι} : s.holder = none → s.waiting i = true →
      Does s (.lock i) { s with
        waiting := fun j => if j = i then false else s.waiting j
        holder := some (i, .locked) }
  | load {i : ι} {b : β} : s.holder = some (i, .locked) → ops.load s.file = some b →
      Does s (.load i) { s with holder := some (i, .loaded b) }
  | refuse {i : ι} : s.holder = some (i, .locked) → ops.load s.file = none →
      Does s (.load i) { s with holder := none }
  | merge {i : ι} {b : β} : s.holder = some (i, .loaded b) →
      Does s (.merge i) { s with holder := some (i, .merged (ops.merge b s.memory)) }
  | save {i : ι} {b : β} : s.holder = some (i, .merged b) →
      Does s (.save i) { s with file := ops.save b, holder := some (i, .saved) }
  | unlock {i : ι} : s.holder = some (i, .saved) → Does s (.unlock i) { s with holder := none }

variable {ops}

theorem step_does {s s' : Sys ι α μ β φ} {e : Event ι α} (h : s.step ops e = some s') :
    Does ops s e s' := by
  cases e with
  | record i x =>
    simp only [Sys.step] at h
    split at h
    · cases h
    · split at h
      · rename_i hk
        exact Option.some.inj h ▸ .known hk
      · rename_i hk
        exact Option.some.inj h ▸ .insert (Bool.eq_false_iff.mpr hk)
  | lock i =>
    simp only [Sys.step] at h
    split at h
    · rename_i hh
      split at h
      · rename_i hw
        exact Option.some.inj h ▸ .lock hh hw
      · cases h
    · cases h
  | load i =>
    simp only [Sys.step] at h
    split at h
    · rename_i j hh
      split at h
      · rename_i hj
        subst hj
        split at h
        · rename_i b hb
          exact Option.some.inj h ▸ .load hh hb
        · rename_i hb
          exact Option.some.inj h ▸ .refuse hh hb
      · cases h
    · cases h
  | merge i =>
    simp only [Sys.step] at h
    split at h
    · rename_i j b hh
      split at h
      · rename_i hj
        subst hj
        exact Option.some.inj h ▸ .merge hh
      · cases h
    · cases h
  | save i =>
    simp only [Sys.step] at h
    split at h
    · rename_i j b hh
      split at h
      · rename_i hj
        subst hj
        exact Option.some.inj h ▸ .save hh
      · cases h
    · cases h
  | unlock i =>
    simp only [Sys.step] at h
    split at h
    · rename_i j hh
      split at h
      · rename_i hj
        subst hj
        exact Option.some.inj h ▸ .unlock hh
      · cases h
    · cases h

/-- the element of a call -/
def Event.element : Event ι α → Option α
  | .record _ x => some x
  | _ => none

/-- the log has the elements of the calls -/
theorem log_eq (es : List (Event ι α)) : ∀ {s s' : Sys ι α μ β φ},
    Runs.run (Sys.step ops) s es = some s' → s'.log = s.log ++ es.filterMap Event.element := by
  induction es with
  | nil =>
    intro s s' h
    rw [← Option.some.inj h]
    exact (List.append_nil _).symm
  | cons e es ih =>
    intro s s' h
    rw [Runs.run_cons] at h
    obtain ⟨s₁, h1, h2⟩ := Option.bind_eq_some_iff.mp h
    rw [ih h2]
    cases step_does h1 with
    | known _ => exact List.append_assoc _ _ _
    | insert _ => exact List.append_assoc _ _ _
    | _ => rfl

/-! ## nothing is lost -/

/-- `has` and `fileHas` are the elements of the set and of the file -/
structure Laws (ops : Ops α μ β φ) (has : μ → α → Prop) (fileHas : φ → α → Prop) : Prop where
  known : ∀ {m x}, ops.known m x = true → has m x
  insert : ∀ {m x y}, has (ops.insert m x) y ↔ has m y ∨ y = x
  keeps : ∀ {f b m y}, ops.load f = some b → fileHas f y ∨ has m y →
    fileHas (ops.save (ops.merge b m)) y
  loads : ∀ {f b m}, ops.load f = some b → (ops.load (ops.save (ops.merge b m))).isSome

/-- the holder will still merge, or has merged the element -/
def Carries (ops : Ops α μ β φ) (fileHas : φ → α → Prop) (y : α) : Hold β → Prop
  | .locked => True
  | .loaded _ => True
  | .merged b => fileHas (ops.save b) y
  | .saved => False

/-- what the holder has in hand goes with the file -/
def Current (ops : Ops α μ β φ) (fileHas : φ → α → Prop) (file : φ) : Hold β → Prop
  | .locked => True
  | .loaded b => ops.load file = some b
  | .merged b => (∀ y, fileHas file y → fileHas (ops.save b) y) ∧ (ops.load (ops.save b)).isSome
  | .saved => True

structure Inv (ops : Ops α μ β φ) (has : μ → α → Prop) (fileHas : φ → α → Prop) (file : φ)
    (s : Sys ι α μ β φ) : Prop where
  loads : (ops.load s.file).isSome
  current : ∀ i h, s.holder = some (i, h) → Current ops fileHas s.file h
  first : ∀ y, fileHas file y → fileHas s.file y
  logged : ∀ y ∈ s.log, has s.memory y
  carried : ∀ y, has s.memory y → fileHas s.file y ∨ (∃ i, s.waiting i = true) ∨
    ∃ i h, s.holder = some (i, h) ∧ Carries ops fileHas y h

variable {has : μ → α → Prop} {fileHas : φ → α → Prop} {file : φ}

theorem inv_step (laws : Laws ops has fileHas) (s : Sys ι α μ β φ) (e : Event ι α)
    (s' : Sys ι α μ β φ) (hi : Inv ops has fileHas file s) (hs : s.step ops e = some s') :
    Inv ops has fileHas file s' := by
  cases step_does hs with
  | @known i x hk =>
    refine ⟨hi.loads, hi.current, hi.first, fun y hy => ?_, hi.carried⟩
    rcases List.mem_append.mp hy with hy | hy
    · exact hi.logged y hy
    · obtain rfl := List.mem_singleton.mp hy
      exact laws.known hk
  | @insert i x hk =>
    refine ⟨hi.loads, hi.current, hi.first, fun y hy => ?_, fun y _ => ?_⟩
    · rcases List.mem_append.mp hy with hy | hy
      · exact laws.insert.mpr (Or.inl (hi.logged y hy))
      · exact laws.insert.mpr (Or.inr (List.mem_singleton.mp hy))
    · -- the task that inserted will merge whatever is in memory by then
      exact Or.inr (Or.inl ⟨i, if_pos rfl⟩)
  | @lock i hh hw =>
    refine ⟨hi.loads, fun j h hj => ?_, hi.first, hi.logged, fun y _ => ?_⟩
    · cases hj
      trivial
    · exact Or.inr (Or.inr ⟨i, .locked, rfl, trivial⟩)
  | @load i b hh hb =>
    refine ⟨hi.loads, fun j h hj => ?_, hi.first, hi.logged, fun y _ => ?_⟩
    · cases hj
      exact hb
    · exact Or.inr (Or.inr ⟨i, .loaded b, rfl, trivial⟩)
  | @refuse i hh hb =>
    have hl := hi.loads
    rw [hb] at hl
    cases hl
  | @merge i b hh =>
    have hb : ops.load s.file = some b := hi.current i _ hh
    refine ⟨hi.loads, fun j h hj => ?_, hi.first, hi.logged, fun y hy => ?_⟩
    · cases hj
      exact ⟨fun y hy => laws.keeps hb (Or.inl hy), laws.loads hb⟩
    · exact Or.inr (Or.inr ⟨i, _, rfl, laws.keeps hb (Or.inr hy)⟩)
  | @save i b hh =>
    obtain ⟨hkeep, hload⟩ := hi.current i _ hh
    refine ⟨hload, fun j h hj => ?_, fun y hy => hkeep y (hi.first y hy), hi.logged, fun y hy => ?_⟩
    · cases hj
      trivial
    · rcases hi.carried y hy with h | h | ⟨j, g, hj, hc⟩
      · exact Or.inl (hkeep y h)
      · exact Or.inr (Or.inl h)
      · obtain ⟨-, rfl⟩ := Prod.mk.inj (Option.some.inj (hh.symm.trans hj))
        exact Or.inl hc
  | @unlock i hh =>
    refine ⟨hi.loads, nofun, hi.first, hi.logged, fun y hy => ?_⟩
    rcases hi.carried y hy with h | h | ⟨j, g, hj, hc⟩
    · exact Or.inl h
    · exact Or.inr (Or.inl h)
    · obtain ⟨-, rfl⟩ := Prod.mk.inj (Option.some.inj (hh.symm.trans hj))
      exact False.elim hc

/-- **Nothing is lost.**  When no call is under way, the file has the element of every call and
what it had before the first of them. -/
theorem file_keeps (laws : Laws ops has fileHas) {memory : μ} {es : List (Event ι α)}
    {s : Sys ι α μ β φ} (hload : (ops.load file).isSome)
    (hsub : ∀ y, has memory y → fileHas file y)
    (hrun : Runs.run (Sys.step ops) (Sys.init memory file) es = some s) (hdone : s.Finished) :
    (∀ i y, .record i y ∈ es → fileHas s.file y) ∧ ∀ y, fileHas file y → fileHas s.file y := by
  have hinit : Inv ops has fileHas file (Sys.init memory file : Sys ι α μ β φ) :=
    ⟨hload, nofun, fun _ hy => hy, nofun, fun y hy => Or.inl (hsub y hy)⟩
  have hi := Runs.run_inv (fun s e s' h (_ : True) hs => inv_step laws s e s' h hs) es _ s hinit
    (Runs.along_true es _) hrun
  refine ⟨fun i y hy => ?_, hi.first⟩
  have hlog : y ∈ s.log := by
    rw [log_eq es hrun]
    exact List.mem_append_right _ (List.mem_filterMap.mpr ⟨_, hy, rfl⟩)
  rcases hi.carried y (hi.logged y hlog) with h | ⟨j, h⟩ | ⟨j, h, hh, -⟩
  · exact h
  · rw [hdone.waiting j] at h
    cases h
  · rw [hdone.holder] at hh
    cases hh

end

end WriteBack
