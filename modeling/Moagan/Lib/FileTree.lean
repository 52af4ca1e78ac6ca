import Mathlib.Data.List.Infix
import Mathlib.Data.List.Nodup
import Mathlib.Data.List.Perm.Basic

/-!
# Finite trees of files

A path is the list of its names.  A tree is a finite list of files; its directories are what is
above them.

* `Files`                 the files, under distinct paths, none above another
* `file`, `isDir`         what is at a path
* `put`                   a file written where there is room for it
* `pathText`, `plainPath`   the text of a path, and the path of a text without `.`, `..` and
                          empty pieces
* `file_put`, `plainPath_pathText`   what they do
-/

namespace FileTree

abbrev Name := List Char

abbrev Path := List Name

def IsName (n : Name) : Prop := n ≠ [] ∧ n ≠ ['.'] ∧ n ≠ ['.', '.'] ∧ '/' ∉ n

instance (n : Name) : Decidable (IsName n) := inferInstanceAs (Decidable (_ ∧ _))

/-- a path below the top -/
def Proper (p : Path) : Prop := p ≠ [] ∧ ∀ n ∈ p, IsName n

instance (p : Path) : Decidable (Proper p) := inferInstanceAs (Decidable (_ ∧ _))

structure Files (β : Type) where
  files : List (Path × β)
  nodup : (files.map Prod.fst).Nodup
  proper : ∀ e ∈ files, Proper e.1
  apart : ∀ e ∈ files, ∀ e' ∈ files, e.1 <+: e'.1 → e.1 = e'.1

namespace Files
variable {β : Type}

def empty : Files β where
  files := []
  nodup := List.nodup_nil
  proper := fun _ h => absurd h List.not_mem_nil
  apart := fun _ h => absurd h List.not_mem_nil

def paths (t : Files β) : List Path := t.files.map Prod.fst

def file (t : Files β) (p : Path) : Option β := (t.files.find? (·.1 = p)).map Prod.snd

/-- above a file -/
def isDir (t : Files β) (p : Path) : Bool := t.paths.any fun q => p.isPrefixOf q && p ≠ q

/-- there is no file at or above `p` but `p` itself, and none below -/
def Room (t : Files β) (p : Path) : Prop :=
  Proper p ∧ ∀ q ∈ t.paths, (q <+: p → q = p) ∧ (p <+: q → q = p)

instance (t : Files β) (p : Path) : Decidable (t.Room p) := inferInstanceAs (Decidable (_ ∧ _))

theorem mem_paths {t : Files β} {p : Path} : p ∈ t.paths ↔ ∃ b, (p, b) ∈ t.files := by
  rw [paths, List.mem_map]
  constructor
  · rintro ⟨⟨q, b⟩, he, rfl⟩
    exact ⟨b, he⟩
  · rintro ⟨b, he⟩
    exact ⟨(p, b), he, rfl⟩

theorem proper_of_mem {t : Files β} {p : Path} (h : p ∈ t.paths) : Proper p := by
  obtain ⟨b, he⟩ := mem_paths.mp h
  exact t.proper _ he

theorem apart_paths {t : Files β} {p q : Path} (hp : p ∈ t.paths) (hq : q ∈ t.paths)
    (h : p <+: q) : p = q := by
  obtain ⟨b, hb⟩ := mem_paths.mp hp
  obtain ⟨c, hc⟩ := mem_paths.mp hq
  exact t.apart _ hb _ hc h

def put (t : Files β) (p : Path) (b : β) (h : t.Room p) : Files β where
  files := (p, b) :: t.files.filter fun e => e.1 ≠ p
  nodup := by
    rw [List.map_cons, List.nodup_cons]
    refine ⟨fun hmem => ?_, (t.nodup.sublist (List.Sublist.map Prod.fst List.filter_sublist))⟩
    obtain ⟨e, he, hp⟩ := List.mem_map.mp hmem
    exact of_decide_eq_true (List.mem_filter.mp he).2 hp
  proper := by
    intro e he
    obtain rfl | he := List.mem_cons.mp he
    · exact h.1
    · exact t.proper e (List.mem_of_mem_filter he)
  apart := by
    have hroom : ∀ e ∈ t.files.filter fun e => e.1 ≠ p, e.1 ∈ t.paths :=
      fun e he => List.mem_map_of_mem (List.mem_of_mem_filter he)
    intro e he e' he' hpre
    obtain rfl | he := List.mem_cons.mp he
    · obtain rfl | he' := List.mem_cons.mp he'
      · rfl
      · exact ((h.2 _ (hroom e' he')).2 hpre).symm
    · obtain rfl | he' := List.mem_cons.mp he'
      · exact (h.2 _ (hroom e he)).1 hpre
      · exact t.apart e (List.mem_of_mem_filter he) e' (List.mem_of_mem_filter he') hpre

theorem file_eq_some {t : Files β} {p : Path} {b : β} : t.file p = some b ↔ (p, b) ∈ t.files := by
  unfold file
  constructor
  · intro h
    obtain ⟨e, he, rfl⟩ := Option.map_eq_some_iff.mp h
    have hp := List.find?_some he
    rw [decide_eq_true_eq] at hp
    rw [← hp]
    exact List.mem_of_find?_eq_some he
  · intro h
    cases hf : t.files.find? (·.1 = p) with
    | none => exact absurd (decide_eq_true rfl) (List.find?_eq_none.mp hf (p, b) h)
    | some e =>
      have hp := List.find?_some hf
      rw [decide_eq_true_eq] at hp
      have he : e = (p, b) := List.inj_on_of_nodup_map t.nodup (List.mem_of_find?_eq_some hf) h hp
      rw [he]
      rfl

theorem file_isSome {t : Files β} {p : Path} : (t.file p).isSome ↔ p ∈ t.paths := by
  rw [Option.isSome_iff_exists, mem_paths]
  constructor
  · rintro ⟨b, hb⟩
    exact ⟨b, file_eq_some.mp hb⟩
  · rintro ⟨b, hb⟩
    exact ⟨b, file_eq_some.mpr hb⟩

theorem file_empty (p : Path) : (empty : Files β).file p = none := rfl

/-- **A write changes what is at its path, and nothing else.** -/
theorem file_put (t : Files β) {p : Path} (b : β) (h : t.Room p) (q : Path) :
    (t.put p b h).file q = if q = p then some b else t.file q := by
  split_ifs with hq
  · rw [hq]
    exact file_eq_some.mpr List.mem_cons_self
  · have hpq : ¬ p = q := fun he => hq he.symm
    unfold put file
    rw [List.find?_cons_of_neg (by simpa using hpq), List.find?_filter]
    congr 2
    funext e
    by_cases he : e.1 = q
    · simp [he, hq]
    · simp [he]

theorem mem_paths_put {t : Files β} {p q : Path} {b : β} {h : t.Room p}
    (hq : q ∈ (t.put p b h).paths) : q = p ∨ q ∈ t.paths := by
  have hq := file_isSome.mpr hq
  rw [file_put] at hq
  split_ifs at hq with he
  · exact Or.inl he
  · exact Or.inr (file_isSome.mp hq)

theorem isDir_iff {t : Files β} {p : Path} :
    t.isDir p = true ↔ ∃ q ∈ t.paths, p <+: q ∧ p ≠ q := by
  rw [isDir, List.any_eq_true]
  constructor
  · rintro ⟨q, hq, h⟩
    obtain ⟨h1, h2⟩ := Bool.and_eq_true_iff.mp h
    exact ⟨q, hq, List.isPrefixOf_iff_prefix.mp h1, of_decide_eq_true h2⟩
  · rintro ⟨q, hq, h1, h2⟩
    exact ⟨q, hq, Bool.and_eq_true_iff.mpr ⟨List.isPrefixOf_iff_prefix.mpr h1, decide_eq_true h2⟩⟩

/-- a file is no directory -/
theorem not_isDir {t : Files β} {p : Path} (h : p ∈ t.paths) : t.isDir p = false := by
  rw [Bool.eq_false_iff]
  intro hdir
  obtain ⟨q, hq, hpre, hne⟩ := isDir_iff.mp hdir
  exact hne (apart_paths h hq hpre)

end Files

/-! ## texts -/

def pathText (p : Path) : List Char := ['/'].intercalate p

/-- a text all of whose pieces are names -/
def plainPath (text : List Char) : Option Path :=
  if ∀ n ∈ text.splitOn '/', IsName n then some (text.splitOn '/') else none

/-- **A path is read back from its text.** -/
theorem plainPath_pathText {p : Path} (h : Proper p) : plainPath (pathText p) = some p := by
  have hsplit : (pathText p).splitOn '/' = p :=
    List.splitOn_intercalate '/' (fun n hn => (h.2 n hn).2.2.2) h.1
  unfold plainPath
  rw [hsplit, if_pos h.2]

theorem pathText_inj {p q : Path} (hp : Proper p) (hq : Proper q) (h : pathText p = pathText q) :
    p = q := by
  have := plainPath_pathText hp
  rw [h, plainPath_pathText hq] at this
  exact (Option.some.inj this).symm

theorem mem_pathText {p : Path} {c : Char} (h : c ∈ pathText p) : c = '/' ∨ ∃ n ∈ p, c ∈ n := by
  induction p with
  | nil => exact absurd h List.not_mem_nil
  | cons n p ih =>
    cases p with
    | nil => exact Or.inr ⟨n, List.mem_cons_self, by simpa [pathText] using h⟩
    | cons m p =>
      rw [pathText, List.intercalate_cons_cons, List.append_assoc, List.mem_append] at h
      obtain h | h := h
      · exact Or.inr ⟨n, List.mem_cons_self, h⟩
      · obtain h | h := List.mem_append.mp h
        · exact Or.inl (List.mem_singleton.mp h)
        · obtain h | ⟨k, hk, hc⟩ := ih h
          · exact Or.inl h
          · exact Or.inr ⟨k, List.mem_cons_of_mem _ hk, hc⟩

theorem pathText_ne_nil {p : Path} (h : Proper p) : pathText p ≠ [] := by
  intro hnil
  have hsplit : (pathText p).splitOn '/' = p :=
    List.splitOn_intercalate '/' (fun n hn => (h.2 n hn).2.2.2) h.1
  rw [hnil] at hsplit
  exact (h.2 [] (hsplit ▸ List.mem_cons_self)).1 rfl

end FileTree
