import Mathlib.Data.List.Basic
import Mathlib.Data.List.Induction

/-!
# Paths in a tree with symbolic links

A location is the list of the names from the top of the tree.  A path is its text, split at `/`.

* `Tree`           files, directories and links; what is there is in a directory
* `walk`           a path, piece by piece: at a link its target comes before the rest; so many links
                   and no more
* `Plain`          a location that is no link, in a directory
* `walk_plain`     where a walk ends, the location is plain
* `walk_of_plain`  a plain location is its own path
* `walk_entry`     a walk to an entry of a directory ends there, or where its link leads
* `Tree.ofTable`   the tree of a finite table
-/

namespace Links

abbrev Location := List String

structure Path where
  absolute : Bool
  /-- what is between the slashes, behind the first one of an absolute path -/
  pieces : List String
deriving DecidableEq, Repr

inductive Node where
  | file
  | dir
  | link (target : Path)
deriving DecidableEq, Repr

def IsName (n : String) : Prop := n ≠ "" ∧ n ≠ "." ∧ n ≠ ".."

instance (n : String) : Decidable (IsName n) := inferInstanceAs (Decidable (_ ∧ _))

structure Tree where
  node : Location → Option Node
  top : node [] = some .dir
  parent : ∀ d n, node (d ++ [n]) ≠ none → node d = some .dir
  named : ∀ d n, node (d ++ [n]) ≠ none → IsName n

/-- where a path begins that is used in `d` -/
def start (d : Location) (p : Path) : Location := if p.absolute then [] else d

section
variable (tree : Tree) (create : Bool)

/-- the rest of a path from `d`, where `follow` goes on behind a link; with `create` the last name
need not be there -/
def walkWith (follow : Location → List String → Option Location) : Location → List String →
    Option Location
  | d, [] => some d
  | d, piece :: rest =>
    if tree.node d ≠ some .dir then none
    else if piece = "" ∨ piece = "." then walkWith follow d rest
    else if piece = ".." then walkWith follow d.dropLast rest
    else
      match tree.node (d ++ [piece]) with
      | none => if create = true ∧ rest = [] then some (d ++ [piece]) else none
      | some (.link target) => follow (start d target) (target.pieces ++ rest)
      | some _ => walkWith follow (d ++ [piece]) rest

/-- with at most so many links -/
def walk : ℕ → Location → List String → Option Location
  | 0 => walkWith tree create fun _ _ => none
  | n + 1 => walkWith tree create (walk n)

/-- the location a link in `d` leads to -/
def leadsTo : ℕ → Location → Path → Option Location
  | 0, _, _ => none
  | n + 1, d, target => walk tree create n (start d target) target.pieces

/-- what a walk does behind a link -/
def follower : ℕ → Location → List String → Option Location
  | 0 => fun _ _ => none
  | n + 1 => walk tree create n

variable {tree create}

theorem walk_eq (n : ℕ) : walk tree create n = walkWith tree create (follower tree create n) := by
  cases n <;> rfl

theorem Tree.node_prefix {d rest : Location} (h : tree.node (d ++ rest) = some .dir) :
    tree.node d = some .dir := by
  induction rest using List.reverseRecOn with
  | nil => rwa [List.append_nil] at h
  | append_singleton rest n ih =>
    rw [← List.append_assoc] at h
    exact ih (tree.parent _ n (by rw [h]; exact Option.some_ne_none _))

/-! ## plain locations -/

/-- there is a file or a directory -/
def Tree.Placed (tree : Tree) (l : Location) : Prop :=
  ∃ node, tree.node l = some node ∧ ∀ target, node ≠ .link target

/-- no link, and in a directory -/
def Tree.Plain (tree : Tree) (l : Location) : Prop :=
  l = [] ∨ ∃ d n, l = d ++ [n] ∧ tree.node d = some .dir ∧ IsName n ∧
    ∀ target, tree.node l ≠ some (.link target)

theorem Tree.Placed.of_dir {d : Location} (h : tree.node d = some .dir) : tree.Placed d :=
  ⟨.dir, h, nofun⟩

theorem Tree.Placed.plain {l : Location} (h : tree.Placed l) : tree.Plain l := by
  obtain ⟨node, h, hlink⟩ := h
  obtain rfl | ⟨d, n, rfl⟩ := List.eq_nil_or_concat' l
  · exact Or.inl rfl
  · have hne : tree.node (d ++ [n]) ≠ none := by
      rw [h]
      exact Option.some_ne_none _
    refine Or.inr ⟨d, n, rfl, tree.parent d n hne, tree.named d n hne, fun target ht => ?_⟩
    exact hlink target (Option.some.inj (h.symm.trans ht))

theorem node_dropLast {d : Location} (h : tree.node d = some .dir) :
    tree.node d.dropLast = some .dir := by
  obtain rfl | ⟨d, n, rfl⟩ := List.eq_nil_or_concat' d
  · exact h
  · rw [List.dropLast_concat]
    exact Tree.node_prefix h

theorem node_start {d : Location} (h : tree.node d = some .dir) (p : Path) :
    tree.node (start d p) = some .dir := by
  unfold start
  split
  · exact tree.top
  · exact h

/-- every walk ends in a plain location, and without `create` there is something -/
def Ends (tree : Tree) (create : Bool) (follow : Location → List String → Option Location) : Prop :=
  ∀ pieces d l, tree.Placed d → follow d pieces = some l →
    tree.Plain l ∧ (create = false → tree.Placed l)

theorem walkWith_ends {follow : Location → List String → Option Location}
    (h : Ends tree create follow) : Ends tree create (walkWith tree create follow) := by
  intro pieces
  induction pieces with
  | nil =>
    intro d l hd hl
    obtain rfl := Option.some.inj hl
    exact ⟨hd.plain, fun _ => hd⟩
  | cons piece rest ih =>
    intro d l hd hl
    rw [walkWith] at hl
    by_cases hdir : tree.node d = some .dir
    · rw [if_neg (not_not.mpr hdir)] at hl
      by_cases hdot : piece = "" ∨ piece = "."
      · rw [if_pos hdot] at hl
        exact ih d l hd hl
      · rw [if_neg hdot] at hl
        by_cases hup : piece = ".."
        · rw [if_pos hup] at hl
          exact ih d.dropLast l (.of_dir (node_dropLast hdir)) hl
        · rw [if_neg hup] at hl
          have hname : IsName piece := ⟨fun h => hdot (Or.inl h), fun h => hdot (Or.inr h), hup⟩
          cases hnode : tree.node (d ++ [piece]) with
          | none =>
            rw [hnode] at hl
            obtain ⟨⟨hcreate, -⟩, hl⟩ := Option.ite_none_right_eq_some.mp hl
            obtain rfl := Option.some.inj hl
            refine ⟨Or.inr ⟨d, piece, rfl, hdir, hname, fun target ht => ?_⟩, fun hfalse => ?_⟩
            · rw [hnode] at ht
              cases ht
            · rw [hcreate] at hfalse
              cases hfalse
          | some node =>
            rw [hnode] at hl
            cases node with
            | link target => exact h _ _ l (.of_dir (node_start hdir target)) hl
            | file => exact ih _ l ⟨.file, hnode, nofun⟩ hl
            | dir => exact ih _ l ⟨.dir, hnode, nofun⟩ hl
    · rw [if_pos hdir] at hl
      cases hl

/-- **A walk ends in a plain location.** -/
theorem walk_ends (n : ℕ) : Ends tree create (walk tree create n) := by
  induction n with
  | zero => exact walkWith_ends nofun
  | succ n ih => exact walkWith_ends ih

/-! ## locations as paths -/

/-- what a walk does at a name -/
theorem walkWith_name {follow : Location → List String → Option Location} {d : Location} {n : String}
    (hn : IsName n) (rest : List String) : walkWith tree create follow d (n :: rest) =
      if tree.node d ≠ some .dir then none else
      match tree.node (d ++ [n]) with
      | none => if create = true ∧ rest = [] then some (d ++ [n]) else none
      | some (.link target) => follow (start d target) (target.pieces ++ rest)
      | some _ => walkWith tree create follow (d ++ [n]) rest := by
  rw [walkWith, if_neg (not_or.mpr ⟨hn.1, hn.2.1⟩), if_neg hn.2.2]

/-- **A walk goes through the names of a directory.** -/
theorem walkWith_dirs (follow : Location → List String → Option Location) (rest : List String) :
    ∀ front d : Location, tree.node (front ++ d) = some .dir →
      walkWith tree create follow front (d ++ rest) = walkWith tree create follow (front ++ d) rest := by
  intro front d
  induction d generalizing front with
  | nil =>
    intro _
    rw [List.append_nil]
    rfl
  | cons n d ih =>
    intro h
    rw [List.append_cons] at h
    have hfirst : tree.node (front ++ [n]) = some .dir := Tree.node_prefix h
    have hne : tree.node (front ++ [n]) ≠ none := by
      rw [hfirst]
      exact Option.some_ne_none _
    rw [List.cons_append, walkWith_name (tree.named front n hne), if_neg (not_not.mpr
      (Tree.node_prefix hfirst)), hfirst]
    show walkWith tree create follow (front ++ [n]) (d ++ rest) = _
    rw [List.append_cons front n d]
    exact ih (front ++ [n]) h

/-- **A walk to an entry of a directory ends there, or where its link leads.** -/
theorem walk_entry (m : ℕ) {d : Location} {n : String} (hd : tree.node d = some .dir)
    (hn : IsName n) : walk tree true m [] (d ++ [n]) =
      match tree.node (d ++ [n]) with
      | some (.link target) => leadsTo tree true m d target
      | _ => some (d ++ [n]) := by
  rw [walk_eq, walkWith_dirs _ [n] [] d hd, List.nil_append, walkWith_name hn,
    if_neg (not_not.mpr hd)]
  cases hnode : tree.node (d ++ [n]) with
  | none => rfl
  | some node =>
    cases node with
    | file => rfl
    | dir => rfl
    | link target =>
      show follower tree true m (start d target) (target.pieces ++ []) = leadsTo tree true m d target
      rw [List.append_nil]
      cases m <;> rfl

/-- **A plain location is its own path.** -/
theorem walk_of_plain (m : ℕ) {l : Location} (h : tree.Plain l) : walk tree true m [] l = some l := by
  obtain rfl | ⟨d, n, rfl, hd, hn, hlink⟩ := h
  · rw [walk_eq]
    rfl
  · rw [walk_entry m hd hn]
    split
    · rename_i target ht
      exact absurd ht (hlink target)
    · rfl

/-- below a file there is nothing -/
theorem walk_below_file (m : ℕ) {l : Location} (h : tree.Placed l) (hdir : tree.node l ≠ some .dir)
    {n : String} (hn : IsName n) : walk tree true m [] (l ++ [n]) = none := by
  obtain rfl | ⟨d, k, rfl, hd, hk, hlink⟩ := h.plain
  · exact absurd tree.top hdir
  · obtain ⟨node, hnode, hplain⟩ := h
    rw [walk_eq, List.append_assoc, walkWith_dirs _ _ [] d hd, List.nil_append]
    show walkWith tree true _ d (k :: [n]) = none
    rw [walkWith_name hk, if_neg (not_not.mpr hd)]
    split
    · rename_i hnone
      rw [hnode] at hnone
      cases hnone
    · rename_i target ht
      exact absurd ht (hlink target)
    · rw [walkWith_name hn, if_pos hdir]

end

/-! ## trees as tables -/

def nodeOf (table : List (Location × Node)) (l : Location) : Option Node :=
  if l = [] then some .dir else table.lookup l

/-- every entry has a name and is in a directory -/
def closed (table : List (Location × Node)) : Bool :=
  table.all fun entry => nodeOf table entry.1.dropLast = some .dir && entry.1.getLast?.all (IsName ·)

theorem mem_of_lookup {table : List (Location × Node)} {l : Location} {node : Node}
    (h : table.lookup l = some node) : (l, node) ∈ table := by
  obtain ⟨front, rest, rfl, -⟩ := List.lookup_eq_some_iff.mp h
  exact List.mem_append_right _ List.mem_cons_self

theorem closed_entry {table : List (Location × Node)} (h : closed table = true) {d : Location}
    {n : String} (hne : nodeOf table (d ++ [n]) ≠ none) :
    nodeOf table d = some .dir ∧ IsName n := by
  obtain ⟨node, hnode⟩ := Option.ne_none_iff_exists'.mp hne
  rw [nodeOf, if_neg (by simp)] at hnode
  have hentry := List.all_eq_true.mp h _ (mem_of_lookup hnode)
  rw [Bool.and_eq_true, List.dropLast_concat, List.getLast?_concat] at hentry
  exact ⟨of_decide_eq_true hentry.1, of_decide_eq_true hentry.2⟩

def Tree.ofTable (table : List (Location × Node)) (h : closed table = true) : Tree where
  node := nodeOf table
  top := rfl
  parent _ _ hne := (closed_entry h hne).1
  named _ _ hne := (closed_entry h hne).2

end Links
