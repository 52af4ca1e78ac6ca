import Moagan.Lib.Links

/-!
# The path guard (`src/fs_layout.rs`)

* `components`, `join`, `parent`, `fileName`   paths of `std::path`
* `canonicalize`         `realpath`: a walk in the tree, or a refusal
* `safePath`             the guard: the candidate, or its canonical parent with the last name
* `safePath_contained`   what opening or creating the answer reaches is inside the canonical root,
                         but for a last name that is a link out of it
* `dangling_link_escapes`   such a link is accepted where its target is missing
-/

namespace Moagan.FsLayout
open Links

/-! ## `std::path` -/

/-- `RootDir` is the `absolute` of a path -/
inductive Component where
  | curDir
  | parentDir
  | normal (name : String)
deriving DecidableEq, Repr

/-- a `.` counts only at the front of a relative path -/
def component? (leading : Bool) (piece : String) : Option Component :=
  if piece = "" then none
  else if piece = "." then (if leading then some .curDir else none)
  else if piece = ".." then some .parentDir
  else some (.normal piece)

def components (p : Path) : List Component :=
  match p.pieces with
  | [] => []
  | piece :: rest => (component? (!p.absolute) piece).toList ++ rest.filterMap (component? false)

def Component.text : Component → String
  | .curDir => "."
  | .parentDir => ".."
  | .normal name => name

def join (root candidate : Path) : Path :=
  if candidate.absolute then candidate
  else ⟨root.absolute,
    (if root.pieces.getLast? = some "" then root.pieces.dropLast else root.pieces) ++ candidate.pieces⟩

def parent (p : Path) : Option Path :=
  match (components p).getLast? with
  | none => none
  | some _ => some ⟨p.absolute, (components p).dropLast.map Component.text⟩

def fileName (p : Path) : Option String :=
  match (components p).getLast? with
  | some (.normal name) => some name
  | _ => none

theorem fileName_isName {p : Path} {name : String} (h : fileName p = some name) : IsName name := by
  have hlast : (components p).getLast? = some (.normal name) := by
    unfold fileName at h
    split at h
    · rename_i hl
      rw [hl, Option.some.inj h]
    · cases h
  have hpiece : ∀ leading piece, component? leading piece = some (.normal name) → IsName name := by
    intro leading piece hc
    unfold component? at hc
    split_ifs at hc with h1 h2 h3 h4
    · cases hc
    · cases hc
    · obtain rfl := Component.normal.inj (Option.some.inj hc)
      exact ⟨h1, h2, h4⟩
  have hmem := List.mem_of_getLast? hlast
  unfold components at hmem
  split at hmem
  · cases hmem
  · obtain hmem | hmem := List.mem_append.mp hmem
    · exact hpiece _ _ (Option.mem_toList.mp hmem)
    · obtain ⟨piece, -, hc⟩ := List.mem_filterMap.mp hmem
      exact hpiece _ _ hc

/-! ## the system -/

/-- `maxLinks` is how many links the system follows on a path; `refuses` are the paths for which
`realpath` fails for a reason outside the tree (permissions, a text that is too long) -/
structure FileSystem extends Tree where
  cwd : Location
  cwd_dir : node cwd = some .dir
  maxLinks : ℕ
  refuses : Path → Bool

section
variable (fs : FileSystem)

/-- a canonical path is the list of its names -/
def canonicalize (p : Path) : Option Location :=
  if fs.refuses p ∨ p.absolute = false ∧ p.pieces.all (· = "") then none
  else walk fs.toTree false fs.maxLinks (start fs.cwd p) p.pieces

/-- the location that opening or creating a canonical path reaches, if it reaches one -/
def reached (p : Location) : Option Location := walk fs.toTree true fs.maxLinks [] p

/-! ## the guard -/

inductive SafePathError where
  /-- `PathTraversal`: `… contains ..` -/
  | parentDir (candidate : Path)
  /-- `Io`: `cannot canonicalize root …` -/
  | root (root : Path)
  /-- `PathTraversal`: `candidate … has no filename component` -/
  | noFileName (candidate : Path)
  /-- `Io`: `cannot canonicalize parent of …` -/
  | parent (candidate : Path)
  /-- `PathTraversal`: `… resolves to … which is outside root …` -/
  | outside (candidate : Path) (resolved root : Location)
deriving DecidableEq, Repr

/-- the candidate, or its parent and its last name -/
def canonicalCandidate (candidate joined : Path) : Except SafePathError Location :=
  match canonicalize fs joined with
  | some p => .ok p
  | none =>
    match fileName joined with
    | none => .error (.noFileName candidate)
    | some tail =>
      match canonicalize fs ((parent joined).getD joined) with
      | none => .error (.parent candidate)
      | some canonParent => .ok (canonParent ++ [tail])

def safePath (root candidate : Path) : Except SafePathError Location :=
  let joined := join root candidate
  if .parentDir ∈ components joined then .error (.parentDir candidate)
  else
    match canonicalize fs root with
    | none => .error (.root root)
    | some canonicalRoot =>
      match canonicalCandidate fs candidate joined with
      | .error e => .error e
      | .ok resolved =>
        if canonicalRoot <+: resolved then .ok resolved
        else .error (.outside candidate resolved canonicalRoot)

/-- what is accepted stays inside the root -/
def Contained (root candidate : Path) : Prop :=
  ∀ p, safePath fs root candidate = .ok p → ∀ l, reached fs p = some l →
    ∃ canonicalRoot, canonicalize fs root = some canonicalRoot ∧ canonicalRoot <+: l

/-- The candidate has no canonical path, and its last name is, in its canonical parent inside the
root, a link that leads out of the root. -/
def LeadsOut (root candidate : Path) : Prop :=
  .parentDir ∉ components (join root candidate) ∧ canonicalize fs (join root candidate) = none ∧
  ∃ canonicalRoot canonParent tail target l,
    canonicalize fs root = some canonicalRoot ∧
    fileName (join root candidate) = some tail ∧
    canonicalize fs ((parent (join root candidate)).getD (join root candidate)) = some canonParent ∧
    canonicalRoot <+: canonParent ++ [tail] ∧
    fs.node (canonParent ++ [tail]) = some (.link target) ∧
    leadsTo fs.toTree true fs.maxLinks canonParent target = some l ∧ ¬ canonicalRoot <+: l

end

section
variable {fs : FileSystem} {root candidate : Path}

/-- a canonical path is no link, and neither is what is above it -/
theorem canonicalize_placed {p : Path} {l : Location} (h : canonicalize fs p = some l) :
    fs.Placed l := by
  obtain ⟨-, hwalk⟩ := Option.ite_none_left_eq_some.mp h
  have hstart : fs.Placed (start fs.cwd p) := .of_dir (node_start fs.cwd_dir p)
  exact (walk_ends fs.maxLinks p.pieces _ l hstart hwalk).2 rfl

/-- a canonical path is where it leads -/
theorem reached_canonical {p : Path} {l : Location} (h : canonicalize fs p = some l) :
    reached fs l = some l :=
  walk_of_plain fs.maxLinks (canonicalize_placed h).plain

theorem canonicalCandidate_ok {joined : Path} {p : Location} :
    canonicalCandidate fs candidate joined = .ok p ↔ canonicalize fs joined = some p ∨
      canonicalize fs joined = none ∧ ∃ canonParent tail, fileName joined = some tail ∧
        canonicalize fs ((parent joined).getD joined) = some canonParent ∧
        p = canonParent ++ [tail] := by
  unfold canonicalCandidate
  constructor
  · intro h
    split at h
    · rename_i q hq
      exact Or.inl (hq.trans (congrArg some (Except.ok.inj h)))
    · rename_i hnone
      split at h
      · cases h
      · rename_i tail htail
        split at h
        · cases h
        · rename_i canonParent hparent
          exact Or.inr ⟨hnone, canonParent, tail, htail, hparent, (Except.ok.inj h).symm⟩
  · intro h
    obtain h | ⟨hnone, canonParent, tail, htail, hparent, rfl⟩ := h
    · rw [h]
    · rw [hnone]
      dsimp only
      rw [htail]
      dsimp only
      rw [hparent]

theorem safePath_ok {p : Location} : safePath fs root candidate = .ok p ↔
    .parentDir ∉ components (join root candidate) ∧
    ∃ canonicalRoot, canonicalize fs root = some canonicalRoot ∧
      canonicalCandidate fs candidate (join root candidate) = .ok p ∧ canonicalRoot <+: p := by
  unfold safePath
  constructor
  · intro h
    dsimp only at h
    by_cases hup : .parentDir ∈ components (join root candidate)
    · rw [if_pos hup] at h
      cases h
    · rw [if_neg hup] at h
      refine ⟨hup, ?_⟩
      split at h
      · cases h
      · rename_i canonicalRoot hroot
        split at h
        · cases h
        · rename_i resolved hresolved
          split_ifs at h with hin
          obtain rfl := Except.ok.inj h
          exact ⟨canonicalRoot, hroot, hresolved, hin⟩
  · intro ⟨hup, canonicalRoot, hroot, hresolved, hin⟩
    dsimp only
    rw [if_neg hup, hroot]
    dsimp only
    rw [hresolved]
    exact if_pos hin

/-- where the last name of a candidate without a canonical path leads -/
theorem reached_tail {p : Path} {canonParent : Location} {tail : String}
    (hparent : canonicalize fs p = some canonParent) (htail : IsName tail) {l : Location}
    (h : reached fs (canonParent ++ [tail]) = some l) :
    l = canonParent ++ [tail] ∨ ∃ target, fs.node (canonParent ++ [tail]) = some (.link target) ∧
      leadsTo fs.toTree true fs.maxLinks canonParent target = some l := by
  by_cases hdir : fs.node canonParent = some .dir
  · rw [reached, walk_entry fs.maxLinks hdir htail] at h
    split at h
    · rename_i target ht
      exact Or.inr ⟨target, ht, h⟩
    · exact Or.inl (Option.some.inj h).symm
  · rw [reached, walk_below_file fs.maxLinks (canonicalize_placed hparent) hdir htail] at h
    cases h

/-- **What the guard accepts stays inside the root, but for a last name that leads out of it.** -/
theorem safePath_contained (fs : FileSystem) (root candidate : Path) :
    Contained fs root candidate ↔ ¬ LeadsOut fs root candidate := by
  constructor
  · intro h hout
    obtain ⟨hup, hnone, canonicalRoot, canonParent, tail, target, l, hroot, htail, hparent, hin, hlink,
      hlead, hl⟩ := hout
    have hok : safePath fs root candidate = .ok (canonParent ++ [tail]) :=
      safePath_ok.mpr ⟨hup, canonicalRoot, hroot, canonicalCandidate_ok.mpr
        (Or.inr ⟨hnone, canonParent, tail, htail, hparent, rfl⟩), hin⟩
    have hdir : fs.node canonParent = some .dir := by
      refine fs.parent canonParent tail ?_
      rw [hlink]
      exact Option.some_ne_none _
    have hreached : reached fs (canonParent ++ [tail]) = some l := by
      rw [reached, walk_entry fs.maxLinks hdir (fileName_isName htail), hlink]
      exact hlead
    obtain ⟨r, hr, hinside⟩ := h _ hok l hreached
    obtain rfl := Option.some.inj (hroot.symm.trans hr)
    exact hl hinside
  · intro h p hok l hreached
    obtain ⟨hup, canonicalRoot, hroot, hcandidate, hin⟩ := safePath_ok.mp hok
    refine ⟨canonicalRoot, hroot, ?_⟩
    obtain hp | ⟨hnone, canonParent, tail, htail, hparent, rfl⟩ := canonicalCandidate_ok.mp hcandidate
    · -- a canonical path has no link left
      rw [reached_canonical hp] at hreached
      rwa [← Option.some.inj hreached]
    · obtain rfl | ⟨target, hlink, hlead⟩ :=
        reached_tail hparent (fileName_isName htail) hreached
      · exact hin
      · by_contra hl
        exact h ⟨hup, hnone, canonicalRoot, canonParent, tail, target, l, hroot, htail, hparent, hin,
          hlink, hlead, hl⟩

end

/-! ## links out of the root -/

/-- in `/root`, a link to a file that is not there and one to a file that is -/
def sample : FileSystem where
  toTree := Tree.ofTable [(["root"], .dir), (["outside"], .dir), (["outside", "secret"], .file),
    (["root", "new"], .link ⟨true, ["outside", "new"]⟩),
    (["root", "old"], .link ⟨true, ["outside", "secret"]⟩)] (by decide +kernel)
  cwd := ["root"]
  cwd_dir := by decide +kernel
  maxLinks := 40
  refuses _ := false

/-- the link to the file is followed, and rejected; with a slash behind it, it is accepted -/
example : safePath sample ⟨true, ["root"]⟩ ⟨false, ["old"]⟩
      = .error (.outside ⟨false, ["old"]⟩ ["outside", "secret"] ["root"]) ∧
    safePath sample ⟨true, ["root"]⟩ ⟨false, ["old", ""]⟩ = .ok ["root", "old"] ∧
    reached sample ["root", "old"] = some ["outside", "secret"] := by
  decide +kernel

/-- **A dangling link out of the root is accepted**: to create the answer creates its target. -/
theorem dangling_link_escapes :
    safePath sample ⟨true, ["root"]⟩ ⟨false, ["new"]⟩ = .ok ["root", "new"] ∧
    reached sample ["root", "new"] = some ["outside", "new"] ∧
    ¬ Contained sample ⟨true, ["root"]⟩ ⟨false, ["new"]⟩ := by
  have hok : safePath sample ⟨true, ["root"]⟩ ⟨false, ["new"]⟩ = .ok ["root", "new"] := by
    decide +kernel
  have hreached : reached sample ["root", "new"] = some ["outside", "new"] := by decide +kernel
  refine ⟨hok, hreached, fun h => ?_⟩
  obtain ⟨canonicalRoot, hroot, hinside⟩ := h _ hok _ hreached
  have hcanonical : canonicalize sample ⟨true, ["root"]⟩ = some ["root"] := by decide +kernel
  obtain rfl := Option.some.inj (hcanonical.symm.trans hroot)
  exact absurd hinside (by decide)

end Moagan.FsLayout
