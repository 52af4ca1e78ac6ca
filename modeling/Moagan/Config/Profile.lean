import Mathlib.Data.List.Destutter
import Mathlib.Data.String.Basic
import Moagan.Lib.Lineage
import Moagan.Lib.SortedMap

/-!
# Profiles and what they extend (`src/config/profile.rs`, `src/config/mod.rs`)

* `Profile.mergeWith`        a profile over its parent
* `Disk`, `locate`, `readProfile`   where a profile is read
* `loadWithHistory`          the parents are loaded before the profile, with the names so far
* `Config.applyProfile`      a profile over the configuration
* `load_spec`                a profile is loaded iff its parents end, and else its error says why
* `profile_effective`        what is set in a run is what the nearest profile of the chain sets

`F` are the `f32` values; a `HashMap` is the map of its entries.
-/

namespace Moagan.Profiles

open Lineage

section
variable {F : Type}

/-! ## profiles -/

structure Profile (F : Type) where
  «extends» : Option String
  gateForbiddenTechs : List String
  gateMinLength : Option ℕ
  gateMaxLength : Option ℕ
  temperatureOverrides : SortedMap String F
  judgeQuorumOverrides : SortedMap String ℕ

/-- `sort` and `dedup` -/
def sortDedup (techs : List String) : List String :=
  (techs.mergeSort (· ≤ ·)).destutter (· ≠ ·)

/-- `HashMap::extend` -/
def extend {V : Type} (base upper : SortedMap String V) : SortedMap String V :=
  upper.entries.foldl (fun m e => m.insert e.1 e.2) base

def Profile.mergeWith (p parent : Profile F) : Profile F where
  «extends» := p.extends
  gateForbiddenTechs := sortDedup (parent.gateForbiddenTechs ++ p.gateForbiddenTechs)
  gateMinLength := p.gateMinLength.or parent.gateMinLength
  gateMaxLength := p.gateMaxLength.or parent.gateMaxLength
  temperatureOverrides := extend parent.temperatureOverrides p.temperatureOverrides
  judgeQuorumOverrides := extend parent.judgeQuorumOverrides p.judgeQuorumOverrides

def Profile.isEmpty (p : Profile F) : Bool :=
  p.extends.isNone && p.gateForbiddenTechs.isEmpty && p.gateMinLength.isNone
    && p.gateMaxLength.isNone && p.temperatureOverrides.entries.isEmpty
    && p.judgeQuorumOverrides.entries.isEmpty

/-! ## loading -/

/-- `$MOAGAN_HOME/profiles` and `$HOME/.config/moagan/profiles` -/
inductive Place where
  | moaganHome
  | home
  deriving DecidableEq, Repr

inductive ProfileError where
  | circular (chain : List String) (name : String)
  | notFound (name : String)
  | read (place : Place) (filename : String)
  | parse (place : Place) (filename : String)
  deriving DecidableEq, Repr

/-- the text of an `Error::InvalidArgs` -/
def ProfileError.message : ProfileError → Option String
  | .circular chain name =>
    some ("circular profile extends chain detected: " ++ " -> ".intercalate chain ++ " -> " ++ name)
  | .notFound name => some ("profile '" ++ name ++ "' not found in MOAGAN_HOME or XDG paths")
  | .read _ _ | .parse _ _ => none

/-- what is at a path: a text, or something that cannot be read -/
abbrev Dir := String → Option (Option String)

/-- the directories, where their variables are set, and `toml::from_str` -/
structure Disk (F : Type) where
  moaganHome : Option Dir
  home : Option Dir
  fromStr : String → Option (Profile F)

variable (d : Disk F)

def locate (name : String) : Option (Place × Option String) :=
  ((d.moaganHome.bind fun dir => dir (name ++ ".toml")).map fun f => (Place.moaganHome, f)).or
    ((d.home.bind fun dir => dir (name ++ ".toml")).map fun f => (Place.home, f))

def readProfile (name : String) : Except ProfileError (Profile F) :=
  match locate d name with
  | none => .error (.notFound name)
  | some (place, none) => .error (.read place (name ++ ".toml"))
  | some (place, some text) =>
    match d.fromStr text with
    | none => .error (.parse place (name ++ ".toml"))
    | some p => .ok p

/-- `chain` is as the caller left it when the call is over -/
def loadWithHistory : ℕ → List String → String → Option (Except ProfileError (Profile F))
  | 0, _, _ => none
  | n + 1, chain, name =>
    if chain.any (· = name) then some (.error (.circular chain name))
    else
      match readProfile d name with
      | .error err => some (.error err)
      | .ok parsed =>
        match parsed.extends with
        | none => some (.ok parsed)
        | some parentName =>
          (loadWithHistory n (chain ++ [name]) parentName).map fun loaded =>
            match loaded with
            | .error err => .error err
            | .ok parent => .ok (parsed.mergeWith parent)

def load (fuel : ℕ) (name : String) : Option (Except ProfileError (Profile F)) :=
  loadWithHistory d fuel [] name

/-! ## the configuration -/

/-- the fields that a profile sets -/
structure Config (F : Type) where
  gateForbiddenTechs : List String
  gateMinLength : ℕ
  gateMaxLength : ℕ
  profileTemperatureOverrides : SortedMap String F
  profileJudgeQuorumOverrides : SortedMap String ℕ

def Config.applyProfile (c : Config F) (p : Profile F) : Config F :=
  if p.isEmpty then c
  else
    { gateForbiddenTechs := sortDedup (c.gateForbiddenTechs ++ p.gateForbiddenTechs)
      gateMinLength := p.gateMinLength.getD c.gateMinLength
      gateMaxLength := p.gateMaxLength.getD c.gateMaxLength
      profileTemperatureOverrides := p.temperatureOverrides
      profileJudgeQuorumOverrides := p.judgeQuorumOverrides }

/-! ## a chain of profiles -/

/-- every profile over its parent; the last one is as it was read -/
def merged : Profile F → List (Profile F) → Profile F
  | p, [] => p
  | p, q :: qs => p.mergeWith (merged q qs)

/-- what the walk over the parents comes to, behind the names in `seen` -/
def resultOf (seen : List String) :
    List (String × Profile F) → End String ProfileError → Except ProfileError (Profile F)
  | x :: xs, .root => .ok (merged x.2 (xs.map Prod.snd))
  | xs, .cycle name => .error (.circular (seen ++ xs.map Prod.fst) name)
  | _, .failed _ err => .error err
  | [], .root => .error (.notFound "")

theorem loadWithHistory_walk (n : ℕ) (chain : List String) (name : String) :
    loadWithHistory d n chain name
      = (walk (readProfile d) (·.extends) n chain name).map fun r => resultOf chain r.1 r.2 := by
  induction n generalizing chain name with
  | zero => rfl
  | succ n ih =>
    rw [loadWithHistory, walk]
    by_cases hs : name ∈ chain
    · rw [if_pos (by simpa using hs), if_pos hs]
      simp [resultOf]
    · rw [if_neg (by simpa using hs), if_neg hs]
      cases readProfile d name with
      | error err => rfl
      | ok p =>
        dsimp only
        cases hp : p.extends with
        | none => rfl
        | some parentName =>
          dsimp only
          rw [ih, Option.map_map, Option.map_map]
          cases hw : walk (readProfile d) (·.extends) n (chain ++ [name]) parentName with
          | none => rfl
          | some r =>
            -- a walk that ends at a root has read a profile
            have hline := walk_line hw
            obtain ⟨l, e⟩ := r
            simp only [Option.map_some, Function.comp]
            cases e with
            | root =>
              cases l with
              | nil => cases hline
              | cons x xs => rfl
            | cycle k => simp [resultOf]
            | failed k err => simp [resultOf]

/-- **How a profile is loaded.**  The names on the way are distinct, and the call returns: with the
profiles of the chain over each other where the chain ends, and else with the names up to the one
that comes back, or the error of the one that cannot be read. -/
theorem load_spec (names : List String)
    (hnames : ∀ k p, readProfile d k = .ok p → k ∈ names) (name : String) :
    ∃ l e, Line (readProfile d) (·.extends) [] name l e ∧ (l.map Prod.fst).Nodup ∧
      load d (names.length + 1) name = some (resultOf [] l e) := by
  have hsome : (walk (readProfile d) (fun p : Profile F => p.extends) (names.length + 1) []
      name).isSome = true := walk_isSome hnames (Nat.lt_succ_of_le (List.length_filter_le _ _))
  obtain ⟨r, hr⟩ := Option.isSome_iff_exists.mp hsome
  have hline := walk_line hr
  refine ⟨r.1, r.2, hline, hline.nodup List.nodup_nil, ?_⟩
  rw [load, loadWithHistory_walk, hr]
  rfl

/-! ## what a chain sets -/

theorem sortDedup_eq (techs : List String) :
    sortDedup techs = (techs.mergeSort (· ≤ ·)).dedup := by
  have hsorted : (techs.mergeSort (· ≤ ·)).Pairwise (· ≤ ·) := by
    have h := @List.pairwise_mergeSort String (fun a b => decide (a ≤ b))
      (fun a b c hab hbc => by simpa using le_trans (by simpa using hab) (by simpa using hbc))
      (fun a b => by simpa using le_total a b) techs
    simpa using h
  exact hsorted.destutter_eq_dedup

theorem mem_sortDedup {t : String} {techs : List String} : t ∈ sortDedup techs ↔ t ∈ techs := by
  rw [sortDedup_eq, List.mem_dedup, List.mem_mergeSort]

theorem get?_extend {V : Type} (base upper : SortedMap String V) (k : String) :
    (extend base upper).get? k = (upper.get? k).or (base.get? k) := by
  unfold extend
  rw [SortedMap.foldl_entries (fun m k => m.get? k) (fun m e => m.insert e.1 e.2)
    (fun _ v => some v) (fun m k v q => SortedMap.get?_insert m k q v) upper base k]
  cases upper.get? k <;> rfl

section
variable {V : Type} {f : Profile F → Option V}

/-- a field that a profile takes from its parent where it does not set it itself -/
theorem merged_nearest (hf : ∀ p parent, f (p.mergeWith parent) = (f p).or (f parent))
    (p : Profile F) (ps : List (Profile F)) : f (merged p ps) = (p :: ps).findSome? f := by
  induction ps generalizing p with
  | nil =>
    rw [merged, List.findSome?_cons]
    cases f p <;> rfl
  | cons q qs ih =>
    rw [merged, hf, ih, List.findSome?_cons (a := p)]
    cases f p <;> rfl

end

theorem mem_merged_forbidden (t : String) (p : Profile F) (ps : List (Profile F)) :
    t ∈ (merged p ps).gateForbiddenTechs ↔ ∃ q ∈ p :: ps, t ∈ q.gateForbiddenTechs := by
  induction ps generalizing p with
  | nil => simp [merged]
  | cons q qs ih =>
    show t ∈ sortDedup _ ↔ _
    rw [mem_sortDedup, List.mem_append, ih, List.exists_mem_cons_iff (a := p)]
    exact or_comm

theorem isEmpty_unset {p : Profile F} (h : p.isEmpty = true) :
    p.gateForbiddenTechs = [] ∧ p.gateMinLength = none ∧ p.gateMaxLength = none := by
  simp only [Profile.isEmpty, Bool.and_eq_true, List.isEmpty_iff, Option.isNone_iff_eq_none] at h
  exact ⟨h.1.1.1.1.2, h.1.1.1.2, h.1.1.2⟩

/-- what a chain of profiles, the nearest first, sets over a configuration -/
structure Effective (c : Config F) (ps : List (Profile F)) (out : Config F) : Prop where
  minLength : out.gateMinLength = (ps.findSome? (·.gateMinLength)).getD c.gateMinLength
  maxLength : out.gateMaxLength = (ps.findSome? (·.gateMaxLength)).getD c.gateMaxLength
  forbidden : ∀ t, t ∈ out.gateForbiddenTechs ↔
    t ∈ c.gateForbiddenTechs ∨ ∃ q ∈ ps, t ∈ q.gateForbiddenTechs

theorem applyProfile_effective (c : Config F) (p : Profile F) (ps : List (Profile F)) :
    Effective c (p :: ps) (c.applyProfile (merged p ps)) := by
  have hmin := merged_nearest (f := (·.gateMinLength)) (fun _ _ => rfl) p ps
  have hmax := merged_nearest (f := (·.gateMaxLength)) (fun _ _ => rfl) p ps
  have hforb := fun t => mem_merged_forbidden t p ps
  unfold Config.applyProfile
  by_cases he : (merged p ps).isEmpty = true
  · rw [if_pos he]
    obtain ⟨h1, h2, h3⟩ := isEmpty_unset he
    constructor
    · rw [← hmin, h2]
      rfl
    · rw [← hmax, h3]
      rfl
    · intro t
      rw [← hforb, h1]
      simp
  · rw [if_neg he]
    constructor
    · rw [← hmin]
    · rw [← hmax]
    · intro t
      show t ∈ sortDedup _ ↔ _
      rw [mem_sortDedup, List.mem_append, hforb]

/-- **What a loaded profile sets**: each setting is that of the nearest profile of its chain that has
one, and what is forbidden is what the configuration or any profile of the chain forbids; the
overrides are replaced as a whole, and without repetition, unless nothing is set at all. -/
theorem profile_effective (fuel : ℕ) (name : String) (p : Profile F)
    (h : load d fuel name = some (.ok p)) (c : Config F) :
    ∃ l, Line (readProfile d) (·.extends) [] name l .root ∧
      Effective c (l.map Prod.snd) (c.applyProfile p) ∧
      (p.isEmpty = false →
        (c.applyProfile p).gateForbiddenTechs.Nodup ∧
        (∀ role, (c.applyProfile p).profileTemperatureOverrides.get? role
          = (l.map Prod.snd).findSome? fun q => q.temperatureOverrides.get? role) ∧
        ∀ mode, (c.applyProfile p).profileJudgeQuorumOverrides.get? mode
          = (l.map Prod.snd).findSome? fun q => q.judgeQuorumOverrides.get? mode) := by
  rw [load, loadWithHistory_walk] at h
  obtain ⟨⟨l, e⟩, hw, hres⟩ := Option.map_eq_some_iff.mp h
  have hline := walk_line hw
  dsimp only at hres hline
  -- a chain whose walk gives a profile ends at a root
  cases e with
  | cycle k => cases l <;> cases hres
  | failed k err => cases l <;> cases hres
  | root =>
    cases l with
    | nil => cases hline
    | cons x xs =>
      rw [resultOf, Except.ok.injEq] at hres
      subst hres
      refine ⟨x :: xs, hline, ?_, ?_⟩
      · rw [List.map_cons]
        exact applyProfile_effective c x.2 (xs.map Prod.snd)
      · intro he
        unfold Config.applyProfile
        rw [if_neg (by rw [he]; exact Bool.false_ne_true)]
        refine ⟨?_, ?_, ?_⟩
        · show (sortDedup _).Nodup
          rw [sortDedup_eq]
          exact List.nodup_dedup _
        · intro role
          exact merged_nearest (f := fun q => q.temperatureOverrides.get? role)
            (fun p parent => get?_extend _ _ _) x.2 (xs.map Prod.snd)
        · intro mode
          exact merged_nearest (f := fun q => q.judgeQuorumOverrides.get? mode)
            (fun p parent => get?_extend _ _ _) x.2 (xs.map Prod.snd)

end

/-! ## a profile over its parent -/

def strictProfile : Profile ℕ :=
  ⟨some "base", ["sql", "cobol"], some 200, none, SortedMap.empty, SortedMap.empty⟩

def baseProfile : Profile ℕ :=
  ⟨none, ["cobol"], some 100, some 900, SortedMap.empty.insert "judge" 3, SortedMap.empty⟩

def sampleDisk : Disk ℕ where
  moaganHome := some fun file =>
    if file = "strict.toml" then some (some "strict")
    else if file = "base.toml" then some (some "base") else none
  home := none
  fromStr := fun text => if text = "strict" then some strictProfile else some baseProfile

def sampleConfig : Config ℕ := ⟨["php"], 0, 5000, SortedMap.empty, SortedMap.empty⟩

theorem load_spec_strict : ∃ l e, Line (readProfile sampleDisk) (·.extends) [] "strict" l e ∧
    (l.map Prod.fst).Nodup ∧ load sampleDisk 3 "strict" = some (resultOf [] l e) := by
  refine load_spec sampleDisk ["strict", "base"] ?_ "strict"
  intro k p h
  unfold readProfile locate sampleDisk at h
  by_cases h1 : k ++ ".toml" = "strict.toml"
  · have hk : k ++ ".toml" = "strict" ++ ".toml" := h1
    rw [(String.append_left_inj _).mp hk]
    exact List.mem_cons_self
  · by_cases h2 : k ++ ".toml" = "base.toml"
    · have hk : k ++ ".toml" = "base" ++ ".toml" := h2
      rw [(String.append_left_inj _).mp hk]
      exact List.mem_cons_of_mem _ List.mem_cons_self
    · simp [h1, h2] at h

theorem profile_effective_strict : ∃ p l,
    load sampleDisk 3 "strict" = some (.ok p) ∧
      Effective sampleConfig (l : List (Profile ℕ)) (sampleConfig.applyProfile p) := by
  have h : load sampleDisk 3 "strict" = some (.ok (strictProfile.mergeWith baseProfile)) := by rfl
  obtain ⟨l, -, heff, -⟩ := profile_effective sampleDisk 3 "strict" _ h sampleConfig
  exact ⟨_, l.map Prod.snd, h, heff⟩

end Moagan.Profiles
