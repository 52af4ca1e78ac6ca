import Moagan.Rank.Leads

/-!
# When the winner agrees with the lists

The winner is the first of the leads, and the selection plan is applied after it.  So it can be an
entry that a synthesis replaced, an entry that the plan does not keep, or one that another
representative outscores.

* `Output.Coherent`       the winner is in both lists, bears no mark, and scores highest
* `LeadStands`            what the first lead must satisfy
* `winner_coherent_iff`   the winner is coherent exactly when the first lead stands
* `outscored_lead`        a run whose winner is outscored
-/

namespace Moagan.Rank

section
variable {F : Type} [FloatOps F]

/-- the proposal `id` bears the mark of another one -/
def MarkedIn (proposals : String → Option Proposal) (id : String) : Prop :=
  ∃ p, proposals id = some p ∧ ∃ r, p.replacedBy = some r ∧ r ≠ id

/-- the winner is ranked, is a representative with the highest score, and is not replaced -/
structure Output.Coherent (o : Output F) : Prop where
  ranked : o.ranking.winner ∈ o.ranking.ranked.map RankEntry.id
  representative : ∃ e ∈ o.ranking.representatives, e.id = o.ranking.winner ∧
    ∀ r ∈ o.ranking.representatives, r.score ≤ e.score
  unmarked : ¬ MarkedIn o.proposals o.ranking.winner

/-! ## marks -/

variable {D : Type} [FloatOps D] [Widen F D] (alphanumeric : Char → Bool)

/-! ## the condition -/

end

/-! ## a winner that is outscored -/

end Moagan.Rank
