import TinySweeper.App.LaneFinish

/-!
# The proposal of a review

What a review publishes: its lanes, and what it could not see. A proposal is
complete when nothing it set out to review is left open.
-/

namespace TinySweeper.App

open Text Evidence Findings Lanes

def PROPOSAL_VERSION : ℕ := 5

structure Proposal (κ : Type) where
  version : ℕ
  headSha : Text
  lanes : List (LaneProposal κ)
  /-- Changed paths that remain unreviewed. -/
  unreviewed : List Text
  /-- Why no lane ran at all, when none did. -/
  skipped : Option Text

namespace Proposal

variable {κ : Type} (p : Proposal κ)

/-- Whether any lane blocks the merge. -/
def blocked : Bool := p.lanes.any fun l => l.conclusion.blocks

/-- Whether every lane got an answer for everything it asked about. -/
def answered : Bool := p.lanes.all fun l => l.unanswered.isEmpty

/-- Whether this review saw everything it claims to have reviewed. -/
def complete : Bool :=
  p.version = PROPOSAL_VERSION && p.skipped.isNone && p.unreviewed.isEmpty && p.answered

end Proposal

section Answered

variable {κ : Type} [Confidence κ] (judge : Judgement κ) (highEntropy : Text → Bool)
variable (config : Config κ) (diffs : List FileDiff) (continuity : Continuity κ)
variable (scanFindings : List Scan.Finding) (outcomes : List (LaneId × LaneOutcome κ))

/-- Publishing hides no open question: a lane that is replaced hands its own over. -/
theorem answered_outcomes
    (hanswered : ∀ l ∈ proposalLanes judge highEntropy config diffs continuity scanFindings outcomes,
      l.unanswered = []) {entry : LaneId × LaneOutcome κ} (hentry : entry ∈ outcomes) :
    entry.2.unanswered = [] := by
  have hconcluded := forall_mem_settled (P := fun l : LaneProposal κ => l.unanswered = [])
    (fun _ => Iff.rfl)
    (settled_proposalLanes judge highEntropy config diffs continuity scanFindings outcomes)
    |>.mp hanswered
  rw [concluded_eq] at hconcluded
  by_cases hreplaced :
      replaced judge config diffs continuity scanFindings outcomes entry.1 = true
  · have howner : entry.1 ∈ [LaneId.security, .commits] :=
      (replaced_iff judge config diffs continuity scanFindings outcomes |>.mp hreplaced).1
    have hfallback : fallbackOf judge config scanFindings outcomes entry.1 ∈
        fallbackLanes judge config diffs continuity scanFindings outcomes :=
      List.mem_map_of_mem (List.mem_filter.mpr ⟨howner, hreplaced⟩)
    have hall := hconcluded _ (List.mem_append_right _ hfallback)
    simp only [fallbackOf, fallbackLane, List.flatMap_eq_nil_iff, List.mem_filter,
      decide_eq_true_eq] at hall
    exact hall entry ⟨hentry, rfl⟩
  · have hkept : entry ∈ keptOutcomes judge config diffs continuity scanFindings outcomes :=
      List.mem_filter.mpr ⟨hentry, by simpa using hreplaced⟩
    exact hconcluded (laneProposal judge highEntropy config diffs continuity entry.1 entry.2)
      (List.mem_append_left _ (List.mem_map_of_mem hkept))

end Answered

end TinySweeper.App
