import TinySweeper.ReviewJob.Shape

/-!
# What completion does

`finish`, `finish_with_yield` and `finish_deadline` take different routes to the same
three ends: refused, yielded to a superseding delivery, or completed. `FinishStep`
states the ends once for all three.
-/

namespace TinySweeper.ReviewJob

open FirstMatch

variable {sha256 : String → List UInt8} {e : Event} {s s' : ReviewSchedulerState}
variable {budget : IncrementalHeadBudget}

theorem settle_isFor (outcome : TerminalOutcome) (repo : String) (number : ℕ)
    (budget : IncrementalHeadBudget) :
    (budget.settle outcome).isFor repo number = budget.isFor repo number := by
  unfold IncrementalHeadBudget.settle
  split_ifs <;> rfl

theorem settle_of_terminal {result : TerminalOutcome} (h : budget.existingTerminal = some result)
    (outcome : TerminalOutcome) : budget.settle outcome = budget := by
  simp [IncrementalHeadBudget.settle, h]

theorem existingTerminal_eq_none : budget.existingTerminal = none ↔
      budget.terminalOutcome = none ∧ budget.deadlineHit = false := by
  unfold IncrementalHeadBudget.existingTerminal
  cases budget.terminalOutcome <;> cases budget.deadlineHit <;> simp

theorem existingTerminal_ne_none : budget.existingTerminal ≠ none ↔
      budget.terminalOutcome.isSome = true ∨ budget.deadlineHit = true := by
  rw [ne_eq, existingTerminal_eq_none, not_and_or, Option.isSome_iff_ne_none, Bool.not_eq_false]

/-- An open head takes the outcome as its result if the outcome settles heads. -/
theorem existingTerminal_settle (h : budget.existingTerminal = none) (outcome : TerminalOutcome) :
    (budget.settle outcome).existingTerminal =
      if outcome.settlesHead then some outcome else none := by
  obtain ⟨hopen, hdeadline⟩ := existingTerminal_eq_none.mp h
  unfold IncrementalHeadBudget.settle
  rw [h]
  cases outcome <;>
    simp [IncrementalHeadBudget.existingTerminal, TerminalOutcome.settlesHead, hopen, hdeadline]

theorem settle_settle (outcome : TerminalOutcome) (budget : IncrementalHeadBudget) :
    (budget.settle outcome).settle outcome = budget.settle outcome := by
  cases hterminal : budget.existingTerminal with
  | some result => rw [settle_of_terminal hterminal, settle_of_terminal hterminal]
  | none =>
    have hresult := existingTerminal_settle hterminal outcome
    cases hsettles : outcome.settlesHead with
    | true =>
      rw [hsettles, if_pos rfl] at hresult
      exact settle_of_terminal hresult outcome
    | false =>
      have hsame : budget.settle outcome = budget := by
        cases outcome <;> simp [TerminalOutcome.settlesHead] at hsettles
        simp [IncrementalHeadBudget.settle, TerminalOutcome.settlesHead]
      rw [hsame, hsame]

/-- The recorded result is the same whether or not the head was settled first. -/
theorem settle_existingTerminal (outcome : TerminalOutcome) (budget : IncrementalHeadBudget) :
    (budget.settle outcome).existingTerminal.getD outcome =
      budget.existingTerminal.getD outcome := by
  cases hterminal : budget.existingTerminal with
  | some result => rw [settle_of_terminal hterminal, hterminal]
  | none =>
    rw [existingTerminal_settle hterminal]
    split_ifs <;> rfl

theorem budgetOf_settleHead (record : ScheduledReview) (outcome : TerminalOutcome)
    (hmode : record.request.mode = .incremental) :
    (s.settleHead record outcome).budgetOf record.request.repo record.request.number =
      (s.budgetOf record.request.repo record.request.number).map
        (IncrementalHeadBudget.settle outcome) := by
  simp only [ReviewSchedulerState.settleHead, hmode, if_true]
  exact find?_updateFirst_self (settle_isFor outcome _ _) s.incrementalHeads

theorem existingTerminal_settleHead (record : ScheduledReview) (outcome : TerminalOutcome) :
    ((s.settleHead record outcome).existingTerminal record).getD outcome =
      (s.existingTerminal record).getD outcome := by
  unfold ReviewSchedulerState.existingTerminal
  cases hmode : record.request.mode with
  | full => rfl
  | incremental =>
    rw [if_pos rfl, if_pos rfl, budgetOf_settleHead record outcome hmode]
    cases s.budgetOf record.request.repo record.request.number with
    | none => rfl
    | some budget => exact settle_existingTerminal outcome budget

theorem settleHead_settleHead (record : ScheduledReview) (outcome : TerminalOutcome) :
    (s.settleHead record outcome).settleHead record outcome = s.settleHead record outcome := by
  unfold ReviewSchedulerState.settleHead
  split_ifs
  · simp only [ReviewSchedulerState.updateBudget]
    rw [updateFirst_idem (settle_isFor outcome _ _) (settle_settle outcome)]
  · rfl

theorem completeRecord_settleHead (p : ScheduledReview → Bool) (record : ScheduledReview)
    (outcome recorded : TerminalOutcome) (completedAtMs : ℤ) :
    (s.settleHead record outcome).completeRecord p record recorded completedAtMs =
      (s.completeRecord p record recorded completedAtMs).settleHead record outcome := by
  unfold ReviewSchedulerState.settleHead
  split_ifs <;> rfl

/-- The result a completed record leaves behind: the head's own, if it already has one. -/
def recordedOutcome (s : ReviewSchedulerState) (record : ScheduledReview)
    (outcome : TerminalOutcome) : TerminalOutcome :=
  (s.existingTerminal record).getD outcome

/-- The head whose check keeps its known result when a published review yields. -/
def preservedHead (record : ScheduledReview) (outcome : TerminalOutcome) : Option String :=
  if outcome = .published then record.request.headSha else none

inductive FinishStep (s : ReviewSchedulerState) (owned : OwnedReview) (outcome : TerminalOutcome)
    (nowMs : ℤ) : ReviewSchedulerState × Bool → Prop
  | refused : FinishStep s owned outcome nowMs (s, false)
  | yielded {record} (hfind : s.unfinished.find? (ownsUnexpired owned nowMs) = some record)
      (hyield : record.yieldRequested = true) :
      FinishStep s owned outcome nowMs
        ({ (s.settleHead record outcome).updateOwned owned nowMs
              (fun record => (record.yieldTo nowMs (preservedHead record outcome)).1) with
            retiredChecks :=
              s.retiredChecks ++ (record.yieldTo nowMs (preservedHead record outcome)).2 }, true)
  | completed {record p} {completedAtMs : ℤ}
      (hfind : s.unfinished.find? (ownsUnexpired owned nowMs) = some record)
      (hfirst : s.unfinished.find? p = some record) (hyield : record.yieldRequested = false) :
      FinishStep s owned outcome nowMs
        ((s.completeRecord p record (recordedOutcome s record outcome) completedAtMs).settleHead
          record outcome, true)

theorem finishRecord_step {owned : OwnedReview} {outcome : TerminalOutcome}
    {nowMs completedAtMs : ℤ}
    (hfree : ∀ record ∈ s.unfinished, ownsUnexpired owned nowMs record = true →
      (!record.yieldRequested) = true) :
    FinishStep s owned outcome nowMs (s.finishRecord owned outcome nowMs completedAtMs) := by
  unfold ReviewSchedulerState.finishRecord
  dsimp only
  split
  · exact .refused
  · rename_i record hfind
    have hcurrent := List.find?_some hfind
    simp only [Bool.and_eq_true, Bool.not_eq_true'] at hcurrent
    exact .completed (find?_of_find?_and hfree hfind) hfind hcurrent.2

theorem finishWithYield_step (s : ReviewSchedulerState) (owned : OwnedReview)
    (outcome : TerminalOutcome) (nowMs : ℤ) :
    FinishStep s owned outcome nowMs (s.finishWithYield owned outcome nowMs) := by
  unfold ReviewSchedulerState.finishWithYield
  cases hfind : s.unfinished.find? (ownsUnexpired owned nowMs) with
  | none => exact .refused
  | some record =>
    dsimp only
    by_cases hbudget : record.request.mode = .incremental ∧
        (s.budgetOf record.request.repo record.request.number).isNone = true
    · rw [if_pos hbudget]
      exact .refused
    rw [if_neg hbudget]
    cases hyield : record.yieldRequested with
    | true =>
      have hstep : FinishStep s owned outcome nowMs _ := .yielded hfind hyield
      rw [if_pos rfl, s.settleHead_eq]
      rw [s.settleHead_eq] at hstep
      exact hstep
    | false =>
      have hcurrent := find?_and hfind (q := fun record => !record.yieldRequested) (by simp [hyield])
      rw [if_neg Bool.false_ne_true]
      split_ifs with hdeadline
      · have hsame : (s.settleHead record outcome).finishRecord owned outcome nowMs nowMs =
            ((s.completeRecord (fun record => ownsUnexpired owned nowMs record &&
              !record.yieldRequested) record (recordedOutcome s record outcome) nowMs).settleHead
              record outcome, true) := by
          unfold ReviewSchedulerState.finishRecord
          simp only [s.settleHead_unfinished, hcurrent]
          rw [existingTerminal_settleHead, completeRecord_settleHead, settleHead_settleHead]
          rfl
        rw [hsame]
        exact .completed hfind hcurrent hyield
      · rw [not_not] at hdeadline
        subst hdeadline
        rw [completeRecord_settleHead]
        exact .completed hfind hfind hyield

theorem finish_step (s : ReviewSchedulerState) (owned : OwnedReview) (outcome : TerminalOutcome)
    (nowMs completedAtMs : ℤ) :
    FinishStep s owned outcome nowMs (s.finish owned outcome nowMs completedAtMs) := by
  unfold ReviewSchedulerState.finish
  split_ifs with hany
  · exact finishWithYield_step s owned outcome nowMs
  · apply finishRecord_step
    intro record hmem howns
    by_contra hyield
    refine hany (List.any_eq_true.mpr ⟨record, hmem, ?_⟩)
    simpa [howns] using hyield

/-- The handle and the outcome of a completing operation. -/
def Operation.completion : Operation → Option (OwnedReview × TerminalOutcome)
  | .finish owned outcome _ | .finishWithYield owned outcome => some (owned, outcome)
  | .finishDeadline owned => some (owned, .deadline)
  | _ => none

theorem perform_finishStep {owned : OwnedReview} {outcome : TerminalOutcome}
    (hop : e.operation.completion = some (owned, outcome)) :
    ∃ accepted, (perform sha256 s e).2 = .accepted accepted ∧
      FinishStep s owned outcome e.nowMs ((perform sha256 s e).1, accepted) := by
  unfold perform
  cases hcase : e.operation with
  | finish owned' outcome' completedAtMs =>
    simp only [hcase, Operation.completion, Option.some.injEq, Prod.mk.injEq] at hop
    obtain ⟨rfl, rfl⟩ := hop
    exact ⟨_, rfl, finish_step s owned' outcome' e.nowMs completedAtMs⟩
  | finishWithYield owned' outcome' =>
    simp only [hcase, Operation.completion, Option.some.injEq, Prod.mk.injEq] at hop
    obtain ⟨rfl, rfl⟩ := hop
    exact ⟨_, rfl, finishWithYield_step s owned' outcome' e.nowMs⟩
  | finishDeadline owned' =>
    simp only [hcase, Operation.completion, Option.some.injEq, Prod.mk.injEq] at hop
    obtain ⟨rfl, rfl⟩ := hop
    exact ⟨_, rfl, finishWithYield_step s owned' .deadline e.nowMs⟩
  | _ => simp [hcase, Operation.completion] at hop

theorem Operation.completion_of_finishes {operation : Operation}
    (h : operation.finishes = true) :
    ∃ owned outcome, operation.completion = some (owned, outcome) := by
  cases operation with
  | finish owned outcome => exact ⟨owned, outcome, rfl⟩
  | finishWithYield owned outcome => exact ⟨owned, outcome, rfl⟩
  | finishDeadline owned => exact ⟨owned, .deadline, rfl⟩
  | _ => simp [Operation.finishes] at h

end TinySweeper.ReviewJob
