import TinySweeper.ReviewJob.PaidWork

/-!
# Reviewed heads are not paid for again

A published or declined result stands in the pull request's budget or, once the pull
request has moved on, in its head history until the tombstone lifetime is over.
-/

namespace TinySweeper.ReviewJob

open FirstMatch Runs

variable {sha256 : String → List UInt8} {e : Event} {s s' : ReviewSchedulerState}
variable {repo headSha : String} {number : ℕ} {expiry : ℤ}

/-- The results of a review that was carried out. -/
def TerminalOutcome.isReviewed (outcome : TerminalOutcome) : Bool :=
  outcome == .published || outcome == .declined

/-- The pull request's budget stands at this head with a reviewed result. -/
def BudgetReviewed (s : ReviewSchedulerState) (repo : String) (number : ℕ) (headSha : String) :
    Prop :=
  ∃ budget outcome, s.budgetOf repo number = some budget ∧ budget.headSha = headSha ∧
    budget.terminalOutcome = some outcome ∧ outcome.isReviewed = true

instance (s : ReviewSchedulerState) (repo : String) (number : ℕ) (headSha : String) :
    Decidable (BudgetReviewed s repo number headSha) :=
  decidable_of_iff ((s.budgetOf repo number).any (fun budget =>
    budget.headSha == headSha && budget.terminalOutcome.any TerminalOutcome.isReviewed) = true) (by
      simp [BudgetReviewed, Option.any_eq_true])

/-- A reviewed result of the head stands, in the budget or in history until `expiry`. -/
def Reviewed (s : ReviewSchedulerState) (repo : String) (number : ℕ) (headSha : String)
    (expiry : ℤ) : Prop :=
  BudgetReviewed s repo number headSha ∨
    ∃ entry ∈ s.headHistory, entry.repo = repo ∧ entry.number = number ∧
      entry.headSha = headSha ∧ entry.outcome.isReviewed = true ∧ expiry ≤ entry.expiresAtMs

theorem TerminalOutcome.not_failed {outcome : TerminalOutcome} (h : outcome.isReviewed = true) :
    outcome.failed = false := by
  cases outcome <;> simp_all [TerminalOutcome.isReviewed, TerminalOutcome.failed]

/-- An edit of budgets that keeps reviewed ones as they are. -/
theorem BudgetReviewed.of_updateFirst {p : IncrementalHeadBudget → Bool}
    {f : IncrementalHeadBudget → IncrementalHeadBudget}
    (h : BudgetReviewed s repo number headSha)
    (hf : ∀ budget : IncrementalHeadBudget,
      (f budget).isFor repo number = budget.isFor repo number)
    (hkeep : ∀ budget outcome, s.incrementalHeads.find? p = some budget →
      budget.terminalOutcome = some outcome → outcome.isReviewed = true → f budget = budget) :
    ∃ budget outcome, (updateFirst p f s.incrementalHeads).find?
        (fun budget => budget.isFor repo number) = some budget ∧ budget.headSha = headSha ∧
      budget.terminalOutcome = some outcome ∧ outcome.isReviewed = true := by
  obtain ⟨budget, outcome, hfind, hhead, houtcome, hreviewed⟩ := h
  refine ⟨budget, outcome, ?_, hhead, houtcome, hreviewed⟩
  rcases find?_updateFirst_cases (p := p) (q := fun budget => budget.isFor repo number) (f := f) hf
    s.incrementalHeads with hsame | ⟨found, hq, hp, hnew⟩
  · exact hsame.trans hfind
  · have heq : found = budget := Option.some.inj (hq.symm.trans hfind)
    subst heq
    rw [hnew, hkeep found outcome hp houtcome hreviewed]

theorem Reviewed.of_filter (h : Reviewed s repo number headSha expiry)
    {keep : HeadTerminalTombstone → Bool} (hkeep : ∀ entry : HeadTerminalTombstone,
      entry.outcome.isReviewed = true → expiry ≤ entry.expiresAtMs → keep entry = true) :
    Reviewed { s with headHistory := s.headHistory.filter keep } repo number headSha expiry := by
  rcases h with hbudget | ⟨entry, hmem, hrepo, hnumber, hhead, hreviewed, hlive⟩
  · exact .inl hbudget
  · exact .inr ⟨entry, List.mem_filter.mpr ⟨hmem, hkeep entry hreviewed hlive⟩, hrepo, hnumber,
      hhead, hreviewed, hlive⟩

theorem Reviewed.rearm (h : Reviewed s repo number headSha expiry) (request : ReviewRequest) :
    Reviewed (s.rearmFailedHead request.repo request.number) repo number headSha expiry := by
  rcases h with hbudget | ⟨entry, hmem, hrepo, hnumber, hhead, hreviewed, hlive⟩
  · refine .inl (hbudget.of_updateFirst (fun _ => rfl) fun budget outcome hp houtcome hyes => ?_)
    have hfailed := List.find?_some hp
    simp [IncrementalHeadBudget.failed, houtcome, TerminalOutcome.not_failed hyes] at hfailed
  · refine .inr ⟨entry, List.mem_filter.mpr ⟨hmem, ?_⟩, hrepo, hnumber, hhead, hreviewed, hlive⟩
    simp [TerminalOutcome.not_failed hreviewed]

/-- Moving on from a reviewed head leaves its result in history. -/
theorem Reviewed.moveBudget (h : Reviewed s repo number headSha expiry)
    {current : IncrementalHeadBudget} {repo' headSha' : String} {number' : ℕ} {nowMs : ℤ}
    (hcurrent : s.budgetOf repo' number' = some current)
    (hlate : expiry ≤ nowMs + reviewTombstoneTtlMs) :
    Reviewed (s.moveBudget current repo' number' headSha' nowMs) repo number headSha expiry := by
  have hhistory : ∀ entry ∈ s.headHistory,
      entry ∈ (s.moveBudget current repo' number' headSha' nowMs).headHistory := by
    intro entry hmem
    unfold ReviewSchedulerState.moveBudget
    dsimp only
    split_ifs
    · exact List.mem_append_left _ hmem
    · exact hmem
  rcases h with ⟨budget, outcome, hfind, hhead, houtcome, hreviewed⟩ | ⟨entry, hmem, hrest⟩
  · rcases find?_updateFirst_cases (p := fun budget => budget.isFor repo' number')
        (q := fun budget => budget.isFor repo number)
        (f := IncrementalHeadBudget.moveTo headSha' (historicalOutcome (s.moveBudget current repo'
          number' headSha' nowMs).headHistory repo' number' headSha' nowMs))
        (fun _ => rfl) s.incrementalHeads with hsame | ⟨found, hq, hp, -⟩
    · exact .inl ⟨budget, outcome, hsame.trans hfind, hhead, houtcome, hreviewed⟩
    · have heq : found = budget := Option.some.inj (hq.symm.trans hfind)
      have hcur : found = current := Option.some.inj (hp.symm.trans hcurrent)
      have hkey := List.find?_some hq
      subst heq hcur
      obtain ⟨hrepo, hnumber⟩ := isFor_iff.mp hkey
      refine .inr ⟨found.farewell nowMs, ?_, hrepo, hnumber, hhead, ?_, hlate⟩
      · simp [ReviewSchedulerState.moveBudget, houtcome]
      · simpa [IncrementalHeadBudget.farewell, houtcome] using hreviewed
  · exact .inr ⟨entry, hhistory entry hmem, hrest⟩

theorem Effect.reviewed (h : Reviewed s repo number headSha expiry)
    (hearly : e.nowMs < expiry) (hlate : expiry ≤ e.nowMs + reviewTombstoneTtlMs)
    (heffect : Effect sha256 e s s') : Reviewed s' repo number headSha expiry := by
  have hunexpired (entry : HeadTerminalTombstone) (_ : entry.outcome.isReviewed = true)
      (hlive : expiry ≤ entry.expiresAtMs) : decide (entry.expiresAtMs > e.nowMs) = true :=
    decide_eq_true (lt_of_lt_of_le hearly hlive)
  cases heffect with
  | prune | pruneHistory => exact h.of_filter hunexpired
  | rearm request => exact h.rearm request
  | moveBudget _ hcurrent => exact h.moveBudget hcurrent hlate
  | openBudget =>
    rcases h with ⟨budget, outcome, hfind, hrest⟩ | hhistory
    · refine .inl ⟨budget, outcome, ?_, hrest⟩
      rw [ReviewSchedulerState.budgetOf] at hfind ⊢
      rw [List.find?_append, hfind]
      rfl
    · exact .inr hhistory
  | payBudget _ _ _ hrepl =>
    rcases h with ⟨budget, outcome, hfind, hhead, hrest⟩ | hhistory
    · rcases hrepl.find?_cases (q := fun budget => budget.isFor repo number) rfl with
        hsame | ⟨hold, hnew⟩
      · exact .inl ⟨budget, outcome, hsame.trans hfind, hhead, hrest⟩
      · have heq := Option.some.inj (hold.symm.trans hfind)
        subst heq
        exact .inl ⟨_, outcome, hnew, hhead, hrest⟩
    · exact .inr hhistory
  | settle record outcome =>
    unfold ReviewSchedulerState.settleHead
    split_ifs
    · rcases h with hbudget | hhistory
      · refine .inl (hbudget.of_updateFirst (settle_isFor outcome repo number)
          fun budget result _ hresult _ => ?_)
        simp [IncrementalHeadBudget.settle, IncrementalHeadBudget.existingTerminal, hresult]
      · exact .inr hhistory
    · exact h
  | normalize | enqueue | join | record | complete | decline | acknowledge => exact h

theorem perform_reviewed (h : Reviewed s repo number headSha expiry) (hearly : e.nowMs < expiry)
    (hlate : expiry ≤ e.nowMs + reviewTombstoneTtlMs) :
    Reviewed (perform sha256 s e).1 repo number headSha expiry := by
  refine perform_preserves (I := fun s => Reviewed s repo number headSha expiry) ?_
    (fun h heffect => heffect.reviewed h hearly hlate) h
  intro s s' h hquiet
  simpa only [Reviewed, BudgetReviewed, ReviewSchedulerState.budgetOf, hquiet.incrementalHeads,
    hquiet.headHistory] using h

/-- A reviewed head cannot start paid work, wherever its result stands. -/
theorem Reviewed.not_started (h : Reviewed s repo number headSha expiry) {nowMs : ℤ}
    (hearly : nowMs < expiry) {owned : OwnedReview} {record : ScheduledReview}
    (hfind : s.unfinished.find? (ownsUnexpired owned nowMs) = some record)
    (hrecord : isIncrementalOf repo number record = true) {budget : IncrementalHeadBudget}
    (hbudget : s.budgetOf repo number = some budget) (hhead : budget.headSha = headSha) :
    (s.beginPaid owned nowMs).2.isStarted = false := by
  obtain ⟨hmode, rfl, rfl⟩ := isIncrementalOf_iff.mp hrecord
  have hcases := beginPaid_cases s owned nowMs
  generalize s.beginPaid owned nowMs = result at hcases ⊢
  cases hcases with
  | refused hstart => exact hstart
  | budget hfind' _ hbudget' hopen hhistory =>
    obtain rfl := Option.some.inj (hfind.symm.trans hfind')
    obtain rfl := Option.some.inj (hbudget.symm.trans hbudget')
    rcases h with ⟨other, outcome, hother, -, houtcome, -⟩ | ⟨entry, hmem, h₁, h₂, h₃, -, hlive⟩
    · obtain rfl := Option.some.inj (hbudget.symm.trans hother)
      simp [hopen] at houtcome
    · rw [List.any_eq_false] at hhistory
      refine absurd ?_ (hhistory entry hmem)
      simp [HeadTerminalTombstone.marks, h₁, h₂, h₃, hhead, lt_of_lt_of_le hearly hlive]
  | full hfind' hfull =>
    obtain rfl := Option.some.inj (hfind.symm.trans hfind')
    simp [hmode] at hfull

theorem IsTimedRun.le_last {guard : ReviewSchedulerState → Event → Prop} {c : Clocked}
    {events : List Event} {last : Event} (h : IsTimedRun sha256 guard c (events ++ [last])) :
    c.nowMs ≤ last.nowMs := by
  induction events generalizing c with
  | nil => exact h.1.1
  | cons e events ih => exact h.1.1.trans (ih (c := tick sha256 c e) h.2)

/-- Up to its expiry a reviewed result stands after every later operation. -/
theorem IsTimedRun.reviewed {guard : ReviewSchedulerState → Event → Prop} {c : Clocked}
    {events : List Event} {last : Event} (h : IsTimedRun sha256 guard c (events ++ [last]))
    (hreviewed : Reviewed c.state repo number headSha expiry) (hearly : last.nowMs < expiry)
    (hlate : expiry ≤ c.nowMs + reviewTombstoneTtlMs) :
    Reviewed (after sha256 c events).state repo number headSha expiry := by
  induction events generalizing c with
  | nil => exact hreviewed
  | cons e events ih =>
    have hclock : c.nowMs ≤ e.nowMs := h.1.1
    have hlast : e.nowMs ≤ last.nowMs := IsTimedRun.le_last (c := tick sha256 c e) h.2
    have hlate' : expiry ≤ e.nowMs + reviewTombstoneTtlMs := by omega
    refine ih (c := tick sha256 c e) h.2 ?_ hlate'
    exact perform_reviewed hreviewed (lt_of_le_of_lt hlast hearly) hlate'

/-- Within the tombstone lifetime of a published or declined result, no incremental
`begin_paid` of the pull request starts while its budget stands at that head. -/
theorem reviewed_head_not_paid_again (sha256 : String → List UInt8) (t : ℤ)
    (before between : List Event) (done start : Event) (repo : String) (number : ℕ)
    (headSha : String) {owned : OwnedReview} {record : ScheduledReview}
    {budget : IncrementalHeadBudget}
    (hrun : IsTimedRun sha256 (fun _ _ => True) (.start t)
      (before ++ done :: (between ++ [start])))
    (hdone : BudgetReviewed (after sha256 (.start t) (before ++ [done])).state repo number headSha)
    (hearly : start.nowMs < done.nowMs + reviewTombstoneTtlMs)
    (hfind : (after sha256 (.start t) (before ++ done :: between)).state.unfinished.find?
      (ownsUnexpired owned start.nowMs) = some record)
    (hrecord : isIncrementalOf repo number record = true)
    (hbudget : (after sha256 (.start t) (before ++ done :: between)).state.budgetOf repo number =
      some budget)
    (hhead : budget.headSha = headSha) :
    ((after sha256 (.start t) (before ++ done :: between)).state.beginPaid owned
      start.nowMs).2.isStarted = false := by
  have hsplit : before ++ done :: between = (before ++ [done]) ++ between := by simp
  rw [hsplit, after_append] at hfind hbudget ⊢
  have hrun' : IsTimedRun sha256 (fun _ _ => True) (.start t)
      ((before ++ [done]) ++ (between ++ [start])) := by simpa using hrun
  have hclock : (after sha256 (.start t) (before ++ [done])).nowMs = done.nowMs := by
    rw [after_append]
    rfl
  have htail : IsTimedRun sha256 (fun _ _ => True) (after sha256 (.start t) (before ++ [done]))
      (between ++ [start]) := (guarded_append.mp hrun').2
  have hstands := htail.reviewed (.inl hdone) hearly (by rw [hclock])
  exact hstands.not_started hearly hfind hrecord hbudget hhead

/-- A review of head `A` on which paid work has started. -/
def startedReview : List Event :=
  ownedReview (push "a" "A") ++
    [⟨5, .reconcileLiveCheck (sampleHandle (push "a" "A") "w1" 1) "A"⟩,
      ⟨6, .beginPaid (sampleHandle (push "a" "A") "w1" 1)⟩]

/-- The review is published at 7. -/
def publishedAt7 : Event :=
  ⟨7, .finish (sampleHandle (push "a" "A") "w1" 1) .published 7⟩

/-- A full review of the same pull request, claimed by another worker. -/
def fullReview : List Event :=
  [⟨8, .admitBatch [{ push "b" "A" with mode := .full }]⟩, ⟨9, .claimPendingChecks 5⟩,
    ⟨10, .recordQueuedCheckId (sampleClaim "b" "A" 9) 12⟩, ⟨11, .claimNextWithLimit "w2" 4⟩]

/-- A full review is paid from its own counter, so at 12 it starts on a head whose incremental
review was published at 7. -/
theorem reviewed_head_paid_by_full_review :
    IsTimedRun sampleSha256 (fun _ _ => True) (.start 0)
        (startedReview ++ publishedAt7 :: fullReview) ∧
      BudgetReviewed (after sampleSha256 (.start 0) (startedReview ++ [publishedAt7])).state
        "owner/repo" 7 "A" ∧
      BudgetReviewed (after sampleSha256 (.start 0)
        (startedReview ++ publishedAt7 :: fullReview)).state "owner/repo" 7 "A" ∧
      ((after sampleSha256 (.start 0) (startedReview ++ publishedAt7 :: fullReview)).state.beginPaid
        (sampleHandle { push "b" "A" with mode := .full } "w2" 1) 12).2 = .started 0 := by
  refine ⟨?_, ?_, ?_, ?_⟩ <;> decide +kernel

/-- A redelivery of a published head finds its review exhausted. -/
theorem reviewed_head_not_paid_again_redelivery :
    ((after sampleSha256 (.start 0) (startedReview ++ publishedAt7 ::
        [⟨8, .admitBatch [push "b" "A"]⟩, ⟨9, .claimNextWithLimit "w2" 4⟩])).state.beginPaid
      (sampleHandle (push "b" "A") "w2" 1) 10).2.isStarted = false := by
  refine reviewed_head_not_paid_again sampleSha256 0 startedReview _ publishedAt7
    ⟨10, .beginPaid (sampleHandle (push "b" "A") "w2" 1)⟩ "owner/repo" 7 "A" ?_ ?_ (by decide) rfl
    (by decide +kernel) rfl (by decide +kernel)
  · decide +kernel
  · decide +kernel

end TinySweeper.ReviewJob
