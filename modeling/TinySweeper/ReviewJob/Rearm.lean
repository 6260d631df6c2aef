import TinySweeper.ReviewJob.ConfirmedHeads
import TinySweeper.ReviewJob.ReviewedHeads

/-!
# Explicit re-requests

An explicit re-request clears every recorded failure of its pull request, and no
failure comes back while nothing further is recorded. A paid budget that is used
up without a recorded result is not among the failures cleared.
-/

namespace TinySweeper.ReviewJob

open FirstMatch Runs

variable {sha256 : String → List UInt8} {e : Event} {s s' : ReviewSchedulerState}

/-- Every result on record, in a budget or in history, is one its pull request may have. -/
structure Outcomes (ok : String × ℕ → TerminalOutcome → Prop) (s : ReviewSchedulerState) : Prop where
  budgets : ∀ budget ∈ s.incrementalHeads, ∀ outcome,
    budget.terminalOutcome = some outcome → ok budget.pr outcome
  deadlines : ∀ budget ∈ s.incrementalHeads,
    budget.deadlineHit = true → budget.terminalOutcome = some .deadline
  history : ∀ entry ∈ s.headHistory, ok (entry.repo, entry.number) entry.outcome

variable {ok : String × ℕ → TerminalOutcome → Prop}

/-- Budgets edited one at a time keep their results or take allowed ones. -/
theorem Outcomes.of_budgets (h : Outcomes ok s) {heads : List IncrementalHeadBudget}
    (hheads : ∀ budget ∈ heads, budget ∈ s.incrementalHeads ∨
      (∀ outcome, budget.terminalOutcome = some outcome → ok budget.pr outcome) ∧
        (budget.deadlineHit = true → budget.terminalOutcome = some .deadline)) :
    Outcomes ok { s with incrementalHeads := heads } := by
  constructor
  · intro budget hmem
    rcases hheads budget hmem with hold | hnew
    · exact h.budgets budget hold
    · exact hnew.1
  · intro budget hmem
    rcases hheads budget hmem with hold | hnew
    · exact h.deadlines budget hold
    · exact hnew.2
  · exact h.history

theorem Outcomes.of_history (h : Outcomes ok s) {p : HeadTerminalTombstone → Bool} :
    Outcomes ok { s with headHistory := s.headHistory.filter p } := by
  constructor
  · exact h.budgets
  · exact h.deadlines
  · intro entry hmem
    exact h.history entry (List.mem_filter.mp hmem).1

theorem Outcomes.rearm (h : Outcomes ok s) (repo : String) (number : ℕ) :
    Outcomes ok (s.rearmFailedHead repo number) := by
  apply h.of_history.of_budgets
  intro budget hmem
  rcases mem_updateFirst hmem with hold | ⟨failed, -, -, rfl⟩
  · exact .inl hold
  · right
    constructor
    · intro outcome hnone
      cases hnone
    · intro hfalse
      cases hfalse

/-- A budget that moves takes a result history holds for its pull request. -/
theorem Outcomes.moveBudget (h : Outcomes ok s) {repo headSha : String} {number : ℕ}
    {current : IncrementalHeadBudget} {nowMs : ℤ} (hfind : s.budgetOf repo number = some current) :
    Outcomes ok (s.moveBudget current repo number headSha nowMs) := by
  have hcurrent := List.mem_of_find?_eq_some hfind
  have hhistory : ∀ entry ∈ (s.moveBudget current repo number headSha nowMs).headHistory,
      ok (entry.repo, entry.number) entry.outcome := by
    intro entry hmem
    unfold ReviewSchedulerState.moveBudget at hmem
    dsimp only at hmem
    split_ifs at hmem with hterminal
    · rcases List.mem_append.mp hmem with hold | hnew
      · exact h.history entry hold
      · rw [List.mem_singleton.mp hnew]
        have hresult : ∃ outcome, current.terminalOutcome = some outcome := by
          rcases hterminal with hsome | hdeadline
          · exact Option.isSome_iff_exists.mp hsome
          · exact ⟨_, h.deadlines current hcurrent hdeadline⟩
        obtain ⟨outcome, houtcome⟩ := hresult
        have hok := h.budgets current hcurrent outcome houtcome
        simp only [IncrementalHeadBudget.farewell, houtcome, Option.getD_some]
        exact hok
    · exact h.history entry hmem
  have hmoved : Outcomes ok { s with
      headHistory := (s.moveBudget current repo number headSha nowMs).headHistory } :=
    ⟨h.budgets, h.deadlines, hhistory⟩
  apply hmoved.of_budgets
  intro budget hmem
  rcases mem_updateFirst hmem with hold | ⟨found, -, hfor, rfl⟩
  · exact .inl hold
  · right
    constructor
    · intro outcome houtcome
      obtain ⟨entry, hentry, rfl⟩ := Option.map_eq_some_iff.mp houtcome
      have hmarks := List.find?_some hentry
      simp only [HeadTerminalTombstone.marks, Bool.and_eq_true, beq_iff_eq] at hmarks
      obtain ⟨hrepo, hnumber⟩ := isFor_iff.mp hfor
      have hpr : (found.moveTo headSha (some entry.outcome)).pr = (entry.repo, entry.number) := by
        rw [hmarks.1.1.1, hmarks.1.1.2, ← hrepo, ← hnumber]
        rfl
      have hok := hhistory entry (List.mem_of_find?_eq_some hentry)
      rw [← hpr] at hok
      exact hok
    · intro hdeadline
      exact of_decide_eq_true hdeadline

theorem Outcomes.effect (h : Outcomes ok s) (hop : e.operation.finishes = false)
    (heffect : Effect sha256 e s s') : Outcomes ok s' := by
  cases heffect with
  | prune | pruneHistory => exact ⟨h.budgets, h.deadlines, h.of_history.history⟩
  | rearm request => exact h.rearm request.repo request.number
  | moveBudget _ hfind => exact h.moveBudget hfind
  | openBudget =>
    apply h.of_budgets
    intro budget hmem
    rcases List.mem_append.mp hmem with hold | hnew
    · exact .inl hold
    · rw [List.mem_singleton.mp hnew]
      right
      constructor
      · intro outcome hnone
        cases hnone
      · intro hfalse
        cases hfalse
  | payBudget paidAttempts ownershipRefunds _ hrepl =>
    apply h.of_budgets
    intro budget hmem
    rcases hrepl.mem_cases hmem with rfl | hold
    · have hresults := h.budgets _ hrepl.mem_old
      have hdeadlines := h.deadlines _ hrepl.mem_old
      exact .inr ⟨hresults, hdeadlines⟩
    · exact .inl hold
  | settle _ _ hfinishes | complete hfinishes =>
    rw [hop] at hfinishes
    cases hfinishes
  | normalize | enqueue | join | record | decline | acknowledge =>
    exact ⟨h.budgets, h.deadlines, h.history⟩

theorem Outcomes.settleHead (h : Outcomes ok s) (record : ScheduledReview)
    {outcome : TerminalOutcome} (hok : record.request.mode = .incremental →
      outcome.settlesHead = true → ok record.pr outcome) :
    Outcomes ok { s with
      incrementalHeads := (s.settleHead record outcome).incrementalHeads } := by
  apply h.of_budgets
  intro budget hmem
  unfold ReviewSchedulerState.settleHead at hmem
  split_ifs at hmem with hmode
  · rcases mem_updateFirst hmem with hold | ⟨found, hfound, hfor, rfl⟩
    · exact .inl hold
    cases hterminal : found.existingTerminal with
    | some result =>
      rw [settle_of_terminal hterminal]
      exact .inl hfound
    | none =>
      right
      obtain ⟨hnone, hfalse⟩ := existingTerminal_eq_none.mp hterminal
      have hpr : (found.settle outcome).pr = record.pr := by
        obtain ⟨hrepo, hnumber⟩ := isFor_iff.mp hfor
        rw [settle_pr]
        exact Prod.ext hrepo hnumber
      rw [hpr]
      unfold IncrementalHeadBudget.settle
      rw [hterminal, Option.isNone_none, if_pos rfl]
      dsimp only
      rw [hnone, hfalse]
      constructor
      · intro result hresult
        split_ifs at hresult with hsettles
        rw [← Option.some.inj hresult]
        exact hok hmode hsettles
      · intro hdeadline
        split_ifs at hdeadline with houtcome
        rw [houtcome]
        rfl
  · exact .inl hmem

/-- What a run keeps of results: every accepted completion may record its own. -/
theorem Outcomes.perform (h : Outcomes ok s) (sha256 : String → List UInt8)
    (hok : ∀ owned outcome record, e.operation.completion = some (owned, outcome) →
      (perform sha256 s e).2 = .accepted true →
      s.unfinished.find? (ownsUnexpired owned e.nowMs) = some record →
      record.request.mode = .incremental → outcome.settlesHead = true → ok record.pr outcome) :
    Outcomes ok (perform sha256 s e).1 := by
  cases hop : e.operation.finishes with
  | false =>
    apply perform_preserves (I := Outcomes ok)
    · intro s₁ s₂ hs hquiet
      constructor
      · rw [hquiet.incrementalHeads]
        exact hs.budgets
      · rw [hquiet.incrementalHeads]
        exact hs.deadlines
      · rw [hquiet.headHistory]
        exact hs.history
    · intro s₁ s₂ hs heffect
      exact hs.effect hop heffect
    · exact h
  | true =>
    obtain ⟨owned, outcome, hcompletion⟩ := Operation.completion_of_finishes hop
    obtain ⟨accepted, hreply, hstep⟩ :=
      @perform_finishStep sha256 e s owned outcome hcompletion
    cases accepted with
    | false =>
      rw [hstep.refused_eq]
      exact h
    | true =>
      obtain ⟨record, hfind, hheads, hhistory⟩ := hstep.settled
      have hsettled := h.settleHead record (hok owned outcome record hcompletion hreply hfind)
      constructor
      · rw [hheads]
        exact hsettled.budgets
      · rw [hheads]
        exact hsettled.deadlines
      · rw [hhistory]
        exact hsettled.history

/-- Superseded reviews leave no result on a head. -/
def NotSuperseded (_ : String × ℕ) (outcome : TerminalOutcome) : Prop := outcome ≠ .superseded

/-- A pull request whose recorded results are those of reviews that were carried out. -/
def ReviewedOnly (pr pr' : String × ℕ) (outcome : TerminalOutcome) : Prop :=
  outcome ≠ .superseded ∧ (pr' = pr → outcome.isReviewed = true)

theorem Outcomes.after (sha256 : String → List UInt8) (t : ℤ) (events : List Event) :
    Outcomes NotSuperseded (after sha256 (.start t) events).state := by
  apply after_invariant
  · intro s e hs
    apply hs.perform sha256
    intro owned outcome record _ _ _ _ hsettles hsuperseded
    rw [hsuperseded] at hsettles
    cases hsettles
  · constructor
    · intro budget hmem
      cases hmem
    · intro budget hmem
      cases hmem
    · intro entry hmem
      cases hmem

theorem TerminalOutcome.isReviewed_of_not_failed {outcome : TerminalOutcome}
    (hfailed : outcome.failed = false) (hsuperseded : outcome ≠ .superseded) :
    outcome.isReviewed = true := by
  cases outcome with
  | published | declined => rfl
  | superseded => exact absurd rfl hsuperseded
  | exhausted | deadline => cases hfailed

/-- Re-arming leaves a pull request no failure, in its budget or its history. -/
theorem Outcomes.rearmed (h : Outcomes NotSuperseded s)
    (hkeys : (s.incrementalHeads.map IncrementalHeadBudget.pr).Nodup) (pr : String × ℕ) :
    Outcomes (ReviewedOnly pr) (s.rearmFailedHead pr.1 pr.2) := by
  have hsane := h.rearm pr.1 pr.2
  have hopen : ∀ budget ∈ (s.rearmFailedHead pr.1 pr.2).incrementalHeads, budget.pr = pr →
      budget.failed = false := by
    intro budget hmem hpr
    have hfor : budget.isFor pr.1 pr.2 = true := by
      rw [isFor_iff, ← hpr]
      exact ⟨rfl, rfl⟩
    unfold ReviewSchedulerState.rearmFailedHead at hmem
    dsimp only at hmem
    cases hfind : s.incrementalHeads.find?
        (fun budget => budget.isFor pr.1 pr.2 && budget.failed) with
    | none =>
      rw [updateFirst_of_find?_none _ hfind] at hmem
      have hnot := List.find?_eq_none.mp hfind budget hmem
      simpa [hfor] using hnot
    | some found =>
      have hfound := List.find?_some hfind
      rw [Bool.and_eq_true] at hfound
      have hrepl := updateFirst_replaced IncrementalHeadBudget.rearm hfind
      rcases hrepl.mem_cases_of_nodup hkeys.of_map hmem with rfl | ⟨hold, hne⟩
      · rfl
      · exfalso
        apply hne
        apply List.inj_on_of_nodup_map hkeys hold hrepl.mem_old
        obtain ⟨hrepo, hnumber⟩ := isFor_iff.mp hfound.1
        rw [hpr]
        exact (Prod.ext hrepo hnumber).symm
  constructor
  · intro budget hmem outcome houtcome
    have hsuperseded := hsane.budgets budget hmem outcome houtcome
    refine ⟨hsuperseded, fun hpr => ?_⟩
    have hnot := hopen budget hmem hpr
    unfold IncrementalHeadBudget.failed at hnot
    rw [houtcome] at hnot
    exact TerminalOutcome.isReviewed_of_not_failed hnot hsuperseded
  · exact hsane.deadlines
  · intro entry hmem
    have hsuperseded := hsane.history entry hmem
    refine ⟨hsuperseded, fun hpr => ?_⟩
    have hkept := (List.mem_filter.mp hmem).2
    obtain ⟨hrepo, hnumber⟩ := Prod.ext_iff.mp hpr
    dsimp only at hrepo hnumber
    simp only [hrepo, hnumber, beq_self_eq_true, Bool.true_and, Bool.not_eq_true'] at hkept
    exact TerminalOutcome.isReviewed_of_not_failed hkept hsuperseded

/-- Placing a request touches no budget and no history. -/
theorem placeRequest_heads (s : ReviewSchedulerState) (request : ReviewRequest) :
    (s.placeRequest sha256 request).incrementalHeads = s.incrementalHeads ∧
      (s.placeRequest sha256 request).headHistory = s.headHistory := by
  unfold ReviewSchedulerState.placeRequest
  split
  · exact ⟨rfl, rfl⟩
  · split_ifs <;> exact ⟨rfl, rfl⟩

theorem Outcomes.of_heads (h : Outcomes ok s) (hheads : s'.incrementalHeads = s.incrementalHeads)
    (hhistory : s'.headHistory = s.headHistory) : Outcomes ok s' := by
  constructor
  · rw [hheads]
    exact h.budgets
  · rw [hheads]
    exact h.deadlines
  · rw [hhistory]
    exact h.history

theorem Outcomes.admitRequest (h : Outcomes ok s) (request : ReviewRequest) :
    Outcomes ok (s.admitRequest sha256 request) := by
  obtain ⟨hheads, hhistory⟩ := @placeRequest_heads sha256
    (if request.isExplicitRerequest then s.rearmFailedHead request.repo request.number else s)
    request
  apply Outcomes.of_heads _ hheads hhistory
  split_ifs
  · exact h.rearm request.repo request.number
  · exact h

theorem foldl_admitRequest_budgets (requests : List ReviewRequest) (s : ReviewSchedulerState) :
    (requests.foldl (ReviewSchedulerState.admitRequest sha256) s).incrementalHeads.map
      IncrementalHeadBudget.pr = s.incrementalHeads.map IncrementalHeadBudget.pr := by
  induction requests generalizing s with
  | nil => rfl
  | cons request rest ih =>
    rw [List.foldl_cons, ih]
    unfold ReviewSchedulerState.admitRequest
    rw [(placeRequest_heads _ request).1]
    split_ifs
    · exact map_pr_updateFirst (f := IncrementalHeadBudget.rearm) (fun _ => rfl) s.incrementalHeads
    · rfl

theorem Outcomes.foldl_admitRequest (h : Outcomes ok s) (requests : List ReviewRequest) :
    Outcomes ok (requests.foldl (ReviewSchedulerState.admitRequest sha256) s) := by
  induction requests generalizing s with
  | nil => exact h
  | cons request rest ih => exact ih (h.admitRequest request)

/-- A batch with an explicit re-request, once admitted, leaves the pull request no failure. -/
theorem Outcomes.admitted (h : Outcomes NotSuperseded s) (hshape : Shape s)
    {requests : List ReviewRequest} {request : ReviewRequest} (hmem : request ∈ requests)
    (hexplicit : request.isExplicitRerequest = true) {nowMs : ℤ}
    (hadmitted : (s.admitBatch sha256 requests nowMs).2 = .admitted) :
    Outcomes (ReviewedOnly (request.repo, request.number))
      (s.admitBatch sha256 requests nowMs).1 := by
  obtain ⟨before, rest, rfl⟩ := List.append_of_mem hmem
  rcases s.admitBatch_cases sha256 (before ++ request :: rest) nowMs with
    ⟨-, heq⟩ | ⟨-, heq⟩ | ⟨hrefused, heq⟩
  · rw [heq] at hadmitted
    cases hadmitted
  · have hready : Outcomes NotSuperseded (s.prepared nowMs) :=
      ⟨h.budgets, h.deadlines, h.of_history.history⟩
    have hbefore := @Outcomes.foldl_admitRequest sha256 _ _ hready before
    have hkeys := (@foldl_admitRequest_budgets sha256 before (s.prepared nowMs)).symm ▸
      (hshape.prepared nowMs).budgets
    have hrearmed := hbefore.rearmed hkeys (request.repo, request.number)
    rw [heq, List.foldl_append, List.foldl_cons]
    apply Outcomes.foldl_admitRequest
    obtain ⟨hheads, hhistory⟩ := @placeRequest_heads sha256
      ((before.foldl (ReviewSchedulerState.admitRequest sha256)
        (s.prepared nowMs)).rearmFailedHead request.repo request.number) request
    apply hrearmed.of_heads
    · unfold ReviewSchedulerState.admitRequest
      rw [if_pos hexplicit]
      exact hheads
    · unfold ReviewSchedulerState.admitRequest
      rw [if_pos hexplicit]
      exact hhistory
  · rw [heq] at hadmitted
    exact absurd hadmitted hrefused

variable (sha256) in
/-- The event completes no incremental review of the pull request. -/
def FinishesNone (pr : String × ℕ) (s : ReviewSchedulerState) (e : Event) : Prop :=
  ∀ owned outcome record, e.operation.completion = some (owned, outcome) →
    (perform sha256 s e).2 = .accepted true →
    s.unfinished.find? (ownsUnexpired owned e.nowMs) = some record →
    record.request.mode = .incremental → record.pr ≠ pr

/-- The head carries the unexpired result of a review that was carried out. -/
def CarriesReview (s : ReviewSchedulerState) (pr : String × ℕ) (headSha : String) (nowMs : ℤ) :
    Prop :=
  BudgetReviewed s pr.1 pr.2 headSha ∨
    ∃ entry ∈ s.headHistory, entry.marks pr.1 pr.2 headSha nowMs = true ∧
      entry.outcome.isReviewed = true

theorem Outcomes.continued {pr : String × ℕ} {c : Clocked} (h : Outcomes (ReviewedOnly pr) c.state)
    {rest : List Event} (hrest : IsRun sha256 (FinishesNone sha256 pr) c rest) :
    Outcomes (ReviewedOnly pr) (TinySweeper.ReviewJob.after sha256 c rest).state := by
  apply hrest.invariant _ h
  intro s e hs hnone
  apply hs.perform sha256
  intro owned outcome record hop haccepted hfind hmode hsettles
  constructor
  · intro hsuperseded
    rw [hsuperseded] at hsettles
    cases hsettles
  · intro hpr
    exact absurd hpr (hnone owned outcome record hop haccepted hfind hmode)

/-- The paid budget that a start of this record would be charged to is not used up: the pull
request's for an incremental review, the job's own for a full one. -/
def paidBudgetLeft (s : ReviewSchedulerState) (record : ScheduledReview) : Bool :=
  match record.request.mode with
  | .incremental => (s.budgetOf record.request.repo record.request.number).any fun budget =>
      decide (budget.paidAttempts < maxReviewPaidAttempts)
  | .full => decide (record.paidAttempts < maxReviewPaidAttempts)

theorem beginPaid_full {owned : OwnedReview} {nowMs : ℤ} {record : ScheduledReview}
    (hfind : s.unfinished.find? (ownsUnexpired owned nowMs) = some record)
    (hmode : record.request.mode = .full) :
    (∃ epoch, (s.beginPaid owned nowMs).2 = .started epoch) ↔ paidBudgetLeft s record = true := by
  unfold ReviewSchedulerState.beginPaid paidBudgetLeft
  simp only [hfind, hmode, reduceCtorEq, if_false, decide_eq_true_eq]
  split_ifs with hspent
  · constructor
    · rintro ⟨epoch, hbad⟩
      cases hbad
    · intro hless
      omega
  · constructor
    · intro _
      omega
    · intro _
      exact ⟨0, rfl⟩

/-- Where no failure is on record, a confirmed owner starts while its budget lasts. -/
theorem Outcomes.beginPaid {owned : OwnedReview} {nowMs : ℤ} {record : ScheduledReview}
    {headSha : String} (h : Outcomes (ReviewedOnly record.pr) s)
    (hfind : s.unfinished.find? (ownsUnexpired owned nowMs) = some record)
    (hmode : record.request.mode = .incremental) (hhead : s.headOf record.pr = some headSha)
    (hfree : ¬ CarriesReview s record.pr headSha nowMs) :
    (∃ epoch, (s.beginPaid owned nowMs).2 = .started epoch) ↔ paidBudgetLeft s record = true := by
  obtain ⟨budget, hbudget, hsha⟩ := Option.map_eq_some_iff.mp hhead
  have hmem := List.mem_of_find?_eq_some hbudget
  have hpr : budget.pr = record.pr := by
    unfold ReviewSchedulerState.budgetOf at hbudget
    have hfor := List.find?_some hbudget
    obtain ⟨hrepo, hnumber⟩ := isFor_iff.mp hfor
    exact Prod.ext hrepo hnumber
  have hopen : budget.terminalOutcome = none := by
    cases houtcome : budget.terminalOutcome with
    | none => rfl
    | some outcome =>
      have hreviewed := (h.budgets budget hmem outcome houtcome).2 hpr
      exact absurd (.inl ⟨budget, outcome, hbudget, hsha, houtcome, hreviewed⟩) hfree
  have hdeadline : budget.deadlineHit = false := by
    by_contra htrue
    rw [Bool.not_eq_false] at htrue
    have hbad := h.deadlines budget hmem htrue
    rw [hopen] at hbad
    cases hbad
  have hhistory : s.headHistory.any (fun entry => entry.marks record.request.repo
      record.request.number budget.headSha nowMs) = false := by
    by_contra htrue
    rw [Bool.not_eq_false, List.any_eq_true] at htrue
    obtain ⟨entry, hentry, hmarks⟩ := htrue
    apply hfree
    refine .inr ⟨entry, hentry, by rw [← hsha]; exact hmarks, ?_⟩
    apply (h.history entry hentry).2
    simp only [HeadTerminalTombstone.marks, Bool.and_eq_true, beq_iff_eq] at hmarks
    exact Prod.ext hmarks.1.1.1 hmarks.1.1.2
  have hbudgetRecord : s.budgetOf record.request.repo record.request.number = some budget := hbudget
  unfold ReviewSchedulerState.beginPaid paidBudgetLeft
  simp only [hfind, hmode, if_true, hbudgetRecord, hopen, hdeadline, hhistory, Option.isSome_none,
    Bool.false_eq_true, or_self, if_false, Option.any_some, decide_eq_true_eq]
  split_ifs with hspent
  · constructor
    · rintro ⟨epoch, hbad⟩
      cases hbad
    · intro hless
      omega
  · constructor
    · intro _
      omega
    · intro _
      exact ⟨budget.epoch, rfl⟩

theorem perform_admitBatch {requests : List ReviewRequest}
    (hop : e.operation = .admitBatch requests) : perform sha256 s e =
      ((s.admitBatch sha256 requests e.nowMs).1,
        .admission (s.admitBatch sha256 requests e.nowMs).2) := by
  unfold perform
  rw [hop]

theorem perform_beginPaid {owned : OwnedReview} (hop : e.operation = .beginPaid owned) :
    perform sha256 s e = ((s.beginPaid owned e.nowMs).1, .paid (s.beginPaid owned e.nowMs).2) := by
  unfold perform
  rw [hop]

/-- The comment that asks for another review of the sample pull request. -/
def comment (id : String) : ReviewRequest :=
  { push id "" with headSha := none, event := "issue_comment" }

/-- A worker that confirmed head A and charged some paid starts. -/
def chargedReview (starts : ℕ) : List Event :=
  ownedReview (push "a" "A") ++
    ⟨5, .confirmHead (sampleHandle (push "a" "A") "w1" 1) "A"⟩ ::
      List.replicate starts ⟨6, .beginPaid (sampleHandle (push "a" "A") "w1" 1)⟩

def commentAt7 : Event := ⟨7, .admitBatch [comment "c"]⟩

def confirmedAt8 : Event := ⟨8, .confirmHead (sampleHandle (push "a" "A") "w1" 1) "A"⟩

def paidAt9 : Event := ⟨9, .beginPaid (sampleHandle (push "a" "A") "w1" 1)⟩

/-- The head is exhausted, and the comment arrives after that was recorded. -/
def failedReview : List Event :=
  chargedReview 5 ++ [⟨7, .finish (sampleHandle (push "a" "A") "w1" 1) .exhausted 7⟩]

def commentAt8 : Event := ⟨8, .admitBatch [comment "b"]⟩

/-- The head of the comment is resolved to the same one, and another worker confirms it. -/
def reclaimed : List Event :=
  [⟨9, .claimPendingMetadata 5⟩,
    ⟨10, .resolvePendingMetadata ⟨⟨"b"⟩, "owner/repo", 1, 7, 1, 300009⟩ "A" true false⟩,
    ⟨11, .claimPendingChecks 5⟩, ⟨12, .recordQueuedCheckId (sampleClaim "b" "A" 11) 12⟩,
    ⟨13, .claimNextWithLimit "w2" 4⟩,
    ⟨14, .confirmHead (sampleHandle (comment "b") "w2" 1) "A"⟩]

def paidAt15 : Event := ⟨15, .beginPaid (sampleHandle (comment "b") "w2" 1)⟩

end TinySweeper.ReviewJob
