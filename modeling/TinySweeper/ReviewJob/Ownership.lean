import TinySweeper.ReviewJob.Admission

/-!
# Review ownership

Claims, paid starts, head confirmation and completion. Every operation of an
owner looks its record up through `ownsUnexpired`, so an owner whose lease has
lapsed is as foreign as one that never held the record.
-/

namespace TinySweeper.ReviewJob

open FirstMatch

/-- A published check of this head that GitHub has identified. -/
def isPublishedFor (headSha : String) (check : ReviewCheckRecord) : Bool :=
  check.headSha == headSha && check.published && check.checkId.isSome

/-- An unexpired lease, which counts against the running bound. -/
def isRunning (nowMs : ℤ) (record : ScheduledReview) : Bool :=
  record.owner.isSome && decide (record.ownerUntilMs > nowMs)

/-- The eligibility predicate of a review claim. -/
def isEligible (s : ReviewSchedulerState) (nowMs : ℤ) (record : ScheduledReview) : Bool :=
  decide (record.notBeforeMs ≤ nowMs) &&
    (record.owner.isNone || decide (record.ownerUntilMs ≤ nowMs)) &&
    !record.metadataResolutionPending &&
    (record.reviewChecks.isEmpty ||
      record.request.headSha.all (fun head => record.reviewChecks.any (isPublishedFor head)) ||
      -- The drainer withholds the queued check of a terminal head.
      headIsKnownTerminal s.incrementalHeads s.headHistory record.request nowMs)

def ScheduledReview.updateHeadCheck (f : ReviewCheckRecord → ReviewCheckRecord)
    (record : ScheduledReview) : ScheduledReview :=
  match record.request.headSha with
  | none => record
  | some head => record.updateCheck (fun check => check.headSha == head) f

def ScheduledReview.headCheck (record : ScheduledReview) : Option ReviewCheckRecord :=
  record.request.headSha.bind fun head =>
    record.reviewChecks.find? fun check => check.headSha == head

/-- The record under its next owner generation. -/
def ScheduledReview.claim (owner : String) (nowMs : ℤ) (record : ScheduledReview) :
    ScheduledReview :=
  ScheduledReview.updateHeadCheck
    (fun check => { check with ownerGeneration := some (record.generation + 1) })
    { record with
      generation := record.generation + 1
      owner := some owner
      ownerUntilMs := nowMs + reviewOwnerTtlMs }

theorem ScheduledReview.updateHeadCheck_eq (f : ReviewCheckRecord → ReviewCheckRecord)
    (record : ScheduledReview) : record.updateHeadCheck f =
      { record with reviewChecks := (record.updateHeadCheck f).reviewChecks } := by
  unfold updateHeadCheck
  split <;> rfl

/-- A claim changes the owner fields and nothing else but the head's check. -/
theorem ScheduledReview.claim_eq (owner : String) (nowMs : ℤ) (record : ScheduledReview) :
    record.claim owner nowMs =
      { record with
        generation := record.generation + 1
        owner := some owner
        ownerUntilMs := nowMs + reviewOwnerTtlMs
        reviewChecks := (record.claim owner nowMs).reviewChecks } :=
  updateHeadCheck_eq _ _

namespace ReviewSchedulerState

def runningOwners (s : ReviewSchedulerState) (nowMs : ℤ) : ℕ :=
  s.unfinished.countP (isRunning nowMs)

def claimNextWithLimit (s : ReviewSchedulerState) (owner : String) (nowMs : ℤ) (limit : ℕ) :
    ReviewSchedulerState × Option OwnedReview :=
  if s.runningOwners nowMs ≥ limit then (s, none)
  else
    match s.unfinished.find? (isEligible s nowMs) with
    | none => (s, none)
    | some record =>
      let claimed := record.claim owner nowMs
      ({ s with
          unfinished := updateFirst (isEligible s nowMs) (ScheduledReview.claim owner nowMs)
            s.unfinished },
        some
          { request := claimed.request
            acceptedIds := claimed.acceptedIds
            owner := owner
            generation := claimed.generation
            reviewCheck := claimed.headCheck })

/-- The budget of a pull request. -/
def budgetOf (s : ReviewSchedulerState) (repo : String) (number : ℕ) :
    Option IncrementalHeadBudget :=
  s.incrementalHeads.find? fun budget => budget.isFor repo number

def updateBudget (s : ReviewSchedulerState) (repo : String) (number : ℕ)
    (f : IncrementalHeadBudget → IncrementalHeadBudget) : ReviewSchedulerState :=
  { s with
    incrementalHeads := updateFirst (fun budget => budget.isFor repo number) f s.incrementalHeads }

def updateOwned (s : ReviewSchedulerState) (owned : OwnedReview) (nowMs : ℤ)
    (f : ScheduledReview → ScheduledReview) : ReviewSchedulerState :=
  { s with unfinished := updateFirst (ownsUnexpired owned nowMs) f s.unfinished }

def beginPaid (s : ReviewSchedulerState) (owned : OwnedReview) (nowMs : ℤ) :
    ReviewSchedulerState × PaidStart :=
  match s.unfinished.find? (ownsUnexpired owned nowMs) with
  | none => (s, .ownershipLost)
  | some record =>
    if record.request.mode = .incremental then
      match s.budgetOf record.request.repo record.request.number with
      -- A webhook SHA is only a hint: the live head is confirmed first.
      | none => (s, .ownershipLost)
      | some budget =>
        if budget.terminalOutcome.isSome ∨ budget.deadlineHit ∨
            s.headHistory.any (fun entry => entry.marks record.request.repo record.request.number
              budget.headSha nowMs) then (s, .exhausted)
        else if budget.paidAttempts ≥ maxReviewPaidAttempts then (s, .exhausted)
        else
          (s.updateBudget record.request.repo record.request.number fun budget =>
            { budget with paidAttempts := budget.paidAttempts + 1 }, .started budget.epoch)
    else if record.paidAttempts ≥ maxReviewPaidAttempts then (s, .exhausted)
    else
      (s.updateOwned owned nowMs fun record =>
        { record with paidAttempts := record.paidAttempts + 1 }, .started 0)

end ReviewSchedulerState

/-- The budget a refund names: the charged head and epoch, not yet terminal. -/
def IncrementalHeadBudget.isRefundable (budget : IncrementalHeadBudget) (repo : String)
    (number : ℕ) (headSha : String) (epoch : ℕ) : Bool :=
  budget.isFor repo number && budget.headSha == headSha && budget.epoch == epoch &&
    budget.terminalOutcome.isNone && !budget.deadlineHit

namespace ReviewSchedulerState

/-- A refund needs no live ownership, only the job and the budget that was charged. -/
def refundPaid (s : ReviewSchedulerState) (owned : OwnedReview) (headSha : String)
    (epoch : ℕ) (_nowMs : ℤ) : ReviewSchedulerState × Bool :=
  match s.unfinished.find? (fun record => record.request.id == owned.request.id) with
  | none => (s, false)
  | some record =>
    if record.request.mode = .incremental then
      match s.incrementalHeads.find? (fun budget =>
          budget.isRefundable record.request.repo record.request.number headSha epoch) with
      | none => (s, false)
      | some budget =>
        if budget.paidAttempts = 0 ∨ budget.ownershipRefunds ≥ maxReviewOwnershipRefunds then
          (s, false)
        else
          ({ s with
              incrementalHeads := updateFirst
                (fun budget =>
                  budget.isRefundable record.request.repo record.request.number headSha epoch)
                (fun budget => { budget with
                  paidAttempts := budget.paidAttempts - 1
                  ownershipRefunds := budget.ownershipRefunds + 1 })
                s.incrementalHeads }, true)
    else if epoch ≠ 0 then (s, false)
    else if record.paidAttempts = 0 ∨ record.ownershipRefunds ≥ maxReviewOwnershipRefunds then
      (s, false)
    else
      ({ s with
          unfinished := updateFirst (fun record => record.request.id == owned.request.id)
            (fun record => { record with
              paidAttempts := record.paidAttempts - 1
              ownershipRefunds := record.ownershipRefunds + 1 })
            s.unfinished }, true)

end ReviewSchedulerState

def ScheduledReview.withHead (headSha : Option String) (record : ScheduledReview) :
    ScheduledReview :=
  { record with request := { record.request with headSha := headSha } }

/-- The budget starts over on another head, restoring a historical result if there is one. -/
def IncrementalHeadBudget.moveTo (headSha : String) (historical : Option TerminalOutcome)
    (budget : IncrementalHeadBudget) : IncrementalHeadBudget :=
  { budget with
    headSha := headSha
    paidAttempts := if historical = some .deadline then maxReviewPaidAttempts else 0
    ownershipRefunds := 0
    epoch := wrappingAddU64 budget.epoch 1
    deadlineHit := decide (historical = some .deadline)
    terminalOutcome := historical }

/-- The history entry a terminal head leaves behind when its pull request moves on. -/
def IncrementalHeadBudget.farewell (budget : IncrementalHeadBudget) (nowMs : ℤ) :
    HeadTerminalTombstone where
  repo := budget.repo
  number := budget.number
  headSha := budget.headSha
  outcome := budget.terminalOutcome.getD .deadline
  expiresAtMs := nowMs + reviewTombstoneTtlMs

def ScheduledReview.spendReservation (record : ScheduledReview) : ScheduledReview :=
  { record with headHistoryReservations := some (record.headHistoryReservations.getD 0 - 1) }

/-- The result history holds for a head. -/
def historicalOutcome (history : List HeadTerminalTombstone) (repo : String) (number : ℕ)
    (headSha : String) (nowMs : ℤ) : Option TerminalOutcome :=
  (history.find? fun entry => entry.marks repo number headSha nowMs).map
    fun entry => entry.outcome

namespace ReviewSchedulerState

def pruneHistory (s : ReviewSchedulerState) (nowMs : ℤ) : ReviewSchedulerState :=
  { s with headHistory := s.headHistory.filter fun record => decide (record.expiresAtMs > nowMs) }

/-- The budget moves to another head; a terminal head is kept in history. -/
def moveBudget (s : ReviewSchedulerState) (current : IncrementalHeadBudget) (repo : String)
    (number : ℕ) (headSha : String) (nowMs : ℤ) : ReviewSchedulerState :=
  let history :=
    if current.terminalOutcome.isSome ∨ current.deadlineHit then
      s.headHistory ++ [current.farewell nowMs]
    else s.headHistory
  { s.updateBudget repo number (IncrementalHeadBudget.moveTo headSha
      (historicalOutcome history repo number headSha nowMs)) with
    headHistory := history }

/-- Advance the pull request to another confirmed head; leaving a terminal head
spends one of the owner's reservations. -/
def advanceHead (s : ReviewSchedulerState) (owned : OwnedReview) (record : ScheduledReview)
    (current : IncrementalHeadBudget) (headSha : String) (nowMs : ℤ) :
    ReviewSchedulerState × Bool :=
  let moved := s.moveBudget current record.request.repo record.request.number headSha nowMs
  if current.terminalOutcome.isSome ∨ current.deadlineHit then
    if record.headHistoryReservations.getD 0 = 0 then (s, false)
    else
      (moved.updateOwned owned nowMs
        (fun record => record.spendReservation.withHead (some headSha)), true)
  else (moved.updateOwned owned nowMs (ScheduledReview.withHead (some headSha)), true)

/-- Bind an owned incremental request to the authoritative live head. -/
def confirmHead (s : ReviewSchedulerState) (owned : OwnedReview) (headSha : String)
    (nowMs : ℤ) : ReviewSchedulerState × Bool :=
  match s.unfinished.find? (ownsUnexpired owned nowMs) with
  | none => (s, false)
  | some record =>
    if record.request.mode ≠ .incremental then (s, true)
    else
      let pruned := s.pruneHistory nowMs
      match pruned.budgetOf record.request.repo record.request.number with
      | some current =>
        if current.headSha = headSha then
          (pruned.updateOwned owned nowMs (ScheduledReview.withHead (some headSha)), true)
        else pruned.advanceHead owned record current headSha nowMs
      | none =>
        ({ pruned.updateOwned owned nowMs (ScheduledReview.withHead (some headSha)) with
            incrementalHeads := pruned.incrementalHeads ++
              [{ repo := record.request.repo
                 number := record.request.number
                 headSha := headSha
                 paidAttempts := record.paidAttempts
                 ownershipRefunds := 0
                 epoch := 0
                 deadlineHit := false
                 terminalOutcome := none }] }, true)

end ReviewSchedulerState

/-- Bind the queued check of the live head to the owner, minting it when absent. -/
def ScheduledReview.bindCheck (sha256 : String → List UInt8) (headSha : String)
    (generation : ℕ) (record : ScheduledReview) : ScheduledReview × ReviewCheckRecord :=
  match record.reviewChecks.find? (fun check => check.headSha == headSha) with
  | some existing =>
    (record.updateCheck (fun check => check.headSha == headSha)
        fun check => { check with ownerGeneration := some generation },
      { existing with ownerGeneration := some generation })
  | none =>
    let check := queuedCheck sha256 record.request.id headSha (some generation)
    ({ record with
        statusReconcileReserved := false
        reviewChecks := record.reviewChecks ++ [check] }, check)

theorem ScheduledReview.bindCheck_eq (sha256 : String → List UInt8) (headSha : String)
    (generation : ℕ) (record : ScheduledReview) :
    (record.bindCheck sha256 headSha generation).1 =
      { record with
        statusReconcileReserved :=
          (record.bindCheck sha256 headSha generation).1.statusReconcileReserved
        reviewChecks := (record.bindCheck sha256 headSha generation).1.reviewChecks } := by
  unfold bindCheck
  split <;> rfl

namespace ReviewSchedulerState

/-- The status half of reconciliation, on a record whose head is confirmed. -/
def rebindCheck (sha256 : String → List UInt8) (s : ReviewSchedulerState) (owned : OwnedReview)
    (headSha : String) (nowMs : ℤ) : ReviewSchedulerState × ReconciledReviewCheck :=
  match s.unfinished.find? (ownsUnexpired owned nowMs) with
  | none => (s, .ownershipLost)
  | some record =>
    let bound := record.withHead (some headSha)
    let (kept, detached) := detachChecksExcept bound (some headSha)
    if headIsKnownTerminal s.incrementalHeads s.headHistory bound.request nowMs &&
        !kept.reviewChecks.any (isPublishedFor headSha) then
      -- Minting a queued identity here would hide the result that head already has.
      ({ s.updateOwned owned nowMs (fun _ => kept) with
          retiredChecks := s.retiredChecks ++ detached }, .terminal)
    else
      let (final, check) := kept.bindCheck sha256 headSha owned.generation
      ({ s.updateOwned owned nowMs (fun _ => final) with
          retiredChecks := s.retiredChecks ++ detached },
        if check.published && check.checkId.isSome then .ready check else .pending check)

/-- Confirm the live head, retire stale status identities and ensure its queued check. -/
def reconcileLiveCheck (sha256 : String → List UInt8) (s : ReviewSchedulerState)
    (owned : OwnedReview) (headSha : String) (nowMs : ℤ) :
    ReviewSchedulerState × ReconciledReviewCheck :=
  match s.unfinished.find? (ownsUnexpired owned nowMs) with
  | none => (s, .ownershipLost)
  | some record =>
    if !record.reviewChecks.any (fun check => check.headSha == headSha) &&
        !record.statusReconcileReserved && decide (s.statusRecordsInUse ≥ maxReviewStatusRecords)
    then (s, .capacityDeferred)
    else
      let confirmed := s.confirmHead owned headSha nowMs
      if confirmed.2 then rebindCheck sha256 confirmed.1 owned headSha nowMs
      else (confirmed.1, .ownershipLost)

def renew (s : ReviewSchedulerState) (owned : OwnedReview) (nowMs : ℤ) :
    ReviewSchedulerState × Bool :=
  match s.unfinished.find? (fun record => owns record owned) with
  | none => (s, false)
  | some record =>
    if record.ownerUntilMs ≤ nowMs then (s, false)
    else
      ({ s with
          unfinished := updateFirst (fun record => owns record owned)
            (fun record => { record with ownerUntilMs := nowMs + reviewOwnerTtlMs })
            s.unfinished }, true)

end ReviewSchedulerState

/-- The record back in the queue, without an owner. -/
def ScheduledReview.release (notBeforeMs : ℤ) (record : ScheduledReview) : ScheduledReview :=
  { record with
    owner := none
    ownerUntilMs := 0
    notBeforeMs := notBeforeMs }

/-- The released record follows its latest hint; checks of other heads are detached. -/
def ScheduledReview.yieldTo (notBeforeMs : ℤ) (preserveStatusHead : Option String)
    (record : ScheduledReview) : ScheduledReview × List RetiredReviewCheck :=
  detachChecksExceptPreserving
    { (record.release notBeforeMs).withHead record.latestHeadHint with yieldRequested := false }
    record.latestHeadHint preserveStatusHead

namespace ReviewSchedulerState

/-- Acknowledge an advisory supersession. -/
def deferYield (s : ReviewSchedulerState) (owned : OwnedReview) (nowMs : ℤ) :
    ReviewSchedulerState × Bool :=
  match s.unfinished.find? (fun record => ownsUnexpired owned nowMs record &&
      record.yieldRequested) with
  | none => (s, false)
  | some record =>
    ({ s with
        unfinished := updateFirst (fun record => ownsUnexpired owned nowMs record &&
            record.yieldRequested)
          (fun record => (record.yieldTo nowMs none).1) s.unfinished
        retiredChecks := s.retiredChecks ++ (record.yieldTo nowMs none).2 }, true)

/-- Return the current owner's request to pending with bounded backoff. -/
def defer (s : ReviewSchedulerState) (owned : OwnedReview) (nowMs notBeforeMs : ℤ) :
    ReviewSchedulerState × Bool :=
  match s.unfinished.find? (fun record => owns record owned) with
  | none => (s, false)
  | some record =>
    if record.ownerUntilMs ≤ nowMs then (s, false)
    else if record.yieldRequested then
      ({ s with
          unfinished := updateFirst (fun record => owns record owned)
            (fun record => (record.yieldTo notBeforeMs none).1) s.unfinished
          retiredChecks := s.retiredChecks ++ (record.yieldTo notBeforeMs none).2 }, true)
    else
      ({ s with
          unfinished := updateFirst (fun record => owns record owned)
            (ScheduledReview.release notBeforeMs) s.unfinished }, true)

end ReviewSchedulerState

/-- Outcomes that settle the confirmed head of an incremental review. -/
def TerminalOutcome.settlesHead (outcome : TerminalOutcome) : Bool :=
  outcome == .published || outcome == .declined || outcome == .exhausted || outcome == .deadline

/-- Record a terminal result unless the head already has one. -/
def IncrementalHeadBudget.settle (outcome : TerminalOutcome) (budget : IncrementalHeadBudget) :
    IncrementalHeadBudget :=
  if budget.existingTerminal.isNone then
    { budget with
      terminalOutcome := if outcome.settlesHead then some outcome else budget.terminalOutcome
      deadlineHit := if outcome = .deadline then true else budget.deadlineHit }
  else budget

/-- Which checks of a removed record still need a terminal status: those of other
heads, and those never started unless the review was published. -/
def needsRetirement (record : ScheduledReview) (terminalOutcome : TerminalOutcome)
    (check : ReviewCheckRecord) : Bool :=
  (check.headSha != record.request.headSha.getD "" ||
      (check.stage == .queued && terminalOutcome != .published)) &&
    check.stage != .completed && check.reachedForge

def retireCheck (record : ScheduledReview) (retired : List RetiredReviewCheck)
    (check : ReviewCheckRecord) : List RetiredReviewCheck :=
  if retired.any (entryHasExternalId check.externalId) then retired
  else
    retired ++
      [{ repo := record.request.repo
         installation := record.request.installation
         check := check.detached }]

namespace ReviewSchedulerState

def retireRemovedRecordChecks (s : ReviewSchedulerState) (record : ScheduledReview)
    (terminalOutcome : TerminalOutcome) : ReviewSchedulerState :=
  { s with
    retiredChecks := (record.reviewChecks.filter (needsRetirement record terminalOutcome)).foldl
      (retireCheck record) s.retiredChecks }

/-- The terminal result of the record's confirmed head, if it already has one. -/
def existingTerminal (s : ReviewSchedulerState) (record : ScheduledReview) :
    Option TerminalOutcome :=
  if record.request.mode = .incremental then
    (s.budgetOf record.request.repo record.request.number).bind
      IncrementalHeadBudget.existingTerminal
  else none

/-- Settle the budget of an incremental record; a full review has none. -/
def settleHead (s : ReviewSchedulerState) (record : ScheduledReview) (outcome : TerminalOutcome) :
    ReviewSchedulerState :=
  if record.request.mode = .incremental then
    s.updateBudget record.request.repo record.request.number (IncrementalHeadBudget.settle outcome)
  else s

/-- Settling touches budgets only. -/
theorem settleHead_eq (s : ReviewSchedulerState) (record : ScheduledReview)
    (outcome : TerminalOutcome) : s.settleHead record outcome =
      { s with incrementalHeads := (s.settleHead record outcome).incrementalHeads } := by
  unfold settleHead
  split_ifs <;> rfl

theorem settleHead_unfinished (s : ReviewSchedulerState) (record : ScheduledReview)
    (outcome : TerminalOutcome) : (s.settleHead record outcome).unfinished = s.unfinished := by
  rw [settleHead_eq]

/-- Drop a finished record: its checks retire, its ids become tombstones. -/
def completeRecord (s : ReviewSchedulerState) (p : ScheduledReview → Bool)
    (record : ScheduledReview) (outcome : TerminalOutcome) (completedAtMs : ℤ) :
    ReviewSchedulerState :=
  let removed := retireRemovedRecordChecks { s with unfinished := s.unfinished.eraseP p }
    record outcome
  { removed with
    terminal := removed.terminal ++ tombstones record.acceptedIds outcome
      (completedAtMs + reviewTombstoneTtlMs) }

/-- The part of `finish` after its yield test. -/
def finishRecord (s : ReviewSchedulerState) (owned : OwnedReview) (outcome : TerminalOutcome)
    (nowMs completedAtMs : ℤ) : ReviewSchedulerState × Bool :=
  let current := fun record => ownsUnexpired owned nowMs record && !record.yieldRequested
  match s.unfinished.find? current with
  | none => (s, false)
  | some record =>
    ((s.completeRecord current record ((s.existingTerminal record).getD outcome)
      completedAtMs).settleHead record outcome, true)

/-- Complete a terminal result while preserving a superseding delivery. Ids are
unique in the scheduler, so the record found here is the one `finish` would find and
its own yield test is already decided. -/
def finishWithYield (s : ReviewSchedulerState) (owned : OwnedReview) (outcome : TerminalOutcome)
    (nowMs : ℤ) : ReviewSchedulerState × Bool :=
  match s.unfinished.find? (ownsUnexpired owned nowMs) with
  | none => (s, false)
  | some record =>
    if record.request.mode = .incremental ∧
        (s.budgetOf record.request.repo record.request.number).isNone then (s, false)
    else
      let existing := s.existingTerminal record
      let settled := s.settleHead record outcome
      if record.yieldRequested then
        let preserveStatusHead := if outcome = .published then record.request.headSha else none
        ({ settled.updateOwned owned nowMs
              (fun record => (record.yieldTo nowMs preserveStatusHead).1) with
            retiredChecks := settled.retiredChecks ++
              (record.yieldTo nowMs preserveStatusHead).2 }, true)
      else if outcome ≠ .deadline then settled.finishRecord owned outcome nowMs nowMs
      else
        (settled.completeRecord (ownsUnexpired owned nowMs) record (existing.getD .deadline) nowMs,
          true)

def finishDeadline (s : ReviewSchedulerState) (owned : OwnedReview) (nowMs : ℤ) :
    ReviewSchedulerState × Bool :=
  s.finishWithYield owned .deadline nowMs

/-- Complete the current owner's request and reserve its dedupe tombstone. -/
def finish (s : ReviewSchedulerState) (owned : OwnedReview) (outcome : TerminalOutcome)
    (nowMs completedAtMs : ℤ) : ReviewSchedulerState × Bool :=
  if s.unfinished.any (fun record => ownsUnexpired owned nowMs record && record.yieldRequested) then
    s.finishWithYield owned outcome nowMs
  else s.finishRecord owned outcome nowMs completedAtMs

end ReviewSchedulerState

end TinySweeper.ReviewJob
