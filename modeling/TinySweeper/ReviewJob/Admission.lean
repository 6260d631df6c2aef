import TinySweeper.ReviewJob.StatusChecks

/-!
# Batch admission

A batch is admitted whole or not at all: `admissionDecision` is every test the
source makes before its loop, `admitRequest` is one iteration of that loop.
-/

namespace TinySweeper.ReviewJob

open FirstMatch

/-- Fields missing from records persisted by earlier deployments. -/
def ScheduledReview.normalizeLegacy (record : ScheduledReview) : ScheduledReview :=
  let acceptedIds := if record.acceptedIds.isEmpty then [record.request.id] else record.acceptedIds
  { record with
    acceptedIds := acceptedIds
    latestHeadHint :=
      if record.latestHeadHint.isNone then record.request.headSha else record.latestHeadHint
    headHistoryReservations :=
      if record.request.mode = .incremental ∧ record.headHistoryReservations.isNone then
        some acceptedIds.length
      else record.headHistoryReservations }

namespace ReviewSchedulerState

def normalizeLegacyRecords (s : ReviewSchedulerState) : ReviewSchedulerState :=
  { s with unfinished := s.unfinished.map ScheduledReview.normalizeLegacy }

/-- Drop expired tombstones and expired head history. -/
def pruneExpired (s : ReviewSchedulerState) (nowMs : ℤ) : ReviewSchedulerState :=
  { s with
    terminal := s.terminal.filter fun record => decide (record.expiresAtMs > nowMs)
    headHistory := s.headHistory.filter fun record => decide (record.expiresAtMs > nowMs) }

/-- The record an incremental delivery coalesces into. -/
def coalesceTarget (s : ReviewSchedulerState) (request : ReviewRequest) :
    Option ScheduledReview :=
  if request.mode = .incremental then
    s.unfinished.find? (isIncrementalOf request.repo request.number)
  else none

/-- Pull requests with an unfinished incremental record. -/
def pendingPrs (s : ReviewSchedulerState) : List (String × ℕ) :=
  ((s.unfinished.filter fun record => record.request.mode == .incremental).map
    fun record => (record.request.repo, record.request.number)).dedup

def hasBudget (s : ReviewSchedulerState) (pr : String × ℕ) : Bool :=
  s.incrementalHeads.any fun budget => budget.isFor pr.1 pr.2

/-- Persisted records and all capacity promised to accepted work. -/
def reservedCapacity (s : ReviewSchedulerState) : ℕ :=
  s.terminal.length
    + s.retiredChecks.length
    + (s.unfinished.map fun record => max record.acceptedIds.length 1).sum
    + s.incrementalHeads.length
    + s.headHistory.length
    + (s.unfinished.map fun record => record.reviewChecks.length).sum
    + s.unfinished.countP (fun record => record.statusReconcileReserved)
    + (s.unfinished.map fun record =>
        if record.request.mode = .incremental then
          record.headHistoryReservations.getD (max record.acceptedIds.length 1)
        else 0).sum
    + s.pendingPrs.countP (fun pr => !s.hasBudget pr)

/-- Whether admission counts a new status record for this request. -/
def needsStatusRecord (s : ReviewSchedulerState) (request : ReviewRequest) : Bool :=
  match s.coalesceTarget request, request.headSha with
  | some record, some head => !record.reviewChecks.any fun check => check.headSha == head
  | some _, none => false
  | none, none => true
  | none, some _ => true

def additionalStatusRecords (s : ReviewSchedulerState) (requests : List ReviewRequest) : ℕ :=
  requests.countP s.needsStatusRecord

/-- Whether this request re-arms a reconcile reservation already spent. -/
def replenishesReservation (s : ReviewSchedulerState) (request : ReviewRequest) : Bool :=
  request.mode == .incremental && s.unfinished.any fun record =>
    isIncrementalOf request.repo request.number record && !record.statusReconcileReserved

def replenishedReservations (s : ReviewSchedulerState) (requests : List ReviewRequest) : ℕ :=
  requests.countP s.replenishesReservation

def isKnownId (s : ReviewSchedulerState) (id : ReviewJobId) : Bool :=
  s.unfinished.any (fun record => record.acceptedIds.contains id) ||
    s.terminal.any fun record => record.id == id

end ReviewSchedulerState

/-- Requests that open a record of their own; `keys` are the pull requests with one. -/
def uncoalescedCount : List (String × ℕ) → List ReviewRequest → ℕ
  | _, [] => 0
  | keys, request :: requests =>
    if request.mode ≠ .incremental then uncoalescedCount keys requests + 1
    else if keys.contains (request.repo, request.number) then uncoalescedCount keys requests
    else uncoalescedCount ((request.repo, request.number) :: keys) requests + 1

def newUncoalescedCount (records : List ScheduledReview) (requests : List ReviewRequest) : ℕ :=
  uncoalescedCount
    ((records.filter fun record => record.request.mode == .incremental).map
      fun record => (record.request.repo, record.request.number)) requests

namespace ReviewSchedulerState

/-- Pull requests of the batch that will need a first head budget. -/
def newPrsWithoutHead (s : ReviewSchedulerState) (requests : List ReviewRequest) : ℕ :=
  (((requests.filter fun request => request.mode == .incremental).map
      fun request => (request.repo, request.number)).filter
    fun pr => !s.pendingPrs.contains pr && !s.hasBudget pr).dedup.length

/-- Every test of `admit_batch` on the normalised and pruned state. -/
def admissionDecision (s : ReviewSchedulerState) (requests : List ReviewRequest) : Admission :=
  if ¬ (requests.map fun request => request.id).Nodup ∨ ¬ requests.all metadataIsBounded then .full
  else
    let newJobs := newUncoalescedCount s.unfinished requests
    if s.statusRecordsInUse + s.additionalStatusRecords requests + newJobs
        + s.replenishedReservations requests > maxReviewStatusRecords then .full
    else
      let already := requests.countP fun request => s.isKnownId request.id
      if already = requests.length then .duplicate
      else if already ≠ 0 ∨ s.unfinished.length + newJobs > maxUnfinishedReviews ∨
          s.reservedCapacity + requests.length
            + (requests.countP fun request => request.mode == .incremental)
            + s.newPrsWithoutHead requests > maxTerminalReviewReservations then .full
      else .admitted

end ReviewSchedulerState

/-- The results an explicit re-request may retry. -/
def TerminalOutcome.failed (outcome : TerminalOutcome) : Bool :=
  outcome == .exhausted || outcome == .deadline

def IncrementalHeadBudget.failed (budget : IncrementalHeadBudget) : Bool :=
  match budget.terminalOutcome with
  | some outcome => outcome.failed
  | none => budget.deadlineHit

def IncrementalHeadBudget.rearm (budget : IncrementalHeadBudget) : IncrementalHeadBudget :=
  { budget with
    terminalOutcome := none
    deadlineHit := false
    paidAttempts := 0
    ownershipRefunds := 0
    epoch := wrappingAddU64 budget.epoch 1 }

namespace ReviewSchedulerState

/-- Clear failed terminal results of a pull request, in its budget and its history. -/
def rearmFailedHead (s : ReviewSchedulerState) (repo : String) (number : ℕ) :
    ReviewSchedulerState :=
  { s with
    headHistory := s.headHistory.filter fun record =>
      !(record.repo == repo && record.number == number && record.outcome.failed)
    incrementalHeads := updateFirst (fun budget => budget.isFor repo number && budget.failed)
      IncrementalHeadBudget.rearm s.incrementalHeads }

end ReviewSchedulerState

/-- A headless comment never erases an accepted advisory head: only its id is kept. -/
def keepsAcceptedHead (request : ReviewRequest) (record : ScheduledReview) : Bool :=
  request.headSha.isNone && record.request.headSha.isSome

def ScheduledReview.acceptId (id : ReviewJobId) (record : ScheduledReview) : ScheduledReview :=
  { record with acceptedIds := record.acceptedIds ++ [id] }

/-- The reservations a delivery brings, and its queued check unless the head has one. -/
def ScheduledReview.acceptDelivery (sha256 : String → List UInt8) (request : ReviewRequest)
    (record : ScheduledReview) : ScheduledReview :=
  { record.acceptId request.id with
    latestHeadHint := request.headSha
    reviewChecks :=
      match request.headSha with
      | none => record.reviewChecks
      | some head =>
        if record.reviewChecks.any (fun check => check.headSha == head) then record.reviewChecks
        else record.reviewChecks ++ [queuedCheck sha256 request.id head none]
    headHistoryReservations := some (record.headHistoryReservations.getD 0 + 1)
    statusReconcileReserved := true
    metadataResolutionPending := request.headSha.isNone
    metadataClaimGeneration := saturatingAddU64 record.metadataClaimGeneration 1
    metadataClaimUntilMs := 0 }

/-- An owned record keeps its head and is asked to yield; an unowned one moves to
the new request and detaches the checks of other heads. -/
def ScheduledReview.coalesce (sha256 : String → List UInt8) (request : ReviewRequest)
    (record : ScheduledReview) : ScheduledReview × List RetiredReviewCheck :=
  let accepted := record.acceptDelivery sha256 request
  if record.owner.isSome then
    ({ accepted with
        yieldRequested := record.yieldRequested || record.request.headSha != request.headSha }, [])
  else if record.request.headSha ≠ request.headSha then
    let (kept, detached) := detachChecksExcept accepted request.headSha
    ({ kept with request := request }, detached)
  else ({ accepted with request := request }, [])

/-- A fresh unfinished record. -/
def ScheduledReview.enqueue (sha256 : String → List UInt8) (request : ReviewRequest) :
    ScheduledReview where
  request := request
  enqueuedAtMs := request.acceptedAtMs
  acceptedIds := [request.id]
  owner := none
  generation := 0
  ownerUntilMs := 0
  notBeforeMs := 0
  paidAttempts := 0
  ownershipRefunds := 0
  yieldRequested := false
  latestHeadHint := request.headSha
  headHistoryReservations := some (if request.mode = .incremental then 1 else 0)
  reviewChecks := (request.headSha.map fun head => queuedCheck sha256 request.id head none).toList
  statusReconcileReserved := true
  metadataResolutionPending := request.mode == .incremental && request.headSha.isNone
  metadataClaimGeneration := 0
  metadataClaimUntilMs := 0

namespace ReviewSchedulerState

/-- The loop body after an explicit re-request has re-armed its failed heads. -/
def placeRequest (sha256 : String → List UInt8) (s : ReviewSchedulerState)
    (request : ReviewRequest) : ReviewSchedulerState :=
  match s.coalesceTarget request with
  | none => { s with unfinished := s.unfinished ++ [ScheduledReview.enqueue sha256 request] }
  | some record =>
    if keepsAcceptedHead request record then
      { s with
        unfinished := updateFirst (isIncrementalOf request.repo request.number)
          (ScheduledReview.acceptId request.id) s.unfinished }
    else
      { s with
        unfinished := updateFirst (isIncrementalOf request.repo request.number)
          (fun record => (record.coalesce sha256 request).1) s.unfinished
        retiredChecks := s.retiredChecks ++ (record.coalesce sha256 request).2 }

def admitRequest (sha256 : String → List UInt8) (s : ReviewSchedulerState)
    (request : ReviewRequest) : ReviewSchedulerState :=
  placeRequest sha256
    (if request.isExplicitRerequest then s.rearmFailedHead request.repo request.number else s)
    request

/-- Admit a whole batch in memory before the document store persists it. -/
def admitBatch (sha256 : String → List UInt8) (s : ReviewSchedulerState)
    (requests : List ReviewRequest) (nowMs : ℤ) : ReviewSchedulerState × Admission :=
  if requests.isEmpty then (s, .duplicate)
  else
    let ready := s.normalizeLegacyRecords.pruneExpired nowMs
    match ready.admissionDecision requests with
    | .admitted => (requests.foldl (admitRequest sha256) ready, .admitted)
    | refusal => (ready, refusal)

/-- A batch is empty, admitted whole, or leaves the prepared state behind. -/
theorem admitBatch_cases (sha256 : String → List UInt8) (s : ReviewSchedulerState)
    (requests : List ReviewRequest) (nowMs : ℤ) :
    (requests = [] ∧ s.admitBatch sha256 requests nowMs = (s, .duplicate)) ∨
      ((s.normalizeLegacyRecords.pruneExpired nowMs).admissionDecision requests = .admitted ∧
        s.admitBatch sha256 requests nowMs =
          (requests.foldl (admitRequest sha256) (s.normalizeLegacyRecords.pruneExpired nowMs),
            .admitted)) ∨
      ((s.normalizeLegacyRecords.pruneExpired nowMs).admissionDecision requests ≠ .admitted ∧
        s.admitBatch sha256 requests nowMs =
          (s.normalizeLegacyRecords.pruneExpired nowMs,
            (s.normalizeLegacyRecords.pruneExpired nowMs).admissionDecision requests)) := by
  unfold admitBatch
  by_cases hempty : requests.isEmpty = true
  · exact .inl ⟨List.isEmpty_iff.mp hempty, by rw [if_pos hempty]⟩
  right
  rw [if_neg hempty]
  dsimp only
  cases (s.normalizeLegacyRecords.pruneExpired nowMs).admissionDecision requests <;> simp

/-- The journal a batch is tested against. -/
def prepared (s : ReviewSchedulerState) (nowMs : ℤ) : ReviewSchedulerState :=
  s.normalizeLegacyRecords.pruneExpired nowMs

end ReviewSchedulerState

end TinySweeper.ReviewJob
