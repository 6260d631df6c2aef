import TinySweeper.FirstMatch
import TinySweeper.ReviewJob.State

/-!
# Status checks and headless metadata

Publication of queued checks is claimed, recorded and retired independently of
review ownership. Every operation returns the next state together with what the
source method answers.
-/

namespace TinySweeper.ReviewJob

open FirstMatch

/-- Whether GitHub may know this check: acknowledged, identified or posted. -/
def ReviewCheckRecord.reachedForge (check : ReviewCheckRecord) : Bool :=
  check.published || check.checkId.isSome || check.postAttempted

/-- Not completed, and GitHub may know it. -/
def ReviewCheckRecord.isOpen (check : ReviewCheckRecord) : Bool :=
  check.stage != .completed && check.reachedForge

/-- A detached check starts a fresh, unclaimed write generation. -/
def ReviewCheckRecord.detached (check : ReviewCheckRecord) : ReviewCheckRecord :=
  { check with
    writeGeneration := saturatingAddU64 check.writeGeneration 1
    writeClaimUntilMs := 0 }

def ScheduledReview.updateCheck (p : ReviewCheckRecord → Bool)
    (f : ReviewCheckRecord → ReviewCheckRecord) (job : ScheduledReview) : ScheduledReview :=
  { job with reviewChecks := updateFirst p f job.reviewChecks }

namespace ReviewSchedulerState

def statusRecordsInUse (s : ReviewSchedulerState) : ℕ :=
  s.retiredChecks.length
    + (s.unfinished.map fun record => record.reviewChecks.length).sum
    + s.unfinished.countP (fun record => record.statusReconcileReserved)
    + s.unfinished.countP (fun record => record.metadataResolutionPending)

end ReviewSchedulerState

/-- What becomes of one check when its record detaches every head but `keepHead`;
`none` when the check is kept or dropped. A check of `preserveStatusHead` is dropped
unretired: its paid result is known and must not turn into the opposite conclusion. -/
def retireDetached (record : ScheduledReview) (keepHead preserveStatusHead : Option String)
    (check : ReviewCheckRecord) : Option RetiredReviewCheck :=
  if some check.headSha = keepHead then none
  else if some check.headSha = preserveStatusHead then none
  else if check.stage ≠ .completed ∧ check.reachedForge then
    some
      { repo := record.request.repo
        installation := record.request.installation
        check := check.detached }
  else none

/-- The record keeps the checks of `keepHead`; the detached entries come second. -/
def detachChecksExceptPreserving (record : ScheduledReview)
    (keepHead preserveStatusHead : Option String) : ScheduledReview × List RetiredReviewCheck :=
  ({ record with
      reviewChecks := record.reviewChecks.filter fun check => some check.headSha == keepHead },
    record.reviewChecks.filterMap (retireDetached record keepHead preserveStatusHead))

def detachChecksExcept (record : ScheduledReview) (keepHead : Option String) :
    ScheduledReview × List RetiredReviewCheck :=
  detachChecksExceptPreserving record keepHead none

/-- Position in `unfinished`, acceptance time and job ID. -/
abbrev QueueEntry := ℕ × ℤ × ReviewJobId

def queueEntries (jobs : List ScheduledReview) : List (QueueEntry × ScheduledReview) :=
  jobs.zipIdx.map fun entry => ((entry.2, entry.1.enqueuedAtMs, entry.1.request.id), entry.1)

/-- Durable order: acceptance time first, job ID second. -/
def QueueEntry.before (a b : QueueEntry) : Prop :=
  a.2.1 < b.2.1 ∨ a.2.1 = b.2.1 ∧ a.2.2.text ≤ b.2.2.text

instance : DecidableRel QueueEntry.before :=
  fun _ _ => inferInstanceAs (Decidable (_ ∨ _))

/-- The queued check of the current head that nobody has published or claimed. -/
def awaitsPublication (headSha : Option String) (nowMs : ℤ) (check : ReviewCheckRecord) : Bool :=
  headSha == some check.headSha && !check.published && decide (check.writeClaimUntilMs ≤ nowMs)

def ReviewCheckRecord.claimWrite (nowMs : ℤ) (check : ReviewCheckRecord) : ReviewCheckRecord :=
  { check with
    writeGeneration := saturatingAddU64 check.writeGeneration 1
    writeClaimUntilMs := saturatingAddI64 nowMs queueStatusClaimTtlMs }

/-- One iteration of the publication loop over an unfinished job. -/
def claimQueuedCheck (nowMs : ℤ) (limit : ℕ) (eligible : List ReviewJobId)
    (acc : ReviewSchedulerState × List PendingReviewCheck) (index : ℕ) :
    ReviewSchedulerState × List PendingReviewCheck :=
  let (s, claims) := acc
  if claims.length ≥ limit then acc
  else
    match s.unfinished[index]? with
    | none => acc
    | some job =>
      -- A head that already concluded must never get a queued run.
      if headIsKnownTerminal s.incrementalHeads s.headHistory job.request nowMs then acc
      else
        match job.reviewChecks.find? (awaitsPublication job.request.headSha nowMs) with
        | none => acc
        | some check =>
          ({ s with
              unfinished := s.unfinished.modify index
                (ScheduledReview.updateCheck (awaitsPublication job.request.headSha nowMs)
                  (ReviewCheckRecord.claimWrite nowMs)) },
            claims ++
              [{ repo := job.request.repo
                 installation := job.request.installation
                 check := check.claimWrite nowMs
                 reviewsAhead := (eligible.findIdx? (· == job.request.id)).getD 0
                 retired := false }])

/-- The loop over detached checks awaiting a terminal status. -/
def claimRetiredChecks (nowMs : ℤ) (limit : ℕ) :
    List RetiredReviewCheck → List PendingReviewCheck →
      List RetiredReviewCheck × List PendingReviewCheck
  | [], claims => ([], claims)
  | retired :: rest, claims =>
    if claims.length ≥ limit then (retired :: rest, claims)
    else if retired.check.writeClaimUntilMs > nowMs then
      let tail := claimRetiredChecks nowMs limit rest claims
      (retired :: tail.1, tail.2)
    else
      let claimed := { retired with check := retired.check.claimWrite nowMs }
      let tail := claimRetiredChecks nowMs limit rest
        (claims ++
          [{ repo := claimed.repo
             installation := claimed.installation
             check := claimed.check
             reviewsAhead := 0
             retired := true }])
      (claimed :: tail.1, tail.2)

/-- Work that counts as ahead in the queue: due, with a check for its head that may
still be published. -/
def countsAsQueued (s : ReviewSchedulerState) (nowMs : ℤ) (job : ScheduledReview) : Bool :=
  match job.request.headSha with
  | none => false
  | some head =>
    decide (job.notBeforeMs ≤ nowMs) && job.reviewChecks.any (fun check => check.headSha == head) &&
      !headIsKnownTerminal s.incrementalHeads s.headHistory job.request nowMs

namespace ReviewSchedulerState

/-- Unfinished jobs in durable order. -/
def ordered (s : ReviewSchedulerState) : List (QueueEntry × ScheduledReview) :=
  (queueEntries s.unfinished).insertionSort fun a b => a.1.before b.1

def claimPendingChecks (s : ReviewSchedulerState) (nowMs : ℤ) (limit : ℕ) :
    ReviewSchedulerState × List PendingReviewCheck :=
  let eligible := (s.ordered.filter fun entry => countsAsQueued s nowMs entry.2).map
    fun entry => entry.2.request.id
  let queued := (s.ordered.map fun entry => entry.1.1).foldl
    (claimQueuedCheck nowMs limit eligible) (s, [])
  let retired := claimRetiredChecks nowMs limit queued.1.retiredChecks queued.2
  ({ queued.1 with retiredChecks := retired.1 }, retired.2)

end ReviewSchedulerState

/-- A headless job whose narrow metadata lookup may be claimed. -/
def awaitsMetadata (nowMs : ℤ) (job : ScheduledReview) : Bool :=
  job.metadataResolutionPending && job.request.headSha.isNone && job.owner.isNone &&
    decide (job.notBeforeMs ≤ nowMs) && decide (job.metadataClaimUntilMs ≤ nowMs)

def ScheduledReview.claimMetadata (nowMs : ℤ) (job : ScheduledReview) : ScheduledReview :=
  { job with
    metadataClaimGeneration := saturatingAddU64 job.metadataClaimGeneration 1
    metadataClaimUntilMs := saturatingAddI64 nowMs queueStatusClaimTtlMs }

def ScheduledReview.pendingMetadata (job : ScheduledReview) : PendingReviewMetadata where
  jobId := job.request.id
  repo := job.request.repo
  installation := job.request.installation
  number := job.request.number
  generation := job.metadataClaimGeneration
  claimUntilMs := job.metadataClaimUntilMs

/-- The fence of a metadata claim. -/
def holdsMetadataClaim (pending : PendingReviewMetadata) (nowMs : ℤ) (job : ScheduledReview) :
    Bool :=
  job.request.id == pending.jobId && job.metadataResolutionPending &&
    job.request.headSha.isNone && job.owner.isNone &&
    job.metadataClaimGeneration == pending.generation &&
    decide (job.metadataClaimUntilMs > nowMs)

/-- The accepted ids of a completed record, as tombstones. -/
def tombstones (ids : List ReviewJobId) (outcome : TerminalOutcome) (expiresAtMs : ℤ) :
    List ReviewTombstone :=
  ids.map fun id => { id, outcome, expiresAtMs }

/-- The job once its live head is known; the queued check takes the reserved slot. -/
def ScheduledReview.resolveHead (sha256 : String → List UInt8) (head : String)
    (job : ScheduledReview) : ScheduledReview :=
  { job with
    request := { job.request with headSha := some head }
    latestHeadHint := some head
    metadataResolutionPending := false
    metadataClaimUntilMs := 0
    reviewChecks :=
      if job.reviewChecks.any (fun check => check.headSha == head) then job.reviewChecks
      else job.reviewChecks ++ [queuedCheck sha256 job.request.id head none] }

namespace ReviewSchedulerState

def claimPendingMetadata (s : ReviewSchedulerState) (nowMs : ℤ) (limit : ℕ) :
    ReviewSchedulerState × List PendingReviewMetadata :=
  let indices := (((queueEntries s.unfinished).filter fun entry =>
    awaitsMetadata nowMs entry.2).insertionSort fun a b => a.1.before b.1).take limit
  ({ s with
      unfinished := indices.foldl
        (fun jobs entry => jobs.modify entry.1.1 (ScheduledReview.claimMetadata nowMs))
        s.unfinished },
    indices.map fun entry => (entry.2.claimMetadata nowMs).pendingMetadata)

def resolvePendingMetadata (sha256 : String → List UInt8) (s : ReviewSchedulerState)
    (pending : PendingReviewMetadata) (headSha : String) (isOpen draft : Bool) (nowMs : ℤ) :
    ReviewSchedulerState × Bool :=
  match s.unfinished.find? (holdsMetadataClaim pending nowMs) with
  | none => (s, false)
  | some job =>
    if !isOpen || draft then
      ({ s with
          unfinished := s.unfinished.eraseP (holdsMetadataClaim pending nowMs)
          terminal := s.terminal ++ tombstones job.acceptedIds .declined
            (saturatingAddI64 nowMs reviewTombstoneTtlMs) }, true)
    else
      ({ s with
          unfinished := updateFirst (holdsMetadataClaim pending nowMs)
            (ScheduledReview.resolveHead sha256 headSha) s.unfinished }, true)

end ReviewSchedulerState

def hasExternalId (externalId : String) (check : ReviewCheckRecord) : Bool :=
  check.externalId == externalId

def holdsExternalId (externalId : String) (job : ScheduledReview) : Bool :=
  job.reviewChecks.any (hasExternalId externalId)

def entryHasExternalId (externalId : String) (entry : RetiredReviewCheck) : Bool :=
  hasExternalId externalId entry.check

/-- The active check a publication claim names. -/
def isClaimed (pending : PendingReviewCheck) (check : ReviewCheckRecord) : Bool :=
  check.headSha == pending.check.headSha && check.externalId == pending.check.externalId

/-- The write claim is the newest one and has not lapsed. -/
def ReviewCheckRecord.writeClaimHeld (check : ReviewCheckRecord) (pending : PendingReviewCheck)
    (nowMs : ℤ) : Bool :=
  check.writeGeneration == pending.check.writeGeneration &&
    decide (check.writeClaimUntilMs > nowMs)

/-- The retired entry a terminal acknowledgement removes. -/
def isCompletedBy (pending : PendingReviewCheck) (nowMs : ℤ) (entry : RetiredReviewCheck) :
    Bool :=
  entryHasExternalId pending.check.externalId entry &&
    entry.check.writeClaimHeld pending nowMs && entry.check.checkId.isSome

namespace ReviewSchedulerState

def recordQueuedCheckId (s : ReviewSchedulerState) (pending : PendingReviewCheck) (checkId : ℕ)
    (nowMs : ℤ) : ReviewSchedulerState × Bool :=
  if pending.retired then
    match s.retiredChecks.find? (entryHasExternalId pending.check.externalId) with
    | none => (s, false)
    | some entry =>
      if entry.check.writeClaimHeld pending nowMs then
        ({ s with
            retiredChecks := updateFirst (entryHasExternalId pending.check.externalId)
              (fun entry => { entry with
                check := { entry.check with checkId := some checkId, published := true } })
              s.retiredChecks }, true)
      else (s, false)
  else
    match s.unfinished.find? (holdsExternalId pending.check.externalId) with
    | none => (s, false)
    | some job =>
      match job.reviewChecks.find? (isClaimed pending) with
      | none => (s, false)
      | some check =>
        if job.request.headSha ≠ some check.headSha ∨ check.published ∨
            ¬ check.writeClaimHeld pending nowMs then (s, false)
        else
          ({ s with
              unfinished := updateFirst (holdsExternalId pending.check.externalId)
                (ScheduledReview.updateCheck (isClaimed pending) fun check =>
                  { check with
                    checkId := some checkId
                    published := true
                    writeClaimUntilMs := 0 })
                s.unfinished }, true)

def queuedCheckClaimCurrent (s : ReviewSchedulerState) (pending : PendingReviewCheck)
    (nowMs : ℤ) : Bool :=
  if pending.retired then
    s.retiredChecks.any fun entry =>
      entryHasExternalId pending.check.externalId entry && entry.check.writeClaimHeld pending nowMs
  else
    s.unfinished.any fun job => job.reviewChecks.any fun check =>
      isClaimed pending check && job.request.headSha == some check.headSha && !check.published &&
        check.writeClaimHeld pending nowMs

/-- A claim that is still current always finds the check it marks, so only the
claim itself decides the answer. -/
def markQueuePostAttempted (s : ReviewSchedulerState) (pending : PendingReviewCheck)
    (nowMs : ℤ) : ReviewSchedulerState × Bool :=
  if pending.retired || !s.queuedCheckClaimCurrent pending nowMs then (s, false)
  else
    match s.unfinished.find? (holdsExternalId pending.check.externalId) with
    | none => (s, false)
    | some _ =>
      ({ s with
          unfinished := updateFirst (holdsExternalId pending.check.externalId)
            (ScheduledReview.updateCheck (hasExternalId pending.check.externalId) fun check =>
              { check with postAttempted := true })
            s.unfinished }, true)

def completeRetiredCheck (s : ReviewSchedulerState) (pending : PendingReviewCheck)
    (nowMs : ℤ) : ReviewSchedulerState × Bool :=
  if !pending.retired then (s, false)
  else
    match s.retiredChecks.find? (isCompletedBy pending nowMs) with
    | none => (s, false)
    | some _ =>
      ({ s with retiredChecks := s.retiredChecks.eraseP (isCompletedBy pending nowMs) }, true)

end ReviewSchedulerState

/-- The check a review owner may move to another stage. -/
def isStagedBy (owned : OwnedReview) (headSha : String) (checkId : ℕ)
    (check : ReviewCheckRecord) : Bool :=
  check.headSha == headSha && check.checkId == some checkId &&
    check.ownerGeneration == some owned.generation

namespace ReviewSchedulerState

def setCheckStage (s : ReviewSchedulerState) (owned : OwnedReview) (headSha : String)
    (checkId : ℕ) (stage : ReviewCheckStage) (nowMs : ℤ) : ReviewSchedulerState × Bool :=
  match s.unfinished.find? (ownsUnexpired owned nowMs) with
  | none => (s, false)
  | some job =>
    match job.reviewChecks.find? (isStagedBy owned headSha checkId) with
    | none => (s, false)
    | some _ =>
      ({ s with
          unfinished := updateFirst (ownsUnexpired owned nowMs)
            (ScheduledReview.updateCheck (isStagedBy owned headSha checkId) fun check =>
              { check with stage := stage })
            s.unfinished }, true)

end ReviewSchedulerState

end TinySweeper.ReviewJob
