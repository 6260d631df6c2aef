import Mathlib.Tactic

/-!
# The durable review scheduler: persisted data

The server keeps one bounded journal of accepted review work. Clocks are Unix
milliseconds in `ℤ`, counters are in `ℕ`; the saturating and wrapping operators
of the source carry their machine bounds. `sha256` stands for the digest of a
third-party crate and is applied to the text the source formats.
-/

namespace TinySweeper.ReviewJob

/-- Maximum accepted requests waiting or running across all server processes. -/
def maxUnfinishedReviews : ℕ := 260

/-- Delivery and head-state reservations within the document cap. -/
def maxTerminalReviewReservations : ℕ := 18000

/-- Paid recovery starts allowed for one accepted review. -/
def maxReviewPaidAttempts : ℕ := 5

/-- Paid starts that may be returned to one head's budget. -/
def maxReviewOwnershipRefunds : ℕ := 2 * maxReviewPaidAttempts

def reviewOwnerTtlMs : ℤ := 180000

def queueStatusClaimTtlMs : ℤ := 300000

/-- Bound on active and detached check identities. -/
def maxReviewStatusRecords : ℕ := 1024

def reviewTombstoneTtlMs : ℤ := 7 * 24 * 60 * 60 * 1000

/-- Upper bound in bytes for any persisted identifier or descriptive field. -/
def reviewJobFieldLimit : ℕ := 300

/-- `i64::saturating_add`. -/
def saturatingAddI64 (a b : ℤ) : ℤ := max (-2 ^ 63) (min (a + b) (2 ^ 63 - 1))

/-- `u64::saturating_add`. -/
def saturatingAddU64 (a b : ℕ) : ℕ := min (a + b) (2 ^ 64 - 1)

/-- `u64::wrapping_add`. -/
def wrappingAddU64 (a b : ℕ) : ℕ := (a + b) % 2 ^ 64

theorem wrappingAddU64_one_ne (a : ℕ) : wrappingAddU64 a 1 ≠ a := by
  unfold wrappingAddU64
  omega

/-- Stable identity for one accepted review request. -/
structure ReviewJobId where
  text : String
  deriving DecidableEq, Repr

inductive ReviewJobMode where
  | incremental
  | full
  deriving DecidableEq, Repr

/-- Request metadata needed to resume an accepted review. -/
structure ReviewRequest where
  id : ReviewJobId
  repo : String
  number : ℕ
  author : String
  installation : ℕ
  headSha : Option String
  delivery : Option String
  event : String
  mode : ReviewJobMode
  acceptedAtMs : ℤ
  deriving DecidableEq, Repr

/-- Whether a person explicitly asked for this review with the comment command. -/
def ReviewRequest.isExplicitRerequest (request : ReviewRequest) : Bool :=
  request.mode == .incremental && request.event == "issue_comment"

inductive Admission where
  | admitted
  | duplicate
  | full
  deriving DecidableEq, Repr

inductive PaidStart where
  | started (epoch : ℕ)
  | exhausted
  | ownershipLost
  deriving DecidableEq, Repr

inductive ReviewCheckStage where
  | queued
  | inProgress
  | completed
  deriving DecidableEq, Repr

/-- Persisted identity for a status check. -/
structure ReviewCheckRecord where
  headSha : String
  externalId : String
  checkId : Option ℕ
  stage : ReviewCheckStage
  ownerGeneration : Option ℕ
  published : Bool
  postAttempted : Bool
  writeClaimUntilMs : ℤ
  writeGeneration : ℕ
  deriving DecidableEq, Repr

/-- A request claimed by one server process and fenced by a generation. -/
structure OwnedReview where
  request : ReviewRequest
  acceptedIds : List ReviewJobId
  owner : String
  generation : ℕ
  reviewCheck : Option ReviewCheckRecord
  deriving DecidableEq, Repr

/-- A queued status publication claimed from the durable scheduler. -/
structure PendingReviewCheck where
  repo : String
  installation : ℕ
  check : ReviewCheckRecord
  reviewsAhead : ℕ
  retired : Bool
  deriving DecidableEq, Repr

/-- A headless accepted review claimed for status-only metadata resolution. -/
structure PendingReviewMetadata where
  jobId : ReviewJobId
  repo : String
  installation : ℕ
  number : ℕ
  generation : ℕ
  claimUntilMs : ℤ
  deriving DecidableEq, Repr

/-- A stale check retained until a terminal status is acknowledged. -/
structure RetiredReviewCheck where
  repo : String
  installation : ℕ
  check : ReviewCheckRecord
  deriving DecidableEq, Repr

inductive ReconciledReviewCheck where
  | ready (check : ReviewCheckRecord)
  | pending (check : ReviewCheckRecord)
  | capacityDeferred
  | terminal
  | ownershipLost
  deriving DecidableEq, Repr

inductive TerminalOutcome where
  | published
  | declined
  | superseded
  | exhausted
  | deadline
  deriving DecidableEq, Repr

/-- One unfinished scheduler record and its fenced owner, if running. -/
structure ScheduledReview where
  request : ReviewRequest
  enqueuedAtMs : ℤ
  acceptedIds : List ReviewJobId
  owner : Option String
  generation : ℕ
  ownerUntilMs : ℤ
  notBeforeMs : ℤ
  paidAttempts : ℕ
  ownershipRefunds : ℕ
  yieldRequested : Bool
  latestHeadHint : Option String
  headHistoryReservations : Option ℕ
  reviewChecks : List ReviewCheckRecord
  statusReconcileReserved : Bool
  metadataResolutionPending : Bool
  metadataClaimGeneration : ℕ
  metadataClaimUntilMs : ℤ
  deriving DecidableEq, Repr

/-- A completed ID retained to dedupe redeliveries. -/
structure ReviewTombstone where
  id : ReviewJobId
  outcome : TerminalOutcome
  expiresAtMs : ℤ
  deriving DecidableEq, Repr

/-- Current authoritative head and paid budget for one incremental PR. -/
structure IncrementalHeadBudget where
  repo : String
  number : ℕ
  headSha : String
  paidAttempts : ℕ
  ownershipRefunds : ℕ
  epoch : ℕ
  deadlineHit : Bool
  terminalOutcome : Option TerminalOutcome
  deriving DecidableEq, Repr

/-- Recent terminal history of a pull request's heads. -/
structure HeadTerminalTombstone where
  repo : String
  number : ℕ
  headSha : String
  outcome : TerminalOutcome
  expiresAtMs : ℤ
  deriving DecidableEq, Repr

/-- Whole single-document scheduler state. The default value is the empty journal. -/
structure ReviewSchedulerState where
  revision : ℕ := 0
  unfinished : List ScheduledReview := []
  terminal : List ReviewTombstone := []
  incrementalHeads : List IncrementalHeadBudget := []
  headHistory : List HeadTerminalTombstone := []
  retiredChecks : List RetiredReviewCheck := []
  deriving DecidableEq, Repr, Inhabited

/-- An unfinished incremental record of this pull request; deliveries coalesce into it. -/
def isIncrementalOf (repo : String) (number : ℕ) (record : ScheduledReview) : Bool :=
  record.request.mode == .incremental && record.request.repo == repo &&
    record.request.number == number

def IncrementalHeadBudget.isFor (budget : IncrementalHeadBudget) (repo : String) (number : ℕ) :
    Bool :=
  budget.repo == repo && budget.number == number

/-- An unexpired historical result for exactly this head. -/
def HeadTerminalTombstone.marks (entry : HeadTerminalTombstone) (repo : String) (number : ℕ)
    (headSha : String) (nowMs : ℤ) : Bool :=
  entry.repo == repo && entry.number == number && entry.headSha == headSha &&
    decide (entry.expiresAtMs > nowMs)

/-- The terminal result a budget already carries; a bare deadline marker counts as one. -/
def IncrementalHeadBudget.existingTerminal (budget : IncrementalHeadBudget) :
    Option TerminalOutcome :=
  budget.terminalOutcome <|> (if budget.deadlineHit then some .deadline else none)

/-- Whether an incremental request's head already has a terminal result, either
as the pull request's confirmed head or in recent head history. -/
def headIsKnownTerminal (heads : List IncrementalHeadBudget)
    (history : List HeadTerminalTombstone) (request : ReviewRequest) (nowMs : ℤ) : Bool :=
  match request.headSha with
  | none => false
  | some head =>
    request.mode == .incremental &&
      (heads.any (fun budget => budget.isFor request.repo request.number &&
          budget.headSha == head && (budget.deadlineHit || budget.terminalOutcome.isSome)) ||
        history.any (fun entry => entry.marks request.repo request.number head nowMs))

def owns (record : ScheduledReview) (owned : OwnedReview) : Bool :=
  record.request.id == owned.request.id && record.owner == some owned.owner &&
    record.generation == owned.generation

/-- The fence of every owner operation: the handle is current and its lease unexpired. -/
def ownsUnexpired (owned : OwnedReview) (nowMs : ℤ) (record : ScheduledReview) : Bool :=
  owns record owned && decide (record.ownerUntilMs > nowMs)

/-- Two lower-case hexadecimal digits. -/
def hexByte (byte : UInt8) : String :=
  String.ofList [Nat.digitChar (byte.toNat / 16), Nat.digitChar (byte.toNat % 16)]

/-- Stable key of the check that reports on one head of one job. -/
def queuedCheckExternalId (sha256 : String → List UInt8) (job : ReviewJobId) (headSha : String) :
    String :=
  "tinysweeper:review:" ++ String.join ((sha256 (job.text ++ "\x00" ++ headSha)).map hexByte)

/-- A queued check nobody has published yet. -/
def queuedCheck (sha256 : String → List UInt8) (job : ReviewJobId) (headSha : String)
    (ownerGeneration : Option ℕ) : ReviewCheckRecord where
  headSha := headSha
  externalId := queuedCheckExternalId sha256 job headSha
  checkId := none
  stage := .queued
  ownerGeneration := ownerGeneration
  published := false
  postAttempted := false
  writeClaimUntilMs := 0
  writeGeneration := 0

/-- Byte length of a persisted text, as `str::len` measures it. -/
def bounded (text : String) : Bool := decide (text.utf8ByteSize ≤ reviewJobFieldLimit)

def metadataIsBounded (request : ReviewRequest) : Bool :=
  bounded request.id.text && bounded request.repo && bounded request.author &&
    request.headSha.all bounded && request.delivery.all bounded && bounded request.event

end TinySweeper.ReviewJob
