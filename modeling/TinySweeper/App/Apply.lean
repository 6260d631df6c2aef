import TinySweeper.App.InlineComments
import TinySweeper.App.Proposal
import TinySweeper.App.Verdict
import TinySweeper.Forge.Reviews

/-!
# Publishing a proposal

A call reads what stands, decides how the review is submitted, withdraws an approval
it cannot vouch for, submits a review unless that would only repeat what is known,
and records what it published. Checks, threads, labels and the other comments are
written too; of these only whether they fail the call is modelled.
-/

namespace TinySweeper.App

open Text Evidence Findings Forge
open Scan (Severity)

section Decision

variable {κ : Type}

/-- The findings that become a conversation of their own. -/
def Proposal.findings (p : Proposal κ) : List (Finding κ) :=
  (p.lanes.flatMap (·.findings)).filter fun finding => !finding.grouped

/-- How to submit the review. -/
def reviewEvent (config : Config κ) (p : Proposal κ) (previous : Option ReviewEvent)
    (draft : Bool) : ReviewEvent :=
  if requestsChanges config p.lanes then .requestChanges
  else if !draft && !p.blocked && p.complete && config.approveWhenClean then .approve
  else if previous = some .requestChanges && p.complete then .approve
  else .comment

/-- Every lane must carry its identities for the comparison to be trusted. -/
def blockingFindingSet (p : Proposal κ) : Option (Finset Text) :=
  if p.lanes.all fun lane => lane.blockingFindings.isSome then
    some (p.lanes.flatMap fun lane => lane.blockingFindings.getD []).toFinset
  else none

end Decision

/-- A published decision, used to suppress identical repeats. -/
structure PublishedReview where
  event : ReviewEvent
  headSha : Text
  blockingFindings : Finset Text
  standingReview : Option OwnReview
  coverageComplete : Option Bool
  deriving DecidableEq

structure ReviewedState where
  publishedReview : Option PublishedReview
  deriving DecidableEq

/-- What a call has read before it decides. -/
structure Situation (κ : Type) where
  config : Config κ
  proposal : Proposal κ
  draft : Bool
  previousReview : Option OwnReview
  previousKnown : Bool
  publishedBefore : Option PublishedReview
  comments : List ReviewComment

namespace Situation

variable {κ : Type} (s : Situation κ)

def previous : Option ReviewEvent := s.previousReview.map OwnReview.event

def event : ReviewEvent := reviewEvent s.config s.proposal s.previous s.draft

def samePublishedDecision : Bool :=
  s.publishedBefore.any fun published =>
    (blockingFindingSet s.proposal).any fun blocking =>
      published.event = s.event && published.blockingFindings = blocking

def sameStandingReview : Bool :=
  s.previousKnown && s.publishedBefore.any fun published =>
    match s.event with
    | .approve | .requestChanges =>
      s.previousReview.any fun review =>
        review.event = s.event && review.headSha = some published.headSha
    | .comment =>
      match published.standingReview, s.previousReview with
      | some expected, some actual => expected = actual
      -- Without a standing snapshot only a live comment on the published head is evidence.
      | none, some actual => actual.event = .comment && actual.headSha = some published.headSha
      | _, none => false

/-- An approval is repeated only for another commit. -/
def redundantApproval : Bool :=
  s.event = .approve && s.previous = some .approve &&
    (s.previousReview.bind OwnReview.headSha) = some s.proposal.headSha && s.comments.isEmpty

/-- The same decision was published, and stands. -/
def redundantDecision : Bool :=
  s.samePublishedDecision && s.sameStandingReview &&
    match s.event with
    | .approve => s.proposal.complete
    | .requestChanges => true
    | .comment =>
      (s.publishedBefore.bind PublishedReview.coverageComplete) = some s.proposal.complete

/-- A push this review could not vouch for. -/
def unvouched : Bool := !s.proposal.complete && s.proposal.skipped.isNone

/-- Whether a standing approval has to be withdrawn. -/
def withdraws : Bool :=
  s.unvouched && s.event = .comment && (s.previous = some .approve || !s.previousKnown)

def mustSay : Bool := !s.proposal.answered || s.proposal.version ≠ PROPOSAL_VERSION

/-- Whether a review is submitted. -/
def posts : Bool :=
  !s.redundantApproval && !s.redundantDecision &&
    (!s.comments.isEmpty || s.event = .approve || s.event = .requestChanges || s.mustSay)

/-- The forge state that should still stand after the review. -/
def standingReviewAfterSuccess (withdrawalFailed : Bool) : Option OwnReview :=
  let fresh : Option OwnReview := some ⟨s.event, some s.proposal.headSha⟩
  if s.event = .comment then
    if !s.previousKnown then none
    else
      match s.previousReview with
      | some previous =>
        if previous.event = .requestChanges ||
            (previous.event = .approve && (!s.unvouched || withdrawalFailed)) then
          some previous
        else fresh
      | none => fresh
  else fresh

/-- The receipt of a submitted review. -/
def publication (withdrawalFailed : Bool) : Option PublishedReview :=
  (blockingFindingSet s.proposal).map fun blocking =>
    { event := s.event
      headSha := s.proposal.headSha
      blockingFindings := blocking
      standingReview := s.standingReviewAfterSuccess withdrawalFailed
      coverageComplete := some s.proposal.complete }

end Situation

inductive ApplyDisposition where
  | published
  | superseded
  | closed
  deriving DecidableEq, Repr

/-- The step a call failed at. -/
inductive ApplyFailure where
  | pullRequest
  | check
  | changedFiles
  | review
  | triage
  | withdrawal
  deriving DecidableEq, Repr

structure LivePull where
  isOpen : Bool
  merged : Bool
  headSha : Text
  draft : Bool
  deriving DecidableEq, Repr

/-- What the forge and the store answer during one call. A call without a store loads nothing. -/
structure Answers where
  live : Option LivePull
  checks : Bool
  history : Bool
  loaded : Bool
  files : Option (List ChangedFile)
  dismissed : Bool
  created : Bool
  reviewId : ℕ
  reloaded : Bool
  saved : Bool
  triaged : Bool

/-- The reviews on the forge, and the stored state of the pull request. -/
structure World where
  reviews : List Review
  stored : Option ReviewedState
  deriving DecidableEq

structure Applied where
  world : World
  result : Except ApplyFailure ApplyDisposition
  reviewPublished : Bool

section Apply

variable {κ : Type} [Confidence κ] (isAlphanumeric : Char → Bool) (sha256 : Text → List UInt8)
variable (account : Account) (config : Config κ) (p : Proposal κ) (answers : Answers) (w : World)

/-- Record what was published over what the store holds. -/
def recordApplyState (publication : Option PublishedReview) (stored : Option ReviewedState) :
    Option ReviewedState :=
  if answers.reloaded && answers.saved then
    let state := stored.getD ⟨none⟩
    some ⟨publication.or state.publishedReview⟩
  else stored

/-- What the call has read. -/
def situation (live : LivePull) (files : List ChangedFile) : Situation κ where
  config
  proposal := p
  draft := live.draft
  previousReview := if answers.history then ownReviewState account w.reviews else none
  previousKnown := answers.history
  publishedBefore := if answers.loaded then w.stored.bind ReviewedState.publishedReview else none
  comments := inlineComments isAlphanumeric sha256 p.findings files

/-- Withdraw, submit and record. -/
def publish (s : Situation κ) : Applied :=
  let withdrawn :=
    if s.withdraws && answers.dismissed then dismissOwnApproval account w.reviews else w.reviews
  let withdrawalFailed := s.withdraws && !answers.dismissed
  if s.posts && !answers.created then
    ⟨{ w with reviews := withdrawn }, .error .review, false⟩
  else
    let reviews :=
      if s.posts then withdrawn ++ [submitted account answers.reviewId s.event s.proposal.headSha]
      else withdrawn
    let publication := if s.posts then s.publication withdrawalFailed else none
    let world : World := ⟨reviews, recordApplyState answers publication w.stored⟩
    if !answers.triaged then ⟨world, .error .triage, s.posts⟩
    else if withdrawalFailed then ⟨world, .error .withdrawal, s.posts⟩
    else ⟨world, .ok .published, s.posts⟩

/-- Publish a proposal. -/
def apply : Applied :=
  match answers.live with
  | none => ⟨w, .error .pullRequest, false⟩
  | some live =>
    if !live.isOpen || live.merged then ⟨w, .ok .closed, false⟩
    else if live.headSha ≠ p.headSha then ⟨w, .ok .superseded, false⟩
    else if !answers.checks then ⟨w, .error .check, false⟩
    else
      match answers.files with
      | none => ⟨w, .error .changedFiles, false⟩
      | some files =>
        publish account answers w
          (situation isAlphanumeric sha256 account config p answers w live files)

end Apply

end TinySweeper.App
