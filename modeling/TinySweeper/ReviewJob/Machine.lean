import TinySweeper.Runs
import TinySweeper.ReviewJob.Ownership

/-!
# The scheduler as a machine

One operation of the port at one clock value is one event. A run starts in the
empty journal; whether its clock may go back is part of the guard of each result.
-/

namespace TinySweeper.ReviewJob

open Runs

inductive Operation where
  | normalizeLegacyRecords
  | admitBatch (requests : List ReviewRequest)
  | claimPendingChecks (limit : ℕ)
  | claimPendingMetadata (limit : ℕ)
  | resolvePendingMetadata (pending : PendingReviewMetadata) (headSha : String)
      (isOpen draft : Bool)
  | recordQueuedCheckId (pending : PendingReviewCheck) (checkId : ℕ)
  | markQueuePostAttempted (pending : PendingReviewCheck)
  | completeRetiredCheck (pending : PendingReviewCheck)
  | setCheckStage (owned : OwnedReview) (headSha : String) (checkId : ℕ)
      (stage : ReviewCheckStage)
  | claimNextWithLimit (owner : String) (limit : ℕ)
  | beginPaid (owned : OwnedReview)
  | refundPaid (owned : OwnedReview) (headSha : String) (epoch : ℕ)
  | confirmHead (owned : OwnedReview) (headSha : String)
  | reconcileLiveCheck (owned : OwnedReview) (headSha : String)
  | renew (owned : OwnedReview)
  | defer (owned : OwnedReview) (notBeforeMs : ℤ)
  | deferYield (owned : OwnedReview)
  | finish (owned : OwnedReview) (outcome : TerminalOutcome) (completedAtMs : ℤ)
  | finishWithYield (owned : OwnedReview) (outcome : TerminalOutcome)
  | finishDeadline (owned : OwnedReview)
  deriving DecidableEq, Repr

/-- What an operation answers its caller. -/
inductive Reply where
  | none
  | admission (answer : Admission)
  | checks (claims : List PendingReviewCheck)
  | metadata (claims : List PendingReviewMetadata)
  | accepted (answer : Bool)
  | claimed (owned : Option OwnedReview)
  | paid (start : PaidStart)
  | reconciled (check : ReconciledReviewCheck)
  deriving DecidableEq, Repr

structure Event where
  nowMs : ℤ
  operation : Operation
  deriving DecidableEq, Repr

variable (sha256 : String → List UInt8)

def perform (s : ReviewSchedulerState) (e : Event) : ReviewSchedulerState × Reply :=
  match e.operation with
  | .normalizeLegacyRecords => (s.normalizeLegacyRecords, .none)
  | .admitBatch requests =>
    let r := s.admitBatch sha256 requests e.nowMs; (r.1, .admission r.2)
  | .claimPendingChecks limit => let r := s.claimPendingChecks e.nowMs limit; (r.1, .checks r.2)
  | .claimPendingMetadata limit =>
    let r := s.claimPendingMetadata e.nowMs limit; (r.1, .metadata r.2)
  | .resolvePendingMetadata pending headSha isOpen draft =>
    let r := s.resolvePendingMetadata sha256 pending headSha isOpen draft e.nowMs
    (r.1, .accepted r.2)
  | .recordQueuedCheckId pending checkId =>
    let r := s.recordQueuedCheckId pending checkId e.nowMs; (r.1, .accepted r.2)
  | .markQueuePostAttempted pending =>
    let r := s.markQueuePostAttempted pending e.nowMs; (r.1, .accepted r.2)
  | .completeRetiredCheck pending =>
    let r := s.completeRetiredCheck pending e.nowMs; (r.1, .accepted r.2)
  | .setCheckStage owned headSha checkId stage =>
    let r := s.setCheckStage owned headSha checkId stage e.nowMs; (r.1, .accepted r.2)
  | .claimNextWithLimit owner limit =>
    let r := s.claimNextWithLimit owner e.nowMs limit; (r.1, .claimed r.2)
  | .beginPaid owned => let r := s.beginPaid owned e.nowMs; (r.1, .paid r.2)
  | .refundPaid owned headSha epoch =>
    let r := s.refundPaid owned headSha epoch e.nowMs; (r.1, .accepted r.2)
  | .confirmHead owned headSha => let r := s.confirmHead owned headSha e.nowMs; (r.1, .accepted r.2)
  | .reconcileLiveCheck owned headSha =>
    let r := s.reconcileLiveCheck sha256 owned headSha e.nowMs; (r.1, .reconciled r.2)
  | .renew owned => let r := s.renew owned e.nowMs; (r.1, .accepted r.2)
  | .defer owned notBeforeMs => let r := s.defer owned e.nowMs notBeforeMs; (r.1, .accepted r.2)
  | .deferYield owned => let r := s.deferYield owned e.nowMs; (r.1, .accepted r.2)
  | .finish owned outcome completedAtMs =>
    let r := s.finish owned outcome e.nowMs completedAtMs; (r.1, .accepted r.2)
  | .finishWithYield owned outcome =>
    let r := s.finishWithYield owned outcome e.nowMs; (r.1, .accepted r.2)
  | .finishDeadline owned => let r := s.finishDeadline owned e.nowMs; (r.1, .accepted r.2)

/-- The journal and the clock of the last operation. -/
structure Clocked where
  state : ReviewSchedulerState
  nowMs : ℤ
  deriving DecidableEq, Repr

def Clocked.start (nowMs : ℤ) : Clocked := ⟨{}, nowMs⟩

def tick (c : Clocked) (e : Event) : Clocked := ⟨(perform sha256 c.state e).1, e.nowMs⟩

/-- Runs whose every event meets the guard; the clock may take any values. -/
def IsRun (guard : ReviewSchedulerState → Event → Prop) (c : Clocked) (events : List Event) :
    Prop :=
  Guarded (tick sha256) (fun c e => guard c.state e) c events

/-- Runs with a non-decreasing clock. -/
def IsTimedRun (guard : ReviewSchedulerState → Event → Prop) (c : Clocked)
    (events : List Event) : Prop :=
  Guarded (tick sha256) (fun c e => c.nowMs ≤ e.nowMs ∧ guard c.state e) c events

instance (guard : ReviewSchedulerState → Event → Prop) [∀ s e, Decidable (guard s e)]
    (c : Clocked) (events : List Event) : Decidable (IsRun sha256 guard c events) :=
  inferInstanceAs (Decidable (Guarded _ _ _ _))

instance (guard : ReviewSchedulerState → Event → Prop) [∀ s e, Decidable (guard s e)]
    (c : Clocked) (events : List Event) : Decidable (IsTimedRun sha256 guard c events) :=
  inferInstanceAs (Decidable (Guarded _ _ _ _))

abbrev after (c : Clocked) (events : List Event) : Clocked := exec (tick sha256) c events

variable {sha256}

theorem after_append (c : Clocked) (before rest : List Event) :
    after sha256 c (before ++ rest) = after sha256 (after sha256 c before) rest :=
  exec_append _ _ _ _

/-- What every operation preserves holds after every run. -/
theorem after_invariant {I : ReviewSchedulerState → Prop}
    (hstep : ∀ s e, I s → I (perform sha256 s e).1) {c : Clocked} (hc : I c.state)
    (events : List Event) : I (after sha256 c events).state :=
  exec_invariant (I := fun c : Clocked => I c.state) (fun c e h => hstep c.state e h) hc events

/-- What every guarded operation preserves holds after every guarded run. -/
theorem IsRun.invariant {guard : ReviewSchedulerState → Event → Prop}
    {I : ReviewSchedulerState → Prop}
    (hstep : ∀ s e, I s → guard s e → I (perform sha256 s e).1) {c : Clocked} (hc : I c.state)
    {events : List Event} (h : IsRun sha256 guard c events) : I (after sha256 c events).state :=
  Guarded.invariant (I := fun c : Clocked => I c.state) (fun c e h => hstep c.state e h) hc h

/-- Pull request deliveries of one pull request, for the closed instances of the results. -/
def push (id headSha : String) : ReviewRequest where
  id := ⟨id⟩
  repo := "owner/repo"
  number := 7
  author := "dev"
  installation := 1
  headSha := some headSha
  delivery := some id
  event := "pull_request"
  mode := .incremental
  acceptedAtMs := 0

/-- The digest on the identities those deliveries give rise to. -/
def sampleSha256 (text : String) : List UInt8 :=
  let digest := (samples.lookup text).getD 0
  (List.range 32).map fun i => UInt8.ofNat (digest / 256 ^ (31 - i))
where
  samples : List (String × ℕ) :=
    [("a\x00A", 0x2cfebc6efe2a2fff4eb90abd58b712db8914173a92ccec5bb730398d797ef7fa),
     ("a\x00B", 0xb8f5ef6e8c5a3d996619f7c18835e0912373788d34502076ff20c3a7aa874b0c),
     ("a\x00C", 0x5342191bb9e948704b75e5b21243b87e4746e3650e12cb603447e877c4be0a7d),
     ("b\x00A", 0xf43649da1eb5a67a9767688d06ddfafd8dcb9683db68cb9de508f828decb4202),
     ("b\x00B", 0x94963daa7bf55874b0a1dd10c9b263e88b5cbd5dd5c04c0aae4125495395dcec),
     ("d\x00D", 0x4b4323ba54ef05bb4d5ca73de06e2919575d985f77da7cac7c5cb3f81c71b239)]

/-- The publication claim of a sample delivery's queued check. -/
def sampleClaim (id headSha : String) (nowMs : ℤ) : PendingReviewCheck where
  repo := "owner/repo"
  installation := 1
  check := (queuedCheck sampleSha256 ⟨id⟩ headSha none).claimWrite nowMs
  reviewsAhead := 0
  retired := false

/-- The handle a sample worker holds; the fence reads these fields only. -/
def sampleHandle (request : ReviewRequest) (owner : String) (generation : ℕ) : OwnedReview where
  request := request
  acceptedIds := [request.id]
  owner := owner
  generation := generation
  reviewCheck := none

/-- A review owned by `w1` after its queued check was published. -/
def ownedReview (request : ReviewRequest) : List Event :=
  [⟨1, .admitBatch [request]⟩, ⟨2, .claimPendingChecks 5⟩,
    ⟨3, .recordQueuedCheckId (sampleClaim "a" "A" 2) 11⟩, ⟨4, .claimNextWithLimit "w1" 4⟩]

end TinySweeper.ReviewJob
