import TinySweeper.ReviewJob.Quiet

/-!
# What one operation can do

Every operation that is not quiet is a chain of effects, each an edit of one record,
one budget or one expiry sweep. An invariant is proved for each effect and then holds
of every operation; the constructors carry the guards of the source the proofs need.
-/

namespace TinySweeper.ReviewJob

open FirstMatch

/-- Every id the journal accounts for: accepted by unfinished work or tombstoned. -/
def ReviewSchedulerState.ids (s : ReviewSchedulerState) : List ReviewJobId :=
  s.unfinished.flatMap (fun record => record.acceptedIds) ++ s.terminal.map fun record => record.id

theorem isKnownId_iff (s : ReviewSchedulerState) (id : ReviewJobId) :
    s.isKnownId id = true ↔ id ∈ s.ids := by
  simp [ReviewSchedulerState.isKnownId, ReviewSchedulerState.ids]

/-- How an admitted delivery changes the record it coalesces into. -/
inductive JoinStep (sha256 : String → List UInt8) (request : ReviewRequest) :
    ScheduledReview → ScheduledReview → List RetiredReviewCheck → Prop
  | keep {record} (hkeep : keepsAcceptedHead request record = true) :
      JoinStep sha256 request record (record.acceptId request.id) []
  | coalesce {record} (hkeep : keepsAcceptedHead request record = false) :
      JoinStep sha256 request record (record.coalesce sha256 request).1
        (record.coalesce sha256 request).2

/-- The operations that complete a record or settle its head. -/
def Operation.finishes : Operation → Bool
  | .finish _ _ _ | .finishWithYield _ _ | .finishDeadline _ => true
  | _ => false

/-- The operations of paid accounting. -/
def Operation.isPaid : Operation → Bool
  | .beginPaid _ | .refundPaid _ _ _ => true
  | _ => false

/-- The operations that queue checks under an identity of their own. -/
def Operation.mints : Operation → Bool
  | .admitBatch _ | .resolvePendingMetadata _ _ _ _ | .reconcileLiveCheck _ _ => true
  | _ => false

/-- Binding an owner to a head, directly or as part of reconciliation. -/
def Operation.confirms (operation : Operation) (owned : OwnedReview) (headSha : String) : Prop :=
  operation = .confirmHead owned headSha ∨ operation = .reconcileLiveCheck owned headSha

/-- How any other operation changes one record that stays unfinished. -/
inductive RecordStep (sha256 : String → List UInt8) (e : Event) :
    ScheduledReview → ScheduledReview → List RetiredReviewCheck → Prop
  | resolve {job pending headSha isOpen draft}
      (hop : e.operation = .resolvePendingMetadata pending headSha isOpen draft)
      (hclaim : holdsMetadataClaim pending e.nowMs job = true) :
      RecordStep sha256 e job (job.resolveHead sha256 headSha) []
  | claim {record owner limit} (hop : e.operation = .claimNextWithLimit owner limit)
      (hfree : record.owner = none ∨ record.ownerUntilMs ≤ e.nowMs)
      (hready : record.metadataResolutionPending = false) :
      RecordStep sha256 e record (record.claim owner e.nowMs) []
  | renew {record owned} (howns : ownsUnexpired owned e.nowMs record = true) :
      RecordStep sha256 e record { record with ownerUntilMs := e.nowMs + reviewOwnerTtlMs } []
  | pay {record} (paidAttempts ownershipRefunds : ℕ) (hop : e.operation.isPaid = true) :
      RecordStep sha256 e record
        { record with paidAttempts := paidAttempts, ownershipRefunds := ownershipRefunds } []
  | bind {record owned headSha} (hop : e.operation.confirms owned headSha)
      (howns : ownsUnexpired owned e.nowMs record = true) :
      RecordStep sha256 e record (record.withHead (some headSha)) []
  | spend {record owned headSha} (hop : e.operation.confirms owned headSha)
      (howns : ownsUnexpired owned e.nowMs record = true) :
      RecordStep sha256 e record (record.spendReservation.withHead (some headSha)) []
  | conclude {record owned headSha} (hop : e.operation = .reconcileLiveCheck owned headSha)
      (howns : ownsUnexpired owned e.nowMs record = true) :
      RecordStep sha256 e record
        (detachChecksExcept (record.withHead (some headSha)) (some headSha)).1
        (detachChecksExcept (record.withHead (some headSha)) (some headSha)).2
  | rebind {record owned headSha} (hop : e.operation = .reconcileLiveCheck owned headSha)
      (howns : ownsUnexpired owned e.nowMs record = true) :
      RecordStep sha256 e record
        ((detachChecksExcept (record.withHead (some headSha)) (some headSha)).1.bindCheck
          sha256 headSha owned.generation).1
        (detachChecksExcept (record.withHead (some headSha)) (some headSha)).2
  | release {record owned notBeforeMs} (howns : ownsUnexpired owned e.nowMs record = true)
      (hyield : record.yieldRequested = false) :
      RecordStep sha256 e record (record.release notBeforeMs) []
  | yieldTo {record owned notBeforeMs preserveStatusHead}
      (howns : ownsUnexpired owned e.nowMs record = true)
      (hyield : record.yieldRequested = true)
      (hpreserve : preserveStatusHead = none ∨ e.operation.finishes = true) :
      RecordStep sha256 e record (record.yieldTo notBeforeMs preserveStatusHead).1
        (record.yieldTo notBeforeMs preserveStatusHead).2

/-- One elementary change of the journal under an event that is not quiet. -/
inductive Effect (sha256 : String → List UInt8) (e : Event) :
    ReviewSchedulerState → ReviewSchedulerState → Prop
  | normalize {s} : Effect sha256 e s s.normalizeLegacyRecords
  | prune {s requests} (hop : e.operation = .admitBatch requests) :
      Effect sha256 e s (s.pruneExpired e.nowMs)
  | pruneHistory {s} : Effect sha256 e s (s.pruneHistory e.nowMs)
  | rearm {s requests} (request : ReviewRequest) (hop : e.operation = .admitBatch requests)
      (hmem : request ∈ requests) (hexplicit : request.isExplicitRerequest = true) :
      Effect sha256 e s (s.rearmFailedHead request.repo request.number)
  | enqueue {s requests request} (hop : e.operation = .admitBatch requests)
      (hmem : request ∈ requests) (hnone : s.coalesceTarget request = none)
      (hfresh : request.id ∉ s.ids) :
      Effect sha256 e s
        { s with unfinished := s.unfinished ++ [ScheduledReview.enqueue sha256 request] }
  | join {s requests request record record' unfinished detached}
      (hop : e.operation = .admitBatch requests) (hmem : request ∈ requests)
      (hrepl : Replaced s.unfinished unfinished record record')
      (htarget : s.coalesceTarget request = some record)
      (hstep : JoinStep sha256 request record record' detached) (hfresh : request.id ∉ s.ids) :
      Effect sha256 e s
        { s with unfinished := unfinished, retiredChecks := s.retiredChecks ++ detached }
  | record {s record record' unfinished detached}
      (hrepl : Replaced s.unfinished unfinished record record')
      (hstep : RecordStep sha256 e record record' detached) :
      Effect sha256 e s
        { s with unfinished := unfinished, retiredChecks := s.retiredChecks ++ detached }
  | moveBudget {s repo number current owned headSha} (hop : e.operation.confirms owned headSha)
      (hfind : s.budgetOf repo number = some current)
      (hne : current.headSha ≠ headSha) :
      Effect sha256 e s (s.moveBudget current repo number headSha e.nowMs)
  | openBudget {s record owned headSha} (hop : e.operation.confirms owned headSha)
      (hmem : record ∈ s.unfinished)
      (hmode : record.request.mode = .incremental)
      (hnone : s.budgetOf record.request.repo record.request.number = none) :
      Effect sha256 e s
        { s with incrementalHeads := s.incrementalHeads ++
          [{ repo := record.request.repo
             number := record.request.number
             headSha := headSha
             paidAttempts := record.paidAttempts
             ownershipRefunds := 0
             epoch := 0
             deadlineHit := false
             terminalOutcome := none }] }
  | payBudget {s budget heads} (paidAttempts ownershipRefunds : ℕ)
      (hop : e.operation.isPaid = true)
      (hrepl : Replaced s.incrementalHeads heads budget
        { budget with paidAttempts := paidAttempts, ownershipRefunds := ownershipRefunds }) :
      Effect sha256 e s { s with incrementalHeads := heads }
  | settle {s} (record : ScheduledReview) (outcome : TerminalOutcome)
      (hop : e.operation.finishes = true) : Effect sha256 e s (s.settleHead record outcome)
  | complete {s record unfinished outcome expiresAtMs} (hop : e.operation.finishes = true)
      (hrem : Removed s.unfinished unfinished record) :
      Effect sha256 e s
        { s with
          unfinished := unfinished
          retiredChecks := (record.reviewChecks.filter (needsRetirement record outcome)).foldl
            (retireCheck record) s.retiredChecks
          terminal := s.terminal ++ tombstones record.acceptedIds outcome expiresAtMs }
  | decline {s job unfinished pending headSha isOpen draft expiresAtMs}
      (hop : e.operation = .resolvePendingMetadata pending headSha isOpen draft)
      (hrem : Removed s.unfinished unfinished job)
      (hclaim : holdsMetadataClaim pending e.nowMs job = true) :
      Effect sha256 e s
        { s with
          unfinished := unfinished
          terminal := s.terminal ++ tombstones job.acceptedIds .declined expiresAtMs }
  | acknowledge {s entry retiredChecks pending}
      (hop : e.operation = .completeRetiredCheck pending)
      (hrem : Removed s.retiredChecks retiredChecks entry)
      (hdone : isCompletedBy pending e.nowMs entry = true) :
      Effect sha256 e s { s with retiredChecks := retiredChecks }

abbrev Effects (sha256 : String → List UInt8) (e : Event) :
    ReviewSchedulerState → ReviewSchedulerState → Prop :=
  Relation.ReflTransGen (Effect sha256 e)

variable {sha256 : String → List UInt8} {e : Event} {s : ReviewSchedulerState}
variable {owned : OwnedReview} {headSha : String} {request : ReviewRequest}
variable {requests : List ReviewRequest}

theorem Effect.chain {s s' : ReviewSchedulerState} (h : Effect sha256 e s s') :
    Effects sha256 e s s' :=
  .single h

/-- A record edit without detached checks. -/
theorem Effect.record_nil {record record' : ScheduledReview} {unfinished : List ScheduledReview}
    (hrepl : Replaced s.unfinished unfinished record record')
    (hstep : RecordStep sha256 e record record' []) :
    Effect sha256 e s { s with unfinished := unfinished } := by
  have h := Effect.record hrepl hstep
  rwa [List.append_nil] at h

theorem ownsUnexpired_iff {nowMs : ℤ} {record : ScheduledReview} :
    ownsUnexpired owned nowMs record = true ↔
      owns record owned = true ∧ record.ownerUntilMs > nowMs := by
  simp [ownsUnexpired]

theorem owns_iff {record : ScheduledReview} :
    owns record owned = true ↔ record.request.id = owned.request.id ∧
      record.owner = some owned.owner ∧ record.generation = owned.generation := by
  simp [owns, and_assoc]

theorem ownsUnexpired_owner {nowMs : ℤ} {record : ScheduledReview}
    (h : ownsUnexpired owned nowMs record = true) : record.owner = some owned.owner :=
  (owns_iff.mp (ownsUnexpired_iff.mp h).1).2.1

theorem coalesceTarget_eq_some {record : ScheduledReview}
    (h : s.coalesceTarget request = some record) : request.mode = .incremental ∧
      s.unfinished.find? (isIncrementalOf request.repo request.number) = some record := by
  unfold ReviewSchedulerState.coalesceTarget at h
  split_ifs at h with hmode
  exact ⟨hmode, h⟩

theorem isIncrementalOf_iff {repo : String} {number : ℕ} {record : ScheduledReview} :
    isIncrementalOf repo number record = true ↔ record.request.mode = .incremental ∧
      record.request.repo = repo ∧ record.request.number = number := by
  simp [isIncrementalOf, and_assoc]

theorem holdsMetadataClaim_iff {pending : PendingReviewMetadata} {nowMs : ℤ}
    {job : ScheduledReview} : holdsMetadataClaim pending nowMs job = true ↔
      job.request.id = pending.jobId ∧ job.metadataResolutionPending = true ∧
        job.request.headSha = none ∧ job.owner = none ∧
        job.metadataClaimGeneration = pending.generation ∧ job.metadataClaimUntilMs > nowMs := by
  simp [holdsMetadataClaim, and_assoc]

theorem normalizeLegacyRecords_effects : Effects sha256 e s s.normalizeLegacyRecords :=
  Effect.normalize.chain

theorem resolvePendingMetadata_effects {pending : PendingReviewMetadata} {isOpen draft : Bool}
    (hop : e.operation = .resolvePendingMetadata pending headSha isOpen draft) :
    Effects sha256 e s (s.resolvePendingMetadata sha256 pending headSha isOpen draft e.nowMs).1 := by
  unfold ReviewSchedulerState.resolvePendingMetadata
  cases hfind : s.unfinished.find? (holdsMetadataClaim pending e.nowMs) with
  | none => exact .refl
  | some job =>
    have hclaim := List.find?_some hfind
    dsimp only
    split_ifs
    · exact (Effect.decline hop (eraseP_removed hfind) hclaim).chain
    · exact (Effect.record_nil (updateFirst_replaced _ hfind) (.resolve hop hclaim)).chain

theorem completeRetiredCheck_effects {pending : PendingReviewCheck}
    (hop : e.operation = .completeRetiredCheck pending) :
    Effects sha256 e s (s.completeRetiredCheck pending e.nowMs).1 := by
  unfold ReviewSchedulerState.completeRetiredCheck
  split_ifs
  · exact .refl
  cases hfind : s.retiredChecks.find? (isCompletedBy pending e.nowMs) with
  | none => exact .refl
  | some entry =>
    exact (Effect.acknowledge hop (eraseP_removed hfind) (List.find?_some hfind)).chain

theorem claimNextWithLimit_effects {owner : String} {limit : ℕ}
    (hop : e.operation = .claimNextWithLimit owner limit) :
    Effects sha256 e s (s.claimNextWithLimit owner e.nowMs limit).1 := by
  unfold ReviewSchedulerState.claimNextWithLimit
  split_ifs
  · exact .refl
  cases hfind : s.unfinished.find? (isEligible s e.nowMs) with
  | none => exact .refl
  | some record =>
    have heligible := List.find?_some hfind
    simp only [isEligible, Bool.and_eq_true, Bool.or_eq_true, decide_eq_true_eq,
      Option.isNone_iff_eq_none, Bool.not_eq_true'] at heligible
    exact (Effect.record_nil (updateFirst_replaced _ hfind)
      (.claim hop heligible.1.1.2 heligible.1.2)).chain

theorem JoinStep.acceptedIds {record record' : ScheduledReview} {detached : List RetiredReviewCheck}
    (h : JoinStep sha256 request record record' detached) :
    record'.acceptedIds = record.acceptedIds ++ [request.id] := by
  cases h with
  | keep => rfl
  | coalesce =>
    unfold ScheduledReview.coalesce
    dsimp only
    split_ifs <;> rfl

theorem enqueue_ids (request : ReviewRequest) :
    ({ s with unfinished := s.unfinished ++ [ScheduledReview.enqueue sha256 request] } :
      ReviewSchedulerState).ids.Perm (request.id :: s.ids) := by
  simp only [ReviewSchedulerState.ids, List.flatMap_append, List.append_assoc]
  exact List.perm_middle

theorem join_ids {record record' : ScheduledReview} {unfinished : List ScheduledReview}
    {detached : List RetiredReviewCheck} (hrepl : Replaced s.unfinished unfinished record record')
    (hstep : JoinStep sha256 request record record' detached) :
    ({ s with unfinished := unfinished, retiredChecks := s.retiredChecks ++ detached } :
      ReviewSchedulerState).ids.Perm (request.id :: s.ids) := by
  obtain ⟨rest, hold, hnew⟩ := hrepl.flatMap_perm fun record => record.acceptedIds
  rw [hstep.acceptedIds, List.append_assoc] at hnew
  exact ((hnew.trans List.perm_middle).trans (hold.symm.cons _)).append_right _

/-- Placing a request opens a record or joins the one it coalesces into. -/
inductive Placed (sha256 : String → List UInt8) (request : ReviewRequest)
    (s : ReviewSchedulerState) : ReviewSchedulerState → Prop
  | enqueue (hnone : s.coalesceTarget request = none) :
      Placed sha256 request s
        { s with unfinished := s.unfinished ++ [ScheduledReview.enqueue sha256 request] }
  | join {record record' unfinished detached} (htarget : s.coalesceTarget request = some record)
      (hrepl : Replaced s.unfinished unfinished record record')
      (hstep : JoinStep sha256 request record record' detached) :
      Placed sha256 request s
        { s with unfinished := unfinished, retiredChecks := s.retiredChecks ++ detached }

theorem placeRequest_placed (sha256 : String → List UInt8) (s : ReviewSchedulerState)
    (request : ReviewRequest) : Placed sha256 request s (s.placeRequest sha256 request) := by
  unfold ReviewSchedulerState.placeRequest
  cases htarget : s.coalesceTarget request with
  | none => exact .enqueue htarget
  | some record =>
    have hfind := (coalesceTarget_eq_some htarget).2
    dsimp only
    cases hkeep : keepsAcceptedHead request record with
    | true =>
      have hrepl := updateFirst_replaced (ScheduledReview.acceptId request.id) hfind
      have hstep : JoinStep sha256 request record (record.acceptId request.id) [] := .keep hkeep
      have hplaced := Placed.join htarget hrepl hstep
      rw [List.append_nil] at hplaced
      exact hplaced
    | false =>
      have hrepl := updateFirst_replaced (fun record => (record.coalesce sha256 request).1) hfind
      exact .join htarget hrepl (.coalesce hkeep)

/-- Placing a request whose id is fresh is one effect, and accounts for exactly that id. -/
theorem placeRequest_effect (sha256 : String → List UInt8)
    (hop : e.operation = .admitBatch requests) (hmem : request ∈ requests)
    (hfresh : request.id ∉ s.ids) :
    Effect sha256 e s (s.placeRequest sha256 request) ∧
      (s.placeRequest sha256 request).ids.Perm (request.id :: s.ids) := by
  have hplaced := placeRequest_placed sha256 s request
  generalize s.placeRequest sha256 request = s' at hplaced ⊢
  cases hplaced with
  | enqueue hnone => exact ⟨.enqueue hop hmem hnone hfresh, enqueue_ids request⟩
  | join htarget hrepl hstep =>
    exact ⟨.join hop hmem hrepl htarget hstep hfresh, join_ids hrepl hstep⟩

theorem rearm_effects (hop : e.operation = .admitBatch requests) (hmem : request ∈ requests) :
    Effects sha256 e s (if request.isExplicitRerequest then
      s.rearmFailedHead request.repo request.number else s) := by
  split_ifs with hexplicit
  · exact (Effect.rearm request hop hmem hexplicit).chain
  · exact .refl

theorem rearmed_ids (s : ReviewSchedulerState) (request : ReviewRequest) :
    (if request.isExplicitRerequest then s.rearmFailedHead request.repo request.number
      else s).ids = s.ids := by
  split_ifs <;> rfl

theorem foldl_admitRequest_effects {batch : List ReviewRequest}
    (hop : e.operation = .admitBatch batch) (hsub : ∀ request ∈ requests, request ∈ batch)
    (hnodup : (requests.map fun request => request.id).Nodup)
    (hfresh : ∀ request ∈ requests, request.id ∉ s.ids) :
    Effects sha256 e s (requests.foldl (ReviewSchedulerState.admitRequest sha256) s) := by
  induction requests generalizing s with
  | nil => exact .refl
  | cons request requests ih =>
    rw [List.map_cons, List.nodup_cons] at hnodup
    have hmem := hsub request List.mem_cons_self
    have hids := rearmed_ids s request
    have hplace := placeRequest_effect sha256 hop hmem
      (hids ▸ hfresh request List.mem_cons_self)
    refine ((rearm_effects hop hmem).tail hplace.1).trans
      (ih (fun other hother => hsub other (List.mem_cons_of_mem _ hother)) hnodup.2
        fun other hother hbad => ?_)
    rcases List.mem_cons.mp (hplace.2.mem_iff.mp hbad) with hsame | hold
    · exact hnodup.1 (hsame ▸ List.mem_map_of_mem hother)
    · exact hfresh other (List.mem_cons_of_mem _ hother) (hids ▸ hold)

/-- An admitted batch passed every test of the source. -/
theorem admissionDecision_admitted (h : s.admissionDecision requests = .admitted) :
    (requests.map fun request => request.id).Nodup ∧
      (∀ request ∈ requests, request.id ∉ s.ids) ∧
      s.statusRecordsInUse + s.additionalStatusRecords requests
          + newUncoalescedCount s.unfinished requests + s.replenishedReservations requests
        ≤ maxReviewStatusRecords ∧
      s.unfinished.length + newUncoalescedCount s.unfinished requests ≤ maxUnfinishedReviews := by
  unfold ReviewSchedulerState.admissionDecision at h
  dsimp only at h
  split_ifs at h with hbatch hstatus hdup hfull
  rw [not_or, not_not] at hbatch
  simp only [not_or, not_not, not_lt] at hfull hstatus
  refine ⟨hbatch.1, fun request hmem hknown => ?_, hstatus, hfull.2.1⟩
  have hzero := List.countP_eq_zero.mp hfull.1 request hmem
  exact hzero ((isKnownId_iff s request.id).mpr hknown)

theorem admitBatch_effects (hop : e.operation = .admitBatch requests) :
    Effects sha256 e s (s.admitBatch sha256 requests e.nowMs).1 := by
  have hready : Effects sha256 e s (s.normalizeLegacyRecords.pruneExpired e.nowMs) :=
    Effect.normalize.chain.tail (.prune hop)
  rcases s.admitBatch_cases sha256 requests e.nowMs with ⟨-, h⟩ | ⟨hdecision, h⟩ | ⟨-, h⟩
  · rw [h]
  · have htests := admissionDecision_admitted hdecision
    rw [h]
    exact hready.trans (foldl_admitRequest_effects hop (fun _ hmem => hmem) htests.1 htests.2.1)
  · rw [h]
    exact hready

theorem advanceHead_effects {record : ScheduledReview} {current : IncrementalHeadBudget}
    (hop : e.operation.confirms owned headSha)
    (hfind : s.unfinished.find? (ownsUnexpired owned e.nowMs) = some record)
    (hbudget : s.budgetOf record.request.repo record.request.number = some current)
    (hne : current.headSha ≠ headSha) :
    Effects sha256 e s (s.advanceHead owned record current headSha e.nowMs).1 := by
  have howns := List.find?_some hfind
  have hmove : Effects sha256 e s
      (s.moveBudget current record.request.repo record.request.number headSha e.nowMs) :=
    (Effect.moveBudget hop hbudget hne).chain
  unfold ReviewSchedulerState.advanceHead
  dsimp only
  split_ifs
  · exact .refl
  · exact hmove.tail (Effect.record_nil (updateFirst_replaced _ hfind) (.spend hop howns))
  · exact hmove.tail (Effect.record_nil (updateFirst_replaced _ hfind) (.bind hop howns))

theorem confirmHead_effects (hop : e.operation.confirms owned headSha) :
    Effects sha256 e s (s.confirmHead owned headSha e.nowMs).1 := by
  unfold ReviewSchedulerState.confirmHead
  cases hfind : s.unfinished.find? (ownsUnexpired owned e.nowMs) with
  | none => exact .refl
  | some record =>
    have howns := List.find?_some hfind
    have hprune : Effects sha256 e s (s.pruneHistory e.nowMs) := Effect.pruneHistory.chain
    dsimp only
    split_ifs with hmode
    · exact .refl
    simp only [ne_eq, not_not] at hmode
    cases hbudget : (s.pruneHistory e.nowMs).budgetOf record.request.repo record.request.number with
    | none =>
      refine (hprune.tail (Effect.openBudget hop
        (List.mem_of_find?_eq_some hfind) hmode hbudget)).tail ?_
      exact Effect.record_nil (updateFirst_replaced _ hfind) (.bind hop howns)
    | some current =>
      dsimp only
      split_ifs with hsame
      · exact hprune.tail (Effect.record_nil (updateFirst_replaced _ hfind) (.bind hop howns))
      · exact hprune.trans (advanceHead_effects hop hfind hbudget hsame)

theorem rebindCheck_effects (hop : e.operation = .reconcileLiveCheck owned headSha) :
    Effects sha256 e s (s.rebindCheck sha256 owned headSha e.nowMs).1 := by
  unfold ReviewSchedulerState.rebindCheck
  cases hfind : s.unfinished.find? (ownsUnexpired owned e.nowMs) with
  | none => exact .refl
  | some record =>
    have howns := List.find?_some hfind
    dsimp only
    split
    · exact (Effect.record (updateFirst_replaced _ hfind) (.conclude hop howns)).chain
    · exact (Effect.record (updateFirst_replaced _ hfind) (.rebind hop howns)).chain

theorem reconcileLiveCheck_effects (hop : e.operation = .reconcileLiveCheck owned headSha) :
    Effects sha256 e s (s.reconcileLiveCheck sha256 owned headSha e.nowMs).1 := by
  unfold ReviewSchedulerState.reconcileLiveCheck
  cases s.unfinished.find? (ownsUnexpired owned e.nowMs) with
  | none => exact .refl
  | some record =>
    dsimp only
    split_ifs
    · exact .refl
    · exact (confirmHead_effects (.inr hop)).trans (rebindCheck_effects hop)
    · exact confirmHead_effects (.inr hop)

theorem deferYield_effects (owned : OwnedReview) :
    Effects sha256 e s (s.deferYield owned e.nowMs).1 := by
  unfold ReviewSchedulerState.deferYield
  split
  · exact .refl
  · rename_i record hfind
    have h := List.find?_some hfind
    rw [Bool.and_eq_true] at h
    exact (Effect.record (updateFirst_replaced _ hfind) (.yieldTo h.1 h.2 (.inl rfl))).chain

theorem defer_effects (owned : OwnedReview) (notBeforeMs : ℤ) :
    Effects sha256 e s (s.defer owned e.nowMs notBeforeMs).1 := by
  unfold ReviewSchedulerState.defer
  split
  · exact .refl
  · rename_i record hfind
    have howns := List.find?_some hfind
    split_ifs with hlapsed hyield
    · exact .refl
    · have hlive := ownsUnexpired_iff.mpr ⟨howns, not_le.mp hlapsed⟩
      exact (Effect.record (updateFirst_replaced _ hfind)
        (.yieldTo hlive hyield (.inl rfl))).chain
    · have hlive := ownsUnexpired_iff.mpr ⟨howns, not_le.mp hlapsed⟩
      exact (Effect.record_nil (updateFirst_replaced _ hfind)
        (.release hlive (Bool.eq_false_iff.mpr hyield))).chain

theorem renew_effects (owned : OwnedReview) : Effects sha256 e s (s.renew owned e.nowMs).1 := by
  unfold ReviewSchedulerState.renew
  split
  · exact .refl
  · rename_i record hfind
    have howns := List.find?_some hfind
    split_ifs with hlapsed
    · exact .refl
    · have hlive := ownsUnexpired_iff.mpr ⟨howns, not_le.mp hlapsed⟩
      exact (Effect.record_nil (updateFirst_replaced _ hfind) (.renew hlive)).chain

theorem beginPaid_effects (hop : e.operation.isPaid = true) :
    Effects sha256 e s (s.beginPaid owned e.nowMs).1 := by
  unfold ReviewSchedulerState.beginPaid
  cases hfind : s.unfinished.find? (ownsUnexpired owned e.nowMs) with
  | none => exact .refl
  | some record =>
    dsimp only
    split_ifs with hmode
    · cases hbudget : s.budgetOf record.request.repo record.request.number with
      | none => exact .refl
      | some budget =>
        dsimp only
        split_ifs
        · exact .refl
        · exact .refl
        · exact (Effect.payBudget _ budget.ownershipRefunds hop
            (updateFirst_replaced _ hbudget)).chain
    · exact .refl
    · exact (Effect.record_nil (updateFirst_replaced _ hfind)
        (.pay _ record.ownershipRefunds hop)).chain

theorem refundPaid_effects {epoch : ℕ} (hop : e.operation.isPaid = true) :
    Effects sha256 e s (s.refundPaid owned headSha epoch e.nowMs).1 := by
  unfold ReviewSchedulerState.refundPaid
  split
  · exact .refl
  · rename_i record hfind
    split_ifs
    · split
      · exact .refl
      · rename_i budget hbudget
        split_ifs
        · exact .refl
        · exact (Effect.payBudget _ _ hop (updateFirst_replaced _ hbudget)).chain
    · exact .refl
    · exact .refl
    · exact (Effect.record_nil (updateFirst_replaced _ hfind) (.pay _ _ hop)).chain

theorem completeRecord_effects {p : ScheduledReview → Bool} {record : ScheduledReview}
    (hop : e.operation.finishes = true) (hfind : s.unfinished.find? p = some record)
    (outcome : TerminalOutcome) (completedAtMs : ℤ) :
    Effects sha256 e s (s.completeRecord p record outcome completedAtMs) :=
  (Effect.complete hop (eraseP_removed hfind)).chain

theorem finishRecord_effects (hop : e.operation.finishes = true) (outcome : TerminalOutcome)
    (completedAtMs : ℤ) :
    Effects sha256 e s (s.finishRecord owned outcome e.nowMs completedAtMs).1 := by
  unfold ReviewSchedulerState.finishRecord
  dsimp only
  split
  · exact .refl
  · rename_i record hfind
    exact (completeRecord_effects hop hfind _ completedAtMs).tail (.settle record outcome hop)

theorem finishWithYield_effects (hop : e.operation.finishes = true) (outcome : TerminalOutcome) :
    Effects sha256 e s (s.finishWithYield owned outcome e.nowMs).1 := by
  unfold ReviewSchedulerState.finishWithYield
  cases hfind : s.unfinished.find? (ownsUnexpired owned e.nowMs) with
  | none => exact .refl
  | some record =>
    have howns := List.find?_some hfind
    have hsettle : Effects sha256 e s (s.settleHead record outcome) :=
      (Effect.settle record outcome hop).chain
    have hfind' := hfind
    rw [← s.settleHead_unfinished record outcome] at hfind'
    dsimp only
    split_ifs with hbudget hyield _ hdeadline
    · exact .refl
    · exact hsettle.tail (.record (updateFirst_replaced _ hfind') (.yieldTo howns hyield (.inr hop)))
    · exact hsettle.tail (.record (updateFirst_replaced _ hfind') (.yieldTo howns hyield (.inr hop)))
    · exact hsettle.trans (finishRecord_effects hop outcome e.nowMs)
    · exact hsettle.trans (completeRecord_effects hop hfind' _ e.nowMs)

theorem finish_effects (hop : e.operation.finishes = true) (outcome : TerminalOutcome)
    (completedAtMs : ℤ) : Effects sha256 e s (s.finish owned outcome e.nowMs completedAtMs).1 := by
  unfold ReviewSchedulerState.finish
  split_ifs
  · exact finishWithYield_effects hop outcome
  · exact finishRecord_effects hop outcome completedAtMs

/-- What any operation does: bookkeeping, or a chain of effects. -/
theorem perform_cases (sha256 : String → List UInt8) (s : ReviewSchedulerState) (e : Event) :
    Quiet s (perform sha256 s e).1 ∨ Effects sha256 e s (perform sha256 s e).1 := by
  unfold perform
  split
  case h_1 => exact .inr normalizeLegacyRecords_effects
  case h_2 hop => exact .inr (admitBatch_effects hop)
  case h_3 => exact .inl (claimPendingChecks_quiet s e.nowMs _)
  case h_4 => exact .inl (claimPendingMetadata_quiet s e.nowMs _)
  case h_5 hop => exact .inr (resolvePendingMetadata_effects hop)
  case h_6 => exact .inl (recordQueuedCheckId_quiet s _ _ e.nowMs)
  case h_7 => exact .inl (markQueuePostAttempted_quiet s _ e.nowMs)
  case h_8 hop => exact .inr (completeRetiredCheck_effects hop)
  case h_9 => exact .inl (setCheckStage_quiet s _ _ _ _ e.nowMs)
  case h_10 hop => exact .inr (claimNextWithLimit_effects hop)
  case h_11 hop => exact .inr (beginPaid_effects (by rw [hop]; rfl))
  case h_12 hop => exact .inr (refundPaid_effects (by rw [hop]; rfl))
  case h_13 hop => exact .inr (confirmHead_effects (.inl hop))
  case h_14 hop => exact .inr (reconcileLiveCheck_effects hop)
  case h_15 => exact .inr (renew_effects _)
  case h_16 => exact .inr (defer_effects _ _)
  case h_17 => exact .inr (deferYield_effects _)
  case h_18 hop => exact .inr (finish_effects (by rw [hop]; rfl) _ _)
  case h_19 hop => exact .inr (finishWithYield_effects (by rw [hop]; rfl) _)
  case h_20 hop => exact .inr (finishWithYield_effects (by rw [hop]; rfl) _)

/-- What bookkeeping and every effect preserve, every operation preserves. -/
theorem perform_preserves {I : ReviewSchedulerState → Prop}
    (hquiet : ∀ {s s'}, I s → Quiet s s' → I s')
    (heffect : ∀ {s s'}, I s → Effect sha256 e s s' → I s') (hs : I s) :
    I (perform sha256 s e).1 := by
  rcases perform_cases sha256 s e with hq | hchain
  · exact hquiet hs hq
  · generalize (perform sha256 s e).1 = s' at hchain ⊢
    induction hchain with
    | refl => exact hs
    | tail _ hlast ih => exact heffect ih hlast

end TinySweeper.ReviewJob
