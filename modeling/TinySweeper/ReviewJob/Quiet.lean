import TinySweeper.ReviewJob.Machine

/-!
# Quiet operations

Publication claims and status acknowledgements rewrite bookkeeping fields only.
`Quiet` says what such an operation leaves alone, so every invariant about
identities, heads and counts is preserved by one lemma.
-/

namespace TinySweeper.ReviewJob

open FirstMatch

/-- The same check run; publication can only make progress. -/
structure SameCheck (check check' : ReviewCheckRecord) : Prop where
  headSha : check'.headSha = check.headSha
  externalId : check'.externalId = check.externalId
  reached : check.reachedForge = true → check'.reachedForge = true
  identified : (check.published = true → check.checkId.isSome = true) →
    check'.published = true → check'.checkId.isSome = true

structure QuietRecord (record record' : ScheduledReview) : Prop where
  request : record'.request = record.request
  acceptedIds : record'.acceptedIds = record.acceptedIds
  owner : record'.owner = record.owner
  generation : record'.generation = record.generation
  ownerUntilMs : record'.ownerUntilMs = record.ownerUntilMs
  paidAttempts : record'.paidAttempts = record.paidAttempts
  ownershipRefunds : record'.ownershipRefunds = record.ownershipRefunds
  yieldRequested : record'.yieldRequested = record.yieldRequested
  latestHeadHint : record.latestHeadHint.isSome = true →
    record'.latestHeadHint = record.latestHeadHint
  headHistoryReservations : record'.headHistoryReservations = record.headHistoryReservations
  statusReconcileReserved : record'.statusReconcileReserved = record.statusReconcileReserved
  metadataResolutionPending :
    record'.metadataResolutionPending = record.metadataResolutionPending
  reviewChecks : List.Forall₂ SameCheck record.reviewChecks record'.reviewChecks

structure QuietRetired (entry entry' : RetiredReviewCheck) : Prop where
  repo : entry'.repo = entry.repo
  installation : entry'.installation = entry.installation
  check : SameCheck entry.check entry'.check

structure Quiet (s s' : ReviewSchedulerState) : Prop where
  unfinished : List.Forall₂ QuietRecord s.unfinished s'.unfinished
  terminal : s'.terminal = s.terminal
  incrementalHeads : s'.incrementalHeads = s.incrementalHeads
  headHistory : s'.headHistory = s.headHistory
  retiredChecks : List.Forall₂ QuietRetired s.retiredChecks s'.retiredChecks

theorem SameCheck.refl (check : ReviewCheckRecord) : SameCheck check check :=
  ⟨rfl, rfl, id, id⟩

theorem SameCheck.trans (a b c : ReviewCheckRecord) (h₁ : SameCheck a b) (h₂ : SameCheck b c) :
    SameCheck a c :=
  ⟨h₂.headSha.trans h₁.headSha, h₂.externalId.trans h₁.externalId,
    fun h => h₂.reached (h₁.reached h), fun h => h₂.identified (h₁.identified h)⟩

theorem forall₂_sameCheck_refl (checks : List ReviewCheckRecord) :
    List.Forall₂ SameCheck checks checks :=
  List.forall₂_same.mpr fun check _ => .refl check

theorem QuietRecord.refl (record : ScheduledReview) : QuietRecord record record :=
  ⟨rfl, rfl, rfl, rfl, rfl, rfl, rfl, rfl, fun _ => rfl, rfl, rfl, rfl, forall₂_sameCheck_refl _⟩

theorem QuietRecord.trans (a b c : ScheduledReview) (h₁ : QuietRecord a b)
    (h₂ : QuietRecord b c) : QuietRecord a c where
  request := h₂.request.trans h₁.request
  acceptedIds := h₂.acceptedIds.trans h₁.acceptedIds
  owner := h₂.owner.trans h₁.owner
  generation := h₂.generation.trans h₁.generation
  ownerUntilMs := h₂.ownerUntilMs.trans h₁.ownerUntilMs
  paidAttempts := h₂.paidAttempts.trans h₁.paidAttempts
  ownershipRefunds := h₂.ownershipRefunds.trans h₁.ownershipRefunds
  yieldRequested := h₂.yieldRequested.trans h₁.yieldRequested
  latestHeadHint h := by
    have hb := h₁.latestHeadHint h
    rw [h₂.latestHeadHint (by rw [hb]; exact h), hb]
  headHistoryReservations := h₂.headHistoryReservations.trans h₁.headHistoryReservations
  statusReconcileReserved := h₂.statusReconcileReserved.trans h₁.statusReconcileReserved
  metadataResolutionPending := h₂.metadataResolutionPending.trans h₁.metadataResolutionPending
  reviewChecks := Forall₂.trans SameCheck.trans h₁.reviewChecks h₂.reviewChecks

theorem QuietRetired.refl (entry : RetiredReviewCheck) : QuietRetired entry entry :=
  ⟨rfl, rfl, .refl _⟩

theorem forall₂_quietRecord_refl (records : List ScheduledReview) :
    List.Forall₂ QuietRecord records records :=
  List.forall₂_same.mpr fun record _ => .refl record

theorem forall₂_quietRetired_refl (entries : List RetiredReviewCheck) :
    List.Forall₂ QuietRetired entries entries :=
  List.forall₂_same.mpr fun entry _ => .refl entry

theorem Quiet.refl (s : ReviewSchedulerState) : Quiet s s :=
  ⟨forall₂_quietRecord_refl _, rfl, rfl, rfl, forall₂_quietRetired_refl _⟩

theorem Quiet.of_unfinished {s : ReviewSchedulerState} {unfinished : List ScheduledReview}
    (h : List.Forall₂ QuietRecord s.unfinished unfinished) :
    Quiet s { s with unfinished := unfinished } :=
  ⟨h, rfl, rfl, rfl, forall₂_quietRetired_refl _⟩

theorem Quiet.of_retired {s : ReviewSchedulerState} {retired : List RetiredReviewCheck}
    (h : List.Forall₂ QuietRetired s.retiredChecks retired) :
    Quiet s { s with retiredChecks := retired } :=
  ⟨forall₂_quietRecord_refl _, rfl, rfl, rfl, h⟩

/-- An edit of one check is quiet for its record if it is the same check run. -/
theorem QuietRecord.updateCheck {p : ReviewCheckRecord → Bool}
    {f : ReviewCheckRecord → ReviewCheckRecord} (hf : ∀ check, SameCheck check (f check))
    (record : ScheduledReview) : QuietRecord record (record.updateCheck p f) :=
  ⟨rfl, rfl, rfl, rfl, rfl, rfl, rfl, rfl, fun _ => rfl, rfl, rfl, rfl,
    forall₂_updateFirst SameCheck.refl (fun check _ => hf check) record.reviewChecks⟩

theorem sameCheck_claimWrite (nowMs : ℤ) (check : ReviewCheckRecord) :
    SameCheck check (check.claimWrite nowMs) :=
  ⟨rfl, rfl, id, id⟩

theorem claimQueuedCheck_quiet (nowMs : ℤ) (limit : ℕ) (eligible : List ReviewJobId)
    (acc : ReviewSchedulerState × List PendingReviewCheck) (index : ℕ) :
    (claimQueuedCheck nowMs limit eligible acc index).1 = acc.1 ∨
      ∃ unfinished, List.Forall₂ QuietRecord acc.1.unfinished unfinished ∧
        (claimQueuedCheck nowMs limit eligible acc index).1 =
          { acc.1 with unfinished := unfinished } := by
  obtain ⟨s, claims⟩ := acc
  simp only [claimQueuedCheck]
  split_ifs with hfull
  · exact .inl rfl
  split
  · exact .inl rfl
  split_ifs with hterminal
  · exact .inl rfl
  split
  · exact .inl rfl
  · refine .inr ⟨_, ?_, rfl⟩
    exact forall₂_modify QuietRecord.refl
      (fun record => QuietRecord.updateCheck (sameCheck_claimWrite nowMs) record) _ _

theorem foldl_claimQueuedCheck_quiet (nowMs : ℤ) (limit : ℕ) (eligible : List ReviewJobId)
    (indices : List ℕ) (acc : ReviewSchedulerState × List PendingReviewCheck) :
    ∃ unfinished, List.Forall₂ QuietRecord acc.1.unfinished unfinished ∧
      (indices.foldl (claimQueuedCheck nowMs limit eligible) acc).1 =
        { acc.1 with unfinished := unfinished } := by
  induction indices generalizing acc with
  | nil => exact ⟨acc.1.unfinished, forall₂_quietRecord_refl _, rfl⟩
  | cons index indices ih =>
    rw [List.foldl_cons]
    obtain ⟨unfinished, hquiet, hstate⟩ := ih (claimQueuedCheck nowMs limit eligible acc index)
    rcases claimQueuedCheck_quiet nowMs limit eligible acc index with hsame | ⟨jobs, hjobs, hstep⟩
    · rw [hsame] at hquiet hstate
      exact ⟨unfinished, hquiet, hstate⟩
    · rw [hstep] at hquiet hstate
      exact ⟨unfinished, Forall₂.trans QuietRecord.trans hjobs hquiet, hstate⟩

theorem claimRetiredChecks_quiet (nowMs : ℤ) (limit : ℕ) (entries : List RetiredReviewCheck)
    (claims : List PendingReviewCheck) :
    List.Forall₂ QuietRetired entries (claimRetiredChecks nowMs limit entries claims).1 := by
  induction entries generalizing claims with
  | nil => exact .nil
  | cons entry entries ih =>
    rw [claimRetiredChecks]
    split_ifs with hfull hclaimed
    · exact forall₂_quietRetired_refl _
    · exact .cons (.refl entry) (ih claims)
    · exact .cons ⟨rfl, rfl, sameCheck_claimWrite nowMs entry.check⟩ (ih _)

theorem claimPendingChecks_quiet (s : ReviewSchedulerState) (nowMs : ℤ) (limit : ℕ) :
    Quiet s (s.claimPendingChecks nowMs limit).1 := by
  unfold ReviewSchedulerState.claimPendingChecks
  dsimp only
  obtain ⟨unfinished, hquiet, hstate⟩ := foldl_claimQueuedCheck_quiet nowMs limit
    ((s.ordered.filter fun entry => countsAsQueued s nowMs entry.2).map
      fun entry => entry.2.request.id) (s.ordered.map fun entry => entry.1.1) (s, [])
  rw [hstate]
  exact ⟨hquiet, rfl, rfl, rfl, claimRetiredChecks_quiet nowMs limit _ _⟩

theorem foldl_claimMetadata_quiet (nowMs : ℤ) (entries : List (QueueEntry × ScheduledReview))
    (jobs : List ScheduledReview) :
    List.Forall₂ QuietRecord jobs (entries.foldl
      (fun jobs entry => jobs.modify entry.1.1 (ScheduledReview.claimMetadata nowMs)) jobs) := by
  induction entries generalizing jobs with
  | nil => exact forall₂_quietRecord_refl jobs
  | cons entry entries ih =>
    refine Forall₂.trans QuietRecord.trans ?_ (ih _)
    refine forall₂_modify QuietRecord.refl (fun record => ?_) jobs entry.1.1
    exact ⟨rfl, rfl, rfl, rfl, rfl, rfl, rfl, rfl, fun _ => rfl, rfl, rfl, rfl, forall₂_sameCheck_refl _⟩

theorem claimPendingMetadata_quiet (s : ReviewSchedulerState) (nowMs : ℤ) (limit : ℕ) :
    Quiet s (s.claimPendingMetadata nowMs limit).1 :=
  .of_unfinished (foldl_claimMetadata_quiet nowMs _ s.unfinished)

theorem recordQueuedCheckId_quiet (s : ReviewSchedulerState) (pending : PendingReviewCheck)
    (checkId : ℕ) (nowMs : ℤ) : Quiet s (s.recordQueuedCheckId pending checkId nowMs).1 := by
  unfold ReviewSchedulerState.recordQueuedCheckId
  split_ifs with hretired
  · split
    · exact .refl s
    split_ifs with hheld
    · refine .of_retired (forall₂_updateFirst QuietRetired.refl (fun entry _ => ?_) _)
      exact ⟨rfl, rfl, rfl, rfl, fun _ => by simp [ReviewCheckRecord.reachedForge], fun _ _ => rfl⟩
    · exact .refl s
  · split
    · exact .refl s
    split
    · exact .refl s
    split_ifs with hstale
    · exact .refl s
    · refine .of_unfinished (forall₂_updateFirst QuietRecord.refl (fun record _ => ?_) _)
      refine QuietRecord.updateCheck (fun check => ?_) record
      exact ⟨rfl, rfl, fun _ => by simp [ReviewCheckRecord.reachedForge], fun _ _ => rfl⟩

theorem markQueuePostAttempted_quiet (s : ReviewSchedulerState) (pending : PendingReviewCheck)
    (nowMs : ℤ) : Quiet s (s.markQueuePostAttempted pending nowMs).1 := by
  unfold ReviewSchedulerState.markQueuePostAttempted
  split_ifs with hstale
  · exact .refl s
  split
  · exact .refl s
  · refine .of_unfinished (forall₂_updateFirst QuietRecord.refl (fun record _ => ?_) _)
    refine QuietRecord.updateCheck (fun check => ?_) record
    exact ⟨rfl, rfl, fun _ => by simp [ReviewCheckRecord.reachedForge], id⟩

theorem setCheckStage_quiet (s : ReviewSchedulerState) (owned : OwnedReview) (headSha : String)
    (checkId : ℕ) (stage : ReviewCheckStage) (nowMs : ℤ) :
    Quiet s (s.setCheckStage owned headSha checkId stage nowMs).1 := by
  unfold ReviewSchedulerState.setCheckStage
  split
  · exact .refl s
  split
  · exact .refl s
  · refine .of_unfinished (forall₂_updateFirst QuietRecord.refl (fun record _ => ?_) _)
    refine QuietRecord.updateCheck (fun check => ?_) record
    exact ⟨rfl, rfl, id, id⟩

end TinySweeper.ReviewJob
