import TinySweeper.ReviewJob.Completion

/-!
# No published check is forgotten

A check GitHub may know stays in a record or moves to `retiredChecks` until its
conclusion is settled elsewhere, and a retired entry leaves only when acknowledged.
-/

namespace TinySweeper.ReviewJob

open FirstMatch Runs

variable {sha256 : String → List UInt8} {e : Event} {s s' : ReviewSchedulerState}
variable {record record' : ScheduledReview} {check : ReviewCheckRecord}
variable {detached : List RetiredReviewCheck}

/-- Some record or some retired entry holds a check of this external id. -/
def HoldsCheck (s : ReviewSchedulerState) (externalId : String) : Prop :=
  (∃ record ∈ s.unfinished, ∃ check ∈ record.reviewChecks, check.externalId = externalId) ∨
    ∃ entry ∈ s.retiredChecks, entry.check.externalId = externalId

instance (s : ReviewSchedulerState) (externalId : String) : Decidable (HoldsCheck s externalId) :=
  inferInstanceAs (Decidable (_ ∨ _))

/-- As `HoldsCheck`, with the record's check still open. -/
def HoldsOpen (s : ReviewSchedulerState) (externalId : String) : Prop :=
  (∃ record ∈ s.unfinished, ∃ check ∈ record.reviewChecks,
    check.externalId = externalId ∧ check.isOpen = true) ∨
    ∃ entry ∈ s.retiredChecks, entry.check.externalId = externalId

theorem HoldsOpen.holdsCheck {externalId : String} (h : HoldsOpen s externalId) :
    HoldsCheck s externalId := by
  rcases h with ⟨record, hmem, check, hcheck, hid, -⟩ | hretired
  · exact .inl ⟨record, hmem, check, hcheck, hid⟩
  · exact .inr hretired

/-- An open check survives an edit of its record, in the record or among the detached. -/
def Retains (checks : List ReviewCheckRecord) (detached : List RetiredReviewCheck)
    (check : ReviewCheckRecord) : Prop :=
  (∃ kept ∈ checks, kept.externalId = check.externalId ∧ kept.isOpen = true) ∨
    ∃ entry ∈ detached, entry.check.externalId = check.externalId

theorem detach_retains {keepHead preserveStatusHead : Option String}
    (hmem : check ∈ record.reviewChecks) (hopen : check.isOpen = true)
    (hpreserve : some check.headSha = preserveStatusHead → some check.headSha = keepHead) :
    Retains (detachChecksExceptPreserving record keepHead preserveStatusHead).1.reviewChecks
      (detachChecksExceptPreserving record keepHead preserveStatusHead).2 check := by
  by_cases hkeep : some check.headSha = keepHead
  · left
    exact ⟨check, List.mem_filter.mpr ⟨hmem, beq_iff_eq.mpr hkeep⟩, rfl, hopen⟩
  · right
    refine ⟨{ repo := record.request.repo
              installation := record.request.installation
              check := check.detached }, List.mem_filterMap.mpr ⟨check, hmem, ?_⟩, rfl⟩
    · have hreached : check.stage ≠ .completed ∧ check.reachedForge = true := by
        simpa [ReviewCheckRecord.isOpen] using hopen
      unfold retireDetached
      rw [if_neg hkeep, if_neg fun hbad => hkeep (hpreserve hbad), if_pos hreached]

/-- An edit of checks that keeps identity, stage and contact with GitHub. -/
theorem updateFirst_retains {p : ReviewCheckRecord → Bool}
    {f : ReviewCheckRecord → ReviewCheckRecord} {checks : List ReviewCheckRecord}
    (hid : ∀ check, (f check).externalId = check.externalId)
    (hopen : ∀ check, (f check).isOpen = check.isOpen) (hmem : check ∈ checks)
    (hyes : check.isOpen = true) :
    ∃ kept ∈ updateFirst p f checks, kept.externalId = check.externalId ∧ kept.isOpen = true := by
  have hsame := forall₂_updateFirst (R := fun old new : ReviewCheckRecord =>
    new.externalId = old.externalId ∧ new.isOpen = old.isOpen) (fun _ => ⟨rfl, rfl⟩)
    (fun check (_ : p check = true) => ⟨hid check, hopen check⟩) checks
  obtain ⟨kept, hkept, hsame⟩ := Forall₂.exists_right hsame hmem
  exact ⟨kept, hkept, hsame.1, hsame.2.trans hyes⟩

theorem claim_retains {owner : String} {nowMs : ℤ} (hmem : check ∈ record.reviewChecks)
    (hopen : check.isOpen = true) : Retains (record.claim owner nowMs).reviewChecks [] check := by
  left
  unfold ScheduledReview.claim ScheduledReview.updateHeadCheck
  split
  · exact ⟨check, hmem, rfl, hopen⟩
  · apply updateFirst_retains _ _ hmem hopen <;> intro check <;> rfl

theorem bindCheck_retains (sha256 : String → List UInt8) (headSha : String) (generation : ℕ)
    (hmem : check ∈ record.reviewChecks) (hopen : check.isOpen = true) :
    ∃ kept ∈ (record.bindCheck sha256 headSha generation).1.reviewChecks,
      kept.externalId = check.externalId ∧ kept.isOpen = true := by
  unfold ScheduledReview.bindCheck
  split
  · apply updateFirst_retains _ _ hmem hopen <;> intro check <;> rfl
  · exact ⟨check, List.mem_append_left _ hmem, rfl, hopen⟩

theorem RecordStep.retains (hfinish : e.operation.finishes = false)
    (h : RecordStep sha256 e record record' detached) (hmem : check ∈ record.reviewChecks)
    (hopen : check.isOpen = true) : Retains record'.reviewChecks detached check := by
  cases h with
  | resolve =>
    left
    unfold ScheduledReview.resolveHead
    dsimp only
    split_ifs
    · exact ⟨check, hmem, rfl, hopen⟩
    · exact ⟨check, List.mem_append_left _ hmem, rfl, hopen⟩
  | claim => exact claim_retains hmem hopen
  | renew | pay | bind | spend | release => exact .inl ⟨check, hmem, rfl, hopen⟩
  | @conclude owned headSha =>
    exact detach_retains hmem hopen (by simp)
  | @rebind owned headSha =>
    have hdetach : Retains (detachChecksExcept (record.withHead (some headSha))
        (some headSha)).1.reviewChecks (detachChecksExcept (record.withHead (some headSha))
        (some headSha)).2 check := detach_retains hmem hopen (by simp)
    rcases hdetach with ⟨kept, hkept, hid, hyes⟩ | hretired
    · obtain ⟨bound, hbound, hid', hyes'⟩ := bindCheck_retains sha256 headSha owned.generation
        hkept hyes
      exact .inl ⟨bound, hbound, hid'.trans hid, hyes'⟩
    · exact .inr hretired
  | @yieldTo owned notBeforeMs preserve _ _ hpreserve =>
    rcases hpreserve with rfl | hbad
    · exact detach_retains hmem hopen (by simp)
    · simp [hfinish] at hbad

theorem JoinStep.retains {request : ReviewRequest}
    (h : JoinStep sha256 request record record' detached) (hmem : check ∈ record.reviewChecks)
    (hopen : check.isOpen = true) : Retains record'.reviewChecks detached check := by
  cases h with
  | keep => exact .inl ⟨check, hmem, rfl, hopen⟩
  | coalesce =>
    have haccepted : check ∈ (record.acceptDelivery sha256 request).reviewChecks := by
      unfold ScheduledReview.acceptDelivery
      dsimp only
      split
      · exact hmem
      · split_ifs
        · exact hmem
        · exact List.mem_append_left _ hmem
    unfold ScheduledReview.coalesce
    dsimp only
    split_ifs
    · exact .inl ⟨check, haccepted, rfl, hopen⟩
    · exact detach_retains haccepted hopen (by simp)
    · exact .inl ⟨check, haccepted, rfl, hopen⟩

theorem HoldsOpen.of_replaced {externalId : String} {unfinished : List ScheduledReview}
    (h : HoldsOpen s externalId) (hrepl : Replaced s.unfinished unfinished record record')
    (hretains : ∀ check ∈ record.reviewChecks, check.isOpen = true →
      Retains record'.reviewChecks detached check) :
    HoldsOpen { s with unfinished := unfinished, retiredChecks := s.retiredChecks ++ detached }
      externalId := by
  rcases h with ⟨current, hmem, check, hcheck, rfl, hopen⟩ | ⟨entry, hentry, hid⟩
  · rcases hrepl.mem_cases_old hmem with rfl | hkept
    · rcases hretains check hcheck hopen with ⟨kept, hkept, hid, hyes⟩ | ⟨entry, hentry, hid⟩
      · exact .inl ⟨record', hrepl.mem_new, kept, hkept, hid, hyes⟩
      · exact .inr ⟨entry, List.mem_append_right _ hentry, hid⟩
    · exact .inl ⟨current, hkept, check, hcheck, rfl, hopen⟩
  · exact .inr ⟨entry, List.mem_append_left _ hentry, hid⟩

theorem Effect.holdsOpen (hfinish : e.operation.finishes = false)
    (hack : ∀ pending, e.operation ≠ .completeRetiredCheck pending) (hshape : Shape s)
    {externalId : String} (h : HoldsOpen s externalId) (heffect : Effect sha256 e s s') :
    HoldsOpen s' externalId := by
  cases heffect with
  | normalize =>
    rcases h with ⟨record, hmem, hcheck⟩ | hretired
    · exact .inl ⟨record.normalizeLegacy, List.mem_map_of_mem hmem, hcheck⟩
    · exact .inr hretired
  | enqueue =>
    rcases h with ⟨record, hmem, hcheck⟩ | hretired
    · exact .inl ⟨record, List.mem_append_left _ hmem, hcheck⟩
    · exact .inr hretired
  | join _ _ hrepl _ hstep => exact h.of_replaced hrepl fun _ => hstep.retains
  | record hrepl hstep => exact h.of_replaced hrepl fun _ => hstep.retains hfinish
  | decline hop hrem hclaim =>
    rcases h with ⟨record, hmem, check, hcheck, hopen⟩ | hretired
    · rcases hrem.mem_cases_old hmem with rfl | hkept
      · have hbare := (hshape.records _ hmem).bare (holdsMetadataClaim_iff.mp hclaim).2.2.1
        rw [hbare] at hcheck
        exact absurd hcheck List.not_mem_nil
      · exact .inl ⟨record, hkept, check, hcheck, hopen⟩
    · exact .inr hretired
  | settle _ _ hop => simp [hfinish] at hop
  | complete hop => simp [hfinish] at hop
  | acknowledge hop => exact absurd hop (hack _)
  | prune | pruneHistory | rearm | moveBudget | openBudget | payBudget => exact h

theorem Quiet.holdsCheck (h : Quiet s s') {externalId : String} (hold : HoldsCheck s externalId) :
    HoldsCheck s' externalId := by
  rcases hold with ⟨record, hmem, check, hcheck, hid⟩ | ⟨entry, hmem, hid⟩
  · obtain ⟨record', hmem', hrecord⟩ := Forall₂.exists_right h.unfinished hmem
    obtain ⟨check', hcheck', hsame⟩ := Forall₂.exists_right hrecord.reviewChecks hcheck
    exact .inl ⟨record', hmem', check', hcheck', hsame.externalId.trans hid⟩
  · obtain ⟨entry', hmem', hentry⟩ := Forall₂.exists_right h.retiredChecks hmem
    exact .inr ⟨entry', hmem', hentry.check.externalId.trans hid⟩

theorem perform_holdsCheck (hfinish : e.operation.finishes = false) (hshape : Shape s)
    (hmem : record ∈ s.unfinished) (hcheck : check ∈ record.reviewChecks)
    (hopen : check.isOpen = true) : HoldsCheck (perform sha256 s e).1 check.externalId := by
  have hold : HoldsOpen s check.externalId := .inl ⟨record, hmem, check, hcheck, rfl, hopen⟩
  by_cases hack : ∃ pending, e.operation = .completeRetiredCheck pending
  · obtain ⟨pending, hop⟩ := hack
    have hsame : (perform sha256 s e).1.unfinished = s.unfinished := by
      simp only [perform, hop, ReviewSchedulerState.completeRetiredCheck]
      split_ifs
      · rfl
      · split <;> rfl
    exact .inl ⟨record, hsame ▸ hmem, check, hcheck, rfl⟩
  · rw [not_exists] at hack
    rcases perform_cases sha256 s e with hquiet | hchain
    · exact hquiet.holdsCheck hold.holdsCheck
    · generalize (perform sha256 s e).1 = s' at hchain ⊢
      have hboth : Shape s' ∧ HoldsOpen s' check.externalId := by
        induction hchain with
        | refl => exact ⟨hshape, hold⟩
        | tail _ hlast ih =>
          exact ⟨ih.1.effect hlast, hlast.holdsOpen hfinish hack ih.1 ih.2⟩
      exact hboth.2.holdsCheck

theorem retireCheck_extends (record : ScheduledReview) (retired : List RetiredReviewCheck)
    (check : ReviewCheckRecord) : retired <+: retireCheck record retired check := by
  unfold retireCheck
  split_ifs
  · exact List.prefix_rfl
  · exact List.prefix_append _ _

theorem foldl_retireCheck_extends (record : ScheduledReview) (checks : List ReviewCheckRecord)
    (retired : List RetiredReviewCheck) :
    retired <+: checks.foldl (retireCheck record) retired := by
  induction checks generalizing retired with
  | nil => exact List.prefix_rfl
  | cons check checks ih => exact (retireCheck_extends record retired check).trans (ih _)

theorem foldl_retireCheck_holds (record : ScheduledReview) {checks : List ReviewCheckRecord}
    (hmem : check ∈ checks) (retired : List RetiredReviewCheck) :
    ∃ entry ∈ checks.foldl (retireCheck record) retired,
      entry.check.externalId = check.externalId := by
  induction checks generalizing retired with
  | nil => exact absurd hmem List.not_mem_nil
  | cons first rest ih =>
    rcases List.mem_cons.mp hmem with rfl | hmem
    · have hfirst : ∃ entry ∈ retireCheck record retired check,
          entry.check.externalId = check.externalId := by
        unfold retireCheck
        split_ifs with hany
        · obtain ⟨entry, hentry, hid⟩ := List.any_eq_true.mp hany
          exact ⟨entry, hentry, by simpa [entryHasExternalId, hasExternalId] using hid⟩
        · exact ⟨_, List.mem_append_right _ (List.mem_singleton.mpr rfl), rfl⟩
      obtain ⟨entry, hentry, hid⟩ := hfirst
      exact ⟨entry, (foldl_retireCheck_extends record rest _).subset hentry, hid⟩
    · exact ih hmem _

/-- The operation concludes the check of the record's current head: it completes the record
with a published result, or after the check had started; or it publishes the head of a record
that yields to a newer delivery. -/
def Excused (sha256 : String → List UInt8) (s : ReviewSchedulerState) (e : Event)
    (record : ScheduledReview) (check : ReviewCheckRecord) : Prop :=
  (perform sha256 s e).2 = .accepted true ∧
    ∃ owned outcome, e.operation.completion = some (owned, outcome) ∧
      s.unfinished.find? (ownsUnexpired owned e.nowMs) = some record ∧
      record.request.headSha = some check.headSha ∧
      (record.yieldRequested = false ∧
          (recordedOutcome s record outcome = .published ∨ check.stage = .inProgress) ∨
        record.yieldRequested = true ∧ outcome = .published)

/-- What completion does not retire is the check of the current head, published or started. -/
theorem not_needsRetirement {outcome : TerminalOutcome} (hhead : record.request.headSha ≠ none)
    (hopen : check.isOpen = true) (h : needsRetirement record outcome check = false) :
    record.request.headSha = some check.headSha ∧
      (outcome = .published ∨ check.stage = .inProgress) := by
  obtain ⟨head, hhead⟩ := Option.ne_none_iff_exists'.mp hhead
  simp only [ReviewCheckRecord.isOpen, Bool.and_eq_true, bne_iff_ne, ne_eq] at hopen
  simp only [needsRetirement, hhead, Option.getD_some, hopen.2, Bool.and_true] at h
  cases hstage : check.stage with
  | completed => exact absurd hstage hopen.1
  | queued =>
    simp [hstage] at h
    exact ⟨by rw [hhead, h.1], .inl h.2⟩
  | inProgress =>
    simp [hstage] at h
    exact ⟨by rw [hhead, h], .inr rfl⟩

theorem perform_finish_holdsCheck {owned : OwnedReview} {outcome : TerminalOutcome}
    (hop : e.operation.completion = some (owned, outcome)) (hshape : Shape s)
    (hmem : record ∈ s.unfinished) (hcheck : check ∈ record.reviewChecks)
    (hopen : check.isOpen = true) :
    HoldsCheck (perform sha256 s e).1 check.externalId ∨ Excused sha256 s e record check := by
  obtain ⟨accepted, hreply, hstep⟩ := perform_finishStep (s := s) hop
  have hexcused (howned : s.unfinished.find? (ownsUnexpired owned e.nowMs) = some record)
      (hyes : accepted = true) (hhead : record.request.headSha = some check.headSha)
      (hcase : record.yieldRequested = false ∧
          (recordedOutcome s record outcome = .published ∨ check.stage = .inProgress) ∨
        record.yieldRequested = true ∧ outcome = .published) : Excused sha256 s e record check :=
    ⟨hyes ▸ hreply, owned, outcome, hop, howned, hhead, hcase⟩
  generalize (perform sha256 s e).1 = s' at hstep ⊢
  cases hstep with
  | refused => exact .inl (.inl ⟨record, hmem, check, hcheck, rfl⟩)
  | @yielded found hfind hyield =>
    have hrepl := updateFirst_replaced (fun record : ScheduledReview =>
      (record.yieldTo e.nowMs (preservedHead found outcome)).1) hfind
    rw [s.settleHead_eq]
    rcases hrepl.mem_cases_old hmem with rfl | hkept
    · by_cases hpreserved : some check.headSha = preservedHead record outcome ∧
          some check.headSha ≠ record.latestHeadHint
      · right
        have hpublished : outcome = .published := by
          by_contra hbad
          simp [preservedHead, hbad] at hpreserved
        refine hexcused hfind rfl ?_ (.inr ⟨hyield, hpublished⟩)
        simpa [preservedHead, hpublished] using hpreserved.1.symm
      · left
        rw [not_and, not_not] at hpreserved
        have hretains : Retains (record.yieldTo e.nowMs (preservedHead record outcome)).1.reviewChecks
            (record.yieldTo e.nowMs (preservedHead record outcome)).2 check :=
          detach_retains hcheck hopen hpreserved
        rcases hretains with ⟨kept, hkept, hid, -⟩ | ⟨entry, hentry, hid⟩
        · exact .inl ⟨_, hrepl.mem_new, kept, hkept, hid⟩
        · exact .inr ⟨entry, List.mem_append_right _ hentry, hid⟩
    · exact .inl (.inl ⟨record, hkept, check, hcheck, rfl⟩)
  | @completed found p completedAtMs hfind hfirst hyield =>
    rw [ReviewSchedulerState.settleHead_eq]
    rcases (eraseP_removed hfirst).mem_cases_old hmem with rfl | hkept
    · cases hneeds : needsRetirement record (recordedOutcome s record outcome) check with
      | true =>
        left
        right
        exact foldl_retireCheck_holds record (List.mem_filter.mpr ⟨hcheck, hneeds⟩) _
      | false =>
        right
        have hhead : record.request.headSha ≠ none := by
          intro hnone
          rw [(hshape.records record hmem).bare hnone] at hcheck
          exact List.not_mem_nil hcheck
        obtain ⟨hhead, hcase⟩ := not_needsRetirement hhead hopen hneeds
        exact hexcused hfind rfl hhead (.inl ⟨hyield, hcase⟩)
    · exact .inl (.inl ⟨record, hkept, check, hcheck, rfl⟩)

theorem Effect.retired_extends (hack : ∀ pending, e.operation ≠ .completeRetiredCheck pending)
    (heffect : Effect sha256 e s s') : s.retiredChecks <+: s'.retiredChecks := by
  cases heffect with
  | join | record => exact List.prefix_append _ _
  | settle record outcome => rw [s.settleHead_eq]
  | complete => exact foldl_retireCheck_extends _ _ _
  | acknowledge hop => exact absurd hop (hack _)
  | normalize | prune | pruneHistory | rearm | enqueue | moveBudget | openBudget | payBudget
  | decline => exact List.prefix_rfl

/-- Entries stay in `retiredChecks`, with their publication fields at most advanced. -/
def RetiredKept (s s' : ReviewSchedulerState) : Prop :=
  ∃ kept, List.Forall₂ QuietRetired s.retiredChecks kept ∧ kept <+: s'.retiredChecks

/-- One entry leaves: its claim is current and GitHub has given it a check id. -/
def Acknowledged (s : ReviewSchedulerState) (e : Event) (s' : ReviewSchedulerState) : Prop :=
  ∃ pending entry, e.operation = .completeRetiredCheck pending ∧
    Removed s.retiredChecks s'.retiredChecks entry ∧
    entry.check.externalId = pending.check.externalId ∧
    entry.check.writeClaimHeld pending e.nowMs = true ∧ entry.check.checkId.isSome = true

theorem perform_retired (sha256 : String → List UInt8) (s : ReviewSchedulerState) (e : Event) :
    RetiredKept s (perform sha256 s e).1 ∨ Acknowledged s e (perform sha256 s e).1 := by
  by_cases hack : ∃ pending, e.operation = .completeRetiredCheck pending
  · obtain ⟨pending, hop⟩ := hack
    simp only [perform, hop, ReviewSchedulerState.completeRetiredCheck]
    split_ifs
    · exact .inl ⟨_, forall₂_quietRetired_refl _, List.prefix_rfl⟩
    · cases hfind : s.retiredChecks.find? (isCompletedBy pending e.nowMs) with
      | none => exact .inl ⟨_, forall₂_quietRetired_refl _, List.prefix_rfl⟩
      | some entry =>
        right
        have hdone := List.find?_some hfind
        simp only [isCompletedBy, entryHasExternalId, hasExternalId, Bool.and_eq_true,
          beq_iff_eq] at hdone
        exact ⟨pending, entry, hop, eraseP_removed hfind, hdone.1.1, hdone.1.2, hdone.2⟩
  · left
    rw [not_exists] at hack
    rcases perform_cases sha256 s e with hquiet | hchain
    · exact ⟨_, hquiet.retiredChecks, List.prefix_rfl⟩
    · refine ⟨_, forall₂_quietRetired_refl _, ?_⟩
      generalize (perform sha256 s e).1 = s' at hchain ⊢
      induction hchain with
      | refl => exact List.prefix_rfl
      | tail _ hlast ih => exact ih.trans (hlast.retired_extends hack)

/-- In every reached journal, an open check GitHub may know is still held after any operation
unless the operation concludes it, and a retired entry leaves only when acknowledged. -/
theorem published_check_retained (sha256 : String → List UInt8) (t : ℤ) (events : List Event)
    (e : Event) :
    (∀ record ∈ (after sha256 (.start t) events).state.unfinished,
      ∀ check ∈ record.reviewChecks, check.isOpen = true →
        HoldsCheck (after sha256 (.start t) (events ++ [e])).state check.externalId ∨
          Excused sha256 (after sha256 (.start t) events).state e record check) ∧
    (RetiredKept (after sha256 (.start t) events).state
        (after sha256 (.start t) (events ++ [e])).state ∨
      Acknowledged (after sha256 (.start t) events).state e
        (after sha256 (.start t) (events ++ [e])).state) := by
  have hshape := Shape.after sha256 t events
  have hnext : (after sha256 (.start t) (events ++ [e])).state =
      (perform sha256 (after sha256 (.start t) events).state e).1 := by
    rw [after_append]
    rfl
  rw [hnext]
  constructor
  · intro record hmem check hcheck hopen
    cases hfinish : e.operation.finishes with
    | false => exact .inl (perform_holdsCheck hfinish hshape hmem hcheck hopen)
    | true =>
      obtain ⟨owned, outcome, hop⟩ := Operation.completion_of_finishes hfinish
      exact perform_finish_holdsCheck hop hshape hmem hcheck hopen
  · exact perform_retired sha256 _ e

/-- The review of head `A`, published on GitHub and waiting for a worker. -/
def publishedCheck : List Event :=
  [⟨1, .admitBatch [push "a" "A"]⟩, ⟨2, .claimPendingChecks 5⟩,
    ⟨3, .recordQueuedCheckId (sampleClaim "a" "A" 2) 11⟩]

/-- A worker holds the review when a push to `B` asks it to yield. -/
def yieldingReview : List Event :=
  publishedCheck ++
    [⟨4, .claimNextWithLimit "w1" 4⟩,
      ⟨5, .reconcileLiveCheck (sampleHandle (push "a" "A") "w1" 1) "A"⟩,
      ⟨6, .admitBatch [push "b" "B"]⟩]

/-- A published review that yields drops the check of its head although the record stays
unfinished: the paid result is known and is reported outside the scheduler. -/
theorem published_check_retained_yield :
    (∃ record ∈ (after sampleSha256 (.start 0) yieldingReview).state.unfinished,
      ∃ check ∈ record.reviewChecks, check.isOpen = true ∧
        check.externalId = queuedCheckExternalId sampleSha256 ⟨"a"⟩ "A") ∧
    ¬ HoldsCheck (after sampleSha256 (.start 0) (yieldingReview ++
        [⟨7, .finishWithYield (sampleHandle (push "a" "A") "w1" 1) .published⟩])).state
      (queuedCheckExternalId sampleSha256 ⟨"a"⟩ "A") ∧
    (after sampleSha256 (.start 0) (yieldingReview ++
        [⟨7, .finishWithYield (sampleHandle (push "a" "A") "w1" 1) .published⟩])).state.unfinished.map
      (fun record => record.acceptedIds) = [[⟨"a"⟩, ⟨"b"⟩]] := by
  refine ⟨?_, ?_, ?_⟩ <;> decide +kernel

/-- A push to `B` before any worker claims the review retires the published check of `A`. -/
theorem published_check_retained_push :
    HoldsCheck (after sampleSha256 (.start 0)
      (publishedCheck ++ [⟨4, .admitBatch [push "b" "B"]⟩])).state
      (queuedCheckExternalId sampleSha256 ⟨"a"⟩ "A") := by
  have hheld : ∃ record ∈ (after sampleSha256 (.start 0) publishedCheck).state.unfinished,
      ∃ check ∈ record.reviewChecks, check.isOpen = true ∧
        check.externalId = queuedCheckExternalId sampleSha256 ⟨"a"⟩ "A" := by
    decide +kernel
  obtain ⟨record, hmem, check, hcheck, hopen, hid⟩ := hheld
  have hretained := (published_check_retained sampleSha256 0 publishedCheck
    ⟨4, .admitBatch [push "b" "B"]⟩).1 record hmem check hcheck hopen
  rcases hretained with hkept | hexcused
  · exact hid ▸ hkept
  · exact absurd hexcused.1 (by decide +kernel)

end TinySweeper.ReviewJob
