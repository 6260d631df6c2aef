import TinySweeper.ReviewJob.Effects

/-!
# The shape of reachable journals

`RecordShape` ties the head, metadata and yield fields of one record together;
`Shape` adds that ids, incremental records and budgets are unique. Both hold along
every run, under any clock.
-/

namespace TinySweeper.ReviewJob

open FirstMatch Runs

variable {record record' : ScheduledReview}

structure RecordShape (record : ScheduledReview) : Prop where
  accepted : record.request.id ∈ record.acceptedIds
  headless : record.request.mode = .incremental →
    (record.request.headSha = none ↔ record.metadataResolutionPending = true)
  pending : record.metadataResolutionPending = true →
    record.request.mode = .incremental ∧ record.owner = none
  bare : record.request.headSha = none → record.reviewChecks = []
  yielding : record.yieldRequested = true → record.request.mode = .incremental ∧
    record.owner.isSome = true ∧ record.latestHeadHint.isSome = true
  reservations : record.request.mode = .incremental → record.headHistoryReservations.isSome = true

/-- The pull request of a record or budget. -/
def ScheduledReview.pr (record : ScheduledReview) : String × ℕ :=
  (record.request.repo, record.request.number)

def IncrementalHeadBudget.pr (budget : IncrementalHeadBudget) : String × ℕ :=
  (budget.repo, budget.number)

def ScheduledReview.isIncremental (record : ScheduledReview) : Bool :=
  record.request.mode == .incremental

structure Shape (s : ReviewSchedulerState) : Prop where
  records : ∀ record ∈ s.unfinished, RecordShape record
  ids : s.ids.Nodup
  incremental : ((s.unfinished.filter ScheduledReview.isIncremental).map ScheduledReview.pr).Nodup
  budgets : (s.incrementalHeads.map IncrementalHeadBudget.pr).Nodup

theorem isIncremental_iff : record.isIncremental = true ↔ record.request.mode = .incremental := by
  simp [ScheduledReview.isIncremental]

variable {sha256 : String → List UInt8} {e : Event} {s s' : ReviewSchedulerState}
variable {detached retiredChecks : List RetiredReviewCheck} {unfinished : List ScheduledReview}

/-- A record of an incremental request has a head unless its metadata is pending. -/
theorem RecordShape.head_of_ready (h : RecordShape record)
    (hmode : record.request.mode = .incremental)
    (hready : record.metadataResolutionPending = false) :
    record.request.headSha.isSome = true := by
  rw [Option.isSome_iff_ne_none]
  intro hnone
  rw [(h.headless hmode).mp hnone] at hready
  exact Bool.noConfusion hready

theorem RecordShape.ready_of_owned (h : RecordShape record) (howner : record.owner.isSome = true) :
    record.metadataResolutionPending = false := by
  by_contra hpending
  rw [Bool.not_eq_false] at hpending
  rw [(h.pending hpending).2] at howner
  exact Bool.noConfusion howner

theorem ownsUnexpired_isSome {owned : OwnedReview} {nowMs : ℤ}
    (h : ownsUnexpired owned nowMs record = true) : record.owner.isSome = true := by
  rw [ownsUnexpired_owner h]
  rfl

theorem RecordShape.of_quiet (h : RecordShape record) (hq : QuietRecord record record') :
    RecordShape record' where
  accepted := by rw [hq.request, hq.acceptedIds]; exact h.accepted
  headless := by rw [hq.request, hq.metadataResolutionPending]; exact h.headless
  pending := by rw [hq.request, hq.metadataResolutionPending, hq.owner]; exact h.pending
  bare hnone := by
    rw [hq.request] at hnone
    have hchecks := hq.reviewChecks
    rw [h.bare hnone] at hchecks
    exact List.forall₂_nil_left_iff.mp hchecks
  yielding hyield := by
    rw [hq.yieldRequested] at hyield
    obtain ⟨hmode, howner, hhint⟩ := h.yielding hyield
    rw [hq.request, hq.owner, hq.latestHeadHint hhint]
    exact ⟨hmode, howner, hhint⟩
  reservations := by rw [hq.request, hq.headHistoryReservations]; exact h.reservations

/-- On shaped records the legacy defaults are already in place. -/
theorem RecordShape.normalizeLegacy (h : RecordShape record) :
    QuietRecord record record.normalizeLegacy := by
  have hids : record.acceptedIds.isEmpty = false := by
    simpa [List.isEmpty_eq_false_iff] using List.ne_nil_of_mem h.accepted
  refine ⟨rfl, ?_, rfl, rfl, rfl, rfl, rfl, rfl, fun hhint => ?_, ?_, rfl, rfl,
    forall₂_sameCheck_refl _⟩
  · simp [ScheduledReview.normalizeLegacy, hids]
  · obtain ⟨hint, hsome⟩ := Option.isSome_iff_exists.mp hhint
    simp [ScheduledReview.normalizeLegacy, hsome]
  · have hpresent : ¬ (record.request.mode = .incremental ∧
        record.headHistoryReservations.isNone = true) := by
      rintro ⟨hmode, hmissing⟩
      have hsome := h.reservations hmode
      simp [Option.isNone_iff_eq_none.mp hmissing] at hsome
    unfold ScheduledReview.normalizeLegacy
    dsimp only
    rw [if_neg hpresent]

theorem Shape.normalizeLegacyRecords (h : Shape s) : Quiet s s.normalizeLegacyRecords :=
  .of_unfinished (forall₂_map fun record hmem => (h.records record hmem).normalizeLegacy)

theorem RecordShape.enqueue (request : ReviewRequest) :
    RecordShape (ScheduledReview.enqueue sha256 request) where
  accepted := by simp [ScheduledReview.enqueue]
  headless hmode := by
    change request.mode = .incremental at hmode
    simp [ScheduledReview.enqueue, hmode]
  pending hpending := by
    simp only [ScheduledReview.enqueue, Bool.and_eq_true, beq_iff_eq] at hpending
    exact ⟨hpending.1, rfl⟩
  bare hnone := by
    change request.headSha = none at hnone
    simp [ScheduledReview.enqueue, hnone]
  yielding hyield := by simp [ScheduledReview.enqueue] at hyield
  reservations _ := rfl

theorem detachChecksExcept_bare {keepHead p : Option String} (h : record.reviewChecks = []) :
    (detachChecksExceptPreserving record keepHead p).1.reviewChecks = [] := by
  simp [detachChecksExceptPreserving, h]

/-- A delivery that is not merely noted finds an owned record only at another head. -/
theorem RecordShape.head_of_coalesce {request : ReviewRequest} (h : RecordShape record)
    (hmode : record.request.mode = .incremental) (hkeep : keepsAcceptedHead request record = false)
    (howner : record.owner.isSome = true) : request.headSha.isSome = true := by
  have hhead := h.head_of_ready hmode (h.ready_of_owned howner)
  simpa [keepsAcceptedHead, hhead] using hkeep

theorem RecordShape.join {request : ReviewRequest} {record record' : ScheduledReview}
    {detached : List RetiredReviewCheck} (h : RecordShape record)
    (hrequest : request.mode = .incremental) (hmode : record.request.mode = .incremental)
    (hstep : JoinStep sha256 request record record' detached) : RecordShape record' := by
  cases hstep with
  | keep hkeep =>
    exact ⟨List.mem_append_left _ h.accepted, h.headless, h.pending, h.bare, h.yielding,
      h.reservations⟩
  | coalesce hkeep =>
    have hbare : request.headSha = none → record.reviewChecks = [] := by
      intro hnone
      simp only [keepsAcceptedHead, hnone, Option.isNone_none, Bool.true_and] at hkeep
      exact h.bare (Option.not_isSome_iff_eq_none.mp (by simp [hkeep]))
    unfold ScheduledReview.coalesce
    dsimp only
    split_ifs with howner hhead
    · have hsome := h.head_of_coalesce hmode hkeep howner
      have hready := h.head_of_ready hmode (h.ready_of_owned howner)
      have hnone : request.headSha.isNone = false := by simpa using hsome
      refine ⟨List.mem_append_left _ h.accepted, fun _ => ?_, fun hpending => ?_, fun hbad => ?_,
        fun _ => ⟨hmode, howner, hsome⟩, fun _ => rfl⟩
      · constructor
        · intro hbad
          change record.request.headSha = none at hbad
          simp [hbad] at hready
        · intro hpending
          change request.headSha.isNone = true at hpending
          simp [hnone] at hpending
      · change request.headSha.isNone = true at hpending
        simp [hnone] at hpending
      · change record.request.headSha = none at hbad
        simp [hbad] at hready
    all_goals
      have hunowned : record.owner = none := by simpa using howner
      have hyield : record.yieldRequested = false := by
        by_contra hbad
        have hsome := (h.yielding (by simpa using hbad)).2.1
        simp [hunowned] at hsome
      refine ⟨by simp [ScheduledReview.acceptDelivery, ScheduledReview.acceptId,
          detachChecksExcept, detachChecksExceptPreserving], fun _ => ?_, fun _ => ⟨hrequest, hunowned⟩,
        fun hnone => ?_, fun hbad => ?_, fun _ => rfl⟩
    · exact Option.isNone_iff_eq_none.symm
    · change request.headSha = none at hnone
      refine detachChecksExcept_bare (p := none) ?_
      simp [ScheduledReview.acceptDelivery, hnone, ScheduledReview.acceptId, hbare hnone]
    · change record.yieldRequested = true at hbad
      simp [hyield] at hbad
    · exact Option.isNone_iff_eq_none.symm
    · change request.headSha = none at hnone
      simp [ScheduledReview.acceptDelivery, hnone, ScheduledReview.acceptId, hbare hnone]
    · change record.yieldRequested = true at hbad
      simp [hyield] at hbad

/-- A record edit keeps the identity of the request and every accepted id. -/
theorem RecordStep.request (h : RecordStep sha256 e record record' detached) :
    record'.request = { record.request with headSha := record'.request.headSha } ∧
      record'.acceptedIds = record.acceptedIds := by
  cases h with
  | claim => rw [ScheduledReview.claim_eq]; exact ⟨rfl, rfl⟩
  | rebind => rw [ScheduledReview.bindCheck_eq]; exact ⟨rfl, rfl⟩
  | _ => exact ⟨rfl, rfl⟩

variable {request : ReviewRequest}

/-- Binding an owned record to a head keeps its shape, whatever becomes of its checks. -/
theorem RecordShape.bindHead (h : RecordShape record) (howner : record.owner.isSome = true)
    {headSha : String}
    (hrequest : record'.request = { record.request with headSha := some headSha })
    (hids : record'.acceptedIds = record.acceptedIds) (howner' : record'.owner = record.owner)
    (hpending : record'.metadataResolutionPending = record.metadataResolutionPending)
    (hyield : record'.yieldRequested = record.yieldRequested)
    (hhint : record'.latestHeadHint = record.latestHeadHint)
    (hreserved : record.headHistoryReservations.isSome = true →
      record'.headHistoryReservations.isSome = true) : RecordShape record' where
  accepted := by rw [hrequest, hids]; exact h.accepted
  headless _ := by simp [hrequest, hpending, h.ready_of_owned howner]
  pending hbad := by
    rw [hpending, h.ready_of_owned howner] at hbad
    exact Bool.noConfusion hbad
  bare hbad := by simp [hrequest] at hbad
  yielding hyes := by
    rw [hyield] at hyes
    rw [hrequest, howner', hhint]
    exact h.yielding hyes
  reservations hmode := by
    rw [hrequest] at hmode
    exact hreserved (h.reservations hmode)

theorem RecordShape.resolveHead {job : ScheduledReview} {pending : PendingReviewMetadata}
    {nowMs : ℤ} (h : RecordShape job) (hclaim : holdsMetadataClaim pending nowMs job = true)
    (headSha : String) : RecordShape (job.resolveHead sha256 headSha) := by
  have howner : job.owner = none := (holdsMetadataClaim_iff.mp hclaim).2.2.2.1
  refine ⟨h.accepted, fun _ => ?_, fun hbad => ?_, fun hbad => ?_, fun hyes => ?_,
    h.reservations⟩
  · simp [ScheduledReview.resolveHead]
  · simp [ScheduledReview.resolveHead] at hbad
  · simp [ScheduledReview.resolveHead] at hbad
  · have hsome := (h.yielding hyes).2.1
    simp [howner] at hsome

theorem RecordShape.yieldTo {record : ScheduledReview} (h : RecordShape record)
    (hyes : record.yieldRequested = true) (notBeforeMs : ℤ) (preserve : Option String) :
    RecordShape (record.yieldTo notBeforeMs preserve).1 := by
  obtain ⟨hmode, howner, hhint⟩ := h.yielding hyes
  have hready := h.ready_of_owned howner
  obtain ⟨hint, hsome⟩ := Option.isSome_iff_exists.mp hhint
  refine ⟨h.accepted, fun _ => ?_, fun hbad => ?_, fun hbad => ?_, fun hbad => ?_, h.reservations⟩
  · simp [ScheduledReview.yieldTo, detachChecksExceptPreserving, ScheduledReview.withHead,
      ScheduledReview.release, hsome, hready]
  · change record.metadataResolutionPending = true at hbad
    simp [hready] at hbad
  · change record.latestHeadHint = none at hbad
    simp [hsome] at hbad
  · exact absurd hbad Bool.false_ne_true

theorem RecordShape.step (h : RecordShape record)
    (hstep : RecordStep sha256 e record record' detached) : RecordShape record' := by
  cases hstep with
  | resolve hop hclaim => exact h.resolveHead hclaim _
  | claim hop hfree hready =>
    rw [ScheduledReview.claim_eq]
    refine ⟨h.accepted, h.headless, fun hbad => ?_, fun hnone => ?_, fun hyes => ?_, h.reservations⟩
    · change record.metadataResolutionPending = true at hbad
      simp [hready] at hbad
    · change record.request.headSha = none at hnone
      simp [ScheduledReview.claim, ScheduledReview.updateHeadCheck, hnone, h.bare hnone]
    · obtain ⟨hmode, -, hhint⟩ := h.yielding hyes
      exact ⟨hmode, rfl, hhint⟩
  | renew howns | pay _ _ hop =>
    exact ⟨h.accepted, h.headless, h.pending, h.bare, h.yielding, h.reservations⟩
  | bind hop howns =>
    exact h.bindHead (ownsUnexpired_isSome howns) rfl rfl rfl rfl rfl rfl id
  | spend hop howns =>
    exact h.bindHead (ownsUnexpired_isSome howns) rfl rfl rfl rfl rfl rfl fun _ => rfl
  | conclude hop howns =>
    exact h.bindHead (ownsUnexpired_isSome howns) rfl rfl rfl rfl rfl rfl id
  | rebind hop howns =>
    rw [ScheduledReview.bindCheck_eq]
    exact h.bindHead (ownsUnexpired_isSome howns) rfl rfl rfl rfl rfl rfl id
  | release howns hyield =>
    have hready := h.ready_of_owned (ownsUnexpired_isSome howns)
    refine ⟨h.accepted, h.headless, fun hbad => ?_, h.bare, fun hbad => ?_, h.reservations⟩
    · change record.metadataResolutionPending = true at hbad
      simp [hready] at hbad
    · change record.yieldRequested = true at hbad
      simp [hyield] at hbad
  | yieldTo howns hyield => exact h.yieldTo hyield _ _

theorem Quiet.ids (h : Quiet s s') : s'.ids = s.ids := by
  have hrecords := Forall₂.map_eq (f := fun record => record.acceptedIds)
    (g := fun record => record.acceptedIds) h.unfinished fun _ _ hq => hq.acceptedIds
  simp only [ReviewSchedulerState.ids, List.flatMap_def, hrecords, h.terminal]

theorem Shape.of_quiet (h : Shape s) (hq : Quiet s s') : Shape s' where
  records record' hmem := by
    obtain ⟨record, hrecord, hquiet⟩ := Forall₂.exists_left hq.unfinished hmem
    exact (h.records record hrecord).of_quiet hquiet
  ids := by rw [hq.ids]; exact h.ids
  incremental := by
    rw [Forall₂.filter_map_eq (q := ScheduledReview.isIncremental) (g := ScheduledReview.pr)
      hq.unfinished]
    · exact h.incremental
    · intro record record' hquiet
      simp [ScheduledReview.isIncremental, hquiet.request]
    · intro record record' hquiet
      simp [ScheduledReview.pr, hquiet.request]
  budgets := by rw [hq.incrementalHeads]; exact h.budgets

/-- Moving a removed record's ids to tombstones accounts for the same ids. -/
theorem complete_ids {outcome : TerminalOutcome} {expiresAtMs : ℤ}
    (hrem : Removed s.unfinished unfinished record) :
    ({ s with
        unfinished := unfinished
        retiredChecks := retiredChecks
        terminal := s.terminal ++ tombstones record.acceptedIds outcome expiresAtMs } :
      ReviewSchedulerState).ids.Perm s.ids := by
  have htombs : (tombstones record.acceptedIds outcome expiresAtMs).map
      (fun record => record.id) = record.acceptedIds := by
    simp [tombstones, Function.comp_def]
  have hperm := hrem.flatMap_perm fun record => record.acceptedIds
  simp only [ReviewSchedulerState.ids, List.map_append, htombs]
  refine List.Perm.trans ?_ (hperm.symm.append_right _)
  rw [← List.append_assoc]
  exact List.perm_append_comm.trans (by rw [List.append_assoc])

theorem map_pr_updateFirst {p : IncrementalHeadBudget → Bool}
    {f : IncrementalHeadBudget → IncrementalHeadBudget} (hf : ∀ budget, (f budget).pr = budget.pr)
    (budgets : List IncrementalHeadBudget) :
    (updateFirst p f budgets).map IncrementalHeadBudget.pr =
      budgets.map IncrementalHeadBudget.pr :=
  Forall₂.map_eq (forall₂_updateFirst (R := fun budget budget' => budget'.pr = budget.pr)
    (fun _ => rfl) (fun budget _ => hf budget) budgets) fun _ _ h => h

theorem settle_pr (outcome : TerminalOutcome) (budget : IncrementalHeadBudget) :
    (budget.settle outcome).pr = budget.pr := by
  unfold IncrementalHeadBudget.settle
  split_ifs <;> rfl

theorem settleHead_budgets (record : ScheduledReview) (outcome : TerminalOutcome) :
    (s.settleHead record outcome).incrementalHeads.map IncrementalHeadBudget.pr =
      s.incrementalHeads.map IncrementalHeadBudget.pr := by
  unfold ReviewSchedulerState.settleHead
  split_ifs
  · exact map_pr_updateFirst (settle_pr outcome) s.incrementalHeads
  · rfl

theorem Shape.of_removed {terminal : List ReviewTombstone} (h : Shape s)
    (hrem : Removed s.unfinished unfinished record) (hids : ({ s with
        unfinished := unfinished, retiredChecks := retiredChecks, terminal := terminal } :
      ReviewSchedulerState).ids.Perm s.ids) :
    Shape { s with
      unfinished := unfinished, retiredChecks := retiredChecks, terminal := terminal } where
  records other hmem := h.records other (hrem.sublist.subset hmem)
  ids := hids.nodup_iff.mpr h.ids
  incremental := h.incremental.sublist ((hrem.sublist.filter _).map _)
  budgets := h.budgets

/-- Replacing a record by one of the same request and mode. -/
theorem Shape.of_replaced (h : Shape s) (hrepl : Replaced s.unfinished unfinished record record')
    (hshape : RecordShape record') (hmode : record'.isIncremental = record.isIncremental)
    (hpr : record'.pr = record.pr)
    (hids : ({ s with unfinished := unfinished, retiredChecks := retiredChecks } :
      ReviewSchedulerState).ids.Nodup) :
    Shape { s with unfinished := unfinished, retiredChecks := retiredChecks } where
  records := hrepl.forall_mem h.records hshape
  ids := hids
  incremental := by
    obtain ⟨before, rest, hold, hnew⟩ := hrepl
    have hkeys := h.incremental
    rw [hold] at hkeys
    simp only [hnew, List.filter_append, List.filter_cons, hmode] at hkeys ⊢
    cases hcase : record.isIncremental <;> simpa [hcase, hpr] using hkeys
  budgets := h.budgets

theorem JoinStep.pr (h : JoinStep sha256 request record record' detached)
    (hrequest : request.mode = .incremental)
    (htarget : isIncrementalOf request.repo request.number record = true) :
    record'.isIncremental = record.isIncremental ∧ record'.pr = record.pr := by
  obtain ⟨hmode, hrepo, hnumber⟩ := isIncrementalOf_iff.mp htarget
  cases h with
  | keep => exact ⟨rfl, rfl⟩
  | coalesce =>
    unfold ScheduledReview.coalesce
    dsimp only
    split_ifs
    · exact ⟨rfl, rfl⟩
    all_goals
      simp [ScheduledReview.isIncremental, ScheduledReview.pr, hrequest, hmode, hrepo, hnumber]

theorem RecordStep.pr (h : RecordStep sha256 e record record' detached) :
    record'.isIncremental = record.isIncremental ∧ record'.pr = record.pr := by
  have hrequest := h.request.1
  simp only [ScheduledReview.isIncremental, ScheduledReview.pr]
  rw [hrequest]
  exact ⟨rfl, rfl⟩

theorem isFor_iff {repo : String} {number : ℕ} {budget : IncrementalHeadBudget} :
    budget.isFor repo number = true ↔ budget.repo = repo ∧ budget.number = number := by
  simp [IncrementalHeadBudget.isFor]

theorem budgetOf_eq_none_iff {repo : String} {number : ℕ} :
    s.budgetOf repo number = none ↔
      (repo, number) ∉ s.incrementalHeads.map IncrementalHeadBudget.pr := by
  simp [ReviewSchedulerState.budgetOf, IncrementalHeadBudget.isFor, IncrementalHeadBudget.pr]

theorem coalesceTarget_eq_none (h : s.coalesceTarget request = none)
    (hmode : request.mode = .incremental) :
    (request.repo, request.number) ∉
      (s.unfinished.filter ScheduledReview.isIncremental).map ScheduledReview.pr := by
  simp only [ReviewSchedulerState.coalesceTarget, hmode, if_true, List.find?_eq_none] at h
  intro hmem
  obtain ⟨record, hrecord, hpr⟩ := List.mem_map.mp hmem
  obtain ⟨hrecord, hincremental⟩ := List.mem_filter.mp hrecord
  refine h record hrecord (isIncrementalOf_iff.mpr ⟨isIncremental_iff.mp hincremental, ?_⟩)
  simpa [ScheduledReview.pr] using hpr

theorem Shape.enqueue (h : Shape s) (hnone : s.coalesceTarget request = none)
    (hfresh : request.id ∉ s.ids) :
    Shape { s with unfinished := s.unfinished ++ [ScheduledReview.enqueue sha256 request] } where
  records record hmem := by
    rcases List.mem_append.mp hmem with hold | hnew
    · exact h.records record hold
    · rw [List.mem_singleton.mp hnew]
      exact .enqueue request
  ids := (enqueue_ids request).nodup_iff.mpr (List.nodup_cons.mpr ⟨hfresh, h.ids⟩)
  incremental := by
    rw [List.filter_append, List.map_append]
    cases hcase : (ScheduledReview.enqueue sha256 request).isIncremental with
    | false => simpa [List.filter_cons, hcase] using h.incremental
    | true =>
      have hkey := coalesceTarget_eq_none hnone (isIncremental_iff.mp hcase)
      rw [List.filter_singleton, hcase, cond_true, List.map_singleton, ← List.concat_eq_append]
      exact h.incremental.concat hkey
  budgets := h.budgets

theorem Shape.effect (h : Shape s) (heffect : Effect sha256 e s s') : Shape s' := by
  cases heffect with
  | normalize => exact h.of_quiet h.normalizeLegacyRecords
  | prune =>
    exact ⟨h.records, h.ids.sublist ((List.filter_sublist.map _).append_left _), h.incremental,
      h.budgets⟩
  | pruneHistory => exact ⟨h.records, h.ids, h.incremental, h.budgets⟩
  | rearm request hop hmem =>
    refine ⟨h.records, h.ids, h.incremental, ?_⟩
    have hkeys := map_pr_updateFirst (p := fun budget =>
      budget.isFor request.repo request.number && budget.failed)
      (f := IncrementalHeadBudget.rearm) (fun _ => rfl) s.incrementalHeads
    exact hkeys.symm ▸ h.budgets
  | enqueue hop hmem hnone hfresh => exact h.enqueue hnone hfresh
  | join hop hmem hrepl htarget hstep hfresh =>
    obtain ⟨hrequest, hfind⟩ := coalesceTarget_eq_some htarget
    have hshape := h.records _ hrepl.mem_old
    have hincremental := (isIncrementalOf_iff.mp (List.find?_some hfind)).1
    have hpr := hstep.pr hrequest (List.find?_some hfind)
    refine h.of_replaced hrepl (hshape.join hrequest hincremental hstep) hpr.1 hpr.2 ?_
    exact (join_ids hrepl hstep).nodup_iff.mpr (List.nodup_cons.mpr ⟨hfresh, h.ids⟩)
  | record hrepl hstep =>
    have hshape := (h.records _ hrepl.mem_old).step hstep
    refine h.of_replaced hrepl hshape hstep.pr.1 hstep.pr.2 ?_
    have hids := hrepl.flatMap_eq (g := fun record => record.acceptedIds) hstep.request.2
    simpa only [ReviewSchedulerState.ids, hids] using h.ids
  | moveBudget =>
    refine ⟨h.records, h.ids, h.incremental, ?_⟩
    unfold ReviewSchedulerState.moveBudget ReviewSchedulerState.updateBudget
    dsimp only
    rw [map_pr_updateFirst]
    · exact h.budgets
    · exact fun _ => rfl
  | openBudget hop hmem hmode hnone =>
    refine ⟨h.records, h.ids, h.incremental, ?_⟩
    rw [List.map_append, List.map_singleton, ← List.concat_eq_append]
    exact h.budgets.concat (budgetOf_eq_none_iff.mp hnone)
  | payBudget _ _ _ hrepl =>
    refine ⟨h.records, h.ids, h.incremental, ?_⟩
    exact (hrepl.map_eq (g := IncrementalHeadBudget.pr) rfl).symm ▸ h.budgets
  | settle record outcome =>
    have hkeys := settleHead_budgets (s := s) record outcome
    rw [s.settleHead_eq]
    exact ⟨h.records, h.ids, h.incremental, hkeys.symm ▸ h.budgets⟩
  | complete _ hrem => exact h.of_removed hrem (complete_ids hrem)
  | decline hop hrem => exact h.of_removed hrem (complete_ids hrem)
  | acknowledge => exact ⟨h.records, h.ids, h.incremental, h.budgets⟩

theorem Shape.empty : Shape {} :=
  ⟨by simp, by simp [ReviewSchedulerState.ids], by simp, by simp⟩

theorem Shape.perform (h : Shape s) (sha256 : String → List UInt8) (e : Event) : Shape (perform sha256 s e).1 :=
  perform_preserves Shape.of_quiet Shape.effect h

/-- What quiet steps and effects on a well-formed journal keep, every operation keeps. -/
theorem Shape.preserves {I : ReviewSchedulerState → Prop} (h : Shape s) (hs : I s)
    (hquiet : ∀ {s s'}, I s → Quiet s s' → I s')
    (heffect : ∀ {s s'}, Shape s → I s → Effect sha256 e s s' → I s') :
    I (ReviewJob.perform sha256 s e).1 := by
  have hboth : Shape (ReviewJob.perform sha256 s e).1 ∧ I (ReviewJob.perform sha256 s e).1 := by
    apply perform_preserves (I := fun s => Shape s ∧ I s) _ _ ⟨h, hs⟩
    · intro s s' h hq
      exact ⟨h.1.of_quiet hq, hquiet h.2 hq⟩
    · intro s s' h hstep
      exact ⟨h.1.effect hstep, heffect h.1 h.2 hstep⟩
  exact hboth.2

theorem Shape.prepared (h : Shape s) (nowMs : ℤ) : Shape (s.prepared nowMs) := by
  have hnormal := h.of_quiet h.normalizeLegacyRecords
  exact ⟨hnormal.records, hnormal.ids.sublist ((List.filter_sublist.map _).append_left _),
    hnormal.incremental, hnormal.budgets⟩

theorem Shape.rearmed (h : Shape s) (request : ReviewRequest) :
    Shape (if request.isExplicitRerequest then s.rearmFailedHead request.repo request.number
      else s) := by
  split_ifs with hexplicit
  · have heffect : Effect (fun _ => []) ⟨0, .admitBatch [request]⟩ s
        (s.rearmFailedHead request.repo request.number) :=
      .rearm request rfl List.mem_cons_self hexplicit
    exact h.effect heffect
  · exact h

/-- Induction over an admitted batch; `P` may depend on the requests still to come. -/
theorem Shape.foldl_admitRequest (sha256 : String → List UInt8)
    {P : List ReviewRequest → ReviewSchedulerState → Prop}
    (hstep : ∀ (s : ReviewSchedulerState) (request : ReviewRequest) (rest : List ReviewRequest),
      Shape s → request.id ∉ s.ids → P (request :: rest) s →
        P rest (s.admitRequest sha256 request))
    {requests : List ReviewRequest} (hshape : Shape s)
    (hnodup : (requests.map fun request => request.id).Nodup)
    (hfresh : ∀ request ∈ requests, request.id ∉ s.ids) (h : P requests s) :
    P [] (requests.foldl (ReviewSchedulerState.admitRequest sha256) s) := by
  induction requests generalizing s with
  | nil => exact h
  | cons request rest ih =>
    rw [List.map_cons, List.nodup_cons] at hnodup
    let e : Event := ⟨0, .admitBatch (request :: rest)⟩
    have hids := rearmed_ids s request
    have hnew := hfresh request List.mem_cons_self
    have hplaced := placeRequest_effect (e := e) sha256 rfl List.mem_cons_self (hids ▸ hnew)
    apply ih ((hshape.rearmed request).effect hplaced.1) hnodup.2
    · intro other hother hbad
      rcases List.mem_cons.mp (hplaced.2.mem_iff.mp hbad) with hsame | hold
      · exact hnodup.1 (hsame ▸ List.mem_map_of_mem hother)
      · exact hfresh other (List.mem_cons_of_mem _ hother) (hids ▸ hold)
    · exact hstep s request rest hshape hnew h

theorem Shape.nodup (h : Shape s) : s.unfinished.Nodup := by
  have hpairs := (List.nodup_flatMap.mp (List.nodup_append.mp h.ids).1).2
  apply hpairs.imp_of_mem
  rintro a b ha - hdisjoint rfl
  exact hdisjoint (h.records a ha).accepted (h.records a ha).accepted

theorem Shape.record_unique (h : Shape s) {a b : ScheduledReview} (ha : a ∈ s.unfinished)
    (hb : b ∈ s.unfinished) {id : ReviewJobId} (hia : id ∈ a.acceptedIds)
    (hib : id ∈ b.acceptedIds) : a = b :=
  eq_of_mem_flatMap (List.nodup_append.mp h.ids).1 ha hb hia hib

/-- A pull request has one unfinished incremental record. -/
theorem Shape.incremental_unique (h : Shape s) {a b : ScheduledReview} (ha : a ∈ s.unfinished)
    (hb : b ∈ s.unfinished) (hmode : a.request.mode = .incremental)
    (hmode' : b.request.mode = .incremental) (hpr : a.pr = b.pr) : a = b := by
  have hinj := List.inj_on_of_nodup_map h.incremental
  apply hinj
  · exact List.mem_filter.mpr ⟨ha, isIncremental_iff.mpr hmode⟩
  · exact List.mem_filter.mpr ⟨hb, isIncremental_iff.mpr hmode'⟩
  · exact hpr

/-- No other incremental record has the pull request of a removed one. -/
theorem Shape.removed_pr (h : Shape s) {other : ScheduledReview}
    (hrem : Removed s.unfinished unfinished record) (hmode : record.request.mode = .incremental)
    (hmem : other ∈ unfinished) (hother : other.request.mode = .incremental) :
    other.pr ≠ record.pr := by
  obtain ⟨before, rest, hold, rfl⟩ := hrem
  have hkeys := h.incremental
  rw [hold, (List.perm_middle.filter _ |>.map _).nodup_iff, List.filter_cons,
    if_pos (isIncremental_iff.mpr hmode), List.map_cons, List.nodup_cons] at hkeys
  intro hpr
  apply hkeys.1
  rw [← hpr]
  exact List.mem_map_of_mem (List.mem_filter.mpr ⟨hmem, isIncremental_iff.mpr hother⟩)

/-- Every journal reached from the empty one is shaped, whatever its clock did. -/
theorem Shape.after (sha256 : String → List UInt8) (t : ℤ) (events : List Event) :
    Shape (after sha256 (.start t) events).state :=
  after_invariant (fun _ e h => h.perform sha256 e) Shape.empty events

end TinySweeper.ReviewJob
