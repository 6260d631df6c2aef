import TinySweeper.ReviewJob.Confirmation

/-!
# No review is stranded

A record whose checks are all for other heads is never claimed again. `Steady` is the
invariant that rules this out; a batch may break it record by record, so inside the
admission loop it is carried together with what the rest of the batch still brings.
-/

namespace TinySweeper.ReviewJob

open FirstMatch Runs

variable {sha256 : String → List UInt8} {e : Event} {s s' : ReviewSchedulerState}
variable {record record' : ScheduledReview} {request : ReviewRequest} {rest : List ReviewRequest}

/-- The record has a check for its own head. -/
def ScheduledReview.holdsHead (record : ScheduledReview) : Bool :=
  record.reviewChecks.any fun check => some check.headSha == record.request.headSha

/-- The pull request's budget stands at the record's head with a terminal result. -/
def settledAt (s : ReviewSchedulerState) (record : ScheduledReview) : Bool :=
  record.request.mode == .incremental &&
    (s.budgetOf record.request.repo record.request.number).any fun budget =>
      some budget.headSha == record.request.headSha && budget.existingTerminal.isSome

/-- The checks of a record agree with its head, or nothing depends on them. -/
def Steady (s : ReviewSchedulerState) (record : ScheduledReview) : Prop :=
  record.reviewChecks = [] ∨ record.holdsHead = true ∨
    record.yieldRequested = true ∧ settledAt s record = true

/-- A published check has been identified. -/
def Identified (record : ScheduledReview) : Prop :=
  ∀ check ∈ record.reviewChecks, check.published = true → check.checkId.isSome = true

structure Progressing (s : ReviewSchedulerState) : Prop where
  steady : ∀ record ∈ s.unfinished, Steady s record
  identified : ∀ record ∈ s.unfinished, Identified record

theorem Progressing.empty : Progressing {} :=
  ⟨fun _ hmem => absurd hmem List.not_mem_nil, fun _ hmem => absurd hmem List.not_mem_nil⟩

theorem holdsHead_iff : record.holdsHead = true ↔
    ∃ check ∈ record.reviewChecks, some check.headSha = record.request.headSha := by
  simp [ScheduledReview.holdsHead]

theorem settledAt_iff : settledAt s record = true ↔ record.request.mode = .incremental ∧
      ∃ budget, s.budgetOf record.request.repo record.request.number = some budget ∧
        some budget.headSha = record.request.headSha ∧ budget.existingTerminal ≠ none := by
  simp [settledAt, Option.any_eq_true, Option.isSome_iff_ne_none]

/-- What a steady record depends on: heads of checks, the request, the yield flag, the budget. -/
theorem Steady.mono (h : Steady s record)
    (hchecks : record'.reviewChecks.map (fun check => check.headSha) =
      record.reviewChecks.map fun check => check.headSha)
    (hrequest : record'.request = record.request)
    (hyield : record.yieldRequested = true → record'.yieldRequested = true)
    (hsettled : settledAt s record = true → settledAt s' record = true) : Steady s' record' := by
  rcases h with hnil | hholds | ⟨hyes, hat⟩
  · left
    rw [hnil] at hchecks
    exact List.map_eq_nil_iff.mp hchecks
  · right; left
    obtain ⟨check, hmem, hhead⟩ := holdsHead_iff.mp hholds
    have hmem' := List.mem_map_of_mem (f := fun check => check.headSha) hmem
    rw [← hchecks] at hmem'
    obtain ⟨check', hmem', hsame⟩ := List.mem_map.mp hmem'
    exact holdsHead_iff.mpr ⟨check', hmem', by rw [hsame, hhead, hrequest]⟩
  · right; right
    refine ⟨hyield hyes, ?_⟩
    have hat' := hsettled hat
    unfold settledAt at hat' ⊢
    rw [hrequest]
    exact hat'

/-- The checks that stay are those of one head, so they agree with a record on that head. -/
theorem steady_detached {headSha preserve : Option String}
    (hhead : record.request.headSha = headSha) :
    Steady s (detachChecksExceptPreserving record headSha preserve).1 := by
  cases hchecks : (detachChecksExceptPreserving record headSha preserve).1.reviewChecks with
  | nil => exact .inl hchecks
  | cons check rest =>
    right; left
    have hmem : check ∈ (detachChecksExceptPreserving record headSha preserve).1.reviewChecks := by
      simp [hchecks]
    have hkept := (List.mem_filter.mp hmem).2
    refine holdsHead_iff.mpr ⟨check, hmem, ?_⟩
    rw [beq_iff_eq] at hkept
    exact hkept.trans hhead.symm

theorem holdsHead_bindCheck {headSha : String} {generation : ℕ}
    (hhead : record.request.headSha = some headSha) :
    (record.bindCheck sha256 headSha generation).1.holdsHead = true := by
  rw [holdsHead_iff]
  unfold ScheduledReview.bindCheck
  cases hfind : record.reviewChecks.find? (fun check => check.headSha == headSha) with
  | none =>
    refine ⟨queuedCheck sha256 record.request.id headSha (some generation), ?_, hhead.symm⟩
    exact List.mem_append_right _ List.mem_cons_self
  | some check =>
    have hrepl := updateFirst_replaced
      (fun check : ReviewCheckRecord => { check with ownerGeneration := some generation }) hfind
    have hsame := List.find?_some hfind
    rw [beq_iff_eq] at hsame
    exact ⟨_, hrepl.mem_new, by rw [← hsame] at hhead; exact hhead.symm⟩

theorem updateFirst_map_headSha {p : ReviewCheckRecord → Bool}
    {f : ReviewCheckRecord → ReviewCheckRecord} (hf : ∀ check, (f check).headSha = check.headSha)
    (checks : List ReviewCheckRecord) :
    (updateFirst p f checks).map (fun check => check.headSha) =
      checks.map fun check => check.headSha :=
  Forall₂.map_eq (forall₂_updateFirst
    (R := fun check check' : ReviewCheckRecord => check'.headSha = check.headSha)
    (fun _ => rfl) (fun check _ => hf check) checks) fun _ _ h => h

theorem claim_map_headSha (owner : String) (nowMs : ℤ) (record : ScheduledReview) :
    (record.claim owner nowMs).reviewChecks.map (fun check => check.headSha) =
      record.reviewChecks.map fun check => check.headSha := by
  unfold ScheduledReview.claim ScheduledReview.updateHeadCheck
  split
  · rfl
  · exact updateFirst_map_headSha (by intro; rfl) _

theorem holdsHead_resolveHead (headSha : String) (job : ScheduledReview) :
    (job.resolveHead sha256 headSha).holdsHead = true := by
  rw [holdsHead_iff]
  unfold ScheduledReview.resolveHead
  dsimp only
  split_ifs with hany
  · obtain ⟨check, hmem, hhead⟩ := List.any_eq_true.mp hany
    rw [beq_iff_eq] at hhead
    exact ⟨check, hmem, congrArg some hhead⟩
  · exact ⟨_, List.mem_append_right _ List.mem_cons_self, rfl⟩

theorem Steady.step (hconfirm : ∀ owned headSha, ¬ e.operation.confirms owned headSha)
    {detached : List RetiredReviewCheck} (h : Steady s record)
    (hstep : RecordStep sha256 e record record' detached) : Steady s record' := by
  cases hstep with
  | resolve => exact .inr (.inl (holdsHead_resolveHead _ _))
  | claim =>
    rw [ScheduledReview.claim_eq]
    exact h.mono (claim_map_headSha _ _ _) rfl id id
  | renew | pay => exact h.mono rfl rfl id id
  | bind hop | spend hop => exact absurd hop (hconfirm _ _)
  | conclude hop | rebind hop => exact absurd (.inr hop) (hconfirm _ _)
  | release howns hyield =>
    refine h.mono rfl rfl (fun hyes => ?_) id
    simp [hyield] at hyes
  | yieldTo => exact steady_detached rfl

/-- Budgets that keep their heads and results keep records settled. -/
theorem settledAt_of_budgets (h : settledAt s record = true)
    (hbudgets : ∀ budget, s.budgetOf record.request.repo record.request.number = some budget →
      budget.existingTerminal ≠ none →
        ∃ budget', s'.budgetOf record.request.repo record.request.number = some budget' ∧
          budget'.headSha = budget.headSha ∧ budget'.existingTerminal ≠ none) :
    settledAt s' record = true := by
  obtain ⟨hmode, budget, hbudget, hhead, hterminal⟩ := settledAt_iff.mp h
  obtain ⟨budget', hbudget', hsame, hterminal'⟩ := hbudgets budget hbudget hterminal
  exact settledAt_iff.mpr ⟨hmode, budget', hbudget', by rw [hsame, hhead], hterminal'⟩

/-- Records that keep to their budgets stay steady. -/
theorem Progressing.of_budgets (h : Progressing s) (hunfinished : s'.unfinished = s.unfinished)
    (hbudgets : ∀ repo number budget, s.budgetOf repo number = some budget →
      budget.existingTerminal ≠ none → ∃ budget', s'.budgetOf repo number = some budget' ∧
        budget'.headSha = budget.headSha ∧ budget'.existingTerminal ≠ none) :
    Progressing s' where
  steady record hmem := by
    rw [hunfinished] at hmem
    exact (h.steady record hmem).mono rfl rfl id fun hat =>
      settledAt_of_budgets hat fun budget hbudget => hbudgets _ _ budget hbudget
  identified := by
    rw [hunfinished]
    exact h.identified

theorem settle_keeps_terminal {outcome : TerminalOutcome} {repo : String} {number : ℕ}
    {budget : IncrementalHeadBudget} (hbudget : s.budgetOf repo number = some budget)
    (hterminal : budget.existingTerminal ≠ none) :
    (s.settleHead record outcome).budgetOf repo number = some budget := by
  unfold ReviewSchedulerState.settleHead
  split_ifs
  · rcases find?_updateFirst_cases (f := IncrementalHeadBudget.settle outcome)
      (p := fun budget => budget.isFor record.request.repo record.request.number)
      (q := fun budget => budget.isFor repo number) (settle_isFor outcome repo number)
      s.incrementalHeads with hsame | ⟨found, hq, -, hnew⟩
    · exact hsame.trans hbudget
    · have heq : found = budget := Option.some.inj (hq.symm.trans hbudget)
      subst heq
      obtain ⟨result, hresult⟩ := Option.ne_none_iff_exists'.mp hterminal
      rw [settle_of_terminal hresult] at hnew
      exact hnew
  · exact hbudget

theorem Identified.of_checks (h : Identified record)
    (hchecks : ∀ check' ∈ record'.reviewChecks, check'.published = false ∨
      ∃ check ∈ record.reviewChecks, check'.published = check.published ∧
        check'.checkId = check.checkId) : Identified record' := by
  intro check' hmem hpublished
  rcases hchecks check' hmem with hfresh | ⟨check, hold, hsame, hid⟩
  · simp [hfresh] at hpublished
  · rw [hid]
    exact h check hold (hsame ▸ hpublished)

/-- An edit of one check that keeps its publication. -/
theorem Identified.updateFirst {p : ReviewCheckRecord → Bool}
    {f : ReviewCheckRecord → ReviewCheckRecord} (h : Identified record)
    (hf : ∀ check, (f check).published = check.published ∧ (f check).checkId = check.checkId)
    (hchecks : record'.reviewChecks = FirstMatch.updateFirst p f record.reviewChecks) :
    Identified record' := by
  apply h.of_checks
  intro check' hmem
  rw [hchecks] at hmem
  rcases mem_updateFirst hmem with hold | ⟨check, hold, -, rfl⟩
  · exact .inr ⟨check', hold, rfl, rfl⟩
  · exact .inr ⟨check, hold, hf check⟩

theorem Identified.append {check : ReviewCheckRecord} (h : Identified record)
    (hfresh : check.published = false)
    (hchecks : record'.reviewChecks = record.reviewChecks ++ [check]) : Identified record' := by
  apply h.of_checks
  intro check' hmem
  rw [hchecks] at hmem
  rcases List.mem_append.mp hmem with hold | hnew
  · exact .inr ⟨check', hold, rfl, rfl⟩
  · rw [List.mem_singleton.mp hnew]
    exact .inl hfresh

theorem Identified.subset (h : Identified record)
    (hchecks : record'.reviewChecks ⊆ record.reviewChecks) : Identified record' :=
  fun check hmem => h check (hchecks hmem)

theorem Identified.bindCheck (h : Identified record) (headSha : String) (generation : ℕ) :
    Identified (record.bindCheck sha256 headSha generation).1 := by
  unfold ScheduledReview.bindCheck
  split
  · exact h.updateFirst (by intro; exact ⟨rfl, rfl⟩) rfl
  · exact h.append rfl rfl

theorem Identified.step {detached : List RetiredReviewCheck} (h : Identified record)
    (hstep : RecordStep sha256 e record record' detached) : Identified record' := by
  cases hstep with
  | resolve =>
    unfold ScheduledReview.resolveHead
    dsimp only
    split_ifs
    · exact h
    · exact h.append rfl rfl
  | claim =>
    unfold ScheduledReview.claim ScheduledReview.updateHeadCheck
    split
    · exact h
    · exact h.updateFirst (by intro; exact ⟨rfl, rfl⟩) rfl
  | renew | pay | bind | spend | release => exact h
  | conclude | yieldTo => exact h.subset (List.filter_sublist.subset)
  | @rebind owned headSha =>
    have hkept : Identified (detachChecksExcept (record.withHead (some headSha))
        (some headSha)).1 := h.subset (List.filter_sublist.subset)
    exact hkept.bindCheck _ _

theorem Identified.join {request : ReviewRequest} {record record' : ScheduledReview}
    {detached : List RetiredReviewCheck} (h : Identified record)
    (hstep : JoinStep sha256 request record record' detached) : Identified record' := by
  cases hstep with
  | keep => exact h
  | coalesce =>
    have haccepted : Identified (record.acceptDelivery sha256 request) := by
      unfold ScheduledReview.acceptDelivery
      split
      · exact h
      · dsimp only
        split_ifs
        · exact h
        · exact h.append rfl rfl
    unfold ScheduledReview.coalesce
    dsimp only
    split_ifs
    · exact haccepted
    · exact haccepted.subset (List.filter_sublist.subset)
    · exact haccepted

theorem Progressing.of_replaced {unfinished : List ScheduledReview}
    {retiredChecks : List RetiredReviewCheck} (h : Progressing s)
    (hrepl : Replaced s.unfinished unfinished record record') (hsteady : Steady s record')
    (hidentified : Identified record') :
    Progressing { s with unfinished := unfinished, retiredChecks := retiredChecks } where
  steady := hrepl.forall_mem h.steady hsteady
  identified := hrepl.forall_mem h.identified hidentified

theorem Progressing.quiet (h : Progressing s) (hquiet : Quiet s s') : Progressing s' where
  steady record' hmem := by
    obtain ⟨record, hrecord, hq⟩ := Forall₂.exists_left hquiet.unfinished hmem
    apply (h.steady record hrecord).mono
    · exact Forall₂.map_eq hq.reviewChecks fun _ _ hcheck => hcheck.headSha
    · exact hq.request
    · exact fun hyes => hq.yieldRequested.trans hyes
    · simp only [settledAt, ReviewSchedulerState.budgetOf, hquiet.incrementalHeads, imp_self]
  identified record' hmem check' hcheck' hpublished := by
    obtain ⟨record, hrecord, hq⟩ := Forall₂.exists_left hquiet.unfinished hmem
    obtain ⟨check, hcheck, hsame⟩ := Forall₂.exists_left hq.reviewChecks hcheck'
    exact hsame.identified (h.identified record hrecord check hcheck) hpublished

theorem Progressing.effect (hconfirm : ∀ owned headSha, ¬ e.operation.confirms owned headSha)
    (hbatch : ∀ requests, e.operation ≠ .admitBatch requests) (hshape : Shape s)
    (h : Progressing s) (heffect : Effect sha256 e s s') : Progressing s' := by
  cases heffect with
  | normalize => exact h.quiet hshape.normalizeLegacyRecords
  | prune hop | rearm _ hop | enqueue hop | join hop => exact absurd hop (hbatch _)
  | pruneHistory | acknowledge => exact ⟨h.steady, h.identified⟩
  | record hrepl hstep =>
    exact h.of_replaced hrepl ((h.steady _ hrepl.mem_old).step hconfirm hstep)
      ((h.identified _ hrepl.mem_old).step hstep)
  | moveBudget hop | openBudget hop => exact absurd hop (hconfirm _ _)
  | payBudget paidAttempts ownershipRefunds hop hrepl =>
    refine h.of_budgets rfl ?_
    intro repo number budget hbudget hterminal
    rcases hrepl.find?_cases (q := fun budget => budget.isFor repo number) rfl
      with hsame | ⟨hold, hnew⟩
    · exact ⟨budget, hsame.trans hbudget, rfl, hterminal⟩
    · have heq := Option.some.inj (hold.symm.trans hbudget)
      subst heq
      exact ⟨_, hnew, rfl, hterminal⟩
  | settle record outcome =>
    refine h.of_budgets (s.settleHead_unfinished record outcome) ?_
    intro repo number budget hbudget hterminal
    exact ⟨budget, settle_keeps_terminal hbudget hterminal, rfl, hterminal⟩
  | complete hop hrem | decline hop hrem =>
    exact ⟨fun record hmem => h.steady record (hrem.sublist.subset hmem),
      fun record hmem => h.identified record (hrem.sublist.subset hmem)⟩

theorem Progressing.rebound {owned : OwnedReview} {headSha : String} {nowMs : ℤ}
    {c : ReviewSchedulerState} {record record' : ScheduledReview}
    {unfinished : List ScheduledReview} {retiredChecks : List RetiredReviewCheck}
    (h : Progressing s) (hshape : Shape s) (hconfirm : ConfirmStep s owned headSha nowMs (c, true))
    (hfind : s.unfinished.find? (ownsUnexpired owned nowMs) = some record)
    (hrepl : Replaced s.unfinished unfinished record record') (hsteady : Steady c record')
    (hidentified : Identified record') :
    Progressing { c with unfinished := unfinished, retiredChecks := retiredChecks } where
  steady other hother := by
    rcases hrepl.mem_cases_of_nodup hshape.nodup hother with rfl | ⟨hold, hne⟩
    · exact hsteady
    apply (h.steady other hold).mono rfl rfl id
    intro hat
    have hmode := (settledAt_iff.mp hat).1
    apply settledAt_of_budgets hat
    intro budget hbudget hterminal
    have hforeign : record.request.mode = .incremental →
        (other.request.repo, other.request.number) ≠ record.pr := by
      intro hmode' hpr
      exact hne (hshape.incremental_unique hold hrepl.mem_old hmode hmode' hpr)
    have hsame := hconfirm.budgetOf_of_ne hfind hforeign
    exact ⟨budget, hsame.trans hbudget, rfl, hterminal⟩
  identified := hrepl.forall_mem h.identified hidentified

theorem Progressing.reconciled {owned : OwnedReview} {headSha : String} {nowMs : ℤ}
    {r : ReviewSchedulerState × ReconciledReviewCheck} (h : Progressing s) (hshape : Shape s)
    (hstep : ReconcileStep sha256 s owned headSha nowMs r) : Progressing r.1 := by
  cases hstep with
  | lost | deferred => exact h
  | refused hconfirm =>
    cases hconfirm with
    | lost => exact h
    | refused => exact ⟨h.steady, h.identified⟩
  | @concluded c record bound hroom hconfirm hfind hbound =>
    have hidentified : Identified bound := by
      rw [hbound]
      exact h.identified record (List.mem_of_find?_eq_some hfind)
    apply h.rebound hshape hconfirm hfind (updateFirst_replaced _ hfind)
    · exact steady_detached (by rw [hbound]; rfl)
    · exact hidentified.subset List.filter_sublist.subset
  | @rebound c record bound reply hroom hconfirm hfind hbound =>
    have hidentified : Identified bound := by
      rw [hbound]
      exact h.identified record (List.mem_of_find?_eq_some hfind)
    have hkept : Identified (detachChecksExcept bound (some headSha)).1 :=
      hidentified.subset List.filter_sublist.subset
    apply h.rebound hshape hconfirm hfind (updateFirst_replaced _ hfind)
    · exact .inr (.inl (holdsHead_bindCheck (by rw [hbound]; rfl)))
    · exact hkept.bindCheck _ _

/-- The request coalesces into this record. -/
def aims (request : ReviewRequest) (record : ScheduledReview) : Bool :=
  request.mode == .incremental && isIncrementalOf request.repo request.number record

/-- The batch leaves the record a check for its head, or without any check, or on a settled
head that the batch does not re-arm. Only an owned record keeps its head through a batch. -/
def keepsSteady (s : ReviewSchedulerState) (requests : List ReviewRequest)
    (record : ScheduledReview) : Bool :=
  record.owner.isNone || record.holdsHead ||
    requests.any (fun request => aims request record &&
      request.headSha == record.request.headSha) ||
    record.reviewChecks.isEmpty &&
      requests.all (fun request => !aims request record || request.headSha.isNone) ||
    settledAt s record &&
      (requests.all (fun request => !(aims request record && request.isExplicitRerequest)) ||
        (s.budgetOf record.request.repo record.request.number).all fun budget => !budget.failed)

/-- A record on its way through a batch, by what the requests still to come do for it. -/
inductive Promised (rest : List ReviewRequest) (s : ReviewSchedulerState)
    (record : ScheduledReview) : Prop
  | holds (hholds : record.holdsHead = true)
  | bare (hnil : record.reviewChecks = [])
      (hheadless : record.owner.isSome = true → ∀ request ∈ rest, aims request record = true →
        request.headSha = none)
  | promised (howner : record.owner.isSome = true)
      (hnamed : ∃ request ∈ rest, aims request record = true ∧
        request.headSha = record.request.headSha)
  | settled (howner : record.owner.isSome = true)
      (hyield : record.reviewChecks = [] ∨ record.yieldRequested = true)
      (hat : settledAt s record = true)
      (hkept : ∀ request ∈ rest, aims request record = true →
        request.isExplicitRerequest = true → ∀ budget,
          s.budgetOf record.request.repo record.request.number = some budget →
            budget.failed = false)

theorem aims_iff : aims request record = true ↔ request.mode = .incremental ∧
      record.request.mode = .incremental ∧ record.request.repo = request.repo ∧
        record.request.number = request.number := by
  simp [aims, isIncrementalOf_iff]

theorem Promised.steady (h : Promised [] s record) : Steady s record := by
  cases h with
  | holds hholds => exact .inr (.inl hholds)
  | bare hnil => exact .inl hnil
  | promised howner hnamed =>
    obtain ⟨request, hmem, -⟩ := hnamed
    simp at hmem
  | settled howner hyield hat =>
    rcases hyield with hnil | hyes
    · exact .inl hnil
    · exact .inr (.inr ⟨hyes, hat⟩)

theorem Promised.start {requests : List ReviewRequest} {record : ScheduledReview}
    (hshape : RecordShape record) (h : Steady s record)
    (hguard : keepsSteady s requests record = true) : Promised requests s record := by
  by_cases hholds : record.holdsHead = true
  · exact .holds hholds
  cases howner : record.owner.isSome with
  | false =>
    rcases h with hnil | hhead | ⟨hyes, -⟩
    · exact .bare hnil fun hsome => by simp [howner] at hsome
    · exact absurd hhead hholds
    · have hsome := (hshape.yielding hyes).2.1
      simp [howner] at hsome
  | true =>
    have hnone : record.owner.isNone = false := by simpa using howner
    simp only [keepsSteady, hnone, hholds, Bool.false_or, Bool.or_eq_true, Bool.and_eq_true,
      List.any_eq_true, List.all_eq_true, List.isEmpty_iff, Bool.not_eq_true', beq_iff_eq,
      Bool.and_eq_false_iff, Option.isNone_iff_eq_none, Option.all_eq_true] at hguard
    rcases hguard with (hnamed | ⟨hnil, hheadless⟩) | ⟨hat, hkept⟩
    · exact .promised howner hnamed
    · refine .bare hnil fun _ request hmem haims => ?_
      rcases hheadless request hmem with hfar | hnone
      · simp [haims] at hfar
      · exact hnone
    · apply Promised.settled howner _ hat
      · intro request hmem haims hexplicit budget hbudget
        rcases hkept with hplain | hopen
        · have hbad := hplain request hmem
          simp [haims, hexplicit] at hbad
        · exact hopen budget hbudget
      · rcases h with hnil | hhead | ⟨hyes, -⟩
        · exact .inl hnil
        · exact absurd hhead hholds
        · exact .inr hyes

/-- A request for another pull request leaves the promises to this record open. -/
theorem Promised.skip (h : Promised (request :: rest) s record)
    (haims : aims request record = false) : Promised rest s record := by
  cases h with
  | holds hholds => exact .holds hholds
  | bare hnil hheadless =>
    exact .bare hnil fun howner other hmem => hheadless howner other (List.mem_cons_of_mem _ hmem)
  | promised howner hnamed =>
    obtain ⟨other, hmem, hother, hhead⟩ := hnamed
    rcases List.mem_cons.mp hmem with rfl | hmem
    · simp [haims] at hother
    · exact .promised howner ⟨other, hmem, hother, hhead⟩
  | settled howner hyield hat hkept =>
    exact .settled howner hyield hat fun other hmem => hkept other (List.mem_cons_of_mem _ hmem)

/-- Re-arming spares a budget that has not failed. -/
theorem rearm_budgetOf {repo repo' : String} {number number' : ℕ}
    (h : ∀ budget, s.budgetOf repo number = some budget → repo = repo' → number = number' →
      budget.failed = false) :
    (s.rearmFailedHead repo' number').budgetOf repo number = s.budgetOf repo number := by
  rcases find?_updateFirst_cases (q := fun budget => budget.isFor repo number)
    (p := fun budget => budget.isFor repo' number' && budget.failed)
    (f := IncrementalHeadBudget.rearm) (fun _ => rfl) s.incrementalHeads
    with hsame | ⟨budget, hq, hp, -⟩
  · exact hsame
  · have hfor := List.find?_some (p := fun b : IncrementalHeadBudget => b.isFor repo number) hq
    have hfailed := List.find?_some hp
    rw [Bool.and_eq_true] at hfailed
    obtain ⟨hrepo, hnumber⟩ := isFor_iff.mp hfor
    obtain ⟨hrepo', hnumber'⟩ := isFor_iff.mp hfailed.1
    have hopen := h budget hq (hrepo.symm.trans hrepo') (hnumber.symm.trans hnumber')
    simp [hopen] at hfailed

theorem Promised.rearm (h : Promised (request :: rest) s record)
    (hexplicit : request.isExplicitRerequest = true) :
    Promised (request :: rest) (s.rearmFailedHead request.repo request.number) record := by
  cases h with
  | holds hholds => exact .holds hholds
  | bare hnil hheadless => exact .bare hnil hheadless
  | promised howner hnamed => exact .promised howner hnamed
  | settled howner hyield hat hkept =>
    have hmode : request.mode = .incremental := by
      simp only [ReviewRequest.isExplicitRerequest, Bool.and_eq_true, beq_iff_eq] at hexplicit
      exact hexplicit.1
    have hsame : (s.rearmFailedHead request.repo request.number).budgetOf record.request.repo
        record.request.number = s.budgetOf record.request.repo record.request.number := by
      apply rearm_budgetOf
      intro budget hbudget hrepo hnumber
      have haims := aims_iff.mpr ⟨hmode, (settledAt_iff.mp hat).1, hrepo, hnumber⟩
      exact hkept request List.mem_cons_self haims hexplicit budget hbudget
    apply Promised.settled howner hyield
    · unfold settledAt at hat ⊢
      rwa [hsame]
    · rwa [hsame]

theorem holdsHead_acceptDelivery (h : record.holdsHead = true) :
    (record.acceptDelivery sha256 request).holdsHead = true := by
  obtain ⟨check, hmem, hhead⟩ := holdsHead_iff.mp h
  refine holdsHead_iff.mpr ⟨check, ?_, hhead⟩
  unfold ScheduledReview.acceptDelivery
  split
  · exact hmem
  · dsimp only
    split_ifs
    · exact hmem
    · exact List.mem_append_left _ hmem

/-- A delivery brings a check for the head it names. -/
theorem mem_acceptDelivery (sha256 : String → List UInt8) {headSha : String}
    (hhead : request.headSha = some headSha) (record : ScheduledReview) :
    ∃ check ∈ (record.acceptDelivery sha256 request).reviewChecks, check.headSha = headSha := by
  simp only [ScheduledReview.acceptDelivery, hhead]
  split_ifs with hany
  · obtain ⟨check, hmem, hsame⟩ := List.any_eq_true.mp hany
    exact ⟨check, hmem, beq_iff_eq.mp hsame⟩
  · exact ⟨_, List.mem_append_right _ List.mem_cons_self, rfl⟩

/-- An unowned record follows the request it coalesces with. -/
theorem promised_follow (hshape : RecordShape record)
    (hkeep : keepsAcceptedHead request record = false) (howner : record.owner.isSome = false) :
    Promised rest s (record.coalesce sha256 request).1 := by
  cases hhead : request.headSha with
  | none =>
    have hnone : record.request.headSha = none := by
      simpa [keepsAcceptedHead, hhead] using hkeep
    have hnil : (record.acceptDelivery sha256 request).reviewChecks = [] := by
      simp [ScheduledReview.acceptDelivery, ScheduledReview.acceptId, hhead, hshape.bare hnone]
    refine .bare ?_ fun hsome => ?_
    · simp [ScheduledReview.coalesce, howner, hnone, hhead, hnil]
    · simp [ScheduledReview.coalesce, howner, hnone, hhead, ScheduledReview.acceptDelivery,
        ScheduledReview.acceptId] at hsome
  | some headSha =>
    obtain ⟨check, hmem, hsame⟩ := mem_acceptDelivery sha256 hhead record
    refine .holds (holdsHead_iff.mpr ⟨check, ?_⟩)
    unfold ScheduledReview.coalesce
    simp only [howner, Bool.false_eq_true, if_false]
    split_ifs
    · refine ⟨List.mem_filter.mpr ⟨hmem, ?_⟩, ?_⟩ <;> simp [hsame, hhead]
    · exact ⟨hmem, by rw [hsame, hhead]⟩

/-- An owned record keeps its head and gains the check of the request. -/
theorem Promised.absorb (h : Promised (request :: rest) s record)
    (haims : aims request record = true) (hnamed : request.headSha.isSome = true)
    (howner : record.owner.isSome = true) : Promised rest s (record.coalesce sha256 request).1 := by
  have hcoalesce : (record.coalesce sha256 request).1 =
      { record.acceptDelivery sha256 request with
        yieldRequested := record.yieldRequested || record.request.headSha != request.headSha } := by
    simp [ScheduledReview.coalesce, howner]
  rw [hcoalesce]
  by_cases hsame : request.headSha = record.request.headSha
  · obtain ⟨headSha, hhead⟩ := Option.isSome_iff_exists.mp hnamed
    obtain ⟨check, hmem, hcheck⟩ := mem_acceptDelivery sha256 hhead record
    refine .holds (holdsHead_iff.mpr ⟨check, hmem, ?_⟩)
    rw [hcheck, ← hhead]
    exact hsame
  cases h with
  | holds hholds => exact .holds (holdsHead_acceptDelivery hholds)
  | bare hnil hheadless =>
    have hnone := hheadless howner request List.mem_cons_self haims
    simp [hnone] at hnamed
  | promised _ hpromise =>
    obtain ⟨other, hmem, hother, hhead⟩ := hpromise
    rcases List.mem_cons.mp hmem with rfl | hmem
    · exact absurd hhead hsame
    · exact .promised howner ⟨other, hmem, hother, hhead⟩
  | settled _ _ hat hkept =>
    refine .settled howner (.inr ?_) hat fun other hmem =>
      hkept other (List.mem_cons_of_mem _ hmem)
    simp only [Bool.or_eq_true, bne_iff_ne]
    exact .inr (Ne.symm hsame)

theorem Promised.join {request : ReviewRequest} {rest : List ReviewRequest}
    {record record' : ScheduledReview} {detached : List RetiredReviewCheck}
    (h : Promised (request :: rest) s record) (hshape : RecordShape record)
    (haims : aims request record = true)
    (hstep : JoinStep sha256 request record record' detached) : Promised rest s record' := by
  have hmode := (aims_iff.mp haims).2.1
  cases hstep with
  | keep hkeep =>
    simp only [keepsAcceptedHead, Bool.and_eq_true, Option.isNone_iff_eq_none] at hkeep
    cases h with
    | holds hholds => exact .holds hholds
    | bare hnil hheadless =>
      exact .bare hnil fun howner other hmem => hheadless howner other (List.mem_cons_of_mem _ hmem)
    | promised howner hnamed =>
      obtain ⟨other, hmem, hother, hhead⟩ := hnamed
      rcases List.mem_cons.mp hmem with rfl | hmem
      · rw [hkeep.1] at hhead
        simp [← hhead] at hkeep
      · exact .promised howner ⟨other, hmem, hother, hhead⟩
    | settled howner hyield hat hkept =>
      exact .settled howner hyield hat fun other hmem => hkept other (List.mem_cons_of_mem _ hmem)
  | coalesce hkeep =>
    cases howner : record.owner.isSome with
    | false => exact promised_follow hshape hkeep howner
    | true => exact h.absorb haims (hshape.head_of_coalesce hmode hkeep howner) howner

theorem Promised.of_budgets (h : Promised rest s record)
    (hheads : s'.incrementalHeads = s.incrementalHeads) : Promised rest s' record := by
  have hsame : ∀ repo number, s'.budgetOf repo number = s.budgetOf repo number := by
    intro repo number
    rw [ReviewSchedulerState.budgetOf, ReviewSchedulerState.budgetOf, hheads]
  cases h with
  | holds hholds => exact .holds hholds
  | bare hnil hheadless => exact .bare hnil hheadless
  | promised howner hnamed => exact .promised howner hnamed
  | settled howner hyield hat hkept =>
    apply Promised.settled howner hyield
    · unfold settledAt at hat ⊢
      rwa [hsame]
    · rwa [hsame]

theorem promised_enqueue (request : ReviewRequest) :
    Promised rest s (ScheduledReview.enqueue sha256 request) := by
  cases hhead : request.headSha with
  | none =>
    apply Promised.bare
    · simp [ScheduledReview.enqueue, hhead]
    · intro howner
      simp [ScheduledReview.enqueue] at howner
  | some headSha =>
    apply Promised.holds
    simp [ScheduledReview.holdsHead, ScheduledReview.enqueue, hhead, queuedCheck]

/-- What the admission loop carries: promises to every record, and identified checks. -/
def BatchProgress (rest : List ReviewRequest) (s : ReviewSchedulerState) : Prop :=
  ∀ record ∈ s.unfinished, Promised rest s record ∧ Identified record

theorem BatchProgress.place (hshape : Shape s) (hplaced : Placed sha256 request s s')
    (h : BatchProgress (request :: rest) s) : BatchProgress rest s' := by
  cases hplaced with
  | enqueue hnone =>
    intro record hmem
    rcases List.mem_append.mp hmem with hold | hnew
    · have haims : aims request record = false := by
        rw [← Bool.not_eq_true, aims_iff]
        rintro ⟨hmode, hmode', hpr⟩
        apply coalesceTarget_eq_none hnone hmode
        refine List.mem_map.mpr ⟨record, List.mem_filter.mpr ⟨hold, ?_⟩, ?_⟩
        · exact isIncremental_iff.mpr hmode'
        · exact Prod.ext hpr.1 hpr.2
      exact ⟨((h record hold).1.skip haims).of_budgets rfl, (h record hold).2⟩
    · rw [List.mem_singleton.mp hnew]
      refine ⟨promised_enqueue request, ?_⟩
      intro check hcheck hpublished
      cases hhead : request.headSha with
      | none => simp [ScheduledReview.enqueue, hhead] at hcheck
      | some headSha =>
        simp only [ScheduledReview.enqueue, hhead, Option.map_some, Option.toList_some,
          List.mem_singleton] at hcheck
        simp [hcheck, queuedCheck] at hpublished
  | @join target _ _ _ htarget hrepl hstep =>
    obtain ⟨hmode, hfind⟩ := coalesceTarget_eq_some htarget
    have hof := List.find?_some hfind
    obtain ⟨hmode', hrepo, hnumber⟩ := isIncrementalOf_iff.mp hof
    have haims := aims_iff.mpr ⟨hmode, hmode', hrepo, hnumber⟩
    intro record hmem
    rcases hrepl.mem_cases_of_nodup hshape.nodup hmem with rfl | ⟨hold, hne⟩
    · obtain ⟨hpromised, hidentified⟩ := h target hrepl.mem_old
      have hjoined := hpromised.join (hshape.records _ hrepl.mem_old) haims hstep
      exact ⟨hjoined.of_budgets rfl, hidentified.join hstep⟩
    · have hfar : aims request record = false := by
        rw [← Bool.not_eq_true, aims_iff]
        rintro ⟨-, hmode'', hrepo', hnumber'⟩
        apply hne
        apply hshape.incremental_unique hold hrepl.mem_old hmode'' hmode'
        exact Prod.ext (hrepo'.trans hrepo.symm) (hnumber'.trans hnumber.symm)
      exact ⟨((h record hold).1.skip hfar).of_budgets rfl, (h record hold).2⟩

theorem BatchProgress.admitRequest (hshape : Shape s) (h : BatchProgress (request :: rest) s) :
    BatchProgress rest (s.admitRequest sha256 request) := by
  apply BatchProgress.place (hshape.rearmed request) (placeRequest_placed sha256 _ request)
  split_ifs with hexplicit
  · intro record hmem
    exact ⟨(h record hmem).1.rearm hexplicit, (h record hmem).2⟩
  · exact h

theorem Progressing.admitted {requests : List ReviewRequest} {nowMs : ℤ} (h : Progressing s)
    (hshape : Shape s) (hguard : (s.prepared nowMs).admissionDecision requests = .admitted →
      ∀ record ∈ (s.prepared nowMs).unfinished,
        keepsSteady (s.prepared nowMs) requests record = true) :
    Progressing (s.admitBatch sha256 requests nowMs).1 := by
  have hquiet := hshape.normalizeLegacyRecords
  have hready := hshape.prepared nowMs
  have hprogress : Progressing (s.prepared nowMs) :=
    ⟨(h.quiet hquiet).steady, (h.quiet hquiet).identified⟩
  rcases s.admitBatch_cases sha256 requests nowMs with ⟨-, hsame⟩ | ⟨hdecision, hdone⟩ | ⟨-, hsame⟩
  · rw [hsame]
    exact h
  · have htests := admissionDecision_admitted hdecision
    have hstart : BatchProgress requests (s.prepared nowMs) := by
      intro record hmem
      refine ⟨?_, hprogress.identified record hmem⟩
      exact Promised.start (hready.records record hmem) (hprogress.steady record hmem)
        (hguard hdecision record hmem)
    have hend := hready.foldl_admitRequest sha256 (P := BatchProgress)
      (fun s request rest hshape _ hbatch => hbatch.admitRequest hshape)
      htests.1 htests.2.1 hstart
    rw [hdone]
    exact ⟨fun record hmem => (hend record hmem).1.steady, fun record hmem => (hend record hmem).2⟩
  · rw [hsame]
    exact hprogress

/-- A worker's step: heads are bound through reconciliation only, and an admitted batch keeps
every record steady. -/
def keepsMoving (s : ReviewSchedulerState) (e : Event) : Bool :=
  match e.operation with
  | .confirmHead _ _ => false
  | .admitBatch requests =>
    (s.prepared e.nowMs).admissionDecision requests != .admitted ||
      (s.prepared e.nowMs).unfinished.all (keepsSteady (s.prepared e.nowMs) requests)
  | _ => true

theorem Progressing.perform (hshape : Shape s) (h : Progressing s)
    (hguard : keepsMoving s e = true) : Progressing (perform sha256 s e).1 := by
  by_cases hbatch : ∃ requests, e.operation = .admitBatch requests
  · obtain ⟨requests, hop⟩ := hbatch
    simp only [keepsMoving, hop, Bool.or_eq_true, bne_iff_ne, List.all_eq_true] at hguard
    simp only [ReviewJob.perform, hop]
    apply h.admitted hshape
    intro hdecision
    exact hguard.resolve_left (not_not.mpr hdecision)
  by_cases hreconcile : ∃ owned headSha, e.operation = .reconcileLiveCheck owned headSha
  · obtain ⟨owned, headSha, hop⟩ := hreconcile
    simp only [ReviewJob.perform, hop]
    exact h.reconciled hshape (reconcileLiveCheck_step sha256 s owned headSha e.nowMs)
  have hconfirm : ∀ owned headSha, ¬ e.operation.confirms owned headSha := by
    rintro owned headSha (hop | hop)
    · simp [keepsMoving, hop] at hguard
    · exact hreconcile ⟨owned, headSha, hop⟩
  apply hshape.preserves h fun h hquiet => h.quiet hquiet
  intro s s' hshape h heffect
  exact h.effect hconfirm (fun requests hop => hbatch ⟨requests, hop⟩) hshape heffect

theorem Progressing.after (sha256 : String → List UInt8) (t : ℤ) {events : List Event}
    (hrun : IsRun sha256 (fun s e => keepsMoving s e = true) (.start t) events) :
    Shape (after sha256 (.start t) events).state ∧
      Progressing (after sha256 (.start t) events).state :=
  IsRun.invariant (I := fun s => Shape s ∧ Progressing s)
    (fun _ e h hguard => ⟨h.1.perform sha256 e, h.2.perform h.1 hguard⟩)
    ⟨Shape.empty, .empty⟩ hrun

/-- What keeps a waiting record from being stranded: a review claim accepts it, or the metadata
claim or the publication claim will once the claim now held on it has lapsed. -/
def CanProgress (s : ReviewSchedulerState) (nowMs : ℤ) (record : ScheduledReview) : Prop :=
  isEligible s nowMs record = true ∨
    (∀ later, nowMs ≤ later → record.metadataClaimUntilMs ≤ later →
      awaitsMetadata later record = true) ∨
    headIsKnownTerminal s.incrementalHeads s.headHistory record.request nowMs = false ∧
      ∃ check ∈ record.reviewChecks, ∀ later, check.writeClaimUntilMs ≤ later →
        awaitsPublication record.request.headSha later check = true

theorem settledAt_known {nowMs : ℤ} (h : settledAt s record = true) :
    headIsKnownTerminal s.incrementalHeads s.headHistory record.request nowMs = true := by
  obtain ⟨hmode, budget, hbudget, hhead, hterminal⟩ := settledAt_iff.mp h
  have hfor := List.find?_some
    (p := fun b : IncrementalHeadBudget => b.isFor record.request.repo record.request.number) hbudget
  have hmem := List.mem_of_find?_eq_some hbudget
  rw [existingTerminal_ne_none] at hterminal
  simp only [headIsKnownTerminal, ← hhead, hmode, beq_self_eq_true, Bool.true_and, Bool.or_eq_true,
    List.any_eq_true, Bool.and_eq_true]
  exact .inl ⟨budget, hmem, ⟨hfor, beq_self_eq_true _⟩, hterminal.symm⟩

theorem Steady.canProgress {nowMs : ℤ} (h : Steady s record) (hidentified : Identified record)
    (hshape : RecordShape record) (hfree : record.owner = none ∨ record.ownerUntilMs ≤ nowMs)
    (hdue : record.notBeforeMs ≤ nowMs) : CanProgress s nowMs record := by
  cases hpending : record.metadataResolutionPending with
  | true =>
    obtain ⟨hmode, howner⟩ := hshape.pending hpending
    have hnone := (hshape.headless hmode).mpr hpending
    right; left
    intro later hlater hlapsed
    simp [awaitsMetadata, hpending, howner, hnone, hlapsed, hdue.trans hlater]
  | false =>
    have heligible : (record.reviewChecks = [] ∨
        (∃ head, record.request.headSha = some head ∧
          ∃ check ∈ record.reviewChecks, isPublishedFor head check = true) ∨
        headIsKnownTerminal s.incrementalHeads s.headHistory record.request nowMs = true) →
        isEligible s nowMs record = true := by
      intro hready
      have hfree' : (record.owner.isNone || decide (record.ownerUntilMs ≤ nowMs)) = true := by
        rcases hfree with hnone | hlapsed
        · simp [hnone]
        · simp [hlapsed]
      simp only [isEligible, hdue, decide_true, hfree', hpending, Bool.not_false, Bool.true_and,
        Bool.or_eq_true, List.isEmpty_iff]
      rcases hready with hnil | ⟨head, hhead, hpublished⟩ | hterminal
      · exact .inl (.inl hnil)
      · exact .inl (.inr (by simpa [hhead] using hpublished))
      · exact .inr hterminal
    rcases h with hnil | hholds | ⟨-, hat⟩
    · exact .inl (heligible (.inl hnil))
    · obtain ⟨check, hmem, hhead⟩ := holdsHead_iff.mp hholds
      by_cases hterminal :
          headIsKnownTerminal s.incrementalHeads s.headHistory record.request nowMs = true
      · exact .inl (heligible (.inr (.inr hterminal)))
      cases hpublished : check.published with
      | true =>
        have hid := hidentified check hmem hpublished
        left
        refine heligible (.inr (.inl ⟨check.headSha, hhead.symm, check, hmem, ?_⟩))
        simp [isPublishedFor, hpublished, hid]
      | false =>
        right; right
        refine ⟨by simpa using hterminal, check, hmem, fun later hlapsed => ?_⟩
        simp [awaitsPublication, ← hhead, hpublished, hlapsed]
    · exact .inl (heligible (.inr (.inr (settledAt_known hat))))

/-- No review is stranded by workers whose admitted batches keep every record steady. -/
theorem no_stranded_review (sha256 : String → List UInt8) (t : ℤ) (events : List Event)
    (hrun : IsRun sha256 (fun s e => keepsMoving s e = true) (.start t) events)
    (record : ScheduledReview) (hmem : record ∈ (after sha256 (.start t) events).state.unfinished)
    (nowMs : ℤ) (hfree : record.owner = none ∨ record.ownerUntilMs ≤ nowMs)
    (hdue : record.notBeforeMs ≤ nowMs) :
    CanProgress (after sha256 (.start t) events).state nowMs record := by
  obtain ⟨hshape, hprogress⟩ := Progressing.after sha256 t hrun
  exact (hprogress.steady record hmem).canProgress (hprogress.identified record hmem)
    (hshape.records record hmem) hfree hdue

/-- A record that holds no check for its head has only the review claim left. -/
theorem not_canProgress {nowMs : ℤ} (heligible : isEligible s nowMs record = false)
    (hready : record.metadataResolutionPending = false) (hholds : record.holdsHead = false) :
    ¬ CanProgress s nowMs record := by
  rintro (hyes | hmetadata | ⟨-, check, hmem, hcheck⟩)
  · simp [heligible] at hyes
  · have hlater := hmetadata (max nowMs record.metadataClaimUntilMs) (le_max_left _ _)
      (le_max_right _ _)
    simp [awaitsMetadata, hready] at hlater
  · have hlater := hcheck check.writeClaimUntilMs le_rfl
    simp only [awaitsPublication, Bool.and_eq_true, beq_iff_eq] at hlater
    have hhead := holdsHead_iff.mpr ⟨check, hmem, hlater.1.1.symm⟩
    simp [hholds] at hhead

def Operation.bindsDirectly : Operation → Bool
  | .confirmHead _ _ => true
  | _ => false

/-- A push to `B` arrives while the live head is already `C`: reconciliation drops the queued
check of `B`, the yield makes `B` the head of a record without checks, and the next worker
claims it. -/
def yieldedToDroppedHead : List Event :=
  ownedReview (push "a" "A") ++
    [⟨5, .admitBatch [push "b" "B"]⟩,
      ⟨6, .reconcileLiveCheck (sampleHandle (push "a" "A") "w1" 1) "C"⟩,
      ⟨7, .deferYield (sampleHandle (push "a" "A") "w1" 1)⟩, ⟨8, .claimNextWithLimit "w2" 4⟩]

/-- A push to `D` before that worker reconciles, and its crash, strand the record: it waits for
a check of `B` that nobody will queue. -/
theorem no_stranded_review_dropped_head :
    IsTimedRun sampleSha256 (fun _ e => e.operation.bindsDirectly = false) (.start 0)
        (yieldedToDroppedHead ++ [⟨9, .admitBatch [push "d" "D"]⟩]) ∧
      ∃ record ∈ (after sampleSha256 (.start 0)
          (yieldedToDroppedHead ++ [⟨9, .admitBatch [push "d" "D"]⟩])).state.unfinished,
        record.ownerUntilMs ≤ 200000 ∧ record.notBeforeMs ≤ 200000 ∧
          ¬ CanProgress (after sampleSha256 (.start 0)
            (yieldedToDroppedHead ++ [⟨9, .admitBatch [push "d" "D"]⟩])).state 200000 record := by
  refine ⟨by decide +kernel, ?_⟩
  have hstranded : (after sampleSha256 (.start 0)
      (yieldedToDroppedHead ++ [⟨9, .admitBatch [push "d" "D"]⟩])).state.unfinished.any
      (fun record => decide (record.ownerUntilMs ≤ 200000) && decide (record.notBeforeMs ≤ 200000) &&
        !isEligible (after sampleSha256 (.start 0)
          (yieldedToDroppedHead ++ [⟨9, .admitBatch [push "d" "D"]⟩])).state 200000 record &&
        !record.metadataResolutionPending && !record.holdsHead) = true := by
    decide +kernel
  obtain ⟨record, hmem, hrecord⟩ := List.any_eq_true.mp hstranded
  simp only [Bool.and_eq_true, decide_eq_true_eq, Bool.not_eq_true'] at hrecord
  obtain ⟨⟨⟨⟨hlapsed, hdue⟩, heligible⟩, hready⟩, hholds⟩ := hrecord
  exact ⟨record, hmem, hlapsed, hdue, not_canProgress heligible hready hholds⟩

/-- Without that push the crashed worker's record can be claimed again. -/
theorem no_stranded_review_crash :
    ∃ record ∈ (after sampleSha256 (.start 0) yieldedToDroppedHead).state.unfinished,
      record.ownerUntilMs ≤ 200000 ∧
        CanProgress (after sampleSha256 (.start 0) yieldedToDroppedHead).state 200000 record := by
  have hwaiting : (after sampleSha256 (.start 0) yieldedToDroppedHead).state.unfinished.any
      (fun record => decide (record.ownerUntilMs ≤ 200000) && decide (record.notBeforeMs ≤ 200000)) =
        true := by
    decide +kernel
  obtain ⟨record, hmem, hrecord⟩ := List.any_eq_true.mp hwaiting
  simp only [Bool.and_eq_true, decide_eq_true_eq] at hrecord
  exact ⟨record, hmem, hrecord.1, no_stranded_review sampleSha256 0 yieldedToDroppedHead
    (by decide +kernel) record hmem 200000 (.inr hrecord.1) hrecord.2⟩

end TinySweeper.ReviewJob
