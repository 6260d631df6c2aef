import TinySweeper.ReviewJob.Confirmation
import TinySweeper.ReviewJob.ReviewedHeads

/-!
# Binding an owner to the live head

A confirmation fails for a live owner only where it would leave a terminal head without a
reservation to pay for the history entry. `Funded` says no record is in that position; it
survives every step that does not give a record its terminal head on credit.
-/

namespace TinySweeper.ReviewJob

open FirstMatch Runs

variable {sha256 : String → List UInt8} {e : Event} {s s' : ReviewSchedulerState}
variable {record record' : ScheduledReview} {owned : OwnedReview} {outcome : TerminalOutcome}

/-- A record without reservations never stands on a terminal head. -/
def Funded (s : ReviewSchedulerState) : Prop :=
  ∀ record ∈ s.unfinished, record.request.mode = .incremental → record.reserved = 0 →
    ∀ budget, s.budgetOf record.request.repo record.request.number = some budget →
      budget.existingTerminal = none

theorem Funded.empty : Funded {} := by
  intro record hmem
  simp at hmem

/-- Records may change as long as none loses its last reservation. -/
theorem Funded.of_records (h : Funded s) (hheads : s'.incrementalHeads = s.incrementalHeads)
    (hrecords : ∀ record' ∈ s'.unfinished, ∃ record ∈ s.unfinished,
      record'.isIncremental = record.isIncremental ∧ record'.pr = record.pr ∧
        (record'.reserved = 0 → record.reserved = 0)) : Funded s' := by
  intro record' hmem hmode hspent budget hbudget
  obtain ⟨record, hrecord, hmodes, hpr, hreserved⟩ := hrecords record' hmem
  obtain ⟨hrepo, hnumber⟩ := Prod.mk.inj hpr
  rw [hrepo, hnumber, ReviewSchedulerState.budgetOf, hheads] at hbudget
  rw [← isIncremental_iff, hmodes] at hmode
  exact h record hrecord (isIncremental_iff.mp hmode) (hreserved hspent) budget hbudget

theorem Funded.of_replaced {unfinished : List ScheduledReview} (h : Funded s)
    (hrepl : Replaced s.unfinished unfinished record record')
    (hunfinished : s'.unfinished = unfinished) (hheads : s'.incrementalHeads = s.incrementalHeads)
    (hmode : record'.isIncremental = record.isIncremental) (hpr : record'.pr = record.pr)
    (hreserved : record'.reserved = 0 → record.reserved = 0) : Funded s' := by
  apply h.of_records hheads
  rw [hunfinished]
  intro other hother
  rcases hrepl.mem_cases hother with rfl | hold
  · exact ⟨record, hrepl.mem_old, hmode, hpr, hreserved⟩
  · exact ⟨other, hold, rfl, rfl, id⟩

/-- Budgets may change as long as none becomes terminal. -/
theorem Funded.of_budgets (h : Funded s) (hunfinished : s'.unfinished = s.unfinished)
    (hbudgets : ∀ repo number budget', s'.budgetOf repo number = some budget' →
      s.budgetOf repo number = some budget' ∨ budget'.existingTerminal = none ∨
        ∃ budget, s.budgetOf repo number = some budget ∧
          budget'.existingTerminal = budget.existingTerminal) : Funded s' := by
  intro record hmem hmode hspent budget' hbudget'
  rw [hunfinished] at hmem
  rcases hbudgets _ _ budget' hbudget' with hsame | hopen | ⟨budget, hbudget, hterminal⟩
  · exact h record hmem hmode hspent budget' hsame
  · exact hopen
  · rw [hterminal]
    exact h record hmem hmode hspent budget hbudget

/-- One record and the budget of its pull request change together. -/
theorem Funded.of_pair (record' : ScheduledReview) (h : Funded s) (hshape : Shape s)
    (hmem : record ∈ s.unfinished) (hmode : record.request.mode = .incremental)
    (hrecords : ∀ other ∈ s'.unfinished, other = record' ∨ other ∈ s.unfinished)
    (hpr : record'.pr = record.pr) (hle : record'.reserved ≤ record.reserved)
    (hothers : ∀ repo number, (repo, number) ≠ record.pr →
      s'.budgetOf repo number = s.budgetOf repo number) (hfunded : record'.reserved = 0 → ∀ budget,
      s'.budgetOf record.request.repo record.request.number = some budget →
        budget.existingTerminal = none) : Funded s' := by
  intro other hother hincremental hspent budget hbudget
  rcases hrecords other hother with rfl | hold
  · obtain ⟨hrepo, hnumber⟩ := Prod.mk.inj hpr
    rw [hrepo, hnumber] at hbudget
    exact hfunded hspent budget hbudget
  by_cases hsame : other.pr = record.pr
  · have heq := hshape.incremental_unique hold hmem hincremental hmode hsame
    subst heq
    exact hfunded (by omega) budget hbudget
  · rw [hothers _ _ hsame] at hbudget
    exact h other hold hincremental hspent budget hbudget

theorem JoinStep.reserved {request : ReviewRequest} {detached : List RetiredReviewCheck}
    (h : JoinStep sha256 request record record' detached) : record.reserved ≤ record'.reserved := by
  cases h with
  | keep => exact le_rfl
  | coalesce =>
    unfold ScheduledReview.coalesce
    dsimp only
    split_ifs <;> exact Nat.le_succ _

theorem RecordStep.reserved (hconfirm : ∀ owned headSha, ¬ e.operation.confirms owned headSha)
    {detached : List RetiredReviewCheck} (h : RecordStep sha256 e record record' detached) :
    record'.reserved = record.reserved := by
  cases h with
  | claim => rw [ScheduledReview.claim_eq]; rfl
  | bind hop | spend hop => exact absurd hop (hconfirm _ _)
  | conclude hop | rebind hop => exact absurd (.inr hop) (hconfirm _ _)
  | resolve | renew | pay | release | yieldTo => rfl

theorem Funded.quiet (h : Funded s) (hquiet : Quiet s s') : Funded s' := by
  apply h.of_records hquiet.incrementalHeads
  intro record' hmem
  obtain ⟨record, hrecord, hq⟩ := Forall₂.exists_left hquiet.unfinished hmem
  refine ⟨record, hrecord, ?_, ?_, ?_⟩
  · simp [ScheduledReview.isIncremental, hq.request]
  · simp [ScheduledReview.pr, hq.request]
  · simp [ScheduledReview.reserved, hq.headHistoryReservations]

theorem Funded.enqueue (h : Funded s) (request : ReviewRequest) :
    Funded { s with unfinished := s.unfinished ++ [ScheduledReview.enqueue sha256 request] } := by
  intro record hmem hmode hspent budget hbudget
  rcases List.mem_append.mp hmem with hold | hnew
  · exact h record hold hmode hspent budget hbudget
  · rw [List.mem_singleton.mp hnew] at hmode hspent
    change request.mode = .incremental at hmode
    simp [ScheduledReview.reserved, ScheduledReview.enqueue, hmode] at hspent

theorem Funded.effect (hconfirm : ∀ owned headSha, ¬ e.operation.confirms owned headSha)
    (hfinish : e.operation.finishes = false) (h : Funded s) (hshape : Shape s)
    (heffect : Effect sha256 e s s') : Funded s' := by
  cases heffect with
  | normalize => exact h.quiet hshape.normalizeLegacyRecords
  | prune | pruneHistory | acknowledge => exact h
  | rearm request =>
    refine h.of_budgets rfl ?_
    intro repo number budget' hbudget'
    rcases find?_updateFirst_cases (q := fun budget => budget.isFor repo number)
      (p := fun budget => budget.isFor request.repo request.number && budget.failed)
      (f := IncrementalHeadBudget.rearm) (fun _ => rfl) s.incrementalHeads
      with hsame | ⟨budget, -, -, hnew⟩
    · exact .inl (hsame.symm.trans hbudget')
    · right; left
      rw [← Option.some.inj (hnew.symm.trans hbudget')]
      rfl
  | enqueue => exact h.enqueue _
  | join hop hmem hrepl htarget hstep =>
    obtain ⟨hrequest, hfind⟩ := coalesceTarget_eq_some htarget
    have hpr := hstep.pr hrequest (List.find?_some hfind)
    have hle := hstep.reserved
    exact h.of_replaced hrepl rfl rfl hpr.1 hpr.2 fun hspent => by omega
  | record hrepl hstep =>
    have hsame := hstep.reserved hconfirm
    exact h.of_replaced hrepl rfl rfl hstep.pr.1 hstep.pr.2 fun hspent => hsame ▸ hspent
  | moveBudget hop | openBudget hop => exact absurd hop (hconfirm _ _)
  | payBudget paidAttempts ownershipRefunds hop hrepl =>
    refine h.of_budgets rfl ?_
    intro repo number budget' hbudget'
    rcases hrepl.find?_cases (q := fun budget => budget.isFor repo number) rfl
      with hsame | ⟨hold, hnew⟩
    · exact .inl (hsame.symm.trans hbudget')
    · right; right
      refine ⟨_, hold, ?_⟩
      rw [← Option.some.inj (hnew.symm.trans hbudget')]
      rfl
  | settle _ _ hop | complete hop => simp [hop] at hfinish
  | decline hop hrem =>
    refine h.of_records rfl ?_
    intro record hmem
    exact ⟨record, hrem.sublist.subset hmem, rfl, rfl, id⟩

/-- A confirmation that restores a historical result leaves a reservation behind to depart
from it again. -/
def bindingFunded (s : ReviewSchedulerState) (owned : OwnedReview) (headSha : String)
    (nowMs : ℤ) : Bool :=
  (s.unfinished.find? (ownsUnexpired owned nowMs)).all fun record =>
    (s.budgetOf record.request.repo record.request.number).all fun current =>
      record.request.mode == .full || current.headSha == headSha ||
        (historicalOutcome s.headHistory record.request.repo record.request.number headSha
          nowMs).isNone ||
        decide ((if current.existingTerminal.isSome then 1 else 0) < record.reserved)

/-- The two ways of moving on, by what they leave of the reservations. -/
theorem Funded.move {current : IncrementalHeadBudget} {headSha : String} {nowMs : ℤ}
    {unfinished : List ScheduledReview} (h : Funded s) (hshape : Shape s)
    (hfind : s.unfinished.find? (ownsUnexpired owned nowMs) = some record)
    (hmode : record.request.mode = .incremental)
    (hbudget : s.budgetOf record.request.repo record.request.number = some current)
    (hne : current.headSha ≠ headSha) (hguard : bindingFunded s owned headSha nowMs = true)
    (hrepl : Replaced s.unfinished unfinished record record') (hpr : record'.pr = record.pr)
    (hreserved : record.reserved ≤
      record'.reserved + if current.existingTerminal.isSome then 1 else 0)
    (hle : record'.reserved ≤ record.reserved) :
    Funded { (s.pruneHistory nowMs).moveBudget current record.request.repo record.request.number
      headSha nowMs with unfinished := unfinished } := by
  apply h.of_pair _ hshape hrepl.mem_old hmode (fun other hother => hrepl.mem_cases hother) hpr hle
  · intro repo number hother
    exact moveBudget_budgetOf_of_ne (s := s.pruneHistory nowMs) hother
  · intro hspent budget hfound
    simp only [bindingFunded, hfind, hbudget, hmode, Option.all_some] at hguard
    have hnone : historicalOutcome s.headHistory record.request.repo record.request.number
        headSha nowMs = none := by
      simp only [hne, Bool.or_eq_true, decide_eq_true_eq, beq_iff_eq, reduceCtorEq, false_or,
        Option.isNone_iff_eq_none] at hguard
      rcases hguard with hnone | hleft
      · exact hnone
      · omega
    exact moveBudget_open hne hnone hfound

theorem Funded.confirmed {owned : OwnedReview} {headSha : String} {nowMs : ℤ}
    {r : ReviewSchedulerState × Bool} (h : Funded s) (hshape : Shape s)
    (hguard : bindingFunded s owned headSha nowMs = true)
    (hstep : ConfirmStep s owned headSha nowMs r) : Funded r.1 := by
  cases hstep with
  | lost | full | refused => exact h
  | held hfind =>
    exact h.of_replaced (updateFirst_replaced _ hfind) rfl rfl rfl rfl id
  | @opened record hfind hmode hbudget =>
    have hrepl := updateFirst_replaced (ScheduledReview.withHead (some headSha)) hfind
    refine h.of_pair _ hshape hrepl.mem_old hmode (fun other hother => hrepl.mem_cases hother) rfl
      le_rfl ?_ ?_
    · intro repo number hother
      exact (ConfirmStep.opened hfind hmode hbudget).budgetOf_of_ne hfind fun _ => hother
    · intro _ budget hfound
      unfold ReviewSchedulerState.budgetOf at hbudget hfound
      simp only [List.find?_append, hbudget, Option.none_or] at hfound
      rw [List.mem_singleton.mp (List.mem_of_find?_eq_some hfound)]
      rfl
  | moved hfind hmode hbudget hne hopen =>
    exact h.move hshape hfind hmode hbudget hne hguard (updateFirst_replaced _ hfind) rfl
      (Nat.le_add_right _ _) le_rfl
  | @left record current hfind hmode hbudget hne hterminal hreserved =>
    apply h.move hshape hfind hmode hbudget hne hguard (updateFirst_replaced _ hfind) rfl
    · rw [if_pos (Option.isSome_iff_ne_none.mpr hterminal)]
      change record.reserved ≤ record.reserved - 1 + 1
      omega
    · exact Nat.sub_le _ _

/-- The status half of a reconciliation touches no reservation. -/
theorem Funded.rebound {owned : OwnedReview} {headSha : String} {nowMs : ℤ} (h : Funded s) :
    Funded (s.rebindCheck sha256 owned headSha nowMs).1 := by
  unfold ReviewSchedulerState.rebindCheck
  cases hfind : s.unfinished.find? (ownsUnexpired owned nowMs) with
  | none => exact h
  | some record =>
    dsimp only
    split
    · exact h.of_replaced (updateFirst_replaced _ hfind) rfl rfl rfl rfl id
    · refine h.of_replaced (updateFirst_replaced _ hfind) rfl rfl ?_ ?_ ?_ <;>
        rw [ScheduledReview.bindCheck_eq]
      · rfl
      · rfl
      · exact id

theorem Funded.reconciled {headSha : String} {nowMs : ℤ} (h : Funded s) (hshape : Shape s)
    (hguard : (capacityDefers s owned headSha nowMs || bindingFunded s owned headSha nowMs) = true) :
    Funded (s.reconcileLiveCheck sha256 owned headSha nowMs).1 := by
  cases hfind : s.unfinished.find? (ownsUnexpired owned nowMs) with
  | none => simpa [ReviewSchedulerState.reconcileLiveCheck, hfind] using h
  | some record =>
    rw [reconcileLiveCheck_eq (by rw [hfind]; rfl)]
    split_ifs with hdefers hconfirmed
    · exact h
    all_goals
      rw [Bool.or_eq_true, or_iff_right hdefers] at hguard
      have hfunded := h.confirmed hshape hguard (confirmHead_step s owned headSha nowMs)
    · exact hfunded.rebound
    · exact hfunded

/-- Settling the head of a record that will yield leaves it a reservation to depart with. -/
def yieldFunded (s : ReviewSchedulerState) (owned : OwnedReview) (outcome : TerminalOutcome)
    (nowMs : ℤ) : Bool :=
  (s.unfinished.find? (ownsUnexpired owned nowMs)).all fun record =>
    !record.yieldRequested || !outcome.settlesHead ||
      (s.budgetOf record.request.repo record.request.number).isNone || decide (0 < record.reserved)

theorem settleHead_budgetOf_of_ne {repo : String} {number : ℕ} (hne : (repo, number) ≠ record.pr) :
    (s.settleHead record outcome).budgetOf repo number = s.budgetOf repo number := by
  unfold ReviewSchedulerState.settleHead
  split_ifs
  · exact budgetOf_updateBudget_of_ne (fun _ _ _ => settle_isFor outcome _ _ _) hne
  · rfl

/-- A settled head without a reservation was left open. -/
theorem Funded.settled_open {nowMs : ℤ} {budget : IncrementalHeadBudget} (h : Funded s)
    (hguard : yieldFunded s owned outcome nowMs = true)
    (hfind : s.unfinished.find? (ownsUnexpired owned nowMs) = some record)
    (hmode : record.request.mode = .incremental) (hyield : record.yieldRequested = true)
    (hspent : record.reserved = 0)
    (hbudget : (s.settleHead record outcome).budgetOf record.request.repo record.request.number =
      some budget) : budget.existingTerminal = none := by
  rw [budgetOf_settleHead record outcome hmode] at hbudget
  obtain ⟨old, hold, rfl⟩ := Option.map_eq_some_iff.mp hbudget
  have hopen := h record (List.mem_of_find?_eq_some hfind) hmode hspent old hold
  have hsettles : outcome.settlesHead = false := by
    simpa [yieldFunded, hfind, hyield, hold, hspent] using hguard
  rw [existingTerminal_settle hopen, hsettles, if_neg Bool.false_ne_true]

theorem Funded.finished {nowMs : ℤ} {r : ReviewSchedulerState × Bool} (h : Funded s)
    (hshape : Shape s) (hguard : yieldFunded s owned outcome nowMs = true)
    (hstep : FinishStep s owned outcome nowMs r) : Funded r.1 := by
  cases hstep with
  | refused => exact h
  | @yielded record hfind hyield =>
    have hrepl := updateFirst_replaced
      (fun record => (record.yieldTo nowMs (preservedHead record outcome)).1) hfind
    have hmode := ((hshape.records _ hrepl.mem_old).yielding hyield).1
    apply h.of_pair (record.yieldTo nowMs (preservedHead record outcome)).1 hshape hrepl.mem_old
      hmode
    · intro other hother
      change other ∈ updateFirst _ _ (s.settleHead record outcome).unfinished at hother
      rw [s.settleHead_unfinished] at hother
      exact hrepl.mem_cases hother
    · rfl
    · exact le_rfl
    · intro repo number hother
      exact settleHead_budgetOf_of_ne hother
    · intro hspent budget hbudget
      exact h.settled_open hguard hfind hmode hyield hspent hbudget
  | @completed record p completedAtMs hfind hfirst =>
    intro other hother hmode hspent budget hbudget
    rw [ReviewSchedulerState.settleHead_unfinished] at hother
    have hrem := eraseP_removed hfirst
    have hold := hrem.sublist.subset hother
    refine h other hold hmode hspent budget ?_
    by_cases hfull : record.request.mode = .incremental
    · have hne := hshape.removed_pr hrem hfull hother hmode
      dsimp only at hbudget
      rw [settleHead_budgetOf_of_ne hne] at hbudget
      exact hbudget
    · rw [ReviewSchedulerState.settleHead, if_neg hfull] at hbudget
      exact hbudget

/-- The step leaves no record on a terminal head without a reservation. -/
def keepsReservation (s : ReviewSchedulerState) (e : Event) : Bool :=
  match e.operation with
  | .confirmHead owned headSha => bindingFunded s owned headSha e.nowMs
  | .reconcileLiveCheck owned headSha =>
    capacityDefers s owned headSha e.nowMs || bindingFunded s owned headSha e.nowMs
  | operation => operation.completion.all fun (owned, outcome) =>
      yieldFunded s owned outcome e.nowMs

theorem keepsReservation_completion (hop : e.operation.completion = some (owned, outcome)) :
    keepsReservation s e = yieldFunded s owned outcome e.nowMs := by
  unfold keepsReservation
  split
  · rename_i hcase
    simp [hcase, Operation.completion] at hop
  · rename_i hcase
    simp [hcase, Operation.completion] at hop
  · rw [hop]
    rfl

theorem Funded.perform (hshape : Shape s) (h : Funded s) (hguard : keepsReservation s e = true) :
    Funded (perform sha256 s e).1 := by
  cases hcompletion : e.operation.completion with
  | some done =>
    obtain ⟨owned, outcome⟩ := done
    rw [keepsReservation_completion hcompletion] at hguard
    obtain ⟨accepted, -, hstep⟩ := perform_finishStep (s := s) hcompletion
    exact h.finished hshape hguard hstep
  | none =>
    by_cases hconfirms : ∃ owned headSha, e.operation.confirms owned headSha
    · obtain ⟨owned, headSha, hop | hop⟩ := hconfirms
      · simp only [keepsReservation, hop] at hguard
        have hstep := confirmHead_step s owned headSha e.nowMs
        simpa [ReviewJob.perform, hop] using h.confirmed hshape hguard hstep
      · simp only [keepsReservation, hop] at hguard
        simpa [ReviewJob.perform, hop] using h.reconciled hshape hguard
    · have hfinish : e.operation.finishes = false := by
        by_contra hbad
        obtain ⟨owned, outcome, hsome⟩ :=
          Operation.completion_of_finishes (Bool.not_eq_false _ ▸ hbad)
        simp [hcompletion] at hsome
      apply hshape.preserves h fun h hquiet => h.quiet hquiet
      intro s s' hshape h heffect
      exact h.effect (fun owned headSha hop => hconfirms ⟨owned, headSha, hop⟩) hfinish hshape
        heffect

theorem Funded.after (sha256 : String → List UInt8) (t : ℤ) {events : List Event}
    (hrun : IsRun sha256 (fun s e => keepsReservation s e = true) (.start t) events) :
    Funded (after sha256 (.start t) events).state := by
  have hboth := IsRun.invariant (I := fun s => Shape s ∧ Funded s)
    (fun s e h hguard => ⟨h.1.perform sha256 e, h.2.perform h.1 hguard⟩)
    ⟨Shape.empty, Funded.empty⟩ hrun
  exact hboth.2

/-- A live owner of a funded journal binds any head. -/
theorem Funded.confirms {nowMs : ℤ} (h : Funded s) (headSha : String)
    (hlive : (s.unfinished.find? (ownsUnexpired owned nowMs)).isSome = true) :
    (s.confirmHead owned headSha nowMs).2 = true := by
  have hstep := confirmHead_step s owned headSha nowMs
  generalize s.confirmHead owned headSha nowMs = r at hstep ⊢
  cases hstep with
  | lost hfind => simp [hfind] at hlive
  | refused hfind hmode hbudget hne hterminal hspent =>
    have hopen := h _ (List.mem_of_find?_eq_some hfind) hmode hspent _ hbudget
    exact absurd hopen hterminal
  | full | held | opened | moved | left => rfl

/-- In every run whose steps keep a reservation wherever a record is left on a terminal head,
exactly the live handles bind, whatever head they see. -/
theorem live_owner_binds (sha256 : String → List UInt8) (t : ℤ) (events : List Event)
    (hrun : IsRun sha256 (fun s e => keepsReservation s e = true) (.start t) events)
    (owned : OwnedReview) (headSha : String) (nowMs : ℤ) :
    (((after sha256 (.start t) events).state.confirmHead owned headSha nowMs).2 = true ↔
        (after sha256 (.start t) events).state.unfinished.any (ownsUnexpired owned nowMs) = true) ∧
      (((after sha256 (.start t) events).state.reconcileLiveCheck sha256 owned headSha nowMs).2 =
          .ownershipLost ↔
        (after sha256 (.start t) events).state.unfinished.any (ownsUnexpired owned nowMs) =
          false) := by
  have hfunded := Funded.after sha256 t hrun
  generalize (after sha256 (.start t) events).state = s at hfunded ⊢
  rw [← List.isSome_find?]
  cases hlive : (s.unfinished.find? (ownsUnexpired owned nowMs)).isSome with
  | false =>
    rw [Option.isSome_eq_false_iff, Option.isNone_iff_eq_none] at hlive
    simp [ReviewSchedulerState.confirmHead, ReviewSchedulerState.reconcileLiveCheck, hlive]
  | true =>
    have hconfirms := hfunded.confirms headSha hlive
    have hstill := (confirmHead_step s owned headSha nowMs).live.trans hlive
    refine ⟨by simp [hconfirms], ?_⟩
    rw [reconcileLiveCheck_eq hlive, if_pos hconfirms]
    split_ifs
    · simp
    · simp [rebindCheck_ne_ownershipLost hstill]

/-- After `A` was published a second delivery brings one reservation, spent on leaving `A` for
`B`; when the pull request is forced back to `A` its published result is restored. -/
def forcedBack : List Event :=
  startedReview ++ publishedAt7 ::
    [⟨8, .admitBatch [push "b" "B"]⟩, ⟨9, .claimPendingChecks 5⟩,
      ⟨10, .recordQueuedCheckId (sampleClaim "b" "B" 9) 12⟩, ⟨11, .claimNextWithLimit "w2" 4⟩,
      ⟨12, .reconcileLiveCheck (sampleHandle (push "b" "B") "w2" 1) "B"⟩,
      ⟨13, .reconcileLiveCheck (sampleHandle (push "b" "B") "w2" 1) "A"⟩]

/-- The live owner of that review cannot follow its pull request to `B` again, and is told it
lost an ownership it still has. -/
theorem live_owner_binds_forced_back :
    IsTimedRun sampleSha256 (fun _ _ => True) (.start 0) forcedBack ∧
      (after sampleSha256 (.start 0) forcedBack).state.unfinished.any
        (ownsUnexpired (sampleHandle (push "b" "B") "w2" 1) 14) = true ∧
      ((after sampleSha256 (.start 0) forcedBack).state.confirmHead
        (sampleHandle (push "b" "B") "w2" 1) "B" 14).2 = false ∧
      ((after sampleSha256 (.start 0) forcedBack).state.reconcileLiveCheck sampleSha256
        (sampleHandle (push "b" "B") "w2" 1) "B" 14).2 = .ownershipLost := by
  refine ⟨?_, ?_, ?_, ?_⟩ <;> decide +kernel

/-- Before it was forced back, the same owner could leave the published head. -/
theorem live_owner_binds_departure :
    ((after sampleSha256 (.start 0) (forcedBack.take 11)).state.confirmHead
        (sampleHandle (push "b" "B") "w2" 1) "B" 12).2 = true :=
  (live_owner_binds sampleSha256 0 (forcedBack.take 11) (by decide +kernel)
    (sampleHandle (push "b" "B") "w2" 1) "B" 12).1.mpr (by decide +kernel)

end TinySweeper.ReviewJob
