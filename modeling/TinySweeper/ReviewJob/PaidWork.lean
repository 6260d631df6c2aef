import TinySweeper.ReviewJob.Completion
import TinySweeper.ReviewJob.Fencing

/-!
# Bounded paid work

Every paid start raises the sum of attempts and refunds of one counter pair and a
refund leaves it alone, so within one budget epoch, or over the life of one full
review, the starts are bounded by what both counters can hold.
-/

namespace TinySweeper.ReviewJob

open FirstMatch Runs

variable {sha256 : String → List UInt8} {e : Event} {s s' : ReviewSchedulerState}

/-- Both counters of a pair are within their limits. -/
def PaidWithin (paidAttempts ownershipRefunds : ℕ) : Prop :=
  paidAttempts ≤ maxReviewPaidAttempts ∧ ownershipRefunds ≤ maxReviewOwnershipRefunds

structure PaidBounds (s : ReviewSchedulerState) : Prop where
  records : ∀ record ∈ s.unfinished, PaidWithin record.paidAttempts record.ownershipRefunds
  budgets : ∀ budget ∈ s.incrementalHeads, PaidWithin budget.paidAttempts budget.ownershipRefunds

theorem PaidWithin.zero : PaidWithin 0 0 :=
  ⟨Nat.zero_le _, Nat.zero_le _⟩

theorem PaidWithin.start {paidAttempts ownershipRefunds : ℕ}
    (h : PaidWithin paidAttempts ownershipRefunds) (hfree : ¬ paidAttempts ≥ maxReviewPaidAttempts) :
    PaidWithin (paidAttempts + 1) ownershipRefunds :=
  ⟨not_le.mp hfree, h.2⟩

theorem PaidWithin.refund {paidAttempts ownershipRefunds : ℕ}
    (h : PaidWithin paidAttempts ownershipRefunds)
    (hfree : ¬ ownershipRefunds ≥ maxReviewOwnershipRefunds) :
    PaidWithin (paidAttempts - 1) (ownershipRefunds + 1) :=
  ⟨(Nat.sub_le _ _).trans h.1, not_le.mp hfree⟩

theorem JoinStep.paid {request : ReviewRequest} {record record' : ScheduledReview}
    {detached : List RetiredReviewCheck} (h : JoinStep sha256 request record record' detached) :
    record'.paidAttempts = record.paidAttempts ∧
      record'.ownershipRefunds = record.ownershipRefunds := by
  cases h with
  | keep => exact ⟨rfl, rfl⟩
  | coalesce =>
    unfold ScheduledReview.coalesce
    dsimp only
    split_ifs <;> exact ⟨rfl, rfl⟩

theorem RecordStep.paid (hpaid : e.operation.isPaid = false) {record record' : ScheduledReview}
    {detached : List RetiredReviewCheck} (h : RecordStep sha256 e record record' detached) :
    record'.paidAttempts = record.paidAttempts ∧
      record'.ownershipRefunds = record.ownershipRefunds := by
  cases h with
  | claim => rw [ScheduledReview.claim_eq]; exact ⟨rfl, rfl⟩
  | rebind => rw [ScheduledReview.bindCheck_eq]; exact ⟨rfl, rfl⟩
  | pay _ _ hop => simp [hpaid] at hop
  | _ => exact ⟨rfl, rfl⟩

theorem settle_paid (outcome : TerminalOutcome) (budget : IncrementalHeadBudget) :
    (budget.settle outcome).paidAttempts = budget.paidAttempts ∧
      (budget.settle outcome).ownershipRefunds = budget.ownershipRefunds ∧
      (budget.settle outcome).epoch = budget.epoch := by
  unfold IncrementalHeadBudget.settle
  split_ifs <;> exact ⟨rfl, rfl, rfl⟩

theorem moveTo_paidWithin (headSha : String) (historical : Option TerminalOutcome)
    (budget : IncrementalHeadBudget) : PaidWithin (budget.moveTo headSha historical).paidAttempts
      (budget.moveTo headSha historical).ownershipRefunds := by
  unfold IncrementalHeadBudget.moveTo PaidWithin
  dsimp only
  split_ifs
  · exact ⟨le_rfl, Nat.zero_le _⟩
  · exact ⟨Nat.zero_le _, Nat.zero_le _⟩

theorem PaidBounds.updateFirst_budgets (h : PaidBounds s) {p : IncrementalHeadBudget → Bool}
    {f : IncrementalHeadBudget → IncrementalHeadBudget}
    (hf : ∀ budget ∈ s.incrementalHeads, PaidWithin (f budget).paidAttempts
      (f budget).ownershipRefunds) :
    ∀ budget ∈ updateFirst p f s.incrementalHeads,
      PaidWithin budget.paidAttempts budget.ownershipRefunds := by
  intro budget hmem
  rcases mem_updateFirst hmem with hold | ⟨old, hold, -, rfl⟩
  · exact h.budgets budget hold
  · exact hf old hold

theorem PaidBounds.effect (hpaid : e.operation.isPaid = false) (h : PaidBounds s)
    (heffect : Effect sha256 e s s') : PaidBounds s' := by
  cases heffect with
  | normalize =>
    refine ⟨fun record hmem => ?_, h.budgets⟩
    obtain ⟨old, hold, rfl⟩ := List.mem_map.mp hmem
    exact h.records old hold
  | enqueue =>
    refine ⟨fun record hmem => ?_, h.budgets⟩
    rcases List.mem_append.mp hmem with hold | hnew
    · exact h.records record hold
    · rw [List.mem_singleton.mp hnew]
      exact .zero
  | join _ _ hrepl _ hstep =>
    refine ⟨hrepl.forall_mem h.records ?_, h.budgets⟩
    rw [hstep.paid.1, hstep.paid.2]
    exact h.records _ hrepl.mem_old
  | record hrepl hstep =>
    refine ⟨hrepl.forall_mem h.records ?_, h.budgets⟩
    rw [(hstep.paid hpaid).1, (hstep.paid hpaid).2]
    exact h.records _ hrepl.mem_old
  | rearm => exact ⟨h.records, h.updateFirst_budgets fun _ _ => .zero⟩
  | moveBudget =>
    exact ⟨h.records, h.updateFirst_budgets fun budget _ => moveTo_paidWithin _ _ budget⟩
  | openBudget _ hmem =>
    refine ⟨h.records, fun budget hbudget => ?_⟩
    rcases List.mem_append.mp hbudget with hold | hnew
    · exact h.budgets budget hold
    · rw [List.mem_singleton.mp hnew]
      exact ⟨(h.records _ hmem).1, Nat.zero_le _⟩
  | payBudget _ _ hop => simp [hpaid] at hop
  | settle record outcome =>
    refine ⟨by rw [s.settleHead_unfinished]; exact h.records, ?_⟩
    unfold ReviewSchedulerState.settleHead
    split_ifs
    · refine h.updateFirst_budgets fun budget hmem => ?_
      rw [(settle_paid outcome budget).1, (settle_paid outcome budget).2.1]
      exact h.budgets budget hmem
    · exact h.budgets
  | complete _ hrem | decline _ hrem =>
    exact ⟨fun record hmem => h.records record (hrem.sublist.subset hmem), h.budgets⟩
  | prune | pruneHistory | acknowledge => exact ⟨h.records, h.budgets⟩

theorem PaidBounds.quiet (h : PaidBounds s) (hquiet : Quiet s s') : PaidBounds s' := by
  refine ⟨fun record' hmem => ?_, by rw [hquiet.incrementalHeads]; exact h.budgets⟩
  obtain ⟨record, hrecord, hq⟩ := Forall₂.exists_left hquiet.unfinished hmem
  rw [hq.paidAttempts, hq.ownershipRefunds]
  exact h.records record hrecord

theorem PaidBounds.beginPaid (h : PaidBounds s) (owned : OwnedReview) (nowMs : ℤ) :
    PaidBounds (s.beginPaid owned nowMs).1 := by
  unfold ReviewSchedulerState.beginPaid
  split
  · exact h
  · rename_i record hfind
    split_ifs with hmode hspent
    · split
      · exact h
      · rename_i budget hbudget
        split_ifs with hterminal hspent
        · exact h
        · exact h
        · refine ⟨h.records, (updateFirst_replaced _ hbudget).forall_mem h.budgets ?_⟩
          exact (h.budgets budget (List.mem_of_find?_eq_some hbudget)).start hspent
    · exact h
    · refine ⟨(updateFirst_replaced _ hfind).forall_mem h.records ?_, h.budgets⟩
      exact (h.records record (List.mem_of_find?_eq_some hfind)).start hspent

theorem PaidBounds.refundPaid (h : PaidBounds s) (owned : OwnedReview) (headSha : String)
    (epoch : ℕ) (nowMs : ℤ) : PaidBounds (s.refundPaid owned headSha epoch nowMs).1 := by
  unfold ReviewSchedulerState.refundPaid
  split
  · exact h
  · rename_i record hfind
    split_ifs with hmode hepoch hspent
    · split
      · exact h
      · rename_i budget hbudget
        split_ifs with hspent
        · exact h
        · refine ⟨h.records, (updateFirst_replaced _ hbudget).forall_mem h.budgets ?_⟩
          exact (h.budgets budget (List.mem_of_find?_eq_some hbudget)).refund (not_or.mp hspent).2
    · exact h
    · exact h
    · refine ⟨(updateFirst_replaced _ hfind).forall_mem h.records ?_, h.budgets⟩
      exact (h.records record (List.mem_of_find?_eq_some hfind)).refund (not_or.mp hspent).2

theorem PaidBounds.perform (h : PaidBounds s) (e : Event) : PaidBounds (perform sha256 s e).1 := by
  cases hpaid : e.operation.isPaid with
  | false => exact perform_preserves PaidBounds.quiet (PaidBounds.effect hpaid) h
  | true =>
    cases hop : e.operation with
    | beginPaid owned => simpa only [ReviewJob.perform, hop] using h.beginPaid owned e.nowMs
    | refundPaid owned headSha epoch =>
      simpa only [ReviewJob.perform, hop] using h.refundPaid owned headSha epoch e.nowMs
    | _ => simp [hop, Operation.isPaid] at hpaid

theorem PaidBounds.empty : PaidBounds {} :=
  ⟨by simp, by simp⟩

theorem PaidBounds.after (sha256 : String → List UInt8) (t : ℤ) (events : List Event) :
    PaidBounds (after sha256 (.start t) events).state :=
  after_invariant (fun _ e h => h.perform e) PaidBounds.empty events

def PaidStart.isStarted : PaidStart → Bool
  | .started _ => true
  | _ => false

/-- The three ways a `begin_paid` can go. -/
inductive BeginPaid (s : ReviewSchedulerState) (owned : OwnedReview) (nowMs : ℤ) :
    ReviewSchedulerState × PaidStart → Prop
  | refused {start} (hstart : start.isStarted = false) : BeginPaid s owned nowMs (s, start)
  | budget {record budget} (hfind : s.unfinished.find? (ownsUnexpired owned nowMs) = some record)
      (hmode : record.request.mode = .incremental)
      (hbudget : s.budgetOf record.request.repo record.request.number = some budget)
      (hopen : budget.terminalOutcome = none)
      (hhistory : s.headHistory.any (fun entry => entry.marks record.request.repo
        record.request.number budget.headSha nowMs) = false)
      (hfree : ¬ budget.paidAttempts ≥ maxReviewPaidAttempts) :
      BeginPaid s owned nowMs
        (s.updateBudget record.request.repo record.request.number fun budget =>
          { budget with paidAttempts := budget.paidAttempts + 1 }, .started budget.epoch)
  | full {record} (hfind : s.unfinished.find? (ownsUnexpired owned nowMs) = some record)
      (hmode : record.request.mode = .full)
      (hfree : ¬ record.paidAttempts ≥ maxReviewPaidAttempts) :
      BeginPaid s owned nowMs
        (s.updateOwned owned nowMs fun record =>
          { record with paidAttempts := record.paidAttempts + 1 }, .started 0)

theorem beginPaid_cases (s : ReviewSchedulerState) (owned : OwnedReview) (nowMs : ℤ) :
    BeginPaid s owned nowMs (s.beginPaid owned nowMs) := by
  unfold ReviewSchedulerState.beginPaid
  cases hfind : s.unfinished.find? (ownsUnexpired owned nowMs) with
  | none => exact .refused rfl
  | some record =>
    cases hmode : record.request.mode with
    | incremental =>
      cases hbudget : s.budgetOf record.request.repo record.request.number with
      | none => simpa [hmode, hbudget] using BeginPaid.refused rfl
      | some budget =>
        simp only [hmode, hbudget, if_true]
        split_ifs with hterminal hspent
        · exact .refused rfl
        · exact .refused rfl
        · simp only [not_or, Bool.not_eq_true, Option.isSome_eq_false_iff,
            Option.isNone_iff_eq_none] at hterminal
          exact .budget hfind hmode hbudget hterminal.1 hterminal.2.2 hspent
    | full =>
      simp only [hmode, reduceCtorEq, if_false]
      split_ifs with hspent
      · exact .refused rfl
      · exact .full hfind hmode hspent

/-- One if this event is a `begin_paid` that starts on a record satisfying `p`. -/
def startedOn (p : ScheduledReview → Bool) (s : ReviewSchedulerState) (e : Event) : ℕ :=
  match e.operation with
  | .beginPaid owned =>
    match s.unfinished.find? (ownsUnexpired owned e.nowMs) with
    | some record => if p record && (s.beginPaid owned e.nowMs).2.isStarted then 1 else 0
    | none => 0
  | _ => 0

def budgetEpoch (repo : String) (number : ℕ) (s : ReviewSchedulerState) : Option ℕ :=
  (s.budgetOf repo number).map fun budget => budget.epoch

/-- Attempts and refunds charged to the pull request's budget so far. -/
def budgetCharge (repo : String) (number : ℕ) (s : ReviewSchedulerState) : ℕ :=
  ((s.budgetOf repo number).map fun budget =>
    budget.paidAttempts + budget.ownershipRefunds).getD 0

theorem PaidBounds.budgetCharge_le (h : PaidBounds s) (repo : String) (number : ℕ) :
    budgetCharge repo number s ≤ maxReviewPaidAttempts + maxReviewOwnershipRefunds := by
  unfold budgetCharge
  cases hfind : s.budgetOf repo number with
  | none => exact Nat.zero_le _
  | some budget =>
    obtain ⟨hpaid, hrefunds⟩ := h.budgets budget (List.mem_of_find?_eq_some hfind)
    exact Nat.add_le_add hpaid hrefunds

/-- How an operation without paid accounting may change a budget: the counters and the
epoch stay, or the epoch advances once, to a budget that will not advance again. -/
inductive BudgetStep (e : Event) (old new : IncrementalHeadBudget) : Prop
  | same (hpaid : new.paidAttempts = old.paidAttempts)
      (hrefunds : new.ownershipRefunds = old.ownershipRefunds) (hepoch : new.epoch = old.epoch)
  | rearmed {requests} (hop : e.operation = .admitBatch requests)
      (hepoch : new.epoch = wrappingAddU64 old.epoch 1) (hfailed : new.failed = false)
  | moved {owned headSha} (hop : e.operation.confirms owned headSha)
      (hepoch : new.epoch = wrappingAddU64 old.epoch 1) (hhead : new.headSha = headSha)

variable {owned : OwnedReview} {headSha repo : String} {number charge : ℕ} {id : ReviewJobId}

theorem Operation.confirms_headSha {operation : Operation} {owned' : OwnedReview}
    {headSha' : String} (h : operation.confirms owned headSha)
    (h' : operation.confirms owned' headSha') : headSha = headSha' := by
  rcases h with h | h <;> rcases h' with h' | h' <;> rw [h] at h' <;> cases h' <;> rfl

theorem Operation.not_confirms_admit {requests : List ReviewRequest} :
    ¬ (Operation.admitBatch requests).confirms owned headSha := by
  simp [Operation.confirms]

theorem BudgetStep.rearm {old new : IncrementalHeadBudget} (h : BudgetStep e old new)
    {requests : List ReviewRequest} (hop : e.operation = .admitBatch requests)
    (hfailed : new.failed = true) : BudgetStep e old new.rearm := by
  cases h with
  | same hpaid hrefunds hepoch => exact .rearmed hop (by rw [← hepoch]; rfl) rfl
  | rearmed _ _ hbad => simp [hfailed] at hbad
  | moved hconfirms => exact absurd (hop ▸ hconfirms) Operation.not_confirms_admit

theorem BudgetStep.move {old new : IncrementalHeadBudget} (h : BudgetStep e old new)
    (hop : e.operation.confirms owned headSha) (hne : new.headSha ≠ headSha)
    (historical : Option TerminalOutcome) : BudgetStep e old (new.moveTo headSha historical) := by
  cases h with
  | same hpaid hrefunds hepoch => exact .moved hop (by rw [← hepoch]; rfl) rfl
  | rearmed hbatch => exact absurd (hbatch ▸ hop) Operation.not_confirms_admit
  | moved hop' _ hhead => exact absurd (hhead.trans (Operation.confirms_headSha hop' hop)) hne

theorem BudgetStep.settle {old new : IncrementalHeadBudget} (h : BudgetStep e old new)
    (hop : e.operation.finishes = true) (outcome : TerminalOutcome) :
    BudgetStep e old (new.settle outcome) := by
  cases h with
  | same hpaid hrefunds hepoch =>
    obtain ⟨h₁, h₂, h₃⟩ := settle_paid outcome new
    exact .same (h₁.trans hpaid) (h₂.trans hrefunds) (h₃.trans hepoch)
  | rearmed hbatch => simp [hbatch, Operation.finishes] at hop
  | moved hconfirms => rcases hconfirms with hbad | hbad <;> simp [hbad, Operation.finishes] at hop

theorem Effect.budgetStep (hpaid : e.operation.isPaid = false) {old budget : IncrementalHeadBudget}
    (hfind : s.budgetOf repo number = some budget) (hstep : BudgetStep e old budget)
    (heffect : Effect sha256 e s s') :
    ∃ budget', s'.budgetOf repo number = some budget' ∧ BudgetStep e old budget' := by
  cases heffect with
  | rearm request hop =>
    have hcases := find?_updateFirst_cases (p := fun budget =>
        budget.isFor request.repo request.number && budget.failed)
      (q := fun budget => budget.isFor repo number) (f := IncrementalHeadBudget.rearm)
      (fun _ => rfl) s.incrementalHeads
    rcases hcases with hsame | ⟨found, hfound, hp, hnew⟩
    · exact ⟨budget, hsame.trans hfind, hstep⟩
    · have heq : found = budget := Option.some.inj (hfound.symm.trans hfind)
      subst heq
      have hfailed := List.find?_some hp
      rw [Bool.and_eq_true] at hfailed
      exact ⟨found.rearm, hnew, hstep.rearm hop hfailed.2⟩
  | @moveBudget repo' number' current owned headSha hop hcurrent hne =>
    have hcases := find?_updateFirst_cases (p := fun budget => budget.isFor repo' number')
      (q := fun budget => budget.isFor repo number)
      (f := IncrementalHeadBudget.moveTo headSha (historicalOutcome (s.moveBudget current repo'
        number' headSha e.nowMs).headHistory repo' number' headSha e.nowMs))
      (fun _ => rfl) s.incrementalHeads
    rcases hcases with hsame | ⟨found, hfound, hp, hnew⟩
    · exact ⟨budget, hsame.trans hfind, hstep⟩
    · have heq : found = budget := Option.some.inj (hfound.symm.trans hfind)
      subst heq
      have hcur : found = current := Option.some.inj (hp.symm.trans hcurrent)
      subst hcur
      exact ⟨_, hnew, hstep.move hop hne _⟩
  | openBudget =>
    refine ⟨budget, ?_, hstep⟩
    simp only [ReviewSchedulerState.budgetOf] at hfind ⊢
    rw [List.find?_append, hfind]
    rfl
  | payBudget _ _ hop => simp [hpaid] at hop
  | settle record outcome hop =>
    unfold ReviewSchedulerState.settleHead
    split_ifs
    · have hcases := find?_updateFirst_cases
        (p := fun budget => budget.isFor record.request.repo record.request.number)
        (q := fun budget => budget.isFor repo number)
        (f := IncrementalHeadBudget.settle outcome) (settle_isFor outcome repo number)
        s.incrementalHeads
      rcases hcases with hsame | ⟨found, hfound, hp, hnew⟩
      · exact ⟨budget, hsame.trans hfind, hstep⟩
      · have heq : found = budget := Option.some.inj (hfound.symm.trans hfind)
        subst heq
        exact ⟨_, hnew, hstep.settle hop outcome⟩
    · exact ⟨budget, hfind, hstep⟩
  | normalize | enqueue | join | record | complete | decline | prune | pruneHistory
  | acknowledge => exact ⟨budget, hfind, hstep⟩

theorem perform_budgetStep (sha256 : String → List UInt8) (hpaid : e.operation.isPaid = false)
    {budget : IncrementalHeadBudget} (hfind : s.budgetOf repo number = some budget) :
    ∃ budget', (perform sha256 s e).1.budgetOf repo number = some budget' ∧
      BudgetStep e budget budget' := by
  have hstart : BudgetStep e budget budget := .same rfl rfl rfl
  rcases perform_cases sha256 s e with hquiet | hchain
  · refine ⟨budget, ?_, hstart⟩
    rw [ReviewSchedulerState.budgetOf, hquiet.incrementalHeads]
    exact hfind
  · generalize (perform sha256 s e).1 = s' at hchain ⊢
    induction hchain with
    | refl => exact ⟨budget, hfind, hstart⟩
    | tail _ hlast ih =>
      obtain ⟨current, hcurrent, hstep⟩ := ih
      exact hlast.budgetStep hpaid hcurrent hstep

theorem startedOn_beginPaid (hop : e.operation = .beginPaid owned) {p : ScheduledReview → Bool}
    {record : ScheduledReview}
    (hfind : s.unfinished.find? (ownsUnexpired owned e.nowMs) = some record)
    (hstarted : (s.beginPaid owned e.nowMs).2.isStarted = true) :
    startedOn p s e = if p record then 1 else 0 := by
  simp [startedOn, hop, hfind, hstarted]

theorem startedOn_refused (hop : e.operation = .beginPaid owned) (p : ScheduledReview → Bool)
    (hstarted : (s.beginPaid owned e.nowMs).2.isStarted = false) : startedOn p s e = 0 := by
  simp only [startedOn, hop, hstarted, Bool.and_false, Bool.false_eq_true, if_false]
  split <;> rfl

theorem beginPaid_charge (hop : e.operation = .beginPaid owned) (repo : String) (number : ℕ) :
    budgetCharge repo number (s.beginPaid owned e.nowMs).1 =
      budgetCharge repo number s + startedOn (isIncrementalOf repo number) s e := by
  have hcases := beginPaid_cases s owned e.nowMs
  generalize hresult : s.beginPaid owned e.nowMs = result at hcases ⊢
  cases hcases with
  | refused hstart =>
    rw [startedOn_refused hop _ (by rw [hresult]; exact hstart)]
    rfl
  | @budget record budget hfind hmode hbudget =>
    rw [startedOn_beginPaid hop hfind (by rw [hresult]; rfl)]
    by_cases hpr : isIncrementalOf repo number record = true
    · obtain ⟨-, rfl, rfl⟩ := isIncrementalOf_iff.mp hpr
      have hnew := find?_updateFirst_self (p := fun budget : IncrementalHeadBudget =>
          budget.isFor record.request.repo record.request.number)
        (f := fun budget => { budget with paidAttempts := budget.paidAttempts + 1 })
        (fun _ => rfl) s.incrementalHeads
      rw [ReviewSchedulerState.budgetOf] at hbudget
      simp only [budgetCharge, ReviewSchedulerState.updateBudget, ReviewSchedulerState.budgetOf,
        hnew, hbudget, hpr, if_true, Option.map_some, Option.getD_some]
      omega
    · rw [if_neg hpr, Nat.add_zero]
      rcases find?_updateFirst_cases (p := fun budget : IncrementalHeadBudget =>
          budget.isFor record.request.repo record.request.number)
          (q := fun budget => budget.isFor repo number)
          (f := fun budget => { budget with paidAttempts := budget.paidAttempts + 1 })
          (fun _ => rfl) s.incrementalHeads with hsame | ⟨found, hq, hp, -⟩
      · simp only [budgetCharge, ReviewSchedulerState.updateBudget,
          ReviewSchedulerState.budgetOf, hsame]
      · have hseen := List.find?_some hq
        have hheld := List.find?_some hp
        obtain ⟨hrepo, hnumber⟩ := isFor_iff.mp hseen
        obtain ⟨hrepo', hnumber'⟩ := isFor_iff.mp hheld
        exact absurd (isIncrementalOf_iff.mpr
          ⟨hmode, hrepo'.symm.trans hrepo, hnumber'.symm.trans hnumber⟩) hpr
  | @full record hfind hmode =>
    rw [startedOn_beginPaid hop hfind (by rw [hresult]; rfl)]
    simp only [isIncrementalOf, hmode]
    rfl

theorem refundPaid_charge (s : ReviewSchedulerState) (owned : OwnedReview) (headSha : String)
    (epoch : ℕ) (nowMs : ℤ) (repo : String) (number : ℕ) :
    budgetCharge repo number (s.refundPaid owned headSha epoch nowMs).1 =
      budgetCharge repo number s := by
  unfold ReviewSchedulerState.refundPaid
  split
  · rfl
  · rename_i record hfind
    split_ifs
    · split
      · rfl
      · rename_i budget hbudget
        split_ifs with hspent
        · rfl
        · rcases find?_updateFirst_cases (p := fun budget => budget.isRefundable
              record.request.repo record.request.number headSha epoch)
              (q := fun budget => budget.isFor repo number)
              (f := fun budget => { budget with
                paidAttempts := budget.paidAttempts - 1
                ownershipRefunds := budget.ownershipRefunds + 1 })
              (fun _ => rfl) s.incrementalHeads with hsame | ⟨found, hq, hp, hnew⟩
          · simp only [budgetCharge, ReviewSchedulerState.budgetOf, hsame]
          · have heq : found = budget := Option.some.inj (hp.symm.trans hbudget)
            subst heq
            simp only [budgetCharge, ReviewSchedulerState.budgetOf, hnew, hq, Option.map_some,
              Option.getD_some]
            omega
    · rfl
    · rfl
    · rfl

/-- While the epoch stays, every start is paid for by the budget's charge. -/
theorem perform_charge
    (hepoch : budgetEpoch repo number (perform sha256 s e).1 = budgetEpoch repo number s) :
    budgetCharge repo number s + startedOn (isIncrementalOf repo number) s e ≤
      budgetCharge repo number (perform sha256 s e).1 := by
  cases hpaid : e.operation.isPaid with
  | true =>
    cases hop : e.operation with
    | beginPaid owned =>
      have hcharge := beginPaid_charge (s := s) hop repo number
      simpa only [perform, hop] using hcharge.ge
    | refundPaid owned headSha epoch =>
      have hcharge := refundPaid_charge s owned headSha epoch e.nowMs repo number
      simpa only [perform, hop, startedOn, Nat.add_zero] using hcharge.ge
    | _ => simp [hop, Operation.isPaid] at hpaid
  | false =>
    have hnone : startedOn (isIncrementalOf repo number) s e = 0 := by
      unfold startedOn
      cases hop : e.operation with
      | beginPaid owned => simp [hop, Operation.isPaid] at hpaid
      | _ => rfl
    rw [hnone, Nat.add_zero]
    cases hfind : s.budgetOf repo number with
    | none => simp [budgetCharge, hfind]
    | some budget =>
      obtain ⟨budget', hfind', hstep⟩ := perform_budgetStep sha256 hpaid hfind
      simp only [budgetEpoch, hfind, hfind', Option.map_some, Option.some.injEq] at hepoch
      simp only [budgetCharge, hfind, hfind', Option.map_some, Option.getD_some]
      cases hstep with
      | same hpaid hrefunds => omega
      | rearmed _ hbump | moved _ hbump =>
        exact absurd (hbump.symm.trans hepoch) (wrappingAddU64_one_ne _)

/-- The unfinished full review of this id, with its counters adding up to `charge`. -/
def FullAt (s : ReviewSchedulerState) (id : ReviewJobId) (charge : ℕ) : Prop :=
  ∃ record ∈ s.unfinished, record.request.id = id ∧ record.request.mode = .full ∧
    record.paidAttempts + record.ownershipRefunds = charge

def HasFull (id : ReviewJobId) (s : ReviewSchedulerState) : Prop :=
  ∃ record ∈ s.unfinished, record.request.id = id ∧ record.request.mode = .full

def isFullOf (id : ReviewJobId) (record : ScheduledReview) : Bool :=
  record.request.mode == .full && record.request.id == id

/-- Attempts and refunds charged to the record of this id so far. -/
def jobCharge (id : ReviewJobId) (s : ReviewSchedulerState) : ℕ :=
  ((s.unfinished.find? fun record => record.request.id == id).map fun record =>
    record.paidAttempts + record.ownershipRefunds).getD 0

theorem PaidBounds.jobCharge_le (h : PaidBounds s) (id : ReviewJobId) :
    jobCharge id s ≤ maxReviewPaidAttempts + maxReviewOwnershipRefunds := by
  unfold jobCharge
  cases hfind : s.unfinished.find? (fun record => record.request.id == id) with
  | none => exact Nat.zero_le _
  | some record =>
    obtain ⟨hpaid, hrefunds⟩ := h.records record (List.mem_of_find?_eq_some hfind)
    exact Nat.add_le_add hpaid hrefunds

theorem Shape.request_unique (h : Shape s) {a b : ScheduledReview} (ha : a ∈ s.unfinished)
    (hb : b ∈ s.unfinished) (hid : a.request.id = b.request.id) : a = b := by
  have hia := (h.records a ha).accepted
  rw [hid] at hia
  exact h.record_unique ha hb hia (h.records b hb).accepted

theorem FullAt.jobCharge (hshape : Shape s) (h : FullAt s id charge) : jobCharge id s = charge := by
  obtain ⟨record, hmem, hid, -, hcharge⟩ := h
  unfold ReviewJob.jobCharge
  cases hfind : s.unfinished.find? (fun record => record.request.id == id) with
  | none =>
    rw [List.find?_eq_none] at hfind
    exact absurd (beq_iff_eq.mpr hid) (hfind record hmem)
  | some found =>
    have hfound : found.request.id = id := by simpa using List.find?_some hfind
    have hsame := hshape.request_unique (List.mem_of_find?_eq_some hfind) hmem
      (hfound.trans hid.symm)
    rw [hsame]
    exact hcharge

theorem carried_full (hpaid : e.operation.isPaid = false) : Carried sha256 e id fun record =>
    record.request.id = id ∧ record.request.mode = .full ∧
      record.paidAttempts + record.ownershipRefunds = charge where
  accepted hshape h := h.1 ▸ hshape.accepted
  quiet hquiet h := by
    rw [hquiet.request, hquiet.paidAttempts, hquiet.ownershipRefunds]
    exact h
  join htarget _ h := by
    have hfind := (coalesceTarget_eq_some htarget).2
    have hincremental := (isIncrementalOf_iff.mp (List.find?_some hfind)).1
    simp [h.2.1] at hincremental
  step hstep h := by
    rw [hstep.request.1, (hstep.paid hpaid).1, (hstep.paid hpaid).2]
    exact h

theorem beginPaid_fullAt (hshape : Shape s) (hop : e.operation = .beginPaid owned)
    (h : FullAt s id charge) :
    FullAt (s.beginPaid owned e.nowMs).1 id (charge + startedOn (isFullOf id) s e) := by
  have hcases := beginPaid_cases s owned e.nowMs
  generalize hresult : s.beginPaid owned e.nowMs = result at hcases ⊢
  cases hcases with
  | refused hstart =>
    rw [startedOn_refused hop _ (by rw [hresult]; exact hstart)]
    exact h
  | @budget record budget hfind hmode =>
    rw [startedOn_beginPaid hop hfind (by rw [hresult]; rfl)]
    have hnot : isFullOf id record = false := by simp [isFullOf, hmode]
    rw [hnot, if_neg Bool.false_ne_true]
    exact h
  | @full record hfind hmode =>
    rw [startedOn_beginPaid hop hfind (by rw [hresult]; rfl)]
    have hrepl := updateFirst_replaced (fun record : ScheduledReview =>
      { record with paidAttempts := record.paidAttempts + 1 }) hfind
    obtain ⟨current, hmem, hid, hcurrent, hcharge⟩ := h
    by_cases hsame : record.request.id = id
    · have heq := hshape.request_unique (List.mem_of_find?_eq_some hfind) hmem
        (hsame.trans hid.symm)
      subst heq
      refine ⟨_, hrepl.mem_new, hid, hmode, ?_⟩
      simp only [isFullOf, hmode, hid, beq_self_eq_true, Bool.and_self, if_true]
      omega
    · have hnot : isFullOf id record = false := by simp [isFullOf, hsame]
      rcases hrepl.mem_cases_old hmem with rfl | hkept
      · exact absurd hid hsame
      · exact ⟨current, hkept, hid, hcurrent, by simpa [hnot] using hcharge⟩

theorem refundPaid_fullAt (h : FullAt s id charge) (owned : OwnedReview) (headSha : String)
    (epoch : ℕ) (nowMs : ℤ) : FullAt (s.refundPaid owned headSha epoch nowMs).1 id charge := by
  unfold ReviewSchedulerState.refundPaid
  split
  · exact h
  · rename_i record hfind
    split_ifs with hmode hepoch hspent
    · split
      · exact h
      · split_ifs <;> exact h
    · exact h
    · exact h
    · refine (updateFirst_replaced _ hfind).exists_mem ?_ h
      rintro ⟨hid, hfull, hcharge⟩
      refine ⟨hid, hfull, ?_⟩
      dsimp only
      omega

/-- While the full review stays, every start is paid for by its charge. -/
theorem perform_jobCharge (hshape : Shape s) (hbefore : HasFull id s)
    (hafter : HasFull id (perform sha256 s e).1) :
    jobCharge id s + startedOn (isFullOf id) s e ≤ jobCharge id (perform sha256 s e).1 := by
  obtain ⟨record, hmem, hid, hmode⟩ := hbefore
  have hfull : FullAt s id (jobCharge id s) := by
    have hat : FullAt s id (record.paidAttempts + record.ownershipRefunds) :=
      ⟨record, hmem, hid, hmode, rfl⟩
    rwa [hat.jobCharge hshape]
  have hshape' := hshape.perform sha256 e
  cases hpaid : e.operation.isPaid with
  | true =>
    cases hop : e.operation with
    | beginPaid owned =>
      have hnext := beginPaid_fullAt hshape hop hfull
      have hstate : (perform sha256 s e).1 = (s.beginPaid owned e.nowMs).1 := by
        simp only [perform, hop]
      rw [hstate] at hshape' ⊢
      exact (hnext.jobCharge hshape').ge
    | refundPaid owned headSha epoch =>
      have hnext := refundPaid_fullAt hfull owned headSha epoch e.nowMs
      have hstate : (perform sha256 s e).1 = (s.refundPaid owned headSha epoch e.nowMs).1 := by
        simp only [perform, hop]
      rw [hstate] at hshape' ⊢
      simpa only [startedOn, hop, Nat.add_zero] using (hnext.jobCharge hshape').ge
    | _ => simp [hop, Operation.isPaid] at hpaid
  | false =>
    have hnone : startedOn (isFullOf id) s e = 0 := by
      unfold startedOn
      cases hop : e.operation with
      | beginPaid owned => simp [hop, Operation.isPaid] at hpaid
      | _ => rfl
    rw [hnone, Nat.add_zero]
    rcases (carried_full hpaid).perform hshape hfull with hkept | hgone
    · exact (FullAt.jobCharge hshape' hkept).ge
    · obtain ⟨record', hmem', hid', -⟩ := hafter
      refine absurd (List.mem_flatMap.mpr ⟨record', hmem', ?_⟩) hgone
      exact hid' ▸ (hshape'.records record' hmem').accepted

/-- A refund touches the budget at exactly the named head and epoch, or a full review's own
counters, whose one epoch is 0. -/
theorem refundPaid_scope (s : ReviewSchedulerState) (owned : OwnedReview) (headSha : String)
    (epoch : ℕ) (nowMs : ℤ) :
    (∀ repo number budget, s.budgetOf repo number = some budget →
      budget.headSha ≠ headSha ∨ budget.epoch ≠ epoch →
      (s.refundPaid owned headSha epoch nowMs).1.budgetOf repo number = some budget) ∧
    ∀ record ∈ s.unfinished, record.request.mode = .incremental ∨
      record.request.id ≠ owned.request.id ∨ epoch ≠ 0 →
      record ∈ (s.refundPaid owned headSha epoch nowMs).1.unfinished := by
  unfold ReviewSchedulerState.refundPaid
  split
  · exact ⟨fun _ _ _ hfind _ => hfind, fun _ hmem _ => hmem⟩
  · rename_i job hjob
    have hid := List.find?_some hjob
    rw [beq_iff_eq] at hid
    split_ifs with hmode hepoch hspent
    · split
      · exact ⟨fun _ _ _ hfind _ => hfind, fun _ hmem _ => hmem⟩
      · rename_i charged hcharged
        split_ifs with hspent
        · exact ⟨fun _ _ _ hfind _ => hfind, fun _ hmem _ => hmem⟩
        · refine ⟨fun repo number budget hfind hother => ?_, fun _ hmem _ => hmem⟩
          rcases find?_updateFirst_cases (p := fun budget => budget.isRefundable
              job.request.repo job.request.number headSha epoch)
              (q := fun budget => budget.isFor repo number)
              (f := fun budget => { budget with
                paidAttempts := budget.paidAttempts - 1
                ownershipRefunds := budget.ownershipRefunds + 1 })
              (fun _ => rfl) s.incrementalHeads with hsame | ⟨found, hq, hp, -⟩
          · exact hsame.trans hfind
          · have heq : found = budget := Option.some.inj (hq.symm.trans hfind)
            subst heq
            have hnamed := List.find?_some hp
            simp only [IncrementalHeadBudget.isRefundable, Bool.and_eq_true, beq_iff_eq] at hnamed
            rcases hother with hbad | hbad
            · exact absurd hnamed.1.1.1.2 hbad
            · exact absurd hnamed.1.1.2 hbad
    · exact ⟨fun _ _ _ hfind _ => hfind, fun _ hmem _ => hmem⟩
    · exact ⟨fun _ _ _ hfind _ => hfind, fun _ hmem _ => hmem⟩
    · refine ⟨fun _ _ _ hfind _ => hfind, fun record hmem hother => ?_⟩
      rcases (updateFirst_replaced _ hjob).mem_cases_old hmem with rfl | hkept
      · rcases hother with hbad | hbad | hbad
        · exact absurd hbad hmode
        · exact absurd hid hbad
        · exact absurd hbad hepoch
      · exact hkept

/-- Along every run the counters stay within their limits. Over a stretch in which a budget's
epoch does not change, or in which a full review stays unfinished, at most as many paid
starts succeed as attempts and refunds together allow; refunds keep to what they name. -/
theorem paid_work_bounded (sha256 : String → List UInt8) (t : ℤ) :
    (∀ events, PaidBounds (after sha256 (.start t) events).state) ∧
    (∀ (before stretch : List Event) (repo : String) (number : ℕ),
      IsRun sha256 (fun s e =>
          budgetEpoch repo number (perform sha256 s e).1 = budgetEpoch repo number s)
        (after sha256 (.start t) before) stretch →
      spent (tick sha256) (fun c e => startedOn (isIncrementalOf repo number) c.state e)
        (after sha256 (.start t) before) stretch ≤
          maxReviewPaidAttempts + maxReviewOwnershipRefunds) ∧
    (∀ (before stretch : List Event) (id : ReviewJobId),
      IsRun sha256 (fun s e => HasFull id s ∧ HasFull id (perform sha256 s e).1)
        (after sha256 (.start t) before) stretch →
      spent (tick sha256) (fun c e => startedOn (isFullOf id) c.state e)
        (after sha256 (.start t) before) stretch ≤
          maxReviewPaidAttempts + maxReviewOwnershipRefunds) ∧
    ∀ (s : ReviewSchedulerState) (owned : OwnedReview) (headSha : String) (epoch : ℕ) (nowMs : ℤ),
      (∀ repo number budget, s.budgetOf repo number = some budget →
        budget.headSha ≠ headSha ∨ budget.epoch ≠ epoch →
        (s.refundPaid owned headSha epoch nowMs).1.budgetOf repo number = some budget) ∧
      ∀ record ∈ s.unfinished, record.request.mode = .incremental ∨
        record.request.id ≠ owned.request.id ∨ epoch ≠ 0 →
        record ∈ (s.refundPaid owned headSha epoch nowMs).1.unfinished := by
  refine ⟨PaidBounds.after sha256 t, ?_, ?_, refundPaid_scope⟩
  · intro before stretch repo number hstretch
    have hspent := Guarded.spent_le (fun c : Clocked => budgetCharge repo number c.state)
      (fun c e h => perform_charge h) hstretch
    have hbounds := (PaidBounds.after sha256 t (before ++ stretch)).budgetCharge_le
      repo number
    rw [after_append] at hbounds
    exact (Nat.le_add_left _ _).trans (hspent.trans hbounds)
  · intro before stretch id hstretch
    have hshaped := hstretch.strengthen (I := fun c : Clocked => Shape c.state)
      (fun c e h _ => h.perform sha256 e) (Shape.after sha256 t before)
    have hspent := Guarded.spent_le (fun c : Clocked => jobCharge id c.state)
      (fun c e h => perform_jobCharge h.1 h.2.1 h.2.2) hshaped
    have hbounds := (PaidBounds.after sha256 t (before ++ stretch)).jobCharge_le id
    rw [after_append] at hbounds
    exact (Nat.le_add_left _ _).trans (hspent.trans hbounds)

/-- A full review keeps one counter for the job: a refund that names another head than the
one under review still returns the start charged for it. -/
theorem paid_work_bounded_full_head :
    ∃ (events : List Event) (owned : OwnedReview),
      (∃ record ∈ (after sampleSha256 (.start 0) events).state.unfinished,
        record.request.headSha = some "A" ∧ record.paidAttempts = 1) ∧
      ((after sampleSha256 (.start 0) events).state.refundPaid owned "B" 0 6).2 = true ∧
      ∃ record ∈ ((after sampleSha256 (.start 0) events).state.refundPaid owned "B"
          0 6).1.unfinished,
        record.request.headSha = some "A" ∧ record.paidAttempts = 0 := by
  refine ⟨ownedReview { push "a" "A" with mode := .full } ++
    [⟨5, .beginPaid (sampleHandle { push "a" "A" with mode := .full } "w1" 1)⟩],
    sampleHandle { push "a" "A" with mode := .full } "w1" 1, ?_, ?_, ?_⟩ <;> decide

/-- Two starts of an incremental and of a full review, within the bound. -/
theorem paid_work_bounded_two_starts :
    spent (tick sampleSha256) (fun c e => startedOn (isIncrementalOf "owner/repo" 7) c.state e)
        (after sampleSha256 (.start 0) (ownedReview (push "a" "A") ++
          [⟨5, .reconcileLiveCheck (sampleHandle (push "a" "A") "w1" 1) "A"⟩]))
        (List.replicate 2 ⟨6, .beginPaid (sampleHandle (push "a" "A") "w1" 1)⟩) ≤
        maxReviewPaidAttempts + maxReviewOwnershipRefunds ∧
      spent (tick sampleSha256) (fun c e => startedOn (isFullOf ⟨"a"⟩) c.state e)
        (after sampleSha256 (.start 0) (ownedReview { push "a" "A" with mode := .full }))
        (List.replicate 2 ⟨6, .beginPaid
          (sampleHandle { push "a" "A" with mode := .full } "w1" 1)⟩) ≤
        maxReviewPaidAttempts + maxReviewOwnershipRefunds := by
  have hbounded := paid_work_bounded sampleSha256 0
  constructor
  · exact hbounded.2.1 _ _ "owner/repo" 7 ⟨by decide, by decide, trivial⟩
  · refine hbounded.2.2.1 _ _ ⟨"a"⟩ ⟨?_, ?_, trivial⟩ <;> unfold HasFull <;> decide

end TinySweeper.ReviewJob
