import TinySweeper.ReviewJob.Confirmation
import TinySweeper.ReviewJob.Fencing

/-!
# Terminal marks and the confirmed head

A completing operation finds the budget of its pull request and marks whatever
head stands in it. Along a run we keep the head each handle confirmed last, and
compare it with the marked one.
-/

namespace TinySweeper.ReviewJob

open FirstMatch

variable {sha256 : String → List UInt8} {e : Event} {s s' : ReviewSchedulerState}

/-- What distinguishes one handle from another. -/
structure HandleKey where
  id : ReviewJobId
  owner : String
  generation : ℕ
  deriving DecidableEq, Repr

def OwnedReview.key (owned : OwnedReview) : HandleKey :=
  ⟨owned.request.id, owned.owner, owned.generation⟩

def ReconciledReviewCheck.confirmed : ReconciledReviewCheck → Bool
  | .ready _ | .pending _ | .terminal => true
  | .capacityDeferred | .ownershipLost => false

/-- The handle and head of a confirmation that succeeded. -/
def Event.confirmation (e : Event) (reply : Reply) : Option (OwnedReview × String) :=
  match e.operation, reply with
  | .confirmHead owned headSha, .accepted true => some (owned, headSha)
  | .reconcileLiveCheck owned headSha, .reconciled answer =>
    if answer.confirmed then some (owned, headSha) else none
  | _, _ => none

/-- The head each handle confirmed last since it was claimed. -/
abbrev ConfirmedHeads := HandleKey → Option String

def ConfirmedHeads.note (seen : ConfirmedHeads) (e : Event) (reply : Reply) : ConfirmedHeads :=
  match reply with
  | .claimed (some owned) => Function.update seen owned.key none
  | _ =>
    match e.confirmation reply with
    | some (owned, headSha) => Function.update seen owned.key (some headSha)
    | none => seen

/-- A run together with the heads its handles confirmed. -/
structure Watched where
  clocked : Clocked
  seen : ConfirmedHeads

def Watched.start (nowMs : ℤ) : Watched := ⟨.start nowMs, fun _ => none⟩

variable (sha256) in
def watch (w : Watched) (e : Event) : Watched :=
  ⟨tick sha256 w.clocked e, w.seen.note e (perform sha256 w.clocked.state e).2⟩

variable (sha256) in
abbrev watched (w : Watched) (events : List Event) : Watched := Runs.exec (watch sha256) w events

theorem watched_clocked (w : Watched) (events : List Event) :
    (watched sha256 w events).clocked = after sha256 w.clocked events := by
  induction events generalizing w with
  | nil => rfl
  | cons e events ih => exact ih (watch sha256 w e)

def ReviewSchedulerState.headOf (s : ReviewSchedulerState) (pr : String × ℕ) : Option String :=
  (s.budgetOf pr.1 pr.2).map IncrementalHeadBudget.headSha

/-- The lease and the pull request of a record. -/
def ScheduledReview.lease (record : ScheduledReview) :
    ReviewJobId × Bool × (String × ℕ) × Option String × ℕ :=
  (record.request.id, record.isIncremental, record.pr, record.owner, record.generation)

/-- Every owned record was there under the same lease. -/
def LeasesFrom (s s' : ReviewSchedulerState) : Prop :=
  ∀ record' ∈ s'.unfinished, record'.owner = none ∨
    ∃ record ∈ s.unfinished, record.lease = record'.lease

theorem LeasesFrom.refl (s : ReviewSchedulerState) : LeasesFrom s s := by
  intro record hmem
  exact .inr ⟨record, hmem, rfl⟩

theorem LeasesFrom.quiet {s₀ : ReviewSchedulerState} (h : LeasesFrom s₀ s) (hquiet : Quiet s s') :
    LeasesFrom s₀ s' := by
  intro record' hmem'
  obtain ⟨record, hmem, hrecord⟩ := Forall₂.exists_left hquiet.unfinished hmem'
  have hlease : record'.lease = record.lease := by
    unfold ScheduledReview.lease ScheduledReview.isIncremental ScheduledReview.pr
    rw [hrecord.request, hrecord.owner, hrecord.generation]
  rw [hrecord.owner, hlease]
  exact h record hmem

theorem LeasesFrom.replaced {s₀ : ReviewSchedulerState} (h : LeasesFrom s₀ s)
    {record record' : ScheduledReview} {unfinished : List ScheduledReview}
    {retiredChecks : List RetiredReviewCheck}
    (hrepl : Replaced s.unfinished unfinished record record')
    (hlease : record'.owner = none ∨ record'.lease = record.lease) :
    LeasesFrom s₀ { s with unfinished := unfinished, retiredChecks := retiredChecks } := by
  intro other hother
  rcases hrepl.mem_cases hother with rfl | hkept
  · rcases hlease with hnone | hsame
    · exact .inl hnone
    · rcases h record hrepl.mem_old with hfree | hfrom
      · left
        have howner := congrArg (fun lease => lease.2.2.2.1) hsame
        exact howner.trans hfree
      · rw [hsame]
        exact .inr hfrom
  · exact h other hkept

theorem RecordStep.lease {record record' : ScheduledReview} {detached : List RetiredReviewCheck}
    (hclaim : ∀ owner limit, e.operation ≠ .claimNextWithLimit owner limit)
    (h : RecordStep sha256 e record record' detached) :
    record'.owner = none ∨ record'.lease = record.lease := by
  cases h with
  | claim hop => exact absurd hop (hclaim _ _)
  | release | yieldTo => exact .inl rfl
  | rebind =>
    rw [ScheduledReview.bindCheck_eq]
    exact .inr rfl
  | resolve | renew | pay | bind | spend | conclude => exact .inr rfl

theorem JoinStep.lease_eq {request : ReviewRequest} {record record' : ScheduledReview}
    {detached : List RetiredReviewCheck} (h : JoinStep sha256 request record record' detached) :
    record'.owner = none ∨ record'.lease = record.lease := by
  cases h with
  | keep => exact .inr rfl
  | coalesce =>
    unfold ScheduledReview.coalesce
    dsimp only
    split_ifs with howned
    · exact .inr rfl
    all_goals
      rw [Bool.not_eq_true, Option.isSome_eq_false_iff, Option.isNone_iff_eq_none] at howned
      exact .inl howned

/-- Only a claim hands a record to an owner. -/
theorem perform_leasesFrom (hshape : Shape s)
    (hclaim : ∀ owner limit, e.operation ≠ .claimNextWithLimit owner limit) :
    LeasesFrom s (perform sha256 s e).1 := by
  apply hshape.preserves (LeasesFrom.refl s) fun hfrom hquiet => hfrom.quiet hquiet
  intro s₁ s₂ hshape₁ hfrom heffect
  cases heffect with
  | normalize => exact hfrom.quiet hshape₁.normalizeLegacyRecords
  | enqueue =>
    intro record hmem
    rcases List.mem_append.mp hmem with hold | hnew
    · exact hfrom record hold
    · rw [List.mem_singleton.mp hnew]
      exact .inl rfl
  | join _ _ hrepl _ hjoin => exact hfrom.replaced hrepl hjoin.lease_eq
  | record hrepl hrecord => exact hfrom.replaced hrepl (hrecord.lease hclaim)
  | settle record outcome =>
    intro other hother
    rw [ReviewSchedulerState.settleHead_unfinished] at hother
    exact hfrom other hother
  | complete _ hrem | decline _ hrem =>
    intro other hother
    exact hfrom other (hrem.sublist.subset hother)
  | prune | pruneHistory | rearm | moveBudget | openBudget | payBudget | acknowledge => exact hfrom

/-- The pull request of a budget and the head it is bound to. -/
def IncrementalHeadBudget.binding (budget : IncrementalHeadBudget) : (String × ℕ) × String :=
  (budget.pr, budget.headSha)

theorem headOf_eq_find? (pr : String × ℕ) : s.headOf pr =
    ((s.incrementalHeads.map IncrementalHeadBudget.binding).find?
      fun binding => binding.1 == pr).map Prod.snd := by
  unfold ReviewSchedulerState.headOf ReviewSchedulerState.budgetOf
  rw [List.find?_map, Option.map_map]
  have htest : (fun binding : (String × ℕ) × String => binding.1 == pr) ∘
      IncrementalHeadBudget.binding = fun budget => budget.isFor pr.1 pr.2 := by
    funext budget
    rw [Bool.eq_iff_iff, isFor_iff]
    simp [IncrementalHeadBudget.binding, IncrementalHeadBudget.pr, Prod.ext_iff]
  rw [htest]
  rfl

theorem headOf_congr {pr : String × ℕ}
    (h : s'.incrementalHeads.map IncrementalHeadBudget.binding =
      s.incrementalHeads.map IncrementalHeadBudget.binding) : s'.headOf pr = s.headOf pr := by
  rw [headOf_eq_find?, headOf_eq_find?, h]

theorem map_binding_updateFirst {p : IncrementalHeadBudget → Bool}
    {f : IncrementalHeadBudget → IncrementalHeadBudget}
    (hf : ∀ budget, (f budget).binding = budget.binding) (heads : List IncrementalHeadBudget) :
    (updateFirst p f heads).map IncrementalHeadBudget.binding =
      heads.map IncrementalHeadBudget.binding :=
  Forall₂.map_eq (forall₂_updateFirst (R := fun budget budget' =>
    budget'.binding = budget.binding) (fun _ => rfl) (fun budget _ => hf budget) heads)
    fun _ _ h => h

theorem settle_binding (outcome : TerminalOutcome) (budget : IncrementalHeadBudget) :
    (budget.settle outcome).binding = budget.binding := by
  unfold IncrementalHeadBudget.settle
  split_ifs <;> rfl

/-- Only a confirmation moves a pull request to another head. -/
theorem perform_headOf (hconfirm : ∀ owned headSha, ¬ e.operation.confirms owned headSha)
    (pr : String × ℕ) : (perform sha256 s e).1.headOf pr = s.headOf pr := by
  apply perform_preserves (I := fun s' => s'.headOf pr = s.headOf pr)
  · intro s₁ s₂ hs hquiet
    unfold ReviewSchedulerState.headOf ReviewSchedulerState.budgetOf at hs ⊢
    rw [hquiet.incrementalHeads]
    exact hs
  · intro s₁ s₂ hs heffect
    cases heffect with
    | moveBudget hop | openBudget hop => exact absurd hop (hconfirm _ _)
    | rearm request =>
      rw [← hs]
      exact headOf_congr (map_binding_updateFirst (f := IncrementalHeadBudget.rearm) (fun _ => rfl)
        s₁.incrementalHeads)
    | settle record outcome =>
      rw [← hs]
      unfold ReviewSchedulerState.settleHead
      split_ifs
      · exact headOf_congr (map_binding_updateFirst (settle_binding outcome) s₁.incrementalHeads)
      · rfl
    | payBudget paidAttempts ownershipRefunds hop hrepl =>
      rw [← hs]
      exact headOf_congr (hrepl.map_eq rfl)
    | normalize | enqueue | join | record | complete | decline | prune | pruneHistory
    | acknowledge => exact hs
  · rfl

section Confirmations

variable {owned : OwnedReview} {headSha : String} {nowMs : ℤ}

theorem ConfirmStep.headOf_self {c : ReviewSchedulerState} {record : ScheduledReview}
    (h : ConfirmStep s owned headSha nowMs (c, true))
    (hfind : s.unfinished.find? (ownsUnexpired owned nowMs) = some record)
    (hmode : record.request.mode = .incremental) : c.headOf record.pr = some headSha := by
  have heq : ∀ {other}, s.unfinished.find? (ownsUnexpired owned nowMs) = some other →
      other = record := fun hother => Option.some.inj (hother.symm.trans hfind)
  have hmoved : ∀ {current : IncrementalHeadBudget},
      s.budgetOf record.request.repo record.request.number = some current →
      ((s.pruneHistory nowMs).moveBudget current record.request.repo record.request.number headSha
        nowMs).headOf record.pr = some headSha := by
    intro current hbudget
    unfold ReviewSchedulerState.moveBudget
    dsimp only
    generalize historicalOutcome _ record.request.repo record.request.number headSha nowMs = result
    have hfound := find?_updateFirst_self
      (p := fun budget => budget.isFor record.request.repo record.request.number)
      (f := IncrementalHeadBudget.moveTo headSha result) (fun _ => rfl) s.incrementalHeads
    have hcurrent : s.incrementalHeads.find?
        (fun budget => budget.isFor record.request.repo record.request.number) = some current :=
      hbudget
    rw [hcurrent] at hfound
    exact congrArg (Option.map IncrementalHeadBudget.headSha) hfound
  cases h with
  | full hother hfull =>
    obtain rfl := heq hother
    exact absurd hmode hfull
  | held hother _ hbudget hsame =>
    obtain rfl := heq hother
    exact (congrArg (Option.map IncrementalHeadBudget.headSha) hbudget).trans (by rw [← hsame]; rfl)
  | opened hother _ hbudget =>
    obtain rfl := heq hother
    unfold ReviewSchedulerState.headOf ReviewSchedulerState.budgetOf ScheduledReview.pr
    unfold ReviewSchedulerState.budgetOf at hbudget
    dsimp only
    rw [List.find?_append, hbudget]
    simp [IncrementalHeadBudget.isFor]
  | moved hother _ hbudget | left hother _ hbudget =>
    obtain rfl := heq hother
    exact hmoved hbudget

/-- A confirmation that is refused binds nothing. -/
theorem ConfirmStep.headOf_of_refused {c : ReviewSchedulerState}
    (h : ConfirmStep s owned headSha nowMs (c, false)) (pr : String × ℕ) :
    c.headOf pr = s.headOf pr := by
  cases h <;> rfl

theorem ConfirmStep.headOf_of_ne {c : ReviewSchedulerState} {record : ScheduledReview}
    {pr : String × ℕ} (h : ConfirmStep s owned headSha nowMs (c, true))
    (hfind : s.unfinished.find? (ownsUnexpired owned nowMs) = some record)
    (hne : record.request.mode = .incremental → pr ≠ record.pr) : c.headOf pr = s.headOf pr :=
  congrArg (Option.map IncrementalHeadBudget.headSha) (h.budgetOf_of_ne hfind hne)

/-- Rebinding answers a live handle and leaves every budget alone. -/
theorem rebindCheck_confirmed (s : ReviewSchedulerState) :
    (s.rebindCheck sha256 owned headSha nowMs).2.confirmed =
        (s.unfinished.find? (ownsUnexpired owned nowMs)).isSome ∧
      ∀ pr, (s.rebindCheck sha256 owned headSha nowMs).1.headOf pr = s.headOf pr := by
  unfold ReviewSchedulerState.rebindCheck
  cases s.unfinished.find? (ownsUnexpired owned nowMs) with
  | none => exact ⟨rfl, fun _ => rfl⟩
  | some record =>
    dsimp only
    split_ifs <;> exact ⟨rfl, fun _ => rfl⟩

/-- What a confirming operation answers tells what it did to the budgets. -/
inductive ConfirmationOf (s : ReviewSchedulerState) (owned : OwnedReview) (headSha : String)
    (nowMs : ℤ) (s' : ReviewSchedulerState) : Option (OwnedReview × String) → Prop
  | refused (hheads : ∀ pr, s'.headOf pr = s.headOf pr) :
      ConfirmationOf s owned headSha nowMs s' none
  | confirmed {record} (hfind : s.unfinished.find? (ownsUnexpired owned nowMs) = some record)
      (hself : record.request.mode = .incremental → s'.headOf record.pr = some headSha)
      (hother : ∀ pr, (record.request.mode = .incremental → pr ≠ record.pr) →
        s'.headOf pr = s.headOf pr) :
      ConfirmationOf s owned headSha nowMs s' (some (owned, headSha))

theorem confirmHead_confirmation (s : ReviewSchedulerState) (owned : OwnedReview)
    (headSha : String) (nowMs : ℤ) :
    ConfirmationOf s owned headSha nowMs (s.confirmHead owned headSha nowMs).1
      (if (s.confirmHead owned headSha nowMs).2 then some (owned, headSha) else none) := by
  have hstep := confirmHead_step s owned headSha nowMs
  generalize s.confirmHead owned headSha nowMs = r at hstep ⊢
  obtain ⟨c, accepted⟩ := r
  cases accepted with
  | false => exact .refused hstep.headOf_of_refused
  | true =>
    obtain ⟨record, -, hfind, -⟩ := hstep.confirmed
    exact .confirmed hfind (hstep.headOf_self hfind) fun pr hne => hstep.headOf_of_ne hfind hne

theorem reconcileLiveCheck_confirmation (s : ReviewSchedulerState) (owned : OwnedReview)
    (headSha : String) (nowMs : ℤ) :
    ConfirmationOf s owned headSha nowMs (s.reconcileLiveCheck sha256 owned headSha nowMs).1
      (if (s.reconcileLiveCheck sha256 owned headSha nowMs).2.confirmed then some (owned, headSha)
        else none) := by
  cases hlive : s.unfinished.find? (ownsUnexpired owned nowMs) with
  | none =>
    simp only [ReviewSchedulerState.reconcileLiveCheck, hlive, ReconciledReviewCheck.confirmed]
    exact .refused fun _ => rfl
  | some record =>
    rw [reconcileLiveCheck_eq (by rw [hlive]; rfl)]
    have hconfirm := confirmHead_confirmation s owned headSha nowMs
    have hstep := confirmHead_step s owned headSha nowMs
    generalize s.confirmHead owned headSha nowMs = r at hconfirm hstep ⊢
    obtain ⟨c, accepted⟩ := r
    by_cases hdefers : capacityDefers s owned headSha nowMs = true
    · rw [if_pos hdefers]
      exact .refused fun _ => rfl
    rw [if_neg hdefers]
    cases accepted with
    | false => exact hconfirm
    | true =>
      have hrebound := @rebindCheck_confirmed sha256 owned headSha nowMs c
      obtain ⟨hanswer, hheads⟩ := hrebound
      have hstill := hstep.live
      dsimp only at hstill hconfirm ⊢
      rw [hlive] at hstill
      rw [if_pos rfl, hanswer, hstill, Option.isSome_some, if_pos rfl]
      rw [if_pos rfl] at hconfirm
      cases hconfirm with
      | confirmed hfind hself hother =>
        constructor
        · exact hfind
        · intro hmode
          rw [hheads]
          exact hself hmode
        · intro pr hne
          rw [hheads]
          exact hother pr hne

theorem perform_confirmation (hop : e.operation.confirms owned headSha) :
    ConfirmationOf s owned headSha e.nowMs (perform sha256 s e).1
      (e.confirmation (perform sha256 s e).2) := by
  rcases hop with hop | hop
  · have hconfirm := confirmHead_confirmation s owned headSha e.nowMs
    unfold perform Event.confirmation
    rw [hop]
    dsimp only
    cases haccepted : (s.confirmHead owned headSha e.nowMs).2 with
    | false =>
      rw [haccepted] at hconfirm
      exact hconfirm
    | true =>
      rw [haccepted] at hconfirm
      exact hconfirm
  · unfold perform Event.confirmation
    rw [hop]
    exact reconcileLiveCheck_confirmation s owned headSha e.nowMs

end Confirmations

/-- The pull request of an owned record is on the head its handle confirmed last. -/
def Stands (seen : ConfirmedHeads) (s : ReviewSchedulerState) : Prop :=
  ∀ record ∈ s.unfinished, record.request.mode = .incremental → ∀ owner,
    record.owner = some owner → ∀ headSha,
      seen ⟨record.request.id, owner, record.generation⟩ = some headSha →
        s.headOf record.pr = some headSha

theorem Stands.of_leases {seen : ConfirmedHeads} (h : Stands seen s) (hfrom : LeasesFrom s s')
    (hheads : ∀ pr, s'.headOf pr = s.headOf pr) : Stands seen s' := by
  intro record' hmem' hmode owner howner headSha hseen
  rw [hheads]
  rcases hfrom record' hmem' with hnone | ⟨record, hmem, hlease⟩
  · rw [hnone] at howner
    cases howner
  · simp only [ScheduledReview.lease, Prod.mk.injEq] at hlease
    obtain ⟨hid, hincremental, hpr, hsame, hgeneration⟩ := hlease
    rw [← hpr]
    apply h record hmem
    · exact isIncremental_iff.mp (hincremental.trans (isIncremental_iff.mpr hmode))
    · exact hsame.trans howner
    · rw [hid, hgeneration]
      exact hseen

/-- A claim starts a handle that has confirmed nothing. -/
theorem Stands.claim {seen : ConfirmedHeads} (h : Stands seen s) {owner : String} {limit : ℕ}
    (hop : e.operation = .claimNextWithLimit owner limit) :
    Stands (seen.note e (perform sha256 s e).2) (perform sha256 s e).1 := by
  have hconfirmation : ∀ reply, e.confirmation reply = none := by
    intro reply
    unfold Event.confirmation
    rw [hop]
  unfold perform ConfirmedHeads.note
  rw [hop]
  dsimp only
  unfold ReviewSchedulerState.claimNextWithLimit
  split_ifs with hfull
  · rw [hconfirmation]
    exact h
  cases hfind : s.unfinished.find? (isEligible s e.nowMs) with
  | none =>
    rw [hconfirmation]
    exact h
  | some record =>
    dsimp only
    have hrepl := updateFirst_replaced (ScheduledReview.claim owner e.nowMs) hfind
    intro other hother hmode who howner headSha hseen
    rcases hrepl.mem_cases hother with rfl | hkept
    · rw [ScheduledReview.claim_eq] at howner
      obtain rfl := Option.some.inj howner
      have hkey : OwnedReview.key
          { request := (record.claim owner e.nowMs).request
            acceptedIds := (record.claim owner e.nowMs).acceptedIds
            owner := owner
            generation := (record.claim owner e.nowMs).generation
            reviewCheck := (record.claim owner e.nowMs).headCheck } =
          ⟨(record.claim owner e.nowMs).request.id, owner,
            (record.claim owner e.nowMs).generation⟩ := rfl
      rw [← hkey, Function.update_self] at hseen
      cases hseen
    · apply h other hkept hmode who howner
      by_cases hkey : (⟨other.request.id, who, other.generation⟩ : HandleKey) = OwnedReview.key
          { request := (record.claim owner e.nowMs).request
            acceptedIds := (record.claim owner e.nowMs).acceptedIds
            owner := owner
            generation := (record.claim owner e.nowMs).generation
            reviewCheck := (record.claim owner e.nowMs).headCheck }
      · rw [hkey, Function.update_self] at hseen
        cases hseen
      · rwa [Function.update_of_ne hkey] at hseen

theorem note_of_not_claim {seen : ConfirmedHeads}
    (hclaim : ∀ owner limit, e.operation ≠ .claimNextWithLimit owner limit) :
    seen.note e (perform sha256 s e).2 =
      match e.confirmation (perform sha256 s e).2 with
      | some (owned, headSha) => Function.update seen owned.key (some headSha)
      | none => seen := by
  unfold ConfirmedHeads.note
  split
  · rename_i owned hreply
    obtain ⟨owner, limit, hop, -⟩ := perform_claimed hreply
    exact absurd hop (hclaim owner limit)
  · rfl

theorem Stands.confirm {seen : ConfirmedHeads} (hshape : Shape s) (h : Stands seen s)
    {owned : OwnedReview} {headSha : String} (hop : e.operation.confirms owned headSha) :
    Stands (seen.note e (perform sha256 s e).2) (perform sha256 s e).1 := by
  have hclaim : ∀ owner limit, e.operation ≠ .claimNextWithLimit owner limit := by
    intro owner limit hbad
    rcases hop with hop | hop <;> rw [hop] at hbad <;> cases hbad
  have hfrom : LeasesFrom s (perform sha256 s e).1 := perform_leasesFrom hshape hclaim
  have hconfirmation : ConfirmationOf s owned headSha e.nowMs (perform sha256 s e).1
      (e.confirmation (perform sha256 s e).2) := perform_confirmation hop
  rw [note_of_not_claim hclaim]
  generalize e.confirmation (perform sha256 s e).2 = confirmation at hconfirmation ⊢
  cases hconfirmation with
  | refused hheads => exact h.of_leases hfrom hheads
  | @confirmed found hfind hself hother =>
    dsimp only
    have hfound := List.mem_of_find?_eq_some hfind
    have howns := owns_iff.mp (ownsUnexpired_iff.mp (List.find?_some hfind)).1
    intro record' hmem' hmode owner howner head hseen
    rcases hfrom record' hmem' with hnone | ⟨record, hmem, hlease⟩
    · rw [hnone] at howner
      cases howner
    simp only [ScheduledReview.lease, Prod.mk.injEq] at hlease
    obtain ⟨hid, hincremental, hpr, hsame, hgeneration⟩ := hlease
    rw [isIncremental_iff.mpr hmode, isIncremental_iff] at hincremental
    rw [← hpr]
    by_cases heq : record = found
    · -- The confirming handle holds this record, so its key is the one just noted.
      subst heq
      have hkey : (⟨record'.request.id, owner, record'.generation⟩ : HandleKey) = owned.key := by
        have howned : owner = owned.owner := by
          rw [hsame, howner] at howns
          exact Option.some.inj howns.2.1
        unfold OwnedReview.key
        rw [← hid, ← hgeneration, howns.1, howns.2.2, howned]
      rw [hkey, Function.update_self] at hseen
      rw [← Option.some.inj hseen]
      exact hself hincremental
    · have hkey : (⟨record'.request.id, owner, record'.generation⟩ : HandleKey) ≠ owned.key := by
        intro hkey
        apply heq
        apply hshape.record_unique hmem hfound (hshape.records record hmem).accepted
        have hsameId : record'.request.id = owned.request.id := congrArg HandleKey.id hkey
        rw [hid, hsameId, ← howns.1]
        exact (hshape.records found hfound).accepted
      rw [Function.update_of_ne hkey] at hseen
      rw [hother]
      · apply h record hmem hincremental owner (hsame.trans howner)
        rw [hid, hgeneration]
        exact hseen
      · intro hfoundMode hsamePr
        exact heq (hshape.incremental_unique hmem hfound hincremental hfoundMode hsamePr)

theorem Stands.perform {seen : ConfirmedHeads} (hshape : Shape s) (h : Stands seen s)
    (sha256 : String → List UInt8) (e : Event) :
    Stands (seen.note e (perform sha256 s e).2) (perform sha256 s e).1 := by
  by_cases hclaim : ∃ owner limit, e.operation = .claimNextWithLimit owner limit
  · obtain ⟨owner, limit, hop⟩ := hclaim
    exact h.claim hop
  by_cases hconfirm : ∃ owned headSha, e.operation.confirms owned headSha
  · obtain ⟨owned, headSha, hop⟩ := hconfirm
    exact h.confirm hshape hop
  push Not at hclaim hconfirm
  have hnone : ∀ reply, e.confirmation reply = none := by
    intro reply
    unfold Event.confirmation
    split
    · rename_i owned headSha hop
      exact absurd (.inl hop) (hconfirm owned headSha)
    · rename_i owned headSha answer hop
      exact absurd (.inr hop) (hconfirm owned headSha)
    · rfl
  rw [note_of_not_claim hclaim, hnone]
  exact h.of_leases (perform_leasesFrom hshape hclaim) (perform_headOf hconfirm)

theorem Stands.run (sha256 : String → List UInt8) (t : ℤ) (events : List Event) :
    Stands (watched sha256 (.start t) events).seen
      (after sha256 (.start t) events).state := by
  rw [show Clocked.start t = (Watched.start t).clocked from rfl, ← watched_clocked]
  have hrun : Shape (watched sha256 (.start t) events).clocked.state ∧
      Stands (watched sha256 (.start t) events).seen
        (watched sha256 (.start t) events).clocked.state := by
    apply Runs.exec_invariant (I := fun w : Watched =>
      Shape w.clocked.state ∧ Stands w.seen w.clocked.state)
    · rintro w e ⟨hshape, hstands⟩
      exact ⟨hshape.perform sha256 e, hstands.perform hshape sha256 e⟩
    · constructor
      · exact Shape.empty
      · intro record hmem
        cases hmem
  exact hrun.2

/-- A budget gains a terminal outcome or its deadline flag. -/
def Marked (budget budget' : IncrementalHeadBudget) : Prop :=
  budget.terminalOutcome = none ∧ budget'.terminalOutcome.isSome = true ∨
    budget.deadlineHit = false ∧ budget'.deadlineHit = true

/-- The step marks the budget of the pull request. -/
def Marks (s s' : ReviewSchedulerState) (pr : String × ℕ) (budget : IncrementalHeadBudget) : Prop :=
  s.budgetOf pr.1 pr.2 = some budget ∧
    ∃ budget', s'.budgetOf pr.1 pr.2 = some budget' ∧ Marked budget budget'

theorem not_marked_self (budget : IncrementalHeadBudget) : ¬ Marked budget budget := by
  rintro (⟨hnone, hsome⟩ | ⟨hfalse, htrue⟩)
  · rw [hnone] at hsome
    cases hsome
  · rw [hfalse] at htrue
    cases htrue

/-- The handle is live and ends a review whose head has no result yet, with an outcome that
settles heads. -/
def settlesOpenHead (s : ReviewSchedulerState) (owned : OwnedReview) (outcome : TerminalOutcome)
    (nowMs : ℤ) : Bool :=
  (s.unfinished.find? (ownsUnexpired owned nowMs)).any fun record =>
    record.request.mode == .incremental && outcome.settlesHead &&
      (s.budgetOf record.request.repo record.request.number).any fun budget =>
        budget.existingTerminal.isNone

section Ends

variable {owned : OwnedReview} {outcome : TerminalOutcome} {nowMs completedAtMs : ℤ}
  {record : ScheduledReview}

theorem finishRecord_accepted (hfind : s.unfinished.find? (ownsUnexpired owned nowMs) = some record)
    (hyield : record.yieldRequested = false) :
    (s.finishRecord owned outcome nowMs completedAtMs).2 = true := by
  have hcurrent := find?_and hfind (q := fun record => !record.yieldRequested) (by simp [hyield])
  unfold ReviewSchedulerState.finishRecord
  simp only [hcurrent]

theorem finishWithYield_accepted
    (hfind : s.unfinished.find? (ownsUnexpired owned nowMs) = some record)
    (hbudget : (s.budgetOf record.request.repo record.request.number).isSome = true) :
    (s.finishWithYield owned outcome nowMs).2 = true := by
  have hpresent : ¬ (record.request.mode = .incremental ∧
      (s.budgetOf record.request.repo record.request.number).isNone = true) := by
    rintro ⟨-, hnone⟩
    rw [Option.isNone_iff_eq_none] at hnone
    rw [hnone] at hbudget
    cases hbudget
  unfold ReviewSchedulerState.finishWithYield
  simp only [hfind]
  rw [if_neg hpresent]
  cases hyield : record.yieldRequested with
  | true => rfl
  | false =>
    rw [if_neg Bool.false_ne_true]
    by_cases hdeadline : outcome = .deadline
    · rw [if_neg (not_not.mpr hdeadline)]
    · rw [if_pos hdeadline]
      apply finishRecord_accepted _ hyield
      rw [ReviewSchedulerState.settleHead_unfinished]
      exact hfind

theorem finish_accepted (hfind : s.unfinished.find? (ownsUnexpired owned nowMs) = some record)
    (hbudget : (s.budgetOf record.request.repo record.request.number).isSome = true) :
    (s.finish owned outcome nowMs completedAtMs).2 = true := by
  unfold ReviewSchedulerState.finish
  split_ifs with hany
  · exact finishWithYield_accepted hfind hbudget
  · apply finishRecord_accepted hfind
    by_contra hyield
    apply hany
    rw [List.any_eq_true]
    refine ⟨record, List.mem_of_find?_eq_some hfind, ?_⟩
    have howns := List.find?_some hfind
    rw [Bool.not_eq_false] at hyield
    simp [howns, hyield]

/-- A completing operation with a budget in front of it is accepted. -/
theorem perform_accepted (hop : e.operation.completion = some (owned, outcome))
    (hfind : s.unfinished.find? (ownsUnexpired owned e.nowMs) = some record)
    (hbudget : (s.budgetOf record.request.repo record.request.number).isSome = true) :
    (perform sha256 s e).2 = .accepted true := by
  unfold perform
  cases hcase : e.operation with
  | finish owned' outcome' completedAtMs =>
    simp only [hcase, Operation.completion, Option.some.injEq, Prod.mk.injEq] at hop
    obtain ⟨rfl, rfl⟩ := hop
    exact congrArg Reply.accepted (finish_accepted hfind hbudget)
  | finishWithYield owned' outcome' =>
    simp only [hcase, Operation.completion, Option.some.injEq, Prod.mk.injEq] at hop
    obtain ⟨rfl, rfl⟩ := hop
    exact congrArg Reply.accepted (finishWithYield_accepted hfind hbudget)
  | finishDeadline owned' =>
    simp only [hcase, Operation.completion, Option.some.injEq, Prod.mk.injEq] at hop
    obtain ⟨rfl, rfl⟩ := hop
    exact congrArg Reply.accepted (finishWithYield_accepted hfind hbudget)
  | _ => simp [hcase, Operation.completion] at hop

/-- An accepted completion settles the owner's pull request and no other budget. -/
theorem FinishStep.settled (h : FinishStep s owned outcome nowMs (s', true)) :
    ∃ record, s.unfinished.find? (ownsUnexpired owned nowMs) = some record ∧
      s'.incrementalHeads = (s.settleHead record outcome).incrementalHeads ∧
      s'.headHistory = s.headHistory := by
  have hhistory : ∀ (s : ReviewSchedulerState) (record : ScheduledReview),
      (s.settleHead record outcome).headHistory = s.headHistory := by
    intro s record
    rw [ReviewSchedulerState.settleHead_eq]
  cases h with
  | yielded hfind => exact ⟨_, hfind, rfl, hhistory s _⟩
  | @completed record p completedAtMs hfind =>
    refine ⟨record, hfind, ?_, hhistory _ record⟩
    unfold ReviewSchedulerState.settleHead
    split_ifs <;> rfl

theorem FinishStep.refused_eq (h : FinishStep s owned outcome nowMs (s', false)) : s' = s := by
  cases h
  rfl

theorem settle_marked {budget : IncrementalHeadBudget}
    (h : Marked budget (budget.settle outcome)) :
    budget.existingTerminal = none ∧ outcome.settlesHead = true := by
  cases hterminal : budget.existingTerminal with
  | some result =>
    rw [settle_of_terminal hterminal] at h
    exact absurd h (not_marked_self budget)
  | none =>
    refine ⟨rfl, ?_⟩
    by_contra hsettles
    have hopen := existingTerminal_settle hterminal outcome
    rw [if_neg hsettles] at hopen
    rw [existingTerminal_eq_none] at hopen
    rcases h with ⟨-, hsome⟩ | ⟨-, htrue⟩
    · rw [hopen.1] at hsome
      cases hsome
    · rw [hopen.2] at htrue
      cases htrue

/-- Exactly the completions that settle an open head leave a mark, on that head's budget. -/
theorem marks_iff (hop : e.operation.completion = some (owned, outcome)) {pr : String × ℕ}
    {budget : IncrementalHeadBudget} :
    Marks s (perform sha256 s e).1 pr budget ↔
      settlesOpenHead s owned outcome e.nowMs = true ∧
        ∃ record, s.unfinished.find? (ownsUnexpired owned e.nowMs) = some record ∧
          record.request.mode = .incremental ∧ pr = record.pr ∧
          s.budgetOf pr.1 pr.2 = some budget := by
  obtain ⟨accepted, hreply, hstep⟩ := @perform_finishStep sha256 e s owned outcome hop
  constructor
  · rintro ⟨hbefore, budget', hafter, hmark⟩
    cases accepted with
    | false =>
      rw [hstep.refused_eq, hbefore] at hafter
      cases hafter
      exact absurd hmark (not_marked_self budget)
    | true =>
      obtain ⟨record, hfind, hheads, -⟩ := hstep.settled
      have hsettled : (s.settleHead record outcome).budgetOf pr.1 pr.2 = some budget' := by
        rw [← hafter]
        unfold ReviewSchedulerState.budgetOf
        rw [hheads]
      have hmode : record.request.mode = .incremental := by
        by_contra hfull
        unfold ReviewSchedulerState.settleHead at hsettled
        rw [if_neg hfull, hbefore] at hsettled
        cases hsettled
        exact not_marked_self budget hmark
      have hpr : pr = record.pr := by
        by_contra hne
        unfold ReviewSchedulerState.settleHead at hsettled
        rw [if_pos hmode, budgetOf_updateBudget_of_ne
          (fun repo number budget => settle_isFor outcome repo number budget) hne,
          hbefore] at hsettled
        cases hsettled
        exact not_marked_self budget hmark
      subst hpr
      have hfound := budgetOf_settleHead (s := s) record outcome hmode
      have hbeforePr : s.budgetOf record.request.repo record.request.number = some budget := hbefore
      rw [hbeforePr] at hfound
      have hnew : budget' = budget.settle outcome :=
        Option.some.inj (hsettled.symm.trans hfound)
      rw [hnew] at hmark
      obtain ⟨hopen, hsettles⟩ := settle_marked hmark
      refine ⟨?_, record, hfind, hmode, rfl, hbefore⟩
      unfold settlesOpenHead
      simp [hfind, hmode, hsettles, hbeforePr, hopen]
  · rintro ⟨hsettles, record, hfind, hmode, rfl, hbefore⟩
    have hbeforePr : s.budgetOf record.request.repo record.request.number = some budget := hbefore
    have haccepted : (perform sha256 s e).2 = .accepted true :=
      perform_accepted hop hfind (by rw [hbeforePr]; rfl)
    rw [hreply] at haccepted
    obtain rfl := Reply.accepted.inj haccepted
    obtain ⟨record', hfind', hheads, -⟩ := hstep.settled
    obtain rfl : record = record' := Option.some.inj (hfind.symm.trans hfind')
    unfold settlesOpenHead at hsettles
    rw [hfind] at hsettles
    simp only [Option.any_some, hbeforePr, Bool.and_eq_true, Option.isNone_iff_eq_none] at hsettles
    obtain ⟨⟨-, houtcome⟩, hopen⟩ := hsettles
    refine ⟨hbefore, budget.settle outcome, ?_, ?_⟩
    · have hfound := budgetOf_settleHead (s := s) record outcome hmode
      rw [hbeforePr] at hfound
      unfold ReviewSchedulerState.budgetOf at hfound ⊢
      rw [hheads]
      exact hfound
    · left
      refine ⟨(existingTerminal_eq_none.mp hopen).1, ?_⟩
      unfold IncrementalHeadBudget.settle
      simp [hopen, houtcome]

end Ends

/-- After every run: a completing operation marks no head but the one its handle confirmed
last, exactly if the handle of a completion that settles an open head has confirmed any. -/
theorem terminal_marks_belong (sha256 : String → List UInt8) (t : ℤ) (before : List Event)
    (e : Event) :
    let s := (after sha256 (.start t) before).state
    let seen := (watched sha256 (.start t) before).seen
    (∀ owned outcome pr budget, e.operation.completion = some (owned, outcome) →
      Marks s (perform sha256 s e).1 pr budget → seen owned.key = some budget.headSha) ↔
    ∀ owned outcome, e.operation.completion = some (owned, outcome) →
      settlesOpenHead s owned outcome e.nowMs = true → (seen owned.key).isSome = true := by
  intro s seen
  have hstands : Stands seen s := Stands.run sha256 t before
  constructor
  · intro hmarks owned outcome hop hsettles
    have hopen := hsettles
    unfold settlesOpenHead at hopen
    obtain ⟨record, hfind, hopen⟩ := (Option.any_eq_true ..).mp hopen
    simp only [Bool.and_eq_true, beq_iff_eq] at hopen
    obtain ⟨⟨hmode, -⟩, hbudget⟩ := hopen
    obtain ⟨budget, hbudget, -⟩ := (Option.any_eq_true ..).mp hbudget
    have hmark : Marks s (perform sha256 s e).1 record.pr budget :=
      (marks_iff hop).mpr ⟨hsettles, record, hfind, hmode, rfl, hbudget⟩
    rw [hmarks owned outcome record.pr budget hop hmark]
    rfl
  · intro hconfirmed owned outcome pr budget hop hmark
    obtain ⟨hsettles, record, hfind, hmode, rfl, hbudget⟩ := (marks_iff hop).mp hmark
    obtain ⟨headSha, hseen⟩ := Option.isSome_iff_exists.mp (hconfirmed owned outcome hop hsettles)
    -- The live handle's record stands on the head it confirmed, which is the budget's.
    have howns := owns_iff.mp (ownsUnexpired_iff.mp (List.find?_some hfind)).1
    have hhead := hstands record (List.mem_of_find?_eq_some hfind) hmode owned.owner howns.2.1
      headSha (by rw [howns.1, howns.2.2]; exact hseen)
    unfold ReviewSchedulerState.headOf at hhead
    rw [hbudget, Option.map_some] at hhead
    rw [hseen, ← hhead]

/-- A worker that confirmed head A defers; the next one declines before it confirms any. -/
def declinedUnconfirmed : List Event :=
  ownedReview (push "a" "A") ++
    [⟨5, .confirmHead (sampleHandle (push "a" "A") "w1" 1) "A"⟩,
      ⟨6, .defer (sampleHandle (push "a" "A") "w1" 1) 6⟩, ⟨7, .claimNextWithLimit "w2" 4⟩]

def declineAt8 : Event := ⟨8, .finish (sampleHandle (push "a" "A") "w2" 2) .declined 8⟩

theorem unconfirmed_owner_marks_head :
    let w := watched sampleSha256 (.start 0) declinedUnconfirmed
    (w.clocked.state.headOf ("owner/repo", 7) = some "A" ∧
      (w.clocked.state.budgetOf "owner/repo" 7).map (fun budget => budget.terminalOutcome) =
        some none) ∧
      ((perform sampleSha256 w.clocked.state declineAt8).1.budgetOf "owner/repo" 7).map
        (fun budget => budget.terminalOutcome) = some (some .declined) ∧
      w.seen (sampleHandle (push "a" "A") "w2" 2).key = none := by
  decide +kernel

end TinySweeper.ReviewJob
