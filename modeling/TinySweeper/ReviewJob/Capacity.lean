import TinySweeper.ReviewJob.Confirmation

/-!
# Reserved capacity

`reserved_capacity` is a sum of weights of records and of kept entries, plus one slot for
every pending pull request without a budget. Each operation is measured against that sum in
any journal, reachable or not; only admission and the minting of a check can raise it.
-/

namespace TinySweeper.ReviewJob

open FirstMatch

variable {sha256 : String → List UInt8} {e : Event} {s s' : ReviewSchedulerState}
variable {record : ScheduledReview} {owned : OwnedReview} {headSha : String}

/-- What one unfinished record contributes to the reserved capacity. -/
def ScheduledReview.weight (record : ScheduledReview) : ℕ :=
  max record.acceptedIds.length 1 + record.reviewChecks.length
    + (if record.statusReconcileReserved then 1 else 0)
    + if record.request.mode = .incremental then
        record.headHistoryReservations.getD (max record.acceptedIds.length 1)
      else 0

/-- Pending pull requests whose first budget is still to come. -/
def ReviewSchedulerState.unbudgeted (s : ReviewSchedulerState) : ℕ :=
  s.pendingPrs.countP fun pr => !s.hasBudget pr

theorem sum_weight (records : List ScheduledReview) :
    (records.map ScheduledReview.weight).sum =
      (records.map fun record => max record.acceptedIds.length 1).sum
        + (records.map fun record => record.reviewChecks.length).sum
        + records.countP (fun record => record.statusReconcileReserved)
        + (records.map fun record =>
            if record.request.mode = .incremental then
              record.headHistoryReservations.getD (max record.acceptedIds.length 1)
            else 0).sum := by
  induction records with
  | nil => rfl
  | cons record records ih =>
    simp only [List.map_cons, List.sum_cons, List.countP_cons, ih, ScheduledReview.weight]
    omega

theorem reservedCapacity_eq (s : ReviewSchedulerState) : s.reservedCapacity =
    s.terminal.length + s.retiredChecks.length + s.incrementalHeads.length
      + s.headHistory.length + (s.unfinished.map ScheduledReview.weight).sum + s.unbudgeted := by
  rw [sum_weight]
  unfold ReviewSchedulerState.reservedCapacity ReviewSchedulerState.unbudgeted
  omega

theorem hasBudget_iff (s : ReviewSchedulerState) (pr : String × ℕ) :
    s.hasBudget pr = true ↔ pr ∈ s.incrementalHeads.map IncrementalHeadBudget.pr := by
  obtain ⟨repo, number⟩ := pr
  simp [ReviewSchedulerState.hasBudget, IncrementalHeadBudget.isFor, IncrementalHeadBudget.pr]

theorem mem_pendingPrs {pr : String × ℕ} : pr ∈ s.pendingPrs ↔
    ∃ record ∈ s.unfinished, record.request.mode = .incremental ∧ record.pr = pr := by
  simp [ReviewSchedulerState.pendingPrs, ScheduledReview.pr, and_assoc]

theorem nodup_pendingPrs (s : ReviewSchedulerState) : s.pendingPrs.Nodup :=
  List.nodup_dedup _

/-- Fewer pending pull requests under the same budgets. -/
theorem unbudgeted_le (hsub : s'.pendingPrs ⊆ s.pendingPrs)
    (hheads : s'.incrementalHeads.map IncrementalHeadBudget.pr =
      s.incrementalHeads.map IncrementalHeadBudget.pr) : s'.unbudgeted ≤ s.unbudgeted := by
  have hsame : ∀ pr, s'.hasBudget pr = s.hasBudget pr := by
    intro pr
    rw [Bool.eq_iff_iff, hasBudget_iff, hasBudget_iff, hheads]
  simp only [ReviewSchedulerState.unbudgeted, hsame]
  exact ((nodup_pendingPrs s').subperm hsub).countP_le _

theorem unbudgeted_eq (s s' : ReviewSchedulerState)
    (hrecords : s'.unfinished.map (fun record => (record.isIncremental, record.pr)) =
      s.unfinished.map fun record => (record.isIncremental, record.pr))
    (hheads : s'.incrementalHeads.map IncrementalHeadBudget.pr =
      s.incrementalHeads.map IncrementalHeadBudget.pr) : s'.unbudgeted = s.unbudgeted := by
  have hsub : ∀ {a b : ReviewSchedulerState},
      a.unfinished.map (fun record => (record.isIncremental, record.pr)) =
        b.unfinished.map (fun record => (record.isIncremental, record.pr)) →
      a.pendingPrs ⊆ b.pendingPrs := by
    intro a b hsame pr hpr
    obtain ⟨record, hmem, hmode, rfl⟩ := mem_pendingPrs.mp hpr
    have hkey := List.mem_map_of_mem
      (f := fun record : ScheduledReview => (record.isIncremental, record.pr)) hmem
    rw [hsame] at hkey
    obtain ⟨other, hother, heq⟩ := List.mem_map.mp hkey
    obtain ⟨hincremental, hprs⟩ := Prod.mk.inj heq
    rw [isIncremental_iff.mpr hmode] at hincremental
    exact mem_pendingPrs.mpr ⟨other, hother, isIncremental_iff.mp hincremental, hprs⟩
  exact le_antisymm (unbudgeted_le (hsub hrecords) hheads)
    (unbudgeted_le (hsub hrecords.symm) hheads.symm)

/-- The first budget of a pending pull request takes the slot promised for it. -/
theorem unbudgeted_open {budget : IncrementalHeadBudget} (s' : ReviewSchedulerState)
    (hmem : record ∈ s.unfinished) (hmode : record.request.mode = .incremental)
    (hnone : s.budgetOf record.request.repo record.request.number = none)
    (hrecords : s'.unfinished.map (fun record => (record.isIncremental, record.pr)) =
      s.unfinished.map fun record => (record.isIncremental, record.pr))
    (hbudget : budget.pr = record.pr)
    (hheads : s'.incrementalHeads = s.incrementalHeads ++ [budget]) :
    s'.unbudgeted + 1 = s.unbudgeted := by
  have hpending : record.pr ∈ s.pendingPrs := mem_pendingPrs.mpr ⟨record, hmem, hmode, rfl⟩
  have hfree : s.hasBudget record.pr = false := by
    rw [← Bool.not_eq_true, hasBudget_iff]
    exact budgetOf_eq_none_iff.mp hnone
  have hlist : s'.unbudgeted = s.pendingPrs.countP fun pr => !s'.hasBudget pr := by
    have hsame := unbudgeted_eq { s with incrementalHeads := s'.incrementalHeads } s' hrecords
      rfl
    exact hsame
  have hperm := List.perm_cons_erase hpending
  have hrest : ∀ pr ∈ s.pendingPrs.erase record.pr, s'.hasBudget pr = s.hasBudget pr := by
    intro pr hpr
    have hne : pr ≠ record.pr := fun heq =>
      (nodup_pendingPrs s).not_mem_erase (heq ▸ hpr)
    rw [Bool.eq_iff_iff, hasBudget_iff, hasBudget_iff, hheads]
    simp [hbudget, hne]
  have hnew : s'.hasBudget record.pr = true := by
    rw [hasBudget_iff, hheads]
    simp [hbudget]
  rw [hlist, ReviewSchedulerState.unbudgeted, hperm.countP_eq, hperm.countP_eq, List.countP_cons,
    List.countP_cons, hnew, hfree,
    List.countP_congr fun pr hpr => by rw [hrest pr hpr]]
  simp

/-- A detached check that is neither kept nor retired. -/
def isDropped (keepHead preserve : Option String) (check : ReviewCheckRecord) : Bool :=
  some check.headSha != keepHead && (some check.headSha == preserve || !check.isOpen)

/-- Detaching keeps, retires or drops each check. -/
theorem detach_length (record : ScheduledReview) (keepHead preserve : Option String) :
    (detachChecksExceptPreserving record keepHead preserve).1.reviewChecks.length
        + (detachChecksExceptPreserving record keepHead preserve).2.length
        + record.reviewChecks.countP (isDropped keepHead preserve) =
      record.reviewChecks.length := by
  simp only [detachChecksExceptPreserving, ← List.countP_eq_length_filter,
    List.length_filterMap_eq_countP]
  apply countP_trichotomy
  intro check
  unfold retireDetached isDropped ReviewCheckRecord.isOpen
  by_cases hkeep : some check.headSha = keepHead
  · simp [hkeep]
  have hother : (some check.headSha == keepHead) = false := by simpa using hkeep
  rw [if_neg hkeep, hother, bne, hother]
  by_cases hpreserve : some check.headSha = preserve
  · simp [hpreserve]
  have hfree : (some check.headSha == preserve) = false := by simpa using hpreserve
  rw [if_neg hpreserve, hfree]
  cases check.reachedForge <;> cases check.stage <;> rfl

/-- An edit of the checks alone. -/
theorem weight_of_checks (record record' : ScheduledReview)
    (hmode : record'.request.mode = record.request.mode)
    (hids : record'.acceptedIds = record.acceptedIds)
    (hhistory : record'.headHistoryReservations = record.headHistoryReservations)
    (hflag : record'.statusReconcileReserved = record.statusReconcileReserved) :
    record'.weight + record.reviewChecks.length = record.weight + record'.reviewChecks.length := by
  simp only [ScheduledReview.weight, hmode, hids, hhistory, hflag]
  omega

theorem weight_detach (record : ScheduledReview) (keepHead preserve : Option String) :
    (detachChecksExceptPreserving record keepHead preserve).1.weight
        + (detachChecksExceptPreserving record keepHead preserve).2.length
        + record.reviewChecks.countP (isDropped keepHead preserve) = record.weight := by
  have hchecks := detach_length record keepHead preserve
  have hweight := weight_of_checks record
    (detachChecksExceptPreserving record keepHead preserve).1 rfl rfl rfl rfl
  omega

theorem weight_claim (owner : String) (nowMs : ℤ) (record : ScheduledReview) :
    (record.claim owner nowMs).weight = record.weight := by
  have hlength : (record.claim owner nowMs).reviewChecks.length = record.reviewChecks.length := by
    unfold ScheduledReview.claim ScheduledReview.updateHeadCheck
    split
    · rfl
    · exact length_updateFirst _ _ _
  rw [ScheduledReview.claim_eq] at hlength ⊢
  have hweight := weight_of_checks record { record with
    generation := record.generation + 1
    owner := some owner
    ownerUntilMs := nowMs + reviewOwnerTtlMs
    reviewChecks := (record.claim owner nowMs).reviewChecks } rfl rfl rfl rfl
  omega

theorem weight_normalizeLegacy (record : ScheduledReview) :
    record.normalizeLegacy.weight = record.weight := by
  unfold ScheduledReview.normalizeLegacy ScheduledReview.weight
  dsimp only
  cases hids : record.acceptedIds <;> cases hhistory : record.headHistoryReservations <;>
    by_cases hmode : record.request.mode = .incremental <;> simp [hmode]

/-- Replacing a record and retiring what it detached. -/
theorem reservedCapacity_replaced {record' : ScheduledReview} {unfinished : List ScheduledReview}
    (detached : List RetiredReviewCheck) (hrepl : Replaced s.unfinished unfinished record record')
    (hmode : record'.isIncremental = record.isIncremental) (hpr : record'.pr = record.pr) :
    ({ s with unfinished := unfinished, retiredChecks := s.retiredChecks ++ detached } :
        ReviewSchedulerState).reservedCapacity + record.weight =
      s.reservedCapacity + record'.weight + detached.length := by
  have hsum := hrepl.sum_map ScheduledReview.weight
  have hkeys := hrepl.map_eq (g := fun record => (record.isIncremental, record.pr))
    (by rw [hmode, hpr])
  have hpending := unbudgeted_eq s { s with
    unfinished := unfinished, retiredChecks := s.retiredChecks ++ detached } hkeys rfl
  rw [reservedCapacity_eq, reservedCapacity_eq, hpending, List.length_append]
  dsimp only
  omega

/-- Operations of a record that neither queue checks nor confirm heads. -/
theorem RecordStep.weight_le (hmint : e.operation.mints = false)
    (hconfirm : ∀ owned headSha, ¬ e.operation.confirms owned headSha) {record' : ScheduledReview}
    {detached : List RetiredReviewCheck} (h : RecordStep sha256 e record record' detached) :
    record'.weight + detached.length ≤ record.weight := by
  cases h with
  | resolve hop | conclude hop | rebind hop => simp [hop, Operation.mints] at hmint
  | bind hop | spend hop => exact absurd hop (hconfirm _ _)
  | claim => rw [weight_claim, List.length_nil, Nat.add_zero]
  | renew | pay | release => exact le_refl _
  | @yieldTo owned notBeforeMs preserve =>
    have hdetach := weight_detach
      { (record.release notBeforeMs).withHead record.latestHeadHint with yieldRequested := false }
      record.latestHeadHint preserve
    have hsame : ({ (record.release notBeforeMs).withHead record.latestHeadHint with
        yieldRequested := false } : ScheduledReview).weight = record.weight := rfl
    unfold ScheduledReview.yieldTo
    omega

theorem normalizeLegacy_pr (record : ScheduledReview) :
    (record.normalizeLegacy.isIncremental, record.normalizeLegacy.pr) =
      (record.isIncremental, record.pr) :=
  rfl

theorem reservedCapacity_normalizeLegacyRecords (s : ReviewSchedulerState) :
    s.normalizeLegacyRecords.reservedCapacity = s.reservedCapacity := by
  have hpending : s.normalizeLegacyRecords.unbudgeted = s.unbudgeted := by
    refine unbudgeted_eq _ _ ?_ rfl
    simp only [ReviewSchedulerState.normalizeLegacyRecords, List.map_map, Function.comp_def,
      normalizeLegacy_pr]
  rw [reservedCapacity_eq, reservedCapacity_eq, hpending]
  simp only [ReviewSchedulerState.normalizeLegacyRecords, List.map_map, Function.comp_def,
    weight_normalizeLegacy]

theorem reservedCapacity_quiet (h : Quiet s s') : s'.reservedCapacity = s.reservedCapacity := by
  have hkeys : s'.unfinished.map (fun record => (record.isIncremental, record.pr)) =
      s.unfinished.map fun record => (record.isIncremental, record.pr) :=
    Forall₂.map_eq h.unfinished fun record record' hq => by
      simp only [ScheduledReview.isIncremental, ScheduledReview.pr, hq.request]
  have hweights : s'.unfinished.map ScheduledReview.weight =
      s.unfinished.map ScheduledReview.weight :=
    Forall₂.map_eq h.unfinished fun record record' hq => by
      have hweight := weight_of_checks record record' (by rw [hq.request]) hq.acceptedIds
        hq.headHistoryReservations hq.statusReconcileReserved
      have hlength := hq.reviewChecks.length_eq
      omega
  have hpending := unbudgeted_eq s s' hkeys (by rw [h.incrementalHeads])
  have hretired := h.retiredChecks.length_eq
  rw [reservedCapacity_eq, reservedCapacity_eq, hpending, hweights, h.terminal,
    h.incrementalHeads, h.headHistory, hretired]

/-- Completion trades a record for its tombstones and the checks that still need a status. -/
theorem reservedCapacity_removed {unfinished : List ScheduledReview}
    {retiredChecks : List RetiredReviewCheck} (outcome : TerminalOutcome) (expiresAtMs : ℤ)
    (hrem : Removed s.unfinished unfinished record)
    (hretired : retiredChecks.length ≤ s.retiredChecks.length + record.reviewChecks.length) :
    ({ s with
        unfinished := unfinished
        retiredChecks := retiredChecks
        terminal := s.terminal ++ tombstones record.acceptedIds outcome expiresAtMs } :
      ReviewSchedulerState).reservedCapacity ≤ s.reservedCapacity := by
  have hsum := hrem.sum_map ScheduledReview.weight
  have hpending : ({ s with
      unfinished := unfinished
      retiredChecks := retiredChecks
      terminal := s.terminal ++ tombstones record.acceptedIds outcome expiresAtMs } :
      ReviewSchedulerState).unbudgeted ≤ s.unbudgeted := by
    refine unbudgeted_le ?_ rfl
    intro pr hpr
    obtain ⟨other, hmem, hother⟩ := mem_pendingPrs.mp hpr
    exact mem_pendingPrs.mpr ⟨other, hrem.sublist.subset hmem, hother⟩
  have hweight : record.acceptedIds.length + record.reviewChecks.length ≤ record.weight := by
    unfold ScheduledReview.weight
    omega
  have htombs : (tombstones record.acceptedIds outcome expiresAtMs).length =
      record.acceptedIds.length := List.length_map _
  rw [reservedCapacity_eq, reservedCapacity_eq, List.length_append]
  dsimp only
  omega

theorem foldl_retireCheck_length (record : ScheduledReview) (checks : List ReviewCheckRecord)
    (retired : List RetiredReviewCheck) :
    (checks.foldl (retireCheck record) retired).length ≤ retired.length + checks.length := by
  induction checks generalizing retired with
  | nil => exact le_refl _
  | cons check checks ih =>
    have hrest := ih (retireCheck record retired check)
    have hone : (retireCheck record retired check).length ≤ retired.length + 1 := by
      unfold retireCheck
      split_ifs <;> simp
    rw [List.foldl_cons, List.length_cons]
    omega

theorem reservedCapacity_pruneHistory (s : ReviewSchedulerState) (nowMs : ℤ) :
    (s.pruneHistory nowMs).reservedCapacity
        + s.headHistory.countP (fun entry => decide (entry.expiresAtMs ≤ nowMs)) =
      s.reservedCapacity := by
  have hparts := List.length_eq_countP_add_countP
    (fun entry : HeadTerminalTombstone => decide (entry.expiresAtMs > nowMs)) (l := s.headHistory)
  have hrest : s.headHistory.countP (fun entry => decide (¬ decide (entry.expiresAtMs > nowMs) = true)) =
      s.headHistory.countP fun entry => decide (entry.expiresAtMs ≤ nowMs) :=
    List.countP_congr fun entry _ => by simp
  have hpending : (s.pruneHistory nowMs).unbudgeted = s.unbudgeted := rfl
  rw [reservedCapacity_eq, reservedCapacity_eq, hpending]
  simp only [ReviewSchedulerState.pruneHistory, ← List.countP_eq_length_filter]
  omega

theorem reservedCapacity_heads {heads : List IncrementalHeadBudget}
    (h : heads.map IncrementalHeadBudget.pr = s.incrementalHeads.map IncrementalHeadBudget.pr) :
    ({ s with incrementalHeads := heads } : ReviewSchedulerState).reservedCapacity =
      s.reservedCapacity := by
  have hpending := unbudgeted_eq s { s with incrementalHeads := heads } rfl h
  have hlength := congrArg List.length h
  rw [List.length_map, List.length_map] at hlength
  rw [reservedCapacity_eq, reservedCapacity_eq, hpending]
  dsimp only
  omega

theorem Effect.reservedCapacity_le (hmint : e.operation.mints = false)
    (hconfirm : ∀ owned headSha, ¬ e.operation.confirms owned headSha)
    (h : Effect sha256 e s s') : s'.reservedCapacity ≤ s.reservedCapacity := by
  cases h with
  | normalize => exact (reservedCapacity_normalizeLegacyRecords s).le
  | prune hop | rearm _ hop | enqueue hop | join hop => simp [hop, Operation.mints] at hmint
  | pruneHistory => exact Nat.le.intro (reservedCapacity_pruneHistory s e.nowMs)
  | @record record record' unfinished detached hrepl hstep =>
    have hreplaced := reservedCapacity_replaced detached hrepl hstep.pr.1 hstep.pr.2
    have hweight := hstep.weight_le hmint hconfirm
    omega
  | moveBudget hop | openBudget hop => exact absurd hop (hconfirm _ _)
  | payBudget _ _ _ hrepl =>
    exact (reservedCapacity_heads (hrepl.map_eq (g := IncrementalHeadBudget.pr) rfl)).le
  | settle record outcome =>
    rw [s.settleHead_eq]
    exact (reservedCapacity_heads (settleHead_budgets record outcome)).le
  | @complete record _ outcome expiresAtMs _ hrem =>
    apply reservedCapacity_removed outcome expiresAtMs hrem
    have hfold := foldl_retireCheck_length record
      (record.reviewChecks.filter (needsRetirement record outcome)) s.retiredChecks
    exact hfold.trans (Nat.add_le_add_left (List.length_filter_le _ _) _)
  | decline hop => simp [hop, Operation.mints] at hmint
  | @acknowledge entry retiredChecks _ _ hrem =>
    have hlength := hrem.length
    have hpending : ({ s with retiredChecks := retiredChecks } :
      ReviewSchedulerState).unbudgeted = s.unbudgeted := rfl
    rw [reservedCapacity_eq, reservedCapacity_eq, hpending]
    dsimp only
    omega

/-- Operations that neither queue checks nor confirm heads never raise the sum. -/
theorem reservedCapacity_perform_le (hmint : e.operation.mints = false)
    (hconfirm : ∀ owned headSha, ¬ e.operation.confirms owned headSha) :
    (perform sha256 s e).1.reservedCapacity ≤ s.reservedCapacity :=
  perform_preserves (I := fun s' => s'.reservedCapacity ≤ s.reservedCapacity)
    (fun h hquiet => (reservedCapacity_quiet hquiet).le.trans h)
    (fun h heffect => (heffect.reservedCapacity_le hmint hconfirm).trans h) le_rfl

/-- Expired history a confirmation of this handle sweeps out. -/
def sweptHistory (s : ReviewSchedulerState) (owned : OwnedReview) (nowMs : ℤ) : ℕ :=
  if (s.unfinished.find? (ownsUnexpired owned nowMs)).any ScheduledReview.isIncremental then
    s.headHistory.countP fun entry => decide (entry.expiresAtMs ≤ nowMs)
  else 0

theorem reservedCapacity_edit {nowMs : ℤ} {f : ScheduledReview → ScheduledReview}
    (hfind : s.unfinished.find? (ownsUnexpired owned nowMs) = some record)
    (hmode : (f record).isIncremental = record.isIncremental) (hpr : (f record).pr = record.pr) :
    (s.updateOwned owned nowMs f).reservedCapacity + record.weight =
      s.reservedCapacity + (f record).weight := by
  have hreplaced := reservedCapacity_replaced [] (updateFirst_replaced f hfind) hmode hpr
  rw [List.append_nil, List.length_nil, Nat.add_zero] at hreplaced
  exact hreplaced

/-- The first budget of a pending pull request takes the slot promised for it. -/
theorem reservedCapacity_open (budget : IncrementalHeadBudget) (hmem : record ∈ s.unfinished)
    (hmode : record.request.mode = .incremental)
    (hnone : s.budgetOf record.request.repo record.request.number = none)
    (hbudget : budget.pr = record.pr) :
    ({ s with incrementalHeads := s.incrementalHeads ++ [budget] } :
      ReviewSchedulerState).reservedCapacity = s.reservedCapacity := by
  have hpending := unbudgeted_open { s with
    incrementalHeads := s.incrementalHeads ++ [budget] } hmem hmode hnone rfl hbudget rfl
  rw [reservedCapacity_eq, reservedCapacity_eq, List.length_append, List.length_singleton]
  dsimp only at hpending ⊢
  omega

/-- A terminal head goes to history when the budget leaves it. -/
theorem reservedCapacity_moveBudget (current : IncrementalHeadBudget) (repo headSha : String)
    (number : ℕ) (nowMs : ℤ) :
    (s.moveBudget current repo number headSha nowMs).reservedCapacity =
      s.reservedCapacity + if current.existingTerminal = none then 0 else 1 := by
  unfold ReviewSchedulerState.moveBudget
  dsimp only
  generalize historicalOutcome _ repo number headSha nowMs = historical
  have hheads := reservedCapacity_heads (s := s) (map_pr_updateFirst
    (p := fun budget => budget.isFor repo number)
    (f := IncrementalHeadBudget.moveTo headSha historical) (fun _ => rfl) s.incrementalHeads)
  by_cases hopen : current.existingTerminal = none
  · have hleave : ¬ (current.terminalOutcome.isSome = true ∨ current.deadlineHit = true) := by
      rwa [← existingTerminal_ne_none, ne_eq, not_not]
    rw [if_neg hleave, if_pos hopen, Nat.add_zero, ← hheads]
    rfl
  · rw [if_pos (existingTerminal_ne_none.mp hopen), if_neg hopen, ← hheads]
    rw [reservedCapacity_eq, reservedCapacity_eq]
    have hpending : ({ s.updateBudget repo number (IncrementalHeadBudget.moveTo headSha historical)
        with headHistory := s.headHistory ++ [current.farewell nowMs] } :
        ReviewSchedulerState).unbudgeted =
      (s.updateBudget repo number (IncrementalHeadBudget.moveTo headSha historical)).unbudgeted :=
      rfl
    rw [hpending, List.length_append, List.length_singleton]
    unfold ReviewSchedulerState.updateBudget
    dsimp only
    omega

theorem weight_spendReservation (hmode : record.request.mode = .incremental)
    (hreserved : 0 < record.reserved) : record.spendReservation.weight + 1 = record.weight := by
  unfold ScheduledReview.reserved at hreserved
  unfold ScheduledReview.spendReservation ScheduledReview.weight
  cases hhistory : record.headHistoryReservations with
  | none => simp [hhistory] at hreserved
  | some reservations =>
    simp only [hhistory, Option.getD_some, hmode, if_true] at hreserved ⊢
    omega

/-- A confirmation trades one kind of promise for another and sweeps expired history. -/
theorem ConfirmStep.reservedCapacity_eq {nowMs : ℤ} {r : ReviewSchedulerState × Bool}
    (h : ConfirmStep s owned headSha nowMs r) :
    r.1.reservedCapacity + sweptHistory s owned nowMs = s.reservedCapacity := by
  have hswept : ∀ {record}, s.unfinished.find? (ownsUnexpired owned nowMs) = some record →
      record.request.mode = .incremental → (s.pruneHistory nowMs).reservedCapacity
        + sweptHistory s owned nowMs = s.reservedCapacity := by
    intro record hfind hmode
    rw [sweptHistory, hfind, Option.any_some, isIncremental_iff.mpr hmode, if_pos rfl]
    exact reservedCapacity_pruneHistory s nowMs
  cases h with
  | lost hfind => simp [sweptHistory, hfind]
  | full hfind hmode => simp [sweptHistory, hfind, ScheduledReview.isIncremental, hmode]
  | @held record current hfind hmode =>
    have hedit := reservedCapacity_edit (s := s.pruneHistory nowMs)
      (f := ScheduledReview.withHead (some headSha)) hfind rfl rfl
    have hweight : (record.withHead (some headSha)).weight = record.weight := rfl
    have hsum := hswept hfind hmode
    dsimp only
    omega
  | @opened record hfind hmode hbudget =>
    have hedit := reservedCapacity_edit (s := s.pruneHistory nowMs)
      (f := ScheduledReview.withHead (some headSha)) hfind rfl rfl
    have hweight : (record.withHead (some headSha)).weight = record.weight := rfl
    have hsum := hswept hfind hmode
    have hopen := reservedCapacity_open (s := (s.pruneHistory nowMs).updateOwned owned nowMs
        (ScheduledReview.withHead (some headSha)))
      { repo := record.request.repo
        number := record.request.number
        headSha := headSha
        paidAttempts := record.paidAttempts
        ownershipRefunds := 0
        epoch := 0
        deadlineHit := false
        terminalOutcome := none }
      (updateFirst_replaced (ScheduledReview.withHead (some headSha)) hfind).mem_new hmode hbudget
      rfl
    refine (congrArg (· + sweptHistory s owned nowMs) hopen).trans ?_
    omega
  | @moved record current hfind hmode hbudget hne hopen =>
    have hmove := reservedCapacity_moveBudget (s := s.pruneHistory nowMs) current
      record.request.repo headSha record.request.number nowMs
    have hedit := reservedCapacity_edit (s := (s.pruneHistory nowMs).moveBudget current
        record.request.repo record.request.number headSha nowMs)
      (f := ScheduledReview.withHead (some headSha)) hfind rfl rfl
    have hweight : (record.withHead (some headSha)).weight = record.weight := rfl
    have hsum := hswept hfind hmode
    rw [if_pos hopen] at hmove
    dsimp only
    omega
  | @left record current hfind hmode hbudget hne hterminal hreserved =>
    have hmove := reservedCapacity_moveBudget (s := s.pruneHistory nowMs) current
      record.request.repo headSha record.request.number nowMs
    have hedit := reservedCapacity_edit (s := (s.pruneHistory nowMs).moveBudget current
        record.request.repo record.request.number headSha nowMs)
      (f := fun record => record.spendReservation.withHead (some headSha)) hfind rfl rfl
    have hweight : (record.spendReservation.withHead (some headSha)).weight + 1 =
        record.weight := weight_spendReservation hmode hreserved
    have hsum := hswept hfind hmode
    rw [if_neg hterminal] at hmove
    dsimp only
    omega
  | refused hfind hmode => exact hswept hfind hmode

theorem weight_bindCheck (sha256 : String → List UInt8) (headSha : String) (generation : ℕ)
    (record : ScheduledReview) :
    (record.bindCheck sha256 headSha generation).1.weight +
        (if record.reviewChecks.any (fun check => check.headSha == headSha) = false ∧
          record.statusReconcileReserved = true then 1 else 0) =
      record.weight +
        if record.reviewChecks.any (fun check => check.headSha == headSha) then 0 else 1 := by
  unfold ScheduledReview.bindCheck
  rw [← List.isSome_find?]
  cases record.reviewChecks.find? (fun check => check.headSha == headSha) with
  | none =>
    cases hflag : record.statusReconcileReserved <;> simp [ScheduledReview.weight, hflag] <;> omega
  | some check =>
    have hlength := length_updateFirst (fun check : ReviewCheckRecord => check.headSha == headSha)
      (fun check => { check with ownerGeneration := some generation }) record.reviewChecks
    have hweight := weight_of_checks record (record.updateCheck
      (fun check => check.headSha == headSha)
      fun check => { check with ownerGeneration := some generation }) rfl rfl rfl rfl
    simp only [ScheduledReview.updateCheck] at hweight
    simp only [Option.isSome_some, ScheduledReview.updateCheck, Bool.true_eq_false, false_and,
      if_false, if_true]
    omega

/-- The record of a confirmed handle, with its detached checks retired and its share replaced. -/
theorem reservedCapacity_rebound {nowMs : ℤ} {c : ReviewSchedulerState} {bound : ScheduledReview}
    (final : ScheduledReview) (detached : List RetiredReviewCheck)
    (hconfirm : ConfirmStep s owned headSha nowMs (c, true))
    (hfound : (c.unfinished.find? (ownsUnexpired owned nowMs)).map
      (ScheduledReview.withHead (some headSha)) = some bound)
    (hmode : final.isIncremental = bound.isIncremental) (hpr : final.pr = bound.pr) :
    ({ c with
        unfinished := updateFirst (ownsUnexpired owned nowMs) (fun _ => final) s.unfinished
        retiredChecks := s.retiredChecks ++ detached } : ReviewSchedulerState).reservedCapacity
        + bound.weight + sweptHistory s owned nowMs =
      s.reservedCapacity + final.weight + detached.length := by
  obtain ⟨found, hfind, rfl⟩ := Option.map_eq_some_iff.mp hfound
  obtain ⟨-, -, -, -, -, hover, -, hretired⟩ := hconfirm.confirmed
  have hreplaced := reservedCapacity_replaced detached
    (updateFirst_replaced (fun _ => final) hfind) hmode hpr
  have hweight : (found.withHead (some headSha)).weight = found.weight := rfl
  have hsum := hconfirm.reservedCapacity_eq
  rw [hover, hretired] at hreplaced
  dsimp only at hsum
  omega

theorem not_mintsLiveCheck_of_known {nowMs : ℤ} {c : ReviewSchedulerState} {bound : ScheduledReview}
    (hconfirm : ConfirmStep s owned headSha nowMs (c, true))
    (hfind : s.unfinished.find? (ownsUnexpired owned nowMs) = some record)
    (hbound : bound = { record.withHead (some headSha) with
      headHistoryReservations := bound.headHistoryReservations })
    (hterminal : headIsKnownTerminal c.incrementalHeads c.headHistory bound.request nowMs = true) :
    mintsLiveCheck s owned record headSha nowMs = false := by
  have hknown : knownTerminalAt s record headSha nowMs = true := by
    rw [← hconfirm.knownTerminalAt_eq hfind]
    rw [hbound] at hterminal
    exact hterminal
  simp [mintsLiveCheck, hknown]

theorem ConfirmStep.refusal {nowMs : ℤ} {c : ReviewSchedulerState}
    (h : ConfirmStep s owned headSha nowMs (c, false))
    (hfind : s.unfinished.find? (ownsUnexpired owned nowMs) = some record) :
    bindingRefused s record headSha = true := by
  cases h with
  | lost hother => simp [hfind] at hother
  | refused hother hmode hbudget hne hterminal hspent =>
    obtain rfl := Option.some.inj (hother.symm.trans hfind)
    simp [bindingRefused, hmode, hspent, hbudget, hne, Option.isSome_iff_ne_none, hterminal]

/-- The checks a reconciliation drops without a conclusion. -/
def droppedChecks (record : ScheduledReview) (headSha : String) : ℕ :=
  record.reviewChecks.countP (isDropped (some headSha) none)

/-- A reconciliation grows the sum by the check it queues, unless a slot was promised for it. -/
theorem ReconcileStep.reservedCapacity {nowMs : ℤ}
    {r : ReviewSchedulerState × ReconciledReviewCheck}
    (h : ReconcileStep sha256 s owned headSha nowMs r)
    (hfind : s.unfinished.find? (ownsUnexpired owned nowMs) = some record) :
    if mintsLiveCheck s owned record headSha nowMs = true ∧ record.statusReconcileReserved = false
    then r.1.reservedCapacity + droppedChecks record headSha + sweptHistory s owned nowMs =
      s.reservedCapacity + 1
    else r.1.reservedCapacity ≤ s.reservedCapacity := by
  cases h with
  | lost hnone => simp [hfind] at hnone
  | deferred hdefers => simp [mintsLiveCheck, hdefers]
  | @refused c hconfirm =>
    have hsum := hconfirm.reservedCapacity_eq
    simp only [mintsLiveCheck, hconfirm.refusal hfind, Bool.not_true, Bool.and_false,
      Bool.false_and, Bool.false_eq_true, false_and, if_false]
    dsimp only at hsum
    omega
  | @concluded c other bound hroom hconfirm hother hbound hfound hterminal =>
    obtain rfl := Option.some.inj (hother.symm.trans hfind)
    have hsum := reservedCapacity_rebound (detachChecksExcept bound (some headSha)).1
      (detachChecksExcept bound (some headSha)).2 hconfirm hfound rfl rfl
    have hdetach := weight_detach bound (some headSha) none
    rw [not_mintsLiveCheck_of_known hconfirm hfind hbound hterminal, if_neg (by simp)]
    dsimp only [detachChecksExcept] at hsum ⊢
    omega
  | @rebound c other bound reply hroom hconfirm hother hbound hfound hopen =>
    obtain rfl := Option.some.inj (hother.symm.trans hfind)
    obtain ⟨kept, hkept⟩ : ∃ kept, kept = (detachChecksExcept bound (some headSha)).1 := ⟨_, rfl⟩
    have hany : kept.reviewChecks.any (fun check => check.headSha == headSha) =
        other.reviewChecks.any fun check => check.headSha == headSha := by
      rw [hkept, any_detachChecksExcept, hbound]
      rfl
    have hflag : kept.statusReconcileReserved = other.statusReconcileReserved := by
      rw [hkept, hbound]
      rfl
    have hdropped : bound.reviewChecks.countP (isDropped (some headSha) none) =
        droppedChecks other headSha := by
      rw [hbound]
      rfl
    have hdetach := weight_detach bound (some headSha) none
    have hbind := weight_bindCheck sha256 headSha owned.generation kept
    have hpr : (kept.bindCheck sha256 headSha owned.generation).1.isIncremental =
          bound.isIncremental ∧
        (kept.bindCheck sha256 headSha owned.generation).1.pr = bound.pr := by
      rw [ScheduledReview.bindCheck_eq, hkept]
      exact ⟨rfl, rfl⟩
    have hsum := reservedCapacity_rebound (kept.bindCheck sha256 headSha owned.generation).1
      (detachChecksExcept bound (some headSha)).2 hconfirm hfound hpr.1 hpr.2
    rw [hany, hflag, hkept] at hbind
    rw [hdropped] at hdetach
    rw [hkept] at hsum
    change _ + (detachChecksExcept bound (some headSha)).2.length + _ = _ at hdetach
    change (detachChecksExcept bound (some headSha)).1.weight + _ + _ = _ at hdetach
    cases hcheck : other.reviewChecks.any fun check => check.headSha == headSha with
    | true =>
      have hkeeps : mintsLiveCheck s owned other headSha nowMs = false := by
        simp [mintsLiveCheck, hcheck]
      rw [hkeeps, if_neg (by simp)]
      simp only [hcheck, Bool.true_eq_false, false_and, if_false, if_true] at hbind
      dsimp only
      omega
    | false =>
      rw [mintsLiveCheck_of_rebound hroom hconfirm hfind hbound hopen hcheck]
      simp only [hcheck, true_and, Bool.false_eq_true, if_false] at hbind ⊢
      cases hslot : other.statusReconcileReserved with
      | true =>
        simp only [hslot, Bool.true_eq_false, if_false, if_true] at hbind ⊢
        omega
      | false =>
        simp only [hslot, Bool.false_eq_true, if_false, if_true] at hbind ⊢
        omega

theorem weight_resolveHead (sha256 : String → List UInt8) (headSha : String)
    (job : ScheduledReview) : (job.resolveHead sha256 headSha).weight =
      job.weight + if job.reviewChecks.any (fun check => check.headSha == headSha) then 0 else 1 := by
  have hweight := weight_of_checks job (job.resolveHead sha256 headSha) rfl rfl rfl rfl
  have hlength : (job.resolveHead sha256 headSha).reviewChecks.length = job.reviewChecks.length +
      if job.reviewChecks.any (fun check => check.headSha == headSha) then 0 else 1 := by
    unfold ScheduledReview.resolveHead
    dsimp only
    split_ifs
    · rfl
    · rw [List.length_append, List.length_singleton]
  omega

/-- The resolution queues a check for the head it learned. -/
def mintsResolvedCheck (s : ReviewSchedulerState) (pending : PendingReviewMetadata)
    (headSha : String) (isOpen draft : Bool) (nowMs : ℤ) : Bool :=
  isOpen && !draft && (s.unfinished.find? (holdsMetadataClaim pending nowMs)).any fun job =>
    !job.reviewChecks.any fun check => check.headSha == headSha

/-- A resolution grows the sum by the check it queues; a headless record was promised none. -/
theorem reservedCapacity_resolve (sha256 : String → List UInt8) (s : ReviewSchedulerState)
    (pending : PendingReviewMetadata) (headSha : String) (isOpen draft : Bool) (nowMs : ℤ) :
    if mintsResolvedCheck s pending headSha isOpen draft nowMs then
      (s.resolvePendingMetadata sha256 pending headSha isOpen draft nowMs).1.reservedCapacity =
        s.reservedCapacity + 1
    else (s.resolvePendingMetadata sha256 pending headSha isOpen draft nowMs).1.reservedCapacity ≤
      s.reservedCapacity := by
  unfold ReviewSchedulerState.resolvePendingMetadata mintsResolvedCheck
  cases hfind : s.unfinished.find? (holdsMetadataClaim pending nowMs) with
  | none => simp
  | some job =>
    dsimp only
    by_cases hclosed : (!isOpen || draft) = true
    · have hnone : (isOpen && !draft) = false := by
        cases isOpen <;> cases draft <;> simp_all
      rw [if_pos hclosed, hnone, Bool.false_and, if_neg Bool.false_ne_true]
      exact reservedCapacity_removed .declined _ (eraseP_removed hfind) (Nat.le_add_right _ _)
    have hopen : (isOpen && !draft) = true := by
      cases isOpen <;> cases draft <;> simp_all
    have hreplaced := reservedCapacity_replaced (s := s) [] (updateFirst_replaced
      (ScheduledReview.resolveHead sha256 headSha) hfind) rfl rfl
    have hweight := weight_resolveHead sha256 headSha job
    rw [List.append_nil, List.length_nil, Nat.add_zero] at hreplaced
    rw [if_neg hclosed, hopen, Bool.true_and, Option.any_some]
    cases hcheck : job.reviewChecks.any fun check => check.headSha == headSha with
    | true =>
      rw [hcheck, if_pos rfl] at hweight
      simp only [Bool.not_true, Bool.false_eq_true, if_false]
      omega
    | false =>
      rw [hcheck, if_neg Bool.false_ne_true] at hweight
      simp only [Bool.not_false, if_true]
      omega

end TinySweeper.ReviewJob
