import Mathlib.Logic.Function.Basic
import TinySweeper.ReviewJob.Capacity

/-!
# The ledger of a batch

An account keeps what one pull request's deliveries are charged by: its unfinished work, its
budget and its failed history. Charging a batch to the accounts is the measure of what
admission makes `reserved_capacity` count; the admission test counts something else.
-/

namespace TinySweeper.ReviewJob

open FirstMatch

variable {request : ReviewRequest} {record : ScheduledReview}

/-- What admission sees of a pull request's unfinished record: the checks by head, and
whether GitHub may still show them. -/
structure OpenWork where
  owned : Bool
  head : Option String
  slot : Bool
  checks : List (String × Bool)
  deriving DecidableEq, Repr

structure PrAccount where
  work : Option OpenWork
  budgeted : Bool
  failed : ℕ
  deriving DecidableEq, Repr

namespace OpenWork

def fresh (head : Option String) : OpenWork :=
  ⟨false, head, true, (head.map fun head => (head, false)).toList⟩

/-- A headless delivery to work that has a head is merely noted. -/
def notes (head : Option String) (work : OpenWork) : Bool := head.isNone && work.head.isSome

def queued (head : Option String) (work : OpenWork) : List (String × Bool) :=
  match head with
  | none => work.checks
  | some head =>
    if work.checks.any fun check => check.1 == head then work.checks
    else work.checks ++ [(head, false)]

/-- Unowned work moves to the delivery's head and gives up the checks of other heads. -/
def moves (head : Option String) (work : OpenWork) : Bool := !work.owned && work.head != head

def deliver (head : Option String) (work : OpenWork) : OpenWork :=
  if work.notes head then work
  else
    { owned := work.owned
      head := if work.owned then work.head else head
      slot := true
      checks :=
        if work.moves head then (work.queued head).filter fun check => some check.1 == head
        else work.queued head }

/-- Checks given up that GitHub never showed; the others stay behind in `retired_checks`. -/
def dropped (head : Option String) (work : OpenWork) : ℕ :=
  if work.moves head then (work.queued head).countP fun check => some check.1 != head && !check.2
  else 0

/-- One accepted id, and unless it is merely noted one reservation, slot and check. -/
def charge (head : Option String) (work : OpenWork) : ℤ :=
  if work.notes head then 1
  else 2 + (if work.slot then 0 else 1) + (work.queued head).length - work.checks.length
    - work.dropped head

end OpenWork

namespace PrAccount

def rearm (account : PrAccount) : PrAccount := { account with failed := 0 }

def place (head : Option String) (account : PrAccount) : PrAccount :=
  { account with work := some ((account.work.map (OpenWork.deliver head)).getD (.fresh head)) }

/-- New work takes an id, a slot, a reservation, its check and its first budget. -/
def charge (head : Option String) (account : PrAccount) : ℤ :=
  match account.work with
  | some work => work.charge head
  | none => 3 + (if head.isSome then 1 else 0) + if account.budgeted then 0 else 1

end PrAccount

/-- The accounts of all pull requests. -/
abbrev Ledger := String × ℕ → PrAccount

namespace Ledger

/-- An explicit re-request clears the failed history of its pull request. -/
def rearm (ledger : Ledger) (request : ReviewRequest) : Ledger :=
  if request.isExplicitRerequest then
    Function.update ledger (request.repo, request.number)
      (ledger (request.repo, request.number)).rearm
  else ledger

/-- A full review has a record of its own and no account. -/
def place (ledger : Ledger) (request : ReviewRequest) : Ledger :=
  if request.mode = .incremental then
    Function.update ledger (request.repo, request.number)
      ((ledger (request.repo, request.number)).place request.headSha)
  else ledger

def cleared (ledger : Ledger) (request : ReviewRequest) : ℕ :=
  if request.isExplicitRerequest then (ledger (request.repo, request.number)).failed else 0

def placed (ledger : Ledger) (request : ReviewRequest) : ℤ :=
  if request.mode = .incremental then
    (ledger (request.repo, request.number)).charge request.headSha
  else 2 + if request.headSha.isSome then 1 else 0

/-- What a batch is charged in total. -/
def charge : Ledger → List ReviewRequest → ℤ
  | _, [] => 0
  | ledger, request :: requests =>
    (ledger.rearm request).placed request - ledger.cleared request
      + ((ledger.rearm request).place request).charge requests

end Ledger

def ScheduledReview.openWork (record : ScheduledReview) : OpenWork where
  owned := record.owner.isSome
  head := record.request.headSha
  slot := record.statusReconcileReserved
  checks := record.reviewChecks.map fun check => (check.headSha, check.isOpen)

/-- The history an explicit re-request clears. -/
def HeadTerminalTombstone.failedFor (repo : String) (number : ℕ)
    (entry : HeadTerminalTombstone) : Bool :=
  entry.repo == repo && entry.number == number && entry.outcome.failed

def ReviewSchedulerState.ledger (s : ReviewSchedulerState) : Ledger := fun pr =>
  { work := (s.unfinished.find? (isIncrementalOf pr.1 pr.2)).map ScheduledReview.openWork
    budgeted := s.hasBudget pr
    failed := s.headHistory.countP (HeadTerminalTombstone.failedFor pr.1 pr.2) }

/-- The fields `normalize_legacy_records` fills in. -/
def Normalized (s : ReviewSchedulerState) : Prop :=
  ∀ record ∈ s.unfinished, record.acceptedIds ≠ [] ∧
    (record.request.mode = .incremental → record.headHistoryReservations.isSome = true)

variable {sha256 : String → List UInt8} {s : ReviewSchedulerState}

theorem Normalized.prepared (s : ReviewSchedulerState) (nowMs : ℤ) :
    Normalized (s.prepared nowMs) := by
  intro record hmem
  obtain ⟨old, -, rfl⟩ := List.mem_map.mp hmem
  unfold ScheduledReview.normalizeLegacy
  dsimp only
  constructor
  · split_ifs with hempty
    · exact List.cons_ne_nil _ _
    · simpa using hempty
  · intro hmode
    have hold : old.request.mode = .incremental := hmode
    cases old.headHistoryReservations <;> simp [hold]

theorem openWork_notes : record.openWork.notes request.headSha = keepsAcceptedHead request record :=
  rfl

theorem openWork_queued (sha256 : String → List UInt8) (request : ReviewRequest)
    (record : ScheduledReview) :
    (record.acceptDelivery sha256 request).openWork.checks =
      record.openWork.queued request.headSha := by
  unfold ScheduledReview.acceptDelivery ScheduledReview.openWork OpenWork.queued
  cases request.headSha with
  | none => rfl
  | some head =>
    simp only [List.any_map, Function.comp_def]
    split_ifs
    · rfl
    · rw [List.map_append]
      rfl

/-- Moving unowned work detaches the checks the account gives up. -/
theorem openWork_detach (record : ScheduledReview) (head : Option String) :
    (detachChecksExcept record head).1.openWork.checks =
      record.openWork.checks.filter fun check => some check.1 == head := by
  simp [detachChecksExcept, detachChecksExceptPreserving, ScheduledReview.openWork,
    List.filter_map, Function.comp_def]

theorem openWork_deliver (hkeep : keepsAcceptedHead request record = false) :
    (record.coalesce sha256 request).1.openWork = record.openWork.deliver request.headSha := by
  have hqueued := openWork_queued sha256 request record
  have hdetach := openWork_detach (record.acceptDelivery sha256 request) request.headSha
  unfold OpenWork.deliver
  rw [openWork_notes, hkeep, if_neg Bool.false_ne_true, ← hqueued]
  unfold ScheduledReview.coalesce OpenWork.moves
  dsimp only
  cases howner : record.owner with
  | some owner =>
    simp only [Option.isSome_some, if_true, ScheduledReview.openWork, howner, Bool.not_true,
      Bool.false_and, Bool.false_eq_true, if_false]
    simp only [ScheduledReview.acceptDelivery, ScheduledReview.acceptId, howner, Option.isSome_some]
  | none =>
    by_cases hhead : record.request.headSha = request.headSha
    · simp only [Option.isSome_none, Bool.false_eq_true, if_false, ne_eq, hhead, not_true_eq_false,
        ScheduledReview.openWork, howner, bne_self_eq_false, Bool.and_false]
      simp only [ScheduledReview.acceptDelivery, ScheduledReview.acceptId, howner,
        Option.isSome_none]
    · have hmoves : (record.request.headSha != request.headSha) = true := by simpa using hhead
      rw [← hdetach]
      simp only [Option.isSome_none, Bool.false_eq_true, if_false, ne_eq, hhead,
        not_false_eq_true, if_true, ScheduledReview.openWork, howner, hmoves, Bool.not_false,
        Bool.and_self]
      simp only [detachChecksExcept, detachChecksExceptPreserving, ScheduledReview.acceptDelivery,
        ScheduledReview.acceptId, howner, Option.isSome_none]

/-- The weight of a delivery's id, reservation, slot and check. -/
theorem weight_acceptDelivery (sha256 : String → List UInt8) (request : ReviewRequest)
    (hmode : record.request.mode = .incremental) (hids : record.acceptedIds ≠ [])
    (hhistory : record.headHistoryReservations.isSome = true) :
    ((record.acceptDelivery sha256 request).weight : ℤ) =
      record.weight + 2 + (if record.statusReconcileReserved then 0 else 1)
        + (record.openWork.queued request.headSha).length - record.openWork.checks.length := by
  have hqueued := congrArg List.length (openWork_queued sha256 request record)
  obtain ⟨reservations, hsome⟩ := Option.isSome_iff_exists.mp hhistory
  have hlength := List.length_pos_iff.mpr hids
  simp only [ScheduledReview.openWork, List.length_map] at hqueued ⊢
  rw [← hqueued]
  have hweight : (record.acceptDelivery sha256 request).weight =
      max (record.acceptedIds.length + 1) 1 + (record.acceptDelivery sha256 request).reviewChecks.length
        + 1 + (reservations + 1) := by
    simp [ScheduledReview.weight, ScheduledReview.acceptDelivery, ScheduledReview.acceptId, hmode,
      hsome]
  have hold : record.weight = max record.acceptedIds.length 1 + record.reviewChecks.length
      + (if record.statusReconcileReserved then 1 else 0) + reservations := by
    simp [ScheduledReview.weight, hmode, hsome]
  cases hslot : record.statusReconcileReserved <;> simp only [hslot, Bool.false_eq_true, if_false,
    if_true] at hold ⊢ <;> omega

theorem countP_isDropped (sha256 : String → List UInt8) (request : ReviewRequest)
    (record : ScheduledReview) :
    (record.acceptDelivery sha256 request).reviewChecks.countP (isDropped request.headSha none) =
      (record.openWork.queued request.headSha).countP fun check =>
        some check.1 != request.headSha && !check.2 := by
  rw [← openWork_queued sha256, ScheduledReview.openWork, List.countP_map]
  apply List.countP_congr
  intro check _
  simp [isDropped]

/-- A coalesced delivery is charged to the account of its work. -/
theorem weight_coalesce (sha256 : String → List UInt8) (hrequest : request.mode = .incremental)
    (hmode : record.request.mode = .incremental) (hids : record.acceptedIds ≠ [])
    (hhistory : record.headHistoryReservations.isSome = true)
    (hkeep : keepsAcceptedHead request record = false) :
    ((record.coalesce sha256 request).1.weight : ℤ) + (record.coalesce sha256 request).2.length =
      record.weight + record.openWork.charge request.headSha := by
  have haccept := weight_acceptDelivery sha256 request hmode hids hhistory
  have hdropped := countP_isDropped sha256 request record
  have hdetach := weight_detach (record.acceptDelivery sha256 request) request.headSha none
  have hsame : ∀ accepted : ScheduledReview, accepted.request.mode = .incremental →
      ({ accepted with request := request } : ScheduledReview).weight = accepted.weight := by
    intro accepted haccepted
    have hweight := weight_of_checks accepted { accepted with request := request }
      (hrequest.trans haccepted.symm) rfl rfl rfl
    dsimp only at hweight
    omega
  unfold OpenWork.charge OpenWork.dropped OpenWork.moves
  rw [openWork_notes, hkeep, if_neg Bool.false_ne_true]
  have hslot : record.openWork.slot = record.statusReconcileReserved := rfl
  rw [hslot]
  unfold ScheduledReview.coalesce
  dsimp only
  cases howner : record.owner with
  | some owner =>
    have howned : record.openWork.owned = true := by simp [ScheduledReview.openWork, howner]
    simp only [howned, Option.isSome_some, Bool.not_true, Bool.false_and, Bool.false_eq_true,
      if_true, if_false, List.length_nil]
    change ((record.acceptDelivery sha256 request).weight : ℤ) + _ = _
    omega
  | none =>
    have howned : record.openWork.owned = false := by simp [ScheduledReview.openWork, howner]
    have hhead : record.openWork.head = record.request.headSha := rfl
    simp only [howned, hhead, Option.isSome_none, Bool.not_false, Bool.true_and, Bool.false_eq_true,
      if_false]
    by_cases hmoved : record.request.headSha = request.headSha
    · have hrest := hsame (record.acceptDelivery sha256 request) hmode
      simp only [hmoved, ne_eq, not_true_eq_false, if_false, bne_self_eq_false,
        Bool.false_eq_true, List.length_nil]
      omega
    · have hrest := hsame (detachChecksExcept (record.acceptDelivery sha256 request)
        request.headSha).1 hmode
      have hmoves : (record.request.headSha != request.headSha) = true := by simpa using hmoved
      simp only [hmoved, hmoves, ne_eq, not_false_eq_true, if_true]
      rw [hdropped] at hdetach
      simp only [detachChecksExcept] at hrest ⊢
      omega

theorem isIncrementalOf_coalesce (hrequest : request.mode = .incremental) {repo : String}
    {number : ℕ} (htarget : isIncrementalOf request.repo request.number record = true) :
    isIncrementalOf repo number (record.coalesce sha256 request).1 =
      isIncrementalOf repo number record := by
  obtain ⟨hmode, hrepo, hnumber⟩ := isIncrementalOf_iff.mp htarget
  unfold ScheduledReview.coalesce
  dsimp only
  split_ifs
  · rfl
  all_goals
    simp [isIncrementalOf, hrequest, hmode, hrepo, hnumber]

/-- Looking up work after an edit of one pull request's record. -/
theorem ledger_work_edit {f : ScheduledReview → ScheduledReview}
    (hf : ∀ record, isIncrementalOf request.repo request.number record = true →
      ∀ repo number, isIncrementalOf repo number (f record) = isIncrementalOf repo number record)
    (pr : String × ℕ) :
    (updateFirst (isIncrementalOf request.repo request.number) f s.unfinished).find?
        (isIncrementalOf pr.1 pr.2) =
      if pr = (request.repo, request.number) then
        (s.unfinished.find? (isIncrementalOf pr.1 pr.2)).map f
      else s.unfinished.find? (isIncrementalOf pr.1 pr.2) := by
  split_ifs with hpr
  · subst hpr
    exact find?_updateFirst_target (fun record hp => (hf record hp _ _).trans hp) _
  · apply find?_updateFirst_other
    intro record hp
    have hother : isIncrementalOf pr.1 pr.2 record = false := by
      rw [← Bool.not_eq_true, isIncrementalOf_iff]
      obtain ⟨-, hrepo, hnumber⟩ := isIncrementalOf_iff.mp hp
      rintro ⟨-, hrepo', hnumber'⟩
      exact hpr (Prod.ext (hrepo'.symm.trans hrepo) (hnumber'.symm.trans hnumber))
    exact ⟨hother, (hf record hp _ _).trans hother⟩

theorem hasBudget_congr {s' : ReviewSchedulerState}
    (h : s'.incrementalHeads.map IncrementalHeadBudget.pr =
      s.incrementalHeads.map IncrementalHeadBudget.pr) (pr : String × ℕ) :
    s'.hasBudget pr = s.hasBudget pr := by
  rw [Bool.eq_iff_iff, hasBudget_iff, hasBudget_iff, h]

theorem rearmFailedHead_budgets (s : ReviewSchedulerState) (repo : String) (number : ℕ) :
    (s.rearmFailedHead repo number).incrementalHeads.map IncrementalHeadBudget.pr =
      s.incrementalHeads.map IncrementalHeadBudget.pr :=
  map_pr_updateFirst (f := IncrementalHeadBudget.rearm) (fun _ => rfl) s.incrementalHeads

theorem ledger_rearmFailedHead (s : ReviewSchedulerState) (repo : String) (number : ℕ) :
    (s.rearmFailedHead repo number).ledger =
      Function.update s.ledger (repo, number) (s.ledger (repo, number)).rearm := by
  funext pr
  have hbudget := hasBudget_congr (rearmFailedHead_budgets s repo number) pr
  have hfailed : (s.rearmFailedHead repo number).headHistory.countP
      (HeadTerminalTombstone.failedFor pr.1 pr.2) =
        if pr = (repo, number) then 0
        else s.headHistory.countP (HeadTerminalTombstone.failedFor pr.1 pr.2) := by
    change (s.headHistory.filter fun entry => !entry.failedFor repo number).countP _ = _
    rw [List.countP_filter]
    split_ifs with hpr
    · subst hpr
      simp
    · apply List.countP_congr
      intro entry _
      by_cases hfor : entry.failedFor pr.1 pr.2 = true
      · have hother : entry.failedFor repo number = false := by
          rw [← Bool.not_eq_true]
          intro hbad
          simp only [HeadTerminalTombstone.failedFor, Bool.and_eq_true, beq_iff_eq] at hfor hbad
          exact hpr (Prod.ext (hfor.1.1.symm.trans hbad.1.1) (hfor.1.2.symm.trans hbad.1.2))
        simp [hfor, hother]
      · simp [hfor]
  by_cases hpr : pr = (repo, number)
  · subst hpr
    rw [Function.update_self]
    rw [if_pos rfl] at hfailed
    simp only [ReviewSchedulerState.ledger, PrAccount.rearm, hbudget, hfailed]
    rfl
  · rw [Function.update_of_ne hpr]
    rw [if_neg hpr] at hfailed
    simp only [ReviewSchedulerState.ledger, hbudget, hfailed]
    rfl

theorem reservedCapacity_rearmFailedHead (s : ReviewSchedulerState) (repo : String)
    (number : ℕ) : (s.rearmFailedHead repo number).reservedCapacity
        + (s.ledger (repo, number)).failed = s.reservedCapacity := by
  have hparts := List.length_eq_countP_add_countP
    (HeadTerminalTombstone.failedFor repo number) (l := s.headHistory)
  have hkept : (s.rearmFailedHead repo number).headHistory.length =
      s.headHistory.countP fun entry => decide (¬ entry.failedFor repo number = true) := by
    change (s.headHistory.filter fun entry => !entry.failedFor repo number).length = _
    rw [← List.countP_eq_length_filter]
    apply List.countP_congr
    intro entry _
    simp
  have hlength := congrArg List.length (rearmFailedHead_budgets s repo number)
  rw [List.length_map, List.length_map] at hlength
  have hpending := unbudgeted_eq s (s.rearmFailedHead repo number) rfl
    (rearmFailedHead_budgets s repo number)
  have hsame : (s.rearmFailedHead repo number).terminal = s.terminal ∧
      (s.rearmFailedHead repo number).retiredChecks = s.retiredChecks ∧
      (s.rearmFailedHead repo number).unfinished = s.unfinished := ⟨rfl, rfl, rfl⟩
  have hfailed : (s.ledger (repo, number)).failed =
      s.headHistory.countP (HeadTerminalTombstone.failedFor repo number) := rfl
  rw [reservedCapacity_eq, reservedCapacity_eq, hpending, hsame.1, hsame.2.1, hsame.2.2, hfailed]
  omega

theorem isIncrementalOf_enqueue (request : ReviewRequest) (pr : String × ℕ) :
    isIncrementalOf pr.1 pr.2 (ScheduledReview.enqueue sha256 request) = true ↔
      request.mode = .incremental ∧ pr = (request.repo, request.number) := by
  rw [isIncrementalOf_iff, Prod.ext_iff]
  constructor
  · rintro ⟨hmode, hrepo, hnumber⟩
    exact ⟨hmode, hrepo.symm, hnumber.symm⟩
  · rintro ⟨hmode, hrepo, hnumber⟩
    exact ⟨hmode, hrepo.symm, hnumber.symm⟩

theorem openWork_enqueue (sha256 : String → List UInt8) (request : ReviewRequest) :
    (ScheduledReview.enqueue sha256 request).openWork = .fresh request.headSha := by
  unfold ScheduledReview.enqueue ScheduledReview.openWork OpenWork.fresh
  cases request.headSha <;> rfl

theorem ledger_enqueue (hnone : s.coalesceTarget request = none) :
    ({ s with unfinished := s.unfinished ++ [ScheduledReview.enqueue sha256 request] } :
      ReviewSchedulerState).ledger = s.ledger.place request := by
  funext pr
  have hwork : (s.unfinished ++ [ScheduledReview.enqueue sha256 request]).find?
      (isIncrementalOf pr.1 pr.2) = (s.unfinished.find? (isIncrementalOf pr.1 pr.2)).or
        (if request.mode = .incremental ∧ pr = (request.repo, request.number) then
          some (ScheduledReview.enqueue sha256 request) else none) := by
    rw [List.find?_append, List.find?_singleton]
    simp only [isIncrementalOf_enqueue]
  have hledger : ({ s with unfinished := s.unfinished ++ [ScheduledReview.enqueue sha256 request] } :
      ReviewSchedulerState).ledger pr = { s.ledger pr with
        work := ((s.unfinished.find? (isIncrementalOf pr.1 pr.2)).or
          (if request.mode = .incremental ∧ pr = (request.repo, request.number) then
            some (ScheduledReview.enqueue sha256 request) else none)).map
              ScheduledReview.openWork } := by
    rw [← hwork]
    rfl
  rw [hledger]
  unfold Ledger.place
  by_cases hmode : request.mode = .incremental
  · rw [if_pos hmode]
    by_cases hpr : pr = (request.repo, request.number)
    · subst hpr
      simp only [ReviewSchedulerState.coalesceTarget, hmode, if_true] at hnone
      rw [Function.update_self, if_pos ⟨hmode, rfl⟩, hnone, Option.none_or, Option.map_some,
        openWork_enqueue]
      simp [PrAccount.place, ReviewSchedulerState.ledger, hnone]
    · rw [Function.update_of_ne hpr, if_neg fun h => hpr h.2, Option.or_none]
      rfl
  · rw [if_neg hmode, if_neg fun h => hmode h.1, Option.or_none]
    rfl

/-- The edit of a coalescing delivery, seen from every account. -/
theorem ledger_join {f : ScheduledReview → ScheduledReview} (detached : List RetiredReviewCheck)
    (htarget : s.coalesceTarget request = some record)
    (hf : ∀ record, isIncrementalOf request.repo request.number record = true →
      ∀ repo number, isIncrementalOf repo number (f record) = isIncrementalOf repo number record)
    (hwork : (f record).openWork = record.openWork.deliver request.headSha) :
    ({ s with
        unfinished := updateFirst (isIncrementalOf request.repo request.number) f s.unfinished
        retiredChecks := s.retiredChecks ++ detached } : ReviewSchedulerState).ledger =
      s.ledger.place request := by
  obtain ⟨hmode, hfind⟩ := coalesceTarget_eq_some htarget
  funext pr
  have hledger : ({ s with
        unfinished := updateFirst (isIncrementalOf request.repo request.number) f s.unfinished
        retiredChecks := s.retiredChecks ++ detached } : ReviewSchedulerState).ledger pr =
      { s.ledger pr with
        work := (if pr = (request.repo, request.number) then
            (s.unfinished.find? (isIncrementalOf pr.1 pr.2)).map f
          else s.unfinished.find? (isIncrementalOf pr.1 pr.2)).map ScheduledReview.openWork } := by
    rw [← ledger_work_edit hf]
    rfl
  rw [hledger]
  unfold Ledger.place
  rw [if_pos hmode]
  by_cases hpr : pr = (request.repo, request.number)
  · subst hpr
    rw [Function.update_self, if_pos rfl, hfind, Option.map_some, Option.map_some, hwork]
    simp [PrAccount.place, ReviewSchedulerState.ledger, hfind]
  · rw [Function.update_of_ne hpr, if_neg hpr]
    rfl

/-- Placing a request moves the ledger. -/
theorem ledger_placeRequest (sha256 : String → List UInt8) (s : ReviewSchedulerState)
    (request : ReviewRequest) :
    (s.placeRequest sha256 request).ledger = s.ledger.place request := by
  unfold ReviewSchedulerState.placeRequest
  cases htarget : s.coalesceTarget request with
  | none => exact ledger_enqueue htarget
  | some record =>
    dsimp only
    cases hkeep : keepsAcceptedHead request record with
    | true =>
      rw [if_pos rfl]
      have hjoin := ledger_join (f := ScheduledReview.acceptId request.id) [] htarget
        (fun _ _ _ _ => rfl) (by
          rw [OpenWork.deliver, openWork_notes, hkeep, if_pos rfl]
          rfl)
      rw [List.append_nil] at hjoin
      exact hjoin
    | false =>
      rw [if_neg Bool.false_ne_true]
      exact ledger_join (f := fun record => (record.coalesce sha256 request).1) _ htarget
        (fun _ hp _ _ => isIncrementalOf_coalesce (coalesceTarget_eq_some htarget).1 hp)
        (openWork_deliver hkeep)

theorem Normalized.placeRequest (h : Normalized s) (request : ReviewRequest) :
    Normalized (s.placeRequest sha256 request) := by
  have hplaced := placeRequest_placed sha256 s request
  generalize s.placeRequest sha256 request = s' at hplaced ⊢
  cases hplaced with
  | enqueue =>
    intro record hmem
    rcases List.mem_append.mp hmem with hold | hnew
    · exact h record hold
    · rw [List.mem_singleton.mp hnew]
      exact ⟨List.cons_ne_nil _ _, fun _ => rfl⟩
  | join htarget hrepl hstep =>
    apply hrepl.forall_mem h
    obtain ⟨hids, hhistory⟩ := h _ hrepl.mem_old
    cases hstep with
    | keep => exact ⟨by simp [ScheduledReview.acceptId], hhistory⟩
    | coalesce =>
      unfold ScheduledReview.coalesce
      dsimp only
      split_ifs <;>
        exact ⟨by simp [ScheduledReview.acceptDelivery, ScheduledReview.acceptId,
          detachChecksExcept, detachChecksExceptPreserving], fun _ => rfl⟩

theorem unbudgeted_enqueue (sha256 : String → List UInt8)
    (hnone : s.coalesceTarget request = none) :
    ({ s with unfinished := s.unfinished ++ [ScheduledReview.enqueue sha256 request] } :
      ReviewSchedulerState).unbudgeted = s.unbudgeted +
        if request.mode = .incremental ∧ s.hasBudget (request.repo, request.number) = false then 1
        else 0 := by
  have hpending : ∀ pr, pr ∈ ({ s with
        unfinished := s.unfinished ++ [ScheduledReview.enqueue sha256 request] } :
          ReviewSchedulerState).pendingPrs ↔
      pr ∈ s.pendingPrs ∨ request.mode = .incremental ∧ pr = (request.repo, request.number) := by
    intro pr
    simp only [mem_pendingPrs, List.mem_append, List.mem_singleton, or_and_right, exists_or,
      exists_eq_left]
    apply or_congr Iff.rfl
    apply and_congr Iff.rfl
    exact eq_comm
  have hbudget : ∀ pr, ({ s with
        unfinished := s.unfinished ++ [ScheduledReview.enqueue sha256 request] } :
          ReviewSchedulerState).hasBudget pr = s.hasBudget pr := fun _ => rfl
  unfold ReviewSchedulerState.unbudgeted
  simp only [hbudget]
  by_cases hmode : request.mode = .incremental
  · have hfresh : (request.repo, request.number) ∉ s.pendingPrs := by
      intro hbad
      obtain ⟨record, hmem, hincremental, hpr⟩ := mem_pendingPrs.mp hbad
      apply coalesceTarget_eq_none hnone hmode
      rw [← hpr]
      exact List.mem_map_of_mem (List.mem_filter.mpr ⟨hmem, isIncremental_iff.mpr hincremental⟩)
    have hperm : List.Perm ({ s with
          unfinished := s.unfinished ++ [ScheduledReview.enqueue sha256 request] } :
            ReviewSchedulerState).pendingPrs ((request.repo, request.number) :: s.pendingPrs) := by
      rw [List.perm_ext_iff_of_nodup (nodup_pendingPrs _)
        (List.nodup_cons.mpr ⟨hfresh, nodup_pendingPrs s⟩)]
      intro pr
      rw [hpending, List.mem_cons]
      simp only [hmode, true_and]
      exact or_comm
    rw [hperm.countP_eq, List.countP_cons]
    cases s.hasBudget (request.repo, request.number) <;> simp [hmode]
  · have hperm : List.Perm ({ s with
          unfinished := s.unfinished ++ [ScheduledReview.enqueue sha256 request] } :
            ReviewSchedulerState).pendingPrs s.pendingPrs := by
      rw [List.perm_ext_iff_of_nodup (nodup_pendingPrs _) (nodup_pendingPrs s)]
      intro pr
      rw [hpending]
      simp [hmode]
    rw [hperm.countP_eq, if_neg fun h => hmode h.1, Nat.add_zero]

theorem reservedCapacity_enqueue (sha256 : String → List UInt8)
    (hnone : s.coalesceTarget request = none) :
    (({ s with unfinished := s.unfinished ++ [ScheduledReview.enqueue sha256 request] } :
      ReviewSchedulerState).reservedCapacity : ℤ) =
        s.reservedCapacity + s.ledger.placed request := by
  have hpending := unbudgeted_enqueue sha256 hnone
  have hweight : (ScheduledReview.enqueue sha256 request).weight =
      2 + (if request.headSha.isSome then 1 else 0) + if request.mode = .incremental then 1 else 0 := by
    unfold ScheduledReview.enqueue ScheduledReview.weight
    cases request.headSha <;> by_cases hmode : request.mode = .incremental <;> simp [hmode]
  rw [reservedCapacity_eq, reservedCapacity_eq, hpending]
  simp only [List.map_append, List.map_singleton, List.sum_append, List.sum_singleton, hweight]
  unfold Ledger.placed
  by_cases hmode : request.mode = .incremental
  · have hwork : (s.ledger (request.repo, request.number)).work = none := by
      simp only [ReviewSchedulerState.coalesceTarget, hmode, if_true] at hnone
      simp [ReviewSchedulerState.ledger, hnone]
    have hbudgeted : (s.ledger (request.repo, request.number)).budgeted =
        s.hasBudget (request.repo, request.number) := rfl
    simp only [hmode, if_true, PrAccount.charge, hwork, hbudgeted, true_and]
    cases s.hasBudget (request.repo, request.number) <;> cases request.headSha.isSome <;>
      simp <;> omega
  · simp only [hmode, if_false, false_and]
    cases request.headSha.isSome <;> simp <;> omega

/-- What placing a request makes the sum count is what its account is charged. -/
theorem reservedCapacity_placeRequest (sha256 : String → List UInt8) (hnormal : Normalized s)
    (request : ReviewRequest) : ((s.placeRequest sha256 request).reservedCapacity : ℤ) =
      s.reservedCapacity + s.ledger.placed request := by
  unfold ReviewSchedulerState.placeRequest
  cases htarget : s.coalesceTarget request with
  | none => exact reservedCapacity_enqueue sha256 htarget
  | some record =>
    obtain ⟨hrequest, hfind⟩ := coalesceTarget_eq_some htarget
    have hof := List.find?_some hfind
    have hmode := (isIncrementalOf_iff.mp hof).1
    obtain ⟨hids, hhistory⟩ := hnormal record (List.mem_of_find?_eq_some hfind)
    have hwork : s.ledger.placed request = record.openWork.charge request.headSha := by
      simp [Ledger.placed, hrequest, PrAccount.charge, ReviewSchedulerState.ledger, hfind]
    rw [hwork]
    dsimp only
    cases hkeep : keepsAcceptedHead request record with
    | true =>
      have hreplaced := reservedCapacity_replaced []
        (updateFirst_replaced (ScheduledReview.acceptId request.id) hfind) rfl rfl
      have hlength := List.length_pos_iff.mpr hids
      have hweight : (record.acceptId request.id).weight = record.weight + 1 := by
        obtain ⟨reservations, hsome⟩ := Option.isSome_iff_exists.mp (hhistory hmode)
        simp only [ScheduledReview.weight, ScheduledReview.acceptId, List.length_append,
          List.length_singleton, hmode, hsome, if_true, Option.getD_some]
        omega
      rw [List.append_nil, List.length_nil, Nat.add_zero] at hreplaced
      rw [if_pos rfl, OpenWork.charge, openWork_notes, hkeep, if_pos rfl]
      omega
    | false =>
      have hstep : JoinStep sha256 request record _ _ := .coalesce hkeep
      have hpr := hstep.pr hrequest hof
      have hreplaced := reservedCapacity_replaced (record.coalesce sha256 request).2
        (updateFirst_replaced (fun record => (record.coalesce sha256 request).1) hfind) hpr.1 hpr.2
      have hweight := weight_coalesce sha256 hrequest hmode hids (hhistory hmode) hkeep
      rw [if_neg Bool.false_ne_true]
      omega

theorem ledger_admitRequest (sha256 : String → List UInt8) (s : ReviewSchedulerState)
    (request : ReviewRequest) :
    (s.admitRequest sha256 request).ledger = (s.ledger.rearm request).place request := by
  unfold ReviewSchedulerState.admitRequest Ledger.rearm
  rw [ledger_placeRequest]
  split_ifs
  · rw [ledger_rearmFailedHead]
  · rfl

theorem reservedCapacity_admitRequest (sha256 : String → List UInt8) (hnormal : Normalized s)
    (request : ReviewRequest) : ((s.admitRequest sha256 request).reservedCapacity : ℤ) =
      s.reservedCapacity + (s.ledger.rearm request).placed request - s.ledger.cleared request := by
  unfold ReviewSchedulerState.admitRequest Ledger.rearm Ledger.cleared
  split_ifs with hexplicit
  · have hrearm := reservedCapacity_rearmFailedHead s request.repo request.number
    have hplace := reservedCapacity_placeRequest sha256
      (s := s.rearmFailedHead request.repo request.number) hnormal request
    rw [ledger_rearmFailedHead] at hplace
    omega
  · have hplace := reservedCapacity_placeRequest sha256 hnormal request
    omega

theorem Normalized.admitRequest (h : Normalized s) (sha256 : String → List UInt8) (request : ReviewRequest) :
    Normalized (s.admitRequest sha256 request) := by
  apply Normalized.placeRequest
  split_ifs <;> exact h

/-- The ledger measures every batch, whatever the journal. -/
theorem reservedCapacity_batch (sha256 : String → List UInt8) (hnormal : Normalized s)
    (requests : List ReviewRequest) :
    ((requests.foldl (ReviewSchedulerState.admitRequest sha256) s).reservedCapacity : ℤ) =
      s.reservedCapacity + s.ledger.charge requests := by
  induction requests generalizing s with
  | nil => exact (Int.add_zero _).symm
  | cons request requests ih =>
    have hrest := ih (hnormal.admitRequest sha256 request)
    have hone := reservedCapacity_admitRequest sha256 hnormal request
    rw [ledger_admitRequest] at hrest
    rw [List.foldl_cons, Ledger.charge]
    omega

/-- The increments the admission test adds to the reserved capacity. -/
def countedGrowth (s : ReviewSchedulerState) (requests : List ReviewRequest) : ℕ :=
  requests.length + (requests.countP fun request => request.mode == .incremental)
    + s.newPrsWithoutHead requests

/-- There is room for what the operation really adds: the charge of an admitted batch, the
check of a resolved head, the check of a live head whose slot is spent. -/
def HasRoom (s : ReviewSchedulerState) (e : Event) : Prop :=
  match e.operation with
  | .admitBatch requests =>
    (s.prepared e.nowMs).admissionDecision requests = .admitted →
      ((s.prepared e.nowMs).reservedCapacity : ℤ) + (s.prepared e.nowMs).ledger.charge requests ≤
        maxTerminalReviewReservations
  | .resolvePendingMetadata pending headSha isOpen draft =>
    mintsResolvedCheck s pending headSha isOpen draft e.nowMs = true →
      s.reservedCapacity + 1 ≤ maxTerminalReviewReservations
  | .reconcileLiveCheck owned headSha =>
    ∀ record, s.unfinished.find? (ownsUnexpired owned e.nowMs) = some record →
      mintsLiveCheck s owned record headSha e.nowMs = true →
        record.statusReconcileReserved = false →
          s.reservedCapacity + 1 ≤ maxTerminalReviewReservations + droppedChecks record headSha
            + sweptHistory s owned e.nowMs
  | _ => True

theorem reservedCapacity_prepared_le (s : ReviewSchedulerState) (nowMs : ℤ) :
    (s.prepared nowMs).reservedCapacity ≤ s.reservedCapacity := by
  have hnormal := reservedCapacity_normalizeLegacyRecords s
  have hpending : (s.prepared nowMs).unbudgeted = s.normalizeLegacyRecords.unbudgeted := rfl
  have hterminal : (s.prepared nowMs).terminal.length ≤ s.normalizeLegacyRecords.terminal.length :=
    List.length_filter_le _ _
  have hhistory : (s.prepared nowMs).headHistory.length ≤
      s.normalizeLegacyRecords.headHistory.length := List.length_filter_le _ _
  have hsame : (s.prepared nowMs).retiredChecks = s.normalizeLegacyRecords.retiredChecks ∧
      (s.prepared nowMs).incrementalHeads = s.normalizeLegacyRecords.incrementalHeads ∧
      (s.prepared nowMs).unfinished = s.normalizeLegacyRecords.unfinished := ⟨rfl, rfl, rfl⟩
  rw [← hnormal, reservedCapacity_eq, reservedCapacity_eq, hpending, hsame.1, hsame.2.1, hsame.2.2]
  omega

theorem admitBatch_bounded (sha256 : String → List UInt8) {requests : List ReviewRequest}
    {nowMs : ℤ} (hcap : s.reservedCapacity ≤ maxTerminalReviewReservations) :
    (s.admitBatch sha256 requests nowMs).1.reservedCapacity ≤ maxTerminalReviewReservations ↔
      ((s.prepared nowMs).admissionDecision requests = .admitted →
        ((s.prepared nowMs).reservedCapacity : ℤ) + (s.prepared nowMs).ledger.charge requests ≤
          maxTerminalReviewReservations) := by
  have hready := reservedCapacity_prepared_le s nowMs
  rcases s.admitBatch_cases sha256 requests nowMs with ⟨rfl, hsame⟩ | ⟨hdecision, hdone⟩ | ⟨hrefused, hsame⟩
  · rw [hsame]
    refine iff_of_true hcap fun _ => ?_
    rw [Ledger.charge]
    omega
  · have hbatch := reservedCapacity_batch sha256 (Normalized.prepared s nowMs) requests
    unfold ReviewSchedulerState.prepared at hbatch ⊢
    rw [hdone]
    constructor
    · intro h _
      dsimp only at h
      omega
    · intro h
      have hroom := h hdecision
      dsimp only
      omega
  · rw [hsame]
    exact iff_of_true (hready.trans hcap) fun h => absurd h hrefused

/-- Exactly when an operation keeps the reserved capacity within its bound, and exactly when an
admitted batch was counted in full. -/
theorem reserved_capacity_bounded (sha256 : String → List UInt8) (s : ReviewSchedulerState)
    (e : Event) (hcap : s.reservedCapacity ≤ maxTerminalReviewReservations) :
    ((perform sha256 s e).1.reservedCapacity ≤ maxTerminalReviewReservations ↔ HasRoom s e) ∧
      ∀ requests, e.operation = .admitBatch requests →
        (perform sha256 s e).2 = .admission .admitted →
          ((perform sha256 s e).1.reservedCapacity ≤
              (s.prepared e.nowMs).reservedCapacity + countedGrowth (s.prepared e.nowMs) requests ↔
            (s.prepared e.nowMs).ledger.charge requests ≤
              countedGrowth (s.prepared e.nowMs) requests) := by
  constructor
  · by_cases hmint : e.operation.mints = true
    · cases hop : e.operation with
      | admitBatch requests =>
        simp only [perform, HasRoom, hop]
        exact admitBatch_bounded sha256 hcap
      | resolvePendingMetadata pending headSha isOpen draft =>
        have hresolve := reservedCapacity_resolve sha256 s pending headSha isOpen draft e.nowMs
        simp only [perform, HasRoom, hop]
        split_ifs at hresolve with hqueues
        · rw [hresolve]
          simp [hqueues]
        · exact iff_of_true (hresolve.trans hcap) fun h => absurd h hqueues
      | reconcileLiveCheck owned headSha =>
        have hstep := reconcileLiveCheck_step sha256 s owned headSha e.nowMs
        simp only [perform, HasRoom, hop]
        cases hfind : s.unfinished.find? (ownsUnexpired owned e.nowMs) with
        | none =>
          simpa [ReviewSchedulerState.reconcileLiveCheck, hfind] using hcap
        | some record =>
          have hsum := hstep.reservedCapacity hfind
          split_ifs at hsum with hqueues
          · constructor
            · rintro hafter other hother - -
              obtain rfl := Option.some.inj hother
              omega
            · intro h
              have hroom := h record rfl hqueues.1 hqueues.2
              omega
          · refine iff_of_true (hsum.trans hcap) fun other hother hmints hslot => ?_
            obtain rfl := Option.some.inj hother
            exact absurd ⟨hmints, hslot⟩ hqueues
      | _ => simp [hop, Operation.mints] at hmint
    · have hroom : HasRoom s e := by
        unfold HasRoom
        split
        all_goals simp_all [Operation.mints]
      rw [Bool.not_eq_true] at hmint
      apply iff_of_true _ hroom
      by_cases hconfirm : ∃ owned headSha, e.operation = .confirmHead owned headSha
      · obtain ⟨owned, headSha, hop⟩ := hconfirm
        have hsum := (confirmHead_step s owned headSha e.nowMs).reservedCapacity_eq
        simp only [perform, hop]
        omega
      · refine (reservedCapacity_perform_le hmint fun owned headSha hop => ?_).trans hcap
        rcases hop with hop | hop
        · exact hconfirm ⟨owned, headSha, hop⟩
        · simp [hop, Operation.mints] at hmint
  · intro requests hop hreply
    simp only [perform, hop] at hreply ⊢
    rcases s.admitBatch_cases sha256 requests e.nowMs with ⟨-, hsame⟩ | ⟨-, hdone⟩ | ⟨hrefused, hsame⟩
    · simp [hsame] at hreply
    · have hbatch := reservedCapacity_batch sha256 (Normalized.prepared s e.nowMs) requests
      unfold ReviewSchedulerState.prepared at hbatch ⊢
      rw [hdone]
      constructor
      · intro h
        dsimp only at h
        omega
      · intro h
        dsimp only
        omega
    · simp only [hsame, Reply.admission.injEq] at hreply
      exact absurd hreply hrefused

/-- A journal of so many completed reviews and nothing else. -/
def completedReviews (count : ℕ) : ReviewSchedulerState where
  terminal := (List.range count).map fun i =>
    { id := ⟨toString i⟩, outcome := .published, expiresAtMs := reviewTombstoneTtlMs }

section CompletedReviews

variable (count : ℕ)

theorem completedReviews_unknown : (completedReviews count).isKnownId ⟨"a"⟩ = false := by
  rw [ReviewSchedulerState.isKnownId, Bool.or_eq_false_iff]
  refine ⟨rfl, List.any_eq_false.mpr fun record hmem => ?_⟩
  obtain ⟨i, -, rfl⟩ := List.mem_map.mp hmem
  intro hsame
  have htext : toString i = "a" := congrArg ReviewJobId.text (beq_iff_eq.mp hsame)
  have hdigits : 'a' ∈ Nat.toDigits 10 i := by
    rw [← Nat.toList_repr]
    change 'a' ∈ (toString i).toList
    rw [htext]
    decide
  exact absurd (Nat.isDigit_of_mem_toDigits (by decide) (by decide) hdigits) (by decide)

theorem completedReviews_prepared : (completedReviews count).prepared 0 = completedReviews count := by
  have hkept : (completedReviews count).terminal.filter
      (fun record => decide (record.expiresAtMs > 0)) = (completedReviews count).terminal := by
    rw [List.filter_eq_self]
    intro record hmem
    obtain ⟨i, -, rfl⟩ := List.mem_map.mp hmem
    exact decide_eq_true (show reviewTombstoneTtlMs > 0 by decide)
  exact congrArg (fun terminal => ({ terminal := terminal } : ReviewSchedulerState)) hkept

theorem completedReviews_reserved : (completedReviews count).reservedCapacity = count := by
  rw [reservedCapacity_eq, completedReviews, List.length_map, List.length_range]
  rfl

theorem completedReviews_admits (hroom : count + 3 ≤ maxTerminalReviewReservations) :
    (completedReviews count).admissionDecision [push "a" "A"] = .admitted := by
  have hknown : [push "a" "A"].countP
      (fun request => (completedReviews count).isKnownId request.id) = 0 := by
    rw [List.countP_singleton]
    exact if_neg (Bool.eq_false_iff.mp (completedReviews_unknown count))
  unfold ReviewSchedulerState.admissionDecision
  rw [completedReviews_reserved, hknown]
  have hstatus : (completedReviews count).statusRecordsInUse
      + (completedReviews count).additionalStatusRecords [push "a" "A"]
      + newUncoalescedCount (completedReviews count).unfinished [push "a" "A"]
      + (completedReviews count).replenishedReservations [push "a" "A"] = 2 := rfl
  have hjobs : (completedReviews count).unfinished.length
      + newUncoalescedCount (completedReviews count).unfinished [push "a" "A"] = 1 := rfl
  have hcounted : (completedReviews count).newPrsWithoutHead [push "a" "A"] = 1 := rfl
  dsimp only
  rw [hstatus, hjobs, hcounted, if_neg (by decide), if_neg (by decide), if_neg (by decide), if_neg]
  rintro (hbad | hbad | hbad)
  · exact hbad rfl
  · exact absurd hbad (by decide)
  · change count + 1 + 1 + 1 > _ at hbad
    omega

/-- The queued check and the status slot of a push are promised but not counted. -/
theorem completedReviews_push (hroom : count + 3 ≤ maxTerminalReviewReservations) :
    (perform sampleSha256 (completedReviews count) ⟨0, .admitBatch [push "a" "A"]⟩).2 =
        .admission .admitted ∧
      (perform sampleSha256 (completedReviews count)
        ⟨0, .admitBatch [push "a" "A"]⟩).1.reservedCapacity = count + 5 := by
  have hprepared := completedReviews_prepared count
  have hbatch := reservedCapacity_batch sampleSha256 (Normalized.prepared (completedReviews count) 0)
    [push "a" "A"]
  have hcharge : (completedReviews count).ledger.charge [push "a" "A"] = 5 := rfl
  rw [hprepared, hcharge, completedReviews_reserved] at hbatch
  unfold ReviewSchedulerState.prepared at hprepared
  rcases (completedReviews count).admitBatch_cases sampleSha256 [push "a" "A"] 0 with
    ⟨hempty, -⟩ | ⟨-, hdone⟩ | ⟨hrefused, -⟩
  · simp at hempty
  · rw [hprepared] at hdone
    simp only [perform, hdone, true_and]
    exact Int.ofNat.inj hbatch
  · rw [hprepared] at hrefused
    exact absurd (completedReviews_admits count hroom) hrefused

end CompletedReviews

/-- One admitted push takes a journal with room for three more reservations over the bound. -/
theorem reserved_capacity_bounded_overrun :
    (completedReviews 17997).reservedCapacity ≤ maxTerminalReviewReservations ∧
      (perform sampleSha256 (completedReviews 17997) ⟨0, .admitBatch [push "a" "A"]⟩).2 =
        .admission .admitted ∧
      maxTerminalReviewReservations <
        (perform sampleSha256 (completedReviews 17997)
          ⟨0, .admitBatch [push "a" "A"]⟩).1.reservedCapacity := by
  obtain ⟨hreply, hafter⟩ := completedReviews_push 17997 (by decide)
  rw [completedReviews_reserved, hafter]
  exact ⟨by decide, hreply, by decide⟩

/-- In a journal with room for five, the same push stays within the bound. -/
theorem reserved_capacity_bounded_push :
    (completedReviews 3).reservedCapacity ≤ maxTerminalReviewReservations ∧
      (perform sampleSha256 (completedReviews 3)
        ⟨0, .admitBatch [push "a" "A"]⟩).1.reservedCapacity ≤ maxTerminalReviewReservations := by
  have hcap : (completedReviews 3).reservedCapacity ≤ maxTerminalReviewReservations := by
    rw [completedReviews_reserved]
    decide
  refine ⟨hcap, (reserved_capacity_bounded sampleSha256 (completedReviews 3)
    ⟨0, .admitBatch [push "a" "A"]⟩ hcap).1.mpr fun _ => ?_⟩
  rw [completedReviews_prepared, completedReviews_reserved]
  decide

end TinySweeper.ReviewJob
