import TinySweeper.ReviewJob.Admission

/-!
# Redelivery of known requests

A batch whose ids are all known is a duplicate, unless the status budget refuses
it first: that test counts the records the batch would need were it new.
-/

namespace TinySweeper.ReviewJob

namespace ReviewSchedulerState

variable (s : ReviewSchedulerState) (requests : List ReviewRequest) (nowMs : ℤ)

/-- Held by an unfinished record, or by a tombstone that has not expired. -/
def Accepted (id : ReviewJobId) : Prop :=
  (∃ record ∈ s.unfinished, id ∈ record.acceptedIds) ∨
    ∃ record ∈ s.terminal, record.id = id ∧ nowMs < record.expiresAtMs

/-- The request of a record persisted before deliveries were counted. -/
def LegacyAccepted (id : ReviewJobId) : Prop :=
  ∃ record ∈ s.unfinished, record.acceptedIds = [] ∧ record.request.id = id

/-- The first capacity test, taken before the ids are compared. -/
def StatusBudgetHolds : Prop :=
  s.statusRecordsInUse + s.additionalStatusRecords requests +
      newUncoalescedCount s.unfinished requests + s.replenishedReservations requests ≤
    maxReviewStatusRecords

theorem mem_normalizeLegacy_acceptedIds (record : ScheduledReview) (id : ReviewJobId) :
    id ∈ record.normalizeLegacy.acceptedIds ↔
      id ∈ record.acceptedIds ∨ record.acceptedIds = [] ∧ record.request.id = id := by
  cases hids : record.acceptedIds with
  | nil =>
    simp only [ScheduledReview.normalizeLegacy, hids, List.isEmpty_nil, if_true,
      List.mem_singleton, List.not_mem_nil, false_or, true_and]
    exact eq_comm
  | cons first rest => simp [ScheduledReview.normalizeLegacy, hids]

theorem isKnownId_prepared (id : ReviewJobId) :
    (s.prepared nowMs).isKnownId id = true ↔ s.Accepted nowMs id ∨ s.LegacyAccepted id := by
  simp only [isKnownId, prepared, pruneExpired, normalizeLegacyRecords, Bool.or_eq_true,
    List.any_eq_true, List.mem_map, List.mem_filter, List.contains_iff_mem, beq_iff_eq,
    decide_eq_true_eq, exists_exists_and_eq_and, mem_normalizeLegacy_acceptedIds, Accepted,
    LegacyAccepted]
  constructor
  · rintro (⟨record, hrecord, hid | hlegacy⟩ | ⟨record, ⟨hrecord, hlive⟩, hid⟩)
    · exact .inl (.inl ⟨record, hrecord, hid⟩)
    · exact .inr ⟨record, hrecord, hlegacy⟩
    · exact .inl (.inr ⟨record, hrecord, hid, hlive⟩)
  · rintro ((⟨record, hrecord, hid⟩ | ⟨record, hrecord, hid, hlive⟩) | ⟨record, hrecord, hlegacy⟩)
    · exact .inl ⟨record, hrecord, .inl hid⟩
    · exact .inr ⟨record, ⟨hrecord, hlive⟩, hid⟩
    · exact .inl ⟨record, hrecord, .inr hlegacy⟩

variable {s requests nowMs}

theorem admitBatch_snd (sha256 : String → List UInt8) (hsome : requests ≠ []) :
    (s.admitBatch sha256 requests nowMs).2 = (s.prepared nowMs).admissionDecision requests := by
  rcases s.admitBatch_cases sha256 requests nowMs with ⟨hnil, -⟩ | ⟨hdecision, hcase⟩ | ⟨-, hcase⟩
  · exact absurd hnil hsome
  · rw [hcase]
    exact hdecision.symm
  · rw [hcase]
    rfl

/-- A bounded batch of distinct ids is a duplicate when the budget test lets it pass. -/
theorem admissionDecision_eq_duplicate
    (hdistinct : (requests.map fun request => request.id).Nodup)
    (hbounded : ∀ request ∈ requests, metadataIsBounded request = true) :
    s.admissionDecision requests = .duplicate ↔
      s.StatusBudgetHolds requests ∧ ∀ request ∈ requests, s.isKnownId request.id = true := by
  have hadmissible : ¬ (¬ (requests.map fun request => request.id).Nodup ∨
      ¬ requests.all metadataIsBounded) := by
    rintro (hrepeated | hlong)
    · exact hrepeated hdistinct
    · exact hlong (List.all_eq_true.mpr hbounded)
  unfold admissionDecision StatusBudgetHolds
  rw [if_neg hadmissible]
  dsimp only
  by_cases hbudget : s.statusRecordsInUse + s.additionalStatusRecords requests +
      newUncoalescedCount s.unfinished requests + s.replenishedReservations requests >
        maxReviewStatusRecords
  · rw [if_pos hbudget]
    exact iff_of_false (by decide) fun h => absurd h.1 (not_le.mpr hbudget)
  rw [if_neg hbudget]
  by_cases hknown : (requests.countP fun request => s.isKnownId request.id) = requests.length
  · rw [if_pos hknown]
    exact iff_of_true rfl ⟨not_lt.mp hbudget, List.countP_eq_length.mp hknown⟩
  · rw [if_neg hknown]
    refine iff_of_false ?_ fun h => hknown (List.countP_eq_length.mpr h.2)
    split <;> decide

end ReviewSchedulerState

/-- A field added by a later deployment is filled in, never changed. -/
def Filled {α : Type*} (before after : Option α) : Prop := ∀ a, before = some a → after = some a

/-- The same record, its missing fields filled in. -/
structure ScheduledReview.Completes (record record' : ScheduledReview) : Prop where
  acceptedIds : ∀ id ∈ record.acceptedIds, id ∈ record'.acceptedIds
  latestHeadHint : Filled record.latestHeadHint record'.latestHeadHint
  headHistoryReservations : Filled record.headHistoryReservations record'.headHistoryReservations
  others : record' = { record with
    acceptedIds := record'.acceptedIds
    latestHeadHint := record'.latestHeadHint
    headHistoryReservations := record'.headHistoryReservations }

theorem ScheduledReview.normalizeLegacy_completes (record : ScheduledReview) :
    record.Completes record.normalizeLegacy where
  acceptedIds id hid := (ReviewSchedulerState.mem_normalizeLegacy_acceptedIds record id).mpr
    (.inl hid)
  latestHeadHint head hhead := by simp [ScheduledReview.normalizeLegacy, hhead]
  headHistoryReservations n hn := by simp [ScheduledReview.normalizeLegacy, hn]
  others := rfl

/-- Expired tombstones and expired head history are gone; everything else is there. -/
structure RemovesOnlyExpired (nowMs : ℤ) (s s' : ReviewSchedulerState) : Prop where
  unfinished : List.Forall₂ ScheduledReview.Completes s.unfinished s'.unfinished
  terminal : s'.terminal = s.terminal.filter fun record => decide (record.expiresAtMs > nowMs)
  headHistory :
    s'.headHistory = s.headHistory.filter fun record => decide (record.expiresAtMs > nowMs)
  others : s' = { s with
    unfinished := s'.unfinished
    terminal := s'.terminal
    headHistory := s'.headHistory }

theorem removesOnlyExpired_prepared (s : ReviewSchedulerState) (nowMs : ℤ) :
    RemovesOnlyExpired nowMs s (s.prepared nowMs) where
  unfinished := List.forall₂_map_right_iff.mpr
    (List.forall₂_same.mpr fun record _ => record.normalizeLegacy_completes)
  terminal := rfl
  headHistory := rfl
  others := rfl

/-- A duplicate is answered for known batches, for no others, and changes nothing live. -/
def AnswersRedelivery (sha256 : String → List UInt8) (s : ReviewSchedulerState)
    (requests : List ReviewRequest) (nowMs : ℤ) : Prop :=
  ((s.admitBatch sha256 requests nowMs).2 = .duplicate ↔
      ∀ request ∈ requests, s.Accepted nowMs request.id) ∧
    ((s.admitBatch sha256 requests nowMs).2 = .duplicate →
      RemovesOnlyExpired nowMs s (s.admitBatch sha256 requests nowMs).1)

/-- A known batch is answered as one exactly when the status budget has room for it as if
it were new; a batch known only through a record without `accepted_ids` is a duplicate
on the same condition. -/
theorem answers_redelivery_iff (sha256 : String → List UInt8) (s : ReviewSchedulerState)
    (requests : List ReviewRequest) (nowMs : ℤ) (hsome : requests ≠ [])
    (hbounded : ∀ request ∈ requests, metadataIsBounded request = true)
    (hdistinct : (requests.map fun request => request.id).Nodup) :
    AnswersRedelivery sha256 s requests nowMs ↔
      ((∀ request ∈ requests, s.Accepted nowMs request.id) →
        (s.prepared nowMs).StatusBudgetHolds requests) ∧
      ((∀ request ∈ requests, s.Accepted nowMs request.id ∨ s.LegacyAccepted request.id) →
        (∃ request ∈ requests, ¬ s.Accepted nowMs request.id) →
        ¬ (s.prepared nowMs).StatusBudgetHolds requests) := by
  have hanswer : (s.admitBatch sha256 requests nowMs).2 = .duplicate ↔
      (s.prepared nowMs).StatusBudgetHolds requests ∧
        ∀ request ∈ requests, s.Accepted nowMs request.id ∨ s.LegacyAccepted request.id := by
    rw [ReviewSchedulerState.admitBatch_snd sha256 hsome,
      ReviewSchedulerState.admissionDecision_eq_duplicate hdistinct hbounded]
    simp only [ReviewSchedulerState.isKnownId_prepared]
  have hleft : (s.admitBatch sha256 requests nowMs).2 = .duplicate →
      RemovesOnlyExpired nowMs s (s.admitBatch sha256 requests nowMs).1 := by
    intro hduplicate
    rcases s.admitBatch_cases sha256 requests nowMs with ⟨hnil, -⟩ | ⟨-, hcase⟩ | ⟨-, hcase⟩
    · exact absurd hnil hsome
    · rw [hcase] at hduplicate
      exact absurd hduplicate Admission.noConfusion
    · rw [hcase]
      exact removesOnlyExpired_prepared s nowMs
  rw [AnswersRedelivery, and_iff_left hleft, hanswer]
  constructor
  · intro h
    refine ⟨fun hknown => (h.mpr hknown).1, fun hknown hnew hbudget => ?_⟩
    obtain ⟨request, hrequest, hstranger⟩ := hnew
    exact hstranger (h.mp ⟨hbudget, hknown⟩ request hrequest)
  · rintro ⟨hroom, hlegacy⟩
    constructor
    · rintro ⟨hbudget, hknown⟩
      by_contra hnew
      push Not at hnew
      exact hlegacy hknown hnew hbudget
    · exact fun hknown => ⟨hroom hknown, fun request hrequest => .inl (hknown request hrequest)⟩

-- One delivery, completed and still in its deduplication window.

def concludedDelivery : ReviewTombstone where
  id := ⟨"webhook:a"⟩
  outcome := .published
  expiresAtMs := 100

def redelivered : ReviewRequest where
  id := ⟨"webhook:a"⟩
  repo := "owner/repo"
  number := 1
  author := "octocat"
  installation := 1
  headSha := some "A"
  delivery := some "a"
  event := "pull_request"
  mode := .incremental
  acceptedAtMs := 9

theorem concluded_accepted {s : ReviewSchedulerState} (h : concludedDelivery ∈ s.terminal) :
    ∀ request ∈ [redelivered], s.Accepted 9 request.id := by
  intro request hrequest
  obtain rfl := List.mem_singleton.mp hrequest
  exact .inr ⟨concludedDelivery, h, rfl, by decide⟩

/-- In an idle scheduler the redelivery is answered as one. -/
theorem answers_redelivery_idle :
    AnswersRedelivery (fun _ => []) { terminal := [concludedDelivery] } [redelivered] 9 := by
  refine (answers_redelivery_iff (fun _ => []) _ _ 9 (List.cons_ne_nil _ _)
    (by decide +kernel) (by decide +kernel)).mpr ⟨fun _ => ?_, fun _ hnew => ?_⟩
  · unfold ReviewSchedulerState.StatusBudgetHolds
    decide +kernel
  · obtain ⟨request, hrequest, hstranger⟩ := hnew
    exact absurd (concluded_accepted List.mem_cons_self request hrequest) hstranger

/-- A detached check that still awaits its terminal status. -/
def retiredCheckOf (headSha : String) : RetiredReviewCheck where
  repo := "owner/repo"
  installation := 1
  check := queuedCheck (fun _ => []) ⟨"webhook:b"⟩ headSha none

/-- With every status record in use the known delivery is refused as if it were new work. -/
theorem known_delivery_refused :
    ¬ AnswersRedelivery (fun _ => [])
      { terminal := [concludedDelivery]
        retiredChecks := List.replicate 1024 (retiredCheckOf "B") } [redelivered] 9 := by
  rintro ⟨hanswer, -⟩
  have hduplicate := hanswer.mpr (concluded_accepted List.mem_cons_self)
  exact absurd hduplicate (by decide +kernel)

end TinySweeper.ReviewJob
