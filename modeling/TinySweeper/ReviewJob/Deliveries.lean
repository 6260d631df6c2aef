import TinySweeper.ReviewJob.Shape

/-!
# Accounting of accepted deliveries

An accepted id is held by exactly one unfinished record or exactly one tombstone
until admission prunes the expired tombstone, and a refused batch adds nothing.
-/

namespace TinySweeper.ReviewJob

open FirstMatch Runs

variable {sha256 : String → List UInt8} {e : Event} {s s' : ReviewSchedulerState} {id : ReviewJobId}

/-- Held by one unfinished record or one tombstone, and by nothing else. -/
def ReviewSchedulerState.AccountedOnce (s : ReviewSchedulerState) (id : ReviewJobId) : Prop :=
  s.ids.count id = 1

/-- This event is an admission that prunes the id's expired tombstone. -/
def Prunes (s : ReviewSchedulerState) (e : Event) (id : ReviewJobId) : Prop :=
  (∃ requests, e.operation = .admitBatch requests) ∧
    ∃ tombstone ∈ s.terminal, tombstone.id = id ∧ tombstone.expiresAtMs ≤ e.nowMs

/-- What a refused batch may change: expired entries go. -/
structure OnlyPruned (nowMs : ℤ) (s s' : ReviewSchedulerState) : Prop where
  unfinished : s'.unfinished.map (fun record =>
      (record.request, record.acceptedIds, record.reviewChecks)) =
    s.unfinished.map fun record => (record.request, record.acceptedIds, record.reviewChecks)
  retiredChecks : s'.retiredChecks = s.retiredChecks
  incrementalHeads : s'.incrementalHeads = s.incrementalHeads
  terminal : s'.terminal.Sublist s.terminal
  headHistory : s'.headHistory.Sublist s.headHistory
  unexpired : ∀ entry ∈ s.headHistory, nowMs < entry.expiresAtMs → entry ∈ s'.headHistory

theorem Shape.accountedOnce (h : Shape s) (hid : id ∈ s.ids) : s.AccountedOnce id :=
  List.count_eq_one_of_mem h.ids hid

/-- Outside admission no effect lets an id go. -/
theorem Effect.keeps_id (hbatch : ∀ requests, e.operation ≠ .admitBatch requests) (h : Shape s)
    (heffect : Effect sha256 e s s') (hid : id ∈ s.ids) : id ∈ s'.ids := by
  cases heffect with
  | normalize => rwa [h.normalizeLegacyRecords.ids]
  | prune hop | enqueue hop | join hop => exact absurd hop (hbatch _)
  | record hrepl hstep =>
    have hids := hrepl.flatMap_eq (g := fun record => record.acceptedIds) hstep.request.2
    simpa only [ReviewSchedulerState.ids, hids] using hid
  | settle record outcome => rw [s.settleHead_eq]; exact hid
  | complete _ hrem => exact (complete_ids hrem).mem_iff.mpr hid
  | decline hop hrem => exact (complete_ids hrem).mem_iff.mpr hid
  | pruneHistory | rearm | moveBudget | openBudget | payBudget | acknowledge => exact hid

theorem Effects.keeps_id (hbatch : ∀ requests, e.operation ≠ .admitBatch requests) (h : Shape s)
    (heffects : Effects sha256 e s s') (hid : id ∈ s.ids) : Shape s' ∧ id ∈ s'.ids := by
  induction heffects with
  | refl => exact ⟨h, hid⟩
  | tail _ hlast ih => exact ⟨ih.1.effect hlast, hlast.keeps_id hbatch ih.1 ih.2⟩

/-- The loop accounts for every id of the batch and loses none. -/
theorem foldl_admitRequest_ids {requests : List ReviewRequest}
    (hnodup : (requests.map fun request => request.id).Nodup)
    (hfresh : ∀ request ∈ requests, request.id ∉ s.ids)
    (hid : id ∈ s.ids ∨ ∃ request ∈ requests, request.id = id) :
    id ∈ (requests.foldl (ReviewSchedulerState.admitRequest sha256) s).ids := by
  induction requests generalizing s with
  | nil => simpa using hid
  | cons request requests ih =>
    rw [List.map_cons, List.nodup_cons] at hnodup
    have hnew : request.id ∉ (if request.isExplicitRerequest then
        s.rearmFailedHead request.repo request.number else s).ids := by
      rw [rearmed_ids]
      exact hfresh request List.mem_cons_self
    have hplace := (placeRequest_effect sha256 (e := ⟨0, .admitBatch [request]⟩) rfl
      (List.mem_singleton.mpr rfl) hnew).2
    rw [rearmed_ids] at hplace
    have hmem (other : ReviewJobId) :
        other ∈ (s.admitRequest sha256 request).ids ↔ other = request.id ∨ other ∈ s.ids := by
      rw [← List.mem_cons]
      exact hplace.mem_iff
    apply ih hnodup.2
    · intro other hother hbad
      rcases (hmem other.id).mp hbad with hsame | hold
      · exact hnodup.1 (hsame ▸ List.mem_map_of_mem hother)
      · exact hfresh other (List.mem_cons_of_mem _ hother) hold
    · rcases hid with hold | ⟨other, hother, rfl⟩
      · exact .inl ((hmem id).mpr (.inr hold))
      · rcases List.mem_cons.mp hother with rfl | hother
        · exact .inl ((hmem _).mpr (.inl rfl))
        · exact .inr ⟨other, hother, rfl⟩

theorem pruneExpired_keeps_id (nowMs : ℤ) (hid : id ∈ s.ids) : id ∈ (s.pruneExpired nowMs).ids ∨
      ∃ tombstone ∈ s.terminal, tombstone.id = id ∧ tombstone.expiresAtMs ≤ nowMs := by
  rcases List.mem_append.mp hid with hrecord | htombstone
  · exact .inl (List.mem_append_left _ hrecord)
  obtain ⟨tombstone, hmem, rfl⟩ := List.mem_map.mp htombstone
  by_cases hexpired : tombstone.expiresAtMs ≤ nowMs
  · exact .inr ⟨tombstone, hmem, rfl, hexpired⟩
  · refine .inl (List.mem_append_right _ (List.mem_map_of_mem (List.mem_filter.mpr ⟨hmem, ?_⟩)))
    exact decide_eq_true (not_le.mp hexpired)

theorem admitBatch_keeps_id (sha256 : String → List UInt8) (h : Shape s)
    (requests : List ReviewRequest) (nowMs : ℤ) (hid : id ∈ s.ids) :
    id ∈ (s.admitBatch sha256 requests nowMs).1.ids ∨
      ∃ tombstone ∈ s.terminal, tombstone.id = id ∧ tombstone.expiresAtMs ≤ nowMs := by
  have hready := pruneExpired_keeps_id (s := s.normalizeLegacyRecords) nowMs
    (h.normalizeLegacyRecords.ids.symm ▸ hid)
  rcases hready with hkept | hexpired
  · left
    rcases s.admitBatch_cases sha256 requests nowMs with ⟨-, hcase⟩ | ⟨hdecision, hcase⟩ | ⟨-, hcase⟩
    · rwa [hcase]
    · have htests := admissionDecision_admitted hdecision
      rw [hcase]
      exact foldl_admitRequest_ids htests.1 htests.2.1 (.inl hkept)
    · rwa [hcase]
  · exact .inr hexpired

/-- An accounted id stays accounted unless this very event prunes its tombstone. -/
theorem perform_keeps_id (sha256 : String → List UInt8) (h : Shape s) (e : Event)
    (hid : id ∈ s.ids) :
    id ∈ (perform sha256 s e).1.ids ∨ Prunes s e id := by
  by_cases hbatch : ∃ requests, e.operation = .admitBatch requests
  · obtain ⟨requests, hop⟩ := hbatch
    rcases admitBatch_keeps_id sha256 h requests e.nowMs hid with hkept | hexpired
    · left
      simpa only [perform, hop] using hkept
    · exact .inr ⟨⟨requests, hop⟩, hexpired⟩
  · left
    rcases perform_cases sha256 s e with hquiet | heffects
    · rwa [hquiet.ids]
    · exact (heffects.keeps_id (not_exists.mp hbatch) h hid).2

/-- Along a run an accounted id stays accounted until an event of the run prunes it. -/
theorem after_keeps_id {c : Clocked} (h : Shape c.state) (hid : id ∈ c.state.ids)
    (events : List Event) :
    id ∈ (after sha256 c events).state.ids ∨
      ∃ kept e later, events = kept ++ e :: later ∧ Prunes (after sha256 c kept).state e id := by
  induction events generalizing c with
  | nil => exact .inl hid
  | cons e events ih =>
    rcases perform_keeps_id sha256 h e hid with hkept | hprunes
    · rcases ih (c := tick sha256 c e) (h.perform sha256 e) hkept with hdone | ⟨kept, e', later, rfl, hp⟩
      · exact .inl hdone
      · exact .inr ⟨e :: kept, e', later, rfl, hp⟩
    · exact .inr ⟨[], e, events, rfl, hprunes⟩

theorem admitBatch_accepts {requests : List ReviewRequest} {nowMs : ℤ}
    (hanswer : (s.admitBatch sha256 requests nowMs).2 = .admitted) {request : ReviewRequest}
    (hmem : request ∈ requests) : request.id ∈ (s.admitBatch sha256 requests nowMs).1.ids := by
  rcases s.admitBatch_cases sha256 requests nowMs with ⟨-, h⟩ | ⟨hdecision, h⟩ | ⟨hdecision, h⟩
  · rw [h] at hanswer
    exact Admission.noConfusion hanswer
  · have htests := admissionDecision_admitted hdecision
    rw [h]
    exact foldl_admitRequest_ids htests.1 htests.2.1 (.inr ⟨request, hmem, rfl⟩)
  · rw [h] at hanswer
    exact absurd hanswer hdecision

theorem admitBatch_refused (h : Shape s) {requests : List ReviewRequest} {nowMs : ℤ}
    (hanswer : (s.admitBatch sha256 requests nowMs).2 ≠ .admitted) :
    OnlyPruned nowMs s (s.admitBatch sha256 requests nowMs).1 := by
  have hready : OnlyPruned nowMs s (s.normalizeLegacyRecords.pruneExpired nowMs) := by
    refine ⟨?_, rfl, rfl, List.filter_sublist, List.filter_sublist, fun entry hmem hlive => ?_⟩
    · refine (List.map_map).trans (List.map_congr_left fun record hmem => ?_)
      have hquiet := (h.records record hmem).normalizeLegacy
      simp only [Function.comp_apply, hquiet.request, hquiet.acceptedIds]
      rfl
    · exact List.mem_filter.mpr ⟨hmem, decide_eq_true hlive⟩
  rcases s.admitBatch_cases sha256 requests nowMs with ⟨-, hcase⟩ | ⟨-, hcase⟩ | ⟨-, hcase⟩
  · rw [hcase]
    exact ⟨rfl, rfl, rfl, List.Sublist.refl _, List.Sublist.refl _, fun _ hmem _ => hmem⟩
  · rw [hcase] at hanswer
    exact absurd rfl hanswer
  · rwa [hcase]

/-- In every reached journal ids are distinct and a record's request is one of its accepted
ids. An id answered `admitted` is accounted for exactly once until an admission prunes its
expired tombstone; any other answer adds nothing and re-arms nothing. -/
theorem accepted_exactly_once (sha256 : String → List UInt8) (t : ℤ) (before : List Event) :
    (after sha256 (.start t) before).state.ids.Nodup ∧
      (∀ record ∈ (after sha256 (.start t) before).state.unfinished,
        record.request.id ∈ record.acceptedIds) ∧
      ∀ (e : Event) (requests : List ReviewRequest), e.operation = .admitBatch requests →
        ((perform sha256 (after sha256 (.start t) before).state e).2 = .admission .admitted →
          ∀ request ∈ requests, ∀ rest : List Event,
            (after sha256 (.start t) (before ++ e :: rest)).state.AccountedOnce request.id ∨
              ∃ kept e' later, rest = kept ++ e' :: later ∧
                Prunes (after sha256 (.start t) (before ++ e :: kept)).state e' request.id) ∧
        ((perform sha256 (after sha256 (.start t) before).state e).2 ≠ .admission .admitted →
          OnlyPruned e.nowMs (after sha256 (.start t) before).state
            (perform sha256 (after sha256 (.start t) before).state e).1) := by
  have hshape := Shape.after sha256 t before
  refine ⟨hshape.ids, fun record hmem => (hshape.records record hmem).accepted, ?_⟩
  intro e requests hop
  constructor
  · intro hanswer request hmem rest
    have haccepted : request.id ∈ (tick sha256 (after sha256 (.start t) before) e).state.ids := by
      simp only [perform, hop, Reply.admission.injEq] at hanswer
      simpa only [tick, perform, hop] using admitBatch_accepts hanswer hmem
    have hrun (events : List Event) : after sha256 (.start t) (before ++ e :: events) =
        after sha256 (tick sha256 (after sha256 (.start t) before) e) events :=
      after_append _ _ _
    have hnext := hshape.perform sha256 e
    rcases after_keeps_id (c := tick sha256 (after sha256 (.start t) before) e) hnext haccepted rest
      with hkept | ⟨kept, e', later, rfl, hprunes⟩
    · exact .inl ((Shape.after sha256 t _).accountedOnce (hrun rest ▸ hkept))
    · exact .inr ⟨kept, e', later, rfl, hrun kept ▸ hprunes⟩
  · intro hanswer
    have hrefused : ((after sha256 (.start t) before).state.admitBatch sha256 requests
        e.nowMs).2 ≠ .admitted := by
      intro hbad
      exact hanswer (by simp only [perform, hop, hbad])
    simpa only [perform, hop] using admitBatch_refused hshape hrefused

/-- A push is admitted and still accounted for once its review is claimed; its redelivery
is refused. -/
theorem accepted_exactly_once_push :
    (after sampleSha256 (.start 0) [⟨1, .admitBatch [push "a" "A"]⟩,
        ⟨2, .claimNextWithLimit "w" 4⟩]).state.AccountedOnce ⟨"a"⟩ ∧
      OnlyPruned 2 (after sampleSha256 (.start 0) [⟨1, .admitBatch [push "a" "A"]⟩]).state
        (perform sampleSha256 (after sampleSha256 (.start 0)
          [⟨1, .admitBatch [push "a" "A"]⟩]).state ⟨2, .admitBatch [push "a" "A"]⟩).1 := by
  constructor
  · have haccepted := ((accepted_exactly_once sampleSha256 0 []).2.2
      ⟨1, .admitBatch [push "a" "A"]⟩ _ rfl).1 (by decide) (push "a" "A") (by simp)
      [⟨2, .claimNextWithLimit "w" 4⟩]
    rcases haccepted with hkept | ⟨kept, e', later, hrest, hprunes⟩
    · exact hkept
    · obtain ⟨requests, hop⟩ := hprunes.1
      have hmem : e' ∈ [(⟨2, .claimNextWithLimit "w" 4⟩ : Event)] := hrest ▸ by simp
      rw [List.mem_singleton.mp hmem] at hop
      exact Operation.noConfusion hop
  · exact ((accepted_exactly_once sampleSha256 0
      [⟨1, .admitBatch [push "a" "A"]⟩]).2.2 ⟨2, .admitBatch [push "a" "A"]⟩ _ rfl).2 (by decide)

end TinySweeper.ReviewJob
