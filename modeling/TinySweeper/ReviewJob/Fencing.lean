import TinySweeper.ReviewJob.Shape

/-!
# Ownership fencing

A handle that is not the current unexpired owner of its record is refused without
any effect, generations of one record only grow, and a claim limit bounds the
unexpired owners as long as the clock does not go back.
-/

namespace TinySweeper.ReviewJob

open FirstMatch Runs

variable {sha256 : String → List UInt8} {e : Event} {s s' : ReviewSchedulerState}
variable {owned : OwnedReview} {nowMs later : ℤ} {id : ReviewJobId} {generation bound : ℕ}

/-- The handle an operation of a review owner presents. -/
def Operation.handle : Operation → Option OwnedReview
  | .beginPaid owned | .confirmHead owned _ | .reconcileLiveCheck owned _
  | .setCheckStage owned _ _ _ | .renew owned | .defer owned _ | .deferYield owned
  | .finish owned _ _ | .finishWithYield owned _ | .finishDeadline owned => some owned
  | _ => none

/-- A refusal, as each operation of an owner words it. -/
def Reply.refuses : Reply → Bool
  | .accepted answer => !answer
  | .paid start => start == .ownershipLost
  | .reconciled check => check == .ownershipLost
  | _ => false

/-- The handle's owner or generation is not the record's current one, or its lease lapsed. -/
def Stale (s : ReviewSchedulerState) (owned : OwnedReview) (nowMs : ℤ) : Prop :=
  ∀ record ∈ s.unfinished, record.request.id = owned.request.id →
    record.owner ≠ some owned.owner ∨ record.generation ≠ owned.generation ∨
      record.ownerUntilMs ≤ nowMs

instance (s : ReviewSchedulerState) (owned : OwnedReview) (nowMs : ℤ) :
    Decidable (Stale s owned nowMs) :=
  inferInstanceAs (Decidable (∀ record ∈ s.unfinished, _))

theorem Stale.not_ownsUnexpired (h : Stale s owned nowMs) {record : ScheduledReview}
    (hmem : record ∈ s.unfinished) : ownsUnexpired owned nowMs record = false := by
  rw [Bool.eq_false_iff]
  intro howns
  obtain ⟨howns, hlive⟩ := ownsUnexpired_iff.mp howns
  obtain ⟨hid, howner, hgeneration⟩ := owns_iff.mp howns
  rcases h record hmem hid with hbad | hbad | hbad
  · exact hbad howner
  · exact hbad hgeneration
  · exact absurd hlive (not_lt.mpr hbad)

theorem Stale.find? (h : Stale s owned nowMs) :
    s.unfinished.find? (ownsUnexpired owned nowMs) = none := by
  rw [List.find?_eq_none]
  intro record hmem
  simp [h.not_ownsUnexpired hmem]

theorem Stale.find?_and (h : Stale s owned nowMs) (p : ScheduledReview → Bool) :
    s.unfinished.find? (fun record => ownsUnexpired owned nowMs record && p record) = none := by
  rw [List.find?_eq_none]
  intro record hmem
  simp [h.not_ownsUnexpired hmem]

/-- The operations that look an owner up before its lease find it lapsed. -/
theorem Stale.lapsed (h : Stale s owned nowMs) {record : ScheduledReview}
    (hfind : s.unfinished.find? (fun record => owns record owned) = some record) :
    record.ownerUntilMs ≤ nowMs := by
  have howns := List.find?_some hfind
  obtain ⟨hid, howner, hgeneration⟩ := owns_iff.mp howns
  rcases h record (List.mem_of_find?_eq_some hfind) hid with hbad | hbad | hlapsed
  · exact absurd howner hbad
  · exact absurd hgeneration hbad
  · exact hlapsed

section Refusals

variable {owned : OwnedReview} {nowMs : ℤ} (h : Stale s owned nowMs)
include h

theorem beginPaid_stale : s.beginPaid owned nowMs = (s, .ownershipLost) := by
  simp [ReviewSchedulerState.beginPaid, h.find?]

theorem confirmHead_stale (headSha : String) : s.confirmHead owned headSha nowMs = (s, false) := by
  simp [ReviewSchedulerState.confirmHead, h.find?]

theorem reconcileLiveCheck_stale (headSha : String) :
    s.reconcileLiveCheck sha256 owned headSha nowMs = (s, .ownershipLost) := by
  simp [ReviewSchedulerState.reconcileLiveCheck, h.find?]

theorem setCheckStage_stale (headSha : String) (checkId : ℕ) (stage : ReviewCheckStage) :
    s.setCheckStage owned headSha checkId stage nowMs = (s, false) := by
  simp [ReviewSchedulerState.setCheckStage, h.find?]

theorem renew_stale : s.renew owned nowMs = (s, false) := by
  unfold ReviewSchedulerState.renew
  cases hfind : s.unfinished.find? (fun record => owns record owned) with
  | none => rfl
  | some record => simp [h.lapsed hfind]

theorem defer_stale (notBeforeMs : ℤ) : s.defer owned nowMs notBeforeMs = (s, false) := by
  unfold ReviewSchedulerState.defer
  cases hfind : s.unfinished.find? (fun record => owns record owned) with
  | none => rfl
  | some record => simp [h.lapsed hfind]

theorem deferYield_stale : s.deferYield owned nowMs = (s, false) := by
  simp [ReviewSchedulerState.deferYield, h.find?_and]

theorem finishWithYield_stale (outcome : TerminalOutcome) :
    s.finishWithYield owned outcome nowMs = (s, false) := by
  simp [ReviewSchedulerState.finishWithYield, h.find?]

theorem finish_stale (outcome : TerminalOutcome) (completedAtMs : ℤ) :
    s.finish owned outcome nowMs completedAtMs = (s, false) := by
  have hfree : s.unfinished.any (fun record =>
      ownsUnexpired owned nowMs record && record.yieldRequested) = false := by
    rw [List.any_eq_false]
    intro record hmem
    simp [h.not_ownsUnexpired hmem]
  have hrecord : s.finishRecord owned outcome nowMs completedAtMs = (s, false) := by
    simp [ReviewSchedulerState.finishRecord, h.find?_and]
  simp [ReviewSchedulerState.finish, hfree, hrecord]

end Refusals

/-- A stale handle is refused by every operation of an owner, without any effect. -/
theorem perform_stale (hhandle : e.operation.handle = some owned) (h : Stale s owned e.nowMs) :
    (perform sha256 s e).1 = s ∧ (perform sha256 s e).2.refuses = true := by
  unfold perform
  cases hop : e.operation with
  | beginPaid | confirmHead | reconcileLiveCheck | setCheckStage | renew | defer | deferYield
  | finish | finishWithYield | finishDeadline =>
    simp only [hop, Operation.handle, Option.some.injEq] at hhandle
    subst hhandle
    simp [beginPaid_stale h, confirmHead_stale h, reconcileLiveCheck_stale h,
      setCheckStage_stale h, renew_stale h, defer_stale h, deferYield_stale h,
      finishWithYield_stale h, finish_stale h, ReviewSchedulerState.finishDeadline, Reply.refuses]
  | _ => simp [hop, Operation.handle] at hhandle

/-- The one pair of counters a refund may change. -/
inductive OnePaidPair (s : ReviewSchedulerState) : ReviewSchedulerState → Prop
  | none : OnePaidPair s s
  | budget {budget heads} (paidAttempts ownershipRefunds : ℕ)
      (hrepl : Replaced s.incrementalHeads heads budget
        { budget with paidAttempts := paidAttempts, ownershipRefunds := ownershipRefunds }) :
      OnePaidPair s { s with incrementalHeads := heads }
  | record {record unfinished} (paidAttempts ownershipRefunds : ℕ)
      (hrepl : Replaced s.unfinished unfinished record
        { record with paidAttempts := paidAttempts, ownershipRefunds := ownershipRefunds }) :
      OnePaidPair s { s with unfinished := unfinished }

variable {record record' : ScheduledReview} {unfinished : List ScheduledReview}
variable {detached : List RetiredReviewCheck}

theorem refundPaid_onePaidPair (s : ReviewSchedulerState) (owned : OwnedReview)
    (headSha : String) (epoch : ℕ) (nowMs : ℤ) :
    OnePaidPair s (s.refundPaid owned headSha epoch nowMs).1 := by
  unfold ReviewSchedulerState.refundPaid
  split
  · exact .none
  · rename_i record hfind
    split_ifs
    · split
      · exact .none
      · rename_i budget hbudget
        split_ifs
        · exact .none
        · exact .budget _ _ (updateFirst_replaced _ hbudget)
    · exact .none
    · exact .none
    · exact .record _ _ (updateFirst_replaced _ hfind)

/-- The ids of a removed record are in no other record. -/
theorem Shape.removed_ids (h : Shape s) (hrem : Removed s.unfinished unfinished record)
    (hid : id ∈ record.acceptedIds) : id ∉ unfinished.flatMap fun record => record.acceptedIds := by
  have hperm := hrem.flatMap_perm fun record => record.acceptedIds
  have hnodup := hperm.nodup_iff.mp (List.nodup_append.mp h.ids).1
  intro hbad
  exact (List.nodup_append.mp hnodup).2.2 id hid id hbad rfl

/-- Ids of unfinished records. -/
def ReviewSchedulerState.unfinishedIds (s : ReviewSchedulerState) : List ReviewJobId :=
  s.unfinished.flatMap fun record => record.acceptedIds

/-- The record first accepted under `id`, at this generation or a later one. -/
def Lineage (s : ReviewSchedulerState) (id : ReviewJobId) (generation : ℕ) : Prop :=
  ∃ record ∈ s.unfinished, record.acceptedIds.head? = some id ∧ generation ≤ record.generation

theorem RecordStep.generation_le (h : RecordStep sha256 e record record' detached) :
    record.generation ≤ record'.generation := by
  cases h with
  | claim => rw [ScheduledReview.claim_eq]; exact Nat.le_succ _
  | rebind => rw [ScheduledReview.bindCheck_eq]; exact Nat.le_refl _
  | _ => exact Nat.le_refl _

/-- A delivery leaves the lease of the record it joins alone. -/
theorem JoinStep.lease {request : ReviewRequest}
    (h : JoinStep sha256 request record record' detached) :
    record'.owner = record.owner ∧ record'.generation = record.generation ∧
      record'.ownerUntilMs = record.ownerUntilMs := by
  cases h with
  | keep => exact ⟨rfl, rfl, rfl⟩
  | coalesce =>
    unfold ScheduledReview.coalesce
    dsimp only
    split_ifs <;> exact ⟨rfl, rfl, rfl⟩

/-- Outside admission no effect brings an id into the queue. -/
theorem Effect.unfinishedIds_subset (hshape : Shape s)
    (hbatch : ∀ requests, e.operation ≠ .admitBatch requests) (heffect : Effect sha256 e s s')
    (hid : id ∈ s'.unfinishedIds) : id ∈ s.unfinishedIds := by
  cases heffect with
  | normalize =>
    have hrecords := Forall₂.map_eq (f := fun record => record.acceptedIds)
      (g := fun record => record.acceptedIds) hshape.normalizeLegacyRecords.unfinished
      fun _ _ hq => hq.acceptedIds
    rw [ReviewSchedulerState.unfinishedIds, List.flatMap_def] at hid ⊢
    rwa [← hrecords]
  | prune hop | enqueue hop | join hop | rearm _ hop => exact absurd hop (hbatch _)
  | record hrepl hstep =>
    have hids := hrepl.flatMap_eq (g := fun record => record.acceptedIds) hstep.request.2
    simpa only [ReviewSchedulerState.unfinishedIds, hids] using hid
  | settle record outcome => rwa [s.settleHead_eq] at hid
  | complete _ hrem | decline _ hrem =>
    have hperm := hrem.flatMap_perm fun record => record.acceptedIds
    exact hperm.mem_iff.mpr (List.mem_append_right _ hid)
  | pruneHistory | moveBudget | openBudget | payBudget | acknowledge => exact hid

/-- What holds of a record accepted under `id` goes on holding of it while it is queued. -/
structure Carried (sha256 : String → List UInt8) (e : Event) (id : ReviewJobId)
    (P : ScheduledReview → Prop) : Prop where
  accepted : ∀ {record}, RecordShape record → P record → id ∈ record.acceptedIds
  quiet : ∀ {record record'}, QuietRecord record record' → P record → P record'
  join : ∀ {s request record record' detached},
    ReviewSchedulerState.coalesceTarget s request = some record →
      JoinStep sha256 request record record' detached → P record → P record'
  step : ∀ {record record' detached}, RecordStep sha256 e record record' detached →
    P record → P record'

variable {P : ScheduledReview → Prop}

theorem Carried.of_quiet (h : Carried sha256 e id P) (hquiet : Quiet s s')
    (hs : ∃ record ∈ s.unfinished, P record) : ∃ record ∈ s'.unfinished, P record := by
  obtain ⟨record, hmem, hrecord⟩ := hs
  obtain ⟨record', hmem', hq⟩ := Forall₂.exists_right hquiet.unfinished hmem
  exact ⟨record', hmem', h.quiet hq hrecord⟩

/-- A record leaves the queue with all its ids. -/
theorem Carried.of_removed (h : Carried sha256 e id P) (hshape : Shape s)
    (hrem : Removed s.unfinished unfinished record) (hs : ∃ record ∈ s.unfinished, P record) :
    (∃ record ∈ unfinished, P record) ∨
      id ∉ unfinished.flatMap fun record => record.acceptedIds := by
  obtain ⟨current, hmem, hcurrent⟩ := hs
  rcases hrem.mem_cases_old hmem with rfl | hkept
  · exact .inr (hshape.removed_ids hrem (h.accepted (hshape.records _ hmem) hcurrent))
  · exact .inl ⟨current, hkept, hcurrent⟩

theorem Carried.effect (h : Carried sha256 e id P) (hshape : Shape s)
    (hs : ∃ record ∈ s.unfinished, P record) (heffect : Effect sha256 e s s') :
    (∃ record ∈ s'.unfinished, P record) ∨ id ∉ s'.unfinishedIds ∧
      ∀ requests, e.operation ≠ .admitBatch requests := by
  cases heffect with
  | normalize => exact .inl (h.of_quiet hshape.normalizeLegacyRecords hs)
  | enqueue =>
    obtain ⟨record, hmem, hrecord⟩ := hs
    exact .inl ⟨record, List.mem_append_left _ hmem, hrecord⟩
  | join _ _ hrepl htarget hstep => exact .inl (hrepl.exists_mem (h.join htarget hstep) hs)
  | record hrepl hstep => exact .inl (hrepl.exists_mem (h.step hstep) hs)
  | settle record outcome =>
    rw [s.settleHead_eq]
    exact .inl hs
  | complete hop hrem =>
    exact (h.of_removed hshape hrem hs).imp_right fun hgone =>
      ⟨hgone, fun requests hbad => by simp [hbad, Operation.finishes] at hop⟩
  | decline hop hrem =>
    exact (h.of_removed hshape hrem hs).imp_right fun hgone =>
      ⟨hgone, fun requests hbad => by simp [hbad] at hop⟩
  | prune | pruneHistory | rearm | moveBudget | openBudget | payBudget | acknowledge =>
    exact .inl hs

theorem Carried.perform (h : Carried sha256 e id P) (hshape : Shape s)
    (hs : ∃ record ∈ s.unfinished, P record) :
    (∃ record ∈ (ReviewJob.perform sha256 s e).1.unfinished, P record) ∨
      id ∉ (ReviewJob.perform sha256 s e).1.unfinishedIds := by
  rcases perform_cases sha256 s e with hquiet | hchain
  · exact .inl (h.of_quiet hquiet hs)
  · generalize (ReviewJob.perform sha256 s e).1 = s' at hchain ⊢
    have hboth : Shape s' ∧ ((∃ record ∈ s'.unfinished, P record) ∨
        id ∉ s'.unfinishedIds ∧ ∀ requests, e.operation ≠ .admitBatch requests) := by
      induction hchain with
      | refl => exact ⟨hshape, .inl hs⟩
      | tail _ hlast ih =>
        refine ⟨ih.1.effect hlast, ?_⟩
        rcases ih.2 with hkept | ⟨hgone, hbatch⟩
        · exact h.effect ih.1 hkept hlast
        · exact .inr ⟨fun hbad => hgone (hlast.unfinishedIds_subset ih.1 hbatch hbad), hbatch⟩
    exact hboth.2.imp_right fun hgone => hgone.1

theorem carried_lineage : Carried sha256 e id fun record =>
    record.acceptedIds.head? = some id ∧ generation ≤ record.generation where
  accepted _ h := List.mem_of_mem_head? h.1
  quiet hquiet h := by
    rw [hquiet.acceptedIds, hquiet.generation]
    exact h
  join _ hstep h := by
    rw [hstep.acceptedIds, List.head?_append, h.1]
    exact ⟨rfl, h.2.trans hstep.lease.2.1.ge⟩
  step hstep h := by
    rw [hstep.request.2]
    exact ⟨h.1, h.2.trans hstep.generation_le⟩

theorem perform_lineage (sha256 : String → List UInt8) (hshape : Shape s)
    (h : Lineage s id generation) (e : Event) :
    Lineage (perform sha256 s e).1 id generation ∨ id ∉ (perform sha256 s e).1.unfinishedIds :=
  carried_lineage.perform hshape h

/-- While its first id stays in the queue, a record's generation never falls back. -/
theorem after_lineage (sha256 : String → List UInt8) {c : Clocked} (events : List Event)
    (hshape : Shape c.state) (h : Lineage c.state id generation)
    (hkept : ∀ kept, kept <+: events → id ∈ (after sha256 c kept).state.unfinishedIds) :
    Lineage (after sha256 c events).state id generation := by
  induction events generalizing c with
  | nil => exact h
  | cons e events ih =>
    have hnext := hkept [e] ⟨events, rfl⟩
    rcases perform_lineage sha256 hshape h e with hline | hgone
    · refine ih (c := tick sha256 c e) (hshape.perform sha256 e) hline fun kept hopens => ?_
      exact hkept (e :: kept) ((List.prefix_cons_inj e).mpr hopens)
    · exact absurd hnext hgone

theorem claimNextWithLimit_claimed {owner : String} {limit : ℕ}
    (h : (s.claimNextWithLimit owner nowMs limit).2 = some owned) :
    ∃ record ∈ s.unfinished, owned.acceptedIds = record.acceptedIds ∧
      owned.generation = record.generation + 1 ∧
      record.claim owner nowMs ∈ (s.claimNextWithLimit owner nowMs limit).1.unfinished := by
  unfold ReviewSchedulerState.claimNextWithLimit at h ⊢
  split_ifs at h ⊢ with hfull
  cases hfind : s.unfinished.find? (isEligible s nowMs) with
  | none => simp [hfind] at h
  | some record =>
    simp only [hfind, Option.some.injEq] at h
    subst h
    refine ⟨record, List.mem_of_find?_eq_some hfind, ?_, ?_, ?_⟩
    · rw [ScheduledReview.claim_eq]
    · rw [ScheduledReview.claim_eq]
    · exact (updateFirst_replaced _ hfind).mem_new

theorem perform_claimed (h : (perform sha256 s e).2 = .claimed (some owned)) :
    ∃ owner limit, e.operation = .claimNextWithLimit owner limit ∧
      (s.claimNextWithLimit owner e.nowMs limit).2 = some owned := by
  unfold perform at h
  cases hop : e.operation with
  | claimNextWithLimit owner limit =>
    rw [hop] at h
    exact ⟨owner, limit, rfl, Reply.claimed.inj h⟩
  | _ => simp [hop] at h

theorem perform_claimed_lineage (h : (perform sha256 s e).2 = .claimed (some owned))
    (hid : owned.acceptedIds.head? = some id) :
    Lineage (perform sha256 s e).1 id owned.generation := by
  obtain ⟨owner, limit, hop, hclaimed⟩ := perform_claimed h
  obtain ⟨record, -, hids, hgeneration, hmem⟩ := claimNextWithLimit_claimed hclaimed
  refine ⟨record.claim owner e.nowMs, by simpa only [perform, hop] using hmem, ?_, ?_⟩
  · rw [ScheduledReview.claim_eq, ← hid, hids]
  · rw [ScheduledReview.claim_eq, hgeneration]

/-- A claim hands out a generation beyond every one the record has had. -/
theorem Lineage.lt_claimed (hshape : Shape s) (hline : Lineage s id generation)
    (h : (perform sha256 s e).2 = .claimed (some owned)) (hid : owned.acceptedIds.head? = some id) :
    generation < owned.generation := by
  obtain ⟨owner, limit, -, hclaimed⟩ := perform_claimed h
  obtain ⟨record, hmem, hids, hgeneration, -⟩ := claimNextWithLimit_claimed hclaimed
  obtain ⟨current, hcurrent, hhead, hle⟩ := hline
  rw [hids] at hid
  have hsame := hshape.record_unique hcurrent hmem (List.mem_of_mem_head? hhead)
    (List.mem_of_mem_head? hid)
  rw [hgeneration, ← hsame]
  omega

/-- Two handles of one request that are both live name the same owner and generation. -/
theorem Shape.live_unique (hshape : Shape s) {other : OwnedReview}
    (hrequest : owned.request.id = other.request.id) (hlive : ¬ Stale s owned nowMs)
    (hother : ¬ Stale s other nowMs) :
    owned.owner = other.owner ∧ owned.generation = other.generation := by
  simp only [Stale, not_forall, not_or, not_not] at hlive hother
  obtain ⟨a, ha, hida, howna, hgena, -⟩ := hlive
  obtain ⟨b, hb, hidb, hownb, hgenb, -⟩ := hother
  have hia := (hshape.records a ha).accepted
  have hib := (hshape.records b hb).accepted
  rw [hidb, ← hrequest, ← hida] at hib
  have hsame := hshape.record_unique ha hb hia hib
  subst hsame
  exact ⟨Option.some.inj (howna.symm.trans hownb), hgena.symm.trans hgenb⟩

/-- Every claim of the run uses a limit of at most `bound`. -/
def ClaimsWithin (bound : ℕ) (_ : ReviewSchedulerState) (e : Event) : Prop :=
  ∀ owner limit, e.operation = .claimNextWithLimit owner limit → limit ≤ bound

theorem isRunning_mono (hle : nowMs ≤ later) (h : isRunning later record = true) :
    isRunning nowMs record = true := by
  simp only [isRunning, Bool.and_eq_true, decide_eq_true_eq] at h ⊢
  exact ⟨h.1, lt_of_le_of_lt hle h.2⟩

theorem runningOwners_mono (hle : nowMs ≤ later) : s.runningOwners later ≤ s.runningOwners nowMs :=
  List.countP_mono_left fun _ _ => isRunning_mono hle

/-- Apart from claims, a record runs afterwards only if its lease was live. -/
theorem RecordStep.running (hclaim : ∀ owner limit, e.operation ≠ .claimNextWithLimit owner limit)
    (h : RecordStep sha256 e record record' detached) (hle : e.nowMs ≤ later)
    (hrunning : isRunning later record' = true) : isRunning e.nowMs record = true := by
  have howned {owned : OwnedReview} (howns : ownsUnexpired owned e.nowMs record = true) :
      isRunning e.nowMs record = true := by
    simp only [isRunning, ownsUnexpired_isSome howns, Bool.true_and]
    exact decide_eq_true (ownsUnexpired_iff.mp howns).2
  cases h with
  | resolve => exact isRunning_mono hle hrunning
  | claim hop => exact absurd hop (hclaim _ _)
  | pay => exact isRunning_mono hle hrunning
  | renew howns | bind _ howns | spend _ howns | conclude _ howns | rebind _ howns
  | release howns | yieldTo howns => exact howned howns

theorem Effect.runningOwners_le
    (hclaim : ∀ owner limit, e.operation ≠ .claimNextWithLimit owner limit)
    (heffect : Effect sha256 e s s') (hle : e.nowMs ≤ later) :
    s'.runningOwners later ≤ s.runningOwners e.nowMs := by
  cases heffect with
  | normalize =>
    refine le_trans (le_of_eq ?_) (runningOwners_mono hle)
    simp only [ReviewSchedulerState.runningOwners, ReviewSchedulerState.normalizeLegacyRecords,
      List.countP_map]
    rfl
  | enqueue =>
    refine le_trans (le_of_eq ?_) (runningOwners_mono hle)
    simp [ReviewSchedulerState.runningOwners, ScheduledReview.enqueue, isRunning]
  | join _ _ hrepl _ hstep =>
    refine hrepl.countP_le (fun _ => isRunning_mono hle) fun hrunning => isRunning_mono hle ?_
    simpa only [isRunning, hstep.lease.1, hstep.lease.2.2] using hrunning
  | record hrepl hstep =>
    exact hrepl.countP_le (fun _ => isRunning_mono hle) (hstep.running hclaim hle)
  | settle record outcome =>
    rw [s.settleHead_eq]
    exact runningOwners_mono hle
  | complete _ hrem | decline _ hrem =>
    exact (hrem.sublist.countP_le).trans (runningOwners_mono hle)
  | prune | pruneHistory | rearm | moveBudget | openBudget | payBudget | acknowledge =>
    exact runningOwners_mono hle

theorem Quiet.runningOwners (h : Quiet s s') (nowMs : ℤ) :
    s'.runningOwners nowMs = s.runningOwners nowMs := by
  have hlength := Forall₂.filter_map_eq (p := isRunning nowMs) (q := isRunning nowMs)
    (f := fun _ => ()) (g := fun _ => ()) h.unfinished
    (fun _ _ hq => by simp only [isRunning, hq.owner, hq.ownerUntilMs]) fun _ _ _ => rfl
  have hcount := congrArg List.length hlength
  simp only [List.length_map, ← List.countP_eq_length_filter] at hcount
  exact hcount

theorem claimNextWithLimit_running {owner : String} {limit : ℕ} (hlimit : limit ≤ bound)
    (hle : nowMs ≤ later) (h : s.runningOwners nowMs ≤ bound) :
    (s.claimNextWithLimit owner nowMs limit).1.runningOwners later ≤ bound := by
  unfold ReviewSchedulerState.claimNextWithLimit
  split_ifs with hfull
  · exact (runningOwners_mono hle).trans h
  cases hfind : s.unfinished.find? (isEligible s nowMs) with
  | none => exact (runningOwners_mono hle).trans h
  | some record =>
    have hcount := (updateFirst_replaced (ScheduledReview.claim owner nowMs) hfind).countP
      (isRunning later)
    have hmono := runningOwners_mono (s := s) hle
    have hfree := not_le.mp hfull
    change (updateFirst _ _ s.unfinished).countP (isRunning later) ≤ bound
    change s.unfinished.countP (isRunning later) ≤ _ at hmono
    split_ifs at hcount <;> omega

theorem perform_running (hclaims : ClaimsWithin bound s e) (h : s.runningOwners e.nowMs ≤ bound)
    (hle : e.nowMs ≤ later) : (perform sha256 s e).1.runningOwners later ≤ bound := by
  by_cases hclaim : ∃ owner limit, e.operation = .claimNextWithLimit owner limit
  · obtain ⟨owner, limit, hop⟩ := hclaim
    simpa only [perform, hop] using claimNextWithLimit_running (hclaims owner limit hop) hle h
  · simp only [not_exists] at hclaim
    rcases perform_cases sha256 s e with hquiet | hchain
    · rw [hquiet.runningOwners]
      exact (runningOwners_mono hle).trans h
    · generalize (perform sha256 s e).1 = s' at hchain ⊢
      induction hchain generalizing later with
      | refl => exact (runningOwners_mono hle).trans h
      | tail _ hlast ih => exact (hlast.runningOwners_le hclaim hle).trans (ih le_rfl)

theorem IsTimedRun.running {t : ℤ} {events : List Event}
    (h : IsTimedRun sha256 (ClaimsWithin bound) (.start t) events)
    (hnow : (after sha256 (.start t) events).nowMs ≤ nowMs) :
    (after sha256 (.start t) events).state.runningOwners nowMs ≤ bound := by
  refine Guarded.invariant (I := fun c : Clocked =>
    ∀ nowMs, c.nowMs ≤ nowMs → c.state.runningOwners nowMs ≤ bound) ?_
    (fun _ _ => Nat.zero_le _) h nowMs hnow
  rintro c e hrunning ⟨hclock, hclaims⟩ later hle
  exact perform_running hclaims (hrunning e.nowMs hclock) hle

/-- A stale handle is refused without effect by the ten operations of an owner, and a refund
changes one pair of counters. Claims of one record, named by its first accepted id, hand out
growing generations, so at most one handle of a request is live; with a clock that does not
go back, claims within `bound` keep at most `bound` owners unexpired. -/
theorem ownership_fenced (sha256 : String → List UInt8) (t : ℤ) :
    (∀ (s : ReviewSchedulerState) (e : Event) (owned : OwnedReview),
      e.operation.handle = some owned → Stale s owned e.nowMs →
        (perform sha256 s e).1 = s ∧ (perform sha256 s e).2.refuses = true) ∧
    (∀ (s : ReviewSchedulerState) (owned : OwnedReview) (headSha : String) (epoch : ℕ)
      (nowMs : ℤ), OnePaidPair s (s.refundPaid owned headSha epoch nowMs).1) ∧
    (∀ (before between : List Event) (e₁ e₂ : Event) (owned₁ owned₂ : OwnedReview)
      (id : ReviewJobId),
      (perform sha256 (after sha256 (.start t) before).state e₁).2 = .claimed (some owned₁) →
      (perform sha256 (after sha256 (.start t) (before ++ e₁ :: between)).state e₂).2 =
        .claimed (some owned₂) →
      owned₁.acceptedIds.head? = some id → owned₂.acceptedIds.head? = some id →
      (∀ kept, kept <+: between →
        id ∈ (after sha256 (.start t) (before ++ e₁ :: kept)).state.unfinishedIds) →
      owned₁.generation < owned₂.generation) ∧
    (∀ (events : List Event) (owned other : OwnedReview) (nowMs : ℤ),
      owned.request.id = other.request.id →
      ¬ Stale (after sha256 (.start t) events).state owned nowMs →
      ¬ Stale (after sha256 (.start t) events).state other nowMs →
      owned.owner = other.owner ∧ owned.generation = other.generation) ∧
    ∀ (bound : ℕ) (events : List Event),
      IsTimedRun sha256 (ClaimsWithin bound) (.start t) events →
      ∀ nowMs, (after sha256 (.start t) events).nowMs ≤ nowMs →
        (after sha256 (.start t) events).state.runningOwners nowMs ≤ bound := by
  refine ⟨fun s e owned hhandle hstale => perform_stale hhandle hstale,
    fun s owned headSha epoch nowMs => refundPaid_onePaidPair s owned headSha epoch nowMs,
    ?_, fun events owned other nowMs => (Shape.after sha256 t events).live_unique,
    fun bound events hrun nowMs hnow => hrun.running hnow⟩
  intro before between e₁ e₂ owned₁ owned₂ id hfirst hsecond hid₁ hid₂ hkept
  have hsplit (events : List Event) : after sha256 (.start t) (before ++ e₁ :: events) =
      after sha256 (tick sha256 (after sha256 (.start t) before) e₁) events :=
    after_append _ _ _
  have hshape := (Shape.after sha256 t before).perform sha256 e₁
  have hstart := perform_claimed_lineage hfirst hid₁
  have hline := after_lineage sha256
    (c := tick sha256 (after sha256 (.start t) before) e₁) between hshape hstart
    fun kept hopens => hsplit kept ▸ hkept kept hopens
  rw [hsplit] at hsecond
  exact hline.lt_claimed (hsplit between ▸ Shape.after sha256 t _) hsecond hid₂

/-- Two pull requests of which the second is ready for review. -/
def secondReady : List Event :=
  [⟨1, .admitBatch [push "a" "A", { push "b" "B" with number := 8 }]⟩,
    ⟨2, .claimPendingChecks 5⟩,
    ⟨3, .recordQueuedCheckId (sampleClaim "b" "B" 2) 11⟩]

/-- The bound on unexpired owners fails when the clock goes back to renew a lapsed lease. -/
theorem ownership_fenced_clock :
    ∃ (events : List Event) (nowMs : ℤ), IsRun sampleSha256 (ClaimsWithin 1) (.start 0) events ∧
      ¬ (after sampleSha256 (.start 0) events).state.runningOwners nowMs ≤ 1 := by
  refine ⟨secondReady ++ [⟨4, .claimNextWithLimit "w1" 1⟩,
    ⟨5, .recordQueuedCheckId (sampleClaim "a" "A" 2) 12⟩, ⟨200000, .claimNextWithLimit "w2" 1⟩,
    ⟨150000, .renew (sampleHandle (push "b" "B") "w1" 1)⟩], 200000, ?_, by decide⟩
  simp [IsRun, Guarded, ClaimsWithin, secondReady]

/-- A worker's lease lapses, its successor gets a later generation, and the old handle is
refused; meanwhile one owner is unexpired. -/
theorem ownership_fenced_successor :
    (∃ owned₁ owned₂,
      (perform sampleSha256 (after sampleSha256 (.start 0) secondReady).state
        ⟨4, .claimNextWithLimit "w1" 1⟩).2 = .claimed (some owned₁) ∧
      (perform sampleSha256 (after sampleSha256 (.start 0)
        (secondReady ++ [⟨4, .claimNextWithLimit "w1" 1⟩])).state
        ⟨200000, .claimNextWithLimit "w2" 1⟩).2 = .claimed (some owned₂) ∧
      owned₁.generation < owned₂.generation) ∧
    (perform sampleSha256 (after sampleSha256 (.start 0)
      (secondReady ++ [⟨4, .claimNextWithLimit "w1" 1⟩])).state
      ⟨200000, .renew (sampleHandle (push "b" "B") "w1" 1)⟩).2.refuses = true ∧
    (after sampleSha256 (.start 0)
      (secondReady ++ [⟨4, .claimNextWithLimit "w1" 1⟩])).state.runningOwners 6 ≤ 1 := by
  have hfence := ownership_fenced sampleSha256 0
  refine ⟨⟨((after sampleSha256 (.start 0) secondReady).state.claimNextWithLimit "w1" 4 1).2.get
      (by decide), ((after sampleSha256 (.start 0)
      (secondReady ++ [⟨4, .claimNextWithLimit "w1" 1⟩])).state.claimNextWithLimit
      "w2" 200000 1).2.get (by decide), ?_, ?_, ?_⟩, ?_, ?_⟩
  · exact congrArg Reply.claimed (Option.some_get _).symm
  · exact congrArg Reply.claimed (Option.some_get _).symm
  · refine hfence.2.2.1 secondReady [] ⟨4, .claimNextWithLimit "w1" 1⟩
      ⟨200000, .claimNextWithLimit "w2" 1⟩ _ _ ⟨"b"⟩ ?_ ?_ (by decide) (by decide) ?_
    · exact congrArg Reply.claimed (Option.some_get _).symm
    · exact congrArg Reply.claimed (Option.some_get _).symm
    · intro kept hopens
      rw [List.prefix_nil.mp hopens]
      decide
  · exact (hfence.1 _ _ _ rfl (by decide)).2
  · refine hfence.2.2.2.2 1 _ ?_ 6 (by decide)
    simp [IsTimedRun, Guarded, ClaimsWithin, secondReady, Clocked.start, tick]

end TinySweeper.ReviewJob
