import TinySweeper.ReviewJob.Confirmation

/-!
# Check identities

The external id of a check is the digest of a job id and a head. An operation moves
identities between records and `retired_checks`, drops some, and mints at most one for each
delivery or reconciliation; they stay distinct as long as none is minted that still waits in
`retired_checks` for its conclusion.
-/

namespace TinySweeper.ReviewJob

open FirstMatch Runs

variable {sha256 : String → List UInt8} {e : Event} {s s' : ReviewSchedulerState}
variable {P : Set (ReviewJobId × String)}
variable {record record' : ScheduledReview} {unfinished : List ScheduledReview}
variable {detached : List RetiredReviewCheck} {request : ReviewRequest}

/-- The head a check reports on and its external id. -/
def ReviewCheckRecord.key (check : ReviewCheckRecord) : String × String :=
  (check.headSha, check.externalId)

def ScheduledReview.checkKeys (record : ScheduledReview) : List (String × String) :=
  record.reviewChecks.map ReviewCheckRecord.key

def retiredKeys (retired : List RetiredReviewCheck) : List (String × String) :=
  retired.map fun entry => entry.check.key

def ReviewSchedulerState.checkKeys (s : ReviewSchedulerState) : List (String × String) :=
  s.unfinished.flatMap ScheduledReview.checkKeys ++ retiredKeys s.retiredChecks

/-- The external ids of every check the journal holds, active and retired. -/
def ReviewSchedulerState.externalIds (s : ReviewSchedulerState) : List String :=
  s.checkKeys.map Prod.snd

/-- The key of the check minted for this job and head. -/
def mintedKey (sha256 : String → List UInt8) (identity : ReviewJobId × String) :
    String × String :=
  (identity.2, queuedCheckExternalId sha256 identity.1 identity.2)

theorem retiredKeys_append (retired detached : List RetiredReviewCheck) :
    retiredKeys (retired ++ detached) = retiredKeys retired ++ retiredKeys detached :=
  List.map_append

/-- Replacing a record and retiring what it detached, counted in keys. -/
theorem checkKeys_of_replaced (minted : List (String × String))
    (hrepl : Replaced s.unfinished unfinished record record')
    (hunfinished : s'.unfinished = unfinished)
    (hretired : s'.retiredChecks = s.retiredChecks ++ detached)
    (hkeys : (record'.checkKeys ++ retiredKeys detached).Subperm (minted ++ record.checkKeys)) :
    s'.checkKeys.Subperm (minted ++ s.checkKeys) := by
  obtain ⟨rest, hold, hnew⟩ := hrepl.flatMap_perm ScheduledReview.checkKeys
  rw [← Multiset.coe_le] at hkeys ⊢
  rw [← Multiset.coe_eq_coe] at hold hnew
  simp only [ReviewSchedulerState.checkKeys, hunfinished, hretired, retiredKeys_append,
    ← Multiset.coe_add] at hold hnew hkeys ⊢
  rw [hold, hnew]
  calc
    _ = (record'.checkKeys + retiredKeys detached : Multiset (String × String)) +
        (rest + retiredKeys s.retiredChecks) := by abel
    _ ≤ (minted + record.checkKeys : Multiset (String × String)) +
        (rest + retiredKeys s.retiredChecks) := add_le_add_left hkeys _
    _ = _ := by abel

theorem checkKeys_of_removed (detached : List RetiredReviewCheck)
    (hrem : Removed s.unfinished unfinished record) (hunfinished : s'.unfinished = unfinished)
    (hretired : s'.retiredChecks = s.retiredChecks ++ detached)
    (hkeys : (retiredKeys detached).Subperm record.checkKeys) :
    s'.checkKeys.Subperm s.checkKeys := by
  have hperm := hrem.flatMap_perm ScheduledReview.checkKeys
  rw [← Multiset.coe_le] at hkeys ⊢
  rw [← Multiset.coe_eq_coe] at hperm
  simp only [ReviewSchedulerState.checkKeys, hunfinished, hretired, retiredKeys_append,
    ← Multiset.coe_add] at hperm hkeys ⊢
  rw [hperm]
  calc
    _ = (retiredKeys detached : Multiset (String × String)) +
        (unfinished.flatMap ScheduledReview.checkKeys + retiredKeys s.retiredChecks) := by abel
    _ ≤ (record.checkKeys : Multiset (String × String)) +
        (unfinished.flatMap ScheduledReview.checkKeys + retiredKeys s.retiredChecks) :=
      add_le_add_left hkeys _
    _ = _ := by abel

/-- Detaching moves or drops keys. -/
theorem detach_checkKeys (record : ScheduledReview) (keepHead preserve : Option String) :
    ((detachChecksExceptPreserving record keepHead preserve).1.checkKeys ++
      retiredKeys (detachChecksExceptPreserving record keepHead preserve).2).Subperm
        record.checkKeys := by
  apply filter_filterMap_subperm
  intro check entry hentry
  unfold retireDetached at hentry
  split_ifs at hentry with hkeep
  · constructor
    · simpa using hkeep
    · rw [← Option.some.inj hentry]
      rfl

theorem updateFirst_map_key {p : ReviewCheckRecord → Bool}
    {f : ReviewCheckRecord → ReviewCheckRecord} (hf : ∀ check, (f check).key = check.key)
    (checks : List ReviewCheckRecord) :
    (updateFirst p f checks).map ReviewCheckRecord.key = checks.map ReviewCheckRecord.key :=
  Forall₂.map_eq (forall₂_updateFirst
    (R := fun check check' : ReviewCheckRecord => check'.key = check.key)
    (fun _ => rfl) (fun check _ => hf check) checks) fun _ _ h => h

theorem claim_checkKeys (owner : String) (nowMs : ℤ) (record : ScheduledReview) :
    (record.claim owner nowMs).checkKeys = record.checkKeys := by
  unfold ScheduledReview.claim ScheduledReview.updateHeadCheck
  split
  · rfl
  · exact updateFirst_map_key (by intro; rfl) _

/-- Binding mints the identity of the record's own request, if the head has no check. -/
theorem bindCheck_checkKeys (sha256 : String → List UInt8) (headSha : String) (generation : ℕ)
    (record : ScheduledReview) :
    (record.bindCheck sha256 headSha generation).1.checkKeys = record.checkKeys ++
      if record.reviewChecks.any (fun check => check.headSha == headSha) then []
      else [mintedKey sha256 (record.request.id, headSha)] := by
  unfold ScheduledReview.bindCheck
  rw [← List.isSome_find?]
  cases record.reviewChecks.find? (fun check => check.headSha == headSha) with
  | none => simp [ScheduledReview.checkKeys, mintedKey, queuedCheck, ReviewCheckRecord.key]
  | some check =>
    simp only [Option.isSome_some, if_true, List.append_nil]
    exact updateFirst_map_key (by intro; rfl) _

theorem resolveHead_checkKeys (sha256 : String → List UInt8) (headSha : String)
    (job : ScheduledReview) :
    (job.resolveHead sha256 headSha).checkKeys = job.checkKeys ++
      if job.reviewChecks.any (fun check => check.headSha == headSha) then []
      else [mintedKey sha256 (job.request.id, headSha)] := by
  unfold ScheduledReview.resolveHead ScheduledReview.checkKeys
  dsimp only
  split_ifs
  · simp
  · simp [mintedKey, queuedCheck, ReviewCheckRecord.key]

/-- The identity an admitted request is queued under, unless its head already has a check. -/
def mintedByRequest (s : ReviewSchedulerState) (request : ReviewRequest) :
    List (ReviewJobId × String) :=
  match request.headSha with
  | none => []
  | some headSha =>
    if (s.coalesceTarget request).any fun record =>
        record.reviewChecks.any fun check => check.headSha == headSha then []
    else [(request.id, headSha)]

theorem acceptDelivery_checkKeys (sha256 : String → List UInt8)
    (htarget : s.coalesceTarget request = some record) :
    (record.acceptDelivery sha256 request).checkKeys =
      record.checkKeys ++ (mintedByRequest s request).map (mintedKey sha256) := by
  unfold mintedByRequest ScheduledReview.acceptDelivery ScheduledReview.checkKeys
  cases request.headSha with
  | none => simp
  | some headSha =>
    simp only [htarget, Option.any_some]
    split_ifs <;> simp [mintedKey, queuedCheck, ReviewCheckRecord.key]

theorem JoinStep.checkKeys (h : JoinStep sha256 request record record' detached)
    (htarget : s.coalesceTarget request = some record) :
    (record'.checkKeys ++ retiredKeys detached).Subperm
      ((mintedByRequest s request).map (mintedKey sha256) ++ record.checkKeys) := by
  cases h with
  | keep =>
    simp only [retiredKeys, List.map_nil, List.append_nil]
    exact (List.sublist_append_right _ _).subperm
  | coalesce =>
    have haccepted : (record.acceptDelivery sha256 request).checkKeys.Perm
        ((mintedByRequest s request).map (mintedKey sha256) ++ record.checkKeys) := by
      rw [acceptDelivery_checkKeys sha256 htarget]
      exact List.perm_append_comm
    unfold ScheduledReview.coalesce
    dsimp only
    split_ifs
    · rw [retiredKeys, List.map_nil, List.append_nil]
      exact haccepted.subperm
    · exact (detach_checkKeys _ _ _).trans haccepted.subperm
    · rw [retiredKeys, List.map_nil, List.append_nil]
      exact haccepted.subperm

theorem RecordStep.checkKeys (hmint : e.operation.mints = false)
    (h : RecordStep sha256 e record record' detached) :
    (record'.checkKeys ++ retiredKeys detached).Subperm record.checkKeys := by
  cases h with
  | resolve hop | conclude hop | rebind hop => simp [hop, Operation.mints] at hmint
  | claim =>
    rw [claim_checkKeys]
    simp [retiredKeys, List.Subperm.refl]
  | renew | pay | bind | spend | release =>
    simp only [retiredKeys, List.map_nil, List.append_nil]
    exact List.Subperm.refl _
  | yieldTo => exact detach_checkKeys _ _ _

/-- Every check of the record was minted for a job it has accepted. -/
def KeyedRecord (sha256 : String → List UInt8) (P : Set (ReviewJobId × String))
    (record : ScheduledReview) : Prop :=
  ∀ key ∈ record.checkKeys, ∃ job ∈ record.acceptedIds,
    (job, key.1) ∈ P ∧ key = mintedKey sha256 (job, key.1)

structure Keyed (sha256 : String → List UInt8) (P : Set (ReviewJobId × String))
    (s : ReviewSchedulerState) : Prop where
  records : ∀ record ∈ s.unfinished, KeyedRecord sha256 P record
  distinct : s.externalIds.Nodup

theorem KeyedRecord.mono (h : KeyedRecord sha256 P record)
    (hids : record.acceptedIds ⊆ record'.acceptedIds)
    (hkeys : record'.checkKeys ⊆ record.checkKeys) : KeyedRecord sha256 P record' := by
  intro key hkey
  obtain ⟨job, hjob, hP, hsame⟩ := h key (hkeys hkey)
  exact ⟨job, hids hjob, hP, hsame⟩

/-- A record may take on identities minted for a job it accepts. -/
theorem KeyedRecord.mint (identities : List (ReviewJobId × String))
    (h : KeyedRecord sha256 P record) (hids : record.acceptedIds ⊆ record'.acceptedIds)
    (hminted : ∀ identity ∈ identities, identity ∈ P ∧ identity.1 ∈ record'.acceptedIds)
    (hkeys : record'.checkKeys ⊆ identities.map (mintedKey sha256) ++ record.checkKeys) :
    KeyedRecord sha256 P record' := by
  intro key hkey
  rcases List.mem_append.mp (hkeys hkey) with hnew | hold
  · obtain ⟨identity, hmem, rfl⟩ := List.mem_map.mp hnew
    obtain ⟨hP, hjob⟩ := hminted identity hmem
    exact ⟨identity.1, hjob, hP, rfl⟩
  · obtain ⟨job, hjob, hP, hsame⟩ := h key hold
    exact ⟨job, hids hjob, hP, hsame⟩

theorem externalIds_subperm (minted : List (String × String))
    (h : s'.checkKeys.Subperm (minted ++ s.checkKeys)) :
    s'.externalIds.Subperm (minted.map Prod.snd ++ s.externalIds) := by
  obtain ⟨keys, hperm, hsub⟩ := h
  refine ⟨keys.map Prod.snd, hperm.map Prod.snd, ?_⟩
  rw [ReviewSchedulerState.externalIds, ← List.map_append]
  exact hsub.map Prod.snd

/-- An edit that mints nothing keeps identities distinct. -/
theorem nodup_of_subperm {l l' : List String} (h : l'.Subperm l) (hl : l.Nodup) : l'.Nodup := by
  obtain ⟨k, hperm, hsub⟩ := h
  exact hperm.nodup_iff.mp (hl.sublist hsub)

theorem Keyed.of_subperm (h : Keyed sha256 P s) (hkeys : s'.checkKeys.Subperm s.checkKeys)
    (hrecords : ∀ record ∈ s'.unfinished, KeyedRecord sha256 P record) : Keyed sha256 P s' :=
  ⟨hrecords, nodup_of_subperm (externalIds_subperm [] hkeys) h.distinct⟩

theorem Quiet.checkKeys (hquiet : Quiet s s') : s'.checkKeys = s.checkKeys := by
  have hrecords : s'.unfinished.map ScheduledReview.checkKeys =
      s.unfinished.map ScheduledReview.checkKeys :=
    Forall₂.map_eq hquiet.unfinished fun record record' hq =>
      Forall₂.map_eq hq.reviewChecks fun check check' hsame => by
        simp [ReviewCheckRecord.key, hsame.headSha, hsame.externalId]
  have hretired : retiredKeys s'.retiredChecks = retiredKeys s.retiredChecks :=
    Forall₂.map_eq hquiet.retiredChecks fun entry entry' hsame => by
      simp [ReviewCheckRecord.key, hsame.check.headSha, hsame.check.externalId]
  simp only [ReviewSchedulerState.checkKeys, List.flatMap_def, hrecords, hretired]

theorem Keyed.quiet (h : Keyed sha256 P s) (hquiet : Quiet s s') : Keyed sha256 P s' := by
  apply h.of_subperm
  · rw [hquiet.checkKeys]
  · intro record' hmem
    obtain ⟨record, hrecord, hq⟩ := Forall₂.exists_left hquiet.unfinished hmem
    apply (h.records record hrecord).mono
    · rw [hq.acceptedIds]
      exact List.Subset.refl _
    · have hsame : record'.checkKeys = record.checkKeys :=
        Forall₂.map_eq hq.reviewChecks fun check check' hcheck => by
          simp [ReviewCheckRecord.key, hcheck.headSha, hcheck.externalId]
      rw [hsame]
      exact List.Subset.refl _

/-- Completion retires each check at most once. -/
theorem foldl_retireCheck_keys (record : ScheduledReview) (checks : List ReviewCheckRecord)
    (retired : List RetiredReviewCheck) : ∃ extra,
      checks.foldl (retireCheck record) retired = retired ++ extra ∧
        (retiredKeys extra).Sublist (checks.map ReviewCheckRecord.key) := by
  induction checks generalizing retired with
  | nil => exact ⟨[], (List.append_nil _).symm, List.Sublist.slnil⟩
  | cons check checks ih =>
    obtain ⟨extra, hfold, hsub⟩ := ih (retireCheck record retired check)
    rw [List.foldl_cons, hfold]
    unfold retireCheck
    split_ifs
    · exact ⟨extra, rfl, hsub.cons _⟩
    · refine ⟨_ :: extra, by rw [List.append_assoc]; rfl, ?_⟩
      exact hsub.cons_cons _

theorem Keyed.effect (hmint : e.operation.mints = false) (hshape : Shape s)
    (h : Keyed sha256 P s) (heffect : Effect sha256 e s s') : Keyed sha256 P s' := by
  cases heffect with
  | normalize => exact h.quiet hshape.normalizeLegacyRecords
  | prune hop | rearm _ hop | enqueue hop | join hop | decline hop =>
    simp [hop, Operation.mints] at hmint
  | pruneHistory | moveBudget | openBudget | payBudget => exact ⟨h.records, h.distinct⟩
  | settle record outcome =>
    rw [s.settleHead_eq]
    exact ⟨h.records, h.distinct⟩
  | record hrepl hstep =>
    have hkeys := hstep.checkKeys hmint
    apply h.of_subperm (checkKeys_of_replaced [] hrepl rfl rfl hkeys)
    apply hrepl.forall_mem h.records
    apply (h.records _ hrepl.mem_old).mono
    · rw [hstep.request.2]
      exact List.Subset.refl _
    · exact ((List.sublist_append_left _ _).subperm.trans hkeys).subset
  | @complete record unfinished outcome expiresAtMs hop hrem =>
    obtain ⟨extra, hfold, hsub⟩ := foldl_retireCheck_keys record
      (record.reviewChecks.filter (needsRetirement record outcome)) s.retiredChecks
    apply h.of_subperm
    · apply checkKeys_of_removed extra hrem rfl hfold
      exact (hsub.trans (List.filter_sublist.map _)).subperm
    · exact fun other hother => h.records other (hrem.sublist.subset hother)
  | acknowledge hop hrem =>
    apply h.of_subperm
    · exact ((hrem.sublist.map _).append_left _).subperm
    · exact h.records

/-- The digest tells the identities in `P` apart. -/
def DistinctOn (sha256 : String → List UInt8) (P : Set (ReviewJobId × String)) : Prop :=
  ∀ p ∈ P, ∀ q ∈ P, queuedCheckExternalId sha256 p.1 p.2 = queuedCheckExternalId sha256 q.1 q.2 →
    p = q

/-- The identity is not that of a check still awaiting its conclusion. -/
def unretired (sha256 : String → List UInt8) (s : ReviewSchedulerState)
    (identity : ReviewJobId × String) : Bool :=
  !s.retiredChecks.any
    (entryHasExternalId (queuedCheckExternalId sha256 identity.1 identity.2))

theorem not_mem_retired {identity : ReviewJobId × String} (h : unretired sha256 s identity = true) :
    queuedCheckExternalId sha256 identity.1 identity.2 ∉
      (retiredKeys s.retiredChecks).map Prod.snd := by
  intro hmem
  simp only [retiredKeys, List.map_map, List.mem_map, Function.comp_apply] at hmem
  obtain ⟨entry, hentry, hid⟩ := hmem
  have hany : s.retiredChecks.any
      (entryHasExternalId (queuedCheckExternalId sha256 identity.1 identity.2)) = true := by
    refine List.any_eq_true.mpr ⟨entry, hentry, ?_⟩
    simpa [entryHasExternalId, hasExternalId, ReviewCheckRecord.key] using hid
  simp [unretired, hany] at h

/-- An identity no record has minted and that is not retired is new to the journal. -/
theorem Keyed.not_mem_externalIds (h : Keyed sha256 P s) (hinj : DistinctOn sha256 P)
    {identity : ReviewJobId × String} (hP : identity ∈ P)
    (hretired : queuedCheckExternalId sha256 identity.1 identity.2 ∉
      (retiredKeys s.retiredChecks).map Prod.snd)
    (hactive : ∀ record ∈ s.unfinished, identity.1 ∈ record.acceptedIds →
      ∀ key ∈ record.checkKeys, key.1 ≠ identity.2) :
    queuedCheckExternalId sha256 identity.1 identity.2 ∉ s.externalIds := by
  intro hmem
  rw [ReviewSchedulerState.externalIds, ReviewSchedulerState.checkKeys, List.map_append,
    List.mem_append] at hmem
  rcases hmem with hmem | hmem
  · obtain ⟨key, hkey, hid⟩ := List.mem_map.mp hmem
    obtain ⟨record, hrecord, hkey⟩ := List.mem_flatMap.mp hkey
    obtain ⟨job, hjob, hPjob, hsame⟩ := h.records record hrecord key hkey
    rw [hsame] at hid
    have heq := hinj (job, key.1) hPjob identity hP hid
    have hjobs : job = identity.1 := congrArg Prod.fst heq
    exact hactive record hrecord (hjobs ▸ hjob) key hkey (congrArg Prod.snd heq)
  · exact hretired hmem

/-- Minting a new identity keeps identities distinct. -/
theorem Keyed.of_minted (identity : ReviewJobId × String) (h : Keyed sha256 P s)
    (hnew : queuedCheckExternalId sha256 identity.1 identity.2 ∉ s.externalIds)
    (hkeys : s'.checkKeys.Subperm ([mintedKey sha256 identity] ++ s.checkKeys))
    (hrecords : ∀ record ∈ s'.unfinished, KeyedRecord sha256 P record) : Keyed sha256 P s' := by
  refine ⟨hrecords, nodup_of_subperm (externalIds_subperm _ hkeys) ?_⟩
  rw [List.map_singleton, List.singleton_append, List.nodup_cons]
  exact ⟨hnew, h.distinct⟩

/-- Without repetitions a record takes on at most one identity, of its own request. -/
theorem Keyed.mint (headSha : String) (h : Keyed sha256 P s) (hinj : DistinctOn sha256 P)
    (hshape : Shape s) (hrepl : Replaced s.unfinished unfinished record record')
    (hunfinished : s'.unfinished = unfinished)
    (hretired : s'.retiredChecks = s.retiredChecks ++ detached)
    (hids : record'.acceptedIds = record.acceptedIds)
    (hkeys : (record'.checkKeys ++ retiredKeys detached).Subperm
      ((if record.reviewChecks.any (fun check => check.headSha == headSha) then []
        else [mintedKey sha256 (record.request.id, headSha)]) ++ record.checkKeys))
    (hguard : record.reviewChecks.any (fun check => check.headSha == headSha) = false →
      (record.request.id, headSha) ∈ P ∧ unretired sha256 s (record.request.id, headSha) = true) :
    Keyed sha256 P s' := by
  have hold := h.records record hrepl.mem_old
  have haccepted := (hshape.records record hrepl.mem_old).accepted
  split_ifs at hkeys with hany
  · apply h.of_subperm (checkKeys_of_replaced [] hrepl hunfinished hretired hkeys)
    rw [hunfinished]
    apply hrepl.forall_mem h.records
    apply hold.mono
    · rw [hids]
      exact List.Subset.refl _
    · exact ((List.sublist_append_left _ _).subperm.trans hkeys).subset
  · rw [Bool.not_eq_true] at hany
    obtain ⟨hP, hunretired⟩ := hguard hany
    have hnew : queuedCheckExternalId sha256 record.request.id headSha ∉ s.externalIds := by
      apply h.not_mem_externalIds hinj hP (not_mem_retired hunretired)
      intro other hother hid key hkey hhead
      have heq := hshape.record_unique hother hrepl.mem_old hid haccepted
      subst heq
      obtain ⟨check, hcheck, rfl⟩ := List.mem_map.mp hkey
      have hbad := List.any_eq_false.mp hany check hcheck
      exact hbad (beq_iff_eq.mpr hhead)
    have hall := checkKeys_of_replaced [mintedKey sha256 (record.request.id, headSha)] hrepl
      hunfinished hretired hkeys
    refine Keyed.of_minted (record.request.id, headSha) h hnew hall ?_
    rw [hunfinished]
    apply hrepl.forall_mem h.records
    apply KeyedRecord.mint [(record.request.id, headSha)] hold
    · rw [hids]
      exact List.Subset.refl _
    · intro identity hmem
      rw [List.mem_singleton.mp hmem, hids]
      exact ⟨hP, haccepted⟩
    · exact ((List.sublist_append_left _ _).subperm.trans hkeys).subset

/-- The identities an event mints, read off the journal before it. -/
def mintedBy (sha256 : String → List UInt8) :
    ReviewSchedulerState → List ReviewRequest → List (ReviewJobId × String)
  | _, [] => []
  | s, request :: rest =>
    mintedByRequest s request ++ mintedBy sha256 (s.admitRequest sha256 request) rest

def minted (sha256 : String → List UInt8) (s : ReviewSchedulerState) (e : Event) :
    List (ReviewJobId × String) :=
  match e.operation with
  | .admitBatch requests =>
    if (s.prepared e.nowMs).admissionDecision requests = .admitted then
      mintedBy sha256 (s.prepared e.nowMs) requests
    else []
  | .resolvePendingMetadata pending headSha isOpen draft =>
    match s.unfinished.find? (holdsMetadataClaim pending e.nowMs) with
    | none => []
    | some job =>
      if !isOpen || draft || job.reviewChecks.any (fun check => check.headSha == headSha) then []
      else [(job.request.id, headSha)]
  | .reconcileLiveCheck owned headSha =>
    match s.unfinished.find? (ownsUnexpired owned e.nowMs) with
    | none => []
    | some record =>
      if mintsLiveCheck s owned record headSha e.nowMs then [(record.request.id, headSha)] else []
  | _ => []

theorem Keyed.resolved {pending : PendingReviewMetadata} {headSha : String} {isOpen draft : Bool}
    (h : Keyed sha256 P s) (hinj : DistinctOn sha256 P) (hshape : Shape s)
    (hop : e.operation = .resolvePendingMetadata pending headSha isOpen draft)
    (hguard : ∀ identity ∈ minted sha256 s e,
      identity ∈ P ∧ unretired sha256 s identity = true) :
    Keyed sha256 P (s.resolvePendingMetadata sha256 pending headSha isOpen draft e.nowMs).1 := by
  unfold ReviewSchedulerState.resolvePendingMetadata
  cases hfind : s.unfinished.find? (holdsMetadataClaim pending e.nowMs) with
  | none => exact h
  | some job =>
    simp only [minted, hop, hfind] at hguard
    dsimp only
    split_ifs with hclosed
    · have hrem := eraseP_removed hfind
      apply h.of_subperm
      · exact checkKeys_of_removed [] hrem rfl (List.append_nil _).symm List.nil_subperm
      · exact fun other hother => h.records other (hrem.sublist.subset hother)
    · have hrepl := updateFirst_replaced (ScheduledReview.resolveHead sha256 headSha) hfind
      refine Keyed.mint headSha h hinj hshape hrepl rfl (List.append_nil _).symm rfl ?_ ?_
      · rw [resolveHead_checkKeys, retiredKeys, List.map_nil, List.append_nil]
        exact List.perm_append_comm.subperm
      · intro hnone
        rw [Bool.not_eq_true] at hclosed
        simp only [hclosed, hnone, Bool.or_false, Bool.false_eq_true, if_false] at hguard
        exact hguard _ List.mem_cons_self

theorem Keyed.reconciled {owned : OwnedReview} {headSha : String}
    {r : ReviewSchedulerState × ReconciledReviewCheck} (h : Keyed sha256 P s)
    (hinj : DistinctOn sha256 P) (hshape : Shape s)
    (hop : e.operation = .reconcileLiveCheck owned headSha)
    (hguard : ∀ identity ∈ minted sha256 s e,
      identity ∈ P ∧ unretired sha256 s identity = true)
    (hstep : ReconcileStep sha256 s owned headSha e.nowMs r) : Keyed sha256 P r.1 := by
  cases hstep with
  | lost | deferred => exact h
  | refused hconfirm =>
    cases hconfirm with
    | lost => exact h
    | refused => exact ⟨h.records, h.distinct⟩
  | @concluded c record bound hroom hconfirm hfind hbound =>
    have hrepl := updateFirst_replaced
      (fun _ => (detachChecksExcept bound (some headSha)).1) hfind
    have hkeys : bound.checkKeys = record.checkKeys := by
      rw [hbound]
      rfl
    have hids : bound.acceptedIds = record.acceptedIds := by
      rw [hbound]
      rfl
    have hdetach := detach_checkKeys bound (some headSha) none
    rw [hkeys] at hdetach
    apply h.of_subperm (checkKeys_of_replaced [] hrepl rfl rfl hdetach)
    apply hrepl.forall_mem h.records
    apply (h.records _ hrepl.mem_old).mono
    · exact hids ▸ List.Subset.refl _
    · exact ((List.sublist_append_left _ _).subperm.trans hdetach).subset
  | @rebound c record bound reply hroom hconfirm hfind hbound hfound hopen =>
    have hrepl := updateFirst_replaced
      (fun _ => ((detachChecksExcept bound (some headSha)).1.bindCheck sha256 headSha
        owned.generation).1) hfind
    have hkeys : bound.checkKeys = record.checkKeys := by
      rw [hbound]
      rfl
    have hids : bound.acceptedIds = record.acceptedIds := by
      rw [hbound]
      rfl
    have hany : (detachChecksExcept bound (some headSha)).1.reviewChecks.any
        (fun check => check.headSha == headSha) =
          record.reviewChecks.any fun check => check.headSha == headSha := by
      rw [any_detachChecksExcept, hbound]
      rfl
    have hrequest : (detachChecksExcept bound (some headSha)).1.request.id = record.request.id := by
      rw [hbound]
      rfl
    have hdetach := detach_checkKeys bound (some headSha) none
    rw [hkeys] at hdetach
    refine Keyed.mint headSha h hinj hshape hrepl rfl rfl ?_ ?_ ?_
    · rw [ScheduledReview.bindCheck_eq]
      exact hids
    · rw [bindCheck_checkKeys, hany, hrequest, ← Multiset.coe_le]
      rw [← Multiset.coe_le] at hdetach
      simp only [← Multiset.coe_add] at hdetach ⊢
      rw [add_right_comm, add_comm]
      exact add_le_add_right hdetach _
    · intro hnone
      have hmints := mintsLiveCheck_of_rebound hroom hconfirm hfind hbound hopen hnone
      simp only [minted, hop, hfind, hmints, if_true] at hguard
      exact hguard _ List.mem_cons_self

theorem mintedByRequest_cases (s : ReviewSchedulerState) (request : ReviewRequest) :
    mintedByRequest s request = [] ∨
      ∃ headSha, mintedByRequest s request = [(request.id, headSha)] := by
  unfold mintedByRequest
  split
  · exact .inl rfl
  · split_ifs
    · exact .inl rfl
    · exact .inr ⟨_, rfl⟩

theorem enqueue_checkKeys (hnone : s.coalesceTarget request = none) :
    (ScheduledReview.enqueue sha256 request).checkKeys =
      (mintedByRequest s request).map (mintedKey sha256) := by
  unfold ScheduledReview.checkKeys ScheduledReview.enqueue mintedByRequest
  cases request.headSha with
  | none => rfl
  | some headSha => simp [hnone, mintedKey, queuedCheck, ReviewCheckRecord.key]

theorem Placed.checkKeys (h : Placed sha256 request s s') :
    s'.checkKeys.Subperm ((mintedByRequest s request).map (mintedKey sha256) ++ s.checkKeys) := by
  cases h with
  | enqueue hnone =>
    have hperm : (s.unfinished.flatMap ScheduledReview.checkKeys ++
        (mintedByRequest s request).map (mintedKey sha256) ++ retiredKeys s.retiredChecks).Perm
          ((mintedByRequest s request).map (mintedKey sha256) ++
            (s.unfinished.flatMap ScheduledReview.checkKeys ++ retiredKeys s.retiredChecks)) := by
      rw [← List.append_assoc]
      exact List.perm_append_comm.append_right _
    simp only [ReviewSchedulerState.checkKeys, List.flatMap_append, List.flatMap_singleton,
      enqueue_checkKeys hnone]
    exact hperm.subperm
  | join htarget hrepl hstep =>
    exact checkKeys_of_replaced _ hrepl rfl rfl (hstep.checkKeys htarget)

theorem Placed.keyedRecord (h : Placed sha256 request s s')
    (hrecords : ∀ record ∈ s.unfinished, KeyedRecord sha256 P record)
    (hP : ∀ identity ∈ mintedByRequest s request, identity ∈ P) :
    ∀ record ∈ s'.unfinished, KeyedRecord sha256 P record := by
  have hid : ∀ identity ∈ mintedByRequest s request, identity.1 = request.id := by
    intro identity hmem
    rcases mintedByRequest_cases s request with hnil | ⟨headSha, hone⟩
    · simp [hnil] at hmem
    · rw [hone, List.mem_singleton] at hmem
      rw [hmem]
  cases h with
  | enqueue hnone =>
    intro record hmem
    rcases List.mem_append.mp hmem with hold | hnew
    · exact hrecords record hold
    · rw [List.mem_singleton.mp hnew]
      intro key hkey
      rw [enqueue_checkKeys hnone] at hkey
      obtain ⟨identity, hidentity, rfl⟩ := List.mem_map.mp hkey
      refine ⟨identity.1, ?_, hP identity hidentity, rfl⟩
      rw [hid identity hidentity]
      exact List.mem_singleton.mpr rfl
  | join htarget hrepl hstep =>
    apply hrepl.forall_mem hrecords
    apply KeyedRecord.mint (mintedByRequest s request) (hrecords _ hrepl.mem_old)
    · rw [hstep.acceptedIds]
      exact List.subset_append_left _ _
    · intro identity hmem
      rw [hstep.acceptedIds, hid identity hmem]
      exact ⟨hP identity hmem, List.mem_append_right _ (List.mem_singleton.mpr rfl)⟩
    · exact ((List.sublist_append_left _ _).subperm.trans (hstep.checkKeys htarget)).subset

/-- Only checks of a record the request joined are retired by placing it. -/
theorem Placed.retiredKeys (h : Placed sha256 request s s') {key : String × String}
    (hkey : key ∈ retiredKeys s'.retiredChecks) :
    key ∈ retiredKeys s.retiredChecks ∨
      key ∈ (mintedByRequest s request).map (mintedKey sha256) ∨
        ∃ record ∈ s.unfinished, key ∈ record.checkKeys := by
  cases h with
  | enqueue => exact .inl hkey
  | join htarget hrepl hstep =>
    rw [retiredKeys_append] at hkey
    rcases List.mem_append.mp hkey with hold | hnew
    · exact .inl hold
    · have hsub := ((List.sublist_append_right _ _).subperm.trans (hstep.checkKeys htarget)).subset
      rcases List.mem_append.mp (hsub hnew) with hminted | hkept
      · exact .inr (.inl hminted)
      · exact .inr (.inr ⟨_, hrepl.mem_old, hkept⟩)

/-- Placing a request with a fresh id and an unretired identity. -/
theorem Keyed.placed (h : Keyed sha256 P s) (hinj : DistinctOn sha256 P)
    (hplaced : Placed sha256 request s s') (hfresh : request.id ∉ s.ids)
    (hguard : ∀ identity ∈ mintedByRequest s request, identity ∈ P ∧
      queuedCheckExternalId sha256 identity.1 identity.2 ∉
        (retiredKeys s.retiredChecks).map Prod.snd) : Keyed sha256 P s' := by
  have hkeys := hplaced.checkKeys
  have hrecords := hplaced.keyedRecord h.records fun identity hmem => (hguard identity hmem).1
  rcases mintedByRequest_cases s request with hnil | ⟨headSha, hone⟩
  · rw [hnil] at hkeys
    exact h.of_subperm hkeys hrecords
  · rw [hone] at hkeys hguard
    obtain ⟨hP, hretired⟩ := hguard _ List.mem_cons_self
    refine Keyed.of_minted (request.id, headSha) h ?_ hkeys hrecords
    apply h.not_mem_externalIds hinj hP hretired
    intro record hrecord hid
    exact absurd (List.mem_append_left _ (List.mem_flatMap.mpr ⟨record, hrecord, hid⟩)) hfresh

theorem mintedByRequest_job {identity : ReviewJobId × String}
    (h : identity ∈ mintedByRequest s request) : identity.1 = request.id := by
  rcases mintedByRequest_cases s request with hnil | ⟨headSha, hone⟩
  · simp [hnil] at h
  · rw [hone, List.mem_singleton] at h
    rw [h]

/-- What the admission loop carries; `retired` are the ids retired before the batch. -/
structure BatchKeyed (sha256 : String → List UInt8) (P : Set (ReviewJobId × String))
    (retired : List String) (s : ReviewSchedulerState) : Prop where
  keyed : Keyed sha256 P s
  origin : ∀ id ∈ (retiredKeys s.retiredChecks).map Prod.snd, id ∈ retired ∨
    ∃ identity ∈ P, identity.1 ∈ s.ids ∧
      id = queuedCheckExternalId sha256 identity.1 identity.2

theorem BatchKeyed.placed {retired : List String} (h : BatchKeyed sha256 P retired s)
    (hinj : DistinctOn sha256 P) (hplaced : Placed sha256 request s s')
    (hids : s'.ids.Perm (request.id :: s.ids)) (hfresh : request.id ∉ s.ids)
    (hminted : ∀ identity ∈ mintedByRequest s request, identity ∈ P ∧
      queuedCheckExternalId sha256 identity.1 identity.2 ∉ retired) :
    BatchKeyed sha256 P retired s' := by
  have hgrow : s.ids ⊆ s'.ids := fun id hid => hids.mem_iff.mpr (List.mem_cons_of_mem _ hid)
  constructor
  · apply h.keyed.placed hinj hplaced hfresh
    intro identity hmem
    obtain ⟨hP, hnew⟩ := hminted identity hmem
    refine ⟨hP, fun hbad => ?_⟩
    rcases h.origin _ hbad with hold | ⟨other, hother, hknown, hsame⟩
    · exact hnew hold
    · have heq := hinj identity hP other hother hsame
      rw [← heq, mintedByRequest_job hmem] at hknown
      exact hfresh hknown
  · intro id hid
    obtain ⟨key, hkey, rfl⟩ := List.mem_map.mp hid
    rcases hplaced.retiredKeys hkey with hold | hnew | ⟨record, hrecord, hkept⟩
    · rcases h.origin _ (List.mem_map_of_mem hold) with hbefore | ⟨other, hP, hknown, hsame⟩
      · exact .inl hbefore
      · exact .inr ⟨other, hP, hgrow hknown, hsame⟩
    · obtain ⟨identity, hmem, rfl⟩ := List.mem_map.mp hnew
      right
      refine ⟨identity, (hminted identity hmem).1, ?_, rfl⟩
      rw [mintedByRequest_job hmem]
      exact hids.mem_iff.mpr List.mem_cons_self
    · obtain ⟨job, hjob, hP, hsame⟩ := h.keyed.records record hrecord key hkept
      right
      refine ⟨(job, key.1), hP, hgrow ?_, congrArg Prod.snd hsame⟩
      exact List.mem_append_left _ (List.mem_flatMap.mpr ⟨record, hrecord, hjob⟩)

theorem BatchKeyed.admitRequest {retired : List String} (h : BatchKeyed sha256 P retired s)
    (hinj : DistinctOn sha256 P) (hfresh : request.id ∉ s.ids)
    (hminted : ∀ identity ∈ mintedByRequest s request, identity ∈ P ∧
      queuedCheckExternalId sha256 identity.1 identity.2 ∉ retired) :
    BatchKeyed sha256 P retired (s.admitRequest sha256 request) := by
  have hids := rearmed_ids s request
  have hrearmed : BatchKeyed sha256 P retired (if request.isExplicitRerequest then
      s.rearmFailedHead request.repo request.number else s) := by
    split_ifs
    · exact ⟨⟨h.keyed.records, h.keyed.distinct⟩, h.origin⟩
    · exact h
  have hsame : mintedByRequest (if request.isExplicitRerequest then
      s.rearmFailedHead request.repo request.number else s) request =
        mintedByRequest s request := by
    split_ifs <;> rfl
  rw [← hids] at hfresh
  rw [← hsame] at hminted
  have heffect := placeRequest_effect (e := ⟨0, .admitBatch [request]⟩) sha256 rfl
    List.mem_cons_self hfresh
  exact hrearmed.placed hinj (placeRequest_placed sha256 _ request) heffect.2 hfresh hminted

theorem Keyed.admitted {requests : List ReviewRequest} (h : Keyed sha256 P s)
    (hinj : DistinctOn sha256 P) (hshape : Shape s) (hop : e.operation = .admitBatch requests)
    (hguard : ∀ identity ∈ minted sha256 s e,
      identity ∈ P ∧ unretired sha256 s identity = true) :
    Keyed sha256 P (s.admitBatch sha256 requests e.nowMs).1 := by
  have hready := hshape.prepared e.nowMs
  have hnormal := h.quiet hshape.normalizeLegacyRecords
  have hkeyed : Keyed sha256 P (s.prepared e.nowMs) := ⟨hnormal.records, hnormal.distinct⟩
  rcases s.admitBatch_cases sha256 requests e.nowMs with ⟨-, hsame⟩ | ⟨hdecision, hdone⟩ |
    ⟨-, hsame⟩
  · rw [hsame]
    exact h
  · have htests := admissionDecision_admitted hdecision
    have hdecision' : (s.prepared e.nowMs).admissionDecision requests = .admitted := hdecision
    simp only [minted, hop, hdecision', if_true] at hguard
    have hstart : ∀ identity ∈ mintedBy sha256 (s.prepared e.nowMs) requests, identity ∈ P ∧
        queuedCheckExternalId sha256 identity.1 identity.2 ∉
          (retiredKeys s.retiredChecks).map Prod.snd := fun identity hmem =>
      ⟨(hguard identity hmem).1, not_mem_retired (hguard identity hmem).2⟩
    have hend := hready.foldl_admitRequest sha256
      (P := fun rest s' => BatchKeyed sha256 P ((retiredKeys s.retiredChecks).map Prod.snd) s' ∧
        ∀ identity ∈ mintedBy sha256 s' rest, identity ∈ P ∧
          queuedCheckExternalId sha256 identity.1 identity.2 ∉
            (retiredKeys s.retiredChecks).map Prod.snd)
      (fun s' request rest _ hfresh hbatch =>
        ⟨hbatch.1.admitRequest hinj hfresh fun identity hmem =>
            hbatch.2 identity (List.mem_append_left _ hmem),
          fun identity hmem => hbatch.2 identity (List.mem_append_right _ hmem)⟩)
      htests.1 htests.2.1 ⟨⟨hkeyed, fun id hid => .inl hid⟩, hstart⟩
    rw [hdone]
    exact hend.1.keyed
  · rw [hsame]
    exact hkeyed

theorem Keyed.empty : Keyed sha256 P {} :=
  ⟨fun _ hmem => absurd hmem List.not_mem_nil, List.nodup_nil⟩

theorem Keyed.perform (hshape : Shape s) (h : Keyed sha256 P s) (hinj : DistinctOn sha256 P)
    (hguard : ∀ identity ∈ minted sha256 s e,
      identity ∈ P ∧ unretired sha256 s identity = true) :
    Keyed sha256 P (perform sha256 s e).1 := by
  by_cases hmint : e.operation.mints = true
  · cases hop : e.operation with
    | admitBatch requests =>
      simp only [ReviewJob.perform, hop]
      exact h.admitted hinj hshape hop hguard
    | resolvePendingMetadata pending headSha isOpen draft =>
      simp only [ReviewJob.perform, hop]
      exact h.resolved hinj hshape hop hguard
    | reconcileLiveCheck owned headSha =>
      simp only [ReviewJob.perform, hop]
      exact h.reconciled hinj hshape hop hguard
        (reconcileLiveCheck_step sha256 s owned headSha e.nowMs)
    | _ => simp [hop, Operation.mints] at hmint
  · rw [Bool.not_eq_true] at hmint
    exact hshape.preserves h (fun h hquiet => h.quiet hquiet)
      fun hshape h heffect => h.effect hmint hshape heffect

/-- Every identity minted along a run. -/
def mintedAlong (sha256 : String → List UInt8) : Clocked → List Event → List (ReviewJobId × String)
  | _, [] => []
  | c, e :: events => minted sha256 c.state e ++ mintedAlong sha256 (tick sha256 c e) events

/-- No step mints the identity of a check that is still retired. -/
def mintsUnretired (sha256 : String → List UInt8) (s : ReviewSchedulerState) (e : Event) : Bool :=
  (minted sha256 s e).all (unretired sha256 s)

theorem IsRun.minted {c : Clocked} {events : List Event}
    (h : IsRun sha256 (fun s e => mintsUnretired sha256 s e = true) c events)
    (hP : ∀ identity ∈ mintedAlong sha256 c events, identity ∈ P) :
    IsRun sha256 (fun s e => ∀ identity ∈ minted sha256 s e,
      identity ∈ P ∧ unretired sha256 s identity = true) c events := by
  induction events generalizing c with
  | nil => trivial
  | cons e events ih =>
    constructor
    · intro identity hmem
      exact ⟨hP identity (List.mem_append_left _ hmem), List.all_eq_true.mp h.1 identity hmem⟩
    · exact ih h.2 fun identity hmem => hP identity (List.mem_append_right _ hmem)

/-- What distinct identities mean for the operations that look a check up by its external id. -/
structure IdentitiesUnique (s : ReviewSchedulerState) : Prop where
  distinct : s.externalIds.Nodup
  active : ∀ record ∈ s.unfinished, ∀ check ∈ record.reviewChecks,
    s.unfinished.find? (holdsExternalId check.externalId) = some record ∧
      record.reviewChecks.find? (hasExternalId check.externalId) = some check
  retired : ∀ entry ∈ s.retiredChecks,
    s.retiredChecks.find? (entryHasExternalId entry.check.externalId) = some entry
  apart : ∀ record ∈ s.unfinished, ∀ check ∈ record.reviewChecks, ∀ entry ∈ s.retiredChecks,
    check.externalId ≠ entry.check.externalId

theorem externalIds_eq (s : ReviewSchedulerState) : s.externalIds =
    s.unfinished.flatMap (fun record => record.reviewChecks.map fun check => check.externalId) ++
      s.retiredChecks.map fun entry => entry.check.externalId := by
  simp [ReviewSchedulerState.externalIds, ReviewSchedulerState.checkKeys, List.map_flatMap,
    ScheduledReview.checkKeys, retiredKeys, ReviewCheckRecord.key, Function.comp_def]

theorem identitiesUnique_of_nodup (h : s.externalIds.Nodup) : IdentitiesUnique s := by
  have hparts := h
  rw [externalIds_eq, List.nodup_append] at hparts
  obtain ⟨hactive, hretired, hapart⟩ := hparts
  refine ⟨h, fun record hrecord check hcheck => ⟨?_, ?_⟩, fun entry hentry => ?_,
    fun record hrecord check hcheck entry hentry => ?_⟩
  · apply find?_of_nodup_flatMap hactive hrecord (List.mem_map_of_mem hcheck)
    intro other _
    simp [holdsExternalId, hasExternalId]
  · apply find?_of_nodup_map ((List.nodup_flatMap.mp hactive).1 record hrecord) hcheck
    intro other _
    simp [hasExternalId]
  · apply find?_of_nodup_map hretired hentry
    intro other _
    simp [entryHasExternalId, hasExternalId]
  · exact hapart _ (List.mem_flatMap.mpr ⟨record, hrecord, List.mem_map_of_mem hcheck⟩) _
      (List.mem_map_of_mem hentry)

/-- Identities stay unique in every run that mints none still awaiting its conclusion. -/
theorem check_identities_unique (sha256 : String → List UInt8) (t : ℤ) (events : List Event)
    (hinj : DistinctOn sha256 {identity | identity ∈ mintedAlong sha256 (.start t) events})
    (hrun : IsRun sha256 (fun s e => mintsUnretired sha256 s e = true) (.start t) events) :
    IdentitiesUnique (after sha256 (.start t) events).state := by
  have hminted := IsRun.minted hrun fun _ hmem => hmem
  have hboth := IsRun.invariant
    (I := fun s => Shape s ∧
      Keyed sha256 {identity | identity ∈ mintedAlong sha256 (.start t) events} s)
    (fun s e h hguard => ⟨h.1.perform sha256 e, h.2.perform h.1 hinj hguard⟩)
    ⟨Shape.empty, Keyed.empty⟩ hminted
  exact identitiesUnique_of_nodup hboth.2.distinct

/-- The owner follows its pull request from `A` to `B`. -/
def movedToB : List Event :=
  ownedReview (push "a" "A") ++
    [⟨5, .reconcileLiveCheck (sampleHandle (push "a" "A") "w1" 1) "B"⟩]

/-- The pull request is forced back to `A` while its first check still awaits a conclusion. -/
def movedBackToA : List Event :=
  movedToB ++ [⟨6, .reconcileLiveCheck (sampleHandle (push "a" "A") "w1" 1) "A"⟩]

/-- Back on `A`, reconciliation queues a check under the identity that is still retired. -/
theorem check_identities_unique_forced_back :
    DistinctOn sampleSha256 {identity | identity ∈ mintedAlong sampleSha256 (.start 0) movedBackToA} ∧
      ¬ (after sampleSha256 (.start 0) movedBackToA).state.externalIds.Nodup := by
  have hdistinct : ∀ p ∈ mintedAlong sampleSha256 (.start 0) movedBackToA,
      ∀ q ∈ mintedAlong sampleSha256 (.start 0) movedBackToA,
        queuedCheckExternalId sampleSha256 p.1 p.2 = queuedCheckExternalId sampleSha256 q.1 q.2 →
          p = q := by
    decide +kernel
  exact ⟨hdistinct, by decide +kernel⟩

/-- Following the pull request forward mints new identities only. -/
theorem check_identities_unique_forward :
    IdentitiesUnique (after sampleSha256 (.start 0) movedToB).state := by
  have hdistinct : ∀ p ∈ mintedAlong sampleSha256 (.start 0) movedToB,
      ∀ q ∈ mintedAlong sampleSha256 (.start 0) movedToB,
        queuedCheckExternalId sampleSha256 p.1 p.2 = queuedCheckExternalId sampleSha256 q.1 q.2 →
          p = q := by
    decide +kernel
  exact check_identities_unique sampleSha256 0 movedToB hdistinct (by decide +kernel)

end TinySweeper.ReviewJob
