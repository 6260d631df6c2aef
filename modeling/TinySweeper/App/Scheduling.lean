import TinySweeper.App.Accounted

/-!
# What scheduling decides

Two runs of a dispatcher may differ in the order their units complete. The bounded
fan-out does not show it. The dispatcher of a large plan appends results as they
come: each list of a lane's outcome is in the order its groups completed.
-/

namespace TinySweeper.App

open Text Findings Lanes Runs

variable {κ : Type}

/-- The list of a fan-out a result is filed in. -/
inductive Ending where
  | reviewed
  | failed
  | omitted
  deriving DecidableEq, Repr

def ending : UnitResult κ → Ending
  | .ok review => if review.executionRefusal.isSome then .omitted else .reviewed
  | .error (.modelExecutionRefused _) => .omitted
  | .error (.other _) => .failed

def listed (e : Ending) (f : FanOut κ) : List Text :=
  match e with
  | .reviewed => f.reviewedPaths
  | .failed => f.failedPaths
  | .omitted => f.omittedPaths

theorem listed_record (e : Ending) (f : FanOut κ) (label : Text) (paths : List Text)
    (result : UnitResult κ) :
    listed e (f.record label paths result) =
      listed e f ++ if ending result = e then paths else [] := by
  unfold FanOut.record
  split
  · next review =>
    split
    · next refusal hrefusal =>
      cases e <;> simp [listed, ending, hrefusal, FanOut.reviewedPaths, FanOut.failedPaths,
        FanOut.omittedPaths]
    · next hclean =>
      cases e <;> simp [listed, ending, hclean, FanOut.reviewedPaths, FanOut.failedPaths,
        FanOut.omittedPaths]
  · cases e <;> simp [listed, ending, FanOut.reviewedPaths, FanOut.failedPaths,
      FanOut.omittedPaths]
  · next error hother =>
    have hending : ending (.error error : UnitResult κ) = .failed := by
      cases error with
      | modelExecutionRefused refusal => exact absurd rfl (hother refusal)
      | other message => rfl
    cases e <;> simp [listed, hending, FanOut.reviewedPaths, FanOut.failedPaths,
      FanOut.omittedPaths]

section Lists

variable (result : PlannedGroup → UnitResult κ) (lane : LaneId)

/-- The groups of a lane that end in one list. -/
def endingIn (e : Ending) (groups : List PlannedGroup) : List PlannedGroup :=
  groups.filter fun g => g.lane = lane ∧ ending (result g) = e

def blocks (groups : List PlannedGroup) : List Text := groups.flatMap fun g => g.group.paths

def dropped (e : Ending) (drops : List (PlannedGroup × Dispatch.Stop)) : List Text :=
  if e = .omitted then blocks ((drops.map Prod.fst).filter fun g => g.lane = lane) else []

theorem listed_recordAll (e : Ending) (fanouts : LaneId → FanOut κ) (groups : List PlannedGroup) :
    listed e (recordAll result fanouts groups lane) =
      listed e (fanouts lane) ++ blocks (endingIn result lane e groups) := by
  induction groups generalizing fanouts with
  | nil => simp [recordAll, endingIn, blocks]
  | cons g groups ih =>
    change listed e (recordAll result (recordLargeGroupResult result fanouts g) groups lane) = _
    rw [ih, recordLargeGroupResult, onLane]
    by_cases hlane : g.lane = lane
    · subst hlane
      by_cases he : ending (result g) = e
      · simp [listed_record, endingIn, blocks, he]
      · simp [listed_record, endingIn, blocks, he]
    · simp [endingIn, blocks, hlane, Ne.symm hlane]

theorem listed_dropAll (e : Ending) (fanouts : LaneId → FanOut κ)
    (drops : List (PlannedGroup × Dispatch.Stop)) :
    listed e (dropAll fanouts drops lane) = listed e (fanouts lane) ++ dropped lane e drops := by
  have hleave : ∀ (f : FanOut κ) (paths : List Text) (reason : OmissionReason),
      listed e (f.leaveOut paths reason) = listed e f ++ if e = .omitted then paths else [] := by
    intro f paths reason
    cases e <;> simp [listed, FanOut.leaveOut, FanOut.reviewedPaths, FanOut.failedPaths,
      FanOut.omittedPaths]
  induction drops generalizing fanouts with
  | nil => simp [dropAll, dropped, blocks]
  | cons d drops ih =>
    change listed e (dropAll (onLane fanouts d.1.lane _) drops lane) = _
    rw [ih, onLane]
    by_cases hlane : d.1.lane = lane
    · subst hlane
      cases e <;> simp [hleave, dropped, blocks]
    · simp [dropped, blocks, hlane, Ne.symm hlane]

theorem listed_replay (e : Ending) (plan : ReviewPlan) (p : Dispatch.Pool PlannedGroup) :
    listed e (replay result plan p lane) =
      listed e (plannedFanouts plan lane : FanOut κ) ++ blocks (endingIn result lane e p.early) ++
        dropped lane e p.unstarted ++ blocks (endingIn result lane e p.late) ++
        dropped lane e p.abandoned := by
  unfold replay
  rw [listed_dropAll, listed_recordAll, listed_dropAll, listed_recordAll]

end Lists

/-- No group is empty, and no two groups of a lane share a path. -/
structure ReviewPlan.Partitions (plan : ReviewPlan) : Prop where
  nonempty : ∀ g ∈ plan.selected, g.group.paths ≠ []
  disjoint : ∀ g ∈ plan.selected, ∀ h ∈ plan.selected, g.lane = h.lane →
    ∀ path ∈ g.group.paths, path ∈ h.group.paths → g = h

/-- Lists of disjoint, non-empty blocks are told apart by what is in them. -/
theorem eq_of_flatMap_eq {α β : Type*} {f : α → List β} {xs ys : List α}
    (hne : ∀ a ∈ xs ++ ys, f a ≠ [])
    (hdisjoint : ∀ a ∈ xs ++ ys, ∀ b ∈ xs ++ ys, ∀ x ∈ f a, x ∈ f b → a = b)
    (heq : xs.flatMap f = ys.flatMap f) : xs = ys := by
  induction xs generalizing ys with
  | nil =>
    cases ys with
    | nil => rfl
    | cons b ys =>
      rw [List.flatMap_nil, List.flatMap_cons] at heq
      exact absurd (List.append_eq_nil_iff.mp heq.symm).1 (hne b (by simp))
  | cons a xs ih =>
    cases ys with
    | nil =>
      rw [List.flatMap_nil, List.flatMap_cons] at heq
      exact absurd (List.append_eq_nil_iff.mp heq).1 (hne a (by simp))
    | cons b ys =>
      rw [List.flatMap_cons, List.flatMap_cons] at heq
      have hhead : a = b := by
        obtain ⟨x, xs', ha⟩ := List.exists_cons_of_ne_nil (hne a (by simp))
        obtain ⟨y, ys', hb⟩ := List.exists_cons_of_ne_nil (hne b (by simp))
        have hxy : x = y := by
          rw [ha, hb, List.cons_append, List.cons_append, List.cons.injEq] at heq
          exact heq.1
        exact hdisjoint a (by simp) b (by simp) x (by simp [ha]) (by simp [hb, hxy])
      subst hhead
      congr 1
      apply ih
      · intro c hc
        apply hne
        simp only [List.mem_append, List.mem_cons] at hc ⊢
        tauto
      · intro c hc d hd
        apply hdisjoint
        · simp only [List.mem_append, List.mem_cons] at hc ⊢
          tauto
        · simp only [List.mem_append, List.mem_cons] at hd ⊢
          tauto
      · exact List.append_cancel_left heq

section Order

variable {result : PlannedGroup → UnitResult κ} {plan : ReviewPlan}

/-- The results of a lane by the list they end in. -/
theorem recordAll_lane (lane : LaneId) (fanouts : LaneId → FanOut κ)
    (groups : List PlannedGroup) :
    let filed := fun g => (FanOut.empty : FanOut κ).record g.group.label g.group.paths (result g)
    recordAll result fanouts groups lane =
      ⟨(fanouts lane).reviews ++
          (endingIn result lane .reviewed groups).flatMap fun g => (filed g).reviews,
        (fanouts lane).partials ++
          (endingIn result lane .omitted groups).flatMap fun g => (filed g).partials,
        (fanouts lane).failures ++
          (endingIn result lane .failed groups).flatMap fun g => (filed g).failures,
        (fanouts lane).omitted ++
          (endingIn result lane .omitted groups).flatMap fun g => (filed g).omitted⟩ := by
  intro filed
  induction groups generalizing fanouts with
  | nil => simp [recordAll, endingIn]
  | cons g groups ih =>
    change recordAll result (recordLargeGroupResult result fanouts g) groups lane = _
    rw [ih, recordLargeGroupResult, onLane]
    by_cases hlane : g.lane = lane
    · subst hlane
      rcases hresult : result g with (refusal | message) | review
      · simp [endingIn, ending, filed, hresult, FanOut.record, FanOut.empty]
      · simp [endingIn, ending, filed, hresult, FanOut.record, FanOut.empty]
      · cases hrefusal : review.executionRefusal with
        | none => simp [endingIn, ending, filed, hresult, hrefusal, FanOut.record, FanOut.empty]
        | some refusal =>
          simp [endingIn, ending, filed, hresult, hrefusal, FanOut.record, FanOut.empty]
    · simp [endingIn, hlane, Ne.symm hlane]

theorem recordAll_congr {lane : LaneId} {fanouts fanouts' : LaneId → FanOut κ}
    (hfanouts : fanouts lane = fanouts' lane) {groups groups' : List PlannedGroup}
    (hgroups : ∀ e, endingIn result lane e groups = endingIn result lane e groups') :
    recordAll result fanouts groups lane = recordAll result fanouts' groups' lane := by
  rw [recordAll_lane, recordAll_lane, hfanouts, hgroups .reviewed, hgroups .omitted,
    hgroups .failed]

theorem dropAll_congr {lane : LaneId} {fanouts fanouts' : LaneId → FanOut κ}
    (hfanouts : fanouts lane = fanouts' lane) (drops : List (PlannedGroup × Dispatch.Stop)) :
    dropAll fanouts drops lane = dropAll fanouts' drops lane := by
  induction drops generalizing fanouts fanouts' with
  | nil => exact hfanouts
  | cons d drops ih =>
    apply ih
    by_cases hlane : d.1.lane = lane
    · subst hlane
      simp [onLane, hfanouts]
    · simpa [onLane, Ne.symm hlane] using hfanouts

/-- In each lane, the groups that end in one list complete in the same order. -/
def SameOrder (result : PlannedGroup → UnitResult κ) (turns turns' : List (Dispatch.Turn PlannedGroup)) :
    Prop :=
  ∀ lane e, endingIn result lane e (Dispatch.completions turns) =
    endingIn result lane e (Dispatch.completions turns')

def SameOutcomes (s s' : Large κ) : Prop :=
  ∀ lane, (s.fanouts lane).intoOutcome = (s'.fanouts lane).intoOutcome

/-- Two runs over a plan that differ in the order of completion only, until both have stopped. -/
structure LargeReordering (result : PlannedGroup → UnitResult κ) (plan : ReviewPlan)
    (turns turns' : List (Dispatch.Turn PlannedGroup)) : Prop where
  reordered : Dispatch.Reordered turns turns'
  valid : Guarded (Large.turn result) Large.Completes (Large.initial plan) turns
  valid' : Guarded (Large.turn result) Large.Completes (Large.initial plan) turns'
  stopped : (runLargeGroups result plan turns).stopped = true

/-- What two runs of one plan share, and where their orders stand. -/
structure SamePool (turns turns' : List (Dispatch.Turn PlannedGroup))
    (p p' : Dispatch.Pool PlannedGroup) : Prop where
  early : p.early = Dispatch.earlyCompletions turns
  early' : p'.early = Dispatch.earlyCompletions turns'
  late : p.late = Dispatch.lateCompletions turns
  late' : p'.late = Dispatch.lateCompletions turns'
  unstarted : p.unstarted = p'.unstarted
  abandoned : p.abandoned = p'.abandoned
  selected : p.early ++ p.late ⊆ plan.selected

theorem LargeReordering.samePool {turns turns' : List (Dispatch.Turn PlannedGroup)}
    (hlabels : plan.LabelsDistinct) (h : LargeReordering result plan turns turns') :
    @SamePool plan turns turns'
      (exec groupStep (Dispatch.Pool.initial plan.selected) turns)
      (exec groupStep (Dispatch.Pool.initial plan.selected) turns') := by
  have hlinked := linked_initial result plan hlabels
  have hvalid := hlinked.guarded h.valid
  have hvalid' := hlinked.guarded h.valid'
  have hstopped : (exec groupStep (Dispatch.Pool.initial plan.selected) turns).stopped = true :=
    (refines_run result plan hlabels turns).stopped.symm.trans h.stopped
  have hkeys : ∀ g ∈ plan.selected, ∀ h ∈ plan.selected, g.key = h.key → g = h :=
    fun _ hg _ hh heq => List.inj_on_of_nodup_map hlabels hg hh heq
  have hcanonical : ∀ groups groups' : List PlannedGroup, groups.Perm groups' →
      groups ⊆ plan.selected → byName groups = byName groups' := fun _ _ hperm hsub =>
    byName_canonical hperm fun g hg h hh => hkeys g (hsub hg) h (hsub hh)
  obtain ⟨hcontrol, -, -, habandoned⟩ := Dispatch.reordered_exec (by decide) byName_perm hcanonical
    h.reordered hvalid hvalid' hstopped
  have hrecorded := Dispatch.recorded_exec hvalid
  have hrecorded' := Dispatch.recorded_exec hvalid'
  have hall := @Dispatch.everything_exec _ _ MAX_CONCURRENT_FILES _ byName_perm plan.selected
    turns
  exact
    { early := hrecorded.1
      early' := hrecorded'.1
      late := hrecorded.2
      late' := hrecorded'.2
      unstarted := hcontrol.unstarted
      abandoned := habandoned
      selected := by
        intro g hg
        apply hall.subset
        simp only [Dispatch.Pool.everything, List.mem_append] at hg ⊢
        tauto }

/-- Orders agree on a list just when they agree on it before and after the soft deadline. -/
theorem sameOrder_iff {turns turns' : List (Dispatch.Turn PlannedGroup)}
    (h : Dispatch.Reordered turns turns') {lane : LaneId} {e : Ending} :
    endingIn result lane e (Dispatch.completions turns) =
        endingIn result lane e (Dispatch.completions turns') ↔
      endingIn result lane e (Dispatch.earlyCompletions turns) =
          endingIn result lane e (Dispatch.earlyCompletions turns') ∧
        endingIn result lane e (Dispatch.lateCompletions turns) =
          endingIn result lane e (Dispatch.lateCompletions turns') := by
  rw [Dispatch.completions_split, Dispatch.completions_split]
  simp only [endingIn, List.filter_append]
  constructor
  · intro heq
    exact List.append_inj heq (h.early.filter _).length_eq
  · rintro ⟨hearly, hlate⟩
    rw [hearly, hlate]

theorem sameOutcomes_of_sameOrder (hlabels : plan.LabelsDistinct)
    {turns turns' : List (Dispatch.Turn PlannedGroup)} (h : LargeReordering result plan turns turns')
    (hsame : SameOrder result turns turns') :
    SameOutcomes (runLargeGroups result plan turns) (runLargeGroups result plan turns') := by
  have hpool := h.samePool hlabels
  intro lane
  have horder := fun e => (sameOrder_iff h.reordered).mp (hsame lane e)
  rw [(refines_run result plan hlabels turns).fanouts,
    (refines_run result plan hlabels turns').fanouts, replay, replay, hpool.early, hpool.early',
    hpool.late, hpool.late', hpool.unstarted, hpool.abandoned]
  congr 1
  apply dropAll_congr
  apply recordAll_congr _ fun e => (horder e).2
  apply dropAll_congr
  exact recordAll_congr rfl fun e => (horder e).1

/-- An outcome tells its lists of paths. -/
theorem listed_of_intoOutcome {f f' : FanOut κ} (h : f.intoOutcome = f'.intoOutcome)
    (hlength : f.failedPaths.length = f'.failedPaths.length) (e : Ending) :
    listed e f = listed e f' := by
  have hunanswered : f.failedPaths ++ f.omittedPaths = f'.failedPaths ++ f'.omittedPaths :=
    congrArg LaneOutcome.unanswered h
  obtain ⟨hfailed, homitted⟩ := List.append_inj hunanswered hlength
  have hreviewed : ∀ f : FanOut κ,
      f.intoOutcome.coverage.elim [] FileCoverage.reviewed = f.reviewedPaths := by
    intro f
    unfold FanOut.intoOutcome
    dsimp only
    split
    · rfl
    · next hnone =>
      rw [not_or, not_not] at hnone
      exact hnone.1.symm
  cases e with
  | reviewed =>
    exact (hreviewed f).symm.trans ((congrArg
      (fun outcome => outcome.coverage.elim [] FileCoverage.reviewed) h).trans (hreviewed f'))
  | failed => exact hfailed
  | omitted => exact homitted

theorem length_blocks {groups groups' : List PlannedGroup} (h : groups.Perm groups') :
    (blocks groups).length = (blocks groups').length :=
  (h.flatMap_right _).length_eq

/-- Groups of one lane of a partition are told apart by their paths. -/
theorem endingIn_of_blocks (hplan : plan.Partitions) {lane : LaneId} {e : Ending}
    {groups groups' : List PlannedGroup} (hsub : groups ⊆ plan.selected)
    (hsub' : groups' ⊆ plan.selected)
    (heq : blocks (endingIn result lane e groups) = blocks (endingIn result lane e groups')) :
    endingIn result lane e groups = endingIn result lane e groups' := by
  have hmem : ∀ g ∈ endingIn result lane e groups ++ endingIn result lane e groups',
      g ∈ plan.selected ∧ g.lane = lane := by
    intro g hg
    simp only [endingIn, List.mem_append, List.mem_filter, decide_eq_true_eq] at hg
    rcases hg with ⟨hg, hlane, -⟩ | ⟨hg, hlane, -⟩
    · exact ⟨hsub hg, hlane⟩
    · exact ⟨hsub' hg, hlane⟩
  apply eq_of_flatMap_eq _ _ heq
  · intro g hg
    exact hplan.nonempty g (hmem g hg).1
  · intro g hg other hother path hpath hpath'
    obtain ⟨hg, hlane⟩ := hmem g hg
    obtain ⟨hother, hlane'⟩ := hmem other hother
    exact hplan.disjoint g hg other hother (hlane.trans hlane'.symm) path hpath hpath'

theorem sameOrder_of_sameOutcomes (hlabels : plan.LabelsDistinct) (hplan : plan.Partitions)
    {turns turns' : List (Dispatch.Turn PlannedGroup)} (h : LargeReordering result plan turns turns')
    (hsame : SameOutcomes (runLargeGroups result plan turns) (runLargeGroups result plan turns')) :
    SameOrder result turns turns' := by
  have hpool := h.samePool hlabels
  have hselected' : Dispatch.earlyCompletions turns' ++ Dispatch.lateCompletions turns' ⊆
      plan.selected := by
    have hsub := hpool.selected
    rw [hpool.early, hpool.late] at hsub
    exact List.Subset.trans (h.reordered.early.append h.reordered.late).symm.subset hsub
  have hselected := hpool.selected
  rw [hpool.early, hpool.late] at hselected
  have hearlyLength := fun lane e =>
    length_blocks (h.reordered.early.filter fun g => g.lane = lane ∧ ending (result g) = e)
  have hlateLength := fun lane e =>
    length_blocks (h.reordered.late.filter fun g => g.lane = lane ∧ ending (result g) = e)
  intro lane e
  have houtcome := hsame lane
  rw [(refines_run result plan hlabels turns).fanouts,
    (refines_run result plan hlabels turns').fanouts] at houtcome
  have hreplay : ∀ e, listed e (replay result plan
        (exec groupStep (Dispatch.Pool.initial plan.selected) turns) lane) = _ ∧
      listed e (replay result plan
        (exec groupStep (Dispatch.Pool.initial plan.selected) turns') lane) = _ :=
    fun e => ⟨listed_replay result lane e plan _, listed_replay result lane e plan _⟩
  rw [hpool.early, hpool.late, hpool.early', hpool.late', hpool.unstarted, hpool.abandoned]
    at hreplay
  have hlists := listed_of_intoOutcome houtcome (by
    have hfailed := hreplay .failed
    change (listed .failed _).length = (listed .failed _).length
    rw [hfailed.1, hfailed.2]
    simp only [List.length_append, endingIn, hearlyLength lane .failed, hlateLength lane .failed]) e
  rw [(hreplay e).1, (hreplay e).2] at hlists
  obtain ⟨hfirst, hlate⟩ := List.append_inj' (List.append_cancel_right hlists) (hlateLength lane e)
  have hearly := List.append_cancel_left (List.append_cancel_right hfirst)
  rw [List.append_subset] at hselected hselected'
  exact (sameOrder_iff h.reordered).mpr
    ⟨endingIn_of_blocks hplan hselected.1 hselected'.1 hearly,
      endingIn_of_blocks hplan hselected.2 hselected'.2 hlate⟩

end Order

/-- The outcome of a bounded fan-out does not depend on the order of completion. -/
def BoundedUnscheduled (κ : Type) : Prop :=
  ∀ (units : ℕ) (result : ℕ → UnitResult κ) (label : ℕ → Text) (memberPaths : ℕ → List Text)
    (turns turns' : List Lanes.Turn), Dispatch.Reordered turns turns' →
    Guarded (Bounded.turn units result) (Bounded.Completes units) (Bounded.initial units) turns →
    Guarded (Bounded.turn units result) (Bounded.Completes units) (Bounded.initial units) turns' →
    (perUnitBounded units result label memberPaths turns).intoOutcome =
      (perUnitBounded units result label memberPaths turns').intoOutcome

/-- The order of completion shows in a large plan just where groups of one lane and one list swap. -/
theorem scheduling_shows {plan : ReviewPlan} (hlabels : plan.LabelsDistinct) :
    BoundedUnscheduled κ ∧
      ∀ (result : PlannedGroup → UnitResult κ) (turns turns' : List (Dispatch.Turn PlannedGroup)),
        LargeReordering result plan turns turns' →
        (SameOrder result turns turns' →
          SameOutcomes (runLargeGroups result plan turns) (runLargeGroups result plan turns')) ∧
        (plan.Partitions →
          SameOutcomes (runLargeGroups result plan turns) (runLargeGroups result plan turns') →
          SameOrder result turns turns') := by
  constructor
  · intro units result label memberPaths turns turns' hreordered hvalid hvalid'
    rw [perUnitBounded_reordered hreordered hvalid hvalid']
  · intro result turns turns' h
    exact ⟨sameOutcomes_of_sameOrder hlabels h,
      fun hplan => sameOrder_of_sameOutcomes hlabels hplan h⟩

def twoFiles : ReviewPlan := ⟨[cleanGroup [['a']], cleanGroup [['b']]], []⟩

/-- The groups complete in this order; then the loop finds nothing left. -/
def completing (groups : List PlannedGroup) : List (Dispatch.Turn PlannedGroup) :=
  groups.map (fun g => ⟨false, false, false, some g⟩) ++ [⟨false, false, false, none⟩]

/-- The reviewer answers for `a` alone. -/
def onlyFirst (g : PlannedGroup) : UnitResult ℕ :=
  if g.group.paths = [['a']] then .ok cleanReview else .error (.other [])

theorem reordering (result : PlannedGroup → UnitResult ℕ)
    (hvalid : Guarded (Large.turn result) Large.Completes (Large.initial twoFiles)
      (completing twoFiles.selected))
    (hvalid' : Guarded (Large.turn result) Large.Completes (Large.initial twoFiles)
      (completing twoFiles.selected.reverse))
    (hstopped : (runLargeGroups result twoFiles (completing twoFiles.selected)).stopped = true) :
    LargeReordering result twoFiles (completing twoFiles.selected)
      (completing twoFiles.selected.reverse) :=
  ⟨⟨by decide, by decide, by decide⟩, hvalid, hvalid', hstopped⟩

theorem scheduling_shows_onlyFirst :
    SameOutcomes (runLargeGroups onlyFirst twoFiles (completing twoFiles.selected))
      (runLargeGroups onlyFirst twoFiles (completing twoFiles.selected.reverse)) := by
  have hlabels : twoFiles.LabelsDistinct := by
    unfold ReviewPlan.LabelsDistinct
    decide
  apply ((scheduling_shows hlabels).2 onlyFirst _ _ (reordering onlyFirst (by decide +kernel)
    (by decide +kernel) (by decide +kernel))).1
  intro lane e
  cases lane <;> cases e <;> decide

/-- Both groups are reviewed: which one first is which path comes first. -/
theorem completion_order_shows :
    LargeReordering (fun _ => .ok cleanReview) twoFiles (completing twoFiles.selected)
        (completing twoFiles.selected.reverse) ∧
      ¬SameOutcomes (runLargeGroups (fun _ => .ok cleanReview) twoFiles (completing twoFiles.selected))
        (runLargeGroups (fun _ => .ok cleanReview) twoFiles
          (completing twoFiles.selected.reverse)) := by
  refine ⟨reordering _ (by decide +kernel) (by decide +kernel) (by decide +kernel), ?_⟩
  intro hsame
  have hcoverage := congrArg LaneOutcome.coverage (hsame .critique)
  exact absurd hcoverage (by decide +kernel)

end TinySweeper.App
