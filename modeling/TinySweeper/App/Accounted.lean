import TinySweeper.App.Proposal
import TinySweeper.Lanes.Bounded

/-!
# Every planned file is accounted for

A unit of work ends as a review, a failure or an omission, whichever way its
conversation and the deadlines fall. A complete proposal has read them all.
-/

namespace TinySweeper.App

open Text Evidence Findings Lanes Runs

/-- Each unit ended in one place, and the outcome covers each of its paths once. -/
structure AccountedOnce {κ : Type} (f : FanOut κ) (units : List (List Text)) : Prop where
  accounts : f.Accounts units
  covered : (f.intoOutcome.coverage.elim [] fun c => c.reviewed ++ c.unanswered).Perm units.flatten

theorem AccountedOnce.of_accounts {κ : Type} {f : FanOut κ} {units : List (List Text)}
    (h : f.Accounts units) : AccountedOnce f units where
  accounts := h
  covered := by
    have hpaths := h.paths
    unfold FanOut.intoOutcome
    dsimp only
    split
    · exact hpaths
    · next hnone =>
      rw [not_or, not_not, not_not] at hnone
      simpa [hnone.1, hnone.2] using hpaths

section Filing

variable {κ : Type} (result : PlannedGroup → UnitResult κ) (plan : ReviewPlan)

/-- The units of each lane are in its fan-out. -/
def Filed (fanouts : LaneId → FanOut κ) (units : List (LaneId × List Text)) : Prop :=
  ∀ lane, (fanouts lane).Accounts ((units.filter fun unit => unit.1 = lane).map Prod.snd)

variable {result plan} {fanouts : LaneId → FanOut κ} {units : List (LaneId × List Text)}

theorem Filed.onLane (h : Filed fanouts units) (lane : LaneId) (paths : List (List Text))
    {f : FanOut κ → FanOut κ}
    (hf : ∀ fan filed, fan.Accounts filed → (f fan).Accounts (filed ++ paths)) :
    Filed (onLane fanouts lane f) (units ++ paths.map fun p => (lane, p)) := by
  intro other
  by_cases hlane : other = lane
  · subst hlane
    simpa [App.onLane, List.filter_map, Function.comp_def] using hf _ _ (h other)
  · simpa [App.onLane, List.filter_map, Function.comp_def, hlane, Ne.symm hlane] using h other

theorem Filed.foldl {α : Type*} {step : (LaneId → FanOut κ) → α → LaneId → FanOut κ}
    {entries : α → List (LaneId × List Text)}
    (hstep : ∀ fanouts units a, Filed fanouts units → Filed (step fanouts a) (units ++ entries a))
    (h : Filed fanouts units) (items : List α) :
    Filed (items.foldl step fanouts) (units ++ items.flatMap entries) := by
  induction items generalizing fanouts units with
  | nil => simpa using h
  | cons a items ih =>
    rw [List.foldl_cons, List.flatMap_cons, ← List.append_assoc]
    exact ih (hstep fanouts units a h)

theorem accounts_foldl_leaveOut {f : FanOut κ} {filed : List (List Text)} (h : f.Accounts filed)
    (groups : List FileGroup) :
    (groups.foldl (fun f group => f.leaveOut group.paths .notSelected) f).Accounts
      (filed ++ groups.map FileGroup.paths) := by
  induction groups generalizing f filed with
  | nil => simpa using h
  | cons group groups ih =>
    rw [List.foldl_cons, List.map_cons, List.append_cons]
    exact ih (h.leaveOut group.paths .notSelected)

def PlannedGroup.unit (g : PlannedGroup) : LaneId × List Text := (g.lane, g.group.paths)

variable (plan) in
theorem filed_plannedFanouts :
    Filed (plannedFanouts plan : LaneId → FanOut κ)
      (plan.omittedGroups.flatMap fun entry => entry.2.map fun g => (entry.1, g.paths)) := by
  have hempty : Filed (fun _ => FanOut.empty : LaneId → FanOut κ) [] :=
    fun _ => FanOut.accounts_empty
  have hfold := @Filed.foldl _ _ _ _
    (fun fanouts (entry : LaneId × List FileGroup) => onLane fanouts entry.1 fun f =>
      entry.2.foldl (fun f group => f.leaveOut group.paths .notSelected) f)
    (fun entry => entry.2.map fun g => (entry.1, g.paths))
    (fun fanouts units entry h => by
      simpa [Function.comp_def] using h.onLane entry.1 (entry.2.map FileGroup.paths)
        fun _ _ hfan => accounts_foldl_leaveOut hfan entry.2)
    hempty plan.omittedGroups
  rwa [List.nil_append] at hfold

variable (result) in
theorem Filed.recordAll (h : Filed fanouts units) (groups : List PlannedGroup) :
    Filed (recordAll result fanouts groups) (units ++ groups.map PlannedGroup.unit) := by
  have hfold := @Filed.foldl _ _ _ _ (recordLargeGroupResult result) (fun g => [g.unit])
    (fun fanouts units g h => h.onLane g.lane [g.group.paths]
      fun _ _ hfan => hfan.record g.group.label g.group.paths (result g)) h groups
  simpa [App.recordAll, List.map_eq_flatMap] using hfold

theorem Filed.dropAll (h : Filed fanouts units) (drops : List (PlannedGroup × Dispatch.Stop)) :
    Filed (dropAll fanouts drops)
      (units ++ (drops.map Prod.fst).map PlannedGroup.unit) := by
  have hfold := @Filed.foldl _ _ _ _
    (fun fanouts (d : PlannedGroup × Dispatch.Stop) =>
      App.onLane fanouts d.1.lane (·.leaveOut d.1.group.paths (stopReason d.2)))
    (fun d => [d.1.unit])
    (fun fanouts units d h => h.onLane d.1.lane [d.1.group.paths]
      fun _ _ hfan => hfan.leaveOut d.1.group.paths (stopReason d.2)) h drops
  rw [List.map_map, List.map_eq_flatMap]
  exact hfold

theorem Filed.perm (h : Filed fanouts units) {units' : List (LaneId × List Text)}
    (hperm : units.Perm units') : Filed fanouts units' := by
  intro lane
  exact ⟨(h lane).once.trans ((hperm.filter _).map _), (h lane).partials⟩

/-- The units of a plan, by lane, are the paths of its groups. -/
theorem units_filter (lane : LaneId) :
    (((plan.omittedGroups.flatMap fun entry => entry.2.map fun g => (entry.1, g.paths)) ++
        plan.selected.map PlannedGroup.unit).filter fun unit => unit.1 = lane).map Prod.snd =
      (plan.groupsOf lane).map FileGroup.paths := by
  have homitted : ((plan.omittedGroups.flatMap fun entry =>
        entry.2.map fun g => (entry.1, g.paths)).filter fun unit => unit.1 = lane).map Prod.snd =
      ((plan.omittedGroups.filter fun entry => entry.1 = lane).flatMap Prod.snd).map
        FileGroup.paths := by
    induction plan.omittedGroups with
    | nil => rfl
    | cons entry entries ih =>
      rw [List.flatMap_cons, List.filter_append, List.map_append, ih]
      by_cases hlane : entry.1 = lane
      · simp [hlane, List.filter_map, Function.comp_def]
      · simp [hlane, List.filter_map, Function.comp_def]
  rw [List.filter_append, List.map_append, homitted, ReviewPlan.groupsOf, List.map_append]
  simp [List.filter_map, PlannedGroup.unit, Function.comp_def]
  rfl

variable (result) in
/-- The dispatcher of a large plan of distinct labels loses no group and files none twice. -/
theorem accounts_runLargeGroups (hlabels : plan.LabelsDistinct)
    {turns : List (Dispatch.Turn PlannedGroup)}
    (hstopped : (runLargeGroups result plan turns).stopped = true) (lane : LaneId) :
    ((runLargeGroups result plan turns).fanouts lane).Accounts
      ((plan.groupsOf lane).map FileGroup.paths) := by
  have hrefines := refines_run result plan hlabels turns
  have hall : let p := exec groupStep (Dispatch.Pool.initial plan.selected) turns
      (p.early ++ p.late ++ p.unstarted.map Prod.fst ++ p.abandoned.map Prod.fst).Perm
        plan.selected :=
    Dispatch.accounted_exec (by decide) byName_perm (hrefines.stopped.symm.trans hstopped)
  generalize exec groupStep (Dispatch.Pool.initial plan.selected) turns = p at hrefines hall
  dsimp only at hall
  rw [hrefines.fanouts, ← units_filter]
  have hfiled := (@filed_plannedFanouts κ plan).recordAll result p.early
    |>.dropAll p.unstarted |>.recordAll result p.late |>.dropAll p.abandoned
  apply hfiled.perm
  simp only [List.append_assoc]
  apply List.Perm.append_left
  simp only [← List.map_append]
  apply List.Perm.map
  refine List.Perm.trans ?_ hall
  rw [List.perm_iff_count]
  intro g
  simp only [List.count_append]
  omega

end Filing

section Complete

variable {κ : Type} [Confidence κ] {judge : Judgement κ} {highEntropy : Text → Bool}
variable {config : Config κ} {diffs : List FileDiff} {continuity : Continuity κ}
variable {scanFindings : List Scan.Finding} {outcomes : List (LaneId × LaneOutcome κ)}

/-- A complete proposal has read every path a lane of it fanned out over. -/
theorem reviewed_of_complete {p : Proposal κ} (hcomplete : p.complete = true)
    (hlanes : p.lanes =
      proposalLanes judge highEntropy config diffs continuity scanFindings outcomes)
    {lane : LaneId} {f : FanOut κ} {units : List (List Text)} (hf : f.Accounts units)
    {final : LaneOutcome κ} (hfinal : f.intoOutcome.Extends final)
    (hentry : (lane, final) ∈ outcomes) {paths : List Text} (hpaths : paths ∈ units) {path : Text}
    (hpath : path ∈ paths) : reviewed final.coverage path := by
  have hanswered : ∀ l ∈ p.lanes, l.unanswered = [] := by
    simp only [Proposal.complete, Proposal.answered, Bool.and_eq_true, List.all_eq_true,
      List.isEmpty_iff] at hcomplete
    exact hcomplete.2
  rw [hlanes] at hanswered
  have hnone : f.unanswered = [] := hfinal.unanswered.symm.trans (answered_outcomes judge highEntropy
    config diffs continuity scanFindings outcomes hanswered hentry)
  have hread : path ∈ f.reviewedPaths := by
    have hmem : path ∈ f.reviewedPaths ++ f.unanswered :=
      hf.paths.symm.subset (List.mem_flatten_of_mem hpaths hpath)
    simpa [hnone] using hmem
  apply hfinal.reviewed
  have hsome : f.reviewedPaths ≠ [] := List.ne_nil_of_mem hread
  simp [reviewed, FanOut.intoOutcome, hsome, hread]

end Complete

/-- The groups of a plan are those its lanes prepared. -/
def ReviewPlan.Splits {κ : Type} (plan : ReviewPlan) (prepared : List (Preparation κ)) : Prop :=
  ∀ p ∈ prepared, (plan.groupsOf p.lane).Perm p.groups

/-- The units of a run of one lane are accounted for, and read if the proposal is complete. -/
def BoundedAccounted (κ : Type) [Confidence κ] : Prop :=
  (∀ (units : ℕ) (result : ℕ → UnitResult κ) (label : ℕ → Text) (memberPaths : ℕ → List Text)
      (turns : List Lanes.Turn),
    AccountedOnce (perUnitBounded units result label memberPaths turns)
      ((List.range units).map memberPaths)) ∧
  ∀ (judge : Judgement κ) (highEntropy : Text → Bool) (config : Config κ) (diffs : List FileDiff)
    (continuity : Continuity κ) (scanFindings : List Scan.Finding)
    (outcomes : List (LaneId × LaneOutcome κ)) (p : Proposal κ) (prepared : Preparation κ)
    (result : ℕ → UnitResult κ) (turns : List Lanes.Turn),
    p.lanes = proposalLanes judge highEntropy config diffs continuity scanFindings outcomes →
    (prepared.lane, prepared.runPrepared result turns) ∈ outcomes → p.complete = true →
    ∀ group ∈ prepared.groups, ∀ path ∈ group.paths,
      reviewed (prepared.runPrepared result turns).coverage path

/-- The groups of a large plan are accounted for, and read if the proposal is complete. -/
def LargeAccounted (κ : Type) [Confidence κ] (plan : ReviewPlan) : Prop :=
  ∀ (result : PlannedGroup → UnitResult κ) (turns : List (Dispatch.Turn PlannedGroup)),
    (runLargeGroups result plan turns).stopped = true →
    (∀ lane, AccountedOnce ((runLargeGroups result plan turns).fanouts lane)
      ((plan.groupsOf lane).map FileGroup.paths)) ∧
    ∀ (judge : Judgement κ) (highEntropy : Text → Bool) (config : Config κ)
      (diffs : List FileDiff) (continuity : Continuity κ) (scanFindings : List Scan.Finding)
      (outcomes : List (LaneId × LaneOutcome κ)) (p : Proposal κ)
      (prepared : List (Preparation κ)),
      plan.Splits prepared →
      Preparation.largeOutcomes prepared (runLargeGroups result plan turns) ⊆ outcomes →
      p.lanes = proposalLanes judge highEntropy config diffs continuity scanFindings outcomes →
      p.complete = true →
      ∀ lane ∈ prepared, ∀ group ∈ plan.groupsOf lane.lane, ∀ path ∈ group.paths,
        reviewed (lane.finishSelected
          ((runLargeGroups result plan turns).fanouts lane.lane).intoOutcome).coverage path

theorem boundedAccounted (κ : Type) [Confidence κ] : BoundedAccounted κ := by
  constructor
  · intro units result label memberPaths turns
    exact AccountedOnce.of_accounts (accounts_fanOut _)
  · intro judge highEntropy config diffs continuity scanFindings outcomes p prepared result turns
      hlanes hentry hcomplete group hgroup path hpath
    have hruns : prepared.skipped = none := Preparation.unplanned (List.ne_nil_of_mem hgroup)
    apply reviewed_of_complete hcomplete hlanes (accounts_fanOut _)
      (Preparation.extends_finishSelected hruns _) hentry _ hpath
    obtain ⟨index, hindex, rfl⟩ := List.getElem_of_mem hgroup
    rw [List.mem_map]
    exact ⟨index, List.mem_range.mpr hindex, by simp [hindex]⟩

theorem largeAccounted {κ : Type} [Confidence κ] {plan : ReviewPlan}
    (hlabels : plan.LabelsDistinct) : LargeAccounted κ plan := by
  intro result turns hstopped
  have haccounts := accounts_runLargeGroups result hlabels hstopped
  refine ⟨fun lane => AccountedOnce.of_accounts (haccounts lane), ?_⟩
  intro judge highEntropy config diffs continuity scanFindings outcomes p prepared hsplits hentries
    hlanes hcomplete lane hlane group hgroup path hpath
  have hruns : lane.skipped = none :=
    Preparation.unplanned (List.ne_nil_of_mem ((hsplits lane hlane).subset hgroup))
  have hentry := hentries (List.mem_map_of_mem (f := fun p : Preparation κ =>
    (p.lane, p.finishSelected
      ((runLargeGroups result plan turns).fanouts p.lane).intoOutcome)) hlane)
  exact reviewed_of_complete hcomplete hlanes (haccounts lane.lane)
    (Preparation.extends_finishSelected hruns _) hentry (List.mem_map_of_mem hgroup) hpath

/-- The files of a fan-out, and of a large plan of distinct labels, are accounted for along every
run. -/
theorem planned_files_accounted {κ : Type} [Confidence κ] {plan : ReviewPlan}
    (hlabels : plan.LabelsDistinct) : BoundedAccounted κ ∧ LargeAccounted κ plan :=
  ⟨boundedAccounted κ, largeAccounted hlabels⟩

def cleanReview : FileReview ℕ where
  summary := []
  findings := []
  resolved := []
  executionRefusal := none

def cleanGroup (paths : List Text) : PlannedGroup :=
  ⟨.critique, " + ".toList.intercalate paths, paths⟩

/-- One file is named as the group of two others is labelled. -/
def namesakes : ReviewPlan where
  selected := [cleanGroup ["a + b".toList], cleanGroup [['a'], ['b']]]
  omittedGroups := []

/-- One group completes; the drain deadline passes with the other in flight. -/
def drained (g : PlannedGroup) : List (Dispatch.Turn PlannedGroup) :=
  [⟨false, false, false, some g⟩, ⟨false, true, true, none⟩]

theorem planned_files_accounted_drained :
    let plan : ReviewPlan := ⟨[cleanGroup [['a']], cleanGroup [['b']]], []⟩
    let s := runLargeGroups (fun _ => .ok cleanReview) plan (drained (cleanGroup [['a']]))
    s.stopped = true ∧ AccountedOnce (s.fanouts .critique) [[['a']], [['b']]] := by
  intro plan s
  have hstopped : s.stopped = true := by decide +kernel
  have haccounted := (@planned_files_accounted ℕ _ plan (by
    unfold ReviewPlan.LabelsDistinct
    decide)).2 (fun _ => .ok cleanReview) (drained (cleanGroup [['a']])) hstopped
  exact ⟨hstopped, haccounted.1 .critique⟩

/-- The group in flight went with the name of the one that completed. -/
theorem namesake_lost : ¬LargeAccounted ℕ namesakes := by
  intro haccounted
  have hlost := (haccounted (fun _ => .ok cleanReview) (drained (cleanGroup ["a + b".toList]))
    (by decide +kernel)).1 .critique
  have hlength := hlost.accounts.once.length_eq
  exact absurd hlength (by decide +kernel)

end TinySweeper.App
