import TinySweeper.Lanes.Fanout

/-!
# Executing a large review plan

The selected groups of both per-file lanes share one queue and one stop window.
Groups in flight are kept under the name of their lane and label, and results are
filed with their lane as they complete.
-/

namespace TinySweeper.App

open Text Findings Lanes Runs

structure FileGroup where
  label : Text
  paths : List Text
  deriving DecidableEq, Repr

structure PlannedGroup where
  lane : LaneId
  group : FileGroup
  deriving DecidableEq, Repr

/-- The groups selected for review and those left out, by lane. -/
structure ReviewPlan where
  selected : List PlannedGroup
  omittedGroups : List (LaneId × List FileGroup)

/-- The name a group in flight is kept under. -/
def PlannedGroup.key (g : PlannedGroup) : LaneId × Text := (g.lane, g.group.label)

def laneRank : LaneId → ℕ
  | .critique => 0
  | .security => 1
  | .tests => 2
  | .commits => 3
  | .description => 4
  | .e2e => 5

/-- The order of the names. -/
def keyLe (g h : PlannedGroup) : Prop :=
  laneRank g.lane < laneRank h.lane ∨ g.lane = h.lane ∧ g.group.label ≤ h.group.label

instance : DecidableRel keyLe := fun _ _ => inferInstanceAs (Decidable (_ ∨ _))

structure Large (κ : Type) where
  fanouts : LaneId → FanOut κ
  queued : List PlannedGroup
  active : List PlannedGroup
  /-- At most one group for each name. -/
  activeGroups : List PlannedGroup
  draining : Bool
  stopped : Bool

section Loop

variable {κ : Type} (result : PlannedGroup → UnitResult κ)

/-- Change the fan-out of one lane. -/
def onLane (fanouts : LaneId → FanOut κ) (lane : LaneId) (f : FanOut κ → FanOut κ) :
    LaneId → FanOut κ :=
  Function.update fanouts lane (f (fanouts lane))

def omitGroups (fanouts : LaneId → FanOut κ) (groups : List PlannedGroup)
    (reason : OmissionReason) : LaneId → FanOut κ :=
  groups.foldl (fun fanouts g => onLane fanouts g.lane (·.leaveOut g.group.paths reason)) fanouts

def recordLargeGroupResult (fanouts : LaneId → FanOut κ) (g : PlannedGroup) :
    LaneId → FanOut κ :=
  onLane fanouts g.lane (·.record g.group.label g.group.paths (result g))

/-- The fan-outs of a plan before any group runs: what it left out. -/
def plannedFanouts (plan : ReviewPlan) : LaneId → FanOut κ :=
  plan.omittedGroups.foldl
    (fun fanouts entry => onLane fanouts entry.1 fun f =>
      entry.2.foldl (fun f group => f.leaveOut group.paths .notSelected) f)
    fun _ => FanOut.empty

namespace Large

def initial (plan : ReviewPlan) : Large κ :=
  ⟨plannedFanouts plan, plan.selected, [], [], false, false⟩

def omitQueue (s : Large κ) (reason : OmissionReason) : Large κ :=
  { s with fanouts := omitGroups s.fanouts s.queued reason, queued := [] }

/-- Stop with the groups kept under a name omitted, in the order of the names. -/
def omitActive (s : Large κ) (reason : OmissionReason) : Large κ :=
  { s with
    fanouts := omitGroups s.fanouts (s.activeGroups.insertionSort keyLe) reason
    activeGroups := []
    active := []
    stopped := true }

/-- Insert a group under its name; a group kept under that name is replaced. -/
def insertActive (groups : List PlannedGroup) (g : PlannedGroup) : List PlannedGroup :=
  groups.filter (fun h => h.key ≠ g.key) ++ [g]

/-- Start groups while there is room; at most one round for each slot. -/
def start : (fuel : ℕ) → Large κ → Large κ
  | 0, s => s
  | fuel + 1, s =>
    if !s.draining && s.active.length < MAX_CONCURRENT_FILES then
      match s.queued with
      | [] => s
      | g :: queued =>
        start fuel
          { s with
            queued
            active := s.active ++ [g]
            activeGroups := insertActive s.activeGroups g }
    else s

/-- Notice the soft deadline once. -/
def drain (s : Large κ) (pastSoft : Bool) : Large κ :=
  if !s.draining && pastSoft then { s.omitQueue .softDeadline with draining := true } else s

/-- The state at the point of a turn where it waits for a completion. -/
def prepare (s : Large κ) (t : Dispatch.Turn PlannedGroup) : Large κ :=
  if t.cancelled then (s.omitQueue .cancelled).omitActive .cancelled
  else
    let s := s.drain t.pastSoft
    if s.draining && t.pastDrain then s.omitActive .drainDeadline
    else
      let s := s.start MAX_CONCURRENT_FILES
      if s.active.isEmpty then
        if s.queued.isEmpty then { s with stopped := true } else s
      else s

/-- A completed group leaves the flight, and its name with it. -/
def complete (s : Large κ) (g : PlannedGroup) : Large κ :=
  if g ∈ s.active then
    { s with
      active := s.active.erase g
      activeGroups := s.activeGroups.filter fun h => h.key ≠ g.key
      fanouts := recordLargeGroupResult result s.fanouts g }
  else s

/-- One turn of the loop. -/
def turn (s : Large κ) (t : Dispatch.Turn PlannedGroup) : Large κ :=
  if s.stopped then s
  else
    let s := s.prepare t
    if s.stopped then s
    else
      match t.completed with
      | some g => s.complete result g
      | none => s

end Large

/-- The loop over a plan. -/
def runLargeGroups (plan : ReviewPlan) (turns : List (Dispatch.Turn PlannedGroup)) : Large κ :=
  exec (Large.turn result) (Large.initial plan) turns

end Loop

/-- The groups of a plan that belong to a lane: left out and selected. -/
def ReviewPlan.groupsOf (plan : ReviewPlan) (lane : LaneId) : List FileGroup :=
  ((plan.omittedGroups.filter fun entry => entry.1 = lane).flatMap Prod.snd) ++
    (plan.selected.filter fun g => g.lane = lane).map PlannedGroup.group

/-- No two selected groups of a lane share a label. -/
def ReviewPlan.LabelsDistinct (plan : ReviewPlan) : Prop :=
  (plan.selected.map PlannedGroup.key).Nodup

section Refinement

variable {κ : Type} (result : PlannedGroup → UnitResult κ) (plan : ReviewPlan) {g : PlannedGroup}

def stopReason : Dispatch.Stop → OmissionReason
  | .soft => .softDeadline
  | .drain => .drainDeadline
  | .cancelled => .cancelled

def byName (groups : List PlannedGroup) : List PlannedGroup := groups.insertionSort keyLe

abbrev groupStep (p : Dispatch.Pool PlannedGroup) (t : Dispatch.Turn PlannedGroup) :
    Dispatch.Pool PlannedGroup :=
  p.step MAX_CONCURRENT_FILES byName t

def dropAll (fanouts : LaneId → FanOut κ) (drops : List (PlannedGroup × Dispatch.Stop)) :
    LaneId → FanOut κ :=
  drops.foldl
    (fun fanouts d => onLane fanouts d.1.lane (·.leaveOut d.1.group.paths (stopReason d.2))) fanouts

def recordAll (fanouts : LaneId → FanOut κ) (groups : List PlannedGroup) : LaneId → FanOut κ :=
  groups.foldl (recordLargeGroupResult result) fanouts

/-- The fan-outs a pool stands for: what became of its groups, in the order it happened. -/
def replay (p : Dispatch.Pool PlannedGroup) : LaneId → FanOut κ :=
  dropAll (recordAll result (dropAll (recordAll result (plannedFanouts plan) p.early) p.unstarted)
    p.late) p.abandoned

structure Refines (s : Large κ) (p : Dispatch.Pool PlannedGroup) : Prop where
  queued : s.queued = p.queued
  active : s.active = p.active
  draining : s.draining = p.draining
  stopped : s.stopped = p.stopped
  groups : s.stopped = false → s.activeGroups.Perm p.active
  fanouts : s.fanouts = replay result plan p

theorem byName_perm (groups : List PlannedGroup) : (byName groups).Perm groups :=
  List.perm_insertionSort _ _

theorem laneRank_injective : Function.Injective laneRank := by
  intro a b h
  cases a <;> cases b <;> first | rfl | cases h

instance : Std.Total keyLe where
  total g h := by
    rcases lt_trichotomy (laneRank g.lane) (laneRank h.lane) with hlt | heq | hgt
    · exact .inl (.inl hlt)
    · have hlane := laneRank_injective heq
      rcases List.le_total g.group.label h.group.label with hle | hle
      · exact .inl (.inr ⟨hlane, hle⟩)
      · exact .inr (.inr ⟨hlane.symm, hle⟩)
    · exact .inr (.inl hgt)

instance : IsTrans PlannedGroup keyLe where
  trans a b c := by
    rintro (hab | ⟨hab, hle⟩) (hbc | ⟨hbc, hle'⟩)
    · exact .inl (hab.trans hbc)
    · exact .inl (hbc ▸ hab)
    · exact .inl (hab ▸ hbc)
    · exact .inr ⟨hab.trans hbc, List.le_trans hle hle'⟩

theorem key_eq_of_keyLe {h : PlannedGroup} (hgh : keyLe g h) (hhg : keyLe h g) : g.key = h.key := by
  rcases hgh with hlt | ⟨hlane, hle⟩ <;> rcases hhg with hlt' | ⟨hlane', hle'⟩
  · omega
  · rw [hlane'] at hlt
    omega
  · rw [hlane] at hlt'
    omega
  · exact Prod.ext hlane (List.le_antisymm hle hle')

/-- The order of the names does not depend on how the groups came. -/
theorem byName_canonical {groups groups' : List PlannedGroup} (hperm : groups.Perm groups')
    (hkeys : ∀ g ∈ groups, ∀ h ∈ groups, g.key = h.key → g = h) :
    byName groups = byName groups' := by
  apply @List.Perm.eq_of_pairwise _ keyLe
  · intro g h hg hh hgh hhg
    have hg : g ∈ groups := (List.mem_insertionSort _).mp hg
    have hh : h ∈ groups := hperm.symm.subset ((List.mem_insertionSort _).mp hh)
    exact hkeys g hg h hh (key_eq_of_keyLe hgh hhg)
  · exact List.pairwise_insertionSort _ _
  · exact List.pairwise_insertionSort _ _
  · exact (byName_perm groups).trans (hperm.trans (byName_perm groups').symm)

/-- Among groups of distinct names, removing a name removes its group. -/
theorem filter_key_eq_erase {groups : List PlannedGroup}
    (hkeys : (groups.map PlannedGroup.key).Nodup) (hg : g ∈ groups) :
    groups.filter (fun h => h.key ≠ g.key) = groups.erase g := by
  rw [(hkeys.of_map _).erase_eq_filter]
  apply List.filter_congr
  intro h hh
  have hiff : h.key ≠ g.key ↔ h ≠ g := by
    constructor
    · intro hne heq
      exact hne (congrArg PlannedGroup.key heq)
    · intro hne heq
      exact hne (List.inj_on_of_nodup_map hkeys hh hg heq)
  by_cases heq : h = g
  · simp [heq]
  · simp [heq, hiff.mpr heq]

theorem omitGroups_eq (fanouts : LaneId → FanOut κ) (groups : List PlannedGroup)
    (stop : Dispatch.Stop) :
    omitGroups fanouts groups (stopReason stop) =
      dropAll fanouts (groups.map fun g => (g, stop)) := by
  simp [omitGroups, dropAll, List.foldl_map]

theorem dropAll_append (fanouts : LaneId → FanOut κ)
    (drops drops' : List (PlannedGroup × Dispatch.Stop)) :
    dropAll fanouts (drops ++ drops') = dropAll (dropAll fanouts drops) drops' := by
  simp [dropAll]

variable {result plan} {s : Large κ} {p : Dispatch.Pool PlannedGroup} {queued : List PlannedGroup}

/-- No two groups of the pool share a name. -/
def NamesDistinct (p : Dispatch.Pool PlannedGroup) : Prop :=
  (p.everything.map PlannedGroup.key).Nodup

theorem NamesDistinct.active (hnames : NamesDistinct p) :
    (p.active.map PlannedGroup.key).Nodup := by
  have hsub : p.active.Sublist p.everything := by
    simp only [Dispatch.Pool.everything, List.append_assoc]
    exact (List.sublist_append_left _ _).trans (List.sublist_append_right _ _)
  exact (hsub.map PlannedGroup.key).nodup hnames

theorem Refines.omitQueue (h : Refines result plan s p) (hphased : Dispatch.Phased p)
    (hrun : p.stopped = false) (hsettled : Dispatch.Settled p) (stop : Dispatch.Stop) :
    Refines result plan (s.omitQueue (stopReason stop)) (p.dropQueue stop) where
  queued := rfl
  active := h.active
  draining := h.draining
  stopped := h.stopped
  groups := h.groups
  fanouts := by
    change omitGroups s.fanouts s.queued (stopReason stop) = _
    rw [omitGroups_eq, h.fanouts, h.queued]
    simp only [replay, Dispatch.Pool.dropQueue, hphased.abandoned hrun]
    cases hdraining : p.draining with
    | true => simp [hsettled.draining hdraining, dropAll]
    | false => simp [hphased.late hdraining, dropAll, recordAll]

theorem Refines.omitActive (h : Refines result plan s p) (hrun : s.stopped = false)
    (hnames : NamesDistinct p) (stop : Dispatch.Stop) :
    Refines result plan (s.omitActive (stopReason stop)) (p.abandon byName stop) where
  queued := h.queued
  active := rfl
  draining := h.draining
  stopped := rfl
  groups hstopped := absurd hstopped.symm Bool.false_ne_true
  fanouts := by
    have hsorted : s.activeGroups.insertionSort keyLe = byName p.active :=
      (byName_canonical (h.groups hrun).symm fun _ hg _ hh heq =>
        List.inj_on_of_nodup_map hnames.active hg hh heq).symm
    change omitGroups s.fanouts (s.activeGroups.insertionSort keyLe) (stopReason stop) = _
    rw [omitGroups_eq, h.fanouts, hsorted]
    simp only [replay, Dispatch.Pool.abandon, dropAll_append]

theorem Refines.drain (h : Refines result plan s p) (hphased : Dispatch.Phased p)
    (hrun : p.stopped = false) (hsettled : Dispatch.Settled p) (pastSoft : Bool) :
    Refines result plan (s.drain pastSoft) (p.drain pastSoft) := by
  unfold Large.drain Dispatch.Pool.drain
  rw [h.draining]
  split
  · have hqueue := h.omitQueue hphased hrun hsettled .soft
    exact ⟨hqueue.queued, hqueue.active, rfl, hqueue.stopped, hqueue.groups, hqueue.fanouts⟩
  · exact h

theorem NamesDistinct.congr (hnames : NamesDistinct p) {q : Dispatch.Pool PlannedGroup}
    (hsame : q.everything.Perm p.everything) : NamesDistinct q :=
  (hsame.map PlannedGroup.key).nodup_iff.mpr hnames

/-- The pool after its first queued group is started. -/
theorem startOne_names (hqueued : p.queued = g :: queued) (hnames : NamesDistinct p) :
    NamesDistinct { p with queued, active := p.active ++ [g] } := by
  apply hnames.congr
  simp only [Dispatch.Pool.everything, hqueued, List.append_assoc]
  rw [List.perm_iff_count]
  intro a
  simp only [List.count_append, List.count_cons, List.count_nil]
  omega

theorem key_notMem_active (hqueued : p.queued = g :: queued) (hnames : NamesDistinct p) :
    ∀ h ∈ p.active, h.key ≠ g.key := by
  have hactive := (startOne_names hqueued hnames).active
  rw [List.map_append, List.nodup_append] at hactive
  intro h hh heq
  exact hactive.2.2 _ (List.mem_map_of_mem hh) _ (by simp) heq

/-- Nothing is started without a queue and room. -/
theorem start_eq_self {fuel : ℕ}
    (hfull : s.draining = true ∨ MAX_CONCURRENT_FILES ≤ s.active.length ∨ s.queued = []) :
    s.start fuel = s := by
  cases fuel with
  | zero => rfl
  | succ fuel =>
    unfold Large.start
    split
    · next hroom =>
      simp only [Bool.and_eq_true, Bool.not_eq_true', decide_eq_true_eq] at hroom
      have hqueued : s.queued = [] := by
        rcases hfull with hdraining | hlength | hqueued
        · exact absurd (hroom.1.symm.trans hdraining) Bool.false_ne_true
        · omega
        · exact hqueued
      rw [hqueued]
    · rfl

theorem start_cons {fuel : ℕ} (hdraining : s.draining = false)
    (hlength : s.active.length < MAX_CONCURRENT_FILES) (hqueued : s.queued = g :: queued) :
    s.start (fuel + 1) =
      Large.start fuel
        { s with
          queued
          active := s.active ++ [g]
          activeGroups := Large.insertActive s.activeGroups g } := by
  rw [Large.start, if_pos (by simp [hdraining, hlength]), hqueued]

theorem fill_eq_self (hfull : p.room MAX_CONCURRENT_FILES = 0 ∨ p.queued = []) :
    p.fill MAX_CONCURRENT_FILES = p := by
  rcases hfull with hroom | hqueued
  · simp only [Dispatch.Pool.fill, hroom, List.drop_zero, List.take_zero, List.append_nil]
  · obtain ⟨queued, active, early, late, unstarted, abandoned, draining, stopped, cancelled⟩ := p
    cases hqueued
    simp only [Dispatch.Pool.fill, List.drop_nil, List.take_nil, List.append_nil]

theorem fill_cons (hdraining : p.draining = false)
    (hlength : p.active.length < MAX_CONCURRENT_FILES) (hqueued : p.queued = g :: queued) :
    p.fill MAX_CONCURRENT_FILES =
      Dispatch.Pool.fill MAX_CONCURRENT_FILES { p with queued, active := p.active ++ [g] } := by
  have hroom : p.room MAX_CONCURRENT_FILES =
      (MAX_CONCURRENT_FILES - (p.active ++ [g]).length) + 1 := by
    simp only [Dispatch.Pool.room, hdraining, Bool.false_eq_true, if_false, List.length_append,
      List.length_singleton]
    omega
  have hrest : Dispatch.Pool.room MAX_CONCURRENT_FILES { p with queued, active := p.active ++ [g] } =
      MAX_CONCURRENT_FILES - (p.active ++ [g]).length := by
    simp [Dispatch.Pool.room, hdraining]
  simp only [Dispatch.Pool.fill, hrest, hroom, hqueued, List.drop_succ_cons, List.take_succ_cons,
    List.append_assoc, List.singleton_append]

/-- Starting one queued group keeps the refinement. -/
theorem Refines.startOne (h : Refines result plan s p) (hrun : s.stopped = false)
    (hnames : NamesDistinct p) (hqueued : p.queued = g :: queued) :
    Refines result plan
      { s with
        queued
        active := s.active ++ [g]
        activeGroups := Large.insertActive s.activeGroups g }
      { p with queued, active := p.active ++ [g] } where
  queued := rfl
  active := congrArg (· ++ [g]) h.active
  draining := h.draining
  stopped := h.stopped
  groups _ := by
    have hfilter : s.activeGroups.filter (fun other => other.key ≠ g.key) = s.activeGroups := by
      rw [List.filter_eq_self]
      intro other hother
      simpa using key_notMem_active hqueued hnames other ((h.groups hrun).subset hother)
    change (s.activeGroups.filter (fun other => other.key ≠ g.key) ++ [g]).Perm (p.active ++ [g])
    rw [hfilter]
    exact (h.groups hrun).append_right [g]
  fanouts := h.fanouts

theorem Refines.start (h : Refines result plan s p) (hrun : s.stopped = false)
    (hnames : NamesDistinct p) (fuel : ℕ) (hfuel : p.room MAX_CONCURRENT_FILES ≤ fuel) :
    Refines result plan (s.start fuel) (p.fill MAX_CONCURRENT_FILES) := by
  induction fuel generalizing s p with
  | zero =>
    rw [fill_eq_self (.inl (Nat.le_zero.mp hfuel))]
    exact h
  | succ fuel ih =>
    cases hdraining : p.draining with
    | true =>
      rw [start_eq_self (.inl (h.draining.trans hdraining)),
        fill_eq_self (.inl (by simp [Dispatch.Pool.room, hdraining]))]
      exact h
    | false =>
      by_cases hlength : p.active.length < MAX_CONCURRENT_FILES
      · cases hqueued : p.queued with
        | nil =>
          rw [start_eq_self (.inr (.inr (h.queued.trans hqueued))), fill_eq_self (.inr hqueued)]
          exact h
        | cons g queued =>
          rw [start_cons (h.draining.trans hdraining) (h.active ▸ hlength)
            (h.queued.trans hqueued), fill_cons hdraining hlength hqueued]
          apply ih (h.startOne hrun hnames hqueued) hrun (startOne_names hqueued hnames)
          simp only [Dispatch.Pool.room, hdraining, Bool.false_eq_true, if_false,
            List.length_append, List.length_singleton] at hfuel ⊢
          omega
      · rw [start_eq_self (.inr (.inl (by rw [h.active]; omega))), fill_eq_self (.inl (by
          simp only [Dispatch.Pool.room, hdraining, Bool.false_eq_true, if_false]
          omega))]
        exact h

theorem Refines.prepare (h : Refines result plan s p) (hrun : p.stopped = false)
    (hnames : NamesDistinct p) (hphased : Dispatch.Phased p) (hsettled : Dispatch.Settled p)
    (t : Dispatch.Turn PlannedGroup) :
    Refines result plan (s.prepare t) (p.prepare MAX_CONCURRENT_FILES byName t) := by
  have hsrun : s.stopped = false := h.stopped.trans hrun
  have hdrain := h.drain hphased hrun hsettled t.pastSoft
  have hdrainNames := hnames.congr (Dispatch.everything_drain p t.pastSoft)
  have hdrainRun : (s.drain t.pastSoft).stopped = false := by
    unfold Large.drain
    split <;> exact hsrun
  have hfill := hdrain.start hdrainRun hdrainNames MAX_CONCURRENT_FILES (by
    simp only [Dispatch.Pool.room]
    split <;> omega)
  have hprepared := @Dispatch.settled_prepare _ MAX_CONCURRENT_FILES byName (by decide) _ hsettled
    hrun t
  unfold Dispatch.Pool.prepare at hprepared
  unfold Large.prepare Dispatch.Pool.prepare
  cases hcancelled : t.cancelled with
  | true =>
    have hqueue := h.omitQueue hphased hrun hsettled .cancelled
    have hactive := hqueue.omitActive hsrun
      (hnames.congr (Dispatch.everything_dropQueue p .cancelled)) .cancelled
    exact ⟨hactive.queued, hactive.active, hactive.draining, hactive.stopped, hactive.groups,
      hactive.fanouts⟩
  | false =>
    simp only [hcancelled, Bool.false_eq_true, if_false] at hprepared ⊢
    rw [hdrain.draining]
    split
    · exact hdrain.omitActive hdrainRun hdrainNames .drain
    · next hgoes =>
      rw [if_neg hgoes] at hprepared
      have hactive : ((s.drain t.pastSoft).start MAX_CONCURRENT_FILES).active.isEmpty =
          ((p.drain t.pastSoft).fill MAX_CONCURRENT_FILES).active.isEmpty :=
        congrArg List.isEmpty hfill.active
      rw [hactive]
      split
      · next hempty =>
        rw [if_pos hempty] at hprepared
        have hqueued : ((p.drain t.pastSoft).fill MAX_CONCURRENT_FILES).queued = [] :=
          (hprepared.stopped rfl).1
        rw [if_pos (by simp [hfill.queued, hqueued])]
        exact ⟨hfill.queued, hfill.active, hfill.draining, rfl,
          fun hstopped => absurd hstopped.symm Bool.false_ne_true, hfill.fanouts⟩
      · exact hfill

theorem Refines.complete (h : Refines result plan s p) (hrun : p.stopped = false)
    (hnames : NamesDistinct p) (hphased : Dispatch.Phased p) (g : PlannedGroup) :
    Refines result plan (s.complete result g) (p.finish g) := by
  unfold Large.complete Dispatch.Pool.finish
  rw [h.active]
  split
  · next hactive =>
    have hsrun := h.stopped.trans hrun
    have hgroups : (s.activeGroups.filter fun other => other.key ≠ g.key).Perm
        (p.active.erase g) := by
      rw [← filter_key_eq_erase hnames.active hactive]
      exact (h.groups hsrun).filter _
    have habandoned := hphased.abandoned hrun
    split
    · next hdraining =>
      refine ⟨h.queued, rfl, h.draining, h.stopped, fun _ => hgroups, ?_⟩
      change recordLargeGroupResult result s.fanouts g = _
      rw [h.fanouts]
      simp [replay, habandoned, recordAll, dropAll]
    · next hdraining =>
      have hearly := hphased.unstarted (by simpa using hdraining) hrun
      have hlate := hphased.late (by simpa using hdraining)
      refine ⟨h.queued, rfl, h.draining, h.stopped, fun _ => hgroups, ?_⟩
      change recordLargeGroupResult result s.fanouts g = _
      rw [h.fanouts]
      simp [replay, habandoned, hearly, hlate, recordAll, dropAll]
  · exact h

theorem Refines.turn (h : Refines result plan s p) (hnames : NamesDistinct p)
    (hphased : Dispatch.Phased p) (hsettled : Dispatch.Settled p)
    (t : Dispatch.Turn PlannedGroup) :
    Refines result plan (s.turn result t) (groupStep p t) := by
  unfold Large.turn groupStep Dispatch.Pool.step
  rw [h.stopped]
  split
  · exact h
  · next hrun =>
    have hprun : p.stopped = false := by simpa using hrun
    have hprepare := h.prepare hprun hnames hphased hsettled t
    have hprepareNames := hnames.congr (@Dispatch.everything_prepare _ _ MAX_CONCURRENT_FILES _
      byName_perm p t)
    have hpreparePhased := @Dispatch.phased_prepare _ MAX_CONCURRENT_FILES byName _ hphased
      hprun t
    dsimp only
    rw [hprepare.stopped]
    split
    · exact hprepare
    · next hgoes =>
      cases t.completed with
      | some g => exact hprepare.complete (by simpa using hgoes) hprepareNames hpreparePhased g
      | none => exact hprepare

variable (result plan) in
/-- The loop and its pool, with what the refinement of a turn needs. -/
structure Linked (s : Large κ) (p : Dispatch.Pool PlannedGroup) : Prop where
  refines : Refines result plan s p
  names : NamesDistinct p
  phased : Dispatch.Phased p
  settled : Dispatch.Settled p

theorem Linked.turn (h : Linked result plan s p)
    (t : Dispatch.Turn PlannedGroup) :
    Linked result plan (s.turn result t) (groupStep p t) where
  refines := h.refines.turn h.names h.phased h.settled t
  names := h.names.congr (Dispatch.everything_step byName_perm p t)
  phased := Dispatch.phased_step h.phased t
  settled := Dispatch.settled_step (by decide) h.settled t

variable (result plan) in
theorem linked_initial (hlabels : plan.LabelsDistinct) :
    Linked result plan (Large.initial plan)
      (Dispatch.Pool.initial plan.selected) where
  refines := ⟨rfl, rfl, rfl, rfl, fun _ => List.Perm.refl _, rfl⟩
  names := by
    simpa [NamesDistinct, Dispatch.Pool.everything, Dispatch.Pool.initial] using
      (show (plan.selected.map PlannedGroup.key).Nodup from hlabels)
  phased := ⟨fun _ => rfl, fun _ _ => rfl, fun _ => rfl⟩
  settled := @Dispatch.settled_exec _ _ MAX_CONCURRENT_FILES byName (by decide)
    plan.selected []

theorem Linked.exec (h : Linked result plan s p)
    (turns : List (Dispatch.Turn PlannedGroup)) :
    Linked result plan (exec (Large.turn result) s turns)
      (exec groupStep p turns) := by
  induction turns generalizing s p with
  | nil => exact h
  | cons t turns ih => exact ih (h.turn t)

variable (result plan) in
/-- The loop over a plan of distinct labels runs as a pool of its selected groups. -/
theorem refines_run (hlabels : plan.LabelsDistinct) (turns : List (Dispatch.Turn PlannedGroup)) :
    Refines result plan (runLargeGroups result plan turns)
      (exec groupStep (Dispatch.Pool.initial plan.selected) turns) :=
  ((linked_initial result plan hlabels).exec turns).refines

/-- A group completes only in a turn that waits, and only when it is in flight. -/
def Large.Completes (s : Large κ) (t : Dispatch.Turn PlannedGroup) : Prop :=
  ∀ g, t.completed = some g →
    s.stopped = false ∧ (s.prepare t).stopped = false ∧ g ∈ (s.prepare t).active

instance : DecidableRel (@Large.Completes κ) := fun s t =>
  decidable_of_iff (∀ g ∈ t.completed,
    s.stopped = false ∧ (s.prepare t).stopped = false ∧ g ∈ (s.prepare t).active) Iff.rfl

theorem Linked.completes (h : Linked result plan s p)
    {t : Dispatch.Turn PlannedGroup} (hvalid : s.Completes t) :
    Dispatch.Completes MAX_CONCURRENT_FILES byName p t := by
  intro g hg
  obtain ⟨hrun, hgoes, hactive⟩ := hvalid g hg
  have hprun : p.stopped = false := h.refines.stopped.symm.trans hrun
  have hprepare := h.refines.prepare hprun h.names h.phased h.settled t
  exact ⟨hprun, hprepare.stopped.symm.trans hgoes, hprepare.active ▸ hactive⟩

theorem Linked.guarded (h : Linked result plan s p)
    {turns : List (Dispatch.Turn PlannedGroup)}
    (hvalid : Guarded (Large.turn result) Large.Completes s turns) :
    Guarded groupStep (Dispatch.Completes MAX_CONCURRENT_FILES byName) p turns := by
  induction turns generalizing s p with
  | nil => trivial
  | cons t turns ih => exact ⟨h.completes hvalid.1, ih (h.turn t) hvalid.2⟩

end Refinement

end TinySweeper.App
