import TinySweeper.Findings.Finding

/-!
# What a lane proposes

A lane's answer becomes a proposal: severities raised before are kept, the
conclusion is decided from everything the lane was sure of, and only then is
what will be shown filtered. Scanner findings whose lane never ran are published
in its place. Spend is not modelled.
-/

namespace TinySweeper.App

open Text Evidence Findings
open Scan (Severity ScanKind)

inductive OmissionReason where
  | notSelected
  | softDeadline
  | drainDeadline
  | callLimit
  | cancelled
  deriving DecidableEq, Repr

/-- A planned group left out without claiming that a provider failed. -/
structure OmittedGroup where
  paths : List Text
  reason : OmissionReason
  deriving DecidableEq, Repr

structure FileCoverage where
  reviewed : List Text
  unanswered : List Text
  deriving DecidableEq, Repr

structure LaneOutcome (κ : Type) where
  summary : Text
  contextDegraded : Bool
  completed : Bool
  findings : List (Finding κ)
  resolved : List Text
  skipped : Option Text
  pending : List Text
  unanswered : List Text
  omissions : List OmittedGroup
  coverage : Option FileCoverage
  deriving DecidableEq

inductive CheckConclusion where
  | success
  | failure
  | actionRequired
  | neutral
  | skipped
  deriving DecidableEq, Repr

def CheckConclusion.blocks : CheckConclusion → Bool
  | .failure | .actionRequired => true
  | _ => false

/-- One lane's verdict. -/
structure LaneProposal (κ : Type) where
  lane : LaneId
  checkName : Text
  conclusion : CheckConclusion
  summary : Text
  completed : Bool
  findings : List (Finding κ)
  blockingFindings : Option (List Text)
  noted : List (Finding κ)
  contextDegraded : Bool
  resolved : List Text
  pending : List Text
  skipped : Option Text
  deduped : ℕ
  highestSeverity : Option Severity
  unanswered : List Text
  omissions : List OmittedGroup
  coverage : Option FileCoverage
  overflow : List (Finding κ)
  deriving DecidableEq

/-- The settings a proposal is decided with. -/
structure Config (κ : Type) where
  failOn : LaneId → Severity
  requestChangesAt : Option Severity
  severityGate : Severity
  confidenceMin : κ
  noteConfidence : κ
  maxComments : ℕ
  approveWhenClean : Bool

/-- What an earlier cycle knows that this one has to stay consistent with. -/
structure Continuity (κ : Type) where
  severities : Text → Option Severity
  suppressed : List Text
  titles : List Text
  repeatsConcern : Finding κ → Bool
  openFindings : ℕ

/-- How many findings below the gate one lane may note. -/
def MAX_NOTED : ℕ := 5

section Proposing

variable {κ : Type} [Confidence κ] (judge : Judgement κ) (highEntropy : Text → Bool)
variable (config : Config κ) (diffs : List FileDiff) (continuity : Continuity κ)

/-- A finding raised before keeps the level it was raised at. -/
def pinned (f : Finding κ) : Finding κ :=
  match continuity.severities f.title with
  | some posted => { f with severity := posted }
  | none => f

/-- The findings of an outcome, pinned and stamped. -/
def prepared (outcome : LaneOutcome κ) : List (Finding κ) :=
  stamp judge (outcome.findings.map (pinned continuity)) diffs

/-- Whether the findings were reviewed without usable repository context. -/
def contextDegraded (lane : LaneId) (outcome : LaneOutcome κ) : Bool :=
  lane = .critique && outcome.contextDegraded

/-- The findings the verdict is decided on. -/
def confidenceQualified (lane : LaneId) (outcome : LaneOutcome κ) : List (Finding κ) :=
  (prepared judge diffs continuity outcome).filter fun f =>
    !contextDegraded lane outcome && Confidence.atLeast f.confidence config.confidenceMin

def concludes (lane : LaneId) (outcome : LaneOutcome κ) : CheckConclusion :=
  if outcome.skipped.isSome then .neutral
  else if (confidenceQualified judge config diffs continuity lane outcome).any fun f =>
      config.failOn lane ≤ f.severity then .failure
  else if !outcome.unanswered.isEmpty then .neutral
  else if !outcome.pending.isEmpty then .neutral
  else .success

/-- The identities of the findings that can request changes. -/
def blockingFindings (requestChangesAt : Option Severity) (findings : List (Finding κ)) :
    List Text :=
  match requestChangesAt with
  | some threshold =>
    (findings.filter fun f => threshold ≤ f.severity).map (Finding.known judge.sha256)
  | none => []

/-- Most severe first, then the surer. -/
def rankedBefore (f g : Finding κ) : Ordering :=
  (compare g.severity f.severity).then (Confidence.totalCmp g.confidence f.confidence)

def noted (lane : LaneId) (outcome : LaneOutcome κ) : List (Finding κ) :=
  let worth := (prepared judge diffs continuity outcome).filter fun f =>
    if contextDegraded lane outcome then
      .medium ≤ f.severity && Confidence.atLeast f.confidence config.noteConfidence
    else
      !f.meets config.severityGate config.confidenceMin && .medium ≤ f.severity &&
        Confidence.atLeast f.confidence config.noteConfidence
  (worth.insertionSort fun f g => (rankedBefore f g).isLE).take MAX_NOTED

/-- The findings that pass the posting gate. -/
def gated (lane : LaneId) (outcome : LaneOutcome κ) : List (Finding κ) :=
  (prepared judge diffs continuity outcome).filter fun f =>
    !contextDegraded lane outcome && f.meets config.severityGate config.confidenceMin

/-- Whether a finding already sits on the pull request. -/
def alreadyPosted (f : Finding κ) : Bool :=
  f.identity.any (· ∈ continuity.suppressed) ||
    f.fingerprint judge.sha256 f.title ∈ continuity.suppressed || continuity.repeatsConcern f

/-- What passes the gate and has not been posted yet. -/
def fresh (lane : LaneId) (outcome : LaneOutcome κ) : List (Finding κ) :=
  (gated judge config diffs continuity lane outcome).filter
    fun f => !alreadyPosted judge continuity f

def laneProposal (lane : LaneId) (outcome : LaneOutcome κ) : LaneProposal κ :=
  let outcomeSummary := Scan.scrub highEntropy outcome.summary
  let qualified := confidenceQualified judge config diffs continuity lane outcome
  let passed := gated judge config diffs continuity lane outcome
  let raised := passed.map Finding.title
  let findings := fresh judge config diffs continuity lane outcome
  let deduped := passed.length - findings.length
  let summary :=
    if deduped > 0 then
      outcomeSummary ++ " (".toList ++ decimal deduped ++
        " already raised on this pull request)".toList
    else outcomeSummary
  let stillOpen := (continuity.titles.filter fun title =>
    title ∉ outcome.resolved && title ∉ raised).length
  let summary :=
    if stillOpen > 0 ∧ outcome.skipped = none then
      summary ++ " (".toList ++ decimal stillOpen ++ " earlier finding(s) still open)".toList
    else summary
  { lane
    checkName := lane.checkName
    conclusion := concludes judge config diffs continuity lane outcome
    summary
    completed := outcome.completed
    findings := findings.insertionSort fun f g =>
      ((rankedBefore f g).then (compare g.corroboration f.corroboration)).isLE
    blockingFindings := some (blockingFindings judge config.requestChangesAt qualified)
    noted := noted judge config diffs continuity lane outcome
    contextDegraded := contextDegraded lane outcome
    resolved := outcome.resolved.map (Scan.scrub highEntropy)
    pending := outcome.pending
    skipped := outcome.skipped
    deduped
    highestSeverity := (qualified.map Finding.severity).max?
    unanswered := outcome.unanswered
    omissions := outcome.omissions
    coverage := outcome.coverage
    overflow := [] }

variable {lane : LaneId} {outcome : LaneOutcome κ}

@[simp] theorem laneProposal_lane :
    (laneProposal judge highEntropy config diffs continuity lane outcome).lane = lane := rfl

@[simp] theorem laneProposal_conclusion :
    (laneProposal judge highEntropy config diffs continuity lane outcome).conclusion =
      concludes judge config diffs continuity lane outcome := rfl

@[simp] theorem laneProposal_skipped :
    (laneProposal judge highEntropy config diffs continuity lane outcome).skipped =
      outcome.skipped := rfl

@[simp] theorem laneProposal_unanswered :
    (laneProposal judge highEntropy config diffs continuity lane outcome).unanswered =
      outcome.unanswered := rfl

@[simp] theorem laneProposal_coverage :
    (laneProposal judge highEntropy config diffs continuity lane outcome).coverage =
      outcome.coverage := rfl

@[simp] theorem laneProposal_omissions :
    (laneProposal judge highEntropy config diffs continuity lane outcome).omissions =
      outcome.omissions := rfl

@[simp] theorem laneProposal_overflow :
    (laneProposal judge highEntropy config diffs continuity lane outcome).overflow = [] := rfl

end Proposing

section Fallback

variable {κ : Type} [Confidence κ] (judge : Judgement κ)
variable (requestChangesAt : Option Severity) (scanFindings : List Scan.Finding)

/-- The scanner kinds a lane adjudicates. -/
def adjudicates (owner : LaneId) : List ScanKind :=
  match owner with
  | .security => [.workflow, .dependency]
  | _ => [.secret, .blob, .junk]

/-- The scanner findings that would block, labelled with their owner. -/
def unclaimed (κ : Type) [Confidence κ] (scanFindings : List Scan.Finding) (owner : LaneId) :
    List (Finding κ) :=
  (scanFindings.filter fun scan =>
    scan.kind ∈ adjudicates owner && .high ≤ scan.severity).map fun scan =>
      { Finding.ofScan scan with lane := owner }

/-- The lane published for an owner that did not run. -/
def fallbackLane (owner : LaneId) (unanswered : List Text) (findings : List (Finding κ)) :
    LaneProposal κ where
  lane := owner
  checkName := owner.checkName
  conclusion := .failure
  summary := decimal findings.length ++ " finding(s) from the deterministic scanners.".toList
  completed := true
  findings
  blockingFindings := some (blockingFindings judge requestChangesAt findings)
  noted := []
  contextDegraded := false
  resolved := []
  pending := []
  skipped := none
  deduped := 0
  highestSeverity := some .high
  unanswered
  omissions := []
  coverage := none
  overflow := []

/-- Publish the scanner findings of one owner unless a lane of it concluded. -/
def publishUnclaimedFor (lanes : List (LaneProposal κ)) (owner : LaneId) :
    List (LaneProposal κ) :=
  if lanes.any fun l => l.lane = owner && l.conclusion ≠ .neutral then lanes
  else
    let findings := unclaimed κ scanFindings owner
    if findings.isEmpty then lanes
    else
      -- What the replaced lane could not answer for is carried over.
      let unanswered := (lanes.filter fun l => l.lane = owner).flatMap LaneProposal.unanswered
      (lanes.filter fun l => l.lane ≠ owner) ++
        [fallbackLane judge requestChangesAt owner unanswered findings]

def publishUnclaimed (lanes : List (LaneProposal κ)) : List (LaneProposal κ) :=
  [LaneId.security, .commits].foldl (publishUnclaimedFor judge requestChangesAt scanFindings) lanes

end Fallback

section Concluding

variable {κ : Type} [Confidence κ] (judge : Judgement κ) (highEntropy : Text → Bool)
variable (config : Config κ) (diffs : List FileDiff) (continuity : Continuity κ)
variable (scanFindings : List Scan.Finding) (outcomes : List (LaneId × LaneOutcome κ))

/-- The lanes as they concluded, with the fallback for those that did not run. -/
def concluded : List (LaneProposal κ) :=
  publishUnclaimed judge config.requestChangesAt scanFindings
    (outcomes.map fun entry =>
      laneProposal judge highEntropy config diffs continuity entry.1 entry.2)

/-- A lane that reaches no verdict: skipped, or short of an answer with nothing that fails it. -/
def silent (entry : LaneId × LaneOutcome κ) : Bool :=
  entry.2.skipped.isSome ||
    (!((confidenceQualified judge config diffs continuity entry.1 entry.2).any fun f =>
        config.failOn entry.1 ≤ f.severity) &&
      (!entry.2.unanswered.isEmpty || !entry.2.pending.isEmpty))

/-- Whether scanner findings are published in place of the outcomes of a lane. -/
def replaced (owner : LaneId) : Bool :=
  owner ∈ [LaneId.security, .commits] && !(unclaimed κ scanFindings owner).isEmpty &&
    outcomes.all fun entry => entry.1 ≠ owner || silent judge config diffs continuity entry

/-- The outcomes whose lanes stay. -/
def keptOutcomes : List (LaneId × LaneOutcome κ) :=
  outcomes.filter fun entry =>
    !replaced judge config diffs continuity scanFindings outcomes entry.1

/-- The lane published in place of the outcomes of an owner. -/
def fallbackOf (owner : LaneId) : LaneProposal κ :=
  fallbackLane judge config.requestChangesAt owner
    ((outcomes.filter fun entry => entry.1 = owner).flatMap fun entry => entry.2.unanswered)
    (unclaimed κ scanFindings owner)

theorem concludes_eq_neutral {lane : LaneId} {outcome : LaneOutcome κ} :
    concludes judge config diffs continuity lane outcome = .neutral ↔
      silent judge config diffs continuity (lane, outcome) = true := by
  unfold concludes silent
  cases outcome.skipped.isSome <;>
    cases ((confidenceQualified judge config diffs continuity lane outcome).any fun f =>
      decide (config.failOn lane ≤ f.severity)) <;>
    cases outcome.unanswered.isEmpty <;> cases outcome.pending.isEmpty <;> simp

theorem replaced_iff {owner : LaneId} :
    replaced judge config diffs continuity scanFindings outcomes owner = true ↔
      owner ∈ [LaneId.security, .commits] ∧ unclaimed κ scanFindings owner ≠ [] ∧
        ∀ entry ∈ outcomes, entry.1 = owner → silent judge config diffs continuity entry := by
  simp only [replaced, Bool.and_eq_true, decide_eq_true_eq, Bool.not_eq_true',
    List.isEmpty_eq_false_iff, List.all_eq_true, Bool.or_eq_true, and_assoc, ne_eq,
    or_iff_not_imp_left, not_not]

/-- A lane of the owner concluded, among the proposals as among the outcomes. -/
theorem ran_iff (owner : LaneId) :
    ((outcomes.map fun entry =>
        laneProposal judge highEntropy config diffs continuity entry.1 entry.2).any fun l =>
          l.lane = owner && l.conclusion ≠ .neutral) =
      !(outcomes.all fun entry => entry.1 ≠ owner || silent judge config diffs continuity entry) := by
  induction outcomes with
  | nil => rfl
  | cons entry outcomes ih =>
    obtain ⟨lane, outcome⟩ := entry
    have hneutral := @concludes_eq_neutral _ _ judge config diffs continuity lane outcome
    simp only [List.map_cons, List.any_cons, List.all_cons, ih, Bool.not_and]
    congr 1
    by_cases howner : lane = owner
    · subst howner
      by_cases hsilent : silent judge config diffs continuity (lane, outcome) = true
      · simp [hsilent, hneutral.mpr hsilent]
      · simp [hsilent, mt hneutral.mp hsilent]
    · simp [howner]

/-- The proposals of outcomes, before any fallback. -/
def proposed (outcomes : List (LaneId × LaneOutcome κ)) : List (LaneProposal κ) :=
  outcomes.map fun entry =>
    laneProposal judge highEntropy config diffs continuity entry.1 entry.2

theorem filter_proposed (p : LaneId → Bool) :
    (proposed judge highEntropy config diffs continuity outcomes).filter (fun l => p l.lane) =
      proposed judge highEntropy config diffs continuity (outcomes.filter fun entry => p entry.1) := by
  simp only [proposed, List.filter_map, Function.comp_def, laneProposal_lane]

theorem unanswered_proposed :
    (proposed judge highEntropy config diffs continuity outcomes).flatMap LaneProposal.unanswered =
      outcomes.flatMap fun entry => entry.2.unanswered := by
  simp only [proposed, List.flatMap_map, laneProposal_unanswered]

/-- Publishing for one owner, in terms of the outcomes it stands for. -/
theorem publishUnclaimedFor_proposed {owner : LaneId}
    (howner : owner ∈ [LaneId.security, .commits]) {others : List (LaneProposal κ)}
    (hothers : ∀ l ∈ others, l.lane ≠ owner) {kept : List (LaneId × LaneOutcome κ)}
    (hkept : kept.filter (·.1 = owner) = outcomes.filter (·.1 = owner)) :
    publishUnclaimedFor judge config.requestChangesAt scanFindings
        (proposed judge highEntropy config diffs continuity kept ++ others) owner =
      if replaced judge config diffs continuity scanFindings outcomes owner then
        proposed judge highEntropy config diffs continuity (kept.filter (·.1 ≠ owner)) ++ others ++
          [fallbackOf judge config scanFindings outcomes owner]
      else proposed judge highEntropy config diffs continuity kept ++ others := by
  have hnone : (others.any fun l => l.lane = owner && l.conclusion ≠ .neutral) = false := by
    rw [List.any_eq_false]
    intro l hl
    simp [hothers l hl]
  have hall : (kept.all fun entry =>
        entry.1 ≠ owner || silent judge config diffs continuity entry) =
      outcomes.all fun entry => entry.1 ≠ owner || silent judge config diffs continuity entry := by
    have hsame := congrArg (fun entries => entries.all (silent judge config diffs continuity)) hkept
    simpa only [List.all_filter, ← decide_not] using hsame
  have hran : ((proposed judge highEntropy config diffs continuity kept ++ others).any fun l =>
        l.lane = owner && l.conclusion ≠ .neutral) =
      !(outcomes.all fun entry =>
        entry.1 ≠ owner || silent judge config diffs continuity entry) := by
    rw [List.any_append, hnone, Bool.or_false, ← hall]
    exact ran_iff judge highEntropy config diffs continuity kept owner
  have hunanswered : ((proposed judge highEntropy config diffs continuity kept ++ others).filter
        fun l => l.lane = owner).flatMap LaneProposal.unanswered =
      (outcomes.filter fun entry => entry.1 = owner).flatMap fun entry => entry.2.unanswered := by
    have hnone : others.filter (fun l => decide (l.lane = owner)) = [] := by
      rw [List.filter_eq_nil_iff]
      intro l hl
      simpa using hothers l hl
    rw [List.filter_append, hnone, List.append_nil,
      filter_proposed _ _ _ _ _ _ fun lane => decide (lane = owner), unanswered_proposed, hkept]
  have hrest : ((proposed judge highEntropy config diffs continuity kept ++ others).filter
        fun l => l.lane ≠ owner) =
      proposed judge highEntropy config diffs continuity (kept.filter (·.1 ≠ owner)) ++ others := by
    rw [List.filter_append, filter_proposed _ _ _ _ _ _ fun lane => decide (lane ≠ owner)]
    congr 1
    rw [List.filter_eq_self]
    intro l hl
    simpa using hothers l hl
  unfold publishUnclaimedFor replaced
  dsimp only
  rw [hran, hunanswered, hrest, decide_eq_true howner]
  cases (outcomes.all fun entry =>
      entry.1 ≠ owner || silent judge config diffs continuity entry) <;>
    cases hempty : (unclaimed κ scanFindings owner).isEmpty <;> simp [fallbackOf]

/-- The fallback lanes, in the order they are published. -/
def fallbackLanes : List (LaneProposal κ) :=
  ([LaneId.security, .commits].filter
    (replaced judge config diffs continuity scanFindings outcomes)).map
    (fallbackOf judge config scanFindings outcomes)

/-- Outcomes stay as their proposals unless a fallback is published in their place. -/
theorem concluded_eq :
    concluded judge highEntropy config diffs continuity scanFindings outcomes =
      proposed judge highEntropy config diffs continuity
          (keptOutcomes judge config diffs continuity scanFindings outcomes) ++
        fallbackLanes judge config diffs continuity scanFindings outcomes := by
  have hsecurity := @publishUnclaimedFor_proposed _ _ judge highEntropy config diffs continuity
    scanFindings outcomes .security (by decide) [] (by simp) outcomes rfl
  have hcommits := fun {others : List (LaneProposal κ)} hothers {kept} hkept =>
    @publishUnclaimedFor_proposed _ _ judge highEntropy config diffs continuity scanFindings outcomes
      .commits (by decide) others hothers kept hkept
  have hconcluded : concluded judge highEntropy config diffs continuity scanFindings outcomes =
      publishUnclaimedFor judge config.requestChangesAt scanFindings
        (publishUnclaimedFor judge config.requestChangesAt scanFindings
          (proposed judge highEntropy config diffs continuity outcomes ++ []) .security)
        .commits := by
    rw [List.append_nil]
    rfl
  have hkept : keptOutcomes judge config diffs continuity scanFindings outcomes =
      outcomes.filter fun entry =>
        !(replaced judge config diffs continuity scanFindings outcomes .security &&
            entry.1 = .security) &&
          !(replaced judge config diffs continuity scanFindings outcomes .commits &&
            entry.1 = .commits) := by
    apply List.filter_congr
    intro entry _
    cases hlane : entry.1 <;> simp [replaced]
  rw [hconcluded, hsecurity, hkept, fallbackLanes]
  cases hs : replaced judge config diffs continuity scanFindings outcomes .security with
  | false =>
    rw [if_neg Bool.false_ne_true, hcommits (by simp) rfl]
    cases hc : replaced judge config diffs continuity scanFindings outcomes .commits <;>
      simp [hs, hc]
  | true =>
    have hsame : (outcomes.filter (·.1 ≠ .security)).filter (·.1 = LaneId.commits) =
        outcomes.filter (·.1 = .commits) := by
      rw [List.filter_filter]
      apply List.filter_congr
      intro entry _
      cases entry.1 <;> rfl
    rw [if_pos rfl, List.append_nil, hcommits (by simp [fallbackOf, fallbackLane]) hsame]
    cases hc : replaced judge config diffs continuity scanFindings outcomes .commits <;>
      simp [hs, hc, List.filter_filter, Bool.and_comm]

end Concluding

section Certificate

variable {κ : Type} (lanes : List (LaneProposal κ))

def omitted (omissions : List OmittedGroup) (path : Text) : Bool :=
  omissions.any fun omission => path ∈ omission.paths

/-- The lanes that review one file at a time. -/
def perFileLanes : List (LaneProposal κ) :=
  lanes.filter fun l => l.lane = .critique || l.lane = .security

/-- Paths whose changed evidence every eligible per-file lane covered. -/
def certifiedReplayPaths (diffs : List FileDiff) : List Text :=
  (diffs.filter fun diff => diff.changedLines ≠ ∅).filterMap fun diff =>
    let eligible := (perFileLanes lanes).filter fun l =>
      l.coverage.any (fun coverage =>
        diff.path ∈ coverage.reviewed || diff.path ∈ coverage.unanswered) || omitted l.omissions diff.path
    let covered := eligible.all fun l =>
      l.coverage.any (fun coverage =>
        diff.path ∈ coverage.reviewed && diff.path ∉ coverage.unanswered) && !omitted l.omissions diff.path
    if !eligible.isEmpty && covered then some diff.path else none

end Certificate

end TinySweeper.App
