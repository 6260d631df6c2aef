import TinySweeper.App.Grouping

/-!
# What the verdict is decided on

Each lane of the final proposal is decided on a list of findings: those its
outcome was sure of, or the scanner findings published in its place. What was
posted before and what the comment budget shows do not enter.
-/

namespace TinySweeper.App

open Text Evidence Findings
open Scan (Severity ScanKind)

variable {κ : Type}

/-- The part of a lane a verdict is read from. -/
structure Verdict where
  lane : LaneId
  conclusion : CheckConclusion
  skipped : Option Text
  highestSeverity : Option Severity
  blockingFindings : Option (List Text)
  deriving DecidableEq

def LaneProposal.verdict (l : LaneProposal κ) : Verdict :=
  ⟨l.lane, l.conclusion, l.skipped, l.highestSeverity, l.blockingFindings⟩

def hasSeverityAtOrAbove (lanes : List (LaneProposal κ)) (threshold : Severity) : Bool :=
  lanes.any fun l => l.highestSeverity.any fun severity => threshold ≤ severity

/-- Whether the proposal draws a changes-requested review. -/
def requestsChanges (config : Config κ) (lanes : List (LaneProposal κ)) : Bool :=
  match config.requestChangesAt with
  | some threshold =>
    lanes.any (fun l => l.conclusion.blocks) && hasSeverityAtOrAbove lanes threshold
  | none => false

/-- The findings a lane was decided on, and whether they come from the scanners alone. -/
structure Decision (κ : Type) where
  lane : LaneId
  fallback : Bool
  findings : List (Finding κ)

/-- A verdict says what the findings it was decided on say. -/
structure Decision.Sound (judge : Judgement κ) (config : Config κ) (d : Decision κ)
    (v : Verdict) : Prop where
  lane : v.lane = d.lane
  highest : v.skipped = none → ∀ severity,
    v.highestSeverity = some severity ↔
      IsGreatest {s | ∃ f ∈ d.findings, f.severity = s} severity
  failure : v.skipped = none →
    (v.conclusion = .failure ↔
      if d.fallback then d.findings ≠ []
      else ∃ f ∈ d.findings, config.failOn d.lane ≤ f.severity)
  blocking : v.skipped = none → ∃ identities, v.blockingFindings = some identities ∧
    ∀ identity, identity ∈ identities ↔
      ∃ threshold, config.requestChangesAt = some threshold ∧
        ∃ f ∈ d.findings, threshold ≤ f.severity ∧ f.known judge.sha256 = identity

theorem isGreatest_severity {findings : List (Finding κ)} {severity : Severity} :
    (findings.map Finding.severity).max? = some severity ↔
      IsGreatest {s | ∃ f ∈ findings, f.severity = s} severity := by
  rw [List.max?_eq_some_iff]
  simp [IsGreatest, upperBounds]

theorem mem_blockingFindings (judge : Judgement κ) {requestChangesAt : Option Severity}
    {findings : List (Finding κ)} {identity : Text} :
    identity ∈ blockingFindings judge requestChangesAt findings ↔
      ∃ threshold, requestChangesAt = some threshold ∧
        ∃ f ∈ findings, threshold ≤ f.severity ∧ f.known judge.sha256 = identity := by
  cases requestChangesAt with
  | none => simp [blockingFindings]
  | some threshold => simp [blockingFindings, and_assoc]

section Deciding

variable [Confidence κ] (judge : Judgement κ) (highEntropy : Text → Bool)
variable (config : Config κ) (diffs : List FileDiff) (continuity : Continuity κ)
variable (scanFindings : List Scan.Finding) (outcomes : List (LaneId × LaneOutcome κ))

def outcomeDecision (entry : LaneId × LaneOutcome κ) : Decision κ :=
  ⟨entry.1, false, confidenceQualified judge config diffs continuity entry.1 entry.2⟩

def fallbackDecision (κ : Type) [Confidence κ] (scanFindings : List Scan.Finding)
    (owner : LaneId) : Decision κ :=
  ⟨owner, true, unclaimed κ scanFindings owner⟩

/-- What each lane of the final proposal was decided on, lane by lane. -/
def decidedOn : List (Decision κ) :=
  (keptOutcomes judge config diffs continuity scanFindings outcomes).map
      (outcomeDecision judge config diffs continuity) ++
    ([LaneId.security, .commits].filter
      (replaced judge config diffs continuity scanFindings outcomes)).map
      (fallbackDecision κ scanFindings)

theorem concludes_eq_failure {lane : LaneId} {outcome : LaneOutcome κ}
    (hrun : outcome.skipped = none) :
    concludes judge config diffs continuity lane outcome = .failure ↔
      ∃ f ∈ confidenceQualified judge config diffs continuity lane outcome,
        config.failOn lane ≤ f.severity := by
  have hany : ((confidenceQualified judge config diffs continuity lane outcome).any fun f =>
      decide (config.failOn lane ≤ f.severity)) = true ↔
      ∃ f ∈ confidenceQualified judge config diffs continuity lane outcome,
        config.failOn lane ≤ f.severity := by
    simp [List.any_eq_true]
  rw [← hany]
  unfold concludes
  cases ((confidenceQualified judge config diffs continuity lane outcome).any fun f =>
      decide (config.failOn lane ≤ f.severity)) <;>
    cases outcome.unanswered.isEmpty <;> cases outcome.pending.isEmpty <;> simp [hrun]

theorem sound_laneProposal (entry : LaneId × LaneOutcome κ) :
    (outcomeDecision judge config diffs continuity entry).Sound judge config
      (laneProposal judge highEntropy config diffs continuity entry.1 entry.2).verdict where
  lane := rfl
  highest _ _ := isGreatest_severity
  failure hrun := concludes_eq_failure judge config diffs continuity hrun
  blocking _ := ⟨_, rfl, fun _ => mem_blockingFindings judge⟩

/-- The severities a fallback is published for. -/
theorem severity_of_mem_unclaimed {owner : LaneId} {f : Finding κ}
    (hf : f ∈ unclaimed κ scanFindings owner) : f.severity = .high ∨ f.severity = .critical := by
  obtain ⟨scan, hscan, rfl⟩ := List.mem_map.mp hf
  have hblocks : Severity.high ≤ scan.severity := by
    have := (List.mem_filter.mp hscan).2
    simp only [Bool.and_eq_true, decide_eq_true_eq] at this
    exact this.2
  change scan.severity = .high ∨ scan.severity = .critical
  revert hblocks
  cases scan.severity <;> decide

/-- A fallback lane is decided soundly just when none of its findings is critical. -/
theorem sound_fallback_iff {owner : LaneId} (hsome : unclaimed κ scanFindings owner ≠ []) :
    (fallbackDecision κ scanFindings owner).Sound judge config
        (fallbackOf judge config scanFindings outcomes owner).verdict ↔
      ∀ f ∈ unclaimed κ scanFindings owner, f.severity ≠ .critical := by
  constructor
  · intro hsound f hf hcritical
    have hgreatest := (hsound.highest rfl .high).mp rfl
    have hle := hgreatest.2 ⟨f, hf, hcritical⟩
    exact absurd hle (by decide)
  · intro hnone
    have hhigh : ∀ f ∈ unclaimed κ scanFindings owner, f.severity = .high := by
      intro f hf
      exact (severity_of_mem_unclaimed scanFindings hf).resolve_right (hnone f hf)
    obtain ⟨first, hfirst⟩ := List.exists_mem_of_ne_nil _ hsome
    refine ⟨rfl, ?_, ?_, fun _ => ⟨_, rfl, fun _ => mem_blockingFindings judge⟩⟩
    · intro _ severity
      have hgreatest : IsGreatest {s | ∃ f ∈ unclaimed κ scanFindings owner, f.severity = s}
          Severity.high := by
        refine ⟨⟨first, hfirst, hhigh first hfirst⟩, ?_⟩
        rintro s ⟨f, hf, rfl⟩
        exact (hhigh f hf).le
      constructor
      · intro h
        cases h
        exact hgreatest
      · intro h
        exact congrArg some (hgreatest.unique h)
    · intro _
      exact ⟨fun _ => hsome, fun _ => rfl⟩

theorem forall₂_map_append {α β γ δ : Type*} {R : γ → δ → Prop} {f : α → γ} {f' : α → δ}
    {g : β → γ} {g' : β → δ} (xs : List α) (ys : List β) :
    List.Forall₂ R (xs.map f ++ ys.map g) (xs.map f' ++ ys.map g') ↔
      (∀ x ∈ xs, R (f x) (f' x)) ∧ ∀ y ∈ ys, R (g y) (g' y) := by
  induction xs with
  | nil => simp [List.forall₂_map_left_iff, List.forall₂_map_right_iff, List.forall₂_same]
  | cons x xs ih => simp [ih, and_assoc]

theorem verdict_proposalLanes :
    (proposalLanes judge highEntropy config diffs continuity scanFindings outcomes).map
        LaneProposal.verdict =
      (concluded judge highEntropy config diffs continuity scanFindings outcomes).map
        LaneProposal.verdict := by
  have hsettled := congrArg (List.map LaneProposal.verdict)
    (settled_proposalLanes judge highEntropy config diffs continuity scanFindings outcomes)
  rw [List.map_map, List.map_map] at hsettled
  exact hsettled

/-- Every verdict of the final proposal says what it was decided on. -/
def VerdictsSound : Prop :=
  List.Forall₂ (fun d l => d.Sound judge config (LaneProposal.verdict l))
    (decidedOn judge config diffs continuity scanFindings outcomes)
    (proposalLanes judge highEntropy config diffs continuity scanFindings outcomes)

/-- No scanner finding of a lane that reached no verdict is critical. -/
def NoCriticalUnclaimed : Prop :=
  ∀ owner ∈ [LaneId.security, .commits],
    (∀ entry ∈ outcomes, entry.1 = owner → silent judge config diffs continuity entry) →
      ∀ scan ∈ scanFindings, scan.kind ∈ adjudicates owner → scan.severity ≠ .critical

theorem noCriticalUnclaimed_iff :
    NoCriticalUnclaimed judge config diffs continuity scanFindings outcomes ↔
      ∀ owner ∈ [LaneId.security, .commits].filter
          (replaced judge config diffs continuity scanFindings outcomes),
        ∀ f ∈ unclaimed κ scanFindings owner, f.severity ≠ .critical := by
  constructor
  · intro hnone owner howner f hf
    obtain ⟨howner, hreplaced⟩ := List.mem_filter.mp howner
    have hsilent := (replaced_iff judge config diffs continuity scanFindings outcomes).mp hreplaced
    obtain ⟨scan, hscan, rfl⟩ := List.mem_map.mp hf
    obtain ⟨hscan, hkind⟩ := List.mem_filter.mp hscan
    simp only [Bool.and_eq_true, decide_eq_true_eq] at hkind
    exact hnone owner howner hsilent.2.2 scan hscan hkind.1
  · intro hnone owner howner hsilent scan hscan hkind hcritical
    have hblocks : Severity.high ≤ scan.severity := by
      rw [hcritical]
      decide
    have hmem : { Finding.ofScan scan with lane := owner } ∈ unclaimed κ scanFindings owner := by
      refine List.mem_map.mpr ⟨scan, List.mem_filter.mpr ⟨hscan, ?_⟩, rfl⟩
      simp [hkind, hblocks]
    have hreplaced := (replaced_iff judge config diffs continuity scanFindings outcomes).mpr
      ⟨howner, List.ne_nil_of_mem hmem, hsilent⟩
    exact hnone owner (List.mem_filter.mpr ⟨howner, hreplaced⟩) _ hmem hcritical

theorem verdictsSound_iff :
    VerdictsSound judge highEntropy config diffs continuity scanFindings outcomes ↔
      NoCriticalUnclaimed judge config diffs continuity scanFindings outcomes := by
  have hfallback : ∀ owner ∈ [LaneId.security, .commits].filter
      (replaced judge config diffs continuity scanFindings outcomes),
      unclaimed κ scanFindings owner ≠ [] := by
    intro owner howner
    exact ((replaced_iff judge config diffs continuity scanFindings outcomes).mp
      (List.mem_filter.mp howner).2).2.1
  rw [VerdictsSound, noCriticalUnclaimed_iff,
    ← List.forall₂_map_right_iff (f := LaneProposal.verdict), verdict_proposalLanes, concluded_eq,
    List.map_append, proposed, fallbackLanes, List.map_map, List.map_map, decidedOn,
    forall₂_map_append]
  constructor
  · rintro ⟨-, hsound⟩ owner howner
    exact (sound_fallback_iff judge config scanFindings outcomes (hfallback owner howner)).mp
      (hsound owner howner)
  · intro hnone
    refine ⟨fun entry _ => sound_laneProposal judge highEntropy config diffs continuity entry, ?_⟩
    intro owner howner
    exact (sound_fallback_iff judge config scanFindings outcomes (hfallback owner howner)).mpr
      (hnone owner howner)

/-- Nothing a verdict is read from depends on what was posted or on the comment budget. -/
theorem verdict_concluded_congr (budget : ℕ) {other : Continuity κ}
    (hpinned : other.severities = continuity.severities) :
    (concluded judge highEntropy { config with maxComments := budget } diffs other scanFindings
        outcomes).map LaneProposal.verdict =
      (concluded judge highEntropy config diffs continuity scanFindings outcomes).map
        LaneProposal.verdict := by
  obtain ⟨severities, suppressed, titles, repeatsConcern, openFindings⟩ := other
  subst hpinned
  rw [concluded_eq, concluded_eq, List.map_append, List.map_append, proposed, proposed,
    List.map_map, List.map_map]
  rfl

omit [Confidence κ] in
theorem requestsChanges_congr {lanes lanes' : List (LaneProposal κ)}
    (hsame : lanes.map LaneProposal.verdict = lanes'.map LaneProposal.verdict) :
    requestsChanges config lanes = requestsChanges config lanes' := by
  have hblocks : ∀ lanes : List (LaneProposal κ), (lanes.any fun l => l.conclusion.blocks) =
      (lanes.map LaneProposal.verdict).any fun v => v.conclusion.blocks := by
    intro lanes
    rw [List.any_map]
    rfl
  have hsevere : ∀ (lanes : List (LaneProposal κ)) threshold,
      hasSeverityAtOrAbove lanes threshold =
        (lanes.map LaneProposal.verdict).any fun v =>
          v.highestSeverity.any fun severity => threshold ≤ severity := by
    intro lanes threshold
    rw [List.any_map]
    rfl
  unfold requestsChanges
  simp only [hblocks, hsevere, hsame]

/-- The verdict is decided by what was found, just when no critical scanner finding goes to a
fallback lane. -/
theorem verdict_decided :
    (VerdictsSound judge highEntropy config diffs continuity scanFindings outcomes ∧
        ∀ (budget : ℕ) (other : Continuity κ), other.severities = continuity.severities →
          let shown := proposalLanes judge highEntropy config diffs continuity scanFindings outcomes
          let shown' := proposalLanes judge highEntropy { config with maxComments := budget } diffs
            other scanFindings outcomes
          shown'.map LaneProposal.verdict = shown.map LaneProposal.verdict ∧
            requestsChanges config shown' = requestsChanges config shown) ↔
      NoCriticalUnclaimed judge config diffs continuity scanFindings outcomes := by
  rw [verdictsSound_iff, and_iff_left]
  intro budget other hpinned
  have hsame : (proposalLanes judge highEntropy { config with maxComments := budget } diffs other
        scanFindings outcomes).map LaneProposal.verdict =
      (proposalLanes judge highEntropy config diffs continuity scanFindings outcomes).map
        LaneProposal.verdict := by
    rw [verdict_proposalLanes, verdict_proposalLanes,
      verdict_concluded_congr judge highEntropy config diffs continuity scanFindings outcomes budget
        hpinned]
  exact ⟨hsame, requestsChanges_congr config hsame⟩

end Deciding

/-- A committed key, where the commits lane is not enabled. -/
def keyHit : Scan.Finding := Scan.privateKeyFinding "id_rsa".toList 1 "an RSA private key"

def critiqueOnly : List (LaneId × LaneOutcome ℕ) :=
  [(.critique, fileOutcome ["id_rsa".toList] [])]

theorem verdict_understated :
    ¬VerdictsSound bareJudgement (fun _ => false) plainConfig [changedFile "id_rsa".toList]
      firstReview [keyHit] critiqueOnly := by
  rw [verdictsSound_iff]
  intro hnone
  have hsilent : ∀ entry ∈ critiqueOnly, entry.1 = .commits →
      silent bareJudgement plainConfig [changedFile "id_rsa".toList] firstReview entry := by
    decide
  exact hnone .commits (by decide) hsilent keyHit (List.mem_singleton_self _) (by decide) rfl

end TinySweeper.App
