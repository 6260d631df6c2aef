import TinySweeper.App.Certificate
import TinySweeper.App.LargeGroups

/-!
# Finishing the per-file lanes

A lane adds to the outcome of its fan-out what it settled without a model: files
it had read before, files a mechanical rename explains, findings of the
scanners. None of it answers for a file the fan-out left open.
-/

namespace TinySweeper.App

open Text Findings Lanes
open Scan (ScanKind)

variable {κ : Type}

/-- A deterministic substitution and the files it explains line for line. -/
structure Substitution where
  verified : List Text
  original : Text
  replacement : Text
  deriving DecidableEq, Repr

/-- The sentence a lane summary carries for verified files. -/
def Substitution.note (sub : Substitution) : Text :=
  decimal sub.verified.length ++ " file(s) are the mechanical rename `".toList ++ sub.original ++
    "` → `".toList ++ sub.replacement ++
    "`, verified line for line; one of them was read to judge the substitution itself, the ".toList ++
    "rest were not sent to a model.".toList

/-- At most five of the files triage skipped, with the reasons. -/
def skipNote (skipped : List (Text × Text)) : Text :=
  if skipped.isEmpty then []
  else
    let listed := 5
    let names := (skipped.take listed).map fun entry => entry.1 ++ " (".toList ++ entry.2 ++ [')']
    let names :=
      if listed < skipped.length then
        names ++ ["and ".toList ++ decimal (skipped.length - listed) ++ " more".toList]
      else names
    [' '] ++ decimal skipped.length ++ " file".toList ++
      (if skipped.length = 1 then " was".toList else "s were".toList) ++
      " not security-reviewed: ".toList ++ ", ".toList.intercalate names ++ ['.']

namespace LaneOutcome

variable (outcome : LaneOutcome κ)

/-- A path with a current unanswered result stays uncovered. -/
def includeReviewedPath (path : Text) : LaneOutcome κ :=
  let coverage := outcome.coverage.getD ⟨[], []⟩
  { outcome with
    coverage := some
      (if path ∉ coverage.unanswered ∧ path ∉ coverage.reviewed then
        { coverage with reviewed := coverage.reviewed ++ [path] }
      else coverage) }

/-- Add paths this lane can prove it reviewed without a model call. -/
def includeReviewedPaths (paths : List Text) : LaneOutcome κ :=
  paths.foldl includeReviewedPath outcome

/-- A lane whose every file is the rename reached a verdict without a model. -/
def noteMechanical (mechanical : Option Substitution) (pathsEmpty : Bool) : LaneOutcome κ :=
  match mechanical with
  | none => outcome
  | some substitution =>
    { outcome with
      summary := trim outcome.summary ++ [' '] ++ substitution.note
      skipped := if pathsEmpty then none else outcome.skipped }

/-- The scanner half is unconditional; a model finding that restates it goes. -/
def mergeScannerFindings [Confidence κ] (scanner : List Scan.Finding) : LaneOutcome κ :=
  let deterministic : List (Finding κ) :=
    scanner.map fun scan => { Finding.ofScan scan with lane := .security }
  { outcome with
    findings := deterministic ++ outcome.findings.filter fun model =>
      !deterministic.any fun scan => scan.path = model.path && scan.rule = model.rule }

/-- The same answers, and no path less reviewed. -/
structure Extends (final : LaneOutcome κ) : Prop where
  unanswered : final.unanswered = outcome.unanswered
  reviewed : ∀ path, reviewed outcome.coverage path → reviewed final.coverage path

variable {outcome} {final : LaneOutcome κ}

theorem Extends.includeReviewedPaths (h : outcome.Extends final) (paths : List Text) :
    outcome.Extends (final.includeReviewedPaths paths) := by
  induction paths generalizing final with
  | nil => exact h
  | cons path paths ih =>
    apply ih
    refine ⟨h.unanswered, fun other hother => ?_⟩
    have hreviewed := h.reviewed other hother
    cases hcoverage : final.coverage with
    | none => simp [App.reviewed, hcoverage] at hreviewed
    | some coverage =>
      have hmem : other ∈ coverage.reviewed := by simpa [App.reviewed, hcoverage] using hreviewed
      simp only [includeReviewedPath, hcoverage, Option.getD_some, App.reviewed, Option.any_some]
      split <;> simp [hmem]

theorem Extends.noteMechanical (h : outcome.Extends final) (mechanical : Option Substitution)
    (pathsEmpty : Bool) : outcome.Extends (final.noteMechanical mechanical pathsEmpty) := by
  cases mechanical with
  | none => exact h
  | some substitution => exact ⟨h.unanswered, h.reviewed⟩

end LaneOutcome

structure CritiquePreparation (κ : Type) where
  /-- An early content or draft skip. -/
  skipped : Option (LaneOutcome κ)
  groups : List FileGroup
  coveredWithoutModel : List Text
  mechanical : Option Substitution
  pathsEmpty : Bool
  /-- A skipped lane plans no group. -/
  unplanned : skipped.isSome → groups = []

structure SecurityPreparation (κ : Type) where
  skipped : Option (LaneOutcome κ)
  scanner : List Scan.Finding
  groups : List FileGroup
  coveredWithoutModel : List Text
  mechanical : Option Substitution
  mechanicalVerified : List Text
  triageSkipped : List (Text × Text)
  reviewPathsEmpty : Bool
  unplanned : skipped.isSome → groups = []

def CritiquePreparation.finishSelected (prepared : CritiquePreparation κ)
    (reviewedWithoutContext : Bool) (outcome : LaneOutcome κ) : LaneOutcome κ :=
  match prepared.skipped with
  | some skipped => skipped
  | none =>
    (LaneOutcome.includeReviewedPaths { outcome with contextDegraded := reviewedWithoutContext }
      prepared.coveredWithoutModel).noteMechanical prepared.mechanical prepared.pathsEmpty

def SecurityPreparation.finishSelected [Confidence κ] (prepared : SecurityPreparation κ)
    (outcome : LaneOutcome κ) : LaneOutcome κ :=
  match prepared.skipped with
  | some skipped => skipped
  | none =>
    let outcome := outcome.includeReviewedPaths
      (prepared.coveredWithoutModel ++ prepared.mechanicalVerified)
    let outcome := { outcome with summary := outcome.summary ++ skipNote prepared.triageSkipped }
    let outcome := outcome.noteMechanical prepared.mechanical prepared.reviewPathsEmpty
    let outcome := outcome.mergeScannerFindings prepared.scanner
    -- A scanner fact remains actionable when every selected group was omitted or failed.
    { outcome with skipped := if prepared.scanner.isEmpty then outcome.skipped else none }

theorem CritiquePreparation.extends_finishSelected {prepared : CritiquePreparation κ}
    (hruns : prepared.skipped = none) (reviewedWithoutContext : Bool) (outcome : LaneOutcome κ) :
    outcome.Extends (prepared.finishSelected reviewedWithoutContext outcome) := by
  have hbase : outcome.Extends { outcome with contextDegraded := reviewedWithoutContext } :=
    ⟨rfl, fun _ h => h⟩
  simp only [finishSelected, hruns]
  exact (hbase.includeReviewedPaths _).noteMechanical _ _

theorem SecurityPreparation.extends_finishSelected [Confidence κ]
    {prepared : SecurityPreparation κ} (hruns : prepared.skipped = none)
    (outcome : LaneOutcome κ) : outcome.Extends (prepared.finishSelected outcome) := by
  have hbase : outcome.Extends outcome := ⟨rfl, fun _ h => h⟩
  have hcovered := hbase.includeReviewedPaths
    (prepared.coveredWithoutModel ++ prepared.mechanicalVerified)
  have hnoted := @LaneOutcome.Extends.noteMechanical _ outcome
    ({ outcome.includeReviewedPaths (prepared.coveredWithoutModel ++
        prepared.mechanicalVerified) with
      summary := (outcome.includeReviewedPaths (prepared.coveredWithoutModel ++
        prepared.mechanicalVerified)).summary ++ skipNote prepared.triageSkipped })
    ⟨hcovered.unanswered, hcovered.reviewed⟩ prepared.mechanical prepared.reviewPathsEmpty
  simp only [finishSelected, hruns]
  exact ⟨hnoted.unanswered, hnoted.reviewed⟩

/-- Either per-file lane with what it prepared. -/
inductive Preparation (κ : Type) where
  | critique (prepared : CritiquePreparation κ) (reviewedWithoutContext : Bool)
  | security (prepared : SecurityPreparation κ)

namespace Preparation

def lane : Preparation κ → LaneId
  | .critique _ _ => .critique
  | .security _ => .security

def groups : Preparation κ → List FileGroup
  | .critique prepared _ => prepared.groups
  | .security prepared => prepared.groups

def skipped : Preparation κ → Option (LaneOutcome κ)
  | .critique prepared _ => prepared.skipped
  | .security prepared => prepared.skipped

variable [Confidence κ]

def finishSelected : Preparation κ → LaneOutcome κ → LaneOutcome κ
  | .critique prepared reviewedWithoutContext, outcome =>
    prepared.finishSelected reviewedWithoutContext outcome
  | .security prepared, outcome => prepared.finishSelected outcome

/-- Run a prepared lane under the stop window of the review. -/
def runPrepared (prepared : Preparation κ) (result : ℕ → UnitResult κ) (turns : List Lanes.Turn) :
    LaneOutcome κ :=
  let label := fun index => ((prepared.groups)[index]?).elim [] FileGroup.label
  let memberPaths := fun index => ((prepared.groups)[index]?).elim [] FileGroup.paths
  prepared.finishSelected
    (perUnitBounded prepared.groups.length result label memberPaths turns).intoOutcome

/-- The outcomes of a large plan: those of its prepared lanes. -/
def largeOutcomes (prepared : List (Preparation κ)) (s : Large κ) :
    List (LaneId × LaneOutcome κ) :=
  prepared.map fun p => (p.lane, p.finishSelected (s.fanouts p.lane).intoOutcome)

omit [Confidence κ] in
theorem unplanned {prepared : Preparation κ} (hgroups : prepared.groups ≠ []) :
    prepared.skipped = none := by
  cases prepared with
  | critique prepared =>
    by_contra hskipped
    exact hgroups (prepared.unplanned (Option.isSome_iff_ne_none.mpr hskipped))
  | security prepared =>
    by_contra hskipped
    exact hgroups (prepared.unplanned (Option.isSome_iff_ne_none.mpr hskipped))

theorem extends_finishSelected {prepared : Preparation κ} (hruns : prepared.skipped = none)
    (outcome : LaneOutcome κ) : outcome.Extends (prepared.finishSelected outcome) := by
  cases prepared with
  | critique prepared reviewedWithoutContext =>
    exact CritiquePreparation.extends_finishSelected hruns reviewedWithoutContext outcome
  | security prepared => exact SecurityPreparation.extends_finishSelected hruns outcome

end Preparation

end TinySweeper.App
