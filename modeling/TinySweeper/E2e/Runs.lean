import TinySweeper.Automerge.Policy
import TinySweeper.Bytes
import TinySweeper.Markdown.Prose
import TinySweeper.Scan.Secrets

/-!
# What the end-to-end jobs did

The jobs of the end-to-end workflows, what each did on the head according to its
check runs, and the verdict once every job that was waited for has spoken.
-/

namespace TinySweeper.E2e

open Text Findings App
open Automerge (CheckStatus)
open Scan (Severity)

/-- A workflow's pull-request trigger. -/
inductive Trigger where
  | pullRequest (paths pathsIgnore : List Text) (filterLine : Option ℕ) (target alsoPlain : Bool)
  | never (on : Text)
  deriving DecidableEq, Repr

structure Job where
  key : Text
  name : Text
  labelGate : Option Text
  deriving DecidableEq, Repr

structure Workflow where
  path : Text
  name : Text
  trigger : Trigger
  jobs : List Job
  deriving DecidableEq, Repr

inductive Applies where
  | yes
  | pathsExcluded
  | allIgnored
  | notOnPullRequests (on : Text)
  deriving DecidableEq, Repr

/-- End-to-end tests and workflows in the tree at head. -/
structure Harness where
  tests : List Text
  workflows : List Workflow
  truncated : Bool
  deriving DecidableEq, Repr

/-- Every job of every workflow. -/
def Harness.jobs (h : Harness) : List (Workflow × Job) :=
  h.workflows.flatMap fun workflow => workflow.jobs.map fun job => (workflow, job)

section Applies

-- The library that compiles a pattern whose `*` stays within a path segment.
variable (glob : Text → Option (Text → Bool))

/-- A pattern's matches join those so far, or leave them where it is negated. -/
def matchPattern (changed matched : List Text) (pattern : Text) : List Text :=
  let (negate, text) := match pattern with
    | '!' :: rest => (true, rest)
    | _ => (false, pattern)
  match glob text with
  | none => matched
  | some isMatch =>
    if negate then matched.filter fun path => !(changed.contains path && isMatch path)
    else matched ++ changed.filter isMatch

def githubPathMatches (patterns changed : List Text) : List Text :=
  patterns.foldl (matchPattern glob changed) []

def Workflow.appliesTo (w : Workflow) (changed : List Text) : Applies :=
  match w.trigger with
  | .never on => .notOnPullRequests on
  | .pullRequest paths pathsIgnore _ _ _ =>
    if !paths.isEmpty && (githubPathMatches glob paths changed).isEmpty then .pathsExcluded
    else if !pathsIgnore.isEmpty && !changed.isEmpty &&
        changed.all fun path => (githubPathMatches glob pathsIgnore changed).contains path then
      .allIgnored
    else .yes

end Applies

/-- Why a job will not run for a pull request. -/
inductive Reason where
  | pathsExcluded
  | allIgnored
  | notOnPullRequests (on : Text)
  | labelMissing (label : Text)
  | skippedByCondition
  deriving DecidableEq, Repr

def Reason.describe : Reason → Text
  | .pathsExcluded =>
    "its workflow's `paths:` filter matches nothing this pull request changed".toList
  | .allIgnored =>
    ("its workflow's `paths-ignore:` filter matches everything this pull request " ++
      "changed").toList
  | .notOnPullRequests on =>
    "its workflow does not run on pull requests (it runs on: ".toList ++ on ++ [')']
  | .labelMissing label =>
    "it is gated on the `".toList ++ label ++
      "` label, which this pull request does not carry".toList
  | .skippedByCondition =>
    ("the forge reports it as skipped, so a job condition was false for this pull " ++
      "request").toList

inductive State where
  | passed
  | failed (conclusion : CheckConclusion)
  | pending
  | notTriggered (reason : Reason)
  deriving DecidableEq, Repr

structure JobRun where
  workflow : Text
  job : Text
  filterLine : Option ℕ
  state : State
  target : Bool
  deriving DecidableEq, Repr

/-- A check is named after its job, with the matrix values behind or the calling job in front. -/
def matchesCheck (check : CheckStatus) (job : Text) : Bool :=
  let name := trim check.name
  name = job || (job ++ " (".toList).isPrefixOf name || (job ++ " /".toList).isPrefixOf name ||
    (" / ".toList ++ job).isSuffixOf name

def reportedFor (checks : List CheckStatus) (job : Text) : List CheckStatus :=
  checks.filter fun check => matchesCheck check job

def isSkip (conclusion : CheckConclusion) : Bool := conclusion = .skipped || conclusion = .neutral

/-- Several runs of one job are a matrix: the worst is the verdict, any still running keeps it
pending. -/
def verdict : List CheckStatus → (worst : Option CheckConclusion) → (skipped : Bool) → State
  | [], some conclusion, _ => .failed conclusion
  | [], none, skipped => if skipped then .notTriggered .skippedByCondition else .passed
  | check :: rest, worst, skipped =>
    match check.conclusion with
    | none => .pending
    | some conclusion =>
      if conclusion.blocks then verdict rest (some conclusion) skipped
      else verdict rest worst (skipped || isSkip conclusion)

section Judge

variable (glob : Text → Option (Text → Bool)) (checks : List CheckStatus)
variable (changed labels : List Text)

/-- The job's own runs are the fact, the trigger only explains an absence. -/
def stateOf (workflow : Workflow) (job : Job) : State :=
  let reported := reportedFor checks job.name
  if !reported.isEmpty then verdict reported none false
  else
    match workflow.appliesTo glob changed with
    | .pathsExcluded => .notTriggered .pathsExcluded
    | .allIgnored => .notTriggered .allIgnored
    | .notOnPullRequests on => .notTriggered (.notOnPullRequests on)
    | .yes =>
      match job.labelGate with
      | some label =>
        if labels.any fun l => Automerge.eqIgnoreAsciiCase l label then .pending
        else .notTriggered (.labelMissing label)
      | none => .pending

def filterLine (workflow : Workflow) : Option ℕ :=
  match workflow.trigger with
  | .pullRequest _ _ line _ _ => line
  | .never _ => none

def isTarget (workflow : Workflow) : Bool :=
  match workflow.trigger with
  | .pullRequest _ _ _ target _ => target
  | .never _ => false

def jobRun (job : Workflow × Job) : JobRun where
  workflow := job.1.path
  job := job.2.name
  filterLine := filterLine job.1
  state := stateOf glob checks changed labels job.1 job.2
  target := isTarget job.1

/-- Every job's state on the head. -/
def jobRuns (harness : Harness) : List JobRun :=
  harness.jobs.map (jobRun glob checks changed labels)

end Judge

def conclusionName : CheckConclusion → Text
  | .success => "success".toList
  | .failure => "failure".toList
  | .actionRequired => "action_required".toList
  | .neutral => "neutral".toList
  | .skipped => "skipped".toList

/-- An excluded path is a gap nobody intended; the rest may be a policy. -/
def Reason.severity : Reason → Severity
  | .pathsExcluded | .allIgnored => .high
  | .notOnPullRequests _ | .labelMissing _ | .skippedByCondition => .medium

section Findings

variable {κ : Type} [Confidence κ]

/-- A certain finding of this lane about one job. -/
def jobFinding (severity : Severity) (path : Text) (line : Option ℕ) (rule title body : Text) :
    Finding κ where
  lane := .e2e
  severity
  confidence := Confidence.ofPercent 100
  path
  line
  endLine := none
  rule
  title
  body
  suggestion := none
  applicable := none
  late := false
  identity := none
  aliases := []
  grouped := false
  reviewPass := 1
  corroboration := 1

def findingOf (run : JobRun) : Option (Finding κ) :=
  match run.state with
  | .notTriggered reason =>
    some (jobFinding reason.severity run.workflow run.filterLine "e2e-not-triggered".toList
      ("End-to-end job `".toList ++ run.job ++ "` will not run on this change".toList)
      ('\x60' :: run.job ++ "` in `".toList ++ run.workflow ++
        "` will not run for this pull request: ".toList ++ reason.describe ++
        ". The change is merged without its end-to-end suite having seen it.".toList))
  | .failed conclusion =>
    some (jobFinding .high run.workflow none "e2e-failed".toList
      ("End-to-end job `".toList ++ run.job ++ "` did not pass on this head".toList)
      ('\x60' :: run.job ++ "` in `".toList ++ run.workflow ++ "` concluded **".toList ++
        conclusionName conclusion ++ "** on this pull request's head commit.".toList))
  | .passed | .pending => none

/-- One finding for each job that will not run and for each that failed. -/
def findings (runs : List JobRun) : List (Finding κ) := runs.filterMap findingOf

end Findings

/-- What a review recorded for a later completion. -/
structure Watch where
  headSha : Text
  jobs : List Text
  summary : Text
  failed : Bool
  deriving DecidableEq, Repr

structure Settled where
  conclusion : CheckConclusion
  summary : Text
  deriving DecidableEq, Repr

/-- The watched jobs by what they did. -/
structure Tally where
  failed : List (Text × CheckConclusion)
  skipped : List Text
  passed : List Text
  deriving DecidableEq, Repr

/-- One watched job is heard, or is still pending. -/
def Tally.hear (checks : List CheckStatus) (t : Tally) (job : Text) : Option Tally :=
  let reported := reportedFor checks job
  if reported.isEmpty || reported.any fun check => check.conclusion.isNone then none
  else
    let conclusions := reported.filterMap CheckStatus.conclusion
    match conclusions.find? CheckConclusion.blocks with
    | some conclusion => some { t with failed := t.failed ++ [(job, conclusion)] }
    | none =>
      if conclusions.any isSkip then some { t with skipped := t.skipped ++ [job] }
      else some { t with passed := t.passed ++ [job] }

def short (sha : Text) : Text :=
  match splitAtByte 7 sha with
  | some (start, _) => start
  | none => sha

/-- Code between as many backticks as it needs. -/
def codeSpan (text : Text) : Text :=
  let clean := text.filter fun c => !Markdown.isControl c
  let runs := (clean.splitOnP (· ≠ '\x60')).map List.length
  let fence := List.replicate (runs.foldl max 0 + 1) '\x60'
  if clean.contains '\x60' then fence ++ ' ' :: clean ++ ' ' :: fence else fence ++ clean ++ fence

section Settle

-- Letters and digits of all scripts, and how random a value looks.
variable (isAlphanumeric : Char → Bool) (highEntropy : Text → Bool)

def jobLine (job note : Text) : Text :=
  "\n- ".toList ++ codeSpan (Scan.scrub highEntropy job) ++ ": ".toList ++ note

def settledSummary (watch : Watch) (t : Tally) : Text :=
  Markdown.prose isAlphanumeric (trim watch.summary) ++
    "\n\nEnd-to-end jobs on ".toList ++ short watch.headSha ++ [':'] ++
    t.passed.flatMap (fun job => jobLine highEntropy job "passed".toList) ++
    t.skipped.flatMap (fun job =>
      jobLine highEntropy job "**skipped** — did not run on this pull request".toList) ++
    t.failed.flatMap fun (job, conclusion) =>
      jobLine highEntropy job ("**".toList ++ conclusionName conclusion ++ "**".toList)

/-- A failed job weighs as much as its finding, a skipped one too. -/
def Tally.fails (t : Tally) (failOn : Severity) : Bool :=
  (!t.failed.isEmpty && decide (failOn ≤ .high)) ||
    (!t.skipped.isEmpty && decide (failOn ≤ .medium))

/-- The verdict, once all watched jobs have spoken. -/
def settle (watch : Watch) (checks : List CheckStatus) (failOn : Severity) : Option Settled := do
  let t ← watch.jobs.foldlM (Tally.hear checks) ⟨[], [], []⟩
  return ⟨if watch.failed || t.fails failOn then .failure else .success,
    settledSummary isAlphanumeric highEntropy watch t⟩

end Settle

end TinySweeper.E2e
