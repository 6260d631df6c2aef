import Mathlib.Data.List.Dedup
import TinySweeper.App.LaneProposal
import TinySweeper.Delimited
import TinySweeper.Forge.Reviews

/-!
# The merge policy

Whether a pull request may be merged, decided from what was read of it and from
the configuration alone. The first reason to stop is the one reported.
-/

namespace TinySweeper.Automerge

open Text Forge App

/-- What merging a pull request is conditional on. -/
structure AutoMerge where
  enabled : Bool
  requireChecks : List Text
  requireApprovals : ℕ
  method : Text
  allowLabels : List Text
  blockLabels : List Text
  maxFiles : ℕ
  maxChangedLines : ℕ
  maxHunks : ℕ
  maxDirectories : ℕ
  sensitivePaths : List Text
  allowDependencyBumps : Bool
  dependencyBots : List Text
  dependencyPaths : List Text

structure PullRequest where
  number : ℕ
  author : Text
  authorIsBot : Bool
  draft : Bool
  headSha : Text
  labels : List Text
  mergeable : Option Bool
  deriving DecidableEq, Repr

structure ChangedFile where
  path : Text
  previousPath : Option Text
  additions : ℕ
  deletions : ℕ
  patch : Option Text
  deriving DecidableEq, Repr

/-- A check of the head; without a conclusion it is still running. -/
structure CheckStatus where
  name : Text
  conclusion : Option CheckConclusion
  deriving DecidableEq, Repr

namespace CheckStatus

def isGreen (c : CheckStatus) : Bool := c.conclusion = some .success

def isPending (c : CheckStatus) : Bool := c.conclusion.isNone

def isFailing (c : CheckStatus) : Bool := c.conclusion.any CheckConclusion.blocks

def isInapplicable (c : CheckStatus) : Bool := c.conclusion = some .neutral

end CheckStatus

/-- One review someone left. -/
structure ReviewVerdict where
  reviewer : Text
  bot : Bool
  state : ReviewEvent
  deriving DecidableEq, Repr

namespace ReviewVerdict

def isHumanApproval (r : ReviewVerdict) : Bool := !r.bot && r.state = .approve

def isBlocking (r : ReviewVerdict) : Bool := r.state = .requestChanges

end ReviewVerdict

/-- Everything the policy reads. The reviews are in order, the oldest first. -/
structure Snapshot where
  pullRequest : PullRequest
  files : List ChangedFile
  checks : List CheckStatus
  reviews : List ReviewVerdict
  deriving DecidableEq, Repr

/-- Why a pull request was left alone. -/
inductive Refusal where
  | disabled
  | unreadablePolicy (why : Text)
  | draft
  | blockedLabel (label : Text)
  | missingAllowLabel
  | notMergeable
  | changesRequested (reviewer : Text)
  | notEnoughApprovals (counted want : ℕ)
  | checkFailing (name : Text)
  | checkPending (name : Text)
  | requiredCheckMissing (name : Text)
  | requiredCheckInconclusive (name : Text)
  | noChangedFiles
  | tooManyFiles (files max : ℕ)
  | sensitivePath (path : Text)
  | tooComplex (signal : Text) (value max : ℕ)
  | unmeasurable (path : Text)
  | headMoved (evaluated live : Text)
  deriving DecidableEq, Repr

def eqIgnoreAsciiCase (a b : Text) : Bool := toAsciiLowercase a = toAsciiLowercase b

/-- The first label carried that the configuration names. -/
def carries (carried configured : List Text) : Option Text :=
  carried.find? fun label =>
    configured.any fun name => eqIgnoreAsciiCase (trim name) (trim label)

def bare (login : Text) : Text := (stripSuffix "[bot]".toList login).getD login

def loginsMatch (configured login : Text) : Bool :=
  let expected := bare (trim configured)
  let actual := bare (trim login)
  if expected.isEmpty || actual.isEmpty then false else eqIgnoreAsciiCase expected actual

/-- The library that compiles path patterns and matches paths against a set of them. -/
structure Globs (γ : Type) where
  parse : Text → Except Text γ
  build : List γ → Except Text (Text → Bool)

section Policy

variable {γ : Type} (globs : Globs γ)

/-- The matcher of a list of patterns, or which of them cannot be read. -/
def globSet (patterns : List Text) : Except Text (Text → Bool) := do
  let compiled ← patterns.mapM fun pattern =>
    (globs.parse pattern).mapError fun err =>
      '\x60' :: pattern ++ '\x60' :: ": ".toList ++ err
  (globs.build compiled).mapError fun err => "could not build the matcher: ".toList ++ err

structure Complexity where
  files : ℕ
  changedLines : ℕ
  hunks : ℕ
  directories : ℕ
  deriving DecidableEq, Repr

def saturatingAdd (a b : ℕ) : ℕ := min (a + b) (2 ^ 64 - 1)

/-- The directory a path lives in; that of the root is empty. -/
def directoryOf (path : Text) : Text :=
  match rfind ['/'] path with
  | some i => path.take i
  | none => []

def hunksIn (patch : Text) : ℕ := (lines patch).countP fun line => "@@".toList.isPrefixOf line

/-- What was measured of the files so far: changed lines, hunks and the directories reached. -/
structure Measured where
  changedLines : ℕ
  hunks : ℕ
  directories : List Text
  deriving DecidableEq, Repr

def Measured.add (m : Measured) (f : ChangedFile) : Except Text Measured := do
  let changedLines := saturatingAdd (saturatingAdd m.changedLines f.additions) f.deletions
  let directories := (m.directories.insert (directoryOf f.path)).union
    (f.previousPath.toList.map directoryOf)
  match f.patch with
  | some patch => .ok ⟨changedLines, m.hunks + hunksIn patch, directories⟩
  | none =>
    if f.additions = 0 ∧ f.deletions = 0 then .ok ⟨changedLines, m.hunks, directories⟩
    else .error f.path

/-- The size of a change, or the first file that cannot be measured. -/
def measure (files : List ChangedFile) : Except Text Complexity := do
  let m ← files.foldlM Measured.add ⟨0, 0, []⟩
  return ⟨files.length, m.changedLines, m.hunks, m.directories.length⟩

variable (config : AutoMerge)

/-- What stops a pull request before its reviews are read. -/
def stateRefusal (pr : PullRequest) : Option Refusal :=
  if !config.enabled then some .disabled
  else if pr.draft then some .draft
  else
    match carries pr.labels config.blockLabels with
    | some label => some (.blockedLabel label)
    | none =>
      if !config.allowLabels.isEmpty && (carries pr.labels config.allowLabels).isNone then
        some .missingAllowLabel
      -- An unknown state is not a mergeable one.
      else if pr.mergeable ≠ some true then some .notMergeable
      else none

/-- An objection, or too few approvals by humans. -/
def reviewRefusal (reviews : List ReviewVerdict) : Option Refusal :=
  match reviews.find? ReviewVerdict.isBlocking with
  | some blocking => some (.changesRequested blocking.reviewer)
  | none =>
    -- The count is cast to 32 bits.
    let approvals := (reviews.filter ReviewVerdict.isHumanApproval).length % 2 ^ 32
    if approvals < config.requireApprovals then
      some (.notEnoughApprovals approvals config.requireApprovals)
    else none

def brokenCheck (c : CheckStatus) : Option Refusal :=
  if c.isPending then some (.checkPending c.name)
  else if c.isFailing then some (.checkFailing c.name)
  else none

def requiredRefusal (checks : List CheckStatus) (required : Text) : Option Refusal :=
  match checks.find? fun c => c.name = required with
  | none => some (.requiredCheckMissing required)
  | some c =>
    if !c.isGreen && !c.isInapplicable then some (.requiredCheckInconclusive required) else none

/-- No check is red or running, and each required one has reported. -/
def checkRefusal (checks : List CheckStatus) : Option Refusal :=
  (checks.findSome? brokenCheck).or
    (config.requireChecks.findSome? (requiredRefusal checks))

def touched (f : ChangedFile) : List Text := f.path :: f.previousPath.toList

def pathRefusal (files : List ChangedFile) : Option Refusal :=
  match globSet globs config.sensitivePaths with
  | .error err => some (.unreadablePolicy err)
  | .ok sensitive => ((files.flatMap touched).find? sensitive).map .sensitivePath

def complexityRefusal (files : List ChangedFile) : Option Refusal :=
  match measure files with
  | .error path => some (.unmeasurable path)
  | .ok m =>
    let signals := [("changed_lines".toList, m.changedLines, config.maxChangedLines),
      ("hunks".toList, m.hunks, config.maxHunks),
      ("directories".toList, m.directories, config.maxDirectories)]
    (signals.find? fun (_, value, max) => value > max).map fun (signal, value, max) =>
      .tooComplex signal value max

/-- A change of manifests only, by a configured bot that the forge calls a bot. -/
def dependencyBump (s : Snapshot) : Except Refusal Bool := do
  if !config.allowDependencyBumps || !s.pullRequest.authorIsBot then return false
  if !config.dependencyBots.any fun configured => loginsMatch configured s.pullRequest.author then
    return false
  let manifests ← (globSet globs config.dependencyPaths).mapError .unreadablePolicy
  return s.files.all fun f => manifests f.path && f.previousPath.all manifests

/-- What stops a pull request for the files it changes. -/
def contentRefusal (s : Snapshot) : Option Refusal :=
  if s.files.isEmpty then some .noChangedFiles
  else if s.files.length > config.maxFiles then some (.tooManyFiles s.files.length config.maxFiles)
  else
    match dependencyBump globs config s with
    | .error refusal => some refusal
    | .ok true => none
    | .ok false => (pathRefusal globs config s.files).or (complexityRefusal config s.files)

/-- The first reason to stop. -/
def refuse (s : Snapshot) : Option Refusal :=
  (stateRefusal config s.pullRequest).or <|
    (reviewRefusal config s.reviews).or <|
      (checkRefusal config s.checks).or <| contentRefusal globs config s

/-- Proof that the policy passed for the pull request of this number. -/
structure MergeApproved where
  number : ℕ
  passed : ∃ s : Snapshot, s.pullRequest.number = number ∧ refuse globs config s = none

inductive Decision where
  | allow (approval : MergeApproved globs config)
  | refuse (refusal : Refusal)

/-- Whether this pull request may be merged. -/
def evaluate (s : Snapshot) : Decision globs config :=
  match h : refuse globs config s with
  | some refusal => .refuse refusal
  | none => .allow ⟨s.pullRequest.number, s, rfl, h⟩

def Decision.isMerge {globs : Globs γ} {config : AutoMerge} : Decision globs config → Bool
  | .allow _ => true
  | .refuse _ => false

variable {globs config}

theorem evaluate_of_refuse {s : Snapshot} {refusal : Refusal}
    (h : refuse globs config s = some refusal) :
    evaluate globs config s = .refuse refusal := by
  unfold evaluate
  split
  · next other hother =>
    rw [h] at hother
    cases hother
    rfl
  · next hnone =>
    rw [h] at hnone
    cases hnone

theorem isMerge_evaluate {s : Snapshot} :
    (evaluate globs config s).isMerge = true ↔ refuse globs config s = none := by
  unfold evaluate
  split
  · next refusal h => simp [Decision.isMerge, h]
  · next h => simp [Decision.isMerge, h]

theorem evaluate_eq_refuse_iff {s : Snapshot} {refusal : Refusal} :
    evaluate globs config s = .refuse refusal ↔ refuse globs config s = some refusal := by
  refine ⟨fun h => ?_, evaluate_of_refuse⟩
  unfold evaluate at h
  split at h
  · next other hother =>
    cases h
    exact hother
  · cases h

/-- A pull request passes just when every group of refusals does. -/
theorem refuse_eq_none_iff {s : Snapshot} :
    refuse globs config s = none ↔ stateRefusal config s.pullRequest = none ∧
      reviewRefusal config s.reviews = none ∧ checkRefusal config s.checks = none ∧
      contentRefusal globs config s = none := by
  simp only [refuse, Option.or_eq_none_iff]

end Policy

end TinySweeper.Automerge
