import TinySweeper.Evidence.Diff
import TinySweeper.Scan.Findings

/-!
# Findings and their identity

One type for what a scanner or a reviewer reports. Its identity across pushes is a
hash of the lane, the path, the rule and the code it is about.
-/

namespace TinySweeper.Findings

open Text Evidence
open Scan (Severity ScanKind)

def severityRank : Severity → ℕ
  | .low => 0
  | .medium => 1
  | .high => 2
  | .critical => 3

theorem severityRank_injective : Function.Injective severityRank := by
  intro a b h
  cases a <;> cases b <;> first | rfl | cases h

instance : LinearOrder Severity := LinearOrder.lift' severityRank severityRank_injective

inductive LaneId where
  | critique
  | security
  | tests
  | commits
  | description
  | e2e
  deriving DecidableEq, Repr

def LaneId.asStr : LaneId → Text
  | .critique => "critique".toList
  | .security => "security".toList
  | .tests => "tests".toList
  | .commits => "commits".toList
  | .description => "description".toList
  | .e2e => "e2e".toList

/-- The check-run name a lane publishes under. -/
def LaneId.checkName (lane : LaneId) : Text := "tinysweeper/".toList ++ lane.asStr

/-- The floating-point numbers confidences are given in, by what is done with them. -/
class Confidence (κ : Type) where
  atLeast : κ → κ → Bool
  totalCmp : κ → κ → Ordering
  max : κ → κ → κ
  ofPercent : ℕ → κ

/-- Confidences in whole percent. -/
instance : Confidence ℕ where
  atLeast a b := b ≤ a
  totalCmp := compare
  max := Nat.max
  ofPercent := id

/-- A replacement for the lines of a range. -/
structure Suggestion where
  startLine : ℕ
  endLine : ℕ
  replacement : Text
  deriving DecidableEq, Repr

structure Finding (κ : Type) where
  lane : LaneId
  severity : Severity
  confidence : κ
  path : Text
  line : Option ℕ
  endLine : Option ℕ
  rule : Text
  title : Text
  body : Text
  suggestion : Option Text
  applicable : Option Suggestion
  late : Bool
  identity : Option Text
  aliases : List Text
  grouped : Bool
  reviewPass : ℕ
  corroboration : ℕ
  deriving DecidableEq

/-- What findings rest on outside this module: the hash, whether a suggestion can be applied,
whether two findings raise one concern, and lower case. -/
structure Judgement (κ : Type) where
  sha256 : Text → List UInt8
  applicable : Finding κ → List FileDiff → Option Suggestion
  sameConcern : Finding κ → Finding κ → Bool
  lowercase : Text → Text

/-- Reformatting does not change a fingerprint. -/
def normalize (text : Text) : Text := [' '].intercalate (splitWhitespace text)

def hexByte (byte : UInt8) : Text :=
  [Nat.digitChar (byte.toNat / 16), Nat.digitChar (byte.toNat % 16)]

namespace Finding

variable {κ : Type}

/-- The identity used for dedupe and suppression; neither line nor body is part of it. -/
def fingerprint (sha256 : Text → List UInt8) (f : Finding κ) (context : Text) : Text :=
  ((sha256 (f.lane.asStr ++ '\x00' :: f.path ++ '\x00' :: f.rule ++ '\x00' :: normalize context)).take
    8).flatMap hexByte

/-- The identity a finding is known by, stamped or derived from its title. -/
def known (sha256 : Text → List UInt8) (f : Finding κ) : Text :=
  f.identity.getD (f.fingerprint sha256 f.title)

def meets [Confidence κ] (f : Finding κ) (gate : Severity) (confidenceMin : κ) : Bool :=
  gate ≤ f.severity && Confidence.atLeast f.confidence confidenceMin

def range (f : Finding κ) : Option (ℕ × ℕ) := f.line.map fun start => (start, f.endLine.getD start)

/-- The range an inline comment is published on. -/
def publishedRange (f : Finding κ) : Option (ℕ × ℕ) :=
  f.line.map fun line =>
    match f.applicable with
    | some suggestion => (suggestion.startLine, suggestion.endLine)
    | none => (line, line)

/-- A scanner hit as evidence for the lane that requested it. -/
def ofScan [Confidence κ] (scan : Scan.Finding) : Finding κ where
  lane := .commits
  severity := scan.severity
  confidence := match scan.severity with
    | .critical => Confidence.ofPercent 100
    | .high => Confidence.ofPercent 80
    | _ => Confidence.ofPercent 60
  path := scan.path
  line := scan.line
  endLine := none
  rule := scan.rule.toList
  title := scan.title
  body := match scan.redactedHint with
    | some hint => scan.detail.toList ++ "\n\nMatched: `".toList ++ hint ++ ['\x60']
    | none => scan.detail.toList
  suggestion := none
  applicable := none
  late := false
  identity := none
  aliases := []
  grouped := false
  reviewPass := 1
  corroboration := 1

end Finding

section Anchors

variable {κ : Type} (judge : Judgement κ)

/-- The changed-line text a finding anchors to. -/
def anchorContext (f : Finding κ) (diffs : List FileDiff) : Text :=
  match f.range, diffs.find? fun diff => diff.path = f.path with
  | some (start, stop), some diff =>
    let lines := diff.hunks.flatMap fun hunk => hunk.lines.filter fun line =>
      line.newLine.any fun number => start ≤ number && number ≤ stop
    ['\n'].intercalate (lines.map DiffLine.text)
  | _, _ => []

/-- Identity first, so that a suggestion cannot move it. -/
def stampOne (diffs : List FileDiff) (f : Finding κ) : Finding κ :=
  let f := { f with identity := some (f.fingerprint judge.sha256 (anchorContext f diffs)) }
  { f with applicable := judge.applicable f diffs }

def stamp (findings : List (Finding κ)) (diffs : List FileDiff) : List (Finding κ) :=
  findings.map (stampOne judge diffs)

end Anchors

end TinySweeper.Findings
