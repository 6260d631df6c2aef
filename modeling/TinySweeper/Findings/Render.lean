import TinySweeper.Findings.Finding
import TinySweeper.Markdown.Prose

/-!
# How a finding is rendered

The badges at the head of an inline comment and the line that names its rule.
-/

namespace TinySweeper.Findings

open Text Markdown
open Scan (Severity)

/-- Colour and word for a severity. -/
def severityParts : Severity → Text × Text
  | .critical => ("critical".toList, "b60205".toList)
  | .high => ("high".toList, "d93f0b".toList)
  | .medium => ("medium".toList, "fbca04".toList)
  | .low => ("low".toList, "0e8a16".toList)

/-- The severity badge, labelled, for the head of an inline comment. -/
def priorityBadge (severity : Severity) : Text :=
  let (label, colour) := severityParts severity
  "![priority ".toList ++ label ++ "](https://img.shields.io/badge/".toList ++ label ++ ['-'] ++
    colour ++ "?label=priority)".toList

/-- How sure a lane is, in words. -/
inductive Certainty where
  | confident
  | likely
  | uncertain
  deriving DecidableEq, Repr

def Certainty.parts : Certainty → Text × Text
  | .confident => ("confident".toList, "1f6feb".toList)
  | .likely => ("likely".toList, "6f42c1".toList)
  | .uncertain => ("uncertain".toList, "8b949e".toList)

/-- The bucket of a confidence. -/
def certainty {κ : Type} [Confidence κ] (confidence : κ) : Certainty :=
  if Confidence.atLeast confidence (Confidence.ofPercent 90) then .confident
  else if Confidence.atLeast confidence (Confidence.ofPercent 70) then .likely
  else .uncertain

/-- The lane and how sure it is, as one badge. -/
def laneConfidenceBadge (lane : LaneId) (certainty : Certainty) : Text :=
  let (word, colour) := certainty.parts
  "![".toList ++ lane.asStr ++ [' '] ++ word ++ "](https://img.shields.io/badge/".toList ++
    lane.asStr ++ ['-'] ++ word ++ ['-'] ++ colour ++ [')']

/-- Model-authored text inside an emphasis run. -/
def escapeEmphasis (isAlphanumeric : Char → Bool) (text : Text) : Text := prose isAlphanumeric text

/-- The name of the rule in bold, what explains it as prose. -/
def ruleLine (isAlphanumeric : Char → Bool) (rule : Text) : Text :=
  let rule := trim rule
  match splitOnce ':' rule with
  | some (head, rest) =>
    if !(trim head).isEmpty && !(trim rest).isEmpty then
      "**[RULE] ".toList ++ escapeEmphasis isAlphanumeric (trim head) ++ "**: ".toList ++
        prose isAlphanumeric (trim rest)
    else "**[RULE] ".toList ++ escapeEmphasis isAlphanumeric rule ++ "**".toList
  | none => "**[RULE] ".toList ++ escapeEmphasis isAlphanumeric rule ++ "**".toList

end TinySweeper.Findings
