import TinySweeper.Findings.Prior
import TinySweeper.Findings.Render

/-!
# Inline comments

One comment for each finding whose anchor lies in the live diff: badges, title,
body, an applicable change, the rule, and the identities for later reviews.
-/

namespace TinySweeper.App

open Text Evidence Findings Markdown

structure ReviewComment where
  path : Text
  line : Option ℕ
  startLine : Option ℕ
  author : Text
  body : Text
  deriving DecidableEq, Repr

structure ChangedFile where
  path : Text
  patch : Option Text
  deriving DecidableEq, Repr

section Rendering

variable {κ : Type} [Confidence κ] (isAlphanumeric : Char → Bool) (sha256 : Text → List UInt8)

/-- The well-formed identities of the observations a finding stands for. -/
def publishedAliases (f : Finding κ) : List Text := f.aliases.filter isFingerprint

/-- Alias identities stand right before the final fingerprint. -/
def aliasMarker (f : Finding κ) : Text :=
  if (publishedAliases f).isEmpty then []
  else markerOpener FINGERPRINTS_KEY ++ [','].intercalate (publishedAliases f) ++ " -->".toList

def fingerprintMarker (identity : Text) : Text :=
  markerOpener FINGERPRINT_KEY ++ identity ++ " -->".toList

/-- The label of a change that fits the opening observation only. -/
def suggestionLabel (f : Finding κ) : Text :=
  if f.aliases.isEmpty then []
  else "\n\n**Suggested change for the opening observation**".toList

def suggestionBlock (f : Finding κ) : Text :=
  match f.applicable with
  | some s =>
    suggestionLabel f ++ "\n\n\x60\x60\x60suggestion\n".toList ++ s.replacement ++
      "\n\x60\x60\x60".toList
  | none => []

def commentHead (f : Finding κ) : Text :=
  priorityBadge f.severity ++ "  ".toList ++ laneConfidenceBadge f.lane (certainty f.confidence)

def commentBody (f : Finding κ) : Text :=
  commentHead f ++ "\n\n**".toList ++ escapeEmphasis isAlphanumeric f.title ++ "**\n\n".toList ++
    prose isAlphanumeric f.body ++ suggestionBlock f ++ "\n\n".toList ++
    ruleLine isAlphanumeric f.rule ++ " · ".toList ++ aliasMarker f ++
    fingerprintMarker (f.known sha256)

/-- The comment of a finding; an anchor outside the live diff has none. -/
def inlineComment (diffs : List FileDiff) (f : Finding κ) : Option ReviewComment :=
  f.publishedRange.bind fun (start, line) =>
    let startLine := if start < line then some start else none
    -- Of two patches for one path the later is kept.
    if (diffs.reverse.find? fun diff => diff.path = f.path).any
        (·.withinHunk (startLine.getD line) line) then
      some
        { path := f.path
          line := some line
          startLine
          author := []
          body := commentBody isAlphanumeric sha256 f }
    else none

/-- The comments for findings whose anchors the live diff accepts. -/
def inlineComments (findings : List (Finding κ)) (files : List ChangedFile) :
    List ReviewComment :=
  let diffs := files.filterMap fun file =>
    file.patch.map fun patch => parseFilePatch file.path patch
  findings.filterMap (inlineComment isAlphanumeric sha256 diffs)

end Rendering

end TinySweeper.App
