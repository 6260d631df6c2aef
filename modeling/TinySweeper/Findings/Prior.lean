import TinySweeper.Delimited
import TinySweeper.Findings.Finding

/-!
# Reading a posted comment back

Each reader looks for the delimiters the renderer put around one value.
-/

namespace TinySweeper.Findings

open Text
open Scan (Severity)

def MARKER_PREFIX : Text := "tinysweeper:".toList

def FINGERPRINT_KEY : Text := "fp=".toList

def FINGERPRINTS_KEY : Text := "fps=".toList

def Severity.asStr : Severity → Text
  | .low => "low".toList
  | .medium => "medium".toList
  | .high => "high".toList
  | .critical => "critical".toList

def Severity.parse (value : Text) : Option Severity :=
  [Severity.low, .medium, .high, .critical].find? fun s =>
    Severity.asStr s = toAsciiLowercase (trim value)

def LaneId.parse (value : Text) : Option LaneId :=
  [LaneId.critique, .security, .tests, .commits, .description, .e2e].find? fun lane =>
    lane.asStr = toAsciiLowercase (trim value)

/-- Sixteen lower-case hexadecimal digits. -/
def isFingerprint (value : Text) : Bool :=
  value.length = 16 && value.all fun c => c.isDigit || ('a' ≤ c && c ≤ 'f')

/-- The opening of a marker with a key. -/
def markerOpener (key : Text) : Text := "<!-- ".toList ++ MARKER_PREFIX ++ key

/-- The value of the final marker with this key. -/
def markerValue (body key : Text) : Option Text :=
  (rfind (markerOpener key) body).bind fun start =>
    let rest := body.drop (start + (markerOpener key).length)
    (find "-->".toList rest).map fun stop => trim (rest.take stop)

def fingerprintIn (body : Text) : Option Text :=
  (markerValue body FINGERPRINT_KEY).filter isFingerprint

/-- The list of identities between the delimiters of the alias marker. -/
def aliasValues (beforePrimary : Text) : Option Text :=
  (rfind (markerOpener FINGERPRINTS_KEY) beforePrimary).bind fun start =>
    (stripPrefix (markerOpener FINGERPRINTS_KEY) (beforePrimary.drop start)).bind
      (stripSuffix " -->".toList)

/-- Take an identity that is well formed and not seen yet. -/
def admitFingerprint (seen : List Text) (value : Text) : List Text :=
  if isFingerprint value && value ∉ seen then seen ++ [value] else seen

/-- Every identity published in one comment; aliases only from the marker next to the final one. -/
def fingerprintsIn (body : Text) : List Text :=
  match fingerprintIn body with
  | none => []
  | some primary =>
    match stripSuffix (markerOpener FINGERPRINT_KEY ++ primary ++ " -->".toList) body with
    | none => [primary]
    | some beforePrimary =>
      match aliasValues beforePrimary with
      | none => [primary]
      | some values => ((values.splitOn ',').map trim).foldl admitFingerprint [primary]

/-- The severity a comment was posted at, from the alt text of its badge. -/
def severityIn (body : Text) : Option Severity :=
  (between "![priority ".toList [']'] body).bind Severity.parse

def BADGE : Text := "img.shields.io/badge/".toList

/-- The lane named by the badge whose address is at a place. -/
def badgeLane (body : Text) (place : ℕ) : Option LaneId :=
  let rest := body.drop (place + BADGE.length)
  (find ['-'] rest).bind fun stop => LaneId.parse (rest.take stop)

/-- The first badge that names a lane. -/
def laneIn (body : Text) : Option LaneId := ((matchIndices BADGE body).filterMap (badgeLane body)).head?

/-- The first bold run. -/
def titleIn (body : Text) : Option Text :=
  ((between "**".toList "**".toList body).map trim).filter (· ≠ [])

/-- What follows the first bold run. -/
def afterTitle (body : Text) : Option Text :=
  (find "**".toList body).bind fun opener =>
    let after := body.drop (opener + 2)
    (find "**".toList after).map fun stop => after.drop (stop + 2)

/-- A rule line between the title and the body is passed over. -/
def afterRule (after : Text) : Option Text :=
  match stripPrefix "**[RULE]".toList (trimStart after) with
  | some rest => (find "**".toList rest).map fun stop => rest.drop (stop + 2)
  | none => some after

def textStops : List Text :=
  ["\n\n---\n\n".toList, "**Suggested change".toList, "\x60\x60\x60suggestion".toList,
    "**[RULE]".toList, "<!--".toList]

/-- The explanation rendered under the title, up to the first stop. -/
def textIn (body : Text) : Option Text :=
  (titleIn body).bind fun _ =>
    ((afterTitle body).bind afterRule).bind fun after =>
      let stop := ((textStops.filterMap fun stop => find stop after).min?).getD after.length
      if trim (after.take stop) = [] then none else some (trim (after.take stop))

/-- The name on the rule line. -/
def ruleIn (body : Text) : Option Text :=
  ((between "**[RULE] ".toList "**".toList body).map trim).filter (· ≠ [])

end TinySweeper.Findings
