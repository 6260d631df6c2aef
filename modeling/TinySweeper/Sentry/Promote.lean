import TinySweeper.Sentry.Excerpt

/-!
# Promoting one Sentry issue

Which issues qualify, whether one is tracked already, and the issue that is opened for it.
The marker in its body is what a later sweep finds it by: both are built from the same two
identifiers, cut in the same way.
-/

namespace TinySweeper.Sentry

open Text

structure Route where
  project : Text
  repo : Text
  labels : List Text

/-- The `sentry` section of the configuration. -/
structure Settings where
  enabled : Bool
  org : Option Text
  projects : List Text
  routes : List Route
  labels : List Text
  minEvents : ℕ
  minUsers : ℕ
  ignoreCulprits : List Text
  maxPerRun : ℕ
  annotateSentry : Bool
  resolveWhenTracked : Bool
  scrubPatterns : List Text

/-- An unresolved issue with its opaque Sentry id. -/
structure Fetched where
  id : Text
  issue : RawIssue

inductive Skipped where
  | tooFewEvents (events required : ℕ)
  | tooFewUsers (users required : ℕ)
  | ignoredCulprit (pattern : Text)
  | alreadyTracked (number : ℕ)
  | overCap (cap : ℕ)
  | undedupable
  deriving DecidableEq

structure Rejected where
  shortId : Text
  reason : Skipped
  deriving DecidableEq

section Select

-- The matcher of a glob that compiles.
variable (globMatches : Text → Option (Text → Bool)) (settings : Settings)

/-- The first gate that an issue does not clear. -/
def gate (issue : RawIssue) : Option Skipped :=
  if issue.count < settings.minEvents then some (.tooFewEvents issue.count settings.minEvents)
  else if issue.userCount < settings.minUsers then
    some (.tooFewUsers issue.userCount settings.minUsers)
  else
    (settings.ignoreCulprits.find? fun pattern =>
      (globMatches pattern).any fun isMatch => isMatch (issue.culprit.getD [])).map .ignoredCulprit

def filter : List Fetched → List Fetched × List Rejected
  | [] => ([], [])
  | fetched :: rest =>
    let filtered := filter rest
    match gate globMatches settings fetched.issue with
    | some reason => (filtered.1, ⟨fetched.issue.shortId, reason⟩ :: filtered.2)
    | none => (fetched :: filtered.1, filtered.2)

/-- What the cap leaves, and what it cuts. -/
def applyCap (issues : List Fetched) : List Fetched × List Rejected :=
  (issues.take settings.maxPerRun, (issues.drop settings.maxPerRun).map fun fetched =>
    ⟨fetched.issue.shortId, .overCap settings.maxPerRun⟩)

end Select

/-- A part of the marker, cut exactly as promotion cuts it. -/
def markerComponent (text : Text) : Text := (truncateTo text MARKER_COMPONENT_BYTES).getD []

/-- The durable marker of one issue. -/
def marker (org project shortId : Text) : Text :=
  "<!-- tinysweeper:sentry=".toList ++ org ++ ['/'] ++ project ++ ['/'] ++ shortId ++ " -->".toList

theorem truncateTo_markerComponent (text : Text) :
    truncateTo text MARKER_COMPONENT_BYTES = some (markerComponent text) := by
  obtain ⟨out, hout, -⟩ := truncateTo_bounded text MARKER_COMPONENT_BYTES
  rw [markerComponent, hout]
  rfl

def TITLE_VALUE_CHARS : ℕ := 80

def collapseWhitespace (text : Text) : Text := [' '].intercalate (splitWhitespace text)

/-- A value in a table cell: no backtick ends it, and no pipe starts a column. -/
def escapeCell (text : Text) : Text :=
  (collapseWhitespace text).flatMap fun c =>
    if c = '\x60' then ['\''] else if c = '|' then ['\\', '|'] else [c]

def codeSpan (text : Text) : Text := ['\x60'] ++ escapeCell text ++ ['\x60']

def truncateOnChar (text : Text) (limit : ℕ) : Text :=
  if text.length ≤ limit then text else trimEnd (text.take limit) ++ ['…']

def title (safe : SafeIssue) : Text :=
  let kind := if safe.kind = [] then "Sentry issue".toList else safe.kind
  let message := truncateOnChar (collapseWhitespace safe.value) TITLE_VALUE_CHARS
  if message = [] then "[sentry] ".toList ++ kind ++ " (".toList ++ safe.shortId ++ ")".toList
  else "[sentry] ".toList ++ kind ++ ": ".toList ++ message ++ " (".toList ++ safe.shortId ++
    ")".toList

/-- A fence longer than any run of backticks in the text. -/
def fenced (text language : Text) : Text :=
  let fence := List.replicate (max (longestRun (· = '\x60') text) 2 + 1) '\x60'
  fence ++ language ++ ['\n'] ++ text ++ ['\n'] ++ fence ++ ['\n']

def sentryLink (safe : SafeIssue) : Text :=
  if safe.permalink = [] then codeSpan safe.shortId
  else
    let target := (collapseWhitespace safe.permalink).flatMap fun c =>
      if c = '|' then ['\\', '|'] else if c = '>' then "%3E".toList else [c]
    ['['] ++ escapeCell safe.shortId ++ "](<".toList ++ target ++ ">)".toList

def row (name value : Text) : Text :=
  "| ".toList ++ name ++ " | ".toList ++ value ++ " |\n".toList

def optionalRow (name value : Text) : Text := if value = [] then [] else row name (codeSpan value)

def frameLine (frame : SafeFrame) : Text :=
  match frame.lineno with
  | some line =>
    frame.filename ++ [':'] ++ decimal line ++ " in ".toList ++ frame.function
  | none => frame.filename ++ " in ".toList ++ frame.function

def report (safe : SafeIssue) : Text :=
  "Promoted from Sentry by tinysweeper.\n\n".toList ++
    (if safe.value = [] then [] else fenced safe.value "text".toList ++ ['\n']) ++
    "| | |\n| --- | --- |\n".toList ++ row "Sentry".toList (sentryLink safe) ++
    row "Project".toList (codeSpan safe.project) ++ optionalRow "Level".toList safe.level ++
    row "Events".toList (decimal safe.count) ++
    row "Users affected".toList (decimal safe.userCount) ++
    optionalRow "Release".toList safe.release ++
    optionalRow "Transaction".toList safe.transaction ++
    optionalRow "Culprit".toList safe.culprit ++ ['\n'] ++
    (if safe.frames = [] then []
      else "### Stack\n\n".toList ++
        fenced (['\n'].intercalate (safe.frames.reverse.map frameLine)) "text".toList ++ ['\n']) ++
    ("_File, function and line only: Sentry event payloads are not promoted, ".toList ++
      "because they carry request bodies, headers, cookies and frame locals._\n\n".toList)

/-- The report, with the marker at its end. -/
def body (safe : SafeIssue) (org : Text) : Text :=
  report safe ++ marker org safe.project safe.shortId ++ ['\n']

theorem contains_body (safe : SafeIssue) (org : Text) :
    contains (body safe org) (marker org safe.project safe.shortId) = true := by
  rw [contains_iff]
  exact ⟨report safe, ['\n'], rfl⟩

/-- What is promoted has the marker that a later sweep looks for. -/
theorem project_identifiers {lower : Lowercase} {secretsScrub : Text → Text} {issue : RawIssue}
    {event : Option RawEvent} {slug : Text} {patterns : List Text} {safe : SafeIssue}
    (h : project lower secretsScrub issue event slug patterns = some safe) :
    safe.shortId = markerComponent issue.shortId ∧ safe.project = markerComponent slug := by
  unfold project at h
  simp only [Option.bind_eq_bind, Option.bind_eq_some_iff] at h
  obtain ⟨frames, -, kind, -, value, -, culprit, -, transaction, -, level, -, release, -, permalink,
    -, h⟩ := h
  unfold enforceBudget at h
  simp only [Option.bind_eq_bind, Option.bind_eq_some_iff, truncateTo_markerComponent,
    Option.some.injEq] at h
  obtain ⟨shortId, rfl, component, rfl, _, -, _, -, _, -, _, -, _, -, _, -, _, -, hsafe⟩ := h
  rw [← Option.some.inj hsafe]
  exact ⟨rfl, rfl⟩

end TinySweeper.Sentry
