import TinySweeper.Scan.Secrets

/-!
# Unified diffs and the changed-line map

Line numbers on the head side are what a review comment anchors to. The parser
is one loop over the lines of a patch; the renderer numbers every line with its
head-revision number.
-/

namespace TinySweeper.Evidence

open Text

inductive LineKind where
  | context
  | added
  | removed
  deriving DecidableEq, Repr

/-- The two revisions a diff relates. -/
inductive Side where
  | new
  | old
  deriving DecidableEq, Repr

/-- The sides a line of this kind is on. -/
def LineKind.isOn : LineKind → Side → Bool
  | .context, _ => true
  | .added, side => side = .new
  | .removed, side => side = .old

/-- One line inside a hunk; a side the line is not on has no number. -/
structure DiffLine where
  kind : LineKind
  newLine : Option ℕ
  oldLine : Option ℕ
  text : Text
  deriving DecidableEq, Repr

def DiffLine.lineOn (line : DiffLine) : Side → Option ℕ
  | .new => line.newLine
  | .old => line.oldLine

structure Hunk where
  oldStart : ℕ
  oldLines : ℕ
  newStart : ℕ
  newLines : ℕ
  heading : Text
  lines : List DiffLine
  deriving DecidableEq, Repr

/-- A parsed file diff, with the head-revision lines it added or modified. -/
structure FileDiff where
  path : Text := []
  hunks : List Hunk := []
  changedLines : Finset ℕ := ∅
  deriving DecidableEq

namespace FileDiff

/-- Whether the range meets a hunk; a hunk of pure deletions covers no head line. -/
def withinHunk (diff : FileDiff) (start stop : ℕ) : Bool :=
  let (start, stop) := if start ≤ stop then (start, stop) else (stop, start)
  diff.hunks.any fun hunk =>
    if hunk.newLines = 0 then false
    else
      let hunkEnd := hunk.newStart + (hunk.newLines - 1)
      start ≤ hunkEnd && stop ≥ hunk.newStart

def addedLines (diff : FileDiff) : List (ℕ × Text) :=
  diff.hunks.flatMap fun hunk => hunk.lines.filterMap fun line =>
    match line.kind with
    | .added => some (line.newLine.getD 0, line.text)
    | _ => none

end FileDiff

/-- `start` or `start,count`; a missing count means one line. -/
def parseRange (text : Text) : Option (ℕ × ℕ) :=
  match splitOnce ',' text with
  | some (start, count) =>
    match parseU64 start, parseU64 count with
    | some start, some count => some (start, count)
    | _, _ => none
  | none => (parseU64 text).map (·, 1)

/-- One token between the `@@` marks; the last range of each side counts. -/
def parseRangeToken (ranges : Option (ℕ × ℕ) × Option (ℕ × ℕ)) (token : Text) :
    Option (ℕ × ℕ) × Option (ℕ × ℕ) :=
  match token with
  | '-' :: rest => (parseRange rest, ranges.2)
  | '+' :: rest => (ranges.1, parseRange rest)
  | _ => ranges

def parseHunkHeader (line : Text) : Option Hunk :=
  match line with
  | '@' :: '@' :: body =>
    match find "@@".toList body with
    | none => none
    | some stop =>
      let heading := trim (body.drop (stop + 2))
      match (splitWhitespace (body.take stop)).foldl parseRangeToken (none, none) with
      | (some (oldStart, oldLines), some (newStart, newLines)) =>
        some { oldStart, oldLines, newStart, newLines, heading, lines := [] }
      | _ => none
  | _ => none

structure ParseState where
  diff : FileDiff
  current : Option Hunk
  newLine : ℕ
  oldLine : ℕ
  deriving DecidableEq

/-- The hunk being read joins the finished ones. -/
def ParseState.flush (s : ParseState) : FileDiff :=
  match s.current with
  | some hunk => { s.diff with hunks := s.diff.hunks ++ [hunk] }
  | none => s.diff

/-- The kind and the text of a line inside a hunk; a line without a marker has neither. -/
def splitMarker (raw : Text) : Option (LineKind × Text) :=
  match raw with
  | '+' :: text => some (.added, text)
  | '-' :: text => some (.removed, text)
  | ' ' :: text => some (.context, text)
  -- A tool stripped the single space of an empty context line.
  | [] => some (.context, [])
  -- `\ No newline at end of file`, or text that is no diff at all.
  | _ => none

/-- A line of the hunk being read. -/
def pushLine (s : ParseState) (hunk : Hunk) (kind : LineKind) (text : Text) : ParseState :=
  match kind with
  | .added =>
    { diff := { s.diff with changedLines := insert s.newLine s.diff.changedLines }
      current := some { hunk with lines := hunk.lines ++ [⟨kind, some s.newLine, none, text⟩] }
      newLine := s.newLine + 1
      oldLine := s.oldLine }
  | .removed =>
    { diff := s.diff
      current := some { hunk with lines := hunk.lines ++ [⟨kind, none, some s.oldLine, text⟩] }
      newLine := s.newLine
      oldLine := s.oldLine + 1 }
  | .context =>
    { diff := s.diff
      current := some { hunk with
        lines := hunk.lines ++ [⟨kind, some s.newLine, some s.oldLine, text⟩] }
      newLine := s.newLine + 1
      oldLine := s.oldLine + 1 }

def parseLine (s : ParseState) (raw : Text) : ParseState :=
  if "@@".toList.isPrefixOf raw then
    match parseHunkHeader raw with
    | some header =>
      { diff := s.flush, current := some header, newLine := header.newStart,
        oldLine := header.oldStart }
    -- Attribute nothing to a place the header does not name.
    | none => { s with diff := s.flush, current := none }
  else
    match s.current with
    | none => s
    | some hunk =>
      match splitMarker raw with
      | none => s
      | some (kind, text) => pushLine s hunk kind text

/-- Parse the unified diff of one file. -/
def parseFilePatch (path patch : Text) : FileDiff :=
  ((lines patch).foldl parseLine ⟨{ path }, none, 0, 0⟩).flush

def LineKind.marker : LineKind → Char
  | .added => '+'
  | .removed => '-'
  | .context => ' '

/-- The fixed-width anchor of a rendered line. -/
def renderAnchor (newLine : Option ℕ) : Text :=
  match newLine with
  | some n => (decimal n).leftpad 5 ' ' ++ [' ']
  | none => List.replicate 6 ' '

def renderLine (line : DiffLine) : Text :=
  renderAnchor line.newLine ++ line.kind.marker :: line.text

def renderHunkHeader (hunk : Hunk) : Text :=
  "@@ -".toList ++ decimal hunk.oldStart ++ ",".toList ++ decimal hunk.oldLines ++
    " +".toList ++ decimal hunk.newStart ++ ",".toList ++ decimal hunk.newLines ++ " @@".toList

section Render

variable (highEntropy : Text → Bool)

def renderPath (path : Text) : Text := "--- ".toList ++ Scan.scrub highEntropy path

/-- The lines of one rendered file; a file without hunks has none. -/
def renderedLines (diff : FileDiff) : List Text :=
  if diff.hunks = [] then []
  else renderPath highEntropy diff.path ::
    diff.hunks.flatMap fun hunk => renderHunkHeader hunk :: hunk.lines.map renderLine

/-- The text a lane shows a model. -/
def render (diffs : List FileDiff) : Text :=
  diffs.flatMap fun diff => unlines (renderedLines highEntropy diff)

end Render

end TinySweeper.Evidence
