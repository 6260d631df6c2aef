import TinySweeper.Evidence.Diff
import TinySweeper.Window

/-!
# Turning a quoted snippet into a line range

A model quotes code and the host computes the lines. The snippet and what it is
looked for in go through the same normalisation, and a match is mapped back to
head-revision numbers.
-/

namespace TinySweeper.Position

open Text Evidence

/-- Trim, strip one leading marker, trim again. -/
def normalize (line : Text) : Text :=
  let trimmed := trim line
  let stripped := match trimmed with
    | '+' :: rest => rest
    | '-' :: rest => rest
    | _ => trimmed
  trim stripped

/-- The normalised lines of a snippet, blanks dropped. -/
def needle (snippet : Text) : List Text :=
  ((lines snippet).map normalize).filter fun line => line ≠ []

/-- The normalised lines of a file under their numbers, blanks dropped. -/
def haystack (text : Text) : List (ℕ × Text) :=
  ((lines text).zipIdx.map fun line => (line.2 + 1, normalize line.1)).filter
    fun row => row.2 ≠ []

/-- The keys of the first window of the haystack that spells the needle. -/
def find (haystack : List (ℕ × Text)) (needle : List Text) : Option (ℕ × ℕ) :=
  if needle = [] then none
  else
    match (Window.windows needle.length haystack).find?
      fun window => window.map Prod.snd = needle with
    | none => none
    | some window =>
      match window.head?, window.getLast? with
      | some start, some stop => some (min start.1 stop.1, max start.1 stop.1)
      | _, _ => none

/-- The head revision of a hunk: context and added lines. -/
def projectNew (hunk : Hunk) : List (ℕ × Text) :=
  ((hunk.lines.filter fun line => line.kind ≠ .removed).filterMap fun line =>
    line.newLine.map fun n => (n, normalize line.text)).filter fun row => row.2 ≠ []

/-- The head line at or after each line, read from the back. -/
def nextNewLines : List DiffLine → List (Option ℕ)
  | [] => []
  | line :: rest =>
    let anchors := nextNewLines rest
    line.newLine.or anchors.head?.join :: anchors

/-- Anchors still missing take the last head line before them. -/
def fillPrevious : (previous : Option ℕ) → List (DiffLine × Option ℕ) → List (Option ℕ)
  | _, [] => []
  | previous, (line, anchor) :: rest =>
    let previous := line.newLine.or previous
    anchor.or previous :: fillPrevious previous rest

/-- The head line a comment about each line of a hunk sits on. -/
def nearestNewLines (hunk : Hunk) : List ℕ :=
  let fallback := max hunk.newStart 1
  (fillPrevious none (hunk.lines.zip (nextNewLines hunk.lines))).map fun anchor =>
    anchor.getD fallback

/-- The base revision of a hunk, context and deleted lines, keyed by head lines. -/
def projectOld (hunk : Hunk) : List (ℕ × Text) :=
  (((hunk.lines.zip (nearestNewLines hunk)).filter fun pair => pair.1.kind ≠ .added).map
    fun pair => (pair.2, normalize pair.1.text)).filter fun row => row.2 ≠ []

inductive Stage where
  | hunk
  | wholeFile
  deriving DecidableEq, Repr

structure Anchor where
  start : ℕ
  stop : ℕ
  side : Side
  stage : Stage
  relocated : Bool
  deriving DecidableEq, Repr

inductive Unanchored where
  | noSnippet
  | noMatch
  deriving DecidableEq, Repr

inductive Resolution where
  | anchored (anchor : Anchor)
  | unanchored (reason : Unanchored)
  deriving DecidableEq, Repr

def anchored (range : ℕ × ℕ) (side : Side) (stage : Stage) : Resolution :=
  .anchored ⟨range.1, range.2, side, stage, false⟩

/-- The first range one of the hunks gives. -/
def findInHunks (project : Hunk → List (ℕ × Text)) (hunks : List Hunk) (needle : List Text) :
    Option (ℕ × ℕ) :=
  hunks.findSome? fun hunk => find (project hunk) needle

def locate (snippet : Text) (diff : Option FileDiff) (file : Option Text) : Resolution :=
  let needle := needle snippet
  if needle = [] then .unanchored .noSnippet
  else
    -- A finding is about the code after the merge, so the new side goes first.
    match diff.bind fun diff => findInHunks projectNew diff.hunks needle with
    | some range => anchored range .new .hunk
    | none =>
      match diff.bind fun diff => findInHunks projectOld diff.hunks needle with
      | some range => anchored range .old .hunk
      | none =>
        match file.bind fun file => find (haystack file) needle with
        | some range => anchored range .new .wholeFile
        | none => .unanchored .noMatch

end TinySweeper.Position
