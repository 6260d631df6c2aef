import TinySweeper.Delimited
import TinySweeper.Window

/-!
# Whether a change is already on the base branch

A pull request has landed when every hunk reads on the base branch as it would
after the change, and none as it did before.
-/

namespace TinySweeper.PrTriage

open Text

inductive FileStatus where
  | added
  | modified
  | removed
  | renamed
  deriving DecidableEq, Repr

structure ChangedFile where
  path : Text
  previousPath : Option Text
  status : FileStatus
  patch : Option Text
  deriving DecidableEq, Repr

/-- Why a pull request could not be called superseded. -/
inductive NotLanded where
  | noReadableDiff
  | renamed
  | opaqueFile
  | tooSmall
  | addedLineMissing
  | removedLineStillPresent
  | fileStillThere
  | noAnchor
  | partiallyApplied
  | baseUnreadable
  deriving DecidableEq, Repr

def NotLanded.reason : NotLanded → String
  | .noReadableDiff => "the diff had nothing readable in it"
  | .renamed => "it renames a file, so the base-branch path is ambiguous"
  | .opaqueFile => "the forge gave no patch for one of its files"
  | .tooSmall => "the change is too small for a match to mean anything"
  | .addedLineMissing => "it adds lines the base branch does not have"
  | .removedLineStillPresent => "it removes lines the base branch still has"
  | .fileStillThere => "it deletes a file the base branch still has"
  | .noAnchor => "it changes lines with no surrounding context to place them by"
  | .partiallyApplied => "only some of its repeated changes are on the base branch"
  | .baseUnreadable => "the base branch copy of one of its files could not be read"

/-- A file as the base branch has it. -/
inductive Base where
  | present (content : Text)
  | absent
  | unreadable
  deriving DecidableEq, Repr

/-- Both versions of the stretch a hunk describes. -/
structure Hunk where
  before : List Text := []
  after : List Text := []
  /-- Changed lines, and how many of them are removed. -/
  changed : ℕ := 0
  removes : ℕ := 0
  /-- Context lines with text before the first changed line and after the last one. -/
  leading : ℕ := 0
  start : ℕ := 0
  trailing : ℕ := 0
  anchors : ℕ := 0
  deriving DecidableEq, Repr

/-- Only white space at the end of a line is ignored. -/
def normalise (line : Text) : Text := trimEnd line

/-- The first line on the new side, of a header `@@ -a,b +c,d @@`. -/
def newSideStart (header : Text) : ℕ :=
  ((((splitWhitespace header).findSome? (stripPrefix ['+'])).bind fun field =>
    (field.splitOn ',').head?).bind parseU64).getD 0

namespace Hunk

def add (hunk : Hunk) (text : Text) : Hunk :=
  { hunk with
    after := hunk.after ++ [normalise text]
    changed := hunk.changed + 1
    trailing := 0 }

def remove (hunk : Hunk) (text : Text) : Hunk :=
  { hunk with
    before := hunk.before ++ [normalise text]
    changed := hunk.changed + 1
    removes := hunk.removes + 1
    trailing := 0 }

/-- A blank context line is kept on both sides, but locates nothing. -/
def context (hunk : Hunk) (text : Text) : Hunk :=
  let normalised := normalise text
  let hunk := { hunk with
    before := hunk.before ++ [normalised]
    after := hunk.after ++ [normalised] }
  if normalised.isEmpty then hunk
  else if hunk.changed = 0 then
    { hunk with anchors := hunk.anchors + 1, leading := hunk.leading + 1 }
  else { hunk with anchors := hunk.anchors + 1, trailing := hunk.trailing + 1 }

end Hunk

structure Reader where
  out : List Hunk := []
  current : Hunk := {}
  inHunk : Bool := false

namespace Reader

def push (r : Reader) : Reader :=
  if 0 < r.current.changed then { r with out := r.out ++ [r.current], current := {} }
  else { r with current := {} }

def line (r : Reader) (line : Text) : Reader :=
  if "@@".toList.isPrefixOf line then
    { r.push with current := { start := newSideStart line }, inHunk := true }
  else
    match line with
    | '\\' :: _ => r
    -- outside a hunk a line of this mark may be the header naming the file
    | '+' :: text =>
      if r.inHunk || !"+++".toList.isPrefixOf line then { r with current := r.current.add text }
      else r
    | '-' :: text =>
      if r.inHunk || !"---".toList.isPrefixOf line then
        { r with current := r.current.remove text }
      else r
    | ' ' :: text => { r with current := r.current.context text }
    | [] => { r with current := r.current.context [] }
    | _ => r

end Reader

def hunks (patch : Text) : List Hunk := ((lines patch).foldl Reader.line {}).push.out

def baseLines (content : Option Text) : List Text := (lines (content.getD [])).map normalise

/-- Occurrences that do not overlap, counted from the front. -/
def occurrences (haystack run : List Text) : ℕ :=
  if run.isEmpty || run.length > haystack.length then 0 else (matchIndices run haystack).length

def containsRun (haystack run : List Text) : Bool :=
  if run.isEmpty then false
  else if run.length > haystack.length then false
  else (Window.windows run.length haystack).any fun window => window = run

/-- The sum of the counts, or the first refusal. -/
def total {α : Type} (count : α → Except NotLanded ℕ) : List α → Except NotLanded ℕ
  | [] => .ok 0
  | x :: rest =>
    match count x with
    | .error why => .error why
    | .ok n => (total count rest).map (n + ·)

def hunkLanded (base : List Text) (hunk : Hunk) : Except NotLanded ℕ :=
  let beforeIsConclusive := hunk.removes > 0 || (hunk.leading > 0 && hunk.trailing > 0)
  if beforeIsConclusive && containsRun base hunk.before then .error .removedLineStillPresent
  else if hunk.anchors = 0 || (hunk.removes = 0 && !beforeIsConclusive) then .error .noAnchor
  else if !containsRun base hunk.after then .error .addedLineMissing
  else .ok hunk.changed

/-- A repeated after image has to be on the branch as often as in the diff. -/
def partiallyApplied (base : List Text) (hunks : List Hunk) : Bool :=
  hunks.any fun hunk =>
    let count := hunks.countP fun other => other.after = hunk.after
    count > 1 && occurrences base hunk.after < count

def fileLanded (file : ChangedFile) (base : Option Text) : Except NotLanded ℕ :=
  if file.previousPath.isSome || file.status = .renamed then .error .renamed
  else
    match file.patch with
    | none => .error .opaqueFile
    | some patch =>
      if file.status = .removed then
        match base with
        | some _ => .error .fileStillThere
        | none => .ok ((hunks patch).map fun hunk => hunk.changed).sum
      else if partiallyApplied (baseLines base) (hunks patch) then .error .partiallyApplied
      else total (hunkLanded (baseLines base)) (hunks patch)

/-- A base that could not be read refuses the pull request. -/
def baseLanded (file : ChangedFile) : Base → Except NotLanded ℕ
  | .present content => fileLanded file (some content)
  | .absent => fileLanded file none
  | .unreadable => .error .baseUnreadable

def landed (files : List ChangedFile) (bases : List Base) (minLines : ℕ) : Except NotLanded ℕ :=
  if files.isEmpty || files.length ≠ bases.length then .error .noReadableDiff
  else
    match total (fun entry => baseLanded entry.1 entry.2) (files.zip bases) with
    | .error why => .error why
    | .ok lines =>
      if lines = 0 then .error .noReadableDiff
      else if lines < minLines then .error .tooSmall
      else .ok lines

end TinySweeper.PrTriage
