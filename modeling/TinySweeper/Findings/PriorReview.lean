import TinySweeper.App.InlineComments
import TinySweeper.Forge.Reviews

/-!
# What an earlier review left behind

Markers are read back from review comments, threads and issue comments, of which
anyone can write some. Threads are read twice: for what a maintainer declined and
for what is settled.
-/

namespace TinySweeper.Prior

open Text Findings Forge App
open Scan (Severity)
open Std (TreeMap)

structure ThreadComment where
  author : Text
  body : Text
  bot : Bool
  maintainer : Bool
  deriving DecidableEq, Repr

/-- A conversation; its first comment is whoever opened it. -/
structure ReviewThread where
  isResolved : Bool
  isOutdated : Bool
  comments : List ThreadComment
  resolvedByHasWriteAccess : Bool
  deriving DecidableEq, Repr

structure IssueComment where
  author : Text
  body : Text
  deriving DecidableEq, Repr

/-- Where an anchor came from. -/
inductive AnchorSource where
  | posted
  | declined
  | otherReviewer
  deriving DecidableEq, Repr

structure PostedAnchor where
  lane : Option LaneId
  path : Text
  line : Option ℕ
  startLine : Option ℕ
  title : Option Text
  text : Option Text
  rule : Option Text
  source : AnchorSource
  deriving DecidableEq, Repr

/-- Everything an earlier cycle left on the pull request. -/
structure PriorReview where
  posted : Finset Text := ∅
  titles : List Text := []
  severities : TreeMap Text Severity := ∅
  anchors : List PostedAnchor := []
  lastSha : Option Text := none
  openFindings : Finset Text := ∅

def OTHER_REVIEWERS : List Text :=
  ["coderabbitai".toList, "chatgpt-codex-connector".toList, "greptile-apps".toList]

def botSlug (login : Text) : Text :=
  toAsciiLowercase ((stripSuffix "[bot]".toList login).getD login)

/-- A known review bot, as its app. -/
def isOtherReviewer (login : Text) : Bool :=
  (stripSuffix "[bot]".toList login).any fun slug =>
    OTHER_REVIEWERS.any fun known => toAsciiLowercase slug = known

/-- What a body looks like without details, code fences and comments, so far. -/
structure Tooling where
  out : Text := []
  depth : ℕ := 0
  fenced : Bool := false
  commented : Bool := false
  deriving DecidableEq, Repr

def Tooling.strip (t : Tooling) (line : Text) : Tooling :=
  let trimmed := trim line
  if t.commented || "<!--".toList.isPrefixOf trimmed then
    { t with commented := !contains trimmed "-->".toList }
  else
    let depth := t.depth + (matchIndices "<details".toList trimmed).length
    let left := depth - (matchIndices "</details>".toList trimmed).length
    if depth > 0 then { t with depth := left }
    else if "```".toList.isPrefixOf trimmed then { t with depth := left, fenced := !t.fenced }
    else if t.fenced then { t with depth := left }
    else { t with depth := left, out := t.out ++ line ++ ['\n'] }

def stripTooling (body : Text) : Text := ((lines body).foldl Tooling.strip {}).out

/-- Inline markup and images removed; each step takes a character at least. -/
def stripMarkupFrom : (fuel : ℕ) → Text → Text
  | 0, _ => []
  | fuel + 1, text =>
    let before := text.takeWhile fun c => c ≠ '<' && c ≠ '!'
    match text.dropWhile fun c => c ≠ '<' && c ≠ '!' with
    | [] => before
    | '<' :: tail =>
      match find ['>'] tail with
      | some stop => before ++ stripMarkupFrom fuel (tail.drop (stop + 1))
      | none => before
    | _ :: '[' :: tail =>
      match find [')'] ('[' :: tail) with
      | some stop => before ++ stripMarkupFrom fuel (('[' :: tail).drop (stop + 1))
      | none => before
    | c :: tail => before ++ c :: stripMarkupFrom fuel tail

def stripMarkup (text : Text) : Text := stripMarkupFrom (text.length + 1) text

/-- The title on a line that is wholly one bold run. -/
def boldTitle (line : Text) : Option Text := do
  let inner ← (stripPrefix "**".toList (trim line)).bind (stripSuffix "**".toList)
  if contains inner "**".toList then none
  else
    let title := trim (stripMarkup inner)
    if title.isEmpty then none else some title

/-- The first title, and the text behind it. -/
def titled : List Text → Option (Text × Text)
  | [] => none
  | line :: rest =>
    match boldTitle line with
    | some title => some (title, trim (['\n'].intercalate rest))
    | none => titled rest

def otherReviewerAnchor (comment : ReviewComment) : Option PostedAnchor :=
  (titled (lines (stripTooling comment.body))).map fun (title, text) =>
    { lane := none, path := comment.path, line := comment.line, startLine := comment.startLine,
      title := some title, text := some text, rule := none, source := .otherReviewer }

/-- The app and the body of a review bot's comment. -/
def botKey (comment : ReviewComment) : Text × Text := (botSlug comment.author, comment.body)

/-- The bots' comments in threads that are neither resolved nor outdated. -/
def openBotComments (threads : List ReviewThread) : Finset (Text × Text) :=
  (((threads.filter fun thread => !thread.isResolved && !thread.isOutdated).flatMap
    ReviewThread.comments).filter ThreadComment.bot).map
      (fun comment => (botSlug comment.author, comment.body)) |>.toFinset

section Load

variable (expected : Text)

/-- The account the bot posts as. -/
def isOwnLogin (login : Text) : Bool := loginMatches login expected

/-- The fingerprint of a conversation that we opened. -/
def identity (thread : ReviewThread) : Option Text :=
  (thread.comments.head?.filter fun opener => isOwnLogin expected opener.author).bind
    fun opener => fingerprintIn opener.body

/-- Resolved without the code changing by someone who may, or answered by a maintainer. -/
def pushedBack (thread : ReviewThread) : Bool :=
  if thread.isResolved then !thread.isOutdated && thread.resolvedByHasWriteAccess
  else thread.comments.tail.any fun comment =>
    !comment.bot && !isOwnLogin expected comment.author && comment.maintainer

def declinedFingerprints (threads : List ReviewThread) : Finset Text :=
  ((threads.filter (pushedBack expected)).filterMap (identity expected)).toFinset

/-- The findings whose conversations are all resolved hold no slot. -/
def PriorReview.settle (prior : PriorReview) (threads : List ReviewThread) : PriorReview :=
  let settled := ((threads.filter ReviewThread.isResolved).filterMap (identity expected)).toFinset
  let unsettled :=
    ((threads.filter fun thread => !thread.isResolved).filterMap (identity expected)).toFinset
  { prior with openFindings := prior.openFindings \ (settled \ unsettled) }

/-- A review bot's comment anchors a concern while it is open and its body is its own. -/
def PriorReview.recordOther (openBot : Finset (Text × Text)) (all : List ReviewComment)
    (prior : PriorReview) (comment : ReviewComment) : PriorReview :=
  let copies := (all.filter fun c => isOtherReviewer c.author).countP fun c =>
    botKey c = botKey comment
  if botKey comment ∈ openBot ∧ copies = 1 then
    { prior with anchors := prior.anchors ++ (otherReviewerAnchor comment).toList }
  else prior

def anchorOf (source : AnchorSource) (comment : ReviewComment) : PostedAnchor where
  lane := laneIn comment.body
  path := comment.path
  line := comment.line
  startLine := comment.startLine
  title := titleIn comment.body
  text := textIn comment.body
  rule := ruleIn comment.body
  source

/-- The title of a finding that is new, and the level it was first given. -/
def PriorReview.recordTitle (prior : PriorReview) (body : Text) : PriorReview :=
  match titleIn body with
  | none => prior
  | some title =>
    match severityIn body with
    | none => { prior with titles := prior.titles ++ [title] }
    | some severity =>
      { prior with
        titles := prior.titles ++ [title]
        severities := prior.severities.insertIfNew title severity }

/-- One of our comments: the anchor is kept for repeats too. -/
def PriorReview.recordOwn (declined : Finset Text) (prior : PriorReview)
    (comment : ReviewComment) : PriorReview :=
  match fingerprintsIn comment.body with
  | [] => prior
  | primary :: aliases =>
    let source := if primary ∈ declined then .declined else .posted
    let recorded := if primary ∈ prior.posted then prior else prior.recordTitle comment.body
    { recorded with
      anchors := prior.anchors ++ [anchorOf source comment]
      openFindings := insert primary prior.openFindings
      posted := insert primary prior.posted ∪ aliases.toFinset }

def PriorReview.record (declined : Finset Text) (openBot : Finset (Text × Text))
    (all : List ReviewComment) (prior : PriorReview) (comment : ReviewComment) : PriorReview :=
  if isOtherReviewer comment.author then prior.recordOther openBot all comment
  else if isOwnLogin expected comment.author then prior.recordOwn declined comment
  else prior

def STATE_KEY : Text := "state v=1 sha=".toList

def isAsciiWhitespace (c : Char) : Bool :=
  c = ' ' || c = '\t' || c = '\n' || c = '\r' || c.toNat = 12

/-- The first word of a marker's value. -/
def firstWord (value : Text) : Option Text :=
  let word := (value.dropWhile isAsciiWhitespace).takeWhile fun c => !isAsciiWhitespace c
  if word.isEmpty then none else some word

def isHexdigit (c : Char) : Bool :=
  c.isDigit || ('a' ≤ c && c ≤ 'f') || ('A' ≤ c && c ≤ 'F')

def isSha (value : Text) : Bool :=
  7 ≤ value.length && value.length ≤ 40 && value.all isHexdigit

def PriorReview.recordState (prior : PriorReview) (comment : IssueComment) : PriorReview :=
  match ((markerValue comment.body STATE_KEY).bind firstWord).filter isSha with
  | some sha => if isOwnLogin expected comment.author then { prior with lastSha := some sha } else prior
  | none => prior

/-- The answers of the forge, in the order it is asked. -/
structure Reads where
  declinedThreads : Except Text (List ReviewThread)
  comments : Except Text (List ReviewComment)
  settledThreads : Except Text (List ReviewThread)
  issueComments : Except Text (List IssueComment)

def PriorReview.ofComments (declined : Finset Text) (openBot : Finset (Text × Text))
    (comments : List ReviewComment) : PriorReview :=
  comments.foldl (PriorReview.record expected declined openBot comments) {}

/-- Read back every marker on a pull request. Threads that cannot be read cost the declines and
the bots' anchors, and settle nothing. -/
def load (reads : Reads) : Except Text PriorReview := do
  let (declined, openBot) := match reads.declinedThreads with
    | .ok threads => (declinedFingerprints expected threads, openBotComments threads)
    | .error _ => (∅, ∅)
  let comments ← reads.comments
  let prior := PriorReview.ofComments expected declined openBot comments
  let prior := match reads.settledThreads with
    | .ok threads => prior.settle expected threads
    | .error _ => prior
  let issueComments ← reads.issueComments
  return issueComments.foldl (PriorReview.recordState expected) prior

end Load

end TinySweeper.Prior
