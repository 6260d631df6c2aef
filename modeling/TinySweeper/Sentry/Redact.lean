import TinySweeper.Sentry.Pii

/-!
# The promotable part of a Sentry payload

Every surviving text goes through the credential rulepack, the personal-data passes
and the configured patterns, and what is promoted is cut to a fixed size.
-/

namespace TinySweeper.Sentry

open Text

/-- The hard ceiling on promoted free text, in bytes. -/
def MAX_EXCERPT_BYTES : ℕ := 4096

/-- How many stack frames may be promoted. -/
def MAX_FRAMES : ℕ := 30

/-- The cap on the two fields the dedupe marker is built from. -/
def MARKER_COMPONENT_BYTES : ℕ := 128

/-- The replacement written where text was removed. -/
def ELIDED : Text := ['…']

section Scrub

variable (lower : Lowercase)

/-- The search from byte `cursor` on; nothing when an offset is no boundary, or the rounds run
out. -/
def removeLiteralFrom (haystack needle : Text) :
    (rounds : ℕ) → (cursor : ℕ) → (out : Text) → Option Text
  | 0, _, _ => none
  | rounds + 1, cursor, out => do
    let (_, rest) ← splitAtByte cursor haystack
    match findCi lower rest needle with
    | none => return out ++ rest
    | some (found, foundEnd) =>
      let start := cursor + found
      let stop := cursor + foundEnd
      if (splitAtByte start haystack).isNone || (splitAtByte stop haystack).isNone then
        return out ++ rest
      else
        let kept ← byteSlice cursor start haystack
        removeLiteralFrom haystack needle rounds stop (out ++ kept ++ ELIDED)

/-- Remove every case-insensitive occurrence of the needle. -/
def removeLiteralCi (haystack needle : Text) : Option Text :=
  removeLiteralFrom lower haystack needle (haystack.length + 1) 0 []

/-- Remove the configured patterns one after another; a blank one is passed over. -/
def removePatterns : (scrubbed : Text) → (extraPatterns : List Text) → Option Text
  | scrubbed, [] => some scrubbed
  | scrubbed, pattern :: extraPatterns => do
    let scrubbed ←
      if (trim pattern).isEmpty then some scrubbed else removeLiteralCi lower scrubbed pattern
    removePatterns scrubbed extraPatterns

/-- Scrub a text for anything that must not be written; `secretsScrub` is the credential
rulepack. -/
def scrubText (secretsScrub : Text → Text) (text : Text) (extraPatterns : List Text) :
    Option Text := do
  let scrubbed ← redact lower (secretsScrub text)
  removePatterns lower scrubbed extraPatterns

end Scrub

structure RawMetadata where
  kind : Option Text
  value : Option Text

/-- One unresolved Sentry issue. -/
structure RawIssue where
  shortId : Text
  culprit : Option Text
  level : Option Text
  permalink : Option Text
  count : ℕ
  userCount : ℕ
  metadata : RawMetadata

structure RawFrame where
  filename : Option Text
  function : Option Text
  lineno : Option ℕ

structure RawStacktrace where
  frames : List RawFrame

structure RawExceptionValue where
  stacktrace : Option RawStacktrace

structure RawEntryData where
  values : List RawExceptionValue

structure RawEntry where
  kind : String
  data : RawEntryData

/-- A release is a bare version or an object that carries one. -/
inductive RawRelease where
  | bare (text : Text)
  | object (text : Option Text)

def RawRelease.version : RawRelease → Option Text
  | .bare text => some text
  | .object text => text

/-- The latest event of an issue. -/
structure RawEvent where
  transaction : Option Text
  release : Option RawRelease
  entries : List RawEntry

structure SafeFrame where
  filename : Text
  function : Text
  lineno : Option ℕ
  deriving DecidableEq, Repr

/-- An issue reduced to what may be written. -/
structure SafeIssue where
  shortId : Text
  project : Text
  kind : Text
  value : Text
  culprit : Text
  transaction : Text
  level : Text
  count : ℕ
  userCount : ℕ
  release : Text
  frames : List SafeFrame
  permalink : Text
  deriving DecidableEq, Repr

/-- The last boundary of a character at or before this offset. -/
def boundaryAtMost : ℕ → Text → ℕ
  | 0, _ => 0
  | n + 1, text => if (splitAtByte (n + 1) text).isSome then n + 1 else boundaryAtMost n text

/-- Truncate to at most `max` bytes, the marker included. -/
def truncateTo (text : Text) (max : ℕ) : Option Text :=
  if utf8Len text ≤ max then some text
  else if max < utf8Len ELIDED then some []
  else do
    let room := max - utf8Len ELIDED
    let (kept, _) ← splitAtByte (boundaryAtMost room text) text
    return kept ++ ELIDED

def SafeFrame.cost (frame : SafeFrame) : ℕ := utf8Len frame.filename + utf8Len frame.function

/-- Whole frames, as many as the budget buys. -/
def affordable : (budget : ℕ) → List SafeFrame → List SafeFrame
  | _, [] => []
  | budget, frame :: frames =>
    if frame.cost > budget then [] else frame :: affordable (budget - frame.cost) frames

/-- Truncate the promoted text: the fixed fields first, then the message, the frames last. -/
def enforceBudget (safe : SafeIssue) : Option SafeIssue := do
  let shortId ← truncateTo safe.shortId MARKER_COMPONENT_BYTES
  let project ← truncateTo safe.project MARKER_COMPONENT_BYTES
  let permalink ← truncateTo safe.permalink 512
  let level ← truncateTo safe.level 32
  let kind ← truncateTo safe.kind 256
  let fixed := utf8Len shortId + utf8Len project + utf8Len permalink + utf8Len level + utf8Len kind
  let budget := MAX_EXCERPT_BYTES - fixed
  let value ← truncateTo safe.value (min budget (MAX_EXCERPT_BYTES / 2))
  let budget := budget - utf8Len value
  let culprit ← truncateTo safe.culprit (min budget 512)
  let budget := budget - utf8Len culprit
  let transaction ← truncateTo safe.transaction (min budget 512)
  let budget := budget - utf8Len transaction
  let release ← truncateTo safe.release (min budget 256)
  let budget := budget - utf8Len release
  return { safe with
    shortId, project, permalink, level, kind, value, culprit, transaction, release
    frames := affordable budget safe.frames }

/-- The total promoted text, in bytes. -/
def excerptBytes (safe : SafeIssue) : ℕ :=
  utf8Len safe.shortId + utf8Len safe.project + utf8Len safe.kind + utf8Len safe.value +
    utf8Len safe.culprit + utf8Len safe.transaction + utf8Len safe.level + utf8Len safe.release +
    utf8Len safe.permalink + (safe.frames.map SafeFrame.cost).sum

section Project

variable (lower : Lowercase) (secretsScrub : Text → Text)

/-- The frames of every exception, innermost last. -/
def rawFrames (event : RawEvent) : List RawFrame :=
  (event.entries.filter (·.kind == "exception")).flatMap fun entry =>
    entry.data.values.flatMap fun value =>
      match value.stacktrace with
      | some stacktrace => stacktrace.frames
      | none => []

def safeFrame (patterns : List Text) (frame : RawFrame) : Option SafeFrame := do
  let filename ← scrubText lower secretsScrub (frame.filename.getD []) patterns
  let function ← scrubText lower secretsScrub (frame.function.getD []) patterns
  return { filename, function, lineno := frame.lineno }

/-- File, function and line of the last frames. -/
def safeFrames (event : RawEvent) (patterns : List Text) : Option (List SafeFrame) :=
  let frames := rawFrames event
  (frames.drop (frames.length - MAX_FRAMES)).mapM (safeFrame lower secretsScrub patterns)

/-- The frames before the size cap; there are none without an event. -/
def projectedFrames (event : Option RawEvent) (patterns : List Text) : Option (List SafeFrame) :=
  match event with
  | some event => safeFrames lower secretsScrub event patterns
  | none => some []

/-- The only constructor of a promotable issue. -/
def project (issue : RawIssue) (event : Option RawEvent) (projectSlug : Text)
    (patterns : List Text) : Option SafeIssue := do
  let scrub := fun text => scrubText lower secretsScrub text patterns
  let frames ← projectedFrames lower secretsScrub event patterns
  let kind ← scrub (issue.metadata.kind.getD [])
  let value ← scrub (issue.metadata.value.getD [])
  let culprit ← scrub (issue.culprit.getD [])
  let transaction ← scrub ((event.bind (·.transaction)).getD [])
  let level ← scrub (issue.level.getD [])
  let release ← scrub (((event.bind (·.release)).bind (·.version)).getD [])
  let permalink ← scrub (issue.permalink.getD [])
  enforceBudget
    { shortId := issue.shortId, project := projectSlug, kind, value, culprit, transaction, level
      count := issue.count, userCount := issue.userCount, release, frames, permalink }

end Project

end TinySweeper.Sentry
