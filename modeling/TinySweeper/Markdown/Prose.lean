import TinySweeper.Text

/-!
# Untrusted prose as Markdown

Model text is escaped character by character; what is done to a character depends
on its neighbours, on the URL token it is in and on the markers the text begins
with. Control characters are dropped on the way out.
-/

namespace TinySweeper.Markdown

open Text

/-- The characters of the general category Cc. -/
def isControl (c : Char) : Bool := c.toNat < 0x20 || (0x7F ≤ c.toNat && c.toNat < 0xA0)

def urlStart (remaining : Text) : Bool :=
  let lower := toAsciiLowercase (remaining.take 8)
  "https://".toList.isPrefixOf lower || "http://".toList.isPrefixOf lower ||
    "www.".toList.isPrefixOf lower

/-- Whether a URL token goes on with this character. -/
def inToken (c : Char) : Bool := !(isWhitespace c || isControl c)

/-- Which characters are in a URL token; `left` of them are in one already begun. -/
def inUrlToken : (left : ℕ) → Text → List Bool
  | _, [] => []
  | left + 1, _ :: rest => true :: inUrlToken left rest
  | 0, c :: rest =>
    if urlStart (c :: rest) then
      true :: inUrlToken (((c :: rest).takeWhile inToken).length - 1) rest
    else false :: inUrlToken 0 rest

section Markers

variable (characters : Text)

/-- The place of the first character that is not white space. -/
def first : Option ℕ := characters.findIdx? fun c => !isWhitespace c

/-- What the escaping of a character may look at. -/
structure Markers where
  list : Bool
  heading : Bool
  orderedSeparator : Option ℕ
  inUrlToken : List Bool
  deriving DecidableEq, Repr

def startsWith (markers : List Char) : Bool :=
  (first characters).any fun index =>
    index ≤ 3 && characters[index]?.any (markers.contains ·) &&
      characters[index + 1]?.any isWhitespace

def headingMarker : Bool :=
  (first characters).any fun index =>
    index ≤ 3 && characters[index]? = some '#' &&
      characters[index + 1]?.any fun c => isWhitespace c || c = '#'

def orderedSeparator : Option ℕ :=
  (first characters).bind fun index =>
    let stop := index + ((characters.drop index).takeWhile Char.isDigit).length
    if index < stop && characters[stop]?.any (fun c => c = '.' || c = ')') &&
        characters[stop + 1]?.any isWhitespace then some stop
    else none

def markers : Markers :=
  ⟨startsWith characters ['-', '+', '*'], headingMarker characters, orderedSeparator characters,
    inUrlToken 0 characters⟩

end Markers

variable (isAlphanumeric : Char → Bool)

def emphasisBoundary (characters : Text) (index : ℕ) : Bool :=
  let left := if index = 0 then none else characters[index - 1]?
  let right := characters[index + 1]?
  !left.any isAlphanumeric || !right.any isAlphanumeric

/-- What is written for the character at a place. -/
def escape (m : Markers) (characters : Text) (index : ℕ) (c : Char) : Text :=
  let next := characters[index + 1]?
  let previous := if index = 0 then none else characters[index - 1]?
  let inUrl := m.inUrlToken[index]?.getD false
  if isControl c then
    if c = '\n' || c = '\r' then [' '] else []
  else if c = '&' then "&amp;".toList
  else if c = '<' then "&lt;".toList
  else if c = '>' then "&gt;".toList
  else if c = '@' then "&#64;".toList
  else if c = '\x60' then "&#96;".toList
  else if c = ':' && inUrl then "&#58;".toList
  else if c = '.' && inUrl then "&#46;".toList
  else if c = '\\' || c = '[' || c = ']' || c = '*' then ['\\', c]
  else if c = '_' && emphasisBoundary isAlphanumeric characters index then ['\\', c]
  else if c = '#' && m.heading then ['\\', c]
  else if c = '#' && next.any Char.isDigit then "&#35;".toList
  else if (c = '-' || c = '+') && m.list then ['\\', c]
  else if (c = '.' || c = ')') && m.orderedSeparator = some index then ['\\', c]
  else if c = '~' && (next = some '~' || previous = some '~') then ['\\', c]
  else [c]

/-- Untrusted inline prose that creates no HTML, links or mentions. -/
def prose (text : Text) : Text :=
  text.zipIdx.flatMap fun place => escape isAlphanumeric (markers text) text place.2 place.1

/-- A pipe does not end the cell. -/
def escapePipes (text : Text) : Text := text.flatMap fun c => if c = '|' then ['\\', '|'] else [c]

/-- Prose for a Markdown table cell. -/
def tableCell (text : Text) : Text := escapePipes (prose isAlphanumeric text)

end TinySweeper.Markdown
