import TinySweeper.Cutting
import TinySweeper.Sentry.Redact

/-!
# The shapes a scrubbed text must not hold

Each shape is stated over the places of a text, with the predicates the passes use,
and each pass is described by the stretches it keeps.
-/

namespace TinySweeper.Sentry

open Text

def flushToken (token : Text) : List Text := if token = [] then [] else [token]

/-- The tokens of the rest of a text, of whose pending token these characters have been seen. -/
def tokensFrom : (token : Text) → Text → List Text
  | token, [] => flushToken token
  | token, c :: text =>
    if isSeparator c then flushToken token ++ tokensFrom [] text
    else tokensFrom (token ++ [c]) text

/-- Maximal runs without separators. -/
def tokens (text : Text) : List Text := tokensFrom [] text

def isSentencePunctuation (c : Char) : Bool := ['.', '!', '?'].contains c

/-- A token that is an email address once the punctuation of its sentence is stripped. -/
def isAddress (token : Text) : Bool := isEmail (token.rdropWhile isSentencePunctuation)

section Bearer

variable (lower : Lowercase)

/-- A `bearer` keyword stands here, followed by whitespace and a credential-shaped word. -/
def introduces (rest : Text) : Bool :=
  match startsWith lower "bearer".toList rest with
  | none => false
  | some (_, behind) =>
    behind.head?.any isWhitespace &&
      isCredentialShaped ((behind.dropWhile isWhitespace).takeWhile fun c => !isWhitespace c)

def BearerFree (text : Text) : Prop := ∀ rest, rest <:+ text → introduces lower rest = false

end Bearer

def isRunSeparator (c : Char) : Bool := c = '-' || c = ' '

/-- A digit that follows belongs to a run begun earlier. -/
def endsInRun (before : Text) : Bool :=
  match before.reverse with
  | [] => false
  | [c] => c.isDigit
  | c :: d :: _ => c.isDigit || (isRunSeparator c && d.isDigit)

/-- A bounded run of 13 to 19 digits begins between these two parts of a text. -/
def cardAt (before rest : Text) : Bool :=
  rest.head?.any Char.isDigit && !endsInRun before &&
    isCard before.getLast? (takeRun rest).1 (takeRun rest).2.head?

def CardFree (text : Text) : Prop := ∀ before rest, text = before ++ rest → cardAt before rest = false

/-- Nothing that must not be written is left. -/
structure Scrubbed (lower : Lowercase) (patterns : List Text) (out : Text) : Prop where
  literals : ∀ pattern ∈ patterns, trim pattern ≠ [] → ∀ before rest stop, out = before ++ rest →
    matchAt lower rest (utf8Len before) pattern = some stop →
      byteSlice (utf8Len before) stop out = some ELIDED
  emails : ∀ token ∈ tokens out, isEmail token = false ∧ isAddress token = false
  cards : CardFree out
  opaques : ∀ token ∈ tokens out, isOpaque token = false
  bearers : BearerFree lower out

section Cuts

variable (lower : Lowercase) (p : Text → Bool)

def flushCut (token : Text) (cutting : Cutting Char) : Cutting Char :=
  if token = [] then cutting else if p token then cutting.cut token else cutting.keep token

/-- The tokens with the property are removed. -/
def cutTokensFrom : (token : Text) → Text → Cutting Char
  | token, [] => flushCut p token (.whole [])
  | token, c :: text =>
    if isSeparator c then flushCut p token ((cutTokensFrom [] text).keep [c])
    else cutTokensFrom (token ++ [c]) text

def cutTokens (text : Text) : Cutting Char := cutTokensFrom p [] text

/-- The card-shaped runs are removed. -/
def cutCardsFrom : (prev : Option Char) → (skip : ℕ) → Text → Cutting Char
  | _, _, [] => .whole []
  | _, skip + 1, c :: text => cutCardsFrom (some c) skip text
  | prev, 0, c :: text =>
    if c.isDigit then
      let (run, after) := takeRun (c :: text)
      if isCard prev run after.head? then (cutCardsFrom (some c) (run.length - 1) text).cut run
      else (cutCardsFrom (some c) (run.length - 1) text).keep run
    else (cutCardsFrom (some c) 0 text).keep [c]

def cutCards (text : Text) : Cutting Char := cutCardsFrom none 0 text

/-- The matches of the needle are removed. -/
def cutLiteralFrom (needle : Text) : (skip : ℕ) → Text → Cutting Char
  | _, [] => .whole []
  | skip + 1, _ :: text => cutLiteralFrom needle skip text
  | 0, c :: text =>
    match startsWith lower needle (c :: text) with
    | some (found, _) => (cutLiteralFrom needle (found.length - 1) text).cut found
    | none => (cutLiteralFrom needle 0 text).keep [c]

def cutLiteral (needle text : Text) : Cutting Char := cutLiteralFrom lower needle 0 text

/-- The word behind a match of the keyword. -/
def wordOf (behind : Text) : Text := behind.takeWhile fun c => !isWhitespace c

/-- The credential-shaped words behind the keyword are removed. -/
def cutBearerFrom : (skip : ℕ) → Text → Cutting Char
  | _, [] => .whole []
  | skip + 1, _ :: text => cutBearerFrom skip text
  | 0, c :: text =>
    match startsWith lower "bearer ".toList (c :: text) with
    | some (found, behind) =>
      let word := wordOf behind
      let later := cutBearerFrom (found.length + word.length - 1) text
      if isCredentialShaped word then (later.cut word).keep found else later.keep (found ++ word)
    | none => (cutBearerFrom 0 text).keep [c]

def cutBearer (text : Text) : Cutting Char := cutBearerFrom lower 0 text

/-- The scan declines this word of the text, with this text behind it. -/
inductive Declines : (text word behind : Text) → Prop
  | here {before found behind : Text} :
      Earliest lower "bearer ".toList before found behind →
      isCredentialShaped (wordOf behind) = false →
      Declines (before ++ (found ++ behind)) (wordOf behind) (behind.drop (wordOf behind).length)
  | later {before found behind word after : Text} :
      Earliest lower "bearer ".toList before found behind →
      Declines (behind.drop (wordOf behind).length) word after →
      Declines (before ++ (found ++ behind)) word after

end Cuts

end TinySweeper.Sentry
