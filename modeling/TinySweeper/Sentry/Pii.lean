import TinySweeper.Sentry.Fold

/-!
# Personal-data shapes

Four passes over free text: bearer tokens, email addresses, card-shaped digit runs
and long opaque tokens. Each works on what the pass before it left.
-/

namespace TinySweeper.Sentry

open Text

def EMAIL : Text := "[redacted-email]".toList
def BEARER : Text := "[redacted-token]".toList
def DIGITS : Text := "[redacted-number]".toList
def OPAQUE : Text := "[redacted-opaque]".toList

/-- Shortest and longest digit run treated as card-shaped, ignoring separators. -/
def CARD_MIN_DIGITS : ℕ := 13
def CARD_MAX_DIGITS : ℕ := 19

/-- Shortest run of token characters treated as an opaque secret. -/
def OPAQUE_MIN_LEN : ℕ := 32

/-- Shortest value behind the keyword treated as a credential rather than prose. -/
def BEARER_MIN_TOKEN_LEN : ℕ := 12

def isCredentialChar (c : Char) : Bool :=
  c.isAlphanum || ['_', '-', '.', '+', '/', '='].contains c

/-- Whether a word looks like a credential rather than an ordinary word. -/
def isCredentialShaped (token : Text) : Bool :=
  BEARER_MIN_TOKEN_LEN ≤ utf8Len token && token.all isCredentialChar

/-- The byte offset of the first such character. -/
def findChar (p : Char → Bool) : Text → Option ℕ
  | [] => none
  | c :: text => if p c then some 0 else (findChar p text).map (c.utf8Size + ·)

section Bearer

variable (lower : Lowercase) (text : Text)

/-- The scan from byte `cursor` on; nothing when an offset is no boundary, or the rounds run out. -/
def redactBearerFrom : (rounds : ℕ) → (cursor : ℕ) → (out : Text) → Option Text
  | 0, _, _ => none
  | rounds + 1, cursor, out => do
    let (_, rest) ← splitAtByte cursor text
    match findCi lower rest "bearer ".toList with
    | none => return out ++ rest
    | some (_, foundEnd) =>
      let tokenStart := cursor + foundEnd
      let (_, behind) ← splitAtByte tokenStart text
      let tokenEnd := ((findChar isWhitespace behind).map (tokenStart + ·)).getD (utf8Len text)
      let token ← byteSlice tokenStart tokenEnd text
      if isCredentialShaped token then
        let kept ← byteSlice cursor tokenStart text
        redactBearerFrom rounds tokenEnd (out ++ kept ++ BEARER)
      else
        -- prose is kept together with the word behind it, and the scan goes on after that word
        let kept ← byteSlice cursor tokenEnd text
        redactBearerFrom rounds tokenEnd (out ++ kept)

/-- Replace the token behind the keyword, not the keyword. -/
def redactBearer : Option Text := redactBearerFrom lower text (text.length + 1) 0 []

end Bearer

/-- Characters that end a token. -/
def isSeparator (c : Char) : Bool :=
  isWhitespace c || ['"', '\'', '\x60', '(', ')', '[', ']', '\x7b', '\x7d', ',', ';', '<', '>', '=',
    ':', '/'].contains c

section Tokens

variable (rule : Text → Option Text)

/-- A token as the rule rewrites it; there is none between two separators. -/
def pushToken (token : Text) : Text := if token = [] then [] else (rule token).getD token

/-- Rewrite the rest of a text, of whose pending token these characters have been seen. -/
def rewriteFrom : (token : Text) → Text → Text
  | token, [] => pushToken rule token
  | token, c :: text =>
    if isSeparator c then pushToken rule token ++ c :: rewriteFrom [] text
    else rewriteFrom (token ++ [c]) text

/-- Replace whole tokens and keep the separators. -/
def rewriteTokens (text : Text) : Text := rewriteFrom rule [] text

end Tokens

def isEmailChar (c : Char) : Bool := c.isAlphanum || ['.', '_', '-', '+', '%'].contains c

/-- A token containing `@` with a dot somewhere behind it. -/
def isEmail (token : Text) : Bool :=
  match splitOnce '@' token with
  | none => false
  | some (localPart, domain) =>
    (!localPart.isEmpty && localPart.all isEmailChar) &&
      (domain.contains '.' && domain.head? != some '.' && domain.getLast? != some '.' &&
        domain.all isEmailChar)

def redactEmails (text : Text) : Text :=
  rewriteTokens (fun token => if isEmail token then some EMAIL else none) text

def isHexDigit (c : Char) : Bool :=
  c.isDigit || ('a' ≤ c && c ≤ 'f') || ('A' ≤ c && c ≤ 'F')

def isOpaqueChar (c : Char) : Bool := c.isAlphanum || ['_', '-', '.'].contains c

/-- A long token of hexadecimal digits, or with both a letter and a digit. -/
def isOpaque (token : Text) : Bool :=
  if utf8Len token < OPAQUE_MIN_LEN then false
  else if !token.all isOpaqueChar then false
  else token.all isHexDigit || (token.any Char.isDigit && token.any Char.isAlpha)

def redactOpaqueTokens (text : Text) : Text :=
  rewriteTokens (fun token => if isOpaque token then some OPAQUE else none) text

/-- Whether a character continues an identifier. -/
def isTokenChar (c : Char) : Bool := c.isAlphanum || ['_', '.'].contains c

/-- Digits and single `-` or space separators between digits, and the text behind them. -/
def takeRun : Text → Text × Text
  | [] => ([], [])
  | c :: text =>
    if c.isDigit then (c :: (takeRun text).1, (takeRun text).2)
    else if (c = '-' || c = ' ') && text.head?.any Char.isDigit then
      (c :: (takeRun text).1, (takeRun text).2)
    else ([], c :: text)

/-- Whether a run between these two neighbours is redacted. -/
def isCard (prev : Option Char) (run : Text) (next : Option Char) : Bool :=
  let digits := run.countP Char.isDigit
  let boundedLeft := prev.all fun c => !isTokenChar c
  let boundedRight := next.all fun c => !isTokenChar c
  boundedLeft && boundedRight && (CARD_MIN_DIGITS ≤ digits && digits ≤ CARD_MAX_DIGITS)

/-- The scan behind this character, of whose run `skip` more characters are to be passed. -/
def redactDigitRunsFrom : (prev : Option Char) → (skip : ℕ) → Text → Text
  | _, _, [] => []
  | _, skip + 1, c :: text => redactDigitRunsFrom (some c) skip text
  | prev, 0, c :: text =>
    if c.isDigit then
      let (run, after) := takeRun (c :: text)
      (if isCard prev run after.head? then DIGITS else run) ++
        redactDigitRunsFrom (some c) (run.length - 1) text
    else c :: redactDigitRunsFrom (some c) 0 text

/-- Replace runs of 13 to 19 digits that are no part of a longer identifier. -/
def redactDigitRuns (text : Text) : Text := redactDigitRunsFrom none 0 text

/-- Redact personal-data shapes from a text. -/
def redact (lower : Lowercase) (text : Text) : Option Text := do
  let stage ← redactBearer lower text
  let stage := redactEmails stage
  let stage := redactDigitRuns stage
  return redactOpaqueTokens stage

end TinySweeper.Sentry
