import TinySweeper.Bytes
import TinySweeper.Evidence.Diff

/-!
# Composing the retrieval query

A title, paths, headings and identifiers of a diff under a budget of bytes. What does
not fit is sampled across its whole list. `none` is a panic.
-/

namespace TinySweeper.Retrieve

open Text Evidence

/-- Shares of the budget in percent. -/
def TITLE_SHARE : ℕ := 5

def PATH_SHARE : ℕ := 20

def HEADING_SHARE : ℕ := 20

def MIN_IDENTIFIER : ℕ := 3

def STOPWORDS : List String :=
  ["and", "are", "as", "async", "await", "bool", "break", "case", "catch", "char", "class",
    "const", "continue", "def", "default", "else", "enum", "err", "error", "export", "extern",
    "false", "final", "float", "fmt", "fn", "for", "from", "func", "function", "get", "self",
    "if", "impl", "import", "in", "int", "interface", "is", "let", "map", "match", "mod", "move",
    "mut", "new", "next", "nil", "none", "not", "null", "num", "of", "or", "package", "pass",
    "priv", "pub", "public", "ref", "return", "set", "some", "static", "str", "string", "struct",
    "super", "switch", "the", "this", "throw", "to", "trait", "true", "try", "type", "use",
    "using", "val", "var", "void", "where", "while", "with", "yield"]

def isMeaningful (token : Text) : Bool :=
  if utf8Len token < MIN_IDENTIFIER then false
  else if token.all Char.isDigit then false
  else !STOPWORDS.any fun word => word.toList = token

/-- A subtraction of machine integers. -/
def checkedSub (a b : ℕ) : Option ℕ := if b ≤ a then some (a - b) else none

/-- The bytes of an entry and of the separator behind it. -/
def width (item : Text) : ℕ := utf8Len item + 1

def widths (items : List Text) : ℕ := (items.map width).sum

/-- The entry a slot stands for when this many of the entries have room. -/
def slotIndex (room count slot : ℕ) : ℕ :=
  -- Lists stay below 2 ^ 32 entries, so that the product is one of 64 bits.
  if room ≥ count then slot else slot * (count - 1) / max (room - 1) 1

structure Sample where
  picked : List Text
  used : ℕ
  deriving DecidableEq, Repr

/-- The slots in turn, up to the first entry that does not fit. -/
def pickSlots (items : List Text) (budget room : ℕ) : List ℕ → Sample → Option Sample
  | [], s => some s
  | slot :: rest, s =>
    match items[slotIndex room items.length slot]? with
    | none => none
    | some item =>
      if s.picked.getLast? = some item then pickSlots items budget room rest s
      else if s.used + utf8Len item + 1 > budget then some s
      else pickSlots items budget room rest ⟨s.picked ++ [item], s.used + (utf8Len item + 1)⟩

/-- The latest picks, given first, go until an entry of this width fits or one pick is left. -/
def makeRoom (budget needed : ℕ) : List Text → ℕ → Option Sample
  | removed :: next :: earlier, used =>
    if used + needed > budget then
      (checkedSub used (utf8Len removed + 1)).bind (makeRoom budget needed (next :: earlier))
    else some ⟨(removed :: next :: earlier).reverse, used⟩
  | few, used => some ⟨few.reverse, used⟩

/-- The last entry, unless it was picked, displaces earlier ones. -/
def keepLast (items : List Text) (budget : ℕ) (s : Sample) : Option (List Text) :=
  match items.getLast? with
  | none => some s.picked
  | some last =>
    if last ∈ s.picked then some s.picked
    else (makeRoom budget (utf8Len last + 1) s.picked.reverse s.used).map fun s =>
      if s.used + utf8Len last < budget then s.picked ++ [last] else s.picked

/-- As much as fits, spread across the whole list. -/
def sampleInto (items : List Text) (budget : ℕ) : Option (List Text) :=
  if budget = 0 ∨ items = [] then some []
  else
    let total := (items.map fun item => utf8Len item + 1).sum
    if total ≤ budget then some items
    else
      let average := max ((total + items.length - 1) / items.length) 1
      let room := max (budget / average) 1
      (pickSlots items budget room (List.range (min room items.length)) ⟨[], 0⟩).bind
        (keepLast items budget)

section Query

variable (isAlphanumeric : Char → Bool)

def tokenise (text : Text) : List Text :=
  (((text.splitOnP fun c => !isAlphanumeric c && c ≠ '_').filter fun token =>
    !token.isEmpty).map toAsciiLowercase).filter isMeaningful

/-- A token, how often it occurs, and where first. -/
structure Ranked where
  token : Text
  count : ℕ
  first : ℕ
  deriving DecidableEq, Repr

/-- One more occurrence; places are counted in tokens. -/
def countToken (state : List Ranked × ℕ) (token : Text) : List Ranked × ℕ :=
  let (counts, seen) := state
  if counts.any fun entry => entry.token = token then
    (counts.map fun entry =>
      if entry.token = token then { entry with count := entry.count + 1 } else entry, seen + 1)
  else (counts ++ [⟨token, 1, seen⟩], seen + 1)

def movedTokens (diffs : List FileDiff) : List Text :=
  diffs.flatMap fun diff => diff.hunks.flatMap fun hunk => hunk.lines.flatMap fun line =>
    if line.kind = .added ∨ line.kind = .removed then tokenise isAlphanumeric line.text else []

/-- The most frequent first, of one count the first to appear; no two appear at one place. -/
def rankedIdentifiers (diffs : List FileDiff) : List Ranked :=
  (((movedTokens isAlphanumeric diffs).foldl countToken ([], 0)).1).mergeSort fun a b =>
    a.count > b.count || (a.count = b.count && a.first ≤ b.first)

/-- The tokens of each count. -/
def bands (diffs : List FileDiff) : List (List Text) :=
  ((rankedIdentifiers isAlphanumeric diffs).splitBy fun a b => a.count = b.count).map fun band =>
    band.map Ranked.token

/-- Whole bands while they fit; the first that does not is sampled. -/
def takeBands (remaining : ℕ) : List (List Text) → Sample → Option (List Text)
  | [], s => some s.picked
  | tokens :: rest, s =>
    let wide := (tokens.map fun token => utf8Len token + 1).sum
    if s.used + wide ≤ remaining then takeBands remaining rest ⟨s.picked ++ tokens, s.used + wide⟩
    else
      (checkedSub remaining s.used).bind fun left =>
        (sampleInto tokens left).map (s.picked ++ ·)

/-- Headings in diff order, each once. -/
def headings (diffs : List FileDiff) : List Text :=
  (diffs.flatMap fun diff => diff.hunks.map fun hunk => trim hunk.heading).foldl
    (fun seen heading =>
      if heading ≠ [] ∧ heading ∉ seen then seen ++ [heading] else seen) []

/-- A share of the budget, in the arithmetic of 64 bits. -/
def share (budget percent : ℕ) : ℕ := budget * percent % 2 ^ 64 / 100

/-- What each section says, and what is left for the identifiers. -/
structure Sections where
  title : Option Text
  paths : List Text
  headings : List Text
  remaining : ℕ
  identifiers : List Text
  deriving DecidableEq, Repr

def titleSection (title : Text) (budget : ℕ) : Option Text :=
  if trim title = [] then none
  else some ((trim title).take (max (share budget TITLE_SHARE) 1))

/-- The text of a list, unless nothing of it was picked. -/
def listSection (picked : List Text) : Option Text :=
  if picked = [] then none else some ([' '].intercalate picked)

/-- What a section and the separator behind it take. -/
def spentOn (text : Option Text) : ℕ := (text.map width).getD 0

def sections (title : Text) (diffs : List FileDiff) (budget : ℕ) : Option Sections := do
  let title := titleSection title budget
  let paths ← sampleInto (diffs.map FileDiff.path) (share budget PATH_SHARE)
  let headings ← sampleInto (headings diffs) (share budget HEADING_SHARE)
  let spent := spentOn title + spentOn (listSection paths) + spentOn (listSection headings)
  let remaining := budget - spent
  let identifiers ← takeBands remaining (bands isAlphanumeric diffs) ⟨[], 0⟩
  return { title, paths, headings, remaining, identifiers }

def Sections.texts (s : Sections) : List Text :=
  s.title.toList ++ (listSection s.paths).toList ++ (listSection s.headings).toList ++
    (listSection s.identifiers).toList

def Sections.joined (s : Sections) : Text := ['\n'].intercalate s.texts

/-- Cut at the last boundary of a character within the budget. -/
def truncateTo (budget : ℕ) (query : Text) : Option Text :=
  if utf8Len query > budget then
    let cut := ((List.range (budget + 1)).reverse.find? fun index =>
      (splitAtByte index query).isSome).getD 0
    (splitAtByte cut query).map Prod.fst
  else some query

def buildRetrievalQuery (title : Text) (diffs : List FileDiff) (budget : ℕ) : Option Text :=
  if budget = 0 then some []
  else (sections isAlphanumeric title diffs budget).bind fun s => truncateTo budget s.joined

end Query

end TinySweeper.Retrieve
