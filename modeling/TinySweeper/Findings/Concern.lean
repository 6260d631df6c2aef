import TinySweeper.Delimited
import TinySweeper.Findings.Finding

/-!
# Concerns

Whether two findings raise one concern, however they are worded: they stand in
the same place and their word sets overlap far enough. Both readings of a pair
agree.
-/

namespace TinySweeper.Findings

open Text Evidence

/-- Words that carry no concern. -/
def stopwords : List Text :=
  ["a", "about", "add", "after", "again", "all", "also", "amp", "an", "and", "any", "are", "as",
    "at", "avoid", "be", "been", "before", "being", "both", "but", "by", "can", "could", "did",
    "do", "does", "doing", "don", "done", "each", "eg", "ensure", "every", "few", "for", "from",
    "further", "gt", "had", "has", "have", "having", "he", "her", "here", "how", "ie", "if", "in",
    "instead", "into", "is", "it", "its", "just", "keep", "let", "lets", "lt", "make", "makes",
    "may", "me", "might", "more", "most", "must", "my", "nor", "not", "no", "of", "off", "on",
    "once", "only", "onto", "or", "other", "our", "out", "over", "own", "per", "quot", "rather",
    "same", "shall", "she", "should", "so", "some", "such", "than", "that", "the", "their", "them",
    "then", "there", "these", "they", "this", "those", "to", "too", "under", "up", "us", "use",
    "uses", "using", "very", "via", "was", "we", "were", "what", "when", "where", "which", "while",
    "who", "whom", "whose", "why", "will", "with", "would", "you", "your"].map String.toList

/-- Suffixes stripped from a word, longest first within each family. -/
def suffixes : List Text :=
  ["izations", "ization", "ations", "ation", "ities", "ity", "ments", "ment", "ness", "ingly",
    "ings", "ing", "edly", "ed", "ies", "es", "s", "ly", "istic", "ism", "ic", "ate", "ive", "al",
    "e"].map String.toList

/-- Suffixes that may leave three letters; the others leave four. -/
def inflections : List Text :=
  ["s", "es", "ies", "ed", "edly", "ing", "ings", "ingly", "ly", "e"].map String.toList

/-- Suffixes after which a doubled consonant is halved. -/
def doubling : List Text := ["ing", "ings", "ingly", "ed", "edly"].map String.toList

def strippable (word suffix : Text) : Bool :=
  decide (word.length ≥ suffix.length + if suffix ∈ inflections then 3 else 4) &&
    suffix.isSuffixOf word &&
    -- `class`, `status`, `analysis` are not plurals.
    !(suffix = ['s'] && (["ss", "us", "is"].any fun ending => ending.toList.isSuffixOf word))

def halveDouble (word : Text) : Text :=
  match word.reverse with
  | b :: a :: _ => if a = b && !("aeiouylsz".toList.contains b) then word.dropLast else word
  | _ => word

/-- One pass of suffix stripping. -/
def stemPass (word : Text) : Option Text :=
  (suffixes.find? (strippable word)).map fun suffix =>
    let bare := word.take (word.length - suffix.length)
    let bare := if suffix = "ies".toList then bare ++ ['y'] else bare
    if suffix ∈ doubling then halveDouble bare else bare

def stemPasses : ℕ → Text → Text
  | 0, word => word
  | n + 1, word =>
    match stemPass word with
    | none => word
    | some shorter => stemPasses n shorter

/-- Light suffix stripping: up to three passes. -/
def stem (word : Text) : Text := stemPasses 3 (toAsciiLowercase word)

def allDigits (word : Text) : Bool := word.all Char.isDigit

/-- The pieces of a text between what is not an ASCII letter or digit. -/
def pieces (text : Text) : List Text := text.splitOnP fun c => !c.isAlphanum

/-- Lowercase ASCII words, without stopwords or bare numbers. -/
def words (text : Text) : List Text :=
  (((pieces text).filter fun word => decide (word.length ≥ 2) && !allDigits word).map
    toAsciiLowercase).filter fun word => !stopwords.contains word

/-- Words used interchangeably for one request, after stemming. -/
def synonyms : List (Text × Text) :=
  [("exercis", "test"), ("cover", "test"), ("coverag", "test")].map fun pair =>
    (pair.1.toList, pair.2.toList)

def canonical (word : Text) : Text := (synonyms.lookup word).getD word

/-- The normalised words of a text. -/
def tokens (text : Text) : Finset Text :=
  ((words text).map fun word => canonical (stem word)).toFinset

/-- Rule words that name a category of problem rather than a problem. -/
def genericRuleWords : List Text :=
  ["behavior", "behaviour", "bound", "bug", "case", "check", "code", "contract", "correctness",
    "coverage", "e2e", "edge", "error", "handling", "incorrect", "invalid", "issue", "limit",
    "logic", "missing", "possible", "potential", "quality", "regression", "rule", "risk", "safety",
    "security", "style", "test", "unchecked", "violation", "wrong"].map String.toList

/-- `unbounded` and `bounded` are one idea. -/
def withoutNegation (word : Text) : Text :=
  let rests := ["non", "un"].filterMap fun negation => stripPrefix negation.toList word
  (rests.find? fun rest => decide (rest.length ≥ 4)).getD word

/-- The distinctive words of a rule name. -/
def ruleTokens (rule : Text) : Finset Text :=
  (((words rule).map fun word => stem (withoutNegation word)).filter fun word =>
    !(genericRuleWords.map stem).contains word).toFinset

/-- The numbers a title names. -/
def numbers (title : Text) : Finset Text :=
  ((pieces title).filter fun word => !word.isEmpty && allDigits word).toFinset

/-- Explicit negation, considered apart from the verb's direction. -/
def negators : List Text :=
  ["not", "no", "nor", "never", "neither", "cannot"].map String.toList

/-- Verbs requesting removal, prevention or rejection. -/
def negativeImperatives : List Text :=
  ["avoid", "avoids", "avoiding", "reject", "rejects", "forbid", "forbids", "disable", "disables",
    "remove", "removes", "deny", "denies", "block", "blocks", "prevent", "prevents", "ban", "bans",
    "skip", "skips", "drop", "drops", "refuse", "refuses", "stop", "stops"].map String.toList

def apostrophe : Char := Char.ofNat 39

/-- Whether a title asks for the opposite of its words. -/
def negates (title : Text) : Bool :=
  let lower := (toAsciiLowercase title).map fun c => if c.toNat = 0x2019 then apostrophe else c
  let read := lower.splitOnP fun c => !c.isAlphanum && c != apostrophe
  let explicit := read.any fun word => ['n', apostrophe, 't'].isSuffixOf word ||
    negators.contains word
  let imperative := read.any negativeImperatives.contains
  explicit ^^ imperative

/-- A quotient of counts, zero over zero being zero. -/
structure Share where
  part : ℕ
  whole : ℕ

/-- Comparison with a bar in percent. -/
def Share.reaches (share : Share) (percent : ℕ) : Bool :=
  decide (0 < share.whole) && decide (percent * share.whole ≤ 100 * share.part)

/-- Size of the intersection over size of the union. -/
def jaccard (left right : Finset Text) : Share := ⟨(left ∩ right).card, (left ∪ right).card⟩

/-- A title wholly contained in the other counts as identical. -/
def titleSimilarity (left right : Finset Text) : Share :=
  if 3 ≤ min left.card right.card ∧ (left ⊆ right ∨ right ⊆ left) then ⟨1, 1⟩
  else jaccard left right

/-- How similar two findings must be, in percent. -/
structure Bar where
  title : ℕ
  text : ℕ
  withRule : Option ℕ

def NEARBY : Bar := ⟨50, 30, some 25⟩

def SAME_FILE : Bar := ⟨75, 45, none⟩

def SAME_WORDING : ℕ := 50

def NEAR_LINES : ℕ := 30

/-- Directory and file name. -/
def splitPath (path : Text) : Text × Text := (rsplitOnce '/' path).getD ([], path)

/-- The file name without its extension or test marker, and whether it had one. -/
def testStem (file : Text) : Text × Bool :=
  match [".test", ".spec"].findSome? fun suffix => stripSuffix suffix.toList file with
  | some bare => (bare, true)
  | none =>
    let base := ((rsplitOnce '.' file).map Prod.fst).getD file
    let marked := [".test", ".spec", "_tests", "_test", "_spec", "-test", "-spec"].findSome?
      fun suffix => stripSuffix suffix.toList base
    let bare := marked.getD base
    match stripPrefix "test_".toList bare with
    | some rest => (rest, true)
    | none => (bare, marked.isSome)

/-- Directory components that hold tests or sources next to each other. -/
def sideDirs : List Text := ["tests", "test", "__tests__", "spec", "src"].map String.toList

def isTestDir (dir : Text) : Bool :=
  (dir.splitOn '/').any
    (["tests", "test", "__tests__", "spec"].map String.toList).contains

/-- The directory a file and its tests share. -/
def home (dir : Text) : Text :=
  let parts := (rsplitOnce '/' dir).getD ([], dir)
  if sideDirs.contains parts.2 then parts.1 else dir

/-- Whether two paths are a file and its own tests. -/
def siblings (left right : Text) : Bool :=
  let leftParts := splitPath left
  let rightParts := splitPath right
  let leftStem := testStem leftParts.2
  let rightStem := testStem rightParts.2
  let leftTest := leftStem.2 || isTestDir leftParts.1
  let rightTest := rightStem.2 || isTestDir rightParts.1
  left != right && !leftStem.1.isEmpty && leftStem.1 == rightStem.1 && (leftTest || rightTest) &&
    home leftParts.1 == home rightParts.1

/-- Lines strictly between two inclusive ranges. -/
def gap (left right : ℕ × ℕ) : ℕ := max (right.1 - left.2) (left.1 - right.2) - 1

inductive Placement where
  | nearby
  | sameFile
  | unrelated
  deriving DecidableEq, Repr

/-- One finding, reduced to what concern identity compares. -/
structure Concern where
  path : Text
  range : Option (ℕ × ℕ)
  title : Finset Text
  text : Finset Text
  rule : Finset Text
  negated : Bool
  numbers : Finset Text

namespace Concern

/-- The concern a finding raises, placed where its comment is published. -/
def of {κ : Type} (f : Finding κ) : Concern where
  path := f.path
  range := f.publishedRange
  title := tokens f.title
  text := tokens f.body ∪ tokens f.title
  rule := ruleTokens f.rule
  negated := negates f.title
  numbers := Findings.numbers f.title

def placement (left right : Concern) : Placement :=
  if left.path = right.path then
    match left.range, right.range with
    | some l, some r => if gap l r ≤ NEAR_LINES then .nearby else .sameFile
    | _, _ => .sameFile
  else if siblings left.path right.path then .sameFile
  else .unrelated

def clears (left right : Concern) (bar : Bar) : Bool :=
  if left.numbers ≠ ∅ ∧ right.numbers ≠ ∅ ∧ left.numbers ≠ right.numbers then false
  else
    let title := titleSimilarity left.title right.title
    -- Opposite guidance is never a repeat, whatever else matches.
    if left.negated ≠ right.negated ∧ title.reaches SAME_WORDING then false
    else
      let text := jaccard left.text right.text
      if title.reaches bar.title || text.reaches bar.text then true
      else
        bar.withRule.any fun floor =>
          decide (¬ Disjoint left.rule right.rule) && (title.reaches floor || text.reaches floor)

/-- Whether one concern repeats the other. -/
def sameAs (left right : Concern) : Bool :=
  match left.placement right with
  | .nearby => left.clears right NEARBY
  | .sameFile => left.clears right SAME_FILE
  | .unrelated => false

end Concern

theorem jaccard_comm (left right : Finset Text) : jaccard left right = jaccard right left := by
  rw [jaccard, jaccard, Finset.inter_comm, Finset.union_comm]

theorem titleSimilarity_comm (left right : Finset Text) :
    titleSimilarity left right = titleSimilarity right left := by
  unfold titleSimilarity
  rw [jaccard_comm left right, min_comm]
  simp only [or_comm]

theorem siblings_symm {left right : Text} (h : siblings left right = true) :
    siblings right left = true := by
  simp only [siblings, Bool.and_eq_true, bne_iff_ne, beq_iff_eq, Bool.not_eq_true',
    Bool.or_eq_true] at h ⊢
  obtain ⟨⟨⟨⟨hne, hnamed⟩, hstem⟩, htest⟩, hhome⟩ := h
  exact ⟨⟨⟨⟨hne.symm, hstem ▸ hnamed⟩, hstem.symm⟩, htest.symm⟩, hhome.symm⟩

theorem siblings_comm (left right : Text) : siblings left right = siblings right left :=
  Bool.eq_iff_iff.mpr ⟨siblings_symm, siblings_symm⟩

example : siblings "pkg/util.py".toList "pkg/tests/test_util.py".toList = true := by
  decide +kernel

theorem gap_comm (left right : ℕ × ℕ) : gap left right = gap right left := by
  rw [gap, gap, max_comm]

namespace Concern

theorem placement_comm (left right : Concern) : left.placement right = right.placement left := by
  unfold placement
  by_cases hpath : left.path = right.path
  · rw [if_pos hpath, if_pos hpath.symm]
    cases left.range with
    | none => cases right.range <;> rfl
    | some l =>
      cases right.range with
      | none => rfl
      | some r => simp only [gap_comm l r]
  · rw [if_neg hpath, if_neg (Ne.symm hpath), siblings_comm]

theorem clears_comm (left right : Concern) (bar : Bar) :
    left.clears right bar = right.clears left bar := by
  have hnumbers : (left.numbers ≠ ∅ ∧ right.numbers ≠ ∅ ∧ left.numbers ≠ right.numbers) ↔
      (right.numbers ≠ ∅ ∧ left.numbers ≠ ∅ ∧ right.numbers ≠ left.numbers) := by
    rw [and_left_comm, ne_comm (a := left.numbers) (b := right.numbers)]
  unfold clears
  dsimp only
  simp only [hnumbers, titleSimilarity_comm left.title right.title,
    jaccard_comm left.text right.text, disjoint_comm (a := left.rule) (b := right.rule),
    ne_comm (a := left.negated) (b := right.negated)]

/-- One concern in different words is so from either side. -/
theorem sameAs_comm (left right : Concern) : left.sameAs right = right.sameAs left := by
  rw [sameAs, sameAs, placement_comm, clears_comm _ _ NEARBY, clears_comm _ _ SAME_FILE]

end Concern

end TinySweeper.Findings
