import TinySweeper.Scan.Assignments

/-!
# The secret scanner

Added lines are scanned for private-key armour, for tokens of the rulepack and
for high-entropy assignments. A finding names a line and never carries the value.
-/

namespace TinySweeper.Scan

open Text

inductive Severity where
  | low
  | medium
  | high
  | critical
  deriving DecidableEq, Repr

inductive ScanKind where
  | secret
  | blob
  | junk
  | workflow
  | dependency
  deriving DecidableEq, Repr

/-- One thing a scanner found. -/
structure Finding where
  kind : ScanKind
  severity : Severity
  path : Text
  line : Option ℕ := none
  rule : String
  title : Text
  detail : String
  redactedHint : Option Text := none
  deriving DecidableEq, Repr

/-- The separators between candidate tokens; `=` and `:` are among them. -/
def isTokenSeparator (c : Char) : Bool :=
  isWhitespace c || ['"', '\'', '\x60', '(', ')', '[', ']', '\x7b', '\x7d', ',', ';', '<', '>', '=',
    ':'].contains c

def tokenize (text : Text) : List Text :=
  (text.splitOnP isTokenSeparator).filter fun token => !token.isEmpty

def matchRule (token : Text) : Option Rule :=
  RULES.find? fun rule =>
    rule.vendorPrefix.isPrefixOf token && utf8Len token ≥ rule.minLen &&
      (!rule.alnumBody || (token.drop rule.vendorPrefix.length).all isTokenChar)

/-- Paths whose contents are expected to contain credential-shaped strings. -/
def EXPECTED_PATHS : List Text :=
  [".env.example".toList, ".env.sample".toList, ".env.template".toList, "example.env".toList]

def isExpectedPath (path : Text) : Bool :=
  EXPECTED_PATHS.any (·.isSuffixOf (toAsciiLowercase path))

/-- The tokens of a line the rulepack reports; a placeholder in an example file is exempt. -/
def flaggedTokens (path text : Text) : List (Rule × Text) :=
  (tokenize text).filterMap fun token =>
    (matchRule token).bind fun rule =>
      if isExpectedPath path && looksLikePlaceholder token then none else some (rule, token)

section Scanning

variable (highEntropy : Text → Bool)

/-- Name and value of the assignment the entropy heuristic reports. -/
def flaggedAssignment (text : Text) : Option (Text × Text) :=
  if utf8Len text > MAX_HEURISTIC_LINE then none
  else
    match secretAssignment text with
    | some (name, value) =>
      if isHighEntropyValue highEntropy value.body then some (name, value.body) else none
    | none => none

/-- The values a line is flagged for. -/
def flaggedValues (path text : Text) : List Text :=
  (flaggedTokens path text).map Prod.snd ++ (flaggedAssignment highEntropy text).toList.map Prod.snd

def privateKeyFinding (path : Text) (lineNo : ℕ) (label : String) : Finding :=
  { kind := .secret, severity := .critical, path, line := some lineNo, rule := "private-key",
    title := "Remove the committed private key (".toList ++ label.toList ++ ")".toList,
    detail := "Rotate the key, remove it from the working tree, and purge it from history — " ++
      "a force-push alone does not remove it from forks or from anyone who already fetched." }

def tokenFinding (path : Text) (lineNo : ℕ) (rule : Rule) (token : Text) : Finding :=
  { kind := .secret, severity := .critical, path, line := some lineNo, rule := rule.id,
    title := "Remove the committed credential (".toList ++ rule.label.toList ++ ")".toList,
    detail := "Rotate the credential first, then remove it from the working tree and purge it " ++
      "from history. Treat it as compromised: it is in the push, whatever happens next.",
    redactedHint := some (redact token) }

def assignmentFinding (path : Text) (lineNo : ℕ) (name value : Text) : Finding :=
  { kind := .secret, severity := .high, path, line := some lineNo,
    rule := "high-entropy-assignment",
    title := ['\x60'] ++ name ++ ['\x60'] ++ " is assigned a high-entropy literal".toList,
    detail := "This looks like a credential rather than a constant. If it is one, rotate it and " ++
      "read it from the environment instead. If it is not — a hash, a fixture, a test vector " ++
      "— say so and this will be suppressed.",
    redactedHint := some (redact value) }

def scanLine (path : Text) (lineNo : ℕ) (text : Text) : List Finding :=
  ((PEM_MARKERS.filter fun entry => contains text entry.1).map fun entry =>
      privateKeyFinding path lineNo entry.2) ++
    ((flaggedTokens path text).map fun found => tokenFinding path lineNo found.1 found.2) ++
    ((flaggedAssignment highEntropy text).toList.map fun found =>
      assignmentFinding path lineNo found.1 found.2)

/-- Scan the added lines of one file. -/
def scanAddedLines (path : Text) (added : List (ℕ × Text)) : List Finding :=
  added.flatMap fun entry => scanLine highEntropy path entry.1 entry.2

end Scanning

theorem mem_tokenize {text token : Text} (h : token ∈ tokenize text) : token <:+: text :=
  (splitOnP_pieces isTokenSeparator text).2 token (List.mem_filter.mp h).1

theorem credential_of_matchRule {token : Text} {rule : Rule} (h : matchRule token = some rule) :
    Credential token := by
  have hmatch := List.find?_some h
  have hrule := List.mem_of_find?_eq_some h
  obtain ⟨-, -, -, halnum, htoken, -⟩ := rules_named rule hrule
  simp only [Bool.and_eq_true, Bool.or_eq_true, Bool.not_eq_true', decide_eq_true_eq, halnum,
    Bool.true_eq_false, false_or, List.all_eq_true, List.isPrefixOf_iff_prefix] at hmatch
  obtain ⟨⟨hstarts, hlong⟩, hrest⟩ := hmatch
  have hbody : ∀ c ∈ token, isTokenChar c = true := by
    intro c hc
    obtain ⟨rest, rfl⟩ := hstarts
    rw [List.drop_left] at hrest
    rcases List.mem_append.mp hc with hc | hc
    · exact htoken c hc
    · exact hrest c hc
  refine ⟨⟨rule, hrule, hstarts, ?_⟩, hbody⟩
  rw [utf8Len_of_isOpaqueChar fun c hc => isOpaqueChar_of_isTokenChar (hbody c hc)] at hlong
  exact hlong

theorem mem_flaggedTokens {path text token : Text} {rule : Rule}
    (h : (rule, token) ∈ flaggedTokens path text) : Credential token ∧ token <:+: text := by
  obtain ⟨found, hfound, hsome⟩ := List.mem_filterMap.mp h
  obtain ⟨matched, hmatch, hkeep⟩ := Option.bind_eq_some_iff.mp hsome
  split_ifs at hkeep
  obtain ⟨rfl, rfl⟩ := Prod.mk.inj (Option.some.inj hkeep)
  exact ⟨credential_of_matchRule hmatch, mem_tokenize hfound⟩

section Scanning

variable {highEntropy : Text → Bool} {path text : Text}

theorem flaggedAssignment_eq_some_iff {name value : Text} :
    flaggedAssignment highEntropy text = some (name, value) ↔
      utf8Len text ≤ MAX_HEURISTIC_LINE ∧ ∃ slice,
        secretAssignment text = some (name, slice) ∧ slice.body = value ∧
          isHighEntropyValue highEntropy value = true := by
  unfold flaggedAssignment
  constructor
  · intro h
    split_ifs at h with hlong
    split at h
    · rename_i found slice hassign
      split_ifs at h with hentropy
      obtain ⟨rfl, rfl⟩ := Prod.mk.inj (Option.some.inj h)
      exact ⟨not_lt.mp hlong, slice, hassign, rfl, hentropy⟩
    · cases h
  · rintro ⟨hshort, slice, hassign, rfl, hentropy⟩
    rw [if_neg (not_lt.mpr hshort), hassign]
    exact if_pos hentropy

end Scanning

end TinySweeper.Scan
