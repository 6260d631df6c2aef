import TinySweeper.Nested
import TinySweeper.Text

/-!
# The reviewed repository's own config

What of a repository's document may be laid over the operator's configuration.
The document is filtered by dotted keys and merged as tables; the provenance the
merge records feeds only a warning and is left out here.
-/

namespace TinySweeper.Remote

open Text Nested

/-- Dotted keys a reviewed repository may set. A `*` matches one segment. -/
def OVERRIDABLE_KEYS : List Text :=
  ["knowledge.extract", "knowledge.files", "labels.human_review", "labels.manual_only",
    "lanes.*.fail_on", "lanes.e2e.missing_harness", "lanes.e2e.paths", "lanes.e2e.workflows",
    "paths.ignore", "preview.enabled", "preview.max_flows", "review.confidence_min",
    "review.draft_prs", "review.incremental", "review.lanes", "review.max_comments",
    "review.note_confidence", "review.respect_agents_md", "review.severity_gate",
    "review.strictness", "summary.enabled", "summary.history_entries", "summary.max_features",
    "summary.max_tests", "summary.sections", "wireframe.enabled",
    "wireframe.max_screens"].map String.toList

def segmentsMatch : List Text → List Text → Bool
  | [], [] => true
  | expected :: pattern, actual :: key =>
    (expected = ['*'] || expected = actual) && segmentsMatch pattern key
  | _, _ => false

def patternMatches (pattern key : Text) : Bool :=
  segmentsMatch (pattern.splitOn '.') (key.splitOn '.')

def overridable (key : Text) : Bool := OVERRIDABLE_KEYS.any fun pattern => patternMatches pattern key

def joined (parent key : Text) : Text := if parent.isEmpty then key else parent ++ '.' :: key

section Filter

variable {σ : Type}

/-- Keep what may be applied; what may not is ignored under its dotted key. -/
def filterInto (parent : Text) : Table Text σ → Table Text σ → List Text →
    Table Text σ × List Text
  | .nil, kept, ignored => (kept, ignored)
  | .leaf key value rest, kept, ignored =>
    if overridable (joined parent key) then
      filterInto parent rest (kept.insert key (.inl value)) ignored
    else filterInto parent rest kept (ignored ++ [joined parent key])
  | .table key inner rest, kept, ignored =>
    -- A table is a namespace, never a leaf.
    let found := filterInto (joined parent key) inner .nil ignored
    if found.1.isEmpty then filterInto parent rest kept found.2
    else filterInto parent rest (kept.insert key (.inr found.1)) found.2

def filter (table : Table Text σ) : Table Text σ × List Text :=
  let found := filterInto [] table .nil []
  (found.1, found.2.insertionSort (· ≤ ·))

end Filter

structure Preview where
  enabled : Bool
  maxFlows : ℕ
  deriving DecidableEq

structure Summary where
  enabled : Bool
  maxFeatures : ℕ
  maxTests : ℕ
  historyEntries : ℕ
  deriving DecidableEq

structure Wireframe where
  enabled : Bool
  maxScreens : ℕ
  deriving DecidableEq

/-- A configuration: the sections that can only be made smaller, and the rest. -/
structure Config (ρ : Type) where
  preview : Preview
  summary : Summary
  wireframe : Wireframe
  rest : ρ
  deriving DecidableEq

/-- A table as a TOML parser yields it. -/
structure Document (σ : Type) where
  table : Table Text σ
  unique : table.Unique

/-- How configurations are written, read and checked. -/
structure Format (σ ρ : Type) where
  parse : Text → Except Text (Document σ)
  write : Config ρ → Except Text (Table Text σ)
  read : Table Text σ → Except Text (Config ρ)
  validate : Config ρ → List Text

variable {σ ρ : Type}

/-- What the repository asked for, within what the operator allows. -/
def clamped (base config : Config ρ) : Config ρ where
  preview := ⟨config.preview.enabled && base.preview.enabled,
    min config.preview.maxFlows base.preview.maxFlows⟩
  summary := ⟨config.summary.enabled && base.summary.enabled,
    min config.summary.maxFeatures base.summary.maxFeatures,
    min config.summary.maxTests base.summary.maxTests,
    min config.summary.historyEntries base.summary.historyEntries⟩
  wireframe := ⟨config.wireframe.enabled && base.wireframe.enabled,
    min config.wireframe.maxScreens base.wireframe.maxScreens⟩
  rest := config.rest

/-- Layer a document over the operator's configuration. -/
def apply (format : Format σ ρ) (base : Config ρ) (document : Text) :
    Except Text (Config ρ × List Text) := do
  let table ← (format.parse document).mapError fun err =>
    "the repository's config is not valid TOML: ".toList ++ err
  let (allowed, ignored) := filter table.table
  let merged ← (format.write base).mapError fun err =>
    "the effective configuration is not representable: ".toList ++ err
  let config ← (format.read (merged.merge allowed)).mapError fun err =>
    "the merged configuration is not valid: ".toList ++ err
  let config := clamped base config
  let problems := format.validate config
  if problems.isEmpty then return (config, ignored)
  else throw ("the repository's config is not usable:\n".toList ++
    ['\n'].intercalate (problems.map fun problem => "  - ".toList ++ problem))

end TinySweeper.Remote
