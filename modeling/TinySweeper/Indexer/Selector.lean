import Mathlib.Data.List.Basic
import TinySweeper.Indexer.Types

/-!
# What is indexed

A file is selected by its path and its size: no pattern of the policy matches it, its extension
is on the list, and it is neither empty nor too large.
-/

namespace TinySweeper.Index

open Text

inductive Language where
  | rust
  | typeScript
  | tsx
  | javaScript
  | python
  | go
  | java
  | ruby
  deriving DecidableEq, Repr

/-- The last name of a path. -/
def fileName (path : Text) : Option Text :=
  ((path.splitOn '/').filter fun name => name ≠ [] && name ≠ ['.']).getLast?.filter
    (· ≠ "..".toList)

/-- What follows the last dot of a path's last name, if something stands before that dot. -/
def extension (path : Text) : Text :=
  match (fileName path).bind (rsplitOnce '.') with
  | some (_ :: _, after) => toAsciiLowercase after
  | _ => []

namespace Language

/-- The language of a path that has a grammar. -/
def fromPath (path : Text) : Option Language :=
  (grammars.find? fun grammar => (grammar.1.map String.toList).contains (extension path)).map
    Prod.snd
where
  grammars : List (List String × Language) :=
    [(["rs"], .rust), (["ts", "mts", "cts"], .typeScript), (["tsx"], .tsx),
      (["js", "mjs", "cjs", "jsx"], .javaScript), (["py", "pyi"], .python), (["go"], .go),
      (["java"], .java), (["rb", "rake", "gemspec"], .ruby)]

def asStr : Language → Text
  | rust => "rust".toList
  | typeScript => "typescript".toList
  | tsx => "tsx".toList
  | javaScript => "javascript".toList
  | python => "python".toList
  | go => "go".toList
  | java => "java".toList
  | ruby => "ruby".toList

end Language

def fallbackLabel (path : Text) : Option Text :=
  if (extension path).isEmpty then none else some (extension path)

/-- The label of a file's chunks. -/
def labelOf (path : Text) : Option Text :=
  ((Language.fromPath path).map Language.asStr).or (fallbackLabel path)

def EXTRA_EXTENSIONS : List Text :=
  ["c", "cc", "cpp", "cs", "h", "hpp", "kt", "kts", "swift", "php", "scala", "sh", "bash", "zsh",
    "sql", "proto", "graphql", "gql", "tf", "md", "mdx", "rst", "toml", "yaml", "yml", "json",
    "css", "scss", "html", "vue", "svelte", "lua", "ex", "exs", "erl", "hs", "ml", "r", "pl",
    "dart", "zig"].map String.toList

def isIndexable (path : Text) : Bool :=
  (Language.fromPath path).isSome ||
    !(extension path).isEmpty && EXTRA_EXTENSIONS.contains (extension path)

def DEFAULT_MAX_BYTES : ℕ := 1048576

/-- The patterns of a policy, as what they match first on a path, and the size that is too
large. -/
structure Selector where
  ignored : Text → Option Text
  maxBytes : ℕ

namespace Selector

variable (selector : Selector) (path : Text) (bytes : ℕ)

/-- Why a file of this size would not be indexed. -/
def reject : Option SkipReason :=
  match selector.ignored path with
  | some glob => some (.ignored glob)
  | none =>
    if !isIndexable path then some (.unsupportedExtension (extension path))
    else if bytes = 0 then some .empty
    else if bytes > selector.maxBytes then some (.tooLarge bytes selector.maxBytes)
    else none

theorem reject_eq_none_iff : selector.reject path bytes = none ↔
    selector.ignored path = none ∧ isIndexable path = true ∧ 0 < bytes ∧
      bytes ≤ selector.maxBytes := by
  rw [reject]
  cases hignored : selector.ignored path with
  | some glob => simp
  | none =>
    cases hindexable : isIndexable path with
    | false => simp
    | true =>
      simp only [Bool.not_true, Bool.false_eq_true, if_false, true_and]
      split
      next hzero => simp [hzero]
      next hpos =>
        split
        next hlarge => simp [hlarge]
        next hfits => simp [Nat.pos_of_ne_zero hpos, Nat.le_of_not_lt hfits]

end Selector

end TinySweeper.Index
