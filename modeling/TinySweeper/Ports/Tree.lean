import TinySweeper.Text

/-!
# The tree-reading port

What a reviewer may ask of the repository at the reviewed revision, and what it is told.
-/

namespace TinySweeper.Ports

open Text

def MAX_READ_LINES : ℕ := 200

def MAX_LIST_PATHS : ℕ := 32

/-- One thing a reviewer asked to see; an absent start is line 1. -/
inductive Lookup where
  | list (path : Text)
  | read (path : Text) (start stop : Option ℕ)
  | search (pattern : Text) (glob : Option Text)
  deriving DecidableEq, Repr

structure Hit where
  path : Text
  line : ℕ
  text : Text
  deriving DecidableEq, Repr

inductive Found where
  | text (text : Text) (start stop total : ℕ)
  | hits (hits : List Hit) (truncated : Bool) (skipped : List Text)
  | notFound
  | unavailable (reason : Text)
  deriving DecidableEq, Repr

/-- What tells lookups apart; patterns are quoted. -/
def Lookup.key (quoted : Text → Text) : Lookup → Text
  | .list path => "list:".toList ++ path ++ ":".toList ++ decimal MAX_LIST_PATHS
  | .read path start stop =>
    "read ".toList ++ path ++ ":".toList ++ (start.map decimal).getD "1".toList ++ "-".toList ++
      (stop.map decimal).getD []
  | .search pattern (some glob) =>
    "search ".toList ++ quoted pattern ++ " in ".toList ++ glob
  | .search pattern none => "search ".toList ++ quoted pattern

/-- Whoever reads the repository. Lookups of one key are one question. -/
structure TreeReader (quoted : Text → Text) where
  lookup : Lookup → Except Text Found
  keyed : ∀ a b : Lookup, a.key quoted = b.key quoted → lookup a = lookup b

end TinySweeper.Ports
