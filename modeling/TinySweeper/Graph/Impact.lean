import TinySweeper.RoundRobin
import TinySweeper.Text

/-!
# The blast radius of a change

Which code depends on what a change touches, and which changed symbols no test
exercises. The list is capped, and the kinds of dependents share the cap.
-/

namespace TinySweeper.Graph

open Std

inductive NodeKind where
  | file
  | symbol
  deriving DecidableEq, Repr

inductive EdgeKind where
  | imports
  | defines
  | calls
  | references
  | extending
  | tests
  deriving DecidableEq, Repr

structure GraphNode where
  id : Text
  kind : NodeKind
  deriving DecidableEq, Repr

structure GraphEdge where
  source : Text
  target : Text
  kind : EdgeKind
  deriving DecidableEq, Repr

/-- What a walk of the graph has reached. -/
structure Neighbourhood where
  nodes : List GraphNode
  edges : List GraphEdge
  deriving DecidableEq, Repr

/-- How a dependent relates to the change, the strongest first. -/
inductive Relation where
  | test
  | implementor
  | caller
  | importer
  deriving DecidableEq, Repr

def Relation.rank : Relation → ℕ
  | .test => 0
  | .implementor => 1
  | .caller => 2
  | .importer => 3

instance : LinearOrder Relation :=
  LinearOrder.lift' Relation.rank fun a b h => by cases a <;> cases b <;> first | rfl | cases h

/-- Definitions relate nothing: what defines a changed symbol is the change. -/
def Relation.of : EdgeKind → Option Relation
  | .tests => some .test
  | .extending => some .implementor
  | .calls => some .caller
  | .references => some .caller
  | .imports => some .importer
  | .defines => none

structure Impacted where
  id : Text
  relation : Relation
  deriving DecidableEq, Repr

structure Impact where
  reached : List Impacted
  untested : List Text
  truncated : ℕ
  deriving DecidableEq, Repr

/-- The strongest relation of each dependent, and the changed symbols a test reaches. -/
structure Walked where
  strongest : TreeMap Text Relation := ∅
  covered : TreeSet Text := ∅

def strengthen (relation : Relation) (current : Option Relation) : Option Relation :=
  some (current.elim relation fun current => min current relation)

def Walked.note (seeded : TreeSet Text) (walked : Walked) (edge : GraphEdge) : Walked :=
  if !seeded.contains edge.target then walked
  else
    match Relation.of edge.kind with
    | none => walked
    | some relation =>
      -- a test changed along with what it exercises still covers it
      ⟨if seeded.contains edge.source then walked.strongest
        else walked.strongest.alter edge.source (strengthen relation),
        if relation = .test then walked.covered.insert edge.target else walked.covered⟩

/-- The bytes of one list entry, and the most a list may allocate. -/
def IMPACTED_SIZE : ℕ := 32

def ISIZE_MAX : ℕ := 2 ^ 63 - 1

/-- The dependents of each relation, in the order of their ids. -/
def queuesOf (strongest : TreeMap Text Relation) : TreeMap Relation (List Text) :=
  strongest.foldl (fun queues id relation =>
    queues.alter relation fun ids => some (ids.getD [] ++ [id])) ∅

/-- The relations take turns until the cap is reached; the list is allocated at once, and a cap
that is too large for that stops the program. -/
def select (strongest : TreeMap Text Relation) (maxReached : ℕ) : Option (List Impacted) :=
  if maxReached * IMPACTED_SIZE > ISIZE_MAX then none
  else
    some ((RoundRobin.fill (queuesOf strongest).toList maxReached 0 []).map fun dealt =>
      ⟨dealt.2, dealt.1⟩)

/-- By relation, then by id. -/
def Impacted.cmp : Impacted → Impacted → Ordering :=
  compareLex (compareOn Impacted.relation) (compareOn Impacted.id)

def Impact.of (neighbourhood : Neighbourhood) (seeds : List Text) (maxReached : ℕ) :
    Option Impact :=
  let seeded := TreeSet.ofList seeds
  let walked := neighbourhood.edges.foldl (Walked.note seeded) {}
  (select walked.strongest maxReached).map fun selected =>
    let reached := selected.mergeSort fun a b => (Impacted.cmp a b).isLE
    let known := TreeSet.ofList
      ((neighbourhood.nodes.filter fun node => node.kind = .symbol).map GraphNode.id)
    ⟨reached, seeds.filter fun seed => known.contains seed && !walked.covered.contains seed,
      walked.strongest.size - reached.length⟩

end TinySweeper.Graph
