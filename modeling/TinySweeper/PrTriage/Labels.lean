import TinySweeper.Delimited
import TinySweeper.PrTriage.Gate

/-!
# The label planner

Which of the suggested labels are added, and which labels of the same facet they
replace.
-/

namespace TinySweeper.PrTriage

open Text

/-- The label prefixes within which a label is exclusive. -/
def FACETS : List Text := ["priority:".toList, "triage:".toList, "flag:".toList]

structure LabelPolicy where
  applyLabels : Bool
  maxLabels : ℕ
  /-- Empty for the built-in vocabulary. -/
  allowLabels : List Text
  blockLabels : List Text

structure LabelPlan where
  add : List Text := []
  remove : List Text := []
  declined : List (Text × String) := []
  blocked : Bool := false
  deriving DecidableEq, Repr

def facetOf (label : Text) : Option Text :=
  FACETS.find? fun facet => facet.isPrefixOf (toAsciiLowercase (trim label))

def Priority.labels : List Text :=
  ["priority: p0".toList, "priority: p1".toList, "priority: p2".toList, "priority: p3".toList]

def vocabulary : List Text := Priority.labels ++ Verdict.labels ++ Flag.labels

/-- The labels a new one replaces. -/
def supersede (label : Text) (existing : List Text) : List Text :=
  match facetOf label with
  | none => []
  | some facet => existing.filter fun held => facetOf held = some facet && !same held label

def refusal (label : Text) (existing : List Text) (policy : LabelPolicy) (chosen : List Text) :
    Option String :=
  if existing.any fun held => same held label then some "already applied"
  else if policy.allowLabels.isEmpty && !vocabulary.any fun known => same known label then
    some "not a label triage may apply"
  else if !policy.allowLabels.isEmpty && !policy.allowLabels.any fun known => same known label then
    some "not in the configured allow list"
  else if (facetOf label).any fun facet => facet ∈ chosen then
    some "a label in the same facet was already chosen"
  else none

/-- One suggestion, with the facets chosen so far. -/
def suggest (existing : List Text) (policy : LabelPolicy) (state : LabelPlan × List Text)
    (label : Text) : LabelPlan × List Text :=
  let (plan, chosen) := state
  match refusal label existing policy chosen with
  | some reason =>
    let declined := plan.declined ++ [(label, reason)]
    -- a label already applied still retires the others of its facet
    if reason = "already applied" then
      ({ plan with remove := plan.remove ++ supersede label existing, declined },
        chosen ++ (facetOf label).toList)
    else ({ plan with declined }, chosen)
  | none =>
    if plan.add.length ≥ policy.maxLabels then
      ({ plan with declined := plan.declined ++ [(label, "the label cap was reached")] }, chosen)
    else
      ({ plan with
          remove := plan.remove ++ supersede label existing
          add := plan.add ++ [label] },
        chosen ++ (facetOf label).toList)

def planLabels (existing suggested : List Text) (policy : LabelPolicy) : LabelPlan :=
  let blocked := policy.blockLabels.any fun block => existing.any fun label => same label block
  if !policy.applyLabels then
    { blocked, declined :=
        suggested.map fun label => (label, "labelling is off in the configuration") }
  else if blocked then
    { blocked, declined := suggested.map fun label => (label, "the item carries a blocked label") }
  else (suggested.foldl (suggest existing policy) ({}, [])).1

end TinySweeper.PrTriage
