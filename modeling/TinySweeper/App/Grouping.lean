import TinySweeper.App.LaneProposal
import TinySweeper.Linkage

/-!
# Grouping observations and spending the comment budget

Observations of one concern share one inline comment: the highest-ranked one
carries the identities of the others. What the budget does not cover moves to
the overflow of its lane. Neither step touches a verdict.
-/

namespace TinySweeper.App

open Text Evidence Findings Linkage
open Scan (Severity ScanKind)

variable {κ : Type} [Confidence κ] (judge : Judgement κ)

/-- Case and whitespace of a rule identifier are presentation. -/
def normalizeRule (rule : Text) : Text :=
  [' '].intercalate ((splitWhitespace rule).map judge.lowercase)

/-- Overlapping published ranges, or one non-empty rule where neither is placed. -/
def coLocated (left right : Finding κ) : Bool :=
  left.path = right.path &&
    match left.publishedRange, right.publishedRange with
    | some (leftStart, leftEnd), some (rightStart, rightEnd) =>
      leftStart ≤ rightEnd && leftEnd ≥ rightStart
    | none, none =>
      !(normalizeRule judge left.rule).isEmpty &&
        normalizeRule judge left.rule = normalizeRule judge right.rule
    | _, _ => false

def findingRank (left right : Finding κ) : Ordering :=
  ((compare left.severity right.severity).then
    (Confidence.totalCmp left.confidence right.confidence)).then
    (compare left.corroboration right.corroboration)

/-- A finding with the position of its lane. -/
structure Located (κ : Type) where
  laneIndex : ℕ
  finding : Finding κ
  deriving DecidableEq

def repeats (left right : Located κ) : Bool :=
  let distinctSource := left.laneIndex ≠ right.laneIndex ||
    left.finding.reviewPass ≠ right.finding.reviewPass
  let bothUnplaced := left.finding.publishedRange.isNone && right.finding.publishedRange.isNone
  ((distinctSource || bothUnplaced) && coLocated judge left.finding right.finding) ||
    judge.sameConcern left.finding right.finding

/-- The opener carries the identities of an observation, its own apart. -/
def mergeObservation (primary observation : Finding κ) : Finding κ :=
  let identities := observation.aliases ++ [observation.known judge.sha256]
  let aliases := primary.aliases ++
    identities.filter fun identity => identity ≠ primary.known judge.sha256
  { primary with
    aliases := (aliases.insertionSort (· ≤ ·)).dedup
    confidence := Confidence.max primary.confidence observation.confidence }

def Located.mark (located : Located κ) : Located κ :=
  { located with finding := { located.finding with grouped := true } }

def Located.merge (observation : Finding κ) (located : Located κ) : Located κ :=
  { located with finding := mergeObservation judge located.finding observation }

/-- Rank two positions of a list of observations. -/
def rankAt (all : List (Located κ)) (left right : ℕ) : Ordering :=
  match all[left]?, all[right]? with
  | some l, some r => findingRank l.finding r.finding
  | _, _ => .eq

/-- The observations so far, and how many each lane leaves to another's comment. -/
structure Publication (κ : Type) where
  all : List (Located κ)
  groupedByLane : List ℕ

/-- One comment for a cluster: its highest-ranked member opens it. -/
def publishCluster (s : Publication κ) (cluster : List ℕ) : Publication κ :=
  if cluster.length ≤ 1 then s
  else
    match maxBy (rankAt s.all) cluster with
    | none => s
    | some primary =>
      let others := cluster.filter fun index => index ≠ primary
      let observations := others.filterMap fun index => (s.all)[index]?
      let marked := others.foldl (fun all index => all.modify index Located.mark) s.all
      { all := observations.foldl
          (fun all o => all.modify primary (Located.merge judge o.finding)) marked
        groupedByLane := observations.foldl
          (fun counts o => counts.modify o.laneIndex (· + 1)) s.groupedByLane }

/-- Every finding with the position of its lane, lane by lane. -/
def located (lanes : List (LaneProposal κ)) : List (Located κ) :=
  lanes.zipIdx.flatMap fun entry => entry.1.findings.map (Located.mk entry.2)

/-- Rank two notes by lane and place; equal ranks keep the earlier. -/
def rankNote (lanes : List (LaneProposal κ)) (left right : ℕ × ℕ) : Ordering :=
  match (lanes)[left.1]?.bind (·.noted[left.2]?), (lanes)[right.1]?.bind (·.noted[right.2]?) with
  | some l, some r => findingRank l r
  | _, _ => .eq

def notePlaces (lanes : List (LaneProposal κ)) : List (ℕ × ℕ) :=
  lanes.zipIdx.flatMap fun entry => (List.range entry.1.noted.length).map fun note => (entry.2, note)

def sameNote (lanes : List (LaneProposal κ)) (places : List (ℕ × ℕ)) (left right : ℕ) : Bool :=
  match (places)[left]?.bind fun p => (lanes)[p.1]?.bind (·.noted[p.2]?),
    (places)[right]?.bind fun p => (lanes)[p.1]?.bind (·.noted[p.2]?) with
  | some l, some r => judge.sameConcern l r
  | _, _ => false

def markNote (place : ℕ × ℕ) (lanes : List (LaneProposal κ)) : List (LaneProposal κ) :=
  lanes.modify place.1 fun lane =>
    { lane with noted := lane.noted.modify place.2 fun f => { f with grouped := true } }

/-- Show a repeated note once. -/
def publishNotes (places : List (ℕ × ℕ)) (lanes : List (LaneProposal κ)) (cluster : List ℕ) :
    List (LaneProposal κ) :=
  if cluster.length ≤ 1 then lanes
  else
    let ranked := fun left right =>
      (rankNote lanes ((places)[left]?.getD (0, 0)) ((places)[right]?.getD (0, 0))).then
        (compare right left)
    match maxBy ranked cluster with
    | none => lanes
    | some primary =>
      (cluster.filter fun index => index ≠ primary).foldl
        (fun lanes index => markNote ((places)[index]?.getD (0, 0)) lanes) lanes

def groupSummaryNotes (lanes : List (LaneProposal κ)) : List (LaneProposal κ) :=
  let places := notePlaces lanes
  (clusters (sameNote judge lanes places) (List.range places.length)).foldl
    (publishNotes places) lanes

/-- Give a lane its observations back. -/
def restoreLane (s : Publication κ) (laneIndex : ℕ) (lane : LaneProposal κ) : LaneProposal κ :=
  let count := (s.groupedByLane)[laneIndex]?.getD 0
  { lane with
    findings := (s.all.filter fun located => located.laneIndex = laneIndex).map Located.finding
    summary :=
      if count > 0 then
        lane.summary ++ " (".toList ++ decimal count ++
          " observation(s) share another lane's inline comment and are listed here only)".toList
      else lane.summary }

def distribute (s : Publication κ) (lanes : List (LaneProposal κ)) : List (LaneProposal κ) :=
  lanes.zipIdx.map fun entry => restoreLane s entry.2 entry.1

def repeatsAt (all : List (Located κ)) (member index : ℕ) : Bool :=
  match all[member]?, all[index]? with
  | some left, some right => repeats judge left right
  | _, _ => false

/-- The observations of all lanes, grouped. -/
def publication (lanes : List (LaneProposal κ)) : Publication κ :=
  let all := located lanes
  (clusters (repeatsAt judge all) (List.range all.length)).foldl (publishCluster judge)
    ⟨all, List.replicate lanes.length 0⟩

def groupCoLocatedFindings (lanes : List (LaneProposal κ)) : List (LaneProposal κ) :=
  let lanes := groupSummaryNotes judge lanes
  distribute (publication judge lanes) lanes

/-- Whether a finding can be posted as an inline conversation on the live diff. -/
def inlineAnchorWithin (f : Finding κ) (diffs : List FileDiff) : Bool :=
  match f.publishedRange with
  | none => false
  | some (start, line) =>
    let start := if start < line then start else line
    (diffs.find? fun diff => diff.path = f.path).any (·.withinHunk start line)

/-- A finding that competes for the budget, with its place. -/
structure Ranked (κ : Type) where
  lane : ℕ
  place : ℕ
  severity : Severity
  confidence : κ
  corroboration : ℕ

def Ranked.before (a b : Ranked κ) : Ordering :=
  ((((compare b.severity a.severity).then (Confidence.totalCmp b.confidence a.confidence)).then
    (compare b.corroboration a.corroboration)).then (compare a.lane b.lane)).then
    (compare a.place b.place)

section Budget

variable (publishable : Finding κ → Bool)

def ranked (lanes : List (LaneProposal κ)) : List (Ranked κ) :=
  let all := lanes.zipIdx.flatMap fun lane =>
    (lane.1.findings.zipIdx.filter fun entry => !entry.1.grouped && publishable entry.1).map
      fun entry => ⟨lane.2, entry.2, entry.1.severity, entry.1.confidence, entry.1.corroboration⟩
  all.insertionSort fun a b => (a.before b).isLE

/-- The places that get a conversation; every critical finding does. -/
def kept (budget : ℕ) (lanes : List (LaneProposal κ)) : List (ℕ × ℕ) :=
  let ranked := ranked publishable lanes
  let critical := (ranked.filter fun r => r.severity = .critical).length
  (ranked.take (max budget critical)).map fun r => (r.lane, r.place)

/-- Whether the finding at a place of a lane stays among its findings. -/
def stays (keep : List (ℕ × ℕ)) (laneIndex : ℕ) (entry : Finding κ × ℕ) : Bool :=
  entry.1.grouped || !publishable entry.1 || (laneIndex, entry.2) ∈ keep

def capLane (keep : List (ℕ × ℕ)) (laneIndex : ℕ) (lane : LaneProposal κ) : LaneProposal κ :=
  let parts := lane.findings.zipIdx.partition (stays publishable keep laneIndex)
  let overflow := lane.overflow ++ parts.2.map Prod.fst
  let overBudget := (overflow.filter fun f => !f.grouped).length
  { lane with
    findings := parts.1.map Prod.fst
    overflow
    summary :=
      if overBudget > 0 then
        lane.summary ++ " (+".toList ++ decimal overBudget ++
          " over the comment budget, listed in the review summary)".toList
      else lane.summary }

def capProposalFindings (budget : ℕ) (lanes : List (LaneProposal κ)) : List (LaneProposal κ) :=
  let keep := kept publishable budget lanes
  lanes.zipIdx.map fun entry => capLane publishable keep entry.2 entry.1

end Budget

/-- A lane without its notes. -/
def LaneProposal.withoutNotes (l : LaneProposal κ) : LaneProposal κ := { l with noted := [] }

/-- A lane without what is shown of it. -/
def LaneProposal.settled (l : LaneProposal κ) : LaneProposal κ :=
  { l with summary := [], findings := [], noted := [], overflow := [] }

omit [Confidence κ] in
theorem withoutNotes_markNote (place : ℕ × ℕ) (lanes : List (LaneProposal κ)) :
    (markNote place lanes).map LaneProposal.withoutNotes =
      lanes.map LaneProposal.withoutNotes := by
  apply map_modify
  intro lane
  rfl

theorem withoutNotes_publishNotes (places : List (ℕ × ℕ)) (lanes : List (LaneProposal κ))
    (cluster : List ℕ) :
    (publishNotes places lanes cluster).map LaneProposal.withoutNotes =
      lanes.map LaneProposal.withoutNotes := by
  unfold publishNotes
  split
  · rfl
  · dsimp only
    split
    · rfl
    · exact map_foldl_eq (fun _ _ => withoutNotes_markNote _ _) _ lanes

theorem withoutNotes_groupSummaryNotes (lanes : List (LaneProposal κ)) :
    (groupSummaryNotes judge lanes).map LaneProposal.withoutNotes =
      lanes.map LaneProposal.withoutNotes :=
  map_foldl_eq (fun _ _ => withoutNotes_publishNotes _ _ _) _ lanes

/-- What notes do not enter is the same after the notes are grouped. -/
theorem map_groupSummaryNotes {β : Type*} {g : LaneProposal κ → β}
    (hg : ∀ l : LaneProposal κ, g l.withoutNotes = g l) (lanes : List (LaneProposal κ)) :
    (groupSummaryNotes judge lanes).map g = lanes.map g := by
  have hsame := congrArg (List.map g) (withoutNotes_groupSummaryNotes judge lanes)
  simpa [Function.comp_def, hg] using hsame

omit [Confidence κ] in
theorem map_zipIdx_map {β : Type*} {g : LaneProposal κ → β}
    {f : ℕ → LaneProposal κ → LaneProposal κ} (hf : ∀ i l, g (f i l) = g l)
    (lanes : List (LaneProposal κ)) :
    (lanes.zipIdx.map fun entry => f entry.2 entry.1).map g = lanes.map g := by
  calc (lanes.zipIdx.map fun entry => f entry.2 entry.1).map g
      = (lanes.zipIdx.map Prod.fst).map g := by simp only [List.map_map, Function.comp_def, hf]
    _ = lanes.map g := by rw [List.zipIdx_map_fst]

omit [Confidence κ] in
theorem settled_restoreLane (s : Publication κ) (laneIndex : ℕ) (lane : LaneProposal κ) :
    (restoreLane s laneIndex lane).settled = lane.settled := rfl

omit [Confidence κ] in
theorem settled_capLane (publishable : Finding κ → Bool) (keep : List (ℕ × ℕ)) (laneIndex : ℕ)
    (lane : LaneProposal κ) : (capLane publishable keep laneIndex lane).settled = lane.settled := rfl

theorem settled_groupCoLocatedFindings (lanes : List (LaneProposal κ)) :
    (groupCoLocatedFindings judge lanes).map LaneProposal.settled =
      lanes.map LaneProposal.settled := by
  calc (groupCoLocatedFindings judge lanes).map LaneProposal.settled
      = (groupSummaryNotes judge lanes).map LaneProposal.settled :=
        map_zipIdx_map (fun i l => settled_restoreLane _ i l) _
    _ = lanes.map LaneProposal.settled := map_groupSummaryNotes judge (fun _ => rfl) lanes

theorem settled_capProposalFindings (publishable : Finding κ → Bool) (budget : ℕ)
    (lanes : List (LaneProposal κ)) :
    (capProposalFindings publishable budget lanes).map LaneProposal.settled =
      lanes.map LaneProposal.settled :=
  map_zipIdx_map (fun i l => settled_capLane publishable _ i l) lanes

omit [Confidence κ] in
/-- Lists of lanes that settle alike agree on what settling keeps. -/
theorem exists_mem_settled {P : LaneProposal κ → Prop} (hP : ∀ l, P l.settled ↔ P l)
    {lanes lanes' : List (LaneProposal κ)}
    (hsame : lanes.map LaneProposal.settled = lanes'.map LaneProposal.settled) :
    (∃ l ∈ lanes, P l) ↔ ∃ l ∈ lanes', P l := by
  have hmap : ∀ lanes : List (LaneProposal κ),
      (∃ l ∈ lanes, P l) ↔ ∃ l ∈ lanes.map LaneProposal.settled, P l := by
    intro lanes
    simp [hP]
  rw [hmap lanes, hmap lanes', hsame]

omit [Confidence κ] in
theorem forall_mem_settled {P : LaneProposal κ → Prop} (hP : ∀ l, P l.settled ↔ P l)
    {lanes lanes' : List (LaneProposal κ)}
    (hsame : lanes.map LaneProposal.settled = lanes'.map LaneProposal.settled) :
    (∀ l ∈ lanes, P l) ↔ ∀ l ∈ lanes', P l := by
  have hmap : ∀ lanes : List (LaneProposal κ),
      (∀ l ∈ lanes, P l) ↔ ∀ l ∈ lanes.map LaneProposal.settled, P l := by
    intro lanes
    simp [hP]
  rw [hmap lanes, hmap lanes', hsame]

section Pipeline

variable (highEntropy : Text → Bool) (config : Config κ) (diffs : List FileDiff)
variable (continuity : Continuity κ) (scanFindings : List Scan.Finding)
variable (outcomes : List (LaneId × LaneOutcome κ))

/-- The lanes of the final proposal. -/
def proposalLanes : List (LaneProposal κ) :=
  capProposalFindings (fun f => inlineAnchorWithin f diffs)
    (config.maxComments - continuity.openFindings)
    (groupCoLocatedFindings judge
      (concluded judge highEntropy config diffs continuity scanFindings outcomes))

/-- Grouping and the budget leave every verdict as it was concluded. -/
theorem settled_proposalLanes :
    (proposalLanes judge highEntropy config diffs continuity scanFindings outcomes).map
        LaneProposal.settled =
      (concluded judge highEntropy config diffs continuity scanFindings outcomes).map
        LaneProposal.settled :=
  (settled_capProposalFindings _ _ _).trans (settled_groupCoLocatedFindings judge _)

end Pipeline

/-- No suggestion applies and no two concerns are the same. -/
def bareJudgement : Judgement ℕ where
  sha256 _ := []
  applicable _ _ := none
  sameConcern _ _ := false
  lowercase := id

def plainConfig : Config ℕ where
  failOn _ := .high
  requestChangesAt := some .high
  severityGate := .medium
  confidenceMin := 60
  noteConfidence := 40
  maxComments := 10
  approveWhenClean := true

/-- Nothing was said before. -/
def firstReview : Continuity ℕ where
  severities _ := none
  suppressed := []
  titles := []
  repeatsConcern _ := false
  openFindings := 0

/-- A new file of one line. -/
def changedFile (path : Text) : FileDiff where
  path
  hunks := [⟨0, 0, 1, 1, [], [⟨.added, some 1, none, "x".toList⟩]⟩]
  changedLines := {1}

/-- An answer without findings. -/
def fileOutcome (reviewed unanswered : List Text) : LaneOutcome ℕ where
  summary := []
  contextDegraded := false
  completed := true
  findings := []
  resolved := []
  skipped := none
  pending := []
  unanswered
  omissions := []
  coverage := some ⟨reviewed, unanswered⟩

end TinySweeper.App
