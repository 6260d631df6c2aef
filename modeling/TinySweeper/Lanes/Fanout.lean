import TinySweeper.App.LaneProposal
import TinySweeper.App.ReviewExecution
import TinySweeper.Dispatch

/-!
# Reviewing units concurrently

A unit is one conversation about one or more files. Its result lands among the
reviews, the failures or the omissions, and the fold of all results is the
outcome of the lane. Spend is not modelled.
-/

namespace TinySweeper.Lanes

open Text Findings App Runs

structure FileReview (κ : Type) where
  summary : Text
  findings : List (Finding κ)
  resolved : List Text
  /-- A required host-controlled stage stopped after the review was produced. -/
  executionRefusal : Option ModelExecutionRefusal
  deriving DecidableEq

inductive ReviewError where
  | modelExecutionRefused (refusal : ModelExecutionRefusal)
  | other (message : Text)
  deriving DecidableEq, Repr

abbrev UnitResult (κ : Type) := Except ReviewError (FileReview κ)

def omissionReason : ModelExecutionRefusal → OmissionReason
  | .callLimit => .callLimit
  | .softDeadline => .softDeadline
  | .drainDeadline => .drainDeadline
  | .cancelled => .cancelled

def description : OmissionReason → Text
  | .notSelected => "not selected by the large-review budget".toList
  | .softDeadline => "not started before the soft deadline".toList
  | .drainDeadline => "did not finish before the drain deadline".toList
  | .callLimit => "stopped at the physical-call limit".toList
  | .cancelled => "cancelled with the owning review".toList

/-- The results of a fan-out. A partial review keeps its findings; its paths are omitted. -/
structure FanOut (κ : Type) where
  reviews : List (List Text × FileReview κ)
  partials : List (List Text × FileReview κ)
  failures : List (Text × List Text × ReviewError)
  omitted : List OmittedGroup
  deriving DecidableEq

namespace FanOut

variable {κ : Type} (f : FanOut κ)

def empty : FanOut κ := ⟨[], [], [], []⟩

def plural (count : ℕ) : Text := if count = 1 then [] else ['s']

def reviewedPaths : List Text := f.reviews.flatMap Prod.fst

def failedPaths : List Text := f.failures.flatMap fun failure => failure.2.1

def omittedPaths : List Text := f.omitted.flatMap OmittedGroup.paths

def unanswered : List Text := f.failedPaths ++ f.omittedPaths

def findings : List (Finding κ) :=
  (f.reviews.flatMap fun entry => entry.2.findings) ++
    f.partials.flatMap fun entry => entry.2.findings

/-- A lone unit's own sentence, else a count. -/
def verdict : Text :=
  let reviewed := f.reviewedPaths.length
  let count := "Reviewed ".toList ++ decimal reviewed ++ " file".toList ++ plural reviewed ++
    "; ".toList ++ decimal f.findings.length ++ " finding".toList ++ plural f.findings.length ++ ['.']
  match f.reviews with
  | [(_, review)] => if (trim review.summary).isEmpty then count else trim review.summary
  | _ => count

def summary : Text :=
  let reviewed := f.reviewedPaths.length
  let summary :=
    if f.unanswered.isEmpty then f.verdict
    else
      "Reviewed ".toList ++ decimal reviewed ++ " of ".toList ++
        decimal (reviewed + f.unanswered.length) ++ " files — ".toList ++
        decimal f.unanswered.length ++ " not reviewed. ".toList ++ f.verdict
  let summary :=
    if f.failures.isEmpty then summary
    else
      summary ++ [' '] ++ decimal f.failedPaths.length ++ " file".toList ++
        plural f.failedPaths.length ++ " could not be reviewed: ".toList ++
        ", ".toList.intercalate f.failedPaths ++ ['.']
  if f.omitted.isEmpty then summary
  else
    let reasons := (f.omitted.map fun group => description group.reason).dedup.insertionSort (· ≤ ·)
    summary ++ [' '] ++ decimal f.omittedPaths.length ++ " file".toList ++
      plural f.omittedPaths.length ++ " were omitted: ".toList ++
      ", ".toList.intercalate reasons ++ ['.']

/-- Fold the results into one lane outcome. -/
def intoOutcome : LaneOutcome κ where
  summary := f.summary
  contextDegraded := false
  completed := !f.reviews.isEmpty
  findings := f.findings
  -- A partial review stopped early; what it resolved is not safe evidence.
  resolved := f.reviews.flatMap fun entry => entry.2.resolved
  skipped :=
    if f.reviewedPaths.length = 0 ∧ f.findings = [] ∧ (f.failures ≠ [] ∨ f.omitted ≠ []) then
      some "No files received a complete review; see the listed failures and omissions.".toList
    else none
  pending := []
  unanswered := f.unanswered
  omissions := f.omitted
  coverage :=
    if f.reviewedPaths ≠ [] ∨ f.unanswered ≠ [] then some ⟨f.reviewedPaths, f.unanswered⟩ else none

/-- File the result of a unit with these paths under its label. -/
def record (label : Text) (paths : List Text) (result : UnitResult κ) : FanOut κ :=
  match result with
  | .ok review =>
    match review.executionRefusal with
    | some refusal =>
      { f with
        partials := f.partials ++ [(paths, review)]
        omitted := f.omitted ++ [⟨paths, omissionReason refusal⟩] }
    | none => { f with reviews := f.reviews ++ [(paths, review)] }
  | .error (.modelExecutionRefused refusal) =>
    { f with omitted := f.omitted ++ [⟨paths, omissionReason refusal⟩] }
  | .error error => { f with failures := f.failures ++ [(label, paths, error)] }

def leaveOut (paths : List Text) (reason : OmissionReason) : FanOut κ :=
  { f with omitted := f.omitted ++ [⟨paths, reason⟩] }

/-- The units by their paths, each where it ended. -/
def unitPaths : List (List Text) :=
  f.reviews.map Prod.fst ++ f.failures.map (fun failure => failure.2.1) ++
    f.omitted.map OmittedGroup.paths

/-- Each unit is in one of the reviews, the failures and the omissions; a partial review is among
the omissions. -/
structure Accounts (units : List (List Text)) : Prop where
  once : f.unitPaths.Perm units
  partials : (f.partials.map Prod.fst).Sublist (f.omitted.map OmittedGroup.paths)

variable {f} {units : List (List Text)}

theorem Accounts.record (h : f.Accounts units) (label : Text) (paths : List Text)
    (result : UnitResult κ) : (f.record label paths result).Accounts (units ++ [paths]) := by
  have hreview : (f.reviews.map Prod.fst ++ [paths] ++
      f.failures.map (fun failure => failure.2.1) ++ f.omitted.map OmittedGroup.paths).Perm
      (units ++ [paths]) := by
    refine List.Perm.trans ?_ (h.once.append_right [paths])
    rw [List.perm_iff_count]
    intro a
    simp only [unitPaths, List.count_append]
    omega
  have hfailure : (f.reviews.map Prod.fst ++
      (f.failures.map (fun failure => failure.2.1) ++ [paths]) ++
      f.omitted.map OmittedGroup.paths).Perm (units ++ [paths]) := by
    refine List.Perm.trans ?_ (h.once.append_right [paths])
    rw [List.perm_iff_count]
    intro a
    simp only [unitPaths, List.count_append]
    omega
  have homitted : (f.reviews.map Prod.fst ++ f.failures.map (fun failure => failure.2.1) ++
      (f.omitted.map OmittedGroup.paths ++ [paths])).Perm (units ++ [paths]) := by
    rw [← List.append_assoc]
    exact h.once.append_right [paths]
  have hpartials := h.partials
  unfold FanOut.record
  split
  · next review =>
    split
    · exact ⟨by simpa [unitPaths] using homitted, by simpa using hpartials.append_right [paths]⟩
    · exact ⟨by simpa [unitPaths] using hreview, hpartials⟩
  · exact ⟨by simpa [unitPaths] using homitted, by
      simpa using hpartials.trans (List.sublist_append_left _ [paths])⟩
  · exact ⟨by simpa [unitPaths] using hfailure, hpartials⟩

theorem Accounts.leaveOut (h : f.Accounts units) (paths : List Text) (reason : OmissionReason) :
    (f.leaveOut paths reason).Accounts (units ++ [paths]) where
  once := by simpa [unitPaths, FanOut.leaveOut] using h.once.append_right [paths]
  partials := by
    simpa [FanOut.leaveOut] using h.partials.trans (List.sublist_append_left _ [paths])

theorem accounts_empty : (empty : FanOut κ).Accounts [] :=
  ⟨List.Perm.refl _, List.Sublist.refl _⟩

/-- The outcome has every member path once, reviewed or unanswered. -/
theorem Accounts.paths (h : f.Accounts units) :
    (f.reviewedPaths ++ f.unanswered).Perm units.flatten := by
  have hflatten : f.unitPaths.flatten = f.reviewedPaths ++ f.unanswered := by
    simp only [unitPaths, reviewedPaths, unanswered, failedPaths, omittedPaths,
      List.flatten_append, List.flatMap, List.append_assoc]
  rw [← hflatten]
  exact h.once.flatten

end FanOut

def MAX_CONCURRENT_FILES : ℕ := 8

/-- What one turn of the loop notices, and the unit that completes in it. -/
abbrev Turn := Dispatch.Turn ℕ

/-- The state of the loop over units `0, 1, …`. -/
structure Bounded (κ : Type) where
  next : ℕ
  active : List ℕ
  activePaths : List ℕ
  results : List (Option (UnitResult κ))
  omitted : List (Option OmissionReason)
  draining : Bool
  stopped : Bool

section Loop

variable {κ : Type} (units : ℕ) (result : ℕ → UnitResult κ)

def Bounded.initial : Bounded κ :=
  ⟨0, [], [], List.replicate units none, List.replicate units none, false, false⟩

/-- Omit every unit from a position on. -/
def Bounded.skip (s : Bounded κ) (reason : OmissionReason) : Bounded κ :=
  { s with
    omitted := s.omitted.take s.next ++ (s.omitted.drop s.next).map fun _ => some reason }

def Bounded.omitActive (s : Bounded κ) (reason : OmissionReason) : Bounded κ :=
  { s with
    omitted := s.activePaths.foldl
      (fun omitted index => omitted.modify index fun _ => some reason) s.omitted }

/-- Start units while there is room; at most one round for each slot. -/
def Bounded.start : (fuel : ℕ) → Bounded κ → Bounded κ
  | 0, s => s
  | fuel + 1, s =>
    if !s.draining && s.active.length < MAX_CONCURRENT_FILES && s.next < units then
      Bounded.start fuel
        { s with
          next := s.next + 1
          active := s.active ++ [s.next]
          activePaths := s.activePaths ++ [s.next] }
    else s

def Bounded.complete (s : Bounded κ) (index : ℕ) : Bounded κ :=
  if index ∈ s.active then
    { s with
      active := s.active.erase index
      activePaths := s.activePaths.erase index
      results := s.results.set index (some (result index)) }
  else s

/-- Notice the soft deadline once. -/
def Bounded.drain (s : Bounded κ) (pastSoft : Bool) : Bounded κ :=
  if !s.draining && pastSoft then { s.skip .softDeadline with draining := true } else s

/-- The state at the point of a turn where it waits for a completion. -/
def Bounded.prepare (s : Bounded κ) (t : Turn) : Bounded κ :=
  if t.cancelled then { (s.skip .cancelled).omitActive .cancelled with stopped := true }
  else
    let s := s.drain t.pastSoft
    if s.draining && t.pastDrain then { s.omitActive .drainDeadline with stopped := true }
    else
      let s := s.start units MAX_CONCURRENT_FILES
      if s.active.isEmpty then
        if s.next ≥ units || s.draining then { s with stopped := true } else s
      else s

/-- One turn of the loop. -/
def Bounded.turn (s : Bounded κ) (t : Turn) : Bounded κ :=
  if s.stopped then s
  else
    let s := s.prepare units t
    if s.stopped then s
    else
      match t.completed with
      | some index => s.complete result index
      | none => s

variable (label : ℕ → Text) (memberPaths : ℕ → List Text)

/-- Fold the results in input order. -/
def Bounded.fanOut (s : Bounded κ) : FanOut κ :=
  (List.range units).foldl
    (fun out index =>
      match (s.results)[index]?.join with
      | some result => out.record (label index) (memberPaths index) result
      | none => out.leaveOut (memberPaths index) (((s.omitted)[index]?.join).getD .cancelled))
    FanOut.empty

/-- The fan-out a run of the loop ends with. -/
def perUnitBounded (turns : List Turn) : FanOut κ :=
  (exec (Bounded.turn units result) (Bounded.initial units) turns).fanOut units label memberPaths

end Loop

end TinySweeper.Lanes
