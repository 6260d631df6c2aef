import TinySweeper.App.Grouping

/-!
# Which files a later push may skip

A path is certified from the lane records of the final proposal. The records of
lanes that stay are those of their outcomes; a lane published by the fallback
carries none, so what it replaced no longer speaks.
-/

namespace TinySweeper.App

open Text Evidence Findings
open Scan (Severity ScanKind)

variable {κ : Type}

def reviewed (coverage : Option FileCoverage) (path : Text) : Bool :=
  coverage.any fun coverage => path ∈ coverage.reviewed

def leftOpen (coverage : Option FileCoverage) (path : Text) : Bool :=
  coverage.any fun coverage => path ∈ coverage.unanswered

def perFile (lane : LaneId) : Bool := lane = .critique || lane = .security

namespace LaneOutcome

variable (outcome : LaneOutcome κ) (path : Text)

/-- It lists the path as not reviewed, in whichever place. -/
def fails : Bool :=
  leftOpen outcome.coverage path || path ∈ outcome.unanswered || omitted outcome.omissions path

def mentions : Bool := reviewed outcome.coverage path || outcome.fails path

end LaneOutcome

/-- A certified path was reviewed by every per-file outcome that mentions it and failed by none. -/
def CertifiesOnlyReviewed (lanes : List (LaneProposal κ)) (diffs : List FileDiff)
    (outcomes : List (LaneId × LaneOutcome κ)) : Prop :=
  ∀ path ∈ certifiedReplayPaths lanes diffs, ∀ entry ∈ outcomes, perFile entry.1 →
    entry.2.mentions path → reviewed entry.2.coverage path ∧ ¬entry.2.fails path

/-- The path of a changed file that some per-file outcome reviewed and none left or omitted. -/
def Vouched (diffs : List FileDiff) (outcomes : List (LaneId × LaneOutcome κ)) (path : Text) :
    Prop :=
  (∃ diff ∈ diffs, diff.changedLines ≠ ∅ ∧ diff.path = path) ∧
    (∃ entry ∈ outcomes, perFile entry.1 ∧ reviewed entry.2.coverage path) ∧
    ∀ entry ∈ outcomes, perFile entry.1 →
      ¬leftOpen entry.2.coverage path ∧ ¬omitted entry.2.omissions path

/-- The records that mention something are there and all cover it just when one reviewed it and
none leaves or omits it. -/
theorem eligible_covered {α : Type*} (rev opn om : α → Bool) (records : List α) :
    (!(records.filter fun l => rev l || opn l || om l).isEmpty &&
        (records.filter fun l => rev l || opn l || om l).all fun l =>
          rev l && !opn l && !om l) = true ↔
      (∃ l ∈ records, rev l) ∧ ∀ l ∈ records, ¬opn l ∧ ¬om l := by
  simp only [Bool.and_eq_true, Bool.not_eq_true', List.isEmpty_eq_false_iff, List.all_eq_true,
    List.mem_filter, Bool.or_eq_true, Bool.not_eq_true]
  constructor
  · rintro ⟨hsome, hall⟩
    obtain ⟨l, hl⟩ := List.exists_mem_of_ne_nil _ hsome
    rw [List.mem_filter] at hl
    refine ⟨⟨l, hl.1, (hall l ⟨hl.1, by simpa using hl.2⟩).1.1⟩, ?_⟩
    intro l hl
    constructor
    · by_contra hopen
      have hcovered := hall l ⟨hl, .inl (.inr (by simpa using hopen))⟩
      exact hopen hcovered.1.2
    · by_contra homitted
      have hcovered := hall l ⟨hl, .inr (by simpa using homitted)⟩
      exact homitted hcovered.2
  · rintro ⟨⟨l, hl, hrev⟩, hnone⟩
    constructor
    · apply List.ne_nil_of_mem (a := l)
      rw [List.mem_filter]
      exact ⟨hl, by simp [hrev]⟩
    · rintro l ⟨hl, hmentioned⟩
      obtain ⟨hopen, homitted⟩ := hnone l hl
      exact ⟨⟨by simpa [hopen, homitted] using hmentioned, hopen⟩, homitted⟩

theorem mem_certifiedReplayPaths {lanes : List (LaneProposal κ)} {diffs : List FileDiff}
    {path : Text} :
    path ∈ certifiedReplayPaths lanes diffs ↔
      (∃ diff ∈ diffs, diff.changedLines ≠ ∅ ∧ diff.path = path) ∧
        (∃ l ∈ lanes, perFile l.lane ∧ reviewed l.coverage path) ∧
        ∀ l ∈ lanes, perFile l.lane → ¬leftOpen l.coverage path ∧ ¬omitted l.omissions path := by
  have hmentioned : ∀ (coverage : Option FileCoverage) (path : Text),
      (coverage.any fun c => path ∈ c.reviewed || path ∈ c.unanswered) =
        (reviewed coverage path || leftOpen coverage path) := by
    intro coverage path
    cases coverage <;> rfl
  have hcovered : ∀ (coverage : Option FileCoverage) (path : Text),
      (coverage.any fun c => path ∈ c.reviewed && path ∉ c.unanswered) =
        (reviewed coverage path && !leftOpen coverage path) := by
    intro coverage path
    cases coverage <;> simp [reviewed, leftOpen]
  have heligible := fun path : Text => eligible_covered
    (fun l : LaneProposal κ => reviewed l.coverage path) (fun l => leftOpen l.coverage path)
    (fun l => omitted l.omissions path) (perFileLanes lanes)
  unfold certifiedReplayPaths
  simp only [hmentioned, hcovered, List.mem_filterMap, List.mem_filter, Option.ite_none_right_eq_some,
    heligible, Option.some.injEq, decide_eq_true_eq]
  constructor
  · rintro ⟨diff, ⟨hdiff, hchanged⟩, ⟨⟨l, hl, hrev⟩, hnone⟩, rfl⟩
    rw [perFileLanes, List.mem_filter] at hl
    refine ⟨⟨diff, hdiff, hchanged, rfl⟩, ⟨l, hl.1, hl.2, hrev⟩, ?_⟩
    intro l hl hper
    exact hnone l (List.mem_filter.mpr ⟨hl, hper⟩)
  · rintro ⟨⟨diff, hdiff, hchanged, rfl⟩, ⟨l, hl, hper, hrev⟩, hnone⟩
    refine ⟨diff, ⟨hdiff, hchanged⟩, ⟨⟨l, List.mem_filter.mpr ⟨hl, hper⟩, hrev⟩, ?_⟩, rfl⟩
    intro l hl
    obtain ⟨hl, hper⟩ := List.mem_filter.mp hl
    exact hnone l hl hper

section Pipeline

variable [Confidence κ] (judge : Judgement κ) (highEntropy : Text → Bool)
variable (config : Config κ) (diffs : List FileDiff) (continuity : Continuity κ)
variable (scanFindings : List Scan.Finding) (outcomes : List (LaneId × LaneOutcome κ))

theorem exists_concluded {P : LaneProposal κ → Prop} (hfallback : ∀ owner,
      ¬P (fallbackOf judge config scanFindings outcomes owner)) :
    (∃ l ∈ concluded judge highEntropy config diffs continuity scanFindings outcomes, P l) ↔
      ∃ entry ∈ keptOutcomes judge config diffs continuity scanFindings outcomes,
        P (laneProposal judge highEntropy config diffs continuity entry.1 entry.2) := by
  rw [concluded_eq]
  constructor
  · rintro ⟨l, hl, hp⟩
    rcases List.mem_append.mp hl with hl | hl
    · obtain ⟨entry, hentry, rfl⟩ := List.mem_map.mp hl
      exact ⟨entry, hentry, hp⟩
    · obtain ⟨owner, -, rfl⟩ := List.mem_map.mp hl
      exact absurd hp (hfallback owner)
  · rintro ⟨entry, hentry, hp⟩
    exact ⟨_, List.mem_append_left _ (List.mem_map_of_mem hentry), hp⟩

/-- The certificate is decided by the outcomes that stay. -/
theorem mem_certified_proposalLanes {path : Text} :
    path ∈ certifiedReplayPaths
        (proposalLanes judge highEntropy config diffs continuity scanFindings outcomes) diffs ↔
      Vouched diffs (keptOutcomes judge config diffs continuity scanFindings outcomes) path := by
  have hsame := settled_proposalLanes judge highEntropy config diffs continuity scanFindings outcomes
  have hreviewed := exists_concluded judge highEntropy config diffs continuity scanFindings outcomes
    (P := fun l => perFile l.lane ∧ reviewed l.coverage path)
    (fun owner h => Bool.false_ne_true h.2)
  have hfailed := exists_concluded judge highEntropy config diffs continuity scanFindings outcomes
    (P := fun l => perFile l.lane ∧ (leftOpen l.coverage path ∨ omitted l.omissions path))
    (fun owner h => h.2.elim Bool.false_ne_true Bool.false_ne_true)
  rw [mem_certifiedReplayPaths, Vouched,
    exists_mem_settled (P := fun l => perFile l.lane ∧ reviewed l.coverage path)
      (fun _ => Iff.rfl) hsame,
    forall_mem_settled (P := fun l => perFile l.lane →
      ¬leftOpen l.coverage path ∧ ¬omitted l.omissions path) (fun _ => Iff.rfl) hsame, hreviewed]
  apply and_congr_right'
  apply and_congr_right'
  constructor
  · intro hnone entry hentry hper
    by_contra hfails
    rw [← not_or, not_not] at hfails
    obtain ⟨l, hl, hper, hfails⟩ := hfailed.mpr ⟨entry, hentry, hper, hfails⟩
    exact not_or.mpr (hnone l hl hper) hfails
  · intro hnone l hl hper
    by_contra hfails
    rw [← not_or, not_not] at hfails
    obtain ⟨entry, hentry, hper, hfails⟩ := hfailed.mp ⟨l, hl, hper, hfails⟩
    exact not_or.mpr (hnone entry hentry hper) hfails

/-- For every path the outcomes that stay vouch for, no replaced outcome failed it and none that
stays lists it as unanswered outside its coverage. -/
def AnsweredBesides : Prop :=
  ∀ path, Vouched diffs (keptOutcomes judge config diffs continuity scanFindings outcomes) path →
    ∀ entry ∈ outcomes, perFile entry.1 →
      if replaced judge config diffs continuity scanFindings outcomes entry.1 then
        ¬entry.2.fails path
      else path ∉ entry.2.unanswered

theorem certifiesOnlyReviewed_iff :
    CertifiesOnlyReviewed
        (proposalLanes judge highEntropy config diffs continuity scanFindings outcomes) diffs
        outcomes ↔
      AnsweredBesides judge config diffs continuity scanFindings outcomes := by
  have hkept : ∀ {entry}, entry ∈ outcomes →
      ¬replaced judge config diffs continuity scanFindings outcomes entry.1 →
      entry ∈ keptOutcomes judge config diffs continuity scanFindings outcomes := by
    intro entry hentry hstays
    exact List.mem_filter.mpr ⟨hentry, by simpa using hstays⟩
  constructor
  · intro hsound path hvouched entry hentry hper
    have hpath := mem_certified_proposalLanes judge highEntropy config diffs continuity scanFindings
      outcomes |>.mpr hvouched
    have hnot : ¬entry.2.fails path := by
      intro hfails
      exact (hsound path hpath entry hentry hper (by simp [LaneOutcome.mentions, hfails])).2 hfails
    split
    · exact hnot
    · intro hunanswered
      exact hnot (by simp [LaneOutcome.fails, hunanswered])
  · intro hbesides path hpath entry hentry hper hmentions
    have hvouched := mem_certified_proposalLanes judge highEntropy config diffs continuity
      scanFindings outcomes |>.mp hpath
    have hentryBesides := hbesides path hvouched entry hentry hper
    have hnot : ¬entry.2.fails path := by
      by_cases hreplaced : replaced judge config diffs continuity scanFindings outcomes entry.1
      · simpa only [hreplaced, if_true] using hentryBesides
      · have hanswered : path ∉ entry.2.unanswered := by simpa [hreplaced] using hentryBesides
        obtain ⟨hopen, homitted⟩ := hvouched.2.2 entry (hkept hentry hreplaced) hper
        simpa [LaneOutcome.fails, hanswered, hopen] using homitted
    exact ⟨by simpa [LaneOutcome.mentions, hnot] using hmentions, hnot⟩

end Pipeline

/-- The security reviewer never answered for `a`; critique did. -/
def halfReviewed : List (LaneId × LaneOutcome ℕ) :=
  [(.critique, fileOutcome [['a']] []), (.security, fileOutcome [] [['a']])]

def workflowHit : Scan.Finding where
  kind := .workflow
  severity := .high
  path := ".github/workflows/ci.yml".toList
  line := some 1
  rule := "workflow-write-all"
  title := "`permissions: write-all` grants the job every scope".toList
  detail := "Grant only what the job uses, e.g. `contents: read` plus `checks: write`. A token " ++
    "with every scope is a token worth stealing, and any action in the job can read it."

theorem certifies_replaced_failure :
    ¬CertifiesOnlyReviewed
      (proposalLanes bareJudgement (fun _ => false) plainConfig [changedFile ['a']] firstReview
        [workflowHit] halfReviewed) [changedFile ['a']] halfReviewed := by
  intro hsound
  have hkept : keptOutcomes bareJudgement plainConfig [changedFile ['a']] firstReview [workflowHit]
      halfReviewed = [(.critique, fileOutcome [['a']] [])] := by decide
  have hvouched : Vouched [changedFile ['a']] [(.critique, fileOutcome [['a']] [])] ['a'] := by
    refine ⟨⟨changedFile ['a'], List.mem_singleton_self _, by decide, rfl⟩,
      ⟨_, List.mem_singleton_self _, by decide, by decide⟩, ?_⟩
    intro entry hentry _
    cases List.mem_singleton.mp hentry
    decide
  have hpath := mem_certified_proposalLanes bareJudgement (fun _ => false) plainConfig
    [changedFile ['a']] firstReview [workflowHit] halfReviewed |>.mpr (hkept ▸ hvouched)
  have hreviewed := hsound ['a'] hpath (.security, fileOutcome [] [['a']]) (by simp [halfReviewed])
    (by decide) (by decide)
  exact hreviewed.2 (by decide)

end TinySweeper.App
