import TinySweeper.Text

/-!
# When a pull request may be closed

A verdict, the plan made from it, and the guards a close has to pass.
-/

namespace TinySweeper.PrTriage

open Text

/-- What is read of a pull request. -/
structure PullRequest where
  number : ℕ
  author : Text
  draft : Bool
  baseRef : Text
  headSha : Text
  labels : List Text
  isOpen : Bool
  merged : Bool
  ageDays : ℕ
  /-- Days since anything was written on it, the bot's own writes included. -/
  quietDays : ℕ
  deriving DecidableEq, Repr

/-- What a sweep concluded; overlaps are floating-point numbers `φ`. -/
inductive Verdict (φ : Type) where
  | duplicate (of : ℕ) (ofHeadSha : Text) (pathOverlap lineOverlap : φ)
  | superseded (baseRef baseSha : Text) (linesChecked : ℕ)
  | review (because : String)
  deriving DecidableEq, Repr

inductive Flag where
  | promotional
  deriving DecidableEq, Repr

structure ClosePlan where
  number : ℕ
  headSha : Text
  dryRun : Bool
  deriving DecidableEq, Repr

/-- What to do about one pull request. -/
structure TriagePlan (φ : Type) where
  number : ℕ
  headSha : Text
  verdict : Verdict φ
  flags : List (Flag × Text) := []
  addLabels : List Text := []
  removeLabels : List Text := []
  declinedLabels : List (Text × String) := []
  comment : Option Text := none
  commentId : Option ℕ := none
  close : Option ClosePlan := none
  closeRefusal : Option String := none
  deriving DecidableEq, Repr

structure PrClose where
  enabled : Bool
  minAgeDays : ℕ
  quietDays : ℕ
  protectedLabels : List Text
  protectedAuthors : List Text
  dryRun : Bool
  deriving DecidableEq, Repr

structure Policy (φ : Type) where
  enabled : Bool
  maxPullRequests : ℕ
  maxLandedFiles : ℕ
  minLandedLines : ℕ
  maxBaseReads : ℕ
  duplicatePathOverlapMin : φ
  duplicateLineOverlapMin : φ
  comment : Bool
  applyLabels : Bool
  flagPromotional : Bool
  close : PrClose

structure Config (φ : Type) where
  prTriage : Policy φ
  /-- Labels that switch the bot off on an item. -/
  blockLabels : List Text

variable {φ : Type}

def Verdict.label : Verdict φ → Text
  | .duplicate .. => "triage: duplicate".toList
  | .superseded .. => "triage: superseded".toList
  | .review _ => "triage: review".toList

def Verdict.labels : List Text :=
  ["triage: duplicate".toList, "triage: superseded".toList, "triage: review".toList]

def Verdict.isCloseable : Verdict φ → Bool
  | .review _ => false
  | _ => true

def Flag.label : Flag → Text
  | .promotional => "flag: promotional".toList

def Flag.labels : List Text := [Flag.promotional.label]

/-- Labels and logins are compared without regard to case. -/
def same (left right : Text) : Bool := toAsciiLowercase (trim left) = toAsciiLowercase (trim right)

def contains (haystack : List Text) (needle : Text) : Bool :=
  haystack.any fun item => same item needle

inductive GateOutcome where
  | close (plan : ClosePlan)
  | refuse (reason : String)
  deriving DecidableEq, Repr

def gateDecide (subject : PullRequest) (verdict : Verdict φ) (maintainers : List Text)
    (policy : PrClose) : GateOutcome :=
  if !policy.enabled then .refuse "pr_triage.close.enabled is off"
  else if !verdict.isCloseable then .refuse "the sweep found nothing that justifies a close"
  else if subject.merged then .refuse "it is already merged"
  else if !subject.isOpen then .refuse "it is already closed"
  else if subject.draft then .refuse "it is a draft"
  else if subject.ageDays < policy.minAgeDays then
    .refuse "younger than pr_triage.close.min_age_days"
  else if subject.quietDays < policy.quietDays then
    .refuse "active within pr_triage.close.quiet_days"
  else if subject.labels.any fun label => contains policy.protectedLabels label then
    .refuse "carries a protected label"
  else if contains maintainers subject.author || contains policy.protectedAuthors subject.author then
    .refuse "opened by a maintainer or a protected author"
  else
    match verdict with
    | .duplicate of .. =>
      if of ≥ subject.number then
        .refuse "the named original is not older than this pull request"
      else .close ⟨subject.number, subject.headSha, policy.dryRun⟩
    | _ => .close ⟨subject.number, subject.headSha, policy.dryRun⟩

/-- The verdict names an older pull request, if it names one. -/
def Verdict.NamesOlder (number : ℕ) : Verdict φ → Prop
  | .duplicate of .. => of < number
  | _ => True

/-- What the gate asks of a pull request, its age apart. -/
structure Closeable (maintainers : List Text) (policy : PrClose) (subject : PullRequest) :
    Prop where
  isOpen : subject.isOpen = true
  unmerged : subject.merged = false
  ready : subject.draft = false
  unprotected : ∀ label ∈ subject.labels, contains policy.protectedLabels label = false
  author : contains maintainers subject.author = false ∧
    contains policy.protectedAuthors subject.author = false

/-- A guard that holds refuses. -/
theorem past_guard {guard : Prop} [Decidable guard] {reason : String} {otherwise : GateOutcome}
    {plan : ClosePlan} (h : (if guard then .refuse reason else otherwise) = .close plan) :
    ¬guard ∧ otherwise = .close plan := by
  split_ifs at h with hguard
  exact ⟨hguard, h⟩

/-- Only what passes every guard is closed. -/
theorem gateDecide_eq_close {subject : PullRequest} {verdict : Verdict φ} {maintainers : List Text}
    {policy : PrClose} {plan : ClosePlan}
    (h : gateDecide subject verdict maintainers policy = .close plan) :
    Closeable maintainers policy subject ∧ policy.minAgeDays ≤ subject.ageDays ∧
      policy.quietDays ≤ subject.quietDays ∧ verdict.isCloseable = true ∧
      verdict.NamesOlder subject.number := by
  unfold gateDecide at h
  obtain ⟨-, h⟩ := past_guard h
  obtain ⟨hverdict, h⟩ := past_guard h
  obtain ⟨hmerged, h⟩ := past_guard h
  obtain ⟨hopen, h⟩ := past_guard h
  obtain ⟨hdraft, h⟩ := past_guard h
  obtain ⟨hage, h⟩ := past_guard h
  obtain ⟨hquiet, h⟩ := past_guard h
  obtain ⟨hlabels, h⟩ := past_guard h
  obtain ⟨hauthor, h⟩ := past_guard h
  have hnames : verdict.NamesOlder subject.number := by
    cases verdict with
    | duplicate of ofHeadSha pathOverlap lineOverlap =>
      by_contra hnot
      simp only [Verdict.NamesOlder, not_lt] at hnot
      simp only [if_pos hnot] at h
      cases h
    | superseded => trivial
    | review => trivial
  refine ⟨⟨by simpa using hopen, by simpa using hmerged, by simpa using hdraft, ?_, ?_⟩,
    not_lt.mp hage, not_lt.mp hquiet, by simpa using hverdict, hnames⟩
  · simpa using hlabels
  · simpa using hauthor

end TinySweeper.PrTriage
