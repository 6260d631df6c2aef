import TinySweeper.Dialogue
import TinySweeper.Harness.Prompt
import TinySweeper.PrTriage.Labels

/-!
# Issue triage

An issue is read, a model is asked about it, and what it answers is checked against the
forge before a plan is made and carried out. The model is given a shortlist of issues like
it, and a claim is heard only about these.
-/

namespace TinySweeper.Issues

open Text Harness PrTriage

structure Issue where
  number : ℕ
  title : Text
  body : Text
  author : Text
  labels : List Text
  isOpen : Bool
  ageDays : ℕ
  quietDays : ℕ
  issueType : Option Text

structure IssueComment where
  author : Text
  body : Text

structure PullRequest where
  number : ℕ
  merged : Bool

inductive Priority where
  | p0
  | p1
  | p2
  | p3

def Priority.label : Priority → Text
  | .p0 => "priority: p0".toList
  | .p1 => "priority: p1".toList
  | .p2 => "priority: p2".toList
  | .p3 => "priority: p3".toList

inductive IssueKind where
  | bug
  | feature
  | task

def IssueKind.asStr : IssueKind → Text
  | .bug => "bug".toList
  | .feature => "feature".toList
  | .task => "task".toList

inductive ClaimKind where
  | duplicate
  | resolved
  deriving DecidableEq

structure DuplicateClaim where
  kind : ClaimKind
  number : ℕ
  confidence : ℚ

/-- What a model said about an issue. -/
structure IssueVerdict where
  kind : Option IssueKind := none
  priority : Option Priority := none
  summary : Text := []
  claim : Option DuplicateClaim := none

structure ClosePlan where
  kind : ClaimKind
  reference : ℕ
  dryRun : Bool

/-- What is to be done about an issue. -/
structure TriagePlan where
  number : ℕ := 0
  addLabels : List Text := []
  removeLabels : List Text := []
  declinedLabels : List (Text × String) := []
  setIssueType : Option Text := none
  declinedIssueType : Option String := none
  comment : Option Text := none
  close : Option ClosePlan := none
  closeRefusal : Option String := none

structure TriageOutcome where
  plan : TriagePlan := {}
  verdict : IssueVerdict := {}
  skipped : Option String := none

structure IssueClose where
  enabled : Bool
  minAgeDays : ℕ
  quietDays : ℕ
  confidenceMin : ℚ
  protectedLabels : List Text
  protectedAuthors : List Text
  dryRun : Bool

/-- The `issues` section of the configuration. -/
structure Policy where
  enabled : Bool
  comment : Bool
  applyLabels : Bool
  maxLabels : ℕ
  applyIssueType : Bool
  allowLabels : List Text
  blockLabels : List Text
  dedupe : Bool
  dedupeConfidenceMin : ℚ
  close : IssueClose
  flagPromotional : Bool

/-- What is wrong with a section. -/
inductive Problem where
  | dedupeConfidence
  | maxLabels
  | closeConfidence
  | closeWithoutTriage
  | closeWithoutAge
  deriving DecidableEq

def validateIssues (issues : Policy) : List Problem :=
  (if 0 ≤ issues.dedupeConfidenceMin ∧ issues.dedupeConfidenceMin ≤ 1 then []
    else [.dedupeConfidence]) ++
  (if issues.applyLabels && issues.maxLabels = 0 then [.maxLabels] else []) ++
  (if 0 ≤ issues.close.confidenceMin ∧ issues.close.confidenceMin ≤ 1 then []
    else [.closeConfidence]) ++
  (if issues.close.enabled && !issues.enabled then [.closeWithoutTriage] else []) ++
  if issues.close.enabled && !issues.close.dryRun && issues.close.minAgeDays = 0 then
    [.closeWithoutAge] else []

def SCAN_LIMIT : ℕ := 200

def MAX_CANDIDATES : ℕ := 5

def MIN_SIMILARITY : ℚ := 15 / 100

structure Candidate where
  number : ℕ
  title : Text
  score : ℚ
  ageDays : ℕ

section Shortlist

-- The classes of characters and the lower case, as Unicode has them.
variable (isAlphanumeric : Char → Bool) (toLowercase : Text → Text)

def tokens (title body : Text) : Finset Text :=
  (([title, body].flatMap fun text => text.splitOnP (!isAlphanumeric ·)).filter
    (1 < ·.length)).map toLowercase |>.toFinset

def jaccard (left right : Finset Text) : ℚ :=
  if (left ∪ right).card = 0 then 0 else (left ∩ right).card / (left ∪ right).card

/-- The best first; of two alike, the older number. -/
def Candidate.before (a b : Candidate) : Prop :=
  b.score < a.score ∨ b.score = a.score ∧ a.number ≤ b.number

instance : DecidableRel Candidate.before := fun a b =>
  inferInstanceAs (Decidable (b.score < a.score ∨ b.score = a.score ∧ a.number ≤ b.number))

def shortlist (subject : Issue) (others : List Issue) (limit : ℕ) : List Candidate :=
  let mine := tokens isAlphanumeric toLowercase subject.title subject.body
  if mine = ∅ then []
  else
    let scored := (others.filter (·.number ≠ subject.number)).filterMap fun other =>
      let score := jaccard mine (tokens isAlphanumeric toLowercase other.title other.body)
      if MIN_SIMILARITY ≤ score then some ⟨other.number, other.title, score, other.ageDays⟩
      else none
    (scored.insertionSort Candidate.before).take limit

end Shortlist

def MAX_COMMENTS : ℕ := 10

/-- What the model is told about one issue; `twoDigits` writes a score. -/
def suffix (twoDigits : ℚ → Text) (issue : Issue) (comments : List IssueComment)
    (candidates : List Candidate) : Text :=
  "The issue to triage:\n\n".toList ++
    pushFenced "untrusted-issue".toList
      ("#".toList ++ decimal issue.number ++ ": ".toList ++ issue.title ++ "\n\n".toList ++
        issue.body) ++
    (if comments = [] then []
      else
        let shown := (comments.reverse.take MAX_COMMENTS).reverse.map fun comment =>
          comment.author ++ ": ".toList ++ comment.body
        "\nIts most recent comments:\n\n".toList ++
          pushFenced "untrusted-issue-comments".toList ("\n\n".toList.intercalate shown)) ++
    if candidates = [] then
      "\nNo candidate duplicates were found, so \x60duplicate_of\x60 and \x60resolved_by\x60 must both be null.\n".toList
    else
      let rendered := candidates.map fun candidate =>
        "#".toList ++ decimal candidate.number ++ " (".toList ++ twoDigits candidate.score ++
          ", ".toList ++ decimal candidate.ageDays ++ " days old): ".toList ++ candidate.title
      "\nThe only numbers you may name, with their similarity score and age in days:\n\n".toList ++
        pushFenced "untrusted-candidates".toList (['\n'].intercalate rendered)

/-- A value of the model's answer; a number is written with or without a fraction. -/
inductive Json where
  | null
  | bool (value : Bool)
  | integer (value : ℤ)
  | real (value : ℚ)
  | string (value : Text)
  | array (items : List Json)
  | object (entries : List (Text × Json))

def Json.asU64 : Json → Option ℕ
  | .integer value => if 0 ≤ value ∧ value < 2 ^ 64 then some value.toNat else none
  | _ => none

def Json.asF64 : Json → Option ℚ
  | .integer value => some value
  | .real value => some value
  | _ => none

def Json.asStr : Json → Option Text
  | .string value => some value
  | _ => none

def parseKind (text : Text) : Option IssueKind :=
  let text := toAsciiLowercase (trim text)
  if text = "bug".toList then some .bug
  else if text = "feature".toList then some .feature
  else if text = "task".toList then some .task
  else none

def parsePriority (text : Text) : Option Priority :=
  let text := toAsciiLowercase (trim text)
  if text = "p0".toList then some .p0
  else if text = "p1".toList then some .p1
  else if text = "p2".toList then some .p2
  else if text = "p3".toList then some .p3
  else none

def parseVerdict : Json → Except Text IssueVerdict
  | .object entries =>
    let get (key : String) : Option Json := entries.lookup key.toList
    let number (key : String) : Option ℕ := ((get key).bind Json.asU64).filter (0 < ·)
    let confidence := ((get "confidence").bind Json.asF64).getD 0
    -- An answer that names both is read as a duplicate.
    let claim := ((number "duplicate_of").map (⟨.duplicate, ·, confidence⟩)).or
      ((number "resolved_by").map (⟨.resolved, ·, confidence⟩))
    .ok
      { kind := ((get "type").bind Json.asStr).bind parseKind
        priority := ((get "priority").bind Json.asStr).bind parsePriority
        summary := ((get "summary").bind Json.asStr).getD []
        claim }
  | _ => .error "issue triage answer is not an object".toList

/-- What the forge says about the number that was named. -/
inductive Referenced where
  | issue (number : ℕ) (isOpen : Bool) (ageDays : ℕ)
  | mergedPull (number : ℕ)
  | unmergedPull (number : ℕ)

inductive CloseOutcome where
  | close (plan : ClosePlan)
  | refuse (reason : String)

structure CloseInputs where
  subject : Issue
  claim : Option DuplicateClaim
  referenced : Option Referenced
  candidates : List ℕ
  maintainers : List Text
  policy : IssueClose

def decideReference (claim : DuplicateClaim) (subject : Issue) (policy : IssueClose) :
    Option Referenced → CloseOutcome
  | none => .refuse "the reference could not be verified on the forge"
  | some referenced =>
    match claim.kind, referenced with
    | .duplicate, .issue _ _ ageDays =>
      if ageDays ≤ subject.ageDays then
        .refuse "the named duplicate is not older than this issue"
      else .close ⟨claim.kind, claim.number, policy.dryRun⟩
    | .duplicate, _ => .refuse "the named duplicate is not an issue"
    | .resolved, .mergedPull _ => .close ⟨claim.kind, claim.number, policy.dryRun⟩
    | .resolved, _ => .refuse "the named fix is not a merged pull request"

def decide (inputs : CloseInputs) : CloseOutcome :=
  let policy := inputs.policy
  let subject := inputs.subject
  if !policy.enabled then .refuse "issues.close.enabled is off"
  else if !subject.isOpen then .refuse "the issue is already closed"
  else
    match inputs.claim with
    | none => .refuse "no duplicate or fix was proposed"
    | some claim =>
      if claim.confidence < policy.confidenceMin then
        .refuse "below issues.close.confidence_min"
      else if claim.number ∉ inputs.candidates then
        .refuse "the reference was not one of the candidates offered"
      else if claim.number = subject.number then
        .refuse "an issue cannot be a duplicate of itself"
      else if subject.ageDays < policy.minAgeDays then
        .refuse "younger than issues.close.min_age_days"
      else if subject.quietDays < policy.quietDays then
        .refuse "active within issues.close.quiet_days"
      else if subject.labels.any (PrTriage.contains policy.protectedLabels) then
        .refuse "carries a protected label"
      else if PrTriage.contains inputs.maintainers subject.author ||
          PrTriage.contains policy.protectedAuthors subject.author then
        .refuse "opened by a maintainer or a protected author"
      else decideReference claim subject policy inputs.referenced

inductive KindDecision where
  | set (name : Text)
  | skip (reason : String)

def planKind (kind : Option IssueKind) (current : Option Text) (available : List Text)
    (enabled : Bool) : KindDecision :=
  if !enabled then .skip "issues.apply_issue_type is off"
  else if current.isSome then .skip "the issue already carries an issue type"
  else if available.isEmpty then .skip "this owner defines no issue types"
  else
    match kind with
    | none => .skip "the model gave no classification"
    | some kind =>
      match available.find? fun name => toAsciiLowercase name = toAsciiLowercase kind.asStr with
      | some name => .set name
      | none => .skip "no issue type matches the classification"

def MARKER : Text := "<!-- tinysweeper:issue-triage -->".toList

def ClosePlan.evidence (close : ClosePlan) : Text :=
  match close.kind with
  | .duplicate => "a duplicate of #".toList ++ decimal close.reference
  | .resolved => "fixed by #".toList ++ decimal close.reference

/-- What the comment says about closing. -/
def closeLine (close : ClosePlan) : Text :=
  if close.dryRun then
    "\ntinysweeper would close this as ".toList ++ close.evidence ++
      ", but \x60issues.close.dry_run\x60 is on, so nothing was changed.\n".toList
  else
    "\nClosing this as ".toList ++ close.evidence ++
      ". If that is wrong, reopen the issue — this was decided automatically and the reference above is the whole of the reasoning.\n".toList

def promotionLine (addLabels : List Text) (why : Text) : Text :=
  "\nThis reads like self-promotion: it matched ".toList ++ why ++
    ". That is a set of textual signals rather than a verdict, and nothing was closed on account of it.".toList ++
    (if addLabels.any fun label =>
        toAsciiLowercase label = toAsciiLowercase Flag.promotional.label then
      " If the signals are wrong, say so and clear the label.".toList else []) ++ ['\n']

def render (plan : TriagePlan) (summary : Text) (crossLink : Option ℕ) (promotion : Option Text) :
    Option Text :=
  if plan.addLabels.isEmpty && plan.close.isNone && crossLink.isNone && promotion.isNone then none
  else
    some (MARKER ++ ['\n'] ++
      (if trim summary = [] then [] else ['\n'] ++ trim summary ++ ['\n']) ++
      (match promotion with
        | some why => promotionLine plan.addLabels why
        | none => []) ++
      (if plan.addLabels = [] then []
        else "\nLabelled ".toList ++
          [' '].intercalate (plan.addLabels.map fun label => ['\x60'] ++ label ++ ['\x60']) ++
          ".\n".toList) ++
      match plan.close, crossLink with
      | some close, _ => closeLine close
      | none, some number =>
        "\nThis may be related to #".toList ++ decimal number ++
          ". Left open either way — tinysweeper only closes an issue when the match is unambiguous.\n".toList
      | none, none => [])

/-- A call to the forge or to the model. -/
inductive Call where
  | issue (number : ℕ)
  | openIssues (limit : ℕ)
  | comments (number : ℕ)
  | complete (prompt : Text)
  | issueTypes
  | pullRequest (number : ℕ)
  | addLabels (number : ℕ) (labels : List Text)
  | removeLabel (number : ℕ) (label : Text)
  | setIssueType (number : ℕ) (name : Text)
  | createComment (number : ℕ) (body : Text)
  | closeIssue (number : ℕ)
  deriving DecidableEq

def Call.Value : Call → Type
  | .issue _ => Issue
  | .openIssues _ => List Issue
  | .comments _ => List IssueComment
  | .complete _ => Json
  | .issueTypes => List Text
  | .pullRequest _ => PullRequest
  | _ => Unit

abbrev Call.Answer (call : Call) : Type := Except Text call.Value

abbrev Job (α : Type) : Type := Dialogue Call.Answer (Except Text α)

variable {α : Type}

/-- A call whose error ends the job. -/
def request (call : Call) (next : call.Value → Job α) : Job α :=
  .ask call fun answer =>
    match answer with
    | .error err => .done (.error err)
    | .ok value => next value

/-- The number a model named, as the forge has it. -/
def verify (claim : DuplicateClaim) : Dialogue Call.Answer (Option Referenced) :=
  match claim.kind with
  | .duplicate =>
    .ask (.issue claim.number) fun answer => .done (answer.toOption.map fun issue =>
      .issue issue.number issue.isOpen issue.ageDays)
  | .resolved =>
    .ask (.pullRequest claim.number) fun answer => .done (answer.toOption.map fun pull =>
      if pull.merged then .mergedPull pull.number else .unmergedPull pull.number)

structure Setting where
  isAlphanumeric : Char → Bool
  toLowercase : Text → Text
  twoDigits : ℚ → Text
  /-- What of a title and a body by an author reads as self-promotion. -/
  promotional : Text → Text → Text → Option Text

def suggestedLabels (verdict : IssueVerdict) (promotional : Bool) : List Text :=
  (verdict.priority.map Priority.label).toList ++
    if promotional then [Flag.promotional.label] else []

def Policy.labels (policy : Policy) : LabelPolicy where
  applyLabels := policy.applyLabels
  maxLabels := policy.maxLabels
  allowLabels := policy.allowLabels
  blockLabels := policy.blockLabels

section Job

variable (setting : Setting) (policy : Policy) (maintainers : List Text)

def offers (offered : List ℕ) (claim : DuplicateClaim) : Bool :=
  policy.dedupeConfidenceMin ≤ claim.confidence && offered.contains claim.number

/-- The plan once everything has been read. -/
def conclude (number : ℕ) (issue : Issue) (offered : List ℕ) (verdict : IssueVerdict)
    (available : List Text) (referenced : Option Referenced) : TriagePlan :=
  let promotion :=
    if policy.flagPromotional then setting.promotional issue.title issue.body issue.author
    else none
  let labelPlan := planLabels issue.labels (suggestedLabels verdict promotion.isSome) policy.labels
  let typeDecision := planKind verdict.kind issue.issueType available policy.applyIssueType
  let outcome := decide
    { subject := issue, claim := verdict.claim, referenced, candidates := offered, maintainers
      policy := policy.close }
  let plan : TriagePlan :=
    { number
      addLabels := labelPlan.add
      removeLabels := labelPlan.remove
      declinedLabels := labelPlan.declined
      setIssueType := match typeDecision with
        | .set name => some name
        | .skip _ => none
      declinedIssueType := match typeDecision with
        | .set _ => none
        | .skip reason => some reason
      close := match outcome with
        | .close close => some close
        | .refuse _ => none
      closeRefusal := match outcome with
        | .close _ => none
        | .refuse reason => some reason }
  let crossLink := match outcome with
    | .close _ => none
    | .refuse _ => (verdict.claim.filter (offers policy offered)).map (·.number)
  { plan with
    comment :=
      if policy.comment then render plan verdict.summary crossLink promotion else none }

def withCandidates (issue : Issue) (next : List Candidate → Job α) : Job α :=
  if policy.dedupe then
    request (.openIssues SCAN_LIMIT) fun others =>
      next (shortlist setting.isAlphanumeric setting.toLowercase issue others MAX_CANDIDATES)
  else next []

def withIssueTypes (next : List Text → Job α) : Job α :=
  if policy.applyIssueType then request .issueTypes next else next []

/-- Only a claim about an issue that was offered is worth a call. -/
def referencedBy (offered : List ℕ) : Option DuplicateClaim →
    Dialogue Call.Answer (Option Referenced)
  | some claim => if offers policy offered claim then verify claim else .done none
  | none => .done none

/-- One issue is read and a plan is made. -/
def triage (number : ℕ) : Job TriageOutcome :=
  if !policy.enabled then .done (.ok { skipped := some "issues.enabled is off" })
  else
    request (.issue number) fun issue =>
      if !issue.isOpen then .done (.ok { skipped := some "the issue is already closed" })
      else
        withCandidates setting policy issue fun candidates =>
          request (.comments number) fun comments =>
            request (.complete (suffix setting.twoDigits issue comments candidates)) fun value =>
              match parseVerdict value with
              | .error err => .done (.error err)
              | .ok verdict =>
                withIssueTypes policy fun available =>
                  let offered := candidates.map (·.number)
                  (referencedBy policy offered verdict.claim).bind fun referenced =>
                    .done (.ok
                      { plan := conclude setting policy maintainers number issue offered verdict
                          available referenced
                        verdict })

end Job

/-- The writes of a plan, in their order: an issue is closed after the comment on it. -/
def TriagePlan.writes (plan : TriagePlan) : List Call :=
  (if plan.addLabels = [] then [] else [.addLabels plan.number plan.addLabels]) ++
    plan.removeLabels.map (.removeLabel plan.number) ++
    (plan.setIssueType.map (.setIssueType plan.number)).toList ++
    (plan.comment.map (.createComment plan.number)).toList ++
    match plan.close with
    | some close => if close.dryRun then [] else [.closeIssue plan.number]
    | none => []

/-- The writes are made one after the other, up to the first that fails. -/
def writeAll : List Call → Job Unit
  | [] => .done (.ok ())
  | call :: rest => request call fun _ => writeAll rest

def applyPlan (plan : TriagePlan) : Job Unit := writeAll plan.writes

/-- An issue is triaged, and what was planned is done. -/
def triageAndApply (setting : Setting) (policy : Policy) (maintainers : List Text)
    (number : ℕ) : Job Unit :=
  (triage setting policy maintainers number).bind fun outcome =>
    match outcome with
    | .error err => .done (.error err)
    | .ok outcome => if outcome.skipped.isSome then .done (.ok ()) else applyPlan outcome.plan

end TinySweeper.Issues
