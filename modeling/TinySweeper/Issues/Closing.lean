import TinySweeper.Issues.Triage
import TinySweeper.Runs

/-!
# What issue triage closes

Whatever the model and the forge answer, an issue is closed only on grounds that were read
before. Many jobs run at once, days pass and others edit the issues in between: from every
issue that was closed as a duplicate, the references lead to one that was not.
-/

namespace TinySweeper.Issues

open Text PrTriage Dialogue

abbrev Said : Type := List (Exchange Call.Answer)

/-- What the policy has to say about closing an issue on a claim. -/
structure Permits (close : IssueClose) (maintainers : List Text) (subject : Issue)
    (claim : DuplicateClaim) : Prop where
  enabled : close.enabled = true
  isOpen : subject.isOpen = true
  confident : close.confidenceMin ≤ claim.confidence
  distinct : claim.number ≠ subject.number
  aged : close.minAgeDays ≤ subject.ageDays
  quiet : close.quietDays ≤ subject.quietDays
  labels : ∀ label ∈ subject.labels, PrTriage.contains close.protectedLabels label = false
  maintainers : PrTriage.contains maintainers subject.author = false
  authors : PrTriage.contains close.protectedAuthors subject.author = false

/-- What the forge has to say for a claim. -/
inductive Vouched (subject : Issue) (claim : DuplicateClaim) : Referenced → Prop where
  | older (number : ℕ) (isOpen : Bool) (ageDays : ℕ) (hkind : claim.kind = .duplicate)
    (hage : subject.ageDays < ageDays) : Vouched subject claim (.issue number isOpen ageDays)
  | merged (number : ℕ) (hkind : claim.kind = .resolved) :
    Vouched subject claim (.mergedPull number)

theorem refuse_or_eq_close {refused : Prop} [Decidable refused] {reason : String}
    {outcome : CloseOutcome} {plan : ClosePlan} :
    (if refused then .refuse reason else outcome) = CloseOutcome.close plan ↔
      ¬refused ∧ outcome = .close plan := by
  by_cases hrefused : refused
  · simp [hrefused]
  · simp [hrefused]

theorem decideReference_close {claim : DuplicateClaim} {subject : Issue} {policy : IssueClose}
    {referenced : Option Referenced} {plan : ClosePlan}
    (h : decideReference claim subject policy referenced = .close plan) :
    ∃ found, referenced = some found ∧ Vouched subject claim found ∧
      plan = ⟨claim.kind, claim.number, policy.dryRun⟩ := by
  cases referenced with
  | none => cases h
  | some found =>
    refine ⟨found, rfl, ?_⟩
    unfold decideReference at h
    cases hkind : claim.kind <;> cases found <;> rw [hkind] at h <;> dsimp only at h
    case duplicate.issue number isOpen ageDays =>
      obtain ⟨hage, hplan⟩ := refuse_or_eq_close.mp h
      cases hplan
      exact ⟨.older number isOpen ageDays hkind (not_le.mp hage), rfl⟩
    case resolved.mergedPull number =>
      cases h
      exact ⟨.merged number hkind, rfl⟩
    all_goals cases h

/-- A close has passed every guard. -/
theorem decide_close {inputs : CloseInputs} {plan : ClosePlan} (h : decide inputs = .close plan) :
    ∃ claim referenced, inputs.claim = some claim ∧ inputs.referenced = some referenced ∧
      claim.number ∈ inputs.candidates ∧
      Permits inputs.policy inputs.maintainers inputs.subject claim ∧
      Vouched inputs.subject claim referenced ∧
      plan = ⟨claim.kind, claim.number, inputs.policy.dryRun⟩ := by
  unfold decide at h
  dsimp only at h
  rw [refuse_or_eq_close, refuse_or_eq_close] at h
  obtain ⟨henabled, hopen, h⟩ := h
  cases hclaim : inputs.claim with
  | none =>
    rw [hclaim] at h
    cases h
  | some claim =>
    rw [hclaim] at h
    dsimp only at h
    simp only [refuse_or_eq_close] at h
    obtain ⟨hconfident, hoffered, hdistinct, haged, hquiet, hlabels, hauthors, h⟩ := h
    obtain ⟨found, hfound, hvouched, hplan⟩ := decideReference_close h
    rw [Bool.not_eq_true, Bool.or_eq_false_iff] at hauthors
    simp only [List.any_eq_true, not_exists, not_and, Bool.not_eq_true] at hlabels
    exact ⟨claim, found, rfl, hfound, not_not.mp hoffered,
      { enabled := by simpa using henabled
        isOpen := by simpa using hopen
        confident := not_lt.mp hconfident
        distinct := hdistinct
        aged := not_lt.mp haged
        quiet := not_lt.mp hquiet
        labels := hlabels
        maintainers := hauthors.1
        authors := hauthors.2 }, hvouched, hplan⟩

/-- A read that bears a claim out. -/
inductive Vouches (subject : Issue) (claim : DuplicateClaim) : Exchange Call.Answer → Prop where
  | older (reference : Issue) (hkind : claim.kind = .duplicate)
      (hage : subject.ageDays < reference.ageDays) :
    Vouches subject claim ⟨.issue claim.number, .ok reference⟩
  | merged (pull : PullRequest) (hkind : claim.kind = .resolved) (hmerged : pull.merged = true) :
    Vouches subject claim ⟨.pullRequest claim.number, .ok pull⟩

def claimIn : Exchange Call.Answer → Option DuplicateClaim
  | ⟨.complete _, .ok value⟩ => (parseVerdict value).toOption.bind (·.claim)
  | _ => none

/-- The claim of the model, once it has answered. -/
def claimOf (said : Said) : Option DuplicateClaim := said.findSome? claimIn

/-- The issue is on the shortlist, which was drawn from the issues that the forge listed. -/
def Offered (setting : Setting) (number : ℕ) (subject : Issue) (said : Said) (n : ℕ) : Prop :=
  ∃ others : List Issue,
    [⟨.issue number, .ok subject⟩, ⟨.openIssues SCAN_LIMIT, .ok others⟩].Sublist said ∧
    n ∈ (shortlist setting.isAlphanumeric setting.toLowercase subject others
      MAX_CANDIDATES).map (·.number) ∧
    ∃ other ∈ others, other.number = n ∧
      MIN_SIMILARITY ≤ jaccard
        (tokens setting.isAlphanumeric setting.toLowercase subject.title subject.body)
        (tokens setting.isAlphanumeric setting.toLowercase other.title other.body)

/-- Why an issue may be closed, and the last read that it rests on. -/
structure Grounds (setting : Setting) (policy : Policy) (maintainers : List Text) (number : ℕ)
    (said : Said) (claim : DuplicateClaim) (subject : Issue) (read : Exchange Call.Answer) :
    Prop where
  claimed : claimOf said = some claim
  offered : Offered setting number subject said claim.number
  permits : Permits policy.close maintainers subject claim
  vouches : Vouches subject claim read
  asked : ∃ prompt value, [⟨.issue number, .ok subject⟩, ⟨.complete prompt, .ok value⟩,
    read].Sublist said

/-- An issue is closed only on grounds, and after a comment that names them. -/
def mayAsk (setting : Setting) (policy : Policy) (maintainers : List Text) (number : ℕ)
    (said : Said) : Call → Prop
  | .closeIssue n =>
    n = number ∧ policy.close.dryRun = false ∧
      ∃ claim subject read, Grounds setting policy maintainers number said claim subject read ∧
        (policy.comment = true → ∃ body,
          [read, ⟨.createComment number body, .ok ()⟩].Sublist said ∧
            closeLine ⟨claim.kind, claim.number, false⟩ <:+: body)
  | _ => True

section Program

variable {setting : Setting} {policy : Policy} {maintainers : List Text} {number : ℕ}
  {α : Type} {guard : Said → Call → Prop} {ends : Said → Except Text α → Prop} {said : Said}

theorem request_guarded {call : Call} {next : call.Value → Job α} (hguard : guard said call)
    (herror : ∀ err, ends (said ++ [⟨call, .error err⟩]) (.error err))
    (hnext : ∀ value, Guarded guard ends (said ++ [⟨call, .ok value⟩]) (next value)) :
    Guarded guard ends said (request call next) := by
  refine ⟨hguard, fun answer => ?_⟩
  cases answer with
  | error err => exact herror err
  | ok value => exact hnext value

theorem mem_shortlist {isAlphanumeric : Char → Bool} {toLowercase : Text → Text} {subject : Issue}
    {others : List Issue} {limit n : ℕ}
    (h : n ∈ (shortlist isAlphanumeric toLowercase subject others limit).map (·.number)) :
    ∃ other ∈ others, other.number = n ∧
      MIN_SIMILARITY ≤ jaccard (tokens isAlphanumeric toLowercase subject.title subject.body)
        (tokens isAlphanumeric toLowercase other.title other.body) := by
  obtain ⟨candidate, hcandidate, rfl⟩ := List.mem_map.mp h
  unfold shortlist at hcandidate
  dsimp only at hcandidate
  split_ifs at hcandidate
  · cases hcandidate
  · have hscored := (List.mem_insertionSort _).mp (List.mem_of_mem_take hcandidate)
    obtain ⟨other, hother, hsome⟩ := List.mem_filterMap.mp hscored
    split_ifs at hsome with hscore
    obtain rfl := Option.some.inj hsome
    exact ⟨other, List.mem_of_mem_filter hother, rfl, hscore⟩

/-- Where the shortlist is drawn, it is drawn from what was listed. -/
theorem withCandidates_guarded {subject : Issue} {next : List Candidate → Job α}
    (hguard : ∀ said, guard said (.openIssues SCAN_LIMIT))
    (herror : ∀ said err, ends said (.error err))
    (hsubject : said = [⟨.issue number, .ok subject⟩])
    (hnext : ∀ candidates said', claimOf said' = none →
      [⟨.issue number, .ok subject⟩].Sublist said' →
      (∀ n ∈ candidates.map (·.number), Offered setting number subject said' n) →
      Guarded guard ends said' (next candidates)) :
    Guarded guard ends said (withCandidates setting policy subject next) := by
  subst hsubject
  unfold withCandidates
  split_ifs
  · refine request_guarded (hguard _) (fun err => herror _ err) fun others => ?_
    refine hnext _ _ rfl (List.sublist_append_left _ _) fun n hn => ?_
    exact ⟨others, List.Sublist.refl _, hn, mem_shortlist hn⟩
  · exact hnext [] _ rfl (List.Sublist.refl _) (List.forall_mem_nil _)

theorem Offered.mono {subject : Issue} {n : ℕ} (h : Offered setting number subject said n)
    (more : Said) : Offered setting number subject (said ++ more) n := by
  obtain ⟨others, hsublist, hother⟩ := h
  exact ⟨others, hsublist.trans (List.sublist_append_left _ _), hother⟩

theorem claimOf_append {claim : DuplicateClaim} (h : claimOf said = some claim) (more : Said) :
    claimOf (said ++ more) = some claim := by
  unfold claimOf at h ⊢
  rw [List.findSome?_append, h]
  rfl

theorem Grounds.mono {claim : DuplicateClaim} {subject : Issue} {read : Exchange Call.Answer}
    (h : Grounds setting policy maintainers number said claim subject read) (more : Said) :
    Grounds setting policy maintainers number (said ++ more) claim subject read := by
  obtain ⟨prompt, value, hasked⟩ := h.asked
  exact
    { claimed := claimOf_append h.claimed more
      offered := h.offered.mono more
      permits := h.permits
      vouches := h.vouches
      asked := ⟨prompt, value, hasked.trans (List.sublist_append_left _ _)⟩ }

/-- The read that a claim is checked by. -/
theorem verify_guarded {claim : DuplicateClaim} (hguard : ∀ call, (∀ n, call ≠ .closeIssue n) →
      guard said call) :
    Guarded guard (fun said' referenced => ∃ read, said' = said ++ [read] ∧
      ∀ subject found, referenced = some found → Vouched subject claim found →
        Vouches subject claim read) said (verify claim) := by
  unfold verify
  cases hkind : claim.kind with
  | duplicate =>
    refine ⟨hguard _ (fun n h => by cases h), fun answer => ⟨_, rfl, ?_⟩⟩
    intro subject found hfound hvouched
    cases answer with
    | error err => cases hfound
    | ok reference =>
      cases hfound
      cases hvouched with
      | older _ _ _ _ hage => exact .older reference hkind hage
  | resolved =>
    refine ⟨hguard _ (fun n h => by cases h), fun answer => ⟨_, rfl, ?_⟩⟩
    intro subject found hfound hvouched
    cases answer with
    | error err => cases hfound
    | ok pull =>
      cases hmerged : pull.merged with
      | false =>
        rw [Except.toOption, Option.map_some, hmerged] at hfound
        cases hfound
        cases hvouched
      | true => exact .merged pull hkind hmerged

theorem render_close {plan : TriagePlan} {close : ClosePlan} (h : plan.close = some close)
    (summary : Text) (crossLink : Option ℕ) (promotion : Option Text) :
    ∃ body, render plan summary crossLink promotion = some body ∧ closeLine close <:+: body := by
  unfold render
  rw [h, Option.isNone_some, Bool.and_false, Bool.false_and, Bool.false_and]
  refine ⟨_, rfl, ?_⟩
  exact (List.suffix_append _ _).isInfix

theorem conclude_close {issue : Issue} {offered : List ℕ} {verdict : IssueVerdict}
    {available : List Text} {referenced : Option Referenced} {close : ClosePlan}
    (h : (conclude setting policy maintainers number issue offered verdict available
      referenced).close = some close) :
    decide { subject := issue, claim := verdict.claim, referenced, candidates := offered, maintainers
             policy := policy.close } = .close close ∧
      (policy.comment = true → ∃ body, (conclude setting policy maintainers number issue offered
        verdict available referenced).comment = some body ∧ closeLine close <:+: body) := by
  constructor
  · unfold conclude at h
    dsimp only at h
    split at h
    · next plan hplan => rw [hplan, Option.some.inj h]
    · cases h
  · intro hcomment
    unfold conclude at h ⊢
    dsimp only at h ⊢
    rw [if_pos hcomment]
    exact render_close h _ _ _

/-- A plan closes only on grounds, and says so. -/
def Planned (setting : Setting) (policy : Policy) (maintainers : List Text) (number : ℕ)
    (said : Said) (plan : TriagePlan) : Prop :=
  plan.number = number ∧ ∀ close, plan.close = some close →
    ∃ claim subject read, Grounds setting policy maintainers number said claim subject read ∧
      close = ⟨claim.kind, claim.number, policy.close.dryRun⟩ ∧
        (policy.comment = true → ∃ body, plan.comment = some body ∧ closeLine close <:+: body)

theorem conclude_planned {issue : Issue} {offered : List ℕ} {verdict : IssueVerdict}
    {available : List Text} {referenced : Option Referenced}
    (hoffered : ∀ n ∈ offered, Offered setting number issue said n)
    (hreferenced : ∀ claim found, verdict.claim = some claim → referenced = some found →
      Vouched issue claim found → claimOf said = some claim ∧ ∃ read prompt value,
        [⟨.issue number, .ok issue⟩, ⟨.complete prompt, .ok value⟩, read].Sublist said ∧
          Vouches issue claim read) :
    Planned setting policy maintainers number said
      (conclude setting policy maintainers number issue offered verdict available referenced) := by
  refine ⟨rfl, fun close hclose => ?_⟩
  obtain ⟨hdecide, hcomment⟩ := conclude_close hclose
  obtain ⟨claim, found, hsome, hfound, hmem, hpermits, hvouched, rfl⟩ := decide_close hdecide
  obtain ⟨hclaimed, read, prompt, value, hasked, hvouches⟩ :=
    hreferenced claim found hsome hfound hvouched
  exact ⟨claim, issue, read,
    { claimed := hclaimed
      offered := hoffered _ hmem
      permits := hpermits
      vouches := hvouches
      asked := ⟨prompt, value, hasked⟩ }, rfl, hcomment⟩

/-- A triage that goes through ends in a grounded plan, or does nothing. -/
def Concluded (setting : Setting) (policy : Policy) (maintainers : List Text) (number : ℕ)
    (said : Said) : Except Text TriageOutcome → Prop
  | .error _ => True
  | .ok outcome =>
    outcome.skipped = none → Planned setting policy maintainers number said outcome.plan

/-- Once the model has answered, the reference is read and the plan concluded. -/
theorem referencedBy_guarded {issue : Issue} {offered : List ℕ} {verdict : IssueVerdict}
    {available : List Text}
    (hguard : ∀ said call, (∀ n, call ≠ .closeIssue n) → guard said call)
    (hoffered : ∀ n ∈ offered, Offered setting number issue said n)
    (hclaimed : ∀ claim, verdict.claim = some claim → claimOf said = some claim)
    (hasked : ∃ prompt value,
      [⟨.issue number, .ok issue⟩, ⟨.complete prompt, .ok value⟩].Sublist said) :
    Guarded guard (Concluded setting policy maintainers number) said
      ((referencedBy policy offered verdict.claim).bind fun referenced =>
        .done (.ok
          { plan := conclude setting policy maintainers number issue offered verdict available
              referenced
            verdict })) := by
  cases hclaim : verdict.claim with
  | none =>
    intro _
    refine conclude_planned hoffered fun claim found hsome => ?_
    rw [hclaim] at hsome
    cases hsome
  | some claim =>
    unfold referencedBy
    dsimp only
    split_ifs
    · refine guarded_bind (verify_guarded (hguard said) |>.mono (fun _ _ h => h) ?_)
      rintro _ referenced ⟨read, rfl, hread⟩ _
      refine conclude_planned (fun n hn => (hoffered n hn).mono _) ?_
      intro claim' found hsome hfound hvouched
      obtain ⟨prompt, value, hasked⟩ := hasked
      rw [hclaim] at hsome
      obtain rfl := Option.some.inj hsome
      exact ⟨claimOf_append (hclaimed _ hclaim) _, read, prompt, value,
        hasked.append (List.Sublist.refl [read]), hread _ _ hfound hvouched⟩
    · intro _
      refine conclude_planned hoffered fun _ found _ hfound => ?_
      cases hfound

/-- Triage asks for nothing to be closed, and its plan is grounded in what was said. -/
theorem triage_guarded (hguard : ∀ said call, (∀ n, call ≠ .closeIssue n) → guard said call) :
    Guarded guard (Concluded setting policy maintainers number) []
      (triage setting policy maintainers number) := by
  have hskipped : ∀ reason : String, (some reason : Option String) = none →
      Planned setting policy maintainers number [] {} := by
    intro reason h
    cases h
  unfold triage
  split_ifs with henabled
  · exact hskipped _
  refine request_guarded (hguard _ _ fun n h => by cases h) (fun err => trivial) fun issue => ?_
  split_ifs with hopen
  · intro h
    cases h
  refine withCandidates_guarded (fun said => hguard said _ fun n h => by cases h)
    (fun said err => trivial) rfl ?_
  intro candidates said hnone hissue hoffered
  refine request_guarded (hguard _ _ fun n h => by cases h) (fun err => trivial) fun comments => ?_
  refine request_guarded (hguard _ _ fun n h => by cases h) (fun err => trivial) fun value => ?_
  cases hverdict : parseVerdict value with
  | error err => trivial
  | ok verdict =>
    dsimp only
    generalize hprompt : suffix setting.twoDigits issue comments candidates = prompt
    generalize hasked : (said ++ [⟨.comments number, .ok comments⟩] ++
      [⟨.complete prompt, .ok value⟩] : Said) = asked
    have hoffered' : ∀ n ∈ candidates.map (·.number), Offered setting number issue asked n := by
      intro n hn
      rw [← hasked, List.append_assoc]
      exact (hoffered n hn).mono _
    -- the first answer that makes a claim is this one
    have hclaimed : ∀ claim, verdict.claim = some claim → claimOf asked = some claim := by
      intro claim hclaim
      unfold claimOf at hnone ⊢
      rw [← hasked, List.findSome?_append, List.findSome?_append, hnone]
      simp [claimIn, hverdict, Except.toOption, hclaim]
    have hread : [⟨.issue number, .ok issue⟩, ⟨.complete prompt, .ok value⟩].Sublist asked := by
      have hbefore := (hissue.trans (List.sublist_append_left said
        [⟨.comments number, .ok comments⟩])).append (List.Sublist.refl
          [⟨.complete prompt, .ok value⟩])
      rw [← hasked]
      exact hbefore
    unfold withIssueTypes
    split_ifs
    · refine request_guarded (hguard _ _ fun n h => by cases h) (fun err => trivial) fun names => ?_
      exact referencedBy_guarded hguard (fun n hn => (hoffered' n hn).mono _)
        (fun claim hclaim => claimOf_append (hclaimed claim hclaim) _)
        ⟨prompt, value, hread.trans (List.sublist_append_left _ _)⟩
    · exact referencedBy_guarded hguard hoffered' hclaimed ⟨prompt, value, hread⟩

/-- Each write is made after those before it have gone through. -/
theorem writeAll_guarded {calls : List Call}
    (hguard : ∀ before call after answered, calls = before ++ call :: after →
      answered.map Sigma.fst = before → (∀ e ∈ answered, e.2.isOk = true) →
      guard (said ++ answered) call) :
    Guarded guard (fun _ _ => True) said (writeAll calls) := by
  induction calls generalizing said with
  | nil => trivial
  | cons call rest ih =>
    have hfirst := hguard [] call rest [] rfl rfl (List.forall_mem_nil _)
    rw [List.append_nil] at hfirst
    refine request_guarded hfirst (fun err => trivial) fun value => ih ?_
    intro before next after answered hrest hbefore hok
    rw [List.append_assoc]
    refine hguard (call :: before) next after (⟨call, .ok value⟩ :: answered) ?_ ?_ ?_
    · rw [hrest]
      rfl
    · rw [List.map_cons, hbefore]
    · exact List.forall_mem_cons.mpr ⟨rfl, hok⟩

def TriagePlan.reports (plan : TriagePlan) : List Call :=
  (if plan.addLabels = [] then [] else [.addLabels plan.number plan.addLabels]) ++
    plan.removeLabels.map (.removeLabel plan.number) ++
    (plan.setIssueType.map (.setIssueType plan.number)).toList ++
    (plan.comment.map (.createComment plan.number)).toList

def TriagePlan.closing (plan : TriagePlan) : List Call :=
  match plan.close with
  | some close => if close.dryRun then [] else [.closeIssue plan.number]
  | none => []

theorem closeIssue_notMem_reports (plan : TriagePlan) (n : ℕ) :
    Call.closeIssue n ∉ plan.reports := by
  unfold TriagePlan.reports
  simp only [List.mem_append, List.mem_map, Option.mem_toList, Option.map_eq_some_iff, not_or]
  split_ifs <;> simp

theorem createComment_mem_reports {plan : TriagePlan} {body : Text} (h : plan.comment = some body) :
    Call.createComment plan.number body ∈ plan.reports := by
  unfold TriagePlan.reports
  rw [h]
  exact List.mem_append_right _ (List.mem_singleton_self _)

/-- A close is written last. -/
theorem writes_close {plan : TriagePlan} {before after : List Call} {n : ℕ}
    (h : plan.writes = before ++ .closeIssue n :: after) :
    before = plan.reports ∧ n = plan.number ∧
      ∃ close, plan.close = some close ∧ close.dryRun = false := by
  have hwrites : plan.reports ++ plan.closing = before ++ .closeIssue n :: after := h
  have hnot := closeIssue_notMem_reports plan n
  have hclosing : ∀ rest, plan.closing = .closeIssue n :: rest →
      n = plan.number ∧ ∃ close, plan.close = some close ∧ close.dryRun = false := by
    intro rest hrest
    unfold TriagePlan.closing at hrest
    cases hclose : plan.close with
    | none =>
      rw [hclose] at hrest
      cases hrest
    | some close =>
      rw [hclose] at hrest
      dsimp only at hrest
      split_ifs at hrest with hdry
      obtain ⟨hn, -⟩ := List.cons.inj hrest
      exact ⟨(Call.closeIssue.inj hn).symm, close, rfl, Bool.not_eq_true _ ▸ hdry⟩
  rcases List.append_eq_append_iff.mp hwrites with ⟨more, rfl, hmore⟩ | ⟨more, hreports, hmore⟩
  · cases more with
    | nil =>
      rw [List.nil_append] at hmore
      exact ⟨List.append_nil _, hclosing after hmore⟩
    | cons call rest =>
      -- two calls would have to be left for the close
      exfalso
      have hlength := congrArg List.length hmore
      have hone : plan.closing.length ≤ 1 := by
        unfold TriagePlan.closing
        split
        · split_ifs <;> simp
        · simp
      simp only [List.cons_append, List.length_cons, List.length_append] at hlength
      omega
  · cases more with
    | nil =>
      rw [List.append_nil] at hreports
      rw [List.nil_append] at hmore
      exact ⟨hreports.symm, hclosing after hmore.symm⟩
    | cons call rest =>
      rw [List.cons_append] at hmore
      obtain ⟨rfl, -⟩ := List.cons.inj hmore
      rw [hreports] at hnot
      exact absurd (List.mem_append_right _ List.mem_cons_self) hnot

theorem applyPlan_guarded {plan : TriagePlan}
    (h : Planned setting policy maintainers number said plan) :
    Guarded (mayAsk setting policy maintainers number) (fun _ _ => True) said (applyPlan plan) := by
  obtain ⟨rfl, hclose⟩ := h
  refine writeAll_guarded fun before call after answered hsplit hbefore hok => ?_
  cases call with
  | closeIssue n =>
    obtain ⟨rfl, rfl, close, hsome, hdry⟩ := writes_close hsplit
    obtain ⟨claim, subject, read, hgrounds, rfl, hcomment⟩ := hclose close hsome
    refine ⟨rfl, hdry, claim, subject, read, hgrounds.mono answered, fun hon => ?_⟩
    obtain ⟨body, hbody, hline⟩ := hcomment hon
    have hlive : policy.close.dryRun = false := hdry
    rw [hlive] at hline
    refine ⟨body, ?_, hline⟩
    have hmem : Call.createComment plan.number body ∈ answered.map Sigma.fst := by
      rw [hbefore]
      exact createComment_mem_reports hbody
    obtain ⟨⟨_, answer⟩, he, rfl⟩ := List.mem_map.mp hmem
    cases answer with
    | error err => exact absurd (hok _ he) (by simp [Except.isOk, Except.toBool])
    | ok value =>
      obtain ⟨prompt, asked, hasked⟩ := hgrounds.asked
      have hread : read ∈ said := hasked.subset (by simp)
      exact (List.singleton_sublist.mpr hread).append (List.singleton_sublist.mpr he)
  | _ => trivial

end Program

variable (setting : Setting) (policy : Policy) (maintainers : List Text) (number : ℕ) in
/-- Whatever is answered, an issue is closed only when it is the one that the job is about, on
a claim about an issue that was offered, with the policy's permission, after the forge has borne
the claim out and, where comments are written, after a comment that names the grounds. -/
theorem triageAndApply_guarded :
    Guarded (mayAsk setting policy maintainers number) (fun _ _ => True) []
      (triageAndApply setting policy maintainers number) := by
  have hreads : ∀ said call, (∀ n, call ≠ .closeIssue n) →
      mayAsk setting policy maintainers number said call := by
    intro said call hcall
    cases call with
    | closeIssue n => exact absurd rfl (hcall n)
    | _ => trivial
  refine guarded_bind ((triage_guarded hreads).mono (fun _ _ h => h) ?_)
  intro said result hconcluded
  cases result with
  | error err => trivial
  | ok outcome =>
    dsimp only
    split_ifs with hskipped
    · trivial
    · exact applyPlan_guarded (hconcluded (by simpa using hskipped))

/-- A job on one issue, with what it has heard and when. -/
structure Run where
  policy : Policy
  maintainers : List Text
  number : ℕ
  started : ℕ
  heard : List (ℕ × Exchange Call.Answer) := []
  rest : Job Unit

/-- The time in seconds, the jobs, and those that have asked for their issue to be closed. -/
structure State where
  now : ℕ
  runs : List Run
  closed : List Run

inductive Event where
  | wait (seconds : ℕ)
  | start (policy : Policy) (maintainers : List Text) (number : ℕ)
  /-- The question that a job waits on is answered. -/
  | answer (i : ℕ) (reply : (call : Call) → call.Answer)

def Run.said (run : Run) : Said := run.heard.map Prod.snd

def Run.answered (run : Run) (now : ℕ) (reply : (call : Call) → call.Answer) : Run :=
  match run.rest with
  | .done _ => run
  | .ask call next =>
    { run with heard := run.heard ++ [(now, ⟨call, reply call⟩)], rest := next (reply call) }

/-- The job has asked for its issue to be closed. -/
def Run.closing (run : Run) : Bool :=
  match run.rest with
  | .ask (.closeIssue _) _ => true
  | _ => false

def step (setting : Setting) (s : State) : Event → State
  | .wait seconds => { s with now := s.now + seconds }
  | .start policy maintainers number =>
    { s with runs := s.runs ++
      [{ policy, maintainers, number, started := s.now
         rest := triageAndApply setting policy maintainers number }] }
  | .answer i reply =>
    match s.runs[i]? with
    | none => s
    | some run =>
      { s with
        runs := s.runs.set i (run.answered s.now reply)
        closed := if run.closing then s.closed ++ [run] else s.closed }

/-- A configuration starts jobs only when it validates. What a job that was started at one time
is told at another about an issue may be restricted; everything else is answered as one likes. -/
def guard (Told : ℕ → ℕ → ℕ → Issue → Prop) (s : State) : Event → Prop
  | .wait _ => True
  | .start policy _ _ => validateIssues policy = []
  | .answer i reply =>
    ∀ run, s.runs[i]? = some run → ∀ number issue, reply (.issue number) = .ok issue →
      Told run.started s.now number issue

/-- An issue was closed as a duplicate of another one. -/
def ClosedFor (s : State) (number reference : ℕ) : Prop :=
  ∃ run ∈ s.closed, run.number = number ∧
    ∃ claim, claimOf run.said = some claim ∧ claim.kind = .duplicate ∧ claim.number = reference

/-- What is known of a job. -/
structure Sound (setting : Setting) (Told : ℕ → ℕ → ℕ → Issue → Prop) (run : Run) : Prop where
  valid : validateIssues run.policy = []
  told : ∀ heard ∈ run.heard, ∀ number issue, heard.2 = ⟨.issue number, .ok issue⟩ →
    run.started ≤ heard.1 ∧ Told run.started heard.1 number issue
  guarded : Guarded (mayAsk setting run.policy run.maintainers run.number) (fun _ _ => True)
    run.said run.rest

section Runs

variable {setting : Setting} {Told : ℕ → ℕ → ℕ → Issue → Prop}

theorem Sound.answered {run : Run} {now : ℕ} {reply : (call : Call) → call.Answer}
    (h : Sound setting Told run) (hstarted : run.started ≤ now)
    (hreply : ∀ number issue, reply (.issue number) = .ok issue →
      Told run.started now number issue) :
    Sound setting Told (run.answered now reply) := by
  unfold Run.answered
  cases hrest : run.rest with
  | done _ => exact h
  | ask call next =>
    have hguarded := h.guarded
    rw [hrest] at hguarded
    refine ⟨h.valid, ?_, ?_⟩
    · intro heard hheard number issue hissue
      rcases List.mem_append.mp hheard with hheard | hheard
      · exact h.told heard hheard number issue hissue
      · rw [List.mem_singleton.mp hheard] at hissue ⊢
        obtain ⟨rfl, hissue⟩ := Sigma.mk.inj hissue
        exact ⟨hstarted, hreply number issue (eq_of_heq hissue)⟩
    · have hnext := hguarded.2 (reply call)
      unfold Run.said at hnext ⊢
      rw [List.map_append]
      exact hnext

/-- Every job is sound, and so was every one that closed an issue. -/
structure Invariant (setting : Setting) (Told : ℕ → ℕ → ℕ → Issue → Prop) (s : State) : Prop where
  runs : ∀ run ∈ s.runs, Sound setting Told run ∧ run.started ≤ s.now
  closed : ∀ run ∈ s.closed, Sound setting Told run ∧ run.closing = true

theorem step_invariant {s : State} {event : Event} (h : Invariant setting Told s)
    (hguard : guard Told s event) : Invariant setting Told (step setting s event) := by
  cases event with
  | wait seconds =>
    exact ⟨fun run hrun => ⟨(h.runs run hrun).1, (h.runs run hrun).2.trans (Nat.le_add_right _ _)⟩,
      h.closed⟩
  | start policy maintainers number =>
    refine ⟨fun run hrun => ?_, h.closed⟩
    rcases List.mem_append.mp hrun with hrun | hrun
    · exact h.runs run hrun
    · rw [List.mem_singleton.mp hrun]
      exact ⟨⟨hguard, List.forall_mem_nil _,
        triageAndApply_guarded setting policy maintainers number⟩, le_rfl⟩
  | answer i reply =>
    unfold step
    dsimp only
    cases hrun : s.runs[i]? with
    | none => exact h
    | some run =>
      obtain ⟨hsound, hstarted⟩ := h.runs run (List.mem_of_getElem? hrun)
      refine ⟨fun other hother => ?_, fun other hother => ?_⟩
      · rcases List.mem_or_eq_of_mem_set hother with hother | rfl
        · exact h.runs other hother
        · refine ⟨hsound.answered hstarted (hguard run hrun), ?_⟩
          unfold Run.answered
          split <;> exact hstarted
      · dsimp only at hother
        split_ifs at hother with hclosing
        · rcases List.mem_append.mp hother with hother | hother
          · exact h.closed other hother
          · rw [List.mem_singleton.mp hother]
            exact ⟨hsound, hclosing⟩
        · exact h.closed other hother

theorem run_invariant {now : ℕ} {events : List Event}
    (hevents : Runs.Guarded (step setting) (guard Told) ⟨now, [], []⟩ events) :
    Invariant setting Told (Runs.exec (step setting) ⟨now, [], []⟩ events) :=
  hevents.invariant (fun _ _ hs hguard => step_invariant hs hguard)
    ⟨List.forall_mem_nil _, List.forall_mem_nil _⟩

/-- A configuration that validates closes nothing on its first day. -/
theorem minAgeDays_pos {policy : Policy} (h : validateIssues policy = [])
    (henabled : policy.close.enabled = true) (hlive : policy.close.dryRun = false) :
    0 < policy.close.minAgeDays := by
  rw [Nat.pos_iff_ne_zero]
  intro hzero
  unfold validateIssues at h
  simp [henabled, hlive, hzero] at h

/-- A job that has asked to close its issue was allowed to. -/
theorem Sound.asks {run : Run} (h : Sound setting Told run) (hclosing : run.closing = true) :
    (∃ next, run.rest = .ask (.closeIssue run.number) next) ∧
      mayAsk setting run.policy run.maintainers run.number run.said (.closeIssue run.number) := by
  unfold Run.closing at hclosing
  have hguarded := h.guarded
  split at hclosing
  · next n next hrest =>
    rw [hrest] at hguarded
    obtain ⟨rfl, hgrounds⟩ := hguarded.1
    exact ⟨⟨next, hrest⟩, rfl, hgrounds⟩
  · cases hclosing

/-- The grounds of a job that has asked to close its issue. -/
theorem Sound.grounds {run : Run} (h : Sound setting Told run) (hclosing : run.closing = true) :
    ∃ claim subject read,
      Grounds setting run.policy run.maintainers run.number run.said claim subject read ∧
        0 < subject.ageDays := by
  obtain ⟨-, -, hlive, claim, subject, read, hgrounds, -⟩ := h.asks hclosing
  have hpos := minAgeDays_pos h.valid hgrounds.permits.enabled hlive
  exact ⟨claim, subject, read, hgrounds, hpos.trans_le hgrounds.permits.aged⟩

/-- However the jobs run, and whatever is answered: an issue is closed only by a job that is
about it, on a claim about an issue that was offered, with the policy's permission, after the
forge has borne the claim out and, where comments are written, after a comment that names the
grounds. -/
theorem closes_on_grounds {now : ℕ} {events : List Event}
    (hevents : Runs.Guarded (step setting) (guard Told) ⟨now, [], []⟩ events) :
    ∀ run ∈ (Runs.exec (step setting) ⟨now, [], []⟩ events).closed,
      (∃ next, run.rest = .ask (.closeIssue run.number) next) ∧
        mayAsk setting run.policy run.maintainers run.number run.said
          (.closeIssue run.number) := by
  intro run hrun
  obtain ⟨hsound, hclosing⟩ := (run_invariant hevents).closed run hrun
  exact hsound.asks hclosing

/-- A read of an issue that a job has heard of, and its time. -/
theorem Sound.heard {run : Run} (h : Sound setting Told run) {number : ℕ} {issue : Issue}
    (hsaid : ⟨.issue number, .ok issue⟩ ∈ run.said) :
    ∃ t, run.started ≤ t ∧ Told run.started t number issue := by
  obtain ⟨heard, hheard, hissue⟩ := List.mem_map.mp hsaid
  exact ⟨heard.1, h.told heard hheard number issue hissue⟩

end Runs

/-- Whole days between two times. -/
def daysSince (opened now : ℕ) : ℕ := (now - opened) / 86400

theorem daysSince_lt {opened opened' now now' : ℕ}
    (h : daysSince opened now < daysSince opened' now') : now - opened < now' - opened' := by
  by_contra hle
  exact absurd (Nat.div_le_div_right (not_lt.mp hle)) (not_le.mpr h)

/-- Every issue has been open since some time, and is given its age in days or none. No issue is
read once the window of a job is over. -/
structure Aged (opened : ℕ → ℕ) (window started now number : ℕ) (issue : Issue) : Prop where
  within : now < started + window
  named : issue.number = number
  age : issue.ageDays = 0 ∨ issue.ageDays = daysSince (opened number) now

section References

variable {setting : Setting} {opened : ℕ → ℕ} {window : ℕ}

/-- An issue is closed as a duplicate of an older one only. -/
theorem ClosedFor.earlier {s : State} (hs : Invariant setting (Aged opened window) s)
    (hspaced : ∀ a b, a ≠ b → opened a + window ≤ opened b ∨ opened b + window ≤ opened a)
    {number reference : ℕ} (h : ClosedFor s number reference) :
    opened reference < opened number := by
  obtain ⟨run, hrun, rfl, claim, hclaim, hkind, rfl⟩ := h
  obtain ⟨hsound, hclosing⟩ := hs.closed run hrun
  obtain ⟨claim', subject, read, hgrounds, hpos⟩ := hsound.grounds hclosing
  obtain rfl := Option.some.inj (hgrounds.claimed.symm.trans hclaim)
  obtain ⟨prompt, value, hasked⟩ := hgrounds.asked
  obtain ⟨t, hstarted, haged⟩ := hsound.heard (hasked.subset List.mem_cons_self)
  have hdistinct : claim'.number ≠ run.number := haged.named ▸ hgrounds.permits.distinct
  cases hgrounds.vouches with
  | merged pull hresolved _ =>
    rw [hkind] at hresolved
    cases hresolved
  | older found _ hfound =>
    have hread : (⟨.issue claim'.number, .ok found⟩ : Exchange Call.Answer) ∈ run.said :=
      hasked.subset (by simp)
    obtain ⟨t', -, haged'⟩ := hsound.heard hread
    have hage := haged.age
    have hage' := haged'.age
    have hwindow := haged'.within
    have hdays : daysSince (opened run.number) t < daysSince (opened claim'.number) t' := by
      omega
    have hlt := daysSince_lt hdays
    rcases hspaced run.number claim'.number hdistinct.symm with hspace | hspace
    · omega
    · omega

/-- However the jobs run, whatever the model says and others do: as long as no two issues are
opened within the time that a job may take, an issue is closed as a duplicate of an older one
only, and the references lead from every issue to one that was not closed so. -/
theorem duplicates_settle {now : ℕ} {events : List Event}
    (hspaced : ∀ a b, a ≠ b → opened a + window ≤ opened b ∨ opened b + window ≤ opened a)
    (hevents : Runs.Guarded (step setting) (guard (Aged opened window)) ⟨now, [], []⟩ events) :
    (∀ number reference,
      ClosedFor (Runs.exec (step setting) ⟨now, [], []⟩ events) number reference →
        opened reference < opened number) ∧
    ∀ number, ∃ root,
      Relation.ReflTransGen (ClosedFor (Runs.exec (step setting) ⟨now, [], []⟩ events)) number root ∧
        ∀ reference, ¬ClosedFor (Runs.exec (step setting) ⟨now, [], []⟩ events) root reference := by
  have hinvariant := run_invariant hevents
  generalize Runs.exec (step setting) ⟨now, [], []⟩ events = s at hinvariant ⊢
  have hearlier := fun number reference (h : ClosedFor s number reference) =>
    h.earlier hinvariant hspaced
  refine ⟨hearlier, fun number => ?_⟩
  -- each reference was opened before, so there is a last one
  induction hopened : opened number using Nat.strong_induction_on generalizing number with
  | h n ih =>
    by_cases hclosed : ∃ reference, ClosedFor s number reference
    · obtain ⟨reference, hreference⟩ := hclosed
      obtain ⟨root, hroot, hkept⟩ :=
        ih _ (hopened ▸ hearlier _ _ hreference) reference rfl
      exact ⟨root, hroot.head hreference, hkept⟩
    · exact ⟨number, .refl, not_exists.mp hclosed⟩

end References

def sampleSetting : Setting where
  isAlphanumeric c := c.isAlphanum
  toLowercase := toAsciiLowercase
  twoDigits _ := []
  promotional _ _ _ := none

def samplePolicy : Policy where
  enabled := true
  comment := true
  applyLabels := false
  maxLabels := 1
  applyIssueType := false
  allowLabels := []
  blockLabels := []
  dedupe := true
  dedupeConfidenceMin := 1 / 2
  close := ⟨true, 1, 0, 9 / 10, ["pinned".toList], [], false⟩
  flagPromotional := false

/-- Issues are opened an hour apart, and read on the tenth day. -/
def sampleOpened (number : ℕ) : ℕ := number * 3600

def sampleIssue (number : ℕ) : Issue where
  number := number
  title := "Crash on save".toList
  body := []
  author := "reporter".toList
  labels := []
  isOpen := true
  ageDays := daysSince (sampleOpened number) 864000
  quietDays := 0
  issueType := none

def sampleReply : (call : Call) → call.Answer
  | .issue number => .ok (sampleIssue number)
  | .openIssues _ => .ok [sampleIssue 1]
  | .comments _ => .ok []
  | .complete _ => .ok (Json.object [("duplicate_of".toList, .integer 1),
      ("confidence".toList, .real (19 / 20))])
  | .issueTypes => .ok []
  | .pullRequest number => .ok (⟨number, true⟩ : PullRequest)
  | .addLabels .. => .ok ()
  | .removeLabel .. => .ok ()
  | .setIssueType .. => .ok ()
  | .createComment .. => .ok ()
  | .closeIssue _ => .ok ()

def sampleEvents : List Event :=
  .start samplePolicy [] 30 :: List.replicate 7 (.answer 0 sampleReply)

def sampleEnd : State := Runs.exec (step sampleSetting) ⟨864000, [], []⟩ sampleEvents

theorem sampleReply_guarded (n : ℕ) {s : State} (hnow : s.now = 864000)
    (hruns : ∀ run ∈ s.runs, run.started = 864000) :
    Runs.Guarded (step sampleSetting) (guard (Aged sampleOpened 3600)) s
      (List.replicate n (.answer 0 sampleReply)) := by
  induction n generalizing s with
  | zero => trivial
  | succ n ih =>
    refine ⟨?_, ih ?_ ?_⟩
    · intro run hrun number issue hissue
      rw [hnow, hruns run (List.mem_of_getElem? hrun)]
      obtain rfl := Except.ok.inj hissue
      exact ⟨by decide, rfl, .inr rfl⟩
    · unfold step
      dsimp only
      split <;> exact hnow
    · unfold step
      dsimp only
      cases hrun : s.runs[0]? with
      | none => exact hruns
      | some run =>
        intro other hother
        rcases List.mem_or_eq_of_mem_set hother with hother | rfl
        · exact hruns other hother
        · unfold Run.answered
          split <;> exact hruns run (List.mem_of_getElem? hrun)

theorem sampleEvents_guarded : Runs.Guarded (step sampleSetting)
    (guard (Aged sampleOpened 3600)) ⟨864000, [], []⟩ sampleEvents := by
  have hvalid : validateIssues samplePolicy = [] := by decide +kernel
  exact ⟨hvalid, sampleReply_guarded 7 rfl fun run hrun => by rw [List.mem_singleton.mp hrun]⟩

theorem closes_on_grounds_sample : sampleEnd.closed.map (·.number) = [30] ∧
    ∀ run ∈ sampleEnd.closed,
      (∃ next, run.rest = .ask (.closeIssue run.number) next) ∧
        mayAsk sampleSetting run.policy run.maintainers run.number run.said
          (.closeIssue run.number) :=
  ⟨by decide +kernel, closes_on_grounds sampleEvents_guarded⟩

theorem duplicates_settle_sample :
    sampleEnd.closed.map (·.number) = [30] ∧
      ∀ number, ∃ root, Relation.ReflTransGen (ClosedFor sampleEnd) number root ∧
        ∀ reference, ¬ClosedFor sampleEnd root reference := by
  have hspaced : ∀ a b, a ≠ b → sampleOpened a + 3600 ≤ sampleOpened b ∨
      sampleOpened b + 3600 ≤ sampleOpened a := by
    intro a b hab
    unfold sampleOpened
    omega
  exact ⟨by decide +kernel, (duplicates_settle hspaced sampleEvents_guarded).2⟩

/-- An issue as the forge answers it; a field that is missing reads as empty. -/
structure Payload where
  title : Option Text
  body : Option Text
  login : Option Text
  labels : List (Option Text)
  state : Option Text
  typeName : Option Text

/-- The issue that was asked for. Its age is not read. -/
def issueFromJson (number : ℕ) (raw : Payload) : Issue where
  number := number
  title := raw.title.getD []
  body := raw.body.getD []
  author := raw.login.getD []
  labels := raw.labels.reduceOption
  isOpen := raw.state = some "open".toList
  ageDays := 0
  quietDays := 0
  issueType := raw.typeName

def FromGitHub (_started _now number : ℕ) (issue : Issue) : Prop :=
  ∃ raw, issue = issueFromJson number raw

/-- On GitHub no issue is ever closed, by any job of a configuration that validates. -/
theorem github_closes_nothing {setting : Setting} {now : ℕ} {events : List Event}
    (hevents : Runs.Guarded (step setting) (guard FromGitHub) ⟨now, [], []⟩ events) :
    (Runs.exec (step setting) ⟨now, [], []⟩ events).closed = [] := by
  have hinvariant := run_invariant hevents
  rw [List.eq_nil_iff_forall_not_mem]
  intro run hrun
  obtain ⟨hsound, hclosing⟩ := hinvariant.closed run hrun
  obtain ⟨claim, subject, read, hgrounds, hpos⟩ := hsound.grounds hclosing
  obtain ⟨prompt, value, hasked⟩ := hgrounds.asked
  obtain ⟨t, -, raw, rfl⟩ := hsound.heard (hasked.subset List.mem_cons_self)
  exact absurd hpos (Nat.lt_irrefl 0)

def githubReply : (call : Call) → call.Answer
  | .issue number => .ok (issueFromJson number ⟨some "Crash on save".toList, none, none, [],
      some "open".toList, none⟩)
  | call => sampleReply call

def githubEvents : List Event :=
  .start samplePolicy [] 30 :: List.replicate 7 (.answer 0 githubReply)

theorem github_closes_nothing_sample :
    (Runs.exec (step sampleSetting) ⟨864000, [], []⟩ githubEvents).closed = [] := by
  have hvalid : validateIssues samplePolicy = [] := by decide +kernel
  have hevents : ∀ event ∈ githubEvents, ∀ s, guard FromGitHub s event := by
    intro event hevent s
    rcases List.mem_cons.mp hevent with rfl | hevent
    · exact hvalid
    · obtain rfl := List.eq_of_mem_replicate hevent
      intro run _ number issue hissue
      exact ⟨_, (Except.ok.inj hissue).symm⟩
  exact github_closes_nothing ((Runs.guarded_of_forall _ hevents).mono fun s event h => h s)

end TinySweeper.Issues
