import TinySweeper.Forge.Reviews
import TinySweeper.PrTriage.Dedupe
import TinySweeper.PrTriage.Labels

/-!
# The sweep

Reads the open pull requests and plans what to do about each. A sweep only reads;
what it reads is given as the answers the forge gives it.
-/

namespace TinySweeper.PrTriage

open Text

/-- What a run is given, and what it leaves to other code. -/
structure Setting (φ : Type) where
  floats : Floats φ
  config : Config φ
  maintainers : List Text
  /-- The account the bot posts as. -/
  botLogin : Text
  /-- What of a diff reads as self-promotion, by the author's login. -/
  promotional : List ChangedFile → Text → Option Text

structure IssueComment where
  id : Option ℕ
  author : Text
  body : Text

/-- What the forge answers a sweep, by the pull request it asks for. -/
structure Answers where
  openPullRequests : Except Text (List PullRequest)
  pullRequest : ℕ → Except Text PullRequest
  changedFiles : ℕ → Except Text (List ChangedFile)
  branchHead : ℕ → Except Text (Option Text)
  fileAt : ℕ → Text → Except Text (Option Text)
  comments : ℕ → Except Text (List IssueComment)

structure SweepOutcome (φ : Type) where
  plans : List (TriagePlan φ) := []
  unread : List (ℕ × String) := []
  skipped : Option String := none

variable {φ : Type} (setting : Setting φ) (answers : Answers)

def readBase (number : ℕ) (file : ChangedFile) : Base :=
  match answers.fileAt number file.path with
  | .ok (some content) => .present content
  | .ok none => .absent
  | .error _ => .unreadable

/-- What one pull request is, and the reads left. -/
def verdictFor (pull : PullRequest) (changed : List ChangedFile) (shape : Shape)
    (earlier : List Shape) (heads : List (ℕ × Text)) (budget : ℕ) : Verdict φ × ℕ :=
  let policy := setting.config.prTriage
  match duplicateOf setting.floats shape earlier policy.duplicatePathOverlapMin
      policy.duplicateLineOverlapMin with
  | some (of, overlap) =>
    (.duplicate of (((heads.find? fun head => head.1 = of).map Prod.snd).getD []) overlap.paths
      overlap.edits, budget)
  | none =>
    if changed.isEmpty then (.review "its changed files could not be read", budget)
    else if changed.length > policy.maxLandedFiles then
      (.review "it changes too many files to compare against the base branch", budget)
    else if changed.length > budget then
      (.review "the sweep's base-branch read budget ran out", budget)
    else
      match answers.branchHead pull.number with
      | .error _ => (.review "its base branch could not be resolved to a commit", budget)
      | .ok none => (.review "its base branch no longer exists", budget)
      | .ok (some baseSha) =>
        match landed changed (changed.map (readBase answers pull.number)) policy.minLandedLines with
        | .ok linesChecked =>
          (.superseded pull.baseRef baseSha linesChecked, budget - changed.length)
        | .error why => (.review why.reason, budget - changed.length)

def buildPlan (pull : PullRequest) (verdict : Verdict φ) (changed : List ChangedFile) :
    TriagePlan φ :=
  let policy := setting.config.prTriage
  let flags :=
    if policy.flagPromotional then
      ((setting.promotional changed pull.author).map fun why => (Flag.promotional, why)).toList
    else []
  let planned := planLabels pull.labels (verdict.label :: flags.map fun flag => flag.1.label)
    ⟨policy.applyLabels, 2, [], setting.config.blockLabels⟩
  let plan : TriagePlan φ := { number := pull.number, headSha := pull.headSha, verdict, flags }
  if planned.blocked then
    { plan with
      declinedLabels := planned.declined
      closeRefusal := some "it carries a label that switches the bot off" }
  else
    let plan := { plan with
      addLabels := planned.add
      removeLabels := planned.remove
      declinedLabels := planned.declined }
    let plan :=
      match gateDecide pull verdict setting.maintainers policy.close with
      | .close close => { plan with close := some close }
      | .refuse reason =>
        if verdict.isCloseable then { plan with closeRefusal := some reason } else plan
    if policy.comment then { plan with comment := render setting.floats plan } else plan

/-- Edit the bot's own comment, and only if that would change it. -/
def attachPreviousComment (plan : TriagePlan φ) : TriagePlan φ :=
  match answers.comments plan.number with
  | .error _ => plan
  | .ok comments =>
    match comments.find? fun comment =>
        Forge.loginMatches comment.author setting.botLogin &&
          Text.contains comment.body MARKER with
    | none => plan
    | some previous =>
      if some previous.body = plan.comment then { plan with comment := none }
      else { plan with commentId := previous.id }

structure SweepState (φ : Type) where
  heads : List (ℕ × Text) := []
  earlier : List Shape := []
  budget : ℕ
  plans : List (TriagePlan φ) := []
  unread : List (ℕ × String) := []

/-- The plan for one pull request, and the reads left. -/
def triagePull (s : SweepState φ) (pull : PullRequest) (changed : List ChangedFile) :
    TriagePlan φ × ℕ :=
  let shape := Shape.of pull.number pull.baseRef changed
  let judged := verdictFor setting answers pull changed shape s.earlier s.heads s.budget
  let plan := buildPlan setting pull judged.1 changed
  (if plan.comment.isSome then attachPreviousComment setting answers plan else plan, judged.2)

/-- One pull request, after those with lower numbers. -/
def sweepPull (only : Option ℕ) (s : SweepState φ) (pull : PullRequest) : SweepState φ :=
  match answers.changedFiles pull.number with
  | .error _ => { s with unread := s.unread ++ [(pull.number, "its diff could not be read")] }
  | .ok changed =>
    let s :=
      if only.all fun number => number = pull.number then
        let triaged := triagePull setting answers s pull changed
        { s with budget := triaged.2, plans := s.plans ++ [triaged.1] }
      else s
    { s with
      heads := (pull.number, pull.headSha) :: s.heads
      earlier := s.earlier ++ [Shape.of pull.number pull.baseRef changed] }

/-- The pull requests a sweep looks at; one asked for by number joins them if it is open. -/
def requested (only : Option ℕ) (pulls : List PullRequest) :
    Except Text (Option (List PullRequest)) :=
  match only with
  | none => .ok (some pulls)
  | some number =>
    if pulls.any fun pull => pull.number = number then .ok (some pulls)
    else
      match answers.pullRequest number with
      | .error e => .error e
      | .ok pull =>
        if !pull.isOpen || pull.merged then .ok none else .ok (some (pulls ++ [pull]))

def sweep (only : Option ℕ) : Except Text (SweepOutcome φ) :=
  let policy := setting.config.prTriage
  if !policy.enabled then .ok { skipped := some "pr_triage.enabled is off" }
  else
    match answers.openPullRequests with
    | .error e => .error e
    | .ok pulls =>
      match requested answers only pulls with
      | .error e => .error e
      | .ok none => .ok { skipped := some "the requested pull request is not open" }
      | .ok (some pulls) =>
        if pulls.isEmpty then
          .ok { skipped := some "the repository has no open pull requests" }
        else
          let s := (pulls.insertionSort fun a b => a.number ≤ b.number).foldl
            (sweepPull setting answers only) { budget := policy.maxBaseReads }
          .ok { plans := s.plans, unread := s.unread }

/-- The comment was listed on the pull request, as one of the bot's. -/
def Listed (number id : ℕ) : Prop :=
  ∃ comments, answers.comments number = .ok comments ∧ ∃ comment ∈ comments,
    Forge.loginMatches comment.author setting.botLogin = true ∧ comment.id = some id

/-- The plan is made at the head that was listed, and so is what it names as the original. -/
structure Judged (pulls : List PullRequest) (plan : TriagePlan φ) : Prop where
  listed : ∃ pull ∈ pulls, pull.number = plan.number ∧ pull.headSha = plan.headSha
  original : ∀ of ofHeadSha pathOverlap lineOverlap,
    plan.verdict = .duplicate of ofHeadSha pathOverlap lineOverlap →
      of < plan.number ∧ ∃ pull ∈ pulls, pull.number = of ∧ pull.headSha = ofHeadSha
  comment : ∀ id, plan.commentId = some id → Listed setting answers plan.number id

/-- What a sweep has gathered about the pull requests it looked at. -/
structure Gathered (pulls : List PullRequest) (s : SweepState φ) : Prop where
  heads : ∀ head ∈ s.heads, ∃ pull ∈ pulls, head = (pull.number, pull.headSha)
  compared : ∀ other ∈ s.earlier, ∃ head ∈ s.heads, head.1 = other.number
  plans : ∀ plan ∈ s.plans, Judged setting answers pulls plan

variable {setting answers}

theorem verdictFor_original {pull : PullRequest} {changed : List ChangedFile} {shape : Shape}
    {earlier : List Shape} {heads : List (ℕ × Text)} {budget : ℕ} {of : ℕ} {ofHeadSha : Text}
    {pathOverlap lineOverlap : φ}
    (h : (verdictFor setting answers pull changed shape earlier heads budget).1 =
      .duplicate of ofHeadSha pathOverlap lineOverlap)
    (hheads : ∀ other ∈ earlier, ∃ head ∈ heads, head.1 = other.number) :
    of < shape.number ∧ (of, ofHeadSha) ∈ heads := by
  unfold verdictFor at h
  dsimp only at h
  split at h
  · rename_i found overlap hfound
    obtain ⟨rfl, hhead, -, -⟩ := Verdict.duplicate.inj h
    obtain ⟨other, hother, hnumber, holder⟩ := duplicateOf_eq_some setting.floats hfound
    refine ⟨holder, ?_⟩
    obtain ⟨head, hmem, hhead'⟩ := hheads other hother
    have hsome : (heads.find? fun head => head.1 = found).isSome := by
      rw [List.find?_isSome]
      exact ⟨head, hmem, by simp [hhead', hnumber]⟩
    obtain ⟨first, hfirst⟩ := Option.isSome_iff_exists.mp hsome
    rw [hfirst] at hhead
    have hname : first.1 = found := by simpa using List.find?_some hfirst
    rw [← hhead, ← hname]
    exact List.mem_of_find?_eq_some hfirst
  · split_ifs at h
    split at h
    · cases h
    · cases h
    · split at h <;> cases h

theorem attachPreviousComment_eq (plan : TriagePlan φ) : ∃ comment commentId,
    attachPreviousComment setting answers plan = { plan with comment, commentId } ∧
      (commentId = plan.commentId ∨
        ∀ id, commentId = some id → Listed setting answers plan.number id) := by
  unfold attachPreviousComment
  split
  · exact ⟨plan.comment, plan.commentId, rfl, .inl rfl⟩
  · rename_i comments hcomments
    split
    · exact ⟨plan.comment, plan.commentId, rfl, .inl rfl⟩
    · rename_i previous hfound
      split_ifs
      · exact ⟨none, plan.commentId, rfl, .inl rfl⟩
      · refine ⟨plan.comment, _, rfl, .inr fun id hid => ?_⟩
        have hown := List.find?_some hfound
        rw [Bool.and_eq_true] at hown
        exact ⟨comments, hcomments, previous, List.mem_of_find?_eq_some hfound, hown.1, hid⟩

theorem buildPlan_eq (pull : PullRequest) (verdict : Verdict φ) (changed : List ChangedFile) :
    (buildPlan setting pull verdict changed).number = pull.number ∧
      (buildPlan setting pull verdict changed).headSha = pull.headSha ∧
      (buildPlan setting pull verdict changed).verdict = verdict ∧
      (buildPlan setting pull verdict changed).commentId = none := by
  unfold buildPlan
  dsimp only
  split_ifs <;> first | exact ⟨rfl, rfl, rfl, rfl⟩ | (split <;> exact ⟨rfl, rfl, rfl, rfl⟩)

section Gathered

variable {pulls : List PullRequest} {s : SweepState φ} {pull : PullRequest}

theorem Gathered.triagePull (h : Gathered setting answers pulls s) (hpull : pull ∈ pulls)
    (changed : List ChangedFile) :
    Judged setting answers pulls (triagePull setting answers s pull changed).1 := by
  unfold PrTriage.triagePull
  dsimp only
  generalize hjudged : verdictFor setting answers pull changed
    (Shape.of pull.number pull.baseRef changed) s.earlier s.heads s.budget = judged
  obtain ⟨hnumber, hhead, hverdict, hcomment⟩ := @buildPlan_eq φ setting pull judged.1 changed
  have hplan : Judged setting answers pulls (buildPlan setting pull judged.1 changed) := by
    refine ⟨⟨pull, hpull, hnumber.symm, hhead.symm⟩, ?_, by simp [hcomment]⟩
    intro of ofHeadSha pathOverlap lineOverlap hdup
    rw [hverdict, ← hjudged] at hdup
    obtain ⟨holder, hof⟩ := verdictFor_original hdup h.compared
    obtain ⟨original, horiginal, heq⟩ := h.heads _ hof
    obtain ⟨rfl, rfl⟩ := Prod.mk.inj heq
    exact ⟨hnumber.symm ▸ holder, original, horiginal, rfl, rfl⟩
  split_ifs
  · obtain ⟨comment, commentId, heq, hlisted⟩ :=
      @attachPreviousComment_eq φ setting answers (buildPlan setting pull judged.1 changed)
    rw [heq]
    refine ⟨hplan.listed, hplan.original, fun id hid => ?_⟩
    rcases hlisted with hsame | hlisted
    · exact hplan.comment id (hsame ▸ hid)
    · exact hlisted id hid
  · exact hplan

theorem Gathered.sweepPull (h : Gathered setting answers pulls s) (hpull : pull ∈ pulls)
    (only : Option ℕ) : Gathered setting answers pulls (sweepPull setting answers only s pull) := by
  unfold PrTriage.sweepPull
  cases answers.changedFiles pull.number with
  | error e => exact ⟨h.heads, h.compared, h.plans⟩
  | ok changed =>
    have hheads : ∀ head ∈ (pull.number, pull.headSha) :: s.heads,
        ∃ pull ∈ pulls, head = (pull.number, pull.headSha) :=
      List.forall_mem_cons.mpr ⟨⟨pull, hpull, rfl⟩, h.heads⟩
    have hcompared : ∀ other ∈ s.earlier ++ [Shape.of pull.number pull.baseRef changed],
        ∃ head ∈ (pull.number, pull.headSha) :: s.heads, head.1 = other.number := by
      intro other hother
      rcases List.mem_append.mp hother with hearlier | hlast
      · obtain ⟨head, hmem, heq⟩ := h.compared other hearlier
        exact ⟨head, List.mem_cons_of_mem _ hmem, heq⟩
      · rw [List.mem_singleton.mp hlast]
        exact ⟨_, List.mem_cons_self, rfl⟩
    dsimp only
    split_ifs
    · refine ⟨hheads, hcompared, fun plan hplan => ?_⟩
      rcases List.mem_append.mp hplan with hearlier | hlast
      · exact h.plans plan hearlier
      · rw [List.mem_singleton.mp hlast]
        exact h.triagePull hpull changed
    · exact ⟨hheads, hcompared, h.plans⟩

theorem Gathered.foldl (h : Gathered setting answers pulls s) (only : Option ℕ)
    {rest : List PullRequest} (hrest : ∀ pull ∈ rest, pull ∈ pulls) :
    Gathered setting answers pulls (rest.foldl (PrTriage.sweepPull setting answers only) s) := by
  induction rest generalizing s with
  | nil => exact h
  | cons pull rest ih =>
    obtain ⟨hpull, hrest⟩ := List.forall_mem_cons.mp hrest
    exact ih (h.sweepPull hpull only) hrest

end Gathered

/-- Every plan of a sweep is made at a head the forge had listed. -/
theorem sweep_judged {only : Option ℕ} {outcome : SweepOutcome φ}
    (h : sweep setting answers only = .ok outcome) :
    ∃ listed pulls, (outcome.plans ≠ [] → answers.openPullRequests = .ok listed ∧
      requested answers only listed = .ok (some pulls)) ∧
      ∀ plan ∈ outcome.plans, Judged setting answers pulls plan := by
  unfold sweep at h
  dsimp only at h
  split_ifs at h
  · obtain rfl := Except.ok.inj h
    exact ⟨[], [], by simp, by simp⟩
  · split at h
    · cases h
    · rename_i listed hlisted
      split at h
      · cases h
      · obtain rfl := Except.ok.inj h
        exact ⟨[], [], by simp, by simp⟩
      · rename_i pulls hrequested
        split_ifs at h
        · obtain rfl := Except.ok.inj h
          exact ⟨[], [], by simp, by simp⟩
        · obtain rfl := Except.ok.inj h
          refine ⟨listed, pulls, fun _ => ⟨hlisted, hrequested⟩, ?_⟩
          have hgathered : Gathered setting answers pulls
              ({ budget := setting.config.prTriage.maxBaseReads } : SweepState φ) :=
            ⟨by simp, by simp, by simp⟩
          refine (hgathered.foldl only ?_).plans
          exact fun pull hpull => (List.mem_insertionSort _).mp hpull

end TinySweeper.PrTriage
