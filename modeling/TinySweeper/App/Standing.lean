import TinySweeper.App.Apply

/-!
# The verdict that stands after a call

What a published call leaves on the forge is read off what it saw: whether it
withdrew, and whether it submitted. Over a run the stored receipt is always that of
an earlier submission, and says what stood once that was made.
-/

namespace TinySweeper.App

open Text Evidence Findings Forge

section Publish

variable {κ : Type} (account : Account) (answers : Answers) (w : World) (s : Situation κ)

/-- The reviews once a standing approval is withdrawn. -/
def withdrawnReviews : List Review :=
  if s.withdraws && answers.dismissed then dismissOwnApproval account w.reviews else w.reviews

/-- The reviews once one is submitted. -/
def submittedReviews : List Review :=
  if s.posts then
    withdrawnReviews account answers w s ++
      [submitted account answers.reviewId s.event s.proposal.headSha]
  else withdrawnReviews account answers w s

/-- What a publication does, by how far it gets. -/
theorem publish_cases :
    ((publish account answers w s).reviewPublished = false ∧
        (publish account answers w s).result ≠ .ok .published ∧
        (publish account answers w s).world.stored = w.stored) ∨
      ((publish account answers w s).reviewPublished = s.posts ∧
        (publish account answers w s).world.reviews = submittedReviews account answers w s ∧
        (publish account answers w s).world.stored = recordApplyState answers
          (if s.posts then s.publication (s.withdraws && !answers.dismissed) else none) w.stored ∧
        ((publish account answers w s).result = .ok .published →
          s.withdraws = true → answers.dismissed = true)) := by
  unfold publish
  dsimp only
  rcases Bool.eq_false_or_eq_true (s.posts && !answers.created) with hfailed | hfailed
  · rw [if_pos hfailed]
    exact .inl ⟨rfl, nofun, rfl⟩
  · rw [if_neg (by simp [hfailed])]
    apply Or.inr
    rcases Bool.eq_false_or_eq_true answers.triaged with htriaged | htriaged
    · rcases Bool.eq_false_or_eq_true (s.withdraws && !answers.dismissed) with hkept | hkept
      · simp only [htriaged, hkept]
        exact ⟨rfl, rfl, rfl, nofun⟩
      · simp only [htriaged, hkept]
        refine ⟨rfl, rfl, rfl, fun _ hwithdraws => ?_⟩
        simpa [hwithdraws] using hkept
    · simp only [htriaged]
      exact ⟨rfl, rfl, rfl, nofun⟩

variable {account answers w s}

/-- A withdrawal takes only an approval. -/
theorem inForce_withdrawnReviews :
    inForce account (withdrawnReviews account answers w s) =
      if (s.withdraws && answers.dismissed) = true ∧ Stands account .approve w.reviews then none
      else inForce account w.reviews := by
  unfold withdrawnReviews
  by_cases hdismissed : (s.withdraws && answers.dismissed) = true
  · rw [if_pos hdismissed, inForce_dismissOwnApproval]
    simp [hdismissed]
  · rw [if_neg hdismissed, if_neg fun h => hdismissed h.1]

theorem stands_of_posts {event : ReviewEvent} (hevent : s.event = event) (hverdict : event ≠ .comment)
    (hposts : s.posts = true) :
    Stands account event (submittedReviews account answers w s) := by
  rw [submittedReviews, if_pos hposts, Stands, hevent, inForce_submit_verdict _ _ _ hverdict]
  rfl

theorem inForce_submittedReviews_comment (hevent : s.event = .comment) :
    inForce account (submittedReviews account answers w s) =
      inForce account (withdrawnReviews account answers w s) := by
  rw [submittedReviews, hevent]
  split
  · exact inForce_submit_comment _ _ _
  · rfl

theorem unknown_of_standing_none {withdrawalFailed : Bool}
    (h : s.standingReviewAfterSuccess withdrawalFailed = none) : s.previousKnown = false := by
  unfold Situation.standingReviewAfterSuccess at h
  dsimp only at h
  split at h
  · split at h
    · next hunknown => simpa using hunknown
    · split at h
      · split at h <;> cases h
      · cases h
  · cases h

/-- What a call has read is what there was. -/
structure Sees (account : Account) (w : World) (s : Situation κ) : Prop where
  previous : s.previousReview =
    if s.previousKnown then ownReviewState account w.reviews else none
  published : ∀ r, s.publishedBefore = some r → w.stored.bind ReviewedState.publishedReview = some r

variable (hsees : Sees account w s)

include hsees

theorem Sees.stands_of_previous {event : ReviewEvent} (hverdict : event ≠ .comment)
    (h : s.previous = some event) : Stands account event w.reviews := by
  rw [← ownReviewState_event_iff hverdict, ← h, Situation.previous, hsees.previous]
  split
  · rfl
  · next hunknown =>
    rw [Situation.previous, hsees.previous, if_neg hunknown] at h
    cases h

theorem Sees.previous_of_stands {event : ReviewEvent} (hverdict : event ≠ .comment)
    (hknown : s.previousKnown = true) (h : Stands account event w.reviews) :
    s.previous = some event := by
  rw [Situation.previous, hsees.previous, if_pos hknown, ownReviewState_event_iff hverdict]
  exact h

/-- A verdict that is not submitted stands already. -/
theorem Sees.stands_of_unposted (hverdict : s.event ≠ .comment) (hposts : s.posts = false) :
    Stands account s.event w.reviews := by
  have hredundant : s.redundantApproval = true ∨ s.redundantDecision = true := by
    by_contra hneither
    rw [not_or, Bool.not_eq_true, Bool.not_eq_true] at hneither
    have hkind : s.event = .approve ∨ s.event = .requestChanges := by
      cases hevent : s.event <;> simp_all
    simp only [Situation.posts, hneither.1, hneither.2, Bool.not_false, Bool.true_and] at hposts
    rcases hkind with hkind | hkind <;> simp [hkind] at hposts
  rcases hredundant with happroval | hdecision
  · simp only [Situation.redundantApproval, Bool.and_eq_true, decide_eq_true_eq] at happroval
    obtain ⟨⟨⟨hevent, hprevious⟩, -⟩, -⟩ := happroval
    rw [hevent] at hverdict ⊢
    exact hsees.stands_of_previous hverdict hprevious
  · have hstanding : s.sameStandingReview = true := by
      simp only [Situation.redundantDecision, Bool.and_eq_true] at hdecision
      exact hdecision.1.2
    simp only [Situation.sameStandingReview, Bool.and_eq_true] at hstanding
    obtain ⟨published, -, hsame⟩ := (Option.any_eq_true _ _).mp hstanding.2
    have hprevious : s.previous = some s.event := by
      cases hevent : s.event with
      | comment => exact absurd hevent hverdict
      | approve | requestChanges =>
        rw [hevent] at hsame
        obtain ⟨review, hreview, hmatch⟩ := (Option.any_eq_true _ _).mp hsame
        rw [Bool.and_eq_true, decide_eq_true_eq] at hmatch
        rw [Situation.previous, hreview, Option.map_some, hmatch.1]
    exact hsees.stands_of_previous hverdict hprevious

theorem Sees.stands_event (hverdict : s.event ≠ .comment) :
    Stands account s.event (submittedReviews account answers w s) := by
  rcases Bool.eq_false_or_eq_true s.posts with hposts | hposts
  · exact stands_of_posts rfl hverdict hposts
  · have hkept : s.withdraws = false := by simp [Situation.withdraws, hverdict]
    rw [submittedReviews, if_neg (by simp [hposts]), withdrawnReviews, if_neg (by simp [hkept])]
    exact hsees.stands_of_unposted hverdict hposts

/-- An approval does not outlive a withdrawal that was due. -/
theorem Sees.not_stands_approve (hevent : s.event = .comment) (hunvouched : s.unvouched = true)
    (hdismissed : s.withdraws = true → answers.dismissed = true) :
    ¬Stands account .approve (submittedReviews account answers w s) := by
  rw [Stands, inForce_submittedReviews_comment hevent, inForce_withdrawnReviews]
  split
  · intro hnone
    cases hnone
  · next hkept =>
    intro hstands
    have hwithdraws : s.withdraws = true := by
      rcases Bool.eq_false_or_eq_true s.previousKnown with hknown | hknown
      · have hprevious := hsees.previous_of_stands (by decide : ReviewEvent.approve ≠ .comment)
          hknown hstands
        simp [Situation.withdraws, hunvouched, hevent, hprevious]
      · simp [Situation.withdraws, hunvouched, hevent, hknown]
    exact hkept ⟨by simp [hwithdraws, hdismissed hwithdraws], hstands⟩

/-- A receipt names what stands once the review is submitted. -/
theorem Sees.standing_of_receipt (hposts : s.posts = true) {own : OwnReview}
    (h : s.standingReviewAfterSuccess (s.withdraws && !answers.dismissed) = some own) :
    ownReviewState account (submittedReviews account answers w s) = some own.seen := by
  by_cases hverdict : s.event = .comment
  · have hafter : ownReviewState account (submittedReviews account answers w s) =
        (inForce account (withdrawnReviews account answers w s)).or
          (some (OwnReview.seen ⟨.comment, some s.proposal.headSha⟩)) := by
      rw [ownReviewState_eq, inForce_submittedReviews_comment hverdict, submittedReviews,
        if_pos hposts, hverdict, lastAdvice_submit_comment, metadata_submitted]
    rw [hafter, inForce_withdrawnReviews]
    simp only [Situation.standingReviewAfterSuccess, hverdict] at h
    rcases Bool.eq_false_or_eq_true s.previousKnown with hknown | hknown
    · have hprevious := hsees.previous
      rw [if_pos hknown, ownReviewState_eq] at hprevious
      cases hforce : inForce account w.reviews with
      | none =>
        rw [hforce, Option.none_or] at hprevious
        have hnot : ¬Stands account .approve w.reviews := by simp [Stands, hforce]
        rw [if_neg fun hboth => hnot hboth.2, Option.none_or]
        have hfresh : own = ⟨.comment, some s.proposal.headSha⟩ := by
          cases hadvice : lastAdvice account w.reviews with
          | none =>
            rw [hadvice] at hprevious
            simpa [hknown, hprevious] using h.symm
          | some advised =>
            have hkind := event_of_lastAdvice hadvice
            rw [hadvice] at hprevious
            simpa [hknown, hprevious, hkind] using h.symm
        rw [hfresh]
      | some standing =>
        rw [hforce, Option.some_or] at hprevious
        have hseen : standing.seen = standing := by
          apply @seen_ownReviewState account w.reviews
          rw [ownReviewState_eq, hforce, Option.some_or]
        have hkind := event_of_inForce hforce
        have hstands : Stands account .approve w.reviews ↔ standing.event = .approve := by
          rw [Stands, hforce, Option.map_some, Option.some.injEq]
        have hwithdraws : s.withdraws = (s.unvouched && standing.event = .approve) := by
          simp [Situation.withdraws, Situation.previous, hverdict, hprevious, hknown]
        simp only [hstands, hwithdraws]
        rw [hwithdraws] at h
        cases hevent : standing.event with
        | comment => exact absurd hevent hkind
        | requestChanges =>
          have hown : own = standing := by simpa [hknown, hprevious, hevent] using h.symm
          rw [hown, hseen]
          simp
        | approve =>
          cases hunvouched : s.unvouched <;> cases hdismissed : answers.dismissed <;>
            simp [hknown, hprevious, hevent, hunvouched, hdismissed] at h ⊢ <;>
            simp [← h, hseen]
    · simp [hknown] at h
  · have hown : own = ⟨s.event, some s.proposal.headSha⟩ := by
      simpa [Situation.standingReviewAfterSuccess, hverdict] using h.symm
    rw [ownReviewState_eq, submittedReviews, if_pos hposts, inForce_submit_verdict _ _ _ hverdict,
      Option.some_or, hown, metadata_submitted]

end Publish

section Call

variable {κ : Type} [Confidence κ] (isAlphanumeric : Char → Bool) (sha256 : Text → List UInt8)
variable (account : Account)

/-- One call on the pull request, with what it is answered. -/
structure Call (κ : Type) where
  config : Config κ
  proposal : Proposal κ
  answers : Answers

namespace Call

variable (c : Call κ) (w : World)

def apply : Applied :=
  App.apply isAlphanumeric sha256 account c.config c.proposal c.answers w

/-- What a call sees that gets as far as a decision. -/
def sees : Situation κ :=
  situation isAlphanumeric sha256 account c.config c.proposal c.answers w
    (c.answers.live.getD ⟨false, false, [], false⟩) (c.answers.files.getD [])

/-- A call ends before it decides, or publishes what it sees. -/
theorem apply_cases :
    (∃ result, result ≠ .ok .published ∧
        c.apply isAlphanumeric sha256 account w = ⟨w, result, false⟩) ∨
      c.apply isAlphanumeric sha256 account w =
        publish account c.answers w (c.sees isAlphanumeric sha256 account w) := by
  unfold apply App.apply sees
  cases c.answers.live with
  | none => exact .inl ⟨.error .pullRequest, nofun, rfl⟩
  | some live =>
    dsimp only
    split_ifs
    · exact .inl ⟨.ok .closed, nofun, rfl⟩
    · exact .inl ⟨.ok .superseded, nofun, rfl⟩
    · exact .inl ⟨.error .check, nofun, rfl⟩
    · cases c.answers.files with
      | none => exact .inl ⟨.error .changedFiles, nofun, rfl⟩
      | some files => exact .inr rfl

theorem sees_sees : Sees account w (c.sees isAlphanumeric sha256 account w) where
  previous := rfl
  published := by
    intro r hr
    simp only [Call.sees, situation] at hr
    split at hr
    · exact hr
    · cases hr

variable {isAlphanumeric sha256 account c w} in
/-- A published call submits what it decides to, and withdraws what it has to. -/
theorem apply_of_published
    (h : (c.apply isAlphanumeric sha256 account w).result = .ok .published) :
    (c.apply isAlphanumeric sha256 account w).reviewPublished =
        (c.sees isAlphanumeric sha256 account w).posts ∧
      (c.apply isAlphanumeric sha256 account w).world.reviews =
        submittedReviews account c.answers w (c.sees isAlphanumeric sha256 account w) ∧
      ((c.sees isAlphanumeric sha256 account w).withdraws = true → c.answers.dismissed = true) := by
  rcases apply_cases isAlphanumeric sha256 account c w with ⟨result, hresult, heq⟩ | heq
  · rw [heq] at h
    exact absurd h hresult
  · rw [heq] at h ⊢
    rcases publish_cases account c.answers w (c.sees isAlphanumeric sha256 account w) with
      ⟨_, hfailed, _⟩ | ⟨hposts, hreviews, _, hwithdrawn⟩
    · exact absurd h hfailed
    · exact ⟨hposts, hreviews, hwithdrawn h⟩

end Call

/-- A turn of a pull request: a call, or what others make of its reviews. -/
inductive Turn (κ : Type) where
  | call (c : Call κ)
  | others (reviews : List Review)

def Turn.next : Turn κ → World → World
  | .call c, w => (c.apply isAlphanumeric sha256 account w).world
  | .others reviews, w => { w with reviews }

def after (turns : List (Turn κ)) (w : World) : World :=
  turns.foldl (fun w turn => turn.next isAlphanumeric sha256 account w) w

/-- A call of the run that submitted a review, and the world it began in. -/
structure Submitted (turns : List (Turn κ)) (w : World) (earlier : Call κ) (began : World) :
    Prop where
  turn : ∃ before later, turns = before ++ .call earlier :: later ∧
    began = after isAlphanumeric sha256 account before w
  submitted : (earlier.apply isAlphanumeric sha256 account began).reviewPublished = true

/-- What a receipt says of the call it is for. -/
structure ReceiptOf (earlier : Call κ) (began : World) (published : PublishedReview) : Prop where
  event : published.event = (earlier.sees isAlphanumeric sha256 account began).event
  headSha : published.headSha = earlier.proposal.headSha
  blocking : blockingFindingSet earlier.proposal = some published.blockingFindings
  coverage : published.coverageComplete = some earlier.proposal.complete
  standing : ∀ own, published.standingReview = some own →
    ownReviewState account (earlier.apply isAlphanumeric sha256 account began).world.reviews =
      some own.seen
  unknown : published.standingReview = none → earlier.answers.history = false

variable {isAlphanumeric sha256 account}

theorem publishedReview_recordApplyState {answers : Answers} {publication : Option PublishedReview}
    {stored : Option ReviewedState} {r : PublishedReview}
    (h : (recordApplyState answers publication stored).bind ReviewedState.publishedReview = some r) :
    publication = some r ∨ stored.bind ReviewedState.publishedReview = some r := by
  unfold recordApplyState at h
  split at h
  · cases publication with
    | some published => exact .inl h
    | none =>
      cases stored with
      | none => cases h
      | some state => exact .inr h
  · exact .inr h

/-- What is stored after a call was stored before, or is the receipt of the call. -/
theorem receipt_cases {c : Call κ} {w : World} {r : PublishedReview}
    (h : (c.apply isAlphanumeric sha256 account w).world.stored.bind
      ReviewedState.publishedReview = some r) :
    w.stored.bind ReviewedState.publishedReview = some r ∨
      ((c.apply isAlphanumeric sha256 account w).reviewPublished = true ∧
        ReceiptOf isAlphanumeric sha256 account c w r) := by
  rcases c.apply_cases isAlphanumeric sha256 account w with ⟨result, _, heq⟩ | heq
  · rw [heq] at h
    exact .inl h
  have hsees := c.sees_sees isAlphanumeric sha256 account w
  generalize hs : c.sees isAlphanumeric sha256 account w = s at heq hsees
  rw [heq] at h ⊢
  rcases publish_cases account c.answers w s with ⟨_, _, hstored⟩ | ⟨hposts, hleft, hstored, _⟩
  · rw [hstored] at h
    exact .inl h
  · rw [hstored] at h
    rcases publishedReview_recordApplyState h with hpublication | hbefore
    · split at hpublication
      · next hsubmits =>
        apply Or.inr
        obtain ⟨blocking, hblocking, rfl⟩ := Option.map_eq_some_iff.mp hpublication
        have hproposal : s.proposal = c.proposal := by
          rw [← hs]
          rfl
        refine ⟨by rw [hposts, hsubmits], ?_⟩
        exact {
          event := by rw [hs]
          headSha := by rw [hproposal]
          blocking := by rw [← hproposal, hblocking]
          coverage := by rw [hproposal]
          standing := by
            intro own hown
            rw [heq, hleft]
            exact hsees.standing_of_receipt hsubmits hown
          unknown := by
            intro hnone
            have hknown : s.previousKnown = c.answers.history := by
              rw [← hs]
              rfl
            rw [← hknown]
            exact unknown_of_standing_none hnone }
      · cases hpublication
    · exact .inl hbefore

/-- Over a run that begins without a receipt, every receipt is of an earlier submission. -/
theorem receipt_after {w : World} (hfresh : w.stored.bind ReviewedState.publishedReview = none)
    (turns : List (Turn κ)) {r : PublishedReview}
    (h : (after isAlphanumeric sha256 account turns w).stored.bind
      ReviewedState.publishedReview = some r) :
    ∃ earlier began, Submitted isAlphanumeric sha256 account turns w earlier began ∧
      ReceiptOf isAlphanumeric sha256 account earlier began r := by
  induction turns using List.reverseRecOn generalizing r with
  | nil =>
    rw [show (after isAlphanumeric sha256 account [] w : World) = w from rfl, hfresh] at h
    cases h
  | append_singleton turns turn ih =>
    have hlater : (after isAlphanumeric sha256 account turns w).stored.bind
        ReviewedState.publishedReview = some r →
        ∃ earlier began, Submitted isAlphanumeric sha256 account (turns ++ [turn]) w earlier began ∧
          ReceiptOf isAlphanumeric sha256 account earlier began r := by
      intro hbefore
      obtain ⟨earlier, began, ⟨⟨before, later, rfl, hbegan⟩, hsubmitted⟩, hreceipt⟩ := ih hbefore
      exact ⟨earlier, began, ⟨⟨before, later ++ [turn], by simp, hbegan⟩, hsubmitted⟩, hreceipt⟩
    have hstep : after isAlphanumeric sha256 account (turns ++ [turn]) w =
        turn.next isAlphanumeric sha256 account (after isAlphanumeric sha256 account turns w) :=
      List.foldl_concat _ _ _ _
    rw [hstep] at h
    cases turn with
    | others reviews => exact hlater h
    | call c =>
      rcases receipt_cases h with hbefore | ⟨hsubmitted, hreceipt⟩
      · exact hlater hbefore
      · exact ⟨c, _, ⟨⟨turns, [], rfl, rfl⟩, hsubmitted⟩, hreceipt⟩

variable (isAlphanumeric sha256 account)

/-- Nothing to say: no inline comment, every lane answered, the current version. -/
def Call.Silent (c : Call κ) (w : World) : Prop :=
  (c.sees isAlphanumeric sha256 account w).comments = [] ∧ c.proposal.answered = true ∧
    c.proposal.version = PROPOSAL_VERSION

/-- An earlier call submitted the same comment, and what stood then stands. -/
def Call.Repeats (c : Call κ) (turns : List (Turn κ)) (w : World) : Prop :=
  ∃ earlier began, Submitted isAlphanumeric sha256 account turns w earlier began ∧
    (earlier.sees isAlphanumeric sha256 account began).event = .comment ∧
    blockingFindingSet earlier.proposal = blockingFindingSet c.proposal ∧
    earlier.proposal.complete = c.proposal.complete ∧
    (ownReviewState account (after isAlphanumeric sha256 account turns w).reviews =
        ownReviewState account (earlier.apply isAlphanumeric sha256 account began).world.reviews ∨
      earlier.answers.history = false ∧
        ownReviewState account (after isAlphanumeric sha256 account turns w).reviews =
          some ⟨.comment, some earlier.proposal.headSha⟩)

/-- An approval is due whatever was said before. -/
def Call.DueApproval (c : Call κ) : Prop :=
  c.answers.live.any (·.draft) = false ∧ c.config.approveWhenClean = true

/-- The verdict left standing by a call made after these turns. -/
structure VerdictSound (turns : List (Turn κ)) (w : World) (c : Call κ) : Prop where
  requested : requestsChanges c.config c.proposal.lanes = true → Stands account .requestChanges
    (c.apply isAlphanumeric sha256 account (after isAlphanumeric sha256 account turns w)).world.reviews
  withdrawn : c.proposal.complete = false → c.proposal.skipped = none →
    requestsChanges c.config c.proposal.lanes = false → ¬Stands account .approve
      (c.apply isAlphanumeric sha256 account
        (after isAlphanumeric sha256 account turns w)).world.reviews
  cleared : c.proposal.complete = true → c.proposal.blocked = false →
    Stands account .requestChanges (after isAlphanumeric sha256 account turns w).reviews →
    c.answers.history = true ∨ c.DueApproval → ¬Stands account .requestChanges
      (c.apply isAlphanumeric sha256 account
        (after isAlphanumeric sha256 account turns w)).world.reviews
  unposted :
    (c.apply isAlphanumeric sha256 account
      (after isAlphanumeric sha256 account turns w)).reviewPublished = false →
    (c.sees isAlphanumeric sha256 account (after isAlphanumeric sha256 account turns w)).event ≠
        .comment ∧
      Stands account
        (c.sees isAlphanumeric sha256 account (after isAlphanumeric sha256 account turns w)).event
        (c.apply isAlphanumeric sha256 account
          (after isAlphanumeric sha256 account turns w)).world.reviews ∨
    (c.sees isAlphanumeric sha256 account (after isAlphanumeric sha256 account turns w)).event =
        .comment ∧
      (c.Silent isAlphanumeric sha256 account (after isAlphanumeric sha256 account turns w) ∨
        c.Repeats isAlphanumeric sha256 account turns w)

theorem Call.event_eq (c : Call κ) (w : World) :
    (c.sees isAlphanumeric sha256 account w).event =
      reviewEvent c.config c.proposal (c.sees isAlphanumeric sha256 account w).previous
        (c.sees isAlphanumeric sha256 account w).draft := rfl

variable {isAlphanumeric sha256 account}

/-- A comment left unsaid says nothing, or was said before. -/
theorem Call.silent_or_repeats {turns : List (Turn κ)} {w : World} {c : Call κ}
    (hfresh : w.stored.bind ReviewedState.publishedReview = none)
    (hevent : (c.sees isAlphanumeric sha256 account
      (after isAlphanumeric sha256 account turns w)).event = .comment)
    (hposts : (c.sees isAlphanumeric sha256 account
      (after isAlphanumeric sha256 account turns w)).posts = false) :
    c.Silent isAlphanumeric sha256 account (after isAlphanumeric sha256 account turns w) ∨
      c.Repeats isAlphanumeric sha256 account turns w := by
  have hsees := c.sees_sees isAlphanumeric sha256 account
    (after isAlphanumeric sha256 account turns w)
  have hproposal : (c.sees isAlphanumeric sha256 account
    (after isAlphanumeric sha256 account turns w)).proposal = c.proposal := rfl
  unfold Call.Silent
  generalize c.sees isAlphanumeric sha256 account
    (after isAlphanumeric sha256 account turns w) = s at hevent hposts hsees hproposal ⊢
  rcases Bool.eq_false_or_eq_true s.redundantDecision with hredundant | hredundant
  · apply Or.inr
    simp only [Situation.redundantDecision, Situation.samePublishedDecision,
      Situation.sameStandingReview, hevent, Bool.and_eq_true, decide_eq_true_eq] at hredundant
    obtain ⟨⟨hsame, hknown, hstanding⟩, hcoverage⟩ := hredundant
    obtain ⟨published, hpublished, hsame⟩ := (Option.any_eq_true _ _).mp hsame
    obtain ⟨blocking, hblocking, hsame⟩ := (Option.any_eq_true _ _).mp hsame
    simp only [Bool.and_eq_true, decide_eq_true_eq] at hsame
    rw [hpublished] at hcoverage hstanding
    rw [Option.any_some] at hstanding
    have hprevious := hsees.previous
    rw [if_pos hknown] at hprevious
    obtain ⟨earlier, began, hsubmitted, hreceipt⟩ :=
      receipt_after hfresh turns (hsees.published published hpublished)
    refine ⟨earlier, began, hsubmitted, ?_, ?_, ?_, ?_⟩
    · rw [← hreceipt.event, hsame.1]
    · rw [hreceipt.blocking, hsame.2, ← hproposal, hblocking]
    · rw [Option.bind_some, hreceipt.coverage, Option.some.injEq, hproposal] at hcoverage
      exact hcoverage
    · rw [← hprevious]
      cases hactual : s.previousReview with
      | none => simp [hactual] at hstanding
      | some actual =>
        rw [hactual] at hstanding
        cases hexpected : published.standingReview with
        | some expected =>
          rw [hexpected] at hstanding
          have hsameReview : expected = actual := by simpa using hstanding
          have hseen := seen_ownReviewState (hprevious.symm.trans hactual)
          left
          rw [hreceipt.standing expected hexpected, hsameReview, hseen]
        | none =>
          rw [hexpected] at hstanding
          simp only [Bool.and_eq_true, decide_eq_true_eq] at hstanding
          refine .inr ⟨hreceipt.unknown hexpected, ?_⟩
          rw [← hreceipt.headSha, ← hstanding.1, ← hstanding.2]
  · apply Or.inl
    have happroval : s.redundantApproval = false := by simp [Situation.redundantApproval, hevent]
    simp only [Situation.posts, happroval, hredundant, hevent, Situation.mustSay,
      hproposal] at hposts
    simpa [List.isEmpty_iff] using hposts

/-- What a published call leaves standing is what it decided, whatever happened before. -/
theorem verdict_sound {w : World} (hfresh : w.stored.bind ReviewedState.publishedReview = none)
    (turns : List (Turn κ)) (c : Call κ)
    (hpublished : (c.apply isAlphanumeric sha256 account
      (after isAlphanumeric sha256 account turns w)).result = .ok .published) :
    VerdictSound isAlphanumeric sha256 account turns w c := by
  obtain ⟨hposts, hreviews, hwithdrawn⟩ := Call.apply_of_published hpublished
  have hsees := c.sees_sees isAlphanumeric sha256 account
    (after isAlphanumeric sha256 account turns w)
  have hevent := c.event_eq isAlphanumeric sha256 account
    (after isAlphanumeric sha256 account turns w)
  constructor
  · intro hrequests
    have hkind : (c.sees isAlphanumeric sha256 account
        (after isAlphanumeric sha256 account turns w)).event = .requestChanges := by
      rw [hevent, reviewEvent, if_pos hrequests]
    rw [hreviews, ← hkind]
    exact hsees.stands_event (by rw [hkind]; decide)
  · intro hcomplete hskipped hrequests
    have hkind : (c.sees isAlphanumeric sha256 account
        (after isAlphanumeric sha256 account turns w)).event = .comment := by
      rw [hevent]
      simp [reviewEvent, hrequests, hcomplete]
    rw [hreviews]
    refine hsees.not_stands_approve hkind ?_ hwithdrawn
    have hunvouched : (!c.proposal.complete && c.proposal.skipped.isNone) = true := by
      simp [hcomplete, hskipped]
    exact hunvouched
  · intro hcomplete hblocked hstands hread
    have hrequests : requestsChanges c.config c.proposal.lanes = false := by
      have hnone : (c.proposal.lanes.any fun l => l.conclusion.blocks) = false := hblocked
      unfold requestsChanges
      split <;> simp [hnone]
    have hkind : (c.sees isAlphanumeric sha256 account
        (after isAlphanumeric sha256 account turns w)).event = .approve := by
      rw [hevent, reviewEvent, if_neg (by simp [hrequests])]
      rcases hread with hknown | ⟨hdraft, hclean⟩
      · have hprevious := hsees.previous_of_stands
          (by decide : ReviewEvent.requestChanges ≠ .comment) hknown hstands
        simp [hprevious, hcomplete]
      · have hready : (c.sees isAlphanumeric sha256 account
            (after isAlphanumeric sha256 account turns w)).draft = false := by
          have hread : (c.sees isAlphanumeric sha256 account
              (after isAlphanumeric sha256 account turns w)).draft =
                (c.answers.live.getD ⟨false, false, [], false⟩).draft := rfl
          rw [hread]
          cases hlive : c.answers.live with
          | none => rfl
          | some live => simpa [hlive] using hdraft
        simp [hready, hblocked, hcomplete, hclean]
    have happroved := @Sees.stands_event _ _ c.answers _ _ hsees (by rw [hkind]; decide)
    rw [hreviews]
    rw [hkind, Stands] at happroved
    rw [Stands, happroved]
    intro hblocks
    cases hblocks
  · intro hunposted
    rw [hposts] at hunposted
    by_cases hverdict : (c.sees isAlphanumeric sha256 account
        (after isAlphanumeric sha256 account turns w)).event = .comment
    · exact .inr ⟨hverdict, Call.silent_or_repeats hfresh hverdict hunposted⟩
    · refine .inl ⟨hverdict, ?_⟩
      rw [hreviews]
      exact hsees.stands_event hverdict

end Call

def theApp : Account := ⟨"tinysweeper".toList, "tinysweeper[bot]".toList, by decide⟩

/-- A proposal without findings. -/
def clean (headSha : Text) (unreviewed : List Text) : Proposal ℕ :=
  ⟨PROPOSAL_VERSION, headSha, [], unreviewed, none⟩

def lenient (approveWhenClean : Bool) : Config ℕ where
  failOn _ := .high
  requestChangesAt := some .high
  severityGate := .low
  confidenceMin := 70
  noteConfidence := 40
  maxComments := 10
  approveWhenClean

/-- Everything succeeds, but for the lookup of the review history perhaps. -/
def answering (headSha : Text) (history : Bool) : Answers where
  live := some ⟨true, false, headSha, false⟩
  checks := true
  history
  loaded := true
  files := some []
  dismissed := true
  created := true
  reviewId := 9
  reloaded := true
  saved := true
  triaged := true

/-- Changes were requested on an earlier head. -/
def objected : World :=
  ⟨[submitted theApp 1 .requestChanges ['a']], none⟩

theorem verdict_sound_objected :
    let c : Call ℕ := ⟨lenient false, clean ['b'] [], answering ['b'] true⟩
    VerdictSound Char.isAlphanum (fun _ => []) theApp [] objected c :=
  verdict_sound rfl [] _ (by decide +kernel)

/-- A clean push during an outage of the lookup leaves the objection standing, and an unseen file
is not said while another verdict stands. -/
theorem stated_soundness_fails :
    let outage : Call ℕ := ⟨lenient false, clean ['b'] [], answering ['b'] false⟩
    let withheld : Call ℕ := ⟨lenient false, clean ['b'] ["big".toList], answering ['b'] true⟩
    let after : Call ℕ → Applied := fun c => c.apply Char.isAlphanum (fun _ => []) theApp objected
    ((after outage).result = .ok .published ∧ outage.proposal.complete = true ∧
        outage.proposal.blocked = false ∧ Stands theApp .requestChanges objected.reviews ∧
        Stands theApp .requestChanges (after outage).world.reviews) ∧
      (after withheld).result = .ok .published ∧ (after withheld).reviewPublished = false ∧
        (withheld.sees Char.isAlphanum (fun _ => []) theApp objected).event = .comment ∧
        Stands theApp .requestChanges (after withheld).world.reviews := by
  intro outage withheld after
  refine ⟨⟨rfl, ?_, ?_, ?_, ?_⟩, rfl, ?_, ?_, ?_⟩ <;> decide +kernel

end TinySweeper.App
