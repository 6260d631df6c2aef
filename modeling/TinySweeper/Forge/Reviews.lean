import TinySweeper.Latest
import TinySweeper.Text

/-!
# The verdict that stands

The reviews of a pull request, oldest first. A comment never retires a verdict, a
newer verdict replaces an older one, and a dismissed review takes its verdict away.
-/

namespace TinySweeper.Forge

open Text

/-- How a review is submitted. -/
inductive ReviewEvent where
  | comment
  | requestChanges
  | approve
  deriving DecidableEq, Repr

/-- What the forge says about a submitted review. -/
inductive ReviewState where
  | approved
  | changesRequested
  | commented
  | dismissed
  | pending
  deriving DecidableEq, Repr

structure Review where
  id : ℕ
  login : Text
  state : ReviewState
  commitId : Option Text
  deriving DecidableEq, Repr

/-- The bot's own verdict, or its last comment where none stands, and the commit reviewed. -/
structure OwnReview where
  event : ReviewEvent
  headSha : Option Text
  deriving DecidableEq, Repr

/-- Exactly the configured account, with or without the suffix of an app. -/
def loginMatches (login expected : Text) : Bool :=
  if login.isEmpty then false
  else if (trim expected).isEmpty then false
  else
    let bare :=
      if "[bot]".toList.isSuffixOf login then login.take (login.length - 5) else login
    toAsciiLowercase bare = toAsciiLowercase (trim expected)

/-- The account the bot posts as, and the login it is configured with. -/
structure Account where
  expected : Text
  login : Text
  own : loginMatches login expected = true

section Own

variable (account : Account)

def isOwn (r : Review) : Bool := loginMatches r.login account.expected

def metadata (r : Review) (event : ReviewEvent) : OwnReview :=
  ⟨event, r.commitId.filter fun head => !(trim head).isEmpty⟩

/-- The last verdict and the last comment so far. -/
structure Standing where
  lastVerdict : Option OwnReview
  lastComment : Option OwnReview
  deriving DecidableEq, Repr

def Standing.next (s : Standing) (r : Review) : Standing :=
  if isOwn account r then
    match r.state with
    | .changesRequested => { s with lastVerdict := some (metadata r .requestChanges) }
    | .approved => { s with lastVerdict := some (metadata r .approve) }
    | .dismissed => ⟨none, some (metadata r .comment)⟩
    | .commented => { s with lastComment := some (metadata r .comment) }
    | .pending => s
  else s

/-- The verdict that stands; a comment counts only where none does. -/
def ownReviewState (reviews : List Review) : Option OwnReview :=
  let s := reviews.foldl (Standing.next account) ⟨none, none⟩
  s.lastVerdict.or s.lastComment

/-- The approval of ours that is in force. -/
def ownStandingApprovalId (reviews : List Review) : Option ℕ :=
  reviews.foldl (fun standing r =>
    if isOwn account r then
      match r.state with
      | .approved => some r.id
      | .changesRequested | .dismissed => none
      | _ => standing
    else standing) none

/-- The forge marks the review with this identifier as dismissed. -/
def dismiss (id : ℕ) (reviews : List Review) : List Review :=
  reviews.map fun r => if r.id = id then { r with state := .dismissed } else r

def dismissOwnApproval (reviews : List Review) : List Review :=
  match ownStandingApprovalId account reviews with
  | none => reviews
  | some id => dismiss id reviews

def ReviewEvent.state : ReviewEvent → ReviewState
  | .comment => .commented
  | .requestChanges => .changesRequested
  | .approve => .approved

/-- What a review says about the verdict: nothing, that none stands, or which one does. -/
def verdict (r : Review) : Option (Option OwnReview) :=
  if isOwn account r then
    match r.state with
    | .changesRequested => some (some (metadata r .requestChanges))
    | .approved => some (some (metadata r .approve))
    | .dismissed => some none
    | .commented | .pending => none
  else none

def advice (r : Review) : Option (Option OwnReview) :=
  if isOwn account r then
    match r.state with
    | .dismissed | .commented => some (some (metadata r .comment))
    | _ => none
  else none

/-- The verdict in force. -/
def inForce (reviews : List Review) : Option OwnReview := latest (verdict account) none reviews

def lastAdvice (reviews : List Review) : Option OwnReview := latest (advice account) none reviews

/-- A verdict of this kind stands. -/
def Stands (event : ReviewEvent) (reviews : List Review) : Prop :=
  (inForce account reviews).map OwnReview.event = some event

instance (event : ReviewEvent) (reviews : List Review) :
    Decidable (Stands account event reviews) := inferInstanceAs (Decidable (_ = _))

variable {account}

theorem next_lastVerdict (s : Standing) (r : Review) :
    (Standing.next account s r).lastVerdict = (verdict account r).getD s.lastVerdict := by
  unfold Standing.next verdict
  split
  · cases r.state <;> rfl
  · rfl

theorem next_lastComment (s : Standing) (r : Review) :
    (Standing.next account s r).lastComment = (advice account r).getD s.lastComment := by
  unfold Standing.next advice
  split
  · cases r.state <;> rfl
  · rfl

/-- The forge's answer is the verdict in force, or else the last comment. -/
theorem ownReviewState_eq (reviews : List Review) :
    ownReviewState account reviews = (inForce account reviews).or (lastAdvice account reviews) := by
  have hverdict := foldl_eq_latest (@next_lastVerdict account) ⟨none, none⟩ reviews
  have hadvice := foldl_eq_latest (@next_lastComment account) ⟨none, none⟩ reviews
  simp only [ownReviewState, hverdict, hadvice]
  rfl

theorem event_of_verdict {r : Review} {own : OwnReview}
    (h : verdict account r = some (some own)) : own.event ≠ .comment := by
  unfold verdict at h
  split at h
  · cases hstate : r.state <;> rw [hstate] at h <;> cases h <;> simp [metadata]
  · cases h

theorem event_of_inForce {reviews : List Review} {own : OwnReview}
    (h : inForce account reviews = some own) : own.event ≠ .comment := by
  rcases latest_eq_iff.mp h with ⟨_, r, _, _, hr, _⟩ | ⟨_, hnone⟩
  · exact event_of_verdict hr
  · cases hnone

theorem event_of_lastAdvice {reviews : List Review} {own : OwnReview}
    (h : lastAdvice account reviews = some own) : own.event = .comment := by
  rcases latest_eq_iff.mp h with ⟨_, r, _, _, hr, _⟩ | ⟨_, hnone⟩
  · unfold advice at hr
    split at hr
    · cases hstate : r.state <;> rw [hstate] at hr <;> cases hr <;> rfl
    · cases hr
  · cases hnone

/-- A verdict is read just where it stands. -/
theorem ownReviewState_event_iff {reviews : List Review} {event : ReviewEvent}
    (hevent : event ≠ .comment) :
    (ownReviewState account reviews).map OwnReview.event = some event ↔
      Stands account event reviews := by
  rw [ownReviewState_eq, Stands]
  cases hforce : inForce account reviews with
  | some own => rw [Option.some_or]
  | none =>
    rw [Option.none_or]
    refine iff_of_false ?_ nofun
    intro h
    obtain ⟨own, hown, hkind⟩ := Option.map_eq_some_iff.mp h
    rw [event_of_lastAdvice hown] at hkind
    exact hevent hkind.symm

theorem latest_const {α β : Type*} {mark : α → Option β} {b : β} {l : List α}
    (h : ∀ a ∈ l, mark a = none ∨ mark a = some b) : latest mark b l = b := by
  induction l with
  | nil => rfl
  | cons a l ih =>
    have hrest := ih fun c hc => h c (List.mem_cons_of_mem a hc)
    rcases h a List.mem_cons_self with ha | ha
    · rw [latest_cons, ha]
      exact hrest
    · rw [latest_cons, ha]
      exact hrest

/-- What a review says about the approval to dismiss. -/
def approval (account : Account) (r : Review) : Option (Option ℕ) :=
  (verdict account r).map fun own =>
    if own.map OwnReview.event = some .approve then some r.id else none

theorem ownStandingApprovalId_eq (reviews : List Review) :
    ownStandingApprovalId account reviews = latest (approval account) none reviews := by
  refine @foldl_eq_latest _ _ _ _ _ id (fun standing r => ?_) none reviews
  unfold approval verdict
  dsimp only [id]
  split
  · cases r.state <;> rfl
  · rfl

variable (account) in
/-- Without a standing approval there is none to dismiss; otherwise it is the last verdict. -/
theorem ownStandingApprovalId_cases (reviews : List Review) :
    (ownStandingApprovalId account reviews = none ∧ ¬Stands account .approve reviews) ∨
      ∃ before r after, reviews = before ++ r :: after ∧ isOwn account r = true ∧
        (∀ later ∈ after, verdict account later = none) ∧
        ownStandingApprovalId account reviews = some r.id ∧ Stands account .approve reviews := by
  have hquiet : ∀ {r}, verdict account r = none → approval account r = none := by
    intro r hr
    rw [approval, hr, Option.map_none]
  rw [ownStandingApprovalId_eq, Stands, inForce]
  rcases unmarked_or_last (verdict account) reviews with
    hnone | ⟨before, r, after, own, rfl, hr, hafter⟩
  · rw [latest_of_unmarked hnone, latest_of_unmarked fun r hr => hquiet (hnone r hr)]
    exact .inl ⟨rfl, nofun⟩
  · have hmark : approval account r =
        some (if own.map OwnReview.event = some .approve then some r.id else none) := by
      rw [approval, hr, Option.map_some]
    rw [latest_of_last hr hafter, latest_of_last hmark fun later hlater => hquiet (hafter later hlater)]
    split
    · next happroved =>
      refine .inr ⟨before, r, after, rfl, ?_, hafter, rfl, happroved⟩
      by_contra hother
      rw [verdict, if_neg hother] at hr
      cases hr
    · next hother => exact .inl ⟨rfl, hother⟩

theorem verdict_dismissed {r : Review} (hown : isOwn account r = true) :
    verdict account { r with state := .dismissed } = some none := by
  have hsame : isOwn account { r with state := .dismissed } = true := hown
  rw [verdict, if_pos hsame]

/-- A dismissal takes a standing approval away, and nothing else. -/
theorem inForce_dismissOwnApproval (reviews : List Review) :
    inForce account (dismissOwnApproval account reviews) =
      if Stands account .approve reviews then none else inForce account reviews := by
  unfold dismissOwnApproval
  rcases ownStandingApprovalId_cases account reviews with
    ⟨hid, hnot⟩ | ⟨before, r, after, rfl, hown, hafter, hid, hstands⟩
  · rw [hid, if_neg hnot]
  · rw [hid, if_pos hstands]
    dsimp only
    have hlater : ∀ later ∈ dismiss r.id after,
        verdict account later = none ∨ verdict account later = some none := by
      intro later hlater
      obtain ⟨review, hreview, rfl⟩ := List.mem_map.mp hlater
      have hquiet := hafter review hreview
      split
      · by_cases hown : isOwn account review = true
        · exact .inr (verdict_dismissed hown)
        · have hother : isOwn account { review with state := .dismissed } ≠ true := hown
          exact .inl (by rw [verdict, if_neg hother])
      · exact .inl hquiet
    have hsplit : dismiss r.id (before ++ r :: after) =
        dismiss r.id before ++ { r with state := .dismissed } :: dismiss r.id after := by
      simp [dismiss]
    rw [inForce, hsplit, latest_append, latest_cons, verdict_dismissed hown]
    exact latest_const hlater

/-- The review the forge records for a submission. -/
def submitted (account : Account) (id : ℕ) (event : ReviewEvent) (headSha : Text) : Review :=
  ⟨id, account.login, event.state, some headSha⟩

theorem isOwn_submitted (id : ℕ) (event : ReviewEvent) (headSha : Text) :
    isOwn account (submitted account id event headSha) = true := account.own

/-- A submitted verdict is the one in force. -/
theorem inForce_submit_verdict (reviews : List Review) (id : ℕ) {event : ReviewEvent}
    (headSha : Text) (hevent : event ≠ .comment) :
    inForce account (reviews ++ [submitted account id event headSha]) =
      some (metadata (submitted account id event headSha) event) := by
  have hverdict : verdict account (submitted account id event headSha) =
      some (some (metadata (submitted account id event headSha) event)) := by
    rw [verdict, if_pos (isOwn_submitted id event headSha)]
    cases event with
    | comment => exact absurd rfl hevent
    | requestChanges => rfl
    | approve => rfl
  rw [inForce, latest_append, latest_cons, hverdict]
  rfl

/-- A submitted comment leaves the verdict as it is. -/
theorem inForce_submit_comment (reviews : List Review) (id : ℕ) (headSha : Text) :
    inForce account (reviews ++ [submitted account id .comment headSha]) =
      inForce account reviews := by
  have hquiet : verdict account (submitted account id .comment headSha) = none := by
    rw [verdict, if_pos (isOwn_submitted id .comment headSha)]
    rfl
  rw [inForce, latest_append, latest_cons, hquiet]
  rfl

theorem lastAdvice_submit_comment (reviews : List Review) (id : ℕ) (headSha : Text) :
    lastAdvice account (reviews ++ [submitted account id .comment headSha]) =
      some (metadata (submitted account id .comment headSha) .comment) := by
  have hadvice : advice account (submitted account id .comment headSha) =
      some (some (metadata (submitted account id .comment headSha) .comment)) := by
    rw [advice, if_pos (isOwn_submitted id .comment headSha)]
    rfl
  rw [lastAdvice, latest_append, latest_cons, hadvice]
  rfl

/-- A review with the head the forge shows of it: a blank one is unknown. -/
def OwnReview.seen (own : OwnReview) : OwnReview :=
  { own with headSha := own.headSha.filter fun head => !(trim head).isEmpty }

theorem seen_metadata (r : Review) (event : ReviewEvent) :
    (metadata r event).seen = metadata r event := by
  unfold OwnReview.seen metadata
  rw [Option.filter_filter]
  simp

theorem seen_ownReviewState {reviews : List Review} {own : OwnReview}
    (h : ownReviewState account reviews = some own) : own.seen = own := by
  have hverdict : ∀ {r}, verdict account r = some (some own) → own.seen = own := by
    intro r hr
    unfold verdict at hr
    split at hr
    · cases hstate : r.state <;> rw [hstate] at hr <;> cases hr <;> exact seen_metadata r _
    · cases hr
  have hadvice : ∀ {r}, advice account r = some (some own) → own.seen = own := by
    intro r hr
    unfold advice at hr
    split at hr
    · cases hstate : r.state <;> rw [hstate] at hr <;> cases hr <;> exact seen_metadata r _
    · cases hr
  rw [ownReviewState_eq] at h
  cases hforce : inForce account reviews with
  | some standing =>
    rw [hforce] at h
    cases h
    rcases latest_eq_iff.mp hforce with ⟨_, r, _, _, hr, _⟩ | ⟨_, hnone⟩
    · exact hverdict hr
    · cases hnone
  | none =>
    rw [hforce, Option.none_or] at h
    rcases latest_eq_iff.mp h with ⟨_, r, _, _, hr, _⟩ | ⟨_, hnone⟩
    · exact hadvice hr
    · cases hnone

theorem metadata_submitted (id : ℕ) (event : ReviewEvent) (headSha : Text) :
    metadata (submitted account id event headSha) event =
      OwnReview.seen ⟨event, some headSha⟩ := rfl

end Own

end TinySweeper.Forge
