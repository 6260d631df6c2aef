import TinySweeper.Findings.PriorReview

/-!
# The open budget

A slot is held by the primary fingerprint of a comment of ours until every
conversation of ours that carries it is resolved. What others write is read past.
-/

namespace TinySweeper.Prior

open Text Findings Forge App
open Scan (Severity)

section Own

variable (expected : Text)

/-- A comment read as ours: a known review bot never is. -/
def ours (comment : ReviewComment) : Bool :=
  !isOtherReviewer comment.author && isOwnLogin expected comment.author

/-- A conversation that we opened. -/
def opened (thread : ReviewThread) : Bool :=
  thread.comments.head?.any fun opener => isOwnLogin expected opener.author

/-- The opening comments of our conversations, and which are resolved. -/
def ownThreads (threads : List ReviewThread) : List (Option ThreadComment × Bool) :=
  (threads.filter (opened expected)).map fun thread => (thread.comments.head?, thread.isResolved)

/-- An app's login is its slug and the suffix. -/
theorem slug_of_isOwnLogin {login slug : Text} (hown : isOwnLogin expected login = true)
    (hslug : stripSuffix "[bot]".toList login = some slug) :
    toAsciiLowercase slug = toAsciiLowercase (trim expected) := by
  rw [stripSuffix, Option.ite_none_right_eq_some] at hslug
  obtain ⟨hbot, hslug⟩ := hslug
  cases hslug
  rw [isOwnLogin, loginMatches, if_pos hbot] at hown
  split at hown
  · exact absurd hown Bool.false_ne_true
  · split at hown
    · exact absurd hown Bool.false_ne_true
    · exact of_decide_eq_true hown

/-- Unless a review bot's account is the one configured, ours are the comments of our login. -/
theorem ours_eq_isOwnLogin (h : toAsciiLowercase (trim expected) ∉ OTHER_REVIEWERS)
    (comment : ReviewComment) : ours expected comment = isOwnLogin expected comment.author := by
  rw [ours]
  cases hown : isOwnLogin expected comment.author with
  | false => simp
  | true =>
    suffices hother : isOtherReviewer comment.author = false by simp [hother]
    rw [isOtherReviewer, Option.any_eq_false]
    intro slug hslug
    rw [List.any_eq_false]
    intro known hknown heq
    rw [decide_eq_true_eq, slug_of_isOwnLogin expected hown hslug] at heq
    exact h (heq ▸ hknown)

def primary (comment : ReviewComment) : Option Text := (fingerprintsIn comment.body).head?

/-- The primary fingerprints of our own comments. -/
def primaries (comments : List ReviewComment) : List Text :=
  (comments.filter (ours expected)).filterMap primary

/-- Some conversation of ours carries the fingerprint, and all that do are resolved. -/
def Settled (threads : List ReviewThread) (f : Text) : Prop :=
  (∃ thread ∈ threads, identity expected thread = some f) ∧
    ∀ thread ∈ threads, identity expected thread = some f → thread.isResolved = true

end Own

/-- An anchor whichever of our conversations it came from. -/
def PostedAnchor.unsourced (anchor : PostedAnchor) : PostedAnchor := { anchor with source := .posted }

/-- The anchors that are not a review bot's. -/
def PriorReview.ownAnchors (prior : PriorReview) : List PostedAnchor :=
  prior.anchors.filter (·.source ≠ .otherReviewer)

def PriorReview.declinedAnchors (prior : PriorReview) : Finset PostedAnchor :=
  (prior.anchors.filter (·.source = .declined)).toFinset

/-- What is ours of it. -/
def PriorReview.own (prior : PriorReview) : PriorReview :=
  { prior with anchors := prior.ownAnchors }

def PriorReview.unsourced (prior : PriorReview) : PriorReview :=
  { prior with anchors := prior.anchors.map PostedAnchor.unsourced }

section Record

variable (expected : Text) (declined : Finset Text) (openBot : Finset (Text × Text))
  (all : List ReviewComment) (prior : PriorReview) (comment : ReviewComment)

theorem source_of_otherReviewerAnchor {anchor : PostedAnchor}
    (h : otherReviewerAnchor comment = some anchor) : anchor.source = .otherReviewer := by
  rw [otherReviewerAnchor, Option.map_eq_some_iff] at h
  obtain ⟨_, -, rfl⟩ := h
  rfl

/-- A review bot's comment changes nothing of ours. -/
theorem own_recordOther : (prior.recordOther openBot all comment).own = prior.own := by
  rw [PriorReview.recordOther]
  split
  · cases h : otherReviewerAnchor comment with
    | none => simp
    | some anchor =>
      have hsource := source_of_otherReviewerAnchor comment h
      simp [PriorReview.own, PriorReview.ownAnchors, hsource]
  · rfl

/-- A title is recorded without a look at the anchors. -/
theorem recordTitle_anchors (anchors : List PostedAnchor) (body : Text) :
    ({ prior with anchors } : PriorReview).recordTitle body =
      { prior.recordTitle body with anchors } := by
  unfold PriorReview.recordTitle
  split
  · rfl
  · split <;> rfl

theorem own_recordOwn :
    (prior.recordOwn declined comment).own = prior.own.recordOwn declined comment := by
  unfold PriorReview.recordOwn
  split
  · rfl
  · next primary aliases hf =>
    have hkept : (anchorOf (if primary ∈ declined then .declined else .posted) comment).source ≠
        .otherReviewer := by
      rw [anchorOf]
      split <;> simp
    by_cases hseen : primary ∈ prior.posted
    · simp [PriorReview.own, PriorReview.ownAnchors, hseen, hkept]
    · simp [PriorReview.own, PriorReview.ownAnchors, hseen, hkept, recordTitle_anchors]

theorem unsourced_recordOwn :
    (prior.recordOwn declined comment).unsourced = prior.unsourced.recordOwn ∅ comment := by
  unfold PriorReview.recordOwn
  split
  · rfl
  · next primary aliases hf =>
    by_cases hseen : primary ∈ prior.posted
    · simp [PriorReview.unsourced, PostedAnchor.unsourced, anchorOf, hseen]
    · simp [PriorReview.unsourced, PostedAnchor.unsourced, anchorOf, hseen, recordTitle_anchors]

/-- Of a comment that is not ours, nothing of ours is left. -/
theorem own_record : (prior.record expected declined openBot all comment).own =
    if ours expected comment then prior.own.recordOwn declined comment else prior.own := by
  unfold PriorReview.record ours
  cases isOtherReviewer comment.author with
  | true => simpa using own_recordOther openBot all prior comment
  | false =>
    cases isOwnLogin expected comment.author with
    | true => simpa using own_recordOwn declined prior comment
    | false => simp

end Record

section Run

variable (expected : Text) (declined : Finset Text) (openBot : Finset (Text × Text))
  (all comments : List ReviewComment) (prior : PriorReview)

theorem own_foldl_record :
    (comments.foldl (PriorReview.record expected declined openBot all) prior).own =
      (comments.filter (ours expected)).foldl (PriorReview.recordOwn declined) prior.own := by
  induction comments generalizing prior with
  | nil => rfl
  | cons comment rest ih =>
    rw [List.foldl_cons, ih, own_record, List.filter_cons]
    split <;> rfl

theorem unsourced_foldl_recordOwn :
    (comments.foldl (PriorReview.recordOwn declined) prior).unsourced =
      comments.foldl (PriorReview.recordOwn ∅) prior.unsourced := by
  induction comments generalizing prior with
  | nil => rfl
  | cons comment rest ih => rw [List.foldl_cons, ih, unsourced_recordOwn, List.foldl_cons]

/-- The anchor of one of our comments. -/
def ownAnchor (comment : ReviewComment) : Option PostedAnchor :=
  (primary comment).map fun f => anchorOf (if f ∈ declined then .declined else .posted) comment

theorem openFindings_recordOwn (comment : ReviewComment) :
    (prior.recordOwn declined comment).openFindings =
      prior.openFindings ∪ (primary comment).toFinset := by
  unfold PriorReview.recordOwn primary
  split
  · next hf => simp [hf]
  · next f aliases hf =>
    rw [hf]
    ext
    simp

theorem posted_recordOwn (comment : ReviewComment) :
    (prior.recordOwn declined comment).posted =
      prior.posted ∪ (fingerprintsIn comment.body).toFinset := by
  unfold PriorReview.recordOwn
  split
  · next hf => simp [hf]
  · next f aliases hf =>
    rw [hf]
    ext
    simp only [Finset.mem_union, Finset.mem_insert, List.mem_toFinset, List.mem_cons]
    tauto

theorem anchors_recordOwn (comment : ReviewComment) :
    (prior.recordOwn declined comment).anchors =
      prior.anchors ++ (ownAnchor declined comment).toList := by
  unfold PriorReview.recordOwn ownAnchor primary
  split
  · next hf => simp [hf]
  · next f aliases hf => simp [hf]

theorem openFindings_foldl_recordOwn :
    (comments.foldl (PriorReview.recordOwn declined) prior).openFindings =
      prior.openFindings ∪ (comments.filterMap primary).toFinset := by
  induction comments generalizing prior with
  | nil => simp
  | cons comment rest ih =>
    rw [List.foldl_cons, ih, openFindings_recordOwn, Finset.union_assoc]
    cases h : primary comment <;> simp [h]

theorem posted_foldl_recordOwn :
    (comments.foldl (PriorReview.recordOwn declined) prior).posted =
      prior.posted ∪ (comments.flatMap fun c => fingerprintsIn c.body).toFinset := by
  induction comments generalizing prior with
  | nil => simp
  | cons comment rest ih =>
    rw [List.foldl_cons, ih, posted_recordOwn, Finset.union_assoc, List.flatMap_cons,
      List.toFinset_append]

theorem anchors_foldl_recordOwn :
    (comments.foldl (PriorReview.recordOwn declined) prior).anchors =
      prior.anchors ++ comments.filterMap (ownAnchor declined) := by
  induction comments generalizing prior with
  | nil => simp
  | cons comment rest ih =>
    rw [List.foldl_cons, ih, anchors_recordOwn, List.append_assoc]
    cases h : ownAnchor declined comment <;> simp [h]

end Run

section Threads

variable (expected : Text) (threads : List ReviewThread)

theorem opened_of_identity {thread : ReviewThread} {f : Text}
    (h : identity expected thread = some f) : opened expected thread = true := by
  obtain ⟨opener, hopener, -⟩ := Option.bind_eq_some_iff.mp h
  rw [opened, Option.any_eq_true]
  obtain ⟨hhead, hown⟩ := Option.filter_eq_some_iff.mp hopener
  exact ⟨opener, hhead, hown⟩

/-- In a conversation of ours the identity is the fingerprint of the opening comment. -/
theorem identity_of_opened {thread : ReviewThread} (h : opened expected thread = true) :
    identity expected thread =
      thread.comments.head?.bind fun opener => fingerprintIn opener.body := by
  rw [opened, Option.any_eq_true] at h
  obtain ⟨opener, hhead, hown⟩ := h
  simp [identity, hhead, Option.filter, hown]

theorem settled_iff (f : Text) : Settled expected threads f ↔
    (∃ e ∈ ownThreads expected threads, (e.1.bind fun o => fingerprintIn o.body) = some f) ∧
      ∀ e ∈ ownThreads expected threads,
        (e.1.bind fun o => fingerprintIn o.body) = some f → e.2 = true := by
  have hown : ∀ q : Option ThreadComment × Bool → Prop,
      (∃ e ∈ ownThreads expected threads,
        (e.1.bind fun o => fingerprintIn o.body) = some f ∧ q e) ↔
      ∃ thread ∈ threads, identity expected thread = some f ∧
        q (thread.comments.head?, thread.isResolved) := by
    intro q
    constructor
    · rintro ⟨e, he, hf, hq⟩
      obtain ⟨thread, hthread, rfl⟩ := List.mem_map.mp he
      obtain ⟨hmem, hopened⟩ := List.mem_filter.mp hthread
      exact ⟨thread, hmem, (identity_of_opened expected hopened).trans hf, hq⟩
    · rintro ⟨thread, hmem, hf, hq⟩
      have hopened := opened_of_identity expected hf
      refine ⟨_, List.mem_map.mpr ⟨thread, List.mem_filter.mpr ⟨hmem, hopened⟩, rfl⟩, ?_, hq⟩
      exact (identity_of_opened expected hopened).symm.trans hf
  have hsome := hown fun _ => True
  have hopen := hown fun e => e.2 = false
  simp only [and_true] at hsome
  constructor
  · rintro ⟨hex, hall⟩
    refine ⟨hsome.mpr hex, fun e he hf => ?_⟩
    by_contra hne
    obtain ⟨thread, hmem, hid, hres⟩ := hopen.mp ⟨e, he, hf, by simpa using hne⟩
    simp [hall thread hmem hid] at hres
  · rintro ⟨hex, hall⟩
    refine ⟨hsome.mp hex, fun thread hmem hid => ?_⟩
    by_contra hne
    obtain ⟨e, he, hf, hres⟩ := hopen.mpr ⟨thread, hmem, hid, by simpa using hne⟩
    simp [hall e he hf] at hres

/-- A slot is freed exactly by being settled. -/
theorem mem_openFindings_settle (prior : PriorReview) (f : Text) :
    f ∈ (prior.settle expected threads).openFindings ↔
      f ∈ prior.openFindings ∧ ¬ Settled expected threads f := by
  simp only [PriorReview.settle, Finset.mem_sdiff, List.mem_toFinset, List.mem_filterMap,
    List.mem_filter, Settled]
  refine and_congr_right fun _ => not_congr ?_
  constructor
  · rintro ⟨⟨thread, ⟨hmem, -⟩, hid⟩, hnone⟩
    refine ⟨⟨thread, hmem, hid⟩, fun other hother hid' => ?_⟩
    by_contra hres
    exact hnone ⟨other, ⟨hother, by simpa using hres⟩, hid'⟩
  · rintro ⟨⟨thread, hmem, hid⟩, hall⟩
    refine ⟨⟨thread, ⟨hmem, hall thread hmem hid⟩, hid⟩, ?_⟩
    rintro ⟨other, ⟨hother, hres⟩, hid'⟩
    simp [hall other hother hid'] at hres

theorem mem_declinedFingerprints (f : Text) : f ∈ declinedFingerprints expected threads ↔
    ∃ thread ∈ threads, pushedBack expected thread = true ∧ identity expected thread = some f := by
  simp [declinedFingerprints, and_assoc]

theorem declinedFingerprints_opened :
    declinedFingerprints expected (threads.filter (opened expected)) =
      declinedFingerprints expected threads := by
  ext f
  rw [mem_declinedFingerprints, mem_declinedFingerprints]
  constructor
  · rintro ⟨thread, hmem, h⟩
    exact ⟨thread, (List.mem_filter.mp hmem).1, h⟩
  · rintro ⟨thread, hmem, hback, hid⟩
    exact ⟨thread, List.mem_filter.mpr ⟨hmem, opened_of_identity expected hid⟩, hback, hid⟩

end Threads

section Load

variable (expected : Text) (declinedThreads settledThreads : List ReviewThread)
  (comments : List ReviewComment) (issueComments : List IssueComment)

theorem foldl_recordState (prior : PriorReview) :
    ∃ lastSha, issueComments.foldl (PriorReview.recordState expected) prior =
      { prior with lastSha } := by
  induction issueComments generalizing prior with
  | nil => exact ⟨prior.lastSha, rfl⟩
  | cons comment rest ih =>
    obtain ⟨lastSha, hrest⟩ := ih (prior.recordState expected comment)
    refine ⟨lastSha, ?_⟩
    rw [List.foldl_cons, hrest, PriorReview.recordState]
    split
    · split <;> rfl
    · rfl

/-- What is read apart from the last commit. -/
def held : PriorReview :=
  (PriorReview.ofComments expected (declinedFingerprints expected declinedThreads)
    (openBotComments declinedThreads) comments).settle expected settledThreads

theorem load_ok : ∃ lastSha,
    load expected ⟨.ok declinedThreads, .ok comments, .ok settledThreads, .ok issueComments⟩ =
      .ok { held expected declinedThreads settledThreads comments with lastSha } := by
  obtain ⟨lastSha, hstate⟩ := foldl_recordState expected issueComments
    (held expected declinedThreads settledThreads comments)
  exact ⟨lastSha, congrArg Except.ok hstate⟩

/-- Our own part is what our own comments alone leave. -/
theorem own_held : (held expected declinedThreads settledThreads comments).own =
    ((comments.filter (ours expected)).foldl
      (PriorReview.recordOwn (declinedFingerprints expected declinedThreads)) {}).settle
        expected settledThreads := by
  have hfold := own_foldl_record expected (declinedFingerprints expected declinedThreads)
    (openBotComments declinedThreads) comments comments {}
  calc (held expected declinedThreads settledThreads comments).own
      = (PriorReview.ofComments expected (declinedFingerprints expected declinedThreads)
          (openBotComments declinedThreads) comments).own.settle expected settledThreads := rfl
    _ = _ := by rw [PriorReview.ofComments, hfold]; rfl

theorem mem_openFindings_held (f : Text) :
    f ∈ (held expected declinedThreads settledThreads comments).openFindings ↔
      f ∈ primaries expected comments ∧ ¬ Settled expected settledThreads f := by
  have hopen := congrArg PriorReview.openFindings
    (own_held expected declinedThreads settledThreads comments)
  rw [show (held expected declinedThreads settledThreads comments).openFindings = _ from hopen,
    mem_openFindings_settle, openFindings_foldl_recordOwn]
  simp [primaries]

theorem mem_posted_held (f : Text) :
    f ∈ (held expected declinedThreads settledThreads comments).posted ↔
      ∃ comment ∈ comments, ours expected comment = true ∧ f ∈ fingerprintsIn comment.body := by
  have hposted := congrArg PriorReview.posted
    (own_held expected declinedThreads settledThreads comments)
  rw [show (held expected declinedThreads settledThreads comments).posted = _ from hposted,
    PriorReview.settle, posted_foldl_recordOwn]
  simp [and_assoc]

theorem ownAnchors_held :
    (held expected declinedThreads settledThreads comments).ownAnchors =
      (comments.filter (ours expected)).filterMap
        (ownAnchor (declinedFingerprints expected declinedThreads)) := by
  have hanchors := congrArg PriorReview.anchors
    (own_held expected declinedThreads settledThreads comments)
  rw [show (held expected declinedThreads settledThreads comments).ownAnchors = _ from hanchors,
    PriorReview.settle, anchors_foldl_recordOwn]
  simp

theorem declinedAnchors_eq (prior : PriorReview) :
    prior.declinedAnchors = (prior.ownAnchors.filter (·.source = .declined)).toFinset := by
  rw [PriorReview.declinedAnchors, PriorReview.ownAnchors, List.filter_filter]
  congr 2
  funext anchor
  cases anchor.source <;> rfl

end Load

section Compare

variable (expected : Text) {threads threads' settled settled' : List ReviewThread}
  {comments comments' : List ReviewComment}

theorem settle_congr (h : ownThreads expected settled = ownThreads expected settled')
    (prior : PriorReview) : prior.settle expected settled = prior.settle expected settled' := by
  suffices hopen : (prior.settle expected settled).openFindings =
      (prior.settle expected settled').openFindings by
    exact congrArg (fun openFindings => ({ prior with openFindings } : PriorReview)) hopen
  ext f
  rw [mem_openFindings_settle, mem_openFindings_settle, settled_iff, settled_iff, h]

theorem settled_perm (h : settled.Perm settled') (f : Text) :
    Settled expected settled f ↔ Settled expected settled' f := by
  simp only [Settled, h.mem_iff]

theorem declinedFingerprints_perm (h : threads.Perm threads') :
    declinedFingerprints expected threads = declinedFingerprints expected threads' := by
  ext f
  simp only [mem_declinedFingerprints, h.mem_iff]

/-- Whoever else writes, whatever they say, our own part but for the declines stays. -/
theorem unsourced_own_held (hours : comments.filter (ours expected) = comments'.filter (ours expected))
    (hthreads : ownThreads expected settled = ownThreads expected settled') :
    (held expected threads settled comments).own.unsourced =
      (held expected threads' settled' comments').own.unsourced := by
  have hrun : ∀ (declined : Finset Text) (cs : List ReviewComment) (ts : List ReviewThread),
      ((cs.foldl (PriorReview.recordOwn declined) {}).settle expected ts).unsourced =
        (cs.foldl (PriorReview.recordOwn ∅) {}).settle expected ts := fun declined cs ts =>
    congrArg (PriorReview.settle expected · ts) (unsourced_foldl_recordOwn declined cs {})
  rw [own_held, own_held, hrun, hrun, hours, settle_congr expected hthreads]

theorem own_held_congr
    (hours : comments.filter (ours expected) = comments'.filter (ours expected))
    (hsettled : ownThreads expected settled = ownThreads expected settled')
    (hthreads : threads.filter (opened expected) = threads'.filter (opened expected)) :
    (held expected threads settled comments).own = (held expected threads' settled' comments').own := by
  rw [own_held, own_held, hours, settle_congr expected hsettled,
    ← declinedFingerprints_opened expected threads, hthreads, declinedFingerprints_opened]

/-- The sets that are read are free of the order of comments and threads. -/
theorem sets_held_perm (hcomments : comments.Perm comments') (hthreads : threads.Perm threads')
    (hsettled : settled.Perm settled') :
    (held expected threads settled comments).posted =
        (held expected threads' settled' comments').posted ∧
      (held expected threads settled comments).openFindings =
        (held expected threads' settled' comments').openFindings ∧
      (held expected threads settled comments).declinedAnchors =
        (held expected threads' settled' comments').declinedAnchors := by
  refine ⟨?_, ?_, ?_⟩
  · ext f
    simp only [mem_posted_held, hcomments.mem_iff]
  · ext f
    have hprimaries : (primaries expected comments).Perm (primaries expected comments') :=
      (hcomments.filter _).filterMap _
    rw [mem_openFindings_held, mem_openFindings_held, hprimaries.mem_iff,
      settled_perm expected hsettled]
  · rw [declinedAnchors_eq, declinedAnchors_eq, ownAnchors_held, ownAnchors_held,
      declinedFingerprints_perm expected hthreads]
    exact List.toFinset_eq_of_perm _ _ (((hcomments.filter _).filterMap _).filter _)

end Compare

/-- A slot is held exactly by the primary fingerprints of our own comments that are not settled;
others' comments and conversations change nothing but review bots' anchors; order changes no set. -/
theorem open_budget_accounted (expected : Text) (threads settled : List ReviewThread)
    (comments : List ReviewComment) (issueComments : List IssueComment) :
    ∃ prior, load expected ⟨.ok threads, .ok comments, .ok settled, .ok issueComments⟩ = .ok prior ∧
      (∀ f, f ∈ prior.openFindings ↔
        f ∈ primaries expected comments ∧ ¬ Settled expected settled f) ∧
      (∀ f, f ∈ prior.posted ↔
        ∃ comment ∈ comments, ours expected comment = true ∧ f ∈ fingerprintsIn comment.body) ∧
      (∀ threads' settled' comments' issueComments',
        comments'.filter (ours expected) = comments.filter (ours expected) →
        ownThreads expected settled' = ownThreads expected settled →
        ∃ prior',
          load expected ⟨.ok threads', .ok comments', .ok settled', .ok issueComments'⟩ =
            .ok prior' ∧
          prior'.posted = prior.posted ∧ prior'.openFindings = prior.openFindings ∧
          prior'.titles = prior.titles ∧ prior'.severities = prior.severities ∧
          prior'.ownAnchors.map PostedAnchor.unsourced =
            prior.ownAnchors.map PostedAnchor.unsourced ∧
          (threads'.filter (opened expected) = threads.filter (opened expected) →
            prior'.ownAnchors = prior.ownAnchors)) ∧
      (∀ threads' settled' comments' issueComments',
        threads.Perm threads' → settled.Perm settled' → comments.Perm comments' →
        ∃ prior',
          load expected ⟨.ok threads', .ok comments', .ok settled', .ok issueComments'⟩ =
            .ok prior' ∧
          prior'.posted = prior.posted ∧ prior'.openFindings = prior.openFindings ∧
          prior'.declinedAnchors = prior.declinedAnchors) ∧
      (toAsciiLowercase (trim expected) ∉ OTHER_REVIEWERS →
        ∀ comment, ours expected comment = isOwnLogin expected comment.author) := by
  obtain ⟨lastSha, hload⟩ := load_ok expected threads settled comments issueComments
  refine ⟨_, hload, mem_openFindings_held expected threads settled comments,
    mem_posted_held expected threads settled comments, ?_, ?_, ours_eq_isOwnLogin expected⟩
  · intro threads' settled' comments' issueComments' hours hthreads
    obtain ⟨lastSha', hload'⟩ := load_ok expected threads' settled' comments' issueComments'
    have hown := @unsourced_own_held expected threads' threads _ _ _ _ hours hthreads
    have field : ∀ {γ : Type} (get : PriorReview → γ),
        get (held expected threads' settled' comments').own.unsourced =
          get (held expected threads settled comments).own.unsourced := fun get =>
      congrArg get hown
    refine ⟨_, hload', field PriorReview.posted, field PriorReview.openFindings,
      field PriorReview.titles, field PriorReview.severities, field PriorReview.anchors, ?_⟩
    intro hopened
    exact congrArg PriorReview.anchors (own_held_congr expected hours hthreads hopened)
  · intro threads' settled' comments' issueComments' hthreads hsettled hcomments
    obtain ⟨lastSha', hload'⟩ := load_ok expected threads' settled' comments' issueComments'
    obtain ⟨hposted, hopen, hdeclined⟩ := sets_held_perm expected hcomments hthreads hsettled
    exact ⟨_, hload', hposted.symm, hopen.symm, hdeclined.symm⟩

end TinySweeper.Prior
