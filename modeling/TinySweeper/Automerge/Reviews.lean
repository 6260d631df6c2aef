import TinySweeper.Automerge.Policy

/-!
# One verdict for each reviewer

Folding a history keeps the last verdict of everyone who left one. The policy looks
at the history itself: an objection its reviewer has since withdrawn still blocks,
and someone who approves twice counts twice.
-/

namespace TinySweeper.Automerge

open Text Forge

/-- A verdict replaces an earlier one by the same reviewer; a comment replaces nothing. -/
def foldVerdict (latest : List ReviewVerdict) (r : ReviewVerdict) : List ReviewVerdict :=
  if r.state = .comment then latest else r :: latest.filter fun v => v.reviewer ≠ r.reviewer

/-- The verdict each reviewer has in the end. -/
def standing (reviews : List ReviewVerdict) : List ReviewVerdict := reviews.foldl foldVerdict []

/-- What a review says about the verdict of this reviewer. -/
def verdictBy (reviewer : Text) (r : ReviewVerdict) : Option (Option ReviewVerdict) :=
  if r.reviewer = reviewer ∧ r.state ≠ .comment then some (some r) else none

def latestVerdict (reviewer : Text) (reviews : List ReviewVerdict) : Option ReviewVerdict :=
  latest (verdictBy reviewer) none reviews

/-- The reviewer's latest verdict asks for changes. -/
def Objects (reviewer : Text) (reviews : List ReviewVerdict) : Prop :=
  (latestVerdict reviewer reviews).any ReviewVerdict.isBlocking = true

instance (reviewer : Text) (reviews : List ReviewVerdict) : Decidable (Objects reviewer reviews) :=
  inferInstanceAs (Decidable (_ = _))

/-- The reviewers whose latest verdict is one of these. -/
def reviewersWith (p : ReviewVerdict → Bool) (reviews : List ReviewVerdict) : Finset Text :=
  (reviews.map ReviewVerdict.reviewer).toFinset.filter fun reviewer =>
    (latestVerdict reviewer reviews).any p = true

/-- The people whose latest verdict is an approval. -/
def humanApprovers (reviews : List ReviewVerdict) : Finset Text :=
  reviewersWith ReviewVerdict.isHumanApproval reviews

theorem of_latestVerdict {reviewer : Text} {reviews : List ReviewVerdict} {v : ReviewVerdict}
    (h : latestVerdict reviewer reviews = some v) : v ∈ reviews ∧ v.reviewer = reviewer := by
  rcases latest_eq_iff.mp h with ⟨before, r, after, rfl, hr, _⟩ | ⟨_, hnone⟩
  · unfold verdictBy at hr
    split at hr
    · next hby =>
      cases hr
      exact ⟨by simp, hby.1⟩
    · cases hr
  · cases hnone

theorem mem_foldVerdict {folded : List ReviewVerdict} {r v : ReviewVerdict} :
    v ∈ foldVerdict folded r ↔
      (verdictBy v.reviewer r).getD (if v ∈ folded then some v else none) = some v := by
  unfold foldVerdict verdictBy
  by_cases hcomment : r.state = .comment
  · rw [if_pos hcomment, if_neg (fun h => h.2 hcomment)]
    simp
  · rw [if_neg hcomment]
    by_cases hby : r.reviewer = v.reviewer
    · rw [if_pos ⟨hby, hcomment⟩]
      simp [hby, eq_comm]
    · have hne : v ≠ r := fun h => hby (by rw [h])
      rw [if_neg fun h => hby h.1]
      simp [hne, Ne.symm hby]

theorem standing_concat (reviews : List ReviewVerdict) (r : ReviewVerdict) :
    standing (reviews ++ [r]) = foldVerdict (standing reviews) r := by
  rw [standing, List.foldl_append]
  rfl

/-- The fold keeps just the latest verdict of each reviewer. -/
theorem mem_standing {reviews : List ReviewVerdict} {v : ReviewVerdict} :
    v ∈ standing reviews ↔ latestVerdict v.reviewer reviews = some v := by
  induction reviews using List.reverseRecOn with
  | nil => simp [standing, latestVerdict]
  | append_singleton reviews r ih =>
    have hstep : latestVerdict v.reviewer (reviews ++ [r]) =
        (verdictBy v.reviewer r).getD (latestVerdict v.reviewer reviews) := by
      rw [latestVerdict, latest_append, latest_cons]
      rfl
    rw [standing_concat, mem_foldVerdict, hstep]
    cases verdictBy v.reviewer r with
    | some own => rfl
    | none =>
      rw [Option.getD_none, Option.getD_none, ← ih]
      simp

section Policy

variable {γ : Type} (globs : Globs γ) (config : AutoMerge)

/-- The decision agrees with folding the history to one verdict for each reviewer. -/
structure ReadsLatest (s : Snapshot) : Prop where
  allowed : (evaluate globs config s).isMerge = true →
    config.requireApprovals ≤ (humanApprovers s.reviews).card ∧
      ∀ reviewer, ¬Objects reviewer s.reviews
  objected : ∀ blocking, evaluate globs config s = .refuse (.changesRequested blocking) →
    ∃ reviewer, Objects reviewer s.reviews

/-- Changes were requested, and everyone who requested them has since approved. -/
def Withdrawn (reviews : List ReviewVerdict) : Prop :=
  (∃ r ∈ reviews, r.isBlocking = true) ∧ ∀ reviewer, ¬Objects reviewer reviews

/-- Repeated approvals make up for people who are missing. -/
def Overcounted (reviews : List ReviewVerdict) : Prop :=
  (∀ r ∈ reviews, r.isBlocking = false) ∧
    (humanApprovers reviews).card < config.requireApprovals ∧
    config.requireApprovals ≤ (reviews.filter ReviewVerdict.isHumanApproval).length % 2 ^ 32

/-- The history alone decides, and it is not the same as its fold. -/
def Misread (s : Snapshot) : Prop :=
  stateRefusal config s.pullRequest = none ∧
    (Withdrawn s.reviews ∨
      Overcounted config s.reviews ∧ checkRefusal config s.checks = none ∧
        contentRefusal globs config s = none)

variable {globs config}

/-- Refusals that come of the reviews. -/
def Refusal.isObjection : Refusal → Bool
  | .changesRequested _ => true
  | _ => false

theorem stateRefusal_not_objection {pr : PullRequest} {refusal : Refusal}
    (h : stateRefusal config pr = some refusal) : refusal.isObjection = false := by
  unfold stateRefusal at h
  repeat' split at h
  all_goals cases h
  all_goals rfl

theorem checkRefusal_not_objection {checks : List CheckStatus} {refusal : Refusal}
    (h : checkRefusal config checks = some refusal) : refusal.isObjection = false := by
  rcases Option.or_eq_some_iff.mp h with hbroken | ⟨_, hrequired⟩
  · obtain ⟨c, _, hc⟩ := List.exists_of_findSome?_eq_some hbroken
    unfold brokenCheck at hc
    split_ifs at hc <;> cases hc <;> rfl
  · obtain ⟨name, _, hname⟩ := List.exists_of_findSome?_eq_some hrequired
    unfold requiredRefusal at hname
    repeat' split at hname
    all_goals cases hname
    all_goals rfl

theorem dependencyBump_not_objection {s : Snapshot} {refusal : Refusal}
    (h : dependencyBump globs config s = .error refusal) : refusal.isObjection = false := by
  unfold dependencyBump at h
  split_ifs at h
  · cases h
  · cases h
  · cases hset : globSet globs config.dependencyPaths with
    | ok manifests =>
      rw [hset] at h
      cases h
    | error err =>
      rw [hset] at h
      cases h
      rfl

theorem contentRefusal_not_objection {s : Snapshot} {refusal : Refusal}
    (h : contentRefusal globs config s = some refusal) : refusal.isObjection = false := by
  unfold contentRefusal at h
  split_ifs at h
  · cases h
    rfl
  · cases h
    rfl
  · split at h
    · next other hbump =>
      cases h
      exact dependencyBump_not_objection hbump
    · cases h
    · rcases Option.or_eq_some_iff.mp h with hpath | ⟨_, hcomplex⟩
      · unfold pathRefusal at hpath
        split at hpath
        · cases hpath
          rfl
        · obtain ⟨_, _, rfl⟩ := Option.map_eq_some_iff.mp hpath
          rfl
      · unfold complexityRefusal at hcomplex
        split at hcomplex
        · cases hcomplex
          rfl
        · obtain ⟨_, _, rfl⟩ := Option.map_eq_some_iff.mp hcomplex
          rfl

theorem reviewRefusal_eq_none_iff {reviews : List ReviewVerdict} :
    reviewRefusal config reviews = none ↔ (∀ r ∈ reviews, r.isBlocking = false) ∧
      config.requireApprovals ≤
        (reviews.filter ReviewVerdict.isHumanApproval).length % 2 ^ 32 := by
  unfold reviewRefusal
  cases hfind : reviews.find? ReviewVerdict.isBlocking with
  | some blocking =>
    refine iff_of_false nofun ?_
    rintro ⟨hnone, _⟩
    have hblocking := List.find?_some hfind
    rw [hnone blocking (List.mem_of_find?_eq_some hfind)] at hblocking
    cases hblocking
  | none =>
    have hnone : ∀ r ∈ reviews, r.isBlocking = false := by simpa using hfind
    dsimp only
    split
    · next hfew => exact iff_of_false nofun fun h => absurd h.2 (Nat.not_le.mpr hfew)
    · next henough => exact iff_of_true rfl ⟨hnone, Nat.not_lt.mp henough⟩

/-- Any objection in the history is reported, withdrawn or not. -/
theorem exists_changesRequested_iff {s : Snapshot} :
    (∃ blocking, evaluate globs config s = .refuse (.changesRequested blocking)) ↔
      stateRefusal config s.pullRequest = none ∧ ∃ r ∈ s.reviews, r.isBlocking = true := by
  simp only [evaluate_eq_refuse_iff, refuse, Option.or_eq_some_iff]
  constructor
  · rintro ⟨blocking, hstate | ⟨hstate, hreview | ⟨_, hcheck | ⟨_, hcontent⟩⟩⟩⟩
    · cases stateRefusal_not_objection hstate
    · refine ⟨hstate, ?_⟩
      unfold reviewRefusal at hreview
      split at hreview
      · next r hfind => exact ⟨r, List.mem_of_find?_eq_some hfind, List.find?_some hfind⟩
      · dsimp only at hreview
        split_ifs at hreview
        cases hreview
    · cases checkRefusal_not_objection hcheck
    · cases contentRefusal_not_objection hcontent
  · rintro ⟨hstate, r, hr, hblocking⟩
    obtain ⟨blocking, hfind⟩ := Option.isSome_iff_exists.mp
      (List.find?_isSome.mpr ⟨r, hr, hblocking⟩)
    exact ⟨blocking.reviewer, .inr ⟨hstate, .inl (by rw [reviewRefusal, hfind])⟩⟩

theorem not_objects_of_forall {reviews : List ReviewVerdict}
    (h : ∀ r ∈ reviews, r.isBlocking = false) (reviewer : Text) : ¬Objects reviewer reviews := by
  intro hobjects
  obtain ⟨v, hv, hblocking⟩ := (Option.any_eq_true _ _).mp hobjects
  rw [h v (of_latestVerdict hv).1] at hblocking
  cases hblocking

/-- The policy agrees with the fold unless the history is misread. -/
theorem readsLatest_iff (s : Snapshot) : ReadsLatest globs config s ↔ ¬Misread globs config s := by
  constructor
  · rintro hreads ⟨hstate, ⟨hany, hwithdrawn⟩ | ⟨⟨hnone, hfew, hcount⟩, hcheck, hcontent⟩⟩
    · obtain ⟨blocking, hdecision⟩ :=
        @exists_changesRequested_iff _ globs config s |>.mpr ⟨hstate, hany⟩
      obtain ⟨reviewer, hobjects⟩ := hreads.objected blocking hdecision
      exact hwithdrawn reviewer hobjects
    · have hreview := (@reviewRefusal_eq_none_iff config s.reviews).mpr ⟨hnone, hcount⟩
      have hmerge := isMerge_evaluate.mpr
        (refuse_eq_none_iff.mpr ⟨hstate, hreview, hcheck, hcontent⟩)
      exact absurd (hreads.allowed hmerge).1 (Nat.not_le.mpr hfew)
  · intro hread
    constructor
    · intro hmerge
      obtain ⟨hstate, hreview, hcheck, hcontent⟩ :=
        refuse_eq_none_iff.mp (isMerge_evaluate.mp hmerge)
      obtain ⟨hnone, hcount⟩ := reviewRefusal_eq_none_iff.mp hreview
      refine ⟨?_, not_objects_of_forall hnone⟩
      by_contra hfew
      exact hread ⟨hstate, .inr ⟨⟨hnone, Nat.not_le.mp hfew, hcount⟩, hcheck, hcontent⟩⟩
    · intro blocking hdecision
      obtain ⟨hstate, hany⟩ := exists_changesRequested_iff.mp ⟨blocking, hdecision⟩
      by_contra hnone
      exact hread ⟨hstate, .inl ⟨hany, fun reviewer h => hnone ⟨reviewer, h⟩⟩⟩

end Policy

/-- Patterns without wildcards. -/
def literalGlobs : Globs Text where
  parse := .ok
  build patterns := .ok fun path => patterns.contains path

/-- Two approvals are wanted. -/
def careful : AutoMerge where
  enabled := true
  requireChecks := []
  requireApprovals := 2
  method := "squash".toList
  allowLabels := []
  blockLabels := []
  maxFiles := 1
  maxChangedLines := 1
  maxHunks := 1
  maxDirectories := 1
  sensitivePaths := []
  allowDependencyBumps := false
  dependencyBots := []
  dependencyPaths := []

def reviewed (reviews : List ReviewVerdict) : Snapshot where
  pullRequest := ⟨7, "bo".toList, false, false, ['a'], [], some true⟩
  files := [⟨"README".toList, none, 1, 0, some "@@ -0,0 +1 @@\n+".toList⟩]
  checks := []
  reviews

def ana : Text := "ana".toList

def cy : Text := "cy".toList

/-- One person approves twice where two people are wanted, and the change is merged; another
takes an objection back, and it still blocks. -/
theorem repeated_approval_merges :
    ¬ReadsLatest literalGlobs careful
        (reviewed [⟨ana, false, .approve⟩, ⟨ana, false, .approve⟩]) ∧
      ¬ReadsLatest literalGlobs careful (reviewed
        [⟨ana, false, .requestChanges⟩, ⟨ana, false, .approve⟩, ⟨cy, false, .approve⟩]) := by
  constructor
  · intro hreads
    have hmerged : (evaluate literalGlobs careful
        (reviewed [⟨ana, false, .approve⟩, ⟨ana, false, .approve⟩])).isMerge = true := by
      decide +kernel
    exact absurd (hreads.allowed hmerged).1 (by decide +kernel)
  · intro hreads
    have hrefused : evaluate literalGlobs careful (reviewed [⟨ana, false, .requestChanges⟩,
        ⟨ana, false, .approve⟩, ⟨cy, false, .approve⟩]) = .refuse (.changesRequested ana) :=
      evaluate_of_refuse (by decide +kernel)
    obtain ⟨reviewer, hobjects⟩ := hreads.objected ana hrefused
    obtain ⟨v, hv, hblocking⟩ := (Option.any_eq_true _ _).mp hobjects
    have hstanding := mem_standing.mpr ((of_latestVerdict hv).2 ▸ hv)
    have hnone : ∀ v ∈ standing [⟨ana, false, .requestChanges⟩, ⟨ana, false, .approve⟩,
        ⟨cy, false, .approve⟩], v.isBlocking = false := by
      decide +kernel
    rw [hnone v hstanding] at hblocking
    cases hblocking

end TinySweeper.Automerge
