import TinySweeper.Sentry.Redact

/-!
# What is promoted fits

A truncated text is within its cap whatever the cap is, so the fixed fields, the
message and the frames together stay within the ceiling.
-/

namespace TinySweeper.Sentry

open Text

theorem boundaryAtMost_le (n : ℕ) (text : Text) : boundaryAtMost n text ≤ n := by
  induction n with
  | zero => exact le_rfl
  | succ n ih =>
    unfold boundaryAtMost
    split
    · exact le_rfl
    · omega

/-- The offset found is a boundary; the start of the text always is. -/
theorem splitAtByte_boundaryAtMost (n : ℕ) (text : Text) :
    ∃ kept rest, splitAtByte (boundaryAtMost n text) text = some (kept, rest) := by
  induction n with
  | zero => exact ⟨[], text, by rw [boundaryAtMost, splitAtByte]⟩
  | succ n ih =>
    unfold boundaryAtMost
    split
    · next h =>
      obtain ⟨⟨kept, rest⟩, hsplit⟩ := Option.isSome_iff_exists.mp h
      exact ⟨kept, rest, hsplit⟩
    · exact ih

/-- Truncation never panics, and keeps to its cap with the marker counted. -/
theorem truncateTo_bounded (text : Text) (max : ℕ) :
    ∃ out, truncateTo text max = some out ∧ utf8Len out ≤ max := by
  unfold truncateTo
  split
  · next hfits => exact ⟨text, rfl, hfits⟩
  split
  · exact ⟨[], rfl, Nat.zero_le _⟩
  · next hroom =>
    obtain ⟨kept, rest, hsplit⟩ := splitAtByte_boundaryAtMost (max - utf8Len ELIDED) text
    have hlen := (splitAtByte_eq_some_iff.mp hsplit).2
    have hle := boundaryAtMost_le (max - utf8Len ELIDED) text
    refine ⟨kept ++ ELIDED, by simp [hsplit], ?_⟩
    rw [utf8Len_append]
    omega

theorem affordable_prefix_self (budget : ℕ) (frames : List SafeFrame) :
    affordable budget frames <+: frames := by
  induction frames generalizing budget with
  | nil => exact List.nil_prefix
  | cons frame frames ih =>
    unfold affordable
    split
    · exact List.nil_prefix
    · exact (List.prefix_cons_inj frame).mpr (ih _)

theorem affordable_cost_le (budget : ℕ) (frames : List SafeFrame) :
    ((affordable budget frames).map SafeFrame.cost).sum ≤ budget := by
  induction frames generalizing budget with
  | nil => exact Nat.zero_le _
  | cons frame frames ih =>
    unfold affordable
    split
    · exact Nat.zero_le _
    · have hrest := ih (budget - frame.cost)
      rw [List.map_cons, List.sum_cons]
      omega

/-- The capped issue exists, fits, and keeps a beginning of the frames. -/
theorem enforceBudget_bounded (safe : SafeIssue) :
    ∃ capped, enforceBudget safe = some capped ∧ excerptBytes capped ≤ MAX_EXCERPT_BYTES ∧
      capped.frames <+: safe.frames := by
  obtain ⟨shortId, hshort, hshortLen⟩ := truncateTo_bounded safe.shortId MARKER_COMPONENT_BYTES
  obtain ⟨project, hproject, hprojectLen⟩ :=
    truncateTo_bounded safe.project MARKER_COMPONENT_BYTES
  obtain ⟨permalink, hpermalink, hpermalinkLen⟩ := truncateTo_bounded safe.permalink 512
  obtain ⟨level, hlevel, hlevelLen⟩ := truncateTo_bounded safe.level 32
  obtain ⟨kind, hkind, hkindLen⟩ := truncateTo_bounded safe.kind 256
  obtain ⟨value, hvalue, hvalueLen⟩ := truncateTo_bounded safe.value
    (min (MAX_EXCERPT_BYTES - (utf8Len shortId + utf8Len project + utf8Len permalink +
      utf8Len level + utf8Len kind)) (MAX_EXCERPT_BYTES / 2))
  obtain ⟨culprit, hculprit, hculpritLen⟩ := truncateTo_bounded safe.culprit
    (min (MAX_EXCERPT_BYTES - (utf8Len shortId + utf8Len project + utf8Len permalink +
      utf8Len level + utf8Len kind) - utf8Len value) 512)
  obtain ⟨transaction, htransaction, htransactionLen⟩ := truncateTo_bounded safe.transaction
    (min (MAX_EXCERPT_BYTES - (utf8Len shortId + utf8Len project + utf8Len permalink +
      utf8Len level + utf8Len kind) - utf8Len value - utf8Len culprit) 512)
  obtain ⟨release, hrelease, hreleaseLen⟩ := truncateTo_bounded safe.release
    (min (MAX_EXCERPT_BYTES - (utf8Len shortId + utf8Len project + utf8Len permalink +
      utf8Len level + utf8Len kind) - utf8Len value - utf8Len culprit - utf8Len transaction) 256)
  have hframes := affordable_cost_le (MAX_EXCERPT_BYTES - (utf8Len shortId + utf8Len project +
    utf8Len permalink + utf8Len level + utf8Len kind) - utf8Len value - utf8Len culprit -
      utf8Len transaction - utf8Len release) safe.frames
  refine ⟨_, by
    simp only [enforceBudget, hshort, hproject, hpermalink, hlevel, hkind, hvalue, hculprit,
      htransaction, hrelease, Option.bind_eq_bind, Option.bind_some, Option.pure_def]
    rfl, ?_, affordable_prefix_self _ _⟩
  have hfixed : utf8Len shortId + utf8Len project + utf8Len permalink + utf8Len level +
      utf8Len kind ≤ MAX_EXCERPT_BYTES := by
    rw [MARKER_COMPONENT_BYTES] at hshortLen hprojectLen
    rw [MAX_EXCERPT_BYTES]
    omega
  rw [le_min_iff] at hvalueLen hculpritLen htransactionLen hreleaseLen
  unfold excerptBytes
  dsimp only
  omega

end TinySweeper.Sentry
