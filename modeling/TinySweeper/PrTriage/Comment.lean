import TinySweeper.PrTriage.Gate

/-!
# The triage comment

What was concluded, what was checked for it, and whether the pull request is
closed on that basis.
-/

namespace TinySweeper.PrTriage

open Text

/-- Arithmetic on floating-point numbers, and how they are printed. -/
structure Floats (φ : Type) where
  ratio : ℕ → ℕ → φ
  zero : φ
  less : φ → φ → Bool
  equal : φ → φ → Bool
  /-- As a percentage between 0 and 100. -/
  percent : φ → Text
  hundredfold : φ → Text

def MARKER : Text := "<!-- tinysweeper:pr-triage -->".toList

variable {φ : Type} (floats : Floats φ)

def flagParagraph (flag : Flag × Text) : Text :=
  let headline := match flag.1 with
    | .promotional => "This reads like self-promotion"
  "**".toList ++ headline.toList ++ ".** It matched ".toList ++ flag.2 ++
    (".\n\nThose are textual signals, not a verdict — plenty of legitimate contributions ".toList ++
      "add an endpoint and a key. **Nothing is closed on this basis**; a maintainer ".toList ++
      "decides. If the signals are wrong, say so and clear the `".toList ++ (flag.1.label ++
      "` label.\n\n".toList))

def verdictParagraph : Verdict φ → Text
  | .duplicate of _ pathOverlap lineOverlap =>
    "This looks like the same change as #".toList ++ decimal of ++
      ", which was opened first.\n\nThe two pull requests touch ".toList ++
      floats.percent pathOverlap ++ " of the same files and share ".toList ++
      floats.percent lineOverlap ++
      " of the lines they add. That comparison is the whole of the reasoning — no model ".toList ++
      "was asked, and the title and description".toList ++ " were not read.\n".toList
  | .superseded baseRef baseSha linesChecked =>
    "Every line this changes is already on `".toList ++ baseRef ++
      "`.\n\ntinysweeper compared ".toList ++ decimal linesChecked ++
      " changed lines against `".toList ++ baseRef ++ "` at `".toList ++ baseSha ++
      "`: each block this adds is already there, with its surrounding context, and each ".toList ++
      "block it removes is already gone. Applying this pull request would change ".toList ++
      "nothing. The commit is named because the branch will have moved".toList ++ " by the time you read this.\n".toList
  | .review _ => []

def labelParagraph (labels : List Text) : Text :=
  if labels.isEmpty then []
  else
    "\nLabelled ".toList ++
      [' '].intercalate (labels.map fun label => "`".toList ++ label ++ "`".toList) ++ ".\n".toList

def CLOSING : Text :=
  "\nClosing it on that basis. **If this is wrong, say so and reopen it** — the ".toList ++
    "comparison above is the entire argument, so it is easy to check and easy to ".toList ++
    "disagree with.".toList ++
    " Thank you for the patch either way.\n".toList

def closeParagraph (close : Option ClosePlan) (closeRefusal : Option String) : Text :=
  match close, closeRefusal with
  | some close, _ =>
    if close.dryRun then
      "\ntinysweeper would close this, but `pr_triage.close.dry_run` is on,".toList ++
        " so it has been left open.\n".toList
    else CLOSING
  | none, some refusal =>
    "\nLeft open: ".toList ++ refusal.toList ++ ". A human decides this one.\n".toList
  | none, none => []

/-- The comment of a plan; nothing is said of a pull request that is merely worth reading. -/
def render (plan : TriagePlan φ) : Option Text :=
  if !plan.verdict.isCloseable && plan.flags.isEmpty then none
  else
    some (MARKER ++ "\n\n".toList ++ plan.flags.flatMap flagParagraph ++
      verdictParagraph floats plan.verdict ++ labelParagraph plan.addLabels ++
      closeParagraph plan.close plan.closeRefusal)

/-- The comment says that the pull request is being closed. -/
def announces (body : Text) : Bool := CLOSING.isSuffixOf body

/-- The text ends otherwise than the closing paragraph. -/
def endsOtherwise (text : Text) : Bool :=
  3 ≤ text.length && !"y.\n".toList.isSuffixOf text

theorem endsOtherwise_append {before after : Text} (h : endsOtherwise after = true) :
    endsOtherwise (before ++ after) = true := by
  simp only [endsOtherwise, Bool.and_eq_true, decide_eq_true_eq, Bool.not_eq_true',
    Bool.eq_false_iff, Ne, List.isSuffixOf_iff_suffix] at h ⊢
  refine ⟨by rw [List.length_append]; omega, fun hends => h.2 ?_⟩
  exact List.suffix_of_suffix_length_le hends (List.suffix_append before after) h.1

theorem not_announces {body : Text} (h : endsOtherwise body = true) : announces body = false := by
  have hends : "y.\n".toList <:+ " Thank you for the patch either way.\n".toList := by
    rw [← List.isSuffixOf_iff_suffix]
    decide +kernel
  have hclosing : "y.\n".toList <:+ CLOSING := hends.trans (List.suffix_append _ _)
  by_contra hnot
  rw [Bool.not_eq_false, announces, List.isSuffixOf_iff_suffix] at hnot
  have hends := List.isSuffixOf_iff_suffix.mpr (hclosing.trans hnot)
  rw [endsOtherwise, hends, Bool.not_true, Bool.and_false] at h
  cases h

theorem labelParagraph_endsOtherwise {labels : List Text} (h : labels ≠ []) :
    endsOtherwise (labelParagraph labels) = true := by
  have hjoin : ∀ labels : List Text, labels ≠ [] → ∃ before,
      [' '].intercalate (labels.map fun label => "`".toList ++ label ++ "`".toList) =
        before ++ ['`'] := by
    intro labels hne
    induction labels with
    | nil => exact absurd rfl hne
    | cons label labels ih =>
      cases labels with
      | nil => exact ⟨"`".toList ++ label, List.intercalate_singleton⟩
      | cons next labels =>
        obtain ⟨before, hbefore⟩ := ih (List.cons_ne_nil next labels)
        refine ⟨"`".toList ++ label ++ "`".toList ++ [' '] ++ before, ?_⟩
        rw [List.map_cons, List.intercalate_cons_of_ne_nil (by simp), hbefore]
        simp only [List.append_assoc]
  obtain ⟨before, hbefore⟩ := hjoin labels h
  rw [labelParagraph, if_neg (by simpa using h), hbefore, List.append_assoc, List.append_assoc]
  exact endsOtherwise_append (endsOtherwise_append (by decide))

theorem verdictParagraph_endsOtherwise {verdict : Verdict φ} (h : verdict.isCloseable = true) :
    endsOtherwise (verdictParagraph floats verdict) = true := by
  cases verdict with
  | duplicate of ofHeadSha pathOverlap lineOverlap => exact endsOtherwise_append (by decide +kernel)
  | superseded baseRef baseSha linesChecked => exact endsOtherwise_append (by decide +kernel)
  | review because => cases h

theorem flags_endsOtherwise {flags : List (Flag × Text)} (h : flags ≠ []) :
    endsOtherwise (flags.flatMap flagParagraph) = true := by
  obtain ⟨init, last, rfl⟩ := (List.eq_nil_or_concat' flags).resolve_left h
  rw [List.flatMap_append, List.flatMap_singleton]
  exact endsOtherwise_append (endsOtherwise_append (endsOtherwise_append
    (endsOtherwise_append (by decide +kernel))))

theorem dryRun_endsOtherwise {close : ClosePlan} (h : close.dryRun = true)
    (closeRefusal : Option String) :
    endsOtherwise (closeParagraph (some close) closeRefusal) = true := by
  unfold closeParagraph
  dsimp only
  rw [if_pos h]
  exact endsOtherwise_append (by decide +kernel)

/-- Only a comment of a plan that closes announces a close. -/
theorem not_announces_render {plan : TriagePlan φ} {body : Text}
    (hclose : ∀ close, plan.close = some close → close.dryRun = true)
    (h : render floats plan = some body) : announces body = false := by
  unfold render at h
  split_ifs at h with hsilent
  obtain rfl := Option.some.inj h
  apply not_announces
  cases hplan : plan.close with
  | some close =>
    exact endsOtherwise_append (dryRun_endsOtherwise (hclose close hplan) _)
  | none =>
    cases plan.closeRefusal with
    | some refusal => exact endsOtherwise_append (endsOtherwise_append (by decide +kernel))
    | none =>
      have hsilent' : closeParagraph none none = [] := rfl
      rw [hsilent', List.append_nil]
      by_cases hlabels : plan.addLabels = []
      · have hunlabelled : labelParagraph [] = [] := rfl
        rw [hlabels, hunlabelled, List.append_nil]
        cases hverdict : plan.verdict.isCloseable with
        | true => exact endsOtherwise_append (verdictParagraph_endsOtherwise floats hverdict)
        | false =>
          have hflags : plan.flags ≠ [] := by
            rintro hnil
            simp [hverdict, hnil] at hsilent
          have hnothing : verdictParagraph floats plan.verdict = [] := by
            cases hreview : plan.verdict with
            | review because => rfl
            | duplicate of ofHeadSha pathOverlap lineOverlap =>
              rw [hreview] at hverdict
              cases hverdict
            | superseded baseRef baseSha linesChecked =>
              rw [hreview] at hverdict
              cases hverdict
          rw [hnothing, List.append_nil]
          exact endsOtherwise_append (flags_endsOtherwise hflags)
      · exact endsOtherwise_append (labelParagraph_endsOtherwise hlabels)

theorem render_isSome {plan : TriagePlan φ}
    (h : plan.verdict.isCloseable = true ∨ plan.flags ≠ []) :
    ∃ body, render floats plan = some body := by
  unfold render
  rw [if_neg]
  · exact ⟨_, rfl⟩
  · simp only [Bool.and_eq_true, Bool.not_eq_true', List.isEmpty_iff, not_and]
    exact fun hreview hnone => h.elim (by simp [hreview]) fun hflags => hflags hnone

theorem of_render_isSome {plan : TriagePlan φ} {body : Text}
    (h : render floats plan = some body) :
    plan.verdict.isCloseable = true ∨ plan.flags ≠ [] := by
  unfold render at h
  split_ifs at h with hsilent
  simp only [Bool.and_eq_true, Bool.not_eq_true', List.isEmpty_iff, not_and] at hsilent
  by_cases hverdict : plan.verdict.isCloseable = true
  · exact .inl hverdict
  · exact .inr (hsilent (by simpa using hverdict))

end TinySweeper.PrTriage
