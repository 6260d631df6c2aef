import TinySweeper.PrTriage.Apply

/-!
# What is said for one plan

Whatever the forge answers, a write follows a first look that allowed it, a close
follows a last look that still does, and a comment that announces a close is edited
when the close does not happen.
-/

namespace TinySweeper.PrTriage

open Text Dialogue

variable {φ : Type} (setting : Setting φ) (plan : TriagePlan φ)

/-- The last time this pull request was read, it was like this. -/
def LastRead (number : ℕ) (pull : Pull number) (said : Said) : Prop :=
  ∃ before after, said = before ++ ⟨.pullRequest number, .ok pull⟩ :: after ∧
    ∀ e ∈ after, e.1 ≠ .pullRequest number

/-- The first call of the plan found the pull request untouched, and the bot switched on. -/
def FirstLook (said : Said) : Prop :=
  ∃ (first : Pull plan.number) (rest : Said), said = ⟨.pullRequest plan.number, .ok first⟩ :: rest ∧
    blocked setting first.val = false ∧ plan.headSha ≠ [] ∧ first.val.headSha = plan.headSha

/-- The first call of the plan found the pull request old enough, and quiet for long enough. -/
def Fresh (said : Said) : Prop :=
  ∃ (first : Pull plan.number) (rest : Said), said = ⟨.pullRequest plan.number, .ok first⟩ :: rest ∧
    setting.config.prTriage.close.minAgeDays ≤ first.val.ageDays ∧
    setting.config.prTriage.close.quietDays ≤ first.val.quietDays

/-- What was seen before a close. -/
structure Justified (said : Said) : Prop where
  fresh : Fresh setting plan said
  live : ∃ last : Pull plan.number, LastRead plan.number last said ∧
    Closeable setting.maintainers setting.config.prTriage.close last.val ∧
    blocked setting last.val = false ∧ last.val.headSha = plan.headSha
  closeable : plan.verdict.isCloseable = true
  original : ∀ of ofHeadSha pathOverlap lineOverlap,
    plan.verdict = .duplicate of ofHeadSha pathOverlap lineOverlap →
      of < plan.number ∧ ∃ original : Pull of, LastRead of original said ∧
        original.val.headSha = ofHeadSha ∧
        (original.val.isOpen = true ∨ original.val.merged = true)
  base : ∀ baseRef baseSha linesChecked, plan.verdict = .superseded baseRef baseSha linesChecked →
    ∃ before, said = before ++ [⟨.branchHead baseRef, .ok (some baseSha)⟩]

/-- The call left this comment. -/
inductive Posts : Exchange Answer → ℕ → Text → Prop where
  | create (number : ℕ) (body : Text) (id : ℕ) : Posts ⟨.createComment number body, .ok id⟩ id body
  | update (id : ℕ) (body : Text) : Posts ⟨.updateComment id body, .ok ()⟩ id body

/-- After a comment that announces a close: the close, or an edit that takes it back. -/
def Settled (number id : ℕ) (after : Said) : Prop :=
  ⟨.closePullRequest number, .ok ()⟩ ∈ after ∨
    ∃ body answer, announces body = false ∧ ⟨.updateComment id body, answer⟩ ∈ after

/-- Every announcement is settled, except for one comment at most. -/
def Owes (number : ℕ) (said : Said) (owed : Option ℕ) : Prop :=
  ∀ before e after id body, said = before ++ e :: after → Posts e id body →
    announces body = true → Settled number id after ∨ owed = some id

/-- The comment is the one the plan is to edit, or was left for the plan. -/
def Placed (said : Said) (id : ℕ) : Prop :=
  plan.commentId = some id ∨ ∃ body, ⟨.createComment plan.number body, .ok id⟩ ∈ said

/-- A label or a comment on the pull request of the plan. -/
def Marks (said : Said) : Call → Prop
  | .addLabels number _ => number = plan.number
  | .removeLabel number _ => number = plan.number
  | .createComment number _ => number = plan.number
  | .updateComment id _ => Placed plan said id
  | _ => False

/-- What may be asked while the plan is carried out. -/
def Allowed (said : Said) : Call → Prop
  | .pullRequest _ => True
  | .branchHead _ => True
  | .closePullRequest number =>
    number = plan.number ∧ FirstLook setting plan said ∧ Justified setting plan said
  | q => Marks plan said q ∧ FirstLook setting plan said

/-- The evidence of a verdict, as it was heard again. -/
def Stands : Verdict φ → Said → Prop
  | .duplicate of ofHeadSha _ _, heard => ∃ original : Pull of,
    heard = [⟨.pullRequest of, .ok original⟩] ∧ original.val.headSha = ofHeadSha ∧
      (original.val.isOpen = true ∨ original.val.merged = true)
  | .superseded baseRef baseSha _, heard => heard = [⟨.branchHead baseRef, .ok (some baseSha)⟩]
  | .review _, heard => heard = []

/-- A look at the pull request, and what became of the plan. -/
inductive Looked (freshness : Freshness) : Said → Recheck × TriagePlan φ → Prop where
  | alone (heard : Said) (reason : String) (reads : ∀ e ∈ heard, e.1.isRead = true) :
    Looked freshness heard (.leaveAlone, plan.refuse reason)
  | refused (current : Pull plan.number) (evidence : Said) (reason : String)
    (unblocked : blocked setting current.val = false) (head : plan.headSha ≠ [])
    (same : current.val.headSha = plan.headSha) (stands : Stands plan.verdict evidence) :
    Looked freshness (⟨.pullRequest plan.number, .ok current⟩ :: evidence)
      (.unchanged, plan.refuse reason)
  | kept (current : Pull plan.number) (evidence : Said)
    (unblocked : blocked setting current.val = false) (head : plan.headSha ≠ [])
    (same : current.val.headSha = plan.headSha) (stands : Stands plan.verdict evidence)
    (passes : plan.close.isSome = true → ∃ close, gateDecide current.val plan.verdict
      setting.maintainers (closePolicy setting.config.prTriage.close freshness) = .close close) :
    Looked freshness (⟨.pullRequest plan.number, .ok current⟩ :: evidence) (.unchanged, plan)

section Look

variable {setting plan} {α : Type} {guard : Said → Call → Prop} {said : Said}

theorem Stands.reads {verdict : Verdict φ} {heard : Said} (h : Stands verdict heard) :
    ∀ e ∈ heard, e.1.isRead = true := by
  cases verdict with
  | duplicate of ofHeadSha pathOverlap lineOverlap =>
    obtain ⟨original, rfl, -⟩ := h
    simp [Call.isRead]
  | superseded baseRef baseSha linesChecked =>
    obtain rfl := h
    simp [Call.isRead]
  | review because =>
    obtain rfl := h
    simp

theorem checkEvidence_guarded {verdict : Verdict φ} {ends : Said → Option String → Prop}
    (hreads : ∀ said q, q.isRead = true → guard said q)
    (hends : ∀ heard why, (∀ e ∈ heard, e.1.isRead = true) →
      (why = none → Stands verdict heard) → ends (said ++ heard) why) :
    Guarded guard ends said (checkEvidence verdict) := by
  cases verdict with
  | duplicate of ofHeadSha pathOverlap lineOverlap =>
    refine guarded_bind ⟨hreads said _ rfl, fun answer => ?_⟩
    have hread : ∀ e ∈ ([⟨.pullRequest of, answer⟩] : Said), e.1.isRead = true := by
      simp [Call.isRead]
    cases answer with
    | error e => exact hends _ _ hread (by simp)
    | ok original =>
      dsimp only [Guarded]
      split_ifs with hhead hgone
      · exact hends _ _ hread (by simp)
      · exact hends _ _ hread (by simp)
      · refine hends _ _ hread fun _ => ⟨original, rfl, not_not.mp hhead, ?_⟩
        simp only [Bool.and_eq_true, Bool.not_eq_true', not_and, Bool.not_eq_false] at hgone
        exact or_iff_not_imp_left.mpr fun hclosed => hgone (by simpa using hclosed)
  | superseded baseRef baseSha linesChecked =>
    refine guarded_bind ⟨hreads said _ rfl, fun answer => ?_⟩
    have hread : ∀ e ∈ ([⟨.branchHead baseRef, answer⟩] : Said), e.1.isRead = true := by
      simp [Call.isRead]
    cases answer with
    | error e => exact hends _ _ hread (by simp)
    | ok head =>
      dsimp only [Guarded]
      split_ifs with hsame
      · subst hsame
        exact hends _ _ hread fun _ => rfl
      · exact hends _ _ hread (by simp)
  | review because =>
    have hnothing := hends [] none (by simp) fun _ => rfl
    rwa [List.append_nil] at hnothing

theorem revalidateAt_guarded {freshness : Freshness} {ends : Said → Recheck × TriagePlan φ → Prop}
    (hreads : ∀ said q, q.isRead = true → guard said q)
    (hends : ∀ heard result, Looked setting plan freshness heard result →
      ends (said ++ heard) result) :
    Guarded guard ends said (revalidateAt setting freshness plan) := by
  refine guarded_bind ⟨hreads said _ rfl, fun answer => ?_⟩
  cases answer with
  | error e => exact hends _ _ (.alone _ _ (by simp [Call.isRead]))
  | ok current =>
    have hread : ∀ heard : Said, (∀ e ∈ heard, e.1.isRead = true) →
        ∀ e ∈ (⟨.pullRequest plan.number, .ok current⟩ :: heard : Said), e.1.isRead = true :=
      fun heard hheard => List.forall_mem_cons.mpr ⟨rfl, hheard⟩
    dsimp only [Guarded]
    by_cases hblocked : blocked setting current.val = true
    · rw [if_pos hblocked]
      exact hends _ _ (.alone _ _ (hread [] (by simp)))
    by_cases hmoved : (plan.headSha.isEmpty || decide (plan.headSha ≠ current.val.headSha)) = true
    · rw [if_neg hblocked, if_pos hmoved]
      exact hends _ _ (.alone _ _ (hread [] (by simp)))
    rw [if_neg hblocked, if_neg hmoved]
    rw [Bool.not_eq_true] at hblocked
    obtain ⟨hhead, hsame⟩ : plan.headSha ≠ [] ∧ current.val.headSha = plan.headSha := by
      simp only [Bool.or_eq_true, List.isEmpty_iff, decide_eq_true_eq, not_or, not_not] at hmoved
      exact ⟨hmoved.1, hmoved.2.symm⟩
    refine guarded_bind (checkEvidence_guarded hreads fun heard why hheard hstands => ?_)
    rw [List.append_assoc, List.singleton_append]
    cases why with
    | some reason => exact hends _ _ (.alone _ _ (hread heard hheard))
    | none =>
      have hstands := hstands rfl
      dsimp only [Guarded]
      by_cases hclose : plan.close.isNone = true
      · rw [if_pos hclose]
        refine hends _ _ (.kept current heard hblocked hhead hsame hstands fun hsome => ?_)
        rw [Option.isNone_iff_eq_none.mp hclose] at hsome
        cases hsome
      · rw [if_neg hclose]
        cases hgate : gateDecide current.val plan.verdict setting.maintainers
            (closePolicy setting.config.prTriage.close freshness) with
        | refuse reason =>
          exact hends _ _ (.refused current heard reason hblocked hhead hsame hstands)
        | close close =>
          exact hends _ _ (.kept current heard hblocked hhead hsame hstands
            fun _ => ⟨close, hgate⟩)

end Look

section Write

variable {setting plan} {guard : Said → Call → Prop} {said : Said}

theorem guarded_andThen {α β : Type} {p : Program (Except Text α)}
    {f : α → Program (Except Text β)} {ends : Said → Except Text β → Prop}
    (h : Guarded guard (fun said answer =>
      match answer with
      | .error e => ends said (.error e)
      | .ok a => Guarded guard ends said (f a)) said p) :
    Guarded guard ends said (andThen p f) := by
  refine guarded_bind (h.mono (fun _ _ h => h) fun said answer hanswer => ?_)
  cases answer with
  | error e => exact hanswer
  | ok a => exact hanswer

/-- Labels were added or removed, and nothing else was done. -/
def Labelling (heard : Said) : Prop := ∀ e ∈ heard, ∀ id body, ¬ Posts e id body

/-- The writes of a plan that does not close, in order; a comment comes last. -/
inductive Written (plan : TriagePlan φ) : Said → Except Text (Option ℕ) → Prop where
  | failed (heard : Said) (e : Text) (quiet : Labelling heard) : Written plan heard (.error e)
  | silent (heard : Said) (quiet : Labelling heard) (none : plan.comment = none) :
    Written plan heard (.ok plan.commentId)
  | posted (heard : Said) (e : Exchange Answer) (id : ℕ) (body : Text) (quiet : Labelling heard)
    (comment : plan.comment = some body) (posts : Posts e id body)
    (placed : Placed plan (heard ++ [e]) id) :
    Written plan (heard ++ [e]) (.ok (some id))

theorem Labelling.concat {heard : Said} (h : Labelling heard) {e : Exchange Answer}
    (he : ∀ id body, ¬ Posts e id body) : Labelling (heard ++ [e]) := by
  intro other hother
  rcases List.mem_append.mp hother with hmem | hlast
  · exact h other hmem
  · rw [List.mem_singleton.mp hlast]
    exact he

theorem removeAll_guarded {ends : Said → Except Text Unit → Prop} (labels : List Text)
    {heard : Said} (hheard : Labelling heard)
    (hguard : ∀ heard q, Marks plan (said ++ heard) q → guard (said ++ heard) q)
    (hends : ∀ heard answer, Labelling heard → ends (said ++ heard) answer) :
    Guarded guard ends (said ++ heard) (removeAll plan.number labels) := by
  induction labels generalizing heard with
  | nil => exact hends heard _ hheard
  | cons label labels ih =>
    refine guarded_andThen ⟨hguard heard _ rfl, fun answer => ?_⟩
    have hmore := @Labelling.concat heard hheard ⟨.removeLabel plan.number label, answer⟩
      (by rintro _ _ ⟨⟩)
    rw [List.append_assoc]
    cases answer with
    | error e => exact hends _ _ hmore
    | ok _ => exact ih hmore

theorem postComment_guarded {ends : Said → Except Text (Option ℕ) → Prop} {heard : Said}
    (hheard : Labelling heard)
    (hguard : ∀ heard q, Marks plan (said ++ heard) q → guard (said ++ heard) q)
    (hends : ∀ heard answer, Written plan heard answer → ends (said ++ heard) answer) :
    Guarded guard ends (said ++ heard) (postComment plan) := by
  unfold postComment
  split
  · rename_i hcomment
    exact hends _ _ (.silent heard hheard hcomment)
  · rename_i body id hcomment hid
    refine guarded_andThen ⟨hguard heard _ (.inl hid), fun answer => ?_⟩
    rw [List.append_assoc]
    cases answer with
    | error e => exact hends _ _ (.failed _ e (hheard.concat (by rintro _ _ ⟨⟩)))
    | ok _ => exact hends _ _ (.posted heard _ id body hheard hcomment (.update id body) (.inl hid))
  · rename_i body hcomment _
    refine guarded_andThen ⟨hguard heard _ rfl, fun answer => ?_⟩
    rw [List.append_assoc]
    cases answer with
    | error e => exact hends _ _ (.failed _ e (hheard.concat (by rintro _ _ ⟨⟩)))
    | ok id =>
      exact hends _ _ (.posted heard _ id body hheard hcomment (.create _ body id)
        (.inr ⟨body, by simp⟩))

theorem applyPlan_guarded {ends : Said → Except Text (Option ℕ) → Prop} (hclose : plan.close = none)
    (hguard : ∀ heard q, Marks plan (said ++ heard) q → guard (said ++ heard) q)
    (hends : ∀ heard answer, Written plan heard answer → ends (said ++ heard) answer) :
    Guarded guard ends said (applyPlan plan) := by
  have hremoves : ∀ heard : Said, Labelling heard → Guarded guard ends (said ++ heard)
      (andThen (removeAll plan.number plan.removeLabels) fun _ => andThen (postComment plan)
        fun commentId => andThen (done (.ok ())) fun _ => done (.ok commentId)) := by
    intro heard hheard
    refine guarded_andThen (removeAll_guarded _ hheard hguard fun heard answer hheard => ?_)
    cases answer with
    | error e => exact hends _ _ (.failed heard e hheard)
    | ok _ =>
      refine guarded_andThen (postComment_guarded hheard hguard fun heard answer hwritten => ?_)
      cases answer with
      | error e => exact hends _ _ hwritten
      | ok commentId => exact hends _ _ hwritten
  rw [applyPlan, hclose]
  refine guarded_andThen ?_
  split_ifs
  · have hstart := hremoves [] (by simp [Labelling])
    rwa [List.append_nil] at hstart
  · have hfirst := hguard [] (.addLabels plan.number plan.addLabels) rfl
    rw [List.append_nil] at hfirst
    refine ⟨hfirst, fun answer => ?_⟩
    have hlabelling : Labelling [⟨.addLabels plan.number plan.addLabels, answer⟩] := by
      intro e he id body hposts
      rw [List.mem_singleton.mp he] at hposts
      cases hposts
    cases answer with
    | error e => exact hends _ _ (.failed _ e hlabelling)
    | ok _ => exact hremoves _ hlabelling

end Write

section Owes

variable {number : ℕ} {said : Said} {owed : Option ℕ} {e : Exchange Answer}

theorem Settled.concat {id : ℕ} {after : Said} (h : Settled number id after)
    (e : Exchange Answer) : Settled number id (after ++ [e]) := by
  rcases h with hclosed | ⟨body, answer, hplain, hedit⟩
  · exact .inl (List.mem_append_left _ hclosed)
  · exact .inr ⟨body, answer, hplain, List.mem_append_left _ hedit⟩

theorem Owes.nil : Owes number [] none := by
  intro before e after id body hsaid
  simp at hsaid

theorem Owes.weaken (h : Owes number said none) : Owes number said owed := by
  intro before e after id body hsaid hposts hannounces
  rcases h before e after id body hsaid hposts hannounces with hsettled | hnone
  · exact .inl hsettled
  · cases hnone

theorem Posts.unique {id id' : ℕ} {body body' : Text} (h : Posts e id body)
    (h' : Posts e id' body') : id = id' ∧ body = body' := by
  cases h <;> cases h' <;> exact ⟨rfl, rfl⟩

/-- What one more call leaves to settle. -/
theorem Owes.concat {owed' : Option ℕ} (h : Owes number said owed)
    (hold : ∀ id, owed = some id → Settled number id [e] ∨ owed' = some id)
    (hnew : ∀ id body, Posts e id body → announces body = true → owed' = some id) :
    Owes number (said ++ [e]) owed' := by
  intro before other after id body hsaid hposts hannounces
  rcases List.eq_nil_or_concat' after with rfl | ⟨init, last, rfl⟩
  · obtain ⟨rfl, hlast⟩ := List.append_inj' hsaid rfl
    obtain rfl := List.singleton_inj.mp hlast
    exact .inr (hnew id body hposts hannounces)
  · rw [← List.cons_append, ← List.append_assoc] at hsaid
    obtain ⟨rfl, hlast⟩ := List.append_inj' hsaid rfl
    obtain rfl := List.singleton_inj.mp hlast
    rcases h before other init id body rfl hposts hannounces with hsettled | howed
    · exact .inl (hsettled.concat _)
    · rcases hold id howed with hsettled | hstill
      · left
        rcases hsettled with hclosed | ⟨body, answer, hplain, hedit⟩
        · exact .inl (List.mem_append_right _ hclosed)
        · exact .inr ⟨body, answer, hplain, List.mem_append_right _ hedit⟩
      · exact .inr hstill

/-- Calls that leave no comment owe nothing more. -/
theorem Owes.append (h : Owes number said owed) {heard : Said} (hquiet : Labelling heard) :
    Owes number (said ++ heard) owed := by
  induction heard generalizing said with
  | nil => rwa [List.append_nil]
  | cons e heard ih =>
    obtain ⟨he, hrest⟩ := List.forall_mem_cons.mp hquiet
    have hone : Owes number (said ++ [e]) owed :=
      h.concat (fun id howed => .inr howed) fun id body hposts => absurd hposts (he id body)
    rw [← List.singleton_append, ← List.append_assoc]
    exact ih hone hrest

theorem labelling_of_reads {heard : Said} (h : ∀ e ∈ heard, e.1.isRead = true) :
    Labelling heard := by
  intro e he id body hposts
  have hread := h e he
  cases hposts <;> cases hread

end Owes

section Plan

variable {setting plan} {said : Said}

theorem FirstLook.append (h : FirstLook setting plan said) (heard : Said) :
    FirstLook setting plan (said ++ heard) := by
  obtain ⟨first, rest, rfl, hfirst⟩ := h
  exact ⟨first, rest ++ heard, rfl, hfirst⟩

theorem Placed.append {id : ℕ} (h : Placed plan said id) (heard : Said) :
    Placed plan (said ++ heard) id :=
  h.imp_right fun ⟨body, hmem⟩ => ⟨body, List.mem_append_left heard hmem⟩

theorem FirstLook.allowed (h : FirstLook setting plan said) (heard : Said) (q : Call)
    (hq : Marks plan (said ++ heard) q) : Allowed setting plan (said ++ heard) q := by
  cases q with
  | addLabels | removeLabel | createComment | updateComment => exact ⟨hq, h.append heard⟩
  | pullRequest | branchHead | closePullRequest => cases hq

theorem allowed_read (said : Said) (q : Call) (hq : q.isRead = true) :
    Allowed setting plan said q := by
  cases q with
  | pullRequest | branchHead => trivial
  | _ => cases hq

/-- An edit takes back what this run announced. -/
theorem correctComment_guarded {current : TriagePlan φ} {guard : Said → Call → Prop}
    {ends : Said → Unit → Prop} {owed : Option ℕ} (howes : Owes plan.number said owed)
    (hguard : ∀ id body, current.commentId = some id → guard said (.updateComment id body))
    (hclose : current.close = none)
    (howed : ∀ id, owed = some id → current.commentId = some id ∧
      ∃ body, render setting.floats current = some body)
    (hends : ∀ said, Owes plan.number said none → ends said ()) :
    Guarded guard ends said (correctComment setting current) := by
  unfold correctComment
  split
  · rename_i id body hid hbody
    have hplain : announces body = false :=
      not_announces_render setting.floats (by simp [hclose]) hbody
    refine guarded_bind ?_
    simp only [applyPlan, andThen, removeAll, postComment, hid, List.isEmpty_nil, if_true,
      Dialogue.bind, updateComment]
    refine ⟨hguard id body hid, fun answer => ?_⟩
    have hsettled : Owes plan.number (said ++ [⟨.updateComment id body, answer⟩]) none := by
      refine howes.concat (fun other hother => .inl (.inr ?_)) ?_
      · obtain ⟨hsame, -⟩ := howed other hother
        obtain rfl := Option.some.inj (hid.symm.trans hsame)
        exact ⟨body, answer, hplain, List.mem_singleton_self _⟩
      · intro other body' hposts hannounces
        cases hposts
        rw [hplain] at hannounces
        cases hannounces
    cases answer with
    | error e => exact hends _ hsettled
    | ok _ => exact hends _ hsettled
  · rename_i hnot
    refine hends said ?_
    cases owed with
    | none => exact howes
    | some id =>
      obtain ⟨hid, body, hbody⟩ := howed id rfl
      exact absurd hbody (hnot id body hid)

theorem Fresh.append (h : Fresh setting plan said) (heard : Said) :
    Fresh setting plan (said ++ heard) := by
  obtain ⟨first, rest, rfl, hfresh⟩ := h
  exact ⟨first, rest ++ heard, rfl, hfresh⟩

/-- A last look that keeps the close justifies it. -/
theorem Fresh.justified (h : Fresh setting plan said) {last : Pull plan.number} {evidence : Said}
    (hblocked : blocked setting last.val = false) (hhead : last.val.headSha = plan.headSha)
    (hstands : Stands plan.verdict evidence) {close : ClosePlan}
    (hgate : gateDecide last.val plan.verdict setting.maintainers
      (closePolicy setting.config.prTriage.close .sinceOurOwnWrites) = .close close) :
    Justified setting plan (said ++ ⟨.pullRequest plan.number, .ok last⟩ :: evidence) := by
  obtain ⟨hcloseable, -, -, hverdict, holder⟩ := gateDecide_eq_close hgate
  rw [last.property] at holder
  have hafter : ∀ e ∈ evidence, e.1 ≠ .pullRequest plan.number := by
    intro e he hsame
    cases hv : plan.verdict with
    | duplicate of ofHeadSha pathOverlap lineOverlap =>
      rw [hv] at hstands holder
      obtain ⟨original, rfl, -⟩ := hstands
      rw [List.mem_singleton.mp he, Call.pullRequest.injEq] at hsame
      exact absurd holder (by simp [Verdict.NamesOlder, hsame])
    | superseded baseRef baseSha linesChecked =>
      rw [hv] at hstands
      obtain rfl := hstands
      rw [List.mem_singleton.mp he] at hsame
      cases hsame
    | review because =>
      rw [hv] at hverdict
      cases hverdict
  refine ⟨h.append _, ⟨last, ⟨said, evidence, rfl, hafter⟩, ?_, hblocked, hhead⟩, hverdict, ?_, ?_⟩
  · exact ⟨hcloseable.isOpen, hcloseable.unmerged, hcloseable.ready, hcloseable.unprotected,
      hcloseable.author⟩
  · intro of ofHeadSha pathOverlap lineOverlap hv
    rw [hv] at hstands holder
    obtain ⟨original, rfl, hsame, hlands⟩ := hstands
    refine ⟨holder, original, ⟨said ++ [⟨.pullRequest plan.number, .ok last⟩], [], ?_, by simp⟩,
      hsame, hlands⟩
    simp
  · intro baseRef baseSha linesChecked hv
    rw [hv] at hstands
    obtain rfl := hstands
    exact ⟨said ++ [⟨.pullRequest plan.number, .ok last⟩], by simp⟩

theorem closeNow_guarded {comment : Option Text} {commentId : Option ℕ} {close : ClosePlan}
    {closeRefusal : Option String} {owed : Option ℕ} (hfirst : FirstLook setting plan said)
    (hfresh : Fresh setting plan said) (howes : Owes plan.number said owed)
    (hplaced : ∀ id, commentId = some id → Placed plan said id)
    (howed : ∀ id, owed = some id → commentId = some id ∧
      (plan.verdict.isCloseable = true ∨ plan.flags ≠ [])) :
    Guarded (Allowed setting plan) (fun said _ => Owes plan.number said none) said
      (closeNow setting { plan with comment, commentId, close := some close, closeRefusal }) := by
  -- whatever refuses the close, what was announced is taken back
  have hcorrect : ∀ (current : TriagePlan φ) (heard : Said) (report : Report),
      (∃ reason, current = { plan with
        comment, commentId, close := none, closeRefusal := some reason }) →
      Owes plan.number (said ++ heard) owed →
      Guarded (Allowed setting plan) (fun said _ => Owes plan.number said none) (said ++ heard)
        ((correctComment setting current).bind fun _ => done report) := by
    rintro current heard report ⟨reason, rfl⟩ hheard
    refine guarded_bind (correctComment_guarded hheard
      (fun id _ hid => hfirst.allowed heard _ ((hplaced id hid).append heard)) rfl ?_
      fun _ hsettled => hsettled)
    intro id hid
    obtain ⟨hcomment, hsaid⟩ := howed id hid
    exact ⟨hcomment, render_isSome setting.floats hsaid⟩
  refine guarded_bind (revalidateAt_guarded allowed_read fun heard result hlooked => ?_)
  cases hlooked with
  | alone heard reason reads =>
    exact hcorrect _ heard _ ⟨reason, rfl⟩ (howes.append (labelling_of_reads reads))
  | refused current evidence reason hblocked hhead hsame hstands =>
    refine hcorrect _ _ _ ⟨reason, rfl⟩ (howes.append (labelling_of_reads ?_))
    exact List.forall_mem_cons.mpr ⟨rfl, hstands.reads⟩
  | kept current evidence hblocked hhead hsame hstands hpasses =>
    have hheard : Owes plan.number
        (said ++ ⟨.pullRequest plan.number, .ok current⟩ :: evidence) owed :=
      howes.append (labelling_of_reads (List.forall_mem_cons.mpr ⟨rfl, hstands.reads⟩))
    obtain ⟨closing, hgate⟩ := hpasses rfl
    refine guarded_bind ⟨⟨rfl, hfirst.append _, hfresh.justified hblocked hsame hstands hgate⟩,
      fun answer => ?_⟩
    cases answer with
    | ok _ =>
      refine hheard.concat (fun id _ => .inl (.inl (List.mem_singleton_self _))) ?_
      rintro id body ⟨⟩
    | error e =>
      rw [List.append_assoc]
      refine hcorrect _ _ _ ⟨_, rfl⟩ ?_
      rw [← List.append_assoc]
      refine hheard.concat (fun id hid => .inr hid) ?_
      rintro id body ⟨⟩

/-- The comment of a plan is what its writes may owe. -/
theorem Written.owes {current : TriagePlan φ} {heard : Said} {answer : Except Text (Option ℕ)}
    (h : Written current heard answer) (hsaid : Owes plan.number said none) {owed : Option ℕ}
    (howed : ∀ id body, answer = .ok (some id) → current.comment = some body →
      announces body = true → owed = some id) : Owes plan.number (said ++ heard) owed := by
  cases h with
  | failed heard e quiet => exact (hsaid.append quiet).weaken
  | silent heard quiet hnone => exact (hsaid.append quiet).weaken
  | posted heard e id body quiet hcomment hposts =>
    rw [← List.append_assoc]
    refine (hsaid.append quiet).concat (by simp) fun id' body' hposts' hannounces => ?_
    obtain ⟨rfl, rfl⟩ := hposts.unique hposts'
    exact howed id body rfl hcomment hannounces

/-- The writes of a plan, and a close after another look. -/
theorem carryOut_guarded {close : Option ClosePlan} {closeRefusal : Option String}
    (hfirst : FirstLook setting plan said) (howes : Owes plan.number said none)
    (hfresh : close.isSome = true → Fresh setting plan said) :
    Guarded (Allowed setting plan) (fun said _ => Owes plan.number said none) said
      (carryOut setting { plan with close, closeRefusal }) := by
  unfold carryOut
  obtain ⟨comment, hcomment, hrender⟩ : ∃ comment,
      (if plan.comment.isSome then
        { plan with close, closeRefusal,
                    comment := render setting.floats { plan with close, closeRefusal } }
      else { plan with close, closeRefusal }) = { plan with comment, close, closeRefusal } ∧
        ∀ body, comment = some body →
          render setting.floats { plan with close, closeRefusal } = some body := by
    split_ifs with hsome
    · exact ⟨_, rfl, fun body hbody => hbody⟩
    · rw [Bool.not_eq_true, Option.isSome_eq_false_iff, Option.isNone_iff_eq_none] at hsome
      exact ⟨plan.comment, rfl, fun body hbody => by rw [hsome] at hbody; cases hbody⟩
  dsimp only at hcomment ⊢
  rw [hcomment]
  refine guarded_bind (applyPlan_guarded rfl (fun heard q hq => hfirst.allowed heard q hq)
    fun heard answer hwritten => ?_)
  cases answer with
  | error e => exact hwritten.owes howes (by simp)
  | ok posted =>
    dsimp only
    cases hclose : close.any fun close => !close.dryRun with
    | true =>
      cases close with
      | none => cases hclose
      | some closing =>
        have hfresh := (hfresh rfl).append heard
        rw [if_pos rfl]
        have hrest : ∀ owed, Owes plan.number (said ++ heard) owed →
            (∀ id, posted = some id → Placed plan (said ++ heard) id) →
            (∀ id, owed = some id → posted = some id ∧
              (plan.verdict.isCloseable = true ∨ plan.flags ≠ [])) →
            Guarded (Allowed setting plan) (fun said _ => Owes plan.number said none)
              (said ++ heard) (closeNow setting { plan with
                comment, commentId := posted, close := some closing, closeRefusal }) :=
          fun owed howes hplaced howed =>
            closeNow_guarded (hfirst.append heard) hfresh howes hplaced howed
        cases hwritten with
        | silent heard quiet hnone =>
          exact hrest none (howes.append quiet) (fun id hid => .inl hid) (by simp)
        | posted heard e id body quiet hbody hposts hplaced =>
          refine hrest (some id) ?_ ?_ ?_
          · refine (Written.posted heard e id body quiet hbody hposts hplaced).owes howes ?_
            rintro id' body' hid - -
            exact Except.ok.inj hid
          · rintro _ ⟨⟩
            exact hplaced.imp_right fun ⟨body, hmem⟩ => ⟨body, List.mem_append_right said hmem⟩
          · rintro _ ⟨⟩
            have hsaid := of_render_isSome setting.floats (hrender body hbody)
            exact ⟨rfl, hsaid⟩
    | false =>
      refine hwritten.owes howes fun id body _ hbody hannounces => ?_
      have hdry : ∀ closing, close = some closing → closing.dryRun = true := by
        rintro closing rfl
        simpa using hclose
      rw [not_announces_render setting.floats hdry (hrender body hbody)] at hannounces
      cases hannounces

/-- Whatever the forge answers, the plan is carried out within its bounds. -/
theorem applyOne_guarded : Guarded (Allowed setting plan)
    (fun said _ => Owes plan.number said none) [] (applyOne setting plan) := by
  refine guarded_bind (revalidateAt_guarded allowed_read fun heard result hlooked => ?_)
  rw [List.nil_append]
  cases hlooked with
  | alone heard reason reads => exact Owes.nil.append (labelling_of_reads reads)
  | refused current evidence reason hblocked hhead hsame hstands =>
    refine carryOut_guarded ⟨current, evidence, rfl, hblocked, hhead, hsame⟩ ?_ (by simp)
    exact Owes.nil.append (labelling_of_reads (List.forall_mem_cons.mpr ⟨rfl, hstands.reads⟩))
  | kept current evidence hblocked hhead hsame hstands hpasses =>
    refine carryOut_guarded ⟨current, evidence, rfl, hblocked, hhead, hsame⟩ ?_ fun hclose => ?_
    · exact Owes.nil.append (labelling_of_reads (List.forall_mem_cons.mpr ⟨rfl, hstands.reads⟩))
    · obtain ⟨closing, hgate⟩ := hpasses hclose
      obtain ⟨-, hage, hquiet, -, -⟩ := gateDecide_eq_close hgate
      exact ⟨current, evidence, rfl, hage, hquiet⟩

end Plan

end TinySweeper.PrTriage
