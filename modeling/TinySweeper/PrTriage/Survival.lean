import TinySweeper.PrTriage.Accounts

/-!
# No work is lost

Whatever people do in between, a close rests on what was seen just before it, and the
pull requests closed as duplicates of each other leave one behind that was not.
-/

namespace TinySweeper.PrTriage

open Text Dialogue Relation

variable {φ : Type}

/-- A run closed the pull request as a duplicate of the other. -/
def DuplicateOf (w : World φ) (number of : ℕ) : Prop :=
  ∃ ofHeadSha pathOverlap lineOverlap,
    w.closedBy number = some (.run (.duplicate of ofHeadSha pathOverlap lineOverlap))

/-- The pull requests joined to this one by closes as duplicates. -/
def Group (w : World φ) (number : ℕ) : Set ℕ :=
  { member | ReflTransGen (fun a b => DuplicateOf w a b ∨ DuplicateOf w b a) number member }

/-- The pull request is open or merged, or its lines are on the base branch. -/
def Survives (w : World φ) (number : ℕ) : Prop :=
  (∃ pull : Pull number, w.pulls number = some pull ∧
    (pull.val.isOpen = true ∨ pull.val.merged = true)) ∨
  ∃ baseRef baseSha linesChecked,
    w.closedBy number = some (.run (.superseded baseRef baseSha linesChecked))

/-- The run is still at the plan that left the comment, has closed the pull request, or
was refused the edit that takes the announcement back. -/
def Run.AnswersFor (run : Run φ) (id : ℕ) (note : Note) : Prop :=
  ∃ plan said, (plan, said) ∈ run.carried ∧ plan.number = note.number ∧
    ∃ before e after, said = before ++ e :: after ∧ Posts e id note.body ∧
      ((∃ q next, run.now = some ⟨plan, said, .ask q next⟩) ∨
        ⟨.closePullRequest note.number, .ok ()⟩ ∈ after ∨
        ∃ body e, announces body = false ∧ ⟨.updateComment id body, .error e⟩ ∈ after)

structure Kept (s : System φ) : Prop where
  /-- Each run does what `applyAll` asks for the plans of its sweep. -/
  follows : ∀ run ∈ s.runs, Says (applyAll run.setting run.plans) run.heard run.program
  /-- A close is on the pull request of the plan, as the sweep judged it and as it was last seen. -/
  closes : ∀ run ∈ s.runs, ∀ plan said number next,
    run.now = some ⟨plan, said, .ask (.closePullRequest number) next⟩ →
      number = plan.number ∧ Justified run.setting plan said ∧
        ∃ listed pulls, run.answers.openPullRequests = .ok listed ∧
          requested run.answers run.only listed = .ok (some pulls) ∧
          Judged run.setting run.answers pulls plan
  /-- Any write is on the pull request of the plan, and comes after a first look. -/
  writes : ∀ run ∈ s.runs, ∀ plan said q next, run.now = some ⟨plan, said, .ask q next⟩ →
    q.isRead = false → s.world.target q = some plan.number ∧ FirstLook run.setting plan said
  closed : ∀ number verdict, s.world.closedBy number = some (.run verdict) →
    ∃ run ∈ s.runs, run.Closed number verdict
  groups : ∀ number of, DuplicateOf s.world number of → ∃ member ∈ Group s.world number,
    Survives s.world member ∨ s.world.closedBy member = some .person
  comments : ∀ id note, s.world.comments id = some note → announces note.body = true →
    ∃ run ∈ s.runs, run.AnswersFor id note

section Account

variable {s : System φ}

/-- What is closed as a duplicate has an older original, which was found. -/
theorem Account.original (h : Account s) {number of : ℕ} (hdup : DuplicateOf s.world number of) :
    of < number ∧ (s.world.pulls of).isSome = true := by
  obtain ⟨ofHeadSha, pathOverlap, lineOverlap, hby⟩ := hdup
  obtain ⟨run, hrun, plan, said, hmem, rfl, hverdict, before, after, rfl, hjustified⟩ :=
    h.closed number _ hby
  obtain ⟨holder, original, ⟨early, late, rfl, -⟩, -⟩ := hjustified.original _ _ _ _ hverdict
  refine ⟨holder, h.heard run hrun ⟨.pullRequest of, .ok original⟩ ?_⟩
  exact List.mem_flatMap.mpr ⟨_, hmem, by simp⟩

/-- From original to original, one is reached that was not closed as a duplicate. -/
theorem Account.leads (h : Account s) (number : ℕ) (hsome : (s.world.pulls number).isSome = true) :
    ∃ member, ReflTransGen (DuplicateOf s.world) number member ∧
      (Survives s.world member ∨ s.world.closedBy member = some .person) := by
  induction number using Nat.strong_induction_on with
  | _ number ih =>
    obtain ⟨pull, hpull⟩ := Option.isSome_iff_exists.mp hsome
    cases hopen : pull.val.isOpen with
    | true => exact ⟨number, .refl, .inl (.inl ⟨pull, hpull, .inl hopen⟩)⟩
    | false =>
      obtain ⟨closer, hby⟩ :=
        Option.ne_none_iff_exists'.mp (h.accounted number pull hpull hopen)
      cases closer with
      | person => exact ⟨number, .refl, .inr hby⟩
      | run verdict =>
        cases verdict with
        | duplicate of ofHeadSha pathOverlap lineOverlap =>
          have hdup : DuplicateOf s.world number of := ⟨_, _, _, hby⟩
          obtain ⟨holder, hfound⟩ := h.original hdup
          obtain ⟨member, hleads, hmember⟩ := ih of holder hfound
          exact ⟨member, .head hdup hleads, hmember⟩
        | superseded baseRef baseSha linesChecked =>
          exact ⟨number, .refl, .inl (.inr ⟨baseRef, baseSha, linesChecked, hby⟩)⟩
        | review because =>
          obtain ⟨run, -, plan, said, -, -, hverdict, before, after, -, hjustified⟩ :=
            h.closed number _ hby
          have hcloseable := hjustified.closeable
          rw [hverdict] at hcloseable
          cases hcloseable

theorem Account.groups (h : Account s) {number of : ℕ} (hdup : DuplicateOf s.world number of) :
    ∃ member ∈ Group s.world number,
      Survives s.world member ∨ s.world.closedBy member = some .person := by
  obtain ⟨member, hleads, hmember⟩ := h.leads of (h.original hdup).2
  have hjoined : member ∈ Group s.world number :=
    ReflTransGen.mono (r := DuplicateOf s.world) (fun _ _ => Or.inl) _ _ (.head hdup hleads)
  exact ⟨member, hjoined, hmember⟩

/-- The run that left an announcement has closed, was refused an edit, or goes on. -/
theorem Run.Sound.answersFor {run : Run φ} (h : run.Sound) {id : ℕ} {note : Note}
    (hleaves : run.Leaves id note) (hannounces : announces note.body = true) :
    run.AnswersFor id note := by
  obtain ⟨plan, said, hmem, hnumber, before, e, after, rfl, hposts, hafter⟩ := hleaves
  refine ⟨plan, _, hmem, hnumber, before, e, after, rfl, hposts, ?_⟩
  -- once the plan is carried out, nothing is owed
  have hsettled : Owes plan.number (before ++ e :: after) none →
      ⟨.closePullRequest note.number, .ok ()⟩ ∈ after ∨
        ∃ body e, announces body = false ∧ ⟨.updateComment id body, .error e⟩ ∈ after := by
    intro howes
    rcases howes before e after id note.body rfl hposts hannounces with hsettled | hnone
    · rcases hsettled with hclosed | ⟨body, answer, hplain, hedit⟩
      · exact .inl (hnumber ▸ hclosed)
      · cases answer with
        | error e => exact .inr ⟨body, e, hplain, hedit⟩
        | ok _ => exact absurd (.update id body) (hafter _ hedit body)
    · cases hnone
  rcases List.mem_append.mp hmem with hpast | hlast
  · obtain ⟨finished, hfinished, hsame⟩ := List.mem_map.mp hpast
    obtain ⟨rfl, hsaid⟩ := Prod.mk.inj hsame
    exact .inr (hsettled (hsaid ▸ h.past finished hfinished))
  · obtain ⟨⟨plan', said', rest⟩, hwork, hsame⟩ := List.mem_map.mp hlast
    obtain ⟨rfl, rfl⟩ := Prod.mk.inj hsame
    have hnow : run.now = some ⟨plan', before ++ e :: after, rest⟩ := by
      simpa using hwork
    cases rest with
    | done report => exact .inr (hsettled (h.now _ _ _ hnow))
    | ask q next => exact .inl ⟨q, next, hnow⟩

end Account

/-- Whatever people do between the calls of any number of runs, each close is justified by what
was last seen, each write by a first look, and no work and no promise is lost. -/
theorem runs_keep {s₀ s : System φ} (h₀ : Initial s₀) (h : Reaches s₀ s) : Kept s := by
  have haccount := h.account h₀
  refine ⟨fun run hrun => (haccount.sound run hrun).follows, ?_, ?_, haccount.closed,
    fun number of => haccount.groups, ?_⟩
  · intro run hrun plan said number next hnow
    have hsound := haccount.sound run hrun
    have hmem : (plan, said) ∈ run.carried := by
      rw [Run.carried_now hnow]
      exact List.mem_append_right _ (List.mem_singleton_self _)
    obtain ⟨⟨hnumber, -, hjustified⟩, -⟩ := hsound.now _ _ _ hnow
    exact ⟨hnumber, hjustified, hsound.judged hmem⟩
  · exact fun run hrun plan said q next hnow hq => haccount.writes hrun hnow hq
  · intro id note hnote hannounces
    obtain ⟨run, hrun, hleaves⟩ := haccount.comments id note hnote hannounces
    exact ⟨run, hrun, (haccount.sound run hrun).answersFor hleaves hannounces⟩

namespace Race

/-- One line of one file is changed. -/
def file : ChangedFile := ⟨['f'], none, .modified, some "@@ -1 +1 @@\n-a\n+b".toList⟩

def setting : Setting Unit where
  floats := ⟨fun _ _ => (), (), fun _ _ => false, fun _ _ => true, fun _ => [], fun _ => []⟩
  config := ⟨⟨true, 9, 0, 1, 9, (), (), false, false, false, ⟨true, 0, 0, [], [], false⟩⟩, []⟩
  maintainers := []
  botLogin := []
  promotional _ _ := none

def pull (number : ℕ) : Pull number :=
  ⟨⟨number, ['u'], false, ['m'], ['h'], [], true, false, 9, 9⟩, rfl⟩

def answers : Answers where
  openPullRequests := .ok [(pull 1).val, (pull 2).val]
  pullRequest number := .ok (pull number).val
  changedFiles _ := .ok [file]
  branchHead _ := .ok none
  fileAt _ _ := .ok none
  comments _ := .ok []

/-- The second pull request duplicates the first. -/
def plan : TriagePlan Unit where
  number := 2
  headSha := ['h']
  verdict := .duplicate 1 ['h'] () ()
  declinedLabels :=
    [("triage: duplicate".toList, "labelling is off in the configuration")]
  close := some ⟨2, ['h'], false⟩

def before : World Unit where
  pulls number := if number = 1 ∨ number = 2 then some (pull number) else none
  branches _ := none
  comments _ := none
  closedBy _ := none

/-- A person has closed the first. -/
def after : World Unit where
  pulls number :=
    if number = 1 then some ⟨{ (pull number).val with isOpen := false }, rfl⟩
    else before.pulls number
  branches _ := none
  comments _ := none
  closedBy number := if number = 1 then some .person else none

theorem sweep_eq : ∃ outcome, sweep setting answers (some 2) = .ok outcome ∧
    outcome.plans = [plan] := by
  have hplans : (sweep setting answers (some 2)).toOption.map SweepOutcome.plans =
      some [plan] := by
    decide +kernel
  obtain ⟨outcome, houtcome, hsame⟩ := Option.map_eq_some_iff.mp hplans
  cases hswept : sweep setting answers (some 2) with
  | error e => simp [hswept, Except.toOption] at houtcome
  | ok found =>
    obtain rfl : found = outcome := by simpa [hswept, Except.toOption] using houtcome
    exact ⟨found, rfl, hsame⟩

def looks : Said := [⟨.pullRequest 2, .ok (pull 2)⟩, ⟨.pullRequest 1, .ok (pull 1)⟩]

theorem says_looks : ∃ next, Says (applyOne setting plan) (looks ++ looks)
    (.ask (.closePullRequest 2) next) :=
  ⟨_, .cons (.cons (.cons (.cons (.nil _))))⟩

/-- Looks that the forge answers as it is. -/
theorem reaches_looks {w : World φ} (run : Run φ) (plan : TriagePlan φ) {said heard : Said}
    {p rest : Program Report} (h : Says p heard rest)
    (hreplies : ∀ e ∈ heard, Replies plan.verdict w e.1 e.2 w) :
    Reaches ⟨w, [{ run with now := some ⟨plan, said, p⟩ }]⟩
      ⟨w, [{ run with now := some ⟨plan, said ++ heard, rest⟩ }]⟩ := by
  induction h generalizing said with
  | nil p =>
    rw [List.append_nil]
    exact .refl
  | @cons q next answer heard rest h ih =>
    obtain ⟨hfirst, hrest⟩ := List.forall_mem_cons.mp hreplies
    rw [List.append_cons said]
    exact .head (.call 0 _ plan said q next answer w rfl rfl hfirst) (ih hrest)

theorem looks_reply : ∀ e ∈ looks ++ looks, Replies plan.verdict before e.1 e.2 before := by
  have hlooks : ∀ e ∈ looks, Replies plan.verdict before e.1 e.2 before :=
    List.forall_mem_cons.mpr ⟨.pullRequest _ rfl, List.forall_mem_singleton.mpr (.pullRequest _ rfl)⟩
  exact List.forall_mem_append.mpr ⟨hlooks, hlooks⟩

theorem people_act : PeopleAct before after where
  comments := rfl
  kept number pull hpull := by
    unfold after
    dsimp only
    by_cases hfirst : number = 1
    · subst hfirst
      obtain rfl : Race.pull 1 = pull := Option.some.inj hpull
      exact ⟨_, rfl, by simp [Race.pull], by simp⟩
    · rw [if_neg hfirst]
      exact ⟨pull, hpull, fun h => h, fun h => h⟩
  closedBy number := by
    by_cases hfirst : number = 1
    · subst hfirst
      rfl
    · have hsame : after.pulls number = before.pulls number := if_neg hfirst
      simp only [World.isOpen, hsame, Bool.and_not_self, Bool.false_eq_true, if_false]
      exact if_neg hfirst

theorem initial : Initial (⟨before, []⟩ : System Unit) where
  runs := rfl
  closedBy number pull hpull hclosed := by
    dsimp only [before] at hpull
    split_ifs at hpull
    obtain rfl := Option.some.inj hpull
    cases hclosed
  unclosed number verdict := by simp [before]
  comments id note hnote := by cases hnote

/-- The second is closed as a duplicate right after a person has closed the first. -/
theorem reaches_close : ∃ s : System Unit, Reaches ⟨before, []⟩ s ∧
    s.world = after.close (pull 2) plan.verdict := by
  obtain ⟨outcome, hswept, hplans⟩ := sweep_eq
  obtain ⟨next, hlooks⟩ := says_looks
  let run : Run Unit := ⟨setting, answers, some 2, outcome, hswept, [], none, outcome.plans⟩
  have hstart : Step (⟨before, []⟩ : System Unit) ⟨before, [run]⟩ := by
    refine .start run ⟨rfl, rfl, rfl⟩ ?_
    rintro number id ⟨comments, hcomments, comment, hmem, -⟩
    obtain rfl : [] = comments := Except.ok.inj hcomments
    cases hmem
  have htake : Step (⟨before, [run]⟩ : System Unit) ⟨before, [run.take plan []]⟩ :=
    .take 0 run plan [] rfl rfl hplans
  have hlook := @reaches_looks Unit before (run.take plan []) plan [] _ _ _ hlooks looks_reply
  let last : Run Unit :=
    { run.take plan [] with now := some ⟨plan, looks ++ looks, .ask (.closePullRequest 2) next⟩ }
  have hpeople : Step (⟨before, [last]⟩ : System Unit) ⟨after, [last]⟩ := .people after people_act
  have hclose := Step.call (s := ⟨after, [last]⟩) 0 last plan (looks ++ looks) _ next (.ok ())
    (after.close (pull 2) plan.verdict) rfl rfl (.closePullRequest (pull 2) rfl)
  exact ⟨_, .head hstart (.head htake (.tail (.tail hlook hpeople) hclose)), rfl⟩

end Race

/-- The run of the race: its second pull request is closed as a duplicate, and the first is its
original. -/
theorem runs_keep_race : ∃ s₀ s : System Unit, Initial s₀ ∧ Reaches s₀ s ∧
    DuplicateOf s.world 2 1 ∧ ∃ member ∈ Group s.world 2,
      Survives s.world member ∨ s.world.closedBy member = some .person := by
  obtain ⟨s, hreaches, hworld⟩ := Race.reaches_close
  have hdup : DuplicateOf s.world 2 1 := by
    rw [hworld]
    exact ⟨['h'], (), (), rfl⟩
  exact ⟨_, s, Race.initial, hreaches, hdup,
    (runs_keep Race.initial hreaches).groups 2 1 hdup⟩

/-- Once a person has closed the original, none of the group may be left. -/
theorem group_closed_by_both : ¬ ∀ s₀ s : System Unit, Initial s₀ → Reaches s₀ s →
    ∀ number of, DuplicateOf s.world number of →
      ∃ member ∈ Group s.world number, Survives s.world member := by
  intro hkept
  obtain ⟨s, hreaches, hworld⟩ := Race.reaches_close
  have hkept := hkept _ s Race.initial hreaches 2 1
  rw [hworld] at hkept
  obtain ⟨member, hmember, hsurvives⟩ := hkept ⟨['h'], (), (), rfl⟩
  have hlinks : ∀ number of,
      DuplicateOf (Race.after.close (Race.pull 2) Race.plan.verdict) number of →
        number = 2 ∧ of = 1 := by
    rintro number of ⟨ofHeadSha, pathOverlap, lineOverlap, hby⟩
    change Function.update Race.after.closedBy 2 (some (.run Race.plan.verdict)) number =
      _ at hby
    rcases eq_or_ne number 2 with rfl | hne
    · rw [Function.update_self] at hby
      obtain ⟨rfl, -⟩ := Verdict.duplicate.inj (Closer.run.inj (Option.some.inj hby))
      exact ⟨rfl, rfl⟩
    · rw [Function.update_of_ne hne] at hby
      change (if number = 1 then some Closer.person else none) = _ at hby
      split_ifs at hby
      cases hby
  have hpair : member = 1 ∨ member = 2 := by
    induction hmember with
    | refl => exact .inr rfl
    | tail _ hlink ih =>
      rcases hlink with hdup | hdup
      · exact .inl (hlinks _ _ hdup).2
      · exact .inr (hlinks _ _ hdup).1
  rcases hsurvives with ⟨pull, hpull, hleft⟩ | ⟨baseRef, baseSha, linesChecked, hby⟩
  · rcases hpair with rfl | rfl
    · obtain rfl := Option.some.inj hpull
      rcases hleft with hopen | hmerged
      · cases hopen
      · cases hmerged
    · obtain rfl := Option.some.inj hpull
      rcases hleft with hopen | hmerged
      · cases hopen
      · cases hmerged
  · rcases hpair with rfl | rfl
    · cases hby
    · cases hby

end TinySweeper.PrTriage
