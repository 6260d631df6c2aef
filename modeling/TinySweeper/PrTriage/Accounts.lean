import TinySweeper.PrTriage.Interleaving

/-!
# Accounts of the runs

Every step of people and runs keeps an account: who closed what and what was seen
before, and which run left which comment.
-/

namespace TinySweeper.PrTriage

open Text Dialogue Relation

variable {φ : Type}

section World

variable {w w' : World φ} {number : ℕ} {pull : Pull number}

/-- Pull requests and comments stay where they are. -/
structure Grows (w w' : World φ) : Prop where
  pulls : ∀ n, (w.pulls n).isSome = true → (w'.pulls n).isSome = true
  comments : ∀ id note, w.comments id = some note →
    ∃ note', w'.comments id = some note' ∧ note'.number = note.number

/-- It is known who closed what is closed. -/
def Accounted (w : World φ) : Prop :=
  ∀ n (pull : Pull n), w.pulls n = some pull → pull.val.isOpen = false → w.closedBy n ≠ none

/-- The pull request that a write is on. -/
def World.target (w : World φ) : Call → Option ℕ
  | .addLabels number _ => some number
  | .removeLabel number _ => some number
  | .createComment number _ => some number
  | .updateComment id _ => (w.comments id).map Note.number
  | .closePullRequest number => some number
  | _ => none

theorem Grows.refl (w : World φ) : Grows w w := ⟨fun _ h => h, fun _ note h => ⟨note, h, rfl⟩⟩

theorem World.setPull_pulls (w : World φ) (pull : Pull number) :
    (w.setPull pull).pulls number = some pull :=
  Function.update_self ..

theorem World.setPull_pulls_of_ne (w : World φ) (pull : Pull number) {n : ℕ} (h : n ≠ number) :
    (w.setPull pull).pulls n = w.pulls n :=
  Function.update_of_ne h ..

theorem World.isSome_setPull (w : World φ) (pull : Pull number) {n : ℕ}
    (h : (w.pulls n).isSome = true) : ((w.setPull pull).pulls n).isSome = true := by
  rcases eq_or_ne n number with rfl | hne
  · rw [w.setPull_pulls]
    rfl
  · rwa [w.setPull_pulls_of_ne pull hne]

theorem Accounted.setPull (h : Accounted w) (hpull : w.pulls number = some pull)
    (pull' : Pull number) (hopen : pull'.val.isOpen = pull.val.isOpen) :
    Accounted (w.setPull pull') := by
  intro n found hfound hclosed
  rcases eq_or_ne n number with rfl | hne
  · rw [w.setPull_pulls] at hfound
    obtain rfl := Option.some.inj hfound
    exact h n pull hpull (hopen ▸ hclosed)
  · rw [w.setPull_pulls_of_ne pull' hne] at hfound
    exact h n found hfound hclosed

theorem PeopleAct.grows (h : PeopleAct w w') : Grows w w' := by
  refine ⟨fun n hsome => ?_, fun id note hnote => ⟨note, h.comments ▸ hnote, rfl⟩⟩
  obtain ⟨pull, hpull⟩ := Option.isSome_iff_exists.mp hsome
  obtain ⟨pull', hpull', -⟩ := h.kept n pull hpull
  rw [hpull']
  rfl

theorem PeopleAct.accounted (h : PeopleAct w w') (hw : Accounted w) : Accounted w' := by
  intro n pull' hpull' hclosed
  rw [h.closedBy]
  split_ifs with hnew
  · simp
  · simp only [World.isOpen, hpull', Option.isSome_some, Option.any_some, hclosed, Bool.not_false,
      Bool.true_and, Bool.not_eq_true', Bool.not_eq_false, Bool.and_eq_true] at hnew
    obtain ⟨hsome, hold⟩ := hnew
    obtain ⟨pull, hpull⟩ := Option.isSome_iff_exists.mp hsome
    rw [hpull, Option.any_some] at hold
    exact hw n pull hpull hold

theorem PeopleAct.closedBy_run (h : PeopleAct w w') {verdict : Verdict φ}
    (hby : w'.closedBy number = some (.run verdict)) :
    w.closedBy number = some (.run verdict) := by
  rw [h.closedBy] at hby
  split_ifs at hby
  · cases hby
  · exact hby

end World

section Replies

variable {w w' : World φ} {verdict : Verdict φ} {q : Call} {answer : Answer q}

theorem Replies.grows (h : Replies verdict w q answer w') : Grows w w' := by
  have hpull : ∀ {n : ℕ} (pull : Pull n), Grows w (w.setPull pull) := fun pull =>
    ⟨fun n => w.isSome_setPull pull, fun id note hnote => ⟨note, hnote, rfl⟩⟩
  cases h with
  | refused | pullRequest | branchHead => exact .refl w
  | addLabels | removeLabel => exact hpull _
  | createComment pull id body hfound unused =>
    refine ⟨(hpull _).pulls, fun other note hnote => ?_⟩
    have hne : other ≠ id := fun hsame => by simp [← hsame, hnote] at unused
    exact ⟨note, (Function.update_of_ne hne ..).trans hnote, rfl⟩
  | updateComment pull id old body hfound posted =>
    refine ⟨(hpull _).pulls, fun other note hnote => ?_⟩
    rcases eq_or_ne other id with rfl | hne
    · obtain rfl := Option.some.inj (posted.symm.trans hnote)
      exact ⟨_, Function.update_self .., rfl⟩
    · exact ⟨note, (Function.update_of_ne hne ..).trans hnote, rfl⟩
  | closePullRequest pull hfound => exact ⟨(hpull _).pulls, fun id note hnote => ⟨note, hnote, rfl⟩⟩

theorem Replies.accounted (h : Replies verdict w q answer w') (hw : Accounted w) :
    Accounted w' := by
  cases h with
  | refused | pullRequest | branchHead => exact hw
  | addLabels pull labels hfound => exact hw.setPull hfound _ rfl
  | removeLabel pull label hfound => exact hw.setPull hfound _ rfl
  | createComment pull id body hfound unused => exact hw.setPull hfound _ rfl
  | updateComment pull id old body hfound posted => exact hw.setPull hfound _ rfl
  | @closePullRequest number pull hfound =>
    intro n found hn hclosed
    dsimp only [World.close] at hn ⊢
    rcases eq_or_ne n number with rfl | hne
    · split_ifs with hopen
      · simp
      · exact hw n pull hfound (by simpa using hopen)
    · rw [w.setPull_pulls_of_ne _ hne] at hn
      split_ifs
      · rw [Function.update_of_ne hne]
        exact hw n found hn hclosed
      · exact hw n found hn hclosed

theorem Replies.closedBy_run (h : Replies verdict w q answer w') {number : ℕ} {by' : Verdict φ}
    (hby : w'.closedBy number = some (.run by')) : w.closedBy number = some (.run by') ∨
      by' = verdict ∧ (⟨q, answer⟩ : Exchange Answer) = ⟨.closePullRequest number, .ok ()⟩ := by
  cases h with
  | @closePullRequest n pull hfound =>
    dsimp only [World.close] at hby
    split_ifs at hby
    · rcases eq_or_ne number n with rfl | hne
      · rw [Function.update_self] at hby
        obtain rfl := Closer.run.inj (Option.some.inj hby)
        exact .inr ⟨rfl, rfl⟩
      · rw [Function.update_of_ne hne] at hby
        exact .inl hby
    · exact .inl hby
  | _ => exact .inl hby

theorem Replies.posts (h : Replies verdict w q answer w') {id : ℕ} {body : Text}
    (hposts : Posts ⟨q, answer⟩ id body) :
    ∃ number, w.target q = some number ∧ w'.comments id = some ⟨number, body⟩ := by
  cases h with
  | @createComment number pull id body hfound unused =>
    cases hposts
    exact ⟨number, rfl, Function.update_self ..⟩
  | @updateComment number pull id old body hfound posted =>
    cases hposts
    exact ⟨number, by rw [World.target, posted]; rfl, Function.update_self ..⟩
  | _ => cases hposts

theorem Replies.comments_of_not_posts (h : Replies verdict w q answer w') {id : ℕ}
    (hnot : ∀ body, ¬ Posts ⟨q, answer⟩ id body) : w'.comments id = w.comments id := by
  cases h with
  | createComment pull other body hfound unused =>
    have hne : id ≠ other := by
      rintro rfl
      exact hnot body (.create _ body id)
    exact Function.update_of_ne hne ..
  | updateComment pull other old body hfound posted =>
    have hne : id ≠ other := by
      rintro rfl
      exact hnot body (.update id body)
    exact Function.update_of_ne hne ..
  | _ => rfl

end Replies

section Run

variable {run : Run φ} {plan : TriagePlan φ} {todo : List (TriagePlan φ)} {said : Said}
  {e : Exchange Answer} {rest : Program Report} {report : Report}
variable {since : Exchange Answer → Prop}

theorem Run.carried_take (hnow : run.now = none) :
    (run.take plan todo).carried = run.carried ++ [(plan, [])] := by
  simp [Run.carried, Run.take, hnow]

theorem Run.carried_now (hnow : run.now = some ⟨plan, said, rest⟩) :
    run.carried = run.past.map (fun done => (done.plan, done.said)) ++ [(plan, said)] := by
  simp [Run.carried, hnow]

theorem Run.carried_hear (rest' : Program Report) :
    (run.hear plan said e rest').carried =
      run.past.map (fun done => (done.plan, done.said)) ++ [(plan, said ++ [e])] := rfl

theorem Run.carried_finish (hnow : run.now = some ⟨plan, said, rest⟩) :
    (run.finish plan said report).carried = run.carried := by
  simp [Run.carried, Run.finish, hnow]

theorem Run.heard_take (hnow : run.now = none) : (run.take plan todo).heard = run.heard := by
  simp [Run.heard, Run.carried_take hnow]

theorem Run.heard_hear (hnow : run.now = some ⟨plan, said, rest⟩) (rest' : Program Report) :
    (run.hear plan said e rest').heard = run.heard ++ [e] := by
  simp [Run.heard, Run.carried_now hnow, Run.carried_hear]

theorem Run.program_take (hnow : run.now = none) (htodo : run.todo = plan :: todo) :
    (run.take plan todo).program = run.program := by
  simp only [Run.program, Run.take, hnow, htodo, applyAll, forEach, bind_assoc, Dialogue.bind]

theorem Run.program_hear {q : Call} {next : Answer q → Program Report}
    (hnow : run.now = some ⟨plan, said, .ask q next⟩) (answer : Answer q) :
    Says run.program [⟨q, answer⟩] (run.hear plan said ⟨q, answer⟩ (next answer)).program := by
  simp only [Run.program, hnow, Run.hear]
  exact .cons (.nil _)

theorem Run.program_finish (hnow : run.now = some ⟨plan, said, .done report⟩) :
    (run.finish plan said report).program = run.program := by
  simp [Run.program, Run.finish, hnow, Dialogue.bind]

/-- A run does what its plans say, one after the other. -/
structure Run.Sound (run : Run φ) : Prop where
  plans : run.carried.map Prod.fst ++ run.todo = run.plans
  follows : Says (applyAll run.setting run.plans) run.heard run.program
  now : ∀ plan said rest, run.now = some ⟨plan, said, rest⟩ →
    Guarded (Allowed run.setting plan) (fun said _ => Owes plan.number said none) said rest
  past : ∀ finished ∈ run.past, Owes finished.plan.number finished.said none

theorem Run.Fresh.sound (h : run.Fresh) : run.Sound := by
  obtain ⟨hpast, hnow, htodo⟩ := h
  have hcarried : run.carried = [] := by simp [Run.carried, hpast, hnow]
  refine ⟨by simp [hcarried, htodo], ?_, by simp [hnow], by simp [hpast]⟩
  have hprogram : run.program = applyAll run.setting run.plans := by
    simp [Run.program, hpast, hnow, htodo, bind_done]
  rw [hprogram, Run.heard, hcarried]
  exact .nil _

theorem Run.Sound.take (h : run.Sound) (hnow : run.now = none) (htodo : run.todo = plan :: todo) :
    (run.take plan todo).Sound := by
  refine ⟨?_, ?_, ?_, h.past⟩
  · have hplans := h.plans
    rw [htodo] at hplans
    rw [Run.carried_take hnow, List.map_append, List.append_assoc]
    exact hplans
  · rw [Run.heard_take hnow, Run.program_take hnow htodo]
    exact h.follows
  · rintro plan said rest ⟨⟩
    exact applyOne_guarded

theorem Run.Sound.hear {q : Call} {next : Answer q → Program Report} (h : run.Sound)
    (hnow : run.now = some ⟨plan, said, .ask q next⟩) (answer : Answer q) :
    (run.hear plan said ⟨q, answer⟩ (next answer)).Sound := by
  refine ⟨?_, ?_, ?_, h.past⟩
  · have hplans := h.plans
    rw [Run.carried_now hnow, List.map_append] at hplans
    rw [Run.carried_hear, List.map_append]
    exact hplans
  · rw [Run.heard_hear hnow]
    exact h.follows.append (Run.program_hear hnow answer)
  · rintro plan said rest ⟨⟩
    exact (h.now _ _ _ hnow).2 answer

theorem Run.Sound.finish (h : run.Sound) (hnow : run.now = some ⟨plan, said, .done report⟩) :
    (run.finish plan said report).Sound := by
  refine ⟨?_, ?_, by rintro plan said rest ⟨⟩, ?_⟩
  · rw [Run.carried_finish hnow]
    exact h.plans
  · rw [Run.program_finish hnow, Run.heard, Run.carried_finish hnow]
    exact h.follows
  · intro finished hfinished
    rcases List.mem_append.mp hfinished with hpast | hlast
    · exact h.past finished hpast
    · rw [List.mem_singleton.mp hlast]
      exact h.now _ _ _ hnow

/-- The run goes on, and what it has said since is of this kind. -/
structure Run.Extends (since : Exchange Answer → Prop) (run run' : Run φ) : Prop where
  setting : run'.setting = run.setting
  answers : run'.answers = run.answers
  carried : ∀ plan said, (plan, said) ∈ run.carried →
    ∃ more, (plan, said ++ more) ∈ run'.carried ∧ ∀ e ∈ more, since e

theorem Run.extends_take (hnow : run.now = none) : run.Extends since (run.take plan todo) := by
  refine ⟨rfl, rfl, fun other said hmem => ⟨[], ?_, by simp⟩⟩
  rw [Run.carried_take hnow, List.append_nil]
  exact List.mem_append_left _ hmem

theorem Run.extends_hear (hnow : run.now = some ⟨plan, said, rest⟩) (he : since e)
    (rest' : Program Report) : run.Extends since (run.hear plan said e rest') := by
  refine ⟨rfl, rfl, fun other heard hmem => ?_⟩
  rw [Run.carried_now hnow] at hmem
  rw [Run.carried_hear]
  rcases List.mem_append.mp hmem with hpast | hlast
  · exact ⟨[], by simpa using Or.inl hpast, by simp⟩
  · obtain ⟨rfl, rfl⟩ := Prod.mk.inj (List.mem_singleton.mp hlast)
    exact ⟨[e], List.mem_append_right _ (List.mem_singleton_self _), by simpa using he⟩

theorem Run.extends_finish (hnow : run.now = some ⟨plan, said, rest⟩) :
    run.Extends since (run.finish plan said report) := by
  refine ⟨rfl, rfl, fun other heard hmem => ⟨[], ?_, by simp⟩⟩
  rwa [Run.carried_finish hnow, List.append_nil]

/-- The run closed the pull request, on what it had seen. -/
def Run.Closed (run : Run φ) (number : ℕ) (verdict : Verdict φ) : Prop :=
  ∃ plan said, (plan, said) ∈ run.carried ∧ plan.number = number ∧ plan.verdict = verdict ∧
    ∃ before after, said = before ++ ⟨.closePullRequest number, .ok ()⟩ :: after ∧
      Justified run.setting plan before

/-- The comment was left with this body, and not written again since. -/
def Left (said : Said) (id : ℕ) (body : Text) : Prop :=
  ∃ before e after, said = before ++ e :: after ∧ Posts e id body ∧
    ∀ later ∈ after, ∀ body', ¬ Posts later id body'

/-- The run left the comment as it is. -/
def Run.Leaves (run : Run φ) (id : ℕ) (note : Note) : Prop :=
  ∃ plan said, (plan, said) ∈ run.carried ∧ plan.number = note.number ∧ Left said id note.body

theorem Run.Closed.mono {run' : Run φ} {number : ℕ} {verdict : Verdict φ}
    (h : run.Closed number verdict) (hmore : run.Extends since run') :
    run'.Closed number verdict := by
  obtain ⟨plan, said, hmem, hnumber, hverdict, before, after, rfl, hjustified⟩ := h
  obtain ⟨more, hmore', -⟩ := hmore.carried plan _ hmem
  refine ⟨plan, _, hmore', hnumber, hverdict, before, after ++ more, by simp, ?_⟩
  rwa [hmore.setting]

theorem Run.Leaves.mono {run' : Run φ} {id : ℕ} {note : Note} (h : run.Leaves id note)
    (hmore : run.Extends (fun e => ∀ body, ¬ Posts e id body) run') : run'.Leaves id note := by
  obtain ⟨plan, said, hmem, hnumber, before, e, after, rfl, hposts, hafter⟩ := h
  obtain ⟨more, hmore', hquiet⟩ := hmore.carried plan _ hmem
  refine ⟨plan, _, hmore', hnumber, before, e, after ++ more, by simp, hposts, ?_⟩
  exact fun later hlater => (List.mem_append.mp hlater).elim (hafter later) (hquiet later)

end Run

section System

variable {s : System φ} {i : ℕ} {run run' : Run φ}

/-- What a call was answered is still there. -/
def BorneOut (w : World φ) : Exchange Answer → Prop
  | ⟨.pullRequest number, .ok _⟩ => (w.pulls number).isSome = true
  | ⟨.createComment number _, .ok id⟩ =>
    ∃ note, w.comments id = some note ∧ note.number = number
  | _ => True

theorem BorneOut.grows {w w' : World φ} {e : Exchange Answer} (h : BorneOut w e)
    (hgrows : Grows w w') : BorneOut w' e := by
  unfold BorneOut at h ⊢
  split at h
  · exact hgrows.pulls _ h
  · obtain ⟨note, hnote, rfl⟩ := h
    exact hgrows.comments _ note hnote
  · trivial

theorem Replies.borneOut {w w' : World φ} {verdict : Verdict φ} {q : Call} {answer : Answer q}
    (h : Replies verdict w q answer w') : BorneOut w' ⟨q, answer⟩ := by
  cases h with
  | refused q e => cases q <;> trivial
  | pullRequest pull hfound =>
    exact Option.isSome_of_eq_some hfound
  | createComment pull id body hfound unused => exact ⟨_, Function.update_self .., rfl⟩
  | _ => trivial

/-- The books of a system. -/
structure Account (s : System φ) : Prop where
  sound : ∀ run ∈ s.runs, run.Sound
  known : ∀ run ∈ s.runs, Knows s.world run
  heard : ∀ run ∈ s.runs, ∀ e ∈ run.heard, BorneOut s.world e
  accounted : Accounted s.world
  closed : ∀ number verdict, s.world.closedBy number = some (.run verdict) →
    ∃ run ∈ s.runs, run.Closed number verdict
  comments : ∀ id note, s.world.comments id = some note → announces note.body = true →
    ∃ run ∈ s.runs, run.Leaves id note

theorem mem_setRun (hrun : s.runs[i]? = some run) : run' ∈ (s.setRun i run').runs :=
  List.mem_set (List.getElem?_eq_some_iff.mp hrun).1 run'

theorem System.forall_setRun {p : Run φ → Prop} (h : ∀ other ∈ s.runs, p other) (hrun : p run') :
    ∀ other ∈ (s.setRun i run').runs, p other := by
  intro other hother
  rcases List.mem_or_eq_of_mem_set hother with hmem | rfl
  · exact h other hmem
  · exact hrun

theorem System.exists_setRun {p : Run φ → Prop} (hrun : s.runs[i]? = some run)
    (h : ∃ other ∈ s.runs, p other) (hmore : p run → p run') :
    ∃ other ∈ (s.setRun i run').runs, p other := by
  obtain ⟨other, hmem, hp⟩ := h
  obtain ⟨j, hj⟩ := List.mem_iff_getElem?.mp hmem
  rcases eq_or_ne j i with rfl | hne
  · obtain rfl := Option.some.inj (hj.symm.trans hrun)
    exact ⟨run', mem_setRun hrun, hmore hp⟩
  · refine ⟨other, List.mem_of_getElem? (i := j) ?_, hp⟩
    exact (List.getElem?_set_ne hne.symm).trans hj

theorem Account.people (h : Account s) {w : World φ} (hact : PeopleAct s.world w) :
    Account { s with world := w } where
  sound := h.sound
  known run hrun number id hlisted := by
    obtain ⟨note, hnote, rfl⟩ := h.known run hrun number id hlisted
    exact hact.grows.comments id note hnote
  heard run hrun e he := (h.heard run hrun e he).grows hact.grows
  accounted := hact.accounted h.accounted
  closed number verdict hby := h.closed number verdict (hact.closedBy_run hby)
  comments id note hnote hannounces := h.comments id note (hact.comments ▸ hnote) hannounces

theorem Account.start (h : Account s) (hfresh : run.Fresh) (hknown : Knows s.world run) :
    Account { s with runs := s.runs ++ [run] } := by
  have hold : ∀ {p : Run φ → Prop}, (∃ other ∈ s.runs, p other) →
      ∃ other ∈ s.runs ++ [run], p other :=
    fun ⟨other, hmem, hp⟩ => ⟨other, List.mem_append_left _ hmem, hp⟩
  refine ⟨?_, ?_, ?_, h.accounted, fun number verdict hby => hold (h.closed number verdict hby),
    fun id note hnote hannounces => hold (h.comments id note hnote hannounces)⟩
  · exact List.forall_mem_append.mpr ⟨h.sound, List.forall_mem_singleton.mpr hfresh.sound⟩
  · exact List.forall_mem_append.mpr ⟨h.known, List.forall_mem_singleton.mpr hknown⟩
  · refine List.forall_mem_append.mpr ⟨h.heard, List.forall_mem_singleton.mpr ?_⟩
    obtain ⟨hpast, hnow, -⟩ := hfresh
    simp [Run.heard, Run.carried, hpast, hnow]

/-- A run goes on by itself. -/
theorem Account.setRun (h : Account s) (hrun : s.runs[i]? = some run) (hsound : run'.Sound)
    (hextends : run.Extends (fun _ => False) run') (hheard : run'.heard = run.heard) :
    Account (s.setRun i run') := by
  have hmem : run ∈ s.runs := List.mem_of_getElem? hrun
  refine ⟨s.forall_setRun h.sound hsound, s.forall_setRun h.known ?_, s.forall_setRun h.heard ?_,
    h.accounted, fun number verdict hby => ?_, fun id note hnote hannounces => ?_⟩
  · have hknown := h.known run hmem
    rwa [Knows, ← hextends.setting, ← hextends.answers] at hknown
  · rw [hheard]
    exact h.heard run hmem
  · exact s.exists_setRun hrun (h.closed number verdict hby) fun hclosed => hclosed.mono hextends
  · refine s.exists_setRun hrun (h.comments id note hnote hannounces) fun hleft => ?_
    exact hleft.mono ⟨hextends.setting, hextends.answers, fun plan said hsaid => by
      obtain ⟨more, hmore, hnone⟩ := hextends.carried plan said hsaid
      exact ⟨more, hmore, fun e he => (hnone e he).elim⟩⟩

section Call

variable {plan : TriagePlan φ} {said : Said} {q : Call} {next : Answer q → Program Report}

theorem Run.Sound.judged (h : run.Sound) (hmem : (plan, said) ∈ run.carried) :
    ∃ listed pulls, run.answers.openPullRequests = .ok listed ∧
      requested run.answers run.only listed = .ok (some pulls) ∧
      Judged run.setting run.answers pulls plan := by
  have hplan : plan ∈ run.plans := by
    rw [← h.plans]
    exact List.mem_append_left _ (List.mem_map_of_mem hmem)
  obtain ⟨listed, pulls, hreads, hjudged⟩ := sweep_judged run.swept
  obtain ⟨hlisted, hrequested⟩ := hreads (List.ne_nil_of_mem hplan)
  exact ⟨listed, pulls, hlisted, hrequested, hjudged plan hplan⟩

/-- The comment a plan may edit is on the pull request of the plan. -/
theorem Account.placed (h : Account s) (hrun : run ∈ s.runs) (hmem : (plan, said) ∈ run.carried)
    {id : ℕ} (hplaced : Placed plan said id) :
    ∃ note, s.world.comments id = some note ∧ note.number = plan.number := by
  rcases hplaced with hid | ⟨body, hcreated⟩
  · obtain ⟨-, pulls, -, -, hjudged⟩ := (h.sound run hrun).judged hmem
    exact h.known run hrun plan.number id (hjudged.comment id hid)
  · exact h.heard run hrun _ (List.mem_flatMap.mpr ⟨_, hmem, hcreated⟩)

/-- A write is on the pull request of the plan, and comes after a first look. -/
theorem Account.writes (h : Account s) (hrun : run ∈ s.runs)
    (hnow : run.now = some ⟨plan, said, .ask q next⟩) (hq : q.isRead = false) :
    s.world.target q = some plan.number ∧ FirstLook run.setting plan said := by
  have hmem : (plan, said) ∈ run.carried := by
    rw [Run.carried_now hnow]
    exact List.mem_append_right _ (List.mem_singleton_self _)
  obtain ⟨hallowed, -⟩ := (h.sound run hrun).now _ _ _ hnow
  cases q with
  | pullRequest | branchHead => cases hq
  | closePullRequest number => exact ⟨congrArg some hallowed.1, hallowed.2.1⟩
  | updateComment id body =>
    obtain ⟨note, hnote, hnumber⟩ := h.placed hrun hmem hallowed.1
    exact ⟨by rw [World.target, hnote, Option.map_some, hnumber], hallowed.2⟩
  | _ => exact ⟨congrArg some hallowed.1, hallowed.2⟩

theorem Account.call (h : Account s) (hrun : s.runs[i]? = some run)
    (hnow : run.now = some ⟨plan, said, .ask q next⟩) {answer : Answer q} {w : World φ}
    (hreply : Replies plan.verdict s.world q answer w) :
    Account { s.setRun i (run.hear plan said ⟨q, answer⟩ (next answer)) with world := w } := by
  have hmem : run ∈ s.runs := List.mem_of_getElem? hrun
  have hsound := h.sound run hmem
  have hgrows := hreply.grows
  have hnew : (plan, said ++ [⟨q, answer⟩]) ∈
      (run.hear plan said ⟨q, answer⟩ (next answer)).carried := by
    rw [Run.carried_hear]
    exact List.mem_append_right _ (List.mem_singleton_self _)
  have hknown : ∀ other ∈ s.runs, Knows w other := by
    intro other hother number id hlisted
    obtain ⟨note, hnote, rfl⟩ := h.known other hother number id hlisted
    exact hgrows.comments id note hnote
  refine ⟨s.forall_setRun h.sound (hsound.hear hnow answer),
    s.forall_setRun hknown (hknown run hmem), s.forall_setRun ?_ ?_,
    hreply.accounted h.accounted, fun number verdict hby => ?_, fun id note hnote hannounces => ?_⟩
  · exact fun other hother e he => (h.heard other hother e he).grows hgrows
  · rw [Run.heard_hear hnow]
    exact List.forall_mem_append.mpr ⟨fun e he => (h.heard run hmem e he).grows hgrows,
      List.forall_mem_singleton.mpr hreply.borneOut⟩
  · rcases hreply.closedBy_run hby with hold | ⟨rfl, hcall⟩
    · refine s.exists_setRun hrun (h.closed number verdict hold) fun hclosed => ?_
      have hmore : run.Extends (fun _ => True) (run.hear plan said ⟨q, answer⟩ (next answer)) :=
        Run.extends_hear hnow trivial _
      exact hclosed.mono hmore
    · obtain ⟨hallowed, -⟩ := hsound.now _ _ _ hnow
      obtain ⟨rfl, -⟩ := Sigma.mk.inj hcall
      obtain ⟨rfl, -, hjustified⟩ := hallowed
      exact ⟨_, mem_setRun hrun, plan, _, hnew, rfl, rfl, said, [], by rw [hcall], hjustified⟩
  · by_cases hposts : ∃ body, Posts ⟨q, answer⟩ id body
    · -- the comment is the one this call has left
      obtain ⟨body, hposts⟩ := hposts
      obtain ⟨number, htarget, hleft⟩ := hreply.posts hposts
      have hq : q.isRead = false := by
        cases hposts <;> rfl
      obtain ⟨hsame, -⟩ := h.writes hmem hnow hq
      obtain rfl := Option.some.inj (hleft.symm.trans hnote)
      refine ⟨_, mem_setRun hrun, plan, _, hnew, ?_, said, _, [], rfl, hposts, by simp⟩
      exact Option.some.inj (hsame.symm.trans htarget)
    · have hnot : ∀ body, ¬ Posts ⟨q, answer⟩ id body := fun body hbody => hposts ⟨body, hbody⟩
      have hold := (hreply.comments_of_not_posts hnot).symm.trans hnote
      refine s.exists_setRun hrun (h.comments id note hold hannounces) fun hleaves => ?_
      exact hleaves.mono (Run.extends_hear hnow hnot _)

end Call

theorem Initial.account (h : Initial s) : Account s where
  sound := by simp [h.runs]
  known := by simp [h.runs]
  heard := by simp [h.runs]
  accounted number pull hpull hclosed := by simp [h.closedBy number pull hpull hclosed]
  closed number verdict hby := absurd hby (h.unclosed number verdict)
  comments id note hnote hannounces := by
    rw [h.comments id note hnote] at hannounces
    cases hannounces

theorem Step.account {s' : System φ} (h : Step s s') (hs : Account s) : Account s' := by
  cases h with
  | people w hact => exact hs.people hact
  | start run hfresh hknown => exact hs.start hfresh hknown
  | take i run plan todo hrun hnow htodo =>
    exact hs.setRun hrun ((hs.sound run (List.mem_of_getElem? hrun)).take hnow htodo)
      (Run.extends_take hnow) (Run.heard_take hnow)
  | call i run plan said q next answer w hrun hnow hreply => exact hs.call hrun hnow hreply
  | finish i run plan said report hrun hnow =>
    exact hs.setRun hrun ((hs.sound run (List.mem_of_getElem? hrun)).finish hnow)
      (Run.extends_finish hnow) (by rw [Run.heard, Run.carried_finish hnow, Run.heard])

theorem Reaches.account {s₀ : System φ} (h : Reaches s₀ s) (h₀ : Initial s₀) : Account s := by
  induction h with
  | refl => exact h₀.account
  | tail _ hstep ih => exact hstep.account ih

end System

end TinySweeper.PrTriage
