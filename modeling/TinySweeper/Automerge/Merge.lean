import TinySweeper.Automerge.Reviews
import TinySweeper.Runs

/-!
# Merging while the pull request moves

A snapshot is four reads, taken twice; then the forge merges whatever is the head by
then. Between any two of these nine calls a push, an edit, a review or a check may
come. Only the checks are asked for by commit.
-/

namespace TinySweeper.Automerge

open Text Runs

/-- The pull request as the forge has it. -/
structure World where
  pullRequest : PullRequest
  reviews : List ReviewVerdict
  checks : Text → List CheckStatus
  merged : Option Text

/-- What others do to it. A push may also bring an earlier head back. -/
inductive Move where
  | push (headSha : Text) (mergeable : Option Bool)
  | edit (draft : Bool) (labels : List Text) (mergeable : Option Bool)
  | review (reviews : List ReviewVerdict)
  | report (sha : Text) (checks : List CheckStatus)

def World.move (w : World) : Move → World
  | .push headSha mergeable => { w with pullRequest := { w.pullRequest with headSha, mergeable } }
  | .edit draft labels mergeable =>
    { w with pullRequest := { w.pullRequest with draft, labels, mergeable } }
  | .review reviews => { w with reviews }
  | .report sha checks => { w with checks := Function.update w.checks sha checks }

section Merge

variable {γ : Type} (globs : Globs γ) (config : AutoMerge) (filesOf : Text → List ChangedFile)

/-- The call due next with what was read so far, or how the job ended. The snapshot of the first
round is there in the second one. -/
inductive Progress where
  | pullRequest (taken : Option Snapshot)
  | checks (taken : Option Snapshot) (pr : PullRequest)
  | files (taken : Option Snapshot) (pr : PullRequest) (checks : List CheckStatus)
  | reviews (taken : Option Snapshot) (pr : PullRequest) (checks : List CheckStatus)
      (files : List ChangedFile)
  | merge (taken live : Snapshot) (approval : MergeApproved globs config)
  | merged (taken live : Snapshot) (commit method : Text)
  | refused (refusal : Refusal)
  | rejected (method reason : Text)
  | failed (err : Text)

/-- A snapshot is complete: it is judged, and the second one is compared with the first. -/
def judge (taken : Option Snapshot) (s : Snapshot) : Progress globs config :=
  match taken with
  | none =>
    match evaluate globs config s with
    | .refuse refusal => .refused refusal
    | .allow _ => .pullRequest (some s)
  | some taken =>
    if s.pullRequest.headSha ≠ taken.pullRequest.headSha then
      .refused (.headMoved taken.pullRequest.headSha s.pullRequest.headSha)
    else
      match evaluate globs config s with
      | .refuse refusal => .refused refusal
      | .allow approval => .merge taken s approval

/-- A call that the forge answers. -/
def answered (w : World) : Progress globs config → Progress globs config
  | .pullRequest taken => .checks taken w.pullRequest
  | .checks taken pr => .files taken pr (w.checks pr.headSha)
  | .files taken pr checks => .reviews taken pr checks (filesOf w.pullRequest.headSha)
  | .reviews taken pr checks files => judge globs config taken ⟨pr, files, checks, w.reviews⟩
  | .merge taken live _ => .merged taken live w.pullRequest.headSha config.method
  | done => done

/-- A call that fails. That the forge refuses to merge is not an error. -/
def unanswered (err : Text) : Progress globs config → Progress globs config
  | .merge _ _ _ => .rejected config.method err
  | .merged taken live commit method => .merged taken live commit method
  | .refused refusal => .refused refusal
  | .rejected method reason => .rejected method reason
  | .failed earlier => .failed earlier
  | _ => .failed err

structure Job where
  world : World
  progress : Progress globs config

inductive Event where
  | move (m : Move)
  | call (err : Option Text)

/-- The forge's side of a call that succeeds: the live head is merged. -/
def World.answer (w : World) : Progress globs config → World
  | .merge _ _ _ => { w with merged := some w.pullRequest.headSha }
  | _ => w

def Job.step (j : Job globs config) : Event → Job globs config
  | .move m => { j with world := j.world.move m }
  | .call none => ⟨j.world.answer globs config j.progress,
      answered globs config filesOf j.world j.progress⟩
  | .call (some err) => { j with progress := unanswered globs config err j.progress }

/-- With the feature off nothing is read. -/
def mergeIfQualified (w : World) : Job globs config :=
  ⟨w, if !config.enabled then .refused .disabled else .pullRequest none⟩

def Job.run (w : World) (events : List Event) : Job globs config :=
  exec (Job.step globs config filesOf) (mergeIfQualified globs config w) events

def Snapshot.ofHead (s : Snapshot) : Prop := s.files = filesOf s.pullRequest.headSha

/-- What is merged is what was judged, in both rounds. -/
structure MergedJudged (w : World) (events : List Event) (taken live : Snapshot) (commit : Text) :
    Prop where
  sameHead : taken.pullRequest.headSha = live.pullRequest.headSha
  merged : commit = live.pullRequest.headSha
  files : taken.ofHead filesOf ∧ live.ofHead filesOf
  reported : ∀ s ∈ [taken, live], ∃ before, before <+: events ∧
    s.checks = (Job.run globs config filesOf w before).world.checks s.pullRequest.headSha

/-- A list of files is read while the live head has that list; a merge executes while the head is
live that was judged. -/
def Timely (j : Job globs config) : Event → Prop
  | .call none =>
    match j.progress with
    | .files _ pr _ => filesOf j.world.pullRequest.headSha = filesOf pr.headSha
    | .merge _ live _ => j.world.pullRequest.headSha = live.pullRequest.headSha
    | _ => True
  | _ => True

instance (j : Job globs config) (e : Event) : Decidable (Timely globs config filesOf j e) :=
  match j, e with
  | _, .move _ => .isTrue trivial
  | _, .call (some _) => .isTrue trivial
  | ⟨w, .files _ pr _⟩, .call none =>
    inferInstanceAs (Decidable (filesOf w.pullRequest.headSha = filesOf pr.headSha))
  | ⟨w, .merge _ live _⟩, .call none =>
    inferInstanceAs (Decidable (w.pullRequest.headSha = live.pullRequest.headSha))
  | ⟨_, .pullRequest _⟩, .call none => .isTrue trivial
  | ⟨_, .checks _ _⟩, .call none => .isTrue trivial
  | ⟨_, .reviews _ _ _ _⟩, .call none => .isTrue trivial
  | ⟨_, .merged _ _ _ _⟩, .call none => .isTrue trivial
  | ⟨_, .refused _⟩, .call none => .isTrue trivial
  | ⟨_, .rejected _ _⟩, .call none => .isTrue trivial
  | ⟨_, .failed _⟩, .call none => .isTrue trivial

variable {globs config} {j : Job globs config}

/-- Both snapshots, the commit merged and the method. -/
def Progress.result : Progress globs config → Option (Snapshot × Snapshot × Text × Text)
  | .merged taken live commit method => some (taken, live, commit, method)
  | _ => none

theorem merged_of_result {p : Progress globs config} {taken live : Snapshot}
    {commit method : Text} (h : p.result = some (taken, live, commit, method)) :
    p = .merged taken live commit method := by
  cases p <;> cases h
  rfl

/-- The job ended without a merge. -/
def Progress.Stopped : Progress globs config → Prop
  | .refused _ | .rejected _ _ | .failed _ => True
  | _ => False

/-- Every list of files held is that of the head it was read for, and the head judged is merged. -/
def Progress.Faithful : Progress globs config → Prop
  | .pullRequest taken | .checks taken _ | .files taken _ _ => ∀ s ∈ taken, s.ofHead filesOf
  | .reviews taken pr _ listed => (∀ s ∈ taken, s.ofHead filesOf) ∧ listed = filesOf pr.headSha
  | .merge taken live _ => taken.ofHead filesOf ∧ live.ofHead filesOf
  | .merged taken live commit _ =>
    (taken.ofHead filesOf ∧ live.ofHead filesOf) ∧ commit = live.pullRequest.headSha
  | _ => True

/-- The second snapshot is of the head of the first. -/
def Progress.SameHead : Progress globs config → Prop
  | .merge taken live _ | .merged taken live _ _ =>
    taken.pullRequest.headSha = live.pullRequest.headSha
  | _ => True

/-- The heads and the checks that were read for them. -/
def Progress.readings : Progress globs config → List (Text × List CheckStatus)
  | .pullRequest taken | .checks taken _ =>
    taken.toList.map fun s => (s.pullRequest.headSha, s.checks)
  | .files taken pr known | .reviews taken pr known _ =>
    (pr.headSha, known) :: taken.toList.map fun s => (s.pullRequest.headSha, s.checks)
  | .merge taken live _ | .merged taken live _ _ =>
    [taken, live].map fun s => (s.pullRequest.headSha, s.checks)
  | _ => []

theorem judge_cases (taken : Option Snapshot) (s : Snapshot) :
    (judge globs config taken s).Stopped ∨
      taken = none ∧ judge globs config taken s = .pullRequest (some s) ∨
        ∃ before approval, taken = some before ∧
          before.pullRequest.headSha = s.pullRequest.headSha ∧
            judge globs config taken s = .merge before s approval := by
  unfold judge
  cases taken with
  | none =>
    dsimp only
    split
    · exact .inl trivial
    · exact .inr (.inl ⟨rfl, rfl⟩)
  | some before =>
    dsimp only
    split
    · exact .inl trivial
    · next hsame =>
      split
      · exact .inl trivial
      · next approval _ => exact .inr (.inr ⟨before, approval, rfl, (not_not.mp hsame).symm, rfl⟩)

theorem unanswered_cases (err : Text) (p : Progress globs config) :
    (unanswered globs config err p).Stopped ∨ unanswered globs config err p = p := by
  cases p with
  | merged taken live commit method => exact .inr rfl
  | refused refusal => exact .inl trivial
  | rejected method reason => exact .inl trivial
  | failed earlier => exact .inl trivial
  | _ => exact .inl trivial

variable {filesOf}

theorem progress_answered (w : World) (p : Progress globs config) :
    (Job.step globs config filesOf ⟨w, p⟩ (.call none)).progress =
      answered globs config filesOf w p := rfl

theorem progress_unanswered (w : World) (p : Progress globs config) (err : Text) :
    (Job.step globs config filesOf ⟨w, p⟩ (.call (some err))).progress =
      unanswered globs config err p := rfl

theorem stopped_step (h : j.progress.Stopped) (e : Event) :
    (j.step globs config filesOf e).progress.Stopped := by
  obtain ⟨w, p⟩ := j
  cases e with
  | move m => exact h
  | call err =>
    cases p with
    | refused refusal => cases err <;> trivial
    | rejected method reason => cases err <;> trivial
    | failed earlier => cases err <;> trivial
    | _ => exact h.elim

theorem stopped_exec (h : j.progress.Stopped) (events : List Event) :
    (exec (Job.step globs config filesOf) j events).progress.Stopped :=
  exec_invariant (I := fun j : Job globs config => j.progress.Stopped) (fun _ e hj => stopped_step hj e) h events

/-- Unless the job stops, a step keeps the data faithful just when it is timely. -/
theorem faithful_step {e : Event} (hgoes : ¬(j.step globs config filesOf e).progress.Stopped) :
    (j.step globs config filesOf e).progress.Faithful filesOf ↔
      j.progress.Faithful filesOf ∧ Timely globs config filesOf j e := by
  obtain ⟨w, p⟩ := j
  cases e with
  | move m => exact (and_iff_left trivial).symm
  | call err =>
    cases err with
    | some err =>
      rcases unanswered_cases err p with hstopped | hsame
      · exact absurd hstopped hgoes
      · rw [progress_unanswered, hsame]
        exact (and_iff_left trivial).symm
    | none =>
      cases p with
      | pullRequest taken => exact (and_iff_left trivial).symm
      | checks taken pr => exact (and_iff_left trivial).symm
      | files taken pr checks => exact Iff.rfl
      | reviews taken pr checks files =>
        rcases judge_cases taken ⟨pr, files, checks, w.reviews⟩ with
          hstopped | ⟨rfl, hnext⟩ | ⟨before, approval, rfl, _, hnext⟩
        · exact absurd hstopped hgoes
        · rw [progress_answered, answered, hnext]
          simp [Progress.Faithful, Snapshot.ofHead, Timely]
        · rw [progress_answered, answered, hnext]
          simp [Progress.Faithful, Snapshot.ofHead, Timely]
      | merge taken live approval => exact Iff.rfl
      | merged taken live commit method => exact (and_iff_left trivial).symm
      | refused refusal => exact absurd trivial hgoes
      | rejected method reason => exact absurd trivial hgoes
      | failed earlier => exact absurd trivial hgoes

/-- A run that does not stop keeps the data faithful just when every step is timely. -/
theorem faithful_exec {events : List Event}
    (hgoes : ¬(exec (Job.step globs config filesOf) j events).progress.Stopped) :
    (exec (Job.step globs config filesOf) j events).progress.Faithful filesOf ↔
      j.progress.Faithful filesOf ∧
        Guarded (Job.step globs config filesOf) (Timely globs config filesOf) j events := by
  induction events generalizing j with
  | nil => exact (and_iff_left trivial).symm
  | cons e events ih =>
    have hfirst : ¬(j.step globs config filesOf e).progress.Stopped :=
      fun hstopped => hgoes (stopped_exec hstopped events)
    rw [exec_cons, ih hgoes, faithful_step hfirst, and_assoc]
    rfl

theorem sameHead_step (h : j.progress.SameHead) (e : Event) :
    (j.step globs config filesOf e).progress.SameHead := by
  obtain ⟨w, p⟩ := j
  have hstopped : ∀ {q : Progress globs config}, q.Stopped → q.SameHead := by
    intro q hq
    cases q <;> trivial
  cases e with
  | move m => exact h
  | call err =>
    cases err with
    | some err =>
      rcases unanswered_cases err p with hstops | hsame
      · exact hstopped hstops
      · rw [progress_unanswered, hsame]
        exact h
    | none =>
      cases p with
      | reviews taken pr checks files =>
        rcases judge_cases taken ⟨pr, files, checks, w.reviews⟩ with
          hstops | ⟨_, hnext⟩ | ⟨before, approval, _, hsame, hnext⟩
        · exact hstopped hstops
        · rw [progress_answered, answered, hnext]
          trivial
        · rw [progress_answered, answered, hnext]
          exact hsame
      | merge taken live approval => exact h
      | merged taken live commit method => exact h
      | _ => trivial

/-- A reading is an earlier one, or it is of the checks there are for that head now. -/
theorem readings_step {e : Event} {r : Text × List CheckStatus}
    (hr : r ∈ (j.step globs config filesOf e).progress.readings) :
    r ∈ j.progress.readings ∨ r.2 = j.world.checks r.1 := by
  obtain ⟨w, p⟩ := j
  have hstopped : ∀ {q : Progress globs config}, q.Stopped → r ∉ q.readings := by
    intro q hq
    cases q <;> first | exact List.not_mem_nil | exact hq.elim
  cases e with
  | move m => exact .inl hr
  | call err =>
    cases err with
    | some err =>
      rcases unanswered_cases err p with hstops | hsame
      · exact absurd hr (hstopped hstops)
      · rw [progress_unanswered, hsame] at hr
        exact .inl hr
    | none =>
      cases p with
      | checks taken pr =>
        rcases List.mem_cons.mp hr with rfl | hr
        · exact .inr rfl
        · exact .inl hr
      | reviews taken pr checks files =>
        left
        rcases judge_cases taken ⟨pr, files, checks, w.reviews⟩ with
          hstops | ⟨rfl, hnext⟩ | ⟨before, approval, rfl, _, hnext⟩
        · exact absurd hr (hstopped hstops)
        · rw [progress_answered, answered, hnext] at hr
          exact hr
        · rw [progress_answered, answered, hnext] at hr
          simpa [Progress.readings, or_comm] using hr
      | _ => exact .inl hr

/-- All checks held were reported for their head at some time. -/
theorem reported_run (w : World) (events : List Event) {r : Text × List CheckStatus}
    (hr : r ∈ (Job.run globs config filesOf w events).progress.readings) :
    ∃ before, before <+: events ∧
      r.2 = (Job.run globs config filesOf w before).world.checks r.1 := by
  induction events using List.reverseRecOn with
  | nil =>
    have hnone : (Job.run globs config filesOf w []).progress.readings = [] := by
      unfold Job.run mergeIfQualified
      rw [exec_nil]
      split <;> rfl
    rw [hnone] at hr
    cases hr
  | append_singleton events e ih =>
    have hlast : Job.run globs config filesOf w (events ++ [e]) =
        (Job.run globs config filesOf w events).step globs config filesOf e := by
      rw [Job.run, exec_append]
      rfl
    rw [hlast] at hr
    rcases readings_step hr with hearlier | hnow
    · obtain ⟨before, hbefore, hchecks⟩ := ih hearlier
      exact ⟨before, hbefore.trans (List.prefix_append events [e]), hchecks⟩
    · exact ⟨events, List.prefix_append events [e], hnow⟩

/-- In a run that merges, what is merged is what was judged just when every step was timely. -/
theorem mergedJudged_iff {w : World} {events : List Event} {taken live : Snapshot}
    {commit method : Text}
    (h : (Job.run globs config filesOf w events).progress = .merged taken live commit method) :
    MergedJudged globs config filesOf w events taken live commit ↔
      Guarded (Job.step globs config filesOf) (Timely globs config filesOf)
        (mergeIfQualified globs config w) events := by
  have hgoes : ¬(Job.run globs config filesOf w events).progress.Stopped := by
    rw [h]
    exact id
  have hstart : (mergeIfQualified globs config w).progress.Faithful filesOf ∧
      (mergeIfQualified globs config w).progress.SameHead := by
    unfold mergeIfQualified
    dsimp only
    split
    · exact ⟨trivial, trivial⟩
    · exact ⟨nofun, trivial⟩
  have hfaithful := faithful_exec hgoes
  rw [and_iff_right hstart.1] at hfaithful
  rw [← hfaithful]
  change _ ↔ (Job.run globs config filesOf w events).progress.Faithful filesOf
  rw [h]
  constructor
  · intro hjudged
    exact ⟨hjudged.files, hjudged.merged⟩
  · rintro ⟨hfiles, hmerged⟩
    have hsame : (Job.run globs config filesOf w events).progress.SameHead :=
      exec_invariant (I := fun j : Job globs config => j.progress.SameHead) (fun _ e hj => sameHead_step hj e)
        hstart.2 events
    refine ⟨by rwa [h] at hsame, hmerged, hfiles, ?_⟩
    intro s hs
    refine @reported_run _ _ _ _ w events (s.pullRequest.headSha, s.checks) ?_
    rw [h]
    exact List.mem_map.mpr ⟨s, hs, rfl⟩

end Merge

def watchful : AutoMerge := { careful with sensitivePaths := ["build.rs".toList] }

/-- The commit `b` changes a sensitive file, and `a` does not. -/
def filesAt (sha : Text) : List ChangedFile :=
  [⟨if sha = ['b'] then "build.rs".toList else "README".toList, none, 1, 0,
    some "@@ -0,0 +1 @@\n+".toList⟩]

def openAt (headSha : Text) : World where
  pullRequest := ⟨7, "bo".toList, false, false, headSha, [], some true⟩
  reviews := [⟨ana, false, .approve⟩, ⟨cy, false, .approve⟩]
  checks _ := []
  merged := none

/-- The head, with the files of some commit. -/
def snapshotOf (headSha sha : Text) : Snapshot :=
  ⟨(openAt headSha).pullRequest, filesAt sha, [], (openAt headSha).reviews⟩

theorem mergedJudged_undisturbed :
    MergedJudged literalGlobs watchful filesAt (openAt ['a']) (List.replicate 9 (.call none))
      (snapshotOf ['a'] ['a']) (snapshotOf ['a'] ['a']) ['a'] := by
  have hmerged : (Job.run literalGlobs watchful filesAt (openAt ['a'])
      (List.replicate 9 (.call none))).progress =
        .merged (snapshotOf ['a'] ['a']) (snapshotOf ['a'] ['a']) ['a'] "squash".toList :=
    merged_of_result (by decide +kernel)
  exact (mergedJudged_iff hmerged).mpr (by decide +kernel)

/-- One round of reads of `b`, with `a` being the head while the files are listed. -/
def swappedRound : List Event :=
  [.call none, .call none, .move (.push ['a'] (some true)), .call none,
    .move (.push ['b'] (some true)), .call none]

/-- The last event of the run is a merge, and not of what was judged. -/
def MergesUnjudged (headSha : Text) (events : List Event) (judged : Snapshot) (commit : Text) :
    Prop :=
  (Job.run literalGlobs watchful filesAt (openAt headSha) events).progress.result =
      some (judged, judged, commit, "squash".toList) ∧
    ¬MergedJudged literalGlobs watchful filesAt (openAt headSha) events judged judged commit

/-- A push just before the write is merged unseen; a head that is away while its files are listed
is merged with those of another. -/
theorem unjudged_head_merges :
    MergesUnjudged ['a']
        (List.replicate 8 (.call none) ++ [.move (.push ['b'] (some true)), .call none])
        (snapshotOf ['a'] ['a']) ['b'] ∧
      MergesUnjudged ['b'] (swappedRound ++ swappedRound ++ [.call none])
        (snapshotOf ['b'] ['a']) ['b'] := by
  constructor
  · refine ⟨by decide +kernel, fun hjudged => ?_⟩
    exact absurd hjudged.merged (by decide)
  · refine ⟨by decide +kernel, fun hjudged => ?_⟩
    have hother : filesAt ['a'] ≠ filesAt ['b'] := by decide
    exact hother hjudged.files.1

end TinySweeper.Automerge
