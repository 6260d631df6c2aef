import TinySweeper.E2e.Runs

/-!
# Settling agrees with judging afresh

A watch is settled from the check runs alone; a review judges the jobs from the
check runs and the triggers. Where the triggers apply the two agree.
-/

namespace TinySweeper.E2e

open Text Findings App
open Automerge (CheckStatus)
open Scan (Severity)

def Reported (checks : List CheckStatus) (job : Text) (check : CheckStatus) : Prop :=
  check ∈ checks ∧ matchesCheck check job = true

/-- Nothing was reported, or something is still running. -/
def Silent (checks : List CheckStatus) (job : Text) : Prop :=
  (∀ check, ¬ Reported checks job check) ∨
    ∃ check, Reported checks job check ∧ check.conclusion = none

def Broken (checks : List CheckStatus) (job : Text) : Prop :=
  ∃ check, Reported checks job check ∧ ∃ k, check.conclusion = some k ∧ k.blocks = true

def Skipped (checks : List CheckStatus) (job : Text) : Prop :=
  ∃ check, Reported checks job check ∧ ∃ k, check.conclusion = some k ∧ isSkip k = true

/-- The job weighs enough to fail the lane. -/
def Fails (checks : List CheckStatus) (failOn : Severity) (job : Text) : Prop :=
  Broken checks job ∧ failOn ≤ .high ∨
    ¬ Broken checks job ∧ Skipped checks job ∧ failOn ≤ .medium

theorem mem_reportedFor {checks : List CheckStatus} {job : Text} {check : CheckStatus} :
    check ∈ reportedFor checks job ↔ Reported checks job check := List.mem_filter

theorem silent_iff {checks : List CheckStatus} {job : Text} : Silent checks job ↔
    ((reportedFor checks job).isEmpty || (reportedFor checks job).any fun check =>
      check.conclusion.isNone) = true := by
  simp only [Silent, Bool.or_eq_true, List.isEmpty_iff, List.any_eq_true,
    List.eq_nil_iff_forall_not_mem, mem_reportedFor, Option.isNone_iff_eq_none]

theorem mem_conclusions {checks : List CheckStatus} {job : Text} {k : CheckConclusion} :
    k ∈ (reportedFor checks job).filterMap CheckStatus.conclusion ↔
      ∃ check, Reported checks job check ∧ check.conclusion = some k := by
  simp only [List.mem_filterMap, mem_reportedFor]

section Hear

variable {checks : List CheckStatus}

theorem hear_of_silent {job : Text} (h : Silent checks job) (t : Tally) :
    t.hear checks job = none := if_pos (silent_iff.mp h)

/-- A job that has spoken is counted as failed or, short of that, as skipped. -/
theorem hear_of_spoken {job : Text} (h : ¬ Silent checks job) (t : Tally) :
    ∃ t', t.hear checks job = some t' ∧
      (t'.failed ≠ [] ↔ t.failed ≠ [] ∨ Broken checks job) ∧
      (t'.skipped ≠ [] ↔ t.skipped ≠ [] ∨ ¬ Broken checks job ∧ Skipped checks job) := by
  unfold Tally.hear
  rw [silent_iff] at h
  dsimp only
  rw [if_neg h]
  have hbroken : Broken checks job ↔
      ∃ k ∈ (reportedFor checks job).filterMap CheckStatus.conclusion, k.blocks = true := by
    simp only [mem_conclusions, Broken]
    tauto
  have hskipped : Skipped checks job ↔
      ∃ k ∈ (reportedFor checks job).filterMap CheckStatus.conclusion, isSkip k = true := by
    simp only [mem_conclusions, Skipped]
    tauto
  cases hfind : ((reportedFor checks job).filterMap CheckStatus.conclusion).find?
      CheckConclusion.blocks with
  | some k =>
    have hk : Broken checks job := hbroken.mpr ⟨k, List.mem_of_find?_eq_some hfind,
      List.find?_some hfind⟩
    exact ⟨_, rfl, by simp [hk], by simp [hk]⟩
  | none =>
    have hk : ¬ Broken checks job := by
      rw [hbroken]
      rintro ⟨k, hk, hblocks⟩
      exact List.find?_eq_none.mp hfind k hk hblocks
    dsimp only
    split
    · next hany =>
      have hs : Skipped checks job := hskipped.mpr (List.any_eq_true.mp hany)
      exact ⟨_, rfl, by simp [hk], by simp [hk, hs]⟩
    · next hany =>
      have hs : ¬ Skipped checks job := fun hs => hany (List.any_eq_true.mpr (hskipped.mp hs))
      exact ⟨_, rfl, by simp [hk], by simp [hs]⟩

theorem foldlM_hear_of_silent {jobs : List Text} (h : ∃ job ∈ jobs, Silent checks job)
    (t : Tally) : jobs.foldlM (Tally.hear checks) t = none := by
  induction jobs generalizing t with
  | nil => simp at h
  | cons job jobs ih =>
    rw [List.foldlM_cons]
    by_cases hjob : Silent checks job
    · rw [hear_of_silent hjob]
      rfl
    · obtain ⟨other, hmem, hsilent⟩ := h
      obtain ⟨t', ht', -⟩ := hear_of_spoken hjob t
      rw [ht']
      refine ih ⟨other, ?_, hsilent⟩ t'
      rcases List.mem_cons.mp hmem with rfl | hmem
      · exact absurd hsilent hjob
      · exact hmem

theorem foldlM_hear_of_spoken {jobs : List Text} (h : ∀ job ∈ jobs, ¬ Silent checks job)
    (t : Tally) : ∃ t', jobs.foldlM (Tally.hear checks) t = some t' ∧
      (t'.failed ≠ [] ↔ t.failed ≠ [] ∨ ∃ job ∈ jobs, Broken checks job) ∧
      (t'.skipped ≠ [] ↔
        t.skipped ≠ [] ∨ ∃ job ∈ jobs, ¬ Broken checks job ∧ Skipped checks job) := by
  induction jobs generalizing t with
  | nil => exact ⟨t, rfl, by simp, by simp⟩
  | cons job jobs ih =>
    obtain ⟨t', ht', hfailed, hskipped⟩ := hear_of_spoken (h job List.mem_cons_self) t
    obtain ⟨t'', ht'', hfailed', hskipped'⟩ :=
      ih (fun other hother => h other (List.mem_cons_of_mem job hother)) t'
    refine ⟨t'', ?_, ?_, ?_⟩
    · rw [List.foldlM_cons, ht']
      exact ht''
    · rw [hfailed', hfailed, List.exists_mem_cons_iff, or_assoc]
    · rw [hskipped', hskipped, List.exists_mem_cons_iff, or_assoc]

end Hear

section Settle

variable (isAlphanumeric : Char → Bool) (highEntropy : Text → Bool)

theorem Tally.fails_iff {t : Tally} {failOn : Severity} : t.fails failOn = true ↔
    t.failed ≠ [] ∧ failOn ≤ .high ∨ t.skipped ≠ [] ∧ failOn ≤ .medium := by
  simp [Tally.fails]

open Classical in
/-- What is published, by membership alone. -/
theorem conclusion_settle (watch : Watch) (checks : List CheckStatus) (failOn : Severity) :
    (settle isAlphanumeric highEntropy watch checks failOn).map Settled.conclusion =
      if ∃ job ∈ watch.jobs, Silent checks job then none
      else if watch.failed = true ∨ ∃ job ∈ watch.jobs, Fails checks failOn job then some .failure
      else some .success := by
  by_cases hsilent : ∃ job ∈ watch.jobs, Silent checks job
  · rw [if_pos hsilent, settle, foldlM_hear_of_silent hsilent]
    rfl
  · rw [if_neg hsilent]
    push Not at hsilent
    obtain ⟨t, ht, hfailed, hskipped⟩ := foldlM_hear_of_spoken hsilent ⟨[], [], []⟩
    have hfails : t.fails failOn = true ↔ ∃ job ∈ watch.jobs, Fails checks failOn job := by
      rw [Tally.fails_iff, hfailed, hskipped]
      constructor
      · rintro (⟨hbroken, hon⟩ | ⟨hskip, hon⟩)
        · obtain ⟨job, hjob, hbroken⟩ := hbroken.resolve_left (by simp)
          exact ⟨job, hjob, .inl ⟨hbroken, hon⟩⟩
        · obtain ⟨job, hjob, hkept, hskip⟩ := hskip.resolve_left (by simp)
          exact ⟨job, hjob, .inr ⟨hkept, hskip, hon⟩⟩
      · rintro ⟨job, hjob, ⟨hbroken, hon⟩ | ⟨hkept, hskip, hon⟩⟩
        · exact .inl ⟨.inr ⟨job, hjob, hbroken⟩, hon⟩
        · exact .inr ⟨.inr ⟨job, hjob, hkept, hskip⟩, hon⟩
    have hcond : (watch.failed || t.fails failOn) = true ↔
        watch.failed = true ∨ ∃ job ∈ watch.jobs, Fails checks failOn job := by
      rw [Bool.or_eq_true, hfails]
    simp only [settle, ht, Option.bind_eq_bind, Option.bind_some, Option.pure_def,
      Option.map_some, hcond]
    split <;> rfl

theorem settle_eq_none_iff {watch : Watch} {checks : List CheckStatus} {failOn : Severity} :
    settle isAlphanumeric highEntropy watch checks failOn = none ↔
      ∃ job ∈ watch.jobs, Silent checks job := by
  classical
  rw [← Option.map_eq_none_iff (f := Settled.conclusion), conclusion_settle]
  split
  · next h => exact iff_of_true rfl h
  · next h =>
    refine iff_of_false ?_ h
    split <;> exact Option.some_ne_none _

variable {isAlphanumeric highEntropy} in
theorem settled_failure_iff {watch : Watch} {checks : List CheckStatus} {failOn : Severity}
    {settled : Settled}
    (h : settle isAlphanumeric highEntropy watch checks failOn = some settled) :
    settled.conclusion = .failure ↔
      watch.failed = true ∨ ∃ job ∈ watch.jobs, Fails checks failOn job := by
  classical
  have hspoken : ¬ ∃ job ∈ watch.jobs, Silent checks job := by
    rw [← settle_eq_none_iff isAlphanumeric highEntropy, h]
    exact Option.some_ne_none _
  have hconclusion := conclusion_settle isAlphanumeric highEntropy watch checks failOn
  rw [h, if_neg hspoken] at hconclusion
  split at hconclusion
  · next hfails => exact iff_of_true (Option.some.inj hconclusion) hfails
  · next hfails =>
    refine iff_of_false ?_ hfails
    rw [Option.some.inj hconclusion]
    exact nofun

end Settle

section Judge

variable {reported : List CheckStatus}

theorem verdict_of_running (h : ∃ check ∈ reported, check.conclusion = none)
    (worst : Option CheckConclusion) (skipped : Bool) :
    verdict reported worst skipped = .pending := by
  induction reported generalizing worst skipped with
  | nil => simp at h
  | cons check rest ih =>
    rw [verdict]
    cases hconclusion : check.conclusion with
    | none => rfl
    | some k =>
      have hrest : ∃ other ∈ rest, other.conclusion = none := by
        obtain ⟨other, hother, hnone⟩ := h
        rcases List.mem_cons.mp hother with rfl | hother
        · rw [hconclusion] at hnone
          cases hnone
        · exact ⟨other, hother, hnone⟩
      dsimp only
      split
      · exact ih hrest _ _
      · exact ih hrest _ _

/-- Of jobs that concluded, the last blocking run is the verdict. -/
theorem verdict_of_broken (hdone : ∀ check ∈ reported, check.conclusion ≠ none)
    (worst : Option CheckConclusion) (skipped : Bool)
    (h : worst ≠ none ∨ ∃ check ∈ reported, ∃ k, check.conclusion = some k ∧ k.blocks = true) :
    ∃ k, verdict reported worst skipped = .failed k := by
  induction reported generalizing worst skipped with
  | nil =>
    obtain ⟨k, rfl⟩ := Option.ne_none_iff_exists'.mp (h.resolve_right (by simp))
    exact ⟨k, rfl⟩
  | cons check rest ih =>
    have hrest : ∀ other ∈ rest, other.conclusion ≠ none :=
      fun other hother => hdone other (List.mem_cons_of_mem check hother)
    rw [verdict]
    cases hconclusion : check.conclusion with
    | none => exact absurd hconclusion (hdone check List.mem_cons_self)
    | some k =>
      dsimp only
      split
      · exact ih hrest _ _ (.inl (Option.some_ne_none k))
      · next hkept =>
        refine ih hrest _ _ (h.imp_right ?_)
        rintro ⟨other, hother, k', hk', hblocks⟩
        rcases List.mem_cons.mp hother with rfl | hother
        · rw [hconclusion] at hk'
          obtain rfl := Option.some.inj hk'
          exact absurd hblocks hkept
        · exact ⟨other, hother, k', hk', hblocks⟩

theorem verdict_of_kept (hdone : ∀ check ∈ reported, check.conclusion ≠ none)
    (h : ¬ ∃ check ∈ reported, ∃ k, check.conclusion = some k ∧ k.blocks = true)
    (skipped : Bool) : verdict reported none skipped =
      if skipped || reported.any (fun check => check.conclusion.any isSkip) then
        .notTriggered .skippedByCondition else .passed := by
  induction reported generalizing skipped with
  | nil => simp [verdict]
  | cons check rest ih =>
    have hrest : ∀ other ∈ rest, other.conclusion ≠ none :=
      fun other hother => hdone other (List.mem_cons_of_mem check hother)
    rw [verdict, List.any_cons]
    cases hconclusion : check.conclusion with
    | none => exact absurd hconclusion (hdone check List.mem_cons_self)
    | some k =>
      have hkept : ¬ k.blocks = true := fun hblocks =>
        h ⟨check, List.mem_cons_self, k, hconclusion, hblocks⟩
      dsimp only
      rw [if_neg hkept, ih hrest, Option.any_some, Bool.or_assoc]
      rintro ⟨other, hother, hblocks⟩
      exact h ⟨other, List.mem_cons_of_mem check hother, hblocks⟩

end Judge

section Agreement

variable {glob : Text → Option (Text → Bool)} {checks : List CheckStatus}
variable {changed labels : List Text} {failOn : Severity}

/-- Of a job that has spoken, its runs are the state whatever its trigger. -/
theorem stateOf_of_spoken {workflow : Workflow} {job : Job} (h : ¬ Silent checks job.name) :
    stateOf glob checks changed labels workflow job =
      verdict (reportedFor checks job.name) none false := by
  rw [silent_iff, Bool.or_eq_true, not_or] at h
  unfold stateOf
  dsimp only
  rw [if_pos (by simpa using h.1)]

theorem silent_of_pending {workflow : Workflow} {job : Job}
    (h : stateOf glob checks changed labels workflow job = .pending) : Silent checks job.name := by
  by_contra hspoken
  have hdone : ∀ check ∈ reportedFor checks job.name, check.conclusion ≠ none := by
    intro check hcheck hnone
    exact hspoken (.inr ⟨check, mem_reportedFor.mp hcheck, hnone⟩)
  rw [stateOf_of_spoken hspoken] at h
  by_cases hbroken : ∃ check ∈ reportedFor checks job.name,
      ∃ k, check.conclusion = some k ∧ k.blocks = true
  · obtain ⟨k, hk⟩ := verdict_of_broken hdone none false (.inr hbroken)
    rw [hk] at h
    cases h
  · rw [verdict_of_kept hdone hbroken] at h
    split at h <;> cases h

/-- A silent job whose trigger applies and whose label is there is still to come. -/
theorem pending_of_silent {workflow : Workflow} {job : Job} (h : Silent checks job.name)
    (happlies : workflow.appliesTo glob changed = .yes)
    (hgate : ∀ label, job.labelGate = some label →
      labels.any (fun l => Automerge.eqIgnoreAsciiCase l label) = true) :
    stateOf glob checks changed labels workflow job = .pending := by
  unfold stateOf
  dsimp only
  rcases h with hnone | ⟨check, hcheck, hrunning⟩
  · have hempty : reportedFor checks job.name = [] :=
      List.eq_nil_iff_forall_not_mem.mpr fun check hcheck => hnone check (mem_reportedFor.mp hcheck)
    rw [hempty, happlies]
    cases hlabel : job.labelGate with
    | none => rfl
    | some label => exact if_pos (hgate label hlabel)
  · have hmem := mem_reportedFor.mpr hcheck
    rw [if_pos (by simpa using List.ne_nil_of_mem hmem)]
    exact verdict_of_running ⟨check, hmem, hrunning⟩ none false

/-- The finding of a job that has spoken reaches the threshold just when the job fails. -/
theorem finding_iff {κ : Type} [Confidence κ] {job : Workflow × Job}
    (h : ¬ Silent checks job.2.name) :
    (∃ f : Finding κ, findingOf (jobRun glob checks changed labels job) = some f ∧
      failOn ≤ f.severity) ↔ Fails checks failOn job.2.name := by
  have hdone : ∀ check ∈ reportedFor checks job.2.name, check.conclusion ≠ none := by
    intro check hcheck hnone
    exact h (.inr ⟨check, mem_reportedFor.mp hcheck, hnone⟩)
  have hbroken : Broken checks job.2.name ↔ ∃ check ∈ reportedFor checks job.2.name,
      ∃ k, check.conclusion = some k ∧ k.blocks = true := by
    simp only [mem_reportedFor, Broken]
  have hskipped : Skipped checks job.2.name ↔ (reportedFor checks job.2.name).any
      (fun check => check.conclusion.any isSkip) = true := by
    simp only [List.any_eq_true, mem_reportedFor, Skipped, Option.any_eq_true]
  have hstate : (jobRun glob checks changed labels job).state =
      verdict (reportedFor checks job.2.name) none false := stateOf_of_spoken h
  unfold findingOf Fails
  rw [hstate]
  by_cases hb : Broken checks job.2.name
  · obtain ⟨k, hk⟩ := verdict_of_broken hdone none false
      (.inr (hbroken.mp hb))
    rw [hk]
    simp [hb, jobFinding]
  · rw [verdict_of_kept hdone (hbroken.not.mp hb), Bool.false_or]
    by_cases hs : Skipped checks job.2.name
    · rw [if_pos (hskipped.mp hs)]
      simp [hb, hs, jobFinding, Reason.severity]
    · rw [if_neg (hskipped.not.mp hs)]
      simp [hb, hs]

end Agreement

theorem silent_congr {checks checks' : List CheckStatus} (h : ∀ check, check ∈ checks ↔ check ∈ checks')
    (job : Text) : Silent checks job ↔ Silent checks' job := by
  simp only [Silent, Reported, h]

theorem fails_congr {checks checks' : List CheckStatus} (h : ∀ check, check ∈ checks ↔ check ∈ checks')
    (failOn : Severity) (job : Text) : Fails checks failOn job ↔ Fails checks' failOn job := by
  simp only [Fails, Broken, Skipped, Reported, h]

theorem Reported.mono {checks more : List CheckStatus} (h : checks ⊆ more) {job : Text}
    {check : CheckStatus} (hcheck : Reported checks job check) : Reported more job check :=
  ⟨h hcheck.1, hcheck.2⟩

/-- One more check with a conclusion silences no job. -/
theorem silent_of_added {before after : List CheckStatus} {c : CheckStatus}
    (hc : c.conclusion ≠ none) {job : Text} (h : Silent (before ++ c :: after) job) :
    Silent (before ++ after) job := by
  have hsub : before ++ after ⊆ before ++ c :: after :=
    ((List.sublist_cons_self c after).append_left before).subset
  rcases h with hnone | ⟨check, ⟨hmem, hmatch⟩, hrunning⟩
  · exact .inl fun check hcheck => hnone check (hcheck.mono hsub)
  · refine .inr ⟨check, ⟨?_, hmatch⟩, hrunning⟩
    rcases List.mem_append.mp hmem with hmem | hmem
    · exact List.mem_append_left _ hmem
    · rcases List.mem_cons.mp hmem with rfl | hmem
      · exact absurd hrunning hc
      · exact List.mem_append_right _ hmem

/-- A job that fails keeps failing: a broken run weighs more than a skipped one. -/
theorem Fails.mono {checks more : List CheckStatus} (hsub : checks ⊆ more) {failOn : Severity}
    {job : Text} (h : Fails checks failOn job) : Fails more failOn job := by
  rcases h with ⟨⟨check, hcheck, hbroken⟩, hon⟩ | ⟨-, ⟨check, hcheck, hskipped⟩, hon⟩
  · exact .inl ⟨⟨check, hcheck.mono hsub, hbroken⟩, hon⟩
  · by_cases hb : Broken more job
    · exact .inl ⟨hb, hon.trans (by decide)⟩
    · exact .inr ⟨hb, ⟨check, hcheck.mono hsub, hskipped⟩, hon⟩

section Watching

variable (glob : Text → Option (Text → Bool)) (isAlphanumeric : Char → Bool)
variable (highEntropy : Text → Bool) (harness : Harness) (changed labels : List Text)

/-- The watch is of these jobs of the harness, whose triggers apply and whose labels are met. -/
structure Watches (watch : Watch) (watched : List (Workflow × Job)) : Prop where
  names : watch.jobs = watched.map fun job => job.2.name
  listed : ∀ job ∈ watched, job ∈ harness.jobs
  applies : ∀ job ∈ watched, job.1.appliesTo glob changed = .yes
  labelled : ∀ job ∈ watched, ∀ label, job.2.labelGate = some label →
    labels.any (fun l => Automerge.eqIgnoreAsciiCase l label) = true

/-- The runs of all jobs that bear a watched name. -/
def watchedRuns (watch : Watch) (checks : List CheckStatus) : List JobRun :=
  (jobRuns glob checks changed labels harness).filter fun run => watch.jobs.contains run.job

/-- What settling makes of a watch, next to what judging makes of its jobs. -/
structure SettlesAsJudged (κ : Type) [Confidence κ] (watch : Watch)
    (watched : List (Workflow × Job)) (checks : List CheckStatus) (failOn : Severity) : Prop where
  waits : settle isAlphanumeric highEntropy watch checks failOn = none ↔
    ∃ job ∈ watched, (jobRun glob checks changed labels job).state = .pending
  waitsByName : settle isAlphanumeric highEntropy watch checks failOn = none ↔
    ∃ run ∈ watchedRuns glob harness changed labels watch checks, run.state = .pending
  concludes : ∀ settled, settle isAlphanumeric highEntropy watch checks failOn = some settled →
    (settled.conclusion = .failure ↔ watch.failed = true ∨
      ∃ f ∈ (findings (watched.map (jobRun glob checks changed labels)) : List (Finding κ)),
        failOn ≤ f.severity)
  concludesByName : ∀ settled,
    settle isAlphanumeric highEntropy watch checks failOn = some settled →
    (settled.conclusion = .failure ↔ watch.failed = true ∨
      ∃ f ∈ (findings (watchedRuns glob harness changed labels watch checks) : List (Finding κ)),
        failOn ≤ f.severity)
  orderBlind : ∀ (checks' : List CheckStatus) (watch' : Watch), checks.Perm checks' →
    watch.jobs.Perm watch'.jobs → watch'.failed = watch.failed →
    (settle isAlphanumeric highEntropy watch' checks' failOn).map Settled.conclusion =
      (settle isAlphanumeric highEntropy watch checks failOn).map Settled.conclusion
  staysFailed : ∀ (before after : List CheckStatus) (c : CheckStatus),
    checks = before ++ after → c.isFailing = true →
    (settle isAlphanumeric highEntropy watch checks failOn).map Settled.conclusion =
      some .failure →
    (settle isAlphanumeric highEntropy watch (before ++ c :: after) failOn).map
      Settled.conclusion = some .failure

variable {glob harness changed labels} {watch : Watch} {watched : List (Workflow × Job)}
variable {checks : List CheckStatus}

theorem mem_watchedRuns {run : JobRun} :
    run ∈ watchedRuns glob harness changed labels watch checks ↔
      ∃ job ∈ harness.jobs, job.2.name ∈ watch.jobs ∧ jobRun glob checks changed labels job = run := by
  rw [watchedRuns, List.mem_filter, jobRuns, List.mem_map, List.contains_iff_mem]
  constructor
  · rintro ⟨⟨job, hjob, rfl⟩, hname⟩
    exact ⟨job, hjob, hname, rfl⟩
  · rintro ⟨job, hjob, hname, rfl⟩
    exact ⟨⟨job, hjob, rfl⟩, hname⟩

theorem mem_findings {κ : Type} [Confidence κ] {runs : List JobRun} {f : Finding κ} :
    f ∈ findings runs ↔ ∃ run ∈ runs, findingOf run = some f := List.mem_filterMap

theorem Watches.mem_jobs (h : Watches glob harness changed labels watch watched) {name : Text} :
    name ∈ watch.jobs ↔ ∃ job ∈ watched, job.2.name = name := by
  rw [h.names, List.mem_map]

theorem Watches.exists_iff (h : Watches glob harness changed labels watch watched)
    {p : Text → Prop} : (∃ name ∈ watch.jobs, p name) ↔ ∃ job ∈ watched, p job.2.name := by
  simp only [h.mem_jobs]
  constructor
  · rintro ⟨name, ⟨job, hjob, rfl⟩, hp⟩
    exact ⟨job, hjob, hp⟩
  · rintro ⟨job, hjob, hp⟩
    exact ⟨_, ⟨job, hjob, rfl⟩, hp⟩

/-- A watched job is pending while its name is silent. -/
theorem Watches.pending_iff (h : Watches glob harness changed labels watch watched) :
    (∃ job ∈ watched, (jobRun glob checks changed labels job).state = .pending) ↔
      ∃ name ∈ watch.jobs, Silent checks name := by
  rw [h.exists_iff]
  refine exists_congr fun job => and_congr_right fun hjob => ?_
  exact ⟨silent_of_pending, fun hsilent =>
    pending_of_silent hsilent (h.applies job hjob) (h.labelled job hjob)⟩

/-- Other jobs of a watched name are never pending for longer. -/
theorem Watches.pendingByName_iff (h : Watches glob harness changed labels watch watched) :
    (∃ run ∈ watchedRuns glob harness changed labels watch checks, run.state = .pending) ↔
      ∃ name ∈ watch.jobs, Silent checks name := by
  constructor
  · rintro ⟨run, hrun, hpending⟩
    obtain ⟨job, -, hname, rfl⟩ := mem_watchedRuns.mp hrun
    exact ⟨job.2.name, hname, silent_of_pending hpending⟩
  · intro hsilent
    obtain ⟨job, hjob, hpending⟩ := h.pending_iff.mpr hsilent
    exact ⟨_, mem_watchedRuns.mpr ⟨job, h.listed job hjob, h.mem_jobs.mpr ⟨job, hjob, rfl⟩, rfl⟩,
      hpending⟩

section Concludes

variable {κ : Type} [Confidence κ] {failOn : Severity}

theorem Watches.finding_iff_fails (h : Watches glob harness changed labels watch watched)
    (hspoken : ∀ name ∈ watch.jobs, ¬ Silent checks name) :
    (∃ f ∈ (findings (watched.map (jobRun glob checks changed labels)) : List (Finding κ)),
        failOn ≤ f.severity) ↔ ∃ name ∈ watch.jobs, Fails checks failOn name := by
  rw [h.exists_iff]
  constructor
  · rintro ⟨f, hf, hon⟩
    obtain ⟨run, hrun, hf⟩ := mem_findings.mp hf
    obtain ⟨job, hjob, rfl⟩ := List.mem_map.mp hrun
    have hjobSpoken := hspoken _ (h.mem_jobs.mpr ⟨job, hjob, rfl⟩)
    exact ⟨job, hjob, (finding_iff hjobSpoken).mp ⟨f, hf, hon⟩⟩
  · rintro ⟨job, hjob, hfails⟩
    have hjobSpoken := hspoken _ (h.mem_jobs.mpr ⟨job, hjob, rfl⟩)
    obtain ⟨f, hf, hon⟩ := (finding_iff (κ := κ) hjobSpoken).mpr hfails
    exact ⟨f, mem_findings.mpr ⟨_, List.mem_map.mpr ⟨job, hjob, rfl⟩, hf⟩, hon⟩

theorem Watches.findingByName_iff_fails (h : Watches glob harness changed labels watch watched)
    (hspoken : ∀ name ∈ watch.jobs, ¬ Silent checks name) :
    (∃ f ∈ (findings (watchedRuns glob harness changed labels watch checks) : List (Finding κ)),
        failOn ≤ f.severity) ↔ ∃ name ∈ watch.jobs, Fails checks failOn name := by
  constructor
  · rintro ⟨f, hf, hon⟩
    obtain ⟨run, hrun, hf⟩ := mem_findings.mp hf
    obtain ⟨job, -, hname, rfl⟩ := mem_watchedRuns.mp hrun
    exact ⟨job.2.name, hname, (finding_iff (hspoken _ hname)).mp ⟨f, hf, hon⟩⟩
  · intro hfails
    obtain ⟨job, hjob, hfails⟩ := h.exists_iff.mp hfails
    have hname := h.mem_jobs.mpr ⟨job, hjob, rfl⟩
    obtain ⟨f, hf, hon⟩ := (finding_iff (κ := κ) (hspoken _ hname)).mpr hfails
    have hrun : jobRun glob checks changed labels job ∈
        watchedRuns glob harness changed labels watch checks :=
      mem_watchedRuns.mpr ⟨job, h.listed job hjob, hname, rfl⟩
    exact ⟨f, mem_findings.mpr ⟨_, hrun, hf⟩, hon⟩

end Concludes

theorem conclusion_perm {checks' : List CheckStatus} {watch' : Watch} (failOn : Severity)
    (hchecks : checks.Perm checks') (hjobs : watch.jobs.Perm watch'.jobs)
    (hfailed : watch'.failed = watch.failed) :
    (settle isAlphanumeric highEntropy watch' checks' failOn).map Settled.conclusion =
      (settle isAlphanumeric highEntropy watch checks failOn).map Settled.conclusion := by
  classical
  rw [conclusion_settle, conclusion_settle]
  simp only [hfailed, hjobs.mem_iff, silent_congr fun check => hchecks.mem_iff,
    fails_congr fun check => hchecks.mem_iff]

theorem conclusion_failure_iff {failOn : Severity} :
    (settle isAlphanumeric highEntropy watch checks failOn).map Settled.conclusion =
        some .failure ↔
      (∀ job ∈ watch.jobs, ¬ Silent checks job) ∧
        (watch.failed = true ∨ ∃ job ∈ watch.jobs, Fails checks failOn job) := by
  classical
  rw [conclusion_settle]
  split
  · next h =>
    obtain ⟨job, hjob, hsilent⟩ := h
    exact iff_of_false nofun fun h => h.1 job hjob hsilent
  · next hspoken =>
    push Not at hspoken
    split
    · next hfails => exact iff_of_true rfl ⟨hspoken, hfails⟩
    · next hfails => exact iff_of_false nofun fun h => hfails h.2

/-- One more failing check leaves a failure a failure. -/
theorem failure_of_added {before after : List CheckStatus} {c : CheckStatus} (failOn : Severity)
    (hc : c.isFailing = true)
    (h : (settle isAlphanumeric highEntropy watch (before ++ after) failOn).map
      Settled.conclusion = some .failure) :
    (settle isAlphanumeric highEntropy watch (before ++ c :: after) failOn).map
      Settled.conclusion = some .failure := by
  rw [conclusion_failure_iff] at h ⊢
  obtain ⟨hspoken, hfails⟩ := h
  have hconcluded : c.conclusion ≠ none := by
    intro hnone
    simp [CheckStatus.isFailing, hnone] at hc
  have hsub : before ++ after ⊆ before ++ c :: after :=
    ((List.sublist_cons_self c after).append_left before).subset
  refine ⟨fun job hjob hsilent => hspoken job hjob (silent_of_added hconcluded hsilent), ?_⟩
  exact hfails.imp_right fun ⟨job, hjob, hfails⟩ => ⟨job, hjob, hfails.mono hsub⟩

/-- Settling agrees with judging afresh. -/
theorem settles_as_judged {κ : Type} [Confidence κ] (failOn : Severity)
    (h : Watches glob harness changed labels watch watched) :
    SettlesAsJudged glob isAlphanumeric highEntropy harness changed labels κ watch watched checks
      failOn := by
  have hspoken : ∀ settled, settle isAlphanumeric highEntropy watch checks failOn = some settled →
      ∀ name ∈ watch.jobs, ¬ Silent checks name := by
    intro settled hsettled name hname hsilent
    have hnone : settle isAlphanumeric highEntropy watch checks failOn = none :=
      (settle_eq_none_iff isAlphanumeric highEntropy).mpr ⟨name, hname, hsilent⟩
    rw [hsettled] at hnone
    cases hnone
  constructor
  · rw [settle_eq_none_iff, h.pending_iff]
  · rw [settle_eq_none_iff, h.pendingByName_iff]
  · intro settled hsettled
    rw [settled_failure_iff hsettled, h.finding_iff_fails (hspoken settled hsettled)]
  · intro settled hsettled
    rw [settled_failure_iff hsettled, h.findingByName_iff_fails (hspoken settled hsettled)]
  · intro checks' watch' hchecks hjobs hfailed
    exact conclusion_perm _ _ failOn hchecks hjobs hfailed
  · rintro before after c rfl hc hfailure
    exact failure_of_added _ _ failOn hc hfailure

end Watching

def nightly : Workflow where
  path := ".github/workflows/e2e.yml".toList
  name := "e2e".toList
  trigger := .pullRequest [] [] none false false
  jobs := [⟨"ui".toList, "ui".toList, some "e2e".toList⟩]

/-- The matrix of the job `ui`, one shard of which is skipped. -/
def shards : List CheckStatus :=
  [⟨"ui (1)".toList, some .success⟩, ⟨"ui (2)".toList, some .skipped⟩]

theorem settles_as_judged_shards :
    (settle (fun _ => true) (fun _ => false) ⟨['a'], ["ui".toList], [], false⟩ shards .medium).map
        Settled.conclusion = some .failure ∧
      SettlesAsJudged (fun _ => none) (fun _ => true) (fun _ => false)
        ⟨[], [nightly], false⟩ [] ["E2E".toList] ℕ ⟨['a'], ["ui".toList], [], false⟩
        [(nightly, ⟨"ui".toList, "ui".toList, some "e2e".toList⟩)] shards .medium := by
  refine ⟨by decide +kernel, settles_as_judged _ _ .medium ⟨rfl, ?_, ?_, ?_⟩⟩
  · decide +kernel
  · decide +kernel
  · intro job hjob label hlabel
    obtain rfl := List.mem_singleton.mp hjob
    obtain rfl := Option.some.inj hlabel
    decide +kernel

end TinySweeper.E2e
