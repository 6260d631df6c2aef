import TinySweeper.Runs
import TinySweeper.Sentry.Promote

/-!
# The Sentry sweep

A sweep reads what is unresolved, drops what is tracked already, and opens an issue for the
rest. It is run again and again, calls fail at any point, and people edit the tracker in
between; nothing is promoted twice.
-/

namespace TinySweeper.Sentry

open Text Runs

def FETCH_MULTIPLIER : ℕ := 10

def FETCH_CEILING : ℕ := 100

/-- An issue of the tracker. -/
structure Issue where
  number : ℕ
  body : Text
  isOpen : Bool

/-- The tracker: every issue with its repository. -/
abbrev Tracker := List (Text × Issue)

/-- The two services as they answer in one sweep. Each call may fail; the index behind the
search and the numbers of new issues are the forge's own. -/
structure Services where
  unresolvedIssues : Text → ℕ → Except Text (List Fetched)
  searchIssues : Tracker → Text → Text → Except Text (List Issue)
  issue : Tracker → Text → ℕ → Except Text Issue
  latestEvent : Text → Except Text (Option RawEvent)
  createIssue : Tracker → Text → Text → Text → List Text → Except Text ℕ
  annotate : Text → Text → Except Text Unit
  resolve : Text → Except Text Unit

structure Promoted where
  project : Text
  shortId : Text
  repo : Text
  number : ℕ
  annotated : Bool
  deriving DecidableEq

structure Skip where
  project : Text
  shortId : Text
  reason : Skipped
  deriving DecidableEq

structure SweepReport where
  promoted : List Promoted
  skipped : List Skip
  unrouted : List Text
  failed : List (Text × Text)
  resolved : List Text
  truncated : List (Text × ℕ)

def SweepReport.empty : SweepReport := ⟨[], [], [], [], [], []⟩

/-- What a sweep works on. `created` keeps the repository and the marker of every issue that
was opened. -/
structure State where
  tracker : Tracker
  created : List (Text × Text)
  report : SweepReport

inductive Tracked where
  | no
  | yes (issue : Issue)
  | undedupable

/-- What a sweep is given: the lower case of a text, the credential rulepack, the glob compiler,
the configuration, the services and the Sentry organization. -/
structure Sweeper where
  lower : Lowercase
  secretsScrub : Text → Text
  globMatches : Text → Option (Text → Bool)
  settings : Settings
  services : Services
  org : Text

section Project

variable (sweeper : Sweeper)

/-- Whether an issue is tracked: by the first hit that carries the marker, read again. -/
def Sweeper.findTracked (tracker : Tracker) (repo project shortId : Text) : Except Text Tracked :=
  if trim shortId = [] then .ok .undedupable
  else
    match sweeper.services.searchIssues tracker repo shortId with
    | .error err => .error err
    | .ok hits =>
      match hits.find? fun issue => contains issue.body (marker sweeper.org project shortId) with
      | none => .ok .no
      | some indexed =>
        match sweeper.services.issue tracker repo indexed.number with
        | .ok fresh => .ok (.yes fresh)
        | .error _ => .ok (.yes indexed)

/-- A marker written before the identifiers bypassed the scrubbing. -/
def Sweeper.legacyMarkerComponent (text : Text) : Option Text :=
  (scrubText sweeper.lower sweeper.secretsScrub text sweeper.settings.scrubPatterns).bind
    fun out => truncateTo out MARKER_COMPONENT_BYTES

/-- Whether an issue is tracked, under its marker or under the one it had. -/
def Sweeper.lookup (tracker : Tracker) (repo slug : Text) (issue : RawIssue) :
    Except Text Tracked :=
  let shortId := markerComponent issue.shortId
  let project := markerComponent slug
  match sweeper.findTracked tracker repo project shortId with
  | .ok .no =>
    match sweeper.legacyMarkerComponent issue.shortId,
      sweeper.legacyMarkerComponent slug with
    | some legacyShortId, some legacyProject =>
      if legacyShortId ≠ shortId ∨ legacyProject ≠ project then
        sweeper.findTracked tracker repo legacyProject legacyShortId
      else .ok .no
    | _, _ => .error []
  | found => found

/-- The issues that are not tracked, up to the first call that fails. -/
def Sweeper.dedupe (dryRun : Bool) (repo slug : Text) (tracker : Tracker) :
    List Fetched → SweepReport → (SweepReport × List Fetched) × Option Text
  | [], report => ((report, []), none)
  | fetched :: rest, report =>
    match sweeper.lookup tracker repo slug fetched.issue with
    | .error err => ((report, []), some err)
    | .ok .no =>
      let deduped := dedupe dryRun repo slug tracker rest report
      ((deduped.1.1, fetched :: deduped.1.2), deduped.2)
    | .ok .undedupable =>
      dedupe dryRun repo slug tracker rest
        { report with
          skipped := report.skipped ++ [⟨slug, fetched.issue.shortId, .undedupable⟩] }
    | .ok (.yes tracking) =>
      let report := { report with
        skipped := report.skipped ++
          [⟨slug, fetched.issue.shortId, .alreadyTracked tracking.number⟩] }
      -- A closed issue is a fixed error; the resolution may fail, too.
      if !dryRun && sweeper.settings.resolveWhenTracked && !tracking.isOpen then
        match sweeper.services.resolve fetched.id with
        | .error err => ((report, []), some err)
        | .ok _ =>
          dedupe dryRun repo slug tracker rest
            { report with resolved := report.resolved ++ [fetched.id] }
      else dedupe dryRun repo slug tracker rest report

def priorityLabel (level : Text) : Text :=
  let level := toAsciiLowercase (trim level)
  if level = "fatal".toList then "priority: p0".toList
  else if level = "error".toList then "priority: p1".toList
  else if level = "warning".toList then "priority: p2".toList
  else "priority: p3".toList

def addLabel (labels : List Text) (label : Text) : List Text :=
  if label ∈ labels then labels else labels ++ [label]

def Sweeper.labelsFor (slug : Text) : List Text :=
  match sweeper.settings.routes.find? (·.project = slug) with
  | some route => route.labels.foldl addLabel sweeper.settings.labels
  | none => sweeper.settings.labels

def issueUrl (repo : Text) (number : ℕ) : Text :=
  "https://github.com/".toList ++ repo ++ "/issues/".toList ++ decimal number

/-- The link back; one that fails costs navigability and nothing else. -/
def Sweeper.annotated (id repo : Text) (number : ℕ) : Bool :=
  sweeper.settings.annotateSentry &&
    (sweeper.services.annotate id ("Tracked in ".toList ++ issueUrl repo number ++
      " (opened automatically by tinysweeper).".toList)).isOk

/-- The issues are opened one after the other, up to the first call that fails. -/
def Sweeper.promoteAll (dryRun : Bool) (repo slug : Text) :
    List Fetched → State → State × Option Text
  | [], s => (s, none)
  | fetched :: rest, s =>
    let event := (sweeper.services.latestEvent fetched.id).toOption.join
    match project sweeper.lower sweeper.secretsScrub fetched.issue event slug
      sweeper.settings.scrubPatterns with
    | none => (s, some [])
    | some safe =>
      if dryRun then
        promoteAll dryRun repo slug rest
          { s with report :=
            { s.report with
              promoted := s.report.promoted ++ [⟨slug, safe.shortId, repo, 0, false⟩] } }
      else
        match sweeper.services.createIssue s.tracker repo (title safe) (body safe sweeper.org)
          (addLabel (sweeper.labelsFor safe.project) (priorityLabel safe.level)) with
        | .error err => (s, some err)
        | .ok number =>
          promoteAll dryRun repo slug rest
            { tracker := s.tracker ++ [(repo, ⟨number, body safe sweeper.org, true⟩)]
              created := s.created ++ [(repo, marker sweeper.org safe.project safe.shortId)]
              report :=
                { s.report with
                  promoted := s.report.promoted ++
                    [⟨slug, safe.shortId, repo, number,
                      sweeper.annotated fetched.id repo number⟩] } }

def Sweeper.fetchLimit : ℕ :=
  min (max (sweeper.settings.maxPerRun * FETCH_MULTIPLIER) 1) FETCH_CEILING

/-- One project: the gates, the dedupe, the cap, and then the writes. -/
def Sweeper.sweepProject (dryRun : Bool) (repo slug : Text) (s : State) : State × Option Text :=
  match sweeper.services.unresolvedIssues slug sweeper.fetchLimit with
  | .error err => (s, some err)
  | .ok fetched =>
    let filtered := filter sweeper.globMatches sweeper.settings fetched
    let report := { s.report with
      skipped := s.report.skipped ++ filtered.2.map fun r => ⟨slug, r.shortId, r.reason⟩ }
    let deduped := sweeper.dedupe dryRun repo slug s.tracker filtered.1 report
    match deduped.2 with
    | some err => ({ s with report := deduped.1.1 }, some err)
    | none =>
      let capped := applyCap sweeper.settings deduped.1.2
      let report := deduped.1.1
      let report :=
        if capped.2 = [] then report
        else
          { report with
            truncated := report.truncated ++ [(slug, sweeper.settings.maxPerRun)]
            skipped := report.skipped ++ capped.2.map fun r => ⟨slug, r.shortId, r.reason⟩ }
      sweeper.promoteAll dryRun repo slug capped.1 { s with report := report }

/-- `owner/name`. -/
def isRepoId (value : Text) : Bool :=
  match splitOnce '/' value with
  | none => false
  | some (owner, name) =>
    !owner.isEmpty && !name.isEmpty && !name.contains '/' && !value.any isWhitespace

/-- Every project in its turn; one that fails does not take the rest down with it. -/
def Sweeper.sweepProjects (dryRun : Bool) : List Text → State → State
  | [], s => s
  | slug :: rest, s =>
    match sweeper.settings.routes.find? (·.project = slug) with
    | none =>
      sweepProjects dryRun rest
        { s with report := { s.report with unrouted := s.report.unrouted ++ [slug] } }
    | some route =>
      if !isRepoId route.repo then
        sweepProjects dryRun rest
          { s with report := { s.report with
            failed := s.report.failed ++
              [(slug, "\x60".toList ++ route.repo ++ "\x60 is not owner/name".toList)] } }
      else
        let swept := sweeper.sweepProject dryRun route.repo slug s
        let s := match swept.2 with
          | none => swept.1
          | some err => { swept.1 with report := { swept.1.report with
              failed := swept.1.report.failed ++ [(slug, err)] } }
        sweepProjects dryRun rest s

end Project

/-- A sweep; nothing is read or written while promotion is off. -/
def sweep (lower : Lowercase) (secretsScrub : Text → Text)
    (globMatches : Text → Option (Text → Bool)) (settings : Settings) (services : Services)
    (dryRun : Bool) (s : State) : Except Text State :=
  if !settings.enabled then .ok s
  else
    match settings.org.filter fun org => trim org ≠ [] with
    | none => .error "\x60sentry.enabled = true\x60 requires \x60sentry.org\x60".toList
    | some org =>
      .ok (Sweeper.sweepProjects ⟨lower, secretsScrub, globMatches, settings, services, org⟩
        dryRun settings.projects { s with report := .empty })

/-- What happens to a tracker. -/
inductive Event where
  | sweep (settings : Settings) (services : Services) (dryRun : Bool)
  /-- Issues are opened, edited, closed and removed by others. -/
  | others (tracker : Tracker)

section Runs

variable (lower : Lowercase) (secretsScrub : Text → Text)
  (globMatches : Text → Option (Text → Bool))

def step (s : State) : Event → State
  | .sweep settings services dryRun =>
    ((sweep lower secretsScrub globMatches settings services dryRun s).toOption).getD s
  | .others tracker => { s with tracker := tracker }

/-- The search finds an issue by its marker, where there is one. -/
def Services.Complete (services : Services) : Prop :=
  ∀ tracker repo shortId hits, services.searchIssues tracker repo shortId = .ok hits →
    ∀ org project, (∃ issue, (repo, issue) ∈ tracker ∧
        contains issue.body (marker org project shortId) = true) →
      ∃ hit ∈ hits, contains hit.body (marker org project shortId) = true

/-- No two of the issues read at a time have one short id, as a marker cuts it. -/
def Services.Distinct (services : Services) : Prop :=
  ∀ slug limit fetched, services.unresolvedIssues slug limit = .ok fetched →
    (fetched.map fun f => markerComponent f.issue.shortId).Nodup

/-- Others may do what they like, as long as they leave the markers in place. -/
def guard (s : State) : Event → Prop
  | .sweep _ services _ => services.Complete ∧ services.Distinct
  | .others tracker => ∀ repo m, (repo, m) ∈ s.created →
    ∃ issue, (repo, issue) ∈ tracker ∧ contains issue.body m = true

/-- Everything that was opened is in the tracker, and it was opened once. -/
structure Sound (s : State) : Prop where
  once : s.created.Nodup
  tracked : ∀ repo m, (repo, m) ∈ s.created →
    ∃ issue, (repo, issue) ∈ s.tracker ∧ contains issue.body m = true

end Runs

theorem marker_injective {org project : Text} {a b : Text}
    (h : marker org project a = marker org project b) : a = b := by
  unfold marker at h
  exact List.append_cancel_left (List.append_cancel_right h)

section Kept

variable {sweeper : Sweeper} {repo slug : Text} {dryRun : Bool} {s : State}

theorem filter_sublist (globMatches : Text → Option (Text → Bool)) (settings : Settings)
    (fetched : List Fetched) :
    (filter globMatches settings fetched).1.Sublist fetched := by
  induction fetched with
  | nil => exact .slnil
  | cons f rest ih =>
    rw [filter]
    cases gate globMatches settings f.issue with
    | none => exact ih.cons_cons f
    | some reason => exact ih.cons f

/-- An issue that is not tracked has its marker nowhere. -/
theorem notMem_of_lookup (hcomplete : sweeper.services.Complete) (h : Sound s) {issue : RawIssue}
    (hlookup : sweeper.lookup s.tracker repo slug issue = .ok .no) :
    (repo, marker sweeper.org (markerComponent slug) (markerComponent issue.shortId)) ∉
      s.created := by
  intro hmem
  have hfound : sweeper.findTracked s.tracker repo (markerComponent slug)
      (markerComponent issue.shortId) = .ok .no := by
    unfold Sweeper.lookup at hlookup
    dsimp only at hlookup
    split at hlookup
    · assumption
    · exact hlookup
  obtain ⟨tracking, hissue, hcontains⟩ := h.tracked _ _ hmem
  unfold Sweeper.findTracked at hfound
  split_ifs at hfound
  · cases hfound
  cases hsearch : sweeper.services.searchIssues s.tracker repo (markerComponent issue.shortId) with
  | error err =>
    rw [hsearch] at hfound
    cases hfound
  | ok hits =>
    rw [hsearch] at hfound
    dsimp only at hfound
    obtain ⟨hit, hhit, hmarked⟩ :=
      hcomplete _ _ _ _ hsearch sweeper.org (markerComponent slug) ⟨tracking, hissue, hcontains⟩
    cases hfind : hits.find? fun hit => contains hit.body
        (marker sweeper.org (markerComponent slug) (markerComponent issue.shortId)) with
    | none =>
      rw [List.find?_eq_none] at hfind
      exact hfind hit hhit hmarked
    | some indexed =>
      rw [hfind] at hfound
      dsimp only at hfound
      split at hfound <;> cases hfound

variable (sweeper repo slug dryRun) in
/-- What is left to be opened was read, and is not tracked. -/
theorem dedupe_candidates {tracker : Tracker} (fetched : List Fetched) (report : SweepReport) :
    (sweeper.dedupe dryRun repo slug tracker fetched report).1.2.Sublist fetched ∧
      ∀ c ∈ (sweeper.dedupe dryRun repo slug tracker fetched report).1.2,
        sweeper.lookup tracker repo slug c.issue = .ok .no := by
  induction fetched generalizing report with
  | nil => exact ⟨.slnil, List.forall_mem_nil _⟩
  | cons f rest ih =>
    rw [Sweeper.dedupe]
    cases hlookup : sweeper.lookup tracker repo slug f.issue with
    | error err => exact ⟨List.nil_sublist _, List.forall_mem_nil _⟩
    | ok tracked =>
      cases tracked with
      | no =>
        obtain ⟨hsublist, hnone⟩ := ih report
        exact ⟨hsublist.cons_cons f, List.forall_mem_cons.mpr ⟨hlookup, hnone⟩⟩
      | undedupable =>
        obtain ⟨hsublist, hnone⟩ := ih { report with
          skipped := report.skipped ++ [⟨slug, f.issue.shortId, .undedupable⟩] }
        exact ⟨hsublist.cons f, hnone⟩
      | yes tracking =>
        dsimp only
        have hrest : ∀ r : SweepReport,
            (sweeper.dedupe dryRun repo slug tracker rest r).1.2.Sublist (f :: rest) ∧
            ∀ c ∈ (sweeper.dedupe dryRun repo slug tracker rest r).1.2,
              sweeper.lookup tracker repo slug c.issue = .ok .no :=
          fun r => ⟨(ih r).1.cons f, (ih r).2⟩
        split_ifs
        · cases sweeper.services.resolve f.id with
          | error err => exact ⟨List.nil_sublist _, List.forall_mem_nil _⟩
          | ok _ => exact hrest _
        · exact hrest _

/-- An issue is opened under a marker that was not used. -/
theorem Sound.opened (h : Sound s) {m : Text} {issue : Issue} {report : SweepReport}
    (hnew : (repo, m) ∉ s.created) (hmarked : contains issue.body m = true) :
    Sound ⟨s.tracker ++ [(repo, issue)], s.created ++ [(repo, m)], report⟩ := by
  constructor
  · have honce := h.once.concat hnew
    rwa [List.concat_eq_append] at honce
  · intro repo' m' hmem
    rcases List.mem_append.mp hmem with hmem | hmem
    · obtain ⟨tracking, hissue, hcontains⟩ := h.tracked repo' m' hmem
      exact ⟨tracking, List.mem_append_left _ hissue, hcontains⟩
    · obtain ⟨rfl, rfl⟩ := Prod.mk.inj (List.mem_singleton.mp hmem)
      exact ⟨issue, List.mem_append_right _ (List.mem_singleton_self _), hmarked⟩

/-- What is opened is new, and each is opened once. -/
theorem promoteAll_sound {candidates : List Fetched} (h : Sound s)
    (hdistinct : (candidates.map fun c => markerComponent c.issue.shortId).Nodup)
    (hnew : ∀ c ∈ candidates,
      (repo, marker sweeper.org (markerComponent slug) (markerComponent c.issue.shortId)) ∉
        s.created) :
    Sound (sweeper.promoteAll dryRun repo slug candidates s).1 := by
  induction candidates generalizing s with
  | nil => exact h
  | cons c rest ih =>
    rw [List.map_cons, List.nodup_cons] at hdistinct
    rw [List.forall_mem_cons] at hnew
    rw [Sweeper.promoteAll]
    dsimp only
    cases hproject : project sweeper.lower sweeper.secretsScrub c.issue
        (sweeper.services.latestEvent c.id).toOption.join slug sweeper.settings.scrubPatterns with
    | none => exact h
    | some safe =>
      obtain ⟨hshortId, hslug⟩ := project_identifiers hproject
      dsimp only
      split_ifs
      · exact ih ⟨h.once, h.tracked⟩ hdistinct.2 hnew.2
      · split
        · exact h
        · apply ih _ hdistinct.2
          · intro other hother hmem
            rcases List.mem_append.mp hmem with hmem | hmem
            · exact hnew.2 other hother hmem
            · rw [List.mem_singleton, Prod.mk.injEq, hshortId, hslug] at hmem
              exact hdistinct.1 (List.mem_map.mpr ⟨other, hother, marker_injective hmem.2⟩)
          · rw [hshortId, hslug]
            refine h.opened hnew.1 ?_
            rw [← hshortId, ← hslug]
            exact contains_body safe sweeper.org

theorem sweepProject_sound (hcomplete : sweeper.services.Complete)
    (hdistinct : sweeper.services.Distinct) (h : Sound s) :
    Sound (sweeper.sweepProject dryRun repo slug s).1 := by
  unfold Sweeper.sweepProject
  cases hfetched : sweeper.services.unresolvedIssues slug sweeper.fetchLimit with
  | error err => exact h
  | ok fetched =>
    dsimp only
    generalize hdeduped : sweeper.dedupe dryRun repo slug s.tracker
      (filter sweeper.globMatches sweeper.settings fetched).1 _ = deduped
    obtain ⟨hsublist, hnone⟩ := hdeduped ▸ dedupe_candidates sweeper repo slug
      dryRun (filter sweeper.globMatches sweeper.settings fetched).1 _
    cases hfailed : deduped.2 with
    | some err => exact ⟨h.once, h.tracked⟩
    | none =>
      dsimp only
      have hcandidates : (deduped.1.2.take sweeper.settings.maxPerRun).Sublist fetched :=
        (List.take_sublist _ _).trans (hsublist.trans (filter_sublist _ _ fetched))
      refine promoteAll_sound (s := { s with report := _ }) ⟨h.once, h.tracked⟩ ?_ ?_
      · exact (hdistinct _ _ _ hfetched).sublist (hcandidates.map _)
      · intro c hc
        exact notMem_of_lookup hcomplete h (hnone c (List.mem_of_mem_take hc))

theorem sweepProjects_sound (hcomplete : sweeper.services.Complete)
    (hdistinct : sweeper.services.Distinct) (projects : List Text) (h : Sound s) :
    Sound (sweeper.sweepProjects dryRun projects s) := by
  induction projects generalizing s with
  | nil => exact h
  | cons slug rest ih =>
    rw [Sweeper.sweepProjects]
    cases sweeper.settings.routes.find? (·.project = slug) with
    | none => exact ih ⟨h.once, h.tracked⟩
    | some route =>
      dsimp only
      split_ifs
      · exact ih ⟨h.once, h.tracked⟩
      · have hswept : Sound (sweeper.sweepProject dryRun route.repo slug s).1 :=
          sweepProject_sound hcomplete hdistinct h
        cases (sweeper.sweepProject dryRun route.repo slug s).2 with
        | none => exact ih hswept
        | some err => exact ih ⟨hswept.once, hswept.tracked⟩

theorem step_sound {event : Event} (h : Sound s) (hguard : guard s event) :
    Sound (step lower secretsScrub globMatches s event) := by
  cases event with
  | sweep settings services dryRun =>
    obtain ⟨hcomplete, hdistinct⟩ := hguard
    unfold step sweep
    dsimp only
    split_ifs
    · exact h
    · cases settings.org.filter fun org => trim org ≠ [] with
      | none => exact h
      | some org => exact sweepProjects_sound hcomplete hdistinct _ ⟨h.once, h.tracked⟩
  | others tracker => exact ⟨h.once, hguard⟩

end Kept

/-- However often the sweep runs, one at a time, whatever it reads, and wherever it fails: no issue
is opened twice with one marker in one repository, and what was opened can be found again. -/
theorem sweeps_promote_once (lower : Lowercase) (secretsScrub : Text → Text)
    (globMatches : Text → Option (Text → Bool)) (tracker : Tracker) {events : List Event}
    (hevents : Guarded (step lower secretsScrub globMatches) guard ⟨tracker, [], .empty⟩ events) :
    let s := exec (step lower secretsScrub globMatches) ⟨tracker, [], .empty⟩ events
    s.created.Nodup ∧ ∀ repo m, (repo, m) ∈ s.created →
      ∃ issue, (repo, issue) ∈ s.tracker ∧ contains issue.body m = true := by
  intro s
  have hsound : Sound s := by
    refine hevents.invariant (fun s event hs hguard => step_sound hs hguard) ⟨List.nodup_nil, ?_⟩
    intro repo m hmem
    cases hmem
  exact ⟨hsound.once, hsound.tracked⟩

def sampleSettings : Settings where
  enabled := true
  org := some "acme".toList
  projects := ["api".toList]
  routes := [⟨"api".toList, "acme/api".toList, []⟩]
  labels := []
  minEvents := 1
  minUsers := 0
  ignoreCulprits := []
  maxPerRun := 2
  annotateSentry := false
  resolveWhenTracked := false
  scrubPatterns := []

def sampleIssue : RawIssue where
  shortId := "API-1".toList
  culprit := none
  level := none
  permalink := none
  count := 9
  userCount := 3
  metadata := ⟨none, some "boom".toList⟩

/-- One issue is unresolved, and the search answers with the whole repository. -/
def sampleServices : Services where
  unresolvedIssues _ _ := .ok [⟨"1".toList, sampleIssue⟩]
  searchIssues tracker repo _ := .ok ((tracker.filter (·.1 = repo)).map Prod.snd)
  issue _ _ _ := .error "down".toList
  latestEvent _ := .ok none
  createIssue tracker _ _ _ _ := .ok (tracker.length + 1)
  annotate _ _ := .ok ()
  resolve _ := .ok ()

theorem sampleServices_complete : sampleServices.Complete := by
  intro tracker repo shortId hits hhits org project htracked
  obtain ⟨issue, hissue, hcontains⟩ := htracked
  refine ⟨issue, ?_, hcontains⟩
  rw [← Except.ok.inj hhits, List.mem_map]
  exact ⟨(repo, issue), List.mem_filter.mpr ⟨hissue, decide_eq_true rfl⟩, rfl⟩

theorem sampleServices_distinct : sampleServices.Distinct := by
  intro slug limit fetched hfetched
  rw [← Except.ok.inj hfetched]
  exact List.nodup_singleton _

/-- The tracker that others leave behind a first sweep: the issue is closed, and its text is
edited around the marker. -/
def edited : Tracker :=
  [("acme/api".toList, ⟨1, "Known.\n<!-- tinysweeper:sentry=acme/api/API-1 -->".toList, false⟩)]

def sampleEvents : List Event :=
  [.sweep sampleSettings sampleServices false, .others edited,
    .sweep sampleSettings sampleServices false]

def sampleEnd : State :=
  exec (step asciiLowercase id fun _ => none) ⟨[], [], .empty⟩ sampleEvents

theorem sweeps_promote_once_sample :
    sampleEnd.created.Nodup ∧ ∃ issue, ("acme/api".toList, issue) ∈ sampleEnd.tracker ∧
      contains issue.body (marker "acme".toList "api".toList "API-1".toList) = true := by
  have hguarded : Guarded (step asciiLowercase id fun _ => none) guard ⟨[], [], .empty⟩
      sampleEvents := by
    have hservices := And.intro sampleServices_complete sampleServices_distinct
    refine ⟨hservices, ?_, hservices, trivial⟩
    intro repo m hmem
    have hcreated : (step asciiLowercase id (fun _ => none) ⟨[], [], .empty⟩
        (.sweep sampleSettings sampleServices false)).created =
          [("acme/api".toList, marker "acme".toList "api".toList "API-1".toList)] := by
      decide +kernel
    rw [hcreated, List.mem_singleton, Prod.mk.injEq] at hmem
    obtain ⟨rfl, rfl⟩ := hmem
    exact ⟨_, List.mem_singleton_self _, by decide +kernel⟩
  obtain ⟨honce, htracked⟩ := sweeps_promote_once asciiLowercase id (fun _ => none) [] hguarded
  exact ⟨honce, htracked _ _ (by decide +kernel)⟩

end TinySweeper.Sentry
