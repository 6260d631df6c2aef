import Mathlib.Algebra.BigOperators.Group.List.Basic
import TinySweeper.Automerge.Reviews

/-!
# What the policy makes of more and of reordered news

Every gate but one says the same of a list in any order, and nothing bad that is
added opens a gate. The gate of the required checks reads the first run of each
name.
-/

namespace TinySweeper.Automerge

open Text Forge App

/-- The forge gave a patch, or there was nothing to give. -/
def ChangedFile.Measurable (f : ChangedFile) : Prop :=
  f.patch.isSome ∨ f.additions = 0 ∧ f.deletions = 0

def ChangedFile.lineCount (f : ChangedFile) : ℕ := f.additions + f.deletions

def ChangedFile.hunkCount (f : ChangedFile) : ℕ := (f.patch.map hunksIn).getD 0

/-- The directories that the old and new paths live in. -/
def directoriesOf (files : List ChangedFile) : Finset Text :=
  ((files.flatMap touched).map directoryOf).toFinset

theorem saturatingAdd_assoc (a b c : ℕ) :
    saturatingAdd (saturatingAdd a b) c = saturatingAdd a (b + c) := by
  unfold saturatingAdd
  omega

theorem Measured.add_eq {m : Measured} {f : ChangedFile} (h : f.Measurable) :
    m.add f = .ok ⟨saturatingAdd m.changedLines f.lineCount, m.hunks + f.hunkCount,
      (m.directories.insert (directoryOf f.path)).union
        (f.previousPath.toList.map directoryOf)⟩ := by
  unfold Measured.add ChangedFile.lineCount ChangedFile.hunkCount
  rw [saturatingAdd_assoc]
  cases hpatch : f.patch with
  | some patch => rfl
  | none =>
    have hsame : f.additions = 0 ∧ f.deletions = 0 := by
      simpa [ChangedFile.Measurable, hpatch] using h
    simp [hsame]

theorem Measured.add_error {m : Measured} {f : ChangedFile} (h : ¬ f.Measurable) :
    m.add f = .error f.path := by
  rw [ChangedFile.Measurable, not_or] at h
  obtain ⟨hpatch, hlines⟩ := h
  rw [Measured.add, Option.not_isSome_iff_eq_none.mp hpatch]
  exact if_neg hlines

/-- The files are measured on, each directory counted once. -/
theorem foldlM_add {files : List ChangedFile} (h : ∀ f ∈ files, f.Measurable) {m : Measured}
    (hlines : m.changedLines ≤ 2 ^ 64 - 1) (hnodup : m.directories.Nodup) :
    ∃ directories : List Text, files.foldlM Measured.add m =
        .ok ⟨saturatingAdd m.changedLines (files.map ChangedFile.lineCount).sum,
          m.hunks + (files.map ChangedFile.hunkCount).sum, directories⟩ ∧
      directories.Nodup ∧ directories.toFinset = m.directories.toFinset ∪ directoriesOf files := by
  induction files generalizing m with
  | nil =>
    refine ⟨m.directories, ?_, hnodup, by simp [directoriesOf]⟩
    have hsame : saturatingAdd m.changedLines 0 = m.changedLines := Nat.min_eq_left hlines
    rw [List.map_nil, List.map_nil, List.sum_nil, hsame]
    rfl
  | cons f files ih =>
    have hbound (a b : ℕ) : saturatingAdd a b ≤ 2 ^ 64 - 1 := Nat.min_le_right _ _
    have hprevious : (f.previousPath.toList.map directoryOf).Nodup := by
      cases f.previousPath <;> simp
    have hdirectories : ((m.directories.insert (directoryOf f.path)).union
        (f.previousPath.toList.map directoryOf)).Nodup := List.Nodup.union _ hprevious
    obtain ⟨directories, hrun, hdistinct, hset⟩ :=
      ih (m := ⟨saturatingAdd m.changedLines f.lineCount, m.hunks + f.hunkCount,
        (m.directories.insert (directoryOf f.path)).union
          (f.previousPath.toList.map directoryOf)⟩)
        (fun g hg => h g (List.mem_cons_of_mem f hg)) (hbound _ _) hdirectories
    refine ⟨directories, ?_, hdistinct, ?_⟩
    · rw [List.foldlM_cons, Measured.add_eq (h f List.mem_cons_self)]
      refine hrun.trans ?_
      rw [saturatingAdd_assoc, List.map_cons, List.map_cons, List.sum_cons, List.sum_cons,
        Nat.add_assoc]
    · rw [hset]
      ext dir
      have hunion : dir ∈ (m.directories.insert (directoryOf f.path)).union
          (f.previousPath.toList.map directoryOf) ↔ dir ∈ m.directories.insert (directoryOf f.path) ∨
            dir ∈ f.previousPath.toList.map directoryOf := List.mem_union_iff
      simp only [Finset.mem_union, List.mem_toFinset, hunion, List.mem_insert_iff, directoriesOf,
        List.flatMap_cons, List.map_append, List.mem_append, touched, List.map_cons, List.mem_cons]
      tauto

theorem foldlM_add_error {files : List ChangedFile} (h : ∃ f ∈ files, ¬ f.Measurable)
    (m : Measured) : ∃ path, files.foldlM Measured.add m = .error path := by
  induction files generalizing m with
  | nil => simp at h
  | cons f files ih =>
    rw [List.foldlM_cons]
    by_cases hf : f.Measurable
    · obtain ⟨g, hg, hnot⟩ := h
      have hrest : ∃ g ∈ files, ¬ g.Measurable := by
        rcases List.mem_cons.mp hg with rfl | hg
        · exact absurd hf hnot
        · exact ⟨g, hg, hnot⟩
      rw [Measured.add_eq hf]
      exact ih hrest _
    · rw [Measured.add_error hf]
      exact ⟨f.path, rfl⟩

section Gates

variable {γ : Type} {globs : Globs γ} {config : AutoMerge}
variable {files more : List ChangedFile} {s s' : Snapshot}

/-- All of the change is measured and within its caps. -/
structure Within (config : AutoMerge) (files : List ChangedFile) : Prop where
  measurable : ∀ f ∈ files, f.Measurable
  changedLines : saturatingAdd 0 (files.map ChangedFile.lineCount).sum ≤ config.maxChangedLines
  hunks : (files.map ChangedFile.hunkCount).sum ≤ config.maxHunks
  directories : (directoriesOf files).card ≤ config.maxDirectories

theorem measure_eq (h : ∀ f ∈ files, f.Measurable) :
    measure files = .ok ⟨files.length, saturatingAdd 0 (files.map ChangedFile.lineCount).sum,
      (files.map ChangedFile.hunkCount).sum, (directoriesOf files).card⟩ := by
  obtain ⟨directories, hrun, hnodup, hset⟩ :=
    foldlM_add h (m := ⟨0, 0, []⟩) (Nat.zero_le _) List.nodup_nil
  have hcard : directories.length = (directoriesOf files).card := by
    rw [← List.toFinset_card_of_nodup hnodup, hset, List.toFinset_nil, Finset.empty_union]
  rw [measure, hrun, ← hcard, Nat.zero_add]
  rfl

theorem complexityRefusal_eq_none_iff :
    complexityRefusal config files = none ↔ Within config files := by
  by_cases h : ∀ f ∈ files, f.Measurable
  · rw [complexityRefusal, measure_eq h]
    simp only [Option.map_eq_none_iff, List.find?_eq_none, List.mem_cons, List.not_mem_nil,
      or_false, forall_eq_or_imp, forall_eq, decide_eq_true_eq, not_lt]
    constructor
    · rintro ⟨hlines, hhunks, hdirectories⟩
      exact ⟨h, hlines, hhunks, hdirectories⟩
    · rintro ⟨-, hlines, hhunks, hdirectories⟩
      exact ⟨hlines, hhunks, hdirectories⟩
  · have hunmeasured : ∃ f ∈ files, ¬ f.Measurable := by simpa using h
    obtain ⟨path, herror⟩ := foldlM_add_error hunmeasured ⟨0, 0, []⟩
    have hmeasure : measure files = .error path := by
      rw [measure, herror]
      rfl
    rw [complexityRefusal, hmeasure]
    exact iff_of_false nofun fun hwithin => h hwithin.measurable

/-- No path, old or new, is a sensitive one. -/
def Insensitive (globs : Globs γ) (config : AutoMerge) (files : List ChangedFile) : Prop :=
  ∃ sensitive, globSet globs config.sensitivePaths = .ok sensitive ∧
    ∀ f ∈ files, ∀ path ∈ touched f, sensitive path = false

theorem pathRefusal_eq_none_iff :
    pathRefusal globs config files = none ↔ Insensitive globs config files := by
  unfold pathRefusal Insensitive
  cases globSet globs config.sensitivePaths with
  | error err => simp
  | ok sensitive =>
    simp only [Option.map_eq_none_iff, List.find?_eq_none, List.mem_flatMap,
      Bool.not_eq_true, Except.ok.injEq, exists_eq_left']
    constructor
    · intro h f hf path hpath
      exact h path ⟨f, hf, hpath⟩
    · rintro h path ⟨f, hf, hpath⟩
      exact h f hf path hpath

/-- A configured bot, which the forge calls a bot, where the exemption is on. -/
def bumpAuthor (config : AutoMerge) (pr : PullRequest) : Bool :=
  config.allowDependencyBumps && pr.authorIsBot &&
    config.dependencyBots.any fun configured => loginsMatch configured pr.author

/-- A configured bot that changes manifests only. -/
def Exempt (globs : Globs γ) (config : AutoMerge) (pr : PullRequest) (files : List ChangedFile) :
    Prop :=
  bumpAuthor config pr = true ∧
    ∃ manifests, globSet globs config.dependencyPaths = .ok manifests ∧
      ∀ f ∈ files, ∀ path ∈ touched f, manifests path = true

/-- Where a bot's paths are to be compared with manifests, the patterns can be read. -/
def Readable (globs : Globs γ) (config : AutoMerge) (pr : PullRequest) : Prop :=
  bumpAuthor config pr = true → ∃ manifests, globSet globs config.dependencyPaths = .ok manifests

theorem dependencyBump_eq (s : Snapshot) : dependencyBump globs config s =
    if bumpAuthor config s.pullRequest then
      ((globSet globs config.dependencyPaths).mapError .unreadablePolicy).map fun manifests =>
        s.files.all fun f => manifests f.path && f.previousPath.all manifests
    else .ok false := by
  unfold dependencyBump bumpAuthor
  cases config.allowDependencyBumps <;> cases s.pullRequest.authorIsBot <;>
    cases (config.dependencyBots.any fun configured =>
      loginsMatch configured s.pullRequest.author) <;> rfl

theorem allManifests_iff {manifests : Text → Bool} :
    (files.all fun f => manifests f.path && f.previousPath.all manifests) = true ↔
      ∀ f ∈ files, ∀ path ∈ touched f, manifests path = true := by
  simp [touched, Option.all_eq_true]

/-- What the changed files must be like. -/
structure Content (globs : Globs γ) (config : AutoMerge) (pr : PullRequest)
    (files : List ChangedFile) : Prop where
  changed : files ≠ []
  few : files.length ≤ config.maxFiles
  harmless : Exempt globs config pr files ∨
    Readable globs config pr ∧ Insensitive globs config files ∧ Within config files

theorem contentRefusal_eq_none_iff :
    contentRefusal globs config s = none ↔ Content globs config s.pullRequest s.files := by
  unfold contentRefusal
  by_cases hempty : s.files = []
  · rw [if_pos (by simp [hempty])]
    exact iff_of_false nofun fun h => h.changed hempty
  by_cases hmany : s.files.length > config.maxFiles
  · rw [if_neg (by simpa using hempty), if_pos hmany]
    exact iff_of_false nofun fun h => absurd h.few (Nat.not_le.mpr hmany)
  have hcontent : Content globs config s.pullRequest s.files ↔
      Exempt globs config s.pullRequest s.files ∨ Readable globs config s.pullRequest ∧
        Insensitive globs config s.files ∧ Within config s.files :=
    ⟨fun h => h.harmless, fun h => ⟨hempty, Nat.not_lt.mp hmany, h⟩⟩
  have hrest : (pathRefusal globs config s.files).or (complexityRefusal config s.files) = none ↔
      Insensitive globs config s.files ∧ Within config s.files := by
    rw [Option.or_eq_none_iff, pathRefusal_eq_none_iff, complexityRefusal_eq_none_iff]
  rw [if_neg (by simpa using hempty), if_neg hmany, dependencyBump_eq, hcontent]
  unfold Exempt Readable
  cases hauthor : bumpAuthor config s.pullRequest with
  | false => simp [hrest]
  | true =>
    cases hmanifests : globSet globs config.dependencyPaths with
    | error err => simp [Except.mapError, Except.map]
    | ok manifests =>
      simp only [if_true, Except.mapError, Except.map]
      cases hall : s.files.all fun f => manifests f.path && f.previousPath.all manifests with
      | true => exact iff_of_true rfl (.inl ⟨trivial, manifests, rfl, allManifests_iff.mp hall⟩)
      | false =>
        have hnot : ¬ ∀ f ∈ s.files, ∀ path ∈ touched f, manifests path = true := by
          rw [← allManifests_iff, hall]
          exact Bool.false_ne_true
        simp [hrest, hnot]

theorem directoriesOf_subset (h : files ⊆ more) : directoriesOf files ⊆ directoriesOf more := by
  intro dir hdir
  rw [directoriesOf, List.mem_toFinset, List.mem_map] at hdir ⊢
  obtain ⟨path, hpath, hdir⟩ := hdir
  obtain ⟨f, hf, hpath⟩ := List.mem_flatMap.mp hpath
  exact ⟨path, List.mem_flatMap.mpr ⟨f, h hf, hpath⟩, hdir⟩

theorem sum_map_le (h : files.Subperm more) (count : ChangedFile → ℕ) :
    (files.map count).sum ≤ (more.map count).sum := by
  obtain ⟨kept, hperm, hsub⟩ := h
  rw [← (hperm.map count).sum_eq]
  exact (hsub.map count).sum_le_sum fun _ _ => Nat.zero_le _

/-- A part of an acceptable change is acceptable, in whatever order. -/
theorem Within.of_subperm (h : Within config more) (hpart : files.Subperm more) :
    Within config files := by
  constructor
  · exact fun f hf => h.measurable f (hpart.subset hf)
  · have hsum := sum_map_le hpart ChangedFile.lineCount
    have hlines := h.changedLines
    unfold saturatingAdd at hlines ⊢
    omega
  · exact (sum_map_le hpart _).trans h.hunks
  · exact (Finset.card_le_card (directoriesOf_subset hpart.subset)).trans h.directories

theorem Content.of_subperm {pr : PullRequest} (h : Content globs config pr more)
    (hpart : files.Subperm more) (hne : files ≠ []) : Content globs config pr files := by
  refine ⟨hne, hpart.length_le.trans h.few, ?_⟩
  rcases h.harmless with ⟨hauthor, manifests, hread, hall⟩ | ⟨hread, hpaths, hwithin⟩
  · exact .inl ⟨hauthor, manifests, hread, fun f hf => hall f (hpart.subset hf)⟩
  · obtain ⟨sensitive, hset, hnone⟩ := hpaths
    exact .inr ⟨hread, ⟨sensitive, hset, fun f hf => hnone f (hpart.subset hf)⟩,
      hwithin.of_subperm hpart⟩

theorem Content.perm {pr : PullRequest} {files' : List ChangedFile}
    (h : Content globs config pr files) (hperm : files.Perm files') :
    Content globs config pr files' := by
  refine h.of_subperm hperm.symm.subperm fun hempty => h.changed ?_
  rw [hempty] at hperm
  exact hperm.eq_nil

/-- The run concluded, and not badly. -/
def CheckStatus.Unbroken (c : CheckStatus) : Prop :=
  c.conclusion = some .success ∨ c.conclusion = some .neutral ∨ c.conclusion = some .skipped

/-- The run says that what it checks is in order. -/
def CheckStatus.Evidence (c : CheckStatus) : Prop :=
  c.conclusion = some .success ∨ c.conclusion = some .neutral

theorem brokenCheck_eq_none_iff {c : CheckStatus} : brokenCheck c = none ↔ c.Unbroken := by
  unfold brokenCheck CheckStatus.Unbroken CheckStatus.isPending CheckStatus.isFailing
  rcases c.conclusion with _ | _ | _ | _ | _ | _ <;> simp [CheckConclusion.blocks]

/-- Only the first run of a required name is looked at. -/
theorem requiredRefusal_eq_none_iff {checks : List CheckStatus} {required : Text} :
    requiredRefusal checks required = none ↔
      ∃ c, checks.find? (fun c => c.name = required) = some c ∧ c.Evidence := by
  unfold requiredRefusal CheckStatus.Evidence CheckStatus.isGreen CheckStatus.isInapplicable
  cases checks.find? fun c => c.name = required with
  | none => simp
  | some c => simp [or_iff_not_imp_left]

theorem checkRefusal_eq_none_iff {checks : List CheckStatus} :
    checkRefusal config checks = none ↔ (∀ c ∈ checks, c.Unbroken) ∧
      ∀ required ∈ config.requireChecks,
        ∃ c, checks.find? (fun c => c.name = required) = some c ∧ c.Evidence := by
  unfold checkRefusal
  simp only [Option.or_eq_none_iff, List.findSome?_eq_none_iff, brokenCheck_eq_none_iff,
    requiredRefusal_eq_none_iff]

theorem carries_eq_none_iff {carried configured : List Text} :
    carries carried configured = none ↔ ∀ label ∈ carried,
      (configured.any fun name => eqIgnoreAsciiCase (trim name) (trim label)) = false := by
  simp [carries]

theorem carries_perm {carried carried' : List Text} (h : carried.Perm carried')
    (configured : List Text) : carries carried configured = none ↔ carries carried' configured = none := by
  simp only [carries_eq_none_iff, h.mem_iff]

theorem stateRefusal_eq_none_iff {pr : PullRequest} :
    stateRefusal config pr = none ↔ config.enabled = true ∧ pr.draft = false ∧
      carries pr.labels config.blockLabels = none ∧
      (config.allowLabels = [] ∨ carries pr.labels config.allowLabels ≠ none) ∧
      pr.mergeable = some true := by
  unfold stateRefusal
  cases config.enabled
  · simp
  cases pr.draft
  · cases carries pr.labels config.blockLabels with
    | some label => simp
    | none =>
      by_cases hallow : config.allowLabels = []
      · simp [hallow]
      · cases carries pr.labels config.allowLabels <;> simp [hallow]
  · simp

/-- The same snapshot with its labels, files and checks in another order. -/
structure Reordered (s s' : Snapshot) : Prop where
  labels : s.pullRequest.labels.Perm s'.pullRequest.labels
  files : s.files.Perm s'.files
  checks : s.checks.Perm s'.checks
  rest : s' = { s with
    pullRequest := { s.pullRequest with labels := s'.pullRequest.labels }
    files := s'.files
    checks := s'.checks }

/-- Bad news a check can bring. -/
def CheckStatus.Bad (c : CheckStatus) : Prop :=
  c.isPending = true ∨ c.isFailing = true ∨ c.conclusion = some .skipped

/-- One piece of bad news more, anywhere in its list. -/
inductive Worse (config : AutoMerge) (s : Snapshot) : Snapshot → Prop where
  | check (before after : List CheckStatus) (c : CheckStatus) (h : s.checks = before ++ after)
      (hbad : c.Bad) : Worse config s { s with checks := before ++ c :: after }
  | review (before after : List ReviewVerdict) (r : ReviewVerdict)
      (h : s.reviews = before ++ after) (hblocks : r.isBlocking = true) :
      Worse config s { s with reviews := before ++ r :: after }
  | label (before after : List Text) (label : Text)
      (h : s.pullRequest.labels = before ++ after)
      (hblocked : carries [label] config.blockLabels ≠ none) :
      Worse config s { s with pullRequest :=
        { s.pullRequest with labels := before ++ label :: after } }
  | file (before after : List ChangedFile) (f : ChangedFile) (h : s.files = before ++ after) :
      Worse config s { s with files := before ++ f :: after }

/-- What a merge rests on. -/
structure Vetted (globs : Globs γ) (config : AutoMerge) (s : Snapshot) : Prop where
  checks : ∀ c ∈ s.checks, c.name ∈ config.requireChecks → c.Evidence
  few : s.files.length ≤ config.maxFiles
  harmless : Exempt globs config s.pullRequest s.files ∨
    Insensitive globs config s.files ∧ Within config s.files

/-- The answer does not depend on order, bad news never opens a gate, and a merge is vetted. -/
structure Prudent (globs : Globs γ) (config : AutoMerge) (s : Snapshot) : Prop where
  orderBlind : ∀ s', Reordered s s' →
    (evaluate globs config s').isMerge = (evaluate globs config s).isMerge
  antitone : s.files ≠ [] → ∀ s', Worse config s s' →
    (evaluate globs config s).isMerge = false → (evaluate globs config s').isMerge = false
  vetted : (evaluate globs config s).isMerge = true → Vetted globs config s

/-- All is well, each required name has a run to show for it, and one has a skipped run too. -/
structure Mixed (globs : Globs γ) (config : AutoMerge) (s : Snapshot) : Prop where
  state : stateRefusal config s.pullRequest = none
  reviews : reviewRefusal config s.reviews = none
  content : contentRefusal globs config s = none
  unbroken : ∀ c ∈ s.checks, brokenCheck c = none
  shown : ∀ required ∈ config.requireChecks, ∃ c ∈ s.checks, c.name = required ∧ c.Evidence
  skipped : ∃ c ∈ s.checks, c.name ∈ config.requireChecks ∧ c.conclusion = some .skipped

theorem isMerge_iff : (evaluate globs config s).isMerge = true ↔
    stateRefusal config s.pullRequest = none ∧ reviewRefusal config s.reviews = none ∧
      checkRefusal config s.checks = none ∧ Content globs config s.pullRequest s.files := by
  rw [isMerge_evaluate, refuse_eq_none_iff, contentRefusal_eq_none_iff]

/-- Unless skipped runs are mixed in, the required names may be read in any order. -/
theorem checkRefusal_perm {checks checks' : List CheckStatus} (hperm : checks.Perm checks')
    (hskipped : ∀ c ∈ checks, c.name ∈ config.requireChecks → c.conclusion ≠ some .skipped)
    (h : checkRefusal config checks = none) : checkRefusal config checks' = none := by
  rw [checkRefusal_eq_none_iff] at h ⊢
  refine ⟨fun c hc => h.1 c (hperm.mem_iff.mpr hc), fun required hrequired => ?_⟩
  obtain ⟨c, hfind, -⟩ := h.2 required hrequired
  have hname : c.name = required := by simpa using List.find?_some hfind
  have hsome : (checks'.find? fun c => c.name = required).isSome := by
    rw [List.find?_isSome]
    exact ⟨c, hperm.subset (List.mem_of_find?_eq_some hfind), by simpa using hname⟩
  obtain ⟨c', hc'⟩ := Option.isSome_iff_exists.mp hsome
  have hmem : c' ∈ checks := hperm.mem_iff.mpr (List.mem_of_find?_eq_some hc')
  have hname' : c'.name = required := by simpa using List.find?_some hc'
  refine ⟨c', hc', ?_⟩
  rcases h.1 c' hmem with hgreen | hneutral | hskip
  · exact .inl hgreen
  · exact .inr hneutral
  · exact absurd hskip (hskipped c' hmem (hname' ▸ hrequired))

/-- A skipped run more keeps a required name from being found, never the other way. -/
theorem checkRefusal_of_added {before after : List CheckStatus} {c : CheckStatus} (hbad : c.Bad)
    (h : checkRefusal config (before ++ c :: after) = none) :
    checkRefusal config (before ++ after) = none := by
  rw [checkRefusal_eq_none_iff] at h ⊢
  have hkeep : ∀ d ∈ before ++ after, d ∈ before ++ c :: after := by
    intro d hd
    rcases List.mem_append.mp hd with hd | hd
    · exact List.mem_append_left _ hd
    · exact List.mem_append_right _ (List.mem_cons_of_mem c hd)
  have hskipped : c.conclusion = some .skipped := by
    rcases hbad with hpending | hfailing | hskipped
    · rcases h.1 c (by simp) with hc | hc | hc <;>
        simp [CheckStatus.isPending, hc] at hpending
    · rcases h.1 c (by simp) with hc | hc | hc <;>
        simp [CheckStatus.isFailing, CheckConclusion.blocks, hc] at hfailing
    · exact hskipped
  refine ⟨fun d hd => h.1 d (hkeep d hd), fun required hrequired => ?_⟩
  obtain ⟨d, hfind, hevidence⟩ := h.2 required hrequired
  refine ⟨d, ?_, hevidence⟩
  rw [List.find?_append] at hfind ⊢
  cases hbefore : before.find? fun c => c.name = required with
  | some first => rwa [hbefore] at hfind
  | none =>
    rw [hbefore, Option.none_or, List.find?_cons] at hfind
    split at hfind
    · obtain rfl := Option.some.inj hfind
      rcases hevidence with hd | hd <;> rw [hskipped] at hd <;> cases hd
    · exact hfind

theorem merge_of_worse (hne : s.files ≠ []) (h : Worse config s s')
    (hmerge : (evaluate globs config s').isMerge = true) :
    (evaluate globs config s).isMerge = true := by
  rw [isMerge_iff] at hmerge ⊢
  obtain ⟨hstate, hreview, hcheck, hcontent⟩ := hmerge
  cases h with
  | check before after c hs hbad =>
    refine ⟨hstate, hreview, ?_, hcontent⟩
    rw [hs]
    exact checkRefusal_of_added hbad hcheck
  | review before after r hs hblocks =>
    have hnone := (reviewRefusal_eq_none_iff.mp hreview).1 r (by simp)
    exact absurd (hnone.symm.trans hblocks) Bool.false_ne_true
  | label before after label hs hblocked =>
    have hnone := (stateRefusal_eq_none_iff.mp hstate).2.2.1
    rw [carries_eq_none_iff] at hnone
    refine absurd (carries_eq_none_iff.mpr fun l hl => hnone l ?_) hblocked
    rw [List.mem_singleton.mp hl]
    simp
  | file before after f hs =>
    refine ⟨hstate, hreview, hcheck, hcontent.of_subperm ?_ hne⟩
    rw [hs]
    exact ((List.sublist_cons_self f after).append_left before).subperm

namespace Reordered

variable {s s' : Snapshot}

theorem refl (s : Snapshot) : Reordered s s := ⟨.refl _, .refl _, .refl _, rfl⟩

theorem ofChecks {checks : List CheckStatus} (h : s.checks.Perm checks) :
    Reordered s { s with checks } := ⟨.refl _, .refl _, h, rfl⟩

theorem state_iff (h : Reordered s s') : stateRefusal config s'.pullRequest = none ↔
    stateRefusal config s.pullRequest = none := by
  have hpr : s'.pullRequest = { s.pullRequest with labels := s'.pullRequest.labels } :=
    congrArg Snapshot.pullRequest h.rest
  rw [stateRefusal_eq_none_iff, stateRefusal_eq_none_iff, hpr, ne_eq, ne_eq,
    carries_perm h.labels, carries_perm h.labels]

theorem reviews_eq (h : Reordered s s') : s'.reviews = s.reviews := by
  rw [h.rest]

theorem content_iff (h : Reordered s s') : Content globs config s'.pullRequest s'.files ↔
    Content globs config s.pullRequest s.files := by
  have hpr : s'.pullRequest = { s.pullRequest with labels := s'.pullRequest.labels } :=
    congrArg Snapshot.pullRequest h.rest
  rw [hpr]
  constructor
  · intro hcontent
    have hfiles := hcontent.perm h.files.symm
    exact ⟨hfiles.changed, hfiles.few, hfiles.harmless⟩
  · intro hcontent
    have hfiles := hcontent.perm h.files
    exact ⟨hfiles.changed, hfiles.few, hfiles.harmless⟩

end Reordered

/-- A merge, in some order, despite a skipped run of a required name. -/
theorem mixed_of_merge (h : Reordered s s') (hmerge : (evaluate globs config s').isMerge = true)
    (hskipped : ∃ c ∈ s.checks, c.name ∈ config.requireChecks ∧ c.conclusion = some .skipped) :
    Mixed globs config s := by
  obtain ⟨hstate, hreview, hcheck, hcontent⟩ := isMerge_iff.mp hmerge
  rw [checkRefusal_eq_none_iff] at hcheck
  refine ⟨h.state_iff.mp hstate, h.reviews_eq ▸ hreview,
    contentRefusal_eq_none_iff.mpr (h.content_iff.mp hcontent),
    fun c hc => brokenCheck_eq_none_iff.mpr (hcheck.1 c (h.checks.subset hc)), ?_, hskipped⟩
  intro required hrequired
  obtain ⟨c, hfind, hevidence⟩ := hcheck.2 required hrequired
  refine ⟨c, h.checks.symm.subset (List.mem_of_find?_eq_some hfind), ?_, hevidence⟩
  simpa using List.find?_some hfind

theorem orderBlind_of_unmixed (hmixed : ¬ Mixed globs config s) (h : Reordered s s') :
    (evaluate globs config s').isMerge = (evaluate globs config s).isMerge := by
  by_cases hskipped : ∃ c ∈ s.checks, c.name ∈ config.requireChecks ∧ c.conclusion = some .skipped
  · have hnever : ∀ t, Reordered s t → (evaluate globs config t).isMerge = false := fun t ht =>
      Bool.eq_false_iff.mpr fun hmerge => hmixed (mixed_of_merge ht hmerge hskipped)
    rw [hnever s' h, hnever s (.refl s)]
  · push Not at hskipped
    rw [Bool.eq_iff_iff, isMerge_iff, isMerge_iff, h.state_iff, h.reviews_eq, h.content_iff]
    have hchecks : checkRefusal config s'.checks = none ↔ checkRefusal config s.checks = none :=
      ⟨checkRefusal_perm h.checks.symm fun c hc => hskipped c (h.checks.symm.subset hc),
        checkRefusal_perm h.checks hskipped⟩
    rw [hchecks]

theorem vetted_of_merge (hmixed : ¬ Mixed globs config s)
    (hmerge : (evaluate globs config s).isMerge = true) : Vetted globs config s := by
  obtain ⟨-, -, hcheck, hcontent⟩ := isMerge_iff.mp hmerge
  refine ⟨fun c hc hrequired => ?_, hcontent.few, hcontent.harmless.imp_right And.right⟩
  rcases (checkRefusal_eq_none_iff.mp hcheck).1 c hc with hgreen | hneutral | hskipped
  · exact .inl hgreen
  · exact .inr hneutral
  · exact absurd (mixed_of_merge (.refl s) hmerge ⟨c, hc, hrequired, hskipped⟩) hmixed

instance (c : CheckStatus) : Decidable c.Evidence := inferInstanceAs (Decidable (_ ∨ _))

def evident (checks : List CheckStatus) : List CheckStatus := checks.filter fun c => c.Evidence

def inevident (checks : List CheckStatus) : List CheckStatus := checks.filter fun c => ¬ c.Evidence

theorem perm_evident (checks : List CheckStatus) :
    checks.Perm (evident checks ++ inevident checks) := by
  simpa [evident, inevident] using
    (List.filter_append_perm (fun c => decide c.Evidence) checks).symm

/-- With the good runs in front the change is merged. -/
theorem merge_of_evident_first (h : Mixed globs config s) : (evaluate globs config { s with
      checks := evident s.checks ++ inevident s.checks }).isMerge = true := by
  rw [isMerge_iff]
  refine ⟨h.state, h.reviews, checkRefusal_eq_none_iff.mpr ⟨fun c hc => ?_,
    fun required hrequired => ?_⟩, contentRefusal_eq_none_iff.mp h.content⟩
  · exact brokenCheck_eq_none_iff.mp (h.unbroken c ((perm_evident s.checks).symm.subset hc))
  · obtain ⟨c, hc, hname, hevidence⟩ := h.shown required hrequired
    have hsome : ((evident s.checks).find? fun c => c.name = required).isSome := by
      rw [List.find?_isSome]
      exact ⟨c, List.mem_filter.mpr ⟨hc, decide_eq_true hevidence⟩, decide_eq_true hname⟩
    obtain ⟨first, hfirst⟩ := Option.isSome_iff_exists.mp hsome
    have hmem := List.mem_filter.mp (List.mem_of_find?_eq_some hfirst)
    exact ⟨first, by rw [List.find?_append, hfirst]; rfl, of_decide_eq_true hmem.2⟩

/-- With the good runs last it is not. -/
theorem refuse_of_evident_last (h : Mixed globs config s) : (evaluate globs config { s with
      checks := inevident s.checks ++ evident s.checks }).isMerge = false := by
  rw [Bool.eq_false_iff]
  intro hmerge
  obtain ⟨-, -, hcheck, -⟩ := isMerge_iff.mp hmerge
  obtain ⟨c, hc, hrequired, hskipped⟩ := h.skipped
  have hno : ¬ c.Evidence := by simp [CheckStatus.Evidence, hskipped]
  have hsome : ((inevident s.checks).find? fun d => d.name = c.name).isSome := by
    rw [List.find?_isSome]
    exact ⟨c, List.mem_filter.mpr ⟨hc, decide_eq_true hno⟩, decide_eq_true rfl⟩
  obtain ⟨first, hfirst⟩ := Option.isSome_iff_exists.mp hsome
  obtain ⟨found, hfind, hevidence⟩ := (checkRefusal_eq_none_iff.mp hcheck).2 c.name hrequired
  rw [List.find?_append, hfirst, Option.some_or] at hfind
  obtain rfl := Option.some.inj hfind
  have hmem := List.mem_filter.mp (List.mem_of_find?_eq_some hfirst)
  exact absurd hevidence (of_decide_eq_true hmem.2)

/-- The policy is prudent unless a required name has skipped runs beside good ones and nothing
else is amiss. -/
theorem prudent_iff (globs : Globs γ) (config : AutoMerge) (s : Snapshot) :
    Prudent globs config s ↔ ¬ Mixed globs config s := by
  constructor
  · intro h hmixed
    have hperm := perm_evident s.checks
    have hmerge := merge_of_evident_first hmixed
    have hrefuse := refuse_of_evident_last hmixed
    rw [h.orderBlind _ (.ofChecks hperm)] at hmerge
    rw [h.orderBlind _ (.ofChecks (hperm.trans List.perm_append_comm)), hmerge] at hrefuse
    cases hrefuse
  · intro hmixed
    refine ⟨fun s' => orderBlind_of_unmixed hmixed, fun hne s' hworse hrefuse => ?_,
      vetted_of_merge hmixed⟩
    by_contra hmerge
    rw [Bool.not_eq_false] at hmerge
    rw [merge_of_worse hne hworse hmerge] at hrefuse
    cases hrefuse

end Gates

/-- The policy that wants the check `ci` and no approval. -/
def wantsCi : AutoMerge := { careful with requireChecks := ["ci".toList], requireApprovals := 0 }

def checkedBy (checks : List CheckStatus) : Snapshot := { reviewed [] with checks }

def ciPassed : CheckStatus := ⟨"ci".toList, some .success⟩

def ciSkipped : CheckStatus := ⟨"ci".toList, some .skipped⟩

/-- A passed and a skipped run of the required check merge in one order and not in the other. -/
theorem skipped_twin_merges :
    (evaluate literalGlobs wantsCi (checkedBy [ciPassed, ciSkipped])).isMerge = true ∧
      (evaluate literalGlobs wantsCi (checkedBy [ciSkipped, ciPassed])).isMerge = false ∧
      ¬ Prudent literalGlobs wantsCi (checkedBy [ciPassed, ciSkipped]) := by
  have hmerge : (evaluate literalGlobs wantsCi
      (checkedBy [ciPassed, ciSkipped])).isMerge = true := by decide +kernel
  refine ⟨hmerge, by decide +kernel, fun h => ?_⟩
  have hchecks := (h.vetted hmerge).checks ciSkipped (by decide) (by decide)
  exact absurd hchecks (by decide)

end TinySweeper.Automerge
