import TinySweeper.Indexer.Kept
import TinySweeper.Indexer.Selector
import TinySweeper.Indexer.Whole

/-!
# Histories of runs

Runs follow one another over one manifest and one index. In any of them any call can fail,
with any of its writes landed, and the process can stop; its claim is then gone after a
time.
-/

namespace TinySweeper.Index

open Text Interrupt FileWork Indexer

/-- A run over one checkout: of all of it, or of the paths a push touched. -/
structure Job where
  indexer : Indexer
  checkout : Checkout
  revision : Text
  paths : Option (List Text)

namespace Indexer

variable (sha256 : Text → List UInt8)

/-- What this indexer does to a repository, where these paths are removed. -/
def task (indexer : Indexer) (repo : RepoName) (content : Text → Content) (removed : List Text) :
    Task sha256 where
  repo
  signature := indexer.signature
  chunksOf path := (indexer.chunker.chunkBytes sha256 repo.text path (content path)).toOption
  removed
  own := by
    intro path chunks hchunks chunk hchunk
    cases hcontent : content path with
    | unreadable message => rw [hcontent] at hchunks; cases hchunks
    | notText => rw [hcontent] at hchunks; cases hchunks
    | text source =>
      rw [hcontent, Chunker.chunkBytes] at hchunks
      split at hchunks
      · cases hchunks
      · obtain rfl := Option.some.inj hchunks
        obtain ⟨span, _, rfl⟩ := List.mem_map.mp hchunk
        exact ⟨rfl, rfl, rfl, repo.plain⟩

end Indexer

namespace Job

variable (sha256 : Text → List UInt8) (job : Job) (repo : RepoName) (s : Stores)

def run : Port IndexOutcome :=
  match job.paths with
  | none => job.indexer.indexRepo repo.text sha256 job.checkout job.revision
  | some paths => job.indexer.indexPaths repo.text sha256 job.checkout job.revision paths

/-- What the run selects: a list of changed paths can not establish a baseline. -/
def selection : Except Text Selection :=
  match job.paths with
  | none => job.indexer.walked job.checkout
  | some paths =>
    if (s.snapshot repo.text job.indexer.signature).revision.isNone then
      job.indexer.walked job.checkout
    else .ok (job.indexer.touched job.checkout paths)

def selected : List Text := ((job.selection repo s).toOption.map Selection.selected).getD []

def removed : List Text :=
  ((job.selection repo s).toOption.map fun selection =>
    job.indexer.removable (job.indexer.removedOf selection.selected
      (s.paths repo.text job.indexer.signature) selection.removed)).getD []

def task : Task sha256 := job.indexer.task sha256 repo job.checkout.content (job.removed repo s)

/-- The chunks of a file of the checkout, if it can be read. -/
def chunksOf (path : Text) : Option (List Chunk) :=
  (job.indexer.chunker.chunkBytes sha256 repo.text path (job.checkout.content path)).toOption

/-- The run from these stores, with its calls going by this plan. -/
def runFrom (plan : List (Option (Fault Text))) :
    Outcome Text IndexOutcome × Machine Session Effect Text :=
  job.run sha256 repo ⟨⟨⟨s, .default⟩, []⟩, plan⟩

end Job

namespace Indexer

variable {indexer : Indexer} {selected known paths : List Text} {path : Text}

theorem mem_select {files : List (Text × ℕ)} (h : path ∈ (indexer.select files).1) :
    ∃ size, (path, size) ∈ files ∧ indexer.reject path size = none := by
  obtain ⟨file, hfile, hkept⟩ := List.mem_filterMap.mp h
  obtain ⟨hnone, hpath⟩ := Option.ite_none_right_eq_some.mp hkept
  obtain rfl := Option.some.inj hpath
  exact ⟨file.2, hfile, Option.isNone_iff_eq_none.mp hnone⟩

theorem mem_select_skipped {files : List (Text × ℕ)} {skipped : SkippedFile}
    (h : skipped ∈ (indexer.select files).2) :
    ∃ size, (skipped.path, size) ∈ files ∧ indexer.reject skipped.path size ≠ none := by
  obtain ⟨file, hfile, hskipped⟩ := List.mem_filterMap.mp h
  obtain ⟨reason, hreason, rfl⟩ := Option.map_eq_some_iff.mp hskipped
  exact ⟨file.2, hfile, fun hnone => Option.some_ne_none _ (hreason.symm.trans hnone)⟩

theorem mem_removedOf_these (h : path ∈ indexer.removedOf selected known (.these paths))
    (hselected : path ∈ selected) : path ∈ paths := by
  rw [removedOf] at h
  induction known generalizing paths with
  | nil => exact h
  | cons other known ih =>
    have hstep := ih h
    dsimp only at hstep
    split at hstep
    next hnew =>
      rcases List.mem_append.mp hstep with hpath | hpath
      · exact hpath
      · rw [List.mem_singleton.mp hpath] at hselected
        simp [hselected] at hnew
    next => exact hstep

/-- What is selected is not removed. -/
theorem notMem_removed_walked {checkout : Checkout} {selection : Selection}
    (h : indexer.walked checkout = .ok selection) (hpath : path ∈ selection.selected) :
    path ∉ indexer.removedOf selection.selected known selection.removed := by
  rw [walked] at h
  cases hwalk : checkout.walk with
  | error err => rw [hwalk] at h; cases h
  | ok found =>
    rw [hwalk] at h
    injection h with h
    subst h
    intro hremoved
    have hnot := (List.mem_filter.mp hremoved).2
    simp [hpath] at hnot

theorem notMem_removed_touched {checkout : Checkout}
    (hpath : path ∈ (indexer.touched checkout paths).selected) :
    path ∉ indexer.removedOf (indexer.touched checkout paths).selected known
      (indexer.touched checkout paths).removed := by
  intro hremoved
  obtain ⟨size, hsized, hkept⟩ := mem_select hpath
  have hsize : ∀ {path size}, (path, size) ∈ paths.filterMap (fun path =>
      (sizeOf checkout path).map fun size => (path, size)) → sizeOf checkout path = some size := by
    intro path size hmem
    obtain ⟨path', _, hfound⟩ := List.mem_filterMap.mp hmem
    obtain ⟨size', hsize', heq⟩ := Option.map_eq_some_iff.mp hfound
    injection heq with hpath hsize
    exact hpath ▸ hsize ▸ hsize'
  rcases List.mem_append.mp (mem_removedOf_these hremoved hpath) with hgone | hskipped
  · have hnone := (List.mem_filter.mp hgone).2
    rw [hsize hsized] at hnone
    cases hnone
  · obtain ⟨skipped, hmem, rfl⟩ := List.mem_map.mp hskipped
    obtain ⟨size', hsized', hrejected⟩ := mem_select_skipped hmem
    rw [Option.some.inj ((hsize hsized').symm.trans (hsize hsized))] at hrejected
    exact hrejected hkept

end Indexer

namespace Job

variable {sha256 : Text → List UInt8} {job : Job} {repo : RepoName} {s : Stores}
variable {faults : Prop} {r : IndexReport}

theorem removed_eq {selection : Selection} (h : job.selection repo s = .ok selection) :
    job.removed repo s = job.indexer.removable (job.indexer.removedOf selection.selected
      (s.paths repo.text job.indexer.signature) selection.removed) := by
  rw [removed, h]
  rfl

theorem selected_eq {selection : Selection} (h : job.selection repo s = .ok selection) :
    job.selected repo s = selection.selected := by
  rw [selected, h]
  rfl

variable (sha256) in
theorem notMem_removed {path : Text} (hpath : path ∈ job.selected repo s) :
    path ∉ (job.task sha256 repo s).removed := by
  change path ∉ job.removed repo s
  cases hselection : job.selection repo s with
  | error err =>
    rw [selected, hselection] at hpath
    exact absurd hpath List.not_mem_nil
  | ok selection =>
    rw [selected_eq hselection] at hpath
    rw [removed_eq hselection]
    refine fun hremoved => absurd (List.mem_filter.mp hremoved).1 ?_
    rw [Job.selection] at hselection
    split at hselection
    · exact notMem_removed_walked hselection hpath
    · split at hselection
      · exact notMem_removed_walked hselection hpath
      · injection hselection with hselection
        subst hselection
        exact notMem_removed_touched hpath

theorem served : (job.task sha256 repo s).Served job.indexer job.checkout.content :=
  ⟨rfl, fun _ => rfl⟩

variable (sha256 job repo s) in
/-- How a run ends. -/
def Ended (outcome : IndexOutcome) (y : Track) (r : IndexReport) : Prop :=
  match outcome with
  | .indexed report => r = report ∧
    (report.budgetExhausted = true ∨ (job.task sha256 repo s).Finished s (job.selected repo s) y)
  | .requeue _ => (s.entry repo.text job.indexer.signature).lease ≠ none ∧ y = ([], s)
  | .alreadyFresh => (s.snapshot repo.text job.indexer.signature).isFresh job.revision = true ∧
    y = ([], s)

theorem ensures_guarded {selection : Selection} (hselection : job.selection repo s = .ok selection)
    (hsound : s.Sound sha256) (hledger : s.Ledger repo.text job.indexer.signature)
    (hsources : faults ∨ (job.task sha256 repo s).Sourced s (job.selected repo s)) :
    Ensures faults (fun w => Track.of w = ([], s) ∧ w.state.report = r)
      (job.indexer.guarded repo.text sha256 job.checkout.content job.revision selection.selected
        selection.skipped selection.removed)
      (fun outcome => (job.task sha256 repo s).At s (job.Ended sha256 repo s outcome))
      ((job.task sha256 repo s).Cut s faults) := by
  rw [selected_eq hselection] at hsources
  refine (Task.ensures_guarded served hsound hledger (removed_eq hselection) ?_ hsources).weaken
    (fun _ h => h) (fun outcome w h => ⟨h.1, ?_⟩) fun _ _ h => h
  · exact fun path hpath => notMem_removed sha256 (selected_eq hselection ▸ hpath)
  · have hended := h.2
    cases outcome with
    | indexed report =>
      rw [Ended, selected_eq hselection]
      exact hended
    | alreadyFresh => exact hended.elim
    | requeue holder => exact hended

theorem ensures_indexRepo (hselection : job.selection repo s = job.indexer.walked job.checkout)
    (hsound : s.Sound sha256) (hledger : s.Ledger repo.text job.indexer.signature)
    (hsources : faults ∨ (job.task sha256 repo s).Sourced s (job.selected repo s))
    (hwalk : faults ∨ ∃ selection, job.selection repo s = .ok selection) :
    Ensures faults (fun w => Track.of w = ([], s) ∧ w.state.report = r)
      (job.indexer.indexRepo repo.text sha256 job.checkout job.revision)
      (fun outcome => (job.task sha256 repo s).At s (job.Ended sha256 repo s outcome))
      ((job.task sha256 repo s).Cut s faults) := by
  rw [indexRepo]
  refine Ensures.bind (Task.ensures_read .refl (Q := fun state y _ =>
    state = s.snapshot repo.text job.indexer.signature ∧ y = ([], s)) ⟨rfl, rfl⟩) fun state => ?_
  refine Task.ensures_at fun y r' _ hstate => ?_
  obtain ⟨rfl, rfl⟩ := hstate
  split
  next hfresh => exact ensures_pure fun w hw => ⟨hw.1 ▸ .refl, hfresh, hw.1⟩
  next =>
    cases hwalked : job.indexer.walked job.checkout with
    | error err =>
      refine ensures_raise fun w hw => ⟨hw.1 ▸ .refl, hwalk.resolve_right ?_⟩
      rintro ⟨selection, hok⟩
      rw [hok, hwalked] at hselection
      cases hselection
    | ok selection => exact ensures_guarded (hselection.trans hwalked) hsound hledger hsources

/-- A run keeps to the protocol, and where nothing fails and all that moved can be copied it
comes to its end. -/
theorem ensures_run (hsound : s.Sound sha256) (hledger : s.Ledger repo.text job.indexer.signature)
    (hsources : faults ∨ (job.task sha256 repo s).Sourced s (job.selected repo s))
    (hwalk : faults ∨ ∃ selection, job.selection repo s = .ok selection) :
    Ensures faults (fun w => Track.of w = ([], s) ∧ w.state.report = r) (job.run sha256 repo)
      (fun outcome => (job.task sha256 repo s).At s (job.Ended sha256 repo s outcome))
      ((job.task sha256 repo s).Cut s faults) := by
  rw [run]
  cases hpaths : job.paths with
  | none =>
    refine ensures_indexRepo ?_ hsound hledger hsources hwalk
    rw [selection, hpaths]
  | some paths =>
    dsimp only
    rw [indexPaths]
    refine Ensures.bind (Task.ensures_read .refl (Q := fun state y _ =>
      state = s.snapshot repo.text job.indexer.signature ∧ y = ([], s)) ⟨rfl, rfl⟩) fun state => ?_
    refine Task.ensures_at fun y r' _ hstate => ?_
    obtain ⟨rfl, rfl⟩ := hstate
    split
    next hnone =>
      refine ensures_indexRepo ?_ hsound hledger hsources hwalk
      rw [selection, hpaths]
      exact if_pos hnone
    next hsome =>
      refine ensures_guarded ?_ hsound hledger hsources
      rw [selection, hpaths]
      exact if_neg hsome

variable (job repo) in
/-- What lands of a run, wherever it is cut off. -/
theorem steps_runFrom (hsound : s.Sound sha256)
    (hledger : s.Ledger repo.text job.indexer.signature) (plan : List (Option (Fault Text))) :
    (job.task sha256 repo s).Steps s ((job.runFrom sha256 repo s plan).2.landed)
      (job.runFrom sha256 repo s plan).2.state.stores := by
  have h := @ensures_run sha256 job repo s True .default hsound hledger (.inl trivial) (.inl trivial)
    ⟨⟨⟨s, .default⟩, []⟩, plan⟩ (fun _ => trivial) ⟨rfl, rfl⟩
  rw [runFrom]
  rcases hend : job.run sha256 repo ⟨⟨⟨s, .default⟩, []⟩, plan⟩ with ⟨answer, m⟩
  rw [hend] at h
  cases answer with
  | done outcome => exact h.1.1
  | failed err => exact h.1.1
  | stopped => exact h.1

end Job

/-- A run on a repository, with the way its calls go. -/
structure Run where
  repo : RepoName
  job : Job
  plan : List (Option (Fault Text))

namespace Run

variable (sha256 : Text → List UInt8) (run : Run) (s : Stores)

def after : Stores := (run.job.runFrom sha256 run.repo s run.plan).2.state.stores

def landed : List Effect := (run.job.runFrom sha256 run.repo s run.plan).2.landed

/-- For every path whose counted rows were taken, the write that takes their ids off the record
landed as well. -/
def Closes : Prop := ∀ path, leftOpen path (run.landed sha256 s) = false

end Run

/-- What runs under one signature come to, where each meets a condition. -/
inductive Reachable (sha256 : Text → List UInt8) (signature : Text)
    (meets : Run → Stores → Prop) : Stores → Prop where
  | empty : Reachable sha256 signature meets .empty
  | run {s} (run : Run) (h : Reachable sha256 signature meets s)
      (hsignature : run.job.indexer.signature = signature) (hmeets : meets run s) :
      Reachable sha256 signature meets (run.after sha256 s)
  | expire {s} (repoId : Text) (h : Reachable sha256 signature meets s) :
      Reachable sha256 signature meets (s.expire repoId signature)

namespace Sample

/-- SHA-256, of the texts that are indexed. -/
def sha256 (text : Text) : List UInt8 :=
  let digest := (digests.lookup text).getD 0
  (List.range 32).map fun i => UInt8.ofNat (digest / 256 ^ (31 - i))
where
  digests : List (Text × ℕ) :=
    [("x".toList, 0x2d711642b726b04401627ca9fbac32f5c8530fb1903cc4db02258717921a4881),
      ("y".toList, 0xa1fce4363854ff888cff4b8e7875d600c2682390412a8cf79b37d0b11148b0fa)]

def repo : RepoName := ⟨"o/r".toList, by decide⟩

/-- Without grammars every file is split on lines. -/
def chunker : Chunker :=
  ⟨fun _ source => TinySweeper.Chunk.split source 1 ⟨1800, 14400, 8000⟩, labelOf⟩

/-- A policy that ignores nothing. -/
def selector : Selector := ⟨fun _ => none, DEFAULT_MAX_BYTES⟩

def indexer : Indexer where
  signature := "m".toList
  ofCall _ := .none
  charge _ := .none
  chunker := chunker
  reject := selector.reject
  batch := 8
  maxBatchTokens := 100
  group := 2
  budgetUsd := none
  holder := "w".toList
  revoked := []
  missing := []

/-- A checkout with these files. -/
def checkout (files : List (Text × Text)) : Checkout where
  walk := .ok (files.map fun file => (file.1, utf8Len file.2), [])
  stat path := (files.find? fun file => file.1 = path).map fun file => utf8Len file.2
  content path :=
    match files.find? fun file => file.1 = path with
    | none => .unreadable []
    | some file => .text file.2

def job (revision : Text) (files : List (Text × Text)) : Job :=
  ⟨indexer, checkout files, revision, none⟩

/-- The file is indexed. -/
def added : Run := ⟨repo, job "1".toList [("a.rs".toList, "x".toList)], []⟩

/-- The file changed; its old row is deleted. -/
def edited : Run := ⟨repo, job "2".toList [("a.rs".toList, "y".toList)], []⟩

/-- The file is gone; its rows are deleted, and the call that forgets it fails. -/
def removed : Run :=
  ⟨repo, job "2".toList [], List.replicate 7 none ++ [some (.fails (fun _ => false) "down".toList)]⟩

end Sample

end TinySweeper.Index
