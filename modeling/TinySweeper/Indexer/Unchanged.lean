import TinySweeper.Indexer.Converge
import TinySweeper.Indexer.Sent

/-!
# Runs over an unchanged tree

Where a file's record names exactly its chunks, its plan is empty. A run whose every plan
is empty, and that removes no path, writes no row, and each record it rewrites confirms the
ids that it confirmed before.
-/

namespace TinySweeper.Index

open Text Interrupt FileWork Indexer

/-- The ids that are confirmed of a file. -/
def confirmedOf (record : Option IndexedFile) : List Text := record.elim [] IndexedFile.chunks

/-- A record that confirms exactly these chunks, and awaits no other. -/
structure IndexedFile.Of (chunks : List Chunk) (file : IndexedFile) : Prop where
  confirmed : ∀ id, id ∈ file.chunks ↔ id ∈ chunks.map Chunk.id
  pending : ∀ id ∈ file.pending, id ∈ chunks.map Chunk.id

namespace IndexedFile.Of

variable {path : Text} {chunks : List Chunk} {file : IndexedFile} {record : Option IndexedFile}

theorem counted (h : file.Of chunks) {id : Text} :
    id ∈ countedOf (some file) ↔ id ∈ chunks.map Chunk.id := by
  change id ∈ file.counted ↔ _
  rw [IndexedFile.counted, List.mem_append, h.confirmed]
  refine or_iff_left_of_imp fun hpending => ?_
  split at hpending
  · exact h.pending id hpending
  · exact absurd hpending List.not_mem_nil

theorem uncounted (h : file.Of chunks) {id : Text} (hid : id ∈ file.uncounted) :
    id ∈ chunks.map Chunk.id := by
  rw [IndexedFile.uncounted] at hid
  split at hid
  · exact absurd hid List.not_mem_nil
  · exact h.pending id hid

/-- What is confirmed as it is now has nothing superseded, and nothing to clear. -/
theorem notMem_stale (h : file.Of chunks) (id : Text) :
    id ∉ (new path chunks (some file)).stale :=
  fun hid => (mem_stale.mp hid).2 (h.counted.mp (mem_stale.mp hid).1)

theorem notMem_orphans (h : file.Of chunks) (id : Text) :
    id ∉ (new path chunks (some file)).orphans :=
  fun hid => (mem_orphans.mp hid).2.1 (h.uncounted (mem_orphans.mp hid).1)

theorem notMem_toEmbed (h : file.Of chunks) (chunk : Chunk) :
    chunk ∉ (new path chunks (some file)).toEmbed :=
  fun hchunk => (mem_toEmbed hchunk).2 (h.counted.mpr (List.mem_map_of_mem (mem_toEmbed hchunk).1))

theorem notMem_toRelocate (h : file.Of chunks) (moved : Text × Chunk) :
    moved ∉ (new path chunks (some file)).toRelocate := by
  intro hmoved
  obtain ⟨hchunk, hcounted, _⟩ := mem_toRelocate hmoved
  exact hcounted (h.counted.mpr (List.mem_map_of_mem hchunk))

theorem intent (h : file.Of chunks) : (new path chunks (some file)).intent.Of chunks where
  confirmed id := (@mem_previous path chunks (some file) id).trans h.counted
  pending id hid := by
    rcases mem_pending_intent.mp hid with hid | hid | hid
    · exact hid
    · exact absurd hid (h.notMem_stale id)
    · exact absurd hid (h.notMem_orphans id)

/-- An intent that awaits only chunks of the file plans nothing else. -/
theorem superseded_of_intent (h : (new path chunks record).intent.Of chunks) (id : Text) :
    id ∉ (new path chunks record).stale ∧ id ∉ (new path chunks record).orphans := by
  constructor
  · intro hid
    exact (mem_stale.mp hid).2 (h.pending id (mem_pending_intent.mpr (.inr (.inl hid))))
  · intro hid
    exact (mem_orphans.mp hid).2.1 (h.pending id (mem_pending_intent.mpr (.inr (.inr hid))))

theorem confirmation_of_intent (h : (new path chunks record).intent.Of chunks) :
    (new path chunks record).confirmation.Of chunks where
  confirmed _ := Iff.rfl
  pending id hid := absurd hid (h.superseded_of_intent id).1

theorem finalized : (new path chunks record).finalized.Of chunks where
  confirmed _ := Iff.rfl
  pending _ hid := absurd hid List.not_mem_nil

end IndexedFile.Of

/-- A row is written, or deleted. -/
def Effect.isRow : Effect → Bool
  | .insert _ | .remove .. => true
  | _ => false

namespace Task

variable {sha256 : Text → List UInt8} {t : Task sha256} {s s' : Stores} {es : List Effect}
variable {path : Text} {chunks : List Chunk} {file : IndexedFile}

variable (t) in
/-- Nothing is removed, and every record of a file the task has chunks of is as the file is. -/
structure Idle (s : Stores) : Prop where
  removed : t.removed = []
  record : ∀ path chunks, t.chunksOf path = some chunks →
    ∃ file, t.record s path = some file ∧ file.Of chunks

/-- These stores have the rows of those before, and confirm what those confirm. -/
structure Alike (s s' : Stores) : Prop where
  rows : s'.rows = s.rows
  confirmed : ∀ repoId signature path id, id ∈ confirmedOf (s'.record repoId signature path) ↔
    id ∈ confirmedOf (s.record repoId signature path)

theorem Alike.refl (s : Stores) : Alike s s := ⟨rfl, fun _ _ _ _ => Iff.rfl⟩

theorem Alike.trans {s'' : Stores} (h : Alike s s') (h' : Alike s' s'') : Alike s s'' :=
  ⟨h'.rows.trans h.rows, fun repoId signature path id =>
    (h'.confirmed repoId signature path id).trans (h.confirmed repoId signature path id)⟩

/-- A record is rewritten by one of the same chunks. -/
theorem Idle.rewrite (h : t.Idle s) (hchunks : t.chunksOf file.path = some chunks)
    (hof : file.Of chunks) :
    t.Idle ((Effect.record (t.entry file)).apply s) ∧
      Alike s ((Effect.record (t.entry file)).apply s) := by
  refine ⟨⟨h.removed, fun path chunks' hchunks' => ?_⟩, rfl, fun repoId signature path id => ?_⟩
  · rw [record_entry]
    split
    next hpath =>
      subst hpath
      obtain rfl := Option.some.inj (hchunks.symm.trans hchunks')
      exact ⟨file, rfl, hof⟩
    next => exact h.record path chunks' hchunks'
  · rw [record_record]
    split
    next hkey =>
      obtain ⟨hrepo, hrest⟩ := Prod.mk.inj hkey
      obtain ⟨hsignature, hpath⟩ := Prod.mk.inj hrest
      obtain ⟨old, hold, hofOld⟩ := h.record file.path chunks hchunks
      change repoId = t.repo.text at hrepo
      change signature = t.signature at hsignature
      change path = file.path at hpath
      rw [hrepo, hsignature, hpath]
      change id ∈ file.chunks ↔ id ∈ confirmedOf (t.record s file.path)
      rw [hold]
      exact (hof.confirmed id).trans (hofOld.confirmed id).symm
    next => exact Iff.rfl

/-- No write that an idle task allows touches a row. -/
theorem Idle.step (h : t.Idle s) {e : Effect} (he : t.Allows es s e) :
    e.isRow = false ∧ t.Idle (e.apply s) ∧ Alike s (e.apply s) := by
  have hnone : ∀ {path}, path ∉ t.removed := fun hpath => List.not_mem_nil (h.removed ▸ hpath)
  have hof : ∀ {path chunks file}, t.Plans path chunks → t.record s path = some file →
      file.Of chunks := by
    intro path chunks file hplan hrecord
    obtain ⟨file', hrecord', hof⟩ := h.record path chunks hplan.chunksOf
    rwa [← Option.some.inj (hrecord'.symm.trans hrecord)]
  cases he with
  | @intend path chunks record hplan hclosed hrecord =>
    refine ⟨rfl, h.rewrite hplan.chunksOf ?_⟩
    rcases hrecord with rfl | hrecord
    · obtain ⟨file, hrecord, hfile⟩ := h.record path chunks hplan.chunksOf
      rw [hrecord]
      exact hfile.intent
    · exact hof hplan hrecord
  | @land path chunks record chunk hplan hrecord hchunk hnew =>
    have hmem := ((hof hplan hrecord).confirmed chunk.id).mpr (List.mem_map_of_mem hchunk)
    exact absurd ((@mem_previous path chunks record chunk.id).mp hmem) hnew
  | @clear path chunks record row hplan hrecord hrow hrepo horphan =>
    exact absurd horphan ((hof hplan hrecord).superseded_of_intent row.id).2
  | @confirm path chunks record hplan hrecord hnew horphans =>
    refine ⟨rfl, h.rewrite hplan.chunksOf ?_⟩
    rcases hrecord with hrecord | hrecord
    · exact (hof hplan hrecord).confirmation_of_intent
    · exact hof hplan hrecord
  | @supersede path chunks record row hplan hrecord hrow hrepo hstale =>
    exact absurd ((hof hplan hrecord).pending row.id hstale) (mem_stale.mp hstale).2
  | @finalize path chunks record hplan hrecord hstale =>
    exact ⟨rfl, h.rewrite hplan.chunksOf .finalized⟩
  | withdraw hremoved => exact absurd hremoved hnone
  | sweep hremoved => exact absurd hremoved hnone
  | forget hremoved => exact absurd hremoved hnone
  | claim holder =>
    exact ⟨rfl, ⟨h.removed, fun path chunks hchunks => h.record path chunks hchunks⟩,
      rfl, fun _ _ _ _ => Iff.rfl⟩
  | release lease settled =>
    refine ⟨rfl, ⟨h.removed, fun path chunks hchunks => ?_⟩, rows_release lease settled,
      fun _ _ _ _ => by rw [record_release]⟩
    rw [Task.record, record_release]
    exact h.record path chunks hchunks

/-- A run of an idle task leaves every row, and confirms what was confirmed. -/
theorem Idle.steps (h : t.Idle s) (hsteps : t.Steps s es s') :
    (∀ e ∈ es, e.isRow = false) ∧ t.Idle s' ∧ Alike s s' := by
  induction hsteps with
  | refl => exact ⟨nofun, h, .refl s⟩
  | @snoc es s' e _ he ih =>
    obtain ⟨hrows, hidle, halike⟩ := ih
    obtain ⟨hrow, hidle', halike'⟩ := hidle.step he
    refine ⟨fun e' he' => ?_, hidle', halike.trans halike'⟩
    rcases List.mem_append.mp he' with he' | he'
    · exact hrows e' he'
    · rw [List.mem_singleton.mp he']
      exact hrow

end Task

section Reading

variable {indexer : Indexer} {repoId revision : Text} {sha256 : Text → List UInt8}
variable {content content' : Text → Content} {selected : List Text}

theorem indexGroup_congr {group : List Text} (h : ∀ path ∈ group, content path = content' path) :
    indexer.indexGroup repoId sha256 content group =
      indexer.indexGroup repoId sha256 content' group := by
  have hplans : ∀ known, group.map (indexer.planFile repoId sha256 content known) =
      group.map (indexer.planFile repoId sha256 content' known) := by
    refine fun known => List.map_congr_left fun path hpath => ?_
    rw [planFile, planFile, h path hpath]
  simp only [indexGroup, hplans]

theorem indexGroups_congr {groups : List (List Text)}
    (h : ∀ path ∈ groups.flatten, content path = content' path) :
    indexer.indexGroups repoId sha256 content groups =
      indexer.indexGroups repoId sha256 content' groups := by
  induction groups with
  | nil => rfl
  | cons group groups ih =>
    rw [indexGroups, indexGroups,
      indexGroup_congr fun path hpath => h path (List.mem_append_left _ hpath),
      ih fun path hpath => h path (List.mem_append_right _ hpath)]

/-- A run reads the files it selected, and no others. -/
theorem guarded_congr (h : ∀ path ∈ selected, content path = content' path)
    (skipped : List SkippedFile) (removed : Removed) :
    indexer.guarded repoId sha256 content revision selected skipped removed =
      indexer.guarded repoId sha256 content' revision selected skipped removed := by
  have hgroups : indexer.indexGroups repoId sha256 content (selected.toChunks (max indexer.group 1)) =
      indexer.indexGroups repoId sha256 content' (selected.toChunks (max indexer.group 1)) :=
    indexGroups_congr fun path hpath => h path (Task.flatten_toChunks selected _ ▸ hpath)
  simp only [guarded, run, hgroups]

end Reading

namespace Job

variable {sha256 : Text → List UInt8} {job first : Job} {repo : RepoName} {s : Stores}
variable {plan : List (Option (Fault Text))} {m : Machine Session Effect Text}

variable (job repo s) in
/-- The same run, over a checkout in which no other file can be read. -/
def narrowed : Job :=
  { job with checkout := { job.checkout with
      content := fun path =>
        if path ∈ job.selected repo s then job.checkout.content path else .unreadable [] } }

theorem run_narrowed (hwhole : job.paths = none) :
    (job.narrowed repo s).run sha256 repo = job.run sha256 repo := by
  rw [Job.run, Job.run, narrowed]
  dsimp only
  rw [hwhole]
  dsimp only [indexRepo]
  refine congrArg (bind _) (funext fun state => ?_)
  split
  · rfl
  · have hsame : job.indexer.walked (job.narrowed repo s).checkout =
      job.indexer.walked job.checkout := rfl
    rw [narrowed] at hsame
    rw [hsame]
    cases hwalk : job.indexer.walked job.checkout with
    | error err => rfl
    | ok selection =>
      refine guarded_congr (fun path hpath => if_pos ?_) _ _
      rwa [selected, Job.selection, hwhole, hwalk]

variable (sha256 job repo) in
/-- Each selected file that can be read is on record with exactly its chunks, and no other path
is on record. -/
structure UpToDate (s : Stores) : Prop where
  record : ∀ path ∈ job.selected repo s, ∀ chunks, job.chunksOf sha256 repo path = some chunks →
    ∃ file, s.record repo.text job.indexer.signature path = some file ∧ file.Of chunks
  selected : ∀ path, s.record repo.text job.indexer.signature path ≠ none →
    path ∈ job.selected repo s

variable (repo) in
theorem selected_whole (hwhole : job.paths = none) (s s' : Stores) :
    job.selected repo s = job.selected repo s' := by
  rw [selected, selected, Job.selection, Job.selection, hwhole]

/-- Nothing is removed where only what is selected is on record. -/
theorem UpToDate.removed (h : job.UpToDate sha256 repo s) (hwhole : job.paths = none) :
    job.removed repo s = [] := by
  have hselection : job.selection repo s = job.indexer.walked job.checkout := by
    rw [Job.selection, hwhole]
  cases hwalk : job.indexer.walked job.checkout with
  | error err =>
    rw [Job.removed, hselection, hwalk]
    rfl
  | ok selection =>
    rw [removed_eq (hselection.trans hwalk)]
    have hnone : job.indexer.removedOf selection.selected
        (s.paths repo.text job.indexer.signature) selection.removed = [] := by
      rw [removed_walked hwalk, removedOf, List.filter_eq_nil_iff]
      intro path hpath
      have hselected := h.selected path (mem_paths.mp hpath)
      rw [selected_eq (hselection.trans hwalk)] at hselected
      simpa using hselected
    rw [hnone]
    rfl

theorem UpToDate.idle (h : job.UpToDate sha256 repo s) (hwhole : job.paths = none) :
    ((job.narrowed repo s).task sha256 repo s).Idle s where
  removed := h.removed hwhole
  record path chunks hchunks := by
    change (job.indexer.chunker.chunkBytes sha256 repo.text path
      (if path ∈ job.selected repo s then job.checkout.content path else .unreadable [])).toOption =
        some chunks at hchunks
    split at hchunks
    next hselected => exact h.record path hselected chunks hchunks
    next => cases hchunks

/-- The runs are over the same files, which they select and cut alike. -/
structure SameTree (job job' : Job) : Prop where
  signature : job'.indexer.signature = job.indexer.signature
  chunker : job'.indexer.chunker = job.indexer.chunker
  reject : job'.indexer.reject = job.indexer.reject
  walk : job'.checkout.walk = job.checkout.walk
  content : job'.checkout.content = job.checkout.content

variable (repo) in
theorem SameTree.selected {job' : Job} (h : job.SameTree job') (hwhole : job.paths = none)
    (hwhole' : job'.paths = none) (s : Stores) : job'.selected repo s = job.selected repo s := by
  have hwalked : job'.indexer.walked job'.checkout = job.indexer.walked job.checkout := by
    rw [walked, walked, h.walk]
    simp only [select, h.reject]
  rw [Job.selected, Job.selected, Job.selection, Job.selection, hwhole, hwhole']
  dsimp only
  rw [hwalked]

theorem UpToDate.transfer {job' : Job} (h : job.UpToDate sha256 repo s) (hsame : job.SameTree job')
    (hwhole : job.paths = none) (hwhole' : job'.paths = none) : job'.UpToDate sha256 repo s := by
  have hselected := hsame.selected repo hwhole hwhole' s
  constructor
  · intro path hpath chunks hchunks
    rw [chunksOf, hsame.chunker, hsame.content] at hchunks
    rw [hsame.signature]
    exact h.record path (hselected ▸ hpath) chunks hchunks
  · intro path hpath
    rw [hsame.signature] at hpath
    rw [hselected]
    exact h.selected path hpath

/-- A run that ended in a report has walked its checkout. -/
theorem walked_of_indexed {report : IndexReport} (hwhole : job.paths = none)
    (hend : job.runFrom sha256 repo s plan = (.done (.indexed report), m)) :
    ∃ selection, job.indexer.walked job.checkout = .ok selection := by
  cases hwalk : job.indexer.walked job.checkout with
  | ok selection => exact ⟨selection, rfl⟩
  | error err =>
    have hrun : Ensures True (fun _ => True) (job.run sha256 repo)
        (fun outcome _ => outcome ≠ .indexed report) fun _ _ => True := by
      rw [Job.run, hwhole]
      dsimp only
      rw [indexRepo]
      have hstate : Ensures True (fun _ => True) (Port.state repo.text job.indexer.signature)
          (fun _ _ => True) fun _ _ => True := by
        rw [Port.state, Port.read]
        exact ensures_answer fun _ _ => trivial
      refine hstate.bind fun state => ?_
      split
      · exact ensures_pure fun _ _ h => by cases h
      · rw [hwalk]
        exact ensures_raise fun _ _ => trivial
    have hmeets := hrun ⟨⟨⟨s, .default⟩, []⟩, plan⟩ (fun _ => trivial) trivial
    rw [Job.runFrom] at hend
    rw [hend] at hmeets
    exact absurd rfl hmeets.1

/-- A run over the whole checkout that settled with its revision leaves it up to date. -/
theorem upToDate_of_settled {report : IndexReport} (hwhole : job.paths = none)
    (hsound : s.Sound sha256) (hledger : s.Ledger repo.text job.indexer.signature)
    (hend : job.runFrom sha256 repo s plan = (.done (.indexed report), m))
    (hrevision : (m.state.stores.snapshot repo.text job.indexer.signature).revision.isSome = true) :
    job.UpToDate sha256 repo m.state.stores := by
  obtain ⟨selection, hwalk⟩ := walked_of_indexed hwhole hend
  obtain ⟨_, hended, hsettled⟩ := ended_of_done hwhole hsound hledger hend
  obtain ⟨hunfetched, _, chunks, hentry⟩ := hsettled report rfl
  have hall : report.budgetExhausted = false ∧ report.unfetched = [] := by
    rw [Stores.snapshot, hentry] at hrevision
    simp only [Stores.settle] at hrevision
    split at hrevision
    next h => simpa using h
    next => cases hrevision
  have hfetched := hunfetched.symm.trans hall.2
  have hfinished := hended.2.resolve_left (by rw [hall.1]; exact Bool.false_ne_true)
  have hrecord := record_finished hwhole hwalk hfetched hfinished
  have hselected := selected_whole repo hwhole m.state.stores s
  constructor
  · intro path hpath chunks hchunks
    rw [hselected] at hpath
    exact ⟨_, hfinished.record path hpath chunks hchunks, fun _ => Iff.rfl,
      (fun _ h => by cases h)⟩
  · intro path hpath
    rw [hselected]
    rcases hrecord path with ⟨_, hpath, _⟩ | ⟨hpath, _⟩ | ⟨_, hnone⟩
    · exact hpath
    · exact hpath
    · exact absurd hnone hpath

variable (sha256 job repo) in
/-- However its calls go, a run from these stores touches no row, and confirms what was
confirmed; and it comes to its end where no call fails. -/
structure Quiet (s : Stores) (plan : List (Option (Fault Text))) : Prop where
  rows : ∀ e ∈ (job.runFrom sha256 repo s plan).2.landed, e.isRow = false
  alike : Task.Alike s (job.runFrom sha256 repo s plan).2.state.stores
  done : (∀ fault, some fault ∉ plan) → (∃ selection, job.indexer.walked job.checkout = .ok selection) →
    ∃ outcome, (job.runFrom sha256 repo s plan).1 = .done outcome

theorem UpToDate.quiet (h : job.UpToDate sha256 repo s) (hwhole : job.paths = none)
    (hsound : s.Sound sha256) (hledger : s.Ledger repo.text job.indexer.signature)
    (plan : List (Option (Fault Text))) : job.Quiet sha256 repo s plan := by
  have hrun : (job.narrowed repo s).runFrom sha256 repo s plan = job.runFrom sha256 repo s plan :=
    congrFun (run_narrowed hwhole) _
  have hsteps := steps_runFrom (job.narrowed repo s) repo hsound hledger plan
  rw [hrun] at hsteps
  obtain ⟨hrows, _, halike⟩ := (h.idle hwhole).steps hsteps
  refine ⟨hrows, halike, fun hclean hwalk => ?_⟩
  have hselection : ∃ selection, job.selection repo s = .ok selection := by
    rw [Job.selection, hwhole]
    exact hwalk
  have hmoved : (job.task sha256 repo s).Sourced s (job.selected repo s) := by
    intro path hpath chunks hchunks moved hmoved
    obtain ⟨file, hrecord, hof⟩ := h.record path hpath chunks hchunks
    change moved ∈ (new path chunks (s.record repo.text job.indexer.signature path)).toRelocate
      at hmoved
    rw [hrecord] at hmoved
    exact absurd hmoved (hof.notMem_toRelocate moved)
  obtain ⟨outcome, m, hend⟩ := done_of_moved hsound hledger hselection hclean hmoved
  exact ⟨outcome, congrArg Prod.fst hend⟩

/-- Nothing is sent for files that are on record as they are. -/
theorem UpToDate.calls (h : job.UpToDate sha256 repo s) : job.calls sha256 repo s = [] := by
  have hnone : (job.calls sha256 repo s).flatten = [] := by
    rw [flatten_calls, List.flatMap_eq_nil_iff]
    intro path hpath
    rw [List.map_eq_nil_iff, unconfirmed]
    cases hchunks : job.chunksOf sha256 repo path with
    | none => rfl
    | some chunks =>
      obtain ⟨file, hrecord, hof⟩ := h.record path hpath chunks hchunks
      have hgenuine : ∀ chunk ∈ chunks, Genuine sha256 chunk := fun chunk hchunk =>
        ((job.task sha256 repo s).own hchunks chunk hchunk).2.2
      rw [Option.getD_some, hrecord, ← @toEmbed_new sha256 path chunks hgenuine]
      exact List.eq_nil_iff_forall_not_mem.mpr hof.notMem_toEmbed
  refine List.eq_nil_iff_forall_not_mem.mpr fun texts htexts => ?_
  exact (job.admissible_calls sha256 repo s htexts).nonempty (List.flatten_eq_nil_iff.mp hnone _ htexts)

/-- A checkout's walk lists each file once, and so does what is selected of it. -/
theorem nodup_selected (hwhole : job.paths = none)
    (honce : ∀ found, job.checkout.walk = .ok found → (found.1.map Prod.fst).Nodup) (s : Stores) :
    (job.selected repo s).Nodup := by
  rw [Job.selected, Job.selection, hwhole]
  dsimp only
  rw [walked]
  cases hwalk : job.checkout.walk with
  | error err => exact List.nodup_nil
  | ok found =>
    refine List.Sublist.nodup ?_ (honce found hwalk)
    change (found.1.filterMap fun file =>
      if (job.indexer.reject file.1 file.2).isNone then some file.1 else none).Sublist
        (found.1.map Prod.fst)
    generalize found.1 = files
    induction files with
    | nil => exact List.Sublist.refl _
    | cons file files ih =>
      rw [List.filterMap_cons]
      split
      next hnone => exact ih.cons _
      next path hsome =>
        obtain ⟨_, hpath⟩ := Option.ite_none_right_eq_some.mp hsome
        obtain rfl := Option.some.inj hpath
        exact ih.cons_cons _

variable (sha256 job repo) in
/-- A run over all of the same files left these stores, settled with a revision. -/
def LeftBySettled (s : Stores) : Prop :=
  ∃ (before : Stores) (first : Job) (plan : List (Option (Fault Text))) (report : IndexReport)
    (m : Machine Session Effect Text),
    Reachable sha256 job.indexer.signature (fun _ _ => True) before ∧ first.paths = none ∧ first.SameTree job ∧
    first.runFrom sha256 repo before plan = (.done (.indexed report), m) ∧
    (m.state.stores.snapshot repo.text job.indexer.signature).revision.isSome = true ∧
    m.state.stores = s

variable (sha256 job repo) in
/-- However its calls go, a run from these stores sends nothing to be embedded, touches no row and
confirms what was confirmed. -/
structure CostsNothing (s : Stores) (plan : List (Option (Fault Text))) : Prop extends
    job.Quiet sha256 repo s plan where
  calls : job.calls sha256 repo s = []
  usage : (job.runFrom sha256 repo s plan).2.state.report.usage = .none

/-- A run over the whole checkout that ends in a report has sent its calls, all of them or the
first up to one that the budget did not allow. They are, file after file, the chunks whose hash
no confirmed id has, each once, in calls within the limits. Where a run over the same files
settled before with a revision, there are none, and nothing is written but records that confirm
the same. -/
theorem indexRepo_reuses {job : Job} {repo : RepoName} (s : Stores) (hwhole : job.paths = none)
    (honce : ∀ found, job.checkout.walk = .ok found → (found.1.map Prod.fst).Nodup)
    (plan : List (Option (Fault Text))) :
    ((∀ report m, job.runFrom sha256 repo s plan = (.done (.indexed report), m) →
        job.indexer.Sent (job.calls sha256 repo s) .none report) ∧
      (job.calls sha256 repo s).flatten = (job.selected repo s).flatMap (fun path =>
        (job.unconfirmed sha256 repo s path).map Chunk.text) ∧
      ∀ texts ∈ job.calls sha256 repo s, job.indexer.Admissible texts) ∧
    (job.LeftBySettled sha256 repo s → job.CostsNothing sha256 repo s plan) := by
  obtain ⟨hsent, hbegun⟩ := runFrom_sent sha256 hwhole (nodup_selected hwhole honce s) plan
  refine ⟨⟨hsent, job.flatten_calls sha256 repo s, fun _ => job.admissible_calls sha256 repo s⟩, ?_⟩
  rintro ⟨before, first, plan', report, m, hreachable, hwhole', hsame, hend, hrevision, rfl⟩
  obtain ⟨hsound, hledger⟩ := hreachable.ledger
  rw [hsame.signature] at hrevision hledger
  have huptodate := (upToDate_of_settled hwhole' hsound (hledger repo) hend hrevision).transfer hsame
    hwhole' hwhole
  have hafter := (Reachable.run ⟨repo, first, plan'⟩ hreachable hsame.signature.symm trivial).ledger
  rw [Run.after, hend] at hafter
  refine ⟨huptodate.quiet hwhole hafter.1 (hafter.2 repo) plan, huptodate.calls, ?_⟩
  obtain ⟨n, husage⟩ := hbegun
  rw [husage, huptodate.calls, List.take_nil]
  rfl

end Job

namespace Sample

/-- The files of the first run, at another revision. -/
def again : Job := job "2".toList [("a.rs".toList, "x".toList)]

def both : List (Text × Text) := [("a.rs".toList, "x".toList), ("b.rs".toList, "y".toList)]

/-- A push whose list leaves out the file it added. -/
def pushed : Job := { job "2".toList both with paths := some [] }

/-- A run that may spend nothing, where each call would cost a dollar. -/
def capped : Job :=
  { job "1".toList [("a.rs".toList, "x".toList)] with
    indexer := { indexer with budgetUsd := some 0, ofCall := fun _ => ⟨1, 0, 1⟩ } }

theorem walked_once (files : List (Text × Text)) (h : (files.map Prod.fst).Nodup)
    (revision : Text) : ∀ found, (job revision files).checkout.walk = .ok found →
      (found.1.map Prod.fst).Nodup := by
  rintro found ⟨⟩
  rw [List.map_map]
  exact h

/-- After the first run. -/
def indexed : Stores := (added.job.runFrom sha256 repo .empty []).2.state.stores

theorem again_costs_nothing :
    again.LeftBySettled sha256 repo indexed ∧ again.CostsNothing sha256 repo indexed [] := by
  have hindexed : (added.job.runFrom sha256 repo .empty []).1 =
      .done (.indexed (added.job.runFrom sha256 repo .empty []).2.state.report) := by
    decide +kernel
  have hrevision : (indexed.snapshot repo.text indexer.signature).revision.isSome = true := by
    decide +kernel
  have hend := (Prod.mk.eta (p := added.job.runFrom sha256 repo .empty [])).symm
  rw [hindexed] at hend
  have hleft : again.LeftBySettled sha256 repo indexed :=
    ⟨.empty, added.job, [], _, _, .empty, rfl, ⟨rfl, rfl, rfl, rfl, rfl⟩, hend, hrevision, rfl⟩
  have honce := walked_once [("a.rs".toList, "x".toList)] (by decide) "2".toList
  exact ⟨hleft, (@Job.indexRepo_reuses sha256 again repo indexed rfl honce []).2 hleft⟩

/-- After a push that settled with a revision there may be something left to embed, and a run that
its budget stops settles though it embedded nothing that is new. -/
theorem pushed_and_capped :
    ((∃ report, (pushed.runFrom sha256 repo (added.after sha256 .empty) []).1 =
        .done (.indexed report)) ∧
      ((pushed.runFrom sha256 repo (added.after sha256 .empty) []).2.state.stores.snapshot repo.text
        indexer.signature).revision = some "2".toList ∧
      ((job "3".toList both).runFrom sha256 repo (pushed.runFrom sha256 repo
        (added.after sha256 .empty) []).2.state.stores []).2.state.report.usage.calls = 1) ∧
    (∃ report, (capped.runFrom sha256 repo .empty []).1 = .done (.indexed report) ∧
      report.usage.calls = 0) ∧
    (capped.unconfirmed sha256 repo .empty "a.rs".toList).length = 1 := by
  refine ⟨⟨⟨(pushed.runFrom sha256 repo (added.after sha256 .empty) []).2.state.report, ?_⟩, ?_, ?_⟩,
    ⟨(capped.runFrom sha256 repo .empty []).2.state.report, ?_, ?_⟩, ?_⟩ <;> decide +kernel

end Sample

end TinySweeper.Index
