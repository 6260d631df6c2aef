import TinySweeper.Indexer.Durable
import TinySweeper.Indexer.Settles

/-!
# Convergence

A run over the whole checkout in which nothing fails brings the index and the manifest to
the chunks of the files it selected. It does so exactly where what its plans reuse is
there, and where the files it can not read have nothing in the index.
-/

namespace TinySweeper.Index

open Text Interrupt FileWork Indexer

section Hashing

variable (sha256 : Text → List UInt8)

namespace Job

variable (job : Job) (repo : RepoName)

/-- The ids of the chunks that the checkout's selected files have now. -/
def Current (s : Stores) (path id : Text) : Prop :=
  path ∈ job.selected repo s ∧ ∃ chunks, job.chunksOf sha256 repo path = some chunks ∧
    id ∈ chunks.map Chunk.id

/-- The stores have this revision, and what they hold and confirm is what the checkout of
a run from the stores before has. -/
structure Exact (before after : Stores) : Prop where
  fresh : (after.snapshot repo.text job.indexer.signature).isFresh job.revision = true
  rows : ∀ id, after.Holds repo.text job.indexer.signature id ↔
    ∃ path, job.Current sha256 repo before path id
  confirmed : ∀ path id, id ∈ countedOf (after.record repo.text job.indexer.signature path) ↔
    job.Current sha256 repo before path id

/-- What the plans of the readable files reuse is there, and the others have nothing. -/
structure Reusable (s : Stores) : Prop where
  confirmed : ∀ path ∈ job.selected repo s, ∀ chunks, job.chunksOf sha256 repo path = some chunks →
    ∀ chunk ∈ chunks, chunk.id ∈ countedOf (s.record repo.text job.indexer.signature path) →
      s.Holds repo.text job.indexer.signature chunk.id
  moved : ∀ path ∈ job.selected repo s, ∀ chunks, job.chunksOf sha256 repo path = some chunks →
    ∀ moved ∈ (new path chunks (s.record repo.text job.indexer.signature path)).toRelocate,
      s.Holds repo.text job.indexer.signature moved.1
  unread : ∀ path ∈ job.selected repo s, job.chunksOf sha256 repo path = none →
    countedOf (s.record repo.text job.indexer.signature path) = [] ∧
      ∀ row ∈ s.rows, row.chunk.repoId = repo.text → row.signature = job.indexer.signature →
        row.chunk.path ≠ path

end Job

variable {sha256} {job : Job} {repo : RepoName} {s : Stores}

theorem mem_paths {repoId signature path : Text} :
    path ∈ s.paths repoId signature ↔ s.record repoId signature path ≠ none := by
  rw [Stores.paths, List.mem_map, Stores.record, Ne, Option.map_eq_none_iff, Keyed.get?_eq_none_iff]
  push Not
  constructor
  · rintro ⟨entry, hentry, rfl⟩
    obtain ⟨hmem, htest⟩ := List.mem_filter.mp hentry
    rw [Bool.and_eq_true, decide_eq_true_iff, decide_eq_true_iff] at htest
    exact ⟨entry, hmem, by rw [FileEntry.key, htest.1, htest.2]⟩
  · rintro ⟨entry, hmem, hkey⟩
    obtain ⟨hrepo, hrest⟩ := Prod.mk.inj hkey
    obtain ⟨hsignature, hpath⟩ := Prod.mk.inj hrest
    refine ⟨entry, List.mem_filter.mpr ⟨hmem, ?_⟩, hpath⟩
    rw [Bool.and_eq_true, decide_eq_true_iff, decide_eq_true_iff]
    exact ⟨hrepo, hsignature⟩

theorem removed_walked {selection : Selection}
    (hwalk : job.indexer.walked job.checkout = .ok selection) :
    selection.removed = .notSeenByTheWalk := by
  rw [walked] at hwalk
  cases hfound : job.checkout.walk with
  | error err => rw [hfound] at hwalk; cases hwalk
  | ok found =>
    rw [hfound] at hwalk
    injection hwalk with hwalk
    rw [← hwalk]

/-- Where no submodule is waited for, nothing is kept for one. -/
theorem removable_of_fetched {indexer : Indexer} (h : indexer.unfetched = []) (removed : List Text) :
    indexer.removable removed = removed := by
  have hall : ∀ dir ∈ indexer.missing, under indexer.revoked dir = true := by
    intro dir hdir
    by_contra hrevoked
    rw [unfetched, List.map_eq_nil_iff, List.filter_eq_nil_iff] at h
    exact h dir hdir (by simpa using hrevoked)
  refine List.filter_eq_self.mpr fun path _ => ?_
  cases hmissing : under indexer.missing path with
  | false => rfl
  | true =>
    obtain ⟨dir, hdir, hpath⟩ := List.any_eq_true.mp hmissing
    obtain ⟨dir', hdir', hdirs⟩ := List.any_eq_true.mp (hall dir hdir)
    have hrevoked : under indexer.revoked path = true := by
      refine List.any_eq_true.mpr ⟨dir', hdir', ?_⟩
      rw [List.isPrefixOf_iff_prefix] at hpath hdirs ⊢
      exact hdirs.trans hpath
    rw [hrevoked]
    rfl

/-- A walk removes all that is on record and that it did not select. -/
theorem mem_removed_iff (hwhole : job.paths = none) {selection : Selection}
    (hwalk : job.indexer.walked job.checkout = .ok selection) (hfetched : job.indexer.unfetched = [])
    {path : Text} : path ∈ job.removed repo s ↔
      s.record repo.text job.indexer.signature path ≠ none ∧ path ∉ job.selected repo s := by
  have hselection : job.selection repo s = .ok selection := by
    rw [Job.selection, hwhole]
    exact hwalk
  rw [Job.removed_eq hselection, Job.selected_eq hselection, removed_walked hwalk,
    removable_of_fetched hfetched, removedOf, List.mem_filter, mem_paths]
  simp

section Ends

variable {plan : List (Option (Fault Text))} {outcome : IndexOutcome}
variable {m : Machine Session Effect Text}

theorem ended_of_done (hwhole : job.paths = none) (hsound : s.Sound sha256)
    (hledger : s.Ledger repo.text job.indexer.signature)
    (hend : job.runFrom sha256 repo s plan = (.done outcome, m)) :
    (job.task sha256 repo s).Steps s m.landed m.state.stores ∧
      job.Ended sha256 repo s outcome (Track.of m.toWorld) m.state.report ∧
        SettledAs job.indexer repo.text job.revision s outcome m.toWorld := by
  have hsettled : Ensures True (fun w => w.state.stores = s) (job.run sha256 repo)
      (SettledAs job.indexer repo.text job.revision s) fun _ _ => True := by
    rw [Job.run, hwhole]
    exact ensures_indexRepo_settled
  have hended := @Job.ensures_run sha256 job repo s True .default hsound hledger (.inl trivial)
    (.inl trivial) ⟨⟨⟨s, .default⟩, []⟩, plan⟩ (fun _ => trivial) ⟨rfl, rfl⟩
  have hmeets := hsettled ⟨⟨⟨s, .default⟩, []⟩, plan⟩ (fun _ => trivial) rfl
  rw [Job.runFrom] at hend
  rw [hend] at hended hmeets
  exact ⟨hended.1.1, hended.1.2, hmeets.1⟩

/-- Where nothing fails and all that moved can be copied, a run comes to its end. -/
theorem done_of_moved (hsound : s.Sound sha256) (hledger : s.Ledger repo.text job.indexer.signature)
    (hwalk : ∃ selection, job.selection repo s = .ok selection)
    (hclean : ∀ fault, some fault ∉ plan)
    (hmoved : (job.task sha256 repo s).Sourced s (job.selected repo s)) :
    ∃ outcome m, job.runFrom sha256 repo s plan = (.done outcome, m) := by
  have hmeets := @Job.ensures_run sha256 job repo s False .default hsound hledger (.inr hmoved)
    (.inr hwalk) ⟨⟨⟨s, .default⟩, []⟩, plan⟩ (fun h => h.elim hclean) ⟨rfl, rfl⟩
  rw [Job.runFrom]
  rcases hend : job.run sha256 repo ⟨⟨⟨s, .default⟩, []⟩, plan⟩ with ⟨answer, m⟩
  rw [hend] at hmeets
  cases answer with
  | done outcome => exact ⟨outcome, m, rfl⟩
  | failed err => exact hmeets.1.2.elim
  | stopped => exact hmeets.2.elim

end Ends

section Converging

variable (hsound : s.Sound sha256) (hledger : s.Ledger repo.text job.indexer.signature)
  (hwhole : job.paths = none) {selection : Selection}
  (hwalk : job.indexer.walked job.checkout = .ok selection) (hfetched : job.indexer.unfetched = [])
  {es : List Effect} {after : Stores} (hsteps : (job.task sha256 repo s).Steps s es after)
  (hfinished : (job.task sha256 repo s).Finished s (job.selected repo s) (es, after))

include hwhole hwalk hfetched hfinished in
/-- What is on record of a path once a run is done: its chunks now, or what was on record of a
file that could not be read. -/
theorem record_finished (path : Text) :
    (∃ chunks, path ∈ job.selected repo s ∧ job.chunksOf sha256 repo path = some chunks ∧
      after.record repo.text job.indexer.signature path =
        some (.confirmed path (chunks.map Chunk.id))) ∨
    (path ∈ job.selected repo s ∧ job.chunksOf sha256 repo path = none ∧
      after.record repo.text job.indexer.signature path =
        s.record repo.text job.indexer.signature path) ∨
    path ∉ job.selected repo s ∧ after.record repo.text job.indexer.signature path = none := by
  by_cases hselected : path ∈ job.selected repo s
  · have hkept := Job.notMem_removed sha256 hselected
    cases hchunks : job.chunksOf sha256 repo path with
    | some chunks => exact .inl ⟨chunks, hselected, rfl, hfinished.record path hselected chunks hchunks⟩
    | none => exact .inr (.inl ⟨hselected, rfl, hfinished.others path (.inr hchunks) hkept⟩)
  · refine .inr (.inr ⟨hselected, ?_⟩)
    by_cases hremoved : path ∈ job.removed repo s
    · exact hfinished.gone path hremoved
    · have hnone : s.record repo.text job.indexer.signature path = none := by
        by_contra hsome
        exact hremoved ((mem_removed_iff hwhole hwalk hfetched).mpr ⟨hsome, hselected⟩)
      exact (hfinished.others path (.inl hselected) hremoved).trans hnone

theorem counted_confirmed (path : Text) (ids : List Text) :
    countedOf (some (.confirmed path ids)) = ids :=
  List.append_nil ids

include hsound hledger hsteps hwhole hwalk hfetched hfinished in
/-- Where what is reused is there and what can not be read has nothing, a run that is done leaves
what the checkout has. -/
theorem exact_of_finished (hreusable : job.Reusable sha256 repo s)
    (hfresh : (after.snapshot repo.text job.indexer.signature).isFresh job.revision = true) :
    job.Exact sha256 repo s after where
  fresh := hfresh
  rows id := by
    constructor
    · rintro ⟨row, hrow, rfl, hsignature, hrepo⟩
      have hlisted := (hsteps.ledger hledger).listed row hrow hrepo hsignature
      rcases record_finished hwhole hwalk hfetched hfinished row.chunk.path with
        ⟨chunks, hselected, hchunks, hrecord⟩ | ⟨hselected, hchunks, hrecord⟩ | ⟨_, hrecord⟩
      · change row.id ∈ listedOf (after.record repo.text job.indexer.signature _) at hlisted
        rw [hrecord] at hlisted
        exact ⟨row.chunk.path, hselected, chunks, hchunks,
          (List.append_nil (chunks.map Chunk.id)) ▸ hlisted⟩
      · have hkept := Job.notMem_removed sha256 hselected
        have hbefore := (hsteps.mem_rows_unread hsound hledger hkept hchunks hrepo rfl).mp hrow
        exact absurd rfl ((hreusable.unread _ hselected hchunks).2 row hbefore hrepo hsignature)
      · change row.id ∈ listedOf (after.record repo.text job.indexer.signature _) at hlisted
        rw [hrecord] at hlisted
        exact absurd hlisted List.not_mem_nil
    · rintro ⟨path, hselected, chunks, hchunks, hid⟩
      have hkept := Job.notMem_removed sha256 hselected
      refine (hsteps.backed hsound hledger).counted path (hfinished.closed path hkept) id ?_ ?_
      · rw [hfinished.record path hselected chunks hchunks, counted_confirmed]
        exact hid
      · intro path' hcounted
        have howned : OwnedBy repo.text path id :=
          Task.Plans.owned (t := job.task sha256 repo s) ⟨hchunks, hkept⟩ hid
        obtain rfl := (hledger.owned path' id (mem_listedOf_of_counted hcounted)).path_eq howned
        obtain ⟨chunk, hchunk, rfl⟩ := List.mem_map.mp hid
        exact hreusable.confirmed path' hselected chunks hchunks chunk hchunk hcounted
  confirmed path id := by
    rcases record_finished hwhole hwalk hfetched hfinished path with
      ⟨chunks, hselected, hchunks, hrecord⟩ | ⟨hselected, hchunks, hrecord⟩ | ⟨hnot, hrecord⟩
    · rw [hrecord, counted_confirmed]
      refine ⟨fun hid => ⟨hselected, chunks, hchunks, hid⟩, ?_⟩
      rintro ⟨_, chunks', hchunks', hid⟩
      rwa [Option.some.inj (hchunks.symm.trans hchunks')]
    · rw [hrecord, (hreusable.unread path hselected hchunks).1]
      refine ⟨fun hid => absurd hid List.not_mem_nil, ?_⟩
      rintro ⟨_, chunks', hchunks', _⟩
      exact absurd (hchunks.symm.trans hchunks') (Option.some_ne_none chunks').symm
    · rw [hrecord]
      exact ⟨fun hid => absurd hid List.not_mem_nil, fun h => absurd h.1 hnot⟩

include hsound hledger hsteps hwhole hwalk hfetched hfinished in
/-- A run that is done and leaves what the checkout has reused what was there. -/
theorem reusable_of_exact (hexact : job.Exact sha256 repo s after) :
    job.Reusable sha256 repo s where
  confirmed path hselected chunks hchunks chunk hchunk hcounted := by
    by_contra hmissing'
    have hkept := Job.notMem_removed sha256 hselected
    have howned := hledger.owned path _ (mem_listedOf_of_counted hcounted)
    refine (hsteps.absent hkept howned hmissing' fun _ _ _ => hcounted).1 ((hexact.rows _).mpr ?_)
    exact ⟨path, hselected, chunks, hchunks, List.mem_map_of_mem hchunk⟩
  moved path hselected chunks hchunks moved hmoved := by
    by_contra hmissing'
    have hkept := Job.notMem_removed sha256 hselected
    have hcounted := (mem_toRelocate hmoved).2.2.1
    have howned := hledger.owned path _ (mem_listedOf_of_counted hcounted)
    obtain ⟨es', s', hseen, hheld⟩ := hfinished.seen path hselected chunks hchunks moved hmoved
    exact (hseen.absent hkept howned hmissing' fun _ _ _ => hcounted).1 hheld
  unread path hselected hchunks := by
    have hkept := Job.notMem_removed sha256 hselected
    have hnone : ∀ {id}, ¬job.Current sha256 repo s path id := by
      rintro id ⟨_, chunks, hsome, _⟩
      exact Option.some_ne_none chunks (hsome.symm.trans hchunks)
    constructor
    · refine List.eq_nil_iff_forall_not_mem.mpr fun id hid => hnone ((hexact.confirmed path id).mp ?_)
      rcases record_finished hwhole hwalk hfetched hfinished path with
        ⟨chunks, _, hsome, _⟩ | ⟨_, _, hrecord⟩ | ⟨hnot, _⟩
      · exact absurd (hsome.symm.trans hchunks) (Option.some_ne_none chunks)
      · rw [hrecord]
        exact hid
      · exact absurd hselected hnot
    · intro row hrow hrepo hsignature hpath
      have hafter := (hsteps.mem_rows_unread hsound hledger hkept hchunks hrepo hpath).mpr hrow
      obtain ⟨path', hselected', chunks, hsome, hid⟩ :=
        (hexact.rows row.id).mp ⟨row, hafter, rfl, hsignature, hrepo⟩
      have howned := (hsound row hrow).owned
      rw [hrepo, hpath] at howned
      have howned' : OwnedBy repo.text path' row.id :=
        Task.Plans.owned (t := job.task sha256 repo s) ⟨hsome, Job.notMem_removed sha256 hselected'⟩ hid
      rw [howned'.path_eq howned, hchunks] at hsome
      cases hsome

end Converging

variable (sha256) in
/-- A revision that is on record already is not indexed again. -/
theorem runFrom_fresh (hwhole : job.paths = none) {plan : List (Option (Fault Text))}
    (hclean : ∀ fault, some fault ∉ plan)
    (hfresh : (s.snapshot repo.text job.indexer.signature).isFresh job.revision = true) :
    ∃ m, job.runFrom sha256 repo s plan = (.done .alreadyFresh, m) ∧ m.state.stores = s := by
  have hrun : Ensures False (fun w => w.state.stores = s) (job.run sha256 repo)
      (fun outcome w => outcome = .alreadyFresh ∧ w.state.stores = s) fun _ _ => False := by
    rw [Job.run, hwhole]
    refine Ensures.bind (Q := fun state w =>
      state = s.snapshot repo.text job.indexer.signature ∧ w.state.stores = s) ?_ fun state => ?_
    · rw [Port.state, Port.read, Port.call]
      refine ensures_perform (fun w hw => ?_) False.elim
      subst hw
      exact ⟨rfl, rfl⟩
    · split
      · exact ensures_pure fun w hw => ⟨rfl, hw.2⟩
      next hstale => exact ensures_of_forall fun w hw => absurd (hw.1 ▸ hfresh) hstale
  have hmeets := hrun ⟨⟨⟨s, .default⟩, []⟩, plan⟩ (fun h => h.elim hclean) rfl
  rw [Job.runFrom]
  rcases hend : job.run sha256 repo ⟨⟨⟨s, .default⟩, []⟩, plan⟩ with ⟨answer, m⟩
  rw [hend] at hmeets
  cases answer with
  | done outcome => exact ⟨m, by rw [hmeets.1.1], hmeets.1.2⟩
  | failed err => exact hmeets.1.elim
  | stopped => exact hmeets.elim

/-- After whatever history, a walk of the whole checkout in which no call fails, the budget is not
hit and no submodule is missing ends with exactly what the checkout has if and only if it had
that already, or had not this revision, what it reuses was there, and the files it could not
read had nothing. -/
theorem converges_iff {signature : Text} (h : Reachable sha256 signature (fun _ _ => True) s)
    (hsignature : job.indexer.signature = signature) (hwhole : job.paths = none)
    {selection : Selection} (hwalk : job.indexer.walked job.checkout = .ok selection)
    (hmissing : job.indexer.missing = []) (hfree : (s.entry repo.text signature).lease = none)
    {plan : List (Option (Fault Text))} (hclean : ∀ fault, some fault ∉ plan)
    (hbudget : (job.runFrom sha256 repo s plan).2.state.report.budgetExhausted = false) :
    ((∃ outcome, (job.runFrom sha256 repo s plan).1 = .done outcome) ∧
        job.Exact sha256 repo s (job.runFrom sha256 repo s plan).2.state.stores) ↔
      if (s.snapshot repo.text signature).isFresh job.revision then job.Exact sha256 repo s s
      else job.Reusable sha256 repo s := by
  subst hsignature
  obtain ⟨hsound, hledgers⟩ := h.ledger
  have hledger := hledgers repo
  have hfetched : job.indexer.unfetched = [] := by
    rw [unfetched, hmissing]
    rfl
  have hselection : job.selection repo s = .ok selection := by
    rw [Job.selection, hwhole]
    exact hwalk
  split
  next hfresh =>
    obtain ⟨m, hend, hsame⟩ := runFrom_fresh sha256 hwhole hclean hfresh
    rw [hend]
    change _ ∧ job.Exact sha256 repo s m.state.stores ↔ _
    rw [hsame]
    exact and_iff_right ⟨_, rfl⟩
  next hstale =>
    have hindexed : ∀ {outcome m}, job.runFrom sha256 repo s plan = (.done outcome, m) →
        (job.task sha256 repo s).Steps s m.landed m.state.stores ∧
          (job.task sha256 repo s).Finished s (job.selected repo s) (Track.of m.toWorld) ∧
            (m.state.stores.snapshot repo.text job.indexer.signature).isFresh job.revision = true := by
      intro outcome m hend
      obtain ⟨hsteps, hended, hsettled⟩ := ended_of_done hwhole hsound hledger hend
      rw [hend] at hbudget
      cases outcome with
      | alreadyFresh => exact absurd hended.1 hstale
      | requeue holder => exact absurd hfree hended.1
      | indexed report =>
        obtain ⟨hreport, hfinished⟩ := hended
        change m.state.report.budgetExhausted = false at hbudget
        rw [hreport] at hbudget
        obtain ⟨hunfetched, _, chunks, hentry⟩ := hsettled report rfl
        have hwaits : report.unfetched = [] := hunfetched.trans hfetched
        refine ⟨hsteps, hfinished.resolve_left (by rw [hbudget]; exact Bool.false_ne_true), ?_⟩
        rw [Stores.snapshot, hentry, hbudget, hwaits]
        simp [RepoIndex.isFresh, Stores.settle, IndexState.after]
    constructor
    · rintro ⟨⟨outcome, hdone⟩, hexact⟩
      obtain ⟨hsteps, hfinished, _⟩ := hindexed (Prod.ext hdone rfl)
      exact reusable_of_exact hsound hledger hwhole hwalk hfetched hsteps hfinished hexact
    · intro hreusable
      obtain ⟨outcome, m, hend⟩ := @done_of_moved sha256 job repo s plan hsound hledger ⟨selection, hselection⟩
        hclean fun path hpath chunks hchunks => hreusable.moved path hpath chunks hchunks
      obtain ⟨hsteps, hfinished, hfresh⟩ := hindexed hend
      rw [hend]
      refine ⟨⟨outcome, rfl⟩, ?_⟩
      exact exact_of_finished hsound hledger hwhole hwalk hfetched hsteps hfinished hreusable hfresh

end Hashing

namespace Sample

/-- The file is still there, one byte that is not text. -/
def undecodable : Job :=
  { job "2".toList [] with
    checkout := ⟨.ok ([("a.rs".toList, 1)], []), fun _ => some 1, fun _ => .notText⟩ }

theorem free_added :
    ((added.after sha256 .empty).entry repo.text indexer.signature).lease = none := by
  decide +kernel

theorem reachable_any :
    Reachable sha256 indexer.signature (fun _ _ => True) (added.after sha256 .empty) :=
  .run added .empty rfl trivial

theorem walked_edited : indexer.walked edited.job.checkout =
    .ok ⟨["a.rs".toList], [], .notSeenByTheWalk⟩ :=
  rfl

theorem budget_edited : (edited.job.runFrom sha256 repo (added.after sha256 .empty)
    []).2.state.report.budgetExhausted = false := by
  decide +kernel

/-- A checkout that shares no chunk with the one before. -/
theorem edited_exact :
    ((∃ outcome, (edited.job.runFrom sha256 repo (added.after sha256 .empty) []).1 =
        .done outcome) ∧
      edited.job.Exact sha256 repo (added.after sha256 .empty)
        (edited.job.runFrom sha256 repo (added.after sha256 .empty) []).2.state.stores) ↔
      if ((added.after sha256 .empty).snapshot repo.text indexer.signature).isFresh
          edited.job.revision then
        edited.job.Exact sha256 repo (added.after sha256 .empty) (added.after sha256 .empty)
      else edited.job.Reusable sha256 repo (added.after sha256 .empty) :=
  @converges_iff sha256 edited.job repo (added.after sha256 .empty) indexer.signature reachable_any
    rfl rfl _ walked_edited rfl free_added [] nofun budget_edited

/-- The rows of a file that can no longer be decoded stay. -/
theorem undecodable_not_exact :
    ∃ s, Reachable sha256 indexer.signature (fun _ _ => True) s ∧
      (s.entry repo.text indexer.signature).lease = none ∧
      (undecodable.runFrom sha256 repo s []).2.state.report.budgetExhausted = false ∧
      ¬undecodable.Exact sha256 repo s (undecodable.runFrom sha256 repo s []).2.state.stores := by
  refine ⟨added.after sha256 .empty, reachable_any, free_added, by decide +kernel, fun h => ?_⟩
  have hid : "o/r\x1fa.rs\x1f1\x1f2d711642b726b04401627ca9fbac32f5".toList ∈ countedOf
      ((undecodable.runFrom sha256 repo (added.after sha256 .empty) []).2.state.stores.record repo.text
        indexer.signature "a.rs".toList) := by
    decide +kernel
  obtain ⟨_, chunks, hchunks, _⟩ := (h.confirmed "a.rs".toList _).mp hid
  have hnone : undecodable.chunksOf sha256 repo "a.rs".toList = none := by decide +kernel
  rw [hnone] at hchunks
  cases hchunks

end Sample

end TinySweeper.Index
