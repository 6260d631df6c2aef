import TinySweeper.Indexer.History

/-!
# What a cut-off run leaves

A run that is cut off leaves each path that it keeps one whole version. Ids that are
confirmed stay those of rows in every history whose runs, where they take counted rows,
also land the write that takes their ids off the record.
-/

namespace TinySweeper.Index

open Text Interrupt FileWork Indexer

section Hashing

variable (sha256 : Text → List UInt8)

/-- The manifest and the index agree on a repository: each row is listed under its own path,
and each id that counts is that of a row. -/
structure Stores.Agrees (repoId signature : Text) (s : Stores) : Prop where
  sound : s.Sound sha256
  ledger : s.Ledger repoId signature
  counted : ∀ path, ∀ id ∈ countedOf (s.record repoId signature path), s.Holds repoId signature id

/-- Wherever a run is cut off, each path that it selected has all rows of the version before or
all rows of the new one, and the rows of other repositories are as they were. -/
theorem version_survives (job : Job) (repo : RepoName) (s : Stores)
    (h : s.Agrees sha256 repo.text job.indexer.signature) (plan : List (Option (Fault Text))) :
    let after := (job.runFrom sha256 repo s plan).2.state.stores
    (∀ path ∈ job.selected repo s,
      (∀ id ∈ countedOf (s.record repo.text job.indexer.signature path),
        after.Holds repo.text job.indexer.signature id) ∨
      ∃ chunks, job.chunksOf sha256 repo path = some chunks ∧
        ∀ chunk ∈ chunks, after.Holds repo.text job.indexer.signature chunk.id) ∧
    ∀ row : Row, row.chunk.repoId ≠ repo.text → (row ∈ after.rows ↔ row ∈ s.rows) := by
  have hsteps := Job.steps_runFrom job repo h.sound h.ledger plan
  refine ⟨fun path hpath => ?_, fun row hrow => hsteps.mem_rows_iff h.sound hrow⟩
  have hold : (job.task sha256 repo s).EitherVersion path
      (countedOf (s.record repo.text job.indexer.signature path)) s :=
    .inl fun id hid => ⟨h.counted path id hid, hid⟩
  have htrusted : ∀ id, (job.task sha256 repo s).Trusted s id := fun id path hid =>
    h.counted path id hid
  refine (hsteps.eitherVersion h.sound h.ledger htrusted (Job.notMem_removed sha256 hpath) hold).imp
    (fun hold id hid => (hold id hid).1) ?_
  rintro ⟨chunks, hchunks, hnew⟩
  exact ⟨chunks, hchunks, fun chunk hchunk => hnew _ (List.mem_map_of_mem hchunk)⟩

/-- Every id that counts is that of a row, with the text whose hash it names. -/
def Stores.Present (signature : Text) (s : Stores) : Prop :=
  ∀ (repo : RepoName) (path : Text), ∀ id ∈ countedOf (s.record repo.text signature path),
    ∃ row ∈ s.rows, row.id = id ∧ row.signature = signature ∧ row.chunk.repoId = repo.text ∧
      contentHash sha256 row.chunk.text = lastField id

variable {sha256} {signature : Text} {meets : Run → Stores → Prop} {s : Stores}

theorem lastField_id {chunk : Chunk} (h : Genuine sha256 chunk) :
    lastField chunk.id = contentHash sha256 chunk.text := by
  have hhash : '\x1f' ∉ chunk.contentHash := by
    rw [h.hashed]
    exact notMem_contentHash _
  rw [← h.hashed, Chunk.id, ← List.cons_append, ← List.append_assoc, ← List.cons_append,
    ← List.append_assoc]
  exact lastField_append hhash

theorem rows_expire (repoId signature : Text) : (s.expire repoId signature).rows = s.rows := by
  rw [Stores.expire]
  split <;> rfl

theorem record_expire (repoId signature repoId' signature' path : Text) :
    (s.expire repoId signature).record repoId' signature' path = s.record repoId' signature' path := by
  rw [Stores.expire]
  split <;> rfl

/-- Whatever fails, rows are what they say they are, and each is listed under its own path. -/
theorem Reachable.ledger (h : Reachable sha256 signature meets s) :
    s.Sound sha256 ∧ ∀ repo : RepoName, s.Ledger repo.text signature := by
  induction h with
  | empty => exact ⟨nofun, fun _ => ⟨nofun, nofun⟩⟩
  | @run s run h hsignature hmeets ih =>
    subst hsignature
    obtain ⟨hsound, hledger⟩ := ih
    have hsteps := Job.steps_runFrom run.job run.repo hsound (hledger run.repo) run.plan
    refine ⟨hsteps.sound hsound, fun repo => ?_⟩
    by_cases hrepo : repo.text = run.repo.text
    · rw [hrepo]
      exact hsteps.ledger (hledger run.repo)
    · constructor
      · intro path id hid
        rw [Run.after, hsteps.record_eq hrepo] at hid
        exact (hledger repo).owned path id hid
      · intro row hrow hrow' hsig
        rw [Run.after, hsteps.record_eq hrepo]
        exact (hledger repo).listed row ((hsteps.mem_rows_iff hsound (hrow' ▸ hrepo)).mp hrow) hrow' hsig
  | expire repoId h ih =>
    obtain ⟨hsound, hledger⟩ := ih
    refine ⟨fun row hrow => hsound row (rows_expire repoId signature ▸ hrow), fun repo => ⟨?_, ?_⟩⟩
    · intro path id hid
      rw [record_expire] at hid
      exact (hledger repo).owned path id hid
    · intro row hrow
      rw [record_expire]
      exact (hledger repo).listed row (rows_expire repoId signature ▸ hrow)

theorem holds_of_closes (h : Reachable sha256 signature (Run.Closes sha256) s) :
    ∀ (repo : RepoName) (path : Text), ∀ id ∈ countedOf (s.record repo.text signature path),
      s.Holds repo.text signature id := by
  induction h with
  | empty => nofun
  | @run s run h hsignature hcloses ih =>
    obtain ⟨hsound, hledger⟩ := h.ledger
    subst hsignature
    have hsteps := Job.steps_runFrom run.job run.repo hsound (hledger run.repo) run.plan
    intro repo path id hid
    by_cases hrepo : repo.text = run.repo.text
    · rw [hrepo] at hid ⊢
      refine (hsteps.backed hsound (hledger run.repo)).counted path (hcloses path) id hid ?_
      exact fun path' hcounted => ih run.repo path' id hcounted
    · rw [Run.after, hsteps.record_eq hrepo] at hid
      obtain ⟨row, hrow, hrest⟩ := ih repo path id hid
      exact ⟨row, (hsteps.mem_rows_iff hsound (hrest.2.2 ▸ hrepo)).mpr hrow, hrest⟩
  | expire repoId h ih =>
    intro repo path id hid
    rw [record_expire] at hid
    exact (holds_of_rows_eq (rows_expire repoId signature)).mpr (ih repo path id hid)

/-- In every history whose runs close what they open, what is confirmed is there. -/
theorem confirmed_present (h : Reachable sha256 signature (Run.Closes sha256) s) :
    s.Present sha256 signature := by
  intro repo path id hid
  obtain ⟨row, hrow, rfl, hsignature, hrepo⟩ := holds_of_closes h repo path id hid
  exact ⟨row, hrow, rfl, hsignature, hrepo, (lastField_id (h.ledger.1 row hrow)).symm⟩

theorem exists_remove_of_leftOpen {path : Text} {es : List Effect} (h : leftOpen path es = true) :
    ∃ row, .remove row true ∈ es ∧ row.chunk.path = path := by
  induction es using List.reverseRecOn with
  | nil => cases h
  | append_singleton es e ih =>
    rw [leftOpen_snoc] at h
    cases hexposes : e.exposes path with
    | none =>
      rw [hexposes] at h
      obtain ⟨row, hmem, hpath⟩ := ih h
      exact ⟨row, List.mem_append_left _ hmem, hpath⟩
    | some isOpen =>
      rw [hexposes, Option.getD_some] at h
      subst h
      cases e with
      | remove row counted =>
        cases counted with
        | false => cases hexposes
        | true =>
          refine ⟨row, List.mem_append_right _ (List.mem_singleton_self _), ?_⟩
          by_contra hne
          rw [Effect.exposes, if_neg hne] at hexposes
          cases hexposes
      | record entry =>
        rw [Effect.exposes] at hexposes
        split at hexposes <;> cases hexposes
      | forget repoId signature path' =>
        rw [Effect.exposes] at hexposes
        split at hexposes <;> cases hexposes
      | insert | claim | release => cases hexposes

/-- Every path whose counted rows are taken in these writes is closed by them. -/
def closesEach (es : List Effect) : Bool := es.all fun
  | .remove row true => !leftOpen row.chunk.path es
  | _ => true

theorem closes_of_closesEach {run : Run} (h : closesEach (run.landed sha256 s) = true) :
    run.Closes sha256 s := by
  intro path
  by_contra hopen
  obtain ⟨row, hmem, rfl⟩ := exists_remove_of_leftOpen (Bool.eq_true_of_not_eq_false hopen)
  have htest := List.all_eq_true.mp h _ hmem
  rw [Bool.not_eq_true'] at htest
  exact hopen htest

/-- Where runs close what they open, manifest and index agree. -/
theorem agrees_of_closes (h : Reachable sha256 signature (Run.Closes sha256) s) (repo : RepoName) :
    s.Agrees sha256 repo.text signature :=
  ⟨h.ledger.1, h.ledger.2 repo, holds_of_closes h repo⟩

end Hashing

namespace Sample

theorem reachable_added :
    Reachable sha256 indexer.signature (Run.Closes sha256) (added.after sha256 .empty) :=
  .run added .empty rfl (closes_of_closesEach (by decide +kernel))

/-- A file is indexed, and replaced. -/
theorem edited_present : (edited.after sha256 (added.after sha256 .empty)).Present sha256 "m".toList :=
  confirmed_present (.run edited reachable_added rfl (closes_of_closesEach (by decide +kernel)))

/-- The rows of a file are deleted, and its record still confirms them. -/
theorem removed_not_present :
    ∃ s, Reachable sha256 indexer.signature (fun _ _ => True) s ∧
      ¬s.Present sha256 indexer.signature := by
  refine ⟨removed.after sha256 (added.after sha256 .empty),
    .run removed (.run added .empty rfl trivial) rfl trivial, fun h => ?_⟩
  have hid : "o/r\x1fa.rs\x1f1\x1f2d711642b726b04401627ca9fbac32f5".toList ∈ countedOf
      ((removed.after sha256 (added.after sha256 .empty)).record repo.text indexer.signature
        "a.rs".toList) := by
    decide +kernel
  obtain ⟨row, hrow, _⟩ := h repo "a.rs".toList _ hid
  have hempty : (removed.after sha256 (added.after sha256 .empty)).rows.values = [] := by
    decide +kernel
  have hmem : row ∈ (removed.after sha256 (added.after sha256 .empty)).rows.values := hrow
  rw [hempty] at hmem
  cases hmem

/-- The process stops in the delete of the old row. -/
theorem version_survives_stop :
    let before := added.after sha256 .empty
    let after := (edited.job.runFrom sha256 repo before
      (List.replicate 10 none ++ [some (.stops fun _ => true)])).2.state.stores
    (∀ path ∈ edited.job.selected repo before,
      (∀ id ∈ countedOf (before.record repo.text indexer.signature path),
        after.Holds repo.text indexer.signature id) ∨
      ∃ chunks, edited.job.chunksOf sha256 repo path = some chunks ∧
        ∀ chunk ∈ chunks, after.Holds repo.text indexer.signature chunk.id) ∧
    ∀ row : Row, row.chunk.repoId ≠ repo.text → (row ∈ after.rows ↔ row ∈ before.rows) :=
  version_survives sha256 edited.job repo _ (agrees_of_closes reachable_added repo) _

end Sample

end TinySweeper.Index
