import TinySweeper.Indexer.Protocol

/-!
# What the manifest knows of

Whatever lands, and in whatever order runs are cut off, each row of a repository is
listed by the record of its path, and a record lists ids of its own path alone.
-/

namespace TinySweeper.Index

open Text FileWork

variable {sha256 : Text → List UInt8} {repoId signature : Text}

/-- The manifest lists every row, each under its own path. -/
structure Stores.Ledger (repoId signature : Text) (s : Stores) : Prop where
  owned : ∀ path, ∀ id ∈ listedOf (s.record repoId signature path), OwnedBy repoId path id
  listed : ∀ row ∈ s.rows, row.chunk.repoId = repoId → row.signature = signature →
    row.id ∈ listedOf (s.record repoId signature row.chunk.path)

variable (sha256) in
/-- The chunks of the index are what they say they are. -/
def Stores.Sound (s : Stores) : Prop := ∀ row ∈ s.rows, Genuine sha256 row.chunk

theorem mem_listedOf_of_counted {record : Option IndexedFile} {id : Text}
    (h : id ∈ countedOf record) : id ∈ listedOf record :=
  mem_listedOf_iff.mpr (.inl h)

section Listings

variable {path id : Text} {chunks : List Chunk} {record : Option IndexedFile}

theorem mem_listed_intent :
    id ∈ listedOf (some (new path chunks record).intent) ↔
      id ∈ listedOf record ∨ id ∈ chunks.map Chunk.id := by
  show id ∈ (new path chunks record).previous ++ (new path chunks record).intent.pending ↔ _
  rw [List.mem_append, mem_pending_intent, mem_previous, ids_new, mem_listedOf_iff]
  constructor
  · rintro (h | h | h | h)
    · exact .inl (.inl h)
    · exact .inr h
    · exact .inl (.inl (mem_stale.mp h).1)
    · exact .inl (.inr (mem_orphans.mp h).1)
  · rintro ((h | h) | h)
    · exact .inl h
    · by_cases hids : id ∈ chunks.map Chunk.id
      · exact .inr (.inl hids)
      · by_cases hstale : id ∈ (new path chunks record).stale
        · exact .inr (.inr (.inl hstale))
        · exact .inr (.inr (.inr (mem_orphans.mpr ⟨h, hids, hstale⟩)))
    · exact .inr (.inl h)

theorem mem_listed_confirmation :
    id ∈ listedOf (some (new path chunks record).confirmation) ↔
      id ∈ chunks.map Chunk.id ∨ id ∈ (new path chunks record).stale :=
  List.mem_append

theorem mem_listed_finalized :
    id ∈ listedOf (some (new path chunks record).finalized) ↔ id ∈ chunks.map Chunk.id := by
  simp [listedOf, finalized, IndexedFile.confirmed]

/-- Between the intent and the confirmation only the rows nobody counted are dropped. -/
theorem listed_intent_cases (h : id ∈ listedOf (some (new path chunks record).intent)) :
    id ∈ listedOf (some (new path chunks record).confirmation) ∨
      id ∈ (new path chunks record).orphans := by
  rw [mem_listed_confirmation]
  rcases mem_listed_intent.mp h with h | h
  · by_cases hids : id ∈ chunks.map Chunk.id
    · exact .inl (.inl hids)
    · rcases mem_listedOf_iff.mp h with h | h
      · exact .inl (.inr (mem_stale.mpr ⟨h, hids⟩))
      · by_cases hstale : id ∈ (new path chunks record).stale
        · exact .inl (.inr hstale)
        · exact .inr (mem_orphans.mpr ⟨h, hids, hstale⟩)
  · exact .inl (.inl h)

theorem listed_confirmation_subset
    (h : id ∈ listedOf (some (new path chunks record).confirmation)) :
    id ∈ listedOf (some (new path chunks record).intent) := by
  rw [mem_listed_intent]
  rcases mem_listed_confirmation.mp h with h | h
  · exact .inr h
  · exact .inl (mem_listedOf_of_counted (mem_stale.mp h).1)

end Listings

namespace Task

variable {t : Task sha256} {s : Stores} {e : Effect} {es : List Effect} {path : Text}

theorem record_entry (file : IndexedFile) :
    t.record ((Effect.record (t.entry file)).apply s) path =
      if path = file.path then some file else t.record s path := by
  rw [record, record_record]
  simp only [entry, FileEntry.key, Prod.mk.injEq, true_and]
  rfl

theorem record_forget (path' : Text) :
    t.record ((Effect.forget t.repo.text t.signature path').apply s) path =
      if path = path' then none else t.record s path := by
  rw [record, Index.record_forget]
  simp only [Prod.mk.injEq, true_and]
  rfl

/-- A chunk of a planned file belongs to it. -/
theorem Plans.owned {chunks : List Chunk} (h : t.Plans path chunks) {id : Text}
    (hid : id ∈ chunks.map Chunk.id) : OwnedBy t.repo.text path id := by
  obtain ⟨chunk, hchunk, rfl⟩ := List.mem_map.mp hid
  obtain ⟨hrepo, hpath, hgenuine⟩ := t.own h.chunksOf chunk hchunk
  exact hrepo ▸ hpath ▸ hgenuine.owned

theorem Allows.sound (h : t.Allows es s e) (hs : s.Sound sha256) : (e.apply s).Sound sha256 := by
  cases h with
  | land hplan _ hchunk _ =>
    intro row hrow
    rcases mem_rows_insert.mp hrow with rfl | ⟨hmem, _⟩
    · exact (t.own hplan.chunksOf _ hchunk).2.2
    · exact hs row hmem
  | clear | supersede | withdraw | sweep => exact fun row hrow => hs row (mem_rows_remove.mp hrow).1
  | intend | confirm | finalize | forget | claim => exact hs
  | release lease settled =>
    intro row hrow
    rw [rows_release] at hrow
    exact hs row hrow

/-- A record takes the place of another. -/
theorem ledger_record {file : IndexedFile} (hpath : file.path = path)
    (h : s.Ledger t.repo.text t.signature)
    (howned : ∀ id ∈ listedOf (some file), OwnedBy t.repo.text path id)
    (hlisted : ∀ row ∈ s.rows, row.chunk.repoId = t.repo.text →
      row.id ∈ listedOf (t.record s path) → row.id ∈ listedOf (some file)) :
    ((Effect.record (t.entry file)).apply s).Ledger t.repo.text t.signature where
  owned path' id hid := by
    change id ∈ listedOf (t.record _ path') at hid
    rw [record_entry, hpath] at hid
    split at hid
    next heq => exact heq ▸ howned id hid
    next => exact h.owned path' id hid
  listed row hrow hrepo hsignature := by
    have hold := h.listed row hrow hrepo hsignature
    change row.id ∈ listedOf (t.record _ row.chunk.path)
    rw [record_entry, hpath]
    split
    next heq => exact hlisted row hrow hrepo (heq ▸ hold)
    next => exact hold

theorem ledger_remove {row : Row} {counted : Bool} (h : s.Ledger repoId signature) :
    ((Effect.remove row counted).apply s).Ledger repoId signature :=
  ⟨h.owned, fun row' hrow' => h.listed row' (mem_rows_remove.mp hrow').1⟩

theorem ledger_of_eq {s' : Stores} (h : s.Ledger repoId signature) (hrows : s'.rows = s.rows)
    (hrecord : ∀ path, s'.record repoId signature path = s.record repoId signature path) :
    s'.Ledger repoId signature := by
  constructor
  · intro path
    rw [hrecord]
    exact h.owned path
  · intro row hrow
    rw [hrecord]
    exact h.listed row (hrows ▸ hrow)

/-- A listing that takes in the new ids is that of the intent. -/
theorem owned_intent {chunks : List Chunk} {record : Option IndexedFile}
    (hplan : t.Plans path chunks)
    (hrecord : ∀ id ∈ listedOf record, OwnedBy t.repo.text path id) :
    ∀ id ∈ listedOf (some (new path chunks record).intent), OwnedBy t.repo.text path id := by
  intro id hid
  rcases mem_listed_intent.mp hid with hid | hid
  · exact hrecord id hid
  · exact hplan.owned hid

theorem Allows.ledger (h : t.Allows es s e) (hs : s.Ledger t.repo.text t.signature) :
    (e.apply s).Ledger t.repo.text t.signature := by
  have howned : ∀ path, ∀ id ∈ listedOf (t.record s path), OwnedBy t.repo.text path id := hs.owned
  cases h with
  | @intend path chunks record hplan hclosed h =>
    have hold := howned path
    rcases h with h | h <;> rw [h] at hold
    · refine ledger_record rfl hs (owned_intent hplan hold) fun row _ _ hid => ?_
      exact mem_listed_intent.mpr (.inl (h ▸ hid))
    · exact ledger_record rfl hs hold fun row _ _ hid => h ▸ hid
  | @land path chunks record chunk hplan h hchunk _ =>
    refine ⟨hs.owned, fun row hrow hrepo hsignature => ?_⟩
    rcases mem_rows_insert.mp hrow with rfl | ⟨hmem, _⟩
    · change chunk.id ∈ listedOf (t.record s chunk.path)
      rw [(t.own hplan.chunksOf _ hchunk).2.1, h]
      exact mem_listed_intent.mpr (.inr (List.mem_map_of_mem hchunk))
    · exact hs.listed row hmem hrepo hsignature
  | clear | supersede | withdraw | sweep => exact ledger_remove hs
  | @confirm path chunks record hplan h hnew horphans =>
    have hold := howned path
    rcases h with h | h <;> rw [h] at hold
    · refine ledger_record rfl hs (fun id hid => hold id (listed_confirmation_subset hid)) ?_
      intro row hrow hrepo hid
      change row.id ∈ listedOf (t.record s path) at hid
      rw [h] at hid
      exact (listed_intent_cases hid).resolve_right fun horphan =>
        horphans _ horphan row hrow hrepo rfl
    · exact ledger_record rfl hs hold fun row _ _ hid => h ▸ hid
  | @finalize path chunks record hplan h hstale =>
    have hold := howned path
    rcases h with h | h <;> rw [h] at hold
    · refine ledger_record rfl hs (fun id hid => hplan.owned (mem_listed_finalized.mp hid)) ?_
      intro row hrow hrepo hid
      change row.id ∈ listedOf (t.record s path) at hid
      rw [h] at hid
      rw [mem_listed_finalized]
      exact (mem_listed_confirmation.mp hid).resolve_right fun hid =>
        hstale _ hid row hrow hrepo rfl
    · exact ledger_record rfl hs hold fun row _ _ hid => h ▸ hid
  | @forget path hremoved hrows =>
    constructor
    · intro path' id hid
      change id ∈ listedOf (t.record _ path') at hid
      rw [record_forget] at hid
      split at hid
      · cases hid
      · exact hs.owned path' id hid
    · intro row hrow hrepo hsignature
      change row.id ∈ listedOf (t.record _ row.chunk.path)
      rw [record_forget, if_neg (hrows row hrow hrepo)]
      exact hs.listed row hrow hrepo hsignature
  | claim holder => exact ledger_of_eq hs rfl fun _ => rfl
  | release lease settled =>
    exact ledger_of_eq hs (rows_release lease settled) fun _ => record_release lease settled

/-- A run leaves the chunks what they say they are. -/
theorem Steps.sound {start : Stores} (h : t.Steps start es s) (hs : start.Sound sha256) :
    s.Sound sha256 := by
  induction h with
  | refl => exact hs
  | snoc _ he ih => exact he.sound ih

/-- A run leaves every row listed. -/
theorem Steps.ledger {start : Stores} (h : t.Steps start es s)
    (hs : start.Ledger t.repo.text t.signature) : s.Ledger t.repo.text t.signature := by
  induction h with
  | refl => exact hs
  | snoc _ he ih => exact he.ledger ih

/-- A run leaves the rows of other repositories alone. -/
theorem Allows.mem_rows_iff (h : t.Allows es s e) (hs : s.Sound sha256) {row : Row}
    (hrow : row.chunk.repoId ≠ t.repo.text) : row ∈ (e.apply s).rows ↔ row ∈ s.rows := by
  have hremove : ∀ {row' : Row} {counted : Bool}, row' ∈ s.rows →
      row'.chunk.repoId = t.repo.text →
      (row ∈ ((Effect.remove row' counted).apply s).rows ↔ row ∈ s.rows) := by
    intro row' counted hrow' hrepo
    rw [mem_rows_remove, and_iff_left_iff_imp]
    intro hmem hid
    exact hrow (((hs row hmem).repoId_eq (hs row' hrow') hid).trans hrepo)
  cases h with
  | land hplan _ hchunk _ =>
    obtain ⟨hrepo, _, hgenuine⟩ := t.own hplan.chunksOf _ hchunk
    rw [mem_rows_insert]
    constructor
    · rintro (rfl | h)
      · exact absurd hrepo hrow
      · exact h.1
    · exact fun hmem => .inr ⟨hmem, fun hid => hrow (((hs row hmem).repoId_eq hgenuine hid).trans hrepo)⟩
  | clear _ _ hmem hrepo | supersede _ _ hmem hrepo | withdraw _ hmem hrepo | sweep _ hmem hrepo =>
    exact hremove hmem hrepo
  | intend | confirm | finalize | forget | claim => exact Iff.rfl
  | release lease settled => rw [rows_release]

/-- A run leaves the records of other repositories' files alone. -/
theorem Allows.record_eq (h : t.Allows es s e) (hrepo : repoId ≠ t.repo.text) :
    (e.apply s).record repoId signature path = s.record repoId signature path := by
  have hentry : ∀ file, ((Effect.record (t.entry file)).apply s).record repoId signature path =
      s.record repoId signature path := by
    intro file
    rw [record_record, if_neg]
    exact fun h => hrepo (congrArg Prod.fst h)
  cases h with
  | intend | confirm | finalize => exact hentry _
  | land | clear | supersede | withdraw | sweep | claim => rfl
  | forget =>
    rw [Index.record_forget, if_neg]
    exact fun h => hrepo (congrArg Prod.fst h)
  | release lease settled => rw [record_release]

end Task

end TinySweeper.Index
