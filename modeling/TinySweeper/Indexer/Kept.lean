import TinySweeper.Indexer.Backed

/-!
# What a run keeps

A path that is not removed loses rows that its new chunks do not need, and no others: the
rows nobody counted before the new ones are confirmed, and the old ones afterwards.
-/

namespace TinySweeper.Index

open Text FileWork

namespace Task

variable {sha256 : Text → List UInt8} {t : Task sha256} {s start : Stores} {e : Effect}
variable {es : List Effect} {path id : Text} {chunks : List Chunk}

/-- Which rows of a path that is kept can be taken, and when. -/
theorem Allows.remove_cases {row : Row} {counted : Bool}
    (h : t.Allows es s (.remove row counted)) (hsound : s.Sound sha256)
    (hledger : s.Ledger t.repo.text t.signature) (hkept : path ∉ t.removed)
    (howned : OwnedBy t.repo.text path row.id) :
    ∃ chunks record, t.Plans path chunks ∧ row.id ∉ chunks.map Chunk.id ∧
      (t.record s path = some (new path chunks record).intent ∧ row.id ∉ countedOf record ∨
        t.record s path = some (new path chunks record).confirmation) := by
  have hpath : ∀ {path'}, row.id ∈ listedOf (t.record s path') → path' = path :=
    fun hid => (hledger.owned _ _ hid).path_eq howned
  cases h with
  | @clear path' chunks record _ hplan h hrow hrepo horphan =>
    obtain rfl : path' = path := by
      refine hpath ?_
      rw [h]
      exact List.mem_append_right _ (mem_pending_intent.mpr (.inr (.inr horphan)))
    exact ⟨chunks, record, hplan, (mem_orphans.mp horphan).2.1,
      .inl ⟨h, notMem_counted_of_mem_orphans horphan⟩⟩
  | @supersede path' chunks record _ hplan h hrow hrepo hstale =>
    obtain rfl : path' = path := by
      refine hpath ?_
      rw [h]
      exact List.mem_append_right _ hstale
    exact ⟨chunks, record, hplan, (mem_stale.mp hstale).2, .inr h⟩
  | @withdraw path' _ hremoved hrow hrepo hcounted =>
    exact absurd (hpath (mem_listedOf_of_counted hcounted) ▸ hremoved) hkept
  | sweep hremoved hrow hrepo hcounted =>
    have hown := (hsound row hrow).owned
    rw [hrepo] at hown
    exact absurd (hown.path_eq howned ▸ hremoved) hkept

/-- The id of a chunk that lands belongs to a file that is planned. -/
theorem Allows.insert_cases {row : Row} (h : t.Allows es s (.insert row))
    (howned : OwnedBy t.repo.text path row.id) :
    ∃ chunks record, t.Plans path chunks ∧ row.chunk ∈ chunks ∧ row.id ∉ countedOf record ∧
      t.record s path = some (new path chunks record).intent := by
  cases h with
  | @land path' chunks record chunk hplan h hchunk hnew =>
    obtain rfl : path' = path := (hplan.owned (List.mem_map_of_mem hchunk)).path_eq howned
    exact ⟨chunks, record, hplan, hchunk, hnew, h⟩

/-- A row stays, but for a removal of its own id. -/
theorem Allows.holds_of_ne (h : t.Allows es s e) (hid : t.Holds s id)
    (hne : ∀ row counted, e = .remove row counted → id ≠ row.id) : t.Holds (e.apply s) id := by
  cases h with
  | land hplan h hchunk hnew =>
    exact (holds_insert rfl (t.own hplan.chunksOf _ hchunk).1).mpr (.inr hid)
  | clear | supersede | withdraw | sweep => exact holds_remove.mpr ⟨hid, hne _ _ rfl⟩
  | intend | confirm | finalize | forget | claim => exact hid
  | release lease settled => exact (holds_of_rows_eq (rows_release lease settled)).mpr hid

/-- No row comes to be but by an insert of its own id. -/
theorem Allows.not_holds_of_ne (h : t.Allows es s e) (hid : ¬t.Holds s id)
    (hne : ∀ row, e = .insert row → id ≠ row.id) : ¬t.Holds (e.apply s) id := by
  cases h with
  | land hplan h hchunk hnew =>
    exact fun hheld => ((holds_insert rfl (t.own hplan.chunksOf _ hchunk).1).mp hheld).elim
      (hne _ rfl) hid
  | clear | supersede | withdraw | sweep => exact fun hheld => hid (holds_remove.mp hheld).1
  | intend | confirm | finalize | forget | claim => exact hid
  | release lease settled => exact fun h => hid ((holds_of_rows_eq (rows_release lease settled)).mp h)

section Fresh

variable (hkept : path ∉ t.removed) (hchunks : t.chunksOf path = some chunks)
  (hid : id ∈ chunks.map Chunk.id)

include hkept hchunks hid

/-- A row of the new version stays. -/
theorem Allows.holds_fresh (h : t.Allows es s e) (hsound : s.Sound sha256)
    (hledger : s.Ledger t.repo.text t.signature) (hheld : t.Holds s id) : t.Holds (e.apply s) id := by
  refine h.holds_of_ne hheld ?_
  rintro row counted rfl rfl
  have howned := Plans.owned ⟨hchunks, hkept⟩ hid
  obtain ⟨chunks', _, hplan, hnot, _⟩ := h.remove_cases hsound hledger hkept howned
  rw [← Option.some.inj (hchunks.symm.trans hplan.chunksOf)] at hnot
  exact hnot hid

end Fresh

/-- What the protocol may make of the record of a path that is kept. -/
theorem Allows.record_cases (h : t.Allows es s e) (hkept : path ∉ t.removed) :
    t.record (e.apply s) path = t.record s path ∨ ∃ chunks record, t.Plans path chunks ∧
      (((t.record s path = record ∨ t.record s path = some (new path chunks record).intent) ∧
          t.record (e.apply s) path = some (new path chunks record).intent) ∨
        t.record (e.apply s) path = some (new path chunks record).confirmation ∨
          t.record (e.apply s) path = some (new path chunks record).finalized) := by
  cases h with
  | @intend path' chunks record hplan _ h =>
    rw [record_entry]
    split
    next heq =>
      obtain rfl : path = path' := heq
      exact .inr ⟨chunks, record, hplan, .inl ⟨h, rfl⟩⟩
    next => exact .inl rfl
  | @confirm path' chunks record hplan _ _ _ =>
    rw [record_entry]
    split
    next heq =>
      obtain rfl : path = path' := heq
      exact .inr ⟨chunks, record, hplan, .inr (.inl rfl)⟩
    next => exact .inl rfl
  | @finalize path' chunks record hplan _ _ =>
    rw [record_entry]
    split
    next heq =>
      obtain rfl : path = path' := heq
      exact .inr ⟨chunks, record, hplan, .inr (.inr rfl)⟩
    next => exact .inl rfl
  | @forget path' hremoved _ =>
    have hne : path ≠ path' := fun heq => hkept (heq ▸ hremoved)
    rw [record_forget, if_neg hne]
    exact .inl rfl
  | land | clear | supersede | withdraw | sweep | claim => exact .inl rfl
  | release lease settled => exact .inl (record_release lease settled)

/-- An intent counts what the record in its place counted. -/
theorem counted_through_intent {record : Option IndexedFile}
    (h : t.record s path = record ∨ t.record s path = some (new path chunks record).intent)
    (hid : id ∈ countedOf (t.record s path)) :
    id ∈ countedOf (some (new path chunks record).intent) := by
  rw [mem_counted_intent]
  rcases h with h | h
  · exact h ▸ hid
  · rw [h] at hid
    exact mem_counted_intent.mp hid

/-- A new id that a kept path's record counts, it counts to the end of the run. -/
theorem Allows.counted_fresh (h : t.Allows es s e) (hkept : path ∉ t.removed)
    (hid : ∀ chunks, t.chunksOf path = some chunks → id ∈ chunks.map Chunk.id →
      id ∈ countedOf (t.record s path)) :
    ∀ chunks, t.chunksOf path = some chunks → id ∈ chunks.map Chunk.id →
      id ∈ countedOf (t.record (e.apply s) path) := by
  intro chunks hchunks hmem
  rcases h.record_cases hkept with hsame | ⟨chunks', record, hplan, hafter⟩
  · exact hsame ▸ hid chunks hchunks hmem
  · obtain rfl := Option.some.inj (hchunks.symm.trans hplan.chunksOf)
    rcases hafter with ⟨hbefore, hintent⟩ | hconfirmation | hfinal
    · rw [hintent]
      exact counted_through_intent hbefore (hid chunks hchunks hmem)
    · rw [hconfirmation]
      exact List.mem_append_left _ hmem
    · rw [hfinal]
      exact List.mem_append_left _ hmem

/-- A row that a record counts is not written again, if it is missing. -/
theorem Steps.absent (h : t.Steps start es s) (hkept : path ∉ t.removed)
    (howned : OwnedBy t.repo.text path id) (hmissing : ¬t.Holds start id)
    (hid : ∀ chunks, t.chunksOf path = some chunks → id ∈ chunks.map Chunk.id →
      id ∈ countedOf (t.record start path)) :
    ¬t.Holds s id ∧ ∀ chunks, t.chunksOf path = some chunks → id ∈ chunks.map Chunk.id →
      id ∈ countedOf (t.record s path) := by
  induction h with
  | refl => exact ⟨hmissing, hid⟩
  | @snoc es s e h he ih =>
    obtain ⟨hlacks, hcounted⟩ := ih
    refine ⟨he.not_holds_of_ne hlacks ?_, he.counted_fresh hkept hcounted⟩
    rintro row rfl rfl
    obtain ⟨chunks, record, hplan, hchunk, hnew, hintent⟩ := he.insert_cases howned
    have hfresh := hcounted chunks hplan.chunksOf (List.mem_map_of_mem hchunk)
    rw [hintent, mem_counted_intent] at hfresh
    exact hnew hfresh

/-- A kept file that can not be read stays as it was. -/
theorem Allows.mem_rows_unread (h : t.Allows es s e) (hsound : s.Sound sha256)
    (hledger : s.Ledger t.repo.text t.signature) (hkept : path ∉ t.removed)
    (hchunks : t.chunksOf path = none) {row : Row} (hrepo : row.chunk.repoId = t.repo.text)
    (hpath : row.chunk.path = path) : row ∈ (e.apply s).rows ↔ row ∈ s.rows := by
  have howned : ∀ {s : Stores}, s.Sound sha256 → row ∈ s.rows → OwnedBy t.repo.text path row.id :=
    fun hsound hrow => hrepo ▸ hpath ▸ (hsound row hrow).owned
  have hunplanned : ∀ {chunks}, ¬t.Plans path chunks :=
    fun hplan => Option.some_ne_none _ (hplan.chunksOf.symm.trans hchunks)
  cases e with
  | insert row' =>
    rw [mem_rows_insert]
    constructor
    · rintro (rfl | hrow)
      · have hmem : row ∈ ((Effect.insert row).apply s).rows := mem_rows_insert.mpr (.inl rfl)
        obtain ⟨_, _, hplan, _⟩ := h.insert_cases (howned (h.sound hsound) hmem)
        exact absurd hplan hunplanned
      · exact hrow.1
    · refine fun hrow => .inr ⟨hrow, fun hid => ?_⟩
      obtain ⟨_, _, hplan, _⟩ := h.insert_cases (hid ▸ howned hsound hrow)
      exact hunplanned hplan
  | remove row' counted =>
    refine mem_rows_remove.trans (and_iff_left_of_imp fun hrow hid => ?_)
    obtain ⟨_, _, hplan, _⟩ := h.remove_cases hsound hledger hkept (hid ▸ howned hsound hrow)
    exact hunplanned hplan
  | record | forget | claim => exact Iff.rfl
  | release lease settled => rw [rows_release]

theorem Steps.mem_rows_unread (h : t.Steps start es s) (hsound : start.Sound sha256)
    (hledger : start.Ledger t.repo.text t.signature) (hkept : path ∉ t.removed)
    (hchunks : t.chunksOf path = none) {row : Row} (hrepo : row.chunk.repoId = t.repo.text)
    (hpath : row.chunk.path = path) : row ∈ s.rows ↔ row ∈ start.rows := by
  induction h with
  | refl => exact Iff.rfl
  | snoc h he ih =>
    exact (he.mem_rows_unread (h.sound hsound) (h.ledger hledger) hkept hchunks hrepo hpath).trans ih

variable (t) in
/-- All rows of the version that these ids are of, still counted, or all of the new one. -/
def EitherVersion (path : Text) (old : List Text) (s : Stores) : Prop :=
  (∀ id ∈ old, t.Holds s id ∧ id ∈ countedOf (t.record s path)) ∨
    ∃ chunks, t.chunksOf path = some chunks ∧ ∀ id ∈ chunks.map Chunk.id, t.Holds s id

/-- Confirmed chunks of a planned file are all there. -/
theorem holds_of_confirmed {among : Text → Prop} (hbacked : t.Backed among es s)
    (hamong : ∀ id, among id) (hkept : path ∉ t.removed) {file : IndexedFile}
    (h : t.record s path = some file) : ∀ id ∈ file.chunks, t.Holds s id :=
  fun id hid => hbacked.chunks path hkept file h id hid (hamong id)

theorem Allows.eitherVersion {old : List Text} (h : t.Allows es s e) (hsound : s.Sound sha256)
    (hledger : s.Ledger t.repo.text t.signature) {among : Text → Prop} (hamong : ∀ id, among id)
    (hbacked : t.Backed among es s) (hkept : path ∉ t.removed)
    (hs : t.EitherVersion path old s) : t.EitherVersion path old (e.apply s) := by
  have hbacked' := h.backed hledger hsound hbacked
  rcases hs with hold | ⟨chunks, hchunks, hnew⟩
  · -- once the new ids are confirmed, all their rows are there
    have hconfirmed : ∀ {chunks file}, t.chunksOf path = some chunks →
        t.record (e.apply s) path = some file → file.chunks = chunks.map Chunk.id →
        t.EitherVersion path old (e.apply s) := by
      intro chunks file hchunks hfile hids
      refine .inr ⟨chunks, hchunks, fun id hid => ?_⟩
      exact holds_of_confirmed hbacked' hamong hkept hfile id (hids ▸ hid)
    by_cases hall : ∀ id ∈ old, t.Holds (e.apply s) id
    · rcases h.record_cases hkept with hsame | ⟨chunks, record, hplan, ⟨hbefore, hintent⟩ | hafter⟩
      · exact .inl fun id hid => ⟨hall id hid, hsame ▸ (hold id hid).2⟩
      · refine .inl fun id hid => ⟨hall id hid, ?_⟩
        rw [hintent]
        exact counted_through_intent hbefore (hold id hid).2
      · rcases hafter with hafter | hafter <;> exact hconfirmed hplan.chunksOf hafter rfl
    · -- a row of the old version went: its path was confirmed before
      obtain ⟨id, hid, hgone⟩ : ∃ id ∈ old, ¬t.Holds (e.apply s) id := by
        simpa only [not_forall, exists_prop] using hall
      obtain ⟨hheld, hcounted⟩ := hold id hid
      have hremove : ∃ row counted, e = .remove row counted ∧ id = row.id := by
        by_contra hnone
        exact hgone (h.holds_of_ne hheld fun row counted he hrow => hnone ⟨row, counted, he, hrow⟩)
      obtain ⟨row, counted, rfl, rfl⟩ := hremove
      have howned := hledger.owned path row.id (mem_listedOf_of_counted hcounted)
      obtain ⟨chunks, record, hplan, _, ⟨hintent, hnot⟩ | hconfirmation⟩ :=
        h.remove_cases hsound hledger hkept howned
      · rw [hintent] at hcounted
        exact absurd (mem_counted_intent.mp hcounted) hnot
      · exact hconfirmed hplan.chunksOf hconfirmation rfl
  · exact .inr ⟨chunks, hchunks, fun id hid =>
      h.holds_fresh hkept hchunks hid hsound hledger (hnew id hid)⟩

theorem Steps.eitherVersion {old : List Text} (h : t.Steps start es s) (hsound : start.Sound sha256)
    (hledger : start.Ledger t.repo.text t.signature) (htrusted : ∀ id, t.Trusted start id)
    (hkept : path ∉ t.removed) (hs : t.EitherVersion path old start) :
    t.EitherVersion path old s := by
  induction h with
  | refl => exact hs
  | snoc h he ih =>
    exact he.eitherVersion (h.sound hsound) (h.ledger hledger) htrusted (h.backed hsound hledger)
      hkept ih

/-- A run leaves the rows of other repositories alone. -/
theorem Steps.mem_rows_iff (h : t.Steps start es s) (hsound : start.Sound sha256) {row : Row}
    (hrow : row.chunk.repoId ≠ t.repo.text) : row ∈ s.rows ↔ row ∈ start.rows := by
  induction h with
  | refl => exact Iff.rfl
  | snoc h he ih => exact (he.mem_rows_iff (h.sound hsound) hrow).trans ih

/-- A run leaves the records of other repositories' files alone. -/
theorem Steps.record_eq {repoId signature : Text} (h : t.Steps start es s)
    (hrepo : repoId ≠ t.repo.text) :
    s.record repoId signature path = start.record repoId signature path := by
  induction h with
  | refl => rfl
  | snoc h he ih => exact (he.record_eq hrepo).trans ih

end Task

end TinySweeper.Index
