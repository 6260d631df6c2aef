import TinySweeper.Indexer.Ledger

/-!
# Confirmed rows

A delete of counted rows comes before the write that takes their ids off the record.
Outside of this window every id that is confirmed for a path is that of a row.
-/

namespace TinySweeper.Index

open Text FileWork

namespace Task

variable {sha256 : Text → List UInt8} (t : Task sha256) (among : Text → Prop)

/-- What is confirmed for a path, among these ids, is in the index: in a removed path's record
until its rows are taken, in any other's all but what waits for its delete at all times. -/
structure Backed (es : List Effect) (s : Stores) : Prop where
  counted : ∀ path, leftOpen path es = false → ∀ id ∈ countedOf (t.record s path), among id →
    t.Holds s id
  chunks : ∀ path, path ∉ t.removed → ∀ file, t.record s path = some file →
    ∀ id ∈ file.chunks, among id → t.Holds s id

variable {t among} {s : Stores} {e : Effect} {es : List Effect} {path : Text}

theorem backed_record {file : IndexedFile} (hpath : file.path = path) (h : t.Backed among es s)
    (hcounted : leftOpen path (es ++ [.record (t.entry file)]) = false →
      ∀ id ∈ file.counted, among id → t.Holds s id)
    (hchunks : path ∉ t.removed → ∀ id ∈ file.chunks, among id → t.Holds s id) :
    t.Backed among (es ++ [.record (t.entry file)]) ((Effect.record (t.entry file)).apply s) where
  counted path' hopen id hid := by
    rw [record_entry, hpath] at hid
    split at hid
    next heq => exact hcounted (heq ▸ hopen) id hid
    next hne =>
      refine h.counted path' ?_ id hid
      rw [leftOpen_of_exposes_none] at hopen
      · exact hopen
      · have hne' : ¬file.path = path' := fun heq => hne (heq.symm.trans hpath)
        simp [Effect.exposes, entry, hne']
  chunks path' hkept file' hrecord id hid := by
    rw [record_entry, hpath] at hrecord
    split at hrecord
    next heq =>
      injection hrecord with hfile
      exact hchunks (heq ▸ hkept) id (hfile ▸ hid)
    next => exact h.chunks path' hkept file' hrecord id hid

theorem backed_remove {row : Row} {counted : Bool} (h : t.Backed among es s)
    (hcounted : ∀ path, leftOpen path (es ++ [.remove row counted]) = false →
      leftOpen path es = false ∧ row.id ∉ countedOf (t.record s path))
    (hchunks : ∀ path, path ∉ t.removed → ∀ file, t.record s path = some file →
      row.id ∉ file.chunks) :
    t.Backed among (es ++ [.remove row counted]) ((Effect.remove row counted).apply s) where
  counted path hopen id hid hamong := by
    obtain ⟨hopen', hrow⟩ := hcounted path hopen
    exact holds_remove.mpr ⟨h.counted path hopen' id hid hamong, fun heq => hrow (heq ▸ hid)⟩
  chunks path hkept file hrecord id hid hamong :=
    holds_remove.mpr ⟨h.chunks path hkept file hrecord id hid hamong,
      fun heq => hchunks path hkept file hrecord (heq ▸ hid)⟩

/-- A row's id is listed for its own path only. -/
theorem path_of_listed (hledger : s.Ledger t.repo.text t.signature) (hsound : s.Sound sha256)
    {row : Row} (hrow : row ∈ s.rows) (hrepo : row.chunk.repoId = t.repo.text)
    (hid : row.id ∈ listedOf (t.record s path)) : row.chunk.path = path := by
  have hown := (hsound row hrow).owned
  rw [hrepo] at hown
  exact hown.path_eq (hledger.owned path _ hid)

theorem mem_listedOf_of_mem_chunks {file : IndexedFile} {record : Option IndexedFile} {id : Text}
    (h : record = some file) (hid : id ∈ file.chunks) : id ∈ countedOf record := by
  subst h
  exact List.mem_append_left _ hid

/-- A row nobody counts can go. -/
theorem backed_remove_uncounted {row : Row} (h : t.Backed among es s)
    (hcounted : ∀ path, row.id ∉ countedOf (t.record s path)) :
    t.Backed among (es ++ [.remove row false]) ((Effect.remove row false).apply s) := by
  refine backed_remove h (fun path hopen => ⟨?_, hcounted path⟩)
    fun path _ _ hrecord hid => hcounted path (mem_listedOf_of_mem_chunks hrecord hid)
  rwa [leftOpen_of_exposes_none rfl] at hopen

/-- A counted row goes, and its path is open. -/
theorem backed_remove_counted {row : Row} (h : t.Backed among es s)
    (hcounted : ∀ path, row.id ∈ countedOf (t.record s path) → row.chunk.path = path)
    (hchunks : ∀ path, path ∉ t.removed → ∀ file, t.record s path = some file →
      row.id ∉ file.chunks) :
    t.Backed among (es ++ [.remove row true]) ((Effect.remove row true).apply s) := by
  refine backed_remove h (fun path hopen => ?_) hchunks
  rw [leftOpen_snoc, Effect.exposes] at hopen
  split at hopen
  · cases hopen
  next hne => exact ⟨hopen, fun hid => hne (hcounted path hid)⟩

theorem mem_counted_intent {chunks : List Chunk} {record : Option IndexedFile} {id : Text} :
    id ∈ countedOf (some (new path chunks record).intent) ↔ id ∈ countedOf record := by
  show id ∈ (new path chunks record).intent.counted ↔ id ∈ countedOf record
  rw [counted_intent]
  exact mem_previous

/-- An intent confirms what the record before it confirmed. -/
theorem counted_of_intent {chunks : List Chunk} {record : Option IndexedFile} {id : Text}
    (h : t.record s path = record ∨ t.record s path = some (new path chunks record).intent)
    (hid : id ∈ countedOf record) : id ∈ countedOf (t.record s path) := by
  rcases h with h | h
  · exact h ▸ hid
  · rw [h]
    exact mem_counted_intent.mpr hid

/-- A write that leaves the rows and the records of files alone. -/
theorem backed_of_eq {s' : Stores} (h : t.Backed among es s) (hexposes : ∀ path, e.exposes path = none)
    (hrows : s'.rows = s.rows) (hrecord : ∀ path, t.record s' path = t.record s path) :
    t.Backed among (es ++ [e]) s' := by
  constructor
  · intro path hopen id hid hamong
    rw [leftOpen_of_exposes_none (hexposes path)] at hopen
    rw [hrecord] at hid
    exact (holds_of_rows_eq hrows).mpr (h.counted path hopen id hid hamong)
  · intro path hkept file hfile id hid hamong
    rw [hrecord] at hfile
    exact (holds_of_rows_eq hrows).mpr (h.chunks path hkept file hfile id hid hamong)

theorem Allows.backed (h : t.Allows es s e) (hledger : s.Ledger t.repo.text t.signature)
    (hsound : s.Sound sha256) (hs : t.Backed among es s) : t.Backed among (es ++ [e]) (e.apply s) := by
  have hlisted : ∀ {row : Row}, row ∈ s.rows → row.chunk.repoId = t.repo.text → ∀ {path},
      row.id ∈ listedOf (t.record s path) → row.chunk.path = path :=
    fun hrow hrepo => path_of_listed hledger hsound hrow hrepo
  cases h with
  | @intend path chunks record hplan hclosed h =>
    have hold : ∀ id ∈ (new path chunks record).intent.counted, among id → t.Holds s id := by
      intro id hid
      have hid' := counted_of_intent h (mem_counted_intent.mp hid)
      exact hs.counted path hclosed id hid'
    exact backed_record rfl hs (fun _ => hold) fun _ id hid => hold id (List.mem_append_left _ hid)
  | @land path chunks record chunk hplan h hchunk hnew =>
    obtain ⟨hrepo, _, _⟩ := t.own hplan.chunksOf _ hchunk
    constructor
    · intro path' hopen id hid hamong
      rw [leftOpen_of_exposes_none rfl] at hopen
      exact (holds_insert rfl hrepo).mpr (.inr (hs.counted path' hopen id hid hamong))
    · exact fun path' hkept file hfile id hid hamong =>
        (holds_insert rfl hrepo).mpr (.inr (hs.chunks path' hkept file hfile id hid hamong))
  | @clear path chunks record row hplan h hrow hrepo horphan =>
    refine backed_remove_uncounted hs fun path' hid => ?_
    have hpath := hlisted hrow hrepo (mem_listedOf_of_counted hid)
    have hpending : row.id ∈ listedOf (t.record s path) := by
      rw [h]
      exact List.mem_append_right _ (mem_pending_intent.mpr (.inr (.inr horphan)))
    obtain rfl := (hlisted hrow hrepo hpending).symm.trans hpath
    rw [h] at hid
    exact notMem_counted_of_mem_orphans horphan (mem_counted_intent.mp hid)
  | @supersede path chunks record row hplan h hrow hrepo hstale =>
    refine backed_remove_counted hs
      (fun path' hid => hlisted hrow hrepo (mem_listedOf_of_counted hid)) ?_
    intro path' _ file hfile hid
    have hpath := hlisted hrow hrepo (mem_listedOf_of_counted (mem_listedOf_of_mem_chunks hfile hid))
    have hconfirmed : row.id ∈ listedOf (t.record s path) := by
      rw [h]
      exact List.mem_append_right _ hstale
    obtain rfl := (hlisted hrow hrepo hconfirmed).symm.trans hpath
    rw [h] at hfile
    injection hfile with hfile
    subst hfile
    exact (mem_stale.mp hstale).2 hid
  | @withdraw path row hremoved hrow hrepo hcounted =>
    refine backed_remove_counted hs
      (fun path' hid => hlisted hrow hrepo (mem_listedOf_of_counted hid)) ?_
    intro path' hkept file hfile hid
    have hpath := hlisted hrow hrepo (mem_listedOf_of_counted (mem_listedOf_of_mem_chunks hfile hid))
    obtain rfl := (hlisted hrow hrepo (mem_listedOf_of_counted hcounted)).symm.trans hpath
    exact hkept hremoved
  | @sweep row hremoved hrow hrepo hcounted =>
    refine backed_remove_uncounted hs fun path' hid => hcounted ?_
    rwa [hlisted hrow hrepo (mem_listedOf_of_counted hid)]
  | @confirm path chunks record hplan h hnew horphans =>
    have hids : ∀ id ∈ chunks.map Chunk.id, among id → t.Holds s id := by
      intro id hid hamong
      obtain ⟨chunk, hchunk, rfl⟩ := List.mem_map.mp hid
      rcases h with h | h
      · by_cases hcounted : chunk.id ∈ countedOf record
        · have hprevious : chunk.id ∈ (new path chunks record).previous := mem_previous.mpr hcounted
          exact hs.chunks path hplan.kept _ h _ hprevious hamong
        · exact hnew chunk hchunk hcounted
      · exact hs.chunks path hplan.kept _ h _ hid hamong
    refine backed_record rfl hs (fun hopen id hid => ?_) fun _ => hids
    rw [leftOpen_of_exposes_none (by simp [Effect.exposes, entry, confirmation, IndexedFile.isFinal])]
      at hopen
    rw [counted_confirmation, List.mem_append] at hid
    refine hid.elim (hids id) fun hstale => ?_
    refine hs.counted path hopen id ?_
    rcases h with h | h <;> rw [h]
    · exact mem_counted_intent.mpr (mem_stale.mp hstale).1
    · exact List.mem_append_right _ hstale
  | @finalize path chunks record hplan h hstale =>
    have hids : ∀ id ∈ chunks.map Chunk.id, among id → t.Holds s id := by
      intro id hid
      rcases h with h | h <;> exact hs.chunks path hplan.kept _ h _ hid
    exact backed_record rfl hs (fun _ id hid => hids id (by simpa using hid)) fun _ => hids
  | @forget path hremoved hrows =>
    constructor
    · intro path' hopen id hid
      rw [record_forget] at hid
      split at hid
      · cases hid
      next hne =>
        have hother : (Effect.forget t.repo.text t.signature path).exposes path' = none :=
          if_neg fun heq => hne heq.symm
        rw [leftOpen_of_exposes_none hother] at hopen
        exact hs.counted path' hopen id hid
    · intro path' hkept file hfile id hid
      rw [record_forget] at hfile
      split at hfile
      · cases hfile
      · exact hs.chunks path' hkept file hfile id hid
  | claim holder => exact backed_of_eq hs (fun _ => rfl) rfl fun _ => rfl
  | release lease settled =>
    exact backed_of_eq hs (fun _ => rfl) (rows_release lease settled)
      fun _ => record_release lease settled

variable (t) in
/-- Where the records at the start count this id, it was that of a row. -/
def Trusted (start : Stores) (id : Text) : Prop :=
  ∀ path, id ∈ countedOf (t.record start path) → t.Holds start id

/-- Ids that could be trusted at the start can be trusted in every run. -/
theorem Steps.backed {start : Stores} (h : t.Steps start es s) (hsound : start.Sound sha256)
    (hledger : start.Ledger t.repo.text t.signature) : t.Backed (t.Trusted start) es s := by
  induction h with
  | refl =>
    refine ⟨fun path _ id hid htrusted => htrusted path hid, fun path _ file hfile id hid htrusted => ?_⟩
    exact htrusted path (mem_listedOf_of_mem_chunks hfile hid)
  | snoc h he ih => exact he.backed (h.ledger hledger) (h.sound hsound) ih

end Task

end TinySweeper.Index
