import TinySweeper.Indexer.FileWork
import TinySweeper.Latest

/-!
# The protocol of one file's replacement

What the manifest says of a file and which of its rows the index holds change by single
writes. A file is replaced in an order: the intent, the new rows, the rows nobody
counted, the confirmation, the superseded rows, the final record. A path that is removed
loses its rows first and its record last.
-/

namespace TinySweeper.Index

open Text

section View

variable (repoId signature : Text) (s : Stores)

/-- The index has the row of this id, under this signature. -/
def Stores.Holds (id : Text) : Prop :=
  ∃ row ∈ s.rows, row.id = id ∧ row.signature = signature ∧ row.chunk.repoId = repoId

/-- No row of the repository has this id. -/
def Stores.Lacks (id : Text) : Prop := ∀ row ∈ s.rows, row.chunk.repoId = repoId → row.id ≠ id

/-- The form of an id of a chunk of this file. -/
def OwnedBy (path id : Text) : Prop :=
  ∃ line hash, '\x1f' ∉ line ∧ '\x1f' ∉ hash ∧
    id = repoId ++ '\x1f' :: (path ++ '\x1f' :: (line ++ '\x1f' :: hash))

end View

theorem lastField_append {before after : Text} (h : '\x1f' ∉ after) :
    lastField (before ++ '\x1f' :: after) = after := by
  rw [lastField, List.rtakeWhile, List.reverse_append, List.reverse_cons, List.append_assoc,
    List.takeWhile_append_of_pos, List.singleton_append, List.takeWhile_cons_of_neg (by simp),
    List.append_nil, List.reverse_reverse]
  intro c hc
  rw [decide_eq_true_iff]
  rintro rfl
  exact h (List.mem_reverse.mp hc)

theorem last_split {before before' after after' : Text} (hafter : '\x1f' ∉ after)
    (hafter' : '\x1f' ∉ after') (h : before ++ '\x1f' :: after = before' ++ '\x1f' :: after') :
    before = before' ∧ after = after' := by
  have heq : after = after' := by
    rw [← @lastField_append before _ hafter, h, lastField_append hafter']
  subst heq
  exact ⟨List.append_cancel_right h, rfl⟩

theorem OwnedBy.path_eq {repoId path path' id : Text} (h : OwnedBy repoId path id)
    (h' : OwnedBy repoId path' id) : path = path' := by
  obtain ⟨line, hash, hline, hhash, rfl⟩ := h
  obtain ⟨line', hash', hline', hhash', heq⟩ := h'
  have hrest := List.append_cancel_left heq
  rw [List.cons.injEq, and_iff_right rfl] at hrest
  rw [← List.cons_append, ← List.append_assoc, ← List.cons_append, ← List.append_assoc] at hrest
  obtain ⟨hfront, _⟩ := last_split hhash hhash' hrest
  exact (last_split hline hline' hfront).1

/-- A record of a file that awaits nothing. -/
def IndexedFile.isFinal (file : IndexedFile) : Bool := file.pending.isEmpty && !file.pendingIsStale

/-- A counted row of the path is taken, or the path's record is brought in line with its rows. -/
def Effect.exposes (path : Text) : Effect → Option Bool
  | .remove row true => if row.chunk.path = path then some true else none
  | .record entry => if entry.file.path = path && entry.file.isFinal then some false else none
  | .forget _ _ path' => if path' = path then some false else none
  | _ => none

/-- Counted rows of the path were taken, and its record was not brought in line since. -/
def leftOpen (path : Text) (es : List Effect) : Bool := latest (Effect.exposes path) false es

theorem leftOpen_snoc (path : Text) (es : List Effect) (e : Effect) :
    leftOpen path (es ++ [e]) = (e.exposes path).getD (leftOpen path es) := by
  rw [leftOpen, latest_append]
  rfl

theorem leftOpen_of_exposes_none {path : Text} {es : List Effect} {e : Effect}
    (h : e.exposes path = none) : leftOpen path (es ++ [e]) = leftOpen path es := by
  rw [leftOpen_snoc, h]
  rfl

section Hashing

variable {sha256 : Text → List UInt8}

theorem notMem_contentHash (text : Text) : '\x1f' ∉ contentHash sha256 text := by
  have hdigit : ∀ n < 16, '\x1f' ≠ Nat.digitChar n := by decide
  intro h
  obtain ⟨byte, _, hbyte⟩ := List.mem_flatMap.mp h
  rcases List.mem_pair.mp hbyte with heq | heq
  · have hlt := byte.toNat_lt
    exact hdigit _ (by omega) heq
  · exact hdigit _ (Nat.mod_lt _ (by decide)) heq

variable (sha256) in
/-- A chunk names the hash of its text, and its repository has a plain name. -/
structure Genuine (chunk : Chunk) : Prop where
  hashed : chunk.contentHash = contentHash sha256 chunk.text
  plain : '\x1f' ∉ chunk.repoId

theorem Genuine.owned {chunk : Chunk} (h : Genuine sha256 chunk) :
    OwnedBy chunk.repoId chunk.path chunk.id :=
  ⟨decimal chunk.startLine, chunk.contentHash, notMem_decimal (by decide) _,
    h.hashed ▸ notMem_contentHash _, rfl⟩

/-- The id of a chunk names its repository. -/
theorem Genuine.repoId_eq {c d : Chunk} (hc : Genuine sha256 c) (hd : Genuine sha256 d)
    (h : c.id = d.id) : c.repoId = d.repoId := by
  have hsplit := congrArg (splitOnce '\x1f') h
  rw [Chunk.id, Chunk.id, splitOnce_append hc.plain, splitOnce_append hd.plain] at hsplit
  injection hsplit with hsplit
  injection hsplit

variable (sha256) in
/-- What a run is about: a repository, the new chunks of the files it could read, and the
paths it removes. -/
structure Task where
  repo : RepoName
  signature : Text
  chunksOf : Text → Option (List Chunk)
  removed : List Text
  own : ∀ {path chunks}, chunksOf path = some chunks → ∀ chunk ∈ chunks,
    chunk.repoId = repo.text ∧ chunk.path = path ∧ Genuine sha256 chunk

namespace Task

variable (t : Task sha256)

def record (s : Stores) (path : Text) : Option IndexedFile := s.record t.repo.text t.signature path

def Holds (s : Stores) (id : Text) : Prop := s.Holds t.repo.text t.signature id

def Lacks (s : Stores) (id : Text) : Prop := s.Lacks t.repo.text id

def entry (file : IndexedFile) : FileEntry := ⟨t.repo.text, t.signature, file⟩

/-- A plan of a file that is not removed, made from some record of it. -/
structure Plans (path : Text) (chunks : List Chunk) : Prop where
  chunksOf : t.chunksOf path = some chunks
  kept : path ∉ t.removed

/-- The writes a run may make after these, each with what it may rely on. -/
inductive Allows (es : List Effect) (s : Stores) : Effect → Prop where
  | intend {path chunks} (record) (hplan : t.Plans path chunks) (hclosed : leftOpen path es = false)
      (h : t.record s path = record ∨
        t.record s path = some (FileWork.new path chunks record).intent) :
      Allows es s (.record (t.entry (FileWork.new path chunks record).intent))
  | land {path chunks record chunk} (hplan : t.Plans path chunks)
      (h : t.record s path = some (FileWork.new path chunks record).intent)
      (hchunk : chunk ∈ chunks) (hnew : chunk.id ∉ countedOf record) :
      Allows es s (.insert ⟨t.signature, chunk⟩)
  | clear {path chunks record row} (hplan : t.Plans path chunks)
      (h : t.record s path = some (FileWork.new path chunks record).intent)
      (hrow : row ∈ s.rows) (hrepo : row.chunk.repoId = t.repo.text)
      (horphan : row.id ∈ (FileWork.new path chunks record).orphans) :
      Allows es s (.remove row false)
  | confirm {path chunks} (record) (hplan : t.Plans path chunks)
      (h : t.record s path = some (FileWork.new path chunks record).intent ∨
        t.record s path = some (FileWork.new path chunks record).confirmation)
      (hnew : ∀ chunk ∈ chunks, chunk.id ∉ countedOf record → t.Holds s chunk.id)
      (horphans : ∀ id ∈ (FileWork.new path chunks record).orphans, t.Lacks s id) :
      Allows es s (.record (t.entry (FileWork.new path chunks record).confirmation))
  | supersede {path chunks record row} (hplan : t.Plans path chunks)
      (h : t.record s path = some (FileWork.new path chunks record).confirmation)
      (hrow : row ∈ s.rows) (hrepo : row.chunk.repoId = t.repo.text)
      (hstale : row.id ∈ (FileWork.new path chunks record).stale) :
      Allows es s (.remove row true)
  | finalize {path chunks} (record) (hplan : t.Plans path chunks)
      (h : t.record s path = some (FileWork.new path chunks record).confirmation ∨
        t.record s path = some (FileWork.new path chunks record).finalized)
      (hstale : ∀ id ∈ (FileWork.new path chunks record).stale, t.Lacks s id) :
      Allows es s (.record (t.entry (FileWork.new path chunks record).finalized))
  | withdraw {path row} (hremoved : path ∈ t.removed) (hrow : row ∈ s.rows)
      (hrepo : row.chunk.repoId = t.repo.text) (hcounted : row.id ∈ countedOf (t.record s path)) :
      Allows es s (.remove row true)
  | sweep {row} (hremoved : row.chunk.path ∈ t.removed) (hrow : row ∈ s.rows)
      (hrepo : row.chunk.repoId = t.repo.text)
      (hcounted : row.id ∉ countedOf (t.record s row.chunk.path)) :
      Allows es s (.remove row false)
  | forget {path} (hremoved : path ∈ t.removed)
      (hrows : ∀ row ∈ s.rows, row.chunk.repoId = t.repo.text → row.chunk.path ≠ path) :
      Allows es s (.forget t.repo.text t.signature path)
  | claim (holder) : Allows es s (.claim t.repo.text t.signature holder)
  | release (lease settled) : Allows es s (.release lease settled)

/-- Writes in the order they landed, each allowed where it was made. -/
inductive Steps (s : Stores) : List Effect → Stores → Prop where
  | refl : Steps s [] s
  | snoc {es s' e} (h : Steps s es s') (he : t.Allows es s' e) : Steps s (es ++ [e]) (e.apply s')

end Task

end Hashing

section Writes

variable {repoId signature path id : Text} {s : Stores}

@[simp] theorem record_insert (row : Row) :
    ((Effect.insert row).apply s).record repoId signature path = s.record repoId signature path :=
  rfl

@[simp] theorem record_remove (row : Row) (counted : Bool) :
    ((Effect.remove row counted).apply s).record repoId signature path =
      s.record repoId signature path :=
  rfl

theorem record_record (entry : FileEntry) :
    ((Effect.record entry).apply s).record repoId signature path =
      if (repoId, signature, path) = entry.key then some entry.file
      else s.record repoId signature path := by
  rw [Stores.record, Effect.apply]
  split
  next h => rw [h, Keyed.get?_put_self]; rfl
  next h => rw [Keyed.get?_put_of_ne h]; rfl

theorem record_forget (repoId' signature' path' : Text) :
    ((Effect.forget repoId' signature' path').apply s).record repoId signature path =
      if (repoId, signature, path) = (repoId', signature', path') then none
      else s.record repoId signature path := by
  rw [Stores.record, Effect.apply]
  split
  next h => rw [h, Keyed.get?_erase_self]; rfl
  next h => rw [Keyed.get?_erase_of_ne h]; rfl

@[simp] theorem rows_claim (holder : Text) :
    ((Effect.claim repoId signature holder).apply s).rows = s.rows := rfl

@[simp] theorem files_claim (holder : Text) :
    ((Effect.claim repoId signature holder).apply s).files = s.files := rfl

@[simp] theorem rows_release (lease : IndexLease) (settled : Settled) :
    ((Effect.release lease settled).apply s).rows = s.rows := by
  rw [Effect.apply, Stores.release]
  split
  · rfl
  · split <;> rfl

@[simp] theorem files_release (lease : IndexLease) (settled : Settled) :
    ((Effect.release lease settled).apply s).files = s.files := by
  rw [Effect.apply, Stores.release]
  split
  · rfl
  · split <;> rfl

@[simp] theorem record_claim (repoId' signature' holder : Text) :
    ((Effect.claim repoId' signature' holder).apply s).record repoId signature path =
      s.record repoId signature path :=
  rfl

@[simp] theorem record_release (lease : IndexLease) (settled : Settled) :
    ((Effect.release lease settled).apply s).record repoId signature path =
      s.record repoId signature path := by
  rw [Stores.record, files_release]
  rfl

theorem mem_rows_insert {row row' : Row} :
    row' ∈ ((Effect.insert row).apply s).rows ↔ row' = row ∨ row' ∈ s.rows ∧ row'.id ≠ row.id :=
  Keyed.mem_put

theorem mem_rows_remove {row row' : Row} {counted : Bool} :
    row' ∈ ((Effect.remove row counted).apply s).rows ↔ row' ∈ s.rows ∧ row'.id ≠ row.id :=
  Keyed.mem_erase

theorem holds_insert {row : Row} (hsignature : row.signature = signature)
    (hrepo : row.chunk.repoId = repoId) :
    ((Effect.insert row).apply s).Holds repoId signature id ↔
      id = row.id ∨ s.Holds repoId signature id := by
  constructor
  · rintro ⟨row', hrow', rfl, hsig, hrepo'⟩
    rcases mem_rows_insert.mp hrow' with rfl | ⟨hmem, _⟩
    · exact .inl rfl
    · exact .inr ⟨row', hmem, rfl, hsig, hrepo'⟩
  · intro h
    by_cases hid : id = row.id
    · exact ⟨row, mem_rows_insert.mpr (.inl rfl), hid.symm, hsignature, hrepo⟩
    · obtain ⟨row', hmem, rfl, hsig, hrepo'⟩ := h.resolve_left hid
      exact ⟨row', mem_rows_insert.mpr (.inr ⟨hmem, hid⟩), rfl, hsig, hrepo'⟩

theorem holds_remove {row : Row} {counted : Bool} :
    ((Effect.remove row counted).apply s).Holds repoId signature id ↔
      s.Holds repoId signature id ∧ id ≠ row.id := by
  constructor
  · rintro ⟨row', hrow', rfl, hsig, hrepo⟩
    obtain ⟨hmem, hne⟩ := mem_rows_remove.mp hrow'
    exact ⟨⟨row', hmem, rfl, hsig, hrepo⟩, hne⟩
  · rintro ⟨⟨row', hmem, rfl, hsig, hrepo⟩, hne⟩
    exact ⟨row', mem_rows_remove.mpr ⟨hmem, hne⟩, rfl, hsig, hrepo⟩

theorem holds_of_rows_eq {s' : Stores} (h : s'.rows = s.rows) :
    s'.Holds repoId signature id ↔ s.Holds repoId signature id := by
  rw [Stores.Holds, Stores.Holds, h]

end Writes

end TinySweeper.Index
