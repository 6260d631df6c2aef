import Mathlib.Data.Rat.Defs
import TinySweeper.Delimited
import TinySweeper.Index.Chunk
import TinySweeper.Keyed

/-!
# What the indexer keeps

The index has a row for each chunk. The manifest has a record for each repository, with
the claim on it, and a record for each file: the ids that are confirmed, and those that
are about to be written or about to be deleted.
-/

namespace TinySweeper.Index

open Text

/-- A repository as its forge names it, `owner/name`. -/
structure RepoName where
  text : Text
  plain : '\x1f' ∉ text

inductive SkipReason where
  | ignored (glob : Text)
  | unsupportedExtension (extension : Text)
  | tooLarge (bytes cap : ℕ)
  | notText
  | empty
  | unreadable (message : Text)
  deriving DecidableEq, Repr

structure SkippedFile where
  path : Text
  reason : SkipReason
  deriving DecidableEq, Repr

/-- What embedding calls cost, in US dollars. -/
structure EmbedUsage where
  calls : ℕ
  tokens : ℕ
  costUsd : ℚ
  deriving DecidableEq, Repr

def EmbedUsage.none : EmbedUsage := ⟨0, 0, 0⟩

def EmbedUsage.add (u v : EmbedUsage) : EmbedUsage :=
  ⟨u.calls + v.calls, u.tokens + v.tokens, u.costUsd + v.costUsd⟩

inductive IndexState where
  | absent
  | indexing
  | ready
  | failed
  deriving DecidableEq, Repr

/-- The marker of a chunk count that can not be trusted. -/
def COUNT_UNCERTAIN : Text := "[chunk count uncertain]".toList

inductive Settled where
  | done (revision : Option Text) (chunks : ℕ) (usage : EmbedUsage)
  | failed (message : Text) (chunks : Option ℕ)
  deriving DecidableEq, Repr

def IndexState.after : Settled → IndexState
  | .done .. => .ready
  | .failed .. => .failed

/-- A repository's index record. -/
structure RepoIndex where
  repoId : Text
  signature : Text
  state : IndexState
  revision : Option Text
  chunks : ℕ
  message : Option Text
  usage : EmbedUsage
  deriving DecidableEq, Repr

def RepoIndex.absent (repoId signature : Text) : RepoIndex :=
  ⟨repoId, signature, .absent, none, 0, none, .none⟩

def RepoIndex.isFresh (r : RepoIndex) (revision : Text) : Bool :=
  r.state = .ready && r.revision = some revision

/-- The record says that its count can not be trusted. -/
def RepoIndex.isUncertain (r : RepoIndex) : Bool :=
  r.message.any fun message => contains message COUNT_UNCERTAIN

structure IndexLease where
  repoId : Text
  signature : Text
  holder : Text
  fence : ℕ
  deriving DecidableEq, Repr

/-- One file's contribution to the index. -/
structure IndexedFile where
  path : Text
  chunks : List Text
  pending : List Text
  pendingIsStale : Bool
  deriving DecidableEq, Repr

def IndexedFile.confirmed (path : Text) (chunks : List Text) : IndexedFile :=
  ⟨path, chunks, [], false⟩

/-- What one indexing run did. -/
structure IndexReport where
  files : ℕ
  upserted : ℕ
  deleted : ℕ
  reused : ℕ
  changed : List Text
  removed : List Text
  usage : EmbedUsage
  skipped : List SkippedFile
  budgetExhausted : Bool
  unfetched : List Text
  rebuildGraph : Bool
  recount : Bool
  deriving DecidableEq, Repr

def IndexReport.default : IndexReport :=
  ⟨0, 0, 0, 0, [], [], .none, [], false, [], false, false⟩

inductive IndexOutcome where
  | indexed (report : IndexReport)
  | alreadyFresh
  | requeue (holder : Option Text)
  deriving DecidableEq, Repr

/-- A chunk in the index, with the key of the vectors it was embedded among. -/
structure Row where
  signature : Text
  chunk : Chunk
  deriving DecidableEq, Repr

def Row.id (row : Row) : Text := row.chunk.id

/-- A file's record in the manifest. -/
structure FileEntry where
  repoId : Text
  signature : Text
  file : IndexedFile
  deriving DecidableEq, Repr

def FileEntry.key (entry : FileEntry) : Text × Text × Text :=
  (entry.repoId, entry.signature, entry.file.path)

/-- A repository's record, and the claim that is held on it. -/
structure RepoEntry where
  index : RepoIndex
  lease : Option IndexLease
  deriving DecidableEq, Repr

def RepoEntry.key (entry : RepoEntry) : Text × Text := (entry.index.repoId, entry.index.signature)

structure Stores where
  rows : Keyed Row.id
  files : Keyed FileEntry.key
  records : Keyed RepoEntry.key
  nextFence : ℕ

def Stores.empty : Stores := ⟨∅, ∅, ∅, 0⟩

namespace Stores

variable (s : Stores) (repoId signature : Text)

def record (path : Text) : Option IndexedFile :=
  (s.files.get? (repoId, signature, path)).map FileEntry.file

/-- The record of a repository, or that of one that was never indexed. -/
def entry : RepoEntry :=
  (s.records.get? (repoId, signature)).getD ⟨.absent repoId signature, none⟩

def snapshot : RepoIndex := (s.entry repoId signature).index

def indexed (paths : List Text) : List IndexedFile :=
  paths.filterMap (s.record repoId signature)

def paths : List Text :=
  (s.files.values.filter fun entry => entry.repoId = repoId && entry.signature = signature).map
    fun entry => entry.file.path

/-- The rows that replace chunks by copies elsewhere, of those that are there to copy. -/
def copied (chunks : List (Text × Chunk)) : List Row :=
  chunks.filterMap fun moved =>
    ((s.rows.get? moved.1).filter fun row =>
      row.signature = signature && row.chunk.repoId = repoId).map fun row =>
        ⟨row.signature, moved.2⟩

def rowsOfPaths (paths : List Text) : List Row :=
  s.rows.values.filter fun row => row.chunk.repoId = repoId && paths.contains row.chunk.path

def rowsOfIds (ids : List Text) : List Row :=
  s.rows.values.filter fun row => row.chunk.repoId = repoId && ids.contains row.id

/-- Takes the claim; the record is that of a run in progress. -/
def claim (holder : Text) : Stores :=
  let lease := ⟨repoId, signature, holder, s.nextFence⟩
  { s with
    records := s.records.put ⟨{ s.snapshot repoId signature with state := .indexing }, some lease⟩
    nextFence := s.nextFence + 1 }

/-- How a run ended, on the record it ran under. -/
def settle (index : RepoIndex) (settled : Settled) : RepoIndex :=
  let index := { index with state := .after settled }
  match settled with
  | .done revision chunks usage =>
    { index with revision, chunks, message := none, usage := index.usage.add usage }
  | .failed message chunks =>
    { index with message := some message, chunks := chunks.getD index.chunks }

/-- Gives the claim back, if it is still this one that is held. -/
def release (lease : IndexLease) (settled : Settled) : Stores :=
  match s.records.get? (lease.repoId, lease.signature) with
  | none => s
  | some entry =>
    if entry.lease = some lease then
      { s with records := s.records.put ⟨settle entry.index settled, none⟩ }
    else s

/-- A claim that was never given back is gone after a time. -/
def expire : Stores :=
  match s.records.get? (repoId, signature) with
  | none => s
  | some entry => { s with records := s.records.put { entry with lease := none } }

end Stores

/-- One write to a store. -/
inductive Effect where
  | insert (row : Row)
  /-- A row goes; `counted` where the run subtracts it from the repository's chunks. -/
  | remove (row : Row) (counted : Bool)
  | record (entry : FileEntry)
  | forget (repoId signature path : Text)
  | claim (repoId signature holder : Text)
  | release (lease : IndexLease) (settled : Settled)

def Effect.apply : Effect → Stores → Stores
  | .insert row, s => { s with rows := s.rows.put row }
  | .remove row _, s => { s with rows := s.rows.erase row.id }
  | .record entry, s => { s with files := s.files.put entry }
  | .forget repoId signature path, s => { s with files := s.files.erase (repoId, signature, path) }
  | .claim repoId signature holder, s => s.claim repoId signature holder
  | .release lease settled, s => s.release lease settled

end TinySweeper.Index
