import Mathlib.Data.List.DropRight
import Mathlib.Data.List.Sort
import TinySweeper.Indexer.Types

/-!
# One file's plan

The chunks of a file are compared with its record: what is confirmed is not embedded
again, what moved is copied, and what is no longer there is deleted afterwards.
-/

namespace TinySweeper.Index

open Text

/-- Each of the texts once, in order. -/
def sortedSet (texts : List Text) : List Text := texts.dedup.insertionSort (· ≤ ·)

/-- The ids that count as rows: the confirmed ones, and the old ones a replacement is about
to delete. -/
def IndexedFile.counted (file : IndexedFile) : List Text :=
  file.chunks ++ if file.pendingIsStale then file.pending else []

/-- The ids that were about to be written, and never counted. -/
def IndexedFile.uncounted (file : IndexedFile) : List Text :=
  if file.pendingIsStale then [] else file.pending

/-- What follows the last separator of an id. -/
def lastField (id : Text) : Text := id.rtakeWhile (· ≠ '\x1f')

structure FileWork where
  path : Text
  ids : List Text
  toEmbed : List Chunk
  toRelocate : List (Text × Chunk)
  stale : List Text
  orphans : List Text
  previous : List Text
  reused : ℕ
  deriving DecidableEq, Repr

namespace FileWork

/-- The id to copy a chunk from: the last of those with its hash. -/
def byHash (confirmed : List Text) (hash : Text) : Option Text :=
  confirmed.reverse.find? fun id => lastField id = hash

def new (path : Text) (chunks : List Chunk) (previous : Option IndexedFile) : FileWork :=
  let confirmed := sortedSet (previous.elim [] IndexedFile.counted)
  let ids := chunks.map Chunk.id
  let unconfirmed := chunks.filter fun chunk => !confirmed.contains chunk.id
  let toEmbed := unconfirmed.filter fun chunk => (byHash confirmed chunk.contentHash).isNone
  let stale := confirmed.filter fun id => !ids.contains id
  { path
    ids
    toEmbed
    toRelocate := unconfirmed.filterMap fun chunk =>
      (byHash confirmed chunk.contentHash).map fun id => (id, chunk)
    stale
    orphans := (previous.elim [] IndexedFile.uncounted).filter fun id =>
      !ids.contains id && !stale.contains id
    previous := confirmed
    reused := ids.length - toEmbed.length }

/-- Whether this file's content differs from what the manifest confirmed. -/
def changed (work : FileWork) : Bool := sortedSet work.ids ≠ sortedSet work.previous

/-- The record before the writes: what was confirmed, and what is about to land. -/
def intent (work : FileWork) : IndexedFile :=
  ⟨work.path, work.previous, sortedSet (work.ids ++ work.stale ++ work.orphans), false⟩

/-- The record after the writes: the old ids wait for their delete. -/
def confirmation (work : FileWork) : IndexedFile := ⟨work.path, work.ids, work.stale, true⟩

def finalized (work : FileWork) : IndexedFile := .confirmed work.path work.ids

end FileWork

@[simp] theorem mem_sortedSet {texts : List Text} {text : Text} :
    text ∈ sortedSet texts ↔ text ∈ texts := by
  rw [sortedSet, List.mem_insertionSort, List.mem_dedup]

/-- The ids of a record that count as rows. -/
def countedOf (record : Option IndexedFile) : List Text := record.elim [] IndexedFile.counted

/-- The ids of a record that may be those of rows. -/
def listedOf (record : Option IndexedFile) : List Text :=
  record.elim [] fun file => file.chunks ++ file.pending

theorem mem_listedOf_iff {record : Option IndexedFile} {id : Text} :
    id ∈ listedOf record ↔
      id ∈ countedOf record ∨ id ∈ record.elim [] IndexedFile.uncounted := by
  cases record with
  | none => simp [listedOf, countedOf]
  | some file =>
    cases hstale : file.pendingIsStale <;>
      simp [listedOf, countedOf, IndexedFile.counted, IndexedFile.uncounted, hstale]

namespace FileWork

variable {path : Text} {chunks : List Chunk} {record : Option IndexedFile} {id : Text}

@[simp] theorem path_new : (new path chunks record).path = path := rfl

@[simp] theorem ids_new : (new path chunks record).ids = chunks.map Chunk.id := rfl

theorem mem_previous : id ∈ (new path chunks record).previous ↔ id ∈ countedOf record :=
  mem_sortedSet

theorem mem_stale :
    id ∈ (new path chunks record).stale ↔ id ∈ countedOf record ∧ id ∉ chunks.map Chunk.id := by
  simp only [new, List.mem_filter, mem_sortedSet, Bool.not_eq_true', List.contains_eq_mem,
    decide_eq_false_iff_not]
  exact Iff.rfl

theorem mem_orphans :
    id ∈ (new path chunks record).orphans ↔ id ∈ record.elim [] IndexedFile.uncounted ∧
      id ∉ chunks.map Chunk.id ∧ id ∉ (new path chunks record).stale := by
  simp only [new, List.mem_filter, Bool.and_eq_true, Bool.not_eq_true', List.contains_eq_mem,
    decide_eq_false_iff_not]

/-- What a plan supersedes is not what it confirms. -/
theorem notMem_counted_of_mem_orphans (h : id ∈ (new path chunks record).orphans) :
    id ∉ countedOf record := by
  obtain ⟨_, hids, hstale⟩ := mem_orphans.mp h
  exact fun hcounted => hstale (mem_stale.mpr ⟨hcounted, hids⟩)

theorem byHash_eq_some {confirmed : List Text} {hash : Text} (h : byHash confirmed hash = some id) :
    id ∈ confirmed ∧ lastField id = hash :=
  ⟨List.mem_reverse.mp (List.mem_of_find?_eq_some h), by simpa using List.find?_some h⟩

theorem mem_toEmbed {chunk : Chunk} (h : chunk ∈ (new path chunks record).toEmbed) :
    chunk ∈ chunks ∧ chunk.id ∉ countedOf record := by
  simp only [new, List.mem_filter, Bool.not_eq_true', List.contains_eq_mem,
    decide_eq_false_iff_not, mem_sortedSet] at h
  exact h.1

theorem mem_toRelocate {source : Text} {chunk : Chunk}
    (h : (source, chunk) ∈ (new path chunks record).toRelocate) :
    chunk ∈ chunks ∧ chunk.id ∉ countedOf record ∧ source ∈ countedOf record ∧
      lastField source = chunk.contentHash := by
  simp only [new, List.mem_filterMap, List.mem_filter, Bool.not_eq_true', List.contains_eq_mem,
    decide_eq_false_iff_not, mem_sortedSet, Option.map_eq_some_iff, Prod.mk.injEq] at h
  obtain ⟨_, hchunk, _, hfound, rfl, rfl⟩ := h
  obtain ⟨hsource, hhash⟩ := byHash_eq_some hfound
  exact ⟨hchunk.1, hchunk.2, mem_sortedSet.mp hsource, hhash⟩

/-- A chunk is confirmed already, or it is embedded, or copied. -/
theorem chunk_cases {chunk : Chunk} (h : chunk ∈ chunks) :
    chunk.id ∈ countedOf record ∨ chunk ∈ (new path chunks record).toEmbed ∨
      ∃ source, (source, chunk) ∈ (new path chunks record).toRelocate := by
  by_cases hcounted : chunk.id ∈ countedOf record
  · exact .inl hcounted
  · have hunconfirmed : chunk ∈ chunks.filter fun chunk =>
        !(sortedSet (record.elim [] IndexedFile.counted)).contains chunk.id := by
      rw [List.mem_filter, Bool.not_eq_true', List.contains_eq_mem, decide_eq_false_iff_not,
        mem_sortedSet]
      exact ⟨h, hcounted⟩
    cases hfound : byHash (sortedSet (record.elim [] IndexedFile.counted)) chunk.contentHash with
    | none => exact .inr (.inl (List.mem_filter.mpr ⟨hunconfirmed, by rw [hfound]; rfl⟩))
    | some source =>
      exact .inr (.inr ⟨source, List.mem_filterMap.mpr ⟨chunk, hunconfirmed, by rw [hfound]; rfl⟩⟩)

@[simp] theorem counted_intent (work : FileWork) : work.intent.counted = work.previous := by
  simp [intent, IndexedFile.counted]

theorem mem_pending_intent {work : FileWork} :
    id ∈ work.intent.pending ↔ id ∈ work.ids ∨ id ∈ work.stale ∨ id ∈ work.orphans := by
  simp [intent]

@[simp] theorem counted_confirmation (work : FileWork) :
    work.confirmation.counted = work.ids ++ work.stale := by
  simp [confirmation, IndexedFile.counted]

@[simp] theorem counted_finalized (work : FileWork) : work.finalized.counted = work.ids := by
  simp [finalized, IndexedFile.confirmed, IndexedFile.counted]

end FileWork

end TinySweeper.Index
