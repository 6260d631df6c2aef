import Mathlib.Data.List.Basic
import TinySweeper.Indexer.FileWork
import TinySweeper.Indexer.Ports

/-!
# The indexing run

Write first, delete afterwards: the ids that are about to land are recorded, the chunks
are embedded and written, the ids are confirmed, and only then the old rows go.
-/

namespace TinySweeper.Index

open Text Findings Interrupt TinySweeper.Chunk

/-- What reading a file of the checkout comes to. -/
inductive Content where
  | unreadable (message : Text)
  | notText
  | text (source : Text)
  deriving DecidableEq, Repr

/-- Picks the spans of a file, and labels its language. -/
structure Chunker where
  spans : (path source : Text) → List SourceChunk
  label : (path : Text) → Option Text

/-- A tree on disk, as the selector walks it, stats its paths and reads its files. -/
structure Checkout where
  walk : Except Text (List (Text × ℕ) × List SkippedFile)
  stat : Text → Option ℕ
  content : Text → Content

structure Indexer where
  signature : Text
  /-- What an embedding call is expected to cost, and what it is charged. -/
  ofCall : List Text → EmbedUsage
  charge : List Text → EmbedUsage
  chunker : Chunker
  reject : Text → ℕ → Option SkipReason
  batch : ℕ
  maxBatchTokens : ℕ
  group : ℕ
  budgetUsd : Option ℚ
  holder : Text
  revoked : List Text
  missing : List Text

def under (dirs : List Text) (path : Text) : Bool := dirs.any fun dir => dir.isPrefixOf path

section Hashing

variable (sha256 : Text → List UInt8)

def Chunker.chunk (chunker : Chunker) (repoId path source : Text) : List Chunk :=
  (chunker.spans path source).map (ofSpan sha256 repoId path (chunker.label path))

/-- The chunks of a file, or why it has none. -/
def Chunker.chunkBytes (chunker : Chunker) (repoId path : Text) :
    Content → Except SkipReason (List Chunk)
  | .unreadable message => .error (.unreadable message)
  | .notText => .error .notText
  | .text source =>
    if (trim source).isEmpty then .error .empty else .ok (chunker.chunk sha256 repoId path source)

end Hashing

/-- The slices of a queue, each under both ceilings, from one that begins at `start`. -/
def batchBoundsFrom (maxItems maxTokens : ℕ) :
    (start position tokens : ℕ) → List (ℕ × Chunk) → List (ℕ × ℕ)
  | start, position, _, [] => if start < position then [(start, position)] else []
  | start, position, tokens, (_, chunk) :: queue =>
    let cost := utf8Len chunk.text
    let full := position - start ≥ maxItems
    let tooMany := position > start ∧ tokens + cost > maxTokens
    if full ∨ tooMany then
      (start, position) :: batchBoundsFrom maxItems maxTokens position (position + 1) cost queue
    else batchBoundsFrom maxItems maxTokens start (position + 1) (tokens + cost) queue

def batchBounds (queue : List (ℕ × Chunk)) (maxItems maxTokens : ℕ) : List (ℕ × ℕ) :=
  batchBoundsFrom (max maxItems 1) maxTokens 0 0 0 queue

/-- How many chunks were written, of each file and in all. -/
structure Written where
  perFile : List ℕ
  total : ℕ
  deriving DecidableEq, Repr

def Written.add (w : Written) (batch : List (ℕ × Chunk)) : Written :=
  ⟨batch.foldl (fun perFile item => perFile.modify item.1 (· + 1)) w.perFile,
    w.total + batch.length⟩

namespace Indexer

variable (indexer : Indexer) (repoId : Text)

def overBudget (costUsd : ℚ) : Bool := indexer.budgetUsd.any (· < costUsd)

/-- Embeds and writes batch after batch, up to the first that the budget does not allow. -/
def embedBatches (queue : List (ℕ × Chunk)) : List (ℕ × ℕ) → Written → Port Written
  | [], written => pure written
  | (start, stop) :: bounds, written => do
    let batch := (queue.take stop).drop start
    let texts := batch.map fun item => item.2.text
    let spent ← look fun s => s.report.usage.costUsd
    if indexer.overBudget (spent + (indexer.ofCall texts).costUsd) then
      tell fun report => { report with budgetExhausted := true }
      pure written
    else
      let response ← Port.read fun _ => indexer.charge texts
      tell fun report =>
        { report with usage := report.usage.add ⟨1, response.tokens, response.costUsd⟩ }
      let _ ← Port.upsert indexer.signature (batch.map Prod.snd)
      embedBatches queue bounds (written.add batch)

def queueOf (work : List FileWork) : List (ℕ × Chunk) :=
  (work.zipIdx).flatMap fun file => file.1.toEmbed.map fun chunk => (file.2, chunk)

/-- Where a file's last queued chunk sits. -/
def lastPosition (queue : List (ℕ × Chunk)) (index : ℕ) : Option ℕ :=
  ((queue.zipIdx.filter fun item => item.1.1 = index).getLast?).map Prod.snd

/-- The files whose every queued chunk was written, with their places. -/
def finishedOf (work : List FileWork) (written : Written) : List (FileWork × ℕ) :=
  work.zipIdx.filter fun file =>
    (lastPosition (queueOf work) file.2).all (· < written.total)

/-- The rows that became counted with these files. -/
def writtenOf (files : List (FileWork × ℕ)) (written : Written) : ℕ :=
  (files.map fun file => written.perFile.getD file.2 0 + file.1.toRelocate.length).sum

/-- Which of these files are on record with their new ids, where recording them failed. -/
def landedOf (files : List (FileWork × ℕ)) : Port (List (FileWork × ℕ)) := do
  let landed ← attempt (Port.indexed repoId indexer.signature (files.map fun file => file.1.path))
  match landed with
  | .ok landed =>
    pure (files.filter fun file =>
      landed.any fun onRecord => onRecord.path = file.1.path && onRecord.chunks = file.1.ids)
  | .error err => do
    tell fun report => { report with recount := true }
    raise err

/-- Deletes what an earlier intent may have written, and nobody confirmed. -/
def deleteOrphans (files : List FileWork) : Port PUnit := do
  let orphans := files.flatMap FileWork.orphans
  if !orphans.isEmpty then
    let _ ← Port.deleteChunks repoId false orphans

/-- Deletes counted rows; what the store says is subtracted from the repository's chunks. -/
def deleteCounted (ids : List Text) : Port PUnit := do
  if !ids.isEmpty then
    let deleted ← Port.deleteChunks repoId true ids
    tell fun report => { report with deleted := report.deleted + deleted }

/-- Confirms the files that finished, and deletes what they supersede. -/
def conclude (finished : List (FileWork × ℕ)) (written : Written) : Port PUnit := do
  let files := finished.map Prod.fst
  deleteOrphans repoId files
  let recorded ← attempt
    (Port.record repoId indexer.signature (files.map FileWork.confirmation))
  let counted ← (match recorded with
    | .ok _ => pure finished
    | .error _ => indexer.landedOf repoId finished)
  tell fun report => { report with upserted := report.upserted + writtenOf counted written }
  match recorded with
  | .error err => raise err
  | .ok _ => do
    deleteCounted repoId (files.flatMap FileWork.stale)
    Port.record repoId indexer.signature (files.map FileWork.finalized)

def DISAPPEARED : Text :=
  "forge: a confirmed chunk disappeared before its vector could be reused".toList

/-- Writes a group's new rows: the intents first, then what moved, then what is new. -/
def writeGroup (work : List FileWork) : Port PUnit := do
  Port.record repoId indexer.signature (work.map FileWork.intent)
  let relocations := work.flatMap FileWork.toRelocate
  let relocated ← Port.relocate repoId indexer.signature relocations
  if relocated ≠ relocations.length then raise DISAPPEARED
  else
    let queue := queueOf work
    let written ← indexer.embedBatches queue
      (batchBounds queue indexer.batch indexer.maxBatchTokens) ⟨List.replicate work.length 0, 0⟩
    indexer.conclude repoId (finishedOf work written) written

section Hashing

variable (sha256 : Text → List UInt8) (content : Text → Content)

/-- The plan of one file, from what is on record for its group, or why it has none. -/
def planFile (known : List IndexedFile) (path : Text) : Except SkippedFile FileWork :=
  match indexer.chunker.chunkBytes sha256 repoId path (content path) with
  | .ok chunks => .ok (.new path chunks (known.find? fun file => file.path = path))
  | .error reason => .error ⟨path, reason⟩

def indexGroup (group : List Text) : Port PUnit := do
  let known ← Port.indexed repoId indexer.signature group
  let plans := group.map (indexer.planFile repoId sha256 content known)
  let work := plans.filterMap Except.toOption
  tell fun report => { report with skipped := report.skipped ++ plans.filterMap fun
    | .error skipped => some skipped
    | .ok _ => none }
  if work.isEmpty then pure .unit
  else
    tell fun report => { report with
      files := report.files + work.length
      reused := report.reused + (work.map FileWork.reused).sum
      changed := report.changed ++ (work.filter FileWork.changed).map FileWork.path }
    indexer.writeGroup repoId work

/-- Group after group, up to the one where the budget ran out. -/
def indexGroups : List (List Text) → Port PUnit
  | [] => pure .unit
  | group :: groups => do
    let exhausted ← look fun s => s.report.budgetExhausted
    if exhausted then pure .unit
    else
      indexer.indexGroup repoId sha256 content group
      indexGroups groups

/-- Deletes every row of these paths: the counted ones, and then the rest. -/
def removeRows (paths : List Text) : Port PUnit := do
  if paths.isEmpty then pure .unit
  else
    let files ← Port.indexed repoId indexer.signature paths
    deleteCounted repoId (files.flatMap IndexedFile.counted)
    let _ ← Port.deletePaths repoId paths

/-- Deletes every row of these paths, and forgets the paths. -/
def removeAll (removed : List Text) : Port PUnit := do
  if !removed.isEmpty then
    indexer.removeRows repoId removed
    Port.forget repoId indexer.signature removed
    tell fun report => { report with removed }

/-- The paths that are removed: those of a submodule that is only missing are kept. -/
def removable (removed : List Text) : List Text :=
  removed.filter fun path => !(under indexer.missing path && !under indexer.revoked path)

def unfetched : List Text :=
  (indexer.missing.filter fun dir => !under indexer.revoked dir).map (·.rdropWhile (· = '/'))

def run (selected removed : List Text) : Port PUnit := do
  let removed := indexer.removable removed
  tell fun report => { report with unfetched := indexer.unfetched }
  indexer.removeRows repoId (removed.filter (under indexer.revoked))
  indexer.indexGroups repoId sha256 content (selected.toChunks (max indexer.group 1))
  indexer.removeAll repoId removed

/-- How many paths one recount lookup asks the manifest for at a time. -/
def RECOUNT_BATCH : ℕ := 500

def recountBatches : List (List Text) → ℕ → Port ℕ
  | [], total => pure total
  | batch :: batches, total => do
    let files ← Port.indexed repoId indexer.signature batch
    recountBatches batches (total + (files.map fun file => file.counted.length).sum)

/-- The repository's counted rows, from the manifest. -/
def recount : Port ℕ := do
  let paths ← Port.paths repoId indexer.signature
  indexer.recountBatches repoId (paths.toChunks RECOUNT_BATCH) 0

/-- Ends a run that gave up; that the claim can not be given back does not mask why. -/
def giveUp {α : Type} (lease : IndexLease) (message : Text) (chunks : Option ℕ) (err : Text) :
    Port α := do
  let _ ← attempt (Port.release lease (.failed message chunks))
  raise err

def settle (lease : IndexLease) (chunks : ℕ) (revision : Text) (report : IndexReport) : Port PUnit :=
  Port.release lease (.done
    (if !report.budgetExhausted && report.unfetched.isEmpty then some revision else none)
    chunks report.usage)

/-- Which paths a run removes. -/
inductive Removed where
  | these (paths : List Text)
  | notSeenByTheWalk

def uncertain (message : Text) : Text := message ++ ' ' :: COUNT_UNCERTAIN

/-- The paths a run removes, where these are the ones on record. -/
def removedOf (selected known : List Text) : Removed → List Text
  | .these paths =>
    known.foldl (fun paths path =>
      if !selected.contains path && !paths.contains path && under indexer.revoked path then
        paths ++ [path]
      else paths) paths
  | .notSeenByTheWalk => known.filter fun path => !selected.contains path

def removedPaths (selected : List Text) : Removed → Port (List Text)
  | .these paths =>
    if indexer.revoked.isEmpty then pure paths
    else do
      let known ← Port.paths repoId indexer.signature
      pure (indexer.removedOf selected known (.these paths))
  | .notSeenByTheWalk => do
    let known ← Port.paths repoId indexer.signature
    pure (indexer.removedOf selected known .notSeenByTheWalk)

/-- Takes the claim, runs, and releases it whatever happens. -/
def guarded (revision : Text) (selected : List Text) (skipped : List SkippedFile)
    (removed : Removed) : Port IndexOutcome := do
  let claim ← Port.claim repoId indexer.signature indexer.holder
  match claim with
  | .error holder => pure (.requeue holder)
  | .ok lease => do
    let state ← attempt (Port.state repoId indexer.signature)
    match state with
    | .error err => giveUp lease err none err
    | .ok state => do
      let removed ← attempt (indexer.removedPaths repoId selected removed)
      match removed with
      | .error err => giveUp lease err none err
      | .ok removed => do
        tell fun _ => { IndexReport.default with
          skipped
          rebuildGraph := state.revision.isNone || state.message.isSome
          recount := state.revision.isNone || state.isUncertain }
        let outcome ← attempt (indexer.run repoId sha256 content selected removed)
        let report ← look Session.report
        match outcome with
        | .ok _ =>
          if report.recount then do
            let chunks ← attempt (indexer.recount repoId)
            match chunks with
            | .error err => giveUp lease (uncertain err) none err
            | .ok chunks => do
              settle lease chunks revision report
              pure (.indexed report)
          else do
            settle lease (state.chunks + report.upserted - report.deleted) revision report
            pure (.indexed report)
        | .error err =>
          giveUp lease (if report.recount then uncertain err else err)
            (if report.upserted ≠ 0 ∨ report.deleted ≠ 0 then
              some (state.chunks + report.upserted - report.deleted)
            else none) err

end Hashing

/-- What a run is to index, and to remove. -/
structure Selection where
  selected : List Text
  skipped : List SkippedFile
  removed : Removed

/-- The files that are kept, of these with their sizes, and why the others are not. -/
def select (files : List (Text × ℕ)) : List Text × List SkippedFile :=
  (files.filterMap fun file => if (indexer.reject file.1 file.2).isNone then some file.1 else none,
    files.filterMap fun file => (indexer.reject file.1 file.2).map fun reason => ⟨file.1, reason⟩)

/-- A path that leads out of the checkout. -/
def isUnsafe (path : Text) : Bool := path.head? = some '/' || (path.splitOn '/').contains "..".toList

variable (sha256 : Text → List UInt8) (checkout : Checkout) (revision : Text)

/-- What a walk of the whole checkout comes to. -/
def walked : Except Text Selection :=
  checkout.walk.map fun found =>
    let selection := indexer.select found.1
    ⟨selection.1, selection.2 ++ found.2, .notSeenByTheWalk⟩

/-- The size of a file of the checkout. -/
def sizeOf (path : Text) : Option ℕ := if isUnsafe path then none else checkout.stat path

/-- What a list of changed paths comes to: what is gone or no longer selected is removed. -/
def touched (paths : List Text) : Selection :=
  let sized := paths.filterMap fun path => (sizeOf checkout path).map fun size => (path, size)
  let gone := paths.filter fun path => (sizeOf checkout path).isNone
  let selection := indexer.select sized
  ⟨selection.1, selection.2, .these (gone ++ selection.2.map SkippedFile.path)⟩

/-- Indexes a whole checkout. -/
def indexRepo : Port IndexOutcome := do
  let state ← Port.state repoId indexer.signature
  if state.isFresh revision then pure .alreadyFresh
  else
    match indexer.walked checkout with
    | .error err => raise err
    | .ok selection =>
      indexer.guarded repoId sha256 checkout.content revision selection.selected selection.skipped
        selection.removed

/-- Indexes only the paths a push touched. -/
def indexPaths (paths : List Text) : Port IndexOutcome := do
  let state ← Port.state repoId indexer.signature
  if state.revision.isNone then indexer.indexRepo repoId sha256 checkout revision
  else
    let selection := indexer.touched checkout paths
    indexer.guarded repoId sha256 checkout.content revision selection.selected selection.skipped
      selection.removed

end Indexer

end TinySweeper.Index
