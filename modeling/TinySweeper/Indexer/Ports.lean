import TinySweeper.Indexer.Types
import TinySweeper.Interrupt

/-!
# The calls of a run

Every call to a port can fail, with some of its writes landed, and the process can stop
in it.
-/

namespace TinySweeper.Index

open Text Interrupt

/-- What a run works on: the stores, and its own report. -/
structure Session where
  stores : Stores
  report : IndexReport

def Session.apply (e : Effect) (s : Session) : Session := { s with stores := e.apply s.stores }

abbrev Port (α : Type) := Program Session Effect Text α

/-- A change of the report. -/
def tell (f : IndexReport → IndexReport) : Port PUnit := modify fun s => { s with report := f s.report }

namespace Port

def call {α : Type} (effects : Stores → List Effect) (answer : Stores → α) : Port α :=
  perform Session.apply (fun s => effects s.stores) fun s => answer s.stores

def read {α : Type} (answer : Stores → α) : Port α := call (fun _ => []) answer

variable (repoId signature : Text)

/-- The claim, or else who holds it. -/
def claim (holder : Text) : Port (Except (Option Text) IndexLease) :=
  call
    (fun s => if (s.entry repoId signature).lease.isNone then [.claim repoId signature holder] else [])
    fun s => match (s.entry repoId signature).lease with
      | none => .ok ⟨repoId, signature, holder, s.nextFence⟩
      | some lease => .error (some lease.holder)

def release (lease : IndexLease) (settled : Settled) : Port PUnit :=
  call (fun _ => [.release lease settled]) fun _ => .unit

def state : Port RepoIndex := read fun s => s.snapshot repoId signature

def indexed (paths : List Text) : Port (List IndexedFile) :=
  read fun s => s.indexed repoId signature paths

def paths : Port (List Text) := read fun s => s.paths repoId signature

def record (files : List IndexedFile) : Port PUnit :=
  call (fun _ => files.map fun file => .record ⟨repoId, signature, file⟩) fun _ => .unit

def forget (paths : List Text) : Port PUnit :=
  call (fun _ => paths.map (.forget repoId signature)) fun _ => .unit

def upsert (chunks : List Chunk) : Port ℕ :=
  call (fun _ => chunks.map fun chunk => .insert ⟨signature, chunk⟩) fun _ => chunks.length

def relocate (chunks : List (Text × Chunk)) : Port ℕ :=
  call (fun s => (s.copied repoId signature chunks).map .insert)
    fun s => (s.copied repoId signature chunks).length

def deletePaths (paths : List Text) : Port ℕ :=
  call (fun s => (s.rowsOfPaths repoId paths).map (.remove · false))
    fun s => (s.rowsOfPaths repoId paths).length

/-- `counted` where the caller subtracts the answer from the repository's chunks. -/
def deleteChunks (counted : Bool) (ids : List Text) : Port ℕ :=
  call (fun s => (s.rowsOfIds repoId ids).map (.remove · counted))
    fun s => (s.rowsOfIds repoId ids).length

end Port

end TinySweeper.Index
