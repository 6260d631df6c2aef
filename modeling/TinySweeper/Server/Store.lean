import TinySweeper.CompareAndSwap
import TinySweeper.ReviewJob.Machine

/-!
# The persisted scheduler

The journal is one document. Every server process changes it through
`changeReviewScheduler`: a read, a clock reading, the operation, and a write
conditional on the revision that was read.
-/

namespace TinySweeper.Server

open ReviewJob CompareAndSwap

def REVIEW_SCHEDULER_CAS_RETRIES : ℕ := 16

def REVIEW_SCHEDULER_BSON_LIMIT : ℕ := 8 * 1024 * 1024

inductive Error where
  | forge (message : String)
  | reviewCapacityFull
  deriving DecidableEq, Repr

/-- `u64::saturating_add(1)`. -/
def saturatingSucc (n : ℕ) : ℕ := min (n + 1) (2 ^ 64 - 1)

/-- `as i64` of a `u64`. -/
def asI64 (n : ℕ) : ℤ := if n < 2 ^ 63 then n else n - 2 ^ 64

section Loop

variable {δ τ κ : Type*} (serializeToDocument : ReviewSchedulerState → Except String δ)
  (toVecLen : δ → Except String ℕ)

/-- Why a journal is not written: it does not encode, or it is over the limit. -/
def refusal (state : ReviewSchedulerState) : Option Error :=
  match serializeToDocument state with
  | .error err => some (.forge ("could not encode review scheduler: " ++ err))
  | .ok document =>
    match toVecLen document with
    | .error err => some (.forge ("could not size review scheduler: " ++ err))
    | .ok len => if len > REVIEW_SCHEDULER_BSON_LIMIT then some .reviewCapacityFull else none

/-- The loop of `change_review_scheduler`, for the closure each call runs. -/
def changeReviewScheduler (change : κ → ReviewSchedulerState → ℤ → ReviewSchedulerState × τ) :
    Client ReviewSchedulerState ℤ τ Error κ where
  attempts := REVIEW_SCHEDULER_CAS_RETRIES
  revision := ReviewSchedulerState.revision
  stamp revision state := { state with revision }
  decode := ReviewSchedulerState.normalizeLegacyRecords
  next := saturatingSucc
  wire := asI64
  refusal := refusal serializeToDocument toVecLen
  change
  contended := .forge "review scheduler remained contended after bounded retries"

/-- Below `2 ^ 63` a revision counts up by one and is named exactly; an encoding
that has no larger integers keeps it there. -/
theorem changeReviewScheduler_lawful
    (change : κ → ReviewSchedulerState → ℤ → ReviewSchedulerState × τ)
    (hserialize : ∀ state document, serializeToDocument state = .ok document →
      state.revision < 2 ^ 63) :
    (changeReviewScheduler serializeToDocument toVecLen change).Lawful (2 ^ 63) := by
  constructor
  · intro n s
    rfl
  · intro s
    rfl
  · intro n hn
    show min (n + 1) (2 ^ 64 - 1) = n + 1
    omega
  · intro m hm n hn h
    simp only [changeReviewScheduler, asI64, if_pos hm, if_pos hn] at h
    exact_mod_cast h
  · intro s hfits
    simp only [changeReviewScheduler, refusal] at hfits ⊢
    cases hencode : serializeToDocument s with
    | error err => simp [hencode] at hfits
    | ok document => exact hserialize s document hencode

/-- Committed journals form one sequence, each the operation of one call on its
immediate predecessor, at clocks that never decrease; an answer belongs to the one
commit of its call, or to an operation that left a committed journal alone. -/
theorem changeReviewScheduler_loses_no_update [DecidableEq κ]
    (change : κ → ReviewSchedulerState → ℤ → ReviewSchedulerState × τ)
    (hserialize : ∀ state document, serializeToDocument state = .ok document →
      state.revision < 2 ^ 63)
    (start : ReviewSchedulerState) (hstart : start.revision < 2 ^ 63) (nowMs : ℤ)
    (events : List (Event ℤ Error κ))
    (hrun : (changeReviewScheduler serializeToDocument toVecLen change).IsRun
      (History.beginning start nowMs) events) :
    let store := changeReviewScheduler serializeToDocument toVecLen change
    let h := store.run (History.beginning start nowMs) events
    store.Serial start h.commits h.world.document ∧
      (h.commits.map Commit.now).Pairwise (· ≤ ·) ∧
      ∀ call result, h.world.phase call = .returned (.ok result) →
        store.Answers start h.commits call result :=
  Client.run_linearizes (changeReviewScheduler_lawful serializeToDocument toVecLen change
    hserialize) hstart hrun

end Loop

/-- Two deliveries for one pull request, admitted by two processes. -/
def sampleCalls (call : Fin 2) (state : ReviewSchedulerState) (nowMs : ℤ) :
    ReviewSchedulerState × Reply :=
  perform sampleSha256 state
    ⟨nowMs, .admitBatch [if call = 0 then push "a" "A" else push "b" "B"]⟩

def sampleSerialize (state : ReviewSchedulerState) : Except String ReviewSchedulerState :=
  if state.revision < 2 ^ 63 then .ok state else .error "unsigned integer exceeded range"

/-- Far below the limit for a journal of two deliveries. -/
def sampleToVecLen (state : ReviewSchedulerState) : Except String ℕ :=
  .ok (1024 + 1024 * state.unfinished.length)

/-- Both calls read the same journal; the second loses the race and starts over. -/
def sampleRace : List (Event ℤ Error (Fin 2)) :=
  [.start 0, .start 1, .read 0, .read 1, .tick 5, .time 0, .tick 7, .time 1, .write 0, .write 1,
    .read 1, .tick 9, .time 1, .write 1]

theorem changeReviewScheduler_loses_no_update_race :
    let store := changeReviewScheduler sampleSerialize sampleToVecLen sampleCalls
    let h := store.run (History.beginning {} 1) sampleRace
    h.commits.map (fun c => (c.call, c.now, c.document.revision)) = [(0, 5, 1), (1, 9, 2)] ∧
      store.Serial {} h.commits h.world.document := by
  constructor
  · decide +kernel
  · have hserialize : ∀ state document, sampleSerialize state = .ok document →
        state.revision < 2 ^ 63 := by
      intro state document h
      unfold sampleSerialize at h
      split_ifs at h with hfits
      exact hfits
    have hrun : (changeReviewScheduler sampleSerialize sampleToVecLen sampleCalls).IsRun
        (History.beginning {} 1) sampleRace := by
      simp only [sampleRace, Client.IsRun, Runs.Guarded, History.ClockAdvances, true_and, and_true]
      decide +kernel
    exact (changeReviewScheduler_loses_no_update sampleSerialize sampleToVecLen sampleCalls
      hserialize {} (by decide) 1 sampleRace hrun).1

end TinySweeper.Server
