import TinySweeper.Runs

/-!
# The calls of one review

Tasks share a ceiling on physical model calls. A permit reserves one call, is
committed when it is dispatched and gives its reservation back when it is
dropped unsent; a retry behind a committed permit is charged on its own.
Counters do not saturate.
-/

namespace TinySweeper.App

open Runs

inductive ModelExecutionRefusal where
  | callLimit
  | softDeadline
  | drainDeadline
  | cancelled
  deriving DecidableEq, Repr

inductive PermitState where
  | reserved
  | committed
  | refused
  | released
  | cancelled
  | callLimit
  deriving DecidableEq, Repr

structure ReviewDispatchPermit where
  state : PermitState
  physicalAttempts : ℕ
  /-- Its owner has not dropped it. -/
  held : Bool
  deriving DecidableEq, Repr

/-- One execution scope with every permit it granted, oldest first. -/
structure ReviewExecution where
  softDeadline : ℕ
  now : ℕ
  committedCalls : ℕ
  reservedCalls : ℕ
  cancelled : Bool
  maxCalls : Option ℕ
  availabilityGeneration : ℕ
  permits : List ReviewDispatchPermit
  deriving DecidableEq, Repr

inductive Answer where
  | ok
  | refused (reason : ModelExecutionRefusal)
  | waiting
  deriving DecidableEq, Repr

/-- Why a permit in this state dispatches nothing. -/
def PermitState.dispatchRefusal : PermitState → Option ModelExecutionRefusal
  | .committed => none
  | .refused => some .softDeadline
  | .cancelled => some .cancelled
  | .callLimit => some .callLimit
  | .reserved => none
  | .released => some .softDeadline

/-- Why a permit in this state sends nothing. -/
def PermitState.attemptRefusal : PermitState → Option ModelExecutionRefusal
  | .committed => none
  | .cancelled => some .cancelled
  | .callLimit => some .callLimit
  | .refused | .released | .reserved => some .softDeadline

namespace ReviewExecution

/-- A scope before its first call. -/
def new (softDeadline now : ℕ) (maxCalls : Option ℕ) : ReviewExecution :=
  ⟨softDeadline, now, 0, 0, false, maxCalls, 0, []⟩

variable (s : ReviewExecution)

/-- The ceiling is reached by this many calls. -/
def atLimit (calls : ℕ) : Bool := s.maxCalls.any fun limit => decide (limit ≤ calls)

def notify : ReviewExecution :=
  { s with availabilityGeneration := s.availabilityGeneration + 1 }

def refusalForNewWork : Option ModelExecutionRefusal :=
  if s.cancelled then some .cancelled
  else if s.softDeadline ≤ s.now then some .softDeadline
  else if s.atLimit s.committedCalls then some .callLimit
  else none

def restrictToLarge (maxCalls : ℕ) : ReviewExecution :=
  let tightened := match s.maxCalls with
    | some existing => min existing maxCalls
    | none => maxCalls
  if s.maxCalls = some tightened then s
  else { s with maxCalls := some tightened }.notify

def cancel : ReviewExecution :=
  if s.cancelled then s else { s with cancelled := true }.notify

/-- One turn of the loop; a task that waits takes another when it is woken. -/
def acquire : ReviewExecution × Answer :=
  match s.refusalForNewWork with
  | some reason => (s, .refused reason)
  | none =>
    let capacityIsReserved := s.atLimit (s.committedCalls + s.reservedCalls)
    if capacityIsReserved then (s, .waiting)
    else
      ({ s with
          reservedCalls := s.reservedCalls + 1
          permits := s.permits ++ [⟨.reserved, 0, true⟩] }, .ok)

/-- Replace the permit under a number. -/
def store (id : ℕ) (permit : ReviewDispatchPermit) : ReviewExecution :=
  { s with permits := s.permits.set id permit }

/-- `seen` is what the load before the lock saw. -/
def markDispatched (id : ℕ) (permit : ReviewDispatchPermit) (seen : PermitState) :
    ReviewExecution × Answer :=
  match seen.dispatchRefusal with
  | some reason => (s, .refused reason)
  | none =>
    match permit.state.dispatchRefusal with
    | some reason => (s, .refused reason)
    | none =>
      if s.cancelled then
        (if permit.state ≠ .committed then s.store id { permit with state := .cancelled } else s,
          .refused .cancelled)
      else if s.softDeadline ≤ s.now then
        (if permit.state ≠ .committed then s.store id { permit with state := .refused } else s,
          .refused .softDeadline)
      else if permit.state = .committed then (s, .ok)
      else if s.atLimit s.committedCalls then
        (s.store id { permit with state := .callLimit }, .refused .callLimit)
      else
        ({ s with
            reservedCalls := s.reservedCalls - 1
            committedCalls := s.committedCalls + 1 }.store id
          { permit with state := .committed } |>.notify, .ok)

def markPhysicalAttempt (id : ℕ) (permit : ReviewDispatchPermit) : ReviewExecution × Answer :=
  match permit.state.attemptRefusal with
  | some reason => (s, .refused reason)
  | none =>
    if s.cancelled then (s, .refused .cancelled)
    else if s.softDeadline ≤ s.now then (s, .refused .softDeadline)
    else if permit.physicalAttempts = 0 then
      -- The dispatch paid for it.
      (s.store id { permit with physicalAttempts := 1 }, .ok)
    else if s.atLimit (s.committedCalls + s.reservedCalls) then (s, .refused .callLimit)
    else
      ({ s with committedCalls := s.committedCalls + 1 }.store id
        { permit with physicalAttempts := permit.physicalAttempts + 1 } |>.notify, .ok)

def dropPermit (id : ℕ) (permit : ReviewDispatchPermit) : ReviewExecution :=
  if permit.state ≠ .committed then
    { s with reservedCalls := s.reservedCalls - 1 }.store id
      { permit with state := .released, held := false } |>.notify
  else s.store id { permit with held := false }

end ReviewExecution

inductive CallAction where
  | acquire
  | markDispatched (id : ℕ) (seen : PermitState)
  | markPhysicalAttempt (id : ℕ)
  | drop (id : ℕ)
  | restrictToLarge (maxCalls : ℕ)
  | cancel
  | advance (elapsed : ℕ)
  deriving DecidableEq, Repr

namespace ReviewExecution

variable (s : ReviewExecution)

/-- What an owner does with a permit it holds. -/
def withPermit (id : ℕ) (f : ReviewDispatchPermit → ReviewExecution × Answer) :
    ReviewExecution × Answer :=
  match s.permits[id]? with
  | some permit => if permit.held then f permit else (s, .waiting)
  | none => (s, .waiting)

/-- One action of one task, under the lock. -/
def perform : CallAction → ReviewExecution × Answer
  | .acquire => s.acquire
  | .markDispatched id seen => s.withPermit id fun permit => s.markDispatched id permit seen
  | .markPhysicalAttempt id => s.withPermit id fun permit => s.markPhysicalAttempt id permit
  | .drop id => s.withPermit id fun permit => (s.dropPermit id permit, .ok)
  | .restrictToLarge maxCalls => (s.restrictToLarge maxCalls, .ok)
  | .cancel => (s.cancel, .ok)
  | .advance elapsed => ({ s with now := s.now + elapsed }, .ok)

def step (action : CallAction) : ReviewExecution := (s.perform action).1

end ReviewExecution

end TinySweeper.App
