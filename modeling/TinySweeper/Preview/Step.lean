import TinySweeper.Harness.Cassette
import TinySweeper.Harness.Prompt
import TinySweeper.Preview.Commands

/-!
# Driving one flow

One observation of the page at a time, a model is asked for the next commands. That the
recording brackets the flow, and the ceilings on steps and screenshots, are not left to
the model: they hold of the script after any turns, whatever it answers and whatever the
hands report.
-/

namespace TinySweeper.Preview

open Text Harness

def MAX_ARIA_CHARS : ℕ := 14000

def KEEP_TURNS : ℕ := 3

def MAX_REOPENS : ℕ := 2

inductive Side where
  | before
  | after
  deriving DecidableEq

inductive ExpectBefore where
  | same
  | absent
  | different
  deriving DecidableEq

structure Flow where
  id : Text
  title : Text
  startPath : Text
  goal : Text
  expectBefore : ExpectBefore
  deriving DecidableEq

structure StepResult where
  index : ℕ
  ok : Bool
  error : Option Text
  deriving DecidableEq

/-- What the hands saw after a batch; nothing of it is trusted. -/
structure Observation where
  side : Side
  url : Text
  aria : Text
  results : List StepResult
  steps : ℕ
  deriving DecidableEq

structure Turn where
  observation : Text
  answer : Text
  deriving DecidableEq

structure FlowState where
  turns : List Turn
  screenshots : List Text
  commands : List Command
  done : Bool
  reopens : ℕ
  deriving DecidableEq

def FlowState.initial : FlowState := ⟨[], [], [], false, 0⟩

structure StepContext where
  flow : Flow
  diffExcerpt : Text
  maxSteps : ℕ
  model : Text
  maxTokens : UInt32

structure StepReply where
  commands : List Command
  done : Bool
  spend : ℚ

/-- What ends a script. -/
def Command.isClosing : Command → Bool
  | .done _ | .record false => true
  | _ => false

def issued (commands : List Command) : ℕ := commands.countP Command.isStep

/-- The closing batch, when no model is asked. -/
def closingBatch (commands : List Command) (reason : Text) : List Command :=
  (if commands = [] then [] else [.record false]) ++ [.done reason]

def finish (state : FlowState) (reason : Text) : FlowState × StepReply :=
  let commands := closingBatch state.commands reason
  ({ state with done := true, commands := state.commands ++ commands }, ⟨commands, true, 0⟩)

/-- The ending of a flow is taken back. -/
def reopen (state : FlowState) : FlowState :=
  { state with
    reopens := state.reopens + 1
    done := false
    commands := state.commands.rdropWhile Command.isClosing }

section Ask

variable (isAlphanumeric : Char → Bool)

def counted (n : ℕ) (noun : Text) : Text :=
  decimal n ++ " ".toList ++ noun ++ if n = 1 then [] else "s".toList

def failures (results : List StepResult) : List Text :=
  (results.filter fun r => !r.ok).map fun r =>
    "command ".toList ++ decimal r.index ++ " failed: ".toList ++
      text isAlphanumeric (r.error.getD "no reason given".toList) 200 ++ "\n".toList

def renderObservation (observation : Observation) : Text :=
  let failed := failures isAlphanumeric observation.results
  "After ".toList ++ counted observation.steps "step".toList ++ " the browser is at ".toList ++
    text isAlphanumeric observation.url 200 ++ ".\n".toList ++
    (if failed = [] ∧ observation.results ≠ [] then
      "Every command in the last batch succeeded.\n".toList else []) ++
    failed.flatten ++ "\nThe page's accessibility snapshot:\n\n".toList ++
    pushFenced "untrusted-snapshot".toList
      (observation.aria.take MAX_ARIA_CHARS ++
        if MAX_ARIA_CHARS < observation.aria.length then "\n… (snapshot truncated)".toList else [])

def intro (ctx : StepContext) : Text :=
  "The flow: ".toList ++ ctx.flow.title ++ "\nStart at: ".toList ++ ctx.flow.startPath ++
    "\nDone when: ".toList ++ ctx.flow.goal ++ "\nCeilings: ".toList ++ decimal ctx.maxSteps ++
    " steps and ".toList ++ decimal MAX_SCREENSHOTS ++ " screenshots for this flow, ".toList ++
    decimal MAX_BATCH ++ " commands per turn.\n\n".toList ++
    "The pull request's UI diff, for knowing what to point at:\n\n".toList ++
    pushFenced "untrusted-diff".toList ctx.diffExcerpt

variable (SYSTEM : Text) (schema : Json) (encode : List Command → Text)
  (decode : Json → Option (List WireCommand))

/-- The instructions, the flow, the diff and then the turns that are remembered. -/
def messages (ctx : StepContext) (state : FlowState) (shown : Text) : List Message :=
  let skipped := state.turns.length - KEEP_TURNS
  [⟨.system, SYSTEM, []⟩, ⟨.user, intro ctx, []⟩] ++
    (if 0 < skipped then
      [⟨.user, "(".toList ++ counted skipped "earlier turn".toList ++ " omitted.)".toList, []⟩]
    else []) ++
    ((state.turns.drop skipped).flatMap fun turn =>
      [⟨.user, turn.observation, []⟩, ⟨.assistant, turn.answer, []⟩]) ++
    [⟨.user, shown, []⟩]

def request (ctx : StepContext) (state : FlowState) (shown : Text) : ModelRequest :=
  ⟨ctx.model, messages SYSTEM ctx state shown, schema, "tinysweeper_preview_step".toList, none,
    ctx.maxTokens⟩

/-- The batch of an answer; where it ends the flow, the recorder stops in front of the end. -/
def batchOf (first done : Bool) (commands : List Command) : List Command :=
  (if first then [.record true] else []) ++
    if done then
      let kept := commands.take
        ((commands.findIdx? Command.isDone).elim commands.length (· + 1))
      kept.dropLast ++ [.record false] ++
        [kept.getLast?.getD (.done "nothing further to do".toList)]
    else commands

/-- What becomes of a state when the model answers. -/
def answered (state : FlowState) (shown : Text) (response : ModelResponse ℚ) :
    FlowState × StepReply :=
  let parsed := parse isAlphanumeric (decode response.value) state.screenshots
  let done := parsed.1.any Command.isDone || parsed.1.isEmpty
  let batch := batchOf state.commands.isEmpty done parsed.1
  ({ state with
      turns := state.turns ++ [⟨shown, encode parsed.1⟩]
      screenshots := parsed.2
      commands := state.commands ++ batch
      done := state.done || done },
    ⟨batch, done, response.usage⟩)

/-- The commands of a turn. `complete` is the model as it answers this call. -/
def next {ε : Type} (ctx : StepContext) (state : FlowState) (observation : Observation)
    (complete : ModelRequest → Except ε (ModelResponse ℚ)) : Except ε (FlowState × StepReply) :=
  let failed := observation.results.any fun r => !r.ok
  if state.done && !(failed && decide (state.reopens < MAX_REOPENS)) then
    .ok (finish state "already done".toList)
  else
    let state := if state.done then reopen state else state
    if ctx.maxSteps ≤ issued state.commands || ctx.maxSteps ≤ observation.steps then
      .ok (finish state "step ceiling reached".toList)
    else
      let shown := renderObservation isAlphanumeric observation
      (complete (request SYSTEM schema ctx state shown)).map fun response =>
        answered isAlphanumeric encode decode state shown response

end Ask

end TinySweeper.Preview
