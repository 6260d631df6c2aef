import TinySweeper.App.LaneProposal
import TinySweeper.Findings.Prior
import TinySweeper.Forge.Reviews

/-!
# Resolving review threads

A plan is built from the threads and the titles the lanes report fixed; executing
it is the only write. Spend is not modelled.
-/

namespace TinySweeper.Threads

open Text Findings App Forge

structure ThreadComment where
  author : Text
  body : Text
  bot : Bool
  deriving DecidableEq

/-- A conversation; its first comment is whoever opened it. -/
structure ReviewThread where
  id : Text
  isResolved : Bool
  isOutdated : Bool
  comments : List ThreadComment
  deriving DecidableEq

structure Config where
  resolveFixed : Bool
  askModel : Bool
  commentOnResolve : Bool

inductive Decision where
  | resolve (reason : Text)
  | leave (reason : Text)
  | ask
  deriving DecidableEq

def FIXED_REASON : Text := "the review agent found this finding fixed in the new code".toList

section Plan

variable (expected : Text)

def isOwnLogin (login : Text) : Bool := loginMatches login expected

/-- What to do with one thread; `resolved` are the titles that were found fixed. -/
def decide (thread : ReviewThread) (resolved : List Text) : Decision :=
  if thread.isResolved then .leave "already resolved".toList
  else
    match thread.comments.head? with
    | none => .leave "an empty thread".toList
    | some opener =>
      if !isOwnLogin expected opener.author then
        .leave "a thread tinysweeper did not open".toList
      else
        match titleIn opener.body with
        | none => .leave "no finding title to check against".toList
        | some title =>
          match thread.isOutdated, resolved.contains title with
          | true, true => .resolve FIXED_REASON
          | true, false =>
            .leave "the review agent did not confirm the finding is fixed".toList
          | false, _ =>
            if (thread.comments.drop 1).any fun comment =>
                !comment.bot && !isOwnLogin expected comment.author then .ask
            else .leave "no human has replied".toList

def RESOLVED_NOTE_MARKER : Text := "<!-- tinysweeper:resolved-note -->".toList

/-- How a note began before it carried a marker. -/
def LEGACY_NOTE_PREFIX : Text := "**Resolved** — ".toList

def isOwnResolutionNote (comment : ThreadComment) : Bool :=
  let body := trim comment.body
  isOwnLogin expected comment.author && LEGACY_NOTE_PREFIX.isPrefixOf body &&
    (RESOLVED_NOTE_MARKER.isSuffixOf body || !contains body RESOLVED_NOTE_MARKER)

structure PlannedResolve where
  id : Text
  reason : Text
  /-- Whether the thread already carries our note. -/
  noted : Bool
  deriving DecidableEq

def noted (thread : ReviewThread) : Bool := thread.comments.any (isOwnResolutionNote expected)

/-- A model's opinion of a reply; `refused` by a boundary of the whole run. -/
inductive Advice where
  | verdict (resolve : Bool)
  | refused
  | failed (err : Text)

/-- The plan, and whether the advisory calls have stopped. -/
def planOne (config : Config) (model : Option (ReviewThread → Advice)) (resolved : List Text)
    (s : List PlannedResolve × Bool) (thread : ReviewThread) :
    Except Text (List PlannedResolve × Bool) :=
  match decide expected thread resolved with
  | .resolve reason => .ok (s.1 ++ [⟨thread.id, reason, noted expected thread⟩], s.2)
  | .leave _ => .ok s
  | .ask =>
    match model, config.askModel with
    | some ask, true =>
      if s.2 then .ok s
      else
        match ask thread with
        | .refused => .ok (s.1, true)
        | .failed err => .error err
        | .verdict true =>
          .ok (s.1 ++ [⟨thread.id,
            "the reply explains why it is not a problem (advisory)".toList,
            noted expected thread⟩], s.2)
        | .verdict false => .ok s
    | _, _ => .ok s

/-- Decide every thread; `reviewThreads` is what the forge answered. -/
def plan (config : Config) (model : Option (ReviewThread → Advice))
    (reviewThreads : Except Text (List ReviewThread)) (resolved : List Text) :
    Except Text (List PlannedResolve) :=
  if !config.resolveFixed then .ok []
  else do
    let threads ← reviewThreads
    let s ← threads.foldlM (planOne expected config model resolved) ([], false)
    return s.1

/-- The titles a run's lanes report fixed. -/
def resolvedTitles {κ : Type} (lanes : List (LaneProposal κ)) : List Text :=
  lanes.flatMap LaneProposal.resolved

end Plan

/-- What is written to a thread. -/
inductive Write where
  | resolve (id : Text)
  | reply (id note : Text)
  deriving DecidableEq

/-- A write and what the forge answered. -/
abbrev Call := Write × Except Text Unit

def isPermissionDenied (err : Text) : Bool :=
  ["not accessible by integration", "forbidden", "permission"].any fun needle =>
    contains (toAsciiLowercase err) needle.toList

def SHORT_SHA : ℕ := 7

def resolutionNote (reason headSha : Text) : Text :=
  "**Resolved** — ".toList ++ reason ++ ", as of \x60".toList ++ headSha.take SHORT_SHA ++
    "\x60.\n\n<sub>If this is wrong, reopen the conversation and say so; ".toList ++
    "the finding will be re-raised on the next push if it still reproduces.</sub>\n\n".toList ++
    RESOLVED_NOTE_MARKER

structure ApplyReport where
  resolved : ℕ
  failed : ℕ
  skipped : ℕ
  deriving DecidableEq

structure Applied where
  report : ApplyReport
  calls : List Call

section Apply

variable (answer : List Call → Write → Except Text Unit) (config : Config) (headSha : Text)

/-- Send one write; the forge answers by all that came before. -/
def Applied.call (done : Applied) (write : Write) : Applied :=
  { done with calls := done.calls ++ [(write, answer done.calls write)] }

def applyFrom : Applied → List PlannedResolve → Applied
  | done, [] => done
  | done, entry :: rest =>
    let tried := done.call answer (.resolve entry.id)
    match answer done.calls (.resolve entry.id) with
    | .error err =>
      let tried := { tried with report.failed := tried.report.failed + 1 }
      -- Every later resolve would be refused the same way.
      if isPermissionDenied err then { tried with report.skipped := rest.length }
      else applyFrom tried rest
    | .ok () =>
      let tried := { tried with report.resolved := tried.report.resolved + 1 }
      if config.commentOnResolve && !entry.noted then
        -- A note that cannot be posted is only logged.
        applyFrom (tried.call answer (.reply entry.id (resolutionNote entry.reason headSha))) rest
      else applyFrom tried rest

def applyPlan (plan : List PlannedResolve) : Applied :=
  applyFrom answer config headSha ⟨⟨0, 0, 0⟩, []⟩ plan

end Apply

end TinySweeper.Threads
