import TinySweeper.Dialogue
import TinySweeper.PrTriage.Sweep

/-!
# Executing a triage plan

The writes of a plan, and the looks at the live pull request before them.
-/

namespace TinySweeper.PrTriage

open Text Dialogue

/-- The pull request that was asked for. -/
abbrev Pull (number : ℕ) := { pull : PullRequest // pull.number = number }

inductive Call where
  | pullRequest (number : ℕ)
  | branchHead (branch : Text)
  | addLabels (number : ℕ) (labels : List Text)
  | removeLabel (number : ℕ) (label : Text)
  | createComment (number : ℕ) (body : Text)
  | updateComment (id : ℕ) (body : Text)
  | closePullRequest (number : ℕ)
  deriving DecidableEq

def Call.isRead : Call → Bool
  | .pullRequest _ => true
  | .branchHead _ => true
  | _ => false

def Result : Call → Type
  | .pullRequest number => Pull number
  | .branchHead _ => Option Text
  | .createComment .. => ℕ
  | _ => Unit

abbrev Answer (c : Call) := Except Text (Result c)

abbrev Program (α : Type) := Dialogue Answer α

abbrev Said := List (Exchange Answer)

variable {φ α β : Type}

def pullRequest (number : ℕ) : Program (Except Text (Pull number)) :=
  ask (Call.pullRequest number) done

def branchHead (branch : Text) : Program (Except Text (Option Text)) :=
  ask (Call.branchHead branch) done

def createComment (number : ℕ) (body : Text) : Program (Except Text ℕ) :=
  ask (Call.createComment number body) done

def updateComment (id : ℕ) (body : Text) : Program (Except Text Unit) :=
  ask (Call.updateComment id body) done

def addLabels (number : ℕ) (labels : List Text) : Program (Except Text Unit) :=
  ask (Call.addLabels number labels) done

def removeLabel (number : ℕ) (label : Text) : Program (Except Text Unit) :=
  ask (Call.removeLabel number label) done

def closePullRequest (number : ℕ) : Program (Except Text Unit) :=
  ask (Call.closePullRequest number) done

/-- The first call that fails ends the program. -/
def andThen (p : Program (Except Text α)) (f : α → Program (Except Text β)) :
    Program (Except Text β) :=
  p.bind fun
    | .error e => done (.error e)
    | .ok a => f a

def removeAll (number : ℕ) : List Text → Program (Except Text Unit)
  | [] => done (.ok ())
  | label :: rest => andThen (removeLabel number label) fun _ => removeAll number rest

def postComment (plan : TriagePlan φ) : Program (Except Text (Option ℕ)) :=
  match plan.comment, plan.commentId with
  | none, _ => done (.ok plan.commentId)
  | some body, some id => andThen (updateComment id body) fun _ => done (.ok (some id))
  | some body, none =>
    andThen (createComment plan.number body) fun id => done (.ok (some id))

/-- The writes of a plan; the answer is the comment it left behind. -/
def applyPlan (plan : TriagePlan φ) : Program (Except Text (Option ℕ)) :=
  andThen
    (if plan.addLabels.isEmpty then done (.ok ()) else addLabels plan.number plan.addLabels)
    fun _ => andThen (removeAll plan.number plan.removeLabels)
    fun _ => andThen (postComment plan)
    fun commentId =>
      andThen
        (match plan.close with
        | some close =>
          if close.dryRun then done (.ok ()) else closePullRequest plan.number
        | none => done (.ok ()))
        fun _ => done (.ok commentId)

inductive Recheck where
  | unchanged
  | leaveAlone
  deriving DecidableEq, Repr

/-- Whether the bot's own writes may have reset the quiet time. -/
inductive Freshness where
  | full
  | sinceOurOwnWrites
  deriving DecidableEq, Repr

def TriagePlan.refuse (plan : TriagePlan φ) (reason : String) : TriagePlan φ :=
  { plan with close := none, closeRefusal := some reason }

/-- Why the evidence of a verdict no longer stands. -/
def checkEvidence : Verdict φ → Program (Option String)
  | .duplicate of ofHeadSha _ _ =>
    (pullRequest of).bind fun
      | .error _ => done (some "the pull request it duplicates could not be re-checked")
      | .ok original =>
        if original.val.headSha ≠ ofHeadSha then
          done (some "the pull request it duplicates changed after the sweep read it")
        else if !original.val.isOpen && !original.val.merged then
          done (some "the pull request it duplicates was itself closed unmerged")
        else done none
  | .superseded baseRef baseSha _ =>
    (branchHead baseRef).bind fun
      | .ok head =>
        if head = some baseSha then done none
        else done (some "its base branch moved after the sweep compared against it")
      | .error _ => done (some "its base branch could not be re-checked")
  | .review _ => done none

def closePolicy (policy : PrClose) : Freshness → PrClose
  | .full => policy
  | .sinceOurOwnWrites => { policy with minAgeDays := 0, quietDays := 0 }

variable (setting : Setting φ)

/-- Whether an item carries a label that switches the bot off. -/
def blocked (pull : PullRequest) : Bool :=
  setting.config.blockLabels.any fun block => pull.labels.any fun label => same label block

/-- Look at the pull request again; the plan loses its close where that is no longer allowed. -/
def revalidateAt (freshness : Freshness) (plan : TriagePlan φ) :
    Program (Recheck × TriagePlan φ) :=
  (pullRequest plan.number).bind fun
    | .error _ =>
      done (.leaveAlone, plan.refuse "its current state could not be re-checked before writing")
    | .ok current =>
      if blocked setting current.val then
        done (.leaveAlone, plan.refuse "it carries a label that switches the bot off")
      else if plan.headSha.isEmpty || plan.headSha ≠ current.val.headSha then
        done (.leaveAlone, plan.refuse "it was pushed to after the sweep read its diff")
      else
        (checkEvidence plan.verdict).bind fun
          | some reason => done (.leaveAlone, plan.refuse reason)
          | none =>
            if plan.close.isNone then done (.unchanged, plan)
            else
              match gateDecide current.val plan.verdict setting.maintainers
                  (closePolicy setting.config.prTriage.close freshness) with
              | .refuse reason => done (.unchanged, plan.refuse reason)
              | .close _ => done (.unchanged, plan)

inductive Outcome where
  | closed
  | wouldClose
  | labelled
  | unchanged
  | leftAlone
  | failed (error : Text)
  deriving DecidableEq, Repr

def Outcome.of (plan : TriagePlan φ) : Outcome :=
  match plan.close with
  | some close => if close.dryRun then .wouldClose else .closed
  | none =>
    if plan.addLabels.isEmpty && plan.removeLabels.isEmpty && plan.comment.isNone then .unchanged
    else .labelled

def Verdict.detail (floats : Floats φ) : Verdict φ → Text
  | .duplicate of _ pathOverlap lineOverlap =>
    "of #".toList ++ decimal of ++ " (".toList ++ floats.hundredfold pathOverlap ++
      "% of paths, ".toList ++ floats.hundredfold lineOverlap ++ "% of added lines)".toList
  | .superseded baseRef baseSha linesChecked =>
    decimal linesChecked ++ " lines already on `".toList ++ baseRef ++ "` at ".toList ++
      baseSha.take 7
  | .review because => because.toList

structure Report where
  number : ℕ
  verdict : Text
  detail : Text
  flags : List (Text × Text)
  closeRefusal : Option String
  outcome : Outcome
  deriving DecidableEq, Repr

def Report.of (plan : TriagePlan φ) (outcome : Outcome) : Report where
  number := plan.number
  verdict := plan.verdict.label
  detail := plan.verdict.detail setting.floats
  flags := plan.flags.map fun flag => (flag.1.label, flag.2)
  closeRefusal := plan.closeRefusal
  outcome := outcome

/-- Rewrite the comment this run has posted, now that the close is off. -/
def correctComment (plan : TriagePlan φ) : Program Unit :=
  match plan.commentId, render setting.floats plan with
  | some _, some body =>
    (applyPlan { plan with
      comment := some body
      close := none
      addLabels := []
      removeLabels := [] }).bind fun _ => done ()
  | _, _ => done ()

/-- The close, after a last look. -/
def closeNow (plan : TriagePlan φ) : Program Report :=
  (revalidateAt setting .sinceOurOwnWrites plan).bind fun (recheck, plan) =>
    if plan.close.isSome && recheck ≠ .leaveAlone then
      (closePullRequest plan.number).bind fun
        | .ok _ => done (.of setting plan .closed)
        | .error e =>
          let plan := plan.refuse "the forge refused the close"
          (correctComment setting plan).bind fun _ => done (.of setting plan (.failed e))
    else (correctComment setting plan).bind fun _ => done (.of setting plan (.of plan))

/-- The label and the comment, said as things now stand, and then the close. -/
def carryOut (plan : TriagePlan φ) : Program Report :=
  let plan :=
    if plan.comment.isSome then { plan with comment := render setting.floats plan } else plan
  (applyPlan { plan with close := none }).bind fun
    | .error e => done (.of setting plan (.failed e))
    | .ok posted =>
      let plan := { plan with commentId := posted }
      if plan.close.any fun close => !close.dryRun then closeNow setting plan
      else done (.of setting plan (.of plan))

/-- One plan of a sweep, unless a look at the pull request says to leave it alone. -/
def applyOne (plan : TriagePlan φ) : Program Report :=
  (revalidateAt setting .full plan).bind fun (recheck, plan) =>
    if recheck = .leaveAlone then done (.of setting plan .leftAlone) else carryOut setting plan

def applyAll (plans : List (TriagePlan φ)) : Program (List Report) :=
  forEach (applyOne setting) plans

end TinySweeper.PrTriage
