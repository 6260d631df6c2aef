import Mathlib.Logic.Relation
import TinySweeper.PrTriage.Rechecks

/-!
# Runs among people

Any number of runs, each a sweep and then its plans one after the other, call the
forge while people push, label, close and merge. A call takes effect as a whole or
reports an error; between two calls anything may happen.
-/

namespace TinySweeper.PrTriage

open Text Dialogue Relation

/-- Who closed a pull request. -/
inductive Closer (φ : Type) where
  | person
  | run (verdict : Verdict φ)

/-- A comment of the bot, and the pull request it is on. -/
structure Note where
  number : ℕ
  body : Text

structure World (φ : Type) where
  pulls : (number : ℕ) → Option (Pull number)
  branches : Text → Option Text
  comments : ℕ → Option Note
  closedBy : ℕ → Option (Closer φ)

variable {φ : Type}

namespace World

def isOpen (w : World φ) (number : ℕ) : Bool :=
  (w.pulls number).any fun pull => pull.val.isOpen

def setPull (w : World φ) {number : ℕ} (pull : Pull number) : World φ :=
  { w with pulls := Function.update w.pulls number (some pull) }

/-- A write on a pull request ends its quiet time. -/
def touch (w : World φ) {number : ℕ} (pull : Pull number) : World φ :=
  w.setPull ⟨{ pull.val with quietDays := 0 }, pull.property⟩

def relabel (w : World φ) {number : ℕ} (pull : Pull number) (labels : List Text) : World φ :=
  w.setPull ⟨{ pull.val with labels, quietDays := 0 }, pull.property⟩

def setComment (w : World φ) (id : ℕ) (note : Note) : World φ :=
  { w with comments := Function.update w.comments id (some note) }

def close (w : World φ) {number : ℕ} (pull : Pull number) (verdict : Verdict φ) : World φ :=
  { w.setPull ⟨{ pull.val with isOpen := false, quietDays := 0 }, pull.property⟩ with
    closedBy :=
      if pull.val.isOpen then Function.update w.closedBy number (some (.run verdict))
      else w.closedBy }

end World

/-- What a call for a plan of this verdict does, and what is answered. -/
inductive Replies (verdict : Verdict φ) (w : World φ) : (q : Call) → Answer q → World φ → Prop where
  | refused (q : Call) (e : Text) : Replies verdict w q (.error e) w
  | pullRequest {number : ℕ} (pull : Pull number) (h : w.pulls number = some pull) :
    Replies verdict w (.pullRequest number) (.ok pull) w
  | branchHead (branch : Text) :
    Replies verdict w (.branchHead branch) (.ok (w.branches branch)) w
  | addLabels {number : ℕ} (pull : Pull number) (labels : List Text)
    (h : w.pulls number = some pull) :
    Replies verdict w (.addLabels number labels) (.ok ())
      (w.relabel pull (pull.val.labels ++ labels))
  | removeLabel {number : ℕ} (pull : Pull number) (label : Text)
    (h : w.pulls number = some pull) :
    Replies verdict w (.removeLabel number label) (.ok ())
      (w.relabel pull (pull.val.labels.filter fun held => !same held label))
  | createComment {number : ℕ} (pull : Pull number) (id : ℕ) (body : Text)
    (h : w.pulls number = some pull) (unused : w.comments id = none) :
    Replies verdict w (.createComment number body) (.ok id)
      ((w.touch pull).setComment id ⟨number, body⟩)
  | updateComment {number : ℕ} (pull : Pull number) (id : ℕ) (old body : Text)
    (h : w.pulls number = some pull) (posted : w.comments id = some ⟨number, old⟩) :
    Replies verdict w (.updateComment id body) (.ok ())
      ((w.touch pull).setComment id ⟨number, body⟩)
  | closePullRequest {number : ℕ} (pull : Pull number) (h : w.pulls number = some pull) :
    Replies verdict w (.closePullRequest number) (.ok ()) (w.close pull verdict)

/-- People may do anything but open again what was closed, take back a merge, or touch the
comments of the bot. -/
structure PeopleAct (w w' : World φ) : Prop where
  comments : w'.comments = w.comments
  kept : ∀ number (pull : Pull number), w.pulls number = some pull →
    ∃ pull' : Pull number, w'.pulls number = some pull' ∧
      (pull.val.merged = true → pull'.val.merged = true) ∧
      (pull'.val.isOpen = true → pull.val.isOpen = true)
  closedBy : ∀ number, w'.closedBy number =
    if (w'.pulls number).isSome && !w'.isOpen number && !((w.pulls number).isSome &&
        !w.isOpen number) then some .person
    else w.closedBy number

/-- A plan being carried out: the calls made for it, and what is left to do. -/
structure Work (φ : Type) where
  plan : TriagePlan φ
  said : Said
  rest : Program Report

/-- A plan that was carried out. -/
structure Done (φ : Type) where
  plan : TriagePlan φ
  said : Said
  report : Report

/-- A sweep, and its plans one after the other. -/
structure Run (φ : Type) where
  setting : Setting φ
  answers : Answers
  only : Option ℕ
  outcome : SweepOutcome φ
  swept : sweep setting answers only = .ok outcome
  past : List (Done φ) := []
  now : Option (Work φ) := none
  todo : List (TriagePlan φ) := outcome.plans

namespace Run

def plans (run : Run φ) : List (TriagePlan φ) := run.outcome.plans

/-- The sweep is over, and no plan is taken up. -/
def Fresh (run : Run φ) : Prop := run.past = [] ∧ run.now = none ∧ run.todo = run.plans

/-- The plans taken up so far, and the calls made for each. -/
def carried (run : Run φ) : List (TriagePlan φ × Said) :=
  run.past.map (fun done => (done.plan, done.said)) ++
    run.now.toList.map fun work => (work.plan, work.said)

def heard (run : Run φ) : Said := run.carried.flatMap Prod.snd

/-- What is left to do of every plan. -/
def program (run : Run φ) : Program (List Report) :=
  let reports := run.past.map Done.report
  match run.now with
  | none => (applyAll run.setting run.todo).bind fun rest => done (reports ++ rest)
  | some work => work.rest.bind fun report =>
      (applyAll run.setting run.todo).bind fun rest => done (reports ++ report :: rest)

def take (run : Run φ) (plan : TriagePlan φ) (todo : List (TriagePlan φ)) : Run φ :=
  { run with now := some ⟨plan, [], applyOne run.setting plan⟩, todo }

def hear (run : Run φ) (plan : TriagePlan φ) (said : Said) (e : Exchange Answer)
    (rest : Program Report) : Run φ :=
  { run with now := some ⟨plan, said ++ [e], rest⟩ }

def finish (run : Run φ) (plan : TriagePlan φ) (said : Said) (report : Report) : Run φ :=
  { run with now := none, past := run.past ++ [⟨plan, said, report⟩] }

end Run

structure System (φ : Type) where
  world : World φ
  runs : List (Run φ)

def System.setRun (s : System φ) (i : ℕ) (run : Run φ) : System φ :=
  { s with runs := s.runs.set i run }

/-- The comments a sweep finds on a pull request are on it. -/
def Knows (w : World φ) (run : Run φ) : Prop :=
  ∀ number id, Listed run.setting run.answers number id →
    ∃ note, w.comments id = some note ∧ note.number = number

inductive Step (s : System φ) : System φ → Prop where
  | people (w : World φ) (h : PeopleAct s.world w) : Step s { s with world := w }
  | start (run : Run φ) (fresh : run.Fresh) (known : Knows s.world run) :
    Step s { s with runs := s.runs ++ [run] }
  | take (i : ℕ) (run : Run φ) (plan : TriagePlan φ) (todo : List (TriagePlan φ))
    (hrun : s.runs[i]? = some run) (hnow : run.now = none) (htodo : run.todo = plan :: todo) :
    Step s (s.setRun i (run.take plan todo))
  | call (i : ℕ) (run : Run φ) (plan : TriagePlan φ) (said : Said) (q : Call)
    (next : Answer q → Program Report) (answer : Answer q) (w : World φ)
    (hrun : s.runs[i]? = some run) (hnow : run.now = some ⟨plan, said, .ask q next⟩)
    (hreply : Replies plan.verdict s.world q answer w) :
    Step s { s.setRun i (run.hear plan said ⟨q, answer⟩ (next answer)) with world := w }
  | finish (i : ℕ) (run : Run φ) (plan : TriagePlan φ) (said : Said) (report : Report)
    (hrun : s.runs[i]? = some run) (hnow : run.now = some ⟨plan, said, .done report⟩) :
    Step s (s.setRun i (run.finish plan said report))

/-- No run has begun, and no comment announces a close. -/
structure Initial (s : System φ) : Prop where
  runs : s.runs = []
  closedBy : ∀ number (pull : Pull number), s.world.pulls number = some pull →
    pull.val.isOpen = false → s.world.closedBy number = some .person
  unclosed : ∀ number verdict, s.world.closedBy number ≠ some (.run verdict)
  comments : ∀ id note, s.world.comments id = some note → announces note.body = false

def Reaches (s t : System φ) : Prop := ReflTransGen Step s t

end TinySweeper.PrTriage
