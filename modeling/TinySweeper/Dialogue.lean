import Mathlib.Data.List.Basic

/-!
# Programs that ask

A program asks questions and goes on with the answers, whoever gives them. What it
may ask depends on what was said before; a rule for each way to compose programs
carries such a guard along, for all answers at once.
-/

namespace TinySweeper

/-- A program that asks questions; an answer to `q` is of the type `A q`. -/
inductive Dialogue {Q : Type} (A : Q → Type) (α : Type) where
  | done (value : α)
  | ask (q : Q) (next : A q → Dialogue A α)

namespace Dialogue

variable {Q : Type} {A : Q → Type} {α β : Type}

/-- A question and the answer it got. -/
abbrev Exchange (A : Q → Type) := Σ q, A q

def bind : Dialogue A α → (α → Dialogue A β) → Dialogue A β
  | done a, f => f a
  | ask q next, f => ask q fun answer => (next answer).bind f

/-- One program after the other, with what each has to say. -/
def forEach (f : α → Dialogue A β) : List α → Dialogue A (List β)
  | [] => done []
  | x :: rest => (f x).bind fun y => (forEach f rest).bind fun ys => done (y :: ys)

theorem bind_assoc {γ : Type} (p : Dialogue A α) (f : α → Dialogue A β) (g : β → Dialogue A γ) :
    (p.bind f).bind g = p.bind fun a => (f a).bind g := by
  induction p with
  | done a => rfl
  | ask q next ih => exact congrArg (ask q) (funext fun answer => ih answer)

theorem bind_done (p : Dialogue A α) : p.bind done = p := by
  induction p with
  | done a => rfl
  | ask q next ih => exact congrArg (ask q) (funext fun answer => ih answer)

/-- The program asks these questions, gets these answers and goes on with what is left of it. -/
inductive Says : Dialogue A α → List (Exchange A) → Dialogue A α → Prop where
  | nil (p : Dialogue A α) : Says p [] p
  | cons {q : Q} {next : A q → Dialogue A α} {answer : A q} {said : List (Exchange A)}
    {rest : Dialogue A α} (h : Says (next answer) said rest) :
    Says (ask q next) (⟨q, answer⟩ :: said) rest

namespace Says

variable {p r s : Dialogue A α} {said more : List (Exchange A)}

theorem append (h : Says p said r) (hmore : Says r more s) : Says p (said ++ more) s := by
  induction h with
  | nil => exact hmore
  | cons _ ih => exact .cons (ih hmore)

end Says

/-- After what was said, the program asks only what the guard allows, and ends as promised. -/
def Guarded (guard : List (Exchange A) → Q → Prop) (ends : List (Exchange A) → α → Prop) :
    List (Exchange A) → Dialogue A α → Prop
  | said, done a => ends said a
  | said, ask q next => guard said q ∧
      ∀ answer, Guarded guard ends (said ++ [⟨q, answer⟩]) (next answer)

section Guarded

variable {guard : List (Exchange A) → Q → Prop} {ends : List (Exchange A) → α → Prop}
  {said : List (Exchange A)} {p : Dialogue A α}

theorem guarded_bind {ends' : List (Exchange A) → β → Prop} {f : α → Dialogue A β}
    (h : Guarded guard (fun said a => Guarded guard ends' said (f a)) said p) :
    Guarded guard ends' said (p.bind f) := by
  induction p generalizing said with
  | done a => exact h
  | ask q next ih => exact ⟨h.1, fun answer => ih answer (h.2 answer)⟩

theorem Guarded.mono {guard' : List (Exchange A) → Q → Prop} {ends' : List (Exchange A) → α → Prop}
    (hguard : ∀ said q, guard said q → guard' said q) (hends : ∀ said a, ends said a → ends' said a)
    (h : Guarded guard ends said p) : Guarded guard' ends' said p := by
  induction p generalizing said with
  | done a => exact hends said a h
  | ask q next ih => exact ⟨hguard said q h.1, fun answer => ih answer (h.2 answer)⟩

end Guarded

end Dialogue

end TinySweeper
