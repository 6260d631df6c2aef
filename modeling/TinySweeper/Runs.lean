import Mathlib.Tactic

/-!
# Guarded runs of a deterministic machine

A machine is a step function; a guard restricts which events a state may take.
Invariants are proved once for a step and hold along every run, and an amount
spent by events is bounded by the potential it accumulates.
-/

namespace TinySweeper.Runs

variable {σ ε : Type*} (step : σ → ε → σ)

/-- The state after a list of events. -/
def exec (s : σ) (events : List ε) : σ := events.foldl step s

@[simp] theorem exec_nil (s : σ) : exec step s [] = s := rfl

@[simp] theorem exec_cons (s : σ) (e : ε) (events : List ε) :
    exec step s (e :: events) = exec step (step s e) events := rfl

theorem exec_append (s : σ) (before after : List ε) :
    exec step s (before ++ after) = exec step (exec step s before) after := by
  simp [exec]

/-- Every event of the run meets the guard in the state it is applied to. -/
def Guarded (guard : σ → ε → Prop) : σ → List ε → Prop
  | _, [] => True
  | s, e :: events => guard s e ∧ Guarded guard (step s e) events

instance decidableGuarded (guard : σ → ε → Prop) [∀ s e, Decidable (guard s e)] :
    ∀ (s : σ) (events : List ε), Decidable (Guarded step guard s events)
  | _, [] => .isTrue trivial
  | s, e :: events =>
    have := decidableGuarded guard (step s e) events
    inferInstanceAs (Decidable (_ ∧ _))

variable {step} {guard : σ → ε → Prop}

/-- What every step preserves holds at the end of every run. -/
theorem exec_invariant {I : σ → Prop} (hstep : ∀ s e, I s → I (step s e)) {s : σ} (hs : I s)
    (events : List ε) : I (exec step s events) := by
  induction events generalizing s with
  | nil => exact hs
  | cons e events ih => exact ih (hstep s e hs)

theorem guarded_true (s : σ) (events : List ε) : Guarded step (fun _ _ => True) s events := by
  induction events generalizing s with
  | nil => trivial
  | cons e events ih => exact ⟨trivial, ih (step s e)⟩

theorem guarded_append {s : σ} {before after : List ε} :
    Guarded step guard s (before ++ after) ↔
      Guarded step guard s before ∧ Guarded step guard (exec step s before) after := by
  induction before generalizing s with
  | nil => simp [Guarded]
  | cons e before ih => simp [Guarded, ih, and_assoc]

theorem Guarded.mono {guard' : σ → ε → Prop} (hg : ∀ s e, guard s e → guard' s e) {s : σ}
    {events : List ε} (h : Guarded step guard s events) : Guarded step guard' s events := by
  induction events generalizing s with
  | nil => trivial
  | cons e events ih => exact ⟨hg s e h.1, ih h.2⟩

theorem guarded_of_forall {p : ε → Prop} (s : σ) {events : List ε} (h : ∀ e ∈ events, p e) :
    Guarded step (fun _ e => p e) s events := by
  induction events generalizing s with
  | nil => trivial
  | cons e events ih =>
    exact ⟨h e List.mem_cons_self, ih _ fun e' he' => h e' (List.mem_cons_of_mem e he')⟩

/-- What every guarded step preserves holds at the end of every guarded run. -/
theorem Guarded.invariant {I : σ → Prop} (hstep : ∀ s e, I s → guard s e → I (step s e))
    {s : σ} {events : List ε} (hs : I s) (h : Guarded step guard s events) :
    I (exec step s events) := by
  induction events generalizing s with
  | nil => exact hs
  | cons e events ih => exact ih (hstep s e hs h.1) h.2

/-- An invariant of a run strengthens the guard under which a further one is proved. -/
theorem Guarded.strengthen {I : σ → Prop} (hstep : ∀ s e, I s → guard s e → I (step s e))
    {s : σ} {events : List ε} (hs : I s) (h : Guarded step guard s events) :
    Guarded step (fun s e => I s ∧ guard s e) s events := by
  induction events generalizing s with
  | nil => trivial
  | cons e events ih => exact ⟨⟨hs, h.1⟩, ih (hstep s e hs h.1) h.2⟩

variable (step) in
/-- Total amount spent along a run. -/
def spent (amount : σ → ε → ℕ) : σ → List ε → ℕ
  | _, [] => 0
  | s, e :: events => amount s e + spent amount (step s e) events

/-- If every guarded step raises the potential by at least what it spends, a run
spends at most the difference of potentials. -/
theorem Guarded.spent_le {amount : σ → ε → ℕ} (potential : σ → ℕ)
    (hstep : ∀ s e, guard s e → potential s + amount s e ≤ potential (step s e))
    {s : σ} {events : List ε} (h : Guarded step guard s events) :
    potential s + spent step amount s events ≤ potential (exec step s events) := by
  induction events generalizing s with
  | nil => simp [spent]
  | cons e events ih =>
    have hfirst := hstep s e h.1
    have hrest := ih h.2
    simp only [spent, exec_cons]
    omega

end TinySweeper.Runs
