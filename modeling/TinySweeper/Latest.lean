import Mathlib.Tactic

/-!
# State that only marks change

Some elements of a stream carry a mark. The state after a stretch of the stream
is what its last mark says, or else the state before it.
-/

namespace TinySweeper

variable {α β : Type*} (mark : α → Option β)

/-- The state after these elements. -/
def latest (init : β) (l : List α) : β := l.foldl (fun state a => (mark a).getD state) init

@[simp] theorem latest_nil (init : β) : latest mark init [] = init := rfl

@[simp] theorem latest_cons (init : β) (a : α) (l : List α) :
    latest mark init (a :: l) = latest mark ((mark a).getD init) l := rfl

theorem latest_append (init : β) (before after : List α) :
    latest mark init (before ++ after) = latest mark (latest mark init before) after :=
  List.foldl_append

variable {mark} {init : β} {l : List α}

theorem latest_of_unmarked (h : ∀ a ∈ l, mark a = none) : latest mark init l = init := by
  induction l generalizing init with
  | nil => rfl
  | cons a l ih =>
    have hrest : ∀ b ∈ l, mark b = none := fun b hb => h b (List.mem_cons_of_mem a hb)
    rw [latest_cons, ih hrest, h a List.mem_cons_self]
    rfl

theorem latest_of_last {before after : List α} {a : α} {b : β} (ha : mark a = some b)
    (hafter : ∀ c ∈ after, mark c = none) : latest mark init (before ++ a :: after) = b := by
  rw [latest_append, latest_cons, ha, latest_of_unmarked hafter]
  rfl

/-- Either nothing is marked, or some element carries the last mark. -/
theorem unmarked_or_last (mark : α → Option β) (l : List α) :
    (∀ a ∈ l, mark a = none) ∨
      ∃ before a after b, l = before ++ a :: after ∧ mark a = some b ∧
        ∀ c ∈ after, mark c = none := by
  induction l with
  | nil => exact .inl (by simp)
  | cons a l ih =>
    rcases ih with hnone | ⟨before, last, after, b, rfl, hlast, hafter⟩
    · cases ha : mark a with
      | none =>
        apply Or.inl
        intro c hc
        rcases List.mem_cons.mp hc with rfl | hc
        · exact ha
        · exact hnone c hc
      | some b => exact .inr ⟨[], a, l, b, rfl, ha, hnone⟩
    · exact .inr ⟨a :: before, last, after, b, rfl, hlast, hafter⟩

/-- The state is what the last mark says, or else the initial one. -/
theorem latest_eq_iff {b : β} :
    latest mark init l = b ↔
      (∃ before a after, l = before ++ a :: after ∧ mark a = some b ∧
        ∀ c ∈ after, mark c = none) ∨ ((∀ a ∈ l, mark a = none) ∧ init = b) := by
  constructor
  · rintro rfl
    rcases unmarked_or_last mark l with hnone | ⟨before, a, after, b, rfl, ha, hafter⟩
    · exact .inr ⟨hnone, (latest_of_unmarked hnone).symm⟩
    · refine .inl ⟨before, a, after, rfl, ?_, hafter⟩
      rw [latest_of_last ha hafter, ha]
  · rintro (⟨before, a, after, rfl, ha, hafter⟩ | ⟨hnone, rfl⟩)
    · exact latest_of_last ha hafter
    · exact latest_of_unmarked hnone

/-- A machine whose state only marks change is in the latest state. -/
theorem foldl_eq_latest {σ : Type*} {step : σ → α → σ} {read : σ → β}
    (hstep : ∀ s a, read (step s a) = (mark a).getD (read s)) (s : σ) (l : List α) :
    read (l.foldl step s) = latest mark (read s) l := by
  induction l generalizing s with
  | nil => rfl
  | cons a l ih => rw [List.foldl_cons, ih, hstep, latest_cons]

end TinySweeper
