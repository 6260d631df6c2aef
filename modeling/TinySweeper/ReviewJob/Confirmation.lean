import TinySweeper.ReviewJob.Completion

/-!
# What a confirmation does

`confirm_head` and `reconcile_live_check` are inverted once, by what they find in the
budget of the pull request and in the status document.
-/

namespace TinySweeper.ReviewJob

open FirstMatch

variable {sha256 : String → List UInt8} {e : Event} {s s' : ReviewSchedulerState}
variable {owned : OwnedReview} {nowMs : ℤ} {headSha repo : String}

/-- Head-history reservations the record still holds. -/
def ScheduledReview.reserved (record : ScheduledReview) : ℕ :=
  record.headHistoryReservations.getD 0

/-- The ways of `confirm_head`, by what stands in the budget of the pull request. -/
inductive ConfirmStep (s : ReviewSchedulerState) (owned : OwnedReview) (headSha : String)
    (nowMs : ℤ) : ReviewSchedulerState × Bool → Prop
  | lost (hfind : s.unfinished.find? (ownsUnexpired owned nowMs) = none) :
      ConfirmStep s owned headSha nowMs (s, false)
  | full {record} (hfind : s.unfinished.find? (ownsUnexpired owned nowMs) = some record)
      (hmode : record.request.mode ≠ .incremental) :
      ConfirmStep s owned headSha nowMs (s, true)
  | held {record current} (hfind : s.unfinished.find? (ownsUnexpired owned nowMs) = some record)
      (hmode : record.request.mode = .incremental)
      (hbudget : s.budgetOf record.request.repo record.request.number = some current)
      (hsame : current.headSha = headSha) :
      ConfirmStep s owned headSha nowMs
        ((s.pruneHistory nowMs).updateOwned owned nowMs (ScheduledReview.withHead (some headSha)),
          true)
  | opened {record} (hfind : s.unfinished.find? (ownsUnexpired owned nowMs) = some record)
      (hmode : record.request.mode = .incremental)
      (hbudget : s.budgetOf record.request.repo record.request.number = none) :
      ConfirmStep s owned headSha nowMs
        ({ (s.pruneHistory nowMs).updateOwned owned nowMs
              (ScheduledReview.withHead (some headSha)) with
            incrementalHeads := s.incrementalHeads ++
              [{ repo := record.request.repo
                 number := record.request.number
                 headSha := headSha
                 paidAttempts := record.paidAttempts
                 ownershipRefunds := 0
                 epoch := 0
                 deadlineHit := false
                 terminalOutcome := none }] }, true)
  | moved {record current} (hfind : s.unfinished.find? (ownsUnexpired owned nowMs) = some record)
      (hmode : record.request.mode = .incremental)
      (hbudget : s.budgetOf record.request.repo record.request.number = some current)
      (hne : current.headSha ≠ headSha) (hopen : current.existingTerminal = none) :
      ConfirmStep s owned headSha nowMs
        (((s.pruneHistory nowMs).moveBudget current record.request.repo record.request.number
            headSha nowMs).updateOwned owned nowMs (ScheduledReview.withHead (some headSha)), true)
  | left {record current} (hfind : s.unfinished.find? (ownsUnexpired owned nowMs) = some record)
      (hmode : record.request.mode = .incremental)
      (hbudget : s.budgetOf record.request.repo record.request.number = some current)
      (hne : current.headSha ≠ headSha) (hterminal : current.existingTerminal ≠ none)
      (hreserved : 0 < record.reserved) :
      ConfirmStep s owned headSha nowMs
        (((s.pruneHistory nowMs).moveBudget current record.request.repo record.request.number
            headSha nowMs).updateOwned owned nowMs
              (fun record => record.spendReservation.withHead (some headSha)), true)
  | refused {record current}
      (hfind : s.unfinished.find? (ownsUnexpired owned nowMs) = some record)
      (hmode : record.request.mode = .incremental)
      (hbudget : s.budgetOf record.request.repo record.request.number = some current)
      (hne : current.headSha ≠ headSha) (hterminal : current.existingTerminal ≠ none)
      (hspent : record.reserved = 0) :
      ConfirmStep s owned headSha nowMs (s.pruneHistory nowMs, false)

variable {current : IncrementalHeadBudget}

theorem confirmHead_step (s : ReviewSchedulerState) (owned : OwnedReview) (headSha : String)
    (nowMs : ℤ) : ConfirmStep s owned headSha nowMs (s.confirmHead owned headSha nowMs) := by
  unfold ReviewSchedulerState.confirmHead
  cases hfind : s.unfinished.find? (ownsUnexpired owned nowMs) with
  | none => exact .lost hfind
  | some record =>
    dsimp only
    by_cases hmode : record.request.mode = .incremental
    · rw [if_neg (not_not.mpr hmode)]
      have hpruned : (s.pruneHistory nowMs).budgetOf record.request.repo record.request.number =
          s.budgetOf record.request.repo record.request.number := rfl
      cases hbudget : s.budgetOf record.request.repo record.request.number with
      | none =>
        rw [hbudget] at hpruned
        simp only [hpruned]
        exact .opened hfind hmode hbudget
      | some current =>
        rw [hbudget] at hpruned
        simp only [hpruned]
        split_ifs with hsame
        · exact .held hfind hmode hbudget hsame
        unfold ReviewSchedulerState.advanceHead
        dsimp only
        split_ifs with hterminal hspent
        · exact .refused hfind hmode hbudget hsame (existingTerminal_ne_none.mpr hterminal) hspent
        · exact .left hfind hmode hbudget hsame (existingTerminal_ne_none.mpr hterminal)
            (Nat.pos_of_ne_zero hspent)
        · apply ConfirmStep.moved hfind hmode hbudget hsame
          rwa [← existingTerminal_ne_none, ne_eq, not_not] at hterminal
    · rw [if_pos hmode]
      exact .full hfind hmode

/-- An edit the fence cannot see leaves the handle as live as it was. -/
theorem find?_updateOwned_isSome {f : ScheduledReview → ScheduledReview}
    (hf : ∀ record, ownsUnexpired owned nowMs (f record) = ownsUnexpired owned nowMs record) :
    ((updateFirst (ownsUnexpired owned nowMs) f s.unfinished).find?
      (ownsUnexpired owned nowMs)).isSome =
        (s.unfinished.find? (ownsUnexpired owned nowMs)).isSome := by
  rw [find?_updateFirst_self hf, Option.isSome_map]

/-- A confirmed handle is still the live one. -/
theorem ConfirmStep.live
    {r : ReviewSchedulerState × Bool} (h : ConfirmStep s owned headSha nowMs r) :
    (r.1.unfinished.find? (ownsUnexpired owned nowMs)).isSome =
      (s.unfinished.find? (ownsUnexpired owned nowMs)).isSome := by
  cases h with
  | lost | full | refused => rfl
  | held | opened | moved =>
    exact find?_updateOwned_isSome (f := ScheduledReview.withHead (some headSha)) fun _ => rfl
  | left =>
    exact find?_updateOwned_isSome
      (f := fun record => record.spendReservation.withHead (some headSha)) fun _ => rfl

theorem historicalOutcome_eq_none {history : List HeadTerminalTombstone} {number : ℕ} :
    historicalOutcome history repo number headSha nowMs = none ↔
      ∀ entry ∈ history, entry.marks repo number headSha nowMs = false := by
  simp [historicalOutcome]

/-- A head without history opens the budget it moves to. -/
theorem moveBudget_open {budget : IncrementalHeadBudget} {number : ℕ}
    (hne : current.headSha ≠ headSha)
    (hnone : historicalOutcome s.headHistory repo number headSha nowMs = none)
    (hbudget : ((s.pruneHistory nowMs).moveBudget current repo number headSha nowMs).budgetOf
      repo number = some budget) : budget.existingTerminal = none := by
  rw [historicalOutcome_eq_none] at hnone
  unfold ReviewSchedulerState.moveBudget at hbudget
  have hhistory : historicalOutcome
      (if current.terminalOutcome.isSome ∨ current.deadlineHit then
        (s.pruneHistory nowMs).headHistory ++ [current.farewell nowMs]
      else (s.pruneHistory nowMs).headHistory) repo number headSha nowMs = none := by
    rw [historicalOutcome_eq_none]
    intro entry hentry
    split_ifs at hentry
    · rcases List.mem_append.mp hentry with hold | hnew
      · exact hnone entry (List.mem_filter.mp hold).1
      · rw [List.mem_singleton.mp hnew]
        simp [HeadTerminalTombstone.marks, IncrementalHeadBudget.farewell, hne]
    · exact hnone entry (List.mem_filter.mp hentry).1
  dsimp only at hbudget
  rw [hhistory] at hbudget
  have hfound := find?_updateFirst_self (p := fun budget => budget.isFor repo number)
    (f := IncrementalHeadBudget.moveTo headSha none) (fun _ => rfl) s.incrementalHeads
  have hmap := hfound.symm.trans hbudget
  obtain ⟨old, -, hmoved⟩ := Option.map_eq_some_iff.mp hmap
  rw [← hmoved]
  rfl

theorem budgetOf_updateBudget_of_ne {f : IncrementalHeadBudget → IncrementalHeadBudget}
    (hf : ∀ repo number budget, (f budget).isFor repo number = budget.isFor repo number)
    {repo' : String} {number number' : ℕ} (hne : (repo', number') ≠ (repo, number)) :
    (s.updateBudget repo number f).budgetOf repo' number' = s.budgetOf repo' number' := by
  rcases find?_updateFirst_cases (p := fun budget => budget.isFor repo number)
    (q := fun budget => budget.isFor repo' number') (f := f) (hf repo' number')
    s.incrementalHeads with hsame | ⟨budget, hq, hp, -⟩
  · exact hsame
  · have hfor' := List.find?_some (p := fun b : IncrementalHeadBudget => b.isFor repo' number') hq
    have hfor := List.find?_some (p := fun b : IncrementalHeadBudget => b.isFor repo number) hp
    rw [isFor_iff] at hfor hfor'
    exact absurd (Prod.ext (hfor'.1.symm.trans hfor.1) (hfor'.2.symm.trans hfor.2)) hne

theorem moveBudget_budgetOf_of_ne {repo' : String} {number number' : ℕ}
    (hne : (repo', number') ≠ (repo, number)) :
    (s.moveBudget current repo number headSha nowMs).budgetOf repo' number' =
      s.budgetOf repo' number' := by
  unfold ReviewSchedulerState.moveBudget
  dsimp only
  generalize historicalOutcome _ repo number headSha nowMs = historical
  exact budgetOf_updateBudget_of_ne (f := IncrementalHeadBudget.moveTo headSha historical)
    (fun _ _ _ => rfl) hne

/-- Whether the head, once bound, is one that already has a terminal result. -/
def knownTerminalAt (s : ReviewSchedulerState) (record : ScheduledReview) (headSha : String)
    (nowMs : ℤ) : Bool :=
  headIsKnownTerminal s.incrementalHeads s.headHistory (record.withHead (some headSha)).request
    nowMs

theorem knownTerminalAt_eq (record : ScheduledReview) (headSha : String) (nowMs : ℤ) :
    knownTerminalAt s record headSha nowMs = (record.request.mode == .incremental &&
      (s.incrementalHeads.any (fun budget =>
          budget.isFor record.request.repo record.request.number && budget.headSha == headSha &&
            budget.existingTerminal.isSome) ||
        s.headHistory.any fun entry =>
          entry.marks record.request.repo record.request.number headSha nowMs)) := by
  have hterminal : ∀ budget : IncrementalHeadBudget,
      (budget.deadlineHit || budget.terminalOutcome.isSome) = budget.existingTerminal.isSome := by
    intro budget
    unfold IncrementalHeadBudget.existingTerminal
    cases budget.terminalOutcome <;> cases budget.deadlineHit <;> rfl
  simp only [knownTerminalAt, headIsKnownTerminal, ScheduledReview.withHead, hterminal]

theorem any_marks_pruneHistory (repo headSha : String) (number : ℕ) (nowMs : ℤ) :
    (s.pruneHistory nowMs).headHistory.any (fun entry => entry.marks repo number headSha nowMs) =
      s.headHistory.any fun entry => entry.marks repo number headSha nowMs := by
  simp only [ReviewSchedulerState.pruneHistory, List.any_filter]
  congr 1
  funext entry
  cases hmarks : entry.marks repo number headSha nowMs with
  | false => simp
  | true =>
    simp only [HeadTerminalTombstone.marks, Bool.and_eq_true] at hmarks
    simp [hmarks.2]

theorem historicalOutcome_isSome (history : List HeadTerminalTombstone) (repo headSha : String)
    (number : ℕ) (nowMs : ℤ) : (historicalOutcome history repo number headSha nowMs).isSome =
      history.any fun entry => entry.marks repo number headSha nowMs := by
  rw [historicalOutcome, Option.isSome_map, List.isSome_find?]

/-- The history a budget leaves behind, seen from the head it moves to. -/
theorem any_marks_moveBudget (repo : String) (number : ℕ) (nowMs : ℤ)
    (hne : current.headSha ≠ headSha) :
    (s.moveBudget current repo number headSha nowMs).headHistory.any
        (fun entry => entry.marks repo number headSha nowMs) =
      s.headHistory.any fun entry => entry.marks repo number headSha nowMs := by
  unfold ReviewSchedulerState.moveBudget
  dsimp only
  split_ifs
  · simp [HeadTerminalTombstone.marks, IncrementalHeadBudget.farewell, hne]
  · rfl

theorem existingTerminal_moveTo (headSha : String) (historical : Option TerminalOutcome)
    (budget : IncrementalHeadBudget) :
    (budget.moveTo headSha historical).existingTerminal = historical := by
  cases historical <;> rfl

theorem knownTerminalAt_moveBudget {record : ScheduledReview}
    (hmode : record.request.mode = .incremental)
    (hbudget : s.budgetOf record.request.repo record.request.number = some current)
    (hne : current.headSha ≠ headSha) :
    knownTerminalAt ((s.pruneHistory nowMs).moveBudget current record.request.repo
      record.request.number headSha nowMs) record headSha nowMs =
        knownTerminalAt s record headSha nowMs := by
  obtain ⟨history, hhistory⟩ : ∃ history, history = ((s.pruneHistory nowMs).moveBudget current
    record.request.repo record.request.number headSha nowMs).headHistory := ⟨_, rfl⟩
  have hmarks := any_marks_moveBudget (s := s.pruneHistory nowMs) record.request.repo
    record.request.number nowMs hne
  rw [any_marks_pruneHistory] at hmarks
  have hrepl := updateFirst_replaced (IncrementalHeadBudget.moveTo headSha
    (historicalOutcome history record.request.repo record.request.number headSha nowMs)) hbudget
  have hany := hrepl.any fun budget => budget.isFor record.request.repo record.request.number &&
    budget.headSha == headSha && budget.existingTerminal.isSome
  have hfor := List.find?_some
    (p := fun b : IncrementalHeadBudget => b.isFor record.request.repo record.request.number) hbudget
  have hsame : (current.headSha == headSha) = false := by simpa using hne
  have hmoved : ∀ historical, (current.moveTo headSha historical).isFor record.request.repo
      record.request.number = true := fun _ => hfor
  have hhead : ∀ historical, ((current.moveTo headSha historical).headSha == headSha) = true :=
    fun _ => beq_self_eq_true headSha
  simp only [existingTerminal_moveTo, historicalOutcome_isSome, hmoved, hhead, hsame, hhistory,
    hmarks, Bool.and_false, Bool.false_and, Bool.or_false, Bool.true_and] at hany
  rw [knownTerminalAt_eq, knownTerminalAt_eq, hmarks, hmode]
  refine (congrArg (fun b => _ && (b || _)) hany).trans ?_
  rw [Bool.or_assoc, Bool.or_self]

/-- Confirming a head does not change whether it is known to be terminal. -/
theorem ConfirmStep.knownTerminalAt_eq {r : ReviewSchedulerState × Bool} {record : ScheduledReview}
    (h : ConfirmStep s owned headSha nowMs r)
    (hfind : s.unfinished.find? (ownsUnexpired owned nowMs) = some record) :
    knownTerminalAt r.1 record headSha nowMs = knownTerminalAt s record headSha nowMs := by
  have hpruned : knownTerminalAt (s.pruneHistory nowMs) record headSha nowMs =
      knownTerminalAt s record headSha nowMs := by
    rw [ReviewJob.knownTerminalAt_eq, ReviewJob.knownTerminalAt_eq, any_marks_pruneHistory]
    rfl
  cases h with
  | lost | full => rfl
  | held | refused => exact hpruned
  | @opened other hother =>
    have heq : other = record := Option.some.inj (hother.symm.trans hfind)
    subst heq
    rw [← hpruned, ReviewJob.knownTerminalAt_eq, ReviewJob.knownTerminalAt_eq]
    simp [ReviewSchedulerState.updateOwned, ReviewSchedulerState.pruneHistory,
      IncrementalHeadBudget.existingTerminal]
  | @moved other _ hother hmode hbudget hne | @left other _ hother hmode hbudget hne =>
    have heq : other = record := Option.some.inj (hother.symm.trans hfind)
    subst heq
    exact knownTerminalAt_moveBudget hmode hbudget hne

/-- A confirmation changes the budget of the owner's pull request only. -/
theorem ConfirmStep.budgetOf_of_ne {r : ReviewSchedulerState × Bool} {record : ScheduledReview}
    {number : ℕ} (h : ConfirmStep s owned headSha nowMs r)
    (hfind : s.unfinished.find? (ownsUnexpired owned nowMs) = some record)
    (hne : record.request.mode = .incremental → (repo, number) ≠ record.pr) :
    r.1.budgetOf repo number = s.budgetOf repo number := by
  cases h with
  | lost | full | held | refused => rfl
  | @opened other hother hmode =>
    have heq : other = record := Option.some.inj (hother.symm.trans hfind)
    subst heq
    have hforeign : ¬ (other.request.repo = repo ∧ other.request.number = number) := by
      rintro ⟨rfl, rfl⟩
      exact hne hmode rfl
    simp [ReviewSchedulerState.budgetOf, IncrementalHeadBudget.isFor, hforeign]
  | @moved other current hother hmode | @left other current hother hmode =>
    have heq : other = record := Option.some.inj (hother.symm.trans hfind)
    subst heq
    exact moveBudget_budgetOf_of_ne (s := s.pruneHistory nowMs) (hne hmode)

/-- The status document is full and the record has no slot of its own left. -/
def capacityDefers (s : ReviewSchedulerState) (owned : OwnedReview) (headSha : String)
    (nowMs : ℤ) : Bool :=
  (s.unfinished.find? (ownsUnexpired owned nowMs)).any fun record =>
    !record.reviewChecks.any (fun check => check.headSha == headSha) &&
      !record.statusReconcileReserved && decide (s.statusRecordsInUse ≥ maxReviewStatusRecords)

/-- Reconciliation defers, or confirms the head before it rebinds the check. -/
theorem reconcileLiveCheck_eq
    (hlive : (s.unfinished.find? (ownsUnexpired owned nowMs)).isSome = true) :
    s.reconcileLiveCheck sha256 owned headSha nowMs =
      if capacityDefers s owned headSha nowMs then (s, .capacityDeferred)
      else if (s.confirmHead owned headSha nowMs).2 then
        (s.confirmHead owned headSha nowMs).1.rebindCheck sha256 owned headSha nowMs
      else ((s.confirmHead owned headSha nowMs).1, .ownershipLost) := by
  obtain ⟨record, hfind⟩ := Option.isSome_iff_exists.mp hlive
  simp only [ReviewSchedulerState.reconcileLiveCheck, capacityDefers, hfind, Option.any_some]

/-- Rebinding the check of a live handle always has an answer of its own. -/
theorem rebindCheck_ne_ownershipLost
    (hlive : (s.unfinished.find? (ownsUnexpired owned nowMs)).isSome = true) :
    (s.rebindCheck sha256 owned headSha nowMs).2 ≠ .ownershipLost := by
  obtain ⟨record, hfind⟩ := Option.isSome_iff_exists.mp hlive
  simp only [ReviewSchedulerState.rebindCheck, hfind]
  split_ifs <;> simp

/-- The confirmation of a live handle fails: its pull request would have to leave a terminal
head without a reservation. -/
def bindingRefused (s : ReviewSchedulerState) (record : ScheduledReview) (headSha : String) :
    Bool :=
  record.request.mode == .incremental && record.reserved == 0 &&
    (s.budgetOf record.request.repo record.request.number).any fun current =>
      current.headSha != headSha && current.existingTerminal.isSome

theorem ConfirmStep.not_refused {c : ReviewSchedulerState} {record : ScheduledReview}
    (h : ConfirmStep s owned headSha nowMs (c, true))
    (hfind : s.unfinished.find? (ownsUnexpired owned nowMs) = some record) :
    bindingRefused s record headSha = false := by
  have heq : ∀ {other}, s.unfinished.find? (ownsUnexpired owned nowMs) = some other →
      other = record := fun hother => Option.some.inj (hother.symm.trans hfind)
  cases h with
  | full hother hmode =>
    obtain rfl := heq hother
    simp [bindingRefused, hmode]
  | held hother hmode hbudget hsame =>
    obtain rfl := heq hother
    simp [bindingRefused, hbudget, hsame]
  | opened hother hmode hbudget =>
    obtain rfl := heq hother
    simp [bindingRefused, hbudget]
  | moved hother hmode hbudget hne hopen =>
    obtain rfl := heq hother
    simp [bindingRefused, hbudget, hopen]
  | left hother hmode hbudget hne hterminal hreserved =>
    obtain rfl := heq hother
    simp [bindingRefused, hreserved.ne']

/-- A confirmation leaves the live record at its place, on the confirmed head. -/
theorem ConfirmStep.confirmed {owned : OwnedReview} {headSha : String} {nowMs : ℤ}
    {c : ReviewSchedulerState} (h : ConfirmStep s owned headSha nowMs (c, true)) :
    ∃ record bound, s.unfinished.find? (ownsUnexpired owned nowMs) = some record ∧
      c.unfinished.find? (ownsUnexpired owned nowMs) = some bound ∧
      bound.withHead (some headSha) = { record.withHead (some headSha) with
        headHistoryReservations := bound.headHistoryReservations } ∧
      (∀ x, updateFirst (ownsUnexpired owned nowMs) (fun _ => x) c.unfinished =
        updateFirst (ownsUnexpired owned nowMs) (fun _ => x) s.unfinished) ∧
      c.terminal = s.terminal ∧ c.retiredChecks = s.retiredChecks := by
  have hedit : ∀ (f : ScheduledReview → ScheduledReview) (record : ScheduledReview),
      (∀ record, ownsUnexpired owned nowMs (f record) = ownsUnexpired owned nowMs record) →
      s.unfinished.find? (ownsUnexpired owned nowMs) = some record →
      (updateFirst (ownsUnexpired owned nowMs) f s.unfinished).find? (ownsUnexpired owned nowMs) =
          some (f record) ∧
        ∀ x, updateFirst (ownsUnexpired owned nowMs) (fun _ => x)
            (updateFirst (ownsUnexpired owned nowMs) f s.unfinished) =
          updateFirst (ownsUnexpired owned nowMs) (fun _ => x) s.unfinished := by
    intro f record hf hfind
    rw [find?_updateFirst_self hf, hfind]
    exact ⟨rfl, fun x => updateFirst_updateFirst hf _ _⟩
  cases h with
  | @full record hfind => exact ⟨record, record, hfind, hfind, rfl, fun _ => rfl, rfl, rfl⟩
  | @held record _ hfind | @opened record hfind | @moved record _ hfind =>
    obtain ⟨hbound, hover⟩ := hedit (ScheduledReview.withHead (some headSha)) record
      (fun _ => rfl) hfind
    exact ⟨record, _, hfind, hbound, rfl, hover, rfl, rfl⟩
  | @left record _ hfind =>
    obtain ⟨hbound, hover⟩ := hedit
      (fun record => record.spendReservation.withHead (some headSha)) record (fun _ => rfl) hfind
    exact ⟨record, _, hfind, hbound, rfl, hover, rfl, rfl⟩

/-- The ways of `reconcile_live_check`; a confirmed head is rebound in the confirmed journal. -/
inductive ReconcileStep (sha256 : String → List UInt8) (s : ReviewSchedulerState)
    (owned : OwnedReview) (headSha : String) (nowMs : ℤ) :
    ReviewSchedulerState × ReconciledReviewCheck → Prop
  | lost (hfind : s.unfinished.find? (ownsUnexpired owned nowMs) = none) :
      ReconcileStep sha256 s owned headSha nowMs (s, .ownershipLost)
  | deferred (hdefers : capacityDefers s owned headSha nowMs = true) :
      ReconcileStep sha256 s owned headSha nowMs (s, .capacityDeferred)
  | refused {c} (hconfirm : ConfirmStep s owned headSha nowMs (c, false)) :
      ReconcileStep sha256 s owned headSha nowMs (c, .ownershipLost)
  | concluded {c record bound} (hroom : capacityDefers s owned headSha nowMs = false)
      (hconfirm : ConfirmStep s owned headSha nowMs (c, true))
      (hfind : s.unfinished.find? (ownsUnexpired owned nowMs) = some record)
      (hbound : bound = { record.withHead (some headSha) with
        headHistoryReservations := bound.headHistoryReservations })
      (hfound : (c.unfinished.find? (ownsUnexpired owned nowMs)).map
        (ScheduledReview.withHead (some headSha)) = some bound)
      (hterminal : headIsKnownTerminal c.incrementalHeads c.headHistory bound.request nowMs = true) :
      ReconcileStep sha256 s owned headSha nowMs
        ({ c with
            unfinished := updateFirst (ownsUnexpired owned nowMs)
              (fun _ => (detachChecksExcept bound (some headSha)).1) s.unfinished
            retiredChecks := s.retiredChecks ++ (detachChecksExcept bound (some headSha)).2 },
          .terminal)
  | rebound {c record bound reply} (hroom : capacityDefers s owned headSha nowMs = false)
      (hconfirm : ConfirmStep s owned headSha nowMs (c, true))
      (hfind : s.unfinished.find? (ownsUnexpired owned nowMs) = some record)
      (hbound : bound = { record.withHead (some headSha) with
        headHistoryReservations := bound.headHistoryReservations })
      (hfound : (c.unfinished.find? (ownsUnexpired owned nowMs)).map
        (ScheduledReview.withHead (some headSha)) = some bound)
      (hopen : headIsKnownTerminal c.incrementalHeads c.headHistory bound.request nowMs = true →
        (detachChecksExcept bound (some headSha)).1.reviewChecks.any (isPublishedFor headSha) =
          true) :
      ReconcileStep sha256 s owned headSha nowMs
        ({ c with
            unfinished := updateFirst (ownsUnexpired owned nowMs)
              (fun _ => ((detachChecksExcept bound (some headSha)).1.bindCheck sha256 headSha
                owned.generation).1) s.unfinished
            retiredChecks := s.retiredChecks ++ (detachChecksExcept bound (some headSha)).2 },
          reply)

/-- The reconciliation queues a check for the live head. -/
def mintsLiveCheck (s : ReviewSchedulerState) (owned : OwnedReview) (record : ScheduledReview)
    (headSha : String) (nowMs : ℤ) : Bool :=
  !capacityDefers s owned headSha nowMs && !bindingRefused s record headSha &&
    !record.reviewChecks.any (fun check => check.headSha == headSha) &&
    !knownTerminalAt s record headSha nowMs

theorem any_isPublishedFor {checks : List ReviewCheckRecord}
    (h : checks.any (isPublishedFor headSha) = true) :
    checks.any (fun check => check.headSha == headSha) = true := by
  obtain ⟨check, hmem, hpublished⟩ := List.any_eq_true.mp h
  simp only [isPublishedFor, Bool.and_eq_true] at hpublished
  exact List.any_eq_true.mpr ⟨check, hmem, hpublished.1.1⟩

/-- Checks of the kept head are not lost when others are detached. -/
theorem any_detachChecksExcept (record : ScheduledReview) (headSha : String) :
    (detachChecksExcept record (some headSha)).1.reviewChecks.any
        (fun check => check.headSha == headSha) =
      record.reviewChecks.any fun check => check.headSha == headSha := by
  simp [detachChecksExcept, detachChecksExceptPreserving, List.any_filter]

theorem mintsLiveCheck_of_rebound {c : ReviewSchedulerState} {record bound : ScheduledReview}
    (hroom : capacityDefers s owned headSha nowMs = false)
    (hconfirm : ConfirmStep s owned headSha nowMs (c, true))
    (hfind : s.unfinished.find? (ownsUnexpired owned nowMs) = some record)
    (hbound : bound = { record.withHead (some headSha) with
      headHistoryReservations := bound.headHistoryReservations })
    (hopen : headIsKnownTerminal c.incrementalHeads c.headHistory bound.request nowMs = true →
      (detachChecksExcept bound (some headSha)).1.reviewChecks.any (isPublishedFor headSha) = true)
    (hnone : record.reviewChecks.any (fun check => check.headSha == headSha) = false) :
    mintsLiveCheck s owned record headSha nowMs = true := by
  have hunknown : knownTerminalAt s record headSha nowMs = false := by
    rw [← hconfirm.knownTerminalAt_eq hfind]
    by_contra hterminal
    rw [Bool.not_eq_false] at hterminal
    rw [hbound] at hopen
    have hany := any_isPublishedFor (hopen hterminal)
    rw [any_detachChecksExcept] at hany
    exact absurd (hnone.symm.trans hany) Bool.false_ne_true
  simp [mintsLiveCheck, hroom, hconfirm.not_refused hfind, hnone, hunknown]

theorem reconcileLiveCheck_step (sha256 : String → List UInt8) (s : ReviewSchedulerState)
    (owned : OwnedReview) (headSha : String) (nowMs : ℤ) :
    ReconcileStep sha256 s owned headSha nowMs
      (s.reconcileLiveCheck sha256 owned headSha nowMs) := by
  cases hlive : s.unfinished.find? (ownsUnexpired owned nowMs) with
  | none =>
    simp only [ReviewSchedulerState.reconcileLiveCheck, hlive]
    exact .lost hlive
  | some record =>
    rw [reconcileLiveCheck_eq (by rw [hlive]; rfl)]
    have hstep := confirmHead_step s owned headSha nowMs
    generalize s.confirmHead owned headSha nowMs = r at hstep ⊢
    obtain ⟨c, accepted⟩ := r
    split_ifs with hdefers haccepted
    · exact .deferred hdefers
    · dsimp only at haccepted
      subst haccepted
      rw [Bool.not_eq_true] at hdefers
      obtain ⟨record', found, hfind, hfound, hbound, hover, -, hretired⟩ := hstep.confirmed
      unfold ReviewSchedulerState.rebindCheck ReviewSchedulerState.updateOwned
      simp only [hfound, hover, hretired]
      split_ifs with hterminal
      · exact .concluded hdefers hstep hfind hbound (by rw [hfound]; rfl)
          (Bool.and_eq_true_iff.mp hterminal).1
      all_goals
        refine .rebound hdefers hstep hfind hbound (by rw [hfound]; rfl) fun hyes => ?_
        simpa [hyes] using hterminal
    · dsimp only at haccepted
      rw [Bool.not_eq_true] at haccepted
      subst haccepted
      exact .refused hstep

end TinySweeper.ReviewJob
