import TinySweeper.Preview.Step

/-!
# The script of a flow

What holds of a flow's state after any turns: the recorder is started in front of the
steps and stopped behind them, each step may be sent to the hands, each annotation points
at a screenshot taken before it, and the flow is over exactly when its script is closed.
-/

namespace TinySweeper.Preview

open Text Harness

variable (isAlphanumeric : Char → Bool)

/-- The commands of a flow are an opening, its steps and a closing. -/
structure Script (maxSteps : ℕ) (s : FlowState) (opening steps closing : List Command) :
    Prop where
  commands : s.commands = opening ++ steps ++ closing
  opened : opening = [.record true] ∨ opening = [] ∧ steps = []
  isStep : ∀ c ∈ steps, c.isStep = true
  sound : ∀ c ∈ s.commands, c.Sound isAlphanumeric
  fitting : Fitting [] steps
  screenshots : s.screenshots = steps.filterMap Command.shot?
  isClosing : ∀ c ∈ closing, c.isClosing = true
  ended : s.done = true ↔ ∃ reason, closing.getLast? = some (.done reason)
  unclosed : s.done = false → closing = []
  bounded : steps.length ≤ maxSteps - 1 + MAX_BATCH
  reopens : s.reopens ≤ MAX_REOPENS
  paid : s.turns.length ≤ min steps.length maxSteps + s.reopens + s.done.toNat

def FlowState.Scripted (maxSteps : ℕ) (s : FlowState) : Prop :=
  ∃ opening steps closing, Script isAlphanumeric maxSteps s opening steps closing

theorem initial_scripted (maxSteps : ℕ) : FlowState.initial.Scripted isAlphanumeric maxSteps := by
  refine ⟨[], [], [], rfl, .inr ⟨rfl, rfl⟩, ?_, ?_, trivial, rfl, ?_, ?_, fun _ => rfl,
    Nat.zero_le _, Nat.zero_le _, Nat.zero_le _⟩
  · exact List.forall_mem_nil _
  · exact List.forall_mem_nil _
  · exact List.forall_mem_nil _
  · simp [FlowState.initial]

section Counting

variable {isAlphanumeric} {maxSteps : ℕ} {s : FlowState} {opening steps closing : List Command}

theorem rdropWhile_append {α : Type*} {p : α → Bool} {before after : List α}
    (hbefore : ∀ c ∈ before, p c = false)
    (hafter : ∀ c ∈ after, p c = true) : (before ++ after).rdropWhile p = before := by
  have hkept : before.rdropWhile p = before :=
    List.rdropWhile_eq_self_iff.mpr fun hne => by
      simp [hbefore _ (List.getLast_mem hne)]
  have hdrop : (after.reverse ++ before.reverse).dropWhile p = before.reverse.dropWhile p :=
    List.dropWhile_append_of_pos fun c hc => hafter c (List.mem_reverse.mp hc)
  rw [List.rdropWhile, List.reverse_append, hdrop]
  exact hkept

theorem not_isStep_of_isClosing {c : Command} (h : c.isClosing = true) : c.isStep = false := by
  cases c with
  | record | done => rfl
  | _ => cases h

theorem Script.issued (h : Script isAlphanumeric maxSteps s opening steps closing) :
    issued s.commands = steps.length := by
  have hopening : opening.countP Command.isStep = 0 := by
    rcases h.opened with rfl | ⟨rfl, -⟩ <;> rfl
  have hclosing : closing.countP Command.isStep = 0 := by
    rw [List.countP_eq_zero]
    intro c hc
    rw [not_isStep_of_isClosing (h.isClosing c hc)]
    decide
  rw [Preview.issued, h.commands, List.countP_append, List.countP_append, hopening, hclosing,
    List.countP_eq_length.mpr h.isStep]
  omega

theorem Script.rdropWhile (h : Script isAlphanumeric maxSteps s opening steps closing) :
    s.commands.rdropWhile Command.isClosing = opening ++ steps := by
  rw [h.commands]
  apply rdropWhile_append _ h.isClosing
  intro c hc
  rcases List.mem_append.mp hc with hc | hc
  · rcases h.opened with rfl | ⟨rfl, -⟩
    · rw [List.mem_singleton.mp hc]
      rfl
    · cases hc
  · have hstep := h.isStep c hc
    by_contra hclosing
    rw [not_isStep_of_isClosing (by simpa using hclosing)] at hstep
    cases hstep

/-- A screenshot is taken before it is pointed at. -/
theorem Script.annotated (h : Script isAlphanumeric maxSteps s opening steps closing)
    {before after : List Command} {shot : Text} {callouts : List CalloutRequest}
    (hcommands : s.commands = before ++ .annotate shot callouts :: after) :
    .screenshot shot ∈ before := by
  have hsteps : s.commands.filter Command.isStep = steps := by
    have hopening : opening.filter Command.isStep = [] := by
      rcases h.opened with rfl | ⟨rfl, -⟩ <;> rfl
    have hclosing : closing.filter Command.isStep = [] := by
      rw [List.filter_eq_nil_iff]
      intro c hc
      rw [not_isStep_of_isClosing (h.isClosing c hc)]
      decide
    rw [h.commands, List.filter_append, List.filter_append, hopening, hclosing,
      List.filter_eq_self.mpr h.isStep]
    simp
  have hfitting := h.fitting
  rw [← hsteps, hcommands, List.filter_append, List.filter_cons_of_pos (by rfl)] at hfitting
  obtain ⟨c, hc, hid⟩ := List.mem_filterMap.mp hfitting.annotated
  have htaken : c = .screenshot shot := by
    cases c with
    | screenshot id => rw [Option.some.inj hid]
    | _ => cases hid
  exact htaken ▸ (List.mem_filter.mp hc).1

theorem Script.shots_le (h : Script isAlphanumeric maxSteps s opening steps closing) :
    s.screenshots.length ≤ MAX_SCREENSHOTS := by
  rw [h.screenshots]
  exact h.fitting.shots_le (Nat.zero_le _)

end Counting

section Kept

variable {isAlphanumeric} {maxSteps : ℕ} {s : FlowState}

theorem finish_scripted (h : s.Scripted isAlphanumeric maxSteps) {reason : Text}
    (hreason : reason.length ≤ 120) :
    (finish s reason).1.Scripted isAlphanumeric maxSteps := by
  obtain ⟨opening, steps, closing, h⟩ := h
  have hclosers : ∀ c ∈ closingBatch s.commands reason,
      c.isClosing = true ∧ c.Sound isAlphanumeric := by
    intro c hc
    rw [closingBatch, List.mem_append, List.mem_singleton] at hc
    rcases hc with hc | rfl
    · split_ifs at hc
      · cases hc
      · rw [List.mem_singleton.mp hc]
        exact ⟨rfl, trivial⟩
    · exact ⟨rfl, hreason⟩
  refine ⟨opening, steps, closing ++ closingBatch s.commands reason, ?_, h.opened, h.isStep, ?_,
    h.fitting, h.screenshots, ?_, ?_, ?_, h.bounded, h.reopens, ?_⟩
  · rw [← List.append_assoc, ← h.commands]
    rfl
  · intro c hc
    rcases List.mem_append.mp hc with hc | hc
    · exact h.sound c hc
    · exact (hclosers c hc).2
  · intro c hc
    rcases List.mem_append.mp hc with hc | hc
    · exact h.isClosing c hc
    · exact (hclosers c hc).1
  · simp [finish, closingBatch]
  · simp [finish]
  · have hpaid := h.paid
    have hdone := Bool.toNat_le s.done
    simp only [finish, Bool.toNat_true]
    omega

theorem reopen_scripted (h : s.Scripted isAlphanumeric maxSteps) (hdone : s.done = true)
    (hreopens : s.reopens < MAX_REOPENS) : (reopen s).Scripted isAlphanumeric maxSteps := by
  obtain ⟨opening, steps, closing, h⟩ := h
  refine ⟨opening, steps, [], ?_, h.opened, h.isStep, ?_, h.fitting, h.screenshots,
    List.forall_mem_nil _, ?_, fun _ => rfl, h.bounded, hreopens, ?_⟩
  · rw [List.append_nil]
    exact h.rdropWhile
  · intro c hc
    exact h.sound c ((List.rdropWhile_prefix _ _).subset hc)
  · simp [reopen]
  · have hpaid := h.paid
    rw [hdone, Bool.toNat_true] at hpaid
    simp only [reopen, Bool.toNat_false]
    omega

theorem not_isDone_of_isStep {c : Command} (h : c.isStep = true) : c.isDone = false := by
  cases c with
  | record | done => cases h
  | _ => rfl

/-- A batch is the steps of the answer, behind the start of the recorder and in front of its
stop where it begins or ends the flow. -/
theorem batchOf_parsed {screenshots steps} {ending : Option Text}
    {parsed : List Command × List Text}
    (h : Parsed isAlphanumeric screenshots parsed steps ending) (first : Bool) :
    (steps ≠ [] ∧ ending = none ∧ (parsed.1.any Command.isDone || parsed.1.isEmpty) = false ∧
      batchOf first false parsed.1 = (if first then [.record true] else []) ++ steps) ∨
    ∃ reason : Text, reason.length ≤ 120 ∧
      (parsed.1.any Command.isDone || parsed.1.isEmpty) = true ∧
      batchOf first true parsed.1 =
        (if first then [.record true] else []) ++ steps ++ [.record false, .done reason] := by
  have hnone : ∀ c ∈ steps, c.isDone = false := fun c hc => not_isDone_of_isStep (h.isStep c hc)
  have hany : steps.any Command.isDone = false := by
    rw [List.any_eq_false]
    intro c hc
    simp [hnone c hc]
  cases ending with
  | none =>
    have hcommands : parsed.1 = steps := by simpa using h.commands
    rw [hcommands, hany]
    by_cases hsteps : steps = []
    · right
      refine ⟨"nothing further to do".toList, by decide, by simp [hsteps], ?_⟩
      rw [hsteps]
      simp [batchOf]
    · left
      refine ⟨hsteps, rfl, by simpa using hsteps, ?_⟩
      simp [batchOf]
  | some reason =>
    right
    have hcommands : parsed.1 = steps ++ [.done reason] := h.commands
    have hsound := h.sound (.done reason) (by simp [hcommands])
    have hidx : parsed.1.findIdx? Command.isDone = some steps.length := by
      rw [hcommands, List.findIdx?_append, List.findIdx?_eq_none_iff.mpr hnone]
      simp [List.findIdx?_cons, Command.isDone]
    have htake : parsed.1.take (steps.length + 1) = steps ++ [.done reason] := by
      rw [hcommands]
      exact List.take_of_length_le (by simp)
    refine ⟨reason, hsound, by simp [hcommands, Command.isDone], ?_⟩
    rw [batchOf, if_pos rfl, hidx]
    dsimp only [Option.elim]
    rw [htake, List.dropLast_concat, List.getLast?_concat]
    simp

variable {encode : List Command → Text} {decode : Json → Option (List WireCommand)}

theorem answered_scripted (h : s.Scripted isAlphanumeric maxSteps) (hopen : s.done = false)
    (hroom : issued s.commands < maxSteps) (shown : Text) (response : ModelResponse ℚ) :
    (answered isAlphanumeric encode decode s shown response).1.Scripted isAlphanumeric maxSteps := by
  obtain ⟨opening, steps, closing, h⟩ := h
  have hclosing := h.unclosed hopen
  subst hclosing
  have hcommands : s.commands = opening ++ steps := by simpa using h.commands
  obtain ⟨more, ending, hparsed, hlength⟩ :=
    parse_spec isAlphanumeric (decode response.value) s.screenshots
  have hstart : s.commands ++ (if s.commands.isEmpty then [.record true] else []) =
      [.record true] ++ steps := by
    rcases h.opened with hopened | ⟨hopened, hsteps⟩
    · simp [hcommands, hopened]
    · simp [hcommands, hopened, hsteps]
  have hsteps : ∀ c ∈ steps ++ more, c.isStep = true :=
    List.forall_mem_append.mpr ⟨h.isStep, hparsed.isStep⟩
  have hfitting : Fitting [] (steps ++ more) := by
    refine fitting_append.mpr ⟨h.fitting, ?_⟩
    rw [List.nil_append, ← h.screenshots]
    exact hparsed.fitting
  have hshots : (parse isAlphanumeric (decode response.value) s.screenshots).2 =
      (steps ++ more).filterMap Command.shot? := by
    rw [hparsed.screenshots, h.screenshots, List.filterMap_append]
  have hsound : ∀ c ∈ [.record true] ++ steps ++ more, c.Sound isAlphanumeric := by
    intro c hc
    simp only [List.mem_append, List.mem_singleton] at hc
    rcases hc with (rfl | hc) | hc
    · trivial
    · exact h.sound c (hcommands ▸ List.mem_append_right _ hc)
    · exact hparsed.sound c (hparsed.commands ▸ List.mem_append_left _ hc)
  rw [h.issued] at hroom
  have hbounded : (steps ++ more).length ≤ maxSteps - 1 + MAX_BATCH := by
    rw [List.length_append]
    omega
  have hpaid := h.paid
  rw [hopen, Bool.toNat_false] at hpaid
  rcases batchOf_parsed hparsed s.commands.isEmpty with
    ⟨hmore, -, hdone, hbatch⟩ | ⟨reason, hreason, hdone, hbatch⟩
  · refine ⟨[.record true], steps ++ more, [], ?_, .inl rfl, hsteps, ?_, hfitting, hshots,
      List.forall_mem_nil _, ?_, fun _ => rfl, hbounded, h.reopens, ?_⟩
    all_goals simp only [answered, hdone, hbatch]
    · rw [← List.append_assoc, hstart]
      simp
    · rw [← List.append_assoc, hstart]
      exact hsound
    · simp [hopen]
    · have hgrows := List.length_pos_iff.mpr hmore
      simp only [List.length_append, List.length_singleton, hopen, Bool.or_false, Bool.toNat_false]
      omega
  · refine ⟨[.record true], steps ++ more, [.record false, .done reason], ?_, .inl rfl, hsteps, ?_,
      hfitting, hshots, ?_, ?_, ?_, hbounded, h.reopens, ?_⟩
    · simp only [answered, hdone, hbatch]
      rw [← List.append_assoc, ← List.append_assoc, hstart]
      simp
    · simp only [answered, hdone, hbatch]
      rw [← List.append_assoc, ← List.append_assoc, hstart]
      intro c hc
      rcases List.mem_append.mp hc with hc | hc
      · exact hsound c hc
      · simp only [List.mem_cons, List.not_mem_nil, or_false] at hc
        rcases hc with rfl | rfl
        · trivial
        · exact hreason
    · simp [Command.isClosing]
    · simp [answered, hdone]
    · simp [answered, hdone]
    · simp only [answered, hdone, List.length_append, List.length_singleton, Bool.or_true,
        Bool.toNat_true]
      omega

/-- What a turn makes of a state: it is closed without a call, or a call is answered in a flow
that is open and below its ceiling. -/
theorem next_cases {SYSTEM : Text} {schema : Json} {ε : Type} {ctx : StepContext}
    {observation : Observation} {complete : ModelRequest → Except ε (ModelResponse ℚ)}
    {result : FlowState × StepReply}
    (h : next isAlphanumeric SYSTEM schema encode decode ctx s observation complete = .ok result) :
    (s.done = true ∧ result = finish s "already done".toList) ∨
      ∃ base, (base = s ∧ s.done = false ∨
          base = reopen s ∧ s.done = true ∧ s.reopens < MAX_REOPENS) ∧
        (result = finish base "step ceiling reached".toList ∨
          issued base.commands < ctx.maxSteps ∧ ∃ shown response,
            complete (request SYSTEM schema ctx base shown) = .ok response ∧
              result = answered isAlphanumeric encode decode base shown response) := by
  unfold next at h
  dsimp only at h
  split at h
  · rename_i hclosed
    rw [Bool.and_eq_true] at hclosed
    exact .inl ⟨hclosed.1, (Except.ok.inj h).symm⟩
  · rename_i hgoes
    refine .inr ⟨if s.done then reopen s else s, ?_, ?_⟩
    · split
      · rename_i hdone
        simp only [hdone, Bool.true_and, Bool.not_eq_true', Bool.not_eq_false, Bool.and_eq_true,
          decide_eq_true_eq] at hgoes
        exact .inr ⟨rfl, hdone, hgoes.2⟩
      · rename_i hopen
        exact .inl ⟨rfl, by simpa using hopen⟩
    · generalize (if s.done then reopen s else s) = base at h ⊢
      split at h
      · exact .inl (Except.ok.inj h).symm
      · rename_i hroom
        simp only [Bool.or_eq_true, decide_eq_true_eq, not_or, not_le] at hroom
        cases hanswer : complete (request SYSTEM schema ctx base
            (renderObservation isAlphanumeric observation)) with
        | error err =>
          rw [hanswer] at h
          cases h
        | ok response =>
          rw [hanswer] at h
          exact .inr ⟨hroom.1, _, response, hanswer, (Except.ok.inj h).symm⟩

theorem next_scripted {SYSTEM : Text} {schema : Json} {ε : Type} {ctx : StepContext}
    {observation : Observation} {complete : ModelRequest → Except ε (ModelResponse ℚ)}
    {result : FlowState × StepReply} (hs : s.Scripted isAlphanumeric ctx.maxSteps)
    (h : next isAlphanumeric SYSTEM schema encode decode ctx s observation complete = .ok result) :
    result.1.Scripted isAlphanumeric ctx.maxSteps := by
  rcases next_cases h with ⟨-, rfl⟩ | ⟨base, hbase, hresult⟩
  · exact finish_scripted hs (by decide)
  · have hopen : base.done = false ∧ base.Scripted isAlphanumeric ctx.maxSteps := by
      rcases hbase with ⟨rfl, hdone⟩ | ⟨rfl, hdone, hreopens⟩
      · exact ⟨hdone, hs⟩
      · exact ⟨rfl, reopen_scripted hs hdone hreopens⟩
    rcases hresult with rfl | ⟨hroom, shown, response, -, rfl⟩
    · exact finish_scripted hopen.2 (by decide)
    · exact answered_scripted hopen.2 hopen.1 hroom shown response

end Kept

end TinySweeper.Preview
