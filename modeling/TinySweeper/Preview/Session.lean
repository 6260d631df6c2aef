import TinySweeper.Keyed
import TinySweeper.Preview.Script
import TinySweeper.Runs

/-!
# A session of flows

A session is loaded, one call is answered and the session is written back, under a lock.
Its flows are driven in any order, by any number of calls; what a call that fails did is
not written back. Over any such run every script stays well formed, and the session asks
the model a bounded number of times and stops asking when its budget is spent.
-/

namespace TinySweeper.Preview

open Text Harness Runs

/-- A flow that was driven, under its id. -/
structure Driven where
  flow : Text
  state : FlowState

/-- A session, as far as a step reads it. -/
structure Session where
  flows : List Flow
  states : Keyed Driven.flow
  diffExcerpt : Text
  spentUsd : ℚ
  maxSteps : ℕ

structure PreviewStepReply where
  commands : List Command
  done : Bool
  replay : Option (List Command)

inductive StepError (ε : Type) where
  | config (message : Text)
  | model (err : ε)

def Session.flow (s : Session) (id : Text) : Option Flow := s.flows.find? fun flow => flow.id = id

def Session.exhausted (s : Session) (budget : ℚ) : Bool := decide (budget < s.spentUsd)

def Session.state (s : Session) (flowId : Text) : FlowState :=
  ((s.states.get? flowId).map Driven.state).getD .initial

/-- A call for one turn of a flow, with the model as it answers in this call. -/
structure StepCall (ε : Type) where
  flowId : Text
  observation : Observation
  complete : ModelRequest → Except ε (ModelResponse ℚ)

/-- What the answers of a server depend on besides the session. -/
structure Brain where
  isAlphanumeric : Char → Bool
  SYSTEM : Text
  schema : Json
  encode : List Command → Text
  decode : Json → Option (List WireCommand)
  budget : ℚ
  model : Text
  maxTokens : UInt32

namespace Brain

variable (brain : Brain) {ε : Type}

/-- The turn of a flow that is driven on the head build. -/
def drive (s : Session) (flow : Flow) (call : StepCall ε) : Except ε (FlowState × StepReply) :=
  if s.exhausted brain.budget then
    .ok (finish (s.state call.flowId) "session budget spent".toList)
  else
    next brain.isAlphanumeric brain.SYSTEM brain.schema brain.encode brain.decode
      ⟨flow, s.diffExcerpt, s.maxSteps, brain.model, brain.maxTokens⟩ (s.state call.flowId)
      call.observation call.complete

/-- The reply to a call, and the session as it is written back. -/
def step (s : Session) (call : StepCall ε) : Except (StepError ε) (Session × PreviewStepReply) :=
  match s.flow call.flowId with
  | none => .error (.config ("no flow \x60".toList ++ call.flowId ++ "\x60 in this session".toList))
  | some flow =>
    if call.observation.side = .before then
      .ok (s, ⟨[], true, some (s.state call.flowId).commands⟩)
    else
      match brain.drive s flow call with
      | .error err => .error (.model err)
      | .ok (state, reply) =>
        .ok ({ s with
                spentUsd := s.spentUsd + reply.spend
                states := s.states.put ⟨call.flowId, state⟩ },
          ⟨reply.commands, reply.done, if reply.done then some state.commands else none⟩)

/-- The session behind a call; one that fails leaves it as it was. -/
def serve (s : Session) (call : StepCall ε) : Session :=
  match brain.step s call with
  | .error _ => s
  | .ok (served, _) => served

end Brain

/-- A session at its start: nothing is driven yet, and planning cost something. -/
def Session.opened (flows : List Flow) (diffExcerpt : Text) (planned : ℚ) (maxSteps : ℕ) : Session :=
  ⟨flows, ∅, diffExcerpt, planned, maxSteps⟩

/-- The calls of a session that the model answered. -/
def Session.answers (s : Session) : ℕ :=
  (s.states.values.map fun d => d.state.turns.length).sum

theorem sum_find_add_filter {α κ : Type*} [DecidableEq κ] {key : α → κ} (f : α → ℕ) (k : κ)
    {values : List α} (h : (values.map key).Nodup) :
    ((values.find? fun a => key a = k).map f).getD 0 +
      ((values.filter fun a => key a ≠ k).map f).sum = (values.map f).sum := by
  induction values with
  | nil => rfl
  | cons a values ih =>
    rw [List.map_cons, List.nodup_cons] at h
    by_cases ha : key a = k
    · have hrest : values.filter (fun b => key b ≠ k) = values := by
        apply List.filter_eq_self.mpr
        intro b hb
        have hne : key b ≠ k := fun hkey => h.1 (List.mem_map.mpr ⟨b, hb, hkey.trans ha.symm⟩)
        simpa using hne
      rw [List.find?_cons_of_pos (by simpa using ha), List.filter_cons_of_neg (by simpa using ha),
        hrest]
      simp
    · rw [List.find?_cons_of_neg (by simpa using ha), List.filter_cons_of_pos (by simpa using ha),
        List.map_cons, List.map_cons, List.sum_cons, List.sum_cons, ← ih h.2]
      omega

/-- A value put under a key replaces what its old value amounted to. -/
theorem sum_put {α κ : Type*} [DecidableEq κ] {key : α → κ} (f : α → ℕ) (t : Keyed key) (a : α) :
    ((t.get? (key a)).map f).getD 0 + ((t.put a).values.map f).sum =
      (t.values.map f).sum + f a := by
  have hsum := sum_find_add_filter f (key a) t.nodup
  have hput : (t.put a).values = a :: t.values.filter fun b => key b ≠ key a := rfl
  rw [hput, List.map_cons, List.sum_cons, ← hsum, Keyed.get?]
  omega

section Kept

variable {brain : Brain} {s : Session} {ε : Type}

variable (brain) in
/-- Every flow that is driven was planned, and has a script. -/
structure Session.Sound (s : Session) : Prop where
  scripted : ∀ d ∈ s.states, d.state.Scripted brain.isAlphanumeric s.maxSteps
  planned : ∀ d ∈ s.states, ∃ flow ∈ s.flows, flow.id = d.flow

theorem Session.Sound.state (h : s.Sound brain) (flowId : Text) :
    (s.state flowId).Scripted brain.isAlphanumeric s.maxSteps := by
  unfold Session.state
  cases hget : s.states.get? flowId with
  | none => exact initial_scripted brain.isAlphanumeric s.maxSteps
  | some d => exact h.scripted d (Keyed.mem_of_get? hget).1

theorem finish_turns (state : FlowState) (reason : Text) :
    (finish state reason).1.turns = state.turns := rfl

theorem Brain.drive_spec {flow : Flow} {call : StepCall ε} {result : FlowState × StepReply}
    (h : s.Sound brain) (hdrive : brain.drive s flow call = .ok result) :
    result.1.Scripted brain.isAlphanumeric s.maxSteps ∧
      (result.2.spend = 0 ∧ result.1.turns.length = (s.state call.flowId).turns.length ∨
        s.spentUsd ≤ brain.budget ∧
          result.1.turns.length = (s.state call.flowId).turns.length + 1 ∧
          ∃ request response, call.complete request = .ok response ∧
            result.2.spend = response.usage) := by
  have hstate := h.state call.flowId
  unfold Brain.drive at hdrive
  split_ifs at hdrive with hexhausted
  · rw [← Except.ok.inj hdrive]
    exact ⟨finish_scripted hstate (by decide), .inl ⟨rfl, rfl⟩⟩
  · refine ⟨next_scripted hstate hdrive, ?_⟩
    have hbudget : s.spentUsd ≤ brain.budget := by simpa [Session.exhausted] using hexhausted
    rcases next_cases hdrive with ⟨-, rfl⟩ | ⟨base, hbase, hresult⟩
    · exact .inl ⟨rfl, rfl⟩
    · have hturns : base.turns = (s.state call.flowId).turns := by
        rcases hbase with ⟨rfl, -⟩ | ⟨rfl, -, -⟩ <;> rfl
      rcases hresult with rfl | ⟨-, shown, response, hanswer, rfl⟩
      · exact .inl ⟨rfl, by rw [finish_turns, hturns]⟩
      · refine .inr ⟨hbudget, ?_, _, response, hanswer, rfl⟩
        simp [answered, hturns]

/-- What a call makes of a session: nothing, or one turn of a planned flow. -/
theorem Brain.serve_cases (s : Session) (call : StepCall ε) :
    brain.serve s call = s ∨
      ∃ flow result, s.flow call.flowId = some flow ∧ brain.drive s flow call = .ok result ∧
        brain.serve s call =
          { s with
            spentUsd := s.spentUsd + result.2.spend
            states := s.states.put ⟨call.flowId, result.1⟩ } := by
  unfold Brain.serve Brain.step
  cases hflow : s.flow call.flowId with
  | none => exact .inl rfl
  | some flow =>
    dsimp only
    split_ifs
    · exact .inl rfl
    · cases hdrive : brain.drive s flow call with
      | error err => exact .inl rfl
      | ok result => exact .inr ⟨flow, result, rfl, hdrive, rfl⟩

theorem Session.Sound.serve (h : s.Sound brain) (call : StepCall ε) :
    (brain.serve s call).Sound brain := by
  rcases brain.serve_cases s call with heq | ⟨flow, result, hflow, hdrive, heq⟩ <;> rw [heq]
  · exact h
  · constructor
    · intro d hd
      rcases Keyed.mem_put.mp hd with rfl | ⟨hd, -⟩
      · exact (Brain.drive_spec h hdrive).1
      · exact h.scripted d hd
    · intro d hd
      rcases Keyed.mem_put.mp hd with rfl | ⟨hd, -⟩
      · exact ⟨flow, List.mem_of_find?_eq_some hflow, by simpa using List.find?_some hflow⟩
      · exact h.planned d hd

/-- The answers of a session after a call, and what the call cost. -/
theorem Brain.serve_answers (h : s.Sound brain) (call : StepCall ε) :
    (brain.serve s call).spentUsd = s.spentUsd ∧ (brain.serve s call).answers = s.answers ∨
      s.spentUsd ≤ brain.budget ∧ (brain.serve s call).answers = s.answers + 1 ∧
        ∃ request response, call.complete request = .ok response ∧
          (brain.serve s call).spentUsd = s.spentUsd + response.usage := by
  rcases brain.serve_cases s call with heq | ⟨flow, result, -, hdrive, heq⟩ <;> rw [heq]
  · exact .inl ⟨rfl, rfl⟩
  · have hold : ((s.states.get? call.flowId).map fun d => d.state.turns.length).getD 0 =
        (s.state call.flowId).turns.length := by
      unfold Session.state
      cases s.states.get? call.flowId <;> rfl
    have hput := sum_put (fun d : Driven => d.state.turns.length) s.states ⟨call.flowId, result.1⟩
    dsimp only at hput
    rw [hold] at hput
    rcases (Brain.drive_spec h hdrive).2 with ⟨hspend, hturns⟩ |
      ⟨hbudget, hturns, request, response, hanswer, hspend⟩
    · left
      rw [hspend, add_zero]
      refine ⟨rfl, ?_⟩
      simp only [Session.answers]
      omega
    · refine .inr ⟨hbudget, ?_, request, response, hanswer, by rw [hspend]⟩
      simp only [Session.answers]
      omega

end Kept

section Runs

variable (brain : Brain) {ε : Type} (flows : List Flow) (diffExcerpt : Text) (planned : ℚ)
  (maxSteps : ℕ) (calls : List (StepCall ε))

/-- The session after some calls. -/
def Brain.run : Session := exec brain.serve (.opened flows diffExcerpt planned maxSteps) calls

theorem Brain.run_sound : (brain.run flows diffExcerpt planned maxSteps calls).Sound brain :=
  exec_invariant (I := Session.Sound brain) (fun _ call hs => hs.serve call)
    ⟨fun d hd => absurd hd (Keyed.notMem_empty d), fun d hd => absurd hd (Keyed.notMem_empty d)⟩
    calls

theorem Brain.run_flows :
    (brain.run flows diffExcerpt planned maxSteps calls).flows = flows ∧
      (brain.run flows diffExcerpt planned maxSteps calls).maxSteps = maxSteps := by
  refine exec_invariant (I := fun t : Session => t.flows = flows ∧ t.maxSteps = maxSteps) ?_
    ⟨rfl, rfl⟩ calls
  rintro t call ⟨hflows, hsteps⟩
  rcases brain.serve_cases t call with heq | ⟨flow, result, -, -, heq⟩ <;> rw [heq]
  · exact ⟨hflows, hsteps⟩
  · exact ⟨hflows, hsteps⟩

/-- Whatever calls a session answers, in whatever order, the script of each flow is one the
hands can follow: it starts the recorder, goes through sound steps, points only at screenshots
that it took, and is closed exactly when its flow is over. -/
theorem session_scripts {d : Driven}
    (hd : d ∈ (brain.run flows diffExcerpt planned maxSteps calls).states) :
    (∃ flow ∈ flows, flow.id = d.flow) ∧
      (∃ opening steps closing,
        Script brain.isAlphanumeric maxSteps d.state opening steps closing) ∧
      d.state.screenshots.length ≤ MAX_SCREENSHOTS ∧
      ∀ before after shot callouts, d.state.commands = before ++ .annotate shot callouts :: after →
        .screenshot shot ∈ before := by
  have hsound := brain.run_sound flows diffExcerpt planned maxSteps calls
  obtain ⟨hflows, hsteps⟩ := brain.run_flows flows diffExcerpt planned maxSteps calls
  obtain ⟨opening, steps, closing, hscript⟩ := hsound.scripted d hd
  rw [hsteps] at hscript
  refine ⟨hflows ▸ hsound.planned d hd, ⟨opening, steps, closing, hscript⟩, hscript.shots_le, ?_⟩
  intro before after shot callouts hcommands
  exact hscript.annotated hcommands

theorem Script.turns_le {isAlphanumeric : Char → Bool} {s : FlowState}
    {opening steps closing : List Command}
    (h : Script isAlphanumeric maxSteps s opening steps closing) :
    s.turns.length ≤ maxSteps + MAX_REOPENS + 1 := by
  have hpaid := h.paid
  have hreopens := h.reopens
  have hdone := Bool.toNat_le s.done
  omega

variable {flows maxSteps} in
theorem Session.Sound.answers_le {s : Session} (h : s.Sound brain) (hflows : s.flows = flows)
    (hsteps : s.maxSteps = maxSteps) :
    s.answers ≤ flows.length * (maxSteps + MAX_REOPENS + 1) := by
  have hcount : s.states.values.length ≤ flows.length := by
    have hsub : s.states.values.map Driven.flow ⊆ flows.map Flow.id := by
      intro id hid
      obtain ⟨d, hd, rfl⟩ := List.mem_map.mp hid
      obtain ⟨flow, hflow, heq⟩ := h.planned d hd
      exact List.mem_map.mpr ⟨flow, hflows ▸ hflow, heq⟩
    have hle := (s.states.nodup.subperm hsub).length_le
    simpa using hle
  have hturns : ∀ n ∈ s.states.values.map fun d => d.state.turns.length,
      n ≤ maxSteps + MAX_REOPENS + 1 := by
    intro n hn
    obtain ⟨d, hd, rfl⟩ := List.mem_map.mp hn
    obtain ⟨opening, steps, closing, hscript⟩ := h.scripted d hd
    exact (hsteps ▸ hscript).turns_le
  have hsum := List.sum_le_card_nsmul _ _ hturns
  rw [List.length_map, smul_eq_mul] at hsum
  exact hsum.trans (Nat.mul_le_mul_right _ hcount)

/-- What a session spent, by what its answers cost at most. -/
structure Session.Within (K : ℚ) (s : Session) : Prop where
  sound : s.Sound brain
  answered : s.spentUsd ≤ planned + s.answers * K
  stopped : s.spentUsd ≤ max planned (brain.budget + K)

/-- However often the hands ask, and whatever they report: the answers that a session records for
its steps number in all no more than its flows and its ceiling on steps allow, and they cost at
most one answer more than its budget. -/
theorem session_spend_bounded {K : ℚ}
    (hcost : ∀ call ∈ calls, ∀ request response, call.complete request = .ok response →
      response.usage ≤ K) :
    (brain.run flows diffExcerpt planned maxSteps calls).answers ≤
        flows.length * (maxSteps + MAX_REOPENS + 1) ∧
      (brain.run flows diffExcerpt planned maxSteps calls).spentUsd ≤
        planned + (brain.run flows diffExcerpt planned maxSteps calls).answers * K ∧
      (brain.run flows diffExcerpt planned maxSteps calls).spentUsd ≤
        max planned (brain.budget + K) := by
  have hwithin : (brain.run flows diffExcerpt planned maxSteps calls).Within brain planned K := by
    have hguarded : Guarded brain.serve _ (Session.opened flows diffExcerpt planned maxSteps) calls :=
      guarded_of_forall _ hcost
    refine hguarded.invariant ?_ ?_
    · intro s call hs hcheap
      have hanswered := hs.answered
      rcases Brain.serve_answers hs.sound call with ⟨hspent, hanswers⟩ |
        ⟨hbudget, hanswers, request, response, hanswer, hspent⟩
      · refine ⟨hs.sound.serve call, ?_, ?_⟩ <;> rw [hspent]
        · rw [hanswers]
          exact hanswered
        · exact hs.stopped
      · have husage := hcheap request response hanswer
        refine ⟨hs.sound.serve call, ?_, ?_⟩ <;> rw [hspent]
        · rw [hanswers]
          push_cast
          linarith
        · exact le_max_of_le_right (by linarith)
    · have hnone : (Session.opened flows diffExcerpt planned maxSteps).answers = 0 := rfl
      refine ⟨brain.run_sound flows diffExcerpt planned maxSteps ([] : List (StepCall ε)), ?_,
        le_max_left _ _⟩
      rw [hnone]
      simp [Session.opened]
  obtain ⟨hflows, hsteps⟩ := brain.run_flows flows diffExcerpt planned maxSteps calls
  exact ⟨hwithin.sound.answers_le brain hflows hsteps, hwithin.answered, hwithin.stopped⟩

end Runs

def wire (op : String) : WireCommand :=
  ⟨op, none, none, none, none, none, none, none, none, none⟩

/-- A model that takes a screenshot, points at it and is done. -/
def sampleBrain : Brain where
  isAlphanumeric := Char.isAlphanum
  SYSTEM := []
  schema := .null
  encode := fun _ => []
  decode := fun _ => some [{ wire "screenshot" with id := some "s1".toList },
    { wire "annotate" with
      shot := some "s1".toList
      callouts := some [⟨some ⟨"text", none, none, some "Save".toList, none, none⟩, "New".toList⟩] },
    wire "done"]
  budget := 1
  model := []
  maxTokens := 800

def sampleFlows : List Flow := [⟨"f1".toList, "Save".toList, "/".toList, "Saved".toList, .same⟩]

def sampleCall (results : List StepResult) : StepCall Empty where
  flowId := "f1".toList
  observation := ⟨.after, [], [], results, 0⟩
  complete := fun _ => .ok ⟨.null, [], 1 / 100⟩

/-- The batch that was to end the flow failed, and the flow goes on. -/
def sampleCalls : List (StepCall Empty) := [sampleCall [], sampleCall [⟨1, false, none⟩]]

theorem session_scripts_sample :
    ∃ d ∈ (sampleBrain.run sampleFlows [] 0 25 sampleCalls).states,
      (∃ flow ∈ sampleFlows, flow.id = d.flow) ∧
        (∃ opening steps closing, Script Char.isAlphanum 25 d.state opening steps closing) ∧
        d.state.screenshots.length ≤ MAX_SCREENSHOTS ∧
        ∀ before after shot callouts,
          d.state.commands = before ++ .annotate shot callouts :: after →
            .screenshot shot ∈ before := by
  have hdriven : 0 < (sampleBrain.run sampleFlows [] 0 25 sampleCalls).states.values.length := by
    decide +kernel
  obtain ⟨d, hd⟩ := List.exists_mem_of_length_pos hdriven
  exact ⟨d, hd, session_scripts sampleBrain sampleFlows [] 0 25 sampleCalls hd⟩

theorem session_spend_bounded_sample :
    (sampleBrain.run sampleFlows [] 0 25 sampleCalls).answers ≤
        sampleFlows.length * (25 + MAX_REOPENS + 1) ∧
      (sampleBrain.run sampleFlows [] 0 25 sampleCalls).spentUsd ≤
        0 + (sampleBrain.run sampleFlows [] 0 25 sampleCalls).answers * (1 / 100) ∧
      (sampleBrain.run sampleFlows [] 0 25 sampleCalls).spentUsd ≤
        max 0 (sampleBrain.budget + 1 / 100) := by
  apply session_spend_bounded sampleBrain sampleFlows [] 0 25 sampleCalls
  intro call hcall request response hanswer
  have hcomplete : call.complete = fun _ => .ok ⟨.null, [], 1 / 100⟩ := by
    rcases List.mem_cons.mp hcall with rfl | hcall
    · rfl
    · rw [List.mem_singleton.mp hcall]
      rfl
  rw [hcomplete] at hanswer
  rw [← Except.ok.inj hanswer]

end TinySweeper.Preview
