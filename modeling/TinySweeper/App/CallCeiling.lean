import TinySweeper.App.ReviewExecution

/-!
# The call ceiling holds

Whatever the order of the tasks, reservations are those of the permits still out,
every approved attempt is paid for, and nothing is approved past the deadline.
-/

namespace TinySweeper.App

open Runs

/-- A permit that still keeps its reservation. -/
def ReviewDispatchPermit.outstanding (p : ReviewDispatchPermit) : Bool :=
  p.held && p.state ≠ .committed

/-- The calls a permit has to have been charged for. -/
def ReviewDispatchPermit.charge (p : ReviewDispatchPermit) : ℕ :=
  if p.state = .committed then max 1 p.physicalAttempts else p.physicalAttempts

namespace ReviewExecution

/-- No call may start any more. -/
def Stopped (s : ReviewExecution) : Prop := s.cancelled = true ∨ s.softDeadline ≤ s.now

/-- The action starts a call: it reserves, dispatches or sends one. -/
def Approves (s : ReviewExecution) (action : CallAction) : Prop :=
  (s.perform action).2 = .ok ∧
    match action with
    | .acquire | .markDispatched .. | .markPhysicalAttempt _ => True
    | _ => False

/-- One if the action is a physical attempt that is approved. -/
def approvedAttempts (s : ReviewExecution) : CallAction → ℕ
  | .markPhysicalAttempt id =>
    if (s.perform (.markPhysicalAttempt id)).2 = .ok then 1 else 0
  | _ => 0

/-- The calls a scope has to have been charged for. -/
def charges (s : ReviewExecution) : ℕ := (s.permits.map ReviewDispatchPermit.charge).sum

/-- The attempts the permits of a scope have counted. -/
def attempts (s : ReviewExecution) : ℕ :=
  (s.permits.map ReviewDispatchPermit.physicalAttempts).sum

structure Accounted (s : ReviewExecution) : Prop where
  reserved : s.reservedCalls = s.permits.countP ReviewDispatchPermit.outstanding
  charged : s.charges ≤ s.committedCalls

/-- The limits of `s'` are no wider than those of `s`. -/
structure Tightened (s s' : ReviewExecution) : Prop where
  softDeadline : s'.softDeadline = s.softDeadline
  now : s.now ≤ s'.now
  cancelled : s.cancelled = true → s'.cancelled = true
  maxCalls : ∀ limit ∈ s.maxCalls, ∃ limit' ∈ s'.maxCalls, limit' ≤ limit

/-- What an action does to the counters and the permits. -/
inductive Effect (s s' : ReviewExecution) : Prop
  | idle (hcommitted : s'.committedCalls = s.committedCalls)
    (hreserved : s'.reservedCalls = s.reservedCalls) (hpermits : s'.permits = s.permits)
  | grant (hcommitted : s'.committedCalls = s.committedCalls)
    (hreserved : s'.reservedCalls = s.reservedCalls + 1)
    (hpermits : s'.permits = s.permits ++ [⟨.reserved, 0, true⟩])
  | update (before after : List ReviewDispatchPermit) (p q : ReviewDispatchPermit)
    (hpermits : s.permits = before ++ p :: after) (hpermits' : s'.permits = before ++ q :: after)
    (hreserved : s'.reservedCalls = s.reservedCalls + q.outstanding.toNat - p.outstanding.toNat)
    (hattempts : p.physicalAttempts ≤ q.physicalAttempts)
    (hcharge : s.committedCalls + q.charge ≤ s'.committedCalls + p.charge)
    (hceiling : s'.committedCalls = s.committedCalls ∨
      s'.committedCalls = s.committedCalls + 1 ∧ s.atLimit s.committedCalls = false)

variable {s s' : ReviewExecution}

theorem atLimit_mono {m n : ℕ} (hmn : m ≤ n) (h : s.atLimit n = false) : s.atLimit m = false := by
  unfold atLimit at h ⊢
  cases hmax : s.maxCalls with
  | none => rfl
  | some limit =>
    rw [hmax] at h
    simp only [Option.any_some, decide_eq_false_iff_not] at h ⊢
    omega

/-- The permit under a number, and what replacing it does to the list. -/
theorem exists_set {permits : List ReviewDispatchPermit} {id : ℕ} {p : ReviewDispatchPermit}
    (h : permits[id]? = some p) :
    ∃ before after, permits = before ++ p :: after ∧
      ∀ q, permits.set id q = before ++ q :: after := by
  induction permits generalizing id with
  | nil => cases h
  | cons first permits ih =>
    cases id with
    | zero =>
      cases h
      exact ⟨[], permits, rfl, fun _ => rfl⟩
    | succ id =>
      obtain ⟨before, after, rfl, hset⟩ := ih h
      refine ⟨first :: before, after, rfl, ?_⟩
      intro q
      rw [List.set_cons_succ, hset]
      rfl

theorem effect_refl (s : ReviewExecution) : Effect s s := .idle rfl rfl rfl

theorem acquire_effect (s : ReviewExecution) : Effect s s.acquire.1 := by
  unfold acquire
  cases s.refusalForNewWork with
  | some reason => exact effect_refl s
  | none =>
    dsimp only
    split_ifs
    · exact effect_refl s
    · exact .grant rfl rfl rfl

section Permit

variable {id : ℕ} {p : ReviewDispatchPermit}

/-- A refused permit keeps its reservation until it is dropped. -/
theorem refuse_effect (hp : s.permits[id]? = some p) (hstate : p.state ≠ .committed)
    {state : PermitState} (hrefused : state ≠ .committed) :
    Effect s (s.store id { p with state := state }) := by
  obtain ⟨before, after, hpermits, hset⟩ := exists_set hp
  refine .update before after p _ hpermits (hset _) ?_ ?_ ?_ (.inl rfl)
  · simp [store, ReviewDispatchPermit.outstanding, hstate, hrefused]
  · simp
  · simp [store, ReviewDispatchPermit.charge, hstate, hrefused]

theorem markDispatched_effect (hp : s.permits[id]? = some p) (hheld : p.held = true)
    (seen : PermitState) : Effect s (s.markDispatched id p seen).1 := by
  unfold markDispatched
  cases seen.dispatchRefusal with
  | some reason => exact effect_refl s
  | none =>
    dsimp only
    cases hrefusal : p.state.dispatchRefusal with
    | some reason => exact effect_refl s
    | none =>
      dsimp only
      split_ifs with hcancelled hcommitted hdeadline hcommitted hcommitted hlimit
      · exact refuse_effect hp hcommitted (by decide)
      · exact effect_refl s
      · exact refuse_effect hp hcommitted (by decide)
      · exact effect_refl s
      · exact effect_refl s
      · exact refuse_effect hp hcommitted (by decide)
      · obtain ⟨before, after, hpermits, hset⟩ := exists_set hp
        refine .update before after p _ hpermits (hset _) ?_ ?_ ?_ (.inr ⟨rfl, by simpa using hlimit⟩)
        · simp [store, notify, ReviewDispatchPermit.outstanding, hcommitted, hheld]
        · simp
        · simp only [store, notify, ReviewDispatchPermit.charge, hcommitted, if_true, if_false]
          omega

theorem markPhysicalAttempt_effect (hp : s.permits[id]? = some p) :
    Effect s (s.markPhysicalAttempt id p).1 := by
  have hcommitted : p.state.attemptRefusal = none → p.state = .committed := by
    cases p.state <;> simp [PermitState.attemptRefusal]
  unfold markPhysicalAttempt
  cases hrefusal : p.state.attemptRefusal with
  | some reason => exact effect_refl s
  | none =>
    have hstate := hcommitted hrefusal
    obtain ⟨before, after, hpermits, hset⟩ := exists_set hp
    dsimp only
    split_ifs with hcancelled hdeadline hfirst hlimit
    · exact effect_refl s
    · exact effect_refl s
    · refine .update before after p _ hpermits (hset _) ?_ ?_ ?_ (.inl rfl)
      · simp [store, ReviewDispatchPermit.outstanding, hstate]
      · simp [hfirst]
      · simp [store, ReviewDispatchPermit.charge, hstate]
    · exact effect_refl s
    · have hroom : s.atLimit s.committedCalls = false :=
        atLimit_mono (Nat.le_add_right _ _) (by simpa using hlimit)
      refine .update before after p _ hpermits (hset _) ?_ ?_ ?_ (.inr ⟨rfl, hroom⟩)
      · simp [store, notify, ReviewDispatchPermit.outstanding, hstate]
      · simp
      · simp only [store, notify, ReviewDispatchPermit.charge, hstate, if_true]
        omega

theorem dropPermit_effect (hp : s.permits[id]? = some p) (hheld : p.held = true) :
    Effect s (s.dropPermit id p) := by
  obtain ⟨before, after, hpermits, hset⟩ := exists_set hp
  unfold dropPermit
  split_ifs with hcommitted
  · refine .update before after p _ hpermits (hset _) ?_ ?_ ?_ (.inl rfl)
    · simp [store, notify, ReviewDispatchPermit.outstanding, hcommitted, hheld]
    · simp
    · simp [store, notify, ReviewDispatchPermit.charge, hcommitted]
  · refine .update before after p _ hpermits (hset _) ?_ ?_ ?_ (.inl rfl)
    · simp [store, ReviewDispatchPermit.outstanding, hcommitted]
    · simp
    · simp [store, ReviewDispatchPermit.charge]

theorem attempts_store (hp : s.permits[id]? = some p) (q : ReviewDispatchPermit) :
    (s.store id q).attempts + p.physicalAttempts = s.attempts + q.physicalAttempts := by
  obtain ⟨before, after, hpermits, hset⟩ := exists_set hp
  unfold attempts store
  rw [hset, hpermits]
  simp only [List.map_append, List.map_cons, List.sum_append, List.sum_cons]
  omega

/-- An attempt that is approved is counted. -/
theorem markPhysicalAttempt_ok (hp : s.permits[id]? = some p)
    (hok : (s.markPhysicalAttempt id p).2 = .ok) :
    s.attempts + 1 = (s.markPhysicalAttempt id p).1.attempts := by
  unfold markPhysicalAttempt at hok ⊢
  cases hrefusal : p.state.attemptRefusal with
  | some reason =>
    rw [hrefusal] at hok
    cases hok
  | none =>
    rw [hrefusal] at hok
    dsimp only at hok ⊢
    split_ifs at hok ⊢ with hcancelled hdeadline hfirst hlimit
    · have hstore := attempts_store hp { p with physicalAttempts := 1 }
      dsimp only at hstore ⊢
      omega
    · have hstore := attempts_store hp { p with physicalAttempts := p.physicalAttempts + 1 }
      dsimp only [attempts, store, notify] at hstore ⊢
      omega

end Permit

theorem withPermit_cases (s : ReviewExecution) (id : ℕ)
    (f : ReviewDispatchPermit → ReviewExecution × Answer) :
    s.withPermit id f = (s, .waiting) ∨
      ∃ p, s.permits[id]? = some p ∧ p.held = true ∧ s.withPermit id f = f p := by
  unfold withPermit
  cases hp : s.permits[id]? with
  | none => exact .inl rfl
  | some p =>
    by_cases hheld : p.held = true
    · exact .inr ⟨p, rfl, hheld, if_pos hheld⟩
    · exact .inl (if_neg hheld)

/-- What any action does. -/
theorem step_effect (s : ReviewExecution) (action : CallAction) : Effect s (s.step action) := by
  have hpermit : ∀ id f, (∀ p, s.permits[id]? = some p → p.held = true → Effect s (f p).1) →
      Effect s (s.withPermit id f).1 := by
    intro id f hf
    rcases withPermit_cases s id f with hnone | ⟨p, hp, hheld, hsome⟩
    · rw [hnone]
      exact effect_refl s
    · rw [hsome]
      exact hf p hp hheld
  cases action with
  | acquire => exact acquire_effect s
  | markDispatched id seen =>
    apply hpermit
    intro p hp hheld
    exact markDispatched_effect hp hheld seen
  | markPhysicalAttempt id =>
    apply hpermit
    intro p hp _
    exact markPhysicalAttempt_effect hp
  | drop id =>
    apply hpermit
    intro p hp hheld
    exact dropPermit_effect hp hheld
  | restrictToLarge maxCalls =>
    unfold step perform restrictToLarge
    dsimp only
    split_ifs <;> exact .idle rfl rfl rfl
  | cancel =>
    unfold step perform cancel
    dsimp only
    split_ifs
    · exact effect_refl s
    · exact .idle rfl rfl rfl
  | advance elapsed => exact .idle rfl rfl rfl

theorem Tightened.refl (s : ReviewExecution) : Tightened s s :=
  ⟨rfl, le_rfl, id, fun limit h => ⟨limit, h, le_rfl⟩⟩

theorem Tightened.trans {s'' : ReviewExecution} (h : Tightened s s') (h' : Tightened s' s'') :
    Tightened s s'' := by
  constructor
  · rw [h'.softDeadline, h.softDeadline]
  · exact h.now.trans h'.now
  · exact fun hcancelled => h'.cancelled (h.cancelled hcancelled)
  · intro limit hlimit
    obtain ⟨middle, hmiddle, hle⟩ := h.maxCalls limit hlimit
    obtain ⟨last, hlast, hle'⟩ := h'.maxCalls middle hmiddle
    exact ⟨last, hlast, hle'.trans hle⟩

theorem tightened_of_eq (hdeadline : s'.softDeadline = s.softDeadline) (hnow : s'.now = s.now)
    (hcancelled : s'.cancelled = s.cancelled) (hmax : s'.maxCalls = s.maxCalls) :
    Tightened s s' := by
  constructor
  · exact hdeadline
  · exact hnow.ge
  · rw [hcancelled]
    exact id
  · rw [hmax]
    exact fun limit h => ⟨limit, h, le_rfl⟩

theorem acquire_tightened (s : ReviewExecution) : Tightened s s.acquire.1 := by
  unfold acquire
  cases s.refusalForNewWork with
  | some reason => exact .refl s
  | none =>
    dsimp only
    split_ifs <;> exact tightened_of_eq rfl rfl rfl rfl

theorem markDispatched_tightened (s : ReviewExecution) (id : ℕ) (p : ReviewDispatchPermit)
    (seen : PermitState) : Tightened s (s.markDispatched id p seen).1 := by
  unfold markDispatched
  split
  · exact .refl s
  · split
    · exact .refl s
    · split_ifs <;> exact tightened_of_eq rfl rfl rfl rfl

theorem markPhysicalAttempt_tightened (s : ReviewExecution) (id : ℕ) (p : ReviewDispatchPermit) :
    Tightened s (s.markPhysicalAttempt id p).1 := by
  unfold markPhysicalAttempt
  split
  · exact .refl s
  · split_ifs <;> exact tightened_of_eq rfl rfl rfl rfl

theorem dropPermit_tightened (s : ReviewExecution) (id : ℕ) (p : ReviewDispatchPermit) :
    Tightened s (s.dropPermit id p) := by
  unfold dropPermit
  split_ifs <;> exact tightened_of_eq rfl rfl rfl rfl

theorem restrictToLarge_tightened (s : ReviewExecution) (maxCalls : ℕ) :
    Tightened s (s.restrictToLarge maxCalls) := by
  unfold restrictToLarge
  cases hmax : s.maxCalls with
  | none =>
    refine ⟨rfl, le_rfl, id, ?_⟩
    rw [hmax]
    intro limit hlimit
    cases hlimit
  | some existing =>
    dsimp only
    split_ifs
    · exact .refl s
    · refine ⟨rfl, le_rfl, id, ?_⟩
      rw [hmax]
      rintro limit ⟨⟩
      exact ⟨_, rfl, min_le_left _ _⟩

theorem cancel_tightened (s : ReviewExecution) : Tightened s s.cancel := by
  unfold cancel
  split_ifs
  · exact .refl s
  · exact ⟨rfl, le_rfl, fun _ => rfl, fun limit h => ⟨limit, h, le_rfl⟩⟩

/-- No action widens a limit. -/
theorem step_tightened (s : ReviewExecution) (action : CallAction) :
    Tightened s (s.step action) := by
  have hpermit : ∀ id f, (∀ p, Tightened s (f p).1) → Tightened s (s.withPermit id f).1 := by
    intro id f hf
    rcases withPermit_cases s id f with hnone | ⟨p, -, -, hsome⟩
    · rw [hnone]
      exact .refl s
    · rw [hsome]
      exact hf p
  cases action with
  | acquire => exact acquire_tightened s
  | markDispatched id seen => exact hpermit id _ fun p => markDispatched_tightened s id p seen
  | markPhysicalAttempt id => exact hpermit id _ fun p => markPhysicalAttempt_tightened s id p
  | drop id => exact hpermit id _ fun p => dropPermit_tightened s id p
  | restrictToLarge maxCalls => exact restrictToLarge_tightened s maxCalls
  | cancel => exact cancel_tightened s
  | advance elapsed =>
    exact ⟨rfl, Nat.le_add_right _ _, id, fun limit h => ⟨limit, h, le_rfl⟩⟩

theorem Stopped.mono (h : Tightened s s') (hs : s.Stopped) : s'.Stopped := by
  rcases hs with hcancelled | hdeadline
  · exact .inl (h.cancelled hcancelled)
  · right
    rw [h.softDeadline]
    exact hdeadline.trans h.now

/-- No call starts after the deadline or after cancellation. -/
theorem not_approves_of_stopped (hs : s.Stopped) (action : CallAction) : ¬ s.Approves action := by
  have hacquire : s.acquire.2 ≠ .ok := by
    have hrefused : s.refusalForNewWork ≠ none := by
      unfold refusalForNewWork
      rcases hs with hcancelled | hdeadline
      · simp [hcancelled]
      · rw [if_pos hdeadline]
        split_ifs <;> simp
    obtain ⟨reason, hreason⟩ := Option.ne_none_iff_exists'.mp hrefused
    unfold acquire
    rw [hreason]
    simp
  have hdispatch : ∀ id p seen, (s.markDispatched id p seen).2 ≠ .ok := by
    intro id p seen
    unfold markDispatched
    split
    · simp
    · split
      · simp
      · rcases hs with hcancelled | hdeadline
        · simp [hcancelled]
        · rw [if_pos hdeadline]
          split_ifs <;> simp
  have hattempt : ∀ id p, (s.markPhysicalAttempt id p).2 ≠ .ok := by
    intro id p
    unfold markPhysicalAttempt
    split
    · simp
    · rcases hs with hcancelled | hdeadline
      · simp [hcancelled]
      · rw [if_pos hdeadline]
        split_ifs <;> simp
  have hpermit : ∀ id f, (∀ p, (f p).2 ≠ .ok) → (s.withPermit id f).2 ≠ .ok := by
    intro id f hf
    rcases withPermit_cases s id f with hnone | ⟨p, -, -, hsome⟩
    · rw [hnone]
      simp
    · rw [hsome]
      exact hf p
  rintro ⟨hok, hkind⟩
  cases action with
  | acquire => exact hacquire hok
  | markDispatched id seen => exact hpermit id _ (fun p => hdispatch id p seen) hok
  | markPhysicalAttempt id => exact hpermit id _ (hattempt id) hok
  | drop _ => exact hkind
  | restrictToLarge _ => exact hkind
  | cancel => exact hkind
  | advance _ => exact hkind

theorem Accounted.step (h : Accounted s) (action : CallAction) : Accounted (s.step action) := by
  obtain ⟨hreserved, hcharged⟩ := h
  cases step_effect s action with
  | idle hcommitted hreserved' hpermits =>
    constructor
    · rw [hreserved', hpermits, hreserved]
    · rw [charges, hpermits, hcommitted]
      exact hcharged
  | grant hcommitted hreserved' hpermits =>
    constructor
    · rw [hreserved', hpermits, hreserved, List.countP_append]
      rfl
    · rw [charges, hpermits, hcommitted, List.map_append, List.sum_append]
      exact hcharged
  | update before after p q hpermits hpermits' hreserved' hattempts hcharge hceiling =>
    constructor
    · rw [hreserved', hpermits', hreserved, hpermits]
      simp only [List.countP_append, List.countP_cons]
      cases p.outstanding <;> cases q.outstanding <;> simp only [Bool.toNat_true, Bool.toNat_false,
        Bool.false_eq_true, if_true, if_false] <;> omega
    · rw [charges, hpermits] at hcharged
      rw [charges, hpermits']
      simp only [List.map_append, List.map_cons, List.sum_append, List.sum_cons] at hcharged ⊢
      omega

theorem attempts_le_charges (s : ReviewExecution) : s.attempts ≤ s.charges := by
  apply List.sum_le_sum
  intro p _
  unfold ReviewDispatchPermit.charge
  split_ifs
  · exact le_max_right _ _
  · exact le_rfl

theorem attempts_step (s : ReviewExecution) (action : CallAction) :
    s.attempts + s.approvedAttempts action ≤ (s.step action).attempts := by
  have hgrow : s.attempts ≤ (s.step action).attempts := by
    cases step_effect s action with
    | idle _ _ hpermits => rw [attempts, attempts, hpermits]
    | grant _ _ hpermits =>
      rw [attempts, attempts, hpermits, List.map_append, List.sum_append]
      exact Nat.le_add_right _ _
    | update before after p q hpermits hpermits' _ hattempts _ _ =>
      rw [attempts, attempts, hpermits, hpermits']
      simp only [List.map_append, List.map_cons, List.sum_append, List.sum_cons]
      omega
  cases action with
  | markPhysicalAttempt id =>
    unfold approvedAttempts
    dsimp only
    split_ifs with hok
    · rcases withPermit_cases s id fun p => s.markPhysicalAttempt id p with hnone | ⟨p, hp, -, hsome⟩
      · rw [perform, hnone] at hok
        cases hok
      · rw [perform, hsome] at hok
        rw [step, perform, hsome]
        exact (markPhysicalAttempt_ok hp hok).le
    · exact hgrow
  | acquire => exact hgrow
  | markDispatched _ _ => exact hgrow
  | drop _ => exact hgrow
  | restrictToLarge _ => exact hgrow
  | cancel => exact hgrow
  | advance _ => exact hgrow

theorem run_tightened (s : ReviewExecution) (actions : List CallAction) :
    Tightened s (exec step s actions) :=
  exec_invariant (fun _ action h => h.trans (step_tightened _ action)) (.refl s) actions

/-- The count of calls is stuck once it reaches the ceiling. -/
theorem committedCalls_step (s : ReviewExecution) (action : CallAction) :
    (s.step action).committedCalls = s.committedCalls ∨
      (s.step action).committedCalls = s.committedCalls + 1 ∧
        s.atLimit s.committedCalls = false := by
  cases step_effect s action with
  | idle hcommitted _ _ => exact .inl hcommitted
  | grant hcommitted _ _ => exact .inl hcommitted
  | update _ _ _ _ _ _ _ _ _ hceiling => exact hceiling

theorem committedCalls_le {limit : ℕ} (hlimit : limit ∈ s.maxCalls) (actions : List CallAction) :
    (exec step s actions).committedCalls ≤ max limit s.committedCalls := by
  induction actions generalizing s limit with
  | nil => exact le_max_right _ _
  | cons action actions ih =>
    obtain ⟨tightened, htightened, hle⟩ := (step_tightened s action).maxCalls limit hlimit
    have hrest := ih htightened
    rw [exec_cons]
    rcases committedCalls_step s action with hsame | ⟨hgrown, hroom⟩
    · omega
    · have hlt : s.committedCalls < limit := by
        unfold atLimit at hroom
        rw [Option.mem_def.mp hlimit] at hroom
        simpa using hroom
      omega

/-- What a run that went on from `s` to `s'` promises, `approved` attempts into it. -/
structure CallsBounded (s s' : ReviewExecution) (approved : ℕ) : Prop where
  /-- Reservations are those of the permits still out that are not committed. -/
  reserved : s'.reservedCalls = (s'.permits.filter ReviewDispatchPermit.outstanding).length
  paid : approved ≤ s'.committedCalls
  /-- Neither the earlier ceiling nor what was spent by then is exceeded. -/
  bounded : ∀ limit ∈ s.maxCalls, s'.committedCalls ≤ max limit s.committedCalls
  ceiling : ∀ limit ∈ s.maxCalls, ∃ limit' ∈ s'.maxCalls, limit' ≤ limit
  stopped : s.Stopped → ∀ action, ¬ s'.Approves action

/-- In every interleaving the ceiling holds, no reservation leaks and a stopped review starts
no call. -/
theorem callsBounded (softDeadline now : ℕ) (maxCalls : Option ℕ)
    (before after : List CallAction) :
    CallsBounded (exec step (new softDeadline now maxCalls) before)
      (exec step (new softDeadline now maxCalls) (before ++ after))
      (spent step approvedAttempts (new softDeadline now maxCalls) (before ++ after)) := by
  have hstart : Accounted (new softDeadline now maxCalls) := ⟨rfl, le_rfl⟩
  have haccounted : Accounted (exec step (new softDeadline now maxCalls) (before ++ after)) :=
    exec_invariant (fun _ action h => h.step action) hstart _
  have hspent := (Guarded.spent_le attempts (fun s action _ => attempts_step s action)
    (guarded_true (new softDeadline now maxCalls) (before ++ after)))
  have hcharges := attempts_le_charges
    (exec step (new softDeadline now maxCalls) (before ++ after))
  have hcharged := haccounted.charged
  constructor
  · rw [haccounted.reserved, List.countP_eq_length_filter]
  · omega
  · intro limit hlimit
    rw [exec_append]
    exact committedCalls_le hlimit after
  · rw [exec_append]
    exact (run_tightened _ after).maxCalls
  · intro hstopped
    apply not_approves_of_stopped
    rw [exec_append]
    exact hstopped.mono (run_tightened _ after)

end ReviewExecution

end TinySweeper.App
