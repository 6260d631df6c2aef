import Mathlib.Data.List.Basic

/-!
# Programs whose calls can fail

A program works on a state through calls, each a list of effects. A plan says how its
calls go: one that fails, or in which the process stops, has landed some of its effects.
A judgement says what holds where a program ends, and wherever it is interrupted.
-/

namespace TinySweeper.Interrupt

/-- How a call goes that does not go through. -/
inductive Fault (ε : Type*) where
  | fails (landed : ℕ → Bool) (error : ε)
  | stops (landed : ℕ → Bool)

inductive Fate where
  | through
  | failed
  | stopped
  deriving DecidableEq, Repr

/-- A call that was made, and what of it landed. -/
structure Call (η : Type*) where
  landed : List η
  fate : Fate
  deriving DecidableEq, Repr

/-- A state, and the calls that led to it. -/
structure World (σ η : Type*) where
  state : σ
  calls : List (Call η)

structure Machine (σ η ε : Type*) extends World σ η where
  plan : List (Option (Fault ε))

inductive Outcome (ε α : Type*) where
  | done (value : α)
  | failed (error : ε)
  | stopped
  deriving DecidableEq, Repr

universe u

variable {σ η ε α β γ : Type u}

def World.landed (w : World σ η) : List η := w.calls.flatMap Call.landed

def Machine.Faulty (m : Machine σ η ε) : Prop := ∃ fault, some fault ∈ m.plan

/-- The effects whose positions are marked. -/
def marked (mark : ℕ → Bool) : List η → List η
  | [] => []
  | e :: es => if mark 0 then e :: marked (fun i => mark (i + 1)) es
    else marked (fun i => mark (i + 1)) es

theorem marked_sublist (mark : ℕ → Bool) (es : List η) : (marked mark es).Sublist es := by
  induction es generalizing mark with
  | nil => exact List.Sublist.refl _
  | cons e es ih =>
    rw [marked]
    split
    · exact (ih _).cons_cons e
    · exact (ih _).cons e

def Program (σ η ε α : Type u) := Machine σ η ε → Outcome ε α × Machine σ η ε

instance : Monad (Program σ η ε) where
  pure a m := (.done a, m)
  bind p f m :=
    match p m with
    | (.done a, m') => f a m'
    | (.failed e, m') => (.failed e, m')
    | (.stopped, m') => (.stopped, m')

def raise (e : ε) : Program σ η ε α := fun m => (.failed e, m)

/-- A look at the state that is not a call. -/
def look (f : σ → α) : Program σ η ε α := fun m => (.done (f m.state), m)

/-- A change of the state that is not a call. -/
def modify (f : σ → σ) : Program σ η ε PUnit := fun m =>
  (.done .unit, { m with state := f m.state })

/-- An error is answered; the end of the process is not. -/
def attempt (p : Program σ η ε α) : Program σ η ε (Except ε α) := fun m =>
  match p m with
  | (.done a, m') => (.done (.ok a), m')
  | (.failed e, m') => (.done (.error e), m')
  | (.stopped, m') => (.stopped, m')

section Calls

variable (apply : η → σ → σ)

/-- After a call of which these effects landed. -/
def World.after (w : World σ η) (es : List η) (fate : Fate) : World σ η :=
  ⟨es.foldl (fun s e => apply e s) w.state, w.calls ++ [⟨es, fate⟩]⟩

/-- A call with these effects, answered from the state it was made in. -/
def perform (effects : σ → List η) (answer : σ → α) : Program σ η ε α := fun m =>
  let es := effects m.state
  match m.plan.head? with
  | some (some (.fails landed e)) =>
    (.failed e, ⟨m.toWorld.after apply (marked landed es) .failed, m.plan.tail⟩)
  | some (some (.stops landed)) =>
    (.stopped, ⟨m.toWorld.after apply (marked landed es) .stopped, m.plan.tail⟩)
  | _ => (.done (answer m.state), ⟨m.toWorld.after apply es .through, m.plan.tail⟩)

end Calls

/-- The end of a program meets a condition on its value, or on its interruption. -/
def Meets (faults : Prop) (Q : α → World σ η → Prop) (X : Option ε → World σ η → Prop) :
    Outcome ε α × Machine σ η ε → Prop
  | (.done a, m) => Q a m.toWorld ∧ (m.Faulty → faults)
  | (.failed e, m) => X (some e) m.toWorld ∧ (m.Faulty → faults)
  | (.stopped, m) => X none m.toWorld

/-- From where the first condition holds, the others hold at the end. Calls go wrong only
where faults are allowed. -/
def Ensures (faults : Prop) (P : World σ η → Prop) (p : Program σ η ε α)
    (Q : α → World σ η → Prop) (X : Option ε → World σ η → Prop) : Prop :=
  ∀ m : Machine σ η ε, (m.Faulty → faults) → P m.toWorld → Meets faults Q X (p m)

variable {faults : Prop} {P P' : World σ η → Prop} {Q Q' : α → World σ η → Prop}
variable {X X' : Option ε → World σ η → Prop} {p : Program σ η ε α}

theorem Ensures.weaken (h : Ensures faults P p Q X) (hP : ∀ w, P' w → P w)
    (hQ : ∀ a w, Q a w → Q' a w) (hX : ∀ e w, X e w → X' e w) : Ensures faults P' p Q' X' := by
  intro m hm hp
  have hmeets := h m hm (hP _ hp)
  match hend : p m with
  | (.done a, m') =>
    rw [hend] at hmeets
    exact ⟨hQ _ _ hmeets.1, hmeets.2⟩
  | (.failed e, m') =>
    rw [hend] at hmeets
    exact ⟨hX _ _ hmeets.1, hmeets.2⟩
  | (.stopped, m') =>
    rw [hend] at hmeets
    exact hX _ _ hmeets

/-- What holds from each world a program may begin in. -/
theorem ensures_of_forall (h : ∀ w, P w → Ensures faults (fun w' => w' = w) p Q X) :
    Ensures faults P p Q X :=
  fun m hm hp => h m.toWorld hp m hm rfl

theorem Ensures.and (h : Ensures faults P p Q X) (h' : Ensures faults P' p Q' X') :
    Ensures faults (fun w => P w ∧ P' w) p (fun a w => Q a w ∧ Q' a w)
      fun e w => X e w ∧ X' e w := by
  intro m hm hp
  have hmeets := h m hm hp.1
  have hmeets' := h' m hm hp.2
  match hend : p m with
  | (.done a, m') =>
    rw [hend] at hmeets hmeets'
    exact ⟨⟨hmeets.1, hmeets'.1⟩, hmeets.2⟩
  | (.failed e, m') =>
    rw [hend] at hmeets hmeets'
    exact ⟨⟨hmeets.1, hmeets'.1⟩, hmeets.2⟩
  | (.stopped, m') =>
    rw [hend] at hmeets hmeets'
    exact ⟨hmeets, hmeets'⟩

theorem ensures_pure {a : α} (h : ∀ w, P w → Q a w) :
    Ensures faults P (pure a : Program σ η ε α) Q X :=
  fun _ hm hp => ⟨h _ hp, hm⟩

theorem Ensures.bind {f : α → Program σ η ε β} {R : β → World σ η → Prop}
    (hp : Ensures faults P p Q X) (hf : ∀ a, Ensures faults (Q a) (f a) R X) :
    Ensures faults P (p >>= f) R X := by
  intro m hm hpre
  have hmeets := hp m hm hpre
  show Meets faults R X (match p m with
    | (.done a, m') => f a m'
    | (.failed e, m') => (.failed e, m')
    | (.stopped, m') => (.stopped, m'))
  match hend : p m with
  | (.done a, m') =>
    rw [hend] at hmeets
    exact hf a m' hmeets.2 hmeets.1
  | (.failed e, m') =>
    rw [hend] at hmeets
    exact hmeets
  | (.stopped, m') =>
    rw [hend] at hmeets
    exact hmeets

theorem ensures_raise {e : ε} (h : ∀ w, P w → X (some e) w) :
    Ensures faults P (raise e : Program σ η ε α) Q X :=
  fun _ hm hp => ⟨h _ hp, hm⟩

theorem ensures_look {f : σ → α} (h : ∀ w, P w → Q (f w.state) w) :
    Ensures faults P (look f : Program σ η ε α) Q X :=
  fun _ hm hp => ⟨h _ hp, hm⟩

theorem ensures_modify {f : σ → σ} {R : PUnit → World σ η → Prop}
    (h : ∀ w, P w → R .unit { w with state := f w.state }) :
    Ensures faults P (modify f : Program σ η ε PUnit) R X :=
  fun _ hm hp => ⟨h _ hp, hm⟩

theorem Ensures.attempt {R : Except ε α → World σ η → Prop}
    (h : Ensures faults P p (fun a => R (.ok a)) fun e w => match e with
      | some e => R (.error e) w
      | none => X none w) :
    Ensures faults P (attempt p) R X := by
  intro m hm hp
  have hmeets := h m hm hp
  show Meets faults R X (match p m with
    | (.done a, m') => (.done (.ok a), m')
    | (.failed e, m') => (.done (.error e), m')
    | (.stopped, m') => (.stopped, m'))
  match hend : p m with
  | (.done a, m') =>
    rw [hend] at hmeets
    exact hmeets
  | (.failed e, m') =>
    rw [hend] at hmeets
    exact hmeets
  | (.stopped, m') =>
    rw [hend] at hmeets
    exact hmeets

/-- A call that goes through has landed whole; any other one, some part of it. -/
theorem ensures_perform {apply : η → σ → σ} {effects : σ → List η} {answer : σ → α}
    (hdone : ∀ w, P w → Q (answer w.state) (w.after apply (effects w.state) .through))
    (hfault : faults → ∀ w, P w → ∀ es, es.Sublist (effects w.state) →
      (∀ e, X (some e) (w.after apply es .failed)) ∧ X none (w.after apply es .stopped)) :
    Ensures faults P (perform apply effects answer : Program σ η ε α) Q X := by
  intro m hm hp
  have htail : (∃ fault, some fault ∈ m.plan.tail) → faults := by
    rintro ⟨fault, hfault⟩
    exact hm ⟨fault, List.mem_of_mem_tail hfault⟩
  rw [perform]
  split
  next landed e hhead =>
    have hfaults := hm ⟨_, List.mem_of_mem_head? hhead⟩
    exact ⟨(hfault hfaults _ hp _ (marked_sublist _ _)).1 e, htail⟩
  next landed hhead =>
    have hfaults := hm ⟨_, List.mem_of_mem_head? hhead⟩
    exact (hfault hfaults _ hp _ (marked_sublist _ _)).2
  next => exact ⟨hdone _ hp, htail⟩

/-- What holds of the state before a program holds after it, whatever goes wrong. -/
def Keeps (J : σ → Prop) (p : Program σ η ε α) : Prop :=
  ∀ faults, Ensures faults (fun w => J w.state) p (fun _ w => J w.state) fun _ w => J w.state

section Keeping

variable {J : σ → Prop}

theorem keeps_pure (a : α) : Keeps J (pure a : Program σ η ε α) := fun _ => ensures_pure fun _ h => h

theorem keeps_raise (e : ε) : Keeps J (raise e : Program σ η ε α) := fun _ => ensures_raise fun _ h => h

theorem keeps_look (f : σ → α) : Keeps J (look f : Program σ η ε α) := fun _ => ensures_look fun _ h => h

theorem keeps_modify {f : σ → σ} (h : ∀ s, J s → J (f s)) :
    Keeps J (modify f : Program σ η ε PUnit) :=
  fun _ => ensures_modify fun w hw => h w.state hw

theorem Keeps.bind {f : α → Program σ η ε β} (hp : Keeps J p) (hf : ∀ a, Keeps J (f a)) :
    Keeps J (p >>= f) :=
  fun faults => (hp faults).bind fun a => hf a faults

theorem Keeps.attempt (hp : Keeps J p) : Keeps J (attempt p) := by
  intro faults
  refine Ensures.attempt ((hp faults).weaken (fun _ h => h) (fun _ _ h => h) fun e w h => ?_)
  cases e <;> exact h

theorem keeps_perform {apply : η → σ → σ} {effects : σ → List η} {answer : σ → α}
    (h : ∀ s, ∀ e ∈ effects s, ∀ s', J s' → J (apply e s')) :
    Keeps J (perform apply effects answer : Program σ η ε α) := by
  have hland : ∀ w : World σ η, J w.state → ∀ es, es.Sublist (effects w.state) → ∀ fate,
      J (w.after apply es fate).state := by
    intro w hw es hes fate
    have hall : ∀ e ∈ es, ∀ s', J s' → J (apply e s') := fun e he => h w.state e (hes.subset he)
    show J (es.foldl (fun s e => apply e s) w.state)
    generalize w.state = s at hw
    clear hes
    induction es generalizing s with
    | nil => exact hw
    | cons e es ih =>
      exact ih (fun e' he' => hall e' (List.mem_cons_of_mem _ he')) _ (hall e List.mem_cons_self s hw)
  intro faults
  exact ensures_perform (fun w hw => hland w hw _ (.refl _) _)
    fun _ w hw es hes => ⟨fun _ => hland w hw es hes _, hland w hw es hes _⟩

end Keeping

/-- What each effect brings about and no other undoes holds once all have landed. -/
theorem foldl_each {step : σ → η → σ} {J : σ → Prop} {K : η → σ → Prop} {es : List η}
    (hstep : ∀ e ∈ es, ∀ s, J s → J (step s e) ∧ K e (step s e))
    (hkeep : ∀ e ∈ es, ∀ e' ∈ es, ∀ s, J s → K e s → K e (step s e')) {s : σ} (hs : J s) :
    J (es.foldl step s) ∧ ∀ e ∈ es, K e (es.foldl step s) := by
  have hfrom : ∀ after before : List η, es = before ++ after → ∀ s, J s → (∀ e ∈ before, K e s) →
      J (after.foldl step s) ∧ ∀ e ∈ es, K e (after.foldl step s) := by
    intro after
    induction after with
    | nil =>
      rintro before rfl s hs hbefore
      rw [List.append_nil]
      exact ⟨hs, hbefore⟩
    | cons e after ih =>
      intro before hes s hs hbefore
      have he : e ∈ es := hes ▸ List.mem_append_right _ List.mem_cons_self
      refine ih (before ++ [e]) (by rw [hes, List.append_assoc]; rfl) _ (hstep e he s hs).1 ?_
      intro e' he'
      rcases List.mem_append.mp he' with he' | he'
      · exact hkeep e' (hes ▸ List.mem_append_left _ he') e he s hs (hbefore e' he')
      · rw [List.mem_singleton.mp he']
        exact (hstep e he s hs).2
  exact hfrom es [] rfl s hs nofun

end TinySweeper.Interrupt
