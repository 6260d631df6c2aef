import TinySweeper.Runs

/-!
# Bounded dispatch of units of work

Units wait in a queue, at most `width` of them are in flight, and each ends
finished, never started or abandoned. A soft deadline stops new work, a later
one or a cancellation abandons what is in flight. Every unit is in one place, and
the order in which units finish decides nothing else.
-/

namespace TinySweeper.Dispatch

open Runs

/-- Why a unit was dropped. -/
inductive Stop where
  | soft
  | drain
  | cancelled
  deriving DecidableEq, Repr

/-- One turn of the loop: what is noticed at its top, and the unit that completes in it. -/
structure Turn (α : Type*) where
  cancelled : Bool
  pastSoft : Bool
  pastDrain : Bool
  completed : Option α

/-- The units by what became of them; `early` and `late` finished before and after the soft
deadline was noticed, in that order. -/
structure Pool (α : Type*) where
  queued : List α
  active : List α
  early : List α
  late : List α
  unstarted : List (α × Stop)
  abandoned : List (α × Stop)
  draining : Bool
  stopped : Bool
  cancelled : Bool

variable {α : Type*} [DecidableEq α]

namespace Pool

def initial (planned : List α) : Pool α := ⟨planned, [], [], [], [], [], false, false, false⟩

def dropQueue (p : Pool α) (stop : Stop) : Pool α :=
  { p with queued := [], unstarted := p.unstarted ++ p.queued.map fun a => (a, stop) }

/-- Stop with what is in flight abandoned, in the given order. -/
def abandon (order : List α → List α) (p : Pool α) (stop : Stop) : Pool α :=
  { p with
    active := []
    abandoned := p.abandoned ++ (order p.active).map fun a => (a, stop)
    stopped := true }

def room (width : ℕ) (p : Pool α) : ℕ := if p.draining then 0 else width - p.active.length

def fill (width : ℕ) (p : Pool α) : Pool α :=
  { p with
    queued := p.queued.drop (p.room width)
    active := p.active ++ p.queued.take (p.room width) }

/-- Notice the soft deadline once. -/
def drain (p : Pool α) (pastSoft : Bool) : Pool α :=
  if !p.draining && pastSoft then { p.dropQueue .soft with draining := true } else p

def finish (p : Pool α) (a : α) : Pool α :=
  if a ∈ p.active then
    if p.draining then { p with active := p.active.erase a, late := p.late ++ [a] }
    else { p with active := p.active.erase a, early := p.early ++ [a] }
  else p

/-- The pool at the point of a turn where it waits for a completion. -/
def prepare (width : ℕ) (order : List α → List α) (p : Pool α) (t : Turn α) : Pool α :=
  if t.cancelled then { (p.dropQueue .cancelled).abandon order .cancelled with cancelled := true }
  else
    let p := p.drain t.pastSoft
    if p.draining && t.pastDrain then p.abandon order .drain
    else
      let p := p.fill width
      if p.active.isEmpty then { p with stopped := true } else p

def step (width : ℕ) (order : List α → List α) (p : Pool α) (t : Turn α) : Pool α :=
  if p.stopped then p
  else
    let p := p.prepare width order t
    if p.stopped then p
    else
      match t.completed with
      | some a => p.finish a
      | none => p

/-- Every unit, wherever it is. -/
def everything (p : Pool α) : List α :=
  p.queued ++ p.active ++ p.early ++ p.late ++ p.unstarted.map Prod.fst ++
    p.abandoned.map Prod.fst

end Pool

section Conservation

variable {width : ℕ} {order : List α → List α} (horder : ∀ units, (order units).Perm units)

omit [DecidableEq α] in
theorem map_fst_pair (units : List α) (stop : Stop) :
    (units.map fun a => (a, stop)).map Prod.fst = units := by
  simp [Function.comp_def]

theorem everything_dropQueue (p : Pool α) (stop : Stop) :
    (p.dropQueue stop).everything.Perm p.everything := by
  rw [List.perm_iff_count]
  intro a
  simp only [Pool.everything, Pool.dropQueue, List.map_append, map_fst_pair, List.count_append,
    List.count_nil]
  omega

include horder in
theorem everything_abandon (p : Pool α) (stop : Stop) :
    (p.abandon order stop).everything.Perm p.everything := by
  rw [List.perm_iff_count]
  intro a
  simp only [Pool.everything, Pool.abandon, List.map_append, map_fst_pair, List.count_append,
    List.count_nil, (horder p.active).count_eq]
  omega

theorem everything_fill (p : Pool α) : (p.fill width).everything.Perm p.everything := by
  rw [List.perm_iff_count]
  intro a
  have hsplit := congrArg (List.count a) (List.take_append_drop (p.room width) p.queued)
  rw [List.count_append] at hsplit
  simp only [Pool.everything, Pool.fill, List.count_append]
  omega

theorem everything_drain (p : Pool α) (pastSoft : Bool) :
    (p.drain pastSoft).everything.Perm p.everything := by
  unfold Pool.drain
  split
  · exact everything_dropQueue p .soft
  · exact List.Perm.refl _

theorem everything_finish (p : Pool α) (a : α) : (p.finish a).everything.Perm p.everything := by
  unfold Pool.finish
  split
  · next hactive =>
    rw [List.perm_iff_count]
    intro b
    have herase := (List.perm_cons_erase hactive).count_eq b
    rw [List.count_cons] at herase
    split <;>
      · simp only [Pool.everything, List.count_append, List.count_singleton, herase]
        omega
  · exact List.Perm.refl _

include horder in
theorem everything_prepare (p : Pool α) (t : Turn α) :
    (p.prepare width order t).everything.Perm p.everything := by
  unfold Pool.prepare
  split
  · exact (everything_abandon horder _ _).trans (everything_dropQueue p .cancelled)
  · dsimp only
    split
    · exact (everything_abandon horder _ _).trans (everything_drain p t.pastSoft)
    · have hfill := (@everything_fill _ _ width (p.drain t.pastSoft)).trans
        (everything_drain p t.pastSoft)
      split
      · exact hfill
      · exact hfill

include horder in
theorem everything_step (p : Pool α) (t : Turn α) :
    (p.step width order t).everything.Perm p.everything := by
  unfold Pool.step
  split
  · exact List.Perm.refl _
  · have hprepare := @everything_prepare _ _ width _ horder p t
    dsimp only
    split
    · exact hprepare
    · split
      · exact (everything_finish _ _).trans hprepare
      · exact hprepare

include horder in
/-- Every planned unit stays in one place along every run. -/
theorem everything_exec (planned : List α) (turns : List (Turn α)) :
    (exec (Pool.step width order) (Pool.initial planned) turns).everything.Perm planned := by
  apply exec_invariant (I := fun p : Pool α => p.everything.Perm planned)
  · intro p t hp
    exact (everything_step horder p t).trans hp
  · simp [Pool.everything, Pool.initial]

end Conservation

section Ending

variable {width : ℕ} {order : List α → List α}

/-- Nothing is queued once the deadline was noticed, and nothing is left once the loop stopped. -/
structure Settled (p : Pool α) : Prop where
  draining : p.draining = true → p.queued = []
  stopped : p.stopped = true → p.queued = [] ∧ p.active = []

omit [DecidableEq α] in
theorem settled_prepare (hwidth : 0 < width) {p : Pool α} (hp : Settled p)
    (hrun : p.stopped = false) (t : Turn α) : Settled (p.prepare width order t) := by
  have hdrain : ((p.drain t.pastSoft).draining = true → (p.drain t.pastSoft).queued = []) ∧
      (p.drain t.pastSoft).stopped = false := by
    unfold Pool.drain
    split
    · exact ⟨fun _ => rfl, hrun⟩
    · exact ⟨hp.draining, hrun⟩
  unfold Pool.prepare
  split
  · exact ⟨fun _ => rfl, fun _ => ⟨rfl, rfl⟩⟩
  · dsimp only
    split
    · next hlate =>
      rw [Bool.and_eq_true] at hlate
      exact ⟨hdrain.1, fun _ => ⟨hdrain.1 hlate.1, rfl⟩⟩
    · have hfill : ((p.drain t.pastSoft).fill width).draining = true →
          ((p.drain t.pastSoft).fill width).queued = [] := by
        intro hdraining
        simp [Pool.fill, hdrain.1 hdraining]
      split
      · next hempty =>
        refine ⟨hfill, fun _ => ⟨?_, List.isEmpty_iff.mp hempty⟩⟩
        -- With nothing in flight there was room, so the queue ran out.
        by_cases hdraining : (p.drain t.pastSoft).draining = true
        · exact hfill hdraining
        · have hnone : (p.drain t.pastSoft).active = [] ∧
              (p.drain t.pastSoft).queued.take ((p.drain t.pastSoft).room width) = [] := by
            simpa [Pool.fill, List.append_eq_nil_iff] using hempty
          have hroom : (p.drain t.pastSoft).room width = width := by
            simp [Pool.room, hdraining, hnone.1]
          rw [hroom, List.take_eq_nil_iff] at hnone
          have hqueue : (p.drain t.pastSoft).queued = [] := hnone.2.resolve_left (by omega)
          simp [Pool.fill, hqueue]
      · refine ⟨hfill, ?_⟩
        intro hstopped
        exact absurd (hdrain.2.symm.trans hstopped) (by decide)

theorem settled_step (hwidth : 0 < width) {p : Pool α} (hp : Settled p) (t : Turn α) :
    Settled (p.step width order t) := by
  unfold Pool.step
  split
  · exact hp
  · next hrun =>
    have hprepare := @settled_prepare _ _ order hwidth _ hp (by simpa using hrun) t
    dsimp only
    split
    · exact hprepare
    · next hgoes =>
      split
      · unfold Pool.finish
        split
        · split <;> exact ⟨hprepare.draining, fun h => absurd h hgoes⟩
        · exact hprepare
      · exact hprepare

theorem settled_exec (hwidth : 0 < width) (planned : List α) (turns : List (Turn α)) :
    Settled (exec (Pool.step width order) (Pool.initial planned) turns) := by
  apply exec_invariant (I := Settled) (fun p t hp => settled_step hwidth hp t)
  exact ⟨fun h => absurd h Bool.false_ne_true, fun h => absurd h Bool.false_ne_true⟩

/-- What happens before the soft deadline is noticed, and before the loop stops. -/
structure Phased (p : Pool α) : Prop where
  late : p.draining = false → p.late = []
  unstarted : p.draining = false → p.stopped = false → p.unstarted = []
  abandoned : p.stopped = false → p.abandoned = []

omit [DecidableEq α] in
theorem phased_prepare {p : Pool α} (hp : Phased p) (hrun : p.stopped = false) (t : Turn α) :
    Phased (p.prepare width order t) := by
  have hdrain : Phased (p.drain t.pastSoft) ∧ (p.drain t.pastSoft).stopped = false := by
    unfold Pool.drain
    split
    · exact ⟨⟨fun h => absurd h.symm Bool.false_ne_true,
        fun h => absurd h.symm Bool.false_ne_true, hp.abandoned⟩, hrun⟩
    · exact ⟨hp, hrun⟩
  unfold Pool.prepare
  split
  · exact ⟨hp.late, fun _ h => absurd h.symm Bool.false_ne_true,
      fun h => absurd h.symm Bool.false_ne_true⟩
  · dsimp only
    split
    · exact ⟨hdrain.1.late, fun _ h => absurd h.symm Bool.false_ne_true,
        fun h => absurd h.symm Bool.false_ne_true⟩
    · split
      · exact ⟨hdrain.1.late, fun _ h => absurd h.symm Bool.false_ne_true,
          fun h => absurd h.symm Bool.false_ne_true⟩
      · exact ⟨hdrain.1.late, hdrain.1.unstarted, hdrain.1.abandoned⟩

theorem phased_step {p : Pool α} (hp : Phased p) (t : Turn α) :
    Phased (p.step width order t) := by
  unfold Pool.step
  split
  · exact hp
  · next hrun =>
    have hprepare := @phased_prepare _ width order _ hp (by simpa using hrun) t
    dsimp only
    split
    · exact hprepare
    · split
      · unfold Pool.finish
        split
        · split
          · next hdraining =>
            exact ⟨fun h => absurd (h.symm.trans hdraining) Bool.false_ne_true,
              hprepare.unstarted, hprepare.abandoned⟩
          · exact ⟨hprepare.late, hprepare.unstarted, hprepare.abandoned⟩
        · exact hprepare
      · exact hprepare

/-- When the loop has stopped, every planned unit finished or was dropped. -/
theorem accounted_exec (hwidth : 0 < width) (horder : ∀ units, (order units).Perm units)
    {planned : List α} {turns : List (Turn α)} :
    let p := exec (Pool.step width order) (Pool.initial planned) turns
    p.stopped = true →
      (p.early ++ p.late ++ p.unstarted.map Prod.fst ++ p.abandoned.map Prod.fst).Perm planned := by
  intro p hstopped
  have hsettled : Settled p := settled_exec hwidth planned turns
  have hall := @everything_exec _ _ width _ horder planned turns
  obtain ⟨hqueued, hactive⟩ := hsettled.stopped hstopped
  have hleft : p.everything =
      p.early ++ p.late ++ p.unstarted.map Prod.fst ++ p.abandoned.map Prod.fst := by
    simp [Pool.everything, hqueued, hactive]
  rw [← hleft]
  exact hall

end Ending

section Order

variable (width : ℕ) (order : List α → List α)

/-- A unit completes only in a turn that waits, and only when it is in flight. -/
def Completes (p : Pool α) (t : Turn α) : Prop :=
  ∀ a, t.completed = some a →
    p.stopped = false ∧ (p.prepare width order t).stopped = false ∧
      a ∈ (p.prepare width order t).active

/-- The completions of a run, and those before the soft deadline is noticed. -/
def completions (turns : List (Turn α)) : List α := turns.filterMap Turn.completed

def earlyCompletions (turns : List (Turn α)) : List α :=
  completions (turns.takeWhile fun t => !t.pastSoft)

def lateCompletions (turns : List (Turn α)) : List α :=
  completions (turns.dropWhile fun t => !t.pastSoft)

/-- What a turn shows apart from which unit completes. -/
def Turn.skeleton (t : Turn α) : Bool × Bool × Bool × Bool :=
  (t.cancelled, t.pastSoft, t.pastDrain, t.completed.isSome)

/-- Two runs that differ in the order of completion only. -/
structure Reordered (turns turns' : List (Turn α)) : Prop where
  skeleton : turns.map Turn.skeleton = turns'.map Turn.skeleton
  early : (earlyCompletions turns).Perm (earlyCompletions turns')
  late : (lateCompletions turns).Perm (lateCompletions turns')

variable {width order}

theorem step_of_completed {p : Pool α} {t : Turn α} {a : α}
    (hvalid : Completes width order p t) (ha : t.completed = some a) :
    t.cancelled = false ∧
      p.step width order t = (((p.drain t.pastSoft).fill width).finish a) ∧
      a ∈ ((p.drain t.pastSoft).fill width).active := by
  obtain ⟨hrun, hgoes, hactive⟩ := hvalid a ha
  have hprepare : t.cancelled = false ∧
      p.prepare width order t = (p.drain t.pastSoft).fill width := by
    unfold Pool.prepare at hgoes ⊢
    cases hcancelled : t.cancelled with
    | true => simp [hcancelled, Pool.abandon] at hgoes
    | false =>
      simp only [hcancelled, Bool.false_eq_true, if_false] at hgoes ⊢
      split at hgoes
      · simp [Pool.abandon] at hgoes
      · next hlate =>
        split at hgoes
        · simp at hgoes
        · next hbusy => simp [hlate, hbusy]
  refine ⟨hprepare.1, ?_, hprepare.2 ▸ hactive⟩
  unfold Pool.step
  rw [if_neg (by simp [hrun])]
  dsimp only
  rw [if_neg (by simp [hgoes]), ha, hprepare.2]

omit [DecidableEq α] in
theorem completions_cons (t : Turn α) (turns : List (Turn α)) :
    completions (t :: turns) = t.completed.toList ++ completions turns := by
  cases h : t.completed <;> simp [completions, h]

omit [DecidableEq α] in
theorem earlyCompletions_cons (t : Turn α) (turns : List (Turn α)) :
    earlyCompletions (t :: turns) =
      if t.pastSoft then [] else t.completed.toList ++ earlyCompletions turns := by
  cases h : t.pastSoft <;> (simp [earlyCompletions, h, completions_cons]; try rfl)

omit [DecidableEq α] in
theorem lateCompletions_cons (t : Turn α) (turns : List (Turn α)) :
    lateCompletions (t :: turns) =
      if t.pastSoft then completions (t :: turns) else lateCompletions turns := by
  cases h : t.pastSoft <;> simp [lateCompletions, h]

omit [DecidableEq α] in
theorem completions_split (turns : List (Turn α)) :
    completions turns = earlyCompletions turns ++ lateCompletions turns := by
  unfold earlyCompletions lateCompletions completions
  rw [← List.filterMap_append, List.takeWhile_append_dropWhile]

omit [DecidableEq α] in
theorem Reordered.completions {turns turns' : List (Turn α)} (h : Reordered turns turns') :
    (completions turns).Perm (completions turns') := by
  rw [completions_split, completions_split]
  exact h.early.append h.late

omit [DecidableEq α] in
theorem drain_spec (p : Pool α) (pastSoft : Bool) :
    (p.drain pastSoft).draining = (p.draining || pastSoft) ∧
      (p.drain pastSoft).early = p.early ∧ (p.drain pastSoft).late = p.late := by
  unfold Pool.drain
  cases hdraining : p.draining <;> cases pastSoft <;> simp [Pool.dropQueue, hdraining]

omit [DecidableEq α] in
theorem prepare_spec (p : Pool α) (t : Turn α) :
    (p.prepare width order t).early = p.early ∧ (p.prepare width order t).late = p.late ∧
      ((p.prepare width order t).draining = (p.draining || t.pastSoft) ∨
        (p.prepare width order t).stopped = true) := by
  obtain ⟨hdraining, hearly, hlate⟩ := drain_spec p t.pastSoft
  unfold Pool.prepare
  split
  · exact ⟨rfl, rfl, .inr rfl⟩
  · dsimp only
    split
    · exact ⟨hearly, hlate, .inr rfl⟩
    · split
      · exact ⟨hearly, hlate, .inr rfl⟩
      · exact ⟨hearly, hlate, .inl hdraining⟩

/-- What a valid turn records. -/
theorem recorded_step {p : Pool α} {t : Turn α} (hvalid : Completes width order p t) :
    (p.step width order t).early =
        p.early ++ (if p.draining || t.pastSoft then [] else t.completed.toList) ∧
      (p.step width order t).late =
        p.late ++ (if p.draining || t.pastSoft then t.completed.toList else []) ∧
      ((p.step width order t).draining = (p.draining || t.pastSoft) ∨
        (p.step width order t).stopped = true) := by
  obtain ⟨hdraining, hearly, hlate⟩ := drain_spec p t.pastSoft
  cases ha : t.completed with
  | some a =>
    obtain ⟨-, hstep, hactive⟩ := step_of_completed hvalid ha
    have hfill : ((p.drain t.pastSoft).fill width).draining = (p.draining || t.pastSoft) ∧
        ((p.drain t.pastSoft).fill width).early = p.early ∧
        ((p.drain t.pastSoft).fill width).late = p.late := ⟨hdraining, hearly, hlate⟩
    rw [hstep]
    unfold Pool.finish
    rw [if_pos hactive, hfill.1]
    cases hd : (p.draining || t.pastSoft) with
    | true => simp [hfill]
    | false => simp [hfill]
  | none =>
    obtain ⟨hpearly, hplate, hpdraining⟩ := @prepare_spec _ width order p t
    unfold Pool.step
    split
    · next hstopped => simp [hstopped]
    · dsimp only
      split
      · next hend => simp [hpearly, hplate, hend]
      · simpa [ha, hpearly, hplate] using hpdraining

theorem stopped_run {p : Pool α} (hp : p.stopped = true) {turns : List (Turn α)}
    (hvalid : Guarded (Pool.step width order) (Completes width order) p turns) :
    exec (Pool.step width order) p turns = p ∧ completions turns = [] := by
  induction turns with
  | nil => exact ⟨rfl, rfl⟩
  | cons t turns ih =>
    have hstep : p.step width order t = p := by simp [Pool.step, hp]
    have hnone : t.completed = none := by
      cases ha : t.completed with
      | none => rfl
      | some a => exact absurd ((hvalid.1 a ha).1.symm.trans hp) Bool.false_ne_true
    obtain ⟨hexec, hcompletions⟩ := ih (hstep ▸ hvalid.2)
    rw [exec_cons, hstep, completions_cons, hnone, hcompletions]
    exact ⟨hexec, rfl⟩

omit [DecidableEq α] in
theorem segments_of_no_completions {turns : List (Turn α)} (hnone : completions turns = []) :
    earlyCompletions turns = [] ∧ lateCompletions turns = [] := by
  induction turns with
  | nil => exact ⟨rfl, rfl⟩
  | cons t turns ih =>
    rw [completions_cons, List.append_eq_nil_iff] at hnone
    rw [earlyCompletions_cons, lateCompletions_cons, completions_cons, hnone.1, hnone.2,
      (ih hnone.2).1, (ih hnone.2).2]
    simp

/-- A valid run records its completions in order. -/
theorem recorded_exec {p : Pool α} {turns : List (Turn α)}
    (hvalid : Guarded (Pool.step width order) (Completes width order) p turns) :
    (exec (Pool.step width order) p turns).early =
        p.early ++ (if p.draining then [] else earlyCompletions turns) ∧
      (exec (Pool.step width order) p turns).late =
        p.late ++ (if p.draining then completions turns else lateCompletions turns) := by
  induction turns generalizing p with
  | nil => simp [earlyCompletions, lateCompletions, completions]
  | cons t turns ih =>
    obtain ⟨hearly, hlate, hnext⟩ := recorded_step hvalid.1
    rw [exec_cons, earlyCompletions_cons, lateCompletions_cons, completions_cons]
    rcases hnext with hdraining | hstopped
    · obtain ⟨hiearly, hilate⟩ := ih hvalid.2
      rw [hiearly, hilate, hearly, hlate, hdraining]
      cases p.draining <;> cases t.pastSoft <;> simp
    · obtain ⟨hexec, hnone⟩ := stopped_run hstopped hvalid.2
      obtain ⟨hnoneEarly, hnoneLate⟩ := segments_of_no_completions hnone
      rw [hexec, hearly, hlate, hnone, hnoneEarly, hnoneLate]
      cases p.draining <;> cases t.pastSoft <;> simp

/-- Pools that differ only in which units are in flight, finished or abandoned. -/
structure SameControl (p p' : Pool α) : Prop where
  queued : p.queued = p'.queued
  active : p.active.length = p'.active.length
  draining : p.draining = p'.draining
  stopped : p.stopped = p'.stopped
  cancelled : p.cancelled = p'.cancelled
  unstarted : p.unstarted = p'.unstarted
  stops : p.abandoned.map Prod.snd = p'.abandoned.map Prod.snd

omit [DecidableEq α] in
theorem SameControl.dropQueue {p p' : Pool α} (h : SameControl p p') (stop : Stop) :
    SameControl (p.dropQueue stop) (p'.dropQueue stop) where
  queued := rfl
  active := h.active
  draining := h.draining
  stopped := h.stopped
  cancelled := h.cancelled
  unstarted := by simp [Pool.dropQueue, h.unstarted, h.queued]
  stops := h.stops

omit [DecidableEq α] in
theorem SameControl.drain {p p' : Pool α} (h : SameControl p p') (pastSoft : Bool) :
    SameControl (p.drain pastSoft) (p'.drain pastSoft) := by
  unfold Pool.drain
  rw [h.draining]
  split
  · have hdrop := h.dropQueue .soft
    exact ⟨hdrop.queued, hdrop.active, rfl, hdrop.stopped, hdrop.cancelled, hdrop.unstarted,
      hdrop.stops⟩
  · exact h

omit [DecidableEq α] in
theorem SameControl.fill {p p' : Pool α} (h : SameControl p p') :
    SameControl (p.fill width) (p'.fill width) := by
  have hroom : p.room width = p'.room width := by simp [Pool.room, h.draining, h.active]
  exact
    { queued := by simp [Pool.fill, hroom, h.queued]
      active := by simp [Pool.fill, hroom, h.queued, h.active]
      draining := h.draining
      stopped := h.stopped
      cancelled := h.cancelled
      unstarted := h.unstarted
      stops := h.stops }

omit [DecidableEq α] in
theorem SameControl.abandon (horder : ∀ units, (order units).Perm units) {p p' : Pool α}
    (h : SameControl p p') (stop : Stop) :
    SameControl (p.abandon order stop) (p'.abandon order stop) where
  queued := h.queued
  active := rfl
  draining := h.draining
  stopped := rfl
  cancelled := h.cancelled
  unstarted := h.unstarted
  stops := by
    have hlength : (order p.active).length = (order p'.active).length := by
      rw [(horder p.active).length_eq, (horder p'.active).length_eq, h.active]
    have hconst : ∀ units : List α, (units.map fun a => (a, stop)).map Prod.snd =
        List.replicate units.length stop := by
      intro units
      induction units with
      | nil => rfl
      | cons a units ih => simpa [List.replicate_succ] using ih
    simp only [Pool.abandon, List.map_append, h.stops, hconst, hlength]

omit [DecidableEq α] in
theorem SameControl.prepare (horder : ∀ units, (order units).Perm units) {p p' : Pool α}
    (h : SameControl p p') {t t' : Turn α} (ht : t.skeleton = t'.skeleton) :
    SameControl (p.prepare width order t) (p'.prepare width order t') := by
  simp only [Turn.skeleton, Prod.mk.injEq] at ht
  obtain ⟨hcancelled, hsoft, hpast, -⟩ := ht
  have hdrain := h.drain t'.pastSoft
  have hfill := @SameControl.fill _ width _ _ hdrain
  have hempty : ((p.drain t'.pastSoft).fill width).active.isEmpty =
      ((p'.drain t'.pastSoft).fill width).active.isEmpty := by
    rw [Bool.eq_iff_iff, List.isEmpty_iff_length_eq_zero, List.isEmpty_iff_length_eq_zero,
      hfill.active]
  unfold Pool.prepare
  rw [hcancelled, hsoft, hpast]
  dsimp only
  rw [hdrain.draining, hempty]
  split
  · have hdrop := (h.dropQueue .cancelled).abandon horder .cancelled
    exact ⟨hdrop.queued, hdrop.active, hdrop.draining, hdrop.stopped, rfl, hdrop.unstarted,
      hdrop.stops⟩
  · split
    · exact hdrain.abandon horder .drain
    · split
      · exact ⟨hfill.queued, hfill.active, hfill.draining, rfl, hfill.cancelled, hfill.unstarted,
          hfill.stops⟩
      · exact hfill

theorem SameControl.finish {p p' : Pool α} (h : SameControl p p') {a a' : α}
    (ha : a ∈ p.active) (ha' : a' ∈ p'.active) : SameControl (p.finish a) (p'.finish a') := by
  have hlength : (p.active.erase a).length = (p'.active.erase a').length := by
    rw [List.length_erase_of_mem ha, List.length_erase_of_mem ha', h.active]
  unfold Pool.finish
  rw [if_pos ha, if_pos ha', h.draining]
  split <;>
    exact ⟨h.queued, hlength, rfl, h.stopped, h.cancelled, h.unstarted, h.stops⟩

theorem SameControl.step (horder : ∀ units, (order units).Perm units) {p p' : Pool α}
    (h : SameControl p p') {t t' : Turn α} (ht : t.skeleton = t'.skeleton)
    (hvalid : Completes width order p t) (hvalid' : Completes width order p' t') :
    SameControl (p.step width order t) (p'.step width order t') := by
  have hprepare := @SameControl.prepare _ width _ horder _ _ h _ _ ht
  have hcompleted : t.completed.isSome = t'.completed.isSome := by
    simp only [Turn.skeleton, Prod.mk.injEq] at ht
    exact ht.2.2.2
  unfold Pool.step
  rw [h.stopped]
  split
  · exact h
  · dsimp only
    rw [hprepare.stopped]
    split
    · exact hprepare
    · cases ha : t.completed with
      | none =>
        have ha' : t'.completed = none := by simpa [ha] using hcompleted.symm
        simpa [ha'] using hprepare
      | some a =>
        obtain ⟨a', ha'⟩ : ∃ a', t'.completed = some a' := by
          rw [← Option.isSome_iff_exists, ← hcompleted, ha]
          rfl
        simpa only [ha'] using hprepare.finish (hvalid a ha).2.2 (hvalid' a' ha').2.2

theorem sameControl_exec (horder : ∀ units, (order units).Perm units) {p p' : Pool α}
    (h : SameControl p p') {turns turns' : List (Turn α)}
    (hskeleton : turns.map Turn.skeleton = turns'.map Turn.skeleton)
    (hvalid : Guarded (Pool.step width order) (Completes width order) p turns)
    (hvalid' : Guarded (Pool.step width order) (Completes width order) p' turns') :
    SameControl (exec (Pool.step width order) p turns)
      (exec (Pool.step width order) p' turns') := by
  induction turns generalizing p p' turns' with
  | nil =>
    cases turns' with
    | nil => exact h
    | cons t' turns' => cases hskeleton
  | cons t turns ih =>
    cases turns' with
    | nil => cases hskeleton
    | cons t' turns' =>
      rw [List.map_cons, List.map_cons, List.cons.injEq] at hskeleton
      exact ih (h.step horder hskeleton.1 hvalid.1 hvalid'.1) hskeleton.2 hvalid.2 hvalid'.2

/-- What is in flight is abandoned once, in the given order. -/
structure AbandonedOnce (order : List α → List α) (p : Pool α) : Prop where
  running : p.stopped = false → p.abandoned = []
  once : ∃ units stop, p.abandoned = (order units).map fun a => (a, stop)

theorem abandonedOnce_step (horder : ∀ units, (order units).Perm units) {p : Pool α}
    (hp : AbandonedOnce order p) (t : Turn α) :
    AbandonedOnce order (p.step width order t) := by
  have hnil : order [] = [] := (horder []).eq_nil
  have hnone : ∀ q : Pool α, q.abandoned = [] → AbandonedOnce order q := by
    intro q hq
    exact ⟨fun _ => hq, [], .soft, by rw [hq, hnil, List.map_nil]⟩
  have habandon : ∀ (q : Pool α) (stop : Stop), q.abandoned = [] →
      AbandonedOnce order (q.abandon order stop) := by
    intro q stop hq
    refine ⟨fun h => absurd h (by simp [Pool.abandon]), q.active, stop, ?_⟩
    simp [Pool.abandon, hq]
  unfold Pool.step
  split
  · exact hp
  · next hrun =>
    have hempty : p.abandoned = [] := hp.running (by simpa using hrun)
    have hdrain : (p.drain t.pastSoft).abandoned = [] := by
      unfold Pool.drain
      split <;> exact hempty
    have hprepare : AbandonedOnce order (p.prepare width order t) := by
      unfold Pool.prepare
      split
      · have hdropped := habandon (p.dropQueue .cancelled) .cancelled hempty
        exact ⟨hdropped.running, hdropped.once⟩
      · dsimp only
        split
        · exact habandon _ .drain hdrain
        · split <;> exact hnone _ hdrain
    dsimp only
    split
    · exact hprepare
    · next hgoes =>
      have hgone := hprepare.running (by simpa using hgoes)
      split
      · apply hnone
        unfold Pool.finish
        split
        · split <;> exact hgone
        · exact hgone
      · exact hprepare

omit [DecidableEq α] in
theorem eq_of_map_fst_snd {β : Type*} {xs ys : List (α × β)}
    (hfst : xs.map Prod.fst = ys.map Prod.fst) (hsnd : xs.map Prod.snd = ys.map Prod.snd) :
    xs = ys := by
  induction xs generalizing ys with
  | nil => simpa using hfst.symm
  | cons x xs ih =>
    cases ys with
    | nil => cases hfst
    | cons y ys =>
      rw [List.map_cons, List.map_cons, List.cons.injEq] at hfst hsnd
      rw [Prod.ext hfst.1 hsnd.1, ih hfst.2 hsnd.2]

/-- Runs that differ in the order of completion only drop the same units for the same reasons, in
the same order. -/
theorem reordered_exec (hwidth : 0 < width) (horder : ∀ units, (order units).Perm units)
    {planned : List α}
    (hcanonical : ∀ units units', units.Perm units' → units ⊆ planned → order units = order units')
    {turns turns' : List (Turn α)} (hreordered : Reordered turns turns')
    (hvalid : Guarded (Pool.step width order) (Completes width order) (Pool.initial planned) turns)
    (hvalid' : Guarded (Pool.step width order) (Completes width order) (Pool.initial planned)
      turns')
    (hstopped : (exec (Pool.step width order) (Pool.initial planned) turns).stopped = true) :
    let p := exec (Pool.step width order) (Pool.initial planned) turns
    let p' := exec (Pool.step width order) (Pool.initial planned) turns'
    SameControl p p' ∧ p.early.Perm p'.early ∧ p.late.Perm p'.late ∧
      p.abandoned = p'.abandoned := by
  intro p p'
  have hcontrol : SameControl p p' := sameControl_exec horder ⟨rfl, rfl, rfl, rfl, rfl, rfl, rfl⟩
    hreordered.skeleton hvalid hvalid'
  have hrecorded := recorded_exec hvalid
  have hrecorded' := recorded_exec hvalid'
  have hearly : p.early.Perm p'.early := by
    change (exec (Pool.step width order) (Pool.initial planned) turns).early.Perm
      (exec (Pool.step width order) (Pool.initial planned) turns').early
    rw [hrecorded.1, hrecorded'.1]
    exact hreordered.early
  have hlate : p.late.Perm p'.late := by
    change (exec (Pool.step width order) (Pool.initial planned) turns).late.Perm
      (exec (Pool.step width order) (Pool.initial planned) turns').late
    rw [hrecorded.2, hrecorded'.2]
    exact hreordered.late
  refine ⟨hcontrol, hearly, hlate, ?_⟩
  have hall : (p.early ++ p.late ++ p.unstarted.map Prod.fst ++ p.abandoned.map Prod.fst).Perm
      planned := accounted_exec hwidth horder hstopped
  have hall' : (p'.early ++ p'.late ++ p'.unstarted.map Prod.fst ++
      p'.abandoned.map Prod.fst).Perm planned :=
    accounted_exec hwidth horder (hcontrol.stopped.symm.trans hstopped)
  have hrest : (p.early ++ p.late ++ p.unstarted.map Prod.fst).Perm
      (p'.early ++ p'.late ++ p'.unstarted.map Prod.fst) := by
    rw [hcontrol.unstarted]
    exact (hearly.append hlate).append_right _
  have hgone : (p.abandoned.map Prod.fst).Perm (p'.abandoned.map Prod.fst) := by
    have hboth := hall.trans hall'.symm
    exact (List.perm_append_left_iff _).mp ((hrest.symm.append_right _).trans hboth)
  have honce : AbandonedOnce order p ∧ AbandonedOnce order p' := by
    have hinitial : AbandonedOnce order (Pool.initial planned) :=
      ⟨fun _ => rfl, [], .soft, by rw [(horder []).eq_nil]; rfl⟩
    exact ⟨exec_invariant (I := AbandonedOnce order)
        (fun p t hp => abandonedOnce_step horder hp t) hinitial turns,
      exec_invariant (I := AbandonedOnce order)
        (fun p t hp => abandonedOnce_step horder hp t) hinitial turns'⟩
  obtain ⟨units, stop, habandoned⟩ := honce.1.once
  obtain ⟨units', stop', habandoned'⟩ := honce.2.once
  apply eq_of_map_fst_snd _ hcontrol.stops
  rw [habandoned, habandoned', map_fst_pair, map_fst_pair] at hgone ⊢
  apply hcanonical
  · exact (horder units).symm.trans (hgone.trans (horder units'))
  · intro a ha
    apply hall.subset
    rw [List.mem_append]
    right
    rw [habandoned, map_fst_pair]
    exact (horder units).mem_iff.mpr ha

end Order

end TinySweeper.Dispatch
