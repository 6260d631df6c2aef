import TinySweeper.Lanes.Fanout
import TinySweeper.Linkage

/-!
# The bounded fan-out

Results are kept by position and folded in input order. Every unit is accounted
for, and the order in which units complete does not show.
-/

namespace TinySweeper.Lanes

open Text Findings App Runs Linkage

variable {κ : Type} {units : ℕ} {result : ℕ → UnitResult κ}
variable {label : ℕ → Text} {memberPaths : ℕ → List Text}

theorem accounts_foldl {step : FanOut κ → ℕ → FanOut κ}
    (hstep : ∀ f filed index, f.Accounts filed →
      (step f index).Accounts (filed ++ [memberPaths index]))
    {f : FanOut κ} {filed : List (List Text)} (h : f.Accounts filed) (indices : List ℕ) :
    (indices.foldl step f).Accounts (filed ++ indices.map memberPaths) := by
  induction indices generalizing f filed with
  | nil => simpa using h
  | cons index indices ih =>
    rw [List.foldl_cons, List.map_cons, List.append_cons]
    exact ih (hstep f filed index h)

theorem accounts_fanOut (s : Bounded κ) :
    (s.fanOut units label memberPaths).Accounts ((List.range units).map memberPaths) := by
  refine accounts_foldl (fun f filed index h => ?_) FanOut.accounts_empty (List.range units)
  split
  · exact h.record _ _ _
  · exact h.leaveOut _ _

/-- A unit completes only in a turn that waits, and only when it is in flight. -/
def Bounded.Completes (units : ℕ) (s : Bounded κ) (t : Turn) : Prop :=
  ∀ index, t.completed = some index →
    s.stopped = false ∧ (s.prepare units t).stopped = false ∧ index ∈ (s.prepare units t).active

/-- The units that never complete are in flight from their start until the loop stops. -/
structure Bounded.Pending (done : List ℕ) (s : Bounded κ) : Prop where
  paths : s.activePaths = s.active
  active : s.stopped = false → ∀ index, index ∉ done → (index ∈ s.active ↔ index < s.next)

/-- States that differ only in what they record of the units that complete. -/
structure Bounded.Alike (done : List ℕ) (s s' : Bounded κ) : Prop where
  next : s.next = s'.next
  active : s.active.length = s'.active.length
  draining : s.draining = s'.draining
  stopped : s.stopped = s'.stopped
  omitted : ∀ index, index ∉ done → (s.omitted)[index]? = (s'.omitted)[index]?
  pending : s.Pending done
  pending' : s'.Pending done

theorem getElem?_skip (s : Bounded κ) (reason : OmissionReason) (index : ℕ) :
    ((s.skip reason).omitted)[index]? =
      if index < s.next then (s.omitted)[index]?
      else (s.omitted)[index]?.map fun _ => some reason := by
  simp only [Bounded.skip]
  by_cases hindex : index < s.next
  · rw [if_pos hindex]
    by_cases hlength : index < s.omitted.length
    · rw [List.getElem?_append_left (by simp; omega), List.getElem?_take_of_lt hindex]
    · rw [List.getElem?_eq_none (by simp; omega), List.getElem?_eq_none (by omega)]
  · rw [if_neg hindex]
    by_cases hlength : s.next ≤ s.omitted.length
    · rw [List.getElem?_append_right (by simp; omega), List.getElem?_map, List.getElem?_drop]
      congr 2
      simp
      omega
    · rw [List.getElem?_eq_none (by simp; omega), List.getElem?_eq_none (by omega)]
      rfl

theorem getElem?_omitActive (s : Bounded κ) (reason : OmissionReason) (index : ℕ) :
    ((s.omitActive reason).omitted)[index]? =
      (s.omitted)[index]?.map fun old => if index ∈ s.activePaths then some reason else old :=
  getElem?_foldl_modify (f := fun _ => some reason) (fun _ => rfl) s.activePaths s.omitted index

section Lockstep

variable {done : List ℕ} {s s' : Bounded κ}

theorem Bounded.Alike.skip (h : s.Alike done s') (reason : OmissionReason) :
    (s.skip reason).Alike done (s'.skip reason) where
  next := h.next
  active := h.active
  draining := h.draining
  stopped := h.stopped
  omitted index hindex := by
    rw [getElem?_skip, getElem?_skip, h.next, h.omitted index hindex]
  pending := ⟨h.pending.paths, h.pending.active⟩
  pending' := ⟨h.pending'.paths, h.pending'.active⟩

/-- Stopping abandons, of the units that never complete, the same ones. -/
theorem Bounded.Alike.abandon (h : s.Alike done s') (hrun : s.stopped = false)
    (reason : OmissionReason) :
    Bounded.Alike done { s.omitActive reason with stopped := true }
      { s'.omitActive reason with stopped := true } where
  next := h.next
  active := h.active
  draining := h.draining
  stopped := rfl
  omitted index hindex := by
    have hactive : index ∈ s.activePaths ↔ index ∈ s'.activePaths := by
      rw [h.pending.paths, h.pending'.paths, h.pending.active hrun index hindex,
        h.pending'.active (h.stopped ▸ hrun) index hindex, h.next]
    change ((s.omitActive reason).omitted)[index]? = ((s'.omitActive reason).omitted)[index]?
    rw [getElem?_omitActive, getElem?_omitActive, h.omitted index hindex]
    simp only [hactive]
  pending := ⟨h.pending.paths, fun hstopped => absurd hstopped.symm Bool.false_ne_true⟩
  pending' := ⟨h.pending'.paths, fun hstopped => absurd hstopped.symm Bool.false_ne_true⟩

theorem Bounded.Alike.drain (h : s.Alike done s') (pastSoft : Bool) :
    (s.drain pastSoft).Alike done (s'.drain pastSoft) := by
  unfold Bounded.drain
  rw [h.draining]
  split
  · have hskip := h.skip .softDeadline
    exact ⟨hskip.next, hskip.active, rfl, hskip.stopped, hskip.omitted,
      ⟨hskip.pending.paths, hskip.pending.active⟩, ⟨hskip.pending'.paths, hskip.pending'.active⟩⟩
  · exact h

theorem Bounded.Pending.start (h : s.Pending done) :
    Bounded.Pending done
      { s with
        next := s.next + 1
        active := s.active ++ [s.next]
        activePaths := s.activePaths ++ [s.next] } where
  paths := by simp [h.paths]
  active hrun index hindex := by
    have hactive := h.active hrun index hindex
    simp only [List.mem_append, List.mem_singleton, hactive]
    omega

theorem Bounded.Alike.start (h : s.Alike done s') (fuel : ℕ) :
    (s.start units fuel).Alike done (s'.start units fuel) := by
  induction fuel generalizing s s' with
  | zero => exact h
  | succ fuel ih =>
    have hroom : (!s.draining && s.active.length < MAX_CONCURRENT_FILES && s.next < units) =
        (!s'.draining && s'.active.length < MAX_CONCURRENT_FILES && s'.next < units) := by
      rw [h.draining, h.active, h.next]
    unfold Bounded.start
    rw [hroom]
    split
    · apply ih
      exact ⟨by simp [h.next], by simp [h.active], h.draining, h.stopped, h.omitted,
        h.pending.start, h.pending'.start⟩
    · exact h

theorem Bounded.Alike.prepare (h : s.Alike done s') (hrun : s.stopped = false) {t t' : Turn}
    (ht : t.skeleton = t'.skeleton) : (s.prepare units t).Alike done (s'.prepare units t') := by
  simp only [Dispatch.Turn.skeleton, Prod.mk.injEq] at ht
  obtain ⟨hcancelled, hsoft, hpast, -⟩ := ht
  have hdrain := h.drain t'.pastSoft
  have hdrainRun : (s.drain t'.pastSoft).stopped = false := by
    unfold Bounded.drain
    split <;> exact hrun
  have hstart := @Bounded.Alike.start _ units _ _ _ hdrain MAX_CONCURRENT_FILES
  have hempty : ((s.drain t'.pastSoft).start units MAX_CONCURRENT_FILES).active.isEmpty =
      ((s'.drain t'.pastSoft).start units MAX_CONCURRENT_FILES).active.isEmpty := by
    rw [Bool.eq_iff_iff, List.isEmpty_iff_length_eq_zero, List.isEmpty_iff_length_eq_zero,
      hstart.active]
  have hover : (decide (((s.drain t'.pastSoft).start units MAX_CONCURRENT_FILES).next ≥ units) ||
        ((s.drain t'.pastSoft).start units MAX_CONCURRENT_FILES).draining) =
      (decide (((s'.drain t'.pastSoft).start units MAX_CONCURRENT_FILES).next ≥ units) ||
        ((s'.drain t'.pastSoft).start units MAX_CONCURRENT_FILES).draining) := by
    rw [hstart.next, hstart.draining]
  unfold Bounded.prepare
  rw [hcancelled, hsoft, hpast]
  dsimp only
  rw [hdrain.draining, hempty, hover]
  split
  · exact (h.skip .cancelled).abandon hrun .cancelled
  · split
    · exact hdrain.abandon hdrainRun .drainDeadline
    · split
      · split
        · exact ⟨hstart.next, hstart.active, hstart.draining, rfl, hstart.omitted,
            ⟨hstart.pending.paths, fun hstopped => absurd hstopped.symm Bool.false_ne_true⟩,
            ⟨hstart.pending'.paths, fun hstopped => absurd hstopped.symm Bool.false_ne_true⟩⟩
        · exact hstart
      · exact hstart

theorem Bounded.Pending.complete (h : s.Pending done) {index : ℕ} (hindex : index ∈ done) :
    (s.complete result index).Pending done := by
  unfold Bounded.complete
  split
  · refine ⟨by simp [h.paths], fun hrun other hother => ?_⟩
    have hne : other ≠ index := fun heq => hother (heq ▸ hindex)
    exact (List.mem_erase_of_ne hne).trans (h.active hrun other hother)
  · exact h

theorem Bounded.Alike.complete (h : s.Alike done s') {index index' : ℕ}
    (hactive : index ∈ s.active) (hactive' : index' ∈ s'.active) (hdone : index ∈ done)
    (hdone' : index' ∈ done) :
    (s.complete result index).Alike done (s'.complete result index') := by
  have hpending := @Bounded.Pending.complete _ result _ _ h.pending _ hdone
  have hpending' := @Bounded.Pending.complete _ result _ _ h.pending' _ hdone'
  unfold Bounded.complete at hpending hpending' ⊢
  rw [if_pos hactive] at hpending ⊢
  rw [if_pos hactive'] at hpending' ⊢
  exact ⟨h.next, by simp [List.length_erase_of_mem, hactive, hactive', h.active], h.draining,
    h.stopped, h.omitted, hpending, hpending'⟩

theorem Bounded.Alike.turn (h : s.Alike done s') {t t' : Turn} (ht : t.skeleton = t'.skeleton)
    (hvalid : s.Completes units t) (hvalid' : s'.Completes units t')
    (hdone : ∀ index, t.completed = some index → index ∈ done)
    (hdone' : ∀ index, t'.completed = some index → index ∈ done) :
    (s.turn units result t).Alike done (s'.turn units result t') := by
  have hcompleted : t.completed.isSome = t'.completed.isSome := by
    simp only [Dispatch.Turn.skeleton, Prod.mk.injEq] at ht
    exact ht.2.2.2
  unfold Bounded.turn
  rw [← h.stopped]
  split
  · exact h
  · next hrun =>
    have hprepare := @Bounded.Alike.prepare _ units _ _ _ h (by simpa using hrun) _ _ ht
    dsimp only
    rw [hprepare.stopped]
    split
    · exact hprepare
    · cases ha : t.completed with
      | none =>
        have ha' : t'.completed = none := by simpa [ha] using hcompleted.symm
        simpa [ha'] using hprepare
      | some index =>
        obtain ⟨index', ha'⟩ : ∃ index', t'.completed = some index' := by
          rw [← Option.isSome_iff_exists, ← hcompleted, ha]
          rfl
        simpa only [ha'] using hprepare.complete (hvalid index ha).2.2 (hvalid' index' ha').2.2
          (hdone index ha) (hdone' index' ha')

end Lockstep

theorem results_prepare (s : Bounded κ) (t : Turn) : (s.prepare units t).results = s.results := by
  have hstart : ∀ fuel (s : Bounded κ), (s.start units fuel).results = s.results := by
    intro fuel
    induction fuel with
    | zero => exact fun _ => rfl
    | succ fuel ih =>
      intro s
      unfold Bounded.start
      split
      · exact ih _
      · rfl
  have hdrain : (s.drain t.pastSoft).results = s.results := by
    unfold Bounded.drain
    split <;> rfl
  unfold Bounded.prepare
  split
  · rfl
  · dsimp only
    split
    · exact hdrain
    · split
      · split <;> exact (hstart _ _).trans hdrain
      · exact (hstart _ _).trans hdrain

theorem results_turn {s : Bounded κ} {t : Turn} (hvalid : s.Completes units t) :
    (s.turn units result t).results =
      t.completed.toList.foldl
        (fun results index => results.modify index fun _ => some (result index)) s.results := by
  cases ha : t.completed with
  | none =>
    unfold Bounded.turn
    split
    · rfl
    · simp [ha, results_prepare]
  | some index =>
    obtain ⟨hrun, hgoes, hactive⟩ := hvalid index ha
    unfold Bounded.turn
    rw [if_neg (by simp [hrun])]
    dsimp only
    rw [if_neg (by simp [hgoes]), ha]
    dsimp only
    rw [Bounded.complete, if_pos hactive]
    simp [results_prepare, List.set_eq_modify]

/-- The results of a valid run: those of the units that completed. -/
theorem results_exec {s : Bounded κ} {turns : List Turn}
    (hvalid : Guarded (Bounded.turn units result) (Bounded.Completes units) s turns) :
    (exec (Bounded.turn units result) s turns).results =
      (Dispatch.completions turns).foldl
        (fun results index => results.modify index fun _ => some (result index)) s.results := by
  induction turns generalizing s with
  | nil => rfl
  | cons t turns ih =>
    rw [exec_cons, ih hvalid.2, results_turn hvalid.1, Dispatch.completions_cons,
      List.foldl_append]

theorem getElem?_results {indices : List ℕ} (results : List (Option (UnitResult κ))) (i : ℕ) :
    (indices.foldl (fun results index => results.modify index fun _ => some (result index))
        results)[i]? =
      results[i]?.map fun old => if i ∈ indices then some (result i) else old := by
  induction indices generalizing results with
  | nil => simp
  | cons index indices ih =>
    rw [List.foldl_cons, ih, List.getElem?_modify]
    by_cases hindex : index = i
    · subst hindex
      cases results[index]? <;> simp
    · cases results[i]? <;> simp [hindex, Ne.symm hindex]

theorem alike_exec {done : List ℕ} {s s' : Bounded κ} (h : s.Alike done s')
    {turns turns' : List Turn}
    (hskeleton : turns.map Dispatch.Turn.skeleton = turns'.map Dispatch.Turn.skeleton)
    (hvalid : Guarded (Bounded.turn units result) (Bounded.Completes units) s turns)
    (hvalid' : Guarded (Bounded.turn units result) (Bounded.Completes units) s' turns')
    (hdone : Dispatch.completions turns ⊆ done) (hdone' : Dispatch.completions turns' ⊆ done) :
    (exec (Bounded.turn units result) s turns).Alike done
      (exec (Bounded.turn units result) s' turns') := by
  induction turns generalizing s s' turns' with
  | nil =>
    cases turns' with
    | nil => exact h
    | cons t' turns' => cases hskeleton
  | cons t turns ih =>
    cases turns' with
    | nil => cases hskeleton
    | cons t' turns' =>
      rw [List.map_cons, List.map_cons, List.cons.injEq] at hskeleton
      rw [Dispatch.completions_cons] at hdone hdone'
      have hfirst : ∀ index, t.completed = some index → index ∈ done := by
        intro index ha
        exact hdone (List.mem_append_left _ (by simp [ha]))
      have hfirst' : ∀ index, t'.completed = some index → index ∈ done := by
        intro index ha
        exact hdone' (List.mem_append_left _ (by simp [ha]))
      exact ih (h.turn hskeleton.1 hvalid.1 hvalid'.1 hfirst hfirst') hskeleton.2 hvalid.2 hvalid'.2
        (fun _ hmem => hdone (List.mem_append_right _ hmem))
        (fun _ hmem => hdone' (List.mem_append_right _ hmem))

/-- Scheduling does not show in the results of a bounded fan-out. -/
theorem perUnitBounded_reordered {turns turns' : List Turn}
    (hreordered : Dispatch.Reordered turns turns')
    (hvalid : Guarded (Bounded.turn units result) (Bounded.Completes units)
      (Bounded.initial units) turns)
    (hvalid' : Guarded (Bounded.turn units result) (Bounded.Completes units)
      (Bounded.initial units) turns') :
    perUnitBounded units result label memberPaths turns =
      perUnitBounded units result label memberPaths turns' := by
  have hperm := hreordered.completions
  have hinitial : (Bounded.initial units : Bounded κ).Pending (Dispatch.completions turns) :=
    ⟨rfl, fun _ index _ => by simp [Bounded.initial]⟩
  have halike := @alike_exec _ _ result (Dispatch.completions turns) _ _
    ⟨rfl, rfl, rfl, rfl, fun _ _ => rfl, hinitial, hinitial⟩ _ _ hreordered.skeleton hvalid hvalid'
    (List.Subset.refl _) hperm.symm.subset
  unfold perUnitBounded Bounded.fanOut
  apply List.foldl_ext
  intro out index hindex
  have hresult : ((exec (Bounded.turn units result) (Bounded.initial units) turns).results)[index]? =
      ((exec (Bounded.turn units result) (Bounded.initial units) turns').results)[index]? := by
    rw [results_exec hvalid, results_exec hvalid', getElem?_results, getElem?_results]
    simp only [hperm.mem_iff]
  rw [← hresult]
  by_cases hmem : index ∈ Dispatch.completions turns
  · have hfiled : ((exec (Bounded.turn units result) (Bounded.initial units)
        turns).results)[index]? = some (some (result index)) := by
      rw [results_exec hvalid, getElem?_results]
      simp [Bounded.initial, hmem, List.mem_range.mp hindex]
    rw [hfiled]
    rfl
  · rw [halike.omitted index hmem]

end TinySweeper.Lanes
