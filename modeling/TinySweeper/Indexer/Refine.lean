import TinySweeper.Indexer.Backed
import TinySweeper.Indexer.Run

/-!
# A run keeps to the protocol

Every write of a run, whatever calls fail and wherever the process stops, is one that the
protocol allows.
-/

namespace TinySweeper.Index

open Text Interrupt FileWork

/-- The writes that landed, and the stores they led to. -/
abbrev Track := List Effect × Stores

def Track.step (x : Track) (e : Effect) : Track := (x.1 ++ [e], e.apply x.2)

def Track.of (w : World Session Effect) : Track := (w.landed, w.state.stores)

/-- What holds after a call that may answer with an error. -/
def Answered {ε α : Type} (onOk : α → Track → IndexReport → Prop)
    (onError : Track → IndexReport → Prop) : Except ε α → Track → IndexReport → Prop
  | .ok a => onOk a
  | .error _ => onError

theorem foldl_apply (es : List Effect) (s : Session) :
    es.foldl (fun s e => Session.apply e s) s = ⟨es.foldl (fun s e => e.apply s) s.stores, s.report⟩ := by
  induction es generalizing s with
  | nil => rfl
  | cons e es ih => exact ih (s.apply e)

theorem foldl_step (es : List Effect) (x : Track) :
    es.foldl Track.step x = (x.1 ++ es, es.foldl (fun s e => e.apply s) x.2) := by
  induction es generalizing x with
  | nil => simp
  | cons e es ih =>
    rw [List.foldl_cons, ih]
    simp [Track.step]

theorem of_after (w : World Session Effect) (es : List Effect) (fate : Fate) :
    Track.of (w.after Session.apply es fate) = es.foldl Track.step (Track.of w) := by
  rw [foldl_step, Track.of, World.after, foldl_apply]
  simp [Track.of, World.landed]

theorem report_after (w : World Session Effect) (es : List Effect) (fate : Fate) :
    (w.after Session.apply es fate).state.report = w.state.report := by
  rw [World.after, foldl_apply]

namespace Task

variable {sha256 : Text → List UInt8} (t : Task sha256) (start : Stores) {r : IndexReport}

/-- The protocol led here, and this is what holds. -/
def At (φ : Track → IndexReport → Prop) (w : World Session Effect) : Prop :=
  t.Steps start (Track.of w).1 (Track.of w).2 ∧ φ (Track.of w) w.state.report

/-- Wherever a run is cut off, as it may be, the protocol led there. -/
def Cut (mayCut : Prop) (_ : Option Text) (w : World Session Effect) : Prop :=
  t.Steps start (Track.of w).1 (Track.of w).2 ∧ mayCut

variable {t start} {faults : Prop} {α : Type} {effects : Stores → List Effect}
variable {answer : Stores → α} {Q : α → Track → IndexReport → Prop}

theorem Steps.foldl {x : Track} (h : t.Steps start x.1 x.2) {es : List Effect}
    (hallows : ∀ before e after, es = before ++ e :: after →
      t.Allows (before.foldl Track.step x).1 (before.foldl Track.step x).2 e) :
    t.Steps start (es.foldl Track.step x).1 (es.foldl Track.step x).2 := by
  induction es using List.reverseRecOn with
  | nil => exact h
  | append_singleton es e ih =>
    have hbefore := ih fun before e' after hes => by
      refine hallows before e' (after ++ [e]) ?_
      rw [hes, List.append_assoc]
      rfl
    rw [List.foldl_append]
    exact hbefore.snoc (hallows es e [] rfl)

/-- A call keeps to the protocol if each of its writes does wherever some of those before it
landed. -/
theorem ensures_writes {x : Track} (hsteps : t.Steps start x.1 x.2)
    (hallows : ∀ before e, (before ++ [e]).Sublist (effects x.2) →
      t.Allows (before.foldl Track.step x).1 (before.foldl Track.step x).2 e)
    (hdone : Q (answer x.2) ((effects x.2).foldl Track.step x) r) :
    Ensures faults (fun w => Track.of w = x ∧ w.state.report = r) (Port.call effects answer)
      (fun a => t.At start (Q a)) (t.Cut start faults) := by
  have hcut : ∀ es : List Effect, es.Sublist (effects x.2) →
      t.Steps start (es.foldl Track.step x).1 (es.foldl Track.step x).2 := by
    intro es hes
    refine hsteps.foldl fun before e after heq => hallows before e (.trans ?_ hes)
    rw [heq.trans (List.append_cons before e after)]
    exact List.sublist_append_left _ _
  refine ensures_perform ?_ ?_
  · rintro w ⟨rfl, rfl⟩
    refine ⟨?_, ?_⟩
    · rw [of_after]
      exact hcut _ (.refl _)
    · rw [of_after, report_after]
      exact hdone
  · rintro hfaults w ⟨rfl, rfl⟩ es hes
    refine ⟨fun _ => ⟨?_, hfaults⟩, ⟨?_, hfaults⟩⟩ <;> rw [of_after] <;> exact hcut es hes

/-- It is enough that each write keeps to the protocol wherever the others may have landed;
what each of them brings about holds once the call went through. -/
theorem ensures_call {x : Track} {J : Track → Prop} {K : Effect → Track → Prop}
    (hsteps : t.Steps start x.1 x.2) (hJ : J x) (hstep : ∀ e ∈ effects x.2, ∀ y : Track, J y →
      t.Allows y.1 y.2 e ∧ J (y.step e) ∧ K e (y.step e))
    (hkeep : ∀ e ∈ effects x.2, ∀ e' ∈ effects x.2, ∀ y : Track, J y → K e y → K e (y.step e'))
    (hdone : ∀ y, J y → (∀ e ∈ effects x.2, K e y) → Q (answer x.2) y r) :
    Ensures faults (fun w => Track.of w = x ∧ w.state.report = r) (Port.call effects answer)
      (fun a => t.At start (Q a)) (t.Cut start faults) := by
  have hboth : ∀ es : List Effect, es.Sublist (effects x.2) →
      J (es.foldl Track.step x) ∧ ∀ e ∈ es, K e (es.foldl Track.step x) := by
    intro es hes
    refine foldl_each (fun e he y hy => (hstep e (hes.subset he) y hy).2) ?_ hJ
    exact fun e he e' he' => hkeep e (hes.subset he) e' (hes.subset he')
  refine ensures_writes hsteps (fun before e hes => ?_) ?_
  · have he := hes.subset (List.mem_append_right _ (List.mem_singleton_self e))
    exact (hstep e he _ (hboth before ((List.sublist_append_left _ _).trans hes)).1).1
  · obtain ⟨hlast, hall⟩ := hboth _ (.refl _)
    exact hdone _ hlast hall

/-- A read changes nothing. -/
theorem ensures_read {x : Track} (hsteps : t.Steps start x.1 x.2) (h : Q (answer x.2) x r) :
    Ensures faults (fun w => Track.of w = x ∧ w.state.report = r) (Port.read answer)
      (fun a => t.At start (Q a)) (t.Cut start faults) :=
  ensures_call (J := fun y => y = x) (K := fun _ _ => True) hsteps rfl nofun nofun
    fun _ hy _ => hy ▸ h

theorem ensures_tell {φ : Track → IndexReport → Prop} {f : IndexReport → IndexReport}
    {Q : PUnit → Track → IndexReport → Prop} (h : ∀ x r, φ x r → Q .unit x (f r)) :
    Ensures faults (t.At start φ) (tell f) (fun a => t.At start (Q a)) (t.Cut start faults) :=
  ensures_modify fun _ hw => ⟨hw.1, h _ _ hw.2⟩

/-- A program is considered from one place at a time. -/
theorem ensures_at {φ : Track → IndexReport → Prop} {p : Port α}
    {Q : α → World Session Effect → Prop} {X : Option Text → World Session Effect → Prop}
    (h : ∀ x r, t.Steps start x.1 x.2 → φ x r →
      Ensures faults (fun w => Track.of w = x ∧ w.state.report = r) p Q X) :
    Ensures faults (t.At start φ) p Q X :=
  ensures_of_forall fun _ hw => (h _ _ hw.1 hw.2).weaken (fun _ hw => hw ▸ ⟨rfl, rfl⟩)
    (fun _ _ h => h) fun _ _ h => h

variable (t) in
/-- Records of these files, and nothing else, were written. -/
structure Recorded (files : List FileWork) (g : FileWork → IndexedFile) (x y : Track) : Prop where
  rows : y.2.rows = x.2.rows
  record : ∀ f ∈ files, t.record y.2 f.path = some (g f)
  others : ∀ path, (∀ f ∈ files, f.path ≠ path) → t.record y.2 path = t.record x.2 path
  closed : ∀ path, leftOpen path x.1 = false → leftOpen path y.1 = false
  final : ∀ f ∈ files, (g f).isFinal = true → leftOpen f.path y.1 = false

theorem leftOpen_record {path : Text} {entry : FileEntry} {es : List Effect}
    (h : leftOpen path es = false) : leftOpen path (es ++ [.record entry]) = false := by
  rw [leftOpen_snoc, Effect.exposes]
  split
  · rfl
  · exact h

theorem leftOpen_record_final {path : Text} {entry : FileEntry} (es : List Effect)
    (hpath : entry.file.path = path) (hfinal : entry.file.isFinal = true) :
    leftOpen path (es ++ [.record entry]) = false := by
  rw [leftOpen_snoc, Effect.exposes, if_pos (by simp [hpath, hfinal])]
  rfl

theorem ensures_record {x : Track} {files : List FileWork} {g : FileWork → IndexedFile}
    (hpath : ∀ f, (g f).path = f.path) (hinj : ∀ f ∈ files, ∀ f' ∈ files, f.path = f'.path → f = f')
    (hsteps : t.Steps start x.1 x.2) (hallows : ∀ f ∈ files, ∀ y : Track, y.2.rows = x.2.rows →
      (t.record y.2 f.path = t.record x.2 f.path ∨ t.record y.2 f.path = some (g f)) →
      (∀ path, leftOpen path x.1 = false → leftOpen path y.1 = false) →
      t.Allows y.1 y.2 (.record (t.entry (g f)))) :
    Ensures faults (fun w => Track.of w = x ∧ w.state.report = r)
      (Port.record t.repo.text t.signature (files.map g))
      (fun _ => t.At start fun y r' => t.Recorded files g x y ∧ r' = r) (t.Cut start faults) := by
  have hmem : ∀ e ∈ (files.map g).map fun file => Effect.record ⟨t.repo.text, t.signature, file⟩,
      ∃ f ∈ files, e = .record (t.entry (g f)) := by
    intro e he
    obtain ⟨_, hfile, rfl⟩ := List.mem_map.mp he
    obtain ⟨f, hf, rfl⟩ := List.mem_map.mp hfile
    exact ⟨f, hf, rfl⟩
  refine ensures_call
    (J := fun y => y.2.rows = x.2.rows ∧
      (∀ f ∈ files, t.record y.2 f.path = t.record x.2 f.path ∨ t.record y.2 f.path = some (g f)) ∧
      (∀ path, (∀ f ∈ files, f.path ≠ path) → t.record y.2 path = t.record x.2 path) ∧
      ∀ path, leftOpen path x.1 = false → leftOpen path y.1 = false)
    (K := fun e y => ∀ f ∈ files, e = .record (t.entry (g f)) →
      t.record y.2 f.path = some (g f) ∧ ((g f).isFinal = true → leftOpen f.path y.1 = false))
    hsteps ⟨rfl, fun _ _ => .inl rfl, fun _ _ => rfl, fun _ h => h⟩ ?_ ?_ ?_
  · intro e he y ⟨hrows, hrecord, hothers, hclosed⟩
    obtain ⟨f, hf, rfl⟩ := hmem e he
    refine ⟨hallows f hf y hrows (hrecord f hf) hclosed, ⟨hrows, ?_, ?_, ?_⟩, ?_⟩
    · intro f' hf'
      rw [Track.step, record_entry, hpath]
      split
      next heq => exact .inr (by rw [hinj f' hf' f hf heq])
      next => exact hrecord f' hf'
    · intro path hne
      rw [Track.step, record_entry, hpath, if_neg fun heq => hne f hf heq.symm]
      exact hothers path hne
    · exact fun path hx => leftOpen_record (hclosed path hx)
    · intro f' hf' heq
      have hfile : g f = g f' := by
        injection heq with heq
        exact congrArg FileEntry.file heq
      rw [Track.step, record_entry, ← hpath f', hfile, if_pos rfl]
      exact ⟨rfl, fun hfinal => leftOpen_record_final _ rfl hfinal⟩
  · intro e he e' he' y _ hK f hf heq
    obtain ⟨f', hf', rfl⟩ := hmem e' he'
    obtain ⟨hold, hfinal⟩ := hK f hf heq
    refine ⟨?_, fun h => leftOpen_record (hfinal h)⟩
    rw [Track.step, record_entry, hpath]
    split
    next hsame => rw [hinj f hf f' hf' hsame]
    next => exact hold
  · intro y ⟨hrows, _, hothers, hclosed⟩ hall
    have hlanded : ∀ f ∈ files, t.record y.2 f.path = some (g f) ∧
        ((g f).isFinal = true → leftOpen f.path y.1 = false) :=
      fun f hf => hall _ (List.mem_map_of_mem (List.mem_map_of_mem hf)) f hf rfl
    exact ⟨⟨hrows, fun f hf => (hlanded f hf).1, hothers, hclosed, fun f hf => (hlanded f hf).2⟩, rfl⟩

variable (t) in
/-- These rows, and nothing else, were written. -/
structure Inserted (rows : List Row) (x y : Track) : Prop where
  record : ∀ path, t.record y.2 path = t.record x.2 path
  holds : ∀ id, t.Holds x.2 id → t.Holds y.2 id
  landed : ∀ row ∈ rows, t.Holds y.2 row.id
  open_eq : ∀ path, leftOpen path y.1 = leftOpen path x.1

theorem ensures_insert {x : Track} {r : IndexReport} {rows : Stores → List Row}
    (hsteps : t.Steps start x.1 x.2)
    (hrows : ∀ row ∈ rows x.2, row.signature = t.signature ∧ row.chunk.repoId = t.repo.text)
    (hallows : ∀ row ∈ rows x.2, ∀ y : Track, (∀ path, t.record y.2 path = t.record x.2 path) →
      t.Allows y.1 y.2 (.insert row)) :
    Ensures faults (fun w => Track.of w = x ∧ w.state.report = r)
      (Port.call (fun s => (rows s).map .insert) answer)
      (fun a => t.At start fun y r' => a = answer x.2 ∧ t.Inserted (rows x.2) x y ∧ r' = r)
      (t.Cut start faults) := by
  refine ensures_call
    (J := fun y => (∀ path, t.record y.2 path = t.record x.2 path) ∧
      (∀ id, t.Holds x.2 id → t.Holds y.2 id) ∧ ∀ path, leftOpen path y.1 = leftOpen path x.1)
    (K := fun e y => ∀ row ∈ rows x.2, e = .insert row → t.Holds y.2 row.id)
    hsteps ⟨fun _ => rfl, fun _ h => h, fun _ => rfl⟩ ?_ ?_ ?_
  · intro e he y ⟨hrecord, hholds, hopen⟩
    obtain ⟨row, hrow, rfl⟩ := List.mem_map.mp he
    obtain ⟨hsignature, hrepo⟩ := hrows row hrow
    refine ⟨hallows row hrow y hrecord, ⟨hrecord, ?_, ?_⟩, ?_⟩
    · exact fun id hid => (holds_insert hsignature hrepo).mpr (.inr (hholds id hid))
    · exact fun path => (leftOpen_of_exposes_none rfl).trans (hopen path)
    · intro row' _ heq
      injection heq with heq
      exact (holds_insert hsignature hrepo).mpr (.inl (heq ▸ rfl))
  · intro e _ e' he' y _ hK row hrow heq
    obtain ⟨row', hrow', rfl⟩ := List.mem_map.mp he'
    obtain ⟨hsignature, hrepo⟩ := hrows row' hrow'
    exact (holds_insert hsignature hrepo).mpr (.inr (hK row hrow heq))
  · intro y ⟨hrecord, hholds, hopen⟩ hall
    exact ⟨rfl, ⟨hrecord, hholds,
      fun row hrow => hall _ (List.mem_map_of_mem hrow) row hrow rfl, hopen⟩, rfl⟩

variable (t) in
/-- The rows that meet a test, and nothing else, were deleted. -/
structure Dropped (p : Row → Bool) (counted : Bool) (x y : Track) : Prop where
  record : ∀ path, t.record y.2 path = t.record x.2 path
  rows : ∀ row, row ∈ y.2.rows ↔ row ∈ x.2.rows ∧ p row = false
  closed : ∀ path, leftOpen path x.1 = false →
    (counted = true → ∀ row ∈ x.2.rows, p row = true → row.chunk.path ≠ path) →
    leftOpen path y.1 = false

theorem mem_rows_foldl_remove {row : Row} {counted : Bool} (rows : List Row) (x : Track) :
    row ∈ ((rows.map (Effect.remove · counted)).foldl Track.step x).2.rows ↔
      row ∈ x.2.rows ∧ row.id ∉ rows.map Row.id := by
  induction rows generalizing x with
  | nil => simp
  | cons row' rows ih =>
    rw [List.map_cons, List.foldl_cons, ih, Track.step, mem_rows_remove, List.map_cons,
      List.mem_cons, not_or, and_assoc]

theorem record_foldl_remove {path : Text} {counted : Bool} (rows : List Row) (x : Track) :
    t.record ((rows.map (Effect.remove · counted)).foldl Track.step x).2 path = t.record x.2 path := by
  induction rows generalizing x with
  | nil => rfl
  | cons row rows ih => exact ih _

theorem leftOpen_foldl_remove {path : Text} {counted : Bool} (rows : List Row) (x : Track)
    (h : leftOpen path x.1 = false) (hne : counted = true → ∀ row ∈ rows, row.chunk.path ≠ path) :
    leftOpen path ((rows.map (Effect.remove · counted)).foldl Track.step x).1 = false := by
  induction rows generalizing x with
  | nil => exact h
  | cons row rows ih =>
    refine ih _ ?_ fun hcounted row' hrow' => hne hcounted row' (List.mem_cons_of_mem _ hrow')
    rw [Track.step, leftOpen_of_exposes_none, h]
    cases counted with
    | false => rfl
    | true => exact if_neg (hne rfl row List.mem_cons_self)

theorem ensures_remove {x : Track} {p : Row → Bool} {counted : Bool}
    (hsteps : t.Steps start x.1 x.2) (hallows : ∀ row ∈ x.2.rows, p row = true → ∀ y : Track,
      (∀ path, t.record y.2 path = t.record x.2 path) → row ∈ y.2.rows →
      t.Allows y.1 y.2 (.remove row counted)) :
    Ensures faults (fun w => Track.of w = x ∧ w.state.report = r)
      (Port.call (fun s => (s.rows.values.filter p).map (.remove · counted)) answer)
      (fun a => t.At start fun y r' => a = answer x.2 ∧ t.Dropped p counted x y ∧ r' = r)
      (t.Cut start faults) := by
  have hnodup : ((x.2.rows.values.filter p).map Row.id).Nodup :=
    x.2.rows.nodup.sublist (List.filter_sublist.map _)
  refine ensures_writes hsteps (fun before e hsub => ?_) ⟨rfl, ⟨?_, ?_, ?_⟩, rfl⟩
  · obtain ⟨rows, hrows, heq⟩ := List.sublist_map_iff.mp hsub
    obtain ⟨gone, last, rfl, rfl, hlast⟩ := List.append_eq_map_iff.mp heq
    obtain ⟨row, rfl, rfl⟩ := List.map_eq_singleton_iff.mp hlast
    have hmem := List.mem_filter.mp (hrows.subset (List.mem_append_right _ (List.mem_singleton_self row)))
    refine hallows row hmem.1 hmem.2 _ (fun _ => record_foldl_remove _ _) ?_
    rw [mem_rows_foldl_remove]
    refine ⟨hmem.1, fun hgone => ?_⟩
    have hdistinct := hnodup.sublist (hrows.map Row.id)
    rw [List.map_append, List.nodup_append] at hdistinct
    exact hdistinct.2.2 _ hgone _ (List.mem_map_of_mem (List.mem_singleton_self row)) rfl
  · exact fun _ => record_foldl_remove _ _
  · intro row
    rw [mem_rows_foldl_remove]
    refine and_congr_right fun hrow => ?_
    rw [← Bool.not_eq_true]
    refine not_congr ⟨fun hid => ?_, fun hp => List.mem_map_of_mem (List.mem_filter.mpr ⟨hrow, hp⟩)⟩
    obtain ⟨row', hrow', hid⟩ := List.mem_map.mp hid
    obtain ⟨hmem, hp⟩ := List.mem_filter.mp hrow'
    exact Keyed.eq_of_key hmem hrow hid ▸ hp
  · intro path hopen hne
    refine leftOpen_foldl_remove _ _ hopen fun hcounted row hrow => ?_
    obtain ⟨hmem, hp⟩ := List.mem_filter.mp hrow
    exact hne hcounted row hmem hp

end Task

end TinySweeper.Index
