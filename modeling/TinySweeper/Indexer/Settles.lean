import TinySweeper.Indexer.Run

/-!
# What a run records of itself

Between its claim and its release a run writes rows and the records of files. The record
of the repository is written by the release alone.
-/

namespace TinySweeper.Index

open Text Interrupt Indexer

/-- A write of a row or of a file's record. -/
def Effect.isData : Effect → Bool
  | .claim .. | .release .. => false
  | _ => true

/-- Whose record a write changes. -/
def Effect.file : Effect → Option Text
  | .record entry => some entry.file.path
  | .forget _ _ path => some path
  | _ => none

/-- What decides a run's course, and how it settles. -/
def IndexReport.course (r : IndexReport) : List Text × Bool × EmbedUsage × Bool :=
  (r.unfetched, r.rebuildGraph, r.usage, r.budgetExhausted)

/-- What no row, no record of these files and no count of the report changes. -/
structure Steady (touched : Text → Prop) (J : Session → Prop) : Prop where
  data : ∀ e : Effect, e.isData = true → (∀ path ∈ e.file, touched path) → ∀ s, J s → J (s.apply e)
  report : ∀ s r, J s → r.course = s.report.course → J { s with report := r }

/-- What no embedding call changes either. -/
def Spendable (J : Session → Prop) : Prop :=
  ∀ s r, J s → r.unfetched = s.report.unfetched → r.rebuildGraph = s.report.rebuildGraph →
    J { s with report := r }

section Keeping

variable {touched : Text → Prop} {J : Session → Prop} (hJ : Steady touched J) {indexer : Indexer} {repoId : Text}
variable {sha256 : Text → List UInt8} {content : Text → Content}

theorem keeps_call {α : Type} {effects : Stores → List Effect} {answer : Stores → α}
    (hdata : ∀ s, ∀ e ∈ effects s, e.isData = true ∧ ∀ path ∈ e.file, touched path)
    (hJ : Steady touched J) : Keeps J (Port.call effects answer) :=
  keeps_perform fun s e he => hJ.data e (hdata s.stores e he).1 (hdata s.stores e he).2

/-- What writes rows alone touches no file's record. -/
theorem keeps_rows {α ι : Type} {items : Stores → List ι} {effect : ι → Effect} {answer : Stores → α}
    (hdata : ∀ item, (effect item).isData = true ∧ (effect item).file = none)
    (hJ : Steady touched J) : Keeps J (Port.call (fun s => (items s).map effect) answer) := by
  refine keeps_call (fun s e he => ?_) hJ
  obtain ⟨item, _, rfl⟩ := List.mem_map.mp he
  refine ⟨(hdata item).1, fun path hpath => ?_⟩
  rw [(hdata item).2] at hpath
  cases hpath

theorem keeps_read {α : Type} {answer : Stores → α} (hJ : Steady touched J) :
    Keeps J (Port.read answer) :=
  keeps_call (fun _ _ h => absurd h List.not_mem_nil) hJ

theorem keeps_tell {f : IndexReport → IndexReport} (hJ : Steady touched J)
    (hf : ∀ r, (f r).course = r.course := by exact fun _ => rfl) : Keeps J (tell f) :=
  keeps_modify fun s hs => hJ.report s _ hs (hf _)

/-- An embedding call is reported. -/
theorem keeps_spend {f : IndexReport → IndexReport} (hspend : Spendable J)
    (hf : ∀ r, (f r).unfetched = r.unfetched ∧ (f r).rebuildGraph = r.rebuildGraph := by
      exact fun _ => ⟨rfl, rfl⟩) :
    Keeps J (tell f) :=
  keeps_modify fun s hs => hspend s _ hs (hf _).1 (hf _).2

include hJ

theorem keeps_record (signature : Text) {files : List IndexedFile}
    (hfiles : ∀ file ∈ files, touched file.path) : Keeps J (Port.record repoId signature files) := by
  refine keeps_call (fun s e he => ?_) hJ
  obtain ⟨file, hfile, rfl⟩ := List.mem_map.mp he
  exact ⟨rfl, fun path hpath => Option.some.inj hpath ▸ hfiles file hfile⟩

theorem keeps_deleteChunks (counted : Bool) (ids : List Text) :
    Keeps J (Port.deleteChunks repoId counted ids) :=
  keeps_rows (fun _ => ⟨rfl, rfl⟩) hJ

theorem keeps_deleteOrphans (files : List FileWork) : Keeps J (deleteOrphans repoId files) := by
  rw [deleteOrphans]
  split
  · exact (keeps_deleteChunks hJ _ _).bind fun _ => keeps_pure _
  · exact keeps_pure _

theorem keeps_deleteCounted (ids : List Text) : Keeps J (deleteCounted repoId ids) := by
  rw [deleteCounted]
  split
  · exact (keeps_deleteChunks hJ _ _).bind fun _ => keeps_tell hJ
  · exact keeps_pure _

theorem keeps_landedOf (files : List (FileWork × ℕ)) : Keeps J (indexer.landedOf repoId files) := by
  rw [landedOf]
  refine (Keeps.attempt (keeps_read hJ)).bind fun landed => ?_
  cases landed with
  | ok landed => exact keeps_pure _
  | error err => exact (keeps_tell hJ).bind fun _ => keeps_raise err

theorem keeps_conclude {finished : List (FileWork × ℕ)}
    (hfinished : ∀ file ∈ finished, touched file.1.path) (written : Written) :
    Keeps J (indexer.conclude repoId finished written) := by
  have hfiles : ∀ f : FileWork → IndexedFile, (∀ work, (f work).path = work.path) →
      ∀ file ∈ (finished.map Prod.fst).map f, touched file.path := by
    intro f hf file hfile
    rw [List.map_map] at hfile
    obtain ⟨item, hitem, rfl⟩ := List.mem_map.mp hfile
    rw [Function.comp, hf]
    exact hfinished item hitem
  rw [conclude]
  refine (keeps_deleteOrphans hJ _).bind fun _ => ?_
  refine (keeps_record hJ _ (hfiles _ fun _ => rfl)).attempt.bind fun recorded => ?_
  cases recorded with
  | error err =>
    refine (keeps_landedOf hJ _).bind fun counted => ?_
    exact (keeps_tell hJ).bind fun _ => keeps_raise err
  | ok _ =>
    refine (keeps_pure finished).bind fun counted => ?_
    refine (keeps_tell hJ).bind fun _ => ?_
    exact (keeps_deleteCounted hJ _).bind fun _ => keeps_record hJ _ (hfiles _ fun _ => rfl)

theorem keeps_removeRows (paths : List Text) : Keeps J (indexer.removeRows repoId paths) := by
  rw [removeRows]
  split
  · exact keeps_pure _
  · refine (keeps_read hJ).bind fun files => ?_
    refine (keeps_deleteCounted hJ _).bind fun _ => ?_
    exact (keeps_rows (fun _ => ⟨rfl, rfl⟩) hJ).bind fun _ => keeps_pure _

theorem keeps_removeAll {removed : List Text} (hremoved : ∀ path ∈ removed, touched path) :
    Keeps J (indexer.removeAll repoId removed) := by
  rw [removeAll]
  split
  · refine (keeps_removeRows hJ removed).bind fun _ => ?_
    refine (keeps_call (fun s e he => ?_) hJ).bind fun _ => keeps_tell hJ
    obtain ⟨path, hpath, rfl⟩ := List.mem_map.mp he
    exact ⟨rfl, fun path' hpath' => Option.some.inj hpath' ▸ hremoved path hpath⟩
  · exact keeps_pure _

theorem keeps_recount : Keeps J (indexer.recount repoId) := by
  have hbatches : ∀ (batches : List (List Text)) (total : ℕ),
      Keeps J (indexer.recountBatches repoId batches total) := by
    intro batches
    induction batches with
    | nil => exact fun total => keeps_pure total
    | cons batch batches ih => exact fun total => (keeps_read hJ).bind fun files => ih _
  exact (keeps_read hJ).bind fun known => hbatches _ _

theorem keeps_removedPaths (selected : List Text) (removed : Removed) :
    Keeps J (indexer.removedPaths repoId selected removed) := by
  cases removed with
  | these paths =>
    rw [removedPaths]
    split
    · exact keeps_pure _
    · exact (keeps_read hJ).bind fun known => keeps_pure _
  | notSeenByTheWalk => exact (keeps_read hJ).bind fun known => keeps_pure _

variable (hspend : Spendable J)

include hspend

theorem keeps_embedBatches (queue : List (ℕ × Chunk)) (bounds : List (ℕ × ℕ)) (written : Written) :
    Keeps J (indexer.embedBatches queue bounds written) := by
  induction bounds generalizing written with
  | nil => exact keeps_pure _
  | cons bound bounds ih =>
    rw [embedBatches]
    refine (keeps_look _).bind fun spent => ?_
    split
    · exact (keeps_spend hspend).bind fun _ => keeps_pure _
    · refine (keeps_read hJ).bind fun response => ?_
      refine (keeps_spend hspend).bind fun _ => ?_
      exact (keeps_rows (fun _ => ⟨rfl, rfl⟩) hJ).bind fun _ => ih _

theorem keeps_indexGroup {group : List Text} (hgroup : ∀ path ∈ group, touched path) :
    Keeps J (indexer.indexGroup repoId sha256 content group) := by
  rw [indexGroup]
  refine (keeps_read hJ).bind fun known => ?_
  have hwork : ∀ file ∈ (group.map (indexer.planFile repoId sha256 content known)).filterMap
      Except.toOption, touched file.path := by
    intro file hfile
    rw [List.filterMap_map] at hfile
    obtain ⟨path, hpath, hplan⟩ := List.mem_filterMap.mp hfile
    rw [Function.comp, planFile] at hplan
    split at hplan
    · rw [← Option.some.inj hplan]
      exact hgroup path hpath
    · cases hplan
  refine (keeps_tell hJ).bind fun _ => ?_
  split
  · exact keeps_pure _
  · refine (keeps_tell hJ).bind fun _ => ?_
    rw [writeGroup]
    refine (keeps_record hJ _ fun file hfile => ?_).bind fun _ => ?_
    · obtain ⟨work, hmem, rfl⟩ := List.mem_map.mp hfile
      exact hwork work hmem
    refine (keeps_rows (fun _ => ⟨rfl, rfl⟩) hJ).bind fun relocated => ?_
    split
    · exact keeps_raise _
    · refine (keeps_embedBatches hJ hspend _ _ _).bind fun written => keeps_conclude hJ ?_ _
      exact fun file hfile => hwork file.1 (List.fst_mem_of_mem_zipIdx (List.mem_filter.mp hfile).1)

theorem keeps_indexGroups {groups : List (List Text)}
    (hgroups : ∀ path ∈ groups.flatten, touched path) :
    Keeps J (indexer.indexGroups repoId sha256 content groups) := by
  induction groups with
  | nil => exact keeps_pure _
  | cons group groups ih =>
    rw [indexGroups]
    refine (keeps_look _).bind fun exhausted => ?_
    split
    · exact keeps_pure _
    · refine (keeps_indexGroup hJ hspend fun path hpath =>
        hgroups path (List.mem_append_left _ hpath)).bind fun _ => ?_
      exact ih fun path hpath => hgroups path (List.mem_append_right _ hpath)

/-- The directories a run waits for are the first thing it reports. -/
theorem ensures_run_steady {selected removed : List Text} {faults : Prop}
    (htouched : ∀ path, touched path) {P : World Session Effect → Prop} (hP : ∀ w, P w →
      J { w.state with report := { w.state.report with unfetched := indexer.unfetched } }) :
    Ensures faults P (indexer.run repoId sha256 content selected removed) (fun _ w => J w.state)
      fun _ w => J w.state := by
  rw [run]
  refine Ensures.bind (ensures_modify (R := fun _ w => J w.state) hP) fun _ => ?_
  refine ((keeps_removeRows hJ _).bind fun _ => ?_) faults
  refine (keeps_indexGroups hJ hspend fun path _ => htouched path).bind fun _ => ?_
  exact keeps_removeAll hJ fun path _ => htouched path

end Keeping

/-- These are the records of repositories, and this is what a run reports of itself. -/
def Claimed (records : Keyed RepoEntry.key) (unfetched : List Text) (rebuildGraph : Bool)
    (s : Session) : Prop :=
  s.stores.records = records ∧ s.report.unfetched = unfetched ∧ s.report.rebuildGraph = rebuildGraph

theorem spendable_claimed {records : Keyed RepoEntry.key} {unfetched : List Text}
    {rebuildGraph : Bool} : Spendable (Claimed records unfetched rebuildGraph) :=
  fun _ _ hs hunfetched hgraph => ⟨hs.1, hunfetched.trans hs.2.1, hgraph.trans hs.2.2⟩

theorem steady_claimed {records : Keyed RepoEntry.key} {unfetched : List Text} {rebuildGraph : Bool} :
    Steady (fun _ => True) (Claimed records unfetched rebuildGraph) where
  data e hdata _ s hs := by
    cases e with
    | claim | release => cases hdata
    | insert | remove | record | forget => exact hs
  report s r hs hcourse :=
    spendable_claimed s r hs (congrArg Prod.fst hcourse) (congrArg (fun c => c.2.1) hcourse)

section Entries

variable {s : Stores} {repoId signature : Text}

theorem key_snapshot : (s.snapshot repoId signature).repoId = repoId ∧
    (s.snapshot repoId signature).signature = signature := by
  rw [Stores.snapshot, Stores.entry]
  cases hentry : s.records.get? (repoId, signature) with
  | none => exact ⟨rfl, rfl⟩
  | some entry => exact Prod.mk.inj (Keyed.mem_of_get? hentry).2

/-- The record of a run in progress. -/
def Stores.inProgress (s : Stores) (repoId signature : Text) : RepoIndex :=
  { s.snapshot repoId signature with state := .indexing }

def Stores.leaseOf (s : Stores) (repoId signature holder : Text) : IndexLease :=
  ⟨repoId, signature, holder, s.nextFence⟩

theorem get?_claim (holder : Text) :
    (s.claim repoId signature holder).records.get? (repoId, signature) =
      some ⟨s.inProgress repoId signature, some (s.leaseOf repoId signature holder)⟩ := by
  have hkey : RepoEntry.key ⟨s.inProgress repoId signature,
      some (s.leaseOf repoId signature holder)⟩ = (repoId, signature) :=
    Prod.ext key_snapshot.1 key_snapshot.2
  have hput := Keyed.get?_put_self s.records ⟨s.inProgress repoId signature,
    some (s.leaseOf repoId signature holder)⟩
  rw [hkey] at hput
  exact hput

theorem snapshot_claim (holder : Text) :
    (s.claim repoId signature holder).snapshot repoId signature = s.inProgress repoId signature := by
  rw [Stores.snapshot, Stores.entry, get?_claim]
  rfl

/-- A claim that is still held is given back with how the run ended. -/
theorem entry_release {s' : Stores} (holder : Text)
    (h : s'.records = (s.claim repoId signature holder).records) (settled : Settled) :
    (s'.release (s.leaseOf repoId signature holder) settled).entry repoId signature =
      ⟨Stores.settle (s.inProgress repoId signature) settled, none⟩ := by
  have hget : s'.records.get? (repoId, signature) =
      some ⟨s.inProgress repoId signature, some (s.leaseOf repoId signature holder)⟩ := by
    rw [h, get?_claim]
  have hkey : RepoEntry.key ⟨Stores.settle (s.inProgress repoId signature) settled, none⟩ =
      (repoId, signature) := by
    cases settled <;> exact Prod.ext key_snapshot.1 key_snapshot.2
  have hrelease : (s'.release (s.leaseOf repoId signature holder) settled).records =
      s'.records.put ⟨Stores.settle (s.inProgress repoId signature) settled, none⟩ := by
    have hheld : s'.records.get? ((s.leaseOf repoId signature holder).repoId,
        (s.leaseOf repoId signature holder).signature) = _ := hget
    rw [Stores.release, hheld]
    exact congrArg Stores.records (if_pos rfl)
  have hput := Keyed.get?_put_self s'.records
    ⟨Stores.settle (s.inProgress repoId signature) settled, none⟩
  rw [hkey, ← hrelease] at hput
  rw [Stores.entry, hput]
  rfl

end Entries

/-- How a run that is done leaves the record it ran under. -/
def SettledAs (indexer : Indexer) (repoId revision : Text) (s : Stores) (outcome : IndexOutcome)
    (w : World Session Effect) : Prop :=
  ∀ report, outcome = .indexed report → report.unfetched = indexer.unfetched ∧
    report.rebuildGraph = ((s.snapshot repoId indexer.signature).revision.isNone ||
      (s.snapshot repoId indexer.signature).message.isSome) ∧
    ∃ chunks, w.state.stores.entry repoId indexer.signature =
      ⟨Stores.settle (s.inProgress repoId indexer.signature) (.done
        (if !report.budgetExhausted && report.unfetched.isEmpty then some revision else none)
        chunks report.usage), none⟩

section Guarded

variable {indexer : Indexer} {repoId revision : Text} {sha256 : Text → List UInt8}
variable {content : Text → Content} {s : Stores} {faults : Prop}

/-- What a call brings about if it goes through. -/
theorem ensures_answer {α : Type} {effects : Stores → List Effect} {answer : Stores → α}
    {P : World Session Effect → Prop} {Q : α → World Session Effect → Prop}
    (h : ∀ w, P w → Q (answer w.state.stores)
      (w.after Session.apply (effects w.state.stores) .through)) :
    Ensures faults P (Port.call effects answer) Q fun _ _ => True :=
  ensures_perform h fun _ _ _ _ _ => ⟨fun _ => trivial, trivial⟩

/-- What a program brings about if there is no error to answer. -/
theorem ensures_attempt_ok {α : Type} {p : Port α} {P : World Session Effect → Prop}
    {Q : α → World Session Effect → Prop} (h : Ensures faults P p Q fun _ _ => True) :
    Ensures faults P (attempt p) (fun answer w => ∀ a, answer = .ok a → Q a w) fun _ _ => True := by
  refine Ensures.attempt (h.weaken (fun _ h => h) (fun a w h b hb => Except.ok.inj hb ▸ h)
    fun e w _ => ?_)
  cases e with
  | none => trivial
  | some e => exact fun _ h => by cases h

theorem ensures_giveUp_raises {α : Type} {P : World Session Effect → Prop} {lease : IndexLease}
    {message err : Text} {chunks : Option ℕ} {Q : α → World Session Effect → Prop} :
    Ensures faults P (giveUp lease message chunks err) Q fun _ _ => True := by
  have hrelease : Ensures faults P (Port.release lease (.failed message chunks)) (fun _ _ => True)
      fun _ _ => True :=
    ensures_answer fun _ _ => trivial
  exact (ensures_attempt_ok hrelease).bind fun _ => ensures_raise fun _ _ => trivial

theorem ensures_settle {report : IndexReport} (chunks : ℕ)
    (hunfetched : report.unfetched = indexer.unfetched)
    (hgraph : report.rebuildGraph = ((s.snapshot repoId indexer.signature).revision.isNone ||
      (s.snapshot repoId indexer.signature).message.isSome)) :
    Ensures faults (fun w => w.state.stores.records =
        (s.claim repoId indexer.signature indexer.holder).records)
      (do
        settle (s.leaseOf repoId indexer.signature indexer.holder) chunks revision report
        pure (.indexed report))
      (SettledAs indexer repoId revision s) fun _ _ => True := by
  have hrelease : Ensures faults (fun w => w.state.stores.records =
        (s.claim repoId indexer.signature indexer.holder).records)
      (settle (s.leaseOf repoId indexer.signature indexer.holder) chunks revision report)
      (fun _ w => w.state.stores.entry repoId indexer.signature =
        ⟨Stores.settle (s.inProgress repoId indexer.signature) (.done
          (if !report.budgetExhausted && report.unfetched.isEmpty then some revision else none)
          chunks report.usage), none⟩) fun _ _ => True := by
    rw [settle, Port.release]
    exact ensures_answer fun w hw => entry_release indexer.holder hw _
  refine hrelease.bind fun _ => ensures_pure ?_
  rintro w hw _ ⟨rfl⟩
  exact ⟨hunfetched, hgraph, chunks, hw⟩

theorem ensures_guarded_settled {selected : List Text} {skipped : List SkippedFile}
    {removed : Removed} :
    Ensures faults (fun w => w.state.stores = s)
      (indexer.guarded repoId sha256 content revision selected skipped removed)
      (SettledAs indexer repoId revision s) fun _ _ => True := by
  unfold guarded
  generalize hclaimed : (s.claim repoId indexer.signature indexer.holder).records = records
  refine Ensures.bind (Q := fun claim w => ∀ lease, claim = .ok lease →
    lease = s.leaseOf repoId indexer.signature indexer.holder ∧ w.state.stores.records = records)
    (ensures_answer fun w hw lease hlease => ?_) fun claim => ?_
  · subst hw
    cases hheld : (w.state.stores.entry repoId indexer.signature).lease with
    | none =>
      simp only [hheld] at hlease
      refine ⟨(Except.ok.inj hlease).symm, ?_⟩
      simp only [World.after, Option.isNone_none, if_true]
      exact hclaimed
    | some held =>
      simp only [hheld] at hlease
      cases hlease
  cases claim with
  | error holder => exact ensures_pure fun _ _ report h => by cases h
  | ok lease =>
    refine ensures_of_forall fun w₀ hw₀ => ?_
    obtain ⟨rfl, hrecords⟩ := hw₀ lease rfl
    have hstate : Ensures faults (fun w => w = w₀) (Port.state repoId indexer.signature)
        (fun index w => w.state.stores.records = records ∧
          index = s.inProgress repoId indexer.signature) fun _ _ => True := by
      rw [Port.state, Port.read]
      refine ensures_answer fun w hw => ?_
      subst hw
      refine ⟨hrecords, ?_⟩
      rw [← snapshot_claim indexer.holder, Stores.snapshot, Stores.snapshot, Stores.entry,
        Stores.entry, hrecords, hclaimed]
    refine (ensures_attempt_ok hstate).bind fun state => ?_
    cases state with
    | error err => exact ensures_giveUp_raises
    | ok state =>
      have hsteady : Steady (fun _ => True) fun session => session.stores.records = records :=
        ⟨fun e he hfile session h => (steady_claimed.data e he hfile session ⟨h, rfl, rfl⟩).1,
          fun _ _ h _ => h⟩
      refine Ensures.bind (Q := fun paths w => ∀ a, paths = Except.ok a →
        w.state.stores.records = records ∧ state = s.inProgress repoId indexer.signature) ?_
        fun paths => ?_
      · refine ensures_of_forall fun w hw => ensures_attempt_ok ?_
        refine ((keeps_removedPaths hsteady _ _) faults).weaken (fun _ h => ?_)
          (fun _ _ h => ⟨h, (hw state rfl).2⟩) fun _ _ _ => trivial
        rw [h]
        exact (hw state rfl).1
      cases paths with
      | error err => exact ensures_giveUp_raises
      | ok paths =>
        refine ensures_of_forall fun w₁ hw₁ => ?_
        obtain ⟨hrecords', rfl⟩ := hw₁ paths rfl
        generalize hgraph : ((s.inProgress repoId indexer.signature).revision.isNone ||
          (s.inProgress repoId indexer.signature).message.isSome) = graph
        refine Ensures.bind (ensures_modify (R := fun _ w => w.state.stores.records = records ∧
          w.state.report.rebuildGraph = graph) ?_) fun _ => ?_
        · rintro w rfl
          exact ⟨hrecords', rfl⟩
        have hrun : Ensures faults (fun w => w.state.stores.records = records ∧
            w.state.report.rebuildGraph = graph)
            (indexer.run repoId sha256 content selected paths)
            (fun _ w => Claimed records indexer.unfetched graph w.state)
            fun _ w => Claimed records indexer.unfetched graph w.state :=
          ensures_run_steady steady_claimed spendable_claimed (fun _ => trivial)
            fun w hw => ⟨hw.1, rfl, hw.2⟩
        refine (ensures_attempt_ok (hrun.weaken (fun _ h => h) (fun _ _ h => h)
          fun _ _ _ => trivial)).bind fun outcome => ?_
        cases outcome with
        | error err =>
          exact Ensures.bind (Q := fun _ _ => True) (ensures_look fun _ _ => trivial) fun _ =>
            ensures_giveUp_raises
        | ok _ =>
          refine ensures_of_forall fun w₂ hw₂ => ?_
          obtain ⟨hrecords₂, hunfetched, hgraph₂⟩ := hw₂ _ rfl
          refine Ensures.bind (ensures_look (Q := fun report w => report = w₂.state.report ∧
            w.state.stores.records = records) fun w hw => ?_) fun report => ?_
          · subst hw
            exact ⟨rfl, hrecords₂⟩
          refine ensures_of_forall fun w₃ hw₃ => ?_
          obtain ⟨rfl, hrecords₃⟩ := hw₃
          have hsettle := fun chunks => @ensures_settle indexer repoId revision s faults
            w₂.state.report chunks hunfetched (hgraph₂.trans hgraph.symm)
          rw [hclaimed] at hsettle
          dsimp only
          split
          · refine (ensures_attempt_ok (((keeps_recount hsteady) faults).weaken (fun w hw => ?_)
              (fun _ _ h => h) fun _ _ _ => trivial)).bind fun chunks => ?_
            · rw [hw]
              exact hrecords₃
            · cases chunks with
              | error err => exact ensures_giveUp_raises
              | ok chunks =>
                exact (hsettle chunks).weaken (fun w hw => hw _ rfl) (fun _ _ h => h) fun _ _ h => h
          · exact (hsettle _).weaken (fun w hw => hw ▸ hrecords₃) (fun _ _ h => h) fun _ _ h => h

theorem ensures_indexRepo_settled {checkout : Checkout} :
    Ensures faults (fun w => w.state.stores = s)
      (indexer.indexRepo repoId sha256 checkout revision) (SettledAs indexer repoId revision s)
      fun _ _ => True := by
  rw [indexRepo]
  have hstate : Ensures faults (fun w => w.state.stores = s) (Port.state repoId indexer.signature)
      (fun _ w => w.state.stores = s) fun _ _ => True := by
    rw [Port.state, Port.read]
    exact ensures_answer fun _ hw => hw
  refine hstate.bind fun state => ?_
  split
  · exact ensures_pure fun _ _ report h => by cases h
  · cases indexer.walked checkout with
    | error err => exact ensures_raise fun _ _ => trivial
    | ok selection => exact ensures_guarded_settled

end Guarded

end TinySweeper.Index
