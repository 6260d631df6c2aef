import TinySweeper.Indexer.Refine

/-!
# A group of files keeps to the protocol

The files of a group are replaced side by side: all intents, all new rows, and so on. For
each file this is the order of the protocol.
-/

namespace TinySweeper.Index

open Text Interrupt FileWork Indexer

/-- Slices that follow one another up to an end. -/
def Consecutive (stop : ℕ) : ℕ → List (ℕ × ℕ) → Prop
  | start, [] => start = stop
  | start, (first, last) :: bounds =>
    first = start ∧ first < last ∧ last ≤ stop ∧ Consecutive stop last bounds

theorem consecutive_batchBoundsFrom {maxItems maxTokens : ℕ} (hitems : 1 ≤ maxItems)
    (queue : List (ℕ × Chunk)) (start position tokens : ℕ) (hstart : start ≤ position) :
    Consecutive (position + queue.length) start
      (batchBoundsFrom maxItems maxTokens start position tokens queue) := by
  induction queue generalizing start position tokens with
  | nil =>
    rw [batchBoundsFrom]
    split
    next hlt => exact ⟨rfl, hlt, le_rfl, rfl⟩
    next hge => exact (Nat.le_antisymm hstart (Nat.not_lt.mp hge) :)
  | cons item queue ih =>
    have hlength : position + (item :: queue).length = position + 1 + queue.length := by
      rw [List.length_cons]
      omega
    rw [batchBoundsFrom, hlength]
    split
    next hclose =>
      exact ⟨rfl, by omega, by omega, ih position (position + 1) _ (Nat.le_succ _)⟩
    next => exact ih start (position + 1) _ (Nat.le_succ_of_le hstart)

/-- Every chunk of the queue lands in exactly one batch. -/
theorem consecutive_batchBounds (queue : List (ℕ × Chunk)) (maxItems maxTokens : ℕ) :
    Consecutive queue.length 0 (batchBounds queue maxItems maxTokens) := by
  have h := @consecutive_batchBoundsFrom _ maxTokens (le_max_right maxItems 1) queue 0 0 0 le_rfl
  rwa [Nat.zero_add] at h

theorem mem_queueOf {work : List FileWork} {item : ℕ × Chunk} (h : item ∈ queueOf work) :
    ∃ f ∈ work, item.2 ∈ f.toEmbed := by
  obtain ⟨file, hfile, hitem⟩ := List.mem_flatMap.mp h
  obtain ⟨chunk, hchunk, rfl⟩ := List.mem_map.mp hitem
  exact ⟨file.1, List.fst_mem_of_mem_zipIdx hfile, hchunk⟩

/-- No chunk of a file is queued behind its last one. -/
theorem le_lastPosition {queue : List (ℕ × Chunk)} {index position : ℕ} {chunk : Chunk}
    (h : queue[position]? = some (index, chunk)) :
    ∃ last, lastPosition queue index = some last ∧ position ≤ last := by
  have hmem : ((index, chunk), position) ∈ queue.zipIdx.filter fun item => item.1.1 = index :=
    List.mem_filter.mpr ⟨List.mk_mem_zipIdx_iff_getElem?.mpr h, decide_eq_true rfl⟩
  have hsorted : (queue.zipIdx.filter fun item => item.1.1 = index).Pairwise
      fun a b => a.2 ≤ b.2 := by
    refine List.Pairwise.filter _ (List.Pairwise.of_map Prod.snd (fun _ _ h => h) ?_)
    rw [List.zipIdx_map_snd]
    exact List.pairwise_le_range'
  have hlast := hsorted.rel_getLast_of_rel_getLast_getLast hmem le_rfl
  refine ⟨_, ?_, hlast⟩
  rw [lastPosition, List.getLast?_eq_some_getLast (List.ne_nil_of_mem hmem)]
  rfl

/-- A file that finished has every chunk it queued among the written ones. -/
theorem mem_take_of_finished {work : List FileWork} {written : Written} {file : FileWork × ℕ}
    (h : file ∈ finishedOf work written) {chunk : Chunk} (hchunk : chunk ∈ file.1.toEmbed) :
    (file.2, chunk) ∈ (queueOf work).take written.total := by
  obtain ⟨hfile, hall⟩ := List.mem_filter.mp h
  have hmem : (file.2, chunk) ∈ queueOf work :=
    List.mem_flatMap.mpr ⟨file, hfile, List.mem_map_of_mem hchunk⟩
  obtain ⟨position, hposition⟩ := List.mem_iff_getElem?.mp hmem
  obtain ⟨last, hlast, hle⟩ := le_lastPosition hposition
  rw [hlast, Option.all_some, decide_eq_true_iff] at hall
  refine List.mem_iff_getElem?.mpr ⟨position, ?_⟩
  rw [List.getElem?_take_of_lt (by omega)]
  exact hposition

/-- Where all that was queued is written, every file finished. -/
theorem finishedOf_eq {work : List FileWork} {written : Written}
    (h : written.total = (queueOf work).length) : finishedOf work written = work.zipIdx := by
  refine List.filter_eq_self.mpr fun file _ => ?_
  cases hlast : lastPosition (queueOf work) file.2 with
  | none => rfl
  | some last =>
    rw [lastPosition, Option.map_eq_some_iff] at hlast
    obtain ⟨item, hitem, rfl⟩ := hlast
    have hmem := (List.mem_filter.mp (List.mem_of_getLast? hitem)).1
    have hlt := List.snd_lt_of_mem_zipIdx hmem
    rw [Option.all_some, decide_eq_true_iff, h]
    omega

namespace Task

variable {sha256 : Text → List UInt8} (t : Task sha256) {start : Stores} {faults : Prop}

/-- A file's plan, made from its record in these stores. -/
def Planned (base : Stores) (f : FileWork) : Prop :=
  ∃ chunks, t.Plans f.path chunks ∧ f = new f.path chunks (t.record base f.path)

variable (start) in
/-- At some point of the run the row was there. -/
def Seen (id : Text) : Prop := ∃ es s, t.Steps start es s ∧ t.Holds s id

/-- Outside of a group, no path that is kept is open. -/
def Closed (es : List Effect) : Prop := ∀ path ∉ t.removed, leftOpen path es = false

/-- The files of a group are being written: their intents are on record. -/
structure Underway (base : Stores) (work : List FileWork) (x : Track) : Prop where
  plans : ∀ f ∈ work, t.Planned base f
  record : ∀ f ∈ work, t.record x.2 f.path = some f.intent
  others : ∀ path, (∀ f ∈ work, f.path ≠ path) → t.record x.2 path = t.record base path
  closed : t.Closed x.1

variable {t} {base : Stores} {x : Track} {r : IndexReport} {work : List FileWork}

theorem Planned.eq {f f' : FileWork} (h : t.Planned base f) (h' : t.Planned base f')
    (hpath : f.path = f'.path) : f = f' := by
  obtain ⟨chunks, hplan, hf⟩ := h
  obtain ⟨chunks', hplan', hf'⟩ := h'
  have hchunks : chunks = chunks' :=
    Option.some.inj (hplan.chunksOf.symm.trans (hpath ▸ hplan'.chunksOf))
  rw [hf, hf', hchunks, hpath]

theorem Underway.inserted {y : Track} {rows : List Row} (h : t.Underway base work x)
    (hrows : t.Inserted rows x y) : t.Underway base work y where
  plans := h.plans
  record f hf := (hrows.record _).trans (h.record f hf)
  others path hne := (hrows.record _).trans (h.others path hne)
  closed path hkept := (hrows.open_eq path).trans (h.closed path hkept)

theorem Underway.record_eq {y : Track} (h : t.Underway base work x) (h' : t.Underway base work y)
    (path : Text) : t.record y.2 path = t.record x.2 path := by
  by_cases hpath : ∃ f ∈ work, f.path = path
  · obtain ⟨f, hf, rfl⟩ := hpath
    rw [h.record f hf, h'.record f hf]
  · have hne : ∀ f ∈ work, f.path ≠ path := fun f hf heq => hpath ⟨f, hf, heq⟩
    rw [h.others path hne, h'.others path hne]

theorem ensures_intents (hsteps : t.Steps start x.1 x.2) (hplans : ∀ f ∈ work, t.Planned x.2 f)
    (hclosed : t.Closed x.1) :
    Ensures faults (fun w => Track.of w = x ∧ w.state.report = r)
      (Port.record t.repo.text t.signature (work.map FileWork.intent))
      (fun _ => t.At start fun y r' => t.Underway x.2 work y ∧ y.2.rows = x.2.rows ∧ r' = r)
      (t.Cut start faults) := by
  have hrecord : Ensures faults (fun w => Track.of w = x ∧ w.state.report = r)
      (Port.record t.repo.text t.signature (work.map FileWork.intent))
      (fun _ => t.At start fun y r' => t.Recorded work FileWork.intent x y ∧ r' = r)
      (t.Cut start faults) := by
    refine ensures_record (fun _ => rfl) (fun f hf f' hf' => (hplans f hf).eq (hplans f' hf')) hsteps ?_
    intro f hf y _ hold hopen
    obtain ⟨chunks, hplan, hnew⟩ := hplans f hf
    rw [hnew] at hold ⊢
    exact .intend _ hplan (hopen _ (hclosed _ hplan.kept)) hold
  refine hrecord.weaken (fun _ h => h) (fun _ w h => ⟨h.1, ?_⟩) fun _ _ h => h
  obtain ⟨_, hlanded, rfl⟩ := h
  refine ⟨⟨hplans, hlanded.record, hlanded.others, fun path hkept => ?_⟩, hlanded.rows, rfl⟩
  exact hlanded.closed _ (hclosed _ hkept)

theorem mem_copied {s : Stores} {chunks : List (Text × Chunk)} {row : Row}
    (h : row ∈ s.copied t.repo.text t.signature chunks) :
    ∃ moved ∈ chunks, t.Holds s moved.1 ∧ row = ⟨t.signature, moved.2⟩ := by
  obtain ⟨moved, hmoved, hrow⟩ := List.mem_filterMap.mp h
  obtain ⟨source, hsource, rfl⟩ := Option.map_eq_some_iff.mp hrow
  obtain ⟨hfound, htest⟩ := Option.filter_eq_some_iff.mp hsource
  rw [Bool.and_eq_true, decide_eq_true_iff, decide_eq_true_iff] at htest
  obtain ⟨hmem, hid⟩ := Keyed.get?_eq_some_iff.mp hfound
  exact ⟨moved, hmoved, ⟨source, hmem, hid, htest⟩, by rw [htest.1]⟩

/-- All copies are made exactly where all that is copied is there. -/
theorem length_copied_eq_iff {s : Stores} {chunks : List (Text × Chunk)} :
    (s.copied t.repo.text t.signature chunks).length = chunks.length ↔
      ∀ moved ∈ chunks, t.Holds s moved.1 := by
  rw [Stores.copied, List.filterMap_length_eq_length]
  refine forall₂_congr fun moved _ => ?_
  rw [Option.isSome_map, Option.isSome_iff_exists]
  constructor
  · rintro ⟨source, hsource⟩
    obtain ⟨hfound, htest⟩ := Option.filter_eq_some_iff.mp hsource
    rw [Bool.and_eq_true, decide_eq_true_iff, decide_eq_true_iff] at htest
    obtain ⟨hmem, hid⟩ := Keyed.get?_eq_some_iff.mp hfound
    exact ⟨source, hmem, hid, htest⟩
  · rintro ⟨source, hmem, hid, hsignature, hrepo⟩
    refine ⟨source, Option.filter_eq_some_iff.mpr ⟨Keyed.get?_eq_some_iff.mpr ⟨hmem, hid⟩, ?_⟩⟩
    rw [Bool.and_eq_true, decide_eq_true_iff, decide_eq_true_iff]
    exact ⟨hsignature, hrepo⟩

theorem mem_take_batch {queue : List (ℕ × Chunk)} {first last : ℕ} (hle : first ≤ last)
    {item : ℕ × Chunk} :
    item ∈ queue.take last ↔ item ∈ queue.take first ∨ item ∈ (queue.take last).drop first := by
  have hsplit := List.take_append_drop first (queue.take last)
  rw [List.take_take, min_eq_left hle] at hsplit
  conv_lhs => rw [← hsplit, List.mem_append]

/-- A planned file's new chunks can land while its intent is on record. -/
theorem Underway.allows_land {y : Track} {f : FileWork} {chunk : Chunk}
    (h : t.Underway base work x) (hf : f ∈ work)
    (hrecord : ∀ path, t.record y.2 path = t.record x.2 path)
    (hchunk : ∀ chunks, f = new f.path chunks (t.record base f.path) →
      chunk ∈ chunks ∧ chunk.id ∉ countedOf (t.record base f.path)) :
    t.Allows y.1 y.2 (.insert ⟨t.signature, chunk⟩) := by
  obtain ⟨chunks, hplan, hnew⟩ := h.plans f hf
  obtain ⟨hmem, hcounted⟩ := hchunk chunks hnew
  have hintent := (hrecord f.path).trans (h.record f hf)
  rw [hnew] at hintent
  exact .land hplan hintent hmem hcounted

/-- The repository of a planned chunk. -/
theorem Planned.repoId_eq {f : FileWork} (h : t.Planned base f) {chunk : Chunk}
    (hchunk : ∀ chunks, f = new f.path chunks (t.record base f.path) → chunk ∈ chunks) :
    chunk.repoId = t.repo.text := by
  obtain ⟨chunks, hplan, hnew⟩ := h
  exact (t.own hplan.chunksOf chunk (hchunk chunks hnew)).1

theorem toEmbed_spec {f : FileWork} {chunk : Chunk} (h : chunk ∈ f.toEmbed) :
    ∀ chunks, f = new f.path chunks (t.record base f.path) →
      chunk ∈ chunks ∧ chunk.id ∉ countedOf (t.record base f.path) := by
  intro chunks hnew
  rw [hnew] at h
  exact mem_toEmbed h

theorem toRelocate_spec {f : FileWork} {moved : Text × Chunk} (h : moved ∈ f.toRelocate) :
    ∀ chunks, f = new f.path chunks (t.record base f.path) →
      moved.2 ∈ chunks ∧ moved.2.id ∉ countedOf (t.record base f.path) := by
  intro chunks hnew
  rw [hnew] at h
  obtain ⟨hchunk, hcounted, _⟩ := mem_toRelocate h
  exact ⟨hchunk, hcounted⟩

theorem ensures_relocate (hsteps : t.Steps start x.1 x.2) (h : t.Underway base work x) :
    Ensures faults (fun w => Track.of w = x ∧ w.state.report = r)
      (Port.relocate t.repo.text t.signature (work.flatMap FileWork.toRelocate))
      (fun n => t.At start fun y r' =>
        n = (x.2.copied t.repo.text t.signature (work.flatMap FileWork.toRelocate)).length ∧
          t.Inserted (x.2.copied t.repo.text t.signature (work.flatMap FileWork.toRelocate)) x y ∧
            r' = r)
      (t.Cut start faults) := by
  refine ensures_insert hsteps ?_ ?_
  · intro row hrow
    obtain ⟨moved, hmoved, _, rfl⟩ := mem_copied hrow
    obtain ⟨f, hf, hmoved⟩ := List.mem_flatMap.mp hmoved
    exact ⟨rfl, (h.plans f hf).repoId_eq fun chunks hnew => (toRelocate_spec hmoved chunks hnew).1⟩
  · intro row hrow y hrecord
    obtain ⟨moved, hmoved, _, rfl⟩ := mem_copied hrow
    obtain ⟨f, hf, hmoved⟩ := List.mem_flatMap.mp hmoved
    exact h.allows_land hf hrecord (toRelocate_spec hmoved)

theorem ensures_upsert (hsteps : t.Steps start x.1 x.2) (h : t.Underway base work x)
    {chunks : List Chunk} (hchunks : ∀ chunk ∈ chunks, ∃ f ∈ work, chunk ∈ f.toEmbed) :
    Ensures faults (fun w => Track.of w = x ∧ w.state.report = r) (Port.upsert t.signature chunks)
      (fun _ => t.At start fun y r' => t.Inserted (chunks.map (Row.mk t.signature)) x y ∧ r' = r)
      (t.Cut start faults) := by
  have hupsert : Port.upsert t.signature chunks =
      Port.call (fun _ => (chunks.map (Row.mk t.signature)).map .insert) fun _ => chunks.length := by
    rw [List.map_map]
    rfl
  rw [hupsert]
  refine Ensures.weaken (@ensures_insert _ _ _ _ _ _ _ r (fun _ => chunks.map (Row.mk t.signature))
    hsteps ?_ ?_) (fun _ h => h) (fun _ _ h => ⟨h.1, h.2.2⟩) fun _ _ h => h
  · intro row hrow
    obtain ⟨chunk, hchunk, rfl⟩ := List.mem_map.mp hrow
    obtain ⟨f, hf, hmem⟩ := hchunks chunk hchunk
    exact ⟨rfl, (h.plans f hf).repoId_eq fun chunks hnew => (toEmbed_spec hmem chunks hnew).1⟩
  · intro row hrow y hrecord
    obtain ⟨chunk, hchunk, rfl⟩ := List.mem_map.mp hrow
    obtain ⟨f, hf, hmem⟩ := hchunks chunk hchunk
    exact h.allows_land hf hrecord (toEmbed_spec hmem)

/-- Embedding adds rows; it ends with the queue written, or with the budget hit. -/
theorem ensures_embedBatches {indexer : Indexer} (hsignature : indexer.signature = t.signature)
    {queue : List (ℕ × Chunk)} (hqueue : ∀ item ∈ queue, ∃ f ∈ work, item.2 ∈ f.toEmbed)
    (bounds : List (ℕ × ℕ)) (written : Written)
    (hbounds : Consecutive queue.length written.total bounds) (x : Track) (r : IndexReport)
    (hsteps : t.Steps start x.1 x.2) (h : t.Underway base work x)
    (hwritten : ∀ item ∈ queue.take written.total, t.Holds x.2 item.2.id) :
    Ensures faults (fun w => Track.of w = x ∧ w.state.report = r)
      (indexer.embedBatches queue bounds written)
      (fun written' => t.At start fun y r' => t.Underway base work y ∧
        (∀ id, t.Holds x.2 id → t.Holds y.2 id) ∧
        (∀ item ∈ queue.take written'.total, t.Holds y.2 item.2.id) ∧
        (r'.budgetExhausted = true ∨ written'.total = queue.length))
      (t.Cut start faults) := by
  induction bounds generalizing written x r with
  | nil =>
    refine ensures_pure ?_
    rintro w ⟨rfl, rfl⟩
    exact ⟨hsteps, h, fun _ hid => hid, hwritten, .inr hbounds⟩
  | cons bound bounds ih =>
    obtain ⟨first, last⟩ := bound
    obtain ⟨rfl, hlt, hle, hrest⟩ := hbounds
    rw [embedBatches]
    refine Ensures.bind (ensures_look (Q := fun spent => fun w => Track.of w = x ∧ w.state.report = r)
      fun _ hw => hw) fun spent => ?_
    split
    · -- the budget does not allow this batch
      refine Ensures.bind (Q := fun _ => t.At start fun y r' => y = x ∧ r'.budgetExhausted = true)
        ((ensures_tell (φ := fun y _ => y = x) fun _ _ hy => ⟨hy, rfl⟩).weaken ?_ (fun _ _ h => h)
          fun _ _ h => h) fun _ => ?_
      · rintro w ⟨rfl, rfl⟩
        exact ⟨hsteps, rfl⟩
      · refine ensures_pure fun w hw => ?_
        obtain ⟨hsteps', hx, hbudget⟩ := hw
        rw [← hx] at h hwritten
        refine ⟨hsteps', h, fun id hid => ?_, hwritten, .inl hbudget⟩
        rw [hx]
        exact hid
    · refine Ensures.bind (ensures_read hsteps (Q := fun _ y _ => y = x) rfl) fun response => ?_
      refine Ensures.bind (ensures_tell (Q := fun _ y _ => y = x) fun _ _ hy => hy) fun _ => ?_
      refine ensures_at fun y r' hy hyx => ?_
      subst hyx
      rw [hsignature]
      refine Ensures.bind (ensures_upsert hy h ?_) fun _ => ?_
      · intro chunk hchunk
        obtain ⟨item, hitem, rfl⟩ := List.mem_map.mp hchunk
        exact hqueue item (List.mem_of_mem_take (List.mem_of_mem_drop hitem))
      · refine ensures_at fun z r'' hz hinserted => ?_
        obtain ⟨hinserted, _⟩ := hinserted
        have htotal : (written.add ((queue.take last).drop written.total)).total = last := by
          show written.total + _ = last
          rw [List.length_drop, List.length_take]
          omega
        have hlanded : ∀ item ∈ queue.take last, t.Holds z.2 item.2.id := by
          intro item hitem
          rcases (mem_take_batch hlt.le).mp hitem with hitem | hitem
          · exact hinserted.holds _ (hwritten item hitem)
          · exact hinserted.landed _ (List.mem_map_of_mem (List.mem_map_of_mem hitem))
        have hgoal := ih (written.add ((queue.take last).drop written.total))
          (by rw [htotal]; exact hrest) z r'' hz (h.inserted hinserted) (by rw [htotal]; exact hlanded)
        refine hgoal.weaken (fun _ h => h) (fun _ w h => ⟨h.1, h.2.1, ?_, h.2.2.2⟩) fun _ _ h => h
        exact fun id hid => h.2.2.1 id (hinserted.holds id hid)

variable {files : List FileWork}

/-- Rows are deleted by their ids. -/
theorem ensures_deleteChunks (hsteps : t.Steps start x.1 x.2) {counted : Bool} {ids : List Text}
    (hallows : ∀ row ∈ x.2.rows, row.chunk.repoId = t.repo.text → row.id ∈ ids → ∀ y : Track,
      (∀ path, t.record y.2 path = t.record x.2 path) → row ∈ y.2.rows →
        t.Allows y.1 y.2 (.remove row counted)) :
    Ensures faults (fun w => Track.of w = x ∧ w.state.report = r)
      (Port.deleteChunks t.repo.text counted ids)
      (fun _ => t.At start fun y r' =>
        t.Dropped (fun row => row.chunk.repoId = t.repo.text && ids.contains row.id) counted x y ∧
          r' = r)
      (t.Cut start faults) := by
  refine Ensures.weaken (ensures_remove hsteps fun row hrow htest y hrecord hmem => ?_)
    (fun _ h => h) (fun _ _ h => ⟨h.1, h.2.2⟩) fun _ _ h => h
  rw [Bool.and_eq_true, decide_eq_true_iff, List.contains_iff_mem] at htest
  exact hallows row hrow htest.1 htest.2 y hrecord hmem

section Dropping

variable {y : Track} {counted : Bool} {ids : List Text}
  (h : t.Dropped (fun row => row.chunk.repoId = t.repo.text && ids.contains row.id) counted x y)

include h

theorem Dropped.lacks {id : Text} (hid : id ∈ ids) : t.Lacks y.2 id := by
  rintro row hrow hrepo rfl
  have htest := ((h.rows row).mp hrow).2
  rw [Bool.and_eq_false_iff, decide_eq_false_iff_not, List.contains_eq_mem,
    decide_eq_false_iff_not] at htest
  exact htest.elim (fun hne => hne hrepo) fun hne => hne hid

theorem Dropped.holds {id : Text} (hid : t.Holds x.2 id) (hne : id ∉ ids) : t.Holds y.2 id := by
  obtain ⟨row, hrow, rfl, hsignature, hrepo⟩ := hid
  refine ⟨row, (h.rows row).mpr ⟨hrow, ?_⟩, rfl, hsignature, hrepo⟩
  rw [Bool.and_eq_false_iff]
  exact .inr (by simpa using hne)

end Dropping

variable (t) in
/-- The new rows of these files are there. -/
def Arrived (files : List FileWork) (s : Stores) : Prop :=
  ∀ f ∈ files, ∀ chunk, (chunk ∈ f.toEmbed ∨ ∃ source, (source, chunk) ∈ f.toRelocate) →
    t.Holds s chunk.id

variable (t) in
/-- The rows that nobody counted are gone. -/
def Cleared (files : List FileWork) (s : Stores) : Prop :=
  ∀ f ∈ files, ∀ id ∈ f.orphans, t.Lacks s id

theorem Planned.owned_ids {f : FileWork} (h : t.Planned base f) {id : Text} (hid : id ∈ f.ids) :
    OwnedBy t.repo.text f.path id := by
  obtain ⟨chunks, hplan, hnew⟩ := h
  rw [hnew] at hid
  exact hplan.owned hid

theorem Planned.owned_orphans {f : FileWork} (h : t.Planned base f)
    (hledger : base.Ledger t.repo.text t.signature) {id : Text} (hid : id ∈ f.orphans) :
    OwnedBy t.repo.text f.path id ∧ id ∉ f.ids := by
  obtain ⟨chunks, hplan, hnew⟩ := h
  rw [hnew] at hid ⊢
  obtain ⟨huncounted, hids, _⟩ := mem_orphans.mp hid
  exact ⟨hledger.owned _ _ (mem_listedOf_iff.mpr (.inr huncounted)), hids⟩

theorem Planned.owned_stale {f : FileWork} (h : t.Planned base f)
    (hledger : base.Ledger t.repo.text t.signature) {id : Text} (hid : id ∈ f.stale) :
    OwnedBy t.repo.text f.path id := by
  obtain ⟨chunks, hplan, hnew⟩ := h
  rw [hnew] at hid
  exact hledger.owned _ _ (mem_listedOf_iff.mpr (.inl (mem_stale.mp hid).1))

theorem Planned.mem_ids {f : FileWork} (h : t.Planned base f) {chunk : Chunk}
    (hchunk : chunk ∈ f.toEmbed ∨ ∃ source, (source, chunk) ∈ f.toRelocate) : chunk.id ∈ f.ids := by
  obtain ⟨chunks, _, hnew⟩ := h
  rw [hnew, ids_new]
  refine List.mem_map_of_mem ?_
  rcases hchunk with hchunk | ⟨source, hchunk⟩
  · exact (toEmbed_spec hchunk chunks hnew).1
  · exact (toRelocate_spec hchunk chunks hnew).1

/-- The orphans of a group are the ids of no new row. -/
theorem ensures_clear (hsteps : t.Steps start x.1 x.2) (h : t.Underway base work x)
    (hledger : base.Ledger t.repo.text t.signature) (hfiles : ∀ f ∈ files, f ∈ work)
    (harrived : t.Arrived files x.2) :
    Ensures faults (fun w => Track.of w = x ∧ w.state.report = r)
      (Port.deleteChunks t.repo.text false (files.flatMap FileWork.orphans))
      (fun _ => t.At start fun y r' => (t.Underway base work y ∧ t.Arrived files y.2 ∧
        t.Cleared files y.2) ∧ r' = r)
      (t.Cut start faults) := by
  refine Ensures.weaken (ensures_deleteChunks hsteps ?_) (fun _ h => h) (fun _ w hw => ?_)
    fun _ _ h => h
  swap
  · obtain ⟨hsteps', hdropped, rfl⟩ := hw
    refine ⟨hsteps', ⟨⟨h.plans, ?_, ?_, ?_⟩, ?_, ?_⟩, rfl⟩
    · exact fun f hf => (hdropped.record _).trans (h.record f hf)
    · exact fun path hne => (hdropped.record _).trans (h.others path hne)
    · exact fun path hkept => hdropped.closed path (h.closed path hkept) nofun
    · intro f hf chunk hchunk
      refine hdropped.holds (harrived f hf chunk hchunk) fun horphan => ?_
      obtain ⟨f', hf', horphan⟩ := List.mem_flatMap.mp horphan
      have hplan := h.plans f (hfiles f hf)
      have hplan' := h.plans f' (hfiles f' hf')
      obtain ⟨howned, hids⟩ := hplan'.owned_orphans hledger horphan
      have hmem := hplan.mem_ids hchunk
      rw [hplan.eq hplan' ((hplan.owned_ids hmem).path_eq howned)] at hmem
      exact hids hmem
    · exact fun f hf id hid => hdropped.lacks (List.mem_flatMap.mpr ⟨f, hf, hid⟩)
  · intro row _ hrepo hid y hrecord hmem
    obtain ⟨f, hf, horphan⟩ := List.mem_flatMap.mp hid
    obtain ⟨chunks, hplan, hnew⟩ := h.plans f (hfiles f hf)
    have hintent := (hrecord f.path).trans (h.record f (hfiles f hf))
    rw [hnew] at hintent horphan
    exact .clear hplan hintent hmem hrepo horphan

theorem ensures_confirmations (hsteps : t.Steps start x.1 x.2) (h : t.Underway base work x)
    (hfiles : ∀ f ∈ files, f ∈ work) (harrived : t.Arrived files x.2)
    (hcleared : t.Cleared files x.2) :
    Ensures faults (fun w => Track.of w = x ∧ w.state.report = r)
      (Port.record t.repo.text t.signature (files.map FileWork.confirmation))
      (fun _ => t.At start fun y r' => t.Recorded files FileWork.confirmation x y ∧ r' = r)
      (t.Cut start faults) := by
  refine ensures_record (fun _ => rfl)
    (fun f hf f' hf' => (h.plans f (hfiles f hf)).eq (h.plans f' (hfiles f' hf'))) hsteps ?_
  intro f hf y hrows hrecord _
  have hplanned := h.plans f (hfiles f hf)
  obtain ⟨chunks, hplan, hnew⟩ := id hplanned
  have hholds : ∀ id, t.Holds x.2 id → t.Holds y.2 id := fun id => (holds_of_rows_eq hrows).mpr
  rw [h.record f (hfiles f hf)] at hrecord
  rw [hnew] at hrecord ⊢
  refine .confirm _ hplan hrecord (fun chunk hchunk hcounted => hholds _ ?_) fun id hid row hrow => ?_
  · refine harrived f hf chunk ?_
    have hcases := @chunk_cases f.path _ (t.record base f.path) _ hchunk
    rw [← hnew] at hcases
    exact hcases.resolve_left hcounted
  · rw [hrows] at hrow
    rw [← hnew] at hid
    exact hcleared f hf id hid row hrow

theorem ensures_supersede (hsteps : t.Steps start x.1 x.2)
    (hplans : ∀ f ∈ files, t.Planned base f)
    (hrecord : ∀ f ∈ files, t.record x.2 f.path = some f.confirmation) :
    Ensures faults (fun w => Track.of w = x ∧ w.state.report = r)
      (Port.deleteChunks t.repo.text true (files.flatMap FileWork.stale))
      (fun _ => t.At start fun y r' => t.Dropped (fun row => row.chunk.repoId = t.repo.text &&
        (files.flatMap FileWork.stale).contains row.id) true x y ∧ r' = r)
      (t.Cut start faults) := by
  refine ensures_deleteChunks hsteps ?_
  intro row _ hrepo hid y hsame hmem
  obtain ⟨f, hf, hstale⟩ := List.mem_flatMap.mp hid
  obtain ⟨chunks, hplan, hnew⟩ := hplans f hf
  have hconfirmation := (hsame f.path).trans (hrecord f hf)
  rw [hnew] at hconfirmation hstale
  exact .supersede hplan hconfirmation hmem hrepo hstale

theorem ensures_finalized (hsteps : t.Steps start x.1 x.2)
    (hplans : ∀ f ∈ files, t.Planned base f)
    (hrecord : ∀ f ∈ files, t.record x.2 f.path = some f.confirmation)
    (hstale : ∀ f ∈ files, ∀ id ∈ f.stale, t.Lacks x.2 id) :
    Ensures faults (fun w => Track.of w = x ∧ w.state.report = r)
      (Port.record t.repo.text t.signature (files.map FileWork.finalized))
      (fun _ => t.At start fun y r' => t.Recorded files FileWork.finalized x y ∧ r' = r)
      (t.Cut start faults) := by
  refine ensures_record (fun _ => rfl)
    (fun f hf f' hf' => (hplans f hf).eq (hplans f' hf')) hsteps ?_
  intro f hf y hrows hold _
  obtain ⟨chunks, hplan, hnew⟩ := hplans f hf
  rw [hrecord f hf] at hold
  have hlacks := hstale f hf
  rw [hnew] at hold hlacks ⊢
  refine .finalize _ hplan hold fun id hid row hrow => ?_
  rw [hrows] at hrow
  exact hlacks id hid row hrow

variable (t) in
/-- These files were replaced, and no other's record was touched. -/
structure Replaced (files : List FileWork) (x y : Track) : Prop where
  record : ∀ f ∈ files, t.record y.2 f.path = some f.finalized
  others : ∀ path, (∀ f ∈ files, f.path ≠ path) → t.record y.2 path = t.record x.2 path
  closed : t.Closed y.1

/-- Where a run may be cut off, reading on is no harm. -/
theorem ensures_landedOf {indexer : Indexer} (files : List (FileWork × ℕ)) :
    Ensures faults (t.At start fun _ _ => faults) (indexer.landedOf t.repo.text files)
      (fun _ => t.At start fun _ _ => faults) (t.Cut start faults) := by
  refine ensures_at fun x r hsteps hfaults => ?_
  refine Ensures.bind (Q := fun _ => t.At start fun _ _ => faults) ?_ fun landed => ?_
  · refine Ensures.attempt ((ensures_read hsteps (Q := fun _ _ _ => faults) hfaults).weaken
      (fun _ h => h) (fun _ _ h => h) fun e w h => ?_)
    cases e <;> exact h
  · cases landed with
    | ok landed => exact ensures_pure fun _ h => h
    | error err =>
      refine Ensures.bind (ensures_tell (Q := fun _ _ _ => faults) fun _ _ h => h) fun _ => ?_
      exact ensures_raise fun _ h => h

/-- The paths whose superseded rows were deleted are those of the files. -/
theorem closed_superseded {y : Track} (hsound : x.2.Sound sha256)
    (hledger : base.Ledger t.repo.text t.signature) (hplans : ∀ f ∈ files, t.Planned base f)
    (h : t.Dropped (fun row => row.chunk.repoId = t.repo.text &&
      (files.flatMap FileWork.stale).contains row.id) true x y) {path : Text}
    (hopen : leftOpen path x.1 = false) (hne : ∀ f ∈ files, f.path ≠ path) :
    leftOpen path y.1 = false := by
  refine h.closed path hopen fun _ row hrow htest => ?_
  rw [Bool.and_eq_true, decide_eq_true_iff, List.contains_iff_mem] at htest
  obtain ⟨hrepo, hid⟩ := htest
  obtain ⟨f, hf, hstale⟩ := List.mem_flatMap.mp hid
  have howned := (hsound row hrow).owned
  rw [hrepo] at howned
  rw [howned.path_eq ((hplans f hf).owned_stale hledger hstale)]
  exact hne f hf

theorem ensures_deleteOrphans (hsteps : t.Steps start x.1 x.2) (h : t.Underway base work x)
    (hledger : base.Ledger t.repo.text t.signature) (hfiles : ∀ f ∈ files, f ∈ work)
    (harrived : t.Arrived files x.2) :
    Ensures faults (fun w => Track.of w = x ∧ w.state.report = r)
      (deleteOrphans t.repo.text files)
      (fun _ => t.At start fun y r' => (t.Underway base work y ∧ t.Arrived files y.2 ∧
        t.Cleared files y.2) ∧ r' = r)
      (t.Cut start faults) := by
  rw [deleteOrphans]
  split
  · exact (ensures_clear hsteps h hledger hfiles harrived).bind fun _ => ensures_pure fun _ h => h
  next hempty =>
    rw [Bool.not_eq_true', Bool.not_eq_false, List.isEmpty_iff] at hempty
    refine ensures_pure ?_
    rintro w ⟨rfl, rfl⟩
    refine ⟨hsteps, ⟨h, harrived, fun f hf id hid => ?_⟩, rfl⟩
    exact absurd (hempty ▸ List.mem_flatMap.mpr ⟨f, hf, hid⟩) List.not_mem_nil

theorem ensures_deleteStale (hsteps : t.Steps start x.1 x.2)
    (hplans : ∀ f ∈ files, t.Planned base f)
    (hrecord : ∀ f ∈ files, t.record x.2 f.path = some f.confirmation) :
    Ensures faults (fun w => Track.of w = x ∧ w.state.report = r)
      (deleteCounted t.repo.text (files.flatMap FileWork.stale))
      (fun _ => t.At start fun y r' => t.Dropped (fun row => row.chunk.repoId = t.repo.text &&
        (files.flatMap FileWork.stale).contains row.id) true x y ∧
          r'.budgetExhausted = r.budgetExhausted)
      (t.Cut start faults) := by
  rw [deleteCounted]
  split
  · refine (ensures_supersede hsteps hplans hrecord).bind fun deleted => ?_
    exact ensures_tell fun _ _ h => ⟨h.1, h.2 ▸ rfl⟩
  next hempty =>
    rw [Bool.not_eq_true', Bool.not_eq_false, List.isEmpty_iff] at hempty
    refine ensures_pure ?_
    rintro w ⟨rfl, rfl⟩
    refine ⟨hsteps, ⟨fun _ => rfl, fun row => ?_, fun _ h _ => h⟩, rfl⟩
    rw [hempty, List.contains_nil, Bool.and_false]
    exact (and_iff_left rfl).symm

theorem ensures_conclude {indexer : Indexer} (hsignature : indexer.signature = t.signature)
    {finished : List (FileWork × ℕ)} {written : Written} (hsteps : t.Steps start x.1 x.2)
    (hsound : start.Sound sha256) (hledger : base.Ledger t.repo.text t.signature)
    (h : t.Underway base work x) (hfiles : ∀ f ∈ finished.map Prod.fst, f ∈ work)
    (harrived : t.Arrived (finished.map Prod.fst) x.2) :
    Ensures faults (fun w => Track.of w = x ∧ w.state.report = r)
      (indexer.conclude t.repo.text finished written)
      (fun _ => t.At start fun y r' => t.Replaced (finished.map Prod.fst) x y ∧
        r'.budgetExhausted = r.budgetExhausted)
      (t.Cut start faults) := by
  have hplans : ∀ f ∈ finished.map Prod.fst, t.Planned base f := fun f hf => h.plans f (hfiles f hf)
  unfold conclude
  rw [hsignature]
  generalize finished.map Prod.fst = files at *
  refine (ensures_deleteOrphans hsteps h hledger hfiles harrived).bind fun _ => ?_
  refine ensures_at fun y r' hy hcleared => ?_
  obtain ⟨⟨hunderway, harrived', hcleared⟩, rfl⟩ := hcleared
  refine Ensures.bind (Q := fun recorded => t.At start (Answered
    (fun _ z r'' => t.Recorded files FileWork.confirmation y z ∧ r'' = r')
    (fun _ _ => faults) recorded)) ?_ fun recorded => ?_
  · refine Ensures.attempt ((ensures_confirmations hy hunderway hfiles harrived' hcleared).weaken
      (fun _ h => h) (fun _ _ h => h) fun e w h => ?_)
    cases e <;> exact h
  cases recorded with
  | error err =>
    refine (ensures_landedOf finished).bind fun _ => ?_
    refine Ensures.bind (ensures_tell (Q := fun _ _ _ => faults) fun _ _ h => h) fun _ => ?_
    exact ensures_raise fun _ h => h
  | ok _ =>
    refine Ensures.bind (ensures_pure (Q := fun _ => t.At start fun z r'' =>
      t.Recorded files FileWork.confirmation y z ∧ r'' = r') fun _ h => h) fun _ => ?_
    refine Ensures.bind (ensures_tell (Q := fun _ z r'' =>
      t.Recorded files FileWork.confirmation y z ∧ r''.budgetExhausted = r'.budgetExhausted)
      fun _ _ h => ⟨h.1, h.2 ▸ rfl⟩) fun _ => ?_
    refine ensures_at fun z r'' hz hconfirmed => ?_
    obtain ⟨hconfirmed, hbudget⟩ := hconfirmed
    refine (ensures_deleteStale hz hplans hconfirmed.record).bind fun _ => ?_
    refine ensures_at fun v r₃ hv hdropped => ?_
    obtain ⟨hdropped, hbudget'⟩ := hdropped
    have hrecord : ∀ f ∈ files, t.record v.2 f.path = some f.confirmation :=
      fun f hf => (hdropped.record _).trans (hconfirmed.record f hf)
    have hlacks : ∀ f ∈ files, ∀ id ∈ f.stale, t.Lacks v.2 id :=
      fun f hf id hid => hdropped.lacks (List.mem_flatMap.mpr ⟨f, hf, hid⟩)
    refine (ensures_finalized hv hplans hrecord hlacks).weaken (fun _ h => h) (fun _ w hw => ?_)
      fun _ _ h => h
    obtain ⟨hw, hfinal, rfl⟩ := hw
    refine ⟨hw, ⟨hfinal.record, fun path hne => ?_, fun path hkept => ?_⟩, hbudget'.trans hbudget⟩
    · rw [hfinal.others path hne, hdropped.record, hconfirmed.others path hne]
      exact h.record_eq hunderway path
    · by_cases hpath : ∃ f ∈ files, f.path = path
      · obtain ⟨f, hf, rfl⟩ := hpath
        exact hfinal.final f hf rfl
      · refine hfinal.closed path (closed_superseded (hz.sound hsound) hledger hplans hdropped ?_ ?_)
        · exact hconfirmed.closed path (hunderway.closed path hkept)
        · exact fun f hf heq => hpath ⟨f, hf, heq⟩

theorem Inserted.copied {y : Track} {chunks : List (Text × Chunk)}
    (h : t.Inserted (x.2.copied t.repo.text t.signature chunks) x y)
    (hall : ∀ moved ∈ chunks, t.Holds x.2 moved.1) {moved : Text × Chunk} (hmoved : moved ∈ chunks) :
    t.Holds y.2 moved.2.id := by
  obtain ⟨source, hmem, hid, hsignature, hrepo⟩ := hall moved hmoved
  refine h.landed ⟨t.signature, moved.2⟩ (List.mem_filterMap.mpr ⟨moved, hmoved, ?_⟩)
  have hfound : (x.2.rows.get? moved.1).filter (fun row =>
      row.signature = t.signature && row.chunk.repoId = t.repo.text) = some source := by
    rw [Option.filter_eq_some_iff, Keyed.get?_eq_some_iff, Bool.and_eq_true, decide_eq_true_iff,
      decide_eq_true_iff]
    exact ⟨⟨hmem, hid⟩, hsignature, hrepo⟩
  rw [hfound, Option.map_some, hsignature]

/-- A group is replaced as a whole, unless the budget runs out. -/
theorem ensures_writeGroup {indexer : Indexer} (hsignature : indexer.signature = t.signature)
    (hsteps : t.Steps start x.1 x.2) (hsound : start.Sound sha256)
    (hledger : start.Ledger t.repo.text t.signature) (hplans : ∀ f ∈ work, t.Planned x.2 f)
    (hclosed : t.Closed x.1)
    (hsources : faults ∨ ∀ f ∈ work, ∀ moved ∈ f.toRelocate, t.Holds x.2 moved.1) :
    Ensures faults (fun w => Track.of w = x ∧ w.state.report = r)
      (indexer.writeGroup t.repo.text work)
      (fun _ => t.At start fun y r' => r'.budgetExhausted = true ∨ (t.Replaced work x y ∧
        ∀ f ∈ work, ∀ moved ∈ f.toRelocate, t.Seen start moved.1))
      (t.Cut start faults) := by
  unfold writeGroup
  rw [hsignature]
  refine (ensures_intents hsteps hplans hclosed).bind fun _ => ?_
  refine ensures_at fun y r₁ hy hintents => ?_
  obtain ⟨hunderway, hrows, _⟩ := hintents
  refine (ensures_relocate hy hunderway).bind fun relocated => ?_
  refine ensures_at fun z r₂ hz hrelocated => ?_
  obtain ⟨rfl, hcopied, _⟩ := hrelocated
  split
  next hlength =>
    -- a copy was not made: what it was to be made from is not there
    refine ensures_raise ?_
    rintro w ⟨rfl, _⟩
    refine ⟨hz, hsources.resolve_right fun hall => hlength ?_⟩
    rw [length_copied_eq_iff]
    intro moved hmoved
    obtain ⟨f, hf, hmoved⟩ := List.mem_flatMap.mp hmoved
    exact (holds_of_rows_eq hrows).mpr (hall f hf moved hmoved)
  next hlength =>
    have hall := length_copied_eq_iff.mp (not_not.mp hlength)
    have hseen : ∀ f ∈ work, ∀ moved ∈ f.toRelocate, t.Seen start moved.1 :=
      fun f hf moved hmoved => ⟨_, _, hy, hall moved (List.mem_flatMap.mpr ⟨f, hf, hmoved⟩)⟩
    refine Ensures.bind (ensures_embedBatches hsignature (fun _ => mem_queueOf) _ _
      (consecutive_batchBounds _ _ _) z r₂ hz (hunderway.inserted hcopied) ?_) fun written => ?_
    · rw [List.take_zero]
      exact fun _ h => absurd h List.not_mem_nil
    refine ensures_at fun v r₃ hv hembedded => ?_
    obtain ⟨hunderway', hgrown, hwritten, hfinished⟩ := hembedded
    have hfiles : ∀ f ∈ (finishedOf work written).map Prod.fst, f ∈ work := by
      intro f hf
      obtain ⟨file, hfile, rfl⟩ := List.mem_map.mp hf
      exact List.fst_mem_of_mem_zipIdx (List.mem_filter.mp hfile).1
    have harrived : t.Arrived ((finishedOf work written).map Prod.fst) v.2 := by
      intro f hf chunk hchunk
      obtain ⟨file, hfile, rfl⟩ := List.mem_map.mp hf
      rcases hchunk with hchunk | ⟨source, hchunk⟩
      · exact hwritten _ (mem_take_of_finished hfile hchunk)
      · exact hgrown _ (hcopied.copied hall (List.mem_flatMap.mpr ⟨file.1, hfiles _ hf, hchunk⟩))
    refine (ensures_conclude hsignature hv hsound (hsteps.ledger hledger) hunderway' hfiles
      harrived).weaken (fun _ h => h) (fun _ w hw => ⟨hw.1, ?_⟩) fun _ _ h => h
    obtain ⟨_, hreplaced, hbudget⟩ := hw
    refine hfinished.imp (fun hexhausted => hbudget.trans hexhausted) fun htotal => ⟨?_, hseen⟩
    rw [finishedOf_eq htotal, List.zipIdx_map_fst] at hreplaced
    refine ⟨hreplaced.record, fun path hne => ?_, hreplaced.closed⟩
    rw [hreplaced.others path hne, hunderway'.others path hne]

end Task

end TinySweeper.Index
