import TinySweeper.Indexer.Durable
import TinySweeper.Indexer.Settles

/-!
# What a run sends to be embedded

The queue of a group is cut into batches, each one call. The report of a run adds up what
its calls were charged, and so says which calls these were.
-/

namespace TinySweeper.Index

open Text Interrupt FileWork Indexer

/-- A part of a queue. -/
def slice {α : Type*} (queue : List α) (bound : ℕ × ℕ) : List α :=
  (queue.take bound.2).drop bound.1

theorem slice_snoc {α : Type*} {queue rest : List α} {item : α} {start position : ℕ}
    (hrest : queue.drop position = item :: rest) (hstart : start ≤ position) :
    slice queue (start, position + 1) = slice queue (start, position) ++ [item] := by
  have hitem : queue[position]? = some item := by
    rw [← List.head?_drop, hrest]
    rfl
  have hlt := (List.getElem?_eq_some_iff.mp hitem).1
  rw [slice, slice, List.take_add_one, hitem]
  refine List.drop_append_of_le_length ?_
  rw [List.length_take]
  omega

theorem length_slice {α : Type*} {queue : List α} (start : ℕ) {stop : ℕ} (h : stop ≤ queue.length) :
    (slice queue (start, stop)).length = stop - start := by
  rw [slice, List.length_drop, List.length_take, Nat.min_eq_left h]

/-- The bytes of a batch. -/
def bytesOf (batch : List (ℕ × Chunk)) : ℕ := (batch.map fun item => utf8Len item.2.text).sum

/-- A batch under both ceilings, unless it is one chunk. -/
def Fits (maxItems maxTokens : ℕ) (batch : List (ℕ × Chunk)) : Prop :=
  batch.length ≤ maxItems ∧ (batch.length ≤ 1 ∨ bytesOf batch ≤ maxTokens)

theorem fits_batchBoundsFrom {maxItems maxTokens : ℕ} (hitems : 1 ≤ maxItems)
    (queue rest : List (ℕ × Chunk)) (start position : ℕ) (hstart : start ≤ position)
    (hposition : position ≤ queue.length) (hrest : queue.drop position = rest)
    (hfits : Fits maxItems maxTokens (slice queue (start, position))) :
    ∀ bound ∈ batchBoundsFrom maxItems maxTokens start position
      (bytesOf (slice queue (start, position))) rest, Fits maxItems maxTokens (slice queue bound) := by
  induction rest generalizing start position with
  | nil =>
    intro bound hbound
    rw [batchBoundsFrom] at hbound
    split at hbound
    · rwa [List.mem_singleton.mp hbound]
    · exact absurd hbound List.not_mem_nil
  | cons item rest ih =>
    have hlt : position < queue.length := by
      rw [← not_le]
      intro hle
      rw [List.drop_of_length_le hle] at hrest
      cases hrest
    have hnext : queue.drop (position + 1) = rest := by
      rw [← List.tail_drop, hrest]
      rfl
    have hlength := length_slice start hposition
    intro bound hbound
    rw [batchBoundsFrom] at hbound
    split at hbound
    next hclose =>
      rcases List.mem_cons.mp hbound with rfl | hbound
      · exact hfits
      · -- the next batch begins with this chunk alone
        have halone : slice queue (position, position + 1) = [item] := by
          rw [slice_snoc hrest le_rfl]
          simp [slice]
        have hbytes : bytesOf (slice queue (position, position + 1)) = utf8Len item.2.text := by
          rw [halone]
          rfl
        rw [← hbytes] at hbound
        refine ih position (position + 1) (Nat.le_succ _) hlt hnext ?_ bound hbound
        rw [halone]
        exact ⟨hitems, .inl le_rfl⟩
    next hopen =>
      rw [not_or, not_and, not_lt] at hopen
      have hsnoc := slice_snoc hrest hstart
      have hbytes : bytesOf (slice queue (start, position + 1)) =
          bytesOf (slice queue (start, position)) + utf8Len item.2.text := by
        rw [hsnoc]
        simp [bytesOf]
      rw [← hbytes] at hbound
      refine ih start (position + 1) (Nat.le_succ_of_le hstart) hlt hnext ?_ bound hbound
      rw [Fits, length_slice _ hlt, hbytes]
      refine ⟨by omega, ?_⟩
      rcases Nat.eq_or_lt_of_le hstart with rfl | hlater
      · exact .inl (by omega)
      · exact .inr (hopen.2 hlater)

theorem fits_batchBounds {queue : List (ℕ × Chunk)} {maxItems maxTokens : ℕ} {bound : ℕ × ℕ}
    (h : bound ∈ batchBounds queue maxItems maxTokens) :
    Fits (max maxItems 1) maxTokens (slice queue bound) := by
  refine fits_batchBoundsFrom (le_max_right _ _) queue queue 0 0 le_rfl (Nat.zero_le _) rfl ?_ bound h
  exact ⟨by simp [slice], .inl (by simp [slice])⟩

/-- Slices that follow one another are the queue again, and none is empty. -/
theorem flatten_slices {α : Type*} {queue : List α} {start : ℕ} {bounds : List (ℕ × ℕ)}
    (h : Consecutive queue.length start bounds) (hstart : start ≤ queue.length) :
    (bounds.map (slice queue)).flatten = queue.drop start ∧
      ∀ bound ∈ bounds, slice queue bound ≠ [] := by
  induction bounds generalizing start with
  | nil =>
    obtain rfl : start = queue.length := h
    exact ⟨by simp, nofun⟩
  | cons bound bounds ih =>
    obtain ⟨first, last⟩ := bound
    obtain ⟨rfl, hlt, hlast, hrest⟩ := h
    obtain ⟨hflatten, hne⟩ := ih hrest hlast
    constructor
    · rw [List.map_cons, List.flatten_cons, hflatten, slice]
      conv_rhs => rw [← List.take_append_drop last queue]
      rw [List.drop_append_of_le_length]
      rw [List.length_take]
      omega
    · intro bound hbound
      rcases List.mem_cons.mp hbound with rfl | hbound
      · refine List.ne_nil_of_length_pos ?_
        rw [length_slice _ hlast]
        omega
      · exact hne bound hbound

/-- The calls for these slices of a queue. -/
def textsOf (queue : List (ℕ × Chunk)) (bounds : List (ℕ × ℕ)) : List (List Text) :=
  bounds.map fun bound => (slice queue bound).map fun item => item.2.text

namespace Indexer

variable (indexer : Indexer)

/-- The texts of each embedding call for a group, in order. -/
def callsOf (work : List FileWork) : List (List Text) :=
  textsOf (queueOf work) (batchBounds (queueOf work) indexer.batch indexer.maxBatchTokens)

/-- A call within the limits, or of a single chunk. -/
structure Admissible (texts : List Text) : Prop where
  nonempty : texts ≠ []
  items : texts.length ≤ max indexer.batch 1
  bytes : texts.length = 1 ∨ (texts.map utf8Len).sum ≤ indexer.maxBatchTokens

theorem admissible_callsOf {work : List FileWork} {texts : List Text}
    (h : texts ∈ indexer.callsOf work) : indexer.Admissible texts := by
  obtain ⟨bound, hbound, rfl⟩ := List.mem_map.mp h
  have hne := (flatten_slices (consecutive_batchBounds (queueOf work) indexer.batch
    indexer.maxBatchTokens) (Nat.zero_le _)).2 bound hbound
  obtain ⟨hitems, hbytes⟩ := fits_batchBounds hbound
  refine ⟨by simpa using hne, by simpa using hitems, ?_⟩
  rw [List.length_map]
  refine hbytes.imp (fun hone => le_antisymm hone (List.length_pos_iff.mpr hne)) fun hbytes => ?_
  rw [List.map_map]
  exact hbytes

/-- Every queued chunk is in one call, in order. -/
theorem flatten_callsOf (work : List FileWork) :
    (indexer.callsOf work).flatten = work.flatMap fun file => file.toEmbed.map Chunk.text := by
  have hflatten := (flatten_slices (consecutive_batchBounds (queueOf work) indexer.batch
    indexer.maxBatchTokens) (Nat.zero_le _)).1
  have hcalls : indexer.callsOf work = ((batchBounds (queueOf work) indexer.batch
      indexer.maxBatchTokens).map (slice (queueOf work))).map
        (List.map fun item => item.2.text) := by
    rw [List.map_map]
    rfl
  rw [hcalls, ← List.map_flatten, hflatten, List.drop_zero, queueOf, List.map_flatMap]
  conv_rhs => rw [← List.zipIdx_map_fst 0 work, List.flatMap_map]
  exact List.flatMap_congr fun file _ => by rw [List.map_map]; rfl

/-- The usage on report after one more call. -/
def charged (usage : EmbedUsage) (texts : List Text) : EmbedUsage :=
  usage.add ⟨1, (indexer.charge texts).tokens, (indexer.charge texts).costUsd⟩

/-- The first of these calls were sent, and no others. -/
def Begun (calls : List (List Text)) (usage : EmbedUsage) (r : IndexReport) : Prop :=
  ∃ n, r.usage = (calls.take n).foldl indexer.charged usage

/-- All of these calls were sent, or the first of them up to one that the budget did not allow. -/
def Sent (calls : List (List Text)) (usage : EmbedUsage) (r : IndexReport) : Prop :=
  ∃ n, r.usage = (calls.take n).foldl indexer.charged usage ∧
    (r.budgetExhausted = false → calls.length ≤ n)

variable {indexer} {calls calls' : List (List Text)} {usage : EmbedUsage} {r : IndexReport}

theorem Sent.begun (h : indexer.Sent calls usage r) : indexer.Begun calls usage r :=
  h.imp fun _ => And.left

theorem Sent.all (h : indexer.Sent calls usage r) (hbudget : r.budgetExhausted = false) :
    r.usage = calls.foldl indexer.charged usage := by
  obtain ⟨n, husage, hall⟩ := h
  rw [husage, List.take_of_length_le (hall hbudget)]

theorem begun_nil (h : r.usage = usage) : indexer.Begun calls usage r := ⟨0, h⟩

theorem Begun.append (h : indexer.Begun calls usage r) (calls' : List (List Text)) :
    indexer.Begun (calls ++ calls') usage r := by
  obtain ⟨n, husage⟩ := h
  refine ⟨min n calls.length, ?_⟩
  rw [List.take_append_of_le_length (Nat.min_le_right _ _), ← List.take_eq_take_min]
  exact husage

/-- What was stopped by the budget stays so. -/
theorem Sent.stopped (h : indexer.Sent calls usage r) (hbudget : r.budgetExhausted = true)
    (calls' : List (List Text)) : indexer.Sent (calls ++ calls') usage r := by
  obtain ⟨n, husage⟩ := h.begun.append calls'
  exact ⟨n, husage, fun h => by rw [hbudget] at h; cases h⟩

theorem begun_append (h : indexer.Begun calls' (calls.foldl indexer.charged usage) r) :
    indexer.Begun (calls ++ calls') usage r := by
  obtain ⟨n, husage⟩ := h
  refine ⟨calls.length + n, ?_⟩
  rw [List.take_length_add_append, List.foldl_append]
  exact husage

theorem sent_append (h : indexer.Sent calls' (calls.foldl indexer.charged usage) r) :
    indexer.Sent (calls ++ calls') usage r := by
  obtain ⟨n, husage, hall⟩ := h
  refine ⟨calls.length + n, ?_, fun hbudget => ?_⟩
  · rw [List.take_length_add_append, List.foldl_append]
    exact husage
  · rw [List.length_append]
    exact Nat.add_le_add_left (hall hbudget) _

end Indexer

section Runs

variable {indexer : Indexer} {repoId : Text} {sha256 : Text → List UInt8}
variable {content : Text → Content} {faults : Prop} {usage : EmbedUsage}

/-- What a report says of the course of a run, and the calls that are counted in it. -/
theorem steady_report {P : EmbedUsage → Bool → Prop} :
    Steady (fun _ => True) fun s => P s.report.usage s.report.budgetExhausted where
  data e _ _ s hs := hs
  report s r hs hcourse := by
    have husage : r.usage = s.report.usage := congrArg (fun c => c.2.2.1) hcourse
    have hbudget : r.budgetExhausted = s.report.budgetExhausted := congrArg (fun c => c.2.2.2) hcourse
    change P r.usage r.budgetExhausted
    rw [husage, hbudget]
    exact hs

theorem steady_usage {budget : Bool} : Steady (fun _ => True) fun s =>
    s.report.usage = usage ∧ s.report.budgetExhausted = budget :=
  @steady_report fun u b => u = usage ∧ b = budget

theorem steady_sent {calls : List (List Text)} :
    Steady (fun _ => True) fun s => indexer.Sent calls usage s.report :=
  @steady_report fun u b => ∃ n, u = (calls.take n).foldl indexer.charged usage ∧
    (b = false → calls.length ≤ n)

/-- The records of these paths are changed by no write to another file. -/
theorem steady_records {signature : Text} {paths : List Text}
    {known : Text → Option IndexedFile} : Steady (fun path => path ∉ paths) fun s =>
    ∀ path ∈ paths, s.stores.record repoId signature path = known path where
  data e hdata hfile s hs path hpath := by
    rw [← hs path hpath]
    cases e with
    | claim | release => cases hdata
    | insert row => rfl
    | remove row counted => rfl
    | record entry =>
      rw [Session.apply, record_record, if_neg]
      intro hkey
      have hsame : path = entry.file.path := congrArg (fun key => key.2.2) hkey
      exact hfile entry.file.path rfl (hsame ▸ hpath)
    | forget repoId' signature' path' =>
      rw [Session.apply, record_forget, if_neg]
      intro hkey
      have hsame : path = path' := congrArg (fun key => key.2.2) hkey
      exact hfile path' rfl (hsame ▸ hpath)
  report s r hs _ := hs

theorem spendable_records {signature : Text} {paths : List Text}
    {known : Text → Option IndexedFile} : Spendable fun s =>
    ∀ path ∈ paths, s.stores.record repoId signature path = known path :=
  fun _ _ hs _ _ => hs

/-- What is kept holds wherever the program ends. -/
theorem Keeps.ensures {J : Session → Prop} {α : Type} {p : Port α}
    {X : Option Text → World Session Effect → Prop} (h : Keeps J p)
    (hX : ∀ e w, J w.state → X e w) :
    Ensures faults (fun w => J w.state) p (fun _ w => J w.state) X :=
  (h faults).weaken (fun _ h => h) (fun _ _ h => h) hX

/-- What is read is what was there. -/
theorem ensures_reads {J : Session → Prop} {α : Type} {answer : Stores → α}
    {X : Option Text → World Session Effect → Prop} (hX : ∀ e w, J w.state → X e w) :
    Ensures faults (fun w => J w.state) (Port.read answer)
      (fun a w => a = answer w.state.stores ∧ J w.state) X := by
  rw [Port.read, Port.call]
  refine ensures_perform (fun w hw => ⟨rfl, hw⟩) fun _ w hw es hes => ?_
  rw [List.sublist_nil.mp hes]
  exact ⟨fun _ => hX _ _ hw, hX _ _ hw⟩

theorem ensures_embedBatches_sent (queue : List (ℕ × Chunk)) (bounds : List (ℕ × ℕ))
    (written : Written) (usage : EmbedUsage) :
    Ensures faults
      (fun w => w.state.report.usage = usage ∧ w.state.report.budgetExhausted = false)
      (indexer.embedBatches queue bounds written)
      (fun _ w => indexer.Sent (textsOf queue bounds) usage w.state.report)
      fun _ w => indexer.Begun (textsOf queue bounds) usage w.state.report := by
  induction bounds generalizing written usage with
  | nil => exact ensures_pure fun w hw => ⟨0, hw.1, fun _ => le_rfl⟩
  | cons bound bounds ih =>
    obtain ⟨start, stop⟩ := bound
    generalize htexts : (slice queue (start, stop)).map (fun item => item.2.text) = texts
    have hsplit : textsOf queue ((start, stop) :: bounds) = [texts] ++ textsOf queue bounds := by
      rw [← htexts]
      rfl
    rw [hsplit, embedBatches]
    change ((queue.take stop).drop start).map (fun item => item.2.text) = texts at htexts
    rw [htexts]
    refine Ensures.bind (ensures_look (Q := fun _ w => w.state.report.usage = usage ∧
      w.state.report.budgetExhausted = false) fun _ hw => hw) fun spent => ?_
    split
    · refine Ensures.bind (ensures_modify (R := fun _ w => w.state.report.usage = usage ∧
        w.state.report.budgetExhausted = true) fun w hw => ⟨hw.1, rfl⟩) fun _ => ?_
      exact ensures_pure fun w hw => ⟨0, hw.1, fun h => by rw [hw.2] at h; cases h⟩
    · refine Ensures.bind (ensures_reads (J := fun s => s.report.usage = usage ∧
        s.report.budgetExhausted = false) fun _ _ hw => begun_nil hw.1) fun response => ?_
      refine Ensures.bind (ensures_modify (R := fun _ w =>
        w.state.report.usage = indexer.charged usage texts ∧
          w.state.report.budgetExhausted = false) ?_) fun _ => ?_
      · rintro w ⟨rfl, hw⟩
        exact ⟨congrArg (fun u => EmbedUsage.add u _) hw.1, hw.2⟩
      refine Ensures.bind (Keeps.ensures (keeps_rows (fun _ => ⟨rfl, rfl⟩) steady_usage)
        fun _ _ hw => begun_append (begun_nil hw.1)) fun _ => ?_
      exact (ih _ _).weaken (fun _ h => h) (fun _ _ h => sent_append h)
        fun _ _ h => begun_append h

theorem ensures_writeGroup_sent (work : List FileWork) (usage : EmbedUsage) :
    Ensures faults
      (fun w => w.state.report.usage = usage ∧ w.state.report.budgetExhausted = false)
      (indexer.writeGroup repoId work)
      (fun _ w => indexer.Sent (indexer.callsOf work) usage w.state.report)
      fun _ w => indexer.Begun (indexer.callsOf work) usage w.state.report := by
  rw [writeGroup]
  refine Ensures.bind (Keeps.ensures (keeps_record steady_usage _ fun _ _ => trivial)
    fun _ _ hw => begun_nil hw.1) fun _ => ?_
  refine Ensures.bind (Keeps.ensures (keeps_rows (fun _ => ⟨rfl, rfl⟩) steady_usage)
    fun _ _ hw => begun_nil hw.1) fun relocated => ?_
  split
  · exact ensures_raise fun _ hw => begun_nil hw.1
  · refine (ensures_embedBatches_sent _ _ _ usage).bind fun written => ?_
    exact Keeps.ensures (keeps_conclude steady_sent (fun _ _ => trivial) written) fun _ _ hw => hw.begun

/-- The chunks of a file, if it can be read. -/
def Indexer.chunksOf (indexer : Indexer) (repoId : Text) (sha256 : Text → List UInt8)
    (content : Text → Content) (path : Text) : Option (List Chunk) :=
  (indexer.chunker.chunkBytes sha256 repoId path (content path)).toOption

/-- The plans of the files that can be read, from what is on record of them. -/
def worksOf (chunksOf : Text → Option (List Chunk)) (known : Text → Option IndexedFile)
    (group : List Text) : List FileWork :=
  group.filterMap fun path => (chunksOf path).map fun chunks => .new path chunks (known path)

theorem plans_eq (s : Stores) {known : Text → Option IndexedFile} {group : List Text}
    (h : ∀ path ∈ group, s.record repoId indexer.signature path = known path) :
    (group.map (indexer.planFile repoId sha256 content
      (s.indexed repoId indexer.signature group))).filterMap Except.toOption =
        worksOf (indexer.chunksOf repoId sha256 content) known group := by
  rw [List.filterMap_map, worksOf]
  refine List.filterMap_congr fun path hpath => ?_
  rw [Function.comp, planFile, Task.find?_indexed s repoId _ hpath, h path hpath,
    Indexer.chunksOf]
  cases indexer.chunker.chunkBytes sha256 repoId path (content path) <;> rfl

theorem ensures_indexGroup_sent (known : Text → Option IndexedFile) (group : List Text)
    (usage : EmbedUsage) :
    Ensures faults
      (fun w => (w.state.report.usage = usage ∧ w.state.report.budgetExhausted = false) ∧
        ∀ path ∈ group, w.state.stores.record repoId indexer.signature path = known path)
      (indexer.indexGroup repoId sha256 content group)
      (fun _ w => indexer.Sent (indexer.callsOf
        (worksOf (indexer.chunksOf repoId sha256 content) known group)) usage w.state.report)
      fun _ w => indexer.Begun (indexer.callsOf
        (worksOf (indexer.chunksOf repoId sha256 content) known group)) usage w.state.report := by
  rw [indexGroup]
  refine Ensures.bind (ensures_reads (J := fun s =>
    (s.report.usage = usage ∧ s.report.budgetExhausted = false) ∧
      ∀ path ∈ group, s.stores.record repoId indexer.signature path = known path)
    fun _ _ hw => begun_nil hw.1.1) fun files => ?_
  refine ensures_of_forall fun w hw => ?_
  obtain ⟨rfl, husage, hrecord⟩ := hw
  have hworks := @plans_eq indexer repoId sha256 content w.state.stores known group hrecord
  generalize worksOf (indexer.chunksOf repoId sha256 content) known group = work at hworks ⊢
  refine Ensures.bind (ensures_modify (R := fun _ w => w.state.report.usage = usage ∧
    w.state.report.budgetExhausted = false) ?_) fun _ => ?_
  · rintro w rfl
    exact husage
  rw [hworks]
  split
  next hempty =>
    obtain rfl := List.isEmpty_iff.mp hempty
    exact ensures_pure fun w hw => ⟨0, hw.1, fun _ => le_rfl⟩
  next =>
    refine Ensures.bind (Keeps.ensures (keeps_tell steady_usage)
      fun _ _ hw => begun_nil hw.1) fun _ => ?_
    exact ensures_writeGroup_sent work usage

/-- Once the budget ran out, no group is looked at. -/
theorem ensures_indexGroups_stopped (groups : List (List Text)) {P : Session → Prop}
    (hP : ∀ s, P s → s.report.budgetExhausted = true) :
    Ensures faults (fun w => P w.state) (indexer.indexGroups repoId sha256 content groups)
      (fun _ w => P w.state) fun _ _ => False := by
  cases groups with
  | nil => exact ensures_pure fun _ hw => hw
  | cons group groups =>
    rw [indexGroups]
    refine Ensures.bind (ensures_look (Q := fun exhausted w => exhausted = true ∧ P w.state)
      fun w hw => ⟨hP w.state hw, hw⟩) fun exhausted => ?_
    split
    · exact ensures_pure fun _ hw => hw.2
    next hgoes => exact ensures_of_forall fun w hw => absurd hw.1 hgoes

variable (indexer repoId sha256 content) in
/-- The calls for these groups, where this is on record before. -/
def groupCalls (known : Text → Option IndexedFile) (groups : List (List Text)) : List (List Text) :=
  groups.flatMap fun group =>
    indexer.callsOf (worksOf (indexer.chunksOf repoId sha256 content) known group)

theorem ensures_indexGroups_sent (known : Text → Option IndexedFile) (groups : List (List Text))
    (hnodup : groups.flatten.Nodup) (usage : EmbedUsage) :
    Ensures faults
      (fun w => (w.state.report.usage = usage ∧ w.state.report.budgetExhausted = false) ∧
        ∀ path ∈ groups.flatten, w.state.stores.record repoId indexer.signature path = known path)
      (indexer.indexGroups repoId sha256 content groups)
      (fun _ w => indexer.Sent (groupCalls indexer repoId sha256 content known groups) usage
        w.state.report)
      fun _ w => indexer.Begun (groupCalls indexer repoId sha256 content known groups) usage
        w.state.report := by
  induction groups generalizing usage with
  | nil => exact ensures_pure fun w hw => ⟨0, hw.1.1, fun _ => le_rfl⟩
  | cons group groups ih =>
    rw [List.flatten_cons, List.nodup_append] at hnodup
    obtain ⟨_, hnodup, hapart⟩ := hnodup
    have hcalls : groupCalls indexer repoId sha256 content known (group :: groups) =
        indexer.callsOf (worksOf (indexer.chunksOf repoId sha256 content) known group) ++
          groupCalls indexer repoId sha256 content known groups := rfl
    rw [hcalls, indexGroups]
    generalize hgroup : indexer.callsOf
      (worksOf (indexer.chunksOf repoId sha256 content) known group) = calls
    refine Ensures.bind (ensures_look (Q := fun exhausted w => exhausted = false ∧
      (w.state.report.usage = usage ∧ w.state.report.budgetExhausted = false) ∧
        ∀ path ∈ (group :: groups).flatten,
          w.state.stores.record repoId indexer.signature path = known path)
      fun w hw => ⟨hw.1.2, hw⟩) fun exhausted => ?_
    split
    next hexhausted => exact ensures_of_forall fun w hw => by rw [hw.1] at hexhausted; cases hexhausted
    next =>
      have hsent := @ensures_indexGroup_sent indexer repoId sha256 content faults known group usage
      have hlater := (@keeps_indexGroup _ _ (@steady_records repoId indexer.signature
        groups.flatten known) indexer repoId sha256 content spendable_records group
        fun path hpath hlater => hapart path hpath path hlater rfl) faults
      rw [hgroup] at hsent
      refine Ensures.bind ((hsent.and hlater).weaken (fun w hw => ?_) (fun _ _ h => h)
        fun _ _ h => h.1.append _) fun _ => ?_
      · exact ⟨⟨hw.2.1, fun path hpath => hw.2.2 path (List.mem_append_left _ hpath)⟩,
          fun path hpath => hw.2.2 path (List.mem_append_right _ hpath)⟩
      refine ensures_of_forall fun w hw => ?_
      obtain ⟨hsent, hrecord⟩ := hw
      cases hbudget : w.state.report.budgetExhausted with
      | true =>
        refine (ensures_indexGroups_stopped groups (P := fun s => s = w.state) ?_).weaken ?_ ?_ ?_
        · rintro s rfl
          exact hbudget
        · rintro w' rfl
          rfl
        · intro _ w' hw'
          rw [hw']
          exact hsent.stopped hbudget _
        · exact fun _ _ h => h.elim
      | false =>
        have husage := hsent.all hbudget
        refine (ih hnodup _).weaken (fun w' hw' => ?_) (fun _ _ h => sent_append h)
          fun _ _ h => begun_append h
        rw [hw']
        exact ⟨⟨husage, hbudget⟩, hrecord⟩

/-- What a run is to send, from what was on record when it began. -/
def callsFrom (indexer : Indexer) (repoId : Text) (sha256 : Text → List UInt8)
    (content : Text → Content) (s : Stores) (selected : List Text) : List (List Text) :=
  groupCalls indexer repoId sha256 content (s.record repoId indexer.signature)
    (selected.toChunks (max indexer.group 1))

/-- Before its groups a run has sent nothing, and has the records it began with. -/
def Unsent (indexer : Indexer) (repoId : Text) (s₀ : Stores) (s : Session) : Prop :=
  (s.report.usage = .none ∧ s.report.budgetExhausted = false) ∧
    ∀ path, s.stores.record repoId indexer.signature path = s₀.record repoId indexer.signature path

theorem steady_unsent {s₀ : Stores} : Steady (fun _ => False) (Unsent indexer repoId s₀) where
  data e hdata hfile s hs := by
    refine ⟨hs.1, fun path => ?_⟩
    refine (@steady_records repoId indexer.signature [path]
      (s₀.record repoId indexer.signature)).data e hdata (fun path' hpath' => (hfile path' hpath').elim)
        s ?_ path List.mem_cons_self
    exact fun path' _ => hs.2 path'
  report s r hs hcourse := ⟨(@steady_usage .none false).report s r hs.1 hcourse, hs.2⟩

theorem ensures_run_sent (s : Stores) {selected removed : List Text} (hnodup : selected.Nodup) :
    Ensures faults (fun w => Unsent indexer repoId s w.state)
      (indexer.run repoId sha256 content selected removed)
      (fun _ w => indexer.Sent (callsFrom indexer repoId sha256 content s selected) .none
        w.state.report)
      fun _ w => indexer.Begun (callsFrom indexer repoId sha256 content s selected) .none
        w.state.report := by
  have hflatten := Task.flatten_toChunks selected (max indexer.group 1)
  rw [run]
  refine Ensures.bind (ensures_modify (R := fun _ w => Unsent indexer repoId s w.state)
    fun w hw => hw) fun _ => ?_
  refine Ensures.bind (Keeps.ensures (keeps_removeRows steady_unsent _)
    fun _ _ hw => begun_nil hw.1.1) fun _ => ?_
  refine Ensures.bind ((ensures_indexGroups_sent (s.record repoId indexer.signature) _
    (hflatten.symm ▸ hnodup) .none).weaken (fun w hw => ⟨hw.1, fun path _ => hw.2 path⟩)
    (fun _ _ h => h) fun _ _ h => h) fun _ => ?_
  exact Keeps.ensures (keeps_removeAll steady_sent fun _ _ => trivial) fun _ _ hw => hw.begun

/-- No call writes the report. -/
theorem keeps_called {α : Type} {P : IndexReport → Prop} {effects : Stores → List Effect}
    {answer : Stores → α} : Keeps (fun s => P s.report) (Port.call effects answer) :=
  keeps_perform fun _ _ _ _ h => h

theorem keeps_claim {s : Stores} (holder : Text) :
    Keeps (Unsent indexer repoId s) (Port.claim repoId indexer.signature holder) := by
  rw [Port.claim, Port.call]
  refine keeps_perform fun s' e he s'' hs => ?_
  split at he
  · rw [List.mem_singleton.mp he]
    exact hs
  · exact absurd he List.not_mem_nil

theorem ensures_giveUp_begun {α : Type} {calls : List (List Text)} {lease : IndexLease}
    {message err : Text} {chunks : Option ℕ} {Q : α → World Session Effect → Prop} :
    Ensures faults (fun w => indexer.Begun calls .none w.state.report)
      (giveUp lease message chunks err) Q fun _ w => indexer.Begun calls .none w.state.report := by
  rw [giveUp]
  refine Ensures.bind (Keeps.ensures (Keeps.attempt keeps_called) fun _ _ hw => hw) fun _ => ?_
  exact ensures_raise fun _ hw => hw

/-- What a run reports if it comes to its end, and what it has sent wherever it ends. -/
def Accounts (indexer : Indexer) (calls : List (List Text)) (outcome : IndexOutcome)
    (w : World Session Effect) : Prop :=
  (∀ report, outcome = .indexed report → indexer.Sent calls .none report) ∧
    indexer.Begun calls .none w.state.report

theorem ensures_settle_sent {calls : List (List Text)} {lease : IndexLease} {revision : Text}
    {report : IndexReport} (chunks : ℕ) (h : indexer.Sent calls .none report) :
    Ensures faults (fun w => indexer.Begun calls .none w.state.report)
      (do
        settle lease chunks revision report
        pure (.indexed report))
      (Accounts indexer calls) fun _ w => indexer.Begun calls .none w.state.report := by
  have hrelease : Keeps (fun s => indexer.Begun calls .none s.report)
      (settle lease chunks revision report) := by
    rw [settle, Port.release]
    exact keeps_called
  refine Ensures.bind (Keeps.ensures hrelease fun _ _ hw => hw) fun _ => ?_
  refine ensures_pure fun w hw => ⟨?_, hw⟩
  rintro _ ⟨rfl⟩
  exact h

theorem ensures_guarded_sent (s : Stores) {revision : Text} {selected : List Text}
    {skipped : List SkippedFile} {removed : Removed} (hnodup : selected.Nodup) :
    Ensures faults (fun w => Unsent indexer repoId s w.state)
      (indexer.guarded repoId sha256 content revision selected skipped removed)
      (Accounts indexer (callsFrom indexer repoId sha256 content s selected))
      fun _ w => indexer.Begun (callsFrom indexer repoId sha256 content s selected) .none
        w.state.report := by
  have hnone : ∀ w : World Session Effect, Unsent indexer repoId s w.state →
      indexer.Begun (callsFrom indexer repoId sha256 content s selected) .none w.state.report :=
    fun _ hw => begun_nil hw.1.1
  have hrun := @ensures_run_sent indexer repoId sha256 content faults s selected
  generalize callsFrom indexer repoId sha256 content s selected = calls at hnone hrun ⊢
  unfold guarded
  refine Ensures.bind (Keeps.ensures (keeps_claim _) fun _ => hnone) fun claim => ?_
  cases claim with
  | error holder => exact ensures_pure fun w hw => ⟨(fun _ h => by cases h), hnone w hw⟩
  | ok lease =>
    refine Ensures.bind (Keeps.ensures (Keeps.attempt (keeps_read steady_unsent))
      fun _ => hnone) fun state => ?_
    cases state with
    | error err => exact ensures_giveUp_begun.weaken hnone (fun _ _ h => h) fun _ _ h => h
    | ok state =>
      refine Ensures.bind (Keeps.ensures (Keeps.attempt (keeps_removedPaths steady_unsent _ _))
        fun _ => hnone) fun paths => ?_
      cases paths with
      | error err => exact ensures_giveUp_begun.weaken hnone (fun _ _ h => h) fun _ _ h => h
      | ok paths =>
        refine Ensures.bind (ensures_modify (R := fun _ w => Unsent indexer repoId s w.state)
          fun w hw => ⟨⟨rfl, rfl⟩, hw.2⟩) fun _ => ?_
        refine Ensures.bind (Q := fun outcome w => indexer.Begun calls .none w.state.report ∧
          (outcome = .ok .unit → indexer.Sent calls .none w.state.report)) ?_ fun outcome => ?_
        · refine Ensures.attempt ((hrun hnodup).weaken (fun _ h => h)
            (fun _ _ h => ⟨h.begun, fun _ => h⟩) fun e w h => ?_)
          cases e with
          | none => exact h
          | some err => exact ⟨h, fun h => by cases h⟩
        refine ensures_of_forall fun w₀ hw₀ => ?_
        refine Ensures.bind (ensures_look (Q := fun report w => report = w₀.state.report ∧
          w.state.report = w₀.state.report) fun w hw => hw ▸ ⟨rfl, rfl⟩) fun report => ?_
        refine ensures_of_forall fun w hw => ?_
        obtain ⟨rfl, hreport⟩ := hw
        have hbegun : ∀ w' : World Session Effect, w' = w →
            indexer.Begun calls .none w'.state.report := by
          rintro w' rfl
          rw [hreport]
          exact hw₀.1
        cases outcome with
        | error err => exact ensures_giveUp_begun.weaken hbegun (fun _ _ h => h) fun _ _ h => h
        | ok _ =>
          have hsent := hw₀.2 rfl
          dsimp only
          split
          · have hrecount : Ensures faults (fun w' => w' = w) (attempt (indexer.recount repoId))
                (fun _ w => indexer.Begun calls .none w.state.report)
                fun _ w => indexer.Begun calls .none w.state.report := by
              refine (Keeps.ensures (Keeps.attempt (keeps_recount steady_sent))
                fun _ _ hw => hw.begun).weaken ?_ (fun _ _ hw => hw.begun) fun _ _ h => h
              rintro w' rfl
              rw [hreport]
              exact hsent
            refine hrecount.bind fun chunks => ?_
            cases chunks with
            | error err => exact ensures_giveUp_begun
            | ok chunks => exact ensures_settle_sent chunks hsent
          · exact (ensures_settle_sent _ hsent).weaken hbegun (fun _ _ h => h) fun _ _ h => h

theorem ensures_indexRepo_sent {revision : Text} (checkout : Checkout) (s : Stores)
    {selected : List Text} (hnodup : selected.Nodup)
    (hwalk : ∀ selection, indexer.walked checkout = .ok selection → selection.selected = selected) :
    Ensures faults (fun w => Unsent indexer repoId s w.state)
      (indexer.indexRepo repoId sha256 checkout revision)
      (Accounts indexer (callsFrom indexer repoId sha256 checkout.content s selected))
      fun _ w => indexer.Begun (callsFrom indexer repoId sha256 checkout.content s selected) .none
        w.state.report := by
  rw [indexRepo]
  refine Ensures.bind (Keeps.ensures (keeps_read steady_unsent)
    fun _ _ hw => begun_nil hw.1.1) fun state => ?_
  split
  · exact ensures_pure fun w hw => ⟨(fun _ h => by cases h), begun_nil hw.1.1⟩
  · cases hwalked : indexer.walked checkout with
    | error err => exact ensures_raise fun _ hw => begun_nil hw.1.1
    | ok selection =>
      obtain rfl := hwalk selection hwalked
      exact ensures_guarded_sent s hnodup

end Runs

namespace FileWork

variable {sha256 : Text → List UInt8} {path : Text} {chunks : List Chunk}

/-- What is embedded of a file: the chunks whose hash no confirmed id ends in. -/
theorem toEmbed_new (hgenuine : ∀ chunk ∈ chunks, Genuine sha256 chunk)
    (record : Option IndexedFile) : (new path chunks record).toEmbed =
      chunks.filter fun chunk => chunk.contentHash ∉ (countedOf record).map lastField := by
  rw [new]
  dsimp only
  rw [List.filter_filter]
  refine List.filter_congr fun chunk hchunk => ?_
  have hid : lastField chunk.id = chunk.contentHash := by
    rw [lastField_id (hgenuine chunk hchunk), (hgenuine chunk hchunk).hashed]
  have hnone : (byHash (sortedSet (record.elim [] IndexedFile.counted)) chunk.contentHash).isNone =
      decide (chunk.contentHash ∉ (countedOf record).map lastField) := by
    rw [Bool.eq_iff_iff, decide_eq_true_iff, Option.isNone_iff_eq_none, byHash, List.find?_eq_none,
      List.mem_map]
    simp only [List.mem_reverse, mem_sortedSet, decide_eq_true_iff, not_exists, not_and]
    rfl
  rw [hnone, Bool.and_eq_left_iff_imp, decide_eq_true_iff]
  intro hnew
  rw [Bool.not_eq_true', List.contains_eq_mem, decide_eq_false_iff_not, mem_sortedSet]
  exact fun hcounted => hnew (List.mem_map.mpr ⟨chunk.id, hcounted, hid⟩)

end FileWork

namespace Job

variable (sha256 : Text → List UInt8) (job : Job) (repo : RepoName) (s : Stores)

/-- The calls of a run over the whole checkout, from these stores. -/
def calls : List (List Text) :=
  callsFrom job.indexer repo.text sha256 job.checkout.content s (job.selected repo s)

/-- The chunks of a file whose hash is not that of a confirmed id. -/
def unconfirmed (path : Text) : List Chunk :=
  ((job.chunksOf sha256 repo path).getD []).filter fun chunk => chunk.contentHash ∉
    (countedOf (s.record repo.text job.indexer.signature path)).map lastField

/-- Each text once, file after file. -/
theorem flatten_calls : (job.calls sha256 repo s).flatten =
    (job.selected repo s).flatMap fun path =>
      (job.unconfirmed sha256 repo s path).map Chunk.text := by
  have hgroup : ∀ group : List Text, (job.indexer.callsOf (worksOf
      (job.indexer.chunksOf repo.text sha256 job.checkout.content)
      (s.record repo.text job.indexer.signature) group)).flatten = group.flatMap fun path =>
        (job.unconfirmed sha256 repo s path).map Chunk.text := by
    intro group
    rw [flatten_callsOf, worksOf]
    induction group with
    | nil => rfl
    | cons path group ih =>
      rw [List.flatMap_cons, ← ih, List.filterMap_cons, unconfirmed]
      cases hchunks : job.chunksOf sha256 repo path with
      | none =>
        change job.indexer.chunksOf repo.text sha256 job.checkout.content path = none at hchunks
        rw [hchunks]
        rfl
      | some chunks =>
        have hgenuine : ∀ chunk ∈ chunks, Genuine sha256 chunk := fun chunk hchunk =>
          ((job.task sha256 repo s).own hchunks chunk hchunk).2.2
        change job.indexer.chunksOf repo.text sha256 job.checkout.content path = some chunks at hchunks
        rw [hchunks, Option.map_some, List.flatMap_cons, toEmbed_new hgenuine]
        rfl
  have hall : ∀ groups : List (List Text), (groupCalls job.indexer repo.text sha256
      job.checkout.content (s.record repo.text job.indexer.signature) groups).flatten =
        groups.flatten.flatMap fun path => (job.unconfirmed sha256 repo s path).map Chunk.text := by
    intro groups
    induction groups with
    | nil => rfl
    | cons group groups ih =>
      rw [List.flatten_cons, List.flatMap_append, ← ih, ← hgroup, ← List.flatten_append]
      rfl
  rw [calls, callsFrom, hall, Task.flatten_toChunks]

theorem admissible_calls {texts : List Text} (h : texts ∈ job.calls sha256 repo s) :
    job.indexer.Admissible texts := by
  obtain ⟨group, _, hcall⟩ := List.mem_flatMap.mp h
  exact job.indexer.admissible_callsOf hcall

variable {job repo s} in
/-- However its calls go, a run sends its calls in order; one that is done has sent them all,
unless the budget ran out. -/
theorem runFrom_sent (hwhole : job.paths = none) (hnodup : (job.selected repo s).Nodup)
    (plan : List (Option (Fault Text))) :
    (∀ report m, job.runFrom sha256 repo s plan = (.done (.indexed report), m) →
      job.indexer.Sent (job.calls sha256 repo s) .none report) ∧
    job.indexer.Begun (job.calls sha256 repo s) .none
      (job.runFrom sha256 repo s plan).2.state.report := by
  have hrun : Ensures True (fun w => Unsent job.indexer repo.text s w.state) (job.run sha256 repo)
      (Accounts job.indexer (job.calls sha256 repo s))
      fun _ w => job.indexer.Begun (job.calls sha256 repo s) .none w.state.report := by
    rw [Job.run, hwhole]
    refine ensures_indexRepo_sent job.checkout s hnodup fun selection hwalk => ?_
    refine (Job.selected_eq ?_).symm
    rw [Job.selection, hwhole]
    exact hwalk
  have hmeets := hrun ⟨⟨⟨s, .default⟩, []⟩, plan⟩ (fun _ => trivial) ⟨⟨rfl, rfl⟩, fun _ => rfl⟩
  rw [Job.runFrom]
  rcases hend : job.run sha256 repo ⟨⟨⟨s, .default⟩, []⟩, plan⟩ with ⟨answer, m⟩
  rw [hend] at hmeets
  cases answer with
  | done outcome =>
    refine ⟨fun report m' h => ?_, hmeets.1.2⟩
    obtain ⟨houtcome, _⟩ := Prod.mk.inj h
    injection houtcome with houtcome
    exact hmeets.1.1 report houtcome
  | failed err => exact ⟨(fun _ _ h => by cases h), hmeets.1⟩
  | stopped => exact ⟨(fun _ _ h => by cases h), hmeets⟩

end Job

end TinySweeper.Index
