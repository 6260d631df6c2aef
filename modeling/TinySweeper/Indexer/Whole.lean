import TinySweeper.Indexer.Group

/-!
# A run keeps to the protocol

Group after group is replaced. Removed paths lose their counted rows, then their other rows,
then their records.
-/

namespace TinySweeper.Index

open Text Interrupt FileWork Indexer

namespace Task

variable {sha256 : Text → List UInt8} (t : Task sha256) (start : Stores) {faults : Prop}
variable {x : Track} {r : IndexReport} {indexer : Indexer} {content : Text → Content}
variable {paths paths' : List Text}

/-- This indexer works on the task over these files. -/
structure Served (indexer : Indexer) (content : Text → Content) : Prop where
  signature : indexer.signature = t.signature
  chunksOf : ∀ path, t.chunksOf path =
    (indexer.chunker.chunkBytes sha256 t.repo.text path (content path)).toOption

/-- What was read of these paths is confirmed, and no other record was touched. -/
structure Advanced (paths : List Text) (x y : Track) : Prop where
  record : ∀ path ∈ paths, ∀ chunks, t.chunksOf path = some chunks →
    t.record y.2 path = some (.confirmed path (chunks.map Chunk.id))
  seen : ∀ path ∈ paths, ∀ chunks, t.chunksOf path = some chunks →
    ∀ moved ∈ (new path chunks (t.record x.2 path)).toRelocate, t.Seen start moved.1
  others : ∀ path, path ∉ paths ∨ t.chunksOf path = none → t.record y.2 path = t.record x.2 path
  closed : t.Closed y.1

variable {t start}

theorem path_of_record {s : Stores} {repoId signature path : Text} {file : IndexedFile}
    (h : s.record repoId signature path = some file) : file.path = path := by
  obtain ⟨entry, hentry, rfl⟩ := Option.map_eq_some_iff.mp h
  exact congrArg (fun key => key.2.2) (Keyed.get?_eq_some_iff.mp hentry).2

/-- A group's records, and the one among them of a path. -/
theorem find?_indexed (s : Stores) (repoId signature : Text) {paths : List Text} {path : Text}
    (h : path ∈ paths) :
    ((s.indexed repoId signature paths).find? fun file => file.path = path) =
      s.record repoId signature path := by
  cases hrecord : s.record repoId signature path with
  | none =>
    refine List.find?_eq_none.mpr fun file hfile hpath => ?_
    obtain ⟨path', _, hfound⟩ := List.mem_filterMap.mp hfile
    rw [decide_eq_true_iff, path_of_record hfound] at hpath
    rw [hpath, hrecord] at hfound
    cases hfound
  | some file =>
    have hmem : file ∈ s.indexed repoId signature paths := List.mem_filterMap.mpr ⟨path, h, hrecord⟩
    cases hfind : (s.indexed repoId signature paths).find? fun file => file.path = path with
    | none => exact absurd (path_of_record hrecord) (by simpa using List.find?_eq_none.mp hfind file hmem)
    | some file' =>
      have hpath : file'.path = path := by simpa using List.find?_some hfind
      obtain ⟨path', _, hfound⟩ := List.mem_filterMap.mp (List.mem_of_find?_eq_some hfind)
      rw [(path_of_record hfound).symm.trans hpath, hrecord] at hfound
      exact hfound.symm

/-- A file is planned from its record, if it can be read. -/
theorem planFile_eq (h : t.Served indexer content) (s : Stores) {group : List Text} {path : Text}
    (hpath : path ∈ group) :
    (indexer.planFile t.repo.text sha256 content (s.indexed t.repo.text t.signature group)
      path).toOption = (t.chunksOf path).map fun chunks => new path chunks (t.record s path) := by
  rw [h.chunksOf, planFile, find?_indexed s _ _ hpath]
  cases indexer.chunker.chunkBytes sha256 t.repo.text path (content path) <;> rfl

theorem ensures_indexGroup (hserved : t.Served indexer content) (hsteps : t.Steps start x.1 x.2)
    (hsound : start.Sound sha256) (hledger : start.Ledger t.repo.text t.signature)
    (hclosed : t.Closed x.1) {group : List Text} (hkept : ∀ path ∈ group, path ∉ t.removed)
    (hsources : faults ∨ ∀ path ∈ group, ∀ chunks, t.chunksOf path = some chunks →
      ∀ moved ∈ (new path chunks (t.record x.2 path)).toRelocate, t.Holds x.2 moved.1) :
    Ensures faults (fun w => Track.of w = x ∧ w.state.report = r)
      (indexer.indexGroup t.repo.text sha256 content group)
      (fun _ => t.At start fun y r' => r'.budgetExhausted = true ∨ t.Advanced start group x y)
      (t.Cut start faults) := by
  unfold indexGroup
  rw [hserved.signature]
  refine Ensures.bind (ensures_read hsteps (Q := fun known y _ =>
    known = x.2.indexed t.repo.text t.signature group ∧ y = x) ⟨rfl, rfl⟩) fun known => ?_
  refine ensures_at fun y r₁ _ hknown => ?_
  obtain ⟨rfl, rfl⟩ := hknown
  generalize hwork : (group.map (indexer.planFile t.repo.text sha256 content
    (y.2.indexed t.repo.text t.signature group))).filterMap Except.toOption = work
  have hmem : ∀ f, f ∈ work ↔ ∃ path ∈ group, ∃ chunks, t.chunksOf path = some chunks ∧
      new path chunks (t.record y.2 path) = f := by
    intro f
    rw [← hwork, List.filterMap_map, List.mem_filterMap]
    refine exists_congr fun path => and_congr_right fun hpath => ?_
    rw [Function.comp, planFile_eq hserved _ hpath, Option.map_eq_some_iff]
  have hplans : ∀ f ∈ work, t.Planned y.2 f := by
    intro f hf
    obtain ⟨path, hpath, chunks, hchunks, rfl⟩ := (hmem f).mp hf
    exact ⟨chunks, ⟨hchunks, hkept path hpath⟩, rfl⟩
  have hothers : ∀ path, path ∉ group ∨ t.chunksOf path = none → ∀ f ∈ work, f.path ≠ path := by
    rintro path hpath f hf rfl
    obtain ⟨path', hpath', chunks, hchunks, rfl⟩ := (hmem f).mp hf
    rcases hpath with hpath | hpath
    · exact hpath hpath'
    · exact Option.some_ne_none _ (hchunks.symm.trans hpath)
  refine Ensures.bind (Q := fun _ => t.At start fun z _ => z = y)
    ((ensures_tell (φ := fun z _ => z = y) fun _ _ hz => hz).weaken ?_ (fun _ _ h => h)
      fun _ _ h => h) fun _ => ?_
  · rintro w ⟨rfl, rfl⟩
    exact ⟨hsteps, rfl⟩
  rw [hwork]
  split
  next hempty =>
    rw [List.isEmpty_iff] at hempty
    refine ensures_pure fun w hw => ⟨hw.1, .inr ?_⟩
    obtain ⟨_, rfl⟩ := hw
    have hnone : ∀ path ∈ group, ∀ chunks, t.chunksOf path ≠ some chunks := by
      intro path hpath chunks hchunks
      have hf := (hmem _).mpr ⟨path, hpath, chunks, hchunks, rfl⟩
      exact List.not_mem_nil (hempty ▸ hf)
    exact ⟨fun path hpath chunks hchunks => absurd hchunks (hnone path hpath chunks),
      fun path hpath chunks hchunks => absurd hchunks (hnone path hpath chunks), fun _ _ => rfl,
      hclosed⟩
  next =>
    refine Ensures.bind (ensures_tell (Q := fun _ z _ => z = y) fun _ _ hz => hz) fun _ => ?_
    refine ensures_at fun z r₂ hz hzy => ?_
    subst hzy
    refine Ensures.weaken (ensures_writeGroup hserved.signature hz hsound hledger hplans hclosed ?_)
      (fun _ h => h) (fun _ w hw => ⟨hw.1, hw.2.imp_right ?_⟩) fun _ _ h => h
    swap
    · rintro ⟨hreplaced, hseen⟩
      refine ⟨?_, ?_, fun path hpath => hreplaced.others path (hothers path hpath), hreplaced.closed⟩
      · intro path hpath chunks hchunks
        exact hreplaced.record _ ((hmem _).mpr ⟨path, hpath, chunks, hchunks, rfl⟩)
      · intro path hpath chunks hchunks
        exact hseen _ ((hmem _).mpr ⟨path, hpath, chunks, hchunks, rfl⟩)
    · refine hsources.imp_right fun hall f hf => ?_
      obtain ⟨path, hpath, chunks, hchunks, rfl⟩ := (hmem f).mp hf
      exact hall path hpath chunks hchunks

/-- Where a confirmed file is read again, nothing moved. -/
theorem notMem_toRelocate_confirmed {path : Text} {chunks : List Chunk} (moved : Text × Chunk) :
    moved ∉ (new path chunks (some (.confirmed path (chunks.map Chunk.id)))).toRelocate := by
  intro hmoved
  obtain ⟨hchunk, hcounted, _⟩ := mem_toRelocate hmoved
  refine hcounted (List.mem_append_left _ (List.mem_map_of_mem hchunk))

variable (t start) in
/-- What a group of these paths may find on record. -/
def Waiting (paths : List Text) (s : Stores) : Prop :=
  ∀ path ∈ paths, t.record s path = t.record start path ∨
    ∃ chunks, t.chunksOf path = some chunks ∧
      t.record s path = some (.confirmed path (chunks.map Chunk.id))

variable (t start) in
/-- All that moved in these files can be copied. -/
def Sourced (paths : List Text) : Prop :=
  ∀ path ∈ paths, ∀ chunks, t.chunksOf path = some chunks →
    ∀ moved ∈ (new path chunks (t.record start path)).toRelocate, t.Holds start moved.1

/-- What can be copied at the start can be copied when its group comes. -/
theorem Sourced.holds (h : t.Sourced start paths) (hsteps : t.Steps start x.1 x.2)
    (hsound : start.Sound sha256) (hledger : start.Ledger t.repo.text t.signature)
    (hclosed : t.Closed x.1) (hwaiting : t.Waiting start paths x.2) {path : Text}
    (hpath : path ∈ paths) (hkept : path ∉ t.removed) {chunks : List Chunk}
    (hchunks : t.chunksOf path = some chunks) :
    ∀ moved ∈ (new path chunks (t.record x.2 path)).toRelocate, t.Holds x.2 moved.1 := by
  intro moved hmoved
  have hcounted := (mem_toRelocate hmoved).2.2.1
  rcases hwaiting path hpath with hrecord | ⟨chunks', hchunks', hrecord⟩
  · refine (hsteps.backed hsound hledger).counted path (hclosed path hkept) _ hcounted ?_
    rw [hrecord] at hmoved
    exact fun _ _ => h path hpath chunks hchunks moved hmoved
  · obtain rfl := Option.some.inj (hchunks.symm.trans hchunks')
    rw [hrecord] at hmoved
    exact absurd hmoved (notMem_toRelocate_confirmed moved)

theorem Advanced.trans {y z : Track} (h : t.Advanced start paths x y)
    (h' : t.Advanced start paths' y z) : t.Advanced start (paths ++ paths') x z where
  record path hpath chunks hchunks := by
    by_cases hmem : path ∈ paths'
    · exact h'.record path hmem chunks hchunks
    · rw [h'.others path (.inl hmem)]
      exact h.record path ((List.mem_append.mp hpath).resolve_right hmem) chunks hchunks
  seen path hpath chunks hchunks := by
    by_cases hmem : path ∈ paths
    · exact h.seen path hmem chunks hchunks
    · rw [← h.others path (.inl hmem)]
      exact h'.seen path ((List.mem_append.mp hpath).resolve_left hmem) chunks hchunks
  others path hpath := by
    rw [List.mem_append, not_or] at hpath
    rw [h'.others path (hpath.imp_left And.right), h.others path (hpath.imp_left And.left)]
  closed := h'.closed

theorem Advanced.waiting {y : Track} (h : t.Advanced start paths x y)
    (hwaiting : t.Waiting start paths' x.2) : t.Waiting start paths' y.2 := by
  intro path hpath
  by_cases hmem : path ∉ paths ∨ t.chunksOf path = none
  · rw [h.others path hmem]
    exact hwaiting path hpath
  · rw [not_or, not_not] at hmem
    obtain ⟨chunks, hchunks⟩ := Option.ne_none_iff_exists'.mp hmem.2
    exact .inr ⟨chunks, hchunks, h.record path hmem.1 chunks hchunks⟩

theorem ensures_indexGroups_exhausted (groups : List (List Text)) (x : Track) (r : IndexReport)
    (hsteps : t.Steps start x.1 x.2) (hexhausted : r.budgetExhausted = true) :
    Ensures faults (fun w => Track.of w = x ∧ w.state.report = r)
      (indexer.indexGroups t.repo.text sha256 content groups)
      (fun _ => t.At start fun _ r' => r'.budgetExhausted = true) (t.Cut start faults) := by
  cases groups with
  | nil =>
    refine ensures_pure ?_
    rintro w ⟨rfl, rfl⟩
    exact ⟨hsteps, hexhausted⟩
  | cons group groups =>
    rw [indexGroups]
    refine Ensures.bind (ensures_look (Q := fun exhausted w => exhausted = true ∧
      Track.of w = x ∧ w.state.report = r) fun w hw => ⟨hw.2 ▸ hexhausted, hw⟩) fun exhausted => ?_
    split
    · refine ensures_pure ?_
      rintro w ⟨_, rfl, rfl⟩
      exact ⟨hsteps, hexhausted⟩
    next hgoes => exact ensures_of_forall fun w hw => absurd hw.1 hgoes

theorem ensures_indexGroups (hserved : t.Served indexer content) (hsound : start.Sound sha256)
    (hledger : start.Ledger t.repo.text t.signature) (groups : List (List Text)) (x : Track)
    (r : IndexReport) (hsteps : t.Steps start x.1 x.2) (hclosed : t.Closed x.1)
    (hkept : ∀ path ∈ groups.flatten, path ∉ t.removed)
    (hwaiting : t.Waiting start groups.flatten x.2)
    (hsources : faults ∨ t.Sourced start groups.flatten) :
    Ensures faults (fun w => Track.of w = x ∧ w.state.report = r)
      (indexer.indexGroups t.repo.text sha256 content groups)
      (fun _ => t.At start fun y r' =>
        r'.budgetExhausted = true ∨ t.Advanced start groups.flatten x y)
      (t.Cut start faults) := by
  induction groups generalizing x r with
  | nil =>
    refine ensures_pure ?_
    rintro w ⟨rfl, rfl⟩
    exact ⟨hsteps, .inr ⟨nofun, nofun, fun _ _ => rfl, hclosed⟩⟩
  | cons group groups ih =>
    have hmem : ∀ {path}, path ∈ group → path ∈ (group :: groups).flatten :=
      fun hpath => List.mem_append_left _ hpath
    have hrest : ∀ {path}, path ∈ groups.flatten → path ∈ (group :: groups).flatten :=
      fun hpath => List.mem_append_right _ hpath
    rw [indexGroups]
    refine Ensures.bind (ensures_look (Q := fun exhausted w => exhausted = r.budgetExhausted ∧
      Track.of w = x ∧ w.state.report = r) fun w hw => ⟨hw.2 ▸ rfl, hw⟩) fun exhausted => ?_
    split
    next hexhausted =>
      refine ensures_pure ?_
      rintro w ⟨hr, rfl, rfl⟩
      exact ⟨hsteps, .inl (hr.symm.trans hexhausted)⟩
    next =>
      refine Ensures.bind (Q := fun _ => t.At start fun y r' =>
        r'.budgetExhausted = true ∨ t.Advanced start group x y) ?_ fun _ => ?_
      · refine (ensures_indexGroup hserved hsteps hsound hledger hclosed
          (fun path hpath => hkept path (hmem hpath)) ?_).weaken (fun _ h => h.2)
          (fun _ _ h => h) fun _ _ h => h
        exact hsources.imp_right fun h path hpath chunks hchunks =>
          h.holds hsteps hsound hledger hclosed hwaiting (hmem hpath) (hkept path (hmem hpath)) hchunks
      · refine ensures_at fun y r' hy hadvanced => ?_
        rcases hadvanced with hexhausted | hadvanced
        · exact (ensures_indexGroups_exhausted groups y r' hy hexhausted).weaken (fun _ h => h)
            (fun _ _ h => ⟨h.1, .inl h.2⟩) fun _ _ h => h
        · refine (ih y r' hy hadvanced.closed (fun path hpath => hkept path (hrest hpath)) ?_ ?_).weaken
            (fun _ h => h) (fun _ w hw => ⟨hw.1, hw.2.imp_right hadvanced.trans⟩) fun _ _ h => h
          · exact fun path hpath => hadvanced.waiting hwaiting path (hrest hpath)
          · exact hsources.imp_right fun h path hpath => h path (hrest hpath)

variable (t) in
/-- The repository has no row of these paths, and no other row or record was touched. -/
structure Withdrawn (paths : List Text) (x y : Track) : Prop where
  record : ∀ path, t.record y.2 path = t.record x.2 path
  rows : ∀ row ∈ y.2.rows, row.chunk.repoId = t.repo.text → row.chunk.path ∉ paths
  closed : t.Closed x.1 → t.Closed y.1

theorem mem_flatMap_counted {s : Stores} {id : Text} :
    id ∈ (s.indexed t.repo.text t.signature paths).flatMap IndexedFile.counted ↔
      ∃ path ∈ paths, id ∈ countedOf (t.record s path) := by
  rw [List.mem_flatMap]
  constructor
  · rintro ⟨file, hfile, hid⟩
    obtain ⟨path, hpath, hrecord⟩ := List.mem_filterMap.mp hfile
    change t.record s path = some file at hrecord
    exact ⟨path, hpath, hrecord ▸ hid⟩
  · rintro ⟨path, hpath, hid⟩
    cases hrecord : t.record s path with
    | none => exact absurd (hrecord ▸ hid) List.not_mem_nil
    | some file =>
      rw [hrecord] at hid
      exact ⟨file, List.mem_filterMap.mpr ⟨path, hpath, hrecord⟩, hid⟩

/-- The counted rows of removed paths go, and no path that is kept is opened by it. -/
theorem ensures_withdraw (hsteps : t.Steps start x.1 x.2) (hsound : start.Sound sha256)
    (hledger : start.Ledger t.repo.text t.signature) (hremoved : ∀ path ∈ paths, path ∈ t.removed) :
    Ensures faults (fun w => Track.of w = x ∧ w.state.report = r)
      (deleteCounted t.repo.text
        ((x.2.indexed t.repo.text t.signature paths).flatMap IndexedFile.counted))
      (fun _ => t.At start fun y r' => ((∀ path, t.record y.2 path = t.record x.2 path) ∧
        (∀ path ∈ paths, ∀ id ∈ countedOf (t.record x.2 path), t.Lacks y.2 id) ∧
        (t.Closed x.1 → t.Closed y.1)) ∧ r'.budgetExhausted = r.budgetExhausted)
      (t.Cut start faults) := by
  rw [deleteCounted]
  split
  · refine (ensures_deleteChunks hsteps ?_).bind fun deleted => ?_
    · intro row hrow hrepo hid y hrecord hmem
      obtain ⟨path, hpath, hcounted⟩ := mem_flatMap_counted.mp hid
      exact .withdraw (hremoved path hpath) hmem hrepo ((hrecord path).symm ▸ hcounted)
    · refine ensures_tell fun y r' h => ?_
      obtain ⟨hdropped, rfl⟩ := h
      refine ⟨⟨hdropped.record, fun path hpath id hid => ?_, fun hclosed path hkept => ?_⟩, rfl⟩
      · exact hdropped.lacks (mem_flatMap_counted.mpr ⟨path, hpath, hid⟩)
      · refine hdropped.closed path (hclosed path hkept) fun _ row hrow htest => ?_
        rw [Bool.and_eq_true, decide_eq_true_iff, List.contains_iff_mem] at htest
        obtain ⟨path', hpath', hcounted⟩ := mem_flatMap_counted.mp htest.2
        rw [path_of_listed (hsteps.ledger hledger) (hsteps.sound hsound) hrow htest.1
          (mem_listedOf_of_counted hcounted)]
        exact fun heq => hkept (heq ▸ hremoved path' hpath')
  next hempty =>
    rw [Bool.not_eq_true', Bool.not_eq_false, List.isEmpty_iff] at hempty
    refine ensures_pure ?_
    rintro w ⟨rfl, rfl⟩
    refine ⟨hsteps, ⟨fun _ => rfl, fun path hpath id hid => ?_, id⟩, rfl⟩
    have hmem := mem_flatMap_counted.mpr ⟨path, hpath, hid⟩
    rw [hempty] at hmem
    exact absurd hmem List.not_mem_nil

/-- What is left of the rows of removed paths was never counted. -/
theorem ensures_sweep (hsteps : t.Steps start x.1 x.2) (hremoved : ∀ path ∈ paths, path ∈ t.removed)
    (hlacks : ∀ path ∈ paths, ∀ id ∈ countedOf (t.record x.2 path), t.Lacks x.2 id) :
    Ensures faults (fun w => Track.of w = x ∧ w.state.report = r)
      (Port.deletePaths t.repo.text paths)
      (fun _ => t.At start fun y r' => t.Dropped (fun row =>
        row.chunk.repoId = t.repo.text && paths.contains row.chunk.path) false x y ∧ r' = r)
      (t.Cut start faults) := by
  refine Ensures.weaken (ensures_remove hsteps fun row hrow htest y hrecord hmem => ?_)
    (fun _ h => h) (fun _ _ h => ⟨h.1, h.2.2⟩) fun _ _ h => h
  rw [Bool.and_eq_true, decide_eq_true_iff, List.contains_iff_mem] at htest
  refine .sweep (hremoved _ htest.2) hmem htest.1 fun hcounted => ?_
  rw [hrecord] at hcounted
  exact hlacks _ htest.2 _ hcounted row hrow htest.1 rfl

theorem ensures_removeRows (hsignature : indexer.signature = t.signature)
    (hsteps : t.Steps start x.1 x.2) (hsound : start.Sound sha256)
    (hledger : start.Ledger t.repo.text t.signature) (hremoved : ∀ path ∈ paths, path ∈ t.removed) :
    Ensures faults (fun w => Track.of w = x ∧ w.state.report = r)
      (indexer.removeRows t.repo.text paths)
      (fun _ => t.At start fun y r' => t.Withdrawn paths x y ∧
        r'.budgetExhausted = r.budgetExhausted)
      (t.Cut start faults) := by
  rw [removeRows, hsignature]
  split
  next hempty =>
    rw [List.isEmpty_iff] at hempty
    refine ensures_pure ?_
    rintro w ⟨rfl, rfl⟩
    exact ⟨hsteps, ⟨fun _ => rfl, fun _ _ _ => hempty ▸ List.not_mem_nil, id⟩, rfl⟩
  next =>
    refine Ensures.bind (ensures_read hsteps (Q := fun files y r' =>
      files = x.2.indexed t.repo.text t.signature paths ∧ y = x ∧ r' = r) ⟨rfl, rfl, rfl⟩)
      fun files => ?_
    refine ensures_at fun y r₁ _ hfiles => ?_
    obtain ⟨rfl, rfl, rfl⟩ := hfiles
    refine (ensures_withdraw hsteps hsound hledger hremoved).bind fun _ => ?_
    refine ensures_at fun z r₂ hz hwithdrawn => ?_
    obtain ⟨⟨hrecord, hlacks, hclosed⟩, hbudget⟩ := hwithdrawn
    refine (ensures_sweep hz hremoved ?_).bind fun _ => ensures_pure fun w hw => ?_
    · intro path hpath id hid
      rw [hrecord] at hid
      exact hlacks path hpath id hid
    · obtain ⟨hw, hdropped, hr⟩ := hw
      refine ⟨hw, ⟨fun path => (hdropped.record path).trans (hrecord path), ?_, ?_⟩, hr ▸ hbudget⟩
      · intro row hrow hrepo hpath
        have htest := ((hdropped.rows row).mp hrow).2
        rw [Bool.and_eq_false_iff, decide_eq_false_iff_not, List.contains_eq_mem,
          decide_eq_false_iff_not] at htest
        exact htest.elim (fun hne => hne hrepo) fun hne => hne hpath
      · exact fun h path hkept => hdropped.closed path (hclosed h path hkept) nofun

variable (t) in
/-- The records of these paths are gone, and no row or other record was touched. -/
structure Forgotten (paths : List Text) (x y : Track) : Prop where
  gone : ∀ path ∈ paths, t.record y.2 path = none
  others : ∀ path ∉ paths, t.record y.2 path = t.record x.2 path
  rows : y.2.rows = x.2.rows
  closed : t.Closed x.1 → t.Closed y.1

theorem ensures_forget (hsteps : t.Steps start x.1 x.2) (hremoved : ∀ path ∈ paths, path ∈ t.removed)
    (hrows : ∀ row ∈ x.2.rows, row.chunk.repoId = t.repo.text → row.chunk.path ∉ paths) :
    Ensures faults (fun w => Track.of w = x ∧ w.state.report = r)
      (Port.forget t.repo.text t.signature paths)
      (fun _ => t.At start fun y r' => t.Forgotten paths x y ∧ r' = r) (t.Cut start faults) := by
  refine ensures_call
    (J := fun y => y.2.rows = x.2.rows ∧
      (∀ path ∉ paths, t.record y.2 path = t.record x.2 path) ∧ (t.Closed x.1 → t.Closed y.1))
    (K := fun e y => ∀ path, e = .forget t.repo.text t.signature path → t.record y.2 path = none)
    hsteps ⟨rfl, fun _ _ => rfl, id⟩ ?_ ?_ ?_
  · intro e he y ⟨hsame, hothers, hclosed⟩
    obtain ⟨path, hpath, rfl⟩ := List.mem_map.mp he
    refine ⟨.forget (hremoved path hpath) fun row hrow hrepo heq => ?_, ⟨hsame, ?_, ?_⟩, ?_⟩
    · exact hrows row (hsame ▸ hrow) hrepo (heq ▸ hpath)
    · intro path' hpath'
      have hne : path' ≠ path := fun heq => hpath' (heq ▸ hpath)
      rw [Track.step, record_forget, if_neg hne]
      exact hothers path' hpath'
    · intro hx path' hkept
      rw [Track.step, leftOpen_snoc, Effect.exposes]
      split
      · rfl
      · exact hclosed hx path' hkept
    · intro path' heq
      injection heq with _ _ heq
      rw [Track.step, record_forget, if_pos heq.symm]
  · intro e _ e' he' y _ hK path heq
    obtain ⟨path', hpath', rfl⟩ := List.mem_map.mp he'
    rw [Track.step, record_forget]
    split
    · rfl
    · exact hK path heq
  · intro y ⟨hsame, hothers, hclosed⟩ hall
    exact ⟨⟨fun path hpath => hall _ (List.mem_map_of_mem hpath) path rfl, hothers, hsame, hclosed⟩,
      rfl⟩

variable (t) in
/-- No row and no record of a removed path is left, and no other record was touched. -/
structure Removal (x y : Track) : Prop where
  gone : ∀ path ∈ t.removed, t.record y.2 path = none
  others : ∀ path ∉ t.removed, t.record y.2 path = t.record x.2 path
  rows : ∀ row ∈ y.2.rows, row.chunk.repoId = t.repo.text → row.chunk.path ∉ t.removed
  closed : t.Closed x.1 → t.Closed y.1

theorem ensures_removal (hsignature : indexer.signature = t.signature)
    (hsteps : t.Steps start x.1 x.2) (hsound : start.Sound sha256)
    (hledger : start.Ledger t.repo.text t.signature) :
    Ensures faults (fun w => Track.of w = x ∧ w.state.report = r)
      (indexer.removeAll t.repo.text t.removed)
      (fun _ => t.At start fun y r' => t.Removal x y ∧ r'.budgetExhausted = r.budgetExhausted)
      (t.Cut start faults) := by
  rw [removeAll, hsignature]
  split
  next =>
    refine (ensures_removeRows hsignature hsteps hsound hledger fun _ h => h).bind fun _ => ?_
    refine ensures_at fun y r₁ hy hwithdrawn => ?_
    obtain ⟨hwithdrawn, hbudget⟩ := hwithdrawn
    refine (ensures_forget hy (fun _ h => h) hwithdrawn.rows).bind fun _ => ?_
    refine ensures_tell fun z r₂ hz => ?_
    obtain ⟨hforgotten, rfl⟩ := hz
    refine ⟨⟨hforgotten.gone, fun path hpath => ?_, ?_, fun h => ?_⟩, hbudget⟩
    · exact (hforgotten.others path hpath).trans (hwithdrawn.record path)
    · exact fun row hrow => hwithdrawn.rows row (hforgotten.rows ▸ hrow)
    · exact hforgotten.closed (hwithdrawn.closed h)
  next hempty =>
    rw [Bool.not_eq_true', Bool.not_eq_false, List.isEmpty_iff] at hempty
    refine ensures_pure ?_
    rintro w ⟨rfl, rfl⟩
    refine ⟨hsteps, ⟨fun path hpath => ?_, fun _ _ => rfl, fun _ _ _ => ?_, id⟩, rfl⟩
    · exact absurd (hempty ▸ hpath) List.not_mem_nil
    · exact hempty ▸ List.not_mem_nil

theorem flatten_toChunks {α : Type*} (xs : List α) (n : ℕ) : (xs.toChunks n).flatten = xs := by
  have hgo : ∀ (ys : List α) (part : Array α) (parts : Array (List α)),
      (List.toChunks.go n ys part parts).flatten = parts.toList.flatten ++ part.toList ++ ys := by
    intro ys
    induction ys with
    | nil => simp [List.toChunks.go]
    | cons y ys ih =>
      intro part parts
      rw [List.toChunks.go]
      split <;> simp [ih]
  cases xs with
  | nil => cases n <;> rfl
  | cons x xs =>
    cases n with
    | zero => simp [List.toChunks]
    | succ n => simp [List.toChunks, hgo]

variable (t start) in
/-- A run came to its end: what it read is confirmed, what it removed is gone. -/
structure Finished (selected : List Text) (y : Track) : Prop where
  record : ∀ path ∈ selected, ∀ chunks, t.chunksOf path = some chunks →
    t.record y.2 path = some (.confirmed path (chunks.map Chunk.id))
  seen : ∀ path ∈ selected, ∀ chunks, t.chunksOf path = some chunks →
    ∀ moved ∈ (new path chunks (t.record start path)).toRelocate, t.Seen start moved.1
  gone : ∀ path ∈ t.removed, t.record y.2 path = none
  rows : ∀ row ∈ y.2.rows, row.chunk.repoId = t.repo.text → row.chunk.path ∉ t.removed
  others : ∀ path, path ∉ selected ∨ t.chunksOf path = none → path ∉ t.removed →
    t.record y.2 path = t.record start path
  closed : t.Closed y.1

theorem ensures_run (hserved : t.Served indexer content) (hsteps : t.Steps start x.1 x.2)
    (hsound : start.Sound sha256) (hledger : start.Ledger t.repo.text t.signature)
    (hrecord : ∀ path, t.record x.2 path = t.record start path) (hclosed : t.Closed x.1)
    {selected removed : List Text} (hremoved : t.removed = indexer.removable removed)
    (hkept : ∀ path ∈ selected, path ∉ t.removed) (hsources : faults ∨ t.Sourced start selected) :
    Ensures faults (fun w => Track.of w = x ∧ w.state.report = r)
      (indexer.run t.repo.text sha256 content selected removed)
      (fun _ => t.At start fun y r' => r'.budgetExhausted = true ∨ t.Finished start selected y)
      (t.Cut start faults) := by
  unfold run
  rw [← hremoved]
  refine Ensures.bind (Q := fun _ => t.At start fun y _ => y = x)
    ((ensures_tell (φ := fun z _ => z = x) fun _ _ hz => hz).weaken ?_ (fun _ _ h => h)
      fun _ _ h => h) fun _ => ?_
  · rintro w ⟨rfl, rfl⟩
    exact ⟨hsteps, rfl⟩
  refine ensures_at fun y r₁ hy hyx => ?_
  subst hyx
  refine (ensures_removeRows hserved.signature hy hsound hledger
    (fun path hpath => (List.mem_filter.mp hpath).1)).bind fun _ => ?_
  refine ensures_at fun z r₂ hz hrevoked => ?_
  obtain ⟨hrevoked, _⟩ := hrevoked
  have hstart : ∀ path, t.record z.2 path = t.record start path :=
    fun path => (hrevoked.record path).trans (hrecord path)
  have hflatten := flatten_toChunks selected (max indexer.group 1)
  refine (ensures_indexGroups hserved hsound hledger (selected.toChunks (max indexer.group 1)) z r₂ hz
    (hrevoked.closed hclosed) (hflatten.symm ▸ hkept) (fun path _ => .inl (hstart path))
    (hflatten.symm ▸ hsources)).bind fun _ => ?_
  rw [hflatten]
  refine ensures_at fun v r₃ hv hadvanced => ?_
  refine (ensures_removal hserved.signature hv hsound hledger).weaken (fun _ h => h) (fun _ w hw => ?_)
    fun _ _ h => h
  obtain ⟨hw, hremoval, hbudget⟩ := hw
  refine ⟨hw, hadvanced.imp (fun h => hbudget.trans h) fun hadvanced => ?_⟩
  refine ⟨?_, ?_, hremoval.gone, hremoval.rows, fun path hpath hnot => ?_,
    hremoval.closed hadvanced.closed⟩
  · intro path hpath chunks hchunks
    rw [hremoval.others path (hkept path hpath)]
    exact hadvanced.record path hpath chunks hchunks
  · intro path hpath chunks hchunks
    rw [← hstart path]
    exact hadvanced.seen path hpath chunks hchunks
  · rw [hremoval.others path hnot, hadvanced.others path hpath, hstart path]

theorem ensures_release (hsteps : t.Steps start x.1 x.2) (lease : IndexLease) (settled : Settled) :
    Ensures faults (fun w => Track.of w = x ∧ w.state.report = r) (Port.release lease settled)
      (fun _ => t.At start fun y r' => y = x.step (.release lease settled) ∧ r' = r)
      (t.Cut start faults) := by
  refine ensures_writes hsteps (fun before e hsub => ?_) ⟨rfl, rfl⟩
  have he := hsub.subset (List.mem_append_right _ (List.mem_singleton_self e))
  rw [List.mem_singleton.mp he]
  exact .release lease settled

theorem ensures_giveUp {α : Type} (lease : IndexLease) (message : Text) (chunks : Option ℕ)
    (err : Text) {Q : α → World Session Effect → Prop} :
    Ensures faults (t.At start fun _ _ => faults) (giveUp lease message chunks err) Q
      (t.Cut start faults) := by
  refine ensures_at fun x r hsteps hfaults => ?_
  refine Ensures.bind (Q := fun _ => t.At start fun _ _ => faults) ?_ fun _ =>
    ensures_raise fun _ h => h
  refine Ensures.attempt ((ensures_release hsteps lease _).weaken (fun _ h => h)
    (fun _ _ h => ⟨h.1, hfaults⟩) fun e w h => ?_)
  cases e <;> exact h

theorem ensures_recountBatches (hsteps : t.Steps start x.1 x.2) (batches : List (List Text))
    (total : ℕ) :
    Ensures faults (fun w => Track.of w = x ∧ w.state.report = r)
      (indexer.recountBatches t.repo.text batches total)
      (fun _ => t.At start fun y r' => y = x ∧ r' = r) (t.Cut start faults) := by
  induction batches generalizing total with
  | nil =>
    refine ensures_pure ?_
    rintro w ⟨rfl, rfl⟩
    exact ⟨hsteps, rfl, rfl⟩
  | cons batch batches ih =>
    refine Ensures.bind (ensures_read hsteps (Q := fun _ y r' => y = x ∧ r' = r) ⟨rfl, rfl⟩)
      fun files => ?_
    exact (ih _).weaken (fun _ h => h.2) (fun _ _ h => h) fun _ _ h => h

theorem ensures_recount (hsteps : t.Steps start x.1 x.2) :
    Ensures faults (fun w => Track.of w = x ∧ w.state.report = r) (indexer.recount t.repo.text)
      (fun _ => t.At start fun y r' => y = x ∧ r' = r) (t.Cut start faults) := by
  refine Ensures.bind (ensures_read hsteps (Q := fun _ y r' => y = x ∧ r' = r) ⟨rfl, rfl⟩)
    fun known => ?_
  exact (ensures_recountBatches hsteps _ _).weaken (fun _ h => h.2) (fun _ _ h => h) fun _ _ h => h

theorem removedOf_these {selected known paths : List Text} (h : indexer.revoked = []) :
    indexer.removedOf selected known (.these paths) = paths := by
  have hunder : ∀ path, under indexer.revoked path = false := by
    intro path
    rw [h]
    rfl
  rw [removedOf]
  induction known with
  | nil => rfl
  | cons path known ih => rwa [List.foldl_cons, hunder, Bool.and_false, if_neg Bool.false_ne_true]

theorem ensures_removedPaths (hsignature : indexer.signature = t.signature)
    (hsteps : t.Steps start x.1 x.2) (selected : List Text) (removed : Removed) :
    Ensures faults (fun w => Track.of w = x ∧ w.state.report = r)
      (indexer.removedPaths t.repo.text selected removed)
      (fun paths => t.At start fun y r' => paths =
        indexer.removedOf selected (x.2.paths t.repo.text t.signature) removed ∧ y = x ∧ r' = r)
      (t.Cut start faults) := by
  have hknown : Ensures faults (fun w => Track.of w = x ∧ w.state.report = r)
      (Port.paths t.repo.text t.signature) (fun known => t.At start fun y r' =>
        known = x.2.paths t.repo.text t.signature ∧ y = x ∧ r' = r) (t.Cut start faults) :=
    ensures_read hsteps ⟨rfl, rfl, rfl⟩
  rw [← hsignature] at hknown ⊢
  cases removed with
  | these paths =>
    rw [removedPaths]
    split
    next hempty =>
      refine ensures_pure ?_
      rintro w ⟨rfl, rfl⟩
      exact ⟨hsteps, (removedOf_these (List.isEmpty_iff.mp hempty)).symm, rfl, rfl⟩
    next =>
      refine hknown.bind fun known => ensures_pure fun w hw => ⟨hw.1, ?_, hw.2.2⟩
      rw [hw.2.1]
  | notSeenByTheWalk =>
    refine hknown.bind fun known => ensures_pure fun w hw => ⟨hw.1, ?_, hw.2.2⟩
    rw [hw.2.1]

theorem Finished.release {selected : List Text} (h : t.Finished start selected x)
    (lease : IndexLease) (settled : Settled) :
    t.Finished start selected (x.step (.release lease settled)) where
  record path hpath chunks hchunks :=
    (record_release lease settled).trans (h.record path hpath chunks hchunks)
  seen := h.seen
  gone path hpath := (record_release lease settled).trans (h.gone path hpath)
  rows row hrow := h.rows row (by rwa [Track.step, rows_release] at hrow)
  others path hpath hkept := (record_release lease settled).trans (h.others path hpath hkept)
  closed path hkept := (leftOpen_of_exposes_none rfl).trans (h.closed path hkept)

variable (t start) in
/-- How a run under the claim ends. -/
def Ended (selected : List Text) (outcome : IndexOutcome) (y : Track) (r : IndexReport) : Prop :=
  match outcome with
  | .indexed report => r = report ∧ (report.budgetExhausted = true ∨ t.Finished start selected y)
  | .requeue _ => (start.entry t.repo.text t.signature).lease ≠ none ∧ y = ([], start)
  | .alreadyFresh => False

variable {revision : Text} {selected : List Text} {skipped : List SkippedFile} {removed : Removed}

/-- Once a run is done, its claim is given back. -/
theorem ensures_settled (lease : IndexLease) (chunks : ℕ) {report : IndexReport}
    (hsteps : t.Steps start x.1 x.2)
    (h : report.budgetExhausted = true ∨ t.Finished start selected x) :
    Ensures faults (fun w => Track.of w = x ∧ w.state.report = report)
      (do
        settle lease chunks revision report
        pure (.indexed report))
      (fun outcome => t.At start fun y r' => t.Ended start selected outcome y r')
      (t.Cut start faults) := by
  refine (ensures_release hsteps lease _).bind fun _ => ensures_pure fun w hw => ⟨hw.1, hw.2.2, ?_⟩
  refine h.imp_right fun hfinished => ?_
  rw [hw.2.1]
  exact hfinished.release lease _

theorem ensures_guarded (hserved : t.Served indexer content) (hsound : start.Sound sha256)
    (hledger : start.Ledger t.repo.text t.signature)
    (hremoved : t.removed = indexer.removable
      (indexer.removedOf selected (start.paths t.repo.text t.signature) removed))
    (hkept : ∀ path ∈ selected, path ∉ t.removed) (hsources : faults ∨ t.Sourced start selected) :
    Ensures faults (fun w => Track.of w = ([], start) ∧ w.state.report = r)
      (indexer.guarded t.repo.text sha256 content revision selected skipped removed)
      (fun outcome => t.At start (t.Ended start selected outcome)) (t.Cut start faults) := by
  unfold guarded
  rw [hserved.signature]
  refine Ensures.bind (Q := fun claim => t.At start (Answered
    (fun _ y _ => y = ([.claim t.repo.text t.signature indexer.holder],
      start.claim t.repo.text t.signature indexer.holder))
    (fun y _ => (start.entry t.repo.text t.signature).lease ≠ none ∧ y = ([], start)) claim))
    ?_ fun claim => ?_
  · refine ensures_writes .refl (fun before e hsub => ?_) ?_
    · have he := hsub.subset (List.mem_append_right _ (List.mem_singleton_self e))
      split at he
      · rw [List.mem_singleton.mp he]
        exact .claim _
      · exact absurd he List.not_mem_nil
    · cases (start.entry t.repo.text t.signature).lease with
      | none => rfl
      | some held => exact ⟨Option.some_ne_none held, rfl⟩
  cases claim with
  | error holder => exact ensures_pure fun w hw => hw
  | ok lease =>
    refine ensures_at fun x r₁ hx hclaimed => ?_
    refine Ensures.bind (Q := fun state => t.At start
      (Answered (fun _ y _ => y = x) (fun _ _ => faults) state)) ?_ fun state => ?_
    · refine Ensures.attempt ((ensures_read hx (Q := fun _ y _ => y = x) rfl).weaken
        (fun _ h => h) (fun _ _ h => h) fun e w h => ?_)
      cases e <;> exact h
    cases state with
    | error err => exact ensures_giveUp lease err none err
    | ok state =>
      refine ensures_at fun y r₂ hy hyx => ?_
      subst hyx
      refine Ensures.bind (Q := fun paths => t.At start (Answered
        (fun paths z _ => paths = indexer.removedOf selected
          (y.2.paths t.repo.text t.signature) removed ∧ z = y)
        (fun _ _ => faults) paths)) ?_ fun paths => ?_
      · refine Ensures.attempt ((ensures_removedPaths hserved.signature hy selected removed).weaken
          (fun _ h => h) (fun _ _ h => ⟨h.1, h.2.1, h.2.2.1⟩) fun e w h => ?_)
        cases e <;> exact h
      cases paths with
      | error err => exact ensures_giveUp lease err none err
      | ok paths =>
        refine Ensures.bind (ensures_tell (Q := fun _ z _ => paths = indexer.removedOf selected
          (y.2.paths t.repo.text t.signature) removed ∧ z = y) fun _ _ h => h) fun _ => ?_
        refine ensures_at fun z r₃ hz hpaths => ?_
        obtain ⟨rfl, rfl⟩ := hpaths
        subst hclaimed
        refine Ensures.bind (Q := fun outcome => t.At start (Answered
          (fun _ v r' => r'.budgetExhausted = true ∨ t.Finished start selected v)
          (fun _ _ => faults) outcome)) ?_ fun outcome => ?_
        · refine Ensures.attempt ((ensures_run hserved hz hsound hledger (fun _ => rfl) (fun _ _ => rfl)
            hremoved hkept hsources).weaken (fun _ h => h) (fun _ _ h => h) fun e w h => ?_)
          cases e <;> exact h
        refine ensures_at fun v r₄ hv hended => ?_
        refine Ensures.bind (ensures_look (Q := fun report w => report = r₄ ∧ Track.of w = v ∧
          w.state.report = r₄) fun w hw => ⟨hw.2, hw⟩) fun report => ?_
        refine ensures_of_forall fun w₀ hw₀ => ?_
        obtain ⟨rfl, hv₀, hr₀⟩ := hw₀
        have hagain : ∀ w : World Session Effect, w = w₀ → Track.of w = v ∧ w.state.report = report :=
          fun w hw => hw ▸ ⟨hv₀, hr₀⟩
        cases outcome with
        | error err =>
          refine (ensures_giveUp lease _ _ err).weaken (fun w hw => ?_) (fun _ _ h => h) fun _ _ h => h
          rw [hw]
          exact ⟨hv₀ ▸ hv, hended⟩
        | ok _ =>
          dsimp only
          split
          · refine Ensures.bind (Q := fun chunks => t.At start (Answered
              (fun _ u r' => u = v ∧ r' = report) (fun _ _ => faults) chunks)) ?_ fun chunks => ?_
            · refine Ensures.attempt ((ensures_recount hv).weaken hagain (fun _ _ h => h)
                fun e w h => ?_)
              cases e <;> exact h
            cases chunks with
            | error err => exact ensures_giveUp lease (uncertain err) none err
            | ok chunks =>
              exact (ensures_settled lease chunks hv hended).weaken (fun w hw => hw.2)
                (fun _ _ h => h) fun _ _ h => h
          · exact (ensures_settled lease _ hv hended).weaken hagain (fun _ _ h => h) fun _ _ h => h

end Task

end TinySweeper.Index
