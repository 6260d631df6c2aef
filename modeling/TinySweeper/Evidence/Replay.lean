import TinySweeper.Evidence.Diff

/-!
# Replayed evidence

A review stores the evidence it rendered. The next one splits its own evidence
into the files already reviewed, byte for byte, and the rest; the same rule asked
per file selects the diffs a lane still has to look at.
-/

namespace TinySweeper.Evidence

open Text

def FILE_PREFIX : Text := "--- ".toList

/-- Where a file's block opens: a header mark at the start of a line. -/
def blockStarts (text : Text) : List ℕ :=
  (matchIndices FILE_PREFIX text).filter fun i => i = 0 || text[i - 1]? = some '\n'

/-- One slice of rendered evidence per file; text before the first header is its own. -/
def blocks (text : Text) : List Text :=
  let starts := blockStarts text
  slices text (if starts.head? ≠ some 0 ∧ text ≠ [] then 0 :: starts else starts)

/-- Split evidence into the part `previous` already contained, and the rest. -/
def split (previous current : Text) : Text × Text :=
  if trim previous = [] then ([], current)
  else
    let seen := blocks previous
    let reviewed := ((blocks current).filter fun block => decide (block ∈ seen)).flatten
    let fresh := ((blocks current).filter fun block => decide (block ∉ seen)).flatten
    -- Nothing new is a re-run of the same commit, not an increment.
    if trim fresh = [] then ([], current) else (reviewed, fresh)

section Render

variable (highEntropy : Text → Bool)

/-- The diffs a previous review has not seen byte for byte. -/
def unreviewed (previous : Text) (diffs : List FileDiff) : List FileDiff :=
  if trim previous = [] then diffs
  else
    let seen := blocks previous
    let fresh := diffs.filter fun diff =>
      let block := render highEntropy [diff]
      !block.isEmpty && decide (block ∉ seen)
    if fresh = [] then diffs else fresh

end Render

theorem filePrefix_newline : '\n' ∉ FILE_PREFIX := by decide

/-- Inside a line a header mark opens no block. -/
theorem blockStarts_line {line : Text} (hline : '\n' ∉ line) (rest : Text) :
    ((matchIndicesFrom FILE_PREFIX 0 0 line).filter fun i =>
        i = 0 || (line ++ '\n' :: rest)[i - 1]? = some '\n') =
      if FILE_PREFIX.isPrefixOf line then [0] else [] := by
  cases line with
  | nil => rfl
  | cons c text =>
    have hinner : ∀ skip, ((matchIndicesFrom FILE_PREFIX skip 1 text).filter fun i =>
        i = 0 || (c :: text ++ '\n' :: rest)[i - 1]? = some '\n') = [] := by
      intro skip
      rw [List.filter_eq_nil_iff]
      intro i hi hstart
      have hbounds := mem_matchIndicesFrom hi
      have hlength : i - 1 < (c :: text).length := by
        rw [List.length_cons]
        omega
      rw [List.getElem?_append_left hlength] at hstart
      have hbreak : (c :: text)[i - 1]? = some '\n' := by
        simpa [show i ≠ 0 by omega] using hstart
      exact hline (List.mem_of_getElem? hbreak)
    rw [matchIndicesFrom_cons]
    split_ifs
    · rw [List.filter_cons_of_pos (by simp), hinner]
    · exact hinner 0

/-- The blocks of a line and of what follows it. -/
theorem blockStarts_cons {line : Text} (hline : '\n' ∉ line) (rest : Text) :
    blockStarts (line ++ '\n' :: rest) =
      (if FILE_PREFIX.isPrefixOf line then [0] else []) ++
        (blockStarts rest).map (line.length + 1 + ·) := by
  have hmatches : matchIndices FILE_PREFIX (line ++ '\n' :: rest) =
      matchIndicesFrom FILE_PREFIX 0 0 line ++
        (matchIndicesFrom FILE_PREFIX 0 0 rest).map (line.length + 1 + ·) := by
    rw [matchIndices, matchIndicesFrom_append filePrefix_newline (by decide) _ _ (Nat.zero_le _),
      ← matchIndicesFrom_add, Nat.zero_add, Nat.add_zero]
  have hat : ∀ i, (line ++ '\n' :: rest)[line.length + 1 + i - 1]? =
      ('\n' :: rest)[i]? := by
    intro i
    rw [show line.length + 1 + i - 1 = line.length + i by omega, List.getElem?_append_right
      (by omega), Nat.add_sub_cancel_left]
  unfold blockStarts
  rw [hmatches, List.filter_append, blockStarts_line hline, List.filter_map]
  congr 2
  apply List.filter_congr
  intro i _
  simp only [Function.comp_apply, hat]
  cases i with
  | zero => simp
  | succ i => simp

/-- A header line and lines that are no headers. -/
structure IsBlock (block : Text) : Prop where
  lines : ∃ header body, block = unlines (header :: body) ∧ '\n' ∉ header ∧
    FILE_PREFIX <+: header ∧ ∀ line ∈ body, '\n' ∉ line ∧ ¬ FILE_PREFIX <+: line

theorem blockStarts_body {body : List Text}
    (hbody : ∀ line ∈ body, '\n' ∉ line ∧ ¬ FILE_PREFIX <+: line) (rest : Text) :
    blockStarts (unlines body ++ rest) =
      (blockStarts rest).map ((unlines body).length + ·) := by
  induction body with
  | nil => simp
  | cons line body ih =>
    obtain ⟨hline, hplain⟩ := hbody line List.mem_cons_self
    have hnot : FILE_PREFIX.isPrefixOf line = false := by
      rwa [← Bool.not_eq_true, List.isPrefixOf_iff_prefix]
    rw [unlines_cons, List.append_assoc, List.cons_append, blockStarts_cons hline, hnot,
      ih fun other hmem => hbody other (List.mem_cons_of_mem line hmem)]
    rw [if_neg Bool.false_ne_true, List.nil_append, List.map_map]
    apply List.map_congr_left
    intro start _
    simp only [Function.comp_apply, List.length_append, List.length_cons]
    omega

theorem IsBlock.blockStarts {block : Text} (hblock : IsBlock block) (rest : Text) :
    blockStarts (block ++ rest) = 0 :: (blockStarts rest).map (block.length + ·) := by
  obtain ⟨header, body, rfl, hheader, hmark, hbody⟩ := hblock.lines
  have hyes : FILE_PREFIX.isPrefixOf header = true := List.isPrefixOf_iff_prefix.mpr hmark
  rw [unlines_cons, List.append_assoc, List.cons_append, blockStarts_cons hheader, hyes,
    blockStarts_body hbody]
  rw [if_pos rfl, List.singleton_append, List.map_map]
  congr 1
  apply List.map_congr_left
  intro start _
  simp only [Function.comp_apply, List.length_append, List.length_cons]
  omega

/-- Blocks written one after the other are read back one by one. -/
theorem blocks_flatten {written : List Text} (hwritten : ∀ block ∈ written, IsBlock block) :
    blocks written.flatten = written := by
  induction written with
  | nil => rfl
  | cons block written ih =>
    have hblock := hwritten block List.mem_cons_self
    have hrest : ∀ other ∈ written, IsBlock other :=
      fun other hmem => hwritten other (List.mem_cons_of_mem block hmem)
    have hread := ih hrest
    rw [List.flatten_cons]
    unfold blocks at hread ⊢
    rw [hblock.blockStarts]
    dsimp only at hread ⊢
    rw [if_neg (by simp)]
    cases written with
    | nil => simp [slices, Evidence.blockStarts, matchIndices, matchIndicesFrom]
    | cons next written =>
      have hnext := (hrest next List.mem_cons_self).blockStarts written.flatten
      rw [List.flatten_cons] at hread ⊢
      rw [hnext] at hread ⊢
      rw [if_neg (by simp)] at hread
      have hshift := slices_append block (next ++ written.flatten)
        (0 :: (Evidence.blockStarts written.flatten).map (next.length + ·))
      rw [hread] at hshift
      rw [List.map_cons] at hshift ⊢
      rw [slices, hshift]
      simp

/-- A block is never blank. -/
theorem IsBlock.trim_ne_nil {block : Text} (hblock : IsBlock block) (rest : Text) :
    trim (block ++ rest) ≠ [] := by
  obtain ⟨header, body, rfl, -, ⟨tail, rfl⟩, -⟩ := hblock.lines
  intro hblank
  have hdash := trim_eq_nil_iff.mp hblank '-' (by simp [FILE_PREFIX])
  cases hdash

theorem flatten_trim_eq_nil_iff {written : List Text}
    (hwritten : ∀ block ∈ written, IsBlock block) : trim written.flatten = [] ↔ written = [] := by
  constructor
  · intro hblank
    cases written with
    | nil => rfl
    | cons block written =>
      exact absurd hblank ((hwritten block List.mem_cons_self).trim_ne_nil written.flatten)
  · rintro rfl
    rfl

section Render

variable {highEntropy : Text → Bool} {diff : FileDiff}

theorem renderAnchor_chars {newLine : Option ℕ} {c : Char} (hc : c ∈ renderAnchor newLine) :
    c = ' ' ∨ c.isDigit = true := by
  cases newLine with
  | none => exact .inl (List.eq_of_mem_replicate hc)
  | some n =>
    rcases List.mem_append.mp hc with hnumber | hspace
    · rcases List.mem_append.mp hnumber with hpad | hdigit
      · exact .inl (List.eq_of_mem_replicate hpad)
      · exact .inr (isDigit_of_mem_decimal hdigit)
    · exact .inl (List.mem_singleton.mp hspace)

theorem renderAnchor_ne_nil (newLine : Option ℕ) : renderAnchor newLine ≠ [] := by
  cases newLine <;> simp [renderAnchor]

/-- A rendered line starts with its anchor, so it is never taken for a header. -/
theorem renderLine_isPlain {line : DiffLine} (hline : '\n' ∉ line.text) :
    '\n' ∉ renderLine line ∧ ¬ FILE_PREFIX <+: renderLine line := by
  have hanchor : ∀ c ∈ renderAnchor line.newLine, c ≠ '\n' ∧ c ≠ '-' := by
    intro c hc
    rcases renderAnchor_chars hc with rfl | hdigit
    · decide
    · constructor
      · rintro rfl
        cases hdigit
      · rintro rfl
        cases hdigit
  constructor
  · have hmarker : '\n' ≠ line.kind.marker := by cases line.kind <;> decide
    simp only [renderLine, List.mem_append, List.mem_cons, not_or]
    exact ⟨fun hmem => (hanchor _ hmem).1 rfl, hmarker, hline⟩
  · intro hmark
    obtain ⟨c, anchor, heq⟩ := List.exists_cons_of_ne_nil (renderAnchor_ne_nil line.newLine)
    rw [renderLine, heq, List.cons_append] at hmark
    have hdash : '-' = c := (List.cons_prefix_cons.mp hmark).1
    exact (hanchor c (heq ▸ List.mem_cons_self)).2 hdash.symm

/-- A hunk header is made of digits and of what stands between its numbers. -/
theorem notMem_renderHunkHeader {c : Char} (hdigit : c.isDigit = false)
    (hc : c ∉ ['@', '-', ' ', ',', '+']) (hunk : Hunk) : c ∉ renderHunkHeader hunk := by
  have hdecimal : ∀ n, c ∉ decimal n := notMem_decimal hdigit
  have hbetween : ∀ text ∈ ["@@ -".toList, ",".toList, " +".toList, " @@".toList], c ∉ text := by
    intro text htext hmem
    have hall : ∀ text ∈ ["@@ -".toList, ",".toList, " +".toList, " @@".toList],
        text ⊆ ['@', '-', ' ', ',', '+'] := by decide
    exact hc (hall text htext hmem)
  unfold renderHunkHeader
  repeat' apply List.not_mem_append
  all_goals first | exact hdecimal _ | exact hbetween _ (by simp)

theorem renderHunkHeader_isPlain (hunk : Hunk) :
    '\n' ∉ renderHunkHeader hunk ∧ ¬ FILE_PREFIX <+: renderHunkHeader hunk := by
  constructor
  · exact notMem_renderHunkHeader (by decide) (by decide) hunk
  · intro hmark
    obtain ⟨tail, htail⟩ : ∃ tail, renderHunkHeader hunk = '@' :: tail := ⟨_, rfl⟩
    rw [htail] at hmark
    have hdash : '-' = '@' := (List.cons_prefix_cons.mp hmark).1
    cases hdash

theorem render_singleton : render highEntropy [diff] = unlines (renderedLines highEntropy diff) := by
  simp [render]

theorem render_isBlock (hpath : '\n' ∉ diff.path)
    (hlines : ∀ hunk ∈ diff.hunks, ∀ line ∈ hunk.lines, '\n' ∉ line.text)
    (hhunks : diff.hunks ≠ []) : IsBlock (render highEntropy [diff]) := by
  constructor
  refine ⟨renderPath highEntropy diff.path, diff.hunks.flatMap fun hunk =>
    renderHunkHeader hunk :: hunk.lines.map renderLine, ?_, ?_, ⟨_, rfl⟩, ?_⟩
  · rw [render_singleton, renderedLines, if_neg hhunks]
  · exact List.not_mem_append (by decide) (Scan.scrub_newline hpath)
  · intro line hline
    obtain ⟨hunk, hhunk, hin⟩ := List.mem_flatMap.mp hline
    rcases List.mem_cons.mp hin with rfl | hbody
    · exact renderHunkHeader_isPlain hunk
    · obtain ⟨source, hsource, rfl⟩ := List.mem_map.mp hbody
      exact renderLine_isPlain (hlines hunk hhunk source hsource)

theorem render_eq_nil (hhunks : diff.hunks = []) : render highEntropy [diff] = [] := by
  rw [render_singleton, renderedLines, if_pos hhunks]
  rfl

/-- The rendered files of a list of diffs; a diff without hunks renders to nothing. -/
def renderedBlocks (highEntropy : Text → Bool) (diffs : List FileDiff) : List Text :=
  (diffs.filter fun diff => !(render highEntropy [diff]).isEmpty).map fun diff =>
    render highEntropy [diff]

theorem render_eq_flatten (diffs : List FileDiff) :
    render highEntropy diffs = (renderedBlocks highEntropy diffs).flatten := by
  unfold renderedBlocks
  induction diffs with
  | nil => rfl
  | cons diff diffs ih =>
    have hcons : render highEntropy (diff :: diffs) =
        render highEntropy [diff] ++ render highEntropy diffs := by
      simp [render]
    rw [hcons, ih]
    cases hblock : render highEntropy [diff] with
    | nil => simp [hblock]
    | cons c block => simp [hblock]

/-- Paths and lines without line breaks. -/
structure LineBreakFree (diffs : List FileDiff) : Prop where
  path : ∀ diff ∈ diffs, '\n' ∉ diff.path
  text : ∀ diff ∈ diffs, ∀ hunk ∈ diff.hunks, ∀ line ∈ hunk.lines, '\n' ∉ line.text

theorem LineBreakFree.isBlock {diffs : List FileDiff} (h : LineBreakFree diffs) :
    ∀ block ∈ renderedBlocks highEntropy diffs, IsBlock block := by
  intro block hblock
  obtain ⟨diff, hdiff, rfl⟩ := List.mem_map.mp hblock
  obtain ⟨hmem, hshown⟩ := List.mem_filter.mp hdiff
  apply render_isBlock (h.path diff hmem) (h.text diff hmem)
  intro hhunks
  rw [render_eq_nil hhunks] at hshown
  cases hshown

/-- The diffs a review has not seen are the blocks it has not seen. -/
theorem renderedBlocks_filter (diffs : List FileDiff) (seen : List Text) :
    (renderedBlocks highEntropy diffs).filter (fun block => decide (block ∉ seen)) =
      (diffs.filter fun diff => !(render highEntropy [diff]).isEmpty &&
        decide (render highEntropy [diff] ∉ seen)).map fun diff => render highEntropy [diff] := by
  unfold renderedBlocks
  rw [List.filter_map, List.filter_filter]
  congr 1
  apply List.filter_congr
  intro diff _
  exact Bool.and_comm _ _

/-- The halves of a split hold every block of the evidence once, in order, and the reviewed
half only blocks the previous evidence had. -/
structure Partition (previous current : Text) (halves : Text × Text) : Prop where
  whole : (blocks current).flatten = current
  filtered : ∃ reviewed : Text → Bool, blocks halves.1 = (blocks current).filter reviewed ∧
    blocks halves.2 = (blocks current).filter fun block => !reviewed block
  reviewed_whole : (blocks halves.1).flatten = halves.1
  fresh_whole : (blocks halves.2).flatten = halves.2
  seen : ∀ block ∈ blocks halves.1, block ∈ blocks previous

theorem LineBreakFree.blocks_render {diffs : List FileDiff} (h : LineBreakFree diffs) :
    blocks (render highEntropy diffs) = renderedBlocks highEntropy diffs := by
  rw [render_eq_flatten, blocks_flatten h.isBlock]

theorem split_partition (previous : Text) {diffs : List FileDiff} (h : LineBreakFree diffs) :
    Partition previous (render highEntropy diffs)
      (split previous (render highEntropy diffs)) := by
  have hwhole : (blocks (render highEntropy diffs)).flatten = render highEntropy diffs := by
    rw [h.blocks_render, ← render_eq_flatten]
  have hpart : ∀ p : Text → Bool, blocks ((blocks (render highEntropy diffs)).filter p).flatten =
      (blocks (render highEntropy diffs)).filter p := by
    intro p
    rw [h.blocks_render]
    exact blocks_flatten fun block hmem => h.isBlock block (List.mem_of_mem_filter hmem)
  have hkept : Partition previous (render highEntropy diffs) ([], render highEntropy diffs) := by
    constructor
    · exact hwhole
    · refine ⟨fun _ => false, ?_, ?_⟩
      · rw [List.filter_false]
        rfl
      · simp only [Bool.not_false, List.filter_true]
    · rfl
    · exact hwhole
    · intro block hblock
      cases hblock
  unfold split
  dsimp only
  split_ifs
  · exact hkept
  · exact hkept
  · constructor
    · exact hwhole
    · refine ⟨fun block => decide (block ∈ blocks previous), hpart _, ?_⟩
      rw [hpart]
      apply List.filter_congr
      intro block _
      exact decide_not
    · rw [hpart]
    · rw [hpart]
    · intro block hblock
      rw [hpart] at hblock
      simpa using List.of_mem_filter hblock

theorem unreviewed_render (previous : Text) {diffs : List FileDiff} (h : LineBreakFree diffs) :
    (unreviewed highEntropy previous diffs).flatMap (fun diff => render highEntropy [diff]) =
      (split previous (render highEntropy diffs)).2 := by
  have hall : diffs.flatMap (fun diff => render highEntropy [diff]) = render highEntropy diffs := by
    simp [render]
  have hfilter := @renderedBlocks_filter highEntropy diffs (blocks previous)
  have hfresh : ∀ block ∈ (renderedBlocks highEntropy diffs).filter
      (fun block => decide (block ∉ blocks previous)), IsBlock block := by
    intro block hmem
    exact h.isBlock block (List.mem_of_mem_filter hmem)
  have hblank := flatten_trim_eq_nil_iff hfresh
  unfold split unreviewed
  dsimp only
  rw [h.blocks_render]
  by_cases hfirst : trim previous = []
  · rw [if_pos hfirst, if_pos hfirst, hall]
  · rw [if_neg hfirst, if_neg hfirst]
    by_cases hrerun : (renderedBlocks highEntropy diffs).filter
        (fun block => decide (block ∉ blocks previous)) = []
    · rw [if_pos (hblank.mpr hrerun)]
      rw [hfilter, List.map_eq_nil_iff] at hrerun
      rw [if_pos hrerun, hall]
    · rw [if_neg (mt hblank.mp hrerun)]
      rw [hfilter] at hrerun ⊢
      rw [if_neg fun hnil => hrerun (List.map_eq_nil_iff.mpr hnil), List.flatMap_def]

/-- Selecting unreviewed diffs and splitting rendered evidence agree, and the split
partitions the blocks. -/
theorem split_agrees_unreviewed (previous : Text) {diffs : List FileDiff}
    (h : LineBreakFree diffs) :
    (unreviewed highEntropy previous diffs).flatMap (fun diff => render highEntropy [diff]) =
        (split previous (render highEntropy diffs)).2 ∧
      Partition previous (render highEntropy diffs)
        (split previous (render highEntropy diffs)) :=
  ⟨unreviewed_render previous h, split_partition previous h⟩

end Render

/-- Two files; only the first was reviewed before. -/
def sampleDiffs : List FileDiff :=
  [{ path := "a".toList, hunks := [⟨1, 1, 1, 1, [], [⟨.context, some 1, some 1, "x".toList⟩]⟩] },
    { path := "b".toList, hunks := [⟨0, 0, 1, 1, [], [⟨.added, some 1, none, "--- ".toList⟩]⟩] }]

theorem split_agrees_unreviewed_increment :
    let previous := render (fun _ => false) (sampleDiffs.take 1)
    unreviewed (fun _ => false) previous sampleDiffs = sampleDiffs.drop 1 ∧
      Partition previous (render (fun _ => false) sampleDiffs)
        (split previous (render (fun _ => false) sampleDiffs)) := by
  constructor
  · decide +kernel
  · apply (split_agrees_unreviewed _ _).2
    constructor
    · simp [sampleDiffs]
    · simp [sampleDiffs]

end TinySweeper.Evidence
