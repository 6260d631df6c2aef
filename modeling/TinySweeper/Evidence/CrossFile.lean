import TinySweeper.Bytes
import TinySweeper.Evidence.Diff

/-!
# Bounded evidence from linked files

A reviewer of some files also sees the files linked to them, within a bound on files
and bytes. What does not fit is cut after a whole line, and one closing notice
discloses that something is missing.
-/

namespace TinySweeper.Evidence

open Std Text

def MAX_FILES : ℕ := 8

def MAX_BYTES : ℕ := 18000

def TRUNCATION : Text :=
  ("\n[Cross-file evidence is incomplete: related files or bytes were omitted by the " ++
    "evidence bound.]\n").toList

/-- The changed files, and which of them may contradict one another. -/
structure CrossFileEvidenceIndex where
  byPath : TreeMap Text FileDiff
  related : TreeMap Text (TreeSet Text)

namespace CrossFileEvidenceIndex

/-- A path joins the paths seen so far once. -/
def note (paths : List Text) (path : Text) : List Text :=
  if path ∈ paths then paths else paths ++ [path]

def relatedTo (index : CrossFileEvidenceIndex) (diff : FileDiff) : List Text :=
  match index.related[diff.path]? with
  | some related => related.toList
  | none => []

/-- The group being reviewed first, then what is linked to it. -/
def pathsFor (index : CrossFileEvidenceIndex) (group : List FileDiff) : List Text :=
  (group.flatMap index.relatedTo).foldl note ((group.map FileDiff.path).foldl note [])

end CrossFileEvidenceIndex

/-- Write one more line, or stop with what there is. -/
def writeLine (limit : ℕ) (out line : Text) : Except Text Text :=
  if utf8Len out + utf8Len (line ++ ['\n']) > limit then .error out
  else .ok (out ++ (line ++ ['\n']))

def separated (rendered block : Text) : Text :=
  (if rendered = [] then rendered else rendered ++ ['\n']) ++ block

section Render

variable (highEntropy : Text → Bool)

/-- Complete headers and diff lines until the bound is reached, and whether it was. -/
def renderBounded (diff : FileDiff) (limit : ℕ) : Text × Bool :=
  if diff.hunks = [] then ([], false)
  else
    let written : Except Text Text := do
      let out ← writeLine limit [] (renderPath highEntropy diff.path)
      diff.hunks.foldlM (fun out hunk => do
        let out ← writeLine limit out (renderHunkHeader hunk)
        hunk.lines.foldlM (fun out line => writeLine limit out (renderLine line)) out) out
    match written with
    | .ok out => (out, false)
    | .error out => (out, true)

/-- The blocks of these paths after what is rendered; a cut block is the last one. -/
def renderPaths (index : CrossFileEvidenceIndex) : (rendered : Text) → List Text → Text × Bool
  | rendered, [] => (rendered, false)
  | rendered, path :: paths =>
    match index.byPath[path]? with
    | none => renderPaths index rendered paths
    | some diff =>
      let separator := if rendered = [] then 0 else 1
      let remaining := MAX_BYTES - (utf8Len rendered + separator)
      let (block, cut) := renderBounded highEntropy diff (remaining - utf8Len TRUNCATION)
      if cut then (separated rendered block, true)
      else renderPaths index (separated rendered block) paths

/-- A group's own diffs plus bounded evidence linked to them. -/
def renderFor (index : CrossFileEvidenceIndex) (group : List FileDiff) : Text :=
  let paths := index.pathsFor group
  let (rendered, cut) := renderPaths highEntropy index [] (paths.take MAX_FILES)
  if MAX_FILES < paths.length ∨ cut then
    (if utf8Len rendered + utf8Len TRUNCATION > MAX_BYTES then
      (fitting (MAX_BYTES - utf8Len TRUNCATION) rendered).1
    else rendered) ++ TRUNCATION
  else rendered

end Render

theorem foldlM_writeLine_ok {limit : ℕ} {lines : List Text} {out written : Text}
    (h : lines.foldlM (writeLine limit) out = .ok written) (hout : utf8Len out ≤ limit) :
    written = out ++ unlines lines ∧ utf8Len written ≤ limit := by
  induction lines generalizing out with
  | nil =>
    cases h
    exact ⟨(List.append_nil _).symm, hout⟩
  | cons line lines ih =>
    rw [List.foldlM_cons, writeLine] at h
    split_ifs at h with hfull
    · cases h
    · have hfits : utf8Len (out ++ (line ++ ['\n'])) ≤ limit := by
        rw [utf8Len_append]
        omega
      obtain ⟨hwritten, hlimit⟩ := ih h hfits
      refine ⟨?_, hlimit⟩
      rw [hwritten, unlines_cons]
      simp

theorem foldlM_writeLine_error {limit : ℕ} {lines : List Text} {out written : Text}
    (h : lines.foldlM (writeLine limit) out = .error written) (hout : utf8Len out ≤ limit) :
    utf8Len written ≤ limit ∧
      ∃ k < lines.length, written = out ++ unlines (lines.take k) := by
  induction lines generalizing out with
  | nil => cases h
  | cons line lines ih =>
    rw [List.foldlM_cons, writeLine] at h
    split_ifs at h with hfull
    · cases h
      exact ⟨hout, 0, Nat.succ_pos _, (List.append_nil _).symm⟩
    · have hfits : utf8Len (out ++ (line ++ ['\n'])) ≤ limit := by
        rw [utf8Len_append]
        omega
      obtain ⟨hlimit, k, hk, hwritten⟩ := ih h hfits
      refine ⟨hlimit, k + 1, Nat.succ_lt_succ hk, ?_⟩
      rw [hwritten, List.take_succ_cons, unlines_cons]
      simp

variable {highEntropy : Text → Bool}

theorem foldlM_writeLine_hunks {limit : ℕ} (hunks : List Hunk) (out : Text) :
    hunks.foldlM (fun out hunk => do
      let out ← writeLine limit out (renderHunkHeader hunk)
      hunk.lines.foldlM (fun out line => writeLine limit out (renderLine line)) out) out =
    (hunks.flatMap fun hunk => renderHunkHeader hunk :: hunk.lines.map renderLine).foldlM
      (writeLine limit) out := by
  induction hunks generalizing out with
  | nil => rfl
  | cons hunk hunks ih =>
    rw [List.foldlM_cons, List.flatMap_cons, List.foldlM_append, List.foldlM_cons]
    simp only [List.foldlM_map, ih]

/-- The nested loops write the lines of the rendered file. -/
theorem renderBounded_eq (diff : FileDiff) (limit : ℕ) :
    renderBounded highEntropy diff limit =
      match (renderedLines highEntropy diff).foldlM (writeLine limit) [] with
      | .ok out => (out, false)
      | .error out => (out, true) := by
  rw [renderBounded, renderedLines]
  split_ifs
  · rfl
  · simp only [List.foldlM_cons, foldlM_writeLine_hunks]

variable (highEntropy) in
/-- A block is the whole rendered file, or its first lines where the bound is reached. -/
theorem renderBounded_cases (diff : FileDiff) (limit : ℕ) :
    utf8Len (renderBounded highEntropy diff limit).1 ≤ limit ∧
    (renderBounded highEntropy diff limit = (unlines (renderedLines highEntropy diff), false) ∨
      ∃ k < (renderedLines highEntropy diff).length,
        renderBounded highEntropy diff limit =
          (unlines ((renderedLines highEntropy diff).take k), true)) := by
  rw [renderBounded_eq]
  cases h : (renderedLines highEntropy diff).foldlM (writeLine limit) [] with
  | ok written =>
    obtain ⟨hwritten, hlimit⟩ := foldlM_writeLine_ok h (Nat.zero_le limit)
    exact ⟨hlimit, .inl (by rw [hwritten, List.nil_append])⟩
  | error written =>
    obtain ⟨hlimit, k, hk, hwritten⟩ := foldlM_writeLine_error h (Nat.zero_le limit)
    exact ⟨hlimit, .inr ⟨k, hk, by rw [hwritten, List.nil_append]⟩⟩

/-- The blocks shown of these files, all of them but the last in full, and the lines
left out. -/
inductive Excerpt (highEntropy : Text → Bool) : List FileDiff → List Text → List Text → Prop
  | whole (before after : List FileDiff) :
    Excerpt highEntropy (before ++ after)
      (before.map fun diff => unlines (renderedLines highEntropy diff))
      (after.flatMap (renderedLines highEntropy))
  | cut (before : List FileDiff) (diff : FileDiff) (after : List FileDiff) (k : ℕ)
      (hk : k < (renderedLines highEntropy diff).length) :
    Excerpt highEntropy (before ++ diff :: after)
      ((before.map fun diff => unlines (renderedLines highEntropy diff)) ++
        [unlines ((renderedLines highEntropy diff).take k)])
      ((renderedLines highEntropy diff).drop k ++ after.flatMap (renderedLines highEntropy))

/-- The files more are cut from, before and after. -/
theorem Excerpt.cons {diffs : List FileDiff} {shown left : List Text} (diff : FileDiff)
    (h : Excerpt highEntropy diffs shown left) :
    Excerpt highEntropy (diff :: diffs) (unlines (renderedLines highEntropy diff) :: shown)
      left := by
  cases h with
  | whole before after => exact .whole (diff :: before) after
  | cut before other after k hk => exact .cut (diff :: before) other after k hk

theorem Excerpt.append {diffs : List FileDiff} {shown left : List Text} (more : List FileDiff)
    (h : Excerpt highEntropy diffs shown left) :
    Excerpt highEntropy (diffs ++ more) shown
      (left ++ more.flatMap (renderedLines highEntropy)) := by
  cases h with
  | whole before after =>
    rw [List.append_assoc, ← List.flatMap_append]
    exact .whole before (after ++ more)
  | cut before diff after k hk =>
    rw [List.append_assoc, List.append_assoc, ← List.flatMap_append]
    exact .cut before diff (after ++ more) k hk

variable (highEntropy) in
theorem renderPaths_excerpt (index : CrossFileEvidenceIndex) (paths : List Text)
    (rendered : Text) : ∃ shown left,
      Excerpt highEntropy (paths.filterMap fun path => index.byPath[path]?) shown left ∧
      (renderPaths highEntropy index rendered paths).1 = shown.foldl separated rendered ∧
      ((renderPaths highEntropy index rendered paths).2 = true ↔ left ≠ []) := by
  induction paths generalizing rendered with
  | nil => exact ⟨[], [], .whole [] [], rfl, by simp [renderPaths]⟩
  | cons path paths ih =>
    rw [renderPaths]
    cases hdiff : index.byPath[path]? with
    | none =>
      rw [List.filterMap_cons_none hdiff]
      exact ih rendered
    | some diff =>
      rw [List.filterMap_cons_some hdiff]
      dsimp only
      generalize hlimit : MAX_BYTES - (utf8Len rendered + if rendered = [] then 0 else 1) -
        utf8Len TRUNCATION = limit
      rcases (renderBounded_cases highEntropy diff limit).2 with h | ⟨k, hk, h⟩
      · obtain ⟨shown, left, hexcerpt, hshown, hleft⟩ :=
          ih (separated rendered (unlines (renderedLines highEntropy diff)))
        simp only [h, Bool.false_eq_true, if_false]
        exact ⟨_, left, hexcerpt.cons diff, hshown, hleft⟩
      · simp only [h, if_true]
        refine ⟨_, _, .cut [] diff _ k hk, rfl, ?_⟩
        have hrest : (renderedLines highEntropy diff).drop k ≠ [] := by
          rw [ne_eq, List.drop_eq_nil_iff]
          omega
        simp [hrest]

/-- What is rendered leaves room for the notice, but for some line breaks at its end. -/
def Roomy (rendered : Text) (breaks : ℕ) : Prop :=
  ∃ text k, rendered = text ++ List.replicate k '\n' ∧ k ≤ breaks ∧
    utf8Len text + utf8Len TRUNCATION ≤ MAX_BYTES

theorem utf8Len_newlines (k : ℕ) : utf8Len (List.replicate k '\n') = k := by
  induction k with
  | zero => rfl
  | succ k ih =>
    rw [List.replicate_succ, utf8Len_cons, ih]
    exact Nat.add_comm 1 k

theorem Roomy.mono {rendered : Text} {breaks breaks' : ℕ} (h : Roomy rendered breaks)
    (hle : breaks ≤ breaks') : Roomy rendered breaks' := by
  obtain ⟨text, k, htext, hk, hroom⟩ := h
  exact ⟨text, k, htext, hk.trans hle, hroom⟩

/-- A block within its bound keeps the room; an empty one costs a line break. -/
theorem Roomy.separated {rendered block : Text} {breaks : ℕ} (h : Roomy rendered breaks)
    (hblock : utf8Len block ≤
      MAX_BYTES - (utf8Len rendered + if rendered = [] then 0 else 1) - utf8Len TRUNCATION) :
    Roomy (separated rendered block) (breaks + 1) := by
  by_cases hempty : block = []
  · obtain ⟨text, k, htext, hk, hroom⟩ := h
    by_cases hfirst : rendered = []
    · rw [Evidence.separated, if_pos hfirst, hempty, List.append_nil]
      exact ⟨text, k, htext, hk.trans (Nat.le_succ _), hroom⟩
    · refine ⟨text, k + 1, ?_, Nat.succ_le_succ hk, hroom⟩
      rw [Evidence.separated, if_neg hfirst, hempty, List.append_nil, htext, List.replicate_succ',
        List.append_assoc]
  · refine ⟨Evidence.separated rendered block, 0, (List.append_nil _).symm, Nat.zero_le _, ?_⟩
    have hpositive : utf8Len block ≠ 0 := fun h => hempty (utf8Len_eq_zero.mp h)
    have hlength : utf8Len (Evidence.separated rendered block) =
        utf8Len rendered + (if rendered = [] then 0 else 1) + utf8Len block := by
      rw [Evidence.separated, utf8Len_append]
      split_ifs with hfirst
      · rfl
      · rw [utf8Len_append]
        rfl
    omega

theorem renderPaths_roomy (index : CrossFileEvidenceIndex) (paths : List Text) {rendered : Text}
    {breaks : ℕ} (h : Roomy rendered breaks) :
    Roomy (renderPaths highEntropy index rendered paths).1 (breaks + paths.length) := by
  induction paths generalizing rendered breaks with
  | nil => exact h
  | cons path paths ih =>
    rw [renderPaths, List.length_cons, ← add_assoc, Nat.add_right_comm]
    cases hdiff : index.byPath[path]? with
    | none => exact ih (h.mono (Nat.le_succ _))
    | some diff =>
      dsimp only
      have hblock := h.separated (renderBounded_cases highEntropy diff _).1
      generalize renderBounded highEntropy diff _ = outcome at hblock ⊢
      obtain ⟨block, cut⟩ := outcome
      cases cut with
      | true => exact hblock.mono (Nat.le_add_right _ _)
      | false => exact ih hblock

/-- Cut to leave room for the notice, only line breaks at the end are lost. -/
theorem Roomy.fitting {rendered : Text} {breaks : ℕ} (h : Roomy rendered breaks) :
    ∃ k, rendered = (fitting (MAX_BYTES - utf8Len TRUNCATION) rendered).1 ++
      List.replicate k '\n' := by
  obtain ⟨text, k, rfl, -, hroom⟩ := h
  generalize hn : MAX_BYTES - utf8Len TRUNCATION = n
  have hfits : utf8Len text ≤ n := by omega
  clear hn hroom
  induction text generalizing n with
  | nil =>
    refine ⟨((Text.fitting n (List.replicate k '\n')).2).length, ?_⟩
    have hsplit := fitting_append n (List.replicate k '\n')
    rw [List.nil_append]
    conv_lhs => rw [← hsplit]
    rw [List.append_cancel_left_eq, List.eq_replicate_iff]
    refine ⟨rfl, fun c hc => List.eq_of_mem_replicate (n := k) ?_⟩
    rw [← hsplit]
    exact List.mem_append_right _ hc
  | cons c text ih =>
    rw [utf8Len_cons] at hfits
    obtain ⟨j, hj⟩ := ih (n - c.utf8Size) (by omega)
    refine ⟨j, ?_⟩
    rw [List.cons_append, Text.fitting, if_pos (by omega), List.cons_append, ← hj]

/-- The files that belong to a group's evidence. -/
def CrossFileEvidenceIndex.filesFor (index : CrossFileEvidenceIndex) (group : List FileDiff) :
    List FileDiff :=
  (index.pathsFor group).filterMap fun path => index.byPath[path]?

def together (blocks : List Text) : Text := blocks.foldl separated []

theorem mem_foldl_note (paths seen : List Text) (path : Text) :
    path ∈ paths.foldl CrossFileEvidenceIndex.note seen ↔ path ∈ seen ∨ path ∈ paths := by
  induction paths generalizing seen with
  | nil => simp
  | cons first paths ih =>
    rw [List.foldl_cons, ih, CrossFileEvidenceIndex.note, List.mem_cons, ← or_assoc]
    split_ifs with h
    · rw [or_iff_left_of_imp (fun heq : path = first => heq ▸ h)]
    · rw [List.mem_append, List.mem_singleton]

theorem foldl_note_nodup (paths : List Text) {seen : List Text} (h : seen.Nodup) :
    (paths.foldl CrossFileEvidenceIndex.note seen).Nodup := by
  induction paths generalizing seen with
  | nil => exact h
  | cons first paths ih =>
    apply ih
    rw [CrossFileEvidenceIndex.note]
    split_ifs with hseen
    · exact h
    · exact List.Nodup.append h (List.nodup_singleton first)
        (List.disjoint_singleton.mpr hseen)

theorem mem_pathsFor (index : CrossFileEvidenceIndex) (group : List FileDiff) (path : Text) :
    path ∈ index.pathsFor group ↔
      ∃ diff ∈ group, diff.path = path ∨ path ∈ index.relatedTo diff := by
  rw [CrossFileEvidenceIndex.pathsFor, mem_foldl_note, mem_foldl_note, List.mem_map,
    List.mem_flatMap]
  simp only [List.not_mem_nil, false_or, and_or_left, exists_or]

theorem pathsFor_nodup (index : CrossFileEvidenceIndex) (group : List FileDiff) :
    (index.pathsFor group).Nodup :=
  foldl_note_nodup _ (foldl_note_nodup _ List.nodup_nil)

theorem renderFor_cases (highEntropy : Text → Bool) (index : CrossFileEvidenceIndex)
    (group : List FileDiff) :
    utf8Len (renderFor highEntropy index group) ≤ MAX_BYTES ∧
    ∃ shown left text breaks,
      Excerpt highEntropy (index.filesFor group) shown left ∧
      together shown = text ++ List.replicate breaks '\n' ∧
      ((renderFor highEntropy index group = text ∧ breaks = 0 ∧ left = [] ∧
          (index.pathsFor group).length ≤ MAX_FILES) ∨
        (renderFor highEntropy index group = text ++ TRUNCATION ∧
          (left ≠ [] ∨ MAX_FILES < (index.pathsFor group).length))) := by
  have hnotice : MAX_FILES + utf8Len TRUNCATION ≤ MAX_BYTES := by decide
  have hnoticeLength : MAX_FILES ≤ utf8Len TRUNCATION := by decide
  obtain ⟨shown, left, hexcerpt, hshown, hcut⟩ :=
    renderPaths_excerpt highEntropy index ((index.pathsFor group).take MAX_FILES) []
  have hroomy : Roomy (renderPaths highEntropy index []
      ((index.pathsFor group).take MAX_FILES)).1 MAX_FILES := by
    have hstart : Roomy [] 0 := ⟨[], 0, rfl, le_rfl, by rw [utf8Len_nil]; omega⟩
    apply (renderPaths_roomy index _ hstart).mono
    rw [zero_add, List.length_take]
    exact min_le_left _ _
  have hfiles := hexcerpt.append
    (((index.pathsFor group).drop MAX_FILES).filterMap fun path => index.byPath[path]?)
  rw [← List.filterMap_append, List.take_append_drop] at hfiles
  rw [renderFor]
  dsimp only
  generalize renderPaths highEntropy index [] ((index.pathsFor group).take MAX_FILES) = outcome
    at hshown hcut hroomy ⊢
  obtain ⟨rendered, cut⟩ := outcome
  dsimp only at hshown hcut hroomy ⊢
  by_cases hincomplete : MAX_FILES < (index.pathsFor group).length ∨ cut = true
  · rw [if_pos hincomplete]
    have hsome : left ++ (((index.pathsFor group).drop MAX_FILES).filterMap
        fun path => index.byPath[path]?).flatMap (renderedLines highEntropy) ≠ [] ∨
        MAX_FILES < (index.pathsFor group).length := by
      rcases hincomplete with hmany | hcutTrue
      · exact .inr hmany
      · exact .inl (List.append_ne_nil_of_left_ne_nil (hcut.mp hcutTrue) _)
    by_cases hfull : utf8Len rendered + utf8Len TRUNCATION > MAX_BYTES
    · rw [if_pos hfull]
      obtain ⟨k, hk⟩ := hroomy.fitting
      have hlength := utf8Len_fitting (MAX_BYTES - utf8Len TRUNCATION) rendered
      refine ⟨?_, shown, _, _, k, hfiles, hshown.symm.trans hk, .inr ⟨rfl, hsome⟩⟩
      rw [utf8Len_append]
      omega
    · rw [if_neg hfull]
      refine ⟨?_, shown, _, rendered, 0, hfiles, ?_, .inr ⟨rfl, hsome⟩⟩
      · rw [utf8Len_append]
        omega
      · rw [List.replicate_zero, List.append_nil]
        exact hshown.symm
  · rw [if_neg hincomplete]
    obtain ⟨hfew, hwhole⟩ := not_or.mp hincomplete
    have hleft : left = [] := by
      by_contra hne
      exact hwhole (hcut.mpr hne)
    have hnone : (index.pathsFor group).drop MAX_FILES = [] :=
      List.drop_eq_nil_iff.mpr (Nat.not_lt.mp hfew)
    refine ⟨?_, shown, _, rendered, 0, hfiles, ?_, .inl ⟨rfl, rfl, ?_, Nat.not_lt.mp hfew⟩⟩
    · obtain ⟨text, k, htext, hk, hroom⟩ := hroomy
      rw [htext, utf8Len_append, utf8Len_newlines]
      omega
    · rw [List.replicate_zero, List.append_nil]
      exact hshown.symm
    · rw [hleft, hnone]
      rfl

/-- Evidence stays within its bound and shows the files in order, cut between lines. It
ends in a notice whenever a line is left out, and only then or where there are too many
files; without the notice nothing is left out. -/
theorem renderFor_disclosed (highEntropy : Text → Bool) (index : CrossFileEvidenceIndex)
    (group : List FileDiff) :
    utf8Len (renderFor highEntropy index group) ≤ MAX_BYTES ∧
    (index.pathsFor group).Nodup ∧
    (∀ path, path ∈ index.pathsFor group ↔
      ∃ diff ∈ group, diff.path = path ∨ path ∈ index.relatedTo diff) ∧
    ∃ shown left text breaks,
      Excerpt highEntropy (index.filesFor group) shown left ∧
      together shown = text ++ List.replicate breaks '\n' ∧
      ((renderFor highEntropy index group = text ∧ breaks = 0 ∧ left = [] ∧
          (index.pathsFor group).length ≤ MAX_FILES) ∨
        (renderFor highEntropy index group = text ++ TRUNCATION ∧
          (left ≠ [] ∨ MAX_FILES < (index.pathsFor group).length))) := by
  obtain ⟨hbound, hcases⟩ := renderFor_cases highEntropy index group
  exact ⟨hbound, pathsFor_nodup index group, mem_pathsFor index group, hcases⟩

/-- The files whose blocks the evidence does not show. -/
def hiddenFiles (highEntropy : Text → Bool) (index : CrossFileEvidenceIndex)
    (group : List FileDiff) : List FileDiff :=
  (index.filesFor group).filter fun diff =>
    !contains (renderFor highEntropy index group) (unlines (renderedLines highEntropy diff))

/-- Nine changed files, one more than are shown. -/
def nineFiles : List FileDiff :=
  ["a", "b", "c", "d", "e", "f", "g", "h", "zz.rs"].map fun path =>
    { path := path.toList, hunks := [⟨0, 0, 0, 0, [], []⟩] }

def nineFilesIndex : CrossFileEvidenceIndex where
  byPath := TreeMap.ofList (nineFiles.map fun diff => (diff.path, diff))
  related := ∅

/-- The ninth file is neither named nor counted. -/
theorem renderFor_nineFiles :
    ¬ ∀ highEntropy index group, ∀ diff ∈ hiddenFiles highEntropy index group,
      contains (renderFor highEntropy index group) diff.path ∨
        contains (renderFor highEntropy index group)
          (decimal (hiddenFiles highEntropy index group).length) := by
  intro h
  have hsilent := h (fun _ => false) nineFilesIndex nineFiles
  revert hsilent
  decide +kernel

end TinySweeper.Evidence
