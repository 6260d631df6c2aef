import TinySweeper.Position.Sound

/-!
# Quotes that drifted

A model re-indents what it copies, drops and adds blank lines, and may leave the
marker of a diff line or a code fence around it. A quote of head-side lines that
drifted so is still found.
-/

namespace TinySweeper.Position

open Text Evidence Window

def isBreakChar (c : Char) : Bool := c = '\n' || c = '\r'

/-- Strip a code fence around an answer. -/
def unfence (text : Text) : Text :=
  let trimmed := (text.dropWhile isBreakChar).rdropWhile isBreakChar
  match lines trimmed with
  | [] => []
  | first :: rest =>
    if !"```".toList.isPrefixOf (trimStart first) then trimmed
    else
      let body := match rest.getLast? with
        | some last => if "```".toList.isPrefixOf (trim last) then rest.dropLast else rest
        | none => rest
      ['\n'].intercalate body

/-- A line re-indented, with white space after it, and behind its diff marker if the quote
has markers. -/
def Quotes (marked : Bool) (line : DiffLine) (raw : Text) : Prop :=
  if marked then
    ∃ lead rest, (∀ c ∈ lead, isWhitespace c = true) ∧ raw = lead ++ line.kind.marker :: rest ∧
      trim rest = trim line.text
  else trim raw = trim line.text

theorem quotes_false {line : DiffLine} {raw : Text} :
    Quotes false line raw ↔ trim raw = trim line.text := by simp [Quotes]

/-- A blank line, behind a marker or not. -/
def IsBlank (marked : Bool) (raw : Text) : Prop :=
  trim raw = [] ∨ marked = true ∧ (trim raw = ['+'] ∨ trim raw = ['-'])

/-- The lines of a quote; blank ones come and go. -/
inductive Drift (marked : Bool) : List DiffLine → List Text → Prop
  | nil : Drift marked [] []
  | quote {line raw window raws} (hline : Quotes marked line raw) (hrest : Drift marked window raws) :
    Drift marked (line :: window) (raw :: raws)
  | insert {raw window raws} (hblank : IsBlank marked raw) (hrest : Drift marked window raws) :
    Drift marked window (raw :: raws)
  | delete {line window raws} (hblank : trim line.text = []) (hrest : Drift marked window raws) :
    Drift marked (line :: window) raws

/-- The code of an added line does not begin the way a diff marker does. -/
def MarkerApart (line : DiffLine) : Prop :=
  line.kind = .added → ∀ c ∈ (trim line.text).head?, c ≠ '+' ∧ c ≠ '-'

/-- Anchored on head-side lines of one hunk that show the same normalised text. -/
def LocatedAs (diff : FileDiff) (window : List DiffLine) (r : Resolution) : Prop :=
  ∃ a hunk, r = .anchored a ∧ a.side = .new ∧ a.stage = .hunk ∧ hunk ∈ diff.hunks ∧
    (hunk.lines.filter a.covers).filterMap (shown .new) = window.filterMap (shown .new)

theorem normalize_of_trim {raw text : Text} (h : trim raw = trim text) :
    normalize raw = normalize text := by
  unfold normalize
  rw [h]

theorem normalize_chomp (raw : Text) : normalize (chomp raw) = normalize raw :=
  normalize_of_trim (trim_chomp raw)

theorem normalize_of_blank {raw : Text} (h : trim raw = []) : normalize raw = [] := by
  unfold normalize
  rw [h]
  rfl

/-- A text that begins with neither marker is only trimmed. -/
theorem normalize_eq_trim {text : Text} (h : ∀ c ∈ (trim text).head?, c ≠ '+' ∧ c ≠ '-') :
    normalize text = trim text := by
  unfold normalize
  cases htrim : trim text with
  | nil => rfl
  | cons c rest =>
    obtain ⟨hplus, hminus⟩ := h c (by rw [htrim]; rfl)
    have hself : trim (c :: rest) = c :: rest := by
      rw [← htrim]
      exact trim_trim text
    dsimp only
    split
    · rename_i heq
      exact absurd (List.cons.inj heq).1 hplus
    · rename_i heq
      exact absurd (List.cons.inj heq).1 hminus
    · exact hself

/-- A leaked plus sign goes, whatever stands around it. -/
theorem normalize_plus {lead : Text} (hlead : ∀ c ∈ lead, isWhitespace c = true) (rest : Text) :
    normalize (lead ++ '+' :: rest) = trim rest := by
  have hplus : trim (lead ++ '+' :: rest) = '+' :: trimEnd rest := by
    rw [trim_append_of_blank hlead, trim]
    have hstart : trimStart ('+' :: rest) = '+' :: rest := by
      simp [trimStart, show isWhitespace '+' = false by decide]
    rw [hstart]
    by_cases hblank : trimEnd rest = []
    · rw [hblank]
      have hall := (List.rdropWhile_eq_nil_iff).mp hblank
      unfold trimEnd List.rdropWhile
      rw [List.reverse_cons, List.dropWhile_append_of_pos fun c hc => hall c (by simpa using hc)]
      decide
    · exact @trimEnd_append ['+'] _ hblank
  unfold normalize
  rw [hplus]
  exact trim_trimEnd rest

theorem Quotes.normalize_eq {marked : Bool} {line : DiffLine} {raw : Text}
    (h : Quotes marked line raw) (hon : line.kind.isOn .new = true)
    (hapart : marked = true → MarkerApart line) : normalize raw = normalize line.text := by
  cases marked with
  | false => exact normalize_of_trim (quotes_false.mp h)
  | true =>
    obtain ⟨lead, rest, hlead, rfl, hrest⟩ := h
    cases hkind : line.kind with
    | removed => simp [hkind, LineKind.isOn] at hon
    | context =>
      -- The marker of a context line is white space.
      apply normalize_of_trim
      have hblank : ∀ c ∈ lead ++ [' '], isWhitespace c = true := by
        intro c hc
        rcases List.mem_append.mp hc with hc | hc
        · exact hlead c hc
        · rw [List.mem_singleton.mp hc]
          decide
      rw [← hrest, ← trim_append_of_blank hblank rest, List.append_assoc]
      rfl
    | added =>
      calc normalize (lead ++ '+' :: rest) = trim rest := normalize_plus hlead rest
        _ = trim line.text := hrest
        _ = normalize line.text := (normalize_eq_trim (hapart rfl hkind)).symm

theorem IsBlank.normalize_eq {marked : Bool} {raw : Text} (h : IsBlank marked raw) :
    normalize raw = [] := by
  rcases h with hblank | ⟨-, hplus | hminus⟩
  · exact normalize_of_blank hblank
  · unfold normalize
    rw [hplus]
    rfl
  · unfold normalize
    rw [hminus]
    rfl

/-- A drifted quote shows what the quoted lines show. -/
theorem Drift.filterMap_shownRaw {marked : Bool} {window : List DiffLine} {raws : List Text}
    (h : Drift marked window raws) (hon : ∀ line ∈ window, line.kind.isOn .new = true)
    (hapart : marked = true → ∀ line ∈ window, MarkerApart line) :
    raws.filterMap shownRaw = window.filterMap (shown .new) := by
  induction h with
  | nil => rfl
  | @quote line raw window raws hline hrest ih =>
    have hsame := hline.normalize_eq (hon line List.mem_cons_self)
      fun hmarked => hapart hmarked line List.mem_cons_self
    have hrow : shownRaw raw = shown .new line := by
      rw [shown, if_pos (hon line List.mem_cons_self), shownRaw, hsame]
      rfl
    rw [List.filterMap_cons, List.filterMap_cons, hrow,
      ih (fun line hmem => hon line (List.mem_cons_of_mem _ hmem))
        fun hmarked line hmem => hapart hmarked line (List.mem_cons_of_mem _ hmem)]
  | @insert raw window raws hblank hrest ih =>
    rw [List.filterMap_cons_none (by rw [shownRaw, if_pos hblank.normalize_eq])]
    exact ih hon hapart
  | @delete line window raws hblank hrest ih =>
    have hnone : shown .new line = none := by
      rw [shown, shownRaw, if_pos (normalize_of_blank hblank), ite_self]
    rw [List.filterMap_cons_none hnone]
    exact ih (fun line hmem => hon line (List.mem_cons_of_mem _ hmem))
      fun hmarked line hmem => hapart hmarked line (List.mem_cons_of_mem _ hmem)

theorem needle_eq (snippet : Text) : needle snippet = (lines snippet).filterMap shownRaw := by
  unfold needle
  rw [← List.filterMap_eq_map, List.filter_filterMap]
  apply List.filterMap_congr
  intro raw _
  unfold shownRaw
  by_cases hblank : normalize raw = []
  · simp [hblank]
  · simp [hblank]

theorem shownRaw_chomp (raw : Text) : shownRaw (chomp raw) = shownRaw raw := by
  rw [shownRaw, shownRaw, normalize_chomp]

theorem needle_line {line : Text} (hline : '\n' ∉ line) :
    needle line = (shownRaw line).toList := by
  by_cases hne : line = []
  · rw [hne]
    decide
  · rw [needle_eq, lines_of_notMem hline hne]
    cases hrow : shownRaw line <;> simp [hrow]

theorem needle_cons {line : Text} (hline : '\n' ∉ line) (rest : Text) :
    needle (line ++ '\n' :: rest) = (shownRaw line).toList ++ needle rest := by
  rw [needle_eq, needle_eq, lines_append hline]
  cases hrow : shownRaw line <;> simp [shownRaw_chomp, hrow]

theorem needle_append (before after : Text) :
    needle (before ++ '\n' :: after) = needle before ++ needle after := by
  induction before using lines_induction with
  | last line hline => rw [needle_cons hline, needle_line hline]
  | line line rest hline ih =>
    rw [List.append_assoc, List.cons_append, needle_cons hline, ih, needle_cons hline,
      List.append_assoc]

theorem needle_intercalate {pieces : List Text} (hpieces : ∀ piece ∈ pieces, '\n' ∉ piece) :
    needle (['\n'].intercalate pieces) = pieces.filterMap shownRaw := by
  induction pieces with
  | nil => rfl
  | cons piece pieces ih =>
    have hpiece := needle_line (hpieces piece List.mem_cons_self)
    cases pieces with
    | nil =>
      rw [List.intercalate_singleton, hpiece]
      cases hrow : shownRaw piece <;> simp [hrow]
    | cons next pieces =>
      rw [List.intercalate_cons_of_ne_nil (by simp), List.append_assoc, List.singleton_append,
        needle_append, hpiece, ih fun other hmem => hpieces other (List.mem_cons_of_mem _ hmem)]
      cases hrow : shownRaw piece <;> simp [hrow]

/-- A line that opens or closes a code fence. -/
structure IsFence (line : Text) : Prop where
  ticks : "```".toList <+: trim line
  unbroken : ∀ c ∈ line, isBreakChar c = false

section Fence

variable {line : Text} (h : IsFence line)

include h

theorem IsFence.notMem : '\n' ∉ line := by
  intro hmem
  exact absurd (h.unbroken _ hmem) (by decide)

theorem IsFence.chomp : chomp line = line := by
  apply if_neg
  intro hlast
  exact absurd (h.unbroken _ (List.mem_of_getLast? hlast)) (by decide)

theorem IsFence.ne_nil : line ≠ [] := by
  rintro rfl
  exact absurd h.ticks (by decide)

theorem IsFence.opens : "```".toList.isPrefixOf (trimStart line) = true := by
  rw [List.isPrefixOf_iff_prefix]
  exact h.ticks.trans (List.rdropWhile_prefix _ _)

end Fence

/-- A snippet in a code fence. -/
def fenced (opening snippet closing : Text) : Text :=
  opening ++ '\n' :: (snippet ++ '\n' :: closing)

theorem unfence_fenced {opening closing : Text} (hopening : IsFence opening)
    (hclosing : IsFence closing) (snippet : Text) :
    unfence (fenced opening snippet closing) = ['\n'].intercalate (lines (snippet ++ ['\n'])) := by
  have hfront : (fenced opening snippet closing).dropWhile isBreakChar =
      fenced opening snippet closing := by
    cases opening with
    | nil => exact absurd rfl hopening.ne_nil
    | cons c opening =>
      have hc := hopening.unbroken c List.mem_cons_self
      simp [fenced, hc]
  have hback : (fenced opening snippet closing).rdropWhile isBreakChar =
      fenced opening snippet closing := by
    rcases List.eq_nil_or_concat' closing with rfl | ⟨init, c, rfl⟩
    · exact absurd rfl hclosing.ne_nil
    · have hc := hclosing.unbroken c (by simp)
      have hconcat : fenced opening snippet (init ++ [c]) =
          opening ++ '\n' :: (snippet ++ '\n' :: init) ++ [c] := by simp [fenced]
      rw [hconcat, List.rdropWhile_concat_neg _ _ _ (by simp [hc])]
  have hlines : lines (fenced opening snippet closing) =
      opening :: (lines (snippet ++ ['\n']) ++ [closing]) := by
    rw [fenced, lines_append hopening.notMem, hopening.chomp, lines_append_lines,
      lines_of_notMem hclosing.notMem hclosing.ne_nil]
  have hcloses : "```".toList.isPrefixOf (trim closing) = true :=
    List.isPrefixOf_iff_prefix.mpr hclosing.ticks
  unfold unfence
  rw [hfront, hback]
  dsimp only
  rw [hlines]
  simp only [hopening.opens, hcloses, List.getLast?_concat, List.dropLast_concat, Bool.not_true,
    Bool.false_eq_true, if_false, if_true]

theorem needle_unfence {opening closing : Text} (hopening : IsFence opening)
    (hclosing : IsFence closing) (snippet : Text) :
    needle (unfence (fenced opening snippet closing)) = needle snippet := by
  calc needle (unfence (fenced opening snippet closing))
      = (lines (snippet ++ ['\n'])).filterMap shownRaw := by
        rw [unfence_fenced hopening hclosing, needle_intercalate fun _ => notMem_of_mem_lines]
    _ = needle (snippet ++ '\n' :: []) := (needle_eq _).symm
    _ = needle snippet := by
        rw [needle_append]
        exact List.append_nil _

section Locate

variable {diff : FileDiff} {hunk : Hunk} {before window after : List DiffLine} {snippet : Text}

/-- A quote of what a hunk shows on the head side is found in that hunk. -/
theorem find_projectNew_ne_none (hnumbered : hunk.Numbered) (hne : needle snippet ≠ [])
    (hwindow : hunk.lines.filter (fun line => line.kind.isOn .new) = before ++ window ++ after)
    (hneedle : needle snippet = window.filterMap (shown .new)) :
    find (projectNew hunk) (needle snippet) ≠ none := by
  intro hnone
  have hrows : projectNew hunk =
      before.filterMap rowNew ++ window.filterMap rowNew ++ after.filterMap rowNew := by
    rw [projectNew_eq hnumbered, ← List.filterMap_append, ← List.filterMap_append, ← hwindow,
      List.filterMap_filter]
    apply List.filterMap_congr
    intro line _
    unfold rowNew shown
    split_ifs <;> rfl
  have htexts : (window.filterMap rowNew).map Prod.snd = needle snippet := by
    rw [← filterMap_textOf, textOf_rowNew, hneedle]
  have hmiss := find?_windows_eq_none (List.length_pos_iff.mpr hne) (find_eq_none hne hnone) hrows
    (by rw [← htexts, List.length_map])
  simp [htexts] at hmiss

theorem locatedAs (hnumbered : ∀ other ∈ diff.hunks, other.Numbered) (hhunk : hunk ∈ diff.hunks)
    (hwindow : hunk.lines.filter (fun line => line.kind.isOn .new) = before ++ window ++ after)
    (hne : needle snippet ≠ []) (hneedle : needle snippet = window.filterMap (shown .new))
    (file : Option Text) : LocatedAs diff window (locate snippet (some diff) file) := by
  cases hfound : findInHunks projectNew diff.hunks (needle snippet) with
  | none =>
    have hnone := List.findSome?_eq_none_iff.mp hfound hunk hhunk
    exact absurd hnone (find_projectNew_ne_none (hnumbered hunk hhunk) hne hwindow hneedle)
  | some range =>
    obtain ⟨i, found, hget, hfind, -⟩ := findInHunks_eq_some hfound
    have hmem := List.mem_of_getElem? hget
    obtain ⟨_, _, _, hanchor⟩ := anchoredIn_new (hnumbered found hmem) hfind
    have hlocate : locate snippet (some diff) file = anchored range .new .hunk := by
      unfold locate
      dsimp only
      rw [if_neg hne, Option.bind_some, hfound]
    refine ⟨_, found, hlocate, rfl, rfl, hmem, ?_⟩
    rw [← hneedle]
    exact (hanchor.covers (hnumbered found hmem) rfl).2

/-- Head-side lines with code among them are found again when they are re-indented, gain or
lose blank lines and trailing white space, keep their diff markers, or come in a code fence
that is taken off. -/
theorem locate_drifted {marked : Bool} (hnumbered : ∀ other ∈ diff.hunks, other.Numbered)
    (hhunk : hunk ∈ diff.hunks)
    (hwindow : hunk.lines.filter (fun line => line.kind.isOn .new) = before ++ window ++ after)
    (hcode : ∃ line ∈ window, normalize line.text ≠ [])
    (hapart : marked = true → ∀ line ∈ window, MarkerApart line)
    (hdrift : Drift marked window (lines snippet)) (file : Option Text) :
    LocatedAs diff window (locate snippet (some diff) file) ∧
      ∀ opening closing, IsFence opening → IsFence closing →
        LocatedAs diff window
          (locate (unfence (fenced opening snippet closing)) (some diff) file) := by
  have hon : ∀ line ∈ window, line.kind.isOn .new = true := by
    intro line hline
    have hmem : line ∈ hunk.lines.filter fun line => line.kind.isOn .new := by
      rw [hwindow]
      exact List.mem_append_left _ (List.mem_append_right _ hline)
    exact (List.mem_filter.mp hmem).2
  have hneedle : needle snippet = window.filterMap (shown .new) := by
    rw [needle_eq]
    exact hdrift.filterMap_shownRaw hon hapart
  have hne : needle snippet ≠ [] := by
    obtain ⟨line, hline, htext⟩ := hcode
    rw [hneedle, Ne, List.filterMap_eq_nil_iff]
    intro hnone
    have hsome := isSome_shown_iff.mpr ⟨hon line hline, htext⟩
    rw [hnone line hline] at hsome
    cases hsome
  constructor
  · exact locatedAs hnumbered hhunk hwindow hne hneedle file
  · intro opening closing hopening hclosing
    have hsame := needle_unfence hopening hclosing snippet
    exact locatedAs hnumbered hhunk hwindow (hsame ▸ hne) (hsame.trans hneedle) file

end Locate

/-- The diff of a file that gains an argument. -/
def withFlag : FileDiff := parseFilePatch [] "@@ -1 +1,2 @@\n run(\n+-x)\n".toList

/-- Its lines. -/
def flagged : List DiffLine :=
  [⟨.context, some 1, some 1, "run(".toList⟩, ⟨.added, some 2, none, "-x)".toList⟩]

theorem locate_drifted_withFlag :
    LocatedAs withFlag flagged (locate "  run(\n\n-x)\t\n".toList (some withFlag) none) := by
  have hlines : lines "  run(\n\n-x)\t\n".toList = ["  run(".toList, [], "-x)\t".toList] := by
    decide +kernel
  have hdrift : Drift false flagged (lines "  run(\n\n-x)\t\n".toList) := by
    rw [hlines]
    apply Drift.quote
    · rw [quotes_false]
      decide +kernel
    · apply Drift.insert
      · exact .inl rfl
      · apply Drift.quote
        · rw [quotes_false]
          decide +kernel
        · exact .nil
  have hhunk : ∃ hunk ∈ withFlag.hunks,
      hunk.lines.filter (fun line => line.kind.isOn .new) = [] ++ flagged ++ [] := by
    decide +kernel
  obtain ⟨hunk, hmem, hwindow⟩ := hhunk
  have hcode : ∃ line ∈ flagged, normalize line.text ≠ [] := by decide +kernel
  exact (locate_drifted (fun _ => parseFilePatch_numbered) hmem hwindow hcode (by simp) hdrift
    none).1

/-- With its fence on a quote is not found, nor is one that keeps the marker in front of a line
of code which begins like a marker. -/
theorem locate_misses_drifted :
    (∃ hunk ∈ withFlag.hunks, hunk.lines = flagged) ∧
      locate "```\nrun(\n-x)\n```".toList (some withFlag) none = .unanchored .noMatch ∧
      locate " run(\n+-x)".toList (some withFlag) none = .unanchored .noMatch := by
  decide +kernel

end TinySweeper.Position
