import TinySweeper.Evidence.Diff

/-!
# Unified diffs between two revisions

A diff as a differ writes it: hunks that copy runs of both revisions, each under
a header naming where the runs start. Parsing it gives the runs back.
-/

namespace TinySweeper.Evidence

open Text

/-- The lines of a file; a file that fits in memory has fewer than `2 ^ 63`. -/
structure Revision where
  lines : List Text
  newlineFree : ∀ line ∈ lines, '\n' ∉ line
  fits : lines.length < 2 ^ 63

inductive PatchLine where
  | line (kind : LineKind) (text : Text)
  /-- `\ No newline at end of file`. -/
  | note (text : Text)
  deriving DecidableEq, Repr

structure PatchHunk where
  oldStart : ℕ
  newStart : ℕ
  /-- Whether a count of one is left out. -/
  omitOld : Bool
  omitNew : Bool
  heading : Text
  body : List PatchLine
  deriving DecidableEq, Repr

namespace PatchLine

def print : PatchLine → Text
  | .line kind text => kind.marker :: text
  | .note text => '\\' :: text

def textOn (side : Side) : PatchLine → Option Text
  | .line kind text => if kind.isOn side then some text else none
  | .note _ => none

def kind? : PatchLine → Option LineKind
  | .line kind _ => some kind
  | .note _ => none

def mapText (f : Text → Text) : PatchLine → PatchLine
  | .line kind text => .line kind (f text)
  | .note text => .note (f text)

end PatchLine

def printRange (start count : ℕ) (omitted : Bool) : Text :=
  if omitted && count = 1 then decimal start else decimal start ++ ',' :: decimal count

namespace PatchHunk

/-- The lines of the hunk on one side. -/
def side (h : PatchHunk) (side : Side) : List Text := h.body.filterMap (PatchLine.textOn side)

def start (h : PatchHunk) : Side → ℕ
  | .new => h.newStart
  | .old => h.oldStart

def ranges (h : PatchHunk) : Text :=
  ' ' :: ('-' :: printRange h.oldStart (h.side .old).length h.omitOld) ++
    ' ' :: ('+' :: printRange h.newStart (h.side .new).length h.omitNew) ++ [' ']

def headerLine (ranges heading : Text) : Text := '@' :: '@' :: (ranges ++ '@' :: '@' :: heading)

def header (h : PatchHunk) : Text := headerLine h.ranges h.heading

def print (h : PatchHunk) : List Text := h.header :: h.body.map PatchLine.print

/-- The hunk copies a run of each revision; where a run is empty the header names the
line before it. -/
structure Between (revision : Side → Revision) (h : PatchHunk) : Prop where
  side : ∀ side, h.side side <+: (revision side).lines.drop (h.start side - 1)
  start_pos : ∀ side, h.side side ≠ [] → 1 ≤ h.start side
  start_le : ∀ side, h.start side ≤ (revision side).lines.length
  heading : '\n' ∉ h.heading
  notes : ∀ text, .note text ∈ h.body → '\n' ∉ text

end PatchHunk

/-- A well-formed diff, after any lines that are no hunk header. -/
structure UnifiedDiff (revision : Side → Revision) where
  stanza : List Text
  hunks : List PatchHunk
  /-- Whether the last line has its line break. -/
  terminated : Bool
  stanza_plain : ∀ raw ∈ stanza, '\n' ∉ raw ∧ "@@".toList.isPrefixOf raw = false
  between : ∀ h ∈ hunks, h.Between revision

theorem plain_nil : ∀ raw ∈ ([] : List Text), '\n' ∉ raw ∧ "@@".toList.isPrefixOf raw = false :=
  List.forall_mem_nil _

def UnifiedDiff.print {revision : Side → Revision} (d : UnifiedDiff revision) : Text :=
  joinLines d.terminated (d.stanza ++ d.hunks.flatMap PatchHunk.print)

def numberLine (next : Side → ℕ) (kind : LineKind) (text : Text) : DiffLine where
  kind := kind
  newLine := if kind.isOn .new then some (next .new) else none
  oldLine := if kind.isOn .old then some (next .old) else none
  text := text

/-- The numbered lines of a hunk's body, from the next number of each side. -/
def numberLines : (next : Side → ℕ) → List PatchLine → List DiffLine
  | _, [] => []
  | next, .note _ :: body => numberLines next body
  | next, .line kind text :: body =>
    numberLine next kind text ::
      numberLines (fun side => if kind.isOn side then next side + 1 else next side) body

def PatchHunk.parsed (h : PatchHunk) : Hunk where
  oldStart := h.oldStart
  oldLines := (h.side .old).length
  newStart := h.newStart
  newLines := (h.side .new).length
  heading := trim h.heading
  lines := numberLines h.start h.body

/-- Head-revision numbers of the added lines. -/
def addedNumbers (lines : List DiffLine) : Finset ℕ :=
  (lines.filterMap fun line => if line.kind = .added then line.newLine else none).toFinset

section Numbering

variable {next : Side → ℕ} {side : Side}

theorem numberLine_lineOn (kind : LineKind) (text : Text) :
    (numberLine next kind text).lineOn side =
      if kind.isOn side then some (next side) else none := by
  cases side <;> rfl

theorem numberLines_append (before after : List PatchLine) :
    numberLines next (before ++ after) = numberLines next before ++
      numberLines (fun side => next side + (before.filterMap (PatchLine.textOn side)).length)
        after := by
  induction before generalizing next with
  | nil => rfl
  | cons line before ih =>
    cases line with
    | note text => simp [numberLines, ih, List.filterMap_cons, PatchLine.textOn]
    | line kind text =>
      simp only [List.cons_append, numberLines, ih, List.cons.injEq, true_and,
        List.append_cancel_left_eq]
      congr 1
      funext side
      by_cases hon : kind.isOn side = true
      · simp [PatchLine.textOn, hon, Nat.add_assoc, Nat.add_comm 1]
      · simp [PatchLine.textOn, hon]

/-- A line is numbered on exactly the sides it is on. -/
theorem numberLines_lineOn {body : List PatchLine} {line : DiffLine}
    (hline : line ∈ numberLines next body) :
    (line.lineOn side).isSome = line.kind.isOn side := by
  induction body generalizing next with
  | nil => cases hline
  | cons head body ih =>
    cases head with
    | note text => exact ih hline
    | line kind text =>
      rcases List.mem_cons.mp hline with rfl | hrest
      · rw [numberLine_lineOn]
        by_cases hon : kind.isOn side = true
        · simp [hon, numberLine]
        · simp [hon, numberLine]
      · exact ih hrest

/-- The numbers of a hunk are consecutive on each side. -/
theorem numberLines_consecutive (body : List PatchLine) :
    (numberLines next body).filterMap (fun line => line.lineOn side) =
      List.range' (next side) (body.filterMap (PatchLine.textOn side)).length := by
  induction body generalizing next with
  | nil => rfl
  | cons line body ih =>
    cases line with
    | note text => simp [numberLines, ih, List.filterMap_cons, PatchLine.textOn]
    | line kind text =>
      by_cases hon : kind.isOn side = true
      · simp [numberLines, numberLine_lineOn, PatchLine.textOn, hon, ih, List.range'_succ]
      · simp [numberLines, numberLine_lineOn, PatchLine.textOn, hon, ih]

/-- A number counts the lines of its side before it. -/
theorem numberLines_text {body : List PatchLine} {line : DiffLine}
    (hline : line ∈ numberLines next body) {k : ℕ} (hk : line.lineOn side = some k) :
    next side ≤ k ∧
      (body.filterMap (PatchLine.textOn side))[k - next side]? = some line.text := by
  induction body generalizing next with
  | nil => cases hline
  | cons head body ih =>
    cases head with
    | note text => simpa [List.filterMap_cons, PatchLine.textOn] using ih hline
    | line kind text =>
      rcases List.mem_cons.mp hline with rfl | hrest
      · have hhere : kind.isOn side = true ∧ next side = k := by
          simpa [numberLine_lineOn] using hk
        obtain ⟨hon, rfl⟩ := hhere
        simp [PatchLine.textOn, hon, numberLine]
      · have hlater := ih hrest
        by_cases hon : kind.isOn side = true
        · simp only [hon, if_true] at hlater
          refine ⟨by omega, ?_⟩
          rw [show k - next side = k - (next side + 1) + 1 by omega]
          simpa [PatchLine.textOn, hon] using hlater.2
        · simpa [List.filterMap_cons, PatchLine.textOn, hon] using hlater

end Numbering

section Loop

theorem splitMarker_print (kind : LineKind) (text : Text) :
    splitMarker (PatchLine.print (.line kind text)) = some (kind, text) := by
  cases kind <;> rfl

theorem print_not_header (line : PatchLine) : "@@".toList.isPrefixOf line.print = false := by
  cases line with
  | note text => rfl
  | line kind text => cases kind <;> rfl

/-- The loop over a hunk's body numbers its lines. -/
theorem foldl_parseLine_body (body : List PatchLine) (diff : FileDiff) (hunk : Hunk)
    (next : Side → ℕ) :
    (body.map PatchLine.print).foldl parseLine ⟨diff, some hunk, next .new, next .old⟩ =
      ⟨{ diff with
          changedLines := diff.changedLines ∪ addedNumbers (numberLines next body) },
        some { hunk with lines := hunk.lines ++ numberLines next body },
        next .new + (body.filterMap (PatchLine.textOn .new)).length,
        next .old + (body.filterMap (PatchLine.textOn .old)).length⟩ := by
  induction body generalizing diff hunk next with
  | nil => simp [numberLines, addedNumbers]
  | cons line body ih =>
    rw [List.map_cons, List.foldl_cons]
    have hheader := print_not_header line
    cases line with
    | note text =>
      have hskip : parseLine ⟨diff, some hunk, next .new, next .old⟩
          (PatchLine.print (.note text)) = ⟨diff, some hunk, next .new, next .old⟩ := by
        simp [parseLine, PatchLine.print, splitMarker]
      rw [hskip, ih]
      simp [numberLines, List.filterMap_cons, PatchLine.textOn]
    | line kind text =>
      have hpush : parseLine ⟨diff, some hunk, next .new, next .old⟩
          (PatchLine.print (.line kind text)) =
          pushLine ⟨diff, some hunk, next .new, next .old⟩ hunk kind text := by
        simp only [parseLine, hheader, splitMarker_print]
        rfl
      have hlater := fun diff hunk =>
        ih diff hunk fun side => if kind.isOn side then next side + 1 else next side
      rw [hpush]
      cases kind <;>
      · refine (hlater _ _).trans ?_
        simp [numberLines, numberLine, addedNumbers, LineKind.isOn, PatchLine.textOn,
          Nat.add_assoc, Nat.add_comm 1, Finset.insert_union]

theorem mem_printRange {c : Char} {start count : ℕ} {omitted : Bool}
    (hc : c ∈ printRange start count omitted) : c.isDigit = true ∨ c = ',' := by
  unfold printRange at hc
  split_ifs at hc
  · exact .inl (isDigit_of_mem_decimal hc)
  · rcases List.mem_append.mp hc with hstart | hcount
    · exact .inl (isDigit_of_mem_decimal hstart)
    · rcases List.mem_cons.mp hcount with rfl | hcount
      · exact .inr rfl
      · exact .inl (isDigit_of_mem_decimal hcount)

theorem parseRange_printRange {start count : ℕ} (hstart : start < 2 ^ 64)
    (hcount : count < 2 ^ 64) (omitted : Bool) :
    parseRange (printRange start count omitted) = some (start, count) := by
  have hcomma : ∀ n, ',' ∉ decimal n := notMem_decimal rfl
  unfold parseRange printRange
  split_ifs with hone
  · obtain ⟨-, rfl⟩ : omitted = true ∧ count = 1 := by simpa using hone
    rw [splitOnce_of_notMem (hcomma start), parseU64_decimal hstart]
    rfl
  · rw [splitOnce_append (hcomma start)]
    simp only [parseU64_decimal hstart, parseU64_decimal hcount]

theorem isWhitespace_printRange {c sign : Char} (hsign : isWhitespace sign = false)
    {start count : ℕ} {omitted : Bool} (hc : c ∈ sign :: printRange start count omitted) :
    isWhitespace c = false := by
  rcases List.mem_cons.mp hc with rfl | hrange
  · exact hsign
  · rcases mem_printRange hrange with hdigit | rfl
    · exact isWhitespace_of_isDigit hdigit
    · rfl

/-- The two ranges of a header are its two words. -/
theorem splitWhitespace_ranges (h : PatchHunk) :
    splitWhitespace h.ranges =
      ['-' :: printRange h.oldStart (h.side .old).length h.omitOld,
        '+' :: printRange h.newStart (h.side .new).length h.omitNew] := by
  have hold : ∀ c ∈ '-' :: printRange h.oldStart (h.side .old).length h.omitOld,
      isWhitespace c = false := fun _ hc => isWhitespace_printRange rfl hc
  have hnew : ∀ c ∈ '+' :: printRange h.newStart (h.side .new).length h.omitNew,
      isWhitespace c = false := fun _ hc => isWhitespace_printRange rfl hc
  have hspace : isWhitespace ' ' = true := rfl
  have hfirst : ∀ rest, List.splitOnP isWhitespace (' ' :: rest) =
      [] :: List.splitOnP isWhitespace rest := by
    intro rest
    rw [List.splitOnP_cons_eq_if_modifyHead, if_pos hspace]
  have hshape : h.ranges =
      ' ' :: (('-' :: printRange h.oldStart (h.side .old).length h.omitOld) ++
        ' ' :: (('+' :: printRange h.newStart (h.side .new).length h.omitNew) ++ ' ' :: [])) := by
    simp [PatchHunk.ranges]
  unfold splitWhitespace
  rw [hshape, hfirst, List.splitOnP_append_cons_of_forall_mem hold ' ' hspace,
    List.splitOnP_append_cons_of_forall_mem hnew ' ' hspace]
  simp

theorem parseHunkHeader_header (h : PatchHunk) (hstart : ∀ side, h.start side < 2 ^ 64)
    (hcount : ∀ side, (h.side side).length < 2 ^ 64) :
    parseHunkHeader h.header = some { h.parsed with lines := [] } := by
  have hat : '@' ∉ h.ranges := by
    have hrange : ∀ start count omitted, '@' ∉ printRange start count omitted := by
      intro start count omitted hmem
      rcases mem_printRange hmem with hdigit | hcomma
      · simp at hdigit
      · cases hcomma
    simp [PatchHunk.ranges, hrange]
  have hfind : find "@@".toList (h.ranges ++ '@' :: '@' :: h.heading) = some h.ranges.length := by
    simpa using @find_append _ _ '@' ['@'] _ hat h.heading
  have hold : parseRange (printRange h.oldStart (h.side .old).length h.omitOld) =
      some (h.oldStart, (h.side .old).length) :=
    parseRange_printRange (hstart .old) (hcount .old) h.omitOld
  have hnew : parseRange (printRange h.newStart (h.side .new).length h.omitNew) =
      some (h.newStart, (h.side .new).length) :=
    parseRange_printRange (hstart .new) (hcount .new) h.omitNew
  unfold parseHunkHeader PatchHunk.header PatchHunk.headerLine
  simp only [hfind]
  rw [List.take_left, splitWhitespace_ranges]
  simp only [List.foldl_cons, List.foldl_nil, parseRangeToken, hold, hnew]
  simp [PatchHunk.parsed]

/-- A header flushes the hunk before it and starts its own. -/
theorem parseLine_header (s : ParseState) (h : PatchHunk)
    (hstart : ∀ side, h.start side < 2 ^ 64) (hcount : ∀ side, (h.side side).length < 2 ^ 64) :
    parseLine s h.header =
      ⟨s.flush, some { h.parsed with lines := [] }, h.start .new, h.start .old⟩ := by
  have hmark : "@@".toList.isPrefixOf h.header = true := rfl
  simp only [parseLine, hmark, parseHunkHeader_header h hstart hcount]
  rfl

def FileDiff.extend (diff : FileDiff) (hunks : List Hunk) : FileDiff :=
  { diff with
    hunks := diff.hunks ++ hunks
    changedLines := diff.changedLines ∪ addedNumbers (hunks.flatMap Hunk.lines) }

theorem addedNumbers_append (before after : List DiffLine) :
    addedNumbers (before ++ after) = addedNumbers before ∪ addedNumbers after := by
  simp [addedNumbers, List.filterMap_append, List.toFinset_append]

theorem foldl_parseLine_hunk (s : ParseState) (h : PatchHunk)
    (hstart : ∀ side, h.start side < 2 ^ 64) (hcount : ∀ side, (h.side side).length < 2 ^ 64) :
    (h.print.foldl parseLine s).flush = s.flush.extend [h.parsed] := by
  rw [PatchHunk.print, List.foldl_cons, parseLine_header s h hstart hcount, foldl_parseLine_body]
  simp [ParseState.flush, FileDiff.extend, PatchHunk.parsed]

/-- The loop over the hunks of a patch yields exactly these hunks. -/
theorem foldl_parseLine_hunks (hunks : List PatchHunk) (s : ParseState)
    (hstart : ∀ h ∈ hunks, ∀ side, h.start side < 2 ^ 64)
    (hcount : ∀ h ∈ hunks, ∀ side, (h.side side).length < 2 ^ 64) :
    ((hunks.flatMap PatchHunk.print).foldl parseLine s).flush =
      s.flush.extend (hunks.map PatchHunk.parsed) := by
  induction hunks generalizing s with
  | nil => simp [FileDiff.extend, addedNumbers]
  | cons h hunks ih =>
    have hhere := foldl_parseLine_hunk s h (hstart h List.mem_cons_self)
      (hcount h List.mem_cons_self)
    rw [List.flatMap_cons, List.foldl_append,
      ih _ (fun other hmem => hstart other (List.mem_cons_of_mem h hmem))
        (fun other hmem => hcount other (List.mem_cons_of_mem h hmem)), hhere]
    simp [FileDiff.extend, addedNumbers_append]

/-- Before the first header every line is passed over. -/
theorem foldl_parseLine_stanza {raws : List Text} {s : ParseState} (hnone : s.current = none)
    (hraws : ∀ raw ∈ raws, "@@".toList.isPrefixOf raw = false) : raws.foldl parseLine s = s := by
  induction raws with
  | nil => rfl
  | cons raw raws ih =>
    have hskip : parseLine s raw = s := by
      simp only [parseLine, hraws raw List.mem_cons_self, hnone]
      rfl
    rw [List.foldl_cons, hskip, ih fun other hmem => hraws other (List.mem_cons_of_mem raw hmem)]

end Loop

-- A carriage return before a line break belongs to the break, so a line of the patch
-- arrives without it; only the last line of the patch may arrive as it was written.

section Receive

def receiveBody (terminated : Bool) : List PatchLine → List PatchLine
  | [] => []
  | [last] => [if terminated then last.mapText chomp else last]
  | line :: body => line.mapText chomp :: receiveBody terminated body

def PatchHunk.receive (terminated : Bool) (h : PatchHunk) : PatchHunk :=
  { h with
    heading := if h.body = [] ∧ terminated = false then h.heading else chomp h.heading
    body := receiveBody terminated h.body }

def receiveHunks (terminated : Bool) : List PatchHunk → List PatchHunk
  | [] => []
  | [last] => [last.receive terminated]
  | h :: hunks => h.receive true :: receiveHunks terminated hunks

theorem receiveBody_true (body : List PatchLine) :
    receiveBody true body = body.map (PatchLine.mapText chomp) := by
  induction body with
  | nil => rfl
  | cons line body ih =>
    cases body with
    | nil => rfl
    | cons next body =>
      rw [receiveBody, ih, List.map_cons (a := line)]
      exact List.cons_ne_nil next body

theorem receiveBody_concat (before : List PatchLine) (last : PatchLine) :
    receiveBody false (before ++ [last]) = before.map (PatchLine.mapText chomp) ++ [last] := by
  induction before with
  | nil => rfl
  | cons line before ih =>
    rw [List.cons_append, List.map_cons, List.cons_append, ← ih]
    cases hcons : before ++ [last] with
    | nil => simp at hcons
    | cons _ _ => rfl

theorem textOn_mapText (f : Text → Text) (side : Side) (line : PatchLine) :
    (line.mapText f).textOn side = (line.textOn side).map f := by
  cases line with
  | note text => rfl
  | line kind text => by_cases hon : kind.isOn side = true <;> simp [PatchLine.mapText,
      PatchLine.textOn, hon]

theorem side_mapText (f : Text → Text) (side : Side) (body : List PatchLine) :
    (body.map (PatchLine.mapText f)).filterMap (PatchLine.textOn side) =
      (body.filterMap (PatchLine.textOn side)).map f := by
  simp [List.filterMap_map, List.map_filterMap, textOn_mapText]

theorem receive_side_length (terminated : Bool) (h : PatchHunk) (side : Side) :
    ((h.receive terminated).side side).length = (h.side side).length := by
  unfold PatchHunk.side PatchHunk.receive
  dsimp only
  cases terminated with
  | true => rw [receiveBody_true, side_mapText, List.length_map]
  | false =>
    rcases List.eq_nil_or_concat' h.body with hnil | ⟨before, last, hbody⟩
    · rw [hnil, receiveBody]
    · rw [hbody, receiveBody_concat, List.filterMap_append, side_mapText, List.filterMap_append]
      simp

theorem chomp_print (line : PatchLine) : chomp line.print = (line.mapText chomp).print := by
  have hmark : ∀ (mark : Char) (text : Text), mark ≠ '\r' →
      chomp (mark :: text) = mark :: chomp text := by
    intro mark text hne
    exact @chomp_append [mark] text (.inr (by simpa using hne))
  cases line with
  | note text => exact hmark '\\' text (by decide)
  | line kind text => cases kind <;> exact hmark _ text (by decide)

theorem receiveLines_body (terminated : Bool) (body : List PatchLine) :
    receiveLines terminated (body.map PatchLine.print) =
      (receiveBody terminated body).map PatchLine.print := by
  induction body with
  | nil => rfl
  | cons line body ih =>
    cases body with
    | nil => cases terminated <;> simp [receiveLines, receiveBody, chomp_print]
    | cons next body =>
      have hrest : receiveLines terminated ((line :: next :: body).map PatchLine.print) =
          chomp line.print :: receiveLines terminated ((next :: body).map PatchLine.print) := rfl
      rw [hrest, ih, chomp_print]
      rfl

theorem chomp_headerLine (ranges heading : Text) :
    chomp (PatchHunk.headerLine ranges heading) = PatchHunk.headerLine ranges (chomp heading) := by
  have hshape : ∀ heading, PatchHunk.headerLine ranges heading =
      ('@' :: '@' :: ranges ++ ['@'] ++ ['@']) ++ heading := by
    intro heading
    simp [PatchHunk.headerLine]
  have hlast : ('@' :: '@' :: ranges ++ ['@'] ++ ['@']).getLast? ≠ some '\r' := by
    rw [List.getLast?_concat]
    decide
  rw [hshape, chomp_append (.inr hlast), ← hshape]

theorem receive_header (terminated : Bool) (h : PatchHunk) :
    (h.receive terminated).header =
      PatchHunk.headerLine h.ranges (h.receive terminated).heading := by
  have hsides := fun side => receive_side_length terminated h side
  simp only [PatchHunk.header, PatchHunk.ranges, hsides]
  rfl

theorem receiveLines_print (terminated : Bool) (h : PatchHunk) :
    receiveLines terminated h.print = (h.receive terminated).print := by
  rw [PatchHunk.print, PatchHunk.print, receive_header]
  cases hbody : h.body with
  | nil =>
    cases terminated with
    | true => simp [receiveLines, PatchHunk.receive, hbody, receiveBody, PatchHunk.header,
        chomp_headerLine]
    | false => simp [receiveLines, PatchHunk.receive, hbody, receiveBody, PatchHunk.header]
  | cons line body =>
    have hfirst : receiveLines terminated (h.header :: (line :: body).map PatchLine.print) =
        chomp h.header :: receiveLines terminated ((line :: body).map PatchLine.print) := rfl
    rw [hfirst, receiveLines_body, PatchHunk.header, chomp_headerLine]
    simp [PatchHunk.receive, hbody]

theorem receiveLines_hunks (terminated : Bool) (hunks : List PatchHunk) :
    receiveLines terminated (hunks.flatMap PatchHunk.print) =
      (receiveHunks terminated hunks).flatMap PatchHunk.print := by
  induction hunks with
  | nil => rfl
  | cons h hunks ih =>
    cases hunks with
    | nil => simp [receiveHunks, receiveLines_print]
    | cons next hunks =>
      have hrest : (next :: hunks).flatMap PatchHunk.print ≠ [] := by
        simp [PatchHunk.print]
      rw [List.flatMap_cons, receiveLines_append _ _ hrest, ih, ← receiveLines_true,
        receiveLines_print]
      rfl

end Receive

section Parse

variable {revision : Side → Revision}

namespace PatchHunk.Between

variable {h : PatchHunk} (hbetween : h.Between revision)

include hbetween

/-- A line of a hunk is a line of each revision it is on. -/
theorem mem_lines {kind : LineKind} {text : Text} (hline : .line kind text ∈ h.body) {side : Side}
    (hon : kind.isOn side = true) : text ∈ (revision side).lines := by
  have hmem : text ∈ h.side side :=
    List.mem_filterMap.mpr ⟨_, hline, by simp [PatchLine.textOn, hon]⟩
  exact List.mem_of_mem_drop ((hbetween.side side).subset hmem)

theorem newlineFree {line : PatchLine} (hline : line ∈ h.body) : '\n' ∉ line.print := by
  cases line with
  | note text => simpa [PatchLine.print] using hbetween.notes text hline
  | line kind text =>
    have htext : '\n' ∉ text := by
      cases kind with
      | removed =>
        have hside : LineKind.removed.isOn .old = true := rfl
        exact (revision .old).newlineFree text (hbetween.mem_lines hline hside)
      | added =>
        have hside : LineKind.added.isOn .new = true := rfl
        exact (revision .new).newlineFree text (hbetween.mem_lines hline hside)
      | context =>
        have hside : LineKind.context.isOn .new = true := rfl
        exact (revision .new).newlineFree text (hbetween.mem_lines hline hside)
    cases kind <;> simpa [PatchLine.print, LineKind.marker] using htext

theorem header_newlineFree : '\n' ∉ h.header := by
  have hrange : ∀ start count omitted, '\n' ∉ printRange start count omitted := by
    intro start count omitted hmem
    rcases mem_printRange hmem with hdigit | hcomma
    · simp at hdigit
    · cases hcomma
  simp [PatchHunk.header, PatchHunk.headerLine, PatchHunk.ranges, hrange, hbetween.heading]

theorem side_length_le (side : Side) : (h.side side).length ≤ (revision side).lines.length := by
  have hlength := (hbetween.side side).length_le
  rw [List.length_drop] at hlength
  omega

end PatchHunk.Between

theorem mem_receiveHunks {terminated : Bool} {hunks : List PatchHunk} {received : PatchHunk}
    (hmem : received ∈ receiveHunks terminated hunks) :
    ∃ h ∈ hunks, ∃ broken, received = h.receive broken := by
  induction hunks with
  | nil => cases hmem
  | cons h hunks ih =>
    cases hunks with
    | nil => exact ⟨h, List.mem_cons_self, terminated, List.mem_singleton.mp hmem⟩
    | cons next hunks =>
      rcases List.mem_cons.mp hmem with rfl | hrest
      · exact ⟨h, List.mem_cons_self, true, rfl⟩
      · obtain ⟨other, hother, broken, heq⟩ := ih hrest
        exact ⟨other, List.mem_cons_of_mem h hother, broken, heq⟩

theorem chomp_not_header {raw : Text} (hraw : "@@".toList.isPrefixOf raw = false) :
    "@@".toList.isPrefixOf (chomp raw) = false := by
  by_contra hmark
  rw [Bool.not_eq_false, List.isPrefixOf_iff_prefix] at hmark
  have hshort : chomp raw <+: raw := by
    unfold chomp
    split_ifs
    · exact List.dropLast_prefix raw
    · exact List.prefix_refl raw
  rw [List.isPrefixOf_iff_prefix.mpr (hmark.trans hshort)] at hraw
  cases hraw

theorem UnifiedDiff.print_newlineFree (d : UnifiedDiff revision) :
    ∀ line ∈ d.stanza ++ d.hunks.flatMap PatchHunk.print, '\n' ∉ line := by
  intro line hmem
  rcases List.mem_append.mp hmem with hstanza | hhunks
  · exact (d.stanza_plain line hstanza).1
  · obtain ⟨h, hh, hline⟩ := List.mem_flatMap.mp hhunks
    rcases List.mem_cons.mp hline with rfl | hbody
    · exact (d.between h hh).header_newlineFree
    · obtain ⟨body, hin, rfl⟩ := List.mem_map.mp hbody
      exact (d.between h hh).newlineFree hin

/-- The lines of a printed diff: each may have lost a carriage return. -/
theorem UnifiedDiff.lines_print (d : UnifiedDiff revision) (hne : d.hunks ≠ []) :
    lines d.print =
      d.stanza.map chomp ++ (receiveHunks d.terminated d.hunks).flatMap PatchHunk.print := by
  have hhunks : d.hunks.flatMap PatchHunk.print ≠ [] := by
    simpa [PatchHunk.print] using List.exists_mem_of_ne_nil _ hne
  have hlast : (d.stanza ++ d.hunks.flatMap PatchHunk.print).getLast? ≠ some [] := by
    rw [List.getLast?_append_of_ne_nil _ hhunks]
    intro hempty
    obtain ⟨h, -, hline⟩ := List.mem_flatMap.mp (List.mem_of_getLast? hempty)
    rcases List.mem_cons.mp hline with hheader | hbody
    · cases hheader
    · obtain ⟨line, -, hprint⟩ := List.mem_map.mp hbody
      cases line <;> cases hprint
  rw [UnifiedDiff.print, lines_joinLines _ d.print_newlineFree hlast,
    receiveLines_append _ _ hhunks, receiveLines_hunks]

/-- A diff without hunks has only the lines in front of them. -/
theorem UnifiedDiff.mem_lines_print (d : UnifiedDiff revision) (hnone : d.hunks = []) {raw : Text}
    (hraw : raw ∈ lines d.print) : ∃ line ∈ d.stanza, raw = line ∨ raw = chomp line := by
  obtain ⟨line, hline, heq⟩ := mem_lines_joinLines d.print_newlineFree hraw
  exact ⟨line, by simpa [hnone] using hline, heq⟩

/-- Parsing a well-formed diff yields its hunks as they arrive, and nothing else. -/
theorem parseFilePatch_print (path : Text) (d : UnifiedDiff revision) :
    parseFilePatch path d.print =
      FileDiff.extend { path } ((receiveHunks d.terminated d.hunks).map PatchHunk.parsed) := by
  have hstanza : ∀ raw ∈ d.stanza.map chomp, "@@".toList.isPrefixOf raw = false := by
    intro raw hmem
    obtain ⟨line, hline, rfl⟩ := List.mem_map.mp hmem
    exact chomp_not_header (d.stanza_plain line hline).2
  unfold parseFilePatch
  by_cases hnone : d.hunks = []
  · have hskip : ∀ raw ∈ lines d.print, "@@".toList.isPrefixOf raw = false := by
      intro raw hraw
      obtain ⟨line, hline, heq⟩ := d.mem_lines_print hnone hraw
      have hplainLine := (d.stanza_plain line hline).2
      rcases heq with rfl | rfl
      · exact hplainLine
      · exact chomp_not_header hplainLine
    rw [foldl_parseLine_stanza rfl hskip]
    simp [hnone, receiveHunks, FileDiff.extend, ParseState.flush, addedNumbers]
  · rw [d.lines_print hnone, List.foldl_append, foldl_parseLine_stanza rfl hstanza,
      foldl_parseLine_hunks]
    · rfl
    · intro received hmem side
      obtain ⟨h, hh, broken, rfl⟩ := mem_receiveHunks hmem
      have hstart : (h.receive broken).start side = h.start side := by cases side <;> rfl
      have hle := (d.between h hh).start_le side
      have hfits := (revision side).fits
      omega
    · intro received hmem side
      obtain ⟨h, hh, broken, rfl⟩ := mem_receiveHunks hmem
      have hle := (d.between h hh).side_length_le side
      have hfits := (revision side).fits
      rw [receive_side_length]
      omega

/-- Only the last hunk of a patch may end without a line break. -/
def UnifiedDiff.breaks (d : UnifiedDiff revision) (i : ℕ) : Bool :=
  i + 1 < d.hunks.length || d.terminated

theorem getElem?_receiveHunks (terminated : Bool) (hunks : List PatchHunk) (i : ℕ) :
    (receiveHunks terminated hunks)[i]? =
      hunks[i]?.map (PatchHunk.receive (decide (i + 1 < hunks.length) || terminated)) := by
  induction hunks generalizing i with
  | nil => simp [receiveHunks]
  | cons h hunks ih =>
    cases hunks with
    | nil => cases i <;> simp [receiveHunks]
    | cons next hunks =>
      have hcons : receiveHunks terminated (h :: next :: hunks) =
          h.receive true :: receiveHunks terminated (next :: hunks) := rfl
      rw [hcons]
      cases i with
      | zero => simp
      | succ i => simp [ih]

theorem length_receiveHunks (terminated : Bool) (hunks : List PatchHunk) :
    (receiveHunks terminated hunks).length = hunks.length := by
  induction hunks with
  | nil => rfl
  | cons h hunks ih =>
    cases hunks with
    | nil => rfl
    | cons next hunks => simpa [receiveHunks] using ih

/-- The parsed hunk is the printed one: nothing dropped, every line numbered on the sides
it is on, in order, with the text that stands there. A carriage return at the end of a line
is taken for part of the line break after it. -/
structure Recovers (revision : Side → Revision) (broken : Bool) (h : PatchHunk) (hunk : Hunk) :
    Prop where
  starts : ∀ side, h.start side = match side with | .new => hunk.newStart | .old => hunk.oldStart
  counts : ∀ side, (h.side side).length =
    match side with | .new => hunk.newLines | .old => hunk.oldLines
  kinds : hunk.lines.map DiffLine.kind = h.body.filterMap PatchLine.kind?
  numbers : ∀ side, hunk.lines.filterMap (fun line => line.lineOn side) =
    List.range' (h.start side) (h.side side).length
  sides : ∀ line ∈ hunk.lines, ∀ side, (line.lineOn side).isSome = line.kind.isOn side
  texts : ∀ line ∈ hunk.lines, ∀ side k, line.lineOn side = some k → 1 ≤ k ∧
    ∃ text, (revision side).lines[k - 1]? = some text ∧ (line.text = chomp text ∨
      broken = false ∧ hunk.lines.getLast? = some line ∧ line.text = text)

theorem numberLines_kinds (next : Side → ℕ) (body : List PatchLine) :
    (numberLines next body).map DiffLine.kind = body.filterMap PatchLine.kind? := by
  induction body generalizing next with
  | nil => rfl
  | cons line body ih =>
    cases line with
    | note text => simpa [numberLines, List.filterMap_cons, PatchLine.kind?] using ih next
    | line kind text => simp [numberLines, numberLine, PatchLine.kind?, ih]

theorem receiveBody_kinds (terminated : Bool) (body : List PatchLine) :
    (receiveBody terminated body).filterMap PatchLine.kind? = body.filterMap PatchLine.kind? := by
  have hkind : ∀ line : PatchLine, (line.mapText chomp).kind? = line.kind? := by
    intro line
    cases line <;> rfl
  have hall : ∀ lines : List PatchLine, (lines.map (PatchLine.mapText chomp)).filterMap
      PatchLine.kind? = lines.filterMap PatchLine.kind? := by
    intro lines
    simp [List.filterMap_map, hkind]
  cases terminated with
  | true => rw [receiveBody_true, hall]
  | false =>
    rcases List.eq_nil_or_concat' body with rfl | ⟨before, last, rfl⟩
    · rfl
    · rw [receiveBody_concat, List.filterMap_append, List.filterMap_append, hall]

/-- Where a received line's text comes from. -/
theorem numberLines_received {next : Side → ℕ} {terminated : Bool} {body : List PatchLine}
    {line : DiffLine} (hline : line ∈ numberLines next (receiveBody terminated body))
    {side : Side} {k : ℕ} (hk : line.lineOn side = some k) :
    next side ≤ k ∧ ∃ text,
      (body.filterMap (PatchLine.textOn side))[k - next side]? = some text ∧
      (line.text = chomp text ∨ terminated = false ∧
        (numberLines next (receiveBody terminated body)).getLast? = some line ∧
        line.text = text) := by
  obtain ⟨hle, htext⟩ := numberLines_text hline hk
  refine ⟨hle, ?_⟩
  cases terminated with
  | true =>
    rw [receiveBody_true, side_mapText, List.getElem?_map] at htext
    obtain ⟨text, hin, hchomp⟩ := Option.map_eq_some_iff.mp htext
    exact ⟨text, hin, .inl hchomp.symm⟩
  | false =>
    rcases List.eq_nil_or_concat' body with rfl | ⟨before, last, rfl⟩
    · cases hline
    · rw [receiveBody_concat, numberLines_append] at hline ⊢
      rw [List.filterMap_append]
      rcases List.mem_append.mp hline with hbefore | hlast
      · obtain ⟨-, hin⟩ := numberLines_text hbefore hk
        rw [side_mapText, List.getElem?_map] at hin
        obtain ⟨text, hat, hchomp⟩ := Option.map_eq_some_iff.mp hin
        obtain ⟨hshort, -⟩ := List.getElem?_eq_some_iff.mp hat
        exact ⟨text, by rw [List.getElem?_append_left hshort, hat], .inl hchomp.symm⟩
      · cases last with
        | note text => cases hlast
        | line kind text =>
          have heq := List.mem_singleton.mp hlast
          rw [heq, numberLine_lineOn] at hk
          split_ifs at hk with hon
          rw [side_mapText, List.length_map] at hk
          refine ⟨text, ?_, .inr ⟨rfl, ?_, by rw [heq]; rfl⟩⟩
          · rw [← Option.some.inj hk, List.getElem?_append_right (by omega)]
            simp [PatchLine.textOn, hon]
          · simp [numberLines, heq]

theorem PatchHunk.Between.recovers {h : PatchHunk} (hbetween : h.Between revision)
    (broken : Bool) : Recovers revision broken h (h.receive broken).parsed := by
  have hlength := receive_side_length broken h
  constructor
  · intro side
    cases side <;> rfl
  · intro side
    cases side
    · exact (hlength .new).symm
    · exact (hlength .old).symm
  · exact (numberLines_kinds _ _).trans (receiveBody_kinds broken h.body)
  · intro side
    have hnumbers := @numberLines_consecutive (h.receive broken).start side (h.receive broken).body
    rw [← PatchHunk.side, hlength] at hnumbers
    cases side <;> exact hnumbers
  · intro line hline side
    exact numberLines_lineOn hline
  · intro line hline side k hk
    have hstart : (h.receive broken).start side = h.start side := by cases side <;> rfl
    obtain ⟨hle, text, hin, hread⟩ := numberLines_received hline hk
    rw [hstart] at hle hin
    have hne : h.side side ≠ [] := by
      intro hnil
      rw [← PatchHunk.side, hnil] at hin
      simp at hin
    have hpos := hbetween.start_pos side hne
    refine ⟨by omega, text, ?_, hread⟩
    obtain ⟨hshort, hget⟩ := List.getElem?_eq_some_iff.mp hin
    have hcopy := List.prefix_iff_getElem?.mp (hbetween.side side) _ hshort
    rw [List.getElem?_drop, show h.start side - 1 + (k - h.start side) = k - 1 by omega] at hcopy
    rw [hcopy]
    exact congrArg some hget

theorem mem_changedLines {path : Text} {hunks : List Hunk} {n : ℕ} :
    n ∈ (FileDiff.extend { path } hunks).changedLines ↔
      ∃ hunk ∈ hunks, ∃ line ∈ hunk.lines, line.kind = .added ∧ line.newLine = some n := by
  simp only [FileDiff.extend, addedNumbers, Finset.empty_union, List.mem_toFinset,
    List.mem_filterMap, List.mem_flatMap, Option.ite_none_right_eq_some]
  constructor
  · rintro ⟨line, ⟨hunk, hhunk, hline⟩, hadded⟩
    exact ⟨hunk, hhunk, line, hline, hadded⟩
  · rintro ⟨hunk, hhunk, line, hline, hadded⟩
    exact ⟨line, ⟨hunk, hhunk, hline⟩, hadded⟩

/-- A numbered head line of a hunk is one a comment can sit on. -/
theorem Recovers.withinHunk {broken : Bool} {h : PatchHunk} {hunk : Hunk}
    (hrecovers : Recovers revision broken h hunk) {diff : FileDiff} (hhunk : hunk ∈ diff.hunks)
    {line : DiffLine} (hline : line ∈ hunk.lines) {n : ℕ} (hn : line.newLine = some n) :
    diff.withinHunk n n = true := by
  have hmem : n ∈ hunk.lines.filterMap fun line => line.lineOn .new :=
    List.mem_filterMap.mpr ⟨line, hline, hn⟩
  rw [hrecovers.numbers, List.mem_range'_1] at hmem
  have hstart := hrecovers.starts .new
  have hcount := hrecovers.counts .new
  dsimp only at hstart hcount
  unfold FileDiff.withinHunk
  rw [if_pos le_rfl]
  refine List.any_eq_true.mpr ⟨hunk, hhunk, ?_⟩
  rw [if_neg (by omega)]
  simp only [Bool.and_eq_true, decide_eq_true_eq]
  omega

/-- Parsing a well-formed diff recovers both revisions, hunk by hunk. -/
theorem parseFilePatch_recovers (path : Text) (d : UnifiedDiff revision) :
    let diff := parseFilePatch path d.print
    diff.path = path ∧ diff.hunks.length = d.hunks.length ∧
      (∀ i h hunk, d.hunks[i]? = some h → diff.hunks[i]? = some hunk →
        Recovers revision (d.breaks i) h hunk) ∧
      (∀ n, n ∈ diff.changedLines ↔
        ∃ hunk ∈ diff.hunks, ∃ line ∈ hunk.lines, line.kind = .added ∧ line.newLine = some n) ∧
      ∀ n ∈ diff.changedLines, diff.withinHunk n n = true := by
  intro diff
  have hdiff : diff = FileDiff.extend { path }
      ((receiveHunks d.terminated d.hunks).map PatchHunk.parsed) := parseFilePatch_print path d
  have hhunks : diff.hunks = (receiveHunks d.terminated d.hunks).map PatchHunk.parsed := by
    rw [hdiff]
    rfl
  have hrecovers : ∀ i h hunk, d.hunks[i]? = some h → diff.hunks[i]? = some hunk →
      Recovers revision (d.breaks i) h hunk := by
    intro i h hunk hh hhunk
    rw [hhunks, List.getElem?_map, getElem?_receiveHunks, hh] at hhunk
    rw [← Option.some.inj hhunk]
    exact (d.between h (List.mem_of_getElem? hh)).recovers _
  have hchanged : ∀ n, n ∈ diff.changedLines ↔ ∃ hunk ∈ diff.hunks, ∃ line ∈ hunk.lines,
      line.kind = .added ∧ line.newLine = some n := by
    intro n
    rw [hhunks, hdiff]
    exact mem_changedLines
  refine ⟨?_, ?_, hrecovers, hchanged, ?_⟩
  · rw [hdiff]
    rfl
  · rw [hhunks, List.length_map, length_receiveHunks]
  · intro n hn
    obtain ⟨hunk, hhunk, line, hline, -, hnumber⟩ := (hchanged n).mp hn
    obtain ⟨i, hi⟩ := List.getElem?_of_mem hhunk
    have hlong : i < d.hunks.length := by
      have := (List.getElem?_eq_some_iff.mp hi).1
      rw [hhunks, List.length_map, length_receiveHunks] at this
      exact this
    exact (hrecovers i _ hunk (List.getElem?_eq_getElem hlong) hi).withinHunk hhunk hline hnumber

/-- A file that gains one line ending in a carriage return. -/
def carriageReturn : Side → Revision
  | .old => ⟨[], by simp, by simp⟩
  | .new => ⟨["x\r".toList], by simp, by simp⟩

def carriageReturnDiff : UnifiedDiff carriageReturn where
  stanza := []
  hunks := [⟨0, 1, false, false, [], [.line .added "x\r".toList]⟩]
  terminated := true
  stanza_plain := plain_nil
  between := by
    intro h hh
    rw [List.mem_singleton.mp hh]
    constructor
    · intro side
      cases side <;> decide
    · intro side
      cases side <;> decide
    · intro side
      cases side <;> decide
    · decide
    · simp

theorem parseFilePatch_recovers_carriage_return :
    ∃ hunk ∈ (parseFilePatch [] carriageReturnDiff.print).hunks, ∃ line ∈ hunk.lines,
      line.newLine = some 1 ∧ (carriageReturn .new).lines[1 - 1]? ≠ some line.text := by
  rw [parseFilePatch_print]
  decide

end Parse

end TinySweeper.Evidence
