import TinySweeper.Evidence.Patch
import TinySweeper.PrTriage.Landed

/-!
# The hunks of a well-formed diff

Reading a printed diff gives one pair of images for each of its hunks, the text
of the hunk on either side up to white space at the ends of lines.
-/

namespace TinySweeper.PrTriage

open Text Evidence

namespace Hunk

def read (hunk : Hunk) : PatchLine → Hunk
  | .line .added text => hunk.add text
  | .line .removed text => hunk.remove text
  | .line .context text => hunk.context text
  | .note _ => hunk

/-- What reading a hunk gives. -/
def ofPatch (h : PatchHunk) : Hunk := h.body.foldl read { start := h.newStart }

end Hunk

/-- A line that is on both sides, or on none. -/
def unchanged (line : PatchLine) : Bool := line.kind? = some .context || line.kind? = none

/-- A context line with text in it. -/
def substantive (line : PatchLine) : Bool :=
  match line with
  | .line .context text => !(normalise text).isEmpty
  | _ => false

theorem normalise_chomp (text : Text) : normalise (chomp text) = normalise text := by
  unfold chomp
  split_ifs with hlast
  · obtain ⟨init, rfl⟩ := List.getLast?_eq_some_iff.mp hlast
    rw [List.dropLast_concat]
    exact (trimEnd_concat (by decide) init).symm
  · rfl

section Read

variable (hunk : Hunk) (line : PatchLine)

theorem context_eq (text : Text) : hunk.context text =
    { hunk with
      before := hunk.before ++ [normalise text]
      after := hunk.after ++ [normalise text]
      anchors := hunk.anchors + if normalise text = [] then 0 else 1
      leading := hunk.leading + if normalise text = [] ∨ hunk.changed ≠ 0 then 0 else 1
      trailing := hunk.trailing + if normalise text = [] ∨ hunk.changed = 0 then 0 else 1 } := by
  unfold Hunk.context
  by_cases hblank : normalise text = []
  · simp [hblank]
  · by_cases hchanged : hunk.changed = 0 <;> simp [hblank, hchanged]

theorem read_before : (hunk.read line).before =
    hunk.before ++ ((line.textOn .old).map normalise).toList := by
  rcases line with ⟨_ | _ | _, text⟩ | text
  · rw [Hunk.read, context_eq]
    rfl
  all_goals simp [Hunk.read, Hunk.add, Hunk.remove, PatchLine.textOn, LineKind.isOn]

theorem read_after : (hunk.read line).after =
    hunk.after ++ ((line.textOn .new).map normalise).toList := by
  rcases line with ⟨_ | _ | _, text⟩ | text
  · rw [Hunk.read, context_eq]
    rfl
  all_goals simp [Hunk.read, Hunk.add, Hunk.remove, PatchLine.textOn, LineKind.isOn]

theorem read_changed :
    (hunk.read line).changed = hunk.changed + if unchanged line then 0 else 1 := by
  rcases line with ⟨_ | _ | _, text⟩ | text
  · rw [Hunk.read, context_eq]
    rfl
  all_goals rfl

theorem read_anchors :
    (hunk.read line).anchors = hunk.anchors + if substantive line then 1 else 0 := by
  rcases line with ⟨_ | _ | _, text⟩ | text
  · rw [Hunk.read, context_eq]
    by_cases hblank : normalise text = [] <;> simp [substantive, hblank]
  all_goals rfl

theorem read_leading : (hunk.read line).leading =
    hunk.leading + if substantive line ∧ hunk.changed = 0 then 1 else 0 := by
  rcases line with ⟨_ | _ | _, text⟩ | text
  · rw [Hunk.read, context_eq]
    by_cases hblank : normalise text = [] <;> by_cases hchanged : hunk.changed = 0 <;>
      simp [substantive, hblank, hchanged]
  all_goals rfl

/-- A changed line starts the count of the context after it anew. -/
theorem read_trailing : (hunk.read line).trailing =
    if unchanged line then
      hunk.trailing + if substantive line ∧ hunk.changed ≠ 0 then 1 else 0
    else 0 := by
  rcases line with ⟨_ | _ | _, text⟩ | text
  · rw [Hunk.read, context_eq]
    by_cases hblank : normalise text = [] <;> by_cases hchanged : hunk.changed = 0 <;>
      simp [substantive, unchanged, PatchLine.kind?, hblank, hchanged]
  all_goals rfl

/-- Removed lines and leading context are lines of the before image. -/
theorem read_within (h : hunk.removes + hunk.leading ≤ hunk.before.length) :
    (hunk.read line).removes + (hunk.read line).leading ≤ (hunk.read line).before.length := by
  rcases line with ⟨_ | _ | _, text⟩ | text
  · rw [Hunk.read, context_eq]
    dsimp only
    rw [List.length_append, List.length_singleton]
    split_ifs <;> omega
  · exact h
  · simp only [Hunk.read, Hunk.remove, List.length_append, List.length_singleton]
    omega
  · exact h

end Read

section Body

variable (hunk : Hunk) (body : List PatchLine)

theorem foldl_read_before : (body.foldl Hunk.read hunk).before =
    hunk.before ++ (body.filterMap (PatchLine.textOn .old)).map normalise := by
  induction body generalizing hunk with
  | nil => simp
  | cons line body ih =>
    rw [List.foldl_cons, ih, read_before, List.filterMap_cons]
    cases line.textOn .old <;> simp

theorem foldl_read_after : (body.foldl Hunk.read hunk).after =
    hunk.after ++ (body.filterMap (PatchLine.textOn .new)).map normalise := by
  induction body generalizing hunk with
  | nil => simp
  | cons line body ih =>
    rw [List.foldl_cons, ih, read_after, List.filterMap_cons]
    cases line.textOn .new <;> simp

theorem foldl_read_changed : (body.foldl Hunk.read hunk).changed =
    hunk.changed + body.countP fun line => !unchanged line := by
  induction body generalizing hunk with
  | nil => rfl
  | cons line body ih =>
    rw [List.foldl_cons, ih, read_changed, List.countP_cons]
    cases unchanged line <;> simp
    omega

theorem foldl_read_within (h : hunk.removes + hunk.leading ≤ hunk.before.length) :
    (body.foldl Hunk.read hunk).removes + (body.foldl Hunk.read hunk).leading ≤
      (body.foldl Hunk.read hunk).before.length := by
  induction body generalizing hunk with
  | nil => exact h
  | cons line body ih => exact ih _ (read_within hunk line h)

theorem foldl_read_anchors : (body.foldl Hunk.read hunk).anchors =
    hunk.anchors + body.countP substantive := by
  induction body generalizing hunk with
  | nil => rfl
  | cons line body ih =>
    rw [List.foldl_cons, ih, read_anchors, List.countP_cons]
    omega

/-- Once a line has changed, no context is leading. -/
theorem foldl_read_leading_of_changed (h : hunk.changed ≠ 0) :
    (body.foldl Hunk.read hunk).leading = hunk.leading := by
  induction body generalizing hunk with
  | nil => rfl
  | cons line body ih =>
    rw [List.foldl_cons, ih _ (by rw [read_changed]; omega), read_leading, if_neg (by simp [h])]
    rfl

theorem foldl_read_leading (h : hunk.changed = 0) : (body.foldl Hunk.read hunk).leading =
    hunk.leading + (body.takeWhile unchanged).countP substantive := by
  induction body generalizing hunk with
  | nil => rfl
  | cons line body ih =>
    rw [List.foldl_cons]
    cases hline : unchanged line with
    | true =>
      rw [ih _ (by rw [read_changed, h, hline]; rfl), read_leading, List.takeWhile_cons_of_pos hline,
        List.countP_cons]
      simp only [h, and_true]
      omega
    | false =>
      have hchanged : (hunk.read line).changed ≠ 0 := by
        rw [read_changed, hline]
        simp
      have hplain : substantive line = false := by
        rcases line with ⟨_ | _ | _, text⟩ | text <;> first | rfl | cases hline
      rw [foldl_read_leading_of_changed _ _ hchanged, read_leading,
        List.takeWhile_cons_of_neg (by simp [hline]), hplain]
      rfl

theorem countP_changed_eq_zero_iff :
    (body.countP fun line => !unchanged line) = 0 ↔ body.all unchanged = true := by
  simp [List.countP_eq_zero]

/-- The context after the last changed line. -/
theorem foldl_read_trailing (h : hunk.changed = 0) (htrailing : hunk.trailing = 0) :
    (body.foldl Hunk.read hunk).trailing =
      if body.all unchanged then 0 else (body.rtakeWhile unchanged).countP substantive := by
  induction body using List.reverseRecOn with
  | nil => exact htrailing
  | append_singleton body line ih =>
    rw [List.foldl_append, List.foldl_cons, List.foldl_nil, read_trailing, foldl_read_changed, h,
      ih, Nat.zero_add]
    have hzero := countP_changed_eq_zero_iff body
    cases hline : unchanged line with
    | false => simp [hline]
    | true =>
      rw [List.rtakeWhile_concat_pos _ _ _ hline, List.countP_append, List.countP_singleton]
      by_cases hall : body.all unchanged = true
      · simp [hzero.mpr hall, hall, hline]
      · simp [mt hzero.mp hall, hall, hline]

end Body

namespace Hunk

variable (h : PatchHunk)

theorem ofPatch_before : (ofPatch h).before = (h.side .old).map normalise :=
  foldl_read_before { start := h.newStart } h.body

theorem ofPatch_after : (ofPatch h).after = (h.side .new).map normalise :=
  foldl_read_after { start := h.newStart } h.body

theorem ofPatch_changed : (ofPatch h).changed = h.body.countP fun line => !unchanged line :=
  (foldl_read_changed { start := h.newStart } h.body).trans (Nat.zero_add _)

theorem ofPatch_within :
    (ofPatch h).removes + (ofPatch h).leading ≤ (ofPatch h).before.length :=
  foldl_read_within { start := h.newStart } h.body le_rfl

theorem ofPatch_anchors : (ofPatch h).anchors = h.body.countP substantive :=
  (foldl_read_anchors { start := h.newStart } h.body).trans (Nat.zero_add _)

theorem ofPatch_leading :
    (ofPatch h).leading = (h.body.takeWhile unchanged).countP substantive :=
  (foldl_read_leading { start := h.newStart } h.body rfl).trans (Nat.zero_add _)

theorem ofPatch_trailing (hchanges : h.body.all unchanged = false) :
    (ofPatch h).trailing = (h.body.rtakeWhile unchanged).countP substantive := by
  have htrailing := foldl_read_trailing { start := h.newStart } h.body rfl rfl
  rw [hchanges] at htrailing
  exact htrailing

end Hunk

section Diff

variable {revision : Side → Revision}

/-- A line in front of the hunks that no differ would mistake for a changed line. -/
def IsHeading (raw : Text) : Prop :=
  (raw.head? = some '+' → "+++".toList.isPrefixOf raw) ∧
    (raw.head? = some '-' → "---".toList.isPrefixOf raw)

theorem line_print (r : Reader) (h : r.inHunk = true) (line : PatchLine) :
    r.line line.print = { r with current := r.current.read line } := by
  rcases line with ⟨_ | _ | _, text⟩ | text
  · rfl
  · simp [Reader.line, PatchLine.print, LineKind.marker, h, Hunk.read]
  · simp [Reader.line, PatchLine.print, LineKind.marker, h, Hunk.read]
  · rfl

theorem foldl_line_body (r : Reader) (h : r.inHunk = true) (body : List PatchLine) :
    (body.map PatchLine.print).foldl Reader.line r =
      { r with current := body.foldl Hunk.read r.current } := by
  induction body generalizing r with
  | nil => rfl
  | cons line body ih =>
    rw [List.map_cons, List.foldl_cons, line_print r h]
    exact ih { r with current := r.current.read line } h

theorem head?_splitOn_printRange (start count : ℕ) (omitted : Bool) :
    ((printRange start count omitted).splitOn ',').head? = some (decimal start) := by
  have hcomma : ',' ∉ decimal start := notMem_decimal rfl start
  unfold printRange
  split_ifs
  · rw [List.splitOn_eq_singleton hcomma]
    rfl
  · rw [List.splitOn_append_cons_self_of_not_mem hcomma]
    rfl

theorem newSideStart_header (h : PatchHunk) (hstart : h.newStart < 2 ^ 64) :
    newSideStart h.header = h.newStart := by
  have hmark : ∀ c ∈ "@@".toList, isWhitespace c = false := by decide
  have hold : ∀ c ∈ '-' :: printRange h.oldStart (h.side .old).length h.omitOld,
      isWhitespace c = false := fun _ hc => isWhitespace_printRange rfl hc
  have hnew : ∀ c ∈ '+' :: printRange h.newStart (h.side .new).length h.omitNew,
      isWhitespace c = false := fun _ hc => isWhitespace_printRange rfl hc
  have hspace : isWhitespace ' ' = true := rfl
  have hshape : h.header = "@@".toList ++
      ' ' :: (('-' :: printRange h.oldStart (h.side .old).length h.omitOld) ++
        ' ' :: (('+' :: printRange h.newStart (h.side .new).length h.omitNew) ++
          ' ' :: ("@@".toList ++ h.heading))) := by
    simp [PatchHunk.header, PatchHunk.headerLine, PatchHunk.ranges]
  have hwords : ∃ rest, splitWhitespace h.header = "@@".toList ::
      ('-' :: printRange h.oldStart (h.side .old).length h.omitOld) ::
        ('+' :: printRange h.newStart (h.side .new).length h.omitNew) :: rest := by
    unfold splitWhitespace
    rw [hshape, List.splitOnP_append_cons_of_forall_mem hmark ' ' hspace,
      List.splitOnP_append_cons_of_forall_mem hold ' ' hspace,
      List.splitOnP_append_cons_of_forall_mem hnew ' ' hspace]
    exact ⟨_, rfl⟩
  obtain ⟨rest, hwords⟩ := hwords
  have hfound : (splitWhitespace h.header).findSome? (stripPrefix ['+']) =
      some (printRange h.newStart (h.side .new).length h.omitNew) := by
    rw [hwords]
    rfl
  rw [newSideStart, hfound, Option.bind_some, head?_splitOn_printRange, Option.bind_some,
    parseU64_decimal hstart]
  rfl

theorem line_header (r : Reader) (h : PatchHunk) (hstart : h.newStart < 2 ^ 64) :
    r.line h.header = { r.push with current := { start := h.newStart }, inHunk := true } := by
  have hmark : "@@".toList.isPrefixOf h.header = true := rfl
  unfold Reader.line
  rw [if_pos hmark, newSideStart_header h hstart]

/-- Each hunk that changes something is read, in the order of the diff. -/
theorem foldl_line_hunks (hs : List PatchHunk) (hstart : ∀ h ∈ hs, h.newStart < 2 ^ 64)
    (r : Reader) : ((hs.flatMap PatchHunk.print).foldl Reader.line r).push.out =
      r.push.out ++ (hs.map Hunk.ofPatch).filter fun hunk => 0 < hunk.changed := by
  induction hs generalizing r with
  | nil => simp
  | cons h hs ih =>
    have hread : h.print.foldl Reader.line r =
        { r.push with current := Hunk.ofPatch h, inHunk := true } := by
      rw [PatchHunk.print, List.foldl_cons, line_header r h (hstart h List.mem_cons_self),
        foldl_line_body _ rfl]
      rfl
    rw [List.flatMap_cons, List.foldl_append, hread,
      ih fun other hother => hstart other (List.mem_cons_of_mem h hother)]
    by_cases hchanged : 0 < (Hunk.ofPatch h).changed <;> simp [Reader.push, hchanged]

/-- Nothing in front of the hunks is read as a change. -/
theorem foldl_line_stanza {raws : List Text} {r : Reader} (hin : r.inHunk = false)
    (hchanged : r.current.changed = 0)
    (hraws : ∀ raw ∈ raws, "@@".toList.isPrefixOf raw = false ∧ IsHeading raw) :
    (raws.foldl Reader.line r).inHunk = false ∧ (raws.foldl Reader.line r).current.changed = 0 ∧
      (raws.foldl Reader.line r).out = r.out := by
  induction raws generalizing r with
  | nil => exact ⟨hin, hchanged, rfl⟩
  | cons raw raws ih =>
    obtain ⟨hplain, hplus, hminus⟩ := hraws raw List.mem_cons_self
    have hstep : (r.line raw).inHunk = false ∧ (r.line raw).current.changed = 0 ∧
        (r.line raw).out = r.out := by
      unfold Reader.line
      rw [if_neg (by rw [hplain]; exact Bool.false_ne_true)]
      split
      · exact ⟨hin, hchanged, rfl⟩
      · rw [hin, hplus rfl]
        exact ⟨hin, hchanged, rfl⟩
      · rw [hin, hminus rfl]
        exact ⟨hin, hchanged, rfl⟩
      · exact ⟨hin, by rw [context_eq]; exact hchanged, rfl⟩
      · exact ⟨hin, by rw [context_eq]; exact hchanged, rfl⟩
      · exact ⟨hin, hchanged, rfl⟩
    obtain ⟨hin', hchanged', hout⟩ := hstep
    obtain ⟨hin'', hchanged'', hout'⟩ := ih hin' hchanged' fun other hother =>
      hraws other (List.mem_cons_of_mem raw hother)
    exact ⟨hin'', hchanged'', hout'.trans hout⟩

theorem chomp_prefix (raw : Text) : chomp raw <+: raw := by
  unfold chomp
  split_ifs
  · exact List.dropLast_prefix raw
  · exact List.prefix_refl raw

theorem prefix_chomp {lead raw : Text} (hlead : '\r' ∉ lead) (h : lead.isPrefixOf raw = true) :
    lead.isPrefixOf (chomp raw) = true := by
  obtain ⟨rest, rfl⟩ := List.isPrefixOf_iff_prefix.mp h
  have hlast : lead.getLast? ≠ some '\r' := fun hlast => hlead (List.mem_of_getLast? hlast)
  rw [chomp_append (.inr hlast)]
  exact List.isPrefixOf_iff_prefix.mpr (List.prefix_append lead _)

theorem IsHeading.chomp {raw : Text} (h : IsHeading raw) : IsHeading (Text.chomp raw) := by
  have hhead : ∀ mark, (Text.chomp raw).head? = some mark → raw.head? = some mark := by
    intro mark hmark
    obtain ⟨rest, hrest⟩ := chomp_prefix raw
    obtain ⟨tail, htail⟩ := List.head?_eq_some_iff.mp hmark
    rw [← hrest, htail]
    rfl
  exact ⟨fun hmark => prefix_chomp (by decide) (h.1 (hhead _ hmark)),
    fun hmark => prefix_chomp (by decide) (h.2 (hhead _ hmark))⟩

/-- White space at the ends of lines makes no difference, so neither do carriage returns. -/
theorem foldl_read_receiveBody (terminated : Bool) (body : List PatchLine) (hunk : Hunk) :
    (receiveBody terminated body).foldl Hunk.read hunk = body.foldl Hunk.read hunk := by
  have hread : ∀ (hunk : Hunk) (line : PatchLine),
      hunk.read (line.mapText Text.chomp) = hunk.read line := by
    intro hunk line
    rcases line with ⟨_ | _ | _, text⟩ | text
    · simp [PatchLine.mapText, Hunk.read, context_eq, normalise_chomp]
    · simp [PatchLine.mapText, Hunk.read, Hunk.add, normalise_chomp]
    · simp [PatchLine.mapText, Hunk.read, Hunk.remove, normalise_chomp]
    · rfl
  induction body generalizing hunk with
  | nil => rfl
  | cons line body ih =>
    cases body with
    | nil =>
      cases terminated with
      | true => exact hread hunk line
      | false => rfl
    | cons next body =>
      have hrest : receiveBody terminated (line :: next :: body) =
          line.mapText Text.chomp :: receiveBody terminated (next :: body) := rfl
      rw [hrest, List.foldl_cons, hread, ih]
      rfl

theorem ofPatch_receive (terminated : Bool) (h : PatchHunk) :
    Hunk.ofPatch (h.receive terminated) = Hunk.ofPatch h :=
  foldl_read_receiveBody terminated h.body { start := h.newStart }

theorem map_ofPatch_receiveHunks (terminated : Bool) (hs : List PatchHunk) :
    (receiveHunks terminated hs).map Hunk.ofPatch = hs.map Hunk.ofPatch := by
  induction hs with
  | nil => rfl
  | cons h hs ih =>
    cases hs with
    | nil => simp [receiveHunks, ofPatch_receive]
    | cons next hs =>
      have hrest : receiveHunks terminated (h :: next :: hs) =
          h.receive true :: receiveHunks terminated (next :: hs) := rfl
      rw [hrest, List.map_cons, ofPatch_receive, ih]
      rfl

/-- A printed diff is read as the hunks of it that change something. -/
theorem hunks_print (d : UnifiedDiff revision) (hheadings : ∀ raw ∈ d.stanza, IsHeading raw) :
    hunks d.print = (d.hunks.map Hunk.ofPatch).filter fun hunk => 0 < hunk.changed := by
  have hplain : ∀ raw ∈ d.stanza.map Text.chomp,
      "@@".toList.isPrefixOf raw = false ∧ IsHeading raw := by
    intro raw hraw
    obtain ⟨line, hline, rfl⟩ := List.mem_map.mp hraw
    exact ⟨chomp_not_header (d.stanza_plain line hline).2, (hheadings line hline).chomp⟩
  by_cases hnone : d.hunks = []
  · have hskip : ∀ raw ∈ lines d.print, "@@".toList.isPrefixOf raw = false ∧ IsHeading raw := by
      intro raw hraw
      obtain ⟨line, hline, heq⟩ := d.mem_lines_print hnone hraw
      rcases heq with rfl | rfl
      · exact ⟨(d.stanza_plain _ hline).2, hheadings _ hline⟩
      · exact hplain _ (List.mem_map_of_mem hline)
    obtain ⟨-, hchanged, hout⟩ := @foldl_line_stanza _ {} rfl rfl hskip
    rw [hunks, hnone, Reader.push, if_neg (by omega)]
    exact hout
  · obtain ⟨-, hchanged, hout⟩ := @foldl_line_stanza _ {} rfl rfl hplain
    rw [hunks, d.lines_print hnone, List.foldl_append, foldl_line_hunks,
      map_ofPatch_receiveHunks, Reader.push, if_neg (by omega)]
    · exact congrArg (· ++ _) hout
    · intro received hmem
      obtain ⟨h, hh, broken, rfl⟩ := mem_receiveHunks hmem
      have hle := (d.between h hh).start_le .new
      have hfits := (revision .new).fits
      have hstart : (h.receive broken).newStart = h.newStart := rfl
      rw [hstart]
      have hside : h.start .new = h.newStart := rfl
      omega

end Diff

end TinySweeper.PrTriage
