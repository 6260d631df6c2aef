import TinySweeper.Evidence.Numbering
import TinySweeper.Position.Locate

/-!
# Anchors are sound

An anchored range covers exactly the quoted lines, in one hunk or in the file,
and no better match is passed over.
-/

namespace TinySweeper.Position

open Text Evidence Window

/-- What a line of a file shows: its normalised text, unless that is blank. -/
def shownRaw (raw : Text) : Option Text :=
  if normalize raw = [] then none else some (normalize raw)

/-- What a line of a hunk shows on a side. -/
def shown (side : Side) (line : DiffLine) : Option Text :=
  if line.kind.isOn side then shownRaw line.text else none

/-- The head line a comment at the first line of `rest` sits on, `before` being the lines
in front of it. -/
def headLineAt (hunk : Hunk) (before rest : List DiffLine) : ℕ :=
  ((rest.findSome? DiffLine.newLine).or (before.reverse.findSome? DiffLine.newLine)).getD
    (max hunk.newStart 1)

/-- The anchor of a quote that one side of a hunk shows. -/
structure AnchoredIn (hunk : Hunk) (needle : List Text) (a : Anchor)
    (before covered after : List DiffLine) : Prop where
  showsFirst : ShowsFirst (shown a.side) needle hunk.lines before covered after
  start : a.start = headLineAt hunk before (covered ++ after)
  stop : ∀ rest last, covered = rest ++ [last] →
    a.stop = headLineAt hunk (before ++ rest) (last :: after)

def rowNew (line : DiffLine) : Option (ℕ × Text) :=
  (shown .new line).map (line.newLine.getD 0, ·)

def rowOld (pair : DiffLine × ℕ) : Option (ℕ × Text) := (shown .old pair.1).map (pair.2, ·)

theorem textOf_rowNew : textOf rowNew = shown .new := by
  funext line
  unfold textOf rowNew
  cases shown .new line <;> rfl

theorem textOf_rowOld : textOf rowOld = shown .old ∘ Prod.fst := by
  funext pair
  unfold textOf rowOld
  cases h : shown .old pair.1 <;> simp [h]

theorem projectNew_eq {hunk : Hunk} (hnumbered : hunk.Numbered) :
    projectNew hunk = hunk.lines.filterMap rowNew := by
  unfold projectNew
  rw [List.filterMap_filter, List.filter_filterMap]
  apply List.filterMap_congr
  intro line hline
  have hside := hnumbered.sides line hline .new
  unfold rowNew shown shownRaw
  cases hkind : line.kind with
  | removed => simp [LineKind.isOn]
  | context | added =>
    rw [hkind] at hside
    obtain ⟨n, hn⟩ := Option.isSome_iff_exists.mp hside
    rw [DiffLine.lineOn] at hn
    by_cases hblank : normalize line.text = []
    · simp [hn, hblank, LineKind.isOn]
    · simp [hn, hblank, LineKind.isOn]

theorem projectOld_eq (hunk : Hunk) :
    projectOld hunk = (hunk.lines.zip (nearestNewLines hunk)).filterMap rowOld := by
  unfold projectOld
  rw [← List.filterMap_eq_map, List.filterMap_filter, List.filter_filterMap]
  apply List.filterMap_congr
  intro pair _
  unfold rowOld shown shownRaw
  by_cases hblank : normalize pair.1.text = []
  · cases hkind : pair.1.kind <;> simp [hblank, LineKind.isOn]
  · cases hkind : pair.1.kind <;> simp [hblank, LineKind.isOn]

theorem length_nextNewLines (lines : List DiffLine) : (nextNewLines lines).length = lines.length := by
  induction lines with
  | nil => rfl
  | cons line rest ih => simp [nextNewLines, ih]

theorem length_fillPrevious (previous : Option ℕ) (pairs : List (DiffLine × Option ℕ)) :
    (fillPrevious previous pairs).length = pairs.length := by
  induction pairs generalizing previous with
  | nil => rfl
  | cons pair rest ih =>
    obtain ⟨line, anchor⟩ := pair
    simp [fillPrevious, ih]

theorem head?_nextNewLines (lines : List DiffLine) :
    (nextNewLines lines).head?.join = lines.findSome? DiffLine.newLine := by
  induction lines with
  | nil => rfl
  | cons line rest ih =>
    rw [List.findSome?_cons, nextNewLines, List.head?_cons, ih]
    cases line.newLine <;> rfl

theorem fillPrevious_at {previous : Option ℕ} {lines : List DiffLine}
    {before after : List (DiffLine × Option ℕ)} {line : DiffLine} {anchor : Option ℕ}
    (h : lines.zip (fillPrevious previous (lines.zip (nextNewLines lines))) =
      before ++ (line, anchor) :: after) :
    anchor = ((line :: after.map Prod.fst).findSome? DiffLine.newLine).or
      (((before.map Prod.fst).reverse.findSome? DiffLine.newLine).or previous) := by
  induction lines generalizing previous before with
  | nil => simp at h
  | cons first rest ih =>
    rw [nextNewLines, List.zip_cons_cons, fillPrevious, List.zip_cons_cons] at h
    cases before with
    | nil =>
      rw [List.nil_append, List.cons.injEq, Prod.mk.injEq] at h
      obtain ⟨⟨rfl, hanchor⟩, hafter⟩ := h
      have hrest : after.map Prod.fst = rest := by
        rw [← hafter]
        apply List.map_fst_zip
        rw [length_fillPrevious, List.length_zip, length_nextNewLines, Nat.min_self]
      rw [hrest, ← hanchor, head?_nextNewLines, List.findSome?_cons]
      cases first.newLine <;> simp
    | cons pair before =>
      rw [List.cons_append, List.cons.injEq] at h
      rw [ih h.2, List.map_cons, List.reverse_cons, List.findSome?_append, ← h.1]
      simp [Option.or_assoc]

/-- The anchor beside a line is the nearest head line. -/
theorem nearestNewLines_at {hunk : Hunk} {before after : List (DiffLine × ℕ)}
    {line : DiffLine} {k : ℕ}
    (h : hunk.lines.zip (nearestNewLines hunk) = before ++ (line, k) :: after) :
    k = headLineAt hunk (before.map Prod.fst) (line :: after.map Prod.fst) := by
  unfold nearestNewLines at h
  rw [List.zip_map_right, List.map_eq_append_iff] at h
  obtain ⟨before', rest, hzip, rfl, hrest⟩ := h
  rw [List.map_eq_cons_iff] at hrest
  obtain ⟨⟨line', anchor⟩, after', rfl, hpair, rfl⟩ := hrest
  have hanchor := fillPrevious_at hzip
  simp only [Prod.map_apply, id_eq, Prod.mk.injEq] at hpair
  obtain ⟨rfl, rfl⟩ := hpair
  rw [hanchor, Option.or_none]
  unfold headLineAt
  simp [List.map_map, Function.comp_def]

theorem map_fst_nearest (hunk : Hunk) :
    (hunk.lines.zip (nearestNewLines hunk)).map Prod.fst = hunk.lines := by
  apply List.map_fst_zip
  unfold nearestNewLines
  rw [List.length_map, length_fillPrevious, List.length_zip, length_nextNewLines, Nat.min_self]

section Ranges

variable {hunk : Hunk} (hnumbered : hunk.Numbered)

include hnumbered

theorem numbersOn_sorted (side : Side) : (hunk.numbersOn side).Pairwise (· < ·) := by
  rw [hnumbered.numbers]
  exact List.pairwise_lt_range'

/-- Numbers increase from one line to any later one. -/
theorem newLine_lt {before after : List DiffLine} (hlines : hunk.lines = before ++ after)
    {first second : DiffLine} (hfirst : first ∈ before) (hsecond : second ∈ after) {m n : ℕ}
    (hm : first.newLine = some m) (hn : second.newLine = some n) : m < n := by
  have hsorted := numbersOn_sorted hnumbered .new
  unfold Hunk.numbersOn at hsorted
  rw [hlines, List.filterMap_append, List.pairwise_append] at hsorted
  apply hsorted.2.2
  · exact List.mem_filterMap.mpr ⟨first, hfirst, hm⟩
  · exact List.mem_filterMap.mpr ⟨second, hsecond, hn⟩

theorem mem_numbersOn_of_between {m n k : ℕ} (hm : m ∈ hunk.numbersOn .new)
    (hn : n ∈ hunk.numbersOn .new) (hmk : m ≤ k) (hkn : k ≤ n) : k ∈ hunk.numbersOn .new := by
  rw [hnumbered.numbers, List.mem_range'_1] at hm hn ⊢
  omega

omit hnumbered

/-- A hunk with head lines has one nearest to any of its lines. -/
theorem headLineAt_mem {before rest : List DiffLine} (hlines : hunk.lines = before ++ rest)
    (hsome : hunk.numbersOn .new ≠ []) : headLineAt hunk before rest ∈ hunk.numbersOn .new := by
  have hmem : ∀ {line n}, line ∈ hunk.lines → line.newLine = some n →
      n ∈ hunk.numbersOn .new := by
    intro line n hline hn
    exact List.mem_filterMap.mpr ⟨line, hline, hn⟩
  unfold headLineAt
  cases hnext : rest.findSome? DiffLine.newLine with
  | some n =>
    obtain ⟨line, hline, hn⟩ := List.exists_of_findSome?_eq_some hnext
    exact hmem (by rw [hlines]; exact List.mem_append_right _ hline) hn
  | none =>
    cases hprevious : before.reverse.findSome? DiffLine.newLine with
    | some n =>
      obtain ⟨line, hline, hn⟩ := List.exists_of_findSome?_eq_some hprevious
      rw [List.mem_reverse] at hline
      exact hmem (by rw [hlines]; exact List.mem_append_left _ hline) hn
    | none =>
      exfalso
      obtain ⟨n, hn⟩ := List.exists_mem_of_ne_nil _ hsome
      obtain ⟨line, hline, hnumber⟩ := List.mem_filterMap.mp hn
      rw [List.findSome?_eq_none_iff] at hnext hprevious
      rw [DiffLine.lineOn] at hnumber
      rw [hlines] at hline
      rcases List.mem_append.mp hline with hbefore | hrest
      · rw [hprevious line (List.mem_reverse.mpr hbefore)] at hnumber
        cases hnumber
      · rw [hnext line hrest] at hnumber
        cases hnumber

theorem headLineAt_of_no_head {before rest : List DiffLine} (hlines : hunk.lines = before ++ rest)
    (hnone : hunk.numbersOn .new = []) : headLineAt hunk before rest = max hunk.newStart 1 := by
  have hall : ∀ line ∈ hunk.lines, line.newLine = none := by
    intro line hline
    exact List.filterMap_eq_nil_iff.mp hnone line hline
  have hrest : rest.findSome? DiffLine.newLine = none := by
    rw [List.findSome?_eq_none_iff]
    intro line hline
    exact hall line (by rw [hlines]; exact List.mem_append_right _ hline)
  have hbefore : before.reverse.findSome? DiffLine.newLine = none := by
    rw [List.findSome?_eq_none_iff]
    intro line hline
    exact hall line (by rw [hlines]; exact List.mem_append_left _ (List.mem_reverse.mp hline))
  rw [headLineAt, hrest, hbefore]
  rfl

theorem headLineAt_cons {before rest : List DiffLine} {line : DiffLine} {n : ℕ}
    (hn : line.newLine = some n) : headLineAt hunk before (line :: rest) = n := by
  rw [headLineAt, List.findSome?_cons_of_isSome (by rw [hn]; rfl), hn]
  rfl

include hnumbered

/-- The nearest head line does not move back from one line to the next. -/
theorem headLineAt_le_succ {before rest : List DiffLine} {line : DiffLine}
    (hlines : hunk.lines = before ++ line :: rest) :
    headLineAt hunk before (line :: rest) ≤ headLineAt hunk (before ++ [line]) rest := by
  cases hline : line.newLine with
  | none =>
    apply le_of_eq
    unfold headLineAt
    rw [List.findSome?_cons, hline, List.reverse_concat, List.findSome?_cons, hline]
  | some n =>
    rw [headLineAt_cons hline]
    unfold headLineAt
    cases hnext : rest.findSome? DiffLine.newLine with
    | some m =>
      obtain ⟨later, hlater, hm⟩ := List.exists_of_findSome?_eq_some hnext
      have hsplit : hunk.lines = (before ++ [line]) ++ rest := by
        rw [hlines, List.append_assoc]
        rfl
      have hlt := newLine_lt hnumbered hsplit
        (List.mem_append_right _ List.mem_cons_self) hlater hline hm
      exact hlt.le
    | none =>
      rw [List.reverse_concat, List.findSome?_cons, hline]
      exact le_rfl

theorem headLineAt_le {before middle rest : List DiffLine}
    (hlines : hunk.lines = before ++ (middle ++ rest)) :
    headLineAt hunk before (middle ++ rest) ≤ headLineAt hunk (before ++ middle) rest := by
  induction middle generalizing before with
  | nil => rw [List.nil_append, List.append_nil]
  | cons line middle ih =>
    calc headLineAt hunk before (line :: middle ++ rest)
        ≤ headLineAt hunk (before ++ [line]) (middle ++ rest) :=
          headLineAt_le_succ hnumbered hlines
      _ ≤ headLineAt hunk (before ++ [line] ++ middle) rest :=
          ih (by rw [hlines, List.append_assoc]; rfl)
      _ = headLineAt hunk (before ++ line :: middle) rest := by
          rw [List.append_assoc]
          rfl

end Ranges

theorem find_eq_some {haystack : List (ℕ × Text)} {needle : List Text} {range : ℕ × ℕ}
    (h : find haystack needle = some range) :
    needle ≠ [] ∧ ∃ window first last,
      (windows needle.length haystack).find? (fun window => window.map Prod.snd = needle) =
        some window ∧
      window.head? = some first ∧ window.getLast? = some last ∧
      range = (min first.1 last.1, max first.1 last.1) := by
  unfold find at h
  split_ifs at h with hneedle
  split at h
  · cases h
  · rename_i window hwindow
    split at h
    · rename_i first last hfirst hlast
      cases h
      exact ⟨hneedle, window, first, last, hwindow, hfirst, hlast, rfl⟩
    · cases h

theorem find_eq_none {haystack : List (ℕ × Text)} {needle : List Text} (hneedle : needle ≠ [])
    (h : find haystack needle = none) :
    (windows needle.length haystack).find? (fun window => window.map Prod.snd = needle) =
      none := by
  by_contra hfound
  obtain ⟨window, hwindow⟩ := Option.ne_none_iff_exists'.mp hfound
  obtain ⟨-, hlength, -⟩ := find?_windows hwindow
  obtain ⟨first, rest, rfl⟩ : ∃ first rest, window = first :: rest := by
    apply List.exists_cons_of_length_pos
    rw [hlength]
    exact List.length_pos_iff.mpr hneedle
  unfold find at h
  rw [if_neg hneedle, hwindow] at h
  simp [List.getLast?_cons] at h

section Hunks

variable {hunk : Hunk} {needle : List Text} {a : Anchor}

/-- Whether a line has a head-side number in the anchored range. -/
def Anchor.covers (a : Anchor) (line : DiffLine) : Bool :=
  line.newLine.any fun n => a.start ≤ n && n ≤ a.stop

theorem isSome_shown_iff {side : Side} {line : DiffLine} :
    (shown side line).isSome = true ↔ line.kind.isOn side = true ∧ normalize line.text ≠ [] := by
  unfold shown shownRaw
  split_ifs <;> simp_all

variable {before covered after : List DiffLine}

theorem AnchoredIn.start_le (hnumbered : hunk.Numbered)
    (h : AnchoredIn hunk needle a before covered after) : a.start ≤ a.stop := by
  obtain ⟨last, hlast, -⟩ := h.showsFirst.shows.last
  obtain ⟨rest, rfl⟩ := List.getLast?_eq_some_iff.mp hlast
  have hlines := h.showsFirst.shows.lines_eq
  rw [List.append_assoc, List.append_assoc] at hlines
  calc a.start = headLineAt hunk before (rest ++ (last :: after)) := by
        rw [h.start, List.append_assoc]
        rfl
    _ ≤ headLineAt hunk (before ++ rest) (last :: after) := headLineAt_le hnumbered hlines
    _ = a.stop := (h.stop rest last rfl).symm

theorem AnchoredIn.mem_numbersOn (h : AnchoredIn hunk needle a before covered after)
    (hsome : hunk.numbersOn .new ≠ []) :
    a.start ∈ hunk.numbersOn .new ∧ a.stop ∈ hunk.numbersOn .new := by
  obtain ⟨last, hlast, -⟩ := h.showsFirst.shows.last
  obtain ⟨rest, rfl⟩ := List.getLast?_eq_some_iff.mp hlast
  have hlines := h.showsFirst.shows.lines_eq
  constructor
  · rw [h.start]
    exact headLineAt_mem (by rw [hlines, List.append_assoc]) hsome
  · rw [h.stop rest last rfl]
    exact headLineAt_mem (by rw [hlines]; simp) hsome

theorem AnchoredIn.of_no_head (h : AnchoredIn hunk needle a before covered after)
    (hnone : hunk.numbersOn .new = []) :
    a.start = max hunk.newStart 1 ∧ a.stop = max hunk.newStart 1 := by
  obtain ⟨last, hlast, -⟩ := h.showsFirst.shows.last
  obtain ⟨rest, rfl⟩ := List.getLast?_eq_some_iff.mp hlast
  have hlines := h.showsFirst.shows.lines_eq
  constructor
  · rw [h.start]
    exact headLineAt_of_no_head (by rw [hlines, List.append_assoc]) hnone
  · rw [h.stop rest last rfl]
    exact headLineAt_of_no_head (by rw [hlines]; simp) hnone

theorem anchoredIn_of_keys (hnumbered : hunk.Numbered) {side : Side}
    (hshows : ShowsFirst (shown side) needle hunk.lines before covered after) {m n : ℕ}
    (hstart : m = headLineAt hunk before (covered ++ after)) {init : List DiffLine}
    {last : DiffLine} (hcovered : covered = init ++ [last])
    (hstop : n = headLineAt hunk (before ++ init) (last :: after)) :
    AnchoredIn hunk needle ⟨min m n, max m n, side, .hunk, false⟩ before covered after := by
  have hanchor : AnchoredIn hunk needle ⟨m, n, side, .hunk, false⟩ before covered after := by
    constructor
    · exact hshows
    · exact hstart
    · intro rest final hconcat
      rw [hcovered] at hconcat
      obtain ⟨rfl, hlast⟩ := List.append_inj' hconcat rfl
      rw [← List.singleton_inj.mp hlast]
      exact hstop
  have hle : m ≤ n := hanchor.start_le hnumbered
  rw [min_eq_left hle, max_eq_right hle]
  exact hanchor

/-- On the head side the range covers the quoted lines and nothing else. -/
theorem AnchoredIn.covers (hnumbered : hunk.Numbered)
    (h : AnchoredIn hunk needle a before covered after) (hside : a.side = .new) :
    hunk.numbersOn .new ≠ [] ∧
      (hunk.lines.filter a.covers).filterMap (shown .new) = needle := by
  have hshows := h.showsFirst.shows
  rw [hside] at hshows
  have hlines := hshows.lines_eq
  have hnew : ∀ line ∈ hunk.lines, (shown .new line).isSome → ∃ n, line.newLine = some n := by
    intro line hline hsome
    have hon := hnumbered.sides line hline .new
    rw [(isSome_shown_iff.mp hsome).1] at hon
    exact Option.isSome_iff_exists.mp hon
  obtain ⟨first, hfirst, hfirstShown⟩ := hshows.head
  obtain ⟨rest, hcons⟩ := List.head?_eq_some_iff.mp hfirst
  obtain ⟨last, hlast, hlastShown⟩ := hshows.last
  obtain ⟨init, hconcat⟩ := List.getLast?_eq_some_iff.mp hlast
  have hmem : ∀ line ∈ covered, line ∈ hunk.lines := by
    intro line hline
    rw [hlines]
    exact List.mem_append_left _ (List.mem_append_right _ hline)
  obtain ⟨m, hm⟩ := hnew first (hmem first (by rw [hcons]; exact List.mem_cons_self)) hfirstShown
  obtain ⟨n, hn⟩ := hnew last (hmem last (by rw [hconcat]; simp)) hlastShown
  have hstart : a.start = m := by
    rw [h.start, hcons]
    exact headLineAt_cons hm
  have hstop : a.stop = n := by
    rw [h.stop init last hconcat]
    exact headLineAt_cons hn
  constructor
  · intro hnil
    rw [Hunk.numbersOn, List.filterMap_eq_nil_iff] at hnil
    have hnone := hnil first (hmem first (by rw [hcons]; exact List.mem_cons_self))
    rw [DiffLine.lineOn, hm] at hnone
    cases hnone
  have hbeforeNone : before.filter a.covers = [] := by
    rw [List.filter_eq_nil_iff]
    intro line hline hcovers
    obtain ⟨k, hk, hrange⟩ := (Option.any_eq_true ..).mp hcovers
    have hin : first ∈ covered ++ after := by
      rw [hcons]
      exact List.mem_cons_self
    have hlt := newLine_lt hnumbered (hlines.trans (List.append_assoc ..)) hline hin hk hm
    simp only [Bool.and_eq_true, decide_eq_true_eq] at hrange
    omega
  have hafterNone : after.filter a.covers = [] := by
    rw [List.filter_eq_nil_iff]
    intro line hline hcovers
    obtain ⟨k, hk, hrange⟩ := (Option.any_eq_true ..).mp hcovers
    have hin : last ∈ before ++ covered := by
      rw [hconcat]
      simp
    have hlt := newLine_lt hnumbered hlines hin hline hn hk
    simp only [Bool.and_eq_true, decide_eq_true_eq] at hrange
    omega
  have hinside : ∀ line ∈ covered, a.covers line = false → shown .new line = none := by
    intro line hline hcovers
    by_contra hsome
    obtain ⟨k, hk⟩ := hnew line (hmem line hline) (Option.isSome_iff_ne_none.mpr hsome)
    have hle : m ≤ k := by
      rw [hcons] at hline
      rcases List.mem_cons.mp hline with rfl | hrest
      · rw [hm] at hk
        exact (Option.some.inj hk).le
      · have hsplit : hunk.lines = (before ++ [first]) ++ (rest ++ after) := by
          rw [hlines, hcons]
          simp
        exact (newLine_lt hnumbered hsplit (List.mem_append_right _ List.mem_cons_self)
          (List.mem_append_left _ hrest) hm hk).le
    have hge : k ≤ n := by
      rw [hconcat] at hline
      rcases List.mem_append.mp hline with hinit | hfinal
      · have hsplit : hunk.lines = (before ++ init) ++ (last :: after) := by
          rw [hlines, hconcat]
          simp
        exact (newLine_lt hnumbered hsplit (List.mem_append_right _ hinit)
          List.mem_cons_self hk hn).le
      · rw [List.mem_singleton.mp hfinal, hn] at hk
        exact (Option.some.inj hk).ge
    rw [Anchor.covers, hk, Option.any_some, hstart, hstop] at hcovers
    simp [hle, hge] at hcovers
  rw [hlines, List.filter_append, List.filter_append, hbeforeNone, hafterNone, List.nil_append,
    List.append_nil, ← hshows.needle_eq, List.filterMap_filter]
  apply List.filterMap_congr
  intro line hline
  cases hcovers : a.covers line with
  | true => rfl
  | false =>
    rw [hinside line hline hcovers]
    rfl

theorem anchoredIn_new (hnumbered : hunk.Numbered) {range : ℕ × ℕ}
    (h : find (projectNew hunk) needle = some range) :
    ∃ before covered after,
      AnchoredIn hunk needle ⟨range.1, range.2, .new, .hunk, false⟩ before covered after := by
  obtain ⟨hneedle, window, first, last, hwindow, hfirst, hlast, rfl⟩ := find_eq_some h
  rw [projectNew_eq hnumbered] at hwindow
  obtain ⟨before, covered, after, hshows, ⟨start, hstart, hstartRow⟩, stop, hstop, hstopRow⟩ :=
    showsFirst_of_find? hneedle hwindow
  rw [textOf_rowNew] at hshows
  have hkey : ∀ line ∈ hunk.lines, ∀ row, rowNew line = some row → line.newLine = some row.1 := by
    intro line hline row hrow
    obtain ⟨text, htext, rfl⟩ := Option.map_eq_some_iff.mp hrow
    have hon := hnumbered.sides line hline .new
    rw [(isSome_shown_iff.mp (by rw [htext]; rfl)).1] at hon
    obtain ⟨n, hn⟩ := Option.isSome_iff_exists.mp hon
    rw [DiffLine.lineOn] at hn
    simp [hn]
  obtain ⟨rest, hcons⟩ := List.head?_eq_some_iff.mp hstart
  obtain ⟨init, hconcat⟩ := List.getLast?_eq_some_iff.mp hstop
  have hlines := hshows.shows.lines_eq
  have hm : start.newLine = some first.1 :=
    hkey start (by rw [hlines, hcons]; simp) first (by rw [hstartRow, hfirst])
  have hn : stop.newLine = some last.1 :=
    hkey stop (by rw [hlines, hconcat]; simp) last (by rw [hstopRow, hlast])
  exact ⟨before, covered, after, anchoredIn_of_keys hnumbered hshows
    (by rw [hcons]; exact (headLineAt_cons hm).symm)
    hconcat (headLineAt_cons hn).symm⟩

theorem anchoredIn_old (hnumbered : hunk.Numbered) {range : ℕ × ℕ}
    (h : find (projectOld hunk) needle = some range) :
    ∃ before covered after,
      AnchoredIn hunk needle ⟨range.1, range.2, .old, .hunk, false⟩ before covered after := by
  obtain ⟨hneedle, window, first, last, hwindow, hfirst, hlast, rfl⟩ := find_eq_some h
  rw [projectOld_eq] at hwindow
  obtain ⟨before, covered, after, hshows, ⟨start, hstart, hstartRow⟩, stop, hstop, hstopRow⟩ :=
    showsFirst_of_find? hneedle hwindow
  have hlines := hshows.shows.lines_eq
  rw [textOf_rowOld] at hshows
  have hshowsLines := hshows.map
  rw [map_fst_nearest] at hshowsLines
  have hkey : ∀ pair row, rowOld pair = some row → pair.2 = row.1 := by
    intro pair row hrow
    obtain ⟨text, -, rfl⟩ := Option.map_eq_some_iff.mp hrow
    rfl
  obtain ⟨rest, hcons⟩ := List.head?_eq_some_iff.mp hstart
  obtain ⟨init, hconcat⟩ := List.getLast?_eq_some_iff.mp hstop
  have hsplitStart : hunk.lines.zip (nearestNewLines hunk) =
      before ++ (start.1, start.2) :: (rest ++ after) := by
    rw [hlines, hcons]
    simp
  have hsplitStop : hunk.lines.zip (nearestNewLines hunk) =
      (before ++ init) ++ (stop.1, stop.2) :: after := by
    rw [hlines, hconcat]
    simp
  have hstartAt := nearestNewLines_at hsplitStart
  have hstopAt := nearestNewLines_at hsplitStop
  rw [hkey start first (by rw [hstartRow, hfirst])] at hstartAt
  rw [hkey stop last (by rw [hstopRow, hlast]), List.map_append] at hstopAt
  have hconcatLines : covered.map Prod.fst = init.map Prod.fst ++ [stop.1] := by
    rw [hconcat]
    simp
  refine ⟨_, _, _, anchoredIn_of_keys hnumbered hshowsLines ?_ hconcatLines hstopAt⟩
  rw [hstartAt, hcons]
  simp

end Hunks

def rowFile (line : Text × ℕ) : Option (ℕ × Text) := (shownRaw line.1).map (line.2 + 1, ·)

theorem textOf_rowFile : textOf rowFile = shownRaw ∘ Prod.fst := by
  funext line
  unfold textOf rowFile
  cases h : shownRaw line.1 <;> simp [h]

theorem haystack_eq (text : Text) : haystack text = (lines text).zipIdx.filterMap rowFile := by
  unfold haystack
  rw [← List.filterMap_eq_map, List.filter_filterMap]
  apply List.filterMap_congr
  intro line _
  unfold rowFile shownRaw
  by_cases hblank : normalize line.1 = []
  · simp [hblank]
  · simp [hblank]

theorem zipIdx_at {raws : List Text} {before after : List (Text × ℕ)} {line : Text × ℕ}
    (h : raws.zipIdx = before ++ line :: after) : line.2 = before.length := by
  have hget := congrArg (fun pairs => pairs[before.length]?) h
  simp only [List.getElem?_zipIdx, List.getElem?_append_right le_rfl, Nat.sub_self,
    List.getElem?_cons_zero, Option.map_eq_some_iff] at hget
  obtain ⟨raw, -, hline⟩ := hget
  rw [← hline]
  simp

/-- The anchor of a quote that the file shows: the numbers of its first and last line. -/
structure AnchoredInFile (text : Text) (needle : List Text) (a : Anchor)
    (before covered after : List Text) : Prop where
  showsFirst : ShowsFirst shownRaw needle (lines text) before covered after
  start : a.start = before.length + 1
  stop : a.stop = before.length + covered.length

theorem anchoredInFile {text : Text} {needle : List Text} {range : ℕ × ℕ}
    (h : find (haystack text) needle = some range) :
    ∃ before covered after, AnchoredInFile text needle ⟨range.1, range.2, .new, .wholeFile, false⟩
      before covered after := by
  obtain ⟨hneedle, window, first, last, hwindow, hfirst, hlast, rfl⟩ := find_eq_some h
  rw [haystack_eq] at hwindow
  obtain ⟨before, covered, after, hshows, ⟨start, hstart, hstartRow⟩, stop, hstop, hstopRow⟩ :=
    showsFirst_of_find? hneedle hwindow
  have hlines := hshows.shows.lines_eq
  rw [textOf_rowFile] at hshows
  have hshowsLines := hshows.map
  rw [List.zipIdx_map_fst] at hshowsLines
  have hkey : ∀ line row, rowFile line = some row → row.1 = line.2 + 1 := by
    intro line row hrow
    obtain ⟨text, -, rfl⟩ := Option.map_eq_some_iff.mp hrow
    rfl
  obtain ⟨rest, hcons⟩ := List.head?_eq_some_iff.mp hstart
  obtain ⟨init, hconcat⟩ := List.getLast?_eq_some_iff.mp hstop
  have hm := hkey start first (by rw [hstartRow, hfirst])
  have hn := hkey stop last (by rw [hstopRow, hlast])
  have hsplitStart : (lines text).zipIdx = before ++ start :: (rest ++ after) := by
    rw [hlines, hcons]
    simp
  have hsplitStop : (lines text).zipIdx = (before ++ init) ++ stop :: after := by
    rw [hlines, hconcat]
    simp
  rw [zipIdx_at hsplitStart] at hm
  rw [zipIdx_at hsplitStop, List.length_append] at hn
  refine ⟨_, _, _, hshowsLines, ?_, ?_⟩
  · rw [List.length_map]
    dsimp only
    omega
  · rw [List.length_map, List.length_map, hconcat, List.length_append, List.length_singleton]
    dsimp only
    omega

theorem not_shown_new {hunk : Hunk} {needle : List Text} (hnumbered : hunk.Numbered)
    (hneedle : needle ≠ []) (h : find (projectNew hunk) needle = none) :
    ¬ Shown (shown .new) needle hunk.lines := by
  have hnone := find_eq_none hneedle h
  rw [projectNew_eq hnumbered] at hnone
  rw [← textOf_rowNew]
  exact not_shown_of_find? hneedle hnone

theorem not_shown_old {hunk : Hunk} {needle : List Text} (hneedle : needle ≠ [])
    (h : find (projectOld hunk) needle = none) : ¬ Shown (shown .old) needle hunk.lines := by
  have hnone := find_eq_none hneedle h
  rw [projectOld_eq] at hnone
  rw [← map_fst_nearest hunk, shown_map, ← textOf_rowOld]
  exact not_shown_of_find? hneedle hnone

/-- What an anchor in a hunk promises. -/
structure SoundInHunk (diff : FileDiff) (needle : List Text) (a : Anchor) (i : ℕ) (hunk : Hunk) :
    Prop where
  hunk_eq : diff.hunks[i]? = some hunk
  anchoredIn : ∃ before covered after, AnchoredIn hunk needle a before covered after
  /-- On the head side the lines of the range are the quoted ones. -/
  covers : a.side = .new → (hunk.lines.filter a.covers).filterMap (shown .new) = needle
  head : a.side = .new → hunk.numbersOn .new ≠ []
  /-- The range is made of head lines of the hunk, which takes a comment on them. -/
  within : hunk.numbersOn .new ≠ [] →
    (∀ n, a.start ≤ n → n ≤ a.stop → n ∈ hunk.numbersOn .new) ∧
      (hunk.newLines = (hunk.numbersOn .new).length → diff.withinHunk a.start a.stop = true)
  /-- A hunk without head lines lends the place where it starts. -/
  fallback : hunk.numbersOn .new = [] →
    a.start = max hunk.newStart 1 ∧ a.stop = max hunk.newStart 1
  /-- No earlier hunk shows the quote on this side. -/
  earliest : ∀ j < i, ∀ earlier, diff.hunks[j]? = some earlier →
    ¬ Shown (shown a.side) needle earlier.lines
  /-- The old side counts only where no hunk shows the quote on the head side. -/
  preferred : a.side = .old → ∀ other ∈ diff.hunks, ¬ Shown (shown .new) needle other.lines

theorem AnchoredIn.sound {diff : FileDiff} {needle : List Text} {a : Anchor} {i : ℕ} {hunk : Hunk}
    {before covered after : List DiffLine} (hhunk : diff.hunks[i]? = some hunk)
    (hnumbered : hunk.Numbered) (h : AnchoredIn hunk needle a before covered after)
    (hearliest : ∀ j < i, ∀ earlier, diff.hunks[j]? = some earlier →
      ¬ Shown (shown a.side) needle earlier.lines)
    (hpreferred : a.side = .old → ∀ other ∈ diff.hunks, ¬ Shown (shown .new) needle other.lines) :
    SoundInHunk diff needle a i hunk := by
  constructor
  · exact hhunk
  · exact ⟨before, covered, after, h⟩
  · intro hside
    exact (h.covers hnumbered hside).2
  · intro hside
    exact (h.covers hnumbered hside).1
  · intro hsome
    obtain ⟨hstart, hstop⟩ := h.mem_numbersOn hsome
    constructor
    · intro n hle hge
      exact mem_numbersOn_of_between hnumbered hstart hstop hle hge
    · intro hcount
      exact hnumbered.withinHunk (List.mem_of_getElem? hhunk) hcount hstart hstop
        (h.start_le hnumbered)
  · exact h.of_no_head
  · exact hearliest
  · exact hpreferred

/-- The hunk whose projection matched, and the ones passed over before it. -/
theorem findInHunks_eq_some {project : Hunk → List (ℕ × Text)} {hunks : List Hunk}
    {needle : List Text} {range : ℕ × ℕ} (h : findInHunks project hunks needle = some range) :
    ∃ (i : ℕ) (hunk : Hunk), hunks[i]? = some hunk ∧ find (project hunk) needle = some range ∧
      ∀ j < i, ∀ earlier, hunks[j]? = some earlier → find (project earlier) needle = none := by
  obtain ⟨before, hunk, after, rfl, hfind, hnone⟩ := List.findSome?_eq_some_iff.mp h
  refine ⟨before.length, hunk, by simp, hfind, ?_⟩
  intro j hj earlier hearlier
  rw [List.getElem?_append_left hj] at hearlier
  exact hnone earlier (List.mem_of_getElem? hearlier)

/-- An anchored range covers the quoted code, in one hunk or else in the file, and the first
match on the preferred side is the one answered. -/
theorem locate_sound {snippet : Text} {diff : Option FileDiff} {file : Option Text} {a : Anchor}
    (hparsed : ∀ d ∈ diff, ∃ path patch, d = parseFilePatch path patch)
    (hlocate : locate snippet diff file = .anchored a) :
    a.start ≤ a.stop ∧
      match a.stage with
      | .hunk => ∃ d ∈ diff, ∃ i hunk, SoundInHunk d (needle snippet) a i hunk
      | .wholeFile => a.side = .new ∧
        (∀ d ∈ diff, ∀ hunk ∈ d.hunks, ∀ side,
          ¬ Shown (shown side) (needle snippet) hunk.lines) ∧
        ∃ text ∈ file, ∃ before covered after,
          AnchoredInFile text (needle snippet) a before covered after := by
  have hnumbered : ∀ d ∈ diff, ∀ hunk ∈ d.hunks, hunk.Numbered := by
    intro d hd hunk hhunk
    obtain ⟨path, patch, rfl⟩ := hparsed d hd
    exact parseFilePatch_numbered hhunk
  unfold locate at hlocate
  dsimp only at hlocate
  split_ifs at hlocate with hneedle
  split at hlocate
  · rename_i range hnew
    cases hlocate
    obtain ⟨d, hd, hfound⟩ := Option.bind_eq_some_iff.mp hnew
    obtain ⟨i, hunk, hhunk, hfind, hearlier⟩ := findInHunks_eq_some hfound
    have hmem := hnumbered d hd hunk (List.mem_of_getElem? hhunk)
    obtain ⟨before, covered, after, hanchor⟩ := anchoredIn_new hmem hfind
    refine ⟨hanchor.start_le hmem, d, hd, i, hunk, hanchor.sound hhunk hmem ?_ ?_⟩
    · intro j hj earlier hget
      exact not_shown_new (hnumbered d hd earlier (List.mem_of_getElem? hget)) hneedle
        (hearlier j hj earlier hget)
    · intro hold
      cases hold
  · rename_i hnew
    have hnotNew : ∀ d ∈ diff, ∀ hunk ∈ d.hunks, ¬ Shown (shown .new) (needle snippet)
        hunk.lines := by
      intro d hd hunk hhunk
      rw [hd, Option.bind_some] at hnew
      exact not_shown_new (hnumbered d hd hunk hhunk) hneedle
        (List.findSome?_eq_none_iff.mp hnew hunk hhunk)
    split at hlocate
    · rename_i range hold
      cases hlocate
      obtain ⟨d, hd, hfound⟩ := Option.bind_eq_some_iff.mp hold
      obtain ⟨i, hunk, hhunk, hfind, hearlier⟩ := findInHunks_eq_some hfound
      have hmem := hnumbered d hd hunk (List.mem_of_getElem? hhunk)
      obtain ⟨before, covered, after, hanchor⟩ := anchoredIn_old hmem hfind
      refine ⟨hanchor.start_le hmem, d, hd, i, hunk, hanchor.sound hhunk hmem ?_ ?_⟩
      · intro j hj earlier hget
        exact not_shown_old hneedle (hearlier j hj earlier hget)
      · intro _
        exact hnotNew d hd
    · rename_i hold
      split at hlocate
      · rename_i range hwhole
        cases hlocate
        obtain ⟨text, htext, hfind⟩ := Option.bind_eq_some_iff.mp hwhole
        obtain ⟨before, covered, after, hanchor⟩ := anchoredInFile hfind
        obtain ⟨hne, window, first, last, -, -, -, rfl⟩ := find_eq_some hfind
        refine ⟨min_le_max, rfl, ?_, text, htext, before, covered, after, hanchor⟩
        intro d hd hunk hhunk side
        cases side with
        | new => exact hnotNew d hd hunk hhunk
        | old =>
          rw [hd, Option.bind_some] at hold
          exact not_shown_old hneedle (List.findSome?_eq_none_iff.mp hold hunk hhunk)
      · cases hlocate

/-- The diff of a file that gains one line. -/
def gained : FileDiff := parseFilePatch [] "@@ -0,0 +1 @@\n+a\n".toList

theorem locate_sound_gained : ∃ i hunk,
    SoundInHunk gained (needle "+ a".toList) ⟨1, 1, .new, .hunk, false⟩ i hunk := by
  have hparsed : ∀ d ∈ some gained, ∃ path patch, d = parseFilePatch path patch := by
    intro d hd
    exact ⟨_, _, (Option.some.inj hd).symm⟩
  have hlocate : locate "+ a".toList (some gained) none =
      .anchored ⟨1, 1, .new, .hunk, false⟩ := by decide +kernel
  obtain ⟨-, d, hd, i, hunk, hsound⟩ := locate_sound hparsed hlocate
  cases hd
  exact ⟨i, hunk, hsound⟩

/-- The diff of a file that loses one line. -/
def lost : FileDiff := parseFilePatch [] "@@ -3 +2,0 @@\n-x\n".toList

/-- A patch whose header counts no line of the head side. -/
def miscounted : FileDiff := parseFilePatch [] "@@ -0,0 +1,0 @@\n+x\n".toList

/-- Code the diff does not show is anchored in the file, outside every hunk; a quote from a
hunk of deletions has no head line to sit on; a header that counts no head line takes no
comment on the ones its hunk has. -/
theorem locate_outside_hunks :
    (locate "x".toList (some gained) (some "a\nx\n".toList) =
        .anchored ⟨2, 2, .new, .wholeFile, false⟩ ∧ gained.withinHunk 2 2 = false) ∧
      (locate "x".toList (some lost) none = .anchored ⟨2, 2, .old, .hunk, false⟩ ∧
        ∀ hunk ∈ lost.hunks, hunk.numbersOn .new = []) ∧
      locate "x".toList (some miscounted) none = .anchored ⟨1, 1, .new, .hunk, false⟩ ∧
        miscounted.withinHunk 1 1 = false := by
  decide +kernel

end TinySweeper.Position
