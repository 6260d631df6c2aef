import TinySweeper.Evidence.Diff

/-!
# The line numbers of parsed hunks

Whatever text a patch holds, the lines of a parsed hunk are numbered one after
the other on each side, from where the hunk's header says the side starts.
-/

namespace TinySweeper.Evidence

open Text

def Hunk.startOn (hunk : Hunk) : Side → ℕ
  | .new => hunk.newStart
  | .old => hunk.oldStart

/-- The numbers of a hunk's lines on one side, in order. -/
def Hunk.numbersOn (hunk : Hunk) (side : Side) : List ℕ :=
  hunk.lines.filterMap fun line => line.lineOn side

structure Hunk.Numbered (hunk : Hunk) : Prop where
  numbers : ∀ side, hunk.numbersOn side =
    List.range' (hunk.startOn side) (hunk.numbersOn side).length
  sides : ∀ line ∈ hunk.lines, ∀ side, (line.lineOn side).isSome = line.kind.isOn side

namespace ParseState

def next (s : ParseState) : Side → ℕ
  | .new => s.newLine
  | .old => s.oldLine

/-- The hunk being read is numbered up to the next line of each side. -/
structure Numbered (s : ParseState) : Prop where
  finished : ∀ hunk ∈ s.diff.hunks, hunk.Numbered
  current : ∀ hunk, s.current = some hunk → hunk.Numbered ∧
    ∀ side, s.next side = hunk.startOn side + (hunk.numbersOn side).length

variable {s : ParseState}

theorem Numbered.flush (hs : s.Numbered) : ∀ hunk ∈ s.flush.hunks, hunk.Numbered := by
  intro hunk hhunk
  unfold ParseState.flush at hhunk
  cases hcurrent : s.current with
  | none =>
    rw [hcurrent] at hhunk
    exact hs.finished hunk hhunk
  | some reading =>
    rw [hcurrent] at hhunk
    rcases List.mem_append.mp hhunk with hfinished | hlast
    · exact hs.finished hunk hfinished
    · rw [List.mem_singleton.mp hlast]
      exact (hs.current reading hcurrent).1

end ParseState

theorem parseHunkHeader_lines {raw : Text} {header : Hunk} (h : parseHunkHeader raw = some header) :
    header.lines = [] := by
  unfold parseHunkHeader at h
  split at h
  · split at h
    · cases h
    · dsimp only at h
      split at h
      · cases h
        rfl
      · cases h
  · cases h

/-- A line pushed onto a numbered hunk takes the next number of each side it is on. -/
theorem pushLine_current (s : ParseState) (hunk : Hunk) (kind : LineKind) (text : Text) :
    ∃ line : DiffLine, line.kind = kind ∧
      (∀ side, line.lineOn side = if kind.isOn side then some (s.next side) else none) ∧
      (pushLine s hunk kind text).current = some { hunk with lines := hunk.lines ++ [line] } ∧
      ∀ side, (pushLine s hunk kind text).next side =
        if kind.isOn side then s.next side + 1 else s.next side := by
  cases kind with
  | context =>
    refine ⟨⟨.context, some s.newLine, some s.oldLine, text⟩, rfl, ?_, rfl, ?_⟩
    · intro side
      cases side <;> rfl
    · intro side
      cases side <;> rfl
  | added =>
    refine ⟨⟨.added, some s.newLine, none, text⟩, rfl, ?_, rfl, ?_⟩
    · intro side
      cases side <;> rfl
    · intro side
      cases side <;> rfl
  | removed =>
    refine ⟨⟨.removed, none, some s.oldLine, text⟩, rfl, ?_, rfl, ?_⟩
    · intro side
      cases side <;> rfl
    · intro side
      cases side <;> rfl

theorem pushLine_hunks (s : ParseState) (hunk : Hunk) (kind : LineKind) (text : Text) :
    (pushLine s hunk kind text).diff.hunks = s.diff.hunks := by
  cases kind <;> rfl

theorem ParseState.Numbered.pushLine {s : ParseState} (hs : s.Numbered) {hunk : Hunk}
    (hcurrent : s.current = some hunk) (kind : LineKind) (text : Text) :
    (pushLine s hunk kind text).Numbered := by
  obtain ⟨hnumbered, hnext⟩ := hs.current hunk hcurrent
  obtain ⟨line, hkind, hline, hpushed, hnextLine⟩ := pushLine_current s hunk kind text
  have hnumbers : ∀ side, ({ hunk with lines := hunk.lines ++ [line] } : Hunk).numbersOn side =
      hunk.numbersOn side ++ if kind.isOn side then [s.next side] else [] := by
    intro side
    unfold Hunk.numbersOn
    rw [List.filterMap_append]
    by_cases hon : kind.isOn side = true
    · simp [hline, hon]
    · simp [hline, hon]
  constructor
  · rw [pushLine_hunks]
    exact hs.finished
  · intro pushed hpush
    rw [hpushed] at hpush
    cases hpush
    have hstart : ∀ side, ({ hunk with lines := hunk.lines ++ [line] } : Hunk).startOn side =
        hunk.startOn side := by
      intro side
      cases side <;> rfl
    constructor
    · constructor
      · intro side
        rw [hnumbers, hstart, List.length_append]
        by_cases hon : kind.isOn side = true
        · rw [if_pos hon, List.length_singleton, List.range'_concat, ← hnumbered.numbers,
            hnext side, Nat.one_mul]
        · rw [if_neg hon, List.append_nil]
          exact hnumbered.numbers side
      · intro other hother side
        rcases List.mem_append.mp hother with hold | hnew
        · exact hnumbered.sides other hold side
        · rw [List.mem_singleton.mp hnew, hline, hkind]
          by_cases hon : kind.isOn side = true
          · simp [hon]
          · simp [hon]
    · intro side
      rw [hnextLine, hnumbers, hstart, List.length_append, hnext]
      by_cases hon : kind.isOn side = true
      · simp [hon, Nat.add_assoc]
      · simp [hon]

theorem ParseState.Numbered.parseLine {s : ParseState} (hs : s.Numbered) (raw : Text) :
    (parseLine s raw).Numbered := by
  unfold Evidence.parseLine
  split_ifs with hheader
  · cases hparse : parseHunkHeader raw with
    | none =>
      constructor
      · exact hs.flush
      · intro hunk hnone
        cases hnone
    | some header =>
      have hlines := parseHunkHeader_lines hparse
      have hnone : ∀ side, header.numbersOn side = [] := by
        intro side
        rw [Hunk.numbersOn, hlines, List.filterMap_nil]
      constructor
      · exact hs.flush
      · intro hunk hcurrent
        cases hcurrent
        constructor
        · constructor
          · intro side
            rw [hnone]
            rfl
          · rw [hlines]
            simp
        · intro side
          rw [hnone]
          cases side <;> rfl
  · cases hcurrent : s.current with
    | none => exact hs
    | some hunk =>
      cases hmarker : splitMarker raw with
      | none => exact hs
      | some marked => exact hs.pushLine hcurrent marked.1 marked.2

/-- The hunks of any parsed patch are numbered. -/
theorem parseFilePatch_numbered {path patch : Text} {hunk : Hunk}
    (hhunk : hunk ∈ (parseFilePatch path patch).hunks) : hunk.Numbered := by
  have hrun : ∀ (raws : List Text) (s : ParseState), s.Numbered →
      (raws.foldl parseLine s).Numbered := by
    intro raws
    induction raws with
    | nil =>
      intro s hs
      exact hs
    | cons raw raws ih =>
      intro s hs
      exact ih _ (hs.parseLine raw)
  apply (hrun (lines patch) _ _).flush hunk hhunk
  constructor
  · intro hunk hnone
    cases hnone
  · intro hunk hnone
    cases hnone

/-- A hunk that has head lines, and whose header counts them, takes comments on them. -/
theorem Hunk.Numbered.withinHunk {diff : FileDiff} {hunk : Hunk} (hnumbered : hunk.Numbered)
    (hhunk : hunk ∈ diff.hunks) (hcount : hunk.newLines = (hunk.numbersOn .new).length)
    {start stop : ℕ} (hstart : start ∈ hunk.numbersOn .new) (hstop : stop ∈ hunk.numbersOn .new)
    (hle : start ≤ stop) : diff.withinHunk start stop = true := by
  rw [hnumbered.numbers, List.mem_range'_1, Hunk.startOn, ← hcount] at hstart hstop
  unfold FileDiff.withinHunk
  rw [if_pos hle]
  apply List.any_eq_true.mpr
  refine ⟨hunk, hhunk, ?_⟩
  rw [if_neg (by omega)]
  simp only [Bool.and_eq_true, decide_eq_true_eq]
  omega

end TinySweeper.Evidence
