import TinySweeper.Evidence.Numbering
import TinySweeper.Findings.Suggest

/-!
# Suggestions that are safe to commit

A block that comes out covers lines of the diff, keeps what the model wrote and
has the block's own base indentation, unless its indents are of a few odd kinds.
-/

namespace TinySweeper.Suggest

open Text Evidence Findings

variable {κ : Type} {f : Finding κ} {diffs : List FileDiff}

/-- The diff's lines are lines, as a parser cuts them. -/
def LineByLine (diffs : List FileDiff) : Prop :=
  ∀ d ∈ diffs, ∀ hunk ∈ d.hunks, ∀ line ∈ hunk.lines, '\n' ∉ line.text

/-- The finding has a replacement and a range a block could be made of. -/
structure Offered (f : Finding κ) (replacement : Text) (start stop : ℕ) : Prop where
  suggestion : f.suggestion = some replacement
  unblank : isBlank replacement = false
  unfenced : ¬ "```".toList <:+: replacement
  range : f.range = some (start, stop)

/-- All of the range is in the diff, and the replacement is no longer than it. -/
structure Covered (f : Finding κ) (diffs : List FileDiff) (replacement : Text) (start stop : ℕ)
    (original : List Text) : Prop where
  offered : Offered f replacement start stop
  ordered : start ≤ stop
  countable : stop - start + 1 < 2 ^ 64
  fits : (lines replacement).length ≤ stop - start + 1
  replaced : ∃ diff, diffs.find? (fun d => d.path = f.path) = some diff ∧
    replacedLines diff start stop = some original

theorem lines_ne_nil {text : Text} (h : text ≠ []) : lines text ≠ [] := by
  intro hnil
  have hflat : (splitInclusive '\n' text).flatten = text := splitInclusive_flatten text
  rw [List.map_eq_nil_iff.mp hnil] at hflat
  exact h hflat.symm

/-- A block is refused, its range cannot be counted, or it is reindented. -/
theorem applicable_cases (f : Finding κ) (diffs : List FileDiff) :
    applicable f diffs = some none ∨
      (∃ replacement start stop, Offered f replacement start stop ∧ start ≤ stop ∧
        2 ^ 64 ≤ stop - start + 1 ∧ applicable f diffs = none) ∨
      ∃ replacement start stop original, Covered f diffs replacement start stop original ∧
        applicable f diffs =
          (reindent replacement original).map fun text => some ⟨start, stop, text⟩ := by
  unfold applicable
  split
  · exact .inl rfl
  next replacement hsuggestion =>
  split
  · exact .inl rfl
  next hblank =>
  split
  · exact .inl rfl
  next hfence =>
  split
  · exact .inl rfl
  next start stop hrange =>
  have hoffered : Offered f replacement start stop :=
    ⟨hsuggestion, by simpa using hblank, fun h => hfence (contains_iff.mpr h), hrange⟩
  -- A blank replacement is refused before its lines are counted.
  have hlines : lines replacement ≠ [] := by
    refine lines_ne_nil ?_
    rintro rfl
    exact hblank rfl
  unfold rangeCount
  by_cases hordered : start ≤ stop
  · rw [if_pos hordered]
    by_cases hcount : stop - start + 1 < 2 ^ 64
    · rw [if_pos hcount]
      dsimp only
      split
      · exact .inl rfl
      next hfits =>
      split
      · exact .inl rfl
      next diff hdiff =>
      split
      · exact .inl rfl
      next original horiginal =>
      exact .inr (.inr ⟨replacement, start, stop, original,
        ⟨hoffered, hordered, hcount, Nat.not_lt.mp hfits, diff, hdiff, horiginal⟩, rfl⟩)
    · rw [if_neg hcount]
      exact .inr (.inl ⟨replacement, start, stop, hoffered, hordered, Nat.not_lt.mp hcount, rfl⟩)
  · rw [if_neg hordered]
    dsimp only
    rw [if_pos (List.length_pos_iff.mpr hlines)]
    exact .inl rfl

/-- A covered block is reindented. -/
theorem Covered.applicable_eq {replacement : Text} {start stop : ℕ} {original : List Text}
    (h : Covered f diffs replacement start stop original) : applicable f diffs =
      (reindent replacement original).map fun text => some ⟨start, stop, text⟩ := by
  obtain ⟨diff, hdiff, horiginal⟩ := h.replaced
  have hfence : ¬ contains replacement "```".toList = true := fun hfence =>
    h.offered.unfenced (contains_iff.mp hfence)
  have hcount : rangeCount start stop = some (stop - start + 1) := by
    rw [rangeCount, if_pos h.ordered, if_pos h.countable]
  simp only [applicable, h.offered.suggestion, h.offered.unblank, Bool.false_eq_true, if_false,
    hfence, h.offered.range, hcount, Nat.not_lt.mpr h.fits, hdiff, horiginal]

/-- A range that no machine word counts panics. -/
theorem applicable_of_endless {replacement : Text} {start stop : ℕ}
    (h : Offered f replacement start stop) (hordered : start ≤ stop)
    (hcount : 2 ^ 64 ≤ stop - start + 1) : applicable f diffs = none := by
  have hfence : ¬ contains replacement "```".toList = true := fun hfence =>
    h.unfenced (contains_iff.mp hfence)
  have hrange : rangeCount start stop = none := by
    rw [rangeCount, if_pos hordered, if_neg (Nat.not_lt.mpr hcount)]
  simp only [applicable, h.suggestion, h.unblank, Bool.false_eq_true, if_false, hfence, h.range,
    hrange]

/-- The diff of the finding's file. -/
def fileDiff (f : Finding κ) (diffs : List FileDiff) : Option FileDiff :=
  diffs.find? fun d => d.path = f.path

/-- One prefix in front of every line that is not blank; blank lines and all line breaks stay. -/
def IndentedBy (missing text moved : Text) : Prop :=
  List.Forall₂ (fun line written =>
      (∀ c ∈ line, isWhitespace c = true) ∧ written = line ∨
        (∃ c ∈ line, isWhitespace c = false) ∧ written = missing ++ line)
    (splitInclusive '\n' text) (splitInclusive '\n' moved)

/-- A line break ends the text, or follows a carriage return. -/
def LosesBreak (text : Text) : Prop :=
  ∃ before after, text = before ++ '\n' :: after ∧ (after = [] ∨ before.getLast? = some '\r')

/-- What one click may commit. -/
structure Committable (f : Finding κ) (diffs : List FileDiff) (s : Suggestion) : Prop where
  nonempty : s.startLine ≤ s.endLine
  inDiff : ∃ diff, fileDiff f diffs = some diff ∧
    ∀ line, s.startLine ≤ line → line ≤ s.endLine → ∃ hunk ∈ diff.hunks,
      ∃ candidate ∈ hunk.lines, candidate.kind ≠ .removed ∧ candidate.newLine = some line
  fits : (lines s.replacement).length ≤ s.endLine - s.startLine + 1
  unfenced : ¬ "```".toList <:+: s.replacement
  reindented : ∃ replacement missing, f.suggestion = some replacement ∧
    (∀ c ∈ missing, isWhitespace c = true) ∧ IndentedBy missing replacement s.replacement
  aligned : ∀ replacement diff original target current, f.suggestion = some replacement →
    fileDiff f diffs = some diff → replacedLines diff s.startLine s.endLine = some original →
    commonIndent original = some target → commonIndent (lines replacement) = some current →
    current <+: target → commonIndent (lines s.replacement) = some target
  stable : ∀ diff original, fileDiff f diffs = some diff →
    replacedLines diff s.startLine s.endLine = some original →
    reindent s.replacement original = some s.replacement

/-- No panic, and a block that comes out can be committed. -/
def Safe (f : Finding κ) (diffs : List FileDiff) : Prop :=
  ∃ outcome, applicable f diffs = some outcome ∧ ∀ s, outcome = some s → Committable f diffs s

/-- The blocks that go wrong: a range too long to count, indents of the block or of the
replacement that clash, a shortfall that does not commute with what is there, and one that is
made up for by joining lines whose breaks that does not bring back. -/
inductive Spoiled (f : Finding κ) (diffs : List FileDiff) : Prop where
  | endless (replacement : Text) (start stop : ℕ) (h : Offered f replacement start stop)
      (hordered : start ≤ stop) (hcount : 2 ^ 64 ≤ stop - start + 1)
  | clash (replacement : Text) (start stop : ℕ) (original : List Text)
      (h : Covered f diffs replacement start stop original) (hclash : Clash original)
  | clashInside (replacement : Text) (start stop : ℕ) (original : List Text) (target : Text)
      (h : Covered f diffs replacement start stop original)
      (htarget : commonIndent original = some target) (hne : target ≠ [])
      (hclash : Clash (lines replacement))
  | swapped (replacement : Text) (start stop : ℕ) (original : List Text) (current missing : Text)
      (h : Covered f diffs replacement start stop original)
      (htarget : commonIndent original = some (current ++ missing))
      (hcurrent : commonIndent (lines replacement) = some current)
      (hswap : missing ++ current ≠ current ++ missing)
  | rebroken (replacement : Text) (start stop : ℕ) (original : List Text) (current missing : Text)
      (h : Covered f diffs replacement start stop original)
      (htarget : commonIndent original = some (current ++ missing))
      (hcurrent : commonIndent (lines replacement) = some current) (hmissing : missing ≠ [])
      (hbreaks : LosesBreak replacement)

section Breaks

variable {missing raw rest text : Text}

/-- A line's own break loses nothing where more text follows and no carriage return precedes. -/
theorem losesBreak_append (hraw : '\n' ∉ raw) : LosesBreak (raw ++ '\n' :: rest) ↔
    rest = [] ∨ raw.getLast? = some '\r' ∨ LosesBreak rest := by
  constructor
  · rintro ⟨before, after, hsplit, hlost⟩
    rcases List.append_eq_append_iff.mp hsplit with ⟨more, rfl, hmore⟩ | ⟨more, rfl, hmore⟩
    · cases more with
      | nil =>
        obtain ⟨-, rfl⟩ := List.cons.inj hmore
        rw [List.append_nil] at hlost
        exact hlost.imp_right .inl
      | cons c more =>
        obtain ⟨rfl, rfl⟩ := List.cons.inj hmore
        refine .inr (.inr ⟨more, after, rfl, hlost.imp_right fun hlast => ?_⟩)
        rw [List.getLast?_append, List.getLast?_cons] at hlast
        cases hmore : more.getLast? with
        | none => simp [hmore] at hlast
        | some d => simpa [hmore] using hlast
    · cases more with
      | nil =>
        obtain ⟨-, rfl⟩ := List.cons.inj hmore
        rw [List.append_nil]
        exact hlost.imp_right .inl
      | cons c more =>
        obtain ⟨rfl, -⟩ := List.cons.inj hmore
        exact absurd (by simp) hraw
  · rintro (rfl | hlast | ⟨before, after, rfl, hlost⟩)
    · exact ⟨raw, [], rfl, .inl rfl⟩
    · exact ⟨raw, rest, rfl, .inr hlast⟩
    · refine ⟨raw ++ '\n' :: before, after, by simp, hlost.imp_right fun hlast => ?_⟩
      rw [List.getLast?_append, List.getLast?_cons, hlast]
      rfl

theorem not_losesBreak_of_notMem (hraw : '\n' ∉ raw) : ¬ LosesBreak raw := by
  rintro ⟨before, after, rfl, -⟩
  exact hraw (by simp)

theorem indented_of_notMem (missing : Text) (hraw : '\n' ∉ raw) :
    indented missing raw = indentLine missing raw := by
  by_cases hempty : raw = []
  · rw [hempty]
    rfl
  · rw [indented, lines_of_notMem hraw hempty, List.map_singleton, List.intercalate_singleton]

theorem indented_append (missing : Text) (hraw : '\n' ∉ raw) (hrest : rest ≠ []) :
    indented missing (raw ++ '\n' :: rest) =
      indentLine missing (chomp raw) ++ '\n' :: indented missing rest := by
  rw [indented, lines_append hraw, List.map_cons, List.intercalate_cons_of_ne_nil]
  · rw [List.append_assoc]
    rfl
  · simpa using lines_ne_nil hrest

theorem notMem_indentLine (hmissing : '\n' ∉ missing) {line : Text} (hline : '\n' ∉ line) :
    '\n' ∉ indentLine missing line := by
  unfold indentLine
  split
  · exact hline
  · exact fun hmem => (List.mem_append.mp hmem).elim hmissing hline

theorem isBlank_eq_false_iff {line : Text} :
    isBlank line = false ↔ ∃ c ∈ line, isWhitespace c = false := by
  rw [← Bool.not_eq_true, isBlank_iff]
  simp only [not_forall, Bool.not_eq_true, exists_prop]

theorem indentedBy_nil (text : Text) : IndentedBy [] text text := by
  refine List.forall₂_same.mpr fun line _ => ?_
  cases hblank : isBlank line with
  | true => exact .inl ⟨isBlank_iff.mp hblank, rfl⟩
  | false => exact .inr ⟨isBlank_eq_false_iff.mp hblank, rfl⟩

/-- Joined again, lines without carriage returns are the text without a last line break. -/
theorem indentedBy_indented (hmissing : '\n' ∉ missing) (h : ¬ LosesBreak text) :
    IndentedBy missing text (indented missing text) := by
  induction text using lines_induction with
  | last raw hraw =>
    rw [indented_of_notMem missing hraw, IndentedBy]
    by_cases hempty : raw = []
    · rw [hempty]
      exact .nil
    · unfold indentLine
      cases hblank : isBlank raw with
      | true =>
        rw [if_pos rfl, splitInclusive_of_notMem hraw hempty]
        exact .cons (.inl ⟨isBlank_iff.mp hblank, rfl⟩) .nil
      | false =>
        rw [if_neg Bool.false_ne_true, splitInclusive_of_notMem hraw hempty,
          splitInclusive_of_notMem (by simp [hmissing, hraw]) (by simp [hempty])]
        exact .cons (.inr ⟨isBlank_eq_false_iff.mp hblank, rfl⟩) .nil
  | line raw rest hraw ih =>
    rw [losesBreak_append hraw, not_or, not_or] at h
    obtain ⟨hrest, hlast, hlater⟩ := h
    have hchomp : chomp raw = raw := if_neg hlast
    rw [indented_append missing hraw hrest, IndentedBy, hchomp, splitInclusive_append hraw,
      splitInclusive_append (notMem_indentLine hmissing hraw)]
    refine .cons ?_ (ih hlater)
    unfold indentLine
    cases hblank : isBlank raw with
    | true =>
      refine .inl ⟨fun c hc => ?_, rfl⟩
      rcases List.mem_append.mp hc with hc | hc
      · exact isBlank_iff.mp hblank c hc
      · rw [List.mem_singleton.mp hc]
        decide
    | false =>
      obtain ⟨c, hc, hwhite⟩ := isBlank_eq_false_iff.mp hblank
      exact .inr ⟨⟨c, List.mem_append_left _ hc, hwhite⟩, List.append_assoc _ _ _⟩

/-- A carriage return before a line break is dropped, so no indented line keeps it. -/
theorem getLast?_ne_of_indentLine (hmissing : ∀ c ∈ missing, isWhitespace c = true) {other : Text}
    (hother : ∀ c ∈ other, isWhitespace c = true)
    (h : (∀ c ∈ raw ++ ['\n'], isWhitespace c = true) ∧
        indentLine missing (chomp raw) ++ ['\n'] = raw ++ ['\n'] ∨
      (∃ c ∈ raw ++ ['\n'], isWhitespace c = false) ∧
        indentLine missing (chomp raw) ++ ['\n'] = other ++ (raw ++ ['\n'])) :
    raw.getLast? ≠ some '\r' := by
  intro hlast
  obtain ⟨line, rfl⟩ := List.getLast?_eq_some_iff.mp hlast
  have hchomp : chomp (line ++ ['\r']) = line := by rw [chomp, if_pos hlast, List.dropLast_concat]
  rw [hchomp, indentLine] at h
  rcases h with ⟨hwhite, heq⟩ | ⟨⟨c, hc, hblack⟩, heq⟩
  · have hblank : isBlank line = true := isBlank_iff.mpr fun c hc => hwhite c (by simp [hc])
    rw [if_pos hblank] at heq
    have hlength := congrArg List.length heq
    simp only [List.length_append, List.length_singleton] at hlength
    omega
  · have hmem : c ∈ line := by
      simp only [List.mem_append, List.mem_singleton] at hc
      rcases hc with (hc | rfl) | rfl
      · exact hc
      · exact absurd hblack (by decide)
      · exact absurd hblack (by decide)
    have hblank : isBlank line = false := isBlank_eq_false_iff.mpr ⟨c, hmem, hblack⟩
    rw [if_neg (by simp [hblank]), ← List.append_assoc] at heq
    have hline := List.append_cancel_right heq
    have hstop : indentOf (line ++ ['\r']) = indentOf line := by
      rw [indentOf, List.takeWhile_append, if_neg fun hall => ?_, indentOf]
      have htake := (List.takeWhile_prefix _).eq_of_length hall
      rw [← htake] at hmem
      rw [(List.mem_takeWhile_imp hmem :)] at hblack
      cases hblack
    -- Both prefixes stand before the same first black character.
    have hindent := congrArg (List.length ∘ indentOf) hline
    have hlength := congrArg List.length hline
    simp only [Function.comp_apply, indentOf_append hmissing, indentOf_append hother, hstop,
      List.length_append, List.length_singleton] at hindent hlength
    omega

theorem not_losesBreak_of_indentedBy (hmissing : ∀ c ∈ missing, isWhitespace c = true)
    (hnewline : '\n' ∉ missing) {other : Text} (hother : ∀ c ∈ other, isWhitespace c = true)
    (h : IndentedBy other text (indented missing text)) : ¬ LosesBreak text := by
  induction text using lines_induction with
  | last raw hraw => exact not_losesBreak_of_notMem hraw
  | line raw rest hraw ih =>
    rw [losesBreak_append hraw, not_or, not_or]
    have hchomp : '\n' ∉ chomp raw := fun hmem => by
      unfold chomp at hmem
      split at hmem
      · exact hraw (List.dropLast_subset raw hmem)
      · exact hraw hmem
    have hfirst := notMem_indentLine hnewline hchomp
    rw [IndentedBy, splitInclusive_append hraw] at h
    by_cases hrest : rest = []
    · -- The last line break is not there any more.
      rw [hrest, indented, lines_append hraw, show lines [] = [] from rfl, List.map_singleton,
        List.intercalate_singleton] at h
      exfalso
      by_cases hempty : indentLine missing (chomp raw) = []
      · rw [hempty] at h
        cases h
      · rw [splitInclusive_of_notMem hfirst hempty] at h
        obtain ⟨⟨_, heq⟩ | ⟨_, heq⟩, _⟩ := List.forall₂_cons.mp h
        all_goals
          rw [heq] at hfirst
          exact hfirst (by simp)
    · rw [indented_append missing hraw hrest, splitInclusive_append hfirst,
        List.forall₂_cons] at h
      exact ⟨hrest, getLast?_ne_of_indentLine hmissing hother h.1, ih h.2⟩

end Breaks

section Covered

variable {replacement : Text} {start stop : ℕ} {original : List Text}

/-- The block of a suggestion is the one it was made from. -/
theorem Covered.original_eq (h : Covered f diffs replacement start stop original)
    {diff : FileDiff} {other : List Text} (hdiff : fileDiff f diffs = some diff)
    (hother : replacedLines diff start stop = some other) : other = original := by
  obtain ⟨diff', hdiff', horiginal⟩ := h.replaced
  obtain rfl : diff = diff' := Option.some.inj (hdiff.symm.trans hdiff')
  exact Option.some.inj (hother.symm.trans horiginal)

theorem mem_of_headLine {diff : FileDiff} {line : ℕ} {text : Text}
    (h : headLine diff line = some text) : ∃ hunk ∈ diff.hunks, ∃ candidate ∈ hunk.lines,
      candidate.kind ≠ .removed ∧ candidate.newLine = some line ∧ candidate.text = text := by
  obtain ⟨candidate, hfind, rfl⟩ := Option.map_eq_some_iff.mp h
  obtain ⟨hunk, hhunk, hcandidate⟩ := List.mem_flatMap.mp (List.mem_of_find?_eq_some hfind)
  have hside := List.find?_some hfind
  simp only [Bool.and_eq_true, decide_eq_true_eq, ne_eq] at hside
  exact ⟨hunk, hhunk, candidate, hcandidate, hside.1, hside.2, rfl⟩

/-- Where all of a list is found, every element is, and nothing else. -/
theorem of_mapM_eq_some {α β : Type} {find : α → Option β} {l : List α} {found : List β}
    (h : l.mapM find = some found) :
    (∀ a ∈ l, ∃ b, find a = some b) ∧ ∀ b ∈ found, ∃ a ∈ l, find a = some b := by
  induction l generalizing found with
  | nil =>
    obtain rfl : [] = found := Option.some.inj h
    simp
  | cons a l ih =>
    rw [List.mapM_cons] at h
    obtain ⟨b, hb, h⟩ := Option.bind_eq_some_iff.mp h
    obtain ⟨rest, hrest, h⟩ := Option.bind_eq_some_iff.mp h
    obtain rfl := Option.some.inj h
    obtain ⟨hall, honly⟩ := ih hrest
    constructor
    · intro x hx
      rcases List.mem_cons.mp hx with rfl | hx
      · exact ⟨b, hb⟩
      · exact hall x hx
    · intro y hy
      rcases List.mem_cons.mp hy with rfl | hy
      · exact ⟨a, List.mem_cons_self, hb⟩
      · obtain ⟨x, hx, hxy⟩ := honly y hy
        exact ⟨x, List.mem_cons_of_mem a hx, hxy⟩

theorem Covered.inDiff (h : Covered f diffs replacement start stop original) :
    ∃ diff, fileDiff f diffs = some diff ∧ ∀ line, start ≤ line → line ≤ stop →
      ∃ hunk ∈ diff.hunks, ∃ candidate ∈ hunk.lines,
        candidate.kind ≠ .removed ∧ candidate.newLine = some line := by
  obtain ⟨diff, hdiff, horiginal⟩ := h.replaced
  refine ⟨diff, hdiff, fun line hstart hstop => ?_⟩
  have hmem : line ∈ List.range' start (stop + 1 - start) := by
    rw [List.mem_range'_1]
    omega
  obtain ⟨text, htext⟩ := (of_mapM_eq_some horiginal).1 line hmem
  obtain ⟨hunk, hhunk, candidate, hcandidate, hkind, hline, -⟩ := mem_of_headLine htext
  exact ⟨hunk, hhunk, candidate, hcandidate, hkind, hline⟩

theorem Covered.newlineFree (h : Covered f diffs replacement start stop original)
    (hdiffs : LineByLine diffs) : ∀ line ∈ original, '\n' ∉ line := by
  intro line hline
  obtain ⟨diff, hdiff, horiginal⟩ := h.replaced
  obtain ⟨number, -, hnumber⟩ := (of_mapM_eq_some horiginal).2 line hline
  obtain ⟨hunk, hhunk, candidate, hcandidate, -, -, rfl⟩ := mem_of_headLine hnumber
  exact hdiffs diff (List.mem_of_find?_eq_some hdiff) hunk hhunk candidate hcandidate

/-- What is missing of the block's indentation is whitespace within a line. -/
theorem Covered.shortfall (h : Covered f diffs replacement start stop original)
    (hdiffs : LineByLine diffs) {current missing : Text}
    (htarget : commonIndent original = some (current ++ missing)) :
    (∀ c ∈ missing, isWhitespace c = true) ∧ '\n' ∉ missing :=
  ⟨fun c hc => whitespace_of_commonIndent htarget c (List.mem_append_right current hc),
    fun hmem => newlineFree_of_commonIndent (h.newlineFree hdiffs) htarget
      (List.mem_append_right current hmem)⟩

/-- Where something is missing, a block that comes out has it in front of its lines. -/
theorem Covered.outcome_eq (h : Covered f diffs replacement start stop original)
    {current missing : Text} (htarget : commonIndent original = some (current ++ missing))
    (hcurrent : commonIndent (lines replacement) = some current) (hne : missing ≠ [])
    {outcome : Option Suggestion} (houtcome : applicable f diffs = some outcome) :
    outcome = some ⟨start, stop, indented missing replacement⟩ := by
  have hcases := reindents replacement original
  rw [h.applicable_eq] at houtcome
  generalize reindent replacement original = result at hcases houtcome
  cases hcases with
  | clash => cases houtcome
  | clashInside => cases houtcome
  | kept _ hkept =>
    have heq := hkept _ current htarget hcurrent (List.prefix_append _ _)
    exact absurd (List.self_eq_append_right.mp heq) hne
  | moved current' missing' _ _ ht hc =>
    obtain rfl := Option.some.inj (hcurrent.symm.trans hc)
    obtain rfl := List.append_cancel_left (Option.some.inj (htarget.symm.trans ht))
    exact (Option.some.inj houtcome).symm

/-- A replacement left as it is can be committed. -/
theorem Covered.committable_kept (h : Covered f diffs replacement start stop original)
    (hsame : reindent replacement original = some replacement)
    (hkept : ∀ target current, commonIndent original = some target →
      commonIndent (lines replacement) = some current → current <+: target → current = target) :
    Committable f diffs ⟨start, stop, replacement⟩ := by
  constructor
  · exact h.ordered
  · exact h.inDiff
  · exact h.fits
  · exact h.offered.unfenced
  · exact ⟨replacement, [], h.offered.suggestion, by simp, indentedBy_nil replacement⟩
  · intro replacement' diff other target current hsuggestion hdiff hother htarget hcurrent hleading
    obtain rfl := Option.some.inj (hsuggestion.symm.trans h.offered.suggestion)
    obtain rfl := h.original_eq hdiff hother
    rw [hcurrent, hkept target current htarget hcurrent hleading]
  · intro diff other hdiff hother
    obtain rfl := h.original_eq hdiff hother
    exact hsame

section Moved

variable {current missing : Text}

theorem newlineFree_indented (hnewline : '\n' ∉ missing) :
    ∀ line ∈ (lines replacement).map (indentLine missing), '\n' ∉ line := by
  intro line hline
  obtain ⟨raw, hraw, rfl⟩ := List.mem_map.mp hline
  exact notMem_indentLine hnewline (notMem_of_mem_lines hraw)

theorem indents_indented (hmissing : ∀ c ∈ missing, isWhitespace c = true)
    (hnewline : '\n' ∉ missing) : indents (lines (indented missing replacement)) =
      (indents (lines replacement)).map (missing ++ ·) := by
  rw [indented, indents_lines_join (newlineFree_indented hnewline), indents_indentLine hmissing]

theorem unfenced_indented (hmissing : ∀ c ∈ missing, isWhitespace c = true)
    (h : ¬ "```".toList <:+: replacement) : ¬ "```".toList <:+: indented missing replacement := by
  refine not_infix_join (by decide) (by decide) fun line hline hfence => ?_
  obtain ⟨raw, hraw, rfl⟩ := List.mem_map.mp hline
  unfold indentLine at hfence
  split at hfence
  · exact h (hfence.trans (infix_of_mem_lines hraw))
  · exact h ((fence_of_indented hmissing hfence).trans (infix_of_mem_lines hraw))

/-- What was reindented once is left as it is. -/
theorem reindent_indented (hmissing : ∀ c ∈ missing, isWhitespace c = true)
    (hnewline : '\n' ∉ missing) (hwhole : ¬ Clash original) (hinside : ¬ Clash (lines replacement))
    (htarget : commonIndent original = some (current ++ missing))
    (hcurrent : commonIndent (lines replacement) = some current) :
    reindent (indented missing replacement) original = some (indented missing replacement) := by
  have hindents := @indents_indented replacement missing hmissing hnewline
  have hbase := commonIndent_of_indents hindents
  rw [hcurrent, Option.map_some] at hbase
  have hcases := reindents (indented missing replacement) original
  generalize hresult : reindent (indented missing replacement) original = result at hcases ⊢
  cases hcases with
  | clash h => exact absurd h hwhole
  | clashInside target ht hne h => exact absurd (clash_of_indents hindents h) hinside
  | kept h hkept => rfl
  | moved current' missing' h hinner ht hc hne =>
    -- The base indentation is already as long as the block's.
    obtain rfl := Option.some.inj (hbase.symm.trans hc)
    have hlength := congrArg List.length (Option.some.inj (htarget.symm.trans ht))
    have hpos := List.length_pos_iff.mpr hne
    simp only [List.length_append] at hlength
    omega

theorem Covered.committable_moved (h : Covered f diffs replacement start stop original)
    (hdiffs : LineByLine diffs) (hwhole : ¬ Clash original) (hinside : ¬ Clash (lines replacement))
    (htarget : commonIndent original = some (current ++ missing))
    (hcurrent : commonIndent (lines replacement) = some current)
    (hswap : missing ++ current = current ++ missing) (hbreaks : ¬ LosesBreak replacement) :
    Committable f diffs ⟨start, stop, indented missing replacement⟩ := by
  obtain ⟨hmissing, hnewline⟩ := h.shortfall hdiffs htarget
  constructor
  · exact h.ordered
  · exact h.inDiff
  · refine (length_lines_join (newlineFree_indented hnewline)).trans ?_
    rw [List.length_map]
    exact h.fits
  · exact unfenced_indented hmissing h.offered.unfenced
  · exact ⟨replacement, missing, h.offered.suggestion, hmissing,
      indentedBy_indented hnewline hbreaks⟩
  · intro replacement' diff other target current' hsuggestion hdiff hother ht hc hleading
    obtain rfl := Option.some.inj (hsuggestion.symm.trans h.offered.suggestion)
    obtain rfl := h.original_eq hdiff hother
    obtain rfl := Option.some.inj (hcurrent.symm.trans hc)
    rw [commonIndent_of_indents (indents_indented hmissing hnewline), hcurrent, Option.map_some,
      hswap, ← ht, htarget]
  · intro diff other hdiff hother
    obtain rfl := h.original_eq hdiff hother
    exact reindent_indented hmissing hnewline hwhole hinside htarget hcurrent

end Moved

end Covered

/-- A shortfall that does not commute gives the block another base indentation. -/
theorem not_committable_of_swapped {replacement : Text} {start stop : ℕ} {original : List Text}
    {current missing : Text} (h : Covered f diffs replacement start stop original)
    (hdiffs : LineByLine diffs) (htarget : commonIndent original = some (current ++ missing))
    (hcurrent : commonIndent (lines replacement) = some current)
    (hswap : missing ++ current ≠ current ++ missing) :
    ¬ Committable f diffs ⟨start, stop, indented missing replacement⟩ := by
  intro hcommit
  obtain ⟨hmissing, hnewline⟩ := h.shortfall hdiffs htarget
  obtain ⟨diff, hdiff, horiginal⟩ := h.replaced
  have haligned := hcommit.aligned replacement diff original (current ++ missing) current
    h.offered.suggestion hdiff horiginal htarget hcurrent (List.prefix_append _ _)
  rw [commonIndent_of_indents (indents_indented hmissing hnewline), hcurrent,
    Option.map_some] at haligned
  exact hswap (Option.some.inj haligned)

/-- A block that loses a line break is not the replacement behind a prefix. -/
theorem not_committable_of_rebroken {replacement : Text} {start stop : ℕ} {original : List Text}
    {current missing : Text} (h : Covered f diffs replacement start stop original)
    (hdiffs : LineByLine diffs) (htarget : commonIndent original = some (current ++ missing))
    (hbreaks : LosesBreak replacement) :
    ¬ Committable f diffs ⟨start, stop, indented missing replacement⟩ := by
  intro hcommit
  obtain ⟨hmissing, hnewline⟩ := h.shortfall hdiffs htarget
  obtain ⟨replacement', other, hsuggestion, hother, hindented⟩ := hcommit.reindented
  obtain rfl := Option.some.inj (hsuggestion.symm.trans h.offered.suggestion)
  exact not_losesBreak_of_indentedBy hmissing hnewline hother hindented hbreaks

/-- A suggestion is safe to commit, and none panics, but where the block is spoiled. -/
theorem safe_iff (f : Finding κ) {diffs : List FileDiff} (hdiffs : LineByLine diffs) :
    Safe f diffs ↔ ¬ Spoiled f diffs := by
  constructor
  · rintro ⟨outcome, houtcome, hsafe⟩ hspoiled
    cases hspoiled with
    | endless replacement start stop h hordered hcount =>
      rw [applicable_of_endless h hordered hcount] at houtcome
      cases houtcome
    | clash replacement start stop original h hclash =>
      rw [h.applicable_eq, reindent_of_clash hclash] at houtcome
      cases houtcome
    | clashInside replacement start stop original target h htarget hne hclash =>
      rw [h.applicable_eq, reindent_of_clashInside htarget hne hclash] at houtcome
      cases houtcome
    | swapped replacement start stop original current missing h htarget hcurrent hswap =>
      have hne : missing ≠ [] := by
        rintro rfl
        exact hswap (by simp)
      exact not_committable_of_swapped h hdiffs htarget hcurrent hswap
        (hsafe _ (h.outcome_eq htarget hcurrent hne houtcome))
    | rebroken replacement start stop original current missing h htarget hcurrent hne hbreaks =>
      exact not_committable_of_rebroken h hdiffs htarget hbreaks
        (hsafe _ (h.outcome_eq htarget hcurrent hne houtcome))
  · intro hspoiled
    rcases applicable_cases f diffs with hnone |
      ⟨replacement, start, stop, h, hordered, hcount, -⟩ |
      ⟨replacement, start, stop, original, h, happlicable⟩
    · exact ⟨none, hnone, nofun⟩
    · exact absurd (.endless replacement start stop h hordered hcount) hspoiled
    · have hcases := reindents replacement original
      generalize hresult : reindent replacement original = result at hcases
      rw [hresult] at happlicable
      cases hcases with
      | clash hclash => exact absurd (.clash replacement start stop original h hclash) hspoiled
      | clashInside target htarget hne hclash =>
        exact absurd (.clashInside replacement start stop original target h htarget hne hclash)
          hspoiled
      | kept hwhole hkept =>
        refine ⟨_, happlicable, fun s hs => ?_⟩
        obtain rfl := Option.some.inj hs
        exact h.committable_kept hresult hkept
      | moved current missing hwhole hinside htarget hcurrent hmissing =>
        have hswap : missing ++ current = current ++ missing := by
          by_contra hswap
          exact hspoiled (.swapped replacement start stop original current missing h htarget
            hcurrent hswap)
        have hbreaks : ¬ LosesBreak replacement := fun hbreaks =>
          hspoiled (.rebroken replacement start stop original current missing h htarget hcurrent
            hmissing hbreaks)
        refine ⟨_, happlicable, fun s hs => ?_⟩
        obtain rfl := Option.some.inj hs
        exact h.committable_moved hdiffs hwhole hinside htarget hcurrent hswap hbreaks

/-- No line that was read so far has a line break in it. -/
def Unbroken (s : ParseState) : Prop :=
  ∀ hunk, hunk ∈ s.diff.hunks ∨ s.current = some hunk → ∀ line ∈ hunk.lines, '\n' ∉ line.text

theorem mem_flush {s : ParseState} {hunk : Hunk} :
    hunk ∈ s.flush.hunks ↔ hunk ∈ s.diff.hunks ∨ s.current = some hunk := by
  unfold ParseState.flush
  cases s.current with
  | none => simp
  | some current => simp [eq_comm]

theorem newlineFree_splitMarker {raw text : Text} {kind : LineKind} (hraw : '\n' ∉ raw)
    (h : splitMarker raw = some (kind, text)) : '\n' ∉ text := by
  have hrest : ∀ (c : Char) (rest : Text), raw = c :: rest → '\n' ∉ rest := by
    rintro c rest rfl hmem
    exact hraw (List.mem_cons_of_mem c hmem)
  unfold splitMarker at h
  split at h <;> cases h
  · exact hrest _ _ rfl
  · exact hrest _ _ rfl
  · exact hrest _ _ rfl
  · exact List.not_mem_nil

theorem unbroken_pushLine {s : ParseState} (h : Unbroken s) {hunk : Hunk}
    (hcurrent : s.current = some hunk) (kind : LineKind) {text : Text} (htext : '\n' ∉ text) :
    Unbroken (pushLine s hunk kind text) := by
  have hold : ∀ line ∈ hunk.lines, '\n' ∉ line.text := h hunk (.inr hcurrent)
  intro other hother line hline
  rw [pushLine_hunks] at hother
  rcases hother with hfinished | hpushed
  · exact h other (.inl hfinished) line hline
  · have hmem : line ∈ hunk.lines ∨ line.text = text := by
      cases kind <;> obtain rfl := Option.some.inj hpushed <;>
        rcases List.mem_append.mp hline with hline | hline
      all_goals first
        | exact .inl hline
        | exact .inr (by rw [List.mem_singleton.mp hline])
    rcases hmem with hmem | rfl
    · exact hold line hmem
    · exact htext

theorem unbroken_parseLine {s : ParseState} (h : Unbroken s) {raw : Text} (hraw : '\n' ∉ raw) :
    Unbroken (parseLine s raw) := by
  have hflush : ∀ hunk ∈ s.flush.hunks, ∀ line ∈ hunk.lines, '\n' ∉ line.text :=
    fun hunk hhunk => h hunk (mem_flush.mp hhunk)
  unfold parseLine
  split_ifs with hheader
  · cases hparse : parseHunkHeader raw with
    | none =>
      rintro hunk (hhunk | hnone)
      · exact hflush hunk hhunk
      · cases hnone
    | some header =>
      rintro hunk (hhunk | hcurrent)
      · exact hflush hunk hhunk
      · obtain rfl := Option.some.inj hcurrent
        simp [parseHunkHeader_lines hparse]
  · cases hcurrent : s.current with
    | none => exact h
    | some hunk =>
      cases hmarker : splitMarker raw with
      | none => exact h
      | some marked =>
        exact unbroken_pushLine h hcurrent marked.1 (newlineFree_splitMarker hraw hmarker)

/-- The lines of parsed patches are lines. -/
theorem lineByLine_parse (patches : List (Text × Text)) :
    LineByLine (patches.map fun p => parseFilePatch p.1 p.2) := by
  have hrun : ∀ (raws : List Text) (s : ParseState), Unbroken s → (∀ raw ∈ raws, '\n' ∉ raw) →
      Unbroken (raws.foldl parseLine s) := by
    intro raws
    induction raws with
    | nil => exact fun s hs _ => hs
    | cons raw raws ih =>
      intro s hs hraws
      exact ih _ (unbroken_parseLine hs (hraws raw List.mem_cons_self))
        fun other hother => hraws other (List.mem_cons_of_mem raw hother)
  intro diff hdiff hunk hhunk
  obtain ⟨p, -, rfl⟩ := List.mem_map.mp hdiff
  refine hrun (lines p.2) _ ?_ (fun raw => notMem_of_mem_lines) hunk (mem_flush.mp hhunk)
  rintro hunk (hhunk | hnone)
  · cases hhunk
  · cases hnone

def suggesting (line : ℕ) (endLine : Option ℕ) (text : Text) : Finding ℕ where
  lane := .critique
  severity := .medium
  confidence := 90
  path := "a.py".toList
  line := some line
  endLine
  rule := "example".toList
  title := "Example".toList
  body := []
  suggestion := some text
  applicable := none
  late := false
  identity := none
  aliases := []
  grouped := false
  reviewPass := 1
  corroboration := 1

/-- The block `done()` behind a tab and a space. -/
def tabbed : List FileDiff := [parseFilePatch "a.py".toList "@@ -1 +1 @@\n+\t done()\n".toList]

/-- Two lines, one behind an en space and one behind an em space. -/
def spaced : List FileDiff :=
  [parseFilePatch "a.py".toList "@@ -1 +1,2 @@\n+\u2002a()\n+\u2003b()\n".toList]

/-- Two lines behind four spaces. -/
def block : List FileDiff :=
  [parseFilePatch "a.py".toList "@@ -1 +1,2 @@\n+    a()\n+    b()\n".toList]

theorem lineByLine_block : LineByLine block :=
  lineByLine_parse [("a.py".toList, "@@ -1 +1,2 @@\n+    a()\n+    b()\n".toList)]

/-- What the block's indentation is made up for in loses the break that it should keep. -/
theorem block_not_safe {text : Text} (h : Covered (suggesting 1 (some 2) text) block text 1 2
      ["    a()".toList, "    b()".toList])
    (hcurrent : commonIndent (lines text) = some []) (hbreaks : LosesBreak text) :
    ¬ Safe (suggesting 1 (some 2) text) block := by
  rintro ⟨outcome, houtcome, hsafe⟩
  have htarget : commonIndent ["    a()".toList, "    b()".toList] =
      some ([] ++ "    ".toList) := by decide +kernel
  exact not_committable_of_rebroken h lineByLine_block htarget hbreaks
    (hsafe _ (h.outcome_eq htarget hcurrent (by decide) houtcome))

theorem safe_iff_tabbed : LineByLine tabbed ∧
    (Safe (suggesting 1 none "\tfinish()".toList) tabbed ↔
      ¬ Spoiled (suggesting 1 none "\tfinish()".toList) tabbed) := by
  have hlines : LineByLine tabbed :=
    lineByLine_parse [("a.py".toList, "@@ -1 +1 @@\n+\t done()\n".toList)]
  exact ⟨hlines, safe_iff _ hlines⟩

/-- The space that is missing goes in front of the tab, the two wide spaces panic, and a
replacement that gets its indentation back loses its last line break and a carriage return. -/
theorem spoiled_suggestions :
    applicable (suggesting 1 none "\tfinish()".toList) tabbed =
        some (some ⟨1, 1, " \tfinish()".toList⟩) ∧
      ¬ Safe (suggesting 1 none "\tfinish()".toList) tabbed ∧
      applicable (suggesting 1 (some 2) "c()".toList) spaced = none ∧
      ¬ Safe (suggesting 1 (some 2) "c()".toList) spaced ∧
      applicable (suggesting 1 (some 2) "b()\n\n".toList) block =
        some (some ⟨1, 2, "    b()\n".toList⟩) ∧
      ¬ Safe (suggesting 1 (some 2) "b()\n\n".toList) block ∧
      applicable (suggesting 1 (some 2) "b()\r\nc()".toList) block =
        some (some ⟨1, 2, "    b()\n    c()".toList⟩) ∧
      ¬ Safe (suggesting 1 (some 2) "b()\r\nc()".toList) block := by
  have htabbed : applicable (suggesting 1 none "\tfinish()".toList) tabbed =
      some (some ⟨1, 1, " \tfinish()".toList⟩) := by decide +kernel
  have hspaced : applicable (suggesting 1 (some 2) "c()".toList) spaced = none := by
    decide +kernel
  refine ⟨htabbed, ?_, hspaced, ?_, by decide +kernel, ?_, by decide +kernel, ?_⟩
  · rintro ⟨outcome, houtcome, hsafe⟩
    obtain rfl := Option.some.inj (htabbed.symm.trans houtcome)
    have haligned := (hsafe _ rfl).aligned "\tfinish()".toList
      (parseFilePatch "a.py".toList "@@ -1 +1 @@\n+\t done()\n".toList) ["\t done()".toList]
      "\t ".toList "\t".toList rfl (by decide +kernel) (by decide +kernel) (by decide +kernel)
      (by decide +kernel) (by decide +kernel)
    exact absurd haligned (by decide +kernel)
  · rintro ⟨outcome, houtcome, -⟩
    rw [hspaced] at houtcome
    cases houtcome
  · exact block_not_safe ⟨⟨rfl, by decide, by decide +kernel, rfl⟩, by decide, by decide, by decide,
      _, rfl, by decide +kernel⟩ (by decide +kernel)
      ⟨"b()\n".toList, [], by decide, .inl rfl⟩
  · exact block_not_safe ⟨⟨rfl, by decide, by decide +kernel, rfl⟩, by decide, by decide, by decide,
      _, rfl, by decide +kernel⟩ (by decide +kernel)
      ⟨"b()\r".toList, "c()".toList, by decide, .inr (by decide)⟩

end TinySweeper.Suggest
