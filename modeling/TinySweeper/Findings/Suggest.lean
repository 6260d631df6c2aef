import TinySweeper.Findings.Finding
import TinySweeper.SharedPrefix

/-!
# Suggestions that can be applied

A model's replacement becomes a block that one click commits. It has to cover the
lines it is anchored to, and gets back the indentation it lost on the way. What
can panic is `none`; a refusal is an answer.
-/

namespace TinySweeper.Suggest

open Text Evidence Findings

def isBlank (line : Text) : Bool := (trim line).isEmpty

/-- The whitespace a line begins with. -/
def indentOf (line : Text) : Text := line.takeWhile isWhitespace

/-- The indent so far, cut to the bytes it shares with the next one. -/
def shareIndent (common : Option Text) (line : Text) : Option (Option Text) :=
  if isBlank line then some common
  else
    match common with
    | none => some (some (indentOf line))
    | some previous =>
      (splitAtByte (sharedBytes previous (indentOf line)) previous).map fun (shared, _) =>
        some shared

/-- The leading whitespace of the lines that are not blank. -/
def baseIndent (lines : List Text) : Option (Option Text) := lines.foldlM shareIndent none

/-- A blank line stays blank. -/
def indentLine (missing line : Text) : Text := if isBlank line then line else missing ++ line

/-- Restore the indentation a replacement lost, when it lost a uniform amount. -/
def reindent (replacement : Text) (original : List Text) : Option Text := do
  match ← baseIndent original with
  | none => return replacement
  | some target =>
    if target.isEmpty then return replacement
    else
      match ← baseIndent (lines replacement) with
      | none => return replacement
      | some current =>
        -- No shortfall, or none that can be inferred.
        if !current.isPrefixOf target || utf8Len current = utf8Len target then return replacement
        else
          return ['\n'].intercalate
            ((lines replacement).map (indentLine (target.drop current.length)))

/-- The number of lines of a range, where it is a machine word. -/
def rangeCount (start stop : ℕ) : Option ℕ :=
  if start ≤ stop then if stop - start + 1 < 2 ^ 64 then some (stop - start + 1) else none
  else some 0

/-- Removed lines are not in the head revision. -/
def headLine (diff : FileDiff) (line : ℕ) : Option Text :=
  ((diff.hunks.flatMap Hunk.lines).find? fun candidate =>
    candidate.kind ≠ .removed && candidate.newLine = some line).map DiffLine.text

/-- The lines of the span, all of which must be there. -/
def replacedLines (diff : FileDiff) (start stop : ℕ) : Option (List Text) :=
  (List.range' start (stop + 1 - start)).mapM (headLine diff)

variable {κ : Type}

/-- The block for a finding, if it can be made safe. -/
def applicable (f : Finding κ) (diffs : List FileDiff) : Option (Option Suggestion) :=
  match f.suggestion with
  | none => some none
  | some replacement =>
    if isBlank replacement then some none
    else if contains replacement "```".toList then some none
    else
      match f.range with
      | none => some none
      | some (start, stop) =>
        match rangeCount start stop with
        | none => none
        | some count =>
          if (lines replacement).length > count then some none
          else
            match diffs.find? fun d => d.path = f.path with
            | none => some none
            | some diff =>
              match replacedLines diff start stop with
              | none => some none
              | some original =>
                (reindent replacement original).map fun text => some ⟨start, stop, text⟩

/-- The indents of the lines that are not blank. -/
def indents (lines : List Text) : List Text := (lines.filter fun line => !isBlank line).map indentOf

def commonIndent (lines : List Text) : Option Text :=
  match indents lines with
  | [] => none
  | first :: rest => some (rest.foldl commonPrefix first)

/-- An indent and what those before it share first differ in two characters that begin with
the same byte. -/
def Clash (lines : List Text) : Prop :=
  ∃ first before next after, indents lines = first :: before ++ next :: after ∧
    SplitsChar (before.foldl commonPrefix first) next

def sharePrefix (previous indent : Text) : Option Text :=
  (splitAtByte (sharedBytes previous indent) previous).map Prod.fst

theorem indents_cons (line : Text) (rest : List Text) : indents (line :: rest) =
    if isBlank line then indents rest else indentOf line :: indents rest := by
  unfold indents
  cases hblank : isBlank line <;> simp [hblank]

theorem foldlM_shareIndent_some (lines : List Text) (common : Text) :
    lines.foldlM shareIndent (some common) =
      ((indents lines).foldlM sharePrefix common).map some := by
  induction lines generalizing common with
  | nil => rfl
  | cons line rest ih =>
    rw [List.foldlM_cons, indents_cons]
    cases hblank : isBlank line with
    | true =>
      rw [shareIndent, if_pos hblank]
      exact ih common
    | false =>
      simp only [shareIndent, hblank, Bool.false_eq_true, if_false, List.foldlM_cons, sharePrefix]
      cases splitAtByte (sharedBytes common (indentOf line)) common with
      | none => rfl
      | some parts => exact ih parts.1

theorem baseIndent_eq_foldlM (lines : List Text) : baseIndent lines =
    match indents lines with
    | [] => some none
    | first :: rest => (rest.foldlM sharePrefix first).map some := by
  unfold baseIndent
  induction lines with
  | nil => rfl
  | cons line rest ih =>
    rw [List.foldlM_cons, indents_cons]
    cases hblank : isBlank line with
    | true =>
      rw [shareIndent, if_pos hblank]
      exact ih
    | false =>
      simp only [shareIndent, hblank, Bool.false_eq_true, if_false]
      exact foldlM_shareIndent_some rest (indentOf line)

/-- Cutting goes on until two indents differ inside a character. -/
theorem foldlM_sharePrefix (rest : List Text) (first : Text) :
    (∃ before next after, rest = before ++ next :: after ∧
        SplitsChar (before.foldl commonPrefix first) next) ∧
      rest.foldlM sharePrefix first = none ∨
    (¬ ∃ before next after, rest = before ++ next :: after ∧
        SplitsChar (before.foldl commonPrefix first) next) ∧
      rest.foldlM sharePrefix first = some (rest.foldl commonPrefix first) := by
  induction rest generalizing first with
  | nil =>
    refine .inr ⟨?_, rfl⟩
    rintro ⟨before, next, after, hsplit, -⟩
    simp at hsplit
  | cons indent rest ih =>
    rw [List.foldlM_cons, sharePrefix, List.foldl_cons]
    rcases splitAtByte_sharedBytes first indent with ⟨hsplits, hcut⟩ | ⟨hwhole, cut, hcut⟩
    · refine .inl ⟨⟨[], indent, rest, rfl, hsplits⟩, ?_⟩
      rw [hcut]
      rfl
    · have hrun : (Option.map Prod.fst (some (commonPrefix first indent, cut)) >>= fun shared =>
          rest.foldlM sharePrefix shared) = rest.foldlM sharePrefix (commonPrefix first indent) := rfl
      rw [hcut, hrun]
      have hiff : (∃ before next after, indent :: rest = before ++ next :: after ∧
            SplitsChar (before.foldl commonPrefix first) next) ↔
          ∃ before next after, rest = before ++ next :: after ∧
            SplitsChar (before.foldl commonPrefix (commonPrefix first indent)) next := by
        constructor
        · rintro ⟨before, next, after, hrest, hsplits⟩
          cases before with
          | nil =>
            obtain ⟨rfl, rfl⟩ := List.cons.inj hrest
            exact absurd hsplits hwhole
          | cons head before =>
            obtain ⟨rfl, rfl⟩ := List.cons.inj hrest
            exact ⟨before, next, after, rfl, hsplits⟩
        · rintro ⟨before, next, after, rfl, hsplits⟩
          exact ⟨indent :: before, next, after, rfl, hsplits⟩
      rw [hiff]
      exact ih (commonPrefix first indent)

/-- The base indentation is the common one, unless reading it panics. -/
theorem baseIndent_cases (lines : List Text) : Clash lines ∧ baseIndent lines = none ∨
    ¬ Clash lines ∧ baseIndent lines = some (commonIndent lines) := by
  rw [baseIndent_eq_foldlM]
  unfold Clash commonIndent
  cases indents lines with
  | nil => exact .inr ⟨by simp, rfl⟩
  | cons first rest =>
    have hiff : (∃ first' before next after, first :: rest = first' :: before ++ next :: after ∧
          SplitsChar (before.foldl commonPrefix first') next) ↔
        ∃ before next after, rest = before ++ next :: after ∧
          SplitsChar (before.foldl commonPrefix first) next := by
      constructor
      · rintro ⟨first', before, next, after, hall, hsplits⟩
        obtain ⟨rfl, rfl⟩ := List.cons.inj hall
        exact ⟨before, next, after, rfl, hsplits⟩
      · rintro ⟨before, next, after, rfl, hsplits⟩
        exact ⟨first, before, next, after, rfl, hsplits⟩
    rw [hiff]
    dsimp only
    rcases foldlM_sharePrefix rest first with ⟨hsplits, hrun⟩ | ⟨hwhole, hrun⟩
    · exact .inl ⟨hsplits, by rw [hrun]; rfl⟩
    · exact .inr ⟨hwhole, by rw [hrun]; rfl⟩

section Indented

variable {missing : Text}

theorem isBlank_iff {line : Text} : isBlank line = true ↔ ∀ c ∈ line, isWhitespace c = true := by
  rw [isBlank, List.isEmpty_iff, trim_eq_nil_iff]

theorem isBlank_append (hmissing : ∀ c ∈ missing, isWhitespace c = true) (line : Text) :
    isBlank (missing ++ line) = isBlank line := by
  rw [Bool.eq_iff_iff, isBlank_iff, isBlank_iff]
  simp only [List.mem_append]
  constructor
  · exact fun h c hc => h c (.inr hc)
  · rintro h c (hc | hc)
    · exact hmissing c hc
    · exact h c hc

theorem indentOf_append (hmissing : ∀ c ∈ missing, isWhitespace c = true) (line : Text) :
    indentOf (missing ++ line) = missing ++ indentOf line := List.takeWhile_append_of_pos hmissing

theorem indents_indentLine (hmissing : ∀ c ∈ missing, isWhitespace c = true) (lines : List Text) :
    indents (lines.map (indentLine missing)) = (indents lines).map (missing ++ ·) := by
  induction lines with
  | nil => rfl
  | cons line rest ih =>
    rw [List.map_cons, indents_cons, indents_cons, indentLine]
    cases hblank : isBlank line with
    | true => simp [hblank, ih]
    | false => simp [isBlank_append hmissing, hblank, indentOf_append hmissing, ih]

theorem foldl_commonPrefix_map (missing first : Text) (rest : List Text) :
    (rest.map (missing ++ ·)).foldl commonPrefix (missing ++ first) =
      missing ++ rest.foldl commonPrefix first := by
  induction rest generalizing first with
  | nil => rfl
  | cons next rest ih =>
    rw [List.map_cons, List.foldl_cons, List.foldl_cons, commonPrefix_append_left, ih]

theorem commonIndent_of_indents {lines moved : List Text}
    (h : indents moved = (indents lines).map (missing ++ ·)) :
    commonIndent moved = (commonIndent lines).map (missing ++ ·) := by
  unfold commonIndent
  rw [h]
  cases indents lines with
  | nil => rfl
  | cons first rest => exact congrArg some (foldl_commonPrefix_map missing first rest)

/-- Behind one prefix the same indents clash. -/
theorem clash_of_indents {lines moved : List Text}
    (h : indents moved = (indents lines).map (missing ++ ·)) (hclash : Clash moved) :
    Clash lines := by
  obtain ⟨first, before, next, after, hall, hsplits⟩ := hclash
  rw [h, List.map_eq_append_iff] at hall
  obtain ⟨front, back, hlines, hfront, hback⟩ := hall
  obtain ⟨first', before', rfl, rfl, rfl⟩ := List.map_eq_cons_iff.mp hfront
  obtain ⟨next', after', rfl, rfl, rfl⟩ := List.map_eq_cons_iff.mp hback
  rw [foldl_commonPrefix_map, splitsChar_append_left] at hsplits
  exact ⟨first', before', next', after', hlines, hsplits⟩

end Indented

/-- A line's own line break does not touch its indent. -/
theorem indents_chomp (line : Text) (rest : List Text) :
    indents (chomp line :: rest) = indents (line :: rest) := by
  rw [indents_cons, indents_cons]
  have hblank : isBlank (chomp line) = isBlank line := by rw [isBlank, isBlank, trim_chomp]
  rw [hblank]
  cases hline : isBlank line with
  | true => rfl
  | false =>
    have hindent : indentOf (chomp line) = indentOf line := by
      obtain ⟨c, text, hdrop⟩ : ∃ c text, line.dropWhile isWhitespace = c :: text := by
        apply List.exists_cons_of_ne_nil
        intro hnil
        have hall := List.dropWhile_eq_nil_iff.mp hnil
        rw [isBlank_iff.mpr hall] at hline
        cases hline
      have hc : isWhitespace c = false := by
        have hhead := List.head?_dropWhile_not isWhitespace line
        rw [hdrop] at hhead
        simpa using hhead
      have hsplit : line = indentOf line ++ c :: text := by
        rw [← hdrop]
        exact List.takeWhile_append_dropWhile.symm
      have hcr : [c].getLast? ≠ some '\r' := by
        rintro h
        obtain rfl : c = '\r' := by simpa using h
        exact absurd hc (by decide)
      have hrest : chomp ([c] ++ text) = [c] ++ chomp text := chomp_append (.inr hcr)
      have hchomp : chomp line = indentOf line ++ c :: chomp text := by
        conv_lhs => rw [hsplit]
        rw [chomp_append (.inl (List.cons_ne_nil c text))]
        exact congrArg (indentOf line ++ ·) hrest
      have hindent : ∀ d ∈ indentOf line, isWhitespace d = true := fun d hd =>
        (List.mem_takeWhile_imp hd :)
      rw [hchomp, indentOf, List.takeWhile_append_of_pos hindent, List.takeWhile_cons, hc]
      exact List.append_nil _
    rw [hindent]

theorem join_cons_cons (line next : Text) (rest : List Text) :
    ['\n'].intercalate (line :: next :: rest) =
      line ++ '\n' :: ['\n'].intercalate (next :: rest) := by
  rw [List.intercalate_cons_cons]
  simp

/-- Joining lines and reading them back changes no indent. -/
theorem indents_lines_join {texts : List Text} (h : ∀ line ∈ texts, '\n' ∉ line) :
    indents (lines (['\n'].intercalate texts)) = indents texts := by
  induction texts with
  | nil => rfl
  | cons line rest ih =>
    have hline : '\n' ∉ line := h line List.mem_cons_self
    cases rest with
    | nil =>
      rw [List.intercalate_singleton]
      by_cases hempty : line = []
      · rw [hempty]
        rfl
      · rw [lines_of_notMem hline hempty]
    | cons next rest =>
      rw [join_cons_cons, lines_append hline, indents_chomp, indents_cons, indents_cons line,
        ih fun other hother => h other (List.mem_cons_of_mem line hother)]

theorem length_lines_join {texts : List Text} (h : ∀ line ∈ texts, '\n' ∉ line) :
    (lines (['\n'].intercalate texts)).length ≤ texts.length := by
  induction texts with
  | nil => exact Nat.zero_le _
  | cons line rest ih =>
    have hline : '\n' ∉ line := h line List.mem_cons_self
    cases rest with
    | nil =>
      rw [List.intercalate_singleton]
      by_cases hempty : line = []
      · rw [hempty]
        exact Nat.zero_le _
      · rw [lines_of_notMem hline hempty]
    | cons next rest =>
      have hrest := ih fun other hother => h other (List.mem_cons_of_mem line hother)
      rw [join_cons_cons, lines_append hline, List.length_cons, List.length_cons]
      exact Nat.succ_le_succ hrest

/-- What is neither in a line nor across a line break is not in the joined text. -/
theorem not_infix_join {needle : Text} (hneedle : '\n' ∉ needle) (hne : needle ≠ [])
    {texts : List Text} (h : ∀ line ∈ texts, ¬ needle <:+: line) :
    ¬ needle <:+: ['\n'].intercalate texts := by
  induction texts with
  | nil => simpa using hne
  | cons line rest ih =>
    have hline := h line List.mem_cons_self
    cases rest with
    | nil => rwa [List.intercalate_singleton]
    | cons next rest =>
      have hrest := ih fun other hother => h other (List.mem_cons_of_mem line hother)
      rw [join_cons_cons, infix_append_cons_iff hneedle]
      exact not_or.mpr ⟨hline, hrest⟩

theorem infix_of_mem_lines {text line : Text} (h : line ∈ lines text) : line <:+: text := by
  have hchomp : ∀ raw : Text, chomp raw <+: raw := by
    intro raw
    unfold chomp
    split
    · exact List.dropLast_prefix raw
    · exact List.prefix_refl raw
  induction text using lines_induction with
  | last raw hraw =>
    by_cases hempty : raw = []
    · rw [hempty] at h
      cases h
    · rw [lines_of_notMem hraw hempty] at h
      rw [List.mem_singleton.mp h]
  | line raw rest hraw ih =>
    rw [lines_append hraw] at h
    rcases List.mem_cons.mp h with rfl | hmem
    · exact ((hchomp raw).trans (List.prefix_append _ _)).isInfix
    · exact (ih hmem).trans ((List.suffix_cons _ _).trans (List.suffix_append _ _)).isInfix

/-- Whitespace in front of a line does not complete a fence. -/
theorem fence_of_indented {missing line : Text} (hmissing : ∀ c ∈ missing, isWhitespace c = true)
    (h : "```".toList <:+: missing ++ line) : "```".toList <:+: line := by
  induction missing with
  | nil => exact h
  | cons c missing ih =>
    rw [List.cons_append] at h
    rcases List.infix_cons_iff.mp h with hleading | hinfix
    · obtain ⟨rfl, -⟩ := List.cons_prefix_cons.mp hleading
      exact absurd (hmissing _ List.mem_cons_self) (by decide)
    · exact ih (fun d hd => hmissing d (List.mem_cons_of_mem c hd)) hinfix

/-- The replacement with an indentation in front of its lines. -/
def indented (missing replacement : Text) : Text :=
  ['\n'].intercalate ((lines replacement).map (indentLine missing))

/-- The cases of a reindentation, by the common indents of the block and of the replacement. -/
inductive Reindents (replacement : Text) (original : List Text) : Option Text → Prop where
  | clash (h : Clash original) : Reindents replacement original none
  | clashInside (target : Text) (htarget : commonIndent original = some target) (hne : target ≠ [])
      (h : Clash (lines replacement)) : Reindents replacement original none
  | kept (h : ¬ Clash original)
      (hkept : ∀ target current, commonIndent original = some target →
        commonIndent (lines replacement) = some current → current <+: target → current = target) :
      Reindents replacement original (some replacement)
  | moved (current missing : Text) (h : ¬ Clash original) (hinside : ¬ Clash (lines replacement))
      (htarget : commonIndent original = some (current ++ missing))
      (hcurrent : commonIndent (lines replacement) = some current) (hmissing : missing ≠ []) :
      Reindents replacement original (some (indented missing replacement))

theorem reindent_of_clash {replacement : Text} {original : List Text} (h : Clash original) :
    reindent replacement original = none := by
  rcases baseIndent_cases original with ⟨-, hbase⟩ | ⟨hwhole, -⟩
  · rw [reindent, hbase]
    rfl
  · exact absurd h hwhole

theorem reindent_of_clashInside {replacement : Text} {original : List Text} {target : Text}
    (htarget : commonIndent original = some target) (hne : target ≠ [])
    (h : Clash (lines replacement)) : reindent replacement original = none := by
  rcases baseIndent_cases original with ⟨hclash, -⟩ | ⟨-, hbase⟩
  · exact reindent_of_clash hclash
  · rcases baseIndent_cases (lines replacement) with ⟨-, hinside⟩ | ⟨hinner, -⟩
    · simp [reindent, hbase, htarget, hinside, hne]
    · exact absurd h hinner

theorem utf8Len_eq_of_prefix {a b : Text} (h : a <+: b) : utf8Len a = utf8Len b ↔ a = b := by
  obtain ⟨rest, rfl⟩ := h
  rw [utf8Len_append]
  constructor
  · intro hlen
    have hrest : rest = [] := utf8Len_eq_zero.mp (by omega)
    rw [hrest, List.append_nil]
  · intro heq
    rw [List.self_eq_append_right.mp heq]
    rfl

theorem reindents (replacement : Text) (original : List Text) :
    Reindents replacement original (reindent replacement original) := by
  unfold reindent
  rcases baseIndent_cases original with ⟨hclash, hbase⟩ | ⟨hwhole, hbase⟩
  · rw [hbase]
    exact .clash hclash
  rw [hbase]
  cases htarget : commonIndent original with
  | none => exact .kept hwhole (by simp [htarget])
  | some target =>
    simp only [Option.bind_eq_bind, Option.bind_some]
    by_cases hempty : target = []
    · rw [if_pos (by simp [hempty])]
      refine .kept hwhole fun target' current ht _ hleading => ?_
      obtain rfl : target = target' := Option.some.inj (htarget.symm.trans ht)
      rw [hempty] at hleading ⊢
      exact List.prefix_nil.mp hleading
    · rw [if_neg (by simpa using hempty)]
      rcases baseIndent_cases (lines replacement) with ⟨hclash, hinside⟩ | ⟨hinner, hinside⟩
      · rw [hinside]
        exact .clashInside target htarget hempty hclash
      rw [hinside]
      simp only [Option.bind_some]
      cases hcurrent : commonIndent (lines replacement) with
      | none => exact .kept hwhole (by simp [hcurrent])
      | some current =>
        dsimp only
        by_cases hleading : current <+: target
        · by_cases heq : current = target
          · rw [if_pos (by simp [heq])]
            refine .kept hwhole fun target' current' ht hc _ => ?_
            obtain rfl := Option.some.inj (htarget.symm.trans ht)
            obtain rfl := Option.some.inj (hcurrent.symm.trans hc)
            exact heq
          · rw [if_neg (by simp [hleading, utf8Len_eq_of_prefix hleading, heq])]
            obtain ⟨missing, rfl⟩ := hleading
            rw [List.drop_left]
            refine .moved current missing hwhole hinner htarget hcurrent ?_
            rintro rfl
            exact heq (List.append_nil current).symm
        · have hnot : current.isPrefixOf target = false := by
            rw [Bool.eq_false_iff, ne_eq, List.isPrefixOf_iff_prefix]
            exact hleading
          rw [if_pos (by simp [hnot])]
          refine .kept hwhole fun target' current' ht hc hleading' => ?_
          obtain rfl := Option.some.inj (htarget.symm.trans ht)
          obtain rfl := Option.some.inj (hcurrent.symm.trans hc)
          exact absurd hleading' hleading

/-- The common indent is part of the indent of one of the lines. -/
theorem prefix_of_commonIndent {lines : List Text} {target : Text}
    (h : commonIndent lines = some target) : ∃ line ∈ lines, target <+: indentOf line := by
  have hfold : ∀ (rest : List Text) (first : Text), rest.foldl commonPrefix first <+: first := by
    intro rest
    induction rest with
    | nil => exact fun first => List.prefix_refl first
    | cons next rest ih =>
      exact fun first => (ih (commonPrefix first next)).trans (commonPrefix_prefix_left first next)
  unfold commonIndent at h
  split at h
  · cases h
  · next first rest hindents =>
    obtain rfl := Option.some.inj h
    have hmem : first ∈ indents lines := by
      rw [hindents]
      exact List.mem_cons_self
    obtain ⟨line, hline, rfl⟩ := List.mem_map.mp hmem
    exact ⟨line, List.mem_of_mem_filter hline, hfold rest (indentOf line)⟩

theorem whitespace_of_commonIndent {lines : List Text} {target : Text}
    (h : commonIndent lines = some target) : ∀ c ∈ target, isWhitespace c = true := by
  obtain ⟨line, -, hleading⟩ := prefix_of_commonIndent h
  exact fun c hc => (List.mem_takeWhile_imp (hleading.subset hc) :)

theorem newlineFree_of_commonIndent {lines : List Text} (hlines : ∀ line ∈ lines, '\n' ∉ line)
    {target : Text} (h : commonIndent lines = some target) : '\n' ∉ target := by
  obtain ⟨line, hline, hleading⟩ := prefix_of_commonIndent h
  exact fun hmem => hlines line hline
    ((hleading.trans (List.takeWhile_prefix isWhitespace)).subset hmem)

end TinySweeper.Suggest
