import Mathlib.Data.List.Basic
import Mathlib.Tactic

/-!
# Sliding windows over a projected list

A list is read through a partial projection, and a needle is looked for among
the consecutive projected values. What is found is located in the list that was
projected, where elements without a value may stand between the others.
-/

namespace TinySweeper.Window

variable {α γ κ : Type*}

/-- The runs of `n` consecutive elements, in order. -/
def windows (n : ℕ) : List γ → List (List γ)
  | [] => []
  | x :: xs => if n ≤ xs.length + 1 then (x :: xs).take n :: windows n xs else []

/-- `covered` is a run of the list whose values are the needle; its ends have a value. -/
structure Shows (shown : γ → Option α) (needle : List α) (lines before covered after : List γ) :
    Prop where
  lines_eq : lines = before ++ covered ++ after
  needle_eq : covered.filterMap shown = needle
  head : ∃ line, covered.head? = some line ∧ (shown line).isSome
  last : ∃ line, covered.getLast? = some line ∧ (shown line).isSome

def Shown (shown : γ → Option α) (needle : List α) (lines : List γ) : Prop :=
  ∃ before covered after, Shows shown needle lines before covered after

/-- No run that shows the needle begins earlier. -/
structure ShowsFirst (shown : γ → Option α) (needle : List α)
    (lines before covered after : List γ) : Prop where
  shows : Shows shown needle lines before covered after
  first : ∀ other covered' after', Shows shown needle lines other covered' after' →
    before.length ≤ other.length

section Map

variable {δ : Type*} {shown : γ → Option α} {needle : List α} {f : δ → γ} {lines : List δ}

theorem Shows.map {before covered after : List δ}
    (h : Shows (shown ∘ f) needle lines before covered after) :
    Shows shown needle (lines.map f) (before.map f) (covered.map f) (after.map f) := by
  constructor
  · rw [h.lines_eq, List.map_append, List.map_append]
  · rw [List.filterMap_map]
    exact h.needle_eq
  · obtain ⟨line, hline, hsome⟩ := h.head
    exact ⟨f line, by rw [List.head?_map, hline]; rfl, hsome⟩
  · obtain ⟨line, hline, hsome⟩ := h.last
    exact ⟨f line, by rw [List.getLast?_map, hline]; rfl, hsome⟩

theorem Shows.of_map {before covered after : List γ}
    (h : Shows shown needle (lines.map f) before covered after) :
    ∃ before' covered' after', before = before'.map f ∧
      Shows (shown ∘ f) needle lines before' covered' after' := by
  obtain ⟨left, after', rfl, hleft, -⟩ := List.map_eq_append_iff.mp h.lines_eq
  obtain ⟨before', covered', rfl, hbefore, rfl⟩ := List.map_eq_append_iff.mp hleft
  refine ⟨before', covered', after', hbefore.symm, rfl, ?_, ?_, ?_⟩
  · rw [← h.needle_eq, List.filterMap_map]
  · obtain ⟨line, hline, hsome⟩ := h.head
    rw [List.head?_map, Option.map_eq_some_iff] at hline
    obtain ⟨source, hsource, rfl⟩ := hline
    exact ⟨source, hsource, hsome⟩
  · obtain ⟨line, hline, hsome⟩ := h.last
    rw [List.getLast?_map, Option.map_eq_some_iff] at hline
    obtain ⟨source, hsource, rfl⟩ := hline
    exact ⟨source, hsource, hsome⟩

theorem ShowsFirst.map {before covered after : List δ}
    (h : ShowsFirst (shown ∘ f) needle lines before covered after) :
    ShowsFirst shown needle (lines.map f) (before.map f) (covered.map f) (after.map f) := by
  constructor
  · exact h.shows.map
  · intro other covered' after' hother
    obtain ⟨other', covered'', after'', rfl, hshows⟩ := hother.of_map
    rw [List.length_map, List.length_map]
    exact h.first _ _ _ hshows

theorem shown_map : Shown shown needle (lines.map f) ↔ Shown (shown ∘ f) needle lines := by
  constructor
  · rintro ⟨before, covered, after, h⟩
    obtain ⟨before', covered', after', -, hshows⟩ := h.of_map
    exact ⟨before', covered', after', hshows⟩
  · rintro ⟨before, covered, after, h⟩
    exact ⟨_, _, _, h.map⟩

end Map

section Windows

variable {n : ℕ} {p : List γ → Bool}

/-- The first window that passes the test. -/
theorem find?_windows {xs w : List γ} (hfind : (windows n xs).find? p = some w) :
    p w = true ∧ w.length = n ∧ ∃ before after, xs = before ++ w ++ after ∧
      ∀ other w' after', xs = other ++ w' ++ after' → w'.length = n → p w' = true →
        before.length ≤ other.length := by
  induction xs with
  | nil => cases hfind
  | cons x xs ih =>
    unfold windows at hfind
    split_ifs at hfind with hlong
    · rw [List.find?_cons] at hfind
      cases hp : p ((x :: xs).take n) with
      | true =>
        rw [hp] at hfind
        cases hfind
        refine ⟨hp, by simpa using hlong, [], (x :: xs).drop n, by simp, ?_⟩
        intro other w' after' _ _ _
        exact Nat.zero_le _
      | false =>
        rw [hp] at hfind
        obtain ⟨hw, hlength, before, after, rfl, hfirst⟩ := ih hfind
        refine ⟨hw, hlength, x :: before, after, rfl, ?_⟩
        intro other w' after' heq hlength' hw'
        cases other with
        | nil =>
          -- The window at the head is the one that failed the test.
          have hhead : (x :: (before ++ w ++ after)).take n = w' := by
            rw [heq, List.nil_append, ← hlength', List.take_left]
          rw [hhead, hw'] at hp
          cases hp
        | cons y other =>
          rw [List.cons_append, List.cons_append, List.cons.injEq] at heq
          simpa using hfirst other w' after' heq.2 hlength' hw'
    · cases hfind

theorem find?_windows_eq_none (hn : 0 < n) {xs : List γ} (hfind : (windows n xs).find? p = none)
    {before w after : List γ} (hxs : xs = before ++ w ++ after) (hlength : w.length = n) :
    p w = false := by
  induction xs generalizing before with
  | nil =>
    have hnil := congrArg List.length hxs
    simp only [List.length_nil, List.length_append] at hnil
    omega
  | cons x xs ih =>
    have hlong := congrArg List.length hxs
    simp only [List.length_cons, List.length_append] at hlong
    unfold windows at hfind
    rw [if_pos (by omega), List.find?_cons] at hfind
    cases hp : p ((x :: xs).take n) with
    | true =>
      rw [hp] at hfind
      cases hfind
    | false =>
      rw [hp] at hfind
      cases before with
      | nil =>
        rw [hxs, List.nil_append, ← hlength, List.take_left] at hp
        exact hp
      | cons y before =>
        rw [List.cons_append, List.cons_append, List.cons.injEq] at hxs
        exact ih hfind hxs.2

end Windows

section Rows

variable {row : γ → Option (κ × α)} {needle : List α} {lines : List γ}

/-- A non-empty run of rows comes from a run of the list whose ends have a row. -/
theorem exists_run {before w after : List (κ × α)} (hw : w ≠ [])
    (hrows : lines.filterMap row = before ++ w ++ after) :
    ∃ before' covered after', lines = before' ++ covered ++ after' ∧
      before'.filterMap row = before ∧ covered.filterMap row = w ∧
      (∃ line, covered.head? = some line ∧ row line = w.head?) ∧
      ∃ line, covered.getLast? = some line ∧ row line = w.getLast? := by
  rw [List.append_assoc] at hrows
  obtain ⟨before₁, rest, rfl, hbefore, hrest⟩ := List.filterMap_eq_append_iff.mp hrows
  rcases List.eq_nil_or_concat' w with rfl | ⟨init, final, rfl⟩
  · cases hw rfl
  rw [List.append_assoc] at hrest
  obtain ⟨mid, tail, rfl, hmid, htail⟩ := List.filterMap_eq_append_iff.mp hrest
  obtain ⟨skipped, stop, after', rfl, hskipped, hstop, -⟩ := List.filterMap_eq_cons_iff.mp htail
  have hnone : skipped.filterMap row = [] := by
    rw [List.filterMap_eq_nil_iff]
    exact hskipped
  have hcovered : (mid ++ skipped ++ [stop]).filterMap row = init ++ [final] := by
    simp [List.filterMap_append, hmid, hnone, hstop]
  cases hfirst : init ++ [final] with
  | nil => cases hw hfirst
  | cons start rest =>
    rw [hfirst] at hcovered
    obtain ⟨skipped', head, covered, hsplit, hskipped', hhead, hrest'⟩ :=
      List.filterMap_eq_cons_iff.mp hcovered
    have hnone' : skipped'.filterMap row = [] := by
      rw [List.filterMap_eq_nil_iff]
      exact hskipped'
    refine ⟨before₁ ++ skipped', head :: covered, after', ?_, ?_, ?_, ⟨head, rfl, hhead⟩, stop,
      ?_, ?_⟩
    · calc before₁ ++ (mid ++ (skipped ++ stop :: after'))
          = before₁ ++ ((mid ++ skipped ++ [stop]) ++ after') := by simp
        _ = before₁ ++ skipped' ++ head :: covered ++ after' := by rw [hsplit]; simp
    · rw [List.filterMap_append, hbefore, hnone', List.append_nil]
    · rw [List.filterMap_cons_some hhead, hrest']
    · have hlast := congrArg List.getLast? hsplit
      rw [List.getLast?_concat, List.getLast?_append_cons] at hlast
      exact hlast.symm
    · rw [hstop, ← hfirst, List.getLast?_concat]

/-- What a row shows. -/
def textOf (row : γ → Option (κ × α)) (line : γ) : Option α := (row line).map Prod.snd

theorem filterMap_textOf (lines : List γ) :
    lines.filterMap (textOf row) = (lines.filterMap row).map Prod.snd :=
  (List.map_filterMap ..).symm

/-- The first window of rows that spells the needle is its first showing. -/
theorem showsFirst_of_find? {w : List (κ × α)} [DecidableEq α] (hneedle : needle ≠ [])
    (hfind : (windows needle.length (lines.filterMap row)).find?
      (fun w => w.map Prod.snd = needle) = some w) :
    ∃ before covered after, ShowsFirst (textOf row) needle lines before covered after ∧
      (∃ line, covered.head? = some line ∧ row line = w.head?) ∧
      ∃ line, covered.getLast? = some line ∧ row line = w.getLast? := by
  obtain ⟨hw, hlength, before, after, hrows, hfirst⟩ := find?_windows hfind
  have hne : w ≠ [] := by
    rw [← List.length_pos_iff, hlength]
    exact List.length_pos_iff.mpr hneedle
  obtain ⟨before', covered, after', hlines, hbefore, hcovered, hhead, hlast⟩ :=
    exists_run hne hrows
  refine ⟨before', covered, after', ⟨⟨hlines, ?_, ?_, ?_⟩, ?_⟩, hhead, hlast⟩
  · rw [filterMap_textOf, hcovered]
    simpa using hw
  · obtain ⟨line, hline, hrow⟩ := hhead
    refine ⟨line, hline, ?_⟩
    rw [textOf, hrow, Option.isSome_map, List.isSome_head?]
    simpa using hne
  · obtain ⟨line, hline, hrow⟩ := hlast
    refine ⟨line, hline, ?_⟩
    rw [textOf, hrow, Option.isSome_map, List.getLast?_isSome]
    simpa using hne
  · intro other covered' after'' hother
    by_contra hlt
    push Not at hlt
    have hrowsOther : lines.filterMap row =
        other.filterMap row ++ covered'.filterMap row ++ after''.filterMap row := by
      rw [hother.lines_eq, List.filterMap_append, List.filterMap_append]
    have hshown : (covered'.filterMap row).map Prod.snd = needle := by
      rw [← filterMap_textOf, hother.needle_eq]
    have hle := hfirst _ _ _ hrowsOther (by rw [← hshown, List.length_map]) (by simpa using hshown)
    -- The other run starts with a shown line, which stands before this one.
    obtain ⟨line, hline, hsome⟩ := hother.head
    obtain ⟨rest, rfl⟩ : ∃ rest, covered' = line :: rest := by
      cases covered' with
      | nil => cases hline
      | cons first rest =>
        cases hline
        exact ⟨rest, rfl⟩
    have hpre : other ++ [line] <+: before' := by
      apply @List.prefix_of_prefix_length_le _ _ _ lines
      · exact ⟨rest ++ after'', by rw [hother.lines_eq]; simp⟩
      · exact ⟨covered ++ after', by rw [hlines]; simp⟩
      · simpa using hlt
    have hcount := (hpre.filterMap row).length_le
    rw [textOf, Option.isSome_map] at hsome
    obtain ⟨pair, hpair⟩ := Option.isSome_iff_exists.mp hsome
    rw [List.filterMap_append, List.length_append, List.filterMap_cons_some hpair, hbefore] at hcount
    simp only [List.filterMap_nil, List.length_singleton] at hcount
    omega

theorem not_shown_of_find? [DecidableEq α] (hneedle : needle ≠ [])
    (hfind : (windows needle.length (lines.filterMap row)).find?
      (fun w => w.map Prod.snd = needle) = none) :
    ¬ Shown (textOf row) needle lines := by
  rintro ⟨before, covered, after, hshows⟩
  have hpos : 0 < needle.length := List.length_pos_iff.mpr hneedle
  have hrows : lines.filterMap row =
      before.filterMap row ++ covered.filterMap row ++ after.filterMap row := by
    rw [hshows.lines_eq, List.filterMap_append, List.filterMap_append]
  have htext : (covered.filterMap row).map Prod.snd = needle := by
    rw [← filterMap_textOf, hshows.needle_eq]
  have hfalse := find?_windows_eq_none hpos hfind hrows (by rw [← htext, List.length_map])
  simp [htext] at hfalse

end Rows

end TinySweeper.Window
