import Mathlib.Data.List.DropRight
import Mathlib.Tactic

/-!
# Texts as lists of characters

The string operations a line-oriented program is written in: searching, lines,
trimming, decimal numbers. Positions count characters.
-/

namespace TinySweeper

abbrev Text := List Char

instance : LawfulBEq Text := List.instLawfulBEq

namespace Text

variable {texts : List Text}

/-- The members of a list are looked at one by one, never all characters there are. -/
instance (priority := high) decidableBAll {p : Char → Prop} [DecidablePred p] (l : List Char) :
    Decidable (∀ c ∈ l, p c) := List.decidableBAll p l

instance (priority := high) decidableBEx {p : Char → Prop} [DecidablePred p] (l : List Char) :
    Decidable (∃ c ∈ l, p c) := List.decidableBEx p l

/-- Texts are in lexicographic order. -/
instance (priority := high) : LE Text := List.instLE

section Search

variable {α : Type*} [DecidableEq α] {needle text before after : List α} {sep : α}

/-- The position of the first occurrence of the needle. -/
def find (needle : List α) : List α → Option ℕ
  | [] => if needle.isEmpty then some 0 else none
  | c :: text =>
    if needle.isPrefixOf (c :: text) then some 0 else (find needle text).map (· + 1)

def contains (text needle : List α) : Bool := (find needle text).isSome

/-- Positions of the occurrences of a nonempty needle, left to right, without overlap. -/
def matchIndicesFrom (needle : List α) : (skip i : ℕ) → List α → List ℕ
  | _, _, [] => []
  | skip + 1, i, _ :: text => matchIndicesFrom needle skip (i + 1) text
  | 0, i, c :: text =>
    if needle.isPrefixOf (c :: text) then
      i :: matchIndicesFrom needle (needle.length - 1) (i + 1) text
    else matchIndicesFrom needle 0 (i + 1) text

def matchIndices (needle text : List α) : List ℕ := matchIndicesFrom needle 0 0 text

/-- The stretches of a text between these positions and its end. -/
def slices (text : List α) : List ℕ → List (List α)
  | [] => []
  | [start] => [text.drop start]
  | start :: stop :: starts => (text.take stop).drop start :: slices text (stop :: starts)

/-- The text before and after the first separator. -/
def splitOnce (sep : α) (text : List α) : Option (List α × List α) :=
  if sep ∈ text then some (text.takeWhile (· ≠ sep), (text.dropWhile (· ≠ sep)).tail) else none

theorem find_eq_some {i : ℕ} (h : find needle text = some i) :
    needle <+: text.drop i ∧ i ≤ text.length := by
  induction text generalizing i with
  | nil =>
    unfold find at h
    split_ifs at h with hempty
    cases h
    rw [List.isEmpty_iff.mp hempty]
    exact ⟨List.nil_prefix, le_rfl⟩
  | cons c text ih =>
    unfold find at h
    split_ifs at h with hhere
    · cases h
      exact ⟨List.isPrefixOf_iff_prefix.mp hhere, Nat.zero_le _⟩
    · obtain ⟨j, hj, rfl⟩ := Option.map_eq_some_iff.mp h
      obtain ⟨hmatch, hlength⟩ := ih hj
      exact ⟨hmatch, by simpa using hlength⟩

theorem find_eq_none (h : find needle text = none) : ¬ needle <:+: text := by
  induction text with
  | nil =>
    unfold find at h
    split_ifs at h with hempty
    intro hwithin
    exact hempty (List.isEmpty_iff.mpr (List.infix_nil.mp hwithin))
  | cons c text ih =>
    unfold find at h
    split_ifs at h with hhere
    rw [List.infix_cons_iff]
    rintro (hstarts | hwithin)
    · exact hhere (List.isPrefixOf_iff_prefix.mpr hstarts)
    · exact ih (Option.map_eq_none_iff.mp h) hwithin

theorem contains_iff : contains text needle = true ↔ needle <:+: text := by
  constructor
  · intro h
    obtain ⟨i, hi⟩ := Option.isSome_iff_exists.mp h
    exact (find_eq_some hi).1.isInfix.trans (List.drop_suffix i text).isInfix
  · intro h
    cases hfind : find needle text with
    | none => exact absurd h (find_eq_none hfind)
    | some i => simp [contains, hfind]

/-- The search stops at the first place where the needle starts. -/
theorem find_le {i j : ℕ} (hfind : find needle text = some i) (hj : needle <+: text.drop j)
    (hlength : j ≤ text.length) : i ≤ j := by
  induction text generalizing i j with
  | nil =>
    have := (find_eq_some hfind).2
    simp at this
    omega
  | cons c text ih =>
    unfold find at hfind
    split_ifs at hfind with hhere
    · cases hfind
      exact Nat.zero_le _
    · obtain ⟨k, hk, rfl⟩ := Option.map_eq_some_iff.mp hfind
      cases j with
      | zero => exact absurd (List.isPrefixOf_iff_prefix.mpr hj) hhere
      | succ j =>
        have := ih hk hj (by simpa using hlength)
        omega

theorem splitOnce_eq_some (h : splitOnce sep text = some (before, after)) :
    text = before ++ sep :: after := by
  unfold splitOnce at h
  split_ifs at h with hmem
  obtain ⟨rfl, rfl⟩ := Prod.mk.inj (Option.some.inj h)
  have hparts := List.takeWhile_append_dropWhile (p := fun c => decide (c ≠ sep)) (l := text)
  have hrest : text.dropWhile (fun c => decide (c ≠ sep)) ≠ [] := by
    intro hnil
    simpa using List.dropWhile_eq_nil_iff.mp hnil sep hmem
  have hhead := List.head_dropWhile_not (fun c => decide (c ≠ sep)) hrest
  rw [decide_eq_false_iff_not, not_not] at hhead
  rw [← List.cons_head_tail hrest, hhead] at hparts
  exact hparts.symm

/-- A needle whose first element occurs nowhere before it is found where it stands. -/
theorem find_append {c : α} {needle before : List α} (hbefore : c ∉ before) (rest : List α) :
    find (c :: needle) (before ++ c :: needle ++ rest) = some before.length := by
  induction before with
  | nil =>
    have hhere : (c :: needle) <+: c :: needle ++ rest := List.prefix_append _ _
    simp only [List.nil_append, List.cons_append, find] at hhere ⊢
    rw [if_pos (List.isPrefixOf_iff_prefix.mpr hhere)]
    rfl
  | cons d before ih =>
    have hd : c ≠ d := by
      rintro rfl
      exact hbefore List.mem_cons_self
    have hrest : c ∉ before := fun hmem => hbefore (List.mem_cons_of_mem d hmem)
    have hfound := ih hrest
    simp only [List.append_assoc, List.cons_append] at hfound ⊢
    simp [find, List.isPrefixOf, hd, hfound]

theorem splitOnce_append (hbefore : sep ∉ before) (after : List α) :
    splitOnce sep (before ++ sep :: after) = some (before, after) := by
  have hkeep : ∀ c ∈ before, decide (c ≠ sep) = true := by
    intro c hc
    simpa using ne_of_mem_of_not_mem hc hbefore
  unfold splitOnce
  rw [if_pos (by simp), List.takeWhile_append_of_pos hkeep, List.dropWhile_append_of_pos hkeep]
  simp

theorem splitOnce_of_notMem (h : sep ∉ text) : splitOnce sep text = none := if_neg h

theorem splitOnce_eq_none_iff : splitOnce sep text = none ↔ sep ∉ text := by
  unfold splitOnce
  split_ifs with hmem <;> simp [hmem]

theorem splitOnce_eq_some_iff :
    splitOnce sep text = some (before, after) ↔ text = before ++ sep :: after ∧ sep ∉ before := by
  constructor
  · intro h
    refine ⟨splitOnce_eq_some h, ?_⟩
    unfold splitOnce at h
    split_ifs at h
    obtain ⟨rfl, -⟩ := Prod.mk.inj (Option.some.inj h)
    intro hmem
    simpa using List.mem_takeWhile_imp hmem
  · rintro ⟨rfl, hbefore⟩
    exact splitOnce_append hbefore after

omit [DecidableEq α] in
theorem prefix_append_sep_iff {needle text rest : List α} {sep : α} (hsep : sep ∉ needle) :
    needle <+: text ++ sep :: rest ↔ needle <+: text := by
  constructor
  · intro h
    by_cases hlength : needle.length ≤ text.length
    · exact List.prefix_of_prefix_length_le h (List.prefix_append text _) hlength
    · have hlong : text ++ [sep] <+: needle := by
        apply @List.prefix_of_prefix_length_le _ _ _ (text ++ sep :: rest) _ h
        · simp only [List.length_append, List.length_singleton]
          omega
        · exact ⟨rest, by simp⟩
      exact absurd (hlong.subset (by simp)) hsep
  · intro h
    exact h.trans (List.prefix_append text _)

omit [DecidableEq α] in
/-- A stretch without the separator lies on one side of it. -/
theorem infix_append_cons_iff (hsep : sep ∉ needle) :
    needle <:+: before ++ sep :: after ↔ needle <:+: before ∨ needle <:+: after := by
  constructor
  · intro h
    induction before with
    | nil =>
      rcases List.infix_cons_iff.mp h with hstarts | hwithin
      · have hnil := (@prefix_append_sep_iff _ _ [] after _ hsep).mp hstarts
        exact .inl hnil.isInfix
      · exact .inr hwithin
    | cons c before ih =>
      rw [List.cons_append, List.infix_cons_iff] at h
      rcases h with hstarts | hwithin
      · rw [← List.cons_append, prefix_append_sep_iff hsep] at hstarts
        exact .inl hstarts.isInfix
      · rcases ih hwithin with hbefore | hafter
        · exact .inl (hbefore.trans (List.suffix_cons c before).isInfix)
        · exact .inr hafter
  · rintro (hbefore | hafter)
    · exact hbefore.trans (List.prefix_append _ _).isInfix
    · exact hafter.trans ((List.suffix_cons sep after).trans (List.suffix_append _ _)).isInfix

omit [DecidableEq α] in
/-- The first piece starts the text, and every piece is a stretch of it. -/
theorem splitOnP_pieces (p : α → Bool) (text : List α) :
    (∃ first pieces, text.splitOnP p = first :: pieces ∧ first <+: text) ∧
      ∀ piece ∈ text.splitOnP p, piece <:+: text := by
  induction text with
  | nil => simp
  | cons c text ih =>
    obtain ⟨⟨first, pieces, hsplit, hstarts⟩, hall⟩ := ih
    rw [List.splitOnP_cons_eq_if_modifyHead, hsplit]
    split_ifs
    · refine ⟨⟨[], first :: pieces, rfl, List.nil_prefix⟩, ?_⟩
      intro piece hpiece
      rcases List.mem_cons.mp hpiece with rfl | hpiece
      · exact List.nil_infix
      · exact (hall piece (hsplit ▸ hpiece)).trans (List.suffix_cons c text).isInfix
    · have hgrown : c :: first <+: c :: text := List.cons_prefix_cons.mpr ⟨rfl, hstarts⟩
      refine ⟨⟨c :: first, pieces, rfl, hgrown⟩, ?_⟩
      intro piece hpiece
      rcases List.mem_cons.mp hpiece with rfl | hpiece
      · exact hgrown.isInfix
      · have hmem : piece ∈ text.splitOnP p := by
          rw [hsplit]
          exact List.mem_cons_of_mem first hpiece
        exact (hall piece hmem).trans (List.suffix_cons c text).isInfix

omit [DecidableEq α] in
theorem takeWhile_append_of_sep {p : α → Bool} (hsep : p sep = false) (before after : List α) :
    (before ++ sep :: after).takeWhile p = before.takeWhile p := by
  induction before with
  | nil => simp [hsep]
  | cons c before ih => cases hc : p c <;> simp [hc, ih]

/-- The length of the longest stretch of elements with a property. -/
def longestRun {α : Type*} (p : α → Bool) : List α → ℕ
  | [] => 0
  | c :: text => max ((c :: text).takeWhile p).length (longestRun p text)

omit [DecidableEq α] in
theorem length_le_longestRun {p : α → Bool} (hp : ∀ c ∈ needle, p c = true) (h : needle <:+: text) :
    needle.length ≤ longestRun p text := by
  induction text with
  | nil => simp [List.infix_nil.mp h]
  | cons c text ih =>
    rw [longestRun, le_max_iff]
    rcases List.infix_cons_iff.mp h with hstarts | hwithin
    · obtain ⟨rest, hrest⟩ := hstarts
      rw [← hrest, List.takeWhile_append_of_pos hp, List.length_append]
      exact .inl (Nat.le_add_right _ _)
    · exact .inr (ih hwithin)

theorem matchIndicesFrom_cons (needle text : List α) (c : α) (i : ℕ) :
    matchIndicesFrom needle 0 i (c :: text) =
      if needle.isPrefixOf (c :: text) then
        i :: matchIndicesFrom needle (needle.length - 1) (i + 1) text
      else matchIndicesFrom needle 0 (i + 1) text := rfl

theorem matchIndicesFrom_add (needle text : List α) (skip i k : ℕ) :
    matchIndicesFrom needle skip (k + i) text = (matchIndicesFrom needle skip i text).map (k + ·) := by
  induction text generalizing skip i with
  | nil => cases skip <;> rfl
  | cons c text ih =>
    cases skip with
    | succ skip => exact ih skip (i + 1)
    | zero =>
      unfold matchIndicesFrom
      split_ifs
      · rw [List.map_cons, ← ih]
        rfl
      · exact ih 0 (i + 1)

theorem mem_matchIndicesFrom {skip i j : ℕ} (hj : j ∈ matchIndicesFrom needle skip i text) :
    i ≤ j ∧ j < i + text.length := by
  induction text generalizing skip i with
  | nil => cases skip <;> cases hj
  | cons c text ih =>
    rw [List.length_cons]
    cases skip with
    | succ skip =>
      have := ih hj
      omega
    | zero =>
      rw [matchIndicesFrom_cons] at hj
      split_ifs at hj
      · rcases List.mem_cons.mp hj with rfl | hrest
        · omega
        · have := ih hrest
          omega
      · have := ih hj
        omega

theorem prefix_of_mem_matchIndicesFrom {skip i j : ℕ}
    (hj : i + j ∈ matchIndicesFrom needle skip i text) : needle <+: text.drop j := by
  induction text generalizing skip i j with
  | nil => cases skip <;> cases hj
  | cons c text ih =>
    have hrest : ∀ {skip : ℕ}, i + j ∈ matchIndicesFrom needle skip (i + 1) text →
        needle <+: (c :: text).drop j := by
      intro skip hmem
      have hlater := (mem_matchIndicesFrom hmem).1
      obtain ⟨k, rfl⟩ : ∃ k, j = k + 1 := ⟨j - 1, by omega⟩
      rw [show i + (k + 1) = i + 1 + k by omega] at hmem
      exact ih hmem
    cases skip with
    | succ skip => exact hrest hj
    | zero =>
      rw [matchIndicesFrom_cons] at hj
      split_ifs at hj with hhere
      · rcases List.mem_cons.mp hj with hzero | hmem
        · obtain rfl : j = 0 := by omega
          exact List.isPrefixOf_iff_prefix.mp hhere
        · exact hrest hmem
      · exact hrest hj

/-- An occurrence is listed, or it overlaps one that is. -/
theorem exists_matchIndicesFrom {needle text : List α} (hne : needle ≠ []) {skip i j : ℕ}
    (hj : needle <+: text.drop j) (hskip : skip ≤ j) :
    ∃ k, i + k ∈ matchIndicesFrom needle skip i text ∧ k ≤ j ∧ j < k + needle.length := by
  induction text generalizing skip i j with
  | nil =>
    rw [List.drop_nil, List.prefix_nil] at hj
    exact absurd hj hne
  | cons c text ih =>
    have hrest : ∀ {skip : ℕ}, skip + 1 ≤ j →
        ∃ k, i + k ∈ matchIndicesFrom needle skip (i + 1) text ∧ k ≤ j ∧ j < k + needle.length := by
      intro skip hlater
      obtain ⟨j, rfl⟩ : ∃ k, j = k + 1 := ⟨j - 1, by omega⟩
      obtain ⟨k, hmem, hle, hlt⟩ := @ih skip (i + 1) j hj (by omega)
      refine ⟨k + 1, ?_, by omega, by omega⟩
      rwa [show i + (k + 1) = i + 1 + k by omega]
    cases skip with
    | succ skip => exact hrest hskip
    | zero =>
      rw [matchIndicesFrom_cons]
      split_ifs with hhere
      · by_cases hnear : j < needle.length
        · exact ⟨0, List.mem_cons_self, Nat.zero_le _, by omega⟩
        · have hpos := List.length_pos_iff.mpr hne
          obtain ⟨k, hmem, hbounds⟩ := @hrest (needle.length - 1) (by omega)
          exact ⟨k, List.mem_cons_of_mem _ hmem, hbounds⟩
      · apply hrest
        rcases Nat.eq_zero_or_pos j with rfl | hpos
        · exact absurd (List.isPrefixOf_iff_prefix.mpr hj) hhere
        · exact hpos

/-- No occurrence crosses a separator the needle does not contain. -/
theorem matchIndicesFrom_append (hsep : sep ∉ needle) (hne : needle ≠ []) (text rest : List α)
    {skip : ℕ} (hskip : skip ≤ text.length) (i : ℕ) :
    matchIndicesFrom needle skip i (text ++ sep :: rest) =
      matchIndicesFrom needle skip i text ++
        matchIndicesFrom needle 0 (i + text.length + 1) rest := by
  induction text generalizing skip i with
  | nil =>
    obtain rfl : skip = 0 := by simpa using hskip
    have hnone : needle.isPrefixOf (sep :: rest) = false := by
      by_contra hmatch
      rw [Bool.not_eq_false, List.isPrefixOf_iff_prefix] at hmatch
      obtain ⟨c, tail, rfl⟩ := List.exists_cons_of_ne_nil hne
      exact hsep ((List.cons_prefix_cons.mp hmatch).1 ▸ List.mem_cons_self)
    simp [matchIndicesFrom, hnone]
  | cons c text ih =>
    cases skip with
    | succ skip =>
      have hshort : skip ≤ text.length := by simpa using hskip
      simp only [List.cons_append, matchIndicesFrom, List.length_cons]
      rw [ih hshort]
      congr 2
      omega
    | zero =>
      have hsame : needle.isPrefixOf (c :: text ++ sep :: rest) = needle.isPrefixOf (c :: text) := by
        rw [Bool.eq_iff_iff, List.isPrefixOf_iff_prefix, List.isPrefixOf_iff_prefix]
        exact prefix_append_sep_iff hsep
      simp only [List.cons_append] at hsame ⊢
      rw [matchIndicesFrom_cons, matchIndicesFrom_cons, hsame]
      split_ifs with hmatch
      · have hlength := (List.isPrefixOf_iff_prefix.mp hmatch).length_le
        simp only [List.length_cons] at hlength ⊢
        rw [ih (by omega), List.cons_append]
        congr 3
        omega
      · rw [ih (Nat.zero_le _)]
        simp only [List.length_cons]
        congr 2
        omega

omit [DecidableEq α] in
theorem slices_append (before text : List α) (starts : List ℕ) :
    slices (before ++ text) (starts.map (before.length + ·)) = slices text starts := by
  induction starts with
  | nil => rfl
  | cons start starts ih =>
    cases starts with
    | nil => simp [slices]
    | cons stop starts =>
      simp only [List.map_cons, slices] at ih ⊢
      rw [ih, List.take_length_add_append, List.drop_length_add_append]

end Search

/-- The pieces of a list, each ending at its separator. -/
def splitInclusive {α : Type*} [DecidableEq α] (sep : α) : List α → List (List α)
  | [] => []
  | c :: text =>
    if c = sep then [c] :: splitInclusive sep text
    else
      match splitInclusive sep text with
      | [] => [[c]]
      | piece :: rest => (c :: piece) :: rest

/-- A line without its line break, `\n` or `\r\n`. -/
def stripLineBreak (line : Text) : Text :=
  if line.getLast? = some '\n' then
    let line := line.dropLast
    if line.getLast? = some '\r' then line.dropLast else line
  else line

def lines (text : Text) : List Text := (splitInclusive '\n' text).map stripLineBreak

section Lines

variable {α : Type*} [DecidableEq α] {sep : α}

theorem splitInclusive_flatten (text : List α) : (splitInclusive sep text).flatten = text := by
  induction text with
  | nil => rfl
  | cons c text ih =>
    unfold splitInclusive
    split_ifs
    · simp [ih]
    · split
      · rename_i hnone
        rw [hnone] at ih
        simpa using ih
      · rename_i piece rest hsome
        rw [hsome] at ih
        simpa using ih

/-- A piece without a separator in it is cut off at the separator that ends it. -/
theorem splitInclusive_append {piece : List α} (hpiece : sep ∉ piece) (rest : List α) :
    splitInclusive sep (piece ++ sep :: rest) = (piece ++ [sep]) :: splitInclusive sep rest := by
  induction piece with
  | nil => simp [splitInclusive]
  | cons c piece ih =>
    have hc : c ≠ sep := by
      rintro rfl
      exact hpiece List.mem_cons_self
    have hrest : sep ∉ piece := fun hmem => hpiece (List.mem_cons_of_mem c hmem)
    simp [splitInclusive, hc, ih hrest]

theorem splitInclusive_of_notMem {text : List α} (htext : sep ∉ text) (hne : text ≠ []) :
    splitInclusive sep text = [text] := by
  induction text with
  | nil => exact absurd rfl hne
  | cons c text ih =>
    have hc : c ≠ sep := by
      rintro rfl
      exact htext List.mem_cons_self
    have hrest : sep ∉ text := fun hmem => htext (List.mem_cons_of_mem c hmem)
    unfold splitInclusive
    rw [if_neg hc]
    cases text with
    | nil => rfl
    | cons d text => rw [ih hrest (by simp)]

end Lines

/-- The text of a list of lines, each with its line break. -/
def unlines (texts : List Text) : Text := texts.flatMap fun line => line ++ ['\n']

@[simp] theorem unlines_nil : unlines [] = [] := rfl

@[simp] theorem unlines_cons (line : Text) (texts : List Text) :
    unlines (line :: texts) = line ++ '\n' :: unlines texts := by
  simp [unlines]

@[simp] theorem unlines_append (before after : List Text) :
    unlines (before ++ after) = unlines before ++ unlines after := by
  simp [unlines]

/-- Split at its line breaks, such a text has an empty piece after the last one. -/
theorem intercalate_unlines (texts : List Text) :
    ['\n'].intercalate (texts ++ [[]]) = unlines texts := by
  induction texts with
  | nil => rfl
  | cons line texts ih =>
    rw [List.cons_append, List.intercalate_cons_of_ne_nil (by simp), ih, unlines_cons]
    simp

theorem splitOn_unlines (htexts : ∀ line ∈ texts, '\n' ∉ line) :
    (unlines texts).splitOn '\n' = texts ++ [[]] := by
  rw [← intercalate_unlines]
  apply List.splitOn_intercalate
  · intro line hline
    rcases List.mem_append.mp hline with hline | hline
    · exact htexts line hline
    · simp [List.mem_singleton.mp hline]
  · simp

/-- One carriage return at the end of a line belongs to its line break. -/
def chomp (line : Text) : Text := if line.getLast? = some '\r' then line.dropLast else line

theorem lines_append {line : Text} (hline : '\n' ∉ line) (rest : Text) :
    lines (line ++ '\n' :: rest) = chomp line :: lines rest := by
  simp [lines, splitInclusive_append hline, stripLineBreak, chomp]

theorem lines_unlines (htexts : ∀ line ∈ texts, '\n' ∉ line) :
    lines (unlines texts) = texts.map chomp := by
  induction texts with
  | nil => rfl
  | cons line texts ih =>
    rw [unlines_cons, lines_append (htexts line List.mem_cons_self),
      ih fun other hmem => htexts other (List.mem_cons_of_mem line hmem), List.map_cons]

theorem lines_unlines_append (htexts : ∀ line ∈ texts, '\n' ∉ line) (rest : Text) :
    lines (unlines texts ++ rest) = texts.map chomp ++ lines rest := by
  induction texts with
  | nil => rfl
  | cons line texts ih =>
    rw [unlines_cons, List.append_assoc, List.cons_append,
      lines_append (htexts line List.mem_cons_self),
      ih fun other hmem => htexts other (List.mem_cons_of_mem line hmem), List.map_cons,
      List.cons_append]

theorem lines_of_notMem {text : Text} (htext : '\n' ∉ text) (hne : text ≠ []) :
    lines text = [text] := by
  have hlast : text.getLast? ≠ some '\n' := fun hlast => htext (List.mem_of_getLast? hlast)
  simp [lines, splitInclusive_of_notMem htext hne, stripLineBreak, hlast]

/-- A text is one line without its break, or a line in front of another text. -/
@[elab_as_elim]
theorem lines_induction {motive : Text → Prop} (last : ∀ line, '\n' ∉ line → motive line)
    (line : ∀ line rest, '\n' ∉ line → motive rest → motive (line ++ '\n' :: rest)) (text : Text) :
    motive text := by
  induction hlength : text.length using Nat.strong_induction_on generalizing text with
  | h n ih =>
    by_cases hbreak : '\n' ∈ text
    · obtain ⟨first, rest, rfl, hfirst⟩ := List.eq_append_cons_of_mem hbreak
      apply line first rest hfirst
      apply ih rest.length _ rest rfl
      rw [← hlength, List.length_append, List.length_cons]
      omega
    · exact last text hbreak

theorem lines_append_lines (before after : Text) :
    lines (before ++ '\n' :: after) = lines (before ++ ['\n']) ++ lines after := by
  induction before using lines_induction with
  | last line hline =>
    rw [lines_append hline, lines_append hline]
    rfl
  | line line rest hline ih =>
    simp only [List.append_assoc, List.cons_append]
    rw [lines_append hline, lines_append hline, ih, List.cons_append]

theorem notMem_of_mem_lines {text line : Text} (h : line ∈ lines text) : '\n' ∉ line := by
  have hchomp : ∀ raw : Text, '\n' ∉ raw → '\n' ∉ chomp raw := by
    intro raw hraw hmem
    unfold chomp at hmem
    split_ifs at hmem
    · exact hraw (List.dropLast_subset raw hmem)
    · exact hraw hmem
  induction text using lines_induction with
  | last raw hraw =>
    by_cases hne : raw = []
    · rw [hne] at h
      cases h
    · rw [lines_of_notMem hraw hne] at h
      rwa [List.mem_singleton.mp h]
  | line raw rest hraw ih =>
    rw [lines_append hraw] at h
    rcases List.mem_cons.mp h with rfl | hmem
    · exact hchomp raw hraw
    · exact ih hmem

/-- Lines joined by line breaks; the last one may or may not have its own. -/
def joinLines (terminated : Bool) (texts : List Text) : Text :=
  if terminated then unlines texts else (unlines texts).dropLast

/-- The lines of a joined text: each loses a carriage return before its line break. -/
def receiveLines (terminated : Bool) : List Text → List Text
  | [] => []
  | [last] => [if terminated then chomp last else last]
  | line :: texts => chomp line :: receiveLines terminated texts

theorem receiveLines_append (terminated : Bool) (before : List Text) {after : List Text}
    (hafter : after ≠ []) : receiveLines terminated (before ++ after) =
      before.map chomp ++ receiveLines terminated after := by
  induction before with
  | nil => rfl
  | cons line before ih =>
    rw [List.cons_append, List.map_cons, List.cons_append, ← ih]
    have hrest : before ++ after ≠ [] := by simp [hafter]
    cases hcons : before ++ after with
    | nil => exact absurd hcons hrest
    | cons _ _ => rfl

theorem receiveLines_true (texts : List Text) : receiveLines true texts = texts.map chomp := by
  induction texts with
  | nil => rfl
  | cons line texts ih =>
    cases texts with
    | nil => rfl
    | cons next texts =>
      rw [receiveLines, ih, List.map_cons (a := line)]
      exact List.cons_ne_nil next texts

theorem lines_joinLines (terminated : Bool) (htexts : ∀ line ∈ texts, '\n' ∉ line)
    (hlast : texts.getLast? ≠ some []) :
    lines (joinLines terminated texts) = receiveLines terminated texts := by
  cases terminated with
  | true =>
    rw [receiveLines_true]
    exact lines_unlines htexts
  | false =>
    rcases List.eq_nil_or_concat' texts with rfl | ⟨before, last, rfl⟩
    · rfl
    · have hjoin : joinLines false (before ++ [last]) = unlines before ++ last := by
        simp [joinLines, ← List.append_assoc]
      have hne : last ≠ [] := by simpa using hlast
      rw [hjoin, lines_unlines_append fun line hmem => htexts line (by simp [hmem]),
        lines_of_notMem (htexts last (by simp)) hne, receiveLines_append _ _ (by simp)]
      rfl

theorem mem_receiveLines {terminated : Bool} {raw : Text}
    (hraw : raw ∈ receiveLines terminated texts) :
    ∃ line ∈ texts, raw = line ∨ raw = chomp line := by
  induction texts with
  | nil => cases hraw
  | cons line texts ih =>
    cases texts with
    | nil =>
      have hlast : raw = if terminated then chomp line else line := List.mem_singleton.mp hraw
      refine ⟨line, List.mem_cons_self, ?_⟩
      cases terminated with
      | true => exact .inr hlast
      | false => exact .inl hlast
    | cons next texts =>
      rcases List.mem_cons.mp hraw with rfl | hrest
      · exact ⟨line, List.mem_cons_self, .inr rfl⟩
      · obtain ⟨other, hother, heq⟩ := ih hrest
        exact ⟨other, List.mem_cons_of_mem line hother, heq⟩

/-- A joined text has no other lines than those it joins. -/
theorem mem_lines_joinLines {terminated : Bool} (htexts : ∀ line ∈ texts, '\n' ∉ line) {raw : Text}
    (hraw : raw ∈ lines (joinLines terminated texts)) :
    ∃ line ∈ texts, raw = line ∨ raw = chomp line := by
  by_cases hlast : texts.getLast? = some []
  · obtain ⟨before, rfl⟩ := List.getLast?_eq_some_iff.mp hlast
    have hshort : ∀ line ∈ before, '\n' ∉ line := fun line hmem => htexts line (by simp [hmem])
    cases terminated with
    | true =>
      rw [joinLines, if_pos rfl, lines_unlines htexts, ← receiveLines_true] at hraw
      exact mem_receiveLines hraw
    | false =>
      have hjoin : joinLines false (before ++ [[]]) = unlines before := by
        simp [joinLines]
      rw [hjoin, lines_unlines hshort] at hraw
      obtain ⟨line, hline, rfl⟩ := List.mem_map.mp hraw
      exact ⟨line, by simp [hline], .inr rfl⟩
  · rw [lines_joinLines terminated htexts hlast] at hraw
    exact mem_receiveLines hraw

theorem chomp_append {before after : Text}
    (h : after ≠ [] ∨ before.getLast? ≠ some '\r') : chomp (before ++ after) = before ++ chomp after := by
  rcases List.eq_nil_or_concat' after with rfl | ⟨init, last, rfl⟩
  · have hbefore : before.getLast? ≠ some '\r' := by simpa using h
    simp [chomp, hbefore]
  · unfold chomp
    rw [← List.append_assoc]
    simp only [List.getLast?_concat, List.dropLast_concat]
    split_ifs <;> simp

/-- The characters with the Unicode property White_Space. -/
def isWhitespace (c : Char) : Bool :=
  let n := c.toNat
  (9 ≤ n && n ≤ 13) || n = 0x20 || n = 0x85 || n = 0xA0 || n = 0x1680 ||
    (0x2000 ≤ n && n ≤ 0x200A) || n = 0x2028 || n = 0x2029 || n = 0x202F || n = 0x205F ||
    n = 0x3000

def trimStart (text : Text) : Text := text.dropWhile isWhitespace

def trimEnd (text : Text) : Text := text.rdropWhile isWhitespace

def trim (text : Text) : Text := trimEnd (trimStart text)

theorem trim_eq_nil_iff {text : Text} : trim text = [] ↔ ∀ c ∈ text, isWhitespace c = true := by
  unfold trim trimEnd trimStart
  rw [List.rdropWhile_eq_nil_iff]
  constructor
  · intro h
    apply List.dropWhile_eq_nil_iff.mp
    by_contra hne
    have hhead := List.head_dropWhile_not isWhitespace hne
    rw [h _ (List.head_mem hne)] at hhead
    cases hhead
  · intro h c hc
    exact h c ((List.dropWhile_suffix _).subset hc)

theorem trim_infix_self (text : Text) : trim text <:+: text :=
  (List.rdropWhile_prefix _ _).isInfix.trans (List.dropWhile_suffix _).isInfix

/-- Nothing is trimmed from a text that neither starts nor ends with white space. -/
theorem trim_of_ends {c d : Char} (hc : isWhitespace c = false) (hd : isWhitespace d = false)
    (text : Text) : trim (c :: (text ++ [d])) = c :: (text ++ [d]) := by
  have hstart : trimStart (c :: (text ++ [d])) = c :: text ++ [d] := by
    simp [trimStart, hc]
  rw [trim, hstart, trimEnd, List.rdropWhile_concat_neg _ _ _ (by simp [hd])]
  rfl

theorem trimEnd_concat {c : Char} (hc : isWhitespace c = true) (text : Text) :
    trimEnd (text ++ [c]) = trimEnd text :=
  List.rdropWhile_concat_pos _ _ _ hc

theorem trimEnd_append {before after : Text} (h : trimEnd after ≠ []) :
    trimEnd (before ++ after) = before ++ trimEnd after := by
  unfold trimEnd List.rdropWhile at h ⊢
  rw [List.reverse_append, List.dropWhile_append, if_neg (by simpa using h)]
  simp

/-- Both ends can be trimmed in either order. -/
theorem trimStart_trimEnd (text : Text) : trimStart (trimEnd text) = trimEnd (trimStart text) := by
  by_cases hblank : trimStart text = []
  · have hall := List.dropWhile_eq_nil_iff.mp hblank
    have hend : trimEnd text = [] := (List.rdropWhile_eq_nil_iff).mpr hall
    rw [hblank, hend]
    rfl
  · have hhead := List.head_dropWhile_not isWhitespace hblank
    have hsplit : text = text.takeWhile isWhitespace ++ trimStart text :=
      List.takeWhile_append_dropWhile.symm
    cases hstart : trimStart text with
    | nil => exact absurd hstart hblank
    | cons c rest =>
      have hc : isWhitespace c = false := by
        have hfirst : (trimStart text).head hblank = c := by simp [hstart]
        rw [← hfirst]
        exact hhead
      have hne : trimEnd (c :: rest) ≠ [] := by
        intro hnil
        rw [(List.rdropWhile_eq_nil_iff).mp hnil c List.mem_cons_self] at hc
        cases hc
      rw [hstart] at hsplit
      rw [hsplit, trimEnd_append hne, trimStart,
        List.dropWhile_append_of_pos fun d hd => List.mem_takeWhile_imp hd]
      obtain ⟨tail, htail⟩ : ∃ tail, trimEnd (c :: rest) = c :: tail := by
        have hopens : trimEnd (c :: rest) <+: c :: rest := List.rdropWhile_prefix _ _
        cases hend : trimEnd (c :: rest) with
        | nil => exact absurd hend hne
        | cons d tail =>
          rw [hend] at hopens
          exact ⟨tail, by rw [(List.cons_prefix_cons.mp hopens).1]⟩
      rw [htail]
      simp [hc]

theorem trim_trimEnd (text : Text) : trim (trimEnd text) = trim text := by
  rw [trim, trimStart_trimEnd]
  exact List.rdropWhile_idempotent _ _

theorem trim_trim (text : Text) : trim (trim text) = trim text := by
  have hstart : trim (trimStart text) = trim text := by
    unfold trim trimStart
    rw [List.dropWhile_idempotent]
  rw [show trim text = trimEnd (trimStart text) from rfl, trim_trimEnd, hstart]
  rfl

/-- White space in front is trimmed away. -/
theorem trim_append_of_blank {lead : Text} (hlead : ∀ c ∈ lead, isWhitespace c = true)
    (text : Text) : trim (lead ++ text) = trim text := by
  rw [trim, trimStart, List.dropWhile_append_of_pos hlead]
  rfl

theorem trim_chomp (text : Text) : trim (chomp text) = trim text := by
  unfold chomp
  split_ifs with hlast
  · obtain ⟨init, rfl⟩ := List.getLast?_eq_some_iff.mp hlast
    have hreturn : isWhitespace '\r' = true := by decide
    rw [List.dropLast_concat]
    unfold trim trimStart
    by_cases hall : ∀ c ∈ init, isWhitespace c = true
    · rw [List.dropWhile_append_of_pos hall, List.dropWhile_eq_nil_iff.mpr hall]
      simp [trimEnd, hreturn]
    · have hrest : init.dropWhile isWhitespace ≠ [] := by
        rwa [Ne, List.dropWhile_eq_nil_iff]
      rw [List.dropWhile_append, if_neg (by simpa using hrest), trimEnd_concat hreturn]
  · rfl

def splitWhitespace (text : Text) : List Text :=
  (text.splitOnP isWhitespace).filter fun token => !token.isEmpty

def toAsciiLowercase (text : Text) : Text := text.map Char.toLower

/-- A character is its own lower case, or an ASCII capital. -/
theorem toLower_cases (c : Char) : c.toLower = c ∨
    (65 ≤ c.toNat ∧ c.toNat ≤ 90) ∧ c.toLower.toNat = c.toNat + 32 := by
  by_cases h : c.val ≥ 'A'.val ∧ c.val ≤ 'Z'.val
  · right
    have hrange : 65 ≤ c.toNat ∧ c.toNat ≤ 90 :=
      ⟨UInt32.le_iff_toNat_le.mp h.1, UInt32.le_iff_toNat_le.mp h.2⟩
    refine ⟨hrange, ?_⟩
    have hval : c.toLower.val = c.val + ('a'.val - 'A'.val) := by
      unfold Char.toLower
      rw [dif_pos h]
    have hshift : ('a'.val - 'A'.val).toNat = 32 := by decide
    have hsum : c.toLower.toNat = (c.toNat + 32) % 2 ^ 32 := by
      rw [← hshift]
      exact (congrArg UInt32.toNat hval).trans (UInt32.toNat_add _ _)
    rw [hsum, Nat.mod_eq_of_lt (by omega)]
  · left
    unfold Char.toLower
    rw [dif_neg h]

/-- The length in bytes. -/
def utf8Len (text : Text) : ℕ := (text.map Char.utf8Size).sum

def decimal (n : ℕ) : Text := Nat.toDigits 10 n

/-- An unsigned decimal that fits 64 bits; a leading plus sign is accepted. -/
def parseU64 (text : Text) : Option ℕ :=
  let digits := if text.head? = some '+' then text.tail else text
  if !digits.isEmpty && digits.all Char.isDigit then
    let n := Nat.ofDigitChars 10 digits 0
    if n < 2 ^ 64 then some n else none
  else none

theorem isDigit_of_mem_decimal {n : ℕ} {c : Char} (hc : c ∈ decimal n) : c.isDigit = true :=
  Nat.isDigit_of_mem_toDigits (by decide) (by decide) hc

theorem notMem_decimal {c : Char} (hc : c.isDigit = false) (n : ℕ) : c ∉ decimal n := by
  intro hmem
  rw [isDigit_of_mem_decimal hmem] at hc
  cases hc

theorem isDigit_range {c : Char} (hc : c.isDigit = true) : 48 ≤ c.toNat ∧ c.toNat ≤ 57 := by
  unfold Char.isDigit at hc
  rw [Bool.and_eq_true, decide_eq_true_eq, decide_eq_true_eq] at hc
  exact ⟨UInt32.le_iff_toNat_le.mp hc.1, UInt32.le_iff_toNat_le.mp hc.2⟩

theorem isAlphanum_range {c : Char} (hc : c.isAlphanum = true) :
    48 ≤ c.toNat ∧ c.toNat ≤ 122 := by
  have hcases : (decide ('A'.val ≤ c.val ∧ c.val ≤ 'Z'.val) ||
      (decide ('a'.val ≤ c.val) && decide (c.val ≤ 'z'.val)) || c.isDigit) = true := hc
  simp only [Bool.or_eq_true, Bool.and_eq_true, decide_eq_true_eq, UInt32.le_iff_toNat_le,
    Char.toNat_val, Char.reduceVal, UInt32.reduceToNat] at hcases
  rcases hcases with (hupper | hlower) | hdigit
  · omega
  · omega
  · have hrange := isDigit_range hdigit
    omega

theorem isWhitespace_of_range {c : Char} (hlow : 33 ≤ c.toNat) (hhigh : c.toNat ≤ 122) :
    isWhitespace c = false := by
  simp only [isWhitespace, Bool.or_eq_false_iff, Bool.and_eq_false_iff, decide_eq_false_iff_not]
  omega

theorem isWhitespace_of_isDigit {c : Char} (hc : c.isDigit = true) : isWhitespace c = false := by
  have hrange := isDigit_range hc
  exact isWhitespace_of_range (by omega) (by omega)

theorem decimal_ne_nil (n : ℕ) : decimal n ≠ [] := Nat.toDigits_ne_nil

theorem parseU64_decimal {n : ℕ} (hn : n < 2 ^ 64) : parseU64 (decimal n) = some n := by
  have hdigits : ∀ c ∈ decimal n, c.isDigit = true := fun c hc => isDigit_of_mem_decimal hc
  have hplus : (decimal n).head? ≠ some '+' := by
    intro hhead
    have := hdigits '+' (List.mem_of_head? hhead)
    revert this
    decide
  unfold parseU64
  simp only [if_neg hplus]
  rw [if_pos (by simpa [decimal_ne_nil] using hdigits)]
  have hvalue : Nat.ofDigitChars 10 (decimal n) 0 = n := Nat.ofDigitChars_ten_toDigits
  rw [hvalue, if_pos hn]

end Text

end TinySweeper
