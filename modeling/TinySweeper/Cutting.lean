import Mathlib.Tactic

/-!
# Texts with spans cut out of them

A pass over a text keeps some stretches of it and writes a mark for each span
between them. What the result holds is read off the stretches.
-/

namespace TinySweeper

/-- A suffix of two texts begins in the second one, or in the first. -/
theorem suffix_append_cases {α : Type*} {rest before after : List α}
    (h : rest <:+ before ++ after) :
    rest <:+ after ∨ ∃ inside, rest = inside ++ after ∧ inside <:+ before := by
  obtain ⟨front, hfront⟩ := h
  rcases List.append_eq_append_iff.mp hfront with ⟨inside, hinside, hrest⟩ | ⟨middle, -, hafter⟩
  · exact .inr ⟨inside, hrest, front, hinside.symm⟩
  · exact .inl ⟨middle, hafter.symm⟩

theorem append_suffix_append {α : Type*} {inside before : List α} (h : inside <:+ before)
    (after : List α) : inside ++ after <:+ before ++ after := by
  obtain ⟨front, rfl⟩ := h
  exact ⟨front, (List.append_assoc front inside after).symm⟩

/-- A text as the stretches that are kept, each but the last with the span removed behind it. -/
structure Cutting (α : Type*) where
  pairs : List (List α × List α)
  last : List α
  deriving DecidableEq, Repr

namespace Cutting

variable {α : Type*}

/-- The text that was cut. -/
def source (c : Cutting α) : List α := c.pairs.flatMap (fun pair => pair.1 ++ pair.2) ++ c.last

/-- The text with the mark in the place of every removed span. -/
def written (mark : List α) (c : Cutting α) : List α :=
  c.pairs.flatMap (fun pair => pair.1 ++ mark) ++ c.last

def stretches (c : Cutting α) : List (List α) := c.pairs.map Prod.fst ++ [c.last]

/-- The stretch the text begins with. -/
def first (c : Cutting α) : List α := (c.pairs.head?.map Prod.fst).getD c.last

/-- Nothing is removed. -/
def whole (text : List α) : Cutting α := ⟨[], text⟩

/-- Keep this text before everything else. -/
def keep (text : List α) : Cutting α → Cutting α
  | ⟨[], last⟩ => ⟨[], text ++ last⟩
  | ⟨(stretch, span) :: pairs, last⟩ => ⟨(text ++ stretch, span) :: pairs, last⟩

/-- Remove this text before everything else. -/
def cut (span : List α) (c : Cutting α) : Cutting α := ⟨([], span) :: c.pairs, c.last⟩

variable {mark text span : List α} {c : Cutting α}

@[simp] theorem source_whole : (whole text).source = text := rfl

@[simp] theorem written_whole : (whole text).written mark = text := rfl

@[simp] theorem stretches_whole : (whole text).stretches = [text] := rfl

@[simp] theorem source_keep : (c.keep text).source = text ++ c.source := by
  obtain ⟨_ | ⟨pair, pairs⟩, last⟩ := c <;> simp [keep, source]

@[simp] theorem written_keep : (c.keep text).written mark = text ++ c.written mark := by
  obtain ⟨_ | ⟨pair, pairs⟩, last⟩ := c <;> simp [keep, written]

@[simp] theorem source_cut : (c.cut span).source = span ++ c.source := by
  simp [cut, source]

@[simp] theorem written_cut : (c.cut span).written mark = mark ++ c.written mark := by
  simp [cut, written]

theorem stretches_eq_cons : c.stretches = c.first :: c.stretches.tail := by
  obtain ⟨_ | ⟨pair, pairs⟩, last⟩ := c <;> rfl

@[simp] theorem first_whole : (whole text).first = text := rfl

@[simp] theorem first_keep : (c.keep text).first = text ++ c.first := by
  obtain ⟨_ | ⟨pair, pairs⟩, last⟩ := c <;> rfl

@[simp] theorem first_cut : (c.cut span).first = [] := rfl

@[simp] theorem tail_stretches_keep : (c.keep text).stretches.tail = c.stretches.tail := by
  obtain ⟨_ | ⟨pair, pairs⟩, last⟩ := c <;> rfl

@[simp] theorem stretches_cut : (c.cut span).stretches = [] :: c.stretches := rfl

@[simp] theorem pairs_keep_eq_nil : (c.keep text).pairs = [] ↔ c.pairs = [] := by
  obtain ⟨_ | ⟨pair, pairs⟩, last⟩ := c <;> simp [keep]

@[simp] theorem pairs_cut_ne_nil : (c.cut span).pairs ≠ [] := List.cons_ne_nil _ _

theorem keep_nil : c.keep [] = c := by
  obtain ⟨_ | ⟨pair, pairs⟩, last⟩ := c <;> simp [keep]

theorem keep_keep {front : List α} : (c.keep text).keep front = c.keep (front ++ text) := by
  obtain ⟨_ | ⟨pair, pairs⟩, last⟩ := c <;> simp [keep]

/-- A text of which nothing is removed is written as it was. -/
theorem written_of_pairs_eq_nil (h : c.pairs = []) : c.written mark = c.source := by
  simp [written, source, h]

/-- A mark written for itself changes nothing. -/
theorem written_eq_source (h : ∀ pair ∈ c.pairs, pair.2 = mark) : c.written mark = c.source := by
  have hpairs : c.pairs.flatMap (fun pair => pair.1 ++ mark) =
      c.pairs.flatMap (fun pair => pair.1 ++ pair.2) := by
    apply List.flatMap_congr
    intro pair hpair
    rw [h pair hpair]
  rw [written, source, hpairs]

theorem source_of_pairs_cons {stretch : List α} {pairs : List (List α × List α)} {last : List α} :
    (⟨(stretch, span) :: pairs, last⟩ : Cutting α).source =
      stretch ++ (span ++ (⟨pairs, last⟩ : Cutting α).source) := by
  simp [source]

theorem written_of_pairs_cons {stretch : List α} {pairs : List (List α × List α)} {last : List α} :
    (⟨(stretch, span) :: pairs, last⟩ : Cutting α).written mark =
      stretch ++ (mark ++ (⟨pairs, last⟩ : Cutting α).written mark) := by
  simp [written]

theorem first_prefix : c.first <+: c.source := by
  obtain ⟨_ | ⟨⟨stretch, span⟩, pairs⟩, last⟩ := c
  · exact List.prefix_rfl
  · rw [source_of_pairs_cons]
    exact List.prefix_append stretch _

theorem infix_source_of_mem {stretch : List α} (h : stretch ∈ c.stretches) :
    stretch <:+: c.source := by
  obtain ⟨pairs, last⟩ := c
  induction pairs with
  | nil =>
    rw [List.mem_singleton.mp h]
    exact List.infix_rfl
  | cons pair pairs ih =>
    obtain ⟨kept, span⟩ := pair
    rw [source_of_pairs_cons]
    rcases List.mem_cons.mp h with rfl | hlater
    · exact (List.prefix_append _ _).isInfix
    · exact (ih hlater).trans
        ((List.suffix_append span _).trans (List.suffix_append kept _)).isInfix

end Cutting

end TinySweeper
