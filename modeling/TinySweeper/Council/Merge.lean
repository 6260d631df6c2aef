import Mathlib.Data.Prod.Lex
import TinySweeper.Findings.Finding
import TinySweeper.Rounds

/-!
# Folding the findings of several reviewers

Each reviewer's findings are a round: what corroborates a finding of an earlier
reviewer is absorbed by it, at most one a round. Agreement raises a confidence up to
a ceiling, keeps the highest severity, and takes the words of one of the findings.
-/

namespace TinySweeper.Council

open Text Findings Rounds
open Scan (Severity)

/-- How far apart two anchors may be and still be one observation. -/
def LINE_TOLERANCE : ℕ := 3

def saturatingAdd64 (a b : ℕ) : ℕ := min (a + b) (2 ^ 64 - 1)

/-- Whether two reviewers observed the same thing; their words are not compared. -/
def corroborates (a b : Finding ℚ) : Bool :=
  if a.lane ≠ b.lane ∨ a.path ≠ b.path then false
  else if a.identity.isSome && a.identity = b.identity then true
  else
    match a.range, b.range with
    | some (aStart, aEnd), some (bStart, bEnd) =>
      let low := bStart - LINE_TOLERANCE
      let high := saturatingAdd64 bEnd LINE_TOLERANCE
      aStart ≤ high && aEnd ≥ low
    -- Neither could be placed, and the rules they name are the only evidence.
    | none, none =>
      let left := trim a.rule
      let right := trim b.rule
      !left.isEmpty && !right.isEmpty && toAsciiLowercase left = toAsciiLowercase right
    | _, _ => false

def CONFIDENCE_CEILING : ℚ := 99 / 100

/-- What findings are compared by: the confidence, then the severity. -/
def strength (f : Finding ℚ) : ℚ ×ₗ Severity := toLex (f.confidence, f.severity)

/-- The better statement stays, with the identity first seen. -/
def absorb (kept other : Finding ℚ) : Finding ℚ :=
  let combined := 1 - (1 - kept.confidence) * (1 - other.confidence)
  let corroboration := min (kept.corroboration + other.corroboration) 255
  let severity := max kept.severity other.severity
  let best := if strength kept < strength other then { other with identity := kept.identity } else kept
  { best with confidence := min combined CONFIDENCE_CEILING, corroboration, severity }

/-- The findings of all reviewers, in the order of their first appearance. -/
def merge (reviews : List (List (Finding ℚ))) : List (Finding ℚ) :=
  rounds corroborates absorb id reviews

/-- Everything a finding says, apart from what merging computes or keeps. -/
def words (f : Finding ℚ) : Finding ℚ :=
  { f with confidence := 0, severity := .low, corroboration := 0, identity := none }

/-- Confidences are probabilities, and corroboration is counted in a byte. -/
structure Proper (f : Finding ℚ) : Prop where
  nonneg : 0 ≤ f.confidence
  le_one : f.confidence ≤ 1
  byte : f.corroboration ≤ 255

theorem absorb_confidence (kept other : Finding ℚ) : (absorb kept other).confidence =
    min (1 - (1 - kept.confidence) * (1 - other.confidence)) CONFIDENCE_CEILING := rfl

theorem absorb_corroboration (kept other : Finding ℚ) : (absorb kept other).corroboration =
    min (kept.corroboration + other.corroboration) 255 := rfl

theorem absorb_severity (kept other : Finding ℚ) :
    (absorb kept other).severity = max kept.severity other.severity := rfl

theorem words_absorb (kept other : Finding ℚ) : words (absorb kept other) =
    if strength kept < strength other then words other else words kept := by
  unfold absorb
  split <;> rfl

variable {kept other : Finding ℚ}

theorem proper_absorb (hkept : Proper kept) (hother : Proper other) : Proper (absorb kept other) := by
  obtain ⟨hk0, hk1, _⟩ := hkept
  obtain ⟨ho0, ho1, _⟩ := hother
  have hproduct : (1 - kept.confidence) * (1 - other.confidence) ≤ 1 :=
    mul_le_one₀ (by linarith) (by linarith) (by linarith)
  constructor
  · rw [absorb_confidence]
    exact le_min (by linarith) (by norm_num [CONFIDENCE_CEILING])
  · rw [absorb_confidence]
    exact (min_le_right _ _).trans (by norm_num [CONFIDENCE_CEILING])
  · rw [absorb_corroboration]
    exact min_le_right _ _

/-- Below the ceiling, combining two confidences lowers neither. -/
theorem le_absorb_confidence (hkept : Proper kept) (hother : Proper other) :
    min kept.confidence CONFIDENCE_CEILING ≤ (absorb kept other).confidence ∧
      min other.confidence CONFIDENCE_CEILING ≤ (absorb kept other).confidence := by
  have hk := mul_nonneg hkept.nonneg (sub_nonneg.mpr hother.le_one)
  have ho := mul_nonneg hother.nonneg (sub_nonneg.mpr hkept.le_one)
  rw [absorb_confidence]
  constructor
  · exact min_le_min_right _ (by linarith)
  · exact min_le_min_right _ (by linarith)

theorem strength_le_iff {f g : Finding ℚ} : strength f ≤ strength g ↔
    f.confidence < g.confidence ∨ f.confidence = g.confidence ∧ f.severity ≤ g.severity :=
  Prod.Lex.toLex_le_toLex

/-- What is not above the ceiling is at most as strong as what it was merged into. -/
theorem strength_le_absorb (hkept : Proper kept) (hother : Proper other) :
    (kept.confidence ≤ CONFIDENCE_CEILING → strength kept ≤ strength (absorb kept other)) ∧
      (other.confidence ≤ CONFIDENCE_CEILING → strength other ≤ strength (absorb kept other)) := by
  obtain ⟨hk, ho⟩ := le_absorb_confidence hkept hother
  constructor
  · intro hceiling
    rw [min_eq_left hceiling] at hk
    exact strength_le_iff.mpr (hk.lt_or_eq.imp_right fun h => ⟨h, le_max_left _ _⟩)
  · intro hceiling
    rw [min_eq_left hceiling] at ho
    exact strength_le_iff.mpr (ho.lt_or_eq.imp_right fun h => ⟨h, le_max_right _ _⟩)

/-- The chance that one of the findings is right, were they independent. -/
def noisyOr (fs : List (Finding ℚ)) : ℚ := 1 - (fs.map fun f => 1 - f.confidence).prod

def highestSeverity (fs : List (Finding ℚ)) : Severity :=
  (fs.map Finding.severity).foldl max .low

/-- The finding is at most at the ceiling, is above what those before it amount to, and those after
it are no stronger. -/
structure Surpasses (before : List (Finding ℚ)) (f : Finding ℚ) (after : List (Finding ℚ)) :
    Prop where
  ceiling : f.confidence ≤ CONFIDENCE_CEILING
  above : before ≠ [] → toLex (noisyOr before, highestSeverity before) < strength f
  rest : ∀ g ∈ after, strength g ≤ strength f

/-- What merging makes of a group of findings. -/
structure Represents (fs : List (Finding ℚ)) (out : Finding ℚ) : Prop where
  alone : ∀ f, fs = [f] → out = f
  corroboration : out.corroboration = min (fs.map Finding.corroboration).sum 255
  severity : (∀ f ∈ fs, f.severity ≤ out.severity) ∧ ∃ f ∈ fs, out.severity = f.severity
  confidence : ∀ f ∈ fs, min f.confidence CONFIDENCE_CEILING ≤ out.confidence
  verbatim : ∃ f ∈ fs, words out = words f ∧ (fs.length ≤ 2 → ∀ g ∈ fs, strength g ≤ strength f)
  strongest : ∀ before f after, fs = before ++ f :: after → Surpasses before f after →
    words out = words f

/-- How strong what is merged so far may be. -/
structure Bounded (fs : List (Finding ℚ)) (out : Finding ℚ) : Prop where
  proper : Proper out
  ceiling : fs = [out] ∨ out.confidence ≤ CONFIDENCE_CEILING
  above : ∀ f ∈ fs, f.confidence ≤ CONFIDENCE_CEILING → strength f ≤ strength out
  below : out.confidence ≤ noisyOr fs
  severest : out.severity = highestSeverity fs

theorem bounded_single (hkept : Proper kept) : Bounded [kept] kept where
  proper := hkept
  ceiling := .inl rfl
  above f hf _ := (congrArg strength (List.mem_singleton.mp hf)).le
  below := by simp [noisyOr]
  severest := by
    unfold highestSeverity
    cases h : kept.severity <;> simp [h] <;> decide

theorem represents_single (hkept : Proper kept) : Represents [kept] kept := by
  constructor
  · intro f hf
    exact List.singleton_inj.mp hf
  · simp [hkept.byte]
  · simp
  · simp
  · exact ⟨kept, List.mem_singleton_self kept, rfl, by simp⟩
  · intro before f after hfs _
    cases before with
    | nil => rw [(List.cons.inj hfs).1]
    | cons g before => simp at hfs

variable {fs : List (Finding ℚ)} {out f : Finding ℚ}

theorem noisyOr_concat (fs : List (Finding ℚ)) (f : Finding ℚ) :
    noisyOr (fs ++ [f]) = 1 - (1 - noisyOr fs) * (1 - f.confidence) := by
  simp [noisyOr]

theorem Bounded.absorb (hout : Bounded fs out) (hf : Proper f) :
    Bounded (fs ++ [f]) (absorb out f) := by
  have hcapped : (Council.absorb out f).confidence ≤ CONFIDENCE_CEILING := min_le_right _ _
  obtain ⟨hkept, hother⟩ := strength_le_absorb hout.proper hf
  refine ⟨proper_absorb hout.proper hf, .inr hcapped, ?_, ?_, ?_⟩
  · intro g hg hceiling
    rcases List.mem_append.mp hg with hg | hg
    · have hle : out.confidence ≤ CONFIDENCE_CEILING := by
        rcases hout.ceiling with hsingle | hle
        · rw [hsingle, List.mem_singleton] at hg
          rwa [← hg]
        · exact hle
      exact (hout.above g hg hceiling).trans (hkept hle)
    · rw [List.mem_singleton.mp hg] at hceiling ⊢
      exact hother hceiling
  · have hfactor : (1 - noisyOr fs) * (1 - f.confidence) ≤
        (1 - out.confidence) * (1 - f.confidence) :=
      mul_le_mul_of_nonneg_right (by linarith [hout.below]) (by linarith [hf.le_one])
    rw [absorb_confidence, noisyOr_concat]
    exact (min_le_left _ _).trans (by linarith)
  · rw [absorb_severity, hout.severest, highestSeverity, highestSeverity, List.map_append,
      List.foldl_append]
    rfl

/-- One more finding of the group. -/
theorem Represents.absorb (hne : fs ≠ []) (hout : Represents fs out) (hbounded : Bounded fs out)
    (hf : Proper f) : Represents (fs ++ [f]) (absorb out f) := by
  obtain ⟨hkeptConfidence, hotherConfidence⟩ := le_absorb_confidence hbounded.proper hf
  constructor
  · intro g hg
    have hlength := congrArg List.length hg
    rw [List.length_append, List.length_singleton, List.length_singleton] at hlength
    exact absurd (List.length_eq_zero_iff.mp (by omega)) hne
  · rw [absorb_corroboration, hout.corroboration, List.map_append, List.sum_append]
    simp only [List.map_cons, List.map_nil, List.sum_singleton]
    omega
  · obtain ⟨hall, g, hg, hsame⟩ := hout.severity
    rw [absorb_severity]
    constructor
    · intro g hg
      rcases List.mem_append.mp hg with hg | hg
      · exact (hall g hg).trans (le_max_left _ _)
      · rw [List.mem_singleton.mp hg]
        exact le_max_right _ _
    · rcases max_choice out.severity f.severity with hmax | hmax
      · exact ⟨g, List.mem_append_left _ hg, hmax.trans hsame⟩
      · exact ⟨f, List.mem_append_right _ (List.mem_singleton_self f), hmax⟩
  · intro g hg
    rcases List.mem_append.mp hg with hg | hg
    · exact (le_min (hout.confidence g hg) (min_le_right _ _)).trans hkeptConfidence
    · rw [List.mem_singleton.mp hg]
      exact hotherConfidence
  · obtain ⟨g, hg, hwords, hhighest⟩ := hout.verbatim
    have hpair : (fs ++ [f]).length ≤ 2 → fs = [out] := by
      intro hlength
      rw [List.length_append, List.length_singleton] at hlength
      obtain ⟨first, hfirst⟩ := List.length_eq_one_iff.mp
        (le_antisymm (by omega) (List.length_pos_of_ne_nil hne))
      rw [hout.alone first hfirst, hfirst]
    rw [words_absorb]
    split
    · next htaken =>
      refine ⟨f, List.mem_append_right _ (List.mem_singleton_self f), rfl, fun hlength => ?_⟩
      rw [hpair hlength]
      simp [htaken.le]
    · next hkept =>
      refine ⟨g, List.mem_append_left _ hg, hwords, fun hlength => ?_⟩
      have hsingle := hpair hlength
      have hsame : g = out := by simpa [hsingle] using hg
      rw [hsingle, hsame]
      simp [not_lt.mp hkept]
  · intro before g after hsplit hsurpasses
    rw [words_absorb]
    rcases List.eq_nil_or_concat after with rfl | ⟨after, last, rfl⟩
    · obtain ⟨rfl, hlast⟩ := List.append_inj' hsplit rfl
      obtain rfl : f = g := List.singleton_inj.mp hlast
      have hbelow : strength out ≤ toLex (noisyOr fs, highestSeverity fs) :=
        Prod.Lex.toLex_mono ⟨hbounded.below, hbounded.severest.le⟩
      rw [if_pos (hbelow.trans_lt (hsurpasses.above hne))]
    · rw [List.concat_eq_append, ← List.cons_append, ← List.append_assoc] at hsplit
      obtain ⟨hfs, hlast⟩ := List.append_inj' hsplit rfl
      obtain rfl : f = last := List.singleton_inj.mp hlast
      have hbefore : words out = words g := by
        refine hout.strongest before g after hfs ⟨hsurpasses.ceiling, hsurpasses.above, ?_⟩
        intro h hh
        exact hsurpasses.rest h (by simp [hh])
      have hstrong : strength g ≤ strength out :=
        hbounded.above g (by simp [hfs]) hsurpasses.ceiling
      rw [if_neg (not_lt.mpr ((hsurpasses.rest f (by simp)).trans hstrong)), hbefore]

/-- A group of findings is represented by its summary. -/
theorem represents_summary (g : Rounds.Group (Finding ℚ)) (hg : ∀ f ∈ g.members, Proper f) :
    Represents g.members (g.summary absorb id) := by
  obtain ⟨first, later⟩ := g
  have hboth : Represents (first :: later) (later.foldl absorb first) ∧
      Bounded (first :: later) (later.foldl absorb first) := by
    induction later using List.reverseRecOn with
    | nil =>
      have hfirst := hg first (List.mem_singleton_self first)
      exact ⟨represents_single hfirst, bounded_single hfirst⟩
    | append_singleton later f ih =>
      obtain ⟨hrepresents, hbounded⟩ := ih fun h hh => hg h (by
        rcases List.mem_cons.mp hh with rfl | hh
        · exact List.mem_cons_self
        · exact List.mem_cons_of_mem _ (List.mem_append_left _ hh))
      have hf : Proper f := hg f (List.mem_cons_of_mem _ (by simp))
      rw [List.foldl_append, ← List.cons_append]
      exact ⟨hrepresents.absorb (List.cons_ne_nil _ _) hbounded hf, hbounded.absorb hf⟩
  exact hboth.1

/-- A finding, and whose and which it is. -/
structure Input where
  reviewer : ℕ
  position : ℕ
  finding : Finding ℚ

def inputs (reviews : List (List (Finding ℚ))) : List (List Input) :=
  reviews.mapIdx fun reviewer review =>
    review.mapIdx fun position finding => ⟨reviewer, position, finding⟩

def corroboratesInput (kept : Finding ℚ) (i : Input) : Bool := corroborates kept i.finding

def absorbInput (kept : Finding ℚ) (i : Input) : Finding ℚ := absorb kept i.finding

/-- The inputs that were mapped to each output. -/
def merged (reviews : List (List (Finding ℚ))) : List (Rounds.Group Input) :=
  groups corroboratesInput absorbInput Input.finding (inputs reviews)

/-- The findings an output stands for. -/
def findings (g : Rounds.Group Input) : List (Finding ℚ) := g.members.map Input.finding

/-- Every input is mapped to one output, no two of a reviewer to the same, and an output represents
what is mapped to it. -/
structure Conserves (reviews : List (List (Finding ℚ))) : Prop where
  distinct : (inputs reviews).flatten.Nodup
  partition : ((merged reviews).flatMap Rounds.Group.members).Perm (inputs reviews).flatten
  apart : ∀ g ∈ merged reviews, (g.members.map Input.reviewer).Nodup
  represents : List.Forall₂ Represents ((merged reviews).map findings) (merge reviews)

theorem map_finding_inputs (reviews : List (List (Finding ℚ))) :
    (inputs reviews).map (List.map Input.finding) = reviews := by
  simp [inputs, Function.comp_def, List.mapIdx_eq_zipIdx_map]

/-- What is merged are the summaries of the groups. -/
theorem merge_eq (reviews : List (List (Finding ℚ))) :
    merge reviews = (merged reviews).map
      (Rounds.Group.summary absorbInput Input.finding) := by
  have hforget := @rounds_map _ _ _ _ corroboratesInput absorbInput Input.finding corroborates
    absorb id id Input.finding (fun _ _ => rfl) (fun _ _ => rfl) (fun _ => rfl) (inputs reviews)
  rw [map_finding_inputs, List.map_id] at hforget
  rw [merged, map_summary_groups]
  exact hforget

theorem reviewer_of_mem_inputs {reviews : List (List (Finding ℚ))} {n : ℕ} {as : List Input}
    {i : Input} (has : (inputs reviews)[n]? = some as) (hi : i ∈ as) : i.reviewer = n := by
  rw [inputs, List.getElem?_mapIdx] at has
  obtain ⟨review, _, rfl⟩ := Option.map_eq_some_iff.mp has
  obtain ⟨position, hposition, rfl⟩ := List.mem_mapIdx.mp hi
  rfl

theorem nodup_inputs (reviews : List (List (Finding ℚ))) : (inputs reviews).flatten.Nodup := by
  rw [List.nodup_flatten]
  constructor
  · intro as has
    obtain ⟨reviewer, hreviewer, rfl⟩ := List.mem_mapIdx.mp has
    rw [List.Nodup, List.pairwise_iff_getElem]
    intro m n hm hn hlt hsame
    have hposition := congrArg Input.position hsame
    simp only [List.getElem_mapIdx] at hposition
    exact hlt.ne hposition
  · rw [List.pairwise_iff_getElem]
    intro m n hm hn hlt i hi hi'
    have hsame := (reviewer_of_mem_inputs (List.getElem?_eq_getElem hm) hi).symm.trans
      (reviewer_of_mem_inputs (List.getElem?_eq_getElem hn) hi')
    exact hlt.ne hsame

theorem finding_of_mem_inputs {reviews : List (List (Finding ℚ))} {i : Input}
    (hi : i ∈ (inputs reviews).flatten) : ∃ review ∈ reviews, i.finding ∈ review := by
  obtain ⟨as, has, hi⟩ := List.mem_flatten.mp hi
  refine ⟨as.map Input.finding, ?_, List.mem_map_of_mem hi⟩
  rw [← map_finding_inputs reviews]
  exact List.mem_map_of_mem has

/-- Merging conserves every finding, and that of a single reviewer changes nothing. -/
theorem merge_conserves :
    (∀ reviews : List (List (Finding ℚ)), (∀ review ∈ reviews, ∀ f ∈ review, Proper f) →
      Conserves reviews) ∧ ∀ review : List (Finding ℚ), merge [review] = review := by
  constructor
  · intro reviews hproper
    have hpartition := @flatMap_members_groups _ _ corroboratesInput absorbInput Input.finding
      (inputs reviews)
    refine ⟨nodup_inputs reviews, hpartition,
      nodup_tags_groups fun n as i has hi => reviewer_of_mem_inputs has hi, ?_⟩
    rw [merge_eq, List.forall₂_map_left_iff, List.forall₂_map_right_iff]
    refine List.forall₂_same.mpr fun g hg => ?_
    have hmembers : ∀ i ∈ g.members, Proper i.finding := by
      intro i hi
      obtain ⟨review, hreview, hfinding⟩ :=
        finding_of_mem_inputs (hpartition.mem_iff.mp (List.mem_flatMap.mpr ⟨g, hg, hi⟩))
      exact hproper review hreview _ hfinding
    have hrepresents := represents_summary ⟨g.first.finding, g.later.map Input.finding⟩ (by
      intro f hf
      obtain ⟨i, hi, rfl⟩ := List.mem_map.mp (show f ∈ g.members.map Input.finding from hf)
      exact hmembers i hi)
    rw [Rounds.Group.summary, List.foldl_map] at hrepresents
    exact hrepresents
  · intro review
    rw [merge, rounds_singleton, List.map_id]

def report (title : Text) (confidence : ℚ) (corroboration : ℕ) : Finding ℚ where
  lane := .critique
  severity := .medium
  confidence
  path := "src/a.rs".toList
  line := some 10
  endLine := none
  rule := "unchecked-index".toList
  title
  body := []
  suggestion := none
  applicable := none
  late := false
  identity := none
  aliases := []
  grouped := false
  reviewPass := 1
  corroboration

/-- Two that guess, and a third that is sure. -/
def council : List (List (Finding ℚ)) :=
  [[report ['a'] (3 / 5) 1], [report ['b'] (3 / 5) 1], [report ['c'] (4 / 5) 1]]

theorem council_conserves : Conserves council :=
  merge_conserves.1 council (by
    intro review hreview f hf
    simp only [council, List.mem_cons, List.not_mem_nil, or_false] at hreview
    rcases hreview with rfl | rfl | rfl <;> rw [List.mem_singleton.mp hf] <;>
      constructor <;> norm_num [report])

/-- The surest finding is not the one quoted, certainty is lowered, and the count stops at a
byte. -/
theorem stated_merge_fails :
    ((merge council).map Finding.title = [['a']] ∧
        ∀ f ∈ [report ['a'] (3 / 5) 1, report ['b'] (3 / 5) 1],
          strength f < strength (report ['c'] (4 / 5) 1)) ∧
      (merge [[report ['a'] 1 1], [report ['b'] (1 / 2) 1]]).map Finding.confidence = [99 / 100] ∧
      (merge [[report ['a'] (3 / 5) 255], [report ['b'] (3 / 5) 1]]).map Finding.corroboration =
        [255] := by
  refine ⟨⟨?_, ?_⟩, ?_, ?_⟩ <;> decide +kernel

end TinySweeper.Council
