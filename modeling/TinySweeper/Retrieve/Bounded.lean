import TinySweeper.Retrieve.Sample

/-!
# A bounded query of the whole diff

No section outgrows its share, and each sampled section names its last entry, except
for a wide title and for lists whose ends fit apart and not together.
-/

namespace TinySweeper.Retrieve

open Text Evidence

/-- A separator of one byte stands between the texts. -/
theorem utf8Len_intercalate {c : Char} (hc : c.utf8Size = 1) {texts : List Text}
    (htexts : texts ≠ []) : utf8Len ([c].intercalate texts) + 1 = widths texts := by
  induction texts with
  | nil => exact absurd rfl htexts
  | cons text rest ih =>
    cases rest with
    | nil => simp [List.intercalate]
    | cons next rest =>
      have hrest := ih (List.cons_ne_nil _ _)
      have hjoin : [c].intercalate (text :: next :: rest) =
          text ++ c :: [c].intercalate (next :: rest) := by
        simp [List.intercalate]
      rw [hjoin, utf8Len_append, utf8Len_cons, widths_cons, ← hrest, hc]
      omega

theorem utf8Len_listSection {picked : List Text} {text : Text}
    (h : listSection picked = some text) : utf8Len text + 1 = widths picked := by
  rw [listSection] at h
  split at h
  · cases h
  · next hne =>
    cases h
    exact utf8Len_intercalate (by decide) hne

theorem spentOn_listSection (picked : List Text) : spentOn (listSection picked) = widths picked := by
  rw [spentOn]
  cases h : listSection picked with
  | none =>
    rw [listSection, ite_eq_left_iff] at h
    by_cases hnil : picked = []
    · rw [hnil]
      rfl
    · exact absurd (h hnil) (Option.some_ne_none _)
  | some text => exact utf8Len_listSection h

theorem length_le_utf8Len (text : Text) : text.length ≤ utf8Len text := by
  induction text with
  | nil => exact le_rfl
  | cons c text ih =>
    have hc := Char.utf8Size_pos c
    rw [List.length_cons, utf8Len_cons]
    omega

theorem utf8Len_eq_length_iff {text : Text} :
    utf8Len text = text.length ↔ ∀ c ∈ text, c.utf8Size = 1 := by
  induction text with
  | nil => simp
  | cons c text ih =>
    have hc := Char.utf8Size_pos c
    have hlength := length_le_utf8Len text
    rw [List.forall_mem_cons, ← ih, utf8Len_cons, List.length_cons]
    constructor
    · intro h
      constructor <;> omega
    · rintro ⟨hone, hrest⟩
      omega

/-- That many characters are that many bytes at most when the text is short or of ASCII. -/
theorem utf8Len_take_le_iff (n : ℕ) (text : Text) :
    utf8Len (text.take n) ≤ n ↔ utf8Len text ≤ n ∨ ∀ c ∈ text.take n, c.utf8Size = 1 := by
  by_cases hshort : text.length ≤ n
  · rw [List.take_of_length_le hshort]
    constructor
    · exact .inl
    · rintro (h | h)
      · exact h
      · rw [utf8Len_eq_length_iff.mpr h]
        exact hshort
  · have hlength : (text.take n).length = n := by
      rw [List.length_take]
      omega
    have hlong := length_le_utf8Len text
    have htake := length_le_utf8Len (text.take n)
    rw [← utf8Len_eq_length_iff, hlength]
    constructor
    · intro h
      exact .inr (by omega)
    · rintro (h | h) <;> omega

/-- The band that is cut: those before it fit what is left, and it does not. -/
def CutBand (bands : List (List Text)) (remaining : ℕ) (whole : List (List Text))
    (tokens : List Text) : Prop :=
  (∃ rest, bands = whole ++ tokens :: rest) ∧ widths whole.flatten ≤ remaining ∧
    remaining < widths whole.flatten + widths tokens

/-- Whole bands, and then a sample of the one that is cut. -/
def BandsKept (bands : List (List Text)) (remaining : ℕ) (identifiers : List Text) : Prop :=
  widths identifiers ≤ remaining ∧
    (identifiers = bands.flatten ∨ ∃ whole tokens sample, CutBand bands remaining whole tokens ∧
      identifiers = whole.flatten ++ sample ∧
      Sampled tokens (remaining - widths whole.flatten) sample)

theorem CutBand.unique {bands whole whole' : List (List Text)} {remaining : ℕ}
    {tokens tokens' : List Text} (h : CutBand bands remaining whole tokens)
    (h' : CutBand bands remaining whole' tokens') : whole = whole' ∧ tokens = tokens' := by
  obtain ⟨⟨rest, rfl⟩, hfits, hover⟩ := h
  obtain ⟨⟨rest', hsplit⟩, hfits', hover'⟩ := h'
  rcases List.append_eq_append_iff.mp hsplit with ⟨between, rfl, htail⟩ | ⟨between, rfl, htail⟩
  · cases between with
    | nil =>
      obtain ⟨rfl, -⟩ := List.cons.inj htail
      exact ⟨(List.append_nil _).symm, rfl⟩
    | cons first between =>
      obtain ⟨rfl, -⟩ := List.cons.inj htail
      simp only [List.flatten_append, List.flatten_cons, widths_append] at hfits'
      omega
  · cases between with
    | nil =>
      obtain ⟨rfl, -⟩ := List.cons.inj htail
      exact ⟨List.append_nil _, rfl⟩
    | cons first between =>
      obtain ⟨rfl, -⟩ := List.cons.inj htail
      simp only [List.flatten_append, List.flatten_cons, widths_append] at hfits
      omega

theorem CutBand.over {bands whole : List (List Text)} {remaining : ℕ} {tokens : List Text}
    (h : CutBand bands remaining whole tokens) : remaining < widths bands.flatten := by
  obtain ⟨⟨rest, rfl⟩, -, hover⟩ := h
  simp only [List.flatten_append, List.flatten_cons, widths_append]
  omega

theorem takeBands_spec {remaining : ℕ} (whole bands : List (List Text))
    (hfits : widths whole.flatten ≤ remaining) :
    ∃ identifiers, takeBands remaining bands ⟨whole.flatten, widths whole.flatten⟩ =
        some identifiers ∧ widths identifiers ≤ remaining ∧
      (BandsKept (whole ++ bands) remaining identifiers ↔
        ∀ kept tokens, CutBand (whole ++ bands) remaining kept tokens →
          ¬ Crowded tokens (remaining - widths kept.flatten)) := by
  induction bands generalizing whole with
  | nil =>
    refine ⟨whole.flatten, rfl, hfits, iff_of_true ⟨hfits, .inl (by simp)⟩ ?_⟩
    intro kept tokens hcut
    have hover := hcut.over
    rw [List.append_nil] at hover
    omega
  | cons tokens rest ih =>
    by_cases hwide : widths whole.flatten + widths tokens ≤ remaining
    · have hmore := ih (whole ++ [tokens]) (by simpa using hwide)
      simp only [List.append_assoc, List.singleton_append, List.flatten_append,
        List.flatten_singleton, widths_append] at hmore
      rw [takeBands]
      exact (if_pos hwide).symm ▸ hmore
    · have hcut : CutBand (whole ++ tokens :: rest) remaining whole tokens :=
        ⟨⟨rest, rfl⟩, hfits, not_le.mp hwide⟩
      obtain ⟨sample, hsample, -, hwidths, hkept⟩ :=
        sampleInto_spec tokens (remaining - widths whole.flatten)
      refine ⟨whole.flatten ++ sample, ?_, ?_, ?_⟩
      · rw [takeBands]
        refine (if_neg hwide).trans ?_
        simp [checkedSub, hfits, hsample]
      · rw [widths_append]
        omega
      · constructor
        · rintro ⟨hlen, hall | ⟨kept, tokens', sample', hcut', heq, hsampled⟩⟩ kept₁ tokens₁ hcut₁
          · have hover := hcut.over
            rw [hall] at hlen
            omega
          · obtain ⟨rfl, rfl⟩ := hcut.unique hcut'
            obtain ⟨rfl, rfl⟩ := hcut.unique hcut₁
            rw [← List.append_cancel_left heq] at hsampled
            exact hkept.mp hsampled
        · intro hroomy
          refine ⟨?_, .inr ⟨whole, tokens, sample, hcut, rfl, hkept.mpr (hroomy whole tokens hcut)⟩⟩
          rw [widths_append]
          omega

section Represents

variable (isAlphanumeric : Char → Bool) (title : Text) (diffs : List FileDiff) (budget : ℕ)

/-- What each section is, once a budget is given. -/
structure Sections.Represents (s : Sections) : Prop where
  /-- Nothing of the sections is cut from the query. -/
  whole : buildRetrievalQuery isAlphanumeric title diffs budget = some s.joined
  title : ∀ text, s.title = some text → utf8Len text ≤ share budget TITLE_SHARE
  paths : ∀ text, listSection s.paths = some text → utf8Len text ≤ share budget PATH_SHARE
  headings : ∀ text, listSection s.headings = some text → utf8Len text ≤ share budget HEADING_SHARE
  /-- All but the three shares and the line break behind the title. -/
  remaining : budget ≤ s.remaining + (share budget TITLE_SHARE + 1) + share budget PATH_SHARE +
    share budget HEADING_SHARE
  sampledPaths : Sampled (diffs.map FileDiff.path) (share budget PATH_SHARE) s.paths
  sampledHeadings : Sampled (Retrieve.headings diffs) (share budget HEADING_SHARE) s.headings
  identifiers : BandsKept (bands isAlphanumeric diffs) s.remaining s.identifiers

/-- The query comes back within its budget, and stands for the whole diff. -/
def Represents : Prop :=
  (∃ query, buildRetrievalQuery isAlphanumeric title diffs budget = some query ∧
    utf8Len query ≤ budget) ∧
  (budget ≠ 0 → ∃ s, sections isAlphanumeric title diffs budget = some s ∧
    s.Represents isAlphanumeric title diffs budget)

/-- A title is blank, or its share holds it, or is one of ASCII characters. -/
def TitleFits : Prop :=
  trim title = [] ∨
    1 ≤ share budget TITLE_SHARE ∧
      (utf8Len (trim title) ≤ share budget TITLE_SHARE ∨
        ∀ c ∈ (trim title).take (share budget TITLE_SHARE), c.utf8Size = 1)

variable {title budget} in
theorem titleFits_iff : TitleFits title budget ↔
    ∀ text, titleSection title budget = some text → utf8Len text ≤ share budget TITLE_SHARE := by
  rw [TitleFits, titleSection]
  by_cases hblank : trim title = []
  · simp [hblank]
  · simp only [hblank, false_or, if_false, Option.some.injEq, forall_eq']
    by_cases hshare : 1 ≤ share budget TITLE_SHARE
    · rw [max_eq_left hshare, utf8Len_take_le_iff]
      exact and_iff_right hshare
    · have hone : share budget TITLE_SHARE = 0 := by omega
      refine iff_of_false (fun h => hshare h.1) ?_
      have hlength := length_le_utf8Len ((trim title).take (max (share budget TITLE_SHARE) 1))
      have hpos := List.length_pos_iff.mpr hblank
      rw [List.length_take] at hlength
      omega

theorem share_le (percent : ℕ) : share budget percent ≤ budget * percent / 100 :=
  Nat.div_le_div_right (Nat.mod_le _ _)

/-- The sections are built, however wide the title. -/
theorem sections_spec : ∃ s, sections isAlphanumeric title diffs budget = some s ∧
    s.title = titleSection title budget ∧
    s.remaining = budget - (spentOn s.title + widths s.paths + widths s.headings) ∧
    widths s.paths ≤ share budget PATH_SHARE ∧ widths s.headings ≤ share budget HEADING_SHARE ∧
    widths s.identifiers ≤ s.remaining ∧
    (Sampled (diffs.map FileDiff.path) (share budget PATH_SHARE) s.paths ↔
      ¬ Crowded (diffs.map FileDiff.path) (share budget PATH_SHARE)) ∧
    (Sampled (headings diffs) (share budget HEADING_SHARE) s.headings ↔
      ¬ Crowded (headings diffs) (share budget HEADING_SHARE)) ∧
    (BandsKept (bands isAlphanumeric diffs) s.remaining s.identifiers ↔
      ∀ whole tokens, CutBand (bands isAlphanumeric diffs) s.remaining whole tokens →
        ¬ Crowded tokens (s.remaining - widths whole.flatten)) := by
  obtain ⟨paths, hpaths, -, hpathsFit, hpathsKept⟩ :=
    sampleInto_spec (diffs.map FileDiff.path) (share budget PATH_SHARE)
  obtain ⟨heads, hheads, -, hheadsFit, hheadsKept⟩ :=
    sampleInto_spec (headings diffs) (share budget HEADING_SHARE)
  obtain ⟨identifiers, hidentifiers, hfit, hkept⟩ := @takeBands_spec
    (budget - (spentOn (titleSection title budget) + widths paths + widths heads))
    [] (bands isAlphanumeric diffs) (Nat.zero_le _)
  refine ⟨⟨titleSection title budget, paths, heads, _, identifiers⟩, ?_, rfl, rfl, hpathsFit,
    hheadsFit, hfit, hpathsKept, hheadsKept, hkept⟩
  unfold sections
  rw [hpaths, hheads]
  simp only [Option.bind_eq_bind, Option.bind_some, spentOn_listSection]
  exact (congrArg (Option.bind · _) hidentifiers).trans rfl

theorem widths_toList (text : Option Text) : widths text.toList = spentOn text := by
  cases text <;> rfl

/-- With the title in its share, the sections fit the budget together. -/
theorem joined_fits {s : Sections} (hfits : TitleFits title budget)
    (htitle : s.title = titleSection title budget)
    (hremaining : s.remaining = budget - (spentOn s.title + widths s.paths + widths s.headings))
    (hpaths : widths s.paths ≤ share budget PATH_SHARE)
    (hheadings : widths s.headings ≤ share budget HEADING_SHARE)
    (hidentifiers : widths s.identifiers ≤ s.remaining) : utf8Len s.joined ≤ budget := by
  have hpathShare := share_le budget PATH_SHARE
  have hheadingShare := share_le budget HEADING_SHARE
  have htitleShare := share_le budget TITLE_SHARE
  have hspent : spentOn s.title + widths s.paths + widths s.headings ≤ budget := by
    simp only [PATH_SHARE, HEADING_SHARE, TITLE_SHARE] at *
    cases hsome : titleSection title budget with
    | none =>
      have hnone : spentOn s.title = 0 := by rw [htitle, hsome]; rfl
      omega
    | some text =>
      have hlen := titleFits_iff.mp hfits text hsome
      have hpos : 1 ≤ share budget 5 := by
        rcases hfits with hblank | ⟨hpos, -⟩
        · rw [titleSection, if_pos hblank] at hsome
          cases hsome
        · exact hpos
      have hwidth : spentOn s.title = utf8Len text + 1 := by rw [htitle, hsome]; rfl
      simp only [TITLE_SHARE] at hlen
      omega
  have hwidths : widths s.texts =
      spentOn s.title + widths s.paths + widths s.headings + widths s.identifiers := by
    simp only [Sections.texts, widths_append, widths_toList, spentOn_listSection]
  rw [Sections.joined]
  by_cases htexts : s.texts = []
  · rw [htexts]
    exact Nat.zero_le _
  · have hjoined := utf8Len_intercalate (c := '\n') (by decide) htexts
    omega

/-- The query is whole and stands for the whole diff exactly when the title fits its share and no
sampled list is crowded. -/
theorem represents_iff : Represents isAlphanumeric title diffs budget ↔
    budget = 0 ∨
      TitleFits title budget ∧
      ¬ Crowded (diffs.map FileDiff.path) (share budget PATH_SHARE) ∧
      ¬ Crowded (headings diffs) (share budget HEADING_SHARE) ∧
      ∀ s, sections isAlphanumeric title diffs budget = some s →
        ∀ whole tokens, CutBand (bands isAlphanumeric diffs) s.remaining whole tokens →
          ¬ Crowded tokens (s.remaining - widths whole.flatten) := by
  obtain ⟨s, hs, htitle, hremaining, hpaths, hheadings, hidentifiers, hpathsKept, hheadingsKept,
    hbandsKept⟩ := sections_spec isAlphanumeric title diffs budget
  by_cases hzero : budget = 0
  · refine iff_of_true ⟨⟨[], ?_, Nat.zero_le _⟩, fun h => absurd hzero h⟩ (.inl hzero)
    rw [buildRetrievalQuery, if_pos hzero]
  have hbuild : buildRetrievalQuery isAlphanumeric title diffs budget =
      truncateTo budget s.joined := by
    rw [buildRetrievalQuery, if_neg hzero, hs]
    rfl
  constructor
  · rintro ⟨-, hkept⟩
    obtain ⟨s', hs', hrep⟩ := hkept hzero
    cases hs.symm.trans hs'
    refine .inr ⟨titleFits_iff.mpr fun text htext => hrep.title text (htitle.trans htext),
      hpathsKept.mp hrep.sampledPaths, hheadingsKept.mp hrep.sampledHeadings, fun s' hs' => ?_⟩
    cases hs.symm.trans hs'
    exact hbandsKept.mp hrep.identifiers
  · rintro (hzero' | ⟨hfits, hpathsRoom, hheadingsRoom, hbandsRoom⟩)
    · exact absurd hzero' hzero
    have hjoined := joined_fits title budget hfits htitle hremaining hpaths hheadings hidentifiers
    have hwhole : buildRetrievalQuery isAlphanumeric title diffs budget = some s.joined := by
      rw [hbuild, truncateTo, if_neg (not_lt.mpr hjoined)]
    refine ⟨⟨s.joined, hwhole, hjoined⟩, fun _ => ⟨s, hs, hwhole, fun text htext => ?_,
      fun text htext => ?_, fun text htext => ?_, ?_, hpathsKept.mpr hpathsRoom,
      hheadingsKept.mpr hheadingsRoom, hbandsKept.mpr (hbandsRoom s hs)⟩⟩
    · exact titleFits_iff.mp hfits text (htitle.symm.trans htext)
    · have hlen := utf8Len_listSection htext
      omega
    · have hlen := utf8Len_listSection htext
      omega
    · have hspentTitle : spentOn s.title ≤ share budget TITLE_SHARE + 1 := by
        cases hsome : s.title with
        | none => exact Nat.zero_le _
        | some text =>
          exact Nat.succ_le_succ (titleFits_iff.mp hfits text (htitle.symm.trans hsome))
      omega

end Represents

/-- Two changed files whose paths fit a fifth of fifty bytes one at a time. -/
def twoFiles : List FileDiff := [{ path := "lib.rs".toList }, { path := "app.rs".toList }]

def twoFileSections : Sections := ⟨none, ["lib.rs".toList], [], 43, []⟩

/-- Of two files the last is not named though its path fits the share, and a title of accented
letters takes twice its share. -/
theorem last_file_unnamed :
    ¬ Represents Char.isAlphanum [] twoFiles 50 ∧
      ¬ Represents Char.isAlphanum "ééééé".toList [] 100 := by
  constructor
  · rintro ⟨-, h⟩
    obtain ⟨s, hs, hrep⟩ := h (by decide)
    have hsections : sections Char.isAlphanum [] twoFiles 50 = some twoFileSections := by
      decide +kernel
    cases hsections.symm.trans hs
    exact absurd (hrep.sampledPaths.last "app.rs".toList (by decide) (by decide)) (by decide)
  · rintro ⟨-, h⟩
    obtain ⟨s, hs, hrep⟩ := h (by decide)
    have hsections : sections Char.isAlphanum "ééééé".toList [] 100 =
        some ⟨some "ééééé".toList, [], [], 89, []⟩ := by
      decide +kernel
    cases hsections.symm.trans hs
    exact absurd (hrep.title "ééééé".toList rfl) (by decide)

end TinySweeper.Retrieve
