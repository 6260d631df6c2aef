import TinySweeper.PrTriage.Hunks

/-!
# Landed changes

A branch copy of a file reads, at each hunk, as before or as after the change.
Only a change whose every hunk is applied is called landed, and the changed text
itself is, where each hunk can be placed.
-/

namespace TinySweeper.PrTriage

open Text Evidence

theorem any_windows_iff {run haystack : List Text} (hne : run ≠ []) :
    ((Window.windows run.length haystack).any fun window => window = run) = true ↔
      run <:+: haystack := by
  induction haystack with
  | nil => simp [Window.windows, hne]
  | cons line haystack ih =>
    rw [List.infix_cons_iff, ← ih, Window.windows]
    split_ifs with hlength
    · rw [List.any_cons, Bool.or_eq_true, decide_eq_true_eq, List.prefix_iff_eq_take, eq_comm]
    · constructor
      · exact fun h => absurd h Bool.false_ne_true
      · rintro (hlead | hrest)
        · exact absurd hlead.length_le hlength
        · exact absurd ((ih.mp hrest).length_le.trans (Nat.le_succ _)) hlength

theorem containsRun_iff {haystack run : List Text} :
    containsRun haystack run = true ↔ run ≠ [] ∧ run <:+: haystack := by
  unfold containsRun
  by_cases hnil : run = []
  · simp [hnil]
  · rw [if_neg (by simpa using hnil)]
    split_ifs with hlength
    · simp only [false_iff, not_and]
      exact fun _ hinfix => absurd hinfix.length_le (by omega)
    · rw [any_windows_iff hnil]
      simp [hnil]

/-- Where a stretch still reads as before the change, its hunk has not landed. -/
theorem hunkLanded_of_before {base : List Text} {h : PatchHunk}
    (hbefore : (h.side .old).map normalise <:+: base) {n : ℕ} :
    hunkLanded base (Hunk.ofPatch h) ≠ .ok n := by
  have hwithin := Hunk.ofPatch_within h
  have hinfix : (Hunk.ofPatch h).before <:+: base := Hunk.ofPatch_before h ▸ hbefore
  unfold hunkLanded
  dsimp only
  generalize Hunk.ofPatch h = hunk at hwithin hinfix
  by_cases hconclusive : (decide (hunk.removes > 0) ||
      decide (hunk.leading > 0) && decide (hunk.trailing > 0)) = true
  · have hne : hunk.before ≠ [] := by
      intro hnil
      rw [hnil, List.length_nil] at hwithin
      simp only [Bool.or_eq_true, Bool.and_eq_true, decide_eq_true_eq] at hconclusive
      omega
    rw [hconclusive, containsRun_iff.mpr ⟨hne, hinfix⟩]
    simp
  · rw [Bool.not_eq_true] at hconclusive
    have hremoves : hunk.removes = 0 := by
      simp only [Bool.or_eq_false_iff, decide_eq_false_iff_not] at hconclusive
      omega
    rw [hconclusive, hremoves]
    simp

/-- A hunk with context on both sides has landed where only its after image is found. -/
theorem hunkLanded_of_after {base : List Text} {hunk : Hunk} (hleading : 0 < hunk.leading)
    (htrailing : 0 < hunk.trailing) (hanchors : 0 < hunk.anchors)
    (hbefore : ¬ hunk.before <:+: base) (hne : hunk.after ≠ []) (hafter : hunk.after <:+: base) :
    hunkLanded base hunk = .ok hunk.changed := by
  have hmissing : containsRun base hunk.before = false := by
    rw [Bool.eq_false_iff, Ne, containsRun_iff]
    exact fun h => hbefore h.2
  have hfound : containsRun base hunk.after = true := containsRun_iff.mpr ⟨hne, hafter⟩
  simp [hunkLanded, hleading, htrailing, hanchors.ne', hmissing, hfound]

section Total

variable {α : Type} {count : α → Except NotLanded ℕ} {xs : List α}

theorem total_eq_ok {n : ℕ} (h : total count xs = .ok n) : ∀ x ∈ xs, ∃ k, count x = .ok k := by
  induction xs generalizing n with
  | nil => simp
  | cons x xs ih =>
    rw [total] at h
    cases hx : count x with
    | error why => simp [hx] at h
    | ok k =>
      simp only [hx] at h
      cases hrest : total count xs with
      | error why =>
        rw [hrest] at h
        cases h
      | ok m => exact List.forall_mem_cons.mpr ⟨⟨k, hx⟩, ih hrest⟩

theorem total_of_forall {f : α → ℕ} (h : ∀ x ∈ xs, count x = .ok (f x)) :
    total count xs = .ok (xs.map f).sum := by
  induction xs with
  | nil => rfl
  | cons x xs ih =>
    obtain ⟨hx, hrest⟩ := List.forall_mem_cons.mp h
    rw [total, hx, ih hrest, List.map_cons, List.sum_cons]
    rfl

theorem total_map {β : Type} (f : β → α) (ys : List β) :
    total count (ys.map f) = total (fun y => count (f y)) ys := by
  induction ys with
  | nil => rfl
  | cons y ys ih => rw [List.map_cons, total, ih, total]

end Total

/-- Stretches of text between images. -/
def weave {α : Type*} : List (List α) → List (List α) → List α
  | gaps, [] => gaps.flatten
  | [], image :: images => image ++ weave [] images
  | gap :: gaps, image :: images => gap ++ image ++ weave gaps images

theorem infix_weave {α : Type*} {gaps images : List (List α)} {image : List α}
    (himage : image ∈ images) : image <:+: weave gaps images := by
  induction images generalizing gaps with
  | nil => cases himage
  | cons first images ih =>
    cases gaps with
    | nil =>
      rw [weave]
      rcases List.mem_cons.mp himage with rfl | hrest
      · exact (List.prefix_append image _).isInfix
      · exact (ih hrest).trans (List.suffix_append first _).isInfix
    | cons gap gaps =>
      rw [weave]
      rcases List.mem_cons.mp himage with rfl | hrest
      · exact ⟨gap, weave gaps images, rfl⟩
      · exact (ih hrest).trans (List.suffix_append _ _).isInfix

/-- A text with these lines, the last one with or without its line break. -/
structure Holds (content : Text) (texts : List Text) : Prop where
  newlineFree : ∀ line ∈ texts, '\n' ∉ line
  joined : ∃ terminated, (texts.getLast? = some [] → terminated = true) ∧
    content = joinLines terminated texts

theorem Holds.baseLines {content : Text} {texts : List Text} (h : Holds content texts) :
    baseLines (some content) = texts.map normalise := by
  obtain ⟨terminated, hlast, rfl⟩ := h.joined
  have hlines : ∀ texts : List Text,
      (receiveLines terminated texts).map normalise = texts.map normalise := by
    intro texts
    induction texts with
    | nil => rfl
    | cons line texts ih =>
      cases texts with
      | nil => cases terminated <;> simp [receiveLines, normalise_chomp]
      | cons next texts =>
        have hrest : receiveLines terminated (line :: next :: texts) =
            chomp line :: receiveLines terminated (next :: texts) := rfl
        rw [hrest, List.map_cons, ih, normalise_chomp]
        rfl
  rw [PrTriage.baseLines, Option.getD_some]
  cases terminated with
  | true =>
    rw [joinLines, if_pos rfl, lines_unlines h.newlineFree, ← receiveLines_true, hlines]
  | false =>
    rw [lines_joinLines false h.newlineFree fun hempty => absurd (hlast hempty) (by simp), hlines]

/-- A file of a pull request, and a diff between its texts. -/
structure FileChange where
  file : ChangedFile
  revision : Side → Revision
  diff : UnifiedDiff revision
  /-- What lies between the hunks. -/
  gaps : List (List Text)
  patch_eq : file.patch = some diff.print
  headings : ∀ raw ∈ diff.stanza, IsHeading raw
  changes : ∀ h ∈ diff.hunks, ∃ line ∈ h.body, unchanged line = false
  tiles : ∀ side, (revision side).lines = weave gaps (diff.hunks.map fun h => h.side side)
  added : file.status = .added → (revision .old).lines = []
  removed : file.status = .removed → (revision .new).lines = []

namespace FileChange

variable (c : FileChange)

/-- The hunks as the branch has them. -/
def images (applied : List Bool) : List (List Text) :=
  List.zipWith (fun h now => h.side (if now then .new else .old)) c.diff.hunks applied

/-- A copy in which these hunks are applied and anything outside the hunks may differ. -/
inductive OnBranch (applied : List Bool) : Base → Prop where
  | present (gaps : List (List Text)) (content : Text)
    (holds : Holds content (weave gaps (c.images applied))) : OnBranch applied (.present content)
  | neverAdded (added : c.file.status = .added) (none : ∀ now ∈ applied, now = false) :
    OnBranch applied .absent
  | deleted (removed : c.file.status = .removed) (all : ∀ now ∈ applied, now = true) :
    OnBranch applied .absent
  | unreadable : OnBranch applied .unreadable

/-- The copy is the changed file. -/
inductive IsNew : Base → Prop where
  | present (content : Text) (holds : Holds content (c.revision .new).lines)
    (kept : c.file.status ≠ .removed) : IsNew (.present content)
  | absent (removed : c.file.status = .removed) : IsNew .absent

/-- Each hunk can be placed: lines that count stand on both of its sides, no before image is
left in the changed file, and the after images are distinct. -/
structure Placed (counts : PatchLine → Bool) : Prop where
  samePath : c.file.previousPath = none ∧ c.file.status ≠ .renamed
  leading : ∀ h ∈ c.diff.hunks, ∃ line ∈ h.body.takeWhile unchanged, counts line = true
  trailing : ∀ h ∈ c.diff.hunks, ∃ line ∈ h.body.rtakeWhile unchanged, counts line = true
  gone : ∀ h ∈ c.diff.hunks,
    ¬ (h.side .old).map normalise <:+: (c.revision .new).lines.map normalise
  distinct : (c.diff.hunks.map fun h => (h.side .new).map normalise).Nodup

def changedLines : ℕ := (c.diff.hunks.map fun h => (Hunk.ofPatch h).changed).sum

variable {c}

theorem hunks_eq {patch : Text} (hpatch : c.file.patch = some patch) :
    hunks patch = c.diff.hunks.map Hunk.ofPatch := by
  obtain rfl := Option.some.inj (c.patch_eq.symm.trans hpatch)
  rw [hunks_print c.diff c.headings, List.filter_eq_self]
  intro hunk hhunk
  obtain ⟨h, hh, rfl⟩ := List.mem_map.mp hhunk
  obtain ⟨line, hline, hchanged⟩ := c.changes h hh
  rw [decide_eq_true_eq, Hunk.ofPatch_changed, List.countP_pos_iff]
  exact ⟨line, hline, by simp [hchanged]⟩

/-- On a copy where some hunk reads as before the change, the file has not landed. -/
theorem applied_of_fileLanded {applied : List Bool}
    (hlength : applied.length = c.diff.hunks.length) {content : Option Text} {texts : List Text}
    (htexts : baseLines content = texts.map normalise)
    (himages : ∀ image ∈ c.images applied, image <:+: texts) (hstatus : c.file.status ≠ .removed)
    {n : ℕ} (hlanded : fileLanded c.file content = .ok n) : ∀ now ∈ applied, now = true := by
  unfold fileLanded at hlanded
  split at hlanded
  · cases hlanded
  · rw [c.patch_eq] at hlanded
    simp only [hunks_eq c.patch_eq] at hlanded
    split_ifs at hlanded
    intro now hnow
    by_contra hold
    rw [Bool.not_eq_true] at hold
    subst hold
    obtain ⟨i, hi, hnow⟩ := List.mem_iff_getElem.mp hnow
    have hh : i < c.diff.hunks.length := hlength ▸ hi
    have himage : c.diff.hunks[i].side .old ∈ c.images applied := by
      refine List.mem_iff_getElem.mpr ⟨i, by simp [images, hi, hh], ?_⟩
      simp [images, hnow]
    obtain ⟨k, hk⟩ := total_eq_ok hlanded (Hunk.ofPatch c.diff.hunks[i])
      (List.mem_map_of_mem (List.getElem_mem hh))
    refine hunkLanded_of_before ?_ hk
    rw [htexts]
    exact (himages _ himage).map normalise

/-- A file that has landed has every hunk applied. -/
theorem applied_of_landed {applied : List Bool} (hlength : applied.length = c.diff.hunks.length)
    {base : Base} (hbase : c.OnBranch applied base) {n : ℕ}
    (hlanded : baseLanded c.file base = .ok n) : ∀ now ∈ applied, now = true := by
  cases hbase with
  | present gaps content holds =>
    by_cases hstatus : c.file.status = .removed
    · simp only [baseLanded, fileLanded, c.patch_eq, hstatus] at hlanded
      split_ifs at hlanded
    · exact applied_of_fileLanded hlength holds.baseLines (fun _ himage => infix_weave himage)
        hstatus hlanded
  | neverAdded hadded hnone =>
    have hempty : baseLines none = ([] : List Text).map normalise := rfl
    refine applied_of_fileLanded hlength hempty ?_ (by rw [hadded]; decide) hlanded
    intro image himage
    -- a file that was not there has no text before the change
    obtain ⟨i, hi, rfl⟩ := List.mem_iff_getElem.mp himage
    have hi' : i < c.diff.hunks.length ∧ i < applied.length := by simpa [images] using hi
    have hold : (c.images applied)[i] = c.diff.hunks[i].side .old := by
      simp [images, hnone _ (List.getElem_mem hi'.2)]
    rw [hold]
    have htile := c.tiles .old
    rw [c.added hadded] at htile
    rw [htile]
    exact infix_weave (List.mem_map_of_mem (List.getElem_mem hi'.1))
  | deleted hremoved hall => exact hall
  | unreadable => cases hlanded

theorem partiallyApplied_of_nodup {base : List Text} {hunks : List Hunk}
    (h : (hunks.map fun hunk => hunk.after).Nodup) : partiallyApplied base hunks = false := by
  unfold partiallyApplied
  rw [List.any_eq_false]
  intro hunk hhunk
  have hcount := List.nodup_iff_count_le_one.mp h hunk.after
  rw [List.count, List.countP_map] at hcount
  have hsame : (hunks.countP fun other => other.after = hunk.after) ≤ 1 := by
    refine le_trans (le_of_eq ?_) hcount
    exact List.countP_congr fun other _ => by simp
  simp only [Bool.and_eq_true, decide_eq_true_eq]
  omega

/-- The hunks of the changed file are all found in it. -/
theorem hunkLanded_of_new (hplaced : c.Placed substantive) {h : PatchHunk}
    (hh : h ∈ c.diff.hunks) : hunkLanded ((c.revision .new).lines.map normalise) (Hunk.ofPatch h) =
      .ok (Hunk.ofPatch h).changed := by
  obtain ⟨lead, hlead, hleads⟩ := hplaced.leading h hh
  obtain ⟨trail, htrail, htrails⟩ := hplaced.trailing h hh
  obtain ⟨line, hline, hchanged⟩ := c.changes h hh
  have hchanges : h.body.all unchanged = false := by
    rw [List.all_eq_false]
    exact ⟨line, hline, by simp [hchanged]⟩
  have hmem : lead ∈ h.body := (List.takeWhile_prefix _).subset hlead
  have hafter : h.side .new <:+: (c.revision .new).lines := by
    rw [c.tiles .new]
    exact infix_weave (List.mem_map_of_mem hh)
  apply hunkLanded_of_after
  · rw [Hunk.ofPatch_leading, List.countP_pos_iff]
    exact ⟨lead, hlead, hleads⟩
  · rw [Hunk.ofPatch_trailing h hchanges, List.countP_pos_iff]
    exact ⟨trail, htrail, htrails⟩
  · rw [Hunk.ofPatch_anchors, List.countP_pos_iff]
    exact ⟨lead, hmem, hleads⟩
  · rw [Hunk.ofPatch_before]
    exact hplaced.gone h hh
  · rw [Hunk.ofPatch_after, Ne, List.map_eq_nil_iff]
    rcases lead with ⟨_ | _ | _, text⟩ | text <;> try cases hleads
    exact List.ne_nil_of_mem (List.mem_filterMap.mpr ⟨_, hmem, rfl⟩)
  · rw [Hunk.ofPatch_after]
    exact hafter.map normalise

/-- The changed file itself has landed. -/
theorem baseLanded_of_new (hplaced : c.Placed substantive) {base : Base} (hbase : c.IsNew base) :
    baseLanded c.file base = .ok c.changedLines := by
  obtain ⟨hpath, hstatus⟩ := hplaced.samePath
  cases hbase with
  | absent hremoved =>
    simp [baseLanded, fileLanded, hpath, hremoved, c.patch_eq, hunks_eq c.patch_eq, changedLines,
      List.map_map, Function.comp_def]
  | present content holds kept =>
    have hdistinct : ((c.diff.hunks.map Hunk.ofPatch).map fun hunk => hunk.after).Nodup := by
      rw [List.map_map]
      exact (List.map_congr_left fun h _ => Hunk.ofPatch_after h) ▸ hplaced.distinct
    have htotal : total (hunkLanded (baseLines (some content))) (c.diff.hunks.map Hunk.ofPatch) =
        .ok ((c.diff.hunks.map Hunk.ofPatch).map fun hunk => hunk.changed).sum := by
      refine total_of_forall fun hunk hhunk => ?_
      obtain ⟨h, hh, rfl⟩ := List.mem_map.mp hhunk
      rw [holds.baseLines]
      exact hunkLanded_of_new hplaced hh
    simp only [baseLanded, fileLanded, hpath, c.patch_eq, hunks_eq c.patch_eq,
      partiallyApplied_of_nodup hdistinct, htotal]
    simp [hstatus, kept, changedLines, List.map_map, Function.comp_def]

end FileChange

/-- A changed file and the branch copy of it, by the hunks that are applied there. -/
structure BranchFile where
  change : FileChange
  applied : List Bool
  base : Base
  length_eq : applied.length = change.diff.hunks.length
  onBranch : change.OnBranch applied base

/-- A merged pull request is called landed, where lines that count place its hunks. -/
def Recognised (counts : PatchLine → Bool) (least : ℕ) : Prop :=
  ∀ (merged : List (FileChange × Base)) (minLines : ℕ),
    (∀ entry ∈ merged, entry.1.IsNew entry.2 ∧ entry.1.Placed counts) →
    least ≤ (merged.map fun entry => entry.1.changedLines).sum →
    minLines ≤ (merged.map fun entry => entry.1.changedLines).sum →
    ∃ n, landed (merged.map fun entry => entry.1.file) (merged.map Prod.snd) minLines = .ok n

/-- How much of a merged pull request was compared. -/
theorem landed_of_new {merged : List (FileChange × Base)} {minLines : ℕ}
    (hmerged : ∀ entry ∈ merged, entry.1.IsNew entry.2 ∧ entry.1.Placed substantive)
    (hleast : 1 ≤ (merged.map fun entry => entry.1.changedLines).sum)
    (hmin : minLines ≤ (merged.map fun entry => entry.1.changedLines).sum) :
    landed (merged.map fun entry => entry.1.file) (merged.map Prod.snd) minLines =
      .ok (merged.map fun entry => entry.1.changedLines).sum := by
  have htotal : total (fun entry => baseLanded entry.1 entry.2)
      ((merged.map fun entry => entry.1.file).zip (merged.map Prod.snd)) =
        .ok (merged.map fun entry => entry.1.changedLines).sum := by
    rw [List.zip_map', total_map]
    refine total_of_forall fun entry hentry => ?_
    exact FileChange.baseLanded_of_new (hmerged entry hentry).2 (hmerged entry hentry).1
  have hne : merged.isEmpty = false := by
    rw [Bool.eq_false_iff, Ne, List.isEmpty_iff]
    rintro rfl
    exact absurd hleast (by decide)
  have hlength : (merged.map fun entry => entry.1.file).length =
      (merged.map Prod.snd).length := by simp
  unfold landed
  simp only [htotal, List.isEmpty_map, hne, hlength]
  rw [if_neg (by simp), if_neg (by omega), if_neg (by omega)]

/-- Only a change that is applied throughout has landed, and one that is merged has, if each hunk
stands between lines with text in them. -/
theorem landed_only_applied :
    (∀ (branch : List BranchFile) (minLines n : ℕ),
      landed (branch.map fun f => f.change.file) (branch.map BranchFile.base) minLines = .ok n →
        ∀ f ∈ branch, ∀ now ∈ f.applied, now = true) ∧
      Recognised substantive 1 := by
  constructor
  · intro branch minLines n hlanded f hf
    unfold landed at hlanded
    split at hlanded
    · cases hlanded
    · split at hlanded
      · cases hlanded
      · rename_i lines htotal
        have hmem : (f.change.file, f.base) ∈
            (branch.map fun f => f.change.file).zip (branch.map BranchFile.base) := by
          rw [List.zip_map']
          exact List.mem_map_of_mem hf
        obtain ⟨k, hk⟩ := total_eq_ok htotal _ hmem
        exact FileChange.applied_of_landed f.length_eq f.onBranch hk
  · intro merged minLines hmerged hleast hmin
    exact ⟨_, landed_of_new hmerged hleast hmin⟩

/-- Any context line, also a blank one. -/
def isContext (line : PatchLine) : Bool := line.kind? = some .context

section Insertion

variable (around : Text) (h : '\n' ∉ around)

def insertedHunk : PatchHunk where
  oldStart := 1
  newStart := 1
  omitOld := false
  omitNew := false
  heading := []
  body := [.line .context around, .line .added "text".toList, .line .context around]

def insertedRevision : Side → Revision
  | .old => ⟨[around, around], by simp [h], by simp⟩
  | .new => ⟨[around, "text".toList, around], by simp [h], by simp⟩

def insertedDiff : UnifiedDiff (insertedRevision around h) where
  stanza := []
  hunks := [insertedHunk around]
  terminated := true
  stanza_plain := Evidence.plain_nil
  between := by
    intro hunk hhunk
    rw [List.mem_singleton.mp hhunk]
    refine ⟨fun side => ?_, fun side _ => ?_, fun side => ?_, by simp [insertedHunk],
      by simp [insertedHunk]⟩
    · cases side <;> exact List.prefix_refl _
    · cases side <;> exact le_rfl
    · cases side <;> simp [insertedHunk, PatchHunk.start, insertedRevision]

/-- A line is added between two others that read alike. -/
def inserted : FileChange where
  file := ⟨"notes.md".toList, none, .modified, some (insertedDiff around h).print⟩
  revision := insertedRevision around h
  diff := insertedDiff around h
  gaps := []
  patch_eq := rfl
  headings := by simp [insertedDiff]
  changes := by
    intro hunk hhunk
    rw [List.mem_singleton.mp hhunk]
    exact ⟨.line .added "text".toList, by simp [insertedHunk], rfl⟩
  tiles := by
    intro side
    cases side <;> rfl
  added := by simp
  removed := by simp

end Insertion

/-- A merged change whose hunk stands between blank lines is not called landed. -/
theorem blank_context_not_recognised : ¬ Recognised isContext 0 := by
  intro h
  have hnew : (inserted [] (by simp)).IsNew (.present "\ntext\n\n".toList) := by
    refine .present _ ⟨by decide, true, by decide, rfl⟩ (by decide)
  have hplaced : (inserted [] (by simp)).Placed isContext := by
    refine ⟨by decide, by decide, by decide, by decide, by decide⟩
  obtain ⟨n, hn⟩ := h [(inserted [] (by simp), .present "\ntext\n\n".toList)] 0
    (by simpa using ⟨hnew, hplaced⟩) (Nat.zero_le _) (Nat.zero_le _)
  have hrefused : landed [(inserted [] (by simp)).file] [.present "\ntext\n\n".toList] 0 =
      .error .noAnchor := by decide +kernel
  exact absurd (hrefused.symm.trans hn) (by simp)

/-- The same change between lines with text in them. -/
theorem bracketed_insertion_recognised :
    (∀ now ∈ [true], now = true) ∧
      ∃ n, landed [(inserted "\x7d".toList (by decide)).file]
        [.present "\x7d\ntext\n\x7d\n".toList] 1 = .ok n := by
  have hnew : (inserted "\x7d".toList (by decide)).IsNew (.present "\x7d\ntext\n\x7d\n".toList) := by
    refine .present _ ⟨by decide, true, by decide, rfl⟩ (by decide)
  have hplaced : (inserted "\x7d".toList (by decide)).Placed substantive := by
    refine ⟨by decide, by decide, by decide, by decide, by decide⟩
  have honBranch : (inserted "\x7d".toList (by decide)).OnBranch [true]
      (.present "\x7d\ntext\n\x7d\n".toList) :=
    .present [] _ ⟨by decide, true, by decide, rfl⟩
  have hlanded : landed [(inserted "\x7d".toList (by decide)).file]
      [.present "\x7d\ntext\n\x7d\n".toList] 1 = .ok 1 := by decide +kernel
  refine ⟨?_, ?_⟩
  · exact landed_only_applied.1 [⟨inserted "\x7d".toList (by decide), [true], _, rfl, honBranch⟩] 1 1
      hlanded _ List.mem_cons_self
  · exact landed_only_applied.2 [(inserted "\x7d".toList (by decide), _)] 1
      (by simpa using ⟨hnew, hplaced⟩) (by decide) (by decide)

/-- Nothing is landed by a diff that changes no line. -/
example : landed [⟨"tool.sh".toList, none, .modified, some []⟩] [.present []] 0 =
    .error .noReadableDiff := by decide

end TinySweeper.PrTriage
