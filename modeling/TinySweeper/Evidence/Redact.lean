import TinySweeper.Evidence.Diff
import TinySweeper.Scan.Armour
import TinySweeper.Scan.Findings

/-!
# Masking secrets out of a parsed diff

Masking runs over the typed lines of a diff, with one key state for each
revision. It changes texts only. The state of a side is what the last marker
line on that side says; before the first one it is guessed from the whole hunk.
-/

namespace TinySweeper.Evidence

open Text Scan

/-- A changed file, as far as masking reads it. -/
structure ChangedFile where
  path : Text
  previousPath : Option Text := none
  deriving DecidableEq, Repr

/-- What a call to `mask` redacted. -/
structure Redactions where
  spans : ℕ := 0
  files : List Text := []
  deriving DecidableEq, Repr

def isDelimiter (c : Char) : Bool := c = '=' || c = ':'

/-- Mask the assigned value, or the whole line where there is no assignment. -/
def maskAssignmentOrWholeLine (text : Text) : Text :=
  if (trim text).isEmpty then text
  else
    match text.dropWhile fun c => !isDelimiter c with
    | [] => redact text
    | delimiter :: value =>
      if (trim value).isEmpty then text
      else text.takeWhile (fun c => !isDelimiter c) ++ delimiter :: redact (trim value)

/-- Whether each revision of a hunk stands inside a private key. -/
structure KeyState where
  old : Bool
  head : Bool
  deriving DecidableEq, Repr

namespace KeyState

def on (s : KeyState) : Side → Bool
  | .new => s.head
  | .old => s.old

/-- Context is shared by both revisions. -/
def inKeyBlock (s : KeyState) : LineKind → Bool
  | .added => s.head
  | .removed => s.old
  | .context => s.head || s.old

def set (s : KeyState) (inKeyBlock : Bool) : LineKind → KeyState
  | .added => { s with head := inKeyBlock }
  | .removed => { s with old := inKeyBlock }
  | .context => ⟨inKeyBlock, inKeyBlock⟩

theorem inKeyBlock_iff (s : KeyState) (kind : LineKind) :
    s.inKeyBlock kind = true ↔ ∃ side, kind.isOn side = true ∧ s.on side = true := by
  constructor
  · intro h
    cases kind with
    | added => exact ⟨.new, rfl, h⟩
    | removed => exact ⟨.old, rfl, h⟩
    | context =>
      rcases Bool.or_eq_true_iff.mp h with hhead | hold
      · exact ⟨.new, rfl, hhead⟩
      · exact ⟨.old, rfl, hold⟩
  · rintro ⟨side, hkind, hside⟩
    cases kind <;> cases side <;> simp_all [inKeyBlock, on, LineKind.isOn]

theorem on_set (s : KeyState) (b : Bool) (kind : LineKind) (side : Side) :
    (s.set b kind).on side = if kind.isOn side then b else s.on side := by
  cases kind <;> cases side <;> rfl

end KeyState

section Redaction

variable (highEntropy : Text → Bool)

/-- A line outside a key: the rulepack, then the whole value where the line was named. -/
def maskOrdinaryLine (sensitive flagged : Bool) (text : Text) : Text × ℕ :=
  let rulepackMasked := redactLine highEntropy text
  let lineMasked := decide (rulepackMasked ≠ text)
  let spans := if lineMasked then 1 else 0
  if sensitive then
    let masked := maskAssignmentOrWholeLine rulepackMasked
    (masked, if masked ≠ rulepackMasked ∧ !lineMasked then spans + 1 else spans)
  else if !lineMasked && flagged then
    let masked := maskAssignmentOrWholeLine rulepackMasked
    (masked, if masked ≠ rulepackMasked then spans + 1 else spans)
  else (rulepackMasked, spans)

/-- The masked text of a line, the locations masked on it, and the key state after it. -/
def maskLine (sensitive : Bool) (flagged : List ℕ) (s : KeyState) (line : DiffLine) :
    (Text × ℕ) × KeyState :=
  let inKeyBlock := s.inKeyBlock line.kind
  if isPrivateKeyBegin line.text || inKeyBlock && isPrivateKeyEnd line.text then
    let r := redactStreamLine highEntropy line.text inKeyBlock
    ((r.1, if r.1 ≠ line.text then 1 else 0), s.set r.2 line.kind)
  else if inKeyBlock then
    -- Blank lines inside the armour are formatting, not key material.
    if (trim line.text).isEmpty then ((line.text, 0), s)
    else ((redact (trim line.text), 1), s)
  else
    let named := line.newLine.any (flagged.contains ·)
    (maskOrdinaryLine highEntropy sensitive named line.text, s)

def maskLines (sensitive : Bool) (flagged : List ℕ) : KeyState → List DiffLine → List DiffLine × ℕ
  | _, [] => ([], 0)
  | s, line :: lines =>
    let r := maskLine highEntropy sensitive flagged s line
    let rest := maskLines sensitive flagged r.2 lines
    ({ line with text := r.1.1 } :: rest.1, r.1.2 + rest.2)

/-- Key states start anew at each hunk, unless the hunk shows that it opens inside a key. -/
def maskHunk (sensitive : Bool) (flagged : List ℕ) (hunk : Hunk) : Hunk × ℕ :=
  let opened := opensInsidePrivateKey (hunk.lines.map (·.text))
  let r := maskLines highEntropy sensitive flagged ⟨opened, opened⟩ hunk.lines
  ({ hunk with lines := r.1 }, r.2)

end Redaction

/-- The lines of a path that a secret finding names. -/
def flaggedLines (findings : List Finding) (path : Text) : List ℕ :=
  (findings.filter fun finding => finding.kind = .secret ∧ finding.path = path).filterMap (·.line)

/-- A rename out of a sensitive path is as sensitive as the path. -/
def isSensitiveDiff (files : List ChangedFile) (path : Text) : Bool :=
  isSensitivePath path ||
    ((files.find? fun file => file.path = path).bind (·.previousPath)).any isSensitivePath

section Redaction

variable (highEntropy : Text → Bool) (findings : List Finding) (files : List ChangedFile)

def maskDiff (diff : FileDiff) : FileDiff × ℕ :=
  let masked := diff.hunks.map
    (maskHunk highEntropy (isSensitiveDiff files diff.path) (flaggedLines findings diff.path))
  ({ diff with hunks := masked.map Prod.fst }, (masked.map Prod.snd).sum)

/-- Mask secrets in a list of diffs; a file is listed when a location in it was masked. -/
def mask (diffs : List FileDiff) : List FileDiff × Redactions :=
  let masked := diffs.map (maskDiff highEntropy findings files)
  (masked.map Prod.fst,
    { spans := (masked.map Prod.snd).sum
      files := (masked.filter (·.2 ≠ 0)).map (·.1.path) })

end Redaction

/-- The text is split at its first delimiter, unless it has none. -/
theorem maskAssignmentOrWholeLine_cases (text : Text) :
    ((∀ c ∈ text, isDelimiter c = false) ∧
      maskAssignmentOrWholeLine text = if (trim text).isEmpty then text else redact text) ∨
    ∃ name delimiter value, text = name ++ delimiter :: value ∧ isDelimiter delimiter = true ∧
      (∀ c ∈ name, isDelimiter c = false) ∧
      maskAssignmentOrWholeLine text =
        if (trim value).isEmpty then text else name ++ delimiter :: redact (trim value) := by
  have hparts := @List.takeWhile_append_dropWhile _ (fun c => !isDelimiter c) text
  unfold maskAssignmentOrWholeLine
  cases hrest : text.dropWhile fun c => !isDelimiter c with
  | nil =>
    apply Or.inl
    refine ⟨?_, rfl⟩
    intro c hc
    simpa using List.dropWhile_eq_nil_iff.mp hrest c hc
  | cons delimiter value =>
    apply Or.inr
    have hdelimiter : isDelimiter delimiter = true := by
      have hne : text.dropWhile (fun c => !isDelimiter c) ≠ [] := by simp [hrest]
      have hhead := List.head_dropWhile_not (fun c => !isDelimiter c) hne
      simpa [hrest] using hhead
    have hshown : (trim text).isEmpty = false := by
      rw [List.isEmpty_eq_false_iff, Ne, trim_eq_nil_iff]
      intro hblank
      have hmem : delimiter ∈ text := by
        rw [← hparts, hrest]
        simp
      have hspace := hblank delimiter hmem
      simp only [isDelimiter, Bool.or_eq_true, decide_eq_true_eq] at hdelimiter
      rcases hdelimiter with rfl | rfl <;> revert hspace <;> decide
    refine ⟨text.takeWhile fun c => !isDelimiter c, delimiter, value, ?_, hdelimiter, ?_, ?_⟩
    · rw [← hrest]
      exact hparts.symm
    · intro c hc
      simpa using List.mem_takeWhile_imp hc
    · rw [hshown]
      rfl

/-- A text splits at its first delimiter in one way. -/
theorem split_delimiter_unique {name name' value value' : Text} {delimiter delimiter' : Char}
    (hdelimiter : isDelimiter delimiter = true) (hdelimiter' : isDelimiter delimiter' = true)
    (hname : ∀ c ∈ name, isDelimiter c = false) (hname' : ∀ c ∈ name', isDelimiter c = false)
    (h : name ++ delimiter :: value = name' ++ delimiter' :: value') :
    name = name' ∧ delimiter = delimiter' ∧ value = value' := by
  have htake : ∀ (a : Text) (c : Char) (b : Text), isDelimiter c = true →
      (∀ c ∈ a, isDelimiter c = false) →
        (a ++ c :: b).takeWhile (fun c => !isDelimiter c) = a := by
    intro a c b hc ha
    rw [List.takeWhile_append_of_pos (by simpa using ha)]
    simp [hc]
  have hsame : name = name' := by
    rw [← htake name delimiter value hdelimiter hname, h, htake _ _ _ hdelimiter' hname']
  subst hsame
  obtain ⟨rfl, rfl⟩ := List.cons.inj (List.append_cancel_left h)
  exact ⟨rfl, rfl, rfl⟩

/-- Masking an assigned value brings no credential back. -/
theorem not_infix_maskAssignmentOrWholeLine {token text : Text} (htoken : Credential token)
    (h : ¬ token <:+: text) : ¬ token <:+: maskAssignmentOrWholeLine text := by
  have hredact : ∀ value, ¬ token <:+: redact value := by
    intro value hwithin
    have hunspelled := htoken.unspelled value.length
    exact hunspelled.not_infix_redact hwithin
  rcases maskAssignmentOrWholeLine_cases text with
    ⟨-, hmask⟩ | ⟨name, delimiter, value, rfl, hdelimiter, -, hmask⟩
  · rw [hmask]
    split_ifs
    · exact h
    · exact hredact text
  · rw [hmask]
    split_ifs
    · exact h
    · have hsep : delimiter ∉ token := by
        intro hmem
        have hchar := htoken.body delimiter hmem
        simp only [isDelimiter, Bool.or_eq_true, decide_eq_true_eq] at hdelimiter
        rcases hdelimiter with rfl | rfl <;> revert hchar <;> decide
      rw [infix_append_cons_iff hsep] at h ⊢
      rintro (hname | hvalue)
      · exact h (.inl hname)
      · exact hredact _ hvalue

/-- What stays of a line whose value is hidden. -/
def keptName (text : Text) : Text :=
  match text.dropWhile fun c => !isDelimiter c with
  | [] => keptPrefix text
  | delimiter :: value =>
    text.takeWhile (fun c => !isDelimiter c) ++ delimiter :: keptPrefix (trim value)

theorem keptName_of_split {name value : Text} {delimiter : Char}
    (hdelimiter : isDelimiter delimiter = true) (hname : ∀ c ∈ name, isDelimiter c = false) :
    keptName (name ++ delimiter :: value) = name ++ delimiter :: keptPrefix (trim value) := by
  have hkeep : ∀ c ∈ name, (!isDelimiter c) = true := by simpa using hname
  unfold keptName
  rw [List.dropWhile_append_of_pos hkeep, List.takeWhile_append_of_pos hkeep]
  simp [hdelimiter]

theorem keptName_of_notMem {text : Text} (h : ∀ c ∈ text, isDelimiter c = false) :
    keptName text = keptPrefix text := by
  have hkeep : ∀ c ∈ text, (!isDelimiter c) = true := by simpa using h
  unfold keptName
  rw [List.dropWhile_eq_nil_iff.mpr hkeep]

/-- A value stays on such a line if it stands in the name. -/
theorem infix_maskAssignmentOrWholeLine_iff {value text : Text}
    (hvalue : ∀ n ≤ text.length, Unspelled value n) :
    value <:+: maskAssignmentOrWholeLine text ↔ value <:+: keptName text := by
  rcases maskAssignmentOrWholeLine_cases text with
    ⟨hplain, hmask⟩ | ⟨name, delimiter, rest, rfl, hdelimiter, hname, hmask⟩
  · have hshort := hvalue text.length le_rfl
    rw [hmask, keptName_of_notMem hplain]
    split_ifs with hblank
    · have hpadding := opaqueChar_of_blank (List.isEmpty_iff.mp hblank)
      have hgone := @Unspelled.infix_append_padding value [] text _ hshort hpadding
      have hnil : ¬ value <:+: ([] : Text) := hshort.not_infix_short (by decide)
      rw [List.nil_append] at hgone
      simp only [hgone, hnil, hshort.not_infix_keptPrefix]
    · simp only [hshort.not_infix_redact, hshort.not_infix_keptPrefix]
  · rw [hmask, keptName_of_split hdelimiter hname]
    split_ifs with hblank
    · have htrim := List.isEmpty_iff.mp hblank
      have hshort := hvalue 0 (Nat.zero_le _)
      have hkept : keptPrefix (trim rest) = [] := by
        rw [htrim]
        decide
      have hgone := @Unspelled.infix_append_padding value (name ++ [delimiter]) rest _ hshort
        (opaqueChar_of_blank htrim)
      rw [hkept]
      simpa using hgone
    · have htrim := (trim_infix_self rest).length_le
      have hshort := hvalue (trim rest).length (by simp; omega)
      have hparts := @Unspelled.infix_redact_append value (name ++ [delimiter]) [] _ hshort
      have hnil : ¬ value <:+: ([] : Text) := hshort.not_infix_short (by decide)
      simpa [hnil] using hparts

def DiffLine.withoutText (line : DiffLine) : DiffLine := { line with text := [] }

def Hunk.withoutTexts (hunk : Hunk) : Hunk :=
  { hunk with lines := hunk.lines.map DiffLine.withoutText }

def FileDiff.withoutTexts (diff : FileDiff) : FileDiff :=
  { diff with hunks := diff.hunks.map Hunk.withoutTexts }

section Redaction

variable {highEntropy : Text → Bool} {findings : List Finding} {files : List ChangedFile}
  {sensitive : Bool} {flagged : List ℕ}

theorem maskLines_withoutText (s : KeyState) (lines : List DiffLine) :
    (maskLines highEntropy sensitive flagged s lines).1.map DiffLine.withoutText =
      lines.map DiffLine.withoutText := by
  induction lines generalizing s with
  | nil => rfl
  | cons line lines ih =>
    rw [maskLines, List.map_cons, List.map_cons, ih]
    rfl

theorem maskHunk_withoutTexts (hunk : Hunk) :
    (maskHunk highEntropy sensitive flagged hunk).1.withoutTexts = hunk.withoutTexts := by
  simp only [maskHunk, Hunk.withoutTexts, maskLines_withoutText]

theorem maskDiff_withoutTexts (diff : FileDiff) :
    (maskDiff highEntropy findings files diff).1.withoutTexts = diff.withoutTexts := by
  simp only [maskDiff, FileDiff.withoutTexts, List.map_map]
  congr 1
  apply List.map_congr_left
  intro hunk _
  exact maskHunk_withoutTexts hunk

/-- Paths, hunks, kinds, numbers and the changed-line map are what they were. -/
theorem mask_withoutTexts (diffs : List FileDiff) :
    (mask highEntropy findings files diffs).1.map FileDiff.withoutTexts =
      diffs.map FileDiff.withoutTexts := by
  simp only [mask, List.map_map]
  apply List.map_congr_left
  intro diff _
  exact maskDiff_withoutTexts diff

/-- What a line sets the key state of a side to. -/
def sideMark (side : Side) (line : DiffLine) : Option Bool :=
  if line.kind.isOn side then keyMark line.text else none

/-- After a line, the state of each side it is on is what its marker says. -/
theorem maskLine_state (s : KeyState) (line : DiffLine) (side : Side) :
    (maskLine highEntropy sensitive flagged s line).2.on side =
      (sideMark side line).getD (s.on side) := by
  have hstream := @redactStreamLine_state highEntropy line.text (s.inKeyBlock line.kind)
  unfold maskLine sideMark
  dsimp only
  cases hbegin : isPrivateKeyBegin line.text with
  | true =>
    have hmark : keyMark line.text = some (!isPrivateKeyEnd line.text) := by simp [keyMark, hbegin]
    rw [hmark, Option.getD_some] at hstream
    rw [if_pos (by simp), KeyState.on_set, hstream, hmark]
    split_ifs <;> rfl
  | false =>
    cases hend : isPrivateKeyEnd line.text with
    | false =>
      have hmark : keyMark line.text = none := keyMark_eq_none_iff.mpr ⟨hbegin, hend⟩
      simp only [hmark, ite_self, Option.getD_none, Bool.and_false, Bool.or_false,
        Bool.false_eq_true, if_false]
      split_ifs <;> rfl
    | true =>
      have hmark : keyMark line.text = some false := by simp [keyMark, hbegin, hend]
      rw [hmark, Option.getD_some] at hstream
      cases hkey : s.inKeyBlock line.kind with
      | true =>
        rw [hkey] at hstream
        rw [if_pos (by simp), KeyState.on_set, hstream, hmark]
        split_ifs <;> rfl
      | false =>
        -- A closing marker outside a key finds the sides of the line outside already.
        rw [if_neg (by simp), if_neg (by simp)]
        dsimp only
        split_ifs with hside
        · rw [hmark, Option.getD_some]
          by_contra hopen
          rw [Bool.not_eq_false] at hopen
          have := (KeyState.inKeyBlock_iff s line.kind).mpr ⟨side, hside, hopen⟩
          rw [hkey] at this
          cases this
        · rfl

theorem getElem?_maskLines (s : KeyState) (lines : List DiffLine) (i : ℕ) :
    (maskLines highEntropy sensitive flagged s lines).1[i]? = lines[i]?.map fun line =>
      { line with text := (maskLine highEntropy sensitive flagged
          ((lines.take i).foldl (fun s line => (maskLine highEntropy sensitive flagged s line).2) s)
          line).1.1 } := by
  induction lines generalizing s i with
  | nil => simp [maskLines]
  | cons line lines ih =>
    cases i with
    | zero => simp [maskLines]
    | succ i =>
      rw [maskLines, List.getElem?_cons_succ, List.getElem?_cons_succ, ih]
      rfl

end Redaction

/-- Whether masking tracks a key on this side at the start of a line of a hunk. -/
def Hunk.tracksKey (hunk : Hunk) (i : ℕ) (side : Side) : Bool :=
  latest (sideMark side) (opensInsidePrivateKey (hunk.lines.map (·.text))) (hunk.lines.take i)

/-- The text of one line of a list of diffs. -/
def textAt (diffs : List FileDiff) (d h i : ℕ) : Option Text :=
  diffs[d]?.bind fun diff => diff.hunks[h]?.bind fun hunk => hunk.lines[i]?.map (·.text)

section Redaction

variable {highEntropy : Text → Bool} {findings : List Finding} {files : List ChangedFile}
  {diffs : List FileDiff} {d h i : ℕ} {diff : FileDiff} {hunk : Hunk} {line : DiffLine}

/-- Each line is masked with the key states its own side's markers set. -/
theorem textAt_mask (hdiff : diffs[d]? = some diff) (hhunk : diff.hunks[h]? = some hunk)
    (hline : hunk.lines[i]? = some line) :
    textAt (mask highEntropy findings files diffs).1 d h i =
      some (maskLine highEntropy (isSensitiveDiff files diff.path)
        (flaggedLines findings diff.path) ⟨hunk.tracksKey i .old, hunk.tracksKey i .new⟩
        line).1.1 := by
  have hstate : ∀ s, (hunk.lines.take i).foldl (fun s line => (maskLine highEntropy
      (isSensitiveDiff files diff.path) (flaggedLines findings diff.path) s line).2) s =
        ⟨latest (sideMark .old) s.old (hunk.lines.take i),
          latest (sideMark .new) s.head (hunk.lines.take i)⟩ := by
    intro s
    have hside := fun side => @foldl_eq_latest _ _ (sideMark side) _ _
      (fun s => KeyState.on s side) (fun s line => @maskLine_state highEntropy
        (isSensitiveDiff files diff.path) (flaggedLines findings diff.path) s line side)
      s (hunk.lines.take i)
    have hold := hside .old
    have hnew := hside .new
    rw [KeyState.mk.injEq]
    exact ⟨hold, hnew⟩
  unfold textAt mask maskDiff maskHunk
  simp only [List.getElem?_map, hdiff, Option.map_some, Option.bind_some, hhunk,
    getElem?_maskLines, hline, hstate]
  rfl

end Redaction

end TinySweeper.Evidence
