import TinySweeper.Latest
import TinySweeper.Scan.Assignments

/-!
# Private-key armour in a stream

The key state of a stream changes at marker lines only. A marker line keeps its
marker and the name of an assignment before it.
-/

namespace TinySweeper.Scan

open Text

/-- The texts a hint replaces by themselves. -/
def redactionHints : List Text :=
  redactedChars 20 :: SAFE_PREFIXES.map fun known =>
    known ++ "… ".toList ++ redactedChars (known.length + 22)

/-- A number of about its own offset has two digits. -/
theorem length_decimal_eq_two {n offset : ℕ} (hlow : 18 ≤ offset) (hhigh : offset ≤ 31)
    (h : offset + (decimal n).length = n) : (decimal n).length = 2 := by
  have hlong : ¬ (decimal n).length ≤ 1 := by
    intro hle
    have := (Nat.length_toDigits_le_iff (by decide) (by decide)).mp hle
    omega
  have hfew : n < 100 := by
    by_contra hge
    obtain ⟨m, rfl⟩ : ∃ m, n = m + 33 := ⟨n - 33, by omega⟩
    have hself : m < 10 ^ m := Nat.lt_pow_self (by decide)
    have hpower : m + 33 < 10 ^ (m + 1) := by
      rw [pow_succ]
      omega
    have := length_decimal_le (Nat.succ_pos m) hpower
    omega
  have := @length_decimal_le n 2 (by decide) hfew
  omega

theorem redact_hint : ∀ hint ∈ redactionHints, redact hint = hint := by decide

theorem redact_eq_self_iff {value : Text} : redact value = value ↔ value ∈ redactionHints := by
  constructor
  · intro h
    have hlength := congrArg List.length h
    unfold redact at h hlength
    split at h
    · rename_i known hfind
      have hknown := List.mem_of_find?_eq_some hfind
      have hshort := length_safePrefix_le known hknown
      have hdots : "… ".toList.length = 2 := by decide
      rw [hfind] at hlength
      dsimp only at hlength
      rw [List.length_append, List.length_append, hdots, length_redactedChars] at hlength
      have hdigits := length_decimal_eq_two (by omega) (by omega)
        (show known.length + 20 + (decimal value.length).length = value.length by omega)
      apply List.mem_cons_of_mem
      apply List.mem_map.mpr
      refine ⟨known, hknown, ?_⟩
      rw [show known.length + 22 = value.length by omega]
      exact h
    · rename_i hfind
      rw [hfind] at hlength
      dsimp only at hlength
      rw [length_redactedChars] at hlength
      have hdigits := length_decimal_eq_two le_rfl (by omega) hlength
      rw [show value.length = 20 by omega] at h
      rw [← h]
      exact List.mem_cons_self
  · exact redact_hint value

theorem redactedChars_ends (n : ℕ) : ∃ text, redactedChars n = '<' :: (text ++ ['>']) := by
  have hopen : "<redacted, ".toList = '<' :: "redacted, ".toList := by decide
  have hclose : " chars>".toList = " chars".toList ++ ['>'] := by decide
  refine ⟨"redacted, ".toList ++ decimal n ++ " chars".toList, ?_⟩
  unfold redactedChars
  rw [hopen, hclose]
  simp only [List.cons_append, List.append_assoc]

theorem trim_redactedChars (n : ℕ) : trim (redactedChars n) = redactedChars n := by
  obtain ⟨text, htext⟩ := redactedChars_ends n
  rw [htext]
  exact trim_of_ends (by decide) (by decide) text

theorem safePrefix_head : ∀ known ∈ SAFE_PREFIXES,
    ∃ c ∈ known.head?, isWhitespace c = false := by
  have hshown : ∀ known ∈ SAFE_PREFIXES,
      (known.head?.any fun c => !isWhitespace c) = true := by decide
  intro known hknown
  obtain ⟨c, hc, hblank⟩ := (Option.any_eq_true _ _).mp (hshown known hknown)
  exact ⟨c, hc, by simpa using hblank⟩

theorem trim_redact (value : Text) : trim (redact value) = redact value := by
  unfold redact
  split
  · rename_i known hfind
    obtain ⟨c, hhead, hblank⟩ := safePrefix_head known (List.mem_of_find?_eq_some hfind)
    obtain ⟨rest, rfl⟩ := List.head?_eq_some_iff.mp hhead
    obtain ⟨text, htext⟩ := redactedChars_ends value.length
    rw [htext]
    have hclose : isWhitespace '>' = false := by decide
    have hends := trim_of_ends hblank hclose (rest ++ "… ".toList ++ '<' :: text)
    simpa only [List.cons_append, List.append_assoc] using hends
  · exact trim_redactedChars _

theorem trim_hint : ∀ hint ∈ redactionHints, trim hint = hint := by decide

/-- Hiding a line's text leaves the line as it is only if the text is a hint already. -/
theorem redact_trim_eq_self_iff {text : Text} :
    redact (trim text) = text ↔ text ∈ redactionHints := by
  constructor
  · intro h
    have htrim : trim text = text := by
      rw [← h]
      exact trim_redact _
    rw [htrim] at h
    exact redact_eq_self_iff.mp h
  · intro h
    rw [trim_hint text h]
    exact redact_hint text h

theorem redactedChars_trim_eq_self_iff {text : Text} :
    redactedChars (trim text).length = text ↔ text = redactedChars 20 := by
  constructor
  · intro h
    have htrim : trim text = text := by
      rw [← h]
      exact trim_redactedChars _
    rw [htrim] at h
    have hlength := congrArg List.length h
    rw [length_redactedChars] at hlength
    have hdigits := length_decimal_eq_two le_rfl (by omega) hlength
    rw [show text.length = 20 by omega] at h
    exact h.symm
  · rintro rfl
    decide

/-- What a marker line sets the key state to; other lines leave it. -/
def keyMark (text : Text) : Option Bool :=
  if isPrivateKeyBegin text then some (!isPrivateKeyEnd text)
  else if isPrivateKeyEnd text then some false
  else none

theorem keyMark_eq_none_iff {text : Text} :
    keyMark text = none ↔ isPrivateKeyBegin text = false ∧ isPrivateKeyEnd text = false := by
  unfold keyMark
  cases isPrivateKeyBegin text <;> cases isPrivateKeyEnd text <;> simp

theorem keyMark_eq_some_true_iff {text : Text} :
    keyMark text = some true ↔ isPrivateKeyBegin text = true ∧ isPrivateKeyEnd text = false := by
  unfold keyMark
  cases isPrivateKeyBegin text <;> cases isPrivateKeyEnd text <;> simp

theorem isPrivateKeyBegin_eq_isSome (text : Text) :
    isPrivateKeyBegin text = ((PEM_MARKERS.map Prod.fst).find? (contains text)).isSome := by
  rw [Bool.eq_iff_iff, List.find?_isSome]
  simp [isPrivateKeyBegin]

/-- The name of the assignment before a marker, which a marker line keeps. -/
def pemName (before : Text) : Text := if '=' ∈ before then before.rdropWhile (· ≠ '=') else []

/-- What stands between that name and the marker. -/
def pemHidden (before : Text) : Text := if '=' ∈ before then before.rtakeWhile (· ≠ '=') else before

def pemSuffix (suffix : Text) : Text :=
  if (trim suffix).isEmpty then suffix else redactedChars (trim suffix).length

theorem pemName_append_pemHidden (before : Text) : pemName before ++ pemHidden before = before := by
  unfold pemName pemHidden
  split_ifs
  · exact List.rdropWhile_append_rtakeWhile
  · rfl

section Redaction

variable {highEntropy : Text → Bool} {line marker : Text}

/-- The state after a line of a stream. -/
theorem redactStreamLine_state (line : Text) (inKeyBlock : Bool) :
    (redactStreamLine highEntropy line inKeyBlock).2 = (keyMark line).getD inKeyBlock := by
  have hbegin := isPrivateKeyBegin_eq_isSome line
  unfold redactStreamLine keyMark
  cases hfind : (PEM_MARKERS.map Prod.fst).find? (contains line) with
  | some marker => simp [hbegin, hfind]
  | none =>
    rw [hfind, Option.isSome_none] at hbegin
    rw [hbegin]
    cases inKeyBlock with
    | false => cases isPrivateKeyEnd line <;> rfl
    | true =>
      cases isPrivateKeyEnd line with
      | false => cases (trim line).isEmpty <;> rfl
      | true => cases closingMarker line <;> rfl

theorem redactPemMarkerLine_eq {start : ℕ} (h : find marker line = some start) :
    redactPemMarkerLine highEntropy line marker =
      pemName (line.take start) ++ redact (pemHidden (line.take start)) ++
        (marker ++ pemSuffix (line.drop (start + marker.length))) := by
  unfold redactPemMarkerLine
  rw [h]
  dsimp only
  unfold pemName pemHidden pemSuffix
  split_ifs <;> simp

theorem line_eq_of_find {start : ℕ} (h : find marker line = some start) :
    line = pemName (line.take start) ++ pemHidden (line.take start) ++
      (marker ++ line.drop (start + marker.length)) := by
  obtain ⟨⟨rest, hrest⟩, -⟩ := find_eq_some h
  rw [pemName_append_pemHidden, ← List.drop_drop, ← hrest, List.drop_left, hrest,
    List.take_append_drop]

/-- The marker around which a line is redacted. -/
def armourMarker (line : Text) (inKeyBlock : Bool) : Option Text :=
  match (PEM_MARKERS.map Prod.fst).find? (contains line) with
  | some marker => some marker
  | none => if inKeyBlock && isPrivateKeyEnd line then closingMarker line else none

theorem find_of_closingMarker (h : closingMarker line = some marker) :
    ∃ start, find marker line = some start := by
  obtain ⟨start, -, hmarker⟩ := Option.bind_eq_some_iff.mp h
  obtain ⟨stop, -, rfl⟩ := Option.map_eq_some_iff.mp hmarker
  have hwithin : (line.drop start).take (5 + stop + 5) <:+: line :=
    (List.take_prefix _ _).isInfix.trans (List.drop_suffix _ _).isInfix
  exact Option.isSome_iff_exists.mp (contains_iff.mpr hwithin)

theorem endMarkers_shape : ∀ marker ∈ END_MARKERS,
    "-----END".toList <+: marker ∧ "-----".toList <+: marker.drop (marker.length - 5) ∧
      10 ≤ marker.length := by decide +kernel

/-- A closing line shows the marker that is kept of it. -/
theorem closingMarker_of_isPrivateKeyEnd (h : isPrivateKeyEnd line = true) :
    ∃ marker, closingMarker line = some marker := by
  obtain ⟨full, hfull, hcontains⟩ := List.any_eq_true.mp h
  obtain ⟨hstarts, hends, hlong⟩ := endMarkers_shape full hfull
  obtain ⟨j, hj, hlength⟩ := exists_drop_of_infix (contains_iff.mp hcontains)
  have hplace := hstarts.trans hj
  have hshown : contains line "-----END".toList = true :=
    contains_iff.mpr (hplace.isInfix.trans (List.drop_suffix _ _).isInfix)
  obtain ⟨start, hstart⟩ := Option.isSome_iff_exists.mp hshown
  have hle := find_le hstart hplace (by omega)
  -- The dashes that close the marker come after the ones that open it.
  have hdashes : "-----".toList <+: line.drop (j + (full.length - 5)) := by
    have hdrop := hj.drop (full.length - 5)
    rw [List.drop_drop] at hdrop
    exact hends.trans hdrop
  have hrest : contains (line.drop (start + 5)) "-----".toList = true := by
    rw [contains_iff]
    refine hdashes.isInfix.trans (List.IsSuffix.isInfix ?_)
    refine ⟨(line.drop (start + 5)).take (j + (full.length - 5) - (start + 5)), ?_⟩
    conv_rhs => rw [← List.take_append_drop (j + (full.length - 5) - (start + 5))
      (line.drop (start + 5))]
    rw [List.drop_drop, show start + 5 + (j + (full.length - 5) - (start + 5)) =
      j + (full.length - 5) by omega]
  obtain ⟨stop, hstop⟩ := Option.isSome_iff_exists.mp hrest
  refine ⟨(line.drop start).take (5 + stop + 5), ?_⟩
  unfold closingMarker
  rw [hstart, Option.bind_some, hstop, Option.map_some]

/-- A value on an armour line stays if it stands in the name before the marker, or in the
marker itself. -/
theorem infix_redactPemMarkerLine_iff {value : Text} {start : ℕ}
    (h : find marker line = some start) (hvalue : ∀ n ≤ line.length, Unspelled value n) :
    value <:+: redactPemMarkerLine highEntropy line marker ↔
      value <:+: pemName (line.take start) ++ keptPrefix (pemHidden (line.take start)) ∨
        value <:+: marker := by
  have hline := congrArg List.length (line_eq_of_find h)
  simp only [List.length_append] at hline
  have hhidden := hvalue (pemHidden (line.take start)).length (by omega)
  rw [redactPemMarkerLine_eq h, hhidden.infix_redact_append]
  apply or_congr Iff.rfl
  have hsuffix := (trim_infix_self (line.drop (start + marker.length))).length_le
  have hshort := hvalue (trim (line.drop (start + marker.length))).length (by omega)
  unfold pemSuffix
  split_ifs with hblank
  · apply hshort.infix_append_padding
    exact opaqueChar_of_blank (List.isEmpty_iff.mp hblank)
  · have hshown := @Unspelled.infix_redactedChars_append value marker [] _ hshort
    rw [List.append_nil] at hshown
    rw [hshown]
    constructor
    · rintro (hmarker | hnil)
      · exact hmarker
      · exact absurd hnil (hshort.not_infix_short (by decide))
    · exact .inl

theorem redactStreamLine_of_armourMarker {inKeyBlock : Bool}
    (h : armourMarker line inKeyBlock = some marker) :
    (redactStreamLine highEntropy line inKeyBlock).1 =
      redactPemMarkerLine highEntropy line marker ∧ ∃ start, find marker line = some start := by
  unfold armourMarker at h
  unfold redactStreamLine
  cases hfind : (PEM_MARKERS.map Prod.fst).find? (contains line) with
  | some found =>
    rw [hfind] at h
    cases h
    have hcontains := List.find?_some hfind
    exact ⟨rfl, Option.isSome_iff_exists.mp hcontains⟩
  | none =>
    rw [hfind] at h
    dsimp only at h ⊢
    split_ifs at h with hclose
    obtain ⟨hkey, hend⟩ := Bool.and_eq_true_iff.mp hclose
    rw [hkey, hend, h]
    exact ⟨rfl, find_of_closingMarker h⟩

theorem isArmourLine_of_armourMarker {inKeyBlock : Bool}
    (h : armourMarker line inKeyBlock = some marker) :
    (isPrivateKeyBegin line || inKeyBlock && isPrivateKeyEnd line) = true := by
  rw [isPrivateKeyBegin_eq_isSome]
  unfold armourMarker at h
  cases hfind : (PEM_MARKERS.map Prod.fst).find? (contains line) with
  | some found => rfl
  | none =>
    rw [hfind] at h
    dsimp only at h
    split_ifs at h with hclose
    rw [hclose]
    rfl

theorem not_isArmourLine_of_armourMarker {inKeyBlock : Bool}
    (h : armourMarker line inKeyBlock = none) :
    ¬ (isPrivateKeyBegin line || inKeyBlock && isPrivateKeyEnd line) = true := by
  rw [isPrivateKeyBegin_eq_isSome]
  unfold armourMarker at h
  cases hfind : (PEM_MARKERS.map Prod.fst).find? (contains line) with
  | some found =>
    rw [hfind] at h
    cases h
  | none =>
    rw [hfind] at h
    dsimp only at h
    rw [Option.isSome_none, Bool.false_or]
    intro hclose
    obtain ⟨marker, hmarker⟩ := closingMarker_of_isPrivateKeyEnd (Bool.and_eq_true_iff.mp hclose).2
    rw [if_pos hclose, hmarker] at h
    cases h

theorem pemMarkers_head : ∀ marker ∈ PEM_MARKERS.map Prod.fst, marker.head? = some '-' := by
  decide

theorem dash_notMem_redactedChars (length : ℕ) : '-' ∉ redactedChars length := by
  have hopen : '-' ∉ "<redacted, ".toList := by decide
  have hclose : '-' ∉ " chars>".toList := by decide
  have hdigits : '-' ∉ decimal length := notMem_decimal (by decide) _
  unfold redactedChars
  simp only [List.mem_append, hopen, hclose, hdigits, or_self, not_false_eq_true]

theorem dash_notMem_hintTail (value : Text) : '-' ∉ hintTail value := by
  have hchars := dash_notMem_redactedChars value.length
  have hdots : '-' ∉ "… ".toList := by decide
  unfold hintTail
  split_ifs
  · simp only [List.mem_append, hdots, hchars, or_self, not_false_eq_true]
  · exact hchars

/-- A hint is not the hidden text with more put after it that starts with a dash. -/
theorem redact_ne_append_dash (value rest : Text) : redact value ≠ value ++ '-' :: rest := by
  intro h
  rw [redact_eq] at h
  have hkept := (keptPrefix_prefix_self value).length_le
  have hplace := congrArg (List.drop (keptPrefix value).length) h
  rw [List.drop_left, List.drop_append_of_le_length hkept] at hplace
  apply dash_notMem_hintTail value
  rw [hplace]
  simp

/-- A marker line stays as it is only if what it hides is hidden already. -/
theorem redactPemMarkerLine_eq_self_iff {start : ℕ}
    (hmarker : marker ∈ PEM_MARKERS.map Prod.fst) (h : find marker line = some start) :
    redactPemMarkerLine highEntropy line marker = line ↔
      pemHidden (line.take start) ∈ redactionHints ∧
        pemSuffix (line.drop (start + marker.length)) = line.drop (start + marker.length) := by
  obtain ⟨tail, rfl⟩ := List.head?_eq_some_iff.mp (pemMarkers_head marker hmarker)
  have hline := line_eq_of_find h
  rw [redactPemMarkerLine_eq h, ← redact_eq_self_iff]
  set name := pemName (line.take start) with hname
  set hidden := pemHidden (line.take start) with hhidden
  set suffix := line.drop (start + ('-' :: tail).length) with hsuffix
  constructor
  · intro heq
    have hlengthStart : name.length + hidden.length = start := by
      rw [← List.length_append, hname, hhidden, pemName_append_pemHidden, List.length_take]
      exact min_eq_left (find_eq_some h).2
    have hsame : redact hidden ++ ('-' :: tail ++ pemSuffix suffix) =
        hidden ++ ('-' :: tail ++ suffix) := by
      apply @List.append_cancel_left _ name
      rw [← List.append_assoc, ← List.append_assoc name, heq]
      exact hline
    -- The hint is neither longer nor shorter than what it hides.
    rcases List.append_eq_append_iff.mp hsame with ⟨extra, hlong, hrest⟩ | ⟨extra, hlong, hrest⟩
    · cases extra with
      | nil =>
        rw [List.append_nil] at hlong
        exact ⟨hlong.symm, @List.append_cancel_left _ ('-' :: tail) _ _ hrest⟩
      | cons c extra =>
        -- A shorter hint would show the marker before its first occurrence.
        exfalso
        have hearly : '-' :: tail <+: line.drop (name.length + (redact hidden).length) := by
          have hshown : line = name ++ redact hidden ++ ('-' :: tail ++ pemSuffix suffix) := heq.symm
          have hdrop := congrArg (List.drop (name ++ redact hidden).length) hshown
          rw [List.drop_left, List.length_append] at hdrop
          rw [hdrop]
          exact List.prefix_append _ _
        have hbound : name.length + (redact hidden).length < start := by
          have hsize := congrArg List.length hlong
          rw [List.length_append, List.length_cons] at hsize
          omega
        have := find_le h hearly (by have := (find_eq_some h).2; omega)
        omega
    · cases extra with
      | nil =>
        rw [List.append_nil] at hlong
        exact ⟨hlong, (@List.append_cancel_left _ ('-' :: tail) _ _ hrest).symm⟩
      | cons c extra =>
        exfalso
        obtain ⟨rfl, -⟩ := List.cons.inj hrest
        exact redact_ne_append_dash hidden extra hlong
  · rintro ⟨hhint, hkeep⟩
    rw [hhint, hkeep]
    exact hline.symm

end Redaction

end TinySweeper.Scan
