import TinySweeper.Scan.Armour

/-!
# Texts masked already

A masked text shows no credential, and where it is an assignment its value is a
hint. A second pass finds nothing on it. Masking spells no armour marker either,
so it opens no key.
-/

namespace TinySweeper.Scan

open Text

section Redaction

variable {highEntropy : Text → Bool} {text : Text}

/-- A hint, or nothing, is no high-entropy value. -/
theorem maskEntropyAssignment_of_hidden
    (h : ∀ namePart delimiter valuePart,
      splitAssignment text = some (namePart, delimiter, valuePart) →
        '<' ∈ valuePart ∨ trim valuePart = []) :
    maskEntropyAssignment highEntropy text = none := by
  rw [maskEntropyAssignment_eq_none_iff]
  intro name value _ hassign
  by_contra hentropy
  rw [Bool.not_eq_false] at hentropy
  obtain ⟨hhidden, hlong⟩ := opaque_of_isHighEntropyValue hentropy
  obtain ⟨namePart, delimiter, lead, valuePart, hsplit, -, hvalue, -, hlead, hafter⟩ :=
    secretAssignment_parts hassign
  rcases h namePart delimiter valuePart hsplit with hangle | hblank
  · simp only [hvalue, List.mem_append] at hangle
    rcases hangle with (hpad | hbody) | hpad
    · exact absurd (hlead '<' hpad) (by decide)
    · exact absurd (hhidden '<' hbody) (by decide)
    · exact absurd (hafter '<' hpad) (by decide)
  · obtain ⟨c, hc⟩ := List.exists_mem_of_length_pos (show 0 < value.body.length by omega)
    have hpadding := opaqueChar_of_blank hblank c (by simp [hvalue, hc])
    rw [hhidden c hc] at hpadding
    cases hpadding

theorem redactLine_of_hidden (hcredential : ∀ token, Credential token → ¬ token <:+: text)
    (h : ∀ namePart delimiter valuePart,
      splitAssignment text = some (namePart, delimiter, valuePart) →
        '<' ∈ valuePart ∨ trim valuePart = []) :
    redactLine highEntropy text = text :=
  redactLine_eq_self_iff.mpr
    ⟨nextCredential_eq_none_iff.mpr hcredential, maskEntropyAssignment_of_hidden h⟩

/-- A text without a delimiter assigns nothing. -/
theorem splitAssignment_of_notMem (hequal : '=' ∉ text) (hcolon : ':' ∉ text) :
    splitAssignment text = none := by
  unfold splitAssignment
  rw [splitOnce_of_notMem hequal, splitOnce_of_notMem hcolon]

theorem splitAssignment_parts_eq {namePart valuePart namePart' valuePart' : Text}
    {delimiter delimiter' : Char}
    (h : splitAssignment text = some (namePart, delimiter, valuePart))
    (h' : splitAssignment text = some (namePart', delimiter', valuePart')) :
    namePart = namePart' ∧ delimiter = delimiter' ∧ valuePart = valuePart' := by
  rw [h] at h'
  simpa using h'

theorem redactLine_redactLine (text : Text) :
    redactLine highEntropy (redactLine highEntropy text) = redactLine highEntropy text := by
  rw [redactLine_eq_self_iff]
  constructor
  · exact nextCredential_eq_none_iff.mpr fun token htoken => not_infix_redactLine htoken
  · rw [redactLine_eq]
    cases hmask : maskEntropyAssignment highEntropy (maskRulepack text) with
    | none => exact hmask
    | some masked =>
      obtain ⟨-, name, value, hassign, -, rfl⟩ := maskEntropyAssignment_eq_some_iff.mp hmask
      obtain ⟨namePart, delimiter, lead, valuePart, hsplit, -, hvalue, hbefore, -, -⟩ :=
        secretAssignment_parts hassign
      obtain ⟨htext, hkind⟩ := splitAssignment_eq_some_iff.mp hsplit
      -- The hint brings no delimiter, so the same one splits the masked text.
      have hshown : splitAssignment (value.before ++ redact value.body ++ value.after) =
          some (namePart, delimiter, lead ++ redact value.body ++ value.after) := by
        rw [splitAssignment_eq_some_iff]
        constructor
        · simp [hbefore]
        · rcases hkind with hequal | ⟨rfl, hfirst, hnone⟩
          · exact .inl hequal
          · have hhint := notMem_redact (show '='.isDigit = false by decide) (by decide) value.body
            rw [htext, hvalue] at hnone
            simp only [List.mem_append, List.mem_cons, not_or] at hnone
            refine .inr ⟨rfl, hfirst, ?_⟩
            simp [hbefore, hhint, hnone]
      apply maskEntropyAssignment_of_hidden
      intro _ _ valuePart' hsplit'
      obtain ⟨-, -, rfl⟩ := splitAssignment_parts_eq hshown hsplit'
      simp [angle_mem_redact]

/-- A masked line shows no credential, a second pass leaves it as it is, and rounds beyond the
length of the line change nothing. -/
theorem redactLine_complete (highEntropy : Text → Bool) (text : Text) :
    nextCredential (redactLine highEntropy text) = none ∧
      redactLine highEntropy (redactLine highEntropy text) = redactLine highEntropy text ∧
      ∀ more, maskCredentials (text.length + more) text = maskCredentials text.length text := by
  refine ⟨?_, redactLine_redactLine text, fun more => ?_⟩
  · exact nextCredential_eq_none_iff.mpr fun token htoken => not_infix_redactLine htoken
  · exact maskCredentials_fuel (Nat.le_add_right _ more) le_rfl

theorem redactLine_redact (value : Text) : redactLine highEntropy (redact value) = redact value := by
  apply redactLine_of_hidden
  · intro token htoken
    exact (htoken.unspelled _).not_infix_redact
  · intro namePart delimiter valuePart hsplit
    rw [splitAssignment_of_notMem (notMem_redact (by decide) (by decide) value)
      (notMem_redact (by decide) (by decide) value)] at hsplit
    cases hsplit

end Redaction

/-- The last word of a trimmed name. -/
def lastWord (text : Text) : Text :=
  (text.rdropWhile isQuote).rtakeWhile fun c =>
    !(isWhitespace c || c = '.' || c = '"' || c = '\'')

theorem isQuote_of_isWhitespace {c : Char} (hc : isWhitespace c = true) : isQuote c = false := by
  by_contra hquote
  simp only [Bool.not_eq_false, isQuote, Bool.or_eq_true, decide_eq_true_eq] at hquote
  rcases hquote with rfl | rfl <;> revert hc <;> decide

/-- White space ends a word. -/
theorem lastWord_append {c : Char} (hc : isWhitespace c = true) (before after : Text) :
    lastWord (before ++ c :: after) = lastWord after := by
  have hquote := isQuote_of_isWhitespace hc
  have hdrop : (before ++ c :: after).rdropWhile isQuote =
      before ++ c :: after.rdropWhile isQuote := by
    unfold List.rdropWhile
    rw [List.reverse_append, List.reverse_cons, List.append_assoc, List.dropWhile_append]
    split_ifs with hempty
    · rw [List.isEmpty_iff.mp hempty]
      simp [hquote]
    · simp
  unfold lastWord
  rw [hdrop]
  simp only [List.rtakeWhile, List.reverse_append, List.reverse_cons, List.append_assoc,
    List.singleton_append]
  rw [takeWhile_append_of_sep (by simp [hc])]

/-- A word before the name of an assignment makes no other name secret. -/
theorem isSecretName_header {namePart : Text}
    (h : isSecretName (variableName ("---".toList ++ ' ' :: namePart)) = true) :
    isSecretName (variableName namePart) = true := by
  have hstart : trimStart ("---".toList ++ ' ' :: namePart) = "---".toList ++ ' ' :: namePart := by
    simp [trimStart, show isWhitespace '-' = false by decide]
  have hname : ∀ text, variableName text = trim (lastWord (trim text)) := fun _ => rfl
  by_cases hblank : trim namePart = []
  · exfalso
    have hall := trim_eq_nil_iff.mp hblank
    have htrim : trim ("---".toList ++ ' ' :: namePart) = "---".toList := by
      rw [trim, hstart]
      unfold trimEnd List.rdropWhile
      rw [List.reverse_append, List.dropWhile_append_of_pos]
      · decide
      · intro c hc
        rcases List.mem_cons.mp (List.mem_reverse.mp hc) with rfl | hc
        · decide
        · exact hall c hc
    rw [hname, htrim] at h
    revert h
    decide
  · have hparts := @List.takeWhile_append_dropWhile _ isWhitespace namePart
    obtain ⟨first, c, hfirst⟩ := List.eq_nil_or_concat' (' ' :: namePart.takeWhile isWhitespace)
      |>.resolve_left (by simp)
    have hc : isWhitespace c = true := by
      have hmem : c ∈ ' ' :: namePart.takeWhile isWhitespace := by simp [hfirst]
      rcases List.mem_cons.mp hmem with rfl | hmem
      · decide
      · exact List.mem_takeWhile_imp hmem
    have htrim : trim ("---".toList ++ ' ' :: namePart) =
        "---".toList ++ first ++ c :: trim namePart := by
      have hsplit : "---".toList ++ ' ' :: namePart =
          "---".toList ++ first ++ [c] ++ trimStart namePart := by
        conv_lhs => rw [← hparts]
        rw [← List.cons_append, hfirst]
        simp only [List.append_assoc, trimStart]
      rw [trim, hstart, hsplit, trimEnd_append hblank, List.append_assoc _ [c],
        List.singleton_append]
      rfl
    rw [hname, htrim, lastWord_append hc] at h
    exact h

section Redaction

variable {highEntropy : Text → Bool} {text : Text}

/-- A masked text stays as it is behind the mark of a file header. -/
theorem redactLine_header (h : redactLine highEntropy text = text) :
    redactLine highEntropy ("---".toList ++ ' ' :: text) = "---".toList ++ ' ' :: text := by
  rw [redactLine_eq_self_iff] at h ⊢
  obtain ⟨hcredential, hmask⟩ := h
  constructor
  · rw [nextCredential_append_of_none (by decide) (by decide), hcredential, Option.map_none]
  · rw [maskEntropyAssignment_eq_none_iff] at hmask ⊢
    intro name value hshort hassign
    obtain ⟨namePart, delimiter, valuePart, hsplit, rfl, hname, rfl, hbody⟩ :=
      secretAssignment_eq_some_iff.mp hassign
    obtain ⟨htext, hkind⟩ := splitAssignment_eq_some_iff.mp hsplit
    have hdelimiter : delimiter ∉ "--- ".toList := by
      rcases splitAssignment_delimiter hsplit with rfl | rfl <;> decide
    obtain ⟨rest, rfl⟩ : "--- ".toList <+: namePart := by
      rcases List.append_eq_append_iff.mp
        (show "--- ".toList ++ text = namePart ++ delimiter :: valuePart from htext) with
        ⟨rest, hrest, -⟩ | ⟨rest, hrest, hafter⟩
      · exact ⟨rest, hrest.symm⟩
      · cases rest with
        | nil => exact ⟨[], by simpa using hrest⟩
        | cons c rest =>
          obtain ⟨rfl, -⟩ := List.cons.inj hafter
          exact absurd (by simp [hrest]) hdelimiter
    have hrest : text = rest ++ delimiter :: valuePart := by
      apply @List.append_cancel_left _ "--- ".toList
      rw [← List.append_assoc]
      exact htext
    have hsplitRest : splitAssignment text = some (rest, delimiter, valuePart) := by
      rw [splitAssignment_eq_some_iff]
      refine ⟨hrest, ?_⟩
      rcases hkind with ⟨rfl, hfirst⟩ | ⟨rfl, hfirst, hequal⟩
      · exact .inl ⟨rfl, fun hmem => hfirst (List.mem_append_right _ hmem)⟩
      · exact .inr ⟨rfl, fun hmem => hfirst (List.mem_append_right _ hmem),
          fun hmem => hequal (by simp [hmem])⟩
    have hlength : utf8Len text ≤ MAX_HEURISTIC_LINE := by
      refine le_trans ?_ hshort
      simp [utf8Len]
      omega
    exact hmask _ ((assignedValue valuePart).under (rest ++ [delimiter])) hlength
      (secretAssignment_eq_some_iff.mpr
        ⟨rest, delimiter, valuePart, hsplitRest, rfl, isSecretName_header hname, rfl, hbody⟩)

end Redaction

/-- A text that starts like a marker, with no character that hints and assignments are
cut at. -/
structure MarkerText (marker : Text) : Prop where
  dashes : "-----".toList <+: marker
  plain : ∀ c ∈ ['<', '>', '…', '=', ':'], c ∉ marker

theorem MarkerText.dash {marker : Text} (h : MarkerText marker) : '-' ∈ marker :=
  h.dashes.subset (by decide)

theorem markerText_of_mem : ∀ marker ∈ PEM_MARKERS.map Prod.fst, MarkerText marker := by
  have hshape : ∀ marker ∈ PEM_MARKERS.map Prod.fst,
      "-----".toList <+: marker ∧ ∀ c ∈ ['<', '>', '…', '=', ':'], c ∉ marker := by decide +kernel
  intro marker hmarker
  obtain ⟨hdashes, hplain⟩ := hshape marker hmarker
  exact ⟨hdashes, hplain⟩

theorem find_marker_eq_none {text : Text} (h : isPrivateKeyBegin text = false) :
    (PEM_MARKERS.map Prod.fst).find? (contains text) = none := by
  rw [isPrivateKeyBegin_eq_isSome] at h
  simpa using h

/-- A text opens no key if it spells only markers that another one spells. -/
theorem not_isPrivateKeyBegin {text masked : Text} (h : isPrivateKeyBegin text = false)
    (hwithin : ∀ marker, MarkerText marker → marker <:+: masked → marker <:+: text) :
    isPrivateKeyBegin masked = false := by
  unfold isPrivateKeyBegin at h ⊢
  rw [List.any_eq_false] at h ⊢
  intro entry hentry hmasked
  have hmarker := markerText_of_mem entry.1 (List.mem_map_of_mem hentry)
  exact h entry hentry (contains_iff.mpr (hwithin _ hmarker (contains_iff.mp hmasked)))

theorem getElem?_of_prefix_drop {needle text : Text} {i k : ℕ} (h : needle <+: text.drop k)
    (hi : i < needle.length) : text[k + i]? = needle[i]? := by
  obtain ⟨rest, hrest⟩ := h
  rw [← List.getElem?_drop, ← hrest, List.getElem?_append_left hi]

theorem hintTail_ends (value : Text) :
    ∃ c text, hintTail value = c :: (text ++ ['>']) ∧ (c = '…' ∨ c = '<') := by
  obtain ⟨text, htext⟩ := redactedChars_ends value.length
  have hdots : "… ".toList = ['…', ' '] := by decide
  unfold hintTail
  split_ifs
  · exact ⟨'…', ' ' :: '<' :: text, by simp [hdots, htext], .inl rfl⟩
  · exact ⟨'<', text, htext, .inr rfl⟩

namespace MarkerText

variable {marker before hidden after text : Text}

/-- A hint is no part of a marker. -/
theorem infix_redact_append (h : MarkerText marker)
    (hwithin : marker <:+: before ++ redact hidden ++ after) :
    marker <:+: before ++ hidden ∨ marker <:+: after := by
  obtain ⟨c, inner, htail, hc⟩ := hintTail_ends hidden
  have hdash := dash_notMem_hintTail hidden
  have hopen : c ∉ marker := by
    rcases hc with rfl | rfl <;> exact h.plain _ (by simp)
  have hclose : '>' ∉ marker := h.plain _ (by simp)
  have hshape : before ++ redact hidden ++ after =
      before ++ keptPrefix hidden ++ c :: (inner ++ '>' :: after) := by
    simp [redact_eq, htail]
  rw [hshape, infix_append_cons_iff hopen, infix_append_cons_iff hclose] at hwithin
  rcases hwithin with hkept | hinner | hafter
  · obtain ⟨rest, hrest⟩ := keptPrefix_prefix_self hidden
    refine .inl (hkept.trans (List.IsPrefix.isInfix ⟨rest, ?_⟩))
    rw [List.append_assoc, hrest]
  · rw [htail] at hdash
    exact absurd (hinner.subset h.dash) (by simp_all)
  · exact .inr hafter

theorem infix_redact (h : MarkerText marker) (hwithin : marker <:+: redact hidden) :
    marker <:+: hidden := by
  have hshown : marker <:+: [] ++ redact hidden ++ [] := by simpa using hwithin
  rcases h.infix_redact_append hshown with hhidden | hnil
  · exact hhidden
  · exact absurd (hnil.subset h.dash) (by simp)

theorem infix_maskRulepack (h : MarkerText marker) (hwithin : marker <:+: maskRulepack text) :
    marker <:+: text := by
  unfold maskRulepack at hwithin
  generalize text.length = fuel at hwithin
  induction fuel generalizing text with
  | zero => exact hwithin
  | succ fuel ih =>
    cases hnext : nextCredential text with
    | none => rwa [maskCredentials_of_none hnext] at hwithin
    | some found =>
      obtain ⟨start, len⟩ := found
      rw [maskCredentials_succ_of_match hnext] at hwithin
      rcases h.infix_redact_append hwithin with hbefore | hafter
      · refine hbefore.trans (List.IsPrefix.isInfix ?_)
        rw [← List.take_add]
        exact List.take_prefix _ _
      · exact (ih hafter).trans (List.drop_suffix _ _).isInfix

theorem infix_redactLine {highEntropy : Text → Bool} (h : MarkerText marker)
    (hwithin : marker <:+: redactLine highEntropy text) : marker <:+: text := by
  apply h.infix_maskRulepack
  rw [redactLine_eq] at hwithin
  cases hmask : maskEntropyAssignment highEntropy (maskRulepack text) with
  | none => rwa [hmask] at hwithin
  | some masked =>
    rw [hmask, Option.getD_some] at hwithin
    obtain ⟨-, name, value, hassign, -, rfl⟩ := maskEntropyAssignment_eq_some_iff.mp hmask
    rw [← secretAssignment_text hassign, Slice.text]
    rcases h.infix_redact_append hwithin with hbefore | hafter
    · exact hbefore.trans (List.prefix_append _ _).isInfix
    · exact hafter.trans (List.suffix_append _ _).isInfix

/-- The mark of a file header has too few dashes. -/
theorem infix_header (h : MarkerText marker) (hwithin : marker <:+: "--- ".toList ++ text) :
    marker <:+: text := by
  obtain ⟨j, hj, -⟩ := exists_drop_of_infix hwithin
  rcases Nat.lt_or_ge j 4 with hnear | hfar
  · have hblank := getElem?_of_prefix_drop (h.dashes.trans hj)
      (show 3 - j < "-----".toList.length by simp; omega)
    have hdash : ∀ i < 5, "-----".toList[i]? = some '-' := by decide
    rw [hdash _ (by omega), show j + (3 - j) = 3 by omega] at hblank
    cases hblank
  · have hmark : "--- ".toList.drop j = [] := List.drop_eq_nil_of_le hfar
    rw [List.drop_append, hmark, List.nil_append] at hj
    exact hj.isInfix.trans (List.drop_suffix _ _).isInfix

theorem infix_redactPemMarkerLine {highEntropy : Text → Bool} {line kept : Text} {start : ℕ}
    (h : MarkerText marker) (hfind : find kept line = some start)
    (hwithin : marker <:+: redactPemMarkerLine highEntropy line kept) : marker <:+: line := by
  have hline := line_eq_of_find hfind
  rw [redactPemMarkerLine_eq hfind] at hwithin
  rw [hline]
  rcases h.infix_redact_append hwithin with hbefore | hafter
  · exact hbefore.trans (List.prefix_append _ _).isInfix
  · unfold pemSuffix at hafter
    refine List.IsInfix.trans ?_ (List.suffix_append _ _).isInfix
    split_ifs at hafter
    · exact hafter
    · have hopen : '<' ∉ marker := h.plain _ (by simp)
      obtain ⟨inner, hinner⟩ :=
        redactedChars_ends (trim (line.drop (start + kept.length))).length
      have hdash := dash_notMem_redactedChars (trim (line.drop (start + kept.length))).length
      rw [hinner] at hafter hdash
      rw [infix_append_cons_iff hopen] at hafter
      rcases hafter with hkept | hchars
      · exact hkept.trans (List.prefix_append _ _).isInfix
      · exact absurd (List.mem_cons_of_mem _ (hchars.subset h.dash)) hdash

end MarkerText

section Redaction

variable {highEntropy : Text → Bool} {line marker : Text} {start : ℕ}

theorem closingMarker_eq_some_iff : closingMarker line = some marker ↔
    ∃ start stop, find "-----END".toList line = some start ∧
      find "-----".toList (line.drop (start + 5)) = some stop ∧
        marker = (line.drop start).take (5 + stop + 5) := by
  simp only [closingMarker, Option.bind_eq_some_iff, Option.map_eq_some_iff]
  constructor
  · rintro ⟨start, hstart, stop, hstop, rfl⟩
    exact ⟨start, stop, hstart, hstop, rfl⟩
  · rintro ⟨start, stop, hstart, hstop, rfl⟩
    exact ⟨start, hstart, stop, hstop, rfl⟩

/-- What closes at a place is found there. -/
theorem find_closingMarker (hmarker : closingMarker line = some marker)
    (hfind : find marker line = some start) : find "-----END".toList line = some start := by
  obtain ⟨first, stop, hfirst, -, rfl⟩ := closingMarker_eq_some_iff.mp hmarker
  obtain ⟨hshown, hbound⟩ := find_eq_some hfirst
  have hle := find_le hfind (List.take_prefix _ _) hbound
  have hopens : "-----END".toList <+: (line.drop first).take (5 + stop + 5) :=
    List.prefix_take_iff.mpr ⟨hshown, by simp; omega⟩
  obtain ⟨hplace, hstart⟩ := find_eq_some hfind
  have hge := find_le hfirst (hopens.trans hplace) hstart
  rw [hfirst, le_antisymm hge hle]

theorem endMarkers_last : ∀ marker ∈ END_MARKERS, marker[marker.length - 1]? = some '-' ∧
    ∀ i < 5, marker[i]? = some '-' := by decide +kernel

/-- The marker kept of a closing line is an armour marker, unless more text follows it. -/
theorem closingMarker_mem (hend : isPrivateKeyEnd line = true)
    (hmarker : closingMarker line = some marker) (hfind : find marker line = some start)
    (hblank : trim (line.drop (start + marker.length)) = []) : marker ∈ END_MARKERS := by
  obtain ⟨full, hfull, hcontains⟩ := List.any_eq_true.mp hend
  obtain ⟨hopens, hcloses, hlong⟩ := endMarkers_shape full hfull
  obtain ⟨hlast, hdashes⟩ := endMarkers_last full hfull
  obtain ⟨j, hj, hlength⟩ := exists_drop_of_infix (contains_iff.mp hcontains)
  have hfirst := find_closingMarker hmarker hfind
  obtain ⟨first, stop, hfirst', hstop, hkept⟩ := closingMarker_eq_some_iff.mp hmarker
  obtain rfl : first = start := Option.some.inj (hfirst'.symm.trans hfirst)
  have hkeptLength : marker.length ≤ stop + 10 := by
    rw [hkept, List.length_take]
    omega
  have hle := find_le hfirst (hopens.trans hj) (by omega)
  -- What follows the kept marker is blank, so the armour marker ends inside it.
  have hinside : j + full.length ≤ first + marker.length := by
    by_contra houtside
    have hdash : (line)[j + (full.length - 1)]? = some '-' :=
      (getElem?_of_prefix_drop hj (by omega)).trans hlast
    have hmem : '-' ∈ line.drop (first + marker.length) := by
      apply List.mem_of_getElem?
      rw [List.getElem?_drop]
      rwa [show first + marker.length + (j + (full.length - 1) - (first + marker.length)) =
        j + (full.length - 1) by omega]
    exact absurd (trim_eq_nil_iff.mp hblank '-' hmem) (by decide)
  have hsame : j = first := by
    by_contra hne
    rcases Nat.lt_or_ge j (first + 5) with hnear | hfar
    · -- Its dashes would stand where the kept marker has a letter.
      have hletter : (line)[first + 5]? = some 'E' :=
        getElem?_of_prefix_drop (find_eq_some hfirst).1 (by decide)
      have hdash := getElem?_of_prefix_drop hj (show first + 5 - j < full.length by omega)
      rw [hdashes _ (by omega), show j + (first + 5 - j) = first + 5 by omega, hletter] at hdash
      cases hdash
    · have hopening : "-----".toList <+: (line.drop (first + 5)).drop (j - (first + 5)) := by
        rw [List.drop_drop, show first + 5 + (j - (first + 5)) = j by omega]
        have hfive : "-----".toList <+: "-----END".toList := by decide
        exact (hfive.trans hopens).trans hj
      have := find_le hstop hopening (by rw [List.length_drop]; omega)
      omega
  subst hsame
  have hclosing : "-----".toList <+: (line.drop (j + 5)).drop (full.length - 10) := by
    rw [List.drop_drop, show j + 5 + (full.length - 10) = j + (full.length - 5) by omega,
      ← List.drop_drop]
    exact hcloses.trans (hj.drop _)
  have := find_le hstop hclosing (by rw [List.length_drop]; omega)
  have hkeptAt : marker <+: line.drop j := hkept ▸ List.take_prefix _ _
  have hequal : full = marker :=
    (List.prefix_of_prefix_length_le hj hkeptAt (by omega)).eq_of_length_le (by omega)
  exact hequal ▸ hfull

/-- A separator stands in the left part of a text, or after all of it. -/
theorem append_eq_append_cons {left right before after : Text} {sep : Char}
    (h : left ++ right = before ++ sep :: after) :
    (∃ rest, after = rest ++ right) ∨ left <+: before ∧ sep ∈ right := by
  rcases List.append_eq_append_iff.mp h with ⟨rest, rfl, hright⟩ | ⟨rest, hleft, hright⟩
  · exact .inr ⟨List.prefix_append _ _, by simp [hright]⟩
  · cases rest with
    | nil =>
      rw [List.append_nil] at hleft
      rw [List.nil_append] at hright
      exact .inr ⟨hleft ▸ List.prefix_rfl, hright ▸ List.mem_cons_self⟩
    | cons c rest =>
      obtain ⟨-, rfl⟩ := List.cons.inj hright
      exact .inl ⟨rest, rfl⟩

theorem equal_mem_pemName {before : Text} (h : '=' ∈ before) : '=' ∈ pemName before := by
  have hhidden : '=' ∉ pemHidden before := by
    unfold pemHidden
    rw [if_pos h, List.rtakeWhile, List.mem_reverse]
    intro hmem
    have := List.mem_takeWhile_imp hmem
    simp at this
  rw [← pemName_append_pemHidden before] at h
  exact (List.mem_append.mp h).resolve_right hhidden

theorem endMarkers_plain : ∀ marker ∈ END_MARKERS, '=' ∉ marker ∧ ':' ∉ marker := by
  decide +kernel

/-- A closing line without a credential is masked once and for all. -/
theorem redactLine_redactPemMarkerLine (hend : isPrivateKeyEnd line = true)
    (hmarker : closingMarker line = some marker) (hfind : find marker line = some start)
    (hplain : nextCredential line = none) :
    redactLine highEntropy (redactPemMarkerLine highEntropy line marker) =
      redactPemMarkerLine highEntropy line marker := by
  apply redactLine_of_hidden
  · intro token htoken hwithin
    have hparts := (find_eq_some hfind).1.isInfix
    rw [infix_redactPemMarkerLine_iff hfind fun n _ => htoken.unspelled n] at hwithin
    apply nextCredential_eq_none_iff.mp hplain token htoken
    rcases hwithin with hname | hkept
    · obtain ⟨rest, hrest⟩ := keptPrefix_prefix_self (pemHidden (line.take start))
      have hbefore : pemName (line.take start) ++ keptPrefix (pemHidden (line.take start)) <+:
          line.take start := by
        refine ⟨rest, ?_⟩
        rw [List.append_assoc, hrest, pemName_append_pemHidden]
      exact (hname.trans hbefore.isInfix).trans (List.take_prefix _ _).isInfix
    · exact (hkept.trans hparts).trans (List.drop_suffix _ _).isInfix
  · intro namePart delimiter valuePart hsplit
    rw [redactPemMarkerLine_eq hfind] at hsplit
    obtain ⟨htext, hkind⟩ := splitAssignment_eq_some_iff.mp hsplit
    have hhint := angle_mem_redact (pemHidden (line.take start))
    by_cases hequal : '=' ∈ line.take start
    · -- The name ends in the delimiter, and the hint follows.
      have hname := equal_mem_pemName hequal
      rw [List.append_assoc] at htext
      rcases append_eq_append_cons htext with ⟨rest, rfl⟩ | ⟨hopens, -⟩
      · exact .inl (by simp [hhint])
      · rcases hkind with ⟨-, hfirst⟩ | ⟨-, -, hnone⟩
        · exact absurd (hopens.subset hname) hfirst
        · exact absurd (by simp [hname]) hnone
    · have hnone : pemName (line.take start) = [] := if_neg hequal
      have hdelimiter := splitAssignment_delimiter hsplit
      obtain ⟨hdigit, hforeign⟩ : delimiter.isDigit = false ∧ delimiter ∉ hintChars := by
        rcases hdelimiter with rfl | rfl <;> decide
      have hclear := notMem_redact hdigit hforeign
      unfold pemSuffix at htext
      split_ifs at htext with hblank
      · -- Nothing follows the armour marker, so there is no delimiter.
        have hmem := closingMarker_mem hend hmarker hfind (List.isEmpty_iff.mp hblank)
        have hsuffix := trim_eq_nil_iff.mp (List.isEmpty_iff.mp hblank) delimiter
        have hin : delimiter ∈ namePart ++ delimiter :: valuePart := by simp
        rw [← htext, hnone] at hin
        simp only [List.nil_append, List.mem_append, hclear, false_or] at hin
        exfalso
        rcases hin with hin | hin
        · rcases hdelimiter with rfl | rfl
          · exact (endMarkers_plain marker hmem).1 hin
          · exact (endMarkers_plain marker hmem).2 hin
        · have hspace := hsuffix hin
          rcases hdelimiter with rfl | rfl <;> revert hspace <;> decide
      · obtain ⟨inner, hinner⟩ :=
          redactedChars_ends (trim (line.drop (start + marker.length))).length
        rw [← List.append_assoc] at htext
        rcases append_eq_append_cons htext with ⟨rest, rfl⟩ | ⟨-, hin⟩
        · exact .inl (by simp [hinner])
        · exact absurd hin (notMem_redactedChars hdigit hforeign _)

end Redaction

end TinySweeper.Scan
