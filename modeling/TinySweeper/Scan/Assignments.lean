import TinySweeper.Scan.Rulepack

/-!
# Secret-looking assignments

The assigned value is the text after the delimiter less its padding. Masking a
line changes it exactly if the line shows a credential, or is a high-entropy
assignment once its credentials are hidden.
-/

namespace TinySweeper.Scan

open Text

/-- The last word of what stands before the delimiter. -/
def variableName (namePart : Text) : Text :=
  trim ((((trim namePart).rdropWhile isQuote)).rtakeWhile fun c =>
    !(isWhitespace c || c = '.' || c = '"' || c = '\''))

def isSecretName (name : Text) : Bool := SECRET_NAMES.any (contains (toAsciiLowercase name))

/-- What may stand around a value without belonging to it. -/
def isPadding (c : Char) : Bool :=
  isWhitespace c || c = ',' || c = ';' || c = '"' || c = '\'' || c = '\x60'

/-- The value as a slice of what stands after the delimiter. -/
def assignedValue (valuePart : Text) : Slice :=
  (((((Slice.mk [] valuePart []).trimMatches isWhitespace).trimEndMatches
    (fun c => c = ',' || c = ';')).trimMatches isWhitespace).trimMatches
      (fun c => c = '"' || c = '\'' || c = '\x60')).trimMatches isWhitespace

namespace Slice

/-- The slice in a text with more before it. -/
def under (before : Text) (s : Slice) : Slice := ⟨before ++ s.before, s.body, s.after⟩

theorem under_trimStartMatches (before : Text) (s : Slice) (p : Char → Bool) :
    (s.under before).trimStartMatches p = (s.trimStartMatches p).under before := by
  simp [under, trimStartMatches]

theorem under_trimEndMatches (before : Text) (s : Slice) (p : Char → Bool) :
    (s.under before).trimEndMatches p = (s.trimEndMatches p).under before := rfl

theorem under_trimMatches (before : Text) (s : Slice) (p : Char → Bool) :
    (s.under before).trimMatches p = (s.trimMatches p).under before := by
  rw [trimMatches, under_trimStartMatches, under_trimEndMatches, trimMatches]

/-- Only padding has been taken off. -/
structure Padded (s : Slice) : Prop where
  before : ∀ c ∈ s.before, isPadding c = true
  after : ∀ c ∈ s.after, isPadding c = true

theorem Padded.trimStartMatches {s : Slice} {p : Char → Bool} (h : s.Padded)
    (hp : ∀ c, p c = true → isPadding c = true) : (s.trimStartMatches p).Padded := by
  refine ⟨?_, h.after⟩
  intro c hc
  rcases List.mem_append.mp hc with hc | hc
  · exact h.before c hc
  · exact hp c (List.mem_takeWhile_imp hc)

theorem Padded.trimEndMatches {s : Slice} {p : Char → Bool} (h : s.Padded)
    (hp : ∀ c, p c = true → isPadding c = true) : (s.trimEndMatches p).Padded := by
  refine ⟨h.before, ?_⟩
  intro c hc
  rcases List.mem_append.mp hc with hc | hc
  · rw [List.rtakeWhile, List.mem_reverse] at hc
    exact hp c (List.mem_takeWhile_imp hc)
  · exact h.after c hc

theorem Padded.trimMatches {s : Slice} {p : Char → Bool} (h : s.Padded)
    (hp : ∀ c, p c = true → isPadding c = true) : (s.trimMatches p).Padded :=
  (h.trimStartMatches hp).trimEndMatches hp

end Slice

theorem assignedValue_text (valuePart : Text) : (assignedValue valuePart).text = valuePart := by
  unfold assignedValue
  simp only [Slice.text_trimMatches, Slice.text_trimEndMatches]
  simp [Slice.text]

theorem assignedValue_padded (valuePart : Text) : (assignedValue valuePart).Padded := by
  have hnone : (Slice.mk [] valuePart []).Padded := ⟨by simp, by simp⟩
  have hblank : ∀ c, isWhitespace c = true → isPadding c = true := by
    intro c hc
    simp [isPadding, hc]
  have hend : ∀ c : Char, (decide (c = ',') || decide (c = ';')) = true → isPadding c = true := by
    intro c hc
    simp only [Bool.or_eq_true, decide_eq_true_eq] at hc
    rcases hc with rfl | rfl <;> decide
  have hquote : ∀ c : Char,
      (decide (c = '"') || decide (c = '\'') || decide (c = '\x60')) = true →
        isPadding c = true := by
    intro c hc
    simp only [Bool.or_eq_true, decide_eq_true_eq] at hc
    rcases hc with (rfl | rfl) | rfl <;> decide
  unfold assignedValue
  exact ((((hnone.trimMatches hblank).trimEndMatches hend).trimMatches hblank).trimMatches
    hquote).trimMatches hblank

/-- An assignment is split, its name tested, and its value trimmed. -/
theorem secretAssignment_eq_some_iff {text name : Text} {value : Slice} :
    secretAssignment text = some (name, value) ↔
      ∃ namePart delimiter valuePart,
        splitAssignment text = some (namePart, delimiter, valuePart) ∧
          name = variableName namePart ∧ isSecretName name = true ∧
          value = (assignedValue valuePart).under (namePart ++ [delimiter]) ∧ value.body ≠ [] := by
  unfold secretAssignment
  cases hsplit : splitAssignment text with
  | none => simp
  | some parts =>
    obtain ⟨namePart, delimiter, valuePart⟩ := parts
    dsimp only
    have hvalue : (((((Slice.mk (namePart ++ [delimiter]) valuePart []).trimMatches
        isWhitespace).trimEndMatches (fun c => c = ',' || c = ';')).trimMatches
        isWhitespace).trimMatches (fun c => c = '"' || c = '\'' || c = '\x60')).trimMatches
        isWhitespace = (assignedValue valuePart).under (namePart ++ [delimiter]) := by
      have hslice : Slice.mk (namePart ++ [delimiter]) valuePart [] =
          (Slice.mk [] valuePart []).under (namePart ++ [delimiter]) := by
        simp [Slice.under]
      unfold assignedValue
      rw [hslice, Slice.under_trimMatches, Slice.under_trimEndMatches, Slice.under_trimMatches,
        Slice.under_trimMatches, Slice.under_trimMatches]
    rw [hvalue]
    constructor
    · intro h
      split_ifs at h with hname hempty
      obtain ⟨rfl, rfl⟩ := Prod.mk.inj (Option.some.inj h)
      exact ⟨namePart, delimiter, valuePart, rfl, rfl, hname, rfl, by simpa using hempty⟩
    · rintro ⟨namePart', delimiter', valuePart', hparts, rfl, hname, rfl, hbody⟩
      obtain ⟨rfl, rfl, rfl⟩ : namePart = namePart' ∧ delimiter = delimiter' ∧
          valuePart = valuePart' := by simpa using hparts
      have hbody' : ¬ ((assignedValue valuePart).under
          (namePart ++ [delimiter])).body.isEmpty = true := by simpa using hbody
      exact (if_pos hname).trans (if_neg hbody')

theorem splitAssignment_delimiter {text namePart valuePart : Text} {delimiter : Char}
    (h : splitAssignment text = some (namePart, delimiter, valuePart)) :
    delimiter = '=' ∨ delimiter = ':' := by
  unfold splitAssignment at h
  split at h
  · obtain ⟨-, rfl, -⟩ : _ ∧ _ ∧ _ := by simpa using h
    exact .inl rfl
  · split at h
    · obtain ⟨-, rfl, -⟩ : _ ∧ _ ∧ _ := by simpa using h
      exact .inr rfl
    · cases h

theorem splitAssignment_eq_some_iff {text namePart valuePart : Text} {delimiter : Char} :
    splitAssignment text = some (namePart, delimiter, valuePart) ↔
      text = namePart ++ delimiter :: valuePart ∧
        (delimiter = '=' ∧ '=' ∉ namePart ∨
          delimiter = ':' ∧ ':' ∉ namePart ∧ '=' ∉ text) := by
  constructor
  · intro h
    refine ⟨splitAssignment_text h, ?_⟩
    unfold splitAssignment at h
    cases hequal : splitOnce '=' text with
    | some parts =>
      obtain ⟨-, hfirst⟩ := splitOnce_eq_some_iff.mp hequal
      simp only [hequal, Option.some.injEq, Prod.mk.injEq] at h
      obtain ⟨rfl, rfl, rfl⟩ := h
      exact .inl ⟨rfl, hfirst⟩
    | none =>
      cases hcolon : splitOnce ':' text with
      | none => simp [hequal, hcolon] at h
      | some parts =>
        obtain ⟨-, hfirst⟩ := splitOnce_eq_some_iff.mp hcolon
        simp only [hequal, hcolon, Option.some.injEq, Prod.mk.injEq] at h
        obtain ⟨rfl, rfl, rfl⟩ := h
        exact .inr ⟨rfl, hfirst, splitOnce_eq_none_iff.mp hequal⟩
  · rintro ⟨htext, ⟨rfl, hfirst⟩ | ⟨rfl, hfirst, hequal⟩⟩
    · unfold splitAssignment
      rw [htext, splitOnce_append hfirst]
    · unfold splitAssignment
      rw [splitOnce_of_notMem hequal, htext, splitOnce_append hfirst]

/-- The parts of a secret assignment: its name part, its delimiter, and padding around
the value. -/
theorem secretAssignment_parts {text name : Text} {value : Slice}
    (h : secretAssignment text = some (name, value)) :
    ∃ namePart delimiter lead valuePart,
      splitAssignment text = some (namePart, delimiter, valuePart) ∧
        assignedValue valuePart = ⟨lead, value.body, value.after⟩ ∧
        valuePart = lead ++ value.body ++ value.after ∧
        value.before = namePart ++ delimiter :: lead ∧
        (∀ c ∈ lead, isPadding c = true) ∧ ∀ c ∈ value.after, isPadding c = true := by
  obtain ⟨namePart, delimiter, valuePart, hsplit, -, -, rfl, -⟩ :=
    secretAssignment_eq_some_iff.mp h
  have hpadded := assignedValue_padded valuePart
  have htext := assignedValue_text valuePart
  cases hslice : assignedValue valuePart with
  | mk lead body after =>
    rw [hslice] at hpadded htext
    refine ⟨namePart, delimiter, lead, valuePart, hsplit, hslice, htext.symm, ?_,
      hpadded.before, hpadded.after⟩
    simp only [Slice.under, List.append_assoc, List.cons_append, List.nil_append]

theorem toNat_of_isOpaqueChar {c : Char} (hc : isOpaqueChar c = true) :
    33 ≤ c.toNat ∧ c.toNat ≤ 122 := by
  simp only [isOpaqueChar, Bool.or_eq_true, decide_eq_true_eq] at hc
  rcases hc with (((((halphanum | rfl) | rfl) | rfl) | rfl) | rfl) | rfl
  · have hrange := isAlphanum_range halphanum
    omega
  all_goals decide

theorem isWhitespace_of_isOpaqueChar {c : Char} (hc : isOpaqueChar c = true) :
    isWhitespace c = false :=
  isWhitespace_of_range (toNat_of_isOpaqueChar hc).1 (toNat_of_isOpaqueChar hc).2

theorem opaqueChar_of_blank {text : Text} (h : trim text = []) :
    ∀ c ∈ text, isOpaqueChar c = false := by
  rw [trim_eq_nil_iff] at h
  intro c hc
  by_contra hhidden
  rw [Bool.not_eq_false] at hhidden
  have := isWhitespace_of_isOpaqueChar hhidden
  rw [h c hc] at this
  cases this

theorem isOpaqueToken_iff {value : Text} :
    isOpaqueToken value = true ↔ value ≠ [] ∧ ∀ c ∈ value, isOpaqueChar c = true := by
  unfold isOpaqueToken
  rw [Bool.and_eq_true, Bool.and_eq_true, List.all_eq_true]
  constructor
  · rintro ⟨⟨hne, -⟩, hall⟩
    exact ⟨by simpa using hne, hall⟩
  · rintro ⟨hne, hall⟩
    refine ⟨⟨by simpa using hne, ?_⟩, hall⟩
    rw [Bool.not_eq_true', List.any_eq_false]
    intro c hc
    simp [isWhitespace_of_isOpaqueChar (hall c hc)]

theorem utf8Len_of_isOpaqueChar {value : Text} (h : ∀ c ∈ value, isOpaqueChar c = true) :
    utf8Len value = value.length := by
  have hone : value.map Char.utf8Size = List.replicate value.length 1 := by
    rw [List.eq_replicate_iff]
    constructor
    · exact List.length_map _
    · intro n hn
      obtain ⟨c, hc, rfl⟩ := List.mem_map.mp hn
      have hrange := (toNat_of_isOpaqueChar (h c hc)).2
      rw [Char.utf8Size_eq_one_iff, UInt32.le_iff_toNat_le]
      exact hrange.trans (by decide)
  unfold utf8Len
  rw [hone, List.sum_replicate, smul_eq_mul, mul_one]

theorem length_le_utf8Len (text : Text) : text.length ≤ utf8Len text := by
  unfold utf8Len
  induction text with
  | nil => rfl
  | cons c text ih =>
    have := Char.utf8Size_pos c
    rw [List.map_cons, List.sum_cons, List.length_cons]
    omega

theorem isOpaqueChar_of_isPadding {c : Char} (hc : isPadding c = true) :
    isOpaqueChar c = false := by
  by_contra hhidden
  rw [Bool.not_eq_false] at hhidden
  have hvisible := isWhitespace_of_isOpaqueChar hhidden
  simp only [isPadding, hvisible, Bool.false_or, Bool.or_eq_true, decide_eq_true_eq] at hc
  rcases hc with (((rfl | rfl) | rfl) | rfl) | rfl <;> revert hhidden <;> decide

theorem isTokenChar_of_isPadding {c : Char} (hc : isPadding c = true) :
    isTokenChar c = false := by
  by_contra htoken
  rw [Bool.not_eq_false] at htoken
  have hhidden := isOpaqueChar_of_isTokenChar htoken
  rw [isOpaqueChar_of_isPadding hc] at hhidden
  cases hhidden

/-- The rulepack pass leaves the delimiter and, if it shows no credential, the value. -/
theorem secretAssignment_maskRulepack {text name : Text} {value : Slice}
    (h : secretAssignment text = some (name, value)) (hbody : nextCredential value.body = none) :
    maskRulepack text = maskRulepack value.before ++ value.body ++ value.after ∧
      ∀ name' value', secretAssignment (maskRulepack text) = some (name', value') →
        value' = ⟨maskRulepack value.before, value.body, value.after⟩ := by
  obtain ⟨namePart, delimiter, lead, valuePart, hsplit, hassigned, hvalue, hbefore, hlead,
    hafter⟩ := secretAssignment_parts h
  have hdelimiter : isTokenChar delimiter = false := by
    rcases splitAssignment_delimiter hsplit with rfl | rfl <;> rfl
  have hleadToken : ∀ c ∈ lead, isTokenChar c = false :=
    fun c hc => isTokenChar_of_isPadding (hlead c hc)
  have hafterToken : ∀ c ∈ value.after, isTokenChar c = false :=
    fun c hc => isTokenChar_of_isPadding (hafter c hc)
  obtain ⟨htext, hkind⟩ := splitAssignment_eq_some_iff.mp hsplit
  have hvaluePart := @maskRulepack_between lead value.after value.body hleadToken hafterToken
  rw [maskRulepack_of_none hbody, ← hvalue] at hvaluePart
  have hout : maskRulepack text =
      maskRulepack namePart ++ delimiter :: valuePart := by
    rw [htext, maskRulepack_append hdelimiter, hvaluePart]
  have hname : maskRulepack value.before = maskRulepack namePart ++ delimiter :: lead := by
    have hpad := @maskRulepack_between lead [] [] hleadToken (by simp)
    have hnil : maskRulepack [] = [] := rfl
    simp only [List.append_nil, hnil] at hpad
    rw [hbefore, maskRulepack_append hdelimiter, hpad]
  refine ⟨by simp [hout, hname, hvalue], ?_⟩
  intro name' value' hmasked
  obtain ⟨namePart', delimiter', valuePart', hsplit', -, -, rfl, -⟩ :=
    secretAssignment_eq_some_iff.mp hmasked
  -- The pass neither adds nor takes away a delimiter.
  have hsplitOut : splitAssignment (maskRulepack text) =
      some (maskRulepack namePart, delimiter, valuePart) := by
    rw [splitAssignment_eq_some_iff]
    refine ⟨hout, ?_⟩
    rcases hkind with ⟨rfl, hfirst⟩ | ⟨rfl, hfirst, hequal⟩
    · exact .inl ⟨rfl, notMem_maskRulepack (by decide) (by decide) hfirst⟩
    · exact .inr ⟨rfl, notMem_maskRulepack (by decide) (by decide) hfirst,
        notMem_maskRulepack (by decide) (by decide) hequal⟩
  rw [hsplitOut, Option.some.injEq, Prod.mk.injEq, Prod.mk.injEq] at hsplit'
  obtain ⟨rfl, rfl, rfl⟩ := hsplit'
  rw [hassigned, hname]
  simp [Slice.under]

section Redaction

variable {highEntropy : Text → Bool} {text : Text}

theorem opaque_of_isHighEntropyValue {value : Text}
    (h : isHighEntropyValue highEntropy value = true) :
    (∀ c ∈ value, isOpaqueChar c = true) ∧ 20 ≤ value.length := by
  unfold isHighEntropyValue at h
  simp only [Bool.and_eq_true, decide_eq_true_eq] at h
  obtain ⟨⟨⟨-, htoken⟩, hlong⟩, -⟩ := h
  have hchars := (isOpaqueToken_iff.mp htoken).2
  refine ⟨hchars, ?_⟩
  rw [utf8Len_of_isOpaqueChar hchars] at hlong
  exact hlong

/-- No hint for fewer than that many characters spells a high-entropy value. -/
theorem unspelled_of_isHighEntropyValue {value : Text} {length : ℕ}
    (h : isHighEntropyValue highEntropy value = true) (hlength : length < 10 ^ 19) :
    Unspelled value length := by
  obtain ⟨hchars, hlong⟩ := opaque_of_isHighEntropyValue h
  refine ⟨hchars, by omega, ?_⟩
  intro hwithin
  have := hwithin.length_le
  have := length_decimal_le (by decide) hlength
  omega

theorem maskEntropyAssignment_eq_some_iff {masked : Text} :
    maskEntropyAssignment highEntropy text = some masked ↔
      utf8Len text ≤ MAX_HEURISTIC_LINE ∧ ∃ name value,
        secretAssignment text = some (name, value) ∧
          isHighEntropyValue highEntropy value.body = true ∧
          masked = value.before ++ redact value.body ++ value.after := by
  unfold maskEntropyAssignment
  constructor
  · intro h
    split_ifs at h with hlong
    split at h
    · cases h
    · rename_i name value hassign
      split_ifs at h with hentropy
      exact ⟨not_lt.mp hlong, name, value, hassign, hentropy, (Option.some.inj h).symm⟩
  · rintro ⟨hshort, name, value, hassign, hentropy, rfl⟩
    rw [if_neg (not_lt.mpr hshort), hassign]
    exact if_pos hentropy

theorem maskEntropyAssignment_eq_none_iff :
    maskEntropyAssignment highEntropy text = none ↔
      ∀ name value, utf8Len text ≤ MAX_HEURISTIC_LINE →
        secretAssignment text = some (name, value) →
          isHighEntropyValue highEntropy value.body = false := by
  constructor
  · intro hnone name value hshort hassign
    by_contra hentropy
    rw [Bool.not_eq_false] at hentropy
    have hsome := maskEntropyAssignment_eq_some_iff.mpr
      ⟨hshort, name, value, hassign, hentropy, rfl⟩
    rw [hnone] at hsome
    cases hsome
  · intro h
    by_contra hsome
    obtain ⟨masked, hmasked⟩ := Option.ne_none_iff_exists'.mp hsome
    obtain ⟨hshort, name, value, hassign, hentropy, -⟩ :=
      maskEntropyAssignment_eq_some_iff.mp hmasked
    rw [h name value hshort hassign] at hentropy
    cases hentropy

theorem redactLine_eq (text : Text) : redactLine highEntropy text =
    (maskEntropyAssignment highEntropy (maskRulepack text)).getD (maskRulepack text) := rfl

/-- Masking leaves no credential anywhere on the line. -/
theorem not_infix_redactLine {token : Text} (htoken : Credential token) :
    ¬ token <:+: redactLine highEntropy text := by
  have hout := not_infix_maskRulepack htoken text
  rw [redactLine_eq]
  cases hmask : maskEntropyAssignment highEntropy (maskRulepack text) with
  | none => exact hout
  | some masked =>
    obtain ⟨-, name, value, hassign, -, rfl⟩ := maskEntropyAssignment_eq_some_iff.mp hmask
    have hvalue := secretAssignment_text hassign
    rw [Option.getD_some, (htoken.unspelled _).infix_redact_append]
    rintro (hwithin | hwithin)
    · apply hout
      rw [← hvalue]
      obtain ⟨rest, hrest⟩ := keptPrefix_prefix_self value.body
      refine hwithin.trans (List.IsPrefix.isInfix ⟨rest ++ value.after, ?_⟩)
      rw [Slice.text, List.append_assoc, ← List.append_assoc (keptPrefix value.body), hrest,
        ← List.append_assoc]
    · apply hout
      rw [← hvalue]
      exact hwithin.trans (List.suffix_append _ _).isInfix

theorem angle_mem_redact (value : Text) : '<' ∈ redact value := by
  obtain ⟨text, htext⟩ : ∃ text, redactedChars value.length = '<' :: text := ⟨_, rfl⟩
  unfold redact
  split
  · rw [htext]
    simp
  · rw [htext]
    simp

theorem redact_ne_of_isHighEntropyValue {value : Text}
    (h : isHighEntropyValue highEntropy value = true) : redact value ≠ value := by
  intro hsame
  have hangle := angle_mem_redact value
  rw [hsame] at hangle
  have hhidden := (opaque_of_isHighEntropyValue h).1 '<' hangle
  revert hhidden
  decide

/-- Masking changes a line exactly if it shows a credential or a high-entropy value. -/
theorem redactLine_eq_self_iff :
    redactLine highEntropy text = text ↔
      nextCredential text = none ∧ maskEntropyAssignment highEntropy text = none := by
  constructor
  · intro h
    have hnone : nextCredential text = none := by
      rw [nextCredential_eq_none_iff]
      intro token htoken
      rw [← h]
      exact not_infix_redactLine htoken
    refine ⟨hnone, ?_⟩
    by_contra hsome
    obtain ⟨masked, hmasked⟩ := Option.ne_none_iff_exists'.mp hsome
    obtain ⟨-, name, value, hassign, hentropy, rfl⟩ :=
      maskEntropyAssignment_eq_some_iff.mp hmasked
    rw [redactLine_eq, maskRulepack, maskCredentials_of_none hnone, hmasked,
      Option.getD_some] at h
    apply redact_ne_of_isHighEntropyValue hentropy
    rw [← secretAssignment_text hassign, Slice.text] at h
    exact List.append_cancel_left (List.append_cancel_right h)
  · rintro ⟨hnone, hmask⟩
    rw [redactLine_eq, maskRulepack, maskCredentials_of_none hnone, hmask, Option.getD_none]

end Redaction

end TinySweeper.Scan
