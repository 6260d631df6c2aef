import TinySweeper.Scan.Secrets

/-!
# What the rulepack pass removes

A hint keeps at most a vendor prefix of the value it stands for. The rulepack
pass leaves no credential anywhere on a line, and masking an assigned value
afterwards brings none back.
-/

namespace TinySweeper.Scan

open Text

variable {token text : Text} {start len j fuel : ℕ}

def isOpaqueChar (c : Char) : Bool :=
  c.isAlphanum || c = '+' || c = '/' || c = '=' || c = '_' || c = '-' || c = '.'

/-- The vendor prefix a hint keeps. -/
def keptPrefix (value : Text) : Text :=
  (SAFE_PREFIXES.find? (·.isPrefixOf value)).getD []

/-- The part of a hint that depends on the length of the value only. -/
def hintTail (value : Text) : Text :=
  if (SAFE_PREFIXES.find? (·.isPrefixOf value)).isSome then
    "… ".toList ++ redactedChars value.length
  else redactedChars value.length

theorem redact_eq (value : Text) : redact value = keptPrefix value ++ hintTail value := by
  unfold redact keptPrefix hintTail
  cases SAFE_PREFIXES.find? (·.isPrefixOf value) <;> simp

theorem keptPrefix_prefix_self (value : Text) : keptPrefix value <+: value := by
  unfold keptPrefix
  cases hfind : SAFE_PREFIXES.find? (·.isPrefixOf value) with
  | none => exact List.nil_prefix
  | some vendorPrefix =>
    have hstarts := List.find?_some hfind
    exact List.isPrefixOf_iff_prefix.mp hstarts

theorem length_safePrefix_le : ∀ known ∈ SAFE_PREFIXES, known.length ≤ 11 := by decide

theorem length_keptPrefix_le (value : Text) : (keptPrefix value).length ≤ 11 := by
  unfold keptPrefix
  cases hfind : SAFE_PREFIXES.find? (·.isPrefixOf value) with
  | none => exact Nat.zero_le _
  | some vendorPrefix => exact length_safePrefix_le _ (List.mem_of_find?_eq_some hfind)

theorem length_decimal_le {n k : ℕ} (hk : 0 < k) (hn : n < 10 ^ k) : (decimal n).length ≤ k :=
  (Nat.length_toDigits_le_iff (by decide) hk).mpr hn

theorem length_redactedChars (n : ℕ) : (redactedChars n).length = 18 + (decimal n).length := by
  have hopen : "<redacted, ".toList.length = 11 := by decide
  have hclose : " chars>".toList.length = 7 := by decide
  unfold redactedChars
  rw [List.length_append, List.length_append, hopen, hclose]
  omega

theorem length_redact_le (value : Text) :
    (redact value).length ≤ 31 + (decimal value.length).length := by
  have hkept := length_keptPrefix_le value
  have hdots : "… ".toList.length = 2 := by decide
  rw [redact_eq, List.length_append]
  unfold hintTail
  split_ifs
  · rw [List.length_append, hdots, length_redactedChars]
    omega
  · rw [length_redactedChars]
    omega

/-- A value that no hint for this many characters spells. -/
structure Unspelled (value : Text) (length : ℕ) : Prop where
  opaqueChar : ∀ c ∈ value, isOpaqueChar c = true
  long : 11 < value.length
  notDecimal : ¬ value <:+: decimal length

namespace Unspelled

variable {value before after : Text} {length : ℕ}

theorem notMem (h : Unspelled value length) {c : Char} (hc : isOpaqueChar c = false) :
    c ∉ value := by
  intro hmem
  rw [h.opaqueChar c hmem] at hc
  cases hc

theorem not_infix_short (h : Unspelled value length) {text : Text}
    (htext : longestRun isOpaqueChar text ≤ 11) : ¬ value <:+: text := by
  intro hwithin
  have := length_le_longestRun h.opaqueChar hwithin
  have := h.long
  omega

theorem infix_redactedChars_append (h : Unspelled value length) :
    value <:+: before ++ redactedChars length ++ after ↔ value <:+: before ∨ value <:+: after := by
  have hshape : before ++ redactedChars length ++ after =
      before ++ '<' :: ("redacted".toList ++ ',' :: ([] ++ ' ' :: (decimal length ++ ' ' ::
        ("chars".toList ++ '>' :: after)))) := by
    have hleft : "<redacted, ".toList = '<' :: ("redacted".toList ++ [',', ' ']) := by decide
    have hright : " chars>".toList = ' ' :: ("chars".toList ++ ['>']) := by decide
    unfold redactedChars
    rw [hleft, hright]
    simp only [List.append_assoc, List.cons_append, List.nil_append]
  have hopen : '<' ∉ value := h.notMem (by decide)
  have hcomma : ',' ∉ value := h.notMem (by decide)
  have hblank : ' ' ∉ value := h.notMem (by decide)
  have hclose : '>' ∉ value := h.notMem (by decide)
  rw [hshape, infix_append_cons_iff hopen, infix_append_cons_iff hcomma,
    infix_append_cons_iff hblank, infix_append_cons_iff hblank, infix_append_cons_iff hclose]
  have hword : ¬ value <:+: "redacted".toList := h.not_infix_short (by decide)
  have hunit : ¬ value <:+: "chars".toList := h.not_infix_short (by decide)
  have hnil : ¬ value <:+: ([] : Text) := h.not_infix_short (by decide)
  simp only [hword, hunit, hnil, h.notDecimal, false_or]

theorem infix_append_padding (h : Unspelled value length)
    (hafter : ∀ c ∈ after, isOpaqueChar c = false) :
    value <:+: before ++ after ↔ value <:+: before := by
  cases after with
  | nil => rw [List.append_nil]
  | cons c after =>
    have hsep : c ∉ value := h.notMem (hafter c List.mem_cons_self)
    rw [infix_append_cons_iff hsep]
    constructor
    · rintro (hbefore | hwithin)
      · exact hbefore
      · obtain ⟨d, hd⟩ := List.exists_mem_of_length_pos (show 0 < value.length by
          have := h.long
          omega)
        have hnone := hafter d (List.mem_cons_of_mem c (hwithin.subset hd))
        rw [h.opaqueChar d hd] at hnone
        cases hnone
    · exact .inl

theorem infix_hintTail_append {hidden : Text} (h : Unspelled value hidden.length) :
    value <:+: before ++ hintTail hidden ++ after ↔ value <:+: before ∨ value <:+: after := by
  unfold hintTail
  split_ifs
  · have hshape : before ++ ("… ".toList ++ redactedChars hidden.length) ++ after =
        before ++ '…' :: ([' '] ++ redactedChars hidden.length ++ after) := by
      have hdots : "… ".toList = ['…', ' '] := by decide
      rw [hdots]
      simp only [List.append_assoc, List.cons_append, List.nil_append]
    have hdots : '…' ∉ value := h.notMem (by decide)
    rw [hshape, infix_append_cons_iff hdots, h.infix_redactedChars_append]
    have hblank : ¬ value <:+: [' '] := h.not_infix_short (by decide)
    simp only [hblank, false_or]
  · exact h.infix_redactedChars_append

/-- A hint shows the value only where its vendor prefix completes what stands before. -/
theorem infix_redact_append {hidden : Text} (h : Unspelled value hidden.length) :
    value <:+: before ++ redact hidden ++ after ↔
      value <:+: before ++ keptPrefix hidden ∨ value <:+: after := by
  rw [redact_eq, ← List.append_assoc before]
  exact h.infix_hintTail_append

theorem not_infix_keptPrefix (h : Unspelled value length) (hidden : Text) :
    ¬ value <:+: keptPrefix hidden := by
  intro hwithin
  have := hwithin.length_le
  have := length_keptPrefix_le hidden
  have := h.long
  omega

theorem not_infix_redact {hidden : Text} (h : Unspelled value hidden.length) :
    ¬ value <:+: redact hidden := by
  intro hwithin
  have hshown : value <:+: [] ++ redact hidden ++ [] := by simpa using hwithin
  rcases h.infix_redact_append.mp hshown with hkept | hnil
  · exact h.not_infix_keptPrefix hidden hkept
  · exact h.not_infix_short (by decide) hnil

end Unspelled

/-- The characters hints are made of, digits apart. -/
def hintChars : Text := "<redacted, … chars>".toList ++ SAFE_PREFIXES.flatten

theorem notMem_redactedChars {c : Char} (hdigit : c.isDigit = false) (hc : c ∉ hintChars)
    (length : ℕ) : c ∉ redactedChars length := by
  have hopen : "<redacted, ".toList ⊆ hintChars := by decide
  have hclose : " chars>".toList ⊆ hintChars := by decide
  unfold redactedChars
  rw [List.mem_append, List.mem_append]
  rintro ((hmem | hmem) | hmem)
  · exact hc (hopen hmem)
  · exact notMem_decimal hdigit _ hmem
  · exact hc (hclose hmem)

theorem notMem_redact {c : Char} (hdigit : c.isDigit = false) (hc : c ∉ hintChars)
    (value : Text) : c ∉ redact value := by
  have hdots : "… ".toList ⊆ hintChars := by decide
  have hchars := notMem_redactedChars hdigit hc value.length
  unfold redact
  split
  · rename_i known hfind
    have hknown := List.mem_of_find?_eq_some hfind
    rw [List.mem_append, List.mem_append]
    rintro ((hmem | hmem) | hmem)
    · exact hc (List.mem_append_right _ (List.mem_flatten.mpr ⟨known, hknown, hmem⟩))
    · exact hc (hdots hmem)
    · exact hchars hmem
  · exact hchars

/-- A run of token characters that a rule recognises. -/
structure Credential (token : Text) : Prop where
  recognised : ∃ rule ∈ RULES, rule.vendorPrefix <+: token ∧ rule.minLen ≤ token.length
  body : ∀ c ∈ token, isTokenChar c = true

theorem isOpaqueChar_of_isTokenChar {c : Char} (hc : isTokenChar c = true) :
    isOpaqueChar c = true := by
  unfold isTokenChar at hc
  unfold isOpaqueChar
  simp only [Bool.or_eq_true] at hc ⊢
  tauto

/-- Every rule names a vendor, in characters of a token, and asks for more than the name. -/
theorem rules_named : ∀ rule ∈ RULES, rule.vendorPrefix ≠ [] ∧ 20 ≤ rule.minLen ∧
    rule.vendorPrefix.length < rule.minLen ∧ rule.alnumBody = true ∧
    (∀ c ∈ rule.vendorPrefix, isTokenChar c = true) ∧
    ∃ c ∈ rule.vendorPrefix, c.isDigit = false := by decide

theorem Credential.unspelled (h : Credential token) (length : ℕ) : Unspelled token length := by
  obtain ⟨rule, hrule, hstarts, hlong⟩ := h.recognised
  obtain ⟨-, hmin, -, -, -, letter, hletter, hdigit⟩ := rules_named rule hrule
  refine ⟨fun c hc => isOpaqueChar_of_isTokenChar (h.body c hc), by omega, ?_⟩
  intro hwithin
  exact notMem_decimal hdigit length (hwithin.subset (hstarts.subset hletter))

/-- A match of a rule: where it starts, and how many characters it takes. -/
def Rule.Matches (rule : Rule) (text : Text) (start len : ℕ) : Prop :=
  rule.vendorPrefix <+: text.drop start ∧ len = ((text.drop start).takeWhile isTokenChar).length ∧
    rule.minLen ≤ len

theorem Rule.matches_of_mem_candidates {rule : Rule} (h : (start, len) ∈ rule.candidates text) :
    rule.Matches text start len := by
  unfold Rule.candidates at h
  obtain ⟨i, hi, hsome⟩ := List.mem_filterMap.mp h
  dsimp only at hsome
  split_ifs at hsome with hlong
  obtain ⟨rfl, rfl⟩ := Prod.mk.inj (Option.some.inj hsome)
  have hplace : 0 + i ∈ matchIndicesFrom rule.vendorPrefix 0 0 text := by
    rw [Nat.zero_add]
    exact hi
  exact ⟨prefix_of_mem_matchIndicesFrom hplace, rfl, hlong⟩

/-- A run of token characters goes on for as long from every place in it. -/
theorem takeWhile_drop_length {p : Char → Bool} {i : ℕ} (hij : i ≤ j)
    (h : ∀ c ∈ (text.drop i).take (j - i), p c = true) :
    ((text.drop j).takeWhile p).length ≤ ((text.drop i).takeWhile p).length := by
  have hsplit : text.drop i = (text.drop i).take (j - i) ++ text.drop j := by
    conv_lhs => rw [← List.take_append_drop (j - i) (text.drop i)]
    rw [List.drop_drop, Nat.add_sub_cancel' hij]
  rw [hsplit, List.takeWhile_append_of_pos h, List.length_append]
  exact Nat.le_add_left _ _

/-- A long enough run that starts with a vendor prefix is matched there, or before it. -/
theorem Rule.exists_candidate {rule : Rule} (hrule : rule ∈ RULES)
    (hstarts : rule.vendorPrefix <+: text.drop j)
    (hlong : rule.minLen ≤ ((text.drop j).takeWhile isTokenChar).length) :
    ∃ candidate ∈ rule.candidates text, candidate.1 ≤ j := by
  obtain ⟨hne, -, -, -, htoken, -⟩ := rules_named rule hrule
  obtain ⟨i, hi, hle, hlt⟩ := @exists_matchIndicesFrom _ _ _ _ hne 0 0 j hstarts (Nat.zero_le j)
  have hbegins := prefix_of_mem_matchIndicesFrom hi
  rw [Nat.zero_add] at hi
  have hrun : ∀ c ∈ (text.drop i).take (j - i), isTokenChar c = true := by
    intro c hc
    have hshort : (text.drop i).take (j - i) <+: rule.vendorPrefix := by
      apply List.prefix_of_prefix_length_le (List.take_prefix _ _) hbegins
      rw [List.length_take]
      omega
    exact htoken c (hshort.subset hc)
  have hmore := takeWhile_drop_length hle hrun
  refine ⟨(i, ((text.drop i).takeWhile isTokenChar).length), ?_, hle⟩
  unfold Rule.candidates
  apply List.mem_filterMap.mpr
  exact ⟨i, hi, if_pos (hlong.trans hmore)⟩

theorem foldl_better_spec (candidates : List (ℕ × ℕ)) (best : Option (ℕ × ℕ)) :
    (candidates.foldl better best = none → candidates = [] ∧ best = none) ∧
      ∀ chosen, candidates.foldl better best = some chosen →
        (chosen ∈ candidates ∨ best = some chosen) ∧ (∀ c ∈ candidates, chosen.1 ≤ c.1) ∧
          ∀ c, best = some c → chosen.1 ≤ c.1 := by
  induction candidates generalizing best with
  | nil =>
    refine ⟨fun hnone => ⟨rfl, hnone⟩, ?_⟩
    intro chosen hchosen
    refine ⟨.inr hchosen, by simp, ?_⟩
    intro c hc
    rw [List.foldl_nil, hc] at hchosen
    cases hchosen
    exact le_rfl
  | cons candidate candidates ih =>
    obtain ⟨hnone, hsome⟩ := ih (better best candidate)
    -- One comparison keeps one of the two, and none that starts later.
    have hbetter : ∃ kept, better best candidate = some kept ∧ kept.1 ≤ candidate.1 ∧
        (kept = candidate ∨ best = some kept) ∧ ∀ c, best = some c → kept.1 ≤ c.1 := by
      unfold better
      cases best with
      | none => exact ⟨candidate, rfl, le_rfl, .inl rfl, by simp⟩
      | some current =>
        dsimp only
        split_ifs with hearlier htie
        · exact ⟨current, rfl, hearlier.le, .inr rfl, by simp⟩
        · exact ⟨current, rfl, htie.1.le, .inr rfl, by simp⟩
        · refine ⟨candidate, rfl, le_rfl, .inl rfl, ?_⟩
          intro c hc
          cases hc
          omega
    obtain ⟨kept, hkept, hle, hfrom, hbest⟩ := hbetter
    constructor
    · intro h
      rw [hkept] at hnone
      cases (hnone (by rwa [List.foldl_cons, hkept] at h)).2
    · intro chosen hchosen
      obtain ⟨hmem, hall, hfirst⟩ := hsome chosen hchosen
      have hchosenKept := hfirst kept hkept
      refine ⟨?_, ?_, fun c hc => hchosenKept.trans (hbest c hc)⟩
      · rcases hmem with hmem | hmem
        · exact .inl (List.mem_cons_of_mem _ hmem)
        · rw [hkept, Option.some.injEq] at hmem
          subst hmem
          rcases hfrom with rfl | hbest
          · exact .inl List.mem_cons_self
          · exact .inr hbest
      · intro c hc
        rcases List.mem_cons.mp hc with rfl | hc
        · exact hchosenKept.trans hle
        · exact hall c hc

theorem nextCredential_some (h : nextCredential text = some (start, len)) :
    (∃ rule ∈ RULES, rule.Matches text start len) ∧
      ∀ rule ∈ RULES, ∀ candidate ∈ rule.candidates text, start ≤ candidate.1 := by
  obtain ⟨hmem, hfirst, -⟩ := (foldl_better_spec _ none).2 _ h
  constructor
  · rcases hmem with hmem | hnone
    · obtain ⟨rule, hrule, hcandidate⟩ := List.mem_flatMap.mp hmem
      exact ⟨rule, hrule, Rule.matches_of_mem_candidates hcandidate⟩
    · cases hnone
  · intro rule hrule candidate hcandidate
    exact hfirst candidate (List.mem_flatMap.mpr ⟨rule, hrule, hcandidate⟩)

theorem nextCredential_none (h : nextCredential text = none) :
    ∀ rule ∈ RULES, rule.candidates text = [] := by
  have hnil := ((foldl_better_spec _ none).1 h).1
  exact List.flatMap_eq_nil_iff.mp hnil

/-- The run a match takes is a credential of its own. -/
theorem nextCredential_credential (h : nextCredential text = some (start, len)) :
    Credential ((text.drop start).take len) ∧ 20 ≤ len ∧ start + len ≤ text.length := by
  obtain ⟨⟨rule, hrule, hstarts, rfl, hlong⟩, -⟩ := nextCredential_some h
  obtain ⟨hne, hmin, hshort, -⟩ := rules_named rule hrule
  have htake : (text.drop start).take ((text.drop start).takeWhile isTokenChar).length =
      (text.drop start).takeWhile isTokenChar :=
    (List.prefix_iff_eq_take.mp (List.takeWhile_prefix _)).symm
  have hle := (List.takeWhile_prefix isTokenChar (l := text.drop start)).length_le
  rw [List.length_drop] at hle
  refine ⟨⟨⟨rule, hrule, ?_, ?_⟩, ?_⟩, by omega, by omega⟩
  · rw [htake]
    exact List.prefix_of_prefix_length_le hstarts (List.takeWhile_prefix _) (by omega)
  · rw [htake]
    exact hlong
  · rw [htake]
    exact fun c hc => List.mem_takeWhile_imp hc

/-- A credential in the text is matched where it starts, or before it. -/
theorem exists_candidate_of_prefix (h : Credential token) (hj : token <+: text.drop j) :
    ∃ rule ∈ RULES, ∃ candidate ∈ rule.candidates text, candidate.1 ≤ j := by
  obtain ⟨rule, hrule, hstarts, hlong⟩ := h.recognised
  refine ⟨rule, hrule, Rule.exists_candidate hrule (hstarts.trans hj) ?_⟩
  obtain ⟨rest, hrest⟩ := hj
  rw [← hrest, List.takeWhile_append_of_pos h.body, List.length_append]
  omega

theorem exists_drop_of_infix (h : token <:+: text) :
    ∃ j, token <+: text.drop j ∧ j + token.length ≤ text.length := by
  obtain ⟨before, after, rfl⟩ := h
  refine ⟨before.length, ?_, by simp⟩
  rw [List.append_assoc, List.drop_left]
  exact List.prefix_append _ _

theorem nextCredential_eq_none_iff :
    nextCredential text = none ↔ ∀ token, Credential token → ¬ token <:+: text := by
  constructor
  · intro hnone token htoken hwithin
    obtain ⟨j, hj, -⟩ := exists_drop_of_infix hwithin
    obtain ⟨rule, hrule, candidate, hcandidate, -⟩ := exists_candidate_of_prefix htoken hj
    rw [nextCredential_none hnone rule hrule] at hcandidate
    cases hcandidate
  · intro h
    by_contra hsome
    obtain ⟨⟨start, len⟩, hmatch⟩ := Option.ne_none_iff_exists'.mp hsome
    apply h _ (nextCredential_credential hmatch).1
    exact (List.take_prefix _ _).isInfix.trans (List.drop_suffix _ _).isInfix

/-- Nothing before a match, and nothing its vendor prefix completes, is a credential. -/
theorem not_infix_before_match (htoken : Credential token)
    (h : nextCredential text = some (start, len)) :
    ¬ token <:+: text.take start ++ keptPrefix ((text.drop start).take len) := by
  intro hwithin
  obtain ⟨j, hj, hlength⟩ := exists_drop_of_infix hwithin
  have hkept := keptPrefix_prefix_self ((text.drop start).take len)
  have hshort := length_keptPrefix_le ((text.drop start).take len)
  have hlong := (htoken.unspelled 0).long
  -- The stretch is a prefix of the line.
  have hline : text.take start ++ keptPrefix ((text.drop start).take len) <+: text := by
    conv_rhs => rw [← List.take_append_drop start text]
    exact (List.prefix_append_right_inj _).mpr (hkept.trans (List.take_prefix _ _))
  obtain ⟨rest, hrest⟩ := hline
  have hplace : token <+: text.drop j := by
    have hdrop : text.drop j =
        (text.take start ++ keptPrefix ((text.drop start).take len)).drop j ++ rest := by
      rw [← List.drop_append_of_le_length (by omega), hrest]
    rw [hdrop]
    exact hj.trans (List.prefix_append _ _)
  obtain ⟨rule, hrule, candidate, hcandidate, hle⟩ := exists_candidate_of_prefix htoken hplace
  have hfirst := (nextCredential_some h).2 rule hrule candidate hcandidate
  simp only [List.length_append, List.length_take] at hlength
  omega

theorem maskCredentials_succ_of_match (h : nextCredential text = some (start, len)) :
    maskCredentials (fuel + 1) text =
      text.take start ++ redact ((text.drop start).take len) ++
        maskCredentials fuel (text.drop (start + len)) := by
  rw [maskCredentials, h]

theorem maskCredentials_of_none (h : nextCredential text = none) :
    maskCredentials fuel text = text := by
  cases fuel with
  | zero => rfl
  | succ fuel => rw [maskCredentials, h]

/-- The rulepack pass leaves no credential anywhere. -/
theorem not_infix_maskCredentials (htoken : Credential token) (hfuel : text.length ≤ fuel) :
    ¬ token <:+: maskCredentials fuel text := by
  induction fuel generalizing text with
  | zero =>
    have hnil : text = [] := List.length_eq_zero_iff.mp (Nat.le_zero.mp hfuel)
    subst hnil
    exact (htoken.unspelled 0).not_infix_short (by decide)
  | succ fuel ih =>
    cases hnext : nextCredential text with
    | none =>
      rw [maskCredentials_of_none hnext]
      exact nextCredential_eq_none_iff.mp hnext token htoken
    | some found =>
      obtain ⟨start, len⟩ := found
      obtain ⟨-, hlen, hbound⟩ := nextCredential_credential hnext
      have hrest : (text.drop (start + len)).length ≤ fuel := by
        rw [List.length_drop]
        omega
      rw [maskCredentials_succ_of_match hnext, (htoken.unspelled _).infix_redact_append, not_or]
      exact ⟨not_infix_before_match htoken hnext, ih hrest⟩

/-- A match is found exactly if it is one and none starts before it. -/
theorem nextCredential_eq_some_iff : nextCredential text = some (start, len) ↔
      (∃ rule ∈ RULES, rule.Matches text start len) ∧
        ∀ rule ∈ RULES, ∀ start' len', rule.Matches text start' len' → start ≤ start' := by
  constructor
  · intro h
    obtain ⟨hmatch, hfirst⟩ := nextCredential_some h
    refine ⟨hmatch, ?_⟩
    rintro rule hrule start' len' ⟨hstarts, rfl, hlong⟩
    obtain ⟨candidate, hcandidate, hle⟩ := Rule.exists_candidate hrule hstarts hlong
    exact (hfirst rule hrule candidate hcandidate).trans hle
  · rintro ⟨⟨rule, hrule, hmatch⟩, hfirst⟩
    obtain ⟨hstarts, hlen, hlong⟩ := hmatch
    rw [hlen] at hlong
    obtain ⟨candidate, hcandidate, hle⟩ := Rule.exists_candidate hrule hstarts hlong
    cases hnext : nextCredential text with
    | none =>
      rw [nextCredential_none hnext rule hrule] at hcandidate
      cases hcandidate
    | some found =>
      obtain ⟨⟨rule', hrule', hfound⟩, hall⟩ := nextCredential_some hnext
      have hsame : found.1 = start :=
        le_antisymm ((hall rule hrule candidate hcandidate).trans hle)
          (hfirst rule' hrule' _ _ hfound)
      obtain ⟨-, hlen', -⟩ := hfound
      rw [hsame] at hlen'
      rw [← hsame, hlen, ← hlen']

section Separator

variable {sep : Char} {before after : Text}

theorem Rule.matches_before {rule : Rule} (hrule : rule ∈ RULES) (hsep : isTokenChar sep = false)
    {start len : ℕ} (hstart : start ≤ before.length) :
    rule.Matches (before ++ sep :: after) start len ↔ rule.Matches before start len := by
  obtain ⟨-, -, -, -, htoken, -⟩ := rules_named rule hrule
  have hout : sep ∉ rule.vendorPrefix := by
    intro hmem
    rw [htoken sep hmem] at hsep
    cases hsep
  unfold Rule.Matches
  rw [List.drop_append_of_le_length hstart, prefix_append_sep_iff hout,
    takeWhile_append_of_sep hsep]

theorem Rule.matches_after {rule : Rule} {start len : ℕ} :
    rule.Matches (before ++ sep :: after) (before.length + (start + 1)) len ↔
      rule.Matches after start len := by
  unfold Rule.Matches
  rw [List.drop_length_add_append, List.drop_succ_cons]

theorem nextCredential_append_of_some (hsep : isTokenChar sep = false) {start len : ℕ}
    (h : nextCredential before = some (start, len)) :
    nextCredential (before ++ sep :: after) = some (start, len) := by
  have hbound := (nextCredential_credential h).2.2
  rw [nextCredential_eq_some_iff] at h ⊢
  obtain ⟨⟨rule, hrule, hmatch⟩, hfirst⟩ := h
  refine ⟨⟨rule, hrule, (Rule.matches_before hrule hsep (by omega)).mpr hmatch⟩, ?_⟩
  intro rule' hrule' start' len' hmatch'
  by_cases hle : start' ≤ before.length
  · exact hfirst rule' hrule' start' len' ((Rule.matches_before hrule' hsep hle).mp hmatch')
  · omega

theorem nextCredential_append_of_none (hsep : isTokenChar sep = false)
    (h : nextCredential before = none) :
    nextCredential (before ++ sep :: after) =
      (nextCredential after).map fun found => (before.length + (found.1 + 1), found.2) := by
  have hbefore : ∀ rule ∈ RULES, ∀ start len, start ≤ before.length →
      ¬ rule.Matches (before ++ sep :: after) start len := by
    intro rule hrule start len hle hmatch
    obtain ⟨hstarts, rfl, hlong⟩ := (Rule.matches_before hrule hsep hle).mp hmatch
    obtain ⟨candidate, hcandidate, -⟩ := Rule.exists_candidate hrule hstarts hlong
    rw [nextCredential_none h rule hrule] at hcandidate
    cases hcandidate
  cases hafter : nextCredential after with
  | none =>
    by_contra hsome
    obtain ⟨⟨start, len⟩, hfound⟩ := Option.ne_none_iff_exists'.mp hsome
    obtain ⟨⟨rule, hrule, hmatch⟩, -⟩ := nextCredential_some hfound
    by_cases hle : start ≤ before.length
    · exact hbefore rule hrule start len hle hmatch
    · obtain ⟨start, rfl⟩ : ∃ k, start = before.length + (k + 1) :=
        ⟨start - before.length - 1, by omega⟩
      obtain ⟨hstarts, rfl, hlong⟩ := Rule.matches_after.mp hmatch
      obtain ⟨candidate, hcandidate, -⟩ := Rule.exists_candidate hrule hstarts hlong
      rw [nextCredential_none hafter rule hrule] at hcandidate
      cases hcandidate
  | some found =>
    obtain ⟨start, len⟩ := found
    rw [nextCredential_eq_some_iff] at hafter
    obtain ⟨⟨rule, hrule, hmatch⟩, hfirst⟩ := hafter
    rw [Option.map_some, nextCredential_eq_some_iff]
    refine ⟨⟨rule, hrule, Rule.matches_after.mpr hmatch⟩, ?_⟩
    intro rule' hrule' start' len' hmatch'
    by_cases hle : start' ≤ before.length
    · exact absurd hmatch' (hbefore rule' hrule' start' len' hle)
    · obtain ⟨start', rfl⟩ : ∃ k, start' = before.length + (k + 1) :=
        ⟨start' - before.length - 1, by omega⟩
      have := hfirst rule' hrule' start' len' (Rule.matches_after.mp hmatch')
      dsimp only
      omega

end Separator

/-- More fuel than characters changes nothing. -/
theorem maskCredentials_fuel {fuel' : ℕ} (h : text.length ≤ fuel) (h' : text.length ≤ fuel') :
    maskCredentials fuel text = maskCredentials fuel' text := by
  induction fuel generalizing fuel' text with
  | zero =>
    have hnil : text = [] := List.length_eq_zero_iff.mp (Nat.le_zero.mp h)
    subst hnil
    rw [maskCredentials_of_none (by rfl), maskCredentials_of_none (by rfl)]
  | succ fuel ih =>
    cases hnext : nextCredential text with
    | none => rw [maskCredentials_of_none hnext, maskCredentials_of_none hnext]
    | some found =>
      obtain ⟨start, len⟩ := found
      obtain ⟨-, hlen, hbound⟩ := nextCredential_credential hnext
      obtain ⟨fuel', rfl⟩ : ∃ k, fuel' = k + 1 := ⟨fuel' - 1, by omega⟩
      rw [maskCredentials_succ_of_match hnext, maskCredentials_succ_of_match hnext]
      congr 1
      apply ih
      · rw [List.length_drop]
        omega
      · rw [List.length_drop]
        omega

/-- The rulepack pass over a whole line. -/
def maskRulepack (text : Text) : Text := maskCredentials text.length text

theorem not_infix_maskRulepack (htoken : Credential token) (text : Text) :
    ¬ token <:+: maskRulepack text := not_infix_maskCredentials htoken le_rfl

theorem maskRulepack_of_none (h : nextCredential text = none) :
    maskRulepack text = text := maskCredentials_of_none h

theorem maskRulepack_of_match (h : nextCredential text = some (start, len)) :
    maskRulepack text =
      text.take start ++ redact ((text.drop start).take len) ++
        maskRulepack (text.drop (start + len)) := by
  have hbound := (nextCredential_credential h).2
  have hfuel : text.length ≤ text.length - 1 + 1 := by omega
  have hrest : (text.drop (start + len)).length ≤ text.length - 1 := by
    rw [List.length_drop]
    omega
  rw [maskRulepack, maskCredentials_fuel le_rfl hfuel, maskCredentials_succ_of_match h,
    maskCredentials_fuel hrest le_rfl]
  rfl

/-- The pass treats what stands before and after a separator on its own. -/
theorem maskRulepack_append {sep : Char} (hsep : isTokenChar sep = false) (before after : Text) :
    maskRulepack (before ++ sep :: after) = maskRulepack before ++ sep :: maskRulepack after := by
  induction hn : before.length using Nat.strong_induction_on generalizing before with
  | _ n ih =>
    cases hnext : nextCredential before with
    | some found =>
      obtain ⟨start, len⟩ := found
      obtain ⟨-, hlen, hbound⟩ := nextCredential_credential hnext
      have hdrop : (before ++ sep :: after).drop (start + len) =
          before.drop (start + len) ++ sep :: after :=
        List.drop_append_of_le_length hbound
      have hcred : ((before ++ sep :: after).drop start).take len =
          (before.drop start).take len := by
        rw [List.drop_append_of_le_length (by omega), List.take_append_of_le_length]
        rw [List.length_drop]
        omega
      have hshorter : (before.drop (start + len)).length < n := by
        rw [List.length_drop]
        omega
      rw [maskRulepack_of_match (nextCredential_append_of_some hsep hnext),
        maskRulepack_of_match hnext, hdrop, hcred, ih _ hshorter _ rfl,
        List.take_append_of_le_length (by omega)]
      simp only [List.append_assoc]
    | none =>
      rw [maskRulepack_of_none hnext]
      have hwhole := @nextCredential_append_of_none _ _ after hsep hnext
      cases hafter : nextCredential after with
      | none =>
        rw [hafter] at hwhole
        rw [maskRulepack_of_none hwhole, maskRulepack_of_none hafter]
      | some found =>
        obtain ⟨start, len⟩ := found
        rw [hafter] at hwhole
        have hend : before.length + (start + 1) + len = before.length + (start + len + 1) := by
          omega
        rw [maskRulepack_of_match hwhole, maskRulepack_of_match hafter]
        dsimp only
        rw [hend]
        simp only [List.take_length_add_append, List.drop_length_add_append, List.take_succ_cons,
          List.drop_succ_cons, List.append_assoc, List.cons_append]

theorem length_maskRulepack_le (text : Text) : (maskRulepack text).length ≤ 3 * text.length := by
  induction hn : text.length using Nat.strong_induction_on generalizing text with
  | _ n ih =>
    cases hnext : nextCredential text with
    | none =>
      rw [maskRulepack_of_none hnext]
      omega
    | some found =>
      obtain ⟨start, len⟩ := found
      obtain ⟨-, hlen, hbound⟩ := nextCredential_credential hnext
      have hcred : ((text.drop start).take len).length = len := by
        rw [List.length_take, List.length_drop]
        omega
      have hhint := length_redact_le ((text.drop start).take len)
      have hdigits : (decimal len).length ≤ len :=
        length_decimal_le (by omega) (Nat.lt_pow_self (by decide))
      have hrest := ih (text.drop (start + len)).length
        (by rw [List.length_drop]; omega) _ rfl
      rw [hcred] at hhint
      rw [List.length_drop] at hrest
      rw [maskRulepack_of_match hnext, List.length_append, List.length_append, List.length_take]
      omega

theorem notMem_maskRulepack {c : Char} (hdigit : c.isDigit = false) (hc : c ∉ hintChars)
    (h : c ∉ text) : c ∉ maskRulepack text := by
  unfold maskRulepack
  induction text.length generalizing text with
  | zero => exact h
  | succ fuel ih =>
    cases hnext : nextCredential text with
    | none => rwa [maskCredentials_of_none hnext]
    | some found =>
      obtain ⟨start, len⟩ := found
      rw [maskCredentials_succ_of_match hnext, List.mem_append, List.mem_append]
      rintro ((hmem | hmem) | hmem)
      · exact h (List.mem_of_mem_take hmem)
      · exact notMem_redact hdigit hc _ hmem
      · exact ih (fun hrest => h (List.mem_of_mem_drop hrest)) hmem

/-- Characters outside every token are passed over. -/
theorem maskRulepack_between {before after text : Text}
    (hbefore : ∀ c ∈ before, isTokenChar c = false) (hafter : ∀ c ∈ after, isTokenChar c = false) :
    maskRulepack (before ++ text ++ after) = before ++ maskRulepack text ++ after := by
  have hnil : maskRulepack [] = [] := rfl
  have hright : ∀ after : Text, (∀ c ∈ after, isTokenChar c = false) →
      maskRulepack after = after := by
    intro after hafter
    induction after with
    | nil => rfl
    | cons c after ih =>
      have hrest := ih fun d hd => hafter d (List.mem_cons_of_mem c hd)
      have hsplit := maskRulepack_append (hafter c List.mem_cons_self) [] after
      rwa [List.nil_append, hnil, hrest] at hsplit
  induction before with
  | nil =>
    cases after with
    | nil => simp
    | cons c after =>
      have hrest : ∀ d ∈ after, isTokenChar d = false :=
        fun d hd => hafter d (List.mem_cons_of_mem c hd)
      rw [List.nil_append, maskRulepack_append (hafter c List.mem_cons_self), hright after hrest]
      rfl
  | cons c before ih =>
    have hrest := ih fun d hd => hbefore d (List.mem_cons_of_mem c hd)
    have hsplit := maskRulepack_append (hbefore c List.mem_cons_self) [] (before ++ text ++ after)
    rw [List.nil_append, hnil, hrest] at hsplit
    simpa only [List.cons_append, List.nil_append] using hsplit

end TinySweeper.Scan
