import TinySweeper.Sentry.Cards
import TinySweeper.Sentry.Excerpt
import TinySweeper.Sentry.Literals
import TinySweeper.Sentry.Tokens

/-!
# What a scrubbed text holds

The passes run one after another, each on what the one before it left. What one pass
removed stays removed as long as no later mark, and no punctuation, brings it back.
-/

namespace TinySweeper.Sentry

open Text

variable {token text mark pattern : Text} {done patterns : List Text}

/-- The credential rulepack: its result has no match, and a text without one is left alone. -/
structure Rulepack where
  scrub : Text → Text
  Found : Text → Prop
  none_found : ∀ text, ¬Found (scrub text)
  fixed : ∀ text, ¬Found text → scrub text = text

theorem isEmail_eq_true_iff : isEmail token = true ↔
    ∃ localPart domain, token = localPart ++ '@' :: domain ∧ '@' ∉ localPart ∧ localPart ≠ [] ∧
      (∀ c ∈ localPart, isEmailChar c = true) ∧ '.' ∈ domain ∧ domain.head? ≠ some '.' ∧
        domain.getLast? ≠ some '.' ∧ ∀ c ∈ domain, isEmailChar c = true := by
  unfold isEmail
  cases hsplit : splitOnce '@' token with
  | none =>
    rw [splitOnce_eq_none_iff] at hsplit
    refine iff_of_false nofun ?_
    rintro ⟨localPart, domain, rfl, -⟩
    exact hsplit (List.mem_append_right _ List.mem_cons_self)
  | some parts =>
    obtain ⟨localPart, domain⟩ := parts
    obtain ⟨htoken, hfirst⟩ := splitOnce_eq_some_iff.mp hsplit
    simp only [Bool.and_eq_true, Bool.not_eq_true', List.isEmpty_eq_false_iff, List.all_eq_true,
      List.contains_iff_mem, bne_iff_ne]
    constructor
    · rintro ⟨⟨hne, hlocal⟩, ⟨⟨hdot, hhead⟩, hlast⟩, hdomain⟩
      exact ⟨localPart, domain, htoken, hfirst, hne, hlocal, hdot, hhead, hlast, hdomain⟩
    · rintro ⟨front, behind, htoken', hfirst', hne, hlocal, hdot, hhead, hlast, hdomain⟩
      have hsame := splitOnce_eq_some_iff.mpr ⟨htoken', hfirst'⟩
      rw [hsplit, Option.some.injEq, Prod.mk.injEq] at hsame
      obtain ⟨rfl, rfl⟩ := hsame
      exact ⟨⟨hne, hlocal⟩, ⟨⟨hdot, hhead⟩, hlast⟩, hdomain⟩

/-- An address does not end in punctuation of its sentence. -/
theorem isAddress_of_isEmail (h : isEmail token = true) : isAddress token = true := by
  obtain ⟨localPart, domain, rfl, -, -, -, hdot, -, hlast, hdomain⟩ := isEmail_eq_true_iff.mp h
  have hself : (localPart ++ '@' :: domain).rdropWhile isSentencePunctuation =
      localPart ++ '@' :: domain := by
    cases domain using List.reverseRecOn with
    | nil => exact absurd hdot List.not_mem_nil
    | append_singleton domain c =>
      have hc : isSentencePunctuation c = false := by
        have hchar := hdomain c (List.mem_append_right _ (List.mem_singleton_self c))
        have hstop : c ≠ '.' := by simpa using hlast
        have hmark : c ≠ '!' := by
          rintro rfl
          exact absurd hchar (by decide)
        have hquestion : c ≠ '?' := by
          rintro rfl
          exact absurd hchar (by decide)
        simp [isSentencePunctuation, hstop, hmark, hquestion]
      rw [← List.cons_append, ← List.append_assoc]
      exact List.rdropWhile_concat_neg _ _ _ (by simp [hc])
  rw [isAddress, hself]
  exact h

theorem isEmail_of_not_isAddress (h : isAddress token = false) : isEmail token = false := by
  cases hemail : isEmail token with
  | false => rfl
  | true =>
    rw [isAddress_of_isEmail hemail] at h
    cases h

theorem mem_rdropWhile {p : Char → Bool} {c : Char} (hc : p c = false) (h : c ∈ text) :
    c ∈ text.rdropWhile p := by
  induction text using List.reverseRecOn with
  | nil => exact h
  | append_singleton text d ih =>
    by_cases hd : p d = true
    · rw [List.rdropWhile_concat_pos _ _ _ hd]
      rcases List.mem_append.mp h with h | h
      · exact ih h
      · rw [← List.mem_singleton.mp h, hc] at hd
        cases hd
    · rw [List.rdropWhile_concat_neg _ _ _ hd]
      exact h

theorem notMem_of_isAddress (h : isAddress token = true) : '…' ∉ token := by
  intro hmem
  have hinside := mem_rdropWhile (p := isSentencePunctuation) (by decide) hmem
  obtain ⟨localPart, domain, hparts, -, -, hlocal, -, -, -, hdomain⟩ :=
    isEmail_eq_true_iff.mp h
  rw [hparts, List.mem_append, List.mem_cons] at hinside
  have hchar : isEmailChar '…' = false := by decide
  rcases hinside with hmem | hmem | hmem
  · rw [hlocal _ hmem] at hchar
    cases hchar
  · exact absurd hmem (by decide)
  · rw [hdomain _ hmem] at hchar
    cases hchar

theorem notMem_of_isOpaque (h : isOpaque token = true) : '…' ∉ token := by
  intro hmem
  unfold isOpaque at h
  split at h
  · cases h
  split at h
  · cases h
  · next hall =>
    rw [Bool.not_eq_true, Bool.not_eq_false', List.all_eq_true] at hall
    exact absurd (hall _ hmem) (by decide)

section Conditions

variable (lower : Lowercase) (rules : Rulepack)

/-- No pattern is cut out beside a digit run, none of the marks set completes a pattern that holds
the mark, and in what is left the rulepack finds nothing; `done` are the patterns removed so
far. -/
def PatternsPlain : (done : List Text) → (patterns : List Text) → Text → Prop
  | _, [], text => ¬rules.Found text
  | done, pattern :: patterns, text =>
    if trim pattern = [] then PatternsPlain done patterns text
    else
      RunsApart (cutLiteral lower pattern text) ∧
        (∀ held ∈ pattern :: done, '…' ∈ held →
          KeptWhole lower held (cutLiteral lower pattern text)) ∧
        PatternsPlain (pattern :: done) patterns ((cutLiteral lower pattern text).written ELIDED)

/-- In a text without bearer tokens the later passes bring nothing back. -/
structure PassesPlain (text : Text) (patterns : List Text) : Prop where
  emails : ∀ token ∈ tokens text, isAddress token = true → isEmail token = true
  cards : ∀ stretch ∈ (cutCards (redactEmails text)).stretches, ∀ token ∈ tokens stretch,
    isAddress token = true → token ∈ tokens (redactEmails text)
  opaques : RunsApart (cutTokens isOpaque (redactDigitRuns (redactEmails text)))
  patterns : PatternsPlain lower rules [] patterns
    (redactOpaqueTokens (redactDigitRuns (redactEmails text)))

/-- No pass misses what it looks for, and no later one brings it back. -/
structure Undisturbed (text : Text) (patterns : List Text) : Prop where
  bearers : BearersPlain lower (rules.scrub text)
  passes : ∀ left, redactBearer lower (rules.scrub text) = some left →
    PassesPlain lower rules left patterns

end Conditions

variable {lower : Lowercase} {rules : Rulepack}

/-- What the passes so far have established. -/
structure Clean (lower : Lowercase) (done : List Text) (text : Text) : Prop where
  literals : ∀ pattern ∈ done, Elides lower pattern text
  emails : ∀ token ∈ tokens text, isAddress token = false
  cards : CardFree text
  opaques : ∀ token ∈ tokens text, isOpaque token = false
  bearers : BearerFree lower text

theorem Clean.mono {done' : List Text} (h : Clean lower done text)
    (hdone : ∀ pattern ∈ done', pattern ∈ done) : Clean lower done' text :=
  { h with literals := fun pattern hpattern => h.literals pattern (hdone pattern hpattern) }

theorem silent_email : Silent lower EMAIL :=
  silent_of_closed '[' ']' "redacted-email".toList (by decide)
    guards_bracket (by decide) (by decide)

theorem silent_digits : Silent lower DIGITS :=
  silent_of_closed '[' ']' "redacted-number".toList (by decide)
    guards_bracket (by decide) (by decide)

theorem silent_opaque : Silent lower OPAQUE :=
  silent_of_closed '[' ']' "redacted-opaque".toList (by decide)
    guards_bracket (by decide) (by decide)

theorem silent_elided : Silent lower ELIDED := by
  refine ⟨⟨'…', [], rfl, guards_ellipsis⟩, fun tail htail hne rest => ?_⟩
  rcases List.suffix_cons_iff.mp htail with rfl | hnil
  · cases hintro : introduces lower (['…'] ++ rest) with
    | false => rfl
    | true => exact absurd (toLower_of_introduces hintro) (by decide)
  · exact absurd (List.suffix_nil.mp hnil) hne

theorem bearerFree_rewriteTokens (p : Text → Bool) (hmark : Silent lower mark)
    (h : BearerFree lower text) :
    BearerFree lower (rewriteTokens (fun token => if p token then some mark else none) text) := by
  rw [rewriteTokens, ← written_cutTokensFrom]
  apply bearerFree_written hmark
  rwa [source_cutTokensFrom, List.nil_append]

/-- The tokens a pass leaves are tokens of its mark, or tokens it does not rewrite. -/
theorem mem_tokens_rewriteTokens {p : Text → Bool} {found : Text}
    (h : found ∈ tokens (rewriteTokens (fun token => if p token then some mark else none) text)) :
    found ∈ tokens mark ∨ found ∈ tokens text ∧ p found = false := by
  rcases mem_tokens_rewriteFrom [] nofun h with
    ⟨hfound, hnone⟩ | ⟨old, replacement, hrule, hfound⟩
  · right
    refine ⟨hfound, ?_⟩
    cases hp : p found with
    | false => rfl
    | true => simp [hp] at hnone
  · left
    split at hrule
    · rw [Option.some.injEq] at hrule
      rw [hrule]
      exact hfound
    · cases hrule

/-- The personal-data passes leave a clean text. -/
theorem clean_passes (hfree : BearerFree lower text) (h : PassesPlain lower rules text patterns) :
    Clean lower [] (redactOpaqueTokens (redactDigitRuns (redactEmails text))) := by
  have hemails : ∀ token ∈ tokens (redactEmails text), isAddress token = false := by
    intro token htoken
    rcases mem_tokens_rewriteTokens htoken with hmark | ⟨hmem, hnot⟩
    · exact (by decide : ∀ token ∈ tokens EMAIL, isAddress token = false) token hmark
    · cases haddress : isAddress token with
      | false => rfl
      | true =>
        rw [h.emails token hmem haddress] at hnot
        cases hnot
  have hcards : ∀ token ∈ tokens (redactDigitRuns (redactEmails text)),
      isAddress token = false := by
    intro token htoken
    rw [redactDigitRuns, ← written_cutCardsFrom,
      show DIGITS = '[' :: ("redacted-number".toList ++ [']']) by decide] at htoken
    rcases mem_tokens_written htoken with hmark | ⟨stretch, hstretch, hmem⟩
    · exact (by decide : ∀ token ∈ tokens "redacted-number".toList, isAddress token = false)
        token hmark
    · cases haddress : isAddress token with
      | false => rfl
      | true =>
        rw [← haddress]
        exact hemails token (h.cards stretch hstretch token hmem haddress)
  refine ⟨(fun _ h => by cases h), ?_, ?_, ?_, ?_⟩
  · intro token htoken
    rcases mem_tokens_rewriteTokens htoken with hmark | ⟨hmem, -⟩
    · exact (by decide : ∀ token ∈ tokens OPAQUE, isAddress token = false) token hmark
    · exact hcards token hmem
  · rw [redactOpaqueTokens, rewriteTokens, ← written_cutTokensFrom]
    refine cardFree_written '[' "redacted-opaque]".toList (by decide) (by decide)
      (cardFree_stretches ?_ h.opaques)
    rw [source_cutTokensFrom, List.nil_append]
    exact cardFree_redactDigitRuns _
  · intro token htoken
    rcases mem_tokens_rewriteTokens htoken with hmark | ⟨-, hnot⟩
    · exact (by decide : ∀ token ∈ tokens OPAQUE, isOpaque token = false) token hmark
    · exact hnot
  · apply bearerFree_rewriteTokens _ silent_opaque
    rw [redactDigitRuns, ← written_cutCardsFrom]
    apply bearerFree_written silent_digits
    rw [source_cutCardsFrom]
    exact bearerFree_rewriteTokens _ silent_email hfree

theorem opaques_redact (text : Text) :
    ∀ token ∈ tokens (redactOpaqueTokens text), isOpaque token = false := by
  intro token htoken
  rcases mem_tokens_rewriteTokens htoken with hmark | ⟨-, hnot⟩
  · exact (by decide : ∀ token ∈ tokens OPAQUE, isOpaque token = false) token hmark
  · exact hnot

theorem ne_nil_of_trim (h : trim pattern ≠ []) : pattern ≠ [] := by
  rintro rfl
  exact h rfl

theorem source_cutLiteral (hpattern : pattern ≠ []) (text : Text) :
    (cutLiteral lower pattern text).source = text :=
  (cutLiteralFrom_spec lower hpattern text).1

/-- No mark makes a token opaque. -/
theorem opaques_removed (hpattern : pattern ≠ [])
    (h : ∀ token ∈ tokens text, isOpaque token = false) :
    ∀ token ∈ tokens ((cutLiteral lower pattern text).written ELIDED), isOpaque token = false := by
  intro token htoken
  cases hopaque : isOpaque token with
  | false => rfl
  | true =>
    have hold := mem_tokens_elided (notMem_of_isOpaque hopaque) htoken
    rw [source_cutLiteral hpattern] at hold
    rw [← hopaque]
    exact h token hold

theorem Clean.removed (h : Clean lower done text) (hpattern : pattern ≠ [])
    (hcards : RunsApart (cutLiteral lower pattern text))
    (hheld : ∀ held ∈ pattern :: done, '…' ∈ held →
      KeptWhole lower held (cutLiteral lower pattern text)) :
    Clean lower (pattern :: done) ((cutLiteral lower pattern text).written ELIDED) := by
  refine ⟨?_, ?_, ?_, opaques_removed hpattern h.opaques, ?_⟩
  · intro other hother
    rcases List.mem_cons.mp hother with rfl | hdone
    · exact elides_removed hpattern text (hheld other List.mem_cons_self)
    · exact elides_kept hpattern (h.literals other hdone)
        (hheld other (List.mem_cons_of_mem pattern hdone))
  · intro token htoken
    cases haddress : isAddress token with
    | false => rfl
    | true =>
      have hold := mem_tokens_elided (notMem_of_isAddress haddress) htoken
      rw [source_cutLiteral hpattern] at hold
      rw [← haddress]
      exact h.emails token hold
  · refine cardFree_written '…' [] (by decide) (by decide) (cardFree_stretches ?_ hcards)
    rw [source_cutLiteral hpattern]
    exact h.cards
  · apply bearerFree_written silent_elided
    rw [source_cutLiteral hpattern]
    exact h.bearers

/-- The patterns are removed without a panic, and no token becomes opaque. -/
theorem removePatterns_total (patterns : List Text)
    (h : ∀ token ∈ tokens text, isOpaque token = false) :
    ∃ out, removePatterns lower text patterns = some out ∧
      ∀ token ∈ tokens out, isOpaque token = false := by
  induction patterns generalizing text with
  | nil => exact ⟨text, rfl, h⟩
  | cons pattern patterns ih =>
    unfold removePatterns
    by_cases hblank : trim pattern = []
    · simpa [hblank] using ih h
    · have hpattern := ne_nil_of_trim hblank
      simpa [hblank, removeLiteralCi_eq hpattern] using ih (opaques_removed hpattern h)

/-- Removing the patterns keeps what the passes established and adds the patterns. -/
theorem clean_removePatterns {out : Text} (h : Clean lower done text)
    (hplain : PatternsPlain lower rules done patterns text)
    (hout : removePatterns lower text patterns = some out) :
    ¬rules.Found out ∧
      Clean lower (patterns.filter (fun pattern => trim pattern ≠ []) ++ done) out := by
  induction patterns generalizing done text with
  | nil =>
    obtain rfl := Option.some.inj hout
    exact ⟨hplain, h⟩
  | cons pattern patterns ih =>
    unfold PatternsPlain at hplain
    unfold removePatterns at hout
    by_cases hblank : trim pattern = []
    · rw [if_pos hblank] at hplain
      simp only [hblank, List.isEmpty_nil, if_true, Option.bind_eq_bind, Option.bind_some] at hout
      simpa [hblank] using ih h hplain hout
    · have hpattern := ne_nil_of_trim hblank
      rw [if_neg hblank] at hplain
      obtain ⟨hcards, hheld, hplain⟩ := hplain
      simp only [hblank, List.isEmpty_iff, if_false, removeLiteralCi_eq hpattern,
        Option.bind_eq_bind, Option.bind_some] at hout
      obtain ⟨hfound, hclean⟩ := ih (h.removed hpattern hcards hheld) hplain hout
      refine ⟨hfound, hclean.mono fun other hother => ?_⟩
      simp only [List.mem_append, List.mem_filter, List.mem_cons] at hother ⊢
      tauto

/-- What is clean of every pattern is scrubbed. -/
theorem Clean.scrubbed {out : Text}
    (h : Clean lower (patterns.filter fun pattern => trim pattern ≠ []) out) :
    Scrubbed lower patterns out := by
  refine ⟨?_, fun token htoken => ⟨isEmail_of_not_isAddress (h.emails token htoken),
    h.emails token htoken⟩, h.cards, h.opaques, h.bearers⟩
  rintro pattern hpattern hblank before rest stop rfl hmatch
  rw [matchAt_eq, Option.map_eq_some_iff] at hmatch
  obtain ⟨⟨found, behind⟩, hstarts, rfl⟩ := hmatch
  obtain ⟨rfl, -⟩ := startsWith_eq_some_iff.mp hstarts
  rw [byteSlice_append, h.literals pattern (List.mem_filter.mpr ⟨hpattern, by simpa using hblank⟩)
    _ found behind (List.suffix_append before _) hstarts]

theorem removePatterns_of_elides
    (h : ∀ pattern ∈ patterns, trim pattern ≠ [] → Elides lower pattern text) :
    removePatterns lower text patterns = some text := by
  induction patterns with
  | nil => rfl
  | cons pattern patterns ih =>
    have hlater := ih fun other hother => h other (List.mem_cons_of_mem pattern hother)
    unfold removePatterns
    by_cases hblank : trim pattern = []
    · simpa [hblank] using hlater
    · have hsame := removeLiteralCi_of_elides (ne_nil_of_trim hblank)
        (h pattern List.mem_cons_self hblank)
      simpa [hblank, hsame] using hlater

theorem rewriteTokens_of_false {p : Text → Bool} (h : ∀ token ∈ tokens text, p token = false) :
    rewriteTokens (fun token => if p token then some mark else none) text = text := by
  rw [rewriteTokens, rewriteFrom_of_none, List.nil_append]
  intro token htoken
  rw [h token htoken]
  rfl

theorem redact_of_clean (h : Clean lower done text) : redact lower text = some text := by
  have hemails : redactEmails text = text :=
    rewriteTokens_of_false fun token htoken => isEmail_of_not_isAddress (h.emails token htoken)
  have hopaques : redactOpaqueTokens text = text := rewriteTokens_of_false h.opaques
  simp only [redact, redactBearer_of_bearerFree h.bearers, hemails,
    redactDigitRuns_of_cardFree h.cards, hopaques, Option.bind_eq_bind, Option.bind_some,
    Option.pure_def]

theorem scrubText_of_clean (hfound : ¬rules.Found text)
    (h : Clean lower (patterns.filter fun pattern => trim pattern ≠ []) text) :
    scrubText lower rules.scrub text patterns = some text := by
  have hpatterns : removePatterns lower text patterns = some text := by
    apply removePatterns_of_elides
    intro pattern hpattern hblank
    exact h.literals pattern (List.mem_filter.mpr ⟨hpattern, by simpa using hblank⟩)
  rw [scrubText, rules.fixed text hfound, redact_of_clean h]
  exact hpatterns

theorem redact_eq (text : Text) : redact lower text = some (redactOpaqueTokens
    (redactDigitRuns (redactEmails ((cutBearer lower text).written BEARER)))) := by
  rw [redact, redactBearer_eq]
  rfl

variable (lower) in
theorem scrubText_total (scrub : Text → Text) (text : Text) (patterns : List Text) :
    ∃ out, scrubText lower scrub text patterns = some out ∧
      ∀ token ∈ tokens out, isOpaque token = false := by
  rw [scrubText, redact_eq]
  exact removePatterns_total patterns (opaques_redact _)

theorem mapM_total {α β : Type} {f : α → Option β} (h : ∀ a, ∃ b, f a = some b) (l : List α) :
    ∃ l', l.mapM f = some l' := by
  induction l with
  | nil => exact ⟨[], rfl⟩
  | cons a l ih =>
    obtain ⟨b, hb⟩ := h a
    obtain ⟨l', hl'⟩ := ih
    exact ⟨b :: l', by simp [List.mapM_cons, hb, hl']⟩

variable (lower) in
theorem projectedFrames_total (scrub : Text → Text) (event : Option RawEvent)
    (patterns : List Text) : ∃ frames, projectedFrames lower scrub event patterns = some frames := by
  cases event with
  | none => exact ⟨[], rfl⟩
  | some event =>
    apply mapM_total
    intro frame
    obtain ⟨filename, hfilename, -⟩ :=
      scrubText_total lower scrub (frame.filename.getD []) patterns
    obtain ⟨function, hfunction, -⟩ :=
      scrubText_total lower scrub (frame.function.getD []) patterns
    exact ⟨⟨filename, function, frame.lineno⟩, by simp [safeFrame, hfilename, hfunction]⟩

/-- A projection never fails, fits, and keeps a beginning of the scrubbed frames. -/
theorem project_bounded (scrub : Text → Text) (issue : RawIssue) (event : Option RawEvent)
    (slug : Text) (patterns : List Text) : ∃ safe frames,
      project lower scrub issue event slug patterns = some safe ∧
        excerptBytes safe ≤ MAX_EXCERPT_BYTES ∧
        projectedFrames lower scrub event patterns = some frames ∧ safe.frames <+: frames := by
  have htotal : ∀ text, ∃ out, scrubText lower scrub text patterns = some out := by
    intro text
    obtain ⟨out, hout, -⟩ := scrubText_total lower scrub text patterns
    exact ⟨out, hout⟩
  obtain ⟨frames, hframes⟩ := projectedFrames_total lower scrub event patterns
  obtain ⟨kind, hkind⟩ := htotal (issue.metadata.kind.getD [])
  obtain ⟨value, hvalue⟩ := htotal (issue.metadata.value.getD [])
  obtain ⟨culprit, hculprit⟩ := htotal (issue.culprit.getD [])
  obtain ⟨transaction, htransaction⟩ := htotal ((event.bind (·.transaction)).getD [])
  obtain ⟨level, hlevel⟩ := htotal (issue.level.getD [])
  obtain ⟨release, hrelease⟩ :=
    htotal (((event.bind (·.release)).bind (·.version)).getD [])
  obtain ⟨permalink, hpermalink⟩ := htotal (issue.permalink.getD [])
  obtain ⟨capped, hcapped, hbytes, hleading⟩ := enforceBudget_bounded
    { shortId := issue.shortId, project := slug, kind, value, culprit, transaction, level
      count := issue.count, userCount := issue.userCount, release, frames, permalink }
  refine ⟨capped, frames, ?_, hbytes, hframes, hleading⟩
  simp only [project, hframes, hkind, hvalue, hculprit, htransaction, hlevel, hrelease, hpermalink,
    Option.bind_eq_bind, Option.bind_some]
  exact hcapped

/-- A rulepack that never finds anything. -/
def noRules : Rulepack where
  scrub text := text
  Found _ := False
  none_found _ := id
  fixed _ _ := rfl

/-- An address and a card number. -/
def payment : Text := "pay alice@example.com 4111 1111 1111 1111".toList

/-- A card cut out of a token leaves an address, which a second scrubbing removes. -/
example : (redact asciiLowercase "é4111111111111111-a@b.c".toList) =
      some "é[redacted-number]-a@b.c".toList ∧
    (redact asciiLowercase "é[redacted-number]-a@b.c".toList) =
      some "é[redacted-number][redacted-email]".toList := by decide +kernel

end TinySweeper.Sentry
