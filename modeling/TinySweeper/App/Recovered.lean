import TinySweeper.App.ReadBack

/-!
# A comment gives back the finding it was rendered from

The body of a finding stands in a paragraph of its own, and the stops of the reader
are found right behind it. Only a text that prose changes, the mark of a group, an
empty body over a bare rule line and a rule mark in a change are read otherwise.
-/

namespace TinySweeper.App

open Text Evidence Findings Markdown
open Scan (Severity)

variable {κ : Type} (isAlphanumeric : Char → Bool)

/-- A text between two empty lines. -/
def paragraph (text : Text) : Text := "\n\n".toList ++ (text ++ "\n\n".toList)

section Paragraph

variable {needle text rest : Text}

theorem paragraph_append (text rest : Text) :
    paragraph text ++ rest = [] ++ '\n' :: ([] ++ '\n' :: (text ++ '\n' :: ([] ++ '\n' :: rest))) := by
  simp [paragraph]

theorem find_paragraph (hbreak : '\n' ∉ needle) (hne : needle ≠ []) (hnot : ¬needle <:+: text)
    (rest : Text) : find needle (paragraph text ++ rest) =
      (find needle rest).map ((paragraph text).length + ·) := by
  have hnil : ¬needle <:+: [] := fun h => hne (List.infix_nil.mp h)
  rw [paragraph_append, find_append_sep_of_not_infix hbreak hne hnil,
    find_append_sep_of_not_infix hbreak hne hnil, find_append_sep_of_not_infix hbreak hne hnot,
    find_append_sep_of_not_infix hbreak hne hnil, Option.map_map, Option.map_map, Option.map_map]
  congr 1
  funext i
  simp [paragraph]
  omega

/-- The mark between grouped observations is found in a paragraph of its own only. -/
theorem find_groupMark_paragraph (htext : '\n' ∉ text) (hmark : text ≠ "---".toList)
    (hrest : ∀ c ∈ rest.head?, c ≠ '\n' ∧ c ≠ '-') :
    find "\n\n---\n\n".toList (paragraph text ++ rest) =
      (find "\n\n---\n\n".toList rest).map ((paragraph text).length + ·) := by
  have hshape : "\n\n---\n\n".toList = ['\n', '\n', '-', '-', '-', '\n', '\n'] := rfl
  have hwhole : paragraph text ++ rest =
      '\n' :: '\n' :: (text ++ '\n' :: '\n' :: rest) := by simp [paragraph]
  have hfirst : ¬['-', '-', '-', '\n', '\n'] <+: text ++ '\n' :: '\n' :: rest := by
    rintro ⟨behind, h⟩
    have hsplit := congrArg (splitOnce '\n') h
    rw [splitOnce_append htext, show ['-', '-', '-', '\n', '\n'] ++ behind =
      ['-', '-', '-'] ++ '\n' :: '\n' :: behind from rfl, splitOnce_append (by decide)] at hsplit
    exact hmark (Prod.mk.inj (Option.some.inj hsplit)).1.symm
  have hsecond : ¬['\n', '-', '-', '-', '\n', '\n'] <+: text ++ '\n' :: '\n' :: rest := by
    intro h
    cases text with
    | nil => simp at h
    | cons c text =>
      rw [List.cons_append, List.cons_prefix_cons] at h
      exact htext (h.1 ▸ List.mem_cons_self)
  have hthird : ¬['-', '-', '-', '\n', '\n'] <+: rest := by
    cases rest with
    | nil => simp
    | cons c rest =>
      intro h
      exact (hrest c rfl).2 (List.cons_prefix_cons.mp h).1.symm
  have hfourth : ¬['\n', '-', '-', '-', '\n', '\n'] <+: rest := by
    cases rest with
    | nil => simp
    | cons c rest =>
      intro h
      exact (hrest c rfl).1 (List.cons_prefix_cons.mp h).1.symm
  rw [hwhole, hshape, find_cons_of_mismatch (by simpa using hfirst),
    find_cons_of_mismatch (by simpa using hsecond), find_append_of_notMem htext,
    find_cons_of_mismatch (by simpa using hthird),
    find_cons_of_mismatch (by simpa using hfourth)]
  simp only [Option.map_map]
  congr 1
  funext i
  simp [paragraph]
  omega

end Paragraph

section Stops

variable {rest : Text}

/-- A stop without a line break. -/
structure InnerStop (stop : Text) : Prop where
  ne : stop ≠ []
  unbroken : '\n' ∉ stop
  undivided : '·' ∉ stop
  marked : '<' ∈ stop ∨ '\x60' ∈ stop ∨ ['*', '*'] <:+: stop

theorem textStops_cases {stop : Text} (h : stop ∈ textStops) :
    stop = "\n\n---\n\n".toList ∨ InnerStop stop := by
  have hcases : stop = "\n\n---\n\n".toList ∨ stop = "**Suggested change".toList ∨
      stop = "\x60\x60\x60suggestion".toList ∨ stop = "**[RULE]".toList ∨
        stop = "<!--".toList := by
    simpa [textStops] using h
  rcases hcases with rfl | rfl | rfl | rfl | rfl
  · exact .inl rfl
  · exact .inr ⟨by decide, by decide, by decide, .inr (.inr ⟨[], _, rfl⟩)⟩
  · exact .inr ⟨by decide, by decide, by decide, .inr (.inl (by decide))⟩
  · exact .inr ⟨by decide, by decide, by decide, .inr (.inr ⟨[], _, rfl⟩)⟩
  · exact .inr ⟨by decide, by decide, by decide, .inl (by decide)⟩

theorem InnerStop.not_infix {stop : Text} (h : InnerStop stop) {before after : Text}
    (hbefore : ∀ c ∈ ['<', '\x60', '*'], c ∉ before) (hafter : ∀ c ∈ ['<', '\x60', '*'], c ∉ after)
    (text : Text) : ¬stop <:+: before ++ (prose isAlphanumeric text ++ after) := by
  intro hwithin
  have hquiet : ∀ c ∈ ['<', '\x60'], c ∉ stop := by
    intro c hc hmem
    have hquiet := quiet_prose isAlphanumeric (d := c)
      (by simp only [List.mem_cons, List.not_mem_nil, or_false] at hc ⊢; tauto) text
    have hlist : c ∈ ['<', '\x60', '*'] := by
      simp only [List.mem_cons, List.not_mem_nil, or_false] at hc ⊢
      tauto
    have hwhole := hwithin.subset hmem
    simp only [List.mem_append, hquiet, false_or] at hwhole
    exact hwhole.elim (hbefore c hlist) (hafter c hlist)
  rcases h.marked with hmem | hmem | hpair
  · exact hquiet _ (by simp) hmem
  · exact hquiet _ (by simp) hmem
  · exact not_infix_around isAlphanumeric (by simp) (hbefore '*' (by simp)) (hafter '*' (by simp))
      text (hpair.trans hwithin)

/-- Where the first stop is. -/
def stopIn (after : Text) : ℕ :=
  ((textStops.filterMap fun stop => find stop after).min?).getD after.length

theorem stopIn_le {lead : Text}
    (h : ∀ stop ∈ textStops, ∀ i, find stop (lead ++ rest) = some i → lead.length ≤ i) :
    lead.length ≤ stopIn (lead ++ rest) := by
  unfold stopIn
  cases hmin : (textStops.filterMap fun stop => find stop (lead ++ rest)).min? with
  | none => simp
  | some i =>
    obtain ⟨stop, hstop, hi⟩ := List.mem_filterMap.mp (List.min?_mem hmin)
    exact h stop hstop i hi

/-- A paragraph of rendered text is read as far as the stop behind it. -/
theorem stopIn_paragraph {text : Text} (hmark : prose isAlphanumeric text ≠ "---".toList)
    (hrest : ∀ c ∈ rest.head?, c ≠ '\n' ∧ c ≠ '-')
    (hstop : ∃ stop ∈ textStops, InnerStop stop ∧ stop <+: rest) :
    stopIn (paragraph (prose isAlphanumeric text) ++ rest) =
      (paragraph (prose isAlphanumeric text)).length := by
  have hinner : ∀ {stop}, InnerStop stop →
      find stop (paragraph (prose isAlphanumeric text) ++ rest) =
        (find stop rest).map ((paragraph (prose isAlphanumeric text)).length + ·) := by
    intro stop hstop
    have hnot := @InnerStop.not_infix isAlphanumeric _ hstop [] [] (by simp) (by simp) text
    rw [List.nil_append, List.append_nil] at hnot
    exact find_paragraph hstop.unbroken hstop.ne hnot rest
  have hmin : (textStops.filterMap fun stop =>
      find stop (paragraph (prose isAlphanumeric text) ++ rest)).min? =
        some (paragraph (prose isAlphanumeric text)).length := by
    rw [List.min?_eq_some_iff]
    constructor
    · obtain ⟨stop, hmem, hkind, hhere⟩ := hstop
      apply List.mem_filterMap.mpr
      refine ⟨stop, hmem, ?_⟩
      rw [hinner hkind, find_of_match hhere]
      rfl
    · intro i hi
      obtain ⟨stop, hmem, hfound⟩ := List.mem_filterMap.mp hi
      have hshift : find stop (paragraph (prose isAlphanumeric text) ++ rest) =
          (find stop rest).map ((paragraph (prose isAlphanumeric text)).length + ·) := by
        rcases textStops_cases hmem with rfl | hkind
        · exact find_groupMark_paragraph (quiet_prose isAlphanumeric (by simp) text) hmark hrest
        · exact hinner hkind
      rw [hshift] at hfound
      obtain ⟨j, -, rfl⟩ := Option.map_eq_some_iff.mp hfound
      exact Nat.le_add_right _ _
  rw [stopIn, hmin, Option.getD_some]

end Stops

section Body

variable (sha256 : Text → List UInt8) (f : Finding κ)

/-- What stands behind the rule line. -/
def footer : Text := " · ".toList ++ (aliasMarker f ++ fingerprintMarker (f.known sha256))

/-- What stands behind the title. -/
def commentTail : Text :=
  "\n\n".toList ++ (prose isAlphanumeric f.body ++ (suggestionBlock f ++ ("\n\n".toList ++
    (ruleLine isAlphanumeric f.rule ++ footer sha256 f))))

theorem commentBody_eq [Confidence κ] : commentBody isAlphanumeric sha256 f =
    beforeTitle f.severity f.lane (certainty f.confidence) ++ ("**".toList ++
      (prose isAlphanumeric f.title ++ ("**".toList ++ commentTail isAlphanumeric sha256 f))) := by
  have hopen : "\n\n**".toList = "\n\n".toList ++ "**".toList := by decide
  have hclose : "**\n\n".toList = "**".toList ++ "\n\n".toList := by decide
  unfold commentBody commentTail footer beforeTitle commentHead headOf escapeEmphasis
  rw [hopen, hclose]
  simp only [List.append_assoc]

/-- A rule line begins with the opener of one. -/
theorem opener_prefix_ruleLine (rule : Text) :
    ∃ rest, ruleLine isAlphanumeric rule = ruleOpener ++ rest := by
  have hfirst : ∀ name rest : Text, ∃ tail,
      "**[RULE] ".toList ++ name ++ rest = ruleOpener ++ tail :=
    fun name rest => ⟨name ++ rest, List.append_assoc _ _ _⟩
  unfold ruleLine
  dsimp only
  split
  · split
    · rw [List.append_assoc]
      exact hfirst _ _
    · exact hfirst _ _
  · exact hfirst _ _

/-- What follows the paragraph of the body: a change, or the rule line. -/
inductive Follows : Text → Prop
  | bare (hnone : f.applicable = none) :
    Follows (ruleLine isAlphanumeric f.rule ++ footer sha256 f)
  | change {s : Suggestion} (hsome : f.applicable = some s) {lead : Text}
    (hlead : lead = [] ∨ lead = "**Suggested change for the opening observation**\n\n".toList) :
    Follows (lead ++ ("\x60\x60\x60suggestion\n".toList ++ (s.replacement ++
      ("\n\x60\x60\x60\n\n".toList ++ (ruleLine isAlphanumeric f.rule ++ footer sha256 f)))))

theorem commentTail_eq : ∃ rest, Follows isAlphanumeric sha256 f rest ∧
    commentTail isAlphanumeric sha256 f = paragraph (prose isAlphanumeric f.body) ++ rest := by
  unfold commentTail paragraph
  cases happlicable : f.applicable with
  | none =>
    refine ⟨_, .bare happlicable, ?_⟩
    have hblock : suggestionBlock f = [] := by simp [suggestionBlock, happlicable]
    rw [hblock, List.nil_append]
    simp only [List.append_assoc]
  | some s =>
    have hopen : "\n\n\x60\x60\x60suggestion\n".toList =
        "\n\n".toList ++ "\x60\x60\x60suggestion\n".toList := by decide
    have hclose : "\n\x60\x60\x60\n\n".toList =
        "\n\x60\x60\x60".toList ++ "\n\n".toList := by decide
    by_cases haliases : f.aliases.isEmpty = true
    · refine ⟨_, .change happlicable (.inl rfl), ?_⟩
      rw [suggestionBlock, happlicable]
      dsimp only
      rw [suggestionLabel, if_pos haliases, hopen, hclose]
      simp only [List.append_assoc, List.nil_append]
    · have hlabel : "\n\n**Suggested change for the opening observation**".toList =
          "\n\n".toList ++ "**Suggested change for the opening observation**".toList := by decide
      have hlead : "**Suggested change for the opening observation**\n\n".toList =
          "**Suggested change for the opening observation**".toList ++ "\n\n".toList := by decide
      refine ⟨_, .change happlicable (.inr rfl), ?_⟩
      rw [suggestionBlock, happlicable]
      dsimp only
      rw [suggestionLabel, if_neg haliases, hopen, hclose, hlabel, hlead]
      simp only [List.append_assoc]

variable {f} {replacement text body title rest : Text}

theorem Follows.stop (h : Follows isAlphanumeric sha256 f rest) :
    (∀ c ∈ rest.head?, c ≠ '\n' ∧ c ≠ '-') ∧
      ∃ stop ∈ textStops, InnerStop stop ∧ stop <+: rest := by
  have hopened : ∀ {stop}, stop ∈ textStops → InnerStop stop →
      (stop.head? = some '*' ∨ stop.head? = some '\x60') → stop <+: rest →
      (∀ c ∈ rest.head?, c ≠ '\n' ∧ c ≠ '-') ∧
        ∃ stop ∈ textStops, InnerStop stop ∧ stop <+: rest := by
    intro stop hmem hkind hhead hopens
    refine ⟨?_, stop, hmem, hkind, hopens⟩
    obtain ⟨tail, rfl⟩ := hopens
    intro c hc
    rcases hhead with hhead | hhead <;>
      · rw [List.head?_append, hhead, Option.some_or] at hc
        cases hc
        decide
  have hkinds : InnerStop "**[RULE]".toList ∧ InnerStop "\x60\x60\x60suggestion".toList ∧
      InnerStop "**Suggested change".toList :=
    ⟨(textStops_cases (by simp [textStops])).resolve_left (by decide),
      (textStops_cases (by simp [textStops])).resolve_left (by decide),
      (textStops_cases (by simp [textStops])).resolve_left (by decide)⟩
  obtain ⟨hrule, hchange, hlabel⟩ := hkinds
  cases h with
  | bare hnone =>
    obtain ⟨tail, hline⟩ := opener_prefix_ruleLine isAlphanumeric f.rule
    refine hopened (by simp [textStops]) hrule (.inl rfl) ?_
    rw [hline, List.append_assoc]
    exact (show "**[RULE]".toList <+: ruleOpener from ⟨[' '], rfl⟩).trans (List.prefix_append _ _)
  | change hsome hlead =>
    rcases hlead with rfl | rfl
    · refine hopened (by simp [textStops]) hchange (.inr rfl) ?_
      exact (show "\x60\x60\x60suggestion".toList <+: "\x60\x60\x60suggestion\n".toList from
        ⟨['\n'], rfl⟩).trans (List.prefix_append _ _)
    · refine hopened (by simp [textStops]) hlabel (.inl rfl) ?_
      exact (show "**Suggested change".toList <+:
        "**Suggested change for the opening observation**\n\n".toList from
          ⟨_, rfl⟩).trans (List.prefix_append _ _)

/-- The rule shown is the one of the finding: by its rule line, or by the first rule mark of an
applicable change. -/
def RuleShown (f : Finding κ) : Prop :=
  match (f.applicable.map (·.replacement)).filter fun replacement =>
      contains replacement ruleOpener with
  | some replacement =>
    (between ruleOpener "**".toList (replacement ++ "\n\x60\x60\x60\n\n**".toList)).map trim =
      some (ruleHead f.rule)
  | none => RulePlain isAlphanumeric f.rule

theorem ruleIn_commentBody [Confidence κ]
    (htail : commentTail isAlphanumeric sha256 f =
      paragraph (prose isAlphanumeric f.body) ++ rest) :
    ruleIn (commentBody isAlphanumeric sha256 f) = ruleIn rest := by
  have hpair : ['*', '['] <:+: ruleOpener := ⟨['*'], _, rfl⟩
  have hhead : ¬ruleOpener <:+: headOf f.severity f.lane (certainty f.confidence) := by
    intro h
    exact star_notMem_headOf _ _ _ (h.subset (by decide))
  have htitle : ¬ruleOpener <:+:
      "**".toList ++ (prose isAlphanumeric f.title ++ "**".toList) := by
    intro h
    exact not_infix_around isAlphanumeric (by simp) (by decide) (by decide) f.title (hpair.trans h)
  have hbody : ¬ruleOpener <:+: prose isAlphanumeric f.body := by
    intro h
    exact not_infix_prose isAlphanumeric (by simp) f.body (hpair.trans h)
  have hnil : ¬ruleOpener <:+: [] := fun h => absurd (List.infix_nil.mp h) (by decide)
  have hwhole : commentBody isAlphanumeric sha256 f =
      headOf f.severity f.lane (certainty f.confidence) ++ '\n' :: ([] ++ '\n' ::
        (("**".toList ++ (prose isAlphanumeric f.title ++ "**".toList)) ++ '\n' :: ([] ++ '\n' ::
          (prose isAlphanumeric f.body ++ '\n' :: ([] ++ '\n' :: rest))))) := by
    rw [commentBody_eq, htail]
    simp [paragraph, beforeTitle]
  rw [hwhole, ruleIn_append_newline hhead, ruleIn_append_newline hnil,
    ruleIn_append_newline htitle, ruleIn_append_newline hnil, ruleIn_append_newline hbody,
    ruleIn_append_newline hnil]

/-- What a rule mark in a change opens ends at the rule line, if not before. -/
theorem between_opener (hopen : ruleOpener <:+: replacement) :
    ∃ value, between ruleOpener "**".toList
      (replacement ++ "\n\x60\x60\x60\n\n**".toList) = some value := by
  obtain ⟨start, hstart⟩ := Option.isSome_iff_exists.mp (find_isSome_iff.mpr hopen)
  have hbound : start + ruleOpener.length ≤ replacement.length := by
    obtain ⟨hmatch, hlength⟩ := find_eq_some hstart
    have hle := hmatch.length_le
    rw [List.length_drop] at hle
    omega
  have hclose : "**".toList <:+: (replacement ++ "\n\x60\x60\x60\n\n**".toList).drop
      (start + ruleOpener.length) := by
    rw [List.drop_append_of_le_length hbound]
    exact (show "**".toList <:+ "\n\x60\x60\x60\n\n**".toList from
      ⟨"\n\x60\x60\x60\n\n".toList, by decide⟩).isInfix.trans (List.suffix_append _ _).isInfix
  apply Option.isSome_iff_exists.mp
  rw [between, find_append_of_some hstart, Option.bind_some]
  dsimp only
  rw [Option.isSome_map]
  exact find_isSome_iff.mpr hclose

theorem not_opener_of_notMem (h : '[' ∉ text) : ¬ruleOpener <:+: text :=
  fun hwithin => h (hwithin.subset (by decide))

/-- No rule is read before the text of a change. -/
theorem ruleIn_change {lead : Text}
    (hlead : lead = [] ∨ lead = "**Suggested change for the opening observation**\n\n".toList)
    (change : Text) :
    ruleIn (lead ++ ("\x60\x60\x60suggestion\n".toList ++ change)) = ruleIn change := by
  have hfence : ruleIn ("\x60\x60\x60suggestion\n".toList ++ change) = ruleIn change := by
    have hbreak : "\x60\x60\x60suggestion\n".toList =
        "\x60\x60\x60suggestion".toList ++ ['\n'] := by decide
    rw [hbreak, List.append_assoc, List.singleton_append,
      ruleIn_append_newline (not_opener_of_notMem (by decide))]
  rcases hlead with rfl | rfl
  · exact hfence
  · have hbreak : "**Suggested change for the opening observation**\n\n".toList =
        "**Suggested change for the opening observation**".toList ++ (['\n'] ++ ['\n']) := by decide
    rw [hbreak, List.append_assoc, List.append_assoc, List.singleton_append, List.singleton_append,
      ruleIn_append_newline (not_opener_of_notMem (by decide)), ← hfence]
    exact ruleIn_append_newline (not_opener_of_notMem List.not_mem_nil) _

/-- A change without a rule mark leaves the rule line to be read. -/
theorem ruleIn_after_change (hnot : ¬ruleOpener <:+: replacement) (line : Text) :
    ruleIn (replacement ++ ("\n\x60\x60\x60\n\n".toList ++ line)) = ruleIn line := by
  have hbreak : "\n\x60\x60\x60\n\n".toList =
      ['\n'] ++ ("\x60\x60\x60".toList ++ (['\n'] ++ ['\n'])) := by decide
  rw [hbreak, List.append_assoc, List.singleton_append, ruleIn_append_newline hnot,
    List.append_assoc, List.append_assoc, List.singleton_append, List.singleton_append,
    ruleIn_append_newline (not_opener_of_notMem (by decide))]
  exact ruleIn_append_newline (not_opener_of_notMem List.not_mem_nil) _

/-- A rule mark in a change is read first. -/
theorem ruleIn_marked_change (hopen : ruleOpener <:+: replacement) {head : Text}
    (hhead : trim head ≠ []) (rest : Text) :
    ruleIn (replacement ++ ("\n\x60\x60\x60\n\n".toList ++ (ruleOpener ++ rest))) = some head ↔
      (between ruleOpener "**".toList (replacement ++ "\n\x60\x60\x60\n\n**".toList)).map trim =
        some head := by
  have hmarks : "\n\x60\x60\x60\n\n".toList ++ ruleOpener =
      "\n\x60\x60\x60\n\n**".toList ++ "[RULE] ".toList := by decide
  obtain ⟨value, hvalue⟩ := between_opener hopen
  have hread : between ruleOpener "**".toList
      (replacement ++ ("\n\x60\x60\x60\n\n".toList ++ (ruleOpener ++ rest))) = some value := by
    rw [← List.append_assoc _ ruleOpener, hmarks, List.append_assoc, ← List.append_assoc]
    exact between_append_of_some hvalue _
  rw [ruleIn, show "**[RULE] ".toList = ruleOpener from rfl, hread, hvalue, Option.map_some,
    Option.filter_some]
  split
  · rfl
  · next hblank =>
    have hnone : trim value = [] := by simpa using hblank
    rw [hnone, Option.some.injEq]
    refine iff_of_false (by simp) fun h => hhead ?_
    rw [← h]
    rfl

theorem ruleIn_commentBody_iff [Confidence κ] (f : Finding κ)
    (hhead : trim (ruleHead f.rule) ≠ []) :
    ruleIn (commentBody isAlphanumeric sha256 f) = some (ruleHead f.rule) ↔
      RuleShown isAlphanumeric f := by
  obtain ⟨rest, hrest, htail⟩ := commentTail_eq isAlphanumeric sha256 f
  rw [ruleIn_commentBody isAlphanumeric sha256 htail]
  cases hrest with
  | bare hnone =>
    rw [ruleIn_ruleLine isAlphanumeric hhead]
    simp [RuleShown, hnone]
  | @change s hsome lead hlead =>
    rw [ruleIn_change hlead]
    by_cases hopen : ruleOpener <:+: s.replacement
    · have hcontains : contains s.replacement ruleOpener = true := contains_iff.mpr hopen
      obtain ⟨tail, hline⟩ := opener_prefix_ruleLine isAlphanumeric f.rule
      rw [hline, List.append_assoc, ruleIn_marked_change hopen hhead, RuleShown, hsome,
        Option.map_some, Option.filter_some, if_pos hcontains]
    · have hcontains : contains s.replacement ruleOpener = false :=
        Bool.eq_false_iff.mpr fun h => hopen (contains_iff.mp h)
      rw [ruleIn_after_change hopen, ruleIn_ruleLine isAlphanumeric hhead, RuleShown, hsome,
        Option.map_some, Option.filter_some, if_neg (Bool.eq_false_iff.mp hcontains)]

theorem getD_textIn {after : Text} (htitle : titleIn body = some title)
    (hafter : (afterTitle body).bind afterRule = some after) :
    (textIn body).getD [] = trim (after.take (stopIn after)) := by
  rw [textIn, htitle, Option.bind_some, hafter, Option.bind_some]
  dsimp only
  change (if trim (after.take (stopIn after)) = [] then none
    else some (trim (after.take (stopIn after)))).getD [] = _
  split
  · next hblank =>
    rw [hblank]
    rfl
  · rfl

theorem trim_paragraph (text : Text) : trim (paragraph text) = trim text := by
  have hlead : ∀ c ∈ "\n\n".toList, isWhitespace c = true := by decide
  have hend : trimEnd (text ++ "\n\n".toList) = trimEnd text := by
    rw [show text ++ "\n\n".toList = (text ++ ['\n']) ++ ['\n'] by simp, trimEnd_concat (by decide),
      trimEnd_concat (by decide)]
  rw [paragraph, trim_append_of_blank hlead, ← trim_trimEnd, hend, trim_trimEnd]

/-- A paragraph is read as a whole; one like the mark of a group is not read. -/
theorem trim_take_paragraph (hrest : Follows isAlphanumeric sha256 f rest) :
    trim ((paragraph (prose isAlphanumeric text) ++ rest).take
      (stopIn (paragraph (prose isAlphanumeric text) ++ rest))) =
        if prose isAlphanumeric text = "---".toList then [] else trim (prose isAlphanumeric text) := by
  split
  · next hmark =>
    have hhere : "\n\n---\n\n".toList <+: paragraph (prose isAlphanumeric text) ++ rest := by
      rw [hmark]
      exact ⟨rest, rfl⟩
    have hmin : (textStops.filterMap fun stop =>
        find stop (paragraph (prose isAlphanumeric text) ++ rest)).min? = some 0 := by
      rw [List.min?_eq_some_iff]
      constructor
      · exact List.mem_filterMap.mpr ⟨_, List.mem_cons_self, find_of_match hhere⟩
      · intro i _
        exact Nat.zero_le i
    rw [stopIn, hmin]
    rfl
  · next hmark =>
    obtain ⟨hfirst, hstop⟩ := hrest.stop
    rw [stopIn_paragraph isAlphanumeric hmark hfirst hstop, List.take_left, trim_paragraph]

/-- A change does not open with a rule mark. -/
theorem not_rule_prefix_change {lead : Text}
    (hlead : lead = [] ∨ lead = "**Suggested change for the opening observation**\n\n".toList)
    (change : Text) : ¬"**[RULE]".toList <+:
      trimStart (lead ++ ("\x60\x60\x60suggestion\n".toList ++ change)) := by
  have hopened : ∀ {start rest : Text}, "**[RULE]".toList.length ≤ start.length →
      trimStart (start ++ rest) = start ++ rest → ¬"**[RULE]".toList <+: start →
      ¬"**[RULE]".toList <+: trimStart (start ++ rest) := by
    intro start rest hlength hstart hnot h
    rw [hstart] at h
    exact hnot (List.prefix_of_prefix_length_le h (List.prefix_append _ _) hlength)
  rcases hlead with rfl | rfl
  · rw [List.nil_append]
    exact hopened (by decide) rfl (by decide)
  · exact hopened (by decide) rfl (by decide)

theorem trimStart_paragraph (text rest : Text) :
    trimStart (paragraph text ++ rest) = trimStart (text ++ ("\n\n".toList ++ rest)) := by
  unfold paragraph trimStart
  rw [List.append_assoc, List.append_assoc]
  exact List.dropWhile_append_of_pos (by decide)

/-- The rule line is passed over only where it is all that stands behind the title. -/
theorem afterRule_paragraph (hrest : Follows isAlphanumeric sha256 f rest)
    (h : f.applicable = none → trim (prose isAlphanumeric f.body) ≠ []) :
    afterRule (paragraph (prose isAlphanumeric f.body) ++ rest) =
      some (paragraph (prose isAlphanumeric f.body) ++ rest) := by
  have hnot : ¬"**[RULE]".toList <+:
      trimStart (paragraph (prose isAlphanumeric f.body) ++ rest) := by
    rw [trimStart_paragraph, trimStart, List.dropWhile_append]
    split
    · next hblank =>
      cases hrest with
      | bare hnone =>
        refine absurd ?_ (h hnone)
        rw [trim, trimStart, List.isEmpty_iff.mp hblank]
        rfl
      | change hsome hlead =>
        rw [List.dropWhile_append_of_pos (by decide)]
        exact not_rule_prefix_change hlead _
    · next hshown =>
      intro hopens
      rcases hstart : trimStart (prose isAlphanumeric f.body) with _ | ⟨c, tail⟩
      · exact hshown (List.isEmpty_iff.mpr hstart)
      · rw [← trimStart, hstart] at hopens
        exact head_trimStart_prose isAlphanumeric hstart (List.cons_prefix_cons.mp hopens).1.symm
  rw [afterRule, stripPrefix_eq_none_iff.mpr hnot]

/-- A plain rule has its name alone in bold, and perhaps an explanation behind it. -/
theorem ruleLine_of_plain {rule : Text} (hhead : trim (ruleHead rule) ≠ [])
    (hrule : RulePlain isAlphanumeric rule) :
    ∃ name rest, ruleLine isAlphanumeric rule =
        ruleOpener ++ (prose isAlphanumeric name ++ ("**".toList ++ rest)) ∧
      '*' ∉ prose isAlphanumeric name ∧
      (rest = [] ∨ ∃ explanation, rest = ": ".toList ++ prose isAlphanumeric explanation) := by
  obtain ⟨name, rest, hline, hname⟩ := ruleLine_eq isAlphanumeric hhead
  refine ⟨name, rest, hline, ?_⟩
  rcases hname with ⟨rfl, -, hrest⟩ | ⟨-, hbare⟩
  · rw [hrule.head.trimmed]
    exact ⟨(hrule.head.verbatim isAlphanumeric).star_notMem isAlphanumeric, hrest⟩
  · exact absurd hrule.explained hbare

/-- A rule line right behind the title is passed over. -/
theorem afterRule_of_blank {name : Text} (hblank : trim (prose isAlphanumeric text) = [])
    (hname : '*' ∉ prose isAlphanumeric name) :
    afterRule (paragraph (prose isAlphanumeric text) ++
      (ruleOpener ++ (prose isAlphanumeric name ++ ("**".toList ++ rest)))) = some rest := by
  have hopener : ruleOpener = "**[RULE]".toList ++ [' '] := by decide
  have hstart : trimStart (paragraph (prose isAlphanumeric text) ++
      (ruleOpener ++ (prose isAlphanumeric name ++ ("**".toList ++ rest)))) =
        ruleOpener ++ (prose isAlphanumeric name ++ ("**".toList ++ rest)) := by
    rw [trimStart_paragraph, trimStart, List.dropWhile_append_of_pos (trim_eq_nil_iff.mp hblank),
      List.dropWhile_append_of_pos (by decide)]
    rfl
  have hmark : find "**".toList
      (([' '] ++ prose isAlphanumeric name) ++ ("**".toList ++ rest)) =
        some ([' '] ++ prose isAlphanumeric name).length := by
    have hnone : '*' ∉ [' '] ++ prose isAlphanumeric name := by simpa using hname
    have hfound := @find_append _ _ _ ['*'] _ hnone rest
    simpa using hfound
  rw [afterRule, hstart, hopener, List.append_assoc, stripPrefix_append, ← List.append_assoc [' ']]
  dsimp only
  rw [hmark, Option.map_some, ← List.append_assoc _ "**".toList,
    show ([' '] ++ prose isAlphanumeric name).length + 2 =
      ([' '] ++ prose isAlphanumeric name ++ "**".toList).length by simp, List.drop_left]

/-- No stop is before the dot of the footer. -/
theorem dot_mem_take
    (hrest : rest = [] ∨ ∃ explanation, rest = ": ".toList ++ prose isAlphanumeric explanation)
    (behind : Text) :
    '·' ∈ (rest ++ [' ', '·'] ++ behind).take (stopIn (rest ++ [' ', '·'] ++ behind)) := by
  obtain ⟨before, explanation, hbefore, hspaced⟩ : ∃ before explanation,
      (∀ c ∈ ['<', '\x60', '*', '\n'], c ∉ before) ∧
        rest ++ [' '] = before ++ (prose isAlphanumeric explanation ++ [' ']) := by
    rcases hrest with rfl | ⟨explanation, rfl⟩
    · exact ⟨[], [], by simp, rfl⟩
    · exact ⟨": ".toList, explanation, by decide, List.append_assoc _ _ _⟩
  have hmarks : ∀ c ∈ ['<', '\x60', '*'], c ∉ before := by
    intro c hc
    apply hbefore
    simp only [List.mem_cons, List.not_mem_nil, or_false] at hc ⊢
    tauto
  have hbreak : '\n' ∉ rest ++ [' '] := by
    have hquiet := quiet_prose isAlphanumeric (d := '\n') (by simp) explanation
    have hnone := hbefore '\n' (by simp)
    rw [hspaced]
    simp [hquiet, hnone]
  have hstops : ∀ stop ∈ textStops, '·' ∉ stop ∧ stop ≠ [] ∧ ¬stop <:+: rest ++ [' '] := by
    intro stop hmem
    rcases textStops_cases hmem with rfl | hkind
    · exact ⟨by decide, by decide, fun hwithin => hbreak (hwithin.subset (by decide))⟩
    · rw [hspaced]
      exact ⟨hkind.undivided, hkind.ne, hkind.not_infix isAlphanumeric hmarks (by simp) _⟩
  have hlong : (rest ++ [' ', '·']).length ≤ stopIn (rest ++ [' ', '·'] ++ behind) := by
    apply stopIn_le
    intro stop hmem i hfound
    obtain ⟨hdot, hne, hnot⟩ := hstops stop hmem
    have hsplit : rest ++ [' ', '·'] ++ behind = (rest ++ [' ']) ++ '·' :: behind := by simp
    rw [hsplit, find_append_sep_of_not_infix hdot hne hnot] at hfound
    obtain ⟨j, -, rfl⟩ := Option.map_eq_some_iff.mp hfound
    simp
  have htake : rest ++ [' ', '·'] <+: (rest ++ [' ', '·'] ++ behind).take
      (stopIn (rest ++ [' ', '·'] ++ behind)) :=
    List.prefix_take_iff.mpr ⟨List.prefix_append _ _, hlong⟩
  exact htake.subset (by simp)

/-- With an empty body over a bare rule line the footer is read as text. -/
theorem textIn_of_blank (htitle : titleIn body = some title)
    (htail : afterTitle body = some (paragraph (prose isAlphanumeric f.body) ++
      (ruleLine isAlphanumeric f.rule ++ footer sha256 f)))
    (hblank : trim (prose isAlphanumeric f.body) = []) (hhead : trim (ruleHead f.rule) ≠ [])
    (hrule : RulePlain isAlphanumeric f.rule) : (textIn body).getD [] ≠ f.body := by
  obtain ⟨name, rest, hline, hname, hrest⟩ := ruleLine_of_plain isAlphanumeric hhead hrule
  have hfooter : rest ++ footer sha256 f = rest ++ [' ', '·'] ++
      (' ' :: (aliasMarker f ++ fingerprintMarker (f.known sha256))) := by simp [footer]
  have hafter : afterRule (paragraph (prose isAlphanumeric f.body) ++
      (ruleLine isAlphanumeric f.rule ++ footer sha256 f)) = some (rest ++ footer sha256 f) := by
    rw [hline, List.append_assoc, List.append_assoc, List.append_assoc]
    exact afterRule_of_blank isAlphanumeric hblank hname
  have hdot : '·' ∈ (textIn body).getD [] := by
    rw [getD_textIn htitle (by rw [htail, Option.bind_some, hafter]), hfooter]
    exact mem_trim (by decide) (dot_mem_take isAlphanumeric hrest _)
  intro h
  rw [h] at hdot
  have hshown := mem_trim (by decide) (dot_mem_prose isAlphanumeric hdot)
  rw [hblank] at hshown
  exact List.not_mem_nil hshown

theorem prose_mark : prose isAlphanumeric "---".toList = "---".toList := rfl

/-- The text read is the body: one that prose shows, other than the mark of a group, and an empty
one over a change only. -/
theorem textIn_iff (htitle : titleIn body = some title)
    (hrest : Follows isAlphanumeric sha256 f rest)
    (htail : afterTitle body = some (paragraph (prose isAlphanumeric f.body) ++ rest))
    (hhead : trim (ruleHead f.rule) ≠ [])
    (hrule : f.applicable = none → RulePlain isAlphanumeric f.rule) :
    (textIn body).getD [] = f.body ↔
      Plain isAlphanumeric f.body ∧ f.body ≠ "---".toList ∧
        (f.body = [] → f.applicable.isSome) := by
  rw [← verbatim_iff_plain]
  by_cases hbare : f.applicable = none ∧ trim (prose isAlphanumeric f.body) = []
  · obtain ⟨hnone, hblank⟩ := hbare
    cases hrest with
    | bare _ =>
      refine iff_of_false
        (textIn_of_blank isAlphanumeric sha256 htitle htail hblank hhead (hrule hnone)) ?_
      rintro ⟨hverbatim, -, hchange⟩
      have hempty : f.body = [] := by
        rw [← hblank]
        exact hverbatim.symm
      simpa [hnone] using hchange hempty
    | change hsome _ =>
      rw [hnone] at hsome
      cases hsome
  · have hafter := afterRule_paragraph isAlphanumeric sha256 hrest
      fun hnone hblank => hbare ⟨hnone, hblank⟩
    rw [getD_textIn htitle (by rw [htail, Option.bind_some, hafter]),
      trim_take_paragraph isAlphanumeric sha256 hrest]
    split
    · next hmark =>
      refine iff_of_false ?_ ?_
      · intro hempty
        rw [← hempty] at hmark
        cases hmark
      · rintro ⟨hverbatim, hother, -⟩
        have hself : trim (prose isAlphanumeric f.body) = f.body := hverbatim
        rw [hmark] at hself
        exact hother hself.symm
    · next hmark =>
      constructor
      · intro hself
        refine ⟨hself, ?_, ?_⟩
        · intro hbody
          rw [hbody, prose_mark] at hmark
          exact hmark rfl
        · intro hempty
          rw [hempty] at hself
          exact Option.isSome_iff_ne_none.mpr fun hnone => hbare ⟨hnone, by rw [hempty, hself]⟩
      · rintro ⟨hself, -, -⟩
        exact hself

end Body

section ReadBack

variable [Confidence κ] (sha256 : Text → List UInt8)

/-- What the readers of posted comments get is the finding's own. -/
structure ReadsBack (f : Finding κ) (body : Text) : Prop where
  fingerprints : fingerprintsIn body = (f.known sha256 :: publishedAliases f).eraseDups
  severity : severityIn body = some f.severity
  lane : laneIn body = some f.lane
  title : titleIn body = some f.title
  rule : ruleIn body = some (ruleHead f.rule)
  text : (textIn body).getD [] = f.body

/-- The finding shows in its comment. -/
structure Shown (f : Finding κ) : Prop where
  title : Plain isAlphanumeric f.title
  rule : RuleShown isAlphanumeric f
  body : Plain isAlphanumeric f.body
  unmarked : f.body ≠ "---".toList
  explained : f.body = [] → f.applicable.isSome

variable {f : Finding κ}

theorem fingerprintsIn_commentBody (hidentity : isFingerprint (f.known sha256) = true) :
    fingerprintsIn (commentBody isAlphanumeric sha256 f) =
      (f.known sha256 :: publishedAliases f).eraseDups := by
  unfold commentBody
  refine fingerprintsIn_append f ?_ hidentity
  rw [List.getLast?_append]
  rfl

theorem severityIn_commentBody :
    severityIn (commentBody isAlphanumeric sha256 f) = some f.severity := by
  rw [commentBody_eq, beforeTitle, List.append_assoc]
  exact severityIn_headOf _ _ _ _

theorem laneIn_commentBody : laneIn (commentBody isAlphanumeric sha256 f) = some f.lane := by
  rw [commentBody_eq, beforeTitle, List.append_assoc]
  exact laneIn_headOf _ _ _ _

theorem titleIn_commentBody (htitle : trim f.title ≠ []) :
    titleIn (commentBody isAlphanumeric sha256 f) = some f.title ↔
      Plain isAlphanumeric f.title := by
  rw [commentBody_eq, titleIn_append, ← verbatim_iff_plain, ← read_iff_verbatim]
  split
  · next hblank =>
    rw [hblank]
    refine iff_of_false nofun fun h => htitle ?_
    rw [← h]
    rfl
  · rw [Option.some.injEq]

theorem body_of_inlineComment {diffs : List FileDiff} {comment : ReviewComment}
    (h : inlineComment isAlphanumeric sha256 diffs f = some comment) :
    comment.body = commentBody isAlphanumeric sha256 f := by
  obtain ⟨⟨start, line⟩, -, h⟩ := Option.bind_eq_some_iff.mp h
  dsimp only at h
  split_ifs at h <;>
    · cases h
      rfl

/-- A published comment gives back the finding it was rendered from just where the finding shows
in it. -/
theorem readsBack_iff_shown (diffs : List FileDiff) {comment : ReviewComment}
    (hidentity : isFingerprint (f.known sha256) = true) (htitle : trim f.title ≠ [])
    (hhead : trim (ruleHead f.rule) ≠ [])
    (hcomment : inlineComment isAlphanumeric sha256 diffs f = some comment) :
    ReadsBack sha256 f comment.body ↔ Shown isAlphanumeric f := by
  rw [body_of_inlineComment isAlphanumeric sha256 hcomment]
  obtain ⟨rest, hrest, htail⟩ := commentTail_eq isAlphanumeric sha256 f
  have htext : Plain isAlphanumeric f.title → RuleShown isAlphanumeric f →
      ((textIn (commentBody isAlphanumeric sha256 f)).getD [] = f.body ↔
        Plain isAlphanumeric f.body ∧ f.body ≠ "---".toList ∧
          (f.body = [] → f.applicable.isSome)) := by
    intro hplain hshown
    apply textIn_iff isAlphanumeric sha256
      ((titleIn_commentBody isAlphanumeric sha256 htitle).mpr hplain) hrest ?_ hhead
    · intro hnone
      simpa [RuleShown, hnone] using hshown
    · rw [commentBody_eq, afterTitle_append isAlphanumeric _ _ _ _ _
        (hplain.verbatim isAlphanumeric), htail]
  constructor
  · intro h
    have hplain := (titleIn_commentBody isAlphanumeric sha256 htitle).mp h.title
    have hrule := (ruleIn_commentBody_iff isAlphanumeric sha256 f hhead).mp h.rule
    obtain ⟨hself, hunmarked, hexplained⟩ := (htext hplain hrule).mp h.text
    exact ⟨hplain, hrule, hself, hunmarked, hexplained⟩
  · rintro ⟨hplain, hrule, hself, hunmarked, hexplained⟩
    exact {
      fingerprints := fingerprintsIn_commentBody isAlphanumeric sha256 hidentity
      severity := severityIn_commentBody isAlphanumeric sha256
      lane := laneIn_commentBody isAlphanumeric sha256
      title := (titleIn_commentBody isAlphanumeric sha256 htitle).mpr hplain
      rule := (ruleIn_commentBody_iff isAlphanumeric sha256 f hhead).mpr hrule
      text := (htext hplain hrule).mpr ⟨hself, hunmarked, hexplained⟩ }

end ReadBack

/-- A finding on the second line of a file. -/
def onLineTwo (title : Text) : Finding ℕ where
  lane := .critique
  severity := .high
  confidence := 80
  path := "src/a.rs".toList
  line := some 2
  endLine := none
  rule := "Bug: an index can be past the end".toList
  title
  body := "The loop reads one more".toList
  suggestion := none
  applicable := none
  late := false
  identity := some "0123456789abcdef".toList
  aliases := ["fedcba9876543210".toList, "not one".toList]
  grouped := false
  reviewPass := 1
  corroboration := 1

def twoLines : FileDiff := parseFilePatch "src/a.rs".toList "@@ -1,1 +1,2 @@\n a\n+b\n".toList

/-- The comment on a finding of the file with two lines. -/
def onLineTwo.comment (title : Text) : ReviewComment where
  path := "src/a.rs".toList
  line := some 2
  startLine := none
  author := []
  body := commentBody Char.isAlphanum (fun _ => []) (onLineTwo title)

theorem inlineComment_onLineTwo (title : Text) :
    inlineComment Char.isAlphanum (fun _ => []) [twoLines] (onLineTwo title) =
      some (onLineTwo.comment title) := by
  have hwithin : ([twoLines].reverse.find? fun diff => diff.path = "src/a.rs".toList).any
      (·.withinHunk 2 2) = true := by decide +kernel
  rw [inlineComment, show (onLineTwo title).publishedRange = some (2, 2) from rfl, Option.bind_some]
  exact if_pos hwithin

theorem readsBack_iff_shown_onLineTwo : ReadsBack (fun _ => []) (onLineTwo "Guard it".toList)
    (onLineTwo.comment "Guard it".toList).body := by
  refine (readsBack_iff_shown Char.isAlphanum (fun _ => []) [twoLines] (by decide) (by decide)
    (by decide) (inlineComment_onLineTwo _)).mpr ?_
  exact {
    title := (verbatim_iff_plain _).mp (by decide +kernel)
    rule := {
      head := (verbatim_iff_plain _).mp (by decide +kernel)
      explained := by
        intro head rest hsplit
        have hparts : splitOnce ':' "Bug: an index can be past the end".toList =
          some ("Bug".toList, " an index can be past the end".toList) := by decide
        cases hparts.symm.trans hsplit
        decide }
    body := (verbatim_iff_plain _).mp (by decide +kernel)
    unmarked := by decide
    explained := nofun }

/-- A title with code in it is read back with the references it was escaped to. -/
theorem code_title_differs : ∃ comment,
    inlineComment Char.isAlphanum (fun _ => []) [twoLines] (onLineTwo "Guard \x60it\x60".toList) =
        some comment ∧
      titleIn comment.body = some "Guard &#96;it&#96;".toList ∧
      ¬ReadsBack (fun _ => []) (onLineTwo "Guard \x60it\x60".toList) comment.body := by
  have htitle : titleIn (onLineTwo.comment "Guard \x60it\x60".toList).body =
      some "Guard &#96;it&#96;".toList := by decide +kernel
  refine ⟨_, inlineComment_onLineTwo _, htitle, fun h => ?_⟩
  have hsame := htitle.symm.trans h.title
  revert hsame
  decide

end TinySweeper.App
