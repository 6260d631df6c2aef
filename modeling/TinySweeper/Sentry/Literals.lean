import TinySweeper.Sentry.Bearer

/-!
# Configured patterns through a pass

Removing a literal leaves stretches that do not hold it. The elision mark joins them
to no new occurrence, except of a pattern that holds the mark itself.
-/

namespace TinySweeper.Sentry

open Text

variable {lower : Lowercase} {needle : Text} {text rest found behind : Text}

/-- The needle occurs nowhere. -/
def LiteralFree (lower : Lowercase) (needle text : Text) : Prop :=
  ∀ rest, rest <:+ text → startsWith lower needle rest = none

/-- The needle occurs at most in the elision mark. -/
def Elides (lower : Lowercase) (needle text : Text) : Prop :=
  ∀ rest found behind, rest <:+ text → startsWith lower needle rest = some (found, behind) →
    found = ELIDED

theorem LiteralFree.elides (h : LiteralFree lower needle text) : Elides lower needle text := by
  intro rest found behind hrest hstarts
  rw [h rest hrest] at hstarts
  cases hstarts

/-- A match in a text is a match in every longer one. -/
theorem startsWith_append (h : startsWith lower needle rest = some (found, behind)) (after : Text) :
    startsWith lower needle (rest ++ after) = some (found, behind ++ after) := by
  obtain ⟨rfl, hspells⟩ := startsWith_eq_some_iff.mp h
  exact startsWith_eq_some_iff.mpr ⟨List.append_assoc found behind after, hspells⟩

theorem startsWith_eq_none_of_append {after : Text}
    (h : startsWith lower needle (rest ++ after) = none) : startsWith lower needle rest = none := by
  cases hstarts : startsWith lower needle rest with
  | none => rfl
  | some parts =>
    rw [startsWith_append hstarts after] at h
    cases h

theorem ellipsis_of_mem {c : Char} (h : '…' ∈ lower.toLowercase c) : c = '…' := by
  have hlow := lower.alone c '…' h (.inr rfl)
  rcases toLower_cases c with hsame | hupper
  · rw [← hsame, hlow]
  · have hvalue : ('…' : Char).toNat = 8230 := by decide
    rw [hlow, hvalue] at hupper
    omega

/-- Only a needle with the elision mark matches it. -/
theorem notMem_of_spells (hneedle : '…' ∉ needle) (h : Spells lower needle found) :
    '…' ∉ found := by
  intro hmem
  have hfolded : '…' ∈ found.flatMap lower.toLowercase :=
    List.mem_flatMap.mpr ⟨'…', hmem, by rw [lower.ellipsis]; exact List.mem_singleton_self _⟩
  rw [h] at hfolded
  obtain ⟨c, hc, hfold⟩ := List.mem_flatMap.mp hfolded
  exact hneedle (ellipsis_of_mem hfold ▸ hc)

/-- Stretches without the needle are joined by the mark to a text without it. -/
theorem literalFree_written (hneedle : '…' ∉ needle) {cutting : Cutting Char}
    (h : ∀ stretch ∈ cutting.stretches, LiteralFree lower needle stretch) :
    LiteralFree lower needle (cutting.written ELIDED) := by
  obtain ⟨pairs, last⟩ := cutting
  induction pairs with
  | nil => exact h last (List.mem_singleton_self last)
  | cons pair pairs ih =>
    obtain ⟨stretch, span⟩ := pair
    have hlater := ih fun other hother => h other (List.mem_cons_of_mem stretch hother)
    have hstretch := h stretch List.mem_cons_self
    intro rest hrest
    rw [Cutting.written_of_pairs_cons, ELIDED, List.singleton_append] at hrest
    cases hstarts : startsWith lower needle rest with
    | none => rfl
    | some parts =>
      obtain ⟨found, behind⟩ := parts
      obtain ⟨hparts, hspells⟩ := startsWith_eq_some_iff.mp hstarts
      have hnot := notMem_of_spells hneedle hspells
      rcases suffix_append_cases hrest with hbehind | ⟨inside, hinside, hsuffix⟩
      · rcases List.suffix_cons_iff.mp hbehind with hmark | hlast
        · cases found with
          | nil =>
            have hempty := hstretch [] List.nil_suffix
            have hhere : startsWith lower needle [] = some ([], []) :=
              startsWith_eq_some_iff.mpr ⟨rfl, hspells⟩
            rw [hhere] at hempty
            cases hempty
          | cons c found =>
            rw [hmark, List.cons_append, List.cons.injEq] at hparts
            exact absurd (hparts.1 ▸ List.mem_cons_self) hnot
        · rw [← hstarts]
          exact hlater rest hlast
      · -- the match ends before the mark, so within the stretch
        rw [hinside] at hparts
        rcases List.append_eq_append_iff.mp hparts with ⟨more, rfl, hmore⟩ | ⟨left, rfl, -⟩
        · cases more with
          | nil =>
            have hwithin := hstretch inside hsuffix
            rw [List.append_nil] at hspells
            rw [startsWith_eq_some_iff.mpr ⟨(List.append_nil inside).symm, hspells⟩] at hwithin
            cases hwithin
          | cons c more =>
            rw [List.cons_append, List.cons.injEq] at hmore
            exact absurd (List.mem_append_right _ (hmore.1 ▸ List.mem_cons_self)) hnot
        · have hwithin := hstretch _ hsuffix
          rw [startsWith_eq_some_iff.mpr ⟨rfl, hspells⟩] at hwithin
          cases hwithin

/-- Every stretch of a text without the needle is without it. -/
theorem LiteralFree.stretches {cutting : Cutting Char}
    (h : LiteralFree lower needle cutting.source) :
    ∀ stretch ∈ cutting.stretches, LiteralFree lower needle stretch := by
  obtain ⟨pairs, last⟩ := cutting
  induction pairs with
  | nil =>
    intro stretch hstretch
    rw [List.mem_singleton.mp hstretch]
    exact h
  | cons pair pairs ih =>
    obtain ⟨first, span⟩ := pair
    rw [Cutting.source_of_pairs_cons] at h
    intro stretch hstretch
    rcases List.mem_cons.mp hstretch with rfl | hlater
    · intro rest hrest
      exact startsWith_eq_none_of_append (h _ (append_suffix_append hrest _))
    · refine ih (fun rest hrest => h rest (hrest.trans ?_)) stretch hlater
      exact (List.suffix_append span _).trans (List.suffix_append first _)

theorem cutLiteralFrom_skip (front rest : Text) :
    cutLiteralFrom lower needle front.length (front ++ rest) = cutLiteralFrom lower needle 0 rest := by
  induction front with
  | nil => rfl
  | cons c front ih => rw [List.length_cons, List.cons_append, cutLiteralFrom, ih]

theorem cutLiteralFrom_none (h : LiteralFree lower needle text) :
    cutLiteralFrom lower needle 0 text = .whole text := by
  induction text with
  | nil => rfl
  | cons c text ih =>
    rw [cutLiteralFrom, h _ List.suffix_rfl,
      ih fun rest hrest => h rest (hrest.trans (List.suffix_cons c text))]
    rfl

theorem cutLiteralFrom_earliest (hneedle : needle ≠ []) {before : Text}
    (h : Earliest lower needle before found behind) :
    cutLiteralFrom lower needle 0 (before ++ (found ++ behind)) =
      ((cutLiteralFrom lower needle 0 behind).cut found).keep before := by
  obtain ⟨hhere, hfirst⟩ := h
  induction before with
  | nil =>
    have hne : found ≠ [] := (startsWith_eq_some_iff.mp hhere).2.ne_nil hneedle
    cases found with
    | nil => exact absurd rfl hne
    | cons c found =>
      rw [List.cons_append] at hhere
      rw [List.nil_append, List.cons_append, cutLiteralFrom, hhere]
      dsimp only
      rw [List.length_cons, Nat.add_sub_cancel, cutLiteralFrom_skip, Cutting.keep_nil]
  | cons c before ih =>
    have hnone := hfirst (c :: before) List.suffix_rfl (List.cons_ne_nil _ _)
    have hlater := ih (fun tail htail => hfirst tail (htail.trans (List.suffix_cons c before)))
    rw [List.cons_append] at hnone ⊢
    rw [cutLiteralFrom, hnone]
    dsimp only
    rw [hlater, Cutting.keep_keep]
    rfl

variable (lower) in
/-- What the search keeps and cuts: its source, stretches without the needle, matches. -/
theorem cutLiteralFrom_spec (hneedle : needle ≠ []) (text : Text) :
    (cutLiteralFrom lower needle 0 text).source = text ∧
      (∀ stretch ∈ (cutLiteralFrom lower needle 0 text).stretches,
        LiteralFree lower needle stretch) ∧
      ∀ pair ∈ (cutLiteralFrom lower needle 0 text).pairs, ∃ rest behind, rest <:+ text ∧
        startsWith lower needle rest = some (pair.2, behind) := by
  induction hlen : text.length using Nat.strong_induction_on generalizing text with
  | _ n ih =>
    subst hlen
    rcases match_cases needle lower hneedle text with hnone | ⟨before, found, behind, rfl, hfirst⟩
    · rw [cutLiteralFrom_none hnone]
      refine ⟨rfl, ?_, nofun⟩
      intro stretch hstretch
      rw [Cutting.stretches_whole, List.mem_singleton] at hstretch
      rw [hstretch]
      exact hnone
    · have hshort := hfirst.length_lt hneedle 0
      rw [List.drop_zero] at hshort
      obtain ⟨hsource, hstretches, hpairs⟩ := ih _ hshort behind rfl
      rw [cutLiteralFrom_earliest hneedle hfirst]
      refine ⟨by rw [Cutting.source_keep, Cutting.source_cut, hsource], ?_, ?_⟩
      · intro stretch hstretch
        rcases List.mem_cons.mp hstretch with rfl | hlater
        · rw [List.append_nil]
          intro rest hrest
          by_cases hnil : rest = []
          · rw [hnil, startsWith_nil lower hneedle]
          · exact startsWith_eq_none_of_append (hfirst.first rest hrest hnil)
        · exact hstretches stretch hlater
      · intro pair hpair
        rcases List.mem_cons.mp hpair with rfl | hlater
        · exact ⟨found ++ behind, behind, List.suffix_append before _, hfirst.here⟩
        · obtain ⟨rest, after, hrest, hstarts⟩ := hpairs pair hlater
          exact ⟨rest, after, hrest.trans ((List.suffix_append found behind).trans
            (List.suffix_append before _)), hstarts⟩

theorem removeLiteralFrom_eq (hneedle : needle ≠ []) (rounds : ℕ) (front rest out : Text)
    (hrounds : rest.length < rounds) :
    removeLiteralFrom lower (front ++ rest) needle rounds (utf8Len front) out =
      some (out ++ (cutLiteralFrom lower needle 0 rest).written ELIDED) := by
  induction rounds generalizing front rest out with
  | zero => exact absurd hrounds (Nat.not_lt_zero _)
  | succ rounds ih =>
    have hsplit : splitAtByte (utf8Len front) (front ++ rest) = some (front, rest) :=
      splitAtByte_eq_some_iff.mpr ⟨rfl, rfl⟩
    rw [removeLiteralFrom, hsplit, Option.bind_eq_bind, Option.bind_some]
    dsimp only
    rcases match_cases needle lower hneedle rest with hnone | ⟨before, found, behind, rfl, hfirst⟩
    · rw [findCi_eq_none hneedle hnone, cutLiteralFrom_none hnone]
      rfl
    · have hshort := hfirst.length_lt hneedle 0
      rw [List.drop_zero] at hshort
      have hwhole : front ++ (before ++ (found ++ behind)) =
          (front ++ before) ++ (found ++ behind) := (List.append_assoc _ _ _).symm
      have hagain : (front ++ before) ++ (found ++ behind) =
          (front ++ (before ++ found)) ++ behind := by
        simp only [List.append_assoc]
      have hstart : utf8Len front + utf8Len before = utf8Len (front ++ before) :=
        (utf8Len_append front before).symm
      have hstop : utf8Len front + (utf8Len before + utf8Len found) =
          utf8Len (front ++ (before ++ found)) := by
        simp only [utf8Len_append]
      have hstartSplit : splitAtByte (utf8Len (front ++ before))
          ((front ++ before) ++ (found ++ behind)) = some (front ++ before, found ++ behind) :=
        splitAtByte_eq_some_iff.mpr ⟨rfl, rfl⟩
      have hstopSplit : splitAtByte (utf8Len (front ++ (before ++ found)))
          ((front ++ before) ++ (found ++ behind)) = some (front ++ (before ++ found), behind) :=
        splitAtByte_eq_some_iff.mpr ⟨hagain, rfl⟩
      have hkept := byteSlice_front front before (found ++ behind)
      rw [findCi_eq_some hneedle hfirst]
      dsimp only
      rw [hstart, hstop, hwhole, hstartSplit, hstopSplit, if_neg (by simp), hkept,
        Option.bind_eq_bind, Option.bind_some, hagain, ih (front ++ (before ++ found)) behind _ (by omega),
        cutLiteralFrom_earliest hneedle hfirst]
      simp [List.append_assoc]

/-- The search never panics and comes to an end. -/
theorem removeLiteralCi_eq (hneedle : needle ≠ []) (text : Text) :
    removeLiteralCi lower text needle = some ((cutLiteral lower needle text).written ELIDED) := by
  have h : removeLiteralFrom lower _ _ _ _ _ = _ :=
    removeLiteralFrom_eq hneedle (text.length + 1) [] text [] (Nat.lt_succ_self _)
  simpa [removeLiteralCi, cutLiteral] using h

/-- Where the needle occurs in elision marks only nothing changes. -/
theorem removeLiteralCi_of_elides (hneedle : needle ≠ []) (h : Elides lower needle text) :
    removeLiteralCi lower text needle = some text := by
  obtain ⟨hsource, -, hpairs⟩ := cutLiteralFrom_spec lower hneedle text
  rw [removeLiteralCi_eq hneedle, cutLiteral, Cutting.written_eq_source, hsource]
  intro pair hpair
  obtain ⟨rest, behind, hrest, hstarts⟩ := hpairs pair hpair
  exact h rest pair.2 behind hrest hstarts

/-- The marks that are set complete no occurrence: what the needle matches in the result is a
mark, or was kept in one piece. -/
def KeptWhole (lower : Lowercase) (needle : Text) (cutting : Cutting Char) : Prop :=
  ∀ rest found behind, rest <:+ cutting.written ELIDED →
    startsWith lower needle rest = some (found, behind) →
      found = ELIDED ∨ ∃ stretch ∈ cutting.stretches, found <:+: stretch

/-- A match that is part of a text is one in that text. -/
theorem exists_startsWith_of_infix (h : startsWith lower needle rest = some (found, behind))
    (htext : found <:+: text) :
    ∃ rest' behind', rest' <:+ text ∧ startsWith lower needle rest' = some (found, behind') := by
  obtain ⟨front, after, rfl⟩ := htext
  refine ⟨found ++ after, after, ?_, ?_⟩
  · rw [List.append_assoc]
    exact List.suffix_append front _
  · exact startsWith_eq_some_iff.mpr ⟨rfl, (startsWith_eq_some_iff.mp h).2⟩

/-- Removing a pattern leaves it at most in marks, where one that holds the mark is completed by
none. -/
theorem elides_removed (hneedle : needle ≠ []) (text : Text)
    (hheld : '…' ∈ needle → KeptWhole lower needle (cutLiteral lower needle text)) :
    Elides lower needle ((cutLiteral lower needle text).written ELIDED) := by
  have hstretches := (cutLiteralFrom_spec lower hneedle text).2.1
  by_cases hmark : '…' ∈ needle
  · intro rest found behind hrest hstarts
    rcases hheld hmark rest found behind hrest hstarts with hfound | ⟨stretch, hstretch, hinfix⟩
    · exact hfound
    · -- an occurrence in a stretch would have been cut
      obtain ⟨rest', behind', hrest', hstarts'⟩ := exists_startsWith_of_infix hstarts hinfix
      rw [hstretches stretch hstretch rest' hrest'] at hstarts'
      cases hstarts'
  · exact (literalFree_written hmark hstretches).elides

/-- A pattern removed earlier stays removed. -/
theorem elides_kept {other : Text} (hneedle : needle ≠ []) (h : Elides lower other text)
    (hheld : '…' ∈ other → KeptWhole lower other (cutLiteral lower needle text)) :
    Elides lower other ((cutLiteral lower needle text).written ELIDED) := by
  have hsource : (cutLiteral lower needle text).source = text :=
    (cutLiteralFrom_spec lower hneedle text).1
  by_cases hmark : '…' ∈ other
  · intro rest found behind hrest hstarts
    rcases hheld hmark rest found behind hrest hstarts with hfound | ⟨stretch, hstretch, hinfix⟩
    · exact hfound
    · have hwithin := hinfix.trans (Cutting.infix_source_of_mem hstretch)
      rw [hsource] at hwithin
      obtain ⟨rest', behind', hrest', hstarts'⟩ := exists_startsWith_of_infix hstarts hwithin
      exact h rest' found behind' hrest' hstarts'
  · have hfree : LiteralFree lower other text := by
      intro rest hrest
      cases hstarts : startsWith lower other rest with
      | none => rfl
      | some parts =>
        obtain ⟨found, behind⟩ := parts
        have hnot := notMem_of_spells hmark (startsWith_eq_some_iff.mp hstarts).2
        rw [h rest found behind hrest hstarts] at hnot
        exact absurd (List.mem_singleton_self _) hnot
    apply LiteralFree.elides
    apply literalFree_written hmark
    apply LiteralFree.stretches
    rwa [hsource]

end TinySweeper.Sentry
