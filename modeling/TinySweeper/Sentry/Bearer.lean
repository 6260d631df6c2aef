import TinySweeper.Sentry.Shapes

/-!
# Bearer credentials through a pass

The scan from byte to byte cuts the words behind the keyword. Where every credential
stands one space behind a keyword the scan comes by, what it leaves introduces none.
-/

namespace TinySweeper.Sentry

open Text

variable {lower : Lowercase} {text rest found behind mark before inside : Text}

theorem wordOf_append_drop (text : Text) :
    wordOf text ++ text.drop (wordOf text).length = text := by
  have hparts := List.takeWhile_append_dropWhile (p := fun c => !isWhitespace c) (l := text)
  have hdrop : text.drop (wordOf text).length = text.dropWhile fun c => !isWhitespace c :=
    List.append_cancel_left_eq (wordOf text) _ _ |>.mp
      ((List.prefix_iff_eq_append.mp (List.takeWhile_prefix _)).trans hparts.symm)
  rw [hdrop]
  exact hparts

theorem wordOf_append {word after : Text} (hword : ∀ c ∈ word, isWhitespace c = false)
    (hafter : ∀ c ∈ after.head?, isWhitespace c = true) : wordOf (word ++ after) = word := by
  unfold wordOf
  rw [List.takeWhile_append_of_pos fun c hc => by simp [hword c hc]]
  cases after with
  | nil => simp
  | cons c after =>
    have hc := hafter c rfl
    simp [hc]

/-- A character that is no whitespace belongs to the word before it. -/
theorem mem_wordOf_append {g : Char} (hg : isWhitespace g = false)
    (htext : ∀ c ∈ text, isWhitespace c = false) : g ∈ wordOf (text ++ g :: rest) := by
  unfold wordOf
  rw [List.takeWhile_append_of_pos fun c hc => by simp [htext c hc],
    List.takeWhile_cons_of_pos (by simp [hg])]
  simp

/-- A word that whitespace ends is the same in every longer text. -/
theorem wordOf_append_of_exists (h : ∃ c ∈ text, isWhitespace c = true) (rest : Text) :
    wordOf (text ++ rest) = wordOf text := by
  induction text with
  | nil => simp at h
  | cons d text ih =>
    by_cases hd : isWhitespace d = true
    · simp [wordOf, hd]
    · rw [Bool.not_eq_true] at hd
      have hlater := ih (by simpa [hd] using h)
      simpa [wordOf, hd] using hlater

theorem startsWith_keyword_iff : startsWith lower "bearer".toList rest = some (found, behind) ↔
      rest = found ++ behind ∧ found.map Char.toLower = "bearer".toList := by
  rw [startsWith_eq_some_iff, spells_iff_of_plain (by decide)]

theorem startsWith_spaced_iff : startsWith lower "bearer ".toList rest = some (found, behind) ↔
      rest = found ++ behind ∧ found.map Char.toLower = "bearer ".toList := by
  rw [startsWith_eq_some_iff, spells_iff_of_plain (by decide)]

theorem introduces_iff : introduces lower rest = true ↔
    ∃ found behind, rest = found ++ behind ∧ found.map Char.toLower = "bearer".toList ∧
      behind.head?.any isWhitespace = true ∧
        isCredentialShaped (wordOf (behind.dropWhile isWhitespace)) = true := by
  unfold introduces
  constructor
  · intro h
    split at h
    · cases h
    · next found behind hstarts =>
      obtain ⟨hparts, hfound⟩ := startsWith_keyword_iff.mp hstarts
      rw [Bool.and_eq_true] at h
      exact ⟨found, behind, hparts, hfound, h⟩
  · rintro ⟨found, behind, hparts, hfound, h⟩
    rw [startsWith_keyword_iff.mpr ⟨hparts, hfound⟩]
    rw [← Bool.and_eq_true] at h
    exact h

/-- A character that no keyword, whitespace or credential holds. -/
structure Guards (g : Char) : Prop where
  solid : isWhitespace g = false
  notCredential : isCredentialChar g = false
  notKeyword : g.toLower ∉ "bearer".toList

theorem guards_bracket : Guards '[' := ⟨by decide, by decide, by decide⟩

theorem guards_ellipsis : Guards '…' := ⟨by decide, by decide, by decide⟩

theorem not_mem_of_credential {word : Text} {g : Char} (hword : isCredentialShaped word = true)
    (hg : isCredentialChar g = false) : g ∉ word := by
  intro hmem
  have hall := (Bool.and_eq_true_iff.mp hword).2
  rw [List.all_eq_true.mp hall g hmem] at hg
  cases hg

/-- What is introduced before a guard is introduced whatever stands in its place. -/
theorem introduces_of_guard {g : Char} (hg : Guards g) {other : Text}
    (h : introduces lower (text ++ g :: rest) = true) :
    introduces lower (text ++ other) = true := by
  obtain ⟨found, behind, hparts, hfound, hblank, hword⟩ := introduces_iff.mp h
  have hnotFound : g ∉ found := by
    intro hmem
    exact hg.notKeyword (hfound ▸ List.mem_map_of_mem hmem)
  obtain ⟨middle, rfl, rfl⟩ : ∃ middle, text = found ++ middle ∧ behind = middle ++ g :: rest := by
    rcases List.append_eq_append_iff.mp hparts with ⟨inside, hinside, htail⟩ | ⟨middle, rfl, rfl⟩
    · cases inside with
      | nil => exact ⟨[], by simpa using hinside.symm, by simpa using htail.symm⟩
      | cons c inside =>
        rw [List.cons_append, List.cons.injEq] at htail
        exact absurd (hinside ▸ List.mem_append_right _ (htail.1 ▸ List.mem_cons_self)) hnotFound
    · exact ⟨middle, rfl, rfl⟩
  -- the blank and the word end before the guard
  have hsplit : ∀ middle : Text,
      isCredentialShaped (wordOf ((middle ++ g :: rest).dropWhile isWhitespace)) = true →
        isCredentialShaped (wordOf ((middle ++ other).dropWhile isWhitespace)) = true := by
    intro middle hword
    induction middle with
    | nil =>
      rw [List.nil_append, List.dropWhile_cons_of_neg (by simp [hg.solid])] at hword
      exact absurd (mem_wordOf_append hg.solid (List.forall_mem_nil _))
        (not_mem_of_credential hword hg.notCredential)
    | cons c middle ih =>
      by_cases hc : isWhitespace c = true
      · rw [List.cons_append, List.dropWhile_cons_of_pos hc] at hword ⊢
        exact ih hword
      · rw [List.cons_append, List.dropWhile_cons_of_neg hc, ← List.cons_append] at hword ⊢
        by_cases hends : ∃ d ∈ c :: middle, isWhitespace d = true
        · rw [wordOf_append_of_exists hends] at hword ⊢
          exact hword
        · have hsolid : ∀ d ∈ c :: middle, isWhitespace d = false := by
            intro d hd
            rw [← Bool.not_eq_true]
            exact fun hblank => hends ⟨d, hd, hblank⟩
          exact absurd (mem_wordOf_append hg.solid hsolid)
            (not_mem_of_credential hword hg.notCredential)
  refine introduces_iff.mpr ⟨found, middle ++ other, by rw [List.append_assoc], hfound, ?_,
    hsplit middle hword⟩
  cases middle with
  | nil => simp [hg.solid] at hblank
  | cons c middle => exact hblank

/-- A mark behind whose first character, a guard, no keyword begins. -/
structure Silent (lower : Lowercase) (mark : Text) : Prop where
  guard : ∃ g tail, mark = g :: tail ∧ Guards g
  quiet : ∀ tail, tail <:+ mark → tail ≠ [] → ∀ rest, introduces lower (tail ++ rest) = false

theorem silent_of_closed (g c : Char) (tail : Text) (hmark : mark = g :: tail ++ [c])
    (hg : Guards g) (hc : c.toLower ∉ "bearer".toList)
    (hquiet : ∀ tail ∈ mark.tails, ¬"bearer".toList <+: tail.map Char.toLower) :
    Silent lower mark := by
  refine ⟨⟨g, tail ++ [c], hmark, hg⟩, fun last hlast hne rest => ?_⟩
  cases hintro : introduces lower (last ++ rest) with
  | false => rfl
  | true =>
    obtain ⟨found, behind, hparts, hfound, -⟩ := introduces_iff.mp hintro
    have hmem : c ∈ last := by
      obtain ⟨front, hfront⟩ := hlast
      rw [hmark] at hfront
      have hend := congrArg List.getLast? hfront
      rw [List.getLast?_append_of_ne_nil _ hne, List.getLast?_concat] at hend
      exact List.mem_of_getLast? hend
    rcases List.append_eq_append_iff.mp hparts with ⟨inside, rfl, -⟩ | ⟨middle, rfl, -⟩
    · exact absurd (hfound ▸ List.mem_map_of_mem (List.mem_append_left inside hmem)) hc
    · refine absurd ?_ (hquiet _ ((List.mem_tails _ _).mpr hlast))
      rw [List.map_append, hfound]
      exact List.prefix_append _ _

/-- Cutting spans out of a text without bearer credentials introduces none. -/
theorem bearerFree_written (hmark : Silent lower mark) {cutting : Cutting Char}
    (h : BearerFree lower cutting.source) : BearerFree lower (cutting.written mark) := by
  obtain ⟨⟨g, tail, rfl, hg⟩, hquiet⟩ := hmark
  obtain ⟨pairs, last⟩ := cutting
  induction pairs with
  | nil => exact h
  | cons pair pairs ih =>
    obtain ⟨stretch, span⟩ := pair
    rw [Cutting.source_of_pairs_cons] at h
    have hlater := ih fun rest hrest =>
      h rest (hrest.trans ((List.suffix_append span _).trans (List.suffix_append stretch _)))
    intro rest hrest
    rw [Cutting.written_of_pairs_cons] at hrest
    rcases suffix_append_cases hrest with hbehind | ⟨inside, rfl, hinside⟩
    · rcases suffix_append_cases hbehind with hlast | ⟨inside, rfl, hinside⟩
      · exact hlater rest hlast
      · by_cases hnil : inside = []
        · rw [hnil, List.nil_append]
          exact hlater _ List.suffix_rfl
        · exact hquiet inside hinside hnil _
    · cases hintro : introduces lower
          (inside ++ (g :: tail ++ (⟨pairs, last⟩ : Cutting Char).written (g :: tail))) with
      | false => rfl
      | true =>
        rw [List.cons_append] at hintro
        have hkept : introduces lower
            (inside ++ (span ++ (⟨pairs, last⟩ : Cutting Char).source)) = true :=
          introduces_of_guard hg hintro
        rw [h _ (append_suffix_append hinside _)] at hkept
        cases hkept

theorem cutBearerFrom_skip (front rest : Text) :
    cutBearerFrom lower front.length (front ++ rest) = cutBearerFrom lower 0 rest := by
  induction front with
  | nil => rfl
  | cons c front ih => rw [List.length_cons, List.cons_append, cutBearerFrom, ih]

theorem cutBearerFrom_none
    (h : ∀ tail, tail <:+ text → startsWith lower "bearer ".toList tail = none) :
    cutBearerFrom lower 0 text = .whole text := by
  induction text with
  | nil => rfl
  | cons c text ih =>
    rw [cutBearerFrom, h _ List.suffix_rfl,
      ih fun tail htail => h tail (htail.trans (List.suffix_cons c text))]
    rfl

theorem cutBearerFrom_earliest (h : Earliest lower "bearer ".toList before found behind) :
    cutBearerFrom lower 0 (before ++ (found ++ behind)) =
      if isCredentialShaped (wordOf behind) then
        ((cutBearerFrom lower 0 (behind.drop (wordOf behind).length)).cut (wordOf behind)).keep
          (before ++ found)
      else (cutBearerFrom lower 0 (behind.drop (wordOf behind).length)).keep
        (before ++ (found ++ wordOf behind)) := by
  obtain ⟨hhere, hfirst⟩ := h
  induction before with
  | nil =>
    have hne : found ≠ [] := (startsWith_eq_some_iff.mp hhere).2.ne_nil (by decide)
    cases found with
    | nil => exact absurd rfl hne
    | cons c found =>
      have hskip : cutBearerFrom lower _ _ = _ := cutBearerFrom_skip (found ++ wordOf behind)
        (behind.drop (wordOf behind).length)
      rw [List.append_assoc, wordOf_append_drop, List.length_append] at hskip
      have hlength : (c :: found).length + (wordOf behind).length - 1 =
          found.length + (wordOf behind).length := by
        rw [List.length_cons]
        omega
      rw [List.cons_append] at hhere
      rw [List.nil_append, List.cons_append, cutBearerFrom, hhere]
      dsimp only
      rw [hlength, hskip]
      rfl
  | cons c before ih =>
    have hnone := hfirst (c :: before) List.suffix_rfl (List.cons_ne_nil _ _)
    have hlater := ih (fun tail htail => hfirst tail (htail.trans (List.suffix_cons c before)))
    rw [List.cons_append] at hnone ⊢
    rw [cutBearerFrom, hnone]
    dsimp only
    rw [hlater]
    split <;> rw [Cutting.keep_keep] <;> rfl

/-- The text behind a match is shorter. -/
theorem Earliest.length_lt {needle : Text} (h : Earliest lower needle before found behind)
    (hneedle : needle ≠ []) (n : ℕ) :
    (behind.drop n).length < (before ++ (found ++ behind)).length := by
  have hfound := List.length_pos_of_ne_nil (h.found_ne_nil hneedle)
  rw [List.length_drop, List.length_append, List.length_append]
  omega

theorem source_cutBearerFrom (text : Text) : (cutBearerFrom lower 0 text).source = text := by
  induction hlen : text.length using Nat.strong_induction_on generalizing text with
  | _ n ih =>
    subst hlen
    rcases match_cases "bearer ".toList lower (by decide) text with
      hnone | ⟨before, found, behind, rfl, hfirst⟩
    · rw [cutBearerFrom_none hnone]
      rfl
    · have hlater := ih _ (hfirst.length_lt (by decide) (wordOf behind).length) _ rfl
      rw [cutBearerFrom_earliest hfirst]
      split
      · rw [Cutting.source_keep, Cutting.source_cut, hlater, wordOf_append_drop, List.append_assoc]
      · rw [Cutting.source_keep, hlater, List.append_assoc, List.append_assoc, wordOf_append_drop]

theorem findChar_eq (p : Char → Bool) (text : Text) : findChar p text =
    if text.any p then some (utf8Len (text.takeWhile fun c => !p c)) else none := by
  induction text with
  | nil => rfl
  | cons c text ih =>
    rw [findChar, ih, List.any_cons, List.takeWhile_cons]
    cases hc : p c with
    | true => rfl
    | false =>
      cases hany : text.any p with
      | true => simp
      | false => simp

/-- Where the word behind a place of the text ends. -/
theorem tokenEnd_eq (front behind : Text) :
    ((findChar isWhitespace behind).map (utf8Len front + ·)).getD (utf8Len (front ++ behind)) =
      utf8Len front + utf8Len (wordOf behind) := by
  rw [findChar_eq]
  split
  · rfl
  · next hsolid =>
    have hword : wordOf behind = behind := by
      have hall : ∀ c ∈ behind, isWhitespace c = false := by simpa using hsolid
      have happend : wordOf (behind ++ []) = behind := wordOf_append hall nofun
      simpa using happend
    rw [hword, Option.map_none, Option.getD_none, utf8Len_append]

theorem byteSlice_front (front inner after : Text) :
    byteSlice (utf8Len front) (utf8Len (front ++ inner)) ((front ++ inner) ++ after) =
      some inner := by
  rw [utf8Len_append, List.append_assoc]
  exact byteSlice_append front inner after

theorem redactBearerFrom_eq (rounds : ℕ) (front rest out : Text) (hrounds : rest.length < rounds) :
    redactBearerFrom lower (front ++ rest) rounds (utf8Len front) out =
      some (out ++ (cutBearerFrom lower 0 rest).written BEARER) := by
  induction rounds generalizing front rest out with
  | zero => exact absurd hrounds (Nat.not_lt_zero _)
  | succ rounds ih =>
    have hsplit : splitAtByte (utf8Len front) (front ++ rest) = some (front, rest) :=
      splitAtByte_eq_some_iff.mpr ⟨rfl, rfl⟩
    rw [redactBearerFrom, hsplit, Option.bind_eq_bind, Option.bind_some]
    dsimp only
    rcases match_cases "bearer ".toList lower (by decide) rest with
      hnone | ⟨before, found, behind, rfl, hfirst⟩
    · rw [findCi_eq_none (by decide) hnone, cutBearerFrom_none hnone]
      rfl
    · rw [findCi_eq_some (by decide) hfirst]
      dsimp only
      have hword := wordOf_append_drop behind
      have hwhole : front ++ (before ++ (found ++ behind)) =
          (front ++ (before ++ found)) ++ behind := by
        simp only [List.append_assoc]
      have hstart : utf8Len front + (utf8Len before + utf8Len found) =
          utf8Len (front ++ (before ++ found)) := by
        simp only [utf8Len_append]
      have hbehind : splitAtByte (utf8Len (front ++ (before ++ found)))
          ((front ++ (before ++ found)) ++ behind) = some (front ++ (before ++ found), behind) :=
        splitAtByte_eq_some_iff.mpr ⟨rfl, rfl⟩
      rw [hstart, hwhole, hbehind, Option.bind_some]
      dsimp only
      rw [tokenEnd_eq]
      have htoken := byteSlice_append (front ++ (before ++ found)) (wordOf behind)
        (behind.drop (wordOf behind).length)
      rw [hword] at htoken
      have hshort := hfirst.length_lt (by decide) (wordOf behind).length
      have hnext := ih (front ++ (before ++ (found ++ wordOf behind)))
        (behind.drop (wordOf behind).length)
      have hagain : (front ++ (before ++ (found ++ wordOf behind))) ++
          behind.drop (wordOf behind).length = (front ++ (before ++ found)) ++ behind := by
        conv_rhs => rw [← hword]
        simp only [List.append_assoc]
      have hend : utf8Len (front ++ (before ++ found)) + utf8Len (wordOf behind) =
          utf8Len (front ++ (before ++ (found ++ wordOf behind))) := by
        simp only [utf8Len_append]
        omega
      rw [htoken, Option.bind_eq_bind, Option.bind_some, cutBearerFrom_earliest hfirst]
      split
      · have hkept := byteSlice_front front (before ++ found) behind
        rw [hkept, Option.bind_some, hend, ← hagain, hnext _ (by omega)]
        simp [List.append_assoc]
      · have hkept := byteSlice_front front (before ++ (found ++ wordOf behind))
          (behind.drop (wordOf behind).length)
        rw [hagain] at hkept
        rw [hend, hkept, Option.bind_some, ← hagain, hnext _ (by omega)]
        simp [List.append_assoc]

/-- The scan never panics and comes to an end. -/
theorem redactBearer_eq (text : Text) :
    redactBearer lower text = some ((cutBearer lower text).written BEARER) := by
  have h : redactBearerFrom lower _ _ _ _ = _ :=
    redactBearerFrom_eq (text.length + 1) [] text [] (Nat.lt_succ_self _)
  simpa [redactBearer, cutBearer] using h

/-- A credential stands here one space behind the keyword. -/
def adjoins (lower : Lowercase) (rest : Text) : Bool :=
  match startsWith lower "bearer ".toList rest with
  | none => false
  | some (_, behind) => isCredentialShaped (wordOf behind)

/-- Every credential stands one space behind its keyword, and no keyword is in a word that the scan
declines. -/
structure BearersPlain (lower : Lowercase) (text : Text) : Prop where
  spaced : ∀ rest, rest <:+ text → introduces lower rest = true → adjoins lower rest = true
  seen : ∀ word behind, Declines lower text word behind → ∀ tail, tail <:+ word → tail ≠ [] →
    introduces lower (tail ++ behind) = false

theorem BearersPlain.later {before found behind : Text}
    (h : BearersPlain lower (before ++ (found ++ behind)))
    (hfirst : Earliest lower "bearer ".toList before found behind) :
    BearersPlain lower (behind.drop (wordOf behind).length) := by
  refine ⟨fun rest hrest hintro => h.spaced rest (hrest.trans ?_) hintro,
    fun word after hdeclines => h.seen word after (.later hfirst hdeclines)⟩
  exact (List.drop_suffix _ behind).trans
    ((List.suffix_append found behind).trans (List.suffix_append before _))

theorem adjoins_eq_true_iff : adjoins lower rest = true ↔
    ∃ found behind, startsWith lower "bearer ".toList rest = some (found, behind) ∧
      isCredentialShaped (wordOf behind) = true := by
  unfold adjoins
  cases startsWith lower "bearer ".toList rest with
  | none => simp
  | some parts =>
    obtain ⟨found, behind⟩ := parts
    simp only [Option.some.injEq, Prod.mk.injEq]
    constructor
    · exact fun hword => ⟨found, behind, ⟨rfl, rfl⟩, hword⟩
    · rintro ⟨_, _, ⟨rfl, rfl⟩, hword⟩
      exact hword

/-- Where a keyword introduces something it begins with its first letter. -/
theorem toLower_of_introduces {c : Char} (h : introduces lower (c :: rest) = true) :
    c.toLower = 'b' := by
  obtain ⟨found, behind, hparts, hfound, -⟩ := introduces_iff.mp h
  cases found with
  | nil => exact absurd hfound (by decide)
  | cons d found =>
    obtain ⟨rfl, -⟩ := List.cons.inj hparts
    exact (List.cons.inj hfound).1

/-- No keyword begins within the match of the keyword and its space. -/
theorem not_introduces_inside (hfound : found.map Char.toLower = "bearer ".toList)
    (hinside : inside <:+ found) (hne : inside ≠ []) (hproper : inside ≠ found) :
    introduces lower (inside ++ rest) = false := by
  cases hintro : introduces lower (inside ++ rest) with
  | false => rfl
  | true =>
    cases inside with
    | nil => exact absurd rfl hne
    | cons c inside =>
      have hb := toLower_of_introduces hintro
      have hsuffix := hinside.map Char.toLower
      rw [hfound, List.map_cons, hb] at hsuffix
      have honly : ∀ tail ∈ "bearer ".toList.tails, tail.head? = some 'b' →
          tail = "bearer ".toList := by decide
      have hwhole := honly _ ((List.mem_tails _ _).mpr hsuffix) rfl
      have hlength := congrArg List.length (hwhole.trans hfound.symm)
      rw [List.length_cons, List.length_map, List.length_map, ← List.length_cons (a := c)] at hlength
      exact absurd (hinside.eq_of_length hlength) hproper

/-- The match itself ends at its space, behind which nothing stands yet. -/
theorem not_introduces_match (hfound : found.map Char.toLower = "bearer ".toList)
    (hinside : inside <:+ found) (hne : inside ≠ []) : introduces lower inside = false := by
  by_cases hwhole : inside = found
  · cases hintro : introduces lower inside with
    | false => rfl
    | true =>
      obtain ⟨keyword, after, hparts, hkeyword, hblank, hshaped⟩ := introduces_iff.mp hintro
      have hkeywordLength := congrArg List.length hkeyword
      have hfoundLength := congrArg List.length hfound
      have hpartsLength := congrArg List.length hparts
      rw [List.length_map] at hkeywordLength hfoundLength
      rw [hwhole, List.length_append, hkeywordLength, hfoundLength] at hpartsLength
      have hone : after.length = 1 := by
        have : "bearer".toList.length = 6 := by decide
        have : "bearer ".toList.length = 7 := by decide
        omega
      obtain ⟨c, rfl⟩ := List.length_eq_one_iff.mp hone
      have hc : isWhitespace c = true := hblank
      rw [List.dropWhile_cons_of_pos hc] at hshaped
      exact absurd hshaped (by decide)
  · rw [← List.append_nil inside]
    exact not_introduces_inside hfound hinside hne hwhole

/-- A credential one space behind the keyword is introduced by it. -/
theorem introduces_of_adjoins (h : adjoins lower rest = true) : introduces lower rest = true := by
  obtain ⟨found, behind, hstarts, hword⟩ := adjoins_eq_true_iff.mp h
  obtain ⟨rfl, hfound⟩ := startsWith_spaced_iff.mp hstarts
  obtain ⟨keyword, blank, rfl, hkeyword, hblank⟩ := List.map_eq_append_iff.mp
    (hfound.trans (show "bearer ".toList = "bearer".toList ++ [' '] by decide))
  obtain ⟨space, rfl, hspace⟩ := List.map_eq_singleton_iff.mp hblank
  have hspace : space = ' ' := by
    rcases toLower_cases space with hsame | hupper
    · rw [← hsame, hspace]
    · have := hupper.2
      rw [hspace] at this
      have : ' '.toNat = 32 := rfl
      omega
  refine introduces_iff.mpr ⟨keyword, [space] ++ behind, by rw [List.append_assoc], hkeyword, ?_, ?_⟩
  · rw [hspace]
    rfl
  · have hsolid : behind.dropWhile isWhitespace = behind := by
      cases behind with
      | nil => rfl
      | cons c behind =>
        rw [List.dropWhile_cons_of_neg]
        intro hc
        simp [wordOf, hc, isCredentialShaped, BEARER_MIN_TOKEN_LEN] at hword
    rw [hspace, List.singleton_append, List.dropWhile_cons_of_pos (by decide), hsolid]
    exact hword

theorem silent_bearer : Silent lower BEARER :=
  silent_of_closed '[' ']' "redacted-token".toList (by decide)
    guards_bracket (by decide) (by decide)

theorem introduces_of_written (hmark : Silent lower mark) {front : Text} {cutting : Cutting Char}
    (h : introduces lower (front ++ cutting.written mark) = true) :
    introduces lower (front ++ cutting.source) = true := by
  obtain ⟨⟨g, tail, rfl, hg⟩, -⟩ := hmark
  obtain ⟨pairs, last⟩ := cutting
  cases pairs with
  | nil => exact h
  | cons pair pairs =>
    obtain ⟨stretch, span⟩ := pair
    rw [Cutting.written_of_pairs_cons, ← List.append_assoc, List.cons_append] at h
    rw [Cutting.source_of_pairs_cons, ← List.append_assoc]
    exact introduces_of_guard hg h

/-- A keyword before the first match would have been the match. -/
theorem not_introduces_before (h : BearersPlain lower (before ++ (found ++ behind)))
    (hfirst : Earliest lower "bearer ".toList before found behind) (hinside : inside <:+ before)
    (hne : inside ≠ []) : introduces lower (inside ++ (found ++ behind)) = false := by
  cases hintro : introduces lower (inside ++ (found ++ behind)) with
  | false => rfl
  | true =>
    obtain ⟨other, after, hstarts, -⟩ := adjoins_eq_true_iff.mp
      (h.spaced _ (append_suffix_append hinside _) hintro)
    rw [hfirst.first inside hinside hne] at hstarts
    cases hstarts

/-- In front of the mark of a credential no keyword introduces another one. -/
theorem bearerFree_redacted {later : Text} (h : BearersPlain lower (before ++ (found ++ behind)))
    (hfirst : Earliest lower "bearer ".toList before found behind)
    (hlater : BearerFree lower later) :
    BearerFree lower ((before ++ found) ++ (BEARER ++ later)) := by
  have hfound := (startsWith_spaced_iff.mp hfirst.here).2
  intro rest hrest
  rcases suffix_append_cases hrest with hbehind | ⟨inside, rfl, hinside⟩
  · rcases suffix_append_cases hbehind with hlast | ⟨inside, rfl, hinside⟩
    · exact hlater rest hlast
    · by_cases hnil : inside = []
      · rw [hnil, List.nil_append]
        exact hlater _ List.suffix_rfl
      · exact silent_bearer.quiet inside hinside hnil _
  · cases hintro : introduces lower (inside ++ (BEARER ++ later)) with
    | false => rfl
    | true =>
      have hany : ∀ other, introduces lower (inside ++ other) = true :=
        fun other => introduces_of_guard guards_bracket hintro
      rcases suffix_append_cases hinside with hmatch | ⟨front, rfl, hfront⟩
      · by_cases hnil : inside = []
        · rw [hnil, List.nil_append, silent_bearer.quiet BEARER List.suffix_rfl
            (by decide)] at hintro
          cases hintro
        · have hnot := hany []
          rw [List.append_nil, not_introduces_match hfound hmatch hnil] at hnot
          cases hnot
      · by_cases hnil : front = []
        · have hnot := hany []
          rw [hnil, List.nil_append, List.append_nil, not_introduces_match hfound
            List.suffix_rfl (hfirst.found_ne_nil (by decide))] at hnot
          cases hnot
        · have hnot := hany behind
          rw [List.append_assoc, not_introduces_before h hfirst hfront hnil] at hnot
          cases hnot

/-- Before what is behind a word that was declined, no keyword introduces a credential. -/
theorem not_introduces_declined (h : BearersPlain lower (before ++ (found ++ behind)))
    (hfirst : Earliest lower "bearer ".toList before found behind)
    (hprose : ¬isCredentialShaped (wordOf behind) = true)
    (hinside : inside <:+ before ++ (found ++ wordOf behind)) (hne : inside ≠ []) :
    introduces lower (inside ++ behind.drop (wordOf behind).length) = false := by
  have hfound := (startsWith_spaced_iff.mp hfirst.here).2
  have hword := wordOf_append_drop behind
  -- the scan declines the word at its match
  have hmatch : introduces lower (found ++ behind) = false := by
    cases hintro : introduces lower (found ++ behind) with
    | false => rfl
    | true =>
      have hadjoins := h.spaced _ (List.suffix_append before _) hintro
      obtain ⟨other, after, hstarts, hshaped⟩ := adjoins_eq_true_iff.mp hadjoins
      rw [hfirst.here, Option.some.injEq, Prod.mk.injEq] at hstarts
      rw [← hstarts.2] at hshaped
      exact absurd hshaped hprose
  have htail : ∀ tail, tail <:+ wordOf behind → tail ≠ [] →
      introduces lower (tail ++ behind.drop (wordOf behind).length) = false :=
    h.seen _ _ (.here hfirst (by simpa using hprose))
  rcases suffix_append_cases hinside with hinner | ⟨front, rfl, hfront⟩
  · rcases suffix_append_cases hinner with hlast | ⟨head, rfl, hhead⟩
    · exact htail inside hlast hne
    · by_cases hnil : head = []
      · rw [hnil, List.nil_append] at hne ⊢
        exact htail (wordOf behind) List.suffix_rfl hne
      · rw [List.append_assoc, hword]
        by_cases hwhole : head = found
        · rw [hwhole]
          exact hmatch
        · exact not_introduces_inside hfound hhead hnil hwhole
  · rw [List.append_assoc, List.append_assoc, hword]
    by_cases hnil : front = []
    · rw [hnil, List.nil_append]
      exact hmatch
    · exact not_introduces_before h hfirst hfront hnil

/-- What the scan leaves of a text with plain credentials introduces none. -/
theorem bearerFree_cutBearer (h : BearersPlain lower text) :
    BearerFree lower ((cutBearer lower text).written BEARER) := by
  rw [cutBearer]
  induction hlen : text.length using Nat.strong_induction_on generalizing text with
  | _ n ih =>
    subst hlen
    rcases match_cases "bearer ".toList lower (by decide) text with
      hnone | ⟨before, found, behind, rfl, hfirst⟩
    · rw [cutBearerFrom_none hnone, Cutting.written_whole]
      intro rest hrest
      cases hintro : introduces lower rest with
      | false => rfl
      | true =>
        obtain ⟨found, behind, hstarts, -⟩ :=
          adjoins_eq_true_iff.mp (h.spaced rest hrest hintro)
        rw [hnone rest hrest] at hstarts
        cases hstarts
    · have hlater := ih _ (hfirst.length_lt (by decide) (wordOf behind).length)
        (h.later hfirst) rfl
      rw [cutBearerFrom_earliest hfirst]
      split
      · rw [Cutting.written_keep, Cutting.written_cut]
        exact bearerFree_redacted h hfirst hlater
      · next hprose =>
        rw [Cutting.written_keep]
        intro rest hrest
        rcases suffix_append_cases hrest with hlast | ⟨inside, rfl, hinside⟩
        · exact hlater rest hlast
        · by_cases hnil : inside = []
          · rw [hnil, List.nil_append]
            exact hlater _ List.suffix_rfl
          · cases hintro : introduces lower (inside ++
                (cutBearerFrom lower 0 (behind.drop (wordOf behind).length)).written BEARER) with
            | false => rfl
            | true =>
              have hkept := introduces_of_written silent_bearer hintro
              rw [source_cutBearerFrom,
                not_introduces_declined h hfirst hprose hinside hnil] at hkept
              cases hkept

/-- Where no credential is introduced the scan changes nothing. -/
theorem redactBearer_of_bearerFree (h : BearerFree lower text) :
    redactBearer lower text = some text := by
  have hnone : (cutBearerFrom lower 0 text).pairs = [] := by
    induction hlen : text.length using Nat.strong_induction_on generalizing text with
    | _ n ih =>
      subst hlen
      rcases match_cases "bearer ".toList lower (by decide) text with
        hnone | ⟨before, found, behind, rfl, hfirst⟩
      · rw [cutBearerFrom_none hnone]
        rfl
      · have hlater := ih _ (hfirst.length_lt (by decide) (wordOf behind).length)
          (fun rest hrest => h rest (hrest.trans ((List.drop_suffix _ behind).trans
            ((List.suffix_append found behind).trans (List.suffix_append before _))))) rfl
        have hprose : isCredentialShaped (wordOf behind) = false := by
          cases hshaped : isCredentialShaped (wordOf behind) with
          | false => rfl
          | true =>
            have hnot := h _ (List.suffix_append before (found ++ behind))
            rw [introduces_of_adjoins (adjoins_eq_true_iff.mpr
              ⟨found, behind, hfirst.here, hshaped⟩)] at hnot
            cases hnot
        rw [cutBearerFrom_earliest hfirst, hprose, if_neg Bool.false_ne_true,
          Cutting.pairs_keep_eq_nil]
        exact hlater
  rw [redactBearer_eq, cutBearer, Cutting.written_of_pairs_eq_nil hnone, source_cutBearerFrom]

end TinySweeper.Sentry
