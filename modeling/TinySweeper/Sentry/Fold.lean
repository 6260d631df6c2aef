import TinySweeper.Bytes

/-!
# Case-insensitive search

A literal is searched for character by character in the text itself, comparing
lowercase expansions, so that the range found is measured in bytes of the text.
-/

namespace TinySweeper.Sentry

open Text

/-- The lowercase form of each character, with the facts about it that the passes rely on: `i` and
`k` are the only ASCII characters in the expansion of a character that is not ASCII. -/
structure Lowercase where
  toLowercase : Char → List Char
  ne_nil : ∀ c, toLowercase c ≠ []
  ascii : ∀ c, c.toNat < 128 → toLowercase c = [c.toLower]
  ellipsis : toLowercase '…' = ['…']
  alone : ∀ c, ∀ d ∈ toLowercase c, d.toNat < 128 ∧ d ≠ 'i' ∧ d ≠ 'k' ∨ d = '…' → c.toLower = d

/-- Only ASCII letters have another lowercase form. -/
def asciiLowercase : Lowercase where
  toLowercase c := [c.toLower]
  ne_nil _ := List.cons_ne_nil _ _
  ascii _ _ := rfl
  ellipsis := by decide
  alone c d hd _ := (List.mem_singleton.mp hd).symm

section Search

variable (lower : Lowercase)

/-- Compare the expansions of these characters with what the needle still wants. -/
def matchFrom : (pat : List Char) → (hay : Text) → (consumed : ℕ) → Option ℕ
  | [], _, consumed => some consumed
  | _ :: _, [], _ => none
  | want :: pat, got :: hay, consumed =>
    match lower.toLowercase got with
    | [] => none
    | first :: folded =>
      if first ≠ want then none
      -- a character that expands to several must match that many of the needle's
      else if folded.isPrefixOf pat then
        matchFrom (pat.drop folded.length) hay (consumed + got.utf8Size)
      else none

/-- Where a match of the needle ends that starts here; `hay` is the text from byte `start` on. -/
def matchAt (hay : Text) (start : ℕ) (needle : Text) : Option ℕ :=
  (matchFrom lower (needle.flatMap lower.toLowercase) hay 0).map (start + ·)

def findFrom (needle : Text) : (start : ℕ) → Text → Option (ℕ × ℕ)
  | _, [] => none
  | start, c :: hay =>
    match matchAt lower (c :: hay) start needle with
    | some stop => some (start, stop)
    | none => findFrom needle (start + c.utf8Size) hay

/-- The byte range of the first match. -/
def findCi (haystack needle : Text) : Option (ℕ × ℕ) :=
  if needle.isEmpty then none else findFrom lower needle 0 haystack

/-- A match at the start of a text, and the text behind it. -/
def matchText : (pat : List Char) → (hay : Text) → Option (Text × Text)
  | [], hay => some ([], hay)
  | _ :: _, [] => none
  | want :: pat, got :: hay =>
    match lower.toLowercase got with
    | [] => none
    | first :: folded =>
      if first ≠ want then none
      else if folded.isPrefixOf pat then
        (matchText (pat.drop folded.length) hay).map fun (found, rest) => (got :: found, rest)
      else none

/-- The needle and this text have one lowercase form. -/
def Spells (needle found : Text) : Prop :=
  found.flatMap lower.toLowercase = needle.flatMap lower.toLowercase

/-- The first match of the needle at the start of this text. -/
def startsWith (needle hay : Text) : Option (Text × Text) :=
  matchText lower (needle.flatMap lower.toLowercase) hay

end Search

variable {lower : Lowercase} {needle hay found rest : Text}

theorem matchFrom_eq (lower : Lowercase) (pat : List Char) (hay : Text) (consumed : ℕ) :
    matchFrom lower pat hay consumed =
      (matchText lower pat hay).map fun parts => consumed + utf8Len parts.1 := by
  induction hay generalizing pat consumed with
  | nil => cases pat <;> simp [matchFrom, matchText]
  | cons got hay ih =>
    cases pat with
    | nil => simp [matchFrom, matchText]
    | cons want pat =>
      unfold matchFrom matchText
      cases lower.toLowercase got with
      | nil => rfl
      | cons first folded =>
        dsimp only
        split_ifs
        · rfl
        · rw [ih, Option.map_map]
          congr 1
          funext parts
          simp [Nat.add_assoc]
        · rfl

theorem matchText_eq_some_iff {pat : List Char} :
    matchText lower pat hay = some (found, rest) ↔
      hay = found ++ rest ∧ found.flatMap lower.toLowercase = pat := by
  induction hay generalizing pat found with
  | nil =>
    cases pat with
    | nil =>
      simp only [matchText, Option.some.injEq, Prod.mk.injEq, List.nil_eq, List.append_eq_nil_iff]
      constructor
      · rintro ⟨rfl, rfl⟩
        exact ⟨⟨rfl, rfl⟩, rfl⟩
      · rintro ⟨⟨rfl, rfl⟩, -⟩
        exact ⟨rfl, rfl⟩
    | cons want pat =>
      refine iff_of_false nofun ?_
      rintro ⟨hparts, hspelled⟩
      rw [(List.append_eq_nil_iff.mp hparts.symm).1] at hspelled
      cases hspelled
  | cons got hay ih =>
    have hgot := lower.ne_nil got
    cases pat with
    | nil =>
      simp only [matchText, Option.some.injEq, Prod.mk.injEq]
      constructor
      · rintro ⟨rfl, rfl⟩
        exact ⟨rfl, rfl⟩
      · rintro ⟨hparts, hspelled⟩
        cases found with
        | nil => exact ⟨rfl, hparts⟩
        | cons c found =>
          rw [List.flatMap_cons] at hspelled
          exact absurd (List.append_eq_nil_iff.mp hspelled).1 (lower.ne_nil c)
    | cons want pat =>
      unfold matchText
      cases hlower : lower.toLowercase got with
      | nil => exact absurd hlower hgot
      | cons first folded =>
        dsimp only
        have hcons : ∀ c (tail : Text), got :: hay = c :: tail ++ rest →
            (c :: tail).flatMap lower.toLowercase = want :: pat →
            first = want ∧ folded <+: pat ∧ hay = tail ++ rest ∧
              tail.flatMap lower.toLowercase = pat.drop folded.length := by
          intro c tail hparts hspelled
          obtain ⟨rfl, htail⟩ := List.cons.inj hparts
          rw [List.flatMap_cons, hlower, List.cons_append, List.cons.injEq] at hspelled
          obtain ⟨hfirst, rfl⟩ := hspelled
          exact ⟨hfirst, List.prefix_append _ _, htail, by rw [List.drop_left]⟩
        have hnil : found = [] → ¬found.flatMap lower.toLowercase = want :: pat := by
          rintro rfl h
          cases h
        split_ifs with hfirst hfolded
        · refine iff_of_false nofun ?_
          rintro ⟨hparts, hspelled⟩
          cases found with
          | nil => exact hnil rfl hspelled
          | cons c tail => exact hfirst (hcons c tail hparts hspelled).1
        · simp only [Option.map_eq_some_iff, Prod.mk.injEq]
          rw [ne_eq, not_not] at hfirst
          obtain ⟨more, rfl⟩ := List.isPrefixOf_iff_prefix.mp hfolded
          constructor
          · rintro ⟨⟨tail, behind⟩, htail, rfl, rfl⟩
            obtain ⟨rfl, hspelled⟩ := ih.mp htail
            refine ⟨rfl, ?_⟩
            rw [List.flatMap_cons, hlower, hspelled, List.drop_left, hfirst, List.cons_append]
          · rintro ⟨hparts, hspelled⟩
            cases found with
            | nil => exact absurd hspelled (hnil rfl)
            | cons c tail =>
              obtain ⟨-, -, htail, hrest⟩ := hcons c tail hparts hspelled
              exact ⟨(tail, rest), ih.mpr ⟨htail, hrest⟩, by
                rw [List.cons_append, List.cons.injEq] at hparts
                rw [hparts.1], rfl⟩
        · refine iff_of_false nofun ?_
          rintro ⟨hparts, hspelled⟩
          cases found with
          | nil => exact hnil rfl hspelled
          | cons c tail =>
            exact hfolded (List.isPrefixOf_iff_prefix.mpr (hcons c tail hparts hspelled).2.1)

theorem startsWith_eq_some_iff :
    startsWith lower needle hay = some (found, rest) ↔ hay = found ++ rest ∧
      Spells lower needle found := matchText_eq_some_iff

theorem matchAt_eq (lower : Lowercase) (hay : Text) (start : ℕ) (needle : Text) :
    matchAt lower hay start needle =
      (startsWith lower needle hay).map fun parts => start + utf8Len parts.1 := by
  rw [matchAt, matchFrom_eq, startsWith, Option.map_map]
  congr 1
  funext parts
  simp

theorem Spells.ne_nil (h : Spells lower needle found) (hneedle : needle ≠ []) : found ≠ [] := by
  rintro rfl
  cases needle with
  | nil => exact hneedle rfl
  | cons c needle =>
    rw [Spells, List.flatMap_cons, List.flatMap_nil] at h
    exact lower.ne_nil c (List.append_eq_nil_iff.mp h.symm).1

/-- The first match of the needle, and the text before and behind it. -/
structure Earliest (lower : Lowercase) (needle before found behind : Text) : Prop where
  here : startsWith lower needle (found ++ behind) = some (found, behind)
  first : ∀ tail, tail <:+ before → tail ≠ [] →
    startsWith lower needle (tail ++ (found ++ behind)) = none

theorem startsWith_nil (lower : Lowercase) (hneedle : needle ≠ []) :
    startsWith lower needle [] = none := by
  cases needle with
  | nil => exact absurd rfl hneedle
  | cons c needle =>
    cases hc : lower.toLowercase c with
    | nil => exact absurd hc (lower.ne_nil c)
    | cons d folded => simp [startsWith, hc, matchText]

variable (needle) in
/-- There is no match anywhere, or a first one. -/
theorem match_cases (lower : Lowercase) (hneedle : needle ≠ []) (hay : Text) :
    (∀ tail, tail <:+ hay → startsWith lower needle tail = none) ∨
      ∃ before found behind, hay = before ++ (found ++ behind) ∧
        Earliest lower needle before found behind := by
  induction hay with
  | nil =>
    left
    intro tail htail
    rw [List.suffix_nil.mp htail, startsWith_nil lower hneedle]
  | cons c hay ih =>
    cases hhere : startsWith lower needle (c :: hay) with
    | some parts =>
      obtain ⟨found, behind⟩ := parts
      obtain ⟨hparts, -⟩ := startsWith_eq_some_iff.mp hhere
      refine .inr ⟨[], found, behind, hparts, hparts ▸ hhere, fun tail htail hne => ?_⟩
      exact absurd (List.suffix_nil.mp htail) hne
    | none =>
      rcases ih with hnone | ⟨before, found, behind, rfl, hfirst⟩
      · left
        intro tail htail
        rcases List.suffix_cons_iff.mp htail with rfl | hlater
        · exact hhere
        · exact hnone tail hlater
      · refine .inr ⟨c :: before, found, behind, rfl, hfirst.here, fun tail htail hne => ?_⟩
        rcases List.suffix_cons_iff.mp htail with rfl | hlater
        · exact hhere
        · exact hfirst.first tail hlater hne

theorem Earliest.found_ne_nil {before behind : Text} (h : Earliest lower needle before found behind)
    (hneedle : needle ≠ []) : found ≠ [] :=
  (startsWith_eq_some_iff.mp h.here).2.ne_nil hneedle

theorem findCi_eq_none (hneedle : needle ≠ [])
    (h : ∀ tail, tail <:+ hay → startsWith lower needle tail = none) :
    findCi lower hay needle = none := by
  have hfrom : ∀ start, findFrom lower needle start hay = none := by
    induction hay with
    | nil => exact fun _ => rfl
    | cons c hay ih =>
      intro start
      have hlater := ih (fun tail htail => h tail (htail.trans (List.suffix_cons c hay)))
      rw [findFrom, matchAt_eq, h _ List.suffix_rfl, Option.map_none]
      exact hlater _
  rw [findCi, if_neg (by simpa using hneedle), hfrom]

theorem findCi_eq_some {before behind : Text} (hneedle : needle ≠ [])
    (h : Earliest lower needle before found behind) :
    findCi lower (before ++ (found ++ behind)) needle =
      some (utf8Len before, utf8Len before + utf8Len found) := by
  have hfrom : ∀ start, findFrom lower needle start (before ++ (found ++ behind)) =
      some (start + utf8Len before, start + utf8Len before + utf8Len found) := by
    obtain ⟨hhere, hfirst⟩ := h
    induction before with
    | nil =>
      intro start
      have hne : found ≠ [] := (startsWith_eq_some_iff.mp hhere).2.ne_nil hneedle
      cases found with
      | nil => exact absurd rfl hne
      | cons c found =>
        rw [List.cons_append] at hhere
        simp [findFrom, matchAt_eq, hhere]
    | cons c before ih =>
      intro start
      have hnone := hfirst (c :: before) List.suffix_rfl (List.cons_ne_nil _ _)
      have hlater := ih (fun tail htail => hfirst tail (htail.trans (List.suffix_cons c before)))
      rw [List.cons_append] at hnone ⊢
      rw [findFrom, matchAt_eq, hnone, Option.map_none]
      dsimp only
      rw [hlater, utf8Len_cons, Nat.add_assoc]
  rw [findCi, if_neg (by simpa using hneedle), hfrom, Nat.zero_add]

theorem toNat_lt_of_toLower {c : Char} (h : c.toLower.toNat < 128) : c.toNat < 128 := by
  rcases toLower_cases c with hsame | hupper
  · rwa [hsame] at h
  · omega

/-- A needle of lowercase ASCII letters other than `i` and `k` is spelled by ASCII texts only. -/
theorem spells_iff_of_plain
    (hneedle : ∀ c ∈ needle, c.toNat < 128 ∧ c ≠ 'i' ∧ c ≠ 'k' ∧ c.toLower = c) :
    Spells lower needle found ↔ found.map Char.toLower = needle := by
  have hself : needle.flatMap lower.toLowercase = needle := by
    have hpieces : needle.flatMap lower.toLowercase = needle.flatMap fun c => [c] := by
      apply List.flatMap_congr
      intro c hc
      obtain ⟨hascii, -, -, hlow⟩ := hneedle c hc
      rw [lower.ascii c hascii, hlow]
    rw [hpieces, List.flatMap_singleton']
  rw [Spells, hself]
  clear hself
  induction found generalizing needle with
  | nil => rfl
  | cons c found ih =>
    cases needle with
    | nil =>
      refine iff_of_false ?_ (by simp)
      rw [List.flatMap_cons]
      exact fun h => lower.ne_nil c (List.append_eq_nil_iff.mp h).1
    | cons d needle =>
      have hd := hneedle d List.mem_cons_self
      have htail : ∀ e ∈ needle, _ := fun e he => hneedle e (List.mem_cons_of_mem d he)
      have hlater := ih htail
      have hsingle : c.toLower = d → lower.toLowercase c = [d] := by
        intro hcd
        rw [lower.ascii c (toNat_lt_of_toLower (hcd ▸ hd.1)), hcd]
      rw [List.map_cons, List.cons.injEq, List.flatMap_cons]
      constructor
      · intro h
        cases hfold : lower.toLowercase c with
        | nil => exact absurd hfold (lower.ne_nil c)
        | cons e folded =>
          rw [hfold, List.cons_append, List.cons.injEq] at h
          have hcd : c.toLower = d := by
            refine h.1 ▸ lower.alone c e (hfold ▸ List.mem_cons_self) ?_
            rw [h.1]
            exact .inl ⟨hd.1, hd.2.1, hd.2.2.1⟩
          rw [hsingle hcd, List.cons.injEq] at hfold
          rw [← hfold.2, List.nil_append] at h
          exact ⟨hcd, hlater.mp h.2⟩
      · rintro ⟨hcd, hfound⟩
        rw [hsingle hcd, hlater.mpr hfound, List.singleton_append]

end TinySweeper.Sentry
