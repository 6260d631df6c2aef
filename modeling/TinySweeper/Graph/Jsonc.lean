import TinySweeper.Text

/-!
# Comments and trailing commas in a config

Configs are JSON with comments. A first pass writes whitespace for comments, a second
one drops commas before a closing bracket; inside a string neither changes anything.
-/

namespace TinySweeper.Graph

open Text

/-- Whether a quoted string goes on after this character, and escapes the next one. -/
def unquote (escaped : Bool) (c : Char) : Option Bool :=
  if escaped then some false
  else if c = '\\' then some true
  else if c = '"' then none
  else some false

/-- Where the scan for comments is: outside or inside a string, or in a comment. -/
inductive Mode where
  | plain (quote : Option Bool)
  | line
  | opening
  | block (previous : Char)
  deriving DecidableEq, Repr

def stripComments : Mode → Text → Text
  | .plain _, [] => []
  | .plain (some escaped), c :: text => c :: stripComments (.plain (unquote escaped c)) text
  | .plain none, c :: text =>
    if c = '"' then c :: stripComments (.plain (some false)) text
    else if c = '/' ∧ text.head? = some '/' then stripComments .line text
    else if c = '/' ∧ text.head? = some '*' then stripComments .opening text
    else c :: stripComments (.plain none) text
  | .line, [] => []
  | .line, c :: text =>
    if c = '\n' then c :: stripComments (.plain none) text else stripComments .line text
  | .opening, [] => [' ']
  -- the star that opens a block does not close it
  | .opening, _ :: text => stripComments (.block '\x00') text
  | .block _, [] => [' ']
  | .block previous, c :: text =>
    if previous = '*' ∧ c = '/' then ' ' :: stripComments (.plain none) text
    else stripComments (.block c) text

/-- The next character that is no whitespace closes a bracket. -/
def closesNext (text : Text) : Bool :=
  (text.find? fun c => !isWhitespace c).any fun c => c = '\x7d' || c = ']'

def dropCommas : Option Bool → Text → Text
  | _, [] => []
  | some escaped, c :: text => c :: dropCommas (unquote escaped c) text
  | none, c :: text =>
    if c = '"' then c :: dropCommas (some false) text
    else if c = ',' && closesNext text then dropCommas none text
    else c :: dropCommas none text

/-- Strip comments and trailing commas. -/
def stripJsonc (text : Text) : Text := dropCommas none (stripComments (.plain none) text)

/-- No comment opens outside a string. -/
def Uncommented : Option Bool → Text → Prop
  | _, [] => True
  | some escaped, c :: text => Uncommented (unquote escaped c) text
  | none, c :: text =>
    if c = '"' then Uncommented (some false) text
    else (c = '/' → text.head? ≠ some '/' ∧ text.head? ≠ some '*') ∧ Uncommented none text

/-- What is left after the comment the scan is in, outside a string. -/
def Mode.quote : Mode → Option Bool
  | .plain quote => quote
  | _ => none

theorem head?_stripComments {text : Text} (h : text.head? ≠ some '/') :
    (stripComments (.plain none) text).head? = text.head? := by
  cases text with
  | nil => rfl
  | cons c text =>
    have hc : c ≠ '/' := fun heq => h (congrArg some heq)
    rw [stripComments]
    split_ifs with hquote hline hblock
    · rfl
    · exact absurd hline.1 hc
    · exact absurd hblock.1 hc
    · rfl

theorem stripComments_uncommented (mode : Mode) (text : Text) :
    Uncommented mode.quote (stripComments mode text) := by
  induction text generalizing mode with
  | nil =>
    match mode with
    | .plain _ => rw [stripComments, Uncommented]; trivial
    | .line => exact trivial
    | .opening => exact ⟨nofun, trivial⟩
    | .block _ => exact ⟨nofun, trivial⟩
  | cons c text ih =>
    match mode with
    | .plain (some escaped) => exact ih (.plain (unquote escaped c))
    | .plain none =>
      rw [stripComments]
      split_ifs with hquote hline hblock
      · rw [Mode.quote, Uncommented, if_pos hquote]
        exact ih (.plain (some false))
      · exact ih .line
      · exact ih .opening
      · rw [Mode.quote, Uncommented, if_neg hquote]
        refine ⟨fun hslash => ?_, ih (.plain none)⟩
        have hfirst : text.head? ≠ some '/' := fun h => hline ⟨hslash, h⟩
        rw [head?_stripComments hfirst]
        exact ⟨hfirst, fun h => hblock ⟨hslash, h⟩⟩
    | .line =>
      rw [stripComments]
      split_ifs with hbreak
      · rw [hbreak]
        exact ⟨nofun, ih (.plain none)⟩
      · exact ih .line
    | .opening => exact ih (.block '\x00')
    | .block previous =>
      rw [stripComments]
      split_ifs with hclose
      · exact ⟨nofun, ih (.plain none)⟩
      · exact ih (.block c)

theorem stripComments_of_uncommented {quote : Option Bool} {text : Text}
    (h : Uncommented quote text) : stripComments (.plain quote) text = text := by
  induction text generalizing quote with
  | nil => rfl
  | cons c text ih =>
    cases quote with
    | some escaped => rw [stripComments, ih h]
    | none =>
      rw [Uncommented] at h
      rw [stripComments]
      split_ifs at h ⊢ with hquote hline hblock
      · rw [ih h]
      · exact absurd hline.2 (h.1 hline.1).1
      · exact absurd hblock.2 (h.1 hblock.1).2
      · rw [ih h.2]

/-- A slash keeps its distance: what follows a dropped comma opens no comment. -/
theorem head?_dropCommas (text : Text) : (dropCommas none text).head? = text.head? ∨
    (dropCommas none text).head? ≠ some '/' ∧ (dropCommas none text).head? ≠ some '*' := by
  induction text with
  | nil => exact .inl rfl
  | cons c text ih =>
    rw [dropCommas]
    split_ifs with hquote hcomma
    · exact .inl rfl
    · right
      have hnext := (Bool.and_eq_true_iff.mp hcomma).2
      rcases ih with hsame | hother
      · rw [hsame]
        cases text with
        | nil => exact ⟨nofun, nofun⟩
        | cons d text =>
          constructor <;>
          · intro heq
            cases heq
            exact absurd hnext (by simp [closesNext, isWhitespace])
      · exact hother
    · exact .inl rfl

theorem dropCommas_uncommented {quote : Option Bool} {text : Text} (h : Uncommented quote text) :
    Uncommented quote (dropCommas quote text) := by
  induction text generalizing quote with
  | nil => cases quote <;> exact h
  | cons c text ih =>
    cases quote with
    | some escaped => exact ih h
    | none =>
      rw [Uncommented] at h
      rw [dropCommas]
      split_ifs at h ⊢ with hquote hcomma
      · rw [Uncommented, if_pos hquote]
        exact ih h
      · exact ih h.2
      · rw [Uncommented, if_neg hquote]
        refine ⟨fun hslash => ?_, ih h.2⟩
        rcases head?_dropCommas text with hsame | hother
        · rw [hsame]
          exact h.1 hslash
        · exact hother

/-- What is stripped has no comments. -/
theorem stripComments_stripJsonc (text : Text) :
    stripComments (.plain none) (stripJsonc text) = stripJsonc text :=
  stripComments_of_uncommented
    (dropCommas_uncommented (stripComments_uncommented (.plain none) text))

/-- The next character that is no whitespace is a comma before a closing bracket. -/
def commaNext (text : Text) : Bool :=
  match text.dropWhile isWhitespace with
  | ',' :: rest => closesNext rest
  | _ => false

/-- Outside a string two commas stand before a closing bracket. -/
def doubled : Option Bool → Text → Bool
  | _, [] => false
  | some escaped, c :: text => doubled (unquote escaped c) text
  | none, c :: text =>
    if c = '"' then doubled (some false) text
    else c = ',' && commaNext text || doubled none text

theorem closesNext_cons {c : Char} (hc : isWhitespace c = false) (text : Text) :
    closesNext (c :: text) = (c = '\x7d' || c = ']') := by
  simp [closesNext, hc]

theorem closesNext_space {c : Char} (hc : isWhitespace c = true) (text : Text) :
    closesNext (c :: text) = closesNext text := by
  simp [closesNext, hc]

theorem commaNext_space {c : Char} (hc : isWhitespace c = true) (text : Text) :
    commaNext (c :: text) = commaNext text := by
  rw [commaNext, List.dropWhile_cons_of_pos hc, commaNext]

theorem commaNext_cons {c : Char} (hc : isWhitespace c = false) (text : Text) :
    commaNext (c :: text) = (c = ',' && closesNext text) := by
  rw [commaNext, List.dropWhile_cons_of_neg (by simp [hc])]
  by_cases hcomma : c = ','
  · subst hcomma
    simp
  · simp only [hcomma, decide_false, Bool.false_and]
    split
    · next heq => exact absurd (List.cons.inj heq).1 hcomma
    · rfl

/-- A closing bracket comes next where it came next, or where its comma was dropped. -/
theorem closesNext_dropCommas (text : Text) :
    closesNext (dropCommas none text) = (closesNext text || commaNext text) := by
  induction text with
  | nil => rfl
  | cons c text ih =>
    cases hc : isWhitespace c with
    | true =>
      have hquote : c ≠ '"' := by
        rintro rfl
        cases hc
      have hcomma : c ≠ ',' := by
        rintro rfl
        cases hc
      rw [dropCommas, if_neg hquote, if_neg (by simp [hcomma]), closesNext_space hc,
        closesNext_space hc, commaNext_space hc, ih]
    | false =>
      rw [commaNext_cons hc, closesNext_cons hc, dropCommas]
      split_ifs with hquote hcomma
      · rw [closesNext_cons hc, hquote]
        rfl
      · obtain ⟨hsame, hnext⟩ := Bool.and_eq_true_iff.mp hcomma
        rw [ih, hnext, hsame]
        simp
      · rw [closesNext_cons hc, Bool.eq_false_iff.mpr hcomma, Bool.or_false]

theorem commaNext_of_closesNext {text : Text} (h : closesNext text = true) :
    commaNext text = false := by
  induction text with
  | nil => rfl
  | cons c text ih =>
    cases hc : isWhitespace c with
    | true =>
      rw [closesNext_space hc] at h
      rw [commaNext_space hc, ih h]
    | false =>
      rw [closesNext_cons hc] at h
      rw [commaNext_cons hc]
      have hcomma : c ≠ ',' := by
        rintro rfl
        exact absurd h (by decide)
      simp [hcomma]

theorem length_dropCommas (quote : Option Bool) (text : Text) :
    (dropCommas quote text).length ≤ text.length := by
  induction text generalizing quote with
  | nil => cases quote <;> exact le_rfl
  | cons c text ih =>
    cases quote with
    | some escaped => exact Nat.succ_le_succ (ih _)
    | none =>
      rw [dropCommas]
      split_ifs
      · exact Nat.succ_le_succ (ih _)
      · exact (ih none).trans (Nat.le_succ _)
      · exact Nat.succ_le_succ (ih _)

/-- Once is enough exactly where no two commas stand before a closing bracket. -/
theorem dropCommas_dropCommas_iff (quote : Option Bool) (text : Text) :
    dropCommas quote (dropCommas quote text) = dropCommas quote text ↔
      doubled quote text = false := by
  induction text generalizing quote with
  | nil => cases quote <;> exact iff_of_true rfl rfl
  | cons c text ih =>
    cases quote with
    | some escaped =>
      rw [dropCommas, dropCommas, doubled, ← ih, List.cons.injEq, and_iff_right rfl]
    | none =>
      rw [doubled]
      by_cases hquote : c = '"'
      · rw [dropCommas, if_pos hquote, if_pos hquote, dropCommas, if_pos hquote, ← ih,
          List.cons.injEq, and_iff_right rfl]
      · rw [dropCommas, if_neg hquote, if_neg hquote]
        by_cases hcomma : (c = ',' && closesNext text) = true
        · have hnext := commaNext_of_closesNext (Bool.and_eq_true_iff.mp hcomma).2
          rw [if_pos hcomma, ih, hnext, Bool.and_false, Bool.false_or]
        · rw [if_neg hcomma, dropCommas, if_neg hquote, closesNext_dropCommas]
          by_cases hsame : c = ','
          · have hopen : closesNext text = false := by simpa [hsame] using hcomma
            rw [hopen, Bool.false_or]
            cases hnext : commaNext text with
            | true =>
              have hlength := length_dropCommas none (dropCommas none text)
              simp only [hsame, decide_true, Bool.true_and, if_true, Bool.true_or,
                Bool.true_eq_false, iff_false]
              intro heq
              rw [heq, List.length_cons] at hlength
              omega
            | false =>
              simp only [Bool.and_false, Bool.false_eq_true, if_false, Bool.false_or,
                List.cons.injEq, true_and, ih]
          · simp only [hsame, decide_false, Bool.false_and, Bool.false_eq_true, if_false,
              Bool.false_or, List.cons.injEq, true_and, ih]

theorem stripJsonc_stripJsonc_iff (text : Text) : stripJsonc (stripJsonc text) = stripJsonc text ↔
    doubled none (stripComments (.plain none) text) = false := by
  rw [stripJsonc, stripComments_stripJsonc, stripJsonc]
  exact dropCommas_dropCommas_iff none _

/-- The string literals of a text without comments, after what is seen of the first. -/
def literals : Option Bool → (seen : Text) → Text → List Text
  | none, _, [] => []
  | some _, seen, [] => [seen]
  | some escaped, seen, c :: text =>
    match unquote escaped c with
    | none => (seen ++ [c]) :: literals none [] text
    | some next => literals (some next) (seen ++ [c]) text
  | none, seen, c :: text =>
    if c = '"' then literals (some false) [c] text else literals none seen text

/-- The string literals of a text, read past its comments. -/
def literalsOf : Mode → (seen : Text) → Text → List Text
  | .plain (some _), seen, [] => [seen]
  | .plain (some escaped), seen, c :: text =>
    match unquote escaped c with
    | none => (seen ++ [c]) :: literalsOf (.plain none) [] text
    | some next => literalsOf (.plain (some next)) (seen ++ [c]) text
  | .plain none, seen, c :: text =>
    if c = '"' then literalsOf (.plain (some false)) [c] text
    else if c = '/' ∧ text.head? = some '/' then literalsOf .line seen text
    else if c = '/' ∧ text.head? = some '*' then literalsOf .opening seen text
    else literalsOf (.plain none) seen text
  | .line, seen, c :: text =>
    if c = '\n' then literalsOf (.plain none) seen text else literalsOf .line seen text
  | .opening, seen, _ :: text => literalsOf (.block '\x00') seen text
  | .block previous, seen, c :: text =>
    if previous = '*' ∧ c = '/' then literalsOf (.plain none) seen text
    else literalsOf (.block c) seen text
  | _, _, [] => []

theorem literals_stripComments (mode : Mode) (seen text : Text) :
    literals mode.quote seen (stripComments mode text) = literalsOf mode seen text := by
  induction text generalizing mode seen with
  | nil =>
    match mode with
    | .plain none | .plain (some _) | .line | .opening | .block _ => rfl
  | cons c text ih =>
    match mode with
    | .plain (some escaped) =>
      rw [stripComments, literalsOf, Mode.quote, literals]
      cases hnext : unquote escaped c with
      | none => exact congrArg _ (ih (.plain none) [])
      | some next => exact ih (.plain (some next)) _
    | .plain none =>
      rw [stripComments, literalsOf]
      split_ifs with hquote hline hblock
      · rw [Mode.quote, literals, if_pos hquote]
        exact ih (.plain (some false)) [c]
      · exact ih .line seen
      · exact ih .opening seen
      · rw [Mode.quote, literals, if_neg hquote]
        exact ih (.plain none) seen
    | .line =>
      rw [stripComments, literalsOf]
      split_ifs with hbreak
      · rw [hbreak]
        exact ih (.plain none) seen
      · exact ih .line seen
    | .opening => exact ih (.block '\x00') seen
    | .block previous =>
      rw [stripComments, literalsOf]
      split_ifs with hclose
      · exact ih (.plain none) seen
      · exact ih (.block c) seen

theorem literals_dropCommas (quote : Option Bool) (seen text : Text) :
    literals quote seen (dropCommas quote text) = literals quote seen text := by
  induction text generalizing quote seen with
  | nil => cases quote <;> rfl
  | cons c text ih =>
    cases quote with
    | some escaped =>
      rw [dropCommas, literals, literals]
      cases hnext : unquote escaped c with
      | none => exact congrArg _ (ih none [])
      | some next => exact ih (some next) _
    | none =>
      rw [dropCommas]
      split_ifs with hquote hcomma
      · rw [literals, literals, if_pos hquote, if_pos hquote]
        exact ih (some false) [c]
      · rw [literals, if_neg hquote]
        exact ih none seen
      · rw [literals, literals, if_neg hquote, if_neg hquote]
        exact ih none seen

/-- Every string literal is kept as it is, whatever it holds. -/
theorem literalsOf_stripJsonc (text : Text) :
    literalsOf (.plain none) [] (stripJsonc text) = literalsOf (.plain none) [] text := by
  rw [← literals_stripComments, stripComments_stripJsonc, stripJsonc]
  exact (literals_dropCommas none [] _).trans (literals_stripComments (.plain none) [] text)

end TinySweeper.Graph
