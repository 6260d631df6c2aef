import TinySweeper.Text

/-!
# Byte offsets in texts

Texts are lists of characters, and programs cut them at byte offsets: at the last
boundary of a character below a ceiling, or at an offset that must be a boundary.
-/

namespace TinySweeper.Text

@[simp] theorem utf8Len_nil : utf8Len [] = 0 := rfl

@[simp] theorem utf8Len_cons (c : Char) (text : Text) :
    utf8Len (c :: text) = c.utf8Size + utf8Len text := rfl

@[simp] theorem utf8Len_append (a b : Text) : utf8Len (a ++ b) = utf8Len a + utf8Len b := by
  simp [utf8Len]

theorem utf8Len_eq_zero {text : Text} : utf8Len text = 0 ↔ text = [] := by
  cases text with
  | nil => simp
  | cons c text =>
    have hc := Char.utf8Size_pos c
    simp only [utf8Len_cons, reduceCtorEq, iff_false]
    omega

/-- The longest beginning of at most this many bytes, and the rest. -/
def fitting : ℕ → Text → Text × Text
  | _, [] => ([], [])
  | n, c :: text =>
    if c.utf8Size ≤ n then
      ((c :: (fitting (n - c.utf8Size) text).1), (fitting (n - c.utf8Size) text).2)
    else ([], c :: text)

theorem fitting_append (n : ℕ) (text : Text) : (fitting n text).1 ++ (fitting n text).2 = text := by
  induction text generalizing n with
  | nil => rfl
  | cons c text ih =>
    unfold fitting
    split
    · rw [List.cons_append, ih]
    · rfl

theorem utf8Len_fitting (n : ℕ) (text : Text) : utf8Len (fitting n text).1 ≤ n := by
  induction text generalizing n with
  | nil => exact Nat.zero_le n
  | cons c text ih =>
    unfold fitting
    split
    · have h := ih (n - c.utf8Size)
      rw [utf8Len_cons]
      omega
    · exact Nat.zero_le n

/-- The next character does not fit. -/
theorem lt_of_fitting {n : ℕ} {text rest : Text} {c : Char} (h : (fitting n text).2 = c :: rest) :
    n < utf8Len (fitting n text).1 + c.utf8Size := by
  induction text generalizing n with
  | nil => cases h
  | cons d text ih =>
    unfold fitting at h ⊢
    split
    · next hfits =>
      rw [if_pos hfits] at h
      have hrest := ih h
      rw [utf8Len_cons]
      omega
    · next hwide =>
      rw [if_neg hwide] at h
      cases h
      rw [utf8Len_nil]
      omega

theorem fitting_ne_nil {n : ℕ} {text : Text} (hn : 4 ≤ n) (htext : text ≠ []) :
    (fitting n text).1 ≠ [] := by
  cases text with
  | nil => exact absurd rfl htext
  | cons c text =>
    have hc := Char.utf8Size_le_four c
    rw [fitting, if_pos (by omega)]
    exact List.cons_ne_nil _ _

/-- The text before and after an offset, where that is the boundary of a character. -/
def splitAtByte : ℕ → Text → Option (Text × Text)
  | 0, text => some ([], text)
  | _ + 1, [] => none
  | n + 1, c :: text =>
    if c.utf8Size ≤ n + 1 then
      (splitAtByte (n + 1 - c.utf8Size) text).map fun (before, after) => (c :: before, after)
    else none

theorem splitAtByte_eq_some_iff {n : ℕ} {text before after : Text} :
    splitAtByte n text = some (before, after) ↔ text = before ++ after ∧ utf8Len before = n := by
  induction text generalizing n before with
  | nil =>
    cases n with
    | zero =>
      rw [splitAtByte, Option.some.injEq, Prod.mk.injEq]
      constructor
      · rintro ⟨rfl, rfl⟩
        exact ⟨rfl, rfl⟩
      · rintro ⟨h, _⟩
        exact ⟨(List.append_eq_nil_iff.mp h.symm).1.symm, (List.append_eq_nil_iff.mp h.symm).2.symm⟩
    | succ n =>
      rw [splitAtByte]
      refine iff_of_false nofun ?_
      rintro ⟨h, hlen⟩
      rw [(List.append_eq_nil_iff.mp h.symm).1] at hlen
      cases hlen
  | cons c text ih =>
    cases n with
    | zero =>
      rw [splitAtByte, Option.some.injEq, Prod.mk.injEq, utf8Len_eq_zero]
      constructor
      · rintro ⟨rfl, rfl⟩
        exact ⟨rfl, rfl⟩
      · rintro ⟨h, rfl⟩
        exact ⟨rfl, h⟩
    | succ n =>
      rw [splitAtByte]
      have hc := Char.utf8Size_pos c
      cases before with
      | nil =>
        refine iff_of_false ?_ (fun h => by cases h.2)
        split
        · simp
        · exact nofun
      | cons d before =>
        rw [List.cons_append, List.cons.injEq, utf8Len_cons]
        split
        · next hfits =>
          simp only [Option.map_eq_some_iff, Prod.mk.injEq, List.cons.injEq]
          constructor
          · rintro ⟨⟨a, b⟩, hsplit, ⟨rfl, rfl⟩, rfl⟩
            obtain ⟨htext, hlen⟩ := ih.mp hsplit
            dsimp only at htext hlen ⊢
            exact ⟨⟨rfl, htext⟩, by omega⟩
          · rintro ⟨⟨rfl, htext⟩, hlen⟩
            exact ⟨(before, after), ih.mpr ⟨htext, by omega⟩, ⟨rfl, rfl⟩, rfl⟩
        · next hwide =>
          refine iff_of_false nofun ?_
          rintro ⟨⟨rfl, _⟩, hlen⟩
          omega

/-- The text between two offsets, where both are boundaries of characters. -/
def byteSlice (start stop : ℕ) (text : Text) : Option Text := do
  let (_, rest) ← splitAtByte start text
  if start ≤ stop then
    let (inner, _) ← splitAtByte (stop - start) rest
    return inner
  else none

theorem byteSlice_append (before inner after : Text) :
    byteSlice (utf8Len before) (utf8Len before + utf8Len inner) (before ++ (inner ++ after)) =
      some inner := by
  have hbefore : splitAtByte (utf8Len before) (before ++ (inner ++ after)) =
      some (before, inner ++ after) := splitAtByte_eq_some_iff.mpr ⟨rfl, rfl⟩
  have hinner : splitAtByte (utf8Len inner) (inner ++ after) = some (inner, after) :=
    splitAtByte_eq_some_iff.mpr ⟨rfl, rfl⟩
  simp [byteSlice, hbefore, hinner]

end TinySweeper.Text
