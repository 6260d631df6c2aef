import TinySweeper.Bytes

/-!
# Shared prefixes

What two lists begin with alike, and how many bytes the UTF-8 forms of two texts
begin with alike. The byte count ends inside a character where two different
characters begin with the same byte.
-/

namespace TinySweeper

section List

variable {α : Type*} [DecidableEq α]

/-- The longest list that both begin with. -/
def commonPrefix : List α → List α → List α
  | a :: as, b :: bs => if a = b then a :: commonPrefix as bs else []
  | _, _ => []

@[simp] theorem commonPrefix_nil_left (b : List α) : commonPrefix [] b = [] := by
  cases b <;> rfl

@[simp] theorem commonPrefix_nil_right (a : List α) : commonPrefix a [] = [] := by
  cases a <;> rfl

@[simp] theorem commonPrefix_append_left (p a b : List α) :
    commonPrefix (p ++ a) (p ++ b) = p ++ commonPrefix a b := by
  induction p with
  | nil => rfl
  | cons x p ih => rw [List.cons_append, List.cons_append, commonPrefix, if_pos rfl, ih]; rfl

theorem commonPrefix_prefix_left (a b : List α) : commonPrefix a b <+: a := by
  induction a generalizing b with
  | nil => simp
  | cons x a ih =>
    cases b with
    | nil => simp
    | cons y b =>
      rw [commonPrefix]
      split
      · exact List.cons_prefix_cons.mpr ⟨rfl, ih b⟩
      · exact List.nil_prefix

/-- Two lists are alike up to the end of one or up to a difference. -/
theorem commonPrefix_cases (a b : List α) :
    (∃ rest, a = commonPrefix a b ++ rest ∧ b = commonPrefix a b) ∨
      (∃ rest, b = commonPrefix a b ++ rest ∧ a = commonPrefix a b) ∨
      ∃ x y as bs, a = commonPrefix a b ++ x :: as ∧ b = commonPrefix a b ++ y :: bs ∧ x ≠ y := by
  induction a generalizing b with
  | nil => exact .inr (.inl ⟨b, by simp, by simp⟩)
  | cons x a ih =>
    cases b with
    | nil => exact .inl ⟨x :: a, by simp, by simp⟩
    | cons y b =>
      rw [commonPrefix]
      by_cases hxy : x = y
      · subst hxy
        simp only [if_true, List.cons_append, List.cons.injEq, true_and]
        exact ih b
      · rw [if_neg hxy]
        exact .inr (.inr ⟨x, y, a, b, rfl, rfl, hxy⟩)

theorem commonPrefix_of_ne {x y : α} (h : x ≠ y) (as bs : List α) :
    commonPrefix (x :: as) (y :: bs) = [] := if_neg h

/-- Lists neither of which begins with the other differ inside both. -/
theorem commonPrefix_append_append {u v : List α} (huv : ¬ u <+: v) (hvu : ¬ v <+: u)
    (as bs : List α) : commonPrefix (u ++ as) (v ++ bs) = commonPrefix u v ∧
      (commonPrefix u v).length < u.length := by
  rcases commonPrefix_cases u v with ⟨rest, hu, hv⟩ | ⟨rest, hv, hu⟩ | ⟨x, y, us, vs, hu, hv, hne⟩
  · exact absurd ⟨rest, by rw [hv]; exact hu.symm⟩ hvu
  · exact absurd ⟨rest, by rw [hu]; exact hv.symm⟩ huv
  · generalize commonPrefix u v = shared at hu hv ⊢
    constructor
    · rw [hu, hv, List.append_assoc, List.append_assoc, commonPrefix_append_left,
        List.cons_append, List.cons_append, commonPrefix_of_ne hne, List.append_nil]
    · rw [hu, List.length_append, List.length_cons]
      omega

theorem commonPrefix_eq_nil_iff {u v : List α} (hu : u ≠ []) (hv : v ≠ []) :
    commonPrefix u v = [] ↔ u.head? ≠ v.head? := by
  cases u with
  | nil => exact absurd rfl hu
  | cons x u =>
    cases v with
    | nil => exact absurd rfl hv
    | cons y v =>
      rw [commonPrefix]
      split <;> simp_all

end List

namespace Text

/-- The bytes of the UTF-8 form. -/
def utf8 (text : Text) : List UInt8 := text.flatMap String.utf8EncodeChar

/-- How many bytes two texts begin with alike. -/
def sharedBytes (a b : Text) : ℕ :=
  (((utf8 a).zip (utf8 b)).takeWhile fun (x, y) => x = y).length

@[simp] theorem utf8_append (a b : Text) : utf8 (a ++ b) = utf8 a ++ utf8 b := List.flatMap_append

@[simp] theorem length_utf8 (text : Text) : (utf8 text).length = utf8Len text := by
  simp [utf8, utf8Len, List.length_flatMap]

theorem sharedBytes_eq (a b : Text) :
    sharedBytes a b = (commonPrefix (utf8 a) (utf8 b)).length := by
  unfold sharedBytes
  generalize utf8 a = as
  generalize utf8 b = bs
  induction as generalizing bs with
  | nil => simp
  | cons x as ih =>
    cases bs with
    | nil => simp
    | cons y bs =>
      rw [List.zip_cons_cons, List.takeWhile_cons, commonPrefix]
      by_cases hxy : x = y <;> simp [hxy, ih]

/-- No character's bytes begin with those of another. -/
theorem eq_of_leading_utf8EncodeChar {c d : Char}
    (h : String.utf8EncodeChar c <+: String.utf8EncodeChar d) : c = d := by
  obtain ⟨rest, hrest⟩ := h
  have hc : ((String.utf8EncodeChar c).toByteArray ++ rest.toByteArray).utf8DecodeChar? 0 = some c :=
    ByteArray.utf8DecodeChar?_utf8EncodeChar_append
  have hd : ((String.utf8EncodeChar d).toByteArray ++ ([] : List UInt8).toByteArray).utf8DecodeChar?
      0 = some d := ByteArray.utf8DecodeChar?_utf8EncodeChar_append
  rw [← List.toByteArray_append, hrest] at hc
  rw [← List.toByteArray_append, List.append_nil, hc] at hd
  exact Option.some.inj hd

/-- The first difference of two texts is between characters that begin with the same byte. -/
def SplitsChar (a b : Text) : Prop :=
  ∃ x y as bs, a = commonPrefix a b ++ x :: as ∧ b = commonPrefix a b ++ y :: bs ∧ x ≠ y ∧
    (String.utf8EncodeChar x).head? = (String.utf8EncodeChar y).head?

theorem sharedBytes_append (p a b : Text) :
    sharedBytes (p ++ a) (p ++ b) = utf8Len p + sharedBytes a b := by
  rw [sharedBytes_eq, sharedBytes_eq, utf8_append, utf8_append, commonPrefix_append_left,
    List.length_append, length_utf8]

/-- An offset inside a character is no boundary. -/
theorem splitAtByte_inside {p as : Text} {x : Char} {n : ℕ} (hn : 0 < n) (hx : n < x.utf8Size) :
    splitAtByte (utf8Len p + n) (p ++ x :: as) = none := by
  by_contra hsome
  obtain ⟨⟨before, after⟩, hsplit⟩ := Option.ne_none_iff_exists'.mp hsome
  obtain ⟨htext, hlen⟩ := splitAtByte_eq_some_iff.mp hsplit
  rcases List.append_eq_append_iff.mp htext with ⟨rest, hbefore, hrest⟩ | ⟨rest, hp, -⟩
  · rw [hbefore, utf8Len_append] at hlen
    cases rest with
    | nil => simp at hlen; omega
    | cons c rest =>
      obtain rfl := (List.cons.inj hrest).1
      rw [utf8Len_cons] at hlen
      omega
  · rw [hp, utf8Len_append] at hlen
    omega

/-- Of two different characters, less than one is shared. -/
theorem sharedBytes_of_ne {x y : Char} (h : x ≠ y) (as bs : Text) :
    sharedBytes (x :: as) (y :: bs) < x.utf8Size ∧
      (sharedBytes (x :: as) (y :: bs) = 0 ↔
        (String.utf8EncodeChar x).head? ≠ (String.utf8EncodeChar y).head?) := by
  have hxy : ¬ String.utf8EncodeChar x <+: String.utf8EncodeChar y := fun hleading =>
    h (eq_of_leading_utf8EncodeChar hleading)
  have hyx : ¬ String.utf8EncodeChar y <+: String.utf8EncodeChar x := fun hleading =>
    h (eq_of_leading_utf8EncodeChar hleading).symm
  obtain ⟨heq, hlt⟩ := commonPrefix_append_append hxy hyx (utf8 as) (utf8 bs)
  have hshared : sharedBytes (x :: as) (y :: bs) =
      (commonPrefix (String.utf8EncodeChar x) (String.utf8EncodeChar y)).length := by
    rw [sharedBytes_eq, utf8, List.flatMap_cons, utf8, List.flatMap_cons]
    exact congrArg List.length heq
  rw [hshared]
  constructor
  · rwa [String.length_utf8EncodeChar] at hlt
  · rw [List.length_eq_zero_iff, commonPrefix_eq_nil_iff String.utf8EncodeChar_ne_nil
      String.utf8EncodeChar_ne_nil]

theorem splitsChar_iff {a b : Text} {x y : Char} {as bs : Text}
    (ha : a = commonPrefix a b ++ x :: as) (hb : b = commonPrefix a b ++ y :: bs) (hne : x ≠ y) :
    SplitsChar a b ↔ (String.utf8EncodeChar x).head? = (String.utf8EncodeChar y).head? := by
  constructor
  · rintro ⟨x', y', as', bs', ha', hb', -, hhead⟩
    obtain ⟨rfl, -⟩ := List.cons.inj (List.append_cancel_left (ha'.symm.trans ha))
    obtain ⟨rfl, -⟩ := List.cons.inj (List.append_cancel_left (hb'.symm.trans hb))
    exact hhead
  · exact fun hhead => ⟨x, y, as, bs, ha, hb, hne, hhead⟩

/-- Where one text is a prefix of the other no character is split. -/
theorem not_splitsChar_of_leading {a b : Text} (h : a = commonPrefix a b ∨ b = commonPrefix a b) :
    ¬ SplitsChar a b := by
  rintro ⟨x, y, as, bs, ha, hb, -⟩
  rcases h with h | h
  · have hlen := congrArg List.length (h.symm.trans ha)
    simp at hlen
  · have hlen := congrArg List.length (h.symm.trans hb)
    simp at hlen

/-- Cutting at the shared bytes fails inside a character, and else cuts the shared prefix. -/
theorem splitAtByte_sharedBytes (a b : Text) :
    SplitsChar a b ∧ splitAtByte (sharedBytes a b) a = none ∨
      ¬ SplitsChar a b ∧ ∃ rest, splitAtByte (sharedBytes a b) a = some (commonPrefix a b, rest) := by
  rcases commonPrefix_cases a b with ⟨rest, ha, hb⟩ | ⟨rest, hb, ha⟩ | ⟨x, y, as, bs, ha, hb, hne⟩
  · refine .inr ⟨not_splitsChar_of_leading (.inr hb), rest, splitAtByte_eq_some_iff.mpr ⟨ha, ?_⟩⟩
    generalize commonPrefix a b = shared at ha hb ⊢
    have hshared := sharedBytes_append shared rest []
    rw [ha, hb]
    simpa [sharedBytes_eq, utf8] using hshared.symm
  · refine .inr ⟨not_splitsChar_of_leading (.inl ha), [], splitAtByte_eq_some_iff.mpr ⟨by
      rw [List.append_nil]; exact ha, ?_⟩⟩
    generalize commonPrefix a b = shared at ha hb ⊢
    have hshared := sharedBytes_append shared [] rest
    rw [ha, hb]
    simpa [sharedBytes_eq, utf8] using hshared.symm
  · rw [splitsChar_iff ha hb hne]
    generalize commonPrefix a b = shared at ha hb ⊢
    obtain ⟨hlt, hzero⟩ := sharedBytes_of_ne hne as bs
    rw [ha, hb, sharedBytes_append]
    by_cases hhead : (String.utf8EncodeChar x).head? = (String.utf8EncodeChar y).head?
    · have hpos : 0 < sharedBytes (x :: as) (y :: bs) :=
        Nat.pos_of_ne_zero fun h => hzero.mp h hhead
      exact .inl ⟨hhead, splitAtByte_inside hpos hlt⟩
    · refine .inr ⟨hhead, x :: as, splitAtByte_eq_some_iff.mpr ⟨rfl, ?_⟩⟩
      rw [hzero.mpr hhead, Nat.add_zero]

/-- Texts behind one prefix split a character just when they do without it. -/
theorem splitsChar_append_left (p a b : Text) :
    SplitsChar (p ++ a) (p ++ b) ↔ SplitsChar a b := by
  unfold SplitsChar
  simp only [commonPrefix_append_left, List.append_assoc, List.append_right_inj]

end Text

end TinySweeper
