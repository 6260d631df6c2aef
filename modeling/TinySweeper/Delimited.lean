import TinySweeper.Text

/-!
# Reading what stands between delimiters

A reader looks for the first or the last place of a delimiter. Where a needle has
no line break, or its first character stands nowhere else, the place is known.
-/

namespace TinySweeper.Text

variable {α : Type*} [DecidableEq α] {needle text : List α}

theorem find_nil_of_ne (hne : needle ≠ []) : find needle [] = none := by
  simp [find, hne]

theorem find_of_match (h : needle <+: text) : find needle text = some 0 := by
  cases text with
  | nil => simp [find, List.prefix_nil.mp h]
  | cons c text => simp [find, List.isPrefixOf_iff_prefix.mpr h]

theorem find_cons_of_mismatch {c : α} (h : ¬needle <+: c :: text) :
    find needle (c :: text) = (find needle text).map (· + 1) := by
  simp [find, List.isPrefixOf_iff_prefix, h]

theorem find_isSome_iff : (find needle text).isSome ↔ needle <:+: text :=
  contains_iff

theorem find_eq_none_iff : find needle text = none ↔ ¬needle <:+: text := by
  rw [← find_isSome_iff, Option.not_isSome_iff_eq_none]

/-- A match inside the text is the first one of every longer text. -/
theorem find_append_of_some {i : ℕ} (h : find needle text = some i) (rest : List α) :
    find needle (text ++ rest) = some i := by
  induction text generalizing i with
  | nil =>
    unfold find at h
    split_ifs at h with hempty
    cases h
    apply find_of_match
    rw [List.isEmpty_iff.mp hempty]
    exact List.nil_prefix
  | cons c text ih =>
    by_cases hhere : needle <+: c :: text
    · rw [find_of_match hhere] at h
      cases h
      exact find_of_match (hhere.trans (List.prefix_append _ rest))
    · rw [find_cons_of_mismatch hhere] at h
      obtain ⟨j, hj, rfl⟩ := Option.map_eq_some_iff.mp h
      have hshort : needle.length ≤ text.length := by
        obtain ⟨hmatch, -⟩ := find_eq_some hj
        exact hmatch.length_le.trans (by simp)
      have hnot : ¬needle <+: c :: (text ++ rest) := by
        intro hlong
        apply hhere
        rw [← List.cons_append] at hlong
        exact List.prefix_of_prefix_length_le hlong (List.prefix_append _ rest)
          (by rw [List.length_cons]; omega)
      rw [List.cons_append, find_cons_of_mismatch hnot, ih hj]
      rfl

/-- A needle without the separator is found on one side of it. -/
theorem find_append_sep {sep : α} (hsep : sep ∉ needle) (hne : needle ≠ []) (text rest : List α) :
    find needle (text ++ sep :: rest) =
      (find needle text).or ((find needle rest).map (text.length + 1 + ·)) := by
  induction text with
  | nil =>
    have hnot : ¬needle <+: sep :: rest := by
      intro h
      have hnil := (@prefix_append_sep_iff _ _ [] rest _ hsep).mp h
      exact hne (List.prefix_nil.mp hnil)
    rw [List.nil_append, find_cons_of_mismatch hnot, find_nil_of_ne hne]
    simp [Nat.add_comm]
  | cons c text ih =>
    by_cases hhere : needle <+: c :: text
    · rw [find_of_match hhere, find_of_match (hhere.trans (List.prefix_append _ _))]
      rfl
    · have hnot : ¬needle <+: c :: (text ++ sep :: rest) := by
        rwa [← List.cons_append, prefix_append_sep_iff hsep]
      rw [List.cons_append, find_cons_of_mismatch hnot, ih, find_cons_of_mismatch hhere]
      cases find needle text with
      | some i => rfl
      | none =>
        rw [Option.map_none, Option.none_or, Option.none_or, Option.map_map, List.length_cons]
        congr 1
        funext i
        simp only [Function.comp_apply]
        omega

theorem find_append_sep_of_not_infix {sep : α} (hsep : sep ∉ needle) (hne : needle ≠ [])
    (hnot : ¬needle <:+: text) (rest : List α) :
    find needle (text ++ sep :: rest) = (find needle rest).map (text.length + 1 + ·) := by
  rw [find_append_sep hsep hne, find_eq_none_iff.mpr hnot, Option.none_or]

/-- No match starts in a stretch without the first character of the needle. -/
theorem find_append_of_notMem {c : α} {before : List α} (hbefore : c ∉ before) (rest : List α) :
    find (c :: needle) (before ++ rest) = (find (c :: needle) rest).map (before.length + ·) := by
  induction before with
  | nil => simp
  | cons d before ih =>
    have hnot : ¬(c :: needle) <+: d :: (before ++ rest) := by
      intro h
      exact hbefore ((List.cons_prefix_cons.mp h).1 ▸ List.mem_cons_self)
    rw [List.cons_append, find_cons_of_mismatch hnot,
      ih fun hmem => hbefore (List.mem_cons_of_mem d hmem), Option.map_map, List.length_cons]
    congr 1
    funext i
    simp only [Function.comp_apply]
    omega

/-- A doubled character behind a text without one is found there, or one place earlier where the
text ends with the character. -/
theorem find_pair {c : α} (hinner : ¬[c, c] <:+: text) (rest : List α) :
    find [c, c] (text ++ ([c, c] ++ rest)) =
      some (if text.getLast? = some c then text.length - 1 else text.length) := by
  induction text with
  | nil =>
    rw [List.nil_append, find_of_match (List.prefix_append _ _)]
    rfl
  | cons d text ih =>
    have hshort : ¬[c, c] <:+: text := fun h => hinner (h.trans (List.suffix_cons d text).isInfix)
    have hfound := ih hshort
    cases text with
    | nil =>
      by_cases hd : d = c
      · subst hd
        rw [find_of_match (by simp)]
        simp
      · rw [List.cons_append, find_cons_of_mismatch (by simp [Ne.symm hd]), hfound]
        simp [hd]
    | cons e text =>
      have hnot : ¬[c, c] <+: d :: (e :: text ++ ([c, c] ++ rest)) := by
        intro h
        simp only [List.cons_append, List.cons_prefix_cons, List.nil_prefix, and_true] at h
        obtain ⟨rfl, rfl⟩ := h
        exact hinner ⟨[], text, rfl⟩
      rw [List.cons_append, find_cons_of_mismatch hnot, hfound, List.getLast?_cons_cons]
      split <;> simp

/-- The position of the last occurrence of the needle. -/
def rfind (needle : List α) : List α → Option ℕ
  | [] => if needle.isEmpty then some 0 else none
  | c :: text =>
    ((rfind needle text).map (· + 1)).or
      (if needle.isPrefixOf (c :: text) then some 0 else none)

theorem rfind_eq_none {c : α} (h : c ∉ text) : rfind (c :: needle) text = none := by
  induction text with
  | nil => rfl
  | cons d text ih =>
    have hd : c ≠ d := by
      rintro rfl
      exact h List.mem_cons_self
    simp [rfind, ih fun hmem => h (List.mem_cons_of_mem d hmem), List.isPrefixOf, hd]

/-- A needle whose first character stands nowhere behind it is the last match. -/
theorem rfind_append {c : α} {rest : List α} (hrest : c ∉ needle ++ rest) (before : List α) :
    rfind (c :: needle) (before ++ (c :: needle ++ rest)) = some before.length := by
  induction before with
  | nil =>
    have hhere : (c :: needle).isPrefixOf (c :: (needle ++ rest)) = true :=
      List.isPrefixOf_iff_prefix.mpr (List.prefix_append (c :: needle) rest)
    rw [List.nil_append, List.cons_append, rfind, rfind_eq_none hrest, hhere]
    rfl
  | cons d before ih =>
    rw [List.cons_append, rfind, ih]
    rfl

theorem rfind_prefix {i : ℕ} (h : rfind needle text = some i) :
    needle <+: text.drop i ∧ i ≤ text.length := by
  induction text generalizing i with
  | nil =>
    unfold rfind at h
    split_ifs at h with hempty
    cases h
    rw [List.isEmpty_iff.mp hempty]
    exact ⟨List.nil_prefix, le_rfl⟩
  | cons c text ih =>
    unfold rfind at h
    cases hlater : rfind needle text with
    | some j =>
      rw [hlater] at h
      cases h
      obtain ⟨hmatch, hlength⟩ := ih hlater
      exact ⟨hmatch, by simpa using hlength⟩
    | none =>
      rw [hlater, Option.map_none, Option.none_or] at h
      split_ifs at h with hhere
      cases h
      exact ⟨List.isPrefixOf_iff_prefix.mp hhere, Nat.zero_le _⟩

def stripPrefix (lead text : List α) : Option (List α) :=
  if lead.isPrefixOf text then some (text.drop lead.length) else none

def stripSuffix (tail text : List α) : Option (List α) :=
  if tail.isSuffixOf text then some (text.take (text.length - tail.length)) else none

/-- The text before and after the last separator. -/
def rsplitOnce (sep : α) (text : List α) : Option (List α × List α) :=
  (splitOnce sep text.reverse).map fun parts => (parts.2.reverse, parts.1.reverse)

@[simp] theorem stripPrefix_append (lead text : List α) :
    stripPrefix lead (lead ++ text) = some text := by
  have h : lead.isPrefixOf (lead ++ text) = true :=
    List.isPrefixOf_iff_prefix.mpr (List.prefix_append lead text)
  simp [stripPrefix, h]

theorem stripPrefix_eq_none_iff {lead : List α} :
    stripPrefix lead text = none ↔ ¬lead <+: text := by
  simp [stripPrefix, List.isPrefixOf_iff_prefix]

@[simp] theorem stripSuffix_append (text tail : List α) :
    stripSuffix tail (text ++ tail) = some text := by
  have h : tail.isSuffixOf (text ++ tail) = true :=
    List.isSuffixOf_iff_suffix.mpr (List.suffix_append text tail)
  simp [stripSuffix, h]

theorem stripSuffix_eq_none_iff {tail : List α} :
    stripSuffix tail text = none ↔ ¬tail <:+ text := by
  simp [stripSuffix, List.isSuffixOf_iff_suffix]

omit [DecidableEq α] in
theorem mem_intercalate {sep : List α} {texts : List (List α)} {c : α}
    (h : c ∈ sep.intercalate texts) : c ∈ sep ∨ ∃ text ∈ texts, c ∈ text := by
  induction texts with
  | nil => simp at h
  | cons text texts ih =>
    cases texts with
    | nil => exact .inr ⟨text, List.mem_singleton_self _, by simpa using h⟩
    | cons next texts =>
      rw [List.intercalate_cons_cons, List.mem_append, List.mem_append] at h
      rcases h with (htext | hsep) | hrest
      · exact .inr ⟨text, List.mem_cons_self, htext⟩
      · exact .inl hsep
      · rcases ih hrest with hsep | ⟨other, hother, hmem⟩
        · exact .inl hsep
        · exact .inr ⟨other, List.mem_cons_of_mem _ hother, hmem⟩

/-- What stands between the first opener and the first closer behind it. -/
def between (opener closer text : List α) : Option (List α) :=
  (find opener text).bind fun start =>
    let rest := text.drop (start + opener.length)
    (find closer rest).map fun stop => rest.take stop

/-- Nothing is read from a stretch before a separator that has no opener. -/
theorem between_append_sep {opener : List α} {sep : α} (hsep : sep ∉ opener) (hne : opener ≠ [])
    (hnot : ¬opener <:+: text) (closer rest : List α) :
    between opener closer (text ++ sep :: rest) = between opener closer rest := by
  rw [between, find_append_sep_of_not_infix hsep hne hnot, between]
  cases find opener rest with
  | none => rfl
  | some start =>
    have hdrop : (text ++ sep :: rest).drop (text.length + 1 + start + opener.length) =
        rest.drop (start + opener.length) := by
      rw [List.append_cons, Nat.add_assoc,
        show text.length + 1 = (text ++ [sep]).length by simp, List.drop_length_add_append]
    simp only [Option.map_some, Option.bind_some, hdrop]

theorem between_append_of_some {opener closer value : List α}
    (h : between opener closer text = some value) (rest : List α) :
    between opener closer (text ++ rest) = some value := by
  unfold between at h ⊢
  cases hstart : find opener text with
  | none => simp [hstart] at h
  | some start =>
    rw [hstart, Option.bind_some] at h
    dsimp only at h
    obtain ⟨stop, hstop, rfl⟩ := Option.map_eq_some_iff.mp h
    obtain ⟨hmatch, hlength⟩ := find_eq_some hstart
    have hbound : start + opener.length ≤ text.length := by
      have := hmatch.length_le
      rw [List.length_drop] at this
      omega
    have hinside := (find_eq_some hstop).2
    rw [find_append_of_some hstart, Option.bind_some]
    dsimp only
    rw [List.drop_append_of_le_length hbound, find_append_of_some hstop, Option.map_some,
      List.take_append_of_le_length hinside]

end TinySweeper.Text
