import TinySweeper.Delimited
import TinySweeper.Markdown.Inert

/-!
# Text that prose shows as it is

Escaping only adds characters. What is read back from a rendered text, trimmed, is
the text itself just where no character of it was escaped or dropped.
-/

namespace TinySweeper.Markdown

open Text

variable (isAlphanumeric : Char → Bool) {c d : Char} {text : Text}

/-- The text is trimmed and rendered as it is. -/
def Verbatim (text : Text) : Prop := trim (prose isAlphanumeric text) = text

instance (text : Text) : Decidable (Verbatim isAlphanumeric text) :=
  inferInstanceAs (Decidable (_ = _))

/-- What every character leaves behind adds up. -/
theorem countP_le_render {f : ℕ → Char → Text} {p q : Char → Bool}
    (h : ∀ index c, p c → 1 ≤ (f index c).countP q) (rest : Text) (index : ℕ) :
    rest.countP p ≤ (render f index rest).countP q := by
  induction rest generalizing index with
  | nil => simp
  | cons c rest ih =>
    have hrest := ih (index + 1)
    rw [render_cons, List.countP_append, List.countP_cons]
    split
    · next hc =>
      have hone := h index c hc
      omega
    · omega

theorem countP_le_prose {p q : Char → Bool}
    (h : ∀ m characters index c, p c → 1 ≤ (escape isAlphanumeric m characters index c).countP q)
    (text : Text) : text.countP p ≤ (prose isAlphanumeric text).countP q :=
  countP_le_render (h _ _) text 0

theorem countP_trim {q : Char → Bool} (hq : ∀ c, q c → isWhitespace c = false) (text : Text) :
    (trim text).countP q = text.countP q := by
  have hdrop : ∀ text : Text, (text.dropWhile isWhitespace).countP q = text.countP q := by
    intro text
    induction text with
    | nil => rfl
    | cons c text ih =>
      by_cases hc : isWhitespace c = true
      · have hnot : q c ≠ true := fun hqc => by simp [hq c hqc] at hc
        rw [List.dropWhile_cons_of_pos hc, ih, List.countP_cons_of_neg hnot]
      · rw [List.dropWhile_cons_of_neg hc]
  unfold trim trimEnd trimStart List.rdropWhile
  rw [List.countP_reverse, hdrop, List.countP_reverse, hdrop]

theorem mem_trim (hc : isWhitespace c = false) (h : c ∈ text) : c ∈ trim text := by
  have hcount := countP_trim (q := fun d => d = c) (by
    intro d hd
    rwa [show d = c by simpa using hd]) text
  have hpos : 0 < text.countP fun d => d = c := List.countP_pos_iff.mpr ⟨c, h, by simp⟩
  rw [← hcount] at hpos
  obtain ⟨d, hd, hdc⟩ := List.countP_pos_iff.mp hpos
  rwa [show d = c by simpa using hdc] at hd

theorem escape_slash (m : Markers) (characters : Text) (index : ℕ) (hc : c = '\\' ∨ c = '*') :
    escape isAlphanumeric m characters index c = ['\\', c] := by
  rcases hc with rfl | rfl <;> simp [escape, isControl]

theorem escape_colon (m : Markers) (characters : Text) (index : ℕ) :
    escape isAlphanumeric m characters index ':' = "&#58;".toList ∨
      escape isAlphanumeric m characters index ':' = [':'] := by
  unfold escape
  cases m.inUrlToken[index]?.getD false <;> simp [isControl]

theorem escape_self (m : Markers) (characters : Text) (index : ℕ) (hc : c = ';' ∨ c = '·') :
    escape isAlphanumeric m characters index c = [c] := by
  rcases hc with rfl | rfl <;> simp [escape, isControl]

theorem getLast?_of_odd (h : Odd (backslashes text)) : text.getLast? = some '\\' := by
  cases text using List.reverseRecOn with
  | nil => simp [backslashes] at h
  | append_singleton text c =>
    by_cases hc : c = '\\'
    · simp [hc]
    · rw [backslashes_concat_of_ne hc] at h
      simp at h

/-- A bracket or an asterisk of a rendered text follows a backslash. -/
theorem prose_slashed {before after : Text} (hd : d ∈ ['[', '*'])
    (h : prose isAlphanumeric text = before ++ d :: after) : before.getLast? = some '\\' := by
  have hmem : d ∈ ['[', ']', '*'] := by
    simp only [List.mem_cons, List.not_mem_nil, or_false] at hd ⊢
    tauto
  exact getLast?_of_odd (odd_backslashes (prose_renders isAlphanumeric text) hmem h)

/-- No asterisk of a rendered text is followed by a bracket or an asterisk. -/
theorem not_infix_prose (hd : d ∈ ['[', '*']) (text : Text) :
    ¬['*', d] <:+: prose isAlphanumeric text := by
  rintro ⟨before, after, h⟩
  have hsplit : prose isAlphanumeric text = (before ++ ['*']) ++ d :: after := by simpa using h.symm
  have hlast := prose_slashed isAlphanumeric hd hsplit
  simp at hlast

/-- Nor is there such a pair where a rendered text stands between texts without the second one. -/
theorem not_infix_around (hd : d ∈ ['[', '*']) {before after : Text} (hbefore : d ∉ before)
    (hafter : d ∉ after) (text : Text) :
    ¬['*', d] <:+: before ++ (prose isAlphanumeric text ++ after) := by
  rintro ⟨start, rest, h⟩
  have hwhole : (start ++ ['*']) ++ d :: rest = before ++ (prose isAlphanumeric text ++ after) := by
    simpa using h
  have hinside : ∃ middle behind, start ++ ['*'] = before ++ middle ∧
      prose isAlphanumeric text ++ after = middle ++ d :: behind := by
    rcases List.append_eq_append_iff.mp hwhole with ⟨middle, hmiddle, hsplit⟩ | ⟨middle, h⟩
    · cases middle with
      | nil => exact ⟨[], rest, by simpa using hmiddle.symm, hsplit.symm⟩
      | cons c middle =>
        obtain ⟨rfl, -⟩ := List.cons.inj hsplit
        exact absurd (by simp [hmiddle]) hbefore
    · exact ⟨middle, rest, h⟩
  obtain ⟨middle, behind, hstart, hsplit⟩ := hinside
  have hprose : ∃ tail, prose isAlphanumeric text = middle ++ d :: tail := by
    rcases List.append_eq_append_iff.mp hsplit with ⟨between, -, hrest⟩ | ⟨between, h, hrest⟩
    · rw [hrest] at hafter
      simp at hafter
    · cases between with
      | nil =>
        rw [List.nil_append] at hrest
        exact absurd (hrest ▸ List.mem_cons_self) hafter
      | cons c between =>
        obtain ⟨rfl, -⟩ := List.cons.inj hrest
        exact ⟨between, h⟩
  obtain ⟨tail, hprose⟩ := hprose
  have hlast := prose_slashed isAlphanumeric hd hprose
  obtain ⟨init, rfl⟩ := List.getLast?_eq_some_iff.mp hlast
  have hends := congrArg List.getLast? hstart
  simp at hends

theorem quiet_prose (hd : d ∈ ['<', '\x60', '\n']) (text : Text) :
    d ∉ prose isAlphanumeric text := by
  intro hmem
  obtain ⟨hmark, hshown⟩ := quiet_render (prose_renders isAlphanumeric text) hmem
  simp only [List.mem_cons, List.not_mem_nil, or_false, not_or] at hd hmark
  rcases hd with rfl | rfl | rfl
  · exact hmark.1 rfl
  · exact hmark.2.2.2 rfl
  · exact absurd hshown (by decide)

/-- The dot of the footer is written as it is. -/
theorem dot_mem_prose (h : '·' ∈ text) : '·' ∈ prose isAlphanumeric text := by
  have hle := countP_le_prose isAlphanumeric (p := fun c => c = '·') (q := fun c => c = '·') (by
    intro m characters index c hc
    obtain rfl : c = '·' := by simpa using hc
    rw [escape_self isAlphanumeric m characters index (.inr rfl)]
    decide) text
  have hpos : 0 < text.countP fun c => c = '·' := List.countP_pos_iff.mpr ⟨_, h, by simp⟩
  obtain ⟨d, hd, hdc⟩ := List.countP_pos_iff.mp (hpos.trans_le hle)
  rwa [show d = '·' by simpa using hdc] at hd

/-- What is left of a rendered text at its start begins with no asterisk. -/
theorem head_trimStart_prose {tail : Text} (h : trimStart (prose isAlphanumeric text) = c :: tail) :
    c ≠ '*' := by
  rintro rfl
  have hsplit : prose isAlphanumeric text =
      (prose isAlphanumeric text).takeWhile isWhitespace ++ '*' :: tail := by
    rw [← h]
    exact (List.takeWhile_append_dropWhile).symm
  have hlast := prose_slashed isAlphanumeric (by simp) hsplit
  have hblank := List.all_eq_true.mp (List.all_takeWhile (p := isWhitespace)
    (l := prose isAlphanumeric text)) _ (List.mem_of_getLast? hlast)
  exact absurd hblank (by decide)

theorem star_of_mem_prose (h : '*' ∈ prose isAlphanumeric text) : '*' ∈ text := by
  obtain ⟨before, after, hsplit⟩ := List.append_of_mem h
  obtain ⟨start, c, rest, left, right, rfl, hpiece, -, -⟩ := render_eq_append_cons hsplit
  have hkind := prose_renders isAlphanumeric _ start c rest rfl
  rw [Nat.zero_add] at hpiece
  rw [hpiece] at hkind
  have hmem : '*' ∈ left ++ '*' :: right := by simp
  generalize left ++ '*' :: right = piece at hkind hmem
  cases hkind with
  | deleted _ => cases hmem
  | space _ => simp at hmem
  | reference _ hr =>
    have hall : ∀ r ∈ references, '*' ∉ r := by decide
    exact absurd hmem (hall _ hr)
  | slashed _ =>
    obtain rfl : '*' = c := by simpa using hmem
    simp
  | plain _ =>
    obtain rfl : '*' = c := by simpa using hmem
    simp

/-- What is read of a rendered text before the next emphasis mark: a last asterisk joins the mark. -/
def closed (shown : Text) : Text := if shown.getLast? = some '*' then shown.dropLast else shown

theorem closed_of_notMem {shown : Text} (h : '*' ∉ shown) : closed shown = shown := by
  apply if_neg
  intro hlast
  exact h (List.mem_of_getLast? hlast)

theorem countP_closed {q : Char → Bool} (hq : q '*' = false) (shown : Text) :
    (closed shown).countP q = shown.countP q := by
  unfold closed
  split
  · next hlast =>
    obtain ⟨init, rfl⟩ := List.getLast?_eq_some_iff.mp hlast
    simp [hq]
  · rfl

theorem isWhitespace_of_mark (hc : c ∈ ['\\', ':', ';', '·']) : isWhitespace c = false := by
  revert c
  decide

/-- A text that is read back as it is, from what keeps the backslashes, has no asterisk. -/
theorem star_notMem_of_trim {shown : Text} (hshown : shown.countP (fun c => c = '\\') =
      (prose isAlphanumeric text).countP fun c => c = '\\') (h : trim shown = text) :
    '*' ∉ text := by
  have hle := countP_le_prose isAlphanumeric (p := fun c => c = '\\' || c = '*')
    (q := fun c => c = '\\') (by
      intro m characters index c hc
      rw [escape_slash isAlphanumeric m characters index (by simpa using hc)]
      simp) text
  have hread : (trim shown).countP (fun c => c = '\\') = shown.countP fun c => c = '\\' := by
    apply countP_trim
    intro c hc
    exact isWhitespace_of_mark (by simp [show c = '\\' by simpa using hc])
  rw [← hshown, ← hread, h] at hle
  intro hmem
  obtain ⟨before, after, rfl⟩ := List.append_of_mem hmem
  have hmono : ∀ part : Text, part.countP (fun c => c = '\\') ≤
      part.countP fun c => c = '\\' || c = '*' :=
    fun part => List.countP_mono_left (by simp +contextual)
  have hbefore := hmono before
  have hafter := hmono after
  simp only [List.countP_append, List.countP_cons] at hle
  simp at hle
  omega

/-- Reading a rendered text up to the next emphasis mark gives the text where it is verbatim. -/
theorem read_iff_verbatim (text : Text) :
    trim (closed (prose isAlphanumeric text)) = text ↔ Verbatim isAlphanumeric text := by
  have hnone : '*' ∉ text → closed (prose isAlphanumeric text) = prose isAlphanumeric text := by
    intro hstar
    exact closed_of_notMem fun hmem => hstar (star_of_mem_prose isAlphanumeric hmem)
  constructor
  · intro h
    rw [hnone (star_notMem_of_trim isAlphanumeric (countP_closed (by decide) _) h)] at h
    exact h
  · intro h
    rw [hnone (star_notMem_of_trim isAlphanumeric rfl h)]
    exact h

theorem Verbatim.star_notMem (h : Verbatim isAlphanumeric text) :
    '*' ∉ prose isAlphanumeric text := fun hmem =>
  star_notMem_of_trim isAlphanumeric rfl h (star_of_mem_prose isAlphanumeric hmem)

/-- A colon at the end shows, whatever it is written as. -/
theorem read_ne_of_colon {head : Text} (hhead : text = trimStart head ++ [':']) :
    trim (closed (prose isAlphanumeric text)) ≠ head := by
  intro h
  have hle := countP_le_prose isAlphanumeric (p := fun c => c = ':' || c = ';')
    (q := fun c => c = ':' || c = ';') (by
      intro m characters index c hc
      simp only [Bool.or_eq_true, decide_eq_true_eq] at hc
      rcases hc with rfl | rfl
      · rcases escape_colon isAlphanumeric m characters index with hpiece | hpiece <;>
          · rw [hpiece]
            decide
      · rw [escape_self isAlphanumeric m characters index (.inl rfl)]
        decide) text
  have hmark : ∀ c, (decide (c = ':') || decide (c = ';')) = true → isWhitespace c = false := by
    intro c hc
    simp only [Bool.or_eq_true, decide_eq_true_eq] at hc
    exact isWhitespace_of_mark (by rcases hc with rfl | rfl <;> simp)
  have hread := countP_trim hmark (closed (prose isAlphanumeric text))
  rw [countP_closed (by decide), h] at hread
  have hstart : (trimStart head).countP (fun c => c = ':' || c = ';') =
      head.countP fun c => c = ':' || c = ';' := by
    rw [← countP_trim hmark head, ← countP_trim hmark (trimStart head)]
    congr 1
    unfold trim trimStart
    rw [List.dropWhile_idempotent]
  rw [← hread, hhead, List.countP_append, hstart] at hle
  simp at hle

/-- Prose writes the character as it is. -/
structure StaysAt (text : Text) (index : ℕ) (c : Char) : Prop extends PlainAt text index c where
  underscore : c = '_' → emphasisBoundary isAlphanumeric text index = false
  tildeBefore : c = '~' → 0 < index → text[index - 1]? ≠ some '~'

/-- A trimmed text of characters that all stay. -/
structure Plain (text : Text) : Prop where
  trimmed : trim text = text
  stays : ∀ before c after, text = before ++ c :: after →
    StaysAt isAlphanumeric text before.length c

section Stays

variable {text : Text} {index : ℕ} {c : Char}

theorem StaysAt.escape_eq (h : StaysAt isAlphanumeric text index c) :
    escape isAlphanumeric (markers text) text index c = [c] := by
  have hquiet := h.quiet
  simp only [List.mem_cons, List.not_mem_nil, or_false, not_or] at hquiet
  obtain ⟨hamp, hlt, hgt, hat, htick, hslash, hopen, hclose, hstar⟩ := hquiet
  unfold escape
  dsimp only
  rw [if_neg (by simp [h.shown]), if_neg hamp, if_neg hlt, if_neg hgt, if_neg hat, if_neg htick,
    if_neg, if_neg, if_neg (by simp [hslash, hopen, hclose, hstar]), if_neg, if_neg, if_neg,
    if_neg, if_neg, if_neg]
  · rw [Bool.and_eq_true, decide_eq_true_eq]
    rintro ⟨rfl, hnext⟩
    have hafter := h.tilde rfl
    have hbefore := h.tildeBefore rfl
    rcases Nat.eq_zero_or_pos index with rfl | hindex
    · simp_all
    · have hzero : index ≠ 0 := by omega
      simp_all
  · rw [Bool.and_eq_true, decide_eq_true_eq]
    rintro ⟨hc, hplace⟩
    exact h.separator (by simpa using hc) hplace
  · rw [Bool.and_eq_true]
    rintro ⟨hc, hlist⟩
    simp [markers, h.bullet (by simpa using hc)] at hlist
  · rw [Bool.and_eq_true, decide_eq_true_eq]
    rintro ⟨rfl, hdigit⟩
    simp [(h.hash rfl).2] at hdigit
  · rw [Bool.and_eq_true, decide_eq_true_eq]
    rintro ⟨rfl, hheading⟩
    simp [markers, (h.hash rfl).1] at hheading
  · rw [Bool.and_eq_true, decide_eq_true_eq]
    rintro ⟨rfl, hboundary⟩
    simp [h.underscore rfl] at hboundary
  · rw [Bool.and_eq_true, decide_eq_true_eq]
    rintro ⟨rfl, htoken⟩
    have hurl := h.url (.inr rfl)
    cases hplace : (inUrlToken 0 text)[index]? <;> simp_all [markers]
  · rw [Bool.and_eq_true, decide_eq_true_eq]
    rintro ⟨rfl, htoken⟩
    have hurl := h.url (.inl rfl)
    cases hplace : (inUrlToken 0 text)[index]? <;> simp_all [markers]

theorem staysAt_of_escape (h : escape isAlphanumeric (markers text) text index c = [c]) :
    StaysAt isAlphanumeric text index c := by
  have hpiece := escape_piece isAlphanumeric text index c
  rw [h] at hpiece
  have hplain : PlainAt text index c := by
    generalize hone : [c] = piece at hpiece
    cases hpiece with
    | deleted _ => cases hone
    | space hbreak =>
      obtain rfl : c = ' ' := by simpa using hone
      simp at hbreak
    | reference _ hr =>
      have hlong : ∀ r ∈ references, r.length ≠ 1 := by decide
      exact absurd (by rw [← hone]; rfl) (hlong _ hr)
    | slashed _ => simp at hone
    | plain hplain => exact hplain
  refine ⟨hplain, ?_, ?_⟩
  · rintro rfl
    rw [← Bool.not_eq_true]
    intro hboundary
    simp [escape, isControl, hboundary] at h
  · rintro rfl hindex hbefore
    simp [escape, isControl, hbefore, hindex.ne'] at h

/-- A character that does not stay leaves two that are not blank. -/
theorem escape_eq_or (hshown : isControl c = false) :
    escape isAlphanumeric (markers text) text index c = [c] ∨
      2 ≤ (escape isAlphanumeric (markers text) text index c).countP fun d => !isWhitespace d := by
  have hpiece := escape_piece isAlphanumeric text index c
  generalize escape isAlphanumeric (markers text) text index c = piece at hpiece
  cases hpiece with
  | deleted hdeleted => simp [isDeleted, hshown] at hdeleted
  | space hbreak => rcases hbreak with rfl | rfl <;> exact absurd hshown (by decide)
  | reference _ hr =>
    have hlong : ∀ r ∈ references, 2 ≤ r.countP fun d => !isWhitespace d := by decide
    exact .inr (hlong _ hr)
  | slashed hc =>
    have hlong : ∀ d ∈ slashable, 2 ≤ ['\\', d].countP fun d => !isWhitespace d := by decide
    exact .inr (hlong _ hc)
  | plain _ => exact .inl rfl

end Stays

theorem Plain.verbatim (h : Plain isAlphanumeric text) : Verbatim isAlphanumeric text := by
  have hrender : ∀ rest before, text = before ++ rest →
      render (escape isAlphanumeric (markers text) text) before.length rest = rest := by
    intro rest
    induction rest with
    | nil => exact fun _ _ => rfl
    | cons c rest ih =>
      intro before hsplit
      have hrest := ih (before ++ [c]) (by simpa using hsplit)
      rw [List.length_append, List.length_singleton] at hrest
      rw [render_cons, (h.stays before c rest hsplit).escape_eq, hrest]
      rfl
  have hwhole := hrender text [] rfl
  rw [List.length_nil] at hwhole
  rw [Verbatim, prose_eq_render, hwhole, h.trimmed]

theorem Verbatim.plain (h : Verbatim isAlphanumeric text) : Plain isAlphanumeric text := by
  have hself : trim (prose isAlphanumeric text) = text := h
  have hshown : ∀ c ∈ text, isControl c = false := by
    intro c hc
    rw [← hself] at hc
    exact (quiet_render (prose_renders isAlphanumeric text)
      ((trim_infix_self _).subset hc)).2
  refine ⟨by rw [← hself, trim_trim], fun before c after hsplit => ?_⟩
  apply staysAt_of_escape
  refine (escape_eq_or isAlphanumeric (hshown c (by simp [hsplit]))).resolve_right fun hlong => ?_
  -- The characters that are not blank are as many in the rendered text as in the text.
  have hcount : (prose isAlphanumeric text).countP (fun d => !isWhitespace d) =
      text.countP fun d => !isWhitespace d := by
    rw [← countP_trim (by simp) (prose isAlphanumeric text), hself]
  have hle : ∀ rest index, (∀ d ∈ rest, d ∈ text) → rest.countP (fun d => !isWhitespace d) ≤
      (render (escape isAlphanumeric (markers text) text) index rest).countP
        fun d => !isWhitespace d := by
    intro rest index hrest
    have hcongr : rest.countP (fun d => !isWhitespace d) =
        rest.countP fun d => !isWhitespace d && !isControl d :=
      List.countP_congr fun d hd => by simp [hshown d (hrest d hd)]
    rw [hcongr]
    apply countP_le_render
    intro index d hd
    rw [Bool.and_eq_true, Bool.not_eq_true', Bool.not_eq_true'] at hd
    rcases escape_eq_or isAlphanumeric hd.2 with hone | htwo
    · rw [hone]
      simp [hd.1]
    · omega
  have hbefore := hle before 0 fun d hd => by simp [hsplit, hd]
  have hafter := hle after (before.length + 1) fun d hd => by simp [hsplit, hd]
  have hone : [c].countP (fun d => !isWhitespace d) ≤ 1 := List.countP_le_length
  have hwhole : prose isAlphanumeric text =
      render (escape isAlphanumeric (markers text) text) 0 before ++
        (escape isAlphanumeric (markers text) text before.length c ++
          render (escape isAlphanumeric (markers text) text) (before.length + 1) after) := by
    have hrender := congrArg (render (escape isAlphanumeric (markers text) text) 0) hsplit
    rwa [render_append, render_cons, Nat.zero_add] at hrender
  have hlist : text.countP (fun d => !isWhitespace d) =
      before.countP (fun d => !isWhitespace d) + ([c].countP (fun d => !isWhitespace d) +
        after.countP fun d => !isWhitespace d) := by
    have hsum := congrArg (List.countP fun d => !isWhitespace d) hsplit
    rwa [List.countP_append, show c :: after = [c] ++ after from rfl, List.countP_append] at hsum
  rw [hwhole, List.countP_append, List.countP_append, hlist] at hcount
  omega

theorem verbatim_iff_plain : Verbatim isAlphanumeric text ↔ Plain isAlphanumeric text :=
  ⟨fun h => h.plain isAlphanumeric, fun h => h.verbatim isAlphanumeric⟩

end TinySweeper.Markdown
