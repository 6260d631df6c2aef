import TinySweeper.Markdown.Prose

/-!
# Rendered prose is inert

What is written for each character is one of five kinds of piece. A property of the
whole output follows from how its characters lie in the pieces.
-/

namespace TinySweeper.Markdown

open Text

/-- A control character that leaves nothing behind. -/
def isDeleted (c : Char) : Bool := isControl c && c ≠ '\n' && c ≠ '\r'

/-- What is left of a text once control characters are gone. -/
def visible (text : Text) : Text :=
  (text.filter fun c => !isDeleted c).map fun c => if c = '\n' ∨ c = '\r' then ' ' else c

def references : List Text :=
  ["&amp;".toList, "&lt;".toList, "&gt;".toList, "&#64;".toList, "&#96;".toList, "&#58;".toList,
    "&#46;".toList, "&#35;".toList]

/-- The characters that may be written behind a backslash. -/
def slashable : List Char := ['\\', '[', ']', '*', '_', '#', '-', '+', '.', ')', '~', '|']

/-- Why a character is written as it is. -/
structure PlainAt (text : Text) (index : ℕ) (c : Char) : Prop where
  shown : isControl c = false
  quiet : c ∉ ['&', '<', '>', '@', '\x60', '\\', '[', ']', '*']
  url : c = ':' ∨ c = '.' → (inUrlToken 0 text)[index]? ≠ some true
  hash : c = '#' → headingMarker text = false ∧ text[index + 1]?.any Char.isDigit = false
  bullet : c = '-' ∨ c = '+' → startsWith text ['-', '+', '*'] = false
  separator : c = '.' ∨ c = ')' → orderedSeparator text ≠ some index
  tilde : c = '~' → text[index + 1]? ≠ some '~'

/-- What may be written for a character. -/
inductive Piece (text : Text) (index : ℕ) (c : Char) : Text → Prop
  | deleted (hdeleted : isDeleted c = true) : Piece text index c []
  | space (hbreak : c = '\n' ∨ c = '\r') : Piece text index c [' ']
  | reference {r : Text} (hshown : isControl c = false) (hr : r ∈ references) : Piece text index c r
  | slashed (hc : c ∈ slashable) : Piece text index c ['\\', c]
  | plain (hplain : PlainAt text index c) : Piece text index c [c]

theorem escape_piece (isAlphanumeric : Char → Bool) (text : Text) (index : ℕ) (c : Char) :
    Piece text index c (escape isAlphanumeric (markers text) text index c) := by
  have hreference : ∀ r ∈ references, isControl c ≠ true → Piece text index c r := by
    intro r hr hshown
    exact .reference (by simpa using hshown) hr
  unfold escape
  dsimp only
  by_cases hcontrol : isControl c = true
  · rw [if_pos hcontrol]
    by_cases hbreak : c = '\n' ∨ c = '\r'
    · rw [if_pos (by simpa using hbreak)]
      exact .space hbreak
    · rw [if_neg (by simpa using hbreak)]
      apply Piece.deleted
      rw [not_or] at hbreak
      simp [isDeleted, hcontrol, hbreak]
  rw [if_neg hcontrol]
  -- The arms in the order of the match; the last one takes what all the others leave.
  refine iteInduction (fun _ => hreference _ (by decide) hcontrol) fun hamp => ?_
  refine iteInduction (fun _ => hreference _ (by decide) hcontrol) fun hlt => ?_
  refine iteInduction (fun _ => hreference _ (by decide) hcontrol) fun hgt => ?_
  refine iteInduction (fun _ => hreference _ (by decide) hcontrol) fun hat => ?_
  refine iteInduction (fun _ => hreference _ (by decide) hcontrol) fun htick => ?_
  have hslashed : ∀ {p : Bool}, (p = true → c ∈ slashable) → p = true →
      Piece text index c ['\\', c] := fun hp h => .slashed (hp h)
  refine iteInduction (fun _ => hreference _ (by decide) hcontrol) fun hcolon => ?_
  refine iteInduction (fun _ => hreference _ (by decide) hcontrol) fun hdot => ?_
  refine iteInduction (hslashed (by simp [slashable]; tauto)) fun hslash => ?_
  refine iteInduction (hslashed (by simp [slashable]; tauto)) fun hunder => ?_
  refine iteInduction (hslashed (by simp [slashable]; tauto)) fun hheading => ?_
  refine iteInduction (fun _ => hreference _ (by decide) hcontrol) fun hhash => ?_
  refine iteInduction (hslashed (by simp [slashable]; tauto)) fun hbullet => ?_
  refine iteInduction (hslashed (by simp [slashable]; tauto)) fun hseparator => ?_
  refine iteInduction (hslashed (by simp [slashable]; tauto)) fun htilde => ?_
  apply Piece.plain
  constructor
  · simpa using hcontrol
  · simp only [Bool.or_eq_true, decide_eq_true_eq, not_or] at hslash
    simp [hamp, hlt, hgt, hat, htick, hslash]
  · rintro (rfl | rfl) htoken
    · simp [markers, htoken] at hcolon
    · simp [markers, htoken] at hdot
  · rintro rfl
    constructor
    · simpa [markers] using hheading
    · simpa using hhash
  · intro hc
    simpa [markers, hc] using hbullet
  · intro hc hsome
    simp [markers, hc, hsome] at hseparator
  · rintro rfl htwice
    simp [htwice] at htilde

/-- The output for a stretch of a text that begins at a place. -/
def render (f : ℕ → Char → Text) (index : ℕ) (text : Text) : Text :=
  (text.zipIdx index).flatMap fun place => f place.2 place.1

/-- Every character of the text is written as a piece. -/
def Renders (f : ℕ → Char → Text) (text : Text) : Prop :=
  ∀ before c after, text = before ++ c :: after → Piece text before.length c (f before.length c)

section Render

variable {f : ℕ → Char → Text} {index : ℕ}

@[simp] theorem render_nil : render f index [] = [] := rfl

@[simp] theorem render_cons (c : Char) (text : Text) :
    render f index (c :: text) = f index c ++ render f (index + 1) text := rfl

theorem render_append (before after : Text) :
    render f index (before ++ after) =
      render f index before ++ render f (index + before.length) after := by
  induction before generalizing index with
  | nil => rfl
  | cons c before ih =>
    rw [List.cons_append, render_cons, ih, render_cons, List.append_assoc, List.length_cons,
      Nat.add_right_comm, Nat.add_assoc]

/-- A character of the output lies in the piece of one character of the text. -/
theorem render_eq_append_cons {text before after : Text} {d : Char}
    (h : render f index text = before ++ d :: after) :
    ∃ start c rest left right, text = start ++ c :: rest ∧
      f (index + start.length) c = left ++ d :: right ∧ before = render f index start ++ left ∧
      after = right ++ render f (index + start.length + 1) rest := by
  induction text generalizing index before with
  | nil => simp at h
  | cons c text ih =>
    rw [render_cons] at h
    rcases List.append_eq_append_iff.mp h with ⟨middle, rfl, hrest⟩ | ⟨middle, hpiece, hrest⟩
    · obtain ⟨start, x, rest, left, right, rfl, hx, rfl, rfl⟩ := ih hrest
      refine ⟨c :: start, x, rest, left, right, rfl, ?_, ?_, ?_⟩
      · rw [← hx, List.length_cons]
        congr 1
        omega
      · rw [render_cons, List.append_assoc]
      · rw [List.length_cons, show index + (start.length + 1) = index + 1 + start.length by omega]
    · cases middle with
      | nil =>
        rw [List.nil_append] at hrest
        obtain ⟨start, x, rest, left, right, rfl, hx, hleft, rfl⟩ :=
          @ih (index + 1) [] hrest.symm
        refine ⟨c :: start, x, rest, left, right, rfl, ?_, ?_, ?_⟩
        · rw [← hx, List.length_cons]
          congr 1
          omega
        · rw [render_cons, List.append_assoc, ← hleft, List.append_nil, hpiece, List.append_nil]
        · rw [List.length_cons, show index + (start.length + 1) = index + 1 + start.length by omega]
      | cons e middle =>
        rw [List.cons_append, List.cons.injEq] at hrest
        obtain ⟨rfl, rfl⟩ := hrest
        exact ⟨[], c, text, before, middle, rfl, hpiece, rfl, rfl⟩

end Render

theorem prose_eq_render (isAlphanumeric : Char → Bool) (text : Text) :
    prose isAlphanumeric text = render (escape isAlphanumeric (markers text) text) 0 text := rfl

theorem prose_renders (isAlphanumeric : Char → Bool) (text : Text) :
    Renders (escape isAlphanumeric (markers text) text) text :=
  fun _ c _ _ => escape_piece isAlphanumeric text _ c

/-- How many backslashes a text ends with. -/
def backslashes (text : Text) : ℕ := (text.rtakeWhile fun c => c = '\\').length

theorem backslashes_concat (text : Text) : backslashes (text ++ ['\\']) = backslashes text + 1 := by
  simp [backslashes]

theorem backslashes_concat_of_ne {c : Char} (hc : c ≠ '\\') (text : Text) :
    backslashes (text ++ [c]) = 0 := by
  simp [backslashes, hc]

theorem references_ends : ∀ r ∈ references, ∃ init, r = '&' :: init ++ [';'] ∧
    ∀ c ∈ init, c ∉ ['&', ';', '\\', ' '] := by
  intro r hr
  refine ⟨r.tail.dropLast, ?_⟩
  revert r
  decide

/-- A whole number of pieces ends with an even number of backslashes. -/
theorem even_backslashes_append {text : Text} {index : ℕ} {c : Char} {piece : Text}
    (hpiece : Piece text index c piece) {before : Text} (hbefore : Even (backslashes before)) :
    Even (backslashes (before ++ piece)) := by
  cases hpiece with
  | deleted _ =>
    rw [List.append_nil]
    exact hbefore
  | space _ =>
    rw [backslashes_concat_of_ne (by decide)]
    exact Even.zero
  | reference _ hr =>
    obtain ⟨init, rfl, -⟩ := references_ends _ hr
    rw [← List.append_assoc, backslashes_concat_of_ne (by decide)]
    exact Even.zero
  | slashed _ =>
    rw [show before ++ ['\\', c] = (before ++ ['\\']) ++ [c] by simp]
    by_cases hc : c = '\\'
    · rw [hc, backslashes_concat, backslashes_concat, Nat.add_assoc]
      exact hbefore.add even_two
    · rw [backslashes_concat_of_ne hc]
      exact Even.zero
  | plain hplain =>
    have hc : c ≠ '\\' := by
      rintro rfl
      exact hplain.quiet (by decide)
    rw [backslashes_concat_of_ne hc]
    exact Even.zero

section Renders

variable {f : ℕ → Char → Text} {text : Text} (hf : Renders f text)

include hf

theorem even_backslashes_render {start rest : Text} (htext : text = start ++ rest) :
    Even (backslashes (render f 0 start)) := by
  induction start using List.reverseRecOn generalizing rest with
  | nil => exact Even.zero
  | append_singleton start c ih =>
    rw [List.append_assoc] at htext
    have hpiece := hf start c rest htext
    rw [render_append, render_cons, render_nil, List.append_nil, Nat.zero_add]
    exact even_backslashes_append hpiece (ih htext)

/-- Where a character of the output other than a blank or a backslash comes from. -/
theorem render_cases {d : Char} (hd : d ≠ '\\' ∧ d ≠ ' ') {before after : Text}
    (h : render f 0 text = before ++ d :: after) :
    (∃ start c rest left right, text = start ++ c :: rest ∧ left ++ d :: right ∈ references ∧
      before = render f 0 start ++ left ∧ after = right ++ render f (start.length + 1) rest) ∨
    (d ∈ slashable ∧ Odd (backslashes before)) ∨
    ∃ start rest, text = start ++ d :: rest ∧ PlainAt text start.length d ∧
      before = render f 0 start ∧ after = render f (start.length + 1) rest := by
  obtain ⟨start, c, rest, left, right, htext, hx, hbefore, hafter⟩ := render_eq_append_cons h
  rw [Nat.zero_add] at hx hafter
  have hpiece := hf start c rest htext
  rw [hx] at hpiece
  generalize hwhole : left ++ d :: right = piece at hpiece
  cases hpiece with
  | deleted _ => simp at hwhole
  | space _ =>
    have hmem : d ∈ [' '] := by
      rw [← hwhole]
      simp
    exact absurd (List.mem_singleton.mp hmem) hd.2
  | reference _ hr => exact .inl ⟨start, c, rest, left, right, htext, hwhole ▸ hr, hbefore, hafter⟩
  | slashed hc =>
    cases left with
    | nil => exact absurd (List.cons.inj hwhole).1 hd.1
    | cons e left =>
      obtain ⟨rfl, htail⟩ := List.cons.inj hwhole
      cases left with
      | nil =>
        obtain ⟨rfl, -⟩ := List.cons.inj htail
        refine .inr (.inl ⟨hc, ?_⟩)
        rw [hbefore, backslashes_concat]
        exact (even_backslashes_render hf htext).add_one
      | cons _ left => simp at htail
  | plain hplain =>
    cases left with
    | nil =>
      obtain ⟨rfl, hright⟩ := List.cons.inj hwhole
      refine .inr (.inr ⟨start, rest, htext, hplain, ?_, ?_⟩)
      · rw [hbefore, List.append_nil]
      · rw [hafter, hright, List.nil_append]
    | cons _ left => simp at hwhole

/-- A bracket or an asterisk stands behind a backslash of its own. -/
theorem odd_backslashes {d : Char} (hd : d ∈ ['[', ']', '*']) {before after : Text}
    (h : render f 0 text = before ++ d :: after) : Odd (backslashes before) := by
  have hspecial : ∀ e ∈ ['[', ']', '*'], e ≠ '\\' ∧ e ≠ ' ' := by decide
  rcases render_cases hf (hspecial d hd) h with ⟨_, _, _, left, right, _, hr, _⟩ | ⟨_, hodd⟩ | hplain
  · have hall : ∀ r ∈ references, ∀ e ∈ ['[', ']', '*'], e ∉ r := by decide
    exact absurd (by simp) (hall _ hr d hd)
  · exact hodd
  · obtain ⟨_, _, _, hplain, _⟩ := hplain
    have hall : ∀ e ∈ ['[', ']', '*'], e ∈ ['&', '<', '>', '@', '\x60', '\\', '[', ']', '*'] := by
      decide
    exact absurd (hall d hd) hplain.quiet

/-- No character of a tag, a mention, a code span or a new line. -/
theorem quiet_render {d : Char} (hd : d ∈ render f 0 text) :
    d ∉ ['<', '>', '@', '\x60'] ∧ isControl d = false := by
  obtain ⟨before, after, hsplit⟩ := List.append_of_mem hd
  obtain ⟨start, c, rest, left, right, htext, hx, -, -⟩ := render_eq_append_cons hsplit
  have hpiece := hf start c rest htext
  rw [Nat.zero_add] at hx
  rw [hx] at hpiece
  have hmem : d ∈ left ++ d :: right := by simp
  generalize left ++ d :: right = piece at hpiece hmem
  cases hpiece with
  | deleted _ => cases hmem
  | space _ =>
    rw [List.mem_singleton.mp hmem]
    decide
  | reference _ hr =>
    have hall : ∀ r ∈ references, ∀ e ∈ r, e ∉ ['<', '>', '@', '\x60'] ∧ isControl e = false := by
      decide
    exact hall _ hr d hmem
  | slashed hc =>
    have hall : ∀ e ∈ slashable, e ∉ ['<', '>', '@', '\x60'] ∧ isControl e = false := by decide
    rcases List.mem_cons.mp hmem with rfl | hmem
    · decide
    · rw [List.mem_singleton.mp hmem]
      exact hall c hc
  | plain hplain =>
    rw [List.mem_singleton.mp hmem]
    refine ⟨?_, hplain.shown⟩
    have hquiet := hplain.quiet
    simp only [List.mem_cons, not_or] at hquiet ⊢
    tauto

variable (f text) in
/-- A stretch of the text, after which `final` remains, is what is shown of it before `after`. -/
structure Aligned (start rest shown after middle final : Text) : Prop where
  split : rest = middle ++ final
  after : after = render f (start ++ middle).length final
  visible : visible middle = shown
  last : ∀ c ∈ middle.getLast?, isDeleted c = false
  plain : ∀ before c behind, middle = before ++ c :: behind → isControl c = false →
    PlainAt text (start ++ before).length c

omit hf in
theorem Aligned.nil (start rest : Text) :
    Aligned f text start rest [] (render f start.length rest) [] rest where
  split := rfl
  after := by rw [List.append_nil]
  visible := rfl
  last := by simp
  plain before c behind hsplit := by simp at hsplit

section Cons

variable {start rest shown after middle final : Text} {c d : Char}

omit hf in
/-- A character that is deleted stands before what is shown. -/
theorem Aligned.deleted (h : Aligned f text (start ++ [c]) rest (d :: shown) after middle final)
    (hdeleted : isDeleted c = true) :
    Aligned f text start (c :: rest) (d :: shown) after (c :: middle) final where
  split := congrArg (c :: ·) h.split
  after := by simpa using h.after
  visible := by
    rw [Markdown.visible, List.filter_cons_of_neg (by simp [hdeleted])]
    exact h.visible
  last e he := by
    cases middle with
    | nil => cases h.visible
    | cons first middle => exact h.last e (by simpa using he)
  plain before e behind hsplit he := by
    cases before with
    | nil =>
      obtain ⟨rfl, -⟩ := List.cons.inj hsplit
      simp [isDeleted, he] at hdeleted
    | cons first before =>
      obtain ⟨rfl, rfl⟩ := List.cons.inj hsplit
      simpa using h.plain before e behind rfl he

omit hf in
/-- A character that is kept is shown as `d`. -/
theorem Aligned.kept (h : Aligned f text (start ++ [c]) rest shown after middle final)
    (hkept : isDeleted c = false) (hseen : (if c = '\n' ∨ c = '\r' then ' ' else c) = d)
    (hplain : isControl c = false → PlainAt text start.length c) :
    Aligned f text start (c :: rest) (d :: shown) after (c :: middle) final where
  split := congrArg (c :: ·) h.split
  after := by simpa using h.after
  visible := by
    rw [Markdown.visible, List.filter_cons_of_pos (by simp [hkept]), List.map_cons, hseen]
    exact congrArg (d :: ·) h.visible
  last e he := by
    rw [List.getLast?_cons, Option.mem_some_iff] at he
    cases hmiddle : middle.getLast? with
    | none =>
      rw [hmiddle] at he
      exact he ▸ hkept
    | some last =>
      rw [hmiddle] at he
      exact he ▸ h.last last hmiddle
  plain before e behind hsplit he := by
    cases before with
    | nil =>
      obtain ⟨rfl, -⟩ := List.cons.inj hsplit
      simpa using hplain he
    | cons first before =>
      obtain ⟨rfl, rfl⟩ := List.cons.inj hsplit
      simpa using h.plain before e behind rfl he

end Cons

/-- Characters that stand for themselves only show a visible stretch of the text. -/
theorem aligned {start rest shown after : Text} (htext : text = start ++ rest)
    (hshown : ∀ c ∈ shown, c ∉ ['&', '\\'])
    (h : render f start.length rest = shown ++ after) :
    ∃ middle final, Aligned f text start rest shown after middle final := by
  induction rest generalizing start shown with
  | nil =>
    obtain ⟨rfl, rfl⟩ := List.append_eq_nil_iff.mp h.symm
    exact ⟨[], [], .nil start []⟩
  | cons c rest ih =>
    cases shown with
    | nil =>
      obtain rfl : render f start.length (c :: rest) = after := h
      exact ⟨[], c :: rest, .nil start (c :: rest)⟩
    | cons d shown =>
      have hstart : (start ++ [c]).length = start.length + 1 := by simp
      have htext' : text = (start ++ [c]) ++ rest := by simp [htext]
      have hshown' : ∀ e ∈ shown, e ∉ ['&', '\\'] :=
        fun e he => hshown e (List.mem_cons_of_mem _ he)
      have hd := hshown d List.mem_cons_self
      rw [render_cons, ← hstart] at h
      have hpiece := hf start c rest htext
      generalize hwhole : f start.length c = piece at hpiece h
      cases hpiece with
      | deleted hdeleted =>
        obtain ⟨middle, final, hlater⟩ := ih htext' hshown h
        exact ⟨c :: middle, final, hlater.deleted hdeleted⟩
      | space hbreak =>
        obtain ⟨rfl, htail⟩ := List.cons.inj h
        obtain ⟨middle, final, hlater⟩ := ih htext' hshown' htail
        refine ⟨c :: middle, final, hlater.kept ?_ (if_pos hbreak) fun hcontrol => ?_⟩
        · rcases hbreak with rfl | rfl <;> decide
        · rcases hbreak with rfl | rfl <;> cases hcontrol
      | reference _ hr =>
        obtain ⟨init, rfl, -⟩ := references_ends _ hr
        obtain ⟨rfl, -⟩ := List.cons.inj h
        exact absurd hd (by decide)
      | slashed _ =>
        obtain ⟨rfl, -⟩ := List.cons.inj h
        exact absurd hd (by decide)
      | plain hplain =>
        obtain ⟨rfl, htail⟩ := List.cons.inj h
        obtain ⟨middle, final, hlater⟩ := ih htext' hshown' htail
        refine ⟨c :: middle, final, hlater.kept ?_ (if_neg ?_) fun _ => hplain⟩
        · simp [isDeleted, hplain.shown]
        · rintro (rfl | rfl) <;> exact absurd hplain.shown (by decide)

end Renders

def urlStarts : List Text := ["https://".toList, "http://".toList, "www.".toList]

/-- What must not show up: the start of a URL, an issue number or a run of tildes. -/
inductive Sensitive : Text → Prop
  | url {shown : Text} (hurl : toAsciiLowercase shown ∈ urlStarts) : Sensitive shown
  | issue {d : Char} (hd : d.isDigit = true) : Sensitive ['#', d]
  | tildes : Sensitive ['~', '~']

theorem isControl_of_mem_visible {text : Text} {c : Char} (hc : c ∈ visible text) :
    isControl c = false := by
  obtain ⟨e, he, rfl⟩ := List.mem_map.mp hc
  have hkept := (List.mem_filter.mp he).2
  split_ifs with hbreak
  · decide
  · rw [not_or] at hbreak
    simpa [isDeleted, hbreak] using hkept

/-- Where no blank shows, no line break was replaced. -/
theorem filter_of_visible {middle shown : Text} (h : visible middle = shown) (hblank : ' ' ∉ shown) :
    middle.filter (fun c => !isDeleted c) = shown := by
  unfold visible at h
  rw [← h] at hblank ⊢
  have hsame : ∀ c ∈ middle.filter (fun c => !isDeleted c),
      (if c = '\n' ∨ c = '\r' then ' ' else c) = id c := by
    intro c hc
    apply if_neg
    intro hbreak
    exact hblank (List.mem_map.mpr ⟨c, hc, if_pos hbreak⟩)
  rw [List.map_congr_left hsame, List.map_id]

/-- No sensitive text shows up only because characters inside it are dropped. -/
def Unjoined (text : Text) : Prop :=
  ∀ before middle after, text = before ++ middle ++ after →
    (∀ c ∈ middle.head?, isDeleted c = false) → (∀ c ∈ middle.getLast?, isDeleted c = false) →
    Sensitive (middle.filter fun c => !isDeleted c) → ∀ c ∈ middle, isDeleted c = false

theorem Unjoined.eq_of_filter {text before middle after : Text} (h : Unjoined text)
    (htext : text = before ++ middle ++ after) (hhead : ∀ c ∈ middle.head?, isDeleted c = false)
    (hlast : ∀ c ∈ middle.getLast?, isDeleted c = false) {shown : Text}
    (hfilter : middle.filter (fun c => !isDeleted c) = shown) (hshown : Sensitive shown) :
    middle = shown := by
  rw [← hfilter] at hshown ⊢
  have hkept := h before middle after htext hhead hlast hshown
  symm
  rw [List.filter_eq_self]
  intro c hc
  rw [hkept c hc]
  rfl

/-- A text that loses nothing joins nothing. -/
theorem unjoined_of_kept {text : Text} (h : ∀ c ∈ text, isDeleted c = false) : Unjoined text := by
  intro before middle after htext _ _ _ c hc
  apply h
  rw [htext]
  exact List.mem_append_left _ (List.mem_append_right _ hc)

section Unjoined

variable {f : ℕ → Char → Text} {text : Text} (hf : Renders f text) (hunjoined : Unjoined text)

include hf hunjoined

/-- What shows behind a plain character is what stands behind it. -/
theorem plain_next {start rest shown after : Text} {d : Char} (htext : text = start ++ d :: rest)
    (hplain : PlainAt text start.length d) (hsensitive : Sensitive (d :: shown))
    (hshown : ∀ c ∈ shown, c ∉ ['&', '\\', ' '])
    (h : render f (start.length + 1) rest = shown ++ after) :
    ∃ final, rest = shown ++ final ∧
      ∀ before c behind, shown = before ++ c :: behind →
        PlainAt text (start ++ d :: before).length c := by
  have hd : isDeleted d = false := by simp [isDeleted, hplain.shown]
  have htext' : text = (start ++ [d]) ++ rest := by simp [htext]
  have hbounds : (∀ c ∈ shown, c ∉ ['&', '\\']) ∧ ' ' ∉ shown := by
    constructor
    · intro c hc hmem
      exact hshown c hc (List.mem_append_left [' '] hmem)
    · intro hmem
      exact hshown ' ' hmem (by decide)
  obtain ⟨middle, final, rfl, -, hvisible, hlast, hall⟩ :=
    aligned hf htext' hbounds.1 (by simpa using h)
  have hfilter := filter_of_visible hvisible hbounds.2
  have hwhole : d :: middle = d :: shown := by
    apply @Unjoined.eq_of_filter _ start _ final hunjoined
    · simp [htext]
    · intro c hc
      obtain rfl : d = c := by simpa using hc
      exact hd
    · intro c hc
      rw [List.getLast?_cons, Option.mem_some_iff] at hc
      cases hmiddle : middle.getLast? with
      | none =>
        rw [hmiddle] at hc
        exact hc ▸ hd
      | some last =>
        rw [hmiddle] at hc
        exact hc ▸ hlast last hmiddle
    · rw [List.filter_cons_of_pos (by simp [hd]), hfilter]
    · exact hsensitive
  obtain rfl : middle = shown := (List.cons.inj hwhole).2
  refine ⟨final, rfl, ?_⟩
  intro before c behind hsplit
  have hc : isControl c = false := by
    have hmem : c ∈ visible middle := by
      rw [hvisible, hsplit]
      simp
    exact isControl_of_mem_visible hmem
  have hplain' := hall before c behind hsplit hc
  simpa using hplain'

theorem odd_backslashes_tilde {before after : Text}
    (h : render f 0 text = before ++ '~' :: '~' :: after) : Odd (backslashes before) := by
  rcases render_cases hf (by decide) h with ⟨_, _, _, left, right, _, hr, _⟩ | ⟨_, hodd⟩ | hplain
  · have hall : ∀ r ∈ references, '~' ∉ r := by decide
    exact absurd (by simp) (hall _ hr)
  · exact hodd
  · obtain ⟨start, rest, htext, hplain, -, hafter⟩ := hplain
    obtain ⟨final, rfl, -⟩ := @plain_next f text hf hunjoined start rest ['~'] after '~' htext hplain
      .tildes (by decide) hafter.symm
    have hnext : text[start.length + 1]? = some '~' := by
      rw [htext]
      simp
    exact absurd hnext (hplain.tilde rfl)

/-- A number sign in front of a digit is escaped or part of a character reference. -/
theorem issue_render {before after : Text} {d : Char} (hd : d.isDigit = true)
    (h : render f 0 text = before ++ '#' :: d :: after) :
    Odd (backslashes before) ∨ ∃ start r rest, r ∈ references ∧
      render f 0 text = start ++ r ++ rest ∧ before = start ++ ['&'] := by
  have hplainDigit : d ∉ ['&', '\\', ' '] := by
    intro hmem
    have hall : ∀ e ∈ ['&', '\\', ' '], e.isDigit = false := by decide
    rw [hall d hmem] at hd
    cases hd
  rcases render_cases hf (by decide) h with
    ⟨start, c, rest, left, right, _, hr, rfl, hafter⟩ | ⟨_, hodd⟩ | hplain
  · right
    have hall : ∀ r ∈ references, ∀ left right, r = left ++ '#' :: right → left = ['&'] := by
      intro r hr left right hsplit
      have hwhere : ∀ r ∈ references, r = '&' :: '#' :: r.tail.tail ∧ '#' ∉ r.tail.tail ∨ '#' ∉ r := by
        decide
      rcases hwhere r hr with ⟨hshape, hlater⟩ | hnone
      · cases left with
        | nil =>
          rw [hsplit] at hshape
          exact absurd (List.cons.inj hshape).1 (by decide)
        | cons e left =>
          rw [hsplit] at hshape hlater
          obtain ⟨rfl, hshape⟩ := List.cons.inj hshape
          cases left with
          | nil => rfl
          | cons e left => exact absurd (by simp) hlater
      · exact absurd (by rw [hsplit]; simp) hnone
    obtain rfl := hall _ hr left right rfl
    refine ⟨render f 0 start, _, render f (start.length + 1) rest, hr, ?_, rfl⟩
    rw [h, hafter]
    simp
  · exact .inl hodd
  · obtain ⟨start, rest, htext, hplain, -, hafter⟩ := hplain
    obtain ⟨final, rfl, -⟩ := @plain_next f text hf hunjoined start rest [d] after '#' htext hplain
      (.issue hd) (by simpa using hplainDigit) hafter.symm
    have hnext : text[start.length + 1]? = some d := by
      rw [htext]
      simp
    have hnone := (hplain.hash rfl).2
    rw [hnext, Option.any_some, hd] at hnone
    cases hnone

end Unjoined

theorem eq_of_toLower {c d : Char} (hd : d.toNat < 97) (h : c.toLower = d) : c = d := by
  rcases toLower_cases c with hsame | ⟨hrange, hnat⟩
  · rw [← h, hsame]
  · rw [h] at hnat
    omega

/-- What a URL start is written with, in any letter case. -/
theorem of_mem_urlStart {url : Text} (hurl : url ∈ urlStarts) {shown : Text}
    (hshown : toAsciiLowercase shown = url) {c : Char} (hc : c ∈ shown) :
    c.toLower ∈ url ∧ c ∉ ['&', '\\', ' '] ∧ inToken c = true := by
  have hlower : c.toLower ∈ url := by
    rw [← hshown]
    exact List.mem_map_of_mem hc
  refine ⟨hlower, ?_⟩
  rcases toLower_cases c with hsame | ⟨hrange, -⟩
  · rw [hsame] at hlower
    have hall : ∀ u ∈ urlStarts, ∀ e ∈ u, e ∉ ['&', '\\', ' '] ∧ inToken e = true := by decide
    exact hall url hurl c hlower
  · constructor
    · intro hmem
      have hall : ∀ e ∈ ['&', '\\', ' '], e.toNat < 65 ∨ 90 < e.toNat := by decide
      have := hall c hmem
      omega
    · simp only [inToken, isWhitespace, isControl, Bool.not_eq_true', Bool.or_eq_false_iff,
        Bool.and_eq_false_iff, decide_eq_false_iff_not]
      omega

theorem urlStart_append {shown : Text} (hshown : toAsciiLowercase shown ∈ urlStarts) (rest : Text) :
    urlStart (shown ++ rest) = true := by
  have hlength : shown.length ≤ 8 := by
    have hall : ∀ url ∈ urlStarts, url.length ≤ 8 := by decide
    simpa [toAsciiLowercase] using hall _ hshown
  have hopens : toAsciiLowercase shown <+: toAsciiLowercase ((shown ++ rest).take 8) := by
    rw [List.take_append, List.take_of_length_le hlength]
    exact (List.prefix_append _ _).map _
  have hcases : ∀ url ∈ urlStarts, url = "https://".toList ∨ url = "http://".toList ∨
      url = "www.".toList := by decide
  unfold urlStart
  simp only [Bool.or_eq_true, List.isPrefixOf_iff_prefix]
  rcases hcases _ hshown with h | h | h
  · exact .inl (.inl (h ▸ hopens))
  · exact .inl (.inr (h ▸ hopens))
  · exact .inr (h ▸ hopens)

/-- The rest of a token is in it. -/
theorem inUrlToken_of_lt {text : Text} {left i : ℕ} (hi : i < left) (hlength : i < text.length) :
    (inUrlToken left text)[i]? = some true := by
  induction text generalizing left i with
  | nil => simp at hlength
  | cons c text ih =>
    cases left with
    | zero => omega
    | succ left =>
      cases i with
      | zero => rfl
      | succ i => exact ih (by omega) (by simpa using hlength)

/-- Every character of a URL start is in a URL token, be it the one that starts there or one
that started before. -/
theorem inUrlToken_urlStart {before shown after : Text} {left : ℕ}
    (hleft : left = 0 ∨ left = ((before ++ shown ++ after).takeWhile inToken).length)
    (hshown : ∀ c ∈ shown, inToken c = true) (hstart : urlStart (shown ++ after) = true) {i : ℕ}
    (hi : i < shown.length) :
    (inUrlToken left (before ++ shown ++ after))[before.length + i]? = some true := by
  induction before generalizing left with
  | nil =>
    have hlong : shown.length ≤ ((shown ++ after).takeWhile inToken).length := by
      rw [List.takeWhile_append_of_pos hshown, List.length_append]
      exact Nat.le_add_right _ _
    simp only [List.nil_append, List.length_nil, Nat.zero_add] at hleft ⊢
    cases hwhole : shown ++ after with
    | nil =>
      have hnil := congrArg List.length hwhole
      simp only [List.length_append, List.length_nil] at hnil
      omega
    | cons c rest =>
      have hlength : i < (c :: rest).length := by
        rw [← hwhole, List.length_append]
        omega
      rw [hwhole] at hleft hlong hstart
      rcases hleft with rfl | rfl
      · cases i with
        | zero => simp [inUrlToken, hstart]
        | succ i =>
          simp only [inUrlToken, hstart, if_true, List.getElem?_cons_succ]
          exact inUrlToken_of_lt (by omega) (by simpa using hlength)
      · exact inUrlToken_of_lt (by omega) hlength
  | cons c before ih =>
    have hnext : (c :: before).length + i = before.length + i + 1 := by
      rw [List.length_cons]
      omega
    rw [hnext]
    rcases hleft with rfl | rfl
    · simp only [List.cons_append, inUrlToken]
      split_ifs with hhere
      · rw [List.getElem?_cons_succ]
        apply ih
        by_cases hc : inToken c = true
        · right
          simp [hc]
        · left
          simp [hc]
      · exact ih (.inl rfl)
    · by_cases hc : inToken c = true
      · simp only [List.cons_append, List.takeWhile_cons_of_pos hc, List.length_cons, inUrlToken]
        exact ih (.inr rfl)
      · simp only [List.cons_append, List.takeWhile_cons_of_neg hc, List.length_nil, inUrlToken]
        split_ifs with hhere
        · rw [List.getElem?_cons_succ]
          exact ih (.inl (by simp))
        · exact ih (.inl rfl)

/-- No URL starts in the output, in any letter case. -/
theorem no_url_render {f : ℕ → Char → Text} {text : Text} (hf : Renders f text)
    (hunjoined : Unjoined text) {url : Text} (hurl : url ∈ urlStarts) :
    ¬ url <:+: toAsciiLowercase (render f 0 text) := by
  rintro ⟨lower, tail, hwithin⟩
  obtain ⟨before', after, hrender, hbefore, hafter⟩ := List.map_eq_append_iff.mp hwithin.symm
  obtain ⟨before, shown, rfl, -, hshown⟩ := List.map_eq_append_iff.mp hbefore
  have hall := fun c hc => @of_mem_urlStart url hurl shown hshown c hc
  have hmem : toAsciiLowercase shown ∈ urlStarts := by
    rw [toAsciiLowercase, hshown]
    exact hurl
  -- One of its characters is what an autolink needs, and that one is never plain in a URL token.
  have hneedle : ∃ x ∈ shown, x = ':' ∨ x = '.' := by
    have hurls : ∀ u ∈ urlStarts, ':' ∈ u ∨ '.' ∈ u := by decide
    have hmapped : ∀ e ∈ url, ∃ x ∈ shown, x.toLower = e := by
      intro e he
      rw [← hshown] at he
      exact List.mem_map.mp he
    rcases hurls url hurl with he | he
    · obtain ⟨x, hx, hlower⟩ := hmapped _ he
      exact ⟨x, hx, .inl (eq_of_toLower (by decide) hlower)⟩
    · obtain ⟨x, hx, hlower⟩ := hmapped _ he
      exact ⟨x, hx, .inr (eq_of_toLower (by decide) hlower)⟩
  cases shown with
  | nil => exact absurd hmem (by decide)
  | cons d shown =>
    have hfirst : d.toLower = 'h' ∨ d.toLower = 'w' := by
      have hheads : ∀ u ∈ urlStarts, u.head? = some 'h' ∨ u.head? = some 'w' := by decide
      simpa [← hshown] using hheads url hurl
    have hletter : ∀ e : Char, e.toLower ≠ 'h' → e.toLower ≠ 'w' → d ≠ e := by
      rintro e hh hw rfl
      rcases hfirst with h | h
      · exact hh h
      · exact hw h
    have hrender' : render f 0 text = before ++ d :: (shown ++ after) := by
      rw [hrender, List.append_assoc]
      rfl
    rcases render_cases hf ⟨hletter _ (by decide) (by decide), hletter _ (by decide) (by decide)⟩
      hrender' with ⟨_, _, _, left, right, _, hr, _⟩ | ⟨hslash, -⟩ | hplain
    · have hnone : ∀ r ∈ references, ∀ e ∈ r, e.toLower ≠ 'h' ∧ e.toLower ≠ 'w' := by decide
      obtain ⟨hh, hw⟩ := hnone _ hr d (by simp)
      exact hletter d hh hw rfl
    · have hnone : ∀ e ∈ slashable, e.toLower ≠ 'h' ∧ e.toLower ≠ 'w' := by decide
      obtain ⟨hh, hw⟩ := hnone d hslash
      exact hletter d hh hw rfl
    · obtain ⟨start, rest, htext, hplain, -, hafter'⟩ := hplain
      obtain ⟨final, rfl, hall'⟩ := plain_next hf hunjoined htext hplain (.url hmem)
        (fun c hc => (hall c (List.mem_cons_of_mem _ hc)).2.1) hafter'.symm
      have hsplit : text = start ++ (d :: shown) ++ final := by
        rw [htext, List.append_assoc]
        rfl
      obtain ⟨x, hx, hlink⟩ := hneedle
      obtain ⟨before', behind, hat⟩ := List.append_of_mem hx
      have htoken : (inUrlToken 0 text)[start.length + before'.length]? = some true := by
        have hlength : before'.length < (d :: shown).length := by
          rw [hat, List.length_append, List.length_cons]
          omega
        rw [hsplit]
        exact inUrlToken_urlStart (.inl rfl) (fun c hc => (hall c hc).2.2)
          (urlStart_append hmem final) hlength
      have hplainAt : PlainAt text (start.length + before'.length) x := by
        cases before' with
        | nil =>
          obtain ⟨rfl, -⟩ := List.cons.inj hat
          simpa using hplain
        | cons e before' =>
          obtain ⟨rfl, hrest⟩ := List.cons.inj hat
          simpa using hall' before' x behind hrest
      exact hplainAt.url hlink htoken

/-- What opens a list item or a heading in front of a blank or the end of the line. -/
inductive BlockMarker : Text → Prop
  | bullet {c : Char} (hc : c ∈ ['-', '+', '*']) : BlockMarker [c]
  | heading {n : ℕ} (hpos : 0 < n) (hlevel : n ≤ 6) : BlockMarker (List.replicate n '#')
  | ordered {digits : Text} {separator : Char} (hne : digits ≠ []) (hlength : digits.length ≤ 9)
    (hdigits : ∀ c ∈ digits, c.isDigit = true) (hseparator : separator = '.' ∨ separator = ')') :
    BlockMarker (digits ++ [separator])

def OpensBlock (line : Text) : Prop :=
  ∃ indent marker rest, indent ≤ 3 ∧ BlockMarker marker ∧
    line = List.replicate indent ' ' ++ marker ++ rest ∧ ∀ c ∈ rest.head?, c = ' ' ∨ c = '\t'

/-- A marker in front of the visible text is whole and has the blank behind it. -/
def MarkerWhole (text : Text) : Prop :=
  ∀ before after indent marker, text = before ++ after → indent ≤ 3 → BlockMarker marker →
    visible before = List.replicate indent ' ' ++ marker →
    (∀ c ∈ (visible after).head?, c = ' ') →
    (∀ c ∈ before, isDeleted c = false) ∧ ∃ c ∈ after.head?, isDeleted c = false

/-- Markers begin and end with ASCII punctuation or a digit. -/
theorem BlockMarker.chars {marker : Text} (h : BlockMarker marker) :
    marker ≠ [] ∧ ∀ c ∈ marker, c ∉ ['&', '\\'] ∧ isControl c = false ∧ isWhitespace c = false := by
  have hdigit : ∀ c : Char, c.isDigit = true →
      c ∉ ['&', '\\'] ∧ isControl c = false ∧ isWhitespace c = false := by
    intro c hc
    refine ⟨?_, ?_, isWhitespace_of_isDigit hc⟩
    · intro hmem
      have hall : ∀ e ∈ ['&', '\\'], e.isDigit = false := by decide
      rw [hall c hmem] at hc
      cases hc
    · have hrange := isDigit_range hc
      simp only [isControl, Bool.or_eq_false_iff, Bool.and_eq_false_iff, decide_eq_false_iff_not]
      omega
  cases h with
  | bullet hc =>
    refine ⟨by simp, ?_⟩
    intro e he
    rw [List.mem_singleton.mp he]
    have hall : ∀ e ∈ ['-', '+', '*'],
        e ∉ ['&', '\\'] ∧ isControl e = false ∧ isWhitespace e = false := by decide
    exact hall _ hc
  | heading hpos _ =>
    refine ⟨by simpa using hpos.ne', ?_⟩
    intro e he
    rw [List.eq_of_mem_replicate he]
    decide
  | ordered hne _ hdigits hseparator =>
    refine ⟨by simp, ?_⟩
    intro e he
    rcases List.mem_append.mp he with he | he
    · exact hdigit e (hdigits e he)
    · rw [List.mem_singleton.mp he]
      rcases hseparator with rfl | rfl <;> decide

/-- A blank in the output comes from what shows as a blank. -/
theorem head?_visible {f : ℕ → Char → Text} {text start rest : Text} (hf : Renders f text)
    (htext : text = start ++ rest)
    (h : ∀ c ∈ (render f start.length rest).head?, c = ' ' ∨ c = '\t') :
    ∀ c ∈ (visible rest).head?, c = ' ' := by
  induction rest generalizing start with
  | nil => simp [visible]
  | cons d rest ih =>
    have hpiece := hf start d rest htext
    rw [render_cons] at h
    generalize f start.length d = piece at hpiece h
    cases hpiece with
    | deleted hdeleted =>
      rw [visible, List.filter_cons_of_neg (by simp [hdeleted])]
      have htext' : text = (start ++ [d]) ++ rest := by simp [htext]
      exact ih htext' (by simpa using h)
    | space hbreak =>
      have hkept : isDeleted d = false := by rcases hbreak with rfl | rfl <;> decide
      rw [visible, List.filter_cons_of_pos (by simp [hkept]), List.map_cons, if_pos hbreak]
      simp
    | reference _ hr =>
      obtain ⟨init, rfl, -⟩ := references_ends _ hr
      exact absurd (h '&' rfl) (by decide)
    | slashed _ => exact absurd (h '\\' rfl) (by decide)
    | plain hplain =>
      have hshown := hplain.shown
      have hkept : isDeleted d = false := by simp [isDeleted, hshown]
      rcases h d rfl with rfl | rfl
      · rw [visible, List.filter_cons_of_pos (by simp [hkept])]
        simp
      · exact absurd hshown (by decide)

/-- The text from its first character that is not white space on. -/
theorem first_append {lead : Text} (hlead : ∀ c ∈ lead, isWhitespace c = true) {c : Char}
    (hc : isWhitespace c = false) (rest : Text) : first (lead ++ c :: rest) = some lead.length := by
  unfold first
  induction lead with
  | nil => simp [List.findIdx?_cons, hc]
  | cons d lead ih =>
    have hd := hlead d List.mem_cons_self
    have hrest := ih fun e he => hlead e (List.mem_cons_of_mem d he)
    simp [List.findIdx?_cons, hd, hrest]

/-- The marker is escaped where the text itself has it in front of white space. -/
theorem not_plain_marker {text lead marker rest : Text} {next : Char}
    (htext : text = lead ++ marker ++ next :: rest) (hlead : ∀ c ∈ lead, isWhitespace c = true)
    (hshort : lead.length ≤ 3) (hmarker : BlockMarker marker) (hnext : isWhitespace next = true)
    (hplain : ∀ before c behind, marker = before ++ c :: behind →
      PlainAt text (lead.length + before.length) c) : False := by
  have hmark := hmarker.chars.2
  cases hmarker with
  | @bullet c hc =>
    have hfirst : first text = some lead.length := by
      rw [htext, List.append_assoc]
      exact first_append hlead (hmark c (by simp)).2.2 _
    have hat : text[lead.length]? = some c := by simp [htext]
    have hbehind : text[lead.length + 1]? = some next := by simp [htext]
    have hcases : c = '-' ∨ c = '+' ∨ c = '*' := by simpa using hc
    have hlist : startsWith text ['-', '+', '*'] = true := by
      simp [startsWith, hfirst, hat, hbehind, hnext, hshort, hcases]
    have hplain' := hplain [] c [] rfl
    rcases hcases with rfl | rfl | rfl
    · exact absurd (hplain'.bullet (.inl rfl)) (by simp [hlist])
    · exact absurd (hplain'.bullet (.inr rfl)) (by simp [hlist])
    · exact hplain'.quiet (by decide)
  | @heading n hpos hlevel =>
    obtain ⟨n, rfl⟩ : ∃ m, n = m + 1 := ⟨n - 1, by omega⟩
    have hfirst : first text = some lead.length := by
      rw [htext, List.append_assoc]
      exact first_append hlead (hmark '#' (by simp)).2.2 _
    have hat : text[lead.length]? = some '#' := by simp [htext, List.replicate_succ]
    have hheading : headingMarker text = true := by
      cases n with
      | zero =>
        have hbehind : text[lead.length + 1]? = some next := by simp [htext]
        simp [headingMarker, hfirst, hat, hbehind, hnext, hshort]
      | succ n =>
        have hbehind : text[lead.length + 1]? = some '#' := by simp [htext, List.replicate_succ]
        simp [headingMarker, hfirst, hat, hbehind, hshort]
    have hplain' := hplain [] '#' (List.replicate n '#') rfl
    exact absurd (hplain'.hash rfl).1 (by simp [hheading])
  | @ordered digits separator hne hlength hdigits hseparator =>
    obtain ⟨d, more, rfl⟩ := List.exists_cons_of_ne_nil hne
    have hfirst : first text = some lead.length := by
      rw [htext, List.append_assoc]
      exact first_append hlead (hmark d (by simp)).2.2 _
    have hsep : separator.isDigit = false := by rcases hseparator with rfl | rfl <;> decide
    have hdrop : (text.drop lead.length).takeWhile Char.isDigit = d :: more := by
      rw [htext, List.append_assoc, List.drop_left, List.append_assoc,
        List.takeWhile_append_of_pos hdigits, List.singleton_append]
      simp [hsep]
    have hat : text[lead.length + (d :: more).length]? = some separator := by simp [htext]
    have hbehind : text[lead.length + (d :: more).length + 1]? = some next := by
      have hlength : lead.length + (d :: more).length + 1 =
          (lead ++ (d :: more ++ [separator])).length := by
        simp only [List.length_append, List.length_singleton]
        omega
      rw [hlength, htext, List.getElem?_append_right le_rfl, Nat.sub_self]
      rfl
    have hordered : orderedSeparator text = some (lead.length + (d :: more).length) := by
      unfold orderedSeparator
      rw [hfirst, Option.bind_some]
      dsimp only
      rw [hdrop, hat, hbehind]
      rcases hseparator with rfl | rfl <;> simp [hnext]
    exact (hplain (d :: more) separator [] rfl).separator hseparator hordered

theorem no_block_render {f : ℕ → Char → Text} {text : Text} (hf : Renders f text)
    (hwhole : MarkerWhole text) : ¬ OpensBlock (render f 0 text) := by
  rintro ⟨indent, marker, rest, hindent, hmarker, hrender, hblank⟩
  obtain ⟨hne, hchars⟩ := hmarker.chars
  have hshown : ∀ c ∈ List.replicate indent ' ' ++ marker, c ∉ ['&', '\\'] := by
    intro c hc
    rcases List.mem_append.mp hc with hc | hc
    · rw [List.eq_of_mem_replicate hc]
      decide
    · exact (hchars c hc).1
  obtain ⟨middle, final, htext, hrest, hvisible, -, hplain⟩ :=
    @aligned f text hf [] text _ rest rfl hshown hrender
  rw [List.nil_append] at hrest
  have hhead : ∀ c ∈ (visible final).head?, c = ' ' := by
    apply head?_visible hf htext
    rw [← hrest]
    exact hblank
  obtain ⟨hkept, next, hnext, hnextKept⟩ :=
    hwhole middle final indent marker htext hindent hmarker hvisible hhead
  have hwholeMiddle : middle.filter (fun c => !isDeleted c) = middle := by
    rw [List.filter_eq_self]
    intro c hc
    rw [hkept c hc]
    rfl
  rw [visible, hwholeMiddle] at hvisible
  obtain ⟨lead, front, rfl, hlead, hfront⟩ := List.map_eq_append_iff.mp hvisible
  have hblankOf : ∀ c : Char, (if c = '\n' ∨ c = '\r' then ' ' else c) = ' ' →
      isWhitespace c = true := by
    intro c hc
    split_ifs at hc with hbreak
    · rcases hbreak with rfl | rfl <;> decide
    · rw [hc]
      decide
  have hleadBlank : ∀ c ∈ lead, isWhitespace c = true := by
    intro c hc
    apply hblankOf
    apply List.eq_of_mem_replicate (n := indent)
    rw [← hlead]
    exact List.mem_map_of_mem hc
  have hsame : front = marker := by
    have hself : ∀ c ∈ front, (if c = '\n' ∨ c = '\r' then ' ' else c) = id c := by
      intro c hc
      apply if_neg
      intro hbreak
      have hmem : ' ' ∈ marker := by
        rw [← hfront]
        exact List.mem_map.mpr ⟨c, hc, if_pos hbreak⟩
      exact absurd (hchars ' ' hmem).2.2 (by decide)
    rw [← hfront, List.map_congr_left hself, List.map_id]
  have hlength : lead.length = indent := by
    have hcount := congrArg List.length hlead
    simpa using hcount
  obtain ⟨tail, rfl⟩ := List.head?_eq_some_iff.mp hnext
  have hnextBlank : isWhitespace next = true := by
    apply hblankOf
    apply hhead
    rw [visible, List.filter_cons_of_pos (by simp [hnextKept])]
    rfl
  rw [hsame] at htext
  apply not_plain_marker htext hleadBlank (by omega) hmarker hnextBlank
  intro before c behind hsplit
  have hcontrol : isControl c = false := (hchars c (by rw [hsplit]; simp)).2.1
  have hat := hplain (lead ++ before) c behind (by rw [hsame, hsplit]; simp) hcontrol
  simpa using hat

/-- What no rendered text shows. -/
structure Inert (out : Text) : Prop where
  quiet : ∀ c ∈ out, c ∉ ['<', '>', '@', '\x60'] ∧ isControl c = false
  escaped : ∀ before c after, out = before ++ c :: after → c ∈ ['[', ']', '*'] →
    Odd (backslashes before)

/-- No URL, no issue number outside a character reference and no run of tildes. -/
structure Unlinked (out : Text) : Prop where
  urls : ∀ url ∈ urlStarts, ¬ url <:+: toAsciiLowercase out
  issues : ∀ before d after, d.isDigit = true → out = before ++ '#' :: d :: after →
    Odd (backslashes before) ∨ ∃ start r rest, r ∈ references ∧ out = start ++ r ++ rest ∧
      before = start ++ ['&']
  tildes : ∀ before after, out = before ++ '~' :: '~' :: after → Odd (backslashes before)

theorem inert_render {f : ℕ → Char → Text} {text : Text} (hf : Renders f text) :
    Inert (render f 0 text) ∧ (Unjoined text → Unlinked (render f 0 text)) ∧
      (MarkerWhole text → ¬ OpensBlock (render f 0 text)) := by
  refine ⟨⟨?_, ?_⟩, ?_, no_block_render hf⟩
  · intro c hc
    exact quiet_render hf hc
  · intro before c after hsplit hc
    exact odd_backslashes hf hc hsplit
  · intro hunjoined
    constructor
    · intro url hurl
      exact no_url_render hf hunjoined hurl
    · intro before d after hd hsplit
      exact issue_render hf hunjoined hd hsplit
    · intro before after hsplit
      exact odd_backslashes_tilde hf hunjoined hsplit

section Cells

variable (isAlphanumeric : Char → Bool) (text : Text)

/-- What a table cell shows for the character at a place. -/
def escapeCell (index : ℕ) (c : Char) : Text :=
  escapePipes (escape isAlphanumeric (markers text) text index c)

theorem tableCell_eq_render :
    tableCell isAlphanumeric text = render (escapeCell isAlphanumeric text) 0 text := by
  unfold tableCell escapePipes prose render
  rw [List.flatMap_assoc]
  rfl

theorem escape_pipe (index : ℕ) :
    escape isAlphanumeric (markers text) text index '|' = ['|'] := by
  have hcontrol : isControl '|' = false := by decide
  simp [escape, hcontrol]

theorem escapePipes_of_notMem {piece : Text} (h : '|' ∉ piece) : escapePipes piece = piece := by
  induction piece with
  | nil => rfl
  | cons c piece ih =>
    rw [List.mem_cons, not_or] at h
    have hc : c ≠ '|' := fun heq => h.1 heq.symm
    have hrest := ih h.2
    unfold escapePipes at hrest ⊢
    rw [List.flatMap_cons, hrest, if_neg hc]
    rfl

theorem tableCell_renders : Renders (escapeCell isAlphanumeric text) text := by
  intro before c after _
  by_cases hc : c = '|'
  · rw [hc, escapeCell, escape_pipe]
    exact .slashed (by decide)
  · have hpiece := escape_piece isAlphanumeric text before.length c
    have hnone : '|' ∉ escape isAlphanumeric (markers text) text before.length c := by
      generalize escape isAlphanumeric (markers text) text before.length c = piece at hpiece
      cases hpiece with
      | deleted _ => exact List.not_mem_nil
      | space _ => decide
      | reference _ hr =>
        have hall : ∀ r ∈ references, '|' ∉ r := by decide
        exact hall _ hr
      | slashed _ => simp [Ne.symm hc]
      | plain _ => simp [Ne.symm hc]
    rw [escapeCell, escapePipes_of_notMem hnone]
    exact hpiece

theorem odd_backslashes_pipe {before after : Text}
    (h : tableCell isAlphanumeric text = before ++ '|' :: after) : Odd (backslashes before) := by
  rw [tableCell_eq_render] at h
  rcases render_cases (tableCell_renders isAlphanumeric text) (by decide) h with
    ⟨_, _, _, left, right, _, hr, _⟩ | ⟨_, hodd⟩ | ⟨start, rest, htext, -, hbefore, hafter⟩
  · have hall : ∀ r ∈ references, '|' ∉ r := by decide
    exact absurd (by simp) (hall _ hr)
  · exact hodd
  · -- A pipe is never written on its own.
    have hpiece : escapeCell isAlphanumeric text start.length '|' = ['\\', '|'] := by
      rw [escapeCell, escape_pipe]
      rfl
    have hwhole : before ++ '|' :: after = before ++ '\\' :: '|' :: after := by
      have hsplit := congrArg (render (escapeCell isAlphanumeric text) 0) htext
      rw [render_append, render_cons, Nat.zero_add, hpiece, ← hbefore, ← hafter, h] at hsplit
      exact hsplit
    have hcons := List.append_cancel_left hwhole
    exact absurd (List.cons.inj hcons).1 (by decide)

/-- Rendered prose and table cells are inert: no tag, mention, code span, control character or
bare bracket; no link, issue number or run of tildes unless characters are brought together by
dropping what stood between them; and no block unless its marker is broken up the same way or
ends the text. -/
theorem prose_inert :
    (Inert (prose isAlphanumeric text) ∧
        (Unjoined text → Unlinked (prose isAlphanumeric text)) ∧
        (MarkerWhole text → ¬ OpensBlock (prose isAlphanumeric text))) ∧
      (Inert (tableCell isAlphanumeric text) ∧
        (Unjoined text → Unlinked (tableCell isAlphanumeric text)) ∧
        (MarkerWhole text → ¬ OpensBlock (tableCell isAlphanumeric text))) ∧
      ∀ before after, tableCell isAlphanumeric text = before ++ '|' :: after →
        Odd (backslashes before) := by
  refine ⟨?_, ?_, ?_⟩
  · rw [prose_eq_render]
    exact inert_render (prose_renders isAlphanumeric text)
  · rw [tableCell_eq_render]
    exact inert_render (tableCell_renders isAlphanumeric text)
  · intro before after
    exact odd_backslashes_pipe isAlphanumeric text

end Cells

/-- A text that loses nothing and goes on behind its marker leaves the marker whole. -/
theorem markerWhole_of_kept {text : Text} (hkept : ∀ c ∈ text, isDeleted c = false) {letter : Char}
    (hletter : letter ∈ visible text) (hmarker : letter.isDigit = false)
    (hplain : letter ∉ [' ', '-', '+', '*', '#', '.', ')']) : MarkerWhole text := by
  intro before after indent marker htext _ hblock hvisible _
  constructor
  · intro c hc
    exact hkept c (by rw [htext]; exact List.mem_append_left _ hc)
  · cases after with
    | cons next after => exact ⟨next, rfl, hkept next (by rw [htext]; simp)⟩
    | nil =>
      exfalso
      rw [htext, List.append_nil, hvisible] at hletter
      rcases List.mem_append.mp hletter with hmem | hmem
      · rw [List.eq_of_mem_replicate hmem] at hplain
        exact hplain (by decide)
      · cases hblock with
        | bullet hc =>
          rw [List.mem_singleton.mp hmem] at hplain
          have hall : ∀ e ∈ ['-', '+', '*'], e ∈ [' ', '-', '+', '*', '#', '.', ')'] := by decide
          exact hplain (hall _ hc)
        | heading _ _ =>
          rw [List.eq_of_mem_replicate hmem] at hplain
          exact hplain (by decide)
        | ordered _ _ hdigits hseparator =>
          rcases List.mem_append.mp hmem with hmem | hmem
          · rw [hdigits letter hmem] at hmarker
            cases hmarker
          · rw [List.mem_singleton.mp hmem] at hplain
            rcases hseparator with rfl | rfl
            · exact hplain (by decide)
            · exact hplain (by decide)

/-- A list item about an issue, with a link in it. -/
def remark : Text := "- see #12, ~~https://a.b~~".toList

theorem prose_inert_remark : Inert (prose Char.isAlphanum remark) ∧
    Unlinked (prose Char.isAlphanum remark) ∧ ¬ OpensBlock (prose Char.isAlphanum remark) := by
  have hkept : ∀ c ∈ remark, isDeleted c = false := by decide
  obtain ⟨⟨hinert, hunlinked, hblock⟩, -⟩ := prose_inert Char.isAlphanum remark
  have hletter : 's' ∈ visible remark := by decide
  exact ⟨hinert, hunlinked (unjoined_of_kept hkept),
    hblock (markerWhole_of_kept hkept hletter (by decide) (by decide))⟩

/-- The reference that stands for a mention sign has a number sign in front of a digit. -/
theorem prose_mention : prose Char.isAlphanum ['@'] = ['&'] ++ '#' :: '6' :: "4;".toList ∧
    '6'.isDigit = true := by decide +kernel

end TinySweeper.Markdown
