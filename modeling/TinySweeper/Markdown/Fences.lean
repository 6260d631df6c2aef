import TinySweeper.Text

/-!
# Fenced blocks

Which lines of a Markdown text stand inside a fenced block, whatever they hold. A block
whose fence is wider than every run of its mark in the content is read back whole, and
texts of whole lines are read one after the other.
-/

namespace TinySweeper.Markdown

open Text

variable {before content line label : Text}

structure Fence where
  mark : Char
  width : ℕ
  deriving DecidableEq

inductive Item where
  | line (text : Text)
  | block (label : Text) (content : List Text)
  deriving DecidableEq

/-- What is left of an item when the content of a block is not looked at. -/
def Item.outline : Item → Item
  | .line text => .line text
  | .block label _ => .block label []

/-- A fence may be indented by up to three spaces. -/
def unindent (line : Text) : Text :=
  line.drop (min 3 (line.takeWhile (· = ' ')).length)

/-- How often the line begins with the mark. -/
def markRun (mark : Char) (line : Text) : ℕ := (line.takeWhile (· = mark)).length

/-- The fence that a line opens, and its label. -/
def opens (line : Text) : Option (Fence × Text) :=
  let body := unindent line
  let ticks := markRun '\x60' body
  let tildes := markRun '~' body
  if 3 ≤ ticks ∧ '\x60' ∉ body.drop ticks then some (⟨'\x60', ticks⟩, body.drop ticks)
  else if 3 ≤ tildes then some (⟨'~', tildes⟩, body.drop tildes)
  else none

def closes (fence : Fence) (line : Text) : Bool :=
  let body := unindent line
  let run := markRun fence.mark body
  decide (fence.width ≤ run) && (body.drop run).all fun c => c = ' ' || c = '\t'

/-- The items of a text's lines; a fence that is not closed runs to the end. -/
def readFrom : Option (Fence × Text × List Text) → List Text → List Item
  | none, [] => []
  | some (_, label, content), [] => [.block label content]
  | none, line :: rest =>
    match opens line with
    | none => .line line :: readFrom none rest
    | some (fence, label) => readFrom (some (fence, label, [])) rest
  | some (fence, label, content), line :: rest =>
    if closes fence line then .block label content :: readFrom none rest
    else readFrom (some (fence, label, content ++ [line])) rest

def readItems (text : Text) : List Item := readFrom none (lines text)

/-- The text is read as these items, whatever follows it. -/
def Reads (text : Text) (items : List Item) : Prop :=
  ∀ rest, readItems (text ++ rest) = items ++ readItems rest

theorem Reads.nil : Reads [] [] := fun _ => rfl

theorem Reads.append {after : Text} {items more : List Item} (h : Reads before items)
    (hafter : Reads after more) : Reads (before ++ after) (items ++ more) := by
  intro rest
  rw [List.append_assoc, h, hafter, List.append_assoc]

/-- A text of whole lines none of which opens a block. -/
structure Unfenced (text : Text) : Prop where
  whole : ∀ c ∈ text.getLast?, c = '\n'
  plain : ∀ line ∈ lines text, opens line = none

theorem readFrom_plain {texts : List Text} (h : ∀ line ∈ texts, opens line = none)
    (rest : List Text) :
    readFrom none (texts ++ rest) = texts.map Item.line ++ readFrom none rest := by
  induction texts with
  | nil => rfl
  | cons line texts ih =>
    rw [List.cons_append, readFrom, h line List.mem_cons_self]
    dsimp only
    rw [ih fun other hmem => h other (List.mem_cons_of_mem line hmem), List.map_cons,
      List.cons_append]

theorem Unfenced.reads {text : Text} (h : Unfenced text) :
    Reads text ((lines text).map Item.line) := by
  intro rest
  rcases List.eq_nil_or_concat' text with rfl | ⟨before, c, rfl⟩
  · rfl
  · have hc : c = '\n' := h.whole c (by simp)
    subst hc
    have hlines : lines (before ++ ['\n'] ++ rest) = lines (before ++ ['\n']) ++ lines rest := by
      rw [List.append_assoc, List.singleton_append, lines_append_lines]
    rw [readItems, hlines, readFrom_plain h.plain, readItems]

theorem markRun_le_longestRun (mark : Char) {body : Text} (h : body <:+: content) :
    markRun mark body ≤ longestRun (· = mark) content :=
  length_le_longestRun (fun _ hc => List.mem_takeWhile_imp (p := fun c => c = mark) hc)
    ((List.takeWhile_prefix _).isInfix.trans h)

/-- A stretch of a text has no longer runs than the text. -/
theorem longestRun_mono {α : Type*} {p : α → Bool} {stretch content : List α}
    (h : stretch <:+: content) : longestRun p stretch ≤ longestRun p content := by
  induction stretch with
  | nil => exact Nat.zero_le _
  | cons c stretch ih =>
    have htail : stretch <:+: content := (List.suffix_cons c stretch).isInfix.trans h
    have hrun := length_le_longestRun (fun _ hc => List.mem_takeWhile_imp (p := p) hc)
      ((List.takeWhile_prefix (l := c :: stretch) p).isInfix.trans h)
    exact max_le hrun (ih htail)

theorem unindent_suffix (line : Text) : unindent line <:+ line := List.drop_suffix _ _

/-- A line of the content does not close a fence that is wider than its runs of the mark. -/
theorem closes_eq_false {fence : Fence} (h : line <:+: content)
    (hwidth : longestRun (· = fence.mark) content < fence.width) : closes fence line = false := by
  have hrun := markRun_le_longestRun fence.mark ((unindent_suffix line).isInfix.trans h)
  have hle : ¬fence.width ≤ markRun fence.mark (unindent line) := by omega
  simp [closes, hle]

theorem readFrom_content {fence : Fence} {texts : List Text}
    (h : ∀ line ∈ texts, closes fence line = false) (content rest : List Text) :
    readFrom (some (fence, label, content)) (texts ++ rest) =
      readFrom (some (fence, label, content ++ texts)) rest := by
  induction texts generalizing content with
  | nil => rw [List.nil_append, List.append_nil]
  | cons line texts ih =>
    rw [List.cons_append, readFrom, if_neg (by simp [h line List.mem_cons_self]),
      ih (fun other hmem => h other (List.mem_cons_of_mem line hmem)), List.append_assoc,
      List.singleton_append]

theorem chomp_infix (line : Text) : chomp line <:+: line := by
  unfold chomp
  split_ifs
  · exact (List.dropLast_prefix line).isInfix
  · exact List.infix_rfl

/-- Each line of a text is a stretch of it. -/
theorem infix_of_mem_lines {text : Text} (h : line ∈ lines (text ++ ['\n'])) : line <:+: text := by
  induction text using lines_induction with
  | last raw hraw =>
    rw [lines_append hraw] at h
    rw [List.mem_singleton.mp h]
    exact chomp_infix raw
  | line raw rest hraw ih =>
    rw [List.append_assoc, List.cons_append, lines_append hraw, List.mem_cons] at h
    rcases h with rfl | h
    · have hchomp := chomp_infix raw
      exact hchomp.trans (List.prefix_append raw _).isInfix
    · exact (ih h).trans ((List.suffix_cons '\n' rest).trans (List.suffix_append raw _)).isInfix

/-- What may stand behind an opening fence. -/
structure Label (label : Text) : Prop where
  unbroken : '\n' ∉ label
  unmarked : '\x60' ∉ label
  unreturned : '\r' ∉ label

theorem markRun_replicate {mark : Char} {rest : Text} (h : ∀ c ∈ rest.head?, c ≠ mark) (n : ℕ) :
    markRun mark (List.replicate n mark ++ rest) = n := by
  have hrest : rest.takeWhile (· = mark) = [] := by
    cases rest with
    | nil => rfl
    | cons c rest => simp [h c rfl]
  rw [markRun, List.takeWhile_append_of_pos (by simp), hrest]
  simp

theorem unindent_replicate {n : ℕ} (hn : 0 < n) (rest : Text) :
    unindent (List.replicate n '\x60' ++ rest) = List.replicate n '\x60' ++ rest := by
  obtain ⟨k, rfl⟩ := Nat.exists_eq_succ_of_ne_zero (Nat.ne_of_gt hn)
  simp [unindent, List.replicate_succ]

theorem opens_fence {n : ℕ} (hn : 3 ≤ n) (hlabel : Label label) :
    opens (List.replicate n '\x60' ++ label) = some (⟨'\x60', n⟩, label) := by
  have hhead : ∀ c ∈ label.head?, c ≠ '\x60' := by
    rintro c hc rfl
    exact hlabel.unmarked (List.mem_of_mem_head? hc)
  have hdrop : (List.replicate n '\x60' ++ label).drop n = label := by
    rw [List.drop_left' (List.length_replicate)]
  rw [opens, unindent_replicate (by omega)]
  simp only [markRun_replicate hhead, hdrop]
  rw [if_pos ⟨hn, hlabel.unmarked⟩]

theorem closes_fence {n : ℕ} (hn : 3 ≤ n) :
    closes ⟨'\x60', n⟩ (List.replicate n '\x60') = true := by
  have hrun : markRun '\x60' (List.replicate n '\x60' ++ []) = n :=
    markRun_replicate (by simp) n
  have hbody := unindent_replicate (n := n) (by omega) []
  rw [List.append_nil] at hrun hbody
  rw [closes]
  simp [hbody, hrun]

/-- A block whose fence outruns its content is read back whole. -/
theorem reads_block {n : ℕ} (hn : 3 ≤ n) (hlabel : Label label)
    (hwidth : longestRun (· = '\x60') content < n) :
    Reads (List.replicate n '\x60' ++ label ++ '\n' :: (content ++ '\n' ::
        (List.replicate n '\x60' ++ ['\n'])))
      [.block label (lines (content ++ ['\n']))] := by
  intro rest
  have hfence : ∀ c ∈ List.replicate n '\x60', c = '\x60' := fun c hc => List.eq_of_mem_replicate hc
  have hopen : '\n' ∉ List.replicate n '\x60' ++ label := by
    rw [List.mem_append, not_or]
    exact ⟨fun hmem => absurd (hfence _ hmem) (by decide), hlabel.unbroken⟩
  have hclose : '\n' ∉ List.replicate n '\x60' := fun hmem => absurd (hfence _ hmem) (by decide)
  have hchomp : ∀ line : Text, '\r' ∉ line → chomp line = line := by
    intro line hline
    unfold chomp
    exact if_neg fun hlast => hline (List.mem_of_getLast? hlast)
  have hreturn : '\r' ∉ List.replicate n '\x60' := fun hmem => absurd (hfence _ hmem) (by decide)
  have hlines : lines (List.replicate n '\x60' ++ label ++ '\n' :: (content ++ '\n' ::
      (List.replicate n '\x60' ++ ['\n'])) ++ rest) =
      (List.replicate n '\x60' ++ label) :: (lines (content ++ ['\n']) ++
        List.replicate n '\x60' :: lines rest) := by
    rw [List.append_assoc, List.cons_append, lines_append hopen, List.append_assoc,
      List.cons_append, lines_append_lines, List.append_assoc, List.singleton_append,
      lines_append hclose, hchomp _ hreturn, hchomp _ (by simp [hreturn, hlabel.unreturned])]
  have hinside : ∀ line ∈ lines (content ++ ['\n']), closes ⟨'\x60', n⟩ line = false :=
    fun line hline => closes_eq_false (infix_of_mem_lines hline) hwidth
  rw [readItems, hlines, readFrom, opens_fence hn hlabel]
  dsimp only
  rw [readFrom_content hinside, List.nil_append, readFrom, if_pos (closes_fence hn)]
  rfl

theorem longestRun_le {mark : Char} {b : ℕ}
    (h : ∀ piece ∈ content.splitOnP (· ≠ mark), piece.length ≤ b) :
    (content.takeWhile (· = mark)).length ≤ b ∧ longestRun (· = mark) content ≤ b := by
  suffices hhead : ∃ pieces, content.splitOnP (· ≠ mark) =
      content.takeWhile (· = mark) :: pieces ∧
        ((∀ piece ∈ pieces, piece.length ≤ b) → (content.takeWhile (· = mark)).length ≤ b →
          longestRun (· = mark) content ≤ b) by
    obtain ⟨pieces, hsplit, hlongest⟩ := hhead
    rw [hsplit] at h
    have hfirst := h _ List.mem_cons_self
    exact ⟨hfirst, hlongest (fun piece hpiece => h piece (List.mem_cons_of_mem _ hpiece)) hfirst⟩
  clear h
  induction content with
  | nil => exact ⟨[], rfl, fun _ _ => Nat.zero_le b⟩
  | cons c content ih =>
    obtain ⟨pieces, hsplit, hlongest⟩ := ih
    rw [List.splitOnP_cons_eq_if_modifyHead, hsplit, longestRun]
    by_cases hc : c = mark
    · refine ⟨pieces, by simp [hc], fun hpieces hrun => max_le hrun (hlongest hpieces ?_)⟩
      simp only [hc, decide_true, List.takeWhile_cons_of_pos, List.length_cons] at hrun
      omega
    · refine ⟨_ :: pieces, by simp [hc]; rfl, fun hpieces hrun => max_le hrun ?_⟩
      exact hlongest (fun piece hpiece => hpieces piece (List.mem_cons_of_mem _ hpiece))
        (hpieces _ List.mem_cons_self)

/-- A text of whole lines with no mark of a fence in it. -/
def isHeading (t : Text) : Bool :=
  t.getLast? = some '\n' && t.all fun c => c ≠ '\x60' && c ≠ '~'

theorem opens_eq_none (h : ∀ c ∈ line.head?, c ≠ ' ' ∧ c ≠ '\x60' ∧ c ≠ '~') :
    opens line = none := by
  cases line with
  | nil => rfl
  | cons c line =>
    obtain ⟨hspace, htick, htilde⟩ := h c rfl
    simp [opens, unindent, markRun, hspace, htick, htilde]

theorem markRun_eq_zero {mark : Char} (h : mark ∉ line) : markRun mark line = 0 := by
  cases line with
  | nil => rfl
  | cons c line =>
    have hc : c ≠ mark := fun heq => h (heq ▸ List.mem_cons_self)
    simp [markRun, hc]

theorem opens_of_unmarked (htick : '\x60' ∉ line) (htilde : '~' ∉ line) : opens line = none := by
  have hsub := (unindent_suffix line).subset
  have h := markRun_eq_zero fun hmem => htick (hsub hmem)
  have h' := markRun_eq_zero fun hmem => htilde (hsub hmem)
  simp [opens, h, h']

theorem unfenced_nil : Unfenced [] := ⟨by simp, by simp [lines, splitInclusive]⟩

theorem unfenced_of_heading {t : Text} (h : isHeading t = true) : Unfenced t := by
  rw [isHeading, Bool.and_eq_true, List.all_eq_true] at h
  have hlast : t.getLast? = some '\n' := of_decide_eq_true h.1
  refine ⟨fun c hc => ?_, fun line hline => ?_⟩
  · rw [hlast] at hc
    exact (Option.some.inj hc).symm
  · obtain ⟨before, rfl⟩ : ∃ before, t = before ++ ['\n'] := by
      obtain ⟨ne, heq⟩ := List.getLast?_eq_some_iff.mp hlast
      exact ⟨ne, heq⟩
    have hmem : ∀ c ∈ line, c ≠ '\x60' ∧ c ≠ '~' := by
      intro c hc
      have hstands : c ∈ before ++ ['\n'] :=
        List.mem_append_left _ ((infix_of_mem_lines hline).subset hc)
      simpa using h.2 c hstands
    exact opens_of_unmarked (fun hc => (hmem _ hc).1 rfl) fun hc => (hmem _ hc).2 rfl

theorem lines_append_of_whole (h : ∀ c ∈ before.getLast?, c = '\n') (after : Text) :
    lines (before ++ after) = lines before ++ lines after := by
  rcases List.eq_nil_or_concat' before with rfl | ⟨start, c, rfl⟩
  · rfl
  · have hc : c = '\n' := h c (by simp)
    rw [hc, List.append_assoc, List.singleton_append, lines_append_lines]

theorem Unfenced.append {after : Text} (h : Unfenced before) (hafter : Unfenced after) :
    Unfenced (before ++ after) := by
  constructor
  · intro c hc
    rw [List.getLast?_append, Option.mem_def, Option.or_eq_some_iff] at hc
    rcases hc with hc | ⟨-, hc⟩
    · exact hafter.whole c hc
    · exact h.whole c hc
  · intro line hline
    rw [lines_append_of_whole h.whole] at hline
    rcases List.mem_append.mp hline with hline | hline
    · exact h.plain line hline
    · exact hafter.plain line hline

/-- A line that begins with no mark of a fence, whatever is interpolated into it. -/
theorem unfenced_line (hbreak : '\n' ∉ line)
    (hhead : ∀ c ∈ line.head?, c ≠ ' ' ∧ c ≠ '\x60' ∧ c ≠ '~') : Unfenced (line ++ ['\n']) := by
  refine ⟨by simp, fun other hother => ?_⟩
  rw [lines_append hbreak] at hother
  rw [List.mem_singleton.mp hother]
  apply opens_eq_none
  intro c hc
  apply hhead c
  unfold chomp at hc
  split_ifs at hc
  · cases line with
    | nil => simp at hc
    | cons d line =>
      cases line with
      | nil => simp at hc
      | cons e line => simpa using hc
  · exact hc

/-- The items of a text that is all lines. -/
def said (t : Text) : List Item := (lines t).map .line

theorem read_plain {t : Text} (h : ∀ line ∈ lines t, opens line = none) : readItems t = said t := by
  have hread := readFrom_plain h []
  rw [List.append_nil] at hread
  rw [readItems, hread]
  exact List.append_nil _

theorem Reads.flatMap {α : Type} {f : α → Text} {l : List α}
    (h : ∀ x ∈ l, ∃ items, Reads (f x) items) : ∃ items, Reads (l.flatMap f) items := by
  induction l with
  | nil => exact ⟨[], Reads.nil⟩
  | cons x l ih =>
    obtain ⟨items, hitems⟩ := h x List.mem_cons_self
    obtain ⟨more, hmore⟩ := ih fun y hy => h y (List.mem_cons_of_mem x hy)
    exact ⟨items ++ more, hitems.append hmore⟩

/-- A literal is checked as the list of its characters. -/
theorem unfenced_literal {s : String} (characters : Text) (h : s = String.ofList characters)
    (hc : isHeading characters = true) : Unfenced s.toList := by
  rw [h, String.toList_ofList]
  exact unfenced_of_heading hc

theorem label_literal {s : String} (characters : Text) (h : s = String.ofList characters)
    (hc : characters.all (fun c => c ≠ '\n' && c ≠ '\x60' && c ≠ '\r') = true) :
    Label s.toList := by
  rw [h, String.toList_ofList]
  rw [List.all_eq_true] at hc
  refine ⟨fun hmem => ?_, fun hmem => ?_, fun hmem => ?_⟩ <;> simpa using hc _ hmem

end TinySweeper.Markdown
