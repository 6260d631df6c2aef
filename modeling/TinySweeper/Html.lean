import TinySweeper.Text

/-!
# Reading HTML

A page is read character by character into tags, comments and characters. What a page
says depends on its parts: the text that is put into a page, or between the quotation marks
of an attribute, stays text once it is escaped.
-/

namespace TinySweeper.Html

open Text

structure Attribute where
  name : Text
  value : Text
  deriving DecidableEq

inductive Token where
  | char (c : Char)
  | tag (name : Text) (attributes : List Attribute)
  | endTag (name : Text)
  | comment
  deriving DecidableEq

/-- What the reader is in. -/
inductive Mode where
  | data
  /-- behind a `<` -/
  | markup
  | tagName (name : Text)
  | endTagName (name : Text)
  | attributes (name : Text) (seen : List Attribute)
  | attributeName (name : Text) (seen : List Attribute) (key : Text)
  /-- behind the `=` of an attribute -/
  | beforeValue (name : Text) (seen : List Attribute) (key : Text)
  | quoted (name : Text) (seen : List Attribute) (key value : Text)
  | unquoted (name : Text) (seen : List Attribute) (key value : Text)
  /-- behind a `<!`, and then behind a `<!-` -/
  | declaration (dash : Bool)
  /-- any other declaration -/
  | bogus
  /-- a comment, and how many dashes are read last -/
  | comment (dashes : ℕ)
  /-- behind the `--!` of a comment -/
  | commentBang
  deriving DecidableEq

def isBlank (c : Char) : Bool := [' ', '\n', '\t', '\r', '\x0c'].contains c

def step : Mode → Char → Mode × List Token
  | .data, c => if c = '<' then (.markup, []) else (.data, [.char c])
  | .markup, c =>
    if c = '/' then (.endTagName [], [])
    else if c = '!' then (.declaration false, [])
    else if c = '<' then (.markup, [.char '<'])
    else if c.isAlpha then (.tagName [c], [])
    else (.data, [.char '<', .char c])
  | .tagName name, c =>
    if c = '>' then (.data, [.tag name []])
    else if isBlank c ∨ c = '/' then (.attributes name [], [])
    else (.tagName (name ++ [c]), [])
  | .endTagName name, c =>
    if c = '>' then (.data, [.endTag name]) else (.endTagName (name ++ [c]), [])
  | .attributes name seen, c =>
    if c = '>' then (.data, [.tag name seen])
    else if isBlank c ∨ c = '/' then (.attributes name seen, [])
    else (.attributeName name seen [c], [])
  | .attributeName name seen key, c =>
    if c = '>' then (.data, [.tag name (seen ++ [⟨key, []⟩])])
    else if isBlank c ∨ c = '/' then (.attributes name (seen ++ [⟨key, []⟩]), [])
    else if c = '=' then (.beforeValue name seen key, [])
    else (.attributeName name seen (key ++ [c]), [])
  | .beforeValue name seen key, c =>
    if c = '>' then (.data, [.tag name (seen ++ [⟨key, []⟩])])
    else if isBlank c then (.beforeValue name seen key, [])
    else if c = '"' then (.quoted name seen key [], [])
    else (.unquoted name seen key [c], [])
  | .quoted name seen key value, c =>
    if c = '"' then (.attributes name (seen ++ [⟨key, value⟩]), [])
    else (.quoted name seen key (value ++ [c]), [])
  | .unquoted name seen key value, c =>
    if c = '>' then (.data, [.tag name (seen ++ [⟨key, value⟩])])
    else if isBlank c then (.attributes name (seen ++ [⟨key, value⟩]), [])
    else (.unquoted name seen key (value ++ [c]), [])
  | .declaration dash, c =>
    if c = '-' then (if dash then .comment 2 else .declaration true, [])
    else if c = '>' then (.data, [.comment])
    else (.bogus, [])
  | .bogus, c => if c = '>' then (.data, [.comment]) else (.bogus, [])
  | .comment dashes, c =>
    if c = '-' then (.comment (dashes + 1), [])
    else if c = '>' ∧ 2 ≤ dashes then (.data, [.comment])
    else if c = '!' ∧ 2 ≤ dashes then (.commentBang, [])
    else (.comment 0, [])
  | .commentBang, c =>
    if c = '>' then (.data, [.comment])
    else if c = '-' then (.comment 1, [])
    else (.comment 0, [])

/-- What is read of a text from a mode on, and the mode it ends in. -/
def feed : Mode → Text → Mode × List Token
  | mode, [] => (mode, [])
  | mode, c :: rest =>
    let stepped := step mode c
    let fed := feed stepped.1 rest
    (fed.1, stepped.2 ++ fed.2)

/-- The tokens of a page; a tag that is not closed is none. -/
def read (page : Text) : List Token := (feed .data page).2

theorem feed_append (mode : Mode) (s t : Text) :
    feed mode (s ++ t) =
      ((feed (feed mode s).1 t).1, (feed mode s).2 ++ (feed (feed mode s).1 t).2) := by
  induction s generalizing mode with
  | nil => rfl
  | cons c s ih =>
    rw [List.cons_append, feed, feed, ih]
    simp only [List.append_assoc]

/-- A text as it is written between tags or quotation marks. -/
def escape (s : Text) : Text :=
  s.flatMap fun c =>
    if c = '&' then "&amp;".toList
    else if c = '<' then "&lt;".toList
    else if c = '>' then "&gt;".toList
    else if c = '"' then "&quot;".toList
    else if c = '\'' then "&#39;".toList
    else [c]

/-- The references of an escaped text read back. -/
def unescape : Text → Text
  | '&' :: 'a' :: 'm' :: 'p' :: ';' :: rest => '&' :: unescape rest
  | '&' :: 'l' :: 't' :: ';' :: rest => '<' :: unescape rest
  | '&' :: 'g' :: 't' :: ';' :: rest => '>' :: unescape rest
  | '&' :: 'q' :: 'u' :: 'o' :: 't' :: ';' :: rest => '"' :: unescape rest
  | '&' :: '#' :: '3' :: '9' :: ';' :: rest => '\'' :: unescape rest
  | c :: rest => c :: unescape rest
  | [] => []

theorem unescape_cons {c : Char} (hc : c ≠ '&') (rest : Text) :
    unescape (c :: rest) = c :: unescape rest := by
  rw [unescape] <;> intros <;> simp_all

theorem unescape_escape (s : Text) : unescape (escape s) = s := by
  induction s with
  | nil => rfl
  | cons c s ih =>
    rw [escape, List.flatMap_cons, ← escape]
    split_ifs with hamp hlt hgt hquote happos
    · rw [hamp]
      exact congrArg ('&' :: ·) ih
    · rw [hlt]
      exact congrArg ('<' :: ·) ih
    · rw [hgt]
      exact congrArg ('>' :: ·) ih
    · rw [hquote]
      exact congrArg ('"' :: ·) ih
    · rw [happos]
      exact congrArg ('\'' :: ·) ih
    · rw [List.singleton_append, unescape_cons hamp, ih]

/-- No character of an escaped text ends the place it is written in. -/
theorem notMem_escape {c : Char} (hc : c ∈ ['<', '>', '"', '\'']) (s : Text) :
    c ∉ escape s := by
  rw [escape, List.mem_flatMap]
  rintro ⟨d, -, hd⟩
  fin_cases hc <;> split_ifs at hd with h1 h2 h3 h4 h5 <;> revert hd <;>
    simp_all [eq_comm]

/-- A part of a page that stands between tags, and the tokens it is read as, whatever
stands before and behind it. -/
def Reads (s : Text) (tokens : List Token) : Prop := feed .data s = (.data, tokens)

theorem Reads.append {s t : Text} {x y : List Token} (hs : Reads s x) (ht : Reads t y) :
    Reads (s ++ t) (x ++ y) := by
  rw [Reads, feed_append, hs, ht]

theorem Reads.nil : Reads [] [] := rfl

theorem Reads.read {s : Text} {tokens : List Token} (h : Reads s tokens) :
    read s = tokens := congrArg Prod.snd h

theorem reads_text {s : Text} (h : '<' ∉ s) : Reads s (s.map .char) := by
  induction s with
  | nil => rfl
  | cons c s ih =>
    rw [List.mem_cons, not_or] at h
    rw [Reads, feed, step, if_neg (Ne.symm h.1)]
    dsimp only
    rw [ih h.2]
    rfl

/-- What is put between quotation marks ends up in the attribute's value. -/
theorem feed_quoted {name key value s : Text} {seen : List Attribute} (h : '"' ∉ s) :
    feed (.quoted name seen key value) s =
      (.quoted name seen key (value ++ s), []) := by
  induction s generalizing value with
  | nil => rw [List.append_nil, feed]
  | cons c s ih =>
    rw [List.mem_cons, not_or] at h
    rw [feed, step, if_neg (Ne.symm h.1)]
    dsimp only
    rw [ih h.2, List.append_assoc]
    rfl

/-- An attribute's value between two parts of a page. -/
theorem feed_value {mode next : Mode} {before value after name key : Text}
    {seen : List Attribute} {x y : List Token}
    (hbefore : feed mode before = (.quoted name seen key [], x)) (hvalue : '"' ∉ value)
    (hafter : feed (.quoted name seen key value) after = (next, y)) :
    feed mode (before ++ value ++ after) = (next, x ++ y) := by
  rw [feed_append, feed_append, hbefore]
  dsimp only
  rw [feed_quoted hvalue, List.nil_append, hafter, List.append_nil]

/-- A comment goes on until something closes it. -/
def Mode.isComment : Mode → Bool
  | .comment _ | .commentBang => true
  | _ => false

theorem feed_comment {mode : Mode} (hmode : mode.isComment = true) {s : Text} (h : '>' ∉ s) :
    (feed mode s).1.isComment = true ∧ (feed mode s).2 = [] := by
  induction s generalizing mode with
  | nil => exact ⟨hmode, rfl⟩
  | cons c s ih =>
    rw [List.mem_cons, not_or] at h
    have hstep : (step mode c).1.isComment = true ∧ (step mode c).2 = [] := by
      cases mode with
      | comment dashes =>
        simp only [step]
        split_ifs with h1 h2 h3
        · exact ⟨rfl, rfl⟩
        · exact absurd h2.1.symm h.1
        · exact ⟨rfl, rfl⟩
        · exact ⟨rfl, rfl⟩
      | commentBang =>
        simp only [step]
        split_ifs with h1 h2
        · exact absurd h1.symm h.1
        · exact ⟨rfl, rfl⟩
        · exact ⟨rfl, rfl⟩
      | _ => cases hmode
    rw [feed, hstep.2]
    exact ih hstep.1 h.2

theorem reads_comment {s : Text} (h : '>' ∉ s) :
    Reads ("<!--".toList ++ s ++ " -->".toList) [.comment] := by
  have hmode : Mode.isComment (.comment 2) = true := rfl
  obtain ⟨hcomment, hnone⟩ := feed_comment hmode h
  rw [Reads, feed_append, feed_append]
  have hopen : feed .data "<!--".toList = (.comment 2, []) := rfl
  rw [hopen]
  dsimp only
  rw [hnone]
  cases hmode : (feed (.comment 2) s).1 with
  | comment dashes => rfl
  | commentBang => rfl
  | _ =>
    rw [hmode] at hcomment
    cases hcomment

/-- The tags of a page, with the values of their attributes read back. -/
def Token.markup? : Token → Option Token
  | .char _ => none
  | .tag name attributes =>
    some (.tag name (attributes.map fun a => { a with value := unescape a.value }))
  | token => some token

def markup (page : Text) : List Token := (read page).filterMap Token.markup?

/-- The addresses a page leads to or loads from. -/
def Token.links : Token → List Text
  | .tag _ attributes =>
    (attributes.filter fun a => a.name = "href".toList ∨ a.name = "src".toList).map (·.value)
  | _ => []

def links (page : Text) : List Text := (markup page).flatMap Token.links

/-- A part of a page, and the tags in it. -/
def Shows (s : Text) (tags : List Token) : Prop :=
  ∃ tokens, Reads s tokens ∧ tokens.filterMap Token.markup? = tags

theorem Shows.append {s t : Text} {x y : List Token} (hs : Shows s x) (ht : Shows t y) :
    Shows (s ++ t) (x ++ y) := by
  obtain ⟨before, hbefore, rfl⟩ := hs
  obtain ⟨after, hafter, rfl⟩ := ht
  exact ⟨before ++ after, hbefore.append hafter, List.filterMap_append⟩

/-- What a part of a page without places to fill shows is computed. -/
theorem shows_literal {s : Text} {tags : List Token}
    (h : (feed .data s).1 = .data ∧ (feed .data s).2.filterMap Token.markup? = tags) :
    Shows s tags := ⟨(feed .data s).2, Prod.ext h.1 rfl, h.2⟩

theorem Shows.nil : Shows [] [] := ⟨[], .nil, rfl⟩

theorem Shows.markup {s : Text} {tags : List Token} (h : Shows s tags) : markup s = tags := by
  obtain ⟨tokens, hreads, rfl⟩ := h
  rw [Html.markup, hreads.read]

theorem shows_text {s : Text} (h : '<' ∉ s) : Shows s [] :=
  ⟨s.map .char, reads_text h, by simp [Token.markup?]⟩

theorem shows_escape (s : Text) : Shows (escape s) [] := shows_text (notMem_escape (by simp) s)

theorem shows_comment {s : Text} (h : '>' ∉ s) :
    Shows ("<!--".toList ++ s ++ " -->".toList) [.comment] :=
  ⟨[.comment], reads_comment h, rfl⟩

end TinySweeper.Html
