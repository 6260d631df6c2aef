import TinySweeper.Text

/-!
# The tokens and values of JSON

A text is read as marks, quoted strings and bare words with whitespace between them.
What a sequence of tokens means is a relation to values; how a word is read as a number
or a name, and a literal as a string, is left open.
-/

namespace TinySweeper.Json

inductive Token where
  | mark (c : Char)
  | quoted (literal : Text)
  | word (text : Text)
  deriving DecidableEq, Repr

def Token.text : Token → Text
  | .mark c => [c]
  | .quoted literal => literal
  | .word text => text

def isSpace (c : Char) : Bool := c = ' ' || c = '\t' || c = '\n' || c = '\r'

def isMark (c : Char) : Bool := decide (c ∈ ['\x7b', '\x7d', '[', ']', ',', ':'])

def isWordChar (c : Char) : Bool := c.isAlphanum || c = '+' || c = '-' || c = '.'

/-- What a reader is inside of. -/
inductive Reading where
  | between
  | word (seen : Text)
  | quoted (seen : Text) (escaped : Bool)
  deriving DecidableEq, Repr

def enter (c : Char) : Option (List Token × Reading) :=
  if isSpace c then some ([], .between)
  else if isMark c then some ([.mark c], .between)
  else if c = '"' then some ([], .quoted [c] false)
  else if isWordChar c then some ([], .word [c])
  else none

def advance : Reading → Char → Option (List Token × Reading)
  | .between, c => enter c
  | .word seen, c =>
    if isWordChar c then some ([], .word (seen ++ [c]))
    else (enter c).map fun (tokens, reading) => (.word seen :: tokens, reading)
  | .quoted seen true, c => some ([], .quoted (seen ++ [c]) false)
  | .quoted seen false, c =>
    if c = '\\' then some ([], .quoted (seen ++ [c]) true)
    else if c = '"' then some ([.quoted (seen ++ [c])], .between)
    else some ([], .quoted (seen ++ [c]) false)

def finish : Reading → Option (List Token)
  | .between => some []
  | .word seen => some [.word seen]
  | .quoted _ _ => none

def lexFrom : Reading → Text → Option (List Token)
  | reading, [] => finish reading
  | reading, c :: text =>
    (advance reading c).bind fun (tokens, next) => (lexFrom next text).map (tokens ++ ·)

/-- The tokens of a text. -/
def lex (text : Text) : Option (List Token) := lexFrom .between text

/-- The rest of a quoted string ends with its closing quote. -/
def closes : (escaped : Bool) → Text → Bool
  | _, [] => false
  | true, _ :: body => closes false body
  | false, c :: body =>
    if c = '\\' then closes true body else if c = '"' then body.isEmpty else closes false body

/-- The tokens that a text spells. -/
inductive Spelled : Token → Prop
  | mark (c : Char) (h : isMark c = true) : Spelled (.mark c)
  | quoted (body : Text) (h : closes false body = true) : Spelled (.quoted ('"' :: body))
  | word (text : Text) (hne : text ≠ []) (h : ∀ c ∈ text, isWordChar c = true) :
    Spelled (.word text)

/-- A word goes on for as long as it can. -/
def Ends : Token → Text → Prop
  | .word _, rest => ∀ c ∈ rest.head?, isWordChar c = false
  | _, _ => True

theorem isSpace_of_isMark {c : Char} (h : isMark c = true) : isSpace c = false := by
  have hc : c ∈ ['\x7b', '\x7d', '[', ']', ',', ':'] := of_decide_eq_true h
  fin_cases hc <;> rfl

theorem enter_of_isWordChar {c : Char} (h : isWordChar c = true) :
    enter c = some ([], .word [c]) := by
  have hspace : isSpace c = false := by
    rw [Bool.eq_false_iff]
    intro hc
    have hmem : c ∈ [' ', '\t', '\n', '\r'] := by simpa [isSpace, or_assoc] using hc
    fin_cases hmem <;> exact absurd h (by decide)
  have hmark : isMark c = false := by
    rw [Bool.eq_false_iff]
    intro hc
    have hmem : c ∈ ['\x7b', '\x7d', '[', ']', ',', ':'] := of_decide_eq_true hc
    fin_cases hmem <;> exact absurd h (by decide)
  have hquote : c ≠ '"' := by
    rintro rfl
    exact absurd h (by decide)
  simp [enter, hspace, hmark, hquote, h]

theorem lexFrom_quiet {reading next : Reading} {c : Char} (h : advance reading c = some ([], next))
    (text : Text) : lexFrom reading (c :: text) = lexFrom next text := by
  rw [lexFrom, h]
  exact congrFun Option.map_id _

theorem lexFrom_space {gap : Text} (hgap : ∀ c ∈ gap, isSpace c = true) (rest : Text) :
    lexFrom .between (gap ++ rest) = lexFrom .between rest := by
  induction gap with
  | nil => rfl
  | cons c gap ih =>
    have hspace : advance .between c = some ([], .between) := if_pos (hgap c List.mem_cons_self)
    rw [List.cons_append, lexFrom_quiet hspace]
    exact ih fun d hd => hgap d (List.mem_cons_of_mem c hd)

theorem lexFrom_mark {c : Char} (h : isMark c = true) (rest : Text) :
    lexFrom .between (c :: rest) = (lexFrom .between rest).map (.mark c :: ·) := by
  rw [lexFrom, advance, enter, isSpace_of_isMark h, if_neg Bool.false_ne_true, if_pos h,
    Option.bind_some]
  rfl

theorem lexFrom_quoted {body : Text} {escaped : Bool} (h : closes escaped body = true)
    (seen rest : Text) : lexFrom (.quoted seen escaped) (body ++ rest) =
      (lexFrom .between rest).map (.quoted (seen ++ body) :: ·) := by
  induction body generalizing escaped seen with
  | nil => cases escaped <;> cases h
  | cons c body ih =>
    have hlater : ∀ next, closes next body = true →
        advance (.quoted seen escaped) c = some ([], .quoted (seen ++ [c]) next) →
        lexFrom (.quoted seen escaped) (c :: (body ++ rest)) =
          (lexFrom .between rest).map (.quoted (seen ++ c :: body) :: ·) := by
      intro next hbody hadvance
      rw [lexFrom_quiet hadvance, ih hbody, List.append_assoc, List.singleton_append]
    rw [List.cons_append]
    cases escaped with
    | true => exact hlater false h rfl
    | false =>
      rw [closes] at h
      split_ifs at h with hescape hclose
      · exact hlater true h (if_pos hescape)
      · have hdone : advance (.quoted seen false) c = some ([.quoted (seen ++ [c])], .between) := by
          rw [advance, if_neg hescape, if_pos hclose]
        rw [lexFrom, hdone, List.isEmpty_iff.mp h]
        rfl
      · refine hlater false h ?_
        rw [advance, if_neg hescape, if_neg hclose]

theorem lexFrom_word {more rest : Text} (hmore : ∀ c ∈ more, isWordChar c = true)
    (hrest : ∀ c ∈ rest.head?, isWordChar c = false) (seen : Text) :
    lexFrom (.word seen) (more ++ rest) =
      (lexFrom .between rest).map (.word (seen ++ more) :: ·) := by
  induction more generalizing seen with
  | nil =>
    rw [List.nil_append, List.append_nil]
    cases rest with
    | nil => rfl
    | cons c rest =>
      rw [lexFrom, lexFrom, advance, advance, hrest c rfl, if_neg Bool.false_ne_true]
      cases enter c with
      | none => rfl
      | some entered =>
        rw [Option.map_some, Option.bind_some, Option.bind_some, Option.map_map]
        rfl
  | cons c more ih =>
    have hmoreWord : advance (.word seen) c = some ([], .word (seen ++ [c])) :=
      if_pos (hmore c List.mem_cons_self)
    rw [List.cons_append, lexFrom_quiet hmoreWord,
      ih (fun d hd => hmore d (List.mem_cons_of_mem c hd)), List.append_assoc,
      List.singleton_append]

/-- A spelled token is read as itself. -/
theorem lexFrom_token {token : Token} (h : Spelled token) {rest : Text} (hends : Ends token rest) :
    lexFrom .between (token.text ++ rest) = (lexFrom .between rest).map (token :: ·) := by
  cases h with
  | mark c h => exact lexFrom_mark h rest
  | quoted body h =>
    rw [Token.text, List.cons_append, lexFrom_quiet rfl]
    exact lexFrom_quoted h ['"'] rest
  | word text hne h =>
    cases text with
    | nil => exact absurd rfl hne
    | cons c text =>
      have henter : advance .between c = some ([], .word [c]) :=
        enter_of_isWordChar (h c List.mem_cons_self)
      rw [Token.text, List.cons_append, lexFrom_quiet henter,
        lexFrom_word (fun d hd => h d (List.mem_cons_of_mem c hd)) hends, List.singleton_append]

inductive Value where
  | word (text : Text)
  | quoted (literal : Text)
  | array (items : List Value)
  | object (entries : List (Text × Value))

def COMMA : Token := .mark ','

def separated (parts : List (List Token)) : List Token := [COMMA].intercalate parts

/-- These tokens mean this value. -/
inductive Denotes : List Token → Value → Prop
  | word (text : Text) : Denotes [.word text] (.word text)
  | quoted (literal : Text) : Denotes [.quoted literal] (.quoted literal)
  | array (items : List (List Token × Value)) (h : ∀ item ∈ items, Denotes item.1 item.2) :
    Denotes (.mark '[' :: (separated (items.map Prod.fst) ++ [.mark ']']))
      (.array (items.map Prod.snd))
  | object (entries : List (Text × List Token × Value))
      (h : ∀ entry ∈ entries, Denotes entry.2.1 entry.2.2) :
    Denotes (.mark '\x7b' :: (separated (entries.map fun entry =>
        .quoted entry.1 :: .mark ':' :: entry.2.1) ++ [.mark '\x7d']))
      (.object (entries.map fun entry => (entry.1, entry.2.2)))

/-- The text is JSON for this value. -/
def Means (text : Text) (value : Value) : Prop := ∃ tokens, lex text = some tokens ∧
  Denotes tokens value

def isCloser (token : Token) : Bool := token = .mark ']' || token = .mark '\x7d'

/-- A comma does not stand right before a closing bracket. -/
def Apart (a b : Token) : Prop := a = COMMA → isCloser b = false

/-- A sequence of tokens that a value may be: no comma at the end, no bracket in front. -/
structure Sealed (tokens : List Token) : Prop where
  chain : tokens.IsChain Apart
  front : ∀ token ∈ tokens.head?, isCloser token = false
  back : ∀ token ∈ tokens.getLast?, token ≠ COMMA

theorem Sealed.cons {token : Token} {tokens : List Token} (hcomma : token ≠ COMMA)
    (hcloser : isCloser token = false) (h : Sealed tokens) : Sealed (token :: tokens) := by
  constructor
  · exact h.chain.cons fun _ _ heq => absurd heq hcomma
  · intro other hother
    rw [← Option.some.inj hother]
    exact hcloser
  · cases tokens with
    | nil =>
      intro other hother
      rw [← Option.some.inj hother]
      exact hcomma
    | cons next tokens => exact h.back

theorem Sealed.comma {before after : List Token} (hbefore : Sealed before) (hafter : Sealed after)
    (hne : before ≠ []) (hne' : after ≠ []) : Sealed (before ++ COMMA :: after) := by
  constructor
  · refine hbefore.chain.append (hafter.chain.cons fun next hnext _ => hafter.front next hnext) ?_
    exact fun last hlast _ _ heq => absurd heq (hbefore.back last hlast)
  · rw [List.head?_append_of_ne_nil _ hne]
    exact hbefore.front
  · rw [List.getLast?_append_of_ne_nil _ (List.cons_ne_nil _ _),
      List.getLast?_cons_of_ne_nil hne']
    exact hafter.back

theorem Sealed.separated {parts : List (List Token)} (h : ∀ part ∈ parts, Sealed part ∧ part ≠ []) :
    Sealed (separated parts) ∧ (parts ≠ [] → separated parts ≠ []) := by
  induction parts with
  | nil => exact ⟨⟨.nil, nofun, nofun⟩, fun hne => absurd rfl hne⟩
  | cons part parts ih =>
    obtain ⟨hpart, hne⟩ := h part List.mem_cons_self
    obtain ⟨hlater, hsome⟩ := ih fun other hother => h other (List.mem_cons_of_mem part hother)
    cases parts with
    | nil =>
      rw [Json.separated, List.intercalate_singleton]
      exact ⟨hpart, fun _ => hne⟩
    | cons next parts =>
      rw [Json.separated, List.intercalate_cons_cons, List.append_assoc, List.singleton_append]
      exact ⟨hpart.comma hlater hne (hsome (List.cons_ne_nil _ _)),
        fun _ => List.append_ne_nil_of_left_ne_nil hne _⟩

theorem Sealed.bracketed {first last : Token} {tokens : List Token} (h : Sealed tokens)
    (hfirst : first ≠ COMMA) (hopen : isCloser first = false) (hlast : last ≠ COMMA) :
    Sealed (first :: (tokens ++ [last])) := by
  constructor
  · refine (h.chain.append (.singleton last) ?_).cons fun _ _ heq => absurd heq hfirst
    exact fun token htoken _ _ heq => absurd heq (h.back token htoken)
  · intro other hother
    rw [← Option.some.inj hother]
    exact hopen
  · rw [← List.cons_append, List.getLast?_concat]
    intro other hother
    rw [← Option.some.inj hother]
    exact hlast

/-- A value has no trailing comma anywhere. -/
theorem Denotes.sealed {tokens : List Token} {value : Value} (h : Denotes tokens value) :
    Sealed tokens ∧ tokens ≠ [] := by
  induction h with
  | word text => exact ⟨.cons nofun rfl ⟨.nil, nofun, nofun⟩, List.cons_ne_nil _ _⟩
  | quoted literal => exact ⟨.cons nofun rfl ⟨.nil, nofun, nofun⟩, List.cons_ne_nil _ _⟩
  | array items h ih =>
    have hparts : Sealed (separated (items.map Prod.fst)) := by
      refine (Sealed.separated fun part hpart => ?_).1
      obtain ⟨item, hitem, rfl⟩ := List.mem_map.mp hpart
      exact ih item hitem
    exact ⟨hparts.bracketed (by decide) rfl (by decide), List.cons_ne_nil _ _⟩
  | object entries h ih =>
    have hparts : Sealed (separated (entries.map fun entry =>
        .quoted entry.1 :: .mark ':' :: entry.2.1)) := by
      refine (Sealed.separated fun part hpart => ?_).1
      obtain ⟨entry, hentry, rfl⟩ := List.mem_map.mp hpart
      have hcolon : Sealed (.mark ':' :: entry.2.1) :=
        (ih entry hentry).1.cons (by decide) rfl
      exact ⟨hcolon.cons nofun rfl, List.cons_ne_nil _ _⟩
    exact ⟨hparts.bracketed (by decide) rfl (by decide), List.cons_ne_nil _ _⟩

end TinySweeper.Json
