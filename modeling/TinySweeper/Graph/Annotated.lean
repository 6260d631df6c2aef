import TinySweeper.Graph.Jsonc
import TinySweeper.Json

/-!
# Stripping an annotated config gives the config back

A JSON text with comments and trailing commas put between its tokens is stripped to a
text with the same tokens, and so with the same value.
-/

namespace TinySweeper.Graph

open Text Json

variable {c : Char} {w body s text plain annotated : Text} {tokens : List Token}

/-- Whitespace, and the same with comments put in, before a line break that was there or with one
of their own. -/
inductive Filled : Text → Text → Prop
  | nil : Filled [] []
  | space (c : Char) (h : isSpace c = true) {w g : Text} (hrest : Filled w g) :
    Filled (c :: w) (c :: g)
  | line (body : Text) (h : '\n' ∉ body) {w g : Text} (hrest : Filled w g) :
    Filled w ('/' :: '/' :: (body ++ '\n' :: g))
  | lineEnd (body : Text) (h : '\n' ∉ body) {w g : Text} (hrest : Filled w g) :
    Filled ('\n' :: w) ('/' :: '/' :: (body ++ '\n' :: g))
  | block (body : Text) (h : ¬['*', '/'] <:+: body) {w g : Text} (hrest : Filled w g) :
    Filled w ('/' :: '*' :: (body ++ '*' :: '/' :: g))

/-- These tokens are those of a text, and of that text with comments and trailing commas
put between its tokens. The last line may end in a comment. -/
inductive Annotates : List Token → Text → Text → Prop
  | stop {w g : Text} (h : Filled w g) : Annotates [] w g
  | comment {w g : Text} (h : Filled w g) (body : Text) (hbody : '\n' ∉ body) :
    Annotates [] w (g ++ '/' :: '/' :: body)
  | token {w g : Text} (h : Filled w g) {token : Token} (hspelled : Spelled token)
      {tokens : List Token} {plain annotated : Text} (hends : Ends token plain)
      (hrest : Annotates tokens plain annotated) :
    Annotates (token :: tokens) (w ++ (token.text ++ plain)) (g ++ (token.text ++ annotated))
  | trailing {w g w' g' : Text} (h : Filled w g) (h' : Filled w' g') {c : Char}
      (hc : isCloser (.mark c) = true) {tokens : List Token} {plain annotated : Text}
      (hrest : Annotates tokens plain annotated) :
    Annotates (.mark c :: tokens) (w ++ (w' ++ c :: plain)) (g ++ ',' :: (g' ++ c :: annotated))

theorem isWhitespace_of_isSpace (h : isSpace c = true) : isWhitespace c = true := by
  have hmem : c ∈ [' ', '\t', '\n', '\r'] := by simpa [isSpace, or_assoc] using h
  fin_cases hmem <;> rfl

theorem Filled.spaces {g : Text} (h : Filled w g) : ∀ c ∈ w, isSpace c = true := by
  induction h with
  | nil => exact nofun
  | space c hc hrest ih =>
    intro d hd
    rcases List.mem_cons.mp hd with rfl | hd
    · exact hc
    · exact ih d hd
  | line body hbody hrest ih => exact ih
  | lineEnd body hbody hrest ih => exact List.forall_mem_cons.mpr ⟨rfl, ih⟩
  | block body hbody hrest ih => exact ih

theorem stripComments_line (h : '\n' ∉ body) (rest : Text) :
    stripComments .line (body ++ '\n' :: rest) = '\n' :: stripComments (.plain none) rest := by
  induction body with
  | nil => rw [List.nil_append, stripComments, if_pos rfl]
  | cons c body ih =>
    rw [List.mem_cons, not_or] at h
    rw [List.cons_append, stripComments, if_neg (Ne.symm h.1), ih h.2]

theorem stripComments_line_end (h : '\n' ∉ body) : stripComments .line body = [] := by
  induction body with
  | nil => rfl
  | cons c body ih =>
    rw [List.mem_cons, not_or] at h
    rw [stripComments, if_neg (Ne.symm h.1), ih h.2]

theorem stripComments_block {previous : Char}
    (h : ¬['*', '/'] <:+: previous :: body) (rest : Text) :
    stripComments (.block previous) (body ++ '*' :: '/' :: rest) =
      ' ' :: stripComments (.plain none) rest := by
  induction body generalizing previous with
  | nil =>
    rw [List.nil_append, stripComments, if_neg (by rintro ⟨-, ⟨⟩⟩), stripComments,
      if_pos ⟨rfl, rfl⟩]
  | cons c body ih =>
    have hopen : ¬(previous = '*' ∧ c = '/') := by
      rintro ⟨rfl, rfl⟩
      exact h ⟨[], body, rfl⟩
    rw [List.cons_append, stripComments, if_neg hopen]
    exact ih fun hlater => h (List.infix_cons hlater)

theorem stripComments_lineComment (h : '\n' ∉ body) (rest : Text) :
    stripComments (.plain none) ('/' :: '/' :: (body ++ '\n' :: rest)) =
      '\n' :: stripComments (.plain none) rest := by
  rw [stripComments, if_neg (by decide), if_pos ⟨rfl, rfl⟩, stripComments, if_neg (by decide),
    stripComments_line h]

/-- A gap is stripped to whitespace, and to nothing only where there was none. -/
theorem Filled.stripped {g : Text} (h : Filled w g) : ∃ s, (∀ c ∈ s, isSpace c = true) ∧
    (s = [] → w = []) ∧
    ∀ rest, stripComments (.plain none) (g ++ rest) = s ++ stripComments (.plain none) rest := by
  induction h with
  | nil => exact ⟨[], List.forall_mem_nil _, fun _ => rfl, fun _ => rfl⟩
  | space c hc hrest ih =>
    obtain ⟨s, hs, -, hstrip⟩ := ih
    refine ⟨c :: s, List.forall_mem_cons.mpr ⟨hc, hs⟩,
      fun h => absurd h (List.cons_ne_nil _ _), fun rest => ?_⟩
    have hquote : c ≠ '"' := by
      rintro rfl
      cases hc
    have hslash : c ≠ '/' := by
      rintro rfl
      cases hc
    rw [List.cons_append, stripComments, if_neg hquote, if_neg fun h => hslash h.1,
      if_neg fun h => hslash h.1, hstrip, List.cons_append]
  | line body hbody hrest ih =>
    obtain ⟨s, hs, -, hstrip⟩ := ih
    refine ⟨'\n' :: s, List.forall_mem_cons.mpr ⟨rfl, hs⟩,
      fun h => absurd h (List.cons_ne_nil _ _), fun rest => ?_⟩
    rw [List.cons_append, List.cons_append, List.append_assoc, List.cons_append,
      stripComments_lineComment hbody, hstrip, List.cons_append]
  | lineEnd body hbody hrest ih =>
    obtain ⟨s, hs, -, hstrip⟩ := ih
    refine ⟨'\n' :: s, List.forall_mem_cons.mpr ⟨rfl, hs⟩,
      fun h => absurd h (List.cons_ne_nil _ _), fun rest => ?_⟩
    rw [List.cons_append, List.cons_append, List.append_assoc, List.cons_append,
      stripComments_lineComment hbody, hstrip, List.cons_append]
  | block body hbody hrest ih =>
    obtain ⟨s, hs, -, hstrip⟩ := ih
    refine ⟨' ' :: s, List.forall_mem_cons.mpr ⟨rfl, hs⟩,
      fun h => absurd h (List.cons_ne_nil _ _), fun rest => ?_⟩
    have hinner : ¬['*', '/'] <:+: '\x00' :: body := by
      rw [List.infix_cons_iff, not_or]
      refine ⟨?_, hbody⟩
      rintro ⟨more, hmore⟩
      cases hmore
    rw [List.cons_append, List.cons_append, List.append_assoc, List.cons_append,
      List.cons_append, stripComments, if_neg (by decide), if_neg (by rintro ⟨-, ⟨⟩⟩),
      if_pos ⟨rfl, rfl⟩, stripComments, stripComments_block hinner, hstrip, List.cons_append]

theorem dropCommas_spaces (hs : ∀ c ∈ s, isSpace c = true) (rest : Text) :
    dropCommas none (s ++ rest) = s ++ dropCommas none rest := by
  induction s with
  | nil => rfl
  | cons c s ih =>
    obtain ⟨hc, hs⟩ := List.forall_mem_cons.mp hs
    have hquote : c ≠ '"' := by
      rintro rfl
      cases hc
    have hcomma : c ≠ ',' := by
      rintro rfl
      cases hc
    rw [List.cons_append, dropCommas, if_neg hquote, if_neg (by simp [hcomma]), ih hs,
      List.cons_append]

theorem closesNext_spaces (hs : ∀ c ∈ s, isSpace c = true) (rest : Text) :
    closesNext (s ++ rest) = closesNext rest := by
  induction s with
  | nil => rfl
  | cons c s ih =>
    obtain ⟨hc, hs⟩ := List.forall_mem_cons.mp hs
    rw [List.cons_append, closesNext_space (isWhitespace_of_isSpace hc), ih hs]

theorem stripComments_quoted {escaped : Bool} (h : closes escaped body = true) (rest : Text) :
    stripComments (.plain (some escaped)) (body ++ rest) =
      body ++ stripComments (.plain none) rest := by
  induction body generalizing escaped with
  | nil => cases escaped <;> cases h
  | cons c body ih =>
    rw [List.cons_append, stripComments, List.cons_append]
    cases escaped with
    | true => rw [unquote, if_pos rfl, ih h]
    | false =>
      rw [closes] at h
      rw [unquote, if_neg Bool.false_ne_true]
      split_ifs at h ⊢
      · rw [ih h]
      · rw [List.isEmpty_iff.mp h]
        rfl
      · rw [ih h]

theorem dropCommas_quoted {escaped : Bool} (h : closes escaped body = true) (rest : Text) :
    dropCommas (some escaped) (body ++ rest) =
      body ++ dropCommas none rest := by
  induction body generalizing escaped with
  | nil => cases escaped <;> cases h
  | cons c body ih =>
    rw [List.cons_append, dropCommas, List.cons_append]
    cases escaped with
    | true => rw [unquote, if_pos rfl, ih h]
    | false =>
      rw [closes] at h
      rw [unquote, if_neg Bool.false_ne_true]
      split_ifs at h ⊢
      · rw [ih h]
      · rw [List.isEmpty_iff.mp h]
        rfl
      · rw [ih h]

/-- Neither a quote nor a slash: such text is code that opens nothing. -/
theorem stripComments_plain (h : ∀ c ∈ text, c ≠ '"' ∧ c ≠ '/') (rest : Text) :
    stripComments (.plain none) (text ++ rest) = text ++ stripComments (.plain none) rest := by
  induction text with
  | nil => rfl
  | cons c text ih =>
    obtain ⟨hc, htext⟩ := List.forall_mem_cons.mp h
    rw [List.cons_append, stripComments, if_neg hc.1, if_neg fun h => hc.2 h.1,
      if_neg fun h => hc.2 h.1, ih htext, List.cons_append]

theorem dropCommas_plain (h : ∀ c ∈ text, c ≠ '"' ∧ c ≠ ',') (rest : Text) :
    dropCommas none (text ++ rest) = text ++ dropCommas none rest := by
  induction text with
  | nil => rfl
  | cons c text ih =>
    obtain ⟨hc, htext⟩ := List.forall_mem_cons.mp h
    rw [List.cons_append, dropCommas, if_neg hc.1, if_neg (by simp [hc.2]), ih htext,
      List.cons_append]

theorem ne_of_isWordChar {d : Char} (h : isWordChar c = true) (hd : isWordChar d = false) :
    c ≠ d := by
  rintro rfl
  exact absurd (h.symm.trans hd) (by decide)

theorem mem_marks (h : isMark c = true) :
    c ∈ ['\x7b', '\x7d', '[', ']', ',', ':'] := of_decide_eq_true h

theorem stripComments_token {token : Token} (h : Spelled token) (rest : Text) :
    stripComments (.plain none) (token.text ++ rest) =
      token.text ++ stripComments (.plain none) rest := by
  cases h with
  | mark c h =>
    apply stripComments_plain
    have hmem := mem_marks h
    rw [Token.text, List.forall_mem_singleton]
    constructor <;>
    · rintro rfl
      exact absurd hmem (by decide)
  | quoted body h =>
    rw [Token.text, List.cons_append, stripComments, if_pos rfl, stripComments_quoted h,
      List.cons_append]
  | word text hne h =>
    exact stripComments_plain (fun c hc => ⟨ne_of_isWordChar (h c hc) (by decide),
      ne_of_isWordChar (h c hc) (by decide)⟩) rest

/-- A token stays, unless it is a comma before a closing bracket. -/
theorem dropCommas_token {token : Token} (h : Spelled token) {rest : Text}
    (hcomma : token = COMMA → closesNext rest = false) :
    dropCommas none (token.text ++ rest) = token.text ++ dropCommas none rest := by
  cases h with
  | mark c h =>
    have hmem := mem_marks h
    have hquote : c ≠ '"' := by
      rintro rfl
      exact absurd hmem (by decide)
    rw [Token.text, List.singleton_append, dropCommas, if_neg hquote]
    by_cases hsame : c = ','
    · subst hsame
      rw [hcomma rfl, Bool.and_false, if_neg Bool.false_ne_true, List.singleton_append]
    · rw [if_neg (by simp [hsame]), List.singleton_append]
  | quoted body h =>
    rw [Token.text, List.cons_append, dropCommas, if_pos rfl, dropCommas_quoted h,
      List.cons_append]
  | word text hne h =>
    exact dropCommas_plain (fun c hc => ⟨ne_of_isWordChar (h c hc) (by decide),
      ne_of_isWordChar (h c hc) (by decide)⟩) rest

theorem isWhitespace_of_isWordChar (h : isWordChar c = true) : isWhitespace c = false := by
  simp only [isWordChar, Bool.or_eq_true, decide_eq_true_eq] at h
  rcases h with ((halphanum | rfl) | rfl) | rfl
  · have hrange := isAlphanum_range halphanum
    exact isWhitespace_of_range (by omega) (by omega)
  all_goals decide

theorem closesNext_token {token : Token} (h : Spelled token) (rest : Text) :
    closesNext (token.text ++ rest) = isCloser token := by
  cases h with
  | mark c h =>
    have hmem := mem_marks h
    fin_cases hmem <;> rfl
  | quoted body h => rfl
  | word text hne h =>
    cases text with
    | nil => exact absurd rfl hne
    | cons c text =>
      have hc := h c List.mem_cons_self
      have hbrace : c ≠ '\x7d' := ne_of_isWordChar hc (by decide)
      have hbracket : c ≠ ']' := ne_of_isWordChar hc (by decide)
      rw [Token.text, List.cons_append, closesNext_cons (isWhitespace_of_isWordChar hc)]
      simp [isCloser, hbrace, hbracket]

/-- Code without comments that spells the tokens of a text once its commas are dropped. -/
structure Respells (tokens : List Token) (plain code : Text) : Prop where
  lexed : lexFrom .between (dropCommas none code) = some tokens
  front : ∀ c ∈ (dropCommas none code).head?, isSpace c = true ∨ c ∈ plain.head?
  closer : closesNext code = true → ∃ token ∈ tokens.head?, isCloser token = true

theorem isWordChar_of_isSpace (h : isSpace c = true) : isWordChar c = false := by
  have hmem : c ∈ [' ', '\t', '\n', '\r'] := by simpa [isSpace, or_assoc] using h
  fin_cases hmem <;> rfl

theorem Respells.ends {token : Token} {code : Text} (h : Respells tokens plain code)
    (hends : Ends token plain) :
    Ends token (dropCommas none code) := by
  cases token with
  | word text =>
    intro c hc
    rcases h.front c hc with hspace | hplain
    · exact isWordChar_of_isSpace hspace
    · exact hends c hplain
  | mark c => trivial
  | quoted literal => trivial

theorem Respells.spaces (hs : ∀ c ∈ s, isSpace c = true) : Respells [] w s := by
  have hcode := lexFrom_space hs []
  have hdrop := dropCommas_spaces hs []
  have hcloses := closesNext_spaces hs []
  rw [List.append_nil] at hcode hdrop hcloses
  rw [dropCommas, List.append_nil] at hdrop
  constructor
  · rw [hdrop]
    exact hcode
  · rw [hdrop]
    exact fun c hc => .inl (hs c (List.mem_of_mem_head? hc))
  · rw [hcloses]
    intro h
    cases h

theorem text_ne_nil {token : Token} (h : Spelled token) : token.text ≠ [] := by
  cases h with
  | mark c h => exact List.cons_ne_nil _ _
  | quoted body h => exact List.cons_ne_nil _ _
  | word text hne h => exact hne

/-- Where a gap goes away, nothing stood there. -/
theorem head?_gap (hs : ∀ c ∈ s, isSpace c = true) (hnone : s = [] → w = [])
    {front rest rest' : Text} (hfront : front ≠ []) :
    ∀ c ∈ (s ++ (front ++ rest)).head?, isSpace c = true ∨ c ∈ (w ++ (front ++ rest')).head? := by
  intro c hc
  cases s with
  | nil =>
    right
    rw [hnone rfl, List.nil_append, List.head?_append_of_ne_nil _ hfront]
    rwa [List.nil_append, List.head?_append_of_ne_nil _ hfront] at hc
  | cons d s => exact .inl (hs c (Option.some.inj hc ▸ List.mem_cons_self))

theorem Respells.token {code : Text} {token : Token} (h : Respells tokens plain code)
    (hspelled : Spelled token)
    (hends : Ends token plain) (hchain : (token :: tokens).IsChain Apart)
    (hs : ∀ c ∈ s, isSpace c = true) (hnone : s = [] → w = []) :
    Respells (token :: tokens) (w ++ (token.text ++ plain)) (s ++ (token.text ++ code)) := by
  have hcomma : token = COMMA → closesNext code = false := by
    intro hsame
    rw [Bool.eq_false_iff]
    intro hcloses
    obtain ⟨next, hnext, hcloser⟩ := h.closer hcloses
    have happart := (List.isChain_cons.mp hchain).1 next hnext hsame
    exact absurd (happart.symm.trans hcloser) Bool.false_ne_true
  have hdrop : dropCommas none (s ++ (token.text ++ code)) =
      s ++ (token.text ++ dropCommas none code) := by
    rw [dropCommas_spaces hs, dropCommas_token hspelled hcomma]
  constructor
  · rw [hdrop, lexFrom_space hs, lexFrom_token hspelled (h.ends hends), h.lexed, Option.map_some]
  · rw [hdrop]
    exact head?_gap hs hnone (text_ne_nil hspelled)
  · rw [closesNext_spaces hs, closesNext_token hspelled]
    exact fun hcloser => ⟨token, rfl, hcloser⟩

theorem spelled_closer (hc : isCloser (.mark c) = true) : Spelled (.mark c) := by
  have hmem : c = ']' ∨ c = '\x7d' := by simpa [isCloser] using hc
  rcases hmem with rfl | rfl
  · exact .mark _ rfl
  · exact .mark _ rfl

/-- A trailing comma is dropped, and what stands around it stays. -/
theorem Respells.trailing {tokens : List Token} {plain code : Text} {c : Char}
    (h : Respells (.mark c :: tokens) (w ++ (w' ++ c :: plain)) (s ++ (s' ++ c :: code)))
    (hc : isCloser (.mark c) = true) (hs : ∀ c ∈ s, isSpace c = true)
    (hs' : ∀ c ∈ s', isSpace c = true) :
    Respells (.mark c :: tokens) (w ++ (w' ++ c :: plain)) (s ++ ',' :: (s' ++ c :: code)) := by
  have hcloses : closesNext (s' ++ c :: code) = true := by
    rw [closesNext_spaces hs']
    exact (closesNext_token (spelled_closer hc) code).trans hc
  have hdrop : dropCommas none (s ++ ',' :: (s' ++ c :: code)) =
      dropCommas none (s ++ (s' ++ c :: code)) := by
    rw [dropCommas_spaces hs, dropCommas_spaces hs, dropCommas, if_neg (by decide),
      if_pos (by simp [hcloses])]
  exact ⟨hdrop ▸ h.lexed, hdrop ▸ h.front, fun _ => ⟨_, rfl, hc⟩⟩

theorem Annotates.respells (h : Annotates tokens plain annotated) (hchain : tokens.IsChain Apart) :
    Respells tokens plain (stripComments (.plain none) annotated) := by
  induction h with
  | stop h =>
    obtain ⟨s, hs, -, hstrip⟩ := h.stripped
    have hcode := hstrip []
    rw [List.append_nil, stripComments, List.append_nil] at hcode
    rw [hcode]
    exact .spaces hs
  | comment h body hbody =>
    obtain ⟨s, hs, -, hstrip⟩ := h.stripped
    have hline : stripComments .line ('/' :: body) = [] :=
      stripComments_line_end (by simp [hbody])
    rw [hstrip, stripComments, if_neg (by decide), if_pos ⟨rfl, rfl⟩, hline, List.append_nil]
    exact .spaces hs
  | token h hspelled hends hrest ih =>
    obtain ⟨s, hs, hnone, hstrip⟩ := h.stripped
    rw [hstrip, stripComments_token hspelled]
    exact (ih hchain.tail).token hspelled hends hchain hs hnone
  | @trailing w g w' g' h h' c hc tokens plain annotated hrest ih =>
    obtain ⟨s, hs, hnone, hstrip⟩ := h.stripped
    obtain ⟨s', hs', hnone', hstrip'⟩ := h'.stripped
    have hspelled := spelled_closer hc
    have hcode : stripComments (.plain none) (c :: annotated) =
        c :: stripComments (.plain none) annotated := stripComments_token hspelled annotated
    rw [hstrip, stripComments, if_neg (by decide), if_neg (by rintro ⟨⟨⟩, -⟩),
      if_neg (by rintro ⟨⟨⟩, -⟩), hstrip', hcode]
    have hgap : s ++ s' = [] → w ++ w' = [] := by
      intro hnil
      obtain ⟨hnil, hnil'⟩ := List.append_eq_nil_iff.mp hnil
      rw [hnone hnil, hnone' hnil', List.append_nil]
    have hboth := (ih hchain.tail).token hspelled trivial hchain
      (List.forall_mem_append.mpr ⟨hs, hs'⟩) hgap
    rw [List.append_assoc, List.append_assoc] at hboth
    exact hboth.trailing hc hs hs'

theorem Annotates.lexed (h : Annotates tokens plain annotated) : lex plain = some tokens := by
  rw [lex]
  induction h with
  | stop h | comment h =>
    have hspaces := lexFrom_space h.spaces []
    rw [List.append_nil] at hspaces
    exact hspaces
  | token h hspelled hends hrest ih =>
    rw [lexFrom_space h.spaces, lexFrom_token hspelled hends, ih, Option.map_some]
  | @trailing w g w' g' h h' c hc tokens plain annotated hrest ih =>
    have hcloser : lexFrom .between (c :: plain) = _ := lexFrom_token (spelled_closer hc) trivial
    rw [lexFrom_space h.spaces, lexFrom_space h'.spaces, hcloser, ih, Option.map_some]

theorem Annotates.space (hc : isSpace c = true) (h : Annotates tokens plain annotated) :
    Annotates tokens (c :: plain) (c :: annotated) := by
  cases h with
  | stop h => exact .stop (.space c hc h)
  | comment h body hbody => exact .comment (.space c hc h) body hbody
  | token h hspelled hends hrest => exact .token (.space c hc h) hspelled hends hrest
  | trailing h h' hcloser hrest => exact .trailing (.space c hc h) h' hcloser hrest

/-- What a reader inside a token has still to read of it, and the annotated rest. -/
def Continues : Reading → Text → List Token → Prop
  | .between, text, tokens => Annotates tokens text text
  | .word seen, text, tokens => ∃ more rest tokens', text = more ++ rest ∧
      (∀ c ∈ more, isWordChar c = true) ∧ (∀ c ∈ rest.head?, isWordChar c = false) ∧
      tokens = .word (seen ++ more) :: tokens' ∧ Annotates tokens' rest rest
  | .quoted seen escaped, text, tokens => ∃ body rest tokens', text = body ++ rest ∧
      closes escaped body = true ∧ tokens = .quoted (seen ++ body) :: tokens' ∧
      Annotates tokens' rest rest

theorem lexFrom_cons_eq_some {reading : Reading} (h : lexFrom reading (c :: text) = some tokens) :
    ∃ written next rest,
      advance reading c = some (written, next) ∧ lexFrom next text = some rest ∧
        tokens = written ++ rest := by
  rw [lexFrom, Option.bind_eq_some_iff] at h
  obtain ⟨⟨written, next⟩, hadvance, h⟩ := h
  obtain ⟨rest, hrest, rfl⟩ := Option.map_eq_some_iff.mp h
  exact ⟨written, next, rest, hadvance, hrest, rfl⟩

theorem Continues.between
    (ih : ∀ reading tokens, lexFrom reading text = some tokens → Continues reading text tokens)
    (h : lexFrom .between (c :: text) = some tokens) :
    Annotates tokens (c :: text) (c :: text) := by
  obtain ⟨written, next, rest, hadvance, hrest, rfl⟩ := lexFrom_cons_eq_some h
  rw [advance, enter] at hadvance
  have hlater := ih next rest hrest
  split_ifs at hadvance with hspace hmark hquote hword
  · cases hadvance
    exact hlater.space hspace
  · cases hadvance
    exact .token .nil (.mark c hmark) trivial hlater
  · cases hadvance
    obtain ⟨body, rest, tokens, rfl, hcloses, rfl, hself⟩ := hlater
    rw [hquote]
    exact .token .nil (.quoted body hcloses) trivial hself
  · cases hadvance
    obtain ⟨more, rest, tokens, rfl, hmore, hends, rfl, hself⟩ := hlater
    have hall : ∀ d ∈ c :: more, isWordChar d = true := List.forall_mem_cons.mpr ⟨hword, hmore⟩
    exact .token .nil (.word (c :: more) (List.cons_ne_nil _ _) hall) hends hself

theorem continues_of_lexFrom (text : Text) (reading : Reading) (tokens : List Token)
    (h : lexFrom reading text = some tokens) : Continues reading text tokens := by
  induction text generalizing reading tokens with
  | nil =>
    cases reading with
    | between =>
      cases h
      exact .stop .nil
    | word seen =>
      cases h
      exact ⟨[], [], [], rfl, nofun, nofun, by rw [List.append_nil], .stop .nil⟩
    | quoted seen escaped => cases h
  | cons c text ih =>
    cases reading with
    | between => exact Continues.between ih h
    | word seen =>
      obtain ⟨written, next, rest, hadvance, hrest, rfl⟩ := lexFrom_cons_eq_some h
      rw [advance] at hadvance
      split_ifs at hadvance with hword
      · cases hadvance
        obtain ⟨more, rest, tokens, rfl, hmore, hends, rfl, hself⟩ := ih _ _ hrest
        refine ⟨c :: more, rest, tokens, rfl, List.forall_mem_cons.mpr ⟨hword, hmore⟩, hends, ?_,
          hself⟩
        rw [List.append_assoc, List.singleton_append]
        rfl
      · obtain ⟨⟨entered, next'⟩, henter, heq⟩ := Option.map_eq_some_iff.mp hadvance
        cases heq
        have hbetween : lexFrom .between (c :: text) = some (entered ++ rest) := by
          rw [lexFrom, advance, henter]
          exact Option.map_eq_some_iff.mpr ⟨rest, hrest, rfl⟩
        refine ⟨[], c :: text, entered ++ rest, rfl, nofun, ?_, ?_, Continues.between ih hbetween⟩
        · intro d hd
          rw [← Option.some.inj hd]
          exact Bool.eq_false_iff.mpr hword
        · rw [List.append_nil]
          rfl
    | quoted seen escaped =>
      obtain ⟨written, next, rest, hadvance, hrest, rfl⟩ := lexFrom_cons_eq_some h
      have hlater : ∀ escaped', next = .quoted (seen ++ [c]) escaped' → written = [] →
          (∀ body, closes escaped' body = true → closes escaped (c :: body) = true) →
          Continues (.quoted seen escaped) (c :: text) (written ++ rest) := by
        rintro escaped' rfl rfl hcloses
        obtain ⟨body, rest, tokens, rfl, hbody, rfl, hself⟩ := ih _ _ hrest
        refine ⟨c :: body, rest, tokens, rfl, hcloses body hbody, ?_, hself⟩
        rw [List.append_assoc, List.singleton_append]
        rfl
      cases escaped with
      | true =>
        cases hadvance
        exact hlater false rfl rfl fun _ hbody => hbody
      | false =>
        rw [advance] at hadvance
        split_ifs at hadvance with hescape hclose
        · cases hadvance
          refine hlater true rfl rfl fun body hbody => ?_
          rw [closes, if_pos hescape, hbody]
        · cases hadvance
          refine ⟨[c], text, rest, rfl, ?_, rfl, ih _ _ hrest⟩
          rw [closes, if_neg hescape, if_pos hclose]
          rfl
        · cases hadvance
          refine hlater false rfl rfl fun body hbody => ?_
          rw [closes, if_neg hescape, if_neg hclose, hbody]

/-- A text of tokens is annotated by itself, with nothing put in. -/
theorem annotates_self (h : lex text = some tokens) :
    Annotates tokens text text := continues_of_lexFrom text .between tokens h

/-- Stripping gives an annotated JSON text its value back, keeps every string literal of
any text as it is, and has nothing left to do once it is done, except where two commas
stood before a closing bracket. -/
theorem stripJsonc_sound :
    (∀ plain annotated value tokens, Means plain value → Annotates tokens plain annotated →
      lex (stripJsonc annotated) = lex plain ∧ Means (stripJsonc annotated) value) ∧
    (∀ plain value, Means plain value → ∃ tokens, Annotates tokens plain plain) ∧
    (∀ text, literalsOf (.plain none) [] (stripJsonc text) =
      literalsOf (.plain none) [] text) ∧
    (∀ text, stripJsonc (stripJsonc text) = stripJsonc text ↔
      doubled none (stripComments (.plain none) text) = false) := by
  refine ⟨?_, ?_, literalsOf_stripJsonc, stripJsonc_stripJsonc_iff⟩
  · rintro plain annotated value tokens ⟨tokens', hlex, hdenotes⟩ hannotates
    have hplain := hannotates.lexed
    cases hlex.symm.trans hplain
    have hstripped := (hannotates.respells hdenotes.sealed.1.chain).lexed
    exact ⟨hstripped.trans hlex.symm, tokens, hstripped, hdenotes⟩
  · rintro plain value ⟨tokens, hlex, -⟩
    exact ⟨tokens, annotates_self hlex⟩

/-- Of two commas before a bracket the first run leaves one for the second. -/
theorem stripJsonc_two_commas : ¬ ∀ text, stripJsonc (stripJsonc text) = stripJsonc text := by
  intro h
  have hagain := h "[1,,]".toList
  revert hagain
  decide

end TinySweeper.Graph
