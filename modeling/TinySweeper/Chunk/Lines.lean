import TinySweeper.Bytes

/-!
# Splitting on lines

A text is cut into pieces, its lines and the parts of those that are too long for an
embedder, and the pieces are gathered into chunks. A piece opens a chunk where the
text gathered before it is flushed.
-/

namespace TinySweeper.Chunk

open Text

structure ChunkOptions where
  targetChars : ℕ
  maxChars : ℕ
  maxEmbedBytes : ℕ

def ChunkOptions.splitCeiling (o : ChunkOptions) : ℕ := min o.maxChars o.maxEmbedBytes

inductive ChunkMethod where
  | parsed
  | lines
  deriving DecidableEq, Repr

/-- A span of a file, with the lines of its first and its last byte. -/
structure SourceChunk where
  startLine : ℕ
  endLine : ℕ
  text : Text
  symbol : Option Text
  method : ChunkMethod
  deriving DecidableEq, Repr

/-- The loop that cuts a long line; every turn takes at least a character off the rest. -/
def piecesFrom (ceiling : ℕ) : ℕ → Text → List Text
  | 0, rest => if rest.isEmpty then [] else [rest]
  | fuel + 1, rest =>
    if utf8Len rest ≤ ceiling || (fitting ceiling rest).1.isEmpty then
      if rest.isEmpty then [] else [rest]
    else (fitting ceiling rest).1 :: piecesFrom ceiling fuel (fitting ceiling rest).2

/-- A line in pieces of at most this many bytes, cut between characters. -/
def pieces (line : Text) (ceiling : ℕ) : List Text :=
  if utf8Len line ≤ max ceiling 1 then [line] else piecesFrom (max ceiling 1) line.length line

/-- What was gathered and not yet flushed, with the lines it begins and ends on. -/
structure Splitter where
  chunks : List SourceChunk
  buffer : Text
  bufferStart : ℕ
  bufferEnd : ℕ

def Splitter.push (s : Splitter) : List SourceChunk :=
  if s.buffer.isEmpty then s.chunks
  else s.chunks ++ [⟨s.bufferStart, max s.bufferEnd s.bufferStart, s.buffer, none, .lines⟩]

/-- The buffer is flushed before this piece. -/
def Splitter.flushes (options : ChunkOptions) (s : Splitter) (piece : Text) : Bool :=
  let blank := (trim piece).isEmpty
  let flushable := !(trim s.buffer).isEmpty
  let ceiling := min options.targetChars options.maxEmbedBytes
  let hardFull := !s.buffer.isEmpty && utf8Len s.buffer + utf8Len piece > options.maxEmbedBytes
  let wouldExceed := flushable && utf8Len s.buffer + utf8Len piece > ceiling
  let atSeam := flushable && blank && utf8Len s.buffer ≥ ceiling / 2
  hardFull || wouldExceed || atSeam

def Splitter.add (options : ChunkOptions) (s : Splitter) (u : ℕ × Text) : Splitter :=
  if s.flushes options u.2 then ⟨s.push, u.2, u.1, u.1⟩
  else ⟨s.chunks, s.buffer ++ u.2, s.bufferStart, u.1⟩

/-- The pieces of a text with the numbers of their lines. -/
def units (text : Text) (firstLine : ℕ) (options : ChunkOptions) : List (ℕ × Text) :=
  ((splitInclusive '\n' text).zipIdx firstLine).flatMap fun (line, number) =>
    (pieces line options.maxEmbedBytes).map fun piece => (number, piece)

def splitPreservingWhitespace (text : Text) (firstLine : ℕ) (options : ChunkOptions) :
    List SourceChunk :=
  ((units text firstLine options).foldl (Splitter.add options) ⟨[], [], firstLine, firstLine⟩).push

def split (text : Text) (firstLine : ℕ) (options : ChunkOptions) : List SourceChunk :=
  if (trim text).isEmpty then [] else splitPreservingWhitespace text firstLine options

def newlines (text : Text) : ℕ := text.count '\n'

@[simp] theorem newlines_append (a b : Text) : newlines (a ++ b) = newlines a + newlines b :=
  List.count_append

/-- Each chunk begins on the line where the one before it left off. -/
def Follows : ℕ → List SourceChunk → Prop
  | _, [] => True
  | line, c :: chunks => c.startLine = line ∧ c.endLine = line + newlines c.text.dropLast ∧
      Follows (line + newlines c.text) chunks

/-- Chunks of at most this many bytes that make up a text, the first line of which is given. -/
structure Tiles (ceiling line : ℕ) (text : Text) (chunks : List SourceChunk) : Prop where
  nonempty : ∀ c ∈ chunks, c.text ≠ []
  concat : chunks.flatMap SourceChunk.text = text
  bounded : ∀ c ∈ chunks, utf8Len c.text ≤ ceiling
  follows : Follows line chunks

variable {ceiling line : ℕ} {text : Text} {chunks : List SourceChunk}

theorem follows_append {before after : List SourceChunk} :
    Follows line (before ++ after) ↔ Follows line before ∧
      Follows (line + newlines (before.flatMap SourceChunk.text)) after := by
  induction before generalizing line with
  | nil => simp [Follows, newlines]
  | cons c before ih =>
    rw [List.cons_append, Follows, Follows, ih, List.flatMap_cons, newlines_append, Nat.add_assoc]
    tauto

theorem tiles_nil : Tiles ceiling line [] [] := ⟨nofun, rfl, nofun, trivial⟩

theorem tiles_single {c : SourceChunk} (hne : c.text ≠ []) (hle : utf8Len c.text ≤ ceiling)
    (hstart : c.startLine = line) (hend : c.endLine = line + newlines c.text.dropLast) :
    Tiles ceiling line c.text [c] where
  nonempty _ hd := List.mem_singleton.mp hd ▸ hne
  concat := by simp
  bounded _ hd := List.mem_singleton.mp hd ▸ hle
  follows := ⟨hstart, hend, trivial⟩

theorem Tiles.append {text' : Text} {chunks' : List SourceChunk} (h : Tiles ceiling line text chunks)
    (h' : Tiles ceiling (line + newlines text) text' chunks') :
    Tiles ceiling line (text ++ text') (chunks ++ chunks') where
  nonempty c hc := (List.mem_append.mp hc).elim (h.nonempty c) (h'.nonempty c)
  concat := by rw [List.flatMap_append, h.concat, h'.concat]
  bounded c hc := (List.mem_append.mp hc).elim (h.bounded c) (h'.bounded c)
  follows := follows_append.mpr ⟨h.follows, by rw [h.concat]; exact h'.follows⟩

/-- The lines of the first and the last byte of a chunk, counted from the beginning. -/
theorem Tiles.located {before after : List SourceChunk} {c : SourceChunk}
    (h : Tiles ceiling line text (before ++ c :: after)) :
    c.startLine = line + newlines (before.flatMap SourceChunk.text) ∧
      c.endLine = line + newlines (before.flatMap SourceChunk.text ++ c.text.dropLast) := by
  obtain ⟨_, hstart, hend, _⟩ := follows_append.mp h.follows
  rw [newlines_append, ← Nat.add_assoc]
  exact ⟨hstart, hend⟩

theorem flatten_piecesFrom (ceiling fuel : ℕ) (rest : Text) :
    (piecesFrom ceiling fuel rest).flatten = rest := by
  have hwhole : ∀ rest : Text, (if rest.isEmpty then [] else [rest]).flatten = rest := by
    intro rest
    cases rest <;> simp
  induction fuel generalizing rest with
  | zero => exact hwhole rest
  | succ fuel ih =>
    rw [piecesFrom]
    split
    · exact hwhole rest
    · rw [List.flatten_cons, ih, fitting_append]

theorem piecesFrom_ne_nil {fuel : ℕ} {rest piece : Text}
    (h : piece ∈ piecesFrom ceiling fuel rest) : piece ≠ [] := by
  have hwhole : ∀ {rest : Text}, piece ∈ (if rest.isEmpty then [] else [rest]) → piece ≠ [] := by
    intro rest hmem
    cases rest with
    | nil => cases hmem
    | cons c rest => exact List.mem_singleton.mp hmem ▸ List.cons_ne_nil c rest
  induction fuel generalizing rest with
  | zero => exact hwhole h
  | succ fuel ih =>
    rw [piecesFrom] at h
    split at h
    · exact hwhole h
    · next hlong =>
      rcases List.mem_cons.mp h with rfl | h
      · intro hnil
        simp [hnil] at hlong
      · exact ih h

/-- Numbered pieces, the first of which is on this line: none holds a line break but at its end,
and two on one line do not fit together. -/
def Numbered (ceiling : ℕ) : ℕ → List (ℕ × Text) → Prop
  | _, [] => True
  | line, u :: us => u.1 = line ∧ u.2 ≠ [] ∧ utf8Len u.2 ≤ ceiling ∧ newlines u.2.dropLast = 0 ∧
      (∀ next ∈ us.head?, '\n' ∈ u.2 ∨ ceiling < utf8Len u.2 + utf8Len next.2) ∧
      Numbered ceiling (line + newlines u.2) us

theorem newlines_eq_zero {text : Text} : newlines text = 0 ↔ '\n' ∉ text := List.count_eq_zero

theorem dropLast_append_of_ne_nil {a b : Text} (hb : b ≠ []) :
    (a ++ b).dropLast = a ++ b.dropLast := List.dropLast_append_of_ne_nil hb

/-- The pieces of the rest of a line, followed by those of other lines. -/
theorem numbered_piecesFrom (hceiling : 4 ≤ ceiling) {fuel : ℕ} {rest : Text}
    {us : List (ℕ × Text)} (hfuel : rest.length ≤ fuel) (hne : rest ≠ [])
    (hrest : newlines rest.dropLast = 0) (hlast : us = [] ∨ '\n' ∈ rest)
    (hus : Numbered ceiling (line + newlines rest) us) :
    Numbered ceiling line ((piecesFrom ceiling fuel rest).map (fun piece => (line, piece)) ++ us) := by
  induction fuel generalizing rest with
  | zero => exact absurd (List.length_eq_zero_iff.mp (Nat.le_zero.mp hfuel)) hne
  | succ fuel ih =>
    have hhead := fitting_ne_nil hceiling hne
    rw [piecesFrom]
    split
    · next hfits =>
      have hle : utf8Len rest ≤ ceiling := by simpa [hhead] using hfits
      rw [if_neg (by simpa using hne)]
      refine ⟨rfl, hne, hle, hrest, ?_, hus⟩
      intro next hnext
      rcases hlast with rfl | hlast
      · cases hnext
      · exact .inl hlast
    · next hlong =>
      have hsplit := fitting_append ceiling rest
      have hbytes := utf8Len_fitting ceiling rest
      have htail : (fitting ceiling rest).2 ≠ [] := by
        intro hnil
        rw [hnil, List.append_nil] at hsplit
        rw [hsplit] at hbytes
        simp [hbytes] at hlong
      obtain ⟨c, tail, hc⟩ := List.exists_cons_of_ne_nil htail
      have hwide := lt_of_fitting hc
      generalize (fitting ceiling rest).1 = head at hhead hsplit hbytes hwide
      generalize (fitting ceiling rest).2 = more at hsplit htail hc
      subst hsplit
      rw [dropLast_append_of_ne_nil htail, newlines_append] at hrest
      have hnone : newlines head = 0 := by omega
      have hlength := List.length_pos_of_ne_nil hhead
      rw [List.length_append] at hfuel
      rw [newlines_append, hnone, Nat.zero_add] at hus
      have hbreak : us = [] ∨ '\n' ∈ more := by
        refine hlast.imp_right fun hmem => ?_
        exact (List.mem_append.mp hmem).resolve_left (newlines_eq_zero.mp hnone)
      have hnext := ih (by omega) htail (by omega) hbreak hus
      refine ⟨rfl, hhead, hbytes, ?_, ?_, by rwa [hnone]⟩
      · exact newlines_eq_zero.mpr fun hmem =>
          newlines_eq_zero.mp hnone (List.dropLast_subset head hmem)
      · intro next hmem
        right
        have hflat := flatten_piecesFrom ceiling fuel more
        cases hpieces : piecesFrom ceiling fuel more with
        | nil =>
          rw [hpieces] at hflat
          exact absurd hflat.symm htail
        | cons piece others =>
          rw [hpieces] at hmem hflat
          cases hmem
          obtain ⟨d, inner, hd⟩ := List.exists_cons_of_ne_nil
            (piecesFrom_ne_nil (hpieces ▸ List.mem_cons_self))
          rw [hd, hc, List.flatten_cons, List.cons_append] at hflat
          change ceiling < utf8Len head + utf8Len piece
          rw [hd, (List.cons.inj hflat).1, utf8Len_cons]
          omega

theorem numbered_pieces (hceiling : 4 ≤ ceiling) {text : Text} {us : List (ℕ × Text)}
    (hne : text ≠ []) (htext : newlines text.dropLast = 0) (hlast : us = [] ∨ '\n' ∈ text)
    (hus : Numbered ceiling (line + newlines text) us) :
    Numbered ceiling line ((pieces text ceiling).map (fun piece => (line, piece)) ++ us) := by
  have hmax : max ceiling 1 = ceiling := max_eq_left (by omega)
  rw [pieces, hmax]
  split
  · next hle =>
    refine ⟨rfl, hne, hle, htext, ?_, hus⟩
    intro next hnext
    rcases hlast with rfl | hlast
    · cases hnext
    · exact .inl hlast
  · exact numbered_piecesFrom hceiling le_rfl hne htext hlast hus

variable {options : ChunkOptions}

theorem flatten_pieces (line : Text) (ceiling : ℕ) : (pieces line ceiling).flatten = line := by
  unfold pieces
  split
  · exact List.flatten_singleton
  · exact flatten_piecesFrom _ _ _

theorem flatMap_units (text : Text) (firstLine : ℕ) (options : ChunkOptions) :
    (units text firstLine options).flatMap Prod.snd = text := by
  have hpieces : (units text firstLine options).flatMap Prod.snd =
      (((splitInclusive '\n' text).zipIdx firstLine).map Prod.fst).flatten := by
    rw [units, List.flatMap_assoc, List.flatten_eq_flatMap, List.flatMap_map]
    congr 1
    funext numbered
    rw [List.flatMap_map]
    exact (congrArg List.flatten (List.map_id _)).trans (flatten_pieces numbered.1 _)
  rw [hpieces, List.zipIdx_map_fst, splitInclusive_flatten]

theorem units_cons {text : Text} {piece : Text} {rest : List Text} {firstLine : ℕ}
    (h : splitInclusive '\n' text = piece :: rest) :
    units text firstLine options =
      (pieces piece options.maxEmbedBytes).map (fun piece => (firstLine, piece)) ++
        (rest.zipIdx (firstLine + 1)).flatMap fun (line, number) =>
          (pieces line options.maxEmbedBytes).map fun piece => (number, piece) := by
  rw [units, h, List.zipIdx_cons, List.flatMap_cons]

theorem numbered_units (hceiling : 4 ≤ options.maxEmbedBytes) (text : Text) (firstLine : ℕ) :
    Numbered options.maxEmbedBytes firstLine (units text firstLine options) := by
  induction text using lines_induction generalizing firstLine with
  | last line hline =>
    by_cases hne : line = []
    · subst hne
      trivial
    · rw [units_cons (splitInclusive_of_notMem hline hne)]
      refine numbered_pieces hceiling hne ?_ (.inl rfl) trivial
      exact newlines_eq_zero.mpr fun hmem => hline (List.dropLast_subset line hmem)
  | line line rest hline ih =>
    have hbreak : newlines (line ++ ['\n']) = 1 := by
      rw [newlines_append, newlines_eq_zero.mpr hline]
      rfl
    rw [units_cons (splitInclusive_append hline rest)]
    refine numbered_pieces hceiling (by simp) ?_ (.inr (by simp)) ?_
    · rw [List.dropLast_concat]
      exact newlines_eq_zero.mpr hline
    · rw [hbreak]
      exact ih (firstLine + 1)

/-- The piece is the first of a chunk. -/
def Splitter.opens (options : ChunkOptions) (s : Splitter) (piece : Text) : Bool :=
  s.buffer.isEmpty || s.flushes options piece

/-- The pieces that open a chunk. -/
def openings (options : ChunkOptions) : Splitter → List (ℕ × Text) → List (ℕ × Text)
  | _, [] => []
  | s, u :: us =>
    if s.opens options u.2 then u :: openings options (s.add options u) us
    else openings options (s.add options u) us

/-- A chunk holds the piece it was opened with, and more only where that ends its line. -/
def OpenedBy (u : ℕ × Text) (c : SourceChunk) : Prop :=
  c.startLine = u.1 ∧ ∃ more, c.text = u.2 ++ more ∧ ('\n' ∈ u.2 ∨ more = [])

/-- What is in the buffer, and the piece that opened it: without a line break in it, that is all
there is, and the next piece does not fit. -/
structure Gathers (ceiling : ℕ) (s : Splitter) (opening : Text) (us : List (ℕ × Text)) : Prop where
  nonempty : s.buffer ≠ []
  bounded : utf8Len s.buffer ≤ ceiling
  bufferEnd : s.bufferEnd = s.bufferStart + newlines s.buffer.dropLast
  opened : ∃ more, s.buffer = opening ++ more ∧ ('\n' ∈ opening ∨
    more = [] ∧ ∀ next ∈ us.head?, ceiling < utf8Len opening + utf8Len next.2)
  numbered : Numbered ceiling (s.bufferStart + newlines s.buffer) us

theorem Gathers.push {s : Splitter} {opening : Text} {us : List (ℕ × Text)}
    (h : Gathers ceiling s opening us) : ∃ c, s.push = s.chunks ++ [c] ∧
      Tiles ceiling s.bufferStart s.buffer [c] ∧ OpenedBy (s.bufferStart, opening) c := by
  have hend : max s.bufferEnd s.bufferStart = s.bufferStart + newlines s.buffer.dropLast := by
    rw [h.bufferEnd]
    exact max_eq_left (Nat.le_add_right _ _)
  refine ⟨⟨s.bufferStart, max s.bufferEnd s.bufferStart, s.buffer, none, .lines⟩,
    if_neg (by simpa using h.nonempty), ?_, rfl, ?_⟩
  · exact @tiles_single _ _ ⟨s.bufferStart, _, s.buffer, none, .lines⟩ h.nonempty h.bounded rfl hend
  · obtain ⟨more, hmore, hbreak | ⟨rfl, _⟩⟩ := h.opened
    · exact ⟨more, hmore, .inl hbreak⟩
    · exact ⟨[], hmore, .inr rfl⟩

/-- A piece that does not open a chunk joins the buffer. -/
theorem Gathers.join {s : Splitter} {opening : Text} {u : ℕ × Text} {us : List (ℕ × Text)}
    (h : Gathers options.maxEmbedBytes s opening (u :: us)) (hflush : s.flushes options u.2 = false) :
    Gathers options.maxEmbedBytes (s.add options u) opening us := by
  obtain ⟨hline, hne, _, hlast, _, hus⟩ := h.numbered
  have hfits : utf8Len s.buffer + utf8Len u.2 ≤ options.maxEmbedBytes := by
    simp only [Splitter.flushes, Bool.or_eq_false_iff, Bool.and_eq_false_iff, Bool.not_eq_false',
      List.isEmpty_iff, decide_eq_false_iff_not, not_lt] at hflush
    exact hflush.1.1.resolve_left h.nonempty
  rw [Splitter.add, if_neg (by simp [hflush])]
  refine ⟨by simp [hne], by simpa using hfits, ?_, ?_, ?_⟩
  · rw [hline, dropLast_append_of_ne_nil hne, newlines_append, hlast, Nat.add_zero]
  · obtain ⟨more, hmore, hbreak | ⟨rfl, hwide⟩⟩ := h.opened
    · exact ⟨more ++ u.2, by rw [hmore, List.append_assoc], .inl hbreak⟩
    · have hnext := hwide u rfl
      rw [List.append_nil] at hmore
      rw [hmore] at hfits
      omega
  · dsimp only
    rw [newlines_append, ← Nat.add_assoc]
    exact hus

/-- A piece that opens a chunk is the buffer. -/
theorem gathers_opened {s : Splitter} {u : ℕ × Text} {us : List (ℕ × Text)}
    (hus : Numbered options.maxEmbedBytes line (u :: us)) (hbuffer : s.buffer = u.2)
    (hstart : s.bufferStart = u.1) (hend : s.bufferEnd = u.1) :
    Gathers options.maxEmbedBytes s u.2 us := by
  obtain ⟨hline, hne, hle, hlast, hnext, hus⟩ := hus
  refine ⟨hbuffer ▸ hne, hbuffer ▸ hle, ?_, ⟨[], by simp [hbuffer], ?_⟩, ?_⟩
  · rw [hend, hstart, hbuffer, hlast, Nat.add_zero]
  · by_cases hbreak : '\n' ∈ u.2
    · exact .inl hbreak
    · exact .inr ⟨rfl, fun next hmem => (hnext next hmem).resolve_left hbreak⟩
  · rwa [hstart, hbuffer, hline]

/-- What the splitter makes of the pieces that are left. -/
theorem foldl_add {s : Splitter} {opening : Text} {us : List (ℕ × Text)}
    (h : Gathers options.maxEmbedBytes s opening us) :
    ∃ new, (us.foldl (Splitter.add options) s).push = s.chunks ++ new ∧
      Tiles options.maxEmbedBytes s.bufferStart (s.buffer ++ us.flatMap Prod.snd) new ∧
      List.Forall₂ OpenedBy ((s.bufferStart, opening) :: openings options s us) new := by
  induction us generalizing s opening with
  | nil =>
    obtain ⟨c, hpush, htiles, hopened⟩ := h.push
    refine ⟨[c], hpush, by simpa using htiles, .cons hopened .nil⟩
  | cons u us ih =>
    have hempty : s.buffer.isEmpty = false := by simpa using h.nonempty
    rw [List.foldl_cons, List.flatMap_cons, openings, Splitter.opens, hempty, Bool.false_or]
    cases hflush : s.flushes options u.2 with
    | false =>
      obtain ⟨new, hnew, htiles, hopened⟩ := ih (h.join hflush)
      rw [if_neg Bool.false_ne_true]
      rw [Splitter.add, if_neg (by simp [hflush])] at hnew htiles hopened ⊢
      exact ⟨new, hnew, by simpa using htiles, hopened⟩
    | true =>
      obtain ⟨c, hpush, hfirst, hopened⟩ := h.push
      have hadd : s.add options u = ⟨s.push, u.2, u.1, u.1⟩ := if_pos hflush
      have hgathers := @gathers_opened _ _ (s.add options u) u us h.numbered
        (by rw [hadd]) (by rw [hadd]) (by rw [hadd])
      obtain ⟨new, hnew, htiles, hrest⟩ := ih hgathers
      rw [hadd] at hnew htiles hrest ⊢
      dsimp only at hnew htiles hrest
      refine ⟨c :: new, by rw [hnew, hpush, List.append_assoc, List.singleton_append], ?_,
        .cons hopened hrest⟩
      rw [h.numbered.1] at htiles
      exact hfirst.append htiles

/-- Splitting tiles the text, and the chunks are those that pieces open. -/
theorem splitPreservingWhitespace_spec (hceiling : 4 ≤ options.maxEmbedBytes) (text : Text)
    (firstLine : ℕ) :
    Tiles options.maxEmbedBytes firstLine text (splitPreservingWhitespace text firstLine options) ∧
      List.Forall₂ OpenedBy
        (openings options ⟨[], [], firstLine, firstLine⟩ (units text firstLine options))
        (splitPreservingWhitespace text firstLine options) := by
  have hunits := numbered_units hceiling text firstLine
  have htext := flatMap_units text firstLine options
  rw [splitPreservingWhitespace]
  cases h : units text firstLine options with
  | nil =>
    rw [h] at htext
    rw [← htext]
    exact ⟨tiles_nil, .nil⟩
  | cons u us =>
    rw [h] at hunits htext
    have hadd : Splitter.add options ⟨[], [], firstLine, firstLine⟩ u = ⟨[], u.2, firstLine, u.1⟩ := by
      have hstay : Splitter.flushes options ⟨[], [], firstLine, firstLine⟩ u.2 = false := by
        simp [Splitter.flushes, trim, trimStart, trimEnd]
      rw [Splitter.add, if_neg (by simp [hstay])]
      rfl
    have hgathers := @gathers_opened _ _ (Splitter.add options ⟨[], [], firstLine, firstLine⟩ u) u us
      hunits (by rw [hadd]) (by rw [hadd, hunits.1]) (by rw [hadd])
    obtain ⟨new, hnew, htiles, hopened⟩ := foldl_add hgathers
    rw [List.foldl_cons, openings, Splitter.opens, hnew]
    rw [hadd] at htiles hopened ⊢
    rw [List.flatMap_cons] at htext
    dsimp only at htiles hopened
    rw [htext] at htiles
    rw [List.isEmpty_nil, Bool.true_or, if_pos rfl, List.nil_append]
    have hfirst : (firstLine, u.2) = u := Prod.ext hunits.1.symm rfl
    rw [hfirst] at hopened
    exact ⟨htiles, hopened⟩

end TinySweeper.Chunk
