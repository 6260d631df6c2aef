import TinySweeper.Chunk.Tree
import TinySweeper.Findings.Finding
import TinySweeper.FirstMatch

/-!
# The identity of a chunk

A chunk is known by its repository, its path, the line it starts on and a hash of its
text. Chunks of a file that start on one line are told apart by their texts alone, so
a line cut into equal pieces has chunks with one identity.
-/

namespace TinySweeper.Index

open Text Findings FirstMatch Chunk

/-- A span of a file, ready to be indexed. -/
structure Chunk where
  repoId : Text
  path : Text
  startLine : ℕ
  endLine : ℕ
  text : Text
  lang : Option Text
  symbol : Option Text
  chunkedBy : ChunkMethod
  contentHash : Text
  deriving DecidableEq, Repr

def Chunk.id (c : Chunk) : Text :=
  c.repoId ++ '\x1f' :: (c.path ++ '\x1f' :: (decimal c.startLine ++ '\x1f' :: c.contentHash))

section Hashing

variable (sha256 : Text → List UInt8)

def contentHash (text : Text) : Text := ((sha256 text).take 16).flatMap hexByte

/-- A chosen span of a file with this label. -/
def ofSpan (repoId path : Text) (label : Option Text) (span : SourceChunk) : Chunk where
  repoId
  path
  startLine := span.startLine
  endLine := span.endLine
  text := span.text
  lang := label
  symbol := span.symbol
  chunkedBy := span.method
  contentHash := contentHash sha256 span.text

/-- No two stretches of the source have one hash. -/
def Distinguishes (source : Text) : Prop :=
  ∀ a b, a <:+: source → b <:+: source → contentHash sha256 a = contentHash sha256 b → a = b

/-- The spans make up the source in order, fit the embedder, and know their lines. -/
structure Lossless (options : ChunkOptions) (source : Text) (spans : List SourceChunk) : Prop where
  nonempty : ∀ c ∈ spans, c.text ≠ []
  concat : spans.flatMap SourceChunk.text = source
  bounded : ∀ c ∈ spans, utf8Len c.text ≤ options.maxEmbedBytes
  located : ∀ before c after, spans = before ++ c :: after →
    c.startLine = 1 + newlines (before.flatMap SourceChunk.text) ∧
      c.endLine = 1 + newlines (before.flatMap SourceChunk.text ++ c.text.dropLast)

/-- The spans are those of a lossless tiling, and no two of them have one identity. -/
def Chunked (repoId path : Text) (label : Option Text) (options : ChunkOptions) (source : Text)
    (spans : List SourceChunk) : Prop :=
  Lossless options source spans ∧ (spans.map fun span => (ofSpan sha256 repoId path label span).id).Nodup

variable {sha256} {repoId path : Text} {label : Option Text} {options : ChunkOptions}
variable {source : Text} {line ceiling : ℕ}

theorem lossless_of_tiles {spans : List SourceChunk}
    (h : Tiles options.maxEmbedBytes 1 source spans) : Lossless options source spans where
  nonempty := h.nonempty
  concat := h.concat
  bounded := h.bounded
  located before c after hspans := by
    rw [hspans] at h
    exact h.located

theorem decimal_injective : Function.Injective decimal := by
  intro m n h
  have hdigits := congrArg (Nat.ofDigitChars 10 · 0) h
  simpa [decimal] using hdigits

/-- In one file the line and the hash make the identity. -/
theorem id_ofSpan_inj {a b : SourceChunk} :
    (ofSpan sha256 repoId path label a).id = (ofSpan sha256 repoId path label b).id ↔
      a.startLine = b.startLine ∧ contentHash sha256 a.text = contentHash sha256 b.text := by
  have hdigit : '\x1f'.isDigit = false := by decide
  constructor
  · intro h
    have hrest : decimal a.startLine ++ '\x1f' :: contentHash sha256 a.text =
        decimal b.startLine ++ '\x1f' :: contentHash sha256 b.text := by
      simpa [Chunk.id, ofSpan] using h
    have hsplit := congrArg (splitOnce '\x1f') hrest
    rw [splitOnce_append (notMem_decimal hdigit _), splitOnce_append (notMem_decimal hdigit _)]
      at hsplit
    injection hsplit with hsplit
    injection hsplit with hline hhash
    exact ⟨decimal_injective hline, hhash⟩
  · rintro ⟨hline, hhash⟩
    simp [Chunk.id, ofSpan, hline, hhash]

theorem le_startLine {c : SourceChunk} {chunks : List SourceChunk} (h : Follows line chunks)
    (hc : c ∈ chunks) : line ≤ c.startLine := by
  induction chunks generalizing line with
  | nil => cases hc
  | cons d chunks ih =>
    rcases List.mem_cons.mp hc with rfl | hc
    · exact h.1.ge
    · exact (Nat.le_add_right _ _).trans (ih h.2.2 hc)

/-- What a chunk on a line with no more than one of its breaks was opened with is all of it. -/
theorem text_of_openedBy {u : ℕ × Text} {c : SourceChunk} (h : OpenedBy u c) (hu : '\n' ∉ u.2) :
    c.text = u.2 := by
  obtain ⟨_, more, htext, hbreak | rfl⟩ := h
  · exact absurd hbreak hu
  · rw [htext, List.append_nil]

theorem notMem_of_openedBy {u : ℕ × Text} {c : SourceChunk} (h : OpenedBy u c)
    (hc : newlines c.text = 0) : '\n' ∉ u.2 := by
  obtain ⟨_, more, htext, _⟩ := h
  rw [htext] at hc
  exact fun hmem => newlines_eq_zero.mp hc (List.mem_append_left _ hmem)

/-- Chunks differ in line or text just where what opened them does. -/
theorem nodup_openings_iff {openings : List (ℕ × Text)} {chunks : List SourceChunk}
    (hopened : List.Forall₂ OpenedBy openings chunks) (hfollows : Follows line chunks) :
    openings.Nodup ↔ (chunks.map fun c => (c.startLine, c.text)).Nodup := by
  induction hopened generalizing line with
  | nil => simp
  | @cons u c openings chunks hfirst hrest ih =>
    obtain ⟨hstart, _, hfollows⟩ := hfollows
    have hsingle : ∀ {d}, d ∈ chunks → d.startLine = c.startLine → newlines c.text = 0 := by
      intro d hd hsame
      have hle := le_startLine hfollows hd
      omega
    rw [List.map_cons, List.nodup_cons, List.nodup_cons, ih hfollows]
    refine and_congr_left fun _ => not_congr ⟨fun hmem => ?_, fun hmem => ?_⟩
    · obtain ⟨d, hd, hopens⟩ := FirstMatch.Forall₂.exists_right hrest hmem
      have hline : d.startLine = c.startLine := hopens.1.trans hfirst.1.symm
      have hnone := notMem_of_openedBy hfirst (hsingle hd hline)
      exact List.mem_map.mpr ⟨d, hd,
        Prod.ext hline
        ((text_of_openedBy hopens hnone).trans (text_of_openedBy hfirst hnone).symm)⟩
    · obtain ⟨d, hd, hsame⟩ := List.mem_map.mp hmem
      obtain ⟨hline, htext⟩ := Prod.ext_iff.mp hsame
      dsimp only at hline htext
      obtain ⟨u', hu', hopens⟩ := FirstMatch.Forall₂.exists_left hrest hd
      have hzero := hsingle hd hline
      have hwhole := text_of_openedBy hfirst (notMem_of_openedBy hfirst hzero)
      have hwhole' := text_of_openedBy hopens (notMem_of_openedBy hopens (htext ▸ hzero))
      have heq : u' = u := Prod.ext (hopens.1.symm.trans (hline.trans hfirst.1))
        (hwhole'.symm.trans (htext.trans hwhole))
      exact heq ▸ hu'

/-- Spans that tile a source are told apart just where what opened them differs. -/
theorem chunked_iff {openings : List (ℕ × Text)} {spans : List SourceChunk}
    (hhash : Distinguishes sha256 source) (htiles : Tiles options.maxEmbedBytes 1 source spans)
    (hopened : List.Forall₂ OpenedBy openings spans) :
    Chunked sha256 repoId path label options source spans ↔ openings.Nodup := by
  have hpart : ∀ c ∈ spans, c.text <:+: source := by
    intro c hc
    rw [← htiles.concat]
    exact List.infix_of_mem_flatten (List.mem_map_of_mem hc)
  rw [Chunked, and_iff_right (lossless_of_tiles htiles), nodup_openings_iff hopened htiles.follows]
  rw [List.Nodup, List.Nodup, List.pairwise_map, List.pairwise_map]
  refine List.Pairwise.iff_of_mem fun {a b} ha hb => not_congr ?_
  rw [id_ofSpan_inj, Prod.mk.injEq]
  refine and_congr_right fun _ => ⟨hhash _ _ (hpart a ha) (hpart b hb), ?_⟩
  exact congrArg _

/-- Both ways of choosing spans are lossless; the chunks of a file have one identity each just
where no line holds two equal stretches that open one. -/
theorem chunked_iff_distinct (hceiling : 4 ≤ options.maxEmbedBytes) (hsource : trim source ≠ [])
    (hhash : Distinguishes sha256 source) :
    (Lossless options source (split source 1 options) ∧
      (Chunked sha256 repoId path label options source (split source 1 options) ↔
        (openings options ⟨[], [], 1, 1⟩ (units source 1 options)).Nodup)) ∧
      ∀ cuts : Cuts, cuts.Of source → Lossless options source (tree source cuts options) ∧
        (Chunked sha256 repoId path label options source (tree source cuts options) ↔
          (treeOpenings source cuts options).Nodup) := by
  constructor
  · have hsplit : split source 1 options = splitPreservingWhitespace source 1 options :=
      if_neg (by simpa using hsource)
    obtain ⟨htiles, hopened⟩ := splitPreservingWhitespace_spec hceiling source 1
    rw [hsplit]
    exact ⟨lossless_of_tiles htiles, chunked_iff hhash htiles hopened⟩
  · intro cuts hcuts
    have hne : source ≠ [] := by
      rintro rfl
      exact hsource rfl
    obtain ⟨htiles, hopened⟩ := tree_spec hceiling hcuts hne
    exact ⟨lossless_of_tiles htiles, chunked_iff hhash htiles hopened⟩

end Hashing

/-- The first half of the SHA-256 of each stretch of `aaaab`. -/
def stretchHashes : List (Text × ℕ) :=
  [("".toList, 0xe3b0c44298fc1c149afbf4c8996fb924),
    ("a".toList, 0xca978112ca1bbdcafac231b39a23dc4d),
    ("aa".toList, 0x961b6dd3ede3cb8ecbaacbd68de040cd),
    ("aaa".toList, 0x9834876dcfb05cb167a5c24953eba58c),
    ("aaaa".toList, 0x61be55a8e2f6b4e172338bddf184d6db),
    ("b".toList, 0x3e23e8160039594a33894f6564e1b134),
    ("ab".toList, 0xfb8e20fc2e4c3f248c60c39bd652f3c1),
    ("aab".toList, 0x38760eabb666e8e61ee628a17c4090cc),
    ("aaab".toList, 0x85e90f7f0e71079806469831895acd62),
    ("aaaab".toList, 0x5ef1b1016a260f0c229c5b24afe87fe2)]

def knownHash (text : Text) : List UInt8 :=
  ((stretchHashes.lookup text).map fun hash =>
    (List.range 16).map fun i => UInt8.ofNat (hash / 256 ^ (15 - i))).getD []

theorem distinguishes_stretches : Distinguishes knownHash "aaaab".toList := by
  have hstretch : ∀ a, a <:+: "aaaab".toList → a ∈ stretchHashes.map Prod.fst := by
    intro a ha
    obtain ⟨before, hbefore, ha⟩ := List.infix_iff_prefix_suffix.mp ha
    have hall : ∀ before ∈ "aaaab".toList.tails, ∀ a ∈ before.inits,
        a ∈ stretchHashes.map Prod.fst := by decide +kernel
    exact hall before ((List.mem_tails _ _).mpr ha) a ((List.mem_inits _ _).mpr hbefore)
  have hhash : ∀ a ∈ stretchHashes.map Prod.fst, ∀ b ∈ stretchHashes.map Prod.fst,
      contentHash knownHash a = contentHash knownHash b → a = b := by decide +kernel
  exact fun a b ha hb => hhash a (hstretch a ha) b (hstretch b hb)

/-- A line cut into two different pieces, or at a cut point before the last of them. -/
theorem chunked_different_pieces :
    Chunked knownHash "r".toList "p".toList none ⟨4, 4, 4⟩ "aaaab".toList
        (split "aaaab".toList 1 ⟨4, 4, 4⟩) ∧
      Chunked knownHash "r".toList "p".toList none ⟨4, 4, 4⟩ "aaaab".toList
        (tree "aaaab".toList ⟨[(0, none), (4, some "b".toList)], by decide⟩ ⟨4, 4, 4⟩) := by
  obtain ⟨⟨_, hlines⟩, htree⟩ := @chunked_iff_distinct knownHash "r".toList "p".toList none
    ⟨4, 4, 4⟩ "aaaab".toList (by decide) (by decide) distinguishes_stretches
  obtain ⟨_, hcuts⟩ := htree ⟨[(0, none), (4, some "b".toList)], by decide⟩
    ⟨⟨none, by decide⟩, by decide +kernel⟩
  exact ⟨hlines.mpr (by decide +kernel), hcuts.mpr (by decide +kernel)⟩

/-- The two halves of a line of one letter have one identity. -/
theorem equal_pieces_share_id :
    ¬Chunked knownHash "r".toList "p".toList none ⟨4, 4, 4⟩ "aaaaaaaa".toList
      (split "aaaaaaaa".toList 1 ⟨4, 4, 4⟩) := by
  rintro ⟨_, hnodup⟩
  revert hnodup
  decide +kernel

end TinySweeper.Index
