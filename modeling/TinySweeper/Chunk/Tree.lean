import TinySweeper.Chunk.Lines
import TinySweeper.Linkage

/-!
# Splitting at cut points

The file is tiled between cut points, which a grammar chose; small segments next to
each other are merged, and what is too long even so is split on lines.
-/

namespace TinySweeper.Chunk

open Text Linkage

/-- Cut points in order, each with the name of what begins there. -/
structure Cuts where
  entries : List (ℕ × Option Text)
  sorted : entries.Pairwise fun a b => a.1 < b.1

structure Segment where
  start : ℕ
  stop : ℕ
  symbol : Option Text
  deriving DecidableEq, Repr

def Segment.len (s : Segment) : ℕ := s.stop - s.start

/-- The segments that begin at these entries, up to this length. -/
def segmentsOf (len : ℕ) : List (ℕ × Option Text) → List Segment
  | [] => []
  | [(start, symbol)] => [⟨start, len, symbol⟩]
  | (start, symbol) :: (stop, next) :: rest =>
    ⟨start, stop, symbol⟩ :: segmentsOf len ((stop, next) :: rest)

def segments (cuts : Cuts) (len : ℕ) : List Segment :=
  segmentsOf len (cuts.entries.filter fun cut => cut.1 < len)

def charIndices : ℕ → Text → List (ℕ × Char)
  | _, [] => []
  | i, c :: text => (i, c) :: charIndices (i + c.utf8Size) text

def lineStarts (source : Text) : List ℕ :=
  0 :: ((charIndices 0 source).filter fun indexed => indexed.2 = '\n').map fun indexed =>
    indexed.1 + 1

/-- Where a value is in a sorted list, or else where it belongs. -/
def binarySearch (xs : List ℕ) (x : ℕ) : ℕ ⊕ ℕ :=
  if x ∈ xs then .inl (xs.idxOf x) else .inr (xs.countP (· < x))

/-- The line that contains a byte. -/
def lineOf (starts : List ℕ) (byte : ℕ) : ℕ :=
  match binarySearch starts byte with
  | .inl index => index + 1
  | .inr index => index

/-- Groups that are complete, and the one being filled. -/
structure Grouping where
  complete : List (List Segment)
  group : List Segment
  size : ℕ
  previousStoodAlone : Bool

/-- Only small segments are merged. -/
def Grouping.add (options : ChunkOptions) (g : Grouping) (s : Segment) : Grouping :=
  let standsAlone := s.len * 4 > options.targetChars
  let full := g.size + s.len > options.targetChars
  if !g.group.isEmpty && (standsAlone || g.previousStoodAlone || full) then
    ⟨g.complete ++ [g.group], [s], s.len, standsAlone⟩
  else ⟨g.complete, g.group ++ [s], g.size + s.len, standsAlone⟩

def groupsOf (options : ChunkOptions) (segments : List Segment) : List (List Segment) :=
  let g := segments.foldl (Grouping.add options) ⟨[], [], 0, false⟩
  g.complete ++ [g.group]

/-- The name of the definition that makes up more than half of a group. -/
def dominant (group : List Segment) : Option Text :=
  let total := (group.map Segment.len).sum
  ((maxBy (fun a b => compare a.len b.len) group).filter fun s => s.len * 2 > total).bind
    Segment.symbol

def emit (source : Text) (starts : List ℕ) (options : ChunkOptions) (group : List Segment) :
    List SourceChunk :=
  match group.head?, group.getLast? with
  | some first, some last =>
    match byteSlice first.start last.stop source with
    | none => []
    | some text =>
      if text.isEmpty then []
      else
        let startLine := lineOf starts first.start
        if utf8Len text > options.splitCeiling then splitPreservingWhitespace text startLine options
        else [⟨startLine, lineOf starts (last.stop - 1), text, dominant group, .parsed⟩]
  | _, _ => []

def assemble (source : Text) (segments : List Segment) (options : ChunkOptions) :
    List SourceChunk :=
  (groupsOf options segments).flatMap (emit source (lineStarts source) options)

/-- The chunks of a source that is cut at these points. -/
def tree (source : Text) (cuts : Cuts) (options : ChunkOptions) : List SourceChunk :=
  assemble source (segments cuts (utf8Len source)) options

/-- What opens the chunks of a group: its text, or its pieces where it is too long. -/
def groupOpenings (source : Text) (options : ChunkOptions) (group : List Segment) :
    List (ℕ × Text) :=
  match group.head?, group.getLast? with
  | some first, some last =>
    match byteSlice first.start last.stop source with
    | none => []
    | some text =>
      let startLine := lineOf (lineStarts source) first.start
      if utf8Len text > options.splitCeiling then
        openings options ⟨[], [], startLine, startLine⟩ (units text startLine options)
      else [(startLine, text)]
  | _, _ => []

def treeOpenings (source : Text) (cuts : Cuts) (options : ChunkOptions) : List (ℕ × Text) :=
  (groupsOf options (segments cuts (utf8Len source))).flatMap (groupOpenings source options)

theorem charIndices_append (i : ℕ) (a b : Text) :
    charIndices i (a ++ b) = charIndices i a ++ charIndices (i + utf8Len a) b := by
  induction a generalizing i with
  | nil => rfl
  | cons c a ih => simp [charIndices, ih, Nat.add_assoc]

theorem charIndices_bounds {i : ℕ} {text : Text} {indexed : ℕ × Char}
    (h : indexed ∈ charIndices i text) : i ≤ indexed.1 ∧ indexed.1 < i + utf8Len text := by
  induction text generalizing i with
  | nil => cases h
  | cons c text ih =>
    have hc := Char.utf8Size_pos c
    rw [utf8Len_cons]
    rcases List.mem_cons.mp h with rfl | h
    · exact ⟨le_rfl, by dsimp only; omega⟩
    · have hrest := ih h
      omega

/-- Where the lines of a text that begins at this offset start, but for the first. -/
def breaks (i : ℕ) (text : Text) : List ℕ :=
  ((charIndices i text).filter fun indexed => indexed.2 = '\n').map fun indexed => indexed.1 + 1

theorem breaks_append (i : ℕ) (a b : Text) :
    breaks i (a ++ b) = breaks i a ++ breaks (i + utf8Len a) b := by
  rw [breaks, charIndices_append, List.filter_append, List.map_append]
  rfl

theorem mem_breaks {i start : ℕ} {text : Text} (h : start ∈ breaks i text) :
    i < start ∧ start ≤ i + utf8Len text := by
  obtain ⟨indexed, hmem, rfl⟩ := List.mem_map.mp h
  have hbounds := charIndices_bounds (List.mem_of_mem_filter hmem)
  omega

theorem length_breaks (i : ℕ) (text : Text) : (breaks i text).length = newlines text := by
  induction text generalizing i with
  | nil => rfl
  | cons c text ih =>
    have hrest := ih (i + c.utf8Size)
    rw [breaks, List.length_map] at hrest ⊢
    rw [newlines, List.count_cons] at *
    by_cases hc : c = '\n'
    · simp [charIndices, hc] at hrest ⊢
      exact hrest
    · simp [charIndices, hc] at hrest ⊢
      exact hrest

theorem pairwise_breaks (i : ℕ) (text : Text) : (breaks i text).Pairwise (· < ·) := by
  induction text generalizing i with
  | nil => exact .nil
  | cons c text ih =>
    have hrest := ih (i + c.utf8Size)
    have hsingle : breaks i (c :: text) = breaks i [c] ++ breaks (i + c.utf8Size) text :=
      breaks_append i [c] text
    have hc := Char.utf8Size_pos c
    rw [hsingle, List.pairwise_append]
    refine ⟨?_, hrest, ?_⟩
    · unfold breaks
      simp only [charIndices]
      by_cases h : c = '\n' <;> simp [h]
    · intro a ha b hb
      have hleft := mem_breaks ha
      have hright := mem_breaks hb
      have hbreak : a = i + 1 := by
        unfold breaks at ha
        simp only [charIndices] at ha
        by_cases h : c = '\n' <;> simp [h] at ha
        exact ha
      omega

theorem le_of_mem_breaks {i start : ℕ} {c : Char} {text : Text} (h : start ∈ breaks i (c :: text)) :
    i + c.utf8Size ≤ start := by
  rw [show c :: text = [c] ++ text from rfl, breaks_append, List.mem_append] at h
  rcases h with h | h
  · unfold breaks at h
    simp only [charIndices] at h
    by_cases hc : c = '\n'
    · subst hc
      simp only [decide_true, List.filter_cons_of_pos, List.filter_nil, List.map_cons, List.map_nil,
        List.mem_singleton] at h
      exact h.ge
    · simp [hc] at h
  · have hbound := mem_breaks h
    simp only [utf8Len_cons, utf8Len_nil] at hbound
    omega

theorem lineOf_eq_countP {starts : List ℕ} (hstarts : starts.Pairwise (· < ·)) (byte : ℕ) :
    lineOf starts byte = starts.countP (· ≤ byte) := by
  unfold lineOf binarySearch
  split_ifs with hmem
  · obtain ⟨before, after, rfl, hbefore⟩ := List.eq_append_cons_of_mem hmem
    obtain ⟨hleft, hright, hcross⟩ := List.pairwise_append.mp hstarts
    have hsmall : before.countP (· ≤ byte) = before.length := by
      refine List.countP_eq_length.mpr fun x hx => ?_
      simpa using (hcross x hx byte List.mem_cons_self).le
    have hlarge : after.countP (· ≤ byte) = 0 := by
      refine List.countP_eq_zero.mpr fun x hx => ?_
      simpa using List.rel_of_pairwise_cons hright hx
    dsimp only
    rw [List.idxOf_append_of_notMem hbefore, List.idxOf_cons_self, List.countP_append,
      List.countP_cons, hsmall, hlarge]
    simp
  · refine List.countP_congr fun x hx => ?_
    have hne : x ≠ byte := fun h => hmem (h ▸ hx)
    simp only [decide_eq_true_eq]
    omega

/-- The bytes of a character are on the line that those before it leave off. -/
theorem lineOf_lineStarts {before after : Text} {c : Char} {byte : ℕ}
    (hle : utf8Len before ≤ byte) (hlt : byte < utf8Len before + c.utf8Size) :
    lineOf (lineStarts (before ++ c :: after)) byte = 1 + newlines before := by
  have hstarts : lineStarts (before ++ c :: after) =
      0 :: (breaks 0 before ++ breaks (utf8Len before) (c :: after)) := by
    rw [← Nat.zero_add (utf8Len before), ← breaks_append]
    rfl
  have hsorted : (lineStarts (before ++ c :: after)).Pairwise (· < ·) := by
    refine List.pairwise_cons.mpr ⟨fun start hstart => ?_, pairwise_breaks 0 _⟩
    exact (mem_breaks (i := 0) hstart).1
  have hsmall : (breaks 0 before).countP (· ≤ byte) = newlines before := by
    rw [← length_breaks 0]
    refine List.countP_eq_length.mpr fun start hstart => ?_
    have hbound := mem_breaks hstart
    simp only [decide_eq_true_eq]
    omega
  have hlarge : (breaks (utf8Len before) (c :: after)).countP (· ≤ byte) = 0 := by
    refine List.countP_eq_zero.mpr fun start hstart => ?_
    have hbound := le_of_mem_breaks hstart
    simp only [decide_eq_true_eq]
    omega
  rw [lineOf_eq_countP hsorted, hstarts, List.countP_cons, List.countP_append, hsmall, hlarge]
  simp [Nat.add_comm]

/-- Segments of a text that begins at this offset, one after the other. -/
def Spans : ℕ → Text → List Segment → Prop
  | _, text, [] => text = []
  | offset, text, s :: segments => ∃ inner rest, text = inner ++ rest ∧ inner ≠ [] ∧
      s.start = offset ∧ s.stop = offset + utf8Len inner ∧ Spans s.stop rest segments

theorem spans_append {offset : ℕ} {text : Text} {group rest : List Segment} :
    Spans offset text (group ++ rest) ↔ ∃ inner after, text = inner ++ after ∧
      Spans offset inner group ∧ Spans (offset + utf8Len inner) after rest := by
  induction group generalizing offset text with
  | nil => simp [Spans]
  | cons s group ih =>
    simp only [List.cons_append, Spans, ih]
    constructor
    · rintro ⟨first, _, rfl, hne, hstart, hstop, inner, after, rfl, hgroup, hrest⟩
      refine ⟨first ++ inner, after, by simp, ⟨first, inner, rfl, hne, hstart, hstop, hgroup⟩, ?_⟩
      rwa [utf8Len_append, ← Nat.add_assoc, ← hstop]
    · rintro ⟨_, after, rfl, ⟨first, inner, rfl, hne, hstart, hstop, hgroup⟩, hrest⟩
      refine ⟨first, inner ++ after, by simp, hne, hstart, hstop, inner, after, rfl, hgroup, ?_⟩
      rwa [utf8Len_append, ← Nat.add_assoc, ← hstop] at hrest

/-- A group begins where its text does, and ends where it does. -/
theorem Spans.ends {offset : ℕ} {text : Text} {s : Segment} {group : List Segment}
    (h : Spans offset text (s :: group)) : text ≠ [] ∧ s.start = offset ∧
      ∃ last, (s :: group).getLast? = some last ∧ last.stop = offset + utf8Len text := by
  induction group generalizing offset text s with
  | nil =>
    obtain ⟨inner, rest, rfl, hne, hstart, hstop, hrest⟩ := h
    obtain rfl : rest = [] := hrest
    exact ⟨by simpa using hne, hstart, s, rfl, by rw [hstop, List.append_nil]⟩
  | cons next group ih =>
    obtain ⟨inner, rest, rfl, hne, hstart, hstop, hrest⟩ := h
    obtain ⟨_, _, last, hlast, hend⟩ := ih hrest
    refine ⟨by simp [hne], hstart, last, by rw [List.getLast?_cons_cons, hlast], ?_⟩
    rw [hend, hstop, utf8Len_append, Nat.add_assoc]

/-- Segments between cut points that are boundaries of characters tile what begins at the first. -/
theorem spans_segmentsOf {before text : Text} {symbol : Option Text}
    {entries : List (ℕ × Option Text)}
    (hsorted : ((utf8Len before, symbol) :: entries).Pairwise fun a b => a.1 < b.1)
    (hbounds : ∀ cut ∈ entries, ∃ a b, before ++ text = a ++ b ∧ utf8Len a = cut.1 ∧ b ≠ [])
    (htext : text ≠ []) :
    Spans (utf8Len before) text
      (segmentsOf (utf8Len (before ++ text)) ((utf8Len before, symbol) :: entries)) := by
  induction entries generalizing before text symbol with
  | nil =>
    refine ⟨text, [], by simp, htext, rfl, ?_, rfl⟩
    exact utf8Len_append before text
  | cons cut entries ih =>
    obtain ⟨stop, next⟩ := cut
    obtain ⟨a, b, hsplit, hstop, hb⟩ := hbounds _ List.mem_cons_self
    dsimp only at hstop
    subst hstop
    have hlt : utf8Len before < utf8Len a := List.rel_of_pairwise_cons hsorted List.mem_cons_self
    obtain ⟨inner, rfl, rfl⟩ | ⟨inner, rfl, _⟩ := List.append_eq_append_iff.mp hsplit
    · have hinner : inner ≠ [] := by
        rintro rfl
        simp at hlt
      refine ⟨inner, b, rfl, hinner, rfl, utf8Len_append before inner, ?_⟩
      have hrest := @ih (before ++ inner) b next (List.Pairwise.of_cons hsorted) (by
        intro cut hcut
        rw [List.append_assoc]
        exact hbounds cut (List.mem_cons_of_mem _ hcut)) hb
      rw [List.append_assoc] at hrest
      exact hrest
    · rw [utf8Len_append] at hlt
      omega

/-- Cut points of a source: the beginning is one, and all are boundaries of characters. -/
structure Cuts.Of (cuts : Cuts) (source : Text) : Prop where
  zero : ∃ symbol, (0, symbol) ∈ cuts.entries
  boundary : ∀ cut ∈ cuts.entries, cut.1 < utf8Len source → (splitAtByte cut.1 source).isSome

theorem spans_segments {source : Text} {cuts : Cuts} (hcuts : cuts.Of source) (hne : source ≠ []) :
    Spans 0 source (segments cuts (utf8Len source)) := by
  obtain ⟨symbol, hzero⟩ := hcuts.zero
  have hpos : 0 < utf8Len source := Nat.pos_of_ne_zero fun h => hne (utf8Len_eq_zero.mp h)
  have hsorted : (cuts.entries.filter fun cut => cut.1 < utf8Len source).Pairwise
      fun a b => a.1 < b.1 := cuts.sorted.sublist List.filter_sublist
  have hmem : (0, symbol) ∈ cuts.entries.filter fun cut => cut.1 < utf8Len source :=
    List.mem_filter.mpr ⟨hzero, by simpa using hpos⟩
  have hbounds : ∀ cut ∈ cuts.entries.filter fun cut => cut.1 < utf8Len source,
      ∃ a b, [] ++ source = a ++ b ∧ utf8Len a = cut.1 ∧ b ≠ [] := by
    intro cut hcut
    obtain ⟨hcut, hlt⟩ := List.mem_filter.mp hcut
    rw [decide_eq_true_eq] at hlt
    obtain ⟨⟨a, b⟩, hsplit⟩ := Option.isSome_iff_exists.mp (hcuts.boundary cut hcut hlt)
    obtain ⟨hsource, hlen⟩ := splitAtByte_eq_some_iff.mp hsplit
    refine ⟨a, b, hsource, hlen, ?_⟩
    rintro rfl
    rw [hsource, List.append_nil] at hlt
    omega
  unfold segments
  cases h : cuts.entries.filter fun cut => cut.1 < utf8Len source with
  | nil =>
    rw [h] at hmem
    cases hmem
  | cons first entries =>
    rw [h] at hsorted hmem hbounds
    have hfirst : first.1 = 0 := by
      rcases List.mem_cons.mp hmem with hsame | hlater
      · rw [← hsame]
      · exact absurd (List.rel_of_pairwise_cons hsorted hlater) (Nat.not_lt_zero _)
    obtain ⟨start, name⟩ := first
    dsimp only at hfirst
    subst hfirst
    exact @spans_segmentsOf [] source name entries hsorted
      (fun cut hcut => hbounds cut (List.mem_cons_of_mem _ hcut)) hne

theorem flatten_groupsOf (options : ChunkOptions) (segments : List Segment) :
    (groupsOf options segments).flatten = segments := by
  have hadd : ∀ (segments : List Segment) (g : Grouping),
      ((segments.foldl (Grouping.add options) g).complete ++
        [(segments.foldl (Grouping.add options) g).group]).flatten =
          (g.complete ++ [g.group]).flatten ++ segments := by
    intro segments
    induction segments with
    | nil => simp
    | cons s segments ih =>
      intro g
      rw [List.foldl_cons, ih, Grouping.add]
      split <;> simp
  simpa [groupsOf] using hadd segments ⟨[], [], 0, false⟩

variable {options : ChunkOptions} {source : Text}

theorem emit_spec (hceiling : 4 ≤ options.maxEmbedBytes) {before inner after : Text}
    {group : List Segment} (hsource : source = before ++ (inner ++ after))
    (hspans : Spans (utf8Len before) inner group) :
    Tiles options.maxEmbedBytes (1 + newlines before) inner
        (emit source (lineStarts source) options group) ∧
      List.Forall₂ OpenedBy (groupOpenings source options group)
        (emit source (lineStarts source) options group) := by
  cases group with
  | nil =>
    obtain rfl : inner = [] := hspans
    exact ⟨tiles_nil, .nil⟩
  | cons first group =>
    obtain ⟨hne, hstart, last, hlast, hstop⟩ := hspans.ends
    have hslice : byteSlice first.start last.stop source = some inner := by
      rw [hstart, hstop, hsource]
      exact byteSlice_append before inner after
    have hfirstLine : lineOf (lineStarts source) first.start = 1 + newlines before := by
      obtain ⟨c, rest, rfl⟩ := List.exists_cons_of_ne_nil hne
      rw [hsource, hstart]
      exact lineOf_lineStarts le_rfl (Nat.lt_add_of_pos_right (Char.utf8Size_pos c))
    have hlastLine : lineOf (lineStarts source) (last.stop - 1) =
        1 + newlines before + newlines inner.dropLast := by
      obtain ⟨c, hc⟩ : ∃ c, inner = inner.dropLast ++ [c] :=
        ⟨inner.getLast hne, (List.dropLast_append_getLast hne).symm⟩
      have hsize := Char.utf8Size_pos c
      have hlen : utf8Len inner = utf8Len inner.dropLast + c.utf8Size := by
        conv_lhs => rw [hc]
        simp
      have hwhole : source = (before ++ inner.dropLast) ++ c :: after := by
        rw [hsource]
        conv_lhs => rw [hc]
        simp
      rw [hwhole, hstop, hlen, lineOf_lineStarts (by simp; omega) (by simp; omega), newlines_append,
        Nat.add_assoc]
    unfold emit groupOpenings
    rw [List.head?_cons, hlast]
    dsimp only
    rw [hslice]
    dsimp only
    rw [if_neg (by simpa using hne), hfirstLine]
    split
    · exact splitPreservingWhitespace_spec hceiling inner _
    · next hfits =>
      have hle : utf8Len inner ≤ options.maxEmbedBytes :=
        (Nat.not_lt.mp hfits).trans (min_le_right _ _)
      refine ⟨@tiles_single _ _ ⟨_, _, inner, _, _⟩ hne hle rfl hlastLine, ?_⟩
      exact .cons ⟨rfl, [], (List.append_nil inner).symm, .inr rfl⟩ .nil

/-- Groups that are next to each other tile what they span. -/
theorem groups_spec (hceiling : 4 ≤ options.maxEmbedBytes) {groups : List (List Segment)}
    {before inner : Text} (hsource : source = before ++ inner)
    (hspans : Spans (utf8Len before) inner groups.flatten) :
    Tiles options.maxEmbedBytes (1 + newlines before) inner
        (groups.flatMap (emit source (lineStarts source) options)) ∧
      List.Forall₂ OpenedBy (groups.flatMap (groupOpenings source options))
        (groups.flatMap (emit source (lineStarts source) options)) := by
  induction groups generalizing before inner with
  | nil =>
    obtain rfl : inner = [] := hspans
    exact ⟨tiles_nil, .nil⟩
  | cons group groups ih =>
    obtain ⟨first, after, rfl, hgroup, hrest⟩ := spans_append.mp hspans
    obtain ⟨htiles, hopened⟩ := emit_spec hceiling hsource hgroup
    rw [← utf8Len_append] at hrest
    obtain ⟨htiles', hopened'⟩ := ih (hsource.trans (List.append_assoc _ _ _).symm) hrest
    rw [newlines_append, ← Nat.add_assoc] at htiles'
    rw [List.flatMap_cons, List.flatMap_cons]
    exact ⟨htiles.append htiles', List.rel_append hopened hopened'⟩

/-- A source is tiled between its cut points, and its chunks are opened as its groups are. -/
theorem tree_spec (hceiling : 4 ≤ options.maxEmbedBytes) {cuts : Cuts} (hcuts : cuts.Of source)
    (hne : source ≠ []) :
    Tiles options.maxEmbedBytes 1 source (tree source cuts options) ∧
      List.Forall₂ OpenedBy (treeOpenings source cuts options) (tree source cuts options) := by
  have hspans := spans_segments hcuts hne
  rw [← flatten_groupsOf options (segments cuts (utf8Len source))] at hspans
  exact @groups_spec options source hceiling _ [] source rfl hspans

end TinySweeper.Chunk
