import TinySweeper.Config.Remote
import TinySweeper.Latest

/-!
# Layers and provenance

Configuration tables are merged one layer over another, and a map beside the
merged table says which layer set each leaf, under the leaf's dotted key. The
merge replaces what it displaces; the map only ever gains entries.
-/

namespace TinySweeper.Layered

open Text Nested Nested.Table Remote
open Std (TreeMap)

/-- Where an effective value came from, lowest precedence first. -/
inductive Layer where
  | defaults
  | preset
  | repo
  | flag
  deriving DecidableEq

structure Provenance where
  entries : TreeMap Text Layer

def Provenance.get (p : Provenance) (key : Text) : Option Layer := p.entries[key]?

def Provenance.record (p : Provenance) (path : Text) (layer : Layer) : Provenance :=
  ⟨p.entries.insert path layer⟩

@[simp] theorem Provenance.get_record (p : Provenance) (path : Text) (layer : Layer) (key : Text) :
    (p.record path layer).get key = if path = key then some layer else p.get key := by
  rw [get, record, TreeMap.getElem?_insert, get]
  simp only [Std.LawfulEqCmp.compare_eq_iff_eq]

def join (parent key : Text) : Text := if parent.isEmpty then key else parent ++ '.' :: key

/-- The dotted key of a path. -/
def dotted (parent : Text) (path : List Text) : Text := path.foldl join parent

@[simp] theorem dotted_cons (parent key : Text) (path : List Text) :
    dotted parent (key :: path) = dotted (join parent key) path := rfl

variable {σ : Type}

/-- Only leaves get an entry: a table is a namespace. -/
def recordTable (layer : Layer) (parent : Text) : Table Text σ → Provenance → Provenance
  | .nil, p => p
  | .leaf key _ rest, p => recordTable layer parent rest (p.record (join parent key) layer)
  | .table key inner rest, p =>
    recordTable layer parent rest (recordTable layer (join parent key) inner p)

def recordValue (layer : Layer) (path : Text) : Value Text σ → Provenance → Provenance
  | .inl _, p => p.record path layer
  | .inr inner, p => recordTable layer path inner p

def recordAll (table : Table Text σ) (layer : Layer) (p : Provenance) : Provenance :=
  recordTable layer [] table p

/-- Two tables are merged key by key, anything else replaces. -/
def mergeTable (layer : Layer) (parent : Text) : (base upper : Table Text σ) → Provenance →
    Table Text σ × Provenance
  | base, .nil, p => (base, p)
  | base, .leaf key value rest, p =>
    mergeTable layer parent (base.insert key (.inl value)) rest
      (recordValue layer (join parent key) (.inl value : Value Text σ) p)
  | base, .table key inner rest, p =>
    match base.get key with
    | some (.inr below) =>
      let merged := mergeTable layer (join parent key) below inner p
      mergeTable layer parent (base.insert key (.inr merged.1)) rest merged.2
    | _ =>
      mergeTable layer parent (base.insert key (.inr inner)) rest
        (recordValue layer (join parent key) (.inr inner) p)

def mergeLayer (base upper : Table Text σ) (layer : Layer) (p : Provenance) :
    Table Text σ × Provenance :=
  mergeTable layer [] base upper p

/-- A document and the layer it is merged as. -/
structure Source (σ : Type) where
  layer : Layer
  document : Document σ

def Source.mergeInto (state : Table Text σ × Provenance) (s : Source σ) :
    Table Text σ × Provenance :=
  mergeLayer state.1 s.document.table s.layer state.2

/-- The defaults, and each further layer merged over them in this order. -/
def load (defaults : Document σ) (layers : List (Source σ)) : Table Text σ × Provenance :=
  layers.foldl Source.mergeInto (defaults.table, recordAll defaults.table .defaults ⟨∅⟩)

/-- Everything a configuration is loaded from. -/
def sources (defaults : Document σ) (layers : List (Source σ)) : List (Source σ) :=
  ⟨.defaults, defaults⟩ :: layers

/-- What is recorded of a layer does not depend on what it is merged over. -/
theorem mergeTable_eq (layer : Layer) (parent : Text) (base upper : Table Text σ)
    (p : Provenance) : mergeTable layer parent base upper p =
      (base.merge upper, recordTable layer parent upper p) := by
  induction upper generalizing parent base p with
  | nil => rfl
  | leaf key value rest ih =>
    rw [mergeTable, ih]
    rfl
  | table key inner rest ihInner ih =>
    rw [mergeTable, merge]
    rcases base.get key with _ | value | below
    · exact ih ..
    · exact ih ..
    · simp only [ihInner, ih]
      rfl

/-- Some leaf of the table has this dotted key. -/
def Names (parent : Text) (t : Table Text σ) (name : Text) : Prop :=
  ∃ path value, t.leafAt path = some value ∧ dotted parent path = name

theorem names_nil (parent name : Text) : ¬ Names parent (.nil : Table Text σ) name := by
  rintro ⟨path, value, hleaf, -⟩
  rw [leafAt_empty] at hleaf
  exact absurd hleaf (by simp)

theorem names_leaf {parent key name : Text} {value : σ} {rest : Table Text σ}
    (hfresh : rest.get key = none) : Names parent (.leaf key value rest) name ↔
      join parent key = name ∨ Names parent rest name := by
  constructor
  · rintro ⟨path, found, hleaf, rfl⟩
    rcases (leafAt_leaf hfresh).mp hleaf with ⟨rfl, -⟩ | hrest
    · exact .inl rfl
    · exact .inr ⟨path, found, hrest, rfl⟩
  · rintro (rfl | ⟨path, found, hrest, rfl⟩)
    · exact ⟨[key], value, (leafAt_leaf hfresh).mpr (.inl ⟨rfl, rfl⟩), rfl⟩
    · exact ⟨path, found, (leafAt_leaf hfresh).mpr (.inr hrest), rfl⟩

theorem names_table {parent key name : Text} {inner rest : Table Text σ}
    (hfresh : rest.get key = none) : Names parent (.table key inner rest) name ↔
      Names (join parent key) inner name ∨ Names parent rest name := by
  constructor
  · rintro ⟨path, found, hleaf, rfl⟩
    rcases (leafAt_table hfresh).mp hleaf with ⟨below, rfl, hbelow⟩ | hrest
    · exact .inl ⟨below, found, hbelow, rfl⟩
    · exact .inr ⟨path, found, hrest, rfl⟩
  · rintro (⟨below, found, hbelow, rfl⟩ | ⟨path, found, hrest, rfl⟩)
    · exact ⟨key :: below, found, (leafAt_table hfresh).mpr (.inl ⟨below, rfl, hbelow⟩), rfl⟩
    · exact ⟨path, found, (leafAt_table hfresh).mpr (.inr hrest), rfl⟩

open Classical in
/-- A layer is recorded under the dotted keys of its leaves and no others. -/
theorem get_recordTable {t : Table Text σ} (hunique : t.Unique) (layer : Layer) (parent : Text)
    (p : Provenance) (name : Text) : (recordTable layer parent t p).get name =
      if Names parent t name then some layer else p.get name := by
  induction t generalizing parent p with
  | nil => rw [recordTable, if_neg (names_nil parent name)]
  | leaf key value rest ih =>
    obtain ⟨hfresh, hrest⟩ := hunique
    rw [recordTable, ih hrest, Provenance.get_record, names_leaf hfresh]
    by_cases hkey : join parent key = name <;> simp [hkey]
  | table key inner rest ihInner ih =>
    obtain ⟨hfresh, hinner, hrest⟩ := hunique
    rw [recordTable, ih hrest, ihInner hinner, names_table hfresh]
    by_cases hname : Names (join parent key) inner name <;> simp [hname]

namespace Source

def Sets (s : Source σ) (path : List Text) : Prop := ∃ value, s.document.table.leafAt path = some value

/-- What the source puts on the way or at the end of the path removes a leaf there. -/
def Displaces (s : Source σ) (path : List Text) : Prop := s.document.table.Displaces path

def Named (s : Source σ) (name : Text) : Prop := ∃ path, s.Sets path ∧ dotted [] path = name

theorem named_iff {s : Source σ} {name : Text} : s.Named name ↔ Names [] s.document.table name := by
  constructor
  · rintro ⟨path, ⟨value, hleaf⟩, hname⟩
    exact ⟨path, value, hleaf, hname⟩
  · rintro ⟨path, value, hleaf, hname⟩
    exact ⟨path, ⟨value, hleaf⟩, hname⟩

end Source

/-- The last of the sources of which this holds. -/
def Last (holds : Source σ → Prop) (all : List (Source σ)) (s : Source σ) : Prop :=
  ∃ before after, all = before ++ s :: after ∧ holds s ∧ ∀ later ∈ after, ¬ holds later

/-- The source set a leaf that no later one set or displaced. -/
def Standing (all : List (Source σ)) (path : List Text) (s : Source σ) : Prop :=
  s.Sets path ∧ Last (fun other => other.Sets path ∨ other.Displaces path) all s

section Marks

open Classical

/-- What a source makes of the value at a path. -/
noncomputable def leafMark (path : List Text) (s : Source σ) : Option (Option σ) :=
  if s.Sets path ∨ s.Displaces path then some (s.document.table.leafAt path) else none

noncomputable def nameMark (name : Text) (s : Source σ) : Option (Option Layer) :=
  if s.Named name then some (some s.layer) else none

theorem getD_leafMark (path : List Text) (s : Source σ) (below : Option σ) :
    (leafMark path s).getD below =
      (s.document.table.leafAt path).or (if s.Displaces path then none else below) := by
  unfold leafMark Source.Sets
  cases hleaf : s.document.table.leafAt path with
  | some value => simp
  | none => by_cases hdisplaces : s.Displaces path <;> simp [hdisplaces]

theorem getD_nameMark (name : Text) (s : Source σ) (below : Option Layer) :
    (nameMark name s).getD below = if s.Named name then some s.layer else below := by
  unfold nameMark
  split <;> rfl

def leafOf (path : List Text) (state : Table Text σ × Provenance) : Option σ :=
  state.1.leafAt path

def layerOf (name : Text) (state : Table Text σ × Provenance) : Option Layer := state.2.get name

/-- What a source makes of a leaf of the merged table. -/
theorem leafOf_mergeInto (path : List Text) (state : Table Text σ × Provenance) (s : Source σ) :
    leafOf path (Source.mergeInto state s) = (leafMark path s).getD (leafOf path state) := by
  rw [getD_leafMark, leafOf, Source.mergeInto, mergeLayer, mergeTable_eq]
  exact leafAt_merge_displaces s.document.unique _ path

theorem layerOf_mergeInto (name : Text) (state : Table Text σ × Provenance) (s : Source σ) :
    layerOf name (Source.mergeInto state s) = (nameMark name s).getD (layerOf name state) := by
  rw [getD_nameMark, layerOf, Source.mergeInto, mergeLayer, mergeTable_eq]
  simp only [get_recordTable s.document.unique, ← Source.named_iff]
  rfl

variable (defaults : Document σ) (layers : List (Source σ))

/-- A leaf of the merged table is what the last source to set or displace it left. -/
theorem leafAt_load (path : List Text) : (load defaults layers).1.leafAt path =
    latest (leafMark path) none (sources defaults layers) := by
  rw [sources, latest_cons, getD_leafMark, ite_self, Option.or_none]
  exact foldl_eq_latest (leafOf_mergeInto path) _ layers

/-- A recorded layer is that of the last source with a leaf of this name. -/
theorem get_load (name : Text) : (load defaults layers).2.get name =
    latest (nameMark name) none (sources defaults layers) := by
  have hseed : (recordAll defaults.table .defaults ⟨∅⟩).get name =
      (nameMark name ⟨.defaults, defaults⟩).getD none := by
    rw [getD_nameMark, recordAll, get_recordTable defaults.unique]
    simp [Source.named_iff, Provenance.get]
  rw [sources, latest_cons, ← hseed]
  exact foldl_eq_latest (layerOf_mergeInto name) _ layers

theorem leafMark_eq_some {path : List Text} {s : Source σ} {value : σ} :
    leafMark path s = some (some value) ↔ s.document.table.leafAt path = some value := by
  unfold leafMark
  constructor
  · intro h
    split at h
    · exact Option.some.inj h
    · exact absurd h (by simp)
  · intro h
    rw [if_pos (.inl ⟨value, h⟩), h]

theorem leafMark_eq_none {path : List Text} {s : Source σ} :
    leafMark path s = none ↔ ¬ (s.Sets path ∨ s.Displaces path) := by
  unfold leafMark
  split <;> simp_all

theorem nameMark_eq_some {name : Text} {s : Source σ} {layer : Layer} :
    nameMark name s = some (some layer) ↔ s.Named name ∧ s.layer = layer := by
  unfold nameMark
  split <;> simp_all

theorem nameMark_eq_none {name : Text} {s : Source σ} :
    nameMark name s = none ↔ ¬ s.Named name := by
  unfold nameMark
  split <;> simp_all

end Marks

variable {defaults layers}

theorem leafAt_load_iff {path : List Text} {value : σ} :
    (load defaults layers).1.leafAt path = some value ↔
      ∃ s, Standing (sources defaults layers) path s ∧
        s.document.table.leafAt path = some value := by
  rw [leafAt_load, latest_eq_iff]
  constructor
  · rintro (⟨before, s, after, hall, hvalue, hafter⟩ | ⟨-, h⟩)
    · rw [leafMark_eq_some] at hvalue
      have hsets : s.Sets path := ⟨value, hvalue⟩
      exact ⟨s, ⟨hsets, before, after, hall, .inl hsets,
        fun later hlater => leafMark_eq_none.mp (hafter later hlater)⟩, hvalue⟩
    · exact absurd h (by simp)
  · rintro ⟨s, ⟨-, before, after, hall, -, hafter⟩, hvalue⟩
    exact .inl ⟨before, s, after, hall, leafMark_eq_some.mpr hvalue,
      fun later hlater => leafMark_eq_none.mpr (hafter later hlater)⟩

theorem get_load_iff {name : Text} {layer : Layer} :
    (load defaults layers).2.get name = some layer ↔
      ∃ s : Source σ, Last (·.Named name) (sources defaults layers) s ∧ s.layer = layer := by
  rw [get_load, latest_eq_iff]
  constructor
  · rintro (⟨before, s, after, hall, hmark, hafter⟩ | ⟨-, h⟩)
    · obtain ⟨hnamed, hlayer⟩ := nameMark_eq_some.mp hmark
      exact ⟨s, ⟨before, after, hall, hnamed,
        fun later hlater => nameMark_eq_none.mp (hafter later hlater)⟩, hlayer⟩
    · exact absurd h (by simp)
  · rintro ⟨s, ⟨before, after, hall, hnamed, hafter⟩, hlayer⟩
    exact .inl ⟨before, s, after, hall, nameMark_eq_some.mpr ⟨hnamed, hlayer⟩,
      fun later hlater => nameMark_eq_none.mpr (hafter later hlater)⟩

/-- The map has the dotted keys of the leaves, each attributed to the last source that set
the leaf, whose value it has. -/
structure Explains (all : List (Source σ)) (merged : Table Text σ) (p : Provenance) : Prop where
  keys : ∀ name, (p.get name).isSome ↔ Names [] merged name
  attributed : ∀ path value, merged.leafAt path = some value →
    ∃ s, Last (·.Sets path) all s ∧ s.document.table.leafAt path = some value ∧
      p.get (dotted [] path) = some s.layer

/-- No entry is left behind or taken by another leaf of its name. -/
structure Traceable (all : List (Source σ)) : Prop where
  standing : ∀ s ∈ all, ∀ path, s.Sets path →
    ∃ other holder, Standing all other holder ∧ dotted [] other = dotted [] path
  named : ∀ path holder, Standing all path holder →
    ∀ namer, Last (·.Named (dotted [] path)) all namer → namer.layer = holder.layer

section Last

variable {p : Source σ → Prop} {all : List (Source σ)} {s : Source σ}

theorem Last.mem (h : Last p all s) : s ∈ all := by
  obtain ⟨before, after, rfl, -⟩ := h
  simp

theorem Last.holds (h : Last p all s) : p s := by
  obtain ⟨before, after, -, hs, -⟩ := h
  exact hs

open Classical in
theorem last_iff : Last p all s ↔
    latest (fun s => if p s then some (some s) else none) none all = some s := by
  rw [latest_eq_iff]
  constructor
  · rintro ⟨before, after, hall, hs, hafter⟩
    exact .inl ⟨before, s, after, hall, if_pos hs, fun later hlater => if_neg (hafter later hlater)⟩
  · rintro (⟨before, a, after, hall, ha, hafter⟩ | ⟨-, h⟩)
    · have hholds : p a := by
        by_contra hnot
        rw [if_neg hnot] at ha
        exact absurd ha (by simp)
      rw [if_pos hholds] at ha
      obtain rfl : a = s := by simpa using ha
      refine ⟨before, after, hall, hholds, fun later hlater hagain => ?_⟩
      have hmark := hafter later hlater
      rw [if_pos hagain] at hmark
      exact absurd hmark (by simp)
    · exact absurd h (by simp)

/-- There is one last source. -/
theorem Last.eq {s' : Source σ} (h : Last p all s) (h' : Last p all s') : s = s' := by
  rw [last_iff] at h h'
  exact Option.some.inj (h.symm.trans h')

theorem exists_last (hmem : s ∈ all) (h : p s) : ∃ last, Last p all last := by
  classical
  rcases unmarked_or_last (fun s => if p s then some () else none) all with
    hnone | ⟨before, last, after, mark, hall, hlast, hafter⟩
  · have hmark := hnone s hmem
    rw [if_pos h] at hmark
    exact absurd hmark (by simp)
  · refine ⟨last, before, after, hall, ?_, fun later hlater hagain => ?_⟩
    · by_contra hnot
      rw [if_neg hnot] at hlast
      exact absurd hlast (by simp)
    · have hmark := hafter later hlater
      rw [if_pos hagain] at hmark
      exact absurd hmark (by simp)

/-- A source whose leaf stands is the last to set it. -/
theorem Standing.last {path : List Text} (h : Standing all path s) : Last (·.Sets path) all s := by
  obtain ⟨hsets, before, after, hall, -, hafter⟩ := h
  exact ⟨before, after, hall, hsets, fun later hlater hset => hafter later hlater (.inl hset)⟩

end Last

/-- The merged value of a leaf is the one its last source gave. -/
theorem last_of_leafAt {path : List Text} {value : σ}
    (h : (load defaults layers).1.leafAt path = some value) :
    ∃ s, Last (·.Sets path) (sources defaults layers) s ∧
      s.document.table.leafAt path = some value := by
  obtain ⟨s, hstanding, hvalue⟩ := leafAt_load_iff.mp h
  exact ⟨s, hstanding.last, hvalue⟩

theorem exists_named {path : List Text} {s : Source σ} (hmem : s ∈ sources defaults layers)
    (hsets : s.Sets path) : ∃ namer, Last (·.Named (dotted [] path)) (sources defaults layers) namer ∧
      (load defaults layers).2.get (dotted [] path) = some namer.layer := by
  have hnamed : s.Named (dotted [] path) := ⟨path, hsets, rfl⟩
  have hlast : ∃ namer, Last (·.Named (dotted [] path)) (sources defaults layers) namer :=
    exists_last hmem hnamed
  obtain ⟨namer, hnamer⟩ := hlast
  exact ⟨namer, hnamer, get_load_iff.mpr ⟨namer, hnamer, rfl⟩⟩

/-- The map explains the merged table exactly when no leaf is displaced for good and no two
leaves of one name come from different layers. -/
theorem explains_iff (defaults : Document σ) (layers : List (Source σ)) :
    Explains (sources defaults layers) (load defaults layers).1 (load defaults layers).2 ↔
      Traceable (sources defaults layers) := by
  constructor
  · intro h
    constructor
    · intro s hmem path hsets
      obtain ⟨namer, -, hget⟩ := exists_named hmem hsets
      have hkept : ((load defaults layers).2.get (dotted [] path)).isSome := by rw [hget]; rfl
      obtain ⟨other, value, hleaf, hname⟩ := (h.keys _).mp hkept
      obtain ⟨holder, hholder, -⟩ := leafAt_load_iff.mp hleaf
      exact ⟨other, holder, hholder, hname⟩
    · intro path holder hholder namer hnamer
      obtain ⟨value, hvalue⟩ := hholder.1
      have hleaf := leafAt_load_iff.mpr ⟨holder, hholder, hvalue⟩
      obtain ⟨s, hs, -, hget⟩ := h.attributed path value hleaf
      have hnamed := get_load_iff.mpr ⟨namer, hnamer, rfl⟩
      rw [hs.eq hholder.last, hnamed] at hget
      exact Option.some.inj hget
  · intro h
    constructor
    · intro name
      constructor
      · intro hkept
        obtain ⟨layer, hget⟩ := Option.isSome_iff_exists.mp hkept
        obtain ⟨namer, hnamer, -⟩ := get_load_iff.mp hget
        obtain ⟨path, hsets, rfl⟩ := hnamer.holds
        obtain ⟨other, holder, hholder, hname⟩ := h.standing namer hnamer.mem path hsets
        obtain ⟨value, hvalue⟩ := hholder.1
        exact ⟨other, value, leafAt_load_iff.mpr ⟨holder, hholder, hvalue⟩, hname⟩
      · rintro ⟨path, value, hleaf, rfl⟩
        obtain ⟨s, hs, -⟩ := last_of_leafAt hleaf
        obtain ⟨namer, -, hget⟩ := exists_named hs.mem hs.holds
        rw [hget]
        rfl
    · intro path value hleaf
      obtain ⟨s, hstanding, hvalue⟩ := leafAt_load_iff.mp hleaf
      obtain ⟨namer, hnamer, hget⟩ := exists_named hstanding.last.mem hstanding.1
      rw [h.named path s hstanding namer hnamer] at hget
      exact ⟨s, hstanding.last, hvalue, hget⟩

/-- `[review] strictness = 2`, as the defaults have it. -/
def reviewDefaults : Document ℕ :=
  ⟨.table "review".toList (.leaf "strictness".toList 2 .nil) .nil, rfl, ⟨rfl, trivial⟩, trivial⟩

/-- A repository that writes `review = 5`. -/
def scalarReview : Document ℕ := ⟨.leaf "review".toList 5 .nil, rfl, trivial⟩

/-- The leaf `review.strictness` is gone and still has its entry. -/
theorem displaced_leaf_recorded :
    (load reviewDefaults [⟨.repo, scalarReview⟩]).2.get "review.strictness".toList =
        some .defaults ∧
      ¬ Explains (sources reviewDefaults [⟨.repo, scalarReview⟩])
        (load reviewDefaults [⟨.repo, scalarReview⟩]).1
        (load reviewDefaults [⟨.repo, scalarReview⟩]).2 := by
  have hmerged : (load reviewDefaults [⟨.repo, scalarReview⟩]).1 =
      .leaf "review".toList 5 .nil := by decide +kernel
  have hentry : (load reviewDefaults [⟨.repo, scalarReview⟩]).2.get "review.strictness".toList =
      some .defaults := by decide +kernel
  refine ⟨hentry, fun h => ?_⟩
  have hnames := (h.keys "review.strictness".toList).mp (by rw [hentry]; rfl)
  rw [hmerged, names_leaf rfl] at hnames
  rcases hnames with hname | hrest
  · exact absurd hname (by decide)
  · exact names_nil _ _ hrest

end TinySweeper.Layered
