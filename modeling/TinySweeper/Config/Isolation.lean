import TinySweeper.Config.Remote

/-!
# A repository and the operator's settings

The filter decides on dotted strings, the merge acts on keys. They agree on every
document whose applied leaves match a pattern key by key.
-/

namespace TinySweeper.Remote

open Text Nested Nested.Table

variable {σ ρ : Type} {t : Table Text σ}

/-- The dotted key of a path. -/
def dotted (parent : Text) (path : List Text) : Text := path.foldl joined parent

@[simp] theorem dotted_cons (parent key : Text) (path : List Text) :
    dotted parent (key :: path) = dotted (joined parent key) path := rfl

def filterKept (parent : Text) : Table Text σ → Table Text σ
  | .nil => .nil
  | .leaf key value rest =>
    if overridable (joined parent key) then .leaf key value (filterKept parent rest)
    else filterKept parent rest
  | .table key inner rest =>
    if (filterKept (joined parent key) inner).isEmpty then filterKept parent rest
    else .table key (filterKept (joined parent key) inner) (filterKept parent rest)

def filterIgnored (parent : Text) : Table Text σ → List Text
  | .nil => []
  | .leaf key _ rest =>
    if overridable (joined parent key) then filterIgnored parent rest
    else joined parent key :: filterIgnored parent rest
  | .table key inner rest =>
    filterIgnored (joined parent key) inner ++ filterIgnored parent rest

theorem isEmpty_iff : t.isEmpty = true ↔ t = .nil := by
  cases t <;> simp [Table.isEmpty]

theorem fresh_rest {key : Text} {value : Value Text σ} {rest kept : Table Text σ}
    (hkey : rest.get key = none)
    (hfresh : ∀ k found, (entry key value rest).get k = some found → kept.get k = none) (k : Text)
    (found : Value Text σ) (hk : rest.get k = some found) : key ≠ k ∧ kept.get k = none := by
  have hne : key ≠ k := by
    rintro rfl
    rw [hkey] at hk
    exact absurd hk (by simp)
  exact ⟨hne, hfresh k found (by rw [get_entry, if_neg hne, hk])⟩

/-- Inserting into a table that has none of the keys appends what is kept. -/
theorem filterInto_eq (hunique : t.Unique) (parent : Text) (kept : Table Text σ)
    (ignored : List Text) (hfresh : ∀ k value, t.get k = some value → kept.get k = none) :
    filterInto parent t kept ignored =
      (kept.append (filterKept parent t), ignored ++ filterIgnored parent t) := by
  induction t generalizing parent kept ignored with
  | nil => simp [filterInto, filterKept, filterIgnored]
  | leaf key value rest ih =>
    obtain ⟨hkey, hrest⟩ := hunique
    have hnew : kept.get key = none := hfresh key _ (by rw [Table.get, if_pos rfl])
    have hlater := @fresh_rest _ key (.inl value) rest kept hkey hfresh
    rw [filterInto, filterKept, filterIgnored]
    split
    · rw [ih hrest, insert_eq_append _ hnew, append_assoc]
      · rfl
      · intro k value' hk
        obtain ⟨hne, hnone⟩ := hlater k value' hk
        rw [get_insert, if_neg hne, hnone]
    · rw [ih hrest _ _ _ fun k value' hk => (hlater k value' hk).2]
      simp
  | table key inner rest ihInner ih =>
    obtain ⟨hkey, hinner, hrest⟩ := hunique
    have hnew : kept.get key = none := hfresh key _ (by rw [Table.get, if_pos rfl])
    have hlater := @fresh_rest _ key (.inr inner) rest kept hkey hfresh
    have hfound : filterInto (joined parent key) inner .nil ignored =
        (filterKept (joined parent key) inner,
          ignored ++ filterIgnored (joined parent key) inner) :=
      ihInner hinner _ _ _ fun k value' _ => rfl
    cases hempty : (filterKept (joined parent key) inner).isEmpty with
    | true =>
      simp only [filterInto, filterKept, filterIgnored, hfound, hempty, if_true]
      rw [ih hrest _ _ _ fun k value' hk => (hlater k value' hk).2, List.append_assoc]
    | false =>
      simp only [filterInto, filterKept, filterIgnored, hfound, hempty, Bool.false_eq_true,
        if_false]
      rw [ih hrest, insert_eq_append _ hnew, append_assoc, List.append_assoc]
      · rfl
      · intro k value' hk
        obtain ⟨hne, hnone⟩ := hlater k value' hk
        rw [get_insert, if_neg hne, hnone]

theorem get_filterKept (hunique : t.Unique) (parent key : Text) : (filterKept parent t).get key =
      match t.get key with
      | none => none
      | some (.inl value) => if overridable (joined parent key) then some (.inl value) else none
      | some (.inr inner) =>
        if (filterKept (joined parent key) inner).isEmpty then none
        else some (.inr (filterKept (joined parent key) inner)) := by
  induction t with
  | nil => rfl
  | leaf k value rest ih =>
    obtain ⟨hkey, hrest⟩ := hunique
    rw [filterKept, Table.get]
    by_cases hk : k = key
    · subst hk
      have hnone := ih hrest
      rw [hkey] at hnone
      rw [if_pos rfl]
      split <;> simp_all [Table.get]
    · rw [if_neg hk, ← ih hrest]
      split
      · rw [Table.get, if_neg hk]
      · rfl
  | table k inner rest _ ih =>
    obtain ⟨hkey, -, hrest⟩ := hunique
    rw [filterKept, Table.get]
    by_cases hk : k = key
    · subst hk
      have hnone := ih hrest
      rw [hkey] at hnone
      rw [if_pos rfl]
      split <;> simp_all [Table.get]
    · rw [if_neg hk, ← ih hrest]
      split
      · rfl
      · rw [Table.get, if_neg hk]

theorem filterKept_unique (hunique : t.Unique) (parent : Text) : (filterKept parent t).Unique := by
  induction t generalizing parent with
  | nil => trivial
  | leaf key value rest ih =>
    obtain ⟨hkey, hrest⟩ := hunique
    rw [filterKept]
    split
    · exact ⟨by rw [get_filterKept hrest, hkey], ih hrest parent⟩
    · exact ih hrest parent
  | table key inner rest ihInner ih =>
    obtain ⟨hkey, hinner, hrest⟩ := hunique
    rw [filterKept]
    split
    · exact ih hrest parent
    · exact ⟨by rw [get_filterKept hrest, hkey], ihInner hinner _, ih hrest parent⟩

theorem filterKept_pruned (t : Table Text σ) (parent : Text) : (filterKept parent t).Pruned := by
  induction t generalizing parent with
  | nil => trivial
  | leaf key value rest ih =>
    rw [filterKept]
    split
    · exact ih parent
    · exact ih parent
  | table key inner rest ihInner ih =>
    rw [filterKept]
    split
    case isTrue => exact ih parent
    case isFalse hsome =>
      exact ⟨fun hnil => hsome (isEmpty_iff.mpr hnil), ihInner _, ih parent⟩

/-- The filter keeps the leaves whose dotted key is overridable. -/
theorem leafAt_filterKept (hunique : t.Unique) (parent : Text) (path : List Text) :
    (filterKept parent t).leafAt path =
      if overridable (dotted parent path) then t.leafAt path else none := by
  induction path generalizing t parent with
  | nil => simp
  | cons key path ih =>
    rw [leafAt_cons, get_filterKept hunique, leafAt_cons, dotted_cons]
    cases hget : t.get key with
    | none => simp
    | some value =>
      cases value with
      | inl value =>
        by_cases hpath : path = []
        · subst hpath
          by_cases hkey : overridable (joined parent key) = true <;> simp [hkey, dotted]
        · by_cases hkey : overridable (joined parent key) = true <;> simp [hkey, hpath]
      | inr inner =>
        have hbelow := ih (unique_of_get hunique hget) (joined parent key)
        by_cases hempty : (filterKept (joined parent key) inner).isEmpty = true
        · rw [isEmpty_iff.mp hempty] at hbelow
          simp only [hempty, if_true]
          rw [← hbelow]
          cases path <;> rfl
        · simp only [hempty]
          exact hbelow

/-- It ignores the others, each under its dotted key. -/
theorem mem_filterIgnored (hunique : t.Unique) (parent dottedKey : Text) :
    dottedKey ∈ filterIgnored parent t ↔ ∃ path value, t.leafAt path = some value ∧
      dotted parent path = dottedKey ∧ overridable dottedKey = false := by
  induction t generalizing parent with
  | nil => simp [filterIgnored, leafAt_empty]
  | leaf key value rest ih =>
    obtain ⟨hkey, hrest⟩ := hunique
    have hsplit : dottedKey ∈ filterIgnored parent (.leaf key value rest) ↔
        (joined parent key = dottedKey ∧ overridable dottedKey = false) ∨
          dottedKey ∈ filterIgnored parent rest := by
      rw [filterIgnored]
      by_cases hover : overridable (joined parent key) = true
      · rw [if_pos hover]
        constructor
        · exact .inr
        · rintro (⟨rfl, hnot⟩ | hmem)
          · rw [hover] at hnot
            exact absurd hnot (by simp)
          · exact hmem
      · rw [if_neg hover, List.mem_cons]
        constructor
        · rintro (rfl | hmem)
          · exact .inl ⟨rfl, by simpa using hover⟩
          · exact .inr hmem
        · rintro (⟨rfl, -⟩ | hmem)
          · exact .inl rfl
          · exact .inr hmem
    rw [hsplit, ih hrest]
    constructor
    · rintro (⟨hdotted, hnot⟩ | ⟨path, found, hleaf, hdotted⟩)
      · exact ⟨[key], value, (leafAt_leaf hkey).mpr (.inl ⟨rfl, rfl⟩), hdotted, hnot⟩
      · exact ⟨path, found, (leafAt_leaf hkey).mpr (.inr hleaf), hdotted⟩
    · rintro ⟨path, found, hleaf, hdotted, hnot⟩
      rcases (leafAt_leaf hkey).mp hleaf with ⟨rfl, -⟩ | hleaf
      · exact .inl ⟨hdotted, hnot⟩
      · exact .inr ⟨path, found, hleaf, hdotted, hnot⟩
  | table key inner rest ihInner ih =>
    obtain ⟨hkey, hinner, hrest⟩ := hunique
    rw [filterIgnored, List.mem_append, ihInner hinner, ih hrest]
    constructor
    · rintro (⟨path, found, hleaf, hdotted⟩ | ⟨path, found, hleaf, hdotted⟩)
      · exact ⟨key :: path, found, (leafAt_table hkey).mpr (.inl ⟨path, rfl, hleaf⟩), hdotted⟩
      · exact ⟨path, found, (leafAt_table hkey).mpr (.inr hleaf), hdotted⟩
    · rintro ⟨path, found, hleaf, hdotted⟩
      rcases (leafAt_table hkey).mp hleaf with ⟨below, rfl, hbelow⟩ | hleaf
      · exact .inl ⟨below, found, hbelow, hdotted⟩
      · exact .inr ⟨path, found, hleaf, hdotted⟩

section Filtered

variable (doc : Document σ)

theorem filter_eq : filter doc.table = (filterKept [] doc.table,
    (filterIgnored [] doc.table).insertionSort (· ≤ ·)) := by
  rw [filter, filterInto_eq doc.unique [] .nil [] fun _ _ _ => rfl]
  rfl

theorem leafAt_filter (path : List Text) : (filter doc.table).1.leafAt path =
    if overridable (dotted [] path) then doc.table.leafAt path else none := by
  rw [filter_eq]
  exact leafAt_filterKept doc.unique [] path

theorem mem_ignored {key : Text} : key ∈ (filter doc.table).2 ↔
    ∃ path value, doc.table.leafAt path = some value ∧ dotted [] path = key ∧
      overridable key = false := by
  rw [filter_eq, List.mem_insertionSort]
  exact mem_filterIgnored doc.unique [] key

/-- The operator's table under the document. -/
def overlaid (base : Table Text σ) : Table Text σ := base.merge (filter doc.table).1

open Classical in
theorem leafAt_overlaid (base : Table Text σ) (path : List Text) :
    (overlaid doc base).leafAt path = ((filter doc.table).1.leafAt path).or
      (if (filter doc.table).1.Blocks path then none else base.leafAt path) := by
  rw [overlaid, filter_eq]
  exact leafAt_merge (filterKept_unique doc.unique []) (filterKept_pruned doc.table []) base path

end Filtered

/-- The key segments of a path match a pattern one by one. -/
def Matched (path : List Text) : Prop :=
  ∃ pattern ∈ OVERRIDABLE_KEYS, segmentsMatch (pattern.splitOn '.') path = true

/-- What two documents can do to a table and to the configuration written in it. -/
structure Isolated (format : Format σ ρ) (base : Config ρ) (table : Table Text σ)
    (document : Text) (doc doc' : Document σ) : Prop where
  agrees : ∀ path, ¬ Matched path → (overlaid doc table).leafAt path = table.leafAt path ∧
    (overlaid doc' table).leafAt path = table.leafAt path
  settled : ∀ path value, doc.table.leafAt path = some value →
    ((overlaid doc table).leafAt path = some value ∧ dotted [] path ∉ (filter doc.table).2) ∨
      (dotted [] path ∈ (filter doc.table).2 ∧ (filter doc.table).1.leafAt path = none)
  same : (∀ path, Matched path → doc.table.leafAt path = doc'.table.leafAt path) →
    ∀ path, (overlaid doc table).leafAt path = (overlaid doc' table).leafAt path
  unchanged : (∀ path, Matched path → doc.table.leafAt path = none) →
    ∃ ignored, apply format base document = .ok (base, ignored)
  smaller : ∀ config ignored, apply format base document = .ok (config, ignored) →
    (config.preview.enabled → base.preview.enabled) ∧
    config.preview.maxFlows ≤ base.preview.maxFlows ∧
    (config.summary.enabled → base.summary.enabled) ∧
    config.summary.maxFeatures ≤ base.summary.maxFeatures ∧
    config.summary.maxTests ≤ base.summary.maxTests ∧
    config.summary.historyEntries ≤ base.summary.historyEntries ∧
    (config.wireframe.enabled → base.wireframe.enabled) ∧
    config.wireframe.maxScreens ≤ base.wireframe.maxScreens

/-- Every leaf that is applied matches a pattern key by key or repeats the operator's value, and
none stands above or below a setting of the operator's that matches none. -/
structure KeyByKey (table : Table Text σ) (doc : Document σ) : Prop where
  matched : ∀ path value, doc.table.leafAt path = some value → overridable (dotted [] path) →
    Matched path ∨ table.leafAt path = some value
  apart : ∀ path value, doc.table.leafAt path = some value → overridable (dotted [] path) →
    ∀ other, table.leafAt other ≠ none → ¬ Matched other → path ≠ other →
      ¬ path <+: other ∧ ¬ other <+: path

section Isolated

variable {table : Table Text σ} {doc doc' : Document σ}

/-- A leaf of the document is applied exactly when its dotted key is overridable. -/
theorem applied_iff {path : List Text} {value : σ} :
    (filter doc.table).1.leafAt path = some value ↔
      doc.table.leafAt path = some value ∧ overridable (dotted [] path) = true := by
  rw [leafAt_filter]
  split
  case isTrue h => simp [h]
  case isFalse h => simp [h]

theorem settled (table : Table Text σ) (doc : Document σ) {path : List Text} {value : σ}
    (h : doc.table.leafAt path = some value) :
    ((overlaid doc table).leafAt path = some value ∧ dotted [] path ∉ (filter doc.table).2) ∨
      (dotted [] path ∈ (filter doc.table).2 ∧ (filter doc.table).1.leafAt path = none) := by
  cases hover : overridable (dotted [] path) with
  | true =>
    left
    rw [leafAt_overlaid, applied_iff.mpr ⟨h, hover⟩]
    refine ⟨rfl, fun hmem => ?_⟩
    obtain ⟨_, _, _, _, hnot⟩ := (mem_ignored doc).mp hmem
    rw [hover] at hnot
    exact absurd hnot (by simp)
  | false =>
    right
    refine ⟨(mem_ignored doc).mpr ⟨path, value, h, rfl, hover⟩, ?_⟩
    rw [leafAt_filter, hover]
    rfl

/-- The condition is what keeps the operator's settings. -/
theorem agrees_iff : (∀ path, ¬ Matched path →
    (overlaid doc table).leafAt path = table.leafAt path) ↔ KeyByKey table doc := by
  constructor
  · intro h
    refine ⟨fun path value hleaf hover => ?_, fun path value hleaf hover other hother hunmatched
      hne => ?_⟩
    · by_cases hmatched : Matched path
      · exact .inl hmatched
      · right
        rw [← h path hmatched, leafAt_overlaid, applied_iff.mpr ⟨hleaf, hover⟩]
        rfl
    · have hkept := applied_iff.mpr ⟨hleaf, hover⟩
      by_contra hnear
      have hblocks : (filter doc.table).1.Blocks other := by
        refine ⟨path, value, hkept, hne, ?_⟩
        tauto
      have hfound : (filter doc.table).1.leafAt other = none := by
        by_contra hsome
        obtain ⟨value', hsome⟩ := Option.ne_none_iff_exists'.mp hsome
        exact not_blocks_of_leafAt hsome hblocks
      have hagrees := h other hunmatched
      rw [leafAt_overlaid, if_pos hblocks, hfound] at hagrees
      exact hother hagrees.symm
  · intro h path hunmatched
    rw [leafAt_overlaid]
    cases hkept : (filter doc.table).1.leafAt path with
    | some value =>
      obtain ⟨hleaf, hover⟩ := applied_iff.mp hkept
      rcases h.matched path value hleaf hover with hmatched | hbase
      · exact absurd hmatched hunmatched
      · rw [hbase]
        rfl
    | none =>
      split
      case isFalse => rfl
      case isTrue hblocks =>
        obtain ⟨other, value, hother, hne, hnear⟩ := hblocks
        obtain ⟨hleaf, hover⟩ := applied_iff.mp hother
        by_contra hsome
        have hapart := h.apart other value hleaf hover path (fun hnone => hsome hnone.symm)
          hunmatched hne
        tauto

/-- What blocks a setting in one document blocks it in every document of the same matched leaves. -/
theorem blocks_of_same (h : KeyByKey table doc) (hsame : ∀ path, Matched path →
    doc.table.leafAt path = doc'.table.leafAt path) {path : List Text}
    (hbase : table.leafAt path ≠ none) (hblocks : (filter doc.table).1.Blocks path) :
    (filter doc'.table).1.Blocks path := by
  obtain ⟨other, value, hother, hne, hnear⟩ := hblocks
  obtain ⟨hleaf, hover⟩ := applied_iff.mp hother
  rcases h.matched other value hleaf hover with hmatched | hrepeats
  · refine ⟨other, value, applied_iff.mpr ⟨?_, hover⟩, hne, hnear⟩
    rw [← hsame other hmatched]
    exact hleaf
  · -- Two values of the operator's table cannot stand above one another.
    obtain ⟨value', hvalue'⟩ := Option.ne_none_iff_exists'.mp hbase
    exact absurd ⟨other, value, hrepeats, hne, hnear⟩ (not_blocks_of_leafAt hvalue')

theorem same_of_keyByKey (h : KeyByKey table doc) (h' : KeyByKey table doc')
    (hsame : ∀ path, Matched path → doc.table.leafAt path = doc'.table.leafAt path)
    (path : List Text) : (overlaid doc table).leafAt path = (overlaid doc' table).leafAt path := by
  by_cases hmatched : Matched path
  · have hkept : (filter doc.table).1.leafAt path = (filter doc'.table).1.leafAt path := by
      rw [leafAt_filter, leafAt_filter, hsame path hmatched]
    rw [leafAt_overlaid, leafAt_overlaid, hkept]
    by_cases hbase : table.leafAt path = none
    · simp [hbase]
    · have hblocks : (filter doc.table).1.Blocks path ↔ (filter doc'.table).1.Blocks path :=
        ⟨blocks_of_same h hsame hbase,
          blocks_of_same h' (fun path hpath => (hsame path hpath).symm) hbase⟩
      by_cases hblocked : (filter doc.table).1.Blocks path
      · rw [if_pos hblocked, if_pos (hblocks.mp hblocked)]
      · rw [if_neg hblocked, if_neg fun h => hblocked (hblocks.mpr h)]
  · rw [agrees_iff.mpr h path hmatched, agrees_iff.mpr h' path hmatched]

theorem overlaid_eq_self (h : KeyByKey table doc)
    (hnone : ∀ path, Matched path → doc.table.leafAt path = none) :
    overlaid doc table = table := by
  rw [overlaid]
  refine merge_eq_self ?_ ?_ fun path value hkept => ?_
  · rw [filter_eq]
    exact filterKept_unique doc.unique []
  · rw [filter_eq]
    exact filterKept_pruned doc.table []
  · obtain ⟨hleaf, hover⟩ := applied_iff.mp hkept
    rcases h.matched path value hleaf hover with hmatched | hrepeats
    · rw [hnone path hmatched] at hleaf
      exact absurd hleaf (by simp)
    · exact hrepeats

@[simp] theorem clamped_self (base : Config ρ) : clamped base base = base := by
  simp [clamped]

theorem apply_eq {format : Format σ ρ} {base : Config ρ} {document : Text}
    (hparse : format.parse document = .ok doc) (hwrite : format.write base = .ok table) :
    apply format base document =
      (format.read (overlaid doc table)).mapError (fun err =>
        "the merged configuration is not valid: ".toList ++ err) >>= fun config =>
      if (format.validate (clamped base config)).isEmpty then
        .ok (clamped base config, (filter doc.table).2)
      else .error ("the repository's config is not usable:\n".toList ++
        ['\n'].intercalate ((format.validate (clamped base config)).map fun problem =>
          "  - ".toList ++ problem)) := by
  have hok : ∀ {α β ε : Type} (f : ε → ε) (a : α) (g : α → Except ε β),
      ((Except.ok a).mapError f >>= g) = g a := fun _ _ _ => rfl
  simp only [apply, hparse, hwrite, overlaid, hok]
  rfl

/-- Two documents leave the operator's settings alone exactly when both are applied key by key. -/
theorem isolated_iff {format : Format σ ρ} {base : Config ρ} {document : Text}
    (hparse : format.parse document = .ok doc) (hwrite : format.write base = .ok table)
    (hread : format.read table = .ok base) (hvalid : format.validate base = []) :
    Isolated format base table document doc doc' ↔
      KeyByKey table doc ∧ KeyByKey table doc' := by
  constructor
  · intro h
    exact ⟨agrees_iff.mp fun path hpath => (h.agrees path hpath).1,
      agrees_iff.mp fun path hpath => (h.agrees path hpath).2⟩
  · rintro ⟨h, h'⟩
    refine ⟨fun path hpath => ⟨agrees_iff.mpr h path hpath, agrees_iff.mpr h' path hpath⟩,
      fun path value hleaf => settled table doc hleaf, same_of_keyByKey h h', fun hnone => ?_,
      fun config ignored happly => ?_⟩
    · refine ⟨(filter doc.table).2, ?_⟩
      rw [apply_eq hparse hwrite, overlaid_eq_self h hnone, hread]
      simp [Except.mapError, hvalid, bind, Except.bind]
    · rw [apply_eq hparse hwrite] at happly
      cases hconfig : format.read (overlaid doc table) with
      | error err => simp [hconfig, Except.mapError, bind, Except.bind] at happly
      | ok read =>
        rw [hconfig] at happly
        simp only [Except.mapError, bind, Except.bind] at happly
        split at happly
        case isFalse => exact absurd happly (by simp)
        case isTrue =>
          obtain ⟨rfl, -⟩ := Prod.mk.inj (Except.ok.inj happly)
          simp [clamped]

end Isolated

/-- Switches and maxima. -/
abbrev Setting := Bool ⊕ ℕ

def sectionOf (entries : List (String × Setting)) : Table Text Setting :=
  entries.foldr (fun entry rest => .leaf entry.1.toList entry.2 rest) .nil

def writeSections (c : Config Unit) : Table Text Setting :=
  .table "preview".toList
    (sectionOf [("enabled", .inl c.preview.enabled), ("max_flows", .inr c.preview.maxFlows)])
  (.table "summary".toList
    (sectionOf [("enabled", .inl c.summary.enabled), ("max_features", .inr c.summary.maxFeatures),
      ("max_tests", .inr c.summary.maxTests),
      ("history_entries", .inr c.summary.historyEntries)])
  (.table "wireframe".toList
    (sectionOf [("enabled", .inl c.wireframe.enabled),
      ("max_screens", .inr c.wireframe.maxScreens)]) .nil))

def switchAt (t : Table Text Setting) (path : List String) : Except Text Bool :=
  match t.leafAt (path.map String.toList) with
  | some (.inl enabled) => .ok enabled
  | _ => .error "expected a boolean".toList

def maximumAt (t : Table Text Setting) (path : List String) : Except Text ℕ :=
  match t.leafAt (path.map String.toList) with
  | some (.inr maximum) => .ok maximum
  | _ => .error "expected an integer".toList

def readSections (t : Table Text Setting) : Except Text (Config Unit) := do
  let preview := ⟨← switchAt t ["preview", "enabled"], ← maximumAt t ["preview", "max_flows"]⟩
  let summary := ⟨← switchAt t ["summary", "enabled"], ← maximumAt t ["summary", "max_features"],
    ← maximumAt t ["summary", "max_tests"], ← maximumAt t ["summary", "history_entries"]⟩
  let wireframe :=
    ⟨← switchAt t ["wireframe", "enabled"], ← maximumAt t ["wireframe", "max_screens"]⟩
  return ⟨preview, summary, wireframe, ()⟩

def operators : Config Unit := ⟨⟨true, 4⟩, ⟨true, 6, 6, 10⟩, ⟨true, 8⟩, ()⟩

/-- Every text is read as the one document. -/
def sections (doc : Document Setting) : Format Setting Unit :=
  ⟨fun _ => .ok doc, fun c => .ok (writeSections c), readSections, fun _ => []⟩

/-- A quoted key that spells an overridable one. -/
def quotedDocument : Document Setting :=
  ⟨.leaf "preview.max_flows".toList (.inr 2) .nil, rfl, trivial⟩

instance (path : List Text) : Decidable (Matched path) :=
  inferInstanceAs (Decidable (∃ pattern ∈ OVERRIDABLE_KEYS,
    segmentsMatch (pattern.splitOn '.') path = true))

/-- A quoted key with a dot passes the filter and is merged beside the operator's sections. -/
theorem quoted_key_escapes : ¬ ∀ (format : Format Setting Unit) (base : Config Unit)
    (table : Table Text Setting) (document : Text) (doc doc' : Document Setting),
    format.parse document = .ok doc → format.write base = .ok table →
    format.read table = .ok base → format.validate base = [] →
    Isolated format base table document doc doc' := by
  intro hall
  have h := hall (sections quotedDocument) operators (writeSections operators) [] quotedDocument
    quotedDocument rfl rfl (by decide +kernel) rfl
  have hagrees := (h.agrees ["preview.max_flows".toList] (by decide +kernel)).1
  have happlied : (overlaid quotedDocument (writeSections operators)).leafAt
      ["preview.max_flows".toList] = some (.inr 2) := by decide +kernel
  have hbase : (writeSections operators).leafAt ["preview.max_flows".toList] = none := by
    decide +kernel
  rw [happlied, hbase] at hagrees
  exact absurd hagrees (by simp)

/-- Fewer flows than the operator allows, in a section of its own. -/
def flowsDocument : Document Setting :=
  ⟨.table "preview".toList (.leaf "max_flows".toList (.inr 2) .nil) .nil, rfl, ⟨rfl, trivial⟩,
    trivial⟩

theorem flowsDocument_keyByKey : KeyByKey (writeSections operators) flowsDocument := by
  have hleaf : ∀ path value, flowsDocument.table.leafAt path = some value →
      path = ["preview".toList, "max_flows".toList] := by
    intro path value h
    rcases (leafAt_table rfl).mp h with ⟨below, rfl, hbelow⟩ | hrest
    · rcases (leafAt_leaf rfl).mp hbelow with ⟨rfl, -⟩ | hrest
      · rfl
      · exact absurd hrest (by simp)
    · exact absurd hrest (by simp)
  have hsetting : (writeSections operators).leafAt ["preview".toList, "max_flows".toList] =
      some (.inr 4) := by decide +kernel
  refine ⟨fun path value h _ => .inl ?_, fun path value h _ other hother _ hne => ?_⟩
  · rw [hleaf path value h]
    decide +kernel
  · obtain ⟨found, hfound⟩ := Option.ne_none_iff_exists'.mp hother
    have hfree := not_blocks_of_leafAt hsetting
    rw [← hleaf path value h] at hfree
    constructor
    · exact fun hnear => hfree ⟨other, found, hfound, Ne.symm hne, .inr hnear⟩
    · exact fun hnear => hfree ⟨other, found, hfound, Ne.symm hne, .inl hnear⟩

theorem flows_isolated : Isolated (sections flowsDocument) operators (writeSections operators) []
    flowsDocument flowsDocument :=
  (isolated_iff rfl rfl (by decide +kernel) rfl).mpr
    ⟨flowsDocument_keyByKey, flowsDocument_keyByKey⟩

end TinySweeper.Remote
