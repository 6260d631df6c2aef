import TinySweeper.Lanes.Components

/-!
# Groups are the bounded components

Two files belong together when a chain of graph edges and related names joins
them; `group` returns these components, whole or file by file.
-/

namespace TinySweeper.Lanes

open Text Evidence UnionFind Classes

inductive Linked (graph : Option Neighbourhood) (paths : List Text) : Text → Text → Prop
  | named {p q : Text} (hp : p ∈ paths) (hq : q ∈ paths) (hnames : areSiblings p q = true) :
    Linked graph paths p q
  | edge {g : Neighbourhood} {edge : GraphEdge} {source target : GraphNode}
    (hgraph : graph = some g) (hedge : edge ∈ g.edges) (hkind : edge.kind.relates = true)
    (hsource : source ∈ g.nodes) (hsourceId : source.id = edge.source)
    (htarget : target ∈ g.nodes) (htargetId : target.id = edge.target)
    (hp : source.path ∈ paths) (hq : target.path ∈ paths) :
    Linked graph paths source.path target.path

def SameComponent (graph : Option Neighbourhood) (paths : List Text) : Text → Text → Prop :=
  Relation.EqvGen (Linked graph paths)

noncomputable instance (graph : Option Neighbourhood) (paths : List Text) :
    DecidableRel (SameComponent graph paths) := fun _ _ => Classical.propDecidable _

theorem sameComponent_equivalence (graph : Option Neighbourhood) (paths : List Text) :
    Equivalence (SameComponent graph paths) := Relation.EqvGen.is_equivalence _

/-- The files that belong with `p`, in triage order. -/
noncomputable def componentOf (graph : Option Neighbourhood) (paths : List Text) (p : Text) :
    List Text := paths.filter fun q => decide (SameComponent graph paths p q)

theorem testPair_comm (extension : String) (testStem : Text → Option Text) (a b : Text) :
    testPair extension testStem a b = testPair extension testStem b a := by
  unfold testPair
  cases stripSuffix extension.toList a with
  | none => cases stripSuffix extension.toList b <;> rfl
  | some stemA =>
    cases stripSuffix extension.toList b with
    | none => rfl
    | some stemB => exact Bool.or_comm _ _

theorem testSiblings_comm (a b : Text) : testSiblings a b = testSiblings b a := by
  simp only [testSiblings, testPair_comm _ _ (splitDirFile a).2,
    BEq.comm (a := (splitDirFile a).1)]

theorem localeSiblings_comm (a b : Text) : localeSiblings a b = localeSiblings b a := by
  unfold localeSiblings
  generalize splitDirFile a = left
  generalize splitDirFile b = right
  obtain ⟨dirA, fileA⟩ := left
  obtain ⟨dirB, fileB⟩ := right
  dsimp only
  by_cases hdir : dirA = dirB
  · subst hdir
    rw [bne_comm (a := fileA), BEq.comm (a := extensionOf fileA)]
    congr 1
    cases localeSegment fileA <;> cases localeSegment fileB <;>
      grind
  · have hdir' : (dirA == dirB) = false := by simpa using hdir
    have hdir'' : (dirB == dirA) = false := by simpa using Ne.symm hdir
    rw [hdir', hdir'']
    rfl

theorem sameStemDifferentExtension_comm (a b : Text) :
    sameStemDifferentExtension a b = sameStemDifferentExtension b a := by
  unfold sameStemDifferentExtension
  generalize splitDirFile a = left
  generalize splitDirFile b = right
  obtain ⟨dirA, fileA⟩ := left
  obtain ⟨dirB, fileB⟩ := right
  dsimp only
  rw [BEq.comm (a := dirA), bne_comm (a := fileA)]
  congr 1
  cases rootAndRest fileA with
  | none => cases rootAndRest fileB <;> rfl
  | some splitA =>
    cases rootAndRest fileB with
    | none => rfl
    | some splitB =>
      obtain ⟨rootA, restA⟩ := splitA
      obtain ⟨rootB, restB⟩ := splitB
      dsimp only
      rw [Bool.or_comm]
      by_cases hroot : rootA = rootB
      · rw [hroot]
      · have hroot' : (rootA == rootB) = false := by simpa using hroot
        have hroot'' : (rootB == rootA) = false := by simpa using Ne.symm hroot
        rw [hroot', hroot'', Bool.and_false, Bool.and_false]

theorem areSiblings_comm (a b : Text) : areSiblings a b = areSiblings b a := by
  rw [areSiblings, testSiblings_comm, localeSiblings_comm, sameStemDifferentExtension_comm]
  rfl

theorem mem_of_collected {α β : Type*} [BEq α] [LawfulBEq α] {entries : List (α × β)} {key : α}
    {value : β} (h : collected entries key = some value) : (key, value) ∈ entries := by
  obtain ⟨before, after, heq, -⟩ := List.lookup_eq_some_iff.mp h
  rw [← List.mem_reverse, heq]
  exact List.mem_append_right _ List.mem_cons_self

theorem collected_isSome {α β : Type*} [BEq α] [LawfulBEq α] {entries : List (α × β)} {key : α}
    {value : β} (h : (key, value) ∈ entries) : ∃ value', collected entries key = some value' := by
  cases hfound : collected entries key with
  | some value' => exact ⟨value', rfl⟩
  | none =>
    have hnone := List.lookup_eq_none_iff.mp hfound (key, value) (List.mem_reverse.mpr h)
    simp at hnone

theorem pathOf_of_mem {graph : Neighbourhood} (hids : graph.UniqueIds) {node : GraphNode}
    (hnode : node ∈ graph.nodes) : graph.pathOf node.id = some node.path := by
  obtain ⟨path, hpath⟩ := collected_isSome (List.mem_map_of_mem (f := fun node : GraphNode =>
    (node.id, node.path)) hnode)
  obtain ⟨other, hother, heq⟩ := List.mem_map.mp (mem_of_collected hpath)
  obtain ⟨hid, hpath'⟩ := Prod.mk.inj heq
  rw [Neighbourhood.pathOf, hpath, ← hpath', hids other hother node hnode hid]

theorem exists_of_pathOf {graph : Neighbourhood} {id path : Text}
    (h : graph.pathOf id = some path) : ∃ node ∈ graph.nodes, node.id = id ∧ node.path = path := by
  obtain ⟨node, hnode, heq⟩ := List.mem_map.mp (mem_of_collected h)
  exact ⟨node, hnode, Prod.mk.inj heq⟩

theorem getElem?_of_indexOf {paths : List Text} {p : Text} {i : ℕ}
    (h : indexOf paths p = some i) : paths[i]? = some p := by
  have hmem := mem_of_collected h
  exact List.mem_zipIdx_iff_getElem?.mp hmem

theorem indexOf_of_mem {paths : List Text} (hnodup : paths.Nodup) {p : Text} (hp : p ∈ paths) :
    indexOf paths p = some (paths.idxOf p) := by
  have hlt := List.idxOf_lt_length_iff.mpr hp
  have hentry : (p, paths.idxOf p) ∈ paths.zipIdx := by
    rw [List.mem_zipIdx_iff_getElem?, List.getElem?_eq_getElem hlt, List.getElem_idxOf hlt]
  obtain ⟨i, hi⟩ := collected_isSome hentry
  obtain ⟨hlt', heq⟩ := List.getElem?_eq_some_iff.mp (getElem?_of_indexOf hi)
  rw [indexOf, hi, ← heq, hnodup.idxOf_getElem i hlt']

section Joined

variable {graph : Option Neighbourhood} {paths : List Text}

def joined (graph : Option Neighbourhood) (paths : List Text) : List (ℕ × ℕ) :=
  graphPairs graph paths ++ siblingPairs paths

def pathAt (paths : List Text) (i : ℕ) : Text := paths.getD i []

theorem pathAt_of_getElem? {i : ℕ} {p : Text} (h : paths[i]? = some p) : pathAt paths i = p := by
  rw [pathAt, List.getD_eq_getElem?_getD, h]
  rfl

theorem mem_siblingPairs {i j : ℕ} : (i, j) ∈ siblingPairs paths ↔
    i < j ∧ ∃ p q, paths[i]? = some p ∧ paths[j]? = some q ∧ areSiblings p q = true := by
  simp only [siblingPairs, List.mem_flatMap, List.mem_map, List.mem_filter, Prod.exists,
    List.mem_zipIdx_iff_getElem?, Prod.mk.injEq, Bool.and_eq_true, decide_eq_true_eq]
  constructor
  · rintro ⟨p, i', hp, q, j', ⟨hq, hlt, hnames⟩, rfl, rfl⟩
    exact ⟨hlt, p, q, hp, hq, hnames⟩
  · rintro ⟨hlt, p, q, hp, hq, hnames⟩
    exact ⟨p, i, hp, q, j, ⟨hq, hlt, hnames⟩, rfl, rfl⟩

/-- What an edge joins: the positions of two changed files it connects. -/
theorem edgePair_eq_some {g : Neighbourhood} {edge : GraphEdge} {i j : ℕ}
    (h : edgePair g paths edge = some (i, j)) :
    edge.kind.relates = true ∧ ∃ source target, g.pathOf edge.source = some source ∧
      g.pathOf edge.target = some target ∧ paths[i]? = some source ∧ paths[j]? = some target := by
  unfold edgePair at h
  split at h
  case isTrue => exact absurd h (by simp)
  case isFalse hkind =>
    split at h
    case h_2 => exact absurd h (by simp)
    case h_1 source target hsource htarget =>
      split at h
      case isTrue => exact absurd h (by simp)
      case isFalse =>
        split at h
        case h_2 => exact absurd h (by simp)
        case h_1 a b ha hb =>
          obtain ⟨rfl, rfl⟩ := Prod.mk.inj (Option.some.inj h)
          exact ⟨by simpa using hkind, source, target, hsource, htarget,
            getElem?_of_indexOf ha, getElem?_of_indexOf hb⟩

/-- Joined positions hold linked files. -/
theorem linked_of_joined {i j : ℕ} (h : (i, j) ∈ joined graph paths) :
    ∃ p q, paths[i]? = some p ∧ paths[j]? = some q ∧ Linked graph paths p q := by
  rcases List.mem_append.mp h with hedge | hnames
  · cases hgraph : graph with
    | none =>
      rw [hgraph] at hedge
      exact absurd hedge List.not_mem_nil
    | some g =>
      rw [hgraph] at hedge
      obtain ⟨edge, hmem, hpair⟩ := List.mem_filterMap.mp hedge
      obtain ⟨hkind, p, q, hp, hq, hi, hj⟩ := edgePair_eq_some hpair
      obtain ⟨source, hsource, hsourceId, rfl⟩ := exists_of_pathOf hp
      obtain ⟨target, htarget, htargetId, rfl⟩ := exists_of_pathOf hq
      exact ⟨_, _, hi, hj, .edge rfl hmem hkind hsource hsourceId htarget htargetId
        (List.mem_of_getElem? hi) (List.mem_of_getElem? hj)⟩
  · obtain ⟨-, p, q, hi, hj, hsiblings⟩ := mem_siblingPairs.mp hnames
    exact ⟨p, q, hi, hj, .named (List.mem_of_getElem? hi) (List.mem_of_getElem? hj) hsiblings⟩

theorem getElem?_idxOf {p : Text} (hp : p ∈ paths) : paths[paths.idxOf p]? = some p := by
  have hlt := List.idxOf_lt_length_iff.mpr hp
  rw [List.getElem?_eq_getElem hlt, List.getElem_idxOf hlt]

/-- Linked files are at joined positions. -/
theorem connected_of_linked (hnodup : paths.Nodup) (hids : ∀ g ∈ graph, g.UniqueIds)
    {p q : Text} (h : Linked graph paths p q) :
    Connected (joined graph paths) (paths.idxOf p) (paths.idxOf q) := by
  cases h with
  | named hp hq hnames =>
    rcases lt_trichotomy (paths.idxOf p) (paths.idxOf q) with hlt | heq | hgt
    · refine .rel _ _ (List.mem_append_right _ (mem_siblingPairs.mpr ⟨hlt, p, q, ?_⟩))
      exact ⟨getElem?_idxOf hp, getElem?_idxOf hq, hnames⟩
    · rw [heq]
      exact .refl _
    · refine .symm _ _ (.rel _ _ (List.mem_append_right _
        (mem_siblingPairs.mpr ⟨hgt, q, p, ?_⟩)))
      exact ⟨getElem?_idxOf hq, getElem?_idxOf hp, (areSiblings_comm q p).trans hnames⟩
  | @edge g edge source target hgraph hedge hkind hsource hsourceId htarget htargetId hp hq =>
    have hunique := hids g hgraph
    by_cases hsame : source.path = target.path
    · rw [hsame]
      exact .refl _
    · refine .rel _ _ (List.mem_append_left _ ?_)
      rw [hgraph]
      refine List.mem_filterMap.mpr ⟨edge, hedge, ?_⟩
      simp only [edgePair, hkind, Bool.not_true, Bool.false_eq_true, if_false, ← hsourceId,
        ← htargetId, pathOf_of_mem hunique hsource, pathOf_of_mem hunique htarget, hsame,
        indexOf_of_mem hnodup hp, indexOf_of_mem hnodup hq]

theorem sameComponent_of_connected {i j : ℕ} (h : Connected (joined graph paths) i j) :
    SameComponent graph paths (pathAt paths i) (pathAt paths j) := by
  induction h with
  | rel i j hpair =>
    obtain ⟨p, q, hp, hq, hlinked⟩ := linked_of_joined hpair
    rw [pathAt_of_getElem? hp, pathAt_of_getElem? hq]
    exact .rel _ _ hlinked
  | refl => exact .refl _
  | symm _ _ _ ih => exact .symm _ _ ih
  | trans _ _ _ _ _ ih₁ ih₂ => exact .trans _ _ _ ih₁ ih₂

theorem connected_iff (hnodup : paths.Nodup) (hids : ∀ g ∈ graph, g.UniqueIds) {i j : ℕ}
    (hi : i < paths.length) (hj : j < paths.length) : Connected (joined graph paths) i j ↔
      SameComponent graph paths (pathAt paths i) (pathAt paths j) := by
  constructor
  · exact sameComponent_of_connected
  · have hrun : ∀ {p q}, SameComponent graph paths p q →
        Connected (joined graph paths) (paths.idxOf p) (paths.idxOf q) := by
      intro p q h
      induction h with
      | rel p q hlinked => exact connected_of_linked hnodup hids hlinked
      | refl => exact .refl _
      | symm _ _ _ ih => exact .symm _ _ ih
      | trans _ _ _ _ _ ih₁ ih₂ => exact .trans _ _ _ ih₁ ih₂
    have hindex : ∀ {i}, i < paths.length → paths.idxOf (pathAt paths i) = i := by
      intro i hi
      rw [pathAt_of_getElem? (List.getElem?_eq_getElem hi), hnodup.idxOf_getElem i hi]
    intro h
    have hconnected := hrun h
    rwa [hindex hi, hindex hj] at hconnected

/-- The components in triage order are the classes of the joined positions. -/
theorem orderedComponents_eq (graph : Option Neighbourhood) (paths : List Text) :
    ∃ root : ℕ → ℕ, Partitions root (joined graph paths) ∧ orderedComponents paths graph =
      classes (fun i j => root i = root j) (List.range paths.length) := by
  have hpairs : ∀ pair ∈ joined graph paths, pair.1 < paths.length ∧ pair.2 < paths.length := by
    rintro ⟨i, j⟩ hpair
    obtain ⟨p, q, hp, hq, -⟩ := linked_of_joined hpair
    exact ⟨(List.getElem?_eq_some_iff.mp hp).1, (List.getElem?_eq_some_iff.mp hq).1⟩
  obtain ⟨hlength, root, depth, hforest, hpartitions⟩ := unionAll_spec _ hpairs
  refine ⟨root, hpartitions, ?_⟩
  have hcomponents := components_eq hforest
  rw [hlength] at hcomponents
  rw [orderedComponents]
  exact (congrArg _ (congrArg _ hcomponents)).trans (sorted_table root paths.length)

end Joined

section Group

variable (highEntropy : Text → Bool) {paths : List Text} (diffs : List FileDiff)
variable {graph : Option Neighbourhood} (bounds : GroupBounds)

def groupOf (members : List Text) : FileGroup := ⟨" + ".toList.intercalate members, members⟩

theorem groupsOf_eq (members : List Text) : groupsOf highEntropy diffs bounds members =
    (pieces (fits highEntropy diffs bounds) members).map groupOf := by
  unfold groupsOf pieces
  split
  · rfl
  · rw [List.map_map]
    refine List.map_congr_left fun path _ => ?_
    simp [groupOf]

theorem map_pathAt_range (paths : List Text) :
    (List.range paths.length).map (pathAt paths) = paths := by
  refine List.ext_getElem (by simp) fun i _ hi => ?_
  rw [List.getElem_map, List.getElem_range]
  exact pathAt_of_getElem? (List.getElem?_eq_getElem hi)

/-- `group` returns the components of the changed files, whole or file by file. -/
theorem group_eq (hnodup : paths.Nodup) (hids : ∀ g ∈ graph, g.UniqueIds) :
    group highEntropy paths diffs graph bounds =
      (bounded (SameComponent graph paths) (fits highEntropy diffs bounds) paths).map
        groupOf := by
  obtain ⟨root, hpartitions, hordered⟩ := orderedComponents_eq graph paths
  have hclasses : classes (SameComponent graph paths) paths =
      (orderedComponents paths graph).map (List.map (pathAt paths)) := by
    have hmap := @classes_map _ _ (SameComponent graph paths) _ (pathAt paths)
      (List.range paths.length)
    rw [map_pathAt_range] at hmap
    rw [hmap, hordered]
    refine congrArg _ (classes_congr fun i hi j hj => ?_)
    exact (connected_iff hnodup hids (List.mem_range.mp hi) (List.mem_range.mp hj)).symm.trans
      (hpartitions i j).symm
  have hmembers : ∀ members ∈ orderedComponents paths graph,
      members.filterMap (fun i => paths[i]?) = members.map (pathAt paths) := by
    intro members hmembers
    rw [hordered] at hmembers
    rw [← List.filterMap_eq_map]
    refine List.filterMap_congr fun i hi => ?_
    have hrange := (classes_perm _).mem_iff.mp (List.mem_flatten.mpr ⟨members, hmembers, hi⟩)
    have hlt := List.mem_range.mp hrange
    rw [List.getElem?_eq_getElem hlt]
    exact congrArg some (pathAt_of_getElem? (List.getElem?_eq_getElem hlt)).symm
  have hgroups : (orderedComponents paths graph).flatMap (fun members =>
      groupsOf highEntropy diffs bounds (members.filterMap fun i => paths[i]?)) =
      (bounded (SameComponent graph paths) (fits highEntropy diffs bounds) paths).map
        groupOf := by
    rw [bounded, hclasses, List.flatMap_map, List.map_flatMap]
    refine List.flatMap_congr fun members hmem => ?_
    rw [groupsOf_eq, hmembers members hmem]
  unfold group
  split
  case isTrue hempty =>
    rw [List.isEmpty_iff.mp hempty]
    simp [bounded, classes]
  case isFalse => exact hgroups

def Neighbourhood.Reordered (a b : Neighbourhood) : Prop :=
  a.nodes.Perm b.nodes ∧ a.edges.Perm b.edges

theorem Linked.reordered {other : Option Neighbourhood}
    (h : Option.Rel Neighbourhood.Reordered graph other) {p q : Text}
    (hlinked : Linked graph paths p q) : Linked other paths p q := by
  cases hlinked with
  | named hp hq hnames => exact .named hp hq hnames
  | edge hgraph hedge hkind hsource hsourceId htarget htargetId hp hq =>
    subst hgraph
    cases h with
    | some hreordered =>
      obtain ⟨hnodes, hedges⟩ := hreordered
      exact .edge rfl (hedges.mem_iff.mp hedge) hkind (hnodes.mem_iff.mp hsource) hsourceId
        (hnodes.mem_iff.mp htarget) htargetId hp hq

theorem reordered_symm {other : Option Neighbourhood}
    (h : Option.Rel Neighbourhood.Reordered graph other) :
    Option.Rel Neighbourhood.Reordered other graph := by
  cases h with
  | some hreordered => exact .some ⟨hreordered.1.symm, hreordered.2.symm⟩
  | none => exact .none

theorem group_reordered (hnodup : paths.Nodup) (hids : ∀ g ∈ graph, g.UniqueIds)
    {other : Option Neighbourhood} (h : Option.Rel Neighbourhood.Reordered graph other) :
    group highEntropy paths diffs other bounds = group highEntropy paths diffs graph bounds := by
  have hids' : ∀ g ∈ other, g.UniqueIds := by
    rintro g rfl
    cases h with
    | some hreordered =>
      intro a ha b hb
      exact hids _ rfl a (hreordered.1.mem_iff.mpr ha) b (hreordered.1.mem_iff.mpr hb)
  rw [group_eq highEntropy diffs bounds hnodup hids, group_eq highEntropy diffs bounds hnodup hids',
    bounded, bounded]
  have hsame : ∀ p ∈ paths, ∀ q ∈ paths,
      SameComponent other paths p q ↔ SameComponent graph paths p q := fun p _ q _ =>
    ⟨Relation.EqvGen.mono (fun _ _ hlinked => hlinked.reordered (reordered_symm h)) p q,
      Relation.EqvGen.mono (fun _ _ hlinked => hlinked.reordered h) p q⟩
  rw [classes_congr hsame]

/-- What grouping is for: bounded components, in triage order. -/
structure Grouped (paths : List Text) (diffs : List FileDiff) (graph : Option Neighbourhood)
    (bounds : GroupBounds) : Prop where
  once : ((group highEntropy paths diffs graph bounds).flatMap FileGroup.paths).Perm paths
  together : ∀ p ∈ paths, ∀ q ∈ paths, p ≠ q →
    ((∃ g ∈ group highEntropy paths diffs graph bounds, p ∈ g.paths ∧ q ∈ g.paths) ↔
      SameComponent graph paths p q ∧
        fits highEntropy diffs bounds (componentOf graph paths p) = true)
  alone : ∀ g ∈ group highEntropy paths diffs graph bounds, ∀ p ∈ g.paths,
    fits highEntropy diffs bounds (componentOf graph paths p) = false → g.paths = [p]
  unordered : ∀ other, Option.Rel Neighbourhood.Reordered graph other →
    group highEntropy paths diffs other bounds = group highEntropy paths diffs graph bounds
  triage : ((group highEntropy paths diffs graph bounds).filterMap fun g =>
    g.paths.head?).Sublist paths

/-- No component that does not fit reaches around the first file of another. -/
def SplitsInPlace (paths : List Text) (diffs : List FileDiff) (graph : Option Neighbourhood)
    (bounds : GroupBounds) : Prop :=
  ∀ p x q, [p, x, q].Sublist paths → SameComponent graph paths p q →
    fits highEntropy diffs bounds (componentOf graph paths p) = false →
      ∃ y, [y, x].Sublist paths ∧ SameComponent graph paths y x

theorem group_grouped_iff (hnodup : paths.Nodup) (hids : ∀ g ∈ graph, g.UniqueIds) :
    Grouped highEntropy paths diffs graph bounds ↔
      SplitsInPlace highEntropy paths diffs graph bounds := by
  have hgroup := group_eq highEntropy diffs bounds hnodup hids
  have hequiv := sameComponent_equivalence graph paths
  have hheads : ((group highEntropy paths diffs graph bounds).filterMap fun g =>
      g.paths.head?) = (bounded (SameComponent graph paths)
        (fits highEntropy diffs bounds) paths).filterMap List.head? := by
    rw [hgroup, List.filterMap_map]
    rfl
  have htriage := @heads_sublist_iff _ _ _ (fits highEntropy diffs bounds) _ _ hequiv hnodup
  constructor
  · intro h
    have hsublist := h.triage
    rw [hheads] at hsublist
    exact htriage.mp hsublist
  · intro h
    refine ⟨?_, fun p hp q hq hne => ?_, fun g hg p hp hunfit => ?_,
      fun other hother => group_reordered highEntropy diffs bounds hnodup hids hother, ?_⟩
    · rw [hgroup, List.flatMap_map]
      simp only [groupOf, List.flatMap_id']
      exact bounded_perm paths
    · refine Iff.trans ?_ (together_iff hequiv hp hq hne)
      rw [hgroup]
      simp [groupOf]
    · rw [hgroup] at hg
      obtain ⟨members, hmembers, rfl⟩ := List.mem_map.mp hg
      exact alone hequiv hunfit hmembers hp
    · rw [hheads]
      exact htriage.mpr h

end Group

/-- A file and its test, joined by an edge as well. -/
theorem group_grouped_pair : Grouped (fun _ => false) ["a.rs".toList, "a_test.rs".toList] []
    (some ⟨[⟨"t".toList, "a_test.rs".toList⟩, ⟨"f".toList, "a.rs".toList⟩],
      [⟨"t".toList, "f".toList, .tests⟩]⟩) ⟨2, 12000⟩ := by
  refine (group_grouped_iff (fun _ => false) [] ⟨2, 12000⟩ (by decide) ?_).mpr ?_
  · rintro g ⟨⟩
    unfold Neighbourhood.UniqueIds
    decide
  · intro p x q hsublist
    exact absurd hsublist.length_le (by simp)

/-- Three files that may not travel together leave the file between them behind. -/
theorem group_not_triaged : ¬ ∀ (highEntropy : Text → Bool) (paths : List Text)
    (diffs : List FileDiff) (graph : Option Neighbourhood) (bounds : GroupBounds),
    paths.Nodup → (∀ g ∈ graph, g.UniqueIds) → Grouped highEntropy paths diffs graph bounds := by
  intro hgrouped
  have hfour := hgrouped (fun _ => false) (["src/a.rs", "src/x.rs", "src/a_test.rs",
    "src/a_tests.rs"].map String.toList) (["src/a.rs", "src/x.rs", "src/a_test.rs",
    "src/a_tests.rs"].map fun path => ⟨path.toList, [], ∅⟩) none ⟨2, 12000⟩
    (by decide) (by rintro g ⟨⟩)
  have htriage := hfour.triage
  have hheads : (group (fun _ => false) (["src/a.rs", "src/x.rs", "src/a_test.rs",
      "src/a_tests.rs"].map String.toList) (["src/a.rs", "src/x.rs", "src/a_test.rs",
      "src/a_tests.rs"].map fun path => ⟨path.toList, [], ∅⟩) none ⟨2, 12000⟩).filterMap
      (fun g => g.paths.head?) = ["src/a.rs", "src/a_test.rs", "src/a_tests.rs",
      "src/x.rs"].map String.toList := by decide +kernel
  rw [hheads] at htriage
  exact absurd htriage (by decide)

end TinySweeper.Lanes
