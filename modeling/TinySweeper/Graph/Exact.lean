import TinySweeper.Graph.Dependents

/-!
# The report is exact

Every dependent counts once, with its strongest relation; the cap is shared between
the relations, and within one it keeps the smallest ids.
-/

namespace TinySweeper.Graph

open RoundRobin
open Std (TreeMap TreeSet TransOrd LawfulEqOrd ReflCmp)

section Queues

variable {strongest : TreeMap Text Relation} {id : Text} {relation : Relation}

/-- The dependents of one relation, in the order of their ids. -/
def idsOf (strongest : TreeMap Text Relation) (relation : Relation) : List Text :=
  (strongest.toList.filter fun entry => entry.2 = relation).map Prod.fst

theorem mem_idsOf : id ∈ idsOf strongest relation ↔ strongest[id]? = some relation := by
  simp only [idsOf, List.mem_map, List.mem_filter, decide_eq_true_eq, Prod.exists]
  constructor
  · rintro ⟨id, other, ⟨hmem, rfl⟩, rfl⟩
    exact TreeMap.mem_toList_iff_getElem?_eq_some.mp hmem
  · exact fun hid => ⟨id, relation, ⟨TreeMap.mem_toList_iff_getElem?_eq_some.mpr hid, rfl⟩, rfl⟩

theorem ne_of_compare {a b : Text} (h : compare a b = .lt) : a ≠ b := by
  rintro rfl
  have hsame : compare a a = .eq := ReflCmp.compare_self
  rw [hsame] at h
  cases h

theorem idsOf_sorted (strongest : TreeMap Text Relation) (relation : Relation) :
    (idsOf strongest relation).Pairwise fun a b => compare a b = .lt :=
  List.pairwise_map.mpr (TreeMap.ordered_keys_toList.sublist List.filter_sublist)

theorem getD_queuesOf (strongest : TreeMap Text Relation) (relation : Relation) :
    (queuesOf strongest)[relation]?.getD [] = idsOf strongest relation := by
  have hfold : ∀ (entries : List (Text × Relation)) (queues : TreeMap Relation (List Text)),
      (entries.foldl (fun queues entry =>
        queues.alter entry.2 fun ids => some (ids.getD [] ++ [entry.1])) queues)[relation]?.getD [] =
        queues[relation]?.getD [] ++
          (entries.filter fun entry => entry.2 = relation).map Prod.fst := by
    intro entries
    induction entries with
    | nil => simp
    | cons entry entries ih =>
      intro queues
      rw [List.foldl_cons, ih, TreeMap.getElem?_alter, List.filter_cons]
      by_cases hsame : entry.2 = relation
      · rw [if_pos (Std.LawfulEqCmp.compare_eq_iff_eq.mpr hsame), hsame]
        simp
      · rw [if_neg (mt Std.LawfulEqCmp.compare_eq_iff_eq.mp hsame)]
        simp [hsame]
  rw [queuesOf, TreeMap.foldl_eq_foldl_toList, hfold, TreeMap.getElem?_emptyc]
  rfl

theorem mem_queuesOf {ids : List Text} (h : (relation, ids) ∈ (queuesOf strongest).toList) :
    ids = idsOf strongest relation := by
  rw [← getD_queuesOf, TreeMap.mem_toList_iff_getElem?_eq_some.mp h]
  rfl

theorem idsOf_mem_queuesOf (h : id ∈ idsOf strongest relation) :
    (relation, idsOf strongest relation) ∈ (queuesOf strongest).toList := by
  rw [TreeMap.mem_toList_iff_getElem?_eq_some]
  have hids := getD_queuesOf strongest relation
  cases hqueue : (queuesOf strongest)[relation]? with
  | none =>
    rw [hqueue, Option.getD_none] at hids
    rw [← hids] at h
    cases h
  | some ids =>
    rw [hqueue, Option.getD_some] at hids
    rw [hids]

end Queues

section Dealt

variable {strongest : TreeMap Text Relation} {max : ℕ} {out : List (Relation × Text)}
  {id : Text} {relation other : Relation}

theorem mem_share : id ∈ share relation out ↔ (relation, id) ∈ out := by
  simp only [share, List.mem_map, List.mem_filter, decide_eq_true_eq, Prod.exists]
  constructor
  · rintro ⟨other, id, ⟨hmem, rfl⟩, rfl⟩
    exact hmem
  · exact fun hmem => ⟨relation, id, ⟨hmem, rfl⟩, rfl⟩

theorem dealt_select (strongest : TreeMap Text Relation) (max : ℕ) :
    Dealt (queuesOf strongest).toList max (fill (queuesOf strongest).toList max 0 []) :=
  dealt_fill (nodup_keys_toList _) (fun _ _ _ => by simp [share]) (Nat.zero_le _) (by simp)

/-- What is dealt of a relation are the first of its dependents. -/
theorem share_leading (h : Dealt (queuesOf strongest).toList max out) (relation : Relation) :
    share relation out <+: idsOf strongest relation := by
  cases hshare : share relation out with
  | nil => exact List.nil_prefix
  | cons id rest =>
    have hid : (relation, id) ∈ out := mem_share.mp (hshare ▸ List.mem_cons_self)
    obtain ⟨⟨found, ids⟩, hqueue, rfl⟩ := h.keys _ hid
    obtain rfl := mem_queuesOf hqueue
    obtain ⟨taken, heven⟩ := h.even
    rw [← hshare]
    rcases heven _ _ hqueue with htake | htake
    · exact htake ▸ List.take_prefix _ _
    · exact htake ▸ List.take_prefix _ _

theorem relation_of_mem (h : Dealt (queuesOf strongest).toList max out)
    (hmem : (relation, id) ∈ out) : strongest[id]? = some relation :=
  mem_idsOf.mp ((share_leading h relation).subset (mem_share.mpr hmem))

/-- A relation that is cut short holds at most one dependent less than any other. -/
theorem share_fair (h : Dealt (queuesOf strongest).toList max out)
    (hid : strongest[id]? = some relation) (hcut : (relation, id) ∉ out) (other : Relation) :
    (share other out).length ≤ (share relation out).length + 1 := by
  obtain ⟨taken, heven⟩ := h.even
  have hmem := mem_idsOf.mpr hid
  have hleast : taken ≤ (share relation out).length := by
    have hless : ¬ (idsOf strongest relation).length ≤ (share relation out).length := by
      intro hall
      rw [← (share_leading h relation).eq_of_length_le hall] at hmem
      exact hcut (mem_share.mp hmem)
    rcases heven _ _ (idsOf_mem_queuesOf hmem) with htake | htake
    · rw [htake, List.length_take] at hless ⊢
      omega
    · rw [htake, List.length_take] at hless ⊢
      omega
  have hmost : (share other out).length ≤ taken + 1 := by
    cases hshare : share other out with
    | nil => exact Nat.zero_le _
    | cons found rest =>
      have hfound : found ∈ idsOf strongest other :=
        (share_leading h other).subset (hshare ▸ List.mem_cons_self)
      rw [← hshare]
      rcases heven _ _ (idsOf_mem_queuesOf hfound) with htake | htake
      · rw [htake, List.length_take]
        omega
      · rw [htake, List.length_take]
        omega
  omega

theorem nodup_dealt (h : Dealt (queuesOf strongest).toList max out) : (out.map Prod.snd).Nodup := by
  have hout : out.Nodup := by
    rw [List.nodup_iff_count_le_one]
    rintro ⟨relation, id⟩
    have hshare : (share relation out).Nodup :=
      ((idsOf_sorted strongest relation).imp ne_of_compare).sublist (share_leading h relation).sublist
    calc out.count (relation, id)
        = (out.filter fun dealt => dealt.1 = relation).count (relation, id) :=
          (List.count_filter (by simp)).symm
      _ ≤ (share relation out).count id :=
          List.count_le_count_map (f := Prod.snd) (x := (relation, id))
      _ ≤ 1 := List.nodup_iff_count_le_one.mp hshare id
  refine hout.map_on ?_
  rintro ⟨relation, id⟩ hmem ⟨other, id'⟩ hother rfl
  have hsame := (relation_of_mem h hmem).symm.trans (relation_of_mem h hother)
  rw [Option.some.inj hsame]

theorem length_dealt (h : Dealt (queuesOf strongest).toList max out) :
    out.length = min max strongest.size := by
  have hkeys := nodup_keys_toList strongest
  have hsub : out.map Prod.snd ⊆ strongest.toList.map Prod.fst := by
    intro id hid
    obtain ⟨⟨relation, id⟩, hmem, rfl⟩ := List.mem_map.mp hid
    exact List.mem_map.mpr ⟨(id, relation),
      TreeMap.mem_toList_iff_getElem?_eq_some.mpr (relation_of_mem h hmem), rfl⟩
  have hle : out.length ≤ strongest.size := by
    have hlength := ((nodup_dealt h).subperm hsub).length_le
    rwa [List.length_map, List.length_map, TreeMap.length_toList] at hlength
  rcases h.done with hfull | hall
  · omega
  · have hback : strongest.toList.map Prod.fst ⊆ out.map Prod.snd := by
      intro id hid
      obtain ⟨⟨id, relation⟩, hmem, rfl⟩ := List.mem_map.mp hid
      have hids := mem_idsOf.mpr (TreeMap.mem_toList_iff_getElem?_eq_some.mp hmem)
      have hshare : id ∈ share relation out := by rwa [hall _ _ (idsOf_mem_queuesOf hids)]
      exact List.mem_map.mpr ⟨(relation, id), mem_share.mp hshare, rfl⟩
    have hlength := (hkeys.subperm hback).length_le
    rw [List.length_map, List.length_map, TreeMap.length_toList] at hlength
    have hbound := h.bound
    omega

end Dealt

section Report

variable (n : Neighbourhood) (seeds : List Text)

/-- The entries are ordered by relation, and by id within one. -/
def Impacted.Before (a b : Impacted) : Prop :=
  a.relation < b.relation ∨ a.relation = b.relation ∧ compare a.id b.id = .lt

/-- What is reported of a walk, whatever the order of its nodes and edges. -/
structure Exact (maxReached : ℕ) (impact : Impact) : Prop where
  reached : ∀ entry ∈ impact.reached, Strongest seeds n.edges entry.id entry.relation
  once : (impact.reached.map Impacted.id).Nodup
  sorted : impact.reached.Pairwise Impacted.Before
  /-- The dependents are counted, each once. -/
  counted : ∃ dependents : List Text, dependents.Nodup ∧
    (∀ id, id ∈ dependents ↔ ∃ relation, Relates seeds n.edges id relation) ∧
    impact.reached.length = min maxReached dependents.length ∧
    impact.reached.length + impact.truncated = dependents.length
  /-- Where a dependent is left out, no other relation holds more than one entry more. -/
  fair : ∀ id relation, Strongest seeds n.edges id relation → ⟨id, relation⟩ ∉ impact.reached →
    ∀ other, impact.reached.countP (fun entry => entry.relation = other) ≤
      impact.reached.countP (fun entry => entry.relation = relation) + 1
  smallest : ∀ entry ∈ impact.reached, ∀ id, Strongest seeds n.edges id entry.relation →
    compare id entry.id = .lt → ⟨id, entry.relation⟩ ∈ impact.reached
  untested : ∀ seed, seed ∈ impact.untested ↔ seed ∈ seeds ∧
    (∃ node ∈ n.nodes, node.kind = .symbol ∧ node.id = seed) ∧
    ¬ ∃ edge ∈ n.edges, edge.target = seed ∧ edge.kind = .tests
  inOrder : impact.untested.Sublist seeds

variable {n seeds} {maxReached : ℕ}

/-- The strongest relation of every dependent. -/
def strongestOf (n : Neighbourhood) (seeds : List Text) : TreeMap Text Relation :=
  (n.edges.foldl (Walked.note (TreeSet.ofList seeds)) {}).strongest

theorem strongestOf_eq_some {id : Text} {relation : Relation} :
    (strongestOf n seeds)[id]? = some relation ↔ Strongest seeds n.edges id relation := by
  have hnoted := noted_foldl seeds n.edges
  refine ⟨hnoted.found id relation, fun hstrongest => ?_⟩
  cases hfound : (strongestOf n seeds)[id]? with
  | none => exact absurd hstrongest.1 (hnoted.missing id hfound relation)
  | some other =>
    obtain ⟨hother, hleast⟩ := hnoted.found id other hfound
    rw [le_antisymm (hleast relation hstrongest.1) (hstrongest.2 other hother)]

instance : Std.TransCmp Impacted.cmp :=
  inferInstanceAs (Std.TransCmp (compareLex (compareOn Impacted.relation) (compareOn Impacted.id)))

theorem Impacted.before_of_isLE {a b : Impacted} (h : (Impacted.cmp a b).isLE = true)
    (hne : a.id ≠ b.id) : a.Before b := by
  unfold Impacted.cmp compareLex compareOn at h
  rcases lt_trichotomy a.relation b.relation with hlt | heq | hgt
  · exact .inl hlt
  · have hsame : compare b.relation b.relation = .eq := ReflCmp.compare_self
    rw [heq, hsame] at h
    cases hid : compare a.id b.id with
    | lt => exact .inr ⟨heq, hid⟩
    | eq => exact absurd (Std.LawfulEqCmp.compare_eq_iff_eq.mp hid) hne
    | gt =>
      rw [hid] at h
      cases h
  · rw [compare_gt_iff_gt.mpr hgt] at h
    cases h

/-- The entries before they are sorted. -/
def dealtOf (n : Neighbourhood) (seeds : List Text) (maxReached : ℕ) : List (Relation × Text) :=
  fill (queuesOf (strongestOf n seeds)).toList maxReached 0 []

def untestedOf (n : Neighbourhood) (seeds : List Text) : List Text :=
  seeds.filter fun seed =>
    (TreeSet.ofList
      ((n.nodes.filter fun node => node.kind = .symbol).map GraphNode.id)).contains seed &&
    !(n.edges.foldl (Walked.note (TreeSet.ofList seeds)) {}).covered.contains seed

theorem of_eq (hcap : maxReached * IMPACTED_SIZE ≤ ISIZE_MAX) : ∃ reached,
    reached.Perm ((dealtOf n seeds maxReached).map fun dealt => (⟨dealt.2, dealt.1⟩ : Impacted)) ∧
    reached.Pairwise (fun a b => (Impacted.cmp a b).isLE = true) ∧
    Impact.of n seeds maxReached =
      some ⟨reached, untestedOf n seeds, (strongestOf n seeds).size - reached.length⟩ := by
  have hselect : select (strongestOf n seeds) maxReached =
      some ((dealtOf n seeds maxReached).map fun dealt => ⟨dealt.2, dealt.1⟩) :=
    if_neg (not_lt.mpr hcap)
  refine ⟨((dealtOf n seeds maxReached).map fun dealt => (⟨dealt.2, dealt.1⟩ : Impacted)).mergeSort
    fun a b => (Impacted.cmp a b).isLE, List.mergeSort_perm _ _,
    List.pairwise_mergeSort ?_ ?_ _, ?_⟩
  · exact fun a b c hab hbc => Std.TransCmp.isLE_trans hab hbc
  · intro a b
    rw [Bool.or_eq_true, or_iff_not_imp_left]
    intro hnot
    rw [Std.OrientedCmp.lt_of_not_isLE hnot]
    rfl
  · exact congrArg (Option.map _) hselect

theorem mem_untestedOf {seed : Text} : seed ∈ untestedOf n seeds ↔ seed ∈ seeds ∧
    (∃ node ∈ n.nodes, node.kind = .symbol ∧ node.id = seed) ∧
    ¬ ∃ edge ∈ n.edges, edge.target = seed ∧ edge.kind = .tests := by
  rw [untestedOf, List.mem_filter, Bool.and_eq_true, contains_ofList_iff, Bool.not_eq_true',
    ← Bool.not_eq_true, (noted_foldl seeds n.edges).covered]
  simp only [List.mem_map, List.mem_filter, decide_eq_true_eq, Covered, and_assoc]
  exact and_congr_right fun hseed => and_congr_right fun _ => not_congr (and_iff_right hseed)

theorem countP_reached {reached : List Impacted} {out : List (Relation × Text)}
    (h : reached.Perm (out.map fun dealt => ⟨dealt.2, dealt.1⟩)) (relation : Relation) :
    reached.countP (fun entry => entry.relation = relation) = (share relation out).length := by
  rw [h.countP_eq, List.countP_map, share, List.length_map, ← List.countP_eq_length_filter]
  rfl

/-- A cap that can be allocated gives the exact report. -/
theorem exact_of (hcap : maxReached * IMPACTED_SIZE ≤ ISIZE_MAX) :
    ∃ impact, Impact.of n seeds maxReached = some impact ∧ Exact n seeds maxReached impact := by
  obtain ⟨reached, hperm, hsorted, hof⟩ := @of_eq n seeds maxReached hcap
  have hdealt : Dealt _ maxReached (dealtOf n seeds maxReached) :=
    dealt_select (strongestOf n seeds) maxReached
  have hmem : ∀ entry : Impacted, entry ∈ reached ↔
      (entry.relation, entry.id) ∈ dealtOf n seeds maxReached := by
    intro entry
    rw [hperm.mem_iff, List.mem_map]
    constructor
    · rintro ⟨dealt, hin, rfl⟩
      exact hin
    · exact fun hin => ⟨_, hin, rfl⟩
  have honce : (reached.map Impacted.id).Nodup := by
    rw [(hperm.map Impacted.id).nodup_iff, List.map_map]
    exact nodup_dealt hdealt
  have hlength : reached.length = min maxReached (strongestOf n seeds).size := by
    rw [hperm.length_eq, List.length_map]
    exact length_dealt hdealt
  refine ⟨_, hof, ?_, honce, ?_, ?_, ?_, ?_, fun seed => mem_untestedOf, List.filter_sublist⟩
  · exact fun entry hentry =>
      strongestOf_eq_some.mp (relation_of_mem hdealt ((hmem entry).mp hentry))
  · exact (hsorted.and (List.pairwise_map.mp honce)).imp fun h => Impacted.before_of_isLE h.1 h.2
  · refine ⟨(strongestOf n seeds).toList.map Prod.fst, nodup_keys_toList _, fun id => ?_, ?_, ?_⟩
    · rw [List.mem_map]
      constructor
      · rintro ⟨⟨id, relation⟩, hentry, rfl⟩
        have hstrongest := TreeMap.mem_toList_iff_getElem?_eq_some.mp hentry
        exact ⟨relation, (strongestOf_eq_some.mp hstrongest).1⟩
      · rintro ⟨relation, hrelates⟩
        cases hfound : (strongestOf n seeds)[id]? with
        | none => exact absurd hrelates ((noted_foldl seeds n.edges).missing id hfound relation)
        | some other =>
          exact ⟨(id, other), TreeMap.mem_toList_iff_getElem?_eq_some.mpr hfound, rfl⟩
    · rw [List.length_map, TreeMap.length_toList]
      exact hlength
    · rw [List.length_map, TreeMap.length_toList]
      dsimp only
      omega
  · intro id relation hstrongest hcut other
    rw [countP_reached hperm, countP_reached hperm]
    exact share_fair hdealt (strongestOf_eq_some.mpr hstrongest) (mt (hmem ⟨id, relation⟩).mpr hcut) other
  · intro entry hentry id hstrongest hless
    rw [hmem] at hentry ⊢
    have hids := mem_idsOf.mpr (strongestOf_eq_some.mpr hstrongest)
    obtain ⟨rest, hsplit⟩ := share_leading hdealt entry.relation
    rw [← hsplit] at hids
    rcases List.mem_append.mp hids with hshare | hrest
    · exact mem_share.mp hshare
    · have horder := idsOf_sorted (strongestOf n seeds) entry.relation
      rw [← hsplit] at horder
      have hafter := (List.pairwise_append.mp horder).2.2 _ (mem_share.mpr hentry) _ hrest
      rw [Std.OrientedCmp.gt_of_lt hless] at hafter
      cases hafter

/-- The report reads the nodes and the edges as sets. -/
theorem of_perm {n' : Neighbourhood} (hnodes : n'.nodes.Perm n.nodes)
    (hedges : n'.edges.Perm n.edges) :
    Impact.of n' seeds maxReached = Impact.of n seeds maxReached := by
  have hrelates : ∀ id relation,
      Relates seeds n'.edges id relation ↔ Relates seeds n.edges id relation :=
    fun id relation => exists_congr fun edge => and_congr_left fun _ => hedges.mem_iff
  have hstrongest : (strongestOf n' seeds).toList = (strongestOf n seeds).toList := by
    refine toList_eq_of_getElem? fun id => Option.ext fun relation => ?_
    rw [strongestOf_eq_some, strongestOf_eq_some]
    simp only [Strongest, hrelates]
  have huntested : untestedOf n' seeds = untestedOf n seeds := by
    refine List.filter_congr fun seed hseed => Bool.eq_iff_iff.mpr ?_
    have hmem : seed ∈ untestedOf n' seeds ↔ seed ∈ untestedOf n seeds := by
      rw [mem_untestedOf, mem_untestedOf]
      simp only [hnodes.mem_iff, hedges.mem_iff]
    rwa [untestedOf, untestedOf, List.mem_filter, List.mem_filter, and_iff_right hseed,
      and_iff_right hseed] at hmem
  have hqueues : queuesOf (strongestOf n' seeds) = queuesOf (strongestOf n seeds) := by
    rw [queuesOf, queuesOf, TreeMap.foldl_eq_foldl_toList, TreeMap.foldl_eq_foldl_toList,
      hstrongest]
  have hof : ∀ n : Neighbourhood, Impact.of n seeds maxReached =
      (select (strongestOf n seeds) maxReached).map fun selected =>
        ⟨selected.mergeSort fun a b => (Impacted.cmp a b).isLE, untestedOf n seeds,
          (strongestOf n seeds).toList.length -
            (selected.mergeSort fun a b => (Impacted.cmp a b).isLE).length⟩ := by
    intro n
    simp only [TreeMap.length_toList]
    rfl
  rw [hof, hof, select, select, hqueues, hstrongest, huntested]

end Report

/-- The report is exact just when the list of its entries can be allocated up to the cap. -/
theorem impact_exact_iff (n : Neighbourhood) (seeds : List Text) (maxReached : ℕ) :
    (∃ impact, Impact.of n seeds maxReached = some impact ∧ Exact n seeds maxReached impact ∧
      ∀ n' : Neighbourhood, n'.nodes.Perm n.nodes → n'.edges.Perm n.edges →
        Impact.of n' seeds maxReached = some impact) ↔
      maxReached * IMPACTED_SIZE ≤ ISIZE_MAX := by
  constructor
  · rintro ⟨impact, hof, -⟩
    by_contra hcap
    have hnone : select (strongestOf n seeds) maxReached = none := if_pos (not_le.mp hcap)
    have hfails : Impact.of n seeds maxReached = none := congrArg (Option.map _) hnone
    rw [hfails] at hof
    cases hof
  · intro hcap
    obtain ⟨impact, hof, hexact⟩ := @exact_of n seeds maxReached hcap
    exact ⟨impact, hof, hexact, fun n' hnodes hedges => (of_perm hnodes hedges).trans hof⟩

/-- A cap no list can be allocated for leaves no report, whatever there is to list. -/
theorem no_report_of_huge_cap : ¬ ∀ (n : Neighbourhood) (seeds : List Text) (maxReached : ℕ),
    ∃ impact, Impact.of n seeds maxReached = some impact ∧ Exact n seeds maxReached impact := by
  intro hall
  obtain ⟨impact, hof, -⟩ := hall ⟨[], []⟩ [] (2 ^ 63 - 1)
  have hnone : Impact.of ⟨[], []⟩ [] (2 ^ 63 - 1) = none := by decide +kernel
  rw [hnone] at hof
  cases hof

end TinySweeper.Graph
