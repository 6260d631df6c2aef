import TinySweeper.Graph.Rank

/-!
# The cap keeps the best nodes

What survives depends on the set of nodes, the edges and the seeds, never on the order
they come in. Present seeds survive before anything else, and the edges that survive are
those between survivors.
-/

namespace TinySweeper.Graph

section Order

variable (pinned : Text → Bool)

theorem ranksBefore_iff {a b : Text × ℚ} : ranksBefore pinned a b = true ↔
    (pinned b.1 = false ∧ pinned a.1 = true) ∨
      pinned a.1 = pinned b.1 ∧ (b.2 < a.2 ∨ a.2 = b.2 ∧ a.1 ≤ b.1) := by
  rw [ranksBefore]
  by_cases hpinned : pinned a.1 = pinned b.1
  · rw [if_neg (not_not.mpr hpinned)]
    by_cases hscore : a.2 = b.2
    · simp [hscore, hpinned]
    · simp [hscore, hpinned]
  · rw [if_pos hpinned]
    cases ha : pinned a.1 <;> cases hb : pinned b.1 <;> simp_all

theorem ranksBefore_trans (a b c : Text × ℚ) (hab : ranksBefore pinned a b = true)
    (hbc : ranksBefore pinned b c = true) : ranksBefore pinned a c = true := by
  rw [ranksBefore_iff] at *
  rcases hab with ⟨hb, ha⟩ | ⟨hab, hab'⟩
  · rcases hbc with ⟨hc, hb'⟩ | ⟨hbc, -⟩
    · exact .inl ⟨hc, ha⟩
    · exact .inl ⟨hbc ▸ hb, ha⟩
  · rcases hbc with ⟨hc, hb'⟩ | ⟨hbc, hbc'⟩
    · exact .inl ⟨hc, hab.trans hb'⟩
    · refine .inr ⟨hab.trans hbc, ?_⟩
      rcases hab' with hlt | ⟨heq, hle⟩
      · rcases hbc' with hlt' | ⟨heq', -⟩
        · exact .inl (hlt'.trans hlt)
        · exact .inl (heq' ▸ hlt)
      · rcases hbc' with hlt' | ⟨heq', hle'⟩
        · exact .inl (heq ▸ hlt')
        · exact .inr ⟨heq.trans heq', List.le_trans hle hle'⟩

theorem ranksBefore_total (a b : Text × ℚ) :
    (ranksBefore pinned a b || ranksBefore pinned b a) = true := by
  rw [Bool.or_eq_true, ranksBefore_iff, ranksBefore_iff]
  cases ha : pinned a.1 <;> cases hb : pinned b.1
  case false.true | true.false => simp
  all_goals
    rcases lt_trichotomy a.2 b.2 with h | h | h
    · exact .inr (.inr ⟨rfl, .inl h⟩)
    · rcases List.le_total a.1 b.1 with hle | hle
      · exact .inl (.inr ⟨rfl, .inr ⟨h, hle⟩⟩)
      · exact .inr (.inr ⟨rfl, .inr ⟨h.symm, hle⟩⟩)
    · exact .inl (.inr ⟨rfl, .inl h⟩)

theorem ranksBefore_antisymm (a b : Text × ℚ) (hab : ranksBefore pinned a b = true)
    (hba : ranksBefore pinned b a = true) : a = b := by
  rw [ranksBefore_iff] at *
  rcases hab with ⟨hb, ha⟩ | ⟨hab, hab'⟩
  · rcases hba with ⟨ha', -⟩ | ⟨hba, -⟩
    · simp [ha] at ha'
    · simp [ha, hb] at hba
  · rcases hba with ⟨ha, hb⟩ | ⟨-, hba'⟩
    · simp [ha, hb] at hab
    · rcases hab' with hlt | ⟨heq, hle⟩
      · rcases hba' with hlt' | ⟨heq', -⟩
        · exact absurd hlt' hlt.asymm
        · exact absurd heq' hlt.ne
      · rcases hba' with hlt' | ⟨-, hle'⟩
        · exact absurd heq hlt'.ne
        · exact Prod.ext (List.le_antisymm hle hle') heq

end Order

section Scores

variable {ids ids' seeds seeds' : List Text} {edges edges' : List GraphEdge} {rounds : ℕ}

/-- The score of an id after at most this many rounds. -/
def scoreOf (ids seeds : List Text) (edges : List GraphEdge) (rounds : ℕ) : Text → ℚ :=
  Diffusion.run (linksOf ids edges) DAMPING TOLERANCE (restartOf ids seeds) ids.toFinset rounds
    (restartOf ids seeds)

theorem isDistribution_scoreOf (hpresent : ids ≠ []) :
    Diffusion.IsDistribution ids.toFinset (scoreOf ids seeds edges rounds) := by
  have hrestart := isDistribution_restartOf hpresent seeds
  have hlow : (0 : ℚ) ≤ DAMPING := by norm_num [DAMPING]
  have hhigh : DAMPING ≤ (1 : ℚ) := by norm_num [DAMPING]
  exact Diffusion.isDistribution_run (linksOf_weight edges) (linksOf_within edges) hlow hhigh
    hrestart rounds hrestart

theorem seeded_perm (hids : ids.Perm ids') (hseeds : seeds.Perm seeds') :
    seeded ids seeds = seeded ids' seeds' := by
  rw [seeded, seeded, List.toFinset_eq_of_perm _ _ hids, List.toFinset_eq_of_perm _ _ hseeds]

theorem scoreOf_perm (hids : ids.Perm ids') (hedges : edges.Perm edges')
    (hseeds : seeds.Perm seeds') :
    ∀ id ∈ ids, scoreOf ids seeds edges rounds id = scoreOf ids' seeds' edges' rounds id := by
  intro id hid
  have hnodes := List.toFinset_eq_of_perm _ _ hids
  have hrestart : restartOf ids seeds = restartOf ids' seeds' := by
    funext id
    simp only [restartOf, seeded_perm hids hseeds, hnodes]
  rw [scoreOf, scoreOf, ← hrestart, ← hnodes]
  exact Diffusion.run_congr (linksOf_perm hids hedges) (linksOf_within edges) (fun _ _ => rfl)
    rounds (fun _ _ => rfl) id (List.mem_toFinset.mpr hid)

end Scores

section Neighbourhood

variable {nb nb' : Neighbourhood} {seeds seeds' : List Text}

theorem scoresAfter_reads (hdistinct : nb.ids.Nodup) (rounds : ℕ) :
    Reads (scoresAfter nb seeds rounds) (scoreOf nb.ids seeds nb.edges rounds) := by
  have hrestart := personalisation_reads hdistinct seeds
  exact iterations_reads hdistinct (adjacencyOf_mirrors hdistinct nb.edges) hrestart rounds hrestart

/-- Every round keeps the rank vector a distribution. -/
theorem scoresAfter_distribution (hdistinct : nb.ids.Nodup) (hpresent : nb.nodes ≠ [])
    (rounds : ℕ) :
    (∀ i : Fin nb.ids.length, 0 ≤ (scoresAfter nb seeds rounds)[i]) ∧
      ∑ i : Fin nb.ids.length, (scoresAfter nb seeds rounds)[i] = 1 := by
  have hids : nb.ids ≠ [] := fun h => hpresent (List.map_eq_nil_iff.mp h)
  have hreads : Reads (scoresAfter nb seeds rounds) (scoreOf nb.ids seeds nb.edges rounds) :=
    scoresAfter_reads hdistinct rounds
  have hmass : Diffusion.IsDistribution nb.ids.toFinset
      (scoreOf nb.ids seeds nb.edges rounds) := isDistribution_scoreOf hids
  constructor
  · intro i
    rw [hreads]
    exact hmass.nonneg _ (List.mem_toFinset.mpr (List.getElem_mem i.isLt))
  · rw [← hmass.total, ← sum_positions hdistinct]
    exact Finset.sum_congr rfl fun i _ => hreads i

/-- The seeds that are nodes. -/
def pinnedIn (ids seeds : List Text) (id : Text) : Bool :=
  seeds.contains id && (indexOf ids id).isSome

theorem pinnedIn_iff {ids : List Text} {id : Text} :
    pinnedIn ids seeds id = true ↔ id ∈ seeds ∧ id ∈ ids := by
  rw [pinnedIn, Bool.and_eq_true, indexOf_isSome_iff, List.contains_iff_mem]

theorem zip_toList {ids : List Text} {v : Vector ℚ ids.length} {f : Text → ℚ}
    (h : Reads v f) :
    ids.zip v.toList = ids.map fun id => (id, f id) := by
  apply List.ext_getElem
  · simp
  · intro i hi hi'
    have hlt : i < ids.length := by simpa using hi'
    have hread := h ⟨i, hlt⟩
    simpa using hread

theorem rank_eq (hdistinct : nb.ids.Nodup) :
    rank nb seeds =
      (nb.ids.map fun id => (id, scoreOf nb.ids seeds nb.edges MAX_ITERATIONS id)).mergeSort
        (ranksBefore (pinnedIn nb.ids seeds)) := by
  rw [rank]
  split_ifs with h
  · rw [List.isEmpty_iff.mp h, List.map_nil, List.mergeSort_nil]
  · rw [← zip_toList (scoresAfter_reads hdistinct MAX_ITERATIONS)]
    rfl

theorem rank_sorted (hdistinct : nb.ids.Nodup) :
    (rank nb seeds).Pairwise fun a b => ranksBefore (pinnedIn nb.ids seeds) a b = true := by
  rw [rank_eq hdistinct]
  exact List.pairwise_mergeSort (ranksBefore_trans _) (ranksBefore_total _) _

theorem rank_ids_perm (hdistinct : nb.ids.Nodup) : ((rank nb seeds).map Prod.fst).Perm nb.ids := by
  rw [rank_eq hdistinct]
  have hsorted := (List.mergeSort_perm
    (nb.ids.map fun id => (id, scoreOf nb.ids seeds nb.edges MAX_ITERATIONS id))
    (ranksBefore (pinnedIn nb.ids seeds))).map Prod.fst
  rw [List.map_map] at hsorted
  exact hsorted.trans (.of_eq (List.map_id _))

/-- The ranking is the same in every order of the nodes, the edges and the seeds. -/
theorem rank_perm (hdistinct : nb.ids.Nodup) (hnodes : nb.nodes.Perm nb'.nodes)
    (hedges : nb.edges.Perm nb'.edges) (hseeds : seeds.Perm seeds') :
    rank nb' seeds' = rank nb seeds := by
  have hids : nb.ids.Perm nb'.ids := hnodes.map _
  have hdistinct' : nb'.ids.Nodup := hids.nodup_iff.mp hdistinct
  have hpinned : pinnedIn nb.ids seeds = pinnedIn nb'.ids seeds' := by
    funext id
    rw [Bool.eq_iff_iff, pinnedIn_iff, pinnedIn_iff, hids.mem_iff, hseeds.mem_iff]
  have hscored : (nb.ids.map fun id =>
      (id, scoreOf nb'.ids seeds' nb'.edges MAX_ITERATIONS id)) =
      nb.ids.map fun id => (id, scoreOf nb.ids seeds nb.edges MAX_ITERATIONS id) := by
    apply List.map_congr_left
    intro id hid
    rw [scoreOf_perm hids hedges hseeds id hid]
  apply List.Perm.eq_of_pairwise (fun a b _ _ => ranksBefore_antisymm (pinnedIn nb.ids seeds) a b)
  · rw [hpinned]
    exact rank_sorted hdistinct'
  · exact rank_sorted hdistinct
  · rw [rank_eq hdistinct, rank_eq hdistinct']
    refine (List.mergeSort_perm _ _).trans (.trans ?_ (List.mergeSort_perm _ _).symm)
    rw [← hscored]
    exact hids.symm.map _

/-- The ids that survive a cut. -/
def keepOf (nb : Neighbourhood) (seeds : List Text) (maxNodes : ℕ) : List Text :=
  ((rank nb seeds).take maxNodes).map Prod.fst

variable {maxNodes : ℕ}

theorem cap_eq_cut (h : maxNodes < nb.nodes.length) : cap nb seeds maxNodes =
    { nodes := nb.nodes.filter fun node => (keepOf nb seeds maxNodes).contains node.id
      edges := nb.edges.filter fun edge => (keepOf nb seeds maxNodes).contains edge.source &&
        (keepOf nb seeds maxNodes).contains edge.target } :=
  if_neg (not_le.mpr h)

theorem keepOf_append_drop (hdistinct : nb.ids.Nodup) :
    (keepOf nb seeds maxNodes ++ ((rank nb seeds).drop maxNodes).map Prod.fst).Perm nb.ids := by
  rw [keepOf, ← List.map_append, List.take_append_drop]
  exact rank_ids_perm hdistinct

theorem keepOf_nodup (hdistinct : nb.ids.Nodup) : (keepOf nb seeds maxNodes).Nodup :=
  ((keepOf_append_drop hdistinct).nodup_iff.mpr hdistinct).of_append_left

theorem mem_ids_of_mem_keepOf (hdistinct : nb.ids.Nodup) {id : Text}
    (h : id ∈ keepOf nb seeds maxNodes) : id ∈ nb.ids :=
  (keepOf_append_drop hdistinct).mem_iff.mp (List.mem_append_left _ h)

theorem length_keepOf (hdistinct : nb.ids.Nodup) :
    (keepOf nb seeds maxNodes).length = min maxNodes nb.nodes.length := by
  have hlength : ((rank nb seeds).map Prod.fst).length = nb.ids.length :=
    (rank_ids_perm hdistinct).length_eq
  rw [List.length_map, Neighbourhood.ids, List.length_map] at hlength
  rw [keepOf, List.length_map, List.length_take, hlength]

/-- A survivor that is no seed leaves no present seed behind. -/
theorem mem_keepOf_of_seed (hdistinct : nb.ids.Nodup) {id seed : Text}
    (hid : id ∈ keepOf nb seeds maxNodes) (hother : id ∉ seeds) (hseed : seed ∈ seeds)
    (hpresent : seed ∈ nb.ids) : seed ∈ keepOf nb seeds maxNodes := by
  by_contra hdropped
  have hlater : seed ∈ ((rank nb seeds).drop maxNodes).map Prod.fst :=
    (List.mem_append.mp ((keepOf_append_drop hdistinct).mem_iff.mpr hpresent)).resolve_left hdropped
  obtain ⟨first, hfirst, rfl⟩ := List.mem_map.mp hid
  obtain ⟨second, hsecond, rfl⟩ := List.mem_map.mp hlater
  have hsorted : (rank nb seeds).Pairwise _ := rank_sorted hdistinct
  rw [← List.take_append_drop maxNodes (rank nb seeds), List.pairwise_append] at hsorted
  have hbefore := hsorted.2.2 first hfirst second hsecond
  rw [ranksBefore_iff] at hbefore
  have hpinned : pinnedIn nb.ids seeds second.1 = true := pinnedIn_iff.mpr ⟨hseed, hpresent⟩
  have hplain : pinnedIn nb.ids seeds first.1 = false := by
    rw [Bool.eq_false_iff]
    exact fun h => hother (pinnedIn_iff.mp h).1
  simp [hpinned, hplain] at hbefore

theorem length_cap (hdistinct : nb.ids.Nodup) :
    (cap nb seeds maxNodes).nodes.length = min maxNodes nb.nodes.length := by
  rcases lt_or_ge maxNodes nb.nodes.length with hcut | hfits
  · have hkept : (nb.ids.filter fun id => (keepOf nb seeds maxNodes).contains id).Perm
        (keepOf nb seeds maxNodes) := by
      rw [List.perm_ext_iff_of_nodup (hdistinct.filter _) (keepOf_nodup hdistinct)]
      intro id
      rw [List.mem_filter, List.contains_iff_mem, and_iff_right_iff_imp]
      exact mem_ids_of_mem_keepOf hdistinct
    rw [cap_eq_cut hcut, ← length_keepOf hdistinct, ← hkept.length_eq, Neighbourhood.ids,
      List.filter_map, List.length_map]
    rfl
  · rw [cap, if_pos hfits, min_eq_right hfits]

theorem mem_cap_ids (hdistinct : nb.ids.Nodup) (hcut : maxNodes < nb.nodes.length) {id : Text} :
    id ∈ (cap nb seeds maxNodes).ids ↔ id ∈ keepOf nb seeds maxNodes := by
  rw [cap_eq_cut hcut, Neighbourhood.ids, List.mem_map]
  constructor
  · rintro ⟨node, hnode, rfl⟩
    exact List.contains_iff_mem.mp (List.mem_filter.mp hnode).2
  · intro h
    obtain ⟨node, hnode, rfl⟩ := List.mem_map.mp (mem_ids_of_mem_keepOf hdistinct h)
    exact ⟨node, List.mem_filter.mpr ⟨hnode, List.contains_iff_mem.mpr h⟩, rfl⟩

theorem cap_sublist : (cap nb seeds maxNodes).nodes.Sublist nb.nodes := by
  rw [cap]
  split_ifs
  · exact List.Sublist.refl _
  · exact List.filter_sublist

theorem mem_cap_of_seed (hdistinct : nb.ids.Nodup) {node seed : GraphNode}
    (hnode : node ∈ (cap nb seeds maxNodes).nodes) (hother : node.id ∉ seeds)
    (hpresent : seed ∈ nb.nodes) (hseed : seed.id ∈ seeds) :
    seed ∈ (cap nb seeds maxNodes).nodes := by
  rcases lt_or_ge maxNodes nb.nodes.length with hcut | hfits
  · have hkept := (mem_cap_ids hdistinct hcut).mp (List.mem_map_of_mem hnode)
    have hsurvives := mem_keepOf_of_seed hdistinct hkept hother hseed (List.mem_map_of_mem hpresent)
    rw [cap_eq_cut hcut]
    exact List.mem_filter.mpr ⟨hpresent, List.contains_iff_mem.mpr hsurvives⟩
  · rw [cap, if_pos hfits]
    exact hpresent

theorem cap_edges (hdistinct : nb.ids.Nodup) (hcut : maxNodes < nb.nodes.length) :
    (cap nb seeds maxNodes).edges = nb.edges.filter fun edge =>
      edge.source ∈ (cap nb seeds maxNodes).ids ∧
        edge.target ∈ (cap nb seeds maxNodes).ids := by
  simp only [mem_cap_ids hdistinct hcut]
  rw [cap_eq_cut hcut]
  apply List.filter_congr
  intro edge _
  simp only [List.contains_eq_mem, Bool.decide_and]

theorem cap_perm (hdistinct : nb.ids.Nodup) (hnodes : nb.nodes.Perm nb'.nodes)
    (hedges : nb.edges.Perm nb'.edges) (hseeds : seeds.Perm seeds') :
    (cap nb' seeds' maxNodes).nodes.Perm (cap nb seeds maxNodes).nodes ∧
      (cap nb' seeds' maxNodes).edges.Perm (cap nb seeds maxNodes).edges := by
  have hkeep : keepOf nb' seeds' maxNodes = keepOf nb seeds maxNodes := by
    rw [keepOf, rank_perm hdistinct hnodes hedges hseeds, keepOf]
  rcases lt_or_ge maxNodes nb.nodes.length with hcut | hfits
  · rw [cap_eq_cut hcut, cap_eq_cut (hnodes.length_eq ▸ hcut), hkeep]
    exact ⟨(hnodes.filter _).symm, (hedges.filter _).symm⟩
  · rw [cap, cap, if_pos hfits, if_pos (hnodes.length_eq ▸ hfits)]
    exact ⟨hnodes.symm, hedges.symm⟩

end Neighbourhood

/-- The cap is as large as it may be, takes present seeds first, leaves exactly the edges
between survivors, and is the same in every order of its input. The rank vector behind it
is a distribution after any number of rounds. -/
theorem cap_sound (nb : Neighbourhood) (seeds : List Text) (maxNodes : ℕ)
    (hdistinct : nb.ids.Nodup) :
    (cap nb seeds maxNodes).nodes.Sublist nb.nodes ∧
    (cap nb seeds maxNodes).nodes.length = min maxNodes nb.nodes.length ∧
    (∀ node ∈ (cap nb seeds maxNodes).nodes, node.id ∉ seeds →
      ∀ seed ∈ nb.nodes, seed.id ∈ seeds → seed ∈ (cap nb seeds maxNodes).nodes) ∧
    (maxNodes < nb.nodes.length →
      (cap nb seeds maxNodes).edges = nb.edges.filter fun edge =>
        edge.source ∈ (cap nb seeds maxNodes).ids ∧
          edge.target ∈ (cap nb seeds maxNodes).ids) ∧
    (∀ nb' seeds', nb.nodes.Perm nb'.nodes → nb.edges.Perm nb'.edges → seeds.Perm seeds' →
      (cap nb' seeds' maxNodes).nodes.Perm (cap nb seeds maxNodes).nodes ∧
        (cap nb' seeds' maxNodes).edges.Perm (cap nb seeds maxNodes).edges) ∧
    (nb.nodes ≠ [] → ∀ rounds,
      (∀ i : Fin nb.ids.length, 0 ≤ (scoresAfter nb seeds rounds)[i]) ∧
        ∑ i : Fin nb.ids.length, (scoresAfter nb seeds rounds)[i] = 1) := by
  have hseeds : ∀ node ∈ (cap nb seeds maxNodes).nodes, node.id ∉ seeds →
      ∀ seed ∈ nb.nodes, seed.id ∈ seeds → seed ∈ (cap nb seeds maxNodes).nodes :=
    fun node hnode hother seed hpresent hseed =>
      mem_cap_of_seed hdistinct hnode hother hpresent hseed
  exact ⟨cap_sublist, length_cap hdistinct, hseeds, cap_edges hdistinct,
    fun _ _ hnodes hedges hseeds => cap_perm hdistinct hnodes hedges hseeds,
    scoresAfter_distribution hdistinct⟩

/-- Two calls, a loop and an edge to nowhere; one of the seeds is absent. -/
def sampleNeighbourhood : Neighbourhood where
  nodes := [⟨['a'], .symbol⟩, ⟨['b'], .symbol⟩, ⟨['c'], .file⟩]
  edges := [⟨['a'], ['b'], .calls⟩, ⟨['b'], ['b'], .calls⟩, ⟨['b'], ['z'], .imports⟩,
    ⟨['a'], ['b'], .calls⟩]

/-- The isolated seed survives a cap of one. -/
theorem cap_sampleNeighbourhood :
    (cap sampleNeighbourhood [['c'], ['x'], ['c']] 1).nodes.length = 1 ∧
      ⟨['c'], .file⟩ ∈ (cap sampleNeighbourhood [['c'], ['x'], ['c']] 1).nodes := by
  have hdistinct : sampleNeighbourhood.ids.Nodup := by decide
  obtain ⟨hsublist, hlength, hseeds, -⟩ :=
    cap_sound sampleNeighbourhood [['c'], ['x'], ['c']] 1 hdistinct
  refine ⟨hlength, ?_⟩
  obtain ⟨node, hnode⟩ := List.exists_mem_of_length_pos (by rw [hlength]; decide)
  by_cases hseed : node.id ∈ [['c'], ['x'], ['c']]
  · have hfile : ∀ node ∈ sampleNeighbourhood.nodes, node.id ∈ [['c'], ['x'], ['c']] →
        node = ⟨['c'], .file⟩ := by decide
    rw [← hfile node (hsublist.subset hnode) hseed]
    exact hnode
  · exact hseeds node hnode hseed ⟨['c'], .file⟩ (by decide) (by decide)

end TinySweeper.Graph
