import TinySweeper.Diffusion
import TinySweeper.Graph.Impact

/-!
# Personalised rank over a neighbourhood

A power iteration scores the nodes of a neighbourhood with all restart mass on the
seeds; the best nodes survive a cap. Scores are exact rationals. With distinct ids the
iteration over vectors is the diffusion over the set of ids, which sees neither the order
of the nodes nor that of the edges.
-/

namespace TinySweeper.Graph

/-- The share of a node's score that flows along its edges. -/
def DAMPING : ℚ := 85 / 100

/-- Power-iteration ceiling. -/
def MAX_ITERATIONS : ℕ := 64

/-- Convergence threshold on the change between iterations. -/
def TOLERANCE : ℚ := 1 / 10 ^ 9

/-- How much of a node's importance each kind of edge carries. -/
def weight : EdgeKind → ℚ
  | .calls => 1
  | .extending => 9 / 10
  | .tests => 8 / 10
  | .references => 6 / 10
  | .imports => 5 / 10
  | .defines => 3 / 10

section Scores

variable {n : ℕ}

/-- Add to one entry. -/
def bump (v : Vector ℚ n) (i : Fin n) (w : ℚ) : Vector ℚ n := v.set i (v[i] + w)

/-- Weighted undirected adjacency, and the total weight at each node. -/
structure Adjacency (n : ℕ) where
  links : Vector (List (Fin n × ℚ)) n
  outgoing : Vector ℚ n

namespace Adjacency

def empty (n : ℕ) : Adjacency n := ⟨Vector.replicate n [], Vector.replicate n 0⟩

def push (links : Vector (List (Fin n × ℚ)) n) (i : Fin n) (link : Fin n × ℚ) :
    Vector (List (Fin n × ℚ)) n := links.set i (links[i] ++ [link])

def join (adjacency : Adjacency n) (source target : Fin n) (w : ℚ) : Adjacency n :=
  { links := push (push adjacency.links source (target, w)) target (source, w)
    outgoing := bump (bump adjacency.outgoing source w) target w }

end Adjacency

/-- The position of an id; a later node of the same id replaces an earlier one. -/
def indexOf (ids : List Text) (id : Text) : Option (Fin ids.length) :=
  (List.finRange ids.length).reverse.find? fun i => ids[i] = id

/-- The edges between two different nodes that are both present. -/
def adjacencyOf (ids : List Text) (edges : List GraphEdge) : Adjacency ids.length :=
  edges.foldl (fun adjacency edge =>
    match indexOf ids edge.source, indexOf ids edge.target with
    | some source, some target =>
      if source = target then adjacency else adjacency.join source target (weight edge.kind)
    | _, _ => adjacency) (.empty ids.length)

def send (share : ℚ) (next : Vector ℚ n) (links : List (Fin n × ℚ)) : Vector ℚ n :=
  links.foldl (fun next link => bump next link.1 (share * link.2)) next

/-- One node's turn in a round: without edges its mass is dangling. -/
def pour (adjacency : Adjacency n) (score : Vector ℚ n) (state : Vector ℚ n × ℚ) (i : Fin n) :
    Vector ℚ n × ℚ :=
  if adjacency.outgoing[i] = 0 then (state.1, state.2 + score[i])
  else (send (score[i] / adjacency.outgoing[i]) state.1 adjacency.links[i], state.2)

/-- What flows along the edges, and the mass on nodes that have none. -/
def flow (adjacency : Adjacency n) (score : Vector ℚ n) : Vector ℚ n × ℚ :=
  (List.finRange n).foldl (pour adjacency score) (Vector.replicate n 0, 0)

def iterate (adjacency : Adjacency n) (restart score : Vector ℚ n) : Vector ℚ n :=
  let (next, dangling) := flow adjacency score
  Vector.ofFn fun i => (1 - DAMPING) * restart[i] + DAMPING * (next[i] + dangling * restart[i])

def delta (updated score : Vector ℚ n) : ℚ :=
  ((List.finRange n).map fun i => |updated[i] - score[i]|).sum

/-- The score after at most this many iterations. -/
def iterations (adjacency : Adjacency n) (restart : Vector ℚ n) :
    (rounds : ℕ) → (score : Vector ℚ n) → Vector ℚ n
  | 0, score => score
  | rounds + 1, score =>
    let updated := iterate adjacency restart score
    if delta updated score < TOLERANCE then updated
    else iterations adjacency restart rounds updated

/-- The restart distribution: all of it on the seeds, or uniform if none exist. -/
def personalisation (ids seeds : List Text) : Vector ℚ ids.length :=
  let present := (seeds.filterMap (indexOf ids)).dedup
  if present.isEmpty then Vector.replicate ids.length (1 / ids.length)
  else present.foldl (fun (restart : Vector ℚ ids.length) (i : Fin ids.length) =>
    restart.set i (1 / (present.length : ℚ))) (Vector.replicate ids.length 0)

end Scores

def Neighbourhood.ids (neighbourhood : Neighbourhood) : List Text :=
  neighbourhood.nodes.map (·.id)

/-- The rank vector after at most this many iterations. -/
def scoresAfter (neighbourhood : Neighbourhood) (seeds : List Text) (rounds : ℕ) :
    Vector ℚ neighbourhood.ids.length :=
  let restart := personalisation neighbourhood.ids seeds
  iterations (adjacencyOf neighbourhood.ids neighbourhood.edges) restart rounds restart

/-- Seeds first, then score, then id. -/
def ranksBefore (pinned : Text → Bool) (a b : Text × ℚ) : Bool :=
  if pinned a.1 ≠ pinned b.1 then pinned a.1
  else if a.2 ≠ b.2 then b.2 < a.2
  else a.1 ≤ b.1

/-- Every node with its score, best first. -/
def rank (neighbourhood : Neighbourhood) (seeds : List Text) : List (Text × ℚ) :=
  let ids := neighbourhood.ids
  if ids.isEmpty then []
  else
    let pinned := fun id => seeds.contains id && (indexOf ids id).isSome
    (ids.zip (scoresAfter neighbourhood seeds MAX_ITERATIONS).toList).mergeSort
      (ranksBefore pinned)

/-- Keep the highest-ranked nodes, then drop dangling edges. -/
def cap (neighbourhood : Neighbourhood) (seeds : List Text) (maxNodes : ℕ) : Neighbourhood :=
  if neighbourhood.nodes.length ≤ maxNodes then neighbourhood
  else
    let keep := ((rank neighbourhood seeds).take maxNodes).map Prod.fst
    { nodes := neighbourhood.nodes.filter fun node => keep.contains node.id
      edges := neighbourhood.edges.filter fun edge =>
        keep.contains edge.source && keep.contains edge.target }

section Positions

variable {n : ℕ}

theorem getElem_bump (v : Vector ℚ n) (i j : Fin n) (w : ℚ) :
    (bump v i w)[j] = v[j] + if i = j then w else 0 := by
  by_cases h : i = j
  · subst h
    simp [bump]
  · have hne : (i : ℕ) ≠ j := fun heq => h (Fin.ext heq)
    simp [bump, Vector.getElem_set_ne, h, hne]

theorem getElem_push (links : Vector (List (Fin n × ℚ)) n) (i j : Fin n) (link : Fin n × ℚ) :
    (Adjacency.push links i link)[j] = links[j] ++ if i = j then [link] else [] := by
  by_cases h : i = j
  · subst h
    simp [Adjacency.push]
  · have hne : (i : ℕ) ≠ j := fun heq => h (Fin.ext heq)
    simp [Adjacency.push, Vector.getElem_set_ne, h, hne]

/-- What a list of links hands to one position. -/
def received (share : ℚ) (links : List (Fin n × ℚ)) (j : Fin n) : ℚ :=
  (links.map fun link => if link.1 = j then share * link.2 else 0).sum

theorem received_append (share : ℚ) (before after : List (Fin n × ℚ)) (j : Fin n) :
    received share (before ++ after) j = received share before j + received share after j := by
  simp [received]

theorem getElem_send (share : ℚ) (links : List (Fin n × ℚ)) (next : Vector ℚ n) (j : Fin n) :
    (send share next links)[j] = next[j] + received share links j := by
  induction links generalizing next with
  | nil => simp [send, received]
  | cons link links ih =>
    have hlater := ih (bump next link.1 (share * link.2))
    rw [getElem_bump, add_assoc] at hlater
    exact hlater

variable (adjacency : Adjacency n) (score : Vector ℚ n)

/-- What a position receives from another one in a round. -/
def given (i j : Fin n) : ℚ :=
  if adjacency.outgoing[i] = 0 then 0
  else received (score[i] / adjacency.outgoing[i]) adjacency.links[i] j

theorem getElem_flow (j : Fin n) :
    (flow adjacency score).1[j] = ∑ i : Fin n, given adjacency score i j := by
  have hfold : ∀ (positions : List (Fin n)) (state : Vector ℚ n × ℚ),
      (positions.foldl (pour adjacency score) state).1[j] =
        state.1[j] + (positions.map fun i => given adjacency score i j).sum := by
    intro positions
    induction positions with
    | nil => simp
    | cons i positions ih =>
      intro state
      rw [List.foldl_cons, ih, List.map_cons, List.sum_cons, ← add_assoc, given, pour]
      split_ifs with h
      · rw [add_zero]
      · rw [getElem_send]
  rw [flow, hfold, Fin.sum_univ_def]
  simp

theorem flow_dangling :
    (flow adjacency score).2 =
      ∑ i : Fin n, if adjacency.outgoing[i] = 0 then score[i] else 0 := by
  have hfold : ∀ (positions : List (Fin n)) (state : Vector ℚ n × ℚ),
      (positions.foldl (pour adjacency score) state).2 = state.2 + (positions.map
        fun (i : Fin n) => if adjacency.outgoing[i] = 0 then score[i] else 0).sum := by
    intro positions
    induction positions with
    | nil => simp
    | cons i positions ih =>
      intro state
      rw [List.foldl_cons, ih, List.map_cons, List.sum_cons, ← add_assoc, pour]
      split_ifs with h
      · rfl
      · rw [add_zero]
  rw [flow, hfold, Fin.sum_univ_def, zero_add]

end Positions

variable {ids : List Text}

theorem getElem_of_indexOf {id : Text} {i : Fin ids.length} (h : indexOf ids id = some i) :
    ids[i] = id := by
  simpa using List.find?_some h

theorem indexOf_eq_some_iff (hdistinct : ids.Nodup) {id : Text} {i : Fin ids.length} :
    indexOf ids id = some i ↔ ids[i] = id := by
  constructor
  · exact getElem_of_indexOf
  · intro h
    cases hindex : indexOf ids id with
    | none =>
      have hmissing := List.find?_eq_none.mp hindex i (by simp)
      simp [h] at hmissing
    | some j =>
      have hj : ids[j] = id := getElem_of_indexOf hindex
      have hsame : (j : ℕ) = i := (List.Nodup.getElem_inj_iff hdistinct).mp (hj.trans h.symm)
      rw [Fin.ext hsame]

theorem indexOf_isSome_iff {id : Text} : (indexOf ids id).isSome ↔ id ∈ ids := by
  rw [indexOf, List.find?_isSome]
  constructor
  · rintro ⟨i, -, hi⟩
    have hid : ids[i] = id := by simpa using hi
    rw [← hid]
    exact List.getElem_mem i.isLt
  · intro h
    obtain ⟨i, hi, hid⟩ := List.mem_iff_getElem.mp h
    exact ⟨⟨i, hi⟩, by simp, by simpa using hid⟩

/-- A sum over positions is one over ids. -/
theorem sum_positions (hdistinct : ids.Nodup) (f : Text → ℚ) :
    ∑ i : Fin ids.length, f ids[i] = ∑ id ∈ ids.toFinset, f id := by
  rw [List.sum_toFinset f hdistinct, ← Fin.sum_univ_fun_getElem]
  rfl

/-- A vector over positions holds this function of the ids. -/
def Reads (v : Vector ℚ ids.length) (f : Text → ℚ) : Prop :=
  ∀ i : Fin ids.length, v[i] = f ids[i]

/-- The link of an edge between two different ids that are both present. -/
def linkOf (ids : List Text) (edge : GraphEdge) : Option (Diffusion.Link Text ℚ) :=
  if edge.source ∈ ids ∧ edge.target ∈ ids ∧ edge.source ≠ edge.target then
    some ⟨edge.source, edge.target, weight edge.kind⟩
  else none

def linksOf (ids : List Text) (edges : List GraphEdge) : List (Diffusion.Link Text ℚ) :=
  edges.filterMap (linkOf ids)

theorem weight_nonneg (kind : EdgeKind) : 0 ≤ weight kind := by
  cases kind <;> norm_num [weight]

theorem linksOf_weight (edges : List GraphEdge) :
    ∀ link ∈ linksOf ids edges, 0 ≤ link.weight := by
  intro link hlink
  obtain ⟨edge, -, hedge⟩ := List.mem_filterMap.mp hlink
  rw [linkOf] at hedge
  split_ifs at hedge
  rw [← Option.some.inj hedge]
  exact weight_nonneg edge.kind

theorem linksOf_within (edges : List GraphEdge) :
    Diffusion.Within (linksOf ids edges) ids.toFinset := by
  intro link hlink
  obtain ⟨edge, -, hedge⟩ := List.mem_filterMap.mp hlink
  rw [linkOf] at hedge
  split_ifs at hedge with h
  rw [← Option.some.inj hedge]
  exact ⟨List.mem_toFinset.mpr h.1, List.mem_toFinset.mpr h.2.1⟩

theorem linksOf_perm {ids ids' : List Text} {edges edges' : List GraphEdge}
    (hids : ids.Perm ids') (hedges : edges.Perm edges') :
    (linksOf ids edges).Perm (linksOf ids' edges') := by
  have hlink : linkOf ids = linkOf ids' := by
    funext edge
    simp only [linkOf, hids.mem_iff]
  rw [linksOf, linksOf, hlink]
  exact hedges.filterMap _

/-- The adjacency lists hold these links. -/
structure Mirrors (adjacency : Adjacency ids.length) (links : List (Diffusion.Link Text ℚ)) :
    Prop where
  outgoing : Reads adjacency.outgoing (Diffusion.outgoing links)
  received : ∀ (share : Text → ℚ) (j : Fin ids.length),
    ∑ i : Fin ids.length, received (share ids[i]) adjacency.links[i] j =
      Diffusion.arriving links share ids[j]

theorem mirrors_empty : @Mirrors ids (.empty ids.length) [] := by
  constructor
  · intro i
    simp [Adjacency.empty, Diffusion.outgoing]
  · intro share j
    simp [Adjacency.empty, Diffusion.arriving, Graph.received]

theorem getElem_eq_iff (hdistinct : ids.Nodup) {i j : Fin ids.length} :
    ids[i] = ids[j] ↔ i = j :=
  (List.Nodup.getElem_inj_iff hdistinct).trans Fin.ext_iff.symm

theorem Mirrors.join (hdistinct : ids.Nodup) {adjacency : Adjacency ids.length}
    {links : List (Diffusion.Link Text ℚ)} (h : Mirrors adjacency links)
    (source target : Fin ids.length) (w : ℚ) :
    Mirrors (adjacency.join source target w) (links ++ [⟨ids[source], ids[target], w⟩]) := by
  constructor
  · intro i
    rw [Adjacency.join, getElem_bump, getElem_bump, h.outgoing, Diffusion.outgoing_append]
    simp [Diffusion.outgoing, ← getElem_eq_iff hdistinct, add_assoc]
  · intro share j
    have hgrown : ∀ i : Fin ids.length,
        Graph.received (share ids[i]) (adjacency.join source target w).links[i] j =
          Graph.received (share ids[i]) adjacency.links[i] j +
            (if source = i then if target = j then share ids[i] * w else 0 else 0) +
              if target = i then if source = j then share ids[i] * w else 0 else 0 := by
      intro i
      rw [Adjacency.join, getElem_push, getElem_push, received_append, received_append]
      congr 2 <;> split_ifs <;> simp_all [Graph.received]
    simp only [hgrown, Finset.sum_add_distrib, Finset.sum_ite_eq, Finset.mem_univ, if_true,
      h.received, Diffusion.arriving_append]
    simp [Diffusion.arriving, ← getElem_eq_iff hdistinct, add_assoc]

theorem adjacencyOf_mirrors (hdistinct : ids.Nodup) (edges : List GraphEdge) :
    Mirrors (adjacencyOf ids edges) (linksOf ids edges) := by
  induction edges using List.reverseRecOn with
  | nil => exact mirrors_empty
  | append_singleton edges edge ih =>
    rw [adjacencyOf, List.foldl_append, ← adjacencyOf, linksOf, List.filterMap_append,
      ← linksOf]
    simp only [List.foldl_cons, List.foldl_nil]
    cases hsource : indexOf ids edge.source with
    | none =>
      have hmissing : edge.source ∉ ids := fun h => by
        simpa [hsource] using indexOf_isSome_iff.mpr h
      simpa [linkOf, hmissing] using ih
    | some source =>
      cases htarget : indexOf ids edge.target with
      | none =>
        have hmissing : edge.target ∉ ids := fun h => by
          simpa [htarget] using indexOf_isSome_iff.mpr h
        simpa [linkOf, hmissing] using ih
      | some target =>
        have hsourceId := getElem_of_indexOf hsource
        have htargetId := getElem_of_indexOf htarget
        have hpresent : edge.source ∈ ids ∧ edge.target ∈ ids := by
          rw [← indexOf_isSome_iff, ← indexOf_isSome_iff, hsource, htarget]
          exact ⟨rfl, rfl⟩
        by_cases hsame : source = target
        · have hloop : edge.source = edge.target := by rw [← hsourceId, ← htargetId, hsame]
          simpa [hsame, linkOf, hloop] using ih
        · have hne : edge.source ≠ edge.target := by
            rw [← hsourceId, ← htargetId]
            exact fun h => hsame ((getElem_eq_iff hdistinct).mp h)
          have hjoined := ih.join hdistinct source target (weight edge.kind)
          rw [hsourceId, htargetId] at hjoined
          simpa [hsame, linkOf, hpresent, hne] using hjoined

section Rounds

variable {links : List (Diffusion.Link Text ℚ)} {adjacency : Adjacency ids.length}
  {score restart : Vector ℚ ids.length} {mass start : Text → ℚ}

/-- A node without links sends nothing either way: its share is a division by zero. -/
theorem flow_reads (hmirrors : Mirrors adjacency links) (hscore : Reads score mass) :
    Reads (flow adjacency score).1 (Diffusion.arriving links (Diffusion.shareOf links mass)) := by
  intro j
  rw [getElem_flow, ← hmirrors.received]
  apply Finset.sum_congr rfl
  intro i _
  rw [given, hmirrors.outgoing, hscore, Diffusion.shareOf]
  split_ifs with h
  · rw [h, div_zero]
    simp [received]
  · rfl

theorem flow_stranded (hdistinct : ids.Nodup) (hmirrors : Mirrors adjacency links)
    (hscore : Reads score mass) :
    (flow adjacency score).2 = Diffusion.stranded links ids.toFinset mass := by
  rw [flow_dangling, Diffusion.stranded, Finset.sum_filter, ← sum_positions hdistinct]
  apply Finset.sum_congr rfl
  intro i _
  rw [hmirrors.outgoing, hscore]

theorem iterate_reads (hdistinct : ids.Nodup) (hmirrors : Mirrors adjacency links)
    (hrestart : Reads restart start) (hscore : Reads score mass) :
    Reads (iterate adjacency restart score)
      (Diffusion.step links DAMPING start ids.toFinset mass) := by
  intro j
  have hround : (iterate adjacency restart score)[j] = (1 - DAMPING) * restart[j] +
      DAMPING * ((flow adjacency score).1[j] + (flow adjacency score).2 * restart[j]) := by
    simp [iterate]
  rw [hround, flow_reads hmirrors hscore, flow_stranded hdistinct hmirrors hscore, hrestart,
    Diffusion.step]

theorem delta_eq (hdistinct : ids.Nodup) {updated : Vector ℚ ids.length} {mass' : Text → ℚ}
    (hupdated : Reads updated mass') (hscore : Reads score mass) :
    delta updated score = ∑ id ∈ ids.toFinset, |mass' id - mass id| := by
  rw [delta, ← Fin.sum_univ_def, ← sum_positions hdistinct]
  apply Finset.sum_congr rfl
  intro i _
  rw [hupdated, hscore]

theorem iterations_reads (hdistinct : ids.Nodup) (hmirrors : Mirrors adjacency links)
    (hrestart : Reads restart start) (rounds : ℕ) (hscore : Reads score mass) :
    Reads (iterations adjacency restart rounds score)
      (Diffusion.run links DAMPING TOLERANCE start ids.toFinset rounds mass) := by
  induction rounds generalizing score mass with
  | zero => exact hscore
  | succ rounds ih =>
    have hround := iterate_reads hdistinct hmirrors hrestart hscore
    rw [iterations, Diffusion.run]
    simp only [delta_eq hdistinct hround hscore]
    split_ifs
    · exact hround
    · exact ih hround

end Rounds

/-- The seeds that are present. -/
def seeded (ids seeds : List Text) : Finset Text := ids.toFinset ∩ seeds.toFinset

/-- All mass on the seeds, or uniform if none exist. -/
def restartOf (ids seeds : List Text) (id : Text) : ℚ :=
  if seeded ids seeds = ∅ then 1 / ids.toFinset.card
  else if id ∈ seeded ids seeds then 1 / (seeded ids seeds).card
  else 0

theorem isDistribution_restartOf (hpresent : ids ≠ []) (seeds : List Text) :
    Diffusion.IsDistribution ids.toFinset (restartOf ids seeds) := by
  have hcard : (ids.toFinset.card : ℚ) ≠ 0 := by
    rw [Nat.cast_ne_zero, Finset.card_ne_zero]
    simpa using hpresent
  constructor
  · intro id _
    rw [restartOf]
    split_ifs <;> positivity
  · by_cases hnone : seeded ids seeds = ∅
    · simp only [restartOf, hnone, if_true, Finset.sum_const, nsmul_eq_mul]
      exact mul_one_div_cancel hcard
    · have hseeds : ((seeded ids seeds).card : ℚ) ≠ 0 := by
        rw [Nat.cast_ne_zero, Finset.card_ne_zero]
        exact Finset.nonempty_iff_ne_empty.mpr hnone
      have hinside : ids.toFinset ∩ seeded ids seeds = seeded ids seeds :=
        Finset.inter_eq_right.mpr Finset.inter_subset_left
      simp only [restartOf, hnone, if_false, Finset.sum_ite_mem, hinside, Finset.sum_const,
        nsmul_eq_mul]
      exact mul_one_div_cancel hseeds

theorem getElem_foldl_set {n : ℕ} (positions : List (Fin n)) (v : Vector ℚ n) (w : ℚ)
    (j : Fin n) :
    (positions.foldl (fun (v : Vector ℚ n) (i : Fin n) => v.set i w) v)[j] =
      if j ∈ positions then w else v[j] := by
  induction positions using List.reverseRecOn with
  | nil => simp
  | append_singleton positions i ih =>
    rw [List.foldl_append, List.foldl_cons, List.foldl_nil]
    by_cases h : i = j
    · subst h
      simp
    · have hne : (i : ℕ) ≠ j := fun heq => h (Fin.ext heq)
      simpa [Vector.getElem_set_ne, hne, Ne.symm h] using ih

/-- The present positions are those of the present seeds. -/
theorem toFinset_present (hdistinct : ids.Nodup) (seeds : List Text) (i : Fin ids.length) :
    i ∈ (seeds.filterMap (indexOf ids)).dedup ↔ ids[i] ∈ seeded ids seeds := by
  simp only [List.mem_dedup, List.mem_filterMap, indexOf_eq_some_iff hdistinct, seeded,
    Finset.mem_inter, List.mem_toFinset]
  constructor
  · rintro ⟨seed, hseed, rfl⟩
    exact ⟨List.getElem_mem i.isLt, hseed⟩
  · rintro ⟨-, hseed⟩
    exact ⟨_, hseed, rfl⟩

theorem card_present (hdistinct : ids.Nodup) (seeds : List Text) :
    (seeds.filterMap (indexOf ids)).dedup.length = (seeded ids seeds).card := by
  rw [← List.toFinset_card_of_nodup (List.nodup_dedup _)]
  apply Finset.card_bij fun i _ => ids[i]
  · intro i hi
    exact (toFinset_present hdistinct seeds i).mp (List.mem_toFinset.mp hi)
  · intro i _ j _ h
    exact (getElem_eq_iff hdistinct).mp h
  · intro id hid
    obtain ⟨position, hposition, rfl⟩ :=
      List.mem_iff_getElem.mp (List.mem_toFinset.mp (Finset.mem_inter.mp hid).1)
    have hpresent := (toFinset_present hdistinct seeds ⟨position, hposition⟩).mpr hid
    exact ⟨⟨position, hposition⟩, List.mem_toFinset.mpr hpresent, rfl⟩

theorem personalisation_reads (hdistinct : ids.Nodup) (seeds : List Text) :
    Reads (personalisation ids seeds) (restartOf ids seeds) := by
  intro i
  have hcard := card_present hdistinct seeds
  have hmem := toFinset_present hdistinct seeds i
  rw [personalisation, restartOf]
  by_cases hnone : seeded ids seeds = ∅
  · have hempty : (seeds.filterMap (indexOf ids)).dedup = [] := by
      rw [← List.length_eq_zero_iff, hcard, hnone, Finset.card_empty]
    simp [hempty, hnone, List.toFinset_card_of_nodup hdistinct]
  · have hsome : (seeds.filterMap (indexOf ids)).dedup ≠ [] := by
      intro h
      rw [h, List.length_nil] at hcard
      exact hnone (Finset.card_eq_zero.mp hcard.symm)
    rw [if_neg (by simpa using hsome), if_neg hnone, getElem_foldl_set, hcard]
    simp only [hmem]
    split_ifs <;> simp

end TinySweeper.Graph
