import TinySweeper.App.Budget
import TinySweeper.Findings.Concern

/-!
# One conversation for a cluster

What grouping does to the observations of one cluster: its leading member opens
the comment and carries the identities of the others, which are marked. Whether
that comment can be posted is decided by the leading member alone.
-/

namespace TinySweeper.App

open Text Evidence Findings Linkage

variable {κ : Type}

/-- Concerns compared word by word, as the source compares them. -/
def wordJudgement (sha256 : Text → List UInt8)
    (applicable : Finding κ → List FileDiff → Option Suggestion) (lowercase : Text → Text) :
    Judgement κ where
  sha256 := sha256
  applicable := applicable
  sameConcern left right := (Concern.of left).sameAs (Concern.of right)
  lowercase := lowercase

theorem coLocated_comm (judge : Judgement κ) (left right : Finding κ) :
    coLocated judge left right = coLocated judge right left := by
  unfold coLocated
  congr 1
  · exact decide_eq_decide.mpr eq_comm
  · cases left.publishedRange with
    | none =>
      cases right.publishedRange with
      | none =>
        by_cases hsame : normalizeRule judge left.rule = normalizeRule judge right.rule
        · simp [hsame]
        · simp [hsame, Ne.symm hsame]
      | some r => rfl
    | some l =>
      cases right.publishedRange with
      | none => rfl
      | some r => exact Bool.and_comm _ _

theorem repeats_comm {judge : Judgement κ}
    (hconcern : ∀ f g, judge.sameConcern f g = judge.sameConcern g f) (left right : Located κ) :
    repeats judge left right = repeats judge right left := by
  unfold repeats
  simp only [coLocated_comm judge left.finding right.finding,
    hconcern left.finding right.finding, ne_comm (a := left.laneIndex) (b := right.laneIndex),
    ne_comm (a := left.finding.reviewPass) (b := right.finding.reviewPass),
    Bool.and_comm left.finding.publishedRange.isNone right.finding.publishedRange.isNone]

theorem locatedFrom_cons (k : ℕ) (l : LaneProposal κ) (lanes : List (LaneProposal κ)) :
    locatedFrom k (l :: lanes) = l.findings.map (Located.mk k) ++ locatedFrom (k + 1) lanes := by
  simp [locatedFrom, List.zipIdx_cons]

/-- Giving lanes their observations back undoes numbering them. -/
theorem locatedFrom_restoreLane {s : Publication κ} {k : ℕ} {lanes : List (LaneProposal κ)}
    {before after : List (Located κ)} (hall : s.all = before ++ after)
    (hbefore : ∀ o ∈ before, o.laneIndex < k)
    (hafter : after.map Located.laneIndex = (locatedFrom k lanes).map Located.laneIndex) :
    locatedFrom k ((lanes.zipIdx k).map fun entry => restoreLane s entry.2 entry.1) = after := by
  induction lanes generalizing k before after with
  | nil =>
    have hnone : after = [] := by simpa [locatedFrom] using hafter
    simp [hnone, locatedFrom]
  | cons l lanes ih =>
    rw [locatedFrom_cons, List.map_append, List.map_map] at hafter
    obtain ⟨mine, rest, rfl, hmine, hrest⟩ := List.map_eq_append_iff.mp hafter
    have hindex : ∀ o ∈ mine, o.laneIndex = k := by
      intro o ho
      have hmem : o.laneIndex ∈ l.findings.map (Located.laneIndex ∘ Located.mk k) :=
        hmine ▸ List.mem_map_of_mem ho
      obtain ⟨_, -, hk⟩ := List.mem_map.mp hmem
      exact hk.symm
    have hlater : ∀ o ∈ rest, k + 1 ≤ o.laneIndex := by
      intro o ho
      have hmem : o.laneIndex ∈ (locatedFrom (k + 1) lanes).map Located.laneIndex :=
        hrest ▸ List.mem_map_of_mem ho
      obtain ⟨o', ho', hk⟩ := List.mem_map.mp hmem
      exact hk ▸ (laneIndex_of_mem_locatedFrom ho').1
    have hfilter : s.all.filter (fun o => o.laneIndex = k) = mine := by
      rw [hall, List.filter_append, List.filter_append]
      have h₁ : before.filter (fun o => o.laneIndex = k) = [] :=
        List.filter_eq_nil_iff.mpr fun o ho => by simpa using (hbefore o ho).ne
      have h₂ : mine.filter (fun o => o.laneIndex = k) = mine :=
        List.filter_eq_self.mpr fun o ho => by simpa using hindex o ho
      have h₃ : rest.filter (fun o => o.laneIndex = k) = [] :=
        List.filter_eq_nil_iff.mpr fun o ho => by simpa using Nat.ne_of_gt (hlater o ho)
      rw [h₁, h₂, h₃]
      simp
    have htail := @ih (k + 1) (before ++ mine) rest (by rw [hall, List.append_assoc])
      (fun o ho => by
        rcases List.mem_append.mp ho with ho | ho
        · exact (hbefore o ho).trans (Nat.lt_succ_self k)
        · exact hindex o ho ▸ Nat.lt_succ_self k) hrest
    rw [List.zipIdx_cons, List.map_cons, locatedFrom_cons, htail]
    have hback : (restoreLane s k l).findings.map (Located.mk k) = mine := by
      simp only [restoreLane, hfilter, List.map_map]
      exact (List.map_congr_left fun o ho => by
        rw [Function.comp_apply, ← hindex o ho]
        rfl).trans (List.map_id mine)
    rw [hback]

theorem located_distribute {s : Publication κ} {lanes : List (LaneProposal κ)}
    (hsaid : s.all.map said = (located lanes).map said) :
    located (distribute s lanes) = s.all := by
  have hindex : s.all.map Located.laneIndex = (located lanes).map Located.laneIndex := by
    simpa [said, List.map_map, Function.comp_def] using congrArg (List.map Prod.fst) hsaid
  exact @locatedFrom_restoreLane κ s 0 lanes [] _ rfl (by simp) hindex

section Grouping

variable [Confidence κ] (judge : Judgement κ)

omit [Confidence κ] in
theorem located_eq (lanes : List (LaneProposal κ)) : located lanes =
    (lanes.map LaneProposal.findings).zipIdx.flatMap fun entry =>
      entry.1.map (Located.mk entry.2) := by
  rw [located, List.zipIdx_map, List.flatMap_map]
  rfl

theorem located_groupSummaryNotes (lanes : List (LaneProposal κ)) :
    located (groupSummaryNotes judge lanes) = located lanes := by
  rw [located_eq, located_eq, map_groupSummaryNotes judge (fun _ => rfl)]

/-- Position for position, grouping turns the observations into their publication. -/
theorem located_groupCoLocatedFindings (lanes : List (LaneProposal κ)) :
    located (groupCoLocatedFindings judge lanes) =
      (publication judge (groupSummaryNotes judge lanes)).all :=
  located_distribute (said_publication judge (groupSummaryNotes judge lanes))

theorem rankAt_congr {all all' : List (Located κ)} {cluster : List ℕ}
    (hsame : ∀ i ∈ cluster, all[i]? = all'[i]?) :
    maxBy (rankAt all) cluster = maxBy (rankAt all') cluster :=
  maxBy_congr fun i hi j hj => by rw [rankAt, rankAt, hsame i hi, hsame j hj]

/-- The other members of a cluster. -/
def observations (all : List (Located κ)) (cluster : List ℕ) (primary : ℕ) : List (Located κ) :=
  (cluster.filter fun index => index ≠ primary).filterMap fun index => all[index]?

omit [Confidence κ] in
theorem observations_congr {all all' : List (Located κ)} {cluster : List ℕ}
    (hsame : ∀ i ∈ cluster, all[i]? = all'[i]?) (primary : ℕ) :
    observations all cluster primary = observations all' cluster primary :=
  List.filterMap_congr fun i hi => hsame i (List.mem_filter.mp hi).1

/-- A member after its cluster is published. -/
def member (all : List (Located κ)) (cluster : List ℕ) (j : ℕ) (l : Located κ) : Located κ :=
  if cluster.length ≤ 1 then l
  else
    match maxBy (rankAt all) cluster with
    | none => l
    | some primary =>
      if primary = j then opener judge l (observations all cluster primary) else l.mark

theorem getElem?_publishCluster_mem {s : Publication κ} {all : List (Located κ)}
    {cluster : List ℕ} (hsame : ∀ i ∈ cluster, s.all[i]? = all[i]?) {j : ℕ} (hj : j ∈ cluster) :
    (publishCluster judge s cluster).all[j]? = all[j]?.map (member judge all cluster j) := by
  unfold member
  by_cases hlarge : cluster.length ≤ 1
  · simp [publishCluster, hlarge, hsame j hj]
  · obtain ⟨primary, hp, hprimary⟩ := maxBy_isSome (rankAt s.all) (List.ne_nil_of_mem hj)
    have hprimary' := rankAt_congr hsame ▸ hprimary
    rw [getElem?_publishCluster judge hlarge hprimary, hsame j hj]
    simp only [hlarge, hprimary', if_false, hj, if_true]
    have hothers := observations_congr hsame primary
    unfold observations at hothers
    rw [hothers]
    rfl

theorem getElem?_publishClusters_of_notMem {clusters : List (List ℕ)} {j : ℕ}
    (hj : j ∉ clusters.flatten) (s : Publication κ) :
    (clusters.foldl (publishCluster judge) s).all[j]? = s.all[j]? := by
  induction clusters generalizing s with
  | nil => rfl
  | cons cluster clusters ih =>
    rw [List.flatten_cons, List.mem_append, not_or] at hj
    rw [List.foldl_cons, ih hj.2, getElem?_publishCluster_of_notMem judge hj.1]

/-- Disjoint clusters are published independently. -/
theorem getElem?_publishClusters {clusters : List (List ℕ)} (hnodup : clusters.flatten.Nodup)
    {s : Publication κ} {all : List (Located κ)}
    (hsame : ∀ i ∈ clusters.flatten, s.all[i]? = all[i]?) {cluster : List ℕ}
    (hcluster : cluster ∈ clusters) {j : ℕ} (hj : j ∈ cluster) :
    (clusters.foldl (publishCluster judge) s).all[j]? =
      all[j]?.map (member judge all cluster j) := by
  induction clusters generalizing s with
  | nil => exact absurd hcluster List.not_mem_nil
  | cons first clusters ih =>
    rw [List.flatten_cons] at hnodup hsame
    have hfirst : ∀ i ∈ first, s.all[i]? = all[i]? := fun i hi =>
      hsame i (List.mem_append_left _ hi)
    have hdisjoint := List.disjoint_of_nodup_append hnodup
    rw [List.foldl_cons]
    rcases List.mem_cons.mp hcluster with rfl | hcluster
    · rw [getElem?_publishClusters_of_notMem judge (fun hlater => hdisjoint hj hlater)]
      exact getElem?_publishCluster_mem judge hfirst hj
    · refine ih hnodup.of_append_right (fun i hi => ?_) hcluster
      rw [getElem?_publishCluster_of_notMem judge (fun hearlier => hdisjoint hearlier hi)]
      exact hsame i (List.mem_append_right _ hi)

theorem known_opener_eq (located : Located κ) (observations : List (Located κ)) :
    (opener judge located observations).finding.known judge.sha256 =
      located.finding.known judge.sha256 :=
  known_eq_of_core judge (congrArg Prod.snd (opener_spec judge located observations).1)

/-- An opener takes over no alias that is its own identity. -/
theorem known_notMem_opener {located : Located κ} (observations : List (Located κ))
    (hown : located.finding.known judge.sha256 ∉ located.finding.aliases) :
    located.finding.known judge.sha256 ∉ (opener judge located observations).finding.aliases := by
  induction observations generalizing located with
  | nil => exact hown
  | cons o observations ih =>
    refine @ih (located.merge judge o.finding) ?_
    intro hmem
    change located.finding.known judge.sha256 ∈
      (mergeObservation judge located.finding o.finding).aliases at hmem
    simp only [mergeObservation, List.mem_dedup, List.mem_insertionSort, List.mem_append,
      List.mem_filter] at hmem
    rcases hmem with hold | ⟨-, hnew⟩
    · exact hown hold
    · simp at hnew

theorem inlineAnchorWithin_opener (located : Located κ) (observations : List (Located κ))
    (diffs : List FileDiff) :
    inlineAnchorWithin (opener judge located observations).finding diffs =
      inlineAnchorWithin located.finding diffs := by
  have hcore := congrArg Prod.snd (opener_spec judge located observations).1
  exact congrArg (fun f : Finding Unit => inlineAnchorWithin f diffs) hcore

end Grouping

section Leading

variable [Confidence κ] [Std.TransCmp (Confidence.totalCmp : κ → κ → Ordering)]
variable {all : List (Located κ)} {cluster : List ℕ}

theorem leads_rankAt {primary : ℕ} (hrange : ∀ i ∈ cluster, i < all.length)
    (hprimary : maxBy (rankAt all) cluster = some primary) :
    Leads (rankAt all) cluster primary := by
  obtain ⟨d, -⟩ : ∃ d, all[primary]? = some d :=
    ⟨_, List.getElem?_eq_getElem (hrange primary (mem_of_maxBy _ hprimary))⟩
  let byFinding := fun i j : ℕ =>
    findingRank (all[i]?.getD d).finding (all[j]?.getD d).finding
  have htrans : Std.TransCmp byFinding :=
    transCmp_comap (findingRank : Finding κ → Finding κ → Ordering)
      fun i => (all[i]?.getD d).finding
  have hsame : ∀ i ∈ cluster, ∀ j ∈ cluster, rankAt all i j = byFinding i j := by
    intro i hi j hj
    simp [rankAt, byFinding, List.getElem?_eq_getElem (hrange i hi),
      List.getElem?_eq_getElem (hrange j hj)]
  rw [maxBy_congr hsame] at hprimary
  exact (maxBy_leads hprimary).congr fun i hi j hj => (hsame i hi j hj).symm

theorem rankAt_swap (all : List (Located κ)) (i j : ℕ) :
    rankAt all j i = (rankAt all i j).swap := by
  unfold rankAt
  cases all[i]? with
  | none => cases all[j]? <;> rfl
  | some l =>
    cases all[j]? with
    | none => rfl
    | some r =>
      have hswap : findingRank r.finding l.finding = (findingRank l.finding r.finding).swap :=
        Std.OrientedCmp.eq_swap
      exact hswap

/-- No member outranks the leading one. -/
theorem rankAt_le_leader {primary j : ℕ} (hleads : Leads (rankAt all) cluster primary)
    (hj : j ∈ cluster) : rankAt all j primary ≠ .gt := by
  obtain ⟨before, after, rfl, hbefore, hafter⟩ := hleads
  rcases List.mem_append.mp hj with hj | hj
  · exact hbefore j hj
  rcases List.mem_cons.mp hj with rfl | hj
  · intro hgt
    have hswap := rankAt_swap all j j
    rw [hgt] at hswap
    cases hswap
  · rw [rankAt_swap, hafter j hj]
    decide

/-- A member that ties with the leading one comes before it. -/
theorem le_leader_of_eq {primary j : ℕ} (hleads : Leads (rankAt all) cluster primary)
    (hsorted : cluster.Pairwise (· < ·)) (hj : j ∈ cluster) (hties : rankAt all j primary = .eq) :
    j ≤ primary := by
  obtain ⟨before, after, rfl, -, hafter⟩ := hleads
  rcases List.mem_append.mp hj with hj | hj
  · exact ((List.pairwise_append.mp hsorted).2.2 j hj primary List.mem_cons_self).le
  rcases List.mem_cons.mp hj with rfl | hj
  · exact le_rfl
  · rw [rankAt_swap, hafter j hj] at hties
    cases hties

/-- Whether the observation at a position can be posted on the live diff. -/
def anchorable (diffs : List FileDiff) (all : List (Located κ)) (i : ℕ) : Bool :=
  all[i]?.any fun l => inlineAnchorWithin l.finding diffs

/-- The clusters of the observations of all lanes, by position. -/
def clustersOf (judge : Judgement κ) (lanes : List (LaneProposal κ)) : List (List ℕ) :=
  clusters (repeatsAt judge (located lanes)) (List.range (located lanes).length)

/-- `primary` stands for a cluster of observations `before` once they are published `after`. -/
structure StandsFor (judge : Judgement κ) (diffs : List FileDiff) (before after : List (Located κ))
    (cluster : List ℕ) (primary : ℕ) : Prop where
  member : primary ∈ cluster
  alone : ∀ j ∈ cluster, ∀ l, after[j]? = some l → (l.finding.grouped = false ↔ j = primary)
  repeating : ∀ i ∈ cluster, ∀ j ∈ cluster, i ≠ j → repeatsAt judge before i j = true
  highest : ∀ j ∈ cluster, rankAt before j primary ≠ .gt
  carries : ∀ j ∈ cluster, ∀ l shown, before[j]? = some l → after[primary]? = some shown →
    l.finding.known judge.sha256 = shown.finding.known judge.sha256 ∨
      l.finding.known judge.sha256 ∈ shown.finding.aliases
  own : ∀ shown, after[primary]? = some shown →
    shown.finding.known judge.sha256 ∉ shown.finding.aliases
  -- A member that can be posted and that no other member displaces is enough.
  anchored : (∃ j ∈ cluster, anchorable diffs before j = true ∧ ∀ i ∈ cluster,
      anchorable diffs before i = false →
        rankAt before j i = .gt ∨ rankAt before j i = .eq ∧ i < j) →
    anchorable diffs after primary = true

omit [Confidence κ] [Std.TransCmp (Confidence.totalCmp : κ → κ → Ordering)] in
theorem mem_clustersOf {judge : Judgement κ} {lanes : List (LaneProposal κ)}
    (hcluster : cluster ∈ clustersOf judge lanes) :
    cluster ≠ [] ∧ cluster.Pairwise (· < ·) ∧ ∀ i ∈ cluster, i < (located lanes).length := by
  have hsub := sublist_of_mem_clusters _ _ cluster hcluster
  refine ⟨?_, List.pairwise_lt_range.sublist hsub, fun i hi => List.mem_range.mp (hsub.subset hi)⟩
  rintro rfl
  exact nil_notMem_clusters _ _ hcluster

omit [Confidence κ] [Std.TransCmp (Confidence.totalCmp : κ → κ → Ordering)] in
/-- Members repeat each other in whichever order they arrived. -/
theorem repeatsAt_of_mem {judge : Judgement κ}
    (hconcern : ∀ f g, judge.sameConcern f g = judge.sameConcern g f)
    {lanes : List (LaneProposal κ)} (hcluster : cluster ∈ clustersOf judge lanes) {i j : ℕ}
    (hi : i ∈ cluster) (hj : j ∈ cluster) (hne : i ≠ j) :
    repeatsAt judge (located lanes) i j = true := by
  have hcomm : ∀ i j, repeatsAt judge (located lanes) i j = repeatsAt judge (located lanes) j i := by
    intro i j
    unfold repeatsAt
    cases (located lanes)[i]? with
    | none => cases (located lanes)[j]? <;> rfl
    | some l =>
      cases (located lanes)[j]? with
      | none => rfl
      | some r => exact repeats_comm hconcern l r
  have hpairs := pairwise_clusters _ _ cluster hcluster
  have hsymm : Std.Symm fun a b => repeatsAt judge (located lanes) a b = true :=
    ⟨fun a b h => (hcomm b a).trans h⟩
  exact hpairs.forall hi hj hne

omit [Std.TransCmp (Confidence.totalCmp : κ → κ → Ordering)] in
/-- A cluster of one opens its own comment, with nothing to carry. -/
theorem member_eq (judge : Judgement κ) {primary j : ℕ}
    (hprimary : maxBy (rankAt all) cluster = some primary) (hj : j ∈ cluster) (l : Located κ) :
    member judge all cluster j l =
      if primary = j then opener judge l (observations all cluster primary) else l.mark := by
  unfold member
  by_cases hlarge : cluster.length ≤ 1
  · rw [if_pos hlarge]
    obtain ⟨i, rfl⟩ : ∃ i, cluster = [i] := by
      cases cluster with
      | nil => exact absurd hj List.not_mem_nil
      | cons i rest => exact ⟨i, by simp_all⟩
    obtain rfl : i = primary := Option.some.inj hprimary
    rw [if_pos (List.mem_singleton.mp hj).symm]
    simp [observations, opener]
  · rw [if_neg hlarge, hprimary]

omit [Std.TransCmp (Confidence.totalCmp : κ → κ → Ordering)] in
/-- A member before and after grouping. -/
theorem getElem?_groupCoLocatedFindings (judge : Judgement κ) {lanes : List (LaneProposal κ)}
    (hcluster : cluster ∈ clustersOf judge lanes) {primary j : ℕ}
    (hprimary : maxBy (rankAt (located lanes)) cluster = some primary) (hj : j ∈ cluster) :
    (located (groupCoLocatedFindings judge lanes))[j]? = (located lanes)[j]?.map fun l =>
      if primary = j then opener judge l (observations (located lanes) cluster primary)
      else l.mark := by
  have hnotes := located_groupSummaryNotes judge lanes
  rw [located_groupCoLocatedFindings, publication, hnotes]
  have hnodup : (clustersOf judge lanes).flatten.Nodup :=
    nodup_flatten_clusters _ List.nodup_range
  refine (getElem?_publishClusters judge hnodup (fun _ _ => rfl) hcluster hj).trans ?_
  congr 1
  funext l
  exact member_eq judge hprimary hj l

/-- Every observation is in one cluster, and of every cluster one member stands for the
others: it alone stays ungrouped, none outranks it, and it carries their identities. It can
be posted when some member can that no other member displaces. -/
theorem cluster_stands_for_members (sha256 : Text → List UInt8)
    (applicable : Finding κ → List FileDiff → Option Suggestion) (lowercase : Text → Text)
    (diffs : List FileDiff) (lanes : List (LaneProposal κ))
    (hfresh : ∀ l ∈ lanes, ∀ f ∈ l.findings, f.grouped = false ∧ f.known sha256 ∉ f.aliases) :
    let judge := wordJudgement sha256 applicable lowercase
    let after := located (groupCoLocatedFindings judge lanes)
    (clustersOf judge lanes).flatten.Perm (List.range (located lanes).length) ∧
      after.map said = (located lanes).map said ∧
      ∀ cluster ∈ clustersOf judge lanes,
        ∃ primary, StandsFor judge diffs (located lanes) after cluster primary := by
  intro judge after
  refine ⟨flatten_clusters _ _, ?_, ?_⟩
  · change (located (groupCoLocatedFindings judge lanes)).map said = _
    rw [located_groupCoLocatedFindings, said_publication, located_groupSummaryNotes]
  intro cluster hcluster
  obtain ⟨hne, hsorted, hrange⟩ := mem_clustersOf hcluster
  obtain ⟨primary, hp, hprimary⟩ := maxBy_isSome (rankAt (located lanes)) hne
  have hleads := leads_rankAt hrange hprimary
  have hafter : ∀ j ∈ cluster, after[j]? = _ := fun j hj =>
    getElem?_groupCoLocatedFindings judge hcluster hprimary hj
  have hshown := hafter primary hp
  simp only [if_true] at hshown
  have harrives : ∀ (j : ℕ) (l : Located κ), (located lanes)[j]? = some l → l.finding.grouped = false ∧
      l.finding.known judge.sha256 ∉ l.finding.aliases := by
    intro j l hl
    obtain ⟨entry, hentry, hl⟩ := List.mem_flatMap.mp (List.mem_of_getElem? hl)
    obtain ⟨f, hf, rfl⟩ := List.mem_map.mp hl
    exact hfresh entry.1 (List.fst_mem_of_mem_zipIdx hentry) f hf
  refine ⟨primary, hp, ?_, ?_, ?_, ?_, ?_, ?_⟩
  · intro j hj l hl
    rw [hafter j hj] at hl
    obtain ⟨before, hbefore, rfl⟩ := Option.map_eq_some_iff.mp hl
    by_cases hsame : primary = j
    · rw [if_pos hsame, (opener_spec judge before _).2.1]
      exact iff_of_true (harrives j before hbefore).1 hsame.symm
    · rw [if_neg hsame]
      exact iff_of_false Bool.noConfusion (Ne.symm hsame)
  · intro i hi j hj hij
    exact repeatsAt_of_mem (fun f g => Concern.sameAs_comm _ _) hcluster hi hj hij
  · exact fun j hj => rankAt_le_leader hleads hj
  · intro j hj l shown hl hopener
    rw [hshown] at hopener
    obtain ⟨before, hbefore, rfl⟩ := Option.map_eq_some_iff.mp hopener
    rw [known_opener_eq]
    by_cases hsame : j = primary
    · subst hsame
      rw [hbefore] at hl
      exact .inl (by rw [Option.some.inj hl])
    · refine known_opener judge (List.mem_filterMap.mpr ⟨j, ?_, hl⟩)
      exact List.mem_filter.mpr ⟨hj, by simpa using hsame⟩
  · intro shown hopener
    rw [hshown] at hopener
    obtain ⟨before, hbefore, rfl⟩ := Option.map_eq_some_iff.mp hopener
    rw [known_opener_eq]
    exact known_notMem_opener judge _ (harrives primary before hbefore).2
  · rintro ⟨j, hj, hposted, hfirst⟩
    have hkept : anchorable diffs after primary = anchorable diffs (located lanes) primary := by
      unfold anchorable
      rw [hshown, Option.any_map]
      congr 1
      funext l
      exact inlineAnchorWithin_opener judge l _ diffs
    rw [hkept]
    by_contra hunposted
    rcases hfirst primary hp (Bool.eq_false_of_not_eq_true hunposted) with hgt | ⟨hties, hlt⟩
    · exact rankAt_le_leader hleads hj hgt
    · exact absurd (le_leader_of_eq hleads hsorted hj hties) (not_le.mpr hlt)

end Leading

def plainWords : Judgement ℕ := wordJudgement (fun text => [text.length.toUInt8]) (fun _ _ => none) id

/-- One concern, as a lane of the given severity states it. -/
def tokenCheck (severity : Scan.Severity) (line : Option ℕ) (title : String) : Finding ℕ :=
  { observation 1 with severity := severity, line := line, title := title.toList }

/-- The higher-ranked statement names no line, the other one a line of the diff. -/
def twoStatements (line : Option ℕ) : List (LaneProposal ℕ) :=
  [laneWith [tokenCheck .critical line "Validate the session token"] [],
    laneWith [tokenCheck .high (some 1) "Validate the session token"] []]

/-- Two unplaced reports of one pass under one rule, on different concerns. -/
def twoReports : List (LaneProposal ℕ) :=
  [laneWith [tokenCheck .high none "Validate the session token",
    tokenCheck .high none "Close the database connection"] []]

/-- Placed together by different sources, or one concern. -/
def repeatsFromElsewhere (judge : Judgement κ) (left right : Located κ) : Bool :=
  ((left.laneIndex ≠ right.laneIndex || left.finding.reviewPass ≠ right.finding.reviewPass) &&
    coLocated judge left.finding right.finding) || judge.sameConcern left.finding right.finding

/-- A cluster whose ungrouped member cannot be posted although the other can, and one whose
members repeat each other under their rule only, from one source. -/
theorem cluster_unposted_and_single_source :
    (∃ cluster ∈ clustersOf plainWords (twoStatements none), ∃ primary ∈ cluster, ∃ j ∈ cluster,
      ((located (groupCoLocatedFindings plainWords (twoStatements none)))[primary]?.any
        fun l => !l.finding.grouped) = true ∧
      anchorable [changedFile ['a']] (located (twoStatements none)) j = true ∧
      anchorable [changedFile ['a']]
        (located (groupCoLocatedFindings plainWords (twoStatements none))) primary = false) ∧
    ∃ cluster ∈ clustersOf plainWords twoReports, ∃ i ∈ cluster, ∃ j ∈ cluster, i ≠ j ∧
      ∃ left ∈ (located twoReports)[i]?, ∃ right ∈ (located twoReports)[j]?,
        repeatsFromElsewhere plainWords left right = false := by
  constructor
  · exact ⟨[0, 1], by decide +kernel, 0, by decide, 1, by decide, by decide +kernel,
      by decide +kernel, by decide +kernel⟩
  · exact ⟨[0, 1], by decide +kernel, 0, by decide, 1, by decide, by decide, _, rfl, _, rfl,
      by decide +kernel⟩

/-- Where both statements name a line of the diff, the one that opens can be posted. -/
theorem cluster_stands_for_two_statements :
    ∃ primary, StandsFor plainWords [changedFile ['a']] (located (twoStatements (some 1)))
      (located (groupCoLocatedFindings plainWords (twoStatements (some 1)))) [0, 1] primary :=
  (cluster_stands_for_members (fun text => [text.length.toUInt8]) (fun _ _ => none) id
    [changedFile ['a']] (twoStatements (some 1)) (by decide +kernel)).2.2 [0, 1]
    (by decide +kernel)

end TinySweeper.App
