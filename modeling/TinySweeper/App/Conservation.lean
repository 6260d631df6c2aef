import TinySweeper.App.Grouping

/-!
# No finding is lost

Between the lanes and the author a finding may be grouped with others, gain
aliases and confidence, and move to the overflow of its lane. What it says stays,
once, in its lane, and a grouped finding is answered for by one that is shown.
-/

namespace TinySweeper.App

open Text Evidence Findings Linkage
open Scan (Severity ScanKind)

variable {κ : Type}

/-- What a finding says, whatever its publication. -/
def core (f : Finding κ) : Finding Unit :=
  { f with confidence := (), aliases := [], grouped := false }

/-- What an observation says and for which lane. -/
def said (l : Located κ) : ℕ × Finding Unit := (l.laneIndex, core l.finding)

/-- A shown finding that is another's, or carries its identity. -/
def Carries (judge : Judgement κ) (shown f : Finding κ) : Prop :=
  shown.grouped = false ∧
    (f.known judge.sha256 = shown.known judge.sha256 ∨ f.known judge.sha256 ∈ shown.aliases)

theorem known_eq_of_core (judge : Judgement κ) {f g : Finding κ} (hcore : core f = core g) :
    f.known judge.sha256 = g.known judge.sha256 := by
  have hknown := congrArg (Finding.known judge.sha256) hcore
  exact hknown

section Merging

variable [Confidence κ] (judge : Judgement κ)

@[simp] theorem core_mergeObservation (primary observation : Finding κ) :
    core (mergeObservation judge primary observation) = core primary := rfl

@[simp] theorem grouped_mergeObservation (primary observation : Finding κ) :
    (mergeObservation judge primary observation).grouped = primary.grouped := rfl

theorem aliases_subset_mergeObservation (primary observation : Finding κ) :
    primary.aliases ⊆ (mergeObservation judge primary observation).aliases := by
  intro identity hmem
  simp [mergeObservation, hmem]

theorem known_mergeObservation (primary observation : Finding κ) :
    observation.known judge.sha256 = primary.known judge.sha256 ∨
      observation.known judge.sha256 ∈ (mergeObservation judge primary observation).aliases := by
  by_cases hsame : observation.known judge.sha256 = primary.known judge.sha256
  · exact .inl hsame
  · right
    simp [mergeObservation, hsame]

/-- The opener after a cluster's observations are merged into it. -/
def opener (located : Located κ) (observations : List (Located κ)) : Located κ :=
  observations.foldl (fun l o => l.merge judge o.finding) located

theorem opener_spec (located : Located κ) (observations : List (Located κ)) :
    said (opener judge located observations) = said located ∧
      (opener judge located observations).finding.grouped = located.finding.grouped ∧
      located.finding.aliases ⊆ (opener judge located observations).finding.aliases := by
  induction observations generalizing located with
  | nil => exact ⟨rfl, rfl, List.Subset.refl _⟩
  | cons o observations ih =>
    obtain ⟨hsaid, hgrouped, haliases⟩ := ih (located.merge judge o.finding)
    exact ⟨hsaid, hgrouped, List.Subset.trans
      (aliases_subset_mergeObservation judge located.finding o.finding) haliases⟩

theorem known_opener {located o : Located κ} {observations : List (Located κ)}
    (ho : o ∈ observations) :
    o.finding.known judge.sha256 = located.finding.known judge.sha256 ∨
      o.finding.known judge.sha256 ∈ (opener judge located observations).finding.aliases := by
  induction observations generalizing located with
  | nil => cases ho
  | cons first observations ih =>
    have hstep := opener_spec judge (located.merge judge first.finding) observations
    rcases List.mem_cons.mp ho with rfl | ho
    · rcases known_mergeObservation judge located.finding o.finding with hsame | hmem
      · exact .inl hsame
      · exact .inr (hstep.2.2 hmem)
    · exact @ih (located.merge judge first.finding) ho

/-- An observation after its cluster is published. -/
theorem getElem?_publishCluster {s : Publication κ} {cluster : List ℕ} {primary : ℕ}
    (hlarge : ¬cluster.length ≤ 1) (hprimary : maxBy (rankAt s.all) cluster = some primary)
    (j : ℕ) :
    (publishCluster judge s cluster).all[j]? =
      s.all[j]?.map fun l =>
        if primary = j then
          opener judge l
            ((cluster.filter fun index => index ≠ primary).filterMap fun index => (s.all)[index]?)
        else if j ∈ cluster then l.mark else l := by
  have hmark : ∀ l : Located κ, l.mark.mark = l.mark := fun _ => rfl
  unfold publishCluster
  simp only [hlarge, hprimary, if_false]
  rw [getElem?_foldl_modify_at (fun o : Located κ => Located.merge judge o.finding),
    getElem?_foldl_modify hmark, Option.map_map]
  congr 1
  funext l
  by_cases hj : primary = j
  · simp [hj, opener]
  · simp [hj, Ne.symm hj, List.mem_filter]

theorem getElem?_publishCluster_of_notMem {s : Publication κ} {cluster : List ℕ} {j : ℕ}
    (hj : j ∉ cluster) : (publishCluster judge s cluster).all[j]? = s.all[j]? := by
  by_cases hlarge : cluster.length ≤ 1
  · simp [publishCluster, hlarge]
  · cases hprimary : maxBy (rankAt s.all) cluster with
    | none => simp [publishCluster, hprimary]
    | some primary =>
      have hne : primary ≠ j := fun h => hj (h ▸ mem_of_maxBy _ hprimary)
      rw [getElem?_publishCluster judge hlarge hprimary]
      simp [hne, hj]

theorem said_publishCluster (s : Publication κ) (cluster : List ℕ) :
    (publishCluster judge s cluster).all.map said = s.all.map said := by
  by_cases hlarge : cluster.length ≤ 1
  · simp [publishCluster, hlarge]
  · cases hprimary : maxBy (rankAt s.all) cluster with
    | none => simp [publishCluster, hprimary]
    | some primary =>
      apply List.ext_getElem?
      intro j
      rw [List.getElem?_map, List.getElem?_map, getElem?_publishCluster judge hlarge hprimary]
      cases s.all[j]? with
      | none => rfl
      | some l =>
        have hopener := (opener_spec judge l ((cluster.filter fun index =>
          index ≠ primary).filterMap fun index => (s.all)[index]?)).1
        by_cases hj : primary = j
        · simp only [hj, if_true, Option.map_some]
          rw [← hj, hopener]
        · by_cases hmem : j ∈ cluster
          · simp only [hj, hmem, if_true, if_false, Option.map_some]
            rfl
          · simp [hj, hmem]

/-- Every grouped observation is carried by a shown one, both outside the positions waiting. -/
def Answered (all : List (Located κ)) (waiting : List ℕ) : Prop :=
  ∀ j l, all[j]? = some l → l.finding.grouped = true →
    j ∉ waiting ∧ ∃ p shown, p ∉ waiting ∧ all[p]? = some shown ∧
      Carries judge shown.finding l.finding

theorem publishCluster_answered {s : Publication κ} {cluster rest : List ℕ}
    (hdisjoint : List.Disjoint cluster rest) (hrange : ∀ i ∈ cluster, i < s.all.length)
    (hanswered : Answered judge s.all (cluster ++ rest)) :
    Answered judge (publishCluster judge s cluster).all rest := by
  have hungrouped : ∀ i ∈ cluster, ∀ l, s.all[i]? = some l → l.finding.grouped = false := by
    intro i hi l hl
    by_contra hgrouped
    exact (hanswered i l hl (Bool.eq_true_of_not_eq_false hgrouped)).1 (List.mem_append_left _ hi)
  intro j l hj hgrouped
  by_cases hmem : j ∈ cluster
  · by_cases hlarge : cluster.length ≤ 1
    · have hsame : publishCluster judge s cluster = s := by simp [publishCluster, hlarge]
      rw [hsame] at hj
      rw [hungrouped j hmem l hj] at hgrouped
      cases hgrouped
    · obtain ⟨primary, hp, hprimary⟩ := maxBy_isSome (rankAt s.all) (List.ne_nil_of_mem hmem)
      rw [getElem?_publishCluster judge hlarge hprimary] at hj
      obtain ⟨before, hbefore, rfl⟩ := Option.map_eq_some_iff.mp hj
      have hfirst : ∃ first, s.all[primary]? = some first := by
        exact ⟨_, List.getElem?_eq_getElem (hrange primary hp)⟩
      obtain ⟨first, hfirst⟩ := hfirst
      have hopener := opener_spec judge first ((cluster.filter fun index =>
          index ≠ primary).filterMap fun index => (s.all)[index]?)
      by_cases hj : primary = j
      · subst hj
        have hbeforeOpener := opener_spec judge before ((cluster.filter fun index =>
          index ≠ primary).filterMap fun index => (s.all)[index]?)
        rw [if_pos rfl, hbeforeOpener.2.1, hungrouped primary hp before hbefore] at hgrouped
        cases hgrouped
      · have hobserved : before ∈ (cluster.filter fun index =>
            index ≠ primary).filterMap fun index => (s.all)[index]? := by
          rw [List.mem_filterMap]
          exact ⟨j, List.mem_filter.mpr ⟨hmem, by simpa using Ne.symm hj⟩, hbefore⟩
        refine ⟨fun hrest => hdisjoint hmem hrest, primary, _, fun hrest => hdisjoint hp hrest,
          (getElem?_publishCluster judge hlarge hprimary primary).trans
            (by rw [hfirst, Option.map_some, if_pos rfl]), ?_, ?_⟩
        · rw [hopener.2.1]
          exact hungrouped primary hp first hfirst
        · rw [if_neg hj, if_pos hmem]
          have hknown := known_eq_of_core judge (congrArg Prod.snd hopener.1)
          rw [hknown]
          exact known_opener judge (o := before) hobserved
  · rw [getElem?_publishCluster_of_notMem judge hmem] at hj
    obtain ⟨hwaiting, p, shown, hp, hshown, hcarries⟩ := hanswered j l hj hgrouped
    refine ⟨fun hrest => hwaiting (List.mem_append_right _ hrest), p, shown,
      fun hrest => hp (List.mem_append_right _ hrest), ?_, hcarries⟩
    rw [getElem?_publishCluster_of_notMem judge fun hmem => hp (List.mem_append_left _ hmem)]
    exact hshown

theorem publishClusters_answered {clusters : List (List ℕ)} {s : Publication κ}
    (hnodup : clusters.flatten.Nodup) (hrange : ∀ i ∈ clusters.flatten, i < s.all.length)
    (hanswered : Answered judge s.all clusters.flatten) :
    Answered judge (clusters.foldl (publishCluster judge) s).all [] := by
  induction clusters generalizing s with
  | nil => exact hanswered
  | cons cluster clusters ih =>
    rw [List.flatten_cons] at hnodup hrange hanswered
    have hlength : (publishCluster judge s cluster).all.length = s.all.length := by
      simpa using congrArg List.length (said_publishCluster judge s cluster)
    apply ih hnodup.of_append_right
    · intro i hi
      rw [hlength]
      exact hrange i (List.mem_append_right _ hi)
    · exact publishCluster_answered judge (List.disjoint_of_nodup_append hnodup)
        (fun i hi => hrange i (List.mem_append_left _ hi)) hanswered

theorem said_publication (lanes : List (LaneProposal κ)) :
    (publication judge lanes).all.map said = (located lanes).map said :=
  map_foldl_eq (g := fun s : Publication κ => s.all.map said) (said_publishCluster judge) _ _

theorem publication_answered {lanes : List (LaneProposal κ)}
    (hfresh : ∀ l ∈ located lanes, l.finding.grouped = false) :
    Answered judge (publication judge lanes).all [] := by
  have hperm := flatten_clusters (repeatsAt judge (located lanes))
    (List.range (located lanes).length)
  apply publishClusters_answered judge
  · exact nodup_flatten_clusters _ List.nodup_range
  · intro i hi
    exact List.mem_range.mp (hperm.mem_iff.mp hi)
  · intro j l hj hgrouped
    rw [hfresh l (List.mem_of_getElem? hj)] at hgrouped
    cases hgrouped

end Merging

/-- Everything a lane reports, inline or over the budget. -/
def LaneProposal.reported (l : LaneProposal κ) : List (Finding κ) := l.findings ++ l.overflow

/-- What the lanes of one name report. -/
def published (lane : LaneId) (lanes : List (LaneProposal κ)) : List (Finding κ) :=
  (lanes.filter fun l => l.lane = lane).flatMap LaneProposal.reported

/-- Lanes that report the same, in whichever order. -/
def SameReport (l l' : LaneProposal κ) : Prop :=
  l.lane = l'.lane ∧ (l.reported.map core).Perm (l'.reported.map core)

theorem published_perm (lane : LaneId) {lanes lanes' : List (LaneProposal κ)}
    (hsame : List.Forall₂ SameReport lanes lanes') :
    ((published lane lanes).map core).Perm ((published lane lanes').map core) := by
  induction hsame with
  | nil => exact List.Perm.refl _
  | @cons l l' lanes lanes' hl _ ih =>
    obtain ⟨hlane, hperm⟩ := hl
    by_cases hmine : l'.lane = lane
    · simpa [published, hlane, hmine] using hperm.append ih
    · simpa [published, hlane, hmine] using ih

theorem forall₂_zipIdx {R : LaneProposal κ → LaneProposal κ → Prop}
    {f : ℕ → LaneProposal κ → LaneProposal κ} {lanes : List (LaneProposal κ)}
    (hf : ∀ i l, lanes[i]? = some l → R (f i l) l) :
    List.Forall₂ R (lanes.zipIdx.map fun entry => f entry.2 entry.1) lanes := by
  rw [List.forall₂_iff_get]
  refine ⟨by simp, ?_⟩
  intro i hi _
  simpa using hf i _ (List.getElem?_eq_getElem _)

section Sharing

variable (publishable : Finding κ → Bool)

theorem reported_capLane (keep : List (ℕ × ℕ)) (laneIndex : ℕ) (lane : LaneProposal κ) :
    (capLane publishable keep laneIndex lane).reported.Perm lane.reported := by
  have hparts := (List.filter_append_perm (stays publishable keep laneIndex)
    lane.findings.zipIdx).map Prod.fst
  rw [List.map_append, List.zipIdx_map_fst] at hparts
  simp only [LaneProposal.reported, capLane, List.partition_eq_filter_filter]
  refine (List.perm_append_comm_assoc _ _ _).trans ?_
  exact (hparts.append_left _).trans List.perm_append_comm

theorem capProposalFindings_sameReport [Confidence κ] (budget : ℕ)
    (lanes : List (LaneProposal κ)) :
    List.Forall₂ SameReport (capProposalFindings publishable budget lanes) lanes := by
  apply forall₂_zipIdx
  intro i l _
  exact ⟨rfl, (reported_capLane publishable _ i l).map core⟩

/-- The observations of lanes numbered from `k`. -/
def locatedFrom (k : ℕ) (lanes : List (LaneProposal κ)) : List (Located κ) :=
  (lanes.zipIdx k).flatMap fun entry => entry.1.findings.map (Located.mk entry.2)

theorem laneIndex_of_mem_locatedFrom {k : ℕ} {lanes : List (LaneProposal κ)} {o : Located κ}
    (ho : o ∈ locatedFrom k lanes) : k ≤ o.laneIndex ∧ o.laneIndex < k + lanes.length := by
  obtain ⟨entry, hentry, ho⟩ := List.mem_flatMap.mp ho
  obtain ⟨f, -, rfl⟩ := List.mem_map.mp ho
  exact ⟨List.le_snd_of_mem_zipIdx hentry, List.snd_lt_add_of_mem_zipIdx hentry⟩

theorem filter_locatedFrom (k i : ℕ) (lanes : List (LaneProposal κ)) :
    ((locatedFrom k lanes).filter fun o => o.laneIndex = k + i).map Located.finding =
      (lanes[i]?.map LaneProposal.findings).getD [] := by
  induction lanes generalizing k i with
  | nil => simp [locatedFrom]
  | cons l lanes ih =>
    have hcons : locatedFrom k (l :: lanes) =
        l.findings.map (Located.mk k) ++ locatedFrom (k + 1) lanes := by
      simp [locatedFrom, List.zipIdx_cons]
    rw [hcons, List.filter_append, List.map_append]
    cases i with
    | zero =>
      have hnone : (locatedFrom (k + 1) lanes).filter (fun o => o.laneIndex = k + 0) = [] := by
        rw [List.filter_eq_nil_iff]
        intro o ho
        have := (laneIndex_of_mem_locatedFrom ho).1
        simp only [decide_eq_true_eq]
        omega
      rw [hnone]
      simp [List.filter_map, Function.comp_def]
    | succ i =>
      have hlater := ih (k + 1) i
      rw [show k + 1 + i = k + (i + 1) by omega] at hlater
      rw [hlater]
      simp [List.filter_map, Function.comp_def]

/-- The observations of one lane, found again by its position. -/
theorem filter_located {lanes : List (LaneProposal κ)} {i : ℕ} {l : LaneProposal κ}
    (hl : lanes[i]? = some l) :
    ((located lanes).filter fun o => o.laneIndex = i).map Located.finding = l.findings := by
  have hall := filter_locatedFrom 0 i lanes
  rw [hl, Nat.zero_add] at hall
  exact hall

end Sharing

section Grouping

variable [Confidence κ] (judge : Judgement κ) {lanes : List (LaneProposal κ)}

omit [Confidence κ] in
theorem core_restoreLane {s : Publication κ} (hsaid : s.all.map said = (located lanes).map said)
    {i : ℕ} {l : LaneProposal κ} (hl : lanes[i]? = some l) :
    (restoreLane s i l).findings.map core = l.findings.map core := by
  have hfilter : ∀ all : List (Located κ),
      ((all.filter fun o => o.laneIndex = i).map Located.finding).map core =
        ((all.map said).filter fun entry => entry.1 = i).map Prod.snd := by
    intro all
    simp only [List.filter_map, List.map_map]
    rfl
  calc (restoreLane s i l).findings.map core
      = ((s.all.map said).filter fun entry => entry.1 = i).map Prod.snd := hfilter s.all
    _ = (((located lanes).filter fun o => o.laneIndex = i).map Located.finding).map core := by
      rw [hsaid, hfilter]
    _ = l.findings.map core := by rw [filter_located hl]

omit [Confidence κ] in
theorem distribute_sameReport {s : Publication κ}
    (hsaid : s.all.map said = (located lanes).map said) :
    List.Forall₂ SameReport (distribute s lanes) lanes := by
  apply forall₂_zipIdx
  intro i l hl
  refine ⟨rfl, ?_⟩
  rw [LaneProposal.reported, LaneProposal.reported, List.map_append, List.map_append,
    core_restoreLane hsaid hl]
  rfl

theorem published_groupSummaryNotes (lane : LaneId) (lanes : List (LaneProposal κ)) :
    published lane (groupSummaryNotes judge lanes) = published lane lanes := by
  have hread : ∀ lanes : List (LaneProposal κ), published lane lanes =
      ((lanes.map fun l => (l.lane, l.reported)).filter fun entry => entry.1 = lane).flatMap
        Prod.snd := by
    intro lanes
    simp only [published, List.filter_map, List.flatMap_map]
    rfl
  have hmap := map_groupSummaryNotes judge (g := fun l => (l.lane, l.reported)) (fun _ => rfl) lanes
  rw [hread, hmap, hread]

theorem published_groupCoLocatedFindings (lane : LaneId) (lanes : List (LaneProposal κ)) :
    ((published lane (groupCoLocatedFindings judge lanes)).map core).Perm
      ((published lane lanes).map core) := by
  have hperm := published_perm lane (distribute_sameReport
    (said_publication judge (groupSummaryNotes judge lanes)))
  rw [published_groupSummaryNotes] at hperm
  exact hperm

/-- A lane nothing of which has been grouped or moved yet. -/
def Unpublished (l : LaneProposal κ) : Prop :=
  l.overflow = [] ∧ ∀ f ∈ l.findings, f.grouped = false

theorem unpublished_groupSummaryNotes (hlanes : ∀ l ∈ lanes, Unpublished l) :
    ∀ l ∈ groupSummaryNotes judge lanes, Unpublished l := by
  have hmap := map_groupSummaryNotes judge (g := Unpublished) (fun _ => rfl) lanes
  have hall : ∀ holds ∈ (groupSummaryNotes judge lanes).map Unpublished, holds := by
    rw [hmap]
    intro holds hmem
    obtain ⟨l, hl, rfl⟩ := List.mem_map.mp hmem
    exact hlanes l hl
  intro l hl
  exact hall _ (List.mem_map_of_mem hl)

omit [Confidence κ] in
/-- The lanes report just the observations they are given back. -/
theorem mem_reported_distribute {s : Publication κ}
    (hsaid : s.all.map said = (located lanes).map said) (hlanes : ∀ l ∈ lanes, Unpublished l)
    {f : Finding κ} :
    f ∈ (distribute s lanes).flatMap LaneProposal.reported ↔ ∃ o ∈ s.all, o.finding = f := by
  constructor
  · intro hf
    obtain ⟨l, hl, hf⟩ := List.mem_flatMap.mp hf
    obtain ⟨entry, hentry, rfl⟩ := List.mem_map.mp hl
    rcases List.mem_append.mp hf with hf | hf
    · obtain ⟨o, ho, hfinding⟩ := List.mem_map.mp hf
      exact ⟨o, (List.mem_filter.mp ho).1, hfinding⟩
    · have hnone := (hlanes entry.1 (List.fst_mem_of_mem_zipIdx hentry)).1
      have hf : f ∈ entry.1.overflow := hf
      rw [hnone] at hf
      cases hf
  · rintro ⟨o, ho, rfl⟩
    have hplaced : said o ∈ (located lanes).map said := hsaid ▸ List.mem_map_of_mem ho
    obtain ⟨o', ho', hsame⟩ := List.mem_map.mp hplaced
    have hlt : o.laneIndex < lanes.length := by
      have hindex : o'.laneIndex = o.laneIndex := congrArg Prod.fst hsame
      have := (laneIndex_of_mem_locatedFrom (k := 0) ho').2
      omega
    refine List.mem_flatMap.mpr ⟨restoreLane s o.laneIndex lanes[o.laneIndex], ?_, ?_⟩
    · refine List.mem_map.mpr ⟨(lanes[o.laneIndex], o.laneIndex), ?_, rfl⟩
      rw [List.mk_mem_zipIdx_iff_getElem?]
      exact List.getElem?_eq_getElem hlt
    · refine List.mem_append_left _ (List.mem_map.mpr ⟨o, ?_, rfl⟩)
      exact List.mem_filter.mpr ⟨ho, decide_eq_true rfl⟩

theorem grouped_carried (hlanes : ∀ l ∈ lanes, Unpublished l) {f : Finding κ}
    (hf : f ∈ (groupCoLocatedFindings judge lanes).flatMap LaneProposal.reported)
    (hgrouped : f.grouped = true) :
    ∃ shown ∈ (groupCoLocatedFindings judge lanes).flatMap LaneProposal.reported,
      Carries judge shown f := by
  have hnotes := unpublished_groupSummaryNotes judge hlanes
  have hfresh : ∀ o ∈ located (groupSummaryNotes judge lanes), o.finding.grouped = false := by
    intro o ho
    obtain ⟨entry, hentry, ho⟩ := List.mem_flatMap.mp ho
    obtain ⟨g, hg, rfl⟩ := List.mem_map.mp ho
    exact (hnotes entry.1 (List.fst_mem_of_mem_zipIdx hentry)).2 g hg
  have hsaid := said_publication judge (groupSummaryNotes judge lanes)
  obtain ⟨o, ho, rfl⟩ := (mem_reported_distribute hsaid hnotes).mp hf
  obtain ⟨j, hj⟩ := List.mem_iff_getElem?.mp ho
  obtain ⟨-, p, shown, -, hshown, hcarries⟩ :=
    publication_answered judge hfresh j o hj hgrouped
  exact ⟨shown.finding, (mem_reported_distribute hsaid hnotes).mpr
    ⟨shown, List.mem_of_getElem? hshown, rfl⟩, hcarries⟩

theorem reported_capProposalFindings (publishable : Finding κ → Bool) (budget : ℕ)
    (lanes : List (LaneProposal κ)) :
    ((capProposalFindings publishable budget lanes).flatMap LaneProposal.reported).Perm
      (lanes.flatMap LaneProposal.reported) := by
  have hlanes : lanes.flatMap LaneProposal.reported =
      lanes.zipIdx.flatMap fun entry => entry.1.reported := by
    calc lanes.flatMap LaneProposal.reported
        = (lanes.zipIdx.map Prod.fst).flatMap LaneProposal.reported := by rw [List.zipIdx_map_fst]
      _ = lanes.zipIdx.flatMap fun entry => entry.1.reported := List.flatMap_map ..
  rw [hlanes, capProposalFindings, List.flatMap_map]
  apply List.Perm.flatMap_left
  intro entry _
  exact reported_capLane publishable _ entry.2 entry.1

end Grouping

section Pipeline

variable [Confidence κ] (judge : Judgement κ) (highEntropy : Text → Bool)
variable (config : Config κ) (diffs : List FileDiff) (continuity : Continuity κ)
variable (scanFindings : List Scan.Finding) (outcomes : List (LaneId × LaneOutcome κ))

/-- What the outcomes of a lane have to report. -/
def owed (lane : LaneId) : List (Finding κ) :=
  (outcomes.filter fun entry => entry.1 = lane).flatMap fun entry =>
    fresh judge config diffs continuity entry.1 entry.2

theorem published_proposalLanes (lane : LaneId) :
    ((published lane (proposalLanes judge highEntropy config diffs continuity scanFindings
        outcomes)).map core).Perm
      ((published lane (concluded judge highEntropy config diffs continuity scanFindings
        outcomes)).map core) :=
  (published_perm lane (capProposalFindings_sameReport _ _ _)).trans
    (published_groupCoLocatedFindings judge lane _)

theorem published_proposed (lane : LaneId) (entries : List (LaneId × LaneOutcome κ)) :
    (published lane (proposed judge highEntropy config diffs continuity entries)).Perm
      ((entries.filter fun entry => entry.1 = lane).flatMap fun entry =>
        fresh judge config diffs continuity entry.1 entry.2) := by
  rw [published, filter_proposed _ _ _ _ _ _ fun l => decide (l = lane), proposed,
    List.flatMap_map]
  apply List.Perm.flatMap_left
  intro entry _
  simp only [LaneProposal.reported, laneProposal_overflow, List.append_nil]
  exact List.perm_insertionSort _ _

/-- An owner without fallback reports what its outcomes owe. -/
theorem published_concluded_of_not_replaced {lane : LaneId}
    (hstays : replaced judge config diffs continuity scanFindings outcomes lane = false) :
    (published lane (concluded judge highEntropy config diffs continuity scanFindings
      outcomes)).Perm (owed judge config diffs continuity outcomes lane) := by
  have hfallback : (fallbackLanes judge config diffs continuity scanFindings outcomes).filter
      (fun l => l.lane = lane) = [] := by
    rw [List.filter_eq_nil_iff]
    intro l hl hlane
    obtain ⟨owner, howner, rfl⟩ := List.mem_map.mp hl
    have hreplaced := (List.mem_filter.mp howner).2
    have howner : owner = lane := of_decide_eq_true hlane
    rw [howner, hstays] at hreplaced
    cases hreplaced
  have hkept : (keptOutcomes judge config diffs continuity scanFindings outcomes).filter
      (fun entry => entry.1 = lane) = outcomes.filter fun entry => entry.1 = lane := by
    rw [keptOutcomes, List.filter_filter]
    apply List.filter_congr
    intro entry _
    by_cases hmine : entry.1 = lane <;> simp [hmine, hstays]
  have hperm := published_proposed judge highEntropy config diffs continuity lane
    (keptOutcomes judge config diffs continuity scanFindings outcomes)
  rw [hkept] at hperm
  rw [concluded_eq, published, List.filter_append, hfallback, List.append_nil]
  exact hperm

/-- A fallback reports every scanner finding it is published for. -/
theorem unclaimed_subperm_published {owner : LaneId}
    (howner : owner ∈ [LaneId.security, .commits])
    (hsilent : ∀ entry ∈ outcomes, entry.1 = owner →
      silent judge config diffs continuity entry) :
    (unclaimed κ scanFindings owner).Subperm (published owner
      (concluded judge highEntropy config diffs continuity scanFindings outcomes)) := by
  by_cases hnone : unclaimed κ scanFindings owner = []
  · rw [hnone]
    exact List.nil_subperm
  · have hreplaced := (replaced_iff judge config diffs continuity scanFindings outcomes).mpr
      ⟨howner, hnone, hsilent⟩
    have hmem : fallbackOf judge config scanFindings outcomes owner ∈
        (concluded judge highEntropy config diffs continuity scanFindings outcomes).filter
          fun l => l.lane = owner := by
      rw [List.mem_filter, concluded_eq]
      refine ⟨List.mem_append_right _ (List.mem_map.mpr ⟨owner, ?_, rfl⟩), decide_eq_true rfl⟩
      exact List.mem_filter.mpr ⟨howner, hreplaced⟩
    have hsub := (List.sublist_flatten_of_mem (List.mem_map_of_mem (f := LaneProposal.reported)
      hmem)).subperm
    have hreported : (fallbackOf judge config scanFindings outcomes owner).reported =
        unclaimed κ scanFindings owner := List.append_nil _
    rw [hreported] at hsub
    exact hsub

theorem grouped_of_mem_unclaimed {owner : LaneId} {f : Finding κ}
    (hf : f ∈ unclaimed κ scanFindings owner) : f.grouped = false := by
  obtain ⟨scan, -, rfl⟩ := List.mem_map.mp hf
  rfl

theorem unpublished_concluded
    (hungrouped : ∀ entry ∈ outcomes, ∀ f ∈ entry.2.findings, f.grouped = false) :
    ∀ l ∈ concluded judge highEntropy config diffs continuity scanFindings outcomes,
      Unpublished l := by
  rw [concluded_eq]
  intro l hl
  rcases List.mem_append.mp hl with hl | hl
  · obtain ⟨entry, hentry, rfl⟩ := List.mem_map.mp hl
    refine ⟨rfl, ?_⟩
    intro f hf
    have hf : f ∈ fresh judge config diffs continuity entry.1 entry.2 := (List.mem_insertionSort _).mp hf
    have hprepared : f ∈ prepared judge diffs continuity entry.2 :=
      List.mem_of_mem_filter (List.mem_of_mem_filter hf)
    obtain ⟨pin, hpin, rfl⟩ := List.mem_map.mp hprepared
    obtain ⟨raw, hraw, rfl⟩ := List.mem_map.mp hpin
    have hkeeps : (pinned continuity raw).grouped = raw.grouped := by
      unfold pinned
      split <;> rfl
    exact hkeeps.trans (hungrouped entry (List.mem_of_mem_filter hentry) raw hraw)
  · obtain ⟨owner, -, rfl⟩ := List.mem_map.mp hl
    exact ⟨rfl, fun f hf => grouped_of_mem_unclaimed scanFindings hf⟩

/-- Every finding a lane owes is reported once in its lane unless the lane is replaced, every
scanner finding of a silent owner is reported, and what is grouped is carried by what is shown. -/
theorem findings_conserved
    (hungrouped : ∀ entry ∈ outcomes, ∀ f ∈ entry.2.findings, f.grouped = false) :
    let lanes := proposalLanes judge highEntropy config diffs continuity scanFindings outcomes
    (∀ lane, replaced judge config diffs continuity scanFindings outcomes lane = false →
        ((published lane lanes).map core).Perm
          ((owed judge config diffs continuity outcomes lane).map core)) ∧
      (∀ owner ∈ [LaneId.security, .commits],
        (∀ entry ∈ outcomes, entry.1 = owner → silent judge config diffs continuity entry) →
          ((unclaimed κ scanFindings owner).map core).Subperm ((published owner lanes).map core)) ∧
      ∀ f ∈ lanes.flatMap LaneProposal.reported, f.grouped = true →
        ∃ shown ∈ lanes.flatMap LaneProposal.reported, Carries judge shown f := by
  intro lanes
  refine ⟨?_, ?_, ?_⟩
  · intro lane hstays
    exact (published_proposalLanes judge highEntropy config diffs continuity scanFindings outcomes
      lane).trans ((published_concluded_of_not_replaced judge highEntropy config diffs continuity
        scanFindings outcomes hstays).map core)
  · intro owner howner hsilent
    obtain ⟨part, hperm, hsub⟩ := unclaimed_subperm_published judge highEntropy config diffs
      continuity scanFindings outcomes howner hsilent
    exact (List.Perm.subperm_left (published_proposalLanes judge highEntropy config diffs continuity
      scanFindings outcomes owner)).mpr ⟨part.map core, hperm.map core, hsub.map core⟩
  · intro f hf hgrouped
    have hcap := reported_capProposalFindings (fun f => inlineAnchorWithin f diffs)
      (config.maxComments - continuity.openFindings)
      (groupCoLocatedFindings judge
        (concluded judge highEntropy config diffs continuity scanFindings outcomes))
    obtain ⟨shown, hshown, hcarries⟩ := grouped_carried judge
      (unpublished_concluded judge highEntropy config diffs continuity scanFindings outcomes
        hungrouped) (hcap.mem_iff.mp hf) hgrouped
    exact ⟨shown, hcap.mem_iff.mpr hshown, hcarries⟩

end Pipeline

/-- What a pass of the critique reviewer reports. -/
def observation (pass : ℕ) : Finding ℕ where
  lane := .critique
  severity := .high
  confidence := 80
  path := ['a']
  line := some 1
  endLine := none
  rule := "unchecked-index".toList
  title := "Check the index".toList
  body := []
  suggestion := none
  applicable := none
  late := false
  identity := none
  aliases := []
  grouped := false
  reviewPass := pass
  corroboration := 1

def reportedTwice : List (LaneId × LaneOutcome ℕ) :=
  [(.critique, { fileOutcome [['a']] [] with findings := [observation 1, observation 2] })]

/-- The lanes proposed for the two reports. -/
def reportedTwiceLanes : List (LaneProposal ℕ) :=
  proposalLanes bareJudgement (fun _ => false) plainConfig [changedFile ['a']] firstReview []
    reportedTwice

/-- The opener has the identity of what it carries, and so has no alias for it. -/
theorem grouped_without_alias :
    ¬∀ f ∈ reportedTwiceLanes.flatMap LaneProposal.reported, f.grouped = true →
      ∃ shown ∈ reportedTwiceLanes.flatMap LaneProposal.reported, shown.grouped = false ∧
        f.known bareJudgement.sha256 ∈ shown.aliases := by
  decide +kernel

theorem findings_conserved_reportedTwice :
    ((published .critique reportedTwiceLanes).map core).Perm
        ((owed bareJudgement plainConfig [changedFile ['a']] firstReview reportedTwice
          .critique).map core) ∧
      ∀ f ∈ reportedTwiceLanes.flatMap LaneProposal.reported, f.grouped = true →
        ∃ shown ∈ reportedTwiceLanes.flatMap LaneProposal.reported,
          Carries bareJudgement shown f := by
  have hconserved := findings_conserved bareJudgement (fun _ => false) plainConfig
    [changedFile ['a']] firstReview [] reportedTwice (by decide)
  exact ⟨hconserved.1 .critique (by decide), hconserved.2.2⟩

end TinySweeper.App
