import Mathlib.Data.List.Sigma
import TinySweeper.App.Conservation

/-!
# Spending the comment budget

The findings that can become conversations are ranked over all lanes. The head
of that ranking stays inline, its rest moves to the overflow of its lane, and
nothing else moves.
-/

namespace TinySweeper.App

open Findings
open Scan (Severity)

section Head

variable {α β : Type*}

theorem rel_take_drop {r : α → α → Prop} {l : List α} (hsorted : l.Pairwise r) (n : ℕ) :
    ∀ a ∈ l.take n, ∀ b ∈ l.drop n, r a b := by
  rw [← List.take_append_drop n l] at hsorted
  exact (List.pairwise_append.mp hsorted).2.2

/-- Entries told apart by `f` are in the head exactly when `f` finds them there. -/
theorem mem_take_iff_of_nodup {f : α → β} {l : List α} (h : (l.map f).Nodup) (n : ℕ) {a : α}
    (ha : a ∈ l) : f a ∈ (l.take n).map f ↔ a ∈ l.take n := by
  constructor
  · intro hmem
    obtain ⟨b, hb, hab⟩ := List.mem_map.mp hmem
    exact List.inj_on_of_nodup_map h (List.mem_of_mem_take hb) ha hab ▸ hb
  · exact List.mem_map_of_mem

theorem countP_mem_take [BEq β] [LawfulBEq β] {f : α → β} {l : List α} (h : (l.map f).Nodup) (n : ℕ) :
    (l.countP fun a => decide (f a ∈ (l.take n).map f)) = min n l.length := by
  have hdisjoint : List.Disjoint ((l.take n).map f) ((l.drop n).map f) := by
    rw [← List.take_append_drop n l, List.map_append] at h
    exact List.disjoint_of_nodup_append h
  have hhead : ((l.take n).countP fun a => decide (f a ∈ (l.take n).map f)) =
      (l.take n).length :=
    List.countP_eq_length.mpr fun a ha => decide_eq_true (List.mem_map_of_mem ha)
  have htail : ((l.drop n).countP fun a => decide (f a ∈ (l.take n).map f)) = 0 :=
    List.countP_eq_zero.mpr fun a ha hmem =>
      hdisjoint (of_decide_eq_true hmem) (List.mem_map_of_mem ha)
  calc (l.countP fun a => decide (f a ∈ (l.take n).map f))
      = (l.take n ++ l.drop n).countP fun a => decide (f a ∈ (l.take n).map f) := by
        rw [List.take_append_drop]
    _ = min n l.length := by rw [List.countP_append, hhead, htail, List.length_take, Nat.add_zero]

/-- What precedes a distinguished entry is distinguished, so few of them all lie in the head. -/
theorem mem_take_of_countP_le {r : α → α → Prop} {p : α → Bool} {l : List α}
    (hsorted : l.Pairwise r) (hup : ∀ a b, r a b → p b = true → p a = true) {n : ℕ}
    (hfew : l.countP p ≤ n) {a : α} (ha : a ∈ l) (hp : p a = true) : a ∈ l.take n := by
  rw [← List.take_append_drop n l, List.mem_append] at ha
  rcases ha with hhead | htail
  · exact hhead
  · exfalso
    have hbefore : (l.take n).countP p = (l.take n).length :=
      List.countP_eq_length.mpr fun b hb => hup b a (rel_take_drop hsorted n b hb a htail) hp
    have hafter : 0 < (l.drop n).countP p := List.countP_pos_iff.mpr ⟨a, htail, hp⟩
    have hlong : n < l.length := by
      by_contra hshort
      rw [List.drop_eq_nil_of_le (not_lt.mp hshort)] at htail
      exact List.not_mem_nil htail
    have hcount : l.countP p = (l.take n).countP p + (l.drop n).countP p := by
      rw [← List.countP_append, List.take_append_drop]
    rw [hbefore, List.length_take] at hcount
    omega

end Head

section Budget

variable {κ : Type} (publishable : Finding κ → Bool)

/-- Only an ungrouped finding that can be posted competes for the budget. -/
def competes (f : Finding κ) : Bool := !f.grouped && publishable f

/-- The competing findings of every lane, with lane and place. -/
def contenders (lanes : List (LaneProposal κ)) : List ((ℕ × ℕ) × Finding κ) :=
  lanes.zipIdx.flatMap fun lane =>
    (lane.1.findings.zipIdx.filter fun entry => competes publishable entry.1).map
      fun entry => ((lane.2, entry.2), entry.1)

/-- What the ranking reads of a contender. -/
def rankOf (contender : (ℕ × ℕ) × Finding κ) : Ranked κ where
  lane := contender.1.1
  place := contender.1.2
  severity := contender.2.severity
  confidence := contender.2.confidence
  corroboration := contender.2.corroboration

/-- The competing findings a list of lanes shows inline. -/
def competing (lanes : List (LaneProposal κ)) : List (Finding κ) :=
  lanes.flatMap fun lane => lane.findings.filter (competes publishable)

/-- What capping added to the overflow of the lanes. -/
def moved (lanes capped : List (LaneProposal κ)) : List (Finding κ) :=
  (lanes.zip capped).flatMap fun pair => pair.2.overflow.drop pair.1.overflow.length

theorem map_fst_filter_zipIdx {α : Type*} (p : α → Bool) (l : List α) :
    ((l.zipIdx.filter fun entry => p entry.1).map Prod.fst) = l.filter p := by
  conv_rhs => rw [← List.zipIdx_map_fst 0 l, List.filter_map]
  rfl

theorem flatMap_zipIdx_fst {α β : Type*} (g : α → List β) (l : List α) :
    (l.zipIdx.flatMap fun entry => g entry.1) = l.flatMap g := by
  conv_rhs => rw [← List.zipIdx_map_fst 0 l, List.flatMap_map]

theorem contenders_places_nodup (lanes : List (LaneProposal κ)) :
    ((contenders publishable lanes).map Prod.fst).Nodup := by
  rw [contenders, List.map_flatMap, List.nodup_flatMap]
  constructor
  · intro lane _
    have hplaces : ((lane.1.findings.zipIdx.filter fun entry =>
        competes publishable entry.1).map Prod.snd).Nodup :=
      (List.nodup_zipIdx_map_snd lane.1.findings).sublist (List.filter_sublist.map _)
    have hpairs := hplaces.map (Prod.mk_right_injective lane.2)
    rw [List.map_map] at hpairs ⊢
    exact hpairs
  · have hlanes : lanes.zipIdx.Pairwise fun a b => a.2 ≠ b.2 :=
      List.pairwise_map.mp (List.nodup_zipIdx_map_snd lanes)
    refine hlanes.imp fun {a b} hne => ?_
    intro place ha hb
    simp only [List.map_map, List.mem_map, Function.comp_apply] at ha hb
    obtain ⟨_, -, rfl⟩ := ha
    obtain ⟨_, -, hsame⟩ := hb
    exact hne (congrArg Prod.fst hsame).symm

theorem map_snd_contenders (lanes : List (LaneProposal κ)) :
    (contenders publishable lanes).map Prod.snd = competing publishable lanes := by
  rw [contenders, List.map_flatMap]
  refine Eq.trans ?_ (flatMap_zipIdx_fst (fun lane => lane.findings.filter (competes publishable))
    lanes)
  congr 1
  funext lane
  rw [List.map_map]
  exact map_fst_filter_zipIdx (competes publishable) lane.1.findings

variable (keep : List (ℕ × ℕ))

/-- Capping keeps the contenders at the given places. -/
theorem competing_capped (lanes : List (LaneProposal κ)) :
    competing publishable (lanes.zipIdx.map fun entry => capLane publishable keep entry.2 entry.1) =
      ((contenders publishable lanes).filter fun c => decide (c.1 ∈ keep)).map Prod.snd := by
  rw [competing, List.flatMap_map, contenders, List.filter_flatMap, List.map_flatMap]
  congr 1
  funext lane
  simp only [capLane, List.partition_eq_filter_filter, List.filter_map, List.filter_filter,
    List.map_map]
  congr 1
  apply List.filter_congr
  intro entry _
  cases hgrouped : entry.1.grouped <;> cases hpublishable : publishable entry.1 <;>
    simp [competes, stays, hgrouped, hpublishable]

/-- Capping moves the other contenders out. -/
theorem moved_capped (lanes : List (LaneProposal κ)) :
    moved lanes (lanes.zipIdx.map fun entry => capLane publishable keep entry.2 entry.1) =
      ((contenders publishable lanes).filter fun c => !decide (c.1 ∈ keep)).map Prod.snd := by
  have hzip : lanes.zip (lanes.zipIdx.map fun entry =>
      capLane publishable keep entry.2 entry.1) =
      lanes.zipIdx.map fun entry => (entry.1, capLane publishable keep entry.2 entry.1) := by
    conv_lhs => rw [← List.zipIdx_map_fst 0 lanes, List.zipIdx_map_fst 0 lanes]
    rw [← List.zip_map', List.zipIdx_map_fst]
  rw [moved, hzip, List.flatMap_map, contenders, List.filter_flatMap, List.map_flatMap]
  congr 1
  funext lane
  simp only [capLane, List.partition_eq_filter_filter, List.filter_map, List.filter_filter,
    List.map_map, List.drop_left]
  congr 1
  apply List.filter_congr
  intro entry _
  cases hgrouped : entry.1.grouped <;> cases hpublishable : publishable entry.1 <;>
    simp [competes, stays, hgrouped, hpublishable]

theorem transCmp_comap {α β : Type*} (cmp : β → β → Ordering) [Std.TransCmp cmp] (f : α → β) :
    Std.TransCmp fun a b => cmp (f a) (f b) where
  eq_swap := Std.OrientedCmp.eq_swap
  isLE_trans := Std.TransCmp.isLE_trans

variable [Confidence κ] [Std.TransCmp (Confidence.totalCmp : κ → κ → Ordering)]

instance : Std.TransCmp (findingRank : Finding κ → Finding κ → Ordering) :=
  have := transCmp_comap (compare : Severity → Severity → Ordering) fun f : Finding κ => f.severity
  have := transCmp_comap (Confidence.totalCmp : κ → κ → Ordering) fun f : Finding κ => f.confidence
  have := transCmp_comap (compare : ℕ → ℕ → Ordering) fun f : Finding κ => f.corroboration
  inferInstanceAs (Std.TransCmp (compareLex (compareLex
    (fun f g : Finding κ => compare f.severity g.severity)
    (fun f g : Finding κ => Confidence.totalCmp f.confidence g.confidence))
    (fun f g : Finding κ => compare f.corroboration g.corroboration)))

/-- The order of the ranking, on contenders: rank first, then lane, then place. -/
def ranksBefore (a b : (ℕ × ℕ) × Finding κ) : Ordering := (rankOf a).before (rankOf b)

instance : Std.TransCmp (ranksBefore : (ℕ × ℕ) × Finding κ → (ℕ × ℕ) × Finding κ → Ordering) :=
  have := transCmp_comap (fun f g : Finding κ => findingRank g f)
    fun c : (ℕ × ℕ) × Finding κ => c.2
  have := transCmp_comap (compare : ℕ → ℕ → Ordering) fun c : (ℕ × ℕ) × Finding κ => c.1.1
  have := transCmp_comap (compare : ℕ → ℕ → Ordering) fun c : (ℕ × ℕ) × Finding κ => c.1.2
  inferInstanceAs (Std.TransCmp (compareLex (compareLex
    (fun a b : (ℕ × ℕ) × Finding κ => findingRank b.2 a.2)
    (fun a b : (ℕ × ℕ) × Finding κ => compare a.1.1 b.1.1))
    (fun a b : (ℕ × ℕ) × Finding κ => compare a.1.2 b.1.2)))

/-- The contenders in the order the budget is spent. -/
def ranking (lanes : List (LaneProposal κ)) : List ((ℕ × ℕ) × Finding κ) :=
  (contenders publishable lanes).insertionSort fun a b => (ranksBefore a b).isLE

omit [Std.TransCmp (Confidence.totalCmp : κ → κ → Ordering)] in
theorem ranking_perm (lanes : List (LaneProposal κ)) :
    (ranking publishable lanes).Perm (contenders publishable lanes) :=
  List.perm_insertionSort _ _

theorem ranking_sorted (lanes : List (LaneProposal κ)) :
    (ranking publishable lanes).Pairwise fun a b => (ranksBefore a b).isLE = true := by
  have htotal : Std.Total fun a b : (ℕ × ℕ) × Finding κ => (ranksBefore a b).isLE = true := ⟨by
    intro a b
    have hswap : ranksBefore b a = (ranksBefore a b).swap := Std.OrientedCmp.eq_swap
    rw [hswap]
    cases ranksBefore a b <;> simp⟩
  have htrans : IsTrans ((ℕ × ℕ) × Finding κ) fun a b => (ranksBefore a b).isLE = true :=
    ⟨fun _ _ _ => Std.TransCmp.isLE_trans⟩
  exact List.pairwise_insertionSort _ _

omit [Std.TransCmp (Confidence.totalCmp : κ → κ → Ordering)] in
/-- The source sorts what it reads of the contenders. -/
theorem ranked_eq (lanes : List (LaneProposal κ)) :
    ranked publishable lanes = (ranking publishable lanes).map rankOf := by
  have hread : (contenders publishable lanes).map rankOf = lanes.zipIdx.flatMap fun lane =>
      (lane.1.findings.zipIdx.filter fun entry => !entry.1.grouped && publishable entry.1).map
        fun entry => ⟨lane.2, entry.2, entry.1.severity, entry.1.confidence,
          entry.1.corroboration⟩ := by
    rw [contenders, List.map_flatMap]
    congr 1
    funext lane
    rw [List.map_map]
    rfl
  rw [ranking, List.map_insertionSort (fun a b : (ℕ × ℕ) × Finding κ => (ranksBefore a b).isLE)
    (fun a b : Ranked κ => (a.before b).isLE) rankOf _ fun _ _ _ _ => Iff.rfl, hread]
  rfl

def isCritical (f : Finding κ) : Bool := decide (f.severity = .critical)

/-- How many contenders are kept. -/
def slots (budget : ℕ) (lanes : List (LaneProposal κ)) : ℕ :=
  max budget ((competing publishable lanes).countP isCritical)

omit [Std.TransCmp (Confidence.totalCmp : κ → κ → Ordering)] in
theorem kept_eq (budget : ℕ) (lanes : List (LaneProposal κ)) :
    kept publishable budget lanes =
      ((ranking publishable lanes).take (slots publishable budget lanes)).map Prod.fst := by
  have hcritical : ((ranked publishable lanes).filter fun r => r.severity = .critical).length =
      (competing publishable lanes).countP isCritical := by
    rw [← List.countP_eq_length_filter, ranked_eq, List.countP_map, ← map_snd_contenders,
      List.countP_map]
    exact (ranking_perm publishable lanes).countP_eq _
  simp only [kept, hcritical]
  rw [ranked_eq, ← List.map_take, List.map_map]
  rfl

theorem findingRank_of_ranksBefore {a b : (ℕ × ℕ) × Finding κ}
    (h : (ranksBefore a b).isLE = true) : findingRank a.2 b.2 ≠ .lt := by
  have hrank : (findingRank b.2 a.2).isLE = true :=
    Ordering.isLE_left_of_isLE_then (Ordering.isLE_left_of_isLE_then h)
  have hswap : findingRank b.2 a.2 = (findingRank a.2 b.2).swap := Std.OrientedCmp.eq_swap
  intro hlt
  rw [hswap, hlt] at hrank
  cases hrank

omit [Std.TransCmp (Confidence.totalCmp : κ → κ → Ordering)] in
theorem isCritical_of_ranksBefore {a b : (ℕ × ℕ) × Finding κ}
    (h : (ranksBefore a b).isLE = true) (hb : isCritical b.2 = true) :
    isCritical a.2 = true := by
  have hseverity : (compare b.2.severity a.2.severity).isLE = true :=
    Ordering.isLE_left_of_isLE_then (Ordering.isLE_left_of_isLE_then
      (Ordering.isLE_left_of_isLE_then (Ordering.isLE_left_of_isLE_then h)))
  rw [isCritical, decide_eq_true_eq] at hb ⊢
  rw [hb] at hseverity
  revert hseverity
  cases a.2.severity <;> decide

omit [Std.TransCmp (Confidence.totalCmp : κ → κ → Ordering)] in
theorem mem_kept_iff (budget : ℕ) {lanes : List (LaneProposal κ)} {c : (ℕ × ℕ) × Finding κ}
    (hc : c ∈ contenders publishable lanes) : c.1 ∈ kept publishable budget lanes ↔
      c ∈ (ranking publishable lanes).take (slots publishable budget lanes) := by
  have hperm := ranking_perm publishable lanes
  have hnodup := ((hperm.map Prod.fst).nodup_iff).mpr (contenders_places_nodup publishable lanes)
  rw [kept_eq]
  exact mem_take_iff_of_nodup hnodup _ (hperm.mem_iff.mpr hc)

/-- One lane after capping. -/
structure Capped (capped lane : LaneProposal κ) : Prop where
  sublist : capped.findings.Sublist lane.findings
  critical : (capped.findings.filter fun f => publishable f && isCritical f) =
    lane.findings.filter fun f => publishable f && isCritical f
  bystanders : (capped.findings.filter fun f => !competes publishable f) =
    lane.findings.filter fun f => !competes publishable f
  conserved : (capped.findings ++ capped.overflow).Perm (lane.findings ++ lane.overflow)
  appended : lane.overflow <+: capped.overflow
  others : capped = { lane with
    findings := capped.findings
    overflow := capped.overflow
    summary := capped.summary }

omit [Confidence κ] [Std.TransCmp (Confidence.totalCmp : κ → κ → Ordering)] in
/-- Findings whose like always stays are all still there. -/
theorem filter_capLane {p : Finding κ → Bool} {keep : List (ℕ × ℕ)} {laneIndex : ℕ}
    {lane : LaneProposal κ} (hp : ∀ entry ∈ lane.findings.zipIdx, p entry.1 = true →
      stays publishable keep laneIndex entry = true) :
    (capLane publishable keep laneIndex lane).findings.filter p = lane.findings.filter p := by
  rw [← map_fst_filter_zipIdx p lane.findings]
  simp only [capLane, List.partition_eq_filter_filter, List.filter_map, List.filter_filter]
  congr 1
  apply List.filter_congr
  intro entry hentry
  cases hq : p entry.1 with
  | false => simp [hq]
  | true => simp [hq, hp entry hentry hq]

theorem capped_capLane (budget : ℕ) {lanes : List (LaneProposal κ)} {i : ℕ}
    {lane : LaneProposal κ} (hlane : lanes[i]? = some lane) :
    Capped publishable (capLane publishable (kept publishable budget lanes) i lane) lane where
  sublist := by
    have hsub := (List.filter_sublist (p := stays publishable (kept publishable budget lanes) i)
      (l := lane.findings.zipIdx)).map Prod.fst
    rw [List.zipIdx_map_fst] at hsub
    simpa only [capLane, List.partition_eq_filter_filter] using hsub
  critical := by
    apply filter_capLane
    intro entry hentry hcritical
    rw [Bool.and_eq_true] at hcritical
    cases hgrouped : entry.1.grouped with
    | true => simp [stays, hgrouped]
    | false =>
      have hcontender : ((i, entry.2), entry.1) ∈ contenders publishable lanes := by
        refine List.mem_flatMap.mpr ⟨(lane, i), List.mk_mem_zipIdx_iff_getElem?.mpr hlane, ?_⟩
        refine List.mem_map.mpr ⟨entry, List.mem_filter.mpr ⟨hentry, ?_⟩, rfl⟩
        simp [competes, hgrouped, hcritical.1]
      have hperm := ranking_perm publishable lanes
      have hfew : (ranking publishable lanes).countP (fun c => isCritical c.2) ≤
          slots publishable budget lanes := by
        rw [hperm.countP_eq, slots, ← map_snd_contenders, List.countP_map]
        exact le_max_right _ _
      have hhead := mem_take_of_countP_le (ranking_sorted publishable lanes)
        (fun _ _ => isCritical_of_ranksBefore) hfew (hperm.mem_iff.mpr hcontender) hcritical.2
      simp [stays, (mem_kept_iff publishable budget hcontender).mpr hhead]
  bystanders := by
    apply filter_capLane
    intro entry _ hbystander
    revert hbystander
    simp only [stays, competes]
    cases entry.1.grouped <;> cases publishable entry.1 <;> simp
  conserved := reported_capLane publishable _ i lane
  appended := List.prefix_append _ _
  others := rfl

/-- The budget is spent on the best findings that can become conversations: as many are
kept as it allows, or all critical ones if those are more; no kept one ranks below one
moved out; and no lane loses a finding. -/
theorem comment_budget_spent_on_best (budget : ℕ) (lanes : List (LaneProposal κ)) :
    (competing publishable (capProposalFindings publishable budget lanes)).length =
        min (competing publishable lanes).length
          (max budget ((competing publishable lanes).countP isCritical)) ∧
      (∀ f ∈ competing publishable (capProposalFindings publishable budget lanes),
        ∀ g ∈ moved lanes (capProposalFindings publishable budget lanes),
          findingRank f g ≠ .lt) ∧
      List.Forall₂ (Capped publishable) (capProposalFindings publishable budget lanes) lanes := by
  have hperm := ranking_perm publishable lanes
  have hnodup := ((hperm.map Prod.fst).nodup_iff).mpr (contenders_places_nodup publishable lanes)
  refine ⟨?_, ?_, forall₂_zipIdx fun i lane hlane => capped_capLane publishable budget hlane⟩
  · calc (competing publishable (capProposalFindings publishable budget lanes)).length
        = (contenders publishable lanes).countP fun c =>
            decide (c.1 ∈ kept publishable budget lanes) := by
          rw [capProposalFindings, competing_capped, List.length_map, List.countP_eq_length_filter]
      _ = min (slots publishable budget lanes) (ranking publishable lanes).length := by
          rw [← hperm.countP_eq, kept_eq]
          exact countP_mem_take hnodup _
      _ = min (competing publishable lanes).length (slots publishable budget lanes) := by
          rw [hperm.length_eq, ← map_snd_contenders, List.length_map, min_comm]
  · intro f hf g hg
    rw [capProposalFindings, competing_capped] at hf
    rw [capProposalFindings, moved_capped] at hg
    obtain ⟨c, hc, rfl⟩ := List.mem_map.mp hf
    obtain ⟨d, hd, rfl⟩ := List.mem_map.mp hg
    obtain ⟨hc, hkept⟩ := List.mem_filter.mp hc
    obtain ⟨hd, hout⟩ := List.mem_filter.mp hd
    rw [decide_eq_true_eq, mem_kept_iff publishable budget hc] at hkept
    rw [Bool.not_eq_true', decide_eq_false_iff_not, mem_kept_iff publishable budget hd] at hout
    have htail := hperm.mem_iff.mpr hd
    rw [← List.take_append_drop (slots publishable budget lanes) (ranking publishable lanes),
      List.mem_append] at htail
    exact findingRank_of_ranksBefore (rel_take_drop (ranking_sorted publishable lanes) _ c hkept d
      (htail.resolve_left hout))

end Budget

/-- A lane that reports the given findings and already listed others. -/
def laneWith (findings overflow : List (Finding ℕ)) : LaneProposal ℕ where
  lane := .critique
  checkName := LaneId.critique.checkName
  conclusion := .neutral
  summary := []
  completed := true
  findings := findings
  blockingFindings := none
  noted := []
  contextDegraded := false
  resolved := []
  pending := []
  skipped := none
  deduped := 0
  highestSeverity := none
  unanswered := []
  omissions := []
  coverage := none
  overflow := overflow

/-- A finding with the given confidence. -/
def sureness (percent : ℕ) : Finding ℕ := { observation 1 with confidence := percent }

/-- What a lane listed before stays listed, so its findings alone do not account for it. -/
theorem listed_before_stays :
    ¬ List.Forall₂ (fun capped lane => (capped.findings ++ capped.overflow).Perm lane.findings)
      (capProposalFindings (fun _ => true) 1 [laneWith [sureness 70] [sureness 90]])
      [laneWith [sureness 70] [sureness 90]] := by
  intro h
  cases h with
  | cons hlane _ => exact absurd hlane.length_eq (by decide +kernel)

instance : Std.TransCmp (Confidence.totalCmp : ℕ → ℕ → Ordering) :=
  inferInstanceAs (Std.TransOrd ℕ)

/-- One slot and two findings of two lanes: one is kept, and it is the surer one. -/
theorem comment_budget_one_slot :
    (competing (fun _ => true) (capProposalFindings (fun _ => true) 1
        [laneWith [sureness 70] [], laneWith [sureness 90] []])).length =
      min (competing (fun _ => true) [laneWith [sureness 70] [], laneWith [sureness 90] []]).length
        (max 1 ((competing (fun _ => true)
          [laneWith [sureness 70] [], laneWith [sureness 90] []]).countP isCritical)) ∧
    ∀ f ∈ competing (fun _ => true) (capProposalFindings (fun _ => true) 1
        [laneWith [sureness 70] [], laneWith [sureness 90] []]),
      ∀ g ∈ moved [laneWith [sureness 70] [], laneWith [sureness 90] []]
        (capProposalFindings (fun _ => true) 1
          [laneWith [sureness 70] [], laneWith [sureness 90] []]),
        findingRank f g ≠ .lt :=
  have hbudget := comment_budget_spent_on_best (fun _ => true) 1
    [laneWith [sureness 70] [], laneWith [sureness 90] []]
  ⟨hbudget.1, hbudget.2.1⟩

end TinySweeper.App
