import TinySweeper.PrTriage.Labels

/-!
# Where the label planner settles

Applied to the labels an item carries, a plan leaves one label in each facet it
speaks on; planning again finds nothing to do. Two labels of one facet that are
suggested and both there retire each other.
-/

namespace TinySweeper.PrTriage

open Text

theorem same_iff {left right : Text} : same left right = true ↔
    toAsciiLowercase (trim left) = toAsciiLowercase (trim right) := by
  rw [same, decide_eq_true_eq]

theorem same_refl (label : Text) : same label label = true := same_iff.mpr rfl

theorem same_symm {left right : Text} (h : same left right = true) : same right left = true :=
  same_iff.mpr (same_iff.mp h).symm

theorem same_trans {a b c : Text} (hab : same a b = true) (hbc : same b c = true) :
    same a c = true :=
  same_iff.mpr ((same_iff.mp hab).trans (same_iff.mp hbc))

theorem facetOf_of_same {left right : Text} (h : same left right = true) :
    facetOf left = facetOf right := by
  rw [facetOf, facetOf, same_iff.mp h]

theorem mem_supersede {label held : Text} {existing : List Text} :
    held ∈ supersede label existing ↔
      held ∈ existing ∧ (∃ facet, facetOf label = some facet ∧ facetOf held = some facet) ∧
        same held label = false := by
  rw [supersede]
  split
  · next h => simp [h]
  · next facet h => simp [h]

section Plan

variable (existing : List Text) (policy : LabelPolicy)
variable {suggested earlier : List Text} {label : Text} {state : LabelPlan × List Text}

/-- The item carries the label already. -/
def carried (label : Text) : Bool := existing.any fun held => same held label

/-- A label that the policy would let a run add. -/
def allowed (label : Text) : Bool :=
  if policy.allowLabels.isEmpty then vocabulary.any fun known => same known label
  else policy.allowLabels.any fun known => same known label

/-- A suggestion that decides its facet for those behind it. -/
def decides (label : Text) : Bool := carried existing label || allowed policy label

/-- New, allowed, and the first of its facet to decide anything. -/
def leads (earlier : List Text) (label : Text) : Bool :=
  !carried existing label && allowed policy label &&
    (facetOf label).all fun facet =>
      earlier.all fun other => !(decides existing policy other && facetOf other = some facet)

/-- What would be added if there were no cap. -/
def wantedAfter : (earlier : List Text) → List Text → List Text
  | _, [] => []
  | earlier, label :: rest =>
    if leads existing policy earlier label then label :: wantedAfter (earlier ++ [label]) rest
    else wantedAfter (earlier ++ [label]) rest

def wanted (suggested : List Text) : List Text := wantedAfter existing policy [] suggested

/-- What the cap leaves of it. -/
def admitted (suggested : List Text) : List Text :=
  (wanted existing policy suggested).take policy.maxLabels

theorem refusal_eq (label : Text) (chosen : List Text) :
    refusal label existing policy chosen =
      if carried existing label then some "already applied"
      else if allowed policy label then
        if (facetOf label).any fun facet => facet ∈ chosen then
          some "a label in the same facet was already chosen"
        else none
      else if policy.allowLabels.isEmpty then some "not a label triage may apply"
      else some "not in the configured allow list" := by
  rw [refusal, carried, allowed]
  split
  · rfl
  · cases policy.allowLabels.isEmpty with
    | true => cases vocabulary.any fun known => same known label <;> simp
    | false => cases policy.allowLabels.any fun known => same known label <;> simp

/-- What a step of the planner leaves, in terms of the suggestions read so far. -/
structure Told (earlier : List Text) (state : LabelPlan × List Text) : Prop where
  add : state.1.add = admitted existing policy earlier
  remove : ∀ held, held ∈ state.1.remove ↔
    ∃ label, ((label ∈ earlier ∧ carried existing label = true) ∨
      label ∈ admitted existing policy earlier) ∧ held ∈ supersede label existing
  declined : ∀ label, (label, "already applied") ∈ state.1.declined ↔
    label ∈ earlier ∧ carried existing label = true
  blocked : state.1.blocked = false
  /-- While the cap is not reached. -/
  chosen : state.1.add.length < policy.maxLabels → ∀ facet, facet ∈ state.2 ↔
    ∃ label ∈ earlier, decides existing policy label = true ∧ facetOf label = some facet

theorem wantedAfter_append (earlier suggested : List Text) (label : Text) :
    wantedAfter existing policy earlier (suggested ++ [label]) =
      wantedAfter existing policy earlier suggested ++
        if leads existing policy (earlier ++ suggested) label then [label] else [] := by
  induction suggested generalizing earlier with
  | nil => simp [wantedAfter]
  | cons s rest ih =>
    rw [List.cons_append, wantedAfter, wantedAfter, ih, List.append_assoc]
    split <;> rfl

theorem wanted_append (suggested : List Text) (label : Text) :
    wanted existing policy (suggested ++ [label]) = wanted existing policy suggested ++
      if leads existing policy suggested label then [label] else [] :=
  wantedAfter_append existing policy [] suggested label

variable {existing policy}

/-- With the cap reached no suggestion is admitted any more. -/
theorem admitted_append_of_full (label : Text)
    (h : policy.maxLabels ≤ (admitted existing policy suggested).length) :
    admitted existing policy (suggested ++ [label]) = admitted existing policy suggested := by
  rw [admitted, List.length_take] at h
  rw [admitted, wanted_append, List.take_append_of_le_length (by omega), admitted]

theorem admitted_append_of_room (label : Text)
    (h : (admitted existing policy suggested).length < policy.maxLabels) :
    admitted existing policy (suggested ++ [label]) = admitted existing policy suggested ++
      if leads existing policy suggested label then [label] else [] := by
  rw [admitted, List.length_take] at h
  have hall : wanted existing policy suggested = admitted existing policy suggested := by
    rw [admitted, List.take_of_length_le (by omega)]
  rw [← hall, ← wanted_append, admitted, List.take_of_length_le]
  rw [wanted_append, List.length_append]
  split <;> simp <;> omega

theorem leads_iff : leads existing policy earlier label = true ↔
      carried existing label = false ∧ allowed policy label = true ∧
        ∀ facet, facetOf label = some facet → ∀ other ∈ earlier,
          decides existing policy other = true → facetOf other ≠ some facet := by
  simp only [leads, Bool.and_eq_true, Bool.not_eq_true', and_assoc, Option.all_eq_true,
    List.all_eq_true, Bool.and_eq_false_iff, decide_eq_false_iff_not]
  refine and_congr_right fun _ => and_congr_right fun _ => forall_congr' fun facet =>
    imp_congr_right fun _ => forall_congr' fun other => imp_congr_right fun _ => ?_
  cases decides existing policy other <;> simp

theorem leads_of_carried (h : carried existing label = true) :
    leads existing policy earlier label = false := by
  simp [leads, h]

theorem leads_of_refused (h : allowed policy label = false) :
    leads existing policy earlier label = false := by
  simp [leads, h]

/-- A suggestion that leads nowhere is not admitted. -/
theorem admitted_append_of_not_leads (h : leads existing policy suggested label = false) :
    admitted existing policy (suggested ++ [label]) = admitted existing policy suggested := by
  rw [admitted, wanted_append, h]
  simp [admitted]

/-- A suggestion that is declined for another reason leaves the plan. -/
theorem Told.decline (h : Told existing policy earlier state) (reason : String)
    (hreason : reason ≠ "already applied") (hcarried : carried existing label = false)
    (hadmitted : admitted existing policy (earlier ++ [label]) = admitted existing policy earlier)
    (hchosen : state.1.add.length < policy.maxLabels → decides existing policy label = true →
      ∀ facet, facetOf label = some facet → facet ∈ state.2) :
    Told existing policy (earlier ++ [label])
      ({ state.1 with declined := state.1.declined ++ [(label, reason)] }, state.2) where
  add := h.add.trans hadmitted.symm
  remove held := by
    rw [h.remove, hadmitted]
    refine exists_congr fun other => and_congr_left fun _ => or_congr_left ?_
    constructor
    · rintro ⟨hmem, hother⟩
      exact ⟨List.mem_append_left _ hmem, hother⟩
    · rintro ⟨hmem, hother⟩
      rcases List.mem_append.mp hmem with hmem | hmem
      · exact ⟨hmem, hother⟩
      · rw [List.mem_singleton.mp hmem, hcarried] at hother
        exact absurd hother Bool.false_ne_true
  declined other := by
    simp only [List.mem_append, List.mem_singleton, Prod.mk.injEq, h.declined]
    constructor
    · rintro (⟨hmem, hother⟩ | ⟨-, heq⟩)
      · exact ⟨.inl hmem, hother⟩
      · exact absurd heq.symm hreason
    · rintro ⟨hmem | rfl, hother⟩
      · exact .inl ⟨hmem, hother⟩
      · rw [hcarried] at hother
        exact absurd hother Bool.false_ne_true
  blocked := h.blocked
  chosen hroom facet := by
    have hold := h.chosen hroom facet
    constructor
    · intro hmem
      obtain ⟨other, hother, hrest⟩ := hold.mp hmem
      exact ⟨other, List.mem_append_left _ hother, hrest⟩
    · rintro ⟨other, hother, hdecides, hfacet⟩
      rcases List.mem_append.mp hother with hother | hother
      · exact hold.mpr ⟨other, hother, hdecides, hfacet⟩
      · cases List.mem_singleton.mp hother
        exact hchosen hroom hdecides facet hfacet

/-- Facets chosen so far, with that of one more suggestion that decides. -/
theorem Told.chosen_append (h : Told existing policy earlier state)
    (hdecides : decides existing policy label = true)
    (hroom : state.1.add.length < policy.maxLabels) (facet : Text) :
    facet ∈ state.2 ++ (facetOf label).toList ↔
      ∃ other ∈ earlier ++ [label], decides existing policy other = true ∧
        facetOf other = some facet := by
  rw [List.mem_append, h.chosen hroom, Option.mem_toList]
  constructor
  · rintro (⟨other, hother, hrest⟩ | hfacet)
    · exact ⟨other, List.mem_append_left _ hother, hrest⟩
    · exact ⟨label, by simp, hdecides, hfacet⟩
  · rintro ⟨other, hother, hrest⟩
    rcases List.mem_append.mp hother with hother | hother
    · exact .inl ⟨other, hother, hrest⟩
    · cases List.mem_singleton.mp hother
      exact .inr hrest.2

/-- A label that is there already retires the others of its facet. -/
theorem Told.retire (h : Told existing policy earlier state)
    (hcarried : carried existing label = true) :
    Told existing policy (earlier ++ [label])
      ({ state.1 with
          remove := state.1.remove ++ supersede label existing
          declined := state.1.declined ++ [(label, "already applied")] },
        state.2 ++ (facetOf label).toList) := by
  have hadmitted : admitted existing policy (earlier ++ [label]) =
      admitted existing policy earlier :=
    admitted_append_of_not_leads (leads_of_carried hcarried)
  refine ⟨h.add.trans hadmitted.symm, fun held => ?_, fun other => ?_, h.blocked,
    fun hroom => h.chosen_append (by simp [decides, hcarried]) hroom⟩
  · rw [List.mem_append, h.remove, hadmitted]
    constructor
    · rintro (⟨other, ⟨hmem, hother⟩ | hmem, hheld⟩ | hheld)
      · exact ⟨other, .inl ⟨List.mem_append_left _ hmem, hother⟩, hheld⟩
      · exact ⟨other, .inr hmem, hheld⟩
      · exact ⟨label, .inl ⟨by simp, hcarried⟩, hheld⟩
    · rintro ⟨other, ⟨hmem, hother⟩ | hmem, hheld⟩
      · rcases List.mem_append.mp hmem with hmem | hmem
        · exact .inl ⟨other, .inl ⟨hmem, hother⟩, hheld⟩
        · cases List.mem_singleton.mp hmem
          exact .inr hheld
      · exact .inl ⟨other, .inr hmem, hheld⟩
  · simp only [List.mem_append, List.mem_singleton, Prod.mk.injEq, and_true, h.declined]
    constructor
    · rintro (⟨hmem, hother⟩ | rfl)
      · exact ⟨.inl hmem, hother⟩
      · exact ⟨.inr rfl, hcarried⟩
    · rintro ⟨hmem | rfl, hother⟩
      · exact .inl ⟨hmem, hother⟩
      · exact .inr rfl

/-- A suggestion that leads while there is room is added. -/
theorem Told.admit (h : Told existing policy earlier state)
    (hroom : state.1.add.length < policy.maxLabels)
    (hleads : leads existing policy earlier label = true) :
    Told existing policy (earlier ++ [label])
      ({ state.1 with
          remove := state.1.remove ++ supersede label existing
          add := state.1.add ++ [label] },
        state.2 ++ (facetOf label).toList) := by
  obtain ⟨hcarried, hallowed, -⟩ := leads_iff.mp hleads
  have hadmitted := admitted_append_of_room label (h.add ▸ hroom)
  rw [hleads, if_pos rfl] at hadmitted
  refine ⟨?_, fun held => ?_, fun other => ?_, h.blocked, fun hmore => ?_⟩
  · rw [hadmitted, ← h.add]
  · rw [List.mem_append, h.remove, hadmitted]
    constructor
    · rintro (⟨other, ⟨hmem, hother⟩ | hmem, hheld⟩ | hheld)
      · exact ⟨other, .inl ⟨List.mem_append_left _ hmem, hother⟩, hheld⟩
      · exact ⟨other, .inr (List.mem_append_left _ hmem), hheld⟩
      · exact ⟨label, .inr (by simp), hheld⟩
    · rintro ⟨other, ⟨hmem, hother⟩ | hmem, hheld⟩
      · rcases List.mem_append.mp hmem with hmem | hmem
        · exact .inl ⟨other, .inl ⟨hmem, hother⟩, hheld⟩
        · rw [List.mem_singleton.mp hmem, hcarried] at hother
          exact absurd hother Bool.false_ne_true
      · rcases List.mem_append.mp hmem with hmem | hmem
        · exact .inl ⟨other, .inr hmem, hheld⟩
        · cases List.mem_singleton.mp hmem
          exact .inr hheld
  · simp only [List.mem_append, List.mem_singleton, h.declined]
    constructor
    · rintro ⟨hmem, hother⟩
      exact ⟨.inl hmem, hother⟩
    · rintro ⟨hmem | rfl, hother⟩
      · exact ⟨hmem, hother⟩
      · rw [hcarried] at hother
        exact absurd hother Bool.false_ne_true
  · exact h.chosen_append (by simp [decides, hallowed]) hroom

theorem suggest_of_refusal {reason : String}
    (h : refusal label existing policy state.2 = some reason) (hreason : reason ≠ "already applied") :
    suggest existing policy state label =
      ({ state.1 with declined := state.1.declined ++ [(label, reason)] }, state.2) := by
  simp only [suggest, h, if_neg hreason]

theorem Told.next (h : Told existing policy earlier state) (label : Text) :
    Told existing policy (earlier ++ [label]) (suggest existing policy state label) := by
  cases hcarried : carried existing label with
  | true =>
    have hretire := h.retire hcarried
    simpa only [suggest, refusal_eq, hcarried, if_true] using hretire
  | false =>
    cases hallowed : allowed policy label with
    | false =>
      have hdecides : decides existing policy label = false := by simp [decides, hcarried, hallowed]
      obtain ⟨reason, hrefused, hreason⟩ :
          ∃ reason, refusal label existing policy state.2 = some reason ∧
            reason ≠ "already applied" := by
        rw [refusal_eq, hcarried, hallowed]
        cases policy.allowLabels.isEmpty
        · exact ⟨"not in the configured allow list", rfl, by decide⟩
        · exact ⟨"not a label triage may apply", rfl, by decide⟩
      rw [suggest_of_refusal hrefused hreason]
      exact h.decline reason hreason hcarried
        (admitted_append_of_not_leads (leads_of_refused hallowed))
        fun _ hdecided => absurd (hdecides.symm.trans hdecided) Bool.false_ne_true
    | true =>
      by_cases hchosen : ((facetOf label).any fun facet => facet ∈ state.2) = true
      · have hrefused : refusal label existing policy state.2 =
            some "a label in the same facet was already chosen" := by
          rw [refusal_eq, hcarried, hallowed, if_pos hchosen]
          rfl
        obtain ⟨facet, hfacet, hmem⟩ := (Option.any_eq_true _ _).mp hchosen
        have hadmitted : admitted existing policy (earlier ++ [label]) =
            admitted existing policy earlier := by
          by_cases hroom : (admitted existing policy earlier).length < policy.maxLabels
          · obtain ⟨other, hother, hdecides, hsame⟩ :=
              (h.chosen (h.add ▸ hroom) facet).mp (of_decide_eq_true hmem)
            apply admitted_append_of_not_leads
            rw [Bool.eq_false_iff, ne_eq, leads_iff]
            exact fun hleads => hleads.2.2 facet hfacet other hother hdecides hsame
          · exact admitted_append_of_full label (not_lt.mp hroom)
        rw [suggest_of_refusal hrefused (by decide)]
        refine h.decline _ (by decide) hcarried hadmitted fun _ _ other hother => ?_
        rw [← Option.some.inj (hfacet.symm.trans hother)]
        exact of_decide_eq_true hmem
      · have hnone : refusal label existing policy state.2 = none := by
          rw [refusal_eq, hcarried, hallowed, if_neg hchosen]
          rfl
        by_cases hroom : state.1.add.length < policy.maxLabels
        · have hleads : leads existing policy earlier label = true := by
            refine leads_iff.mpr ⟨hcarried, hallowed, fun facet hfacet other hother hdec hsame => ?_⟩
            refine hchosen ((Option.any_eq_true _ _).mpr ⟨facet, hfacet, ?_⟩)
            exact decide_eq_true ((h.chosen hroom facet).mpr ⟨other, hother, hdec, hsame⟩)
          have hadmit := h.admit hroom hleads
          simpa only [suggest, hnone, ge_iff_le, not_le.mpr hroom, if_false] using hadmit
        · have hcap : Told existing policy (earlier ++ [label]) _ :=
            h.decline "the label cap was reached" (by decide) hcarried
              (admitted_append_of_full label (h.add ▸ not_lt.mp hroom))
              fun hmore => absurd hmore hroom
          simpa only [suggest, hnone, ge_iff_le, not_lt.mp hroom, if_true] using hcap

/-- The plan of an item that may be labelled. -/
theorem told_suggested (suggested : List Text) :
    Told existing policy suggested (suggested.foldl (suggest existing policy) ({}, [])) := by
  induction suggested using List.reverseRecOn with
  | nil =>
    refine ⟨by simp [admitted, wanted, wantedAfter], fun held => ?_, fun label => ?_, rfl,
      fun _ facet => ?_⟩
    · simp [admitted, wanted, wantedAfter]
    · simp
    · simp
  | append_singleton earlier label ih =>
    rw [List.foldl_append]
    exact ih.next label

theorem mem_wantedAfter : label ∈ wantedAfter existing policy earlier suggested ↔
      ∃ before after, suggested = before ++ label :: after ∧
        leads existing policy (earlier ++ before) label = true := by
  induction suggested generalizing earlier with
  | nil => simp [wantedAfter]
  | cons s rest ih =>
    have hrest : label ∈ wantedAfter existing policy (earlier ++ [s]) rest ↔
        ∃ before after, s :: rest = s :: before ++ label :: after ∧
          leads existing policy (earlier ++ s :: before) label = true := by
      rw [ih]
      simp
    constructor
    · intro h
      by_cases hs : leads existing policy earlier s = true
      · rw [wantedAfter, if_pos hs] at h
        rcases List.mem_cons.mp h with rfl | h
        · exact ⟨[], rest, rfl, by simpa using hs⟩
        · obtain ⟨before, after, hsplit, hleads⟩ := hrest.mp h
          exact ⟨s :: before, after, hsplit, hleads⟩
      · rw [wantedAfter, if_neg hs] at h
        obtain ⟨before, after, hsplit, hleads⟩ := hrest.mp h
        exact ⟨s :: before, after, hsplit, hleads⟩
    · rintro ⟨_ | ⟨first, before⟩, after, hsplit, hleads⟩
      · obtain ⟨rfl, rfl⟩ := List.cons.inj hsplit
        rw [wantedAfter, if_pos (by simpa using hleads)]
        exact List.mem_cons_self
      · obtain ⟨rfl, -⟩ := List.cons.inj hsplit
        rw [wantedAfter]
        split
        · exact List.mem_cons_of_mem _ (hrest.mpr ⟨before, after, hsplit, hleads⟩)
        · exact hrest.mpr ⟨before, after, hsplit, hleads⟩

theorem mem_wanted : label ∈ wanted existing policy suggested ↔ ∃ before after,
      suggested = before ++ label :: after ∧ leads existing policy before label = true := by
  rw [wanted, mem_wantedAfter]
  simp

/-- Of two suggestions in a facet, what is wanted stands first. -/
theorem mem_before_of_wanted {before after : List Text} {other : Text} {facet : Text}
    (hlabel : label ∈ wanted existing policy suggested)
    (hsplit : suggested = before ++ other :: after)
    (hdecides : decides existing policy other = true) (hne : other ≠ label)
    (hfacet : facetOf label = some facet) (hother : facetOf other = some facet) :
    label ∈ before := by
  obtain ⟨before', after', hsplit', hleads⟩ := mem_wanted.mp hlabel
  obtain ⟨-, -, hfirst⟩ := leads_iff.mp hleads
  have hout : other ∉ before' := fun hmem => hfirst facet hfacet other hmem hdecides hother
  rcases List.append_eq_append_iff.mp (hsplit.symm.trans hsplit') with
    ⟨between, rfl, htail⟩ | ⟨between, rfl, htail⟩
  · cases between with
    | nil => exact absurd (List.cons.inj htail).1 hne
    | cons first between =>
      rw [(List.cons.inj htail).1] at hout
      exact absurd (by simp) hout
  · cases between with
    | nil => exact absurd (List.cons.inj htail).1.symm hne
    | cons first between =>
      rw [(List.cons.inj htail).1]
      simp

/-- In a facet one label is wanted at most. -/
theorem eq_of_wanted {other facet : Text} (hlabel : label ∈ wanted existing policy suggested)
    (hother : other ∈ wanted existing policy suggested) (hfacet : facetOf label = some facet)
    (hfacet' : facetOf other = some facet) : label = other := by
  by_contra hne
  obtain ⟨before, after, hsplit, hleads⟩ := mem_wanted.mp hother
  obtain ⟨-, hallowed, hfirst⟩ := leads_iff.mp hleads
  have hmem := mem_before_of_wanted hlabel hsplit (by simp [decides, hallowed]) (Ne.symm hne)
    hfacet hfacet'
  obtain ⟨_, _, _, hleads'⟩ := mem_wanted.mp hlabel
  have hdecides : decides existing policy label = true := by
    simp [decides, (leads_iff.mp hleads').2.1]
  exact hfirst facet hfacet' label hmem hdecides hfacet

theorem wanted_of_admitted (h : label ∈ admitted existing policy suggested) :
    label ∈ wanted existing policy suggested :=
  List.mem_of_mem_take h

theorem carried_of_wanted (h : label ∈ wanted existing policy suggested) :
    carried existing label = false := by
  obtain ⟨_, _, _, hleads⟩ := mem_wanted.mp h
  exact (leads_iff.mp hleads).1

end Plan

end TinySweeper.PrTriage
