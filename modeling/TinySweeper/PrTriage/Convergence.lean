import TinySweeper.PrTriage.Facets

/-!
# One label in a facet

A plan applied to the labels it was made for, and the plan made after it.
-/

namespace TinySweeper.PrTriage

open Text

/-- The labels once a plan is applied: what it adds, then what it removes. -/
def relabelled (existing : List Text) (plan : LabelPlan) : List Text :=
  (existing ++ plan.add).filter fun label => label ∉ plan.remove

/-- A suggestion of the facet was accepted, or found applied already. -/
def LabelPlan.SpeaksOn (plan : LabelPlan) (facet : Text) : Prop :=
  (∃ label ∈ plan.add, facetOf label = some facet) ∨
    ∃ label, (label, "already applied") ∈ plan.declined ∧ facetOf label = some facet

/-- Labelling is switched off, or the item carries a blocked label. -/
def idle (existing : List Text) (policy : LabelPolicy) : Bool :=
  !policy.applyLabels || policy.blockLabels.any (carried existing)

theorem carried_iff {labels : List Text} {label : Text} :
    carried labels label = true ↔ ∃ held ∈ labels, same held label = true := by
  simp [carried]

theorem carried_of_mem {labels : List Text} {label : Text} (h : label ∈ labels) :
    carried labels label = true :=
  carried_iff.mpr ⟨label, h, same_refl label⟩

section Applied

variable {existing suggested : List Text} {policy : LabelPolicy} {state : LabelPlan × List Text}
  {label facet : Text}

theorem Told.mem_remove_existing (h : Told existing policy suggested state)
    (hmem : label ∈ state.1.remove) : label ∈ existing := by
  obtain ⟨_, -, hheld⟩ := (h.remove label).mp hmem
  exact (mem_supersede.mp hheld).1

theorem Told.mem_relabelled (h : Told existing policy suggested state) :
    label ∈ relabelled existing state.1 ↔
      label ∈ existing ∧ label ∉ state.1.remove ∨ label ∈ admitted existing policy suggested := by
  rw [relabelled, List.mem_filter, List.mem_append, decide_eq_true_eq, h.add]
  constructor
  · rintro ⟨hmem | hmem, hkept⟩
    · exact .inl ⟨hmem, hkept⟩
    · exact .inr hmem
  · rintro (⟨hmem, hkept⟩ | hmem)
    · exact ⟨.inl hmem, hkept⟩
    · refine ⟨.inr hmem, fun hremoved => ?_⟩
      have hnew := carried_of_wanted (wanted_of_admitted hmem)
      rw [carried_of_mem (h.mem_remove_existing hremoved)] at hnew
      exact absurd hnew.symm Bool.false_ne_true

/-- A label of the item stays when it is the same as all that speak in its facet. -/
theorem Told.kept_iff (h : Told existing policy suggested state) (hmem : label ∈ existing)
    (hfacet : facetOf label = some facet) : label ∉ state.1.remove ↔
      ∀ other, ((other ∈ suggested ∧ carried existing other = true) ∨
        other ∈ admitted existing policy suggested) → facetOf other = some facet →
          same label other = true := by
  rw [h.remove]
  constructor
  · intro hnone other hspeaks hother
    by_contra hne
    refine hnone ⟨other, hspeaks, mem_supersede.mpr ⟨hmem, ⟨facet, hother, hfacet⟩, ?_⟩⟩
    simpa using hne
  · rintro hall ⟨other, hspeaks, hheld⟩
    obtain ⟨-, ⟨facet', hother, hfacet'⟩, hne⟩ := mem_supersede.mp hheld
    cases hfacet.symm.trans hfacet'
    rw [hall other hspeaks hother] at hne
    exact absurd hne.symm Bool.false_ne_true

/-- A label that is added is alone in its facet. -/
theorem Told.eq_of_admitted (h : Told existing policy suggested state)
    (hadded : label ∈ admitted existing policy suggested) (hfacet : facetOf label = some facet)
    {other : Text} (hother : other ∈ relabelled existing state.1)
    (hfacet' : facetOf other = some facet) : other = label := by
  rcases h.mem_relabelled.mp hother with ⟨hmem, hkept⟩ | hmem
  · have hsame := (h.kept_iff hmem hfacet').mp hkept label (.inr hadded) hfacet
    have hnew := carried_of_wanted (wanted_of_admitted hadded)
    rw [carried_iff.mpr ⟨other, hmem, hsame⟩] at hnew
    exact absurd hnew.symm Bool.false_ne_true
  · exact eq_of_wanted (wanted_of_admitted hmem) (wanted_of_admitted hadded) hfacet' hfacet

theorem Told.speaksOn_iff (h : Told existing policy suggested state) :
    state.1.SpeaksOn facet ↔ ∃ label, ((label ∈ suggested ∧ carried existing label = true) ∨
      label ∈ admitted existing policy suggested) ∧ facetOf label = some facet := by
  simp only [LabelPlan.SpeaksOn, h.add, h.declined]
  constructor
  · rintro (⟨label, hmem, hfacet⟩ | ⟨label, hmem, hfacet⟩)
    · exact ⟨label, .inr hmem, hfacet⟩
    · exact ⟨label, .inl hmem, hfacet⟩
  · rintro ⟨label, hmem | hmem, hfacet⟩
    · exact .inr ⟨label, hmem, hfacet⟩
    · exact .inl ⟨label, hmem, hfacet⟩

/-- Whatever speaks in a facet, the labels left in it are one. -/
theorem Told.same_of_left (h : Told existing policy suggested state)
    (hspeaks : state.1.SpeaksOn facet) {left right : Text}
    (hleft : left ∈ relabelled existing state.1) (hright : right ∈ relabelled existing state.1)
    (hfacet : facetOf left = some facet) (hfacet' : facetOf right = some facet) :
    same left right = true := by
  by_cases hadded : ∃ label ∈ admitted existing policy suggested, facetOf label = some facet
  · obtain ⟨label, hlabel, hof⟩ := hadded
    rw [h.eq_of_admitted hlabel hof hleft hfacet, h.eq_of_admitted hlabel hof hright hfacet']
    exact same_refl label
  · obtain ⟨label, hlabel, hof⟩ := h.speaksOn_iff.mp hspeaks
    have hheld : ∀ held ∈ relabelled existing state.1, facetOf held = some facet →
        same held label = true := by
      intro held hheld hfacet
      rcases h.mem_relabelled.mp hheld with ⟨hmem, hkept⟩ | hmem
      · exact (h.kept_iff hmem hfacet).mp hkept label hlabel hof
      · exact absurd ⟨held, hmem, hfacet⟩ hadded
    exact same_trans (hheld left hleft hfacet) (same_symm (hheld right hright hfacet'))

end Applied

section Rivals

variable (existing suggested : List Text) (policy : LabelPolicy)

/-- Different labels of a facet are only suggested, both being there, when another is added. -/
def NoRivals : Prop :=
  ∀ left ∈ suggested, ∀ right ∈ suggested, carried existing left = true →
    carried existing right = true → same left right = false →
      ∀ facet, facetOf left = some facet → facetOf right = some facet →
        ∃ label ∈ admitted existing policy suggested, facetOf label = some facet

/-- What the cap keeps out is never added later. -/
def NothingWaits : Prop :=
  policy.maxLabels = 0 ∨
    policy.blockLabels.any (carried (admitted existing policy suggested)) = true ∨
      ∀ label ∈ wanted existing policy suggested,
        carried (admitted existing policy suggested) label = true

variable {existing suggested policy} {state : LabelPlan × List Text} {label : Text}

/-- What is removed is replaced: a label of its facet is left. -/
theorem Told.other_left (h : Told existing policy suggested state)
    (hrivals : NoRivals existing suggested policy) (hremoved : label ∈ state.1.remove) :
    ∃ facet, facetOf label = some facet ∧ state.1.SpeaksOn facet ∧
      ∃ other ∈ relabelled existing state.1, facetOf other = some facet ∧
        same other label = false := by
  obtain ⟨speaker, hspeaks, hheld⟩ := (h.remove label).mp hremoved
  obtain ⟨hmem, ⟨facet, hof, hfacet⟩, hne⟩ := mem_supersede.mp hheld
  refine ⟨facet, hfacet, h.speaksOn_iff.mpr ⟨speaker, hspeaks, hof⟩, ?_⟩
  by_cases hadded : ∃ added ∈ admitted existing policy suggested, facetOf added = some facet
  · obtain ⟨added, hadded, hof'⟩ := hadded
    refine ⟨added, h.mem_relabelled.mpr (.inr hadded), hof', ?_⟩
    rw [Bool.eq_false_iff]
    intro hsame
    have hnew := carried_of_wanted (wanted_of_admitted hadded)
    rw [carried_iff.mpr ⟨label, hmem, same_symm hsame⟩] at hnew
    exact Bool.false_ne_true hnew.symm
  · rcases hspeaks with ⟨hsuggested, hcarried⟩ | hmem'
    · obtain ⟨held, hheld, hsame⟩ := carried_iff.mp hcarried
      have hofheld : facetOf held = some facet := (facetOf_of_same hsame).trans hof
      have hkept : held ∉ state.1.remove := by
        rw [h.kept_iff hheld hofheld]
        rintro other (⟨hother, hcarried'⟩ | hother) hof'
        · by_contra hdiffer
          refine hadded (hrivals speaker hsuggested other hother hcarried hcarried' ?_ facet hof hof')
          rw [Bool.eq_false_iff]
          exact fun hspeaker => hdiffer (same_trans hsame hspeaker)
        · exact absurd ⟨other, hother, hof'⟩ hadded
      refine ⟨held, h.mem_relabelled.mpr (.inl ⟨hheld, hkept⟩), hofheld, ?_⟩
      rw [Bool.eq_false_iff] at hne ⊢
      exact fun hsame' => hne (same_trans (same_symm hsame') hsame)
    · exact absurd ⟨speaker, hmem', hof⟩ hadded

/-- Two rivals remove every label of their facet. -/
theorem Told.noRivals (h : Told existing policy suggested state)
    (hleft : ∀ label ∈ state.1.remove, ∀ facet, facetOf label = some facet →
      ∃ other ∈ relabelled existing state.1, facetOf other = some facet) :
    NoRivals existing suggested policy := by
  intro left hmem right hmem' hcarried hcarried' hne facet hfacet hfacet'
  by_contra hnone
  obtain ⟨held, hheld, hsame⟩ := carried_iff.mp hcarried
  have hof : facetOf held = some facet := (facetOf_of_same hsame).trans hfacet
  have hall : ∀ other ∈ existing, facetOf other = some facet → other ∈ state.1.remove := by
    intro other hother hof'
    by_contra hkept
    have hspeak := (h.kept_iff hother hof').mp hkept
    have hleft := hspeak left (.inl ⟨hmem, hcarried⟩) hfacet
    have hright := hspeak right (.inl ⟨hmem', hcarried'⟩) hfacet'
    rw [same_trans (same_symm hleft) hright] at hne
    exact Bool.false_ne_true hne.symm
  obtain ⟨other, hother, hof'⟩ := hleft held (hall held hheld hof) facet hof
  rcases h.mem_relabelled.mp hother with ⟨hmem, hkept⟩ | hmem
  · exact hkept (hall other hmem hof')
  · exact hnone ⟨other, hmem, hof'⟩

/-- A suggestion of the item's is carried still, or gave way to one that stood before it. -/
theorem Told.carried_or_before (h : Told existing policy suggested state)
    (hrivals : NoRivals existing suggested policy) {before after : List Text}
    (hsplit : suggested = before ++ label :: after) (hcarried : carried existing label = true) :
    carried (relabelled existing state.1) label = true ∨
      ∃ added ∈ before, carried (relabelled existing state.1) added = true ∧
        ∃ facet, facetOf added = some facet ∧ facetOf label = some facet := by
  obtain ⟨held, hheld, hsame⟩ := carried_iff.mp hcarried
  by_cases hkept : held ∈ state.1.remove
  · obtain ⟨facet, hof, -, -⟩ := h.other_left hrivals hkept
    obtain ⟨speaker, hspeaks, hretired⟩ := (h.remove held).mp hkept
    obtain ⟨-, ⟨facet', hof', hheld'⟩, hne⟩ := mem_supersede.mp hretired
    cases hof.symm.trans hheld'
    have hlabel : facetOf label = some facet := (facetOf_of_same hsame).symm.trans hof
    obtain ⟨added, hadded, hofadded⟩ :
        ∃ added ∈ admitted existing policy suggested, facetOf added = some facet := by
      rcases hspeaks with ⟨hmem, hcarried'⟩ | hmem
      · refine hrivals label (by simp [hsplit]) speaker hmem hcarried hcarried' ?_ facet hlabel hof'
        rw [Bool.eq_false_iff] at hne ⊢
        exact fun hsame' => hne (same_trans hsame hsame')
      · exact ⟨speaker, hmem, hof'⟩
    have hne' : label ≠ added := by
      rintro rfl
      have hnew := carried_of_wanted (wanted_of_admitted hadded)
      exact Bool.false_ne_true (hnew.symm.trans hcarried)
    have hbefore := mem_before_of_wanted (wanted_of_admitted hadded) hsplit
      (by simp [decides, hcarried]) hne' hofadded hlabel
    exact .inr ⟨added, hbefore, carried_of_mem (h.mem_relabelled.mpr (.inr hadded)),
      facet, hofadded, hlabel⟩
  · exact .inl (carried_iff.mpr ⟨held, h.mem_relabelled.mpr (.inl ⟨hheld, hkept⟩), hsame⟩)

/-- Without rivals the next plan wants only what the cap kept out. -/
theorem Told.waits_of_wanted (h : Told existing policy suggested state)
    (hrivals : NoRivals existing suggested policy)
    (hwanted : label ∈ wanted (relabelled existing state.1) policy suggested) :
    label ∈ wanted existing policy suggested ∧
      carried (admitted existing policy suggested) label = false := by
  obtain ⟨before, after, hsplit, hleads⟩ := mem_wanted.mp hwanted
  obtain ⟨hnew, hallowed, hfirst⟩ := leads_iff.mp hleads
  refine ⟨mem_wanted.mpr ⟨before, after, hsplit, leads_iff.mpr ⟨?_, hallowed, ?_⟩⟩, ?_⟩
  · rw [Bool.eq_false_iff]
    intro hcarried
    rcases h.carried_or_before hrivals hsplit hcarried with
      hstill | ⟨added, hadded, hstill, facet, hof, hlabel⟩
    · exact Bool.false_ne_true (hnew.symm.trans hstill)
    · exact hfirst facet hlabel added hadded (by simp [decides, hstill]) hof
  · intro facet hlabel other hother hdecides hof
    cases hcarried : carried existing other with
    | false =>
      have hdecides' : decides (relabelled existing state.1) policy other = true := by
        simp only [decides, hcarried, Bool.false_or] at hdecides
        simp [decides, hdecides]
      exact hfirst facet hlabel other hother hdecides' hof
    | true =>
      obtain ⟨left, right, rfl⟩ := List.append_of_mem hother
      have hsplit' : suggested = left ++ other :: (right ++ label :: after) := by simp [hsplit]
      rcases h.carried_or_before hrivals hsplit' hcarried with
        hstill | ⟨added, hadded, hstill, facet', hofadded, hof'⟩
      · exact hfirst facet hlabel other hother (by simp [decides, hstill]) hof
      · cases hof.symm.trans hof'
        exact hfirst facet hlabel added (List.mem_append_left _ hadded)
          (by simp [decides, hstill]) hofadded
  · rw [Bool.eq_false_iff]
    intro hcarried
    obtain ⟨held, hheld, hsame⟩ := carried_iff.mp hcarried
    rw [carried_iff.mpr ⟨held, h.mem_relabelled.mpr (.inr hheld), hsame⟩] at hnew
    exact Bool.false_ne_true hnew.symm

/-- What the cap kept out is wanted by the next plan. -/
theorem Told.wanted_of_waits (h : Told existing policy suggested state)
    (hwanted : label ∈ wanted existing policy suggested)
    (hwaits : carried (admitted existing policy suggested) label = false) :
    label ∈ wanted (relabelled existing state.1) policy suggested := by
  obtain ⟨before, after, hsplit, hleads⟩ := mem_wanted.mp hwanted
  obtain ⟨hnew, hallowed, hfirst⟩ := leads_iff.mp hleads
  have hfrom : ∀ other, carried (relabelled existing state.1) other = true →
      carried existing other = true ∨ carried (admitted existing policy suggested) other = true := by
    intro other hcarried
    obtain ⟨held, hheld, hsame⟩ := carried_iff.mp hcarried
    rcases h.mem_relabelled.mp hheld with ⟨hmem, -⟩ | hmem
    · exact .inl (carried_iff.mpr ⟨held, hmem, hsame⟩)
    · exact .inr (carried_iff.mpr ⟨held, hmem, hsame⟩)
  refine mem_wanted.mpr ⟨before, after, hsplit, leads_iff.mpr ⟨?_, hallowed, ?_⟩⟩
  · rw [Bool.eq_false_iff]
    intro hcarried
    rcases hfrom label hcarried with hold | hadded
    · exact Bool.false_ne_true (hnew.symm.trans hold)
    · exact Bool.false_ne_true (hwaits.symm.trans hadded)
  · intro facet hlabel other hother hdecides hof
    cases hcarried : decides existing policy other with
    | true => exact hfirst facet hlabel other hother hcarried hof
    | false =>
      rw [decides, Bool.or_eq_false_iff] at hcarried
      rw [decides, hcarried.2, Bool.or_false] at hdecides
      rcases hfrom other hdecides with hold | hadded
      · exact Bool.false_ne_true (hcarried.1.symm.trans hold)
      · obtain ⟨held, hheld, hsame⟩ := carried_iff.mp hadded
        have hofheld := (facetOf_of_same hsame).trans hof
        rw [← eq_of_wanted (wanted_of_admitted hheld) hwanted hofheld hlabel] at hwaits
        rw [carried_of_mem hheld] at hwaits
        exact Bool.false_ne_true hwaits.symm

/-- Planned again, a spoken facet loses nothing. -/
theorem Told.supersede_left (h : Told existing policy suggested state)
    (hmem : label ∈ suggested) (hcarried : carried (relabelled existing state.1) label = true) :
    supersede label (relabelled existing state.1) = [] := by
  rw [List.eq_nil_iff_forall_not_mem]
  intro held hheld
  obtain ⟨hleft, ⟨facet, hof, hofheld⟩, hne⟩ := mem_supersede.mp hheld
  obtain ⟨twin, htwin, hsame⟩ := carried_iff.mp hcarried
  have hoftwin := (facetOf_of_same hsame).trans hof
  have hspeaks : state.1.SpeaksOn facet := by
    rcases h.mem_relabelled.mp htwin with ⟨hold, -⟩ | hadded
    · exact h.speaksOn_iff.mpr
        ⟨label, .inl ⟨hmem, carried_iff.mpr ⟨twin, hold, hsame⟩⟩, hof⟩
    · exact h.speaksOn_iff.mpr ⟨twin, .inr hadded, hoftwin⟩
  rw [same_trans (h.same_of_left hspeaks hleft htwin hofheld hoftwin) hsame] at hne
  exact Bool.false_ne_true hne.symm

end Rivals

section Planner

variable {existing suggested : List Text} {policy : LabelPolicy}

variable (suggested) in
theorem planLabels_idle (h : idle existing policy = true) :
    (planLabels existing suggested policy).add = [] ∧
      (planLabels existing suggested policy).remove = [] ∧
      ∀ label, (label, "already applied") ∉ (planLabels existing suggested policy).declined := by
  rw [planLabels]
  split
  · simp
  · next happly =>
    have hblocked : (policy.blockLabels.any fun block =>
        existing.any fun label => same label block) = true := by
      simpa [idle, happly, carried] using h
    rw [hblocked]
    simp

variable (suggested) in
theorem told_planLabels (h : idle existing policy = false) :
    ∃ chosen, Told existing policy suggested (planLabels existing suggested policy, chosen) := by
  have hplan : planLabels existing suggested policy =
      (suggested.foldl (suggest existing policy) ({}, [])).1 := by
    obtain ⟨happly, hblocked⟩ := Bool.or_eq_false_iff.mp h
    rw [planLabels, if_neg (by simpa using happly), if_neg]
    simpa [carried] using hblocked
  rw [hplan]
  exact ⟨_, told_suggested suggested⟩

theorem idle_relabelled {state : LabelPlan × List Text} (h : Told existing policy suggested state)
    (hidle : idle existing policy = false) : idle (relabelled existing state.1) policy =
      policy.blockLabels.any (carried (admitted existing policy suggested)) := by
  obtain ⟨happly, hblocked⟩ := Bool.or_eq_false_iff.mp hidle
  rw [idle, happly, Bool.false_or, Bool.eq_iff_iff, List.any_eq_true, List.any_eq_true]
  refine exists_congr fun block => and_congr_right fun hblock => ?_
  constructor
  · intro hcarried
    obtain ⟨held, hheld, hsame⟩ := carried_iff.mp hcarried
    rcases h.mem_relabelled.mp hheld with ⟨hmem, -⟩ | hmem
    · have hnone := List.any_eq_false.mp hblocked block hblock
      exact absurd (carried_iff.mpr ⟨held, hmem, hsame⟩) hnone
    · exact carried_iff.mpr ⟨held, hmem, hsame⟩
  · intro hcarried
    obtain ⟨held, hheld, hsame⟩ := carried_iff.mp hcarried
    exact carried_iff.mpr ⟨held, h.mem_relabelled.mpr (.inr hheld), hsame⟩

end Planner

section Converging

variable (existing suggested : List Text) (policy : LabelPolicy)

/-- The plan for an item, and the labels it leaves. -/
def labelsLeft : List Text := relabelled existing (planLabels existing suggested policy)

/-- Labels converge facet by facet, and a facet that is labelled stays labelled. -/
structure Converges : Prop where
  atMostOne : ∀ facet, (planLabels existing suggested policy).SpeaksOn facet →
    ∀ one ∈ labelsLeft existing suggested policy, ∀ other ∈ labelsLeft existing suggested policy,
      facetOf one = some facet → facetOf other = some facet → same one other = true
  replaced : ∀ label ∈ (planLabels existing suggested policy).remove,
    ∃ facet, facetOf label = some facet ∧
      (planLabels existing suggested policy).SpeaksOn facet ∧
      ∃ other ∈ labelsLeft existing suggested policy,
        facetOf other = some facet ∧ same other label = false
  outside : ∀ label ∈ existing, facetOf label = none → label ∈ labelsLeft existing suggested policy
  capped : (planLabels existing suggested policy).add.length ≤ policy.maxLabels
  fresh : ∀ label ∈ (planLabels existing suggested policy).add, carried existing label = false
  blocked : policy.blockLabels.any (carried existing) = true →
    (planLabels existing suggested policy).add = [] ∧
      (planLabels existing suggested policy).remove = []
  settled : (planLabels (labelsLeft existing suggested policy) suggested policy).add = [] ∧
    (planLabels (labelsLeft existing suggested policy) suggested policy).remove = []

/-- The labels and suggestions on which nothing is retired in vain and nothing waits for the cap. -/
def Steady : Prop :=
  idle existing policy = true ∨
    NoRivals existing suggested policy ∧ NothingWaits existing suggested policy

variable {existing suggested policy}

theorem Told.settled {chosen : List Text}
    (h : Told existing policy suggested (planLabels existing suggested policy, chosen))
    (hidle : idle existing policy = false) (hrivals : NoRivals existing suggested policy)
    (hwaits : NothingWaits existing suggested policy) :
    (planLabels (labelsLeft existing suggested policy) suggested policy).add = [] ∧
      (planLabels (labelsLeft existing suggested policy) suggested policy).remove = [] := by
  cases hagain : idle (labelsLeft existing suggested policy) policy with
  | true => exact ⟨(planLabels_idle suggested hagain).1, (planLabels_idle suggested hagain).2.1⟩
  | false =>
    obtain ⟨chosen', h'⟩ := told_planLabels suggested hagain
    have hadmitted : admitted (labelsLeft existing suggested policy) policy suggested = [] := by
      rcases hwaits with hzero | hblocks | hall
      · rw [admitted, hzero, List.take_zero]
      · rw [labelsLeft, idle_relabelled h hidle, hblocks] at hagain
        exact absurd hagain.symm Bool.false_ne_true
      · have hnone : wanted (labelsLeft existing suggested policy) policy suggested = [] := by
          refine List.eq_nil_iff_forall_not_mem.mpr fun label hlabel => ?_
          obtain ⟨hwanted, hnew⟩ := h.waits_of_wanted hrivals hlabel
          exact Bool.false_ne_true (hnew.symm.trans (hall label hwanted))
        rw [admitted, hnone, List.take_nil]
    refine ⟨h'.add.trans hadmitted, List.eq_nil_iff_forall_not_mem.mpr fun held hheld => ?_⟩
    obtain ⟨speaker, ⟨hmem, hcarried⟩ | hmem, hheld⟩ := (h'.remove held).mp hheld
    · rw [labelsLeft, h.supersede_left hmem hcarried] at hheld
      exact absurd hheld List.not_mem_nil
    · rw [hadmitted] at hmem
      exact absurd hmem List.not_mem_nil

theorem Told.nothingWaits {chosen : List Text}
    (h : Told existing policy suggested (planLabels existing suggested policy, chosen))
    (hidle : idle existing policy = false)
    (hsettled : (planLabels (labelsLeft existing suggested policy) suggested policy).add = []) :
    NothingWaits existing suggested policy := by
  by_contra hwaits
  obtain ⟨hroom, hblocks, hsome⟩ := by simpa only [NothingWaits, not_or] using hwaits
  push Not at hsome
  obtain ⟨label, hwanted, hnew⟩ := hsome
  have hagain : idle (labelsLeft existing suggested policy) policy = false := by
    rw [labelsLeft, idle_relabelled h hidle]
    simpa using hblocks
  obtain ⟨chosen', h'⟩ := told_planLabels suggested hagain
  have hagainst : label ∈ wanted (labelsLeft existing suggested policy) policy suggested :=
    h.wanted_of_waits hwanted (by simpa using hnew)
  rw [h'.add, admitted, List.take_eq_nil_iff] at hsettled
  rcases hsettled with hzero | hnil
  · exact hroom hzero
  · rw [hnil] at hagainst
    exact absurd hagainst List.not_mem_nil

/-- The plan converges exactly on steady suggestions. -/
theorem converges_iff_steady : Converges existing suggested policy ↔
    Steady existing suggested policy := by
  cases hidle : idle existing policy with
  | true =>
    obtain ⟨hadd, hremove, hdeclined⟩ := planLabels_idle suggested hidle
    have hleft : labelsLeft existing suggested policy = existing := by
      simp [labelsLeft, relabelled, hadd, hremove]
    have hsilent : ∀ facet, ¬ (planLabels existing suggested policy).SpeaksOn facet := by
      rintro facet (⟨label, hmem, -⟩ | ⟨label, hmem, -⟩)
      · simp [hadd] at hmem
      · exact hdeclined label hmem
    refine iff_of_true ⟨fun facet hspeaks => absurd hspeaks (hsilent facet), ?_, ?_, ?_, ?_,
      fun _ => ⟨hadd, hremove⟩, ?_⟩ (.inl hidle)
    · simp [hremove]
    · intro label hmem _
      rwa [hleft]
    · simp [hadd]
    · simp [hadd]
    · rw [hleft]
      exact ⟨hadd, hremove⟩
  | false =>
    obtain ⟨chosen, h⟩ := told_planLabels suggested hidle
    constructor
    · intro hconverges
      refine .inr ⟨h.noRivals fun label hremoved facet hfacet => ?_,
        h.nothingWaits hidle hconverges.settled.1⟩
      obtain ⟨facet', hfacet', -, other, hother, hof, -⟩ := hconverges.replaced label hremoved
      cases hfacet.symm.trans hfacet'
      exact ⟨other, hother, hof⟩
    · rintro (hidle' | ⟨hrivals, hwaits⟩)
      · exact absurd (hidle.symm.trans hidle') Bool.false_ne_true
      · refine ⟨fun facet hspeaks one hone other hother => h.same_of_left hspeaks hone hother,
          fun label => h.other_left hrivals, ?_, ?_, ?_, ?_, h.settled hidle hrivals hwaits⟩
        · intro label hmem hfacet
          refine h.mem_relabelled.mpr (.inl ⟨hmem, fun hremoved => ?_⟩)
          obtain ⟨facet, hof, -⟩ := h.other_left hrivals hremoved
          exact Option.some_ne_none facet (hof.symm.trans hfacet)
        · rw [h.add]
          exact List.length_take_le _ _
        · intro label hmem
          rw [h.add] at hmem
          exact carried_of_wanted (wanted_of_admitted hmem)
        · intro hblocked
          rw [idle, hblocked, Bool.or_true] at hidle
          exact absurd hidle.symm Bool.false_ne_true

end Converging

section Entries

variable (existing suggested : List Text) (policy : LabelPolicy)

/-- In a facet spoken on, not even one name in two spellings is left. -/
def OneEntry : Prop :=
  ∀ facet, (planLabels existing suggested policy).SpeaksOn facet →
    ((labelsLeft existing suggested policy).filter fun label => facetOf label = some facet).length ≤ 1

/-- A label suggested is there once, unless another of its facet is added. -/
def NoTwins : Prop :=
  idle existing policy = true ∨
    ∀ label ∈ suggested, carried existing label = true → ∀ facet, facetOf label = some facet →
      (∃ added ∈ admitted existing policy suggested, facetOf added = some facet) ∨
        (existing.filter fun held => same held label).length ≤ 1

variable {existing suggested policy}

theorem filter_wanted_length (suggested : List Text) (facet : Text) :
    ((wanted existing policy suggested).filter fun label =>
      facetOf label = some facet).length ≤ 1 := by
  induction suggested using List.reverseRecOn with
  | nil => simp [wanted, wantedAfter]
  | append_singleton earlier label ih =>
    rw [wanted_append, List.filter_append, List.length_append]
    by_cases hleads : leads existing policy earlier label = true ∧ facetOf label = some facet
    · obtain ⟨hleads, hfacet⟩ := hleads
      have hnone : (wanted existing policy earlier).filter
          (fun other => facetOf other = some facet) = [] := by
        rw [List.filter_eq_nil_iff]
        intro other hother hof
        obtain ⟨before, after, rfl, hfirst⟩ := mem_wanted.mp hother
        refine (leads_iff.mp hleads).2.2 facet hfacet other (by simp) ?_ (of_decide_eq_true hof)
        simp [decides, (leads_iff.mp hfirst).2.1]
      simp [hnone, hleads, hfacet]
    · have hlast : ((if leads existing policy earlier label then [label] else []).filter
          fun other => facetOf other = some facet) = [] := by
        split
        · next h => simpa using fun hfacet => hleads ⟨h, hfacet⟩
        · rfl
      rw [hlast]
      simpa using ih

theorem Told.filter_left {state : LabelPlan × List Text}
    (h : Told existing policy suggested state) (facet : Text) :
    (relabelled existing state.1).filter (fun label => facetOf label = some facet) =
      existing.filter (fun label => label ∉ state.1.remove ∧ facetOf label = some facet) ++
        (admitted existing policy suggested).filter fun label => facetOf label = some facet := by
  rw [relabelled, List.filter_append, List.filter_append, List.filter_filter, List.filter_filter,
    h.add]
  congr 1
  · refine List.filter_congr fun label _ => ?_
    simp [Bool.and_comm]
  · refine List.filter_congr fun label hmem => ?_
    have hkept : label ∉ state.1.remove := fun hremoved => by
      have hnew := carried_of_wanted (wanted_of_admitted hmem)
      rw [carried_of_mem (h.mem_remove_existing hremoved)] at hnew
      exact Bool.false_ne_true hnew.symm
    simp [hkept]

/-- One entry is added, and none else is left of its facet. -/
theorem Told.filter_left_of_added {state : LabelPlan × List Text}
    (h : Told existing policy suggested state) {facet : Text}
    (hadded : ∃ added ∈ admitted existing policy suggested, facetOf added = some facet) :
    ((relabelled existing state.1).filter fun label => facetOf label = some facet).length ≤ 1 := by
  obtain ⟨added, hmem, hfacet⟩ := hadded
  have hold : existing.filter
      (fun label => label ∉ state.1.remove ∧ facetOf label = some facet) = [] := by
    rw [List.filter_eq_nil_iff]
    intro label hlabel hkept
    obtain ⟨hkept, hof⟩ := of_decide_eq_true hkept
    have heq := h.eq_of_admitted hmem hfacet (h.mem_relabelled.mpr (.inl ⟨hlabel, hkept⟩)) hof
    have hnew := carried_of_wanted (wanted_of_admitted hmem)
    rw [← heq, carried_of_mem hlabel] at hnew
    exact Bool.false_ne_true hnew.symm
  rw [h.filter_left, hold, List.nil_append]
  exact le_trans (((List.take_sublist _ _).filter _).length_le)
    (filter_wanted_length suggested facet)

/-- With none added, what is left of a facet are the spellings of the label suggested. -/
theorem Told.filter_left_of_carried {state : LabelPlan × List Text}
    (h : Told existing policy suggested state) (hrivals : NoRivals existing suggested policy)
    {label facet : Text} (hmem : label ∈ suggested) (hcarried : carried existing label = true)
    (hfacet : facetOf label = some facet)
    (hnone : ¬ ∃ added ∈ admitted existing policy suggested, facetOf added = some facet) :
    (relabelled existing state.1).filter (fun label => facetOf label = some facet) =
      existing.filter fun held => same held label := by
  have hadded : (admitted existing policy suggested).filter
      (fun label => facetOf label = some facet) = [] := by
    rw [List.filter_eq_nil_iff]
    exact fun added hmem hof => hnone ⟨added, hmem, of_decide_eq_true hof⟩
  rw [h.filter_left, hadded, List.append_nil]
  refine List.filter_congr fun held hheld => ?_
  rw [Bool.eq_iff_iff, decide_eq_true_eq]
  constructor
  · rintro ⟨hkept, hof⟩
    exact (h.kept_iff hheld hof).mp hkept label (.inl ⟨hmem, hcarried⟩) hfacet
  · intro hsame
    have hof := (facetOf_of_same hsame).trans hfacet
    refine ⟨(h.kept_iff hheld hof).mpr ?_, hof⟩
    rintro other (⟨hother, hcarried'⟩ | hother) hofother
    · by_contra hdiffer
      refine hnone (hrivals label hmem other hother hcarried hcarried' ?_ facet hfacet hofother)
      rw [Bool.eq_false_iff]
      exact fun hsame' => hdiffer (same_trans hsame hsame')
    · exact absurd ⟨other, hother, hofother⟩ hnone

theorem oneEntry_iff (hsteady : Steady existing suggested policy) :
    OneEntry existing suggested policy ↔ NoTwins existing suggested policy := by
  cases hidle : idle existing policy with
  | true =>
    obtain ⟨hadd, -, hdeclined⟩ := planLabels_idle suggested hidle
    refine iff_of_true ?_ (.inl hidle)
    rintro facet (⟨label, hmem, -⟩ | ⟨label, hmem, -⟩)
    · simp [hadd] at hmem
    · exact absurd hmem (hdeclined label)
  | false =>
    obtain ⟨chosen, h⟩ := told_planLabels suggested hidle
    obtain ⟨hrivals, -⟩ :=
      hsteady.resolve_left fun hidle' => Bool.false_ne_true (hidle.symm.trans hidle')
    constructor
    · refine fun hone => .inr fun label hmem hcarried facet hfacet => ?_
      by_cases hadded : ∃ added ∈ admitted existing policy suggested, facetOf added = some facet
      · exact .inl hadded
      · right
        rw [← h.filter_left_of_carried hrivals hmem hcarried hfacet hadded]
        exact hone facet (h.speaksOn_iff.mpr ⟨label, .inl ⟨hmem, hcarried⟩, hfacet⟩)
    · rintro (hidle' | htwins) facet hspeaks
      · exact absurd (hidle.symm.trans hidle') Bool.false_ne_true
      · by_cases hadded : ∃ added ∈ admitted existing policy suggested, facetOf added = some facet
        · exact h.filter_left_of_added hadded
        · obtain ⟨label, ⟨hmem, hcarried⟩ | hmem, hfacet⟩ := h.speaksOn_iff.mp hspeaks
          · rw [labelsLeft, h.filter_left_of_carried hrivals hmem hcarried hfacet hadded]
            exact (htwins label hmem hcarried facet hfacet).resolve_left hadded
          · exact absurd ⟨label, hmem, hfacet⟩ hadded

end Entries

/-- Labels converge exactly when no two suggested labels of a facet that are both there retire each
other and nothing waits for the cap; entry by entry, when no such label is there twice besides. -/
theorem planLabels_converges_iff (existing suggested : List Text) (policy : LabelPolicy) :
    (Converges existing suggested policy ↔ Steady existing suggested policy) ∧
      (Converges existing suggested policy ∧ OneEntry existing suggested policy ↔
        Steady existing suggested policy ∧ NoTwins existing suggested policy) := by
  refine ⟨converges_iff_steady, ?_⟩
  rw [converges_iff_steady]
  exact and_congr_right oneEntry_iff

def twoPriorities : List Text := ["priority: p0".toList, "priority: p3".toList]

def threeLabels : LabelPolicy := ⟨true, 3, [], []⟩

/-- Two priorities that are both there and both suggested retire each other: none is left. -/
theorem priorities_vanish : ¬ Converges twoPriorities twoPriorities threeLabels ∧
    labelsLeft twoPriorities twoPriorities threeLabels = [] := by
  have hleft : labelsLeft twoPriorities twoPriorities threeLabels = [] := by decide +kernel
  refine ⟨fun h => ?_, hleft⟩
  have hremoved : "priority: p0".toList ∈
      (planLabels twoPriorities twoPriorities threeLabels).remove := by decide +kernel
  obtain ⟨-, -, -, other, hother, -⟩ := h.replaced _ hremoved
  rw [hleft] at hother
  exact absurd hother List.not_mem_nil

end TinySweeper.PrTriage
