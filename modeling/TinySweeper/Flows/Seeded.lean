import TinySweeper.Flows.Honest

/-!
# An honest seed

What is looked up unasked is told, or marked in vain, and never outgrows the ceiling.
-/

namespace TinySweeper.Flows

open Text Evidence Ports

section Seed

variable {quoted : Text → Text} (tree : TreeReader quoted) (policy : LookupPolicy)

/-- The seed so far is honest and within the ceiling. -/
structure Seeding.Sound (s : Seeding) : Prop where
  honest : s.ledger.Honest tree s.rendered
  chars : s.ledger.chars ≤ policy.maxChars

variable {tree policy} {s : Seeding}

/-- A key that is marked in vain. -/
theorem Seeding.Sound.markHide (h : s.Sound tree policy) (key : Text) :
    ((s.mark key).hide {key}).Sound tree policy := by
  refine ⟨h.honest.extend List.infix_rfl Finset.subset_union_left fun other hother => ?_, h.chars⟩
  rcases Finset.mem_insert.mp hother with rfl | hold
  · exact .inr (.inl (Finset.mem_union_right _ (Finset.mem_singleton_self _)))
  · exact .inl hold

/-- A body that fits is charged and said. -/
theorem Seeding.Sound.add (h : s.Sound tree policy) {body : Text} (rendered : Text) (count : ℕ)
    (hfits : s.fits policy body = true) : (s.add body rendered count).Sound tree policy :=
  ⟨h.honest.extend (List.prefix_append _ _).isInfix subset_rfl fun _ hkey => .inl hkey,
    of_decide_eq_true hfits⟩

theorem reported_ok (lead : Text) (found : Found) : reported lead (.ok found) = found := rfl

/-- A lookup that is marked and rendered is told, unless it failed. -/
theorem Seeding.Sound.answer (h : s.Sound tree policy) {lookup : Lookup} {body : Text}
    (count : ℕ) (hfits : s.fits policy body = true)
    (hbody : renderFound (reported [] (tree.lookup lookup)) <:+: body) :
    (((s.mark (lookup.key quoted)).hide (failed tree [lookup])).add body body count).Sound
      tree policy := by
  refine ⟨?_, of_decide_eq_true hfits⟩
  refine h.honest.extend (List.prefix_append _ _).isInfix Finset.subset_union_left
    fun key hkey => ?_
  rcases Finset.mem_insert.mp hkey with rfl | hold
  · refine .inr (or_iff_not_imp_left.mpr fun hshown => ?_)
    obtain ⟨found, hfound⟩ := ok_of_not_failed (List.mem_singleton.mpr rfl)
      fun hfailed => hshown (Finset.mem_union_right _ hfailed)
    rw [hfound, reported_ok] at hbody
    exact ⟨lookup, found, rfl, hfound, .inl (.inl (hbody.trans (List.suffix_append _ _).isInfix))⟩
  · exact .inl hold

theorem renderFound_infix_probed (name path : Text) (found : Found) :
    renderFound found <:+: probed name path found :=
  ⟨_, _, rfl⟩

theorem renderFound_infix_atHead (key : Text) (found : Found) :
    renderFound found <:+: atHead key found :=
  ⟨_, _, rfl⟩

theorem Seeding.Sound.probe (h : s.Sound tree policy) (name : Text) (paths : List Text) :
    (s.probe tree policy name paths).Sound tree policy := by
  induction paths generalizing s with
  | nil => exact h
  | cons path rest ih =>
    unfold Seeding.probe
    dsimp only
    split
    · exact h
    · split
      · exact ih h
      · split
        · exact h.markHide _
        · next hfits =>
          simp only [Bool.not_eq_true', Bool.not_eq_false] at hfits
          exact ih (h.answer 1 hfits (renderFound_infix_probed name path _))

theorem Seeding.Sound.declare (h : s.Sound tree policy) (declarations : List AddedModulePaths) :
    (s.declare tree policy declarations).Sound tree policy := by
  induction declarations generalizing s with
  | nil => exact h
  | cons declaration rest ih =>
    unfold Seeding.declare
    split
    · exact h
    · cases declaration with
      | resolved name paths => exact ih (h.probe name paths)
      | unavailable name reason =>
        dsimp only
        split
        · exact h
        · next hfits => exact ih (h.add _ 1 (by simpa using hfits))

theorem renderFound_infix_fenced {hits : List Hit} (hne : hits ≠ []) (after : Text) :
    renderFound (.hits hits false []) <:+: fenced (hitLines hits) ++ after := by
  have heq : renderFound (.hits hits false []) = fenced (hitLines hits) := by
    unfold renderFound renderHits
    simp [hne]
  rw [heq]
  exact (List.prefix_append _ _).isInfix

theorem infix_fenced (content after : Text) : content <:+: fenced content ++ after := by
  unfold fenced
  exact ⟨fenceFor content ++ "\n".toList, fenceFor content ++ after, by simp [List.append_assoc]⟩

theorem infix_headed (key body : Text) : body <:+: headed key body := ⟨_, _, rfl⟩

section Sites

variable (lookup : Lookup) (below : Hit → ℕ) (fresh : List Hit)

variable {lookup below fresh} in
theorem mem_markSites_seen {key : Text} : key ∈ (s.markSites quoted below (lookup.key quoted) fresh).ledger.seen ↔
    key ∈ s.ledger.seen ∨ key = lookup.key quoted ∨
      ∃ hit ∈ fresh, (definitionRead below hit).key quoted = key := by
  rw [Seeding.markSites, mem_markReads_seen, mark_seen, Finset.mem_insert]
  tauto

/-- Sites whose body does not fit are marked in vain. -/
theorem Seeding.Sound.sitesInVain (h : s.Sound tree policy) :
    ((s.markSites quoted below (lookup.key quoted) fresh).hide (insert (lookup.key quoted)
      ((fresh.map (definitionRead below)).map (Lookup.key quoted)).toFinset)).Sound tree policy := by
  refine ⟨h.honest.extend List.infix_rfl Finset.subset_union_left fun key hkey => ?_, h.chars⟩
  rcases mem_markSites_seen.mp hkey with hold | rfl | ⟨hit, hmem, rfl⟩
  · exact .inl hold
  · exact .inr (.inl (Finset.mem_union_right _ (Finset.mem_insert_self _ _)))
  · refine .inr (.inl (Finset.mem_union_right _ (Finset.mem_insert_of_mem ?_)))
    simpa using ⟨hit, hmem, rfl⟩

/-- Sites whose body fits are told, but for reads that fail and hits left out without a word. -/
theorem Seeding.Sound.sites (h : s.Sound tree policy) {hits shown : List Hit}
    {truncated noted : Bool} {missing : List Text} {body : Text}
    (hfound : tree.lookup lookup = .ok (.hits hits truncated missing))
    (hshown : shown ≠ []) (hsub : shown.Sublist hits) (hnoted : noted = false → missing = [])
    (hbody : body = fenced (hitLines shown ++ if noted then INCOMPLETE else []) ++
      fresh.flatMap (followedText tree below))
    (hfits : s.fits policy body = true) :
    ((((s.markSites quoted below (lookup.key quoted) fresh).hide
        (failed tree (fresh.map (definitionRead below)))).hide
      (if noted || shown = hits && !truncated then ∅ else {lookup.key quoted})).add body
        (headed (lookup.key quoted) body) 1).Sound tree policy := by
  have hsaid : body <:+: s.rendered ++ headed (lookup.key quoted) body :=
    (infix_headed _ _).trans (List.suffix_append _ _).isInfix
  refine ⟨h.honest.extend (List.prefix_append _ _).isInfix ?_ fun key hkey => ?_,
    of_decide_eq_true hfits⟩
  · exact Finset.subset_union_left.trans Finset.subset_union_left
  · rcases mem_markSites_seen.mp hkey with hold | rfl | ⟨hit, hmem, rfl⟩
    · exact .inl hold
    · refine .inr (or_iff_not_imp_left.mpr fun hvain => ?_)
      refine ⟨lookup, _, rfl, hfound, ?_⟩
      cases noted with
      | true =>
        refine .inr (.inr ⟨hits, truncated, missing, shown, rfl, hshown, hsub, ?_⟩)
        refine List.IsInfix.trans ?_ hsaid
        rw [hbody]
        exact infix_fenced _ _
      | false =>
        have hwhole : shown = hits ∧ truncated = false := by
          by_contra hpart
          refine hvain (Finset.mem_union_right _ ?_)
          rw [if_neg (by simpa using hpart)]
          exact Finset.mem_singleton_self _
        obtain ⟨rfl, rfl⟩ := hwhole
        refine .inl (.inl (List.IsInfix.trans ?_ hsaid))
        rw [hbody, hnoted rfl]
        simpa using renderFound_infix_fenced hshown _
    · refine .inr (or_iff_not_imp_left.mpr fun hvain => ?_)
      have hread : definitionRead below hit ∈ fresh.map (definitionRead below) :=
        List.mem_map_of_mem hmem
      obtain ⟨context, hok⟩ := ok_of_not_failed hread fun hfailed =>
        hvain (Finset.mem_union_left _ (Finset.mem_union_right _ hfailed))
      refine ⟨_, context, rfl, hok, .inl (.inl (List.IsInfix.trans ?_ hsaid))⟩
      have hsection : renderFound context <:+: followedText tree below hit := by
        rw [followedText, hok]
        exact (List.suffix_append _ _).isInfix
      rw [hbody]
      exact (hsection.trans (List.infix_of_mem_flatten (List.mem_map_of_mem hmem))).trans
        (List.suffix_append _ _).isInfix

end Sites

theorem reported_hits {lookup : Lookup} {hits : List Hit} {truncated : Bool} {missing : List Text}
    (h : reported [] (tree.lookup lookup) = .hits hits truncated missing) :
    tree.lookup lookup = .ok (.hits hits truncated missing) := by
  cases hfound : tree.lookup lookup with
  | ok found =>
    rw [hfound] at h
    exact congrArg Except.ok h
  | error err =>
    rw [hfound] at h
    cases h

theorem Seeding.Sound.showSites (h : s.Sound tree policy) (diffs : List FileDiff)
    {lookup : Lookup} {hits shown : List Hit} {truncated noted : Bool} {missing : List Text}
    (hfound : tree.lookup lookup = .ok (.hits hits truncated missing))
    (hshown : shown ≠ []) (hsub : shown.Sublist hits) (hnoted : noted = false → missing = []) :
    (s.showSites tree policy diffs lookup hits shown truncated noted).Sound tree policy := by
  unfold Seeding.showSites
  refine iteInduction (motive := fun s : Seeding => s.Sound tree policy) (fun _ => ?_) fun hfits => ?_
  · exact h.sitesInVain lookup (belowIn diffs) _
  · simp only [Bool.not_eq_true', Bool.not_eq_false] at hfits
    exact h.sites lookup (belowIn diffs) _ hfound hshown hsub hnoted rfl hfits

theorem Seeding.Sound.search (h : s.Sound tree policy) (diffs : List FileDiff) (caller : Bool)
    (pattern : Text) : (s.search tree policy diffs caller pattern).1.Sound tree policy := by
  unfold Seeding.search
  dsimp only
  split
  · exact h
  · split
    · next hit others truncated missing hfound =>
      split
      · exact h
      · next hsites =>
        have hne : Flows.sites diffs caller (hit :: others) ≠ [] := by
          intro hnil
          rw [hnil] at hsites
          exact hsites rfl
        have hsub : ((Flows.sites diffs caller (hit :: others)).take AUTO_FOLLOW).Sublist
            (hit :: others) :=
          (List.take_sublist _ _).trans List.filter_sublist
        dsimp only
        refine h.showSites diffs (reported_hits hfound) ?_ hsub fun hnone => ?_
        · rw [ne_eq, List.take_eq_nil_iff, not_or]
          exact ⟨by decide, hne⟩
        · rw [incomplete, Bool.or_eq_false_iff] at hnone
          simpa using hnone.2
    · next found _ =>
      split
      · exact h.markHide _
      · next hfits =>
        simp only [Bool.not_eq_true', Bool.not_eq_false] at hfits
        exact h.answer 0 hfits (renderFound_infix_atHead _ _)

theorem Seeding.Sound.searches (h : s.Sound tree policy) (diffs : List FileDiff) (caller : Bool)
    (patterns : List Text) : (s.searches tree policy diffs caller patterns).Sound tree policy := by
  induction patterns generalizing s with
  | nil => exact h
  | cons pattern rest ih =>
    have hfirst := h.search diffs caller pattern
    unfold Seeding.searches
    split
    · next again heq =>
      rw [heq] at hfirst
      exact ih hfirst
    · next last heq =>
      rw [heq] at hfirst
      exact hfirst

variable (tree policy) in
/-- The whole seed of a fresh ledger is honest and within the ceiling. -/
theorem seed_honest (isUppercase : Char → Bool) (seedSymbols : FileDiff → List Text)
    (addedModulePaths : FileDiff → List AddedModulePaths) (diffs : List FileDiff) {l : Ledger}
    {g : Gathered} (hseed : ({} : Ledger).seed tree policy isUppercase seedSymbols
      addedModulePaths diffs = (l, g)) :
    l.Honest tree g.rendered ∧ l.chars ≤ policy.maxChars := by
  have hfresh : Seeding.Sound tree policy { ledger := {} } :=
    ⟨fun key hkey => absurd hkey (Finset.notMem_empty key), Nat.zero_le _⟩
  have hmodules := List.foldlRecOn diffs (motive := Seeding.Sound tree policy)
    (fun (s : Seeding) diff => s.declare tree policy (addedModulePaths diff)) hfresh
    fun s hs diff _ => hs.declare (addedModulePaths diff)
  have hall := List.foldlRecOn (candidates seedSymbols diffs) (motive := Seeding.Sound tree policy)
    (fun (s : Seeding) symbol =>
      if s.full policy then s else s.symbol tree policy isUppercase diffs symbol) hmodules
    fun s hs symbol _ => iteInduction (motive := Seeding.Sound tree policy) (fun _ => hs)
      fun _ => hs.searches diffs _ _
  unfold Ledger.seed at hseed
  dsimp only at hseed
  revert hseed
  generalize (candidates seedSymbols diffs).foldl (fun (s : Seeding) symbol =>
    if s.full policy then s else s.symbol tree policy isUppercase diffs symbol) _ = s at hall ⊢
  intro hseed
  cases hseed
  refine ⟨?_, hall.chars⟩
  split
  · next hnil => exact hnil ▸ hall.honest
  · exact hall.honest.extend (List.suffix_append _ _).isInfix subset_rfl fun _ hkey => .inl hkey

end Seed

end TinySweeper.Flows
