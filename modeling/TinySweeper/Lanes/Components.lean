import TinySweeper.Classes
import TinySweeper.Lanes.Groups

/-!
# Groups are the bounded components

The groups of a review are the connected components of its changed files, each
whole when it fits the bounds and file by file when it does not.
-/

namespace TinySweeper.Lanes

open Text Evidence UnionFind Classes

section Table

variable {root : ℕ → ℕ}

/-- The members of each root, in key order. -/
def table (root : ℕ → ℕ) (items : List ℕ) : List (ℕ × List ℕ) :=
  items.foldl (fun entries i => pushMember (root i) i entries) []

theorem mem_pushMember {key member k : ℕ} {entries : List (ℕ × List ℕ)} {members : List ℕ}
    (hsorted : (entries.map Prod.fst).Pairwise (· < ·)) :
    (k, members) ∈ pushMember key member entries ↔
      k ≠ key ∧ (k, members) ∈ entries ∨
      k = key ∧ ((∃ old, (key, old) ∈ entries ∧ members = old ++ [member]) ∨
        (∀ old, (key, old) ∉ entries) ∧ members = [member]) := by
  induction entries with
  | nil => simp [pushMember]
  | cons entry entries ih =>
    obtain ⟨first, firstMembers⟩ := entry
    obtain ⟨hfirst, hrest⟩ := List.pairwise_cons.mp hsorted
    have hlater : ∀ old, (first, old) ∉ entries := fun old hmem =>
      absurd (hfirst first (List.mem_map_of_mem hmem)) (lt_irrefl first)
    unfold pushMember
    split
    case isTrue hlt =>
      have hnone : ∀ old, (key, old) ∉ (first, firstMembers) :: entries := by
        intro old hmem
        rcases List.mem_cons.mp hmem with heq | hmem
        · exact absurd (congrArg Prod.fst heq) hlt.ne
        · exact absurd (hfirst key (List.mem_map_of_mem hmem)) hlt.le.not_gt
      constructor
      · intro hmem
        rcases List.mem_cons.mp hmem with heq | hold
        · obtain ⟨rfl, rfl⟩ := Prod.mk.inj heq
          exact .inr ⟨rfl, .inr ⟨hnone, rfl⟩⟩
        · refine .inl ⟨?_, hold⟩
          rintro rfl
          exact hnone members hold
      · rintro (⟨-, hmem⟩ | ⟨rfl, ⟨old, hmem, -⟩ | ⟨-, rfl⟩⟩)
        · exact List.mem_cons_of_mem _ hmem
        · exact absurd hmem (hnone old)
        · exact List.mem_cons_self
    case isFalse hge =>
      split
      case isTrue heq =>
        subst heq
        constructor
        · intro hmem
          rcases List.mem_cons.mp hmem with heq | hold
          · obtain ⟨rfl, rfl⟩ := Prod.mk.inj heq
            exact .inr ⟨rfl, .inl ⟨firstMembers, List.mem_cons_self, rfl⟩⟩
          · refine .inl ⟨?_, List.mem_cons_of_mem _ hold⟩
            rintro rfl
            exact hlater members hold
        · rintro (⟨hne, hmem⟩ | ⟨rfl, ⟨old, hmem, rfl⟩ | ⟨hnone, -⟩⟩)
          · rcases List.mem_cons.mp hmem with heq | hmem
            · exact absurd (congrArg Prod.fst heq) hne
            · exact List.mem_cons_of_mem _ hmem
          · rcases List.mem_cons.mp hmem with heq | hmem
            · rw [(Prod.mk.inj heq).2]
              exact List.mem_cons_self
            · exact absurd hmem (hlater old)
          · exact absurd List.mem_cons_self (hnone firstMembers)
      case isFalse hne =>
        rw [List.mem_cons, ih hrest]
        constructor
        · rintro (heq | ⟨hk, hmem⟩ | ⟨rfl, ⟨old, hmem, rfl⟩ | ⟨hnone, rfl⟩⟩)
          · obtain ⟨rfl, rfl⟩ := Prod.mk.inj heq
            exact .inl ⟨Ne.symm hne, List.mem_cons_self⟩
          · exact .inl ⟨hk, List.mem_cons_of_mem _ hmem⟩
          · exact .inr ⟨rfl, .inl ⟨old, List.mem_cons_of_mem _ hmem, rfl⟩⟩
          · refine .inr ⟨rfl, .inr ⟨fun old hmem => ?_, rfl⟩⟩
            rcases List.mem_cons.mp hmem with heq | hmem
            · exact hne (congrArg Prod.fst heq)
            · exact hnone old hmem
        · rintro (⟨hk, hmem⟩ | ⟨rfl, ⟨old, hmem, rfl⟩ | ⟨hnone, rfl⟩⟩)
          · rcases List.mem_cons.mp hmem with heq | hmem
            · exact .inl heq
            · exact .inr (.inl ⟨hk, hmem⟩)
          · rcases List.mem_cons.mp hmem with heq | hmem
            · exact absurd (congrArg Prod.fst heq) hne
            · exact .inr (.inr ⟨rfl, .inl ⟨old, hmem, rfl⟩⟩)
          · exact .inr (.inr ⟨rfl, .inr ⟨fun old hmem =>
              hnone old (List.mem_cons_of_mem _ hmem), rfl⟩⟩)

theorem keys_pushMember {key member : ℕ} {entries : List (ℕ × List ℕ)}
    (hsorted : (entries.map Prod.fst).Pairwise (· < ·)) :
    ((pushMember key member entries).map Prod.fst).Pairwise (· < ·) := by
  induction entries with
  | nil => simp [pushMember]
  | cons entry entries ih =>
    obtain ⟨first, firstMembers⟩ := entry
    obtain ⟨hfirst, hrest⟩ := List.pairwise_cons.mp hsorted
    unfold pushMember
    split
    case isTrue hlt =>
      refine List.pairwise_cons.mpr ⟨fun k hk => ?_, hsorted⟩
      rcases List.mem_cons.mp hk with rfl | hk
      · exact hlt
      · exact hlt.trans (hfirst k hk)
    case isFalse hge =>
      split
      case isTrue => exact hsorted
      case isFalse hne =>
        refine List.pairwise_cons.mpr ⟨fun k hk => ?_, ih hrest⟩
        obtain ⟨⟨k', members⟩, hmem, rfl⟩ := List.mem_map.mp hk
        rcases (mem_pushMember hrest).mp hmem with ⟨-, hold⟩ | ⟨rfl, -⟩
        · exact hfirst k' (List.mem_map_of_mem hold)
        · omega

/-- The table lists every root once, with its members in order. -/
theorem table_spec (root : ℕ → ℕ) (items : List ℕ) :
    ((table root items).map Prod.fst).Pairwise (· < ·) ∧
      ∀ k members, (k, members) ∈ table root items ↔
        members = items.filter (fun i => decide (root i = k)) ∧ members ≠ [] := by
  induction items using List.reverseRecOn with
  | nil =>
    refine ⟨List.Pairwise.nil, fun k members => ?_⟩
    simp [table]
  | append_singleton items last ih =>
    obtain ⟨hsorted, hmem⟩ := ih
    have hpush : table root (items ++ [last]) =
        pushMember (root last) last (table root items) := by simp [table]
    rw [hpush]
    refine ⟨keys_pushMember hsorted, fun k members => ?_⟩
    rw [mem_pushMember hsorted, List.filter_append]
    by_cases hk : k = root last
    · subst hk
      have hlast : [last].filter (fun i => decide (root i = root last)) = [last] := by simp
      rw [hlast]
      simp only [ne_eq, not_true_eq_false, false_and, false_or, true_and]
      constructor
      · rintro (⟨old, hold, rfl⟩ | ⟨hnone, rfl⟩)
        · rw [((hmem _ _).mp hold).1]
          exact ⟨rfl, by simp⟩
        · have hempty : items.filter (fun i => decide (root i = root last)) = [] := by
            by_contra hsome
            exact hnone _ ((hmem _ _).mpr ⟨rfl, hsome⟩)
          rw [hempty]
          exact ⟨rfl, by simp⟩
      · rintro ⟨rfl, -⟩
        by_cases hempty : items.filter (fun i => decide (root i = root last)) = []
        · refine .inr ⟨fun old hold => ((hmem _ _).mp hold).2 ?_, by rw [hempty]; rfl⟩
          rw [((hmem _ _).mp hold).1, hempty]
        · exact .inl ⟨_, (hmem _ _).mpr ⟨rfl, hempty⟩, rfl⟩
    · have hlast : [last].filter (fun i => decide (root i = k)) = [] := by
        simp [Ne.symm hk]
      rw [hlast, List.append_nil]
      simp only [hk, ne_eq, not_false_eq_true, true_and, false_and, or_false]
      exact hmem k members

/-- Collecting under the roots of a forest yields their table. -/
theorem components_eq {parents : List ℕ} {depth : ℕ → ℕ} (hforest : Forest parents root depth) :
    components parents = table root (List.range parents.length) := by
  have hrun : ∀ (items : List ℕ) (parents' : List ℕ) (entries : List (ℕ × List ℕ)),
      Forest parents' root depth → parents'.length = parents.length →
      (∀ i ∈ items, i < parents.length) →
      (items.foldl (fun (s : List ℕ × List (ℕ × List ℕ)) i =>
        let found := find s.1.length s.1 i
        (found.1, pushMember found.2 i s.2)) (parents', entries)).2 =
      items.foldl (fun entries i => pushMember (root i) i entries) entries := by
    intro items
    induction items with
    | nil => exact fun _ _ _ _ _ => rfl
    | cons i items ih =>
      intro parents' entries hforest' hlength hitems
      have hi : i < parents'.length := hlength ▸ hitems i List.mem_cons_self
      obtain ⟨hfound, hkept, hsame⟩ := hforest'.find_spec hi (hforest'.depth_le i)
      rw [List.foldl_cons, List.foldl_cons]
      dsimp only
      rw [hfound]
      exact ih _ _ hkept (hsame.trans hlength) fun j hj => hitems j (List.mem_cons_of_mem _ hj)
  exact hrun _ parents [] hforest rfl fun i hi => List.mem_range.mp hi

end Table

section Triage

variable {root : ℕ → ℕ} {n : ℕ}

theorem sameRoot_equivalence (root : ℕ → ℕ) : Equivalence fun i j => root i = root j :=
  ⟨fun _ => rfl, Eq.symm, Eq.trans⟩

theorem lowest_cons {first : ℕ} {rest : List ℕ} (h : (first :: rest).Pairwise (· < ·)) :
    lowest (first :: rest) = first := by
  have hmin : (first :: rest).min? = some first := by
    refine List.min?_eq_some_iff.mpr ⟨List.mem_cons_self, fun y hy => ?_⟩
    rcases List.mem_cons.mp hy with rfl | hy
    · exact le_rfl
    · exact ((List.pairwise_cons.mp h).1 y hy).le
  rw [lowest, hmin]
  rfl

/-- A class of positions is what shares the root of its lowest member. -/
theorem eq_filter_lowest {members : List ℕ}
    (h : members ∈ classes (fun i j => root i = root j) (List.range n)) :
    members.head? = some (lowest members) ∧
      members = (List.range n).filter fun j => decide (root (lowest members) = root j) := by
  obtain ⟨first, rest, hcons, hfilter, -⟩ :=
    class_cons (sameRoot_equivalence root) List.nodup_range h
  have hsorted : members.Pairwise (· < ·) := by
    rw [hfilter]
    exact List.pairwise_lt_range.filter _
  have hlowest : lowest members = first := by
    rw [hcons] at hsorted ⊢
    exact lowest_cons hsorted
  rw [hlowest]
  exact ⟨by rw [hcons]; rfl, hfilter⟩

theorem lowest_pairwise : (classes (fun i j => root i = root j) (List.range n)).Pairwise
    fun a b => lowest a < lowest b := by
  have hpairwise := @classes_pairwise ℕ (fun i j => root i = root j) _ _ _
    (List.pairwise_lt_range (n := n))
  refine hpairwise.imp_of_mem fun {a b} ha hb hab => ?_
  have hb := (eq_filter_lowest hb).1
  exact hab _ (eq_filter_lowest ha).1 _ (List.mem_of_mem_head? hb)

/-- Sorted by their lowest members, the entries of the table are the classes in order. -/
theorem sorted_table (root : ℕ → ℕ) (n : ℕ) :
    ((table root (List.range n)).map Prod.snd).insertionSort (fun a b => lowest a ≤ lowest b) =
      classes (fun i j => root i = root j) (List.range n) := by
  obtain ⟨hkeys, hmem⟩ := table_spec root (List.range n)
  have hin : ∀ members, members ∈ (table root (List.range n)).map Prod.snd ↔
      members ∈ classes (fun i j => root i = root j) (List.range n) := by
    intro members
    rw [mem_classes_iff (sameRoot_equivalence root)]
    constructor
    · intro hmembers
      obtain ⟨⟨k, members⟩, hentry, rfl⟩ := List.mem_map.mp hmembers
      obtain ⟨rfl, hsome⟩ := (hmem k members).mp hentry
      obtain ⟨i, hi⟩ := List.exists_mem_of_ne_nil _ hsome
      obtain ⟨hrange, hroot⟩ := List.mem_filter.mp hi
      obtain rfl := of_decide_eq_true hroot
      exact ⟨i, hrange, List.filter_congr fun j _ => decide_eq_decide.mpr eq_comm⟩
    · rintro ⟨i, hi, rfl⟩
      refine List.mem_map.mpr ⟨(root i, _), (hmem _ _).mpr ⟨?_, ?_⟩, rfl⟩
      · exact List.filter_congr fun j _ => decide_eq_decide.mpr eq_comm
      · exact List.ne_nil_of_mem (List.mem_filter.mpr ⟨hi, decide_eq_true rfl⟩)
  have hnodup : ((table root (List.range n)).map Prod.snd).Nodup := by
    have hentries : (table root (List.range n)).Nodup :=
      List.Nodup.of_map _ (hkeys.imp fun hlt => hlt.ne)
    refine hentries.map_on ?_
    rintro ⟨k, members⟩ hk ⟨k', members'⟩ hk' (rfl : members = members')
    obtain ⟨hfilter, hsome⟩ := (hmem k members).mp hk
    obtain ⟨i, hi⟩ := List.exists_mem_of_ne_nil _ hsome
    have hki : root i = k := by
      rw [hfilter] at hi
      exact of_decide_eq_true (List.mem_filter.mp hi).2
    have hki' : root i = k' := by
      rw [((hmem k' members).mp hk').1] at hi
      exact of_decide_eq_true (List.mem_filter.mp hi).2
    rw [← hki, hki']
  have hperm : ((table root (List.range n)).map Prod.snd).Perm
      (classes (fun i j => root i = root j) (List.range n)) := by
    refine (List.perm_ext_iff_of_nodup hnodup (lowest_pairwise.imp fun hlt heq => ?_)).mpr hin
    exact absurd (congrArg lowest heq) hlt.ne
  have htotal : Std.Total fun a b : List ℕ => lowest a ≤ lowest b := ⟨fun a b => le_total _ _⟩
  have htrans : IsTrans (List ℕ) fun a b => lowest a ≤ lowest b := ⟨fun _ _ _ => le_trans⟩
  refine @List.Perm.eq_of_pairwise _ (fun a b => lowest a ≤ lowest b) _ _ ?_
    (List.pairwise_insertionSort _ _) (lowest_pairwise.imp le_of_lt)
    ((List.perm_insertionSort _ _).trans hperm)
  intro a b ha hb hab hba
  have ha := (hin a).mp ((List.mem_insertionSort _).mp ha)
  rw [(eq_filter_lowest ha).2, (eq_filter_lowest hb).2, le_antisymm hab hba]

end Triage

end TinySweeper.Lanes
