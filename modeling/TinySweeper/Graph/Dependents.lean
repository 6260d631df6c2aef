import TinySweeper.Graph.Impact

/-!
# The dependents of a change

The fold over the edges finds every dependent with its strongest relation, in
whatever order the edges come.
-/

namespace TinySweeper.Graph

open Std (TreeMap TreeSet TransOrd LawfulEqOrd ReflCmp)

instance : LawfulEqOrd Relation := ⟨compare_eq_iff_eq.mp⟩

section TreeMap

variable {κ β : Type} [Ord κ] [TransOrd κ] [LawfulEqOrd κ]

theorem toList_eq_of_getElem? {s t : TreeMap κ β} (h : ∀ k : κ, s[k]? = t[k]?) :
    s.toList = t.toList := by
  rw [← TreeMap.equiv_iff_toList_eq, TreeMap.equiv_iff_toList_perm]
  have hnodup : ∀ t : TreeMap κ β, t.toList.Nodup := fun t =>
    TreeMap.distinct_keys_toList.imp fun hne heq => hne (by rw [heq]; exact ReflCmp.compare_self)
  rw [List.perm_ext_iff_of_nodup (hnodup s) (hnodup t)]
  rintro ⟨k, v⟩
  rw [TreeMap.mem_toList_iff_getElem?_eq_some, TreeMap.mem_toList_iff_getElem?_eq_some, h k]

theorem nodup_keys_toList (t : TreeMap κ β) : (t.toList.map Prod.fst).Nodup :=
  List.pairwise_map.mpr (TreeMap.distinct_keys_toList.imp fun hne heq =>
    hne (by rw [heq]; exact ReflCmp.compare_self))

end TreeMap

section Relates

variable (seeds : List Text) (edges : List GraphEdge)

/-- An edge relates the node, which is not changed itself, to what is changed. -/
def Relates (id : Text) (relation : Relation) : Prop :=
  ∃ edge ∈ edges, edge.target ∈ seeds ∧ edge.source = id ∧ id ∉ seeds ∧
    Relation.of edge.kind = some relation

/-- The strongest relation of all edges of the node into the change. -/
def Strongest (id : Text) (relation : Relation) : Prop :=
  Relates seeds edges id relation ∧ ∀ other, Relates seeds edges id other → relation ≤ other

/-- The node is changed, and a test exercises it. -/
def Covered (id : Text) : Prop :=
  id ∈ seeds ∧ ∃ edge ∈ edges, edge.target = id ∧ edge.kind = .tests

/-- What the fold has gathered of these edges. -/
structure Noted (walked : Walked) : Prop where
  missing : ∀ id : Text, walked.strongest[id]? = none → ∀ relation, ¬ Relates seeds edges id relation
  found : ∀ (id : Text) (relation : Relation), walked.strongest[id]? = some relation →
    Strongest seeds edges id relation
  covered : ∀ id, walked.covered.contains id = true ↔ Covered seeds edges id

end Relates

section Noted

variable {seeds : List Text} {edges : List GraphEdge} {walked : Walked} {edge : GraphEdge}

theorem relates_concat {id : Text} {relation : Relation} :
    Relates seeds (edges ++ [edge]) id relation ↔ Relates seeds edges id relation ∨
      edge.target ∈ seeds ∧ edge.source = id ∧ id ∉ seeds ∧
        Relation.of edge.kind = some relation := by
  simp only [Relates, List.mem_append, List.mem_singleton, or_and_right, exists_or, exists_eq_left]

theorem covered_concat {id : Text} :
    Covered seeds (edges ++ [edge]) id ↔
      Covered seeds edges id ∨ id ∈ seeds ∧ edge.target = id ∧ edge.kind = .tests := by
  simp only [Covered, List.mem_append, List.mem_singleton, or_and_right, exists_or, exists_eq_left,
    and_or_left]

theorem of_eq_test {kind : EdgeKind} : Relation.of kind = some .test ↔ kind = .tests := by
  cases kind <;> decide

theorem contains_ofList_iff (seeds : List Text) (id : Text) :
    (TreeSet.ofList seeds).contains id = true ↔ id ∈ seeds := by
  rw [TreeSet.contains_ofList, List.contains_iff_mem]

theorem Noted.note (h : Noted seeds edges walked) :
    Noted seeds (edges ++ [edge]) (walked.note (TreeSet.ofList seeds) edge) := by
  unfold Walked.note
  by_cases htarget : edge.target ∈ seeds
  case neg =>
    rw [if_pos (by rwa [Bool.not_eq_true', ← Bool.not_eq_true, contains_ofList_iff])]
    have hsame : ∀ id relation,
        Relates seeds (edges ++ [edge]) id relation ↔ Relates seeds edges id relation :=
      fun id relation => relates_concat.trans (or_iff_left fun hedge => htarget hedge.1)
    refine ⟨fun id hnone relation => ?_, fun id relation hsome => ?_, fun id => ?_⟩
    · exact fun hrelates => h.missing id hnone relation ((hsame id relation).mp hrelates)
    · simp only [Strongest, hsame]
      exact h.found id relation hsome
    · rw [h.covered, covered_concat]
      refine (or_iff_left ?_).symm
      rintro ⟨hid, rfl, -⟩
      exact htarget hid
  rw [if_neg (by simpa using htarget)]
  cases hkind : Relation.of edge.kind with
  | none =>
    have hsame : ∀ id relation,
        Relates seeds (edges ++ [edge]) id relation ↔ Relates seeds edges id relation := by
      intro id relation
      rw [relates_concat, hkind]
      exact or_iff_left fun hedge => Option.some_ne_none _ hedge.2.2.2.symm
    refine ⟨fun id hnone relation => ?_, fun id relation hsome => ?_, fun id => ?_⟩
    · exact fun hrelates => h.missing id hnone relation ((hsame id relation).mp hrelates)
    · simp only [Strongest, hsame]
      exact h.found id relation hsome
    · rw [h.covered, covered_concat, ← of_eq_test, hkind]
      refine (or_iff_left ?_).symm
      rintro ⟨-, -, ⟨⟩⟩
  | some relation =>
    have hrelates : ∀ id other, Relates seeds (edges ++ [edge]) id other ↔
        Relates seeds edges id other ∨ edge.source = id ∧ id ∉ seeds ∧ relation = other := by
      intro id other
      rw [relates_concat, hkind, Option.some.injEq, and_iff_right htarget]
    have hstrongest : ∀ id : Text,
        (if (TreeSet.ofList seeds).contains edge.source then walked.strongest
          else walked.strongest.alter edge.source (strengthen relation))[id]? =
        if edge.source = id ∧ id ∉ seeds then strengthen relation walked.strongest[id]?
        else walked.strongest[id]? := by
      intro id
      by_cases hsource : edge.source ∈ seeds
      · rw [if_pos ((contains_ofList_iff _ _).mpr hsource), if_neg]
        rintro ⟨rfl, hfresh⟩
        exact hfresh hsource
      · rw [if_neg (mt (contains_ofList_iff _ _).mp hsource), TreeMap.getElem?_alter]
        rcases eq_or_ne edge.source id with rfl | hne
        · rw [if_pos ReflCmp.compare_self, if_pos ⟨rfl, hsource⟩]
        · rw [if_neg (mt Std.LawfulEqCmp.compare_eq_iff_eq.mp hne), if_neg fun h => hne h.1]
    refine ⟨fun id hnone other hother => ?_, fun id found hsome => ?_, fun id => ?_⟩
    · rw [hstrongest] at hnone
      split_ifs at hnone with hnew
      · cases hnone
      · rcases (hrelates id other).mp hother with hold | ⟨hsame, hfresh, -⟩
        · exact h.missing id hnone other hold
        · exact hnew ⟨hsame, hfresh⟩
    · rw [hstrongest] at hsome
      split_ifs at hsome with hnew
      · obtain rfl := Option.some.inj hsome
        cases hold : walked.strongest[id]? with
        | none =>
          refine ⟨(hrelates id _).mpr (.inr ⟨hnew.1, hnew.2, rfl⟩), fun other hother => ?_⟩
          rcases (hrelates id other).mp hother with hbefore | ⟨-, -, rfl⟩
          · exact absurd hbefore (h.missing id hold other)
          · exact le_rfl
        | some current =>
          obtain ⟨hcurrent, hleast⟩ := h.found id current hold
          refine ⟨(hrelates id _).mpr ?_, fun other hother => ?_⟩
          · rcases min_choice current relation with hmin | hmin
            · exact .inl (by rwa [Option.elim_some, hmin])
            · exact .inr ⟨hnew.1, hnew.2, hmin.symm⟩
          · rcases (hrelates id other).mp hother with hbefore | ⟨-, -, rfl⟩
            · exact (min_le_left _ _).trans (hleast other hbefore)
            · exact min_le_right _ _
      · obtain ⟨hfound, hleast⟩ := h.found id found hsome
        refine ⟨(hrelates id found).mpr (.inl hfound), fun other hother => ?_⟩
        rcases (hrelates id other).mp hother with hbefore | ⟨hsame, hfresh, -⟩
        · exact hleast other hbefore
        · exact absurd ⟨hsame, hfresh⟩ hnew
    · rw [covered_concat, ← of_eq_test, hkind, Option.some.injEq, ← h.covered]
      dsimp only
      split_ifs with htest
      · rw [TreeSet.contains_insert, Bool.or_eq_true, beq_iff_eq,
          Std.LawfulEqCmp.compare_eq_iff_eq, or_comm]
        refine or_congr_right ⟨?_, fun hnew => hnew.2.1⟩
        rintro rfl
        exact ⟨htarget, rfl, htest⟩
      · exact (or_iff_left fun hnew => htest hnew.2.2).symm

theorem noted_foldl (seeds : List Text) (edges : List GraphEdge) :
    Noted seeds edges (edges.foldl (Walked.note (TreeSet.ofList seeds)) {}) := by
  induction edges using List.reverseRecOn with
  | nil =>
    refine ⟨fun id _ relation hrelates => ?_, fun id relation hsome => ?_, fun id => ?_⟩
    · obtain ⟨edge, hedge, -⟩ := hrelates
      cases hedge
    · rw [List.foldl_nil, TreeMap.getElem?_emptyc] at hsome
      cases hsome
    · simp [Covered]
  | append_singleton edges edge ih =>
    rw [List.foldl_append]
    exact ih.note

end Noted

end TinySweeper.Graph
