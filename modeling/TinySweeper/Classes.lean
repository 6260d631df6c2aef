import Mathlib.Data.List.Sort
import Mathlib.Data.List.Nodup
import Mathlib.Tactic

/-!
# Bounded classes of a list

A list falls into the classes of an equivalence, in the order of their first
members. A class that is not kept whole falls apart into its members.
-/

namespace TinySweeper.Classes

section Defs

variable {α : Type*} (same : α → α → Prop) [DecidableRel same] (keep : List α → Bool)

def others (x : α) (items : List α) : List α := items.filter fun y => !decide (same x y)

def classes : List α → List (List α)
  | [] => []
  | x :: rest =>
    (x :: rest.filter fun y => decide (same x y)) :: classes (others same x rest)
termination_by items => items.length
decreasing_by exact Nat.lt_succ_of_le (List.length_filter_le ..)

/-- A class whole, or its members one by one. -/
def pieces (members : List α) : List (List α) :=
  if keep members then [members] else members.map fun x => [x]

def bounded (items : List α) : List (List α) := (classes same items).flatMap (pieces keep)

end Defs

variable {α β : Type*} {same : α → α → Prop} [DecidableRel same] {keep : List α → Bool}

theorem classes_perm (items : List α) : ((classes same items).flatten).Perm items := by
  induction items using classes.induct same with
  | case1 => simp [classes]
  | case2 x rest ih =>
    rw [classes, List.flatten_cons, List.cons_append]
    refine List.Perm.cons x ?_
    exact (ih.append_left _).trans (List.filter_append_perm _ rest)

theorem mem_classes_iff (hsame : Equivalence same) {items members : List α} :
    members ∈ classes same items ↔
      ∃ x ∈ items, members = items.filter fun y => decide (same x y) := by
  induction items using classes.induct same with
  | case1 => simp [classes]
  | case2 x rest ih =>
    -- Members of the first class see it whole; the others see only the rest.
    have hin : ∀ {y}, same x y → (x :: rest).filter (fun z => decide (same y z)) =
        x :: rest.filter fun z => decide (same x z) := by
      intro y hxy
      rw [List.filter_cons_of_pos (by simpa using hsame.symm hxy)]
      refine congrArg _ (List.filter_congr fun z _ => decide_eq_decide.mpr ⟨?_, ?_⟩)
      · exact hsame.trans hxy
      · exact hsame.trans (hsame.symm hxy)
    have hout : ∀ {y}, ¬ same x y → (x :: rest).filter (fun z => decide (same y z)) =
        (others same x rest).filter fun z => decide (same y z) := by
      intro y hxy
      rw [List.filter_cons_of_neg (by simpa using fun h => hxy (hsame.symm h)),
        others, List.filter_filter]
      refine List.filter_congr fun z _ => ?_
      by_cases hyz : same y z
      · have hxz : ¬ same x z := fun h => hxy (hsame.trans h (hsame.symm hyz))
        simp [hyz, hxz]
      · simp [hyz]
    rw [classes, List.mem_cons, ih]
    constructor
    · rintro (rfl | ⟨y, hy, rfl⟩)
      · exact ⟨x, List.mem_cons_self, (hin (hsame.refl x)).symm⟩
      · obtain ⟨hmem, hxy⟩ := List.mem_filter.mp hy
        exact ⟨y, List.mem_cons_of_mem _ hmem, (hout (by simpa using hxy)).symm⟩
    · rintro ⟨y, hy, rfl⟩
      by_cases hxy : same x y
      · exact .inl (hin hxy)
      · rcases List.mem_cons.mp hy with rfl | hy
        · exact absurd (hsame.refl y) hxy
        · exact .inr ⟨y, List.mem_filter.mpr ⟨hy, by simpa using hxy⟩, hout hxy⟩

/-- The first member of a class stands before everything in the later classes. -/
theorem classes_pairwise {R : α → α → Prop} {items : List α} (hitems : items.Pairwise R) :
    (classes same items).Pairwise fun c d => ∀ x ∈ c.head?, ∀ y ∈ d, R x y := by
  induction items using classes.induct same with
  | case1 => simp [classes]
  | case2 x rest ih =>
    obtain ⟨hx, hrest⟩ := List.pairwise_cons.mp hitems
    rw [classes]
    refine List.pairwise_cons.mpr ⟨fun d hd z hz y hy => ?_, ih (hrest.filter _)⟩
    obtain rfl : x = z := by simpa using hz
    have hmem := (@classes_perm α same _ _).mem_iff.mp (List.mem_flatten.mpr ⟨d, hd, hy⟩)
    exact hx y (List.mem_of_mem_filter hmem)

theorem classes_congr {same' : α → α → Prop} [DecidableRel same'] {items : List α}
    (h : ∀ x ∈ items, ∀ y ∈ items, same x y ↔ same' x y) :
    classes same items = classes same' items := by
  induction items using classes.induct same with
  | case1 => simp [classes]
  | case2 x rest ih =>
    have hx : ∀ y ∈ rest, decide (same x y) = decide (same' x y) := fun y hy =>
      decide_eq_decide.mpr (h x List.mem_cons_self y (List.mem_cons_of_mem _ hy))
    have hstep := ih fun y hy z hz => h y (List.mem_cons_of_mem _ (List.mem_of_mem_filter hy))
      z (List.mem_cons_of_mem _ (List.mem_of_mem_filter hz))
    have hothers : others same x rest = others same' x rest :=
      List.filter_congr fun y hy => congrArg _ (hx y hy)
    rw [classes, classes, List.filter_congr hx, hstep, hothers]

theorem classes_map (f : β → α) (items : List β) :
    classes same (items.map f) =
      (classes (fun x y => same (f x) (f y)) items).map (List.map f) := by
  induction items using classes.induct (fun x y => same (f x) (f y)) with
  | case1 => simp [classes]
  | case2 x rest ih =>
    have hothers : others same (f x) (rest.map f) =
        (others (fun x y => same (f x) (f y)) x rest).map f := List.filter_map
    rw [List.map_cons, classes, hothers, ih, classes, List.filter_map]
    rfl

@[simp] theorem flatten_pieces (members : List α) : (pieces keep members).flatten = members := by
  unfold pieces
  split
  · exact List.flatten_singleton
  · exact List.flatMap_def.symm.trans (List.flatMap_singleton' members)

theorem bounded_perm (items : List α) : ((bounded same keep items).flatten).Perm items := by
  have hflatten : (bounded same keep items).flatten = (classes same items).flatten := by
    unfold bounded
    induction classes same items with
    | nil => rfl
    | cons members rest ih =>
      rw [List.flatMap_cons, List.flatten_append, flatten_pieces, ih, List.flatten_cons]
  rw [hflatten]
  exact classes_perm items

theorem mem_bounded_iff (hsame : Equivalence same) {items piece : List α} :
    piece ∈ bounded same keep items ↔
      ∃ x ∈ items, piece ∈ pieces keep (items.filter fun y => decide (same x y)) := by
  unfold bounded
  rw [List.mem_flatMap]
  constructor
  · rintro ⟨members, hmembers, hpiece⟩
    obtain ⟨x, hx, rfl⟩ := (mem_classes_iff hsame).mp hmembers
    exact ⟨x, hx, hpiece⟩
  · rintro ⟨x, hx, hpiece⟩
    exact ⟨_, (mem_classes_iff hsame).mpr ⟨x, hx, rfl⟩, hpiece⟩

theorem filter_same (hsame : Equivalence same) {items : List α} {x y : α} (hxy : same x y) :
    items.filter (fun z => decide (same x z)) = items.filter fun z => decide (same y z) :=
  List.filter_congr fun _ _ => decide_eq_decide.mpr
    ⟨hsame.trans (hsame.symm hxy), hsame.trans hxy⟩

/-- Two members are together exactly when their class is one and kept whole. -/
theorem together_iff (hsame : Equivalence same) {items : List α} {p q : α} (hp : p ∈ items)
    (hq : q ∈ items) (hne : p ≠ q) :
    (∃ piece ∈ bounded same keep items, p ∈ piece ∧ q ∈ piece) ↔
      same p q ∧ keep (items.filter fun y => decide (same p y)) = true := by
  constructor
  · rintro ⟨piece, hpiece, hpin, hqin⟩
    obtain ⟨x, hx, hmem⟩ := (mem_bounded_iff hsame).mp hpiece
    unfold pieces at hmem
    split at hmem
    case isTrue hkeep =>
      obtain rfl := List.mem_singleton.mp hmem
      have hxp : same x p := by simpa using (List.mem_filter.mp hpin).2
      have hxq : same x q := by simpa using (List.mem_filter.mp hqin).2
      rw [filter_same hsame hxp] at hkeep
      exact ⟨hsame.trans (hsame.symm hxp) hxq, hkeep⟩
    case isFalse =>
      obtain ⟨y, -, rfl⟩ := List.mem_map.mp hmem
      rw [List.mem_singleton] at hpin hqin
      exact absurd (hpin.trans hqin.symm) hne
  · rintro ⟨hpq, hkeep⟩
    refine ⟨items.filter fun y => decide (same p y), ?_, List.mem_filter.mpr ⟨hp, ?_⟩,
      List.mem_filter.mpr ⟨hq, ?_⟩⟩
    · refine (mem_bounded_iff hsame).mpr ⟨p, hp, ?_⟩
      rw [pieces, if_pos hkeep]
      exact List.mem_singleton.mpr rfl
    · exact decide_eq_true (hsame.refl p)
    · exact decide_eq_true hpq

/-- A member of a class that is not kept whole is alone. -/
theorem alone (hsame : Equivalence same) {items piece : List α} {p : α}
    (hapart : keep (items.filter fun y => decide (same p y)) = false)
    (hpiece : piece ∈ bounded same keep items) (hp : p ∈ piece) : piece = [p] := by
  obtain ⟨x, hx, hmem⟩ := (mem_bounded_iff hsame).mp hpiece
  unfold pieces at hmem
  split at hmem
  case isTrue hkeep =>
    obtain rfl := List.mem_singleton.mp hmem
    have hxp : same x p := by simpa using (List.mem_filter.mp hp).2
    rw [filter_same hsame hxp, hapart] at hkeep
    exact absurd hkeep Bool.false_ne_true
  case isFalse =>
    obtain ⟨y, -, rfl⟩ := List.mem_map.mp hmem
    rw [List.mem_singleton] at hp
    rw [hp]

/-- What each class leads with in the bounded list. -/
def leading (keep : List α → Bool) (members : List α) : List α :=
  if keep members then members.take 1 else members

theorem filterMap_head?_bounded (items : List α) :
    (bounded same keep items).filterMap List.head? =
      (classes same items).flatMap (leading keep) := by
  unfold bounded
  rw [List.filterMap_flatMap]
  refine congrArg (fun f => (classes same items).flatMap f) (funext fun members => ?_)
  unfold pieces leading
  split
  · cases members <;> rfl
  · simp [List.filterMap_map, Function.comp_def]

theorem leading_sublist (members : List α) : (leading keep members).Sublist members := by
  unfold leading
  split
  · exact List.take_sublist 1 members
  · exact List.Sublist.refl members

section Order

variable [DecidableEq α]

theorem pairwise_idxOf {items : List α} (hnodup : items.Nodup) :
    items.Pairwise fun x y => items.idxOf x < items.idxOf y := by
  refine List.pairwise_iff_getElem.mpr fun i j hi hj hij => ?_
  rwa [hnodup.idxOf_getElem i hi, hnodup.idxOf_getElem j hj]

/-- A list runs through `items` in order exactly when its positions rise. -/
theorem sublist_iff_pairwise {items l : List α} (hnodup : items.Nodup) :
    l.Sublist items ↔ l ⊆ items ∧ l.Pairwise fun x y => items.idxOf x < items.idxOf y := by
  constructor
  · intro hl
    exact ⟨hl.subset, (pairwise_idxOf hnodup).sublist hl⟩
  · rintro ⟨hsub, hpairwise⟩
    have : Std.Antisymm fun x y => items.idxOf x < items.idxOf y :=
      ⟨fun _ _ hxy hyx => absurd hxy hyx.asymm⟩
    refine List.sublist_of_subperm_of_pairwise ?_ hpairwise (pairwise_idxOf hnodup)
    refine List.subperm_of_subset (hpairwise.imp fun hxy => ?_) hsub
    rintro rfl
    exact absurd hxy (lt_irrefl _)

/-- A class is the members equivalent to its head, and the head comes first. -/
theorem class_cons (hsame : Equivalence same) {items members : List α} (hnodup : items.Nodup)
    (hmembers : members ∈ classes same items) :
    ∃ first rest, members = first :: rest ∧
      members = items.filter (fun y => decide (same first y)) ∧
      ∀ y ∈ rest, items.idxOf first < items.idxOf y := by
  obtain ⟨x, hx, rfl⟩ := (mem_classes_iff hsame).mp hmembers
  have hsorted := (pairwise_idxOf hnodup).filter fun y => decide (same x y)
  cases hclass : items.filter fun y => decide (same x y) with
  | nil =>
    have hxin := (List.mem_filter (p := fun y => decide (same x y))).mpr
      ⟨hx, decide_eq_true (hsame.refl x)⟩
    rw [hclass] at hxin
    exact absurd hxin List.not_mem_nil
  | cons first rest =>
    have hfirst : first ∈ items.filter fun y => decide (same x y) := by
      rw [hclass]
      exact List.mem_cons_self
    have hxfirst : same x first := of_decide_eq_true (List.mem_filter.mp hfirst).2
    rw [hclass] at hsorted
    refine ⟨first, rest, rfl, ?_, (List.pairwise_cons.mp hsorted).1⟩
    rw [← hclass]
    exact filter_same hsame hxfirst

theorem pair_sublist {items : List α} (hnodup : items.Nodup) {x y : α} (hx : x ∈ items)
    (hy : y ∈ items) (hxy : items.idxOf x < items.idxOf y) : [x, y].Sublist items :=
  (sublist_iff_pairwise hnodup).mpr ⟨by simp [hx, hy], by simp [hxy]⟩

theorem either_of_pairwise {γ : Type*} {R : γ → γ → Prop} {l : List γ} (hl : l.Pairwise R)
    {a b : γ} (ha : a ∈ l) (hb : b ∈ l) (hne : a ≠ b) : R a b ∨ R b a := by
  have : Std.Symm fun a b => R a b ∨ R b a := ⟨fun _ _ => Or.symm⟩
  have hsymm : l.Pairwise fun a b => R a b ∨ R b a := hl.imp fun h => .inl h
  exact hsymm.forall ha hb hne

variable {items : List α}

/-- A class that falls apart around the head of another puts its end before that head. -/
theorem reaches_of_sublist (hsame : Equivalence same) (hnodup : items.Nodup)
    (hheads : ((classes same items).flatMap (leading keep)).Sublist items) {p x q : α}
    (hpxq : [p, x, q].Sublist items) (hpq : same p q)
    (hapart : keep (items.filter fun y => decide (same p y)) = false) :
    ∃ y, [y, x].Sublist items ∧ same y x := by
  by_contra hnone
  have hmem : ∀ z ∈ [p, x, q], z ∈ items := fun z hz => hpxq.subset hz
  have hp := hmem p (by simp)
  have hx := hmem x (by simp)
  have hq := hmem q (by simp)
  obtain ⟨-, horder⟩ := (sublist_iff_pairwise hnodup).mp hpxq
  simp only [List.pairwise_cons, List.mem_cons, List.not_mem_nil, or_false, forall_eq_or_imp,
    forall_eq] at horder
  obtain ⟨⟨hpx, -⟩, hxq, -⟩ := horder
  -- `x` leads its class.
  have hclassx := (mem_classes_iff hsame).mpr ⟨x, hx, rfl⟩
  obtain ⟨first, rest, hcons, hfilter, hfirst⟩ := class_cons hsame hnodup hclassx
  have hxin : x ∈ first :: rest := by
    rw [← hcons]
    exact List.mem_filter.mpr ⟨hx, decide_eq_true (hsame.refl x)⟩
  obtain rfl : x = first := by
    rcases List.mem_cons.mp hxin with heq | hlater
    · exact heq
    · have hfirstin : first ∈ items.filter fun y => decide (same x y) := by
        rw [hcons]
        exact List.mem_cons_self
      obtain ⟨hfirstmem, hsamefirst⟩ := List.mem_filter.mp hfirstin
      refine absurd ⟨first, ?_, hsame.symm (of_decide_eq_true hsamefirst)⟩ hnone
      exact pair_sublist hnodup hfirstmem hx (hfirst x hlater)
  have hclassp := (mem_classes_iff hsame).mpr ⟨p, hp, rfl⟩
  have hpin : p ∈ items.filter fun y => decide (same p y) :=
    List.mem_filter.mpr ⟨hp, decide_eq_true (hsame.refl p)⟩
  have hxlead : x ∈ leading keep (items.filter fun y => decide (same x y)) := by
    rw [hcons, leading]
    split
    · exact List.mem_cons_self
    · exact List.mem_cons_self
  have hqlead : q ∈ leading keep (items.filter fun y => decide (same p y)) := by
    rw [leading, hapart, if_neg Bool.false_ne_true]
    exact List.mem_filter.mpr ⟨hq, decide_eq_true hpq⟩
  have hne : (items.filter fun y => decide (same x y)) ≠
      items.filter fun y => decide (same p y) := by
    intro heq
    rw [← heq, hcons] at hpin
    rcases List.mem_cons.mp hpin with rfl | hlater
    · exact absurd hpx (lt_irrefl _)
    · exact absurd hpx (hfirst p hlater).asymm
  have hboth := (@classes_pairwise α same _ _ _ (pairwise_idxOf hnodup)).and
    (List.pairwise_flatMap.mp ((pairwise_idxOf hnodup).sublist hheads)).2
  rcases either_of_pairwise hboth hclassx hclassp hne with ⟨hhead, -⟩ | ⟨-, hlead⟩
  · have hxhead : x ∈ (items.filter fun y => decide (same x y)).head? := by
      rw [hcons]
      rfl
    exact absurd hpx (hhead x hxhead p hpin).asymm
  · exact absurd hxq (hlead q hqlead x hxlead).asymm

theorem sublist_of_reaches (hsame : Equivalence same) (hnodup : items.Nodup)
    (hreach : ∀ p x q, [p, x, q].Sublist items → same p q →
      keep (items.filter fun y => decide (same p y)) = false →
        ∃ y, [y, x].Sublist items ∧ same y x) :
    ((classes same items).flatMap (leading keep)).Sublist items := by
  have hsub : ∀ {members}, members ∈ classes same items → members.Sublist items := by
    intro members hmembers
    obtain ⟨x, -, rfl⟩ := (mem_classes_iff hsame).mp hmembers
    exact List.filter_sublist
  refine (sublist_iff_pairwise hnodup).mpr ⟨fun u hu => ?_, List.pairwise_flatMap.mpr
    ⟨fun c hc => ?_, ?_⟩⟩
  · obtain ⟨c, hc, huc⟩ := List.mem_flatMap.mp hu
    exact (hsub hc).subset ((leading_sublist c).subset huc)
  · exact (pairwise_idxOf hnodup).sublist ((leading_sublist c).trans (hsub hc))
  · refine (classes_pairwise (pairwise_idxOf hnodup)).imp_of_mem ?_
    intro c d hc hd hhead u hu v hv
    obtain ⟨first, rest, rfl, hcfilter, hfirst⟩ := class_cons hsame hnodup hc
    obtain ⟨first', rest', rfl, hdfilter, hfirst'⟩ := class_cons hsame hnodup hd
    have hle : items.idxOf first' ≤ items.idxOf v := by
      rcases List.mem_cons.mp ((leading_sublist _).subset hv) with rfl | hlater
      · exact le_rfl
      · exact (hfirst' v hlater).le
    refine lt_of_lt_of_le ?_ hle
    have hheads : items.idxOf first < items.idxOf first' :=
      hhead first rfl first' List.mem_cons_self
    rcases List.mem_cons.mp ((leading_sublist _).subset hu) with rfl | hlater
    · exact hheads
    by_contra hnot
    have hunkept : keep (first :: rest) = false := by
      by_contra hkeep
      rw [leading, if_pos (by simpa using hkeep), List.take_one] at hu
      obtain rfl : u = first := by simpa using hu
      exact absurd (hfirst u hlater) (lt_irrefl _)
    have huin : u ∈ items.filter fun y => decide (same first y) := by
      rw [← hcfilter]
      exact List.mem_cons_of_mem _ hlater
    obtain ⟨humem, husame⟩ := List.mem_filter.mp huin
    have husame := of_decide_eq_true husame
    have hfirst'mem := (hsub hd).subset List.mem_cons_self
    have hne : first' ≠ u := by
      rintro rfl
      have hsamelist := hcfilter.trans ((filter_same hsame husame).trans hdfilter.symm)
      rw [(List.cons.inj hsamelist).1] at hheads
      exact absurd hheads (lt_irrefl _)
    have hbetween : items.idxOf first' < items.idxOf u :=
      lt_of_le_of_ne (not_lt.mp hnot) fun heq => hne ((List.idxOf_inj hfirst'mem).mp heq)
    have hsublist : [first, first', u].Sublist items := by
      refine (sublist_iff_pairwise hnodup).mpr ⟨?_, ?_⟩
      · simp [(hsub hc).subset List.mem_cons_self, hfirst'mem, humem]
      · simp [hheads, hbetween, hheads.trans hbetween]
    rw [hcfilter] at hunkept
    obtain ⟨y, hy, hysame⟩ := hreach first first' u hsublist husame hunkept
    have hyd : y ∈ first' :: rest' := by
      rw [hdfilter]
      exact List.mem_filter.mpr ⟨hy.subset List.mem_cons_self, decide_eq_true (hsame.symm hysame)⟩
    have hybefore : items.idxOf y < items.idxOf first' := by
      have hpair := ((sublist_iff_pairwise hnodup).mp hy).2
      simpa using hpair
    rcases List.mem_cons.mp hyd with rfl | hylater
    · exact absurd hybefore (lt_irrefl _)
    · exact absurd hybefore (hfirst' y hylater).asymm

/-- The heads of the pieces keep the order of the items exactly when no class that
falls apart reaches around the first member of another. -/
theorem heads_sublist_iff (hsame : Equivalence same) (hnodup : items.Nodup) :
    ((bounded same keep items).filterMap List.head?).Sublist items ↔
      ∀ p x q, [p, x, q].Sublist items → same p q →
        keep (items.filter fun y => decide (same p y)) = false →
          ∃ y, [y, x].Sublist items ∧ same y x := by
  rw [filterMap_head?_bounded]
  constructor
  · intro hheads p x q hpxq hpq hapart
    exact reaches_of_sublist hsame hnodup hheads hpxq hpq hapart
  · exact sublist_of_reaches hsame hnodup

end Order

end TinySweeper.Classes
