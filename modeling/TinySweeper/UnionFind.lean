import Mathlib.Data.List.Sort
import Mathlib.Data.Finset.Card
import Mathlib.Logic.Relation
import Mathlib.Tactic

/-!
# Union-find without ranks

A forest as parent pointers, compressed on every search. `Forest` gives every
element its root and its depth; the depth bounds the fuel a search needs, and
the roots after a list of unions identify exactly what the unions connect.
-/

namespace TinySweeper.UnionFind

/-- A root is its own parent. -/
def parentOf (parents : List ℕ) (x : ℕ) : ℕ := parents[x]?.getD x

/-- The root of an element; everything on the way is pointed at it. -/
def find : ℕ → List ℕ → ℕ → List ℕ × ℕ
  | 0, parents, x => (parents, x)
  | fuel + 1, parents, x =>
    if parentOf parents x = x then (parents, x)
    else
      let found := find fuel parents (parentOf parents x)
      (found.1.set x found.2, found.2)

def union (parents : List ℕ) (a b : ℕ) : List ℕ :=
  let left := find parents.length parents a
  let right := find parents.length left.1 b
  if left.2 = right.2 then right.1 else right.1.set left.2 right.2

/-- The elements joined pair by pair. -/
def unionAll (parents : List ℕ) (pairs : List (ℕ × ℕ)) : List ℕ :=
  pairs.foldl (fun parents pair => union parents pair.1 pair.2) parents

theorem parentOf_set {parents : List ℕ} {x : ℕ} (hx : x < parents.length) (v y : ℕ) :
    parentOf (parents.set x v) y = if y = x then v else parentOf parents y := by
  unfold parentOf
  rw [List.getElem?_set]
  by_cases hxy : x = y
  · subst hxy
    simp [hx]
  · simp [hxy, Ne.symm hxy]

/-- What the pointers mean: each element has a root, and every step comes closer to it. -/
structure Forest (parents : List ℕ) (root depth : ℕ → ℕ) : Prop where
  lt : ∀ x < parents.length, root x < parents.length
  step : ∀ x, root (parentOf parents x) = root x
  fixed : ∀ x, parentOf parents (root x) = root x
  self : ∀ x, parentOf parents x = x → root x = x
  zero : ∀ x, root x = x → depth x = 0
  descends : ∀ x, parentOf parents x ≠ x → depth (parentOf parents x) < depth x
  shallow : ∀ x, depth x ≤ ((Finset.range parents.length).filter fun y => root y ≠ y).card

namespace Forest

variable {parents : List ℕ} {root depth : ℕ → ℕ}

theorem init (n : ℕ) : Forest (List.range n) id fun _ => 0 where
  lt _ hx := hx
  step x := by
    by_cases hx : x < n <;> simp [parentOf, hx]
  fixed x := by
    by_cases hx : x < n <;> simp [parentOf, hx]
  self _ _ := rfl
  zero _ _ := rfl
  descends x hx := by
    by_cases hlt : x < n <;> simp [parentOf, hlt] at hx
  shallow _ := Nat.zero_le _

theorem parentOf_eq_self_iff (h : Forest parents root depth) (x : ℕ) :
    parentOf parents x = x ↔ root x = x := by
  constructor
  · exact h.self x
  · intro hroot
    have hfixed := h.fixed x
    rwa [hroot] at hfixed

theorem root_root (h : Forest parents root depth) (x : ℕ) : root (root x) = root x :=
  h.self _ (h.fixed x)

theorem depth_le (h : Forest parents root depth) (x : ℕ) : depth x ≤ parents.length := by
  refine (h.shallow x).trans ?_
  refine (Finset.card_filter_le _ _).trans ?_
  rw [Finset.card_range]

/-- Pointing an element at its root changes no root. -/
theorem compress (h : Forest parents root depth) {x : ℕ} (hx : x < parents.length)
    (hbelow : root x ≠ x) : Forest (parents.set x (root x)) root depth where
  lt y hy := by
    rw [List.length_set] at hy ⊢
    exact h.lt y hy
  step y := by
    rw [parentOf_set hx]
    split
    case isTrue hy => rw [hy, h.root_root]
    case isFalse => exact h.step y
  fixed y := by
    rw [parentOf_set hx]
    split
    case isTrue hy =>
      have hroot := h.root_root y
      rw [hy] at hroot
      exact absurd hroot hbelow
    case isFalse => exact h.fixed y
  self y hy := by
    rw [parentOf_set hx] at hy
    split at hy
    case isTrue hyx => exact absurd (hyx ▸ hy) hbelow
    case isFalse => exact h.self y hy
  zero := h.zero
  descends y hy := by
    rw [parentOf_set hx] at hy ⊢
    split at hy
    case isTrue hyx =>
      subst hyx
      rw [if_pos rfl, h.zero _ (h.root_root y)]
      have hstep := h.descends y fun hself => hbelow (h.self y hself)
      omega
    case isFalse hyx =>
      rw [if_neg hyx]
      exact h.descends y hy
  shallow y := by
    rw [List.length_set]
    exact h.shallow y

/-- With fuel for the depth, a search finds the root and changes none. -/
theorem find_spec (h : Forest parents root depth) {fuel x : ℕ} (hx : x < parents.length)
    (hfuel : depth x ≤ fuel) :
    (find fuel parents x).2 = root x ∧ Forest (find fuel parents x).1 root depth ∧
      (find fuel parents x).1.length = parents.length := by
  induction fuel generalizing x with
  | zero =>
    have hself : parentOf parents x = x := by
      by_contra hne
      have hdescends := h.descends x hne
      omega
    exact ⟨(h.self x hself).symm, h, rfl⟩
  | succ fuel ih =>
    by_cases hself : parentOf parents x = x
    · simp only [find, hself, if_true]
      exact ⟨(h.self x hself).symm, h, trivial⟩
    · have hdescends := h.descends x hself
      have hparent : parentOf parents x < parents.length := by
        by_contra hout
        have hback : parentOf parents (parentOf parents x) = parentOf parents x := by
          rw [parentOf, List.getElem?_eq_none (not_lt.mp hout)]
          rfl
        have hroot := h.self _ hback
        rw [h.step] at hroot
        exact hout (hroot ▸ h.lt x hx)
      obtain ⟨hfound, hforest, hlength⟩ := ih hparent (by omega)
      rw [h.step] at hfound
      have hbelow : root x ≠ x := fun hroot => hself ((h.parentOf_eq_self_iff x).mpr hroot)
      simp only [find, hself, if_false, hfound, List.length_set]
      exact ⟨trivial, hforest.compress (hlength.symm ▸ hx) hbelow, hlength⟩

/-- Hanging one root below another. -/
theorem link (h : Forest parents root depth) {a b : ℕ} (ha : a < parents.length)
    (hb : b < parents.length) (hroota : root a = a) (hrootb : root b = b) (hne : a ≠ b) :
    Forest (parents.set a b) (fun y => if root y = a then b else root y)
      (fun y => if root y = a then depth y + 1 else depth y) where
  lt y hy := by
    rw [List.length_set] at hy ⊢
    split
    · exact hb
    · exact h.lt y hy
  step y := by
    rw [parentOf_set ha]
    split
    case isTrue hy =>
      subst hy
      rw [hrootb, if_neg (Ne.symm hne), if_pos hroota]
    case isFalse => rw [h.step]
  fixed y := by
    split
    case isTrue =>
      rw [parentOf_set ha, if_neg (Ne.symm hne)]
      exact (h.parentOf_eq_self_iff b).mpr hrootb
    case isFalse hy =>
      rw [parentOf_set ha, if_neg hy]
      exact h.fixed y
  self y hy := by
    rw [parentOf_set ha] at hy
    split at hy
    case isTrue hya => exact absurd (hya ▸ hy).symm hne
    case isFalse hya =>
      have hroot := h.self y hy
      rw [hroot, if_neg hya]
  zero y hy := by
    split at hy
    case isTrue hya =>
      subst hy
      exact absurd (hrootb.symm.trans hya) (Ne.symm hne)
    case isFalse hya =>
      rw [if_neg hya]
      exact h.zero y hy
  descends y hy := by
    rw [parentOf_set ha] at hy ⊢
    split at hy
    case isTrue hya =>
      subst hya
      rw [if_pos rfl, hrootb, if_neg (Ne.symm hne), if_pos hroota, h.zero b hrootb]
      exact Nat.succ_pos _
    case isFalse hya =>
      have hdescends := h.descends y hy
      rw [if_neg hya, h.step]
      split <;> omega
  shallow y := by
    have hmore : (Finset.range parents.length).filter
          (fun y => (if root y = a then b else root y) ≠ y) =
        insert a ((Finset.range parents.length).filter fun y => root y ≠ y) := by
      ext z
      simp only [Finset.mem_filter, Finset.mem_range, Finset.mem_insert]
      by_cases hza : z = a
      · subst hza
        simp [ha, hroota, Ne.symm hne]
      · by_cases hzroot : root z = a
        · have hzb : b ≠ z := by
            rintro rfl
            exact hne (hzroot.symm.trans hrootb)
          simp [hzroot, hza, hzb, Ne.symm hza]
        · simp [hzroot, hza]
    have hfresh : a ∉ (Finset.range parents.length).filter fun y => root y ≠ y := by
      simp [hroota]
    have hold := h.shallow y
    rw [List.length_set, hmore, Finset.card_insert_of_notMem hfresh]
    split <;> omega

/-- A union gives the tree of `a` the root of `b`. -/
theorem union_spec (h : Forest parents root depth) {a b : ℕ} (ha : a < parents.length)
    (hb : b < parents.length) :
    (union parents a b).length = parents.length ∧ ∃ root' depth',
      Forest (union parents a b) root' depth' ∧
        ∀ y, root' y = if root y = root a then root b else root y := by
  obtain ⟨hleft, hforest, hlength⟩ := h.find_spec ha (h.depth_le a)
  obtain ⟨hright, hforest', hlength'⟩ :=
    @find_spec _ _ _ hforest parents.length b (hlength.symm ▸ hb) (h.depth_le b)
  simp only [union, hleft, hright]
  by_cases hsame : root a = root b
  · rw [if_pos hsame]
    refine ⟨hlength'.trans hlength, root, depth, hforest', fun y => ?_⟩
    split
    case isTrue hy => exact hy.trans hsame
    case isFalse => rfl
  · rw [if_neg hsame]
    have hlen := hlength'.trans hlength
    refine ⟨(List.length_set ..).trans hlen, _, _, hforest'.link (hlen.symm ▸ h.lt a ha)
      (hlen.symm ▸ h.lt b hb) (h.root_root a) (h.root_root b) hsame, fun y => rfl⟩

end Forest

/-- The equivalence that a list of pairs generates. -/
def Connected (pairs : List (ℕ × ℕ)) : ℕ → ℕ → Prop :=
  Relation.EqvGen fun x y => (x, y) ∈ pairs

theorem Connected.mono {pairs pairs' : List (ℕ × ℕ)} (hsub : pairs ⊆ pairs') {x y : ℕ}
    (h : Connected pairs x y) : Connected pairs' x y :=
  Relation.EqvGen.mono (fun _ _ hmem => hsub hmem) x y h

/-- The roots tell exactly what is connected. -/
def Partitions (root : ℕ → ℕ) (pairs : List (ℕ × ℕ)) : Prop :=
  ∀ x y, root x = root y ↔ Connected pairs x y

theorem Partitions.union {root root' : ℕ → ℕ} {pairs : List (ℕ × ℕ)} {a b : ℕ}
    (h : Partitions root pairs)
    (hroot : ∀ y, root' y = if root y = root a then root b else root y) :
    Partitions root' (pairs ++ [(a, b)]) := by
  have hjoin : Connected (pairs ++ [(a, b)]) a b :=
    .rel a b (List.mem_append_right _ List.mem_cons_self)
  have hmono : ∀ {x y}, Connected pairs x y → Connected (pairs ++ [(a, b)]) x y := fun hxy =>
    hxy.mono (List.subset_append_left _ _)
  intro x y
  constructor
  · intro hsame
    -- Each element is connected to a canonical one that the new root determines.
    have hnear : ∀ z, ∃ w, root w = root' z ∧ Connected (pairs ++ [(a, b)]) z w := by
      intro z
      rw [hroot z]
      by_cases hza : root z = root a
      · rw [if_pos hza]
        exact ⟨b, rfl, .trans _ _ _ (hmono ((h z a).mp hza)) hjoin⟩
      · rw [if_neg hza]
        exact ⟨z, rfl, .refl z⟩
    obtain ⟨u, hu, hxu⟩ := hnear x
    obtain ⟨v, hv, hyv⟩ := hnear y
    have huv : Connected pairs u v := (h u v).mp (hu.trans (hsame.trans hv.symm))
    exact .trans _ _ _ hxu (.trans _ _ _ (hmono huv) (.symm _ _ hyv))
  · intro hconnected
    induction hconnected with
    | rel x y hmem =>
      rcases List.mem_append.mp hmem with hold | hnew
      · have hxy := (h x y).mpr (.rel x y hold)
        rw [hroot, hroot, hxy]
      · obtain ⟨rfl, rfl⟩ := Prod.mk.inj (List.mem_singleton.mp hnew)
        rw [hroot, hroot, if_pos rfl]
        split <;> rfl
    | refl => rfl
    | symm _ _ _ ih => exact ih.symm
    | trans _ _ _ _ _ ih₁ ih₂ => exact ih₁.trans ih₂

/-- After all unions of pairs of elements, the roots partition by connection. -/
theorem unionAll_spec {n : ℕ} (pairs : List (ℕ × ℕ)) (hpairs : ∀ p ∈ pairs, p.1 < n ∧ p.2 < n) :
    (unionAll (List.range n) pairs).length = n ∧ ∃ root depth,
      Forest (unionAll (List.range n) pairs) root depth ∧ Partitions root pairs := by
  induction pairs using List.reverseRecOn with
  | nil =>
    refine ⟨List.length_range, id, fun _ => 0, Forest.init n, fun x y => ⟨?_, ?_⟩⟩
    · rintro rfl
      exact .refl _
    · intro h
      induction h with
      | rel _ _ hmem => exact absurd hmem List.not_mem_nil
      | refl => rfl
      | symm _ _ _ ih => exact ih.symm
      | trans _ _ _ _ _ ih₁ ih₂ => exact ih₁.trans ih₂
  | append_singleton pairs last ih =>
    obtain ⟨hlength, root, depth, hforest, hpartition⟩ :=
      ih fun p hp => hpairs p (List.mem_append_left _ hp)
    have hlast := hpairs last (List.mem_append_right _ List.mem_cons_self)
    obtain ⟨hlength', root', depth', hforest', hroot⟩ := hforest.union_spec
      (hlength.symm ▸ hlast.1) (hlength.symm ▸ hlast.2)
    rw [unionAll, List.foldl_append]
    exact ⟨hlength'.trans hlength, root', depth', hforest', hpartition.union hroot⟩

end TinySweeper.UnionFind
