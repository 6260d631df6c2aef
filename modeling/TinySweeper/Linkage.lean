import Mathlib.Data.List.Perm.Basic
import Mathlib.Data.List.Flatten
import Mathlib.Tactic

/-!
# Clustering by complete linkage

Elements arrive in order. An element joins the first cluster all of whose
members relate to it and opens a cluster of its own otherwise, so clusters are
never merged and partition what arrived.
-/

namespace TinySweeper.Linkage

variable {α : Type*} (related : α → α → Bool)

/-- Put an element in the first cluster it is related to throughout. -/
def place (x : α) : List (List α) → List (List α)
  | [] => [[x]]
  | cluster :: clusters =>
    if cluster.all (related · x) then (cluster ++ [x]) :: clusters
    else cluster :: place x clusters

def clusters (xs : List α) : List (List α) := xs.foldl (fun placed x => place related x placed) []

theorem flatten_place (x : α) (placed : List (List α)) :
    (place related x placed).flatten.Perm (x :: placed.flatten) := by
  induction placed with
  | nil => exact List.Perm.refl _
  | cons cluster placed ih =>
    unfold place
    split
    · simp
    · exact (ih.append_left cluster).trans List.perm_middle

theorem flatten_foldl_place (xs : List α) (placed : List (List α)) :
    (xs.foldl (fun placed x => place related x placed) placed).flatten.Perm
      (placed.flatten ++ xs) := by
  induction xs generalizing placed with
  | nil => simp
  | cons x xs ih =>
    apply (ih (place related x placed)).trans
    apply ((flatten_place related x placed).append_right xs).trans
    exact List.perm_middle.symm

/-- Every element is in one cluster. -/
theorem flatten_clusters (xs : List α) : (clusters related xs).flatten.Perm xs :=
  flatten_foldl_place related xs []

theorem nodup_flatten_clusters {xs : List α} (hxs : xs.Nodup) :
    (clusters related xs).flatten.Nodup :=
  (flatten_clusters related xs).nodup_iff.mpr hxs

theorem pairwise_place (x : α) {placed : List (List α)}
    (hplaced : ∀ cluster ∈ placed, cluster.Pairwise fun a b => related a b = true) :
    ∀ cluster ∈ place related x placed, cluster.Pairwise fun a b => related a b = true := by
  induction placed with
  | nil =>
    intro cluster hcluster
    rw [List.mem_singleton.mp hcluster]
    exact List.pairwise_singleton _ x
  | cons first placed ih =>
    obtain ⟨hfirst, hrest⟩ := List.forall_mem_cons.mp hplaced
    unfold place
    split
    case isTrue hall =>
      refine List.forall_mem_cons.mpr ⟨?_, hrest⟩
      refine List.pairwise_append.mpr ⟨hfirst, List.pairwise_singleton _ x, ?_⟩
      intro a ha b hb
      rw [List.mem_singleton.mp hb]
      exact List.all_eq_true.mp hall a ha
    case isFalse => exact List.forall_mem_cons.mpr ⟨hfirst, ih hrest⟩

/-- Within a cluster every element relates to every later one. -/
theorem pairwise_clusters (xs : List α) :
    ∀ cluster ∈ clusters related xs, cluster.Pairwise fun a b => related a b = true := by
  suffices h : ∀ placed : List (List α),
      (∀ cluster ∈ placed, cluster.Pairwise fun a b => related a b = true) →
      ∀ cluster ∈ xs.foldl (fun placed x => place related x placed) placed,
        cluster.Pairwise fun a b => related a b = true from
    h [] fun cluster hcluster => absurd hcluster List.not_mem_nil
  induction xs with
  | nil => exact fun placed hplaced => hplaced
  | cons x xs ih => exact fun placed hplaced => ih _ (pairwise_place related x hplaced)

theorem sublist_place (x : α) {xs : List α} {placed : List (List α)}
    (hplaced : ∀ cluster ∈ placed, cluster.Sublist xs) :
    ∀ cluster ∈ place related x placed, cluster.Sublist (xs ++ [x]) := by
  induction placed with
  | nil =>
    intro cluster hcluster
    rw [List.mem_singleton.mp hcluster]
    exact List.sublist_append_right xs [x]
  | cons first placed ih =>
    obtain ⟨hfirst, hrest⟩ := List.forall_mem_cons.mp hplaced
    have hwider : ∀ cluster : List α, cluster.Sublist xs → cluster.Sublist (xs ++ [x]) :=
      fun cluster hsub => hsub.trans (List.sublist_append_left xs [x])
    unfold place
    split
    · exact List.forall_mem_cons.mpr ⟨hfirst.append (List.Sublist.refl [x]),
        fun cluster hcluster => hwider cluster (hrest cluster hcluster)⟩
    · exact List.forall_mem_cons.mpr ⟨hwider first hfirst, ih hrest⟩

/-- A cluster keeps the order of arrival. -/
theorem sublist_of_mem_clusters (xs : List α) :
    ∀ cluster ∈ clusters related xs, cluster.Sublist xs := by
  suffices h : ∀ (seen : List α) (placed : List (List α)),
      (∀ cluster ∈ placed, cluster.Sublist seen) →
      ∀ cluster ∈ xs.foldl (fun placed x => place related x placed) placed,
        cluster.Sublist (seen ++ xs) from
    h [] [] fun cluster hcluster => absurd hcluster List.not_mem_nil
  induction xs with
  | nil =>
    intro seen placed hplaced
    rw [List.append_nil]
    exact hplaced
  | cons x xs ih =>
    intro seen placed hplaced
    have hstep := ih (seen ++ [x]) _ (sublist_place related x hplaced)
    rwa [List.append_assoc] at hstep

theorem ne_nil_of_mem_place (x : α) {placed : List (List α)} (hplaced : [] ∉ placed) :
    [] ∉ place related x placed := by
  induction placed with
  | nil => simp [place]
  | cons first placed ih =>
    unfold place
    split
    · simp_all
    · simp_all

theorem nil_notMem_clusters (xs : List α) : [] ∉ clusters related xs := by
  suffices h : ∀ placed : List (List α), [] ∉ placed →
      [] ∉ xs.foldl (fun placed x => place related x placed) placed from h [] List.not_mem_nil
  induction xs with
  | nil => exact fun placed hplaced => hplaced
  | cons x xs ih => exact fun placed hplaced => ih _ (ne_nil_of_mem_place related x hplaced)

section Largest

variable (compare : α → α → Ordering)

/-- A largest element, the last of equals. -/
def maxBy : List α → Option α
  | [] => none
  | x :: xs => some (xs.foldl (fun best y => if compare best y = .gt then best else y) x)

theorem foldl_max_mem (xs : List α) (x : α) :
    xs.foldl (fun best y => if compare best y = .gt then best else y) x ∈ x :: xs := by
  induction xs generalizing x with
  | nil => exact List.mem_singleton_self x
  | cons y xs ih =>
    have hmem := ih (if compare x y = .gt then x else y)
    rcases List.mem_cons.mp hmem with hbest | hrest
    · simp only [List.foldl_cons, hbest]
      split <;> simp
    · exact List.mem_cons_of_mem x (List.mem_cons_of_mem y hrest)

theorem mem_of_maxBy {xs : List α} {x : α} (hmax : maxBy compare xs = some x) : x ∈ xs := by
  cases xs with
  | nil => cases hmax
  | cons y ys =>
    cases hmax
    exact foldl_max_mem compare ys y

theorem maxBy_isSome {xs : List α} (hne : xs ≠ []) : ∃ x ∈ xs, maxBy compare xs = some x := by
  cases xs with
  | nil => exact absurd rfl hne
  | cons y ys => exact ⟨_, foldl_max_mem compare ys y, rfl⟩

/-- No element of the list exceeds `x`, and those after it are smaller. -/
def Leads (xs : List α) (x : α) : Prop :=
  ∃ before after, xs = before ++ x :: after ∧ (∀ y ∈ before, compare y x ≠ .gt) ∧
    ∀ y ∈ after, compare x y = .gt

variable {compare}

theorem Leads.le [Std.TransCmp compare] {xs : List α} {x y : α} (h : Leads compare xs x)
    (hy : y ∈ xs) : compare y x ≠ .gt := by
  obtain ⟨before, after, rfl, hbefore, hafter⟩ := h
  rcases List.mem_append.mp hy with hy | hy
  · exact hbefore y hy
  rcases List.mem_cons.mp hy with rfl | hy
  · have hself : compare y y = .eq := Std.ReflCmp.compare_self
    rw [hself]
    decide
  · have hswap : compare y x = (compare x y).swap := Std.OrientedCmp.eq_swap
    rw [hswap, hafter y hy]
    decide

theorem Leads.concat [Std.TransCmp compare] {xs : List α} {x : α} (h : Leads compare xs x) (y : α) :
    Leads compare (xs ++ [y]) (if compare x y = .gt then x else y) := by
  by_cases hgt : compare x y = .gt
  · rw [if_pos hgt]
    obtain ⟨before, after, rfl, hbefore, hafter⟩ := h
    refine ⟨before, after ++ [y], by simp, hbefore, ?_⟩
    intro z hz
    rcases List.mem_append.mp hz with hz | hz
    · exact hafter z hz
    · exact List.mem_singleton.mp hz ▸ hgt
  · rw [if_neg hgt]
    refine ⟨xs, [], rfl, fun z hz => ?_, fun z hz => absurd hz List.not_mem_nil⟩
    have hzx := Ordering.isLE_iff_ne_gt.mpr (h.le hz)
    exact Ordering.isLE_iff_ne_gt.mp (Std.TransCmp.isLE_trans hzx (Ordering.isLE_iff_ne_gt.mpr hgt))

/-- The largest element found leads the list. -/
theorem maxBy_leads [Std.TransCmp compare] {xs : List α} {x : α}
    (h : maxBy compare xs = some x) : Leads compare xs x := by
  cases xs with
  | nil => cases h
  | cons first xs =>
    obtain rfl := Option.some.inj h
    suffices hfold : ∀ seen best, Leads compare seen best → Leads compare (seen ++ xs)
        (xs.foldl (fun best y => if compare best y = .gt then best else y) best) from
      hfold [first] first ⟨[], [], rfl, by simp, by simp⟩
    clear h
    induction xs with
    | nil => exact fun seen best hbest => (List.append_nil seen).symm ▸ hbest
    | cons y ys ih =>
      intro seen best hbest
      have hstep := ih _ _ (hbest.concat y)
      rwa [List.append_assoc] at hstep

theorem maxBy_congr {compare' : α → α → Ordering} {xs : List α}
    (hsame : ∀ x ∈ xs, ∀ y ∈ xs, compare x y = compare' x y) :
    maxBy compare xs = maxBy compare' xs := by
  cases xs with
  | nil => rfl
  | cons first xs =>
    suffices hfold : ∀ best, best ∈ first :: xs → ∀ ys, ys ⊆ first :: xs →
        ys.foldl (fun best y => if compare best y = .gt then best else y) best =
          ys.foldl (fun best y => if compare' best y = .gt then best else y) best from
      congrArg some (hfold first List.mem_cons_self xs (List.subset_cons_self _ _))
    intro best hbest ys hys
    induction ys generalizing best with
    | nil => rfl
    | cons y ys ih =>
      have hy := hys List.mem_cons_self
      rw [List.foldl_cons, List.foldl_cons, hsame best hbest y hy]
      apply ih
      · split <;> assumption
      · exact fun z hz => hys (List.mem_cons_of_mem _ hz)

theorem Leads.congr {compare' : α → α → Ordering} {xs : List α} {x : α}
    (hsame : ∀ y ∈ xs, ∀ z ∈ xs, compare y z = compare' y z) (h : Leads compare xs x) :
    Leads compare' xs x := by
  obtain ⟨before, after, rfl, hbefore, hafter⟩ := h
  have hx : x ∈ before ++ x :: after := List.mem_append_right _ List.mem_cons_self
  refine ⟨before, after, rfl, fun y hy => ?_, fun y hy => ?_⟩
  · rw [← hsame y (List.mem_append_left _ hy) x hx]
    exact hbefore y hy
  · rw [← hsame x hx y (List.mem_append_right _ (List.mem_cons_of_mem _ hy))]
    exact hafter y hy

end Largest

section InPlace

variable {β : Type*}

/-- A change in place is not seen by what forgets it. -/
theorem map_modify {g : α → β} {f : α → α} (hf : ∀ x, g (f x) = g x) (xs : List α) (i : ℕ) :
    (xs.modify i f).map g = xs.map g := by
  apply List.ext_getElem?
  intro j
  simp only [List.getElem?_map, List.getElem?_modify]
  cases xs[j]? with
  | none => rfl
  | some x =>
    by_cases hij : i = j
    · simp [hij, hf]
    · simp [hij]

theorem map_foldl_eq {γ : Type*} {g : α → β} {step : α → γ → α} (hstep : ∀ x c, g (step x c) = g x)
    (cs : List γ) (x : α) : g (cs.foldl step x) = g x := by
  induction cs generalizing x with
  | nil => rfl
  | cons c cs ih => exact (ih (step x c)).trans (hstep x c)

/-- A change at every listed position, where repeating it changes nothing. -/
theorem getElem?_foldl_modify {f : α → α} (hf : ∀ x, f (f x) = f x) (is : List ℕ) (xs : List α)
    (j : ℕ) :
    (is.foldl (fun xs i => xs.modify i f) xs)[j]? =
      xs[j]?.map fun x => if j ∈ is then f x else x := by
  induction is generalizing xs with
  | nil => simp
  | cons i is ih =>
    simp only [List.foldl_cons, ih, List.getElem?_modify, List.mem_cons]
    cases xs[j]? with
    | none => rfl
    | some x =>
      by_cases hij : i = j
      · by_cases hmem : j ∈ is <;> simp [hij, hmem, hf]
      · simp [hij, Ne.symm hij]

/-- Changes one after the other at one position. -/
theorem getElem?_foldl_modify_at {γ : Type*} (f : γ → α → α) (i : ℕ) (cs : List γ) (xs : List α)
    (j : ℕ) :
    (cs.foldl (fun xs c => xs.modify i (f c)) xs)[j]? =
      xs[j]?.map fun x => if i = j then cs.foldl (fun x c => f c x) x else x := by
  induction cs generalizing xs with
  | nil => simp
  | cons c cs ih =>
    simp only [List.foldl_cons, ih, List.getElem?_modify]
    cases xs[j]? with
    | none => rfl
    | some x => by_cases hij : i = j <;> simp [hij]

end InPlace

end TinySweeper.Linkage
