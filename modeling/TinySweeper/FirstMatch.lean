import Mathlib.Tactic

/-!
# Edits at the first matching entry of a list

A record store kept as a list is edited where `find?` first succeeds. `Replaced`
and `Removed` describe the two edits by their surrounding lists, and the lemmas
below say what such an edit does to membership, projections, sums and counts.
-/

namespace TinySweeper.FirstMatch

variable {α β : Type*} {p : α → Bool} {l : List α} {f : α → α}

/-- Apply `f` to the first entry satisfying `p`. -/
def updateFirst (p : α → Bool) (f : α → α) : List α → List α
  | [] => []
  | a :: as => if p a then f a :: as else a :: updateFirst p f as

/-- `l'` is `l` with one occurrence of `a` replaced by `b`. -/
def Replaced (l l' : List α) (a b : α) : Prop :=
  ∃ l₁ l₂, l = l₁ ++ a :: l₂ ∧ l' = l₁ ++ b :: l₂

/-- `l'` is `l` with one occurrence of `a` taken out. -/
def Removed (l l' : List α) (a : α) : Prop :=
  ∃ l₁ l₂, l = l₁ ++ a :: l₂ ∧ l' = l₁ ++ l₂

theorem updateFirst_replaced {a : α} (f : α → α) (h : l.find? p = some a) :
    Replaced l (updateFirst p f l) a (f a) := by
  induction l with
  | nil => simp at h
  | cons b l ih =>
    rw [List.find?_cons] at h
    cases hb : p b with
    | true =>
      simp only [hb, Option.some.injEq] at h
      subst h
      exact ⟨[], l, rfl, by simp [updateFirst, hb]⟩
    | false =>
      simp only [hb] at h
      obtain ⟨l₁, l₂, hl, hl'⟩ := ih h
      exact ⟨b :: l₁, l₂, by simp [hl], by simp [updateFirst, hb, hl']⟩

theorem eraseP_removed {a : α} (h : l.find? p = some a) : Removed l (l.eraseP p) a := by
  induction l with
  | nil => simp at h
  | cons b l ih =>
    rw [List.find?_cons] at h
    cases hb : p b with
    | true =>
      simp only [hb, Option.some.injEq] at h
      subst h
      exact ⟨[], l, rfl, by simp [hb]⟩
    | false =>
      simp only [hb] at h
      obtain ⟨l₁, l₂, hl, hl'⟩ := ih h
      exact ⟨b :: l₁, l₂, by simp [hl], by simp [hb, hl']⟩

theorem updateFirst_of_find?_none (f : α → α) (h : l.find? p = none) : updateFirst p f l = l := by
  induction l with
  | nil => rfl
  | cons b l ih =>
    simp only [List.find?_eq_none, List.mem_cons, forall_eq_or_imp] at h
    have hl := ih (List.find?_eq_none.mpr h.2)
    simp [updateFirst, h.1, hl]

theorem mem_updateFirst {x : α} (h : x ∈ updateFirst p f l) :
    x ∈ l ∨ ∃ a ∈ l, p a = true ∧ x = f a := by
  induction l with
  | nil => exact .inl h
  | cons a l ih =>
    cases hp : p a with
    | true =>
      simp only [updateFirst, hp, if_true, List.mem_cons] at h
      rcases h with rfl | h
      · exact .inr ⟨a, List.mem_cons_self, hp, rfl⟩
      · exact .inl (List.mem_cons_of_mem _ h)
    | false =>
      simp only [updateFirst, hp, Bool.false_eq_true, if_false, List.mem_cons] at h
      rcases h with rfl | h
      · exact .inl List.mem_cons_self
      · rcases ih h with hold | ⟨b, hb, hpb, rfl⟩
        · exact .inl (List.mem_cons_of_mem _ hold)
        · exact .inr ⟨b, List.mem_cons_of_mem _ hb, hpb, rfl⟩

theorem find?_updateFirst_target (hf : ∀ a, p a = true → p (f a) = true) (l : List α) :
    (updateFirst p f l).find? p = (l.find? p).map f := by
  induction l with
  | nil => rfl
  | cons a l ih =>
    cases hp : p a with
    | true => simp [updateFirst, hp, hf]
    | false => simp [updateFirst, hp, ih]

theorem find?_updateFirst_self (hf : ∀ a, p (f a) = p a) (l : List α) :
    (updateFirst p f l).find? p = (l.find? p).map f :=
  find?_updateFirst_target (fun a hp => (hf a).trans hp) l

theorem find?_and {q : α → Bool} {a : α} (h : l.find? p = some a) (hq : q a = true) :
    l.find? (fun x => p x && q x) = some a := by
  induction l with
  | nil => simp at h
  | cons b l ih =>
    rw [List.find?_cons] at h ⊢
    cases hp : p b with
    | true =>
      simp only [hp, Option.some.injEq] at h
      subst h
      simp [hq]
    | false =>
      simp only [hp] at h
      simpa [hp] using ih h

theorem find?_of_find?_and {q : α → Bool} {a : α} (hq : ∀ x ∈ l, p x = true → q x = true)
    (h : l.find? (fun x => p x && q x) = some a) : l.find? p = some a := by
  rw [← h]
  apply List.find?_congr
  intro x hx
  cases hp : p x with
  | true => simp [hq x hx hp]
  | false => simp

theorem updateFirst_idem (hp : ∀ a, p (f a) = p a) (hf : ∀ a, f (f a) = f a) (l : List α) :
    updateFirst p f (updateFirst p f l) = updateFirst p f l := by
  induction l with
  | nil => rfl
  | cons a l ih => cases h : p a <;> simp [updateFirst, h, hp, hf, ih]

/-- A second edit of the same entry overrides the first. -/
theorem updateFirst_updateFirst (hf : ∀ a, p (f a) = p a) (g : α → α) (l : List α) :
    updateFirst p g (updateFirst p f l) = updateFirst p (fun a => g (f a)) l := by
  induction l with
  | nil => rfl
  | cons a l ih => cases h : p a <;> simp [updateFirst, h, hf, ih]

/-- An edit that `q` cannot see changes the entry found by `q` only if it is the edited one. -/
theorem find?_updateFirst_cases {q : α → Bool} (hf : ∀ a, q (f a) = q a) (l : List α) :
    (updateFirst p f l).find? q = l.find? q ∨
      ∃ a, l.find? q = some a ∧ l.find? p = some a ∧
        (updateFirst p f l).find? q = some (f a) := by
  induction l with
  | nil => exact .inl rfl
  | cons a l ih =>
    cases hp : p a with
    | true =>
      cases hq : q a with
      | true => exact .inr ⟨a, by simp [hq], by simp [hp], by simp [updateFirst, hp, hf, hq]⟩
      | false => exact .inl (by simp [updateFirst, hp, hf, hq])
    | false =>
      cases hq : q a with
      | true => exact .inl (by simp [updateFirst, hp, hq])
      | false => simpa [updateFirst, hp, hq] using ih

/-- An edit after which an entry no longer matches takes the first match out of a filter. -/
theorem filter_updateFirst_gone (hf : ∀ a, p (f a) = false) (l : List α) :
    (updateFirst p f l).filter p = (l.filter p).tail := by
  induction l with
  | nil => rfl
  | cons a l ih => cases h : p a <;> simp [updateFirst, h, hf, ih]

theorem length_updateFirst (p : α → Bool) (f : α → α) (l : List α) :
    (updateFirst p f l).length = l.length := by
  induction l with
  | nil => rfl
  | cons a l ih => cases h : p a <;> simp [updateFirst, h, ih]

/-- An edit of entries that `q` refuses before and after is invisible to `q`. -/
theorem find?_updateFirst_other {q : α → Bool}
    (hf : ∀ a, p a = true → q a = false ∧ q (f a) = false) (l : List α) :
    (updateFirst p f l).find? q = l.find? q := by
  induction l with
  | nil => rfl
  | cons a l ih =>
    cases hp : p a with
    | true => simp [updateFirst, hp, hf a hp]
    | false => simp [updateFirst, hp, List.find?_cons, ih]

/-- Three predicates of which every entry satisfies exactly one. -/
theorem countP_trichotomy {q r : α → Bool} (h : ∀ a, (p a).toNat + (q a).toNat + (r a).toNat = 1)
    (l : List α) : l.countP p + l.countP q + l.countP r = l.length := by
  induction l with
  | nil => rfl
  | cons a l ih =>
    have ha := h a
    have hone : ∀ b : Bool, (if b = true then 1 else 0) = b.toNat := by decide
    simp only [List.countP_cons, List.length_cons, hone]
    omega

theorem forall₂_updateFirst {R : α → α → Prop} (hrefl : ∀ a, R a a)
    (hf : ∀ a, p a = true → R a (f a)) (l : List α) : List.Forall₂ R l (updateFirst p f l) := by
  induction l with
  | nil => exact .nil
  | cons a l ih =>
    cases hp : p a with
    | true => simpa [updateFirst, hp] using ⟨hf a hp, fun x _ => hrefl x⟩
    | false => simpa [updateFirst, hp] using ⟨hrefl a, ih⟩

theorem forall₂_modify {R : α → α → Prop} (hrefl : ∀ a, R a a) (hf : ∀ a, R a (f a)) (l : List α)
    (i : ℕ) : List.Forall₂ R l (l.modify i f) := by
  induction l generalizing i with
  | nil => simp
  | cons a l ih =>
    cases i with
    | zero => simpa using ⟨hf a, fun x _ => hrefl x⟩
    | succ i => simpa using ⟨hrefl a, ih i⟩

theorem forall₂_map {R : α → α → Prop} (hf : ∀ a ∈ l, R a (f a)) : List.Forall₂ R l (l.map f) := by
  simpa [List.forall₂_map_right_iff, List.forall₂_same] using hf

theorem Forall₂.exists_left {R : α → β → Prop} {l' : List β} (h : List.Forall₂ R l l') {b : β}
    (hb : b ∈ l') : ∃ a ∈ l, R a b := by
  induction h with
  | nil => simp at hb
  | cons hab _ ih =>
    rcases List.mem_cons.mp hb with rfl | hb
    · exact ⟨_, List.mem_cons_self, hab⟩
    · obtain ⟨a, ha, hR⟩ := ih hb
      exact ⟨a, List.mem_cons_of_mem _ ha, hR⟩

theorem Forall₂.exists_right {R : α → β → Prop} {l' : List β} (h : List.Forall₂ R l l') {a : α}
    (ha : a ∈ l) : ∃ b ∈ l', R a b :=
  Forall₂.exists_left (R := fun b a => R a b) (List.Forall₂.flip h) ha

theorem Forall₂.map_eq {γ : Type*} {R : α → β → Prop} {f : α → γ} {g : β → γ} {l' : List β}
    (h : List.Forall₂ R l l') (hg : ∀ a b, R a b → g b = f a) : l'.map g = l.map f := by
  induction h with
  | nil => rfl
  | cons hab _ ih => simp [hg _ _ hab, ih]

theorem Forall₂.filter_map_eq {γ : Type*} {R : α → β → Prop} {q : β → Bool} {f : α → γ} {g : β → γ}
    {l' : List β} (h : List.Forall₂ R l l') (hp : ∀ a b, R a b → q b = p a)
    (hg : ∀ a b, R a b → g b = f a) : (l'.filter q).map g = (l.filter p).map f := by
  induction h with
  | nil => rfl
  | @cons a b _ _ hab _ ih =>
    rw [List.filter_cons, List.filter_cons, hp _ _ hab]
    cases p a <;> simp [hg _ _ hab, ih]

theorem Forall₂.trans {R : α → α → Prop} (htrans : ∀ a b c, R a b → R b c → R a c)
    {l₁ l₂ l₃ : List α} (h₁ : List.Forall₂ R l₁ l₂) (h₂ : List.Forall₂ R l₂ l₃) :
    List.Forall₂ R l₁ l₃ := by
  induction h₁ generalizing l₃ with
  | nil => simpa using h₂
  | cons hab _ ih =>
    cases h₂ with
    | cons hbc hrest => exact .cons (htrans _ _ _ hab hbc) (ih hrest)

/-- Keeping some entries and converting others accounts for each entry at most once. -/
theorem filter_filterMap_subperm {γ : Type*} {f : α → Option β} {g : α → γ} {k : β → γ}
    (h : ∀ a b, f a = some b → p a = false ∧ k b = g a) (l : List α) :
    ((l.filter p).map g ++ (l.filterMap f).map k).Subperm (l.map g) := by
  induction l with
  | nil => exact List.Subperm.refl _
  | cons a l ih =>
    cases hf : f a with
    | none =>
      rw [List.filterMap_cons_none hf]
      cases hp : p a with
      | true => simpa [hp] using (List.subperm_cons (g a)).mpr ih
      | false => simpa [hp] using ih.trans List.subperm_cons_self
    | some b =>
      obtain ⟨hp, hk⟩ := h a b hf
      rw [List.filterMap_cons_some hf]
      have hfront : ((l.filter p).map g ++ k b :: (l.filterMap f).map k).Perm
          (g a :: ((l.filter p).map g ++ (l.filterMap f).map k)) := hk ▸ List.perm_middle
      have hrest := hfront.subperm.trans ((List.subperm_cons (g a)).mpr ih)
      simpa [hp] using hrest

/-- In a duplicate-free flattened list a shared element identifies the entry. -/
theorem eq_of_mem_flatMap {g : α → List β} (h : (l.flatMap g).Nodup) {a b : α} (ha : a ∈ l)
    (hb : b ∈ l) {x : β} (hxa : x ∈ g a) (hxb : x ∈ g b) : a = b := by
  by_contra hne
  have hpairs := (List.nodup_flatMap.mp h).2
  have hsymm : Std.Symm (Function.onFun List.Disjoint g) := ⟨fun _ _ h => List.Disjoint.symm h⟩
  exact hpairs.forall ha hb hne hxa hxb

/-- With distinct keys a lookup by key finds the entry itself. -/
theorem find?_of_nodup_map {f : α → β} (h : (l.map f).Nodup) {a : α} (ha : a ∈ l)
    (hp : ∀ x ∈ l, p x = true ↔ f x = f a) : l.find? p = some a := by
  cases hfind : l.find? p with
  | none => exact absurd ((hp a ha).mpr rfl) (List.find?_eq_none.mp hfind a ha)
  | some b =>
    have hb := List.mem_of_find?_eq_some hfind
    have hsame := (hp b hb).mp (List.find?_some hfind)
    rw [List.inj_on_of_nodup_map h hb ha hsame]

/-- With distinct parts a lookup by one part finds the entry it belongs to. -/
theorem find?_of_nodup_flatMap {g : α → List β} (h : (l.flatMap g).Nodup) {a : α} (ha : a ∈ l)
    {x : β} (hx : x ∈ g a) (hp : ∀ b ∈ l, p b = true ↔ x ∈ g b) : l.find? p = some a := by
  cases hfind : l.find? p with
  | none => exact absurd ((hp a ha).mpr hx) (List.find?_eq_none.mp hfind a ha)
  | some b =>
    have hb := List.mem_of_find?_eq_some hfind
    have hxb := (hp b hb).mp (List.find?_some hfind)
    rw [eq_of_mem_flatMap h hb ha hxb hx]

namespace Replaced

variable {l l' : List α} {a b : α}

theorem mem_old (h : Replaced l l' a b) : a ∈ l := by
  obtain ⟨l₁, l₂, rfl, rfl⟩ := h
  simp

theorem mem_new (h : Replaced l l' a b) : b ∈ l' := by
  obtain ⟨l₁, l₂, rfl, rfl⟩ := h
  simp

/-- Every entry afterwards is the new one or stood there before. -/
theorem mem_cases (h : Replaced l l' a b) {x : α} (hx : x ∈ l') : x = b ∨ x ∈ l := by
  obtain ⟨l₁, l₂, rfl, rfl⟩ := h
  simp only [List.mem_append, List.mem_cons] at hx ⊢
  tauto

/-- Without repetitions the replaced entry is gone. -/
theorem mem_cases_of_nodup (h : Replaced l l' a b) (hl : l.Nodup) {x : α} (hx : x ∈ l') :
    x = b ∨ x ∈ l ∧ x ≠ a := by
  obtain ⟨l₁, l₂, rfl, rfl⟩ := h
  have hfresh := (List.nodup_cons.mp (List.perm_middle.nodup_iff.mp hl)).1
  rcases List.mem_append.mp hx with hx | hx
  · right
    refine ⟨List.mem_append_left _ hx, ?_⟩
    rintro rfl
    exact hfresh (List.mem_append_left _ hx)
  rcases List.mem_cons.mp hx with rfl | hx
  · exact .inl rfl
  · right
    refine ⟨List.mem_append_right _ (List.mem_cons_of_mem _ hx), ?_⟩
    rintro rfl
    exact hfresh (List.mem_append_right _ hx)

/-- Every entry before is the replaced one or still stands. -/
theorem mem_cases_old (h : Replaced l l' a b) {x : α} (hx : x ∈ l) : x = a ∨ x ∈ l' := by
  obtain ⟨l₁, l₂, rfl, rfl⟩ := h
  simp only [List.mem_append, List.mem_cons] at hx ⊢
  tauto

theorem exists_mem (h : Replaced l l' a b) {P : α → Prop} (hkeep : P a → P b) (hl : ∃ x ∈ l, P x) :
    ∃ x ∈ l', P x := by
  obtain ⟨x, hx, hpx⟩ := hl
  rcases h.mem_cases_old hx with rfl | hkept
  · exact ⟨b, h.mem_new, hkeep hpx⟩
  · exact ⟨x, hkept, hpx⟩

theorem forall_mem (h : Replaced l l' a b) {P : α → Prop} (hl : ∀ x ∈ l, P x) (hb : P b) :
    ∀ x ∈ l', P x := by
  intro x hx
  rcases h.mem_cases hx with rfl | hx
  · exact hb
  · exact hl x hx

/-- A replacement that changes its entry can be read off the two lists. -/
theorem unique {c d : α} (h : Replaced l l' a b) (h' : Replaced l l' c d) (hab : a ≠ b)
    (hcd : c ≠ d) : a = c := by
  obtain ⟨l₁, l₂, rfl, rfl⟩ := h
  obtain ⟨m₁, m₂, hold, hnew⟩ := h'
  induction l₁ generalizing m₁ with
  | nil =>
    cases m₁ with
    | nil => exact (List.cons.inj hold).1
    | cons x m₁ => exact absurd ((List.cons.inj hold).1.trans (List.cons.inj hnew).1.symm) hab
  | cons y l₁ ih =>
    cases m₁ with
    | nil => exact absurd ((List.cons.inj hold).1.symm.trans (List.cons.inj hnew).1) hcd
    | cons x m₁ => exact ih m₁ (List.cons.inj hold).2 (List.cons.inj hnew).2

theorem map_eq (h : Replaced l l' a b) {g : α → β} (hg : g b = g a) : l'.map g = l.map g := by
  obtain ⟨l₁, l₂, rfl, rfl⟩ := h
  simp [hg]

theorem flatMap_eq (h : Replaced l l' a b) {g : α → List β} (hg : g b = g a) :
    l'.flatMap g = l.flatMap g := by
  obtain ⟨l₁, l₂, rfl, rfl⟩ := h
  simp [hg]

/-- A lookup that cannot tell the two entries apart finds the same entry or the new one. -/
theorem find?_cases (h : Replaced l l' a b) {q : α → Bool} (hq : q b = q a) :
    l'.find? q = l.find? q ∨ l.find? q = some a ∧ l'.find? q = some b := by
  obtain ⟨l₁, l₂, rfl, rfl⟩ := h
  simp only [List.find?_append, List.find?_cons, hq]
  cases l₁.find? q with
  | some x => exact .inl rfl
  | none => cases q a <;> simp

theorem any (h : Replaced l l' a b) (p : α → Bool) :
    (l'.any p || p a) = (l.any p || p b) := by
  obtain ⟨l₁, l₂, rfl, rfl⟩ := h
  simp only [List.any_append, List.any_cons]
  cases l₁.any p <;> cases l₂.any p <;> cases p a <;> cases p b <;> rfl

/-- The replaced entry's share of a flattened list comes first, up to order. -/
theorem flatMap_perm (h : Replaced l l' a b) (g : α → List β) :
    ∃ rest, (l.flatMap g).Perm (g a ++ rest) ∧ (l'.flatMap g).Perm (g b ++ rest) := by
  obtain ⟨l₁, l₂, rfl, rfl⟩ := h
  refine ⟨l₁.flatMap g ++ l₂.flatMap g, ?_, ?_⟩ <;>
    simp only [List.flatMap_append, List.flatMap_cons] <;>
    rw [← List.append_assoc, ← List.append_assoc] <;>
    exact List.Perm.append_right _ List.perm_append_comm

theorem sum_map (h : Replaced l l' a b) (g : α → ℕ) :
    (l'.map g).sum + g a = (l.map g).sum + g b := by
  obtain ⟨l₁, l₂, rfl, rfl⟩ := h
  simp only [List.map_append, List.map_cons, List.sum_append, List.sum_cons]
  omega

/-- A count does not grow when the new entry counts only if the old one did. -/
theorem countP_le (h : Replaced l l' a b) {p q : α → Bool} (hpq : ∀ x, q x = true → p x = true)
    (hab : q b = true → p a = true) : l'.countP q ≤ l.countP p := by
  obtain ⟨l₁, l₂, rfl, rfl⟩ := h
  have h₁ := List.countP_mono_left (l := l₁) fun x _ => hpq x
  have h₂ := List.countP_mono_left (l := l₂) fun x _ => hpq x
  simp only [List.countP_append, List.countP_cons]
  cases hb : q b with
  | false => simp only [Bool.false_eq_true, if_false]; omega
  | true => simp only [hab hb, if_true]; omega

theorem countP (h : Replaced l l' a b) (p : α → Bool) :
    l'.countP p + (if p a then 1 else 0) = l.countP p + (if p b then 1 else 0) := by
  obtain ⟨l₁, l₂, rfl, rfl⟩ := h
  simp only [List.countP_append, List.countP_cons]
  omega

end Replaced

namespace Removed

variable {l l' : List α} {a : α}

theorem sublist (h : Removed l l' a) : l'.Sublist l := by
  obtain ⟨l₁, l₂, rfl, rfl⟩ := h
  exact (List.sublist_cons_self a l₂).append_left l₁

theorem mem_cases_old (h : Removed l l' a) {x : α} (hx : x ∈ l) : x = a ∨ x ∈ l' := by
  obtain ⟨l₁, l₂, rfl, rfl⟩ := h
  simp only [List.mem_append, List.mem_cons] at hx ⊢
  tauto

theorem length (h : Removed l l' a) : l.length = l'.length + 1 := by
  obtain ⟨l₁, l₂, rfl, rfl⟩ := h
  simp only [List.length_append, List.length_cons]
  omega

theorem flatMap_perm (h : Removed l l' a) (g : α → List β) :
    (l.flatMap g).Perm (g a ++ l'.flatMap g) := by
  obtain ⟨l₁, l₂, rfl, rfl⟩ := h
  simp only [List.flatMap_append, List.flatMap_cons]
  rw [← List.append_assoc, ← List.append_assoc]
  exact List.Perm.append_right _ List.perm_append_comm

theorem sum_map (h : Removed l l' a) (g : α → ℕ) :
    (l.map g).sum = (l'.map g).sum + g a := by
  obtain ⟨l₁, l₂, rfl, rfl⟩ := h
  simp only [List.map_append, List.map_cons, List.sum_append, List.sum_cons]
  omega

end Removed

end TinySweeper.FirstMatch
