import Mathlib.Data.List.Basic
import Mathlib.Data.List.Nodup

/-!
# Collections with one value a key

The key is read off the value, so a value can not be filed under another's key.
-/

namespace TinySweeper

/-- Values no two of which have one key. -/
structure Keyed {α κ : Type*} (key : α → κ) where
  values : List α
  nodup : (values.map key).Nodup

namespace Keyed

variable {α κ : Type*} {key : α → κ} {t : Keyed key}

instance : Membership α (Keyed key) := ⟨fun t a => a ∈ t.values⟩

instance : EmptyCollection (Keyed key) := ⟨⟨[], List.nodup_nil⟩⟩

@[simp] theorem notMem_empty (a : α) : a ∉ (∅ : Keyed key) := List.not_mem_nil

theorem eq_of_key {a b : α} (ha : a ∈ t) (hb : b ∈ t) (h : key a = key b) : a = b :=
  List.inj_on_of_nodup_map t.nodup ha hb h

/-- The values that are kept by a test. -/
def retain (t : Keyed key) (p : α → Bool) : Keyed key :=
  ⟨t.values.filter p, t.nodup.sublist (List.filter_sublist.map key)⟩

@[simp] theorem mem_retain {p : α → Bool} {a : α} : a ∈ t.retain p ↔ a ∈ t ∧ p a = true :=
  List.mem_filter

variable [DecidableEq κ]

def get? (t : Keyed key) (k : κ) : Option α := t.values.find? fun a => key a = k

/-- The value takes the place of what had its key. -/
def put (t : Keyed key) (a : α) : Keyed key where
  values := a :: (t.retain fun b => key b ≠ key a).values
  nodup := by
    refine List.nodup_cons.mpr ⟨fun h => ?_, (t.retain _).nodup⟩
    obtain ⟨b, hb, hkey⟩ := List.mem_map.mp h
    exact of_decide_eq_true (List.mem_filter.mp hb).2 hkey

def erase (t : Keyed key) (k : κ) : Keyed key := t.retain fun a => key a ≠ k

@[simp] theorem mem_put {a b : α} : b ∈ t.put a ↔ b = a ∨ b ∈ t ∧ key b ≠ key a :=
  List.mem_cons.trans (or_congr_right (mem_retain.trans (and_congr_right fun _ => decide_eq_true_iff)))

@[simp] theorem mem_erase {k : κ} {a : α} : a ∈ t.erase k ↔ a ∈ t ∧ key a ≠ k :=
  mem_retain.trans (and_congr_right fun _ => decide_eq_true_iff)

theorem get?_eq_none_iff {k : κ} : t.get? k = none ↔ ∀ a ∈ t, key a ≠ k := by
  rw [get?, List.find?_eq_none]
  exact forall₂_congr fun a _ => by rw [decide_eq_true_iff]

theorem mem_of_get? {k : κ} {a : α} (h : t.get? k = some a) : a ∈ t ∧ key a = k := by
  rw [get?] at h
  exact ⟨List.mem_of_find?_eq_some h, by simpa using List.find?_some h⟩

theorem get?_eq_some_iff {k : κ} {a : α} : t.get? k = some a ↔ a ∈ t ∧ key a = k := by
  refine ⟨mem_of_get?, ?_⟩
  rintro ⟨ha, rfl⟩
  cases hfound : t.get? (key a) with
  | none => exact absurd rfl (get?_eq_none_iff.mp hfound a ha)
  | some b =>
    obtain ⟨hb, hkey⟩ := mem_of_get? hfound
    rw [eq_of_key hb ha hkey]

@[simp] theorem get?_put_self (t : Keyed key) (a : α) : (t.put a).get? (key a) = some a :=
  get?_eq_some_iff.mpr ⟨mem_put.mpr (.inl rfl), rfl⟩

theorem get?_put_of_ne {a : α} {k : κ} (h : k ≠ key a) : (t.put a).get? k = t.get? k := by
  ext b
  rw [get?_eq_some_iff, get?_eq_some_iff, mem_put]
  constructor
  · rintro ⟨rfl | ⟨hb, _⟩, rfl⟩
    · exact absurd rfl h
    · exact ⟨hb, rfl⟩
  · rintro ⟨hb, rfl⟩
    exact ⟨.inr ⟨hb, h⟩, rfl⟩

@[simp] theorem get?_erase_self (t : Keyed key) (k : κ) : (t.erase k).get? k = none :=
  get?_eq_none_iff.mpr fun _ ha => (mem_erase.mp ha).2

theorem get?_erase_of_ne {j k : κ} (h : j ≠ k) : (t.erase k).get? j = t.get? j := by
  ext b
  rw [get?_eq_some_iff, get?_eq_some_iff, mem_erase]
  constructor
  · exact fun hb => ⟨hb.1.1, hb.2⟩
  · rintro ⟨hb, rfl⟩
    exact ⟨⟨hb, h⟩, rfl⟩

end Keyed

end TinySweeper
