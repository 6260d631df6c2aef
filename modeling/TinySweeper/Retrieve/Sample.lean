import TinySweeper.Retrieve.Query

/-!
# What a sample keeps

A sample is in the order of its list and fits its budget. The last entry is kept
unless the first, picked before it, leaves no room.
-/

namespace TinySweeper.Retrieve

open Text Evidence

@[simp] theorem widths_nil : widths [] = 0 := rfl

@[simp] theorem widths_cons (item : Text) (items : List Text) :
    widths (item :: items) = utf8Len item + 1 + widths items := rfl

@[simp] theorem widths_append (a b : List Text) : widths (a ++ b) = widths a + widths b := by
  simp [widths]

theorem widths_perm {a b : List Text} (h : a.Perm b) : widths a = widths b :=
  (h.map width).sum_eq

@[simp] theorem widths_reverse (items : List Text) : widths items.reverse = widths items :=
  widths_perm (List.reverse_perm items)

/-- In order, and within the budget. -/
structure Sample.Fits (items : List Text) (budget : ℕ) (s : Sample) : Prop where
  sublist : s.picked.Sublist items
  used : s.used = widths s.picked
  fits : s.used ≤ budget

theorem slotIndex_lt {room count slot : ℕ} (hcount : 0 < count) (hslot : slot < min room count) :
    slotIndex room count slot < count := by
  rw [slotIndex]
  split
  · omega
  · next hroom =>
    have hle : slot * (count - 1) / max (room - 1) 1 ≤ count - 1 := by
      apply Nat.div_le_of_le_mul
      exact Nat.mul_le_mul_right _ (by omega)
    omega

theorem slotIndex_strictMono {room count a b : ℕ} (hab : a < b) (hb : b < min room count) :
    slotIndex room count a < slotIndex room count b := by
  rw [slotIndex, slotIndex]
  split
  · exact hab
  · next hroom =>
    have hstep : max (room - 1) 1 ≤ count - 1 := by omega
    have hpos : 0 < max (room - 1) 1 := by omega
    calc a * (count - 1) / max (room - 1) 1
        < a * (count - 1) / max (room - 1) 1 + 1 := Nat.lt_succ_self _
      _ = (a * (count - 1) + max (room - 1) 1) / max (room - 1) 1 :=
          (Nat.add_div_right _ hpos).symm
      _ ≤ b * (count - 1) / max (room - 1) 1 := by
          apply Nat.div_le_div_right
          calc a * (count - 1) + max (room - 1) 1 ≤ a * (count - 1) + (count - 1) := by omega
            _ = (a + 1) * (count - 1) := by rw [Nat.succ_mul]
            _ ≤ b * (count - 1) := Nat.mul_le_mul_right _ hab

/-- The entry a slot stands for follows all that may be picked before it. -/
theorem sublist_take_succ {items picked : List Text} {i : ℕ} {item : Text}
    (hpicked : picked.Sublist (items.take i)) (hitem : items[i]? = some item) :
    (picked ++ [item]).Sublist (items.take (i + 1)) := by
  rw [List.take_add_one, hitem]
  exact hpicked.append (List.Sublist.refl _)

/-- A stride panics nowhere, and goes on from what is picked. -/
theorem pickSlots_spec {items : List Text} {budget room : ℕ} {slots : List ℕ}
    (hslots : ∀ slot ∈ slots, slotIndex room items.length slot < items.length)
    (hmono : slots.Pairwise fun a b =>
      slotIndex room items.length a < slotIndex room items.length b)
    {s : Sample} {bound : ℕ} (hbound : ∀ slot ∈ slots, bound ≤ slotIndex room items.length slot)
    (hpicked : s.picked.Sublist (items.take bound)) (hused : s.used = widths s.picked)
    (hfits : s.used ≤ budget) :
    ∃ s', pickSlots items budget room slots s = some s' ∧ s'.Fits items budget ∧
      s.picked <+: s'.picked := by
  induction slots generalizing s bound with
  | nil =>
    exact ⟨s, rfl, ⟨hpicked.trans (List.take_sublist _ _), hused, hfits⟩, List.prefix_rfl⟩
  | cons slot rest ih =>
    obtain ⟨hlater, hmono⟩ := List.pairwise_cons.mp hmono
    have hlt := hslots slot List.mem_cons_self
    have hrest : ∀ slot ∈ rest, slotIndex room items.length slot < items.length :=
      fun next hnext => hslots next (List.mem_cons_of_mem _ hnext)
    have hitem := List.getElem?_eq_getElem hlt
    have hhere : s.picked.Sublist (items.take (slotIndex room items.length slot)) :=
      hpicked.trans (List.take_sublist_take_left (hbound slot List.mem_cons_self))
    unfold pickSlots
    rw [hitem]
    dsimp only
    split
    · exact ih hrest hmono (fun next hnext => (hlater next hnext).le) hhere hused hfits
    · split
      · exact ⟨s, rfl, ⟨hhere.trans (List.take_sublist _ _), hused, hfits⟩, List.prefix_rfl⟩
      · next hroom =>
        obtain ⟨s', hs', hspec, hleading⟩ := ih
          (s := ⟨s.picked ++ [items[slotIndex room items.length slot]],
            s.used + (utf8Len items[slotIndex room items.length slot] + 1)⟩)
          hrest hmono (fun next hnext => hlater next hnext)
          (sublist_take_succ hhere hitem) (by simp [hused]) (by dsimp only; omega)
        exact ⟨s', hs', hspec, (List.prefix_append _ _).trans hleading⟩

/-- The first entry is picked exactly when it fits. -/
theorem pickSlots_first {first : Text} {rest : List Text} {budget room : ℕ} (hroom : 0 < room) :
    ∃ s, pickSlots (first :: rest) budget room (List.range (min room (rest.length + 1))) ⟨[], 0⟩ =
        some s ∧ s.Fits (first :: rest) budget ∧
        if width first ≤ budget then [first] <+: s.picked else s.picked = [] := by
  have hcount : min room (rest.length + 1) = (min room (rest.length + 1) - 1) + 1 := by omega
  have hindex : slotIndex room (rest.length + 1) 0 = 0 := by
    rw [slotIndex]
    split <;> simp
  have hslots : ∀ slot ∈ List.range (min room (rest.length + 1)),
      slotIndex room (first :: rest).length slot < (first :: rest).length := fun slot hslot =>
    slotIndex_lt (Nat.succ_pos _) (List.mem_range.mp hslot)
  have hmono : (List.range (min room (rest.length + 1))).Pairwise fun a b =>
      slotIndex room (first :: rest).length a < slotIndex room (first :: rest).length b := by
    refine List.pairwise_lt_range.imp_of_mem fun _ hb hab => ?_
    exact slotIndex_strictMono hab (List.mem_range.mp hb)
  rw [hcount, List.range_succ_eq_map] at hslots hmono ⊢
  have hzero : (first :: rest)[slotIndex room (first :: rest).length 0]? = some first := by
    rw [List.length_cons, hindex]
    rfl
  unfold pickSlots
  rw [hzero]
  dsimp only
  rw [List.getLast?_nil, if_neg (by simp), Nat.zero_add]
  split
  · next hwide =>
    have hwidth : ¬ width first ≤ budget := by
      unfold width
      omega
    simp only [if_neg hwidth]
    exact ⟨_, rfl, ⟨List.nil_sublist _, rfl, Nat.zero_le _⟩, rfl⟩
  · next hfits =>
    have hwidth : width first ≤ budget := by
      unfold width
      omega
    simp only [if_pos hwidth]
    obtain ⟨hlater, hmono⟩ := List.pairwise_cons.mp hmono
    rw [List.nil_append, Nat.zero_add]
    exact @pickSlots_spec _ _ _ _ (fun slot hslot => hslots slot (List.mem_cons_of_mem _ hslot))
      hmono _ 1 (fun slot hslot => Nat.one_le_iff_ne_zero.mpr (Nat.ne_zero_of_lt (hlater slot hslot)))
      (by simp) (by simp) (by dsimp only; omega)

/-- Room is made from the latest pick back, down to the first. -/
theorem makeRoom_spec {budget needed : ℕ} (latest : List Text) {used : ℕ}
    (hused : used = widths latest) :
    ∃ s, makeRoom budget needed latest used = some s ∧ s.picked.reverse <:+ latest ∧
      s.used = widths s.picked ∧ s.used ≤ used ∧ (latest ≠ [] → s.picked ≠ []) ∧
      (s.used + needed ≤ budget ∨ s.picked.length ≤ 1) := by
  induction latest generalizing used with
  | nil => exact ⟨⟨[], used⟩, rfl, List.suffix_rfl, hused, le_rfl, fun h => absurd rfl h, by simp⟩
  | cons removed latest ih =>
    cases latest with
    | nil =>
      exact ⟨⟨[removed], used⟩, rfl, List.suffix_rfl, hused, le_rfl, by simp, by simp⟩
    | cons next earlier =>
      rw [makeRoom]
      split
      · next hwide =>
        have hsub : checkedSub used (utf8Len removed + 1) = some (widths (next :: earlier)) := by
          rw [widths_cons] at hused
          rw [checkedSub, if_pos (by omega)]
          congr 1
          omega
        obtain ⟨s, hs, hsuffix, hwidths, hle, hne, hdone⟩ := @ih (widths (next :: earlier)) rfl
        rw [hsub]
        refine ⟨s, hs, hsuffix.trans (List.suffix_cons _ _), hwidths, ?_, fun _ => hne (by simp),
          hdone⟩
        rw [hused, widths_cons]
        omega
      · next hfits =>
        exact ⟨_, rfl, by simp, hused.trans (widths_reverse _).symm, le_rfl, by simp,
          .inl (by dsimp only; omega)⟩

/-- The first and the last entry fit the budget each, but not both. -/
def Crowded (items : List Text) (budget : ℕ) : Prop :=
  ∃ first last, items.head? = some first ∧ items.getLast? = some last ∧ first ≠ last ∧
    width first ≤ budget ∧ width last ≤ budget ∧ budget < width first + width last

/-- A part of the list in its order, within the budget, with the last entry where that fits. -/
structure Sampled (items : List Text) (budget : ℕ) (sample : List Text) : Prop where
  sublist : sample.Sublist items
  fits : widths sample ≤ budget
  last : ∀ last, items.getLast? = some last → width last ≤ budget → last ∈ sample

theorem width_le_widths {item : Text} {items : List Text} (h : item ∈ items) :
    width item ≤ widths items :=
  List.single_le_sum (by simp) _ (List.mem_map_of_mem h)

theorem width_add_le_widths {a b : Text} {items : List Text} (ha : a ∈ items) (hb : b ∈ items)
    (hne : a ≠ b) : width a + width b ≤ widths items := by
  induction items with
  | nil => exact absurd ha List.not_mem_nil
  | cons item items ih =>
    change width a + width b ≤ width item + widths items
    rcases List.mem_cons.mp ha with rfl | ha'
    · have hlater := width_le_widths ((List.mem_cons.mp hb).resolve_left hne.symm)
      omega
    · rcases List.mem_cons.mp hb with rfl | hb'
      · have hlater := width_le_widths ha'
        omega
      · have hlater := ih ha' hb'
        omega

theorem sampleInto_fits {items : List Text} {budget : ℕ} (h : widths items ≤ budget) :
    sampleInto items budget = some items := by
  unfold sampleInto
  split
  · next hnone =>
    rcases hnone with rfl | rfl
    · cases items with
      | nil => rfl
      | cons item items =>
        rw [widths_cons] at h
        omega
    · rfl
  · exact if_pos h

/-- Without the last entry a sample lies before it. -/
theorem sublist_before_last {items before : List Text} {last : Text} {picked : List Text}
    (hitems : items = before ++ [last]) (hpicked : picked.Sublist items) (hlast : last ∉ picked) :
    picked.Sublist before := by
  rw [hitems] at hpicked
  obtain ⟨early, late, rfl, hearly, hlate⟩ := List.sublist_append_iff.mp hpicked
  rcases List.sublist_singleton.mp hlate with rfl | rfl
  · rwa [List.append_nil]
  · exact absurd (by simp) hlast

/-- Past the budget, the last entry is put after what the stride picked. -/
theorem keepLast_spec {items : List Text} {budget : ℕ} {s : Sample} {last : Text}
    (hlast : items.getLast? = some last) (hs : s.Fits items budget) :
    ∃ sample, keepLast items budget s = some sample ∧ sample.Sublist items ∧
      widths sample ≤ budget ∧ (∀ first, [first] <+: s.picked → first ∈ sample) ∧
      (last ∈ sample ∨ last ∉ s.picked ∧
        if s.picked = [] then budget < width last
        else ∃ first, [first] <+: s.picked ∧ budget < width first + width last) := by
  unfold keepLast
  rw [hlast]
  dsimp only
  split
  · next hmem =>
    exact ⟨s.picked, rfl, hs.sublist, hs.used ▸ hs.fits, fun first h => h.subset (by simp),
      .inl hmem⟩
  · next hmem =>
    obtain ⟨kept, hkept, hsuffix, hwidths, hle, hne, hdone⟩ := @makeRoom_spec budget
      (utf8Len last + 1) s.picked.reverse _ (hs.used.trans (widths_reverse _).symm)
    rw [hkept]
    have hleading : kept.picked <+: s.picked := by
      rw [← List.reverse_suffix]
      exact hsuffix
    have hwidth : width last = utf8Len last + 1 := rfl
    have hfits := hs.fits
    have hitems := (List.dropLast_append_getLast? last hlast).symm
    have hearly : kept.picked.Sublist items.dropLast :=
      sublist_before_last hitems (hleading.sublist.trans hs.sublist)
        fun hlate => hmem (hleading.subset hlate)
    have hfirst : ∀ first, [first] <+: s.picked → first ∈ kept.picked := by
      intro first hfirst
      have hsome : s.picked.reverse ≠ [] := by
        rintro hnone
        rw [List.reverse_eq_nil_iff.mp hnone] at hfirst
        exact absurd (List.prefix_nil.mp hfirst) (List.cons_ne_nil _ _)
      have hlength := List.length_pos_iff.mpr (hne hsome)
      exact (List.prefix_of_prefix_length_le hfirst hleading hlength).subset
        (by simp)
    by_cases hroom : kept.used + utf8Len last < budget
    · refine ⟨kept.picked ++ [last], by simp [hroom], ?_, ?_,
        fun first h => List.mem_append_left _ (hfirst first h), .inl (by simp)⟩
      · rw [hitems]
        simpa using hearly
      · rw [widths_append, widths_cons, widths_nil, ← hwidths]
        omega
    · refine ⟨kept.picked, by simp [hroom], hleading.sublist.trans hs.sublist,
        hwidths ▸ le_trans hle hfits, hfirst, .inr ⟨hmem, ?_⟩⟩
      split
      · next hnone =>
        rw [hnone, List.prefix_nil] at hleading
        rw [hleading, widths_nil] at hwidths
        omega
      · next hsome =>
        have hne' := hne (by simpa using hsome)
        obtain ⟨first, few, hcons⟩ := List.exists_cons_of_ne_nil hne'
        have hfew : few = [] := by
          rcases hdone with hdone | hdone
          · omega
          · rw [hcons, List.length_cons] at hdone
            exact List.length_eq_zero_iff.mp (by omega)
        rw [hcons, hfew] at hleading hwidths
        refine ⟨first, hleading, ?_⟩
        rw [widths_cons, widths_nil] at hwidths
        unfold width
        omega

/-- What fits as a whole is not crowded. -/
theorem not_crowded_of_fits {items : List Text} {budget : ℕ} (h : widths items ≤ budget) :
    ¬ Crowded items budget := by
  rintro ⟨first, last, hfirst, hlast, hne, -, -, hover⟩
  have hboth := width_add_le_widths (List.mem_of_head? hfirst) (List.mem_of_getLast? hlast) hne
  omega

/-- A sample keeps the order and the budget, and the last entry exactly when not crowded. -/
theorem sampleInto_spec (items : List Text) (budget : ℕ) :
    ∃ sample, sampleInto items budget = some sample ∧ sample.Sublist items ∧
      widths sample ≤ budget ∧ (Sampled items budget sample ↔ ¬ Crowded items budget) := by
  by_cases hall : widths items ≤ budget
  · refine ⟨items, sampleInto_fits hall, List.Sublist.refl _, hall,
      iff_of_true ⟨List.Sublist.refl _, hall, fun last hlast _ => ?_⟩ (not_crowded_of_fits hall)⟩
    exact List.mem_of_getLast? hlast
  cases items with
  | nil => exact absurd (Nat.zero_le _) hall
  | cons first rest =>
    obtain ⟨last, hlast⟩ : ∃ last, (first :: rest).getLast? = some last :=
      ⟨_, List.getLast?_cons⟩
    by_cases hzero : budget = 0
    · subst hzero
      refine ⟨[], by simp [sampleInto], List.nil_sublist _, le_rfl,
        iff_of_true ⟨List.nil_sublist _, le_rfl, fun last _ hfits => ?_⟩ ?_⟩
      · unfold width at hfits
        omega
      · rintro ⟨_, _, -, -, -, hfits, -⟩
        unfold width at hfits
        omega
    · obtain ⟨s, hs, hfits, hfirst⟩ := @pickSlots_first first rest
        budget (max (budget / max ((widths (first :: rest) +
          (first :: rest).length - 1) / (first :: rest).length) 1) 1) (by omega)
      obtain ⟨sample, hsample, hsublist, hwidths, hfront, hkept⟩ := keepLast_spec hlast hfits
      have hrun : sampleInto (first :: rest) budget = some sample := by
        unfold sampleInto
        rw [if_neg (by simp [hzero])]
        refine (if_neg hall).trans ?_
        exact (congrArg (Option.bind · (keepLast (first :: rest) budget)) hs).trans hsample
      refine ⟨sample, hrun, hsublist, hwidths, ?_⟩
      constructor
      · rintro ⟨-, -, hin⟩ ⟨first', last', hhead, hlast', hne, hfits', hlastfits, hover⟩
        cases hhead
        cases hlast.symm.trans hlast'
        have hmem := hin last hlast hlastfits
        rw [if_pos hfits'] at hfirst
        have hboth := width_add_le_widths (hfront first hfirst) hmem hne
        omega
      · intro hroomy
        refine ⟨hsublist, hwidths, fun last' hlast' hlastfits => ?_⟩
        cases hlast.symm.trans hlast'
        rcases hkept with hmem | ⟨hout, hrest⟩
        · exact hmem
        · exfalso
          split at hfirst
          · next hfirstfits =>
            have hsome : s.picked ≠ [] := by
              rintro hnone
              rw [hnone] at hfirst
              simp at hfirst
            rw [if_neg hsome] at hrest
            obtain ⟨first', hfirst', hover⟩ := hrest
            have heq : [first'] = [first] :=
              (List.prefix_of_prefix_length_le hfirst' hfirst le_rfl).eq_of_length rfl
            rw [(List.cons.inj heq).1] at hover
            refine hroomy ⟨first, last, rfl, hlast, ?_, hfirstfits, hlastfits, hover⟩
            rintro rfl
            exact hout (hfirst.subset (by simp))
          · rw [if_pos hfirst] at hrest
            omega

end TinySweeper.Retrieve
