import TinySweeper.Text

/-!
# Fields between zero bytes

Texts written as bytes and separated by zero bytes can be read back, as long as
none of them contains one.
-/

namespace TinySweeper.Framed

open Text

/-- The bytes of a text. -/
def utf8 (text : Text) : List UInt8 := text.flatMap String.utf8EncodeChar

theorem utf8_injective : Function.Injective utf8 := by
  intro a b h
  have hbytes : (String.ofList a).toByteArray = (String.ofList b).toByteArray := by
    rw [String.toByteArray_ofList, String.toByteArray_ofList, List.utf8Encode, List.utf8Encode]
    exact congrArg List.toByteArray h
  exact String.ofList_injective (String.toByteArray_inj.mp hbytes)

theorem eq_nul_of_zero_mem {c : Char} (h : (0 : UInt8) ∈ String.utf8EncodeChar c) :
    c = '\x00' := by
  have hzero : ∀ n < 256, (0 : UInt8) = UInt8.ofNat n → n = 0 := by
    intro n hn heq
    have htoNat := congrArg UInt8.toNat heq
    rw [UInt8.toNat_ofNat', Nat.mod_eq_of_lt hn] at htoNat
    exact htoNat.symm
  unfold String.utf8EncodeChar at h
  dsimp only at h
  split at h
  case isTrue hone =>
    have hval := hzero _ (by omega) (List.mem_singleton.mp h)
    exact Char.ext (UInt32.toNat_inj.mp hval)
  case isFalse =>
    -- Every byte of a longer character has its high bit set.
    split at h
    · simp only [List.mem_cons, List.not_mem_nil, or_false] at h
      rcases h with h | h <;> exact absurd (hzero _ (by omega) h) (by omega)
    · split at h
      · simp only [List.mem_cons, List.not_mem_nil, or_false] at h
        rcases h with h | h | h <;> exact absurd (hzero _ (by omega) h) (by omega)
      · simp only [List.mem_cons, List.not_mem_nil, or_false] at h
        rcases h with h | h | h | h <;> exact absurd (hzero _ (by omega) h) (by omega)

/-- Only a NUL character is written with a zero byte. -/
theorem zero_notMem_utf8 {text : Text} (h : '\x00' ∉ text) : (0 : UInt8) ∉ utf8 text := by
  intro hmem
  obtain ⟨c, hc, hzero⟩ := List.mem_flatMap.mp hmem
  exact h (eq_nul_of_zero_mem hzero ▸ hc)

/-- A field ends at the first separator. -/
theorem field_inj {α : Type*} {sep : α} {a b x y : List α} (ha : sep ∉ a) (hb : sep ∉ b)
    (h : a ++ sep :: x = b ++ sep :: y) : a = b ∧ x = y := by
  induction a generalizing b with
  | nil =>
    cases b with
    | nil => exact ⟨rfl, (List.cons.inj h).2⟩
    | cons c b => exact absurd ((List.cons.inj h).1 ▸ List.mem_cons_self) hb
  | cons c a ih =>
    cases b with
    | nil => exact absurd ((List.cons.inj h).1.symm ▸ List.mem_cons_self) ha
    | cons d b =>
      obtain ⟨rfl, hrest⟩ := List.cons.inj h
      obtain ⟨rfl, rfl⟩ := ih (fun hmem => ha (List.mem_cons_of_mem _ hmem))
        (fun hmem => hb (List.mem_cons_of_mem _ hmem)) hrest
      exact ⟨rfl, rfl⟩

/-- Each field behind a zero byte. -/
def framed (fields : List Text) : List UInt8 := fields.flatMap fun field => 0 :: utf8 field

@[simp] theorem framed_nil : framed [] = [] := rfl

@[simp] theorem framed_cons (field : Text) (fields : List Text) :
    framed (field :: fields) = 0 :: utf8 field ++ framed fields := rfl

/-- A field ends where the next ones begin. -/
theorem field_framed_inj {a b : List UInt8} (ha : (0 : UInt8) ∉ a) (hb : (0 : UInt8) ∉ b)
    {fields fields' : List Text} (h : a ++ framed fields = b ++ framed fields') :
    a = b ∧ framed fields = framed fields' := by
  cases fields with
  | nil =>
    cases fields' with
    | nil => exact ⟨by simpa using h, rfl⟩
    | cons =>
      rw [framed_nil, List.append_nil] at h
      exact absurd (h ▸ List.mem_append_right _ List.mem_cons_self) ha
  | cons =>
    cases fields' with
    | nil =>
      rw [framed_nil, List.append_nil] at h
      exact absurd (h ▸ List.mem_append_right _ List.mem_cons_self) hb
    | cons =>
      obtain ⟨hab, hrest⟩ := field_inj ha hb h
      exact ⟨hab, congrArg (0 :: ·) hrest⟩

theorem framed_injective {fields fields' : List Text} (h : ∀ field ∈ fields, '\x00' ∉ field)
    (h' : ∀ field ∈ fields', '\x00' ∉ field) (heq : framed fields = framed fields') :
    fields = fields' := by
  induction fields generalizing fields' with
  | nil =>
    cases fields' with
    | nil => rfl
    | cons => exact absurd heq (by simp)
  | cons field fields ih =>
    cases fields' with
    | nil => exact absurd heq (by simp)
    | cons field' fields' =>
      have hfield := zero_notMem_utf8 (h field List.mem_cons_self)
      have hfield' := zero_notMem_utf8 (h' field' List.mem_cons_self)
      have hrest : ∀ f ∈ fields, '\x00' ∉ f := fun f hf => h f (List.mem_cons_of_mem _ hf)
      have hrest' : ∀ f ∈ fields', '\x00' ∉ f := fun f hf => h' f (List.mem_cons_of_mem _ hf)
      have htail : utf8 field ++ framed fields = utf8 field' ++ framed fields' :=
        (List.cons.inj heq).2
      obtain ⟨hsame, hmore⟩ := field_framed_inj hfield hfield' htail
      rw [utf8_injective hsame, ih hrest hrest' hmore]

end TinySweeper.Framed
