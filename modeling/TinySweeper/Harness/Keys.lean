import TinySweeper.Harness.Cassette

/-!
# What a key tells

Two requests with one hash input are the same request, up to the order of the
keys of their schemas.
-/

namespace TinySweeper.Harness

open Text Findings Framed

theorem hexByte_injective : Function.Injective hexByte := by
  have hdigit : ∀ i < 16, ∀ j < 16, Nat.digitChar i = Nat.digitChar j → i = j := by decide
  intro a b h
  obtain ⟨hhigh, hrest⟩ := List.cons.inj h
  have hlow := (List.cons.inj hrest).1
  have ha := a.toNat_lt
  have hb := b.toNat_lt
  have hhigh' := hdigit _ (by omega) _ (by omega) hhigh
  have hlow' := hdigit _ (by omega) _ (by omega) hlow
  exact UInt8.toNat_inj.mp (by omega)

@[simp] theorem length_hexDigest (bytes : List UInt8) :
    (hexDigest bytes).length = 2 * bytes.length := by
  induction bytes with
  | nil => rfl
  | cons byte bytes ih =>
    rw [hexDigest, List.flatMap_cons, List.length_append]
    change 2 + (hexDigest bytes).length = _
    rw [ih, List.length_cons]
    omega

theorem hexDigest_injective : Function.Injective hexDigest := by
  intro a b h
  induction a generalizing b with
  | nil =>
    cases b with
    | nil => rfl
    | cons => exact absurd (congrArg List.length h) (by simp)
  | cons x a ih =>
    cases b with
    | nil => exact absurd (congrArg List.length h) (by simp)
    | cons y b =>
      obtain ⟨hbyte, hrest⟩ := @List.append_inj _ (hexByte x) (hexByte y) _ _ h rfl
      rw [hexByte_injective hbyte, ih hrest]

theorem nul_notMem_hexDigest (bytes : List UInt8) : '\x00' ∉ hexDigest bytes := by
  have hdigit : ∀ i < 16, '\x00' ≠ Nat.digitChar i := by decide
  intro hmem
  obtain ⟨byte, -, hbyte⟩ := List.mem_flatMap.mp hmem
  have hlt := byte.toNat_lt
  simp only [hexByte, List.mem_cons, List.not_mem_nil, or_false] at hbyte
  rcases hbyte with h | h
  · exact hdigit _ (by omega) h
  · exact hdigit _ (by omega) h

theorem leBytes_injective : Function.Injective leBytes := by
  intro m n h
  have hbyte : ∀ i < 4, m.toNat / 256 ^ i % 256 = n.toNat / 256 ^ i % 256 := by
    intro i hi
    have hget := congrArg (fun bytes : List UInt8 => (bytes[i]?).map UInt8.toNat) h
    simpa [leBytes, hi] using hget
  have h0 := hbyte 0 (by omega)
  have h1 := hbyte 1 (by omega)
  have h2 := hbyte 2 (by omega)
  have h3 := hbyte 3 (by omega)
  have hm := m.toNat_lt
  have hn := n.toNat_lt
  exact UInt32.toNat_inj.mp (by omega)

@[simp] theorem length_leBytes (n : UInt32) : (leBytes n).length = 4 := by simp [leBytes]

/-- The same request, up to the order of the schema's keys. -/
structure SameRequest (r s : ModelRequest) : Prop where
  model : r.model = s.model
  schemaName : r.schemaName = s.schemaName
  reasoningEffort : r.reasoningEffort = s.reasoningEffort
  schema : canonicalSchema r.schema = canonicalSchema s.schema
  maxTokens : r.maxTokens = s.maxTokens
  messages : r.messages = s.messages

/-- No text of the request has a NUL character. -/
structure Plain (r : ModelRequest) : Prop where
  model : '\x00' ∉ r.model
  schemaName : '\x00' ∉ r.schemaName
  reasoningEffort : ∀ effort ∈ r.reasoningEffort, '\x00' ∉ effort
  messages : ∀ message ∈ r.messages,
    '\x00' ∉ message.content ∧ ∀ image ∈ message.images, '\x00' ∉ image

/-- What is relied on of the texts of these values: they tell the values apart, escape NUL, and
start as a JSON value does. -/
structure JsonTexts (render : Json → Text) (values : List Json) : Prop where
  injective : ∀ v ∈ values, ∀ w ∈ values, render v = render w → v = w
  escaped : ∀ v ∈ values, '\x00' ∉ render v
  start : ∀ v ∈ values, (render v).head? ≠ some 'r'

theorem roleName_injective : Function.Injective roleName := by
  intro a b h
  cases a <;> cases b <;> first | rfl | exact absurd h (by decide)

theorem roleName_ne_img (role : Role) : roleName role ≠ "img".toList := by
  cases role <;> decide

/-- Messages are read back from their fields: only an image is announced by `img`. -/
theorem messageFields_injective {messages messages' : List Message}
    (h : messages.flatMap messageFields = messages'.flatMap messageFields) :
    messages = messages' := by
  -- Images end where the next message begins.
  have himages : ∀ (images images' : List Text) (rest rest' : List Message),
      images.flatMap (fun image => ["img".toList, image]) ++ rest.flatMap messageFields =
        images'.flatMap (fun image => ["img".toList, image]) ++ rest'.flatMap messageFields →
      images = images' ∧ rest.flatMap messageFields = rest'.flatMap messageFields := by
    intro images
    induction images with
    | nil =>
      intro images' rest rest' heq
      cases images' with
      | nil => exact ⟨rfl, heq⟩
      | cons image images' =>
        cases rest with
        | nil => exact absurd heq (by simp)
        | cons message rest =>
          exact absurd (List.cons.inj heq).1 (roleName_ne_img message.role)
    | cons image images ih =>
      intro images' rest rest' heq
      cases images' with
      | nil =>
        cases rest' with
        | nil => exact absurd heq (by simp)
        | cons message rest' =>
          exact absurd (List.cons.inj heq).1.symm (roleName_ne_img message.role)
      | cons image' images' =>
        obtain ⟨-, htail⟩ := List.cons.inj heq
        obtain ⟨rfl, hmore⟩ := List.cons.inj htail
        obtain ⟨rfl, hrest⟩ := ih images' rest rest' hmore
        exact ⟨rfl, hrest⟩
  induction messages generalizing messages' with
  | nil =>
    cases messages' with
    | nil => rfl
    | cons => exact absurd h (by simp [messageFields])
  | cons message messages ih =>
    cases messages' with
    | nil => exact absurd h (by simp [messageFields])
    | cons message' messages' =>
      obtain ⟨role, content, images⟩ := message
      obtain ⟨role', content', images'⟩ := message'
      simp only [List.flatMap_cons, messageFields, List.cons_append] at h
      obtain ⟨hrole, htail⟩ := List.cons.inj h
      obtain ⟨rfl, hmore⟩ := List.cons.inj htail
      obtain ⟨rfl, hrest⟩ := himages images images' messages messages' hmore
      rw [roleName_injective hrole, ih hrest]

theorem nul_notMem_messageFields {messages : List Message}
    (h : ∀ message ∈ messages, '\x00' ∉ message.content ∧ ∀ image ∈ message.images, '\x00' ∉ image) :
    ∀ field ∈ messages.flatMap messageFields, '\x00' ∉ field := by
  intro field hfield
  obtain ⟨message, hmessage, hmem⟩ := List.mem_flatMap.mp hfield
  obtain ⟨hcontent, himages⟩ := h message hmessage
  rcases List.mem_cons.mp hmem with rfl | hmem
  · cases message.role <;> decide
  · rcases List.mem_cons.mp hmem with rfl | hmem
    · exact hcontent
    · obtain ⟨image, himage, hmem⟩ := List.mem_flatMap.mp hmem
      rcases List.mem_cons.mp hmem with rfl | hmem
      · decide
      · rw [List.mem_singleton.mp hmem]
        exact himages image himage

section Inputs

variable {υ Q Γ : Type} {outside : Outside υ Q Γ}

theorem sameRequest_of_hashInput {r s : ModelRequest} (hr : Plain r) (hs : Plain s)
    (hjson : JsonTexts outside.render [canonicalSchema r.schema, canonicalSchema s.schema])
    (h : hashInput outside r = hashInput outside s) : SameRequest r s := by
  have hrSchema := zero_notMem_utf8 (hjson.escaped _ List.mem_cons_self)
  have hsSchema := zero_notMem_utf8 (hjson.escaped (canonicalSchema s.schema) (by simp))
  have heffort : (0 : UInt8) ∉ utf8 "reasoning-effort".toList := zero_notMem_utf8 (by decide)
  have hstart : ∀ v ∈ [canonicalSchema r.schema, canonicalSchema s.schema],
      utf8 "reasoning-effort".toList ≠ utf8 (outside.render v) := by
    intro v hv heq
    have hhead := hjson.start v hv
    rw [← utf8_injective heq] at hhead
    exact hhead rfl
  unfold hashInput at h
  obtain ⟨hmodel, h⟩ := field_inj (zero_notMem_utf8 hr.model) (zero_notMem_utf8 hs.model) h
  obtain ⟨hname, h⟩ :=
    field_inj (zero_notMem_utf8 hr.schemaName) (zero_notMem_utf8 hs.schemaName) h
  -- The rest after the reasoning effort.
  have hrest : utf8 (outside.render (canonicalSchema r.schema)) ++ 0 ::
      (leBytes r.maxTokens ++ framed (r.messages.flatMap messageFields)) =
        utf8 (outside.render (canonicalSchema s.schema)) ++ 0 ::
      (leBytes s.maxTokens ++ framed (s.messages.flatMap messageFields)) →
      r.reasoningEffort = s.reasoningEffort → SameRequest r s := by
    intro hrest hsame
    obtain ⟨hschema, hrest⟩ := field_inj hrSchema hsSchema hrest
    obtain ⟨htokens, hmessages⟩ := List.append_inj hrest (by simp)
    have hfields := framed_injective (nul_notMem_messageFields hr.messages)
      (nul_notMem_messageFields hs.messages) hmessages
    exact ⟨utf8_injective hmodel, utf8_injective hname, hsame,
      hjson.injective _ List.mem_cons_self _ (by simp) (utf8_injective hschema),
      leBytes_injective htokens, messageFields_injective hfields⟩
  cases hre : r.reasoningEffort with
  | none =>
    cases hse : s.reasoningEffort with
    | none =>
      rw [hre, hse] at h
      exact hrest h (hre.trans hse.symm)
    | some effort =>
      rw [hre, hse] at h
      simp only [List.nil_append, List.append_assoc, List.cons_append] at h
      exact absurd (field_inj hrSchema heffort h).1.symm (hstart _ (by simp))
  | some effort =>
    cases hse : s.reasoningEffort with
    | none =>
      rw [hre, hse] at h
      simp only [List.nil_append, List.append_assoc, List.cons_append] at h
      exact absurd (field_inj heffort hsSchema h).1 (hstart _ (by simp))
    | some effort' =>
      rw [hre, hse] at h
      simp only [List.nil_append, List.append_assoc, List.cons_append] at h
      obtain ⟨-, h⟩ := field_inj heffort heffort h
      obtain ⟨hsame, h⟩ := field_inj (zero_notMem_utf8 (hr.reasoningEffort effort hre))
        (zero_notMem_utf8 (hs.reasoningEffort effort' hse)) h
      exact hrest h (by rw [hre, hse, utf8_injective hsame])

/-- The review's input holds the key of the request. -/
theorem key_of_reviewHashInput {r s : ModelRequest} {revision revision' : Option Text}
    {policy policy' : Json}
    (h : reviewHashInput outside r revision policy = reviewHashInput outside s revision' policy') :
    key outside r = key outside s := by
  unfold reviewHashInput at h
  have htag : (0 : UInt8) ∉ utf8 "tinysweeper-cassette-review-v1".toList :=
    zero_notMem_utf8 (by decide)
  obtain ⟨-, h⟩ := field_inj htag htag h
  exact utf8_injective (field_inj (zero_notMem_utf8 (nul_notMem_hexDigest _))
    (zero_notMem_utf8 (nul_notMem_hexDigest _)) h).1

end Inputs

end TinySweeper.Harness
