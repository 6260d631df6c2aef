import TinySweeper.Harness.Keys

/-!
# Replaying a recorded run

A directory holds a recorded run by file name. Strict replay serves every call the
last take of its key, so it gives a run back when calls of one key were answered
alike.
-/

namespace TinySweeper.Harness

open Text Findings Framed

theorem ofDigitChars_replicate_zero (k : ℕ) (digits : Text) :
    Nat.ofDigitChars 10 (List.replicate k '0' ++ digits) 0 = Nat.ofDigitChars 10 digits 0 := by
  induction k with
  | zero => rfl
  | succ k ih =>
    rw [List.replicate_succ, List.cons_append, Nat.ofDigitChars_cons]
    exact ih

theorem padded_injective : Function.Injective padded := by
  intro m n h
  have hvalue := congrArg (fun digits => Nat.ofDigitChars 10 digits 0) h
  simp only [padded, ofDigitChars_replicate_zero] at hvalue
  have hvalue' : ∀ k, Nat.ofDigitChars 10 (decimal k) 0 = k := fun k =>
    Nat.ofDigitChars_ten_toDigits
  rwa [hvalue', hvalue'] at hvalue

theorem dash_notMem_padded (n : ℕ) : '-' ∉ padded n := by
  intro hmem
  rcases List.mem_append.mp hmem with hzero | hdigit
  · exact absurd (List.eq_of_mem_replicate hzero) (by decide)
  · exact notMem_decimal (by decide) n hdigit

section Run

variable {υ Q Γ : Type}

theorem fileName_inj {i j : ℕ} {t u : Take υ Q} (h : fileName i t = fileName j u) : i = j := by
  obtain ⟨hpadded, -⟩ := field_inj (dash_notMem_padded _) (dash_notMem_padded _) h
  exact Nat.succ.inj (padded_injective hpadded)

variable (outside : Outside υ Q Γ) {recorded : List (Take υ Q)}

def fileOf (entry : Take υ Q × ℕ) : Text × Γ := (fileName entry.2 entry.1, outside.encode entry.1)

theorem fileName_nodup (recorded : List (Take υ Q)) :
    (recorded.zipIdx.map fun entry => fileName entry.2 entry.1).Nodup := by
  have hindex : (recorded.zipIdx.map Prod.snd).Nodup := by
    rw [List.zipIdx_map_snd]
    exact List.nodup_range'
  refine (List.Nodup.of_map _ hindex).map_on fun entry hentry other hother heq => ?_
  have hsame := fileName_inj heq
  obtain ⟨take, i⟩ := entry
  obtain ⟨take', j⟩ := other
  obtain rfl : i = j := hsame
  rw [List.mem_zipIdx_iff_getElem?] at hentry hother
  have htake : take = take' := Option.some.inj (hentry.symm.trans hother)
  rw [htake]

/-- In an empty directory every take has a file of its own. -/
theorem flush_nil (recorded : List (Take υ Q)) :
    flush outside recorded [] = recorded.zipIdx.map (fileOf outside) := by
  have hrun : ∀ (entries : List (Take υ Q × ℕ)) (dir : Dir Γ),
      (entries.map fun entry => fileName entry.2 entry.1).Nodup →
      (∀ entry ∈ entries, fileName entry.2 entry.1 ∉ dir.map Prod.fst) →
      entries.foldl (fun dir entry => dir.write (fileName entry.2 entry.1)
        (outside.encode entry.1)) dir = dir ++ entries.map (fileOf outside) := by
    intro entries
    induction entries with
    | nil => intro dir _ _; simp
    | cons entry entries ih =>
      intro dir hnodup hfresh
      obtain ⟨hhead, hnodup⟩ := List.nodup_cons.mp hnodup
      have hwrite : dir.write (fileName entry.2 entry.1) (outside.encode entry.1) =
          dir ++ [fileOf outside entry] := by
        rw [Dir.write, List.filter_eq_self.mpr]
        · rfl
        · intro file hfile
          refine decide_eq_true fun heq => hfresh entry List.mem_cons_self ?_
          rw [← heq]
          exact List.mem_map_of_mem hfile
      rw [List.foldl_cons, hwrite, ih _ hnodup]
      · simp
      · intro other hother hmem
        rw [List.map_append, List.mem_append] at hmem
        rcases hmem with hmem | hmem
        · exact hfresh other (List.mem_cons_of_mem _ hother) hmem
        · refine hhead ?_
          have hsame : fileName other.2 other.1 = fileName entry.2 entry.1 :=
            List.mem_singleton.mp hmem
          exact List.mem_map.mpr ⟨other, hother, hsame⟩
  exact (hrun _ [] (fileName_nodup recorded) (by simp)).trans (List.nil_append _)

/-- The takes of a run in the order of their file names. -/
def byName (recorded : List (Take υ Q)) : List (Take υ Q × ℕ) :=
  recorded.zipIdx.insertionSort fun a b => fileName a.2 a.1 ≤ fileName b.2 b.1

theorem load_flush (hround : ∀ take, outside.decode (outside.encode take) = .ok take)
    (recorded : List (Take υ Q)) :
    load outside (flush outside recorded []) = .ok ((byName recorded).map Prod.fst) := by
  have hjson : ∀ file ∈ recorded.zipIdx.map (fileOf outside),
      ".json".toList.isSuffixOf file.1 = true := by
    intro file hfile
    obtain ⟨entry, -, rfl⟩ := List.mem_map.mp hfile
    refine List.isSuffixOf_iff_suffix.mpr ?_
    refine List.IsSuffix.trans ?_ (List.suffix_append _ _)
    exact List.IsSuffix.trans (List.suffix_append _ _) (List.suffix_cons _ _)
  rw [load, flush_nil, List.filter_eq_self.mpr hjson,
    ← List.map_insertionSort (fun a b : Take υ Q × ℕ => fileName a.2 a.1 ≤ fileName b.2 b.1)
      (fun a b : Text × Γ => a.1 ≤ b.1) (fileOf outside) _ fun _ _ _ _ => Iff.rfl]
  change List.mapM _ ((byName recorded).map (fileOf outside)) = _
  induction byName recorded with
  | nil => rfl
  | cons entry entries ih =>
    rw [List.map_cons, List.mapM_cons, ih]
    simp only [fileOf, hround]
    rfl

/-- The last element of a sorted list that passes a test is above the others that pass. -/
theorem find?_reverse_eq_some {α : Type*} {R : α → α → Prop} {l : List α} (hl : l.Pairwise R)
    {p : α → Bool} {a : α} (h : l.reverse.find? p = some a) :
    a ∈ l ∧ p a = true ∧ ∀ b ∈ l, p b = true → b = a ∨ R b a := by
  obtain ⟨hp, after, before, hsplit, hafter⟩ := List.find?_eq_some_iff_append.mp h
  have hl' : l = before.reverse ++ a :: after.reverse := by
    rw [← List.reverse_reverse l, hsplit]
    simp
  subst hl'
  refine ⟨by simp, hp, fun b hb hpb => ?_⟩
  rcases List.mem_append.mp hb with hb | hb
  · exact .inr ((List.pairwise_append.mp hl).2.2 b hb a List.mem_cons_self)
  · rcases List.mem_cons.mp hb with rfl | hb
    · exact .inl rfl
    · have hnot := hafter b (List.mem_reverse.mp hb)
      rw [hpb] at hnot
      exact absurd hnot (by simp)

/-- No take of the same key is filed behind this one. -/
def IsLast (recorded : List (Take υ Q)) (i : ℕ) (take : Take υ Q) : Prop :=
  ∀ j other, recorded[j]? = some other → other.key = take.key →
    fileName j other ≤ fileName i take

theorem byName_pairwise (recorded : List (Take υ Q)) :
    (byName recorded).Pairwise fun a b => fileName a.2 a.1 ≤ fileName b.2 b.1 := by
  have htotal : Std.Total fun a b : Take υ Q × ℕ => fileName a.2 a.1 ≤ fileName b.2 b.1 :=
    ⟨fun _ _ => List.le_total _ _⟩
  have htrans : IsTrans (Take υ Q × ℕ) fun a b => fileName a.2 a.1 ≤ fileName b.2 b.1 :=
    ⟨fun _ _ _ => List.le_trans⟩
  exact List.pairwise_insertionSort _ _

theorem mem_byName {take : Take υ Q} {i : ℕ} :
    (take, i) ∈ byName recorded ↔ recorded[i]? = some take := by
  rw [byName, List.mem_insertionSort, List.mem_zipIdx_iff_getElem?]

/-- The take served for a key is the last one filed under it. -/
theorem take?_eq_some {mode : Mode} {key : Text} {take : Take υ Q}
    (h : (Cassette.mk mode ((byName recorded).map Prod.fst)).take? key = some take) :
    take.key = key ∧ ∃ i, recorded[i]? = some take ∧ IsLast recorded i take := by
  rw [Cassette.take?, ← List.map_reverse, List.find?_map] at h
  obtain ⟨⟨take, i⟩, hfind, rfl⟩ := Option.map_eq_some_iff.mp h
  obtain ⟨hmem, hkey, hlast⟩ := find?_reverse_eq_some (byName_pairwise recorded) hfind
  have hkey' : take.key = key := of_decide_eq_true hkey
  refine ⟨hkey', i, mem_byName.mp hmem, fun j other hother hsame => ?_⟩
  rcases hlast (other, j) (mem_byName.mpr hother)
    (decide_eq_true (hsame.trans hkey')) with heq | hle
  · obtain ⟨rfl, rfl⟩ := Prod.mk.inj heq
    exact List.le_refl _
  · exact hle

theorem take?_eq_none {mode : Mode} {key : Text} (h : ∀ take ∈ recorded, take.key ≠ key) :
    (Cassette.mk mode ((byName recorded).map Prod.fst)).take? key = none := by
  refine List.find?_eq_none.mpr fun take htake => ?_
  obtain ⟨⟨take, i⟩, hmem, rfl⟩ := List.mem_map.mp (List.mem_reverse.mp htake)
  have hin := List.mem_of_getElem? (mem_byName.mp hmem)
  simpa using h take hin

theorem exists_take? (mode : Mode) {take : Take υ Q} (h : take ∈ recorded) : ∃ found,
      (Cassette.mk mode ((byName recorded).map Prod.fst)).take? take.key = some found := by
  cases hfound : (Cassette.mk mode ((byName recorded).map Prod.fst)).take? take.key with
  | some found => exact ⟨found, rfl⟩
  | none =>
    obtain ⟨i, hi⟩ := List.mem_iff_getElem?.mp h
    have hmem : take ∈ ((byName recorded).map Prod.fst).reverse :=
      List.mem_reverse.mpr (List.mem_map.mpr ⟨(take, i), mem_byName.mpr hi, rfl⟩)
    have hnone := List.find?_eq_none.mp hfound take hmem
    simp at hnone

theorem IsLast.unique {i j : ℕ} {take other : Take υ Q} (hi : recorded[i]? = some take)
    (hj : recorded[j]? = some other) (hkey : take.key = other.key) (hlast : IsLast recorded i take)
    (hlast' : IsLast recorded j other) : i = j :=
  fileName_inj (List.le_antisymm (hlast' i take hi hkey) (hlast j other hj hkey.symm))

end Run

/-- A call, the operations the live model used for it, and its answer. -/
structure Call (υ Q : Type) where
  asked : Asked Q
  queries : List Q
  response : ModelResponse υ

section Replayed

variable {υ Q Γ : Type} (outside : Outside υ Q Γ) (recordPrompts : Bool)

def takeOf (call : Call υ Q) : Take υ Q :=
  makeTake outside recordPrompts call.asked call.queries call.response

/-- The state of a recorder after these calls. -/
def recordRun (calls : List (Call υ Q)) : Playback υ Q :=
  calls.foldl (fun s call =>
    recordCall outside recordPrompts s call.asked call.queries (.ok call.response))
    (Playback.initial outside)

/-- Ask a cassette for these calls, one after the other. -/
def replayRun (c : Cassette υ Q) :
    Playback υ Q → List (Asked Q) →
      Playback υ Q × List (Except ReplayError (ModelResponse υ))
  | s, [] => (s, [])
  | s, asked :: rest =>
    let served := c.ask outside s asked
    let run := replayRun c served.1 rest
    (run.1, served.2 :: run.2)

def spentOn (spend : Spend υ) (responses : List (ModelResponse υ)) : Spend υ :=
  responses.foldl (fun spend response => spend.record outside response.model response.usage) spend

theorem recordRun_eq (calls : List (Call υ Q)) : recordRun outside recordPrompts calls =
    { Playback.initial outside with
      served := calls.length
      spend := spentOn outside (Playback.initial (Q := Q) outside).spend (calls.map Call.response)
      recorded := calls.map (takeOf outside recordPrompts) } := by
  induction calls using List.reverseRecOn with
  | nil => rfl
  | append_singleton calls call ih =>
    rw [recordRun, List.foldl_append, ← recordRun, ih]
    simp [recordCall, spentOn, takeOf]

/-- What strict replay answers; it does not depend on what was served before. -/
def strictAnswer (c : Cassette υ Q) (asked : Asked Q) :
    Except ReplayError (ModelResponse υ) :=
  match c.take? (asked.key outside) with
  | none => .error (.miss asked.request.schemaName asked.request.model (asked.key outside))
  | some take =>
    match asked with
    | .complete _ => .ok (replayed take)
    | .review _ tree _ =>
      match take.reviewContext with
      | none => .error .methodMismatch
      | some context =>
        if context.queries.all (reissue outside tree) then .ok (replayed take)
        else .error .sourceChanged

/-- What one strict answer does to the counts. -/
theorem ask_strict (ordered : List (Take υ Q)) (s : Playback υ Q) (asked : Asked Q) :
    (Cassette.mk .strict ordered).ask outside s asked =
      ({ s with
          served := s.served + 1
          misses := s.misses +
            match strictAnswer outside ⟨.strict, ordered⟩ asked with
            | .ok _ => 0
            | .error _ => 1
          spend :=
            match strictAnswer outside ⟨.strict, ordered⟩ asked with
            | .ok response => s.spend.record outside response.model response.usage
            | .error _ => s.spend },
        strictAnswer outside ⟨.strict, ordered⟩ asked) := by
  cases asked with
  | complete request =>
    simp only [Cassette.ask, Cassette.complete, strictAnswer, Asked.key, Asked.request]
    cases (Cassette.mk .strict ordered).take? (key outside request) with
    | none => rfl
    | some take => rfl
  | review request tree policy =>
    simp only [Cassette.ask, Cassette.review, Cassette.reviewTake, strictAnswer, Asked.key,
      Asked.request]
    cases (Cassette.mk .strict ordered).take? (reviewKey outside request tree.revision policy) with
    | none => rfl
    | some take =>
      dsimp only
      cases take.reviewContext with
      | none => rfl
      | some context =>
        dsimp only
        cases context.queries.all (reissue outside tree) <;> rfl

theorem replay_eq_ok {dir : Dir Γ} {mode : Mode} {c : Cassette υ Q}
    (h : replay outside dir mode = .ok c) : ∃ ordered, c = ⟨mode, ordered⟩ := by
  rw [replay] at h
  cases hload : load outside dir with
  | error message =>
    rw [hload] at h
    cases h
  | ok ordered =>
    rw [hload] at h
    exact ⟨ordered, (Except.ok.inj h).symm⟩

theorem replayRun_strict (ordered : List (Take υ Q)) (s : Playback υ Q) (asked : List (Asked Q)) :
    (replayRun outside ⟨.strict, ordered⟩ s asked).2 =
      asked.map (strictAnswer outside ⟨.strict, ordered⟩) := by
  induction asked generalizing s with
  | nil => rfl
  | cons first rest ih =>
    rw [replayRun, List.map_cons, ih, ask_strict]

/-- A run whose calls are all answered misses nothing and spends what the answers cost. -/
theorem replayRun_answered (ordered : List (Take υ Q)) (s : Playback υ Q) (calls : List (Call υ Q))
    (h : ∀ call ∈ calls, strictAnswer outside ⟨.strict, ordered⟩ call.asked = .ok call.response) :
    (replayRun outside ⟨.strict, ordered⟩ s (calls.map Call.asked)).1 =
      { s with
        served := s.served + calls.length
        spend := spentOn outside s.spend (calls.map Call.response) } := by
  induction calls generalizing s with
  | nil => rfl
  | cons call rest ih =>
    have hrest := fun other hother => h other (List.mem_cons_of_mem _ hother)
    rw [List.map_cons, replayRun]
    dsimp only
    rw [ih _ hrest, ask_strict, h call List.mem_cons_self]
    simp only [List.length_cons, List.map_cons, spentOn, List.foldl_cons, Nat.add_zero]
    congr 1
    omega

/-- Calls of one key were answered alike, and their trees agree on what the last of them used. -/
structure Consistent (calls : List (Call υ Q)) : Prop where
  answers : ∀ call ∈ calls, ∀ other ∈ calls,
    call.asked.key outside = other.asked.key outside → call.response = other.response
  trees : ∀ call ∈ calls, ∀ i last, calls[i]? = some last →
    call.asked.key outside = last.asked.key outside →
    IsLast (calls.map (takeOf outside recordPrompts)) i (takeOf outside recordPrompts last) →
    ∀ request tree policy request' tree' policy', call.asked = .review request tree policy →
      last.asked = .review request' tree' policy' →
      ∀ query ∈ last.queries, fingerprint outside tree query = fingerprint outside tree' query

/-- The values whose texts are hashed for these requests. -/
def schemasOf (asked : List (Asked Q)) : List Json :=
  asked.map fun a => canonicalSchema a.request.schema

/-- What is hashed for these calls. -/
def hashed (asked : List (Asked Q)) : List (List UInt8) :=
  asked.flatMap fun a => hashInput outside a.request ::
    match a with
    | .complete _ => []
    | .review request tree policy => [reviewHashInput outside request tree.revision policy]

/-- What is relied on of the code elsewhere, for these calls: takes are read back as they were
written, a digest has 32 bytes, no two of the inputs share the 8 bytes a key keeps, and the texts
are free of NUL. -/
structure Trusted (asked : List (Asked Q)) : Prop where
  decoded : ∀ take, outside.decode (outside.encode take) = .ok take
  digest : ∀ input, (outside.sha256 input).length = 32
  collisionFree : ∀ a ∈ hashed outside asked, ∀ b ∈ hashed outside asked,
    (outside.sha256 a).take 8 = (outside.sha256 b).take 8 → a = b
  json : JsonTexts outside.render (schemasOf asked)
  plain : ∀ a ∈ asked, Plain a.request

/-- Strict replay gives a recorded run back, and nothing for a request it does not hold. -/
structure Reproduces (calls : List (Call υ Q)) (stranger : Asked Q) : Prop where
  loads : ∃ c, replay outside (flush outside (recordRun outside recordPrompts calls).recorded [])
    .strict = .ok c ∧
    (replayRun outside c (Playback.initial outside) (calls.map Call.asked)).2 =
      calls.map (fun call => .ok call.response) ∧
    (replayRun outside c (Playback.initial outside) (calls.map Call.asked)).1.misses = 0 ∧
    (replayRun outside c (Playback.initial outside) (calls.map Call.asked)).1.spend =
      (recordRun outside recordPrompts calls).spend ∧
    ((∀ call ∈ calls, ¬ SameRequest stranger.request call.asked.request) →
      ∀ s, ∃ error, (c.ask outside s stranger).2 = .error error)

variable {outside recordPrompts} {calls : List (Call υ Q)}

theorem length_key (hdigest : ∀ input, (outside.sha256 input).length = 32)
    (request : ModelRequest) : (key outside request).length = 16 := by
  rw [key, length_hexDigest, List.length_take, hdigest]
  rfl

theorem length_reviewKey (hdigest : ∀ input, (outside.sha256 input).length = 32)
    (request : ModelRequest) (revision : Option Text) (policy : Json) :
    (reviewKey outside request revision policy).length = 64 := by
  rw [reviewKey, length_hexDigest, hdigest]

/-- Calls of one key ask the same, in the same way. -/
theorem sameRequest_of_key {asked : List (Asked Q)} (h : Trusted outside asked)
    {a b : Asked Q} (ha : a ∈ asked) (hb : b ∈ asked)
    (hkey : a.key outside = b.key outside) : SameRequest a.request b.request := by
  have hjson : JsonTexts outside.render
      [canonicalSchema a.request.schema, canonicalSchema b.request.schema] := by
    have hmem : ∀ v ∈ [canonicalSchema a.request.schema, canonicalSchema b.request.schema],
        v ∈ schemasOf asked := by
      intro v hv
      rcases List.mem_cons.mp hv with rfl | hv
      · exact List.mem_map_of_mem ha
      · rw [List.mem_singleton.mp hv]
        exact List.mem_map_of_mem hb
    exact ⟨fun v hv w hw => h.json.injective v (hmem v hv) w (hmem w hw),
      fun v hv => h.json.escaped v (hmem v hv), fun v hv => h.json.start v (hmem v hv)⟩
  have hinput : ∀ {c : Asked Q}, c ∈ asked → hashInput outside c.request ∈ hashed outside asked :=
    fun hc => List.mem_flatMap.mpr ⟨_, hc, List.mem_cons_self⟩
  have hrequests : key outside a.request = key outside b.request →
      SameRequest a.request b.request := fun hsame =>
    sameRequest_of_hashInput (h.plain a ha) (h.plain b hb) hjson
      (h.collisionFree _ (hinput ha) _ (hinput hb) (hexDigest_injective hsame))
  cases a with
  | complete request =>
    cases b with
    | complete request' => exact hrequests hkey
    | review request' tree' policy' =>
      have hlength := congrArg List.length hkey
      simp only [Asked.key] at hlength
      rw [length_key h.digest, length_reviewKey h.digest] at hlength
      exact absurd hlength (by decide)
  | review request tree policy =>
    cases b with
    | complete request' =>
      have hlength := congrArg List.length hkey
      simp only [Asked.key] at hlength
      rw [length_key h.digest, length_reviewKey h.digest] at hlength
      exact absurd hlength (by decide)
    | review request' tree' policy' =>
      have hdigest : outside.sha256 (reviewHashInput outside request tree.revision policy) =
          outside.sha256 (reviewHashInput outside request' tree'.revision policy') :=
        hexDigest_injective hkey
      have hmem : ∀ {r : ModelRequest} {t : Tree Q} {p : Json}, Asked.review r t p ∈ asked →
          reviewHashInput outside r t.revision p ∈ hashed outside asked := fun hc =>
        List.mem_flatMap.mpr ⟨_, hc, by simp⟩
      have hinputs := h.collisionFree _ (hmem ha) _ (hmem hb) (congrArg (List.take 8) hdigest)
      exact hrequests (key_of_reviewHashInput hinputs)

/-- A recorded result is met exactly by a tree that answers alike. -/
theorem reissue_iff (hdigest : ∀ input, (outside.sha256 input).length = 32) (tree tree' : Tree Q)
    (query : Q) : reissue outside tree ⟨query, fingerprint outside tree' query⟩ = true ↔
      fingerprint outside tree query = fingerprint outside tree' query := by
  have hfailed : ∀ input, hexDigest (outside.sha256 input) ≠ FAILED := by
    intro input heq
    have hlength := congrArg List.length heq
    rw [length_hexDigest, hdigest] at hlength
    exact absurd hlength (by decide)
  unfold reissue
  dsimp only
  cases hanswer' : tree'.answer query with
  | error =>
    have hresult : fingerprint outside tree' query = FAILED := by
      simp only [fingerprint, hanswer']
    rw [if_pos hresult, hresult]
    cases hanswer : tree.answer query with
    | error => simp [fingerprint, hanswer, Except.toOption]
    | ok found => simp [fingerprint, hanswer, Except.toOption, hfailed]
  | ok found' =>
    have hresult : fingerprint outside tree' query ≠ FAILED := by
      simp only [fingerprint, hanswer']
      exact hfailed _
    rw [if_neg hresult]
    cases hanswer : tree.answer query with
    | error =>
      simp only [Bool.false_eq_true, false_iff]
      simp only [fingerprint, hanswer]
      exact fun heq => hresult heq.symm
    | ok found =>
      have hfound : fingerprint outside tree query =
          hexDigest (outside.sha256 (utf8 (outside.render (canonicalSchema found)))) := by
        simp only [fingerprint, hanswer]
      rw [hfound]
      exact decide_eq_true_iff

variable (recordPrompts) in
/-- Strict replay of a recorded call answers as the last call of its key did, when the tree
answers that call's operations alike. -/
theorem strictAnswer_recorded (hdigest : ∀ input, (outside.sha256 input).length = 32)
    {call : Call υ Q} (hcall : call ∈ calls) : ∃ i last, calls[i]? = some last ∧
      call.asked.key outside = last.asked.key outside ∧
      IsLast (calls.map (takeOf outside recordPrompts)) i (takeOf outside recordPrompts last) ∧
      (strictAnswer outside ⟨.strict, (byName (calls.map
          (takeOf outside recordPrompts))).map Prod.fst⟩ call.asked = .ok call.response ↔
        last.response = call.response ∧ ∀ request tree policy request' tree' policy',
          call.asked = .review request tree policy → last.asked = .review request' tree' policy' →
          ∀ query ∈ last.queries,
            fingerprint outside tree query = fingerprint outside tree' query) := by
  obtain ⟨found, hfound⟩ := exists_take? .strict
    (List.mem_map_of_mem (f := takeOf outside recordPrompts) hcall)
  obtain ⟨hkey, i, hi, hlast⟩ := take?_eq_some hfound
  rw [List.getElem?_map] at hi
  obtain ⟨last, hlasti, rfl⟩ := Option.map_eq_some_iff.mp hi
  have hkey' : call.asked.key outside = last.asked.key outside := hkey.symm
  refine ⟨i, last, hlasti, hkey', hlast, ?_⟩
  have hfound' : (Cassette.mk .strict ((byName (calls.map
      (takeOf outside recordPrompts))).map Prod.fst)).take? (call.asked.key outside) =
        some (takeOf outside recordPrompts last) := hfound
  obtain ⟨asked, queries, response⟩ := call
  obtain ⟨asked', queries', response'⟩ := last
  dsimp only at hkey' hfound' ⊢
  simp only [strictAnswer, hfound']
  cases asked with
  | complete request =>
    simp [takeOf, makeTake, replayed]
  | review request tree policy =>
    cases asked' with
    | complete request' =>
      have hlength := congrArg List.length hkey'
      simp only [Asked.key] at hlength
      rw [length_key hdigest, length_reviewKey hdigest] at hlength
      exact absurd hlength (by decide)
    | review request' tree' policy' =>
      simp only [takeOf, makeTake, Asked.context]
      have hall : ((queries'.map fun query =>
          (⟨query, fingerprint outside tree' query⟩ : RecordedQuery Q)).all
            (reissue outside tree)) = true ↔ ∀ query ∈ queries',
              fingerprint outside tree query = fingerprint outside tree' query := by
        rw [List.all_map, List.all_eq_true]
        exact forall₂_congr fun query _ => reissue_iff hdigest tree tree' query
      split
      case isTrue hyes =>
        have hagree := hall.mp hyes
        constructor
        · intro heq
          refine ⟨Except.ok.inj heq, ?_⟩
          rintro _ _ _ _ _ _ ⟨⟩ ⟨⟩
          exact hagree
        · rintro ⟨rfl, -⟩
          rfl
      case isFalse hno =>
        constructor
        · exact fun heq => absurd heq (by simp)
        · rintro ⟨-, hagree⟩
          exact absurd (hall.mpr (hagree _ _ _ _ _ _ rfl rfl)) hno

/-- A run is reproduced exactly when its calls of one key were answered alike. -/
theorem replay_reproduces_iff {stranger : Asked Q}
    (h : Trusted outside (stranger :: calls.map Call.asked)) :
    Reproduces outside recordPrompts calls stranger ↔ Consistent outside recordPrompts calls := by
  have hrecorded : (recordRun outside recordPrompts calls).recorded =
      calls.map (takeOf outside recordPrompts) := by rw [recordRun_eq]
  have hload : replay outside (flush outside (recordRun outside recordPrompts calls).recorded [])
      .strict = .ok ⟨.strict, (byName (calls.map (takeOf outside recordPrompts))).map
        Prod.fst⟩ := by
    rw [replay, hrecorded, load_flush outside h.decoded]
    rfl
  constructor
  · rintro ⟨c, hc, hanswers, -, -, -⟩
    obtain rfl := Except.ok.inj (hload.symm.trans hc)
    rw [replayRun_strict, List.map_map] at hanswers
    have heach : ∀ call ∈ calls, strictAnswer outside ⟨.strict, (byName (calls.map
        (takeOf outside recordPrompts))).map Prod.fst⟩ call.asked = .ok call.response :=
      List.map_inj_left.mp hanswers
    have htakeAt : ∀ {i : ℕ} {call : Call υ Q}, calls[i]? = some call →
        (calls.map (takeOf outside recordPrompts))[i]? = some (takeOf outside recordPrompts call) :=
      fun hi => by rw [List.getElem?_map, hi]; rfl
    refine ⟨fun call hcall other hother hkey => ?_,
      fun call hcall i last hi hkey hlast => ?_⟩
    · obtain ⟨i, last, hi, hlastkey, hlast, hiff⟩ :=
        strictAnswer_recorded recordPrompts h.digest hcall
      obtain ⟨j, last', hj, hlastkey', hlast', hiff'⟩ :=
        strictAnswer_recorded recordPrompts h.digest hother
      obtain rfl := hlast.unique (htakeAt hi) (htakeAt hj)
        (hlastkey.symm.trans (hkey.trans hlastkey')) hlast'
      obtain rfl := Option.some.inj (hi.symm.trans hj)
      rw [← (hiff.mp (heach call hcall)).1, (hiff'.mp (heach other hother)).1]
    · obtain ⟨j, last', hj, hlastkey', hlast', hiff⟩ :=
        strictAnswer_recorded recordPrompts h.digest hcall
      obtain rfl := hlast.unique (htakeAt hi) (htakeAt hj) (hkey.symm.trans hlastkey') hlast'
      obtain rfl := Option.some.inj (hi.symm.trans hj)
      exact (hiff.mp (heach call hcall)).2
  · intro hconsistent
    have heach : ∀ call ∈ calls, strictAnswer outside ⟨.strict, (byName (calls.map
        (takeOf outside recordPrompts))).map Prod.fst⟩ call.asked = .ok call.response := by
      intro call hcall
      obtain ⟨i, last, hi, hkey, hlast, hiff⟩ :=
        strictAnswer_recorded recordPrompts h.digest hcall
      exact hiff.mpr ⟨(hconsistent.answers call hcall last (List.mem_of_getElem? hi) hkey).symm,
        hconsistent.trees call hcall i last hi hkey hlast⟩
    refine ⟨_, hload, ?_, ?_, ?_, fun hstranger s => ?_⟩
    · rw [replayRun_strict, List.map_map]
      exact List.map_inj_left.mpr heach
    · rw [replayRun_answered outside _ _ _ heach]
      rfl
    · rw [replayRun_answered outside _ _ _ heach, recordRun_eq]
    · have hnone : (Cassette.mk .strict ((byName (calls.map
          (takeOf outside recordPrompts))).map Prod.fst)).take? (stranger.key outside) = none := by
        refine take?_eq_none fun take htake hkey => ?_
        obtain ⟨call, hcall, rfl⟩ := List.mem_map.mp htake
        refine hstranger call hcall (sameRequest_of_key h List.mem_cons_self
          (List.mem_cons_of_mem _ (List.mem_map_of_mem hcall)) ?_)
        exact hkey.symm
      refine ⟨.miss stranger.request.schemaName stranger.request.model (stranger.key outside), ?_⟩
      rw [ask_strict]
      simp only [strictAnswer, hnone]

end Replayed

/-- SHA-256, of the inputs that are hashed here, which differ in their first four bytes. -/
def sampleSha256 (input : List UInt8) : List UInt8 :=
  let digest := (digests.lookup (input.take 4)).getD 0
  (List.range 32).map fun i => UInt8.ofNat (digest / 256 ^ (31 - i))
where
  digests : List (List UInt8 × ℕ) :=
    [(utf8 "fast".toList, 0xedf153222388348b4ea612cd3f2ea64a9e46f6a7da967002cbf9bf1a6d9161c0),
      (utf8 "keen".toList, 0x285f49236d20b62a2ddb6fcfa709138bb21b1ff159f461b6efbc50f30807909a),
      (utf8 "slow".toList, 0x4edd83a61aec46980eb1d90784e05153324e5a3e414bca58ca5cd79301a10fa4),
      (utf8 "tiny".toList, 0xb97e81165039f8e5d2075bf74e315eccd26de4d8e0a481b91c0d6eb65fe2deda)]

def small : Outside ℕ Unit (Take ℕ Unit) where
  sha256 := sampleSha256
  render _ := "null".toList
  encode := id
  decode := .ok
  add := Nat.add
  zero := 0

def asking (model : String) : ModelRequest where
  model := model.toList
  messages := [⟨.user, "Review this diff.".toList, []⟩]
  schema := .null
  schemaName := "review".toList
  reasoningEffort := none
  maxTokens := 4096

def answered (asked : Asked Unit) (cost : ℕ) : Call ℕ Unit :=
  ⟨asked, [()], ⟨.null, "fast".toList, cost⟩⟩

def emptyTree : Tree Unit := ⟨none, fun _ => .error "no such file".toList⟩

theorem small_trusted {asked : List (Asked Unit)}
    (hschema : ∀ a ∈ asked, a.request.schema = .null)
    (hfree : ∀ a ∈ hashed small asked, ∀ b ∈ hashed small asked,
      (small.sha256 a).take 8 = (small.sha256 b).take 8 → a = b)
    (hplain : ∀ a ∈ asked, Plain a.request) : Trusted small asked where
  decoded _ := rfl
  digest input := by simp [small, sampleSha256]
  collisionFree := hfree
  json := by
    have hnull : ∀ v ∈ schemasOf asked, v = .null := by
      intro v hv
      obtain ⟨a, ha, rfl⟩ := List.mem_map.mp hv
      rw [hschema a ha]
      rfl
    refine ⟨fun v hv w hw _ => (hnull v hv).trans (hnull w hw).symm, fun v _ => ?_, fun v _ => ?_⟩
    · change '\x00' ∉ "null".toList
      decide
    · change "null".toList.head? ≠ some 'r'
      decide
  plain := hplain

theorem asking_plain {model : String} (h : '\x00' ∉ model.toList) : Plain (asking model) where
  model := h
  schemaName := by
    change '\x00' ∉ "review".toList
    decide
  reasoningEffort effort heffort := by cases heffort
  messages message hmessage := by
    rw [List.mem_singleton.mp hmessage]
    decide

/-- One prompt asked twice and answered differently is replayed with one of the answers. -/
theorem repeated_prompt_not_reproduced :
    ¬ ∀ (outside : Outside ℕ Unit (Take ℕ Unit)) (recordPrompts : Bool)
      (calls : List (Call ℕ Unit)) (stranger : Asked Unit),
      Trusted outside (stranger :: calls.map Call.asked) →
      Reproduces outside recordPrompts calls stranger := by
  intro hall
  have htrusted : Trusted small (.complete (asking "slow") ::
      [answered (.complete (asking "fast")) 1,
        answered (.complete (asking "fast")) 2].map Call.asked) := by
    refine small_trusted ?_ (by decide +kernel) ?_
    · simp [answered, Asked.request, asking]
    · simp only [List.map_cons, List.map_nil, answered, List.mem_cons, List.not_mem_nil, or_false,
        forall_eq_or_imp, forall_eq]
      exact ⟨asking_plain (by decide), asking_plain (by decide), asking_plain (by decide)⟩
  obtain ⟨c, hc, hanswers, -⟩ := hall small false _ _ htrusted
  obtain ⟨ordered, rfl⟩ := replay_eq_ok small hc
  rw [replayRun_strict] at hanswers
  -- both calls ask for the same thing, so they cannot be told apart
  simp only [List.map_cons, List.map_nil, List.cons.injEq, and_true] at hanswers
  have hsame := Except.ok.inj (hanswers.1.symm.trans hanswers.2)
  exact absurd (congrArg ModelResponse.usage hsame) (by decide)

/-- Two different calls and a third request. -/
theorem two_calls_reproduced :
    Reproduces small true
      [answered (.complete (asking "fast")) 1, answered (.review (asking "keen") emptyTree .null) 2]
      (.complete (asking "slow")) := by
  refine (replay_reproduces_iff ?_).mpr ⟨?_, ?_⟩
  · refine small_trusted ?_ (by decide +kernel) ?_
    · simp [answered, Asked.request, asking]
    · simp only [List.map_cons, List.map_nil, answered, List.mem_cons, List.not_mem_nil, or_false,
        forall_eq_or_imp, forall_eq]
      exact ⟨asking_plain (by decide), asking_plain (by decide), asking_plain (by decide)⟩
  · have hkeys : (Asked.complete (asking "fast")).key small ≠
        (Asked.review (asking "keen") emptyTree .null).key small := by decide +kernel
    simp only [List.mem_cons, List.not_mem_nil, or_false, forall_eq_or_imp, forall_eq, answered]
    exact ⟨⟨fun _ => trivial, fun h => absurd h hkeys⟩, fun h => absurd h.symm hkeys,
      fun _ => trivial⟩
  · intro call hcall i last hi hkey _ request tree policy request' tree' policy' hasked hlast
    have hreview : ∀ call ∈ [answered (.complete (asking "fast")) 1,
        answered (.review (asking "keen") emptyTree .null) 2], ∀ request tree policy,
          call.asked = .review request tree policy → tree = emptyTree := by
      simp [answered]
    intro query _
    rw [hreview call hcall request tree policy hasked,
      hreview last (List.mem_of_getElem? hi) request' tree' policy' hlast]

end TinySweeper.Harness
