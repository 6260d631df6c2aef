import TinySweeper.Flows.Lookup

/-!
# What the reviewer was told

A key that is marked stands for a text the conversation has shown, whole or with a word
on what is missing, unless it was marked in vain.
-/

namespace TinySweeper.Flows

open Text Evidence Ports

/-- The text, or its beginning and the notice of the cut. -/
def Shows (said text : Text) : Prop :=
  text <:+: said ∨ ∃ start, start ≠ [] ∧ start <+: text ∧ (start ++ TRUNCATED) <:+: said

theorem Shows.mono {said more text : Text} (h : Shows said text) (hmore : said <:+: more) :
    Shows more text := by
  rcases h with h | ⟨start, hne, hstart, h⟩
  · exact .inl (h.trans hmore)
  · exact .inr ⟨start, hne, hstart, h.trans hmore⟩

/-- Begins with a character of one byte. -/
def Ascii (text : Text) : Prop := ∃ c rest, text = c :: rest ∧ c.utf8Size = 1

theorem Ascii.append {text : Text} (h : Ascii text) (more : Text) : Ascii (text ++ more) := by
  obtain ⟨c, rest, rfl, hc⟩ := h
  exact ⟨c, rest ++ more, rfl, hc⟩

theorem ascii_of_head {text : Text} (h : text.head?.any (·.utf8Size = 1) = true) :
    Ascii text := by
  cases text with
  | nil => exact absurd h Bool.false_ne_true
  | cons c rest => exact ⟨c, rest, rfl, of_decide_eq_true h⟩

theorem ascii_fenced (content : Text) : Ascii (fenced content) := by
  have hfence : Ascii (fenceFor content) :=
    ⟨'\x60', _, List.replicate_succ, by decide⟩
  exact ((hfence.append _).append _).append _

theorem ascii_renderHits (hits : List Hit) : Ascii (renderHits hits) := by
  unfold renderHits
  split
  · exact ascii_of_head (by decide)
  · exact ascii_fenced _

theorem ascii_renderFound (found : Found) : Ascii (renderFound found) := by
  have hempty : Ascii "The file has ".toList := ascii_of_head (by decide)
  have hlines : Ascii "Lines ".toList := ascii_of_head (by decide)
  have hreason : Ascii "Not available: ".toList := ascii_of_head (by decide)
  unfold renderFound
  split
  · split
    · exact (hempty.append _).append _
    · simp only [List.append_assoc]
      exact hlines.append _
  · exact ((ascii_renderHits _).append _).append _
  · exact ascii_of_head (by decide)
  · exact hreason.append _

/-- The last boundary up to an offset. -/
theorem floorBoundary_spec (text : Text) (n : ℕ) :
    (∃ kept rest, splitAtByte (floorBoundary text n) text = some (kept, rest)) ∧
      floorBoundary text n ≤ n ∧
      ∀ m ≤ n, (splitAtByte m text).isSome = true → m ≤ floorBoundary text n := by
  induction n with
  | zero => exact ⟨⟨[], text, by simp [floorBoundary, splitAtByte]⟩, le_rfl, fun m hm _ => hm⟩
  | succ n ih =>
    obtain ⟨hsplit, hle, hmax⟩ := ih
    rw [floorBoundary]
    split
    · next hhere =>
      obtain ⟨⟨kept, rest⟩, hkept⟩ := Option.isSome_iff_exists.mp hhere
      exact ⟨⟨kept, rest, hkept⟩, le_rfl, fun m hm _ => hm⟩
    · next hhere =>
      refine ⟨hsplit, by omega, fun m hm hm' => ?_⟩
      rcases Nat.lt_or_ge n m with hlt | hge
      · have heq : m = n + 1 := by omega
        exact absurd (heq ▸ hm') hhere
      · exact hmax m hge hm'

theorem utf8Len_le_of_prefix {a b : Text} (h : a <+: b) : utf8Len a ≤ utf8Len b := by
  obtain ⟨rest, rfl⟩ := h
  rw [utf8Len_append]
  exact Nat.le_add_right _ _

/-- What begins before the cut is shown, whole or up to the notice. -/
theorem cutTo_spec (room : ℕ) (body : Text) :
    ∃ cut, cutTo room body = some cut ∧ utf8Len cut ≤ room + utf8Len TRUNCATED ∧
      ∀ before text after, body = before ++ (text ++ after) → Ascii text →
        utf8Len before < room → Shows cut text := by
  rw [cutTo]
  split
  · obtain ⟨⟨kept, rest, hsplit⟩, hle, hmax⟩ := floorBoundary_spec body room
    obtain ⟨hbody, hlen⟩ := splitAtByte_eq_some_iff.mp hsplit
    refine ⟨kept ++ TRUNCATED, by rw [hsplit]; rfl, by rw [utf8Len_append]; omega, ?_⟩
    intro before text after heq hascii hroom
    obtain ⟨c, tail, rfl, hc⟩ := hascii
    have hfirst : utf8Len before + 1 ≤ utf8Len kept := by
      rw [hlen]
      apply hmax _ hroom
      have hone : splitAtByte (utf8Len before + 1) body = some (before ++ [c], tail ++ after) :=
        splitAtByte_eq_some_iff.mpr ⟨by simp [heq], by simp [hc]⟩
      rw [hone]
      rfl
    have hkept : kept <+: body := ⟨rest, hbody.symm⟩
    have hbefore : before <+: kept := by
      rcases List.prefix_or_prefix_of_prefix (⟨_, heq.symm⟩ : before <+: body) hkept with h | h
      · exact h
      · have hshort := utf8Len_le_of_prefix h
        omega
    obtain ⟨start, rfl⟩ := hbefore
    have hstart : start <+: body.drop before.length ∧ c :: tail <+: body.drop before.length := by
      constructor
      · rw [hbody]
        simp
      · rw [heq]
        simp
    rcases List.prefix_or_prefix_of_prefix hstart.1 hstart.2 with hcut | hwhole
    · refine .inr ⟨start, ?_, hcut, ⟨before, [], by simp⟩⟩
      rintro rfl
      simp at hfirst
    · obtain ⟨more, rfl⟩ := hwhole
      exact .inl ⟨before, more ++ TRUNCATED, by simp⟩
  · next hfits =>
    refine ⟨body, rfl, by omega, fun before text after heq _ _ => .inl ⟨before, after, ?_⟩⟩
    rw [heq, List.append_assoc]

/-- The text found is shown; of a search under a glob without hits, that there were none; of a
search, some of the hits and that there may be more. -/
def Rendered (said : Text) (lookup : Lookup) (found : Found) : Prop :=
  Shows said (renderFound found) ∨
    (∃ pattern glob truncated skipped, lookup = .search pattern (some glob) ∧
      found = .hits [] truncated skipped ∧ Shows said (nothingUnder glob)) ∨
    ∃ hits truncated skipped shown, found = .hits hits truncated skipped ∧ shown ≠ [] ∧
      shown.Sublist hits ∧ (hitLines shown ++ INCOMPLETE) <:+: said

theorem Rendered.mono {said more : Text} {lookup : Lookup} {found : Found}
    (h : Rendered said lookup found) (hmore : said <:+: more) : Rendered more lookup found := by
  rcases h with h | ⟨pattern, glob, truncated, skipped, hlookup, hfound, h⟩ |
      ⟨hits, truncated, skipped, shown, hfound, hne, hsub, h⟩
  · exact .inl (h.mono hmore)
  · exact .inr (.inl ⟨pattern, glob, truncated, skipped, hlookup, hfound, h.mono hmore⟩)
  · exact .inr (.inr ⟨hits, truncated, skipped, shown, hfound, hne, hsub, h.trans hmore⟩)

section Told

variable {quoted : Text → Text} (tree : TreeReader quoted)

/-- A lookup of this key was answered, and what was found is told. -/
def Told (said key : Text) : Prop :=
  ∃ lookup found, lookup.key quoted = key ∧ tree.lookup lookup = .ok found ∧
    Rendered said lookup found

/-- All that is marked is told, unless it was marked in vain. -/
def Ledger.Honest (said : Text) (l : Ledger) : Prop :=
  ∀ key ∈ l.seen, key ∈ l.unshown ∨ Told tree said key

variable {tree}

theorem Told.mono {said more key : Text} (h : Told tree said key) (hmore : said <:+: more) :
    Told tree more key := by
  obtain ⟨lookup, found, hkey, hlookup, hrendered⟩ := h
  exact ⟨lookup, found, hkey, hlookup, hrendered.mono hmore⟩

/-- More is said, and what is marked besides is told or marked in vain. -/
theorem Ledger.Honest.extend {said more : Text} {l l' : Ledger} (h : l.Honest tree said)
    (hmore : said <:+: more) (hunshown : l.unshown ⊆ l'.unshown)
    (hseen : ∀ key ∈ l'.seen, key ∈ l.seen ∨ key ∈ l'.unshown ∨ Told tree more key) :
    l'.Honest tree more := by
  intro key hkey
  rcases hseen key hkey with hold | hnew
  · rcases h key hold with hhidden | htold
    · exact .inl (hunshown hhidden)
    · exact .inr (htold.mono hmore)
  · exact hnew

theorem mem_failed {lookups : List Lookup} {key : Text} : key ∈ failed tree lookups ↔
    ∃ lookup ∈ lookups, (tree.lookup lookup).isOk = false ∧ lookup.key quoted = key := by
  simp [failed, and_assoc]

/-- Not among those that failed, a lookup was answered. -/
theorem ok_of_not_failed {lookups : List Lookup} {lookup : Lookup} (hmem : lookup ∈ lookups)
    (h : lookup.key quoted ∉ failed tree lookups) : ∃ found, tree.lookup lookup = .ok found := by
  cases hfound : tree.lookup lookup with
  | ok found => exact ⟨found, rfl⟩
  | error err => exact absurd (mem_failed.mpr ⟨lookup, hmem, by rw [hfound]; rfl, rfl⟩) h

/-- A followed read that is not cut away stands before the cut. -/
theorem shown_of_not_cutAway {room : ℕ} {hits : List Hit} {offset : ℕ} {hit : Hit}
    (hmem : hit ∈ hits)
    (hkey : (definitionRead (fun _ => DEFINITION_BELOW) hit).key quoted ∉
      cutAway tree room offset hits) :
    ∃ context before after,
      tree.lookup (definitionRead (fun _ => DEFINITION_BELOW) hit) = .ok context ∧
      hits.flatMap (followedText tree fun _ => DEFINITION_BELOW) =
        before ++ (renderFound context ++ after) ∧ offset + utf8Len before < room := by
  induction hits generalizing offset with
  | nil => exact absurd hmem List.not_mem_nil
  | cons first rest ih =>
    rw [cutAway] at hkey
    rw [List.flatMap_cons, followedText]
    rcases List.mem_cons.mp hmem with rfl | hmem'
    · cases hread : tree.lookup (definitionRead (fun _ => DEFINITION_BELOW) hit) with
      | error err =>
        rw [hread] at hkey
        exact absurd (Finset.mem_insert_self _ _) hkey
      | ok context =>
        rw [hread] at hkey
        dsimp only at hkey
        split at hkey
        · exact absurd (Finset.mem_insert_self _ _) hkey
        · next hroom =>
          exact ⟨context, followedHeader hit,
            rest.flatMap (followedText tree fun _ => DEFINITION_BELOW), rfl,
            List.append_assoc _ _ _, not_le.mp hroom⟩
    · cases hread : tree.lookup (definitionRead (fun _ => DEFINITION_BELOW) first) with
      | error err =>
        rw [hread] at hkey
        obtain ⟨context, before, after, hok, heq, hlt⟩ :=
          ih hmem' fun h => hkey (Finset.mem_insert_of_mem h)
        exact ⟨context, before, after, hok, heq, hlt⟩
      | ok found =>
        rw [hread] at hkey
        dsimp only at hkey
        have hlater : (definitionRead (fun _ => DEFINITION_BELOW) hit).key quoted ∉
            cutAway tree room (offset + utf8Len (followedHeader first) +
              utf8Len (renderFound found)) rest := by
          split at hkey
          · exact fun h => hkey (Finset.mem_insert_of_mem h)
          · exact hkey
        obtain ⟨context, before, after, hok, heq, hlt⟩ := ih hmem' hlater
        refine ⟨context, followedHeader first ++ renderFound found ++ before, after, hok, ?_, ?_⟩
        · dsimp only
          rw [heq]
          simp
        · simp only [utf8Len_append]
          omega

variable (tree) in
/-- Either the lookup itself is answered or reported, or it found nothing and one was made instead. -/
theorem find_cases (lookup : Lookup) :
    find tree lookup =
        { found := reported "the repository could not be read: ".toList (tree.lookup lookup) } ∨
      ∃ pattern glob truncated skipped again, lookup = .search pattern (some glob) ∧
        tree.lookup lookup = .ok (.hits [] truncated skipped) ∧
        tree.lookup (.search pattern none) = .ok again ∧
        find tree lookup = ⟨again, nothingUnder glob, some (.search pattern none)⟩ := by
  unfold find
  dsimp only
  split
  · next pattern glob truncated skipped hfound =>
    have hok : tree.lookup (.search pattern (some glob)) = .ok (.hits [] truncated skipped) := by
      cases h : tree.lookup (.search pattern (some glob)) with
      | ok found =>
        rw [h] at hfound
        exact congrArg Except.ok hfound
      | error err =>
        rw [h] at hfound
        cases hfound
    split
    · next again hagain =>
      exact .inr ⟨pattern, glob, truncated, skipped, again, rfl, hok, hagain, rfl⟩
    · exact .inl rfl
  · exact .inl rfl

@[simp] theorem mark_seen (key : Text) (l : Ledger) : (l.mark key).seen = insert key l.seen := rfl

@[simp] theorem mark_unshown (key : Text) (l : Ledger) : (l.mark key).unshown = l.unshown := rfl

@[simp] theorem mark_chars (key : Text) (l : Ledger) : (l.mark key).chars = l.chars := rfl

@[simp] theorem hide_seen (keys : Finset Text) (l : Ledger) : (l.hide keys).seen = l.seen := rfl

@[simp] theorem hide_unshown (keys : Finset Text) (l : Ledger) :
    (l.hide keys).unshown = l.unshown ∪ keys := rfl

@[simp] theorem hide_chars (keys : Finset Text) (l : Ledger) : (l.hide keys).chars = l.chars := rfl

@[simp] theorem charge_seen (body : Text) (l : Ledger) : (l.charge body).seen = l.seen := rfl

@[simp] theorem charge_unshown (body : Text) (l : Ledger) :
    (l.charge body).unshown = l.unshown := rfl

@[simp] theorem charge_chars (body : Text) (l : Ledger) :
    (l.charge body).chars = l.chars + utf8Len body := rfl

@[simp] theorem markReads_unshown (below : Hit → ℕ) (hits : List Hit) (l : Ledger) :
    (l.markReads quoted below hits).unshown = l.unshown := rfl

@[simp] theorem markReads_chars (below : Hit → ℕ) (hits : List Hit) (l : Ledger) :
    (l.markReads quoted below hits).chars = l.chars := rfl

theorem mem_markAnswer_seen {l : Ledger} {lookup : Lookup} {key : Text} :
    key ∈ (l.markAnswer tree lookup).seen ↔ key ∈ l.seen ∨ key = lookup.key quoted ∨
      ∃ wide, (find tree lookup).wide = some wide ∧ wide.key quoted = key := by
  unfold Ledger.markAnswer
  cases (find tree lookup).wide with
  | none => simp [or_comm]
  | some wide =>
    simp only [mark_seen, Finset.mem_insert, Option.some.injEq, exists_eq_left']
    tauto

@[simp] theorem markAnswer_unshown (l : Ledger) (lookup : Lookup) :
    (l.markAnswer tree lookup).unshown = l.unshown := by
  unfold Ledger.markAnswer
  split <;> rfl

@[simp] theorem markAnswer_chars (l : Ledger) (lookup : Lookup) :
    (l.markAnswer tree lookup).chars = l.chars := by
  unfold Ledger.markAnswer
  split <;> rfl

theorem mem_markReads_seen {below : Hit → ℕ} {hits : List Hit} {l : Ledger} {key : Text} :
    key ∈ (l.markReads quoted below hits).seen ↔
      key ∈ l.seen ∨ ∃ hit ∈ hits, (definitionRead below hit).key quoted = key := by
  simp [Ledger.markReads]

/-- A text within the body of a block is said with the block. -/
theorem infix_render_answered (said key body : Text) :
    body <:+: said ++ (Block.answered key body).render := by
  refine ⟨said ++ ("\n### ".toList ++ key ++ "\n\n".toList), "\n".toList, ?_⟩
  unfold Block.render
  simp only [List.append_assoc]

theorem chars_of_room {policy : LookupPolicy} {chars room : ℕ}
    (h : checkedSub policy.maxChars chars = some room) : chars + room = policy.maxChars := by
  rw [checkedSub] at h
  split at h
  · cases h
    omega
  · cases h

theorem ascii_nothingUnder (glob : Text) : Ascii (nothingUnder glob) := by
  have hlead : Ascii "Nothing under \x60".toList := ascii_of_head (by decide)
  exact (hlead.append _).append _

theorem mem_inVain {l : Ledger} {lookup : Lookup} {room : ℕ} {key : Text} :
    key ∈ l.inVain tree lookup room ↔ key ∈ failed tree [lookup] ∨
      (room ≤ utf8Len (find tree lookup).lead ∧
        ∃ wide, (find tree lookup).wide = some wide ∧ wide.key quoted = key) ∨
      key ∈ cutAway tree room (utf8Len (answerText tree lookup)) (l.follow tree lookup) := by
  rw [Ledger.inVain, Finset.mem_union, Finset.mem_union, or_assoc]
  refine or_congr_right (or_congr_left ?_)
  split
  · next hroom =>
    cases (find tree lookup).wide with
    | none => simp
    | some wide => simp [hroom, eq_comm]
  · next hroom => simp [hroom]

section Answered

variable {l : Ledger} {lookup : Lookup} {room : ℕ} {followed cut said : Text} {key : Text}

/-- What the lookup itself found is told, or that it found nothing. -/
theorem told_asked (hpos : 0 < room)
    (hshows : ∀ before text after, answerText tree lookup ++ followed = before ++ (text ++ after) →
      Ascii text → utf8Len before < room → Shows cut text)
    (hsaid : cut <:+: said) (hvain : lookup.key quoted ∉ l.inVain tree lookup room) :
    Told tree said (lookup.key quoted) := by
  rw [mem_inVain, not_or] at hvain
  obtain ⟨found, hfound⟩ := ok_of_not_failed (List.mem_singleton.mpr rfl) hvain.1
  refine ⟨lookup, found, rfl, hfound, ?_⟩
  rcases find_cases tree lookup with
    hplain | ⟨pattern, glob, truncated, skipped, again, hlookup, hnone, -, hwide⟩
  · refine .inl ((hshows [] (renderFound found) followed ?_ (ascii_renderFound found) hpos).mono hsaid)
    rw [answerText, hplain, hfound]
    rfl
  · cases hfound.symm.trans hnone
    refine .inr (.inl ⟨pattern, glob, truncated, skipped, hlookup, rfl, ?_⟩)
    refine (hshows [] (nothingUnder glob) (renderFound again ++ followed) ?_
      (ascii_nothingUnder glob) hpos).mono hsaid
    rw [answerText, hwide, List.append_assoc]
    rfl

/-- So is what the search across the tree found that was made instead. -/
theorem told_wide {wide : Lookup} (hwide : (find tree lookup).wide = some wide)
    (hshows : ∀ before text after, answerText tree lookup ++ followed = before ++ (text ++ after) →
      Ascii text → utf8Len before < room → Shows cut text)
    (hsaid : cut <:+: said) (hvain : wide.key quoted ∉ l.inVain tree lookup room) :
    Told tree said (wide.key quoted) := by
  rw [mem_inVain, not_or, not_or] at hvain
  rcases find_cases tree lookup with
    hplain | ⟨pattern, glob, truncated, skipped, again, -, -, hagain, hfind⟩
  · rw [hplain] at hwide
    cases hwide
  · have hroom : utf8Len (find tree lookup).lead < room :=
      not_le.mp fun hle => hvain.2.1 ⟨hle, wide, hwide, rfl⟩
    rw [hfind] at hwide hroom
    cases hwide
    refine ⟨_, again, rfl, hagain, .inl ?_⟩
    refine (hshows (nothingUnder glob) (renderFound again) followed ?_ (ascii_renderFound again)
      hroom).mono hsaid
    rw [answerText, hfind, List.append_assoc]

/-- So are the definitions that were followed. -/
theorem told_followed {hit : Hit} (hmem : hit ∈ l.follow tree lookup)
    (hfollowed : followed =
      (l.follow tree lookup).flatMap (followedText tree fun _ => DEFINITION_BELOW))
    (hshows : ∀ before text after, answerText tree lookup ++ followed = before ++ (text ++ after) →
      Ascii text → utf8Len before < room → Shows cut text)
    (hsaid : cut <:+: said)
    (hvain : (definitionRead (fun _ => DEFINITION_BELOW) hit).key quoted ∉
      l.inVain tree lookup room) :
    Told tree said ((definitionRead (fun _ => DEFINITION_BELOW) hit).key quoted) := by
  rw [mem_inVain, not_or, not_or] at hvain
  obtain ⟨context, before, after, hok, heq, hlt⟩ := shown_of_not_cutAway hmem hvain.2.2
  refine ⟨_, context, rfl, hok, .inl ?_⟩
  refine (hshows (answerText tree lookup ++ before) (renderFound context) after ?_
    (ascii_renderFound context) (by rwa [utf8Len_append])).mono hsaid
  rw [hfollowed, heq, List.append_assoc]

end Answered

variable (tree) in
/-- What the ledger is after one lookup, and what was said. -/
structure Asked (policy : LookupPolicy) (l : Ledger) (said : Text) (lookup : Lookup) (l' : Ledger)
    (block : Block) : Prop where
  honest : l'.Honest tree (said ++ block.render)
  chars : l'.chars ≤ policy.maxChars + utf8Len TRUNCATED
  unshown : l.unshown ⊆ l'.unshown
  repeated : ∀ key, block = .repeated key → key = lookup.key quoted ∧ key ∈ l.seen
  refused : ∀ key maxChars, block = .refused key maxChars → key ∈ l'.unshown

theorem Ledger.Honest.ask {l : Ledger} {said : Text} {policy : LookupPolicy}
    (h : l.Honest tree said) (hchars : l.chars ≤ policy.maxChars + utf8Len TRUNCATED)
    (lookup : Lookup) : ∃ l' block, l.ask tree policy lookup = some (l', block) ∧
      Asked tree policy l said lookup l' block := by
  have hsaid : ∀ more, said <:+: said ++ more := fun more => (List.prefix_append _ _).isInfix
  unfold Ledger.ask
  by_cases hseen : lookup.key quoted ∈ l.seen
  · refine ⟨l, .repeated (lookup.key quoted), by simp [hseen], ?_, hchars, subset_rfl,
      fun key heq => ?_, nofun⟩
    · exact h.extend (hsaid _) subset_rfl fun key hkey => .inl hkey
    · cases heq
      exact ⟨rfl, hseen⟩
  by_cases hspent : l.chars ≥ policy.maxChars
  · refine ⟨(l.mark (lookup.key quoted)).hide {lookup.key quoted},
      .refused (lookup.key quoted) policy.maxChars, by simp [hseen, hspent], ?_, hchars, ?_, nofun,
      fun key maxChars heq => ?_⟩
    · refine h.extend (hsaid _) (by simp) fun key hkey => ?_
      rcases Finset.mem_insert.mp hkey with rfl | hold
      · exact .inr (.inl (by simp))
      · exact .inl hold
    · simp
    · cases heq
      simp
  · obtain ⟨room, hroom⟩ : ∃ room, checkedSub policy.maxChars l.chars = some room :=
      ⟨policy.maxChars - l.chars, if_pos (by omega)⟩
    have hpos := chars_of_room hroom
    obtain ⟨cut, hcut, hlen, hshows⟩ := cutTo_spec room (answerText tree lookup ++
      (l.follow tree lookup).flatMap (followedText tree fun _ => DEFINITION_BELOW))
    refine ⟨_, .answered (lookup.key quoted) cut, by simp [hseen, hspent, hroom, hcut]; rfl,
      ?_, ?_, by simp, nofun, nofun⟩
    · have hcutSaid := infix_render_answered said (lookup.key quoted) cut
      refine h.extend (hsaid _) (by simp) fun key hkey => ?_
      rw [charge_seen, hide_seen, mem_markReads_seen, mem_markAnswer_seen] at hkey
      rcases hkey with (hold | rfl | ⟨wide, hwide, rfl⟩) | ⟨hit, hmem, rfl⟩
      · exact .inl hold
      all_goals
        refine .inr (or_iff_not_imp_left.mpr fun hshown => ?_)
        have hvain := fun hvain => hshown (Finset.mem_union_right _ hvain)
      · exact told_asked (by omega) hshows hcutSaid hvain
      · exact told_wide hwide hshows hcutSaid hvain
      · exact told_followed hmem rfl hshows hcutSaid hvain
    · simp only [charge_chars, hide_chars, markReads_chars, markAnswer_chars]
      omega

end Told

end TinySweeper.Flows
