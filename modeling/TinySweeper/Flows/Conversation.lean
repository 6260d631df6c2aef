import TinySweeper.Flows.Seeded

/-!
# A whole conversation

A seed and any number of rounds over one ledger. A lookup that is called answered was told,
unless its key was marked in vain.
-/

namespace TinySweeper.Flows

open Text Evidence Ports

/-- One lookup as it was asked: what had been said, and what was marked in vain. -/
structure Ask where
  lookup : Lookup
  block : Block
  said : Text
  unshown : Finset Text

/-- A ledger, all that was said, and what was asked in turn. -/
structure Talk where
  ledger : Ledger
  said : Text
  asked : List Ask := []

section Talk

variable {quoted : Text → Text} (tree : TreeReader quoted) (policy : LookupPolicy)

/-- The lookups of one round as they are asked. -/
def asks : Ledger → (said : Text) → List Lookup → List Ask
  | _, _, [] => []
  | l, said, lookup :: rest =>
    match l.ask tree policy lookup with
    | some (l', block) => ⟨lookup, block, said, l.unshown⟩ :: asks l' (said ++ block.render) rest
    | none => []

def Talk.round (t : Talk) (lookups : List Lookup) : Option Talk :=
  (t.ledger.gather tree policy lookups).map fun (ledger, gathered) =>
    { ledger
      said := t.said ++ gathered.rendered
      asked := t.asked ++ asks tree policy t.ledger (t.said ++ GATHERED) lookups }

/-- A fresh ledger is seeded, and then asked round after round. -/
def converse (isUppercase : Char → Bool) (seedSymbols : FileDiff → List Text)
    (addedModulePaths : FileDiff → List AddedModulePaths) (diffs : List FileDiff)
    (rounds : List (List Lookup)) : Option Talk :=
  let (ledger, seeded) :=
    ({} : Ledger).seed tree policy isUppercase seedSymbols addedModulePaths diffs
  rounds.foldlM (Talk.round tree policy) { ledger, said := seeded.rendered }

/-- A lookup is called answered only when it was answered and what was found is told, and it was
not refused before. -/
def Sincere (before : List Ask) (ask : Ask) : Prop :=
  ∀ key, ask.block = .repeated key →
    (∃ twin found, twin.key quoted = ask.lookup.key quoted ∧ tree.lookup ask.lookup = .ok found ∧
      Rendered ask.said twin found) ∧
    ∀ earlier ∈ before, ∀ maxChars,
      earlier.block ≠ .refused (ask.lookup.key quoted) maxChars

/-- What holds between lookups. -/
structure Fair (l : Ledger) (said : Text) (asked : List Ask) : Prop where
  honest : l.Honest tree said
  chars : l.chars ≤ policy.maxChars + utf8Len TRUNCATED
  refused : ∀ ask ∈ asked, ∀ key maxChars, ask.block = .refused key maxChars → key ∈ l.unshown
  sincere : ∀ before ask after, asked = before ++ ask :: after →
    ask.lookup.key quoted ∉ ask.unshown → Sincere tree before ask

variable {tree policy}

theorem render_ne_nil (block : Block) : block.render ≠ [] := by
  unfold Block.render
  cases block <;> simp [List.append_assoc]

theorem Fair.say {l : Ledger} {said : Text} {asked : List Ask} (h : Fair tree policy l said asked)
    (more : Text) : Fair tree policy l (said ++ more) asked :=
  ⟨h.honest.extend (List.prefix_append _ _).isInfix subset_rfl fun _ hkey => .inl hkey, h.chars,
    h.refused, h.sincere⟩

theorem Fair.ask {l l' : Ledger} {said : Text} {asked : List Ask} {lookup : Lookup} {block : Block}
    (h : Fair tree policy l said asked) (hasked : Asked tree policy l said lookup l' block) :
    Fair tree policy l' (said ++ block.render) (asked ++ [⟨lookup, block, said, l.unshown⟩]) := by
  refine ⟨hasked.honest, hasked.chars, fun ask hask key maxChars hblock => ?_,
    fun before ask after hsplit hkey => ?_⟩
  · rcases List.mem_append.mp hask with hold | hnew
    · exact hasked.unshown (h.refused ask hold key maxChars hblock)
    · cases List.mem_singleton.mp hnew
      exact hasked.refused key maxChars hblock
  · rcases List.eq_nil_or_concat' after with rfl | ⟨init, last, rfl⟩
    · obtain ⟨rfl, hlast⟩ := List.append_inj' hsplit rfl
      cases hlast
      intro key hblock
      obtain ⟨rfl, hseen⟩ := hasked.repeated key hblock
      obtain ⟨twin, found, htwin, hfound, hrendered⟩ := (h.honest _ hseen).resolve_left hkey
      refine ⟨⟨twin, found, htwin, ?_, hrendered⟩, fun earlier hearlier maxChars hrefused => ?_⟩
      · exact (tree.keyed _ _ htwin).symm.trans hfound
      · exact hkey (h.refused earlier hearlier _ maxChars hrefused)
    · refine h.sincere before ask init ?_ hkey
      have hsplit' : asked ++ [⟨lookup, block, said, l.unshown⟩] =
          (before ++ ask :: init) ++ [last] := by
        simpa using hsplit
      exact (List.append_inj' hsplit' rfl).1

theorem Fair.askAll {l : Ledger} {said : Text} {asked : List Ask}
    (h : Fair tree policy l said asked) (lookups : List Lookup) :
    ∃ l' blocks, l.askAll tree policy lookups = some (l', blocks) ∧
      Fair tree policy l' (said ++ blocks.flatMap Block.render)
        (asked ++ asks tree policy l said lookups) := by
  induction lookups generalizing l said asked with
  | nil => exact ⟨l, [], rfl, by simpa [asks] using h⟩
  | cons lookup rest ih =>
    obtain ⟨l₁, block, hask, hasked⟩ := h.honest.ask h.chars lookup
    obtain ⟨l₂, blocks, hrest, hfair⟩ := ih (h.ask hasked)
    refine ⟨l₂, block :: blocks, ?_, ?_⟩
    · simp [Ledger.askAll, hask, hrest]
    · simpa [asks, hask] using hfair

theorem Fair.round {t : Talk} (h : Fair tree policy t.ledger t.said t.asked)
    (lookups : List Lookup) : ∃ t', t.round tree policy lookups = some t' ∧
      Fair tree policy t'.ledger t'.said t'.asked := by
  cases lookups with
  | nil =>
    refine ⟨t, ?_, h⟩
    simp [Talk.round, Ledger.gather, Ledger.askAll, asks]
  | cons lookup rest =>
    obtain ⟨l, blocks, hall, hfair⟩ := (h.say GATHERED).askAll (lookup :: rest)
    have hout : blocks.flatMap Block.render ≠ [] := by
      cases blocks with
      | nil =>
        obtain ⟨l₁, block, hask, -⟩ := h.honest.ask h.chars lookup
        simp only [Ledger.askAll, hask] at hall
        simp [Option.bind_eq_some_iff] at hall
      | cons block blocks =>
        rw [List.flatMap_cons]
        exact List.append_ne_nil_of_left_ne_nil (render_ne_nil block) _
    have hgather : t.ledger.gather tree policy (lookup :: rest) =
        some (l, ⟨GATHERED ++ blocks.flatMap Block.render, blocks.countP Block.isAnswered⟩) := by
      rw [Ledger.gather, hall, Option.map_some]
      dsimp only
      rw [if_neg hout]
    refine ⟨⟨l, t.said ++ (GATHERED ++ blocks.flatMap Block.render),
      t.asked ++ asks tree policy t.ledger (t.said ++ GATHERED) (lookup :: rest)⟩, ?_, ?_⟩
    · rw [Talk.round, hgather]
      rfl
    · rwa [← List.append_assoc]

theorem Fair.rounds {t : Talk} (h : Fair tree policy t.ledger t.said t.asked)
    (rounds : List (List Lookup)) : ∃ t', rounds.foldlM (Talk.round tree policy) t = some t' ∧
      Fair tree policy t'.ledger t'.said t'.asked := by
  induction rounds generalizing t with
  | nil => exact ⟨t, rfl, h⟩
  | cons lookups rest ih =>
    obtain ⟨t₁, hround, hfair⟩ := h.round lookups
    obtain ⟨t₂, hrest, hfair⟩ := ih hfair
    exact ⟨t₂, by rw [List.foldlM_cons, hround]; exact hrest, hfair⟩

variable (tree policy) (isUppercase : Char → Bool) (seedSymbols : FileDiff → List Text)
  (addedModulePaths : FileDiff → List AddedModulePaths) (diffs : List FileDiff)
  (rounds : List (List Lookup))

theorem converse_fair :
    ∃ talk, converse tree policy isUppercase seedSymbols addedModulePaths diffs rounds = some talk ∧
      Fair tree policy talk.ledger talk.said talk.asked := by
  obtain ⟨hhonest, hchars⟩ := seed_honest tree policy isUppercase seedSymbols addedModulePaths diffs
    rfl
  exact Fair.rounds ⟨hhonest, hchars.trans (Nat.le_add_right _ _), by simp, by simp⟩ rounds

/-- In every conversation nothing panics and the ceiling holds up to one notice; a lookup that is
called answered was told, and not refused, unless its key was marked in vain. -/
theorem answered_if_told :
    ∃ talk, converse tree policy isUppercase seedSymbols addedModulePaths diffs rounds = some talk ∧
      talk.ledger.chars ≤ policy.maxChars + utf8Len TRUNCATED ∧
      ∀ before ask after, talk.asked = before ++ ask :: after →
        ask.lookup.key quoted ∉ ask.unshown → Sincere tree before ask := by
  obtain ⟨talk, htalk, hfair⟩ :=
    converse_fair tree policy isUppercase seedSymbols addedModulePaths diffs rounds
  exact ⟨talk, htalk, hfair.chars, hfair.sincere⟩

end Talk

/-- Whatever it is asked, nothing is there. -/
def emptyTree : TreeReader id := ⟨fun _ => .ok .notFound, fun _ _ _ => rfl⟩

def readOf (path : String) : Lookup := .read path.toList none none

def refusedTalk : Option Talk :=
  converse emptyTree ⟨10⟩ Char.isUpper (fun _ => []) (fun _ => []) []
    [[readOf "a.rs", readOf "b.rs"], [readOf "b.rs"]]

/-- The second lookup is refused for budget, and called answered when it is asked again. -/
theorem refused_called_answered : ∃ talk before ask, refusedTalk = some talk ∧
    talk.asked = before ++ [ask] ∧ ask.lookup = readOf "b.rs" ∧ ¬ Sincere emptyTree before ask := by
  obtain ⟨talk, htalk, -⟩ := converse_fair emptyTree ⟨10⟩ Char.isUpper (fun _ => []) (fun _ => []) []
    [[readOf "a.rs", readOf "b.rs"], [readOf "b.rs"]]
  have hasked : refusedTalk.map (fun talk => talk.asked.map fun ask => (ask.lookup, ask.block)) =
      some [(readOf "a.rs", .answered "read a.rs:1-".toList
          ("No such fi".toList ++ TRUNCATED)),
        (readOf "b.rs", .refused "read b.rs:1-".toList 10),
        (readOf "b.rs", .repeated "read b.rs:1-".toList)] := by
    decide +kernel
  rw [show refusedTalk = some talk from htalk, Option.map_some, Option.some.injEq] at hasked
  obtain ⟨first, later, hsplit, hfirst, hlater⟩ := List.map_eq_cons_iff.mp hasked
  obtain ⟨second, last, rfl, hsecond, hlast⟩ := List.map_eq_cons_iff.mp hlater
  obtain ⟨third, none, rfl, hthird, hnone⟩ := List.map_eq_cons_iff.mp hlast
  cases List.map_eq_nil_iff.mp hnone
  refine ⟨talk, [first, second], third, htalk, hsplit, congrArg Prod.fst hthird, fun hsincere => ?_⟩
  obtain ⟨-, hrefused⟩ := hsincere _ (congrArg Prod.snd hthird)
  have hkey : third.lookup.key id = "read b.rs:1-".toList := by
    rw [show third.lookup = readOf "b.rs" from congrArg Prod.fst hthird]
    decide
  refine hrefused second (by simp) 10 ?_
  rw [hkey]
  exact congrArg Prod.snd hsecond

end TinySweeper.Flows
