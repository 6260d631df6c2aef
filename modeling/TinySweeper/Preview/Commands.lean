import TinySweeper.Delimited
import TinySweeper.Markdown.Prose

/-!
# Commands for the browser

A model drives a browser through one flow. What it answers is read command by command,
and a command that is not sound is dropped without costing the sound ones beside it.
-/

namespace TinySweeper.Preview

open Text Markdown

def MAX_SCREENSHOTS : ℕ := 4

def MAX_BATCH : ℕ := 8

def MAX_WAIT_MS : ℕ := 5000

def MAX_CALLOUTS : ℕ := 3

def MAX_LABEL : ℕ := 48

variable (isAlphanumeric : Char → Bool)

/-- The characters that may be printed. -/
def isSafe (c : Char) : Bool := isAlphanumeric c || " .,:;'\"()-/&!?_#+%@".toList.contains c

/-- Filtered to a safe alphabet and cut to length. -/
def text (s : Text) (limit : ℕ) : Text :=
  let trimmed := [' '].intercalate (splitWhitespace (s.filter (isSafe isAlphanumeric)))
  if trimmed.length ≤ limit then trimmed
  else trimEnd (trimmed.take (limit - 1)) ++ ['…']

/-- What may be printed in a place of this length. -/
structure Printable (limit : ℕ) (s : Text) : Prop where
  short : s.length ≤ limit
  safe : ∀ c ∈ s, isSafe isAlphanumeric c = true ∨ c = '…'

variable {isAlphanumeric} in
theorem isSafe_of_mem_joined {s : Text} {c : Char}
    (hc : c ∈ [' '].intercalate (splitWhitespace (s.filter (isSafe isAlphanumeric)))) :
    isSafe isAlphanumeric c = true := by
  have hblank : isSafe isAlphanumeric ' ' = true := by
    rw [isSafe, Bool.or_eq_true]
    exact .inr rfl
  rcases mem_intercalate hc with hc | ⟨piece, hpiece, hc⟩
  · rw [List.mem_singleton.mp hc]
    exact hblank
  · have hsplit := (splitOnP_pieces isWhitespace _).2 piece (List.mem_filter.mp hpiece).1
    exact (List.mem_filter.mp (hsplit.subset hc)).2

theorem printable_text (s : Text) {limit : ℕ} (hlimit : 0 < limit) :
    Printable isAlphanumeric limit (text isAlphanumeric s limit) := by
  simp only [text]
  split_ifs with hshort
  · exact ⟨hshort, fun c hc => .inl (isSafe_of_mem_joined hc)⟩
  · have hkept := List.rdropWhile_prefix isWhitespace
      (([' '].intercalate (splitWhitespace (s.filter (isSafe isAlphanumeric)))).take (limit - 1))
    constructor
    · have hlength := hkept.length_le
      rw [List.length_append, List.length_singleton, trimEnd]
      rw [List.length_take] at hlength
      omega
    · intro c hc
      rcases List.mem_append.mp hc with hc | hc
      · exact .inl (isSafe_of_mem_joined (List.mem_of_mem_take (hkept.subset hc)))
      · exact .inr (List.mem_singleton.mp hc)

/-- A path of the same origin: it starts with a slash and names no scheme and no authority. -/
def isPath (s : Text) : Bool :=
  let s := trim s
  ['/'].isPrefixOf s && !("//".toList.isPrefixOf s) && !(contains s "://".toList) &&
    decide (utf8Len s ≤ 512) && !(s.any isWhitespace)

inductive Locator where
  | role (role : Text) (name : Option Text) (exact : Bool)
  | label (text : Text)
  | text (text : Text) (exact : Bool)
  | placeholder (text : Text)
  | testId (id : Text)
  deriving DecidableEq

structure CalloutRequest where
  locator : Locator
  label : Text
  deriving DecidableEq

inductive Command where
  | goto (path : Text)
  | click (locator : Locator)
  | fill (locator : Locator) (value : Text)
  | press (key : Text)
  | select (locator : Locator) (value : Text)
  | hover (locator : Locator)
  | wait (locator : Option Locator) (ms : Option ℕ)
  | screenshot (id : Text)
  | annotate (shot : Text) (callouts : List CalloutRequest)
  | record (start : Bool)
  | done (reason : Text)
  deriving DecidableEq

/-- `record` and `done` are bookkeeping, not steps. -/
def Command.isStep : Command → Bool
  | .record _ | .done _ => false
  | _ => true

def Command.isDone : Command → Bool
  | .done _ => true
  | _ => false

/-- The screenshot a command takes. -/
def Command.shot? : Command → Option Text
  | .screenshot id => some id
  | _ => none

/-- Text the hands match against the page. -/
structure Clean (s : Text) : Prop where
  nonempty : s ≠ []
  short : s.length ≤ 200
  plain : ∀ c ∈ s, isControl c = false
  trimmed : trim s = s

def Locator.Sound : Locator → Prop
  | .role kind name _ => Clean kind ∧ ∀ n ∈ name, Clean n
  | .label s | .text s _ | .placeholder s | .testId s => Clean s

structure CalloutRequest.Sound (c : CalloutRequest) : Prop where
  locator : c.locator.Sound
  nonempty : c.label ≠ []
  printable : Printable isAlphanumeric MAX_LABEL c.label

/-- What may be sent to the hands. -/
def Command.Sound : Command → Prop
  | .goto path => isPath path = true ∧ trim path = path
  | .click locator | .hover locator => locator.Sound
  | .fill locator value => locator.Sound ∧ value.length ≤ 500
  | .select locator value => locator.Sound ∧ value.length ≤ 200
  | .press key => key ≠ [] ∧ utf8Len key ≤ 32
  | .wait locator ms => (∀ l ∈ locator, l.Sound) ∧ (∀ m ∈ ms, m ≤ MAX_WAIT_MS) ∧
      (locator.isSome ∨ ms.isSome)
  | .screenshot id => id ≠ [] ∧ Printable isAlphanumeric 16 id
  | .annotate _ callouts => callouts ≠ [] ∧ callouts.length ≤ MAX_CALLOUTS ∧
      ∀ c ∈ callouts, c.Sound isAlphanumeric
  | .record _ => True
  | .done reason => reason.length ≤ 120

/-- A command after these screenshots: only the session starts and stops the recorder. -/
def Command.Fits (screenshots : List Text) : Command → Prop
  | .screenshot _ => screenshots.length < MAX_SCREENSHOTS
  | .annotate shot _ => shot ∈ screenshots
  | .record _ => False
  | _ => True

structure WireLocator where
  kind : String
  role : Option Text
  name : Option Text
  text : Option Text
  id : Option Text
  exact : Option Bool

structure WireCallout where
  locator : Option WireLocator
  label : Text

structure WireCommand where
  op : String
  path : Option Text
  locator : Option WireLocator
  value : Option Text
  key : Option Text
  ms : Option ℕ
  id : Option Text
  shot : Option Text
  callouts : Option (List WireCallout)
  reason : Option Text

/-- Text that has to match the page: trimmed, capped and rid of control characters only. -/
def clean (s : Option Text) : Option Text :=
  (s.map fun s => trim ((s.filter fun c => !isControl c).take 200)).filter fun s => !s.isEmpty

/-- A wire locator, or nothing when it names no element. -/
def locator (wire : Option WireLocator) : Option Locator :=
  wire.bind fun wire =>
    match wire.kind with
    | "role" => (clean wire.role).map fun role =>
        .role role (clean wire.name) (wire.exact.getD false)
    | "label" => (clean wire.text).map .label
    | "text" => (clean wire.text).map fun text => .text text (wire.exact.getD false)
    | "placeholder" => (clean wire.text).map .placeholder
    | "test_id" => (clean wire.id).map .testId
    | _ => none

def callout (wire : WireCallout) : Option CalloutRequest :=
  (locator wire.locator).map fun locator => ⟨locator, text isAlphanumeric wire.label MAX_LABEL⟩

/-- One command of the answer, or nothing when it is not sound. -/
def command (screenshots : List Text) (wire : WireCommand) : Option Command :=
  match wire.op with
  | "goto" => (wire.path.filter isPath).map fun path => .goto (trim path)
  | "click" => (locator wire.locator).map .click
  | "hover" => (locator wire.locator).map .hover
  | "fill" => (locator wire.locator).bind fun locator =>
      wire.value.map fun value => .fill locator (value.take 500)
  | "select" => (locator wire.locator).bind fun locator =>
      wire.value.map fun value => .select locator (value.take 200)
  | "press" => (wire.key.filter fun key => !key.isEmpty && decide (utf8Len key ≤ 32)).map .press
  | "wait" =>
    let locator := locator wire.locator
    let ms := wire.ms.map fun ms => min ms MAX_WAIT_MS
    if locator.isSome || ms.isSome then some (.wait locator ms) else none
  | "screenshot" =>
    if MAX_SCREENSHOTS ≤ screenshots.length then none
    else ((wire.id.map fun id => text isAlphanumeric id 16).filter fun id => !id.isEmpty).map
      .screenshot
  | "annotate" =>
    ((wire.shot.map fun shot => text isAlphanumeric shot 16).filter screenshots.contains).bind
      fun shot =>
        let callouts := (((wire.callouts.getD []).filterMap (callout isAlphanumeric)).filter
          fun c => !c.label.isEmpty).take MAX_CALLOUTS
        if callouts = [] then none else some (.annotate shot callouts)
  | "done" => some (.done (text isAlphanumeric (wire.reason.getD "done".toList) 120))
  | _ => none

/-- The commands up to the first `done`, and the screenshots taken by then. -/
def parseCommands : List Text → List WireCommand → List Command × List Text
  | screenshots, [] => ([], screenshots)
  | screenshots, wire :: rest =>
    match command isAlphanumeric screenshots wire with
    | none => parseCommands screenshots rest
    | some c =>
      if c.isDone then ([c], screenshots)
      else
        let parsed := parseCommands (screenshots ++ c.shot?.toList) rest
        (c :: parsed.1, parsed.2)

/-- `none` is an answer that does not have the shape of one. -/
def parse (answer : Option (List WireCommand)) (screenshots : List Text) :
    List Command × List Text :=
  match answer with
  | none => ([], screenshots)
  | some commands => parseCommands isAlphanumeric screenshots (commands.take MAX_BATCH)

theorem clean_some_sound {s t : Text} (h : clean (some s) = some t) : Clean t := by
  unfold clean at h
  obtain ⟨hmap, hne⟩ := Option.filter_eq_some_iff.mp h
  have ht : trim ((s.filter fun c => !isControl c).take 200) = t := by simpa using hmap
  have hkept : t <:+: (s.filter fun c => !isControl c).take 200 := ht ▸ trim_infix_self _
  refine ⟨by simpa using hne, ?_, ?_, ?_⟩
  · exact hkept.length_le.trans (List.length_take_le 200 _)
  · intro c hc
    have hmem := (List.mem_filter.mp (List.mem_of_mem_take (hkept.subset hc))).2
    simpa using hmem
  · rw [← ht, trim_trim]

theorem clean_sound {s : Option Text} {t : Text} (h : clean s = some t) : Clean t := by
  cases s with
  | none => simp [clean] at h
  | some s => exact clean_some_sound h

theorem locator_sound {wire : Option WireLocator} {l : Locator} (h : locator wire = some l) :
    l.Sound := by
  obtain ⟨wire, -, hread⟩ := Option.bind_eq_some_iff.mp h
  split at hread
  · obtain ⟨role, hrole, rfl⟩ := Option.map_eq_some_iff.mp hread
    exact ⟨clean_sound hrole, fun n hn => clean_sound hn⟩
  iterate 4
    obtain ⟨text, htext, rfl⟩ := Option.map_eq_some_iff.mp hread
    exact clean_sound htext
  cases hread

theorem callout_sound {wire : WireCallout} {c : CalloutRequest}
    (h : callout isAlphanumeric wire = some c) (hne : c.label ≠ []) : c.Sound isAlphanumeric := by
  obtain ⟨l, hl, rfl⟩ := Option.map_eq_some_iff.mp h
  exact ⟨locator_sound hl, hne, printable_text isAlphanumeric _ (by decide)⟩

theorem isPath_trim {s : Text} (h : isPath s = true) : isPath (trim s) = true := by
  unfold isPath at h ⊢
  rwa [trim_trim]

/-- What is read from an answer may be sent to the hands after these screenshots. -/
theorem command_sound {screenshots : List Text} {wire : WireCommand} {c : Command}
    (h : command isAlphanumeric screenshots wire = some c) :
    c.Sound isAlphanumeric ∧ c.Fits screenshots := by
  unfold command at h
  split at h
  case h_1 =>
    obtain ⟨path, hpath, rfl⟩ := Option.map_eq_some_iff.mp h
    exact ⟨⟨isPath_trim (Option.filter_eq_some_iff.mp hpath).2, trim_trim path⟩, trivial⟩
  case h_2 | h_3 =>
    obtain ⟨l, hl, rfl⟩ := Option.map_eq_some_iff.mp h
    exact ⟨locator_sound hl, trivial⟩
  case h_4 | h_5 =>
    obtain ⟨l, hl, hvalue⟩ := Option.bind_eq_some_iff.mp h
    obtain ⟨value, -, rfl⟩ := Option.map_eq_some_iff.mp hvalue
    exact ⟨⟨locator_sound hl, List.length_take_le _ _⟩, trivial⟩
  case h_6 =>
    obtain ⟨key, hkey, rfl⟩ := Option.map_eq_some_iff.mp h
    have hkept := (Option.filter_eq_some_iff.mp hkey).2
    rw [Bool.and_eq_true, decide_eq_true_eq] at hkept
    exact ⟨⟨by simpa using hkept.1, hkept.2⟩, trivial⟩
  case h_7 =>
    dsimp only at h
    split_ifs at h with hsome
    cases h
    refine ⟨⟨fun l hl => locator_sound hl, fun m hm => ?_, by simpa using hsome⟩, trivial⟩
    obtain ⟨ms, -, rfl⟩ := Option.map_eq_some_iff.mp hm
    exact min_le_right _ _
  case h_8 =>
    split_ifs at h with hfull
    obtain ⟨id, hid, rfl⟩ := Option.map_eq_some_iff.mp h
    obtain ⟨hmap, hne⟩ := Option.filter_eq_some_iff.mp hid
    obtain ⟨named, -, rfl⟩ := Option.map_eq_some_iff.mp hmap
    exact ⟨⟨by simpa using hne, printable_text isAlphanumeric named (by decide)⟩, not_le.mp hfull⟩
  case h_9 =>
    obtain ⟨shot, hshot, hcallouts⟩ := Option.bind_eq_some_iff.mp h
    dsimp only at hcallouts
    split_ifs at hcallouts with hne
    cases hcallouts
    have htaken : shot ∈ screenshots := by simpa using (Option.filter_eq_some_iff.mp hshot).2
    refine ⟨⟨hne, List.length_take_le _ _, fun c hc => ?_⟩, htaken⟩
    obtain ⟨hread, hlabel⟩ := List.mem_filter.mp (List.mem_of_mem_take hc)
    obtain ⟨wire, -, hwire⟩ := List.mem_filterMap.mp hread
    exact callout_sound isAlphanumeric hwire (by simpa using hlabel)
  case h_10 =>
    cases h
    exact ⟨(printable_text isAlphanumeric _ (by decide)).short, trivial⟩
  case h_11 => cases h

/-- Each command of a list fits the screenshots taken before it. -/
def Fitting : List Text → List Command → Prop
  | _, [] => True
  | screenshots, c :: rest => c.Fits screenshots ∧ Fitting (screenshots ++ c.shot?.toList) rest

theorem fitting_append {screenshots : List Text} {before after : List Command} :
    Fitting screenshots (before ++ after) ↔ Fitting screenshots before ∧
      Fitting (screenshots ++ before.filterMap Command.shot?) after := by
  induction before generalizing screenshots with
  | nil => simp [Fitting]
  | cons c before ih =>
    have hshots : (c :: before).filterMap Command.shot? =
        c.shot?.toList ++ before.filterMap Command.shot? := by
      cases hc : c.shot? <;> simp [hc]
    rw [List.cons_append, Fitting, Fitting, ih, hshots, List.append_assoc, and_assoc]

/-- An annotation points at a screenshot that an earlier command takes. -/
theorem Fitting.annotated {screenshots : List Text} {before after : List Command} {shot : Text}
    {callouts : List CalloutRequest}
    (h : Fitting screenshots (before ++ .annotate shot callouts :: after)) :
    shot ∈ screenshots ++ before.filterMap Command.shot? :=
  (fitting_append.mp h).2.1

theorem Fitting.shots_le {screenshots : List Text} {commands : List Command}
    (h : Fitting screenshots commands) (hfull : screenshots.length ≤ MAX_SCREENSHOTS) :
    (screenshots ++ commands.filterMap Command.shot?).length ≤ MAX_SCREENSHOTS := by
  induction commands generalizing screenshots with
  | nil => simpa using hfull
  | cons c commands ih =>
    cases hc : c.shot? with
    | none =>
      rw [List.filterMap_cons_none hc]
      have hrest := h.2
      rw [hc, Option.toList_none, List.append_nil] at hrest
      exact ih hrest hfull
    | some id =>
      rw [List.filterMap_cons_some hc]
      have hrest := h.2
      rw [hc, Option.toList_some] at hrest
      have hroom : screenshots.length < MAX_SCREENSHOTS := by
        have hfits := h.1
        cases c with
        | screenshot => exact hfits
        | _ => cases hc
      have hcount := ih hrest (by rw [List.length_append, List.length_singleton]; omega)
      rwa [List.append_assoc, List.singleton_append] at hcount

/-- The commands of an answer after some screenshots: steps, and then perhaps a `done`. -/
structure Parsed (screenshots : List Text) (parsed : List Command × List Text)
    (steps : List Command) (ending : Option Text) : Prop where
  commands : parsed.1 = steps ++ (ending.map Command.done).toList
  isStep : ∀ c ∈ steps, c.isStep = true
  sound : ∀ c ∈ parsed.1, c.Sound isAlphanumeric
  fitting : Fitting screenshots steps
  screenshots : parsed.2 = screenshots ++ steps.filterMap Command.shot?

theorem parseCommands_spec (screenshots : List Text) (wires : List WireCommand) :
    ∃ steps ending, Parsed isAlphanumeric screenshots
      (parseCommands isAlphanumeric screenshots wires) steps ending ∧
      steps.length ≤ wires.length := by
  induction wires generalizing screenshots with
  | nil =>
    refine ⟨[], none, ⟨rfl, List.forall_mem_nil _, List.forall_mem_nil _, trivial, ?_⟩, le_rfl⟩
    exact (List.append_nil _).symm
  | cons wire wires ih =>
    cases hread : command isAlphanumeric screenshots wire with
    | none =>
      obtain ⟨steps, ending, hparsed, hlength⟩ := ih screenshots
      refine ⟨steps, ending, ?_, hlength.trans (Nat.le_succ _)⟩
      rwa [parseCommands, hread]
    | some c =>
      obtain ⟨hsound, hfits⟩ := command_sound isAlphanumeric hread
      rw [parseCommands, hread]
      dsimp only
      cases hdone : c.isDone with
      | true =>
        obtain ⟨reason, rfl⟩ : ∃ reason, c = .done reason := by
          cases c with
          | done reason => exact ⟨reason, rfl⟩
          | _ => cases hdone
        refine ⟨[], some reason, ⟨rfl, List.forall_mem_nil _, ?_, trivial, ?_⟩, Nat.zero_le _⟩
        · simpa using hsound
        · exact (List.append_nil _).symm
      | false =>
        have hstep : c.isStep = true := by
          cases c with
          | record => exact hfits.elim
          | done => cases hdone
          | _ => rfl
        obtain ⟨steps, ending, hparsed, hlength⟩ := ih (screenshots ++ c.shot?.toList)
        have hshots : (c :: steps).filterMap Command.shot? =
            c.shot?.toList ++ steps.filterMap Command.shot? := by
          cases hc : c.shot? <;> simp [hc]
        refine ⟨c :: steps, ending, ⟨?_, ?_, ?_, ⟨hfits, hparsed.fitting⟩, ?_⟩,
          Nat.succ_le_succ hlength⟩
        · rw [if_neg (by simp), List.cons_append, ← hparsed.commands]
        · exact List.forall_mem_cons.mpr ⟨hstep, hparsed.isStep⟩
        · exact List.forall_mem_cons.mpr ⟨hsound, hparsed.sound⟩
        · rw [hshots, ← List.append_assoc]
          exact hparsed.screenshots

theorem parse_spec (answer : Option (List WireCommand)) (screenshots : List Text) :
    ∃ steps ending, Parsed isAlphanumeric screenshots
      (parse isAlphanumeric answer screenshots) steps ending ∧ steps.length ≤ MAX_BATCH := by
  cases answer with
  | none =>
    refine ⟨[], none, ⟨rfl, List.forall_mem_nil _, List.forall_mem_nil _, trivial, ?_⟩,
      Nat.zero_le _⟩
    exact (List.append_nil _).symm
  | some wires =>
    obtain ⟨steps, ending, hparsed, hlength⟩ :=
      parseCommands_spec isAlphanumeric screenshots (wires.take MAX_BATCH)
    exact ⟨steps, ending, hparsed, hlength.trans (List.length_take_le _ _)⟩

end TinySweeper.Preview
