import TinySweeper.Preview.Step

/-!
# What the hands uploaded

A manifest is written by a job in the reviewed repository, and a pull request can edit that
job. The server takes facts from it, and takes nothing unchecked that it acts on: it
composes every address itself, publishes only flows that it planned and drove, and prints
filtered text of a bounded length.
-/

namespace TinySweeper.Preview

open Text

/-- The manifest schema this server understands. -/
def MANIFEST_VERSION : ℕ := 1

def MAX_CHANGES_PER_FLOW : ℕ := 6

def MAX_TITLE : ℕ := 90

inductive FlowStatus where
  | ok
  /-- The base build failed a step. -/
  | beforeFailed
  /-- The head build failed a step. -/
  | failed
  deriving DecidableEq

structure Callout where
  n : ℕ
  label : Text
  deriving DecidableEq

structure Change where
  n : ℕ
  step : ℕ
  path : Text
  full : Text
  crop : Text
  before : Option Text
  callouts : List Callout
  deriving DecidableEq

structure Clip where
  video : Text
  gif : Text
  deriving DecidableEq

structure FlowResult where
  id : Text
  title : Text
  status : FlowStatus
  failedAt : Option ℕ
  clip : Option Clip
  changes : List Change
  deriving DecidableEq

structure Manifest where
  version : ℕ
  repo : Text
  pullRequest : ℕ
  headSha : Text
  baseSha : Text
  run : Text
  flows : List FlowResult
  deriving DecidableEq

/-- What the session was opened for. -/
structure Expected where
  repo : Text
  number : ℕ
  headSha : Text
  deriving DecidableEq

structure GalleryChange where
  fullUrl : Text
  cropUrl : Text
  beforeUrl : Option Text
  path : Text
  callouts : List Callout
  deriving DecidableEq

structure GalleryFlow where
  id : Text
  title : Text
  caption : Option Text
  isNew : Bool
  /-- The addresses of the video and of its preview. -/
  clip : Option (Text × Text)
  changes : List GalleryChange
  deriving DecidableEq

structure Gallery where
  number : ℕ
  headSha : Text
  flows : List GalleryFlow
  emptyFlows : ℕ
  droppedFlows : ℕ
  deriving DecidableEq

def isSegmentChar (c : Char) : Bool := c.isAlphanum || c = '.' || c = '_' || c = '-'

/-- One path segment of the allowed alphabet. -/
def isSegment (s : Text) : Bool := !s.isEmpty && s.head? ≠ some '.' && s.all isSegmentChar

/-- A file with an extension that the comment can show. -/
def isAssetFile (file : Text) : Bool :=
  isSegment file &&
    [".png".toList, ".gif".toList, ".mp4".toList, ".webm".toList].any (·.isSuffixOf file)

/-- A relative path of one or two segments. -/
def isAssetPath (path : Text) : Bool :=
  match path.splitOn '/' with
  | [file] => isAssetFile file
  | [dir, file] => isSegment dir && isAssetFile file
  | _ => false

/-- What an accepted path is: it cannot name a host, nor leave its directory. -/
structure AssetPath (path : Text) : Prop where
  short : (path.splitOn '/').length ≤ 2
  plain : ∀ segment ∈ path.splitOn '/',
    segment ≠ [] ∧ segment.head? ≠ some '.' ∧ ∀ c ∈ segment, isSegmentChar c = true

theorem isSegment_iff {s : Text} :
    isSegment s = true ↔
      s ≠ [] ∧ s.head? ≠ some '.' ∧ ∀ c ∈ s, isSegmentChar c = true := by
  simp [isSegment, and_assoc]

theorem AssetPath.of_isAssetPath {path : Text} (h : isAssetPath path = true) :
    AssetPath path := by
  unfold isAssetPath at h
  split at h
  · rename_i file hsplit
    rw [isAssetFile, Bool.and_eq_true] at h
    refine ⟨by rw [hsplit]; simp, ?_⟩
    rw [hsplit]
    exact List.forall_mem_singleton.mpr (isSegment_iff.mp h.1)
  · rename_i dir file hsplit
    rw [isAssetFile, Bool.and_eq_true, Bool.and_eq_true] at h
    refine ⟨by rw [hsplit]; simp, ?_⟩
    rw [hsplit]
    exact List.forall_mem_cons.mpr ⟨isSegment_iff.mp h.1,
      List.forall_mem_singleton.mpr (isSegment_iff.mp h.2.1)⟩
  · cases h

section Validation

variable (isAlphanumeric : Char → Bool)

/-- The address of everything that a run uploaded, up to its path. -/
def runPrefix (baseUrl : Text) (manifest : Manifest) : Text :=
  baseUrl.rdropWhile (· = '/') ++ ['/'] ++ manifest.repo ++ ['/'] ++ manifest.headSha ++ ['/'] ++
    manifest.run ++ ['/']

def assetUrl (address path : Text) : Except Text Text :=
  if isAssetPath path then .ok (address ++ path)
  else .error ("manifest names \x60".toList ++ path ++
    "\x60, which is not a relative asset path".toList)

def beforeUrl (address : Text) : Option Text → Except Text (Option Text)
  | none => .ok none
  | some path => (assetUrl address path).map some

def galleryChange (address : Text) (change : Change) : Except Text GalleryChange := do
  let fullUrl ← assetUrl address change.full
  let cropUrl ← assetUrl address change.crop
  let beforeUrl ← beforeUrl address change.before
  .ok {
    fullUrl := fullUrl
    cropUrl := cropUrl
    beforeUrl := beforeUrl
    path := text isAlphanumeric change.path MAX_TITLE
    callouts := (change.callouts.take MAX_CALLOUTS).map fun callout =>
      { callout with label := text isAlphanumeric callout.label MAX_LABEL } }

def galleryChanges (address : Text) : List Change → Except Text (List GalleryChange)
  | [] => .ok []
  | change :: rest => do
    let shown ← galleryChange isAlphanumeric address change
    let others ← galleryChanges address rest
    .ok (shown :: others)

def galleryClip (address : Text) : Option Clip → Except Text (Option (Text × Text))
  | none => .ok none
  | some clip => do
    let video ← assetUrl address clip.video
    let gif ← assetUrl address clip.gif
    .ok (some (video, gif))

/-- What is shown of a flow; nothing is, unless it was planned and driven and its head build
did not fail. -/
def galleryFlow (address : Text) (planned : List Flow) (driven : List Text)
    (flow : FlowResult) : Except Text (Option GalleryFlow) :=
  match planned.find? (·.id = flow.id) with
  | none => .ok none
  | some plan =>
    if flow.id ∉ driven then .ok none
    else do
      let changes ← galleryChanges isAlphanumeric address (flow.changes.take MAX_CHANGES_PER_FLOW)
      let clip ← galleryClip address flow.clip
      if flow.status = .failed ∨ changes = [] ∧ clip = none then .ok none
      else
        .ok (some {
          id := text isAlphanumeric flow.id 16
          title := text isAlphanumeric plan.title MAX_TITLE
          caption := none
          isNew := flow.status = .beforeFailed
          clip := clip
          changes := changes })

/-- The flows that are shown, and how many are not. -/
def galleryFlows (address : Text) (planned : List Flow) (driven : List Text) :
    List FlowResult → List GalleryFlow → ℕ → Except Text (List GalleryFlow × ℕ)
  | [], flows, emptyFlows => .ok (flows, emptyFlows)
  | flow :: rest, flows, emptyFlows => do
    match ← galleryFlow isAlphanumeric address planned driven flow with
    | none => galleryFlows address planned driven rest flows (emptyFlows + 1)
    | some shown => galleryFlows address planned driven rest (flows ++ [shown]) emptyFlows

/-- A manifest checked against the session it claims to come from. -/
def validate (manifest : Manifest) (expected : Expected) (baseUrl : Text) (maxFlows : ℕ)
    (planned : List Flow) (driven : List Text) : Except Text Gallery :=
  if manifest.version ≠ MANIFEST_VERSION then
    .error ("manifest version ".toList ++ decimal manifest.version ++ " is not ".toList ++
      decimal MANIFEST_VERSION)
  else if manifest.repo ≠ expected.repo then
    .error ("manifest is for \x60".toList ++ manifest.repo ++ "\x60, session is for \x60".toList ++
      expected.repo ++ "\x60".toList)
  else if manifest.pullRequest ≠ expected.number then
    .error ("manifest is for #".toList ++ decimal manifest.pullRequest ++
      ", session is for #".toList ++ decimal expected.number)
  else if manifest.headSha ≠ expected.headSha then
    .error ("manifest is for ".toList ++ manifest.headSha ++ ", session is for ".toList ++
      expected.headSha)
  else if !isSegment manifest.run || decide (utf8Len manifest.run > 64) then
    .error ("manifest run \x60".toList ++ manifest.run ++ "\x60 is not a plain name".toList)
  else if !isSegment manifest.headSha then
    .error "manifest head_sha is not a plain name".toList
  else do
    let (flows, emptyFlows) ← galleryFlows isAlphanumeric (runPrefix baseUrl manifest) planned
      driven (manifest.flows.take maxFlows) [] 0
    .ok {
      number := manifest.pullRequest
      headSha := manifest.headSha
      flows := flows
      emptyFlows := emptyFlows
      droppedFlows := manifest.flows.length - maxFlows }

end Validation

/-- The addresses of a picture. -/
def GalleryChange.urls (change : GalleryChange) : List Text :=
  [change.fullUrl, change.cropUrl] ++ change.beforeUrl.toList

def GalleryFlow.urls (flow : GalleryFlow) : List Text :=
  (flow.clip.elim [] fun clip => [clip.1, clip.2]) ++ flow.changes.flatMap GalleryChange.urls

/-- An address below the one of the run. -/
def Below (address url : Text) : Prop := ∃ path, AssetPath path ∧ url = address ++ path

section Published

variable (isAlphanumeric : Char → Bool)

/-- A picture as it may be published: it is the run's own, and prints filtered text. -/
structure PublishedChange (address : Text) (shown : GalleryChange) : Prop where
  urls : ∀ url ∈ shown.urls, Below address url
  path : Printable isAlphanumeric MAX_TITLE shown.path
  callouts : shown.callouts.length ≤ MAX_CALLOUTS
  labels : ∀ callout ∈ shown.callouts, Printable isAlphanumeric MAX_LABEL callout.label

/-- A flow as it may be published. Its title is the plan's. -/
structure Published (address : Text) (planned : List Flow) (driven : List Text)
    (flow : FlowResult) (shown : GalleryFlow) : Prop where
  planned : ∃ plan ∈ planned, plan.id = flow.id ∧
    shown.title = text isAlphanumeric plan.title MAX_TITLE
  driven : flow.id ∈ driven
  succeeded : flow.status ≠ .failed
  isNew : shown.isNew = true ↔ flow.status = .beforeFailed
  title : Printable isAlphanumeric MAX_TITLE shown.title
  uncaptioned : shown.caption = none
  something : shown.urls ≠ []
  changes : shown.changes.length ≤ MAX_CHANGES_PER_FLOW
  pictures : ∀ change ∈ shown.changes, PublishedChange isAlphanumeric address change
  urls : ∀ url ∈ shown.urls, Below address url

variable {isAlphanumeric}

theorem below_of_assetUrl {address path url : Text} (h : assetUrl address path = .ok url) :
    Below address url := by
  unfold assetUrl at h
  split_ifs at h with hasset
  exact ⟨path, .of_isAssetPath hasset, (Except.ok.inj h).symm⟩

theorem below_of_beforeUrl {address : Text} {before shown : Option Text}
    (h : beforeUrl address before = .ok shown) : ∀ url, shown = some url → Below address url := by
  intro url hurl
  subst hurl
  cases before with
  | none => cases h
  | some path =>
    rw [beforeUrl] at h
    cases hpath : assetUrl address path with
    | error err =>
      rw [hpath] at h
      cases h
    | ok found =>
      rw [hpath] at h
      rw [← Option.some.inj (Except.ok.inj h)]
      exact below_of_assetUrl hpath

theorem bind_eq_ok {ε α β : Type} {x : Except ε α} {f : α → Except ε β} {b : β}
    (h : x >>= f = .ok b) : ∃ a, x = .ok a ∧ f a = .ok b := by
  cases x with
  | error e => cases h
  | ok a => exact ⟨a, rfl, h⟩

theorem galleryChange_published {address : Text} {change : Change} {shown : GalleryChange}
    (h : galleryChange isAlphanumeric address change = .ok shown) :
    PublishedChange isAlphanumeric address shown := by
  unfold galleryChange at h
  obtain ⟨fullUrl, hfull, h⟩ := bind_eq_ok h
  obtain ⟨cropUrl, hcrop, h⟩ := bind_eq_ok h
  obtain ⟨beforeUrl, hbefore, h⟩ := bind_eq_ok h
  obtain rfl := Except.ok.inj h
  refine ⟨?_, printable_text isAlphanumeric _ (by decide), ?_, ?_⟩
  · intro url hurl
    simp only [GalleryChange.urls, List.mem_append, List.mem_cons, List.not_mem_nil, or_false,
      Option.mem_toList] at hurl
    rcases hurl with (rfl | rfl) | hurl
    · exact below_of_assetUrl hfull
    · exact below_of_assetUrl hcrop
    · exact below_of_beforeUrl hbefore url hurl
  · simp only [List.length_map, List.length_take]
    exact Nat.min_le_left _ _
  · intro callout hcallout
    obtain ⟨original, -, rfl⟩ := List.mem_map.mp hcallout
    exact printable_text isAlphanumeric _ (by decide)

theorem galleryChanges_published {address : Text} {changes : List Change}
    {shown : List GalleryChange}
    (h : galleryChanges isAlphanumeric address changes = .ok shown) :
    shown.length = changes.length ∧
      ∀ change ∈ shown, PublishedChange isAlphanumeric address change := by
  induction changes generalizing shown with
  | nil =>
    rw [← Except.ok.inj h]
    exact ⟨rfl, List.forall_mem_nil _⟩
  | cons change rest ih =>
    unfold galleryChanges at h
    obtain ⟨first, hfirst, h⟩ := bind_eq_ok h
    obtain ⟨others, hothers, h⟩ := bind_eq_ok h
    obtain ⟨hlength, hrest⟩ := ih hothers
    rw [← Except.ok.inj h]
    exact ⟨by rw [List.length_cons, List.length_cons, hlength],
      List.forall_mem_cons.mpr ⟨galleryChange_published hfirst, hrest⟩⟩

theorem galleryClip_below {address : Text} {clip : Option Clip} {shown : Option (Text × Text)}
    (h : galleryClip address clip = .ok shown) :
    ∀ url ∈ shown.elim [] fun clip => [clip.1, clip.2], Below address url := by
  cases clip with
  | none =>
    rw [← Except.ok.inj h]
    exact List.forall_mem_nil _
  | some clip =>
    unfold galleryClip at h
    obtain ⟨video, hvideo, h⟩ := bind_eq_ok h
    obtain ⟨gif, hgif, h⟩ := bind_eq_ok h
    rw [← Except.ok.inj h]
    exact List.forall_mem_cons.mpr ⟨below_of_assetUrl hvideo,
      List.forall_mem_singleton.mpr (below_of_assetUrl hgif)⟩

theorem galleryFlow_published {address : Text} {planned : List Flow} {driven : List Text}
    {flow : FlowResult} {shown : GalleryFlow}
    (h : galleryFlow isAlphanumeric address planned driven flow = .ok (some shown)) :
    Published isAlphanumeric address planned driven flow shown := by
  unfold galleryFlow at h
  cases hplan : planned.find? (·.id = flow.id) with
  | none =>
    rw [hplan] at h
    cases h
  | some plan =>
    rw [hplan] at h
    dsimp only at h
    split_ifs at h with hdriven
    swap
    · cases h
    obtain ⟨changes, hchanges, h⟩ := bind_eq_ok h
    obtain ⟨clip, hclip, h⟩ := bind_eq_ok h
    split_ifs at h with hnothing
    · cases h
    obtain rfl := Option.some.inj (Except.ok.inj h)
    rw [not_or, not_and_or] at hnothing
    obtain ⟨hlength, hpictures⟩ := galleryChanges_published hchanges
    have hid := List.find?_some hplan
    have hurls := galleryClip_below hclip
    constructor
    · exact ⟨plan, List.mem_of_find?_eq_some hplan, of_decide_eq_true hid, rfl⟩
    · exact hdriven
    · exact hnothing.1
    · exact decide_eq_true_iff
    · exact printable_text isAlphanumeric _ (by decide)
    · rfl
    · rw [GalleryFlow.urls, ne_eq, List.append_eq_nil_iff]
      rintro ⟨hclipless, hpictureless⟩
      rcases hnothing.2 with hsome | hsome
      · obtain ⟨change, rest, rfl⟩ := List.exists_cons_of_ne_nil hsome
        simp [GalleryChange.urls] at hpictureless
      · obtain ⟨pair, rfl⟩ := Option.ne_none_iff_exists'.mp hsome
        cases hclipless
    · rw [hlength, List.length_take]
      exact Nat.min_le_left _ _
    · exact hpictures
    · intro url hurl
      rcases List.mem_append.mp hurl with hurl | hurl
      · exact hurls url hurl
      · obtain ⟨change, hchange, hurl⟩ := List.mem_flatMap.mp hurl
        exact (hpictures change hchange).urls url hurl

/-- Every flow is shown or counted, and they are shown in the order they ran. -/
theorem galleryFlows_spec {address : Text} {planned : List Flow} {driven : List Text}
    {results : List FlowResult} {flows flows' : List GalleryFlow} {emptyFlows emptyFlows' : ℕ}
    (h : galleryFlows isAlphanumeric address planned driven results flows emptyFlows =
      .ok (flows', emptyFlows')) :
    flows'.length + emptyFlows' = flows.length + emptyFlows + results.length ∧
      ∃ ran shown, ran.Sublist results ∧ flows' = flows ++ shown ∧
        List.Forall₂ (Published isAlphanumeric address planned driven) ran shown := by
  induction results generalizing flows emptyFlows with
  | nil =>
    obtain ⟨rfl, rfl⟩ := Prod.mk.inj (Except.ok.inj h)
    exact ⟨rfl, [], [], .slnil, (List.append_nil _).symm, .nil⟩
  | cons result rest ih =>
    unfold galleryFlows at h
    obtain ⟨first, hfirst, h⟩ := bind_eq_ok h
    cases first with
    | none =>
      obtain ⟨hcount, ran, shown, hran, hflows, hpublished⟩ := ih h
      refine ⟨?_, ran, shown, hran.cons _, hflows, hpublished⟩
      rw [hcount, List.length_cons]
      omega
    | some shown =>
      obtain ⟨hcount, ran, others, hran, hflows, hpublished⟩ := ih h
      refine ⟨?_, result :: ran, shown :: others, hran.cons_cons _, ?_,
        .cons (galleryFlow_published hfirst) hpublished⟩
      · rw [hcount, List.length_append, List.length_singleton, List.length_cons]
        omega
      · rw [hflows, List.append_assoc]
        rfl

/-- The flows that are shown are the session's own, and none is lost without being counted. -/
theorem validate_flows {manifest : Manifest} {expected : Expected} {baseUrl : Text}
    {maxFlows : ℕ} {planned : List Flow} {driven : List Text} {gallery : Gallery}
    (h : validate isAlphanumeric manifest expected baseUrl maxFlows planned driven =
      .ok gallery) :
    ∃ run, isSegment run = true ∧ ∃ ran, ran.Sublist (manifest.flows.take maxFlows) ∧
      List.Forall₂
        (Published isAlphanumeric
          (baseUrl.rdropWhile (· = '/') ++ ['/'] ++ expected.repo ++ ['/'] ++
            expected.headSha ++ ['/'] ++ run ++ ['/'])
          planned driven) ran gallery.flows ∧
      gallery.number = expected.number ∧ gallery.headSha = expected.headSha ∧
      gallery.flows.length + gallery.emptyFlows + gallery.droppedFlows =
        manifest.flows.length := by
  unfold validate at h
  split_ifs at h with hversion hrepo hnumber hhead hrun hsegment
  obtain ⟨shown, hshown, h⟩ := bind_eq_ok h
  obtain ⟨hcount, ran, flows, hran, hflows, hpublished⟩ := galleryFlows_spec hshown
  rw [not_not] at hrepo hnumber hhead
  have hsegments : isSegment manifest.run = true := by
    by_contra hnot
    simp [hnot] at hrun
  rw [runPrefix, hrepo, hhead] at hpublished
  rw [← Except.ok.inj h]
  rw [List.nil_append] at hflows
  rw [← hflows] at hpublished
  refine ⟨manifest.run, hsegments, ran, hran, hpublished, hnumber, hhead, ?_⟩
  rw [List.length_nil, List.length_take] at hcount
  dsimp only
  omega

/-- Whatever a manifest says, what is published of it is the session's own: each flow was
planned and driven and has the plan's title, every address lies below the operator's, the
texts are filtered and the lists are bounded. No flow is dropped without being counted. -/
theorem validate_published {manifest : Manifest} {expected : Expected} {baseUrl : Text}
    {maxFlows : ℕ} {planned : List Flow} {driven : List Text} {gallery : Gallery}
    (h : validate isAlphanumeric manifest expected baseUrl maxFlows planned driven =
      .ok gallery) :
    gallery.number = expected.number ∧ gallery.headSha = expected.headSha ∧
      gallery.flows.length ≤ maxFlows ∧
      gallery.flows.length + gallery.emptyFlows + gallery.droppedFlows = manifest.flows.length ∧
      ∃ run, isSegment run = true ∧ ∃ ran, ran.Sublist manifest.flows ∧
        List.Forall₂
          (Published isAlphanumeric
            (baseUrl.rdropWhile (· = '/') ++ ['/'] ++ expected.repo ++ ['/'] ++
              expected.headSha ++ ['/'] ++ run ++ ['/'])
            planned driven) ran gallery.flows := by
  obtain ⟨run, hrun, ran, hran, hpublished, hnumber, hhead, hcount⟩ := validate_flows h
  have hbound : gallery.flows.length ≤ maxFlows := by
    rw [hpublished.length_eq.symm]
    exact hran.length_le.trans (by rw [List.length_take]; exact Nat.min_le_left _ _)
  exact ⟨hnumber, hhead, hbound, hcount, run, hrun, ran,
    hran.trans (List.take_sublist _ _), hpublished⟩

end Published

/-- A manifest with a flow that was not planned. -/
def sampleManifest : Manifest where
  version := 1
  repo := "o/r".toList
  pullRequest := 7
  headSha := "abc123".toList
  baseSha := "base".toList
  run := "run-1".toList
  flows := [
    ⟨"f1".toList, "Anything".toList, .ok, none, some ⟨"clip-01.mp4".toList, "clip-01.gif".toList⟩,
      [⟨1, 3, "/settings".toList, "change-01.png".toList, "change-01.crop.png".toList, none,
        [⟨1, "New".toList⟩]⟩]⟩,
    ⟨"f9".toList, "Anything".toList, .beforeFailed, some 2, none, []⟩]

def sampleExpected : Expected := ⟨"o/r".toList, 7, "abc123".toList⟩

def samplePlanned : List Flow := [⟨"f1".toList, "Save".toList, "/".toList, "Saved".toList, .same⟩]

def sampleValidated : Except Text Gallery :=
  validate Char.isAlphanum sampleManifest sampleExpected "https://p.example/".toList 4
    samplePlanned ["f1".toList]

theorem validate_published_sample : ∃ gallery, sampleValidated = .ok gallery ∧
    gallery.number = sampleExpected.number ∧ gallery.headSha = sampleExpected.headSha ∧
      gallery.flows.length ≤ 4 ∧
      gallery.flows.length + gallery.emptyFlows + gallery.droppedFlows =
        sampleManifest.flows.length ∧
      ∃ run, isSegment run = true ∧ ∃ ran, ran.Sublist sampleManifest.flows ∧
        List.Forall₂
          (Published Char.isAlphanum
            ("https://p.example/".toList.rdropWhile (· = '/') ++ ['/'] ++ sampleExpected.repo ++
              ['/'] ++ sampleExpected.headSha ++ ['/'] ++ run ++ ['/'])
            samplePlanned ["f1".toList]) ran gallery.flows := by
  have hsome : sampleValidated.toOption.isSome = true := by decide +kernel
  cases hvalidated : sampleValidated with
  | error err =>
    rw [hvalidated] at hsome
    cases hsome
  | ok gallery => exact ⟨gallery, rfl, validate_published hvalidated⟩

end TinySweeper.Preview
