import TinySweeper.Findings.PriorReview
import TinySweeper.Preview.Gallery
import TinySweeper.Runs

/-!
# One preview comment

The preview of a pull request is one comment, which is found by its marker and edited in
place. Pushes, other people's comments, deletions and repeated runs come in any order, one
finish at a time; there is never a second one, and what it says is what was published last.
-/

namespace TinySweeper.Preview

open Text Runs

def MAX_CHECK_IMAGES : ℕ := 8

def CHECK_NAME : Text := "tinysweeper/ui-preview".toList

structure IssueComment where
  id : Option ℕ
  author : Text
  body : Text
  deriving DecidableEq

structure CheckImage where
  alt : Text
  imageUrl : Text
  caption : Option Text
  deriving DecidableEq

/-- A check run; a preview's conclusion is always neutral. -/
structure CheckRun where
  name : Text
  headSha : Text
  title : Text
  summary : Text
  images : List CheckImage
  deriving DecidableEq

inductive Outcome where
  | published
  | headMoved
  | nothingToShow
  | unchanged
  deriving DecidableEq

inductive Write where
  | createComment (body : Text)
  | updateComment (id : ℕ) (body : Text)
  | publishCheck (check : CheckRun)
  | updateCheck (id : ℕ) (check : CheckRun)
  deriving DecidableEq

/-- One crop of each flow. -/
def checkImages (gallery : Gallery) : List CheckImage :=
  (gallery.flows.filterMap fun flow =>
    flow.changes.head?.map fun change => ⟨flow.title, change.cropUrl, flow.caption⟩).take
      MAX_CHECK_IMAGES

def checkTitle (gallery : Gallery) : Text :=
  match gallery.flows.length with
  | 0 => "No visible change found".toList
  | 1 => "1 flow previewed".toList
  | n => decimal n ++ " flows previewed".toList

def checkOf (gallery : Gallery) : CheckRun where
  name := CHECK_NAME
  headSha := gallery.headSha
  title := checkTitle gallery
  summary := (comment gallery).getD "No user flow produced a visible change on this commit.".toList
  images := checkImages gallery

section Publish

variable (expected : Text)

/-- A preview comment of ours; a marker that somebody else copied is none. -/
def IssueComment.isPreview (comment : IssueComment) : Bool :=
  Prior.isOwnLogin expected comment.author && contains comment.body MARKER

/-- What becomes of the comment. -/
def commentWrites (gallery : Gallery) (existing : Option IssueComment) : Outcome × List Write :=
  match comment gallery, existing with
  | none, none => (.nothingToShow, [])
  | none, some found =>
    match found.id with
    | some id => (.published, [.updateComment id (stale gallery.headSha)])
    | none => (.nothingToShow, [])
  | some body, none => (.published, [.createComment body])
  | some body, some found =>
    if found.body = body then (.unchanged, [])
    else
      match found.id with
      | some id => (.published, [.updateComment id body])
      | none => (.published, [.createComment body])

/-- What a gallery is published as; nothing is once the head has moved. -/
def publish (live : Text) (comments : List IssueComment) (gallery : Gallery)
    (existingCheckId : Option ℕ) : Outcome × List Write :=
  if live ≠ gallery.headSha then (.headMoved, [])
  else
    let written := commentWrites gallery (comments.find? (·.isPreview expected))
    (written.1, written.2 ++
      [existingCheckId.elim (.publishCheck (checkOf gallery)) fun id =>
        .updateCheck id (checkOf gallery)])

end Publish

structure Posted where
  id : ℕ
  author : Text
  body : Text
  deriving DecidableEq

/-- A pull request: its head and its comments. -/
structure Board where
  head : Text
  comments : List Posted

def Posted.read (posted : Posted) : IssueComment := ⟨some posted.id, posted.author, posted.body⟩

/-- A comment is written; `fresh` is the number a new one gets. -/
def Board.write (bot : Text) (fresh : ℕ) (board : Board) : Write → Board
  | .createComment body => { board with comments := board.comments ++ [⟨fresh, bot, body⟩] }
  | .updateComment id body =>
    { board with
      comments := board.comments.map fun posted =>
        if posted.id = id then { posted with body := body } else posted }
  | .publishCheck _ => board
  | .updateCheck _ _ => board

/-- What happens to a pull request. -/
inductive Event where
  /-- A session publishes what came of it, to the end. -/
  | finish (gallery : Gallery) (checkId : Option ℕ) (fresh : ℕ)
  /-- A push. -/
  | push (head : Text)
  /-- Comments are posted, edited and removed by others, and by the bot in its other roles. -/
  | others (comments : List Posted)

section Board

variable (expected bot : Text)

def Board.outcome (board : Board) (gallery : Gallery) (checkId : Option ℕ) :
    Outcome × List Write :=
  publish expected board.head (board.comments.map Posted.read) gallery checkId

def Board.step (board : Board) : Event → Board
  | .finish gallery checkId fresh =>
    (board.outcome expected gallery checkId).2.foldl (Board.write bot fresh) board
  | .push head => { board with head := head }
  | .others comments => { board with comments := comments }

def Posted.isPreview (posted : Posted) : Bool := posted.read.isPreview expected

def Board.previews (board : Board) : List Posted := board.comments.filter (·.isPreview expected)

/-- A new comment gets a number of its own; others make no preview comment. -/
def Board.guard (board : Board) : Event → Prop
  | .finish _ _ fresh => fresh ∉ board.comments.map Posted.id
  | .push _ => True
  | .others comments => (comments.map Posted.id).Nodup ∧
    comments.countP (·.isPreview expected) ≤ board.comments.countP (·.isPreview expected)

instance decidableGuard (board : Board) : ∀ event, Decidable (board.guard expected event)
  | .finish _ _ fresh => inferInstanceAs (Decidable (fresh ∉ board.comments.map Posted.id))
  | .push _ => .isTrue trivial
  | .others comments => inferInstanceAs (Decidable ((comments.map Posted.id).Nodup ∧
    comments.countP (·.isPreview expected) ≤ board.comments.countP (·.isPreview expected)))

/-- There is one preview comment at most. -/
structure Board.Sound (board : Board) : Prop where
  ids : (board.comments.map Posted.id).Nodup
  single : (board.previews expected).length ≤ 1

end Board

theorem contains_marker {rest : Text} : contains (MARKER ++ rest) MARKER = true :=
  contains_iff.mpr (List.prefix_append _ _).isInfix

theorem contains_stale (headSha : Text) : contains (stale headSha) MARKER = true := by
  rw [stale, List.append_assoc, List.append_assoc]
  exact contains_marker

theorem contains_comment {gallery : Gallery} {body : Text} (h : comment gallery = some body) :
    contains body MARKER = true := by
  simp only [comment] at h
  split_ifs at h
  rw [← Option.some.inj h]
  simp only [List.append_assoc]
  exact contains_marker

section Kept

variable {expected bot : Text} {board : Board} {gallery : Gallery}

/-- A publish finds the preview comment by its number. -/
theorem find_preview (board : Board) :
    (board.comments.map Posted.read).find? (·.isPreview expected) =
      (board.previews expected).head?.map Posted.read := by
  rw [List.find?_map, Board.previews, List.head?_filter]
  rfl

variable (bot) in
/-- The preview comment is edited in place, and remains the only one. -/
theorem previews_updated (h : board.Sound expected) {found : Posted} {body : Text}
    (hfound : board.previews expected = [found]) (hbody : contains body MARKER = true)
    (fresh : ℕ) :
    (board.write bot fresh (.updateComment found.id body)).Sound expected ∧
      (board.write bot fresh (.updateComment found.id body)).previews expected =
        [{ found with body := body }] := by
  have hmem : found ∈ board.comments ∧ found.isPreview expected = true := by
    rw [← List.mem_filter, ← Board.previews, hfound]
    exact List.mem_singleton_self found
  have hown : Prior.isOwnLogin expected found.author = true := (Bool.and_eq_true_iff.mp hmem.2).1
  have hkept : ∀ posted ∈ board.comments,
      (if posted.id = found.id then { posted with body := body } else posted).isPreview expected =
        posted.isPreview expected := by
    intro posted hposted
    split_ifs with hid
    · obtain rfl := List.inj_on_of_nodup_map h.ids hposted hmem.1 hid
      rw [hmem.2]
      exact Bool.and_eq_true_iff.mpr ⟨hown, hbody⟩
    · rfl
  have hids : (board.comments.map fun posted =>
      if posted.id = found.id then { posted with body := body } else posted).map Posted.id =
        board.comments.map Posted.id := by
    rw [List.map_map]
    apply List.map_congr_left
    intro posted _
    dsimp only [Function.comp_apply]
    split_ifs <;> rfl
  have hpreviews : (board.write bot fresh (.updateComment found.id body)).previews expected =
      [{ found with body := body }] := by
    have hfilter := List.filter_congr (q := Posted.isPreview expected) hkept
    rw [Board.previews, Board.write, List.filter_map]
    refine (congrArg (List.map _) (hfilter.trans hfound)).trans ?_
    simp
  refine ⟨⟨?_, ?_⟩, hpreviews⟩
  · rw [Board.write, hids]
    exact h.ids
  · rw [hpreviews]
    exact le_rfl

/-- A first preview comment. -/
theorem previews_created (h : board.Sound expected) (hbot : Prior.isOwnLogin expected bot = true)
    (hnone : board.previews expected = []) {body : Text} (hbody : contains body MARKER = true)
    {fresh : ℕ} (hfresh : fresh ∉ board.comments.map Posted.id) :
    (board.write bot fresh (.createComment body)).Sound expected ∧
      (board.write bot fresh (.createComment body)).previews expected = [⟨fresh, bot, body⟩] := by
  have hnew : Posted.isPreview expected ⟨fresh, bot, body⟩ = true :=
    Bool.and_eq_true_iff.mpr ⟨hbot, hbody⟩
  have hpreviews : (board.write bot fresh (.createComment body)).previews expected =
      [⟨fresh, bot, body⟩] := by
    rw [Board.previews, Board.write, List.filter_append, ← Board.previews, hnone,
      List.filter_singleton, hnew]
    rfl
  refine ⟨⟨?_, ?_⟩, hpreviews⟩
  · rw [Board.write, List.map_append, List.map_singleton, ← List.concat_eq_append]
    exact h.ids.concat hfresh
  · rw [hpreviews]
    exact le_rfl

/-- What a publish for the live head leaves behind. -/
structure Finished (expected : Text) (gallery : Gallery) (after : Board) : Prop where
  sound : after.Sound expected
  shown : ∀ body, comment gallery = some body →
    (after.previews expected).map Posted.body = [body]
  stale : comment gallery = none →
    ∀ posted ∈ after.previews expected, posted.body = Preview.stale gallery.headSha

/-- A check run is no comment. -/
theorem finish_step (hhead : board.head = gallery.headSha) (checkId : Option ℕ) (fresh : ℕ) :
    board.step expected bot (.finish gallery checkId fresh) =
      (commentWrites gallery ((board.previews expected).head?.map Posted.read)).2.foldl
        (Board.write bot fresh) board := by
  unfold Board.step Board.outcome publish
  dsimp only
  rw [if_neg (not_not.mpr hhead), find_preview, List.foldl_append]
  cases checkId <;> rfl

theorem finished_unchanged (h : board.Sound expected)
    (hshown : ∀ body, comment gallery = some body →
      (board.previews expected).map Posted.body = [body])
    (hnone : comment gallery = none → board.previews expected = []) :
    Finished expected gallery board := by
  refine ⟨h, hshown, fun hbody => ?_⟩
  rw [hnone hbody]
  exact List.forall_mem_nil _

/-- Without a preview comment, one is written where there is something to show. -/
theorem finished_created (h : board.Sound expected) (hbot : Prior.isOwnLogin expected bot = true)
    {fresh : ℕ} (hfresh : fresh ∉ board.comments.map Posted.id)
    (hpreviews : board.previews expected = []) :
    Finished expected gallery
      ((commentWrites gallery none).2.foldl (Board.write bot fresh) board) := by
  cases hbody : comment gallery with
  | none =>
    have hwrites : (commentWrites gallery none).2 = [] := by simp [commentWrites, hbody]
    rw [hwrites, List.foldl_nil]
    refine finished_unchanged h (fun body hsome => ?_) fun _ => hpreviews
    cases hbody.symm.trans hsome
  | some body =>
    have hwrites : (commentWrites gallery none).2 = [.createComment body] := by
      simp [commentWrites, hbody]
    obtain ⟨hsound, hshown⟩ := previews_created h hbot hpreviews (contains_comment hbody) hfresh
    rw [hwrites]
    refine ⟨hsound, fun other hother => ?_, fun hnone => ?_⟩
    · rw [← Option.some.inj (hbody.symm.trans hother)]
      exact congrArg (List.map Posted.body) hshown
    · cases hbody.symm.trans hnone

variable (bot) in
/-- The preview comment is edited, unless it says the same already. -/
theorem finished_updated (h : board.Sound expected) {found : Posted}
    (hpreviews : board.previews expected = [found]) (fresh : ℕ) :
    Finished expected gallery
      ((commentWrites gallery (some found.read)).2.foldl (Board.write bot fresh) board) := by
  cases hbody : comment gallery with
  | none =>
    have hwrites : (commentWrites gallery (some found.read)).2 =
        [.updateComment found.id (stale gallery.headSha)] := by
      simp [commentWrites, hbody, Posted.read]
    obtain ⟨hsound, hshown⟩ :=
      previews_updated bot h hpreviews (contains_stale gallery.headSha) fresh
    rw [hwrites]
    refine ⟨hsound, fun body hsome => ?_, fun _ posted hposted => ?_⟩
    · cases hbody.symm.trans hsome
    · have hmem := hshown ▸ hposted
      rw [List.mem_singleton.mp hmem]
  | some body =>
    by_cases hsame : found.body = body
    · have hwrites : (commentWrites gallery (some found.read)).2 = [] := by
        simp [commentWrites, hbody, Posted.read, hsame]
      rw [hwrites, List.foldl_nil]
      refine finished_unchanged h (fun other hother => ?_) fun hnone => ?_
      · rw [← Option.some.inj (hbody.symm.trans hother), hpreviews, List.map_singleton, hsame]
      · cases hbody.symm.trans hnone
    · have hwrites : (commentWrites gallery (some found.read)).2 =
          [.updateComment found.id body] := by
        simp [commentWrites, hbody, Posted.read, hsame]
      obtain ⟨hsound, hshown⟩ :=
        previews_updated bot h hpreviews (contains_comment hbody) fresh
      rw [hwrites]
      refine ⟨hsound, fun other hother => ?_, fun hnone => ?_⟩
      · rw [← Option.some.inj (hbody.symm.trans hother)]
        exact congrArg (List.map Posted.body) hshown
      · cases hbody.symm.trans hnone

theorem finish_spec (h : board.Sound expected) (hbot : Prior.isOwnLogin expected bot = true)
    (checkId : Option ℕ) {fresh : ℕ} (hfresh : fresh ∉ board.comments.map Posted.id)
    (hhead : board.head = gallery.headSha) :
    Finished expected gallery (board.step expected bot (.finish gallery checkId fresh)) := by
  rw [finish_step hhead]
  cases hpreviews : board.previews expected with
  | nil => exact finished_created h hbot hfresh hpreviews
  | cons found rest =>
    have hsingle := h.single
    rw [hpreviews, List.length_cons] at hsingle
    obtain rfl : rest = [] := List.length_eq_zero_iff.mp (by omega)
    exact finished_updated bot h hpreviews fresh

/-- A step keeps the one preview comment. -/
theorem step_sound {event : Event} (h : board.Sound expected)
    (hbot : Prior.isOwnLogin expected bot = true) (hguard : board.guard expected event) :
    (board.step expected bot event).Sound expected := by
  cases event with
  | finish gallery checkId fresh =>
    by_cases hhead : board.head = gallery.headSha
    · exact (finish_spec h hbot checkId hguard hhead).sound
    · have hnothing : board.step expected bot (.finish gallery checkId fresh) = board := by
        unfold Board.step Board.outcome publish
        dsimp only
        rw [if_pos hhead]
        rfl
      rw [hnothing]
      exact h
  | push head => exact ⟨h.ids, h.single⟩
  | others comments =>
    refine ⟨hguard.1, ?_⟩
    have hsingle := h.single
    rw [Board.previews, ← List.countP_eq_length_filter] at hsingle
    rw [Board.previews, ← List.countP_eq_length_filter]
    exact hguard.2.trans hsingle

/-- Once a gallery is published, publishing it again writes the check alone. -/
theorem outcome_unchanged (h : Finished expected gallery board) {body : Text}
    (hbody : comment gallery = some body) (hhead : board.head = gallery.headSha)
    (checkId : Option ℕ) :
    board.outcome expected gallery checkId = (.unchanged,
      [checkId.elim (.publishCheck (checkOf gallery)) fun id =>
        .updateCheck id (checkOf gallery)]) := by
  have hshown := h.shown body hbody
  unfold Board.outcome publish
  rw [if_neg (not_not.mpr hhead), find_preview]
  cases hpreviews : board.previews expected with
  | nil =>
    rw [hpreviews] at hshown
    cases hshown
  | cons found rest =>
    rw [hpreviews, List.map_cons] at hshown
    have hsame : found.body = body := (List.cons.inj hshown).1
    simp [commentWrites, hbody, Posted.read, hsame]

/-- The notice that there is nothing to show is written again, and says the same. -/
theorem step_stale (h : Finished expected gallery board) (hbody : comment gallery = none)
    (hhead : board.head = gallery.headSha) (checkId : Option ℕ) (fresh : ℕ) :
    (board.step expected bot (.finish gallery checkId fresh)).comments = board.comments := by
  rw [finish_step hhead]
  cases hpreviews : board.previews expected with
  | nil => simp [commentWrites, hbody]
  | cons found rest =>
    have hfound : found ∈ board.previews expected := hpreviews ▸ List.mem_cons_self
    have hstale := h.stale hbody found hfound
    have hsame : ∀ posted ∈ board.comments, (if posted.id = found.id then
        { posted with body := Preview.stale gallery.headSha } else posted) = posted := by
      intro posted hposted
      split_ifs with hid
      · obtain rfl := List.inj_on_of_nodup_map h.sound.ids hposted
          (List.mem_filter.mp hfound).1 hid
        rw [← hstale]
      · rfl
    have hwrites : (commentWrites gallery (some found.read)).2 =
        [.updateComment found.id (Preview.stale gallery.headSha)] := by
      simp [commentWrites, hbody, Posted.read]
    rw [List.head?_cons, Option.map_some, hwrites]
    exact (List.map_congr_left hsame).trans (List.map_id' _)

end Kept

theorem write_head (bot : Text) (fresh : ℕ) (writes : List Write) (board : Board) :
    (writes.foldl (Board.write bot fresh) board).head = board.head := by
  induction writes generalizing board with
  | nil => rfl
  | cons write rest ih =>
    rw [List.foldl_cons, ih]
    cases write <;> rfl

/-- Whatever happens to a pull request between one finish and the next, it never has two preview
comments; and after a gallery for its head is published, the one it has says just that. To publish
the gallery again writes no comment, or only repeats the notice that there is nothing to show. -/
theorem one_preview {expected bot : Text} (hbot : Prior.isOwnLogin expected bot = true)
    {board : Board} (hboard : board.Sound expected) {events : List Event}
    (hevents : Guarded (Board.step expected bot) (Board.guard expected) board events)
    (gallery : Gallery) (checkId : Option ℕ) (fresh : ℕ) :
    let now := exec (Board.step expected bot) board events
    let after := now.step expected bot (.finish gallery checkId fresh)
    (now.previews expected).length ≤ 1 ∧
      (fresh ∉ now.comments.map Posted.id → now.head = gallery.headSha →
        (∀ body, comment gallery = some body →
          (after.previews expected).map Posted.body = [body] ∧
            ∀ again, after.outcome expected gallery again = (.unchanged,
              [again.elim (.publishCheck (checkOf gallery)) fun id =>
                .updateCheck id (checkOf gallery)])) ∧
        (comment gallery = none →
          (∀ posted ∈ after.previews expected, posted.body = stale gallery.headSha) ∧
            ∀ again fresh',
              (after.step expected bot (.finish gallery again fresh')).comments =
                after.comments)) := by
  intro now after
  have hsound : now.Sound expected :=
    hevents.invariant (fun s event hs hguard => step_sound hs hbot hguard) hboard
  refine ⟨hsound.single, fun hfresh hhead => ?_⟩
  have hfinished : Finished expected gallery after := finish_spec hsound hbot checkId hfresh hhead
  have hafter : after.head = gallery.headSha := (write_head bot fresh _ now).trans hhead
  refine ⟨fun body hbody => ⟨hfinished.shown body hbody, fun again => ?_⟩, fun hnone =>
    ⟨hfinished.stale hnone, fun again fresh' => ?_⟩⟩
  · exact outcome_unchanged hfinished hbody hafter again
  · exact step_stale hfinished hnone hafter again fresh'

/-- A contributor has copied the marker. -/
def sampleBoard : Board where
  head := "abc123".toList
  comments := [⟨40, "mallory".toList, MARKER⟩]

def sampleEvents : List Event :=
  [.finish sampleGallery none 41, .push "def456".toList, .finish sampleGallery none 42,
    .push "abc123".toList]

def sampleNow : Board :=
  exec (Board.step "tinysweeper".toList "tinysweeper[bot]".toList) sampleBoard sampleEvents

def sampleAfter : Board :=
  sampleNow.step "tinysweeper".toList "tinysweeper[bot]".toList (.finish sampleGallery (some 7) 43)

theorem one_preview_sample :
    (sampleNow.previews "tinysweeper".toList).length ≤ 1 ∧
      (43 ∉ sampleNow.comments.map Posted.id → sampleNow.head = sampleGallery.headSha →
        (∀ body, comment sampleGallery = some body →
          (sampleAfter.previews "tinysweeper".toList).map Posted.body = [body] ∧
            ∀ again, sampleAfter.outcome "tinysweeper".toList sampleGallery again = (.unchanged,
              [again.elim (.publishCheck (checkOf sampleGallery)) fun id =>
                .updateCheck id (checkOf sampleGallery)])) ∧
        (comment sampleGallery = none →
          (∀ posted ∈ sampleAfter.previews "tinysweeper".toList,
            posted.body = stale sampleGallery.headSha) ∧
          ∀ again fresh', (sampleAfter.step "tinysweeper".toList "tinysweeper[bot]".toList
            (.finish sampleGallery again fresh')).comments = sampleAfter.comments)) := by
  have hguarded : Guarded (Board.step "tinysweeper".toList "tinysweeper[bot]".toList)
      (Board.guard "tinysweeper".toList) sampleBoard sampleEvents := by decide +kernel
  exact one_preview (by decide +kernel) ⟨by decide +kernel, by decide +kernel⟩ hguarded
    sampleGallery (some 7) 43

end TinySweeper.Preview
