import TinySweeper.FirstMatch
import TinySweeper.Html
import TinySweeper.Preview.Manifest

/-!
# The preview comment

One comment is a table of thumbnails in two columns. Every text that reaches it is escaped,
so that it has the tags of the table and no others, whatever the texts are.
-/

namespace TinySweeper.Preview

open Text Html

def VERSION : Text := "0.1.2".toList

def MARKER : Text := "<!-- tinysweeper:ui-preview -->".toList

/-- The body of a comment that has nothing left to show. -/
def stale (headSha : Text) : Text :=
  MARKER ++ "\n<!-- tinysweeper:ui-preview-sha=".toList ++ escape headSha ++
    " -->\n### 🎬 UI preview\n\n_No visible change on this commit._\n".toList

/-- A thumbnail that leads to the full picture, and what it is of. -/
def cell (href thumb : Text) (flow : GalleryFlow) (path : Option Text) : Text :=
  "<a href=\"".toList ++ escape href ++ "\"><img src=\"".toList ++ escape thumb ++
    "\" width=\"380\" alt=\"".toList ++ escape (path.getD flow.title) ++
    "\"></a><br><b>".toList ++ escape flow.title ++ "</b>".toList ++
    (if flow.isNew then " <sub>new in this PR</sub>".toList else []) ++
    (flow.caption.elim [] fun caption => " — ".toList ++ escape caption)

/-- The cells of a flow: its clip, and then its pictures. -/
def flowCells (flow : GalleryFlow) : List Text :=
  (flow.clip.elim [] fun clip => [cell clip.1 clip.2 flow none]) ++
    flow.changes.map fun change => cell change.fullUrl change.cropUrl flow (some change.path)

/-- The chunks of two of a list. -/
def pairs {α : Type} : List α → List (List α)
  | [] => []
  | [a] => [[a]]
  | a :: b :: rest => [a, b] :: pairs rest

def row (cells : List Text) : Text :=
  "  <tr>".toList ++
    cells.flatMap (fun body =>
      "<td width=\"50%\" valign=\"top\">".toList ++ body ++ "</td>".toList) ++
    "</tr>\n".toList

/-- How many flows are not shown. -/
def omittedLine (omitted : ℕ) : Text :=
  if 0 < omitted then
    "\n<sub>".toList ++ decimal omitted ++ " more flow".toList ++
      (if omitted = 1 then [] else ['s']) ++ " ran without producing a picture.</sub>\n".toList
  else []

/-- The comment, or `none` when there is nothing to show. -/
def comment (gallery : Gallery) : Option Text :=
  let cells := gallery.flows.flatMap flowCells
  if cells.isEmpty then none
  else
    some (MARKER ++ "\n<!-- tinysweeper:ui-preview-sha=".toList ++ escape gallery.headSha ++
      " -->\n### 🎬 UI preview — PR #".toList ++ decimal gallery.number ++
      "\n\n<table>\n".toList ++ (pairs cells).flatMap row ++ "</table>\n".toList ++
      omittedLine (gallery.emptyFlows + gallery.droppedFlows) ++
      "\n![tinysweeper ".toList ++ VERSION ++
      "](https://img.shields.io/badge/tinysweeper-".toList ++
      (VERSION.flatMap fun c => if c = '-' then "--".toList else [c]) ++
      "-8b949e?style=flat-square)\n".toList)

/-- What a cell shows. -/
structure Spot where
  href : Text
  thumb : Text
  path : Option Text

def GalleryFlow.spots (flow : GalleryFlow) : List Spot :=
  (flow.clip.elim [] fun clip => [⟨clip.1, clip.2, none⟩]) ++
    flow.changes.map fun change => ⟨change.fullUrl, change.cropUrl, some change.path⟩

theorem flowCells_eq (flow : GalleryFlow) :
    flowCells flow = flow.spots.map fun spot => cell spot.href spot.thumb flow spot.path := by
  cases hclip : flow.clip <;> simp [flowCells, GalleryFlow.spots, hclip]

def subMarkup : List Token := [.tag "sub".toList [], .endTag "sub".toList]

def thumbnailMarkup (href thumb alt : Text) : List Token :=
  [.tag "a".toList [⟨"href".toList, href⟩],
    .tag "img".toList [⟨"src".toList, thumb⟩, ⟨"width".toList, "380".toList⟩, ⟨"alt".toList, alt⟩],
    .endTag "a".toList, .tag "br".toList [], .tag "b".toList []]

def cellMarkup (flow : GalleryFlow) (spot : Spot) : List Token :=
  thumbnailMarkup spot.href spot.thumb (spot.path.getD flow.title) ++ [.endTag "b".toList] ++
    if flow.isNew then subMarkup else []

def rowMarkup (cells : List (List Token)) : List Token :=
  [.tag "tr".toList []] ++
    cells.flatMap (fun body =>
      [.tag "td".toList [⟨"width".toList, "50%".toList⟩, ⟨"valign".toList, "top".toList⟩]] ++
        body ++ [.endTag "td".toList]) ++
    [.endTag "tr".toList]

/-- The table of a gallery: its rows of two, a cell for every clip and every picture. -/
def Gallery.markup (gallery : Gallery) : List Token :=
  [.comment, .comment, .tag "table".toList []] ++
    (pairs (gallery.flows.flatMap fun flow => flow.spots.map (cellMarkup flow))).flatMap
      rowMarkup ++
    [.endTag "table".toList] ++
    if 0 < gallery.emptyFlows + gallery.droppedFlows then subMarkup else []

theorem shows_thumbnail (href thumb alt : Text) :
    Shows ("<a href=\"".toList ++ escape href ++ "\"><img src=\"".toList ++ escape thumb ++
        "\" width=\"380\" alt=\"".toList ++ escape alt ++ "\"></a><br><b>".toList)
      (thumbnailMarkup href thumb alt) := by
  have hquote : ∀ s, '"' ∉ escape s := notMem_escape (by simp)
  have hopen : feed .data "<a href=\"".toList =
      (.quoted "a".toList [] "href".toList [], []) := by
    simp [feed, step, isBlank]
  have hhref : ∀ value, feed (.quoted "a".toList [] "href".toList value)
      "\"><img src=\"".toList =
      (.quoted "img".toList [] "src".toList [], [.tag "a".toList [⟨"href".toList, value⟩]]) := by
    simp [feed, step, isBlank]
  have hsrc : ∀ value, feed (.quoted "img".toList [] "src".toList value)
      "\" width=\"380\" alt=\"".toList =
      (.quoted "img".toList [⟨"src".toList, value⟩, ⟨"width".toList, "380".toList⟩]
        "alt".toList [], []) := by
    simp [feed, step, isBlank]
  have halt : ∀ seen value, feed (.quoted "img".toList seen "alt".toList value)
      "\"></a><br><b>".toList =
      (.data, [.tag "img".toList (seen ++ [⟨"alt".toList, value⟩]), .endTag "a".toList,
        .tag "br".toList [], .tag "b".toList []]) := by
    simp [feed, step, isBlank]
  have hwidth : unescape "380".toList = "380".toList := by decide +kernel
  refine ⟨_, feed_value (feed_value (feed_value hopen (hquote href) (hhref _))
    (hquote thumb) (hsrc _)) (hquote alt) (halt _ _), ?_⟩
  simp only [thumbnailMarkup, List.nil_append, List.cons_append, List.filterMap_cons,
    List.filterMap_nil, Token.markup?, List.map_cons, List.map_nil, unescape_escape, hwidth]

theorem shows_cell (flow : GalleryFlow) (spot : Spot) :
    Shows (cell spot.href spot.thumb flow spot.path) (cellMarkup flow spot) := by
  have hend : Shows "</b>".toList [.endTag "b".toList] :=
    shows_literal (by decide +kernel)
  have hnew : Shows (if flow.isNew then " <sub>new in this PR</sub>".toList else [])
      (if flow.isNew then subMarkup else []) := by
    split_ifs
    · exact shows_literal (by decide +kernel)
    · exact .nil
  have hcaption : Shows (flow.caption.elim [] fun caption => " — ".toList ++ escape caption)
      [] := by
    cases flow.caption with
    | none => exact .nil
    | some caption => exact (shows_text (by decide +kernel)).append (shows_escape caption)
  have hthumbnail := shows_thumbnail spot.href spot.thumb (spot.path.getD flow.title)
  have hcell := (((hthumbnail.append (shows_escape flow.title)).append hend).append hnew).append
    hcaption
  rw [List.append_nil, List.append_nil] at hcell
  exact hcell

theorem shows_row {cells : List Text} {tags : List (List Token)}
    (h : List.Forall₂ Shows cells tags) : Shows (row cells) (rowMarkup tags) := by
  have hstart : Shows "  <tr>".toList [.tag "tr".toList []] := shows_literal (by decide +kernel)
  have hend : Shows "</tr>\n".toList [.endTag "tr".toList] := shows_literal (by decide +kernel)
  have hopen : Shows "<td width=\"50%\" valign=\"top\">".toList
      [.tag "td".toList [⟨"width".toList, "50%".toList⟩, ⟨"valign".toList, "top".toList⟩]] :=
    shows_literal (by decide +kernel)
  have hclose : Shows "</td>".toList [.endTag "td".toList] := shows_literal (by decide +kernel)
  refine (hstart.append ?_).append hend
  induction h with
  | nil => exact .nil
  | cons hcell _ ih =>
    rw [List.flatMap_cons, List.flatMap_cons]
    exact ((hopen.append hcell).append hclose).append ih

theorem shows_rows {cells : List Text} {tags : List (List Token)}
    (h : List.Forall₂ Shows cells tags) :
    Shows ((pairs cells).flatMap row) ((pairs tags).flatMap rowMarkup) := by
  induction cells using pairs.induct generalizing tags with
  | case1 =>
    cases h
    exact .nil
  | case2 cell =>
    obtain ⟨tag, rest, hcell, hrest, rfl⟩ := List.forall₂_cons_left_iff.mp h
    cases hrest
    rw [pairs, pairs, List.flatMap_singleton, List.flatMap_singleton]
    exact shows_row (.cons hcell .nil)
  | case3 first second cells ih =>
    obtain ⟨tag, rest, hfirst, hrest, rfl⟩ := List.forall₂_cons_left_iff.mp h
    obtain ⟨other, others, hsecond, hothers, rfl⟩ := List.forall₂_cons_left_iff.mp hrest
    rw [pairs, pairs, List.flatMap_cons, List.flatMap_cons]
    exact (shows_row (.cons hfirst (.cons hsecond .nil))).append (ih hothers)

theorem shows_cells (flows : List GalleryFlow) :
    List.Forall₂ Shows (flows.flatMap flowCells)
      (flows.flatMap fun flow => flow.spots.map (cellMarkup flow)) := by
  induction flows with
  | nil => exact .nil
  | cons flow flows ih =>
    rw [List.flatMap_cons, List.flatMap_cons]
    refine List.rel_append ?_ ih
    rw [flowCells_eq, List.forall₂_map_left_iff, List.forall₂_map_right_iff, List.forall₂_same]
    intro spot _
    exact shows_cell flow spot

theorem shows_omitted (omitted : ℕ) :
    Shows (omittedLine omitted) (if 0 < omitted then subMarkup else []) := by
  have hopen : Shows "\n<sub>".toList [.tag "sub".toList []] := shows_literal (by decide +kernel)
  have hmore : Shows " more flow".toList [] := shows_text (by decide +kernel)
  have hplural : Shows (if omitted = 1 then [] else ['s']) [] := by
    split_ifs
    · exact .nil
    · exact shows_text (by decide)
  have hend : Shows " ran without producing a picture.</sub>\n".toList [.endTag "sub".toList] :=
    shows_literal (by decide +kernel)
  have hcount : Shows (decimal omitted) [] := shows_text (notMem_decimal rfl omitted)
  unfold omittedLine
  by_cases hsome : 0 < omitted
  · rw [if_pos hsome, if_pos hsome]
    exact (((hopen.append hcount).append hmore).append hplural).append hend
  · rw [if_neg hsome, if_neg hsome]
    exact .nil

/-- The marker and the head commit, up to what stands behind them. -/
theorem shows_header (headSha : Text) (rest : String) (hrest : '<' ∉ rest.toList) :
    Shows (MARKER ++ "\n<!-- tinysweeper:ui-preview-sha=".toList ++ escape headSha ++
      (" -->".toList ++ rest.toList)) [.comment, .comment] := by
  have hsplit : "\n<!-- tinysweeper:ui-preview-sha=".toList =
      ['\n'] ++ ("<!--".toList ++ " tinysweeper:ui-preview-sha=".toList) := by decide +kernel
  have hmarker : Shows MARKER [.comment] := shows_literal (by decide +kernel)
  have hname : '>' ∉ " tinysweeper:ui-preview-sha=".toList ++ escape headSha := by
    rw [List.mem_append, not_or]
    exact ⟨by decide +kernel, notMem_escape (by simp) _⟩
  have hheader := ((hmarker.append (shows_text (s := ['\n']) (by decide))).append
    (shows_comment hname)).append (shows_text hrest)
  rw [hsplit]
  simpa only [List.append_assoc, List.append_nil, List.nil_append, List.cons_append] using hheader

theorem shows_gallery {gallery : Gallery} {body : Text} (h : comment gallery = some body) :
    Shows body gallery.markup := by
  simp only [comment] at h
  split_ifs at h
  obtain rfl := Option.some.inj h
  have hsplit : " -->\n### 🎬 UI preview — PR #".toList =
      " -->".toList ++ "\n### 🎬 UI preview — PR #".toList := by decide +kernel
  have hheader := shows_header gallery.headSha "\n### 🎬 UI preview — PR #"
    (by decide +kernel)
  have hnumber : Shows (decimal gallery.number) [] := shows_text (notMem_decimal rfl _)
  have htable : Shows "\n\n<table>\n".toList [.tag "table".toList []] :=
    shows_literal (by decide +kernel)
  have hend : Shows "</table>\n".toList [.endTag "table".toList] :=
    shows_literal (by decide +kernel)
  have hbadge : Shows ("\n![tinysweeper ".toList ++ VERSION ++
      "](https://img.shields.io/badge/tinysweeper-".toList ++
      (VERSION.flatMap fun c => if c = '-' then "--".toList else [c]) ++
      "-8b949e?style=flat-square)\n".toList) [] := shows_text (by decide +kernel)
  have hpage := (((((hheader.append hnumber).append htable).append
    (shows_rows (shows_cells gallery.flows))).append hend).append
    (shows_omitted (gallery.emptyFlows + gallery.droppedFlows))).append hbadge
  rw [List.append_nil, List.append_nil] at hpage
  rw [hsplit]
  have hgallery : Shows _ gallery.markup := hpage
  simpa only [List.append_assoc] using hgallery

/-- Whatever the texts of a gallery are, its comment has the tags of the table and no
others: a row for every two cells, a cell for every clip and every picture, and each
address and alternative text in its place. -/
theorem comment_markup {gallery : Gallery} {body : Text} (h : comment gallery = some body) :
    markup body = gallery.markup :=
  (shows_gallery h).markup

/-- A clip and two pictures under a title that was not filtered: a row of two and one of one. -/
def sampleGallery : Gallery where
  number := 7
  headSha := "abc123".toList
  flows := [⟨"f1".toList, "</b></td><a href=\"https://evil.example\">".toList, none, true,
    some ("https://p.example/v.webm".toList, "https://p.example/v.gif".toList),
    [⟨"https://p.example/x.png".toList, "https://p.example/y.png".toList, none, "/".toList, []⟩,
      ⟨"https://p.example/z.png".toList, "https://p.example/w.png".toList, none, "/a".toList, []⟩]⟩]
  emptyFlows := 0
  droppedFlows := 1

theorem comment_markup_sample :
    (pairs (sampleGallery.flows.flatMap flowCells)).map List.length = [2, 1] ∧
      ∃ body, comment sampleGallery = some body ∧ markup body = sampleGallery.markup := by
  have hsome : (comment sampleGallery).isSome = true := by decide +kernel
  obtain ⟨body, hbody⟩ := Option.isSome_iff_exists.mp hsome
  exact ⟨by decide +kernel, body, hbody, comment_markup hbody⟩

def MAX_CAPTION : ℕ := 220

/-- What a model answered about a flow: what it cost, and a title and a caption if the
answer can be read. -/
inductive CaptionReply where
  | failed
  | answered (cost : ℚ) (answer : Option (Text × Text))

section Captions

variable (isAlphanumeric : Char → Bool)

/-- A flow with the title and the caption of an answer. -/
def GalleryFlow.captioned (flow : GalleryFlow) (answer : Text × Text) : GalleryFlow :=
  let title := text isAlphanumeric answer.1 MAX_TITLE
  let caption := text isAlphanumeric answer.2 MAX_CAPTION
  { flow with
    title := if title ≠ [] then title else flow.title
    caption := if caption ≠ [] then some caption else none }

/-- Every flow in its turn, until the budget is spent; and what the answers cost. -/
def captionFlows (spent budget : ℚ) (ask : ℕ → GalleryFlow → CaptionReply) :
    ℕ → ℚ → List GalleryFlow → List GalleryFlow × ℚ
  | _, spend, [] => ([], spend)
  | turn, spend, flow :: rest =>
    if spent + spend > budget then (flow :: rest, spend)
    else
      match ask turn flow with
      | .failed =>
        let captioned := captionFlows spent budget ask (turn + 1) spend rest
        (flow :: captioned.1, captioned.2)
      | .answered cost answer =>
        let captioned := captionFlows spent budget ask (turn + 1) (spend + cost) rest
        ((answer.elim flow (flow.captioned isAlphanumeric)) :: captioned.1, captioned.2)

def caption (spent budget : ℚ) (ask : ℕ → GalleryFlow → CaptionReply) (gallery : Gallery) :
    Gallery :=
  { gallery with flows := (captionFlows isAlphanumeric spent budget ask 0 0 gallery.flows).1 }

/-- A caption changes what is said of a flow, and not what is shown of it. -/
structure SameFlow (flow shown : GalleryFlow) : Prop where
  spots : shown.spots = flow.spots
  isNew : shown.isNew = flow.isNew

theorem captionFlows_same (spent budget : ℚ) (ask : ℕ → GalleryFlow → CaptionReply) (turn : ℕ)
    (spend : ℚ) (flows : List GalleryFlow) :
    List.Forall₂ SameFlow flows
      (captionFlows isAlphanumeric spent budget ask turn spend flows).1 := by
  induction flows generalizing turn spend with
  | nil => exact .nil
  | cons flow rest ih =>
    rw [captionFlows]
    split_ifs
    · exact List.forall₂_same.mpr fun _ _ => ⟨rfl, rfl⟩
    · cases ask turn flow with
      | failed => exact .cons ⟨rfl, rfl⟩ (ih _ _)
      | answered cost answer =>
        refine .cons ?_ (ih _ _)
        cases answer <;> exact ⟨rfl, rfl⟩

end Captions

theorem links_flow (flow : GalleryFlow) {spot : Spot} :
    (cellMarkup flow spot).flatMap Token.links = [spot.href, spot.thumb] := by
  unfold cellMarkup
  split_ifs <;> simp [thumbnailMarkup, subMarkup, Token.links]

theorem links_rows (cells : List (List Token)) :
    ((pairs cells).flatMap rowMarkup).flatMap Token.links =
      cells.flatMap fun tags => tags.flatMap Token.links := by
  have hrow : ∀ cells : List (List Token), (rowMarkup cells).flatMap Token.links =
      cells.flatMap fun tags => tags.flatMap Token.links := by
    intro cells
    simp only [rowMarkup, List.flatMap_append, List.flatMap_assoc]
    simp [Token.links]
  induction cells using pairs.induct with
  | case1 => rfl
  | case2 cell => simp [pairs, hrow]
  | case3 first second cells ih => simp [pairs, hrow, ih]

/-- The addresses of a comment are those of its gallery, in their order. -/
theorem links_markup (gallery : Gallery) :
    gallery.markup.flatMap Token.links =
      gallery.flows.flatMap fun flow =>
        flow.spots.flatMap fun spot => [spot.href, spot.thumb] := by
  have hsub : (if 0 < gallery.emptyFlows + gallery.droppedFlows then subMarkup else []).flatMap
      Token.links = [] := by
    split_ifs <;> simp [subMarkup, Token.links]
  have hcells : (gallery.flows.flatMap fun flow => flow.spots.map (cellMarkup flow)).flatMap
      (fun tags => tags.flatMap Token.links) =
      gallery.flows.flatMap fun flow => flow.spots.flatMap fun spot => [spot.href, spot.thumb] := by
    simp only [List.flatMap_assoc, List.flatMap_map, links_flow]
  simp only [Gallery.markup, List.flatMap_append, hsub]
  rw [links_rows, hcells]
  simp [Token.links]

theorem mem_urls_of_spot {flow : GalleryFlow} {spot : Spot} (h : spot ∈ flow.spots) :
    spot.href ∈ flow.urls ∧ spot.thumb ∈ flow.urls := by
  rcases List.mem_append.mp h with hclip | hpicture
  · cases hflow : flow.clip with
    | none =>
      rw [hflow] at hclip
      cases hclip
    | some clip =>
      rw [hflow] at hclip
      rw [List.mem_singleton.mp hclip]
      simp [GalleryFlow.urls, hflow]
  · obtain ⟨change, hchange, rfl⟩ := List.mem_map.mp hpicture
    have hurls : ∀ url ∈ change.urls, url ∈ flow.urls := by
      intro url hurl
      exact List.mem_append_right _ (List.mem_flatMap.mpr ⟨change, hchange, hurl⟩)
    exact ⟨hurls _ (by simp [GalleryChange.urls]), hurls _ (by simp [GalleryChange.urls])⟩

/-- A manifest that the server accepts cannot lead a reviewer anywhere else: every address in
the HTML of the comment lies below the one of the run, whatever the manifest and the captions
say. -/
theorem comment_links {isAlphanumeric : Char → Bool} {manifest : Manifest} {expected : Expected}
    {baseUrl : Text} {maxFlows : ℕ} {planned : List Flow} {driven : List Text} {gallery : Gallery}
    (spent budget : ℚ) (ask : ℕ → GalleryFlow → CaptionReply) {body : Text}
    (h : validate isAlphanumeric manifest expected baseUrl maxFlows planned driven =
      .ok gallery)
    (hbody : comment (caption isAlphanumeric spent budget ask gallery) = some body) :
    ∃ run, isSegment run = true ∧ ∀ url ∈ links body,
      Below (baseUrl.rdropWhile (· = '/') ++ ['/'] ++ expected.repo ++ ['/'] ++
        expected.headSha ++ ['/'] ++ run ++ ['/']) url := by
  obtain ⟨run, hrun, ran, -, hpublished, -⟩ := validate_flows h
  refine ⟨run, hrun, fun url hurl => ?_⟩
  rw [links, (shows_gallery hbody).markup, links_markup, List.mem_flatMap] at hurl
  obtain ⟨shown, hshown, hurl⟩ := hurl
  obtain ⟨spot, hspot, hurl⟩ := List.mem_flatMap.mp hurl
  have hsame := captionFlows_same isAlphanumeric spent budget ask 0 0 gallery.flows
  obtain ⟨flow, hflow, hcaptioned⟩ := FirstMatch.Forall₂.exists_left hsame hshown
  obtain ⟨result, -, hflow⟩ := FirstMatch.Forall₂.exists_left hpublished hflow
  rw [hcaptioned.spots] at hspot
  obtain ⟨hhref, hthumb⟩ := mem_urls_of_spot hspot
  rw [List.mem_pair] at hurl
  rcases hurl with rfl | rfl
  · exact hflow.urls _ hhref
  · exact hflow.urls _ hthumb

/-- A caption that would like to close the table and load a picture from elsewhere. -/
def sampleAsk : ℕ → GalleryFlow → CaptionReply := fun _ _ =>
  .answered (1 / 100) (some ([], "</td></table><img src=\"https://evil.example/x.png\">".toList))

theorem comment_links_sample : ∃ gallery body, sampleValidated = .ok gallery ∧
    comment (caption Char.isAlphanum 0 1 sampleAsk gallery) = some body ∧
    ∃ run, isSegment run = true ∧ ∀ url ∈ links body,
      Below ("https://p.example/".toList.rdropWhile (· = '/') ++ ['/'] ++ sampleExpected.repo ++
        ['/'] ++ sampleExpected.headSha ++ ['/'] ++ run ++ ['/']) url := by
  have hsome : (sampleValidated.toOption.bind fun gallery =>
      comment (caption Char.isAlphanum 0 1 sampleAsk gallery)).isSome = true := by
    decide +kernel
  cases hvalidated : sampleValidated with
  | error err =>
    rw [hvalidated] at hsome
    cases hsome
  | ok gallery =>
    rw [hvalidated] at hsome
    obtain ⟨body, hbody⟩ := Option.isSome_iff_exists.mp hsome
    exact ⟨gallery, body, rfl, hbody, comment_links 0 1 sampleAsk hvalidated hbody⟩

end TinySweeper.Preview
