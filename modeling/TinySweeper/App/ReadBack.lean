import TinySweeper.App.InlineComments
import TinySweeper.Markdown.Verbatim

/-!
# What is read back from an inline comment

The readers of posted comments meet the badges, the title, the body, a change, the
rule and the markers in this order. The values a model wrote are escaped, and a
change is not: what is read is the finding's own where neither shows.
-/

namespace TinySweeper.App

open Text Findings Markdown
open Scan (Severity)

section Markers

theorem notMem_of_isFingerprint {value : Text} (h : isFingerprint value = true) {c : Char}
    (hc : (c.isDigit || ('a' ≤ c && c ≤ 'f')) = false) : c ∉ value := by
  intro hmem
  simp only [isFingerprint, Bool.and_eq_true, List.all_eq_true] at h
  exact absurd (h.2 c hmem) (by simp [hc])

theorem trim_of_isFingerprint {value : Text} (h : isFingerprint value = true) :
    trim value = value := by
  have hblank : ∀ c ∈ value, isWhitespace c = false := by
    intro c hmem
    simp only [isFingerprint, Bool.and_eq_true, List.all_eq_true] at h
    have hhex := h.2 c hmem
    simp only [Bool.or_eq_true, Bool.and_eq_true, decide_eq_true_eq] at hhex
    rcases hhex with hdigit | ⟨hlow, hhigh⟩
    · exact isWhitespace_of_isDigit hdigit
    · have hlow : 97 ≤ c.toNat := UInt32.le_iff_toNat_le.mp (Char.le_def.mp hlow)
      have hhigh : c.toNat ≤ 102 := UInt32.le_iff_toNat_le.mp (Char.le_def.mp hhigh)
      simp only [isWhitespace, Bool.or_eq_false_iff, Bool.and_eq_false_iff,
        decide_eq_false_iff_not]
      omega
  unfold trim trimEnd trimStart
  rw [List.dropWhile_eq_self_iff.mpr, List.rdropWhile_eq_self_iff.mpr]
  · intro hne
    simp [hblank _ (List.getLast_mem hne)]
  · intro hne
    simp [hblank _ (List.getElem_mem hne)]

theorem fingerprintIn_append (before : Text) {identity : Text} (h : isFingerprint identity = true) :
    fingerprintIn (before ++ fingerprintMarker identity) = some identity := by
  have hopener : ∃ rest, markerOpener FINGERPRINT_KEY = '<' :: rest ∧ '<' ∉ rest :=
    ⟨(markerOpener FINGERPRINT_KEY).tail, rfl, by decide⟩
  obtain ⟨rest, hopener, hrest⟩ := hopener
  have hplace : rfind (markerOpener FINGERPRINT_KEY) (before ++ fingerprintMarker identity) =
      some before.length := by
    have hnone : '<' ∉ rest ++ (identity ++ " -->".toList) := by
      simp only [List.mem_append, not_or]
      exact ⟨hrest, notMem_of_isFingerprint h (by decide), by decide⟩
    rw [fingerprintMarker, List.append_assoc, hopener]
    exact rfind_append hnone before
  have hclose : find "-->".toList (identity ++ " -->".toList) = some (identity ++ [' ']).length := by
    have hdash : '-' ∉ identity ++ [' '] := by
      rw [List.mem_append, not_or]
      exact ⟨notMem_of_isFingerprint h (by decide), by decide⟩
    have hfound := @find_append _ _ _ ['-', '>'] _ hdash []
    simpa using hfound
  have hdrop : (before ++ fingerprintMarker identity).drop
      (before.length + (markerOpener FINGERPRINT_KEY).length) = identity ++ " -->".toList := by
    rw [fingerprintMarker, List.append_assoc, ← List.append_assoc before, ← List.length_append]
    exact List.drop_left
  have htrim : trim ((identity ++ " -->".toList).take (identity ++ [' ']).length) = identity := by
    have htake : (identity ++ " -->".toList).take (identity ++ [' ']).length =
        identity ++ [' '] := by
      simp [List.take_append]
    rw [htake, ← trim_trimEnd, trimEnd_concat (by decide), trim_trimEnd, trim_of_isFingerprint h]
  rw [fingerprintIn, markerValue, hplace, Option.bind_some]
  dsimp only
  rw [hdrop, hclose, Option.map_some, htrim]
  simp [h]

/-- Admitting identities one by one keeps the first of each. -/
theorem foldl_admitFingerprint (seen : List Text) {values : List Text}
    (hvalues : ∀ value ∈ values, isFingerprint value = true) :
    values.foldl admitFingerprint seen =
      seen ++ (values.filter fun value => value ∉ seen).eraseDups := by
  induction values generalizing seen with
  | nil => simp
  | cons value values ih =>
    have hrest : ∀ v ∈ values, isFingerprint v = true :=
      fun v hv => hvalues v (List.mem_cons_of_mem _ hv)
    rw [List.foldl_cons, ih _ hrest]
    by_cases hseen : value ∈ seen
    · simp [admitFingerprint, hseen]
    · have hfilter : values.filter (fun v => v ∉ seen ++ [value]) =
          (values.filter fun v => v ∉ seen).filter fun v => !v == value := by
        rw [List.filter_filter]
        apply List.filter_congr
        intro v _
        by_cases hv : v = value <;> simp [hv]
      rw [admitFingerprint, if_pos (by simp [hvalues value List.mem_cons_self, hseen]),
        List.filter_cons_of_pos (by simp [hseen]), List.eraseDups_cons, List.append_assoc, hfilter]
      rfl

theorem aliasValues_append (before joined : Text) (hjoined : '<' ∉ joined) :
    aliasValues (before ++ (markerOpener FINGERPRINTS_KEY ++ (joined ++ " -->".toList))) =
      some joined := by
  obtain ⟨rest, hopener, hrest⟩ :
      ∃ rest, markerOpener FINGERPRINTS_KEY = '<' :: rest ∧ '<' ∉ rest :=
    ⟨(markerOpener FINGERPRINTS_KEY).tail, rfl, by decide⟩
  have hplace : rfind (markerOpener FINGERPRINTS_KEY)
      (before ++ (markerOpener FINGERPRINTS_KEY ++ (joined ++ " -->".toList))) =
        some before.length := by
    rw [hopener]
    apply rfind_append
    simp only [List.mem_append, not_or]
    exact ⟨hrest, hjoined, by decide⟩
  rw [aliasValues, hplace, Option.bind_some, List.drop_left, stripPrefix_append, Option.bind_some,
    stripSuffix_append]

/-- Without the closing of a marker at the end there is no alias marker. -/
theorem aliasValues_eq_none {before : Text} (hlast : before.getLast? = some ' ') :
    aliasValues before = none := by
  unfold aliasValues
  cases hplace : rfind (markerOpener FINGERPRINTS_KEY) before with
  | none => rfl
  | some start =>
    obtain ⟨⟨rest, hrest⟩, -⟩ := rfind_prefix hplace
    rw [Option.bind_some, ← hrest, stripPrefix_append, Option.bind_some, stripSuffix_eq_none_iff]
    rintro ⟨init, rfl⟩
    have hend : before.getLast? = some '>' := by
      rw [← List.take_append_drop start before, ← hrest]
      simp
    rw [hlast] at hend
    cases hend

theorem fingerprintsIn_append {κ : Type} (f : Finding κ) {before identity : Text}
    (hlast : before.getLast? = some ' ') (h : isFingerprint identity = true) :
    fingerprintsIn (before ++ aliasMarker f ++ fingerprintMarker identity) =
      (identity :: publishedAliases f).eraseDups := by
  have hwell : ∀ value ∈ publishedAliases f, isFingerprint value = true := by
    intro value hvalue
    exact (List.mem_filter.mp hvalue).2
  have hmarker : fingerprintMarker identity =
      markerOpener FINGERPRINT_KEY ++ identity ++ " -->".toList := rfl
  unfold fingerprintsIn
  rw [fingerprintIn_append _ h]
  dsimp only
  rw [hmarker, stripSuffix_append]
  dsimp only
  by_cases hnone : publishedAliases f = []
  · have haliases : aliasMarker f = [] := by simp [aliasMarker, hnone]
    rw [haliases, List.append_nil, aliasValues_eq_none hlast, hnone]
    simp [List.eraseDups_cons]
  · have haliases : aliasMarker f = markerOpener FINGERPRINTS_KEY ++
        ([','].intercalate (publishedAliases f) ++ " -->".toList) := by
      simp [aliasMarker, hnone]
    have hjoined : '<' ∉ [','].intercalate (publishedAliases f) := by
      intro hmem
      rcases mem_intercalate hmem with hmem | ⟨value, hvalue, hmem⟩
      · simp at hmem
      · exact notMem_of_isFingerprint (hwell value hvalue) (by decide) hmem
    have hsplit : ([','].intercalate (publishedAliases f)).splitOn ',' = publishedAliases f :=
      List.splitOn_intercalate ',' (fun value hvalue =>
        notMem_of_isFingerprint (hwell value hvalue) (by decide)) hnone
    rw [haliases, aliasValues_append _ _ hjoined]
    dsimp only
    have htrim : (publishedAliases f).map trim = publishedAliases f :=
      (List.map_congr_left fun value hvalue => trim_of_isFingerprint (hwell value hvalue)).trans
        (List.map_id _)
    rw [hsplit, htrim, foldl_admitFingerprint _ hwell, List.eraseDups_cons, List.singleton_append]
    congr 2
    apply List.filter_congr
    intro value _
    by_cases hv : value = identity <;> simp [hv]

end Markers

section Badges

/-- The head of a comment has two badges. -/
def headOf (severity : Severity) (lane : LaneId) (certainty : Certainty) : Text :=
  priorityBadge severity ++ "  ".toList ++ laneConfidenceBadge lane certainty

theorem severityIn_headOf (severity : Severity) (lane : LaneId) (certainty : Certainty)
    (rest : Text) : severityIn (headOf severity lane certainty ++ rest) = some severity := by
  cases severity <;> rfl

theorem badgeLane_append {text : Text} {place : ℕ} (hplace : place + BADGE.length ≤ text.length)
    (hclose : (find ['-'] (text.drop (place + BADGE.length))).isSome) (rest : Text) :
    badgeLane (text ++ rest) place = badgeLane text place := by
  obtain ⟨stop, hstop⟩ := Option.isSome_iff_exists.mp hclose
  have hlength := (find_eq_some hstop).2
  unfold badgeLane
  dsimp only
  rw [List.drop_append_of_le_length hplace, find_append_of_some hstop, hstop, Option.bind_some,
    Option.bind_some, List.take_append_of_le_length hlength]

def badgeLanes (text : Text) : List LaneId := (matchIndices BADGE text).filterMap (badgeLane text)

/-- The address of every badge is in the text as far as its first part. -/
def BadgesClosed (text : Text) : Prop :=
  ∀ place ∈ matchIndices BADGE text, place + BADGE.length ≤ text.length ∧
    (find ['-'] (text.drop (place + BADGE.length))).isSome

instance (text : Text) : Decidable (BadgesClosed text) :=
  inferInstanceAs (Decidable (∀ _ ∈ _, _))

theorem badgeLanes_append {text : Text} (htext : BadgesClosed text) {sep : Char}
    (hsep : sep ∉ BADGE) (rest : Text) :
    badgeLanes (text ++ sep :: rest) = badgeLanes text ++ badgeLanes rest := by
  have hsplit : matchIndices BADGE (text ++ sep :: rest) =
      matchIndices BADGE text ++ (matchIndices BADGE rest).map (text.length + 1 + ·) := by
    rw [matchIndices, matchIndicesFrom_append hsep (by decide) _ _ (Nat.zero_le _), matchIndices,
      matchIndices, ← matchIndicesFrom_add, Nat.add_zero, Nat.zero_add]
  have hbefore : (matchIndices BADGE text).filterMap (badgeLane (text ++ sep :: rest)) =
      badgeLanes text := by
    apply List.filterMap_congr
    intro place hplace
    obtain ⟨hbound, hclose⟩ := htext place hplace
    exact badgeLane_append hbound hclose _
  have hafter : ∀ place,
      badgeLane (text ++ sep :: rest) (text.length + 1 + place) = badgeLane rest place := by
    intro place
    have hdrop : (text ++ sep :: rest).drop (text.length + 1 + place + BADGE.length) =
        rest.drop (place + BADGE.length) := by
      rw [List.append_cons, Nat.add_assoc,
        show text.length + 1 = (text ++ [sep]).length by simp, List.drop_length_add_append]
    simp only [badgeLane, hdrop]
  rw [badgeLanes, hsplit, List.filterMap_append, hbefore, List.filterMap_map]
  congr 1
  apply List.filterMap_congr
  intro place _
  exact hafter place

theorem priorityBadge_spec (severity : Severity) :
    BadgesClosed (priorityBadge severity) ∧ badgeLanes (priorityBadge severity) = [] ∧
      '*' ∉ priorityBadge severity ∧ '\n' ∉ priorityBadge severity := by
  cases severity <;> decide +kernel

theorem laneConfidenceBadge_spec (lane : LaneId) (certainty : Certainty) :
    BadgesClosed (laneConfidenceBadge lane certainty) ∧
      badgeLanes (laneConfidenceBadge lane certainty) = [lane] ∧
      '*' ∉ laneConfidenceBadge lane certainty ∧ '\n' ∉ laneConfidenceBadge lane certainty := by
  cases lane <;> cases certainty <;> decide +kernel

theorem laneIn_headOf (severity : Severity) (lane : LaneId) (certainty : Certainty) (rest : Text) :
    laneIn (headOf severity lane certainty ++ '\n' :: rest) = some lane := by
  obtain ⟨hpriority, hnone, -⟩ := priorityBadge_spec severity
  obtain ⟨hbadge, hlane, -⟩ := laneConfidenceBadge_spec lane certainty
  have htext : headOf severity lane certainty ++ '\n' :: rest =
      priorityBadge severity ++ ' ' :: ([] ++ ' ' :: (laneConfidenceBadge lane certainty ++
        '\n' :: rest)) := by
    simp [headOf]
  change (badgeLanes _).head? = _
  rw [htext, badgeLanes_append hpriority (by decide), hnone,
    badgeLanes_append (by decide) (by decide), badgeLanes_append hbadge (by decide), hlane]
  rfl

theorem star_notMem_headOf (severity : Severity) (lane : LaneId) (certainty : Certainty) :
    '*' ∉ headOf severity lane certainty := by
  simp only [headOf, List.mem_append, not_or]
  exact ⟨⟨(priorityBadge_spec severity).2.2.1, by decide⟩,
    (laneConfidenceBadge_spec lane certainty).2.2.1⟩

end Badges

section Title

variable (isAlphanumeric : Char → Bool)

/-- The mark after a rendered text is found where reading it stops. -/
theorem find_mark (text rest : Text) :
    find "**".toList (prose isAlphanumeric text ++ ("**".toList ++ rest)) =
      some (closed (prose isAlphanumeric text)).length := by
  have hfound := find_pair (not_infix_prose isAlphanumeric (d := '*') (by simp) text) rest
  unfold closed
  split
  · next hlast =>
    rw [if_pos hlast] at hfound
    rw [List.length_dropLast]
    exact hfound
  · next hlast =>
    rw [if_neg hlast] at hfound
    exact hfound

theorem take_closed (shown rest : Text) :
    (shown ++ rest).take (closed shown).length = closed shown := by
  unfold closed
  split
  · rw [List.take_append_of_le_length (by simp), List.dropLast_eq_take, List.length_take]
    congr 1
    omega
  · simp

/-- What stands before the title: the badges, and an empty line. -/
def beforeTitle (severity : Severity) (lane : LaneId) (certainty : Certainty) : Text :=
  headOf severity lane certainty ++ "\n\n".toList

variable (severity : Severity) (lane : LaneId) (certainty : Certainty) (title rest : Text)

theorem find_title : find "**".toList
    (beforeTitle severity lane certainty ++ ("**".toList ++ rest)) =
      some (beforeTitle severity lane certainty).length := by
  have hnone : '*' ∉ beforeTitle severity lane certainty := by
    simp only [beforeTitle, List.mem_append, not_or]
    exact ⟨star_notMem_headOf severity lane certainty, by decide⟩
  have hfound := @find_append _ _ _ ['*'] _ hnone rest
  simpa using hfound

theorem titleIn_append :
    titleIn (beforeTitle severity lane certainty ++ ("**".toList ++
        (prose isAlphanumeric title ++ ("**".toList ++ rest)))) =
      if trim (closed (prose isAlphanumeric title)) = [] then none
      else some (trim (closed (prose isAlphanumeric title))) := by
  have hread : between "**".toList "**".toList
      (beforeTitle severity lane certainty ++ ("**".toList ++
        (prose isAlphanumeric title ++ ("**".toList ++ rest)))) =
      some (closed (prose isAlphanumeric title)) := by
    rw [between, find_title, Option.bind_some]
    dsimp only
    rw [← List.length_append, ← List.append_assoc, List.drop_left, find_mark, Option.map_some,
      take_closed]
  rw [titleIn, hread, Option.map_some, Option.filter_some]
  split <;> simp_all

theorem afterTitle_append (htitle : Verbatim isAlphanumeric title) :
    afterTitle (beforeTitle severity lane certainty ++ ("**".toList ++
        (prose isAlphanumeric title ++ ("**".toList ++ rest)))) = some rest := by
  have hclosed : closed (prose isAlphanumeric title) = prose isAlphanumeric title :=
    closed_of_notMem (htitle.star_notMem isAlphanumeric)
  rw [afterTitle, find_title, Option.bind_some]
  dsimp only
  rw [show (beforeTitle severity lane certainty).length + 2 =
      (beforeTitle severity lane certainty ++ "**".toList).length by simp, ← List.append_assoc,
    List.drop_left, find_mark, hclosed, Option.map_some,
    show (prose isAlphanumeric title).length + 2 =
      (prose isAlphanumeric title ++ "**".toList).length by simp, ← List.append_assoc, List.drop_left]

end Title

section Rule

variable (isAlphanumeric : Char → Bool)

def ruleOpener : Text := "**[RULE] ".toList

/-- What of a rule stands before its first colon. -/
def ruleHead (rule : Text) : Text :=
  match splitOnce ':' rule with
  | some (head, _) => head
  | none => rule

/-- The name of the rule is plain, and a colon after it is followed by an explanation. -/
structure RulePlain (rule : Text) : Prop where
  head : Plain isAlphanumeric (ruleHead rule)
  explained : ∀ head rest, splitOnce ':' rule = some (head, rest) → trim rest ≠ []

theorem ruleIn_append_newline {text : Text} (hnot : ¬ruleOpener <:+: text) (rest : Text) :
    ruleIn (text ++ '\n' :: rest) = ruleIn rest := by
  unfold ruleIn
  rw [show "**[RULE] ".toList = ruleOpener from rfl, between_append_sep (by decide) (by decide) hnot]

theorem ruleIn_opener (name rest : Text) :
    ruleIn (ruleOpener ++ (prose isAlphanumeric name ++ ("**".toList ++ rest))) =
      if trim (closed (prose isAlphanumeric name)) = [] then none
      else some (trim (closed (prose isAlphanumeric name))) := by
  have hread : between "**[RULE] ".toList "**".toList
      (ruleOpener ++ (prose isAlphanumeric name ++ ("**".toList ++ rest))) =
        some (closed (prose isAlphanumeric name)) := by
    have hopen : find "**[RULE] ".toList
        (ruleOpener ++ (prose isAlphanumeric name ++ ("**".toList ++ rest))) = some 0 :=
      find_of_match (List.prefix_append _ _)
    rw [between, hopen, Option.bind_some]
    dsimp only
    rw [Nat.zero_add, show "**[RULE] ".toList = ruleOpener from rfl, List.drop_left, find_mark,
      Option.map_some, take_closed]
  rw [ruleIn, hread, Option.map_some, Option.filter_some]
  split <;> simp_all

theorem trim_append_colon (head rest : Text) :
    trim (head ++ ':' :: rest) = trimStart head ++ ':' :: trimEnd rest := by
  have hstart : trimStart (head ++ ':' :: rest) = trimStart head ++ ':' :: rest := by
    unfold trimStart
    rw [List.dropWhile_append]
    split
    · next hblank =>
      rw [List.isEmpty_iff.mp hblank]
      rfl
    · rfl
  have hcolon : trimEnd (':' :: rest) = ':' :: trimEnd rest := by
    by_cases hblank : trimEnd rest = []
    · have hall := (List.rdropWhile_eq_nil_iff).mp hblank
      have hdrop : rest.reverse.dropWhile isWhitespace = [] :=
        List.dropWhile_eq_nil_iff.mpr fun c hc => hall c (List.mem_reverse.mp hc)
      rw [hblank]
      simp [trimEnd, List.rdropWhile, List.dropWhile_append, hdrop]
      decide
    · exact @trimEnd_append [':'] _ hblank
  rw [trim, hstart, trimEnd_append (by simp [hcolon]), hcolon]

theorem ruleLine_bare {rule : Text}
    (h : ∀ head rest, splitOnce ':' (trim rule) = some (head, rest) →
      trim head = [] ∨ trim rest = []) :
    ruleLine isAlphanumeric rule =
      ruleOpener ++ (prose isAlphanumeric (trim rule) ++ ("**".toList ++ [])) := by
  have hbold : ruleOpener ++ (prose isAlphanumeric (trim rule) ++ ("**".toList ++ [])) =
      ruleOpener ++ prose isAlphanumeric (trim rule) ++ "**".toList := by
    rw [List.append_nil, List.append_assoc]
  rw [hbold]
  unfold ruleLine
  dsimp only
  split
  · next head rest hsplit =>
    rw [if_neg (by rcases h head rest hsplit with h | h <;> simp [h])]
    rfl
  · rfl

theorem ruleLine_explained {rule head rest : Text}
    (hsplit : splitOnce ':' (trim rule) = some (head, rest)) (hhead : trim head ≠ [])
    (hrest : trim rest ≠ []) :
    ruleLine isAlphanumeric rule =
      ruleOpener ++ (prose isAlphanumeric (trim head) ++
        ("**".toList ++ (": ".toList ++ prose isAlphanumeric (trim rest)))) := by
  have hboth : (!(trim head).isEmpty && !(trim rest).isEmpty) = true := by
    simp [hhead, hrest]
  have hline : ruleLine isAlphanumeric rule =
      ruleOpener ++ prose isAlphanumeric (trim head) ++ "**: ".toList ++
        prose isAlphanumeric (trim rest) := by
    unfold ruleLine
    dsimp only
    rw [hsplit]
    exact if_pos hboth
  have hmark : "**: ".toList = "**".toList ++ ": ".toList := by decide
  rw [hline, hmark]
  generalize prose isAlphanumeric (trim head) = name
  generalize prose isAlphanumeric (trim rest) = explanation
  rw [List.append_assoc, List.append_assoc, List.append_assoc]

/-- The rule line: a name in bold, and perhaps an explanation. -/
theorem ruleLine_eq {rule : Text} (hhead : trim (ruleHead rule) ≠ []) :
    ∃ name rest, ruleLine isAlphanumeric rule =
        ruleOpener ++ (prose isAlphanumeric name ++ ("**".toList ++ rest)) ∧
      ((name = trim (ruleHead rule) ∧
          (∀ head rest, splitOnce ':' rule = some (head, rest) → trim rest ≠ []) ∧
          (rest = [] ∨ ∃ explanation, rest = ": ".toList ++ prose isAlphanumeric explanation)) ∨
        name = trimStart (ruleHead rule) ++ [':'] ∧
          ¬∀ head rest, splitOnce ':' rule = some (head, rest) → trim rest ≠ []) := by
  rcases hsplit : splitOnce ':' rule with _ | ⟨head, rest⟩
  · have hcolon := splitOnce_eq_none_iff.mp hsplit
    have hsplit' : splitOnce ':' (trim rule) = none :=
      splitOnce_eq_none_iff.mpr fun hmem => hcolon ((trim_infix_self rule).subset hmem)
    have hname : ruleHead rule = rule := by simp [ruleHead, hsplit]
    rw [hname]
    refine ⟨trim rule, [], ruleLine_bare isAlphanumeric ?_, .inl ⟨rfl, ?_, .inl rfl⟩⟩
    · rw [hsplit']
      exact nofun
    · exact nofun
  · obtain ⟨hrule, hcolon⟩ := splitOnce_eq_some_iff.mp hsplit
    have hname : ruleHead rule = head := by simp [ruleHead, hsplit]
    rw [hname] at hhead ⊢
    have htrim : trim rule = trimStart head ++ ':' :: trimEnd rest := by
      rw [hrule, trim_append_colon]
    have hsplit' : splitOnce ':' (trim rule) = some (trimStart head, trimEnd rest) := by
      rw [htrim]
      exact splitOnce_append (fun hmem => hcolon ((List.dropWhile_suffix _).subset hmem)) _
    have hstart : trim (trimStart head) = trim head := by
      unfold trim trimStart
      rw [List.dropWhile_idempotent]
    by_cases hrest : trim rest = []
    · have hblank : trimEnd rest = [] := by
        rw [trim_eq_nil_iff] at hrest
        exact (List.rdropWhile_eq_nil_iff).mpr hrest
      have hline := @ruleLine_bare isAlphanumeric rule (by
        rw [hsplit', hblank]
        intro other tail hparts
        cases hparts
        exact .inr rfl)
      rw [htrim, hblank] at hline
      exact ⟨_, _, hline, .inr ⟨rfl, fun hall => hall head rest rfl hrest⟩⟩
    · have hline := ruleLine_explained isAlphanumeric hsplit' (by rwa [hstart])
        (by rwa [trim_trimEnd])
      rw [hstart] at hline
      refine ⟨_, _, hline, .inl ⟨rfl, ?_, .inr ⟨_, rfl⟩⟩⟩
      intro other tail hparts
      cases hparts
      exact hrest

/-- Reading the rule line gives the name of the rule where that is plain and alone in bold. -/
theorem ruleIn_ruleLine {rule : Text} (hhead : trim (ruleHead rule) ≠ []) (footer : Text) :
    ruleIn (ruleLine isAlphanumeric rule ++ footer) = some (ruleHead rule) ↔
      RulePlain isAlphanumeric rule := by
  obtain ⟨name, rest, hline, hname⟩ := ruleLine_eq isAlphanumeric hhead
  have hne : ruleHead rule ≠ [] := by
    intro hnil
    rw [hnil] at hhead
    exact hhead rfl
  have hread : ruleIn (ruleLine isAlphanumeric rule ++ footer) = some (ruleHead rule) ↔
      trim (closed (prose isAlphanumeric name)) = ruleHead rule := by
    rw [hline, List.append_assoc, List.append_assoc, List.append_assoc, ruleIn_opener]
    split
    · next hnil =>
      rw [hnil]
      exact iff_of_false nofun fun h => hne h.symm
    · rw [Option.some.injEq]
  rw [hread]
  rcases hname with ⟨rfl, hexplained, -⟩ | ⟨hname, hbare⟩
  · constructor
    · intro h
      have htrimmed : trim (ruleHead rule) = ruleHead rule := by
        rw [← h, trim_trim]
      rw [htrimmed] at h
      exact ⟨((read_iff_verbatim isAlphanumeric _).mp h).plain isAlphanumeric, hexplained⟩
    · rintro ⟨hplain, -⟩
      rw [hplain.trimmed]
      exact (read_iff_verbatim isAlphanumeric _).mpr (hplain.verbatim isAlphanumeric)
  · constructor
    · intro h
      exact absurd h (read_ne_of_colon isAlphanumeric hname)
    · rintro ⟨-, hexplained⟩
      exact absurd hexplained hbare

end Rule

end TinySweeper.App
