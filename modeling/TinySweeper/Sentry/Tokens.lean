import TinySweeper.Sentry.Shapes

/-!
# Tokens through a pass

A pass over tokens leaves the tokens it does not rewrite and those of its mark. A
mark between separators stands apart, and the elision mark taints the token it is in.
-/

namespace TinySweeper.Sentry

open Text

theorem tokensFrom_append_sep {c : Char} (hc : isSeparator c = true) (token before after : Text) :
    tokensFrom token (before ++ c :: after) = tokensFrom token before ++ tokens after := by
  induction before generalizing token with
  | nil => simp [tokensFrom, tokens, hc]
  | cons d before ih =>
    rw [List.cons_append]
    unfold tokensFrom
    split
    · rw [ih, List.append_assoc]
    · rw [ih]

theorem tokens_append_sep {c : Char} (hc : isSeparator c = true) (before after : Text) :
    tokens (before ++ c :: after) = tokens before ++ tokens after :=
  tokensFrom_append_sep hc [] before after

theorem tokensFrom_of_unseparated {text : Text} (h : ∀ c ∈ text, isSeparator c = false)
    (token : Text) : tokensFrom token text = flushToken (token ++ text) := by
  induction text generalizing token with
  | nil => rw [tokensFrom, List.append_nil]
  | cons c text ih =>
    have hc := h c List.mem_cons_self
    unfold tokensFrom
    rw [if_neg (by simp [hc]), ih fun d hd => h d (List.mem_cons_of_mem c hd)]
    simp

section Rules

variable {rule : Text → Option Text} {token text : Text}

variable (token) in
/-- A token of the rewritten text is one the rule left alone, or stands in a replacement. -/
theorem mem_tokens_rewriteFrom (htoken : ∀ c ∈ token, isSeparator c = false) {found : Text}
    (h : found ∈ tokens (rewriteFrom rule token text)) :
    (found ∈ tokensFrom token text ∧ rule found = none) ∨
      ∃ old replacement, rule old = some replacement ∧ found ∈ tokens replacement := by
  have hpush : ∀ pending : Text, (∀ c ∈ pending, isSeparator c = false) →
      found ∈ tokens (pushToken rule pending) → (found ∈ flushToken pending ∧ rule found = none) ∨
        ∃ old replacement, rule old = some replacement ∧ found ∈ tokens replacement := by
    intro pending hpending hfound
    unfold pushToken at hfound
    split at hfound
    · exact absurd hfound List.not_mem_nil
    · cases hrule : rule pending with
      | some replacement =>
        rw [hrule, Option.getD_some] at hfound
        exact .inr ⟨pending, replacement, hrule, hfound⟩
      | none =>
        rw [hrule, Option.getD_none, tokens, tokensFrom_of_unseparated hpending,
          List.nil_append] at hfound
        left
        refine ⟨hfound, ?_⟩
        rw [flushToken, if_neg ‹_›, List.mem_singleton] at hfound
        rw [hfound, hrule]
  induction text generalizing token with
  | nil =>
    rw [rewriteFrom] at h
    exact hpush token htoken h
  | cons c text ih =>
    unfold rewriteFrom at h
    unfold tokensFrom
    split at h
    · next hc =>
      rw [if_pos hc]
      rw [tokens_append_sep hc, List.mem_append] at h
      rcases h with hhere | hlater
      · rcases hpush token htoken hhere with ⟨hmem, hnone⟩ | hmark
        · exact .inl ⟨List.mem_append_left _ hmem, hnone⟩
        · exact .inr hmark
      · rcases ih [] nofun hlater with ⟨hmem, hnone⟩ | hmark
        · exact .inl ⟨List.mem_append_right _ hmem, hnone⟩
        · exact .inr hmark
    · next hc =>
      rw [if_neg hc]
      apply ih _ _ h
      intro d hd
      rcases List.mem_append.mp hd with hd | hd
      · exact htoken d hd
      · rw [List.mem_singleton.mp hd]
        simpa using hc

theorem rewriteFrom_of_none (h : ∀ found ∈ tokensFrom token text, rule found = none) :
    rewriteFrom rule token text = token ++ text := by
  have hpush : ∀ pending : Text, (∀ found ∈ flushToken pending, rule found = none) →
      pushToken rule pending = pending := by
    intro pending hpending
    unfold pushToken
    split
    · next hnil => rw [hnil]
    · next hne => rw [hpending pending (by simp [flushToken, hne]), Option.getD_none]
  induction text generalizing token with
  | nil =>
    rw [rewriteFrom, List.append_nil]
    exact hpush token h
  | cons c text ih =>
    unfold rewriteFrom
    unfold tokensFrom at h
    split
    · next hc =>
      rw [if_pos hc] at h
      rw [hpush token fun found hfound => h found (List.mem_append_left _ hfound),
        ih fun found hfound => h found (List.mem_append_right _ hfound), List.nil_append]
    · next hc =>
      rw [if_neg hc] at h
      rw [ih h, List.append_assoc, List.singleton_append]

end Rules

section Cut

variable {p : Text → Bool} {mark token text : Text}

theorem source_flushCut (cutting : Cutting Char) :
    (flushCut p token cutting).source = token ++ cutting.source := by
  unfold flushCut
  split_ifs with hnil
  · rw [hnil, List.nil_append]
  · exact Cutting.source_cut
  · exact Cutting.source_keep

theorem written_flushCut (cutting : Cutting Char) :
    (flushCut p token cutting).written mark =
      pushToken (fun token => if p token then some mark else none) token ++
        cutting.written mark := by
  unfold flushCut pushToken
  dsimp only
  split_ifs with hnil hp
  · rw [List.nil_append]
  · rw [Cutting.written_cut, Option.getD_some]
  · rw [Cutting.written_keep, Option.getD_none]

theorem source_cutTokensFrom : (cutTokensFrom p token text).source = token ++ text := by
  induction text generalizing token with
  | nil => rw [cutTokensFrom, source_flushCut, Cutting.source_whole]
  | cons c text ih =>
    unfold cutTokensFrom
    split
    · rw [source_flushCut, Cutting.source_keep, ih]
      rfl
    · rw [ih, List.append_assoc, List.singleton_append]

theorem written_cutTokensFrom : (cutTokensFrom p token text).written mark =
    rewriteFrom (fun token => if p token then some mark else none) token text := by
  induction text generalizing token with
  | nil => rw [cutTokensFrom, written_flushCut, Cutting.written_whole, rewriteFrom, List.append_nil]
  | cons c text ih =>
    unfold cutTokensFrom rewriteFrom
    split
    · rw [written_flushCut, Cutting.written_keep, ih]
      rfl
    · exact ih

end Cut

/-- A mark between two brackets stands apart from the stretches around it. -/
theorem mem_tokens_written {inner found : Text} {cutting : Cutting Char}
    (h : found ∈ tokens (cutting.written ('[' :: (inner ++ [']'])))) :
    found ∈ tokens inner ∨ ∃ stretch ∈ cutting.stretches, found ∈ tokens stretch := by
  have hopen : isSeparator '[' = true := by decide
  have hclose : isSeparator ']' = true := by decide
  obtain ⟨pairs, last⟩ := cutting
  induction pairs with
  | nil => exact .inr ⟨last, List.mem_singleton_self last, h⟩
  | cons pair pairs ih =>
    obtain ⟨stretch, span⟩ := pair
    rw [Cutting.written_of_pairs_cons, List.cons_append, List.append_assoc, List.singleton_append,
      tokens_append_sep hopen, tokens_append_sep hclose, List.mem_append, List.mem_append] at h
    rcases h with hhere | hmark | hlater
    · exact .inr ⟨stretch, List.mem_cons_self, hhere⟩
    · exact .inl hmark
    · rcases ih hlater with hmark | ⟨other, hother, hmem⟩
      · exact .inl hmark
      · exact .inr ⟨other, List.mem_cons_of_mem stretch hother, hmem⟩

/-- While the pending tokens agree, or one is tainted, every other token is a token of the source. -/
theorem mem_tokensFrom_elided {before found pending : Text} {cutting : Cutting Char}
    (hpending : before = pending ∨ '…' ∈ before) (hfound : '…' ∉ found)
    (h : found ∈ tokensFrom before (cutting.written ELIDED)) :
    found ∈ tokensFrom pending cutting.source := by
  have hflush : ∀ {before pending : Text}, before = pending ∨ '…' ∈ before →
      found ∈ flushToken before → found ∈ flushToken pending := by
    intro before pending hpending hmem
    rcases hpending with rfl | htainted
    · exact hmem
    · unfold flushToken at hmem
      split at hmem
      · exact absurd hmem List.not_mem_nil
      · rw [List.mem_singleton.mp hmem] at hfound
        exact absurd htainted hfound
  obtain ⟨pairs, last⟩ := cutting
  -- one stretch leaves the pending tokens as they were, whatever stands behind it
  have hstretch : ∀ (stretch rest rest' : Text) (before pending : Text),
      before = pending ∨ '…' ∈ before →
      (∀ before pending : Text, before = pending ∨ '…' ∈ before →
        found ∈ tokensFrom before rest → found ∈ tokensFrom pending rest') →
      found ∈ tokensFrom before (stretch ++ rest) →
        found ∈ tokensFrom pending (stretch ++ rest') := by
    intro stretch rest rest'
    induction stretch with
    | nil =>
      intro before pending hpending hrest hmem
      exact hrest before pending hpending hmem
    | cons c stretch ih =>
      intro before pending hpending hrest hmem
      rw [List.cons_append] at hmem ⊢
      unfold tokensFrom at hmem ⊢
      split at hmem
      · next hc =>
        rw [if_pos hc]
        rw [List.mem_append] at hmem ⊢
        rcases hmem with hhere | hlater
        · exact .inl (hflush hpending hhere)
        · exact .inr (ih [] [] (.inl rfl) hrest hlater)
      · next hc =>
        rw [if_neg hc]
        apply ih _ _ _ hrest hmem
        rcases hpending with rfl | htainted
        · exact .inl rfl
        · exact .inr (List.mem_append_left _ htainted)
  induction pairs generalizing before pending with
  | nil =>
    have hlast := hstretch last [] [] before pending hpending
    rw [List.append_nil] at hlast
    exact hlast (fun _ _ hpending hmem => hflush hpending hmem) h
  | cons pair pairs ih =>
    obtain ⟨stretch, span⟩ := pair
    rw [Cutting.written_of_pairs_cons] at h
    rw [Cutting.source_of_pairs_cons]
    refine hstretch stretch _ _ before pending hpending ?_ h
    intro before pending _ hmem
    have hmark : isSeparator '…' = false := by decide
    rw [ELIDED, List.singleton_append, tokensFrom, if_neg (by simp [hmark])] at hmem
    -- the removed span may end the pending token of the source anywhere
    have hspan : ∀ (span pending : Text),
        found ∈ tokensFrom pending (span ++ (⟨pairs, last⟩ : Cutting Char).source) := by
      intro span
      induction span with
      | nil =>
        intro pending
        exact ih (.inr (List.mem_append_right _ (List.mem_singleton_self _))) hmem
      | cons d span ihspan =>
        intro pending
        rw [List.cons_append]
        unfold tokensFrom
        split
        · exact List.mem_append_right _ (ihspan [])
        · exact ihspan _
    exact hspan span pending

/-- A token without the elision mark stood in the text before anything was elided. -/
theorem mem_tokens_elided {found : Text} {cutting : Cutting Char} (hfound : '…' ∉ found)
    (h : found ∈ tokens (cutting.written ELIDED)) : found ∈ tokens cutting.source :=
  mem_tokensFrom_elided (.inl rfl) hfound h

end TinySweeper.Sentry
