import TinySweeper.Sentry.Shapes

/-!
# Digit runs through a pass

The scan visits every place where a bounded run begins, so what it leaves holds none.
Other passes keep it so where they cut nothing out beside a run.
-/

namespace TinySweeper.Sentry

open Text

variable {text rest before front behind : Text} {c : Char}

/-- The character goes on a run: a digit, or a separator with a digit behind it. -/
def goesOn (c : Char) (text : Text) : Bool :=
  c.isDigit || (isRunSeparator c && text.head?.any Char.isDigit)

theorem goesOn_congr {other : Text} (c : Char)
    (h : text.head?.any Char.isDigit = other.head?.any Char.isDigit) :
    goesOn c text = goesOn c other := by
  rw [goesOn, goesOn, h]

theorem takeRun_cons (c : Char) (text : Text) : takeRun (c :: text) =
    if goesOn c text then (c :: (takeRun text).1, (takeRun text).2) else ([], c :: text) := by
  rw [takeRun, goesOn, isRunSeparator]
  cases c.isDigit <;> simp

theorem takeRun_digit (hc : c.isDigit = true) (text : Text) :
    takeRun (c :: text) = (c :: (takeRun text).1, (takeRun text).2) := by
  rw [takeRun, if_pos hc]

theorem takeRun_append_self (text : Text) : (takeRun text).1 ++ (takeRun text).2 = text := by
  induction text with
  | nil => rfl
  | cons c text ih =>
    rw [takeRun_cons]
    split <;> simp [ih]

/-- No run begins where one was taken from. -/
theorem takeRun_snd (text : Text) : (takeRun (takeRun text).2).1 = [] := by
  induction text with
  | nil => rfl
  | cons c text ih =>
    rw [takeRun_cons c text]
    split
    · exact ih
    next hstop => rw [takeRun_cons, if_neg hstop]

theorem takeRun_eq_nil_iff : (takeRun (c :: text)).1 = [] ↔
    c.isDigit = false ∧ (isRunSeparator c = true → text.head?.any Char.isDigit = false) := by
  rw [takeRun_cons, goesOn]
  cases c.isDigit <;> cases isRunSeparator c <;> cases text.head?.any Char.isDigit <;> simp

theorem head_not_digit_of_takeRun (h : (takeRun text).1 = []) :
    text.head?.any Char.isDigit = false := by
  cases text with
  | nil => rfl
  | cons c text => simpa using (takeRun_eq_nil_iff.mp h).1

/-- What begins a text that begins no run begins none. -/
theorem takeRun_of_prefix (h : (takeRun rest).1 = []) (htext : text <+: rest) :
    (takeRun text).1 = [] := by
  cases text with
  | nil => rfl
  | cons c text =>
    obtain ⟨after, rfl⟩ := htext
    rw [List.cons_append, takeRun_eq_nil_iff] at h
    refine takeRun_eq_nil_iff.mpr ⟨h.1, fun hsep => ?_⟩
    cases text with
    | nil => rfl
    | cons d text => exact h.2 hsep

theorem head_run_append (text : Text) (h : (takeRun rest).1 = []) :
    ((takeRun text).1 ++ rest).head?.any Char.isDigit = text.head?.any Char.isDigit := by
  cases text with
  | nil => exact head_not_digit_of_takeRun h
  | cons c text =>
    rw [takeRun_cons]
    split
    · rfl
    next hstop =>
      have hdigit : c.isDigit = false := by simp_all [goesOn]
      simpa [hdigit] using head_not_digit_of_takeRun h

theorem takeRun_run_append (text : Text) (h : (takeRun rest).1 = []) :
    takeRun ((takeRun text).1 ++ rest) = ((takeRun text).1, rest) := by
  have hrest : takeRun rest = ([], rest) := by
    have hparts := takeRun_append_self rest
    rw [h, List.nil_append] at hparts
    exact Prod.ext h hparts
  induction text with
  | nil => exact hrest
  | cons c text ih =>
    rw [takeRun_cons c text]
    split
    next hgoes =>
      rw [List.cons_append, takeRun_cons, goesOn_congr c (head_run_append text h), if_pos hgoes, ih]
    · exact hrest

/-- A separator of a run is followed by a digit. -/
theorem takeRun_isChain (text : Text) :
    (takeRun text).1.IsChain fun c d => c.isDigit = true ∨ d.isDigit = true := by
  induction text with
  | nil => exact .nil
  | cons c text ih =>
    rw [takeRun_cons]
    split
    next hgoes =>
      refine List.isChain_cons.mpr ⟨fun d hd => ?_, ih⟩
      rw [goesOn, Bool.or_eq_true, Bool.and_eq_true] at hgoes
      rcases hgoes with hdigit | ⟨-, hhead⟩
      · exact .inl hdigit
      · cases text with
        | nil => cases hhead
        | cons e text =>
          have he : e.isDigit = true := hhead
          rw [takeRun_digit he] at hd
          obtain rfl : e = d := by simpa using hd
          exact .inr he
    · exact .nil

theorem isRunSeparator_of_mem (h : c ∈ (takeRun text).1) (hc : c.isDigit = false) :
    isRunSeparator c = true := by
  induction text with
  | nil => cases h
  | cons d text ih =>
    rw [takeRun_cons] at h
    split at h
    next hgoes =>
      rcases List.mem_cons.mp h with rfl | hmem
      · rw [goesOn, hc, Bool.false_or, Bool.and_eq_true] at hgoes
        exact hgoes.1
      · exact ih hmem
    · cases h

/-- A character that continues no run separates the runs on its two sides. -/
theorem takeRun_append_guard {g : Char} (hdigit : g.isDigit = false)
    (hsep : isRunSeparator g = false) (text rest : Text) :
    takeRun (text ++ g :: rest) = ((takeRun text).1, (takeRun text).2 ++ g :: rest) := by
  induction text with
  | nil =>
    rw [List.nil_append, takeRun_cons, if_neg (by simp [goesOn, hdigit, hsep])]
    rfl
  | cons c text ih =>
    have hhead : (text ++ g :: rest).head?.any Char.isDigit = text.head?.any Char.isDigit := by
      cases text with
      | nil => simpa using hdigit
      | cons d text => rfl
    rw [List.cons_append, takeRun_cons, takeRun_cons, goesOn_congr c hhead, ih]
    split <;> rfl

theorem endsInRun_concat (before : Text) (c : Char) : endsInRun (before ++ [c]) =
    (c.isDigit || (isRunSeparator c && before.getLast?.any Char.isDigit)) := by
  cases before using List.reverseRecOn with
  | nil => simp [endsInRun]
  | append_singleton before d => simp [endsInRun]

/-- Within a run every place is behind a digit, or behind a separator that follows one. -/
theorem endsInRun_of_run {after : Text} (hc : c.isDigit = true)
    (hrun : (takeRun (c :: text)).1 = before ++ after) (hbefore : before ≠ []) :
    endsInRun before = true := by
  have hchain := takeRun_isChain (c :: text)
  have hmem : ∀ d ∈ before, d ∈ (takeRun (c :: text)).1 := fun d hd =>
    hrun ▸ List.mem_append_left after hd
  cases before using List.reverseRecOn with
  | nil => exact absurd rfl hbefore
  | append_singleton before d =>
    rw [endsInRun_concat, Bool.or_eq_true, Bool.and_eq_true]
    cases hd : d.isDigit with
    | true => exact .inl rfl
    | false =>
      refine .inr ⟨isRunSeparator_of_mem (hmem d (by simp)) hd, ?_⟩
      cases before using List.reverseRecOn with
      | nil =>
        rw [takeRun_digit hc] at hrun
        obtain ⟨rfl, -⟩ := List.cons.inj hrun
        rw [hc] at hd
        cases hd
      | append_singleton before e =>
        rw [hrun] at hchain
        simp only [List.append_assoc, List.cons_append, List.nil_append,
          List.isChain_append_cons_cons] at hchain
        rw [hd] at hchain
        simpa using hchain.2.1

/-- What stands further ahead can only add a digit before the separator. -/
theorem endsInRun_of_append (h : endsInRun before = true) : endsInRun (front ++ before) = true := by
  cases before using List.reverseRecOn with
  | nil => simp [endsInRun] at h
  | append_singleton before c =>
    rw [endsInRun_concat, Bool.or_eq_true, Bool.and_eq_true] at h
    rw [← List.append_assoc, endsInRun_concat, Bool.or_eq_true, Bool.and_eq_true]
    rcases h with hdigit | ⟨hsep, hlast⟩
    · exact .inl hdigit
    · right
      refine ⟨hsep, ?_⟩
      cases before using List.reverseRecOn with
      | nil => simp at hlast
      | append_singleton before d => simpa [← List.append_assoc] using hlast

theorem isCard_eq_true_iff {prev next : Option Char} {run : Text} :
    isCard prev run next = true ↔ (∀ c ∈ prev, isTokenChar c = false) ∧
      (∀ c ∈ next, isTokenChar c = false) ∧ CARD_MIN_DIGITS ≤ run.countP Char.isDigit ∧
        run.countP Char.isDigit ≤ CARD_MAX_DIGITS := by
  cases prev <;> cases next <;> simp [isCard, and_assoc]

/-- Leaving out what stands ahead of it leaves a bounded run bounded. -/
theorem cardAt_of_append (h : cardAt (front ++ before) rest = true) :
    cardAt before rest = true := by
  simp only [cardAt, Bool.and_eq_true, Bool.not_eq_true', isCard_eq_true_iff] at h ⊢
  obtain ⟨⟨hdigit, hends⟩, hleft, hright⟩ := h
  refine ⟨⟨hdigit, ?_⟩, ?_, hright⟩
  · cases hinner : endsInRun before with
    | false => rfl
    | true => exact absurd hends (by simp [endsInRun_of_append hinner])
  · intro c hc
    cases before using List.reverseRecOn with
    | nil => simp at hc
    | append_singleton before d => exact hleft c (by simpa [← List.append_assoc] using hc)

theorem cardAt_of_append_guard {g : Char} (hdigit : g.isDigit = false)
    (hsep : isRunSeparator g = false) (htext : text ≠ [])
    (h : cardAt before (text ++ g :: rest) = true) : cardAt before text = true := by
  simp only [cardAt, Bool.and_eq_true, isCard_eq_true_iff, takeRun_append_guard hdigit hsep] at h ⊢
  obtain ⟨⟨hhead, hends⟩, hleft, hright, hcount⟩ := h
  refine ⟨⟨?_, hends⟩, hleft, ?_, hcount⟩
  · cases text with
    | nil => exact absurd rfl htext
    | cons c text => exact hhead
  · intro c hc
    apply hright c
    cases hafter : (takeRun text).2 with
    | nil => simp [hafter] at hc
    | cons d after => simpa [hafter] using hc

theorem takeRun_append (h : 2 ≤ (takeRun text).2.length) :
    takeRun (text ++ behind) = ((takeRun text).1, (takeRun text).2 ++ behind) := by
  induction text with
  | nil => cases h
  | cons c text ih =>
    rw [takeRun_cons] at h
    have hne : text ≠ [] := by
      rintro rfl
      split at h <;> simp [takeRun] at h
    have hgoes : goesOn c (text ++ behind) = goesOn c text :=
      goesOn_congr c (by rw [List.head?_append_of_ne_nil text hne])
    rw [List.cons_append, takeRun_cons, takeRun_cons, hgoes]
    split_ifs at h ⊢
    · rw [ih h]
    · rfl

theorem endsInRun_append (h : 2 ≤ before.length) :
    endsInRun (front ++ before) = endsInRun before := by
  cases before using List.reverseRecOn with
  | nil => simp at h
  | append_singleton before c =>
    cases before using List.reverseRecOn with
    | nil => simp at h
    | append_singleton before d =>
      rw [← List.append_assoc, endsInRun_concat, endsInRun_concat, ← List.append_assoc,
        List.getLast?_concat, List.getLast?_concat]

/-- A bounded run with two characters on a side is one whatever stands further that way. -/
theorem cardAt_append (hfront : front = [] ∨ 2 ≤ before.length)
    (hbehind : behind = [] ∨ 2 ≤ (takeRun rest).2.length) (h : cardAt before rest = true) :
    cardAt (front ++ before) (rest ++ behind) = true := by
  have hleft : cardAt (front ++ before) rest = true := by
    rcases hfront with rfl | hlong
    · exact h
    · have hlast : (front ++ before).getLast? = before.getLast? := by
        rw [List.getLast?_append]
        cases before using List.reverseRecOn with
        | nil => simp at hlong
        | append_singleton before c => simp
      rw [cardAt, endsInRun_append hlong, hlast]
      exact h
  rcases hbehind with rfl | hlong
  · rw [List.append_nil]
    exact hleft
  · have hhead : (rest ++ behind).head? = rest.head? := by
      cases rest with
      | nil => simp [takeRun] at hlong
      | cons c rest => rfl
    have hnext : ((takeRun rest).2 ++ behind).head? = (takeRun rest).2.head? := by
      cases hafter : (takeRun rest).2 with
      | nil => simp [hafter] at hlong
      | cons d after => rfl
    rw [cardAt, takeRun_append hlong, hhead, hnext]
    exact hleft

/-- No bounded run of a stretch is within a character of a cut at its one or its other end. -/
def Apart (opened closed : Bool) (stretch : Text) : Prop :=
  ∀ before rest, stretch = before ++ rest → cardAt before rest = true →
    (opened = true → 2 ≤ before.length) ∧ (closed = true → 2 ≤ (takeRun rest).2.length)

def RunsApartFrom : (opened : Bool) → List (Text × Text) → (last : Text) → Prop
  | opened, [], last => Apart opened false last
  | opened, pair :: pairs, last => Apart opened true pair.1 ∧ RunsApartFrom true pairs last

/-- Nothing is cut out beside a digit run that stands bounded in what is left. -/
def RunsApart (cutting : Cutting Char) : Prop := RunsApartFrom false cutting.pairs cutting.last

theorem Apart.cardFree {opened closed : Bool} {stretch : Text} (h : Apart opened closed stretch)
    (hfront : opened = false → front = []) (hbehind : closed = false → behind = [])
    (hfree : CardFree (front ++ (stretch ++ behind))) : CardFree stretch := by
  rintro before rest rfl
  cases hcard : cardAt before rest with
  | false => rfl
  | true =>
    obtain ⟨hopened, hclosed⟩ := h before rest rfl hcard
    have hleft : front = [] ∨ 2 ≤ before.length := by
      cases opened with
      | false => exact .inl (hfront rfl)
      | true => exact .inr (hopened rfl)
    have hright : behind = [] ∨ 2 ≤ (takeRun rest).2.length := by
      cases closed with
      | false => exact .inl (hbehind rfl)
      | true => exact .inr (hclosed rfl)
    have hnot := hfree (front ++ before) (rest ++ behind) (by simp)
    rw [cardAt_append hleft hright hcard] at hnot
    cases hnot

theorem cardFree_stretches {cutting : Cutting Char} (hfree : CardFree cutting.source)
    (h : RunsApart cutting) : ∀ stretch ∈ cutting.stretches, CardFree stretch := by
  obtain ⟨pairs, last⟩ := cutting
  have hrun : ∀ (opened : Bool) (front : Text), (opened = false → front = []) →
      CardFree (front ++ (⟨pairs, last⟩ : Cutting Char).source) →
      RunsApartFrom opened pairs last →
      ∀ stretch ∈ (⟨pairs, last⟩ : Cutting Char).stretches, CardFree stretch := by
    clear hfree h
    induction pairs with
    | nil =>
      intro opened front hfront hfree h stretch hstretch
      rw [List.mem_singleton.mp hstretch]
      refine h.cardFree hfront (fun _ => rfl) ?_
      rw [List.append_nil]
      exact hfree
    | cons pair pairs ih =>
      intro opened front hfront hfree h stretch hstretch
      rw [Cutting.source_of_pairs_cons] at hfree
      rcases List.mem_cons.mp hstretch with rfl | hlater
      · exact h.1.cardFree hfront (by simp) hfree
      · refine ih true (front ++ (pair.1 ++ pair.2)) (by simp) ?_ h.2 stretch hlater
        simpa only [List.append_assoc] using hfree
  exact hrun false [] (fun _ => rfl) hfree h

theorem runsApart_of_pairs_eq_nil {cutting : Cutting Char} (h : cutting.pairs = []) :
    RunsApart cutting := by
  rw [RunsApart, h]
  exact fun before rest _ _ => by simp

/-- Marks without digits, of which the first character continues no run, keep runs apart. -/
theorem cardFree_written (g : Char) (tail : Text) (hdigits : ∀ c ∈ g :: tail, c.isDigit = false)
    (hsep : isRunSeparator g = false) {cutting : Cutting Char}
    (h : ∀ stretch ∈ cutting.stretches, CardFree stretch) :
    CardFree (cutting.written (g :: tail)) := by
  obtain ⟨pairs, last⟩ := cutting
  induction pairs with
  | nil => exact h last (List.mem_singleton_self last)
  | cons pair pairs ih =>
    obtain ⟨stretch, span⟩ := pair
    have hlater := ih fun other hother => h other (List.mem_cons_of_mem stretch hother)
    intro before rest hparts
    rw [Cutting.written_of_pairs_cons] at hparts
    cases hcard : cardAt before rest with
    | false => rfl
    | true =>
      have hhead : rest.head?.any Char.isDigit = true := by
        simp only [cardAt, Bool.and_eq_true] at hcard
        exact hcard.1.1
      -- a run begins with a digit, so within a stretch
      have hmark : ∀ {inner more : Text}, inner ≠ [] → (∀ c ∈ inner, c ∈ g :: tail) →
          rest = inner ++ more → False := by
        intro inner more hne hinner hrest
        cases inner with
        | nil => exact hne rfl
        | cons c inner =>
          have hc := hdigits c (hinner c List.mem_cons_self)
          simp [hrest, hc] at hhead
      rcases List.append_eq_append_iff.mp hparts with ⟨behind, rfl, hbehind⟩ | ⟨inside, rfl, rfl⟩
      · rcases List.append_eq_append_iff.mp hbehind with ⟨ahead, rfl, hahead⟩ | ⟨left, hleft, hrest⟩
        · rw [← List.append_assoc] at hcard
          exact absurd (cardAt_of_append hcard) (by simp [hlater ahead rest hahead])
        · by_cases hnil : left = []
          · rw [hnil, List.nil_append] at hrest
            rw [hnil, List.append_nil] at hleft
            rw [hrest] at hcard
            have hfree := hlater [] _ (List.nil_append _).symm
            rw [← List.append_nil (stretch ++ behind)] at hcard
            exact absurd (cardAt_of_append hcard) (hfree ▸ Bool.false_ne_true)
          · exact (hmark hnil (fun c hc => hleft ▸ List.mem_append_right behind hc) hrest).elim
      · by_cases hnil : inside = []
        · exact (hmark (List.cons_ne_nil g tail) (fun c hc => hc) (by rw [hnil]; rfl)).elim
        · have hfree := h (before ++ inside) List.mem_cons_self before inside rfl
          rw [List.cons_append] at hcard
          exact absurd (cardAt_of_append_guard (hdigits g List.mem_cons_self) hsep hnil hcard)
            (by simp [hfree])

theorem cutCardsFrom_skip (prev : Option Char) (run rest : Text) :
    cutCardsFrom prev run.length (run ++ rest) = cutCardsFrom (run.getLast?.or prev) 0 rest := by
  induction run generalizing prev with
  | nil => rfl
  | cons c run ih =>
    rw [List.length_cons, List.cons_append, cutCardsFrom, ih, List.getLast?_cons]
    cases run.getLast? <;> rfl

theorem cutCardsFrom_digit (hc : c.isDigit = true) (prev : Option Char) (text : Text) :
    cutCardsFrom prev 0 (c :: text) =
      if isCard prev (takeRun (c :: text)).1 (takeRun (c :: text)).2.head? then
        (cutCardsFrom (takeRun (c :: text)).1.getLast? 0 (takeRun (c :: text)).2).cut
          (takeRun (c :: text)).1
      else (cutCardsFrom (takeRun (c :: text)).1.getLast? 0 (takeRun (c :: text)).2).keep
          (takeRun (c :: text)).1 := by
  have hskip : cutCardsFrom (some c) ((takeRun (c :: text)).1.length - 1) text =
      cutCardsFrom (takeRun (c :: text)).1.getLast? 0 (takeRun (c :: text)).2 := by
    rw [takeRun_digit hc, List.length_cons, Nat.add_sub_cancel]
    have hpassed := cutCardsFrom_skip (some c) (takeRun text).1 (takeRun text).2
    rw [takeRun_append_self] at hpassed
    rw [hpassed, List.getLast?_cons]
    cases (takeRun text).1.getLast? <;> rfl
  rw [← hskip, cutCardsFrom, if_pos hc]

theorem cutCardsFrom_other (hc : c.isDigit = false) (prev : Option Char) (text : Text) :
    cutCardsFrom prev 0 (c :: text) = (cutCardsFrom (some c) 0 text).keep [c] := by
  rw [cutCardsFrom, if_neg (by simp [hc])]

/-- A text from its first character: no digit, or a run. -/
theorem runs_induction {motive : Text → Prop} (nil : motive [])
    (other : ∀ c text, c.isDigit = false → motive text → motive (c :: text))
    (run : ∀ c text, c.isDigit = true → motive (takeRun (c :: text)).2 → motive (c :: text))
    (text : Text) : motive text := by
  induction hlen : text.length using Nat.strong_induction_on generalizing text with
  | _ n ih =>
    subst hlen
    cases text with
    | nil => exact nil
    | cons c text =>
      cases hc : c.isDigit with
      | false => exact other c text hc (ih text.length (Nat.lt_succ_self _) text rfl)
      | true =>
        apply run c text hc
        refine ih _ ?_ _ rfl
        have hparts := congrArg List.length (takeRun_append_self (c :: text))
        rw [List.length_append, takeRun_digit hc, List.length_cons] at hparts
        rw [takeRun_digit hc]
        omega

theorem source_cutCardsFrom (prev : Option Char) (text : Text) :
    (cutCardsFrom prev 0 text).source = text := by
  induction text using runs_induction generalizing prev with
  | nil => rfl
  | other c text hc ih => rw [cutCardsFrom_other hc, Cutting.source_keep, ih, List.singleton_append]
  | run c text hc ih =>
    rw [cutCardsFrom_digit hc]
    split
    · rw [Cutting.source_cut, ih, takeRun_append_self]
    · rw [Cutting.source_keep, ih, takeRun_append_self]

/-- The pass writes its mark for the runs that are cut. -/
theorem written_cutCardsFrom (prev : Option Char) (skip : ℕ) (text : Text) :
    (cutCardsFrom prev skip text).written DIGITS = redactDigitRunsFrom prev skip text := by
  induction text generalizing prev skip with
  | nil => cases skip <;> rfl
  | cons c text ih =>
    cases skip with
    | succ skip => rw [cutCardsFrom, redactDigitRunsFrom, ih]
    | zero =>
      unfold cutCardsFrom redactDigitRunsFrom
      split
      · dsimp only
        split
        · rw [Cutting.written_cut, ih]
        · rw [Cutting.written_keep, ih]
      · rw [Cutting.written_keep, ih, List.singleton_append]

/-- No run that was begun before this place goes on behind it. -/
def Paused (before rest : Text) : Prop :=
  (before.getLast?.any Char.isDigit = true → (takeRun rest).1 = []) ∧
    (endsInRun before = true → rest.head?.any Char.isDigit = false)

theorem Paused.start (text : Text) : Paused [] text := ⟨nofun, nofun⟩

theorem Paused.other (h : Paused before (c :: text)) (hc : c.isDigit = false) :
    Paused (before ++ [c]) text := by
  refine ⟨fun hlast => ?_, fun hends => ?_⟩
  · simp [hc] at hlast
  · rw [endsInRun_concat, hc, Bool.false_or, Bool.and_eq_true] at hends
    exact (takeRun_eq_nil_iff.mp (h.1 hends.2)).2 hends.1

theorem Paused.run (before text : Text) :
    Paused (before ++ (takeRun text).1) (takeRun text).2 :=
  ⟨fun _ => takeRun_snd text, fun _ => head_not_digit_of_takeRun (takeRun_snd text)⟩

theorem Paused.cardAt (h : Paused before (c :: text)) (hc : c.isDigit = true) :
    cardAt before (c :: text) =
      isCard before.getLast? (takeRun (c :: text)).1 (takeRun (c :: text)).2.head? := by
  have hends : endsInRun before = false := by
    cases hinner : endsInRun before with
    | false => rfl
    | true =>
      have := h.2 hinner
      simp [hc] at this
  simp [Sentry.cardAt, hc, hends]

theorem getLast?_append_run (hc : c.isDigit = true) (before text : Text) :
    (before ++ (takeRun (c :: text)).1).getLast? = (takeRun (c :: text)).1.getLast? := by
  rw [takeRun_digit hc, List.getLast?_append, List.getLast?_cons]
  rfl

theorem cardAt_of_head (h : rest.head?.any Char.isDigit = false) : cardAt before rest = false := by
  rw [cardAt, h]
  rfl

/-- What is kept of a run that is not cut, with what is kept behind it, holds no bounded run
within that run. -/
theorem cardAt_kept_run {kept later : Text} {prev : Option Char} (hc : c.isDigit = true)
    (hprev : prev = before.getLast?)
    (hnot : ¬isCard prev (takeRun (c :: text)).1 (takeRun (c :: text)).2.head? = true)
    (hlater : (takeRun later).1 = []) (hnext : later.head? = (takeRun (c :: text)).2.head?)
    (hrun : (takeRun (c :: text)).1 = kept ++ rest) :
    cardAt (before ++ kept) (rest ++ later) = false := by
  by_cases hkept : kept = []
  · rw [hkept, List.nil_append] at hrun
    rw [hkept, List.append_nil, ← hrun, cardAt, takeRun_run_append (c :: text) hlater]
    dsimp only
    rw [← hprev, hnext, Bool.eq_false_iff.mpr hnot, Bool.and_false]
  · rw [cardAt, endsInRun_of_append (endsInRun_of_run hc hrun hkept)]
    simp

/-- What the scan keeps between its cuts holds no bounded run; `before` is what it kept of the
first stretch. -/
theorem cardFree_cutCardsFrom {before : Text} {prev : Option Char} (text : Text)
    (hpaused : Paused before text)
    (hprev : text.head?.any Char.isDigit = true → prev = before.getLast?) :
    (∀ kept rest, (cutCardsFrom prev 0 text).first = kept ++ rest →
        cardAt (before ++ kept) rest = false) ∧
      ∀ stretch ∈ (cutCardsFrom prev 0 text).stretches.tail, CardFree stretch := by
  induction text using runs_induction generalizing before prev with
  | nil =>
    refine ⟨fun kept rest h => ?_, fun stretch h => by cases h⟩
    rw [(List.append_eq_nil_iff.mp h.symm).2]
    exact cardAt_of_head rfl
  | other c text hc ih =>
    obtain ⟨hfirst, hlater⟩ := @ih _ (some c) (hpaused.other hc) (by simp)
    rw [cutCardsFrom_other hc, Cutting.first_keep, Cutting.tail_stretches_keep]
    refine ⟨fun kept rest h => ?_, hlater⟩
    cases kept with
    | nil =>
      rw [List.nil_append] at h
      rw [← h]
      exact cardAt_of_head (by simpa using hc)
    | cons d kept =>
      obtain ⟨rfl, hkept⟩ := List.cons.inj h
      have hkept := hfirst kept rest hkept
      rwa [List.append_assoc] at hkept
  | run c text hc ih =>
    have hstop := takeRun_snd (c :: text)
    rw [cutCardsFrom_digit hc]
    split
    · obtain ⟨hfirst, hlater⟩ := @ih _ (takeRun (c :: text)).1.getLast? (Paused.start _)
        (by simp [head_not_digit_of_takeRun hstop])
      refine ⟨fun kept rest h => ?_, fun stretch hstretch => ?_⟩
      · rw [(List.append_eq_nil_iff.mp h.symm).2]
        exact cardAt_of_head rfl
      · rw [Cutting.stretches_cut, List.tail_cons, Cutting.stretches_eq_cons] at hstretch
        rcases List.mem_cons.mp hstretch with rfl | hmem
        · exact fun kept rest h => hfirst kept rest h
        · exact hlater stretch hmem
    next hnot =>
      obtain ⟨hfirst, hlater⟩ := @ih _ (takeRun (c :: text)).1.getLast?
        (Paused.run before (c :: text)) (fun _ => (getLast?_append_run hc before text).symm)
      rw [Cutting.first_keep, Cutting.tail_stretches_keep]
      refine ⟨fun kept rest h => ?_, hlater⟩
      have hkeeps := (@Cutting.first_prefix _ (cutCardsFrom (takeRun (c :: text)).1.getLast? 0
        (takeRun (c :: text)).2))
      rw [source_cutCardsFrom] at hkeeps
      have hbegins := takeRun_of_prefix hstop hkeeps
      rcases List.append_eq_append_iff.mp h with ⟨inside, rfl, hinside⟩ | ⟨inside, hrun, rfl⟩
      · have hkept := hfirst inside rest hinside
        rwa [List.append_assoc] at hkept
      · refine cardAt_kept_run hc (hprev (by simpa using hc)) hnot hbegins ?_ hrun
        -- what follows a run is no digit, so it is kept
        cases hafter : (takeRun (c :: text)).2 with
        | nil => rfl
        | cons d after =>
          have hd : d.isDigit = false := by
            rw [hafter] at hstop
            exact (takeRun_eq_nil_iff.mp hstop).1
          rw [cutCardsFrom_other hd, Cutting.first_keep]
          rfl

/-- The pass leaves no bounded run. -/
theorem cardFree_redactDigitRuns (text : Text) : CardFree (redactDigitRuns text) := by
  obtain ⟨hfirst, hlater⟩ := @cardFree_cutCardsFrom [] none text (Paused.start text)
    fun _ => rfl
  rw [redactDigitRuns, ← written_cutCardsFrom]
  refine cardFree_written '[' "redacted-number]".toList (by decide) (by decide) ?_
  intro stretch hstretch
  rw [Cutting.stretches_eq_cons] at hstretch
  rcases List.mem_cons.mp hstretch with rfl | hmem
  · exact fun kept rest h => hfirst kept rest h
  · exact hlater stretch hmem

/-- Where no bounded run stands the scan cuts nothing. -/
theorem pairs_eq_nil_of_cardFree (hpaused : Paused before text) (h : CardFree (before ++ text)) :
    (cutCardsFrom before.getLast? 0 text).pairs = [] := by
  induction text using runs_induction generalizing before with
  | nil => rfl
  | other c text hc ih =>
    have hlater := ih (hpaused.other hc) (by rwa [List.append_assoc])
    rw [cutCardsFrom_other hc, Cutting.pairs_keep_eq_nil]
    simpa using hlater
  | run c text hc ih =>
    have hnot := h before (c :: text) rfl
    rw [hpaused.cardAt hc] at hnot
    have hlater := ih (Paused.run before (c :: text))
      (by rwa [List.append_assoc, takeRun_append_self])
    rw [getLast?_append_run hc] at hlater
    rw [cutCardsFrom_digit hc, hnot, if_neg Bool.false_ne_true, Cutting.pairs_keep_eq_nil]
    exact hlater

theorem redactDigitRuns_of_cardFree (h : CardFree text) : redactDigitRuns text = text := by
  have hnone : (cutCardsFrom none 0 text).pairs = [] :=
    pairs_eq_nil_of_cardFree (Paused.start text) h
  rw [redactDigitRuns, ← written_cutCardsFrom, Cutting.written_of_pairs_eq_nil hnone,
    source_cutCardsFrom]

end TinySweeper.Sentry
