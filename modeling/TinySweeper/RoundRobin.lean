import Mathlib.Data.List.Nodup
import Mathlib.Order.Nat
import Mathlib.Tactic.Common

/-!
# Dealing round-robin

Queues take turns to give one member each until a cap is reached or all are empty.
What was dealt of any two queues differs by one member at most, unless one ran out.
-/

namespace TinySweeper.RoundRobin

variable {κ α : Type}

/-- Each queue gives the member at this place, as long as there is room. -/
def turn (max taken : ℕ) : List (κ × List α) → List (κ × α) → List (κ × α)
  | [], out => out
  | (key, members) :: rest, out =>
    if out.length = max then out
    else
      match members[taken]? with
      | some a => turn max taken rest (out ++ [(key, a)])
      | none => turn max taken rest out

theorem prefix_turn (max taken : ℕ) (queues : List (κ × List α)) (out : List (κ × α)) :
    out <+: turn max taken queues out := by
  induction queues generalizing out with
  | nil => exact List.prefix_rfl
  | cons queue rest ih =>
    unfold turn
    split_ifs
    · exact List.prefix_rfl
    · split
      · exact (List.prefix_append out _).trans (ih _)
      · exact ih out

/-- Turns until the cap is reached, or a whole turn gave nothing. -/
def fill (queues : List (κ × List α)) (max taken : ℕ) (out : List (κ × α)) : List (κ × α) :=
  if out.length < max then
    if (turn max taken queues out).length = out.length then turn max taken queues out
    else fill queues max (taken + 1) (turn max taken queues out)
  else out
termination_by max - out.length
decreasing_by
  have hle := (prefix_turn max taken queues out).length_le
  omega

section Turn

variable [DecidableEq κ] {max taken : ℕ} {queues : List (κ × List α)} {out : List (κ × α)} {key : κ}

/-- What was dealt of one queue. -/
def share (key : κ) (out : List (κ × α)) : List α :=
  (out.filter fun dealt => dealt.1 = key).map Prod.snd

theorem share_append (key : κ) (out more : List (κ × α)) :
    share key (out ++ more) = share key out ++ share key more := by
  rw [share, List.filter_append, List.map_append, share, share]

theorem share_singleton_self (key : κ) (a : α) : share key [(key, a)] = [a] := by
  simp [share]

theorem share_singleton_of_ne {other : κ} (h : other ≠ key) (a : α) :
    share key [(other, a)] = [] := by
  simp [share, h]

omit [DecidableEq κ] in
theorem length_turn_le (h : out.length ≤ max) : (turn max taken queues out).length ≤ max := by
  induction queues generalizing out with
  | nil => exact h
  | cons queue rest ih =>
    unfold turn
    split_ifs with hfull
    · exact h
    · split
      · refine ih ?_
        rw [List.length_append, List.length_singleton]
        omega
      · exact ih h

omit [DecidableEq κ] in
theorem mem_turn {dealt : κ × α} (h : dealt ∈ turn max taken queues out) :
    dealt ∈ out ∨ ∃ queue ∈ queues, queue.1 = dealt.1 := by
  induction queues generalizing out with
  | nil => exact .inl h
  | cons queue rest ih =>
    unfold turn at h
    split_ifs at h
    · exact .inl h
    · split at h
      · rcases ih h with hmem | ⟨other, hother, hkey⟩
        · rcases List.mem_append.mp hmem with hout | hlast
          · exact .inl hout
          · rw [List.mem_singleton.mp hlast]
            exact .inr ⟨queue, List.mem_cons_self, rfl⟩
        · exact .inr ⟨other, List.mem_cons_of_mem _ hother, hkey⟩
      · rcases ih h with hout | ⟨other, hother, hkey⟩
        · exact .inl hout
        · exact .inr ⟨other, List.mem_cons_of_mem _ hother, hkey⟩

theorem share_turn_of_notMem (h : key ∉ queues.map Prod.fst) :
    share key (turn max taken queues out) = share key out := by
  induction queues generalizing out with
  | nil => rfl
  | cons queue rest ih =>
    obtain ⟨hne, hrest⟩ := List.ne_and_not_mem_of_not_mem_cons h
    unfold turn
    split_ifs
    · rfl
    · split
      · rw [ih hrest, share_append, share_singleton_of_ne hne.symm, List.append_nil]
      · exact ih hrest

/-- A turn gives one more member of a queue, or leaves it out for want of room. -/
theorem share_turn (hkeys : (queues.map Prod.fst).Nodup) {members : List α}
    (hqueue : (key, members) ∈ queues) (h : share key out = members.take taken)
    (hout : out.length ≤ max) :
    share key (turn max taken queues out) = members.take (taken + 1) ∨
      share key (turn max taken queues out) = members.take taken ∧
        (turn max taken queues out).length = max := by
  induction queues generalizing out with
  | nil => cases hqueue
  | cons queue rest ih =>
    obtain ⟨hfresh, hrest⟩ := List.nodup_cons.mp hkeys
    unfold turn
    split_ifs with hfull
    · exact .inr ⟨h, hfull⟩
    have hroom : out.length < max := lt_of_le_of_ne hout hfull
    rcases List.mem_cons.mp hqueue with rfl | hlater
    · left
      cases hnext : members[taken]? with
      | some a =>
        rw [share_turn_of_notMem hfresh, share_append, share_singleton_self, h,
          List.take_add_one, hnext, Option.toList_some]
      | none =>
        rw [share_turn_of_notMem hfresh, h, List.take_add_one, hnext, Option.toList_none,
          List.append_nil]
    · have hne : queue.1 ≠ key := by
        rintro rfl
        exact hfresh (List.mem_map.mpr ⟨_, hlater, rfl⟩)
      split
      · refine ih hrest hlater ?_ ?_
        · rwa [share_append, share_singleton_of_ne hne, List.append_nil]
        · rw [List.length_append, List.length_singleton]
          omega
      · exact ih hrest hlater h hout

end Turn

section Fill

variable [DecidableEq κ] {max taken : ℕ} {queues : List (κ × List α)} {out : List (κ × α)}

/-- The queues were dealt up to one place, but for the last turn. -/
structure Dealt (queues : List (κ × List α)) (max : ℕ) (out : List (κ × α)) : Prop where
  even : ∃ taken, ∀ key members, (key, members) ∈ queues →
    share key out = members.take taken ∨ share key out = members.take (taken + 1)
  done : out.length = max ∨ ∀ key members, (key, members) ∈ queues → share key out = members
  bound : out.length ≤ max
  keys : ∀ dealt ∈ out, ∃ queue ∈ queues, queue.1 = dealt.1

theorem dealt_fill (hkeys : (queues.map Prod.fst).Nodup)
    (h : ∀ key members, (key, members) ∈ queues → share key out = members.take taken)
    (hout : out.length ≤ max) (hfrom : ∀ dealt ∈ out, ∃ queue ∈ queues, queue.1 = dealt.1) :
    Dealt queues max (fill queues max taken out) := by
  have hturned : ∀ dealt ∈ turn max taken queues out, ∃ queue ∈ queues, queue.1 = dealt.1 :=
    fun dealt hdealt => (mem_turn hdealt).elim (hfrom dealt) id
  fun_induction fill queues max taken out with
  | case1 taken out hroom hsame =>
    -- nothing was given though there was room: every queue has run out
    have hturn : turn max taken queues out = out :=
      ((prefix_turn max taken queues out).eq_of_length hsame.symm).symm
    rw [hturn]
    refine ⟨⟨taken, fun key members hqueue => .inl (h key members hqueue)⟩,
      .inr fun key members hqueue => ?_, hout, hfrom⟩
    rcases share_turn hkeys hqueue (h key members hqueue) hout with hmore | ⟨-, hfull⟩
    · rw [hturn, h key members hqueue, List.take_add_one] at hmore
      have hnone : members[taken]? = none := by simpa using hmore
      rw [h key members hqueue]
      exact List.take_of_length_le (List.getElem?_eq_none_iff.mp hnone)
    · rw [hturn] at hfull
      omega
  | case2 taken out hroom hmore ih =>
    have hbound : (turn max taken queues out).length ≤ max := length_turn_le hout
    by_cases hall : ∀ key members, (key, members) ∈ queues →
        share key (turn max taken queues out) = members.take (taken + 1)
    · exact ih hall hbound hturned fun dealt hdealt => (mem_turn hdealt).elim (hturned dealt) id
    · -- the turn was broken off, so the cap is reached
      push Not at hall
      obtain ⟨key, members, hqueue, hshort⟩ := hall
      have hfull := ((share_turn hkeys hqueue (h key members hqueue) hout).resolve_left hshort).2
      rw [fill, if_neg (by omega)]
      refine ⟨⟨taken, fun key members hqueue => ?_⟩, .inl hfull, hbound, hturned⟩
      exact (share_turn hkeys hqueue (h key members hqueue) hout).symm.imp_left And.left
  | case3 taken out hfull =>
    exact ⟨⟨taken, fun key members hqueue => .inl (h key members hqueue)⟩,
      .inl (le_antisymm hout (not_lt.mp hfull)), hout, hfrom⟩

end Fill

end TinySweeper.RoundRobin
