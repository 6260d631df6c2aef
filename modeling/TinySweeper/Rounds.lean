import TinySweeper.FirstMatch

/-!
# Rounds of absorption

Elements arrive in rounds. What an earlier round left absorbs the first arrival that
hits it, at most one in a round; an arrival that hits nothing is kept on its own. A
kept element is the summary of a group of arrivals, and the groups partition them.
-/

namespace TinySweeper.Rounds

open FirstMatch

variable {κ κ' α β : Type*}

section Absorption

variable (hits : κ → α → Bool) (absorb : κ → α → κ) (start : α → κ)

/-- What earlier rounds left, with what has absorbed an arrival marked, and what this one adds. -/
structure Round (κ : Type*) where
  settled : List (κ × Bool)
  additions : List κ

def Round.kept (r : Round κ) : List κ := r.settled.map Prod.fst ++ r.additions

/-- Not absorbed into in this round, and hit. -/
def free (a : α) (k : κ × Bool) : Bool := !k.2 && hits k.1 a

def Round.receive (r : Round κ) (a : α) : Round κ :=
  if r.settled.any (free hits a) then
    { r with settled := updateFirst (free hits a) (fun k => (absorb k.1 a, true)) r.settled }
  else { r with additions := r.additions ++ [start a] }

def round (kept : List κ) (arrivals : List α) : List κ :=
  (arrivals.foldl (Round.receive hits absorb start) ⟨kept.map (·, false), []⟩).kept

def rounds (arrivals : List (List α)) : List κ := arrivals.foldl (round hits absorb start) []

variable {hits absorb start}

theorem rounds_concat (arrivals : List (List α)) (last : List α) :
    rounds hits absorb start (arrivals ++ [last]) =
      round hits absorb start (rounds hits absorb start arrivals) last := by
  rw [rounds, List.foldl_append]
  rfl

/-- An arrival is absorbed by one settled element, or it is an addition. -/
theorem receive_cases (r : Round κ) (a : α) :
    (∃ k settled, hits k a = true ∧ Replaced r.settled settled (k, false) (absorb k a, true) ∧
        r.receive hits absorb start a = ⟨settled, r.additions⟩) ∨
      r.receive hits absorb start a = ⟨r.settled, r.additions ++ [start a]⟩ := by
  unfold Round.receive
  cases hfind : r.settled.find? (free hits a) with
  | none =>
    have hnone : r.settled.any (free hits a) = false := by simpa using hfind
    rw [if_neg (by simp [hnone])]
    exact .inr rfl
  | some k =>
    have hany : r.settled.any (free hits a) = true :=
      List.any_eq_true.mpr ⟨k, List.mem_of_find?_eq_some hfind, List.find?_some hfind⟩
    have hfree := List.find?_some hfind
    obtain ⟨k, claimed⟩ := k
    simp only [free, Bool.and_eq_true, Bool.not_eq_true'] at hfree
    obtain ⟨rfl, hhit⟩ := hfree
    rw [if_pos hany]
    exact .inl ⟨k, _, hhit, updateFirst_replaced _ hfind, rfl⟩

/-- What holds after every round of whatever starts, absorbs or is left alone in it holds of
everything kept in the end. -/
theorem forall_mem_rounds {P : ℕ → κ → Prop} (hleft : ∀ n k, P n k → P (n + 1) k)
    {arrivals : List (List α)}
    (hstart : ∀ n as a, arrivals[n]? = some as → a ∈ as → P (n + 1) (start a))
    (habsorb : ∀ n as a k, arrivals[n]? = some as → a ∈ as → P n k → P (n + 1) (absorb k a)) :
    ∀ k ∈ rounds hits absorb start arrivals, P arrivals.length k := by
  induction arrivals using List.reverseRecOn with
  | nil => exact nofun
  | append_singleton arrivals last ih =>
    have hearlier : ∀ {n : ℕ} {as : List α},
        arrivals[n]? = some as → (arrivals ++ [last])[n]? = some as := by
      intro n as has
      rw [List.getElem?_append_left (List.getElem?_eq_some_iff.mp has).1, has]
    have hkept := ih (fun n as a has => hstart n as a (hearlier has))
      fun n as a k has => habsorb n as a k (hearlier has)
    have hnow : (arrivals ++ [last])[arrivals.length]? = some last := by simp
    have hround : ∀ as : List α, as ⊆ last → ∀ r : Round κ,
        (∀ k ∈ r.settled, P (if k.2 then arrivals.length + 1 else arrivals.length) k.1) →
          (∀ k ∈ r.additions, P (arrivals.length + 1) k) →
            ∀ k ∈ (as.foldl (Round.receive hits absorb start) r).kept,
              P (arrivals.length + 1) k := by
      intro as
      induction as with
      | nil =>
        intro _ r hsettled hadditions k hk
        rcases List.mem_append.mp hk with hk | hk
        · obtain ⟨⟨k, claimed⟩, hmem, rfl⟩ := List.mem_map.mp hk
          have h := hsettled _ hmem
          cases claimed with
          | true => exact h
          | false => exact hleft _ _ h
        · exact hadditions k hk
      | cons a as ihas =>
        intro hsub r hsettled hadditions
        have ha : a ∈ last := hsub List.mem_cons_self
        rw [List.foldl_cons]
        rcases @receive_cases _ _ hits absorb start r a with
          ⟨k, settled, _, hreplaced, hnext⟩ | hnext
        · rw [hnext]
          have hk : P arrivals.length k := hsettled _ hreplaced.mem_old
          exact ihas (fun b hb => hsub (List.mem_cons_of_mem a hb)) _
            (hreplaced.forall_mem hsettled (habsorb _ _ a k hnow ha hk)) hadditions
        · rw [hnext]
          refine ihas (fun b hb => hsub (List.mem_cons_of_mem a hb)) _ hsettled ?_
          intro k hk
          rcases List.mem_append.mp hk with hk | hk
          · exact hadditions k hk
          · rw [List.mem_singleton.mp hk]
            exact hstart _ _ a hnow ha
    rw [rounds_concat, List.length_append]
    refine hround last (List.Subset.refl last) _ ?_ nofun
    intro k hk
    obtain ⟨k, hmem, rfl⟩ := List.mem_map.mp hk
    exact hkept k hmem

end Absorption

theorem map_updateFirst {p : κ → Bool} {q : κ' → Bool} {f : κ → κ} {f' : κ' → κ'} {g : κ → κ'}
    (hp : ∀ k, q (g k) = p k) (hf : ∀ k, f' (g k) = g (f k)) (l : List κ) :
    (updateFirst p f l).map g = updateFirst q f' (l.map g) := by
  induction l with
  | nil => rfl
  | cons k l ih =>
    simp only [updateFirst, List.map_cons, hp]
    split
    · rw [List.map_cons, hf]
    · rw [List.map_cons, ih]

section Simulation

variable {hits : κ → α → Bool} {absorb : κ → α → κ} {start : α → κ}
variable {hits' : κ' → β → Bool} {absorb' : κ' → β → κ'} {start' : β → κ'}
variable {g : κ → κ'} {h : α → β}

def Round.map (g : κ → κ') (r : Round κ) : Round κ' :=
  ⟨r.settled.map (Prod.map g id), r.additions.map g⟩

theorem Round.receive_map (hhits : ∀ k a, hits' (g k) (h a) = hits k a)
    (habsorb : ∀ k a, absorb' (g k) (h a) = g (absorb k a)) (hstart : ∀ a, start' (h a) = g (start a))
    (r : Round κ) (a : α) :
    (r.map g).receive hits' absorb' start' (h a) = (r.receive hits absorb start a).map g := by
  have hfree : ∀ k : κ × Bool, free hits' (h a) (Prod.map g id k) = free hits a k := by
    intro k
    simp [free, hhits]
  have hany : (r.map g).settled.any (free hits' (h a)) = r.settled.any (free hits a) := by
    rw [Round.map, List.any_map]
    congr 1
    funext k
    exact hfree k
  unfold Round.receive
  rw [hany]
  split
  · have hupdate : (updateFirst (free hits a) (fun k => (absorb k.1 a, true)) r.settled).map
        (Prod.map g id) = updateFirst (free hits' (h a)) (fun k => (absorb' k.1 (h a), true))
          (r.settled.map (Prod.map g id)) :=
      map_updateFirst hfree (fun k => by simp [habsorb]) r.settled
    simp [Round.map, hupdate]
  · simp [Round.map, hstart]

/-- A map that respects hitting, absorbing and starting respects rounds. -/
theorem rounds_map (hhits : ∀ k a, hits' (g k) (h a) = hits k a)
    (habsorb : ∀ k a, absorb' (g k) (h a) = g (absorb k a)) (hstart : ∀ a, start' (h a) = g (start a))
    (arrivals : List (List α)) :
    rounds hits' absorb' start' (arrivals.map (List.map h)) =
      (rounds hits absorb start arrivals).map g := by
  have hreceive : ∀ (as : List α) (r : Round κ),
      (as.map h).foldl (Round.receive hits' absorb' start') (r.map g) =
        (as.foldl (Round.receive hits absorb start) r).map g := by
    intro as
    induction as with
    | nil => exact fun _ => rfl
    | cons a as ih =>
      intro r
      rw [List.map_cons, List.foldl_cons, List.foldl_cons,
        Round.receive_map hhits habsorb hstart, ih]
  induction arrivals using List.reverseRecOn with
  | nil => rfl
  | append_singleton arrivals last ih =>
    have hbegin : (⟨((rounds hits absorb start arrivals).map g).map (·, false), []⟩ : Round κ') =
        Round.map g ⟨(rounds hits absorb start arrivals).map (·, false), []⟩ := by
      simp [Round.map, Function.comp_def]
    rw [List.map_append, List.map_cons, List.map_nil, rounds_concat, rounds_concat, ih, round,
      hbegin, hreceive]
    simp [round, Round.kept, Round.map, Function.comp_def]

end Simulation

/-- Arrivals that were put together, in their order. -/
structure Group (α : Type*) where
  first : α
  later : List α

namespace Group

def members (g : Group α) : List α := g.first :: g.later

def alone (a : α) : Group α := ⟨a, []⟩

def join (g : Group α) (a : α) : Group α := { g with later := g.later ++ [a] }

def summary (absorb : κ → α → κ) (start : α → κ) (g : Group α) : κ :=
  g.later.foldl absorb (start g.first)

theorem members_join (g : Group α) (a : α) : (g.join a).members = g.members ++ [a] := rfl

theorem summary_join (absorb : κ → α → κ) (start : α → κ) (g : Group α) (a : α) :
    (g.join a).summary absorb start = absorb (g.summary absorb start) a := by
  rw [summary, join, List.foldl_append]
  rfl

end Group

section Grouping

variable (hits : κ → α → Bool) (absorb : κ → α → κ) (start : α → κ)

/-- The rounds, keeping groups in place of their summaries. -/
def groups (arrivals : List (List α)) : List (Group α) :=
  rounds (fun g a => hits (g.summary absorb start) a) Group.join Group.alone arrivals

/-- What is kept are the summaries of the groups. -/
theorem map_summary_groups (arrivals : List (List α)) :
    (groups hits absorb start arrivals).map (Group.summary absorb start) =
      rounds hits absorb start arrivals := by
  have hmap := @rounds_map _ _ _ _ (fun g a => hits (g.summary absorb start) a) Group.join
    Group.alone hits absorb start (Group.summary absorb start) id (fun _ _ => rfl)
    (fun g a => (g.summary_join absorb start a).symm) (fun _ => rfl) arrivals
  simpa [groups] using hmap.symm

variable {hits absorb start}

theorem perm_receive {hits : Group α → α → Bool} (r : Round (Group α)) (a : α) :
    ((r.receive hits Group.join Group.alone a).kept.flatMap Group.members).Perm
      (a :: r.kept.flatMap Group.members) := by
  have hkept : ∀ settled additions, (Round.kept ⟨settled, additions⟩).flatMap Group.members =
      settled.flatMap (fun k : Group α × Bool => k.1.members) ++ additions.flatMap Group.members := by
    intro settled additions
    simp [Round.kept, List.flatMap_append, List.flatMap_map]
  rcases @receive_cases _ _ hits Group.join Group.alone r a with ⟨g, settled, _, hreplaced, hnext⟩ | hnext
  · rw [hnext, hkept, show r = ⟨r.settled, r.additions⟩ from rfl, hkept, ← List.cons_append]
    obtain ⟨rest, hbefore, hafter⟩ := hreplaced.flatMap_perm fun k : Group α × Bool => k.1.members
    have hmove : (g.members ++ [a] ++ rest).Perm (a :: (g.members ++ rest)) := by
      rw [List.append_assoc]
      exact List.perm_middle
    exact ((hafter.trans hmove).trans (hbefore.symm.cons a)).append_right _
  · rw [hnext, hkept, show r = ⟨r.settled, r.additions⟩ from rfl, hkept, List.flatMap_append]
    exact (List.perm_append_comm.append_left _).trans List.perm_middle

/-- Every arrival is in one group. -/
theorem flatMap_members_groups (arrivals : List (List α)) :
    ((groups hits absorb start arrivals).flatMap Group.members).Perm arrivals.flatten := by
  have hround : ∀ (as : List α) (r : Round (Group α)),
      ((as.foldl (Round.receive (fun g a => hits (g.summary absorb start) a) Group.join
        Group.alone) r).kept.flatMap Group.members).Perm (r.kept.flatMap Group.members ++ as) := by
    intro as
    induction as with
    | nil =>
      intro r
      rw [List.append_nil]
      exact List.Perm.refl _
    | cons a as ih =>
      intro r
      apply (ih _).trans
      apply ((perm_receive r a).append_right as).trans
      exact List.perm_middle.symm
  induction arrivals using List.reverseRecOn with
  | nil => exact List.Perm.refl _
  | append_singleton arrivals last ih =>
    rw [groups, rounds_concat, List.flatten_append, List.flatten_singleton]
    apply (hround last _).trans
    refine List.Perm.append_right last ?_
    simpa [Round.kept, Function.comp_def, groups] using ih

/-- With arrivals marked by their round, a group has at most one of each. -/
theorem nodup_tags_groups {tag : α → ℕ} {arrivals : List (List α)}
    (htag : ∀ n as a, arrivals[n]? = some as → a ∈ as → tag a = n) :
    ∀ g ∈ groups hits absorb start arrivals, (g.members.map tag).Nodup := by
  have hinvariant : ∀ g ∈ groups hits absorb start arrivals,
      (g.members.map tag).Nodup ∧ ∀ a ∈ g.members, tag a < arrivals.length := by
    refine forall_mem_rounds (P := fun n (g : Group α) => (g.members.map tag).Nodup ∧
      ∀ a ∈ g.members, tag a < n) ?_ ?_ ?_
    · rintro n g ⟨hnodup, hlt⟩
      exact ⟨hnodup, fun a ha => (hlt a ha).trans (Nat.lt_succ_self n)⟩
    · intro n as a has ha
      refine ⟨List.nodup_singleton _, fun b hb => ?_⟩
      have hsame : b = a := List.mem_singleton.mp hb
      rw [hsame, htag n as a has ha]
      exact Nat.lt_succ_self n
    · rintro n as a g has ha ⟨hnodup, hlt⟩
      have hnow := htag n as a has ha
      rw [Group.members_join]
      constructor
      · rw [List.map_append, List.map_singleton, List.nodup_append]
        refine ⟨hnodup, List.nodup_singleton _, ?_⟩
        intro t ht t' ht'
        obtain ⟨b, hb, rfl⟩ := List.mem_map.mp ht
        rw [List.mem_singleton.mp ht', hnow]
        exact (hlt b hb).ne
      · intro b hb
        rcases List.mem_append.mp hb with hb | hb
        · exact (hlt b hb).trans (Nat.lt_succ_self n)
        · rw [List.mem_singleton.mp hb, hnow]
          exact Nat.lt_succ_self n
  exact fun g hg => (hinvariant g hg).1

/-- In a single round everything is on its own. -/
theorem rounds_singleton (arrivals : List α) :
    rounds hits absorb start [arrivals] = arrivals.map start := by
  have hadd : ∀ (as : List α) (added : List κ),
      (as.foldl (Round.receive hits absorb start) ⟨[], added⟩).kept = added ++ as.map start := by
    intro as
    induction as with
    | nil => intro added; simp [Round.kept]
    | cons a as ih =>
      intro added
      rw [List.foldl_cons, List.map_cons]
      have hnext : Round.receive hits absorb start ⟨[], added⟩ a = ⟨[], added ++ [start a]⟩ := rfl
      rw [hnext, ih, List.append_assoc, List.singleton_append]
  exact hadd arrivals []

end Grouping

end TinySweeper.Rounds
