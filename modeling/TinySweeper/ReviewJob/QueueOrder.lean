import TinySweeper.ReviewJob.Ownership

/-!
# Queue order

`claim_pending_checks` reports a place in the order of acceptance time and job
ID; `claim_next_with_limit` takes the first eligible record of `unfinished`. The
two agree exactly as far as the eligible records stand in that order.
-/

namespace TinySweeper.ReviewJob

open FirstMatch

/-- The first `room` entries are each no later than everything behind them. -/
def LeadsInOrder {α : Type*} (r : α → α → Prop) : ℕ → List α → Prop
  | 0, _ => True
  | _ + 1, [] => True
  | room + 1, a :: as => (∀ b ∈ as, r a b) ∧ LeadsInOrder r room as

section

variable {α : Type*} {r : α → α → Prop}

/-- Only one list sorted by an antisymmetric relation has a given prefix of least entries. -/
theorem LeadsInOrder.take_eq [Std.Antisymm r] [Std.Refl r] {room : ℕ} {as bs : List α}
    (h : LeadsInOrder r room as) (hperm : as.Perm bs) (hsorted : bs.Pairwise r) :
    as.take room = bs.take room := by
  induction room generalizing as bs with
  | zero => rfl
  | succ room ih =>
    cases as with
    | nil => rw [hperm.nil_eq]
    | cons a as =>
      cases bs with
      | nil => exact absurd hperm.eq_nil (List.cons_ne_nil a as)
      | cons b bs =>
        have hab : r a b := by
          rcases List.mem_cons.mp (hperm.mem_iff.mpr List.mem_cons_self) with rfl | hb
          · exact Std.Refl.refl b
          · exact h.1 b hb
        have hba : r b a := by
          rcases List.mem_cons.mp (hperm.mem_iff.mp List.mem_cons_self) with rfl | ha
          · exact Std.Refl.refl a
          · exact (List.pairwise_cons.mp hsorted).1 a ha
        obtain rfl := Std.Antisymm.antisymm a b hab hba
        rw [List.take_succ_cons, List.take_succ_cons,
          ih h.2 hperm.cons_inv (List.pairwise_cons.mp hsorted).2]

theorem LeadsInOrder.map {β : Type*} {t : β → β → Prop} (f : α → β)
    (hf : ∀ a b, r a b → t (f a) (f b)) {room : ℕ} {as : List α} (h : LeadsInOrder r room as) :
    LeadsInOrder t room (as.map f) := by
  induction room generalizing as with
  | zero => trivial
  | succ room ih =>
    cases as with
    | nil => trivial
    | cons a as => exact ⟨List.forall_mem_map.mpr fun b hb => hf a b (h.1 b hb), ih h.2⟩

end

/-- What `claim_pending_checks` sorts by. -/
abbrev QueueKey := ℤ × ReviewJobId

/-- The order of `QueueEntry.before`, whatever the positions. -/
def QueueKey.le (a b : QueueKey) : Prop :=
  a.1 < b.1 ∨ a.1 = b.1 ∧ a.2.text ≤ b.2.text

theorem QueueKey.le_total (a b : QueueKey) : a.le b ∨ b.le a := by
  unfold QueueKey.le
  rcases lt_trichotomy a.1 b.1 with h | h | h
  · exact .inl (.inl h)
  · rcases String.le_total a.2.text b.2.text with ht | ht
    · exact .inl (.inr ⟨h, ht⟩)
    · exact .inr (.inr ⟨h.symm, ht⟩)
  · exact .inr (.inl h)

theorem QueueKey.le_trans {a b c : QueueKey} (hab : a.le b) (hbc : b.le c) : a.le c := by
  rcases hab with h | ⟨h, ht⟩
  · rcases hbc with h' | ⟨h', -⟩
    · exact .inl (h.trans h')
    · exact .inl (h'.subst h)
  · rcases hbc with h' | ⟨h', ht'⟩
    · exact .inl (h.trans_lt h')
    · exact .inr ⟨h.trans h', String.le_trans ht ht'⟩

instance : Std.Refl QueueKey.le where
  refl a := (a.le_total a).elim id id

instance : Std.Antisymm QueueKey.le where
  antisymm a b hab hba := by
    rcases hab with h | ⟨h, ht⟩
    · rcases hba with h' | ⟨h', -⟩
      · exact absurd h' h.not_gt
      · exact absurd h'.symm h.ne
    · rcases hba with h' | ⟨-, ht'⟩
      · exact absurd h.symm h'.ne
      · exact Prod.ext h (congrArg ReviewJobId.mk (String.le_antisymm ht ht'))

def ScheduledReview.queueKey (record : ScheduledReview) : QueueKey :=
  (record.enqueuedAtMs, record.request.id)

/-- `a` is owed its turn no later than `b`. -/
def ScheduledReview.dueBefore (a b : ScheduledReview) : Prop := a.queueKey.le b.queueKey

@[simp] theorem ScheduledReview.claim_request (owner : String) (nowMs : ℤ)
    (record : ScheduledReview) : (record.claim owner nowMs).request = record.request := by
  rw [ScheduledReview.claim_eq]

theorem ScheduledReview.claim_ne (owner : String) (nowMs : ℤ) (record : ScheduledReview) :
    record.claim owner nowMs ≠ record := by
  intro h
  have hgeneration := congrArg ScheduledReview.generation h
  rw [ScheduledReview.claim_eq] at hgeneration
  exact absurd hgeneration (Nat.succ_ne_self _)

/-- A claim leaves the eligible set. -/
theorem isEligible_claim (s : ReviewSchedulerState) (owner : String) (nowMs : ℤ)
    (record : ScheduledReview) : isEligible s nowMs (record.claim owner nowMs) = false := by
  have hheld : ¬ nowMs + reviewOwnerTtlMs ≤ nowMs := by simp [reviewOwnerTtlMs]
  rw [ScheduledReview.claim_eq]
  simp [isEligible, hheld]

theorem isRunning_claim (owner : String) (nowMs : ℤ) (record : ScheduledReview) :
    isRunning nowMs (record.claim owner nowMs) = true := by
  have hheld : nowMs < nowMs + reviewOwnerTtlMs := by simp [reviewOwnerTtlMs]
  rw [ScheduledReview.claim_eq]
  simp [isRunning, hheld]

theorem not_isRunning_of_isEligible {s : ReviewSchedulerState} {nowMs : ℤ}
    {record : ScheduledReview} (h : isEligible s nowMs record = true) :
    isRunning nowMs record = false := by
  simp only [isEligible, Bool.and_eq_true, Bool.or_eq_true, decide_eq_true_eq,
    Option.isNone_iff_eq_none] at h
  rcases h.1.1.2 with hnone | hlapsed
  · simp [isRunning, hnone]
  · simp [isRunning, hlapsed]

namespace ReviewSchedulerState

variable (s : ReviewSchedulerState) (owner : String) (nowMs : ℤ) (limit : ℕ)

/-- The records a claim may take, as they stand in `unfinished`. -/
def eligible : List ScheduledReview := s.unfinished.filter (isEligible s nowMs)

/-- Slots left under the running bound. -/
def room : ℕ := limit - s.runningOwners nowMs

/-- The starts of up to `n` claims in a row. -/
def claimMany : ℕ → ReviewSchedulerState → ReviewSchedulerState × List OwnedReview
  | 0, s => (s, [])
  | n + 1, s =>
    let next := s.claimNextWithLimit owner nowMs limit
    let rest := claimMany n next.1
    (rest.1, next.2.toList ++ rest.2)

variable {s nowMs limit}

theorem claimNextWithLimit_idle (h : s.room nowMs limit = 0 ∨ s.eligible nowMs = []) :
    s.claimNextWithLimit owner nowMs limit = (s, none) := by
  unfold claimNextWithLimit
  by_cases hfull : s.runningOwners nowMs ≥ limit
  · rw [if_pos hfull]
  · have hnone : s.unfinished.find? (isEligible s nowMs) = none := by
      rcases h with hroom | hempty
      · exact absurd (Nat.sub_eq_zero_iff_le.mp hroom) hfull
      · rw [← List.head?_filter]
        exact congrArg List.head? hempty
    rw [if_neg hfull, hnone]

/-- A claim takes the first eligible record and one slot. -/
theorem claimNextWithLimit_step {record : ScheduledReview} {rest : List ScheduledReview}
    (hroom : s.room nowMs limit ≠ 0) (h : s.eligible nowMs = record :: rest) :
    ∃ (s' : ReviewSchedulerState) (owned : OwnedReview),
      s.claimNextWithLimit owner nowMs limit = (s', some owned) ∧
        owned.request = record.request ∧
        Replaced s.unfinished s'.unfinished record (record.claim owner nowMs) ∧
        s'.eligible nowMs = rest ∧ s'.room nowMs limit = s.room nowMs limit - 1 := by
  have hfind : s.unfinished.find? (isEligible s nowMs) = some record := by
    rw [← List.head?_filter]
    exact congrArg List.head? h
  have hfree : ¬ s.runningOwners nowMs ≥ limit := fun hfull =>
    hroom (Nat.sub_eq_zero_iff_le.mpr hfull)
  have heligible : isEligible s nowMs record = true := List.find?_some hfind
  have hreplaced := updateFirst_replaced (ScheduledReview.claim owner nowMs) hfind
  refine ⟨_, _, by unfold claimNextWithLimit; rw [if_neg hfree, hfind],
    ScheduledReview.claim_request owner nowMs record, hreplaced, ?_, ?_⟩
  · exact (filter_updateFirst_gone (isEligible_claim s owner nowMs) _).trans
      (congrArg List.tail h)
  · have hcount := hreplaced.countP (isRunning nowMs)
    rw [not_isRunning_of_isEligible heligible, isRunning_claim] at hcount
    simp only [room, runningOwners] at hcount ⊢
    simp at hcount
    omega

variable (s nowMs limit)

/-- Whatever record the next claim takes, no eligible record is owed an earlier turn. -/
def ClaimsOldest : Prop :=
  ∀ record, Replaced s.unfinished (s.claimNextWithLimit owner nowMs limit).1.unfinished record
      (record.claim owner nowMs) →
    ∀ other ∈ s.unfinished, isEligible s nowMs other = true → record.dueBefore other

/-- The eligible jobs in durable order. -/
def queue : List ReviewJobId :=
  (s.ordered.filter fun entry => isEligible s nowMs entry.2).map fun entry => entry.2.request.id

variable {s nowMs limit}

theorem claimsOldest_iff : s.ClaimsOldest owner nowMs limit ↔
    LeadsInOrder ScheduledReview.dueBefore (min (s.room nowMs limit) 1) (s.eligible nowMs) := by
  by_cases hidle : s.room nowMs limit = 0 ∨ s.eligible nowMs = []
  · constructor
    · intro _
      rcases hidle with hroom | hempty
      · simp [hroom, LeadsInOrder]
      · cases hmin : min (s.room nowMs limit) 1 <;> simp [hempty, LeadsInOrder]
    · intro _ record hreplaced
      rw [claimNextWithLimit_idle owner hidle] at hreplaced
      obtain ⟨l₁, l₂, hold, hnew⟩ := hreplaced
      have hsame := List.append_cancel_left (hold.symm.trans hnew)
      exact absurd (List.cons.inj hsame).1.symm (ScheduledReview.claim_ne owner nowMs record)
  · push Not at hidle
    obtain ⟨hroom, hsome⟩ := hidle
    obtain ⟨first, rest, hlist⟩ := List.exists_cons_of_ne_nil hsome
    obtain ⟨s', owned, hstep, -, hreplaced, -, -⟩ := claimNextWithLimit_step owner hroom hlist
    have hmin : min (s.room nowMs limit) 1 = 1 := by omega
    have hmem : ∀ other, other ∈ s.unfinished ∧ isEligible s nowMs other = true ↔
        other = first ∨ other ∈ rest := fun other => by
      rw [← List.mem_filter, ← List.mem_cons]
      exact iff_of_eq (congrArg (other ∈ ·) hlist)
    rw [hmin, hlist]
    simp only [LeadsInOrder, and_true]
    constructor
    · intro h other hother
      have hunfinished := (hmem other).mpr (.inr hother)
      exact h first (by rw [hstep]; exact hreplaced) other hunfinished.1 hunfinished.2
    · intro h record hclaimed other hother heligible
      rw [hstep] at hclaimed
      obtain rfl := hclaimed.unique hreplaced (ScheduledReview.claim_ne owner nowMs _).symm
        (ScheduledReview.claim_ne owner nowMs _).symm
      rcases (hmem other).mp ⟨hother, heligible⟩ with rfl | hrest
      · exact Std.Refl.refl (r := QueueKey.le) _
      · exact h other hrest

theorem claimMany_idle (h : s.room nowMs limit = 0 ∨ s.eligible nowMs = []) (n : ℕ) :
    (claimMany owner nowMs limit n s).1 = s := by
  induction n with
  | zero => rfl
  | succ n ih => simpa [claimMany, claimNextWithLimit_idle owner h] using ih

/-- What the next claim leaves out of the condition, the claims after it check. -/
theorem leadsInOrder_step {α : Type*} {r : α → α → Prop} {room : ℕ} (hroom : room ≠ 0) (a : α)
    (as : List α) : LeadsInOrder r room (a :: as) ↔
      LeadsInOrder r (min room 1) (a :: as) ∧ LeadsInOrder r (room - 1) as := by
  obtain ⟨k, rfl⟩ := Nat.exists_eq_succ_of_ne_zero hroom
  simp [LeadsInOrder]

/-- Successive claims start the first eligible records, as many as there are slots. -/
theorem claimMany_request (n : ℕ) :
    ((claimMany owner nowMs limit n s).2.map fun owned => owned.request) =
      ((s.eligible nowMs).take (min n (s.room nowMs limit))).map fun record => record.request := by
  induction n generalizing s with
  | zero => simp [claimMany]
  | succ n ih =>
    simp only [claimMany]
    by_cases hidle : s.room nowMs limit = 0 ∨ s.eligible nowMs = []
    · rw [claimNextWithLimit_idle owner hidle]
      rcases hidle with hroom | hempty
      · simp [ih, hroom]
      · simp [ih, hempty]
    · push Not at hidle
      obtain ⟨hroom, hsome⟩ := hidle
      obtain ⟨first, rest, hlist⟩ := List.exists_cons_of_ne_nil hsome
      obtain ⟨s', owned, hstep, hrequest, -, hrest, hless⟩ :=
        claimNextWithLimit_step owner hroom hlist
      have hmin : min (n + 1) (s.room nowMs limit) = min n (s.room nowMs limit - 1) + 1 := by omega
      rw [hstep, hlist, hmin, List.take_succ_cons]
      simp only [Option.toList_some, List.singleton_append, List.map_cons, ih, hrest, hless,
        hrequest]

/-- Every claim of a run takes the oldest exactly when the slots reach no disorder. -/
theorem claimsOldest_run_iff :
    (∀ n, (claimMany owner nowMs limit n s).1.ClaimsOldest owner nowMs limit) ↔
      LeadsInOrder ScheduledReview.dueBefore (s.room nowMs limit) (s.eligible nowMs) := by
  induction hk : s.room nowMs limit generalizing s with
  | zero =>
    simp only [claimMany_idle owner (.inl hk), claimsOldest_iff, hk, LeadsInOrder, Nat.zero_min, forall_const]
  | succ k ih =>
    have hroom : s.room nowMs limit ≠ 0 := by omega
    cases hlist : s.eligible nowMs with
    | nil =>
      simp only [claimMany_idle owner (.inr hlist), claimsOldest_iff, hlist, forall_const]
      cases min (s.room nowMs limit) 1 <;> simp [LeadsInOrder]
    | cons first rest =>
      obtain ⟨s', owned, hstep, -, -, hrest, hless⟩ := claimNextWithLimit_step owner hroom hlist
      have hfirst : (∀ n, (claimMany owner nowMs limit n s).1.ClaimsOldest owner nowMs limit) ↔
          s.ClaimsOldest owner nowMs limit ∧
            ∀ n, (claimMany owner nowMs limit n s').1.ClaimsOldest owner nowMs limit := by
        have hsucc : ∀ n, (claimMany owner nowMs limit (n + 1) s).1 =
            (claimMany owner nowMs limit n s').1 := fun n => by simp only [claimMany, hstep]
        exact ⟨fun h => ⟨h 0, fun n => hsucc n ▸ h (n + 1)⟩,
          fun h n => n.casesOn h.1 fun n => (hsucc n).symm ▸ h.2 n⟩
      have hnext := ih (s := s') (by omega)
      rw [hrest] at hnext
      rw [hfirst, hnext, claimsOldest_iff, hlist, ← hk, leadsInOrder_step hroom, hk]
      rfl

theorem mem_queueEntries_key {jobs : List ScheduledReview} {entry : QueueEntry × ScheduledReview}
    (h : entry ∈ queueEntries jobs) : entry.1.2 = entry.2.queueKey := by
  obtain ⟨_, -, rfl⟩ := List.mem_map.mp h
  rfl

theorem queueEntries_map_snd (jobs : List ScheduledReview) :
    (queueEntries jobs).map Prod.snd = jobs := by
  rw [queueEntries, List.map_map]
  exact List.zipIdx_map_fst 0 jobs

/-- The eligible records, sorted as `claim_pending_checks` sorts. -/
theorem queued_sorted (s : ReviewSchedulerState) (nowMs : ℤ) :
    (((s.ordered.filter fun entry => isEligible s nowMs entry.2).map
        fun entry => entry.2.queueKey).Pairwise QueueKey.le) ∧
      ((s.eligible nowMs).map ScheduledReview.queueKey).Perm
        ((s.ordered.filter fun entry => isEligible s nowMs entry.2).map
          fun entry => entry.2.queueKey) := by
  have htotal : Std.Total fun a b : QueueEntry × ScheduledReview => a.1.before b.1 :=
    ⟨fun a b => QueueKey.le_total a.1.2 b.1.2⟩
  have htrans : IsTrans (QueueEntry × ScheduledReview) fun a b => a.1.before b.1 :=
    ⟨fun a b c => QueueKey.le_trans⟩
  have hperm : s.ordered.Perm (queueEntries s.unfinished) := List.perm_insertionSort _ _
  constructor
  · rw [List.pairwise_map]
    refine List.Pairwise.filter _ ?_
    refine (List.pairwise_insertionSort _ _).imp_of_mem ?_
    intro a b ha hb hbefore
    have hkeyA := mem_queueEntries_key ((List.mem_insertionSort _).mp ha)
    have hkeyB := mem_queueEntries_key ((List.mem_insertionSort _).mp hb)
    rw [← hkeyA, ← hkeyB]
    exact hbefore
  · have hsnd : s.eligible nowMs =
        ((queueEntries s.unfinished).filter fun entry => isEligible s nowMs entry.2).map
          Prod.snd := by
      conv_lhs => rw [eligible, ← queueEntries_map_snd s.unfinished, List.filter_map]
      rfl
    rw [hsnd, List.map_map]
    exact ((hperm.filter _).map _).symm

/-- A claim takes the oldest eligible record exactly when no later eligible record
precedes the first one, and successive claims follow the queue exactly when that
holds of every record the free slots reach. -/
theorem claims_follow_queue_iff (s : ReviewSchedulerState) (owner : String) (nowMs : ℤ)
    (limit : ℕ) :
    (s.ClaimsOldest owner nowMs limit ↔
      LeadsInOrder ScheduledReview.dueBefore (min (s.room nowMs limit) 1) (s.eligible nowMs)) ∧
    ((∀ n, (claimMany owner nowMs limit n s).1.ClaimsOldest owner nowMs limit) ↔
      LeadsInOrder ScheduledReview.dueBefore (s.room nowMs limit) (s.eligible nowMs)) ∧
    (LeadsInOrder ScheduledReview.dueBefore (s.room nowMs limit) (s.eligible nowMs) →
      ∀ n, ((claimMany owner nowMs limit n s).2.map fun owned => owned.request.id) =
        (s.queue nowMs).take (min n (s.room nowMs limit))) := by
  refine ⟨claimsOldest_iff owner, claimsOldest_run_iff owner, fun hlead n => ?_⟩
  obtain ⟨hsorted, hperm⟩ := queued_sorted s nowMs
  have htake := (hlead.map ScheduledReview.queueKey fun _ _ h => h).take_eq hperm hsorted
  have hids := congrArg (fun keys => (keys.map Prod.snd).take n) htake
  have hstarts := congrArg (List.map fun request => request.id)
    (@claimMany_request s owner nowMs limit n)
  rw [List.map_map, List.map_map] at hstarts
  refine hstarts.trans ?_
  simpa [queue, List.map_take, List.take_take, ScheduledReview.queueKey, Function.comp_def]
    using hids

-- Two deliveries whose acceptance times were read before either was written.

/-- A full review of one pull request, accepted at the given time. -/
def fullReview (id : String) (number : ℕ) (acceptedAtMs : ℤ) : ReviewRequest where
  id := ⟨id⟩
  repo := "owner/repo"
  number := number
  author := "octocat"
  installation := 1
  headSha := none
  delivery := none
  event := "pull_request"
  mode := .full
  acceptedAtMs := acceptedAtMs

def admittedInTurn (first second : ReviewRequest) : ReviewSchedulerState :=
  let digest := fun _ : String => []
  let one := (ReviewSchedulerState.admitBatch digest {} [first] 7).1
  (one.admitBatch digest [second] 7).1

/-- The delivery accepted at 6 was written first and is started before the one accepted at 5. -/
theorem late_writer_starts_second :
    ¬ (admittedInTurn (fullReview "a" 1 6) (fullReview "b" 2 5)).ClaimsOldest "worker" 8 4 := by
  intro h
  have hfirst := h (ScheduledReview.enqueue (fun _ => []) (fullReview "a" 1 6))
    ⟨[], [ScheduledReview.enqueue (fun _ => []) (fullReview "b" 2 5)], by decide +kernel,
      by decide +kernel⟩
    (ScheduledReview.enqueue (fun _ => []) (fullReview "b" 2 5)) (by decide +kernel)
    (by decide +kernel)
  revert hfirst
  unfold ScheduledReview.dueBefore QueueKey.le
  decide +kernel

/-- Written in the order of acceptance, both deliveries start in the order of the queue. -/
theorem claims_follow_queue_in_turn :
    ((claimMany "worker" 8 4 2
        (admittedInTurn (fullReview "a" 1 5) (fullReview "b" 2 6))).2.map
        fun owned => owned.request.id) =
      ((admittedInTurn (fullReview "a" 1 5) (fullReview "b" 2 6)).queue 8).take 2 := by
  have hlead : LeadsInOrder ScheduledReview.dueBefore
      ((admittedInTurn (fullReview "a" 1 5) (fullReview "b" 2 6)).room 8 4)
      ((admittedInTurn (fullReview "a" 1 5) (fullReview "b" 2 6)).eligible 8) := by
    have hrecords : (admittedInTurn (fullReview "a" 1 5) (fullReview "b" 2 6)).eligible 8 =
        [ScheduledReview.enqueue (fun _ => []) (fullReview "a" 1 5),
          ScheduledReview.enqueue (fun _ => []) (fullReview "b" 2 6)] := by decide +kernel
    have hroom : (admittedInTurn (fullReview "a" 1 5) (fullReview "b" 2 6)).room 8 4 = 4 := by
      decide +kernel
    rw [hrecords, hroom]
    refine ⟨fun b hb => ?_, fun _ h => absurd h List.not_mem_nil, trivial⟩
    rw [List.mem_singleton] at hb
    exact hb ▸ .inl (by decide)
  have hroom : min 2 ((admittedInTurn (fullReview "a" 1 5) (fullReview "b" 2 6)).room 8 4) = 2 := by
    decide +kernel
  rw [(claims_follow_queue_iff _ "worker" 8 4).2.2 hlead 2, hroom]

end ReviewSchedulerState

end TinySweeper.ReviewJob
