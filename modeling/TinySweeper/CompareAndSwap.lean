import TinySweeper.Runs

/-!
# A register updated by compare and swap

Any number of calls share one register. A call reads the register, then the
clock, computes, and writes back on condition that the revision it read is
still the current one; a lost race starts the call over. Steps of different
calls interleave freely, and any step of a call may report an error instead.
-/

namespace TinySweeper.CompareAndSwap

open Runs

/-- What the calls of one register have in common. -/
structure Client (σ τ ρ ε κ : Type*) where
  attempts : ℕ
  revision : σ → ℕ
  stamp : ℕ → σ → σ
  /-- What a read makes of the stored value. -/
  decode : σ → σ
  next : ℕ → ℕ
  /-- The revision as the condition of the write names it. -/
  wire : ℕ → ℤ
  /-- Why a value cannot be written. -/
  refusal : σ → Option ε
  change : κ → σ → τ → σ × ρ
  contended : ε

inductive Phase (σ τ ρ ε : Type*) where
  | idle
  | reading (left : ℕ)
  | timing (left : ℕ) (before : σ)
  | writing (left : ℕ) (before document : σ) (now : τ) (result : ρ)
  | returned (answer : Except ε ρ)

structure World (σ τ ρ ε κ : Type*) where
  document : σ
  clock : τ
  phase : κ → Phase σ τ ρ ε

/-- `lose` is a write whose acknowledgement does not arrive. -/
inductive Event (τ ε κ : Type*) where
  | tick (now : τ)
  | start (call : κ)
  | read (call : κ)
  | time (call : κ)
  | write (call : κ)
  | lose (call : κ) (error : ε)
  | fail (call : κ) (error : ε)

/-- A value that replaced the one before it. -/
structure Commit (σ τ ρ κ : Type*) where
  call : κ
  now : τ
  result : ρ
  document : σ

variable {σ τ ρ ε κ : Type*} [DecidableEq κ]

def World.move (w : World σ τ ρ ε κ) (call : κ) (phase : Phase σ τ ρ ε) : World σ τ ρ ε κ :=
  { w with phase := Function.update w.phase call phase }

@[simp] theorem World.move_document (w : World σ τ ρ ε κ) (call : κ) (phase : Phase σ τ ρ ε) :
    (w.move call phase).document = w.document := rfl

@[simp] theorem World.move_clock (w : World σ τ ρ ε κ) (call : κ) (phase : Phase σ τ ρ ε) :
    (w.move call phase).clock = w.clock := rfl

@[simp] theorem World.move_phase_self (w : World σ τ ρ ε κ) (call : κ)
    (phase : Phase σ τ ρ ε) : (w.move call phase).phase call = phase := by
  simp [World.move]

@[simp] theorem World.move_phase_of_ne (w : World σ τ ρ ε κ) {call other : κ}
    (phase : Phase σ τ ρ ε) (hne : other ≠ call) :
    (w.move call phase).phase other = w.phase other := by
  simp [World.move, hne]

namespace Client

variable [DecidableEq σ] (P : Client σ τ ρ ε κ)

/-- The phase of a call with this many attempts left. -/
def retry : ℕ → Phase σ τ ρ ε
  | 0 => .returned (.error P.contended)
  | left + 1 => .reading left

/-- What a call does between its clock reading and its write. -/
def compute (call : κ) (left : ℕ) (before : σ) (now : τ) : Phase σ τ ρ ε :=
  let (state, result) := P.change call before now
  if state = before then .returned (.ok result)
  else
    let document := P.stamp (P.next (P.revision before)) state
    match P.refusal document with
    | some error => .returned (.error error)
    | none => .writing left before document now result

/-- The condition of the write: the stored revision is the one that was read. -/
def holds (stored before : σ) : Bool := P.wire (P.revision stored) = P.wire (P.revision before)

def step (w : World σ τ ρ ε κ) : Event τ ε κ → World σ τ ρ ε κ
  | .tick now => { w with clock := now }
  | .start call =>
    match w.phase call with
    | .idle => w.move call (P.retry P.attempts)
    | _ => w
  | .read call =>
    match w.phase call with
    | .reading left => w.move call (.timing left (P.decode w.document))
    | _ => w
  | .time call =>
    match w.phase call with
    | .timing left before => w.move call (P.compute call left before w.clock)
    | _ => w
  | .write call =>
    match w.phase call with
    | .writing left before document _ result =>
      if P.holds w.document before then
        { w with document := document }.move call (.returned (.ok result))
      else w.move call (P.retry left)
    | _ => w
  | .lose call error =>
    match w.phase call with
    | .writing _ before document _ _ =>
      if P.holds w.document before then
        { w with document := document }.move call (.returned (.error error))
      else w.move call (.returned (.error error))
    | _ => w
  | .fail call error =>
    match w.phase call with
    | .idle => w
    | .returned _ => w
    | _ => w.move call (.returned (.error error))

/-- The write of a call, if the condition holds when it arrives. -/
def written (w : World σ τ ρ ε κ) (call : κ) : Option (Commit σ τ ρ κ) :=
  match w.phase call with
  | .writing _ before document now result =>
    if P.holds w.document before then some ⟨call, now, result, document⟩ else none
  | _ => none

def committed (w : World σ τ ρ ε κ) : Event τ ε κ → Option (Commit σ τ ρ κ)
  | .write call | .lose call _ => P.written w call
  | _ => none

end Client

/-- The world together with the values committed so far, oldest first. -/
structure History (σ τ ρ ε κ : Type*) where
  world : World σ τ ρ ε κ
  commits : List (Commit σ τ ρ κ)

def History.beginning (start : σ) (now : τ) : History σ τ ρ ε κ :=
  ⟨⟨start, now, fun _ => .idle⟩, []⟩

def History.ClockAdvances [LE τ] (h : History σ τ ρ ε κ) : Event τ ε κ → Prop
  | .tick now => h.world.clock ≤ now
  | _ => True

namespace Client

variable [DecidableEq σ] (P : Client σ τ ρ ε κ)

def record (h : History σ τ ρ ε κ) (e : Event τ ε κ) : History σ τ ρ ε κ :=
  ⟨P.step h.world e, h.commits ++ (P.committed h.world e).toList⟩

/-- Runs in any order of steps, as long as the clock never goes back. -/
def IsRun [LE τ] (h : History σ τ ρ ε κ) (events : List (Event τ ε κ)) : Prop :=
  Guarded P.record History.ClockAdvances h events

/-- The history after a run. -/
def run (h : History σ τ ρ ε κ) (events : List (Event τ ε κ)) : History σ τ ρ ε κ :=
  exec P.record h events

/-- The commit is its call's operation applied to this value, one revision later. -/
structure Applies (c : Commit σ τ ρ κ) (before : σ) : Prop where
  document : c.document =
    P.stamp (P.revision before + 1) (P.change c.call (P.decode before) c.now).1
  result : c.result = (P.change c.call (P.decode before) c.now).2

/-- Each commit applies to the value the previous one left. -/
inductive Serial (start : σ) : List (Commit σ τ ρ κ) → σ → Prop where
  | nil : Serial start [] start
  | snoc {commits : List (Commit σ τ ρ κ)} {last : σ} {c : Commit σ τ ρ κ} :
      Serial start commits last → P.Applies c last → Serial start (commits ++ [c]) c.document

end Client

/-- The stored value and every value committed after it. -/
def states (start : σ) (commits : List (Commit σ τ ρ κ)) : List σ :=
  start :: commits.map Commit.document

def commitsOf (commits : List (Commit σ τ ρ κ)) (call : κ) : List (Commit σ τ ρ κ) :=
  commits.filter fun c => c.call = call

/-- Where an answer comes from: the only commit of its call, or a committed
value that the call's operation leaves alone. -/
def Client.Answers (P : Client σ τ ρ ε κ) (start : σ) (commits : List (Commit σ τ ρ κ))
    (call : κ) (result : ρ) : Prop :=
  (∃ c, commitsOf commits call = [c] ∧ c.result = result) ∨
    commitsOf commits call = [] ∧ ∃ d ∈ states start commits, ∃ now,
      P.change call (P.decode d) now = (P.decode d, result)

theorem commitsOf_append (before after : List (Commit σ τ ρ κ)) (call : κ) :
    commitsOf (before ++ after) call = commitsOf before call ++ commitsOf after call :=
  List.filter_append ..

theorem commitsOf_self (c : Commit σ τ ρ κ) : commitsOf [c] c.call = [c] := by
  simp [commitsOf]

theorem commitsOf_of_ne (c : Commit σ τ ρ κ) {call : κ} (hne : call ≠ c.call) :
    commitsOf [c] call = [] := by
  simp [commitsOf, hne.symm]

omit [DecidableEq κ] in
theorem states_snoc (start : σ) (commits : List (Commit σ τ ρ κ)) (c : Commit σ τ ρ κ) :
    states start (commits ++ [c]) = states start commits ++ [c.document] := by
  simp [states]

omit [DecidableEq κ] in
theorem mem_states_snoc {start d : σ} {commits : List (Commit σ τ ρ κ)} {c : Commit σ τ ρ κ} :
    d ∈ states start (commits ++ [c]) ↔ d ∈ states start commits ∨ d = c.document := by
  simp [states_snoc]

theorem Client.Answers.snoc {P : Client σ τ ρ ε κ} {start : σ} {commits : List (Commit σ τ ρ κ)}
    {call : κ} {result : ρ} (h : P.Answers start commits call result) {c : Commit σ τ ρ κ}
    (hne : call ≠ c.call) : P.Answers start (commits ++ [c]) call result := by
  have hother : commitsOf (commits ++ [c]) call = commitsOf commits call := by
    rw [commitsOf_append, commitsOf_of_ne c hne, List.append_nil]
  rcases h with ⟨own, hown, hresult⟩ | ⟨hnone, d, hd, hstays⟩
  · left
    exact ⟨own, hother.trans hown, hresult⟩
  · right
    exact ⟨hother.trans hnone, d, mem_states_snoc.mpr (.inl hd), hstays⟩

/-- Below the bound a revision survives the round trip through the write's
condition, and no value beyond the bound can be written. -/
structure Client.Lawful (P : Client σ τ ρ ε κ) (bound : ℕ) : Prop where
  stamp : ∀ n s, P.revision (P.stamp n s) = n
  decode : ∀ s, P.revision (P.decode s) = P.revision s
  next : ∀ n < bound, P.next n = n + 1
  wire : ∀ m < bound, ∀ n < bound, P.wire m = P.wire n → m = n
  refusal : ∀ s, P.refusal s = none → P.revision s < bound

section Invariant

variable [LinearOrder τ] (P : Client σ τ ρ ε κ) (bound : ℕ) (start : σ)

/-- What a call knows of the history in each phase. -/
def Knows (h : History σ τ ρ ε κ) (call : κ) : Phase σ τ ρ ε → Prop
  | .idle => commitsOf h.commits call = []
  | .reading _ => commitsOf h.commits call = []
  | .timing _ before =>
    commitsOf h.commits call = [] ∧ ∃ d ∈ states start h.commits, before = P.decode d
  | .writing _ before document now result =>
    commitsOf h.commits call = [] ∧ ∃ d ∈ states start h.commits, before = P.decode d ∧
      P.revision document < bound ∧
      document = P.stamp (P.revision d + 1) (P.change call before now).1 ∧
      result = (P.change call before now).2 ∧ now ≤ h.world.clock ∧
      ∀ c ∈ h.commits, P.revision c.document ≤ P.revision d → c.now ≤ now
  | .returned (.ok result) => P.Answers start h.commits call result
  | .returned (.error _) => (commitsOf h.commits call).length ≤ 1

structure Invariant (h : History σ τ ρ ε κ) : Prop where
  serial : P.Serial start h.commits h.world.document
  bounded : ∀ d ∈ states start h.commits, P.revision d < bound
  latest : ∀ d ∈ states start h.commits, d = h.world.document ∨
    P.revision d < P.revision h.world.document
  clocks : ∀ c ∈ h.commits, c.now ≤ h.world.clock
  sorted : (h.commits.map Commit.now).Pairwise (· ≤ ·)
  knows : ∀ call, Knows P bound start h call (h.world.phase call)

variable {P bound start} {h : History σ τ ρ ε κ}

omit [DecidableEq κ] [LinearOrder τ] in
theorem Client.Serial.last_mem {commits : List (Commit σ τ ρ κ)} {last : σ}
    (hserial : P.Serial start commits last) : last ∈ states start commits := by
  cases hserial with
  | nil => exact List.mem_cons_self
  | snoc _ _ => exact mem_states_snoc.mpr (.inr rfl)

theorem Knows.keep {call : κ} {phase : Phase σ τ ρ ε} (hknows : Knows P bound start h call phase)
    {w : World σ τ ρ ε κ} (hclock : h.world.clock ≤ w.clock) :
    Knows P bound start ⟨w, h.commits⟩ call phase := by
  cases phase with
  | idle => exact hknows
  | reading left => exact hknows
  | timing left before => exact hknows
  | writing left before document now result =>
    obtain ⟨hnone, d, hd, hbefore, hbound, hdocument, hresult, hnow, hlater⟩ := hknows
    exact ⟨hnone, d, hd, hbefore, hbound, hdocument, hresult, hnow.trans hclock, hlater⟩
  | returned answer => cases answer <;> exact hknows

/-- A commit of another call, at a revision nobody has read yet, tells a call nothing. -/
theorem Knows.commit {call : κ} {phase : Phase σ τ ρ ε}
    (hknows : Knows P bound start h call phase) {w : World σ τ ρ ε κ}
    (hclock : h.world.clock ≤ w.clock) {c : Commit σ τ ρ κ} (hne : call ≠ c.call)
    (hfresh : ∀ d ∈ states start h.commits, P.revision d < P.revision c.document) :
    Knows P bound start ⟨w, h.commits ++ [c]⟩ call phase := by
  have hother : commitsOf (h.commits ++ [c]) call = commitsOf h.commits call := by
    rw [commitsOf_append, commitsOf_of_ne c hne, List.append_nil]
  cases phase with
  | idle => exact hother.trans hknows
  | reading left => exact hother.trans hknows
  | timing left before =>
    obtain ⟨hnone, d, hd, hbefore⟩ := hknows
    exact ⟨hother.trans hnone, d, mem_states_snoc.mpr (.inl hd), hbefore⟩
  | writing left before document now result =>
    obtain ⟨hnone, d, hd, hbefore, hbound, hdocument, hresult, hnow, hlater⟩ := hknows
    refine ⟨hother.trans hnone, d, mem_states_snoc.mpr (.inl hd), hbefore, hbound, hdocument,
      hresult, hnow.trans hclock, ?_⟩
    intro c' hc' hrevision
    rcases List.mem_append.mp hc' with hold | hnew
    · exact hlater c' hold hrevision
    · rw [List.mem_singleton.mp hnew] at hrevision
      have := hfresh d hd
      omega
  | returned answer =>
    cases answer with
    | ok result => exact Client.Answers.snoc hknows hne
    | error e =>
      show (commitsOf (h.commits ++ [c]) call).length ≤ 1
      rw [hother]
      exact hknows

theorem Invariant.beginning (hstart : P.revision start < bound) (now : τ) :
    Invariant P bound start (History.beginning start now) := by
  constructor
  · exact .nil
  · intro d hd
    rwa [List.mem_singleton.mp hd]
  · intro d hd
    exact .inl (List.mem_singleton.mp hd)
  · intro c hc
    cases hc
  · exact List.Pairwise.nil
  · intro call
    rfl

theorem Invariant.tick (hinv : Invariant P bound start h) {now : τ}
    (hnow : h.world.clock ≤ now) :
    Invariant P bound start ⟨{ h.world with clock := now }, h.commits⟩ := by
  constructor
  · exact hinv.serial
  · exact hinv.bounded
  · exact hinv.latest
  · intro c hc
    exact (hinv.clocks c hc).trans hnow
  · exact hinv.sorted
  · intro call
    exact (hinv.knows call).keep hnow

theorem Invariant.move (hinv : Invariant P bound start h) {call : κ} {phase : Phase σ τ ρ ε}
    (hphase : Knows P bound start h call phase) :
    Invariant P bound start ⟨h.world.move call phase, h.commits⟩ := by
  constructor
  · exact hinv.serial
  · exact hinv.bounded
  · exact hinv.latest
  · exact hinv.clocks
  · exact hinv.sorted
  · intro other
    by_cases hother : other = call
    · subst hother
      rw [World.move_phase_self]
      exact hphase.keep le_rfl
    · rw [World.move_phase_of_ne _ _ hother]
      exact (hinv.knows other).keep le_rfl

/-- The write of a call whose condition holds: the value read is still the stored
one, so the commit applies to its immediate predecessor. -/
theorem Invariant.commit (hlawful : P.Lawful bound) (hinv : Invariant P bound start h)
    {call : κ} {left : ℕ} {before document : σ} {now : τ} {result : ρ}
    (hphase : h.world.phase call = .writing left before document now result)
    (hholds : P.holds h.world.document before = true) {answer : Except ε ρ}
    (hanswer : answer = .ok result ∨ ∃ error, answer = .error error) :
    Invariant P bound start
      ⟨{ h.world with document := document }.move call (.returned answer),
        h.commits ++ [⟨call, now, result, document⟩]⟩ := by
  have hknows := hinv.knows call
  rw [hphase] at hknows
  obtain ⟨hnone, d, hd, hbefore, hbound, hdocument, hresult, hnow, hlater⟩ := hknows
  have hlast := hinv.bounded _ hinv.serial.last_mem
  have hsame : P.revision h.world.document = P.revision d := by
    rw [Client.holds, decide_eq_true_eq, hbefore, hlawful.decode] at hholds
    exact hlawful.wire _ hlast _ (hinv.bounded d hd) hholds
  have hcurrent : d = h.world.document := by
    rcases hinv.latest d hd with heq | hlt
    · exact heq
    · omega
  subst hcurrent
  have hnext : P.revision document = P.revision h.world.document + 1 := by
    rw [hdocument, hlawful.stamp]
  have hfresh : ∀ d ∈ states start h.commits, P.revision d < P.revision document := by
    intro d' hd'
    rcases hinv.latest d' hd' with heq | hlt
    · rw [heq]
      omega
    · omega
  have hbehind : ∀ c ∈ h.commits, c.now ≤ now := by
    intro c hc
    have hmem : c.document ∈ states start h.commits :=
      List.mem_cons_of_mem _ (List.mem_map_of_mem hc)
    have := hfresh _ hmem
    exact hlater c hc (by omega)
  constructor
  · apply Client.Serial.snoc (c := ⟨call, now, result, document⟩) hinv.serial
    constructor
    · rw [← hbefore]
      exact hdocument
    · rw [← hbefore]
      exact hresult
  · intro d' hd'
    rcases mem_states_snoc.mp hd' with hold | hnew
    · exact hinv.bounded d' hold
    · rwa [hnew]
  · intro d' hd'
    rcases mem_states_snoc.mp hd' with hold | hnew
    · exact .inr (hfresh d' hold)
    · exact .inl hnew
  · intro c hc
    rcases List.mem_append.mp hc with hold | hnew
    · exact hinv.clocks c hold
    · rw [List.mem_singleton.mp hnew]
      exact hnow
  · rw [List.map_append, List.pairwise_append]
    refine ⟨hinv.sorted, List.pairwise_singleton _ _, ?_⟩
    intro earlier hearlier later hlater'
    obtain ⟨c, hc, rfl⟩ := List.mem_map.mp hearlier
    rw [List.mem_singleton.mp hlater']
    exact hbehind c hc
  · intro other
    by_cases hother : other = call
    · subst hother
      rw [World.move_phase_self]
      have hmine : commitsOf (h.commits ++ [⟨other, now, result, document⟩]) other =
          [⟨other, now, result, document⟩] := by
        rw [commitsOf_append, hnone, List.nil_append]
        exact commitsOf_self (⟨other, now, result, document⟩ : Commit σ τ ρ κ)
      rcases hanswer with hok | ⟨error, herror⟩
      · subst hok
        left
        exact ⟨_, hmine, rfl⟩
      · subst herror
        show (commitsOf _ other).length ≤ 1
        rw [hmine]
        exact le_rfl
    · rw [World.move_phase_of_ne _ _ hother]
      exact (hinv.knows other).commit le_rfl hother hfresh

theorem Knows.retry {call : κ} (hnone : commitsOf h.commits call = []) (left : ℕ) :
    Knows P bound start h call (P.retry left) := by
  cases left with
  | zero =>
    show (commitsOf h.commits call).length ≤ 1
    rw [hnone]
    exact Nat.zero_le 1
  | succ left => exact hnone

/-- A call may give up in any phase but the ones that already hold its fate. -/
theorem Knows.failed {call : κ} (hnone : commitsOf h.commits call = []) (error : ε) :
    Knows P bound start h call (.returned (.error error)) := by
  show (commitsOf h.commits call).length ≤ 1
  rw [hnone]
  exact Nat.zero_le 1

variable [DecidableEq σ]

/-- The clock is read after the value, so it is past every commit up to that value. -/
theorem Knows.compute (hlawful : P.Lawful bound) (hinv : Invariant P bound start h) {call : κ}
    {left : ℕ} {before : σ} (hknows : Knows P bound start h call (.timing left before)) :
    Knows P bound start h call (P.compute call left before h.world.clock) := by
  obtain ⟨hnone, d, hd, hbefore⟩ := hknows
  have hrevision : P.revision before = P.revision d := by rw [hbefore, hlawful.decode]
  unfold Client.compute
  dsimp only
  split_ifs with hnoop
  · right
    refine ⟨hnone, d, hd, h.world.clock, ?_⟩
    rw [← hbefore]
    exact Prod.ext hnoop rfl
  · split
    · exact Knows.failed hnone _
    · rename_i hfits
      rw [hlawful.next _ (by rw [hrevision]; exact hinv.bounded d hd), hrevision] at hfits ⊢
      exact ⟨hnone, d, hd, hbefore, hlawful.refusal _ hfits, rfl, rfl, le_rfl,
        fun c hc _ => hinv.clocks c hc⟩

omit [DecidableEq σ] in
theorem Knows.unwritten {call : κ} {left : ℕ} {before document : σ} {now : τ} {result : ρ}
    (hknows : Knows P bound start h call (.writing left before document now result)) :
    commitsOf h.commits call = [] := hknows.1

theorem Invariant.record (hlawful : P.Lawful bound) (hinv : Invariant P bound start h)
    {e : Event τ ε κ} (hclock : h.ClockAdvances e) :
    Invariant P bound start (P.record h e) := by
  unfold Client.record
  cases e with
  | tick now => simpa [Client.committed, Client.step] using hinv.tick hclock
  | start call =>
    have hknows := hinv.knows call
    simp only [Client.committed, Option.toList_none, List.append_nil, Client.step]
    split
    · rename_i hphase
      rw [hphase] at hknows
      exact hinv.move (Knows.retry hknows _)
    · exact hinv
  | read call =>
    have hknows := hinv.knows call
    simp only [Client.committed, Option.toList_none, List.append_nil, Client.step]
    split
    · rename_i left hphase
      rw [hphase] at hknows
      exact hinv.move ⟨hknows, _, hinv.serial.last_mem, rfl⟩
    · exact hinv
  | time call =>
    have hknows := hinv.knows call
    simp only [Client.committed, Option.toList_none, List.append_nil, Client.step]
    split
    · rename_i left before hphase
      rw [hphase] at hknows
      exact hinv.move (Knows.compute hlawful hinv hknows)
    · exact hinv
  | write call =>
    cases hphase : h.world.phase call with
    | writing left before document now result =>
      have hknows := hinv.knows call
      rw [hphase] at hknows
      simp only [Client.committed, Client.step, Client.written, hphase]
      split_ifs with hholds
      · exact hinv.commit hlawful hphase hholds (.inl rfl)
      · simpa using hinv.move (Knows.retry hknows.unwritten left)
    | _ => simpa [Client.committed, Client.step, Client.written, hphase] using hinv
  | lose call error =>
    cases hphase : h.world.phase call with
    | writing left before document now result =>
      have hknows := hinv.knows call
      rw [hphase] at hknows
      simp only [Client.committed, Client.step, Client.written, hphase]
      split_ifs with hholds
      · exact hinv.commit hlawful hphase hholds (.inr ⟨error, rfl⟩)
      · simpa using hinv.move (Knows.failed hknows.unwritten error)
    | _ => simpa [Client.committed, Client.step, Client.written, hphase] using hinv
  | fail call error =>
    have hknows := hinv.knows call
    cases hphase : h.world.phase call with
    | idle => simpa [Client.committed, Client.step, hphase] using hinv
    | returned answer => simpa [Client.committed, Client.step, hphase] using hinv
    | reading left =>
      rw [hphase] at hknows
      simpa [Client.committed, Client.step, hphase] using hinv.move (Knows.failed hknows error)
    | timing left before =>
      rw [hphase] at hknows
      simpa [Client.committed, Client.step, hphase] using hinv.move (Knows.failed hknows.1 error)
    | writing left before document now result =>
      rw [hphase] at hknows
      simpa [Client.committed, Client.step, hphase] using
        hinv.move (Knows.failed hknows.unwritten error)

theorem Invariant.run (hlawful : P.Lawful bound) (hinv : Invariant P bound start h)
    {events : List (Event τ ε κ)} (hrun : P.IsRun h events) :
    Invariant P bound start (P.run h events) :=
  Guarded.invariant (fun _ _ hinv hclock => hinv.record hlawful hclock) hinv hrun

/-- Any interleaving serializes the commits, with clocks in order, and accounts
for every answer. -/
theorem Client.run_linearizes (hlawful : P.Lawful bound) (hstart : P.revision start < bound)
    {now : τ} {events : List (Event τ ε κ)}
    (hrun : P.IsRun (History.beginning start now) events) :
    let h := P.run (History.beginning start now) events
    P.Serial start h.commits h.world.document ∧
      (h.commits.map Commit.now).Pairwise (· ≤ ·) ∧
      ∀ call result, h.world.phase call = .returned (.ok result) →
        P.Answers start h.commits call result := by
  have hinv := (Invariant.beginning (P := P) hstart now).run hlawful hrun
  refine ⟨hinv.serial, hinv.sorted, ?_⟩
  intro call result hphase
  have hknows := hinv.knows call
  rw [hphase] at hknows
  exact hknows

end Invariant

end TinySweeper.CompareAndSwap
