import TinySweeper.Threads.Plan

/-!
# What a run may close

A planned thread is our own open one whose code moved and whose title a lane
reports fixed. The report names a title only: nothing in the plan looks at what the
lanes raise, or at where two threads of one title stand.
-/

namespace TinySweeper.Threads

open Text Findings App

section Executes

variable (config : Config) (headSha : Text)

/-- What executing a plan may do: its calls and its report. -/
inductive Executes : List PlannedResolve → List Call → ApplyReport → Prop
  | done : Executes [] [] ⟨0, 0, 0⟩
  | denied {entry : PlannedResolve} {rest : List PlannedResolve} {err : Text}
    (hdenied : isPermissionDenied err = true) :
    Executes (entry :: rest) [(.resolve entry.id, .error err)] ⟨0, 1, rest.length⟩
  | failed {entry : PlannedResolve} {rest : List PlannedResolve} {err : Text}
    {calls : List Call} {report : ApplyReport} (hdenied : isPermissionDenied err = false)
    (hrest : Executes rest calls report) :
    Executes (entry :: rest) ((.resolve entry.id, .error err) :: calls)
      { report with failed := report.failed + 1 }
  | silent {entry : PlannedResolve} {rest : List PlannedResolve} {calls : List Call}
    {report : ApplyReport} (hrest : Executes rest calls report) :
    Executes (entry :: rest) ((.resolve entry.id, .ok ()) :: calls)
      { report with resolved := report.resolved + 1 }
  | explained {entry : PlannedResolve} {rest : List PlannedResolve} {calls : List Call}
    {report : ApplyReport} {answered : Except Text Unit} (hnoted : entry.noted = false)
    (hrest : Executes rest calls report) :
    Executes (entry :: rest) ((.resolve entry.id, .ok ()) ::
        (.reply entry.id (resolutionNote entry.reason headSha), answered) :: calls)
      { report with resolved := report.resolved + 1 }

variable (answer : List Call → Write → Except Text Unit)

theorem applyFrom_executes (entries : List PlannedResolve) (done : Applied)
    (hskipped : done.report.skipped = 0) : ∃ calls report, Executes headSha entries calls report ∧
      applyFrom answer config headSha done entries =
        ⟨⟨done.report.resolved + report.resolved, done.report.failed + report.failed,
          report.skipped⟩, done.calls ++ calls⟩ := by
  induction entries generalizing done with
  | nil =>
    refine ⟨[], ⟨0, 0, 0⟩, .done, ?_⟩
    obtain ⟨⟨resolved, failed, skipped⟩, calls⟩ := done
    cases hskipped
    simp [applyFrom]
  | cons entry rest ih =>
    unfold applyFrom
    dsimp only
    split
    case h_1 err herr =>
      split
      case isTrue hdenied =>
        refine ⟨_, _, .denied hdenied, ?_⟩
        simp [Applied.call, herr]
      case isFalse hdenied =>
        obtain ⟨calls, report, hexecutes, hrun⟩ := ih
          { done.call answer (.resolve entry.id) with
            report.failed := done.report.failed + 1 } hskipped
        refine ⟨_, _, .failed (by simpa using hdenied) hexecutes, hrun.trans ?_⟩
        simp only [Applied.call, herr, List.append_assoc, List.singleton_append]
        congr 2
        omega
    case h_2 hok =>
      split
      case isTrue hexplain =>
        rw [Bool.and_eq_true] at hexplain
        obtain ⟨calls, report, hexecutes, hrun⟩ := ih
          (Applied.call answer { done.call answer (.resolve entry.id) with
            report.resolved := done.report.resolved + 1 }
            (.reply entry.id (resolutionNote entry.reason headSha))) hskipped
        have hnoted : entry.noted = false := by simpa using hexplain.2
        refine ⟨_, _, @Executes.explained headSha entry rest calls report
          (answer (done.calls ++ [(.resolve entry.id, .ok ())])
            (.reply entry.id (resolutionNote entry.reason headSha))) hnoted hexecutes,
          hrun.trans ?_⟩
        simp only [Applied.call, hok, List.append_assoc, List.singleton_append]
        congr 2
        omega
      case isFalse =>
        obtain ⟨calls, report, hexecutes, hrun⟩ := ih
          { done.call answer (.resolve entry.id) with
            report.resolved := done.report.resolved + 1 } hskipped
        refine ⟨_, _, .silent hexecutes, hrun.trans ?_⟩
        simp only [Applied.call, hok, List.append_assoc, List.singleton_append]
        congr 2
        omega

theorem applyPlan_executes (plan : List PlannedResolve) :
    Executes headSha plan (applyPlan answer config headSha plan).calls
      (applyPlan answer config headSha plan).report := by
  obtain ⟨calls, report, hexecutes, hrun⟩ :=
    applyFrom_executes config headSha answer plan ⟨⟨0, 0, 0⟩, []⟩ rfl
  have hreport : (applyPlan answer config headSha plan).report = report := by
    rw [applyPlan, hrun]
    simp
  have hcalls : (applyPlan answer config headSha plan).calls = calls := by
    rw [applyPlan, hrun]
    rfl
  rw [hreport, hcalls]
  exact hexecutes

end Executes

def Call.resolveId : Call → Option Text
  | (.resolve id, _) => some id
  | (.reply _ _, _) => none

/-- How an executed plan behaves. A permission refusal is that of a resolve: a reply the forge
refuses loses only the note. -/
structure Orderly (plan : List PlannedResolve) (calls : List Call) (report : ApplyReport) :
    Prop where
  once : calls.filterMap Call.resolveId <+: plan.map PlannedResolve.id
  explained : ∀ before id note answered after,
    calls = before ++ (.reply id note, answered) :: after →
      before.getLast? = some (.resolve id, .ok ()) ∧
        ∃ entry ∈ plan, entry.id = id ∧ entry.noted = false
  denied : ∀ before id err after, calls = before ++ (.resolve id, .error err) :: after →
    isPermissionDenied err = true → after = []
  total : report.resolved + report.failed + report.skipped = plan.length

theorem Orderly.cons {entry : PlannedResolve} {rest : List PlannedResolve} {calls : List Call}
    {report report' : ApplyReport} {answered : Except Text Unit} (h : Orderly rest calls report)
    (hkept : ∀ err, answered = .error err → isPermissionDenied err = false)
    (hreport : report'.resolved + report'.failed + report'.skipped =
      report.resolved + report.failed + report.skipped + 1) :
    Orderly (entry :: rest) ((.resolve entry.id, answered) :: calls) report' where
  once := List.prefix_cons_inj _ |>.mpr h.once
  explained before id note answered' after heq := by
    cases before with
    | nil => exact absurd (congrArg Prod.fst (List.cons.inj heq).1) (by simp)
    | cons first before =>
      obtain ⟨rfl, hcalls⟩ := List.cons.inj heq
      obtain ⟨hlast, other, hother, hid, hnoted⟩ := h.explained before id note _ after hcalls
      cases before with
      | nil => exact absurd hlast (by simp)
      | cons => exact ⟨hlast, other, List.mem_cons_of_mem _ hother, hid, hnoted⟩
  denied before id err after heq hdenied := by
    cases before with
    | nil =>
      obtain ⟨hcall, rfl⟩ := List.cons.inj heq
      have hanswered := (Prod.mk.inj hcall).2
      rw [hkept err hanswered] at hdenied
      exact absurd hdenied Bool.false_ne_true
    | cons first before =>
      exact h.denied before id err after (List.cons.inj heq).2 hdenied
  total := by rw [hreport, h.total, List.length_cons]

/-- Every execution of a plan is orderly. -/
theorem Executes.orderly {headSha : Text} {plan : List PlannedResolve} {calls : List Call}
    {report : ApplyReport} (h : Executes headSha plan calls report) :
    Orderly plan calls report := by
  induction h with
  | done =>
    refine ⟨List.nil_prefix, fun before id note answered after heq => ?_,
      fun before id err after heq => ?_, rfl⟩
    · exact absurd heq (by simp)
    · exact absurd heq (by simp)
  | @denied entry rest err hdenied =>
    refine ⟨by simp [Call.resolveId], fun before id note answered after heq => ?_,
      fun before id err after heq _ => ?_, by simp; omega⟩
    · cases before with
      | nil => exact absurd (congrArg Prod.fst (List.cons.inj heq).1) (by simp)
      | cons first before => exact absurd (List.cons.inj heq).2 (by simp)
    · cases before with
      | nil => exact (List.cons.inj heq).2.symm
      | cons first before => exact absurd (List.cons.inj heq).2 (by simp)
  | failed hdenied hrest ih =>
    refine ih.cons (fun err herr => ?_) ?_
    · cases herr
      exact hdenied
    · dsimp only
      omega
  | silent hrest ih => exact ih.cons (fun err herr => nomatch herr) (by dsimp only; omega)
  | @explained entry rest calls report answered hnoted hrest ih =>
    have hresolved : Orderly (entry :: rest) ((.resolve entry.id, .ok ()) :: calls)
        { report with resolved := report.resolved + 1 } :=
      ih.cons (fun err herr => nomatch herr) (by dsimp only; omega)
    refine ⟨hresolved.once, fun before id note answered' after heq => ?_,
      fun before id err after heq hdenied => ?_, hresolved.total⟩
    · cases before with
      | nil => exact absurd (congrArg Prod.fst (List.cons.inj heq).1) (by simp)
      | cons first before =>
        obtain ⟨rfl, htail⟩ := List.cons.inj heq
        cases before with
        | nil =>
          obtain ⟨hcall, -⟩ := List.cons.inj htail
          obtain ⟨rfl, -⟩ := Write.reply.inj (Prod.mk.inj hcall).1
          exact ⟨rfl, entry, List.mem_cons_self, rfl, hnoted⟩
        | cons second before =>
          obtain ⟨-, hcalls⟩ := List.cons.inj htail
          obtain ⟨hlast, other, hother, hid, hfresh⟩ :=
            ih.explained before id note answered' after hcalls
          refine ⟨?_, other, List.mem_cons_of_mem _ hother, hid, hfresh⟩
          cases before with
          | nil => exact absurd hlast (by simp)
          | cons => exact hlast
    · cases before with
      | nil => exact absurd (Prod.mk.inj (List.cons.inj heq).1).2 (by simp)
      | cons first before =>
        obtain ⟨-, htail⟩ := List.cons.inj heq
        cases before with
        | nil => exact absurd (congrArg Prod.fst (List.cons.inj htail).1) (by simp)
        | cons second before =>
          exact ih.denied before id err after (List.cons.inj htail).2 hdenied

def ReviewThread.title (thread : ReviewThread) : Option Text :=
  thread.comments.head?.bind fun opener => titleIn opener.body

/-- The identities its opening comment publishes. -/
def ReviewThread.fingerprints (thread : ReviewThread) : List Text :=
  (thread.comments.head?.map fun opener => fingerprintsIn opener.body).getD []

/-- Our own open thread whose code moved. -/
def Closable (expected : Text) (thread : ReviewThread) : Prop :=
  (∃ opener, thread.comments.head? = some opener ∧ isOwnLogin expected opener.author = true) ∧
    thread.isResolved = false ∧ thread.isOutdated = true

section Planned

variable {κ : Type} {expected : Text} {config : Config}
variable {model : Option (ReviewThread → Advice)} {threads : List ReviewThread}
variable {lanes : List (LaneProposal κ)} {resolved : List Text}

/-- A thread is resolved for one reason only. -/
theorem of_decide_eq_resolve {thread : ReviewThread} {reason : Text}
    (h : decide expected thread resolved = .resolve reason) :
    reason = FIXED_REASON ∧ Closable expected thread ∧
      ∃ title, thread.title = some title ∧ title ∈ resolved := by
  unfold decide at h
  split at h
  case isTrue => exact nomatch h
  case isFalse hopen =>
    split at h
    case h_1 => exact nomatch h
    case h_2 opener hhead =>
      split at h
      case isTrue => exact nomatch h
      case isFalse hown =>
        split at h
        case h_1 => exact nomatch h
        case h_2 title htitle =>
          split at h
          case h_1 hout hmem =>
            refine ⟨(Decision.resolve.inj h).symm, ⟨⟨opener, hhead, by simpa using hown⟩,
              by simpa using hopen, hout⟩, title, ?_, by simpa using hmem⟩
            rw [ReviewThread.title, hhead]
            exact htitle
          case h_2 => exact nomatch h
          case h_3 => split at h <;> exact nomatch h

theorem decide_eq_resolve_iff (thread : ReviewThread) :
    decide expected thread resolved = .resolve FIXED_REASON ↔
      Closable expected thread ∧ ∃ title, thread.title = some title ∧ title ∈ resolved := by
  constructor
  · exact fun h => (of_decide_eq_resolve h).2
  · rintro ⟨⟨⟨opener, hhead, hown⟩, hopen, hout⟩, title, htitle, hmem⟩
    rw [ReviewThread.title, hhead, Option.bind_some] at htitle
    have hcontains : resolved.contains title = true := by simpa using hmem
    simp only [decide, hopen, hhead, hown, htitle, hout, hcontains, Bool.not_true,
      Bool.false_eq_true, if_false]

/-- The threads a plan without advice closes. -/
def closed (expected : Text) (config : Config) (threads : List ReviewThread)
    (resolved : List Text) : List ReviewThread :=
  if config.resolveFixed then
    threads.filter fun thread =>
      Decidable.decide (decide expected thread resolved = .resolve FIXED_REASON)
  else []

def entryOf (expected : Text) (thread : ReviewThread) : PlannedResolve :=
  ⟨thread.id, FIXED_REASON, noted expected thread⟩

theorem planOne_eq (hask : config.askModel = false) (s : List PlannedResolve × Bool)
    (thread : ReviewThread) : planOne expected config model resolved s thread =
      .ok (s.1 ++ if decide expected thread resolved = .resolve FIXED_REASON then
        [entryOf expected thread] else [], s.2) := by
  unfold planOne
  split
  case h_1 reason hreason =>
    obtain ⟨rfl, -⟩ := of_decide_eq_resolve hreason
    rw [if_pos hreason]
    rfl
  case h_2 reason hleave =>
    rw [hleave, if_neg fun h => nomatch h]
    simp
  case h_3 hadvice =>
    rw [hadvice, if_neg (fun h => nomatch h), hask]
    split
    case h_1 h => exact absurd h (by simp)
    case h_2 => simp

theorem plan_eq (hask : config.askModel = false) (threads : List ReviewThread) :
    plan expected config model (.ok threads) resolved =
      .ok ((closed expected config threads resolved).map (entryOf expected)) := by
  have hrun : ∀ s : List PlannedResolve × Bool,
      threads.foldlM (planOne expected config model resolved) s =
        .ok (s.1 ++ (threads.filter fun thread => Decidable.decide
          (decide expected thread resolved = .resolve FIXED_REASON)).map (entryOf expected),
          s.2) := by
    induction threads with
    | nil =>
      intro s
      simp only [List.foldlM_nil, List.filter_nil, List.map_nil, List.append_nil]
      rfl
    | cons thread rest ih =>
      intro s
      rw [List.foldlM_cons, planOne_eq hask]
      refine (ih _).trans ?_
      by_cases hresolve : decide expected thread resolved = .resolve FIXED_REASON <;>
        simp [hresolve]
  unfold plan closed
  cases config.resolveFixed with
  | false => rfl
  | true =>
    simp only [Bool.not_true, Bool.false_eq_true, if_false, if_true]
    exact congrArg (fun s : Except Text (List PlannedResolve × Bool) =>
      s.map Prod.fst) (hrun ([], false))

theorem mem_closed_iff {thread : ReviewThread} :
    thread ∈ closed expected config threads resolved ↔
      config.resolveFixed = true ∧ thread ∈ threads ∧ Closable expected thread ∧
        ∃ title, thread.title = some title ∧ title ∈ resolved := by
  unfold closed
  cases config.resolveFixed with
  | false => simp
  | true =>
    rw [if_pos rfl, List.mem_filter, decide_eq_true_iff, decide_eq_resolve_iff]
    simp

theorem closed_sublist : (closed expected config threads resolved).Sublist threads := by
  unfold closed
  split
  · exact List.filter_sublist
  · exact List.nil_sublist threads

end Planned

section Claims

variable {κ : Type} (sha256 : Text → List UInt8) (expected : Text) (config : Config)
variable (model : Option (ReviewThread → Advice)) (threads : List ReviewThread)
variable (lanes : List (LaneProposal κ))

/-- What the final lanes raise, within the comment budget and over it. -/
def raised : List (Finding κ) := lanes.flatMap fun lane => lane.findings ++ lane.overflow

/-- The finding is none of those a thread is about. -/
def Unrelated (thread : ReviewThread) (f : Finding κ) : Prop :=
  thread.title ≠ some f.title ∧
    ∀ identity ∈ thread.fingerprints, identity ≠ f.known sha256 ∧ identity ∉ f.aliases

def fingerprint (thread : ReviewThread) : Option Text :=
  thread.comments.head?.bind fun opener => fingerprintIn opener.body

/-- Two threads of one title on different code. -/
def Confusable (thread other : ReviewThread) (title : Text) : Prop :=
  thread.title = some title ∧ other.title = some title ∧ fingerprint thread ≠ fingerprint other

/-- A conversation is closed only when its own finding is gone. -/
structure ClosesOnlyFixed : Prop where
  planned : plan expected config model (.ok threads) (resolvedTitles lanes) =
    .ok ((closed expected config threads (resolvedTitles lanes)).map (entryOf expected))
  evidence : ∀ thread ∈ closed expected config threads (resolvedTitles lanes),
    Closable expected thread ∧
      ∃ title, thread.title = some title ∧ ∃ lane ∈ lanes, title ∈ lane.resolved
  gone : ∀ thread ∈ closed expected config threads (resolvedTitles lanes),
    ∀ f ∈ raised lanes, Unrelated sha256 thread f
  apart : (closed expected config threads (resolvedTitles lanes)).Pairwise fun thread other =>
    ∀ title, Confusable thread other title → (resolvedTitles lanes).count title ≠ 1
  executed : ∀ answer headSha,
    let entries := (closed expected config threads (resolvedTitles lanes)).map (entryOf expected)
    let done := applyPlan answer config headSha entries
    Orderly entries done.calls done.report ∧
      ((threads.map ReviewThread.id).Nodup → (done.calls.filterMap Call.resolveId).Nodup)
  unexplained : ∀ entry ∈ (closed expected config threads (resolvedTitles lanes)).map
    (entryOf expected), entry.noted = false → ∃ thread ∈ threads, thread.id = entry.id ∧
      ∀ comment ∈ thread.comments, isOwnResolutionNote expected comment = false

/-- The titles reported fixed tell the threads apart: none is raised again about one of our open
threads whose code moved, and none reported once is the title of two of them on different code. -/
structure TellsApart : Prop where
  gone : ∀ thread ∈ threads, Closable expected thread →
    (∃ title, thread.title = some title ∧ title ∈ resolvedTitles lanes) →
      ∀ f ∈ raised lanes, Unrelated sha256 thread f
  apart : threads.Pairwise fun thread other => Closable expected thread →
    Closable expected other → ∀ title, Confusable thread other title →
      (resolvedTitles lanes).count title ≠ 1

variable {config}

theorem plan_closesOnlyFixed_iff (hask : config.askModel = false) :
    ClosesOnlyFixed sha256 expected config model threads lanes ↔
      (config.resolveFixed = true → TellsApart sha256 expected threads lanes) := by
  constructor
  · intro h hresolve
    have hclosed : ∀ {thread}, thread ∈ threads → Closable expected thread →
        (∃ title, thread.title = some title ∧ title ∈ resolvedTitles lanes) →
          thread ∈ closed expected config threads (resolvedTitles lanes) :=
      fun hmem hclosable htitle => mem_closed_iff.mpr ⟨hresolve, hmem, hclosable, htitle⟩
    refine ⟨fun thread hmem hclosable htitle => h.gone thread (hclosed hmem hclosable htitle), ?_⟩
    have hapart := h.apart
    rw [closed, if_pos hresolve, List.pairwise_filter] at hapart
    refine hapart.imp fun {thread other} hpair hthread hother title hconfusable => ?_
    by_cases hreported : title ∈ resolvedTitles lanes
    · refine hpair ?_ ?_ title hconfusable
      · exact decide_eq_true ((decide_eq_resolve_iff _).mpr
          ⟨hthread, title, hconfusable.1, hreported⟩)
      · exact decide_eq_true ((decide_eq_resolve_iff _).mpr
          ⟨hother, title, hconfusable.2.1, hreported⟩)
    · rw [List.count_eq_zero_of_not_mem hreported]
      exact Nat.zero_ne_one
  · intro h
    have hsublist : (closed expected config threads (resolvedTitles lanes)).Sublist threads :=
      closed_sublist
    refine ⟨plan_eq hask threads, fun thread hthread => ?_, fun thread hthread => ?_, ?_,
      fun answer headSha => ?_, fun entry hentry hnoted => ?_⟩
    · obtain ⟨-, -, hclosable, title, htitle, hreported⟩ := mem_closed_iff.mp hthread
      exact ⟨hclosable, title, htitle, List.mem_flatMap.mp hreported⟩
    · obtain ⟨hresolve, hmem, hclosable, htitle⟩ := mem_closed_iff.mp hthread
      exact (h hresolve).gone thread hmem hclosable htitle
    · by_cases hresolve : config.resolveFixed = true
      · refine ((h hresolve).apart.sublist hsublist).imp_of_mem fun hthread hother hpair => ?_
        exact hpair (mem_closed_iff.mp hthread).2.2.1 (mem_closed_iff.mp hother).2.2.1
      · rw [closed, if_neg hresolve]
        exact List.Pairwise.nil
    · have horderly := (applyPlan_executes config headSha answer
        ((closed expected config threads (resolvedTitles lanes)).map (entryOf expected))).orderly
      refine ⟨horderly, fun hids => (List.IsPrefix.sublist horderly.once).nodup ?_⟩
      rw [List.map_map]
      exact hids.sublist (hsublist.map _)
    · obtain ⟨thread, hthread, rfl⟩ := List.mem_map.mp hentry
      refine ⟨thread, hsublist.subset hthread, rfl, fun comment hcomment => ?_⟩
      have hany : (thread.comments.any (isOwnResolutionNote expected)) = false := hnoted
      simpa using List.any_eq_false.mp hany comment hcomment

end Claims

def guardFinding : Finding ℕ where
  lane := .security
  severity := .high
  confidence := 90
  path := "src/lib.rs".toList
  line := some 40
  endLine := none
  rule := "bounds".toList
  title := "Guard the index".toList
  body := "`items[i]` is not checked.".toList
  suggestion := none
  applicable := none
  late := false
  identity := some "0123456789abcdef".toList
  aliases := []
  grouped := false
  reviewPass := 1
  corroboration := 1

/-- Another concern on other code. -/
def loopFinding : Finding ℕ :=
  { guardFinding with
    title := "Bound the loop".toList
    identity := some "fedcba9876543210".toList }

/-- A lane that raises these findings and reports these titles fixed. -/
def laneReport (lane : LaneId) (findings : List (Finding ℕ)) (resolved : List Text) :
    LaneProposal ℕ where
  lane := lane
  checkName := lane.checkName
  conclusion := .neutral
  summary := []
  completed := true
  findings := findings
  blockingFindings := none
  noted := []
  contextDegraded := false
  resolved := resolved
  pending := []
  skipped := none
  deduped := 0
  highestSeverity := none
  unanswered := []
  omissions := []
  coverage := none
  overflow := []

/-- Our thread with this title, its code moved. -/
def guardThread (title : String) : ReviewThread where
  id := "PRRT_1".toList
  isResolved := false
  isOutdated := true
  comments := [⟨"tinysweeper[bot]".toList,
    "**".toList ++ title.toList ++ "**\n\n<!-- tinysweeper:fp=0123456789abcdef -->".toList, true⟩]

def deterministic : Config := ⟨true, false, true⟩

/-- One lane reports the title fixed while another raises it. -/
theorem plan_closes_raised : ¬ ∀ (sha256 : Text → List UInt8) (expected : Text)
    (config : Config) (model : Option (ReviewThread → Advice)) (threads : List ReviewThread)
    (lanes : List (LaneProposal ℕ)), config.askModel = false →
    ClosesOnlyFixed sha256 expected config model threads lanes := by
  intro hall
  have h := hall (fun _ => []) "tinysweeper".toList deterministic none
    [guardThread "Guard the index"]
    [laneReport .critique [] ["Guard the index".toList], laneReport .security [guardFinding] []]
    rfl
  have hclosed : guardThread "Guard the index" ∈ closed "tinysweeper".toList deterministic
      [guardThread "Guard the index"] (resolvedTitles
        [laneReport .critique [] ["Guard the index".toList],
          laneReport .security [guardFinding] []]) := by decide +kernel
  exact absurd (h.gone _ hclosed guardFinding (by decide +kernel)).1 (by decide +kernel)

/-- A thread whose finding is reported fixed while another finding is raised. -/
theorem plan_closes_fixed : ClosesOnlyFixed (fun _ => []) "tinysweeper".toList deterministic none
    [guardThread "Close the file"]
    [laneReport .critique [] ["Close the file".toList],
      laneReport .security [loopFinding] []] := by
  refine (plan_closesOnlyFixed_iff _ _ _ _ _ rfl).mpr fun _ => ⟨?_, ?_⟩
  · intro thread hthread _ _ f hf
    obtain rfl := List.mem_singleton.mp hthread
    obtain rfl : f = loopFinding := by
      simpa [raised, laneReport] using hf
    unfold Unrelated
    decide +kernel
  · exact List.pairwise_singleton _ _

end TinySweeper.Threads
