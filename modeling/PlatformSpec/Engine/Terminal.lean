import PlatformSpec.Engine.System

/-!
# Failures and the terminal event

A failure that is neither retried nor handled ends the run: it is recorded as the error and
completes the execution. The terminal event is chosen later, after the pause and abort flags
have been looked at, and whatever the dispatcher still does may overwrite the error.
-/

namespace PlatformSpec.Engine

open Base PlatformSpec.Runtime Workflow Response

namespace EngineState

variable (g : Graph)

/-- Skip propagation from the unselected edges of a node comes to an end. -/
def SkipReturns (x : EngineState) (nodeId : NodeId) (handle : String) : Prop :=
  (skipBranchPaths g (categorizeBranchEdges g nodeId handle).2 x.tracking).2 = none

/-- A failure without a retry left and without an error strategy. -/
def Fatal (x : EngineState) (nodeId : NodeId) : Prop :=
  ¬ x.RetryLeft g nodeId ∧ errorStrategy g nodeId = none

/-- Events whose handler neither raises nor ends the run. -/
def Harmless (x : EngineState) : NodeEvent → Prop
  | .streamChunk _ chunk => chunk.selector ∉ x.coordinator.closedStreams
  | .succeeded nodeId result => g.executionType nodeId = .branch →
      result.edgeSourceHandle ≠ "" ∧ x.SkipReturns g nodeId result.edgeSourceHandle
  | .pauseRequested _ _ => False
  | .failed nodeId _ _ => (x.RetryLeft g nodeId → ¬ SleepRefused g nodeId) ∧
      (x.RetryLeft g nodeId ∨
        (errorStrategy g nodeId = some .failBranch ∧ x.SkipReturns g nodeId "fail-branch") ∨
        (errorStrategy g nodeId = some .defaultValue ∧ g.executionType nodeId ≠ .branch))
  | _ => True

variable {g} {x : EngineState}

private theorem continueWith_returns {r : Outcome EdgeResult}
    {k : List NodeId → EngineState → Outcome EngineState} (hr : r.2 = none)
    (hk : ∀ ids y, (k ids y).2 = none) : (x.continueWith r k).2 = none := by
  obtain ⟨e, raised⟩ := r
  subst hr
  exact hk _ _

variable {result : NodeRunResult}

/-- A success is handled unless its node is a branch that cannot be completed. -/
theorem handleSucceeded_returns {nodeId : NodeId} (h : g.executionType nodeId = .branch →
      result.edgeSourceHandle ≠ "" ∧ x.SkipReturns g nodeId result.edgeSourceHandle) :
    (x.handleSucceeded g nodeId result).2 = none := by
  unfold handleSucceeded
  refine continueWith_returns ?_ fun _ _ => rfl
  unfold successEdges
  split
  next hb => exact handleBranchCompletion_returns g _ (h hb).1 (h hb).2
  next hb => exact processNodeSuccess_returns g _ fun hbr => absurd hbr hb

theorem handleException_returns {nodeId : NodeId} {error : String}
    (h : (errorStrategy g nodeId = some .failBranch ∧ result.edgeSourceHandle ≠ "" ∧
        x.SkipReturns g nodeId result.edgeSourceHandle) ∨
      (errorStrategy g nodeId = some .defaultValue ∧ g.executionType nodeId ≠ .branch)) :
    (x.handleException g nodeId result error).2 = none := by
  unfold handleException
  refine continueWith_returns ?_ fun _ _ => rfl
  unfold exceptionEdges
  rw [show (g.node? nodeId).bind Node.errorStrategy = errorStrategy g nodeId from rfl]
  rcases h with ⟨hs, hne, hskip⟩ | ⟨hs, hb⟩
  · rw [hs]
    exact handleBranchCompletion_returns g _ hne hskip
  · rw [hs]
    exact processNodeSuccess_returns g _ fun hbr => absurd hbr hb

/-- A harmless event is handled, and of the execution aggregate it changes the node
executions and the failure count only. -/
theorem dispatch_harmless {event : NodeEvent} (h : x.Harmless g event)
    (he : ∀ id r m, event ≠ .exception id r m) :
    (x.dispatch g event).2 = none ∧ ∃ n k, (x.dispatch g event).1.execution =
      { x.execution with nodeExecutions := n, exceptionsCount := k } := by
  cases event with
  | started nodeId id =>
    refine ⟨rfl, ?_⟩
    simp only [dispatch, handleStarted]
    split
    next => exact ⟨_, _, rfl⟩
    next => exact ⟨_, _, rfl⟩
  | streamChunk nodeId chunk =>
    simp only [dispatch, handleStreamChunk]
    split
    next e hc =>
      unfold Coordinator.interceptChunk Coordinator.appendStreamChunk at hc
      rw [if_neg h] at hc
      cases hc
    next => exact ⟨rfl, _, _, rfl⟩
  | succeeded nodeId result =>
    exact ⟨handleSucceeded_returns h, _, _, handleSucceeded_execution g nodeId result x⟩
  | pauseRequested => exact absurd h id
  | failed nodeId result error =>
    simp only [dispatch]
    rcases handleFailed_cases g nodeId result error x with
      ⟨-, -, hf⟩ | ⟨hr, hw, -⟩ | ⟨hr, hs, -⟩ | ⟨strategy, hr, hs, hf⟩
    · rw [hf]
      exact ⟨rfl, _, _, rfl⟩
    · exact absurd hw (h.1 hr)
    · rcases h.2 with h | ⟨h, -⟩ | ⟨h, -⟩
      · exact absurd h hr
      · rw [hs] at h
        cases h
      · rw [hs] at h
        cases h
    · rw [hf]
      refine ⟨handleException_returns ?_, _, _, handleException_execution g nodeId _ _ error⟩
      rcases h.2 with h | ⟨h, hskip⟩ | ⟨h, hb⟩
      · exact absurd h hr
      · rw [hs] at h
        cases h
        exact .inl ⟨hs, by simp [strategyResult], hskip⟩
      · rw [hs] at h
        cases h
        exact .inr ⟨hs, hb⟩
  | exception id r m => exact absurd rfl (he id r m)
  | retry id index error => exact ⟨rfl, _, _, rfl⟩
  | observed id => exact ⟨rfl, _, _, rfl⟩
  | inner c e => exact ⟨rfl, _, _, rfl⟩

end EngineState

/-- Actions after a fatal failure that cannot change what is reported. -/
def HarmlessAction (g : Graph) (s : System) : Action → Prop
  | .take => True
  | .handle event commands => s.engine.Harmless g event ∧ ∀ c ∈ commands, ∀ r, c ≠ .abort r
  | .leave commands => ∀ c ∈ commands, ∀ r, c ≠ .abort r

/-- The run has failed with error `e`, under the given pause and abort flags. -/
structure Failed (e : PyError) (paused aborted : Bool) (x : GraphExecution) : Prop where
  error : x.error = some e
  completed : x.completed = true
  paused : x.paused = paused
  aborted : x.aborted = aborted

namespace Failed

variable {e : PyError} {p b : Bool} {commands : List Command}

private theorem processCommands {x : EngineState} (h : Failed e p b x.execution)
    (hc : ∀ c ∈ commands, ∀ r, c ≠ .abort r) :
    Failed e p b (x.processCommands commands).execution := by
  refine EngineState.processCommands_induction (P := fun y => Failed e p b y.execution)
    (fun y c hin hy => ?_) h
  rcases y.handleCommand_cases c with ⟨reason, message, rfl, -⟩ | ⟨reason, hcompleted, -, -⟩ |
    ⟨pool, heq⟩
  · exact absurd rfl (hc _ hin reason)
  · rw [hy.completed] at hcompleted
    cases hcompleted
  · rw [heq]
    exact hy

private theorem step {g : Graph} {s s' : System} {a : Action} (h : Failed e p b s.engine.execution)
    (ha : HarmlessAction g s a) (hstep : s.step? g a = some s') :
    Failed e p b s'.engine.execution := by
  cases System.step?_move hstep with
  | take => exact h
  | handle event commands polls hadm =>
    obtain ⟨-, hkind⟩ := Bool.and_eq_true_iff.mp hadm
    obtain ⟨hret, n, k, hx⟩ := EngineState.dispatch_harmless ha.1
      (by rintro id r m rfl; cases hkind)
    cases hdisp : s.engine.dispatch g event with
    | mk y raised =>
      rw [hdisp] at hret hx
      subst hret
      have hy : Failed e p b y.execution := by
        rw [hx]
        exact ⟨h.error, h.completed, h.paused, h.aborted⟩
      rw [System.dispatchEvent_returned hdisp]
      simp only []
      split
      next => exact hy.processCommands ha.2
      next => exact hy
  | leaveMain commands => exact h.processCommands ha
  | leaveIdle => exact h
  | finish =>
    unfold System.finishLoop
    rw [EngineState.markComplete_eq]
    exact ⟨h.error, by simp [h.completed], h.paused, h.aborted⟩

private theorem of_fatal {g : Graph} {s s' : System} {nodeId : NodeId} {result : NodeRunResult}
    {error : String} (hf : s.engine.Fatal g nodeId) (hc : ∀ c ∈ commands, ∀ r, c ≠ .abort r)
    (hstep : s.step? g (.handle (.failed nodeId result error) commands) = some s') :
    Failed ⟨.runtimeError, error⟩ s.engine.execution.paused s.engine.execution.aborted
      s'.engine.execution := by
  cases System.step?_move hstep with
  | handle event commands polls hadm =>
    rcases EngineState.handleFailed_cases g nodeId result error s.engine with
      ⟨hr, -⟩ | ⟨hr, -⟩ | ⟨-, -, hd⟩ | ⟨strategy, -, hs, -⟩
    · exact absurd hr hf.1
    · exact absurd hr hf.1
    · have hdisp : s.engine.dispatch g (.failed nodeId result error) = _ := hd
      rw [System.dispatchEvent_returned hdisp]
      simp only []
      split
      next =>
        refine processCommands ?_ hc
        exact ⟨rfl, rfl, rfl, rfl⟩
      next => exact ⟨rfl, rfl, rfl, rfl⟩
    · rw [hf.2] at hs
      cases hs

theorem terminalEvent {x : EngineState} (h : Failed e p b x.execution)
    (he : e.errorClass = .runtimeError) :
    (∃ n, x.terminalEvent = (.failed e.message n, some e)) ↔ p = false ∧ b = false := by
  unfold EngineState.terminalEvent GraphExecution.isPaused
  rw [h.paused, h.aborted, h.error]
  cases p with
  | true =>
    refine iff_of_false ?_ (by simp)
    rintro ⟨n, hn⟩
    rw [if_pos rfl] at hn
    split at hn
    next =>
      have := Option.some.inj (congrArg Prod.snd hn)
      rw [← this] at he
      cases he
    next => cases hn
  | false =>
    cases b with
    | true => simp
    | false => simp

end Failed

/-- A fatal failure of a node decides what the run reports. When every later action is
harmless, the terminal event is a failure with this error, and the error is raised, exactly
if neither a pause nor an abort was in force at the failure. -/
theorem failure_reported_iff {g : Graph} {s₀ m s : System} {pre post : List Action}
    {nodeId : NodeId} {result : NodeRunResult} {error : String} {commands : List Command}
    (hpre : System.runs g s₀ pre = some m) (hfatal : m.engine.Fatal g nodeId)
    (hcommands : ∀ c ∈ commands, ∀ r, c ≠ .abort r)
    (hpost : ∀ mid a rest m', post = mid ++ a :: rest →
      System.runs g s₀ (pre ++ .handle (.failed nodeId result error) commands :: mid) = some m' →
      HarmlessAction g m' a)
    (hrun : System.runs g s₀ (pre ++ .handle (.failed nodeId result error) commands :: post) =
      some s) :
    (∃ n, s.engine.terminalEvent = (.failed error n, some ⟨.runtimeError, error⟩)) ↔
      m.engine.execution.paused = false ∧ m.engine.execution.aborted = false := by
  obtain ⟨m', hm, hrest⟩ := run_append_eq_some.mp hrun
  cases hpre.symm.trans hm
  obtain ⟨m₁, hstep, hpostrun⟩ := run_cons_eq_some.mp hrest
  have hend : Failed ⟨.runtimeError, error⟩ m.engine.execution.paused
      m.engine.execution.aborted s.engine.execution := by
    refine run_induction (HarmlessAction g)
      (P := fun s => Failed ⟨.runtimeError, error⟩ m.engine.execution.paused
        m.engine.execution.aborted s.engine.execution)
      (fun _ _ _ h ha hs => h.step ha hs) (.of_fatal hfatal hcommands hstep) ?_ hpostrun
    intro mid a rest m' he hmid
    refine hpost mid a rest m' he ?_
    exact run_append_eq_some.mpr ⟨m, hpre, run_cons_eq_some.mpr ⟨m₁, hstep, hmid⟩⟩
  exact hend.terminalEvent rfl

/-- Two nodes that run side by side. -/
def sideBySide : Graph where
  nodes := [
    { id := "start", nodeType := "start", executionType := .root },
    { id := "ask", nodeType := "human-input" },
    { id := "task" }]
  edges := [
    { id := "e0", tail := "start", head := "ask" },
    { id := "e1", tail := "start", head := "task" }]
  root := "start"

/-- The moves until both nodes of `sideBySide` run. -/
def sideBySideRunning : List Action :=
  [.take, .handle (.succeeded "start" {}) [], .take, .take]

/-- The failure of a node of `sideBySide`. -/
def taskFailed : Action := .handle (.failed "task" {} "boom") []

theorem failure_reported_sideBySide : ∃ s₀ s : System,
    System.runs sideBySide s₀ (sideBySideRunning ++ taskFailed ::
      [.leave [], .handle (.succeeded "ask" {}) [], .leave []]) = some s ∧
    s.phase = .done ∧
      ∃ n, s.engine.terminalEvent = (.failed "boom" n, some ⟨.runtimeError, "boom"⟩) := by
  obtain ⟨x, -, m, hpre, hflags, s, hpost, hdone⟩ : ∃ x, ((EngineState.initial sideBySide .ascending
      .empty).startExecution sideBySide .ascending).toOption = some x ∧
        ∃ m, System.runs sideBySide (System.start x []) sideBySideRunning = some m ∧
          (m.engine.execution.paused = false ∧ m.engine.execution.aborted = false) ∧
        ∃ s, System.runs sideBySide (System.start x []) (sideBySideRunning ++ taskFailed ::
          [.leave [], .handle (.succeeded "ask" {}) [], .leave []]) = some s ∧ s.phase = .done := by
    decide +kernel
  refine ⟨System.start x [], s, hpost, hdone, ?_⟩
  refine (failure_reported_iff hpre ⟨?_, rfl⟩ (by simp) ?_ hpost).mpr hflags
  · rintro ⟨n, hn, hr, -⟩
    have : n = { id := "task" } := Option.some.inj (hn.symm.trans rfl)
    rw [this] at hr
    cases hr
  · intro mid a rest m' he _
    have ha : a ∈ [Action.leave [], .handle (.succeeded "ask" {}) [], .leave []] := by
      rw [he]
      simp
    simp only [List.mem_cons, List.not_mem_nil, or_false] at ha
    rcases ha with rfl | rfl | rfl
    · simp [HarmlessAction]
    · exact ⟨fun hb => absurd hb (by decide), by simp⟩
    · simp [HarmlessAction]

/-- A pause request handled before the failure hides it: the run is reported as paused. -/
theorem failure_reported_as_pause : ∃ s₀ m s : System,
    System.runs sideBySide s₀ (sideBySideRunning ++
      [.handle (.pauseRequested "ask" (.humanInputRequired "form" "ask")) [], .leave []]) =
        some m ∧
    m.engine.Fatal sideBySide "task" ∧
    System.runs sideBySide s₀ (sideBySideRunning ++
      [.handle (.pauseRequested "ask" (.humanInputRequired "form" "ask")) [], .leave []] ++
      taskFailed :: [.leave [], .leave []]) = some s ∧
    s.phase = .done ∧
    s.engine.terminalEvent = (.paused [.humanInputRequired "form" "ask"], none) := by
  obtain ⟨x, -, s, hpost, hend⟩ : ∃ x, ((EngineState.initial sideBySide .ascending
      .empty).startExecution sideBySide .ascending).toOption = some x ∧
        ∃ s, System.runs sideBySide (System.start x []) (sideBySideRunning ++
          [.handle (.pauseRequested "ask" (.humanInputRequired "form" "ask")) [], .leave []] ++
          taskFailed :: [.leave [], .leave []]) = some s ∧
        s.phase = .done ∧
        s.engine.terminalEvent = (.paused [.humanInputRequired "form" "ask"], none) := by
    decide +kernel
  obtain ⟨m, hpre, -⟩ := run_append_eq_some.mp hpost
  refine ⟨System.start x [], m, s, hpre, ⟨?_, rfl⟩, hpost, hend⟩
  rintro ⟨n, hn, hr, -⟩
  have : n = { id := "task" } := Option.some.inj (hn.symm.trans rfl)
  rw [this] at hr
  cases hr

end PlatformSpec.Engine
