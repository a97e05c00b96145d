import PlatformSpec.Engine.Quiet
import PlatformSpec.Engine.Restore

/-!
# Scheduling during a pause and after a stop

`dispatcher.py` keeps handling the events of running nodes after a pause, an abort or an
error. The success handler defers ready nodes during a pause; skip propagation, retries and
the exception handler enqueue them all the same, and after a stop every handler does. The
theorems say what holds of the runs that avoid these routes.
-/

namespace PlatformSpec.Engine

open Base PlatformSpec.Runtime Workflow Response

/-- A move that schedules nothing. -/
def SchedulesNothing (g : Graph) (s : System) : Action → Prop
  | .handle event _ => s.engine.SchedulesNothing g event
  | _ => True

/-- A move that schedules and starts nothing: no worker takes a node either. -/
def StartsNothing (g : Graph) (s : System) : Action → Prop
  | .take => False
  | a => SchedulesNothing g s a

/-- From `m` to `s` nothing was scheduled and only the nodes `taken` were started. -/
structure Frozen (g : Graph) (m s : System) (taken : List NodeId) : Prop where
  queue : m.engine.tracking.readyQueue = taken ++ s.engine.tracking.readyQueue
  running : ∀ v ∈ s.running, v ∈ m.running ∨ v ∈ taken
  executing : s.engine.tracking.executingNodes ⊆ m.engine.tracking.executingNodes
  history : s.engine.tracking.history = m.engine.tracking.history
  paused : m.engine.execution.paused = true → s.engine.execution.paused = true
  deferred : ∀ v ∈ m.engine.data.deferredNodes, v ∈ s.engine.data.deferredNodes
  ready : m.engine.execution.paused = true → ∀ v, ReadyIn g s.engine.tracking.edgeState v →
    ReadyIn g m.engine.tracking.edgeState v ∨ v ∈ s.engine.data.deferredNodes

namespace Frozen

variable {g : Graph} {m s s' : System} {taken taken' : List NodeId}

theorem refl (g : Graph) (s : System) : Frozen g s s [] where
  queue := rfl
  running := fun _ hv => .inl hv
  executing := Finset.Subset.refl _
  history := rfl
  paused := id
  deferred := fun _ hv => hv
  ready := fun _ _ hv => .inl hv

theorem trans (h : Frozen g m s taken) (h' : Frozen g s s' taken') :
    Frozen g m s' (taken ++ taken') where
  queue := by rw [h.queue, h'.queue, List.append_assoc]
  running := by
    intro v hv
    rcases h'.running v hv with hv | hv
    · exact (h.running v hv).imp_right (List.mem_append_left _)
    · exact .inr (List.mem_append_right _ hv)
  executing := h'.executing.trans h.executing
  history := h'.history.trans h.history
  paused := fun hp => h'.paused (h.paused hp)
  deferred := fun v hv => h'.deferred v (h.deferred v hv)
  ready := by
    intro hp v hv
    rcases h'.ready (h.paused hp) v hv with hv | hv
    · exact (h.ready hp v hv).imp_right (h'.deferred v)
    · exact .inr hv

private theorem processCommands_frame (x : EngineState) (commands : List Command) :
    (x.processCommands commands).tracking = x.tracking ∧
    (x.processCommands commands).data.deferredNodes = x.data.deferredNodes ∧
    (x.execution.paused = true → (x.processCommands commands).execution.paused = true) := by
  refine EngineState.processCommands_induction
    (P := fun y => y.tracking = x.tracking ∧ y.data.deferredNodes = x.data.deferredNodes ∧
      (x.execution.paused = true → y.execution.paused = true)) (fun y c _ hy => ?_)
    ⟨rfl, rfl, id⟩
  obtain ⟨ht, hd, hp⟩ := hy
  have hpaused := y.handleCommand_paused c
  obtain ⟨execution, pool, hc⟩ := y.handleCommand_frame c
  rw [hc] at hpaused ⊢
  exact ⟨ht, hd, fun h => hpaused (hp h)⟩

private theorem of_engine {x : EngineState} {phase : Phase}
    (ht : x.tracking = s.engine.tracking)
    (hd : x.data.deferredNodes = s.engine.data.deferredNodes)
    (hp : s.engine.execution.paused = true → x.execution.paused = true) :
    Frozen g s { s with engine := x, phase } [] where
  queue := by rw [List.nil_append, ht]
  running := fun _ hv => .inl hv
  executing := by rw [ht]
  history := by rw [ht]
  paused := hp
  deferred := fun _ hv => hd ▸ hv
  ready := fun _ _ hv => .inl (ht ▸ hv)

private theorem of_silent {x : EngineState} {running : List NodeId}
    (h : EngineState.Silent g s.engine x) (hr : ∀ v ∈ running, v ∈ s.running)
    (hp : s.engine.execution.paused = true → x.execution.paused = true) :
    Frozen g s { s with engine := x, running } [] where
  queue := by rw [List.nil_append, h.readyQueue]
  running := fun v hv => .inl (hr v hv)
  executing := h.executing
  history := h.history
  paused := hp
  deferred := h.deferred
  ready := h.ready

private theorem dispatch_keeps_paused (x : EngineState) (event : NodeEvent)
    (h : x.execution.paused = true) : (x.dispatch g event).1.execution.paused = true := by
  by_cases hreq : ∃ id reason, event = .pauseRequested id reason
  · obtain ⟨id, reason, rfl⟩ := hreq
    simp only [EngineState.dispatch, EngineState.handlePauseRequested]
    split
    next => exact h
    next execution hp =>
      obtain ⟨-, -, rfl⟩ := GraphExecution.pause_eq_ok hp
      rfl
  · rw [EngineState.dispatch_paused g x fun id reason he => hreq ⟨id, reason, he⟩]
    exact h

theorem step {a : Action} (ha : SchedulesNothing g s a) (hstep : s.step? g a = some s') :
    ∃ taken, Frozen g s s' taken ∧ (a ≠ .take → taken = []) := by
  cases System.step?_move hstep with
  | take id rest hq =>
    refine ⟨[id], ?_, fun h => absurd rfl h⟩
    refine ⟨hq, fun v hv => ?_, Finset.Subset.refl _, rfl, fun hp => hp, fun v hv => hv,
      fun _ v hv => .inl hv⟩
    exact List.mem_append.mp hv
  | handle event commands polls hadm =>
    obtain ⟨-, hkind⟩ := Bool.and_eq_true_iff.mp hadm
    have hsilent := EngineState.dispatch_silent ha (by rintro id r m rfl; cases hkind)
      (by rintro id i m rfl; cases hkind)
    have hpaused := dispatch_keeps_paused (g := g) s.engine event
    refine ⟨[], ?_, fun _ => rfl⟩
    cases hdisp : s.engine.dispatch g event with
    | mk y raised =>
      rw [hdisp] at hsilent hpaused
      cases raised with
      | some e =>
        rw [System.dispatchEvent_raised hdisp, EngineState.markComplete_eq]
        have hy : Frozen g s { s with engine := y } [] :=
          of_silent hsilent (fun _ hv => hv) hpaused
        exact hy.trans (of_engine rfl rfl id)
      | none =>
        rw [System.dispatchEvent_returned hdisp]
        have hrunning : ∀ v ∈ System.removeFinished event s.running, v ∈ s.running := by
          intro v hv
          unfold System.removeFinished at hv
          split at hv
          next => exact List.mem_of_mem_erase hv
          next => exact hv
        have hy : Frozen g s { s with
            engine := y, running := System.removeFinished event s.running } [] :=
          of_silent hsilent hrunning hpaused
        split
        next =>
          obtain ⟨ht, hd, hp⟩ := processCommands_frame y commands
          exact hy.trans (of_engine ht hd hp)
        next => exact hy
  | leaveMain commands =>
    obtain ⟨ht, hd, hp⟩ := processCommands_frame s.engine commands
    exact ⟨[], of_engine ht hd hp, fun _ => rfl⟩
  | leaveIdle => exact ⟨[], of_engine rfl rfl id, fun _ => rfl⟩
  | finish =>
    unfold System.finishLoop
    rw [EngineState.markComplete_eq]
    exact ⟨[], of_engine rfl rfl id, fun _ => rfl⟩

end Frozen

variable {g : Graph}

theorem Reached.runs {m s : System} {as : List Action} (h : Reached g m)
    (hrun : System.runs g m as = some s) : Reached g s :=
  run_invariant (fun _ => True) (fun _ _ _ hs _ hstep => hs.step hstep) h
    (fun _ _ => trivial) hrun

/-! ### During a pause -/

/-- From a paused system, as long as every move schedules nothing: the run stays paused, the
ready queue only loses nodes to workers, nothing is enqueued, every node that becomes ready
is deferred, and resuming from the snapshot enqueues every deferred node once. -/
theorem paused_scheduling_frozen {g : Graph} {m s : System} {as : List Action}
    (hm : Reached g m) (hpaused : m.engine.execution.isPaused = true)
    (hall : ∀ pre a post k, as = pre ++ a :: post → System.runs g m pre = some k →
      SchedulesNothing g k a)
    (hrun : System.runs g m as = some s) :
    s.engine.execution.isPaused = true ∧
    (∃ taken, m.engine.tracking.readyQueue = taken ++ s.engine.tracking.readyQueue) ∧
    s.engine.tracking.enqueued = m.engine.tracking.enqueued ∧
    (∀ v, ReadyIn g s.engine.tracking.edgeState v →
      ReadyIn g m.engine.tracking.edgeState v ∨ v ∈ s.engine.data.deferredNodes) ∧
    ∀ o, ∃ y z, s.engine.reload g o = .ok y ∧ y.startExecution g o = .ok z ∧
      ∀ v ∈ s.engine.data.deferredNodes, z.tracking.enqueued.count v = 1 := by
  have hfrozen : ∃ taken, Frozen g m s taken := by
    refine run_induction (SchedulesNothing g) (P := fun s => ∃ taken, Frozen g m s taken)
      ?_ ⟨[], .refl g m⟩ hall hrun
    rintro k a k' ⟨taken, hk⟩ ha hstep
    obtain ⟨taken', hk', -⟩ := Frozen.step ha hstep
    exact ⟨taken ++ taken', hk.trans hk'⟩
  obtain ⟨taken, h⟩ := hfrozen
  refine ⟨h.paused hpaused, ⟨taken, h.queue⟩, ?_, h.ready hpaused, fun o => ?_⟩
  · rw [Tracking.enqueued, h.history]
    rfl
  · obtain ⟨y, z, hy, hz, henq⟩ := (hm.runs hrun).resumes o
    refine ⟨y, z, hy, hz, fun v hv => ?_⟩
    obtain ⟨hnodup, hmem⟩ := EngineState.firstOccurrences_spec
      (o.iterate s.engine.data.pausedNodes ++ o.iterate s.engine.data.deferredNodes)
    rw [henq]
    refine List.count_eq_one_of_mem hnodup ((hmem v).mpr ?_)
    exact List.mem_append_right _ ((o.mem_iterate _ v).mpr hv)

/-- A human-input node beside a task that continues with a default value when it fails. -/
def relay : Graph where
  nodes := [
    { id := "start", nodeType := "start", executionType := .root },
    { id := "ask", nodeType := "human-input" },
    { id := "task", errorStrategy := some .defaultValue },
    { id := "next" },
    { id := "join" }]
  edges := [
    { id := "e0", tail := "start", head := "ask" },
    { id := "e1", tail := "start", head := "task" },
    { id := "e2", tail := "task", head := "next" },
    { id := "e3", tail := "next", head := "join" },
    { id := "e4", tail := "ask", head := "join" }]
  root := "start"

/-- The moves until both nodes below the root of `relay` run. -/
def relayRunning : List Action := [.take, .handle (.succeeded "start" {}) [], .take, .take]

/-- The node that asks for input requests a pause, and the main loop is left. -/
def relayPaused : List Action :=
  relayRunning ++
    [.handle (.pauseRequested "ask" (.humanInputRequired "form" "ask")) [], .leave []]

private theorem single_move {m : System} {a : Action}
    (allowed : System → Action → Prop) (h : allowed m a) (pre : List Action) (b : Action)
    (post : List Action) (k : System) (he : [a] = pre ++ b :: post)
    (hk : System.runs g m pre = some k) : allowed k b := by
  cases pre with
  | nil =>
    cases he
    cases hk
    exact h
  | cons c pre => simp at he

private theorem exists_relay (as : List Action) {P : System → Prop}
    (h : ∃ x, ((EngineState.initial relay .ascending .empty).startExecution relay
      .ascending).toOption = some x ∧
        ∃ m, System.runs relay (System.start x []) as = some m ∧ P m) :
    ∃ m, Reached relay m ∧ P m := by
  obtain ⟨x, hx, m, hm, hP⟩ := h
  have hstart := Result.eq_ok_of_toOption hx
  exact ⟨m, Reached.runs (@Reached.start relay .ascending .empty x hstart []) hm, hP⟩

theorem paused_scheduling_frozen_relay : ∃ m s, Reached relay m ∧
    System.runs relay m [.handle (.succeeded "task" {}) []] = some s ∧
    "next" ∈ s.engine.data.deferredNodes ∧ s.engine.tracking.enqueued = m.engine.tracking.enqueued ∧
    ∃ y z, s.engine.reload relay .ascending = .ok y ∧ y.startExecution relay .ascending = .ok z ∧
      z.tracking.enqueued.count "next" = 1 := by
  obtain ⟨m, hm, hpaused, s, hs, hnext⟩ := exists_relay relayPaused (P := fun m =>
    m.engine.execution.isPaused = true ∧
      ∃ s, System.runs relay m [.handle (.succeeded "task" {}) []] = some s ∧
        "next" ∈ s.engine.data.deferredNodes) (by decide +kernel)
  obtain ⟨-, -, henq, -, hresume⟩ := paused_scheduling_frozen hm hpaused
    (single_move (SchedulesNothing relay)
      (show SchedulesNothing relay m (.handle (.succeeded "task" {}) []) from .inl hpaused)) hs
  obtain ⟨y, z, hy, hz, hcount⟩ := hresume .ascending
  exact ⟨m, s, hm, hs, hnext, henq, y, z, hy, hz, hcount "next" hnext⟩

/-- A node that continues with its default value schedules its successor during a pause. -/
theorem paused_failure_schedules : ∃ m s, Reached relay m ∧
    m.engine.execution.isPaused = true ∧ m.engine.tracking.readyQueue = [] ∧
    System.runs relay m [.handle (.failed "task" {} "boom") []] = some s ∧
    s.engine.execution.isPaused = true ∧ s.engine.tracking.readyQueue = ["next"] ∧
    "next" ∉ s.engine.data.deferredNodes := by
  obtain ⟨m, hm, hpaused, hempty, s, hs, hafter⟩ := exists_relay relayPaused (P := fun m =>
    m.engine.execution.isPaused = true ∧ m.engine.tracking.readyQueue = [] ∧
      ∃ s, System.runs relay m [.handle (.failed "task" {} "boom") []] = some s ∧
        s.engine.execution.isPaused = true ∧ s.engine.tracking.readyQueue = ["next"] ∧
          "next" ∉ s.engine.data.deferredNodes) (by decide +kernel)
  exact ⟨m, s, hm, hpaused, hempty, hs, hafter⟩

/-! ### After a stop -/

private theorem aborted_processCommands {x : EngineState} (h : x.isAborted = true)
    (commands : List Command) : (x.processCommands commands).isAborted = true := by
  refine EngineState.processCommands_induction (P := fun y => y.isAborted = true)
    (fun y c _ hy => ?_) h
  rcases y.handleCommand_cases c with ⟨reason, message, -, heq⟩ | ⟨reason, -, -, heq⟩ | ⟨pool, heq⟩
  · rw [heq]
    rfl
  · rw [heq]
    exact hy
  · rw [heq]
    exact hy

private theorem aborted_dispatch (g : Graph) {x : EngineState} (event : NodeEvent)
    (h : x.isAborted = true) : (x.dispatch g event).1.isAborted = true := by
  unfold EngineState.isAborted GraphExecution.hasError at h ⊢
  obtain ⟨n, k, hn | ⟨e, hn⟩ | ⟨reason, -, -, hn⟩⟩ := EngineState.dispatch_execution_cases g x event
  · rw [hn]
    exact h
  · rw [hn]
    exact Bool.or_true _
  · rw [hn]
    exact h

private theorem aborted_step {s s' : System} {a : Action}
    (h : s.engine.isAborted = true) (hstep : s.step? g a = some s') :
    s'.engine.isAborted = true := by
  cases System.step?_move hstep with
  | take => exact h
  | handle event commands polls =>
    have hd := aborted_dispatch g event h
    cases hdisp : s.engine.dispatch g event with
    | mk y raised =>
      rw [hdisp] at hd
      cases raised with
      | some e =>
        rw [System.dispatchEvent_raised hdisp, EngineState.markComplete_eq]
        exact Bool.or_true _
      | none =>
        rw [System.dispatchEvent_returned hdisp]
        simp only []
        split
        next => exact aborted_processCommands hd commands
        next => exact hd
  | leaveMain commands => exact aborted_processCommands h commands
  | leaveIdle => exact h
  | finish =>
    unfold System.finishLoop
    rw [EngineState.markComplete_eq]
    exact h

/-- From a system that was aborted or has an error, as long as no worker takes a node and
every event schedules nothing: the run stays stopped, the ready queue is unchanged, no node
is enqueued, none is marked as executing and none is started. -/
theorem stopped_starts_nothing {g : Graph} {m s : System} {as : List Action}
    (hstop : m.engine.isAborted = true)
    (hall : ∀ pre a post k, as = pre ++ a :: post → System.runs g m pre = some k →
      StartsNothing g k a)
    (hrun : System.runs g m as = some s) :
    s.engine.isAborted = true ∧
    s.engine.tracking.readyQueue = m.engine.tracking.readyQueue ∧
    s.engine.tracking.enqueued = m.engine.tracking.enqueued ∧
    s.engine.tracking.executingNodes ⊆ m.engine.tracking.executingNodes ∧
    ∀ v ∈ s.running, v ∈ m.running := by
  have h : s.engine.isAborted = true ∧ Frozen g m s [] := by
    refine run_induction (StartsNothing g)
      (P := fun s => s.engine.isAborted = true ∧ Frozen g m s []) ?_ ⟨hstop, .refl g m⟩ hall hrun
    rintro k a k' ⟨hk, hfrozen⟩ ha hstep
    have hquiet : SchedulesNothing g k a ∧ a ≠ .take := by
      cases a with
      | take => exact absurd ha id
      | handle event commands => exact ⟨ha, by simp⟩
      | leave commands => exact ⟨ha, by simp⟩
    obtain ⟨taken, hk', htaken⟩ := Frozen.step hquiet.1 hstep
    cases htaken hquiet.2
    exact ⟨aborted_step hk hstep, hfrozen.trans hk'⟩
  obtain ⟨haborted, hfrozen⟩ := h
  refine ⟨haborted, hfrozen.queue.symm, ?_, hfrozen.executing, fun v hv => ?_⟩
  · rw [Tracking.enqueued, hfrozen.history]
    rfl
  · exact (hfrozen.running v hv).resolve_right (by simp)

/-- An abort arrives with the first success; the main loop is left. -/
def relayAborted (first : NodeId) : List Action :=
  relayRunning ++ [.handle (.succeeded first {}) [.abort none], .leave []]

theorem stopped_starts_nothing_relay : ∃ m s, Reached relay m ∧ m.engine.isAborted = true ∧
    m.running = ["ask"] ∧ m.engine.tracking.readyQueue = ["next"] ∧
    System.runs relay m [.handle (.succeeded "ask" {}) []] = some s ∧
    s.engine.tracking.readyQueue = ["next"] ∧ ∀ v ∈ s.running, v ∈ m.running := by
  obtain ⟨m, hm, hstop, hrunning, hqueue, hunknown, hsome⟩ := exists_relay (relayAborted "task")
    (P := fun m => m.engine.isAborted = true ∧ m.running = ["ask"] ∧
      m.engine.tracking.readyQueue = ["next"] ∧ m.engine.tracking.edgeState "e3" = .unknown ∧
      (System.runs relay m [.handle (.succeeded "ask" {}) []]).isSome) (by decide +kernel)
  obtain ⟨s, hs⟩ := Option.isSome_iff_exists.mp hsome
  have hwaits :
      Waits relay m.engine.tracking.edgeState [] (selectedEdges relay "ask" "source") := by
    intro e he
    have hhead : e.head = "join" := by
      revert e
      decide
    rw [hhead]
    exact ⟨{ id := "e3", tail := "next", head := "join" }, by decide, hunknown, by decide,
      not_skips_nil⟩
  obtain ⟨-, hsame, -, -, hrun⟩ := stopped_starts_nothing hstop
    (single_move (StartsNothing relay)
      (show StartsNothing relay m (.handle (.succeeded "ask" {}) []) from .inr hwaits)) hs
  exact ⟨m, s, hm, hstop, hrunning, hqueue, hs, hsame.trans hqueue, hrun⟩

/-- The drain after an abort schedules the successor of a node, and a worker starts it. -/
theorem stopped_success_starts : ∃ m s, Reached relay m ∧ m.engine.isAborted = true ∧
    m.running = ["task"] ∧ m.engine.tracking.readyQueue = [] ∧
    System.runs relay m [.handle (.succeeded "task" {}) [], .take] = some s ∧
    s.running = ["next"] ∧ "next" ∈ s.engine.tracking.executingNodes := by
  obtain ⟨m, hm, hstop, hrunning, hempty, s, hs, hstarted⟩ := exists_relay (relayAborted "ask")
    (P := fun m => m.engine.isAborted = true ∧ m.running = ["task"] ∧
      m.engine.tracking.readyQueue = [] ∧
      ∃ s, System.runs relay m [.handle (.succeeded "task" {}) [], .take] = some s ∧
        s.running = ["next"] ∧ "next" ∈ s.engine.tracking.executingNodes) (by decide +kernel)
  exact ⟨m, s, hm, hstop, hrunning, hempty, hs, hstarted⟩

end PlatformSpec.Engine
