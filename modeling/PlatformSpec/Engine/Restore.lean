import PlatformSpec.Engine.System
import PlatformSpec.Response.Restore

/-!
# Reloading an engine

Every handler keeps the coordinator well formed and the token counter non-negative, so a
snapshot of a running engine can always be restored. The engine built from the snapshot on
a freshly initialised graph has the queue, execution, data, coordinator and graph states of
the dumped one.
-/

namespace PlatformSpec.Engine

open Base PlatformSpec.Runtime Workflow Response

/-- What restoring a snapshot of the engine relies on. -/
structure Restorable (g : Graph) (x : EngineState) : Prop where
  coordinator : WF g x.coordinator
  tokens : 0 ≤ x.data.totalTokens

/-! ### Traversal keeps the coordinator well formed -/

section Traversal

variable {g : Graph} (pool : VariablePool)

private theorem wf_takeEdges (es : List Edge) (x : EdgeResult) (h : WF g x.coordinator) :
    WF g (es.foldl (processTakenEdge g pool) x).coordinator := by
  induction es generalizing x with
  | nil => exact h
  | cons e es ih => exact ih _ (Coordinator.wf_onEdgeTaken _ h e.id)

private theorem wf_skipEdges (es : List Edge) (x : EdgeResult) (h : WF g x.coordinator) :
    WF g (es.foldl processSkippedEdge x).coordinator := by
  induction es generalizing x with
  | nil => exact h
  | cons e es ih => exact ih _ h

theorem wf_processNodeSuccess (id : NodeId) (handle : String) (x : EdgeResult)
    (h : WF g x.coordinator) : WF g (processNodeSuccess g pool id handle x).1.coordinator := by
  unfold processNodeSuccess processBranchNodeEdges
  split
  next =>
    split
    next => exact h
    next => exact wf_takeEdges pool _ _ (wf_skipEdges _ _ h)
  next => exact wf_takeEdges pool _ _ h

theorem wf_handleBranchCompletion (id : NodeId) (handle : String) (x : EdgeResult)
    (h : WF g x.coordinator) :
    WF g (handleBranchCompletion g pool id handle x).1.coordinator := by
  unfold handleBranchCompletion
  split
  next => exact h
  next =>
    generalize skipBranchPaths g (categorizeBranchEdges g id handle).2 x.tracking = r
    obtain ⟨t, raised⟩ := r
    cases raised with
    | some e => exact h
    | none => exact wf_processNodeSuccess pool id handle _ h

end Traversal

namespace Restorable

variable {g : Graph} {x : EngineState} {y : EngineState}

theorem congr (h : Restorable g x) (hc : y.coordinator = x.coordinator)
    (ht : y.data.totalTokens = x.data.totalTokens) : Restorable g y :=
  ⟨hc ▸ h.coordinator, ht ▸ h.tokens⟩

theorem initial (g : Graph) (o : SetOrder NodeId) (pool : VariablePool) :
    Restorable g (EngineState.initial g o pool) :=
  ⟨WF.fresh g o, Int.le_refl 0⟩

private theorem tokens_accumulate {d : RuntimeData} (h : 0 ≤ d.totalTokens) (usage : LLMUsage) :
    0 ≤ (d.accumulateNodeUsage usage).totalTokens := by
  unfold RuntimeData.accumulateNodeUsage
  split
  next => exact h
  next hpos =>
    simp only
    omega

private theorem recordResult (h : Restorable g x) (id : NodeId) (result : NodeRunResult) :
    Restorable g (x.recordResult id result) :=
  ⟨h.coordinator, tokens_accumulate h.tokens result.llmUsage⟩

private theorem flushStreams (h : Restorable g x) : Restorable g (x.flushStreams g) :=
  ⟨Coordinator.wf_tryFlush _ h.coordinator, h.tokens⟩

private theorem updateOutputs (h : Restorable g x) (id : NodeId)
    (outputs : List (String × Segment)) : Restorable g (x.updateOutputs g id outputs) := by
  obtain ⟨o, ho⟩ := x.updateOutputs_data g id outputs
  exact h.congr (x.updateOutputs_coordinator g id outputs) (by rw [ho])

private theorem dispatchReady (h : Restorable g x) (ids : List NodeId) :
    Restorable g (x.dispatchReady ids) := by
  unfold EngineState.dispatchReady
  split
  next =>
    obtain ⟨-, s, hs⟩ := EngineState.foldl_registerDeferredNode ids x.data
    exact h.congr rfl (by simp only [hs])
  next => exact h.congr rfl rfl

private theorem continueWith (h : Restorable g x) {r : Outcome EdgeResult}
    (hr : WF g r.1.coordinator) {k : List NodeId → EngineState → Outcome EngineState}
    (hk : ∀ ids y, Restorable g y → Restorable g (k ids y).1) :
    Restorable g (x.continueWith r k).1 := by
  obtain ⟨e, raised⟩ := r
  cases raised with
  | some err => exact ⟨hr, h.tokens⟩
  | none => exact hk _ _ ⟨hr, h.tokens⟩

private theorem handleException (h : Restorable g x) (id : NodeId) (result : NodeRunResult)
    (error : String) : Restorable g (x.handleException g id result error).1 := by
  have hx := h.recordResult id result
  unfold EngineState.handleException
  refine hx.continueWith ?_ fun ids y hy => ?_
  · unfold EngineState.exceptionEdges
    split
    next => exact wf_processNodeSuccess _ id "" _ hx.coordinator
    next => exact wf_handleBranchCompletion _ id _ _ hx.coordinator
    next => exact hx.coordinator
  · have hs : Restorable g { y with tracking := y.tracking.scheduleAll ids } := hy.congr rfl rfl
    exact (hs.updateOutputs id result.outputs).congr rfl rfl

private theorem handleSucceeded (h : Restorable g x) (id : NodeId) (result : NodeRunResult) :
    Restorable g (x.handleSucceeded g id result).1 := by
  have hx := (h.recordResult id result).flushStreams
  unfold EngineState.handleSucceeded
  refine hx.continueWith ?_ fun ids y hy => ?_
  · unfold EngineState.successEdges
    split
    next => exact wf_handleBranchCompletion _ id _ _ hx.coordinator
    next => exact wf_processNodeSuccess _ id "" _ hx.coordinator
  · have hs : Restorable g ((y.dispatchReady ids).finish id) :=
      (hy.dispatchReady ids).congr rfl rfl
    exact (hs.updateOutputs id result.outputs).congr rfl rfl

theorem dispatch (h : Restorable g x) (event : NodeEvent) :
    Restorable g (x.dispatch g event).1 := by
  cases event with
  | started id e =>
    have hc := Coordinator.wf_trackNodeExecution h.coordinator id e
    simp only [EngineState.dispatch, EngineState.handleStarted]
    split
    next => exact ⟨hc, h.tokens⟩
    next => exact ⟨hc, h.tokens⟩
  | streamChunk id chunk =>
    simp only [EngineState.dispatch, EngineState.handleStreamChunk]
    split
    next => exact h
    next c events hc => exact ⟨Coordinator.wf_interceptChunk _ h.coordinator hc, h.tokens⟩
  | succeeded id result => exact h.handleSucceeded id result
  | pauseRequested id reason =>
    simp only [EngineState.dispatch, EngineState.handlePauseRequested]
    split
    next => exact h
    next => exact h.congr rfl rfl
  | failed id result error =>
    have hx : Restorable g { x with
        execution :=
          (x.execution.updateNodeExecution id (·.markFailed error)).recordNodeFailure
        data := x.data.accumulateNodeUsage result.llmUsage } :=
      ⟨h.coordinator, tokens_accumulate h.tokens result.llmUsage⟩
    simp only [EngineState.dispatch, EngineState.handleFailed]
    split
    next => exact hx
    next => exact hx.congr rfl rfl
    next => exact hx.handleException _ _ _
    next => exact hx.congr rfl rfl
  | exception id result error => exact h.handleException id result error
  | retry id index error => exact h.congr rfl rfl
  | observed id => exact h.congr rfl rfl
  | inner c e => exact h.congr rfl rfl

theorem processCommands (h : Restorable g x) (commands : List Command) :
    Restorable g (x.processCommands commands) := by
  refine EngineState.processCommands_induction (fun y c _ hy => ?_) h
  obtain ⟨execution, pool, hc⟩ := y.handleCommand_frame c
  rw [hc]
  exact hy.congr rfl rfl

theorem markComplete (h : Restorable g x) : Restorable g x.markComplete := by
  rw [EngineState.markComplete_eq]
  exact h.congr rfl rfl

theorem registerResponseNodes (h : Restorable g x)
    (hy : x.registerResponseNodes g = .ok y) : Restorable g y := by
  unfold EngineState.registerResponseNodes at hy
  simp only [bind, Except.bind] at hy
  split at hy
  next => cases hy
  next c hc =>
    cases hy
    refine ⟨?_, h.tokens⟩
    have hmem : ∀ n ∈ g.nodes.filter fun n => n.executionType = .response, n ∈ g.nodes :=
      fun n hn => (List.mem_filter.mp hn).1
    generalize (g.nodes.filter fun n => n.executionType = .response) = ns at hc hmem
    have hwf := h.coordinator
    generalize x.coordinator = c₀ at hc hwf
    induction ns generalizing c₀ with
    | nil =>
      cases hc
      exact hwf
    | cons n ns ih =>
      rw [List.foldlM_cons] at hc
      simp only [bind, Except.bind] at hc
      split at hc
      next => cases hc
      next c₁ hc₁ =>
        exact ih (fun m hm => hmem m (by simp [hm])) c₁ hc
          (Coordinator.wf_register hwf (hmem n (by simp)) hc₁)

theorem startExecution {o : SetOrder NodeId} (h : Restorable g x)
    (hy : x.startExecution g o = .ok y) : Restorable g y := by
  unfold EngineState.startExecution at hy
  split at hy
  next =>
    simp only [bind, Except.bind] at hy
    split at hy
    next => cases hy
    next z hz =>
      cases hy
      have hx : Restorable g { x with execution := { x.execution with started := true } } :=
        h.congr rfl rfl
      exact (hx.registerResponseNodes hz).congr rfl rfl
  next =>
    simp only [bind, Except.bind] at hy
    split at hy
    next => cases hy
    next z hz =>
      cases hy
      refine (registerResponseNodes ?_ hz).congr rfl rfl
      exact h.congr rfl rfl

theorem step {s s' : System} {a : Action} (h : Restorable g s.engine)
    (hstep : s.step? g a = some s') : Restorable g s'.engine := by
  cases System.step?_move hstep with
  | take => exact h.congr rfl rfl
  | handle event commands polls =>
    have hd := h.dispatch event
    cases hdisp : s.engine.dispatch g event with
    | mk y raised =>
      rw [hdisp] at hd
      cases raised with
      | some e =>
        rw [System.dispatchEvent_raised hdisp]
        have hf : Restorable g (y.markFailed e) := hd.congr rfl rfl
        exact hf.markComplete
      | none =>
        rw [System.dispatchEvent_returned hdisp]
        simp only []
        split
        next => exact hd.processCommands commands
        next => exact hd
  | leaveMain commands => exact h.processCommands commands
  | leaveIdle => exact h
  | finish => exact h.markComplete

end Restorable

/-! ### Reloading -/

/-- Applying saved states gives every saved id its state and leaves the others. -/
theorem applyStates_map (known : String → Bool) (ids : List String)
    (hk : ∀ id ∈ ids, known id = true) (saved state : String → NodeState) (id : String) :
    applyStates known (ids.map fun id => (id, saved id)) state id =
      if id ∈ ids then saved id else state id := by
  unfold applyStates
  induction ids generalizing state with
  | nil => simp
  | cons a ids ih =>
    rw [List.map_cons, List.foldl_cons, if_pos (hk a (by simp)),
      ih (fun i hi => hk i (by simp [hi]))]
    by_cases hi : id ∈ ids
    · simp [hi]
    · by_cases ha : id = a
      · simp [ha]
      · simp [hi, ha]

/-- What an engine keeps when it is dumped and rebuilt on a fresh graph. -/
structure Reloaded (g : Graph) (o : SetOrder NodeId) (x y : EngineState) : Prop where
  coordinator : y.coordinator = { x.coordinator with setOrder := o, activations := [] }
  execution : y.execution = x.execution
  data : y.data = x.data
  collected : y.collected = []
  readyQueue : y.tracking.readyQueue = x.tracking.readyQueue
  executingNodes : y.tracking.executingNodes = ∅
  history : y.tracking.history = []
  nodeState : ∀ id, y.tracking.nodeState id =
    if id ∈ g.ids then x.tracking.nodeState id else (initialTracking g).nodeState id
  edgeState : ∀ e ∈ g.edges, y.tracking.edgeState e.id = x.tracking.edgeState e.id

theorem reload_spec {g : Graph} {x : EngineState} (h : Restorable g x) (o : SetOrder NodeId) :
    ∃ y, x.reload g o = .ok y ∧ Reloaded g o x y := by
  have hnotneg : ¬ x.data.totalTokens < 0 := Int.not_lt.mpr h.tokens
  have hexec := GraphExecution.loads_dumps x.execution
    { workflowId := x.execution.workflowId } rfl
  have hload := Coordinator.loads_dumps h.coordinator o
  have hne : (g.nodes.map fun n => (n.id, x.tracking.nodeState n.id)).isEmpty = false := by
    have := g.root_mem
    cases hn : g.nodes with
    | nil => simp [hn] at this
    | cons n ns => rfl
  have hedges : (GraphRuntimeState.pendingStates
      (g.edges.map fun e => (e.id, x.tracking.edgeState e.id))).getD [] =
      g.edges.map fun e => (e.id, x.tracking.edgeState e.id) := by
    unfold GraphRuntimeState.pendingStates
    split
    next he => simp [List.isEmpty_iff.mp he]
    next => rfl
  unfold EngineState.reload GraphRuntimeState.fromSnapshot EngineState.runtimeState
    GraphRuntimeState.dumps GraphRuntimeState.snapshotGraphState
  simp only [Option.getD_some, hnotneg, ↓reduceIte]
  rw [show (GraphExecution.dumps x.execution).workflowId = x.execution.workflowId from rfl, hexec]
  simp only [bind, Except.bind, pure, Except.pure]
  unfold EngineState.create GraphRuntimeState.attachGraph
  simp only [bind, Except.bind, initGraph, hload]
  refine ⟨_, rfl, ⟨rfl, rfl, rfl, rfl, rfl, rfl, rfl, ?_, ?_⟩⟩
  · intro id
    simp only [GraphRuntimeState.applyPendingGraphState, GraphRuntimeState.pendingStates, hne,
      Bool.false_eq_true, ↓reduceIte, Option.getD_some]
    have hmap : (g.nodes.map fun n => (n.id, x.tracking.nodeState n.id)) =
        (g.nodes.map Node.id).map fun id => (id, x.tracking.nodeState id) := by
      rw [List.map_map]
      rfl
    rw [hmap, applyStates_map _ (g.nodes.map Node.id)]
    · simp only [Graph.ids, List.mem_toFinset]
    · intro id hid
      obtain ⟨n, hn⟩ := Graph.exists_node? hid
      simp [Graph.hasNode, hn]
  · intro e he
    simp only [GraphRuntimeState.applyPendingGraphState, hedges]
    have hmap : (g.edges.map fun e => (e.id, x.tracking.edgeState e.id)) =
        (g.edges.map Edge.id).map fun id => (id, x.tracking.edgeState id) := by
      rw [List.map_map]
      rfl
    have hknown : ∀ id ∈ g.edges.map Edge.id, decide (id ∈ g.edges.map Edge.id) = true :=
      fun id hid => decide_eq_true hid
    rw [hmap, Option.getD_some]
    simp only []
    rw [applyStates_map _ (g.edges.map Edge.id) hknown, if_pos (List.mem_map_of_mem he)]

/-! ### Systems reached by running, pausing and resuming -/

/-- Systems that some sequence of runs of `g` reaches: a first run, its moves, and a new run
from the snapshot of a run that ended paused. -/
inductive Reached (g : Graph) : System → Prop where
  | start {o : SetOrder NodeId} {pool : VariablePool} {x : EngineState}
    (hx : (EngineState.initial g o pool).startExecution g o = .ok x) (commands : List Command) :
    Reached g (System.start x commands)
  | step {s s' : System} {a : Action} (h : Reached g s) (hstep : s.step? g a = some s') :
    Reached g s'
  | resume {s : System} {o : SetOrder NodeId} {y x : EngineState} (h : Reached g s)
    (hdone : s.phase = .done) (hpaused : s.engine.execution.paused = true)
    (hy : s.engine.reload g o = .ok y) (hx : y.startExecution g o = .ok x)
    (commands : List Command) : Reached g (System.start x commands)

private theorem started_processCommands {x : EngineState} (h : x.execution.started = true)
    (commands : List Command) : (x.processCommands commands).execution.started = true := by
  refine EngineState.processCommands_induction (P := fun y => y.execution.started = true)
    (fun y c _ hy => ?_) h
  rcases y.handleCommand_cases c with ⟨reason, message, -, heq⟩ | ⟨reason, -, -, heq⟩ | ⟨pool, heq⟩
  · rw [heq]
    exact hy
  · rw [heq]
    exact hy
  · rw [heq]
    exact hy

private theorem started_dispatch (g : Graph) (x : EngineState) (event : NodeEvent) :
    (x.dispatch g event).1.execution.started = x.execution.started := by
  obtain ⟨n, k, hn | ⟨e, hn⟩ | ⟨reason, -, -, hn⟩⟩ := EngineState.dispatch_execution_cases g x event
  · rw [hn]
  · rw [hn]
    rfl
  · rw [hn]

namespace Reached

variable {g : Graph} {s : System}

theorem restorable (h : Reached g s) : Restorable g s.engine := by
  induction h with
  | @start o pool x hx commands =>
    exact ((Restorable.initial g o pool).startExecution hx).processCommands commands
  | step _ hstep ih => exact ih.step hstep
  | @resume s o y x _ _ _ hy hx commands ih =>
    obtain ⟨y', hreload, hsame⟩ := reload_spec ih o
    cases hreload.symm.trans hy
    have hr : Restorable g y := by
      refine ⟨?_, by rw [hsame.data]; exact ih.tokens⟩
      rw [hsame.coordinator]
      exact ⟨ih.coordinator.active, ih.coordinator.waiting, ih.coordinator.pending,
        ih.coordinator.positions⟩
    exact (hr.startExecution hx).processCommands commands

theorem started (h : Reached g s) : s.engine.execution.started = true := by
  induction h with
  | @start o pool x hx commands =>
    obtain ⟨c, rfl⟩ := EngineState.startExecution_first rfl hx
    exact started_processCommands rfl commands
  | @step s s' a _ hstep ih =>
    cases System.step?_move hstep with
    | take => exact ih
    | handle event commands polls =>
      have hd := (started_dispatch g s.engine event).trans ih
      cases hdisp : s.engine.dispatch g event with
      | mk y raised =>
        rw [hdisp] at hd
        cases raised with
        | some e =>
          rw [System.dispatchEvent_raised hdisp, EngineState.markComplete_eq]
          exact hd
        | none =>
          rw [System.dispatchEvent_returned hdisp]
          simp only []
          split
          next => exact started_processCommands hd commands
          next => exact hd
    | leaveMain commands => exact started_processCommands ih commands
    | leaveIdle => exact ih
    | finish =>
      unfold System.finishLoop
      rw [EngineState.markComplete_eq]
      exact ih
  | @resume s o y x h _ _ hy hx commands ih =>
    obtain ⟨y', hreload, hsame⟩ := reload_spec h.restorable o
    cases hreload.symm.trans hy
    obtain ⟨c, rfl⟩ := EngineState.startExecution_resumed (by rw [hsame.execution, ih]) hx
    exact started_processCommands rfl commands

theorem sessions (h : Reached g s) :
    ∀ n ∈ g.nodes, n.executionType = .response → ∃ t, ResponseSession.fromNode n = .ok t := by
  induction h with
  | @start o pool x hx commands =>
    unfold EngineState.startExecution at hx
    simp only [EngineState.initial, ↓reduceIte, bind, Except.bind] at hx
    split at hx
    next => cases hx
    next z hz => exact EngineState.registerResponseNodes_sessions rfl hz
  | step _ _ ih => exact ih
  | resume _ _ _ _ _ _ ih => exact ih

/-- It can be reloaded and resumed: what was set aside is enqueued, each node once. -/
theorem resumes (h : Reached g s) (o : SetOrder NodeId) :
    ∃ y z, s.engine.reload g o = .ok y ∧ y.startExecution g o = .ok z ∧
      z.tracking.enqueued = EngineState.firstOccurrences
        (o.iterate s.engine.data.pausedNodes ++ o.iterate s.engine.data.deferredNodes) := by
  obtain ⟨y, hy, hsame⟩ := reload_spec h.restorable o
  obtain ⟨z, hz⟩ := EngineState.startExecution_total o y h.sessions
  refine ⟨y, z, hy, hz, ?_⟩
  obtain ⟨c, rfl⟩ := EngineState.startExecution_resumed (by rw [hsame.execution, h.started]) hz
  obtain ⟨-, -, -, -, hh⟩ := Tracking.scheduleAll_spec y.tracking (EngineState.firstOccurrences
    (o.iterate y.data.pausedNodes ++ o.iterate y.data.deferredNodes))
  rw [Tracking.enqueued, hh, hsame.history, hsame.data]
  simp [Function.comp_def]

end Reached

end PlatformSpec.Engine
