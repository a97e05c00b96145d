import PlatformSpec.Engine.Traversal
import PlatformSpec.Runtime.State

/-!
# Node events and their handlers

Models `graph_engine/event_management/event_handlers.py` and
`graph_engine/error_handler.py`. A handler changes the engine in place and may raise; the
changes made before a raise stay. Events carry ids of graph nodes, so that the dictionary
lookups of the handlers succeed.
-/

namespace PlatformSpec.Engine

open Base PlatformSpec.Runtime Workflow Response

/-- `NodeRunResult`. -/
structure NodeRunResult where
  outputs : List (String × Segment) := []
  edgeSourceHandle : String := "source"
  llmUsage : LLMUsage := .emptyUsage
  error : String := ""
  errorType : String := ""

/-- `GraphNodeEventBase`. An `inner` event belongs to a node inside the loop or iteration
container it names; `observed` stands for the event types that are only collected. -/
inductive NodeEvent where
  | started (nodeId : NodeId) (id : ExecutionId)
  | streamChunk (nodeId : NodeId) (chunk : StreamChunk)
  | succeeded (nodeId : NodeId) (result : NodeRunResult)
  | pauseRequested (nodeId : NodeId) (reason : PauseReason)
  | failed (nodeId : NodeId) (result : NodeRunResult) (error : String)
  | exception (nodeId : NodeId) (result : NodeRunResult) (error : String)
  | retry (nodeId : NodeId) (retryIndex : Nat) (error : String)
  | observed (nodeId : NodeId)
  | inner (container : NodeId) (event : NodeEvent)

namespace NodeEvent

/-- The node of this graph whose worker put the event. -/
def nodeId : NodeEvent → NodeId
  | started id _ => id
  | streamChunk id _ => id
  | succeeded id _ => id
  | pauseRequested id _ => id
  | failed id _ _ => id
  | exception id _ _ => id
  | retry id _ _ => id
  | observed id => id
  | inner id _ => id

/-- The last event of a node run. -/
def isResult : NodeEvent → Bool
  | succeeded _ _ => true
  | pauseRequested _ _ => true
  | failed _ _ _ => true
  | _ => false

/-- `Dispatcher._COMMAND_TRIGGER_EVENTS`, tested on the event's type alone. -/
def isCommandTrigger : NodeEvent → Bool
  | succeeded _ _ => true
  | failed _ _ _ => true
  | exception _ _ _ => true
  | inner _ e => e.isCommandTrigger
  | _ => false

end NodeEvent

/-- An event handed to the event manager: a node event, or a coordinator emission. -/
inductive CollectedEvent where
  | node (event : NodeEvent)
  | stream (emission : Emission)

/-- The state the engine's components share. -/
structure EngineState where
  tracking : Tracking
  coordinator : Coordinator := {}
  execution : GraphExecution := {}
  data : RuntimeData := {}
  collected : List CollectedEvent := []

namespace EngineState

/-- `EventManager.collect`. -/
def collect (x : EngineState) (event : NodeEvent) : EngineState :=
  { x with collected := x.collected ++ [.node event] }

/-- Collect streaming events one by one. -/
def collectStream (x : EngineState) (events : List Emission) : EngineState :=
  { x with collected := x.collected ++ events.map .stream }

/-- What the coordinator sees of the engine. -/
def view (x : EngineState) (g : Graph) : View := ⟨g, x.tracking.nodeState, x.data.variablePool⟩

/-- Take over what edge processing changed, collect its events, go on with the ready
nodes. -/
def continueWith (x : EngineState) (r : Outcome EdgeResult)
    (k : List NodeId → EngineState → Outcome EngineState) : Outcome EngineState :=
  Outcome.andThen
    ({ x with tracking := r.1.tracking, coordinator := r.1.coordinator }, r.2)
    fun x => k r.1.readyNodes (x.collectStream r.1.events)

/-- The state edge processing starts from. -/
def edgeStart (x : EngineState) : EdgeResult :=
  { tracking := x.tracking, coordinator := x.coordinator }

variable (g : Graph)

/-- Handler of `NodeRunStartedEvent`. -/
def handleStarted (nodeId : NodeId) (id : ExecutionId) (x : EngineState) : EngineState :=
  let isInitialAttempt := (x.execution.nodeExecution nodeId).retryCount = 0
  let x := { x with
    execution := x.execution.updateNodeExecution nodeId (·.markStarted id)
    data := x.data.incrementNodeRunSteps
    coordinator := x.coordinator.trackNodeExecution nodeId id }
  if isInitialAttempt then x.collect (.started nodeId id) else x

/-- Handler of `NodeRunStreamChunkEvent`. -/
def handleStreamChunk (chunk : StreamChunk) (x : EngineState) : Outcome EngineState :=
  match x.coordinator.interceptChunk (x.view g) chunk with
  | .error e => (x, some e)
  | .ok (c, events) => ({ x with coordinator := c }.collectStream events, none)

/-- The bookkeeping of `event_handlers.py:165–177` and `:264–269`: the node is taken, its
usage added, its outputs stored. -/
def recordResult (nodeId : NodeId) (result : NodeRunResult) (x : EngineState) : EngineState :=
  { x with
    execution := x.execution.updateNodeExecution nodeId (·.markTaken)
    data := (x.data.accumulateNodeUsage result.llmUsage).storeNodeOutputs nodeId
      result.outputs }

/-- `intercept_event` on a success, with its events collected. -/
def flushStreams (x : EngineState) : EngineState :=
  let (c, events) := x.coordinator.interceptSucceeded (x.view g)
  { x with coordinator := c }.collectStream events

/-- `event_handlers.py:192–199`: deferred while paused, scheduled otherwise. -/
def dispatchReady (readyNodes : List NodeId) (x : EngineState) : EngineState :=
  if x.execution.isPaused then
    { x with data := readyNodes.foldl RuntimeData.registerDeferredNode x.data }
  else { x with tracking := x.tracking.scheduleAll readyNodes }

/-- `_update_response_outputs`, for response nodes. -/
def updateOutputs (nodeId : NodeId) (outputs : List (String × Segment)) (x : EngineState) :
    EngineState :=
  if g.executionType nodeId = .response then
    { x with data := x.data.updateResponseOutputs outputs }
  else x

/-- `GraphStateManager.finish_execution`. -/
def finish (nodeId : NodeId) (x : EngineState) : EngineState :=
  { x with tracking := x.tracking.finishExecution nodeId }

/-- Edge processing of a successful node; `event_handlers.py:182–188`. -/
def successEdges (nodeId : NodeId) (result : NodeRunResult) (x : EngineState) :
    Outcome EdgeResult :=
  if g.executionType nodeId = .branch then
    handleBranchCompletion g x.data.variablePool nodeId result.edgeSourceHandle x.edgeStart
  else processNodeSuccess g x.data.variablePool nodeId "" x.edgeStart

/-- Handler of `NodeRunSucceededEvent`. -/
def handleSucceeded (nodeId : NodeId) (result : NodeRunResult) (x : EngineState) :
    Outcome EngineState :=
  let x := (x.recordResult nodeId result).flushStreams g
  x.continueWith (x.successEdges g nodeId result) fun readyNodes x =>
    ((((x.dispatchReady readyNodes).finish nodeId).updateOutputs g nodeId result.outputs).collect
      (.succeeded nodeId result), none)

/-- Handler of `NodeRunPauseRequestedEvent`. -/
def handlePauseRequested (nodeId : NodeId) (reason : PauseReason) (x : EngineState) :
    Outcome EngineState :=
  match x.execution.pause reason with
  | .error e => (x, some e)
  | .ok execution =>
    (({ x with
      execution
      tracking := (x.tracking.finishExecution nodeId).setNode nodeId .unknown
      data := x.data.registerPausedNode nodeId }).collect (.pauseRequested nodeId reason), none)

/-- Handler of `NodeRunRetryEvent`. -/
def handleRetry (nodeId : NodeId) (retryIndex : Nat) (error : String) (x : EngineState) :
    EngineState :=
  let x := { x with execution := x.execution.updateNodeExecution nodeId (·.incrementRetry) }
  let x := (x.finish nodeId).collect (.retry nodeId retryIndex error)
  { x with tracking := x.tracking.schedule nodeId }

/-- Edge processing of a node that continues after an exception;
`event_handlers.py:271–280`. -/
def exceptionEdges (nodeId : NodeId) (result : NodeRunResult) (x : EngineState) :
    Outcome EdgeResult :=
  match (g.node? nodeId).bind Node.errorStrategy with
  | some .defaultValue => processNodeSuccess g x.data.variablePool nodeId "" x.edgeStart
  | some .failBranch =>
    handleBranchCompletion g x.data.variablePool nodeId result.edgeSourceHandle x.edgeStart
  | none =>
    (x.edgeStart, some ⟨.notImplementedError, "Unsupported error strategy: None"⟩)

/-- Handler of `NodeRunExceptionEvent`. Ready nodes are scheduled whether or not the
execution is paused. -/
def handleException (nodeId : NodeId) (result : NodeRunResult) (error : String) (x : EngineState) :
    Outcome EngineState :=
  let x := x.recordResult nodeId result
  x.continueWith (x.exceptionEdges g nodeId result) fun readyNodes x =>
    let x := { x with tracking := x.tracking.scheduleAll readyNodes }
    (((x.updateOutputs g nodeId result.outputs).finish nodeId).collect
      (.exception nodeId result error), none)

/-- What `time.sleep` raises on a negative interval. -/
def sleepError : PyError := ⟨.valueError, "sleep length must be non-negative"⟩

/-- `ErrorHandler.handle_node_failure`: the event to process instead, or `none` to abort.
Before a retry the dispatcher sleeps for the interval, which changes no state. -/
def handleNodeFailure (nodeId : NodeId) (result : NodeRunResult) (error : String)
    (x : EngineState) : Except PyError (Option NodeEvent) :=
  let retryCount := (x.execution.nodeExecution nodeId).retryCount
  match g.node? nodeId with
  | none => .ok none
  | some n =>
    if n.retry && retryCount < n.maxRetries then
      if n.retryInterval < 0 then .error sleepError
      else .ok (some (.retry nodeId (retryCount + 1) error))
    else
      let errorOutputs :=
        [("error_message", Segment.ofString result.error),
          ("error_type", Segment.ofString result.errorType)]
      match n.errorStrategy with
      | none => .ok none
      | some .failBranch => .ok (some (.exception nodeId
          { outputs := errorOutputs, edgeSourceHandle := "fail-branch" } error))
      | some .defaultValue => .ok (some (.exception nodeId
          { outputs := n.defaultValueDict ++ errorOutputs } error))

/-- Handler of `NodeRunFailedEvent`. -/
def handleFailed (nodeId : NodeId) (result : NodeRunResult) (error : String) (x : EngineState) :
    Outcome EngineState :=
  let x := { x with
    execution :=
      (x.execution.updateNodeExecution nodeId (·.markFailed error)).recordNodeFailure
    data := x.data.accumulateNodeUsage result.llmUsage }
  match x.handleNodeFailure g nodeId result error with
  | .error e => (x, some e)
  | .ok (some (.retry id index err)) => (x.handleRetry id index err, none)
  | .ok (some (.exception id res err)) => x.handleException g id res err
  | .ok _ =>
    let x := { x with execution := x.execution.fail ⟨.runtimeError, error⟩ }
    (((x.collect (.failed nodeId result error)).finish nodeId), none)

/-- `EventHandler.dispatch`. -/
def dispatch (event : NodeEvent) (x : EngineState) : Outcome EngineState :=
  match event with
  | .started nodeId id => (x.handleStarted nodeId id, none)
  | .streamChunk _ chunk => x.handleStreamChunk g chunk
  | .succeeded nodeId result => x.handleSucceeded g nodeId result
  | .pauseRequested nodeId reason => x.handlePauseRequested nodeId reason
  | .failed nodeId result error => x.handleFailed g nodeId result error
  | .exception nodeId result error => x.handleException g nodeId result error
  | .retry nodeId index error => (x.handleRetry nodeId index error, none)
  | .observed nodeId => (x.collect (.observed nodeId), none)
  | .inner container e => (x.collect (.inner container e), none)

/-! ### What a failure leads to -/

/-- The node has a retry left; the test of `_handle_retry`. -/
def RetryLeft (x : EngineState) (nodeId : NodeId) : Prop :=
  ∃ n, g.node? nodeId = some n ∧ n.retry = true ∧
    (x.execution.nodeExecution nodeId).retryCount < n.maxRetries

/-- The retry interval of the node is negative, so that `time.sleep` raises. -/
def SleepRefused (g : Graph) (nodeId : NodeId) : Prop :=
  ∃ n, g.node? nodeId = some n ∧ n.retryInterval < 0

/-- The error strategy of the node, if any. -/
def errorStrategy (g : Graph) (nodeId : NodeId) : Option ErrorStrategy :=
  (g.node? nodeId).bind Node.errorStrategy

/-- What `handle_node_failure` starts from: the failure is recorded and its usage added. -/
def recordFailure (nodeId : NodeId) (result : NodeRunResult) (error : String)
    (x : EngineState) : EngineState :=
  { x with
    execution :=
      (x.execution.updateNodeExecution nodeId (·.markFailed error)).recordNodeFailure
    data := x.data.accumulateNodeUsage result.llmUsage }

/-- The result that an error strategy puts in place of the failure. -/
def strategyResult (g : Graph) (nodeId : NodeId) (result : NodeRunResult) :
    ErrorStrategy → NodeRunResult
  | .failBranch => {
      outputs := [("error_message", Segment.ofString result.error),
        ("error_type", Segment.ofString result.errorType)]
      edgeSourceHandle := "fail-branch" }
  | .defaultValue => {
      outputs := ((g.node? nodeId).map Node.defaultValueDict).getD [] ++
        [("error_message", Segment.ofString result.error),
          ("error_type", Segment.ofString result.errorType)] }

private theorem recordFailure_retryCount (nodeId : NodeId) (result : NodeRunResult)
    (error : String) (x : EngineState) :
    ((x.recordFailure nodeId result error).execution.nodeExecution nodeId).retryCount =
      (x.execution.nodeExecution nodeId).retryCount := by
  simp [recordFailure, GraphExecution.recordNodeFailure, GraphExecution.updateNodeExecution,
    GraphExecution.nodeExecution, NodeExecution.markFailed]

/-- A failure is retried, unless the sleep before the retry raises; without a retry left it
ends the run, or is handled as an exception. -/
theorem handleFailed_cases (nodeId : NodeId) (result : NodeRunResult) (error : String)
    (x : EngineState) :
    (x.RetryLeft g nodeId ∧ ¬ SleepRefused g nodeId ∧ x.handleFailed g nodeId result error =
      ((x.recordFailure nodeId result error).handleRetry nodeId
        ((x.execution.nodeExecution nodeId).retryCount + 1) error, none)) ∨
    (x.RetryLeft g nodeId ∧ SleepRefused g nodeId ∧ x.handleFailed g nodeId result error =
      (x.recordFailure nodeId result error, some sleepError)) ∨
    (¬ x.RetryLeft g nodeId ∧ errorStrategy g nodeId = none ∧
      x.handleFailed g nodeId result error =
        (({ x.recordFailure nodeId result error with
          execution := (x.recordFailure nodeId result error).execution.fail
            ⟨.runtimeError, error⟩ }.collect (.failed nodeId result error)).finish nodeId,
          none)) ∨
    ∃ strategy, ¬ x.RetryLeft g nodeId ∧ errorStrategy g nodeId = some strategy ∧
      x.handleFailed g nodeId result error =
        (x.recordFailure nodeId result error).handleException g nodeId
          (strategyResult g nodeId result strategy) error := by
  have hcount := x.recordFailure_retryCount nodeId result error
  have hunfold : x.handleFailed g nodeId result error =
      match (x.recordFailure nodeId result error).handleNodeFailure g nodeId result error with
      | .error e => (x.recordFailure nodeId result error, some e)
      | .ok (some (.retry id index err)) =>
        ((x.recordFailure nodeId result error).handleRetry id index err, none)
      | .ok (some (.exception id res err)) =>
        (x.recordFailure nodeId result error).handleException g id res err
      | .ok _ => (({ x.recordFailure nodeId result error with
          execution := (x.recordFailure nodeId result error).execution.fail
            ⟨.runtimeError, error⟩ }.collect (.failed nodeId result error)).finish nodeId,
          none) := rfl
  rw [hunfold]
  generalize x.recordFailure nodeId result error = y at hcount
  unfold handleNodeFailure RetryLeft SleepRefused errorStrategy
  rw [hcount]
  cases hn : g.node? nodeId with
  | none => exact .inr (.inr (.inl ⟨by simp, rfl, rfl⟩))
  | some n =>
    simp only []
    by_cases hr : (n.retry && (x.execution.nodeExecution nodeId).retryCount < n.maxRetries) = true
    · rw [if_pos hr]
      have hleft : ∃ m, some n = some m ∧ m.retry = true ∧
          (x.execution.nodeExecution nodeId).retryCount < m.maxRetries :=
        ⟨n, rfl, by simpa using hr⟩
      by_cases hw : n.retryInterval < 0
      · rw [if_pos hw]
        exact .inr (.inl ⟨hleft, ⟨n, rfl, hw⟩, rfl⟩)
      · rw [if_neg hw]
        refine .inl ⟨hleft, ?_, rfl⟩
        rintro ⟨m, hm, hlt⟩
        cases hm
        exact hw hlt
    · have hno : ¬ ∃ m, some n = some m ∧ m.retry = true ∧
          (x.execution.nodeExecution nodeId).retryCount < m.maxRetries := by
        rintro ⟨m, hm, hret, hlt⟩
        cases hm
        exact hr (by simp [hret, hlt])
      rw [if_neg hr]
      cases hs : n.errorStrategy with
      | none => exact .inr (.inr (.inl ⟨hno, by simp [hs], rfl⟩))
      | some strategy =>
        refine .inr (.inr (.inr ⟨strategy, hno, by simp [hs], ?_⟩))
        cases strategy with
        | failBranch => rfl
        | defaultValue =>
          simp only [strategyResult, hn, Option.map_some, Option.getD_some]

/-! ### What the handlers leave alone -/

section Frame

variable (nodeId : NodeId) (result : NodeRunResult) (x : EngineState)

/-- The nodes whose success has been handled, in order. -/
def succeededNodes : List NodeId :=
  x.collected.filterMap fun
    | .node (.succeeded id _) => some id
    | _ => none

@[simp] theorem succeededNodes_collectStream (events : List Emission) :
    (x.collectStream events).succeededNodes = x.succeededNodes := by
  simp [succeededNodes, collectStream, List.filterMap_append]

@[simp] theorem succeededNodes_collect_succeeded :
    (x.collect (.succeeded nodeId result)).succeededNodes = x.succeededNodes ++ [nodeId] := by
  simp [succeededNodes, collect, List.filterMap_append]

@[simp] theorem recordResult_tracking : (x.recordResult nodeId result).tracking = x.tracking := rfl

@[simp] theorem recordResult_coordinator :
    (x.recordResult nodeId result).coordinator = x.coordinator := rfl

@[simp] theorem recordResult_collected :
    (x.recordResult nodeId result).collected = x.collected := rfl

@[simp] theorem succeededNodes_recordResult :
    (x.recordResult nodeId result).succeededNodes = x.succeededNodes := rfl

@[simp] theorem recordResult_paused :
    (x.recordResult nodeId result).execution.paused = x.execution.paused := rfl

@[simp] theorem recordResult_pausedNodes :
    (x.recordResult nodeId result).data.pausedNodes = x.data.pausedNodes := by
  simp only [recordResult, RuntimeData.storeNodeOutputs, RuntimeData.accumulateNodeUsage]
  split <;> rfl

@[simp] theorem recordResult_deferredNodes :
    (x.recordResult nodeId result).data.deferredNodes = x.data.deferredNodes := by
  simp only [recordResult, RuntimeData.storeNodeOutputs, RuntimeData.accumulateNodeUsage]
  split <;> rfl

@[simp] theorem flushStreams_tracking : (x.flushStreams g).tracking = x.tracking := rfl

@[simp] theorem flushStreams_execution : (x.flushStreams g).execution = x.execution := rfl

@[simp] theorem flushStreams_data : (x.flushStreams g).data = x.data := rfl

@[simp] theorem succeededNodes_flushStreams :
    (x.flushStreams g).succeededNodes = x.succeededNodes := by
  unfold flushStreams
  simp only [succeededNodes_collectStream]
  rfl

@[simp] theorem updateOutputs_tracking (outputs : List (String × Segment)) :
    (x.updateOutputs g nodeId outputs).tracking = x.tracking := by
  unfold updateOutputs
  split <;> rfl

@[simp] theorem updateOutputs_execution (outputs : List (String × Segment)) :
    (x.updateOutputs g nodeId outputs).execution = x.execution := by
  unfold updateOutputs
  split <;> rfl

@[simp] theorem updateOutputs_coordinator (outputs : List (String × Segment)) :
    (x.updateOutputs g nodeId outputs).coordinator = x.coordinator := by
  unfold updateOutputs
  split <;> rfl

@[simp] theorem updateOutputs_collected (outputs : List (String × Segment)) :
    (x.updateOutputs g nodeId outputs).collected = x.collected := by
  unfold updateOutputs
  split <;> rfl

/-- A success either raises before any edge is taken, or takes the selected edges one after
another. -/
theorem successEdges_eq :
    (∃ t e, x.successEdges g nodeId result = ({ x.edgeStart with tracking := t }, some e)) ∨
    ∃ t, x.successEdges g nodeId result =
      ((selectedEdges g nodeId result.edgeSourceHandle).foldl
        (processTakenEdge g x.data.variablePool) { x.edgeStart with tracking := t }, none) := by
  unfold successEdges
  split
  next => exact handleBranchCompletion_eq g x.data.variablePool nodeId _ _
  next hb =>
    have hsel : selectedEdges g nodeId "" = selectedEdges g nodeId result.edgeSourceHandle := by
      simp only [selectedEdges, if_neg hb]
    rw [← hsel]
    rcases processNodeSuccess_eq g x.data.variablePool nodeId "" x.edgeStart with ⟨e, he⟩ | ht
    · exact .inl ⟨_, e, he⟩
    · exact .inr ht

theorem continueWith_execution {r : Outcome EdgeResult}
    {k : List NodeId → EngineState → Outcome EngineState}
    (hk : ∀ ids y, (k ids y).1.execution = y.execution) :
    (x.continueWith r k).1.execution = x.execution := by
  obtain ⟨e, raised⟩ := r
  cases raised with
  | some err => rfl
  | none =>
    unfold continueWith
    rw [Outcome.andThen_none, hk]
    rfl

theorem dispatchReady_execution (ids : List NodeId) :
    (x.dispatchReady ids).execution = x.execution := by
  unfold dispatchReady
  split <;> rfl

@[simp] theorem dispatchReady_coordinator (ids : List NodeId) :
    (x.dispatchReady ids).coordinator = x.coordinator := by
  unfold dispatchReady
  split <;> rfl

@[simp] theorem dispatchReady_collected (ids : List NodeId) :
    (x.dispatchReady ids).collected = x.collected := by
  unfold dispatchReady
  split <;> rfl

/-- What the success handler leaves to the coordinator and to the event manager: after the
flush it raises without more, or it takes the selected edges and collects their events. -/
theorem handleSucceeded_cases :
    (∃ t e, x.handleSucceeded g nodeId result =
      ({ (x.recordResult nodeId result).flushStreams g with tracking := t }, some e)) ∨
    ∃ t r y,
      r = (selectedEdges g nodeId result.edgeSourceHandle).foldl
        (processTakenEdge g (x.recordResult nodeId result).data.variablePool)
        { ((x.recordResult nodeId result).flushStreams g).edgeStart with tracking := t } ∧
      x.handleSucceeded g nodeId result = (y, none) ∧ y.coordinator = r.coordinator ∧
      y.collected = ((x.recordResult nodeId result).flushStreams g).collected ++
        r.events.map .stream ++ [.node (.succeeded nodeId result)] := by
  unfold handleSucceeded continueWith
  simp only []
  rcases successEdges_eq g nodeId result ((x.recordResult nodeId result).flushStreams g) with
    ⟨t, e, hr⟩ | ⟨t, hr⟩
  · rw [hr]
    exact .inl ⟨t, e, rfl⟩
  · rw [hr]
    refine .inr ⟨t, _, _, rfl, rfl, ?_, ?_⟩
    · simp [collect, finish, collectStream]
    · simp [collect, finish, collectStream]

theorem handleSucceeded_execution :
    (x.handleSucceeded g nodeId result).1.execution =
      x.execution.updateNodeExecution nodeId (·.markTaken) := by
  unfold handleSucceeded
  simp only []
  rw [continueWith_execution]
  · rfl
  · intro ids y
    simp only [collect, updateOutputs_execution, finish, dispatchReady_execution]

theorem handleException_execution (error : String) :
    (x.handleException g nodeId result error).1.execution =
      x.execution.updateNodeExecution nodeId (·.markTaken) := by
  unfold handleException
  simp only []
  rw [continueWith_execution]
  · rfl
  · intro ids y
    simp only [collect, updateOutputs_execution, finish]

theorem dispatch_paused {event : NodeEvent} (h : ∀ id reason, event ≠ .pauseRequested id reason) :
    (x.dispatch g event).1.execution.paused = x.execution.paused := by
  cases event with
  | started id e =>
    simp only [dispatch, handleStarted]
    split <;> rfl
  | streamChunk id chunk =>
    simp only [dispatch, handleStreamChunk]
    split <;> rfl
  | succeeded id res =>
    simp only [dispatch, handleSucceeded_execution]
    rfl
  | pauseRequested id reason => exact absurd rfl (h id reason)
  | failed id res error =>
    simp only [dispatch, handleFailed]
    split
    next => rfl
    next => rfl
    next =>
      rw [handleException_execution]
      rfl
    next => rfl
  | exception id res error =>
    simp only [dispatch, handleException_execution]
    rfl
  | retry id index error => rfl
  | observed id => rfl
  | inner c e => rfl

/-- Events other than failures and their follow-ups change the execution aggregate in two
ways only: node executions are updated, or the run is paused. -/
theorem dispatch_execution {event : NodeEvent} (hf : ∀ id r m, event ≠ .failed id r m)
    (hr : ∀ id i m, event ≠ .retry id i m) :
    ∃ n, (x.dispatch g event).1.execution = { x.execution with nodeExecutions := n } ∨
      ∃ id reason, event = .pauseRequested id reason ∧
        x.execution.completed = false ∧ x.execution.aborted = false ∧
        (x.dispatch g event).1.execution = { x.execution with
          paused := true, pauseReasons := x.execution.pauseReasons ++ [reason] } := by
  cases event with
  | started id e =>
    simp only [dispatch, handleStarted]
    split <;> exact ⟨_, .inl rfl⟩
  | streamChunk id chunk =>
    simp only [dispatch, handleStreamChunk]
    split
    next => exact ⟨x.execution.nodeExecutions, .inl rfl⟩
    next => exact ⟨x.execution.nodeExecutions, .inl rfl⟩
  | succeeded id res => exact ⟨_, .inl (handleSucceeded_execution g id res x)⟩
  | pauseRequested id reason =>
    simp only [dispatch, handlePauseRequested]
    split
    next => exact ⟨x.execution.nodeExecutions, .inl rfl⟩
    next execution hp =>
      obtain ⟨hc, ha, rfl⟩ := GraphExecution.pause_eq_ok hp
      exact ⟨x.execution.nodeExecutions, .inr ⟨id, reason, rfl, hc, ha, rfl⟩⟩
  | failed id r m => exact absurd rfl (hf id r m)
  | exception id res error => exact ⟨_, .inl (handleException_execution g id res x error)⟩
  | retry id i m => exact absurd rfl (hr id i m)
  | observed id => exact ⟨x.execution.nodeExecutions, .inl rfl⟩
  | inner c e => exact ⟨x.execution.nodeExecutions, .inl rfl⟩

/-- An event updates node executions and the count of failures; besides it may fail the run, or
pause one that is neither completed nor aborted. -/
theorem dispatch_execution_cases (event : NodeEvent) :
    ∃ n k, (x.dispatch g event).1.execution =
        { x.execution with nodeExecutions := n, exceptionsCount := k } ∨
      (∃ e, (x.dispatch g event).1.execution =
        { x.execution with nodeExecutions := n, exceptionsCount := k }.fail e) ∨
      ∃ reason, x.execution.completed = false ∧ x.execution.aborted = false ∧
        (x.dispatch g event).1.execution = { x.execution with
          paused := true, pauseReasons := x.execution.pauseReasons ++ [reason] } := by
  by_cases hf : ∃ id r m, event = .failed id r m
  · obtain ⟨id, r, m, rfl⟩ := hf
    simp only [dispatch]
    rcases handleFailed_cases g id r m x with
      ⟨-, -, hret⟩ | ⟨-, -, hsleep⟩ | ⟨-, -, hfatal⟩ | ⟨strategy, -, -, hexc⟩
    · rw [hret]
      exact ⟨_, _, .inl rfl⟩
    · rw [hsleep]
      exact ⟨_, _, .inl rfl⟩
    · rw [hfatal]
      exact ⟨_, _, .inr (.inl ⟨_, rfl⟩)⟩
    · rw [hexc, handleException_execution]
      exact ⟨_, _, .inl rfl⟩
  · by_cases hr : ∃ id i m, event = .retry id i m
    · obtain ⟨id, i, m, rfl⟩ := hr
      exact ⟨_, x.execution.exceptionsCount, .inl rfl⟩
    · have hf' : ∀ id r m, event ≠ .failed id r m := fun id r m he => hf ⟨id, r, m, he⟩
      have hr' : ∀ id i m, event ≠ .retry id i m := fun id i m he => hr ⟨id, i, m, he⟩
      obtain ⟨n, hn | ⟨_, reason, -, hc, ha, hp⟩⟩ := dispatch_execution g x hf' hr'
      · exact ⟨n, x.execution.exceptionsCount, .inl hn⟩
      · exact ⟨n, x.execution.exceptionsCount, .inr (.inr ⟨reason, hc, ha, hp⟩)⟩

theorem updateOutputs_data (outputs : List (String × Segment)) :
    ∃ o, (x.updateOutputs g nodeId outputs).data = { x.data with outputs := o } := by
  have hfold : ∀ (l : List (String × Segment)) (d : RuntimeData),
      ∃ o, l.foldl RuntimeData.setResponseOutput d = { d with outputs := o } := by
    intro l
    induction l with
    | nil => exact fun d => ⟨d.outputs, rfl⟩
    | cons a l ih =>
      intro d
      have hone : ∃ o, d.setResponseOutput a = { d with outputs := o } := by
        unfold RuntimeData.setResponseOutput
        split
        next => exact ⟨_, rfl⟩
        next => exact ⟨_, rfl⟩
      obtain ⟨o, ho⟩ := hone
      obtain ⟨o', ho'⟩ := ih (d.setResponseOutput a)
      refine ⟨o', ?_⟩
      rw [List.foldl_cons, ho', ho]
  unfold updateOutputs
  split
  next => exact hfold outputs x.data
  next => exact ⟨x.data.outputs, rfl⟩

/-- Registering deferred nodes adds them to that set and changes nothing else. -/
theorem foldl_registerDeferredNode (ids : List NodeId) (d : RuntimeData) :
    (∀ v, v ∈ (ids.foldl RuntimeData.registerDeferredNode d).deferredNodes ↔
      v ∈ d.deferredNodes ∨ v ∈ ids) ∧
    ∃ s, ids.foldl RuntimeData.registerDeferredNode d = { d with deferredNodes := s } := by
  induction ids generalizing d with
  | nil => exact ⟨by simp, d.deferredNodes, rfl⟩
  | cons a ids ih =>
    obtain ⟨hm, s, hs⟩ := ih (d.registerDeferredNode a)
    refine ⟨fun v => ?_, s, by rw [List.foldl_cons, hs]; rfl⟩
    rw [List.foldl_cons, hm]
    simp only [RuntimeData.registerDeferredNode, Std.ExtTreeSet.mem_insert,
      Std.LawfulEqOrd.compare_eq_iff_eq, List.mem_cons]
    constructor
    · rintro ((rfl | h) | h)
      · exact .inr (.inl rfl)
      · exact .inl h
      · exact .inr (.inr h)
    · rintro (h | rfl | h)
      · exact .inl (.inr h)
      · exact .inl (.inl rfl)
      · exact .inr h

end Frame

end EngineState
end PlatformSpec.Engine
