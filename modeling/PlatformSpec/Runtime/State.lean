import PlatformSpec.Response.Coordinator

/-!
# Graph runtime state and its snapshots

Models `dify_graph/runtime/graph_runtime_state.py` and the token counts of
`model_runtime/entities/llm_entities.py`. The start time and the prices of a usage record
are carried along unread by the engine and are left out. A snapshot is the payload that
`dumps` encodes as JSON. Restoring parks the coordinator dump and the graph states until a
graph is attached.
-/

namespace PlatformSpec.Runtime

open Base Workflow Response

/-- `LLMUsage`, its token counts. -/
structure LLMUsage where
  promptTokens : Int := 0
  completionTokens : Int := 0
  totalTokens : Int := 0
  deriving DecidableEq

namespace LLMUsage

/-- `LLMUsage.empty_usage`. -/
def emptyUsage : LLMUsage := {}

/-- `LLMUsage.plus`. -/
def plus (u other : LLMUsage) : LLMUsage :=
  if u.totalTokens = 0 then other
  else {
    promptTokens := u.promptTokens + other.promptTokens
    completionTokens := u.completionTokens + other.completionTokens
    totalTokens := u.totalTokens + other.totalTokens }

@[simp] theorem totalTokens_plus (u other : LLMUsage) :
    (u.plus other).totalTokens = u.totalTokens + other.totalTokens := by
  unfold plus
  split
  next h => simp [h]
  next => rfl

end LLMUsage

/-- The plain data of `GraphRuntimeState`. -/
structure RuntimeData where
  variablePool : VariablePool := .empty
  totalTokens : Int := 0
  nodeRunSteps : Nat := 0
  llmUsage : LLMUsage := .emptyUsage
  outputs : Std.ExtTreeMap String Segment := ∅
  pausedNodes : Std.ExtTreeSet NodeId := ∅
  deferredNodes : Std.ExtTreeSet NodeId := ∅

namespace RuntimeData

/-- `register_paused_node`. -/
def registerPausedNode (d : RuntimeData) (id : NodeId) : RuntimeData :=
  { d with pausedNodes := d.pausedNodes.insert id }

/-- `register_deferred_node`. -/
def registerDeferredNode (d : RuntimeData) (id : NodeId) : RuntimeData :=
  { d with deferredNodes := d.deferredNodes.insert id }

/-- `increment_node_run_steps`. -/
def incrementNodeRunSteps (d : RuntimeData) : RuntimeData :=
  { d with nodeRunSteps := d.nodeRunSteps + 1 }

/-- `EventHandler._accumulate_node_usage`: the counter and the usage record together. -/
def accumulateNodeUsage (d : RuntimeData) (usage : LLMUsage) : RuntimeData :=
  if usage.totalTokens ≤ 0 then d
  else { d with
    totalTokens := d.totalTokens + usage.totalTokens
    llmUsage := if d.llmUsage.totalTokens = 0 then usage else d.llmUsage.plus usage }

/-- `_store_node_outputs`. -/
def storeNodeOutputs (d : RuntimeData) (id : NodeId) (outputs : List (String × Segment)) :
    RuntimeData :=
  { d with variablePool := d.variablePool.addAll id outputs }

/-- One entry of `_update_response_outputs`: answers are concatenated. -/
def setResponseOutput (d : RuntimeData) (o : String × Segment) : RuntimeData :=
  if o.1 = "answer" then
    let existing := ((d.outputs["answer"]?).map Segment.markdown).getD ""
    let value := if existing = "" then o.2 else Segment.ofString (existing ++ o.2.markdown)
    { d with outputs := d.outputs.insert "answer" value }
  else { d with outputs := d.outputs.insert o.1 o.2 }

/-- `_update_response_outputs`. -/
def updateResponseOutputs (d : RuntimeData) (outputs : List (String × Segment)) : RuntimeData :=
  outputs.foldl setResponseOutput d

theorem answer_updateResponseOutputs (d : RuntimeData) (answer : String) :
    ((d.updateResponseOutputs [("answer", .ofString answer)]).outputs["answer"]?).map
        Segment.markdown =
      some (((d.outputs["answer"]?).map Segment.markdown).getD "" ++ answer) := by
  unfold updateResponseOutputs
  simp only [List.foldl_cons, List.foldl_nil, setResponseOutput, if_true]
  rw [Std.ExtTreeMap.getElem?_insert_self, Option.map_some]
  split
  next hnone =>
    rw [hnone]
    simp
  next => rfl

end RuntimeData

/-- A materialised graph: its structure and the states its nodes and edges carry. -/
structure AttachedGraph where
  graph : Graph
  nodeState : NodeId → NodeState
  edgeState : EdgeId → NodeState

/-- `_GraphStateSnapshot`. -/
structure GraphStateSnapshot where
  nodes : List (NodeId × NodeState) := []
  edges : List (EdgeId × NodeState) := []
  deriving DecidableEq

/-- The payload of `GraphRuntimeState.dumps`. Sets are kept as sets: the order of a listed
set carries no information. -/
structure Snapshot where
  variablePool : VariablePool
  totalTokens : Int
  nodeRunSteps : Nat
  llmUsage : LLMUsage
  outputs : Std.ExtTreeMap String Segment
  readyQueue : List NodeId
  graphExecution : GraphExecutionState
  pausedNodes : Std.ExtTreeSet NodeId
  deferredNodes : Std.ExtTreeSet NodeId
  graphState : GraphStateSnapshot
  responseCoordinator : Option CoordinatorState

/-- `GraphRuntimeState`. The collaborators and the pending parts are absent until bound. -/
structure GraphRuntimeState where
  data : RuntimeData := {}
  graph : Option AttachedGraph := none
  readyQueue : Option (List NodeId) := none
  graphExecution : Option GraphExecution := none
  responseCoordinator : Option Coordinator := none
  pendingResponseCoordinatorDump : Option CoordinatorState := none
  pendingGraphNodeStates : Option (List (NodeId × NodeState)) := none
  pendingGraphEdgeStates : Option (List (EdgeId × NodeState)) := none

/-- Overwrite the states of the listed ids that `known` admits;
`graph_runtime_state.py:637–650`. -/
def applyStates (known : String → Bool) (saved : List (String × NodeState))
    (state : String → NodeState) : String → NodeState :=
  saved.foldl (fun s p => if known p.1 then Function.update s p.1 p.2 else s) state

namespace GraphRuntimeState

/-- `_snapshot_graph_state`. -/
def snapshotGraphState (s : GraphRuntimeState) : GraphStateSnapshot :=
  match s.graph with
  | none => ⟨s.pendingGraphNodeStates.getD [], s.pendingGraphEdgeStates.getD []⟩
  | some a => ⟨a.graph.nodes.map fun n => (n.id, a.nodeState n.id),
      a.graph.edges.map fun e => (e.id, a.edgeState e.id)⟩

/-- `GraphRuntimeState.dumps`. The queue and the execution aggregate are created on first
use; the coordinator is dumped only while a graph is attached. -/
def dumps (s : GraphRuntimeState) : Snapshot where
  variablePool := s.data.variablePool
  totalTokens := s.data.totalTokens
  nodeRunSteps := s.data.nodeRunSteps
  llmUsage := s.data.llmUsage
  outputs := s.data.outputs
  readyQueue := s.readyQueue.getD []
  graphExecution := (s.graphExecution.getD {}).dumps
  pausedNodes := s.data.pausedNodes
  deferredNodes := s.data.deferredNodes
  graphState := s.snapshotGraphState
  responseCoordinator :=
    match s.responseCoordinator, s.graph with
    | some c, some _ => some c.dumps
    | _, _ => none

/-- `graph_node_states or None`: an empty mapping is no pending state. -/
def pendingStates (l : List (String × NodeState)) : Option (List (String × NodeState)) :=
  if l.isEmpty then none else some l

/-- `GraphRuntimeState.from_snapshot`. -/
def fromSnapshot (snapshot : Snapshot) : Except PyError GraphRuntimeState :=
  if snapshot.totalTokens < 0 then
    .error ⟨.valueError, "total_tokens must be non-negative"⟩
  else do
    let execution ← GraphExecution.loads { workflowId := snapshot.graphExecution.workflowId }
      snapshot.graphExecution
    return {
      data := {
        variablePool := snapshot.variablePool
        totalTokens := snapshot.totalTokens
        nodeRunSteps := snapshot.nodeRunSteps
        llmUsage := snapshot.llmUsage
        outputs := snapshot.outputs
        pausedNodes := snapshot.pausedNodes
        deferredNodes := snapshot.deferredNodes }
      readyQueue := some snapshot.readyQueue
      graphExecution := some execution
      pendingResponseCoordinatorDump := snapshot.responseCoordinator
      pendingGraphNodeStates := pendingStates snapshot.graphState.nodes
      pendingGraphEdgeStates := pendingStates snapshot.graphState.edges }

/-- `_apply_pending_graph_state` on the graph being attached. -/
def applyPendingGraphState (s : GraphRuntimeState) (a : AttachedGraph) : AttachedGraph :=
  { a with
    nodeState := applyStates (a.graph.hasNode ·) (s.pendingGraphNodeStates.getD []) a.nodeState
    edgeState := applyStates (fun id => id ∈ a.graph.edges.map Edge.id)
      (s.pendingGraphEdgeStates.getD []) a.edgeState }

/-- `GraphRuntimeState.attach_graph` on a state without a graph. `o` is the iteration order
of the set a coordinator dump is loaded into. -/
def attachGraph (s : GraphRuntimeState) (a : AttachedGraph) (o : SetOrder NodeId) :
    Except PyError GraphRuntimeState := do
  let coordinator := s.responseCoordinator.getD { setOrder := o }
  let coordinator ←
    match s.pendingResponseCoordinatorDump with
    | none => .ok coordinator
    | some dump => Coordinator.loads a.graph o dump
  return { s with
    graph := some (s.applyPendingGraphState a)
    responseCoordinator := some coordinator
    pendingResponseCoordinatorDump := none
    pendingGraphNodeStates := none
    pendingGraphEdgeStates := none }

end GraphRuntimeState
end PlatformSpec.Runtime
