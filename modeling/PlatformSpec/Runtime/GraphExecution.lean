import PlatformSpec.Base.Dict
import PlatformSpec.Workflow.Graph

/-!
# Graph execution aggregate

Models `graph_engine/domain/graph_execution.py`, `graph_engine/domain/node_execution.py`
and `entities/pause_reason.py`. Snapshots are kept as the structured payload; their JSON
text is an encoding of it. The checks of the payload's type and version read constants
that the dump itself writes.
-/

namespace PlatformSpec.Runtime

open Workflow

/-- The exception classes the engine raises or records. -/
inductive PyErrorClass where
  | runtimeError
  | valueError
  | typeError
  | assertionError
  | notImplementedError
  | recursionError
  | attributeError
  | overflowError
  | keyError
  deriving DecidableEq

/-- An exception: its class and its text `str(e)`. -/
structure PyError where
  errorClass : PyErrorClass
  message : String
  deriving DecidableEq

/-- A Python procedure on a mutable state: the state it leaves and the exception it raised,
if any. State changes made before a raise stay. -/
abbrev Outcome (σ : Type) := σ × Option PyError

namespace Outcome

/-- Go on only when nothing was raised. -/
def andThen {σ : Type} (r : Outcome σ) (f : σ → Outcome σ) : Outcome σ :=
  match r with
  | (s, none) => f s
  | (s, some e) => (s, some e)

@[simp] theorem andThen_none {σ : Type} (s : σ) (f : σ → Outcome σ) :
    andThen (s, none) f = f s := rfl

@[simp] theorem andThen_some {σ : Type} (s : σ) (e : PyError) (f : σ → Outcome σ) :
    andThen (s, some e) f = (s, some e) := rfl

end Outcome

/-- `PauseReason`: a human input form, or a pause command with its message. -/
inductive PauseReason where
  | humanInputRequired (formId nodeId : String)
  | schedulingPause (message : String)
  deriving DecidableEq

/-- Identifier of one node execution: assigned by a worker, or made up by the response
coordinator for a node that has none. -/
inductive ExecutionId where
  | assigned (id : String)
  | generated (node : NodeId)
  deriving DecidableEq

/-- `NodeExecution`, without the node id that is its dictionary key. -/
structure NodeExecution where
  state : NodeState := .unknown
  retryCount : Nat := 0
  executionId : Option ExecutionId := none
  error : Option String := none
  deriving DecidableEq

namespace NodeExecution

/-- `NodeExecution.mark_started`. -/
def markStarted (n : NodeExecution) (executionId : ExecutionId) : NodeExecution :=
  { n with state := .taken, executionId := some executionId }

/-- `NodeExecution.mark_taken`. -/
def markTaken (n : NodeExecution) : NodeExecution := { n with state := .taken, error := none }

/-- `NodeExecution.mark_failed`. -/
def markFailed (n : NodeExecution) (error : String) : NodeExecution :=
  { n with error := some error }

/-- `NodeExecution.increment_retry`. -/
def incrementRetry (n : NodeExecution) : NodeExecution :=
  { n with retryCount := n.retryCount + 1 }

end NodeExecution

/-- `GraphExecution`. -/
structure GraphExecution where
  workflowId : String := ""
  started : Bool := false
  completed : Bool := false
  aborted : Bool := false
  paused : Bool := false
  pauseReasons : List PauseReason := []
  error : Option PyError := none
  nodeExecutions : Std.ExtTreeMap NodeId NodeExecution := ∅
  exceptionsCount : Nat := 0

/-- `GraphExecutionState`: the payload of a dump. -/
structure GraphExecutionState where
  workflowId : String
  started : Bool
  completed : Bool
  aborted : Bool
  paused : Bool
  pauseReasons : List PauseReason
  error : Option PyError
  exceptionsCount : Nat
  nodeExecutions : List (NodeId × NodeExecution)
  deriving DecidableEq

namespace GraphExecution

/-- `GraphExecution.start`. -/
def start (x : GraphExecution) : Except PyError GraphExecution :=
  if x.started then .error ⟨.runtimeError, "Graph execution already started"⟩
  else .ok { x with started := true }

/-- `GraphExecution.complete`. -/
def complete (x : GraphExecution) : Except PyError GraphExecution :=
  if x.started = false then
    .error ⟨.runtimeError, "Cannot complete execution that hasn't started"⟩
  else if x.completed then .error ⟨.runtimeError, "Graph execution already completed"⟩
  else .ok { x with completed := true }

/-- `GraphExecution.abort`. -/
def abort (x : GraphExecution) (reason : String) : GraphExecution :=
  { x with aborted := true, error := some ⟨.runtimeError, "Aborted: " ++ reason⟩ }

/-- `GraphExecution.pause`. -/
def pause (x : GraphExecution) (reason : PauseReason) : Except PyError GraphExecution :=
  if x.completed then .error ⟨.runtimeError, "Cannot pause execution that has completed"⟩
  else if x.aborted then
    .error ⟨.runtimeError, "Cannot pause execution that has been aborted"⟩
  else .ok { x with paused := true, pauseReasons := x.pauseReasons ++ [reason] }

/-- `GraphExecution.fail`. -/
def fail (x : GraphExecution) (error : PyError) : GraphExecution :=
  { x with error := some error, completed := true }

/-- `GraphExecution.has_error`. -/
def hasError (x : GraphExecution) : Bool := x.error.isSome

/-- `GraphExecution.is_paused`. -/
def isPaused (x : GraphExecution) : Bool := x.paused

/-- `GraphExecution.get_or_create_node_execution`, read only. -/
def nodeExecution (x : GraphExecution) (id : NodeId) : NodeExecution :=
  x.nodeExecutions.getD id {}

/-- Replace the entity that `get_or_create_node_execution` returns. -/
def updateNodeExecution (x : GraphExecution) (id : NodeId)
    (f : NodeExecution → NodeExecution) : GraphExecution :=
  { x with nodeExecutions := x.nodeExecutions.insert id (f (x.nodeExecution id)) }

/-- `GraphExecution.record_node_failure`. -/
def recordNodeFailure (x : GraphExecution) : GraphExecution :=
  { x with exceptionsCount := x.exceptionsCount + 1 }

/-- `GraphExecution.dumps`. -/
def dumps (x : GraphExecution) : GraphExecutionState where
  workflowId := x.workflowId
  started := x.started
  completed := x.completed
  aborted := x.aborted
  paused := x.paused
  pauseReasons := x.pauseReasons
  error := x.error
  exceptionsCount := x.exceptionsCount
  nodeExecutions := x.nodeExecutions.toList

/-- `GraphExecution.loads`. The exception classes above are all rebuilt from their text. -/
def loads (x : GraphExecution) (s : GraphExecutionState) : Except PyError GraphExecution :=
  if x.workflowId ≠ s.workflowId then
    .error ⟨.valueError, "Serialized workflow_id does not match aggregate identity"⟩
  else .ok {
    workflowId := x.workflowId
    started := s.started
    completed := s.completed
    aborted := s.aborted
    paused := s.paused
    pauseReasons := s.pauseReasons
    error := s.error
    exceptionsCount := s.exceptionsCount
    nodeExecutions := .ofList s.nodeExecutions }

theorem pause_eq_ok {x y : GraphExecution} {reason : PauseReason} (h : x.pause reason = .ok y) :
    x.completed = false ∧ x.aborted = false ∧
      y = { x with paused := true, pauseReasons := x.pauseReasons ++ [reason] } := by
  unfold pause at h
  split at h
  next => cases h
  next hc =>
    split at h
    next => cases h
    next ha =>
      cases h
      exact ⟨by simpa using hc, by simpa using ha, rfl⟩

/-- Loading a dump into an aggregate of the same workflow gives the dumped aggregate. -/
theorem loads_dumps (x y : GraphExecution) (h : y.workflowId = x.workflowId) :
    y.loads x.dumps = .ok x := by
  simp [loads, dumps, h, Base.ofList_toList_map]

end GraphExecution
end PlatformSpec.Runtime
