import Mathlib.Data.Finset.Basic
import PlatformSpec.Workflow.Graph

/-!
# Graph state manager

Models `graph_engine/graph_state_manager.py`: node and edge states, the ready queue and
the set of executing nodes. Readiness and skipping are read off the states of the
incoming edges. The history of enqueues is a ghost field; no operation reads it.
-/

namespace PlatformSpec.Engine

open Workflow

/-- One enqueue: the node and the edge states at that moment. -/
structure EnqueueRecord where
  node : NodeId
  edgeState : EdgeId → NodeState

/-- State owned or shared by `GraphStateManager`. -/
structure Tracking where
  nodeState : NodeId → NodeState
  edgeState : EdgeId → NodeState
  readyQueue : List NodeId := []
  executingNodes : Finset NodeId := ∅
  history : List EnqueueRecord := []

/-- `EdgeStateAnalysis`. -/
structure EdgeStateAnalysis where
  hasUnknown : Bool
  hasTaken : Bool
  allSkipped : Bool
  deriving DecidableEq

namespace Tracking

/-- Every node and edge untouched; the state a plain graph starts in. -/
def fresh : Tracking := { nodeState := fun _ => .unknown, edgeState := fun _ => .unknown }

/-- Assign the state of one node. -/
def setNode (t : Tracking) (id : NodeId) (s : NodeState) : Tracking :=
  { t with nodeState := Function.update t.nodeState id s }

/-- Assign the state of one edge. -/
def setEdge (t : Tracking) (id : EdgeId) (s : NodeState) : Tracking :=
  { t with edgeState := Function.update t.edgeState id s }

/-- `GraphStateManager.enqueue_node`. -/
def enqueueNode (t : Tracking) (id : NodeId) : Tracking :=
  { t.setNode id .taken with
    readyQueue := t.readyQueue ++ [id]
    history := t.history ++ [⟨id, t.edgeState⟩] }

/-- `GraphStateManager.mark_node_skipped`. -/
def markNodeSkipped (t : Tracking) (id : NodeId) : Tracking := t.setNode id .skipped

/-- `GraphStateManager.mark_edge_taken`. -/
def markEdgeTaken (t : Tracking) (id : EdgeId) : Tracking := t.setEdge id .taken

/-- `GraphStateManager.mark_edge_skipped`. -/
def markEdgeSkipped (t : Tracking) (id : EdgeId) : Tracking := t.setEdge id .skipped

/-- `GraphStateManager.start_execution`. -/
def startExecution (t : Tracking) (id : NodeId) : Tracking :=
  { t with executingNodes := insert id t.executingNodes }

/-- `GraphStateManager.finish_execution`. -/
def finishExecution (t : Tracking) (id : NodeId) : Tracking :=
  { t with executingNodes := t.executingNodes.erase id }

/-- `enqueue_node` followed by `start_execution`, as every scheduling site does. -/
def schedule (t : Tracking) (id : NodeId) : Tracking := (t.enqueueNode id).startExecution id

/-- Schedule several nodes in order. -/
def scheduleAll (t : Tracking) (ids : List NodeId) : Tracking := ids.foldl schedule t

/-- `GraphStateManager.is_node_ready`. -/
def isNodeReady (t : Tracking) (g : Graph) (id : NodeId) : Bool :=
  let incoming := g.incoming id
  if incoming.isEmpty then true
  else if incoming.any fun e => t.edgeState e.id = .unknown then false
  else incoming.any fun e => t.edgeState e.id = .taken

/-- `GraphStateManager.analyze_edge_states`. -/
def analyzeEdgeStates (t : Tracking) (edges : List Edge) : EdgeStateAnalysis where
  hasUnknown := edges.any fun e => t.edgeState e.id = .unknown
  hasTaken := edges.any fun e => t.edgeState e.id = .taken
  allSkipped := edges.all fun e => t.edgeState e.id = .skipped

/-- `GraphStateManager.is_execution_complete`. -/
def isExecutionComplete (t : Tracking) : Bool :=
  t.readyQueue.isEmpty && t.executingNodes.card = 0

/-- The nodes enqueued so far, in order. -/
def enqueued (t : Tracking) : List NodeId := t.history.map EnqueueRecord.node

end Tracking

/-- `GraphStateManager.categorize_branch_edges`: selected and unselected edges. -/
def categorizeBranchEdges (g : Graph) (id : NodeId) (selectedHandle : String) :
    List Edge × List Edge :=
  (g.outgoing id).partition fun e => e.sourceHandle = selectedHandle

/-! ### Readiness of a node -/

/-- No incoming edge is unknown and one is taken. -/
def ReadyIn (g : Graph) (edgeState : EdgeId → NodeState) (v : NodeId) : Prop :=
  (∀ e ∈ g.incoming v, edgeState e.id ≠ .unknown) ∧ ∃ e ∈ g.incoming v, edgeState e.id = .taken

/-- There are incoming edges and all of them are skipped. -/
def AllSkipped (g : Graph) (edgeState : EdgeId → NodeState) (v : NodeId) : Prop :=
  g.incoming v ≠ [] ∧ ∀ e ∈ g.incoming v, edgeState e.id = .skipped

instance (g : Graph) (es : EdgeId → NodeState) (v : NodeId) : Decidable (ReadyIn g es v) :=
  inferInstanceAs (Decidable (_ ∧ _))

variable {es es' : EdgeId → NodeState} {v : NodeId} {g : Graph}

theorem ReadyIn.not_allSkipped (h : ReadyIn g es v) : ¬ AllSkipped g es v := by
  rintro ⟨-, hs⟩
  obtain ⟨-, e, he, ht⟩ := h
  rw [hs e he] at ht
  cases ht

/-- With every incoming edge known, a node that has incoming edges is ready or skipped. -/
theorem readyIn_or_allSkipped
    (hne : g.incoming v ≠ []) (h : ∀ e ∈ g.incoming v, es e.id ≠ .unknown) :
    ReadyIn g es v ∨ AllSkipped g es v := by
  by_cases ht : ∃ e ∈ g.incoming v, es e.id = .taken
  · exact .inl ⟨h, ht⟩
  · refine .inr ⟨hne, fun e he => ?_⟩
    cases hs : es e.id with
    | unknown => exact absurd hs (h e he)
    | taken => exact absurd ⟨e, he, hs⟩ ht
    | skipped => rfl

theorem readyIn_congr
    (h : ∀ e ∈ g.incoming v, es e.id = es' e.id) : ReadyIn g es v ↔ ReadyIn g es' v := by
  unfold ReadyIn
  constructor
  · rintro ⟨hu, e, he, ht⟩
    exact ⟨fun f hf => by rw [← h f hf]; exact hu f hf, e, he, by rw [← h e he]; exact ht⟩
  · rintro ⟨hu, e, he, ht⟩
    exact ⟨fun f hf => by rw [h f hf]; exact hu f hf, e, he, by rw [h e he]; exact ht⟩

theorem allSkipped_congr
    (h : ∀ e ∈ g.incoming v, es e.id = es' e.id) : AllSkipped g es v ↔ AllSkipped g es' v := by
  unfold AllSkipped
  constructor
  · rintro ⟨hne, hs⟩
    exact ⟨hne, fun e he => by rw [← h e he]; exact hs e he⟩
  · rintro ⟨hne, hs⟩
    exact ⟨hne, fun e he => by rw [h e he]; exact hs e he⟩

namespace Tracking

variable (t : Tracking) (g : Graph)

@[simp] theorem setNode_edgeState (id : NodeId) (s : NodeState) :
    (t.setNode id s).edgeState = t.edgeState := rfl

@[simp] theorem setNode_nodeState (id : NodeId) (s : NodeState) :
    (t.setNode id s).nodeState = Function.update t.nodeState id s := rfl

@[simp] theorem setEdge_nodeState (id : EdgeId) (s : NodeState) :
    (t.setEdge id s).nodeState = t.nodeState := rfl

@[simp] theorem setEdge_edgeState (id : EdgeId) (s : NodeState) :
    (t.setEdge id s).edgeState = Function.update t.edgeState id s := rfl

@[simp] theorem setEdge_readyQueue (id : EdgeId) (s : NodeState) :
    (t.setEdge id s).readyQueue = t.readyQueue := rfl

@[simp] theorem setEdge_executingNodes (id : EdgeId) (s : NodeState) :
    (t.setEdge id s).executingNodes = t.executingNodes := rfl

@[simp] theorem setEdge_history (id : EdgeId) (s : NodeState) :
    (t.setEdge id s).history = t.history := rfl

@[simp] theorem schedule_edgeState (id : NodeId) :
    (t.schedule id).edgeState = t.edgeState := rfl

@[simp] theorem schedule_nodeState (id : NodeId) :
    (t.schedule id).nodeState = Function.update t.nodeState id .taken := rfl

@[simp] theorem schedule_readyQueue (id : NodeId) :
    (t.schedule id).readyQueue = t.readyQueue ++ [id] := rfl

@[simp] theorem schedule_executingNodes (id : NodeId) :
    (t.schedule id).executingNodes = insert id t.executingNodes := rfl

@[simp] theorem schedule_history (id : NodeId) :
    (t.schedule id).history = t.history ++ [⟨id, t.edgeState⟩] := rfl

@[simp] theorem enqueued_schedule (id : NodeId) :
    (t.schedule id).enqueued = t.enqueued ++ [id] := by
  simp [enqueued]

@[simp] theorem finishExecution_nodeState (id : NodeId) :
    (t.finishExecution id).nodeState = t.nodeState := rfl

@[simp] theorem finishExecution_edgeState (id : NodeId) :
    (t.finishExecution id).edgeState = t.edgeState := rfl

@[simp] theorem finishExecution_readyQueue (id : NodeId) :
    (t.finishExecution id).readyQueue = t.readyQueue := rfl

@[simp] theorem finishExecution_history (id : NodeId) :
    (t.finishExecution id).history = t.history := rfl

@[simp] theorem finishExecution_executingNodes (id : NodeId) :
    (t.finishExecution id).executingNodes = t.executingNodes.erase id := rfl

/-- Scheduling several nodes: they become taken, queued, executing and recorded. -/
theorem scheduleAll_spec (ids : List NodeId) :
    (t.scheduleAll ids).edgeState = t.edgeState ∧
    (∀ v, (t.scheduleAll ids).nodeState v = if v ∈ ids then .taken else t.nodeState v) ∧
    (t.scheduleAll ids).readyQueue = t.readyQueue ++ ids ∧
    (∀ v, v ∈ (t.scheduleAll ids).executingNodes ↔ v ∈ t.executingNodes ∨ v ∈ ids) ∧
    (t.scheduleAll ids).history = t.history ++ ids.map (⟨·, t.edgeState⟩) := by
  unfold scheduleAll
  induction ids generalizing t with
  | nil => simp
  | cons a ids ih =>
    obtain ⟨he, hn, hq, hx, hh⟩ := ih (t.schedule a)
    rw [List.foldl_cons]
    refine ⟨he, fun v => ?_, ?_, fun v => ?_, ?_⟩
    · rw [hn, schedule_nodeState]
      by_cases hv : v ∈ ids
      · simp [hv]
      · by_cases ha : v = a
        · simp [ha]
        · simp [hv, ha]
    · rw [hq]
      simp
    · rw [hx, schedule_executingNodes, Finset.mem_insert, List.mem_cons]
      tauto
    · rw [hh]
      simp

theorem isNodeReady_iff {v : NodeId} (hne : g.incoming v ≠ []) :
    t.isNodeReady g v = true ↔ ReadyIn g t.edgeState v := by
  unfold isNodeReady ReadyIn
  have he : (g.incoming v).isEmpty = false := by simpa using hne
  simp only [he, Bool.false_eq_true, ↓reduceIte]
  by_cases hu : ∃ e ∈ g.incoming v, t.edgeState e.id = .unknown
  · have ha : ((g.incoming v).any fun e => t.edgeState e.id = .unknown) = true := by
      simpa using hu
    rw [if_pos ha]
    obtain ⟨e, hm, hs⟩ := hu
    constructor
    · intro h
      cases h
    · rintro ⟨hn, -⟩
      exact absurd hs (hn e hm)
  · have ha : ((g.incoming v).any fun e => t.edgeState e.id = .unknown) = false := by
      simpa using hu
    simp only [ha, Bool.false_eq_true, ↓reduceIte, List.any_eq_true, decide_eq_true_eq]
    constructor
    · intro ht
      exact ⟨fun e hm hs => hu ⟨e, hm, hs⟩, ht⟩
    · exact fun h => h.2

end Tracking
end PlatformSpec.Engine
