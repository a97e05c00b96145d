import PlatformSpec.Engine.StateManager
import PlatformSpec.Response.Coordinator

/-!
# Graph traversal

Models `graph_engine/graph_traversal/skip_propagator.py` and `edge_processor.py`. The
recursion of the skip propagator is bounded by the number of nodes, which no path of an
acyclic graph exceeds; running out of it is Python's `RecursionError`.
-/

namespace PlatformSpec.Engine

open PlatformSpec.Runtime Workflow Response

/-- Mark edges as skipped one after another, visiting each right after it is marked. -/
def skipEach (visit : Edge → Tracking → Outcome Tracking) :
    List Edge → Tracking → Outcome Tracking
  | [], t => (t, none)
  | e :: es, t => (visit e (t.markEdgeSkipped e.id)).andThen (skipEach visit es)

/-- Raised when a recursion follows a cycle. -/
def recursionError : PyError := ⟨.recursionError, "maximum recursion depth exceeded"⟩

/-- `propagate_skip_from_edge`, with `_propagate_skip_to_node` in its last branch. -/
def propagateSkipFromEdge (g : Graph) : (fuel : Nat) → Edge → Tracking → Outcome Tracking
  | 0, _, t => (t, some recursionError)
  | fuel + 1, e, t =>
    let edgeStates := t.analyzeEdgeStates (g.incoming e.head)
    if edgeStates.hasUnknown then (t, none)
    else if edgeStates.hasTaken then (t.schedule e.head, none)
    else if edgeStates.allSkipped then
      skipEach (propagateSkipFromEdge g fuel) (g.outgoing e.head) (t.markNodeSkipped e.head)
    else (t, none)

/-- `skip_branch_paths`. -/
def skipBranchPaths (g : Graph) (unselectedEdges : List Edge) (t : Tracking) :
    Outcome Tracking :=
  skipEach (propagateSkipFromEdge g (g.nodes.length + 1)) unselectedEdges t

/-- What edge processing changes and returns: the ready nodes and streaming events. -/
structure EdgeResult where
  tracking : Tracking
  coordinator : Coordinator
  readyNodes : List NodeId := []
  events : List Emission := []

section EdgeProcessor

variable (g : Graph) (pool : VariablePool)

/-- `_process_taken_edge`. -/
def processTakenEdge (x : EdgeResult) (e : Edge) : EdgeResult :=
  let t := x.tracking.markEdgeTaken e.id
  let (c, events) := x.coordinator.onEdgeTaken ⟨g, t.nodeState, pool⟩ e.id
  { tracking := t
    coordinator := c
    readyNodes := x.readyNodes ++ (if t.isNodeReady g e.head then [e.head] else [])
    events := x.events ++ events }

/-- `_process_skipped_edge`. -/
def processSkippedEdge (x : EdgeResult) (e : Edge) : EdgeResult :=
  { x with tracking := x.tracking.markEdgeSkipped e.id }

/-- `_process_non_branch_node_edges`. -/
def processNonBranchNodeEdges (nodeId : NodeId) (x : EdgeResult) : EdgeResult :=
  (g.outgoing nodeId).foldl (processTakenEdge g pool) x

/-- `_process_branch_node_edges`. -/
def processBranchNodeEdges (nodeId : NodeId) (selectedHandle : String) (x : EdgeResult) :
    Outcome EdgeResult :=
  if selectedHandle = "" then
    (x, some ⟨.valueError, "Branch node " ++ nodeId ++ " did not select any edge"⟩)
  else
    let (selected, unselected) := categorizeBranchEdges g nodeId selectedHandle
    (selected.foldl (processTakenEdge g pool) (unselected.foldl processSkippedEdge x), none)

/-- `process_node_success`. -/
def processNodeSuccess (nodeId : NodeId) (selectedHandle : String) (x : EdgeResult) :
    Outcome EdgeResult :=
  if g.executionType nodeId = .branch then processBranchNodeEdges g pool nodeId selectedHandle x
  else (processNonBranchNodeEdges g pool nodeId x, none)

/-- `handle_branch_completion`. -/
def handleBranchCompletion (nodeId : NodeId) (selectedHandle : String) (x : EdgeResult) :
    Outcome EdgeResult :=
  if selectedHandle = "" then
    (x, some ⟨.valueError,
      "Branch node " ++ nodeId ++ " completed without selecting a branch"⟩)
  else
    let (t, raised) :=
      skipBranchPaths g (categorizeBranchEdges g nodeId selectedHandle).2 x.tracking
    Outcome.andThen ({ x with tracking := t }, raised) fun x =>
      processNodeSuccess g pool nodeId selectedHandle x

/-! ### What the coordinator sees of edge processing -/

/-- The edges a completed node takes. -/
def selectedEdges (nodeId : NodeId) (handle : String) : List Edge :=
  if g.executionType nodeId = .branch then (categorizeBranchEdges g nodeId handle).1
  else g.outgoing nodeId

theorem mem_selectedEdges {nodeId : NodeId} {handle : String} {e : Edge} :
    e ∈ selectedEdges g nodeId handle ↔ e ∈ g.outgoing nodeId ∧
      (g.executionType nodeId = .branch → e.sourceHandle = handle) := by
  unfold selectedEdges categorizeBranchEdges
  rw [List.partition_eq_filter_filter]
  split
  next hb => simp [hb]
  next hb => simp [hb]

private theorem foldl_processSkippedEdge_tracking (es : List Edge) (x : EdgeResult) :
    ∃ t, es.foldl processSkippedEdge x = { x with tracking := t } := by
  induction es generalizing x with
  | nil => exact ⟨x.tracking, rfl⟩
  | cons e es ih =>
    obtain ⟨t, ht⟩ := ih (processSkippedEdge x e)
    exact ⟨t, by rw [List.foldl_cons, ht]; rfl⟩

variable (nodeId : NodeId) (handle : String) (x : EdgeResult)

/-- Either nothing happened and a branch without a handle is reported, or the selected
edges were taken one after another. -/
theorem processNodeSuccess_eq :
    (∃ e, processNodeSuccess g pool nodeId handle x = (x, some e)) ∨
    ∃ t, processNodeSuccess g pool nodeId handle x =
      ((selectedEdges g nodeId handle).foldl (processTakenEdge g pool) { x with tracking := t },
        none) := by
  unfold processNodeSuccess selectedEdges
  split
  next =>
    unfold processBranchNodeEdges
    split
    next => exact .inl ⟨_, rfl⟩
    next =>
      obtain ⟨t, ht⟩ := foldl_processSkippedEdge_tracking
        (categorizeBranchEdges g nodeId handle).2 x
      exact .inr ⟨t, by rw [← ht]⟩
  next => exact .inr ⟨x.tracking, rfl⟩

theorem handleBranchCompletion_eq :
    (∃ t e, handleBranchCompletion g pool nodeId handle x = ({ x with tracking := t }, some e)) ∨
    ∃ t, handleBranchCompletion g pool nodeId handle x =
      ((selectedEdges g nodeId handle).foldl (processTakenEdge g pool) { x with tracking := t },
        none) := by
  unfold handleBranchCompletion
  split
  next => exact .inl ⟨x.tracking, _, rfl⟩
  next =>
    generalize skipBranchPaths g (categorizeBranchEdges g nodeId handle).2 x.tracking = r
    obtain ⟨t, raised⟩ := r
    cases raised with
    | some e => exact .inl ⟨t, e, rfl⟩
    | none =>
      simp only [Outcome.andThen_none]
      rcases processNodeSuccess_eq g pool nodeId handle { x with tracking := t } with
        ⟨e, he⟩ | ⟨t', ht'⟩
      · exact .inl ⟨t, e, he⟩
      · exact .inr ⟨t', ht'⟩

variable {nodeId handle x}

theorem processNodeSuccess_returns (h : g.executionType nodeId = .branch → handle ≠ "") :
    (processNodeSuccess g pool nodeId handle x).2 = none := by
  unfold processNodeSuccess processBranchNodeEdges
  split
  next hb => rw [if_neg (h hb)]
  next => rfl

/-- A branch is completed when it names a handle and skip propagation comes to an end. -/
theorem handleBranchCompletion_returns (h : handle ≠ "")
    (hs : (skipBranchPaths g (categorizeBranchEdges g nodeId handle).2 x.tracking).2 = none) :
    (handleBranchCompletion g pool nodeId handle x).2 = none := by
  unfold handleBranchCompletion
  rw [if_neg h]
  generalize skipBranchPaths g (categorizeBranchEdges g nodeId handle).2 x.tracking = r at hs
  obtain ⟨t, raised⟩ := r
  subst hs
  exact processNodeSuccess_returns g pool fun _ => h

end EdgeProcessor

end PlatformSpec.Engine
