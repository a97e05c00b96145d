import PlatformSpec.Runtime.GraphExecution

/-!
# Response stream coordinator

Models `graph_engine/response_coordinator/coordinator.py`, `path.py` and `session.py`.
Every emitted event is tagged with the response node whose session was active; the tag is
ghost, and so is the record of activated sessions. Python iterates the set of response
nodes in an order of its own, so a coordinator carries that order. Fresh execution ids are
symbolic: one per node that needs one.
-/

namespace PlatformSpec.Response

open Base PlatformSpec.Runtime Workflow

/-- `NodeRunStreamChunkEvent`. -/
structure StreamChunk where
  id : ExecutionId
  nodeId : NodeId
  nodeType : String
  selector : Selector
  chunk : String
  isFinal : Bool := false
  deriving DecidableEq

/-- An emitted event and, as a ghost, the session that was active when it was emitted. -/
structure Emission where
  session : NodeId
  event : StreamChunk
  deriving DecidableEq

/-- `ResponseSession`. -/
structure ResponseSession where
  nodeId : NodeId
  template : Template
  index : Nat := 0
  deriving DecidableEq

/-- `RESPONSE_SESSION_NODE_TYPES`. -/
def responseSessionNodeTypes : List String := ["answer", "end"]

namespace ResponseSession

/-- `ResponseSession.from_node`. -/
def fromNode (n : Node) : Except PyError ResponseSession :=
  if n.nodeType ∉ responseSessionNodeTypes then
    .error ⟨.typeError, "ResponseSession.from_node only supports node types in " ++
      "RESPONSE_SESSION_NODE_TYPES: " ++ ", ".intercalate responseSessionNodeTypes⟩
  else
    match n.getStreamingTemplate with
    | none => .error ⟨.typeError,
        "ResponseSession.from_node requires get_streaming_template() on response nodes"⟩
    | some template => .ok { nodeId := n.id, template }

/-- `ResponseSession.is_complete`. -/
def isComplete (s : ResponseSession) : Bool := s.template.segments.length ≤ s.index

/-- The segment at the current index has been dealt with. -/
def advance (s : ResponseSession) : ResponseSession := { s with index := s.index + 1 }

/-- `_active_session.index == len(_active_session.template.segments) - 1`. -/
def isLastSegment (s : ResponseSession) : Bool := s.index + 1 = s.template.segments.length

end ResponseSession

/-- `Path`: the blocking edges still to be taken. -/
abbrev Path := List EdgeId

/-- What the coordinator reads of the graph and of the variable pool at a call. -/
structure View where
  graph : Graph
  nodeState : NodeId → NodeState
  variablePool : VariablePool

/-- The node a selector names is in the graph and skipped; `coordinator.py:499–506`. -/
def View.sourceSkipped (v : View) (selector : Selector) : Bool :=
  v.graph.hasNode (selector.headD "") && v.nodeState (selector.headD "") = .skipped

/-- `ResponseStreamCoordinator`, with the iteration order of its response node set. -/
structure Coordinator where
  setOrder : SetOrder NodeId := .ascending
  activeSession : Option ResponseSession := none
  waitingSessions : List ResponseSession := []
  streamBuffers : Std.ExtTreeMap Selector (List StreamChunk) := ∅
  streamPositions : Std.ExtTreeMap Selector Nat := ∅
  closedStreams : Std.ExtTreeSet Selector := ∅
  responseNodes : Std.ExtTreeSet NodeId := ∅
  pathsMaps : Std.ExtTreeMap NodeId (List Path) := ∅
  nodeExecutionIds : Std.ExtTreeMap NodeId ExecutionId := ∅
  responseSessions : Std.ExtTreeMap NodeId ResponseSession := ∅
  activations : List NodeId := []

/-- `_build_paths_map.find_paths`: all paths to the target that visit no node twice.
`fuel` bounds the depth; a path has fewer edges than the graph has nodes. -/
def findPaths (g : Graph) (target : NodeId) :
    (fuel : Nat) → NodeId → List Edge → List NodeId → List (List Edge)
  | 0, _, _, _ => []
  | fuel + 1, current, currentPath, visited =>
    if current = target then [currentPath]
    else (g.outgoing current).flatMap fun e =>
      if e.head ∈ current :: visited then []
      else findPaths g target fuel e.head (currentPath ++ [e]) (current :: visited)

/-- The first two elements of every variable selector of the template. -/
def variableSelectors (template : Template) : List Selector :=
  template.segments.filterMap fun
    | .variable selector => some (selector.take 2)
    | .text _ => none

/-- Edges out of branch, container and response nodes, and of nodes that write a variable
of the template, hold a response back; `coordinator.py:212–222`. -/
def isBlocking (g : Graph) (selectors : List Selector) (e : Edge) : Bool :=
  g.executionType e.tail ∈ [.branch, .container, .response] ||
    match g.node? e.tail with
    | some n => n.blocksVariableOutput selectors
    | none => false

namespace Coordinator

variable (v : View) (c : Coordinator)

/-- `_build_paths_map`. -/
def buildPathsMap (g : Graph) (n : Node) : Except PyError (List Path) :=
  if g.root = n.id then .ok [[]]
  else do
    let session ← ResponseSession.fromNode n
    let selectors := variableSelectors session.template
    return (findPaths g n.id (g.nodes.length + 1) g.root [] []).map fun path =>
      (path.filter (isBlocking g selectors)).map Edge.id

/-- `ResponseStreamCoordinator.register`. -/
def register (g : Graph) (n : Node) : Except PyError Coordinator :=
  if n.id ∈ c.responseNodes then .ok c
  else do
    let paths ← buildPathsMap g n
    let session ← ResponseSession.fromNode n
    return { c with
      responseNodes := c.responseNodes.insert n.id
      pathsMaps := c.pathsMaps.insert n.id paths
      responseSessions := c.responseSessions.insert n.id session }

/-- `track_node_execution`. -/
def trackNodeExecution (nodeId : NodeId) (executionId : ExecutionId) : Coordinator :=
  { c with nodeExecutionIds := c.nodeExecutionIds.insert nodeId executionId }

/-- `_get_or_create_execution_id`: the id and the coordinator that remembers it. -/
def getOrCreateExecutionId (nodeId : NodeId) : Coordinator × ExecutionId :=
  match c.nodeExecutionIds[nodeId]? with
  | some id => (c, id)
  | none => (c.trackNodeExecution nodeId (.generated nodeId), .generated nodeId)

/-- `_create_stream_chunk_event`; `active` is the node of the active session. -/
def createStreamChunkEvent (active nodeId : NodeId) (executionId : ExecutionId)
    (selector : Selector) (chunk : String) (isFinal : Bool) : StreamChunk :=
  let node :=
    match selector with
    | source :: _ => if v.graph.hasNode source then nodeId else active
    | [] => nodeId
  { id := executionId, nodeId := node, nodeType := v.graph.nodeType node, selector, chunk,
    isFinal }

/-- The chunks `_pop_stream_chunk` has not returned yet. -/
def unread (selector : Selector) : List StreamChunk :=
  (c.streamBuffers.getD selector []).drop (c.streamPositions.getD selector 0)

/-- Pop every unread chunk of a stream; the loop of `coordinator.py:380–402`. -/
def readAll (selector : Selector) : Coordinator :=
  if (c.unread selector).isEmpty then c
  else { c with streamPositions :=
    c.streamPositions.insert selector (c.streamBuffers.getD selector []).length }

/-- `_process_variable_segment` for the active session `s`. -/
def processVariableSegment (s : ResponseSession) (selector : Selector) :
    Coordinator × List StreamChunk × Bool :=
  let source := selector.headD ""
  let outputNodeId := if v.graph.hasNode source then source else s.nodeId
  let (c, executionId) := c.getOrCreateExecutionId outputNodeId
  let events := (c.unread selector).map fun event =>
    if v.graph.hasNode source then event
    else { event with
      id := executionId, nodeId := s.nodeId, nodeType := v.graph.nodeType s.nodeId }
  let c := c.readAll selector
  if selector ∈ c.closedStreams then (c, events, true)
  else
    match v.variablePool.get selector with
    | some value =>
      (c, events ++ [createStreamChunkEvent v s.nodeId outputNodeId executionId selector
        value.markdown s.isLastSegment], true)
    | none => (c, events, false)

/-- `_process_text_segment` for the active session `s`. -/
def processTextSegment (s : ResponseSession) (text : String) : Coordinator × StreamChunk :=
  let (c, executionId) := c.getOrCreateExecutionId s.nodeId
  (c, createStreamChunkEvent v s.nodeId s.nodeId executionId [s.nodeId, "answer"] text
    s.isLastSegment)

/-- The segment loop of `try_flush`, over the segments from the current index on. -/
def flushSegments : List TemplateSegment → Coordinator → ResponseSession →
    Coordinator × ResponseSession × List StreamChunk
  | [], c, s => (c, s, [])
  | .variable selector :: rest, c, s =>
    if v.sourceSkipped selector then flushSegments rest c s.advance
    else
      let (c, events, isComplete) := c.processVariableSegment v s selector
      if isComplete then
        let r := flushSegments rest c s.advance
        (r.1, r.2.1, events ++ r.2.2)
      else (c, s, events)
  | .text text :: rest, c, s =>
    let (c, event) := c.processTextSegment v s text
    let r := flushSegments rest c s.advance
    (r.1, r.2.1, event :: r.2.2)

/-- `try_flush` with active session `s` and its call of `end_session`, which pops the next
waiting session and flushes that one. -/
def flushSession : List ResponseSession → Coordinator → ResponseSession →
    Coordinator × List Emission
  | waiting, c, s =>
    let (c, s', events) := flushSegments v (s.template.segments.drop s.index) c s
    let emitted := events.map (Emission.mk s.nodeId)
    if s'.isComplete then
      match waiting with
      | [] => ({ c with activeSession := none, waitingSessions := [] }, emitted)
      | next :: rest =>
        let r := flushSession rest c next
        (r.1, emitted ++ r.2)
    else ({ c with activeSession := some s', waitingSessions := waiting }, emitted)

/-- `try_flush`. -/
def tryFlush : Coordinator × List Emission :=
  match c.activeSession with
  | none => (c, [])
  | some s => flushSession v c.waitingSessions c s

/-- `end_session`. -/
def endSession (nodeId : NodeId) : Coordinator × List Emission :=
  match c.activeSession with
  | none => (c, [])
  | some s =>
    if s.nodeId = nodeId then
      match c.waitingSessions with
      | [] => ({ c with activeSession := none }, [])
      | next :: rest => flushSession v rest c next
    else (c, [])

/-- `_active_or_queue_session`. -/
def activeOrQueueSession (nodeId : NodeId) : Coordinator × List Emission :=
  match c.responseSessions[nodeId]? with
  | none => (c, [])
  | some session =>
    let c := { c with
      responseSessions := c.responseSessions.erase nodeId
      activations := c.activations ++ [nodeId] }
    match c.activeSession with
    | none => { c with activeSession := some session }.tryFlush v
    | some _ => ({ c with waitingSessions := c.waitingSessions ++ [session] }, [])

/-- The body of the loop in `on_edge_taken`, for one response node. -/
def updateResponseNode (edgeId : EdgeId) (nodeId : NodeId) : Coordinator × List Emission :=
  match c.pathsMaps[nodeId]? with
  | none => (c, [])
  | some paths =>
    let paths := paths.map (·.erase edgeId)
    let c := { c with pathsMaps := c.pathsMaps.insert nodeId paths }
    if paths.any List.isEmpty then c.activeOrQueueSession v nodeId else (c, [])

/-- Run the loop body over the response nodes, collecting the events. -/
def updateResponseNodes (edgeId : EdgeId) : List NodeId → Coordinator →
    Coordinator × List Emission
  | [], c => (c, [])
  | id :: ids, c =>
    let r := c.updateResponseNode v edgeId id
    let r' := updateResponseNodes edgeId ids r.1
    (r'.1, r.2 ++ r'.2)

/-- `on_edge_taken`. -/
def onEdgeTaken (edgeId : EdgeId) : Coordinator × List Emission :=
  updateResponseNodes v edgeId (c.setOrder.iterate c.responseNodes) c

/-- `_append_stream_chunk`. -/
def appendStreamChunk (event : StreamChunk) : Except PyError Coordinator :=
  if event.selector ∈ c.closedStreams then
    .error ⟨.valueError, "Stream " ++ ".".intercalate event.selector ++ " is already closed"⟩
  else .ok { c with
    streamBuffers := c.streamBuffers.insert event.selector
      (c.streamBuffers.getD event.selector [] ++ [event])
    streamPositions :=
      if event.selector ∈ c.streamBuffers then c.streamPositions
      else c.streamPositions.insert event.selector 0 }

/-- `_close_stream`. -/
def closeStream (selector : Selector) : Coordinator :=
  { c with closedStreams := c.closedStreams.insert selector }

/-- `intercept_event` on a stream chunk. -/
def interceptChunk (event : StreamChunk) : Except PyError (Coordinator × List Emission) := do
  let c ← c.appendStreamChunk event
  let c := if event.isFinal then c.closeStream event.selector else c
  return c.tryFlush v

/-- `intercept_event` on a node success: the pool is shared, so only a flush. -/
def interceptSucceeded : Coordinator × List Emission := c.tryFlush v

end Coordinator

/-! ### Snapshots -/

/-- `ResponseSessionState`. -/
structure ResponseSessionState where
  nodeId : NodeId
  index : Nat
  deriving DecidableEq

/-- `ResponseStreamCoordinatorState`, the payload of a dump. -/
structure CoordinatorState where
  responseNodes : List NodeId
  activeSession : Option ResponseSessionState
  waitingSessions : List ResponseSessionState
  pendingSessions : List ResponseSessionState
  nodeExecutionIds : List (NodeId × ExecutionId)
  pathsMap : List (NodeId × List Path)
  streamBuffers : List (Selector × List StreamChunk)
  streamPositions : List (Selector × Nat)
  closedStreams : List Selector
  deriving DecidableEq

namespace Coordinator

/-- `_serialize_session`. -/
def serializeSession (s : ResponseSession) : ResponseSessionState := ⟨s.nodeId, s.index⟩

/-- `_session_from_state`. -/
def sessionFromState (g : Graph) (st : ResponseSessionState) : Except PyError ResponseSession :=
  match g.node? st.nodeId with
  | none => .error ⟨.valueError,
      "Unknown response node '" ++ st.nodeId ++ "' in serialized state"⟩
  | some n => do
    let session ← ResponseSession.fromNode n
    return { session with index := st.index }

/-- `ResponseStreamCoordinator.dumps`. -/
def dumps (c : Coordinator) : CoordinatorState where
  responseNodes := c.responseNodes.toList
  activeSession := c.activeSession.map serializeSession
  waitingSessions := c.waitingSessions.map serializeSession
  pendingSessions := c.responseSessions.toList.map fun p => serializeSession p.2
  nodeExecutionIds := c.nodeExecutionIds.toList
  pathsMap := c.pathsMaps.toList
  streamBuffers := c.streamBuffers.toList
  streamPositions := c.streamPositions.toList
  closedStreams := c.closedStreams.toList

/-- `setdefault(selector, 0)` for every buffered stream; `coordinator.py:683–684`. -/
def defaultPositions (buffers : List (Selector × List StreamChunk))
    (positions : Std.ExtTreeMap Selector Nat) : Std.ExtTreeMap Selector Nat :=
  buffers.foldl (fun m b => if b.1 ∈ m then m else m.insert b.1 0) positions

/-- `ResponseStreamCoordinator.loads` into a coordinator on graph `g` whose restored set
iterates in order `o`. -/
def loads (g : Graph) (o : SetOrder NodeId) (st : CoordinatorState) :
    Except PyError Coordinator := do
  let waiting ← st.waitingSessions.mapM (sessionFromState g)
  let pending ← st.pendingSessions.mapM fun p => do
    return (p.nodeId, ← sessionFromState g p)
  let active ← st.activeSession.mapM (sessionFromState g)
  return {
    setOrder := o
    activeSession := active
    waitingSessions := waiting
    streamBuffers := .ofList st.streamBuffers
    streamPositions := defaultPositions st.streamBuffers (.ofList st.streamPositions)
    closedStreams := .ofList st.closedStreams
    responseNodes := .ofList st.responseNodes
    pathsMaps := .ofList st.pathsMap
    nodeExecutionIds := .ofList st.nodeExecutionIds
    responseSessions := .ofList pending }

end Coordinator
end PlatformSpec.Response
