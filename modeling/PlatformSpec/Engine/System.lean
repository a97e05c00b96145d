import PlatformSpec.Base.Result
import PlatformSpec.Base.Run
import PlatformSpec.Engine.Handlers

/-!
# The engine as a system

Models `graph_engine/orchestration/dispatcher.py`, `execution_coordinator.py`,
`command_processing/`, `worker.py` and `graph_engine.py`, with the marking of inactive
roots in `Graph.init`. Workers take nodes from the ready queue and put the events of each
run in order; the dispatcher handles the events of different nodes in any order. Commands
are fetched at the points where the dispatcher polls the command channel.
-/

namespace PlatformSpec.Engine

open Base PlatformSpec.Runtime Workflow Response

/-! ### Initial states of a graph -/

/-- The inactive top-level roots, when the active root is one of several. -/
def inactiveRoots (g : Graph) : List NodeId :=
  let topLevelRoots := (g.nodes.filter fun n => n.executionType = .root).map Node.id
  if topLevelRoots.length ≤ 1 || g.root ∉ topLevelRoots then []
  else topLevelRoots.filter (· ≠ g.root)

/-- One outgoing edge of a skipped node in `mark_downstream`; `visit` marks a target whose
incoming edges are all skipped. -/
def markEach (g : Graph) (visit : NodeId → Tracking → Tracking) :
    List Edge → Tracking → Tracking
  | [], t => t
  | e :: es, t =>
    let t := t.markEdgeSkipped e.id
    let t :=
      if (g.incoming e.head).all fun f => t.edgeState f.id = .skipped then
        visit e.head (t.markNodeSkipped e.head)
      else t
    markEach g visit es t

/-- `mark_downstream`. -/
def markDownstream (g : Graph) : (fuel : Nat) → NodeId → Tracking → Tracking
  | 0, _, t => t
  | fuel + 1, id, t =>
    if t.nodeState id ≠ .skipped then t
    else markEach g (markDownstream g fuel) (g.outgoing id) t

/-- `Graph._mark_inactive_root_branches` on an untouched graph. -/
def initialTracking (g : Graph) : Tracking :=
  let t := (inactiveRoots g).foldl Tracking.markNodeSkipped .fresh
  (inactiveRoots g).foldl (fun t id => markDownstream g (g.nodes.length + 1) id t) t

/-- A freshly initialised graph. -/
def initGraph (g : Graph) : AttachedGraph :=
  ⟨g, (initialTracking g).nodeState, (initialTracking g).edgeState⟩

/-! ### Commands -/

/-- `GraphEngineCommand`. -/
inductive Command where
  | abort (reason : Option String)
  | pause (reason : String)
  | updateVariables (updates : List (Selector × Segment))

/-- One entry of `UpdateVariablesCommandHandler.handle`; `VariablePool.add` raises on every
selector that is not a pair, and the entry is skipped. -/
def updateVariable (pool : VariablePool) (update : Selector × Segment) : VariablePool :=
  match update.1 with
  | [nodeId, name] => pool.add nodeId name update.2
  | _ => pool

namespace EngineState

/-- The command handlers. A handler that raises leaves the state alone: the exception is
logged; `command_processor.py:67–71`. -/
def handleCommand (x : EngineState) : Command → EngineState
  | .abort reason =>
    let reason := (reason.filter (· ≠ "")).getD "User requested abort"
    { x with execution := x.execution.abort reason }
  | .pause reason =>
    match x.execution.pause (.schedulingPause reason) with
    | .ok execution => { x with execution }
    | .error _ => x
  | .updateVariables updates =>
    let pool := updates.foldl updateVariable x.data.variablePool
    { x with data := { x.data with variablePool := pool } }

/-- `CommandProcessor.process_commands`. -/
def processCommands (x : EngineState) (commands : List Command) : EngineState :=
  commands.foldl handleCommand x

/-- `ExecutionCoordinator.aborted`. -/
def isAborted (x : EngineState) : Bool := x.execution.aborted || x.execution.hasError

/-- `ExecutionCoordinator.mark_failed`. -/
def markFailed (x : EngineState) (e : PyError) : EngineState :=
  { x with execution := x.execution.fail e }

/-- `ExecutionCoordinator.mark_complete`; it only completes a started execution that is
neither paused nor completed. -/
def markComplete (x : EngineState) : EngineState :=
  if x.execution.isPaused || x.execution.completed then x
  else
    match x.execution.complete with
    | .ok execution => { x with execution }
    | .error _ => x

theorem markComplete_eq (x : EngineState) : x.markComplete =
    { x with execution := { x.execution with
        completed := x.execution.completed || (x.execution.started && !x.execution.paused) } } := by
  obtain ⟨t, c, ⟨w, st, co, ab, pa, pr, er, ne, ec⟩, d, col⟩ := x
  cases st <;> cases co <;> cases pa <;> rfl

/-- A command aborts the run, pauses one that is neither completed nor aborted, or changes
nothing but variables. -/
theorem handleCommand_cases (x : EngineState) (c : Command) :
    (∃ reason message, c = .abort reason ∧
      x.handleCommand c = { x with execution := x.execution.abort message }) ∨
    (∃ reason, x.execution.completed = false ∧ x.execution.aborted = false ∧
      x.handleCommand c = { x with execution := { x.execution with
        paused := true, pauseReasons := x.execution.pauseReasons ++ [reason] } }) ∨
    ∃ pool, x.handleCommand c = { x with data := { x.data with variablePool := pool } } := by
  cases c with
  | abort reason => exact .inl ⟨reason, _, rfl, rfl⟩
  | updateVariables updates => exact .inr (.inr ⟨_, rfl⟩)
  | pause reason =>
    simp only [handleCommand]
    split
    next execution hp =>
      obtain ⟨hcompleted, haborted, rfl⟩ := GraphExecution.pause_eq_ok hp
      exact .inr (.inl ⟨_, hcompleted, haborted, rfl⟩)
    next => exact .inr (.inr ⟨x.data.variablePool, rfl⟩)

theorem handleCommand_frame (x : EngineState) (c : Command) :
    ∃ execution pool, x.handleCommand c =
      { x with execution, data := { x.data with variablePool := pool } } := by
  rcases x.handleCommand_cases c with ⟨reason, message, -, hc⟩ | ⟨reason, -, -, hc⟩ | ⟨pool, hc⟩
  · exact ⟨_, _, hc⟩
  · exact ⟨_, _, hc⟩
  · exact ⟨_, _, hc⟩

theorem handleCommand_paused (x : EngineState) (c : Command) (h : x.execution.paused = true) :
    (x.handleCommand c).execution.paused = true := by
  rcases x.handleCommand_cases c with ⟨reason, message, -, hc⟩ | ⟨reason, -, -, hc⟩ | ⟨pool, hc⟩
  · rw [hc]
    exact h
  · rw [hc]
  · rw [hc]
    exact h

variable {x y : EngineState}

theorem processCommands_induction {P : EngineState → Prop} {commands : List Command}
    (hstep : ∀ x, ∀ c ∈ commands, P x → P (x.handleCommand c)) (h : P x) :
    P (x.processCommands commands) := by
  unfold processCommands
  induction commands generalizing x with
  | nil => exact h
  | cons c cs ih =>
    exact ih (fun y d hd => hstep y d (List.mem_cons_of_mem _ hd))
      (hstep x c List.mem_cons_self h)

/-! ### Starting and resuming a run -/

/-- Register the response nodes in graph order; `graph_engine.py:345–347`. -/
def registerResponseNodes (g : Graph) (x : EngineState) : Except PyError EngineState := do
  let responseNodes := g.nodes.filter fun n => n.executionType = .response
  let coordinator ← responseNodes.foldlM (fun c n => Coordinator.register c g n) x.coordinator
  return { x with coordinator }

/-- `seen_nodes`: every node once, at its first place; `graph_engine.py:355–362`. -/
def firstOccurrences : List NodeId → List NodeId :=
  fun ids => ids.foldl (fun seen id => if id ∈ seen then seen else seen ++ [id]) []

/-- The beginning of `GraphEngine.run` and `_start_execution`: a first run enqueues the
root, a resumed one the paused and deferred nodes. `o` is the order in which the sets of
nodes are listed. -/
def startExecution (g : Graph) (o : SetOrder NodeId) (x : EngineState) :
    Except PyError EngineState :=
  if x.execution.started = false then do
    let x ← { x with execution := { x.execution with started := true } }.registerResponseNodes g
    return { x with tracking := x.tracking.schedule g.root }
  else do
    let pausedNodes := o.iterate x.data.pausedNodes
    let deferredNodes := o.iterate x.data.deferredNodes
    let x := { x with
      execution := { x.execution with paused := false, pauseReasons := [] }
      data := { x.data with pausedNodes := ∅, deferredNodes := ∅ } }
    let x ← x.registerResponseNodes g
    return { x with
      tracking := x.tracking.scheduleAll (firstOccurrences (pausedNodes ++ deferredNodes)) }

/-- The runtime state as the engine leaves it, attached to its graph. -/
def runtimeState (g : Graph) (x : EngineState) : GraphRuntimeState where
  data := x.data
  graph := some ⟨g, x.tracking.nodeState, x.tracking.edgeState⟩
  readyQueue := some x.tracking.readyQueue
  graphExecution := some x.execution
  responseCoordinator := some x.coordinator

/-- `GraphEngine.__init__` on a runtime state: attach the freshly initialised graph. The
state manager starts with no executing node and the history with no enqueue. -/
def create (g : Graph) (o : SetOrder NodeId) (s : GraphRuntimeState) :
    Except PyError EngineState := do
  let s ← s.attachGraph (initGraph g) o
  let a := s.graph.getD (initGraph g)
  return {
    tracking := {
      nodeState := a.nodeState
      edgeState := a.edgeState
      readyQueue := s.readyQueue.getD [] }
    coordinator := s.responseCoordinator.getD { setOrder := o }
    execution := s.graphExecution.getD {}
    data := s.data }

/-- An engine on a freshly initialised graph and a new runtime state. -/
def initial (g : Graph) (o : SetOrder NodeId) (pool : VariablePool) : EngineState where
  tracking := {
    nodeState := (initialTracking g).nodeState
    edgeState := (initialTracking g).edgeState }
  coordinator := { setOrder := o }
  data := { variablePool := pool }

theorem create_initial (g : Graph) (o : SetOrder NodeId) (pool : VariablePool) :
    create g o { data := { variablePool := pool } } = .ok (initial g o pool) := rfl

variable {g : Graph}

theorem registerResponseNodes_eq_ok
    (h : x.registerResponseNodes g = .ok y) : ∃ c, y = { x with coordinator := c } := by
  unfold registerResponseNodes at h
  simp only [bind, Except.bind] at h
  split at h
  next => cases h
  next c _ =>
    cases h
    exact ⟨c, rfl⟩

theorem firstOccurrences_spec (ids : List NodeId) :
    (firstOccurrences ids).Nodup ∧ ∀ v, v ∈ firstOccurrences ids ↔ v ∈ ids := by
  suffices h : ∀ seen : List NodeId, seen.Nodup →
      (ids.foldl (fun seen id => if id ∈ seen then seen else seen ++ [id]) seen).Nodup ∧
      ∀ v, v ∈ ids.foldl (fun seen id => if id ∈ seen then seen else seen ++ [id]) seen ↔
        v ∈ seen ∨ v ∈ ids by
    obtain ⟨hnd, hm⟩ := h [] .nil
    exact ⟨hnd, fun v => by rw [firstOccurrences, hm]; simp⟩
  induction ids with
  | nil => exact fun seen hs => ⟨hs, by simp⟩
  | cons a ids ih =>
    intro seen hs
    rw [List.foldl_cons]
    split
    next ha =>
      obtain ⟨hnd, hm⟩ := ih seen hs
      refine ⟨hnd, fun v => ?_⟩
      rw [hm, List.mem_cons]
      constructor
      · exact fun hv => hv.imp_right .inr
      · rintro (hv | rfl | hv)
        · exact .inl hv
        · exact .inl ha
        · exact .inr hv
    next ha =>
      obtain ⟨hnd, hm⟩ := ih (seen ++ [a])
        (hs.append (List.nodup_singleton a) (by simpa using ha))
      refine ⟨hnd, fun v => ?_⟩
      rw [hm, List.mem_append, List.mem_singleton, List.mem_cons, or_assoc]

theorem registerResponseNodes_total (x : EngineState)
    (h : ∀ n ∈ g.nodes, n.executionType = .response → ∃ s, ResponseSession.fromNode n = .ok s) :
    ∃ y, x.registerResponseNodes g = .ok y := by
  have hns : ∀ n ∈ g.nodes.filter fun n => n.executionType = .response,
      ∃ s, ResponseSession.fromNode n = .ok s := fun n hn =>
    h n (List.mem_filter.mp hn).1 (of_decide_eq_true (List.mem_filter.mp hn).2)
  unfold registerResponseNodes
  suffices hc : ∃ c, (g.nodes.filter fun n => n.executionType = .response).foldlM
      (fun c n => Coordinator.register c g n) x.coordinator = .ok c by
    obtain ⟨c, hc⟩ := hc
    simp only [hc]
    exact ⟨_, rfl⟩
  generalize (g.nodes.filter fun n => n.executionType = .response) = ns at hns
  generalize x.coordinator = c₀
  induction ns generalizing c₀ with
  | nil => exact ⟨c₀, rfl⟩
  | cons n ns ih =>
    obtain ⟨s, hs⟩ := hns n (by simp)
    have hone : ∃ c, Coordinator.register c₀ g n = .ok c := by
      unfold Coordinator.register Coordinator.buildPathsMap
      simp only [hs]
      split
      next => exact ⟨_, rfl⟩
      next =>
        split
        next => exact ⟨_, rfl⟩
        next => exact ⟨_, rfl⟩
    obtain ⟨c, hc⟩ := hone
    rw [List.foldlM_cons, hc]
    exact ih (fun m hm => hns m (by simp [hm])) c

/-- A registration into an empty coordinator has opened a session for every response
node. -/
theorem registerResponseNodes_sessions
    (hempty : x.coordinator.responseNodes = ∅) (h : x.registerResponseNodes g = .ok y) :
    ∀ n ∈ g.nodes, n.executionType = .response → ∃ s, ResponseSession.fromNode n = .ok s := by
  suffices hs : ∀ n ∈ g.nodes.filter fun n => n.executionType = .response,
      ∃ s, ResponseSession.fromNode n = .ok s by
    exact fun n hn ht => hs n (List.mem_filter.mpr ⟨hn, decide_eq_true ht⟩)
  unfold registerResponseNodes at h
  simp only [bind, Except.bind] at h
  split at h
  next => cases h
  next c hc =>
    have hnd : ((g.nodes.filter fun n => n.executionType = .response).map Node.id).Nodup :=
      g.nodes_nodup.sublist (List.filter_sublist.map _)
    have hnew : ∀ n ∈ g.nodes.filter fun n => n.executionType = .response,
        n.id ∉ x.coordinator.responseNodes := by
      intro n _
      rw [hempty]
      exact Std.ExtTreeSet.not_mem_empty
    generalize (g.nodes.filter fun n => n.executionType = .response) = ns at hc hnd hnew
    generalize x.coordinator = c₀ at hc hnew
    induction ns generalizing c₀ with
    | nil => simp
    | cons n ns ih =>
      rw [List.foldlM_cons] at hc
      simp only [bind, Except.bind] at hc
      obtain ⟨hnn, hnd'⟩ := List.nodup_cons.mp hnd
      split at hc
      next => cases hc
      next c₁ hc₁ =>
        unfold Coordinator.register at hc₁
        rw [if_neg (hnew n (by simp))] at hc₁
        simp only [bind, Except.bind] at hc₁
        split at hc₁
        next => cases hc₁
        next =>
          split at hc₁
          next => cases hc₁
          next s hs =>
            cases hc₁
            intro m hm
            rcases List.mem_cons.mp hm with rfl | hm
            · exact ⟨s, hs⟩
            · refine ih hnd' _ hc ?_ m hm
              intro k hk
              rw [Std.ExtTreeSet.mem_insert, Std.LawfulEqOrd.compare_eq_iff_eq]
              rintro (heq | hin)
              · exact hnn (heq ▸ List.mem_map_of_mem hk)
              · exact hnew k (by simp [hk]) hin

variable {o : SetOrder NodeId}

theorem startExecution_first (hs : x.execution.started = false) (h : x.startExecution g o = .ok y) :
    ∃ c, y = { x with
      execution := { x.execution with started := true }
      coordinator := c
      tracking := x.tracking.schedule g.root } := by
  unfold startExecution at h
  simp only [hs, ↓reduceIte, bind, Except.bind] at h
  split at h
  next => cases h
  next z hz =>
    obtain ⟨c, rfl⟩ := registerResponseNodes_eq_ok hz
    cases h
    exact ⟨c, rfl⟩

/-- A resumed run ends the pause and enqueues what was set aside, each node once. -/
theorem startExecution_resumed
    (hs : x.execution.started = true) (h : x.startExecution g o = .ok y) :
    ∃ c, y = { x with
      execution := { x.execution with started := true, paused := false, pauseReasons := [] }
      data := { x.data with pausedNodes := ∅, deferredNodes := ∅ }
      coordinator := c
      tracking := x.tracking.scheduleAll (firstOccurrences
        (o.iterate x.data.pausedNodes ++ o.iterate x.data.deferredNodes)) } := by
  unfold startExecution at h
  simp only [hs, Bool.true_eq_false, ↓reduceIte, bind, Except.bind] at h
  split at h
  next => cases h
  next z hz =>
    obtain ⟨c, rfl⟩ := registerResponseNodes_eq_ok hz
    cases h
    exact ⟨c, rfl⟩

/-- Starting or resuming succeeds when every response node can open a session. -/
theorem startExecution_total (o : SetOrder NodeId) (x : EngineState)
    (h : ∀ n ∈ g.nodes, n.executionType = .response → ∃ s, ResponseSession.fromNode n = .ok s) :
    ∃ y, x.startExecution g o = .ok y := by
  have hno : ∀ (z : EngineState) (e : PyError), z.registerResponseNodes g ≠ .error e := by
    intro z e he
    obtain ⟨y, hy⟩ := registerResponseNodes_total z h
    rw [he] at hy
    cases hy
  unfold startExecution
  split
  next =>
    simp only [bind, Except.bind]
    split
    next e he => exact absurd he (hno _ e)
    next => exact ⟨_, rfl⟩
  next =>
    simp only [bind, Except.bind]
    split
    next e he => exact absurd he (hno _ e)
    next => exact ⟨_, rfl⟩

/-- Dump a paused engine, restore the dump and build an engine on a fresh graph. -/
def reload (g : Graph) (o : SetOrder NodeId) (x : EngineState) : Except PyError EngineState := do
  let s ← GraphRuntimeState.fromSnapshot (x.runtimeState g).dumps
  create g o s

end EngineState

/-! ### The dispatcher and the workers -/

/-- Where the dispatcher thread is: in its main loop, in one of the two drain loops, or
finished. -/
inductive Phase where
  | main
  | drainUntilIdle
  | drainQueue
  | done
  deriving DecidableEq

/-- The engine, the nodes that workers are running, and the dispatcher's place. -/
structure System where
  engine : EngineState
  running : List NodeId := []
  phase : Phase := .main

/-- One move: a worker takes the next ready node; the dispatcher handles an event of a
running node and polls the commands that have arrived; the dispatcher leaves the loop it
is in. -/
inductive Action where
  | take
  | handle (event : NodeEvent) (commands : List Command)
  | leave (commands : List Command)

namespace System

/-- A node run is over once its result event is handled. -/
def removeFinished (event : NodeEvent) (running : List NodeId) : List NodeId :=
  if event.isResult then running.erase event.nodeId else running

/-- The end of `_dispatcher_loop`. -/
def finishLoop (s : System) : System :=
  { s with engine := s.engine.markComplete, phase := .done }

/-- Dispatch an event; an exception ends the loop through `mark_failed`. `polls` tells
whether this loop polls commands after the event. -/
def dispatchEvent (g : Graph) (s : System) (event : NodeEvent) (commands : List Command)
    (polls : Bool) : System :=
  match s.engine.dispatch g event with
  | (x, some e) => { s with engine := x.markFailed e }.finishLoop
  | (x, none) => { s with
      engine := if polls && event.isCommandTrigger then x.processCommands commands else x
      running := removeFinished event s.running }

/-- The main loop goes on: nothing stopped the run, it is not complete and not paused. -/
def continues (s : System) : Bool :=
  !s.engine.isAborted && !s.engine.tracking.isExecutionComplete && !s.engine.execution.isPaused

/-- Events a worker may put while its node runs; retries and exceptions are made by the
handlers. -/
def admits (s : System) (event : NodeEvent) : Bool :=
  decide (event.nodeId ∈ s.running) &&
    match event with
    | .exception _ _ _ => false
    | .retry _ _ _ => false
    | _ => true

/-- One move of the system, when it is enabled. -/
def step? (g : Graph) (s : System) : Action → Option System
  | .take =>
    match s.engine.tracking.readyQueue with
    | [] => none
    | id :: rest => some { s with
        engine := { s.engine with
          tracking := { s.engine.tracking with readyQueue := rest } }
        running := s.running ++ [id] }
  | .handle event commands =>
    if s.admits event then
      match s.phase with
      | .main => if s.continues then some (dispatchEvent g s event commands true) else none
      | .drainUntilIdle => some (dispatchEvent g s event commands true)
      | .drainQueue => some (dispatchEvent g s event commands false)
      | .done => none
    else none
  | .leave commands =>
    match s.phase with
    | .main =>
      if s.continues then none
      else
        -- The local flag `paused` is read before the last poll of commands.
        let paused := !s.engine.isAborted && !s.engine.tracking.isExecutionComplete
        some { s with
          engine := s.engine.processCommands commands
          phase := if paused then .drainUntilIdle else .drainQueue }
    | .drainUntilIdle =>
      if s.engine.tracking.executingNodes.card = 0 then some { s with phase := .drainQueue }
      else none
    | .drainQueue => some s.finishLoop
    | .done => none

/-- What a move does, one case for each way it can happen. -/
inductive Move (g : Graph) (s : System) : Action → System → Prop where
  | take (id : NodeId) (rest : List NodeId) (hq : s.engine.tracking.readyQueue = id :: rest) :
    Move g s .take { s with
      engine := { s.engine with tracking := { s.engine.tracking with readyQueue := rest } }
      running := s.running ++ [id] }
  | handle (event : NodeEvent) (commands : List Command) (polls : Bool)
    (hadm : s.admits event = true) (hmain : s.phase = .main → s.continues = true)
    (hpolls : polls = true ↔ s.phase ≠ .drainQueue) (hdone : s.phase ≠ .done) :
    Move g s (.handle event commands) (dispatchEvent g s event commands polls)
  | leaveMain (commands : List Command) (phase : Phase) (hmain : s.phase = .main)
    (hstop : s.continues = false) (hphase : phase = .drainUntilIdle ↔
      s.engine.isAborted = false ∧ s.engine.tracking.isExecutionComplete = false)
    (hdrain : phase = .drainUntilIdle ∨ phase = .drainQueue) :
    Move g s (.leave commands) { s with engine := s.engine.processCommands commands, phase }
  | leaveIdle (commands : List Command) (hphase : s.phase = .drainUntilIdle)
    (hidle : s.engine.tracking.executingNodes = ∅) :
    Move g s (.leave commands) { s with phase := .drainQueue }
  | finish (commands : List Command) (hphase : s.phase = .drainQueue) :
    Move g s (.leave commands) s.finishLoop

variable {g : Graph} {s : System}

theorem step?_move {s' : System} {a : Action} (h : s.step? g a = some s') :
    Move g s a s' := by
  cases a with
  | take =>
    simp only [step?] at h
    split at h
    next => cases h
    next id rest hq =>
      cases h
      exact .take id rest hq
  | handle event commands =>
    simp only [step?] at h
    split at h
    next hadm =>
      split at h
      next hph =>
        split at h
        next hc =>
          cases h
          exact .handle event commands true hadm (fun _ => hc) (by simp [hph]) (by simp [hph])
        next => cases h
      next hph =>
        cases h
        exact .handle event commands true hadm (by simp [hph]) (by simp [hph]) (by simp [hph])
      next hph =>
        cases h
        exact .handle event commands false hadm (by simp [hph]) (by simp [hph]) (by simp [hph])
      next => cases h
    next => cases h
  | leave commands =>
    simp only [step?] at h
    split at h
    next hph =>
      split at h
      next => cases h
      next hc =>
        cases h
        refine .leaveMain commands _ hph (by simpa using hc) ?_ ?_
        · split
          next hp => simpa using hp
          next hp => simpa using hp
        · split
          next => exact .inl rfl
          next => exact .inr rfl
    next hph =>
      split at h
      next hi =>
        cases h
        exact .leaveIdle commands hph (Finset.card_eq_zero.mp hi)
      next => cases h
    next hph =>
      cases h
      exact .finish commands hph
    next => cases h

/-- A handler that returns: commands may be polled, a finished run is removed. -/
theorem dispatchEvent_returned {event : NodeEvent} {x : EngineState}
    (h : s.engine.dispatch g event = (x, none)) (commands : List Command) (polls : Bool) :
    dispatchEvent g s event commands polls = { s with
      engine := if polls && event.isCommandTrigger then x.processCommands commands else x
      running := removeFinished event s.running } := by
  unfold dispatchEvent
  rw [h]

theorem dispatchEvent_raised {event : NodeEvent} {x : EngineState}
    {e : PyError} (h : s.engine.dispatch g event = (x, some e)) (commands : List Command)
    (polls : Bool) : dispatchEvent g s event commands polls =
      { s with engine := (x.markFailed e).markComplete, phase := .done } := by
  unfold dispatchEvent
  rw [h]
  rfl

/-- A system whose dispatcher has just started and polled `commands`. -/
def start (x : EngineState) (commands : List Command) : System :=
  { engine := x.processCommands commands }

/-- Run the system through a list of moves. -/
def runs (g : Graph) : System → List Action → Option System := run (step? g)

/-- A first run of a new engine through a list of moves. -/
def firstRun (g : Graph) (o : SetOrder NodeId) (pool : VariablePool) (commands : List Command)
    (as : List Action) : Option System :=
  ((EngineState.initial g o pool).startExecution g o).toOption.bind fun x =>
    runs g (start x commands) as

theorem firstRun_eq_some {o : SetOrder NodeId} {pool : VariablePool}
    {commands : List Command} {as : List Action} : firstRun g o pool commands as = some s ↔
      ∃ x, (EngineState.initial g o pool).startExecution g o = .ok x ∧
        runs g (start x commands) as = some s := by
  unfold firstRun
  cases (EngineState.initial g o pool).startExecution g o with
  | error e => simp [Except.toOption]
  | ok x => simp [Except.toOption]

end System

/-! ### The terminal event -/

/-- The event that ends `GraphEngine.run`. -/
inductive GraphRunEvent where
  | paused (reasons : List PauseReason)
  | aborted (reason : String)
  | failed (error : String) (exceptionsCount : Nat)
  | partialSucceeded (exceptionsCount : Nat)
  | succeeded
  deriving DecidableEq

namespace EngineState

/-- The end of `GraphEngine.run`: the terminal event and the exception it raises. -/
def terminalEvent (x : EngineState) : GraphRunEvent × Option PyError :=
  if x.execution.isPaused then
    if x.execution.pauseReasons.isEmpty then
      let message := "pause_reasons should not be empty when execution is paused."
      (.failed message x.execution.exceptionsCount, some ⟨.assertionError, message⟩)
    else (.paused x.execution.pauseReasons, none)
  else if x.execution.aborted then
    (.aborted ((x.execution.error.map PyError.message).getD
      "Workflow execution aborted by user command"), none)
  else
    match x.execution.error with
    | some e => (.failed e.message x.execution.exceptionsCount, some e)
    | none =>
      if 0 < x.execution.exceptionsCount then
        (.partialSucceeded x.execution.exceptionsCount, none)
      else (.succeeded, none)

end EngineState
end PlatformSpec.Engine
