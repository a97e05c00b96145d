import PlatformSpec.Engine.Restore

/-!
# Snapshots of snapshots

A runtime state is dumped with or without a graph, restored, and dumped again. Queue,
execution, data and graph states come back either way: what cannot be restored yet is
parked, and parked states are dumped again. The parked dump of the response coordinator is
the exception.
-/

namespace PlatformSpec.Engine

open Base PlatformSpec.Runtime Workflow Response

/-- The states graph `g` has once the saved ones are applied to it. -/
def statesOn (g : Graph) (st : GraphStateSnapshot) : GraphStateSnapshot where
  nodes := g.nodes.map fun n =>
    (n.id, applyStates (g.hasNode ·) st.nodes (initGraph g).nodeState n.id)
  edges := g.edges.map fun e =>
    (e.id, applyStates (fun id => id ∈ g.edges.map Edge.id) st.edges (initGraph g).edgeState e.id)

/-- What a snapshot says about graph `g`: the parts it does not mention are those of a
freshly attached graph with an unused coordinator. -/
def information (g : Graph) (snapshot : Snapshot) : Snapshot :=
  { snapshot with
    graphState := statesOn g snapshot.graphState
    responseCoordinator := some (snapshot.responseCoordinator.getD (Coordinator.dumps {})) }

/-- The coordinator state that a runtime state holds, live or parked. -/
def heldCoordinator (s : GraphRuntimeState) : CoordinatorState :=
  match s.responseCoordinator, s.graph with
  | some c, some _ => c.dumps
  | _, _ => s.pendingResponseCoordinatorDump.getD (Coordinator.dumps {})

/-- Restoring the snapshot of `s` and dumping again says the same about `g`, before and
after the graph is attached, and attaching it gives back the graph and coordinator state
of `s`. -/
def Stable (g : Graph) (s : GraphRuntimeState) : Prop :=
  ∃ r, GraphRuntimeState.fromSnapshot s.dumps = .ok r ∧
    information g r.dumps = information g s.dumps ∧
    ∀ o, ∃ r', r.attachGraph (initGraph g) o = .ok r' ∧
      information g r'.dumps = information g s.dumps ∧
      statesOn g r'.snapshotGraphState = statesOn g s.snapshotGraphState ∧
      heldCoordinator r' = heldCoordinator s

/-- Runtime states that runs of `g` lead to: new ones, attached ones, what an engine leaves
at any moment of a first or resumed run, and restored ones. -/
inductive Reachable (g : Graph) : GraphRuntimeState → Prop where
  | fresh (pool : VariablePool) : Reachable g { data := { variablePool := pool } }
  | attach {s r : GraphRuntimeState} {o : SetOrder NodeId} (h : Reachable g s)
    (hs : s.graph = none) (hr : s.attachGraph (initGraph g) o = .ok r) : Reachable g r
  | run {s : GraphRuntimeState} {o : SetOrder NodeId} {x y : EngineState}
    {commands : List Command} {as : List Action} {sys : System} (h : Reachable g s)
    (hs : s.graph = none) (hx : EngineState.create g o s = .ok x)
    (hy : x.startExecution g o = .ok y)
    (hrun : System.runs g (System.start y commands) as = some sys) :
    Reachable g (sys.engine.runtimeState g)
  | restore {s r : GraphRuntimeState} (h : Reachable g s)
    (hr : GraphRuntimeState.fromSnapshot s.dumps = .ok r) : Reachable g r

/-- Attached to `g` with a coordinator and nothing parked. -/
structure Attached (g : Graph) (s : GraphRuntimeState) (c : Coordinator) : Prop where
  graph : ∃ nodeState edgeState, s.graph = some ⟨g, nodeState, edgeState⟩
  coordinator : s.responseCoordinator = some c
  wf : WF g c
  dump : s.pendingResponseCoordinatorDump = none

/-- Without a graph; a parked dump is one of a coordinator of `g`. -/
structure Detached (g : Graph) (s : GraphRuntimeState) : Prop where
  graph : s.graph = none
  coordinator : s.responseCoordinator = none
  dump : ∀ d, s.pendingResponseCoordinatorDump = some d → ∃ c, WF g c ∧ d = c.dumps

/-- What holds of every reachable runtime state. -/
structure Sound (g : Graph) (s : GraphRuntimeState) : Prop where
  tokens : 0 ≤ s.data.totalTokens
  held : (∃ c, Attached g s c) ∨ Detached g s

section Restoring

variable {g : Graph} {s r : GraphRuntimeState}

private theorem statesOn_statesOn (g : Graph) (st : GraphStateSnapshot) :
    statesOn g (statesOn g st) = statesOn g st := by
  have hnode : ∀ id ∈ g.nodes.map Node.id, g.hasNode id = true := by
    intro id hid
    obtain ⟨n, hn⟩ := Graph.exists_node? hid
    simp [Graph.hasNode, hn]
  have hedge : ∀ id ∈ g.edges.map Edge.id, decide (id ∈ g.edges.map Edge.id) = true :=
    fun id hid => decide_eq_true hid
  unfold statesOn
  simp only [GraphStateSnapshot.mk.injEq]
  refine ⟨List.map_congr_left fun n hn => ?_, List.map_congr_left fun e he => ?_⟩
  · have hmap := applyStates_map (g.hasNode ·) (g.nodes.map Node.id) hnode
      (applyStates (g.hasNode ·) st.nodes (initGraph g).nodeState) (initGraph g).nodeState n.id
    rw [List.map_map, if_pos (List.mem_map_of_mem hn)] at hmap
    exact congrArg (Prod.mk n.id) hmap
  · have hmap := applyStates_map (fun id => decide (id ∈ g.edges.map Edge.id))
      (g.edges.map Edge.id) hedge (applyStates (fun id => decide (id ∈ g.edges.map Edge.id))
        st.edges (initGraph g).edgeState) (initGraph g).edgeState e.id
    rw [List.map_map, if_pos (List.mem_map_of_mem he)] at hmap
    exact congrArg (Prod.mk e.id) hmap

private theorem getD_pendingStates (l : List (String × NodeState)) :
    (GraphRuntimeState.pendingStates l).getD [] = l := by
  unfold GraphRuntimeState.pendingStates
  split
  next h => rw [List.isEmpty_iff.mp h]; rfl
  next => rfl

private theorem fromSnapshot_dumps (h : 0 ≤ s.data.totalTokens) :
    ∃ r, GraphRuntimeState.fromSnapshot s.dumps = .ok r ∧ r.data = s.data ∧ r.graph = none ∧
      r.responseCoordinator = none ∧
      r.pendingResponseCoordinatorDump = s.dumps.responseCoordinator ∧
      r.dumps = { s.dumps with responseCoordinator := none } := by
  have hnotneg : ¬ s.dumps.totalTokens < 0 := Int.not_lt.mpr h
  have hexec := GraphExecution.loads_dumps (s.graphExecution.getD {})
    { workflowId := (s.graphExecution.getD {}).dumps.workflowId } rfl
  unfold GraphRuntimeState.fromSnapshot
  rw [if_neg hnotneg, show s.dumps.graphExecution = (s.graphExecution.getD {}).dumps from rfl,
    hexec]
  refine ⟨_, rfl, rfl, rfl, rfl, rfl, ?_⟩
  simp only [GraphRuntimeState.dumps, GraphRuntimeState.snapshotGraphState, Option.getD_some,
    getD_pendingStates]

private theorem attachGraph_detached (h : Detached g s) (o : SetOrder NodeId) :
    ∃ r c, s.attachGraph (initGraph g) o = .ok r ∧ r.data = s.data ∧ Attached g r c ∧
      c.dumps = heldCoordinator s ∧
      r.dumps = { s.dumps with
        graphState := statesOn g s.snapshotGraphState
        responseCoordinator := some c.dumps } := by
  unfold GraphRuntimeState.attachGraph
  have hgraph : s.snapshotGraphState =
      ⟨s.pendingGraphNodeStates.getD [], s.pendingGraphEdgeStates.getD []⟩ := by
    unfold GraphRuntimeState.snapshotGraphState
    rw [h.graph]
  have hheld : heldCoordinator s =
      s.pendingResponseCoordinatorDump.getD (Coordinator.dumps {}) := by
    unfold heldCoordinator
    rw [h.coordinator]
  cases hd : s.pendingResponseCoordinatorDump with
  | none =>
    rw [h.coordinator]
    refine ⟨_, { setOrder := o }, rfl, rfl, ⟨⟨_, _, rfl⟩, rfl, WF.fresh g o, rfl⟩, ?_, ?_⟩
    · rw [hheld, hd]
      rfl
    · rw [hgraph]
      rfl
  | some d =>
    obtain ⟨c, hc, rfl⟩ := h.dump d hd
    simp only [initGraph, Coordinator.loads_dumps hc o, bind, Except.bind]
    have hwf : WF g { c with setOrder := o, activations := [] } :=
      ⟨hc.active, hc.waiting, hc.pending, hc.positions⟩
    refine ⟨_, _, rfl, rfl, ⟨⟨_, _, rfl⟩, rfl, hwf, rfl⟩, ?_, ?_⟩
    · rw [hheld, hd]
      rfl
    · rw [hgraph]
      rfl

/-! ### Every reachable state is sound -/

private theorem restorable_create {o : SetOrder NodeId} {x : EngineState} (h : Sound g s)
    (hs : s.graph = none) (hx : EngineState.create g o s = .ok x) : Restorable g x := by
  have hdet : Detached g s := by
    rcases h.held with ⟨c, ⟨a, e, ha⟩, -⟩ | hd
    · rw [hs] at ha
      cases ha
    · exact hd
  obtain ⟨r, c, hr, hdata, hatt, -⟩ := attachGraph_detached hdet o
  unfold EngineState.create at hx
  simp only [hr, bind, Except.bind, hatt.coordinator, Option.getD_some] at hx
  cases hx
  exact ⟨hatt.wf, hdata ▸ h.tokens⟩

theorem Reachable.sound (h : Reachable g s) : Sound g s := by
  induction h with
  | fresh pool => exact ⟨Int.le_refl 0, .inr ⟨rfl, rfl, by simp⟩⟩
  | @attach s r o _ hs hr ih =>
    rcases ih.held with ⟨c, ⟨a, e, ha⟩, -⟩ | hdet
    · rw [hs] at ha
      cases ha
    · obtain ⟨r', c, hr', hdata, hatt, -⟩ := attachGraph_detached hdet o
      rw [hr] at hr'
      cases hr'
      exact ⟨hdata ▸ ih.tokens, .inl ⟨c, hatt⟩⟩
  | @run s o x y commands as sys _ hs hx hy hrun ih =>
    have hstart : Restorable g (System.start y commands).engine :=
      ((restorable_create ih hs hx).startExecution hy).processCommands commands
    have hend : Restorable g sys.engine :=
      run_invariant (fun _ => True) (P := fun sys => Restorable g sys.engine)
        (fun _ _ _ h _ hstep => h.step hstep) hstart (fun _ _ => trivial) hrun
    exact ⟨hend.tokens, .inl ⟨_, ⟨_, _, rfl⟩, rfl, hend.coordinator, rfl⟩⟩
  | @restore s r _ hr ih =>
    obtain ⟨r', hr', hdata, hgraph, hcoord, hdump, -⟩ := fromSnapshot_dumps ih.tokens
    rw [hr] at hr'
    cases hr'
    refine ⟨hdata ▸ ih.tokens, .inr ⟨hgraph, hcoord, fun d hd => ?_⟩⟩
    rw [hdump] at hd
    rcases ih.held with ⟨c, hatt⟩ | hdet
    · obtain ⟨a, e, ha⟩ := hatt.graph
      simp only [GraphRuntimeState.dumps, hatt.coordinator, ha, Option.some.injEq] at hd
      exact ⟨c, hatt.wf, hd.symm⟩
    · simp only [GraphRuntimeState.dumps, hdet.coordinator] at hd
      cases hd

private theorem dumps_responseCoordinator (h : Sound g s) :
    (s.graph = none → s.dumps.responseCoordinator = none) ∧
    (s.graph ≠ none → s.dumps.responseCoordinator = some (heldCoordinator s)) := by
  rcases h.held with ⟨c, hatt⟩ | hdet
  · obtain ⟨a, e, ha⟩ := hatt.graph
    refine ⟨fun hn => ?_, fun _ => ?_⟩
    · rw [ha] at hn
      cases hn
    · simp only [GraphRuntimeState.dumps, heldCoordinator, hatt.coordinator, ha]
  · refine ⟨fun _ => ?_, fun hn => absurd hdet.graph hn⟩
    simp only [GraphRuntimeState.dumps, hdet.coordinator]

private theorem restored_spec (h : Sound g s) :
    ∃ r, GraphRuntimeState.fromSnapshot s.dumps = .ok r ∧
      information g r.dumps = { information g s.dumps with
        responseCoordinator := some (Coordinator.dumps {}) } ∧
      ∀ o, ∃ r', r.attachGraph (initGraph g) o = .ok r' ∧
        information g r'.dumps = information g s.dumps ∧
        statesOn g r'.snapshotGraphState = statesOn g s.snapshotGraphState ∧
        heldCoordinator r' = s.dumps.responseCoordinator.getD (Coordinator.dumps {}) := by
  obtain ⟨r, hr, hdata, hgraph, hcoord, hdump, hdumps⟩ := fromSnapshot_dumps h.tokens
  have hdet : Detached g r := by
    refine ⟨hgraph, hcoord, fun d hd => ?_⟩
    rw [hdump] at hd
    rcases h.held with ⟨c, hatt⟩ | hdet
    · obtain ⟨a, e, ha⟩ := hatt.graph
      simp only [GraphRuntimeState.dumps, hatt.coordinator, ha, Option.some.injEq] at hd
      exact ⟨c, hatt.wf, hd.symm⟩
    · simp only [GraphRuntimeState.dumps, hdet.coordinator] at hd
      cases hd
  have hheld : heldCoordinator r = s.dumps.responseCoordinator.getD (Coordinator.dumps {}) := by
    rw [← hdump]
    unfold heldCoordinator
    rw [hcoord]
  have hsnap : r.snapshotGraphState = s.snapshotGraphState := congrArg Snapshot.graphState hdumps
  refine ⟨r, hr, by rw [hdumps]; rfl, fun o => ?_⟩
  obtain ⟨r', c, hr', -, hatt, hc, hdumps'⟩ := attachGraph_detached hdet o
  have hsnap' : r'.snapshotGraphState = statesOn g s.snapshotGraphState := by
    rw [← hsnap]
    exact congrArg Snapshot.graphState hdumps'
  obtain ⟨a, e, ha⟩ := hatt.graph
  refine ⟨r', hr', ?_, ?_, ?_⟩
  · rw [hdumps', hdumps, hsnap, hc, hheld]
    simp only [information, Option.getD_some, statesOn_statesOn]
    rfl
  · rw [hsnap', statesOn_statesOn]
  · simp only [heldCoordinator, hatt.coordinator, ha]
    rw [hc, hheld]

private theorem stable_iff_unused (h : Sound g s) :
    Stable g s ↔ heldCoordinator s = Coordinator.dumps {} := by
  obtain ⟨r, hr, hinfo, hatt⟩ := restored_spec h
  have hdetached : information g r.dumps = information g s.dumps ↔
      s.dumps.responseCoordinator.getD (Coordinator.dumps {}) = Coordinator.dumps {} := by
    rw [hinfo]
    constructor
    · intro he
      have := congrArg Snapshot.responseCoordinator he
      exact (Option.some.inj this).symm
    · intro he
      simp only [information, he]
  have hstable : Stable g s ↔
      s.dumps.responseCoordinator.getD (Coordinator.dumps {}) = Coordinator.dumps {} ∧
      s.dumps.responseCoordinator.getD (Coordinator.dumps {}) = heldCoordinator s := by
    constructor
    · rintro ⟨r₁, hr₁, hinfo₁, hatt₁⟩
      rw [hr] at hr₁
      cases hr₁
      obtain ⟨r', hr', -, -, hheld⟩ := hatt .ascending
      obtain ⟨r₁', hr₁', -, -, hheld₁⟩ := hatt₁ .ascending
      rw [hr'] at hr₁'
      cases hr₁'
      exact ⟨hdetached.mp hinfo₁, hheld.symm.trans hheld₁⟩
    · rintro ⟨hunused, hheld⟩
      refine ⟨r, hr, hdetached.mpr hunused, fun o => ?_⟩
      obtain ⟨r', hr', hinfo', hstates, hheld'⟩ := hatt o
      exact ⟨r', hr', hinfo', hstates, hheld'.trans hheld⟩
  rw [hstable]
  obtain ⟨hnone, hsome⟩ := dumps_responseCoordinator h
  by_cases hs : s.graph = none
  · rw [hnone hs, Option.getD_none]
    exact ⟨fun he => he.2.symm, fun he => ⟨rfl, he.symm⟩⟩
  · rw [hsome hs, Option.getD_some]
    exact ⟨fun he => he.1, fun he => ⟨he, rfl⟩⟩

end Restoring

/-- A start node with an answer behind it. -/
def greeting : Graph where
  nodes := [
    { id := "start", nodeType := "start", executionType := .root },
    { id := "answer", nodeType := "answer", executionType := .response,
      content := .answer "Hello" }]
  edges := [{ id := "e0", tail := "start", head := "answer" }]
  root := "start"

/-- A run of `greeting` that is paused before its first node is done. -/
def greetingPaused : Option System :=
  System.firstRun greeting .ascending .empty [.pause "hold"]
    [.leave [], .take, .handle (.succeeded "start" {}) [], .leave [], .leave []]

end PlatformSpec.Engine
