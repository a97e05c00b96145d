import PlatformSpec.Base.Acyclic
import PlatformSpec.Response.Template

/-!
# Workflow graphs

Models `dify_graph/enums.py`, `dify_graph/graph/edge.py` and the static part of
`dify_graph/graph/graph.py`. Node and edge states change during a run and live with the
state manager. `in_edges` and `out_edges` are derived from the edge list, in edge order,
as both `Graph._build_edges` and `GraphBuilder.build` derive them.
-/

namespace PlatformSpec.Workflow

open PlatformSpec.Runtime Response

abbrev NodeId := String

abbrev EdgeId := String

/-- `NodeState`: state of a node or an edge during a run. -/
inductive NodeState where
  | unknown
  | taken
  | skipped
  deriving DecidableEq

/-- `NodeExecutionType`. -/
inductive NodeExecutionType where
  | executable
  | response
  | branch
  | container
  | root
  deriving DecidableEq

/-- `ErrorStrategy`; a node without one aborts the run when it fails. -/
inductive ErrorStrategy where
  | failBranch
  | defaultValue
  deriving DecidableEq

/-- The configuration `get_streaming_template` reads: the answer text, the value
selectors of an end node, or nothing for every other node type. -/
inductive ResponseContent where
  | none
  | answer (template : String)
  | outputs (selectors : List Selector)
  deriving DecidableEq

/-- A node instance, without its mutable state. `retry` is the property of the node
class and the retry interval counts milliseconds; `assignedSelectors` are the variables an
assigner node writes. -/
structure Node where
  id : NodeId
  nodeType : String := "code"
  executionType : NodeExecutionType := .executable
  errorStrategy : Option ErrorStrategy := none
  retry : Bool := false
  maxRetries : Nat := 0
  retryInterval : Int := 0
  defaultValueDict : List (String × Segment) := []
  assignedSelectors : List Selector := []
  content : ResponseContent := .none

/-- `Graph._promote_fail_branch_nodes` on one node. -/
def Node.promote (n : Node) : Node :=
  if n.errorStrategy = some .failBranch then { n with executionType := .branch } else n

/-- `Node.blocks_variable_output`; the assigner nodes override the default `False`. -/
def Node.blocksVariableOutput (n : Node) (variableSelectors : List Selector) : Bool :=
  n.assignedSelectors.any (· ∈ variableSelectors)

/-- `get_streaming_template`, absent on nodes that cannot open a response session. -/
def Node.getStreamingTemplate (n : Node) : Option Template :=
  match n.content with
  | .none => none
  | .answer template => some (Template.fromAnswerTemplate template)
  | .outputs selectors => some (Template.fromEndOutputs selectors)

/-- `Edge`, without its mutable state. -/
structure Edge where
  id : EdgeId
  tail : NodeId
  head : NodeId
  sourceHandle : String := "source"
  deriving DecidableEq

/-- `_RootNodeValidator.container_entry_types`. -/
def containerEntryTypes : List String := ["iteration-start", "loop-start"]

/-- A validated graph. The dictionaries have distinct keys; the endpoint and root
conditions are those of `graph/validation.py`. The last field is what
`_mark_inactive_root_branches` calls a top-level root: "nodes with ROOT execution type
and no incoming edges". -/
structure Graph where
  nodes : List Node
  edges : List Edge
  root : NodeId
  nodes_nodup : (nodes.map Node.id).Nodup := by decide
  edges_nodup : (edges.map Edge.id).Nodup := by decide
  tail_mem : ∀ e ∈ edges, e.tail ∈ nodes.map Node.id := by decide
  head_mem : ∀ e ∈ edges, e.head ∈ nodes.map Node.id := by decide
  root_mem : root ∈ nodes.map Node.id := by decide
  root_entry : ∀ n ∈ nodes, n.id = root →
    n.executionType = .root ∨ n.nodeType ∈ containerEntryTypes := by decide
  root_source : ∀ n ∈ nodes, n.executionType = .root → ∀ e ∈ edges, e.head ≠ n.id := by decide

namespace Graph

/-- `graph.nodes[node_id]`; a missing key raises `KeyError`. -/
def node? (g : Graph) (id : NodeId) : Option Node := g.nodes.find? fun n => n.id = id

/-- `node_id in graph.nodes`. -/
def hasNode (g : Graph) (id : NodeId) : Bool := (g.node? id).isSome

/-- `Graph.get_outgoing_edges`. -/
def outgoing (g : Graph) (id : NodeId) : List Edge := g.edges.filter fun e => e.tail = id

/-- `Graph.get_incoming_edges`. -/
def incoming (g : Graph) (id : NodeId) : List Edge := g.edges.filter fun e => e.head = id

/-- `node.execution_type`, with the default of the node class for unknown ids. -/
def executionType (g : Graph) (id : NodeId) : NodeExecutionType :=
  match g.node? id with
  | some n => n.executionType
  | none => .executable

/-- `node.node_type`. -/
def nodeType (g : Graph) (id : NodeId) : String :=
  match g.node? id with
  | some n => n.nodeType
  | none => ""

variable {g : Graph} {id u v : NodeId}

@[simp] theorem mem_outgoing {e : Edge} : e ∈ g.outgoing id ↔ e ∈ g.edges ∧ e.tail = id := by
  simp [outgoing]

@[simp] theorem mem_incoming {e : Edge} : e ∈ g.incoming id ↔ e ∈ g.edges ∧ e.head = id := by
  simp [incoming]

theorem node?_of_mem (g : Graph) {n : Node} (hn : n ∈ g.nodes) : g.node? n.id = some n := by
  unfold node?
  have hd := g.nodes_nodup
  revert hn hd
  generalize g.nodes = ns
  intro hn hd
  induction ns with
  | nil => cases hn
  | cons m ms ih =>
    simp only [List.map_cons, List.nodup_cons] at hd
    rcases List.mem_cons.mp hn with rfl | hm
    · simp
    · have hne : m.id ≠ n.id := fun he => hd.1 (he ▸ List.mem_map_of_mem hm)
      rw [List.find?_cons_of_neg (by simpa using hne)]
      exact ih hm hd.2

theorem mem_of_node? {n : Node} (h : g.node? id = some n) : n ∈ g.nodes ∧ n.id = id := by
  unfold node? at h
  exact ⟨List.mem_of_find?_eq_some h, by simpa using List.find?_some h⟩

theorem exists_node? (h : id ∈ g.nodes.map Node.id) : ∃ n, g.node? id = some n := by
  obtain ⟨n, hn, rfl⟩ := List.mem_map.mp h
  exact ⟨n, g.node?_of_mem hn⟩

/-- `Graph._promote_fail_branch_nodes` has run: every node with the fail-branch strategy is a
branch. -/
def Promoted (g : Graph) : Prop :=
  ∀ n ∈ g.nodes, n.errorStrategy = some .failBranch → n.executionType = .branch

theorem Promoted.executionType (hg : g.Promoted)
    (h : (g.node? id).bind Node.errorStrategy = some .failBranch) :
    g.executionType id = .branch := by
  obtain ⟨n, hn, hs⟩ := Option.bind_eq_some_iff.mp h
  unfold Graph.executionType
  rw [hn]
  exact hg n (mem_of_node? hn).1 hs

theorem edge_ext {e f : Edge} (he : e ∈ g.edges) (hf : f ∈ g.edges)
    (h : e.id = f.id) : e = f :=
  List.inj_on_of_nodup_map g.edges_nodup he hf h

theorem outgoing_nodup (g : Graph) (id : NodeId) : (g.outgoing id).Nodup :=
  (g.edges_nodup.of_map _).filter _

/-- The step relation of the graph: some edge leads from the first node to the second. -/
def Step (g : Graph) (u v : NodeId) : Prop := ∃ e ∈ g.edges, e.tail = u ∧ e.head = v

/-- No node reaches itself along edges. -/
def Acyclic (g : Graph) : Prop := Base.Acyclic g.Step

/-- Listing the nodes so that every edge leads forward shows that there is no cycle. -/
theorem acyclic_of_order (order : List NodeId)
    (h : ∀ e ∈ g.edges, order.idxOf e.tail < order.idxOf e.head) : g.Acyclic := by
  refine Base.Acyclic.of_rank (order.idxOf ·) ?_
  rintro _ _ ⟨e, he, rfl, rfl⟩
  exact h e he

/-- The ids of the graph as a finite carrier. -/
def ids (g : Graph) : Finset NodeId := (g.nodes.map Node.id).toFinset

theorem ids_card_le (g : Graph) : g.ids.card ≤ g.nodes.length := by
  have h := List.toFinset_card_le (g.nodes.map Node.id)
  rwa [List.length_map] at h

theorem step_head_mem (h : g.Step u v) : v ∈ g.ids := by
  obtain ⟨e, he, -, rfl⟩ := h
  exact List.mem_toFinset.mpr (g.head_mem e he)

theorem step_tail_mem (h : g.Step u v) : u ∈ g.ids := by
  obtain ⟨e, he, rfl, -⟩ := h
  exact List.mem_toFinset.mpr (g.tail_mem e he)

/-- A node height that drops along every edge and never exceeds the number of nodes. -/
theorem exists_height (hg : g.Acyclic) :
    ∃ ht : NodeId → Nat, (∀ e ∈ g.edges, ht e.head < ht e.tail) ∧
      ∀ v, ht v ≤ g.nodes.length := by
  obtain ⟨ht, hlt, hle⟩ := hg.exists_height g.ids fun _ _ h => step_head_mem h
  exact ⟨ht, fun e he => hlt _ _ ⟨e, he, rfl, rfl⟩, fun v => (hle v).trans g.ids_card_le⟩

/-- Induction from the sources downward: a property that passes from the tails of all
incoming edges to their head holds of every node. -/
theorem tail_induction (hg : g.Acyclic) {p : NodeId → Prop}
    (h : ∀ v, (∀ e ∈ g.incoming v, p e.tail) → p v) (v : NodeId) : p v := by
  refine hg.induction g.ids (fun _ _ hs => step_tail_mem hs) (fun b ih => h b fun e he => ?_) v
  obtain ⟨hm, hh⟩ := mem_incoming.mp he
  exact ih e.tail ⟨e, hm, rfl, hh⟩

end Graph
end PlatformSpec.Workflow
