import PlatformSpec.Workflow.Graph

/-!
# Branches of inactive roots

`Graph._mark_inactive_root_branches`, which `Graph.init` runs before the graph is validated: a node
of execution type `ROOT` may have incoming edges there. The recursion is bounded by fuel; what has
no result for any fuel does not end.
-/

namespace PlatformSpec.Workflow

open Relation

/-- The nodes and edges of a graph that is not validated. -/
structure RawGraph where
  nodes : List Node
  edges : List Edge
  nodes_nodup : (nodes.map Node.id).Nodup := by decide
  edges_nodup : (edges.map Edge.id).Nodup := by decide
  tail_mem : ∀ e ∈ edges, e.tail ∈ nodes.map Node.id := by decide
  head_mem : ∀ e ∈ edges, e.head ∈ nodes.map Node.id := by decide

/-- The states of nodes and edges. -/
structure Marks where
  nodeState : NodeId → NodeState := fun _ => .unknown
  edgeState : EdgeId → NodeState := fun _ => .unknown

namespace Marks

variable (m : Marks)

def skipNode (n : NodeId) : Marks :=
  { m with nodeState := Function.update m.nodeState n .skipped }

def skipEdge (id : EdgeId) : Marks :=
  { m with edgeState := Function.update m.edgeState id .skipped }

theorem nodeState_skipNode_iff {n v : NodeId} :
    (m.skipNode n).nodeState v = .skipped ↔ v = n ∨ m.nodeState v = .skipped := by
  by_cases h : v = n
  · simp [skipNode, h]
  · simp [skipNode, h]

theorem edgeState_skipEdge_iff {id id' : EdgeId} :
    (m.skipEdge id).edgeState id' = .skipped ↔ id' = id ∨ m.edgeState id' = .skipped := by
  by_cases h : id' = id
  · simp [skipEdge, h]
  · simp [skipEdge, h]

/-- What is skipped stays skipped. -/
structure Le (m m' : Marks) : Prop where
  node : ∀ n, m.nodeState n = .skipped → m'.nodeState n = .skipped
  edge : ∀ id, m.edgeState id = .skipped → m'.edgeState id = .skipped

variable {m} {m' m'' : Marks}

theorem Le.refl : Le m m := ⟨fun _ h => h, fun _ h => h⟩

theorem Le.trans (h : Le m m') (h' : Le m' m'') : Le m m'' :=
  ⟨fun n hn => h'.node n (h.node n hn), fun id hid => h'.edge id (h.edge id hid)⟩

theorem le_skipNode (n : NodeId) : Le m (m.skipNode n) :=
  ⟨fun _ h => m.nodeState_skipNode_iff.mpr (.inr h), fun _ h => h⟩

theorem le_skipEdge (id : EdgeId) : Le m (m.skipEdge id) :=
  ⟨fun _ h => h, fun _ h => m.edgeState_skipEdge_iff.mpr (.inr h)⟩

end Marks

namespace RawGraph

variable (g : RawGraph)

/-- `out_edges.get(node_id, [])`. -/
def outgoing (n : NodeId) : List Edge := g.edges.filter fun e => e.tail = n

/-- `in_edges.get(node_id, [])`. -/
def incoming (n : NodeId) : List Edge := g.edges.filter fun e => e.head = n

/-- `top_level_roots`. -/
def topLevelRoots : List NodeId := (g.nodes.filter (·.executionType = .root)).map Node.id

/-- `inactive_roots`. -/
def inactiveRoots (active : NodeId) : List NodeId := g.topLevelRoots.filter (· ≠ active)

/-- Every incoming edge is skipped. -/
def allSkipped (m : Marks) (n : NodeId) : Bool :=
  (g.incoming n).all fun e => m.edgeState e.id = .skipped

/-- One turn of the loop over the outgoing edges, with the recursive call as an argument. -/
def markEdge (recurse : NodeId → Marks → Option Marks) (m : Marks) (e : Edge) : Option Marks :=
  if g.allSkipped (m.skipEdge e.id) e.head then
    recurse e.head ((m.skipEdge e.id).skipNode e.head)
  else some (m.skipEdge e.id)

/-- `mark_downstream`, to a depth of recursion. -/
def markDownstream : Nat → NodeId → Marks → Option Marks
  | 0, _, _ => none
  | fuel + 1, n, m =>
    if m.nodeState n ≠ .skipped then some m
    else (g.outgoing n).foldlM (g.markEdge (markDownstream fuel)) m

/-- `_mark_inactive_root_branches`, to a depth of recursion. -/
def markInactiveRootBranches (fuel : Nat) (active : NodeId) : Option Marks :=
  if g.topLevelRoots.length ≤ 1 ∨ active ∉ g.topLevelRoots then some {}
  else (g.inactiveRoots active).foldlM (fun m r => g.markDownstream fuel r m)
    ((g.inactiveRoots active).foldl Marks.skipNode {})

/-- The step relation of the graph. -/
def Step (u v : NodeId) : Prop := ∃ e ∈ g.edges, e.tail = u ∧ e.head = v

/-- What is left to inactive roots: they themselves, and what only edges from there lead to. -/
inductive Pruned (active : NodeId) : NodeId → Prop where
  | root {r : NodeId} : r ∈ g.inactiveRoots active → Pruned active r
  | join {n : NodeId} : g.incoming n ≠ [] → (∀ e ∈ g.incoming n, Pruned active e.tail) →
    Pruned active n

/-- An edge between pruned nodes of which the second has incoming edges from pruned nodes only. -/
def Descends (active u v : NodeId) : Prop :=
  g.Step u v ∧ ∀ e ∈ g.incoming v, g.Pruned active e.tail

variable {n u v : NodeId} {e : Edge}

@[simp] theorem mem_outgoing : e ∈ g.outgoing n ↔ e ∈ g.edges ∧ e.tail = n := by
  simp [outgoing]

@[simp] theorem mem_incoming : e ∈ g.incoming n ↔ e ∈ g.edges ∧ e.head = n := by
  simp [incoming]

@[simp] theorem mem_inactiveRoots {active r : NodeId} :
    r ∈ g.inactiveRoots active ↔ r ∈ g.topLevelRoots ∧ r ≠ active := by
  simp [inactiveRoots]

theorem allSkipped_iff {m : Marks} :
    g.allSkipped m n = true ↔ ∀ e ∈ g.incoming n, m.edgeState e.id = .skipped := by
  simp [allSkipped]

variable {g}

theorem edge_ext {f : Edge} (he : e ∈ g.edges) (hf : f ∈ g.edges) (h : e.id = f.id) : e = f :=
  List.inj_on_of_nodup_map g.edges_nodup he hf h

/-! ### What a call preserves -/

/-- Only pruned nodes are skipped, only their edges, and every node that only skipped edges lead
to. -/
structure Sound (g : RawGraph) (active : NodeId) (m : Marks) : Prop where
  node : ∀ n, m.nodeState n = .skipped → g.Pruned active n
  edge : ∀ e ∈ g.edges, m.edgeState e.id = .skipped → m.nodeState e.tail = .skipped
  join : ∀ n, g.incoming n ≠ [] → (∀ e ∈ g.incoming n, m.edgeState e.id = .skipped) →
    m.nodeState n = .skipped

/-- Every edge from the node is skipped. -/
def Done (g : RawGraph) (m : Marks) (n : NodeId) : Prop :=
  ∀ e ∈ g.outgoing n, m.edgeState e.id = .skipped

theorem Done.mono {m m' : Marks} (h : g.Done m n) (hle : m.Le m') : g.Done m' n :=
  fun e he => hle.edge e.id (h e he)

/-- What a call leaves: more is skipped, and each node newly skipped has its edges skipped. -/
structure Advance (g : RawGraph) (active : NodeId) (m m' : Marks) : Prop where
  sound : g.Sound active m'
  le : m.Le m'
  done : ∀ v, m'.nodeState v = .skipped → m.nodeState v = .skipped ∨ g.Done m' v

variable {active : NodeId} {m m' m'' : Marks}

theorem Advance.refl (h : g.Sound active m) : g.Advance active m m :=
  ⟨h, .refl, fun _ hv => .inl hv⟩

theorem Advance.trans (h : g.Advance active m m') (h' : g.Advance active m' m'') :
    g.Advance active m m'' where
  sound := h'.sound
  le := h.le.trans h'.le
  done v hv := by
    rcases h'.done v hv with hv' | hdone
    · exact (h.done v hv').imp_right fun hdone => hdone.mono h'.le
    · exact .inr hdone

theorem Sound.skipEdge (h : g.Sound active m) (he : e ∈ g.edges)
    (htail : m.nodeState e.tail = .skipped) :
    (∀ f ∈ g.edges, (m.skipEdge e.id).edgeState f.id = .skipped → m.nodeState f.tail = .skipped) ∧
      ∀ n, n ≠ e.head → g.incoming n ≠ [] →
        (∀ f ∈ g.incoming n, (m.skipEdge e.id).edgeState f.id = .skipped) →
        m.nodeState n = .skipped := by
  refine ⟨fun f hf hskip => ?_, fun n hn hne hall => h.join n hne fun f hf => ?_⟩
  · rcases m.edgeState_skipEdge_iff.mp hskip with hid | hskip
    · rwa [edge_ext hf he hid]
    · exact h.edge f hf hskip
  · obtain ⟨hmem, hhead⟩ := g.mem_incoming.mp hf
    refine (m.edgeState_skipEdge_iff.mp (hall f hf)).resolve_left fun hid => hn ?_
    rw [← hhead, edge_ext hmem he hid]

theorem Sound.pruned (h : g.Sound active m) (he : e ∈ g.edges)
    (htail : m.nodeState e.tail = .skipped) (hall : g.allSkipped (m.skipEdge e.id) e.head = true) :
    ∀ f ∈ g.incoming e.head, g.Pruned active f.tail := by
  intro f hf
  have hskip := g.allSkipped_iff.mp hall f hf
  exact h.node _ ((h.skipEdge he htail).1 f (g.mem_incoming.mp hf).1 hskip)

theorem Sound.skipNode (h : g.Sound active m) (he : e ∈ g.edges)
    (htail : m.nodeState e.tail = .skipped) (hall : g.allSkipped (m.skipEdge e.id) e.head = true) :
    g.Sound active ((m.skipEdge e.id).skipNode e.head) := by
  obtain ⟨hedges, hjoins⟩ := h.skipEdge he htail
  refine ⟨fun n hn => ?_, fun f hf hf' => ?_, fun n hne hn => ?_⟩
  · rcases (Marks.nodeState_skipNode_iff _).mp hn with rfl | hn
    · have hincoming : e ∈ g.incoming e.head := g.mem_incoming.mpr ⟨he, rfl⟩
      exact .join (List.ne_nil_of_mem hincoming) (h.pruned he htail hall)
    · exact h.node n hn
  · exact (Marks.le_skipNode _).node _ (hedges f hf hf')
  · refine (Marks.nodeState_skipNode_iff _).mpr ?_
    by_cases hhead : n = e.head
    · exact .inl hhead
    · exact .inr (hjoins n hhead hne hn)

variable {recurse : NodeId → Marks → Option Marks}

private theorem markEdge_spec
    (hrec : ∀ n m m', g.Sound active m → m.nodeState n = .skipped → recurse n m = some m' →
      g.Advance active m m' ∧ g.Done m' n) (he : e ∈ g.edges)
    (hm : g.Sound active m) (htail : m.nodeState e.tail = .skipped)
    (h : g.markEdge recurse m e = some m') :
    g.Advance active m m' ∧ m'.edgeState e.id = .skipped := by
  have hskip : (m.skipEdge e.id).edgeState e.id = .skipped :=
    m.edgeState_skipEdge_iff.mpr (.inl rfl)
  unfold markEdge at h
  split at h
  next hall =>
    obtain ⟨hadv, hdone⟩ := hrec _ _ _ (hm.skipNode he htail hall)
      ((Marks.nodeState_skipNode_iff _).mpr (.inl rfl)) h
    refine ⟨⟨hadv.sound, ((Marks.le_skipEdge e.id).trans (Marks.le_skipNode e.head)).trans
      hadv.le, fun v hv => ?_⟩, hadv.le.edge _ hskip⟩
    rcases hadv.done v hv with hv' | hdone'
    · rcases (Marks.nodeState_skipNode_iff _).mp hv' with rfl | hv'
      · exact .inr hdone
      · exact .inl hv'
    · exact .inr hdone'
  next hall =>
    cases h
    obtain ⟨hedges, hjoins⟩ := hm.skipEdge he htail
    refine ⟨⟨⟨hm.node, hedges, fun n hne hn => ?_⟩, Marks.le_skipEdge e.id, fun v hv => .inl hv⟩,
      hskip⟩
    by_cases hhead : n = e.head
    · subst hhead
      exact absurd (g.allSkipped_iff.mpr hn) hall
    · exact hjoins n hhead hne hn

private theorem foldlM_markEdge_spec
    (hrec : ∀ n m m', g.Sound active m → m.nodeState n = .skipped → recurse n m = some m' →
      g.Advance active m m' ∧ g.Done m' n) {es : List Edge}
    (hes : ∀ e ∈ es, e ∈ g.outgoing n) (hm : g.Sound active m) (hn : m.nodeState n = .skipped)
    (h : es.foldlM (g.markEdge recurse) m = some m') :
    g.Advance active m m' ∧ ∀ e ∈ es, m'.edgeState e.id = .skipped := by
  induction es generalizing m with
  | nil =>
    cases h
    exact ⟨.refl hm, by simp⟩
  | cons e es ih =>
    rw [List.foldlM_cons] at h
    obtain ⟨k, hk, hrest⟩ := Option.bind_eq_some_iff.mp h
    obtain ⟨he, hes⟩ := List.forall_mem_cons.mp hes
    obtain ⟨hmem, htail⟩ := g.mem_outgoing.mp he
    obtain ⟨hadv, hskip⟩ := markEdge_spec hrec hmem hm (htail ▸ hn) hk
    obtain ⟨hadv', hall⟩ := ih hes hadv.sound (hadv.le.node n hn) hrest
    exact ⟨hadv.trans hadv', List.forall_mem_cons.mpr ⟨hadv'.le.edge _ hskip, hall⟩⟩

variable {fuel : Nat}

private theorem markDownstream_spec (hm : g.Sound active m)
    (hn : m.nodeState n = .skipped) (h : g.markDownstream fuel n m = some m') :
    g.Advance active m m' ∧ g.Done m' n := by
  induction fuel generalizing n m m' with
  | zero => cases h
  | succ fuel ih =>
    rw [markDownstream, if_neg (not_not_intro hn)] at h
    exact foldlM_markEdge_spec (fun _ _ _ hm hn h => ih hm hn h) (fun _ he => he) hm hn h

/-! ### Calls that return -/

variable (g) in
/-- The nodes of the graph as a finite carrier. -/
private def ids : Finset NodeId := (g.nodes.map Node.id).toFinset

private theorem descends_head_mem (h : g.Descends active u v) : v ∈ g.ids := by
  obtain ⟨⟨e, he, -, rfl⟩, -⟩ := h
  exact List.mem_toFinset.mpr (g.head_mem e he)

variable {height : NodeId → Nat}

private theorem exists_markDownstream (hheight : ∀ u v, g.Descends active u v → height v < height u)
    (hm : g.Sound active m) (hn : m.nodeState n = .skipped) (hfuel : height n < fuel) :
    ∃ m', g.markDownstream fuel n m = some m' := by
  induction fuel generalizing n m with
  | zero => cases hfuel
  | succ fuel ih =>
    rw [markDownstream, if_neg (not_not_intro hn)]
    suffices hloop : ∀ es : List Edge, (∀ e ∈ es, e ∈ g.outgoing n) → ∀ m, g.Sound active m →
        m.nodeState n = .skipped →
        ∃ m', es.foldlM (g.markEdge (g.markDownstream fuel)) m = some m' by
      exact hloop _ (fun _ he => he) m hm hn
    intro es hes
    induction es with
    | nil => exact fun m _ _ => ⟨m, rfl⟩
    | cons e es ihes =>
      intro m hm hn
      obtain ⟨he, hes⟩ := List.forall_mem_cons.mp hes
      obtain ⟨hmem, rfl⟩ := g.mem_outgoing.mp he
      obtain ⟨k, hk⟩ : ∃ k, g.markEdge (g.markDownstream fuel) m e = some k := by
        unfold markEdge
        split
        next hall =>
          -- the recursion goes down a step
          have hlt := hheight e.tail e.head ⟨⟨e, hmem, rfl, rfl⟩, hm.pruned hmem hn hall⟩
          exact ih (hm.skipNode hmem hn hall) ((Marks.nodeState_skipNode_iff _).mpr (.inl rfl))
            (Nat.lt_of_lt_of_le hlt (Nat.le_of_lt_succ hfuel))
        next => exact ⟨_, rfl⟩
      obtain ⟨hadv, -⟩ := markEdge_spec (fun _ _ _ => markDownstream_spec) hmem hm hn hk
      obtain ⟨m', hm'⟩ := ihes hes k hadv.sound (hadv.le.node _ hn)
      exact ⟨m', by rw [List.foldlM_cons, hk]; exact hm'⟩

/-! ### Calls that do not return -/

section Recursion

variable {recurse : NodeId → Marks → Option Marks}

theorem markEdge_le (hrec : ∀ n m m', recurse n m = some m' → m.Le m') {e : Edge}
    (h : g.markEdge recurse m e = some m') : m.Le m' := by
  unfold markEdge at h
  split at h
  next =>
    exact ((Marks.le_skipEdge e.id).trans (Marks.le_skipNode e.head)).trans (hrec _ _ _ h)
  next =>
    cases h
    exact Marks.le_skipEdge e.id

theorem foldlM_markEdge_le (hrec : ∀ n m m', recurse n m = some m' → m.Le m')
    {es : List Edge} (h : es.foldlM (g.markEdge recurse) m = some m') : m.Le m' := by
  induction es generalizing m with
  | nil =>
    cases h
    exact .refl
  | cons e es ih =>
    rw [List.foldlM_cons] at h
    obtain ⟨k, hk, hrest⟩ := Option.bind_eq_some_iff.mp h
    exact (markEdge_le hrec hk).trans (ih hrest)

theorem foldlM_markEdge_eq_none (hrec : ∀ n m m', recurse n m = some m' → m.Le m')
    {es : List Edge} {e : Edge} (he : e ∈ es)
    (hnone : ∀ k, m.Le k → g.markEdge recurse k e = none) :
    es.foldlM (g.markEdge recurse) m = none := by
  induction es generalizing m with
  | nil => cases he
  | cons f es ih =>
    rw [List.foldlM_cons]
    cases hk : g.markEdge recurse m f with
    | none => rfl
    | some k =>
      rcases List.mem_cons.mp he with rfl | he
      · rw [hnone m .refl] at hk
        cases hk
      · exact ih he fun k' hk' => hnone k' ((markEdge_le hrec hk).trans hk')

end Recursion

theorem markDownstream_le (h : g.markDownstream fuel n m = some m') : m.Le m' := by
  induction fuel generalizing n m m' with
  | zero => cases h
  | succ fuel ih =>
    unfold markDownstream at h
    split at h
    next =>
      cases h
      exact .refl
    next => exact foldlM_markEdge_le (fun _ _ _ hrec => ih hrec) h

/-- Every edge that leads into the set is skipped. -/
def Full (g : RawGraph) (c : Set NodeId) (m : Marks) : Prop :=
  ∀ v ∈ c, ∀ e ∈ g.incoming v, m.edgeState e.id = .skipped

/-- Every node of the set has an edge back into the set. -/
def Recurrent (g : RawGraph) (c : Set NodeId) : Prop := ∀ v ∈ c, ∃ e ∈ g.outgoing v, e.head ∈ c

variable {c : Set NodeId}

theorem Full.mono (h : g.Full c m) (hle : m.Le m') : g.Full c m' :=
  fun v hv e he => hle.edge e.id (h v hv e he)

theorem markDownstream_of_full (hc : g.Recurrent c) (hv : v ∈ c)
    (hfull : g.Full c m) (hskip : m.nodeState v = .skipped) :
    g.markDownstream fuel v m = none := by
  induction fuel generalizing v m with
  | zero => rfl
  | succ fuel ih =>
    obtain ⟨e, he, hhead⟩ := hc v hv
    rw [markDownstream, if_neg (not_not_intro hskip)]
    refine foldlM_markEdge_eq_none (fun _ _ _ => markDownstream_le) he fun k hk => ?_
    have hfull' : g.Full c (k.skipEdge e.id) := hfull.mono (hk.trans (Marks.le_skipEdge e.id))
    rw [markEdge, if_pos (g.allSkipped_iff.mpr (hfull' e.head hhead))]
    exact ih hhead (hfull'.mono (Marks.le_skipNode e.head))
      ((Marks.nodeState_skipNode_iff _).mpr (.inl rfl))

private theorem markEdge_not_full (hc : g.Recurrent c) (hrec : ∀ n m m', ¬ g.Full c m →
    g.markDownstream fuel n m = some m' → ¬ g.Full c m') (he : e ∈ g.edges)
    (hm : ¬ g.Full c m) (h : g.markEdge (g.markDownstream fuel) m e = some m') :
    ¬ g.Full c m' := by
  -- only the edge that is skipped can be the last one
  have hhead : g.Full c (m.skipEdge e.id) → e.head ∈ c := by
    intro hfull
    by_contra hhead
    refine hm fun v hv f hf => ?_
    refine (m.edgeState_skipEdge_iff.mp (hfull v hv f hf)).resolve_left fun hid => hhead ?_
    obtain ⟨hmem, rfl⟩ := g.mem_incoming.mp hf
    rwa [← edge_ext hmem he hid]
  unfold markEdge at h
  split at h
  next =>
    refine hrec _ _ _ (fun hfull => ?_) h
    rw [markDownstream_of_full hc (hhead hfull) hfull
      ((Marks.nodeState_skipNode_iff _).mpr (.inl rfl))] at h
    cases h
  next hall =>
    cases h
    exact fun hfull => hall (g.allSkipped_iff.mpr (hfull e.head (hhead hfull)))

private theorem markDownstream_not_full (hc : g.Recurrent c)
    (hm : ¬ g.Full c m) (h : g.markDownstream fuel n m = some m') : ¬ g.Full c m' := by
  induction fuel generalizing n m m' with
  | zero => cases h
  | succ fuel ih =>
    unfold markDownstream at h
    split at h
    next =>
      cases h
      exact hm
    next hskip =>
      clear hskip
      have hes : ∀ e ∈ g.outgoing n, e ∈ g.edges := fun e he => (g.mem_outgoing.mp he).1
      generalize g.outgoing n = es at h hes
      induction es generalizing m with
      | nil =>
        cases h
        exact hm
      | cons e es ihes =>
        rw [List.foldlM_cons] at h
        obtain ⟨k, hk, hrest⟩ := Option.bind_eq_some_iff.mp h
        obtain ⟨he, hes⟩ := List.forall_mem_cons.mp hes
        exact ihes (markEdge_not_full hc (fun _ _ _ hm h => ih hm h) he hm hk) hrest hes

/-! ### The whole marking -/

private theorem nodeState_foldl_skipNode (roots : List NodeId) (m : Marks) (n : NodeId) :
    (roots.foldl Marks.skipNode m).nodeState n = .skipped ↔
      n ∈ roots ∨ m.nodeState n = .skipped := by
  induction roots generalizing m with
  | nil => simp
  | cons r roots ih =>
    rw [List.foldl_cons, ih, Marks.nodeState_skipNode_iff, List.mem_cons]
    tauto

private theorem edgeState_foldl_skipNode (roots : List NodeId) (m : Marks) :
    (roots.foldl Marks.skipNode m).edgeState = m.edgeState := by
  induction roots generalizing m with
  | nil => rfl
  | cons r roots ih => exact ih _

variable (g active) in
/-- What is marked before the first call. -/
private def start : Marks := (g.inactiveRoots active).foldl Marks.skipNode {}

private theorem nodeState_start (n : NodeId) :
    (g.start active).nodeState n = .skipped ↔ n ∈ g.inactiveRoots active := by
  rw [start, nodeState_foldl_skipNode]
  simp

private theorem edgeState_start (id : EdgeId) : (g.start active).edgeState id ≠ .skipped := by
  rw [start, edgeState_foldl_skipNode]
  simp

private theorem sound_start : g.Sound active (g.start active) := by
  refine ⟨fun n hn => .root (nodeState_start n |>.mp hn), fun e _ he => ?_, fun n hne hall => ?_⟩
  · exact absurd he (edgeState_start e.id)
  · obtain ⟨e, he⟩ := List.exists_mem_of_ne_nil _ hne
    exact absurd (hall e he) (edgeState_start e.id)

theorem not_pruned_of_length (hlength : g.topLevelRoots.length ≤ 1)
    (hactive : active ∈ g.topLevelRoots) (n : NodeId) : ¬ g.Pruned active n := by
  intro h
  induction h with
  | root hr =>
    obtain ⟨hr, hne⟩ := g.mem_inactiveRoots.mp hr
    obtain ⟨a, ha⟩ : ∃ a, g.topLevelRoots = [a] := by
      match hroots : g.topLevelRoots with
      | [] =>
        rw [hroots] at hr
        cases hr
      | [a] => exact ⟨a, rfl⟩
      | _ :: _ :: _ =>
        rw [hroots] at hlength
        cases hlength with
        | step h => cases h
    rw [ha] at hr hactive
    exact hne ((List.mem_singleton.mp hr).trans (List.mem_singleton.mp hactive).symm)
  | join hne _ ih =>
    obtain ⟨e, he⟩ := List.exists_mem_of_ne_nil _ hne
    exact ih e he

variable {roots : List NodeId}

private theorem foldlM_markDownstream_spec
    (hm : g.Sound active m) (hroots : ∀ r ∈ roots, m.nodeState r = .skipped)
    (h : roots.foldlM (fun m r => g.markDownstream fuel r m) m = some m') :
    g.Advance active m m' ∧ ∀ r ∈ roots, g.Done m' r := by
  induction roots generalizing m with
  | nil =>
    cases h
    exact ⟨.refl hm, by simp⟩
  | cons r roots ih =>
    rw [List.foldlM_cons] at h
    obtain ⟨k, hk, hrest⟩ := Option.bind_eq_some_iff.mp h
    obtain ⟨hr, hroots⟩ := List.forall_mem_cons.mp hroots
    obtain ⟨hadv, hdone⟩ := markDownstream_spec hm hr hk
    obtain ⟨hadv', hall⟩ := ih hadv.sound (fun r hr => hadv.le.node r (hroots r hr)) hrest
    exact ⟨hadv.trans hadv', List.forall_mem_cons.mpr ⟨hdone.mono hadv'.le, hall⟩⟩

private theorem skipped_iff_of_calls
    (h : (g.inactiveRoots active).foldlM (fun m r => g.markDownstream fuel r m)
      (g.start active) = some m) : (∀ n, m.nodeState n = .skipped ↔ g.Pruned active n) ∧
      ∀ e ∈ g.edges, m.edgeState e.id = .skipped ↔ g.Pruned active e.tail := by
  obtain ⟨hadv, hroots⟩ :=
    foldlM_markDownstream_spec sound_start (fun r hr => (nodeState_start r).mpr hr) h
  have hdone : ∀ n, m.nodeState n = .skipped → g.Done m n := by
    intro n hn
    rcases hadv.done n hn with hn | hn
    · exact hroots n ((nodeState_start n).mp hn)
    · exact hn
  have hnode : ∀ n, m.nodeState n = .skipped ↔ g.Pruned active n := by
    intro n
    refine ⟨hadv.sound.node n, fun hp => ?_⟩
    induction hp with
    | root hr => exact hadv.le.node _ ((nodeState_start _).mpr hr)
    | join hne _ ih =>
      refine hadv.sound.join _ hne fun e he => hdone e.tail (ih e he) e ?_
      exact g.mem_outgoing.mpr ⟨(g.mem_incoming.mp he).1, rfl⟩
  refine ⟨hnode, fun e he => ?_⟩
  rw [← hnode]
  exact ⟨hadv.sound.edge e he, fun htail => hdone e.tail htail e (g.mem_outgoing.mpr ⟨he, rfl⟩)⟩

theorem skipped_iff (hactive : active ∈ g.topLevelRoots)
    (h : g.markInactiveRootBranches fuel active = some m) :
    (∀ n, m.nodeState n = .skipped ↔ g.Pruned active n) ∧
      ∀ e ∈ g.edges, m.edgeState e.id = .skipped ↔ g.Pruned active e.tail := by
  unfold markInactiveRootBranches at h
  split at h
  next hguard =>
    cases h
    have hnone := not_pruned_of_length (hguard.resolve_right (not_not_intro hactive)) hactive
    exact ⟨fun n => by simp [hnone], fun e _ => by simp [hnone]⟩
  next => exact skipped_iff_of_calls h

theorem Descends.pruned (h : g.Descends active u v) : g.Pruned active u := by
  obtain ⟨⟨e, he, rfl, rfl⟩, hall⟩ := h
  exact hall e (g.mem_incoming.mpr ⟨he, rfl⟩)

private theorem exists_calls (hheight : ∀ u v, g.Descends active u v → height v < height u)
    (hfuel : ∀ n, height n < fuel) (hm : g.Sound active m)
    (hroots : ∀ r ∈ roots, m.nodeState r = .skipped) :
    ∃ m', roots.foldlM (fun m r => g.markDownstream fuel r m) m = some m' := by
  induction roots generalizing m with
  | nil => exact ⟨m, rfl⟩
  | cons r roots ih =>
    obtain ⟨hr, hroots⟩ := List.forall_mem_cons.mp hroots
    obtain ⟨k, hk⟩ := exists_markDownstream hheight hm hr (hfuel r)
    obtain ⟨hadv, -⟩ := markDownstream_spec hm hr hk
    obtain ⟨m', hm'⟩ := ih hadv.sound fun r hr => hadv.le.node r (hroots r hr)
    exact ⟨m', by rw [List.foldlM_cons, hk]; exact hm'⟩

private theorem calls_not_full (hc : g.Recurrent c) (hm : ¬ g.Full c m)
    (h : roots.foldlM (fun m r => g.markDownstream fuel r m) m = some m') : ¬ g.Full c m' := by
  induction roots generalizing m with
  | nil =>
    cases h
    exact hm
  | cons r roots ih =>
    rw [List.foldlM_cons] at h
    obtain ⟨k, hk, hrest⟩ := Option.bind_eq_some_iff.mp h
    exact ih (markDownstream_not_full hc hm hk) hrest

private theorem acyclic_of_calls
    (h : (g.inactiveRoots active).foldlM (fun m r => g.markDownstream fuel r m)
      (g.start active) = some m) : Base.Acyclic (g.Descends active) := by
  intro a hcycle
  let c : Set NodeId := {v | TransGen (g.Descends active) a v ∧ TransGen (g.Descends active) v a}
  have hc : g.Recurrent c := by
    rintro v ⟨hav, hva⟩
    obtain ⟨w, hvw, hwa⟩ := TransGen.head'_iff.mp hva
    obtain ⟨⟨e, he, rfl, rfl⟩, -⟩ := id hvw
    exact ⟨e, g.mem_outgoing.mpr ⟨he, rfl⟩, hav.tail hvw, .trans_right hwa hcycle⟩
  have hstart : ¬ g.Full c (g.start active) := by
    obtain ⟨e, he, hhead⟩ := hc a ⟨hcycle, hcycle⟩
    intro hfull
    have hincoming : e ∈ g.incoming e.head := g.mem_incoming.mpr ⟨(g.mem_outgoing.mp he).1, rfl⟩
    exact edgeState_start e.id (hfull e.head hhead e hincoming)
  refine calls_not_full hc hstart h ?_
  rintro v ⟨hav, -⟩ e he
  obtain ⟨u, -, -, hall⟩ := TransGen.tail'_iff.mp hav
  exact ((skipped_iff_of_calls h).2 e (g.mem_incoming.mp he).1).mpr (hall e he)

theorem ends_iff (hactive : active ∈ g.topLevelRoots) :
    (∃ fuel m, g.markInactiveRootBranches fuel active = some m) ↔
      Base.Acyclic (g.Descends active) := by
  by_cases hlength : g.topLevelRoots.length ≤ 1
  · have hnone := not_pruned_of_length hlength hactive
    refine iff_of_true ⟨0, {}, if_pos (.inl hlength)⟩ fun a hcycle => ?_
    obtain ⟨b, hab, -⟩ := TransGen.head'_iff.mp hcycle
    exact hnone a hab.pruned
  · have hmark (fuel : Nat) : g.markInactiveRootBranches fuel active =
        (g.inactiveRoots active).foldlM (fun m r => g.markDownstream fuel r m) (g.start active) :=
      if_neg (by simp [hlength, hactive])
    constructor
    · rintro ⟨fuel, m, h⟩
      rw [hmark] at h
      exact acyclic_of_calls h
    · intro h
      obtain ⟨height, hlt, hle⟩ := h.exists_height g.ids fun _ _ => descends_head_mem
      obtain ⟨m, hm⟩ := exists_calls hlt (fun n => Nat.lt_succ_of_le (hle n)) sound_start
        fun r hr => (nodeState_start r).mpr hr
      exact ⟨_, m, (hmark _).trans hm⟩

/-! ### The exact marking -/

variable (g active) in
/-- The marking ends with the nodes skipped that are inactive roots or that edges from skipped nodes
alone lead to, the edges from them, and nothing that the active root reaches. -/
def Exact : Prop :=
  ∃ fuel m, g.markInactiveRootBranches fuel active = some m ∧
    (∀ n, m.nodeState n = .skipped ↔ n ∈ g.inactiveRoots active ∨
      g.incoming n ≠ [] ∧ ∀ e ∈ g.incoming n, m.nodeState e.tail = .skipped) ∧
    (∀ e ∈ g.edges, m.edgeState e.id = .skipped ↔ m.nodeState e.tail = .skipped) ∧
    ∀ n, ReflTransGen g.Step active n → m.nodeState n ≠ .skipped

variable (g active) in
/-- No path leads from the active root to an inactive one, an edge leads to the active root from
outside the pruned part if any does, and no step down leads back to where it started. -/
structure Separate : Prop where
  apart : ∀ r ∈ g.inactiveRoots active, ¬ ReflTransGen g.Step active r
  entered : g.incoming active ≠ [] → ∃ e ∈ g.incoming active, ¬ g.Pruned active e.tail
  acyclic : Base.Acyclic (g.Descends active)

theorem pruned_iff : g.Pruned active n ↔ n ∈ g.inactiveRoots active ∨
    g.incoming n ≠ [] ∧ ∀ e ∈ g.incoming n, g.Pruned active e.tail := by
  constructor
  · intro h
    cases h with
    | root hr => exact .inl hr
    | join hne hall => exact .inr ⟨hne, hall⟩
  · rintro (hr | ⟨hne, hall⟩)
    · exact .root hr
    · exact .join hne hall

theorem not_pruned_of_reachable (h : g.Separate active)
    (hn : ReflTransGen g.Step active n) : ¬ g.Pruned active n := by
  induction hn with
  | refl =>
    intro hp
    rcases pruned_iff.mp hp with hr | ⟨hne, hall⟩
    · exact h.apart active hr .refl
    · obtain ⟨e, he, hnot⟩ := h.entered hne
      exact hnot (hall e he)
  | @tail u v hu hstep ih =>
    intro hp
    rcases pruned_iff.mp hp with hr | ⟨-, hall⟩
    · exact h.apart v hr (hu.tail hstep)
    · obtain ⟨e, he, rfl, rfl⟩ := hstep
      exact ih (hall e (g.mem_incoming.mpr ⟨he, rfl⟩))

theorem separate_of_exact (hactive : active ∈ g.topLevelRoots) (h : g.Exact active) :
    g.Separate active := by
  obtain ⟨fuel, m, hm, -, -, hreach⟩ := h
  have hnode := (skipped_iff hactive hm).1
  refine ⟨fun r hr hpath => hreach r hpath ((hnode r).mpr (.root hr)), fun hne => ?_,
    (ends_iff hactive).mp ⟨fuel, m, hm⟩⟩
  by_contra hall
  push Not at hall
  exact hreach active .refl ((hnode active).mpr (.join hne hall))

theorem exact_of_separate (hactive : active ∈ g.topLevelRoots) (h : g.Separate active) :
    g.Exact active := by
  obtain ⟨fuel, m, hm⟩ := (ends_iff hactive).mpr h.acyclic
  obtain ⟨hnode, hedge⟩ := skipped_iff hactive hm
  refine ⟨fuel, m, hm, fun n => ?_, fun e he => ?_, fun n hn => ?_⟩
  · simp only [hnode]
    exact pruned_iff
  · rw [hedge e he, hnode]
  · rw [Ne, hnode]
    exact not_pruned_of_reachable h hn

/-- Which graphs are marked exactly. -/
theorem exact_iff (hactive : active ∈ g.topLevelRoots) : g.Exact active ↔ g.Separate active :=
  ⟨separate_of_exact hactive, exact_of_separate hactive⟩

/-- Two roots, of which the active one leads to the other. -/
def crossed : RawGraph where
  nodes := [{ id := "start", executionType := .root }, { id := "webhook", executionType := .root }]
  edges := [{ id := "edge_0", tail := "start", head := "webhook" }]

theorem exact_iff_crossed : crossed.Exact "start" ↔ crossed.Separate "start" :=
  exact_iff (by decide)

/-- A root that the active root leads to is skipped. -/
theorem crossed_not_exact : "start" ∈ crossed.topLevelRoots ∧ ¬ crossed.Exact "start" := by
  refine ⟨by decide, fun h => ?_⟩
  have hpath : ReflTransGen crossed.Step "start" "webhook" :=
    .single ⟨_, List.mem_singleton_self _, rfl, rfl⟩
  exact (separate_of_exact (by decide) h).apart "webhook" (by decide) hpath

end RawGraph

end PlatformSpec.Workflow
