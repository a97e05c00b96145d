import PlatformSpec.Response.Activation
import PlatformSpec.Scheduling.Completion

/-!
# Sessions of executed response nodes

The coordinator decides by paths of blocking edges, the scheduler by readiness. Along a run
the coordinator has struck out exactly the edges that the successes have taken. At the end
of the run a path without untaken blocking edges is a walk of taken edges, and such a walk
leads to a taken node as soon as every incoming edge on the way is known.
-/

namespace PlatformSpec.Scheduling

open Relation Base Workflow Engine PlatformSpec.Runtime
  Response

/-- The edges taken once the nodes `done` have succeeded. -/
def takenEdges (g : Graph) (handles : NodeId → String) (done : List NodeId) : Set EdgeId :=
  {id | ∃ e ∈ g.edges, e.id = id ∧ e.tail ∈ done ∧ selects g handles e = true}

/-- The coordinator has seen exactly the edges the successes of the run have taken. -/
structure InStep (g : Graph) (handles : NodeId → String) (x : EngineState) : Prop where
  follows : Follows (recordedPaths g) (fun _ => takenEdges g handles x.succeededNodes)
    x.coordinator
  registered : ∀ r ∈ x.coordinator.responseNodes, ∃ n ∈ g.nodes, n.id = r ∧
    n.executionType = .response ∧ ∃ session, ResponseSession.fromNode n = .ok session

namespace InStep

variable {g : Graph} {handles : NodeId → String} {x y : EngineState}

theorem congr (h : InStep g handles x) (hc : SameSessions x.coordinator y.coordinator)
    (hs : y.succeededNodes = x.succeededNodes) : InStep g handles y := by
  refine ⟨?_, ?_⟩
  · rw [hs]
    exact h.follows.congr hc
  · rw [hc.responseNodes]
    exact h.registered

private theorem follows_takeEdges (pool : VariablePool) {P : NodeId → List Path}
    (es : List Edge) (r : EdgeResult) {K : Set EdgeId}
    (h : Follows P (fun _ => K) r.coordinator) :
    Follows P (fun _ => K ∪ {id | ∃ e ∈ es, e.id = id})
        (es.foldl (processTakenEdge g pool) r).coordinator ∧
      (es.foldl (processTakenEdge g pool) r).coordinator.responseNodes =
        r.coordinator.responseNodes := by
  induction es generalizing r K with
  | nil => exact ⟨by simpa using h, rfl⟩
  | cons e es ih =>
    have hone := Coordinator.follows_onEdgeTaken
      ⟨g, (r.tracking.markEdgeTaken e.id).nodeState, pool⟩ h e.id
    obtain ⟨hf, hr⟩ := ih (processTakenEdge g pool r e) hone
    have hK : insert e.id K ∪ {id | ∃ f ∈ es, f.id = id} =
        K ∪ {id | ∃ f ∈ e :: es, f.id = id} := by
      ext id
      simp only [Set.mem_union, Set.mem_insert_iff, Set.mem_ofPred_eq, List.exists_mem_cons_iff,
        eq_comm (a := e.id)]
      tauto
    rw [hK] at hf
    exact ⟨hf, hr.trans (Coordinator.onEdgeTaken_responseNodes _ _ _)⟩

theorem takenEdges_append (done : List NodeId) {u : NodeId} {handle : String}
    (hh : g.executionType u = .branch → handle = handles u) :
    takenEdges g handles (done ++ [u]) =
      takenEdges g handles done ∪ {id | ∃ e ∈ selectedEdges g u handle, e.id = id} := by
  have hsel : ∀ e ∈ g.edges, e.tail = u →
      (selects g handles e = true ↔ e ∈ selectedEdges g u handle) := by
    rintro e he rfl
    rw [mem_selectedEdges, Graph.mem_outgoing]
    simp only [he, and_self, true_and, selects, ne_eq, Bool.or_eq_true, decide_eq_true_eq]
    by_cases hb : g.executionType e.tail = .branch
    · simp [hb, hh hb]
    · simp [hb]
  ext id
  constructor
  · rintro ⟨e, he, rfl, hd, hs⟩
    rcases List.mem_append.mp hd with hd | hd
    · exact .inl ⟨e, he, rfl, hd, hs⟩
    · exact .inr ⟨e, (hsel e he (List.mem_singleton.mp hd)).mp hs, rfl⟩
  · rintro (⟨e, he, rfl, hd, hs⟩ | ⟨e, he, rfl⟩)
    · exact ⟨e, he, rfl, List.mem_append_left _ hd, hs⟩
    · obtain ⟨hm, ht⟩ := Graph.mem_outgoing.mp ((mem_selectedEdges g).mp he).1
      exact ⟨e, hm, rfl, List.mem_append_right _ (List.mem_singleton.mpr ht),
        (hsel e hm ht).mpr he⟩

theorem succeeded (h : InStep g handles x) {u : NodeId} {result : NodeRunResult}
    (hh : g.executionType u = .branch → result.edgeSourceHandle = handles u) :
    InStep g handles (x.handleSucceeded g u result).1 := by
  have hflush : InStep g handles ((x.recordResult u result).flushStreams g) :=
    h.congr (Coordinator.sameSessions_tryFlush _ _) (EngineState.succeededNodes_flushStreams g _)
  rcases x.handleSucceeded_cases g u result with ⟨t, e, hy⟩ | ⟨t, r, y, hr, hy, hc, hcol⟩
  · rw [hy]
    exact hflush.congr (.refl _) rfl
  · obtain ⟨hf, hn⟩ := follows_takeEdges (g := g) (x.recordResult u result).data.variablePool
      (selectedEdges g u result.edgeSourceHandle)
      { ((x.recordResult u result).flushStreams g).edgeStart with tracking := t } hflush.follows
    rw [← hr, EngineState.succeededNodes_flushStreams, EngineState.succeededNodes_recordResult]
      at hf
    rw [← hr] at hn
    have hs : y.succeededNodes = x.succeededNodes ++ [u] := by
      have hz := EngineState.succeededNodes_flushStreams g (x.recordResult u result)
      rw [EngineState.succeededNodes_recordResult] at hz
      rw [← hz]
      simp [EngineState.succeededNodes, hcol, List.filterMap_append]
    rw [hy]
    refine ⟨?_, ?_⟩
    · rw [hs, takenEdges_append x.succeededNodes hh, hc]
      exact hf
    · rw [hc, hn]
      exact hflush.registered

/-- An honest event keeps scheduler and coordinator in step, whether its handler returns or
raises. -/
theorem dispatch (h : InStep g handles x) {event : NodeEvent} (hh : Honest g handles event)
    (he : ∀ id r m, event ≠ .exception id r m) (hr : ∀ id i m, event ≠ .retry id i m) :
    InStep g handles (x.dispatch g event).1 := by
  cases event with
  | started nodeId id =>
    simp only [EngineState.dispatch, EngineState.handleStarted]
    split
    next =>
      refine h.congr ⟨rfl, rfl, rfl, rfl⟩ ?_
      simp [EngineState.succeededNodes, EngineState.collect]
    next => exact h.congr ⟨rfl, rfl, rfl, rfl⟩ rfl
  | streamChunk nodeId chunk =>
    simp only [EngineState.dispatch, EngineState.handleStreamChunk]
    split
    next => exact h
    next c events hc =>
      refine h.congr (Coordinator.sameSessions_interceptChunk _ hc) ?_
      rw [EngineState.succeededNodes_collectStream]
      rfl
  | succeeded u result => exact h.succeeded hh
  | pauseRequested u reason =>
    simp only [EngineState.dispatch, EngineState.handlePauseRequested]
    split
    next => exact h
    next =>
      refine h.congr (.refl _) ?_
      simp [EngineState.succeededNodes, EngineState.collect]
  | failed => exact absurd hh (by simp [Honest])
  | exception id r m => exact absurd rfl (he id r m)
  | retry id i m => exact absurd rfl (hr id i m)
  | observed nodeId =>
    refine h.congr (.refl _) ?_
    simp [EngineState.dispatch, EngineState.succeededNodes, EngineState.collect]
  | inner container e =>
    refine h.congr (.refl _) ?_
    simp [EngineState.dispatch, EngineState.succeededNodes, EngineState.collect]

private theorem processCommands (h : InStep g handles x) (commands : List Command) :
    InStep g handles (x.processCommands commands) := by
  refine EngineState.processCommands_induction (fun y c _ hy => ?_) h
  obtain ⟨execution, pool, hc⟩ := y.handleCommand_frame c
  rw [hc]
  exact hy.congr (.refl _) rfl

private theorem markComplete (h : InStep g handles x) : InStep g handles x.markComplete := by
  rw [EngineState.markComplete_eq]
  exact h.congr (.refl _) rfl

theorem step {s s' : System} {a : Action} (h : InStep g handles s.engine)
    (ha : HonestAction g handles a) (hstep : s.step? g a = some s') :
    InStep g handles s'.engine := by
  cases System.step?_move hstep with
  | take => exact h.congr (.refl _) rfl
  | handle event commands polls hadm =>
    obtain ⟨-, hkind⟩ := Bool.and_eq_true_iff.mp hadm
    have hd := h.dispatch (show Honest g handles event from ha) (by rintro id r m rfl; cases hkind)
      (by rintro id i m rfl; cases hkind)
    cases hdisp : s.engine.dispatch g event with
    | mk y raised =>
      rw [hdisp] at hd
      cases raised with
      | some e =>
        rw [System.dispatchEvent_raised hdisp]
        exact markComplete (hd.congr (.refl _) rfl)
      | none =>
        rw [System.dispatchEvent_returned hdisp]
        simp only []
        split
        next => exact hd.processCommands commands
        next => exact hd
  | leaveMain commands => exact h.processCommands commands
  | leaveIdle => exact h
  | finish => exact h.markComplete

private theorem registered_foldlM (hg : g.Acyclic) (ns : List Node)
    (hns : ∀ n ∈ ns, n ∈ g.nodes ∧ n.executionType = .response) (c : Coordinator)
    (hf : Follows (recordedPaths g) (fun _ => ∅) c)
    (hreg : ∀ r ∈ c.responseNodes, ∃ n ∈ g.nodes, n.id = r ∧ n.executionType = .response ∧
      ∃ session, ResponseSession.fromNode n = .ok session) {c' : Coordinator}
    (h : ns.foldlM (fun c n => Coordinator.register c g n) c = .ok c') :
    Follows (recordedPaths g) (fun _ => ∅) c' ∧
      ∀ r ∈ c'.responseNodes, ∃ n ∈ g.nodes, n.id = r ∧ n.executionType = .response ∧
        ∃ session, ResponseSession.fromNode n = .ok session := by
  induction ns generalizing c with
  | nil =>
    cases h
    exact ⟨hf, hreg⟩
  | cons n ns ih =>
    rw [List.foldlM_cons] at h
    simp only [bind, Except.bind] at h
    split at h
    next => cases h
    next c₁ hc₁ =>
      obtain ⟨hn, ht⟩ := hns n (by simp)
      refine ih (fun m hm => hns m (by simp [hm])) c₁ (hf.register hg hn hc₁) ?_ h
      intro r hr
      rcases Coordinator.register_responseNodes hc₁ r hr with hr | ⟨rfl, hs⟩
      · exact hreg r hr
      · exact ⟨n, hn, rfl, ht, hs⟩

theorem start (hg : g.Acyclic) {o : SetOrder NodeId} {pool : VariablePool}
    (h : (EngineState.initial g o pool).startExecution g o = .ok x) : InStep g handles x := by
  unfold EngineState.startExecution EngineState.registerResponseNodes at h
  simp only [EngineState.initial, ↓reduceIte, bind, Except.bind] at h
  split at h
  next => cases h
  next z hz =>
    split at hz
    next => cases hz
    next c hc =>
      cases hz
      cases h
      obtain ⟨hf, hreg⟩ := registered_foldlM hg _
        (fun n hn => ⟨(List.mem_filter.mp hn).1, of_decide_eq_true (List.mem_filter.mp hn).2⟩)
        { setOrder := o } (.fresh o) (by simp) hc
      refine ⟨?_, hreg⟩
      have hK : takenEdges g handles [] = ∅ := by simp [takenEdges]
      simp only [EngineState.succeededNodes, List.filterMap_nil, hK]
      exact hf

end InStep

section Complete

variable {g : Graph} {hg : g.Acyclic} {handles : NodeId → String} {t : Tracking}

/-- Reachable from the root, or skipped by the marking of inactive roots. -/
def Anchored (g : Graph) (v : NodeId) : Prop :=
  ReflTransGen g.Step g.root v ∨ (initialTracking g).nodeState v = .skipped

theorem skipped_of_initial (hset : Settled (planOf g hg handles) t) (v : NodeId) :
    (initialTracking g).nodeState v = .skipped → t.nodeState v = .skipped := by
  obtain ⟨hinit, -⟩ := initialTracking_spec hg handles
  refine Graph.tail_induction hg (p := fun v => (initialTracking g).nodeState v = .skipped →
    t.nodeState v = .skipped) (fun v ih hv => ?_) v
  rw [hset.skipped v]
  refine ((hinit.node_skipped v (Set.notMem_empty _)).mp hv).imp_right fun hall => ?_
  refine ⟨hall.1, fun e he => ?_⟩
  have hem := (Graph.mem_incoming.mp he).1
  refine hset.edge_skipped e hem (ih e he ?_)
  by_contra hs
  have := hinit.idle e hem (Set.notMem_empty _) hs
  rw [hall.2 e he] at this
  cases this

private theorem edge_known (hset : Settled (planOf g hg handles) t) {e : Edge}
    (he : e ∈ g.edges) (hn : t.nodeState e.tail ≠ .unknown) : t.edgeState e.id ≠ .unknown := by
  cases hs : t.nodeState e.tail with
  | unknown => exact absurd hs hn
  | taken =>
    rw [hset.edge_taken e he hs]
    exact Plan.pick_ne_unknown _ e
  | skipped =>
    rw [hset.edge_skipped e he hs]
    simp

private theorem anchored_known (hset : Settled (planOf g hg handles) t)
    (hanchor : ∀ e ∈ g.edges, ReflTransGen g.Step g.root e.head → Anchored g e.tail) :
    ∀ e ∈ g.edges, ReflTransGen g.Step g.root e.head → t.edgeState e.id ≠ .unknown := by
  have hnode : ∀ v, Anchored g v → t.nodeState v ≠ .unknown := by
    intro v
    refine Graph.tail_induction hg (p := fun v => Anchored g v → t.nodeState v ≠ .unknown)
      (fun v ih hv => ?_) v
    rcases hv with hreach | hs
    · by_cases hr : v = g.root
      · rw [hr, show t.nodeState g.root = .taken from hset.root]
        simp
      · have hne : g.incoming v ≠ [] := by
          rcases hreach.cases_tail with he | ⟨u, -, e, he, -, hh⟩
          · exact absurd he hr
          · exact List.ne_nil_of_mem (Graph.mem_incoming.mpr ⟨he, hh⟩)
        have hk : ∀ e ∈ g.incoming v, t.edgeState e.id ≠ .unknown := by
          intro e he
          obtain ⟨hem, rfl⟩ := Graph.mem_incoming.mp he
          exact edge_known hset hem (ih e he (hanchor e hem hreach))
        rcases readyIn_or_allSkipped hne hk with hready | hall
        · rw [(hset.taken v hr).mpr hready]
          simp
        · rw [(hset.skipped v).mpr (.inr hall)]
          simp
    · rw [skipped_of_initial hset v hs]
      simp
  intro e he hreach
  exact edge_known hset he (hnode _ (hanchor e he hreach))

variable {done : List NodeId}

theorem mem_takenEdges {e : Edge} (he : e ∈ g.edges) :
    e.id ∈ takenEdges g handles done ↔ e.tail ∈ done ∧ selects g handles e = true := by
  constructor
  · rintro ⟨f, hf, hid, hd, hs⟩
    rw [← g.edge_ext hf he hid]
    exact ⟨hd, hs⟩
  · rintro ⟨hd, hs⟩
    exact ⟨e, he, rfl, hd, hs⟩

private theorem walk_taken (hset : Settled (planOf g hg handles) t)
    (hanchor : ∀ e ∈ g.edges, ReflTransGen g.Step g.root e.head → Anchored g e.tail)
    (done : List NodeId) (selectors : List Selector) {u v : NodeId} {es : List Edge}
    (hw : Walk g u es v) (hu : t.nodeState u = .taken) (hreach : ReflTransGen g.Step g.root u)
    (hes : ∀ e ∈ es, isBlocking g selectors e = true → e.id ∈ takenEdges g handles done) :
    t.nodeState v = .taken := by
  induction hw with
  | nil => exact hu
  | @cons e es v he hw ih =>
    have hsel : selects g handles e = true := by
      by_cases hb : isBlocking g selectors e = true
      · exact ((mem_takenEdges he).mp (hes e (by simp) hb)).2
      · -- An edge that does not block leaves a node that is no branch.
        have hnb : g.executionType e.tail ≠ .branch := by
          intro hbr
          exact hb (by simp [isBlocking, hbr])
        simp [selects, hnb]
    have htaken : t.edgeState e.id = .taken := by
      rw [hset.edge_taken e he hu]
      simp [Plan.pick, planOf, hsel]
    have hreach' : ReflTransGen g.Step g.root e.head := hreach.tail ⟨e, he, rfl, rfl⟩
    refine ih ?_ hreach' fun f hf => hes f (by simp [hf])
    by_cases hr : e.head = g.root
    · rw [hr]
      exact hset.root
    · refine (hset.taken e.head hr).mpr ⟨fun f hf => ?_, e, Graph.mem_incoming.mpr ⟨he, rfl⟩,
        htaken⟩
      obtain ⟨hfm, hfh⟩ := Graph.mem_incoming.mp hf
      exact anchored_known hset hanchor f hfm (hfh ▸ hreach')

private theorem taken_walk (hset : Settled (planOf g hg handles) t)
    (hdone : ∀ v, v ∈ done ↔ t.nodeState v = .taken) (v : NodeId) :
    t.nodeState v = .taken → ∃ es, Walk g g.root es v ∧
      ∀ e ∈ es, e.id ∈ takenEdges g handles done := by
  refine Graph.tail_induction hg (p := fun v => t.nodeState v = .taken → ∃ es,
    Walk g g.root es v ∧ ∀ e ∈ es, e.id ∈ takenEdges g handles done) (fun v ih hv => ?_) v
  by_cases hr : v = g.root
  · subst hr
    exact ⟨[], .nil _, by simp⟩
  · obtain ⟨-, e, he, htaken⟩ := (hset.taken v hr).mp hv
    obtain ⟨hem, rfl⟩ := Graph.mem_incoming.mp he
    have htail : t.nodeState e.tail = .taken := by
      cases hs : t.nodeState e.tail with
      | taken => rfl
      | skipped => rw [hset.edge_skipped e hem hs] at htaken; cases htaken
      | unknown => rw [hset.edge_unknown e hem hs] at htaken; cases htaken
    have hsel : selects g handles e = true := by
      rw [hset.edge_taken e hem htail] at htaken
      by_contra hns
      simp [Plan.pick, planOf, hns] at htaken
    obtain ⟨es, hw, hes⟩ := ih e he htail
    refine ⟨es ++ [e], hw.concat hem rfl, fun f hf => ?_⟩
    rcases List.mem_append.mp hf with hf | hf
    · exact hes f hf
    · rw [List.mem_singleton.mp hf]
      exact (mem_takenEdges hem).mpr ⟨(hdone _).mpr htail, hsel⟩

variable {session : ResponseSession}

private theorem registered_ne_root {n : Node} (hn : n ∈ g.nodes)
    (ht : n.executionType = .response)
    (hs : ResponseSession.fromNode n = .ok session) : g.root ≠ n.id := by
  intro hr
  rcases g.root_entry n hn hr.symm with hroot | hentry
  · rw [ht] at hroot
    cases hroot
  · unfold ResponseSession.fromNode at hs
    rw [if_pos] at hs
    · cases hs
    · intro hmem
      simp only [containerEntryTypes, responseSessionNodeTypes, List.mem_cons, List.not_mem_nil,
        or_false] at hentry hmem
      rcases hentry with h | h <;> rcases hmem with h' | h' <;> rw [h] at h' <;>
        exact absurd h' (by decide)

theorem opened_iff (hset : Settled (planOf g hg handles) t)
    (hanchor : ∀ e ∈ g.edges, ReflTransGen g.Step g.root e.head → Anchored g e.tail)
    (hdone : ∀ v, v ∈ done ↔ t.nodeState v = .taken) {n : Node}
    (hn : n ∈ g.nodes) (hroot : g.root ≠ n.id) (hs : ResponseSession.fromNode n = .ok session) :
    Opened (recordedPaths g n.id) (takenEdges g handles done) ↔ t.nodeState n.id = .taken := by
  obtain ⟨paths, hp⟩ : ∃ paths, Coordinator.buildPathsMap g n = .ok paths := by
    unfold Coordinator.buildPathsMap
    rw [if_neg hroot, hs]
    exact ⟨_, rfl⟩
  have hrec : recordedPaths g n.id = paths := by
    simp only [recordedPaths, g.node?_of_mem hn, hp]
    rfl
  obtain ⟨session', -, hpaths, -⟩ := mem_buildPathsMap hg hroot hp
  rw [hrec]
  constructor
  · rintro ⟨-, path, hpath, hall⟩
    obtain ⟨es, hw, rfl⟩ := (hpaths path).mp hpath
    refine walk_taken hset hanchor done (variableSelectors session'.template) hw hset.root .refl ?_
    intro e he hb
    exact hall e.id (List.mem_map_of_mem (List.mem_filter.mpr ⟨he, hb⟩))
  · intro htaken
    obtain ⟨es, hw, hes⟩ := taken_walk hset hdone n.id htaken
    have hne : (takenEdges g handles done).Nonempty := by
      cases es with
      | nil => exact absurd hw.nil_inv hroot
      | cons e es => exact ⟨e.id, hes e (by simp)⟩
    refine ⟨hne, _, (hpaths _).mpr ⟨es, hw, rfl⟩, fun id hid => ?_⟩
    obtain ⟨e, he, rfl⟩ := List.mem_map.mp hid
    exact hes e (List.mem_filter.mp he).1

end Complete

/-- A branch with one answer on each arm. -/
def replies : Graph where
  nodes := [
    { id := "start", nodeType := "start", executionType := .root },
    { id := "branch", nodeType := "if-else", executionType := .branch },
    { id := "yes", nodeType := "answer", executionType := .response, content := .answer "Yes" },
    { id := "no", nodeType := "answer", executionType := .response, content := .answer "No" }]
  edges := [
    { id := "e0", tail := "start", head := "branch" },
    { id := "e1", tail := "branch", head := "yes", sourceHandle := "true" },
    { id := "e2", tail := "branch", head := "no", sourceHandle := "false" }]
  root := "start"

theorem replies_acyclic : replies.Acyclic :=
  Graph.acyclic_of_order ["start", "branch", "yes", "no"] (by decide)

/-- The moves of a run of `replies` through its first arm. -/
def repliesRun : List Action :=
  [.take, .handle (.succeeded "start" {}) [],
    .take, .handle (.succeeded "branch" { edgeSourceHandle := "true" }) [],
    .take, .handle (.succeeded "yes" {}) []]

/-- An answer that also waits for a node nothing leads to. -/
def strayFeed : Graph where
  nodes := [
    { id := "start", nodeType := "start", executionType := .root },
    { id := "stray" },
    { id := "reply", nodeType := "answer", executionType := .response, content := .answer "Hi" }]
  edges := [
    { id := "e0", tail := "start", head := "reply" },
    { id := "e1", tail := "stray", head := "reply" }]
  root := "start"

/-- The moves of a run of `strayFeed`; the answer never becomes ready. -/
def strayRun : List Action := [.take, .handle (.succeeded "start" {}) []]

end PlatformSpec.Scheduling
