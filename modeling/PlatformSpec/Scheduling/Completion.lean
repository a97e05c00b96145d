import PlatformSpec.Scheduling.Accounting

/-!
# Completed runs

When nothing is queued, running or set aside, every scheduled node has succeeded and the
states solve equations that mention the graph and the selected handles only. On an acyclic
graph the equations have one solution, so the order of completions leaves no trace.
-/

namespace PlatformSpec.Scheduling

open Base Workflow Engine PlatformSpec.Runtime

/-- The equations of a completed run. -/
structure Settled (p : Plan) (t : Tracking) : Prop where
  root : t.nodeState p.graph.root = .taken
  taken : ∀ v, v ≠ p.graph.root → (t.nodeState v = .taken ↔ ReadyIn p.graph t.edgeState v)
  skipped : ∀ v, t.nodeState v = .skipped ↔ p.initial v ∨ AllSkipped p.graph t.edgeState v
  edge_taken : ∀ e ∈ p.graph.edges, t.nodeState e.tail = .taken → t.edgeState e.id = p.pick e
  edge_skipped : ∀ e ∈ p.graph.edges, t.nodeState e.tail = .skipped → t.edgeState e.id = .skipped
  edge_unknown : ∀ e ∈ p.graph.edges, t.nodeState e.tail = .unknown → t.edgeState e.id = .unknown

namespace Settled

variable {p : Plan} {t t' : Tracking}

private theorem edge_congr (h : Settled p t) (h' : Settled p t') {e : Edge}
    (he : e ∈ p.graph.edges) (hn : t.nodeState e.tail = t'.nodeState e.tail) :
    t.edgeState e.id = t'.edgeState e.id := by
  cases hs : t.nodeState e.tail with
  | taken => rw [h.edge_taken e he hs, h'.edge_taken e he (hn ▸ hs)]
  | skipped => rw [h.edge_skipped e he hs, h'.edge_skipped e he (hn ▸ hs)]
  | unknown => rw [h.edge_unknown e he hs, h'.edge_unknown e he (hn ▸ hs)]

theorem nodeState_unique (hg : p.graph.Acyclic) (h : Settled p t) (h' : Settled p t') :
    ∀ v, t.nodeState v = t'.nodeState v := by
  intro v
  refine Graph.tail_induction hg (p := fun v => t.nodeState v = t'.nodeState v) (fun v ih => ?_) v
  have hes : ∀ e ∈ p.graph.incoming v, t.edgeState e.id = t'.edgeState e.id := fun e he =>
    h.edge_congr h' (Graph.mem_incoming.mp he).1 (ih e he)
  by_cases hr : v = p.graph.root
  · rw [hr, h.root, h'.root]
  · have ht : t.nodeState v = .taken ↔ t'.nodeState v = .taken := by
      rw [h.taken v hr, h'.taken v hr, readyIn_congr hes]
    have hs : t.nodeState v = .skipped ↔ t'.nodeState v = .skipped := by
      rw [h.skipped v, h'.skipped v, allSkipped_congr hes]
    cases hv : t.nodeState v with
    | taken => exact (ht.mp hv).symm
    | skipped => exact (hs.mp hv).symm
    | unknown =>
      cases hv' : t'.nodeState v with
      | taken => rw [ht.mpr hv'] at hv; cases hv
      | skipped => rw [hs.mpr hv'] at hv; cases hv
      | unknown => rfl

theorem edgeState_unique (hg : p.graph.Acyclic) (h : Settled p t) (h' : Settled p t') :
    ∀ e ∈ p.graph.edges, t.edgeState e.id = t'.edgeState e.id := fun _ he =>
  h.edge_congr h' he (h.nodeState_unique hg h' _)

theorem known (hg : p.graph.Acyclic) (h : Settled p t)
    (hsource : ∀ v ∈ p.graph.ids, v ≠ p.graph.root → p.graph.incoming v ≠ []) :
    (∀ v ∈ p.graph.ids, t.nodeState v = .taken ∨ t.nodeState v = .skipped) ∧
      ∀ e ∈ p.graph.edges, t.edgeState e.id = .taken ∨ t.edgeState e.id = .skipped := by
  have hedge : ∀ e ∈ p.graph.edges,
      (t.nodeState e.tail = .taken ∨ t.nodeState e.tail = .skipped) →
      t.edgeState e.id = .taken ∨ t.edgeState e.id = .skipped := by
    rintro e he (hs | hs)
    · rw [h.edge_taken e he hs]
      unfold Plan.pick
      split
      next => exact .inl rfl
      next => exact .inr rfl
    · exact .inr (h.edge_skipped e he hs)
  have hnode : ∀ v, v ∈ p.graph.ids → t.nodeState v = .taken ∨ t.nodeState v = .skipped := by
    intro v
    refine Graph.tail_induction hg (p := fun v => v ∈ p.graph.ids →
      t.nodeState v = .taken ∨ t.nodeState v = .skipped) (fun v ih hv => ?_) v
    by_cases hr : v = p.graph.root
    · exact .inl (hr ▸ h.root)
    · have hk : ∀ e ∈ p.graph.incoming v, t.edgeState e.id ≠ .unknown := by
        intro e he hu
        obtain ⟨hem, -⟩ := Graph.mem_incoming.mp he
        have htail := ih e he (List.mem_toFinset.mpr (p.graph.tail_mem e hem))
        rcases hedge e hem htail with hs | hs
        · rw [hs] at hu
          cases hu
        · rw [hs] at hu
          cases hu
      rcases readyIn_or_allSkipped (hsource v hv hr) hk with hready | hall
      · exact .inl ((h.taken v hr).mpr hready)
      · exact .inr ((h.skipped v).mpr (.inr hall))
  exact ⟨hnode, fun e he => hedge e he (hnode _ (List.mem_toFinset.mpr (p.graph.tail_mem e he)))⟩

end Settled

/-- With nothing executing and no pause, the states solve the equations and exactly the
taken nodes have succeeded. -/
theorem Accounted.settled {p : Plan} {earlier : List NodeId} {S : Set NodeId} {x : EngineState}
    {running : List NodeId} (h : Accounted p earlier S x running)
    (hx : x.tracking.executingNodes = ∅) (hp : x.execution.paused = false) :
    Settled p x.tracking ∧
      ∀ v, v ∈ earlier ++ x.succeededNodes ↔ x.tracking.nodeState v = .taken := by
  have hw : ∀ v, ¬ Waiting x v := by
    intro v hv
    rw [h.waiting_paused v hv] at hp
    cases hp
  obtain ⟨hqueue, hrunning⟩ := h.idle hx
  have hdone : ∀ v ∈ S, v ∈ earlier ++ x.succeededNodes := by
    intro v hv
    by_contra hn
    rcases (h.active v).mpr ⟨hv, hn⟩ with ha | ha
    · rw [hqueue, hrunning] at ha
      cases ha
    · exact hw v ha
  have hS : ∀ v, x.tracking.nodeState v = .taken ↔ v ∈ S := fun v =>
    ⟨h.consistent.taken_scheduled v, fun hv => h.taken v hv (hw v)⟩
  have hno : ∀ e : Edge, e ∉ (∅ : Set Edge) := fun e => Set.notMem_empty e
  refine ⟨⟨(hS _).mpr h.root, ?_, ?_, ?_, ?_, ?_⟩, fun v => ?_⟩
  · intro v hr
    rw [hS]
    exact h.consistent.scheduled v hr (Set.notMem_empty v)
  · exact fun v => h.consistent.node_skipped v (Set.notMem_empty v)
  · exact fun e he hs => h.consistent.done e he (hno e) (hdone _ ((hS _).mp hs))
  · exact fun e he hs => h.consistent.skipped e he (hno e) hs
  · intro e he hs
    refine h.consistent.idle e he (fun hd => ?_) fun hk => ?_
    · rw [(hS _).mpr (h.consistent.done_scheduled hd)] at hs
      cases hs
    · rw [hk] at hs
      cases hs
  · rw [hS]
    exact ⟨fun hv => h.consistent.done_scheduled hv, hdone v⟩

/-! ### Runs without failure, pause or abort -/

/-- Events that neither fail nor pause the run. -/
def Untroubled (g : Graph) (handles : NodeId → String) : Action → Prop
  | .take => True
  | .handle event commands =>
    Honest g handles event ∧ (∀ id reason, event ≠ .pauseRequested id reason) ∧
      ∀ c ∈ commands, ∃ updates, c = .updateVariables updates
  | .leave commands => ∀ c ∈ commands, ∃ updates, c = .updateVariables updates

variable {commands : List Command}

private theorem processCommands_execution {x : EngineState}
    (hc : ∀ c ∈ commands, ∃ updates, c = .updateVariables updates) :
    (x.processCommands commands).execution = x.execution := by
  refine EngineState.processCommands_induction (P := fun y => y.execution = x.execution)
    (fun y c hin hy => ?_) rfl
  obtain ⟨updates, rfl⟩ := hc c hin
  exact hy

variable {g : Graph}

private theorem dispatchEvent_unpaused {s : System} {event : NodeEvent}
    (polls : Bool) (hp : s.engine.execution.paused = false)
    (hne : ∀ id reason, event ≠ .pauseRequested id reason)
    (hc : ∀ c ∈ commands, ∃ updates, c = .updateVariables updates) :
    (s.dispatchEvent g event commands polls).engine.execution.paused = false := by
  have hd := EngineState.dispatch_paused g s.engine hne
  rw [hp] at hd
  cases hdisp : s.engine.dispatch g event with
  | mk y raised =>
    rw [hdisp] at hd
    cases raised with
    | some e =>
      rw [System.dispatchEvent_raised hdisp]
      simp only []
      rw [EngineState.markComplete_eq]
      exact hd
    | none =>
      rw [System.dispatchEvent_returned hdisp]
      simp only []
      split
      next =>
        rw [processCommands_execution hc]
        exact hd
      next => exact hd

variable {handles : NodeId → String}

private theorem step_unpaused {s s' : System}
    {a : Action} (hp : s.engine.execution.paused = false) (ha : Untroubled g handles a)
    (hstep : s.step? g a = some s') : s'.engine.execution.paused = false := by
  cases System.step?_move hstep with
  | take => exact hp
  | handle event commands polls => exact dispatchEvent_unpaused polls hp ha.2.1 ha.2.2
  | leaveMain commands =>
    simp only []
    rw [processCommands_execution ha]
    exact hp
  | leaveIdle => exact hp
  | finish =>
    unfold System.finishLoop
    rw [EngineState.markComplete_eq]
    exact hp

theorem Untroubled.honest {a : Action} (h : Untroubled g handles a) : HonestAction g handles a := by
  cases a with
  | take => trivial
  | handle event commands => exact h.1
  | leave commands => trivial

/-- Everywhere along an untroubled run the account is kept and nothing is paused. -/
theorem accounted_run (hg : g.Acyclic)
    {o : SetOrder NodeId} {pool : VariablePool} {as : List Action} {s : System}
    (has : ∀ a ∈ as, Untroubled g handles a) (hrun : System.firstRun g o pool [] as = some s) :
    ∃ S, Accounted (planOf g hg handles) [] S s.engine s.running ∧
      s.engine.execution.paused = false := by
  obtain ⟨x, hx, hrun⟩ := System.firstRun_eq_some.mp hrun
  obtain ⟨h0, hp0⟩ := accounted_start hg handles hx
  refine run_invariant _ (P := fun s => ∃ S, Accounted (planOf g hg handles) [] S s.engine
    s.running ∧ s.engine.execution.paused = false) ?_ ⟨_, h0, hp0⟩ has hrun
  rintro s a s' ⟨S, hacc, hp⟩ ha hstep
  obtain ⟨S', hacc'⟩ := accounted_step hacc ha.honest hstep
  exact ⟨S', hacc', step_unpaused hp ha hstep⟩

/-- A branch whose arms rejoin. -/
def diamond : Graph where
  nodes := [
    { id := "start", nodeType := "start", executionType := .root },
    { id := "branch", nodeType := "if-else", executionType := .branch },
    { id := "left" },
    { id := "right" },
    { id := "join" }]
  edges := [
    { id := "e0", tail := "start", head := "branch" },
    { id := "e1", tail := "branch", head := "left", sourceHandle := "true" },
    { id := "e2", tail := "branch", head := "right", sourceHandle := "false" },
    { id := "e3", tail := "left", head := "join" },
    { id := "e4", tail := "right", head := "join" }]
  root := "start"

theorem diamond_acyclic : diamond.Acyclic :=
  Graph.acyclic_of_order ["start", "branch", "left", "right", "join"] (by decide)

/-- The moves of a run of `diamond` through its left arm. -/
def diamondRun : List Action :=
  [.take, .handle (.succeeded "start" {}) [],
    .take, .handle (.succeeded "branch" { edgeSourceHandle := "true" }) [],
    .take, .handle (.succeeded "left" {}) [],
    .take, .handle (.succeeded "join" {}) []]

end PlatformSpec.Scheduling
