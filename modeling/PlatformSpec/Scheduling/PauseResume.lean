import PlatformSpec.Engine.Restore
import PlatformSpec.Scheduling.Completion

/-!
# Pausing and resuming

A campaign is a run that may be paused, dumped, restored on a freshly initialised graph and
resumed any number of times. The account of scheduled nodes carries over from one part to
the next, so a campaign that is not paused at its end has settled the same equations as a
run that is never paused.
-/

namespace PlatformSpec.Scheduling

open Base Workflow Engine PlatformSpec.Runtime
  Response

/-! ### Carrying the account over a resume -/

variable {g : Graph}

theorem Below.mem_ids {v : NodeId} (h : Below g v) : v ∈ g.ids := by
  rcases h with h | ⟨r, hr, h⟩
  · obtain ⟨u, -, hs⟩ := Relation.TransGen.tail'_iff.mp h
    exact Graph.step_head_mem hs
  · rcases h.cases_tail with rfl | ⟨u, -, hs⟩
    · exact List.mem_toFinset.mpr (mem_inactiveRoots hr).2.2.2
    · exact Graph.step_head_mem hs

variable {handles : NodeId → String} {S D X : Set NodeId} {hg : g.Acyclic}

theorem Consistent.unknown_of_notMem {E : Set Edge} {t : Tracking}
    (h : Consistent (planOf g hg handles) S D E X t) {v : NodeId} (hv : v ∉ g.ids) :
    t.nodeState v = .unknown := by
  cases hs : t.nodeState v with
  | unknown => rfl
  | skipped => exact absurd (h.skipped_live v hs).mem_ids hv
  | taken =>
    rcases h.live v (h.taken_scheduled v hs) with rfl | hb
    · exact absurd (List.mem_toFinset.mpr g.root_mem) hv
    · exact absurd hb.mem_ids hv

theorem Consistent.scheduleAll_mem {p : Plan} {t : Tracking}
    (h : Consistent p S D ∅ ∅ t) (L : List NodeId) (hL : ∀ v ∈ L, v ∈ S) :
    Consistent p S D ∅ ∅ (t.scheduleAll L) := by
  unfold Tracking.scheduleAll
  induction L generalizing t with
  | nil => exact h
  | cons v L ih =>
    refine ih (t := t.schedule v) ?_ fun w hw => hL w (by simp [hw])
    exact (h.setNode (hL v (by simp)) (s := .taken) (by simp)).of_states rfl rfl

variable {x y : EngineState} {o : SetOrder NodeId}

theorem Reloaded.nodeState_eq {E : Set Edge}
    (hy : Reloaded g o x y) (h : Consistent (planOf g hg handles) S D E X x.tracking)
    (v : NodeId) : y.tracking.nodeState v = x.tracking.nodeState v := by
  obtain ⟨hinit, -⟩ := initialTracking_spec hg handles
  rw [hy.nodeState]
  split
  next => rfl
  next hv => rw [hinit.unknown_of_notMem hv, h.unknown_of_notMem hv]

variable {earlier : List NodeId}

/-- Resuming a paused engine with nothing in flight: what was set aside is queued again. -/
theorem Accounted.resume {z : EngineState} {running : List NodeId}
    (h : Accounted (planOf g hg handles) earlier S x running)
    (hidle : x.tracking.executingNodes = ∅) (hstarted : x.execution.started = true)
    (hy : Reloaded g o x y) (hz : y.startExecution g o = .ok z) :
    Accounted (planOf g hg handles) (earlier ++ x.succeededNodes) S z [] := by
  obtain ⟨hqueue, hrunning⟩ := h.idle hidle
  obtain ⟨c, rfl⟩ := EngineState.startExecution_resumed (by rw [hy.execution, hstarted]) hz
  obtain ⟨hnd, hmem⟩ := EngineState.firstOccurrences_spec
    (o.iterate y.data.pausedNodes ++ o.iterate y.data.deferredNodes)
  generalize EngineState.firstOccurrences
    (o.iterate y.data.pausedNodes ++ o.iterate y.data.deferredNodes) = L at hnd hmem
  have hL : ∀ v, v ∈ L ↔ Waiting x v := by
    intro v
    rw [hmem, List.mem_append, SetOrder.mem_iterate, SetOrder.mem_iterate, hy.data]
    exact or_comm
  have hLS : ∀ v ∈ L, v ∈ S ∧ v ∉ earlier ++ x.succeededNodes := fun v hv =>
    (h.active v).mp (.inr ((hL v).mp hv))
  obtain ⟨hedge, hnode, hq, hexec, hhist⟩ := Tracking.scheduleAll_spec y.tracking L
  have hsame := Reloaded.nodeState_eq hy h.consistent
  have hcons : Consistent (planOf g hg handles) S {v | v ∈ earlier ++ x.succeededNodes} ∅ ∅
      (y.tracking.scheduleAll L) :=
    (h.consistent.congr hsame hy.edgeState).scheduleAll_mem L fun v hv => (hLS v hv).1
  generalize hw : ({ y with
    execution := { y.execution with started := true, paused := false, pauseReasons := [] }
    data := { y.data with pausedNodes := ∅, deferredNodes := ∅ }
    coordinator := c
    tracking := y.tracking.scheduleAll L } : EngineState) = w
  have htr : w.tracking = y.tracking.scheduleAll L := by rw [← hw]
  have hsucc : w.succeededNodes = [] := by
    rw [← hw]
    simp [EngineState.succeededNodes, hy.collected]
  have hwait : ∀ v, ¬ Waiting w v := by
    intro v
    rw [← hw]
    simp [Waiting]
  have hwq : w.tracking.readyQueue ++ ([] : List NodeId) = L := by
    rw [htr, hq, hy.readyQueue, hqueue]
    simp
  refine ⟨?_, ?_, ?_, ?_, fun v _ => hwait v, ?_, ?_, fun v hv => absurd hv (hwait v), h.root,
    ?_, ?_, ?_⟩
  · rw [htr, hsucc, List.append_nil]
    exact hcons
  · rw [hsucc, List.append_nil]
    exact h.done_nodup
  · rw [hwq]
    exact hnd
  · intro v
    rw [hwq, hsucc, List.append_nil]
    constructor
    · rintro (hv | hv)
      · exact hLS v hv
      · exact absurd hv (hwait v)
    · intro hv
      rcases (h.active v).mpr hv with ha | ha
      · rw [hqueue, hrunning] at ha
        cases ha
      · exact .inl ((hL v).mpr ha)
  · intro v
    rw [hwq, htr, hexec, hy.executingNodes]
    simp
  · intro v hv _
    rw [htr, hnode]
    split
    next => rfl
    next hvL =>
      rw [hsame]
      exact h.taken v hv fun hvw => hvL ((hL v).mpr hvw)
  · rw [htr, Tracking.enqueued, hhist, hy.history, List.nil_append, List.map_map]
    simpa [Function.comp_def] using hnd
  · intro v hv
    rw [htr, Tracking.enqueued, hhist, hy.history] at hv
    simp only [List.nil_append, List.map_map] at hv
    obtain ⟨v', hv', rfl⟩ := List.mem_map.mp hv
    exact (hLS v' hv').1
  · intro r hr hroot
    rw [htr, hhist, hy.history, List.nil_append] at hr
    obtain ⟨v, hv, rfl⟩ := List.mem_map.mp hr
    have hready := (h.consistent.scheduled v hroot (Set.notMem_empty v)).mp (hLS v hv).1
    refine (readyIn_congr fun e he => ?_).mp hready
    exact (hy.edgeState e (Graph.mem_incoming.mp he).1).symm

/-! ### Campaigns -/

/-- Moves of a campaign: no node fails, branches select the given handles, no chunk is put
on a stream that its final chunk has closed, and nobody aborts. -/
def Cooperative (g : Graph) (handles : NodeId → String) (s : System) : Action → Prop
  | .take => True
  | .handle event commands =>
    Honest g handles event ∧
      (∀ id chunk, event = .streamChunk id chunk →
        chunk.selector ∉ s.engine.coordinator.closedStreams) ∧
      ∀ c ∈ commands, ∀ reason, c ≠ .abort reason
  | .leave commands => ∀ c ∈ commands, ∀ reason, c ≠ .abort reason

/-- Systems reached by running, pausing, dumping, restoring and resuming. The list are the
nodes that succeeded before the last resume. -/
inductive Campaign (g : Graph) (handles : NodeId → String) : List NodeId → System → Prop where
  | start {o : SetOrder NodeId} {pool : VariablePool} {x : EngineState}
    (commands : List Command) (hc : ∀ c ∈ commands, ∀ reason, c ≠ .abort reason)
    (hx : (EngineState.initial g o pool).startExecution g o = .ok x) :
    Campaign g handles [] (System.start x commands)
  | step {earlier : List NodeId} {s s' : System} {a : Action}
    (h : Campaign g handles earlier s) (ha : Cooperative g handles s a)
    (hstep : s.step? g a = some s') : Campaign g handles earlier s'
  | resume {earlier : List NodeId} {s : System} {o : SetOrder NodeId} {y x : EngineState}
    (h : Campaign g handles earlier s) (hdone : s.phase = .done)
    (hpaused : s.engine.execution.paused = true) (hy : s.engine.reload g o = .ok y)
    (hx : y.startExecution g o = .ok x) (commands : List Command)
    (hc : ∀ c ∈ commands, ∀ reason, c ≠ .abort reason) :
    Campaign g handles (earlier ++ s.engine.succeededNodes) (System.start x commands)

/-- An execution aggregate without failure or abort. -/
structure Clean (x : GraphExecution) : Prop where
  started : x.started = true
  aborted : x.aborted = false
  error : x.error = none
  exceptionsCount : x.exceptionsCount = 0
  reasons : x.paused = true → x.pauseReasons ≠ []

/-- The execution of a campaign: clean, complete only when done and not paused, and idle
when the dispatcher has left its loops. -/
structure Healthy (s : System) : Prop where
  clean : Clean s.engine.execution
  incomplete : s.phase ≠ .done ∨ s.engine.execution.paused = true →
    s.engine.execution.completed = false
  idle : s.phase = .drainQueue ∨ s.phase = .done → s.engine.tracking.executingNodes = ∅

variable {commands : List Command}

private theorem clean_processCommands
    (h : Clean x.execution) (hc : ∀ c ∈ commands, ∀ reason, c ≠ .abort reason) :
    Clean (x.processCommands commands).execution ∧
      (x.processCommands commands).execution.completed = x.execution.completed ∧
      (x.processCommands commands).tracking = x.tracking := by
  refine EngineState.processCommands_induction
    (P := fun y => Clean y.execution ∧ y.execution.completed = x.execution.completed ∧
      y.tracking = x.tracking) (fun y c hin hy => ?_) ⟨h, rfl, rfl⟩
  obtain ⟨hclean, hcompleted, htracking⟩ := hy
  rcases y.handleCommand_cases c with ⟨reason, message, rfl, -⟩ | ⟨reason, -, -, heq⟩ | ⟨pool, heq⟩
  · exact absurd rfl (hc _ hin reason)
  · rw [heq]
    exact ⟨⟨hclean.started, hclean.aborted, hclean.error, hclean.exceptionsCount, by simp⟩,
      hcompleted, htracking⟩
  · rw [heq]
    exact ⟨hclean, hcompleted, htracking⟩

section Steps

variable {g : Graph} {hg : g.Acyclic} {handles : NodeId → String} {earlier : List NodeId}
  {S : Set NodeId}

private theorem dispatch_returns
    (hne : ∀ u, g.executionType u = .branch → handles u ≠ "") {s : System}
    (h : Accounted (planOf g hg handles) earlier S s.engine s.running)
    (hclean : Clean s.engine.execution) (hcomp : s.engine.execution.completed = false)
    {event : NodeEvent} (hadm : s.admits event = true) {commands : List Command}
    (hco : Cooperative g handles s (.handle event commands)) :
    ∃ y, s.engine.dispatch g event = (y, none) := by
  obtain ⟨hh, hchunk, -⟩ := hco
  unfold System.admits at hadm
  obtain ⟨hrun, hkind⟩ := Bool.and_eq_true_iff.mp hadm
  have hu : event.nodeId ∈ s.running := of_decide_eq_true hrun
  cases event with
  | started id e => exact ⟨_, rfl⟩
  | streamChunk id chunk =>
    have hopen := hchunk id chunk rfl
    simp only [EngineState.dispatch, EngineState.handleStreamChunk, Coordinator.interceptChunk,
      Coordinator.appendStreamChunk, hopen, ↓reduceIte]
    exact ⟨_, rfl⟩
  | succeeded u result =>
    have hsel : ∀ e ∈ g.outgoing u, selects g handles e =
        (g.executionType u ≠ .branch || e.sourceHandle = result.edgeSourceHandle) := by
      intro e he
      obtain ⟨-, rfl⟩ := Graph.mem_outgoing.mp he
      unfold selects
      by_cases hb : g.executionType e.tail = .branch
      · rw [hh hb]
      · simp [hb]
    rcases h.succeeded hg hu result hsel with ⟨S', y, hy, -⟩ | ⟨hb, hempty, -⟩
    · exact ⟨y, hy⟩
    · exact absurd ((hh hb).symm.trans hempty) (hne u hb)
  | pauseRequested id reason =>
    simp only [EngineState.dispatch, EngineState.handlePauseRequested, GraphExecution.pause,
      hcomp, hclean.aborted, Bool.false_eq_true, ↓reduceIte]
    exact ⟨_, rfl⟩
  | failed => exact absurd hh (by simp [Honest])
  | exception => cases hkind
  | retry => cases hkind
  | observed id => exact ⟨_, rfl⟩
  | inner c e => exact ⟨_, rfl⟩

private theorem clean_dispatch {x : EngineState} {event : NodeEvent} (h : Clean x.execution)
    (hf : ∀ id r m, event ≠ .failed id r m) (hr : ∀ id i m, event ≠ .retry id i m) :
    Clean (x.dispatch g event).1.execution ∧
      (x.dispatch g event).1.execution.completed = x.execution.completed := by
  obtain ⟨n, hn | ⟨id, reason, -, -, -, hn⟩⟩ := x.dispatch_execution g hf hr
  · rw [hn]
    exact ⟨⟨h.started, h.aborted, h.error, h.exceptionsCount, h.reasons⟩, rfl⟩
  · rw [hn]
    exact ⟨⟨h.started, h.aborted, h.error, h.exceptionsCount, by simp⟩, rfl⟩

private theorem healthy_step (hne : ∀ u, g.executionType u = .branch → handles u ≠ "")
    {s s' : System} {a : Action}
    (hacc : Accounted (planOf g hg handles) earlier S s.engine s.running) (h : Healthy s)
    (ha : Cooperative g handles s a) (hstep : s.step? g a = some s') : Healthy s' := by
  cases System.step?_move hstep with
  | take id rest hq =>
    refine ⟨h.clean, h.incomplete, fun hph => ?_⟩
    rw [(hacc.idle (h.idle hph)).1] at hq
    cases hq
  | handle event commands polls hadm hmain hpolls hdone =>
    have hcomp := h.incomplete (.inl hdone)
    obtain ⟨y, hy⟩ := dispatch_returns hne hacc h.clean hcomp hadm ha
    have hkinds : (∀ id r m, event ≠ .failed id r m) ∧ ∀ id i m, event ≠ .retry id i m := by
      refine ⟨?_, ?_⟩
      · rintro id r m rfl
        exact ha.1
      · rintro id i m rfl
        simp [System.admits] at hadm
    obtain ⟨hclean, hcompy⟩ := clean_dispatch (g := g) h.clean hkinds.1 hkinds.2
    rw [hy] at hclean hcompy
    rw [System.dispatchEvent_returned hy]
    have hphase : s.phase ≠ .drainQueue := by
      intro hph
      have hrun := (hacc.idle (h.idle (.inl hph))).2
      simp [System.admits, hrun] at hadm
    refine ⟨?_, fun _ => ?_, fun hph => ?_⟩
    · simp only []
      split
      next => exact (clean_processCommands hclean ha.2.2).1
      next => exact hclean
    · simp only []
      split
      next =>
        rw [(clean_processCommands hclean ha.2.2).2.1, hcompy]
        exact hcomp
      next => exact hcompy.trans hcomp
    · rcases hph with hph | hph
      · exact absurd hph hphase
      · exact absurd hph hdone
  | leaveMain commands phase hmain hstop hphase hdrain =>
    have hcomp := h.incomplete (.inl (by simp [hmain]))
    obtain ⟨hclean, hcompy, htr⟩ := clean_processCommands h.clean ha
    refine ⟨hclean, fun _ => hcompy.trans hcomp, fun hph => ?_⟩
    simp only [htr]
    have hnot : ¬ (s.engine.isAborted = false ∧
        s.engine.tracking.isExecutionComplete = false) := by
      intro hcond
      rw [hphase.mpr hcond] at hph
      simp at hph
    have hna : s.engine.isAborted = false := by
      simp [EngineState.isAborted, h.clean.aborted, GraphExecution.hasError, h.clean.error]
    have hcomplete : s.engine.tracking.isExecutionComplete = true := by
      cases hc : s.engine.tracking.isExecutionComplete with
      | true => rfl
      | false => exact absurd ⟨hna, hc⟩ hnot
    have hcard := (Bool.and_eq_true_iff.mp hcomplete).2
    exact Finset.card_eq_zero.mp (of_decide_eq_true hcard)
  | leaveIdle commands hph hidle =>
    exact ⟨h.clean, fun _ => h.incomplete (.inl (by simp [hph])), fun _ => hidle⟩
  | finish commands hph =>
    have hcomp := h.incomplete (.inl (by simp [hph]))
    unfold System.finishLoop
    refine ⟨?_, ?_, ?_⟩
    · simp only [EngineState.markComplete_eq]
      exact ⟨h.clean.started, h.clean.aborted, h.clean.error, h.clean.exceptionsCount,
        h.clean.reasons⟩
    · simp only [EngineState.markComplete_eq]
      rintro (hne' | hp)
      · exact absurd rfl hne'
      · simp [hcomp, hp]
    · intro _
      simp only [EngineState.markComplete_eq]
      exact h.idle (.inl hph)

end Steps

/-- What holds everywhere in a campaign. -/
structure CampaignInvariant {g : Graph} (hg : g.Acyclic) (handles : NodeId → String)
    (earlier : List NodeId) (s : System) : Prop where
  accounted : ∃ S, Accounted (planOf g hg handles) earlier S s.engine s.running
  restorable : Restorable g s.engine
  healthy : Healthy s
  sessions : ∀ n ∈ g.nodes, n.executionType = .response →
    ∃ session, ResponseSession.fromNode n = .ok session

private theorem invariant_start
    (hacc : Accounted (planOf g hg handles) earlier S x []) (hres : Restorable g x)
    (hclean : Clean x.execution) (hcomp : x.execution.completed = false)
    (hsess : ∀ n ∈ g.nodes, n.executionType = .response →
      ∃ session, ResponseSession.fromNode n = .ok session)
    (hc : ∀ c ∈ commands, ∀ reason, c ≠ .abort reason) :
    CampaignInvariant hg handles earlier (System.start x commands) := by
  obtain ⟨h₁, h₂, -⟩ := clean_processCommands hclean hc
  exact ⟨⟨S, hacc.processCommands commands⟩, hres.processCommands commands,
    ⟨h₁, fun _ => h₂.trans hcomp, by simp [System.start]⟩, hsess⟩

theorem campaign_invariant (hg : g.Acyclic)
    (hne : ∀ u, g.executionType u = .branch → handles u ≠ "")
    {s : System} (h : Campaign g handles earlier s) : CampaignInvariant hg handles earlier s := by
  induction h with
  | start commands hc hx =>
    obtain ⟨hacc, -⟩ := accounted_start hg handles hx
    have hres := (Restorable.initial g _ _).startExecution hx
    have hsess : ∀ n ∈ g.nodes, n.executionType = .response →
        ∃ session, ResponseSession.fromNode n = .ok session := by
      unfold EngineState.startExecution at hx
      simp only [EngineState.initial, ↓reduceIte, bind, Except.bind] at hx
      split at hx
      next => cases hx
      next z hz => exact EngineState.registerResponseNodes_sessions rfl hz
    obtain ⟨c, rfl⟩ := EngineState.startExecution_first rfl hx
    exact invariant_start hacc hres ⟨rfl, rfl, rfl, rfl, by simp [EngineState.initial]⟩ rfl
      hsess hc
  | step _ ha hstep ih =>
    obtain ⟨S, hacc⟩ := ih.accounted
    have hhonest : ∀ {s : System} {a : Action}, Cooperative g handles s a →
        HonestAction g handles a := by
      intro s a ha
      cases a with
      | take => trivial
      | handle event commands => exact ha.1
      | leave commands => trivial
    exact ⟨accounted_step hacc (hhonest ha) hstep, ih.restorable.step hstep,
      healthy_step hne hacc ih.healthy ha hstep, ih.sessions⟩
  | resume _ hdone hpaused hy hx commands hc ih =>
    obtain ⟨S, hacc⟩ := ih.accounted
    obtain ⟨y', hy', hrel⟩ := reload_spec ih.restorable _
    cases hy.symm.trans hy'
    have hclean := ih.healthy.clean
    have hacc' := hacc.resume (ih.healthy.idle (.inr hdone)) hclean.started hrel hx
    have hresy : Restorable g _ := ⟨by
      rw [hrel.coordinator]
      exact ⟨ih.restorable.coordinator.active, ih.restorable.coordinator.waiting,
        ih.restorable.coordinator.pending, ih.restorable.coordinator.positions⟩,
      by rw [hrel.data]; exact ih.restorable.tokens⟩
    have hres := hresy.startExecution hx
    obtain ⟨c, rfl⟩ := EngineState.startExecution_resumed
      (by rw [hrel.execution, hclean.started]) hx
    refine invariant_start hacc' hres ⟨rfl, ?_, ?_, ?_, by simp⟩ ?_ ih.sessions hc
    · simp only [hrel.execution, hclean.aborted]
    · simp only [hrel.execution, hclean.error]
    · simp only [hrel.execution, hclean.exceptionsCount]
    · exact (congrArg GraphExecution.completed hrel.execution).trans
        (ih.healthy.incomplete (.inr hpaused))

theorem Campaign.runs {s s' : System} {as : List Action} (h : Campaign g handles earlier s)
    (has : ∀ a ∈ as, ∀ s, Cooperative g handles s a) (hrun : System.runs g s as = some s') :
    Campaign g handles earlier s' :=
  run_invariant _ (P := Campaign g handles earlier) (fun _ _ _ hs ha hstep => hs.step (ha _) hstep)
    h has hrun

/-- A run of `diamond` paused after its first node: the branch, already queued, still runs;
what it makes ready waits for the resume. -/
def diamondPaused : List Action :=
  [.take, .handle (.succeeded "start" {}) [.pause "maintenance"], .leave [],
    .take, .handle (.succeeded "branch" { edgeSourceHandle := "true" }) [], .leave [], .leave []]

/-- The rest of that run after the resume. -/
def diamondResumed : List Action :=
  [.take, .handle (.succeeded "left" {}) [], .take, .handle (.succeeded "join" {}) [],
    .leave [], .leave []]

/-- The two parts, with a dump and a restore between them. -/
def diamondCampaign : Option (System × System) := do
  let s ← System.firstRun diamond .ascending .empty [] diamondPaused
  let y ← (s.engine.reload diamond .descending).toOption
  let x ← (y.startExecution diamond .descending).toOption
  let s' ← System.runs diamond (System.start x []) diamondResumed
  return (s, s')

private theorem diamond_cooperative {as : List Action} (h : as = diamondPaused ∨
    as = diamondResumed) : ∀ a ∈ as, ∀ s, Cooperative diamond (fun _ => "true") s a := by
  intro a ha s
  rcases h with rfl | rfl
  · simp only [diamondPaused, List.mem_cons, List.not_mem_nil, or_false] at ha
    rcases ha with rfl | rfl | rfl | rfl | rfl | rfl | rfl <;>
      simp [Cooperative, Honest, diamond, Graph.executionType, Graph.node?]
  · simp only [diamondResumed, List.mem_cons, List.not_mem_nil, or_false] at ha
    rcases ha with rfl | rfl | rfl | rfl | rfl | rfl <;>
      simp [Cooperative, Honest, diamond, Graph.executionType, Graph.node?]

end PlatformSpec.Scheduling
