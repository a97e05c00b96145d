import PlatformSpec.Engine.Handlers

/-!
# Events that schedule nothing

Three routes lead from an event to the ready queue: the nodes that become ready when edges
are taken, the joins that skip propagation finds ready, and the retry of a failed node. The
conditions below close them, in terms of the edge states before the event.
-/

namespace PlatformSpec.Engine

open Base PlatformSpec.Runtime Workflow Response

section Propagation

variable (g : Graph) (es : EdgeId → NodeState) (start : List Edge)

/-- The edges that are skipped once those of `start` are, over edge states `es`: the edges
out of a node follow when every edge into it is skipped. -/
inductive Skips : Edge → Prop where
  | start {e : Edge} (h : e ∈ start) : Skips e
  | onward {e f : Edge} (h : Skips e)
    (hall : ∀ d ∈ g.incoming e.head, es d.id ≠ .skipped → Skips d)
    (hf : f ∈ g.outgoing e.head) : Skips f

/-- No skipped edge is the last unknown one of a join that has a taken edge. -/
def NoJoin : Prop :=
  ∀ e, Skips g es start e →
    (∃ f ∈ g.incoming e.head, es f.id = .unknown ∧ ¬ Skips g es start f) ∨
    ∀ f ∈ g.incoming e.head, es f.id ≠ .taken

/-- Every selected edge leads to a node that waits for an edge still unknown. -/
def Waits (selected : List Edge) : Prop :=
  ∀ e ∈ selected, ∃ f ∈ g.incoming e.head,
    es f.id = .unknown ∧ f ∉ selected ∧ ¬ Skips g es start f

/-- Edge states in the course of a propagation. -/
def Within (edgeState : EdgeId → NodeState) : Prop :=
  ∀ e ∈ g.edges, edgeState e.id = es e.id ∨
    (edgeState e.id = .skipped ∧ Skips g es start e)

/-- Only node and edge states differ. -/
structure Untouched (t t' : Tracking) : Prop where
  readyQueue : t'.readyQueue = t.readyQueue
  executingNodes : t'.executingNodes = t.executingNodes
  history : t'.history = t.history

theorem Untouched.refl (t : Tracking) : Untouched t t := ⟨rfl, rfl, rfl⟩

theorem Untouched.trans {t t' t'' : Tracking} (h : Untouched t t') (h' : Untouched t' t'') :
    Untouched t t'' where
  readyQueue := h'.readyQueue.trans h.readyQueue
  executingNodes := h'.executingNodes.trans h.executingNodes
  history := h'.history.trans h.history

variable {g es start} {e : Edge}

theorem not_skips_nil : ¬ Skips g es [] e := by
  intro h
  induction h with
  | start h => cases h
  | onward _ _ _ ih => exact ih

theorem Within.refl : Within g es start es := fun _ _ => .inl rfl

variable {edgeState : EdgeId → NodeState}

theorem Within.skip (h : Within g es start edgeState) (he : e ∈ g.edges) (hs : Skips g es start e) :
    Within g es start (Function.update edgeState e.id .skipped) := by
  intro f hf
  by_cases hid : f.id = e.id
  · cases Graph.edge_ext hf he hid
    exact .inr ⟨by simp, hs⟩
  · rw [Function.update_of_ne hid]
    exact h f hf

/-- A node that propagation finds ready is a join at the end of a skipped edge. -/
theorem Within.not_ready (h : Within g es start edgeState)
    (hjoin : NoJoin g es start) (hs : Skips g es start e) : ¬ ReadyIn g edgeState e.head := by
  rintro ⟨hknown, f, hf, htaken⟩
  have hold : ∀ d ∈ g.incoming e.head,
      edgeState d.id = es d.id ∨ (edgeState d.id = .skipped ∧ Skips g es start d) :=
    fun d hd => h d (Graph.mem_incoming.mp hd).1
  rcases hjoin e hs with ⟨d, hd, hu, hns⟩ | hno
  · rcases hold d hd with heq | ⟨-, hds⟩
    · exact hknown d hd (heq.trans hu)
    · exact hns hds
  · rcases hold f hf with heq | ⟨hsk, -⟩
    · exact hno f hf (heq.symm.trans htaken)
    · rw [hsk] at htaken
      cases htaken

theorem Within.ready_before
    (h : Within g es start edgeState) (hjoin : NoJoin g es start) {v : NodeId}
    (hv : ReadyIn g edgeState v) : ReadyIn g es v := by
  by_cases hs : ∃ e ∈ g.incoming v, Skips g es start e
  · obtain ⟨e, he, hse⟩ := hs
    obtain ⟨-, rfl⟩ := Graph.mem_incoming.mp he
    exact absurd hv (h.not_ready hjoin hse)
  · refine (readyIn_congr fun e he => ?_).mp hv
    rcases h e (Graph.mem_incoming.mp he).1 with heq | ⟨-, hse⟩
    · exact heq
    · exact absurd ⟨e, he, hse⟩ hs

private theorem skipEach_quiet {visit : Edge → Tracking → Outcome Tracking} (l : List Edge)
    (hl : ∀ e ∈ l, e ∈ g.edges ∧ Skips g es start e)
    (hvisit : ∀ e ∈ l, ∀ t, Within g es start t.edgeState →
      Within g es start (visit e t).1.edgeState ∧ Untouched t (visit e t).1)
    (t : Tracking) (h : Within g es start t.edgeState) :
    Within g es start (skipEach visit l t).1.edgeState ∧ Untouched t (skipEach visit l t).1 := by
  induction l generalizing t with
  | nil => exact ⟨h, .refl t⟩
  | cons e l ih =>
    obtain ⟨hmem, hs⟩ := hl e (by simp)
    obtain ⟨hw, hu⟩ := hvisit e (by simp) (t.markEdgeSkipped e.id) (h.skip hmem hs)
    have hmark : Untouched t (t.markEdgeSkipped e.id) := ⟨rfl, rfl, rfl⟩
    have hu' := hmark.trans hu
    unfold skipEach
    generalize visit e (t.markEdgeSkipped e.id) = r at hw hu'
    obtain ⟨t', raised⟩ := r
    cases raised with
    | some err => exact ⟨hw, hu'⟩
    | none =>
      obtain ⟨hw', hu''⟩ := ih (fun f hf => hl f (by simp [hf]))
        (fun f hf => hvisit f (by simp [hf])) t' hw
      exact ⟨hw', hu'.trans hu''⟩

private theorem propagateSkipFromEdge_quiet (hjoin : NoJoin g es start) (fuel : Nat) :
    ∀ e ∈ g.edges, Skips g es start e → ∀ t, Within g es start t.edgeState →
      Within g es start (propagateSkipFromEdge g fuel e t).1.edgeState ∧
        Untouched t (propagateSkipFromEdge g fuel e t).1 := by
  induction fuel with
  | zero => exact fun e _ _ t h => ⟨h, .refl t⟩
  | succ fuel ih =>
    intro e he hs t h
    unfold propagateSkipFromEdge
    simp only []
    split
    next => exact ⟨h, .refl t⟩
    next hunknown =>
      have hknown : ∀ f ∈ g.incoming e.head, t.edgeState f.id ≠ .unknown := by
        simpa [Tracking.analyzeEdgeStates] using hunknown
      split
      next htaken =>
        refine absurd ⟨hknown, ?_⟩ (h.not_ready hjoin hs)
        simpa [Tracking.analyzeEdgeStates] using htaken
      next =>
        split
        next hskipped =>
          have hall : ∀ f ∈ g.incoming e.head, t.edgeState f.id = .skipped := by
            simpa [Tracking.analyzeEdgeStates] using hskipped
          have hinto : ∀ d ∈ g.incoming e.head, es d.id ≠ .skipped → Skips g es start d := by
            intro d hd hne
            rcases h d (Graph.mem_incoming.mp hd).1 with heq | ⟨-, hds⟩
            · exact absurd (heq.symm.trans (hall d hd)) hne
            · exact hds
          have hout : ∀ f ∈ g.outgoing e.head, f ∈ g.edges ∧ Skips g es start f :=
            fun f hf => ⟨(Graph.mem_outgoing.mp hf).1, .onward hs hinto hf⟩
          obtain ⟨hw, hu⟩ := skipEach_quiet (g.outgoing e.head) hout
            (fun f hf t ht => ih f (hout f hf).1 (hout f hf).2 t ht)
            (t.markNodeSkipped e.head) h
          have hmark : Untouched t (t.markNodeSkipped e.head) := ⟨rfl, rfl, rfl⟩
          exact ⟨hw, hmark.trans hu⟩
        next => exact ⟨h, .refl t⟩

theorem skipBranchPaths_quiet (hstart : ∀ e ∈ start, e ∈ g.edges) (t : Tracking)
    (hjoin : NoJoin g t.edgeState start) :
    Within g t.edgeState start (skipBranchPaths g start t).1.edgeState ∧
      Untouched t (skipBranchPaths g start t).1 := by
  have hl : ∀ e ∈ start, e ∈ g.edges ∧ Skips g t.edgeState start e :=
    fun e he => ⟨hstart e he, .start he⟩
  exact skipEach_quiet start hl
    (fun e he t' ht => propagateSkipFromEdge_quiet hjoin _ e (hl e he).1 (hl e he).2 t' ht) t .refl

end Propagation

/-! ### Edges taken after a propagation -/

section Taking

variable {g : Graph} (pool : VariablePool)

private theorem takeEdges_tracking (l : List Edge) (hl : ∀ e ∈ l, e ∈ g.edges) (x : EdgeResult) :
    Untouched x.tracking (l.foldl (processTakenEdge g pool) x).tracking ∧
    ∀ f ∈ g.edges, (l.foldl (processTakenEdge g pool) x).tracking.edgeState f.id =
      if f ∈ l then .taken else x.tracking.edgeState f.id := by
  induction l generalizing x with
  | nil => exact ⟨.refl _, fun f _ => by simp⟩
  | cons e l ih =>
    obtain ⟨hu, hes⟩ := ih (fun f hf => hl f (by simp [hf])) (processTakenEdge g pool x e)
    have hmark : Untouched x.tracking (processTakenEdge g pool x e).tracking := ⟨rfl, rfl, rfl⟩
    refine ⟨hmark.trans hu, fun f hf => ?_⟩
    rw [List.foldl_cons, hes f hf]
    by_cases hfl : f ∈ l
    · simp [hfl]
    · by_cases hfe : f = e
      · simp [hfe, processTakenEdge, Tracking.markEdgeTaken]
      · have hid : f.id ≠ e.id := fun hid => hfe (Graph.edge_ext hf (hl e (by simp)) hid)
        simp [hfl, hfe, processTakenEdge, Tracking.markEdgeTaken, Function.update_of_ne hid]

private theorem takeEdges_ready (l : List Edge) (hl : ∀ e ∈ l, e ∈ g.edges) (x : EdgeResult) :
    (∀ v ∈ x.readyNodes, v ∈ (l.foldl (processTakenEdge g pool) x).readyNodes) ∧
    ∀ e ∈ l, ReadyIn g (l.foldl (processTakenEdge g pool) x).tracking.edgeState e.head →
      e.head ∈ (l.foldl (processTakenEdge g pool) x).readyNodes := by
  induction l generalizing x with
  | nil => exact ⟨fun v hv => hv, by simp⟩
  | cons e l ih =>
    have hl' : ∀ f ∈ l, f ∈ g.edges := fun f hf => hl f (by simp [hf])
    obtain ⟨hkept, hready⟩ := ih hl' (processTakenEdge g pool x e)
    refine ⟨fun v hv => hkept v (List.mem_append_left _ hv), ?_⟩
    intro f hf hv
    rcases List.mem_cons.mp hf with rfl | hf
    · -- Either a later edge leads to the same node, or its last edge is this one.
      by_cases hlater : ∃ d ∈ l, d.head = f.head
      · obtain ⟨d, hd, hdf⟩ := hlater
        rw [← hdf] at hv ⊢
        exact hready d hd hv
      · refine hkept _ (List.mem_append_right _ ?_)
        have hmem : f ∈ g.incoming f.head := Graph.mem_incoming.mpr ⟨hl f (by simp), rfl⟩
        have hnow : ReadyIn g (processTakenEdge g pool x f).tracking.edgeState f.head := by
          refine (readyIn_congr fun d hd => ?_).mp hv
          obtain ⟨hdm, hdh⟩ := Graph.mem_incoming.mp hd
          rw [List.foldl_cons, (takeEdges_tracking pool l hl' _).2 d hdm, if_neg]
          exact fun hdl => hlater ⟨d, hdl, hdh⟩
        have hr := (Tracking.isNodeReady_iff _ g (List.ne_nil_of_mem hmem)).mpr hnow
        have hr' : (x.tracking.markEdgeTaken f.id).isNodeReady g f.head = true := hr
        simp [hr']
    · exact hready f hf hv

private theorem takeEdges_waits (l : List Edge) (x : EdgeResult)
    (hl : ∀ e ∈ l, e ∈ g.edges)
    (hwait : ∀ e ∈ l, ∃ f ∈ g.incoming e.head, x.tracking.edgeState f.id = .unknown ∧ f ∉ l) :
    (l.foldl (processTakenEdge g pool) x).readyNodes = x.readyNodes := by
  suffices h : ∀ pre post, l = pre ++ post →
      ((post.foldl (processTakenEdge g pool)
        (pre.foldl (processTakenEdge g pool) x)).readyNodes =
          (pre.foldl (processTakenEdge g pool) x).readyNodes) from h [] l rfl
  intro pre post hpost
  induction post generalizing pre with
  | nil => rfl
  | cons e post ih =>
    have hcons := ih (pre ++ [e]) (by simp [hpost])
    rw [List.foldl_append, List.foldl_cons, List.foldl_nil] at hcons
    rw [List.foldl_cons, hcons]
    generalize hy : pre.foldl (processTakenEdge g pool) x = y
    obtain ⟨f, hf, hu, hnl⟩ := hwait e (by simp [hpost])
    have hfm := (Graph.mem_incoming.mp hf).1
    have hpre : ∀ d ∈ pre, d ∈ g.edges := fun d hd => hl d (by simp [hpost, hd])
    have hy' : y.tracking.edgeState f.id = .unknown := by
      rw [← hy, (takeEdges_tracking pool pre hpre x).2 f hfm, if_neg, hu]
      exact fun hd => hnl (by simp [hpost, hd])
    have hne : f.id ≠ e.id := fun hid =>
      hnl (Graph.edge_ext hfm (hl e (by simp [hpost])) hid ▸ by simp [hpost])
    have hnot : (y.tracking.markEdgeTaken e.id).isNodeReady g e.head = false := by
      refine Bool.eq_false_iff.mpr fun hr => ?_
      refine ((Tracking.isNodeReady_iff _ g (List.ne_nil_of_mem hf)).mp hr).1 f hf ?_
      rw [Tracking.markEdgeTaken, Tracking.setEdge_edgeState, Function.update_of_ne hne]
      exact hy'
    simp [processTakenEdge, hnot]

/-- What the processing of a node's edges leaves: no node was scheduled, a node that is ready
now was ready before or is reported, and none is reported when all of them wait. -/
structure Reports (g : Graph) (t : Tracking) (start selected : List Edge)
    (r : Outcome EdgeResult) : Prop where
  untouched : Untouched t r.1.tracking
  ready : ∀ v, ReadyIn g r.1.tracking.edgeState v →
    ReadyIn g t.edgeState v ∨ (r.2 = none ∧ v ∈ r.1.readyNodes)
  waits : Waits g t.edgeState start selected → r.1.readyNodes = []

variable {t : Tracking} {start : List Edge} {nodeId : NodeId} {handle : String} {x : EdgeResult}

private theorem reports_takeEdges (hjoin : NoJoin g t.edgeState start) (l : List Edge)
    (hl : ∀ e ∈ l, e ∈ g.edges) (hu : Untouched t x.tracking)
    (hw : Within g t.edgeState start x.tracking.edgeState) (hx : x.readyNodes = []) :
    Reports g t start l (l.foldl (processTakenEdge g pool) x, none) where
  untouched := hu.trans (takeEdges_tracking pool l hl x).1
  ready := by
    intro v hv
    by_cases hbelow : ∃ e ∈ l, e.head = v
    · obtain ⟨e, he, rfl⟩ := hbelow
      exact .inr ⟨rfl, (takeEdges_ready pool l hl x).2 e he hv⟩
    · refine .inl (hw.ready_before hjoin ((readyIn_congr fun d hd => ?_).mp hv))
      obtain ⟨hdm, hdh⟩ := Graph.mem_incoming.mp hd
      rw [(takeEdges_tracking pool l hl x).2 d hdm, if_neg]
      exact fun hdl => hbelow ⟨d, hdl, hdh⟩
  waits := by
    intro hwait
    rw [← hx]
    refine takeEdges_waits pool l x hl fun e he => ?_
    obtain ⟨f, hf, hunknown, hnl, hns⟩ := hwait e he
    refine ⟨f, hf, ?_, hnl⟩
    rcases hw f (Graph.mem_incoming.mp hf).1 with heq | ⟨-, hs⟩
    · exact heq.trans hunknown
    · exact absurd hs hns

variable {pool}

private theorem reports_raised (hjoin : NoJoin g t.edgeState start) {l : List Edge}
    (hu : Untouched t x.tracking) (hw : Within g t.edgeState start x.tracking.edgeState)
    (hx : x.readyNodes = []) (e : PyError) : Reports g t start l (x, some e) where
  untouched := hu
  ready := fun _ hv => .inl (hw.ready_before hjoin hv)
  waits := fun _ => hx

private theorem within_skipEdges (l : List Edge) (hl : ∀ e ∈ l, e ∈ g.edges)
    (hs : ∀ e ∈ l, Skips g t.edgeState start e) (x : EdgeResult) (hu : Untouched t x.tracking)
    (hw : Within g t.edgeState start x.tracking.edgeState) :
    Untouched t (l.foldl processSkippedEdge x).tracking ∧
      Within g t.edgeState start (l.foldl processSkippedEdge x).tracking.edgeState ∧
      (l.foldl processSkippedEdge x).readyNodes = x.readyNodes := by
  induction l generalizing x with
  | nil => exact ⟨hu, hw, rfl⟩
  | cons e l ih =>
    have hmark : Untouched x.tracking (processSkippedEdge x e).tracking := ⟨rfl, rfl, rfl⟩
    exact ih (fun f hf => hl f (by simp [hf])) (fun f hf => hs f (by simp [hf]))
      (processSkippedEdge x e) (hu.trans hmark) (hw.skip (hl e (by simp)) (hs e (by simp)))

theorem mem_edges_of_selectedEdges {e : Edge} (he : e ∈ selectedEdges g nodeId handle) :
    e ∈ g.edges :=
  (Graph.mem_outgoing.mp ((mem_selectedEdges g).mp he).1).1

/-- The edges of a branch node that lead away from the selected handle. -/
def unselectedEdges (g : Graph) (nodeId : NodeId) (handle : String) : List Edge :=
  (categorizeBranchEdges g nodeId handle).2

theorem mem_edges_of_unselectedEdges {e : Edge}
    (he : e ∈ unselectedEdges g nodeId handle) : e ∈ g.edges := by
  unfold unselectedEdges categorizeBranchEdges at he
  rw [List.partition_eq_filter_filter] at he
  exact (Graph.mem_outgoing.mp (List.mem_filter.mp he).1).1

private theorem reports_processNodeSuccess (hjoin : NoJoin g t.edgeState start)
    (hstart : g.executionType nodeId = .branch → handle ≠ "" →
      unselectedEdges g nodeId handle = start)
    (hu : Untouched t x.tracking) (hw : Within g t.edgeState start x.tracking.edgeState)
    (hx : x.readyNodes = []) :
    Reports g t start (selectedEdges g nodeId handle)
      (processNodeSuccess g pool nodeId handle x) := by
  have hsel : ∀ e ∈ selectedEdges g nodeId handle, e ∈ g.edges :=
    fun e he => mem_edges_of_selectedEdges he
  unfold processNodeSuccess
  split
  next hb =>
    unfold processBranchNodeEdges
    split
    next => exact reports_raised hjoin hu hw hx _
    next hne =>
      have hmem : ∀ e ∈ unselectedEdges g nodeId handle, e ∈ g.edges :=
        fun e he => mem_edges_of_unselectedEdges he
      obtain ⟨hu', hw', hx'⟩ := within_skipEdges (unselectedEdges g nodeId handle) hmem
        (fun e he => .start (hstart hb hne ▸ he)) x hu hw
      have hmain := reports_takeEdges pool hjoin _ hsel hu' hw' (hx'.trans hx)
      unfold selectedEdges at hmain ⊢
      rw [if_pos hb] at hmain ⊢
      exact hmain
  next hb =>
    have hmain := reports_takeEdges pool hjoin _ hsel hu hw hx
    unfold selectedEdges at hmain ⊢
    rw [if_neg hb] at hmain ⊢
    exact hmain

theorem reports_success (hb : g.executionType nodeId = .branch → handle = "")
    (hx : x.readyNodes = []) :
    Reports g x.tracking [] (selectedEdges g nodeId handle)
      (processNodeSuccess g pool nodeId handle x) := by
  exact reports_processNodeSuccess (fun _ he => absurd he not_skips_nil)
    (fun h hne => absurd (hb h) hne) (.refl _) .refl hx

theorem reports_branch
    (hjoin : handle = "" ∨ NoJoin g x.tracking.edgeState (unselectedEdges g nodeId handle))
    (hx : x.readyNodes = []) :
    Reports g x.tracking (unselectedEdges g nodeId handle) (selectedEdges g nodeId handle)
      (handleBranchCompletion g pool nodeId handle x) := by
  unfold handleBranchCompletion
  split
  next => exact ⟨.refl _, fun _ hv => .inl hv, fun _ => hx⟩
  next hne =>
    have hjoin := hjoin.resolve_left hne
    obtain ⟨hw, hu⟩ := skipBranchPaths_quiet (fun e he => mem_edges_of_unselectedEdges he)
      x.tracking hjoin
    unfold unselectedEdges at hjoin hw hu ⊢
    generalize skipBranchPaths g (categorizeBranchEdges g nodeId handle).2 x.tracking = r at hw hu
    obtain ⟨t', raised⟩ := r
    cases raised with
    | some e => exact reports_raised (x := { x with tracking := t' }) hjoin hu hw hx e
    | none =>
      exact reports_processNodeSuccess (x := { x with tracking := t' }) hjoin (fun _ _ => rfl)
        hu hw hx

end Taking

/-! ### Events -/

namespace EngineState

/-- Events whose handling enqueues no node. A success may find nodes ready while the
execution is paused, since it then defers them; a failure may not. -/
def SchedulesNothing (g : Graph) (x : EngineState) : NodeEvent → Prop
  | .succeeded nodeId result =>
    let selected := selectedEdges g nodeId result.edgeSourceHandle
    if g.executionType nodeId = .branch then
      let unselected := unselectedEdges g nodeId result.edgeSourceHandle
      result.edgeSourceHandle = "" ∨ (NoJoin g x.tracking.edgeState unselected ∧
        (x.execution.paused = true ∨ Waits g x.tracking.edgeState unselected selected))
    else x.execution.paused = true ∨ Waits g x.tracking.edgeState [] selected
  | .failed nodeId _ _ => ¬ x.RetryLeft g nodeId ∧
    match errorStrategy g nodeId with
    | none => True
    | some .failBranch =>
      let unselected := unselectedEdges g nodeId "fail-branch"
      NoJoin g x.tracking.edgeState unselected ∧
        Waits g x.tracking.edgeState unselected (selectedEdges g nodeId "fail-branch")
    | some .defaultValue => g.executionType nodeId = .branch ∨
      Waits g x.tracking.edgeState [] (selectedEdges g nodeId "")
  | _ => True

/-- Between `x` and `y` no node was scheduled; what became ready during a pause was
deferred. -/
structure Silent (g : Graph) (x y : EngineState) : Prop where
  readyQueue : y.tracking.readyQueue = x.tracking.readyQueue
  executing : y.tracking.executingNodes ⊆ x.tracking.executingNodes
  history : y.tracking.history = x.tracking.history
  deferred : ∀ v ∈ x.data.deferredNodes, v ∈ y.data.deferredNodes
  ready : x.execution.paused = true → ∀ v, ReadyIn g y.tracking.edgeState v →
    ReadyIn g x.tracking.edgeState v ∨ v ∈ y.data.deferredNodes

variable {g : Graph} {x y : EngineState}

theorem Silent.of_same (hq : y.tracking.readyQueue = x.tracking.readyQueue)
    (hx : y.tracking.executingNodes ⊆ x.tracking.executingNodes)
    (hh : y.tracking.history = x.tracking.history)
    (he : y.tracking.edgeState = x.tracking.edgeState)
    (hd : y.data.deferredNodes = x.data.deferredNodes) : Silent g x y where
  readyQueue := hq
  executing := hx
  history := hh
  deferred := fun _ hv => hd ▸ hv
  ready := fun _ _ hv => .inl (he ▸ hv)

@[simp] theorem updateOutputs_deferredNodes (nodeId : NodeId)
    (outputs : List (String × Segment)) :
    (x.updateOutputs g nodeId outputs).data.deferredNodes = x.data.deferredNodes := by
  obtain ⟨o, ho⟩ := x.updateOutputs_data g nodeId outputs
  rw [ho]

variable {start selected : List Edge}

private theorem continueWith_silent {r : Outcome EdgeResult}
    {k : List NodeId → EngineState → Outcome EngineState}
    (hr : Reports g x.tracking start selected r)
    (hk : ∀ ids z, z.tracking = r.1.tracking → z.execution = x.execution → z.data = x.data →
      ids = r.1.readyNodes → (k ids z).1.tracking.readyQueue = z.tracking.readyQueue ∧
      (k ids z).1.tracking.executingNodes ⊆ z.tracking.executingNodes ∧
      (k ids z).1.tracking.history = z.tracking.history ∧
      (k ids z).1.tracking.edgeState = z.tracking.edgeState ∧
      (∀ v ∈ z.data.deferredNodes, v ∈ (k ids z).1.data.deferredNodes) ∧
      (z.execution.paused = true → ∀ v ∈ ids, v ∈ (k ids z).1.data.deferredNodes)) :
    Silent g x (x.continueWith r k).1 := by
  obtain ⟨e, raised⟩ := r
  cases raised with
  | some err =>
    refine ⟨hr.untouched.readyQueue, hr.untouched.executingNodes.subset, hr.untouched.history,
      fun _ hv => hv, fun _ v hv => ?_⟩
    rcases hr.ready v hv with hold | ⟨hraised, -⟩
    · exact .inl hold
    · cases hraised
  | none =>
    obtain ⟨hq, hx, hh, hes, hd, hids⟩ := hk e.readyNodes
      ({ x with tracking := e.tracking, coordinator := e.coordinator }.collectStream e.events)
      rfl rfl rfl rfl
    refine ⟨hq.trans hr.untouched.readyQueue, fun v hv => ?_, hh.trans hr.untouched.history, hd,
      fun hp v hv => ?_⟩
    · rw [← hr.untouched.executingNodes]
      exact hx hv
    · have hv' : ReadyIn g e.tracking.edgeState v := by
        have hes' := hes
        rw [show (collectStream { x with tracking := e.tracking, coordinator := e.coordinator }
          e.events).tracking.edgeState = e.tracking.edgeState from rfl] at hes'
        rw [← hes']
        exact hv
      rcases hr.ready v hv' with hold | ⟨-, hin⟩
      · exact .inl hold
      · exact .inr (hids hp v hin)

private theorem dispatchReady_silent (nodeId : NodeId) {ids : List NodeId}
    (h : x.execution.paused = true ∨ ids = []) :
    ((x.dispatchReady ids).finish nodeId).tracking.readyQueue = x.tracking.readyQueue ∧
    ((x.dispatchReady ids).finish nodeId).tracking.executingNodes ⊆ x.tracking.executingNodes ∧
    ((x.dispatchReady ids).finish nodeId).tracking.history = x.tracking.history ∧
    ((x.dispatchReady ids).finish nodeId).tracking.edgeState = x.tracking.edgeState ∧
    (∀ v ∈ x.data.deferredNodes, v ∈ ((x.dispatchReady ids).finish nodeId).data.deferredNodes) ∧
    (x.execution.paused = true → ∀ v ∈ ids,
      v ∈ ((x.dispatchReady ids).finish nodeId).data.deferredNodes) := by
  unfold dispatchReady GraphExecution.isPaused
  split
  next =>
    have hm := (foldl_registerDeferredNode ids x.data).1
    exact ⟨rfl, Finset.erase_subset _ _, rfl, rfl, fun v hv => (hm v).mpr (.inl hv),
      fun _ v hv => (hm v).mpr (.inr hv)⟩
  next hp =>
    cases h.resolve_left hp
    exact ⟨rfl, Finset.erase_subset _ _, rfl, rfl, fun v hv => hv, by simp⟩

variable {result : NodeRunResult} {nodeId : NodeId}

private theorem handleSucceeded_silent (h : x.SchedulesNothing g (.succeeded nodeId result)) :
    Silent g x (x.handleSucceeded g nodeId result).1 := by
  generalize hy : (x.recordResult nodeId result).flushStreams g = y
  have htr : y.tracking = x.tracking := by rw [← hy]; rfl
  have hex : y.execution.paused = x.execution.paused := by rw [← hy]; rfl
  have hde : y.data.deferredNodes = x.data.deferredNodes := by
    rw [← hy, flushStreams_data, recordResult_deferredNodes]
  have hfinish : ∀ {start selected}, Reports g y.tracking start selected
        (y.successEdges g nodeId result) →
      (y.execution.paused = true ∨ Waits g y.tracking.edgeState start selected) →
      Silent g y (x.handleSucceeded g nodeId result).1 := by
    intro start selected hr hp
    unfold handleSucceeded
    simp only [hy]
    refine continueWith_silent hr fun ids z _ hze _ hids => ?_
    have hids' : z.execution.paused = true ∨ ids = [] :=
      hp.imp (fun hp => by rw [hze, hp]) fun hw => hids.trans (hr.waits hw)
    simpa [collect] using dispatchReady_silent nodeId hids'
  have hsilent : Silent g y (x.handleSucceeded g nodeId result).1 := by
    simp only [SchedulesNothing, ← htr, ← hex] at h
    by_cases hb : g.executionType nodeId = .branch
    · rw [if_pos hb] at h
      have hsucc : y.successEdges g nodeId result = handleBranchCompletion g y.data.variablePool
          nodeId result.edgeSourceHandle y.edgeStart := if_pos hb
      rcases h with hempty | ⟨hjoin, hp⟩
      · unfold handleSucceeded
        simp only [hy, hsucc, handleBranchCompletion, if_pos hempty]
        exact .of_same rfl (Finset.Subset.refl _) rfl rfl rfl
      · exact hfinish (hsucc ▸ reports_branch (x := y.edgeStart) (.inr hjoin) rfl) hp
    · rw [if_neg hb] at h
      have hsel : selectedEdges g nodeId result.edgeSourceHandle = selectedEdges g nodeId "" := by
        simp only [selectedEdges, if_neg hb]
      have hsucc : y.successEdges g nodeId result = processNodeSuccess g y.data.variablePool
          nodeId "" y.edgeStart := if_neg hb
      rw [hsel] at h
      exact hfinish (hsucc ▸ reports_success (x := y.edgeStart) (fun _ => rfl) rfl) h
  exact ⟨htr ▸ hsilent.readyQueue, htr ▸ hsilent.executing, htr ▸ hsilent.history,
    hde ▸ hsilent.deferred, fun hp => htr ▸ hsilent.ready (hex.trans hp)⟩

private theorem handleException_silent {error : String} (hr : Reports g x.tracking start selected
      ((x.recordResult nodeId result).exceptionEdges g nodeId result))
    (hnone : ((x.recordResult nodeId result).exceptionEdges g nodeId result).1.readyNodes = []) :
    Silent g x (x.handleException g nodeId result error).1 := by
  have hsilent : Silent g (x.recordResult nodeId result)
      (x.handleException g nodeId result error).1 := by
    unfold handleException
    refine continueWith_silent hr fun ids z _ _ _ hids => ?_
    cases hids.trans hnone
    simp only [collect, finish, updateOutputs_tracking, updateOutputs_deferredNodes]
    exact ⟨rfl, Finset.erase_subset _ _, rfl, rfl, fun v hv => hv, by simp⟩
  have hde := x.recordResult_deferredNodes nodeId result
  exact ⟨hsilent.readyQueue, hsilent.executing, hsilent.history, hde ▸ hsilent.deferred,
    hsilent.ready⟩

private theorem handleFailed_silent {error : String}
    (h : x.SchedulesNothing g (.failed nodeId result error)) :
    Silent g x (x.handleFailed g nodeId result error).1 := by
  obtain ⟨hretry, hstrategy⟩ := h
  generalize hy : x.recordFailure nodeId result error = y
  have htr : y.tracking = x.tracking := by rw [← hy]; rfl
  have hex : y.execution.paused = x.execution.paused := by rw [← hy]; rfl
  have hde : y.data.deferredNodes = x.data.deferredNodes := by
    rw [← hy]
    simp only [recordFailure, RuntimeData.accumulateNodeUsage]
    split <;> rfl
  have hsilent : Silent g y (x.handleFailed g nodeId result error).1 := by
    rcases handleFailed_cases g nodeId result error x with
      ⟨hr, -⟩ | ⟨hr, -⟩ | ⟨-, -, hf⟩ | ⟨strategy, -, hs, hf⟩
    · exact absurd hr hretry
    · exact absurd hr hretry
    · rw [hf, hy]
      exact .of_same rfl (Finset.erase_subset _ _) rfl rfl rfl
    · rw [hf, hy]
      rw [hs] at hstrategy
      have hof : (g.node? nodeId).bind Node.errorStrategy = some strategy := hs
      cases strategy with
      | failBranch =>
        simp only [← htr] at hstrategy
        generalize hres : strategyResult g nodeId result .failBranch = res
        have hhandle : res.edgeSourceHandle = "fail-branch" := by rw [← hres]; rfl
        have hedges : (y.recordResult nodeId res).exceptionEdges g nodeId res =
            handleBranchCompletion g (y.recordResult nodeId res).data.variablePool nodeId
              "fail-branch" y.edgeStart := by
          unfold exceptionEdges
          rw [hof, hhandle]
          rfl
        have hrep : Reports g y.tracking (unselectedEdges g nodeId "fail-branch")
            (selectedEdges g nodeId "fail-branch")
            ((y.recordResult nodeId res).exceptionEdges g nodeId res) := by
          rw [hedges]
          exact reports_branch (x := y.edgeStart) (.inr hstrategy.1) rfl
        exact handleException_silent hrep (hrep.waits hstrategy.2)
      | defaultValue =>
        simp only [← htr] at hstrategy
        generalize strategyResult g nodeId result .defaultValue = res
        have hedges : (y.recordResult nodeId res).exceptionEdges g nodeId res =
            processNodeSuccess g (y.recordResult nodeId res).data.variablePool nodeId ""
              y.edgeStart := by
          unfold exceptionEdges
          rw [hof]
          rfl
        have hrep : Reports g y.tracking [] (selectedEdges g nodeId "")
            ((y.recordResult nodeId res).exceptionEdges g nodeId res) := by
          rw [hedges]
          exact reports_success (x := y.edgeStart) (fun _ => rfl) rfl
        refine handleException_silent hrep ?_
        rcases hstrategy with hb | hw
        · rw [hedges]
          simp only [processNodeSuccess, if_pos hb, processBranchNodeEdges, if_pos]
          rfl
        · exact hrep.waits hw
  exact ⟨htr ▸ hsilent.readyQueue, htr ▸ hsilent.executing, htr ▸ hsilent.history,
    hde ▸ hsilent.deferred, fun hp => htr ▸ hsilent.ready (hex.trans hp)⟩

theorem dispatch_silent {event : NodeEvent} (h : x.SchedulesNothing g event)
    (he : ∀ id r m, event ≠ .exception id r m) (hr : ∀ id i m, event ≠ .retry id i m) :
    Silent g x (x.dispatch g event).1 := by
  cases event with
  | started nodeId id =>
    simp only [dispatch, handleStarted]
    split
    next => exact .of_same rfl (Finset.Subset.refl _) rfl rfl rfl
    next => exact .of_same rfl (Finset.Subset.refl _) rfl rfl rfl
  | streamChunk nodeId chunk =>
    simp only [dispatch, handleStreamChunk]
    split
    next => exact .of_same rfl (Finset.Subset.refl _) rfl rfl rfl
    next => exact .of_same rfl (Finset.Subset.refl _) rfl rfl rfl
  | succeeded nodeId result => exact handleSucceeded_silent h
  | pauseRequested nodeId reason =>
    simp only [dispatch, handlePauseRequested]
    split
    next => exact .of_same rfl (Finset.Subset.refl _) rfl rfl rfl
    next => exact .of_same rfl (Finset.erase_subset _ _) rfl rfl rfl
  | failed nodeId result error => exact handleFailed_silent h
  | exception id r m => exact absurd rfl (he id r m)
  | retry id i m => exact absurd rfl (hr id i m)
  | observed nodeId => exact .of_same rfl (Finset.Subset.refl _) rfl rfl rfl
  | inner container e => exact .of_same rfl (Finset.Subset.refl _) rfl rfl rfl

end EngineState
end PlatformSpec.Engine
