import PlatformSpec.Scheduling.Accounting
import PlatformSpec.Scheduling.Once

/-!
# Where every activated node is, in runs with failures

An activated node that has not ended is in the ready queue, running, or set aside for the
resume, in one of them only. Every result event keeps this, whether its node succeeds, fails,
is retried or asks for a pause; a handler that raises half way has scheduled new nodes at
most.
-/

namespace PlatformSpec.Scheduling

open Workflow Engine PlatformSpec.Runtime Response

/-- Every activated node is in its place. `S` are the activated nodes and `D` the ended
ones. -/
structure Placed (g : Graph) (S D : Set NodeId) (x : EngineState) (running : List NodeId) :
    Prop where
  orderly : Orderly g S D ∅ x.tracking
  active_nodup : (x.tracking.readyQueue ++ running).Nodup
  active : ∀ v, v ∈ x.tracking.readyQueue ++ running ∨ Waiting x v ↔ v ∈ S ∧ v ∉ D
  active_not_waiting : ∀ v ∈ x.tracking.readyQueue ++ running, ¬ Waiting x v
  executing : ∀ v, v ∈ x.tracking.executingNodes ↔ v ∈ x.tracking.readyQueue ++ running

/-- A handler that raised: new nodes were scheduled at most. -/
def Interrupted (g : Graph) (S : Set NodeId) (x y : EngineState) : Prop :=
  (∃ L, Advance g S x.tracking y.tracking L) ∧ ∀ v, Waiting y v ↔ Waiting x v

namespace Placed

variable {g : Graph} {S D : Set NodeId} {x y : EngineState} {running : List NodeId} {u : NodeId}

theorem occupied (h : Placed g S D x running) : Occupied S D x running :=
  ⟨h.active_nodup, h.active, h.active_not_waiting, h.executing⟩

theorem of_occupied (hord : Orderly g S D ∅ x.tracking) (h : Occupied S D x running) :
    Placed g S D x running :=
  ⟨hord, h.active_nodup, h.active, h.active_not_waiting, h.executing⟩

theorem congr (h : Placed g S D x running) (ht : y.tracking = x.tracking)
    (hw : ∀ v, Waiting y v ↔ Waiting x v) : Placed g S D y running :=
  of_occupied (ht ▸ h.orderly) (h.occupied.congr ht hw)

theorem running_mem (h : Placed g S D x running) (hu : u ∈ running) : u ∈ S ∧ u ∉ D :=
  h.occupied.running_mem hu

theorem take (h : Placed g S D x running) {v : NodeId} {rest : List NodeId}
    (hq : x.tracking.readyQueue = v :: rest) :
    Placed g S D { x with tracking := { x.tracking with readyQueue := rest } }
      (running ++ [v]) :=
  of_occupied (h.orderly.of_states rfl rfl) (h.occupied.take hq)

theorem complete (h : Placed g S D x running) (hu : u ∈ running) {t : Tracking}
    {L R : List NodeId} (hadv : Advance g S x.tracking t L)
    (hord : Orderly g (S ∪ {v | v ∈ L} ∪ {v | v ∈ R}) (insert u D) ∅ t)
    (hR : ∀ v ∈ R, v ∉ S ∧ v ∉ L) (ht : y.tracking = t.finishExecution u)
    (hw : ∀ v, Waiting y v ↔ Waiting x v ∨ v ∈ R) :
    Placed g (S ∪ {v | v ∈ L} ∪ {v | v ∈ R}) (insert u D) y (running.erase u) := by
  have ho := h.occupied.complete hu hadv (fun _ hv => h.orderly.ended hv) hR ht hw
  refine of_occupied ?_ ho
  rw [ht]
  exact hord.of_states rfl rfl

theorem requeue (h : Placed g S D x running) (hu : u ∈ running)
    (ht : y.tracking = (x.tracking.finishExecution u).schedule u)
    (hw : ∀ v, Waiting y v ↔ Waiting x v) : Placed g S D y (running.erase u) := by
  obtain ⟨huS, huD⟩ := h.running_mem hu
  have hqueue : y.tracking.readyQueue = x.tracking.readyQueue ++ [u] := by
    rw [ht, Tracking.schedule_readyQueue, Tracking.finishExecution_readyQueue]
  have hperm : (y.tracking.readyQueue ++ running.erase u).Perm
      (x.tracking.readyQueue ++ running) := by
    rw [hqueue, List.append_assoc]
    exact (List.perm_cons_erase hu).symm.append_left _
  have hmem : ∀ v, v ∈ y.tracking.readyQueue ++ running.erase u ↔
      v ∈ x.tracking.readyQueue ++ running := fun v => hperm.mem_iff
  refine ⟨?_, hperm.nodup_iff.mpr h.active_nodup, ?_, ?_, ?_⟩
  · rw [ht]
    have hfinished : Orderly g S D ∅ (x.tracking.finishExecution u) :=
      h.orderly.of_states rfl rfl
    exact hfinished.schedule huS
  · exact fun v => (or_congr (hmem v) (hw v)).trans (h.active v)
  · exact fun v hv => (hw v).not.mpr (h.active_not_waiting v ((hmem v).mp hv))
  · intro v
    rw [hmem, ← h.executing, ht, Tracking.schedule_executingNodes,
      Tracking.finishExecution_executingNodes, Finset.mem_insert, Finset.mem_erase]
    by_cases hv : v = u
    · have := (h.executing u).mpr (List.mem_append_right _ hu)
      simp [hv, this]
    · simp [hv]

theorem setAside (h : Placed g S D x running) (hu : u ∈ running)
    (ht : y.tracking = (x.tracking.finishExecution u).setNode u .unknown)
    (hw : ∀ v, Waiting y v ↔ Waiting x v ∨ v = u) : Placed g S D y (running.erase u) := by
  obtain ⟨huS, -⟩ := h.running_mem hu
  refine of_occupied ?_ (h.occupied.setAside hu ht hw)
  rw [ht]
  exact (h.orderly.setNode huS (s := .unknown) (by simp)).of_states rfl rfl

/-- The end of a handler that processes the edges of an ended node: its ready nodes are all
scheduled or all set aside. -/
theorem continueWith (h : Placed g S D x running) (hu : u ∈ running) {z : EngineState}
    (hz : ∀ v, Waiting z v ↔ Waiting x v) {r : Outcome EdgeResult} {L : List NodeId}
    (hr : EdgesDone g S D u x.tracking r L)
    {k : List NodeId → EngineState → Outcome EngineState}
    (hk : ∀ ids y, ∃ w, k ids y = (w, none) ∧
      ((w.tracking = (y.tracking.scheduleAll ids).finishExecution u ∧
          ∀ v, Waiting w v ↔ Waiting y v) ∨
        (w.tracking = y.tracking.finishExecution u ∧ ∀ v, Waiting w v ↔ Waiting y v ∨ v ∈ ids))) :
    (∃ S' y, z.continueWith r k = (y, none) ∧ S ⊆ S' ∧ (∀ v, Waiting x v → Waiting y v) ∧
      Placed g S' (insert u D) y (running.erase u)) ∨
    ∃ y e, z.continueWith r k = (y, some e) ∧ Interrupted g S x y := by
  obtain ⟨⟨t, c, ready, events⟩, raised⟩ := r
  obtain ⟨hadv, hgath⟩ := hr
  unfold EngineState.continueWith
  cases raised with
  | some e => exact .inr ⟨_, e, rfl, ⟨L, hadv⟩, hz⟩
  | none =>
    have hg := hgath rfl
    simp only [Outcome.andThen_none]
    generalize hq : EngineState.collectStream _ events = q
    have hqt : q.tracking = t := by rw [← hq]; rfl
    have hqw : ∀ v, Waiting q v ↔ Waiting x v := by
      intro v
      rw [← hz, ← hq]
      rfl
    obtain ⟨w, hw, hcase⟩ := hk ready q
    rcases hcase with ⟨hwt, hww⟩ | ⟨hwt, hww⟩
    · obtain ⟨hadv', hord'⟩ := hg.scheduleAll
      have hS : S ∪ {v | v ∈ L ++ ready} ∪ {v | v ∈ ([] : List NodeId)} =
          S ∪ {v | v ∈ L} ∪ {v | v ∈ ready} := by
        ext v
        simp [or_assoc]
      refine .inl ⟨_, w, hw, ?_, ?_, h.complete hu (R := []) (hadv.trans hadv') ?_ (by simp) ?_ ?_⟩
      · exact fun v hv => .inl (.inl hv)
      · exact fun v hv => (hww v).mpr ((hqw v).mpr hv)
      · rw [hS]
        exact hord'
      · rw [hwt, hqt]
      · intro v
        rw [hww, hqw]
        simp
    · refine .inl ⟨_, w, hw, ?_, ?_, h.complete hu hadv hg.orderly ?_ ?_ ?_⟩
      · exact fun v hv => .inl (.inl hv)
      · exact fun v hv => (hww v).mpr (.inl ((hqw v).mpr hv))
      · exact fun v hv => not_or.mp (hg.fresh v hv)
      · rw [hwt, hqt]
      · intro v
        rw [hww, hqw]

theorem waiting_recordResult (result : NodeRunResult) (v : NodeId) :
    Waiting (x.recordResult u result) v ↔ Waiting x v := by
  rw [Waiting, Waiting, EngineState.recordResult_pausedNodes,
    EngineState.recordResult_deferredNodes]

theorem waiting_recordFailure (result : NodeRunResult) (error : String) (v : NodeId) :
    Waiting (x.recordFailure u result error) v ↔ Waiting x v := by
  unfold Waiting EngineState.recordFailure RuntimeData.accumulateNodeUsage
  simp only []
  split <;> rfl

private theorem waiting_updateOutputs (outputs : List (String × Segment)) (v : NodeId) :
    Waiting (x.updateOutputs g u outputs) v ↔ Waiting x v := by
  obtain ⟨o, ho⟩ := x.updateOutputs_data g u outputs
  simp only [Waiting, ho]

theorem succeeded (h : Placed g S D x running) (hu : u ∈ running) (result : NodeRunResult) :
    (∃ S' y, x.handleSucceeded g u result = (y, none) ∧ S ⊆ S' ∧
      (∀ v, Waiting x v → Waiting y v) ∧ Placed g S' (insert u D) y (running.erase u)) ∨
    ∃ y e, x.handleSucceeded g u result = (y, some e) ∧ Interrupted g S x y := by
  obtain ⟨huS, huD⟩ := h.running_mem hu
  unfold EngineState.handleSucceeded
  have hedges : ∃ L, EdgesDone g S D u x.tracking
      (((x.recordResult u result).flushStreams g).successEdges g u result) L := by
    unfold EngineState.successEdges
    split
    next hb =>
      exact edgesDone_branch _ (x := ((x.recordResult u result).flushStreams g).edgeStart) rfl
        h.orderly huS huD hb _
    next =>
      exact ⟨[], edgesDone_success _ (x := ((x.recordResult u result).flushStreams g).edgeStart)
        rfl h.orderly huS huD⟩
  obtain ⟨L, hL⟩ := hedges
  refine h.continueWith hu (z := (x.recordResult u result).flushStreams g)
    (waiting_recordResult (x := x) result) hL fun ids y => ⟨_, rfl, ?_⟩
  unfold EngineState.dispatchReady
  split
  next =>
    obtain ⟨hdm, s, hds⟩ := EngineState.foldl_registerDeferredNode ids y.data
    refine .inr ⟨?_, fun v => ?_⟩
    · simp [EngineState.collect, EngineState.finish]
    · refine (waiting_updateOutputs _ v).trans ?_
      have hv := hdm v
      rw [hds] at hv
      simp only [Waiting, EngineState.finish, hds, hv]
      tauto
  next =>
    refine .inl ⟨?_, fun v => waiting_updateOutputs _ v⟩
    simp [EngineState.collect, EngineState.finish]

theorem exception (hg : g.Promoted) (h : Placed g S D x running) (hu : u ∈ running)
    (result : NodeRunResult) (error : String) :
    (∃ S' y, x.handleException g u result error = (y, none) ∧ S ⊆ S' ∧
      (∀ v, Waiting x v → Waiting y v) ∧ Placed g S' (insert u D) y (running.erase u)) ∨
    ∃ y e, x.handleException g u result error = (y, some e) ∧ Interrupted g S x y := by
  obtain ⟨huS, huD⟩ := h.running_mem hu
  unfold EngineState.handleException
  have hedges : ∃ L, EdgesDone g S D u x.tracking
      ((x.recordResult u result).exceptionEdges g u result) L := by
    unfold EngineState.exceptionEdges
    split
    next =>
      exact ⟨[], edgesDone_success _ (x := (x.recordResult u result).edgeStart) rfl h.orderly
        huS huD⟩
    next hs =>
      exact edgesDone_branch _ (x := (x.recordResult u result).edgeStart) rfl h.orderly huS huD
        (hg.executionType hs) _
    next => exact ⟨[], .refl, fun hn => by cases hn⟩
  obtain ⟨L, hL⟩ := hedges
  refine h.continueWith hu (z := x.recordResult u result)
    (waiting_recordResult (x := x) result) hL
    fun ids y => ⟨_, rfl, .inl ⟨?_, fun v => waiting_updateOutputs _ v⟩⟩
  simp [EngineState.collect, EngineState.finish]

theorem fatal (h : Placed g S D x running) (hu : u ∈ running)
    (ht : y.tracking = x.tracking.finishExecution u) (hw : ∀ v, Waiting y v ↔ Waiting x v) :
    Placed g S (insert u D) y (running.erase u) := by
  obtain ⟨huS, huD⟩ := h.running_mem hu
  have hS : S ∪ {v | v ∈ ([] : List NodeId)} ∪ {v | v ∈ ([] : List NodeId)} = S := by simp
  have hend := h.complete hu (y := y) (L := []) (R := []) .refl
    (by rw [hS]; exact (h.orderly.complete huS huD).drop) (by simp) ht (by simpa using hw)
  rwa [hS] at hend

theorem quiet (h : Placed g S D x running) {event : NodeEvent} (hr : event.isResult = false)
    (he : ∀ id r m, event ≠ .exception id r m) (hy : ∀ id i m, event ≠ .retry id i m) :
    (x.dispatch g event).1.tracking = x.tracking ∧
      (∀ v, Waiting (x.dispatch g event).1 v ↔ Waiting x v) ∧
      Placed g S D (x.dispatch g event).1 running := by
  have hsame : (x.dispatch g event).1.tracking = x.tracking ∧
      (x.dispatch g event).1.data.deferredNodes = x.data.deferredNodes ∧
      (x.dispatch g event).1.data.pausedNodes = x.data.pausedNodes := by
    cases event with
    | started id e =>
      simp only [EngineState.dispatch, EngineState.handleStarted]
      split <;> exact ⟨rfl, rfl, rfl⟩
    | streamChunk id chunk =>
      simp only [EngineState.dispatch, EngineState.handleStreamChunk]
      split <;> exact ⟨rfl, rfl, rfl⟩
    | observed id => exact ⟨rfl, rfl, rfl⟩
    | inner c e => exact ⟨rfl, rfl, rfl⟩
    | exception id r m => exact absurd rfl (he id r m)
    | retry id i m => exact absurd rfl (hy id i m)
    | succeeded => cases hr
    | pauseRequested => cases hr
    | failed => cases hr
  obtain ⟨ht, hd, hp⟩ := hsame
  have hw : ∀ v, Waiting (x.dispatch g event).1 v ↔ Waiting x v := fun v => by
    rw [Waiting, Waiting, hd, hp]
  exact ⟨ht, hw, h.congr ht hw⟩

theorem pauseRequested (h : Placed g S D x running) (hu : u ∈ running) (reason : PauseReason) :
    (∃ y, x.handlePauseRequested u reason = (y, none) ∧
      (∀ v, Waiting y v ↔ Waiting x v ∨ v = u) ∧ Placed g S D y (running.erase u)) ∨
    ∃ e, x.handlePauseRequested u reason = (x, some e) := by
  unfold EngineState.handlePauseRequested
  cases x.execution.pause reason with
  | error e => exact .inr ⟨e, rfl⟩
  | ok execution =>
    have hw : ∀ v, Waiting (EngineState.collect { x with
        execution
        tracking := (x.tracking.finishExecution u).setNode u .unknown
        data := x.data.registerPausedNode u } (.pauseRequested u reason)) v ↔
        Waiting x v ∨ v = u := by
      intro v
      simp only [Waiting, EngineState.collect, RuntimeData.registerPausedNode,
        Std.ExtTreeSet.mem_insert, Std.LawfulEqOrd.compare_eq_iff_eq]
      tauto
    exact .inl ⟨_, rfl, hw, h.setAside hu rfl hw⟩

end Placed

/-! ### The start of a first run -/

section Start

variable {g : Graph}

/-- Marking inactive roots and what depends on them keeps the order and spares a root without
incoming edges. -/
private def Marked (g : Graph) (t : Tracking) : Prop :=
  Orderly g ∅ ∅ ∅ t ∧ t.nodeState g.root ≠ .skipped

private theorem marked_markNodeSkipped {t : Tracking} (h : Marked g t) {v : NodeId}
    (hv : v ≠ g.root) (hin : ∀ e ∈ g.incoming v, t.edgeState e.id ≠ .unknown) :
    Marked g (t.markNodeSkipped v) := by
  refine ⟨h.1.markSkipped (by simp) hin, ?_⟩
  have : (t.markNodeSkipped v).nodeState g.root = t.nodeState g.root :=
    Function.update_of_ne hv.symm _ _
  rw [this]
  exact h.2

private theorem marked_markEach (hroot : g.incoming g.root = [])
    {visit : NodeId → Tracking → Tracking} (hvisit : ∀ w t, Marked g t → Marked g (visit w t))
    (hkeep : ∀ w t u, t.nodeState u = .skipped → (visit w t).nodeState u = .skipped) {v : NodeId}
    (es : List Edge) (hes : ∀ e ∈ es, e ∈ g.outgoing v) (t : Tracking) (h : Marked g t)
    (hv : t.nodeState v = .skipped) : Marked g (markEach g visit es t) := by
  induction es generalizing t with
  | nil => exact h
  | cons e es ih =>
    obtain ⟨hem, het⟩ := Graph.mem_outgoing.mp (hes e (by simp))
    have hin : e ∈ g.incoming e.head := Graph.mem_incoming.mpr ⟨hem, rfl⟩
    have hhead : e.head ≠ g.root := by
      intro he
      rw [he, hroot] at hin
      cases hin
    have hmark := h.1.setEdge (.inr (het ▸ hv)) hem (s := .skipped) (by simp)
    rw [Set.empty_sdiff] at hmark
    have hone : Marked g (t.markEdgeSkipped e.id) := ⟨hmark, h.2⟩
    unfold markEach
    simp only []
    split
    next hall =>
      refine ih (fun f hf => hes f (by simp [hf])) _ (hvisit _ _ (marked_markNodeSkipped hone hhead
        fun f hf => ?_)) (hkeep _ _ _ ?_)
      · have hs : (t.markEdgeSkipped e.id).edgeState f.id = .skipped :=
          of_decide_eq_true (List.all_eq_true.mp hall f hf)
        rw [hs]
        simp
      · by_cases hvh : v = e.head
        · rw [hvh]
          exact Function.update_self ..
        · exact (Function.update_of_ne hvh _ _).trans hv
    next => exact ih (fun f hf => hes f (by simp [hf])) _ hone hv

private theorem markDownstream_skipped (fuel : Nat) : ∀ w t u, t.nodeState u = .skipped →
    (markDownstream g fuel w t).nodeState u = .skipped := by
  induction fuel with
  | zero => exact fun _ _ _ h => h
  | succ fuel ih =>
    intro w t u h
    unfold markDownstream
    split
    next => exact h
    next hs =>
      clear hs
      generalize g.outgoing w = es
      induction es generalizing t with
      | nil => exact h
      | cons e es ihes =>
        unfold markEach
        simp only []
        refine ihes _ ?_
        split
        next =>
          refine ih _ _ _ ?_
          by_cases hu : u = e.head
          · rw [hu]
            exact Function.update_self ..
          · exact (Function.update_of_ne hu _ _).trans h
        next => exact h

private theorem marked_markDownstream (hroot : g.incoming g.root = []) (fuel : Nat) :
    ∀ w t, Marked g t → Marked g (markDownstream g fuel w t) := by
  induction fuel with
  | zero => exact fun _ _ h => h
  | succ fuel ih =>
    intro w t h
    unfold markDownstream
    split
    next => exact h
    next hs =>
      exact marked_markEach hroot ih (markDownstream_skipped fuel) _ (fun _ he => he) t h
        (by simpa using hs)

theorem marked_initial (hroot : g.incoming g.root = []) :
    Orderly g ∅ ∅ ∅ (initialTracking g) ∧ (initialTracking g).nodeState g.root ≠ .skipped := by
  have hfresh : Marked g .fresh :=
    ⟨⟨fun _ he => he.elim, fun _ _ hu => absurd rfl hu, fun _ hv => hv.elim,
      fun _ hs => absurd hs (by simp [Tracking.fresh]), subset_rfl⟩, by simp [Tracking.fresh]⟩
  unfold initialTracking
  have hsources : ∀ (l : List NodeId) t, (∀ r ∈ l, r ∈ inactiveRoots g) → Marked g t →
      Marked g (l.foldl Tracking.markNodeSkipped t) := by
    intro l
    induction l with
    | nil => exact fun _ _ h => h
    | cons r l ih =>
      intro t hl h
      obtain ⟨hne, hin, -⟩ := mem_inactiveRoots (hl r (by simp))
      exact ih _ (fun w hw => hl w (by simp [hw]))
        (marked_markNodeSkipped h hne fun e he => by rw [hin] at he; cases he)
  have hdown : ∀ (l : List NodeId) t, Marked g t →
      Marked g (l.foldl (fun t id => markDownstream g (g.nodes.length + 1) id t) t) := by
    intro l
    induction l with
    | nil => exact fun _ h => h
    | cons r l ih => exact fun t h => ih _ (marked_markDownstream hroot _ r t h)
  exact hdown _ _ (hsources _ _ (fun _ hr => hr) hfresh)

theorem placed_start (hroot : g.incoming g.root = []) {o : Base.SetOrder NodeId}
    {pool : VariablePool} {x : EngineState}
    (h : (EngineState.initial g o pool).startExecution g o = .ok x) :
    Placed g {g.root} ∅ x [] := by
  obtain ⟨c, rfl⟩ := EngineState.startExecution_first rfl h
  obtain ⟨hord, hskip⟩ := marked_initial hroot
  have hact := (hord.activate hskip (by simp [hroot])).schedule (.inl rfl)
  rw [insert_empty_eq] at hact
  refine ⟨hact.of_states rfl rfl, List.nodup_singleton _, fun v => ?_, fun v _ => ?_, fun v => ?_⟩
  · simp [EngineState.initial, Waiting]
  · simp [EngineState.initial, Waiting]
  · simp [EngineState.initial]

end Start
end PlatformSpec.Scheduling
