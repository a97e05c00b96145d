import PlatformSpec.Scheduling.Start

/-!
# Where every scheduled node is

A scheduled node that has not succeeded is in the ready queue, running, or set aside for
the resume; it is in the first two places at most once. Handling one event keeps the
account. `earlier` are the nodes that succeeded before the last resume.
-/

namespace PlatformSpec.Scheduling

open Workflow Engine PlatformSpec.Runtime Response

/-- Nodes set aside for the resume. -/
def Waiting (x : EngineState) (v : NodeId) : Prop :=
  v ∈ x.data.deferredNodes ∨ v ∈ x.data.pausedNodes

/-- Every node of `S` outside `D` is queued, running or set aside, in one of these places. -/
structure Occupied (S D : Set NodeId) (x : EngineState) (running : List NodeId) : Prop where
  active_nodup : (x.tracking.readyQueue ++ running).Nodup
  active : ∀ v, v ∈ x.tracking.readyQueue ++ running ∨ Waiting x v ↔ v ∈ S ∧ v ∉ D
  active_not_waiting : ∀ v ∈ x.tracking.readyQueue ++ running, ¬ Waiting x v
  executing : ∀ v, v ∈ x.tracking.executingNodes ↔ v ∈ x.tracking.readyQueue ++ running

namespace Occupied

variable {S D : Set NodeId} {x y : EngineState} {running : List NodeId} {u : NodeId}

theorem congr (h : Occupied S D x running) (ht : y.tracking = x.tracking)
    (hw : ∀ v, Waiting y v ↔ Waiting x v) : Occupied S D y running := by
  refine ⟨?_, fun v => ?_, fun v hv => ?_, ?_⟩
  · rw [ht]
    exact h.active_nodup
  · rw [ht, hw]
    exact h.active v
  · rw [ht] at hv
    rw [hw]
    exact h.active_not_waiting v hv
  · rw [ht]
    exact h.executing

theorem running_mem (h : Occupied S D x running) (hu : u ∈ running) : u ∈ S ∧ u ∉ D :=
  (h.active u).mp (.inl (List.mem_append_right _ hu))

theorem not_scheduled (h : Occupied S D x running) {v : NodeId} (hv : v ∉ S) :
    v ∉ x.tracking.readyQueue ++ running ∧ ¬ Waiting x v :=
  ⟨fun hm => hv ((h.active v).mp (.inl hm)).1, fun hm => hv ((h.active v).mp (.inr hm)).1⟩

theorem mem_erase_running (h : Occupied S D x running) (hu : u ∈ running) (v : NodeId) :
    v ∈ x.tracking.readyQueue ++ running.erase u ↔
      v ∈ x.tracking.readyQueue ++ running ∧ v ≠ u := by
  obtain ⟨-, hrun, hapart⟩ := List.nodup_append.mp h.active_nodup
  simp only [List.mem_append, hrun.mem_erase_iff]
  constructor
  · rintro (hv | ⟨hne, hv⟩)
    · exact ⟨.inl hv, hapart v hv u hu⟩
    · exact ⟨.inr hv, hne⟩
  · rintro ⟨hv | hv, hne⟩
    · exact .inl hv
    · exact .inr ⟨hne, hv⟩

theorem take (h : Occupied S D x running) {v : NodeId} {rest : List NodeId}
    (hq : x.tracking.readyQueue = v :: rest) :
    Occupied S D { x with tracking := { x.tracking with readyQueue := rest } }
      (running ++ [v]) := by
  have hperm : (rest ++ (running ++ [v])).Perm (x.tracking.readyQueue ++ running) := by
    rw [hq, ← List.append_assoc]
    exact List.perm_append_singleton v _
  have hmem : ∀ w, w ∈ rest ++ (running ++ [v]) ↔ w ∈ x.tracking.readyQueue ++ running :=
    fun w => hperm.mem_iff
  refine ⟨hperm.nodup_iff.mpr h.active_nodup, ?_, ?_, ?_⟩
  · exact fun w => (or_congr_left (hmem w)).trans (h.active w)
  · exact fun w hw => h.active_not_waiting w ((hmem w).mp hw)
  · exact fun w => (h.executing w).trans (hmem w).symm

theorem complete (h : Occupied S D x running) (hu : u ∈ running) {g : Graph} {t : Tracking}
    {L R : List NodeId} (hadv : Advance g S x.tracking t L) (hDS : D ⊆ S)
    (hR : ∀ v ∈ R, v ∉ S ∧ v ∉ L) (ht : y.tracking = t.finishExecution u)
    (hw : ∀ v, Waiting y v ↔ Waiting x v ∨ v ∈ R) :
    Occupied (S ∪ {v | v ∈ L} ∪ {v | v ∈ R}) (insert u D) y (running.erase u) := by
  obtain ⟨huS, huD⟩ := h.running_mem hu
  have hLS := fun v (hv : v ∈ L) => h.not_scheduled (hadv.disjoint v hv)
  have hRS := fun v (hv : v ∈ R) => h.not_scheduled (hR v hv).1
  have hqueue : y.tracking.readyQueue = x.tracking.readyQueue ++ L := by
    rw [ht, Tracking.finishExecution_readyQueue, hadv.readyQueue]
  have hact : ∀ v, v ∈ y.tracking.readyQueue ++ running.erase u ↔
      (v ∈ x.tracking.readyQueue ++ running ∧ v ≠ u) ∨ v ∈ L := by
    intro v
    rw [hqueue, ← h.mem_erase_running hu]
    simp only [List.mem_append, or_right_comm]
  refine ⟨?_, ?_, ?_, ?_⟩
  · rw [hqueue]
    obtain ⟨hqueued, hrun, hapart⟩ := List.nodup_append.mp h.active_nodup
    refine (hqueued.append hadv.nodup fun v hv hv' => ?_).append (hrun.erase u) fun v hv hv' => ?_
    · exact (hLS v hv').1 (List.mem_append_left _ hv)
    · have hvr := List.mem_of_mem_erase hv'
      rcases List.mem_append.mp hv with hv | hv
      · exact hapart v hv v hvr rfl
      · exact (hLS v hv).1 (List.mem_append_right _ hvr)
  · intro v
    rw [hact, hw]
    have ha := h.active v
    simp only [Set.mem_union, Set.mem_ofPred_eq, Set.mem_insert_iff]
    constructor
    · rintro ((⟨hv, hne⟩ | hv) | hv | hv)
      · obtain ⟨hvS, hvD⟩ := ha.mp (.inl hv)
        exact ⟨.inl (.inl hvS), not_or.mpr ⟨hne, hvD⟩⟩
      · refine ⟨.inl (.inr hv), not_or.mpr ⟨?_, fun hD => hadv.disjoint v hv (hDS hD)⟩⟩
        rintro rfl
        exact hadv.disjoint v hv huS
      · obtain ⟨hvS, hvD⟩ := ha.mp (.inr hv)
        refine ⟨.inl (.inl hvS), not_or.mpr ⟨?_, hvD⟩⟩
        rintro rfl
        exact h.active_not_waiting v (List.mem_append_right _ hu) hv
      · refine ⟨.inr hv, not_or.mpr ⟨?_, fun hD => (hR v hv).1 (hDS hD)⟩⟩
        rintro rfl
        exact (hR v hv).1 huS
    · rintro ⟨(hvS | hvL) | hvR, hn⟩
      · obtain ⟨hne, hvD⟩ := not_or.mp hn
        rcases ha.mpr ⟨hvS, hvD⟩ with hv | hv
        · exact .inl (.inl ⟨hv, hne⟩)
        · exact .inr (.inl hv)
      · exact .inl (.inr hvL)
      · exact .inr (.inr hvR)
  · intro v hv
    rw [hw]
    rcases (hact v).mp hv with ⟨hv, -⟩ | hv
    · rintro (hvw | hvR)
      · exact h.active_not_waiting v hv hvw
      · exact (hRS v hvR).1 hv
    · rintro (hvw | hvR)
      · exact (hLS v hv).2 hvw
      · exact (hR v hvR).2 hv
  · intro v
    rw [hact, ht, Tracking.finishExecution_executingNodes, hadv.executing, Finset.mem_erase,
      Finset.mem_union, List.mem_toFinset, h.executing]
    constructor
    · rintro ⟨hne, hv | hv⟩
      · exact .inl ⟨hv, hne⟩
      · exact .inr hv
    · rintro (⟨hv, hne⟩ | hv)
      · exact ⟨hne, .inl hv⟩
      · exact ⟨fun he => hadv.disjoint v hv (he ▸ huS), .inr hv⟩

theorem setAside (h : Occupied S D x running) (hu : u ∈ running)
    (ht : y.tracking = (x.tracking.finishExecution u).setNode u .unknown)
    (hw : ∀ v, Waiting y v ↔ Waiting x v ∨ v = u) : Occupied S D y (running.erase u) := by
  have herase := h.mem_erase_running hu
  refine ⟨?_, ?_, ?_, ?_⟩
  · rw [ht]
    exact h.active_nodup.sublist ((List.Sublist.refl _).append List.erase_sublist)
  · intro v
    rw [ht, hw]
    have ha := h.active v
    constructor
    · rintro (hv | hv | rfl)
      · exact ha.mp (.inl ((herase v).mp hv).1)
      · exact ha.mp (.inr hv)
      · exact h.running_mem hu
    · intro hv
      by_cases hvu : v = u
      · exact .inr (.inr hvu)
      · rcases ha.mpr hv with hv | hv
        · exact .inl ((herase v).mpr ⟨hv, hvu⟩)
        · exact .inr (.inl hv)
  · intro v hv
    rw [ht] at hv
    rw [hw]
    obtain ⟨hv, hne⟩ := (herase v).mp hv
    exact not_or.mpr ⟨h.active_not_waiting v hv, hne⟩
  · intro v
    rw [ht]
    refine Iff.trans ?_ (herase v).symm
    rw [← h.executing]
    simp [Tracking.setNode, and_comm]

end Occupied

/-- The account of one engine and its workers. -/
structure Accounted (p : Plan) (earlier : List NodeId) (S : Set NodeId) (x : EngineState)
    (running : List NodeId) : Prop where
  consistent : Consistent p S {v | v ∈ earlier ++ x.succeededNodes} ∅ ∅ x.tracking
  done_nodup : (earlier ++ x.succeededNodes).Nodup
  active_nodup : (x.tracking.readyQueue ++ running).Nodup
  active : ∀ v, v ∈ x.tracking.readyQueue ++ running ∨ Waiting x v ↔
    v ∈ S ∧ v ∉ earlier ++ x.succeededNodes
  active_not_waiting : ∀ v ∈ x.tracking.readyQueue ++ running, ¬ Waiting x v
  executing : ∀ v, v ∈ x.tracking.executingNodes ↔ v ∈ x.tracking.readyQueue ++ running
  taken : ∀ v ∈ S, ¬ Waiting x v → x.tracking.nodeState v = .taken
  waiting_paused : ∀ v, Waiting x v → x.execution.paused = true
  root : p.graph.root ∈ S
  history_nodup : x.tracking.enqueued.Nodup
  history_mem : ∀ v ∈ x.tracking.enqueued, v ∈ S
  history_ready : ∀ r ∈ x.tracking.history, r.node ≠ p.graph.root →
    ReadyIn p.graph r.edgeState r.node

namespace Accounted

variable {p : Plan} {earlier : List NodeId} {S : Set NodeId} {x : EngineState}
  {running : List NodeId}

theorem occupied (h : Accounted p earlier S x running) :
    Occupied S {v | v ∈ earlier ++ x.succeededNodes} x running :=
  ⟨h.active_nodup, h.active, h.active_not_waiting, h.executing⟩

theorem congr (h : Accounted p earlier S x running) {y : EngineState}
    (ht : y.tracking = x.tracking) (hs : y.succeededNodes = x.succeededNodes)
    (hd : y.data.deferredNodes = x.data.deferredNodes)
    (hp : y.data.pausedNodes = x.data.pausedNodes)
    (hx : x.execution.paused = true → y.execution.paused = true) :
    Accounted p earlier S y running := by
  have hw : ∀ v, Waiting y v ↔ Waiting x v := fun v => by rw [Waiting, Waiting, hd, hp]
  have ho := h.occupied.congr ht hw
  rw [← hs] at ho
  refine ⟨?_, ?_, ho.active_nodup, ho.active, ho.active_not_waiting, ho.executing, ?_, ?_, h.root,
    ?_, ?_, ?_⟩
  · rw [ht, hs]
    exact h.consistent
  · rw [hs]
    exact h.done_nodup
  · intro v hv hnw
    rw [ht]
    exact h.taken v hv fun hwx => hnw ((hw v).mpr hwx)
  · exact fun v hv => hx (h.waiting_paused v ((hw v).mp hv))
  · rw [ht]
    exact h.history_nodup
  · rw [ht]
    exact h.history_mem
  · rw [ht]
    exact h.history_ready

variable {u : NodeId}

theorem running_mem (h : Accounted p earlier S x running) (hu : u ∈ running) :
    u ∈ S ∧ u ∉ earlier ++ x.succeededNodes :=
  h.occupied.running_mem hu

theorem idle (h : Accounted p earlier S x running) (hidle : x.tracking.executingNodes = ∅) :
    x.tracking.readyQueue = [] ∧ running = [] := by
  refine List.append_eq_nil_iff.mp (List.eq_nil_iff_forall_not_mem.mpr fun v hv => ?_)
  have hexec := (h.executing v).mpr hv
  rw [hidle] at hexec
  exact Finset.notMem_empty v hexec

theorem take (h : Accounted p earlier S x running) {v : NodeId} {rest : List NodeId}
    (hq : x.tracking.readyQueue = v :: rest) :
    Accounted p earlier S { x with tracking := { x.tracking with readyQueue := rest } }
      (running ++ [v]) := by
  have ho := h.occupied.take hq
  exact ⟨h.consistent.of_states rfl rfl, h.done_nodup, ho.active_nodup, ho.active,
    ho.active_not_waiting, ho.executing, h.taken, h.waiting_paused, h.root, h.history_nodup,
    h.history_mem, h.history_ready⟩

theorem complete (h : Accounted p earlier S x running) (hu : u ∈ running)
    {y : EngineState} {t : Tracking} {L R : List NodeId} (hadv : Advance p.graph S x.tracking t L)
    (hcons : Consistent p (S ∪ {v | v ∈ L} ∪ {v | v ∈ R})
      (insert u {v | v ∈ earlier ++ x.succeededNodes}) ∅ ∅ t)
    (hR : ∀ v ∈ R, v ∉ S ∧ v ∉ L) (hdefer : R ≠ [] → y.execution.paused = true)
    (ht : y.tracking = t.finishExecution u) (hs : y.succeededNodes = x.succeededNodes ++ [u])
    (hw : ∀ v, Waiting y v ↔ Waiting x v ∨ v ∈ R)
    (hx : x.execution.paused = true → y.execution.paused = true) :
    Accounted p earlier (S ∪ {v | v ∈ L} ∪ {v | v ∈ R}) y (running.erase u) := by
  obtain ⟨-, huD⟩ := h.running_mem hu
  have hdone : ({v | v ∈ earlier ++ y.succeededNodes} : Set NodeId) =
      insert u {v | v ∈ earlier ++ x.succeededNodes} := by
    ext v
    simp only [hs, List.mem_append, List.mem_singleton, Set.mem_ofPred_eq, Set.mem_insert_iff]
    tauto
  have ho := h.occupied.complete hu hadv (fun v hv => h.consistent.done_scheduled hv) hR ht hw
  rw [← hdone] at ho
  obtain ⟨H, hH, hHL, hHr⟩ := hadv.history
  have hhist : y.tracking.history = x.tracking.history ++ H := by
    rw [ht, Tracking.finishExecution_history, hH]
  have henq : y.tracking.enqueued = x.tracking.enqueued ++ L := by
    simp only [Tracking.enqueued, hhist, List.map_append, hHL]
  refine ⟨?_, ?_, ho.active_nodup, ho.active, ho.active_not_waiting, ho.executing, ?_, ?_,
    .inl (.inl h.root), ?_, ?_, ?_⟩
  · rw [hdone, ht]
    exact hcons.of_states rfl rfl
  · rw [hs, ← List.append_assoc]
    exact h.done_nodup.append (List.nodup_singleton u) (by simpa using huD)
  · intro v hv hnw
    rw [ht, Tracking.finishExecution_nodeState]
    rw [hw] at hnw
    obtain ⟨hnx, hnR⟩ := not_or.mp hnw
    rcases hv with (hv | hv) | hv
    · rw [hadv.frame v hv]
      exact h.taken v hv hnx
    · exact hadv.taken v hv
    · exact absurd hv hnR
  · intro v hv
    rcases (hw v).mp hv with hv | hv
    · exact hx (h.waiting_paused v hv)
    · exact hdefer (List.ne_nil_of_mem hv)
  · rw [henq]
    exact h.history_nodup.append hadv.nodup fun v hv hv' =>
      hadv.disjoint v hv' (h.history_mem v hv)
  · intro v hv
    rw [henq] at hv
    rcases List.mem_append.mp hv with hv | hv
    · exact .inl (.inl (h.history_mem v hv))
    · exact .inl (.inr hv)
  · intro r hr hroot
    rw [hhist] at hr
    rcases List.mem_append.mp hr with hr | hr
    · exact h.history_ready r hr hroot
    · exact hHr r hr

private theorem finishSuccess (h : Accounted p earlier S x running)
    (hu : u ∈ running) (result : NodeRunResult) {r : Outcome EdgeResult} {L : List NodeId}
    (hr : Completed p S {v | v ∈ earlier ++ x.succeededNodes} u x.tracking r L) :
    ∃ S' y, (((x.recordResult u result).flushStreams p.graph).continueWith r
        fun readyNodes x => ((((x.dispatchReady readyNodes).finish u).updateOutputs p.graph u
          result.outputs).collect (.succeeded u result), none)) = (y, none) ∧
      Accounted p earlier S' y (running.erase u) := by
  obtain ⟨⟨t, c, ready, events⟩, raised⟩ := r
  have hraised : raised = none := hr.returns
  subst hraised
  unfold EngineState.continueWith
  simp only [Outcome.andThen_none]
  generalize hz : EngineState.collectStream _ events = z
  have hztr : z.tracking = t := by rw [← hz]; rfl
  have hzs : z.succeededNodes = x.succeededNodes := by
    rw [← hz, EngineState.succeededNodes_collectStream]
    exact (EngineState.succeededNodes_flushStreams p.graph (x.recordResult u result))
  have hzp : z.execution.paused = x.execution.paused := by rw [← hz]; rfl
  have hzw : ∀ v, Waiting z v ↔ Waiting x v := by
    intro v
    have hd : z.data = (x.recordResult u result).data := by rw [← hz]; rfl
    rw [Waiting, Waiting, hd, EngineState.recordResult_pausedNodes,
      EngineState.recordResult_deferredNodes]
  have hfin : ∀ (y : EngineState) (S' : Set NodeId) (L' R : List NodeId) (t' : Tracking),
      Advance p.graph S x.tracking t' L' →
      Consistent p (S ∪ {v | v ∈ L'} ∪ {v | v ∈ R})
        (insert u {v | v ∈ earlier ++ x.succeededNodes}) ∅ ∅ t' →
      (∀ v ∈ R, v ∉ S ∧ v ∉ L') → (R ≠ [] → y.execution.paused = true) →
      y.tracking = t' → y.succeededNodes = x.succeededNodes →
      (∀ v, Waiting y v ↔ Waiting x v ∨ v ∈ R) → y.execution.paused = x.execution.paused →
      ∃ S' y', (((y.finish u).updateOutputs p.graph u result.outputs).collect
        (.succeeded u result), (none : Option PyError)) = (y', none) ∧
        Accounted p earlier S' y' (running.erase u) := by
    intro y S' L' R t' hadv hcons hR hdefer hyt hys hyw hyp
    obtain ⟨o, ho⟩ := (y.finish u).updateOutputs_data p.graph u result.outputs
    refine ⟨_, _, rfl, h.complete hu hadv hcons hR ?_ ?_ ?_ ?_ ?_⟩
    · intro hne
      simpa [EngineState.collect, EngineState.finish] using hdefer hne
    · simp [EngineState.collect, EngineState.finish, hyt]
    · rw [EngineState.succeededNodes_collect_succeeded, ← hys]
      simp [EngineState.succeededNodes, EngineState.finish]
    · intro v
      rw [← hyw]
      simp only [Waiting, EngineState.collect, ho]
      rfl
    · intro hp
      simpa [EngineState.collect, EngineState.finish, hyp] using hp
  have hc := hr.consistent
  unfold EngineState.dispatchReady
  split
  next hp =>
    obtain ⟨hdm, s, hds⟩ := EngineState.foldl_registerDeferredNode ready z.data
    refine hfin _ S L ready t hr.advance (hc.admitAll ready hr.nodup hr.ready)
      ?_ ?_ hztr hzs ?_ hzp
    · exact fun v hv => not_or.mp (hc.fresh v hv).1
    · exact fun _ => hp
    · intro v
      have hv := hdm v
      rw [hds] at hv
      rw [← hzw]
      simp only [Waiting, hds, hv]
      tauto
  next hp =>
    obtain ⟨hadv, hcons⟩ := hc.scheduleAll ready hr.nodup hr.ready
    refine hfin _ S (L ++ ready) [] (t.scheduleAll ready) (hr.advance.trans hadv) ?_ (by simp)
      (by simp) (by rw [hztr]) hzs ?_ hzp
    · have hS : S ∪ {v | v ∈ L ++ ready} ∪ {v | v ∈ ([] : List NodeId)} =
          S ∪ {v | v ∈ L} ∪ {v | v ∈ ready} := by
        ext v
        simp [or_assoc]
      rw [hS]
      exact hcons
    · intro v
      rw [← hzw]
      simp [Waiting]

/-- Handling the success of a running node keeps the account, unless a branch returns an
empty handle: then the handler raises before it touches the schedule. -/
theorem succeeded (hg : p.graph.Acyclic) (h : Accounted p earlier S x running)
    (hu : u ∈ running) (result : NodeRunResult) (hsel : ∀ e ∈ p.graph.outgoing u, p.selected e =
      (p.graph.executionType u ≠ .branch || e.sourceHandle = result.edgeSourceHandle)) :
    (∃ S' y, x.handleSucceeded p.graph u result = (y, none) ∧
      Accounted p earlier S' y (running.erase u)) ∨
    (p.graph.executionType u = .branch ∧ result.edgeSourceHandle = "" ∧
      ∃ y e, x.handleSucceeded p.graph u result = (y, some e) ∧
        Accounted p earlier S y running) := by
  obtain ⟨huS, huD⟩ := h.running_mem hu
  have hx : ((x.recordResult u result).flushStreams p.graph).edgeStart.tracking = x.tracking := rfl
  have hcons : Consistent p S {v | v ∈ earlier ++ x.succeededNodes} ∅ ∅
      ((x.recordResult u result).flushStreams p.graph).edgeStart.tracking := h.consistent
  unfold EngineState.handleSucceeded
  simp only []
  unfold EngineState.successEdges
  by_cases hb : p.graph.executionType u = .branch
  · rw [if_pos hb]
    by_cases hh : result.edgeSourceHandle = ""
    · refine .inr ⟨hb, hh, ?_⟩
      unfold handleBranchCompletion EngineState.continueWith
      rw [if_pos hh]
      refine ⟨_, _, rfl, h.congr rfl ?_ ?_ ?_ fun hp => hp⟩
      · exact EngineState.succeededNodes_flushStreams p.graph (x.recordResult u result)
      · exact EngineState.recordResult_deferredNodes u result x
      · exact EngineState.recordResult_pausedNodes u result x
    · obtain ⟨L, hc⟩ := completed_branch ((x.recordResult u result).flushStreams
        p.graph).data.variablePool hg rfl hcons huS huD hb hh fun e he => by
          rw [hsel e he]
          simp [hb]
      rw [hx] at hc
      exact .inl (h.finishSuccess hu result hc)
  · rw [if_neg hb]
    have hc := completed_nonBranch ((x.recordResult u result).flushStreams
      p.graph).data.variablePool rfl hcons huS huD fun e he => by
        simp [Plan.pick, hsel e he, hb]
    rw [hx] at hc
    unfold processNodeSuccess
    rw [if_neg hb]
    exact .inl (h.finishSuccess hu result hc)

theorem pauseRequested (h : Accounted p earlier S x running) (hu : u ∈ running)
    (reason : PauseReason) : (∃ y, x.handlePauseRequested u reason = (y, none) ∧
      Accounted p earlier S y (running.erase u)) ∨
    ∃ e, x.handlePauseRequested u reason = (x, some e) := by
  unfold EngineState.handlePauseRequested
  cases hp : x.execution.pause reason with
  | error e => exact .inr ⟨e, rfl⟩
  | ok execution =>
    refine .inl ⟨_, rfl, ?_⟩
    have hexec : execution.paused = true := by
      obtain ⟨-, -, rfl⟩ := GraphExecution.pause_eq_ok hp
      rfl
    obtain ⟨huS, -⟩ := h.running_mem hu
    generalize hy : EngineState.collect _ (.pauseRequested u reason) = y
    have htr : y.tracking = (x.tracking.finishExecution u).setNode u .unknown := by
      rw [← hy]
      rfl
    have hs : y.succeededNodes = x.succeededNodes := by
      rw [← hy]
      simp [EngineState.succeededNodes, EngineState.collect]
    have hw : ∀ v, Waiting y v ↔ Waiting x v ∨ v = u := by
      intro v
      rw [← hy]
      simp only [Waiting, EngineState.collect, RuntimeData.registerPausedNode,
        Std.ExtTreeSet.mem_insert, Std.LawfulEqOrd.compare_eq_iff_eq]
      tauto
    have hyp : y.execution.paused = true := by
      rw [← hy]
      exact hexec
    have ho := h.occupied.setAside hu htr hw
    rw [← hs] at ho
    refine ⟨?_, by rw [hs]; exact h.done_nodup, ho.active_nodup, ho.active, ho.active_not_waiting,
      ho.executing, ?_, fun _ _ => hyp, h.root, by rw [htr]; exact h.history_nodup,
      by rw [htr]; exact h.history_mem, by rw [htr]; exact h.history_ready⟩
    · rw [hs, htr]
      exact (h.consistent.setNode huS (s := .unknown) (by simp)).of_states rfl rfl
    · intro v hv hnw
      rw [hw] at hnw
      obtain ⟨hnx, hne⟩ := not_or.mp hnw
      rw [htr, Tracking.setNode_nodeState, Function.update_of_ne hne]
      exact h.taken v hv hnx

/-- Commands change the execution aggregate and the variables, never the schedule. -/
theorem processCommands (h : Accounted p earlier S x running) (commands : List Command) :
    Accounted p earlier S (x.processCommands commands) running := by
  refine EngineState.processCommands_induction
    (P := fun y => Accounted p earlier S y running) (fun y c _ hy => ?_) h
  obtain ⟨execution, pool, hc⟩ := y.handleCommand_frame c
  have hp := y.handleCommand_paused c
  rw [hc] at hp ⊢
  exact hy.congr rfl rfl rfl rfl hp

theorem markComplete (h : Accounted p earlier S x running) :
    Accounted p earlier S x.markComplete running := by
  rw [EngineState.markComplete_eq]
  exact h.congr rfl rfl rfl rfl fun hp => hp

/-- An event that changes no node, no edge and no waiting node keeps the account. -/
theorem quiet (h : Accounted p earlier S x running) {event : NodeEvent}
    (hr : event.isResult = false) (he : ∀ id r m, event ≠ .exception id r m)
    (hy : ∀ id i m, event ≠ .retry id i m) :
    Accounted p earlier S (x.dispatch p.graph event).1 running := by
  cases event with
  | started nodeId id =>
    unfold EngineState.dispatch EngineState.handleStarted
    simp only []
    split
    next =>
      refine h.congr rfl ?_ rfl rfl fun hp => hp
      simp [EngineState.succeededNodes, EngineState.collect]
    next => exact h.congr rfl rfl rfl rfl fun hp => hp
  | streamChunk nodeId chunk =>
    unfold EngineState.dispatch EngineState.handleStreamChunk
    simp only []
    split
    next => exact h
    next c events _ =>
      refine h.congr rfl ?_ rfl rfl fun hp => hp
      rw [EngineState.succeededNodes_collectStream]
      rfl
  | observed nodeId =>
    refine h.congr rfl ?_ rfl rfl fun hp => hp
    simp [EngineState.dispatch, EngineState.succeededNodes, EngineState.collect]
  | inner container e =>
    refine h.congr rfl ?_ rfl rfl fun hp => hp
    simp [EngineState.dispatch, EngineState.succeededNodes, EngineState.collect]
  | exception id r m => exact absurd rfl (he id r m)
  | retry id i m => exact absurd rfl (hy id i m)
  | succeeded => cases hr
  | pauseRequested => cases hr
  | failed => cases hr

end Accounted

/-! ### The start of a first run -/

theorem accounted_start {g : Graph} (hg : g.Acyclic) (handles : NodeId → String)
    {o : Base.SetOrder NodeId} {pool : VariablePool} {x : EngineState}
    (h : (EngineState.initial g o pool).startExecution g o = .ok x) :
    Accounted (planOf g hg handles) [] {g.root} x [] ∧ x.execution.paused = false := by
  obtain ⟨c, rfl⟩ := EngineState.startExecution_first rfl h
  obtain ⟨hcons, -⟩ := initialTracking_spec hg handles
  have hroot := hcons.addRoot.setNode (v := g.root) (.inl rfl) (s := .taken) (by simp)
  rw [insert_empty_eq] at hroot
  have hw : ∀ v, ¬ Waiting (EngineState.initial g o pool) v := by
    intro v
    simp [Waiting, EngineState.initial]
  refine ⟨⟨?_, .nil, List.nodup_singleton _, ?_, fun v _ => hw v, ?_, ?_, ?_, rfl,
    List.nodup_singleton _, ?_, ?_⟩, rfl⟩
  · generalize hy : EngineState.mk _ c _ _ _ = y
    have hD : ({v | v ∈ ([] : List NodeId) ++ y.succeededNodes} : Set NodeId) = ∅ := by
      rw [← hy]
      simp [EngineState.succeededNodes, EngineState.initial]
    rw [hD]
    exact hroot.of_states (by rw [← hy]; rfl) (by rw [← hy]; rfl)
  · intro v
    simp [EngineState.initial, EngineState.succeededNodes, Waiting]
  · simp [EngineState.initial]
  · rintro v rfl _
    exact Function.update_self ..
  · exact fun v hv => absurd hv (hw v)
  · simp [EngineState.initial, Tracking.enqueued]
  · intro r hr hne
    have : r.node = g.root := by
      simp only [EngineState.initial, Tracking.schedule_history, List.nil_append,
        List.mem_singleton] at hr
      rw [hr]
    exact absurd this hne

/-! ### Steps of the system -/

/-- Events of a run in which no node fails and branches select the given handles. -/
def Honest (g : Graph) (handles : NodeId → String) : NodeEvent → Prop
  | .succeeded u result => g.executionType u = .branch → result.edgeSourceHandle = handles u
  | .failed _ _ _ => False
  | _ => True

/-- Actions whose event, if any, is honest. -/
def HonestAction (g : Graph) (handles : NodeId → String) : Action → Prop
  | .handle event _ => Honest g handles event
  | _ => True

section Steps

variable {g : Graph} {hg : g.Acyclic} {handles : NodeId → String} {earlier : List NodeId}
  {S : Set NodeId}

private theorem accounted_dispatchEvent {s : System}
    (h : Accounted (planOf g hg handles) earlier S s.engine s.running) {event : NodeEvent}
    (hadm : s.admits event = true) (hh : Honest g handles event) (commands : List Command)
    (polls : Bool) :
    ∃ S', Accounted (planOf g hg handles) earlier S' (s.dispatchEvent g event commands polls).engine
      (s.dispatchEvent g event commands polls).running := by
  unfold System.admits at hadm
  obtain ⟨hrun, hkind⟩ := Bool.and_eq_true_iff.mp hadm
  have hu : event.nodeId ∈ s.running := of_decide_eq_true hrun
  have hpoll : ∀ {y : EngineState} {S' : Set NodeId} {r : List NodeId},
      Accounted (planOf g hg handles) earlier S' y r →
      Accounted (planOf g hg handles) earlier S'
        (if polls && event.isCommandTrigger then y.processCommands commands else y) r := by
    intro y S' r hy
    split
    next => exact hy.processCommands commands
    next => exact hy
  have hraise : ∀ {y : EngineState} {S' : Set NodeId} (e : PyError),
      Accounted (planOf g hg handles) earlier S' y s.running →
      Accounted (planOf g hg handles) earlier S' (y.markFailed e).markComplete s.running :=
    fun e hy => (hy.congr (y := EngineState.markFailed _ e) rfl rfl rfl rfl
      fun hp => hp).markComplete
  by_cases hres : event.isResult = true
  · cases event with
    | succeeded u result =>
      have hsel : ∀ e ∈ g.outgoing u, selects g handles e =
          (g.executionType u ≠ .branch || e.sourceHandle = result.edgeSourceHandle) := by
        intro e he
        obtain ⟨-, rfl⟩ := Graph.mem_outgoing.mp he
        unfold selects
        by_cases hb : g.executionType e.tail = .branch
        · rw [hh hb]
        · simp [hb]
      rcases h.succeeded hg hu result hsel with ⟨S', y, hy, hacc⟩ | ⟨-, -, y, e, hy, hacc⟩
      · refine ⟨S', ?_⟩
        have hd : s.engine.dispatch g (.succeeded u result) = (y, none) := hy
        rw [System.dispatchEvent_returned hd]
        exact hpoll hacc
      · refine ⟨S, ?_⟩
        have hd : s.engine.dispatch g (.succeeded u result) = (y, some e) := hy
        rw [System.dispatchEvent_raised hd]
        exact hraise e hacc
    | pauseRequested u reason =>
      refine ⟨S, ?_⟩
      rcases h.pauseRequested hu reason with ⟨y, hy, hacc⟩ | ⟨e, hy⟩
      · have hd : s.engine.dispatch g (.pauseRequested u reason) = (y, none) := hy
        rw [System.dispatchEvent_returned hd]
        exact hpoll hacc
      · have hd : s.engine.dispatch g (.pauseRequested u reason) = (s.engine, some e) := hy
        rw [System.dispatchEvent_raised hd]
        exact hraise e h
    | failed => exact absurd hh (by simp [Honest])
    | started => cases hres
    | streamChunk => cases hres
    | exception => cases hres
    | retry => cases hres
    | observed => cases hres
    | inner => cases hres
  · have hq := h.quiet  (by simpa using hres)
      (by rintro id r m rfl; cases hkind) (by rintro id r m rfl; cases hkind)
    refine ⟨S, ?_⟩
    cases hd : s.engine.dispatch g event with
    | mk y raised =>
      have hy : Accounted (planOf g hg handles) earlier S y s.running := by
        have : (s.engine.dispatch (planOf g hg handles).graph event).1 = y := by
          rw [show (planOf g hg handles).graph = g from rfl, hd]
        rw [← this]
        exact hq
      cases raised with
      | none =>
        rw [System.dispatchEvent_returned hd]
        simp only [System.removeFinished, hres, Bool.false_eq_true, ↓reduceIte]
        exact hpoll hy
      | some e =>
        rw [System.dispatchEvent_raised hd]
        exact hraise e hy

theorem accounted_step {s s' : System} {a : Action}
    (h : Accounted (planOf g hg handles) earlier S s.engine s.running)
    (ha : HonestAction g handles a) (hstep : s.step? g a = some s') :
    ∃ S', Accounted (planOf g hg handles) earlier S' s'.engine s'.running := by
  cases System.step?_move hstep with
  | take id rest hq => exact ⟨S, h.take hq⟩
  | handle event commands polls hadm => exact accounted_dispatchEvent h hadm ha commands polls
  | leaveMain commands => exact ⟨S, h.processCommands commands⟩
  | leaveIdle => exact ⟨S, h⟩
  | finish => exact ⟨S, h.markComplete⟩

end Steps
end PlatformSpec.Scheduling
