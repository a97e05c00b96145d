import PlatformSpec.Engine.Quiet

/-!
# Failures handled by an error strategy

When a node with an error strategy has no retry left, `event_handlers.py:236–293` turns the
failure into an exception event and processes the outgoing edges. The processing raises for
a branch that continues with default values, and when skip propagation runs into a cycle.
-/

namespace PlatformSpec.Engine

open Base PlatformSpec.Runtime Workflow Response
open Relation

/-! ### Where skip propagation comes to an end -/

section Propagation

variable (g : Graph) (es : EdgeId → NodeState) (start : List Edge)

/-- Propagation from the edges of `start` skips the node: it skips an edge into it, and no
edge into it stays in another state. -/
def SkipsNode (v : NodeId) : Prop :=
  (∃ e ∈ g.incoming v, Skips g es start e) ∧
    ∀ d ∈ g.incoming v, es d.id ≠ .skipped → Skips g es start d

/-- Propagation passes from one node to the next along an edge. -/
def SkipStep (u v : NodeId) : Prop := SkipsNode g es start u ∧ g.Step u v

variable {g es start} in
theorem SkipStep.acyclic (hg : g.Acyclic) : Base.Acyclic (SkipStep g es start) := fun v hv =>
  hg v (hv.lift id fun _ _ h => h.2)

/-- The nodes that propagation comes back to. -/
def SkipCycle : Set NodeId := {v | TransGen (SkipStep g es start) v v}

variable {g es start}

theorem onward_of_mem_skipCycle {v : NodeId} (h : v ∈ SkipCycle g es start) :
    SkipsNode g es start v ∧ ∃ f ∈ g.outgoing v, f.head ∈ SkipCycle g es start := by
  obtain ⟨w, hvw, hwv⟩ := TransGen.head'_iff.mp h
  obtain ⟨hs, f, hf, htail, rfl⟩ := hvw
  refine ⟨hs, f, Graph.mem_outgoing.mpr ⟨hf, htail⟩, ?_⟩
  exact TransGen.tail' hwv ⟨hs, f, hf, htail, rfl⟩

/-- What a propagation that returned has done: the edges of `M` are skipped and no other edge
is touched; a node with an edge of `M` into it and none in another state has passed the skip
on; and `M` leads into `C` only where some edge into `C` is not skipped. -/
structure Swept (g : Graph) (C : Set NodeId) (t t' : Tracking) (M : Set Edge) : Prop where
  edges : ∀ e ∈ M, e ∈ g.edges
  skipped : ∀ e ∈ M, t'.edgeState e.id = .skipped
  kept : ∀ e ∈ g.edges, e ∉ M → t'.edgeState e.id = t.edgeState e.id
  onward : ∀ e ∈ M, (∀ d ∈ g.incoming e.head, t'.edgeState d.id = .skipped) →
    ∀ f ∈ g.outgoing e.head, f ∈ M
  held : ∀ e ∈ M, e.head ∈ C → ∃ v ∈ C, ∃ d ∈ g.incoming v, t'.edgeState d.id ≠ .skipped

namespace Swept

variable {C : Set NodeId} {t t' t'' : Tracking} {M M' : Set Edge}

theorem refl (t : Tracking) : Swept g C t t ∅ where
  edges := by simp
  skipped := by simp
  kept := fun _ _ _ => rfl
  onward := by simp
  held := by simp

theorem trans (h : Swept g C t t' M) (h' : Swept g C t' t'' M') :
    Swept g C t t'' (M ∪ M') where
  edges := by
    rintro e (he | he)
    · exact h.edges e he
    · exact h'.edges e he
  skipped := by
    intro e he
    by_cases hm : e ∈ M'
    · exact h'.skipped e hm
    · have he' : e ∈ M := he.resolve_right hm
      rw [h'.kept e (h.edges e he') hm]
      exact h.skipped e he'
  kept := by
    intro e he hn
    rw [h'.kept e he fun hm => hn (.inr hm), h.kept e he fun hm => hn (.inl hm)]
  onward := by
    intro e he hall f hf
    -- The last edge skipped into a node decides whether the skip is passed on.
    by_cases hlater : ∃ d ∈ M', d.head = e.head
    · obtain ⟨d, hd, hde⟩ := hlater
      rw [← hde] at hall hf
      exact .inr (h'.onward d hd hall f hf)
    · have he' : e ∈ M := he.resolve_right fun hm => hlater ⟨e, hm, rfl⟩
      refine .inl (h.onward e he' (fun d hd => ?_) f hf)
      obtain ⟨hdm, hdh⟩ := Graph.mem_incoming.mp hd
      rw [← h'.kept d hdm fun hm => hlater ⟨d, hm, hdh⟩]
      exact hall d hd
  held := by
    intro e he hc
    by_cases hlater : ∃ d ∈ M', d.head ∈ C
    · obtain ⟨d, hd, hdc⟩ := hlater
      exact h'.held d hd hdc
    · have he' : e ∈ M := he.resolve_right fun hm => hlater ⟨e, hm, hc⟩
      obtain ⟨v, hv, d, hd, hopen⟩ := h.held e he' hc
      obtain ⟨hdm, rfl⟩ := Graph.mem_incoming.mp hd
      refine ⟨d.head, hv, d, hd, ?_⟩
      rw [h'.kept d hdm fun hm => hlater ⟨d, hm, hv⟩]
      exact hopen

theorem stop {e d : Edge} (he : e ∈ g.edges) (hd : d ∈ g.incoming e.head)
    (hes : t'.edgeState = Function.update t.edgeState e.id .skipped)
    (hopen : t'.edgeState d.id ≠ .skipped) : Swept g C t t' {e} where
  edges := by
    rintro _ rfl
    exact he
  skipped := by
    rintro _ rfl
    rw [hes, Function.update_self]
  kept := by
    intro f hf hne
    rw [hes, Function.update_of_ne fun hid => hne (Graph.edge_ext hf he hid)]
  onward := by
    rintro _ rfl hall
    exact absurd (hall d hd) hopen
  held := by
    rintro _ rfl hc
    exact ⟨_, hc, d, hd, hopen⟩

theorem pass (hC : ∀ v ∈ C, ∃ f ∈ g.outgoing v, f.head ∈ C) {e : Edge} (he : e ∈ g.edges)
    (hes : t'.edgeState = Function.update t.edgeState e.id .skipped)
    (h : Swept g C t' t'' M) (hout : ∀ f ∈ g.outgoing e.head, f ∈ M) :
    Swept g C t t'' (insert e M) where
  edges := by
    rintro f (rfl | hf)
    · exact he
    · exact h.edges f hf
  skipped := by
    intro f hf
    by_cases hm : f ∈ M
    · exact h.skipped f hm
    · obtain rfl : f = e := hf.resolve_right hm
      rw [h.kept f he hm, hes, Function.update_self]
  kept := by
    intro f hf hn
    rw [h.kept f hf fun hm => hn (.inr hm), hes,
      Function.update_of_ne fun hid => hn (.inl (Graph.edge_ext hf he hid))]
  onward := by
    rintro d (rfl | hd) hall f hf
    · exact .inr (hout f hf)
    · exact .inr (h.onward d hd hall f hf)
  held := by
    rintro d (rfl | hd) hc
    · obtain ⟨f, hf, hfc⟩ := hC d.head hc
      exact h.held f (hout f hf) hfc
    · exact h.held d hd hc

end Swept

variable {C : Set NodeId} {visit : Edge → Tracking → Outcome Tracking}

private theorem skipEach_swept (l : List Edge)
    (hvisit : ∀ e ∈ l, ∀ t, (visit e (t.markEdgeSkipped e.id)).2 = none →
      ∃ M, e ∈ M ∧ Swept g C t (visit e (t.markEdgeSkipped e.id)).1 M)
    (t : Tracking) (h : (skipEach visit l t).2 = none) :
    ∃ M, (∀ e ∈ l, e ∈ M) ∧ Swept g C t (skipEach visit l t).1 M := by
  induction l generalizing t with
  | nil => exact ⟨∅, by simp, .refl t⟩
  | cons e l ih =>
    have he := hvisit e (by simp) t
    unfold skipEach at h ⊢
    generalize visit e (t.markEdgeSkipped e.id) = r at h he ⊢
    obtain ⟨t', raised⟩ := r
    cases raised with
    | some err => cases h
    | none =>
      obtain ⟨M, heM, hM⟩ := he rfl
      obtain ⟨M', hl, hM'⟩ := ih (fun f hf => hvisit f (by simp [hf])) t' h
      refine ⟨M ∪ M', ?_, hM.trans hM'⟩
      rintro f (_ | ⟨_, hf⟩)
      · exact .inl heM
      · exact .inr (hl f hf)

private theorem propagateSkipFromEdge_swept (hC : ∀ v ∈ C, ∃ f ∈ g.outgoing v, f.head ∈ C)
    (fuel : Nat) : ∀ e ∈ g.edges, ∀ t,
      (propagateSkipFromEdge g fuel e (t.markEdgeSkipped e.id)).2 = none →
      ∃ M, e ∈ M ∧
        Swept g C t (propagateSkipFromEdge g fuel e (t.markEdgeSkipped e.id)).1 M := by
  induction fuel with
  | zero =>
    intro e _ t h
    cases h
  | succ fuel ih =>
    intro e he t
    unfold propagateSkipFromEdge
    simp only []
    split
    next hunknown =>
      intro _
      obtain ⟨d, hd, hs⟩ : ∃ d ∈ g.incoming e.head,
          (t.markEdgeSkipped e.id).edgeState d.id = .unknown := by
        simpa only [Tracking.analyzeEdgeStates, List.any_eq_true, decide_eq_true_eq]
          using hunknown
      exact ⟨{e}, rfl, .stop he hd rfl (by simp [hs])⟩
    next hknown =>
      split
      next htaken =>
        intro _
        obtain ⟨d, hd, hs⟩ : ∃ d ∈ g.incoming e.head,
            (t.markEdgeSkipped e.id).edgeState d.id = .taken := by
          simpa only [Tracking.analyzeEdgeStates, List.any_eq_true, decide_eq_true_eq]
            using htaken
        refine ⟨{e}, rfl, .stop he hd rfl ?_⟩
        rw [Tracking.schedule_edgeState, hs]
        decide
      next =>
        split
        next =>
          intro h
          obtain ⟨M, hout, hM⟩ := skipEach_swept (C := C) (g.outgoing e.head)
            (fun f hf => ih f (Graph.mem_outgoing.mp hf).1) _ h
          exact ⟨insert e M, .inl rfl, .pass hC he rfl hM hout⟩
        next hopen =>
          intro _
          obtain ⟨d, hd, hs⟩ : ∃ d ∈ g.incoming e.head,
              (t.markEdgeSkipped e.id).edgeState d.id ≠ .skipped := by
            simpa only [Tracking.analyzeEdgeStates, List.all_eq_true, decide_eq_true_eq,
              not_forall, exists_prop] using hopen
          exact ⟨{e}, rfl, .stop he hd rfl hs⟩

variable {t : Tracking}

theorem Swept.skips {t' : Tracking} {M : Set Edge} (h : Swept g C t t' M)
    (hstart : ∀ e ∈ start, e ∈ M) {e : Edge} (he : Skips g t.edgeState start e) : e ∈ M := by
  induction he with
  | start he => exact hstart _ he
  | @onward e f _ _ hf ihe ihd =>
    refine h.onward e ihe (fun d hd => ?_) f hf
    by_cases hm : d ∈ M
    · exact h.skipped d hm
    · rw [h.kept d (Graph.mem_incoming.mp hd).1 hm]
      by_contra hne
      exact hm (ihd d hd hne)

theorem acyclic_of_returns (hstart : ∀ e ∈ start, e ∈ g.edges)
    (h : (skipBranchPaths g start t).2 = none) : Base.Acyclic (SkipStep g t.edgeState start) := by
  intro v hv
  have hC : ∀ v ∈ SkipCycle g t.edgeState start,
      ∃ f ∈ g.outgoing v, f.head ∈ SkipCycle g t.edgeState start :=
    fun v hv => (onward_of_mem_skipCycle hv).2
  obtain ⟨M, hM, hswept⟩ := skipEach_swept start
    (fun e he => propagateSkipFromEdge_swept hC _ e (hstart e he)) t h
  obtain ⟨⟨e, he, hes⟩, -⟩ := (onward_of_mem_skipCycle hv).1
  obtain ⟨-, rfl⟩ := Graph.mem_incoming.mp he
  obtain ⟨w, hw, d, hd, hopen⟩ := hswept.held e (hswept.skips hM hes) hv
  refine hopen ?_
  by_cases hm : d ∈ M
  · exact hswept.skipped d hm
  · rw [hswept.kept d (Graph.mem_incoming.mp hd).1 hm]
    by_contra hne
    exact hm (hswept.skips hM ((onward_of_mem_skipCycle hw).1.2 d hd hne))

private theorem skipEach_within {l : List Edge}
    {es : EdgeId → NodeState} (hl : ∀ e ∈ l, e ∈ g.edges ∧ Skips g es start e)
    (hvisit : ∀ e ∈ l, ∀ t, Within g es start t.edgeState →
      (visit e t).2 = none ∧ Within g es start (visit e t).1.edgeState)
    (t : Tracking) (h : Within g es start t.edgeState) :
    (skipEach visit l t).2 = none ∧ Within g es start (skipEach visit l t).1.edgeState := by
  induction l generalizing t with
  | nil => exact ⟨rfl, h⟩
  | cons e l ih =>
    obtain ⟨hmem, hs⟩ := hl e (by simp)
    obtain ⟨hnone, hw⟩ := hvisit e (by simp) (t.markEdgeSkipped e.id) (h.skip hmem hs)
    unfold skipEach
    generalize visit e (t.markEdgeSkipped e.id) = r at hnone hw
    obtain ⟨t', raised⟩ := r
    subst hnone
    exact ih (fun f hf => hl f (by simp [hf])) (fun f hf => hvisit f (by simp [hf])) t' hw

theorem returns_of_acyclic (hstart : ∀ e ∈ start, e ∈ g.edges)
    (h : Base.Acyclic (SkipStep g t.edgeState start)) : (skipBranchPaths g start t).2 = none := by
  obtain ⟨ht, hdrop, hle⟩ := h.exists_height g.ids fun _ _ hs => Graph.step_head_mem hs.2
  have hl : ∀ e ∈ start, e ∈ g.edges ∧ Skips g t.edgeState start e :=
    fun e he => ⟨hstart e he, .start he⟩
  suffices hp : ∀ fuel, ∀ e ∈ g.edges, Skips g t.edgeState start e → ht e.head < fuel →
      ∀ t', Within g t.edgeState start t'.edgeState →
        (propagateSkipFromEdge g fuel e t').2 = none ∧
          Within g t.edgeState start (propagateSkipFromEdge g fuel e t').1.edgeState from
    (skipEach_within hl (fun e he => hp _ e (hl e he).1 (hl e he).2
      (Nat.lt_succ_of_le ((hle _).trans g.ids_card_le))) t .refl).1
  intro fuel
  induction fuel with
  | zero =>
    intro e _ _ hlt
    omega
  | succ fuel ih =>
    intro e he hs hlt t' hw
    unfold propagateSkipFromEdge
    simp only []
    split
    next => exact ⟨rfl, hw⟩
    next =>
      split
      next => exact ⟨rfl, hw⟩
      next =>
        split
        next hskipped =>
          have hall : ∀ d ∈ g.incoming e.head, t'.edgeState d.id = .skipped := by
            simpa [Tracking.analyzeEdgeStates] using hskipped
          have hinto : ∀ d ∈ g.incoming e.head, t.edgeState d.id ≠ .skipped →
              Skips g t.edgeState start d := by
            intro d hd hne
            rcases hw d (Graph.mem_incoming.mp hd).1 with heq | ⟨-, hds⟩
            · exact absurd (heq.symm.trans (hall d hd)) hne
            · exact hds
          have hnode : SkipsNode g t.edgeState start e.head :=
            ⟨⟨e, Graph.mem_incoming.mpr ⟨he, rfl⟩, hs⟩, hinto⟩
          have hout : ∀ f ∈ g.outgoing e.head,
              f ∈ g.edges ∧ Skips g t.edgeState start f :=
            fun f hf => ⟨(Graph.mem_outgoing.mp hf).1, .onward hs hinto hf⟩
          refine skipEach_within hout (fun f hf => ?_) (t'.markNodeSkipped e.head) hw
          obtain ⟨hfm, hft⟩ := Graph.mem_outgoing.mp hf
          have hlow := hdrop _ _ ⟨hnode, f, hfm, hft, rfl⟩
          exact ih f hfm (hout f hf).2 (by omega)
        next => exact ⟨rfl, hw⟩

theorem skipBranchPaths_returns_iff (hstart : ∀ e ∈ start, e ∈ g.edges) :
    (skipBranchPaths g start t).2 = none ↔ Base.Acyclic (SkipStep g t.edgeState start) :=
  ⟨acyclic_of_returns hstart, returns_of_acyclic hstart⟩

end Propagation
/-! ### The outgoing edges afterwards -/

section Edges

variable {g : Graph} (pool : VariablePool)

private theorem foldl_known {process : EdgeResult → Edge → EdgeResult} {s : NodeState}
    (hs : s ≠ .unknown)
    (hprocess : ∀ x e, (process x e).tracking.edgeState =
      Function.update x.tracking.edgeState e.id s)
    (l : List Edge) (x : EdgeResult) {f : Edge}
    (hf : f ∈ l ∨ x.tracking.edgeState f.id ≠ .unknown) :
    (l.foldl process x).tracking.edgeState f.id ≠ .unknown := by
  induction l generalizing x with
  | nil => exact hf.resolve_left (by simp)
  | cons e l ih =>
    refine ih (process x e) ?_
    rw [hprocess]
    by_cases hid : f.id = e.id
    · rw [hid, Function.update_self]
      exact .inr hs
    · rw [Function.update_of_ne hid]
      refine hf.imp_left fun hm => (List.mem_cons.mp hm).resolve_left ?_
      rintro rfl
      exact hid rfl

/-- Processing the edges of a node raises for a branch without a handle only, and else
leaves all of them taken or skipped. -/
theorem processNodeSuccess_iff (nodeId : NodeId) (handle : String) (x : EdgeResult) :
    ((processNodeSuccess g pool nodeId handle x).2 = none ↔
      (g.executionType nodeId = .branch → handle ≠ "")) ∧
    ((processNodeSuccess g pool nodeId handle x).2 = none → ∀ e ∈ g.outgoing nodeId,
      (processNodeSuccess g pool nodeId handle x).1.tracking.edgeState e.id ≠ .unknown) := by
  unfold processNodeSuccess
  split
  next hb =>
    unfold processBranchNodeEdges
    split
    next hh => simp [hh, hb]
    next hh =>
      refine ⟨by simp [hh], fun _ e he => ?_⟩
      simp only [categorizeBranchEdges, List.partition_eq_filter_filter]
      refine foldl_known (by decide) (fun _ _ => rfl) _ _ ?_
      by_cases hsel : e.sourceHandle = handle
      · exact .inl (List.mem_filter.mpr ⟨he, by simpa using hsel⟩)
      · refine .inr (foldl_known (by decide) (fun _ _ => rfl) _ _ (.inl ?_))
        exact List.mem_filter.mpr ⟨he, by simpa using hsel⟩
  next hb =>
    refine ⟨by simp [hb], fun _ e he => ?_⟩
    exact foldl_known (by decide) (fun _ _ => rfl) _ _ (.inl he)

/-- A completed branch leaves its edges taken or skipped, unless the propagation raises. -/
theorem handleBranchCompletion_iff (nodeId : NodeId) {handle : String} (hh : handle ≠ "")
    (x : EdgeResult) :
    ((handleBranchCompletion g pool nodeId handle x).2 = none ↔
      Base.Acyclic (SkipStep g x.tracking.edgeState (categorizeBranchEdges g nodeId handle).2)) ∧
    ((handleBranchCompletion g pool nodeId handle x).2 = none → ∀ e ∈ g.outgoing nodeId,
      (handleBranchCompletion g pool nodeId handle x).1.tracking.edgeState e.id ≠ .unknown) := by
  have hstart : ∀ e ∈ (categorizeBranchEdges g nodeId handle).2, e ∈ g.edges := by
    intro e he
    rw [categorizeBranchEdges, List.partition_eq_filter_filter] at he
    exact (Graph.mem_outgoing.mp (List.mem_of_mem_filter he)).1
  have hpaths := skipBranchPaths_returns_iff (t := x.tracking) hstart
  unfold handleBranchCompletion
  rw [if_neg hh, ← hpaths]
  generalize skipBranchPaths g (categorizeBranchEdges g nodeId handle).2 x.tracking = r
  obtain ⟨t, raised⟩ := r
  cases raised with
  | some err => simp
  | none =>
    obtain ⟨hiff, hknown⟩ :=
      processNodeSuccess_iff (g := g) pool nodeId handle { x with tracking := t }
    refine ⟨?_, hknown⟩
    simp only [Outcome.andThen_none, hiff]
    exact ⟨fun _ => trivial, fun _ _ => hh⟩

end Edges

/-! ### A failure after the retries -/

/-- What an error strategy promises: the handler returns, the node has ended with the exception
event, every edge out of it is taken or skipped, and the run goes on. -/
structure Survives (g : Graph) (nodeId : NodeId) (event : NodeEvent) (x : EngineState)
    (r : Outcome EngineState) : Prop where
  returned : r.2 = none
  ended : r.1.collected.getLast? = some (.node event)
  taken : (r.1.execution.nodeExecution nodeId).state = .taken
  edges : ∀ e ∈ g.outgoing nodeId, r.1.tracking.edgeState e.id ≠ .unknown
  error : r.1.execution.error = x.execution.error
  completed : r.1.execution.completed = x.execution.completed
  aborted : r.1.execution.aborted = x.execution.aborted

/-- When the strategy can be applied to the node, over the edge states `es`: default values to
any node but a branch, and the fail branch when dropping the other branches leads into no
cycle. -/
def Applicable (g : Graph) (es : EdgeId → NodeState) (nodeId : NodeId) : ErrorStrategy → Prop
  | .defaultValue => g.executionType nodeId ≠ .branch
  | .failBranch =>
    Base.Acyclic (SkipStep g es (categorizeBranchEdges g nodeId "fail-branch").2)

namespace EngineState

variable {g : Graph} {nodeId : NodeId} {x : EngineState} {strategy : ErrorStrategy}

/-- The edges of the node are processed exactly when the strategy can be applied. -/
theorem exceptionEdges_iff (hs : errorStrategy g nodeId = some strategy) (result : NodeRunResult) :
    ((x.exceptionEdges g nodeId (strategyResult g nodeId result strategy)).2 = none ↔
      Applicable g x.tracking.edgeState nodeId strategy) ∧
    ((x.exceptionEdges g nodeId (strategyResult g nodeId result strategy)).2 = none →
      ∀ e ∈ g.outgoing nodeId, (x.exceptionEdges g nodeId
          (strategyResult g nodeId result strategy)).1.tracking.edgeState e.id ≠ .unknown) := by
  unfold errorStrategy at hs
  unfold exceptionEdges
  cases strategy with
  | defaultValue =>
    simp only [hs, Applicable]
    obtain ⟨hiff, hknown⟩ :=
      processNodeSuccess_iff (g := g) x.data.variablePool nodeId "" x.edgeStart
    exact ⟨by rw [hiff]; simp, hknown⟩
  | failBranch =>
    simp only [hs, Applicable]
    have hhandle : "fail-branch" ≠ "" := by decide
    exact handleBranchCompletion_iff x.data.variablePool nodeId hhandle x.edgeStart

variable {result : NodeRunResult}

/-- Once its edges are processed, the exception is collected and the edges stay as they are. -/
theorem handleException_of_returns (error : String)
    (h : ((x.recordResult nodeId result).exceptionEdges g nodeId result).2 = none) :
    (x.handleException g nodeId result error).2 = none ∧
    (x.handleException g nodeId result error).1.collected.getLast? =
      some (.node (.exception nodeId result error)) ∧
    (x.handleException g nodeId result error).1.tracking.edgeState =
      ((x.recordResult nodeId result).exceptionEdges g nodeId result).1.tracking.edgeState := by
  unfold handleException continueWith
  simp only []
  generalize (x.recordResult nodeId result).exceptionEdges g nodeId result = r at h
  obtain ⟨y, raised⟩ := r
  subst h
  rw [Outcome.andThen_none]
  refine ⟨rfl, by simp [collect], ?_⟩
  simp [collect, finish, collectStream, (Tracking.scheduleAll_spec _ _).1]

theorem handleException_raises (error : String) {e : PyError}
    (h : ((x.recordResult nodeId result).exceptionEdges g nodeId result).2 = some e) :
    (x.handleException g nodeId result error).2 = some e := by
  unfold handleException continueWith
  simp only []
  generalize (x.recordResult nodeId result).exceptionEdges g nodeId result = r at h
  obtain ⟨y, raised⟩ := r
  subst h
  rfl

/-- A failure that no retry takes up becomes the exception event of the strategy. -/
theorem dispatch_failed_of_strategy
    (hs : errorStrategy g nodeId = some strategy) (hr : ¬ x.RetryLeft g nodeId)
    (result : NodeRunResult) (error : String) : x.dispatch g (.failed nodeId result error) =
      (x.recordFailure nodeId result error).handleException g nodeId
        (strategyResult g nodeId result strategy) error := by
  rcases handleFailed_cases g nodeId result error x with
    ⟨h, -, -⟩ | ⟨h, -, -⟩ | ⟨-, h, -⟩ | ⟨strategy', -, h, heq⟩
  · exact absurd h hr
  · exact absurd h hr
  · rw [hs] at h
    cases h
  · obtain rfl : strategy = strategy' := by simpa [hs] using h
    exact heq

/-- A branch that should continue with default values is asked for the handle it never
selected. -/
theorem default_value_of_branch (hs : errorStrategy g nodeId = some .defaultValue)
    (hr : ¬ x.RetryLeft g nodeId) (hb : g.executionType nodeId = .branch)
    (result : NodeRunResult) (error : String) :
    (x.dispatch g (.failed nodeId result error)).2 =
      some ⟨.valueError, "Branch node " ++ nodeId ++ " did not select any edge"⟩ := by
  rw [dispatch_failed_of_strategy hs hr]
  refine handleException_raises error ?_
  unfold errorStrategy at hs
  simp only [exceptionEdges, hs, processNodeSuccess, hb, processBranchNodeEdges, ↓reduceIte]

/-- A failure that no retry takes up is survived exactly when the node's error strategy can be
applied to it. -/
theorem failure_survived_iff {strategy : ErrorStrategy}
    (hs : errorStrategy g nodeId = some strategy) (hr : ¬ x.RetryLeft g nodeId)
    (result : NodeRunResult) (error : String) :
    Survives g nodeId (.exception nodeId (strategyResult g nodeId result strategy) error) x
        (x.dispatch g (.failed nodeId result error)) ↔
      Applicable g x.tracking.edgeState nodeId strategy := by
  rw [dispatch_failed_of_strategy hs hr]
  obtain ⟨hiff, hknown⟩ := exceptionEdges_iff hs result
    (x := (x.recordFailure nodeId result error).recordResult nodeId
      (strategyResult g nodeId result strategy))
  rw [recordResult_tracking] at hiff
  constructor
  · intro h
    by_contra hnot
    obtain ⟨e, he⟩ := Option.ne_none_iff_exists'.mp (hiff.not.mpr hnot)
    have hraised := h.returned
    rw [handleException_raises error he] at hraised
    cases hraised
  · intro h
    have hnone := hiff.mpr h
    obtain ⟨hret, hlast, hedges⟩ := handleException_of_returns error hnone
    exact {
      returned := hret
      ended := hlast
      taken := by
        rw [handleException_execution]
        simp [GraphExecution.updateNodeExecution, GraphExecution.nodeExecution,
          NodeExecution.markTaken]
      edges := by
        rw [hedges]
        exact hknown hnone
      error := by
        rw [handleException_execution]
        rfl
      completed := by
        rw [handleException_execution]
        rfl
      aborted := by
        rw [handleException_execution]
        rfl }

/-- A question classifier that continues with default values when it fails. -/
def classifier : Graph where
  nodes := [{ id := "start", executionType := .root },
    { id := "classify", executionType := .branch, errorStrategy := some .defaultValue },
    { id := "answer", executionType := .response }]
  edges := [{ id := "in", tail := "start", head := "classify" },
    { id := "out", tail := "classify", head := "answer", sourceHandle := "1" }]
  root := "start"

/-- A request that goes on along the fail branch when it fails. -/
def request : Graph where
  nodes := [{ id := "start", executionType := .root },
    { id := "call", executionType := .branch, errorStrategy := some .failBranch },
    { id := "answer", executionType := .response }, { id := "excuse", executionType := .response }]
  edges := [{ id := "in", tail := "start", head := "call" },
    { id := "out", tail := "call", head := "answer" },
    { id := "failed", tail := "call", head := "excuse", sourceHandle := "fail-branch" }]
  root := "start"

/-- The engine while the node behind the start node runs. -/
def running (nodeId : NodeId) : EngineState where
  tracking := { Tracking.fresh.markEdgeTaken "in" with executingNodes := {nodeId} }

theorem not_retryLeft {n : Node} (h : g.node? nodeId = some n) (hn : n.retry = false) :
    ¬ x.RetryLeft g nodeId := by
  rintro ⟨m, hm, hret, -⟩
  rw [h] at hm
  cases hm
  rw [hn] at hret
  cases hret

private theorem request_acyclic : request.Acyclic :=
  Graph.acyclic_of_order ["start", "call", "answer", "excuse"] (by decide)

theorem request_survives :
    Survives request "call" (.exception "call" (strategyResult request "call" {} .failBranch) "502")
      (running "call") ((running "call").dispatch request (.failed "call" {} "502")) :=
  (failure_survived_iff rfl (not_retryLeft rfl rfl) {} "502").mpr
    (SkipStep.acyclic request_acyclic)

/-- The edges of the failed classifier are asked for a branch that it never selected. -/
theorem default_value_branch_raises :
    classifier.Promoted ∧ errorStrategy classifier "classify" = some .defaultValue ∧
    ¬ (running "classify").RetryLeft classifier "classify" ∧
    ((running "classify").dispatch classifier (.failed "classify" {} "boom")).2 =
      some ⟨.valueError, "Branch node classify did not select any edge"⟩ ∧
    ¬ Survives classifier "classify"
      (.exception "classify" (strategyResult classifier "classify" {} .defaultValue) "boom")
      (running "classify")
      ((running "classify").dispatch classifier (.failed "classify" {} "boom")) := by
  have hraised : ((running "classify").dispatch classifier (.failed "classify" {} "boom")).2 =
      some ⟨.valueError, "Branch node classify did not select any edge"⟩ :=
    default_value_of_branch rfl (not_retryLeft rfl rfl) rfl {} "boom"
  refine ⟨?_, rfl, not_retryLeft rfl rfl, hraised, fun h => ?_⟩
  · unfold Graph.Promoted
    decide
  · have hnone := h.returned
    rw [hraised] at hnone
    cases hnone

end EngineState
end PlatformSpec.Engine
