import PlatformSpec.Base.Result
import PlatformSpec.Response.Coordinator

/-!
# Restoring a coordinator

Every session is built from a response node of the graph and only its index moves, and
every buffered stream has a read position. A coordinator of this shape is recovered from
its dump, up to the iteration order of its response node set.
-/

namespace PlatformSpec.Response

open Base PlatformSpec.Runtime Workflow

/-- The session was opened for a node of the graph. -/
def SessionOf (g : Graph) (s : ResponseSession) : Prop :=
  ∃ n ∈ g.nodes, ResponseSession.fromNode n = .ok { s with index := 0 }

/-- The shape every reachable coordinator has. -/
structure WF (g : Graph) (c : Coordinator) : Prop where
  active : ∀ s, c.activeSession = some s → SessionOf g s
  waiting : ∀ s ∈ c.waitingSessions, SessionOf g s
  pending : ∀ id s, c.responseSessions[id]? = some s → s.nodeId = id ∧ SessionOf g s
  positions : ∀ sel, sel ∈ c.streamBuffers → sel ∈ c.streamPositions

theorem WF.fresh (g : Graph) (o : SetOrder NodeId) : WF g { setOrder := o } where
  active := by simp
  waiting := by simp
  pending := by simp
  positions := by simp

variable {s : ResponseSession}

theorem ResponseSession.fromNode_eq_ok {n : Node} (h : ResponseSession.fromNode n = .ok s) :
    s.nodeId = n.id ∧ s.index = 0 ∧ n.getStreamingTemplate = some s.template := by
  unfold ResponseSession.fromNode at h
  split at h
  next => cases h
  next =>
    split at h
    next => cases h
    next template ht =>
      cases h
      exact ⟨rfl, rfl, ht⟩

theorem SessionOf.node {g : Graph} (h : SessionOf g s) :
    ∃ n, g.node? s.nodeId = some n ∧ ResponseSession.fromNode n = .ok { s with index := 0 } := by
  obtain ⟨n, hn, hs⟩ := h
  have hid := (ResponseSession.fromNode_eq_ok hs).1
  refine ⟨n, ?_, hs⟩
  rw [show s.nodeId = n.id from hid]
  exact g.node?_of_mem hn

theorem SessionOf.of_index {g : Graph} (h : SessionOf g s) (i : Nat) :
    SessionOf g { s with index := i } := h

namespace Coordinator

variable {g : Graph}

/-! ### Loading a dump -/

private theorem mapM_ok {α β ε : Type} {f : α → Except ε β} {k : α → β} (l : List α)
    (h : ∀ a ∈ l, f a = .ok (k a)) : l.mapM f = .ok (l.map k) := by
  rw [Result.mapM_eq_ok, List.forall₂_map_right_iff, List.forall₂_same]
  exact h

private theorem sessionFromState_serialize {s : ResponseSession} (h : SessionOf g s) :
    sessionFromState g (serializeSession s) = .ok s := by
  obtain ⟨n, hn, hs⟩ := h.node
  unfold sessionFromState serializeSession
  simp only [hn, hs]
  rfl

private theorem foldl_defaultPositions (buffers : List (Selector × List StreamChunk))
    (m : Std.ExtTreeMap Selector Nat) (h : ∀ b ∈ buffers, b.1 ∈ m) :
    defaultPositions buffers m = m := by
  unfold defaultPositions
  induction buffers with
  | nil => rfl
  | cons b bs ih =>
    rw [List.foldl_cons, if_pos (h b (by simp))]
    exact ih fun b' hb => h b' (by simp [hb])

variable {c c' : Coordinator}

/-- Loading the dump of a well-formed coordinator gives the coordinator back; only the
iteration order of the response nodes is the loading process's own, and the ghost record
starts anew. -/
theorem loads_dumps (h : WF g c) (o : SetOrder NodeId) :
    loads g o c.dumps = .ok { c with setOrder := o, activations := [] } := by
  have hw : (c.waitingSessions.map serializeSession).mapM (sessionFromState g) =
      .ok c.waitingSessions := by
    rw [List.mapM_map, mapM_ok (f := sessionFromState g ∘ serializeSession) (k := id)
      c.waitingSessions fun s hs => sessionFromState_serialize (h.waiting s hs), List.map_id]
  have hp : ((c.responseSessions.toList.map fun p => serializeSession p.2).mapM fun p => do
      return (p.nodeId, ← sessionFromState g p)) = .ok c.responseSessions.toList := by
    rw [List.mapM_map, mapM_ok (k := id) c.responseSessions.toList, List.map_id]
    intro p hp
    obtain ⟨hid, hs⟩ := h.pending p.1 p.2
      (Std.ExtTreeMap.mem_toList_iff_getElem?_eq_some.mp hp)
    simp only [Function.comp_apply, sessionFromState_serialize hs]
    simp only [serializeSession, hid]
    rfl
  have ha : (c.activeSession.map serializeSession).mapM (sessionFromState g) =
      .ok c.activeSession := by
    cases hs : c.activeSession with
    | none => rfl
    | some s =>
      simp only [Option.map_some, Option.mapM_some, sessionFromState_serialize (h.active s hs)]
      rfl
  have hpos : defaultPositions c.streamBuffers.toList
      (.ofList c.streamPositions.toList) = c.streamPositions := by
    rw [ofList_toList_map]
    refine foldl_defaultPositions _ _ fun b hb => h.positions b.1 ?_
    have := Std.ExtTreeMap.mem_toList_iff_getElem?_eq_some.mp hb
    exact Std.ExtTreeMap.mem_iff_isSome_getElem?.mpr (by rw [this]; rfl)
  unfold loads dumps
  simp only []
  rw [hw, hp, ha, hpos]
  simp only [bind, Except.bind, pure, Except.pure, ofList_toList_map, ofList_toList_set]

/-! ### Well-formedness along every operation -/

/-- What a flush may change: read positions and execution ids. -/
structure Flushed (c c' : Coordinator) : Prop where
  rest : ∃ positions ids,
    c' = { c with streamPositions := positions, nodeExecutionIds := ids }
  positions : ∀ sel, sel ∈ c.streamPositions → sel ∈ c'.streamPositions

namespace Flushed

theorem refl (c : Coordinator) : Flushed c c := ⟨⟨_, _, rfl⟩, fun _ h => h⟩

theorem trans {c c' c'' : Coordinator} (h : Flushed c c') (h' : Flushed c' c'') :
    Flushed c c'' := by
  obtain ⟨⟨p, i, rfl⟩, hp⟩ := h
  obtain ⟨⟨p', i', rfl⟩, hp'⟩ := h'
  exact ⟨⟨p', i', rfl⟩, fun sel hs => hp' sel (hp sel hs)⟩

end Flushed

theorem flushed_getOrCreateExecutionId (c : Coordinator) (id : NodeId) :
    Flushed c (c.getOrCreateExecutionId id).1 := by
  unfold getOrCreateExecutionId
  split
  next => exact .refl c
  next => exact ⟨⟨_, _, rfl⟩, fun _ h => h⟩

theorem flushed_readAll (c : Coordinator) (selector : Selector) :
    Flushed c (c.readAll selector) := by
  unfold readAll
  split
  next => exact .refl c
  next =>
    refine ⟨⟨_, _, rfl⟩, fun sel hs => ?_⟩
    exact Std.ExtTreeMap.mem_insert.mpr (.inr hs)

theorem flushed_processVariableSegment (v : View) (c : Coordinator) (s : ResponseSession)
    (selector : Selector) : Flushed c (c.processVariableSegment v s selector).1 := by
  unfold processVariableSegment
  simp only []
  generalize (if v.graph.hasNode (selector.headD "") = true then selector.headD ""
    else s.nodeId) = outputNodeId
  have h := (c.flushed_getOrCreateExecutionId outputNodeId).trans (flushed_readAll _ selector)
  split
  next => exact h
  next =>
    split
    next => exact h
    next => exact h

theorem flushed_flushSegments (v : View) (segments : List TemplateSegment) (c : Coordinator)
    (s : ResponseSession) :
    Flushed c (flushSegments v segments c s).1 ∧
      ∃ i, (flushSegments v segments c s).2.1 = { s with index := i } := by
  induction segments generalizing c s with
  | nil => exact ⟨.refl c, s.index, rfl⟩
  | cons segment rest ih =>
    cases segment with
    | text text =>
      obtain ⟨hf, i, hi⟩ := ih (c.processTextSegment v s text).1 s.advance
      exact ⟨(c.flushed_getOrCreateExecutionId s.nodeId).trans hf, i, hi⟩
    | «variable» selector =>
      unfold flushSegments
      split
      next =>
        obtain ⟨hf, i, hi⟩ := ih c s.advance
        exact ⟨hf, i, hi⟩
      next =>
        have hp := c.flushed_processVariableSegment v s selector
        generalize c.processVariableSegment v s selector = r at hp
        obtain ⟨c', events, isComplete⟩ := r
        simp only []
        split
        next =>
          obtain ⟨hf, i, hi⟩ := ih c' s.advance
          exact ⟨hp.trans hf, i, hi⟩
        next => exact ⟨hp, s.index, rfl⟩

private theorem wf_flushed (h : WF g c) (hf : Flushed c c') : WF g c' := by
  obtain ⟨⟨p, i, rfl⟩, hp⟩ := hf
  exact ⟨h.active, h.waiting, h.pending, fun sel hs => hp sel (h.positions sel hs)⟩

private theorem wf_flushSession (v : View) (waiting : List ResponseSession) (c : Coordinator)
    (s : ResponseSession) (h : WF g c) (hw : ∀ s ∈ waiting, SessionOf g s)
    (hs : SessionOf g s) : WF g (flushSession v waiting c s).1 := by
  induction waiting generalizing c s with
  | nil =>
    unfold flushSession
    obtain ⟨hf, i, hi⟩ := flushed_flushSegments v (s.template.segments.drop s.index) c s
    generalize flushSegments v (s.template.segments.drop s.index) c s = r at hf hi
    obtain ⟨c', s', events⟩ := r
    simp only at hi
    subst hi
    have hc := wf_flushed h hf
    simp only []
    split
    next => exact ⟨by simp, by simp, hc.pending, hc.positions⟩
    next =>
      refine ⟨?_, by simp, hc.pending, hc.positions⟩
      rintro s' ⟨⟩
      exact hs.of_index i
  | cons next rest ih =>
    unfold flushSession
    obtain ⟨hf, i, hi⟩ := flushed_flushSegments v (s.template.segments.drop s.index) c s
    generalize flushSegments v (s.template.segments.drop s.index) c s = r at hf hi
    obtain ⟨c', s', events⟩ := r
    simp only at hi
    subst hi
    have hc := wf_flushed h hf
    simp only []
    split
    next => exact ih c' next hc (fun s hs => hw s (by simp [hs])) (hw next (by simp))
    next =>
      refine ⟨?_, hw, hc.pending, hc.positions⟩
      rintro s' ⟨⟩
      exact hs.of_index i

theorem wf_tryFlush (v : View) (h : WF g c) : WF g (c.tryFlush v).1 := by
  unfold tryFlush
  split
  next => exact h
  next s hs => exact wf_flushSession v _ c s h h.waiting (h.active s hs)

theorem wf_endSession (v : View) (h : WF g c) (id : NodeId) :
    WF g (c.endSession v id).1 := by
  unfold endSession
  split
  next => exact h
  next s hs =>
    split
    next =>
      split
      next => exact ⟨by simp, h.waiting, h.pending, h.positions⟩
      next next rest hw =>
        have hwait := h.waiting
        rw [hw] at hwait
        exact wf_flushSession v rest c next h (fun s hs => hwait s (by simp [hs]))
          (hwait next (by simp))
    next => exact h

theorem wf_activeOrQueueSession (v : View) (h : WF g c) (id : NodeId) :
    WF g (c.activeOrQueueSession v id).1 := by
  unfold activeOrQueueSession
  split
  next => exact h
  next session hs =>
    have hsession := (h.pending id session hs).2
    have hpending : ∀ id' s, (c.responseSessions.erase id)[id']? = some s →
        s.nodeId = id' ∧ SessionOf g s := by
      intro id' s hs'
      rw [Std.ExtTreeMap.getElem?_erase] at hs'
      split at hs'
      next => cases hs'
      next => exact h.pending id' s hs'
    simp only []
    split
    next hn =>
      refine wf_tryFlush v ⟨?_, h.waiting, hpending, h.positions⟩
      rintro s ⟨⟩
      exact hsession
    next s' hs' =>
      refine ⟨fun s hs => h.active s hs, ?_, hpending, h.positions⟩
      intro s hs
      rcases List.mem_append.mp hs with hs | hs
      · exact h.waiting s hs
      · rw [List.mem_singleton.mp hs]
        exact hsession

theorem wf_updateResponseNode (v : View) (h : WF g c) (edgeId : EdgeId)
    (id : NodeId) : WF g (c.updateResponseNode v edgeId id).1 := by
  unfold updateResponseNode
  split
  next => exact h
  next paths _ =>
    have h' : WF g { c with
        pathsMaps := c.pathsMaps.insert id (paths.map (·.erase edgeId)) } :=
      ⟨h.active, h.waiting, h.pending, h.positions⟩
    simp only []
    split
    next => exact wf_activeOrQueueSession v h' id
    next => exact h'

theorem wf_onEdgeTaken (v : View) (h : WF g c) (edgeId : EdgeId) :
    WF g (c.onEdgeTaken v edgeId).1 := by
  unfold onEdgeTaken
  generalize c.setOrder.iterate c.responseNodes = ids
  induction ids generalizing c with
  | nil => exact h
  | cons id ids ih => exact ih (wf_updateResponseNode v h edgeId id)

theorem wf_trackNodeExecution (h : WF g c) (id : NodeId) (e : ExecutionId) :
    WF g (c.trackNodeExecution id e) := ⟨h.active, h.waiting, h.pending, h.positions⟩

variable {event : StreamChunk}

theorem appendStreamChunk_eq_ok
    (h : c.appendStreamChunk event = .ok c') : event.selector ∉ c.closedStreams ∧
      c' = { c with
        streamBuffers := c.streamBuffers.insert event.selector
          (c.streamBuffers.getD event.selector [] ++ [event])
        streamPositions :=
          if event.selector ∈ c.streamBuffers then c.streamPositions
          else c.streamPositions.insert event.selector 0 } := by
  unfold appendStreamChunk at h
  split at h
  next => cases h
  next hopen =>
    cases h
    exact ⟨hopen, rfl⟩

variable {emitted : List Emission}

theorem interceptChunk_eq_ok {v : View}
    (h : c.interceptChunk v event = .ok (c', emitted)) : ∃ d, c.appendStreamChunk event = .ok d ∧
      c' = ((if event.isFinal then d.closeStream event.selector else d).tryFlush v).1 ∧
      emitted = ((if event.isFinal then d.closeStream event.selector else d).tryFlush v).2 := by
  obtain ⟨d, happend, h⟩ := Result.bind_eq_ok.mp h
  exact ⟨d, happend, Prod.ext_iff.mp (Except.ok.inj h.symm)⟩

theorem wf_interceptChunk (v : View) (h : WF g c)
    (hc : c.interceptChunk v event = .ok (c', emitted)) : WF g c' := by
  obtain ⟨d, happend, rfl, -⟩ := interceptChunk_eq_ok hc
  obtain ⟨-, rfl⟩ := appendStreamChunk_eq_ok happend
  refine wf_tryFlush v ?_
  have hpos : ∀ sel, sel ∈ c.streamBuffers.insert event.selector
      (c.streamBuffers.getD event.selector [] ++ [event]) →
      sel ∈ (if event.selector ∈ c.streamBuffers then c.streamPositions
        else c.streamPositions.insert event.selector 0) := by
    intro sel hsel
    rw [Std.ExtTreeMap.mem_insert] at hsel
    split
    next hin =>
      rcases hsel with heq | hsel
      · rw [Std.LawfulEqOrd.compare_eq_iff_eq] at heq
        exact heq ▸ h.positions _ hin
      · exact h.positions sel hsel
    next =>
      rw [Std.ExtTreeMap.mem_insert]
      exact hsel.imp_right fun hsel => h.positions sel hsel
  split
  next => exact ⟨h.active, h.waiting, h.pending, hpos⟩
  next => exact ⟨h.active, h.waiting, h.pending, hpos⟩

/-- A registration finds the node registered, or adds it with its paths and its session. -/
theorem register_cases {n : Node} (h : c.register g n = .ok c') :
    (c' = c ∧ n.id ∈ c.responseNodes) ∨
    ∃ paths session, n.id ∉ c.responseNodes ∧ buildPathsMap g n = .ok paths ∧
      ResponseSession.fromNode n = .ok session ∧ c' = { c with
        responseNodes := c.responseNodes.insert n.id
        pathsMaps := c.pathsMaps.insert n.id paths
        responseSessions := c.responseSessions.insert n.id session } := by
  unfold register at h
  split at h
  next hin =>
    cases h
    exact .inl ⟨rfl, hin⟩
  next hnew =>
    simp only [bind, Except.bind] at h
    split at h
    next => cases h
    next paths hp =>
      split at h
      next => cases h
      next session hs =>
        cases h
        exact .inr ⟨paths, session, hnew, hp, hs, rfl⟩

theorem wf_register (h : WF g c) {n : Node} (hn : n ∈ g.nodes)
    (hc : c.register g n = .ok c') : WF g c' := by
  rcases register_cases hc with ⟨rfl, -⟩ | ⟨paths, session, -, -, hs, rfl⟩
  · exact h
  · obtain ⟨hid, hidx, -⟩ := ResponseSession.fromNode_eq_ok hs
    refine ⟨h.active, h.waiting, ?_, h.positions⟩
    intro id s hs'
    rw [Std.ExtTreeMap.getElem?_insert] at hs'
    split at hs'
    next heq =>
      cases hs'
      rw [Std.LawfulEqOrd.compare_eq_iff_eq] at heq
      refine ⟨hid.trans heq, n, hn, ?_⟩
      rw [hs, ← hidx]
    next => exact h.pending id s hs'

end Coordinator
end PlatformSpec.Response
