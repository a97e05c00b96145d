import PlatformSpec.Base.Result
import PlatformSpec.Response.Activation
import PlatformSpec.Response.Flush

/-!
# What a reloaded coordinator does

A coordinator loaded from a dump equals the dumped one except for the order in which its set
of response nodes is iterated. That order is read in one place, `on_edge_taken`, and there
only the order of the sessions opened by that call shows. Flushing neither reads nor writes
the recorded paths, so striking out an edge and opening sessions can be separated.
-/

namespace PlatformSpec.Response

open Base PlatformSpec.Runtime Workflow

namespace Coordinator

/-- Replace the parts that flushing neither reads nor writes. -/
def withPaths (c : Coordinator) (o : SetOrder NodeId)
    (m : Std.ExtTreeMap NodeId (List Path)) (a : List NodeId) : Coordinator :=
  { c with setOrder := o, pathsMaps := m, activations := a }

section Blind

variable (v : View) (o : SetOrder NodeId) (m : Std.ExtTreeMap NodeId (List Path))
  (a : List NodeId)

private theorem getOrCreateExecutionId_withPaths (c : Coordinator) (id : NodeId) :
    (c.withPaths o m a).getOrCreateExecutionId id =
      ((c.getOrCreateExecutionId id).1.withPaths o m a, (c.getOrCreateExecutionId id).2) := by
  unfold getOrCreateExecutionId
  rw [show (c.withPaths o m a).nodeExecutionIds = c.nodeExecutionIds from rfl]
  cases c.nodeExecutionIds[id]? with
  | none => rfl
  | some e => rfl

private theorem readAll_withPaths (c : Coordinator) (selector : Selector) :
    (c.withPaths o m a).readAll selector = (c.readAll selector).withPaths o m a := by
  unfold readAll
  rw [show (c.withPaths o m a).unread selector = c.unread selector from rfl]
  split <;> rfl

private theorem processVariableSegment_withPaths (c : Coordinator) (s : ResponseSession)
    (selector : Selector) :
    (c.withPaths o m a).processVariableSegment v s selector =
      ((c.processVariableSegment v s selector).1.withPaths o m a,
        (c.processVariableSegment v s selector).2) := by
  unfold processVariableSegment
  simp only [getOrCreateExecutionId_withPaths]
  generalize c.getOrCreateExecutionId _ = r
  obtain ⟨d, id⟩ := r
  simp only [readAll_withPaths]
  rw [show (d.withPaths o m a).unread selector = d.unread selector from rfl,
    show ((d.readAll selector).withPaths o m a).closedStreams =
      (d.readAll selector).closedStreams from rfl]
  split
  next => rfl
  next =>
    split
    next => rfl
    next => rfl

private theorem flushSegments_withPaths (segments : List TemplateSegment) (c : Coordinator)
    (s : ResponseSession) :
    flushSegments v segments (c.withPaths o m a) s =
      ((flushSegments v segments c s).1.withPaths o m a, (flushSegments v segments c s).2) := by
  induction segments generalizing c s with
  | nil => rfl
  | cons segment rest ih =>
    cases segment with
    | text text =>
      unfold flushSegments processTextSegment
      simp only [getOrCreateExecutionId_withPaths, ih]
    | «variable» selector =>
      unfold flushSegments
      split
      next => rw [ih]
      next =>
        rw [processVariableSegment_withPaths]
        generalize c.processVariableSegment v s selector = r
        obtain ⟨d, events, isComplete⟩ := r
        simp only []
        split
        next => simp only [ih]
        next => rfl

private theorem flushSession_withPaths (waiting : List ResponseSession) (c : Coordinator)
    (s : ResponseSession) :
    flushSession v waiting (c.withPaths o m a) s =
      ((flushSession v waiting c s).1.withPaths o m a, (flushSession v waiting c s).2) := by
  induction waiting generalizing c s with
  | nil =>
    unfold flushSession
    rw [flushSegments_withPaths]
    generalize flushSegments v (s.template.segments.drop s.index) c s = r
    obtain ⟨d, s', events⟩ := r
    simp only []
    split
    next => rfl
    next => rfl
  | cons next rest ih =>
    unfold flushSession
    rw [flushSegments_withPaths]
    generalize flushSegments v (s.template.segments.drop s.index) c s = r
    obtain ⟨d, s', events⟩ := r
    simp only []
    split
    next => rw [ih]
    next => rfl

theorem tryFlush_withPaths (c : Coordinator) :
    (c.withPaths o m a).tryFlush v = ((c.tryFlush v).1.withPaths o m a, (c.tryFlush v).2) := by
  unfold tryFlush
  rw [show (c.withPaths o m a).activeSession = c.activeSession from rfl]
  cases c.activeSession with
  | none => rfl
  | some s => exact flushSession_withPaths v o m a c.waitingSessions c s

theorem endSession_withPaths (c : Coordinator) (id : NodeId) :
    (c.withPaths o m a).endSession v id =
      ((c.endSession v id).1.withPaths o m a, (c.endSession v id).2) := by
  unfold endSession
  rw [show (c.withPaths o m a).activeSession = c.activeSession from rfl]
  cases c.activeSession with
  | none => rfl
  | some s =>
    simp only []
    split
    next =>
      rw [show (c.withPaths o m a).waitingSessions = c.waitingSessions from rfl]
      cases c.waitingSessions with
      | nil => rfl
      | cons next rest => exact flushSession_withPaths v o m a rest c next
    next => rfl

private theorem appendStreamChunk_withPaths (c : Coordinator) (event : StreamChunk) :
    (c.withPaths o m a).appendStreamChunk event =
      (c.appendStreamChunk event).map (·.withPaths o m a) := by
  unfold appendStreamChunk
  rw [show (c.withPaths o m a).closedStreams = c.closedStreams from rfl]
  split
  next => rfl
  next => rfl

theorem interceptChunk_withPaths (c : Coordinator) (event : StreamChunk) :
    (c.withPaths o m a).interceptChunk v event =
      (c.interceptChunk v event).map fun r => (r.1.withPaths o m a, r.2) := by
  unfold interceptChunk
  rw [appendStreamChunk_withPaths]
  cases c.appendStreamChunk event with
  | error e => rfl
  | ok d =>
    simp only [Except.map, bind, Except.bind, pure, Except.pure, Except.ok.injEq]
    rw [← tryFlush_withPaths]
    split
    next => rfl
    next => rfl

theorem activeOrQueueSession_withPaths (c : Coordinator) (r : NodeId) :
    ∃ a', (c.withPaths o m a).activeOrQueueSession v r =
      ((c.activeOrQueueSession v r).1.withPaths o m a', (c.activeOrQueueSession v r).2) := by
  unfold activeOrQueueSession
  rw [show (c.withPaths o m a).responseSessions = c.responseSessions from rfl]
  cases c.responseSessions[r]? with
  | none => exact ⟨a, rfl⟩
  | some session =>
    refine ⟨a ++ [r], ?_⟩
    simp only []
    rw [show (c.withPaths o m a).activeSession = c.activeSession from rfl]
    cases c.activeSession with
    | none =>
      have ht := tryFlush_withPaths v o m (a ++ [r]) { c with
        responseSessions := c.responseSessions.erase r
        activations := c.activations ++ [r]
        activeSession := some session }
      exact ht
    | some s => rfl

end Blind

/-! ### Striking out an edge and opening sessions -/

/-- Taking the edge opens the pending session of this node. -/
def opens (c : Coordinator) (edgeId : EdgeId) (r : NodeId) : Bool :=
  c.responseSessions[r]?.isSome &&
    match c.pathsMaps[r]? with
    | none => false
    | some paths => (paths.map (·.erase edgeId)).any List.isEmpty

/-- Open sessions one after another. -/
def openAll (v : View) : List NodeId → Coordinator → Coordinator × List Emission
  | [], c => (c, [])
  | r :: rs, c =>
    let x := c.activeOrQueueSession v r
    let y := openAll v rs x.1
    (y.1, x.2 ++ y.2)

section Opening

variable (v : View)

private theorem openAll_withPaths (rs : List NodeId) (c : Coordinator) (o : SetOrder NodeId)
    (m : Std.ExtTreeMap NodeId (List Path)) (a : List NodeId) :
    ∃ a', openAll v rs (c.withPaths o m a) =
      ((openAll v rs c).1.withPaths o m a', (openAll v rs c).2) := by
  induction rs generalizing c a with
  | nil => exact ⟨a, rfl⟩
  | cons r rs ih =>
    obtain ⟨a', ha⟩ := activeOrQueueSession_withPaths v o m a c r
    obtain ⟨a'', ha'⟩ := ih (c.activeOrQueueSession v r).1 a'
    refine ⟨a'', ?_⟩
    unfold openAll
    simp only [ha, ha']

theorem openAll_append (rs rs' : List NodeId) (c : Coordinator) :
    openAll v (rs ++ rs') c = ((openAll v rs' (openAll v rs c).1).1,
      (openAll v rs c).2 ++ (openAll v rs' (openAll v rs c).1).2) := by
  induction rs generalizing c with
  | nil => rfl
  | cons r rs ih =>
    have hcons : ∀ ids : List NodeId, openAll v (r :: ids) c =
        ((openAll v ids (c.activeOrQueueSession v r).1).1, (c.activeOrQueueSession v r).2 ++
          (openAll v ids (c.activeOrQueueSession v r).1).2) := fun _ => rfl
    rw [List.cons_append, hcons, hcons, ih, List.append_assoc]

theorem activeOrQueueSession_frame (c : Coordinator) (r : NodeId) :
    (c.activeOrQueueSession v r).1.setOrder = c.setOrder ∧
      (c.activeOrQueueSession v r).1.pathsMaps = c.pathsMaps ∧
      ∀ r', r' ≠ r →
        (c.activeOrQueueSession v r).1.responseSessions[r']? = c.responseSessions[r']? := by
  obtain ⟨a', ha⟩ := activeOrQueueSession_withPaths v c.setOrder c.pathsMaps c.activations c r
  have hself : (c.activeOrQueueSession v r).1 =
      (c.activeOrQueueSession v r).1.withPaths c.setOrder c.pathsMaps a' := congrArg Prod.fst ha
  have horder := congrArg Coordinator.setOrder hself
  have hpaths := congrArg Coordinator.pathsMaps hself
  refine ⟨horder, hpaths, fun r' hne => ?_⟩
  cases hs : c.responseSessions[r]? with
  | none => rw [activeOrQueueSession_absent v hs]
  | some session =>
    rw [(activeOrQueueSession_pending v hs).responseSessions, Std.ExtTreeMap.getElem?_erase,
      if_neg (by simpa using fun he => hne he.symm)]

theorem updateResponseNode_eq (c : Coordinator) (edgeId : EdgeId) (r : NodeId) :
    ∃ m a, c.updateResponseNode v edgeId r =
        ((openAll v (if c.opens edgeId r then [r] else []) c).1.withPaths c.setOrder m a,
          (openAll v (if c.opens edgeId r then [r] else []) c).2) ∧
      ∀ r', m[r']? = if r' = r then (c.pathsMaps[r']?).map (·.map (·.erase edgeId))
        else c.pathsMaps[r']? := by
  have hopens : c.opens edgeId r = (c.responseSessions[r]?.isSome &&
      match c.pathsMaps[r]? with
      | none => false
      | some paths => (paths.map (·.erase edgeId)).any List.isEmpty) := rfl
  unfold updateResponseNode
  cases hp : c.pathsMaps[r]? with
  | none =>
    simp only [hp, Bool.and_false] at hopens
    refine ⟨c.pathsMaps, c.activations, ?_, fun r' => ?_⟩
    · rw [hopens]
      rfl
    · split
      next he => rw [he, hp]; rfl
      next => rfl
  | some paths =>
    simp only [hp] at hopens
    simp only []
    generalize hm : c.pathsMaps.insert r (paths.map (·.erase edgeId)) = m
    have hmap : ∀ r', m[r']? = if r' = r then (c.pathsMaps[r']?).map (·.map (·.erase edgeId))
        else c.pathsMaps[r']? := by
      intro r'
      rw [← hm, Std.ExtTreeMap.getElem?_insert]
      by_cases he : r' = r
      · subst he
        rw [if_pos (by simp), if_pos rfl, hp]
        rfl
      · rw [if_neg (by simpa using fun h => he h.symm), if_neg he]
    by_cases hany : (paths.map (·.erase edgeId)).any List.isEmpty = true
    · rw [if_pos hany]
      rw [hany, Bool.and_true] at hopens
      obtain ⟨a', ha⟩ := activeOrQueueSession_withPaths v c.setOrder m c.activations c r
      refine ⟨m, a', ha.trans ?_, hmap⟩
      cases hs : c.responseSessions[r]? with
      | none =>
        rw [hopens, hs, activeOrQueueSession_absent v hs]
        rfl
      | some session =>
        rw [hopens, hs]
        simp only [Option.isSome_some, ↓reduceIte, openAll, List.append_nil]
    · rw [if_neg hany]
      rw [Bool.eq_false_iff.mpr hany, Bool.and_false] at hopens
      refine ⟨m, c.activations, ?_, hmap⟩
      rw [hopens]
      rfl

theorem updateResponseNodes_eq (edgeId : EdgeId) (ids : List NodeId) (hnd : ids.Nodup)
    (c : Coordinator) :
    ∃ m a, updateResponseNodes v edgeId ids c =
        ((openAll v (ids.filter (c.opens edgeId)) c).1.withPaths c.setOrder m a,
          (openAll v (ids.filter (c.opens edgeId)) c).2) ∧
      ∀ r, m[r]? = if r ∈ ids then (c.pathsMaps[r]?).map (·.map (·.erase edgeId))
        else c.pathsMaps[r]? := by
  induction ids generalizing c with
  | nil => exact ⟨c.pathsMaps, c.activations, rfl, fun r => by simp⟩
  | cons r ids ih =>
    obtain ⟨hr, hnd'⟩ := List.nodup_cons.mp hnd
    obtain ⟨m, a, heq, hm⟩ := updateResponseNode_eq v c edgeId r
    generalize hrs : (if c.opens edgeId r then [r] else []) = rs at heq
    have hfilter : (r :: ids).filter (c.opens edgeId) = rs ++ ids.filter (c.opens edgeId) := by
      rw [← hrs, List.filter_cons]
      split <;> rfl
    -- The round for `r` changes no other node, so the later rounds open the same sessions.
    have hothers : ∀ r' ∈ ids, ((openAll v rs c).1.withPaths c.setOrder m a).opens edgeId r' =
        c.opens edgeId r' := by
      intro r' hr'
      have hne : r' ≠ r := fun he => hr (he ▸ hr')
      have hsession : (openAll v rs c).1.responseSessions[r']? = c.responseSessions[r']? := by
        rw [← hrs]
        split
        next => exact (activeOrQueueSession_frame v c r).2.2 r' hne
        next => rfl
      unfold opens
      rw [show ((openAll v rs c).1.withPaths c.setOrder m a).responseSessions =
        (openAll v rs c).1.responseSessions from rfl, hsession,
        show ((openAll v rs c).1.withPaths c.setOrder m a).pathsMaps = m from rfl, hm r',
        if_neg hne]
    obtain ⟨m', a', heq', hm'⟩ := ih hnd' ((openAll v rs c).1.withPaths c.setOrder m a)
    rw [List.filter_congr hothers] at heq'
    obtain ⟨a'', ha''⟩ := openAll_withPaths v (ids.filter (c.opens edgeId)) (openAll v rs c).1
      c.setOrder m a
    rw [ha''] at heq'
    refine ⟨m', a', ?_, fun r' => ?_⟩
    · unfold updateResponseNodes
      simp only [heq, heq', hfilter, openAll_append]
      rfl
    · rw [hm' r', show ((openAll v rs c).1.withPaths c.setOrder m a).pathsMaps = m from rfl, hm r']
      by_cases he : r' = r
      · subst he
        simp [hr]
      · simp [he]

/-- Two copies that differ in recorded paths' order and ghost record only, and whose sets
list the sessions to be opened in the same order, take an edge alike. -/
theorem onEdgeTaken_withPaths (c : Coordinator) (o : SetOrder NodeId) (a : List NodeId)
    (edgeId : EdgeId) (horder : (o.iterate c.responseNodes).filter (c.opens edgeId) =
      (c.setOrder.iterate c.responseNodes).filter (c.opens edgeId)) :
    ∃ a', (c.withPaths o c.pathsMaps a).onEdgeTaken v edgeId =
      ((c.onEdgeTaken v edgeId).1.withPaths o (c.onEdgeTaken v edgeId).1.pathsMaps a',
        (c.onEdgeTaken v edgeId).2) := by
  obtain ⟨m, b, heq, hm⟩ := updateResponseNodes_eq v edgeId (c.setOrder.iterate c.responseNodes)
    (c.setOrder.nodup_iterate _) c
  obtain ⟨m', b', heq', hm'⟩ := updateResponseNodes_eq v edgeId (o.iterate c.responseNodes)
    (o.nodup_iterate _) (c.withPaths o c.pathsMaps a)
  obtain ⟨b'', hb''⟩ := openAll_withPaths v ((o.iterate c.responseNodes).filter (c.opens edgeId))
    c o c.pathsMaps a
  -- Both strike the edge out of the paths of the same nodes.
  have hpaths : m' = m := by
    refine Std.ExtTreeMap.ext_getElem? fun r => ?_
    rw [hm, hm']
    simp only [SetOrder.mem_iterate]
    rfl
  have hopens : (c.withPaths o c.pathsMaps a).opens edgeId = c.opens edgeId := rfl
  rw [hopens, hb'', horder] at heq'
  unfold onEdgeTaken
  rw [show (c.withPaths o c.pathsMaps a).setOrder.iterate
    (c.withPaths o c.pathsMaps a).responseNodes =
    o.iterate c.responseNodes from rfl, heq', heq, hpaths]
  exact ⟨b', rfl⟩

/-- Whatever order the set is iterated in, taking an edge opens in that order the sessions it
opens. -/
theorem onEdgeTaken_inOrder (c : Coordinator) (o : SetOrder NodeId) (edgeId : EdgeId) :
    ∃ m a, { c with setOrder := o }.onEdgeTaken v edgeId =
      ((openAll v ((o.iterate c.responseNodes).filter (c.opens edgeId)) c).1.withPaths o m a,
        (openAll v ((o.iterate c.responseNodes).filter (c.opens edgeId)) c).2) := by
  obtain ⟨m, a, heq, -⟩ := updateResponseNodes_eq v edgeId (o.iterate c.responseNodes)
    (o.nodup_iterate _) { c with setOrder := o }
  obtain ⟨a', ha'⟩ := openAll_withPaths v ((o.iterate c.responseNodes).filter (c.opens edgeId))
    c o c.pathsMaps c.activations
  have hself : { c with setOrder := o } = c.withPaths o c.pathsMaps c.activations := rfl
  have hopens : ({ c with setOrder := o } : Coordinator).opens edgeId = c.opens edgeId := rfl
  rw [hopens, hself, ha'] at heq
  exact ⟨m, a, heq⟩

end Opening

/-! ### Calls and answers -/

/-- A call on the coordinator. -/
inductive CallKind where
  | edgeTaken (edgeId : EdgeId)
  | streamChunk (event : StreamChunk)
  | nodeSucceeded
  | endSession (nodeId : NodeId)
  | nodeStarted (nodeId : NodeId) (executionId : ExecutionId)

/-- A call with the node states and variables of its moment. -/
structure Call where
  nodeState : NodeId → NodeState
  variablePool : VariablePool
  kind : CallKind

/-- The state after a call, and the events it returns or the exception it raises. -/
def respond (g : Graph) (c : Coordinator) (call : Call) :
    Coordinator × Except PyError (List Emission) :=
  let v : View := ⟨g, call.nodeState, call.variablePool⟩
  match call.kind with
  | .edgeTaken edgeId => ((c.onEdgeTaken v edgeId).1, .ok (c.onEdgeTaken v edgeId).2)
  | .streamChunk event =>
    match c.interceptChunk v event with
    | .error e => (c, .error e)
    | .ok r => (r.1, .ok r.2)
  | .nodeSucceeded => ((c.interceptSucceeded v).1, .ok (c.interceptSucceeded v).2)
  | .endSession nodeId => ((c.endSession v nodeId).1, .ok (c.endSession v nodeId).2)
  | .nodeStarted nodeId executionId => (c.trackNodeExecution nodeId executionId, .ok [])

/-- A sequence of calls with all answers. -/
def respondAll (g : Graph) : Coordinator → List Call →
    Coordinator × List (Except PyError (List Emission))
  | c, [] => (c, [])
  | c, call :: calls =>
    let r := respondAll g (respond g c call).1 calls
    (r.1, (respond g c call).2 :: r.2)

/-- Coordinators that calls over `g` lead to. -/
inductive Reachable (g : Graph) : Coordinator → Prop where
  | fresh (o : SetOrder NodeId) : Reachable g { setOrder := o }
  | register {c c' : Coordinator} {n : Node} (h : Reachable g c) (hn : n ∈ g.nodes)
    (hc : c.register g n = .ok c') : Reachable g c'
  | call {c : Coordinator} (h : Reachable g c) (call : Call) : Reachable g (respond g c call).1
  | load {c c' : Coordinator} {o : SetOrder NodeId} (h : Reachable g c)
    (hc : loads g o c.dumps = .ok c') : Reachable g c'

/-- A call that takes an edge opens its sessions in the same order when the response nodes
are iterated in order `o`. -/
def OpensInOrder (o : SetOrder NodeId) (c : Coordinator) (call : Call) : Prop :=
  ∀ edgeId, call.kind = .edgeTaken edgeId →
    (o.iterate c.responseNodes).filter (c.opens edgeId) =
      (c.setOrder.iterate c.responseNodes).filter (c.opens edgeId)

theorem opensInOrder_of_unique (o : SetOrder NodeId) (c : Coordinator) (call : Call)
    (h : ∀ edgeId, call.kind = .edgeTaken edgeId → ∀ r ∈ c.responseNodes, ∀ r' ∈ c.responseNodes,
      c.opens edgeId r = true → c.opens edgeId r' = true → r = r') :
    OpensInOrder o c call := by
  intro edgeId hk
  refine eq_of_perm_of_unique (((o.perm _).trans (c.setOrder.perm _).symm).filter _)
    fun r hr r' hr' => ?_
  obtain ⟨hm, ho⟩ := List.mem_filter.mp hr
  obtain ⟨hm', ho'⟩ := List.mem_filter.mp hr'
  rw [SetOrder.mem_iterate] at hm hm'
  exact h edgeId hk r hm r' hm' ho ho'

section Reloaded

variable {g : Graph}

theorem Reachable.wf {c : Coordinator} (h : Reachable g c) : WF g c := by
  induction h with
  | fresh o => exact WF.fresh g o
  | register _ hn hc ih => exact wf_register ih hn hc
  | @call c _ call ih =>
    unfold respond
    simp only []
    split
    next => exact wf_onEdgeTaken _ ih _
    next =>
      split
      next => exact ih
      next r hr => exact wf_interceptChunk _ ih hr
    next => exact wf_tryFlush _ ih
    next => exact wf_endSession _ ih _
    next => exact wf_trackNodeExecution ih _ _
  | @load c c' o _ hc ih =>
    rw [loads_dumps ih o] at hc
    cases hc
    exact ⟨ih.active, ih.waiting, ih.pending, ih.positions⟩

theorem Reachable.idle {c : Coordinator} (h : Reachable g c) : c.Idle := by
  induction h with
  | fresh o => exact fun _ => rfl
  | @register c c' n h _ hc ih =>
    rcases register_cases hc with ⟨rfl, -⟩ | ⟨_, _, -, -, -, rfl⟩
    · exact ih
    · exact ih
  | @call c _ call ih =>
    unfold respond
    simp only []
    split
    next => exact idle_updateResponseNodes _ _ _ ih
    next =>
      split
      next => exact ih
      next r hr => exact idle_interceptChunk _ ih hr
    next => exact idle_tryFlush _ ih
    next => exact idle_endSession _ ih _
    next => exact ih
  | @load c c' o h hc ih =>
    rw [loads_dumps h.wf o] at hc
    cases hc
    exact ih

private theorem respond_withPaths (c : Coordinator) (o : SetOrder NodeId) (a : List NodeId)
    (call : Call) (h : OpensInOrder o c call) :
    ∃ a', respond g (c.withPaths o c.pathsMaps a) call =
      ((respond g c call).1.withPaths o (respond g c call).1.pathsMaps a',
        (respond g c call).2) := by
  -- An operation blind to the recorded paths leaves them alone.
  have hblind : ∀ {f : Coordinator → Coordinator × List Emission},
      (∀ d o m b, f (d.withPaths o m b) = ((f d).1.withPaths o m b, (f d).2)) →
      f (c.withPaths o c.pathsMaps a) = ((f c).1.withPaths o (f c).1.pathsMaps a, (f c).2) := by
    intro f hf
    have hself : f c = ((f c).1.withPaths c.setOrder c.pathsMaps c.activations, (f c).2) :=
      hf c c.setOrder c.pathsMaps c.activations
    have hpaths : (f c).1.pathsMaps = c.pathsMaps := by
      rw [hself]
      rfl
    rw [hf, hpaths]
  unfold respond
  simp only []
  cases hk : call.kind with
  | edgeTaken edgeId =>
    obtain ⟨a', ha⟩ := onEdgeTaken_withPaths ⟨g, call.nodeState, call.variablePool⟩ c o a edgeId
      (h edgeId hk)
    exact ⟨a', by simp only [ha]⟩
  | streamChunk event =>
    refine ⟨a, ?_⟩
    simp only [interceptChunk_withPaths]
    cases hc : c.interceptChunk ⟨g, call.nodeState, call.variablePool⟩ event with
    | error e => rfl
    | ok r =>
      have hpaths : r.1.pathsMaps = c.pathsMaps := (sameSessions_interceptChunk _ hc).pathsMaps
      simp only [Except.map, hpaths]
  | nodeSucceeded =>
    have ht := hblind (f := fun d => d.tryFlush ⟨g, call.nodeState, call.variablePool⟩)
      fun d o m b => tryFlush_withPaths _ o m b d
    refine ⟨a, ?_⟩
    simp only [interceptSucceeded, ht]
  | endSession nodeId =>
    have ht := hblind (f := fun d => d.endSession ⟨g, call.nodeState, call.variablePool⟩ nodeId)
      fun d o m b => endSession_withPaths _ o m b d nodeId
    refine ⟨a, ?_⟩
    simp only [ht]
  | nodeStarted nodeId executionId => exact ⟨a, rfl⟩

private theorem respondAll_withPaths (calls : List Call) (c : Coordinator) (o : SetOrder NodeId)
    (a : List NodeId)
    (h : ∀ pre call post, calls = pre ++ call :: post →
      OpensInOrder o (respondAll g c pre).1 call) :
    ∃ a', respondAll g (c.withPaths o c.pathsMaps a) calls =
      ((respondAll g c calls).1.withPaths o (respondAll g c calls).1.pathsMaps a',
        (respondAll g c calls).2) := by
  induction calls generalizing c a with
  | nil => exact ⟨a, rfl⟩
  | cons call calls ih =>
    obtain ⟨a', ha⟩ := respond_withPaths (g := g) c o a call (h [] call calls rfl)
    obtain ⟨a'', ha'⟩ := ih (respond g c call).1 a' fun pre call' post he =>
      h (call :: pre) call' post (by rw [he, List.cons_append])
    refine ⟨a'', ?_⟩
    unfold respondAll
    simp only [ha, ha']

end Reloaded

/-- Serialisation is transparent as far as iteration orders allow. A reachable coordinator
loaded from its own dump answers every further sequence of calls as the original would, and
dumps the same state after it, provided that no call opens several sessions which the two
sets of response nodes list in different orders. -/
theorem reload_transparent {g : Graph} {c : Coordinator} (h : Reachable g c)
    (o : SetOrder NodeId) :
    ∃ c', loads g o c.dumps = .ok c' ∧ c'.dumps = c.dumps ∧ ∀ calls,
      (∀ pre call post, calls = pre ++ call :: post →
        OpensInOrder o (respondAll g c pre).1 call) →
      (respondAll g c' calls).2 = (respondAll g c calls).2 ∧
        (respondAll g c' calls).1.dumps = (respondAll g c calls).1.dumps := by
  refine ⟨_, loads_dumps h.wf o, rfl, fun calls hcalls => ?_⟩
  obtain ⟨a', ha⟩ := respondAll_withPaths calls c o [] hcalls
  have hloaded : c.withPaths o c.pathsMaps [] = { c with setOrder := o, activations := [] } := rfl
  rw [hloaded] at ha
  rw [ha]
  exact ⟨rfl, rfl⟩

/-- The first answer of `twoReplies`. -/
def helloNode : Node :=
  { id := "hello", nodeType := "answer", executionType := .response, content := .answer "Hello" }

/-- The second answer of `twoReplies`. -/
def byeNode : Node :=
  { id := "bye", nodeType := "answer", executionType := .response, content := .answer "Bye" }

/-- Two answers behind one node. -/
def twoReplies : Graph where
  nodes := [{ id := "start", nodeType := "start", executionType := .root }, helloNode, byeNode]
  edges := [
    { id := "e0", tail := "start", head := "hello" },
    { id := "e1", tail := "start", head := "bye" }]
  root := "start"

/-- The call that takes edge `e0` of `twoReplies`. -/
def takeFirst : Call := ⟨fun _ => .unknown, .empty, .edgeTaken "e0"⟩

theorem reload_transparent_hello : ∃ c c', Reachable twoReplies c ∧
    loads twoReplies .descending c.dumps = .ok c' ∧
    (respondAll twoReplies c' [takeFirst]).2 = (respondAll twoReplies c [takeFirst]).2 := by
  have hsome : (register {} twoReplies helloNode).toOption.isSome = true := by decide +kernel
  obtain ⟨c, hc⟩ := Option.isSome_iff_exists.mp hsome
  have hreg := Result.eq_ok_of_toOption hc
  have hreach : Reachable twoReplies c :=
    .register (.fresh .ascending) (by simp [twoReplies]) hreg
  have hnodes : ∀ r ∈ c.responseNodes, r = "hello" := by
    intro r hr
    rcases register_responseNodes hreg r hr with hr | ⟨hr, -⟩
    · exact absurd hr Std.ExtTreeSet.not_mem_empty
    · exact hr
  obtain ⟨c', hc', -, hall⟩ := reload_transparent hreach .descending
  obtain ⟨hevents, -⟩ := hall [takeFirst] (by
    intro pre call post he
    have hpre : pre = [] := by
      cases pre with
      | nil => rfl
      | cons a pre => simp at he
    subst hpre
    refine opensInOrder_of_unique _ _ _ fun edgeId _ r hr r' hr' _ _ => ?_
    rw [hnodes r hr, hnodes r' hr'])
  exact ⟨c, c', hreach, hc', hevents⟩

/-- One edge opens both sessions of `twoReplies`: a copy whose set is iterated the other way
round emits the two answers in the other order. -/
theorem reload_reorders_sessions : ¬ ∀ (g : Graph) (c c' : Coordinator) (o : SetOrder NodeId),
    Reachable g c → loads g o c.dumps = .ok c' → ∀ calls,
    (respondAll g c' calls).2 = (respondAll g c calls).2 ∧
      (respondAll g c' calls).1.dumps = (respondAll g c calls).1.dumps := by
  intro hclaim
  obtain ⟨c₁, hc₁, c, hc₂, hne⟩ : ∃ c₁, (register {} twoReplies helloNode).toOption = some c₁ ∧
      ∃ c, (c₁.register twoReplies byeNode).toOption = some c ∧
        ({ c with setOrder := .descending, activations := [] }.onEdgeTaken
            ⟨twoReplies, takeFirst.nodeState, takeFirst.variablePool⟩ "e0").2 ≠
          (c.onEdgeTaken ⟨twoReplies, takeFirst.nodeState, takeFirst.variablePool⟩ "e0").2 := by
    decide +kernel
  have hreach : Reachable twoReplies c :=
    .register (.register (.fresh .ascending) (by simp [twoReplies]) (Result.eq_ok_of_toOption hc₁))
      (by simp [twoReplies]) (Result.eq_ok_of_toOption hc₂)
  obtain ⟨hevents, -⟩ := hclaim twoReplies c _ .descending hreach
    (loads_dumps hreach.wf .descending) [takeFirst]
  refine hne ?_
  have hone := (List.cons.inj hevents).1
  exact Except.ok.inj hone

end Coordinator
end PlatformSpec.Response
