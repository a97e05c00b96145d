import PlatformSpec.Base.Grouped
import PlatformSpec.Response.Moves

/-!
# The order of the sessions

Sessions are activated, become active and end in one order, and the events of the stream are
grouped along it. Every move of the machine keeps this, and no move takes a session back.
-/

namespace PlatformSpec.Response

open Base PlatformSpec.Runtime Workflow

namespace Coordinator

/-! ### Requests -/

/-- A request of a run to the coordinator: `register`, or a call. -/
inductive Request where
  | register (nodeId : NodeId)
  | call (call : Call)

/-- The state after a request, the events it returns and the chunk it accepts; a request that
raises does nothing. -/
def serve (g : Graph) (c : Coordinator) : Request → Coordinator × Trace
  | .register nodeId =>
    match g.node? nodeId with
    | none => (c, .none)
    | some n =>
      match c.register g n with
      | .ok c' => (c', .none)
      | .error _ => (c, .none)
  | .call call => ((respond g c call).1, callTrace call (respond g c call).2)

/-- Requests one after another. -/
def serveAll (g : Graph) : Coordinator → List Request → Coordinator × Trace
  | c, [] => (c, .none)
  | c, request :: requests =>
    let r := serve g c request
    let r' := serveAll g r.1 requests
    (r'.1, r.2.append r'.2)

/-- The view a request has of the graph and of the pool. -/
def Request.view (g : Graph) : Request → View
  | .register _ => ⟨g, fun _ => .unknown, .empty⟩
  | .call k => ⟨g, k.nodeState, k.variablePool⟩

/-- The request ends a session from outside. -/
def Request.ends : Request → Prop
  | .register _ => False
  | .call k => ∃ nodeId, k.kind = .endSession nodeId

variable {g : Graph} {c c' : Coordinator}

theorem serve_register (nodeId : NodeId) :
    (∃ n ∈ g.nodes, ∃ c', c.register g n = .ok c' ∧
      serve g c (.register nodeId) = (c', .none)) ∨
    serve g c (.register nodeId) = (c, .none) := by
  simp only [serve]
  cases hn : g.node? nodeId with
  | none => exact .inr rfl
  | some n =>
    simp only []
    cases hc : c.register g n with
    | error e => exact .inr rfl
    | ok c' => exact .inl ⟨n, (Graph.mem_of_node? hn).1, c', hc, rfl⟩

theorem reachable_serve (h : Reachable g c) (request : Request) :
    Reachable g (serve g c request).1 := by
  cases request with
  | register nodeId =>
    rcases serve_register (g := g) (c := c) nodeId with ⟨n, hn, c', hc, heq⟩ | heq
    · rw [heq]
      exact .register h hn hc
    · rw [heq]
      exact h
  | call call => exact .call h call

theorem reachable_serveAll (h : Reachable g c) (requests : List Request) :
    Reachable g (serveAll g c requests).1 := by
  induction requests generalizing c with
  | nil => exact h
  | cons request requests ih => exact ih (reachable_serve h request)

theorem moves_serve (h : Reachable g c) (request : Request) :
    Moves g (request.view g) request.ends c (serve g c request).2 (serve g c request).1 := by
  cases request with
  | register nodeId =>
    rcases serve_register (g := g) (c := c) nodeId with ⟨n, hn, c', hc, heq⟩ | heq
    · rw [heq]
      exact (Move.register hn hc).moves
    · rw [heq]
      exact .refl c
  | call call => exact moves_respond h.idle call

theorem serveAll_preserves {P : Coordinator → Trace → Prop} (requests : List Request)
    (hstep : ∀ request ∈ requests, ∀ c before t c', P c before →
      Move g (request.view g) request.ends c t c' → P c' (before.append t))
    (h : Reachable g c) {b : Trace} (h0 : P c b) :
    P (serveAll g c requests).1 (b.append (serveAll g c requests).2) := by
  induction requests generalizing c b with
  | nil =>
    rw [show serveAll g c [] = (c, .none) from rfl, Trace.append_none]
    exact h0
  | cons request requests ih =>
    have hone := (moves_serve h request).preserves (hstep request List.mem_cons_self) h0
    have hrest := ih (fun r hr => hstep r (List.mem_cons_of_mem _ hr)) (reachable_serve h request)
      hone
    rw [Trace.append_assoc] at hrest
    exact hrest

/-! ### The order of the sessions -/

/-- The sessions that are open: the active one and the waiting ones. -/
def openSessions (c : Coordinator) : List ResponseSession :=
  c.activeSession.toList ++ c.waitingSessions

/-- Sessions end in the order in which they were activated, the events sent are grouped along
this order, and a session is activated once. -/
structure InOrder (c : Coordinator) (sent : List Emission) : Prop where
  queue : ∃ finished, c.activations = finished ++ c.openSessions.map ResponseSession.nodeId ∧
    Grouped (finished ++ c.activeSession.toList.map ResponseSession.nodeId)
      (sent.map Emission.session)
  nodup : c.activations.Nodup
  registered : ∀ r ∈ c.activations, r ∈ c.responseNodes
  pending : ∀ (r : NodeId) (s : ResponseSession), c.responseSessions[r]? = some s →
    s.nodeId = r ∧ r ∈ c.responseNodes ∧ r ∉ c.activations

theorem InOrder.fresh (o : SetOrder NodeId) : InOrder { setOrder := o } [] where
  queue := ⟨[], rfl, .nil _⟩
  nodup := .nil
  registered := by simp
  pending := by simp

theorem processSegment_frame (v : View) (c : Coordinator) (s : ResponseSession)
    (segment : TemplateSegment) : ∃ positions ids, (c.processSegment v s segment).1 =
      { c with streamPositions := positions, nodeExecutionIds := ids } := by
  cases segment with
  | text text => exact (c.flushed_getOrCreateExecutionId s.nodeId).rest
  | «variable» selector =>
    cases hskip : v.sourceSkipped selector with
    | true =>
      rw [processSegment_skipped v hskip]
      exact ⟨c.streamPositions, c.nodeExecutionIds, rfl⟩
    | false =>
      rw [processSegment_variable v hskip]
      exact ((c.flushed_getOrCreateExecutionId _).trans (flushed_readAll _ selector)).rest

private theorem registered_openPending {r : NodeId}
    (h : ∀ r ∈ c.activations, r ∈ c.responseNodes) (hr : r ∈ c.responseNodes) :
    ∀ r' ∈ (c.openPending r).activations, r' ∈ c.responseNodes := by
  intro r' hr'
  rcases List.mem_append.mp hr' with hr' | hr'
  · exact h r' hr'
  · rw [List.mem_singleton.mp hr']
    exact hr

private theorem pending_openPending {r : NodeId}
    (h : ∀ (r : NodeId) (s : ResponseSession), c.responseSessions[r]? = some s →
      s.nodeId = r ∧ r ∈ c.responseNodes ∧ r ∉ c.activations) (r' : NodeId)
    (s : ResponseSession) (hs : (c.openPending r).responseSessions[r']? = some s) :
    s.nodeId = r' ∧ r' ∈ c.responseNodes ∧ r' ∉ (c.openPending r).activations := by
  change (c.responseSessions.erase r)[r']? = some s at hs
  rw [Std.ExtTreeMap.getElem?_erase] at hs
  split at hs
  next => cases hs
  next hne =>
    obtain ⟨hid, hreg, hnot⟩ := h r' s hs
    refine ⟨hid, hreg, fun hin => ?_⟩
    rcases List.mem_append.mp hin with hin | hin
    · exact hnot hin
    · exact hne (by simp [List.mem_singleton.mp hin])

variable {v : View} {q : Prop} {t : Trace}

/-- A move reads the stream of a segment, accepts a chunk, or leaves the streams alone. -/
theorem Move.streams (hmove : Move g v q c t c') :
    (∃ s segment, SameStreams (c.processSegment v s segment).1 c' ∧ t.accepted = []) ∨
    (∃ d event, c.appendStreamChunk event = .ok d ∧ t.accepted = [event] ∧
      c' = if event.isFinal then d.closeStream event.selector else d) ∨
    c'.streamBuffers = c.streamBuffers ∧ c'.streamPositions = c.streamPositions ∧
      c'.closedStreams = c.closedStreams ∧ t.accepted = [] := by
  cases hmove with
  | @process s segment hactive hsegment =>
    exact .inl ⟨s, segment, ⟨rfl, rfl, rfl, fun _ => rfl⟩, rfl⟩
  | finish => exact .inr (.inr ⟨rfl, rfl, rfl, rfl⟩)
  | next => exact .inr (.inr ⟨rfl, rfl, rfl, rfl⟩)
  | openFirst => exact .inr (.inr ⟨rfl, rfl, rfl, rfl⟩)
  | openLater => exact .inr (.inr ⟨rfl, rfl, rfl, rfl⟩)
  | register hn hc =>
    rcases register_cases hc with ⟨rfl, -⟩ | ⟨paths, session, -, -, -, rfl⟩
    · exact .inr (.inr ⟨rfl, rfl, rfl, rfl⟩)
    · exact .inr (.inr ⟨rfl, rfl, rfl, rfl⟩)
  | @accept d event hc => exact .inr (.inl ⟨d, event, hc, rfl, rfl⟩)
  | frame => exact .inr (.inr ⟨rfl, rfl, rfl, rfl⟩)

theorem InOrder.move {before : Trace} (h : InOrder c before.sent)
    (hmove : Move g v q c t c') : InOrder c' (before.append t).sent := by
  unfold Trace.append
  obtain ⟨finished, hqueue, hgrouped⟩ := h.queue
  cases hmove with
  | @process s segment hactive hsegment =>
    obtain ⟨positions, ids, hc⟩ := processSegment_frame v c s segment
    rw [hc]
    have hid : (if c.passes v segment then s.advance else s).nodeId = s.nodeId := by
      split <;> rfl
    refine ⟨⟨finished, ?_, ?_⟩, h.nodup, h.registered, h.pending⟩
    · show c.activations = _
      rw [hqueue]
      simp [openSessions, withSessions, hactive, hid]
    · rw [hactive] at hgrouped
      simp only [withSessions, Option.toList_some, List.map_cons, List.map_nil, hid,
        List.map_append]
      refine hgrouped.append_last (a := s.nodeId) (by simp) ?_
      intro b hb
      simp only [List.map_map, List.mem_map, Function.comp_apply] at hb
      obtain ⟨event, -, rfl⟩ := hb
      rfl
  | @finish s hactive hdone =>
    rw [show Trace.none.sent = [] from rfl, List.append_nil]
    refine ⟨⟨finished ++ [s.nodeId], ?_, ?_⟩, h.nodup, h.registered, h.pending⟩
    · show c.activations = _
      rw [hqueue]
      simp [openSessions, withSessions, hactive]
    · rw [hactive] at hgrouped
      simpa [withSessions] using hgrouped
  | @next s rest hactive hwaiting =>
    rw [show Trace.none.sent = [] from rfl, List.append_nil]
    refine ⟨⟨finished, ?_, ?_⟩, h.nodup, h.registered, h.pending⟩
    · show c.activations = _
      rw [hqueue]
      simp [openSessions, withSessions, hactive, hwaiting]
    · rw [hactive] at hgrouped
      simp only [Option.toList_none, List.map_nil, List.append_nil] at hgrouped
      exact hgrouped.append_order _
  | @openFirst r s hpending hactive hwaiting =>
    rw [show Trace.none.sent = [] from rfl, List.append_nil]
    obtain ⟨hid, hreg, hnew⟩ := h.pending r s hpending
    refine ⟨⟨finished, ?_, ?_⟩, ?_, ?_, ?_⟩
    · show c.activations ++ [r] = _
      rw [hqueue]
      simp [openSessions, withSessions, hactive, hwaiting, hid]
    · rw [hactive] at hgrouped
      simp only [Option.toList_none, List.map_nil, List.append_nil] at hgrouped
      exact hgrouped.append_order _
    · exact List.nodup_append.mpr ⟨h.nodup, List.nodup_singleton r, fun a ha b hb => by
        rintro rfl
        exact hnew (List.mem_singleton.mp hb ▸ ha)⟩
    · exact registered_openPending h.registered hreg
    · exact pending_openPending h.pending
  | @openLater r s active hpending hactive =>
    rw [show Trace.none.sent = [] from rfl, List.append_nil]
    obtain ⟨hid, hreg, hnew⟩ := h.pending r s hpending
    refine ⟨⟨finished, ?_, ?_⟩, ?_, ?_, ?_⟩
    · show c.activations ++ [r] = _
      rw [hqueue]
      simp [openSessions, withSessions, hactive, hid]
    · rw [hactive] at hgrouped
      exact hgrouped
    · exact List.nodup_append.mpr ⟨h.nodup, List.nodup_singleton r, fun a ha b hb => by
        rintro rfl
        exact hnew (List.mem_singleton.mp hb ▸ ha)⟩
    · exact registered_openPending h.registered hreg
    · exact pending_openPending h.pending
  | @register c' n hn hc =>
    rw [show Trace.none.sent = [] from rfl, List.append_nil]
    rcases register_cases hc with ⟨rfl, -⟩ | ⟨paths, session, hnew, -, hs, rfl⟩
    · exact h
    · refine ⟨⟨finished, hqueue, hgrouped⟩, h.nodup, ?_, ?_⟩
      · exact fun r hr => Std.ExtTreeSet.mem_insert.mpr (.inr (h.registered r hr))
      · intro r s hr
        rw [Std.ExtTreeMap.getElem?_insert] at hr
        split at hr
        next heq =>
          rw [Std.LawfulEqOrd.compare_eq_iff_eq] at heq
          subst heq
          cases hr
          refine ⟨(ResponseSession.fromNode_eq_ok hs).1, ?_, fun hin => hnew (h.registered _ hin)⟩
          exact Std.ExtTreeSet.mem_insert.mpr (.inl (by simp))
        next =>
          obtain ⟨hid, hreg, hnot⟩ := h.pending r s hr
          exact ⟨hid, Std.ExtTreeSet.mem_insert.mpr (.inr hreg), hnot⟩
  | @accept d event hc =>
    obtain ⟨-, rfl⟩ := appendStreamChunk_eq_ok hc
    rw [List.append_nil]
    split
    next => exact ⟨⟨finished, hqueue, hgrouped⟩, h.nodup, h.registered, h.pending⟩
    next => exact ⟨⟨finished, hqueue, hgrouped⟩, h.nodup, h.registered, h.pending⟩
  | frame paths ids =>
    rw [show Trace.none.sent = [] from rfl, List.append_nil]
    exact ⟨h.queue, h.nodup, h.registered, h.pending⟩

/-! ### The index of a session -/

/-- A session of the coordinator, open or pending. -/
def Has (c : Coordinator) (s : ResponseSession) : Prop :=
  s ∈ c.openSessions ∨ ∃ r : NodeId, c.responseSessions[r]? = some s

variable {s' s : ResponseSession}

/-- Every session after a move was there before, with an index no greater, or is that of a node
just registered. -/
theorem Has.move (hmove : Move g v q c t c') (h : c'.Has s') :
    (∃ s, c.Has s ∧ ∃ i, s' = { s with index := i } ∧ s.index ≤ i ∧
      (i = s.index ∨ i ≤ s.template.segments.length)) ∨
    (s'.nodeId ∉ c.responseNodes ∧ s'.index = 0 ∧ SessionOf g s') := by
  have hsame : c.Has s' → ∃ s, c.Has s ∧ ∃ i, s' = { s with index := i } ∧ s.index ≤ i ∧
      (i = s.index ∨ i ≤ s.template.segments.length) :=
    fun h => ⟨s', h, s'.index, rfl, Nat.le_refl _, .inl rfl⟩
  have hopenPending : ∀ r : NodeId, (∃ r' : NodeId, (c.openPending r).responseSessions[r']? =
      some s') → c.Has s' := by
    rintro r ⟨r', hr'⟩
    change (c.responseSessions.erase r)[r']? = some s' at hr'
    rw [Std.ExtTreeMap.getElem?_erase] at hr'
    split at hr'
    next => cases hr'
    next => exact .inr ⟨r', hr'⟩
  cases hmove with
  | @process s segment hactive hsegment =>
    obtain ⟨positions, ids, hc⟩ := processSegment_frame v c s segment
    rw [hc] at h
    have hs : c.Has s := .inl (by simp [openSessions, hactive])
    rcases h with h | h
    · rcases List.mem_append.mp h with h | h
      · rw [show s' = if c.passes v segment = true then s.advance else s by
          simpa [withSessions] using h]
        refine .inl ⟨s, hs, ?_⟩
        split
        next =>
          obtain ⟨hlt, -⟩ := List.getElem?_eq_some_iff.mp hsegment
          exact ⟨s.index + 1, rfl, Nat.le_succ _, .inr hlt⟩
        next => exact ⟨s.index, rfl, Nat.le_refl _, .inl rfl⟩
      · exact .inl (hsame (.inl (List.mem_append_right _ h)))
    · exact .inl (hsame (.inr h))
  | @finish s hactive hdone =>
    rcases h with h | h
    · exact .inl (hsame (.inl (List.mem_append_right _ h)))
    · exact .inl (hsame (.inr h))
  | @next s rest hactive hwaiting =>
    rcases h with h | h
    · refine .inl (hsame (.inl ?_))
      unfold openSessions at h ⊢
      rw [hactive, hwaiting]
      exact h
    · exact .inl (hsame (.inr h))
  | @openFirst r s hpending hactive hwaiting =>
    rcases h with h | h
    · rw [show s' = s by simpa [openSessions, withSessions] using h]
      exact .inl ⟨s, .inr ⟨r, hpending⟩, s.index, rfl, Nat.le_refl _, .inl rfl⟩
    · exact .inl (hsame (hopenPending r h))
  | @openLater r s active hpending hactive =>
    rcases h with h | h
    · have hor : s' ∈ c.openSessions ∨ s' = s := by
        simpa [openSessions, withSessions, hactive, or_assoc] using h
      rcases hor with h | rfl
      · exact .inl (hsame (.inl h))
      · exact .inl (hsame (.inr ⟨r, hpending⟩))
    · exact .inl (hsame (hopenPending r h))
  | @register c' n hn hc =>
    rcases register_cases hc with ⟨rfl, -⟩ | ⟨paths, session, hnew, -, hs, rfl⟩
    · exact .inl (hsame h)
    · rcases h with h | ⟨r, hr⟩
      · exact .inl (hsame (.inl h))
      · rw [Std.ExtTreeMap.getElem?_insert] at hr
        split at hr
        next =>
          cases hr
          obtain ⟨hid, hindex, -⟩ := ResponseSession.fromNode_eq_ok hs
          exact .inr ⟨hid ▸ hnew, hindex, n, hn, by rw [hs, ← hindex]⟩
        next => exact .inl (hsame (.inr ⟨r, hr⟩))
  | @accept d event hc =>
    obtain ⟨-, rfl⟩ := appendStreamChunk_eq_ok hc
    split at h
    next => exact .inl (hsame h)
    next => exact .inl (hsame h)
  | frame paths ids => exact .inl (hsame h)

theorem sessionOf_move (hmove : Move g v q c t c')
    (h : ∀ s, c.Has s → SessionOf g s) : ∀ s, c'.Has s → SessionOf g s := by
  intro s' hs'
  rcases Has.move hmove hs' with ⟨s, hs, i, rfl, -, -⟩ | ⟨-, -, hnew⟩
  · exact (h s hs).of_index i
  · exact hnew

theorem bounded_move (hmove : Move g v q c t c')
    (h : ∀ s, c.Has s → s.index ≤ s.template.segments.length) :
    ∀ s, c'.Has s → s.index ≤ s.template.segments.length := by
  intro s' hs'
  rcases Has.move hmove hs' with ⟨s, hs, i, rfl, -, hi⟩ | ⟨-, hzero, -⟩
  · rcases hi with rfl | hi
    · exact h s hs
    · exact hi
  · rw [hzero]
    exact Nat.zero_le _

/-- The sessions of nodes registered at an earlier moment, seen from there. -/
structure Grown (m : Coordinator) (c : Coordinator) : Prop where
  registered : ∀ r ∈ m.responseNodes, r ∈ c.responseNodes
  sessions : ∀ s', c.Has s' → s'.nodeId ∈ m.responseNodes →
    ∃ s, m.Has s ∧ s'.nodeId = s.nodeId ∧ s'.template = s.template ∧ s.index ≤ s'.index

theorem Grown.move {m : Coordinator} (h : Grown m c) (hmove : Move g v q c t c') : Grown m c' := by
  constructor
  · intro r hr
    have hold := h.registered r hr
    cases hmove with
    | @process s segment hactive hsegment =>
      obtain ⟨positions, ids, hc⟩ := processSegment_frame v c s segment
      rw [hc]
      exact hold
    | finish => exact hold
    | next => exact hold
    | openFirst => exact hold
    | openLater => exact hold
    | @register c' n hn hc =>
      rcases register_cases hc with ⟨rfl, -⟩ | ⟨paths, session, -, -, -, rfl⟩
      · exact hold
      · exact Std.ExtTreeSet.mem_insert.mpr (.inr hold)
    | @accept d event hc =>
      obtain ⟨-, rfl⟩ := appendStreamChunk_eq_ok hc
      split
      next => exact hold
      next => exact hold
    | frame => exact hold
  · intro s' hs' hid
    rcases Has.move hmove hs' with ⟨s, hs, i, rfl, hle, -⟩ | ⟨hnew, -, -⟩
    · obtain ⟨s₀, hs₀, hnode, htemplate, hindex⟩ := h.sessions s hs hid
      exact ⟨s₀, hs₀, hnode, htemplate, Nat.le_trans hindex hle⟩
    · exact absurd (h.registered _ hid) hnew

variable {sent : List Emission}

theorem InOrder.registered_of_has (h : InOrder c sent)
    (hs : c.Has s) : s.nodeId ∈ c.responseNodes := by
  obtain ⟨finished, hqueue, -⟩ := h.queue
  rcases hs with hs | ⟨r, hr⟩
  · refine h.registered _ ?_
    rw [hqueue]
    exact List.mem_append_right _ (List.mem_map_of_mem hs)
  · obtain ⟨hid, hreg, -⟩ := h.pending r s hr
    rw [hid]
    exact hreg

theorem InOrder.eq_of_nodeId (h : InOrder c sent)
    (hs : c.Has s) (hs' : c.Has s') (hid : s'.nodeId = s.nodeId) :
    s' = s := by
  obtain ⟨finished, hqueue, -⟩ := h.queue
  have hnd := h.nodup
  rw [hqueue] at hnd
  -- the node of an open session was activated, that of a pending one was not
  have hopen : ∀ s ∈ c.openSessions, s.nodeId ∈ c.activations := by
    intro s hs
    rw [hqueue]
    exact List.mem_append_right _ (List.mem_map_of_mem hs)
  rcases hs with hs | ⟨r, hr⟩
  · rcases hs' with hs' | ⟨r', hr'⟩
    · exact List.inj_on_of_nodup_map (List.nodup_append.mp hnd).2.1 hs' hs hid
    · obtain ⟨hid', -, hnot⟩ := h.pending r' s' hr'
      rw [← hid', hid] at hnot
      exact absurd (hopen s hs) hnot
  · obtain ⟨hidr, -, hnot⟩ := h.pending r s hr
    rcases hs' with hs' | ⟨r', hr'⟩
    · rw [← hidr, ← hid] at hnot
      exact absurd (hopen s' hs') hnot
    · obtain ⟨hid', -, -⟩ := h.pending r' s' hr'
      rw [← hid', hid, hidr, hr] at hr'
      exact (Option.some.inj hr').symm

end Coordinator
end PlatformSpec.Response
