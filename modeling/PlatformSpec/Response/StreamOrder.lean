import PlatformSpec.Response.Origins

/-!
# The order of the stream

For every sequence of registrations and calls: sessions start in the order they were activated,
their events are not mixed, an index only grows, and the chunks of a node are sent on in order
and once.
-/

namespace PlatformSpec.Response

open Base PlatformSpec.Runtime Workflow

namespace Coordinator

variable {g : Graph} {c c' : Coordinator}

/-- The sessions that have become active: all activated ones but those that wait. -/
def started (c : Coordinator) : List NodeId :=
  c.activations.take (c.activations.length - c.waitingSessions.length)

private theorem started_move {v : View} {q : Prop} {t : Trace} (hmove : Move g v q c t c') :
    c.started <+: c'.started := by
  cases hmove with
  | @process s segment hactive hsegment =>
    obtain ⟨positions, ids, hc⟩ := processSegment_frame v c s segment
    rw [hc]
    exact List.prefix_rfl
  | finish => exact List.prefix_rfl
  | @next s rest hactive hwaiting =>
    unfold started
    rw [hwaiting]
    apply List.take_prefix_take_left
    simp only [withSessions, List.length_cons]
    omega
  | @openFirst r s hpending hactive hwaiting =>
    unfold started
    simp only [openPending, withSessions, hwaiting, List.length_nil, Nat.sub_zero,
      List.take_length]
    exact List.prefix_append ..
  | @openLater r s active hpending hactive =>
    unfold started
    simp only [openPending, withSessions, List.length_append, List.length_singleton,
      Nat.add_sub_add_right]
    rw [List.take_append_of_le_length (Nat.sub_le ..)]
  | register hn hc =>
    rcases register_cases hc with ⟨rfl, -⟩ | ⟨paths, session, -, -, -, rfl⟩
    · exact List.prefix_rfl
    · exact List.prefix_rfl
  | @accept d event hc =>
    obtain ⟨-, rfl⟩ := appendStreamChunk_eq_ok hc
    split
    next => exact List.prefix_rfl
    next => exact List.prefix_rfl
  | frame => exact List.prefix_rfl

theorem InOrder.started_eq {sent : List Emission} (h : InOrder c sent) :
    c.activations = c.started ++ c.waitingSessions.map ResponseSession.nodeId ∧
      (∀ s, c.activeSession = some s → c.started.getLast? = some s.nodeId) ∧
      Grouped c.started (sent.map Emission.session) := by
  obtain ⟨finished, hqueue, hgrouped⟩ := h.queue
  rw [openSessions, List.map_append, ← List.append_assoc] at hqueue
  have hstarted : c.started = finished ++ c.activeSession.toList.map ResponseSession.nodeId := by
    unfold started
    rw [hqueue, List.length_append, List.length_map, Nat.add_sub_cancel, List.take_left]
  rw [hstarted]
  refine ⟨hqueue, fun s hs => ?_, hgrouped⟩
  rw [hs]
  simp

/-! ### What every move keeps -/

/-- All that is kept about the coordinator and what it has sent and accepted. -/
private structure Kept (g : Graph) (seen : Selector → String → Prop) (c : Coordinator)
    (t : Trace) : Prop where
  order : InOrder c t.sent
  buffered : Buffered c t.accepted
  sessions : ∀ s, c.Has s → SessionOf g s
  bounded : ∀ s, c.Has s → s.index ≤ s.template.segments.length
  explained : ∃ events, Explained g seen c t.sent events

theorem has_fresh (o : SetOrder NodeId) (s : ResponseSession) :
    ¬ Has { setOrder := o } s := by
  rintro (h | ⟨r, hr⟩)
  · cases h
  · rw [Std.ExtTreeMap.getElem?_empty] at hr
    cases hr

theorem Buffered.fresh (o : SetOrder NodeId) : Buffered { setOrder := o } [] :=
  ⟨fun selector => by simp, fun selector => by simp⟩

private theorem Kept.fresh (g : Graph) (seen : Selector → String → Prop) (o : SetOrder NodeId) :
    Kept g seen { setOrder := o } .none where
  order := .fresh o
  buffered := .fresh o
  sessions := fun s hs => absurd hs (has_fresh o s)
  bounded := fun s hs => absurd hs (has_fresh o s)
  explained := ⟨[], .fresh g seen o⟩

private theorem Kept.move {seen : Selector → String → Prop} {v : View} {q : Prop} {before t : Trace}
    (h : Kept g seen c before) (hmove : Move g v q c t c')
    (hseen : ∀ selector value, v.variablePool.get selector = some value →
      seen selector value.markdown) : Kept g seen c' (before.append t) := by
  obtain ⟨events, hevents⟩ := h.explained
  exact ⟨h.order.move hmove, h.buffered.move hmove, sessionOf_move hmove h.sessions,
    bounded_move hmove h.bounded, hevents.move hmove h.order h.buffered h.sessions hseen⟩

private theorem seen_view {requests : List Request} {request : Request}
    (hmem : request ∈ requests) (selector : Selector) (value : Segment)
    (h : (request.view g).variablePool.get selector = some value) :
    Seen requests selector value.markdown := by
  cases request with
  | register nodeId =>
    change VariablePool.empty.get selector = some value at h
    rw [VariablePool.get_empty] at h
    cases h
  | call call => exact ⟨call, hmem, value, h, rfl⟩

private theorem kept_serveAll (g : Graph) (o : SetOrder NodeId) (requests : List Request) :
    Kept g (Seen requests) (serveAll g { setOrder := o } requests).1
      (serveAll g { setOrder := o } requests).2 := by
  have h := serveAll_preserves (P := Kept g (Seen requests)) (b := .none) requests
    (fun request hmem c before t c' hc hmove => hc.move hmove (seen_view hmem))
    (.fresh o) (.fresh g (Seen requests) o)
  rw [Trace.none_append] at h
  exact h

private theorem later_serveAll (hreach : Reachable g c) (later : List Request) :
    Grown c (serveAll g c later).1 ∧ c.started <+: (serveAll g c later).1.started :=
  serveAll_preserves (P := fun c' _ => Grown c c' ∧ c.started <+: c'.started) (b := .none)
    later (fun _ _ _ _ _ _ hd hmove => ⟨hd.1.move hmove, hd.2.trans (started_move hmove)⟩)
    hreach ⟨⟨fun _ h => h, fun s hs _ => ⟨s, hs, rfl, rfl, Nat.le_refl _⟩⟩, List.prefix_rfl⟩

/-! ### The stream -/

/-- What holds of the coordinator and of the events it has sent: `queue`, sessions wait in the
order of activation; `active`, the active session is the one that started last; `once`, no
session is activated twice; `grouped` and `unmixed`, events come in one block for each session;
`bounded`, an index stays within the template; `chunks`, the chunks sent on are the first ones
produced, in order and once, and every other event is made for one segment each. -/
structure StreamOrdered (g : Graph) (requests : List Request) (c : Coordinator)
    (sent : List Emission) : Prop where
  queue : c.activations = c.started ++ c.waitingSessions.map ResponseSession.nodeId
  active : ∀ s, c.activeSession = some s → c.started.getLast? = some s.nodeId
  once : c.activations.Nodup
  grouped : Grouped c.started (sent.map Emission.session)
  unmixed : ∀ e₁ e e₂, [e₁, e, e₂].Sublist sent → e₁.session = e₂.session →
    e.session = e₁.session
  bounded : ∀ s, c.Has s → s.index ≤ s.template.segments.length
  chunks : ∃ events, Explained g (Seen requests) c sent events ∧ ∀ selector,
    streamed events selector <+: (produced requests selector).map StreamChunk.chunk

/-- For every sequence of registrations and calls, the stream is ordered; whatever is called
later, sessions only start behind those that have started, and no index shrinks. -/
theorem stream_ordered (g : Graph) (o : SetOrder NodeId) (requests later : List Request) :
    StreamOrdered g requests (serveAll g { setOrder := o } requests).1
        (serveAll g { setOrder := o } requests).2.sent ∧
      (serveAll g { setOrder := o } requests).1.started <+:
        (serveAll g (serveAll g { setOrder := o } requests).1 later).1.started ∧
      ∀ s s', (serveAll g { setOrder := o } requests).1.Has s →
        (serveAll g (serveAll g { setOrder := o } requests).1 later).1.Has s' →
        s'.nodeId = s.nodeId → s'.template = s.template ∧ s.index ≤ s'.index := by
  have hreach : Reachable g (serveAll g { setOrder := o } requests).1 :=
    reachable_serveAll (.fresh o) requests
  have hkept := kept_serveAll g o requests
  have hinitial := accepted_initial (g := g) (.fresh o) requests
  obtain ⟨hgrown, hstarted⟩ := later_serveAll hreach later
  generalize serveAll g { setOrder := o } requests = served at hreach hkept hinitial hgrown hstarted
  obtain ⟨hqueue, hactive, hgrouped⟩ := hkept.order.started_eq
  obtain ⟨events, hevents⟩ := hkept.explained
  refine ⟨⟨hqueue, hactive, hkept.order.nodup, hgrouped, ?_, hkept.bounded, events, hevents, ?_⟩,
    hstarted, ?_⟩
  · intro e₁ e e₂ hpart hsame
    have hnd : served.1.started.Nodup := hkept.order.nodup.sublist (List.take_sublist ..)
    have hpart' := hpart.map Emission.session
    simp only [List.map_cons, List.map_nil, ← hsame] at hpart'
    exact hgrouped.eq_of_between hnd hpart'
  · intro selector
    rw [hevents.chunks]
    refine List.IsPrefix.map _ ?_
    refine (List.take_prefix ..).trans ?_
    rw [hkept.buffered.buffers]
    exact hinitial selector
  · intro s s' hs hs' hid
    have hreg : s'.nodeId ∈ served.1.responseNodes := by
      rw [hid]
      exact hkept.order.registered_of_has hs
    obtain ⟨s₀, hs₀, hnode, htemplate, hindex⟩ := hgrown.sessions s' hs' hreg
    have heq : s₀ = s := hkept.order.eq_of_nodeId hs hs₀ (hnode.symm.trans hid)
    subst heq
    exact ⟨htemplate, hindex⟩

/-- An answer that shows a variable the start node stores without streaming it. -/
def shownInput : Graph where
  nodes := [{ id := "start", nodeType := "start", executionType := .root },
    { id := "reply", nodeType := "answer", executionType := .response,
      content := .answer "\x7b\x7b#start.name#\x7d\x7d" }]
  edges := [{ id := "e0", tail := "start", head := "reply" }]
  root := "start"

/-- The name is stored and the edge to the answer is taken. -/
def afterStart : Call :=
  ⟨fun _ => .taken, VariablePool.empty.add "start" "name" (.ofString "Ada"), .edgeTaken "e0"⟩

/-- Nothing was streamed for the variable, and yet its value is sent under its selector. -/
theorem stream_not_only_chunks : ¬ ∀ (g : Graph) (o : SetOrder NodeId) (requests : List Request)
    (selector : Selector),
    (((serveAll g { setOrder := o } requests).2.sent.filter fun e =>
        e.event.selector = selector).map fun e => e.event.chunk) <+:
      (produced requests selector).map StreamChunk.chunk := by
  intro hclaim
  have hsent : ((serveAll shownInput {} [.register "reply", .call afterStart]).2.sent.filter
      fun e => e.event.selector = ["start", "name"]).map (fun e => e.event.chunk) = ["Ada"] := by
    decide +kernel
  have hinitial := hclaim shownInput .ascending [.register "reply", .call afterStart]
    ["start", "name"]
  rw [hsent] at hinitial
  exact List.cons_ne_nil _ _ (List.prefix_nil.mp hinitial)

end Coordinator
end PlatformSpec.Response
