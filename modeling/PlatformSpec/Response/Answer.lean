import PlatformSpec.Response.OpeningOrder
import PlatformSpec.Response.Rendering
import PlatformSpec.Runtime.State

/-!
# The answer and its stream

`AnswerNode._run` converts the whole template at once, from the pool of its moment. A run whose
variables all get their texts streams the same text, unless the text of a variable was streamed
for an earlier segment already.
-/

namespace PlatformSpec.Response

open Base PlatformSpec.Runtime Workflow

/-- The outputs of `AnswerNode._run`, without the files of the template. -/
def AnswerNode.run (pool : VariablePool) (template : String) : List (String × Segment) :=
  [("answer", .ofString (convertTemplate pool template))]

namespace Coordinator

variable {g : Graph} {c : Coordinator} {o : SetOrder NodeId} {requests : List Request}
  {pool : VariablePool} {selector : Selector}

/-! ### The variables of a run -/

/-- The text a pool holds for a variable. -/
def textIn (pool : VariablePool) (selector : Selector) : String :=
  ((pool.get selector).map Segment.markdown).getD ""

/-- The variable was streamed: chunks, a closing one at the end, and the value is stored after
that. -/
structure Streams (requests : List Request) (selector : Selector) : Prop where
  closing : ∃ chunks final, produced requests selector = chunks ++ [final] ∧
    final.isFinal = true ∧ ∀ event ∈ chunks, event.isFinal = false
  stored : ∀ index call, requests[index]? = some (.call call) →
    (call.variablePool.get selector).isSome →
    ∃ event ∈ produced (requests.take index) selector, event.isFinal = true

/-- The node of a variable is not skipped and its output is stored: the text that it streamed, or
one that it did not stream and that stays the same. -/
structure Provided (g : Graph) (requests : List Request) (pool : VariablePool)
    (selector : Selector) : Prop where
  taken : ∀ request ∈ requests, (request.view g).sourceSkipped selector = false
  stored : (pool.get selector).isSome
  output : Streams requests selector ∧
      joined (produced requests selector) = textIn pool selector ∨
    produced requests selector = [] ∧ ∀ call, .call call ∈ requests →
      ∀ value, call.variablePool.get selector = some value →
        value.markdown = textIn pool selector

theorem produced_append (requests later : List Request) (selector : Selector) :
    produced (requests ++ later) selector =
      produced requests selector ++ produced later selector :=
  List.filterMap_append ..

variable {accepted : List StreamChunk}

theorem Streams.whole (h : Streams requests selector)
    (hinitial : accepted.filter (·.selector = selector) <+: produced requests selector)
    (hfinal : ∃ event ∈ accepted, event.selector = selector ∧ event.isFinal = true) :
    accepted.filter (·.selector = selector) = produced requests selector := by
  obtain ⟨chunks, final, hproduced, -, hchunks⟩ := h.closing
  rw [hproduced] at hinitial ⊢
  rcases List.prefix_concat_iff.mp hinitial with heq | hshort
  · exact heq
  · obtain ⟨event, hevent, hsel, hisFinal⟩ := hfinal
    have hin := hshort.subset (List.mem_filter.mpr ⟨hevent, decide_eq_true hsel⟩)
    rw [hchunks event hin] at hisFinal
    cases hisFinal

/-! ### Requests in two parts -/

theorem serveAll_append (g : Graph) (c : Coordinator) (requests later : List Request) :
    serveAll g c (requests ++ later) =
      ((serveAll g (serveAll g c requests).1 later).1,
        (serveAll g c requests).2.append (serveAll g (serveAll g c requests).1 later).2) := by
  induction requests generalizing c with
  | nil => rfl
  | cons request requests ih =>
    simp only [List.cons_append, serveAll, ih, Trace.append_assoc]

private theorem serveAll_concat (g : Graph) (c : Coordinator) (requests : List Request)
    (request : Request) :
    serveAll g c (requests ++ [request]) =
      ((serve g (serveAll g c requests).1 request).1,
        (serveAll g c requests).2.append (serve g (serveAll g c requests).1 request).2) := by
  rw [serveAll_append]
  simp only [serveAll, Trace.append_none]

private theorem activations_serveAll (h : Reachable g c) (requests : List Request) :
    c.activations <+: (serveAll g c requests).1.activations :=
  serveAll_preserves (P := fun d _ => c.activations <+: d.activations) (b := .none) requests
    (fun _ _ _ _ _ _ hd hmove => hd.trans (activations_move hmove)) h List.prefix_rfl

private theorem closed_serve_final {request : Request}
    (h : ∃ event ∈ produced [request] selector, event.isFinal = true) :
    selector ∈ (serve g c request).1.closedStreams := by
  obtain ⟨event, hevent, hfinal⟩ := h
  obtain ⟨nodeState, pool, rfl, rfl⟩ : ∃ nodeState pool,
      request = .call ⟨nodeState, pool, .streamChunk event⟩ ∧ event.selector = selector := by
    unfold produced at hevent
    obtain ⟨request', hrequest', hsome⟩ := List.mem_filterMap.mp hevent
    rw [List.mem_singleton.mp hrequest'] at hsome
    split at hsome
    next nodeState pool event' =>
      split at hsome
      next hsel =>
        cases hsome
        exact ⟨nodeState, pool, rfl, hsel⟩
      next => cases hsome
    next => cases hsome
  simp only [serve, respond, interceptChunk]
  cases happend : c.appendStreamChunk event with
  | error e =>
    unfold appendStreamChunk at happend
    split at happend
    next hin => exact hin
    next => cases happend
  | ok d =>
    simp only [Bind.bind, Except.bind, Pure.pure, Except.pure, hfinal, if_true]
    have hclosed : event.selector ∈ (d.closeStream event.selector).closedStreams :=
      Std.ExtTreeSet.mem_insert_self
    have hflush := moves_tryFlush (g := g) (v := ⟨g, nodeState, pool⟩) (q := False)
      (d.closeStream event.selector)
    exact hflush.preserves (P := fun c _ => event.selector ∈ c.closedStreams)
      (fun c before t c' hc hmove => (closed_move hc hmove).1) (b := .none) hclosed

theorem closed_of_final (hreach : Reachable g c)
    (h : (∃ event ∈ produced requests selector, event.isFinal = true) ∨
      selector ∈ c.closedStreams) :
    selector ∈ (serveAll g c requests).1.closedStreams := by
  induction requests generalizing c with
  | nil => exact h.resolve_left (by simp [produced])
  | cons request requests ih =>
    refine ih (reachable_serve hreach request) ?_
    rw [← List.singleton_append, produced_append] at h
    rcases h with ⟨event, hevent, hfinal⟩ | hclosed
    · rcases List.mem_append.mp hevent with hevent | hevent
      · exact .inr (closed_serve_final ⟨event, hevent, hfinal⟩)
      · exact .inl ⟨event, hevent, hfinal⟩
    · exact .inr (closed_serve hreach hclosed request).1

/-! ### The answer along the run -/

/-- The story of a run: which variables are streamed, the texts of the pool an answer reads, and
the sessions opened. -/
def storyOf (g : Graph) (requests : List Request) (pool : VariablePool) (opened : List NodeId) :
    Story :=
  ⟨g, fun selector => !(produced requests selector).isEmpty, textIn pool, opened⟩

/-- What is kept of the coordinator and of the answer of `r` along a run. -/
private structure Followed (story : Story) (r : NodeId) (c : Coordinator) (t : Trace) : Prop where
  order : InOrder c t.sent
  buffered : Buffered c t.accepted
  finals : ClosedByFinal c t.accepted
  sessions : ∀ s, c.Has s → SessionOf story.graph s
  unstarted : c.Unstarted
  reads : ∀ selector, .variable selector ∈ segmentsOf story.graph r →
    story.streamed selector = true → ReadOnce story.graph c selector
  told : Told story r c t.sent

private theorem Followed.fresh (story : Story) (r : NodeId) (o : SetOrder NodeId) :
    Followed story r { setOrder := o } .none where
  order := .fresh o
  buffered := .fresh o
  finals := fun selector h => by simp at h
  sessions := fun s hs => absurd hs (has_fresh o s)
  unstarted := fun s hs => absurd (hs.imp_left fun h => List.mem_append_right _ h) (has_fresh o s)
  reads := fun selector _ _ => {
    untouched := fun _ _ => by simp [read]
    drained := by
      rintro (⟨r', hr', -⟩ | ⟨s, hs, -⟩)
      · simp [ended] at hr'
      · cases hs }
  told := {
    before := fun _ _ => rfl
    during := fun s hs => by cases hs
    after := fun h => by simp [ended] at h }

variable {v : View}

private theorem Followed.move {story : Story} {r : NodeId} {q : Prop}
    {c' : Coordinator} {before t : Trace} (h : Followed story r c before)
    (hmove : Move story.graph v q c t c') (hq : ¬ q) (hopened : c'.activations <+: story.opened)
    (hready : ∀ selector, .variable selector ∈ segmentsOf story.graph r →
      Ready story v c selector) : Followed story r c' (before.append t) where
  order := h.order.move hmove
  buffered := h.buffered.move hmove
  finals := h.finals.move hmove
  sessions := sessionOf_move hmove h.sessions
  unstarted := h.unstarted.move hmove
  reads := fun selector hin hstreamed =>
    (h.reads selector hin hstreamed).move hmove hq h.order h.buffered h.sessions h.unstarted
      (hready selector hin).notSkipped ((hready selector hin).awaited hstreamed)
  told := h.told.move hmove hq h.order h.buffered h.sessions h.unstarted hopened
    ⟨hready, h.reads⟩

theorem Provided.ready (h : Provided g requests pool selector)
    {earlier later : List Request}
    {request : Request} (hrequests : requests = earlier ++ request :: later)
    (hbuffered : Buffered c accepted) (hfinals : ClosedByFinal c accepted)
    (hinitial : accepted.filter (·.selector = selector) <+: produced requests selector)
    (hclosed : (∃ event ∈ produced earlier selector, event.isFinal = true) →
      selector ∈ c.closedStreams) (opened : List NodeId) :
    Ready (storyOf g requests pool opened) (request.view g) c selector where
  notSkipped := h.taken request (by rw [hrequests]; simp)
  closed := by
    intro hin
    rw [hbuffered.buffers]
    obtain ⟨event, hevent, hsel, hfinal⟩ := hfinals selector hin
    rcases h.output with ⟨hstreams, htext⟩ | ⟨hnone, -⟩
    · rw [hstreams.whole hinitial ⟨event, hevent, hsel, hfinal⟩]
      exact htext
    · rw [hnone, List.prefix_nil] at hinitial
      have hmem : event ∈ accepted.filter (·.selector = selector) :=
        List.mem_filter.mpr ⟨hevent, decide_eq_true hsel⟩
      rw [hinitial] at hmem
      cases hmem
  awaited := by
    intro hstreamed hstored
    rcases h.output with ⟨hstreams, -⟩ | ⟨hnone, -⟩
    · cases request with
      | register nodeId =>
        change (VariablePool.empty.get selector).isSome at hstored
        rw [VariablePool.get_empty] at hstored
        cases hstored
      | call call =>
        have hfinal := hstreams.stored earlier.length call (by simp [hrequests]) hstored
        rw [hrequests, List.take_left] at hfinal
        exact hclosed hfinal
    · simp [storyOf, hnone] at hstreamed
  unstreamed := by
    intro hstreamed
    rw [hbuffered.buffers, ← List.prefix_nil]
    have hnone : produced requests selector = [] := by simpa [storyOf] using hstreamed
    rw [hnone] at hinitial
    exact hinitial
  shows := by
    intro hstreamed value hvalue
    have hnone : produced requests selector = [] := by simpa [storyOf] using hstreamed
    rcases h.output with ⟨hstreams, -⟩ | ⟨-, hshows⟩
    · obtain ⟨chunks, final, hproduced, -, -⟩ := hstreams.closing
      rw [hnone] at hproduced
      cases chunks with
      | nil => cases hproduced
      | cons event chunks => cases hproduced
    · cases request with
      | register nodeId =>
        change VariablePool.empty.get selector = some value at hvalue
        rw [VariablePool.get_empty] at hvalue
        cases hvalue
      | call call => exact hshows call (by rw [hrequests]; simp) value hvalue

/-- What has been accepted and opened is the beginning of what the whole run does. -/
private structure Within (whole : Coordinator × Trace) (c : Coordinator) (t : Trace) : Prop where
  accepted : t.accepted <+: whole.2.accepted
  opened : c.activations <+: whole.1.activations

private theorem Within.back {whole : Coordinator × Trace} {q : Prop}
    {c' : Coordinator} {before t : Trace} (h : Within whole c' (before.append t))
    (hmove : Move g v q c t c') : Within whole c before :=
  ⟨(List.prefix_append ..).trans h.accepted, (activations_move hmove).trans h.opened⟩

private theorem followed_serveAll {r : NodeId}
    (hends : ∀ request ∈ requests, ¬ request.ends)
    (hprovided : ∀ selector, .variable selector ∈ segmentsOf g r →
      Provided g requests pool selector) (earlier later : List Request)
    (hrequests : requests = earlier ++ later) :
    Followed (storyOf g requests pool (serveAll g { setOrder := o } requests).1.activations) r
      (serveAll g { setOrder := o } earlier).1 (serveAll g { setOrder := o } earlier).2 := by
  induction earlier using List.reverseRecOn generalizing later with
  | nil => exact .fresh _ r o
  | append_singleton earlier request ih =>
    have hsplit : requests = earlier ++ request :: later := by
      rw [hrequests, List.append_assoc]
      rfl
    have hfollowed := ih (request :: later) hsplit
    have hreach : Reachable g (serveAll g { setOrder := o } earlier).1 :=
      reachable_serveAll (.fresh o) earlier
    have hall := serveAll_append g { setOrder := o } (earlier ++ [request]) later
    have hone := serveAll_concat g { setOrder := o } earlier request
    rw [← hrequests] at hall
    have hlast : Within (serveAll g { setOrder := o } requests)
        (serveAll g { setOrder := o } (earlier ++ [request])).1
        (serveAll g { setOrder := o } (earlier ++ [request])).2 := by
      rw [hall]
      exact ⟨List.prefix_append .., activations_serveAll (reachable_serveAll (.fresh o) _) later⟩
    rw [hone] at hlast ⊢
    have hrun := (moves_serve hreach request).preserves_until
      (P := fun c t => Followed (storyOf g requests pool
          (serveAll g { setOrder := o } requests).1.activations) r c t ∧
        ∀ selector, (∃ event ∈ produced earlier selector, event.isFinal = true) →
          selector ∈ c.closedStreams)
      (Q := Within (serveAll g { setOrder := o } requests))
      (fun c before t c' hmove hlast => hlast.back hmove) (fun c before t c' hc hmove hlast => ?_)
      hlast ⟨hfollowed, fun selector hfinal => closed_of_final (.fresh o) (.inl hfinal)⟩
    · exact hrun.1
    · refine ⟨hc.1.move hmove (hends request (by rw [hsplit]; simp)) hlast.opened
        fun selector hin => ?_, fun selector hfinal => (closed_move (hc.2 selector hfinal) hmove).1⟩
      have hinitial := ((hlast.back hmove).accepted.filter (·.selector = selector)).trans
        (accepted_initial (g := g) (.fresh o) requests selector)
      exact (hprovided selector hin).ready hsplit hc.1.buffered hc.1.finals hinitial
        (hc.2 selector) _

/-! ### The end of the run -/

/-- No segment of an opened session holds back the last flush of the run: its node is skipped, its
stream was closed, or its value is stored. -/
def Unblocked (g : Graph) (requests : List Request) (opened : List NodeId) : Prop :=
  ∀ call, requests.getLast? = some (.call call) → ∀ r ∈ opened, ∀ selector,
    .variable selector ∈ segmentsOf g r →
    ((Request.call call).view g).sourceSkipped selector = true ∨
      (∃ event ∈ produced requests selector, event.isFinal = true) ∨
      (call.variablePool.get selector).isSome = true

private theorem flushSession_ends (waiting : List ResponseSession) {c : Coordinator}
    {s : ResponseSession}
    (h : ∀ s' ∈ s :: waiting, ∀ segment ∈ s'.template.segments, c.passes v segment = true) :
    (flushSession v waiting c s).1.openSessions = [] := by
  induction waiting generalizing c s with
  | nil =>
    have hdone : (flushSegments v s.left c s).2.1.isComplete = true :=
      (isComplete_flushSegments v c s).mpr fun segment hin =>
        h s List.mem_cons_self segment (List.mem_of_mem_drop hin)
    unfold flushSession
    rw [show s.template.segments.drop s.index = s.left from rfl]
    generalize flushSegments v s.left c s = x at hdone
    obtain ⟨c₁, s₁, events⟩ := x
    simp only at hdone ⊢
    rw [if_pos hdone]
    rfl
  | cons next rest ih =>
    have hdone : (flushSegments v s.left c s).2.1.isComplete = true :=
      (isComplete_flushSegments v c s).mpr fun segment hin =>
        h s List.mem_cons_self segment (List.mem_of_mem_drop hin)
    have hadvanced := advanced_flushSegments v s.left c s
    unfold flushSession
    rw [show s.template.segments.drop s.index = s.left from rfl]
    generalize flushSegments v s.left c s = x at hdone hadvanced
    obtain ⟨c₁, s₁, events⟩ := x
    simp only at hdone hadvanced ⊢
    rw [if_pos hdone]
    exact ih fun s' hs' segment hin => (hadvanced.passes v segment).trans
      (h s' (List.mem_cons_of_mem _ hs') segment hin)

private theorem tryFlush_ends (hidle : c.Idle)
    (h : ∀ s ∈ c.openSessions, ∀ segment ∈ s.template.segments, c.passes v segment = true) :
    (c.tryFlush v).1.openSessions = [] := by
  unfold tryFlush
  unfold openSessions at h
  cases hactive : c.activeSession with
  | none =>
    unfold openSessions
    rw [hactive, hidle hactive]
    rfl
  | some s =>
    rw [hactive] at h
    exact flushSession_ends c.waitingSessions h

private theorem ended_serveAll {earlier : List Request} {call : Call} {sent : List Emission}
    (horder : InOrder (serveAll g { setOrder := o } earlier).1 sent)
    (hsessions : ∀ s, (serveAll g { setOrder := o } earlier).1.Has s → SessionOf g s)
    (hcall : call.kind = .nodeSucceeded)
    (hunblocked : Unblocked g (earlier ++ [.call call])
      (serveAll g { setOrder := o } (earlier ++ [.call call])).1.activations) :
    (serveAll g { setOrder := o } (earlier ++ [.call call])).1.openSessions = [] := by
  have hreach : Reachable g (serveAll g { setOrder := o } earlier).1 :=
    reachable_serveAll (.fresh o) earlier
  have hactivations := activations_serveAll hreach [.call call]
  have hfinal : ∀ selector,
      (∃ event ∈ produced (earlier ++ [.call call]) selector, event.isFinal = true) →
      selector ∈ (serveAll g { setOrder := o } earlier).1.closedStreams := by
    rintro selector ⟨event, hevent, hfinal⟩
    refine closed_of_final (.fresh o) (.inl ⟨event, ?_, hfinal⟩)
    rw [produced_append] at hevent
    refine (List.mem_append.mp hevent).resolve_right fun hlast => ?_
    obtain ⟨nodeState, pool, kind⟩ := call
    cases hcall
    cases hlast
  have hpool := hunblocked call List.getLast?_concat
  rw [serveAll_concat] at hpool ⊢
  have hserve : (serve g (serveAll g { setOrder := o } earlier).1 (.call call)).1 =
      ((serveAll g { setOrder := o } earlier).1.tryFlush
        ⟨g, call.nodeState, call.variablePool⟩).1 := by
    simp only [serve, respond, hcall, interceptSucceeded]
  rw [hserve]
  refine tryFlush_ends hreach.idle fun s hs segment hsegment => ?_
  cases segment with
  | text text => rfl
  | «variable» selector =>
    have hopened : s.nodeId ∈ (serve g (serveAll g { setOrder := o } earlier).1
        (.call call)).1.activations := by
      refine hactivations.subset ?_
      rw [horder.activations_eq]
      exact List.mem_append_right _ (List.mem_map_of_mem hs)
    rw [(hsessions s (.inl hs)).segments] at hsegment
    unfold passes
    rw [Bool.or_eq_true, Bool.or_eq_true, decide_eq_true_eq]
    rcases hpool s.nodeId hopened selector hsegment with hskip | hclosed | hstored
    · exact .inl (.inl hskip)
    · exact .inl (.inr (hfinal selector hclosed))
    · exact .inr hstored

/-! ### The stream and the answer -/

theorem length_join_le {α : Type} {l : List α} {f h : α → String}
    (hle : ∀ a ∈ l, f a = h a ∨ f a = "") :
    (String.join (l.map f)).length ≤ (String.join (l.map h)).length := by
  induction l with
  | nil => exact Nat.le_refl _
  | cons a l ih =>
    obtain ⟨hhead, htail⟩ := List.forall_mem_cons.mp hle
    simp only [List.map_cons, String.join_cons, String.length_append]
    refine Nat.add_le_add ?_ (ih htail)
    rcases hhead with heq | hempty
    · rw [heq]
    · rw [hempty]
      exact Nat.zero_le _

theorem join_map_eq_iff {α : Type} {l : List α} {f h : α → String}
    (hle : ∀ a ∈ l, f a = h a ∨ f a = "") :
    String.join (l.map f) = String.join (l.map h) ↔ ∀ a ∈ l, f a = h a := by
  refine ⟨fun heq => ?_, fun hall => by rw [List.map_congr_left hall]⟩
  have hlength := congrArg String.length heq
  clear heq
  induction l with
  | nil => simp
  | cons a l ih =>
    obtain ⟨hhead, htail⟩ := List.forall_mem_cons.mp hle
    have hrest := length_join_le htail
    simp only [List.map_cons, String.join_cons, String.length_append] at hlength
    rcases hhead with heq | hempty
    · rw [heq] at hlength
      exact List.forall_mem_cons.mpr ⟨heq, ih htail (by omega)⟩
    · rw [hempty, String.length_empty] at hlength
      have hzero : h a = "" := String.length_eq_zero_iff.mp (by omega)
      exact List.forall_mem_cons.mpr ⟨hempty.trans hzero.symm, ih htail (by omega)⟩

private theorem map_eq_map_range {α β : Type} (l : List α) (d : β) (f : α → β) :
    l.map f = (List.range l.length).map fun i => (l[i]?).elim d f := by
  refine List.ext_getElem (by simp) fun i hi _ => ?_
  simp only [List.length_map] at hi
  simp [hi]

/-- A run of requests that opens the session of an answer node and ends with the success of a
node. The variables of the template are provided, and `pool` is the one the node reads. -/
structure Answered (g : Graph) (o : SetOrder NodeId) (requests : List Request) (n : Node)
    (template : String) (pool : VariablePool) : Prop where
  node : n ∈ g.nodes
  content : n.content = .answer template
  opened : n.id ∈ (serveAll g { setOrder := o } requests).1.activations
  ends : ∀ request ∈ requests, ¬ request.ends
  last : ∃ earlier call, requests = earlier ++ [.call call] ∧ call.kind = .nodeSucceeded
  provided : ∀ selector, .variable selector ∈ (Template.fromAnswerTemplate template).segments →
    Provided g requests pool selector

/-- A streamed variable is shown again by a later segment only if its text is empty. -/
def ShownOnce (g : Graph) (requests : List Request) (pool : VariablePool) (opened : List NodeId)
    (r : NodeId) : Prop :=
  ∀ index selector, (segmentsOf g r)[index]? = some (.variable selector) →
    produced requests selector ≠ [] → ShownBefore g opened r index selector →
    textIn pool selector = ""

theorem segmentsOf_answer {n : Node} {template : String} (hn : n ∈ g.nodes)
    (hcontent : n.content = .answer template) :
    segmentsOf g n.id = (Template.fromAnswerTemplate template).segments := by
  unfold segmentsOf Node.getStreamingTemplate
  rw [g.node?_of_mem hn, Option.bind_some, hcontent]
  rfl

private theorem shown_eq_rendered_or (story : Story) (r : NodeId) (index : Nat)
    (segment : TemplateSegment) :
    story.shown r index segment = segment.rendered story.texts ∨
      story.shown r index segment = "" := by
  cases segment with
  | text text => exact .inl rfl
  | «variable» selector =>
    simp only [Story.shown]
    split
    next => exact .inr rfl
    next => exact .inl rfl

theorem shown_eq_rendered_iff (opened : List NodeId) (r : NodeId) (index : Nat)
    (selector : Selector) :
    (storyOf g requests pool opened).shown r index (.variable selector) = textIn pool selector ↔
      (produced requests selector ≠ [] → ShownBefore g opened r index selector →
        textIn pool selector = "") := by
  have hstreamed : (storyOf g requests pool opened).streamed selector = true ↔
      produced requests selector ≠ [] := by
    simp [storyOf]
  simp only [Story.shown, Story.repeats, Bool.and_eq_true, decide_eq_true_eq, hstreamed,
    ← and_imp]
  split
  next hrepeats => exact ⟨fun heq _ => heq.symm, fun hempty => (hempty hrepeats).symm⟩
  next hnot => exact ⟨fun _ hrepeats => absurd hrepeats hnot, fun _ => rfl⟩

theorem told_eq_rendered_iff (opened : List NodeId) (r : NodeId) :
    (storyOf g requests pool opened).told r (segmentsOf g r).length =
        String.join ((segmentsOf g r).map (TemplateSegment.rendered (textIn pool))) ↔
      ShownOnce g requests pool opened r := by
  unfold Story.told
  rw [map_eq_map_range (segmentsOf g r) "" (TemplateSegment.rendered (textIn pool)),
    show (storyOf g requests pool opened).graph = g from rfl, join_map_eq_iff]
  · constructor
    · intro hall index selector hsegment
      have hindex : index ∈ List.range (segmentsOf g r).length :=
        List.mem_range.mpr (List.getElem?_eq_some_iff.mp hsegment).1
      have hshown := hall index hindex
      rw [hsegment] at hshown
      exact (shown_eq_rendered_iff opened r index selector).mp hshown
    · intro honce index _
      cases hsegment : (segmentsOf g r)[index]? with
      | none => rfl
      | some segment =>
        cases segment with
        | text text => rfl
        | «variable» selector =>
          exact (shown_eq_rendered_iff opened r index selector).mpr
            (honce index selector hsegment)
  · intro index _
    cases (segmentsOf g r)[index]? with
    | none => exact .inl rfl
    | some segment => exact shown_eq_rendered_or _ r index segment

/-- An answer whose literal text names no stored variable, in a run whose last flush nothing holds
back, is streamed as it is rendered exactly when no text of a streamed variable is shown twice. -/
theorem streamed_eq_answer_iff {n : Node} {template : String}
    (h : Answered g o requests n template pool)
    (hliteral : ∀ text, .text text ∈ split template → renderText pool text = String.ofList text)
    (hunblocked : Unblocked g requests (serveAll g { setOrder := o } requests).1.activations) :
    (streamedText (serveAll g { setOrder := o } requests).2.sent n.id =
        convertTemplate pool template ↔
      ShownOnce g requests pool (serveAll g { setOrder := o } requests).1.activations n.id) ∧
    ∀ d : RuntimeData,
      ((d.updateResponseOutputs (AnswerNode.run pool template)).outputs["answer"]?).map
          Segment.markdown =
        some (((d.outputs["answer"]?).map Segment.markdown).getD "" ++
          convertTemplate pool template) := by
  have hsegments := segmentsOf_answer h.node h.content
  constructor
  · have hprovided : ∀ selector, .variable selector ∈ segmentsOf g n.id →
        Provided g requests pool selector := by
      rw [hsegments]
      exact h.provided
    have hrendered : ∀ selector,
        .variable selector ∈ (Template.fromAnswerTemplate template).segments →
        (pool.get selector).map Segment.markdown = some (textIn pool selector) := by
      intro selector hin
      obtain ⟨value, hvalue⟩ := Option.isSome_iff_exists.mp (h.provided selector hin).stored
      unfold textIn
      rw [hvalue]
      rfl
    obtain ⟨earlier, call, hrequests, hcall⟩ := h.last
    have hfollowed := followed_serveAll (o := o) h.ends hprovided requests []
      (List.append_nil _).symm
    have hbefore := followed_serveAll (o := o) h.ends hprovided earlier [.call call] hrequests
    have hopen : (serveAll g { setOrder := o } requests).1.openSessions = [] := by
      rw [hrequests] at hunblocked ⊢
      exact ended_serveAll hbefore.order hbefore.sessions hcall hunblocked
    have hended := hfollowed.order.activations_eq
    rw [hopen, List.map_nil, List.append_nil] at hended
    rw [convertTemplate_eq hliteral hrendered, ← hsegments, ← told_eq_rendered_iff,
      hfollowed.told.after (hended ▸ h.opened)]
    rfl
  · intro d
    exact d.answer_updateResponseOutputs (convertTemplate pool template)

/-! ### A variable that is shown twice -/

/-- An answer with the given template. -/
def reply (template : String) : Node :=
  { id := "reply", nodeType := "answer", executionType := .response, content := .answer template }

/-- A model node between the start and the answer. -/
def greetingNodes (template : String) : List Node :=
  [{ id := "start", nodeType := "start", executionType := .root },
    { id := "llm", nodeType := "llm" }, reply template]

/-- The greeting behind a literal text. -/
def greetOnce : String := "Bot: \x7b\x7b#llm.text#\x7d\x7d"

/-- The greeting, twice. -/
def greetTwice : String := "\x7b\x7b#llm.text#\x7d\x7d\x7b\x7b#llm.text#\x7d\x7d"

/-- The answer greets once. -/
def greetingOnce : Graph where
  nodes := greetingNodes greetOnce
  edges := [{ id := "e0", tail := "start", head := "llm" },
    { id := "e1", tail := "llm", head := "reply" }]
  root := "start"

/-- The answer greets twice. -/
def greetingTwice : Graph where
  nodes := greetingNodes greetTwice
  edges := [{ id := "e0", tail := "start", head := "llm" },
    { id := "e1", tail := "llm", head := "reply" }]
  root := "start"

/-- The greeting is stored. -/
def greetingPool : VariablePool := VariablePool.empty.add "llm" "text" (.ofString "Hi")

/-- A chunk of the greeting. -/
def greetingChunk (chunk : String) (isFinal : Bool) : Call :=
  ⟨fun _ => .taken, .empty, .streamChunk
    { id := .generated "llm", nodeId := "llm", nodeType := "llm", selector := ["llm", "text"],
      chunk, isFinal }⟩

/-- The model streams a greeting, and then the answer node runs. -/
def greetingRun : List Request :=
  [.register "reply", .call ⟨fun _ => .taken, .empty, .edgeTaken "e0"⟩,
    .call (greetingChunk "Hi" false), .call (greetingChunk "" true),
    .call ⟨fun _ => .taken, greetingPool, .nodeSucceeded⟩,
    .call ⟨fun _ => .taken, greetingPool, .edgeTaken "e1"⟩] ++
  [.call ⟨fun _ => .taken, greetingPool, .nodeSucceeded⟩]

private theorem streams_greeting : Streams greetingRun ["llm", "text"] where
  closing :=
    ⟨[⟨.generated "llm", "llm", "llm", ["llm", "text"], "Hi", false⟩],
      ⟨.generated "llm", "llm", "llm", ["llm", "text"], "", true⟩, by decide, rfl, by simp⟩
  stored := by
    intro index call hcall hstored
    have hempty : call.variablePool = .empty → False := by
      intro hpool
      rw [hpool, VariablePool.get_empty] at hstored
      cases hstored
    -- the value is stored at the fourth request, behind the closing chunk
    rcases index with _ | _ | _ | _ | index
    · cases hcall
    · cases hcall
      exact (hempty rfl).elim
    · cases hcall
      exact (hempty rfl).elim
    · cases hcall
      exact (hempty rfl).elim
    · exact ⟨⟨.generated "llm", "llm", "llm", ["llm", "text"], "", true⟩,
        by simp [greetingRun, greetingChunk, produced], rfl⟩

private theorem provided_greeting (g : Graph) :
    Provided g greetingRun greetingPool ["llm", "text"] where
  taken := by
    intro request hrequest
    have hstate : ∀ id, (request.view g).nodeState id ≠ .skipped := by
      intro id
      cases request with
      | register nodeId => simp [Request.view]
      | call call =>
        have htaken : call.nodeState = fun _ => .taken := by
          simp only [greetingRun, greetingChunk, List.cons_append, List.nil_append,
            List.mem_cons, Request.call.injEq, reduceCtorEq, false_or, List.not_mem_nil,
            or_false] at hrequest
          rcases hrequest with rfl | rfl | rfl | rfl | rfl | rfl <;> rfl
        simp [Request.view, htaken]
    simp [View.sourceSkipped, hstate]
  stored := by decide
  output := .inl ⟨streams_greeting, by decide⟩

private theorem answered_greeting {template : String} (hn : reply template ∈ g.nodes)
    (hopened : "reply" ∈ (serveAll g {} greetingRun).1.activations)
    (hvariables : ∀ selector, .variable selector ∈
      (Template.fromAnswerTemplate template).segments → selector = ["llm", "text"]) :
    Answered g .ascending greetingRun (reply template) template greetingPool where
  node := hn
  content := rfl
  opened := hopened
  ends := by
    intro request hrequest
    simp only [greetingRun, greetingChunk, List.cons_append, List.nil_append, List.mem_cons,
      List.not_mem_nil, or_false] at hrequest
    rcases hrequest with rfl | rfl | rfl | rfl | rfl | rfl | rfl <;> simp [Request.ends]
  last := ⟨_, _, rfl, rfl⟩
  provided := by
    intro selector hin
    rw [hvariables selector hin]
    exact provided_greeting g

/-- The greeting is streamed as it is rendered. -/
theorem streamed_eq_answer_greeting :
    streamedText (serveAll greetingOnce {} greetingRun).2.sent "reply" =
      convertTemplate greetingPool greetOnce := by
  have hsegments : (Template.fromAnswerTemplate greetOnce).segments =
      [.text "Bot: ", .variable ["llm", "text"]] := by decide +kernel
  have hsplit : split greetOnce =
      [.text "Bot: ".toList, .key ["llm".toList, "text".toList]] := by decide +kernel
  have hn : reply greetOnce ∈ greetingOnce.nodes := by simp [greetingOnce, greetingNodes]
  have hanswered : Answered greetingOnce .ascending greetingRun (reply greetOnce) greetOnce
      greetingPool := by
    refine answered_greeting hn (by decide +kernel) fun selector hin => ?_
    simpa [hsegments] using hin
  have hactivations : (serveAll greetingOnce {} greetingRun).1.activations = ["reply"] := by
    decide +kernel
  have hreply : segmentsOf greetingOnce "reply" =
      [.text "Bot: ", .variable ["llm", "text"]] :=
    (segmentsOf_answer (n := reply greetOnce) hn rfl).trans hsegments
  refine (streamed_eq_answer_iff hanswered ?_ ?_).1.mpr ?_
  · intro text hin
    rw [hsplit] at hin
    simp only [List.mem_cons, Part.text.injEq, reduceCtorEq, List.not_mem_nil, or_false] at hin
    rw [hin]
    decide +kernel
  · intro call hcall r hr selector hin
    cases hcall
    have hr : r = "reply" := List.mem_singleton.mp (hactivations ▸ hr)
    rw [hr, hreply] at hin
    have hselector : selector = ["llm", "text"] := by simpa using hin
    rw [hselector]
    exact .inr (.inr (by decide))
  · intro index selector hsegment _ hbefore
    rw [show (reply greetOnce).id = "reply" from rfl] at hsegment hbefore
    rw [hactivations] at hbefore
    unfold ShownBefore at hbefore
    rw [hreply] at hsegment hbefore
    rcases index with _ | _ | index
    · cases hsegment
    · simp at hbefore
    · simp at hsegment

/-- A stream that is shown twice is sent once. -/
theorem streamed_once_answered_twice : ¬ ∀ (g : Graph) (o : SetOrder NodeId)
    (requests : List Request) (n : Node) (template : String) (pool : VariablePool),
    Answered g o requests n template pool →
    streamedText (serveAll g { setOrder := o } requests).2.sent n.id =
      convertTemplate pool template := by
  intro hclaim
  have hsegments : (Template.fromAnswerTemplate greetTwice).segments =
      [.variable ["llm", "text"], .variable ["llm", "text"]] := by decide +kernel
  have hanswered : Answered greetingTwice .ascending greetingRun (reply greetTwice) greetTwice
      greetingPool := by
    refine answered_greeting ?_ (by decide +kernel) fun selector hin => ?_
    · simp [greetingTwice, greetingNodes]
    · simpa [hsegments] using hin
  have hsent : streamedText (serveAll greetingTwice {} greetingRun).2.sent "reply" = "Hi" := by
    decide +kernel
  have hanswer : convertTemplate greetingPool greetTwice = "HiHi" := by decide +kernel
  have heq := hclaim _ _ _ _ _ _ hanswered
  rw [hanswer] at heq
  exact absurd (hsent.symm.trans heq) (by decide)

end Coordinator
end PlatformSpec.Response
