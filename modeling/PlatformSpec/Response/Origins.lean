import PlatformSpec.Response.Ordering

/-!
# Where the events of the stream come from

The chunks a node streams are sent on once and in order. Every other event the coordinator makes
itself: for a text segment, or for a variable it reads from the pool.
-/

namespace PlatformSpec.Response

open Base PlatformSpec.Runtime Workflow

namespace Coordinator

variable {g : Graph} {c c' : Coordinator}

/-! ### What has been read -/

/-- The chunks of a stream that have been read. -/
def read (c : Coordinator) (selector : Selector) : List StreamChunk :=
  (c.streamBuffers.getD selector []).take (c.streamPositions.getD selector 0)

theorem read_append_unread (c : Coordinator) (selector : Selector) :
    c.read selector ++ c.unread selector = c.streamBuffers.getD selector [] :=
  List.take_append_drop ..

theorem read_readAll (c : Coordinator) (selector other : Selector) :
    (c.readAll selector).read other =
      if other = selector then c.read other ++ c.unread other else c.read other := by
  unfold readAll
  split
  next h =>
    split
    next he => rw [he, List.isEmpty_iff.mp h, List.append_nil]
    next => rfl
  next =>
    unfold read
    simp only [Std.ExtTreeMap.getD_insert]
    by_cases he : other = selector
    · subst he
      simp only [Std.LawfulEqOrd.compare_eq_iff_eq, if_true, List.take_length]
      exact (read_append_unread c other).symm
    · rw [if_neg (by simpa using fun h => he h.symm), if_neg he]

theorem SameStreams.read {c c' : Coordinator} (h : SameStreams c c')
    (selector : Selector) : c'.read selector = c.read selector := by
  unfold Coordinator.read
  rw [h.buffers, h.positions]

/-- The origin of an event: a chunk that a node streamed, or a segment of the session's
template. -/
inductive Origin where
  | stream
  | segment (index : Nat)
  deriving DecidableEq

/-- The texts of the streamed chunks among some events, for one selector. -/
def streamed (events : List (Emission × Origin)) (selector : Selector) : List String :=
  (events.filter fun p => decide (p.2 = .stream) && decide (p.1.event.selector = selector)).map
    fun p => p.1.event.chunk

/-- The event a session made for a segment: the text, or a value that was seen. -/
def MadeFor (seen : Selector → String → Prop) (s : ResponseSession) (index : Nat)
    (event : StreamChunk) : Prop :=
  (∃ text, s.template.segments[index]? = some (.text text) ∧
    event.selector = [s.nodeId, "answer"] ∧ event.chunk = text) ∨
  ∃ selector, s.template.segments[index]? = some (.variable selector) ∧
    event.selector = selector ∧ seen selector event.chunk

/-- The events sent, each with its origin: the streamed chunks are those that have been read,
in order; each other event is made for a segment, later ones for later segments. -/
structure Explained (g : Graph) (seen : Selector → String → Prop) (c : Coordinator)
    (sent : List Emission) (events : List (Emission × Origin)) : Prop where
  sent : events.map Prod.fst = sent
  chunks : ∀ selector, streamed events selector = (c.read selector).map StreamChunk.chunk
  made : ∀ p ∈ events, ∀ index, p.2 = .segment index →
    ∃ s, SessionOf g s ∧ s.nodeId = p.1.session ∧ MadeFor seen s index p.1.event
  once : events.Pairwise fun p q => p.1.session = q.1.session → ∀ i j,
    p.2 = .segment i → q.2 = .segment j → i < j
  ahead : ∀ s, c.activeSession = some s → ∀ p ∈ events, p.1.session = s.nodeId → ∀ index,
    p.2 = .segment index → index < s.index

/-- The buffers hold the accepted chunks, and no read position is beyond them. -/
structure Buffered (c : Coordinator) (accepted : List StreamChunk) : Prop where
  buffers : ∀ selector, c.streamBuffers.getD selector [] =
    accepted.filter (·.selector = selector)
  positions : ∀ selector,
    c.streamPositions.getD selector 0 ≤ (c.streamBuffers.getD selector []).length

variable {accepted : List StreamChunk}

theorem Buffered.readAll (h : Buffered c accepted)
    (selector : Selector) : Buffered (c.readAll selector) accepted := by
  unfold Coordinator.readAll
  split
  next => exact h
  next =>
    refine ⟨h.buffers, fun other => ?_⟩
    simp only [Std.ExtTreeMap.getD_insert]
    split
    next he =>
      rw [Std.LawfulEqOrd.compare_eq_iff_eq] at he
      rw [he]
    next => exact h.positions other

theorem Buffered.congr (h : Buffered c accepted) (hbuffers : c'.streamBuffers = c.streamBuffers)
    (hpositions : c'.streamPositions = c.streamPositions) : Buffered c' accepted :=
  ⟨fun sel => by rw [hbuffers]; exact h.buffers sel,
    fun sel => by rw [hbuffers, hpositions]; exact h.positions sel⟩

variable {event : StreamChunk}

private theorem appendStreamChunk_streams
    (h : c.appendStreamChunk event = .ok c') (selector : Selector) :
    c'.streamBuffers.getD selector [] = c.streamBuffers.getD selector [] ++
        (if event.selector = selector then [event] else []) ∧
      (c'.streamPositions.getD selector 0 = c.streamPositions.getD selector 0 ∨
        c.streamBuffers.getD selector [] = [] ∧ c'.streamPositions.getD selector 0 = 0) := by
  obtain ⟨-, rfl⟩ := appendStreamChunk_eq_ok h
  by_cases hsel : event.selector = selector
  · subst hsel
    refine ⟨by simp, ?_⟩
    by_cases hin : event.selector ∈ c.streamBuffers
    · exact .inl (by simp only [hin, if_true])
    · refine .inr ⟨Std.ExtTreeMap.getD_eq_fallback hin, ?_⟩
      simp only [hin, if_false, Std.ExtTreeMap.getD_insert_self]
  · constructor
    · simp [Std.ExtTreeMap.getD_insert, hsel]
    · by_cases hin : event.selector ∈ c.streamBuffers
      · exact .inl (by simp only [hin, if_true])
      · exact .inl (by simp [hin, Std.ExtTreeMap.getD_insert, hsel])

theorem Buffered.append (h : Buffered c accepted) (hc : c.appendStreamChunk event = .ok c') :
    Buffered c' (accepted ++ [event]) := by
  constructor
  · intro selector
    rw [(appendStreamChunk_streams hc selector).1, h.buffers, List.filter_append]
    by_cases hsel : event.selector = selector
    · simp [hsel]
    · simp [hsel]
  · intro selector
    obtain ⟨hbuffers, hposition⟩ := appendStreamChunk_streams hc selector
    have hold := h.positions selector
    rw [hbuffers, List.length_append]
    omega

theorem Buffered.move {v : View} {q : Prop} {before t : Trace} (h : Buffered c before.accepted)
    (hmove : Move g v q c t c') : Buffered c' (before.append t).accepted := by
  unfold Trace.append
  rcases hmove.streams with ⟨s, segment, hsame, hnone⟩ | ⟨d, event, hc, hone, rfl⟩ |
    ⟨hbuffers, hpositions, -, hnone⟩
  · rw [hnone, List.append_nil]
    suffices hp : Buffered (c.processSegment v s segment).1 before.accepted from
      hp.congr hsame.buffers hsame.positions
    cases segment with
    | text text =>
      rw [processSegment_text]
      have hs := sameStreams_getOrCreateExecutionId c s.nodeId
      exact h.congr hs.buffers hs.positions
    | «variable» selector =>
      cases hskip : v.sourceSkipped selector with
      | true =>
        rw [processSegment_skipped v hskip]
        exact h
      | false =>
        rw [processSegment_variable v hskip]
        have hs := sameStreams_getOrCreateExecutionId c (outputNode v s selector)
        exact (h.congr hs.buffers hs.positions).readAll selector
  · rw [hone]
    split
    next => exact (h.append hc).congr rfl rfl
    next => exact h.append hc
  · rw [hnone, List.append_nil]
    exact h.congr hbuffers hpositions

theorem Buffered.read_accept (h : Buffered c accepted)
    {d : Coordinator} (hc : c.appendStreamChunk event = .ok d)
    (selector : Selector) : d.read selector = c.read selector := by
  obtain ⟨hbuffers, hposition⟩ := appendStreamChunk_streams hc selector
  unfold read
  rw [hbuffers]
  rcases hposition with heq | ⟨hnil, hzero⟩
  · rw [heq, List.take_append_of_le_length (h.positions selector)]
  · rw [hzero, hnil]
    simp only [List.take_zero, List.take_nil]

/-! ### Each move explains what it sends -/

section

variable {seen : Selector → String → Prop} {sent : List Emission}
  {events : List (Emission × Origin)}

theorem Explained.fresh (g : Graph) (seen : Selector → String → Prop) (o : SetOrder NodeId) :
    Explained g seen { setOrder := o } [] [] where
  sent := rfl
  chunks := fun selector => by simp [streamed, read]
  made := by simp
  once := .nil
  ahead := by simp

theorem streamed_append (events events' : List (Emission × Origin))
    (selector : Selector) :
    streamed (events ++ events') selector =
      streamed events selector ++ streamed events' selector := by
  simp only [streamed, List.filter_append, List.map_append]

theorem Explained.still (h : Explained g seen c sent events)
    (hread : ∀ selector, c'.read selector = c.read selector)
    (hahead : ∀ s, c'.activeSession = some s → c.activeSession = some s ∨
      ∀ e ∈ sent, e.session ≠ s.nodeId) : Explained g seen c' sent events where
  sent := h.sent
  chunks := fun selector => by
    rw [hread]
    exact h.chunks selector
  made := h.made
  once := h.once
  ahead := by
    intro s hs p hp hid index hindex
    rcases hahead s hs with hold | hnone
    · exact h.ahead s hold p hp hid index hindex
    · have hmem : p.1 ∈ sent := by
        rw [← h.sent]
        exact List.mem_map_of_mem hp
      exact absurd hid (hnone p.1 hmem)

/-- The events of one segment, each with its origin. -/
private structure Round (v : View) (seen : Selector → String → Prop) (c : Coordinator)
    (s : ResponseSession) (segment : TemplateSegment) (new : List (Emission × Origin)) : Prop where
  sent : new.map Prod.fst = (c.processSegment v s segment).2.map (Emission.mk s.nodeId)
  chunks : ∀ selector, ∃ chunks, (c.processSegment v s segment).1.read selector =
    c.read selector ++ chunks ∧ streamed new selector = chunks.map StreamChunk.chunk
  made : ∀ p ∈ new, ∀ index, p.2 = .segment index → index = s.index ∧
    MadeFor seen s index p.1.event ∧ c.passes v segment = true
  once : new.Pairwise fun p q => ∀ i j, p.2 = .segment i → q.2 = .segment j → i < j

variable {s : ResponseSession} {v : View}

private theorem round_text {text : String}
    (hsegment : s.template.segments[s.index]? = some (.text text)) :
    ∃ new, Round v seen c s (.text text) new := by
  refine ⟨(c.processSegment v s (.text text)).2.map fun event =>
    (⟨s.nodeId, event⟩, .segment s.index), ?_, ?_, ?_, ?_⟩
  · simp only [List.map_map]
    rfl
  · intro selector
    refine ⟨[], ?_, ?_⟩
    · rw [processSegment_text, List.append_nil]
      exact (sameStreams_getOrCreateExecutionId c s.nodeId).read selector
    · simp [streamed]
  · intro p hp index hindex
    rw [processSegment_text] at hp
    simp only [List.map_cons, List.map_nil, List.mem_singleton] at hp
    subst hp
    cases hindex
    exact ⟨rfl, .inl ⟨text, hsegment, rfl, rfl⟩, rfl⟩
  · rw [processSegment_text]
    exact List.pairwise_singleton _ _

private theorem scalarEvents_cases (v : View) (c : Coordinator) (s : ResponseSession)
    (selector : Selector) : scalarEvents v c s selector = [] ∨
      ∃ value event, v.variablePool.get selector = some value ∧
        scalarEvents v c s selector = [event] ∧ event.selector = selector ∧
        event.chunk = value.markdown := by
  unfold scalarEvents
  split
  next => exact .inl rfl
  next =>
    cases v.variablePool.get selector with
    | none => exact .inl rfl
    | some value => exact .inr ⟨value, _, rfl, rfl, rfl, rfl⟩

theorem Buffered.selector {accepted : List StreamChunk} (h : Buffered c accepted)
    {selector : Selector} {event : StreamChunk} (hevent : event ∈ c.unread selector) :
    event.selector = selector := by
  have hmem := List.mem_of_mem_drop hevent
  rw [h.buffers] at hmem
  exact of_decide_eq_true (List.mem_filter.mp hmem).2

private theorem forward_selector (v : View) (c : Coordinator) (s : ResponseSession)
    (selector : Selector) (event : StreamChunk) :
    (forward v c s selector event).selector = event.selector ∧
      (forward v c s selector event).chunk = event.chunk := by
  unfold forward
  split
  next => exact ⟨rfl, rfl⟩
  next => exact ⟨rfl, rfl⟩

private theorem streamed_forward {selector : Selector}
    (chunks : List StreamChunk) (h : ∀ event ∈ chunks, event.selector = selector)
    (other : Selector) :
    streamed (chunks.map fun event => (⟨s.nodeId, forward v c s selector event⟩, .stream)) other =
      (if other = selector then chunks else []).map StreamChunk.chunk := by
  induction chunks with
  | nil => simp [streamed]
  | cons event chunks ih =>
    obtain ⟨hevent, hrest⟩ := List.forall_mem_cons.mp h
    obtain ⟨hsel, hchunk⟩ := forward_selector v c s selector event
    have hrec := ih hrest
    rw [List.map_cons, ← List.singleton_append, streamed_append, hrec]
    by_cases hother : other = selector
    · simp [streamed, hsel, hevent, hother, hchunk]
    · simp [streamed, hsel, hevent, hother, Ne.symm hother]

private theorem round_variable {selector : Selector}
    {accepted : List StreamChunk} (hbuffered : Buffered c accepted)
    (hseen : ∀ selector value, v.variablePool.get selector = some value →
      seen selector value.markdown)
    (hsegment : s.template.segments[s.index]? = some (.variable selector)) :
    ∃ new, Round v seen c s (.variable selector) new := by
  cases hskip : v.sourceSkipped selector with
  | true =>
    refine ⟨[], ?_, ?_, by simp, .nil⟩
    · rw [processSegment_skipped v hskip]
      rfl
    · intro other
      rw [processSegment_skipped v hskip]
      exact ⟨[], by simp [streamed]⟩
  | false =>
    refine ⟨((c.unread selector).map fun event =>
        (⟨s.nodeId, forward v c s selector event⟩, .stream)) ++
      (scalarEvents v c s selector).map fun event => (⟨s.nodeId, event⟩, .segment s.index),
      ?_, ?_, ?_, ?_⟩
    · rw [processSegment_variable v hskip]
      simp only [List.map_append, List.map_map]
      rfl
    · intro other
      refine ⟨if other = selector then c.unread selector else [], ?_, ?_⟩
      · have hs := sameStreams_getOrCreateExecutionId c (outputNode v s selector)
        rw [processSegment_variable v hskip, read_readAll, hs.read, hs.unread]
        split
        next heq => rw [heq]
        next => rw [List.append_nil]
      · rw [streamed_append, streamed_forward _ fun event => hbuffered.selector]
        simp [streamed]
    · intro p hp index hindex
      rcases List.mem_append.mp hp with hp | hp
      · obtain ⟨event, -, rfl⟩ := List.mem_map.mp hp
        cases hindex
      · rcases scalarEvents_cases v c s selector with
          hnone | ⟨value, event, hvalue, hone, hsel, hchunk⟩
        · rw [hnone] at hp
          cases hp
        · rw [hone, List.map_singleton, List.mem_singleton] at hp
          subst hp
          cases hindex
          refine ⟨rfl, .inr ⟨selector, hsegment, hsel, ?_⟩, ?_⟩
          · show seen selector event.chunk
            rw [hchunk]
            exact hseen selector value hvalue
          · simp [passes, hvalue]
    · refine List.pairwise_append.mpr ⟨?_, ?_, ?_⟩
      · refine List.pairwise_map.mpr (List.pairwise_of_forall fun _ _ i j hi => ?_)
        cases hi
      · rcases scalarEvents_cases v c s selector with hnone | ⟨value, event, -, hone, -, -⟩
        · rw [hnone]
          exact .nil
        · rw [hone]
          exact List.pairwise_singleton _ _
      · intro p hp q _ i j hi
        obtain ⟨event, -, rfl⟩ := List.mem_map.mp hp
        cases hi

private theorem Explained.round {segment : TemplateSegment}
    {new : List (Emission × Origin)} (h : Explained g seen c sent events)
    (hactive : c.activeSession = some s) (hs : SessionOf g s)
    (hnew : Round v seen c s segment new) :
    Explained g seen ((c.processSegment v s segment).1.withSessions
        (some (if c.passes v segment then s.advance else s)) c.waitingSessions)
      (sent ++ (c.processSegment v s segment).2.map (Emission.mk s.nodeId))
      (events ++ new) := by
  have hsession : ∀ p ∈ new, p.1.session = s.nodeId := by
    intro p hp
    have hmem : p.1 ∈ new.map Prod.fst := List.mem_map_of_mem hp
    rw [hnew.sent] at hmem
    obtain ⟨event, -, heq⟩ := List.mem_map.mp hmem
    rw [← heq]
  refine ⟨?_, ?_, ?_, ?_, ?_⟩
  · rw [List.map_append, h.sent, hnew.sent]
  · intro selector
    obtain ⟨chunks, hread, hstreamed⟩ := hnew.chunks selector
    rw [streamed_append, h.chunks, hstreamed, ← List.map_append, ← hread]
    rfl
  · intro p hp index hindex
    rcases List.mem_append.mp hp with hp | hp
    · exact h.made p hp index hindex
    · exact ⟨s, hs, (hsession p hp).symm, (hnew.made p hp index hindex).2.1⟩
  · refine List.pairwise_append.mpr ⟨h.once, ?_, ?_⟩
    · refine hnew.once.imp ?_
      intro p q hpq _
      exact hpq
    · intro p hp q hq hid i j hi hj
      rw [(hnew.made q hq j hj).1]
      exact h.ahead s hactive p hp (hid.trans (hsession q hq)) i hi
  · intro s' hs' p hp hid index hindex
    simp only [withSessions, Option.some.injEq] at hs'
    subst hs'
    have hidle : (if c.passes v segment then s.advance else s).nodeId = s.nodeId := by
      split <;> rfl
    rw [hidle] at hid
    have hle : s.index ≤ (if c.passes v segment then s.advance else s).index := by
      split
      next => exact Nat.le_succ _
      next => exact Nat.le_refl _
    rcases List.mem_append.mp hp with hp | hp
    · exact Nat.lt_of_lt_of_le (h.ahead s hactive p hp hid index hindex) hle
    · obtain ⟨hi, -, hpass⟩ := hnew.made p hp index hindex
      rw [if_pos hpass, hi]
      exact Nat.lt_succ_self _

theorem Explained.move {q : Prop} {before t : Trace}
    (h : Explained g seen c before.sent events) (hmove : Move g v q c t c')
    (horder : InOrder c before.sent) (hbuffered : Buffered c before.accepted)
    (hsessions : ∀ s, c.Has s → SessionOf g s)
    (hseen : ∀ selector value, v.variablePool.get selector = some value →
      seen selector value.markdown) :
    ∃ events', Explained g seen c' (before.append t).sent events' := by
  obtain ⟨finished, hqueue, hgrouped⟩ := horder.queue
  unfold Trace.append
  cases hmove with
  | @process s segment hactive hsegment =>
    have hs : SessionOf g s := hsessions s (.inl (by simp [openSessions, hactive]))
    have hround : ∃ new, Round v seen c s segment new := by
      cases segment with
      | text text => exact round_text hsegment
      | «variable» selector => exact round_variable hbuffered hseen hsegment
    obtain ⟨new, hnew⟩ := hround
    exact ⟨events ++ new, h.round hactive hs hnew⟩
  | finish =>
    simp only [Trace.none, List.append_nil]
    refine ⟨events, h.still (fun _ => rfl) fun s hs => ?_⟩
    cases hs
  | @next s rest hactive hwaiting =>
    simp only [Trace.none, List.append_nil]
    refine ⟨events, h.still (fun _ => rfl) fun s' hs' => .inr fun e he hid => ?_⟩
    cases hs'
    -- the session that is next stands behind those that have sent events
    have hfinished : e.session ∈ finished := by
      rw [hactive] at hgrouped
      simp only [Option.toList_none, List.map_nil, List.append_nil] at hgrouped
      exact hgrouped.subset _ (List.mem_map_of_mem he)
    have hnd := horder.nodup
    rw [hqueue] at hnd
    refine (List.nodup_append.mp hnd).2.2 _ hfinished _ ?_ hid
    simp [openSessions, hwaiting]
  | @openFirst r s hpending hactive hwaiting =>
    simp only [Trace.none, List.append_nil]
    refine ⟨events, h.still (fun _ => rfl) fun s' hs' => .inr fun e he hid => ?_⟩
    cases hs'
    obtain ⟨hr, -, hnot⟩ := horder.pending r s hpending
    have hin : e.session ∈ c.activations := by
      rw [hactive] at hgrouped
      simp only [Option.toList_none, List.map_nil, List.append_nil] at hgrouped
      rw [hqueue]
      exact List.mem_append_left _ (hgrouped.subset _ (List.mem_map_of_mem he))
    rw [hid, hr] at hin
    exact hnot hin
  | openLater hpending hactive =>
    simp only [Trace.none, List.append_nil]
    refine ⟨events, h.still (fun _ => rfl) fun s' hs' => .inl ?_⟩
    cases hs'
    exact hactive
  | register hn hc =>
    simp only [Trace.none, List.append_nil]
    rcases register_cases hc with ⟨rfl, -⟩ | ⟨paths, session, -, -, -, rfl⟩
    · exact ⟨events, h⟩
    · exact ⟨events, h.still (fun _ => rfl) fun s hs => .inl hs⟩
  | @accept d event hc =>
    rw [List.append_nil]
    have hread := hbuffered.read_accept hc
    obtain ⟨-, hd⟩ := appendStreamChunk_eq_ok hc
    refine ⟨events, h.still (fun selector => ?_) fun s hs => .inl ?_⟩
    · split
      next => exact hread selector
      next => exact hread selector
    · subst hd
      split at hs
      next => exact hs
      next => exact hs
  | frame paths ids =>
    simp only [Trace.none, List.append_nil]
    exact ⟨events, h.still (fun _ => rfl) fun s hs => .inl hs⟩

end

/-! ### What the nodes produced -/

/-- The chunks of a stream that the nodes produced: those the requests offer. -/
def produced (requests : List Request) (selector : Selector) : List StreamChunk :=
  requests.filterMap fun
    | .call ⟨_, _, .streamChunk event⟩ => if event.selector = selector then some event else none
    | _ => none

/-- A text the pool showed for a variable at some request. -/
def Seen (requests : List Request) (selector : Selector) (text : String) : Prop :=
  ∃ call, .call call ∈ requests ∧
    ∃ value, call.variablePool.get selector = some value ∧ value.markdown = text

theorem closed_move {v : View} {q : Prop} {t : Trace} {selector : Selector}
    (h : selector ∈ c.closedStreams) (hmove : Move g v q c t c') :
    selector ∈ c'.closedStreams ∧ t.accepted.filter (·.selector = selector) = [] := by
  rcases hmove.streams with ⟨s, segment, hsame, hnone⟩ | ⟨d, event, hc, hone, rfl⟩ |
    ⟨-, -, hclosed, hnone⟩
  · refine ⟨?_, by rw [hnone]; rfl⟩
    rw [hsame.closed, (advanced_processSegment v c s segment).closed]
    exact h
  · obtain ⟨hopen, rfl⟩ := appendStreamChunk_eq_ok hc
    have hne : event.selector ≠ selector := fun heq => hopen (heq ▸ h)
    refine ⟨?_, by simp [hone, hne]⟩
    split
    next => exact Std.ExtTreeSet.mem_insert.mpr (.inr h)
    next => exact h
  · refine ⟨?_, by rw [hnone]; rfl⟩
    rw [hclosed]
    exact h

theorem closed_serve {selector : Selector} (hreach : Reachable g c)
    (h : selector ∈ c.closedStreams) (request : Request) :
    selector ∈ (serve g c request).1.closedStreams ∧
      (serve g c request).2.accepted.filter (·.selector = selector) = [] := by
  have hall := (moves_serve hreach request).preserves
    (P := fun c t => selector ∈ c.closedStreams ∧ t.accepted.filter (·.selector = selector) = [])
    (fun c before t c' hc hmove => by
      obtain ⟨hclosed, hnone⟩ := closed_move hc.1 hmove
      refine ⟨hclosed, ?_⟩
      rw [Trace.append, List.filter_append, hc.2, hnone]
      rfl)
    (b := .none) ⟨h, rfl⟩
  rw [Trace.none_append] at hall
  exact hall

private theorem closed_serveAll {selector : Selector} (hreach : Reachable g c)
    (h : selector ∈ c.closedStreams) (requests : List Request) :
    (serveAll g c requests).2.accepted.filter (·.selector = selector) = [] := by
  induction requests generalizing c with
  | nil => rfl
  | cons request requests ih =>
    obtain ⟨hclosed, hnone⟩ := closed_serve hreach h request
    have hrest := ih (reachable_serve hreach request) hclosed
    show ((serve g c request).2.accepted ++ _).filter _ = []
    rw [List.filter_append, hnone, List.nil_append]
    exact hrest

private theorem serve_accepted (g : Graph) (c : Coordinator) (request : Request)
    (selector : Selector) :
    (serve g c request).2.accepted.filter (·.selector = selector) =
        produced [request] selector ∨
      selector ∈ c.closedStreams ∧
        (serve g c request).2.accepted.filter (·.selector = selector) = [] := by
  cases request with
  | register nodeId =>
    rcases serve_register (g := g) (c := c) nodeId with ⟨n, hn, c', hc, heq⟩ | heq
    · rw [heq]
      exact .inl rfl
    · rw [heq]
      exact .inl rfl
  | call call =>
    obtain ⟨nodeState, pool, kind⟩ := call
    cases kind with
    | edgeTaken edgeId => exact .inl rfl
    | nodeSucceeded => exact .inl rfl
    | endSession nodeId => exact .inl rfl
    | nodeStarted nodeId executionId => exact .inl rfl
    | streamChunk event =>
      by_cases hsel : event.selector = selector
      · subst hsel
        by_cases hclosed : event.selector ∈ c.closedStreams
        · right
          refine ⟨hclosed, ?_⟩
          simp [serve, respond, callTrace, interceptChunk, appendStreamChunk, hclosed, Trace.none,
            Bind.bind, Except.bind]
        · left
          simp [serve, respond, callTrace, interceptChunk, appendStreamChunk, hclosed, produced,
            Bind.bind, Except.bind, Pure.pure, Except.pure]
      · left
        have hproduced : produced [.call ⟨nodeState, pool, .streamChunk event⟩] selector = [] := by
          simp [produced, hsel]
        rw [hproduced]
        show (callTrace _ _).accepted.filter _ = []
        unfold callTrace
        split
        next => rfl
        next => simp [hsel]

theorem accepted_initial (hreach : Reachable g c) (requests : List Request)
    (selector : Selector) :
    (serveAll g c requests).2.accepted.filter (·.selector = selector) <+:
      produced requests selector := by
  induction requests generalizing c with
  | nil => exact List.prefix_rfl
  | cons request requests ih =>
    have hcons : produced (request :: requests) selector =
        produced [request] selector ++ produced requests selector := by
      rw [← List.singleton_append, produced, List.filterMap_append]
      rfl
    have happend : (serveAll g c (request :: requests)).2.accepted =
        (serve g c request).2.accepted ++
          (serveAll g (serve g c request).1 requests).2.accepted := rfl
    rw [hcons, happend, List.filter_append]
    rcases serve_accepted g c request selector with heq | ⟨hclosed, hnone⟩
    · rw [heq]
      exact (List.prefix_append_right_inj _).mpr (ih (reachable_serve hreach request))
    · obtain ⟨hstill, -⟩ := closed_serve hreach hclosed request
      rw [hnone, closed_serveAll (reachable_serve hreach request) hstill]
      exact List.nil_prefix

end Coordinator
end PlatformSpec.Response
