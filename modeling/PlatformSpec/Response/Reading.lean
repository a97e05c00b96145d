import PlatformSpec.Response.StreamOrder

/-!
# Who reads a stream

The read position of a stream is shared by all sessions. The first segment that shows a variable
reads its chunks until the stream is closed; every later segment finds nothing left to read.
-/

namespace PlatformSpec.Response

open Base PlatformSpec.Runtime Workflow

/-- The segments of the streaming template of a node. -/
def segmentsOf (g : Graph) (r : NodeId) : List TemplateSegment :=
  ((g.node? r).bind Node.getStreamingTemplate).elim [] Template.segments

theorem SessionOf.segments {g : Graph} {s : ResponseSession} (h : SessionOf g s) :
    s.template.segments = segmentsOf g s.nodeId := by
  obtain ⟨n, hn, hs⟩ := h.node
  obtain ⟨-, -, htemplate⟩ := ResponseSession.fromNode_eq_ok hs
  unfold segmentsOf
  rw [hn, Option.bind_some, htemplate]
  rfl

namespace Coordinator

variable {g : Graph} {c c' : Coordinator} {v : View} {q : Prop} {t : Trace}

/-! ### Sessions that have ended -/

/-- The sessions that have ended: all activated ones but those that are open. -/
def ended (c : Coordinator) : List NodeId :=
  c.activations.take (c.activations.length - c.openSessions.length)

variable {sent : List Emission}

theorem InOrder.activations_eq (h : InOrder c sent) :
    c.activations = c.ended ++ c.openSessions.map ResponseSession.nodeId := by
  obtain ⟨finished, hqueue, -⟩ := h.queue
  have hended : c.ended = finished := by
    unfold ended
    rw [hqueue, List.length_append, List.length_map, Nat.add_sub_cancel, List.take_left]
  rw [hended]
  exact hqueue

variable {s : ResponseSession}

theorem InOrder.ended_finish (h : InOrder c sent) (hactive : c.activeSession = some s) :
    (c.withSessions none c.waitingSessions).ended = c.ended ++ [s.nodeId] := by
  have hqueue := h.activations_eq
  have hopen : c.openSessions = s :: c.waitingSessions := by
    unfold openSessions
    rw [hactive]
    rfl
  rw [hopen, List.map_cons, List.append_cons] at hqueue
  show c.activations.take (c.activations.length - c.waitingSessions.length) = _
  rw [hqueue, List.length_append, List.length_map, Nat.add_sub_cancel, List.take_left]

theorem InOrder.not_ended (h : InOrder c sent) (hs : c.Has s) : s.nodeId ∉ c.ended := by
  intro hin
  rcases hs with hs | ⟨r, hr⟩
  · have hnd := h.nodup
    rw [h.activations_eq] at hnd
    exact (List.nodup_append.mp hnd).2.2 _ hin _ (List.mem_map_of_mem hs) rfl
  · obtain ⟨hid, -, hnot⟩ := h.pending r s hr
    rw [hid] at hin
    exact hnot (List.mem_of_mem_take hin)

theorem ended_next {rest : List ResponseSession}
    (hactive : c.activeSession = none) (hwaiting : c.waitingSessions = s :: rest) :
    (c.withSessions (some s) rest).ended = c.ended := by
  unfold ended openSessions withSessions
  simp only [hactive, hwaiting]
  rfl

variable {r : NodeId}

theorem ended_openFirst (hactive : c.activeSession = none) (hwaiting : c.waitingSessions = []) :
    ((c.openPending r).withSessions (some s) []).ended = c.ended := by
  unfold ended openSessions withSessions openPending
  simp only [hactive, hwaiting]
  simp

theorem ended_openLater {active : ResponseSession} (hactive : c.activeSession = some active) :
    ((c.openPending r).withSessions (some active) (c.waitingSessions ++ [s])).ended =
      c.ended := by
  unfold ended openSessions withSessions openPending
  simp only [hactive]
  simp

theorem activations_move (hmove : Move g v q c t c') : c.activations <+: c'.activations := by
  cases hmove with
  | @process s segment hactive hsegment =>
    obtain ⟨positions, ids, hc⟩ := processSegment_frame v c s segment
    rw [hc]
    exact List.prefix_rfl
  | finish => exact List.prefix_rfl
  | next => exact List.prefix_rfl
  | openFirst => exact List.prefix_append ..
  | openLater => exact List.prefix_append ..
  | register hn hc =>
    rcases register_cases hc with ⟨rfl, -⟩ | ⟨paths, session, -, -, -, rfl⟩
    · exact List.prefix_rfl
    · exact List.prefix_rfl
  | @accept d event hc =>
    obtain ⟨-, rfl⟩ := appendStreamChunk_eq_ok hc
    split
    next => exact List.prefix_rfl
    next => exact List.prefix_rfl
  | frame => exact List.prefix_rfl

/-- A session that is not active has dealt with no segment. -/
def Unstarted (c : Coordinator) : Prop :=
  ∀ s, s ∈ c.waitingSessions ∨ (∃ r : NodeId, c.responseSessions[r]? = some s) → s.index = 0

private theorem unstarted_openPending (h : c.Unstarted)
    (hs : ∃ r' : NodeId, (c.openPending r).responseSessions[r']? = some s) : s.index = 0 := by
  obtain ⟨r', hr'⟩ := hs
  change (c.responseSessions.erase r)[r']? = some s at hr'
  rw [Std.ExtTreeMap.getElem?_erase] at hr'
  split at hr'
  next => cases hr'
  next => exact h s (.inr ⟨r', hr'⟩)

theorem Unstarted.move (h : c.Unstarted) (hmove : Move g v q c t c') : c'.Unstarted := by
  intro s' hs'
  cases hmove with
  | @process s segment hactive hsegment =>
    obtain ⟨positions, ids, hc⟩ := processSegment_frame v c s segment
    rw [hc] at hs'
    exact h s' hs'
  | finish => exact h s' hs'
  | @next s rest hactive hwaiting =>
    rcases hs' with hs' | hs'
    · refine h s' (.inl ?_)
      rw [hwaiting]
      exact List.mem_cons_of_mem _ hs'
    · exact h s' (.inr hs')
  | openFirst =>
    rcases hs' with hs' | hs'
    · cases hs'
    · exact unstarted_openPending h hs'
  | @openLater r s active hpending hactive =>
    rcases hs' with hs' | hs'
    · rcases List.mem_append.mp hs' with hs' | hs'
      · exact h s' (.inl hs')
      · rw [List.mem_singleton.mp hs']
        exact h s (.inr ⟨r, hpending⟩)
    · exact unstarted_openPending h hs'
  | @register c' n hn hc =>
    rcases register_cases hc with ⟨rfl, -⟩ | ⟨paths, session, -, -, hs, rfl⟩
    · exact h s' hs'
    · rcases hs' with hs' | ⟨r, hr⟩
      · exact h s' (.inl hs')
      · rw [Std.ExtTreeMap.getElem?_insert] at hr
        split at hr
        next =>
          cases hr
          exact (ResponseSession.fromNode_eq_ok hs).2.1
        next => exact h s' (.inr ⟨r, hr⟩)
  | @accept d event hc =>
    obtain ⟨-, rfl⟩ := appendStreamChunk_eq_ok hc
    split at hs'
    next => exact h s' hs'
    next => exact h s' hs'
  | frame => exact h s' hs'

/-! ### Streams that are closed -/

/-- A closed stream has been closed by a chunk that was accepted. -/
def ClosedByFinal (c : Coordinator) (accepted : List StreamChunk) : Prop :=
  ∀ selector ∈ c.closedStreams,
    ∃ event ∈ accepted, event.selector = selector ∧ event.isFinal = true

theorem ClosedByFinal.move {before : Trace} (h : ClosedByFinal c before.accepted)
    (hmove : Move g v q c t c') : ClosedByFinal c' (before.append t).accepted := by
  have hmore : ∀ selector ∈ c.closedStreams, ∃ event ∈ (before.append t).accepted,
      event.selector = selector ∧ event.isFinal = true := by
    intro selector hselector
    obtain ⟨event, hevent, hfinal⟩ := h selector hselector
    exact ⟨event, List.mem_append_left _ hevent, hfinal⟩
  intro selector hselector
  rcases hmove.streams with ⟨s, segment, hsame, -⟩ | ⟨d, event, hc, hone, rfl⟩ |
    ⟨-, -, hclosed, -⟩
  · rw [hsame.closed, (advanced_processSegment v c s segment).closed] at hselector
    exact hmore selector hselector
  · obtain ⟨-, rfl⟩ := appendStreamChunk_eq_ok hc
    split at hselector
    next hfinal =>
      rcases Std.ExtTreeSet.mem_insert.mp hselector with heq | hold
      · rw [Std.LawfulEqOrd.compare_eq_iff_eq] at heq
        exact ⟨event, by simp [Trace.append, hone], heq, hfinal⟩
      · exact hmore selector hold
    next => exact hmore selector hselector
  · rw [hclosed] at hselector
    exact hmore selector hselector

/-! ### What a round reads -/

variable {selector : Selector}

theorem read_processSegment_of_ne {v : View} {segment : TemplateSegment}
    (h : segment ≠ .variable selector) (s : ResponseSession) :
    (c.processSegment v s segment).1.read selector = c.read selector := by
  cases segment with
  | text text =>
    rw [processSegment_text]
    exact (sameStreams_getOrCreateExecutionId c s.nodeId).read selector
  | «variable» other =>
    cases hskip : v.sourceSkipped other with
    | true =>
      rw [processSegment_skipped v hskip]
    | false =>
      have hs := sameStreams_getOrCreateExecutionId c (outputNode v s other)
      rw [processSegment_variable v hskip, read_readAll, if_neg, hs.read]
      rintro rfl
      exact h rfl

theorem read_processSegment_self {v : View}
    (hskip : v.sourceSkipped selector = false) (s : ResponseSession) :
    (c.processSegment v s (.variable selector)).1.read selector =
      c.streamBuffers.getD selector [] := by
  have hs := sameStreams_getOrCreateExecutionId c (outputNode v s selector)
  rw [processSegment_variable v hskip, read_readAll, if_pos rfl, hs.read, hs.unread,
    read_append_unread]

/-! ### The segments that read a stream -/

/-- A segment that shows the variable has been dealt with. -/
def Passed (g : Graph) (c : Coordinator) (selector : Selector) : Prop :=
  (∃ r ∈ c.ended, .variable selector ∈ segmentsOf g r) ∨
    ∃ s, c.activeSession = some s ∧ .variable selector ∈ (segmentsOf g s.nodeId).take s.index

/-- The segment the active session is at shows the variable. -/
def Current (g : Graph) (c : Coordinator) (selector : Selector) : Prop :=
  ∃ s, c.activeSession = some s ∧ (segmentsOf g s.nodeId)[s.index]? = some (.variable selector)

/-- Sessions that have ended and the active one are the same. -/
private structure SameReaders (c c' : Coordinator) : Prop where
  ended : c'.ended = c.ended
  active : c'.activeSession = c.activeSession

private theorem SameReaders.of_eq (hactive : c'.activeSession = c.activeSession)
    (hwaiting : c'.waitingSessions = c.waitingSessions)
    (hactivations : c'.activations = c.activations) : SameReaders c c' := by
  refine ⟨?_, hactive⟩
  unfold Coordinator.ended openSessions
  rw [hactive, hwaiting, hactivations]

/-- The first segment that shows a variable reads the whole stream: before it nothing is read, and
behind it the stream is closed and nothing is left. -/
structure ReadOnce (g : Graph) (c : Coordinator) (selector : Selector) : Prop where
  untouched : ¬ c.Passed g selector → ¬ c.Current g selector → c.read selector = []
  drained : c.Passed g selector → selector ∈ c.closedStreams ∧ c.unread selector = []

private theorem ReadOnce.congr (h : ReadOnce g c selector)
    (hsame : SameReaders c c') (hread : c'.read selector = c.read selector)
    (hclosed : selector ∈ c.closedStreams → selector ∈ c'.closedStreams ∧
      c'.unread selector = c.unread selector) : ReadOnce g c' selector := by
  have hpassed : c'.Passed g selector ↔ c.Passed g selector := by
    unfold Passed
    rw [hsame.ended, hsame.active]
  have hcurrent : c'.Current g selector ↔ c.Current g selector := by
    unfold Current
    rw [hsame.active]
  constructor
  · intro hp hc
    rw [hread]
    exact h.untouched (hpassed.not.mp hp) (hcurrent.not.mp hc)
  · intro hp
    obtain ⟨hin, hunread⟩ := h.drained (hpassed.mp hp)
    obtain ⟨hin', hsame'⟩ := hclosed hin
    exact ⟨hin', hsame'.trans hunread⟩

theorem ReadOnce.advance (h : ReadOnce g c selector)
    (hread : c'.read selector = c.read selector) (hunread : c'.unread selector = c.unread selector)
    (hclosed : c'.closedStreams = c.closedStreams)
    (hpassed : c'.Passed g selector ↔ c.Passed g selector)
    (hcurrent : c.Current g selector → c'.Current g selector) : ReadOnce g c' selector := by
  constructor
  · intro hp hc
    rw [hread]
    exact h.untouched (hpassed.not.mp hp) fun hin => hc (hcurrent hin)
  · intro hp
    rw [hclosed, hunread]
    exact h.drained (hpassed.mp hp)

/-- The coordinator after a round of the active session. -/
def afterRound (v : View) (c : Coordinator) (s : ResponseSession) (segment : TemplateSegment) :
    Coordinator :=
  (c.processSegment v s segment).1.withSessions
    (some (if c.passes v segment then s.advance else s)) c.waitingSessions

section

variable {s : ResponseSession} {segment : TemplateSegment} {selector : Selector}

theorem ended_afterRound (hactive : c.activeSession = some s) :
    (c.afterRound v s segment).ended = c.ended := by
  obtain ⟨positions, ids, hframe⟩ := processSegment_frame v c s segment
  unfold afterRound
  rw [hframe]
  unfold ended openSessions withSessions
  rw [hactive]
  rfl

theorem current_iff (hactive : c.activeSession = some s)
    (hsegment : (segmentsOf g s.nodeId)[s.index]? = some segment) :
    c.Current g selector ↔ segment = .variable selector := by
  constructor
  · rintro ⟨s', hs', hin⟩
    cases hactive.symm.trans hs'
    rw [hsegment] at hin
    exact Option.some.inj hin
  · rintro rfl
    exact ⟨s, hactive, hsegment⟩

private theorem passed_afterRound (hactive : c.activeSession = some s)
    (hsegment : (segmentsOf g s.nodeId)[s.index]? = some segment) :
    (c.afterRound v s segment).Passed g selector ↔
      c.Passed g selector ∨ c.passes v segment = true ∧ segment = .variable selector := by
  have htake : (segmentsOf g s.nodeId).take (s.index + 1) =
      (segmentsOf g s.nodeId).take s.index ++ [segment] := by
    rw [List.take_add_one, hsegment]
    rfl
  have hactive' : (c.afterRound v s segment).activeSession =
      some (if c.passes v segment then s.advance else s) := rfl
  have hadvance : s.advance.nodeId = s.nodeId ∧ s.advance.index = s.index + 1 := ⟨rfl, rfl⟩
  unfold Passed
  rw [ended_afterRound hactive, hactive, hactive', or_assoc]
  refine or_congr_right ?_
  by_cases hpass : c.passes v segment = true
  · simp [hpass, hadvance, htake, List.mem_append, eq_comm]
  · simp [hpass]

theorem ReadOnce.process (h : ReadOnce g c selector) (hs : SessionOf g s)
    (hskip : v.sourceSkipped selector = false)
    (hpool : (v.variablePool.get selector).isSome → selector ∈ c.closedStreams)
    (hactive : c.activeSession = some s)
    (hsegment : s.template.segments[s.index]? = some segment) :
    ReadOnce g (c.afterRound v s segment) selector := by
  have hadvanced := advanced_processSegment v c s segment
  rw [hs.segments] at hsegment
  constructor
  · intro hp hc
    rw [passed_afterRound hactive hsegment, not_or] at hp
    have hne : segment ≠ .variable selector := by
      rintro rfl
      by_cases hpass : c.passes v (.variable selector) = true
      · exact hp.2 ⟨hpass, rfl⟩
      · refine hc ⟨s, ?_, hsegment⟩
        simp [afterRound, withSessions, hpass]
    exact (read_processSegment_of_ne hne s).trans
      (h.untouched hp.1 ((current_iff hactive hsegment).not.mpr hne))
  · intro hp
    rcases (passed_afterRound hactive hsegment).mp hp with hold | ⟨hpass, rfl⟩
    · obtain ⟨hclosed, hunread⟩ := h.drained hold
      exact ⟨hadvanced.closed ▸ hclosed, hadvanced.unread selector hunread⟩
    · -- the segment was passed because the stream is closed, and then all of it was read
      have hclosed : selector ∈ c.closedStreams := by
        unfold passes at hpass
        simp only [hskip, Bool.false_or, Bool.or_eq_true, decide_eq_true_eq] at hpass
        exact hpass.elim id hpool
      refine ⟨hadvanced.closed ▸ hclosed, ?_⟩
      show (c.processSegment v s (.variable selector)).1.unread selector = []
      rw [processSegment_variable v hskip, unread_readAll, if_pos rfl]

theorem ReadOnce.start (h : ReadOnce g c selector) (hactive : c.activeSession = none)
    (hactive' : c'.activeSession = some s) (hindex : s.index = 0) (hended : c'.ended = c.ended)
    (hread : c'.read selector = c.read selector) (hunread : c'.unread selector = c.unread selector)
    (hclosed : c'.closedStreams = c.closedStreams) : ReadOnce g c' selector := by
  refine h.advance hread hunread hclosed ?_ ?_
  · unfold Passed
    rw [hended, hactive, hactive']
    simp [hindex]
  · rintro ⟨s', hs', -⟩
    rw [hactive] at hs'
    cases hs'

/-- Every move keeps the reading order of a stream whose node is not skipped and stores no value
before it closes the stream. -/
theorem ReadOnce.move {before : Trace} (h : ReadOnce g c selector) (hmove : Move g v q c t c')
    (hq : ¬ q) (horder : InOrder c before.sent) (hbuffered : Buffered c before.accepted)
    (hsessions : ∀ s, c.Has s → SessionOf g s)
    (hunstarted : c.Unstarted) (hskip : v.sourceSkipped selector = false)
    (hpool : (v.variablePool.get selector).isSome → selector ∈ c.closedStreams) :
    ReadOnce g c' selector := by
  cases hmove with
  | @process s segment hactive hsegment =>
    have hs : SessionOf g s := hsessions s (.inl (by simp [openSessions, hactive]))
    exact h.process hs hskip hpool hactive hsegment
  | @finish s hactive hdone =>
    have hs : SessionOf g s := hsessions s (.inl (by simp [openSessions, hactive]))
    have hended := horder.ended_finish hactive
    have hlength : (segmentsOf g s.nodeId).length ≤ s.index := by
      rw [← hs.segments]
      exact of_decide_eq_true (hdone.resolve_right hq)
    refine h.advance rfl rfl rfl ?_ ?_
    · unfold Passed
      rw [hended, hactive]
      simp [withSessions, List.take_of_length_le hlength]
    · rintro ⟨s', hs', hin⟩
      cases hactive.symm.trans hs'
      rw [List.getElem?_eq_none hlength] at hin
      cases hin
  | @next s rest hactive hwaiting =>
    exact h.start hactive rfl (hunstarted s (.inl (by simp [hwaiting])))
      (ended_next hactive hwaiting) rfl rfl rfl
  | @openFirst r s hpending hactive hwaiting =>
    exact h.start hactive rfl (hunstarted s (.inr ⟨r, hpending⟩))
      (ended_openFirst hactive hwaiting) rfl rfl rfl
  | @openLater r s active hpending hactive =>
    exact h.congr ⟨ended_openLater hactive, hactive.symm⟩ rfl fun hin => ⟨hin, rfl⟩
  | @register c' n hn hc =>
    rcases register_cases hc with ⟨rfl, -⟩ | ⟨paths, session, -, -, -, rfl⟩
    · exact h
    · exact h.congr (.of_eq rfl rfl rfl) rfl fun hin => ⟨hin, rfl⟩
  | @accept d event hc =>
    have hread := hbuffered.read_accept hc selector
    obtain ⟨hopen, hd⟩ := appendStreamChunk_eq_ok hc
    have hunread : selector ∈ c.closedStreams → d.unread selector = c.unread selector := by
      intro hin
      have hne : event.selector ≠ selector := fun heq => hopen (heq ▸ hin)
      unfold unread
      rw [hd]
      simp only [Std.ExtTreeMap.getD_insert, Std.LawfulEqOrd.compare_eq_iff_eq, hne, if_false]
      split
      next => rfl
      next => rw [Std.ExtTreeMap.getD_insert, if_neg (by simpa using hne)]
    split
    next =>
      refine h.congr (.of_eq ?_ ?_ ?_) hread fun hin => ⟨?_, hunread hin⟩
      · rw [hd]
        rfl
      · rw [hd]
        rfl
      · rw [hd]
        rfl
      · refine Std.ExtTreeSet.mem_insert.mpr (.inr ?_)
        rw [hd]
        exact hin
    next =>
      subst hd
      exact h.congr (.of_eq rfl rfl rfl) hread fun hin => ⟨hin, hunread hin⟩
  | frame => exact h.congr (.of_eq rfl rfl rfl) rfl fun hin => ⟨hin, rfl⟩

end

end Coordinator
end PlatformSpec.Response
