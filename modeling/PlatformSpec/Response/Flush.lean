import PlatformSpec.Response.Restore

/-!
# What a flush does to one segment

The segment loop of `try_flush` deals with one segment after the other. Whether a segment lets
the loop pass depends on the closed streams, the pool and the skipped nodes only, so a flush
cannot change it; the events depend on the unread chunks as well, and a flush can only make
those fewer.
-/

namespace PlatformSpec.Response

open Base PlatformSpec.Runtime Workflow

/-- The segments a session has still to deal with. -/
def ResponseSession.left (s : ResponseSession) : List TemplateSegment :=
  s.template.segments.drop s.index

namespace Coordinator

variable (v : View)

/-- The loop gets past the segment. -/
def passes (c : Coordinator) : TemplateSegment → Bool
  | .text _ => true
  | .variable selector => v.sourceSkipped selector || decide (selector ∈ c.closedStreams) ||
      (v.variablePool.get selector).isSome

/-- The loop gets past the segment without an event. -/
def silent (c : Coordinator) : TemplateSegment → Bool
  | .text _ => false
  | .variable selector => v.sourceSkipped selector ||
      (decide (selector ∈ c.closedStreams) && (c.unread selector).isEmpty)

/-- One round of the segment loop: the coordinator after it and the events. -/
def processSegment (c : Coordinator) (s : ResponseSession) :
    TemplateSegment → Coordinator × List StreamChunk
  | .text text => ((c.processTextSegment v s text).1, [(c.processTextSegment v s text).2])
  | .variable selector =>
    if v.sourceSkipped selector then (c, [])
    else ((c.processVariableSegment v s selector).1, (c.processVariableSegment v s selector).2.1)

/-- The id under which events of a node are sent. -/
def executionId (c : Coordinator) (id : NodeId) : ExecutionId :=
  c.nodeExecutionIds.getD id (.generated id)

/-- Copies with the same streams that send events under the same ids. -/
structure SameStreams (c c' : Coordinator) : Prop where
  buffers : c'.streamBuffers = c.streamBuffers
  positions : c'.streamPositions = c.streamPositions
  closed : c'.closedStreams = c.closedStreams
  ids : ∀ id, c'.executionId id = c.executionId id

theorem SameStreams.refl (c : Coordinator) : SameStreams c c := ⟨rfl, rfl, rfl, fun _ => rfl⟩

variable {c c' c'' : Coordinator}

theorem SameStreams.trans (h : SameStreams c c') (h' : SameStreams c' c'') : SameStreams c c'' :=
  ⟨h'.buffers.trans h.buffers, h'.positions.trans h.positions, h'.closed.trans h.closed,
    fun id => (h'.ids id).trans (h.ids id)⟩

theorem SameStreams.symm (h : SameStreams c c') : SameStreams c' c :=
  ⟨h.buffers.symm, h.positions.symm, h.closed.symm, fun id => (h.ids id).symm⟩

theorem getOrCreateExecutionId_snd (c : Coordinator) (id : NodeId) :
    (c.getOrCreateExecutionId id).2 = c.executionId id := by
  unfold getOrCreateExecutionId executionId
  rw [Std.ExtTreeMap.getD_eq_getD_getElem?]
  cases c.nodeExecutionIds[id]? with
  | none => rfl
  | some e => rfl

theorem sameStreams_getOrCreateExecutionId (c : Coordinator) (id : NodeId) :
    SameStreams c (c.getOrCreateExecutionId id).1 := by
  unfold getOrCreateExecutionId
  cases hid : c.nodeExecutionIds[id]? with
  | some e => exact .refl c
  | none =>
    refine ⟨rfl, rfl, rfl, fun other => ?_⟩
    simp only [executionId, trackNodeExecution, Std.ExtTreeMap.getD_insert]
    split
    next h =>
      have he : id = other := by simpa using h
      subst he
      rw [Std.ExtTreeMap.getD_eq_getD_getElem?, hid]
      rfl
    next => rfl

/-- The chunks of a stream that a read has not returned, after every chunk was read. -/
theorem unread_readAll (c : Coordinator) (selector other : Selector) :
    (c.readAll selector).unread other = if other = selector then [] else c.unread other := by
  unfold readAll
  split
  next h =>
    split
    next he =>
      rw [he]
      exact List.isEmpty_iff.mp h
    next => rfl
  next =>
    unfold unread
    simp only [Std.ExtTreeMap.getD_insert]
    by_cases he : other = selector
    · subst he
      simp
    · rw [if_neg (by simpa using fun h => he h.symm), if_neg he]

/-- The node a variable segment is attributed to. -/
def outputNode (s : ResponseSession) (selector : Selector) : NodeId :=
  if v.graph.hasNode (selector.headD "") then selector.headD "" else s.nodeId

/-- An unread chunk as it is sent on. -/
def forward (c : Coordinator) (s : ResponseSession) (selector : Selector) (event : StreamChunk) :
    StreamChunk :=
  if v.graph.hasNode (selector.headD "") then event
  else { event with
    id := c.executionId (outputNode v s selector), nodeId := s.nodeId,
    nodeType := v.graph.nodeType s.nodeId }

/-- The event of a variable that is read from the pool. -/
def scalarEvents (c : Coordinator) (s : ResponseSession) (selector : Selector) :
    List StreamChunk :=
  if selector ∈ c.closedStreams then []
  else ((v.variablePool.get selector).map fun value =>
    createStreamChunkEvent v s.nodeId (outputNode v s selector)
      (c.executionId (outputNode v s selector)) selector value.markdown s.isLastSegment).toList

/-- A variable segment sends the unread chunks, then the value if the stream is still open. -/
theorem processVariableSegment_eq (c : Coordinator) (s : ResponseSession) (selector : Selector) :
    c.processVariableSegment v s selector =
      ((c.getOrCreateExecutionId (outputNode v s selector)).1.readAll selector,
        (c.unread selector).map (forward v c s selector) ++ scalarEvents v c s selector,
        decide (selector ∈ c.closedStreams) || (v.variablePool.get selector).isSome) := by
  have hs := sameStreams_getOrCreateExecutionId c (outputNode v s selector)
  have hid := getOrCreateExecutionId_snd c (outputNode v s selector)
  unfold processVariableSegment
  simp only []
  rw [show (if v.graph.hasNode (selector.headD "") = true then selector.headD "" else s.nodeId) =
    outputNode v s selector from rfl]
  generalize c.getOrCreateExecutionId (outputNode v s selector) = r at hs hid
  obtain ⟨d, id⟩ := r
  simp only at hs hid
  subst hid
  have hunread : d.unread selector = c.unread selector := by
    unfold unread
    rw [hs.buffers, hs.positions]
  have hclosed : (d.readAll selector).closedStreams = c.closedStreams := by
    rw [← hs.closed]
    unfold readAll
    split <;> rfl
  simp only [hunread, hclosed, scalarEvents]
  split
  next h => simp [h, forward]
  next h =>
    cases v.variablePool.get selector with
    | none => simp [h, forward]
    | some value => simp [h, forward]

variable {selector : Selector}

theorem processSegment_skipped (h : v.sourceSkipped selector = true)
    (c : Coordinator) (s : ResponseSession) :
    c.processSegment v s (.variable selector) = (c, []) := by
  simp only [processSegment, h, if_true]

theorem processSegment_variable (h : v.sourceSkipped selector = false)
    (c : Coordinator) (s : ResponseSession) : c.processSegment v s (.variable selector) =
      ((c.getOrCreateExecutionId (outputNode v s selector)).1.readAll selector,
        (c.unread selector).map (forward v c s selector) ++ scalarEvents v c s selector) := by
  simp only [processSegment, h, Bool.false_eq_true, if_false, processVariableSegment_eq]

theorem processSegment_text (text : String) (c : Coordinator) (s : ResponseSession) :
    c.processSegment v s (.text text) = ((c.getOrCreateExecutionId s.nodeId).1,
      [createStreamChunkEvent v s.nodeId s.nodeId (c.executionId s.nodeId) [s.nodeId, "answer"]
        text s.isLastSegment]) := by
  unfold processSegment processTextSegment
  simp only [getOrCreateExecutionId_snd]

theorem flushSegments_cons (segment : TemplateSegment) (rest : List TemplateSegment)
    (c : Coordinator) (s : ResponseSession) :
    flushSegments v (segment :: rest) c s =
      if c.passes v segment then
        ((flushSegments v rest (c.processSegment v s segment).1 s.advance).1,
          (flushSegments v rest (c.processSegment v s segment).1 s.advance).2.1,
          (c.processSegment v s segment).2 ++
            (flushSegments v rest (c.processSegment v s segment).1 s.advance).2.2)
      else ((c.processSegment v s segment).1, s, (c.processSegment v s segment).2) := by
  cases segment with
  | text text => rfl
  | «variable» selector =>
    rw [flushSegments]
    unfold processSegment passes
    by_cases hskip : v.sourceSkipped selector = true
    · simp [hskip]
    · simp only [hskip, Bool.false_eq_true, if_false, Bool.false_or, processVariableSegment_eq]

/-- A round keeps the buffers and closes nothing; what was read before is read after. -/
structure Advanced (c c' : Coordinator) : Prop where
  buffers : c'.streamBuffers = c.streamBuffers
  closed : c'.closedStreams = c.closedStreams
  unread : ∀ selector, c.unread selector = [] → c'.unread selector = []

theorem Advanced.refl (c : Coordinator) : Advanced c c := ⟨rfl, rfl, fun _ h => h⟩

theorem Advanced.trans (h : Advanced c c') (h' : Advanced c' c'') :
    Advanced c c'' :=
  ⟨h'.buffers.trans h.buffers, h'.closed.trans h.closed,
    fun sel hs => h'.unread sel (h.unread sel hs)⟩

theorem SameStreams.unread (h : SameStreams c c') (selector : Selector) :
    c'.unread selector = c.unread selector := by
  unfold Coordinator.unread
  rw [h.buffers, h.positions]

theorem SameStreams.advanced (h : SameStreams c c') : Advanced c c' :=
  ⟨h.buffers, h.closed, fun sel hs => (h.unread sel).trans hs⟩

theorem advanced_readAll (c : Coordinator) (selector : Selector) :
    Advanced c (c.readAll selector) := by
  refine ⟨?_, ?_, fun other h => ?_⟩
  · unfold readAll
    split <;> rfl
  · unfold readAll
    split <;> rfl
  · rw [unread_readAll]
    split
    next => rfl
    next => exact h

theorem advanced_processSegment (c : Coordinator) (s : ResponseSession)
    (segment : TemplateSegment) : Advanced c (c.processSegment v s segment).1 := by
  cases segment with
  | text text => exact (sameStreams_getOrCreateExecutionId c s.nodeId).advanced
  | «variable» selector =>
    cases hskip : v.sourceSkipped selector with
    | true =>
      rw [processSegment_skipped v hskip]
      exact .refl c
    | false =>
      rw [processSegment_variable v hskip]
      exact (sameStreams_getOrCreateExecutionId c _).advanced.trans (advanced_readAll _ _)

theorem advanced_flushSegments (segments : List TemplateSegment) (c : Coordinator)
    (s : ResponseSession) : Advanced c (flushSegments v segments c s).1 := by
  induction segments generalizing c s with
  | nil => exact .refl c
  | cons segment rest ih =>
    have h := advanced_processSegment v c s segment
    rw [flushSegments_cons]
    split
    next => exact h.trans (ih _ _)
    next => exact h

theorem Advanced.passes (h : Advanced c c') (segment : TemplateSegment) :
    c'.passes v segment = c.passes v segment := by
  cases segment with
  | text text => rfl
  | «variable» selector =>
    unfold Coordinator.passes
    rw [h.closed]

variable {segment : TemplateSegment}

theorem Advanced.silent (h : Advanced c c')
    (hs : c.silent v segment = true) : c'.silent v segment = true := by
  cases segment with
  | text text => exact hs
  | «variable» selector =>
    unfold Coordinator.silent at hs ⊢
    rw [h.closed]
    simp only [Bool.or_eq_true, Bool.and_eq_true, List.isEmpty_iff] at hs ⊢
    rcases hs with hskip | ⟨hclosed, hunread⟩
    · exact .inl hskip
    · exact .inr ⟨hclosed, h.unread selector hunread⟩

/-! ### How far the loop gets, and with what events -/

theorem flushSegments_index (segments : List TemplateSegment) (c : Coordinator)
    (s : ResponseSession) :
    s.index ≤ (flushSegments v segments c s).2.1.index ∧
      (flushSegments v segments c s).2.1.index ≤ s.index + segments.length ∧
      ((flushSegments v segments c s).2.1.index = s.index + segments.length ↔
        ∀ segment ∈ segments, c.passes v segment = true) := by
  induction segments generalizing c s with
  | nil => simp [flushSegments]
  | cons segment rest ih =>
    rw [flushSegments_cons]
    have hadv := advanced_processSegment v c s segment
    obtain ⟨hlow, hhigh, hend⟩ := ih (c.processSegment v s segment).1 s.advance
    simp only [hadv.passes] at hend
    have hindex : s.advance.index = s.index + 1 := rfl
    rw [hindex] at hlow hhigh hend
    by_cases hpass : c.passes v segment = true
    · rw [if_pos hpass]
      simp only [List.length_cons, List.forall_mem_cons, hpass, true_and, ← hend]
      refine ⟨?_, ?_, ?_⟩
      · omega
      · omega
      · omega
    · rw [if_neg hpass]
      simp only [List.length_cons, List.forall_mem_cons, hpass]
      refine ⟨?_, ?_, ?_⟩
      · omega
      · omega
      · simp

theorem processSegment_silent (h : c.silent v segment = true) (s : ResponseSession) :
    SameStreams c (c.processSegment v s segment).1 ∧ (c.processSegment v s segment).2 = [] ∧
      c.passes v segment = true := by
  cases segment with
  | text text => cases h
  | «variable» selector =>
    cases hskip : v.sourceSkipped selector with
    | true =>
      rw [processSegment_skipped v hskip]
      exact ⟨.refl c, rfl, by simp [passes, hskip]⟩
    | false =>
      simp only [silent, hskip, Bool.false_or, Bool.and_eq_true, decide_eq_true_eq,
        List.isEmpty_iff] at h
      obtain ⟨hclosed, hunread⟩ := h
      have hs := sameStreams_getOrCreateExecutionId c (outputNode v s selector)
      rw [processSegment_variable v hskip]
      refine ⟨?_, ?_, ?_⟩
      · unfold readAll
        rw [hs.unread, hunread]
        exact hs
      · simp [hunread, scalarEvents, hclosed]
      · simp [passes, hclosed]

theorem processSegment_eq_nil (hpass : c.passes v segment = true) (s : ResponseSession) :
    (c.processSegment v s segment).2 = [] ↔ c.silent v segment = true := by
  refine ⟨fun h => ?_, fun h => (processSegment_silent v h s).2.1⟩
  cases segment with
  | text text => cases h
  | «variable» selector =>
    cases hskip : v.sourceSkipped selector with
    | true => simp [silent, hskip]
    | false =>
      rw [processSegment_variable v hskip] at h
      obtain ⟨hunread, hscalar⟩ := List.append_eq_nil_iff.mp h
      simp only [silent, hskip, Bool.false_or, Bool.and_eq_true, decide_eq_true_eq,
        List.isEmpty_iff]
      refine ⟨?_, List.map_eq_nil_iff.mp hunread⟩
      by_contra hopen
      simp only [passes, hskip, hopen, decide_false, Bool.or_false, Bool.false_or] at hpass
      obtain ⟨value, hvalue⟩ := Option.isSome_iff_exists.mp hpass
      simp [scalarEvents, hopen, hvalue] at hscalar

variable {segments : List TemplateSegment}

/-- Silent segments are passed without an event and without touching a stream. -/
theorem flushSegments_silent
    (h : ∀ segment ∈ segments, c.silent v segment = true) (s : ResponseSession) :
    SameStreams c (flushSegments v segments c s).1 ∧ (flushSegments v segments c s).2.2 = [] := by
  induction segments generalizing c s with
  | nil => exact ⟨.refl c, rfl⟩
  | cons segment rest ih =>
    obtain ⟨hhead, hrest⟩ := List.forall_mem_cons.mp h
    obtain ⟨hsame, hnil, hpass⟩ := processSegment_silent v hhead s
    obtain ⟨hsame', hnil'⟩ := ih (c := (c.processSegment v s segment).1)
      (fun segment' hs => hsame.advanced.silent v (hrest segment' hs)) s.advance
    rw [flushSegments_cons, if_pos hpass]
    exact ⟨hsame.trans hsame', by rw [hnil, hnil']; rfl⟩

theorem flushSegments_eq_nil
    (h : ∀ segment ∈ segments, c.passes v segment = true) (s : ResponseSession) :
    (flushSegments v segments c s).2.2 = [] ↔ ∀ segment ∈ segments, c.silent v segment = true := by
  refine ⟨fun hnil => ?_, fun hs => (flushSegments_silent v hs s).2⟩
  induction segments generalizing c s with
  | nil => simp
  | cons segment rest ih =>
    obtain ⟨hhead, hrest⟩ := List.forall_mem_cons.mp h
    rw [flushSegments_cons, if_pos hhead] at hnil
    obtain ⟨hfirst, hlater⟩ := List.append_eq_nil_iff.mp hnil
    have hsilent := (processSegment_eq_nil v hhead s).mp hfirst
    obtain ⟨hsame, -, -⟩ := processSegment_silent v hsilent s
    have hall := ih (c := (c.processSegment v s segment).1)
      (fun segment' hs => (hsame.advanced.passes v segment').trans (hrest segment' hs)) s.advance
      hlater
    exact List.forall_mem_cons.mpr
      ⟨hsilent, fun segment' hs => hsame.symm.advanced.silent v (hall segment' hs)⟩

/-! ### Copies with the same streams -/

private theorem sameStreams_readAll (h : SameStreams c c')
    (selector : Selector) : SameStreams (c.readAll selector) (c'.readAll selector) := by
  unfold readAll
  rw [h.unread]
  split
  next => exact h
  next =>
    refine ⟨h.buffers, ?_, h.closed, h.ids⟩
    simp only [h.positions, h.buffers]

/-- A round of the loop sends the same events from copies with the same streams. -/
theorem processSegment_congr (h : SameStreams c c') (s : ResponseSession)
    (segment : TemplateSegment) :
    (c'.processSegment v s segment).2 = (c.processSegment v s segment).2 ∧
      SameStreams (c.processSegment v s segment).1 (c'.processSegment v s segment).1 := by
  have hid : ∀ id, SameStreams (c.getOrCreateExecutionId id).1 (c'.getOrCreateExecutionId id).1 :=
    fun id => ((sameStreams_getOrCreateExecutionId c id).symm.trans h).trans
      (sameStreams_getOrCreateExecutionId c' id)
  cases segment with
  | text text =>
    rw [processSegment_text, processSegment_text, h.ids]
    exact ⟨rfl, hid s.nodeId⟩
  | «variable» selector =>
    cases hskip : v.sourceSkipped selector with
    | true =>
      rw [processSegment_skipped v hskip, processSegment_skipped v hskip]
      exact ⟨rfl, h⟩
    | false =>
      rw [processSegment_variable v hskip, processSegment_variable v hskip]
      refine ⟨?_, sameStreams_readAll (hid _) selector⟩
      have hforward : forward v c' s selector = forward v c s selector := by
        funext event
        simp only [forward, h.ids]
      have hscalar : scalarEvents v c' s selector = scalarEvents v c s selector := by
        simp only [scalarEvents, h.closed, h.ids]
      simp only [h.unread, hforward, hscalar]

theorem flushSegments_congr (segments : List TemplateSegment)
    (h : SameStreams c c') (s : ResponseSession) :
    (flushSegments v segments c' s).2 = (flushSegments v segments c s).2 ∧
      SameStreams (flushSegments v segments c s).1 (flushSegments v segments c' s).1 := by
  induction segments generalizing c c' s with
  | nil => exact ⟨rfl, h⟩
  | cons segment rest ih =>
    obtain ⟨hevents, hnext⟩ := processSegment_congr v h s segment
    obtain ⟨hrest, hlast⟩ := ih hnext s.advance
    rw [flushSegments_cons, flushSegments_cons, h.advanced.passes]
    split
    next =>
      rw [hevents, hrest]
      exact ⟨rfl, hlast⟩
    next =>
      rw [hevents]
      exact ⟨rfl, hnext⟩

/-! ### Idle coordinators -/

/-- Nothing waits when nothing is active. -/
def Idle (c : Coordinator) : Prop := c.activeSession = none → c.waitingSessions = []

theorem idle_flushSession (waiting : List ResponseSession) (c : Coordinator)
    (s : ResponseSession) : (flushSession v waiting c s).1.Idle := by
  induction waiting generalizing c s with
  | nil =>
    unfold flushSession
    generalize flushSegments v (s.template.segments.drop s.index) c s = r
    obtain ⟨c', s', events⟩ := r
    simp only []
    split
    next => exact fun _ => rfl
    next =>
      intro h
      cases h
  | cons next rest ih =>
    unfold flushSession
    generalize flushSegments v (s.template.segments.drop s.index) c s = r
    obtain ⟨c', s', events⟩ := r
    simp only []
    split
    next => exact ih c' next
    next =>
      intro h
      cases h

theorem idle_tryFlush (h : c.Idle) : (c.tryFlush v).1.Idle := by
  unfold tryFlush
  split
  next => exact h
  next s _ => exact idle_flushSession v c.waitingSessions c s

theorem idle_endSession (h : c.Idle) (nodeId : NodeId) : (c.endSession v nodeId).1.Idle := by
  unfold endSession
  split
  next => exact h
  next s _ =>
    split
    next =>
      split
      next hw => exact fun _ => hw
      next next rest _ => exact idle_flushSession v rest c next
    next => exact h

theorem idle_activeOrQueueSession (h : c.Idle) (nodeId : NodeId) :
    (c.activeOrQueueSession v nodeId).1.Idle := by
  unfold activeOrQueueSession
  split
  next => exact h
  next session _ =>
    simp only []
    split
    next => exact idle_tryFlush v fun ha => nomatch ha
    next s hs =>
      intro ha
      rw [hs] at ha
      cases ha

theorem idle_updateResponseNodes (edgeId : EdgeId) (ids : List NodeId)
    (h : c.Idle) : (updateResponseNodes v edgeId ids c).1.Idle := by
  induction ids generalizing c with
  | nil => exact h
  | cons r ids ih =>
    unfold updateResponseNodes
    apply ih
    unfold updateResponseNode
    split
    next => exact h
    next paths _ =>
      simp only []
      split
      next =>
        apply idle_activeOrQueueSession v
        exact h
      next => exact h

theorem idle_interceptChunk {event : StreamChunk}
    {emitted : List Emission} (h : c.Idle) (hc : c.interceptChunk v event = .ok (c', emitted)) :
    c'.Idle := by
  obtain ⟨d, happend, rfl, -⟩ := interceptChunk_eq_ok hc
  obtain ⟨-, rfl⟩ := appendStreamChunk_eq_ok happend
  refine idle_tryFlush v ?_
  split
  next => exact h
  next => exact h

end Coordinator
end PlatformSpec.Response
