import PlatformSpec.Response.Reading

/-!
# The streamed text of an answer

An answer is rendered twice: the session of its node sends the text segment by segment while the
run goes on, and `AnswerNode._run` converts the whole template at the end. Up to the index of the
session, and up to the chunks read at it, what was sent is the rendered template.
-/

namespace PlatformSpec.Response

open Base PlatformSpec.Runtime Workflow

namespace Coordinator

variable {g : Graph} {c c' : Coordinator}

/-! ### Texts -/

/-- The text the stream shows for the session of a node. -/
def streamedText (sent : List Emission) (r : NodeId) : String :=
  String.join ((sent.filter fun e => e.session = r).map fun e => e.event.chunk)

/-- The text of some chunks. -/
def joined (chunks : List StreamChunk) : String := String.join (chunks.map StreamChunk.chunk)

theorem joined_append (l l' : List StreamChunk) :
    joined (l ++ l') = joined l ++ joined l' := by
  rw [joined, List.map_append, String.join_append]
  rfl

private theorem joined_forward (v : View) (c : Coordinator) (s : ResponseSession)
    (selector : Selector) (l : List StreamChunk) :
    joined (l.map (forward v c s selector)) = joined l := by
  unfold joined
  rw [List.map_map]
  congr 1
  apply List.map_congr_left
  intro event _
  simp only [Function.comp_apply, forward]
  split
  next => rfl
  next => rfl

theorem streamedText_append (sent : List Emission) (s r : NodeId)
    (events : List StreamChunk) :
    streamedText (sent ++ events.map (Emission.mk s)) r =
      if s = r then streamedText sent r ++ joined events else streamedText sent r := by
  unfold streamedText
  rw [List.filter_append, List.map_append, String.join_append]
  have hfilter : (events.map (Emission.mk s)).filter (fun e => decide (e.session = r)) =
      if s = r then events.map (Emission.mk s) else [] := by
    split
    next h =>
      rw [List.filter_eq_self]
      intro e he
      obtain ⟨event, -, rfl⟩ := List.mem_map.mp he
      exact decide_eq_true h
    next h =>
      rw [List.filter_eq_nil_iff]
      intro e he
      obtain ⟨event, -, rfl⟩ := List.mem_map.mp he
      simpa using h
  rw [hfilter]
  split
  next =>
    rw [List.map_map]
    rfl
  next => exact String.append_empty

/-! ### The text told so far -/

/-- An earlier segment shows the variable: of the same template, or of that of a session opened
before. -/
def ShownBefore (g : Graph) (opened : List NodeId) (r : NodeId) (index : Nat)
    (selector : Selector) : Prop :=
  (∃ r' ∈ opened.takeWhile (· ≠ r), .variable selector ∈ segmentsOf g r') ∨
    .variable selector ∈ (segmentsOf g r).take index

instance (g : Graph) (opened : List NodeId) (r : NodeId) (index : Nat) (selector : Selector) :
    Decidable (ShownBefore g opened r index selector) :=
  inferInstanceAs (Decidable (_ ∨ _))

/-- What is told about the answers of a run: the graph, the variables that are streamed, the texts
of the variables, and the sessions in the order in which they are opened. -/
structure Story where
  graph : Graph
  streamed : Selector → Bool
  texts : Selector → String
  opened : List NodeId

namespace Story

variable (story : Story) (r : NodeId)

/-- The variable is streamed and an earlier segment has read it. -/
def repeats (index : Nat) (selector : Selector) : Bool :=
  story.streamed selector && decide (ShownBefore story.graph story.opened r index selector)

/-- The text the session of a node sends for a segment. -/
def shown (index : Nat) : TemplateSegment → String
  | .text text => text
  | .variable selector => if story.repeats r index selector then "" else story.texts selector

/-- The text the session of a node sends up to an index. -/
def told (index : Nat) : String :=
  String.join ((List.range index).map fun i =>
    ((segmentsOf story.graph r)[i]?).elim "" (story.shown r i))

/-- The part of the current variable that was read. -/
def partRead (c : Coordinator) (index : Nat) : String :=
  match (segmentsOf story.graph r)[index]? with
  | some (.variable selector) =>
    if story.repeats r index selector then "" else joined (c.read selector)
  | _ => ""

private theorem told_succ {index : Nat} {segment : TemplateSegment}
    (h : (segmentsOf story.graph r)[index]? = some segment) :
    story.told r (index + 1) = story.told r index ++ story.shown r index segment := by
  unfold told
  rw [List.range_succ, List.map_append, String.join_append, List.map_singleton, h]
  simp [String.join_cons]

theorem told_of_length_le {index : Nat}
    (h : (segmentsOf story.graph r).length ≤ index) :
    story.told r index = story.told r (segmentsOf story.graph r).length := by
  induction index, h using Nat.le_induction with
  | base => rfl
  | succ index hle ih =>
    unfold told at ih ⊢
    rw [List.range_succ, List.map_append, String.join_append, List.map_singleton, ih,
      List.getElem?_eq_none hle]
    simp [String.join_cons]

end Story

/-! ### What every move tells -/

/-- What the stream has shown for a node: nothing before its session is active, then the text up
to the index and what was read of the current variable, and at the end all of it. -/
structure Told (story : Story) (r : NodeId) (c : Coordinator) (sent : List Emission) : Prop where
  before : r ∉ c.ended → (∀ s, c.activeSession = some s → s.nodeId ≠ r) → streamedText sent r = ""
  during : ∀ s, c.activeSession = some s → s.nodeId = r →
    streamedText sent r = story.told r s.index ++ story.partRead r c s.index
  after : r ∈ c.ended → streamedText sent r = story.told r (segmentsOf story.graph r).length

/-- What is known of a variable of the answer at every moment: its node is not skipped; a closed
stream has brought the whole text; the value of a streamed variable is stored once the stream is
closed; a variable that is not streamed has no chunks, and its value shows its text. -/
structure Ready (story : Story) (v : View) (c : Coordinator) (selector : Selector) : Prop where
  notSkipped : v.sourceSkipped selector = false
  closed : selector ∈ c.closedStreams →
    joined (c.streamBuffers.getD selector []) = story.texts selector
  awaited : story.streamed selector = true → (v.variablePool.get selector).isSome →
    selector ∈ c.closedStreams
  unstreamed : story.streamed selector = false → c.streamBuffers.getD selector [] = []
  shows : story.streamed selector = false → ∀ value, v.variablePool.get selector = some value →
    value.markdown = story.texts selector

theorem Ready.process {story : Story} {v : View} {selector : Selector}
    (h : Ready story v c selector) (s : ResponseSession) :
    joined (c.read selector) ++ joined (c.processSegment v s (.variable selector)).2 =
      if c.passes v (.variable selector) then story.texts selector
      else joined ((c.processSegment v s (.variable selector)).1.read selector) := by
  rw [read_processSegment_self h.notSkipped, processSegment_variable v h.notSkipped]
  simp only [joined_append, joined_forward]
  rw [← String.append_assoc, ← joined_append, read_append_unread]
  unfold scalarEvents passes
  by_cases hclosed : selector ∈ c.closedStreams
  · simp only [hclosed, if_true, decide_true, Bool.or_true, Bool.true_or]
    rw [h.closed hclosed]
    exact String.append_empty
  · simp only [hclosed, if_false, decide_false, Bool.or_false, h.notSkipped, Bool.false_or]
    cases hvalue : v.variablePool.get selector with
    | none => exact String.append_empty
    | some value =>
      have hunstreamed : story.streamed selector = false := by
        rw [Bool.eq_false_iff]
        exact fun hstreamed => hclosed (h.awaited hstreamed (by simp [hvalue]))
      rw [h.unstreamed hunstreamed]
      simp [joined, createStreamChunkEvent, h.shows hunstreamed value hvalue]

section

variable {story : Story} {r : NodeId} {v : View} {sent : List Emission} {s : ResponseSession}
  {segment : TemplateSegment}

/-- The variables of a node can be shown, and what is streamed of them is read once. -/
structure Showable (story : Story) (r : NodeId) (v : View) (c : Coordinator) : Prop where
  ready : ∀ selector, .variable selector ∈ segmentsOf story.graph r → Ready story v c selector
  reads : ∀ selector, .variable selector ∈ segmentsOf story.graph r →
    story.streamed selector = true → ReadOnce story.graph c selector

variable {selector : Selector}

theorem read_eq_nil (h : c.streamBuffers.getD selector [] = []) :
    c.read selector = [] := by
  unfold read
  rw [h, List.take_nil]

theorem shownBefore_iff (hactive : c.activeSession = some s)
    (hended : story.opened.takeWhile (· ≠ s.nodeId) = c.ended) :
    ShownBefore story.graph story.opened s.nodeId s.index selector ↔
      c.Passed story.graph selector := by
  unfold ShownBefore Passed
  rw [hended, hactive]
  simp

theorem partRead_append (hactive : c.activeSession = some s)
    (hsegment : (segmentsOf story.graph s.nodeId)[s.index]? = some segment)
    (hended : story.opened.takeWhile (· ≠ s.nodeId) = c.ended)
    (hvars : Showable story s.nodeId v c) :
    story.partRead s.nodeId c s.index ++ joined (c.processSegment v s segment).2 =
      if c.passes v segment then story.shown s.nodeId s.index segment
      else story.partRead s.nodeId (c.afterRound v s segment) s.index := by
  cases segment with
  | text text =>
    rw [processSegment_text]
    simp only [Story.partRead, hsegment, passes, if_true, Story.shown]
    simp [joined, createStreamChunkEvent]
  | «variable» selector =>
    have hin := List.mem_of_getElem? hsegment
    simp only [Story.partRead, hsegment, Story.shown]
    by_cases hrepeats : story.repeats s.nodeId s.index selector = true
    · -- all of the stream was read by an earlier segment
      have hpassed : story.streamed selector = true ∧ c.Passed story.graph selector := by
        rw [← shownBefore_iff hactive hended]
        simpa [Story.repeats] using hrepeats
      obtain ⟨hclosed, hunread⟩ := (hvars.reads selector hin hpassed.1).drained hpassed.2
      have hpass : c.passes v (.variable selector) = true := by simp [passes, hclosed]
      have hevents : (c.processSegment v s (.variable selector)).2 = [] := by
        rw [processSegment_variable v (hvars.ready selector hin).notSkipped, hunread]
        simp [scalarEvents, hclosed]
      rw [hevents]
      simp [hrepeats, hpass, joined]
    · simp only [hrepeats, Bool.false_eq_true, if_false]
      exact (hvars.ready selector hin).process s

private theorem partRead_succ (hactive : c.activeSession = some s)
    (hsegment : (segmentsOf story.graph s.nodeId)[s.index]? = some segment)
    (hended : story.opened.takeWhile (· ≠ s.nodeId) = c.ended)
    (hvars : Showable story s.nodeId v c) :
    story.partRead s.nodeId (c.afterRound v s segment) (s.index + 1) = "" := by
  unfold Story.partRead
  split
  next selector hnext =>
    split
    next => rfl
    next hrepeats =>
      have hin := List.mem_of_getElem? hnext
      have hbuffers := (advanced_processSegment v c s segment).buffers
      suffices hnil : (c.afterRound v s segment).read selector = [] by
        rw [hnil]
        rfl
      cases hstreamed : story.streamed selector with
      | false =>
        refine read_eq_nil ?_
        show (c.processSegment v s segment).1.streamBuffers.getD selector [] = []
        rw [hbuffers]
        exact (hvars.ready selector hin).unstreamed hstreamed
      | true =>
        have hnot : ¬ ShownBefore story.graph story.opened s.nodeId (s.index + 1) selector := by
          simpa [Story.repeats, hstreamed] using hrepeats
        have htake : (segmentsOf story.graph s.nodeId).take (s.index + 1) =
            (segmentsOf story.graph s.nodeId).take s.index ++ [segment] := by
          rw [List.take_add_one, hsegment]
          rfl
        have hpassed : ¬ c.Passed story.graph selector := by
          rw [← shownBefore_iff hactive hended]
          refine fun hbefore => hnot (hbefore.imp_right fun hin => ?_)
          rw [htake]
          exact List.mem_append_left _ hin
        have hne : segment ≠ .variable selector := by
          rintro rfl
          refine hnot (.inr ?_)
          rw [htake]
          exact List.mem_append_right _ (List.mem_singleton_self _)
        have hread := (hvars.reads selector hin hstreamed).untouched hpassed
          ((current_iff hactive hsegment).not.mpr hne)
        exact (read_processSegment_of_ne hne s).trans hread
  next => rfl

private theorem partRead_zero (hactive : c.activeSession = none) {r : NodeId}
    (hended : story.opened.takeWhile (· ≠ r) = c.ended)
    (hvars : Showable story r v c) :
    story.partRead r c 0 = "" := by
  unfold Story.partRead
  split
  next selector hfirst =>
    split
    next => rfl
    next hrepeats =>
      have hin := List.mem_of_getElem? hfirst
      suffices hnil : c.read selector = [] by
        rw [hnil]
        rfl
      cases hstreamed : story.streamed selector with
      | false => exact read_eq_nil ((hvars.ready selector hin).unstreamed hstreamed)
      | true =>
        have hnot : ¬ ShownBefore story.graph story.opened r 0 selector := by
          simpa [Story.repeats, hstreamed] using hrepeats
        refine (hvars.reads selector hin hstreamed).untouched ?_ ?_
        · rintro (hin | ⟨s, hs, -⟩)
          · exact hnot (.inl (hended ▸ hin))
          · rw [hactive] at hs
            cases hs
        · rintro ⟨s, hs, -⟩
          rw [hactive] at hs
          cases hs
  next => rfl

private theorem takeWhile_opened {opened : List NodeId} (horder : InOrder c sent)
    (hactive : c.activeSession = some s) (hopened : c.activations <+: opened) :
    opened.takeWhile (· ≠ s.nodeId) = c.ended := by
  obtain ⟨later, rfl⟩ := hopened
  have hnot := horder.not_ended (s := s) (.inl (by simp [openSessions, hactive]))
  rw [horder.activations_eq, openSessions, hactive, List.append_assoc,
    List.takeWhile_append_of_pos]
  · simp
  · intro r hr
    rw [decide_eq_true_eq]
    rintro rfl
    exact hnot hr

theorem Told.congr (h : Told story r c sent) (hended : c'.ended = c.ended)
    (hactive : c'.activeSession = c.activeSession)
    (hread : ∀ selector, c'.read selector = c.read selector) : Told story r c' sent := by
  refine ⟨?_, fun s hs hid => ?_, ?_⟩
  · rw [hended, hactive]
    exact h.before
  · rw [hactive] at hs
    rw [h.during s hs hid]
    unfold Story.partRead
    simp only [hread]
  · rw [hended]
    exact h.after

theorem Told.process (h : Told story r c sent) (hs : SessionOf story.graph s)
    (horder : InOrder c sent) (hactive : c.activeSession = some s)
    (hsegment : s.template.segments[s.index]? = some segment)
    (hopened : c.activations <+: story.opened)
    (hvars : Showable story r v c) :
    Told story r (c.afterRound v s segment)
      (sent ++ (c.processSegment v s segment).2.map (Emission.mk s.nodeId)) := by
  rw [hs.segments] at hsegment
  have hactive' : (c.afterRound v s segment).activeSession =
      some (if c.passes v segment then s.advance else s) := rfl
  have hid : (if c.passes v segment then s.advance else s).nodeId = s.nodeId := by
    split <;> rfl
  have hended : (c.afterRound v s segment).ended = c.ended := ended_afterRound hactive
  by_cases hr : s.nodeId = r
  · subst hr
    refine ⟨fun _ hnot => absurd hid (hnot _ hactive'), fun s' hs' _ => ?_, fun hin => ?_⟩
    · cases hactive'.symm.trans hs'
      have hbefore := takeWhile_opened horder hactive hopened
      have hround := partRead_append hactive hsegment hbefore hvars
      rw [streamedText_append, if_pos rfl, h.during s hactive rfl, String.append_assoc, hround]
      by_cases hpass : c.passes v segment = true
      · simp only [hpass, if_true]
        have hnext := partRead_succ hactive hsegment hbefore hvars
        show _ = story.told s.nodeId (s.index + 1) ++ story.partRead s.nodeId _ (s.index + 1)
        rw [hnext, Story.told_succ story s.nodeId hsegment]
        exact String.append_empty.symm
      · simp only [hpass, Bool.false_eq_true, if_false]
    · rw [hended] at hin
      exact absurd hin (horder.not_ended (.inl (by simp [openSessions, hactive])))
  · have hsame : streamedText (sent ++ (c.processSegment v s segment).2.map
        (Emission.mk s.nodeId)) r = streamedText sent r := by
      rw [streamedText_append, if_neg hr]
    refine ⟨fun hin _ => ?_, fun s' hs' hid' => ?_, fun hin => ?_⟩
    · rw [hsame]
      refine h.before (hended ▸ hin) fun s' hs' => ?_
      cases hactive.symm.trans hs'
      exact hr
    · cases hactive'.symm.trans hs'
      exact absurd (hid.symm.trans hid') hr
    · rw [hsame]
      exact h.after (hended ▸ hin)

theorem Told.start (h : Told story r c sent) (hactive : c.activeSession = none)
    (hactive' : c'.activeSession = some s) (hindex : s.index = 0) (horder : InOrder c' sent)
    (hopened : c'.activations <+: story.opened) (hended : c'.ended = c.ended)
    (hread : ∀ selector, c'.read selector = c.read selector)
    (hvars : Showable story r v c) : Told story r c' sent := by
  have hnone : ∀ s', c.activeSession = some s' → s'.nodeId ≠ r := by
    intro s' hs'
    rw [hactive] at hs'
    cases hs'
  refine ⟨fun hin _ => h.before (hended ▸ hin) hnone, fun s' hs' hid => ?_,
    fun hin => h.after (hended ▸ hin)⟩
  cases hactive'.symm.trans hs'
  subst hid
  have hnot := horder.not_ended (s := s) (.inl (by simp [openSessions, hactive']))
  have hbefore := takeWhile_opened horder hactive' hopened
  rw [hended] at hnot hbefore
  have hzero := partRead_zero hactive hbefore hvars
  have hpart : story.partRead s.nodeId c' 0 = story.partRead s.nodeId c 0 := by
    unfold Story.partRead
    simp only [hread]
  rw [h.before hnot hnone, hindex, hpart, hzero]
  rfl

theorem Told.finish (h : Told story r c sent) (horder : InOrder c sent)
    (hactive : c.activeSession = some s)
    (hlength : (segmentsOf story.graph s.nodeId).length ≤ s.index) :
    Told story r (c.withSessions none c.waitingSessions) sent := by
  have hended := horder.ended_finish hactive
  by_cases hr : s.nodeId = r
  · subst hr
    refine ⟨fun hin _ => ?_, fun s' hs' => ?_, fun _ => ?_⟩
    · rw [hended] at hin
      exact absurd (List.mem_append_right _ (List.mem_singleton_self _)) hin
    · cases hs'
    · have hpart : story.partRead s.nodeId c s.index = "" := by
        unfold Story.partRead
        rw [List.getElem?_eq_none hlength]
      rw [h.during s hactive rfl, hpart, story.told_of_length_le s.nodeId hlength]
      exact String.append_empty
  · refine ⟨fun hin _ => h.before (fun hold => hin ?_) fun s' hs' => ?_, fun s' hs' => ?_,
      fun hin => h.after ?_⟩
    · rw [hended]
      exact List.mem_append_left _ hold
    · cases hactive.symm.trans hs'
      exact hr
    · cases hs'
    · rw [hended] at hin
      exact (List.mem_append.mp hin).resolve_right fun hs => hr (List.mem_singleton.mp hs).symm

theorem Told.move {q : Prop} {before t : Trace} (h : Told story r c before.sent)
    (hmove : Move story.graph v q c t c') (hq : ¬ q) (horder : InOrder c before.sent)
    (hbuffered : Buffered c before.accepted)
    (hsessions : ∀ s, c.Has s → SessionOf story.graph s) (hunstarted : c.Unstarted)
    (hopened : c'.activations <+: story.opened)
    (hvars : Showable story r v c) :
    Told story r c' (before.append t).sent := by
  have horder' := horder.move hmove
  have hopened' := (activations_move hmove).trans hopened
  unfold Trace.append at horder' ⊢
  cases hmove with
  | @process s segment hactive hsegment =>
    have hs : SessionOf story.graph s := hsessions s (.inl (by simp [openSessions, hactive]))
    exact h.process hs horder hactive hsegment hopened' hvars
  | @finish s hactive hdone =>
    have hs : SessionOf story.graph s := hsessions s (.inl (by simp [openSessions, hactive]))
    have hlength : (segmentsOf story.graph s.nodeId).length ≤ s.index := by
      rw [← hs.segments]
      exact of_decide_eq_true (hdone.resolve_right hq)
    simp only [Trace.none, List.append_nil]
    exact h.finish horder hactive hlength
  | @next s rest hactive hwaiting =>
    simp only [Trace.none, List.append_nil] at horder' ⊢
    refine h.start hactive rfl (hunstarted s (.inl (by simp [hwaiting]))) horder' hopened ?_
      (fun _ => rfl) hvars
    exact ended_next hactive hwaiting
  | @openFirst r s hpending hactive hwaiting =>
    simp only [Trace.none, List.append_nil] at horder' ⊢
    refine h.start hactive rfl (hunstarted s (.inr ⟨r, hpending⟩)) horder' hopened ?_
      (fun _ => rfl) hvars
    exact ended_openFirst hactive hwaiting
  | @openLater r s active hpending hactive =>
    simp only [Trace.none, List.append_nil]
    exact h.congr (ended_openLater hactive) hactive.symm fun _ => rfl
  | register hn hc =>
    simp only [Trace.none, List.append_nil]
    rcases register_cases hc with ⟨rfl, -⟩ | ⟨paths, session, -, -, -, rfl⟩
    · exact h
    · exact h.congr rfl rfl fun _ => rfl
  | @accept d event hc =>
    have hread := hbuffered.read_accept hc
    obtain ⟨-, hd⟩ := appendStreamChunk_eq_ok hc
    rw [List.append_nil]
    split
    next => exact h.congr (by rw [hd]; rfl) (by rw [hd]; rfl) hread
    next => exact h.congr (by rw [hd]; rfl) (by rw [hd]) hread
  | frame =>
    simp only [Trace.none, List.append_nil]
    exact h.congr rfl rfl fun _ => rfl

end

end Coordinator
end PlatformSpec.Response
