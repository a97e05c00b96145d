import PlatformSpec.Response.Transparency

/-!
# The coordinator as a machine

`try_flush`, `end_session` and the activation of sessions call each other. Taken apart they
are runs of a machine with small moves: one segment of the active session is processed, the
active session ends, the next one is taken from the queue, a pending session is opened. What
every move preserves holds through the nested calls.
-/

namespace PlatformSpec.Response

open Base PlatformSpec.Runtime Workflow

namespace Coordinator

/-- Replace the active and the waiting sessions. -/
def withSessions (c : Coordinator) (active : Option ResponseSession)
    (waiting : List ResponseSession) : Coordinator :=
  { c with activeSession := active, waitingSessions := waiting }

/-- Open the pending session of a node: it is pending no longer. -/
def openPending (c : Coordinator) (r : NodeId) : Coordinator :=
  { c with
    responseSessions := c.responseSessions.erase r
    activations := c.activations ++ [r] }

/-- What moves do to the outside: the events sent and the chunks accepted. -/
structure Trace where
  sent : List Emission
  accepted : List StreamChunk

namespace Trace

/-- Nothing is sent or accepted. -/
def none : Trace := ⟨[], []⟩

/-- One trace after another. -/
def append (t t' : Trace) : Trace := ⟨t.sent ++ t'.sent, t.accepted ++ t'.accepted⟩

@[simp] theorem append_none (t : Trace) : t.append none = t := by
  unfold append none
  simp only [List.append_nil]

@[simp] theorem none_append (t : Trace) : none.append t = t := rfl

theorem append_assoc (t t' t'' : Trace) : (t.append t').append t'' = t.append (t'.append t'') := by
  simp only [append, List.append_assoc]

end Trace

/-- A move over graph `g`, with what is read of it and of the pool; `q` tells whether a session can
be ended before it is complete. -/
inductive Move (g : Graph) (v : View) (q : Prop) : Coordinator → Trace → Coordinator → Prop where
  | process {c : Coordinator} {s : ResponseSession} {segment : TemplateSegment}
      (hactive : c.activeSession = some s)
      (hsegment : s.template.segments[s.index]? = some segment) :
      Move g v q c ⟨(c.processSegment v s segment).2.map (Emission.mk s.nodeId), []⟩
        ((c.processSegment v s segment).1.withSessions
          (some (if c.passes v segment then s.advance else s)) c.waitingSessions)
  | finish {c : Coordinator} {s : ResponseSession} (hactive : c.activeSession = some s)
      (hdone : s.isComplete = true ∨ q) :
      Move g v q c .none (c.withSessions none c.waitingSessions)
  | next {c : Coordinator} {s : ResponseSession} {rest : List ResponseSession}
      (hactive : c.activeSession = none) (hwaiting : c.waitingSessions = s :: rest) :
      Move g v q c .none (c.withSessions (some s) rest)
  | openFirst {c : Coordinator} {r : NodeId} {s : ResponseSession}
      (hpending : c.responseSessions[r]? = some s) (hactive : c.activeSession = none)
      (hwaiting : c.waitingSessions = []) :
      Move g v q c .none ((c.openPending r).withSessions (some s) [])
  | openLater {c : Coordinator} {r : NodeId} {s active : ResponseSession}
      (hpending : c.responseSessions[r]? = some s) (hactive : c.activeSession = some active) :
      Move g v q c .none ((c.openPending r).withSessions (some active) (c.waitingSessions ++ [s]))
  | register {c c' : Coordinator} {n : Node} (hn : n ∈ g.nodes)
      (hc : c.register g n = .ok c') : Move g v q c .none c'
  | accept {c d : Coordinator} {event : StreamChunk} (hc : c.appendStreamChunk event = .ok d) :
      Move g v q c ⟨[], [event]⟩ (if event.isFinal then d.closeStream event.selector else d)
  | frame {c : Coordinator} (paths : Std.ExtTreeMap NodeId (List Path))
      (ids : Std.ExtTreeMap NodeId ExecutionId) :
      Move g v q c .none { c with pathsMaps := paths, nodeExecutionIds := ids }

/-- Moves one after another. -/
inductive Moves (g : Graph) (v : View) (q : Prop) : Coordinator → Trace → Coordinator → Prop where
  | refl (c : Coordinator) : Moves g v q c .none c
  | cons {c d c' : Coordinator} {t t' : Trace} (h : Move g v q c t d)
      (h' : Moves g v q d t' c') : Moves g v q c (t.append t') c'

section

variable {g : Graph} {v : View} {q : Prop} {c d c' : Coordinator} {t t' : Trace}

theorem Move.moves (h : Move g v q c t c') : Moves g v q c t c' := by
  have hone := Moves.cons h (.refl c')
  rw [Trace.append_none] at hone
  exact hone

theorem Moves.trans (h : Moves g v q c t d) (h' : Moves g v q d t' c') :
    Moves g v q c (t.append t') c' := by
  induction h with
  | refl => exact h'
  | cons hm _ ih =>
    rw [Trace.append_assoc]
    exact .cons hm (ih h')

variable {P Q : Coordinator → Trace → Prop} {b : Trace}

/-- What every move preserves, together with the trace so far, all moves preserve. -/
theorem Moves.preserves
    (hstep : ∀ c before t c', P c before → Move g v q c t c' → P c' (before.append t))
    (h : Moves g v q c t c') (h0 : P c b) : P c' (b.append t) := by
  induction h generalizing b with
  | refl =>
    rw [Trace.append_none]
    exact h0
  | cons hm _ ih =>
    rw [← Trace.append_assoc]
    exact ih (hstep _ _ _ _ h0 hm)

/-- What holds after a run, and before a move whenever it holds after it, holds before the run. -/
theorem Moves.back
    (hback : ∀ c before t c', Move g v q c t c' → Q c' (before.append t) → Q c before)
    (h : Moves g v q c t c') (hlast : Q c' (b.append t)) : Q c b := by
  induction h generalizing b with
  | refl =>
    rw [Trace.append_none] at hlast
    exact hlast
  | cons hm _ ih =>
    rw [← Trace.append_assoc] at hlast
    exact hback _ _ _ _ hm (ih hlast)

/-- A move may rely on what is known of the end of the run and holds all the way up to it. -/
theorem Moves.preserves_until
    (hback : ∀ c before t c', Move g v q c t c' → Q c' (before.append t) → Q c before)
    (hstep : ∀ c before t c', P c before → Move g v q c t c' → Q c' (before.append t) →
      P c' (before.append t)) (h : Moves g v q c t c') (hlast : Q c' (b.append t)) (h0 : P c b) :
    P c' (b.append t) := by
  induction h generalizing b with
  | refl =>
    rw [Trace.append_none]
    exact h0
  | cons hm hrest ih =>
    rw [← Trace.append_assoc] at hlast ⊢
    exact ih hlast (hstep _ _ _ _ h0 hm (hrest.back hback hlast))

/-! ### Flushing -/

private theorem processSegment_withSessions (c : Coordinator) (s : ResponseSession)
    (segment : TemplateSegment) (a : Option ResponseSession) (w : List ResponseSession) :
    (c.withSessions a w).processSegment v s segment =
      ((c.processSegment v s segment).1.withSessions a w, (c.processSegment v s segment).2) := by
  have hid : ∀ id, (c.withSessions a w).getOrCreateExecutionId id =
      ((c.getOrCreateExecutionId id).1.withSessions a w, (c.getOrCreateExecutionId id).2) := by
    intro id
    unfold getOrCreateExecutionId
    rw [show (c.withSessions a w).nodeExecutionIds = c.nodeExecutionIds from rfl]
    cases c.nodeExecutionIds[id]? with
    | none => rfl
    | some e => rfl
  have hread : ∀ (d : Coordinator) (selector : Selector),
      (d.withSessions a w).readAll selector = (d.readAll selector).withSessions a w := by
    intro d selector
    unfold readAll
    rw [show (d.withSessions a w).unread selector = d.unread selector from rfl]
    split <;> rfl
  cases segment with
  | text text =>
    unfold processSegment processTextSegment
    simp only [hid]
  | «variable» selector =>
    cases hskip : v.sourceSkipped selector with
    | true =>
      rw [processSegment_skipped v hskip, processSegment_skipped v hskip]
    | false =>
      rw [processSegment_variable v hskip, processSegment_variable v hskip, hid, hread]
      rfl

theorem left_eq_cons {s : ResponseSession} {segment : TemplateSegment}
    {rest : List TemplateSegment} (h : s.left = segment :: rest) :
    s.template.segments[s.index]? = some segment ∧ s.advance.left = rest := by
  unfold ResponseSession.left at h ⊢
  have hlt : s.index < s.template.segments.length := by
    by_contra hge
    rw [List.drop_eq_nil_of_le (Nat.le_of_not_lt hge)] at h
    cases h
  rw [List.drop_eq_getElem_cons hlt] at h
  obtain ⟨hhead, htail⟩ := List.cons.inj h
  exact ⟨by rw [List.getElem?_eq_getElem hlt, hhead], htail⟩

theorem moves_flushSegments (segments : List TemplateSegment) (c : Coordinator)
    (s : ResponseSession) (waiting : List ResponseSession) (h : s.left = segments) :
    Moves g v q (c.withSessions (some s) waiting)
      ⟨(flushSegments v segments c s).2.2.map (Emission.mk s.nodeId), []⟩
      ((flushSegments v segments c s).1.withSessions
        (some (flushSegments v segments c s).2.1) waiting) := by
  induction segments generalizing c s with
  | nil => exact .refl _
  | cons segment rest ih =>
    obtain ⟨hsegment, hleft⟩ := left_eq_cons h
    have hmove := Move.process (g := g) (v := v) (q := q) (c := c.withSessions (some s) waiting)
      rfl hsegment
    rw [processSegment_withSessions] at hmove
    rw [flushSegments_cons]
    by_cases hpass : c.passes v segment = true
    · rw [if_pos hpass]
      rw [show (c.withSessions (some s) waiting).passes v segment = c.passes v segment from rfl,
        if_pos hpass] at hmove
      have hrest := ih (c.processSegment v s segment).1 s.advance hleft
      simp only [List.map_append]
      exact .cons hmove hrest
    · rw [if_neg hpass]
      rw [show (c.withSessions (some s) waiting).passes v segment = c.passes v segment from rfl,
        if_neg hpass] at hmove
      exact hmove.moves

theorem moves_flushSession (waiting : List ResponseSession) (c : Coordinator)
    (s : ResponseSession) :
    Moves g v q (c.withSessions (some s) waiting) ⟨(flushSession v waiting c s).2, []⟩
      (flushSession v waiting c s).1 := by
  induction waiting generalizing c s with
  | nil =>
    have hloop := moves_flushSegments (g := g) (v := v) (q := q) s.left c s [] rfl
    unfold flushSession
    rw [show s.template.segments.drop s.index = s.left from rfl]
    generalize flushSegments v s.left c s = x at hloop
    obtain ⟨c₁, s₁, events⟩ := x
    simp only at hloop ⊢
    split
    next hdone =>
      have hend := hloop.trans
        (Move.finish (v := v) (c := c₁.withSessions (some s₁) []) rfl (.inl hdone)).moves
      rw [Trace.append_none] at hend
      exact hend
    next => exact hloop
  | cons next rest ih =>
    have hloop := moves_flushSegments (g := g) (v := v) (q := q) s.left c s (next :: rest) rfl
    unfold flushSession
    rw [show s.template.segments.drop s.index = s.left from rfl]
    generalize flushSegments v s.left c s = x at hloop
    obtain ⟨c₁, s₁, events⟩ := x
    simp only at hloop ⊢
    split
    next hdone =>
      have hend := hloop.trans (Move.finish (v := v)
        (c := c₁.withSessions (some s₁) (next :: rest)) rfl (.inl hdone)).moves
      have hnext := hend.trans (Move.next (v := v)
        (c := (c₁.withSessions (some s₁) (next :: rest)).withSessions none (next :: rest))
        rfl rfl).moves
      rw [Trace.append_none, Trace.append_none] at hnext
      exact hnext.trans (ih c₁ next)
    next => exact hloop

theorem moves_tryFlush (c : Coordinator) :
    Moves g v q c ⟨(c.tryFlush v).2, []⟩ (c.tryFlush v).1 := by
  unfold tryFlush
  cases hactive : c.activeSession with
  | none => exact .refl c
  | some s =>
    have h := moves_flushSession (g := g) (v := v) (q := q) c.waitingSessions c s
    rw [← hactive] at h
    exact h

/-! ### Calls -/

theorem moves_endSession (hq : q) (c : Coordinator) (nodeId : NodeId) :
    Moves g v q c ⟨(c.endSession v nodeId).2, []⟩ (c.endSession v nodeId).1 := by
  unfold endSession
  cases hactive : c.activeSession with
  | none => exact .refl c
  | some s =>
    simp only []
    split
    next =>
      have hend := (Move.finish (g := g) (v := v) hactive (.inr hq)).moves
      cases hwaiting : c.waitingSessions with
      | nil =>
        rw [hwaiting] at hend
        exact hend
      | cons next rest =>
        have hnext := hend.trans (Move.next (v := v) (c := c.withSessions none c.waitingSessions)
          rfl hwaiting).moves
        rw [Trace.append_none] at hnext
        exact hnext.trans (moves_flushSession rest c next)
    next => exact .refl c

theorem moves_activeOrQueueSession (hidle : c.Idle) (r : NodeId) :
    Moves g v q c ⟨(c.activeOrQueueSession v r).2, []⟩ (c.activeOrQueueSession v r).1 := by
  unfold activeOrQueueSession
  cases hs : c.responseSessions[r]? with
  | none => exact .refl c
  | some s =>
    simp only []
    cases hactive : c.activeSession with
    | none =>
      have hopen := Move.openFirst (g := g) (v := v) (q := q) hs hactive (hidle hactive)
      have hflush :=
        moves_tryFlush (g := g) (v := v) (q := q) ((c.openPending r).withSessions (some s) [])
      rw [← hidle hactive] at hopen hflush
      exact .cons hopen hflush
    | some active => exact (Move.openLater (g := g) (v := v) hs hactive).moves

private theorem moves_updateResponseNodes (edgeId : EdgeId) (ids : List NodeId)
    (hidle : c.Idle) :
    Moves g v q c ⟨(updateResponseNodes v edgeId ids c).2, []⟩
      (updateResponseNodes v edgeId ids c).1 := by
  induction ids generalizing c with
  | nil => exact .refl c
  | cons r ids ih =>
    have hone : Moves g v q c ⟨(c.updateResponseNode v edgeId r).2, []⟩
        (c.updateResponseNode v edgeId r).1 := by
      unfold updateResponseNode
      split
      next => exact .refl c
      next paths _ =>
        have hframe := Move.frame (g := g) (v := v) (q := q) (c := c)
          (c.pathsMaps.insert r (paths.map (·.erase edgeId))) c.nodeExecutionIds
        simp only []
        split
        next => exact .cons hframe (moves_activeOrQueueSession (by exact hidle) r)
        next => exact hframe.moves
    have hidle' : (c.updateResponseNode v edgeId r).1.Idle :=
      idle_updateResponseNodes v edgeId [r] hidle
    exact hone.trans (ih hidle')

private theorem moves_interceptChunk {event : StreamChunk} {sent : List Emission}
    (h : c.interceptChunk v event = .ok (c', sent)) : Moves g v q c ⟨sent, [event]⟩ c' := by
  obtain ⟨d, happend, rfl, rfl⟩ := interceptChunk_eq_ok h
  have hmove := Move.accept (g := g) (v := v) (q := q) happend
  have hflush := moves_tryFlush (g := g) (v := v) (q := q)
    (if event.isFinal = true then d.closeStream event.selector else d)
  exact .cons hmove hflush

/-- The outside of a call: the events it returns and the chunk it accepts. One that raises does
nothing. -/
def callTrace (call : Call) (answer : Except PyError (List Emission)) : Trace :=
  match answer with
  | .error _ => .none
  | .ok sent => ⟨sent, match call.kind with
      | .streamChunk event => [event]
      | _ => []⟩

/-- Every call is a run of the machine; only `end_session` ends a session from outside. -/
theorem moves_respond (hidle : c.Idle) (call : Call) :
    Moves g ⟨g, call.nodeState, call.variablePool⟩ (∃ nodeId, call.kind = .endSession nodeId) c
      (callTrace call (respond g c call).2) (respond g c call).1 := by
  unfold respond callTrace
  simp only []
  cases hkind : call.kind with
  | edgeTaken edgeId => exact moves_updateResponseNodes edgeId _ hidle
  | streamChunk event =>
    simp only []
    cases h : c.interceptChunk ⟨g, call.nodeState, call.variablePool⟩ event with
    | error e => exact .refl c
    | ok r => exact moves_interceptChunk h
  | nodeSucceeded => exact moves_tryFlush c
  | endSession nodeId => exact moves_endSession ⟨nodeId, rfl⟩ c nodeId
  | nodeStarted nodeId executionId => exact (Move.frame c.pathsMaps _).moves

end

end Coordinator
end PlatformSpec.Response
