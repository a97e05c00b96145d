import PlatformSpec.Response.Transparency

/-!
# The order in which an edge opens sessions

`on_edge_taken` iterates a set and opens a session whenever it meets a node that the edge makes
reachable. The sessions opened by one edge queue up behind an active one, or behind the first
of them that cannot complete at once; sessions that complete at once leave only their events.
-/

namespace PlatformSpec.Response

open Base PlatformSpec.Runtime Workflow

namespace Coordinator

variable (v : View)

/-- The session can complete in one flush. -/
def Completes (c : Coordinator) (s : ResponseSession) : Prop :=
  ∀ segment ∈ s.left, c.passes v segment = true

/-- Flushing the session sends no event. -/
def Silent (c : Coordinator) (s : ResponseSession) : Prop :=
  ∀ segment ∈ s.left, c.silent v segment = true

instance (c : Coordinator) (s : ResponseSession) : Decidable (c.Completes v s) :=
  inferInstanceAs (Decidable (∀ segment ∈ s.left, c.passes v segment = true))

instance (c : Coordinator) (s : ResponseSession) : Decidable (c.Silent v s) :=
  inferInstanceAs (Decidable (∀ segment ∈ s.left, c.silent v segment = true))

/-- The edge opens the pending session `s` of `r`. -/
def OpensSession (c : Coordinator) (edgeId : EdgeId) (r : NodeId) (s : ResponseSession) : Prop :=
  r ∈ c.responseNodes ∧ c.opens edgeId r = true ∧ c.responseSessions[r]? = some s

/-- The edge opens one session at most; or no session is active, all the sessions it opens can
complete at once, and all but one of them silently. -/
def OpensAlike (c : Coordinator) (edgeId : EdgeId) : Prop :=
  (∀ r s r' s', c.OpensSession edgeId r s → c.OpensSession edgeId r' s' → r = r') ∨
  c.activeSession = none ∧
    (∀ r s, c.OpensSession edgeId r s → c.Completes v s) ∧
    ∀ r s r' s', c.OpensSession edgeId r s → c.OpensSession edgeId r' s' →
      ¬ c.Silent v s → ¬ c.Silent v s' → r = r'

/-- What a caller sees: the active session, the waiting sessions and the events. -/
def observe (r : Coordinator × List Emission) :
    Option ResponseSession × List ResponseSession × List Emission :=
  (r.1.activeSession, r.1.waitingSessions, r.2)

/-! ### One session -/

/-- The events of a session flushed on its own. -/
def sessionEvents (c : Coordinator) (s : ResponseSession) : List Emission :=
  (flushSegments v s.left c s).2.2.map (Emission.mk s.nodeId)

theorem isComplete_flushSegments (c : Coordinator) (s : ResponseSession) :
    (flushSegments v s.left c s).2.1.isComplete = true ↔ c.Completes v s := by
  obtain ⟨hlow, hhigh, hend⟩ := flushSegments_index v s.left c s
  obtain ⟨-, i, hi⟩ := flushed_flushSegments v s.left c s
  unfold Completes
  rw [← hend]
  rw [hi] at hlow hhigh ⊢
  unfold ResponseSession.isComplete
  simp only [ResponseSession.left, decide_eq_true_eq, List.length_drop] at *
  omega

variable {c : Coordinator} {s active : ResponseSession} {r : NodeId}

private theorem activeOrQueueSession_idle (hactive : c.activeSession = none)
    (hidle : c.Idle) (hs : c.responseSessions[r]? = some s) :
    (c.activeOrQueueSession v r).2 = sessionEvents v c s ∧
      (c.activeOrQueueSession v r).1.waitingSessions = [] ∧
      (c.Completes v s → (c.activeOrQueueSession v r).1.activeSession = none) ∧
      (¬ c.Completes v s → ∃ i,
        (c.activeOrQueueSession v r).1.activeSession = some { s with index := i }) ∧
      SameStreams (flushSegments v s.left c s).1 (c.activeOrQueueSession v r).1 := by
  have hwaiting := hidle hactive
  unfold activeOrQueueSession
  simp only [hs, hactive, tryFlush]
  rw [hwaiting]
  generalize hd : ({ c with
    responseSessions := c.responseSessions.erase r
    activations := c.activations ++ [r]
    activeSession := some s
    waitingSessions := [] } : Coordinator) = d
  have hsame : SameStreams c d := by
    subst hd
    exact ⟨rfl, rfl, rfl, fun _ => rfl⟩
  obtain ⟨hevents, hstreams⟩ := flushSegments_congr v s.left hsame s
  have hcomplete := isComplete_flushSegments v c s
  obtain ⟨-, i, hi⟩ := flushed_flushSegments v s.left c s
  unfold flushSession sessionEvents
  rw [show s.template.segments.drop s.index = s.left from rfl]
  rw [← hevents] at hcomplete hi ⊢
  generalize flushSegments v s.left d s = x at hevents hstreams hcomplete hi
  obtain ⟨d', s', events⟩ := x
  simp only at hcomplete hi hstreams ⊢
  by_cases hc : c.Completes v s
  · rw [if_pos (hcomplete.mpr hc)]
    exact ⟨rfl, rfl, fun _ => rfl, fun hn => absurd hc hn,
      ⟨hstreams.buffers, hstreams.positions, hstreams.closed, hstreams.ids⟩⟩
  · rw [if_neg (fun h => hc (hcomplete.mp h))]
    exact ⟨rfl, rfl, fun h => absurd h hc, fun _ => ⟨i, by rw [hi]⟩,
      ⟨hstreams.buffers, hstreams.positions, hstreams.closed, hstreams.ids⟩⟩

private theorem activeOrQueueSession_busy
    (hactive : c.activeSession = some active) (hs : c.responseSessions[r]? = some s) :
    (c.activeOrQueueSession v r).2 = [] ∧
      (c.activeOrQueueSession v r).1.activeSession = some active ∧
      (c.activeOrQueueSession v r).1.waitingSessions = c.waitingSessions ++ [s] := by
  unfold activeOrQueueSession
  simp only [hs, hactive, and_self]

/-! ### Several sessions -/

private theorem openAll_busy (rs : List NodeId) (hnd : rs.Nodup)
    (hactive : c.activeSession = some active)
    (hpending : ∀ r ∈ rs, (c.responseSessions[r]?).isSome = true) :
    observe (openAll v rs c) = (some active,
      c.waitingSessions ++ rs.filterMap (c.responseSessions[·]?), []) := by
  induction rs generalizing c with
  | nil =>
    show (c.activeSession, c.waitingSessions, []) = _
    simp [hactive]
  | cons r rs ih =>
    obtain ⟨hr, hnd'⟩ := List.nodup_cons.mp hnd
    obtain ⟨hfirst, hrest⟩ := List.forall_mem_cons.mp hpending
    obtain ⟨s, hs⟩ := Option.isSome_iff_exists.mp hfirst
    obtain ⟨hevents, hactive', hwaiting⟩ := activeOrQueueSession_busy v hactive hs
    have hframe : ∀ r' ∈ rs,
        (c.activeOrQueueSession v r).1.responseSessions[r']? = c.responseSessions[r']? :=
      fun r' hr' => (activeOrQueueSession_frame v c r).2.2 r' fun he => hr (he ▸ hr')
    have hnext := ih hnd' hactive' fun r' hr' => (hframe r' hr').symm ▸ hrest r' hr'
    rw [List.filterMap_congr hframe, hwaiting] at hnext
    unfold openAll
    simp only [observe, Prod.mk.injEq] at hnext ⊢
    refine ⟨hnext.1, ?_, ?_⟩
    · rw [hnext.2.1, List.filterMap_cons_some hs, List.append_assoc]
      rfl
    · rw [hevents, hnext.2.2]
      rfl

private theorem waiting_flushSession (waiting : List ResponseSession) (c : Coordinator)
    (s : ResponseSession) :
    ∀ w ∈ (flushSession v waiting c s).1.waitingSessions, w ∈ waiting := by
  induction waiting generalizing c s with
  | nil =>
    unfold flushSession
    generalize flushSegments v (s.template.segments.drop s.index) c s = x
    obtain ⟨c', s', events⟩ := x
    simp only []
    split
    next => exact fun _ h => h
    next => exact fun _ h => h
  | cons next rest ih =>
    unfold flushSession
    generalize flushSegments v (s.template.segments.drop s.index) c s = x
    obtain ⟨c', s', events⟩ := x
    simp only []
    split
    next => exact fun w hw => List.mem_cons_of_mem _ (ih c' next w hw)
    next => exact fun _ h => h

/-- Every pending session belongs to the node it is filed under. -/
private def Filed (c : Coordinator) : Prop :=
  ∀ (r : NodeId) (s : ResponseSession), c.responseSessions[r]? = some s → s.nodeId = r

private theorem Filed.activeOrQueueSession (h : c.Filed) (r : NodeId) :
    (c.activeOrQueueSession v r).1.Filed := by
  intro r' s hs'
  by_cases hr : r' = r
  · cases hs : c.responseSessions[r]? with
    | none =>
      rw [activeOrQueueSession_absent v hs, hr, hs] at hs'
      cases hs'
    | some session =>
      rw [(activeOrQueueSession_pending v hs).responseSessions, hr] at hs'
      simp at hs'
  · rw [(activeOrQueueSession_frame v c r).2.2 r' hr] at hs'
    exact h r' s hs'

private theorem waiting_openAll (rs : List NodeId) (h : c.Filed) :
    ∀ w ∈ (openAll v rs c).1.waitingSessions, w ∈ c.waitingSessions ∨ w.nodeId ∈ rs := by
  induction rs generalizing c with
  | nil => exact fun w hw => .inl hw
  | cons r rs ih =>
    have hstep : ∀ w ∈ (c.activeOrQueueSession v r).1.waitingSessions,
        w ∈ c.waitingSessions ∨ w.nodeId = r := by
      unfold Coordinator.activeOrQueueSession
      cases hs : c.responseSessions[r]? with
      | none => exact fun w hw => .inl hw
      | some s =>
        simp only []
        cases hactive : c.activeSession with
        | none => exact fun w hw => .inl (waiting_flushSession v _ _ _ w hw)
        | some active =>
          intro w hw
          rcases List.mem_append.mp hw with hw | hw
          · exact .inl hw
          · rw [List.mem_singleton.mp hw]
            exact .inr (h r s hs)
    intro w hw
    rcases ih (h.activeOrQueueSession v r) w hw with hw | hw
    · rcases hstep w hw with hw | hw
      · exact .inl hw
      · exact .inr (hw ▸ List.mem_cons_self)
    · exact .inr (List.mem_cons_of_mem _ hw)

private theorem openAll_silent (rs : List NodeId) (hnd : rs.Nodup)
    (hactive : c.activeSession = none) (hidle : c.Idle)
    (hpending : ∀ r ∈ rs, ∃ s, c.responseSessions[r]? = some s ∧ c.Silent v s) :
    observe (openAll v rs c) = (none, [], []) := by
  induction rs generalizing c with
  | nil =>
    show (c.activeSession, c.waitingSessions, []) = _
    rw [hactive, hidle hactive]
  | cons r rs ih =>
    obtain ⟨hr, hnd'⟩ := List.nodup_cons.mp hnd
    obtain ⟨⟨s, hs, hsilent⟩, hrest⟩ := List.forall_mem_cons.mp hpending
    obtain ⟨hevents, -, hnone, -, hstreams⟩ := activeOrQueueSession_idle v hactive hidle hs
    obtain ⟨hsame, hnil⟩ := flushSegments_silent v hsilent s
    have hcompletes : c.Completes v s := fun segment hm =>
      (processSegment_silent v (hsilent segment hm) s).2.2
    have hadv := (hsame.trans hstreams).advanced
    have hnext := ih hnd' (hnone hcompletes) (idle_activeOrQueueSession v hidle r) fun r' hr' => ?_
    · unfold openAll
      simp only [observe, Prod.mk.injEq] at hnext ⊢
      refine ⟨hnext.1, hnext.2.1, ?_⟩
      rw [hevents, hnext.2.2]
      unfold sessionEvents
      rw [hnil]
      rfl
    · obtain ⟨s', hs', hsilent'⟩ := hrest r' hr'
      refine ⟨s', ?_, fun segment hm => hadv.silent v (hsilent' segment hm)⟩
      rw [(activeOrQueueSession_frame v c r).2.2 r' fun he => hr (he ▸ hr')]
      exact hs'

/-- The events of a node's pending session, flushed on its own. -/
def pendingEvents (c : Coordinator) (r : NodeId) : List Emission :=
  match c.responseSessions[r]? with
  | some s => if c.Silent v s then [] else sessionEvents v c s
  | none => []

private theorem openAll_completes (rs : List NodeId) (hnd : rs.Nodup) {d : Coordinator}
    (hactive : d.activeSession = none) (hidle : d.Idle) (hsame : SameStreams c d)
    (hsessions : ∀ r ∈ rs, d.responseSessions[r]? = c.responseSessions[r]?)
    (hcompletes : ∀ r ∈ rs, ∃ s, c.responseSessions[r]? = some s ∧ c.Completes v s)
    (hone : ∀ r ∈ rs, ∀ r' ∈ rs, ∀ s s', c.responseSessions[r]? = some s →
      c.responseSessions[r']? = some s' → ¬ c.Silent v s → ¬ c.Silent v s' → r = r') :
    observe (openAll v rs d) = (none, [], rs.flatMap (c.pendingEvents v)) := by
  induction rs generalizing d with
  | nil =>
    show (d.activeSession, d.waitingSessions, []) = _
    rw [hactive, hidle hactive]
    rfl
  | cons r rs ih =>
    obtain ⟨hr, hnd'⟩ := List.nodup_cons.mp hnd
    obtain ⟨⟨s, hs, hcomplete⟩, hrest⟩ := List.forall_mem_cons.mp hcompletes
    obtain ⟨hsession, hsessions'⟩ := List.forall_mem_cons.mp hsessions
    obtain ⟨hevents, -, hnone, -, hstreams⟩ :=
      activeOrQueueSession_idle v hactive hidle (hsession.trans hs)
    obtain ⟨hflush, hflushed⟩ := flushSegments_congr v s.left hsame s
    have hd : d.Completes v s := fun segment hm =>
      (hsame.advanced.passes v segment).trans (hcomplete segment hm)
    have hidle' := idle_activeOrQueueSession v hidle r
    have hframe : ∀ r' ∈ rs,
        (d.activeOrQueueSession v r).1.responseSessions[r']? = c.responseSessions[r']? := by
      intro r' hr'
      rw [(activeOrQueueSession_frame v d r).2.2 r' fun he => hr (he ▸ hr')]
      exact hsessions' r' hr'
    unfold openAll
    by_cases hsilent : c.Silent v s
    · -- Nothing has happened to the streams yet.
      obtain ⟨hkeep, hnil⟩ := flushSegments_silent v hsilent s
      have hnext := ih hnd' (hnone hd) hidle' ((hkeep.trans hflushed).trans hstreams) hframe hrest
        fun r₁ h₁ r₂ h₂ => hone r₁ (List.mem_cons_of_mem _ h₁) r₂ (List.mem_cons_of_mem _ h₂)
      simp only [observe, Prod.mk.injEq] at hnext ⊢
      refine ⟨hnext.1, hnext.2.1, ?_⟩
      rw [hevents, hnext.2.2, List.flatMap_cons]
      unfold sessionEvents
      rw [hflush, hnil]
      simp [pendingEvents, hs, hsilent]
    · -- This session sends its events; the later ones have none.
      have hlater : ∀ r' ∈ rs, ∃ s', c.responseSessions[r']? = some s' ∧ c.Silent v s' := by
        intro r' hr'
        obtain ⟨s', hs', -⟩ := hrest r' hr'
        refine ⟨s', hs', ?_⟩
        by_contra hnot
        have he := hone r List.mem_cons_self r' (List.mem_cons_of_mem _ hr') s s' hs hs' hsilent
          hnot
        exact hr (he ▸ hr')
      have hadv := (hsame.advanced.trans (advanced_flushSegments v s.left d s)).trans
        hstreams.advanced
      have hnext := openAll_silent v rs hnd' (hnone hd) hidle' fun r' hr' => ?_
      · have hnil : rs.flatMap (c.pendingEvents v) = [] := by
          refine List.flatMap_eq_nil_iff.mpr fun r' hr' => ?_
          obtain ⟨s', hs', hsilent'⟩ := hlater r' hr'
          simp [pendingEvents, hs', hsilent']
        simp only [observe, Prod.mk.injEq] at hnext ⊢
        refine ⟨hnext.1, hnext.2.1, ?_⟩
        rw [hevents, hnext.2.2, List.flatMap_cons, hnil]
        unfold sessionEvents
        rw [hflush]
        simp [pendingEvents, hs, hsilent, sessionEvents]
      · obtain ⟨s', hs', hsilent'⟩ := hlater r' hr'
        exact ⟨s', (hframe r' hr').trans hs', fun segment hm =>
          hadv.silent v (hsilent' segment hm)⟩

/-! ### All orders -/

/-- The sessions an edge opens when the set is iterated in order `o`. -/
private def opened (c : Coordinator) (edgeId : EdgeId) (o : SetOrder NodeId) : List NodeId :=
  (o.iterate c.responseNodes).filter (c.opens edgeId)

private theorem observe_onEdgeTaken (c : Coordinator) (o : SetOrder NodeId) (edgeId : EdgeId) :
    observe ({ c with setOrder := o }.onEdgeTaken v edgeId) =
      observe (openAll v (c.opened edgeId o) c) := by
  obtain ⟨m, a, heq⟩ := onEdgeTaken_inOrder v c o edgeId
  rw [heq]
  rfl

private theorem nodup_opened (c : Coordinator) (edgeId : EdgeId) (o : SetOrder NodeId) :
    (c.opened edgeId o).Nodup := (o.nodup_iterate _).filter _

private theorem mem_opened (c : Coordinator) (edgeId : EdgeId) (o : SetOrder NodeId)
    (r : NodeId) : r ∈ c.opened edgeId o ↔ ∃ s, c.OpensSession edgeId r s := by
  unfold opened OpensSession
  rw [List.mem_filter, SetOrder.mem_iterate]
  constructor
  · rintro ⟨hr, hopens⟩
    have hsome : (c.responseSessions[r]?).isSome = true :=
      (Bool.and_eq_true_iff.mp hopens).1
    obtain ⟨s, hs⟩ := Option.isSome_iff_exists.mp hsome
    exact ⟨s, hr, hopens, hs⟩
  · rintro ⟨s, hr, hopens, -⟩
    exact ⟨hr, hopens⟩

private theorem perm_opened (c : Coordinator) (edgeId : EdgeId) (o o' : SetOrder NodeId) :
    (c.opened edgeId o).Perm (c.opened edgeId o') :=
  ((o.perm _).trans (o'.perm _).symm).filter _

private theorem opened_first {edgeId : EdgeId} (h : c.OpensSession edgeId r s) :
    ∃ rest, c.opened edgeId (SetOrder.first r) = r :: rest := by
  unfold opened
  rw [SetOrder.iterate_first h.1, List.filter_cons_of_pos h.2.1]
  exact ⟨_, rfl⟩

theorem flatMap_eq_of_perm {α β : Type} {f : α → List β} {l l' : List α} (h : l.Perm l')
    (hone : ∀ a ∈ l, ∀ b ∈ l, f a ≠ [] → f b ≠ [] → a = b) : l.flatMap f = l'.flatMap f := by
  have hfilter : ∀ l : List α, l.flatMap f = (l.filter fun a => !(f a).isEmpty).flatMap f := by
    intro l
    induction l with
    | nil => rfl
    | cons a l ih =>
      rw [List.flatMap_cons, ih, List.filter_cons]
      split
      next => rw [List.flatMap_cons]
      next hnil =>
        have hempty : f a = [] := by simpa using hnil
        rw [hempty, List.nil_append]
  rw [hfilter l, hfilter l', eq_of_perm_of_unique (h.filter _) fun a ha b hb => ?_]
  obtain ⟨ha, hfa⟩ := List.mem_filter.mp ha
  obtain ⟨hb, hfb⟩ := List.mem_filter.mp hb
  exact hone a ha b hb (by simpa using hfa) (by simpa using hfb)

section Orders

variable {g : Graph} {c : Coordinator} {edgeId : EdgeId}

private theorem observe_of_opensAlike (h : Reachable g c) (hopens : c.OpensAlike v edgeId)
    (o o' : SetOrder NodeId) :
    observe (openAll v (c.opened edgeId o) c) = observe (openAll v (c.opened edgeId o') c) := by
  rcases hopens with hone | ⟨hactive, hcomplete, hspeak⟩
  · rw [eq_of_perm_of_unique (c.perm_opened edgeId o o') fun r hr r' hr' => ?_]
    obtain ⟨s, hs⟩ := (c.mem_opened edgeId o r).mp hr
    obtain ⟨s', hs'⟩ := (c.mem_opened edgeId o r').mp hr'
    exact hone r s r' s' hs hs'
  · have hall : ∀ o, observe (openAll v (c.opened edgeId o) c) =
        (none, [], (c.opened edgeId o).flatMap (c.pendingEvents v)) := by
      intro o
      refine openAll_completes v _ (c.nodup_opened edgeId o) hactive h.idle (.refl c)
        (fun _ _ => rfl) (fun r hr => ?_) fun r hr r' hr' s s' hs hs' => ?_
      · obtain ⟨s, hs⟩ := (c.mem_opened edgeId o r).mp hr
        exact ⟨s, hs.2.2, hcomplete r s hs⟩
      · obtain ⟨t, ht⟩ := (c.mem_opened edgeId o r).mp hr
        obtain ⟨t', ht'⟩ := (c.mem_opened edgeId o r').mp hr'
        exact hspeak r s r' s' ⟨ht.1, ht.2.1, hs⟩ ⟨ht'.1, ht'.2.1, hs'⟩
    rw [hall, hall]
    rw [flatMap_eq_of_perm (c.perm_opened edgeId o o') fun r hr r' hr' hne hne' => ?_]
    obtain ⟨s, hs⟩ := (c.mem_opened edgeId o r).mp hr
    obtain ⟨s', hs'⟩ := (c.mem_opened edgeId o r').mp hr'
    refine hspeak r s r' s' hs hs' (fun hsilent => hne ?_) fun hsilent => hne' ?_
    · simp [pendingEvents, hs.2.2, hsilent]
    · simp [pendingEvents, hs'.2.2, hsilent]

variable {r r' : NodeId}

private theorem active_eq_none (hwf : WF g c) {s s' : ResponseSession}
    (hne : r ≠ r') (hr : c.OpensSession edgeId r s) (hr' : c.OpensSession edgeId r' s')
    (hsame : ∀ o o', observe (openAll v (c.opened edgeId o) c) =
      observe (openAll v (c.opened edgeId o') c)) : c.activeSession = none := by
  cases hactive : c.activeSession with
  | none => rfl
  | some active =>
    exfalso
    have hbusy : ∀ o, observe (openAll v (c.opened edgeId o) c) = (some active,
        c.waitingSessions ++ (c.opened edgeId o).filterMap (c.responseSessions[·]?), []) := by
      intro o
      refine openAll_busy v _ (c.nodup_opened edgeId o) hactive fun x hx => ?_
      obtain ⟨t, ht⟩ := (c.mem_opened edgeId o x).mp hx
      rw [ht.2.2]
      rfl
    obtain ⟨rest, hrest⟩ := opened_first hr
    obtain ⟨rest', hrest'⟩ := opened_first hr'
    have heq := hsame (SetOrder.first r) (SetOrder.first r')
    rw [hbusy, hbusy, hrest, hrest', List.filterMap_cons_some hr.2.2,
      List.filterMap_cons_some hr'.2.2] at heq
    have hlist := List.append_cancel_left (congrArg (fun x => x.2.1) heq)
    have hhead := (List.cons.inj hlist).1
    apply hne
    rw [← (hwf.pending r s hr.2.2).1, hhead, (hwf.pending r' s' hr'.2.2).1]

private theorem completes_of_same (h : Reachable g c) (hactive : c.activeSession = none)
    {s s' : ResponseSession} (hne : r ≠ r') (hr : c.OpensSession edgeId r s)
    (hr' : c.OpensSession edgeId r' s') (hsame : ∀ o o', observe (openAll v (c.opened edgeId o) c) =
      observe (openAll v (c.opened edgeId o') c)) : c.Completes v s := by
  by_contra hnot
  have hfiled : c.Filed := fun r s hs => (h.wf.pending r s hs).1
  obtain ⟨rest, hrest⟩ := opened_first hr
  obtain ⟨rest', hrest'⟩ := opened_first hr'
  -- Opened first, `r` becomes active and `r'` has to wait.
  have hwaits : s' ∈ (openAll v (c.opened edgeId (SetOrder.first r)) c).1.waitingSessions := by
    obtain ⟨-, hwaiting, -, hactive', -⟩ := activeOrQueueSession_idle v hactive h.idle hr.2.2
    obtain ⟨i, hi⟩ := hactive' hnot
    have hnd := c.nodup_opened edgeId (SetOrder.first r)
    have hmem := (c.mem_opened edgeId (SetOrder.first r) r').mpr ⟨s', hr'⟩
    have hall : ∀ x ∈ c.opened edgeId (SetOrder.first r), ∃ t, c.responseSessions[x]? = some t :=
      fun x hx => ((c.mem_opened edgeId _ x).mp hx).imp fun t ht => ht.2.2
    rw [hrest] at hnd hmem hall ⊢
    obtain ⟨hr_rest, hnd'⟩ := List.nodup_cons.mp hnd
    have hframe : ∀ x ∈ rest,
        (c.activeOrQueueSession v r).1.responseSessions[x]? = c.responseSessions[x]? :=
      fun x hx => (activeOrQueueSession_frame v c r).2.2 x fun he => hr_rest (he ▸ hx)
    have hbusy := openAll_busy v rest hnd' hi fun x hx => by
      obtain ⟨t, ht⟩ := hall x (List.mem_cons_of_mem _ hx)
      rw [hframe x hx, ht]
      rfl
    have hlist := congrArg (fun x => x.2.1) hbusy
    simp only [observe, hwaiting, List.nil_append] at hlist
    show s' ∈ (openAll v rest (c.activeOrQueueSession v r).1).1.waitingSessions
    rw [hlist, List.mem_filterMap]
    have hin : r' ∈ rest := (List.mem_cons.mp hmem).resolve_left fun he => hne he.symm
    exact ⟨r', hin, (hframe r' hin).trans hr'.2.2⟩
  -- Opened first, `r'` does not wait.
  have heq := congrArg (fun x => x.2.1) (hsame (SetOrder.first r) (SetOrder.first r'))
  simp only [observe] at heq
  rw [heq, hrest'] at hwaits
  obtain ⟨-, hwaiting, -, -, -⟩ := activeOrQueueSession_idle v hactive h.idle hr'.2.2
  have hnd := c.nodup_opened edgeId (SetOrder.first r')
  rw [hrest'] at hnd
  rcases waiting_openAll v rest' (hfiled.activeOrQueueSession v r') s' hwaits with hw | hw
  · rw [hwaiting] at hw
    cases hw
  · rw [hfiled r' s' hr'.2.2] at hw
    exact (List.nodup_cons.mp hnd).1 hw

private theorem unique_of_same (h : Reachable g c) (hactive : c.activeSession = none)
    {s s' : ResponseSession} (hr : c.OpensSession edgeId r s)
    (hr' : c.OpensSession edgeId r' s') (hcomplete : c.Completes v s)
    (hcomplete' : c.Completes v s') (hspeaks : ¬ c.Silent v s) (hspeaks' : ¬ c.Silent v s')
    (hsame : ∀ o o', observe (openAll v (c.opened edgeId o) c) =
      observe (openAll v (c.opened edgeId o') c)) : r = r' := by
  have hhead : ∀ r s, c.OpensSession edgeId r s → c.Completes v s → ¬ c.Silent v s →
      (openAll v (c.opened edgeId (SetOrder.first r)) c).2.head?.map Emission.session = some r := by
    intro r s hr hcomplete hspeaks
    obtain ⟨rest, hrest⟩ := opened_first hr
    obtain ⟨hevents, -⟩ := activeOrQueueSession_idle v hactive h.idle hr.2.2
    have hne : (flushSegments v s.left c s).2.2 ≠ [] := fun hnil =>
      hspeaks ((flushSegments_eq_nil v hcomplete s).mp hnil)
    obtain ⟨event, events, he⟩ := List.exists_cons_of_ne_nil hne
    rw [hrest]
    unfold openAll
    simp only [hevents, sessionEvents, he, List.map_cons, List.cons_append, List.head?_cons,
      Option.map_some, Option.some.injEq]
    exact (h.wf.pending r s hr.2.2).1
  have heq : (openAll v (c.opened edgeId (SetOrder.first r)) c).2 =
      (openAll v (c.opened edgeId (SetOrder.first r')) c).2 :=
    congrArg (fun x => x.2.2) (hsame (SetOrder.first r) (SetOrder.first r'))
  have hfirst := hhead r s hr hcomplete hspeaks
  rw [heq, hhead r' s' hr' hcomplete' hspeaks'] at hfirst
  exact (Option.some.inj hfirst).symm

/-- For every reachable coordinator and every edge: the events, the active session and the
waiting sessions are the same in every iteration order of the response nodes exactly if the
edge opens one session at most, or opens only sessions that complete at once while none is
active, all but one of them silently. -/
theorem order_irrelevant_iff (h : Reachable g c) (edgeId : EdgeId) :
    (∀ o o', observe ({ c with setOrder := o }.onEdgeTaken v edgeId) =
      observe ({ c with setOrder := o' }.onEdgeTaken v edgeId)) ↔ c.OpensAlike v edgeId := by
  simp only [observe_onEdgeTaken]
  refine ⟨fun hsame => ?_, fun hopens o o' => observe_of_opensAlike v h hopens o o'⟩
  by_cases hone : ∀ r s r' s', c.OpensSession edgeId r s → c.OpensSession edgeId r' s' → r = r'
  · exact .inl hone
  · simp only [not_forall] at hone
    obtain ⟨r, s, r', s', hr, hr', hne⟩ := hone
    have hactive := active_eq_none v h.wf hne hr hr' hsame
    have hcompletes : ∀ x t, c.OpensSession edgeId x t → c.Completes v t := by
      intro x t hx
      by_cases hxr : x = r
      · exact completes_of_same v h hactive (fun he => hne (hxr.symm.trans he)) hx hr' hsame
      · exact completes_of_same v h hactive hxr hx hr hsame
    refine .inr ⟨hactive, hcompletes, fun x t x' t' hx hx' hspeaks hspeaks' => ?_⟩
    exact unique_of_same v h hactive hx hx' (hcompletes x t hx) (hcompletes x' t' hx') hspeaks
      hspeaks' hsame

end Orders

/-- Nothing has run yet. -/
private def atStart : View := ⟨twoReplies, fun _ => .unknown, .empty⟩

theorem reachable_of_register {nodes : List Node} (hnodes : ∀ n ∈ nodes, n ∈ twoReplies.nodes)
    (h : (nodes.foldlM (fun c n => register c twoReplies n) {}).toOption = some c) :
    Reachable twoReplies c := by
  have hall : ∀ (nodes : List Node) (d : Coordinator), (∀ n ∈ nodes, n ∈ twoReplies.nodes) →
      Reachable twoReplies d →
      (nodes.foldlM (fun c n => register c twoReplies n) d).toOption = some c →
      Reachable twoReplies c := by
    intro nodes
    induction nodes with
    | nil =>
      intro d _ hd hc
      cases hc
      exact hd
    | cons n nodes ih =>
      intro d hmem hd hc
      obtain ⟨hn, hrest⟩ := List.forall_mem_cons.mp hmem
      rw [List.foldlM_cons] at hc
      cases hreg : register d twoReplies n with
      | error e =>
        rw [hreg] at hc
        cases hc
      | ok d' =>
        rw [hreg] at hc
        exact ih d' hrest (.register hd hn hreg) hc
  exact hall nodes {} hnodes (.fresh .ascending) h

theorem order_irrelevant_hello : ∃ c, Reachable twoReplies c ∧ "hello" ∈ c.responseNodes ∧
    ∀ o o', observe ({ c with setOrder := o }.onEdgeTaken atStart "e0") =
      observe ({ c with setOrder := o' }.onEdgeTaken atStart "e0") := by
  obtain ⟨c, hc, hnodes⟩ : ∃ c,
      ([helloNode].foldlM (fun c n => register c twoReplies n) {}).toOption = some c ∧
      c.responseNodes.toList = ["hello"] := by
    decide +kernel
  have hreach := reachable_of_register (by simp [twoReplies]) hc
  have hmem : ∀ r, r ∈ c.responseNodes ↔ r = "hello" := by
    intro r
    rw [← Std.ExtTreeSet.mem_toList, hnodes, List.mem_singleton]
  refine ⟨c, hreach, (hmem "hello").mpr rfl, (order_irrelevant_iff atStart hreach "e0").mpr ?_⟩
  exact .inl fun r s r' s' hr hr' => ((hmem r).mp hr.1).trans ((hmem r').mp hr'.1).symm

/-- One edge opens both sessions of `twoReplies`, and the order of their events is that of the
set. -/
theorem order_shows_twoReplies : ∃ c, Reachable twoReplies c ∧
    (({ c with setOrder := .ascending } : Coordinator).onEdgeTaken atStart "e0").2.map
        Emission.session = ["bye", "hello"] ∧
    (({ c with setOrder := .descending } : Coordinator).onEdgeTaken atStart "e0").2.map
        Emission.session = ["hello", "bye"] := by
  obtain ⟨c, hc, horders⟩ : ∃ c,
      ([helloNode, byeNode].foldlM (fun c n => register c twoReplies n) {}).toOption = some c ∧
      (({ c with setOrder := .ascending } : Coordinator).onEdgeTaken atStart "e0").2.map
        Emission.session = ["bye", "hello"] ∧
      (({ c with setOrder := .descending } : Coordinator).onEdgeTaken atStart "e0").2.map
        Emission.session = ["hello", "bye"] := by
    decide +kernel
  exact ⟨c, reachable_of_register (by simp [twoReplies]) hc, horders⟩

end Coordinator
end PlatformSpec.Response
