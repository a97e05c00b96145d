import PlatformSpec.Engine.Retry
import PlatformSpec.Scheduling.Places

/-!
# The retry protocol

How many attempts a node has had, its retry count and the events collected for it belong
together: while the node is still to be run all its attempts so far have failed and were
retried; once it has ended it either succeeded or used up its retries. When a handler raises
the dispatcher stops, and what is left is that nothing exceeds its bound.
-/

namespace PlatformSpec.Scheduling

open Base Workflow Engine PlatformSpec.Runtime
  Response
open Engine.EngineState (SameTrials)

/-- The first `c` attempts failed and each was followed by a retry, at most `m` in all. -/
structure Retried (v : NodeId) (m : Nat) (outcome : Nat → Attempt) (c : Nat) (x : EngineState) :
    Prop where
  count : x.retryCount v = c
  le : c ≤ m
  failed : ∀ i < c, (outcome i).isFailed = true

/-- After `c` retries the node succeeded, or its retries were used up and the error strategy
was applied to the last failure. -/
def Concluded (g : Graph) (v : NodeId) (m : Nat) (outcome : Nat → Attempt) (c : Nat)
    (x : EngineState) : Prop :=
  ((outcome c).isFailed = false ∧ x.errorEvents v = retryEvents v outcome c) ∨
    c = m ∧ (outcome m).isFailed = true ∧
      x.errorEvents v = retryEvents v outcome m ++ [strategyEvent g v (outcome m)]

/-- The state of affairs while the dispatcher goes on: `k` attempts have ended and workers have
started the node `times` times. -/
structure Tried (g : Graph) (v : NodeId) (m : Nat) (outcome : Nat → Attempt) (S D : Set NodeId)
    (k times c : Nat) (x : EngineState) (running : List NodeId) : Prop where
  placed : Placed g S D x running
  retried : Retried v m outcome c x
  times_le : times ≤ k + 1
  times_eq : ¬ Waiting x v → times = k + running.count v
  idle : v ∉ S → k = 0
  going : v ∉ D → k = c ∧ x.errorEvents v = retryEvents v outcome c
  stopped : v ∈ D → k = c + 1 ∧ Concluded g v m outcome c x

/-- What holds of every state, also after a handler has raised. -/
structure Bounded (g : Graph) (v : NodeId) (m : Nat) (outcome : Nat → Attempt) (times c : Nat)
    (x : EngineState) : Prop where
  retried : Retried v m outcome c x
  events : x.errorEvents v = retryEvents v outcome c ∨ Concluded g v m outcome c x
  times_le : times + x.tracking.readyQueue.count v ≤ c + 1
  queued : v ∈ x.tracking.readyQueue → v ∈ x.tracking.executingNodes
  concluded : 0 < times → v ∉ x.tracking.executingNodes → ¬ Waiting x v →
    times = c + 1 ∧ Concluded g v m outcome c x

section Account

variable {g : Graph} {v u : NodeId} {m : Nat} {outcome : Nat → Attempt} {S S' D D' : Set NodeId}
  {k times c : Nat} {x y : EngineState} {running : List NodeId}

theorem Retried.congr (h : Retried v m outcome c x) (hs : SameTrials v x y) :
    Retried v m outcome c y :=
  ⟨hs.retryCount.trans h.count, h.le, h.failed⟩

theorem Concluded.congr (h : Concluded g v m outcome c x) (hs : SameTrials v x y) :
    Concluded g v m outcome c y := by
  unfold Concluded
  rw [hs.errorEvents]
  exact h

namespace Tried

theorem active (h : Tried g v m outcome S D k times c x running)
    (hv : v ∈ x.tracking.readyQueue ++ running) :
    k = c ∧ times = k + running.count v ∧ x.errorEvents v = retryEvents v outcome c := by
  obtain ⟨-, hD⟩ := (h.placed.active v).mp (.inl hv)
  obtain ⟨hk, hev⟩ := h.going hD
  exact ⟨hk, h.times_eq (h.placed.active_not_waiting v hv), hev⟩

theorem untried (h : Tried g v m outcome S D k times c x running) (hv : v ∉ S) :
    times = 0 ∧ x.tracking.readyQueue.count v = 0 := by
  obtain ⟨hnot, hw⟩ := h.placed.occupied.not_scheduled hv
  obtain ⟨hq, hr⟩ := not_or.mp (List.mem_append.not.mp hnot)
  rw [h.times_eq hw, h.idle hv, List.count_eq_zero_of_not_mem hr]
  exact ⟨rfl, List.count_eq_zero_of_not_mem hq⟩

theorem bounded (h : Tried g v m outcome S D k times c x running) :
    Bounded g v m outcome times c x := by
  refine ⟨h.retried, ?_, ?_, fun hq => (h.placed.executing v).mpr (List.mem_append_left _ hq), ?_⟩
  · by_cases hD : v ∈ D
    · exact .inr (h.stopped hD).2
    · exact .inl (h.going hD).2
  · by_cases hact : v ∈ x.tracking.readyQueue ++ running
    · obtain ⟨hk, ht, -⟩ := h.active hact
      have hone := List.nodup_iff_count_le_one.mp h.placed.active_nodup v
      rw [List.count_append] at hone
      omega
    · have hq : x.tracking.readyQueue.count v = 0 :=
        List.count_eq_zero_of_not_mem fun hq => hact (List.mem_append_left _ hq)
      have hr : running.count v = 0 :=
        List.count_eq_zero_of_not_mem fun hr => hact (List.mem_append_right _ hr)
      by_cases hD : v ∈ D
      · have hw : ¬ Waiting x v := fun hw => ((h.placed.active v).mp (.inr hw)).2 hD
        have := (h.stopped hD).1
        have := h.times_eq hw
        omega
      · have := (h.going hD).1
        have := h.times_le
        omega
  · intro hpos hexec hw
    have hact : v ∉ x.tracking.readyQueue ++ running := fun hv =>
      hexec ((h.placed.executing v).mpr hv)
    have hr : running.count v = 0 :=
      List.count_eq_zero_of_not_mem fun hr => hact (List.mem_append_right _ hr)
    have ht := h.times_eq hw
    by_cases hD : v ∈ D
    · obtain ⟨hk, hcon⟩ := h.stopped hD
      exact ⟨by omega, hcon⟩
    · have hS : v ∉ S := by
        intro hS
        rcases (h.placed.active v).mpr ⟨hS, hD⟩ with hv | hv
        · exact hact hv
        · exact hw hv
      have := h.idle hS
      omega

theorem congr (h : Tried g v m outcome S D k times c x running) (ht : y.tracking = x.tracking)
    (hw : ∀ w, Waiting y w ↔ Waiting x w) (hs : SameTrials v x y) :
    Tried g v m outcome S D k times c y running := by
  refine ⟨h.placed.congr ht hw, h.retried.congr hs, h.times_le, ?_, h.idle, ?_, ?_⟩
  · rw [hw]
    exact h.times_eq
  · rw [hs.errorEvents]
    exact h.going
  · exact fun hD => ⟨(h.stopped hD).1, (h.stopped hD).2.congr hs⟩

theorem take (h : Tried g v m outcome S D k times c x running) {id : NodeId}
    {rest : List NodeId} (hq : x.tracking.readyQueue = id :: rest) :
    Tried g v m outcome S D k (times + if id = v then 1 else 0) c
      { x with tracking := { x.tracking with readyQueue := rest } } (running ++ [id]) := by
  have hplaced := h.placed.take hq
  refine ⟨hplaced, ⟨h.retried.count, h.retried.le, h.retried.failed⟩, ?_, ?_, h.idle, h.going,
    h.stopped⟩
  · split
    next hid =>
      subst hid
      have hin : id ∈ x.tracking.readyQueue ++ running := by simp [hq]
      obtain ⟨-, ht, -⟩ := h.active hin
      have hone := List.nodup_iff_count_le_one.mp h.placed.active_nodup id
      rw [hq, List.cons_append, List.count_cons_self, List.count_append] at hone
      omega
    next => exact h.times_le
  · intro hw
    rw [h.times_eq hw, List.count_append, List.count_singleton, Nat.add_assoc]
    by_cases hid : id = v <;> simp [hid]

theorem other (h : Tried g v m outcome S D k times c x running) (hne : u ≠ v)
    (hS : S ⊆ S') (hD : D' = D ∨ D' = insert u D) (hw : ∀ w, Waiting x w → Waiting y w)
    (hplaced : Placed g S' D' y (running.erase u)) (hs : SameTrials v x y) :
    Tried g v m outcome S' D' k times c y (running.erase u) := by
  have hmem : v ∈ D' ↔ v ∈ D := by
    rcases hD with rfl | rfl
    · rfl
    · rw [Set.mem_insert_iff, or_iff_right hne.symm]
  refine ⟨hplaced, h.retried.congr hs, h.times_le, fun hy => ?_, fun hv => h.idle fun hv' =>
    hv (hS hv'), ?_, ?_⟩
  · rw [List.count_erase_of_ne hne.symm]
    exact h.times_eq fun hx => hy (hw v hx)
  · rw [hmem, hs.errorEvents]
    exact h.going
  · rw [hmem]
    exact fun hv => ⟨(h.stopped hv).1, (h.stopped hv).2.congr hs⟩

theorem times_running (h : Tried g v m outcome S D k times c x running) (hv : v ∈ running) :
    k = c ∧ times = c + 1 ∧ (running.erase v).count v = 0 ∧
      x.errorEvents v = retryEvents v outcome c ∧ v ∈ S ∧ v ∉ D := by
  obtain ⟨hk, ht, hev⟩ := h.active (List.mem_append_right _ hv)
  have hnd := (List.nodup_append.mp h.placed.active_nodup).2.1
  obtain ⟨hS, hD⟩ := h.placed.running_mem hv
  rw [List.count_eq_one_of_mem hnd hv] at ht
  refine ⟨hk, by omega, ?_, hev, hS, hD⟩
  rw [List.count_erase_self, List.count_eq_one_of_mem hnd hv]

theorem ended (h : Tried g v m outcome S D k times c x running) (hv : v ∈ running) (hS : S ⊆ S')
    (hplaced : Placed g S' (insert v D) y (running.erase v)) (hr : Retried v m outcome c y)
    (hcon : Concluded g v m outcome c y) :
    Tried g v m outcome S' (insert v D) (k + 1) times c y (running.erase v) := by
  obtain ⟨hk, ht, hcount, -, hvS, -⟩ := h.times_running hv
  refine ⟨hplaced, hr, by omega, fun _ => by omega, fun hn => absurd (hS hvS) hn, fun hn => ?_,
    fun _ => ⟨by omega, hcon⟩⟩
  exact absurd (Set.mem_insert v D) hn

theorem retry (h : Tried g v m outcome S D k times c x running) (hv : v ∈ running)
    (hplaced : Placed g S D y (running.erase v)) (hr : Retried v m outcome (c + 1) y)
    (hev : y.errorEvents v = retryEvents v outcome (c + 1)) :
    Tried g v m outcome S D (k + 1) times (c + 1) y (running.erase v) := by
  obtain ⟨hk, ht, hcount, -, hvS, hvD⟩ := h.times_running hv
  exact ⟨hplaced, hr, by omega, fun _ => by omega, fun hn => absurd hvS hn,
    fun _ => ⟨by omega, hev⟩, fun hn => absurd hn hvD⟩

theorem setAside (h : Tried g v m outcome S D k times c x running) (hv : v ∈ running)
    (hplaced : Placed g S D y (running.erase v)) (hw : Waiting y v) (hs : SameTrials v x y) :
    Tried g v m outcome S D k times c y (running.erase v) := by
  obtain ⟨hk, ht, -, hev, hvS, hvD⟩ := h.times_running hv
  refine ⟨hplaced, h.retried.congr hs, by omega, fun hn => absurd hw hn, fun hn => absurd hvS hn,
    fun _ => ⟨hk, hs.errorEvents.trans hev⟩, fun hn => absurd hn hvD⟩

theorem interrupted (h : Tried g v m outcome S D k times c x running)
    (hi : Interrupted g S x y) (hs : SameTrials v x y) : Bounded g v m outcome times c y := by
  obtain ⟨⟨L, hadv⟩, hw⟩ := hi
  have hb := h.bounded
  refine ⟨h.retried.congr hs, ?_, ?_, ?_, fun hpos hexec hy => ?_⟩
  · rw [hs.errorEvents]
    exact hb.events.imp_right (·.congr hs)
  · rw [hadv.readyQueue, List.count_append]
    by_cases hv : v ∈ L
    · obtain ⟨ht, hq⟩ := h.untried (hadv.disjoint v hv)
      rw [List.count_eq_one_of_mem hadv.nodup hv]
      omega
    · rw [List.count_eq_zero_of_not_mem hv]
      exact hb.times_le
  · rw [hadv.readyQueue, hadv.executing, List.mem_append, Finset.mem_union, List.mem_toFinset]
    exact Or.imp_left hb.queued
  · rw [hadv.executing, Finset.mem_union, not_or] at hexec
    obtain ⟨ht, hcon⟩ := hb.concluded hpos hexec.1 fun hx => hy ((hw v).mpr hx)
    exact ⟨ht, hcon.congr hs⟩

end Tried
end Account

/-! ### One move -/

section Step

variable {g : Graph} {v : NodeId} {n : Node} {outcome : Nat → Attempt} {S D : Set NodeId}
  {k times c : Nat} {x : EngineState} {running : List NodeId}

/-- What one event leads to: the account goes on, or the handler raised and the bounds hold. -/
def Continued (g : Graph) (v : NodeId) (m : Nat) (outcome : Nat → Attempt) (k times : Nat)
    (running : List NodeId) (r : Outcome EngineState) : Prop :=
  (∃ S D c y, r = (y, none) ∧ Tried g v m outcome S D k times c y running) ∨
    ∃ c y e, r = (y, some e) ∧ Bounded g v m outcome times c y

variable {u : NodeId}

private theorem continued_succeeded (h : Tried g v n.maxRetries outcome S D k times c x running)
    (hu : u ∈ running) (result : NodeRunResult) (hout : u = v → outcome k = .succeeded result) :
    Continued g v n.maxRetries outcome (k + if u = v then 1 else 0) times (running.erase u)
      (x.handleSucceeded g u result) := by
  have hs : SameTrials v x (x.handleSucceeded g u result).1 :=
    EngineState.sameTrials_succeeded g result
  rcases h.placed.succeeded hu result with ⟨S', y, hy, hS, hw, hplaced⟩ | ⟨y, e, hy, hi⟩
  · rw [hy] at hs ⊢
    by_cases huv : u = v
    · subst huv
      rw [if_pos rfl]
      obtain ⟨hk, -, -, hev, -⟩ := h.times_running hu
      refine .inl ⟨S', _, c, y, rfl, h.ended hu hS hplaced (h.retried.congr hs) (.inl ⟨?_, ?_⟩)⟩
      · rw [← hk, hout rfl]
        rfl
      · exact hs.errorEvents.trans hev
    · rw [if_neg huv]
      exact .inl ⟨S', _, c, y, rfl, h.other huv hS (.inr rfl) hw hplaced hs⟩
  · rw [hy] at hs ⊢
    exact .inr ⟨c, y, e, rfl, h.interrupted hi hs⟩

private theorem continued_pause (h : Tried g v n.maxRetries outcome S D k times c x running)
    (hu : u ∈ running) (reason : PauseReason)
    (hs : SameTrials v x (x.handlePauseRequested u reason).1) :
    Continued g v n.maxRetries outcome k times (running.erase u)
      (x.handlePauseRequested u reason) := by
  rcases h.placed.pauseRequested hu reason with ⟨y, hy, hw, hplaced⟩ | ⟨e, hy⟩
  · rw [hy] at hs ⊢
    by_cases huv : u = v
    · subst huv
      exact .inl ⟨S, D, c, y, rfl, h.setAside hu hplaced ((hw u).mpr (.inr rfl)) hs⟩
    · exact .inl ⟨S, D, c, y, rfl, h.other huv subset_rfl (.inl rfl)
        (fun w hx => (hw w).mpr (.inl hx)) hplaced hs⟩
  · rw [hy]
    exact .inr ⟨c, x, e, rfl, h.bounded⟩

private theorem continued_failed_other (hg : g.Promoted)
    (h : Tried g v n.maxRetries outcome S D k times c x running) (hu : u ∈ running)
    (huv : u ≠ v) (result : NodeRunResult) (error : String)
    (hs : SameTrials v x (x.handleFailed g u result error).1) :
    Continued g v n.maxRetries outcome k times (running.erase u)
      (x.handleFailed g u result error) := by
  have hrec := h.congr (y := x.recordFailure u result error) rfl
    (Placed.waiting_recordFailure (x := x) result error)
    (EngineState.sameTrials_recordFailure (v := v) (x := x) result error)
  have hwrec := Placed.waiting_recordFailure (x := x) (u := u) result error
  rcases EngineState.handleFailed_cases g u result error x with
    ⟨-, -, hd⟩ | ⟨-, -, hd⟩ | ⟨-, -, hd⟩ | ⟨strategy, -, -, hd⟩
  · rw [hd] at hs ⊢
    refine .inl ⟨S, D, c, _, rfl, h.other huv subset_rfl (.inl rfl)
      (fun w hw => (hwrec w).mpr hw) ?_ hs⟩
    exact hrec.placed.requeue hu rfl fun w => Iff.rfl
  · rw [hd]
    exact .inr ⟨c, _, _, rfl, hrec.bounded⟩
  · rw [hd] at hs ⊢
    refine .inl ⟨S, _, c, _, rfl, h.other huv subset_rfl (.inr rfl)
      (fun w hw => (hwrec w).mpr hw) ?_ hs⟩
    exact hrec.placed.fatal hu rfl fun w => Iff.rfl
  · rw [hd] at hs ⊢
    rcases hrec.placed.exception hg hu (EngineState.strategyResult g u result strategy) error with
      ⟨S', y, hy, hS, hw, hplaced⟩ | ⟨y, e, hy, hi⟩
    · rw [hy] at hs ⊢
      exact .inl ⟨S', _, c, y, rfl, h.other huv hS (.inr rfl)
        (fun w hx => hw w ((hwrec w).mpr hx)) hplaced hs⟩
    · rw [hy] at hs ⊢
      refine .inr ⟨c, y, e, rfl, h.interrupted ⟨hi.1, fun w => (hi.2 w).trans (hwrec w)⟩ hs⟩

private theorem continued_failed_self (hg : g.Promoted) (hn : g.node? v = some n)
    (hretry : n.retry = true) (h : Tried g v n.maxRetries outcome S D k times c x running)
    (hv : v ∈ running) (result : NodeRunResult) (error : String)
    (hout : outcome k = .failed result error) :
    Continued g v n.maxRetries outcome (k + 1) times (running.erase v)
      (x.handleFailed g v result error) := by
  have hsame := EngineState.sameTrials_recordFailure (v := v) (u := v) (x := x) result error
  have hrec := h.congr (y := x.recordFailure v result error) rfl
    (Placed.waiting_recordFailure (x := x) result error) hsame
  obtain ⟨hk, -, -, hev, -⟩ := hrec.times_running hv
  have hleft : x.RetryLeft g v ↔ c < n.maxRetries := by
    unfold EngineState.RetryLeft
    rw [hn]
    have hcount : (x.execution.nodeExecution v).retryCount = c := h.retried.count
    simp [hretry, hcount]
  -- without a retry left all retries are used up, and this failure is the last
  have hlast : ¬ x.RetryLeft g v → c = n.maxRetries ∧ (outcome n.maxRetries).isFailed = true ∧
      outcome n.maxRetries = .failed result error := by
    intro hno
    have hle := h.retried.le
    have hc : c = n.maxRetries := by
      rw [hleft] at hno
      omega
    rw [← hc, ← hk, hout]
    exact ⟨rfl, rfl, rfl⟩
  rcases EngineState.handleFailed_cases g v result error x with
    ⟨hr, -, hd⟩ | ⟨-, -, hd⟩ | ⟨hr, hstr, hd⟩ | ⟨strategy, hr, hstr, hd⟩
  · rw [hd]
    obtain ⟨hcount, hevents⟩ := (x.recordFailure v result error).handleRetry_trials (v := v)
      (u := v) ((x.execution.nodeExecution v).retryCount + 1) error
    rw [if_pos rfl] at hcount hevents
    have hc : (x.execution.nodeExecution v).retryCount = c := h.retried.count
    refine .inl ⟨S, D, c + 1, _, rfl, hrec.retry hv ?_ ⟨?_, ?_, ?_⟩ ?_⟩
    · exact hrec.placed.requeue hv rfl fun w => Iff.rfl
    · rw [hcount, hrec.retried.count]
    · exact hleft.mp hr
    · intro i hi
      by_cases hic : i = c
      · rw [hic, ← hk, hout]
        rfl
      · exact h.retried.failed i (by omega)
    · rw [hevents, hev, retryEvents_succ, hc, ← hk, hout]
      rfl
  · rw [hd]
    exact .inr ⟨c, _, _, rfl, hrec.bounded⟩
  · rw [hd]
    obtain ⟨hcm, hfail, hlast'⟩ := hlast hr
    refine .inl ⟨S, _, c, _, rfl, hrec.ended hv subset_rfl ?_ ?_ (.inr ⟨hcm, hfail, ?_⟩)⟩
    · exact hrec.placed.fatal hv rfl fun w => Iff.rfl
    · exact ⟨hrec.retried.count, h.retried.le, h.retried.failed⟩
    · have hevent : strategyEvent g v (outcome n.maxRetries) = .failed v result error := by
        rw [hlast']
        unfold strategyEvent
        rw [hstr]
        rfl
      change (EngineState.collect _ _).errorEvents v = _
      rw [EngineState.errorEvents_collect, if_pos ⟨rfl, rfl⟩, hevent, ← hcm]
      exact congrArg (· ++ [NodeEvent.failed v result error]) hev
  · rw [hd]
    obtain ⟨hcm, hfail, hlast'⟩ := hlast hr
    have hevent : strategyEvent g v (outcome n.maxRetries) =
        .exception v (EngineState.strategyResult g v result strategy) error := by
      rw [hlast']
      unfold strategyEvent
      rw [hstr]
      rfl
    obtain ⟨hcount, hevents⟩ := (x.recordFailure v result error).handleException_trials g (v := v)
      (u := v) (EngineState.strategyResult g v result strategy) error
    rcases hrec.placed.exception hg hv (EngineState.strategyResult g v result strategy) error with
      ⟨S', y, hy, hS, -, hplaced⟩ | ⟨y, e, hy, hi⟩
    · rw [hy] at hcount hevents ⊢
      refine .inl ⟨S', _, c, y, rfl, hrec.ended hv hS hplaced ?_ (.inr ⟨hcm, hfail, ?_⟩)⟩
      · exact ⟨hcount.trans hrec.retried.count, h.retried.le, h.retried.failed⟩
      · rw [hevents, if_pos rfl, if_pos rfl, hevent, hev, ← hcm]
    · rw [hy] at hcount hevents ⊢
      refine .inr ⟨c, y, e, rfl, hrec.interrupted hi ⟨hcount, ?_⟩⟩
      rw [hevents, if_neg (by simp), List.append_nil]

private theorem continued_dispatch (hg : g.Promoted) (hn : g.node? v = some n)
    (hretry : n.retry = true) (h : Tried g v n.maxRetries outcome S D k times c x running)
    {event : NodeEvent} (hu : event.nodeId ∈ running)
    (he : ∀ id r m, event ≠ .exception id r m) (hr : ∀ id i m, event ≠ .retry id i m)
    (hout : ∀ b, event.attempt? v = some b → outcome k = b) :
    Continued g v n.maxRetries outcome (k + (event.attempt? v).toList.length) times
      (System.removeFinished event running) (x.dispatch g event) := by
  have hs : (∀ r m, event ≠ .failed v r m) → SameTrials v x (x.dispatch g event).1 :=
    EngineState.sameTrials_dispatch g he hr
  by_cases hres : event.isResult = true
  · unfold System.removeFinished
    rw [if_pos hres]
    cases event with
    | succeeded u result =>
      have hk : (NodeEvent.attempt? v (.succeeded u result)).toList.length =
          if u = v then 1 else 0 := by
        by_cases huv : u = v <;> simp [NodeEvent.attempt?, huv]
      rw [hk]
      refine continued_succeeded h hu result fun (huv : u = v) => hout _ ?_
      simp [NodeEvent.attempt?, huv]
    | pauseRequested u reason => exact continued_pause h hu reason (hs (by simp))
    | failed u result error =>
      by_cases huv : u = v
      · subst huv
        have hk : (NodeEvent.attempt? u (.failed u result error)).toList.length = 1 := by
          simp [NodeEvent.attempt?]
        rw [hk]
        exact continued_failed_self hg hn hretry h hu result error
          (hout _ (by simp [NodeEvent.attempt?]))
      · have hk : (NodeEvent.attempt? v (.failed u result error)).toList.length = 0 := by
          simp [NodeEvent.attempt?, huv]
        rw [hk]
        refine continued_failed_other hg h hu huv result error (hs ?_)
        rintro r m heq
        cases heq
        exact huv rfl
    | started => cases hres
    | streamChunk => cases hres
    | exception => cases hres
    | retry => cases hres
    | observed => cases hres
    | inner => cases hres
  · have hnone : (event.attempt? v).toList.length = 0 := by
      cases event with
      | succeeded => exact absurd rfl hres
      | failed => exact absurd rfl hres
      | _ => rfl
    obtain ⟨ht, hw, -⟩ := h.placed.quiet (by simpa using hres) he hr
    have hnext := h.congr ht hw (hs (by rintro r m rfl; exact hres rfl))
    unfold System.removeFinished
    rw [hnone, if_neg hres]
    cases hd : x.dispatch g event with
    | mk y raised =>
      rw [hd] at hnext
      cases raised with
      | none => exact .inl ⟨S, D, c, y, rfl, hnext⟩
      | some e => exact .inr ⟨c, y, e, rfl, hnext.bounded⟩

private theorem same_markComplete (x : EngineState) :
    x.markComplete.tracking = x.tracking ∧ (∀ w, Waiting x.markComplete w ↔ Waiting x w) ∧
      SameTrials v x x.markComplete := by
  rw [EngineState.markComplete_eq]
  exact ⟨rfl, fun _ => Iff.rfl, rfl, rfl⟩

private theorem same_processCommands (x : EngineState) (commands : List Command) :
    (x.processCommands commands).tracking = x.tracking ∧
      (∀ w, Waiting (x.processCommands commands) w ↔ Waiting x w) ∧
      SameTrials v x (x.processCommands commands) := by
  refine EngineState.processCommands_induction (P := fun y => y.tracking = x.tracking ∧
    (∀ w, Waiting y w ↔ Waiting x w) ∧ SameTrials v x y) (fun y d _ hy => ?_)
    ⟨rfl, fun _ => Iff.rfl, rfl, rfl⟩
  obtain ⟨ht, hw, hs⟩ := hy
  have hone : SameTrials v y (y.handleCommand d) := by
    rcases y.handleCommand_cases d with ⟨reason, message, -, hc⟩ | ⟨reason, -, -, hc⟩ | ⟨pool, hc⟩
    · rw [hc]
      exact ⟨rfl, rfl⟩
    · rw [hc]
      exact ⟨rfl, rfl⟩
    · rw [hc]
      exact ⟨rfl, rfl⟩
  obtain ⟨execution, pool, hc⟩ := y.handleCommand_frame d
  refine ⟨?_, fun w => ?_, hs.trans hone⟩
  · rw [hc]
    exact ht
  · rw [← hw, hc]
    rfl

/-- The system after some moves: either the account goes on, or a handler has raised. -/
def Accounts (g : Graph) (v : NodeId) (m : Nat) (outcome : Nat → Attempt) (k times : Nat)
    (s : System) : Prop :=
  (∃ S D c, Tried g v m outcome S D k times c s.engine s.running) ∨
    ∃ c, Bounded g v m outcome times c s.engine ∧ s.phase = .done

private theorem bounded_congr {m : Nat} {y : EngineState} (h : Bounded g v m outcome times c x)
    (ht : y.tracking = x.tracking) (hw : ∀ w, Waiting y w ↔ Waiting x w)
    (hs : SameTrials v x y) : Bounded g v m outcome times c y := by
  refine ⟨h.retried.congr hs, ?_, ?_, ?_, fun hpos hexec hy => ?_⟩
  · rw [hs.errorEvents]
    exact h.events.imp_right (·.congr hs)
  · rw [ht]
    exact h.times_le
  · rw [ht]
    exact h.queued
  · rw [ht] at hexec
    obtain ⟨htimes, hcon⟩ := h.concluded hpos hexec fun hx => hy ((hw v).mpr hx)
    exact ⟨htimes, hcon.congr hs⟩

theorem accounts_step (hg : g.Promoted) (hn : g.node? v = some n) (hretry : n.retry = true)
    {s s' : System} (h : Accounts g v n.maxRetries outcome k times s) {a : Action}
    (hout : ∀ b, attemptOf v a = some b → outcome k = b) (hstep : s.step? g a = some s') :
    Accounts g v n.maxRetries outcome (k + (attemptOf v a).toList.length)
      (times + if s.starts v a then 1 else 0) s' := by
  rcases h with ⟨S, D, c, h⟩ | ⟨c, h, hdone⟩
  · cases System.step?_move hstep with
    | take id rest hq =>
      have hstarts : s.starts v .take = decide (id = v) := by
        simp [System.starts, hq]
      rw [hstarts]
      refine .inl ⟨S, D, c, ?_⟩
      have := h.take hq
      simpa [attemptOf] using this
    | handle event commands polls hadm =>
      unfold System.admits at hadm
      obtain ⟨hrun, hkind⟩ := Bool.and_eq_true_iff.mp hadm
      have hc := continued_dispatch hg hn hretry h (of_decide_eq_true hrun)
        (by rintro id r m rfl; cases hkind) (by rintro id r m rfl; cases hkind) hout
      simp only [System.starts, Bool.false_eq_true, ↓reduceIte, Nat.add_zero]
      rcases hc with ⟨S', D', c', y, hd, hy⟩ | ⟨c', y, e, hd, hy⟩
      · rw [System.dispatchEvent_returned hd]
        refine .inl ⟨S', D', c', ?_⟩
        simp only []
        split
        next =>
          obtain ⟨ht, hw, hs⟩ := same_processCommands (v := v) y commands
          exact hy.congr ht hw hs
        next => exact hy
      · rw [System.dispatchEvent_raised hd]
        obtain ⟨ht, hw, hs⟩ := same_markComplete (v := v) (y.markFailed e)
        refine .inr ⟨c', ?_, rfl⟩
        exact bounded_congr (bounded_congr hy (y := y.markFailed e) rfl (fun _ => Iff.rfl)
          ⟨rfl, rfl⟩) ht hw hs
    | leaveMain commands =>
      obtain ⟨ht, hw, hs⟩ := same_processCommands (v := v) s.engine commands
      exact .inl ⟨S, D, c, h.congr ht hw hs⟩
    | leaveIdle => exact .inl ⟨S, D, c, h⟩
    | finish =>
      obtain ⟨ht, hw, hs⟩ := same_markComplete (v := v) s.engine
      exact .inl ⟨S, D, c, h.congr ht hw hs⟩
  · cases System.step?_move hstep with
    | take id rest hq =>
      have hstarts : s.starts v .take = decide (id = v) := by
        simp [System.starts, hq]
      rw [hstarts]
      refine .inr ⟨c, ⟨⟨h.retried.count, h.retried.le, h.retried.failed⟩, h.events, ?_, ?_, ?_⟩,
        hdone⟩
      · have hle := h.times_le
        rw [hq, List.count_cons] at hle
        by_cases hid : id = v
        · simp only [hid, decide_true, ↓reduceIte, beq_self_eq_true] at hle ⊢
          omega
        · simp only [hid, decide_false, Bool.false_eq_true, ↓reduceIte, beq_iff_eq] at hle ⊢
          omega
      · exact fun hv => h.queued (by rw [hq]; exact List.mem_cons_of_mem _ hv)
      · intro hpos hexec hw
        have hid : id ≠ v := by
          rintro rfl
          exact hexec (h.queued (by simp [hq]))
        simp only [hid, decide_false, Bool.false_eq_true, ↓reduceIte, Nat.add_zero] at hpos ⊢
        exact h.concluded hpos hexec hw
    | handle event commands polls hadm hmain hpolls hph => exact absurd hdone hph
    | leaveMain commands phase hmain => rw [hmain] at hdone; cases hdone
    | leaveIdle commands hph => rw [hph] at hdone; cases hdone
    | finish commands hph => rw [hph] at hdone; cases hdone

end Step

/-! ### Whole runs -/

private theorem accounts_start {g : Graph} (hroot : g.incoming g.root = []) (v : NodeId) (m : Nat)
    (outcome : Nat → Attempt) {o : SetOrder NodeId} {pool : VariablePool} {x : EngineState}
    (hx : (EngineState.initial g o pool).startExecution g o = .ok x) (commands : List Command) :
    Accounts g v m outcome 0 0 (System.start x commands) := by
  have hplaced := placed_start hroot hx
  obtain ⟨d, rfl⟩ := EngineState.startExecution_first rfl hx
  obtain ⟨ht, hw, hs⟩ := same_processCommands (v := v) _ commands
  refine .inl ⟨_, _, 0, Tried.congr (x := _) ⟨hplaced, ⟨?_, Nat.zero_le m, by simp⟩, by simp,
    fun _ => rfl, fun _ => rfl, fun _ => ⟨rfl, rfl⟩, fun hv => hv.elim⟩ ht hw hs⟩
  simp [EngineState.retryCount, EngineState.initial, GraphExecution.nodeExecution]

variable {outcome : Nat → Attempt}

private theorem accounts_run {g : Graph} (hg : g.Promoted) {v : NodeId} {n : Node}
    (hn : g.node? v = some n) (hretry : n.retry = true) {s₀ : System}
    (h0 : Accounts g v n.maxRetries outcome 0 0 s₀) {as : List Action} {s : System}
    (hrun : System.runs g s₀ as = some s)
    (hout : ∀ (i : Nat) (a : Attempt), (attempts v as)[i]? = some a → outcome i = a) :
    Accounts g v n.maxRetries outcome (attempts v as).length (System.timesRun g v s₀ as) s := by
  refine run_trace_induction (P := fun as s => (∀ (i : Nat) (a : Attempt),
    (attempts v as)[i]? = some a → outcome i = a) →
    Accounts g v n.maxRetries outcome (attempts v as).length (System.timesRun g v s₀ as) s)
    (fun _ => h0) ?_ hrun hout
  intro as m a m' hm ih hstep hout
  have happ : attempts v (as ++ [a]) = attempts v as ++ (attemptOf v a).toList := by
    unfold attempts
    rw [List.filterMap_append, List.filterMap_cons]
    cases attemptOf v a <;> rfl
  rw [happ] at hout ⊢
  rw [List.length_append]
  unfold System.timesRun
  rw [countSteps_concat hm]
  refine accounts_step hg hn hretry (ih fun i b hb => hout i b ?_) (fun b hb => ?_) hstep
  · rw [List.getElem?_append_left (List.getElem?_eq_some_iff.mp hb).1]
    exact hb
  · refine hout _ b ?_
    rw [hb, List.getElem?_append_right (Nat.le_refl _)]
    simp

theorem min_of_retried {m c k : Nat} (hle : c ≤ m)
    (hfail : ∀ i < c, (outcome i).isFailed = true) (hk : FirstSuccess outcome k) :
    c + 1 ≤ min k (m + 1) ∧ ((outcome c).isFailed = false → c + 1 = min k (m + 1)) ∧
      (c = m → (outcome m).isFailed = true → c + 1 = min k (m + 1)) := by
  obtain ⟨hpos, hsucc, hbefore⟩ := hk
  have hck : c ≤ k - 1 := by
    by_contra hlt
    have := hfail (k - 1) (by omega)
    rw [hsucc] at this
    cases this
  refine ⟨by omega, fun hc => ?_, fun hcm hlast => ?_⟩
  · have : ¬ c < k - 1 := fun hlt => by
      rw [hbefore c hlt] at hc
      cases hc
    omega
  · have : k - 1 ≠ m := by
      rintro rfl
      rw [hsucc] at hlast
      cases hlast
    omega

/-- A task with two retries and default values, beside another task. -/
def retrying : Graph where
  nodes := [
    { id := "start", nodeType := "start", executionType := .root },
    { id := "task", errorStrategy := some .defaultValue, retry := true, maxRetries := 2 },
    { id := "other" }]
  edges := [
    { id := "e0", tail := "start", head := "task" },
    { id := "e1", tail := "start", head := "other" }]
  root := "start"

/-- All attempts of the task fail. -/
def retryingRun : List Action :=
  [.take, .handle (.succeeded "start" {}) [], .take, .take,
    .handle (.failed "task" {} "boom") [], .handle (.succeeded "other" {}) [], .take,
    .handle (.failed "task" {} "boom") [], .take, .handle (.failed "task" {} "boom") [],
    .leave [], .leave []]

/-- The other task of `retrying` fails for good while the first waits for its second attempt. -/
def retryingStopped : List Action :=
  [.take, .handle (.succeeded "start" {}) [], .take, .take,
    .handle (.failed "task" {} "boom") [], .handle (.failed "other" {} "stop") [],
    .leave [], .leave []]

/-- A task whose only edge leads back to the entry of its container. -/
def looping : Graph where
  nodes := [{ id := "entry", nodeType := "loop-start" }, { id := "task", retry := true }]
  edges := [
    { id := "e0", tail := "entry", head := "task" },
    { id := "e1", tail := "task", head := "entry" }]
  root := "entry"

/-- Both nodes of `looping` run twice. -/
def loopingRun : List Action :=
  [.take, .handle (.succeeded "entry" {}) [], .take, .handle (.succeeded "task" {}) [],
    .take, .handle (.succeeded "entry" {}) [], .take, .handle (.succeeded "task" {}) []]

end PlatformSpec.Scheduling
