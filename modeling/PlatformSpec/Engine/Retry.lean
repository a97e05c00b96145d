import PlatformSpec.Engine.System

/-!
# Attempts of a node

What the retry protocol of `error_handler.py` and of the handlers in `event_handlers.py` is
about: the attempts of one node with their outcomes, how often a worker ran it, its retry
count, and the retry and error events that were collected for it.
-/

namespace PlatformSpec.Engine

open Base PlatformSpec.Runtime Workflow Response

/-- How one attempt of a node ended. -/
inductive Attempt where
  | succeeded (result : NodeRunResult)
  | failed (result : NodeRunResult) (error : String)

namespace Attempt

def isFailed : Attempt → Bool
  | succeeded _ => false
  | failed _ _ => true

/-- The error of a failed attempt. -/
def error : Attempt → String
  | succeeded _ => ""
  | failed _ error => error

/-- The result of the attempt. -/
def result : Attempt → NodeRunResult
  | succeeded result => result
  | failed result _ => result

end Attempt

/-- The attempt of the node that an event brings to an end. -/
def NodeEvent.attempt? (v : NodeId) : NodeEvent → Option Attempt
  | succeeded id result => if id = v then some (.succeeded result) else none
  | failed id result error => if id = v then some (.failed result error) else none
  | _ => none

/-- The attempt of the node that an action brings to an end. -/
def attemptOf (v : NodeId) : Action → Option Attempt
  | .handle event _ => event.attempt? v
  | _ => none

/-- The attempts of the node in a list of moves, in the order in which their results are
handled. -/
def attempts (v : NodeId) (as : List Action) : List Attempt := as.filterMap (attemptOf v)

/-- A worker starts to run the node. -/
def System.starts (v : NodeId) (s : System) : Action → Bool
  | .take => s.engine.tracking.readyQueue.head? = some v
  | _ => false

/-- How often workers run the node in a run. -/
def System.timesRun (g : Graph) (v : NodeId) (s : System) (as : List Action) : Nat :=
  countSteps (System.step? g) (System.starts v) s as

/-- Attempt number `k` is the first successful one; attempt number `i + 1` is `outcome i`. -/
def FirstSuccess (outcome : Nat → Attempt) (k : Nat) : Prop :=
  0 < k ∧ (outcome (k - 1)).isFailed = false ∧ ∀ i < k - 1, (outcome i).isFailed = true

/-- The first attempt and all `m` retries fail. -/
def Exhausted (outcome : Nat → Attempt) (m : Nat) : Prop :=
  ∀ i ≤ m, (outcome i).isFailed = true

/-- The retry events of the first `count` attempts: numbered from 1 without gaps. -/
def retryEvents (v : NodeId) (outcome : Nat → Attempt) (count : Nat) : List NodeEvent :=
  (List.range count).map fun i => .retry v (i + 1) (outcome i).error

theorem retryEvents_succ (v : NodeId) (outcome : Nat → Attempt) (count : Nat) :
    retryEvents v outcome (count + 1) =
      retryEvents v outcome count ++ [.retry v (count + 1) (outcome count).error] := by
  simp [retryEvents, List.range_succ]

/-- The event that applies the error strategy of the node to a failed attempt: the failure
itself without a strategy, an exception with the strategy's result otherwise. -/
def strategyEvent (g : Graph) (v : NodeId) (a : Attempt) : NodeEvent :=
  match EngineState.errorStrategy g v with
  | none => .failed v a.result a.error
  | some strategy => .exception v (EngineState.strategyResult g v a.result strategy) a.error

/-- Events of a retry, a failure or an exception. -/
def NodeEvent.isError : NodeEvent → Bool
  | failed _ _ _ => true
  | exception _ _ _ => true
  | retry _ _ _ => true
  | _ => false

namespace EngineState

variable (g : Graph) (v u : NodeId) (x : EngineState)

/-- `retry_count` of the node's execution. -/
def retryCount : Nat := (x.execution.nodeExecution v).retryCount

/-- The retry, failure and exception events collected for the node, in order. -/
def errorEvents : List NodeEvent :=
  x.collected.filterMap fun
    | .node e => if e.nodeId = v ∧ e.isError then some e else none
    | .stream _ => none

/-- Both change only when the node fails. -/
structure SameTrials (v : NodeId) (x y : EngineState) : Prop where
  retryCount : y.retryCount v = x.retryCount v
  errorEvents : y.errorEvents v = x.errorEvents v

variable {v x} {y z : EngineState}

theorem SameTrials.trans (h : SameTrials v x y) (h' : SameTrials v y z) : SameTrials v x z :=
  ⟨h'.retryCount.trans h.retryCount, h'.errorEvents.trans h.errorEvents⟩

theorem SameTrials.of_eq (hc : y.collected = x.collected)
    (hn : (y.execution.nodeExecution v).retryCount = (x.execution.nodeExecution v).retryCount) :
    SameTrials v x y := by
  refine ⟨hn, ?_⟩
  unfold EngineState.errorEvents
  rw [hc]

@[simp] theorem errorEvents_collectStream (events : List Emission) :
    (x.collectStream events).errorEvents v = x.errorEvents v := by
  simp [errorEvents, collectStream, List.filterMap_append]

theorem errorEvents_collect (e : NodeEvent) : (x.collect e).errorEvents v =
    x.errorEvents v ++ if e.nodeId = v ∧ e.isError then [e] else [] := by
  unfold errorEvents collect
  rw [List.filterMap_append]
  by_cases he : e.nodeId = v ∧ e.isError = true
  · simp [he]
  · simp only [List.filterMap_cons, List.filterMap_nil, if_neg he]

theorem SameTrials.collect {e : NodeEvent} (he : ¬ (e.nodeId = v ∧ e.isError = true)) :
    SameTrials v x (x.collect e) := by
  refine ⟨rfl, ?_⟩
  rw [errorEvents_collect, if_neg he, List.append_nil]

@[simp] theorem errorEvents_flushStreams :
    (x.flushStreams g).errorEvents v = x.errorEvents v := by
  unfold flushStreams
  simp only [errorEvents_collectStream]
  rfl

theorem retryCount_updateNodeExecution (c : GraphExecution) {f : NodeExecution → NodeExecution}
    (hf : ∀ n, (f n).retryCount = n.retryCount) :
    ((c.updateNodeExecution u f).nodeExecution v).retryCount = (c.nodeExecution v).retryCount := by
  unfold GraphExecution.updateNodeExecution GraphExecution.nodeExecution
  by_cases hu : u = v
  · subst hu
    simp [hf]
  · simp [Std.ExtTreeMap.getD_insert, hu]

variable {u}

/-- Edge processing collects streaming events; the rest of the handler follows only when nothing
was raised. -/
theorem continueWith_errorEvents {r : Outcome EdgeResult} {l : List NodeEvent}
    {k : List NodeId → EngineState → Outcome EngineState}
    (hk : ∀ ids y, (k ids y).1.errorEvents v = y.errorEvents v ++ l)
    (hr : ∀ ids y, (k ids y).2 = none) :
    (x.continueWith r k).1.errorEvents v =
      x.errorEvents v ++ if (x.continueWith r k).2 = none then l else [] := by
  obtain ⟨e, raised⟩ := r
  unfold continueWith
  cases raised with
  | some err =>
    simp only [Outcome.andThen_some, reduceCtorEq, ↓reduceIte, List.append_nil]
    rfl
  | none =>
    rw [Outcome.andThen_none, hr, if_pos rfl, hk, errorEvents_collectStream]
    rfl

theorem sameTrials_succeeded (result : NodeRunResult) :
    SameTrials v x (x.handleSucceeded g u result).1 := by
  refine ⟨?_, ?_⟩
  · unfold retryCount
    rw [handleSucceeded_execution]
    exact retryCount_updateNodeExecution u _ fun _ => rfl
  · unfold handleSucceeded
    simp only []
    rw [continueWith_errorEvents (l := [])]
    · rw [ite_self, List.append_nil, errorEvents_flushStreams]
      rfl
    · intro ids y
      rw [errorEvents_collect]
      unfold errorEvents
      simp [NodeEvent.isError, finish]
    · exact fun _ _ => rfl

theorem handleException_trials (result : NodeRunResult) (error : String) :
    (x.handleException g u result error).1.retryCount v = x.retryCount v ∧
      (x.handleException g u result error).1.errorEvents v = x.errorEvents v ++
        if (x.handleException g u result error).2 = none then
          (if u = v then [.exception u result error] else [])
        else [] := by
  refine ⟨?_, ?_⟩
  · unfold retryCount
    rw [handleException_execution]
    exact retryCount_updateNodeExecution u _ fun _ => rfl
  · unfold handleException
    simp only []
    rw [continueWith_errorEvents (l := if u = v then [.exception u result error] else [])]
    · rfl
    · intro ids y
      rw [errorEvents_collect]
      unfold errorEvents
      simp [NodeEvent.isError, NodeEvent.nodeId, finish]
    · exact fun _ _ => rfl

theorem sameTrials_recordFailure (result : NodeRunResult) (error : String) :
    SameTrials v x (x.recordFailure u result error) :=
  .of_eq rfl (retryCount_updateNodeExecution u x.execution (f := (·.markFailed error)) fun _ => rfl)

theorem handleRetry_trials (index : Nat) (error : String) :
    (x.handleRetry u index error).retryCount v = x.retryCount v + (if u = v then 1 else 0) ∧
      (x.handleRetry u index error).errorEvents v =
        x.errorEvents v ++ if u = v then [.retry u index error] else [] := by
  refine ⟨?_, ?_⟩
  · unfold retryCount handleRetry GraphExecution.nodeExecution
    simp only [collect, finish, GraphExecution.updateNodeExecution, Std.ExtTreeMap.getD_insert,
      Std.LawfulEqOrd.compare_eq_iff_eq]
    by_cases hu : u = v
    · subst hu
      simp [NodeExecution.incrementRetry, GraphExecution.nodeExecution]
    · simp [hu]
  · unfold handleRetry
    simp only []
    change (EngineState.collect _ _).errorEvents v = _
    rw [errorEvents_collect]
    unfold errorEvents
    simp [NodeEvent.isError, NodeEvent.nodeId, finish]

/-- An event that a worker may put is no trial of any node unless it is a failure, and then
of its own node only. -/
theorem sameTrials_dispatch {event : NodeEvent} (he : ∀ id r m, event ≠ .exception id r m)
    (hr : ∀ id i m, event ≠ .retry id i m)
    (hf : ∀ r m, event ≠ .failed v r m) : SameTrials v x (x.dispatch g event).1 := by
  cases event with
  | started id e =>
    simp only [dispatch, handleStarted]
    have hsame : ((x.execution.updateNodeExecution id (·.markStarted e)).nodeExecution v).retryCount
        = (x.execution.nodeExecution v).retryCount :=
      retryCount_updateNodeExecution id _ fun _ => rfl
    split
    next =>
      refine ⟨hsame, ?_⟩
      rw [errorEvents_collect]
      simp [NodeEvent.isError, errorEvents]
    next => exact ⟨hsame, rfl⟩
  | streamChunk id chunk =>
    simp only [dispatch, handleStreamChunk]
    split
    next => exact ⟨rfl, rfl⟩
    next => exact ⟨rfl, by rw [errorEvents_collectStream]; rfl⟩
  | succeeded id result => exact sameTrials_succeeded g result
  | pauseRequested id reason =>
    simp only [dispatch, handlePauseRequested]
    split
    next => exact ⟨rfl, rfl⟩
    next execution hp =>
      obtain ⟨-, -, rfl⟩ := GraphExecution.pause_eq_ok hp
      refine ⟨rfl, ?_⟩
      rw [errorEvents_collect]
      simp [NodeEvent.isError, errorEvents]
  | failed id result error =>
    have hid : id ≠ v := by
      rintro rfl
      exact hf result error rfl
    have hrec := sameTrials_recordFailure (v := v) (x := x) (u := id) result error
    simp only [dispatch]
    rcases handleFailed_cases g id result error x with
      ⟨-, -, hd⟩ | ⟨-, -, hd⟩ | ⟨-, -, hd⟩ | ⟨strategy, -, -, hd⟩
    · rw [hd]
      obtain ⟨hc, hev⟩ := (x.recordFailure id result error).handleRetry_trials (v := v) (u := id)
        ((x.execution.nodeExecution id).retryCount + 1) error
      exact hrec.trans ⟨by simpa [hid] using hc, by simpa [hid] using hev⟩
    · rw [hd]
      exact hrec
    · rw [hd]
      refine hrec.trans ⟨rfl, ?_⟩
      change (EngineState.collect _ _).errorEvents v = _
      rw [errorEvents_collect]
      simp [NodeEvent.nodeId, hid]
      rfl
    · rw [hd]
      obtain ⟨hc, hev⟩ := (x.recordFailure id result error).handleException_trials g (v := v)
        (u := id) (strategyResult g id result strategy) error
      exact hrec.trans ⟨hc, by simpa [hid] using hev⟩
  | exception id r m => exact absurd rfl (he id r m)
  | retry id i m => exact absurd rfl (hr id i m)
  | observed id => exact .collect (by simp [NodeEvent.isError])
  | inner c e => exact .collect (by simp [NodeEvent.isError])

end EngineState
end PlatformSpec.Engine
