import PlatformSpec.Base.Interleaving

/-!
# The indexing queue of a tenant

Models `core/rag/pipeline/queue.py`, `_send_to_tenant_queue` of
`services/document_indexing_proxy/batch_indexing_base.py` and
`_document_indexing_with_tenant_queue` of `tasks/document_indexing_task.py`. A producer reads
the task key and then pushes or dispatches; a worker indexes, pulls the next tasks and then
dispatches them or deletes the key. Every Redis command and every dispatch is one step, and
the key does not expire.
-/

namespace PlatformSpec.Indexing

open Base

/-- `DocumentTask`. -/
structure DocumentTask where
  tenantId : String
  datasetId : String
  documentIds : List String
  deriving DecidableEq

/-- The two Redis keys of the tenant and the messages of its dispatched tasks. New tasks enter
the list on the left and are pulled from the right. -/
structure TenantIsolatedTaskQueue where
  taskKey : Bool := false
  queue : List DocumentTask := []
  dispatched : List DocumentTask := []
  deriving DecidableEq

namespace TenantIsolatedTaskQueue

/-- `set_task_waiting_time`. -/
def setTaskWaitingTime (q : TenantIsolatedTaskQueue) : TenantIsolatedTaskQueue :=
  { q with taskKey := true }

/-- `delete_task_key`. -/
def deleteTaskKey (q : TenantIsolatedTaskQueue) : TenantIsolatedTaskQueue :=
  { q with taskKey := false }

/-- `push_tasks` of one task: `lpush`. -/
def pushTask (q : TenantIsolatedTaskQueue) (task : DocumentTask) : TenantIsolatedTaskQueue :=
  { q with queue := task :: q.queue }

/-- `task_func.delay`, `task_func.apply_async`. -/
def dispatch (q : TenantIsolatedTaskQueue) (task : DocumentTask) : TenantIsolatedTaskQueue :=
  { q with dispatched := q.dispatched ++ [task] }

end TenantIsolatedTaskQueue

/-- Where a process is. A producer is about to read the key, has found it set or missing, or
has set it. A worker is indexing, pulls with some more commands to go, has pulled tasks and is
about to refresh the key or to dispatch the first of them, or is about to delete the key. -/
inductive Place where
  | idle
  | sending (task : DocumentTask)
  | keyFound (task : DocumentTask)
  | keyMissing (task : DocumentTask)
  | keySet (task : DocumentTask)
  | indexing (task : DocumentTask)
  | pulling (remaining : Nat) (nextTasks : List DocumentTask)
  | pulled (nextTask : DocumentTask) (rest : List DocumentTask)
  | refreshed (nextTask : DocumentTask) (rest : List DocumentTask)
  | clearing
  deriving DecidableEq

/-- The steps of producers and workers. -/
inductive Operation where
  | send (task : DocumentTask)
  | getTaskKey
  | push
  | setTaskWaitingTime
  | dispatch
  | receive (task : DocumentTask)
  | index
  | rpop
  | deleteTaskKey
  deriving DecidableEq

/-- What follows the pull. -/
def afterPull : List DocumentTask → Place
  | [] => .clearing
  | nextTask :: rest => .pulled nextTask rest

/-- The first command of `pull_tasks(count)`, which makes none when the count is not
positive. -/
def pullTasks (count : Int) : Place :=
  if count ≤ 0 then afterPull [] else .pulling (count.toNat - 1) []

/-- What follows the dispatch of a pulled task: the next round of the loop. -/
def afterDispatch : List DocumentTask → Place
  | [] => .idle
  | nextTask :: rest => .pulled nextTask rest

/-- `_send_to_tenant_queue` and `_document_indexing_with_tenant_queue`, one step at a time.
`_document_indexing` may raise; the `finally` part follows all the same. -/
def operate (concurrency : Int) (q : TenantIsolatedTaskQueue) :
    Place → Operation → Option (TenantIsolatedTaskQueue × Place)
  | .idle, .send task => some (q, .sending task)
  | .sending task, .getTaskKey =>
    if q.taskKey then some (q, .keyFound task) else some (q, .keyMissing task)
  | .keyFound task, .push => some (q.pushTask task, .idle)
  | .keyMissing task, .setTaskWaitingTime => some (q.setTaskWaitingTime, .keySet task)
  | .keySet task, .dispatch => some (q.dispatch task, .idle)
  | .idle, .receive task =>
    if task ∈ q.dispatched then
      some ({ q with dispatched := q.dispatched.erase task }, .indexing task)
    else none
  | .indexing _, .index => some (q, pullTasks concurrency)
  | .pulling remaining nextTasks, .rpop =>
    match q.queue.getLast? with
    | none => some (q, afterPull nextTasks)
    | some task =>
      let nextTasks := nextTasks ++ [task]
      let place := match remaining with
        | 0 => afterPull nextTasks
        | remaining + 1 => .pulling remaining nextTasks
      some ({ q with queue := q.queue.dropLast }, place)
  | .pulled nextTask rest, .setTaskWaitingTime =>
    some (q.setTaskWaitingTime, .refreshed nextTask rest)
  | .refreshed nextTask rest, .dispatch => some (q.dispatch nextTask, afterDispatch rest)
  | .clearing, .deleteTaskKey => some (q.deleteTaskKey, .idle)
  | _, _ => none

/-- Producers and workers of one tenant. -/
abbrev Tenant (ι : Type) := Processes TenantIsolatedTaskQueue ι Place

/-- A task is on its way to its pull: it is indexed, it pulls, or it was taken for dispatch by
a producer or a worker. -/
def Place.onTheWay : Place → Bool
  | .keyMissing _ => true
  | .keySet _ => true
  | .indexing _ => true
  | .pulling _ _ => true
  | .pulled _ _ => true
  | .refreshed _ _ => true
  | _ => false

/-- Number of tasks a process is indexing. -/
def Place.running : Place → Nat
  | .indexing _ => 1
  | _ => 0

section Tenant

variable {ι : Type} [DecidableEq ι]

/-- One step of one process. -/
def step (concurrency : Int) : Tenant ι → ι × Operation → Option (Tenant ι) :=
  Processes.step fun _ => operate concurrency

/-- No task was sent yet. -/
def noTasks : Tenant ι := ⟨{}, fun _ => .idle⟩

/-- Some task of the tenant is on its way and will pull from the list. -/
def WillPull (concurrency : Int) (t : Tenant ι) : Prop :=
  0 < concurrency ∧ (t.shared.dispatched ≠ [] ∨ ∃ i, (t.place i).onTheWay)

/-- No waiting task is stranded. -/
def Watched (concurrency : Int) (t : Tenant ι) : Prop :=
  t.shared.queue ≠ [] → WillPull concurrency t

private theorem operate_cases {c : Int} {q q' : TenantIsolatedTaskQueue} {l l' : Place}
    {a : Operation} (h : operate c q l a = some (q', l')) :
    (∃ task, l = .keyFound task ∧ a = .push ∧ q' = q.pushTask task ∧ l' = .idle) ∨
    (∃ task, l.onTheWay ∧ l.running = 0 ∧ a = .dispatch ∧ q' = q.dispatch task ∧
      l'.running = 0) ∨
    (∃ task, l = .idle ∧ a = .receive task ∧ task ∈ q.dispatched ∧
      q' = { q with dispatched := q.dispatched.erase task } ∧ l' = .indexing task) ∨
    (a ≠ .push ∧ a ≠ .dispatch ∧ q'.dispatched = q.dispatched ∧ l'.running ≤ l.running ∧
      (q'.queue ≠ [] → q.queue ≠ []) ∧
      (0 < c → q'.queue ≠ [] → l.onTheWay → l'.onTheWay)) := by
  unfold operate at h
  split at h
  next task =>
    cases h
    exact .inr (.inr (.inr ⟨by simp, by simp, rfl, le_rfl, id, fun _ _ => id⟩))
  next task =>
    split at h
    next =>
      cases h
      exact .inr (.inr (.inr ⟨by simp, by simp, rfl, le_rfl, id, fun _ _ => id⟩))
    next =>
      cases h
      exact .inr (.inr (.inr ⟨by simp, by simp, rfl, le_rfl, id, fun _ _ _ => rfl⟩))
  next task =>
    cases h
    exact .inl ⟨task, rfl, rfl, rfl, rfl⟩
  next task =>
    cases h
    exact .inr (.inr (.inr ⟨by simp, by simp, rfl, le_rfl, id, fun _ _ _ => rfl⟩))
  next task =>
    cases h
    exact .inr (.inl ⟨task, rfl, rfl, rfl, rfl, rfl⟩)
  next task =>
    split at h
    next hmem =>
      cases h
      exact .inr (.inr (.inl ⟨task, rfl, rfl, hmem, rfl, rfl⟩))
    next => cases h
  next task =>
    cases h
    refine .inr (.inr (.inr ⟨by simp, by simp, rfl, ?_, id, fun hc _ _ => ?_⟩))
    · unfold pullTasks
      split
      next => exact Nat.zero_le _
      next => exact Nat.zero_le _
    · rw [pullTasks, if_neg (by omega)]
      rfl
  next remaining nextTasks =>
    split at h
    next hnone =>
      cases h
      have hempty : q.queue = [] := List.getLast?_eq_none_iff.mp hnone
      refine .inr (.inr (.inr ⟨by simp, by simp, rfl, ?_, id, fun _ hne => absurd hempty hne⟩))
      cases nextTasks with
      | nil => exact le_rfl
      | cons => exact le_rfl
    next task hlast =>
      cases h
      refine .inr (.inr (.inr ⟨by simp, by simp, rfl, ?_, fun hne hempty => ?_, fun _ _ _ => ?_⟩))
      · cases remaining with
        | zero => cases nextTasks with
          | nil => exact le_rfl
          | cons => exact le_rfl
        | succ => exact le_rfl
      · rw [hempty] at hlast
        cases hlast
      · cases remaining with
        | zero => cases nextTasks with
          | nil => rfl
          | cons => rfl
        | succ => rfl
  next nextTask rest =>
    cases h
    exact .inr (.inr (.inr ⟨by simp, by simp, rfl, le_rfl, id, fun _ _ _ => rfl⟩))
  next nextTask rest =>
    cases h
    refine .inr (.inl ⟨nextTask, rfl, rfl, rfl, rfl, ?_⟩)
    cases rest with
    | nil => rfl
    | cons => rfl
  next =>
    cases h
    exact .inr (.inr (.inr ⟨by simp, by simp, rfl, le_rfl, id, fun _ _ => id⟩))
  next => cases h

/-- A push happens while some task is on its way to pull. -/
def PushWatched (concurrency : Int) (t : Tenant ι) : ι × Operation → Prop
  | (_, .push) => WillPull concurrency t
  | _ => True

variable {a : ι × Operation}

private theorem watched_step {c : Int} {t t' : Tenant ι}
    (h : Watched c t) (hstep : step c t a = some t') : Watched c t' ↔ PushWatched c t a := by
  obtain ⟨i, a⟩ := a
  obtain ⟨q, l, hop, rfl⟩ := Processes.step_eq_some.mp hstep
  -- Processes that stay where they are keep a task on its way.
  have hkeep : ((t.place i).onTheWay → l.onTheWay) → (∃ j, (t.place j).onTheWay) →
      ∃ j, (Function.update t.place i l j).onTheWay := by
    rintro hi ⟨j, hj⟩
    by_cases hji : j = i
    · subst hji
      exact ⟨j, by rw [Function.update_self]; exact hi hj⟩
    · exact ⟨j, by rw [Function.update_of_ne hji]; exact hj⟩
  rcases operate_cases hop with ⟨task, hl, rfl, rfl, rfl⟩ | ⟨task, hl, -, rfl, rfl, -⟩ |
    ⟨task, hl, rfl, hmem, rfl, rfl⟩ | ⟨hpush, -, hd, -, hqueue, hway⟩
  · have hsame : WillPull c ⟨t.shared.pushTask task, Function.update t.place i .idle⟩ ↔
        WillPull c t := by
      unfold WillPull
      refine and_congr_right fun _ => or_congr Iff.rfl ⟨?_, hkeep ?_⟩
      · rintro ⟨j, hj⟩
        rcases Processes.of_update (P := fun l : Place => l.onTheWay) hj with ⟨-, hj⟩ | ⟨-, hj⟩
        · cases hj
        · exact ⟨j, hj⟩
      · rw [hl]
        exact fun hway => hway
    constructor
    · exact fun hw => hsame.mp (hw (List.cons_ne_nil _ _))
    · exact fun hp _ => hsame.mpr hp
  · refine iff_of_true (fun hne => ⟨(h hne).1, .inl ?_⟩) trivial
    simp [TenantIsolatedTaskQueue.dispatch]
  · refine iff_of_true (fun hne => ⟨(h hne).1, .inr ⟨i, ?_⟩⟩) trivial
    rw [Processes.place_update_self]
    rfl
  · have hsafe : PushWatched c t (i, a) := by
      cases a with
      | push => exact absurd rfl hpush
      | _ => trivial
    refine iff_of_true (fun hne => ?_) hsafe
    obtain ⟨hc, hpull⟩ := h (hqueue hne)
    refine ⟨hc, hpull.imp (fun hne => ?_) (hkeep (hway hc hne))⟩
    rw [hd]
    exact hne

variable [Fintype ι]

instance (c : Int) (t : Tenant ι) : Decidable (WillPull c t) :=
  inferInstanceAs (Decidable (_ ∧ (_ ∨ _)))

instance (c : Int) (t : Tenant ι) : (a : ι × Operation) → Decidable (PushWatched c t a)
  | (_, .push) => inferInstanceAs (Decidable (WillPull c t))
  | (_, .send _) | (_, .getTaskKey) | (_, .setTaskWaitingTime) | (_, .dispatch)
  | (_, .receive _) | (_, .index) | (_, .rpop) | (_, .deleteTaskKey) => isTrue trivial

/-- Number of tasks that are dispatched or running. -/
def active (t : Tenant ι) : Nat := t.shared.dispatched.length + ∑ i, (t.place i).running

/-- The tenant occupies no more than its slots. -/
def Bounded (concurrency : Int) (t : Tenant ι) : Prop := active t ≤ (max 1 concurrency).toNat

/-- A dispatch happens while fewer tasks are dispatched or running than the tenant may have. -/
def DispatchBounded (concurrency : Int) (t : Tenant ι) : ι × Operation → Prop
  | (_, .dispatch) => active t < (max 1 concurrency).toNat
  | _ => True

instance (c : Int) (t : Tenant ι) : (a : ι × Operation) → Decidable (DispatchBounded c t a)
  | (_, .dispatch) => inferInstanceAs (Decidable (_ < _))
  | (_, .send _) | (_, .getTaskKey) | (_, .setTaskWaitingTime) | (_, .push)
  | (_, .receive _) | (_, .index) | (_, .rpop) | (_, .deleteTaskKey) => isTrue trivial

private theorem bounded_step {c : Int} {t t' : Tenant ι}
    (h : Bounded c t) (hstep : step c t a = some t') : Bounded c t' ↔ DispatchBounded c t a := by
  obtain ⟨i, a⟩ := a
  obtain ⟨q, l, hop, rfl⟩ := Processes.step_eq_some.mp hstep
  have hsum := Processes.sum_update Place.running t.place i l
  unfold Bounded active at h
  rcases operate_cases hop with ⟨task, hl, rfl, rfl, rfl⟩ | ⟨task, -, hl, rfl, rfl, hl'⟩ |
    ⟨task, hl, rfl, hmem, rfl, rfl⟩ | ⟨-, hdispatch, hd, hrun, -, -⟩
  · have hold : (t.place i).running = 0 := by
      rw [hl]
      rfl
    have hnew : Place.running .idle = 0 := rfl
    refine iff_of_true ?_ trivial
    simp only [Bounded, active, TenantIsolatedTaskQueue.pushTask]
    omega
  · simp only [Bounded, active, DispatchBounded, TenantIsolatedTaskQueue.dispatch,
      List.length_append, List.length_cons, List.length_nil]
    omega
  · have hold : (t.place i).running = 0 := by
      rw [hl]
      rfl
    have hnew : (Place.indexing task).running = 1 := rfl
    refine iff_of_true ?_ trivial
    have hlength := List.length_erase_of_mem hmem
    have hpos := List.length_pos_of_mem hmem
    simp only [Bounded, active]
    omega
  · have hsafe : DispatchBounded c t (i, a) := by
      cases a with
      | dispatch => exact absurd rfl hdispatch
      | _ => trivial
    refine iff_of_true ?_ hsafe
    simp only [Bounded, active, hd]
    omega

end Tenant

/-- A task that indexes one document. -/
def oneDocument (documentId : String) : DocumentTask := ⟨"tenant", "dataset", [documentId]⟩

/-- A task is dispatched, a second one is pushed while it is indexed and dispatched after it. -/
private def handover : List (Bool × Operation) :=
  [(true, .send (oneDocument "a")), (true, .getTaskKey), (true, .setTaskWaitingTime),
    (true, .dispatch), (false, .receive (oneDocument "a")), (true, .send (oneDocument "b")),
    (true, .getTaskKey), (true, .push), (false, .index), (false, .rpop),
    (false, .setTaskWaitingTime), (false, .dispatch), (true, .receive (oneDocument "b"))]

section Conservation

variable {ι : Type} [DecidableEq ι]

/-- The tasks a process has in its hands and is not yet indexing. -/
def Place.held : Place → List DocumentTask
  | .sending task | .keyFound task | .keyMissing task | .keySet task => [task]
  | .pulling _ nextTasks => nextTasks
  | .pulled nextTask rest | .refreshed nextTask rest => nextTask :: rest
  | .idle | .indexing _ | .clearing => []

def Operation.sent : Operation → List DocumentTask
  | .send task => [task]
  | _ => []

def Operation.received : Operation → List DocumentTask
  | .receive task => [task]
  | _ => []

private theorem held_afterPull (tasks : List DocumentTask) : (afterPull tasks).held = tasks := by
  cases tasks <;> rfl

private theorem held_afterDispatch (tasks : List DocumentTask) :
    (afterDispatch tasks).held = tasks := by
  cases tasks <;> rfl

/-- No command loses a task or makes one. -/
private theorem operate_count {c : Int} {q q' : TenantIsolatedTaskQueue} {l l' : Place}
    {a : Operation} (h : operate c q l a = some (q', l')) (task : DocumentTask) :
    a.received.count task + (q'.queue.count task + q'.dispatched.count task) +
      l'.held.count task = q.queue.count task + q.dispatched.count task + l.held.count task +
        a.sent.count task := by
  unfold operate at h
  split at h
  case h_2 =>
    split at h <;> cases h <;> simp only [Operation.received, Operation.sent, Place.held] <;> omega
  case h_6 =>
    split at h
    next hmem =>
      cases h
      have herase := (List.perm_cons_erase hmem).count_eq task
      rw [← List.singleton_append, List.count_append] at herase
      simp only [Operation.received, Operation.sent, Place.held, List.count_nil]
      omega
    next => cases h
  case h_7 =>
    cases h
    have hnone : (pullTasks c).held = [] := by
      unfold pullTasks
      split <;> rfl
    rw [hnone]
    simp only [Operation.received, Operation.sent, Place.held]
    omega
  case h_8 remaining nextTasks =>
    split at h
    next =>
      cases h
      rw [held_afterPull]
      simp only [Operation.received, Operation.sent, Place.held]
      omega
    next last hlast =>
      cases h
      have hqueue := congrArg (List.count task) (List.dropLast_append_getLast? last hlast)
      have hheld : (match remaining with
          | 0 => afterPull (nextTasks ++ [last])
          | remaining + 1 => .pulling remaining (nextTasks ++ [last])).held =
          nextTasks ++ [last] := by
        cases remaining with
        | zero => exact held_afterPull _
        | succ => rfl
      rw [List.count_append] at hqueue
      simp only [hheld, Operation.received, Operation.sent, List.count_append, List.count_nil]
      simp only [Place.held]
      omega
  case h_10 nextTask rest =>
    cases h
    have hheld : (Place.refreshed nextTask rest).held = [nextTask] ++ rest := rfl
    simp only [held_afterDispatch, hheld, Operation.received, Operation.sent,
      TenantIsolatedTaskQueue.dispatch, List.count_append]
    omega
  case h_12 => cases h
  all_goals
    cases h
    simp [Operation.received, Operation.sent, Place.held, List.count_append, List.count_cons,
      TenantIsolatedTaskQueue.pushTask, TenantIsolatedTaskQueue.dispatch,
      TenantIsolatedTaskQueue.setTaskWaitingTime, TenantIsolatedTaskQueue.deleteTaskKey]
    try omega

variable [Fintype ι]

/-- No task is lost and none is indexed twice: in every run of producers and workers the tasks
sent are those received for indexing, those in the list and in messages, and those in the hands
of a process, each as often. When no process has a task in its hands and no message is left, a
task that was not received is still in the list. -/
theorem tasks_conserved {concurrency : Int} {as : List (ι × Operation)} {t : Tenant ι}
    (hrun : run (step concurrency) noTasks as = some t) :
    (∀ task, (as.flatMap (·.2.sent)).count task = (as.flatMap (·.2.received)).count task +
      (t.shared.queue.count task + t.shared.dispatched.count task) +
        ∑ i, (t.place i).held.count task) ∧
    ((∀ i, (t.place i).held = []) → t.shared.dispatched = [] →
      (as.flatMap (·.2.sent)).Perm (as.flatMap (·.2.received) ++ t.shared.queue)) := by
  have hcount : ∀ task, (as.flatMap (·.2.sent)).count task =
      (as.flatMap (·.2.received)).count task +
        (t.shared.queue.count task + t.shared.dispatched.count task) +
          ∑ i, (t.place i).held.count task := by
    intro task
    refine run_trace_induction (P := fun as t => (as.flatMap (·.2.sent)).count task =
      (as.flatMap (·.2.received)).count task +
        (t.shared.queue.count task + t.shared.dispatched.count task) +
          ∑ i, (t.place i).held.count task) ?_ ?_ hrun
    · simp [noTasks, Place.held]
    · rintro as m ⟨i, a⟩ m' - hm hstep
      obtain ⟨q, l, hop, rfl⟩ := Processes.step_eq_some.mp hstep
      have hone := operate_count hop task
      have hsum := Processes.sum_update (fun l => l.held.count task) m.place i l
      simp only [List.flatMap_append, List.flatMap_singleton, List.count_append]
      omega
  refine ⟨hcount, fun hheld hd => List.perm_iff_count.mpr fun task => ?_⟩
  rw [hcount, hd, List.count_append]
  simp [hheld]

end Conservation

theorem tasks_conserved_handover : ∃ t : Tenant Bool,
    run (step 1) noTasks handover = some t ∧
    [oneDocument "a", oneDocument "b"].Perm
      ([oneDocument "a", oneDocument "b"] ++ t.shared.queue) := by
  obtain ⟨t, ht, hheld, hd⟩ : ∃ t, run (step 1) (noTasks : Tenant Bool) handover = some t ∧
      (∀ i, (t.place i).held = []) ∧ t.shared.dispatched = [] := by
    decide +kernel
  exact ⟨t, ht, (tasks_conserved ht).2 hheld hd⟩

end PlatformSpec.Indexing
