import PlatformSpec.Base.Interleaving
import PlatformSpec.Container.Outputs
import PlatformSpec.Runtime.VariablePool

/-!
# Conversation variables in parallel iterations

Models how `_execute_parallel_iterations` of `nodes/iteration/iteration_node.py` treats the
variable pool. Every task works on a copy of the parent's pool; when its future is processed, the
conversation variables of the copy replace those of the parent.
-/

namespace PlatformSpec.Container

open Base PlatformSpec.Runtime

/-- `CONVERSATION_VARIABLE_NODE_ID`. -/
def conversationVariableNodeId : String := "conversation"

/-- A value a child run adds to its pool, with the node id and the name it is stored under. -/
structure PoolWrite where
  nodeId : String
  name : String
  value : Segment

/-- What one iteration does: its item, what its child run writes in order, and the error with which
the child run fails, if it does. -/
structure Task where
  item : Segment
  writes : List PoolWrite
  failure : Option String := none

/-- An iteration node: its settings, its id and its items. -/
structure IterationNode where
  data : IterationNodeData
  nodeId : String
  tasks : List Task

/-- `_extract_conversation_variable_snapshot`. -/
def extractSnapshot (pool : VariablePool) : Std.ExtTreeMap String Segment :=
  pool.variableDictionary.getD conversationVariableNodeId ∅

/-- `_sync_conversation_variables_from_snapshot` on the parent's pool. -/
def syncFromSnapshot (parentPool : VariablePool) (snapshot : Std.ExtTreeMap String Segment) :
    VariablePool :=
  let removedKeys := (extractSnapshot parentPool).keys.filter fun name => name ∉ snapshot
  let parentPool := removedKeys.foldl
    (fun pool name => pool.remove conversationVariableNodeId name) parentPool
  parentPool.addAll conversationVariableNodeId snapshot.toList

/-- The iteration node's thread: the pool, how many tasks the workers have taken up and how many
they work on, and the error that ended the loop. -/
structure Parent where
  pool : VariablePool
  takenUp : Nat := 0
  busy : Nat := 0
  error : Option String := none

/-- Where a task is. -/
inductive Place where
  | submitted
  | takenUp
  | running (pool : VariablePool)
  | completed (result : Except String (Std.ExtTreeMap String Segment))
  | processed

/-- The steps of a task: a worker takes it up, copies the pool, runs the child engine; then the
iteration node processes the future. -/
inductive Act where
  | takeUp
  | copyPool
  | runChild
  | process
  deriving DecidableEq

namespace IterationNode

variable (node : IterationNode)

/-- Everything written to the copy of an iteration: its index, its item, and what the child run
writes. -/
def writesOf (index : Nat) : List PoolWrite :=
  match node.tasks[index]? with
  | none => []
  | some task => ⟨node.nodeId, "index", .plain (toString index)⟩ ::
      ⟨node.nodeId, "item", task.item⟩ :: task.writes

/-- The error raised by `_run_single_iter`: a failure matters in mode `terminated` only. -/
def raised (index : Nat) : Option String :=
  match node.data.errorHandleMode with
  | .terminated => (node.tasks[index]?).bind Task.failure
  | _ => none

/-- The copy after the child run. -/
def writeAll (pool : VariablePool) (writes : List PoolWrite) : VariablePool :=
  writes.foldl (fun pool w => pool.add w.nodeId w.name w.value) pool

/-- One step of one task; tasks are taken up in the order they were submitted, by as many workers
as there are. -/
def act (index : Nat) (p : Parent) : Place → Act → Option (Parent × Place)
  | .submitted, .takeUp =>
    if index = p.takenUp ∧ index < node.tasks.length ∧
        p.busy < min node.data.parallelNums node.tasks.length ∧ p.error = none then
      some ({ p with takenUp := p.takenUp + 1, busy := p.busy + 1 }, .takenUp)
    else none
  | .takenUp, .copyPool => some (p, .running p.pool)
  | .running pool, .runChild =>
    let result := match node.raised index with
      | some error => .error error
      | none => .ok (extractSnapshot (writeAll pool (node.writesOf index)))
    some ({ p with busy := p.busy - 1 }, .completed result)
  | .completed (.ok snapshot), .process =>
    if p.error = none then some ({ p with pool := syncFromSnapshot p.pool snapshot }, .processed)
    else none
  | .completed (.error error), .process =>
    if p.error = none then some ({ p with error := some error }, .processed) else none
  | _, _ => none

/-- All tasks of the node at work. -/
abbrev State := Processes Parent Nat Place

/-- One step of one task. -/
def step : State → Nat × Act → Option State := Processes.step node.act

/-- The tasks have been submitted. -/
def start (pool : VariablePool) : State := ⟨{ pool }, fun _ => .submitted⟩

/-- The loop over the futures has ended. -/
def Finished (s : State) : Prop :=
  s.shared.error.isSome ∨ ∀ index < node.tasks.length, s.place index = .processed

/-! ### What is stored where -/

private theorem lookup_foldl_remove (names : List String) (pool : VariablePool) (n x : String) :
    (names.foldl (fun pool name => pool.remove n name) pool).lookup n x =
      if x ∈ names then none else pool.lookup n x := by
  induction names generalizing pool with
  | nil => rfl
  | cons name names ih =>
    rw [List.foldl_cons, ih, VariablePool.lookup_remove]
    by_cases hin : x ∈ names
    · rw [if_pos hin, if_pos (List.mem_cons_of_mem _ hin)]
    · rw [if_neg hin]
      by_cases hx : name = x
      · simp [hx]
      · simp [hx, hin, Ne.symm hx]

private theorem extractSnapshot_getElem? (pool : VariablePool) (x : String) :
    (extractSnapshot pool)[x]? = pool.lookup conversationVariableNodeId x :=
  (VariablePool.lookup_eq_getD ..).symm

/-- After a write-back the parent holds the conversation variables of the snapshot, and no
others. -/
theorem lookup_syncFromSnapshot (parentPool : VariablePool)
    (snapshot : Std.ExtTreeMap String Segment) (x : String) :
    (syncFromSnapshot parentPool snapshot).lookup conversationVariableNodeId x =
      snapshot[x]? := by
  unfold syncFromSnapshot
  simp only [VariablePool.lookup_addAll_toList, lookup_foldl_remove]
  cases hsnapshot : snapshot[x]? with
  | some value => rfl
  | none =>
    have hnot : x ∉ snapshot := by
      rw [Std.ExtTreeMap.mem_iff_isSome_getElem?, hsnapshot]
      exact Bool.false_ne_true
    rw [Option.none_or]
    split
    next => rfl
    next hkeep =>
      rw [← extractSnapshot_getElem?]
      refine Std.ExtTreeMap.getElem?_eq_none fun hin => hkeep ?_
      exact List.mem_filter.mpr ⟨Std.ExtTreeMap.mem_keys.mpr hin, decide_eq_true hnot⟩

/-- The value an iteration assigns to a conversation variable: the last one it writes. -/
def assigned (index : Nat) (x : String) : Option Segment :=
  ((node.writesOf index).reverse.find? fun w =>
    w.nodeId = conversationVariableNodeId && w.name = x).map PoolWrite.value

private theorem lookup_writeAll (pool : VariablePool) (writes : List PoolWrite) (n x : String) :
    (writeAll pool writes).lookup n x =
      ((writes.reverse.find? fun w => w.nodeId = n && w.name = x).map PoolWrite.value).or
        (pool.lookup n x) := by
  unfold writeAll
  induction writes generalizing pool with
  | nil => rfl
  | cons w writes ih =>
    rw [List.foldl_cons, ih, VariablePool.lookup_add, List.reverse_cons, List.find?_append]
    cases writes.reverse.find? fun w => w.nodeId = n && w.name = x with
    | some found => rfl
    | none =>
      by_cases hw : w.nodeId = n ∧ w.name = x
      · simp [hw]
      · rw [if_neg hw]
        have hfalse : (decide (w.nodeId = n) && decide (w.name = x)) = false := by
          simpa using hw
        simp [hfalse]

/-! ### Which copies hold the update -/

/-- Which pools hold the update of one iteration: the parent's, and the copies. -/
structure Marks where
  parent : Bool := false
  copies : Nat → Bool := fun _ => false

/-- A copy holds the update if the parent does when it is taken; a write-back makes the parent
hold it if the copy does, or if it is that of iteration `source`. -/
def mark (source : Nat) (m : Marks) : Nat × Act → Marks
  | (index, .copyPool) => { m with copies := Function.update m.copies index m.parent }
  | (index, .process) =>
    if (node.raised index).isSome then m
    else { m with parent := decide (index = source) || m.copies index }
  | _ => m

/-- Going back from the last write-back to the one that was last when its copy was taken, and so
on, one comes to the write-back of iteration `source`. -/
def CarriedBack (source : Nat) (schedule : List (Nat × Act)) : Prop :=
  (schedule.foldl (node.mark source) {}).parent = true

variable {node}

/-- The value at a place is the one its mark says: `value` if the copy holds the update, else the
one from before. -/
private def ValueAt (node : IterationNode) (source : Nat) (x : String) (value : Segment)
    (old : Option Segment) (copied : Bool) (index : Nat) : Place → Prop
  | .running pool => pool.lookup conversationVariableNodeId x = if copied then some value else old
  | .completed (.ok snapshot) => node.raised index = none ∧
      snapshot[x]? = if decide (index = source) || copied then some value else old
  | .completed (.error error) => node.raised index = some error
  | _ => True

/-- The value in every pool is the one its mark says. -/
private structure Marked (node : IterationNode) (source : Nat) (x : String) (value : Segment)
    (old : Option Segment) (m : Marks) (s : State) : Prop where
  parent : s.shared.pool.lookup conversationVariableNodeId x =
    if m.parent then some value else old
  place : ∀ index, ValueAt node source x value old (m.copies index) index (s.place index)

variable {old : Option Segment} {value : Segment} {source : Nat} {s s' : State} {x : String}

private theorem Marked.update {m m' : Marks} (h : Marked node source x value old m s)
    {p : Parent} {index : Nat} {place : Place}
    (hparent : p.pool.lookup conversationVariableNodeId x = if m'.parent then some value else old)
    (hplace : ValueAt node source x value old (m'.copies index) index place)
    (hothers : ∀ j, j ≠ index → m'.copies j = m.copies j) :
    Marked node source x value old m' ⟨p, Function.update s.place index place⟩ := by
  refine ⟨hparent, fun j => ?_⟩
  by_cases hj : j = index
  · subst hj
    rw [Processes.place_update_self]
    exact hplace
  · rw [Processes.place_update_of_ne _ _ hj, hothers j hj]
    exact h.place j

private theorem Marked.step (hsource : node.assigned source x = some value)
    (hothers : ∀ index, index ≠ source → node.assigned index x = none) {m : Marks}
    (h : Marked node source x value old m s) {a : Nat × Act} (hstep : node.step s a = some s') :
    Marked node source x value old (node.mark source m a) s' := by
  obtain ⟨index, a⟩ := a
  obtain ⟨p', l', hact, rfl⟩ := Processes.step_eq_some.mp hstep
  have hat := h.place index
  unfold act at hact
  split at hact
  next =>
    split at hact
    next =>
      cases hact
      exact h.update h.parent trivial fun _ _ => rfl
    next => cases hact
  next =>
    cases hact
    refine h.update h.parent ?_ fun j hj => Function.update_of_ne hj ..
    show _ = if Function.update m.copies index m.parent index then _ else _
    rw [Function.update_self]
    exact h.parent
  next pool hplace =>
    cases hact
    refine h.update h.parent ?_ fun _ _ => rfl
    cases hraised : node.raised index with
    | some error => exact hraised
    | none =>
      refine ⟨hraised, ?_⟩
      rw [hplace] at hat
      rw [extractSnapshot_getElem?, lookup_writeAll, hat]
      show (node.assigned index x).or _ = _
      by_cases hindex : index = source
      · rw [hindex, hsource]
        simp
      · rw [hothers index hindex]
        simp [hindex, mark]
  next snapshot hplace =>
    split at hact
    next =>
      cases hact
      rw [hplace] at hat
      obtain ⟨hraised, hvalue⟩ := hat
      have hmark : node.mark source m (index, .process) =
          { m with parent := decide (index = source) || m.copies index } := by
        simp [mark, hraised]
      rw [hmark]
      refine h.update ?_ trivial fun _ _ => rfl
      rw [lookup_syncFromSnapshot, hvalue]
    next => cases hact
  next error hplace =>
    split at hact
    next =>
      cases hact
      rw [hplace] at hat
      have hraised : node.raised index = some error := hat
      have hmark : node.mark source m (index, .process) = m := by simp [mark, hraised]
      rw [hmark]
      exact h.update h.parent trivial fun _ _ => rfl
    next => cases hact
  next => cases hact

private theorem Marked.run (hsource : node.assigned source x = some value)
    (hothers : ∀ index, index ≠ source → node.assigned index x = none)
    {schedule : List (Nat × Act)} {m : Marks}
    (h : Marked node source x value old m s) (hrun : Base.run node.step s schedule = some s') :
    Marked node source x value old (schedule.foldl (node.mark source) m) s' := by
  induction schedule generalizing s m with
  | nil =>
    cases hrun
    exact h
  | cons a schedule ih =>
    obtain ⟨k, hk, hrest⟩ := run_cons_eq_some.mp hrun
    exact ih (h.step hsource hothers hk) hrest

/-- For every set of iterations of which one assigns the variable, every schedule and every state
it reaches, the end of the node among them: the parent's pool holds the assigned value exactly if
it is the value held before or the update was carried back. -/
theorem update_kept_iff (node : IterationNode) (pool : VariablePool) (source : Nat) (x : String)
    (value : Segment) (hsource : node.assigned source x = some value)
    (hothers : ∀ index, index ≠ source → node.assigned index x = none)
    {schedule : List (Nat × Act)} {s : State}
    (hrun : Base.run node.step (start pool) schedule = some s) :
    s.shared.pool.lookup conversationVariableNodeId x = some value ↔
      pool.lookup conversationVariableNodeId x = some value ∨
        node.CarriedBack source schedule := by
  have hstart : Marked node source x value (pool.lookup conversationVariableNodeId x) {}
      (start pool) :=
    ⟨rfl, fun _ => trivial⟩
  rw [(hstart.run hsource hothers hrun).parent]
  unfold CarriedBack
  split
  next hcarried => exact iff_of_true rfl (.inr hcarried)
  next hnot => exact ⟨.inl, fun hor => hor.resolve_right hnot⟩

/-- Two items side by side; the first iteration assigns a conversation variable. -/
def sideBySide : IterationNode where
  data := { isParallel := true }
  nodeId := "iteration"
  tasks := [
    { item := .plain "first", writes := [⟨"conversation", "topic", .plain "new"⟩] },
    { item := .plain "second", writes := [⟨"answer", "text", .plain "done"⟩] }]

/-- The pool of the parent before. -/
def oldTopic : VariablePool := VariablePool.empty.add "conversation" "topic" (.plain "old")

/-- Both iterations copy the pool and run, and the futures are processed in the given order. -/
def bothRun (first second : Nat) : List (Nat × Act) :=
  [(0, .takeUp), (0, .copyPool), (1, .takeUp), (1, .copyPool), (0, .runChild), (1, .runChild),
    (first, .process), (second, .process)]

private theorem sideBySide_assigned : sideBySide.assigned 0 "topic" = some (.plain "new") ∧
    ∀ index, index ≠ 0 → sideBySide.assigned index "topic" = none := by
  refine ⟨rfl, fun index hindex => ?_⟩
  match index with
  | 0 => exact absurd rfl hindex
  | 1 => rfl
  | _ + 2 => rfl

private theorem sideBySide_run (first second : Nat)
    (h : (Base.run sideBySide.step (start oldTopic) (bothRun first second)).any
      fun s => s.shared.error.isNone && (List.range 2).all fun index =>
        match s.place index with
        | .processed => true
        | _ => false) :
    ∃ s, Base.run sideBySide.step (start oldTopic) (bothRun first second) = some s ∧
      sideBySide.Finished s := by
  obtain ⟨s, hs, hends⟩ := (Option.any_eq_true _ _).mp h
  rw [Bool.and_eq_true, List.all_eq_true] at hends
  refine ⟨s, hs, .inr fun index hindex => ?_⟩
  have hplace := hends.2 index (List.mem_range.mpr hindex)
  split at hplace
  next heq => exact heq
  next => cases hplace

theorem update_kept_lastProcessed : ∃ s,
    Base.run sideBySide.step (start oldTopic) (bothRun 1 0) = some s ∧ sideBySide.Finished s ∧
      s.shared.pool.lookup conversationVariableNodeId "topic" = some (.plain "new") := by
  obtain ⟨s, hrun, hfinished⟩ := sideBySide_run 1 0 (by decide +kernel)
  obtain ⟨hsource, hothers⟩ := sideBySide_assigned
  refine ⟨s, hrun, hfinished, (update_kept_iff sideBySide oldTopic 0 "topic" (.plain "new")
    hsource hothers hrun).mpr (.inr ?_)⟩
  unfold CarriedBack
  decide +kernel

/-- The second iteration copied the pool before the first one's assignment was written back, and
is written back after it. -/
theorem update_lost_staleCopy : ¬ ∀ (node : IterationNode) (pool : VariablePool) (source : Nat)
    (x : String) (value : Segment), node.assigned source x = some value →
    (∀ index, index ≠ source → node.assigned index x = none) →
    ∀ (schedule : List (Nat × Act)) (s : State),
      Base.run node.step (start pool) schedule = some s → node.Finished s →
      s.shared.pool.lookup conversationVariableNodeId x = some value := by
  intro hclaim
  obtain ⟨s, hrun, hfinished⟩ := sideBySide_run 0 1 (by decide +kernel)
  obtain ⟨hsource, hothers⟩ := sideBySide_assigned
  have hnew := hclaim sideBySide oldTopic 0 "topic" (.plain "new") hsource hothers _ s hrun
    hfinished
  have hold : (Base.run sideBySide.step (start oldTopic) (bothRun 0 1)).any fun s =>
      (s.shared.pool.lookup conversationVariableNodeId "topic").map Segment.markdown =
        some "old" := by
    decide +kernel
  rw [hrun] at hold
  have hmarkdown := of_decide_eq_true hold
  rw [hnew] at hmarkdown
  exact absurd hmarkdown (by decide)

end IterationNode
end PlatformSpec.Container
