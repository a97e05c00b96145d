import Mathlib.Data.List.GetD
import Mathlib.Data.List.Range

/-!
# Outputs of an iteration

Models the output list of `nodes/iteration/iteration_node.py`: `_run_single_iter`, the
sequential and the parallel execution and `_flatten_outputs_if_needed`. A child run is kept as
how it ended; the parallel execution takes the order in which the tasks complete.
-/

namespace PlatformSpec.Container

/-- A Python object, as far as the node tells outputs apart. -/
inductive Value where
  | null
  | list (items : List Value)
  | plain (text : String)

/-- `ErrorHandleMode`. -/
inductive ErrorHandleMode where
  | terminated
  | continueOnError
  | removeAbnormalOutput
  deriving DecidableEq

/-- `IterationNodeData`, without the selectors. -/
structure IterationNodeData where
  isParallel : Bool := false
  parallelNums : Nat := 10
  errorHandleMode : ErrorHandleMode := .terminated
  flattenOutput : Bool := true
  deriving DecidableEq

/-- How a child run ended: with a value for the output selector or none, with a failure, or
aborted or paused. -/
inductive RunEnd where
  | succeeded (result : Option Value)
  | failed (error : String)
  | stopped

/-- An output list and the error of an `IterationNodeError` raised while it was built. -/
abbrev Outputs := List Value × Option String

/-! ### One child run -/

/-- `_run_single_iter`: what is appended to the outputs, or the error raised. -/
def runSingleIter (mode : ErrorHandleMode) : RunEnd → Except String (List Value)
  | .succeeded none => .ok [.null]
  | .succeeded (some value) => .ok [value]
  | .failed error =>
    match mode with
    | .terminated => .error error
    | .continueOnError => .ok [.null]
    | .removeAbnormalOutput => .ok []
  | .stopped => .ok []

/-- `_execute_single_iteration_parallel`, its output value. -/
def executeSingleIterationParallel (mode : ErrorHandleMode) (ending : RunEnd) :
    Except String Value := do
  let outputs ← runSingleIter mode ending
  return outputs.headD .null

/-! ### All child runs -/

/-- The sequential branch of `_execute_iterations`. -/
def executeSequential (mode : ErrorHandleMode) : List RunEnd → List Value → Outputs
  | [], outputs => (outputs, none)
  | ending :: rest, outputs =>
    match runSingleIter mode ending with
    | .ok appended => executeSequential mode rest (outputs ++ appended)
    | .error error => (outputs, some error)

/-- The loop over the completed futures, in the order of completion. -/
def processCompleted (mode : ErrorHandleMode) (ends : List RunEnd) :
    List Nat → List Value → Outputs
  | [], outputs => (outputs, none)
  | index :: rest, outputs =>
    match executeSingleIterationParallel mode (ends.getD index .stopped) with
    | .ok value => processCompleted mode ends rest (outputs.set index value)
    | .error error =>
      match mode with
      | .terminated => (outputs, some error)
      | .continueOnError => processCompleted mode ends rest (outputs.set index .null)
      | .removeAbnormalOutput => processCompleted mode ends rest (outputs.set index .null)

/-- The output is not `None`. -/
def Value.isSome : Value → Bool
  | .null => false
  | _ => true

/-- `_execute_parallel_iterations`. -/
def executeParallel (mode : ErrorHandleMode) (ends : List RunEnd) (order : List Nat) : Outputs :=
  let r := processCompleted mode ends order (List.replicate ends.length .null)
  match r.2, mode with
  | none, .removeAbnormalOutput => (r.1.filter Value.isSome, none)
  | _, _ => r

/-! ### Flattening -/

/-- `isinstance(output, list)`. -/
def Value.isList : Value → Bool
  | .list _ => true
  | _ => false

/-- The elements a list adds to the flattened outputs. -/
def Value.items : Value → List Value
  | .list items => items
  | .null => []
  | .plain text => [.plain text]

/-- There are outputs other than `None`, and all of them are lists. -/
def flattens (flattenOutput : Bool) (outputs : List Value) : Bool :=
  flattenOutput && !(outputs.filter Value.isSome).isEmpty &&
    (outputs.filter Value.isSome).all Value.isList

/-- `_flatten_outputs_if_needed`. -/
def flattenOutputsIfNeeded (flattenOutput : Bool) (outputs : List Value) : List Value :=
  if flattens flattenOutput outputs then outputs.flatMap Value.items else outputs

/-- The output list `_run` reports, with the error if it fails; `order` is the order in which the
tasks of a parallel execution complete. -/
def run (data : IterationNodeData) (ends : List RunEnd) (order : List Nat) : Outputs :=
  if ends.isEmpty then ([], none)
  else
    let r := if data.isParallel then executeParallel data.errorHandleMode ends order
      else executeSequential data.errorHandleMode ends []
    (flattenOutputsIfNeeded data.flattenOutput r.1, r.2)

/-- The child run ended with a failure. -/
def RunEnd.isFailed : RunEnd → Bool
  | .failed _ => true
  | _ => false

/-- The item whose failure completes first. -/
def earliestFailure (ends : List RunEnd) (order : List Nat) : Option Nat :=
  order.find? fun index => (ends.getD index .stopped).isFailed

/-! ### What each execution collects -/

/-- The output of a child run, `None` unless it succeeded with a value. -/
def RunEnd.output : RunEnd → Value
  | .succeeded result => result.getD .null
  | _ => .null

/-- What the sequential execution appends for a child run after which it goes on. -/
def RunEnd.appended (mode : ErrorHandleMode) : RunEnd → List Value
  | .succeeded result => [result.getD .null]
  | .failed _ => if mode = .continueOnError then [.null] else []
  | .stopped => []

/-- The outputs at the indices of `done`, `None` elsewhere. -/
def outputsAt (ends : List RunEnd) (done : List Nat) : List Value :=
  (List.range ends.length).map fun index =>
    if index ∈ done then (ends.getD index .stopped).output else .null

section

variable (mode : ErrorHandleMode) (ends : List RunEnd) {order : List Nat}

private theorem runSingleIter_ok (ending : RunEnd)
    (h : mode = .terminated → ending.isFailed = false) :
    runSingleIter mode ending = .ok (ending.appended mode) := by
  cases ending with
  | succeeded result =>
    cases result with
    | none => rfl
    | some value => rfl
  | failed error =>
    cases mode with
    | terminated => exact absurd (h rfl) (by simp [RunEnd.isFailed])
    | continueOnError => rfl
    | removeAbnormalOutput => rfl
  | stopped => rfl

private theorem executeSingle_ok (ending : RunEnd)
    (h : mode = .terminated → ending.isFailed = false) :
    executeSingleIterationParallel mode ending = .ok ending.output := by
  unfold executeSingleIterationParallel
  rw [runSingleIter_ok mode ending h]
  cases ending with
  | succeeded result => rfl
  | failed error =>
    cases mode with
    | terminated => rfl
    | continueOnError => rfl
    | removeAbnormalOutput => rfl
  | stopped => rfl

theorem executeSequential_append (pre rest : List RunEnd) (outputs : List Value)
    (h : mode = .terminated → ∀ ending ∈ pre, ending.isFailed = false) :
    executeSequential mode (pre ++ rest) outputs =
      executeSequential mode rest (outputs ++ pre.flatMap (RunEnd.appended mode)) := by
  induction pre generalizing outputs with
  | nil => simp
  | cons ending pre ih =>
    have hone := runSingleIter_ok mode ending
      fun hm => h hm ending List.mem_cons_self
    rw [List.cons_append, executeSequential, hone]
    simp only []
    rw [ih _ fun hm e he => h hm e (List.mem_cons_of_mem _ he), List.flatMap_cons,
      List.append_assoc]

theorem processCompleted_append (pre rest : List Nat) (outputs : List Value)
    (h : mode = .terminated → ∀ index ∈ pre, (ends.getD index .stopped).isFailed = false) :
    processCompleted mode ends (pre ++ rest) outputs = processCompleted mode ends rest
      (pre.foldl (fun out index => out.set index (ends.getD index .stopped).output) outputs) := by
  induction pre generalizing outputs with
  | nil => rfl
  | cons index pre ih =>
    have hone := executeSingle_ok mode (ends.getD index .stopped)
      fun hm => h hm index List.mem_cons_self
    rw [List.cons_append, processCompleted, hone]
    simp only []
    rw [ih _ fun hm i hi => h hm i (List.mem_cons_of_mem _ hi), List.foldl_cons]

private theorem foldl_set_getElem? (done : List Nat) (outputs : List Value) (index : Nat)
    (h : index < outputs.length) :
    (done.foldl (fun out i => out.set i (ends.getD i .stopped).output) outputs)[index]? =
      if index ∈ done then some (ends.getD index .stopped).output else outputs[index]? := by
  induction done generalizing outputs with
  | nil => rfl
  | cons i done ih =>
    rw [List.foldl_cons, ih _ (by rwa [List.length_set])]
    by_cases hin : index ∈ done
    · rw [if_pos hin, if_pos (List.mem_cons_of_mem _ hin)]
    · rw [if_neg hin]
      by_cases hi : index = i
      · subst hi
        rw [List.getElem?_set_self h, if_pos List.mem_cons_self]
      · rw [List.getElem?_set_ne (fun he => hi he.symm), if_neg]
        simp only [List.mem_cons, hi, hin, or_self, not_false_iff]

theorem length_foldl_set (done : List Nat) (outputs : List Value) :
    (done.foldl (fun out i => out.set i (ends.getD i .stopped).output) outputs).length =
      outputs.length := by
  induction done generalizing outputs with
  | nil => rfl
  | cons i done ih => rw [List.foldl_cons, ih, List.length_set]

theorem foldl_set_eq (done : List Nat) :
    done.foldl (fun out i => out.set i (ends.getD i .stopped).output)
      (List.replicate ends.length .null) = outputsAt ends done := by
  apply List.ext_getElem?
  intro index
  unfold outputsAt
  by_cases h : index < ends.length
  · rw [foldl_set_getElem? ends done _ index (by rwa [List.length_replicate]), List.getElem?_map,
      List.getElem?_range h, List.getElem?_replicate, if_pos h]
    split
    next hin => simp [hin]
    next hin => simp [hin]
  · rw [List.getElem?_eq_none, List.getElem?_eq_none]
    · rw [List.length_map, List.length_range]
      exact Nat.le_of_not_lt h
    · rw [length_foldl_set, List.length_replicate]
      exact Nat.le_of_not_lt h

private theorem outputsAt_all (h : order.Perm (List.range ends.length)) :
    outputsAt ends order = ends.map RunEnd.output := by
  apply List.ext_getElem?
  intro index
  unfold outputsAt
  by_cases hi : index < ends.length
  · have hin : index ∈ order := h.mem_iff.mpr (List.mem_range.mpr hi)
    simp [hi, hin]
  · simp [hi]

end

/-! ### Flattened lists -/

section

variable {flag : Bool} {xs ys : List Value}

private theorem flatMap_items_filter (xs : List Value) :
    (xs.filter Value.isSome).flatMap Value.items = xs.flatMap Value.items := by
  induction xs with
  | nil => rfl
  | cons x xs ih =>
    cases x with
    | null => exact ih
    | list items =>
      rw [List.filter_cons_of_pos rfl, List.flatMap_cons, ih, List.flatMap_cons]
    | plain text =>
      rw [List.filter_cons_of_pos rfl, List.flatMap_cons, ih, List.flatMap_cons]

theorem flatten_eq_iff (h : xs.filter Value.isSome = ys.filter Value.isSome) :
    flattenOutputsIfNeeded flag xs = flattenOutputsIfNeeded flag ys ↔
      flattens flag xs = true ∨ xs = ys := by
  have hflat : flattens flag ys = flattens flag xs := by
    unfold flattens
    rw [h]
  unfold flattenOutputsIfNeeded
  rw [hflat]
  by_cases hx : flattens flag xs = true
  · rw [if_pos hx, if_pos hx, ← flatMap_items_filter xs, h, flatMap_items_filter ys]
    simp only [hx, true_or]
  · rw [if_neg hx, if_neg hx]
    exact ⟨.inr, fun hor => hor.resolve_left hx⟩

/-- One list flattens or both do, and what comes out is the same. -/
def FlattenAlike (flag : Bool) (xs ys : List Value) : Prop :=
  (flattens flag xs ∧ flattens flag ys ∧ xs.flatMap Value.items = ys.flatMap Value.items) ∨
  (flattens flag xs ∧ ¬ flattens flag ys ∧ xs.flatMap Value.items = ys) ∨
  (¬ flattens flag xs ∧ flattens flag ys ∧ xs = ys.flatMap Value.items)

theorem flatten_eq_iff_of_ne (h : xs ≠ ys) :
    flattenOutputsIfNeeded flag xs = flattenOutputsIfNeeded flag ys ↔ FlattenAlike flag xs ys := by
  unfold flattenOutputsIfNeeded FlattenAlike
  by_cases hx : flattens flag xs = true
  · by_cases hy : flattens flag ys = true
    · simp [hx, hy]
    · simp [hx, hy]
  · by_cases hy : flattens flag ys = true
    · simp [hx, hy]
    · simp [hx, hy, h]

end

/-! ### When the modes agree -/

section

variable {mode : ErrorHandleMode} {ends : List RunEnd} {order : List Nat}

private theorem filter_appended (mode : ErrorHandleMode) (ends : List RunEnd) :
    (ends.flatMap (RunEnd.appended mode)).filter Value.isSome =
      (ends.map RunEnd.output).filter Value.isSome := by
  induction ends with
  | nil => rfl
  | cons ending ends ih =>
    rw [List.flatMap_cons, List.filter_append, ih, List.map_cons, ← List.singleton_append,
      List.filter_append]
    congr 1
    cases ending with
    | succeeded result => rfl
    | failed error =>
      simp only [RunEnd.appended, RunEnd.output]
      split
      next => rfl
      next => rfl
    | stopped => rfl

theorem length_appended_le (mode : ErrorHandleMode) (ends : List RunEnd) :
    (ends.flatMap (RunEnd.appended mode)).length ≤ ends.length := by
  induction ends with
  | nil => exact Nat.le_refl _
  | cons ending ends ih =>
    rw [List.flatMap_cons, List.length_append, List.length_cons]
    have hone : (ending.appended mode).length ≤ 1 := by
      cases ending with
      | succeeded result => exact Nat.le_refl _
      | failed error =>
        simp only [RunEnd.appended]
        split
        next => exact Nat.le_refl _
        next => exact Nat.zero_le _
      | stopped => exact Nat.zero_le _
    omega

theorem map_output_eq_iff
    (h : mode ≠ .continueOnError → ∀ ending ∈ ends, ending.isFailed = false) :
    ends.map RunEnd.output = ends.flatMap (RunEnd.appended mode) ↔ .stopped ∉ ends := by
  induction ends with
  | nil => simp
  | cons ending ends ih =>
    have hih := ih fun hm e he => h hm e (List.mem_cons_of_mem _ he)
    rw [List.map_cons, List.flatMap_cons, List.mem_cons, not_or]
    cases ending with
    | succeeded result => simp [RunEnd.output, RunEnd.appended, hih]
    | failed error =>
      have hm : mode = .continueOnError := by
        by_contra hne
        exact absurd (h hne _ List.mem_cons_self) (by simp [RunEnd.isFailed])
      simp [RunEnd.output, RunEnd.appended, hm ▸ hih, hm]
    | stopped =>
      refine ⟨fun heq => ?_, fun hnot => absurd rfl hnot.1⟩
      have hlen := congrArg List.length heq
      have hle := length_appended_le mode ends
      simp only [List.length_cons, List.length_map, RunEnd.appended, List.nil_append] at hlen
      omega

theorem filter_output_eq_iff :
    (ends.map RunEnd.output).filter Value.isSome =
        ends.flatMap (RunEnd.appended .removeAbnormalOutput) ↔
      ∀ result, .succeeded result ∈ ends → (result.getD .null).isSome = true := by
  rw [← filter_appended .removeAbnormalOutput, List.filter_eq_self]
  constructor
  · intro h result hmem
    exact h _ (List.mem_flatMap.mpr ⟨_, hmem, List.mem_singleton_self _⟩)
  · intro h value hvalue
    obtain ⟨ending, hmem, hin⟩ := List.mem_flatMap.mp hvalue
    cases ending with
    | succeeded result =>
      rw [List.mem_singleton.mp hin]
      exact h result hmem
    | failed error => cases hin
    | stopped => cases hin

/-- Both modes report the same outputs. In the modes that go on, and without a failure,
flattening hides the difference or there is none: no run was stopped, or, where abnormal outputs
are removed, no run succeeded without a value. After a failure that terminates, flattening has to
make the outputs before the failing item those completed before it. -/
def ModesAgree (data : IterationNodeData) (ends : List RunEnd) (order : List Nat) : Prop :=
  match data.errorHandleMode with
  | .continueOnError =>
    flattens data.flattenOutput (ends.map RunEnd.output) ∨ .stopped ∉ ends
  | .removeAbnormalOutput =>
    flattens data.flattenOutput (ends.map RunEnd.output) ∨
      ∀ result, .succeeded result ∈ ends → (result.getD .null).isSome
  | .terminated =>
    match earliestFailure ends (List.range ends.length) with
    | none => flattens data.flattenOutput (ends.map RunEnd.output) ∨ .stopped ∉ ends
    | some failing => FlattenAlike data.flattenOutput
        (outputsAt ends (order.takeWhile (· ≠ failing)))
        ((ends.take failing).flatMap (RunEnd.appended .terminated))

private theorem processCompleted_all (hperm : order.Perm (List.range ends.length))
    (h : mode = .terminated → ∀ ending ∈ ends, ending.isFailed = false) :
    processCompleted mode ends order (List.replicate ends.length .null) =
      (ends.map RunEnd.output, none) := by
  have hall := processCompleted_append mode ends order []
    (List.replicate ends.length .null) fun hm index hindex => by
      have hlt := List.mem_range.mp (hperm.mem_iff.mp hindex)
      rw [List.getD_eq_getElem _ _ hlt]
      exact h hm _ (List.getElem_mem hlt)
  rw [List.append_nil, foldl_set_eq, outputsAt_all ends hperm] at hall
  exact hall

private theorem executeSequential_all
    (h : mode = .terminated → ∀ ending ∈ ends, ending.isFailed = false) :
    executeSequential mode ends [] = (ends.flatMap (RunEnd.appended mode), none) := by
  have hall := executeSequential_append mode ends [] [] h
  rw [List.append_nil, List.nil_append] at hall
  exact hall

private theorem earliestFailure_range {failing : Nat}
    (h : earliestFailure ends (List.range ends.length) = some failing) :
    ∃ error rest, ends = ends.take failing ++ .failed error :: rest ∧
      ∀ ending ∈ ends.take failing, ending.isFailed = false := by
  obtain ⟨hfailed, pre, post, hrange, hpre⟩ := List.find?_eq_some_iff_append.mp h
  have hlt : failing < ends.length := List.mem_range.mp (hrange ▸ by simp)
  have hlen : pre = List.range failing := by
    have htake := congrArg (List.take pre.length) hrange
    rw [List.take_left, List.take_range] at htake
    have hget : (List.range ends.length)[pre.length]? = some failing := by
      rw [hrange]
      simp
    obtain ⟨hp, hval⟩ := List.getElem?_eq_some_iff.mp hget
    rw [List.getElem_range] at hval
    rw [← htake, hval, Nat.min_eq_left (Nat.le_of_lt hlt)]
  rw [List.getD_eq_getElem _ _ hlt] at hfailed
  cases hend : ends[failing] with
  | succeeded result => simp [hend, RunEnd.isFailed] at hfailed
  | stopped => simp [hend, RunEnd.isFailed] at hfailed
  | failed error =>
    refine ⟨error, ends.drop (failing + 1), ?_, ?_⟩
    · rw [← hend, ← List.drop_eq_getElem_cons hlt, List.take_append_drop]
    · intro ending hin
      obtain ⟨i, hi, rfl⟩ := List.mem_iff_getElem.mp hin
      rw [List.length_take] at hi
      have hi' : i < failing := by omega
      have hp := hpre i (hlen ▸ List.mem_range.mpr hi')
      rw [List.getD_eq_getElem _ _ (by omega)] at hp
      rw [List.getElem_take]
      simpa using hp

private theorem execute_failing {failing : Nat}
    (h : earliestFailure ends (List.range ends.length) = some failing)
    (hfirst : earliestFailure ends order = some failing) :
    ∃ error,
      executeSequential .terminated ends [] =
        ((ends.take failing).flatMap (RunEnd.appended .terminated), some error) ∧
      executeParallel .terminated ends order =
        (outputsAt ends (order.takeWhile (· ≠ failing)), some error) ∧
      failing < ends.length := by
  obtain ⟨error, rest, hends, hbefore⟩ := earliestFailure_range h
  obtain ⟨hfailed, pre, post, horder, hpre⟩ := List.find?_eq_some_iff_append.mp hfirst
  have hlt : failing < ends.length :=
    List.mem_range.mp (List.mem_of_find?_eq_some h)
  have hfailing : ends.getD failing .stopped = .failed error := by
    have hlen : (ends.take failing).length = failing :=
      List.length_take_of_le (Nat.le_of_lt hlt)
    rw [hends, List.getD_append_right _ _ _ _ (Nat.le_of_eq hlen), hlen, Nat.sub_self]
    rfl
  refine ⟨error, ?_, ?_, hlt⟩
  · have hseq := executeSequential_append .terminated (ends.take failing)
      (.failed error :: rest) [] fun _ => hbefore
    rw [← hends, List.nil_append] at hseq
    exact hseq
  · have hpar := processCompleted_append .terminated ends pre
      (failing :: post) (List.replicate ends.length .null) fun _ index hindex => by
        simpa using hpre index hindex
    rw [← horder, foldl_set_eq, processCompleted, hfailing] at hpar
    have hbefore' : order.takeWhile (· ≠ failing) = pre := by
      rw [horder]
      refine (List.takeWhile_append_of_pos fun index hindex => ?_).trans ?_
      · refine decide_eq_true fun he => ?_
        have hp := hpre index hindex
        rw [he, hfailed] at hp
        cases hp
      · simp
    rw [hbefore']
    unfold executeParallel
    rw [hpar]
    rfl

/-- For all items and outcomes, every mode and every order in which the tasks complete with the
same earliest failure. -/
theorem modes_agree_iff (data : IterationNodeData) (ends : List RunEnd) (order : List Nat)
    (hperm : order.Perm (List.range ends.length))
    (hfirst : earliestFailure ends order = earliestFailure ends (List.range ends.length)) :
    (run { data with isParallel := true } ends order).1 =
        (run { data with isParallel := false } ends order).1 ↔ ModesAgree data ends order := by
  by_cases hnil : ends = []
  · subst hnil
    refine iff_of_true rfl ?_
    unfold ModesAgree
    cases data.errorHandleMode with
    | terminated => exact .inr (by simp)
    | continueOnError => exact .inr (by simp)
    | removeAbnormalOutput => exact .inr (by simp)
  have hempty : ends.isEmpty = false := by simpa using hnil
  simp only [run, hempty, Bool.false_eq_true, if_false, if_true]
  -- without a failure to stop at, both executions see every output
  have hgoOn : (data.errorHandleMode = .terminated → ∀ ending ∈ ends, ending.isFailed = false) →
      data.errorHandleMode ≠ .removeAbnormalOutput →
      (flattenOutputsIfNeeded data.flattenOutput
          (executeParallel data.errorHandleMode ends order).1 =
        flattenOutputsIfNeeded data.flattenOutput
          (executeSequential data.errorHandleMode ends []).1 ↔
        flattens data.flattenOutput (ends.map RunEnd.output) ∨ .stopped ∉ ends) := by
    intro hok hne
    have hpar : executeParallel data.errorHandleMode ends order =
        (ends.map RunEnd.output, none) := by
      unfold executeParallel
      rw [processCompleted_all hperm hok]
      cases hmode : data.errorHandleMode with
      | terminated => rfl
      | continueOnError => rfl
      | removeAbnormalOutput => exact absurd hmode hne
    rw [hpar, executeSequential_all hok, flatten_eq_iff (filter_appended _ ends).symm,
      map_output_eq_iff]
    intro hcontinue
    cases hmode : data.errorHandleMode with
    | terminated => exact hok hmode
    | continueOnError => exact absurd hmode hcontinue
    | removeAbnormalOutput => exact absurd hmode hne
  unfold ModesAgree
  cases hmode : data.errorHandleMode with
  | continueOnError =>
    rw [hmode] at hgoOn
    exact hgoOn (fun h => by cases h) (fun h => by cases h)
  | removeAbnormalOutput =>
    have hok : ErrorHandleMode.removeAbnormalOutput = .terminated →
        ∀ ending ∈ ends, ending.isFailed = false := fun h => by cases h
    have hpar : executeParallel .removeAbnormalOutput ends order =
        ((ends.map RunEnd.output).filter Value.isSome, none) := by
      unfold executeParallel
      rw [processCompleted_all hperm hok]
    have hflat : flattens data.flattenOutput ((ends.map RunEnd.output).filter Value.isSome) =
        flattens data.flattenOutput (ends.map RunEnd.output) := by
      simp only [flattens, List.filter_filter, Bool.and_self]
    rw [hpar, executeSequential_all hok, flatten_eq_iff, hflat, filter_output_eq_iff]
    rw [filter_appended, List.filter_filter]
    simp only [Bool.and_self]
  | terminated =>
    rw [hmode] at hgoOn
    simp only []
    cases hfailing : earliestFailure ends (List.range ends.length) with
    | none =>
      refine hgoOn (fun _ ending hin => ?_) (fun h => by cases h)
      obtain ⟨index, hlt, rfl⟩ := List.mem_iff_getElem.mp hin
      have hnot := List.find?_eq_none.mp hfailing index (List.mem_range.mpr hlt)
      rw [List.getD_eq_getElem _ _ hlt] at hnot
      exact Bool.eq_false_iff.mpr hnot
    | some failing =>
      rw [hfailing] at hfirst
      obtain ⟨error, hseq, hpar, hlt⟩ := execute_failing hfailing hfirst
      rw [hseq, hpar]
      refine flatten_eq_iff_of_ne fun heq => ?_
      have hlen := congrArg List.length heq
      have hle := length_appended_le .terminated (ends.take failing)
      simp only [outputsAt, List.length_map, List.length_range] at hlen
      rw [List.length_take] at hle
      omega

end

/-- Two items of which one fails and is left out. -/
theorem modes_agree_oneFailed :
    (run { isParallel := true, errorHandleMode := .removeAbnormalOutput }
        [.failed "timeout", .succeeded (some (.plain "ok"))] [1, 0]).1 =
      (run { isParallel := false, errorHandleMode := .removeAbnormalOutput }
        [.failed "timeout", .succeeded (some (.plain "ok"))] [1, 0]).1 :=
  (modes_agree_iff { errorHandleMode := .removeAbnormalOutput }
    [.failed "timeout", .succeeded (some (.plain "ok"))] [1, 0] (by decide) (by decide)).mpr
    (.inr (by simp [Value.isSome]))

/-- The first item succeeds without a value: the sequential execution keeps its `None`, the
parallel one takes it for an abnormal output. -/
theorem modes_differ_null : ¬ ∀ (data : IterationNodeData) (ends : List RunEnd)
    (order : List Nat), order.Perm (List.range ends.length) →
    earliestFailure ends order = earliestFailure ends (List.range ends.length) →
    (run { data with isParallel := true } ends order).1 =
      (run { data with isParallel := false } ends order).1 := by
  intro hclaim
  have heq := hclaim { errorHandleMode := .removeAbnormalOutput }
    [.succeeded none, .succeeded (some (.plain "ok"))] [0, 1] (by decide) (by decide)
  exact absurd (congrArg List.length heq) (by decide)

end PlatformSpec.Container
