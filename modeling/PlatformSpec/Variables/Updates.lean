import PlatformSpec.Variables.Assigner

/-!
# The updates of a variable assigner

The items are applied one after another to the pool. What a variable holds afterwards is what its
last update gives, and an item that fails leaves what the items before it have written.
-/

namespace PlatformSpec.Variables

open Base Conditions DraftVariable
open PlatformSpec.Runtime (PyError)

variable (machine : Machine)

/-- The last update of the variable with a selector. -/
def lastUpdate (updates : List Update) (selector : List String) : Option Update :=
  updates.reverse.find? fun u => u.stored.selector = selector

/-- What is stored under a node id and a name after updates of a pool. -/
def settled (pool : VariablePool) (updates : List Update) (nodeId name : String) :
    Option Variable :=
  match lastUpdate updates [nodeId, name] with
  | some u => (u.result machine).toOption
  | none => pool.lookup nodeId name

theorem lastUpdate_concat (updates : List Update) (u : Update) (selector : List String) :
    lastUpdate (updates ++ [u]) selector =
      if u.stored.selector = selector then some u else lastUpdate updates selector := by
  unfold lastUpdate
  rw [List.reverse_concat, List.find?_cons]
  split
  next h => rw [if_pos (of_decide_eq_true h)]
  next h => rw [if_neg (of_decide_eq_false h)]

variable {u : Update}

theorem execute_ok {pool pool' : VariablePool} (h : execute machine pool u = .ok pool') :
    ∃ nodeId name v, u.stored.selector = [nodeId, name] ∧ u.result machine = .ok v ∧
      pool' = pool.store nodeId name v := by
  have hadd : (u.result machine >>= fun v => pool.add v.selector v) = .ok pool' := by
    unfold execute lift at h
    cases hr : (u.result machine >>= fun v => pool.add v.selector v) with
    | error e => rw [hr] at h; cases h
    | ok p => rw [hr] at h; cases h; rfl
  obtain ⟨v, hv, hstore⟩ := Result.bind_eq_ok.mp hadd
  have hselector : v.selector = u.stored.selector := by
    obtain ⟨value, -, rfl⟩ := Result.map_eq_ok.mp hv
    rfl
  rw [hselector] at hstore
  unfold VariablePool.add at hstore
  split at hstore
  next nodeId name heq =>
    cases hstore
    exact ⟨nodeId, name, v, heq, hv, rfl⟩
  next => cases hstore

theorem assignItem_ok {pool pool' : VariablePool} {item : VariableOperationItem}
    {u? : Option Update} (h : assignItem machine pool item = .ok (pool', u?)) :
    validateItem machine pool item = .ok u? ∧
      match u? with
      | none => pool' = pool
      | some u => execute machine pool u = .ok pool' := by
  obtain ⟨validated, hvalidated, hrest⟩ := Result.bind_eq_ok.mp h
  cases validated with
  | none =>
    cases hrest
    exact ⟨hvalidated, rfl⟩
  | some u =>
    obtain ⟨executed, hexecuted, hpair⟩ := Result.bind_eq_ok.mp hrest
    cases hpair
    exact ⟨hvalidated, hexecuted⟩

/-- The pool is what the updates make of the pool at the start, and each of them has a result. -/
structure Applied (start : VariablePool) (updates : List Update) (pool : VariablePool) :
    Prop where
  lookup : ∀ nodeId name, pool.lookup nodeId name = settled machine start updates nodeId name
  executed : ∀ u ∈ updates, ∃ nodeId name v,
    u.stored.selector = [nodeId, name] ∧ u.result machine = .ok v

variable {updates : List Update}

theorem Applied.assignItem {start pool pool' : VariablePool}
    {item : VariableOperationItem} {u? : Option Update}
    (happlied : Applied machine start updates pool)
    (h : assignItem machine pool item = .ok (pool', u?)) :
    Applied machine start (updates ++ u?.toList) pool' := by
  obtain ⟨-, hexecuted⟩ := assignItem_ok machine h
  cases u? with
  | none =>
    rw [show pool' = pool from hexecuted]
    simpa using happlied
  | some u =>
    obtain ⟨nodeId, name, v, hselector, hresult, rfl⟩ := execute_ok machine hexecuted
    constructor
    · intro n x
      rw [VariablePool.lookup_store, Option.toList_some, settled, lastUpdate_concat, hselector]
      by_cases hkey : n = nodeId ∧ x = name
      · obtain ⟨rfl, rfl⟩ := hkey
        simp [hresult, Except.toOption]
      · have hne : ¬ [nodeId, name] = [n, x] := by
          rintro hsame
          cases hsame
          exact hkey ⟨rfl, rfl⟩
        rw [if_neg hkey, if_neg hne]
        exact happlied.lookup n x
    · intro w hw
      rcases List.mem_append.mp hw with hw | hw
      · exact happlied.executed w hw
      · obtain rfl : w = u := by simpa using hw
        exact ⟨nodeId, name, v, hselector, hresult⟩

theorem Applied.assignItems {start pool : VariablePool}
    (happlied : Applied machine start updates pool) (items : List VariableOperationItem) :
    Applied machine start (assignItems machine pool updates items).2.1
      (assignItems machine pool updates items).1 := by
  induction items generalizing pool updates with
  | nil => exact happlied
  | cons item items ih =>
    unfold Variables.assignItems
    split
    next => exact happlied
    next hround => exact ih (happlied.assignItem machine hround)

theorem applied_nil (pool : VariablePool) : Applied machine pool [] pool where
  lookup _ _ := rfl
  executed := by simp

theorem assignItems_raised {pool pool' : VariablePool} {updates' : List Update}
    {items : List VariableOperationItem} {raised : Raised}
    (h : assignItems machine pool updates items = (pool', updates', some raised)) :
    ∃ front item back, items = front ++ item :: back ∧
      assignItems machine pool updates front = (pool', updates', none) ∧
      assignItem machine pool' item = .error raised := by
  induction items generalizing pool updates with
  | nil => cases h
  | cons item items ih =>
    unfold assignItems at h
    split at h
    next hround =>
      cases h
      exact ⟨[], item, items, rfl, rfl, hround⟩
    next pool₁ u? hround =>
      obtain ⟨front, failing, back, rfl, hfront, hfailing⟩ := ih h
      refine ⟨item :: front, failing, back, rfl, ?_, hfailing⟩
      rw [assignItems, hround]
      exact hfront

theorem assignItem_operator {pool : VariablePool} {item : VariableOperationItem} {message : String}
    (h : assignItem machine pool item = .error (.operator message)) :
    validateItem machine pool item = .error (.operator message) := by
  rcases Result.bind_eq_error.mp h with h | ⟨u?, -, hrest⟩
  · exact h
  · cases u? with
    | none => cases hrest
    | some u =>
      rcases Result.bind_eq_error.mp hrest with hexecute | ⟨pool', -, hpair⟩
      · unfold execute lift at hexecute
        cases hr : (u.result machine >>= fun v => pool.add v.selector v) with
        | error e => rw [hr] at hexecute; cases hexecute
        | ok p => rw [hr] at hexecute; cases hexecute
      · cases hpair

variable {selector : List String}

theorem lastUpdate_eq_none :
    lastUpdate updates selector = none ↔ ∀ u ∈ updates, u.stored.selector ≠ selector := by
  simp [lastUpdate]

theorem mem_of_lastUpdate
    (h : lastUpdate updates selector = some u) : u ∈ updates ∧ u.stored.selector = selector := by
  unfold lastUpdate at h
  exact ⟨List.mem_reverse.mp (List.mem_of_find?_eq_some h), by simpa using List.find?_some h⟩

theorem Applied.lookup_last {start pool : VariablePool}
    (happlied : Applied machine start updates pool) {nodeId name : String}
    (hlast : lastUpdate updates [nodeId, name] = some u) :
    ∃ v, u.result machine = .ok v ∧ pool.lookup nodeId name = some v := by
  obtain ⟨-, -, v, -, hresult⟩ := happlied.executed u (mem_of_lastUpdate hlast).1
  refine ⟨v, hresult, ?_⟩
  rw [happlied.lookup, settled, hlast]
  simp [hresult, Except.toOption]

/-- When the node fails, the items before one that is not valid have been applied in order: a
variable that they update holds what the last of its updates gives, every other one holds what it
held, and the failing item and the ones after it change nothing. -/
theorem run_failed {pool pool' : VariablePool} {items : List VariableOperationItem}
    {error : String} (hrun : run machine pool items = (pool', .ok (.failed error))) :
    ∃ front item back updates, items = front ++ item :: back ∧
      assignItems machine pool [] front = (pool', updates, none) ∧
      validateItem machine pool' item = .error (.operator error) ∧
      (∀ nodeId name, (∀ u ∈ updates, u.stored.selector ≠ [nodeId, name]) →
        pool'.lookup nodeId name = pool.lookup nodeId name) ∧
      ∀ nodeId name u, lastUpdate updates [nodeId, name] = some u →
        ∃ v, u.result machine = .ok v ∧ pool'.lookup nodeId name = some v := by
  obtain ⟨updates, hloop⟩ : ∃ updates,
      assignItems machine pool [] items = (pool', updates, some (.operator error)) := by
    unfold run at hrun
    split at hrun
    next updates message hloop =>
      cases hrun
      exact ⟨updates, hloop⟩
    next => cases hrun
    next updates hloop =>
      obtain ⟨-, hdata⟩ := Prod.mk.inj hrun
      obtain ⟨data, -, hdata⟩ := Result.map_eq_ok.mp hdata
      cases hdata
  obtain ⟨front, item, back, hitems, hfront, hfailing⟩ := assignItems_raised machine hloop
  have happlied : Applied machine pool updates pool' := by
    have h := (applied_nil machine pool).assignItems machine front
    rwa [hfront] at h
  refine ⟨front, item, back, updates, hitems, hfront, assignItem_operator machine hfailing, ?_, ?_⟩
  · intro nodeId name hnone
    rw [happlied.lookup, settled, lastUpdate_eq_none.mpr hnone]
  · intro nodeId name u hlast
    exact happlied.lookup_last machine hlast

/-! ### A failed node that has updated a variable -/

/-- A machine for integers and one selector. -/
def counterMachine : Machine where
  str _ := "['conversation', 'missing']"
  getAttr _ _ := .error ⟨.valueError, ""⟩
  loads _ := .error ⟨.valueError, ""⟩
  floatResult _ _ _ := .ok "2.5"

/-- A conversation variable that counts. -/
def counter (n : Int) : Variable where
  id := "counter-id"
  name := "counter"
  selector := ["conversation", "counter"]
  valueType := .integer
  value := .int n

/-- The pool with the counter. -/
def counterPool (n : Int) : VariablePool := ⟨[("conversation", [("counter", counter n)])]⟩

/-- The counter goes up, and then a variable is set that does not exist. -/
def countAndFail : List VariableOperationItem :=
  [⟨["conversation", "counter"], .constant, .add, .int 1⟩,
    ⟨["conversation", "missing"], .constant, .set, .int 1⟩]

theorem run_countAndFail : run counterMachine (counterPool 1) countAndFail =
    (counterPool 2, .ok (.failed "Variable ['conversation', 'missing'] not found")) :=
  rfl

theorem run_failed_counter : ∃ front item back updates,
    countAndFail = front ++ item :: back ∧
      assignItems counterMachine (counterPool 1) [] front = (counterPool 2, updates, none) ∧
      validateItem counterMachine (counterPool 2) item =
        .error (.operator "Variable ['conversation', 'missing'] not found") ∧
      (∀ nodeId name, (∀ u ∈ updates, u.stored.selector ≠ [nodeId, name]) →
        (counterPool 2).lookup nodeId name = (counterPool 1).lookup nodeId name) ∧
      ∀ nodeId name u, lastUpdate updates [nodeId, name] = some u →
        ∃ v, u.result counterMachine = .ok v ∧ (counterPool 2).lookup nodeId name = some v :=
  run_failed counterMachine run_countAndFail

/-- A variable does not have the value it had before the node failed. -/
theorem failed_not_atomic : ¬ ∀ (machine : Machine) (pool pool' : VariablePool)
    (items : List VariableOperationItem) (error : String),
    run machine pool items = (pool', .ok (.failed error)) →
    ∀ nodeId name, (pool'.lookup nodeId name).map Variable.value =
      (pool.lookup nodeId name).map Variable.value := by
  intro h
  have hcounter := h counterMachine (counterPool 1) (counterPool 2) countAndFail _
    run_countAndFail "conversation" "counter"
  have hvalues : some (Value.int 2) = some (Value.int 1) := hcounter
  cases hvalues

end PlatformSpec.Variables
