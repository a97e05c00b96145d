import PlatformSpec.Variables.Updates

/-!
# Declared types of assigned variables

Which updates leave a variable with a value of the type that its class declares. The arithmetic
operations can leave the integers, and the checks on values do not tell booleans, integers and
floating point numbers apart.
-/

namespace PlatformSpec.Variables

open Base Conditions DraftVariable
open PlatformSpec.Runtime (PyError)

variable (machine : Machine)

/-- A list without some of its elements. -/
def without (remove : List Value → List Value) : Value → Value
  | .list items => .list (remove items)
  | value => value

/-- A class accepts what arithmetic gives, by whether it is an integer. -/
def keepsNumber (type : SegmentType) (whole : Bool) : Bool :=
  match type with
  | .integer => whole
  | .float => !whole
  | _ => false

/-- The operation leaves a variable of a type that holds a value with a value of the type. -/
def keepsType (type : SegmentType) (stored : Value) (operation : Operation) (value : Value) :
    Bool :=
  match operation with
  | .overWrite | .set => type.accepts value
  | .clear => type ≠ .number
  | .append => type.accepts stored && type.accepts (.list [value])
  | .extend => type.accepts stored && type.accepts value
  | .add | .subtract | .multiply =>
    keepsNumber type ((integer? stored).isSome && (integer? value).isSome)
  | .divide => keepsNumber type false
  | .removeFirst => type.accepts (without (List.drop 1) stored)
  | .removeLast => type.accepts (without List.dropLast stored)

/-- An update keeps the type of its variable. -/
def Update.KeepsType (u : Update) : Prop :=
  keepsType u.stored.valueType u.stored.value u.operation u.value = true

theorem accepts_append (type : SegmentType) (items items' : List Value) :
    type.accepts (.list (items ++ items')) =
      (type.accepts (.list items) && type.accepts (.list items')) := by
  cases type <;> simp [SegmentType.accepts]

variable {type : SegmentType}

theorem accepts_zeroValue {zero : Value} (h : zeroValue type = some zero) :
    type.accepts zero = decide (type ≠ .number) := by
  cases type <;> cases h <;> rfl

variable {stored value result : Value}

private theorem accepts_removeFrom {remove : List Value → List Value} (hnil : remove [] = [])
    (h : removeFrom remove stored = .ok value) : value = without remove stored := by
  unfold removeFrom at h
  cases stored with
  | list items =>
    cases items with
    | nil =>
      cases h
      rw [without, hnil]
    | cons item items =>
      cases h
      rfl
  | _ =>
    -- only what is empty is returned as it is
    split at h
    next =>
      cases h
      rfl
    next => cases h

variable {operation : Operation}

private theorem floatArithmetic_ok
    (h : floatArithmetic machine operation stored value = .ok result) :
    ∃ repr, result = .float repr := by
  unfold floatArithmetic at h
  split at h
  next =>
    obtain ⟨repr, -, rfl⟩ := Result.map_eq_ok.mp h
    exact ⟨repr, rfl⟩
  next => cases h

private theorem arithmetic_ok (h : arithmetic machine operation stored value = .ok result) :
    if (integerResult operation).isSome && ((integer? stored).isSome && (integer? value).isSome)
    then ∃ n, result = .int n else ∃ repr, result = .float repr := by
  unfold arithmetic at h
  cases hf : integerResult operation with
  | none =>
    rw [hf] at h
    exact floatArithmetic_ok machine h
  | some f =>
    rw [hf] at h
    cases hm : integer? stored with
    | none =>
      rw [hm] at h
      exact floatArithmetic_ok machine h
    | some m =>
      rw [hm] at h
      cases hn : integer? value with
      | none =>
        rw [hn] at h
        exact floatArithmetic_ok machine h
      | some n =>
        rw [hn] at h
        cases h
        exact ⟨f m n, rfl⟩

private theorem accepts_arithmetic (h : arithmetic machine operation stored value = .ok result) :
    type.accepts result = keepsNumber type ((integerResult operation).isSome &&
      ((integer? stored).isSome && (integer? value).isSome)) := by
  have hresult := arithmetic_ok machine h
  split at hresult
  next hwhole =>
    obtain ⟨n, rfl⟩ := hresult
    rw [hwhole]
    cases type <;> rfl
  next hfraction =>
    obtain ⟨repr, rfl⟩ := hresult
    rw [Bool.eq_false_iff.mpr hfraction]
    cases type <;> rfl

/-- The value that an operation gives is of the declared type exactly if the operation keeps it. -/
theorem accepts_handleItem (h : handleItem machine type stored operation value = .ok result) :
    type.accepts result = keepsType type stored operation value := by
  cases operation with
  | overWrite | set =>
    cases h
    rfl
  | clear =>
    simp only [handleItem] at h
    split at h
    next hzero =>
      cases h
      exact accepts_zeroValue hzero
    next => cases h
  | append =>
    cases stored with
    | list items =>
      cases h
      exact accepts_append type items [value]
    | _ => cases h
  | extend =>
    cases stored with
    | list items =>
      cases value with
      | list items' =>
        cases h
        exact accepts_append type items items'
      | _ => cases h
    | _ => cases h
  | add | subtract | multiply => exact accepts_arithmetic machine h
  | divide =>
    have hquotient : arithmetic machine .divide stored value = .ok result := h
    exact accepts_arithmetic machine hquotient
  | removeFirst => rw [accepts_removeFrom rfl h, keepsType]
  | removeLast => rw [accepts_removeFrom rfl h, keepsType]

/-- The variable after an update conforms exactly if the update keeps its type. -/
theorem conforms_result {u : Update} {v : Variable} (h : u.result machine = .ok v) :
    v.Conforms ↔ u.KeepsType := by
  obtain ⟨value, hvalue, rfl⟩ := Result.map_eq_ok.mp h
  unfold Variable.Conforms Update.KeepsType
  rw [← accepts_handleItem machine hvalue]
  rfl

variable {pool : VariablePool}

private theorem selector_processedData {nodeId name : String}
    {data : Variable × UpdatedVariable} (h : processedData machine pool [nodeId, name] = .ok data) :
    data.2.selector = [nodeId, name] := by
  obtain ⟨found, -, hdata⟩ := Result.bind_eq_ok.mp h
  cases found with
  | none => cases hdata
  | some found =>
    cases found with
    | «variable» v =>
      cases hdata
      rfl
    | segment s => cases hdata

private theorem selectors_processedData {selectors : List (List String)}
    {data : List (Variable × UpdatedVariable)}
    (hpairs : ∀ selector ∈ selectors, ∃ nodeId name, selector = [nodeId, name])
    (h : selectors.mapM (processedData machine pool) = .ok data) :
    (data.map (·.2)).map UpdatedVariable.selector = selectors := by
  have hall := Result.mapM_eq_ok.mp h
  clear h
  induction hall with
  | nil => rfl
  | cons hdata _ ih =>
    obtain ⟨⟨nodeId, name, rfl⟩, hrest⟩ := List.forall_mem_cons.mp hpairs
    rw [List.map_cons, List.map_cons, ih hrest, selector_processedData machine hdata]

/-- What a run that succeeds has done: its updates, and the selectors it lists. -/
theorem run_succeeded {pool' : VariablePool} {items : List VariableOperationItem}
    {processData : List (String × Value)} {updated : List UpdatedVariable}
    (hrun : run machine pool items = (pool', .ok (.succeeded processData updated))) :
    ∃ updates, assignItems machine pool [] items = (pool', updates, none) ∧
      Applied machine pool updates pool' ∧
      updated.map UpdatedVariable.selector = (updates.map (·.stored.selector)).dedup := by
  unfold run at hrun
  split at hrun
  next => cases hrun
  next => cases hrun
  next p updates hloop =>
    obtain ⟨rfl, hresult⟩ := Prod.mk.inj hrun
    obtain ⟨data, hdata, hsucceeded⟩ := Result.map_eq_ok.mp hresult
    cases hsucceeded
    have happlied : Applied machine pool updates p := by
      have h := (applied_nil machine pool).assignItems machine items
      rwa [hloop] at h
    refine ⟨updates, hloop, happlied, selectors_processedData machine ?_ hdata⟩
    intro selector hselector
    obtain ⟨u, hu, rfl⟩ := List.mem_map.mp (List.mem_dedup.mp hselector)
    obtain ⟨nodeId, name, -, hpair, -⟩ := happlied.executed u hu
    exact ⟨nodeId, name, hpair⟩

/-- For every run of the node that succeeds, the updated variables conform exactly if the last
update of each keeps its type. -/
theorem succeeded_conforms_iff {pool pool' : VariablePool} {items : List VariableOperationItem}
    {processData : List (String × Value)} {updated : List UpdatedVariable}
    (hrun : run machine pool items = (pool', .ok (.succeeded processData updated))) :
    (∀ nodeId name, [nodeId, name] ∈ updated.map UpdatedVariable.selector →
        ∃ v, pool'.lookup nodeId name = some v ∧ v.Conforms) ↔
      ∀ nodeId name u,
        lastUpdate (assignItems machine pool [] items).2.1 [nodeId, name] = some u →
        u.KeepsType := by
  obtain ⟨updates, hloop, happlied, hupdated⟩ := run_succeeded machine hrun
  rw [hloop, hupdated]
  constructor
  · intro hconforms nodeId name u hlast
    obtain ⟨v, hresult, hlookup⟩ := happlied.lookup_last machine hlast
    obtain ⟨hu, hselector⟩ := mem_of_lastUpdate hlast
    obtain ⟨w, hw, hconforms⟩ := hconforms nodeId name
      (List.mem_dedup.mpr (List.mem_map.mpr ⟨u, hu, hselector⟩))
    obtain rfl : v = w := Option.some.inj (hlookup.symm.trans hw)
    exact (conforms_result machine hresult).mp hconforms
  · intro hkeeps nodeId name hmem
    obtain ⟨u, hu, hselector⟩ := List.mem_map.mp (List.mem_dedup.mp hmem)
    cases hlast : lastUpdate updates [nodeId, name] with
    | none => exact absurd hselector (lastUpdate_eq_none.mp hlast u hu)
    | some w =>
      obtain ⟨v, hresult, hlookup⟩ := happlied.lookup_last machine hlast
      exact ⟨v, hlookup, (conforms_result machine hresult).mpr (hkeeps nodeId name w hlast)⟩

/-! ### Half of an integer -/

/-- The counter is divided by two. -/
def halve : List VariableOperationItem :=
  [⟨["conversation", "counter"], .constant, .divide, .int 2⟩]

/-- The counter, of a class for integers, holds a floating point number. -/
def halved : Variable := (counter 5).withValue (.float "2.5")

/-- The pool with the halved counter. -/
def halvedPool : VariablePool := ⟨[("conversation", [("counter", halved)])]⟩

private theorem run_halve : run counterMachine (counterPool 5) halve =
    (halvedPool, .ok (.succeeded [("counter", .float "2.5")]
      [⟨"counter", ["conversation", "counter"], .integer, .float "2.5"⟩])) :=
  rfl

theorem succeeded_conforms_iff_halve :
    (∀ nodeId name, [nodeId, name] ∈ [["conversation", "counter"]] →
        ∃ v, halvedPool.lookup nodeId name = some v ∧ v.Conforms) ↔
      ∀ nodeId name u,
        lastUpdate (assignItems counterMachine (counterPool 5) [] halve).2.1 [nodeId, name] =
          some u → u.KeepsType :=
  succeeded_conforms_iff counterMachine run_halve

private theorem counterPool_conforms (n : Int) (nodeId name : String) (v : Variable)
    (h : (counterPool n).lookup nodeId name = some v) : v.Conforms := by
  unfold VariablePool.lookup counterPool at h
  simp only [List.lookup_cons, List.lookup_nil] at h
  split at h
  next =>
    simp only [Option.bind_some, List.lookup_cons, List.lookup_nil] at h
    split at h
    next =>
      cases h
      rfl
    next => cases h
  next => cases h

/-- All variables conform and the node succeeds, and then a variable of a class for integers holds
none. -/
theorem halve_not_conforms : ¬ ∀ (machine : Machine) (pool pool' : VariablePool)
    (items : List VariableOperationItem) (processData : List (String × Value))
    (updated : List UpdatedVariable),
    (∀ nodeId name v, pool.lookup nodeId name = some v → v.Conforms) →
    run machine pool items = (pool', .ok (.succeeded processData updated)) →
    ∀ nodeId name, [nodeId, name] ∈ updated.map UpdatedVariable.selector →
      ∃ v, pool'.lookup nodeId name = some v ∧ v.Conforms := by
  intro h
  obtain ⟨v, hlookup, hconforms⟩ := h counterMachine (counterPool 5) _ halve _ _
    (counterPool_conforms 5) run_halve
    "conversation" "counter" (by simp)
  have hv : some halved = some v := hlookup
  cases hv
  cases hconforms

end PlatformSpec.Variables
