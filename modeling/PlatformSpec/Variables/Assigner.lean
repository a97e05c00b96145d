import PlatformSpec.Variables.Pool

/-!
# The variable assigner

Models version 2 of the node, `nodes/variable_assigner/v2/node.py` with its `helpers.py`, `enums.py`
and `exc.py`. Floating point arithmetic and the values of JSON texts are parameters.
-/

namespace PlatformSpec.Variables

open Base Conditions DraftVariable
open PlatformSpec.Runtime (PyError)

/-- `Operation`. -/
inductive Operation where
  | overWrite
  | clear
  | append
  | extend
  | set
  | add
  | subtract
  | multiply
  | divide
  | removeFirst
  | removeLast
  deriving DecidableEq

def Operation.value : Operation → String
  | .overWrite => "over-write"
  | .clear => "clear"
  | .append => "append"
  | .extend => "extend"
  | .set => "set"
  | .add => "+="
  | .subtract => "-="
  | .multiply => "*="
  | .divide => "/="
  | .removeFirst => "remove-first"
  | .removeLast => "remove-last"

/-- `InputType`. -/
inductive InputType where
  | variable
  | constant
  deriving DecidableEq

def InputType.value : InputType → String
  | .variable => "variable"
  | .constant => "constant"

/-- `VariableOperationItem`. -/
structure VariableOperationItem where
  variableSelector : List String
  inputType : InputType
  operation : Operation
  value : Value := .none

/-- What the node raises: a `VariableOperatorNodeError`, which it catches, or another error. -/
inductive Raised where
  | operator (message : String)
  | other (e : PyError)
  deriving DecidableEq

/-- What the assigner takes from the language besides texts: the values of JSON texts, where a
`ValueError` is a `JSONDecodeError`, and the floating point results of an operation. -/
structure Machine extends Surroundings where
  loads : String → Except PyError Value
  floatResult : Operation → DraftVariable.Num → DraftVariable.Num → Except PyError String

/-! ### The helpers -/

/-- `is_operation_supported`. -/
def isOperationSupported (type : SegmentType) : Operation → Bool
  | .overWrite | .clear => true
  | .set => type ∈ [.object, .string, .number, .integer, .float, .boolean]
  | .add | .subtract | .multiply | .divide => type.isNumerical
  | .append | .extend | .removeFirst | .removeLast => type.isArrayType

/-- `is_variable_input_supported`. -/
def isVariableInputSupported (operation : Operation) : Bool :=
  operation ∉ [.set, .add, .subtract, .multiply, .divide]

/-- `is_constant_input_supported`. -/
def isConstantInputSupported (type : SegmentType) (operation : Operation) : Bool :=
  match type with
  | .string | .object | .boolean => operation ∈ [.overWrite, .set]
  | .number | .integer | .float =>
    operation ∈ [.overWrite, .set, .add, .subtract, .multiply, .divide]
  | _ => false

/-- `isinstance(value, str | float | int | dict)`. -/
def isPlain (value : Value) : Bool := value.isText || value.isNumber || value.isDict

/-- What `is_input_value_valid` asks of an element of an array. -/
def elementCheck : SegmentType → Option (Value → Bool)
  | .arrayAny => some isPlain
  | .arrayString => some Value.isText
  | .arrayNumber => some Value.isNumber
  | .arrayObject => some Value.isDict
  | .arrayBoolean => some Value.isBool
  | _ => none

/-- `isinstance(value, list)` with a check on the elements. -/
def isListOf (check : Value → Bool) : Value → Bool
  | .list items => items.all check
  | _ => false

/-- `is_input_value_valid`. -/
def isInputValueValid (type : SegmentType) (operation : Operation) (value : Value) : Bool :=
  if operation ∈ [.clear, .removeFirst, .removeLast] then true
  else
    match type with
    | .string => value.isText
    | .boolean => value.isBool
    | .number | .integer | .float =>
      value.isNumber && !(operation = .divide && value.pyEq (.int 0))
    | .object => value.isDict
    | type =>
      match elementCheck type with
      | none => false
      | some check =>
        if operation = .append then check value
        else if operation ∈ [.extend, .overWrite] then isListOf check value
        else false

/-! ### The operations -/

/-- The value of `SegmentType.get_zero_value`. -/
def zeroValue : SegmentType → Option Value
  | .arrayObject | .arrayAny | .arrayString | .arrayNumber | .arrayBoolean => some (.list [])
  | .object => some (.dict [])
  | .string => some (.str "")
  | .integer | .number => some (.int 0)
  | .float => some (.float "0.0")
  | .boolean => some (.bool false)
  | _ => none

/-- The integer that an instance of `int` is. -/
def integer? : Value → Option Int
  | .bool b => some b.toInt
  | .int n => some n
  | _ => none

variable (machine : Machine)

def unsupportedOperand {α : Type} : Except PyError α :=
  .error ⟨.typeError, "unsupported operand type(s)"⟩

/-- The integer operations of the arithmetic ones; a quotient is a floating point number. -/
def integerResult : Operation → Option (Int → Int → Int)
  | .add => some (· + ·)
  | .subtract => some (· - ·)
  | .multiply => some (· * ·)
  | _ => none

/-- An operation on numbers with a floating point result. -/
def floatArithmetic (operation : Operation) (x y : Value) : Except PyError Value :=
  match x.num?, y.num? with
  | some a, some b => (machine.floatResult operation a b).map .float
  | _, _ => unsupportedOperand

/-- `+`, `-`, `*` and `/` on numbers. -/
def arithmetic (operation : Operation) (x y : Value) : Except PyError Value :=
  match integerResult operation, integer? x, integer? y with
  | some f, some m, some n => .ok (.int (f m n))
  | _, _, _ => floatArithmetic machine operation x y

/-- A value of a variable without its first or its last element; what is empty stays. -/
def removeFrom (remove : List Value → List Value) (stored : Value) : Except PyError Value :=
  if !stored.truthy then .ok stored
  else
    match stored with
    | .list items => .ok (.list (remove items))
    | _ => unsupportedOperand

/-- `_handle_item`, on the type and the value of the variable. -/
def handleItem (type : SegmentType) (stored : Value) (operation : Operation) (value : Value) :
    Except PyError Value :=
  match operation with
  | .overWrite | .set => .ok value
  | .clear =>
    match zeroValue type with
    | some zero => .ok zero
    | none => valueError ("unsupported variable type: " ++ type.text)
  | .append =>
    match stored with
    | .list items => .ok (.list (items ++ [value]))
    | _ => unsupportedOperand
  | .extend =>
    match stored, value with
    | .list items, .list items' => .ok (.list (items ++ items'))
    | _, _ => unsupportedOperand
  | .add | .subtract | .multiply | .divide => arithmetic machine operation stored value
  | .removeFirst => removeFrom (List.drop 1) stored
  | .removeLast => removeFrom List.dropLast stored

/-! ### The items -/

/-- What is raised outside the node's own errors. -/
def lift {α : Type} (r : Except PyError α) : Except Raised α := r.mapError .other

/-- `VariableNotFoundError`. -/
def variableNotFound {α : Type} (selector : Value) : Except Raised α :=
  .error (.operator ("Variable " ++ machine.str selector ++ " not found"))

/-- `OperationNotSupportedError`. -/
def operationNotSupported {α : Type} (operation : Operation) (type : SegmentType) :
    Except Raised α :=
  .error (.operator ("Operation " ++ operation.value ++ " is not supported for type " ++
    type.text))

/-- `InputTypeNotSupportedError`. -/
def inputTypeNotSupported {α : Type} (inputType : InputType) (operation : Operation) :
    Except Raised α :=
  .error (.operator ("Input type " ++ inputType.value ++ " is not supported for operation " ++
    operation.value))

/-- `InvalidInputValueError`. -/
def invalidInputValue {α : Type} (value : Value) : Except Raised α :=
  .error (.operator ("Invalid input value " ++ machine.str value))

/-- `variable_pool.get(item.value)`: of other values than lists only a text has elements. -/
def getByValue (pool : VariablePool) (value : Value) : Except PyError (Option Found) :=
  match value with
  | .list selector => pool.get machine.toSurroundings selector
  | .str s => pool.get machine.toSurroundings (s.toList.map fun c => .str (String.singleton c))
  | .dict entries =>
    if entries.length < 2 then .ok none else .error ⟨.keyError, "0"⟩
  | _ => .error ⟨.typeError, "object has no len()"⟩

/-- The value taken from the variable pool; none if the item is skipped. -/
def sourceValue (pool : VariablePool) (item : VariableOperationItem) :
    Except Raised (Option Value) :=
  if item.inputType = .variable ∧ item.operation ∉ [.clear, .removeFirst, .removeLast] ∧
      item.value.isNone = false then do
    match ← lift (getByValue machine pool item.value) with
    | none => variableNotFound machine item.value
    | some found => return if found.valueType = .none then none else some found.value
  else .ok (some item.value)

/-- A text that is set to an object is converted. -/
def convertObject (type : SegmentType) (operation : Operation) (value : Value) :
    Except Raised Value :=
  match operation, type, value with
  | .set, .object, .str s =>
    match machine.loads s with
    | .ok value => .ok value
    | .error e => if e.errorClass = .valueError then invalidInputValue machine value
        else .error (.other e)
  | _, _, value => .ok value

/-- An update: the variable before it, the operation and the value it is given. -/
structure Update where
  stored : Variable
  operation : Operation
  value : Value

/-- The validation part of a round: the update to execute, or none if the item is skipped. -/
def validateItem (pool : VariablePool) (item : VariableOperationItem) :
    Except Raised (Option Update) := do
  match ← lift (pool.get machine.toSurroundings (item.variableSelector.map .str)) with
  | some (.variable stored) =>
    if !isOperationSupported stored.valueType item.operation then
      operationNotSupported item.operation stored.valueType
    else if item.inputType = .variable ∧ !isVariableInputSupported item.operation then
      inputTypeNotSupported .variable item.operation
    else if item.inputType = .constant ∧
        !isConstantInputSupported stored.valueType item.operation then
      inputTypeNotSupported .constant item.operation
    else
      match ← sourceValue machine pool item with
      | none => return none
      | some value =>
        let value ← convertObject machine stored.valueType item.operation value
        if isInputValueValid stored.valueType item.operation value then
          return some ⟨stored, item.operation, value⟩
        else invalidInputValue machine value
  | _ => variableNotFound machine (.list (item.variableSelector.map .str))

/-- The variable after an update. -/
def Update.result (u : Update) : Except PyError Variable :=
  (handleItem machine u.stored.valueType u.stored.value u.operation u.value).map u.stored.withValue

/-- The execution part of a round. -/
def execute (pool : VariablePool) (u : Update) : Except Raised VariablePool :=
  lift (u.result machine >>= fun v => pool.add v.selector v)

/-- A round of the loop. -/
def assignItem (pool : VariablePool) (item : VariableOperationItem) :
    Except Raised (VariablePool × Option Update) := do
  match ← validateItem machine pool item with
  | none => return (pool, none)
  | some u => return (← execute machine pool u, some u)

/-- The loop over the items: the pool and the updates that it leaves, and what it raised. -/
def assignItems (pool : VariablePool) (updates : List Update) :
    List VariableOperationItem → VariablePool × List Update × Option Raised
  | [] => (pool, updates, none)
  | item :: items =>
    match assignItem machine pool item with
    | .error raised => (pool, updates, some raised)
    | .ok (pool, u) => assignItems pool (updates ++ u.toList) items

/-! ### The node -/

/-- `UpdatedVariable`. -/
structure UpdatedVariable where
  name : String
  selector : List String
  valueType : SegmentType
  newValue : Value

/-- The result of the node: the error of a failed one, or the process data of one that succeeded. -/
inductive NodeRunResult where
  | failed (error : String)
  | succeeded (processData : List (String × Value)) (updatedVariables : List UpdatedVariable)

/-- The process data of a variable that was updated. -/
def processedData (pool : VariablePool) (selector : List String) :
    Except PyError (Variable × UpdatedVariable) := do
  match ← pool.get machine.toSurroundings (selector.map .str), selector with
  | some (.variable v), _ :: name :: _ =>
    return (v, ⟨name, selector.take 2, v.valueType, v.value⟩)
  | _, _ => valueError ("Variable " ++ machine.str (.list (selector.map .str)) ++ " not found")

/-- `_run`: the pool after the node, and its result unless it raises. The updated selectors are a
set, which is taken in the order of their last updates. -/
def run (pool : VariablePool) (items : List VariableOperationItem) :
    VariablePool × Except PyError NodeRunResult :=
  match assignItems machine pool [] items with
  | (pool, _, some (.operator message)) => (pool, .ok (.failed message))
  | (pool, _, some (.other e)) => (pool, .error e)
  | (pool, updates, none) =>
    let selectors := (updates.map (·.stored.selector)).dedup
    (pool, (selectors.mapM (processedData machine pool)).map fun data =>
      .succeeded (Assoc.ofPairs (data.map fun d => (d.1.name, d.1.value))) (data.map (·.2)))

end PlatformSpec.Variables
