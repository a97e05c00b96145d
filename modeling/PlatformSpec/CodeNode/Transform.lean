import PlatformSpec.DraftVariable.Comparison
import PlatformSpec.Runtime.GraphExecution

/-!
# Output validation of code nodes

Models `_transform_result` of `nodes/code/code_node.py` with its checks, `limits.py`, `exc.py` and
the declared outputs of `entities.py`. The recursion is bounded by the depth that is left.
-/

namespace PlatformSpec.CodeNode

open Base DraftVariable
open PlatformSpec.Runtime (PyError)

/-- A bound of numbers, `int` or `float`. -/
inductive Bound where
  | int (n : Int)
  | float (repr : String)

def Bound.num : Bound → DraftVariable.Num
  | .int n => .int n
  | .float repr => .float (Value.floatOf repr)

def Bound.text : Bound → String
  | .int n => toString n
  | .float repr => repr

/-- `CodeNodeLimits`. -/
structure CodeNodeLimits where
  maxStringLength : Int
  maxNumber : Bound
  minNumber : Bound
  maxPrecision : Int
  maxDepth : Int
  maxNumberArrayLength : Int
  maxStringArrayLength : Int
  maxObjectArrayLength : Int

/-- `CodeNodeData.Output`. -/
inductive Output where
  | mk (type : SegmentType) (children : Option (List (String × Output)))

def Output.type : Output → SegmentType
  | .mk type _ => type

def Output.children : Output → Option (List (String × Output))
  | .mk _ children => children

/-- Declared outputs by their names. -/
abbrev Schema := List (String × Output)

/-- What is raised: a `CodeNodeError`, one of its subclasses, or another error. -/
inductive Raised where
  | codeNodeError (message : String)
  | outputValidationError (message : String)
  | depthLimitError (message : String)
  | other (e : PyError)
  deriving DecidableEq

def invalid {α : Type} (message : String) : Except Raised α :=
  .error (.outputValidationError message)

/-- The name of the type of a value. -/
def typeName : Value → String
  | .none => "NoneType"
  | .bool _ => "bool"
  | .int _ => "int"
  | .float _ => "float"
  | .str _ => "str"
  | .list _ => "list"
  | .dict _ => "dict"
  | .file _ => "File"

/-- The text of the type of a value. -/
def typeText (value : Value) : String :=
  match value with
  | .file _ => "<class 'dify_graph.file.models.File'>"
  | value => "<class '" ++ typeName value ++ "'>"

/-- The name of an output inside another one. -/
def inside (path name : String) : String := if path ≠ "" then path ++ "." ++ name else name

def element (path : String) (i : Nat) : String := path ++ "[" ++ toString i ++ "]"

variable (limits : CodeNodeLimits)

/-! ### The checks -/

/-- The text without its NUL characters. -/
def withoutNul (s : String) : String := String.ofList (s.toList.filter (· ≠ Char.ofNat 0))

/-- The error of a text that is too long. -/
def tooLong (output : String) : Except Raised Value :=
  invalid ("The length of output variable `" ++ output ++ "` must be less than " ++
    toString limits.maxStringLength ++ " characters")

/-- `_check_string`, for any value: lists and dictionaries have a length, but nothing to replace. -/
def checkString (value : Value) (output : String) : Except Raised Value :=
  match value with
  | .none => .ok .none
  | .str s =>
    if limits.maxStringLength < s.length then tooLong limits output else .ok (.str (withoutNul s))
  | .list items =>
    if limits.maxStringLength < items.length then tooLong limits output
    else .error (.other ⟨.attributeError, "'list' object has no attribute 'replace'"⟩)
  | .dict entries =>
    if limits.maxStringLength < entries.length then tooLong limits output
    else .error (.other ⟨.attributeError, "'dict' object has no attribute 'replace'"⟩)
  | value => .error (.other ⟨.typeError, "object of type '" ++ typeName value ++ "' has no len()"⟩)

/-- The decimal places of a number that is finite, without the zeros at its end. -/
def decimalPlaces (repr : String) : Option Int :=
  (Numeral.decimal Numeral.asciiDigit (Numeral.sign repr.toList).2).map fun (digits, places, e) =>
    if digits.all (· = 0) then 0
    else max 0 (places - e - (digits.reverse.takeWhile (· = 0)).length)

/-- A number beyond the bounds. -/
def outOfRange (value : Value) : Bool :=
  value.num?.any fun n => limits.maxNumber.num.lt n || n.lt limits.minNumber.num

/-- `_check_number`. The exponent of a number that is not finite is a text, which has no order. -/
def checkNumber (value : Value) (output : String) : Except Raised Value :=
  if outOfRange limits value then
    invalid ("Output variable `" ++ output ++ "` is out of range, it must be between " ++
      limits.minNumber.text ++ " and " ++ limits.maxNumber.text ++ ".")
  else
    match value with
    | .float repr =>
      match decimalPlaces repr with
      | none => .error (.other
          ⟨.typeError, "'<' not supported between instances of 'str' and 'int'"⟩)
      | some places =>
        if limits.maxPrecision < places then
          invalid ("Output variable `" ++ output ++ "` has too high precision, it must be less " ++
            "than " ++ toString limits.maxPrecision ++ " digits.")
        else .ok (.float repr)
    | value => .ok value

/-- `_convert_boolean_to_int`. -/
def convertBooleanToInt : Value → Value
  | .bool b => .int b.toInt
  | value => value

/-- `None`, or a value with a property. -/
def nullOr (check : Value → Bool) (value : Value) : Bool := value.isNone || check value

/-- A list is not longer than allowed. -/
def checkLength (items : List Value) (limit : Int) (output : String) : Except Raised Unit :=
  if limit < items.length then
    invalid ("The length of output variable `" ++ output ++ "` must be less than " ++
      toString limit ++ " elements.")
  else .ok ()

/-- The loop over the elements of an output that no schema declares. -/
def checkAll (check : Value → String → Except Raised Value) (output : String)
    (items : List Value) : Except Raised Unit := do
  let _ ← items.zipIdx.mapM fun (value, i) => check value (element output i)
  return ()

/-! ### Without a schema -/

section Nested

-- The validation of an object inside the one at hand.
variable (transform : Option Schema → Value → String → Except Raised Value)

/-- The branch for lists: the type of the elements is that of the first one. -/
def checkList (path name : String) (items : List Value) : Except Raised Unit :=
  match items with
  | [] => .ok ()
  | first :: _ =>
    let output := inside path name
    if first.isNone then .ok ()
    else if first.isNumber && items.all (nullOr Value.isNumber) then
      checkAll (checkNumber limits) output items
    else if first.isText && items.all (nullOr Value.isText) then
      checkAll (checkString limits) output items
    else if first.isDict && items.all (nullOr Value.isDict) ||
        first.isList && items.all (nullOr Value.isList) then
      checkAll (fun value output =>
        if value.isNone then .ok value else transform none value output) output items
    else invalid ("Output " ++ path ++ "." ++ name ++
      " is not a valid array. make sure all elements are of the same type.")

/-- The check of an output that no schema declares. -/
def checkUndeclared (path : String) (entry : String × Value) : Except Raised Unit :=
  let (name, value) := entry
  let output := inside path name
  match value with
  | .dict entries => (transform none (.dict entries) output).map fun _ => ()
  | .bool _ | .none => .ok ()
  | .int n => (checkNumber limits (.int n) output).map fun _ => ()
  | .float repr => (checkNumber limits (.float repr) output).map fun _ => ()
  | .str s => (checkString limits (.str s) output).map fun _ => ()
  | .list items => checkList limits transform path name items
  | .file _ => invalid ("Output " ++ path ++ "." ++ name ++ " is not a valid type.")

/-! ### With a schema -/

def notAnArray {α : Type} (output : String) (value : Value) : Except Raised α :=
  invalid ("Output " ++ output ++ " is not an array, got " ++ typeText value ++ " instead.")

/-- The value of an output of a declared type. -/
def transformValue (path name : String) (declared : Output) (value : Value) :
    Except Raised Value :=
  let output := inside path name
  match declared.type with
  | .object =>
    match value with
    | .none => .ok .none
    | .dict entries => transform declared.children (.dict entries) (path ++ "." ++ name)
    | value => invalid ("Output " ++ output ++ " is not an object, got " ++ typeText value ++
        " instead.")
  | .number =>
    if nullOr Value.isNumber value then
      (checkNumber limits value output).map convertBooleanToInt
    else invalid ("Output " ++ output ++ " is not a number, got " ++ typeText value ++ " instead.")
  | .string =>
    if nullOr Value.isText value then checkString limits value output
    else invalid ("Output " ++ output ++ " must be a string, got " ++ typeName value ++ " instead")
  | .boolean => .ok value
  | .arrayNumber =>
    match value with
    | .none => .ok .none
    | .list items => do
      checkLength items limits.maxNumberArrayLength output
      let checked ← items.zipIdx.mapM fun (value, i) =>
        if value.isNumber then checkNumber limits value (element output i)
        else invalid ("The element at index " ++ toString i ++ " of output variable `" ++ output ++
          "` must be a number.")
      return .list (checked.map convertBooleanToInt)
    | value => notAnArray output value
  | .arrayString =>
    match value with
    | .none => .ok .none
    | .list items => do
      checkLength items limits.maxStringArrayLength output
      let checked ← items.zipIdx.mapM fun (value, i) => checkString limits value (element output i)
      return .list checked
    | value => notAnArray output value
  | .arrayObject =>
    match value with
    | .none => .ok .none
    | .list items => do
      checkLength items limits.maxObjectArrayLength output
      let _ ← items.zipIdx.mapM fun (value, i) =>
        if nullOr Value.isDict value then .ok value
        else invalid ("Output " ++ element output i ++ " is not an object, got " ++
          typeText value ++ " instead at index " ++ toString i ++ ".")
      let transformed ← items.zipIdx.mapM fun (value, i) =>
        if value.isNone then .ok value else transform declared.children value (element output i)
      return .list transformed
    | value => notAnArray output value
  | .arrayBoolean =>
    match value with
    | .none => .ok .none
    | .list items => do
      let checked ← items.zipIdx.mapM fun (value, i) =>
        if nullOr Value.isBool value then .ok value
        else invalid ("Output " ++ element output i ++ " is not a boolean, got " ++
          typeText value ++ " instead.")
      return .list checked
    | value => notAnArray output value
  | type => invalid ("Output type " ++ type.text ++ " is not supported.")

/-- A round of the loop over the schema. -/
def transformField (path : String) (entries : List (String × Value)) (field : String × Output) :
    Except Raised (String × Value) :=
  match entries.lookup field.1 with
  | none => invalid ("Output " ++ inside path field.1 ++ " is missing.")
  | some value => (transformValue limits transform path field.1 field.2 value).map (field.1, ·)

end Nested

/-- `_transform_result`, with the depth that is left. -/
def transformResult : Nat → Option Schema → Value → String → Except Raised Value
  | 0, _, _, _ =>
    .error (.depthLimitError ("Depth limit " ++ toString limits.maxDepth ++
      " reached, object too deep."))
  | remaining + 1, schema?, .dict entries, path =>
    match schema? with
    | none => do
      let _ ← entries.mapM (checkUndeclared limits (transformResult remaining) path)
      return .dict entries
    | some schema => do
      let outputs ← schema.mapM (transformField limits (transformResult remaining) path entries)
      if schema.length ≠ entries.length then
        .error (.codeNodeError "Not all output parameters are validated.")
      else return .dict outputs
  | _ + 1, _, value, _ =>
    .error (.other ⟨.attributeError, "'" ++ typeName value ++ "' object has no attribute 'items'"⟩)

/-- `_transform_result` on a result of the code. -/
def transform (schema : Option Schema) (result : List (String × Value)) : Except Raised Value :=
  transformResult limits limits.maxDepth.toNat schema (.dict result) ""

end PlatformSpec.CodeNode
