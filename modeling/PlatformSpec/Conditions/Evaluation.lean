import PlatformSpec.DraftVariable.Comparison
import PlatformSpec.Runtime.GraphExecution

/-!
# Evaluating conditions

`_evaluate_condition` and the assertions of `dify_graph/utils/condition/processor.py`, over any
value. What `str` and `type` write for values and the texts of the interpreter's own errors are
parameters, as are the decimal digits of Unicode.
-/

namespace PlatformSpec.Conditions

open Base DraftVariable PlatformSpec.Runtime

/-- `SupportedComparisonOperator`. -/
inductive Operator where
  | contains
  | notContains
  | startWith
  | endWith
  | is
  | isNot
  | empty
  | notEmpty
  | in
  | notIn
  | allOf
  | equal
  | notEqual
  | greaterThan
  | lessThan
  | greaterThanOrEqual
  | lessThanOrEqual
  | null
  | notNull
  | exists
  | notExists
  deriving DecidableEq

/-- The text of an operator. -/
def Operator.value : Operator → String
  | .contains => "contains"
  | .notContains => "not contains"
  | .startWith => "start with"
  | .endWith => "end with"
  | .is => "is"
  | .isNot => "is not"
  | .empty => "empty"
  | .notEmpty => "not empty"
  | .in => "in"
  | .notIn => "not in"
  | .allOf => "all of"
  | .equal => "="
  | .notEqual => "≠"
  | .greaterThan => ">"
  | .lessThan => "<"
  | .greaterThanOrEqual => "≥"
  | .lessThanOrEqual => "≤"
  | .null => "null"
  | .notNull => "not null"
  | .exists => "exists"
  | .notExists => "not exists"

/-- What the processor takes from the language: the decimal digits, what `str` and `type` write
for a value, and the texts of the errors of `int` and `float`. -/
structure Python where
  digit : Char → Option Nat
  str : Value → String
  type : Value → String
  intError : Value → String
  floatError : Value → String

variable (py : Python)

def valueError {α : Type} (message : String) : Except PyError α := .error ⟨.valueError, message⟩

/-- `value in text`. -/
def isSubstring (part text : String) : Bool := decide (part.toList <:+: text.toList)

/-- `_assert_contains`. -/
def assertContains (value expected : Value) : Except PyError Bool :=
  if !value.truthy then .ok false
  else
    match value, expected with
    | .str text, .str part => .ok (isSubstring part text)
    | .str text, expected => .ok (isSubstring (py.str expected) text)
    | .list items, expected => .ok (expected.isIn items)
    | _, _ => valueError "Invalid actual value type: string or array"

/-- `_assert_not_contains`. -/
def assertNotContains (value expected : Value) : Except PyError Bool :=
  if !value.truthy then .ok true
  else
    match value, expected with
    | .str text, .str part => .ok !(isSubstring part text)
    | .str text, expected => .ok !(isSubstring (py.str expected) text)
    | .list items, expected => .ok !(expected.isIn items)
    | _, _ => valueError "Invalid actual value type: string or array"

/-- `_assert_start_with`. -/
def assertStartWith (value expected : Value) : Except PyError Bool :=
  if !value.truthy then .ok false
  else
    match value, expected with
    | .str text, .str part => .ok (decide (part.toList <+: text.toList))
    | .str _, _ => valueError "Expected value must be a string for startswith"
    | _, _ => valueError "Invalid actual value type: string"

/-- `_assert_end_with`. -/
def assertEndWith (value expected : Value) : Except PyError Bool :=
  if !value.truthy then .ok false
  else
    match value, expected with
    | .str text, .str part => .ok (decide (part.toList <:+ text.toList))
    | .str _, _ => valueError "Expected value must be a string for endswith"
    | _, _ => valueError "Invalid actual value type: string"

/-- `_assert_is`. -/
def assertIs (value expected : Value) : Except PyError Bool :=
  match value with
  | .none => .ok false
  | .str _ | .bool _ => .ok (value.pyEq expected)
  | _ => valueError "Invalid actual value type: string or boolean"

/-- `_assert_is_not`. -/
def assertIsNot (value expected : Value) : Except PyError Bool :=
  match value with
  | .none => .ok false
  | .str _ | .bool _ => .ok !(value.pyEq expected)
  | _ => valueError "Invalid actual value type: string or boolean"

/-- `_assert_empty`. -/
def assertEmpty (value : Value) : Bool := !value.truthy

/-- `_assert_not_empty`. -/
def assertNotEmpty (value : Value) : Bool := value.truthy

/-- `int(expected)`. -/
def toInt (expected : Value) : Except PyError Int :=
  match expected with
  | .bool b => .ok b.toInt
  | .int n => .ok n
  | .float repr =>
    let x := Value.floatOf repr
    if x.isNaN then .error ⟨.valueError, py.intError expected⟩
    else if x.isInf then .error ⟨.overflowError, py.intError expected⟩
    else .ok (x.toInt 0 0)
  | .str s =>
    match Numeral.readInt py.digit s with
    | some n => .ok n
    | none => .error ⟨.valueError, py.intError expected⟩
  | _ => valueError ("Cannot convert " ++ py.type expected ++ " to int")

/-- `float(n)`. -/
def intToFloat (n : Int) : Except PyError Double :=
  let x := Double.ofInt n
  if x.isInf then .error ⟨.overflowError, py.floatError (.int n)⟩ else .ok x

/-- `float(expected)`. -/
def toFloat (expected : Value) : Except PyError Double :=
  match expected with
  | .bool b => intToFloat py b.toInt
  | .int n => intToFloat py n
  | .float repr => .ok (Value.floatOf repr)
  | .str s =>
    match Numeral.readFloat py.digit s with
    | some x => .ok x
    | none => .error ⟨.valueError, py.floatError expected⟩
  | _ => valueError ("Cannot convert " ++ py.type expected ++ " to float")

/-- What `_assert_equal` and `_assert_not_equal` compare: the value and what is expected, made
one of its type. -/
def equalOperands (value expected : Value) :
    Except PyError (DraftVariable.Num × DraftVariable.Num) :=
  match value with
  | .bool b =>
    match expected with
    | .bool _ | .int _ | .str _ => .ok (.int b.toInt, .int expected.truthy.toInt)
    | _ => valueError ("Cannot convert " ++ py.type expected ++ " to bool")
  | .int n => do
    let m ← toInt py expected
    return (.int n, .int m)
  | .float repr => do
    let y ← toFloat py expected
    return (.float (Value.floatOf repr), .float y)
  | _ => valueError "Invalid actual value type: number or boolean"

/-- `_assert_equal`. -/
def assertEqual (value expected : Value) : Except PyError Bool :=
  if value.isNone then .ok false
  else (equalOperands py value expected).map fun p => p.1.eq p.2

/-- `_assert_not_equal`. -/
def assertNotEqual (value expected : Value) : Except PyError Bool :=
  if value.isNone then .ok false
  else (equalOperands py value expected).map fun p => !p.1.eq p.2

/-- `_normalize_numeric_values`. -/
def normalizeNumericValues (value : DraftVariable.Num) (expected : Value) :
    Except PyError (DraftVariable.Num × DraftVariable.Num) :=
  let asFloat : Except PyError Double := match value with
    | .int n => intToFloat py n
    | .float x => .ok x
  match expected with
  | .str s =>
    match Numeral.readFloat py.digit s with
    | none => valueError ("Cannot convert '" ++ s ++ "' to number")
    | some expectedFloat =>
      match value, expectedFloat.integer? with
      | .int n, some m => .ok (.int n, .int m)
      | _, _ => asFloat.map fun x => (.float x, .float expectedFloat)
  | .float repr => asFloat.map fun x => (.float x, .float (Value.floatOf repr))
  | .bool b => .ok (value, .int b.toInt)
  | .int n => .ok (value, .int n)
  | _ => valueError ("Cannot convert " ++ py.type expected ++ " to number")

/-- The four assertions about order, by the comparison they make. -/
def assertOrder (compare : DraftVariable.Num → DraftVariable.Num → Bool)
    (value expected : Value) : Except PyError Bool :=
  if value.isNone then .ok false
  else
    match value.num? with
    | none => valueError "Invalid actual value type: number"
    | some x => (normalizeNumericValues py x expected).map fun p => compare p.1 p.2

/-- `_assert_greater_than`. -/
def assertGreaterThan : Value → Value → Except PyError Bool := assertOrder py fun x y => y.lt x

/-- `_assert_less_than`. -/
def assertLessThan : Value → Value → Except PyError Bool := assertOrder py DraftVariable.Num.lt

/-- `_assert_greater_than_or_equal`. -/
def assertGreaterThanOrEqual : Value → Value → Except PyError Bool :=
  assertOrder py fun x y => y.le x

/-- `_assert_less_than_or_equal`. -/
def assertLessThanOrEqual : Value → Value → Except PyError Bool :=
  assertOrder py DraftVariable.Num.le

/-- `_assert_null`. -/
def assertNull (value : Value) : Bool := value.isNone

/-- `_assert_not_null`. -/
def assertNotNull (value : Value) : Bool := !value.isNone

/-- `_assert_in`. -/
def assertIn (value expected : Value) : Except PyError Bool :=
  if !value.truthy then .ok false
  else
    match expected with
    | .list items => .ok (value.isIn items)
    | _ => valueError "Invalid expected value type: array"

/-- `_assert_not_in`. -/
def assertNotIn (value expected : Value) : Except PyError Bool :=
  if !value.truthy then .ok true
  else
    match expected with
    | .list items => .ok !(value.isIn items)
    | _ => valueError "Invalid expected value type: array"

/-- `_assert_all_of`, on texts. -/
def assertAllOf (value : Value) (expected : List Value) : Bool :=
  if !value.truthy then false
  else
    match value with
    | .list items => expected.all fun item => item.isIn items
    | .str text => expected.all fun
      | .str part => isSubstring part text
      | _ => false
    | _ => false

/-- `_assert_all_of_bool`. -/
def assertAllOfBool (value : Value) (expected : List Value) : Bool :=
  if !value.truthy then false
  else
    match value with
    | .list items => expected.all fun item => item.isIn items
    | _ => false

/-- `_assert_exists`. -/
def assertExists (value : Value) : Bool := !value.isNone

/-- `_assert_not_exists`. -/
def assertNotExists (value : Value) : Bool := value.isNone

/-- `_evaluate_condition`. -/
def evaluateCondition (operator : Operator) (value expected : Value) : Except PyError Bool :=
  match operator with
  | .contains => assertContains py value expected
  | .notContains => assertNotContains py value expected
  | .startWith => assertStartWith value expected
  | .endWith => assertEndWith value expected
  | .is => assertIs value expected
  | .isNot => assertIsNot value expected
  | .empty => .ok (assertEmpty value)
  | .notEmpty => .ok (assertNotEmpty value)
  | .equal => assertEqual py value expected
  | .notEqual => assertNotEqual py value expected
  | .greaterThan => assertGreaterThan py value expected
  | .lessThan => assertLessThan py value expected
  | .greaterThanOrEqual => assertGreaterThanOrEqual py value expected
  | .lessThanOrEqual => assertLessThanOrEqual py value expected
  | .null => .ok (assertNull value)
  | .notNull => .ok (assertNotNull value)
  | .in => assertIn value expected
  | .notIn => assertNotIn value expected
  | .allOf =>
    match expected with
    | .list items =>
      if items.all (· matches .str _) then .ok (assertAllOf value items)
      else if items.all (· matches .bool _) then .ok (assertAllOfBool value items)
      else valueError "all of operator expects homogeneous list of strings or booleans"
    | _ => valueError ("Unsupported operator: " ++ operator.value)
  | .exists => .ok (assertExists value)
  | .notExists => .ok (assertNotExists value)

end PlatformSpec.Conditions
