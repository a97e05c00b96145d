import PlatformSpec.Base.Numeral
import PlatformSpec.DraftVariable.Segment

/-!
# Numbers among values

Truth, equality and order of values as the language has them: booleans are integers, and an
integer and a floating point number compare by their exact values.
-/

namespace PlatformSpec.DraftVariable

open Base

/-- A number: an instance of `int` or of `float`. -/
inductive Num where
  | int (n : Int)
  | float (x : Double)

namespace Num

/-- How an integer compares to a floating point number. -/
def compareInt (n : Int) : Double → Option Ordering
  | .notANumber => none
  | .infinity .positive => some .lt
  | .infinity .negative => some .gt
  | .zero _ => some (compare n 0)
  | .finite s m e _ =>
    some (if 0 ≤ e then compare n (s.apply (m * 2 ^ e.toNat))
      else compare (n * 2 ^ (-e).toNat) (s.apply m))

/-- How two numbers compare, by their exact values. -/
protected def compare : Num → Num → Option Ordering
  | .int n, .int m => some (Ord.compare n m)
  | .int n, .float y => compareInt n y
  | .float x, .int m => (compareInt m x).map Ordering.swap
  | .float x, .float y => x.compare y

def eq (x y : Num) : Bool := x.compare y == some .eq

def lt (x y : Num) : Bool := x.compare y == some .lt

def le (x y : Num) : Bool := (x.compare y).any (·.isLE)

end Num

namespace Value

/-- `value is None`. -/
def isNone : Value → Bool
  | .none => true
  | _ => false

/-- `isinstance(value, str)`. -/
def isText : Value → Bool
  | .str _ => true
  | _ => false

/-- `isinstance(value, bool)`. -/
def isBool : Value → Bool
  | .bool _ => true
  | _ => false

/-- `isinstance(value, int | float)`; booleans are integers. -/
def isNumber : Value → Bool
  | .bool _ | .int _ | .float _ => true
  | _ => false

/-- `isinstance(value, list)`. -/
def isList : Value → Bool
  | .list _ => true
  | _ => false

/-- `isinstance(value, dict)`. -/
def isDict : Value → Bool
  | .dict _ => true
  | _ => false

/-- The number that a `float` is, by its `repr`. -/
def floatOf (repr : String) : Double :=
  (Numeral.readFloat Numeral.asciiDigit repr).getD .notANumber

/-- The number a value is, if it is one; booleans are integers. -/
def num? : Value → Option Num
  | .bool b => some (.int b.toInt)
  | .int n => some (.int n)
  | .float repr => some (.float (floatOf repr))
  | _ => Option.none

/-- `bool(value)`. -/
def truthy : Value → Bool
  | .none => false
  | .bool b => b
  | .int n => n ≠ 0
  | .float repr => (floatOf repr).compare (.zero .positive) != some .eq
  | .str s => s ≠ ""
  | .list items => !items.isEmpty
  | .dict entries => !entries.isEmpty
  | .file _ => true

mutual

/-- `==`. -/
def pyEq : Value → Value → Bool
  | .none, .none => true
  | .str s, .str t => s = t
  | .list items, .list items' => pyEqItems items items'
  | .dict entries, .dict entries' =>
    entries.length = entries'.length && pyEqEntries entries entries'
  | .file f, .file g => f = g
  | v, w =>
    match num? v, num? w with
    | some x, some y => x.eq y
    | _, _ => false

def pyEqItems : List Value → List Value → Bool
  | [], [] => true
  | v :: items, w :: items' => pyEq v w && pyEqItems items items'
  | _, _ => false

def pyEqEntries : List (String × Value) → List (String × Value) → Bool
  | [], _ => true
  | (name, v) :: entries, entries' =>
    (match entries'.lookup name with
      | some w => pyEq v w
      | Option.none => false) && pyEqEntries entries entries'

end

/-- `element in items`. -/
def isIn (element : Value) (items : List Value) : Bool := items.any (pyEq element)

end Value
end PlatformSpec.DraftVariable
