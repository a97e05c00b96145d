import PlatformSpec.Base.Assoc
import PlatformSpec.Base.Result
import PlatformSpec.Conditions.Processor

/-!
# Pool of typed variables

`VariablePool.add` and `get` of `dify_graph/runtime/variable_pool.py` with the variables of
`dify_graph/variables/variables.py`. A variable keeps its value apart from the type that its
class declares, since a copy with another value is not validated.
-/

namespace PlatformSpec.Variables

open Base Conditions DraftVariable
open PlatformSpec.Runtime (PyError)

/-- `VariableBase`: the type of its class, and whatever value was put in. -/
structure Variable where
  id : String
  name : String
  description : String := ""
  selector : List String := []
  valueType : SegmentType
  value : Value

namespace Variable

/-- The value is one that the class of the variable accepts. -/
def Conforms (v : Variable) : Prop := v.valueType.accepts v.value = true

/-- `model_copy(update={"value": value})`. -/
def withValue (v : Variable) (value : Value) : Variable := { v with value := value }

end Variable

/-- What the pool is read through: the texts of values and the attributes of files. -/
structure Surroundings where
  str : Value → String
  getAttr : File → FileAttribute → Except PyError Value

/-- `variable_dictionary`: node id, then variable name. -/
structure VariablePool where
  variableDictionary : List (String × List (String × Variable)) := []

/-- What `get` returns: a stored variable, or a segment built from a part of one. -/
inductive Found where
  | variable (v : Variable)
  | segment (s : Segment)

namespace Found

def valueType : Found → SegmentType
  | «variable» v => v.valueType
  | segment s => s.valueType

def value : Found → Value
  | «variable» v => v.value
  | segment s => s.value

end Found

/-- What a value finds as a key of a dictionary whose keys are texts: a list, a dictionary and a
file have no hash. -/
def hashKey : Value → Except PyError (Option String)
  | .str s => .ok (some s)
  | .list _ => .error ⟨.typeError, "unhashable type: 'list'"⟩
  | .dict _ => .error ⟨.typeError, "unhashable type: 'dict'"⟩
  | .file _ => .error ⟨.typeError, "unhashable type: 'File'"⟩
  | _ => .ok none

/-- `entries.get(key)`. -/
def find {α : Type} (entries : List (String × α)) (key : Value) : Except PyError (Option α) :=
  (hashKey key).map fun key => key.bind fun name => entries.lookup name

namespace VariablePool

variable (env : Surroundings) (p : VariablePool)

/-- The variable stored under a node id and a name. -/
def lookup (nodeId name : String) : Option Variable :=
  (p.variableDictionary.lookup nodeId).bind (·.lookup name)

/-- An entry of the dictionary replaced. -/
def store (nodeId name : String) (v : Variable) : VariablePool :=
  ⟨Assoc.assign p.variableDictionary nodeId
    (Assoc.assign ((p.variableDictionary.lookup nodeId).getD []) name v)⟩

/-- `add` for a variable. -/
def add (selector : List String) (v : Variable) : Except PyError VariablePool :=
  match selector with
  | [nodeId, name] => .ok (p.store nodeId name v)
  | _ => valueError ("Invalid selector: expected 2 elements (node_id, variable_name), got " ++
      toString selector.length ++ " elements")

/-- `variable_factory.build_segment`. -/
def buildSegment (value : Value) : Except PyError Segment :=
  match Segment.build value with
  | some s => .ok s
  | none => valueError ("not supported value " ++ env.str value)

/-- The loop over the attributes: only objects have any. -/
def getNested (found : Found) : List Value → Except PyError (Option Found)
  | [] => .ok (some found)
  | attr :: attrs =>
    match found.valueType, found.value with
    | .object, .dict entries => do
      match ← find entries attr with
      | none => return none
      | some value => getNested (.segment (← buildSegment env value)) attrs
    | _, _ => .ok none

/-- The attribute of a file. -/
def getFileAttribute (f : File) (attr : Value) : Except PyError (Option Found) := do
  match (← hashKey attr).bind FileAttribute.valueOf with
  | none => return none
  | some attr => return some (.segment (← buildSegment env (← env.getAttr f attr)))

/-- The part of a stored variable that the attributes of a selector lead to. -/
def getWithin (v : Variable) : List Value → Except PyError (Option Found)
  | [] => .ok (some (.variable v))
  | attr :: attrs =>
    match v.valueType, v.value with
    | .file, .file f => getFileAttribute env f attr
    | _, _ => getNested env (.variable v) (attr :: attrs)

/-- `get`, for a selector of any values. -/
def get (selector : List Value) : Except PyError (Option Found) :=
  match selector with
  | nodeId :: name :: attrs => do
    match ← find p.variableDictionary nodeId with
    | none => return none
    | some nodeMap =>
      match ← find nodeMap name with
      | none => return none
      | some v => getWithin env v attrs
  | _ => .ok none

/-- A stored variable is found under its own key, and every other variable stays. -/
@[simp] theorem lookup_store (nodeId name n x : String) (v : Variable) :
    (p.store nodeId name v).lookup n x =
      if n = nodeId ∧ x = name then some v else p.lookup n x := by
  unfold store lookup
  rw [Assoc.lookup_assign]
  by_cases hn : n = nodeId
  · subst hn
    simp only [↓reduceIte, Option.bind_some, Assoc.lookup_assign, true_and]
    split
    · rfl
    · cases p.variableDictionary.lookup n <;> simp
  · simp [hn]

end VariablePool
end PlatformSpec.Variables
