import PlatformSpec.Base.OrderedDict
import PlatformSpec.Variables.Pool

/-!
# Variable pools with their bootstrap variables

`VariablePool` of `dify_graph/runtime/variable_pool.py` with the lists that its constructor writes
into the dictionary, `SystemVariable` of `dify_graph/system_variable.py`, and the dump of a pool in
a snapshot with its validation. A file has a storage key besides its fields. What raises returns
`none`; the ids that `uuid4` gives to new variables are a parameter.
-/

namespace PlatformSpec.Snapshot

open Base DraftVariable
open Variables (Surroundings)
open Conditions (valueError)
open PlatformSpec.Runtime (PyError)

/-- A value of the pool: a file is kept with its storage key. -/
inductive Datum where
  | none
  | bool (b : Bool)
  | int (n : Int)
  | float (repr : String)
  | str (s : String)
  | list (items : List Datum)
  | dict (entries : List (String × Datum))
  | file (f : File) (storageKey : String)

namespace Datum

mutual

/-- The value without storage keys. -/
def toValue : Datum → Value
  | .none => .none
  | .bool b => .bool b
  | .int n => .int n
  | .float repr => .float repr
  | .str s => .str s
  | .list items => .list (toValues items)
  | .dict entries => .dict (toEntries entries)
  | .file f _ => .file f

def toValues : List Datum → List Value
  | [] => []
  | item :: items => item.toValue :: toValues items

def toEntries : List (String × Datum) → List (String × Value)
  | [] => []
  | (name, value) :: entries => (name, value.toValue) :: toEntries entries

end

mutual

/-- The JSON value that `model_dump` writes. -/
def dump : Datum → Value
  | .none => .none
  | .bool b => .bool b
  | .int n => .int n
  | .float repr => .float repr
  | .str s => .str s
  | .list items => .list (dumpItems items)
  | .dict entries => .dict (dumpEntries entries)
  | .file f _ => f.modelDump

def dumpItems : List Datum → List Value
  | [] => []
  | item :: items => item.dump :: dumpItems items

def dumpEntries : List (String × Datum) → List (String × Value)
  | [] => []
  | (name, value) :: entries => (name, value.dump) :: dumpEntries entries

end

mutual

/-- The value that is loaded for a JSON value; a text without a storage key is `str(None)`. -/
def load : Value → Datum
  | .none => .none
  | .bool b => .bool b
  | .int n => .int n
  | .float repr => .float repr
  | .str s => .str s
  | .list items => .list (loadItems items)
  | .dict entries => .dict (loadEntries entries)
  | .file f => .file f "None"

def loadItems : List Value → List Datum
  | [] => []
  | item :: items => load item :: loadItems items

def loadEntries : List (String × Value) → List (String × Datum)
  | [] => []
  | (name, value) :: entries => (name, load value) :: loadEntries entries

end

end Datum

/-- What is taken from libraries: besides how files are read, `str`, the attributes of files, and
Pydantic's validation of the field `value` of a class of variables that holds no file. A value that
the class accepts is returned as it is, and what is returned is one that the class accepts. -/
structure Libraries extends DraftVariable.Libraries, Surroundings where
  validate : SegmentType → Value → Option Value
  validate_of_accepts : ∀ type value, type.accepts value = true → validate type value = some value
  accepts_of_validate : ∀ type value value', validate type value = some value' →
    type.accepts value' = true

/-- `VariableBase`: the type of its class, and whatever value was put in. -/
structure Variable where
  id : String
  name : String
  description : String := ""
  selector : List String := []
  valueType : SegmentType
  value : Datum

/-- The types that are the type of a class of variables. -/
def isVariableType : SegmentType → Bool
  | .number | .group => false
  | _ => true

/-- A segment that is no variable: its class has validated the value. -/
structure PlainSegment where
  valueType : SegmentType
  value : Datum
  valid : valueType.accepts value.toValue = true

/-- `build_segment` for a value. -/
def buildSegment (value : Datum) : Option PlainSegment := do
  let type ← value.toValue.buildType
  if valid : type.accepts value.toValue = true then some ⟨type, value, valid⟩ else none

/-- `segment_to_variable`, with the id of the new variable. -/
def segmentToVariable (id : String) (selector : List String) (s : PlainSegment) :
    Option Variable :=
  if s.valueType = .secret ∨ isVariableType s.valueType = false then none
  else some {
    id
    name := selector.getLastD ""
    selector
    valueType := s.valueType
    value := s.value }

/-- What is given to `add`. -/
inductive Given where
  | variable (v : Variable)
  | segment (s : PlainSegment)
  | value (d : Datum)

/-- The variable that `add` stores. -/
def Given.toVariable (id : String) (selector : List String) : Given → Option Variable
  | .variable v => some v
  | .segment s => segmentToVariable id selector s
  | .value d => (buildSegment d).bind (segmentToVariable id selector)

/-- `SystemVariable`; a file is listed with its storage key. -/
structure SystemVariable where
  userId : Option String := none
  appId : Option String := none
  workflowId : Option String := none
  timestamp : Option Int := none
  files : List (File × String) := []
  workflowExecutionId : Option String := none
  query : Option String := none
  conversationId : Option String := none
  dialogueCount : Option Int := none
  documentId : Option String := none
  originalDocumentId : Option String := none
  datasetId : Option String := none
  batch : Option String := none
  datasourceType : Option String := none
  datasourceInfo : Option (List (String × Datum)) := none
  invokeFrom : Option String := none

namespace SystemVariable

variable (s : SystemVariable)

/-- `to_dict`: what is `None` is absent. -/
def toDict : List (String × Datum) :=
  ("files", .list (s.files.map fun f => .file f.1 f.2)) ::
    [("user_id", s.userId.map .str), ("app_id", s.appId.map .str),
      ("workflow_id", s.workflowId.map .str), ("workflow_run_id", s.workflowExecutionId.map .str),
      ("query", s.query.map .str), ("conversation_id", s.conversationId.map .str),
      ("dialogue_count", s.dialogueCount.map .int), ("document_id", s.documentId.map .str),
      ("original_document_id", s.originalDocumentId.map .str),
      ("dataset_id", s.datasetId.map .str), ("batch", s.batch.map .str),
      ("datasource_type", s.datasourceType.map .str),
      ("datasource_info", s.datasourceInfo.map .dict), ("invoke_from", s.invokeFrom.map .str),
      ("timestamp", s.timestamp.map .int)].filterMap fun p => p.2.map (Prod.mk p.1)

/-- What a dump of system variables is validated to. -/
def reread : SystemVariable := { s with
  files := s.files.map fun f => (f.1, "None")
  datasourceInfo := s.datasourceInfo.map fun info => Datum.loadEntries (Datum.dumpEntries info) }

end SystemVariable

/-- `RAGPipelineVariableInput`: where the value belongs, and the value. -/
structure RAGPipelineVariableInput where
  belongToNodeId : String
  «variable» : String
  value : Datum

/-- `rag_pipeline_variables_map`. -/
def ragPipelineVariablesMap (inputs : List RAGPipelineVariableInput) :
    List (String × List (String × Datum)) :=
  inputs.foldl (fun d input => Assoc.assign d input.belongToNodeId
    (Assoc.assign ((d.lookup input.belongToNodeId).getD []) input.variable input.value)) []

/-- `SYSTEM_VARIABLE_NODE_ID`. -/
def sys : String := "sys"

/-- `ENVIRONMENT_VARIABLE_NODE_ID`. -/
def env : String := "env"

/-- `CONVERSATION_VARIABLE_NODE_ID`. -/
def conversation : String := "conversation"

/-- `RAG_PIPELINE_VARIABLE_NODE_ID`. -/
def rag : String := "rag"

/-- `VariablePool`; `variable_dictionary` has a dictionary of variables for each node id. -/
structure VariablePool where
  variableDictionary : OrderedDict String (OrderedDict String Variable) := default
  systemVariables : SystemVariable := {}
  environmentVariables : List Variable := []
  conversationVariables : List Variable := []
  ragPipelineVariables : List RAGPipelineVariableInput := []

/-- What `get` returns: a stored variable, a part of one as a segment, or an attribute of a file. -/
inductive Found where
  | variable (v : Variable)
  | part (s : PlainSegment)
  | attribute (found : Variables.Found)

/-- The loop over the attributes: only objects have any. -/
def getNested (lib : Libraries) (found : Found) (type : SegmentType) (value : Datum) :
    List String → Except PyError (Option Found)
  | [] => .ok (some found)
  | attr :: attrs =>
    match type, value with
    | .object, .dict entries =>
      match entries.lookup attr with
      | none => .ok none
      | some value =>
        match buildSegment value with
        | none => valueError ("not supported value " ++ lib.str value.toValue)
        | some s => getNested lib (.part s) s.valueType s.value attrs
    | _, _ => .ok none

namespace VariablePool

variable (p : VariablePool)

/-- The dictionary of a node; a missing one is empty. -/
def nodeMap (nodeId : String) : OrderedDict String Variable :=
  (p.variableDictionary.get nodeId).getD default

/-- The variable stored under a node id and a name. -/
def lookup (nodeId name : String) : Option Variable :=
  (p.variableDictionary.get nodeId).bind (·.get name)

/-- The dictionary of a node replaced. -/
def setNode (nodeId : String) (node : OrderedDict String Variable) : VariablePool :=
  { p with variableDictionary := p.variableDictionary.set nodeId node }

/-- `self.variable_dictionary[node_id][name] = variable`. -/
def store (nodeId name : String) (v : Variable) : VariablePool :=
  p.setNode nodeId ((p.nodeMap nodeId).set name v)

/-- `add`, with the id that a new variable gets. -/
def add (selector : List String) (given : Given) (id : String) : Option VariablePool :=
  match selector with
  | [nodeId, name] => (given.toVariable id selector).map (p.store nodeId name)
  | _ => none

/-- `remove`. -/
def remove : List String → VariablePool
  | [] => p
  | [nodeId] => p.setNode nodeId default
  | nodeId :: name :: _ => p.setNode nodeId ((p.nodeMap nodeId).pop name)

/-- `get`. -/
def get (lib : Libraries) : List String → Except PyError (Option Found)
  | nodeId :: name :: attrs =>
    match p.lookup nodeId name with
    | none => .ok none
    | some v =>
      match attrs, v.valueType, v.value with
      | [], _, _ => .ok (some (.variable v))
      | attr :: _, .file, .file f _ =>
        (Variables.VariablePool.getFileAttribute lib.toSurroundings f (.str attr)).map
          (Option.map .attribute)
      | attrs, type, value => getNested lib (.variable v) type value attrs
  | _ => .ok none

/-- One step of `_add_system_variables`: what is there stays. -/
def addSystemVariable (ids : String → String → String) (entry : String × Datum) :
    Option VariablePool :=
  if (p.lookup sys entry.1).isSome then some p
  else p.add [sys, entry.1] (.value entry.2) (ids sys entry.1)

def addEnvironmentVariable (v : Variable) : Option VariablePool :=
  p.add [env, v.name] (.variable v) v.id

/-- What is there stays. -/
def addConversationVariable (v : Variable) : Option VariablePool :=
  if (p.lookup conversation v.name).isSome then some p
  else p.add [conversation, v.name] (.variable v) v.id

def addRagPipelineVariable (ids : String → String → String)
    (entry : String × List (String × Datum)) : Option VariablePool :=
  p.add [rag, entry.1] (.value (.dict entry.2)) (ids rag entry.1)

/-- `model_post_init`, with the ids of new variables by their selectors. -/
def modelPostInit (ids : String → String → String) : Option VariablePool := do
  let q ← p.systemVariables.toDict.foldlM (fun q entry => q.addSystemVariable ids entry) p
  let q ← p.environmentVariables.foldlM addEnvironmentVariable q
  let q ← p.conversationVariables.foldlM addConversationVariable q
  (ragPipelineVariablesMap p.ragPipelineVariables).foldlM
    (fun q entry => q.addRagPipelineVariable ids entry) q

end VariablePool

/-- A change of a pool after it is built. -/
inductive Operation where
  | add (selector : List String) (given : Given) (id : String)
  | remove (selector : List String)

/-- One change; an `add` that raises leaves the pool as it is. -/
def VariablePool.apply (p : VariablePool) : Operation → VariablePool
  | .add selector given id => (p.add selector given id).getD p
  | .remove selector => p.remove selector

/-- The pool that the constructor builds from its arguments, changed. -/
def VariablePool.run (arguments : VariablePool) (ids : String → String → String)
    (operations : List Operation) : Option VariablePool :=
  (arguments.modelPostInit ids).map (operations.foldl apply)

/-! ### Dump and validation -/

variable (lib : Libraries)

/-- The storage key of a file that is read from a dictionary. -/
def storageKey (entries : List (String × Value)) : String :=
  match entries.lookup "storage_key" with
  | none | some .none => "None"
  | some value => lib.str value

/-- A file read from a JSON value. -/
def rereadFile : Value → Option Datum
  | .dict entries =>
    (File.modelValidate lib.toLibraries (.dict entries)).map fun f =>
      .file f (storageKey lib entries)
  | _ => none

/-- The value of a dumped variable, validated by the class of its type. -/
def rereadValue (type : SegmentType) (value : Value) : Option Datum :=
  match type, value with
  | .file, value => rereadFile lib value
  | .arrayFile, .list items => (items.mapM (rereadFile lib)).map .list
  | .arrayFile, _ => none
  | type, value => if isVariableType type then (lib.validate type value).map Datum.load else none

/-- What a dumped variable is validated to. -/
def Variable.reread (v : Variable) : Option Variable :=
  (rereadValue lib v.valueType v.value.dump).map fun value => { v with value }

def RAGPipelineVariableInput.reread (input : RAGPipelineVariableInput) :
    RAGPipelineVariableInput :=
  { input with value := Datum.load input.value.dump }

/-- `model_validate` of `model_dump(mode="json")`, with the ids of variables that are new. -/
def VariablePool.restore (p : VariablePool) (ids : String → String → String) :
    Option VariablePool := do
  let variableDictionary ← p.variableDictionary.traverse fun node =>
    node.traverse (Variable.reread lib)
  let environmentVariables ← p.environmentVariables.mapM (Variable.reread lib)
  let conversationVariables ← p.conversationVariables.mapM (Variable.reread lib)
  let read : VariablePool := {
    variableDictionary
    systemVariables := p.systemVariables.reread
    environmentVariables
    conversationVariables
    ragPipelineVariables := p.ragPipelineVariables.map (·.reread) }
  read.modelPostInit ids

end PlatformSpec.Snapshot
