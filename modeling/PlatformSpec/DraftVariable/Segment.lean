import Mathlib

/-!
# Values and segments

Models `File` of `dify_graph/file/models.py`, the segment types of `dify_graph/variables/types.py`,
the segments with their serialization, the factories of `factories/variable_factory.py` and the
decoding of `WorkflowDraftVariable`. A JSON text is modelled by the value that it loads to, a float
by its `repr`. What raises returns `none`.
-/

namespace PlatformSpec.DraftVariable

inductive FileType where
  | image
  | document
  | audio
  | video
  | custom
  deriving DecidableEq

inductive FileTransferMethod where
  | remoteUrl
  | localFile
  | toolFile
  | datasourceFile
  deriving DecidableEq

def FileType.value : FileType → String
  | .image => "image"
  | .document => "document"
  | .audio => "audio"
  | .video => "video"
  | .custom => "custom"

def FileType.valueOf : String → Option FileType
  | "image" => some .image
  | "document" => some .document
  | "audio" => some .audio
  | "video" => some .video
  | "custom" => some .custom
  | _ => none

def FileTransferMethod.value : FileTransferMethod → String
  | .remoteUrl => "remote_url"
  | .localFile => "local_file"
  | .toolFile => "tool_file"
  | .datasourceFile => "datasource_file"

def FileTransferMethod.valueOf : String → Option FileTransferMethod
  | "remote_url" => some .remoteUrl
  | "local_file" => some .localFile
  | "tool_file" => some .toolFile
  | "datasource_file" => some .datasourceFile
  | _ => none

@[simp] theorem FileType.valueOf_value (type : FileType) : valueOf type.value = some type := by
  cases type <;> rfl

@[simp] theorem FileTransferMethod.valueOf_value (method : FileTransferMethod) :
    valueOf method.value = some method := by
  cases method <;> rfl

/-- `FILE_MODEL_IDENTITY`. -/
def fileModelIdentity : String := "__dify__file__"

/-- What `validate_after` asks of a file. -/
def validateAfter (method : FileTransferMethod) (remoteUrl relatedId : Option String) : Bool :=
  match method with
  | .remoteUrl => remoteUrl.any fun url => url ≠ "" && "http".toList.isPrefixOf url.toList
  | .localFile | .toolFile | .datasourceFile => relatedId.any (· ≠ "")

/-- `File`, without the storage key, which is loaded anew with every file. -/
structure File where
  difyModelIdentity : String
  id : Option String
  tenantId : String
  type : FileType
  transferMethod : FileTransferMethod
  remoteUrl : Option String
  relatedId : Option String
  filename : Option String
  extension : Option String
  mimeType : Option String
  size : Int
  valid : validateAfter transferMethod remoteUrl relatedId = true
  deriving DecidableEq

/-- A value of Python: JSON values, with files among them. -/
inductive Value where
  | none
  | bool (b : Bool)
  | int (n : Int)
  | float (repr : String)
  | str (s : String)
  | list (items : List Value)
  | dict (entries : List (String × Value))
  | file (f : File)

namespace Value

/-- A value that may be `None`. -/
def ofOption : Option String → Value
  | .none => .none
  | .some s => .str s

/-- Pydantic's validation of a field of type `str | None`. -/
def toOption : Value → Option (Option String)
  | .none => some .none
  | .str s => some (.some s)
  | _ => .none

@[simp] theorem toOption_ofOption (s : Option String) : (ofOption s).toOption = some s := by
  cases s <;> rfl

@[simp] theorem toOption_str (s : String) : (str s).toOption = some (.some s) := rfl

/-- `maybe_file_object`. -/
def maybeFileObject : Value → Bool
  | .dict entries =>
    match entries.lookup "dify_model_identity" with
    | some (.str identity) => identity == fileModelIdentity
    | _ => false
  | _ => false

end Value

/-- The keyword arguments of `File.__init__`. -/
def fileArguments : List String :=
  ["id", "tenant_id", "type", "transfer_method", "remote_url", "related_id", "filename",
    "extension", "mime_type", "size", "storage_key", "dify_model_identity", "url", "tool_file_id",
    "upload_file_id", "datasource_file_id"]

/-- What is taken from libraries: the `int` that Pydantic reads off a value, the text that `orjson`
writes for a value and the value that `json.loads` reads off a text that it did not write. -/
structure Libraries where
  readInt : Value → Option Int
  readInt_int : ∀ n, readInt (.int n) = some n
  text : Value → String
  loads : String → Option Value

namespace File

/-- The fields that `model_dump` writes. -/
def fields (f : File) : List (String × Value) :=
  [("dify_model_identity", .str f.difyModelIdentity), ("id", .ofOption f.id),
    ("tenant_id", .str f.tenantId), ("type", .str f.type.value),
    ("transfer_method", .str f.transferMethod.value), ("remote_url", .ofOption f.remoteUrl),
    ("related_id", .ofOption f.relatedId), ("filename", .ofOption f.filename),
    ("extension", .ofOption f.extension), ("mime_type", .ofOption f.mimeType),
    ("size", .int f.size)]

/-- `model_dump`. -/
def modelDump (f : File) : Value := .dict f.fields

/-- The constructor, on the keyword arguments that it is given. -/
def init (lib : Libraries) (entries : List (String × Value)) : Option File := do
  if entries.any fun entry => !fileArguments.contains entry.1 then .none
  let text := fun name => match entries.lookup name with
    | some (.str s) => some s
    | _ => none
  let optional := fun name => ((entries.lookup name).getD .none).toOption
  let identity ← ((entries.lookup "dify_model_identity").getD (.str fileModelIdentity)).toOption
  let identity ← identity
  let id ← optional "id"
  let tenantId ← text "tenant_id"
  let type ← (text "type").bind FileType.valueOf
  let transferMethod ← (text "transfer_method").bind FileTransferMethod.valueOf
  let remoteUrl ← optional "remote_url"
  let relatedId ← optional "related_id"
  let filename ← optional "filename"
  let extension ← optional "extension"
  let mimeType ← optional "mime_type"
  let size ← lib.readInt ((entries.lookup "size").getD (.int (-1)))
  if valid : validateAfter transferMethod remoteUrl relatedId = true then
    some ⟨identity, id, tenantId, type, transferMethod, remoteUrl, relatedId, filename, extension,
      mimeType, size, valid⟩
  else .none

/-- `model_validate`. -/
def modelValidate (lib : Libraries) : Value → Option File
  | .file f => some f
  | .dict entries => init lib entries
  | _ => none

theorem modelValidate_modelDump (lib : Libraries) (f : File) :
    modelValidate lib f.modelDump = some f := by
  obtain ⟨identity, id, tenantId, type, method, remoteUrl, relatedId, filename, ext, mimeType,
    size, valid⟩ := f
  simp [modelDump, fields, modelValidate, init, fileArguments, List.lookup, lib.readInt_int, valid]

end File

/-- `SegmentType`. -/
inductive SegmentType where
  | number
  | integer
  | float
  | string
  | object
  | secret
  | file
  | boolean
  | arrayAny
  | arrayString
  | arrayNumber
  | arrayObject
  | arrayFile
  | arrayBoolean
  | none
  | group
  deriving DecidableEq

namespace SegmentType

/-- The text of a type. -/
def text : SegmentType → String
  | .number => "number"
  | .integer => "integer"
  | .float => "float"
  | .string => "string"
  | .object => "object"
  | .secret => "secret"
  | .file => "file"
  | .boolean => "boolean"
  | .arrayAny => "array[any]"
  | .arrayString => "array[string]"
  | .arrayNumber => "array[number]"
  | .arrayObject => "array[object]"
  | .arrayFile => "array[file]"
  | .arrayBoolean => "array[boolean]"
  | .none => "none"
  | .group => "group"

/-- `is_array_type`. -/
def isArrayType : SegmentType → Bool
  | .arrayAny | .arrayString | .arrayNumber | .arrayObject | .arrayFile | .arrayBoolean => true
  | _ => false

/-- `_NUMERICAL_TYPES`. -/
def isNumerical : SegmentType → Bool
  | .number | .integer | .float => true
  | _ => false

/-- The type of an array whose elements all have the one type, which is not an array type. -/
def arrayOf : SegmentType → Option SegmentType
  | .string => some .arrayString
  | .number | .integer | .float => some .arrayNumber
  | .object => some .arrayObject
  | .file => some .arrayFile
  | .none => some .arrayAny
  | .boolean => some .arrayBoolean
  | _ => Option.none

/-- The type of an array whose elements do not all have one type. -/
def arrayOfMixed (types : List SegmentType) : SegmentType :=
  if types.all isNumerical then .arrayNumber else .arrayAny

/-- The type that `infer_segment_type` gives an array, by the types of its elements. -/
def inferArray : List SegmentType → Option SegmentType
  | [] => some .arrayNumber
  | t :: types =>
    if types.all (· = t) then if t.isArrayType then some .arrayAny else t.arrayOf
    else some (arrayOfMixed (t :: types))

/-- The type that `build_segment` gives an array, by the types of its elements' segments. -/
def buildArray (types : List SegmentType) : Option SegmentType :=
  if types.all isArrayType then some .arrayAny
  else
    match types with
    | [] => some (arrayOfMixed [])
    | t :: types => if types.all (· = t) then t.arrayOf else some (arrayOfMixed (t :: types))

end SegmentType

mutual

/-- `SegmentType.infer_segment_type`. -/
def Value.inferSegmentType : Value → Option SegmentType
  | .none => some .none
  | .bool _ => some .boolean
  | .int _ => some .integer
  | .float _ => some .float
  | .str _ => some .string
  | .dict _ => some .object
  | .file _ => some .file
  | .list items => (inferSegmentTypes items).bind SegmentType.inferArray

def Value.inferSegmentTypes : List Value → Option (List SegmentType)
  | [] => some []
  | item :: items => do
    let type ← item.inferSegmentType
    let types ← inferSegmentTypes items
    some (type :: types)

end

mutual

/-- The type of the segment that `build_segment` builds. -/
def Value.buildType : Value → Option SegmentType
  | .none => some .none
  | .bool _ => some .boolean
  | .int _ => some .integer
  | .float _ => some .float
  | .str _ => some .string
  | .dict _ => some .object
  | .file _ => some .file
  | .list items => (buildTypes items).bind SegmentType.buildArray

def Value.buildTypes : List Value → Option (List SegmentType)
  | [] => some []
  | item :: items => do
    let type ← item.buildType
    let types ← buildTypes items
    some (type :: types)

end

/-- The values that the class of segments of a type accepts; no class has the type `number`. -/
def SegmentType.accepts : SegmentType → Value → Bool
  | .none, .none => true
  | .boolean, .bool _ => true
  | .integer, .int _ => true
  | .float, .float _ => true
  | .string, .str _ => true
  | .secret, .str _ => true
  | .object, .dict _ => true
  | .file, .file _ => true
  | .arrayAny, .list _ => true
  | .group, .list _ => true
  | .arrayString, .list items => items.all (· matches .str _)
  | .arrayNumber, .list items => items.all (· matches .int _ | .float _)
  | .arrayObject, .list items => items.all (· matches .dict _)
  | .arrayFile, .list items => items.all (· matches .file _)
  | .arrayBoolean, .list items => items.all (· matches .bool _)
  | _, _ => false

/-- `Segment`: a value that its class has validated. The segments of a group are kept by their
values. -/
structure Segment where
  valueType : SegmentType
  value : Value
  valid : valueType.accepts value = true

namespace Segment

/-- A segment of a class, validated. -/
def ofType (type : SegmentType) (value : Value) : Option Segment :=
  if valid : type.accepts value = true then some ⟨type, value, valid⟩ else none

/-- `build_segment`. -/
def build (value : Value) : Option Segment := do
  let type ← value.buildType
  ofType type value

/-- `build_segment_with_type` of `factories/variable_factory.py`. -/
def buildWithType (type : SegmentType) (value : Value) : Option Segment :=
  match value with
  | .none => if type = .none then ofType .none .none else none
  | .list [] => if type.isArrayType then ofType type (.list []) else none
  | value =>
    match value.inferSegmentType with
    | none => none
    | some inferred =>
      if inferred = type then ofType type value
      else if type = .number ∧ (inferred = .integer ∨ inferred = .float) then
        ofType inferred value
      else none

end Segment

/-- `rebuild_file_types`. -/
def rebuildFileTypes (lib : Libraries) : Value → Option Value
  | .dict entries =>
    if (Value.dict entries).maybeFileObject then
      (File.modelValidate lib (.dict entries)).map .file
    else some (.dict entries)
  | .list (first :: items) =>
    if first.maybeFileObject then
      ((first :: items).mapM (File.modelValidate lib)).map fun files => .list (files.map .file)
    else some (.list (first :: items))
  | value => some value

/-- `_build_segment_for_serialized_values`. -/
def buildSegmentForSerializedValues (lib : Libraries) (value : Value) : Option Segment := do
  let value ← rebuildFileTypes lib value
  Segment.build value

/-- `WorkflowDraftVariable.build_segment_with_type`. -/
def buildSegmentWithType (lib : Libraries) (type : SegmentType) (value : Value) :
    Option Segment :=
  match type, value with
  | .file, .file f => Segment.buildWithType .file (.file f)
  | .file, .dict entries =>
    (rebuildFileTypes lib (.dict entries)).bind (Segment.buildWithType .file)
  | .file, _ => none
  | .arrayFile, .list items =>
    (rebuildFileTypes lib (.list items)).bind (Segment.buildWithType .arrayFile)
  | .arrayFile, _ => none
  | type, value => Segment.buildWithType type value

mutual

/-- The value that `orjson.dumps` writes, if it writes one: integers have 64 bits, a float that is
not finite becomes `null`, and a file is not written. -/
def Value.dumps : Value → Option Value
  | .none => some .none
  | .bool b => some (.bool b)
  | .int n => if -2 ^ 63 ≤ n ∧ n < 2 ^ 64 then some (.int n) else .none
  | .float repr => some (if repr ∈ ["nan", "inf", "-inf"] then .none else .float repr)
  | .str s => some (.str s)
  | .list items => (dumpsItems items).map .list
  | .dict entries => (dumpsEntries entries).map .dict
  | .file _ => .none

def Value.dumpsItems : List Value → Option (List Value)
  | [] => some []
  | item :: items => do
    let item ← item.dumps
    let items ← dumpsItems items
    some (item :: items)

def Value.dumpsEntries : List (String × Value) → Option (List (String × Value))
  | [] => some []
  | (name, value) :: entries => do
    let value ← value.dumps
    let entries ← dumpsEntries entries
    some ((name, value) :: entries)

end

/-- `segment_orjson_default`, on the segment of a type with a value. -/
def segmentOrjsonDefault : SegmentType → Value → Value
  | .file, .file f => f.modelDump
  | .arrayFile, .list items =>
    .list (items.map fun
      | .file f => f.modelDump
      | item => item)
  | _, value => value

/-- `dumps_with_segments`, on the segment of a type with a value. -/
def dumpsWithSegments (type : SegmentType) (value : Value) : Option Value :=
  (segmentOrjsonDefault type value).dumps

end PlatformSpec.DraftVariable
