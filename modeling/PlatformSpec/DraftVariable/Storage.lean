import Mathlib.Logic.Function.Basic
import PlatformSpec.DraftVariable.Truncator

/-!
# Storage of draft variables

Models the tables of draft variables, of their files and of uploaded files with the object
storage, `DraftVariableSaver`, the operations of `WorkflowDraftVariableService` and
`FileService.upload_file`. A row is addressed by its unique key; identifiers and object keys are
numbers that are issued once. Metadata that no operation reads is left out.
-/

namespace PlatformSpec.DraftVariable

/-- The columns of the unique constraint of `WorkflowDraftVariable`. -/
structure VariableKey where
  appId : String
  userId : String
  nodeId : String
  name : String
  deriving DecidableEq

/-- `WorkflowDraftVariable`. -/
structure WorkflowDraftVariable where
  valueType : SegmentType
  value : Value
  visible : Bool
  editable : Bool
  nodeExecutionId : Option String
  fileId : Option Nat
  edited : Bool

/-- `WorkflowDraftVariableFile`. -/
structure WorkflowDraftVariableFile where
  uploadFileId : Nat
  valueType : SegmentType
  deriving DecidableEq

/-- `UploadFile`. -/
structure UploadFile where
  key : Nat
  deriving DecidableEq

/-- What an object holds: a text, or the text that `orjson` writes for a value. -/
inductive Content where
  | text (s : String)
  | json (value : Value)

/-- The tables, the object storage, and the first number that is not yet issued. -/
structure Storage where
  draftVars : VariableKey → Option WorkflowDraftVariable
  files : Nat → Option WorkflowDraftVariableFile
  uploads : Nat → Option UploadFile
  objects : Nat → Option Content
  issued : Nat

namespace Storage

/-- Empty tables. -/
def empty : Storage := ⟨fun _ => none, fun _ => none, fun _ => none, fun _ => none, 0⟩

/-- A content is uploaded, and a row is added that refers to the uploaded file. -/
def store (s : Storage) (valueType : SegmentType) (content : Content) : Storage := { s with
  files := Function.update s.files s.issued (some ⟨s.issued + 1, valueType⟩)
  uploads := Function.update s.uploads (s.issued + 1) (some ⟨s.issued + 2⟩)
  objects := Function.update s.objects (s.issued + 2) (some content)
  issued := s.issued + 3 }

variable (s : Storage) (valueType : SegmentType) (content : Content)

@[simp] theorem store_files : (s.store valueType content).files =
    Function.update s.files s.issued (some ⟨s.issued + 1, valueType⟩) := rfl

@[simp] theorem store_uploads : (s.store valueType content).uploads =
    Function.update s.uploads (s.issued + 1) (some ⟨s.issued + 2⟩) := rfl

@[simp] theorem store_objects : (s.store valueType content).objects =
    Function.update s.objects (s.issued + 2) (some content) := rfl

@[simp] theorem store_issued : (s.store valueType content).issued = s.issued + 3 := rfl

/-- What has a number that is issued stays as it is. -/
structure Extends (s s' : Storage) : Prop where
  files : ∀ fileId < s.issued, s'.files fileId = s.files fileId
  uploads : ∀ uploadId < s.issued, s'.uploads uploadId = s.uploads uploadId
  objects : ∀ key < s.issued, s'.objects key = s.objects key
  issued : s.issued ≤ s'.issued

namespace Extends

theorem refl (s : Storage) : Extends s s := ⟨fun _ _ => rfl, fun _ _ => rfl, fun _ _ => rfl, le_rfl⟩

theorem trans {s₁ s₂ s₃ : Storage} (h : Extends s₁ s₂) (h' : Extends s₂ s₃) : Extends s₁ s₃ where
  files id hid := (h'.files id (hid.trans_le h.issued)).trans (h.files id hid)
  uploads id hid := (h'.uploads id (hid.trans_le h.issued)).trans (h.uploads id hid)
  objects key hkey := (h'.objects key (hkey.trans_le h.issued)).trans (h.objects key hkey)
  issued := h.issued.trans h'.issued

theorem store : Extends s (s.store valueType content) where
  files id hid := by rw [store_files, Function.update_of_ne (by omega)]
  uploads id hid := by rw [store_uploads, Function.update_of_ne (by omega)]
  objects key hkey := by rw [store_objects, Function.update_of_ne (by omega)]
  issued := by simp

end Extends

end Storage

/-- `SYSTEM_VARIABLE_NODE_ID`. -/
def systemVariableNodeId : String := "sys"

/-- `ENVIRONMENT_VARIABLE_NODE_ID`. -/
def environmentVariableNodeId : String := "env"

/-- `CONVERSATION_VARIABLE_NODE_ID`. -/
def conversationVariableNodeId : String := "conversation"

/-- `is_system_variable_editable`. -/
def isSystemVariableEditable (name : String) : Bool := ["query", "files"].contains name

namespace WorkflowDraftVariable

/-- `is_truncated`. -/
def isTruncated (draftVar : WorkflowDraftVariable) : Bool := draftVar.fileId.isSome

/-- `set_value`, with the type and the value of a segment. -/
def setValue (draftVar : WorkflowDraftVariable) (valueType : SegmentType) (value : Value) :
    Option WorkflowDraftVariable := do
  let value ← dumpsWithSegments valueType value
  some { draftVar with
    valueType := valueType
    value := value }

/-- The row with a new value, if one is given, as edited. -/
def edit (draftVar : WorkflowDraftVariable) (value : Option Segment) :
    Option WorkflowDraftVariable :=
  match value with
  | none => some { draftVar with edited := true }
  | some value => { draftVar with edited := true }.setValue value.valueType value.value

/-- `_new` with the flags of the caller. -/
def new (valueType : SegmentType) (value : Value) (nodeExecutionId : Option String)
    (visible editable : Bool) (fileId : Option Nat) : Option WorkflowDraftVariable :=
  setValue ⟨.none, .none, visible, editable, nodeExecutionId, fileId, false⟩ valueType value

theorem new_eq_some {valueType : SegmentType} {value : Value} {executionId : Option String}
    {visible editable : Bool} {fileId : Option Nat} {draftVar : WorkflowDraftVariable}
    (h : new valueType value executionId visible editable fileId =
      some draftVar) :
    draftVar.fileId = fileId ∧ draftVar.editable = editable ∧ draftVar.valueType = valueType ∧
      dumpsWithSegments valueType value = some draftVar.value := by
  obtain ⟨stored, hstored, heq⟩ := Option.bind_eq_some_iff.mp h
  cases heq
  exact ⟨rfl, rfl, rfl, hstored⟩

/-- `new_conversation_variable`. -/
def newConversationVariable (value : Segment) : Option WorkflowDraftVariable :=
  new value.valueType value.value none true true none

/-- `new_sys_variable`. -/
def newSysVariable (value : Segment) (nodeExecutionId : String) (editable : Bool) :
    Option WorkflowDraftVariable :=
  new value.valueType value.value (some nodeExecutionId) true editable none

end WorkflowDraftVariable

/-- The settings that saving reads. -/
structure Settings where
  lib : Libraries
  truncator : VariableTruncator
  uploadFileExtensionBlacklist : List String
  uploadFileSizeLimit : Nat
  postgresql : Bool

/-- The bytes of a content. -/
def Content.size (lib : Libraries) : Content → Nat
  | .text s => s.utf8ByteSize
  | .json value => (lib.text value).utf8ByteSize

/-- The extension of the file that a content is uploaded as. -/
def Content.fileExtension : Content → String
  | .text _ => "txt"
  | .json _ => "json"

/-- What `FileService.upload_file` refuses, of a file with a name before its extension. -/
def Settings.refuses (settings : Settings) (stem : String) (content : Content) : Bool :=
  stem.toList.any (fun c => c = '/' || c = '\\') ||
    settings.uploadFileExtensionBlacklist.contains content.fileExtension ||
    settings.uploadFileSizeLimit * 1024 * 1024 < content.size settings.lib

/-- `DraftVariableSaver`. -/
structure DraftVariableSaver where
  appId : String
  userId : String
  nodeId : String
  nodeType : String
  nodeExecutionId : String
  enclosingNodeId : Option String
  deriving DecidableEq

/-- An output of a node. -/
inductive Output where
  | raw (value : Value)
  | segment (value : Segment)

/-- `UpdatedVariable`. -/
structure UpdatedVariable where
  name : String
  selector : List String
  valueType : SegmentType
  newValue : Value

/-- The segment that is saved for an output. -/
def Output.build (lib : Libraries) : Output → Option Segment
  | .raw value => buildSegmentForSerializedValues lib value
  | .segment value => some value

/-- Rows to insert, with their keys. -/
abbrev DraftVariables := List (VariableKey × WorkflowDraftVariable)

namespace DraftVariableSaver

variable (saver : DraftVariableSaver) (settings : Settings)

/-- `_should_save_output_variables_for_draft`. -/
def shouldSaveOutputVariablesForDraft : Bool :=
  saver.enclosingNodeId.isNone || saver.nodeType == "assigner"

/-- `_should_variable_be_saved`. -/
def shouldVariableBeSaved (name : String) : Bool :=
  match saver.nodeType with
  | "llm" => name ≠ "finish_reason"
  | "loop" => name ≠ "loop_round"
  | _ => true

/-- `_should_variable_be_editable`. -/
def shouldVariableBeEditable (nodeId name : String) : Bool :=
  if nodeId = conversationVariableNodeId ∨ nodeId = environmentVariableNodeId then false
  else if nodeId = systemVariableNodeId ∧ !isSystemVariableEditable name then false
  else true

/-- The key of a variable that the saver saves. -/
def key (nodeId name : String) : VariableKey := ⟨saver.appId, saver.userId, nodeId, name⟩

/-- `_create_dummy_output_variable`. -/
def createDummyOutputVariable : VariableKey × WorkflowDraftVariable :=
  (saver.key saver.nodeId "__dummy__",
    ⟨.none, .none, false, false, some saver.nodeExecutionId, none, false⟩)

/-- `_generate_filename`. -/
def generateFilename (name : String) : String :=
  String.ofList (saver.nodeId.toList.map fun c =>
    if "<>:\"/\\|?*".toList.contains c || c.toNat < 32 then '_' else c) ++ "-" ++ name

/-- What `_try_offload_large_variable` writes for a value. -/
def serialize (value : Segment) : Option Content :=
  match value.valueType, value.value with
  | .string, .str s => some (.text s)
  | .secret, .str s => some (.text s)
  | _, value => value.dumps.map .json

/-- `_try_offload_large_variable`: the uploaded file and the row for it are committed at once. -/
def tryOffloadLargeVariable (name : String) (value : Segment) (s : Storage) :
    Option (Option (TruncationResult × Nat)) × Storage :=
  match settings.truncator.truncate settings.lib value with
  | none => (none, s)
  | some result =>
    if result.truncated = false then (some none, s)
    else
      match serialize value with
      | none => (none, s)
      | some content =>
        if settings.refuses (saver.generateFilename name) content then (none, s)
        else
          (some (some (result, s.issued)), s.store value.valueType content)

/-- How offloading ends: it raises, it leaves the value, or it has stored the value. -/
theorem tryOffload_cases (name : String) (value : Segment) (s : Storage) :
    saver.tryOffloadLargeVariable settings name value s = (none, s) ∨
    (∃ result, settings.truncator.truncate settings.lib value = some result ∧
      result.truncated = false ∧
      saver.tryOffloadLargeVariable settings name value s = (some none, s)) ∨
    ∃ result content, settings.truncator.truncate settings.lib value = some result ∧
      result.truncated = true ∧ serialize value = some content ∧
      saver.tryOffloadLargeVariable settings name value s =
        (some (some (result, s.issued)), s.store value.valueType content) := by
  unfold tryOffloadLargeVariable
  cases settings.truncator.truncate settings.lib value with
  | none => exact .inl rfl
  | some result =>
    cases hcut : result.truncated with
    | false => exact .inr (.inl ⟨result, rfl, hcut, by simp [hcut]⟩)
    | true =>
      cases serialize value with
      | none => exact .inl (by simp [hcut])
      | some content =>
        cases hrefuse : settings.refuses (saver.generateFilename name) content with
        | true => exact .inl (by simp [hcut, hrefuse])
        | false => exact .inr (.inr ⟨result, content, rfl, hcut, rfl, by simp [hcut, hrefuse]⟩)

/-- `_create_draft_variable`. -/
def createDraftVariable (name : String) (value : Segment) (s : Storage) :
    Option WorkflowDraftVariable × Storage :=
  match saver.tryOffloadLargeVariable settings name value s with
  | (none, s) => (none, s)
  | (some none, s) =>
    (WorkflowDraftVariable.new value.valueType value.value (some saver.nodeExecutionId) true true
      none, s)
  | (some (some (truncated, fileId)), s) =>
    (WorkflowDraftVariable.new truncated.valueType truncated.value (some saver.nodeExecutionId) true
      false (some fileId), s)

/-- `_build_variables_from_mapping`. -/
def buildVariablesFromMapping :
    List (String × Output) → Storage → Option DraftVariables × Storage
  | [], s => (some [], s)
  | (name, output) :: outputs, s =>
    if !saver.shouldVariableBeSaved name then buildVariablesFromMapping outputs s
    else
      match output.build settings.lib with
      | none => (none, s)
      | some value =>
        match saver.createDraftVariable settings name value s with
        | (none, s) => (none, s)
        | (some draftVar, s) =>
          match buildVariablesFromMapping outputs s with
          | (none, s) => (none, s)
          | (some draftVars, s) => (some ((saver.key saver.nodeId name, draftVar) :: draftVars), s)

/-- `_normalize_variable_for_start_node`. -/
def normalizeVariableForStartNode (name : String) : String × String :=
  if "sys.".toList.isPrefixOf name.toList then
    (systemVariableNodeId, String.ofList (name.toList.drop 4))
  else (saver.nodeId, name)

/-- The segment of the variable `sys.files`, from what iterating over the output gives. -/
def buildFiles (lib : Libraries) : Value → Option Segment
  | .list items => do
    let files ← items.mapM (File.modelValidate lib)
    if files.isEmpty then Segment.ofType .arrayFile (.list [])
    else buildSegmentWithType lib .arrayFile (.list (files.map .file))
  | .dict [] => Segment.ofType .arrayFile (.list [])
  | .str "" => Segment.ofType .arrayFile (.list [])
  | _ => none

/-- The segment of a system variable: the files of `sys.files` are built anew. -/
def buildSystemVariable (lib : Libraries) (name : String) (output : Output) (value : Segment) :
    Option Segment :=
  if name = "files" then
    match output with
    | .raw files => buildFiles lib files
    | .segment _ => none
  else some value

/-- The row for one output of a start node. -/
def startVariable (name : String) (output : Output) :
    Option (VariableKey × WorkflowDraftVariable) := do
  let value ← output.build settings.lib
  let (nodeId, name) := saver.normalizeVariableForStartNode name
  if nodeId ≠ systemVariableNodeId then
    let draftVar ← WorkflowDraftVariable.new value.valueType value.value
      (some saver.nodeExecutionId) true true none
    some (saver.key saver.nodeId name, draftVar)
  else
    let value ← buildSystemVariable settings.lib name output value
    let draftVar ← WorkflowDraftVariable.newSysVariable value saver.nodeExecutionId
      (shouldVariableBeEditable nodeId name)
    some (saver.key systemVariableNodeId name, draftVar)

/-- Some output is an input field that a user defined. -/
def hasNonSysVariables (outputs : List (String × Output)) : Bool :=
  outputs.any fun output =>
    (saver.normalizeVariableForStartNode output.1).1 ≠ systemVariableNodeId

/-- `_build_variables_from_start_mapping`. -/
def buildVariablesFromStartMapping (outputs : List (String × Output)) : Option DraftVariables := do
  let draftVars ← outputs.mapM fun output => saver.startVariable settings output.1 output.2
  some (if saver.hasNonSysVariables outputs then draftVars
    else draftVars ++ [saver.createDummyOutputVariable])

/-- The rows for one updated variable: none if it is not a conversation variable. -/
def updatedVariable (item : UpdatedVariable) : Option DraftVariables :=
  if item.selector.length < 2 then none
  else if item.selector.head? ≠ some conversationVariableNodeId then some []
  else do
    let segmentType := if item.valueType = .integer then .number else item.valueType
    let value ← buildSegmentWithType settings.lib segmentType item.newValue
    let draftVar ← WorkflowDraftVariable.newConversationVariable value
    some [(saver.key conversationVariableNodeId item.name, draftVar)]

/-- `_build_from_variable_assigner_mapping`, of the variables that the process data names. -/
def buildFromVariableAssignerMapping (updatedVariables : List UpdatedVariable) :
    Option DraftVariables := do
  let draftVars ← updatedVariables.mapM (saver.updatedVariable settings)
  some (draftVars.flatten ++ [saver.createDummyOutputVariable])

/-- The node is a start node or a trigger. -/
def isStartNode : Bool :=
  ["start", "trigger-webhook", "trigger-schedule", "trigger-plugin"].contains saver.nodeType

/-- The rows that `save` inserts. -/
def draftVariables (processData : List UpdatedVariable) (outputs : List (String × Output))
    (s : Storage) : Option DraftVariables × Storage :=
  if saver.nodeType = "assigner" then
    (saver.buildFromVariableAssignerMapping settings processData, s)
  else if saver.isStartNode then (saver.buildVariablesFromStartMapping settings outputs, s)
  else saver.buildVariablesFromMapping settings outputs s

end DraftVariableSaver

/-- `_batch_upsert_draft_variable`, overwriting: PostgreSQL does not update a row twice. -/
def batchUpsertDraftVariable (postgresql : Bool) (draftVars : DraftVariables) (s : Storage) :
    Storage :=
  if postgresql ∧ ¬ (draftVars.map Prod.fst).Nodup then s
  else { s with
    draftVars := draftVars.foldl (fun draftVars row => Function.update draftVars row.1 (some row.2))
      s.draftVars }

/-- `save`: where it raises no row is inserted, but the files that were uploaded stay. -/
def DraftVariableSaver.save (saver : DraftVariableSaver) (settings : Settings)
    (processData : List UpdatedVariable) (outputs : List (String × Output)) (s : Storage) :
    Storage :=
  if saver.shouldSaveOutputVariablesForDraft then
    match saver.draftVariables settings processData outputs s with
    | (none, s) => s
    | (some draftVars, s) => batchUpsertDraftVariable settings.postgresql draftVars s
  else s

/-- What resetting a variable reads: the conversation variables by name, the outputs of a node
execution if it is found, and the type of a node unless this raises. -/
structure ResetSource where
  conversationVariable : String → Option Segment
  outputs : String → Option (List (String × Value))
  nodeType : String → Option String

namespace Storage

variable (s : Storage)

/-- A row is changed, unless that raises. -/
def setVariable (key : VariableKey) (draftVar : Option WorkflowDraftVariable) : Storage :=
  match draftVar with
  | none => s
  | some draftVar => { s with
    draftVars := Function.update s.draftVars key (some draftVar) }

def dropVariable (key : VariableKey) : Storage := { s with
  draftVars := Function.update s.draftVars key none }

/-- `update_variable`: a new name may not be in use. -/
def updateVariable (key : VariableKey) (name : Option String) (value : Option Segment) : Storage :=
  match s.draftVars key with
  | none => s
  | some draftVar =>
    if draftVar.editable = false then s
    else
      match name with
      | none => s.setVariable key (draftVar.edit value)
      | some name =>
        if name ≠ key.name ∧ s.draftVars { key with name := name } ≠ none then s
        else
          match draftVar.edit value with
          | none => s
          | some changed =>
            (s.dropVariable key).setVariable { key with name := name } (some changed)

/-- `_reset_conv_var`. -/
def resetConvVar (source : ResetSource) (key : VariableKey) (draftVar : WorkflowDraftVariable) :
    Storage :=
  match source.conversationVariable key.name with
  | none => s.dropVariable key
  | some value => s.setVariable key
      ({ draftVar with edited := false }.setValue value.valueType value.value)

/-- `_reset_node_var_or_sys_var`. -/
def resetNodeVarOrSysVar (lib : Libraries) (source : ResetSource) (key : VariableKey)
    (draftVar : WorkflowDraftVariable) : Storage :=
  if draftVar.editable = false then s
  else
    match draftVar.nodeExecutionId.bind source.outputs with
    | none => s.dropVariable key
    | some outputs =>
      let restore (name : String) : Storage :=
        match outputs.lookup name with
        | none => s.dropVariable key
        | some value => s.setVariable key do
          let value ← buildSegmentWithType lib draftVar.valueType value
          { draftVar with edited := false }.setValue value.valueType value.value
      if key.nodeId = systemVariableNodeId then restore ("sys." ++ key.name)
      else
        match source.nodeType key.nodeId with
        | none => s
        | some nodeType => if nodeType = "assigner" then s else restore key.name

/-- `reset_variable`. -/
def resetVariable (lib : Libraries) (source : ResetSource) (key : VariableKey) : Storage :=
  match s.draftVars key with
  | none => s
  | some draftVar =>
    if key.nodeId = systemVariableNodeId ∧ !isSystemVariableEditable key.name then s
    else if key.nodeId = conversationVariableNodeId then s.resetConvVar source key draftVar
    else s.resetNodeVarOrSysVar lib source key draftVar

/-- An uploaded file and its object are deleted. -/
def deleteUpload (uploadFileId : Nat) (upload : UploadFile) : Storage := { s with
  objects := Function.update s.objects upload.key none
  uploads := Function.update s.uploads uploadFileId none }

def dropFile (fileId : Nat) : Storage := { s with
  files := Function.update s.files fileId none }

/-- `delete_variable`: the row of the file is deleted only if the uploaded file is missing. -/
def deleteVariable (key : VariableKey) : Storage :=
  match s.draftVars key with
  | none => s
  | some draftVar =>
    match draftVar.fileId with
    | none => s.dropVariable key
    | some fileId =>
      match s.files fileId with
      | none => s.dropVariable key
      | some variableFile =>
        match s.uploads variableFile.uploadFileId with
        | none => (s.dropVariable key).dropFile fileId
        | some upload => (s.deleteUpload variableFile.uploadFileId upload).dropVariable key

/-- One round of the loop of `delete_workflow_draft_variable_file`. -/
def deleteVariableFile (fileId : Nat) : Storage :=
  match s.files fileId with
  | none => s
  | some variableFile =>
    match s.uploads variableFile.uploadFileId with
    | none => s.dropFile fileId
    | some upload => (s.deleteUpload variableFile.uploadFileId upload).dropFile fileId

/-- `delete_workflow_draft_variable_file`. -/
def deleteWorkflowDraftVariableFile (fileIds : List Nat) : Storage :=
  fileIds.foldl deleteVariableFile s

end Storage

/-- The operations on draft variables. -/
inductive Operation where
  | save (saver : DraftVariableSaver) (processData : List UpdatedVariable)
      (outputs : List (String × Output))
  | updateVariable (key : VariableKey) (name : Option String) (value : Option Segment)
  | resetVariable (source : ResetSource) (key : VariableKey)
  | deleteVariable (key : VariableKey)
  | deleteWorkflowDraftVariableFile (fileIds : List Nat)

/-- One operation. -/
def step (settings : Settings) (s : Storage) : Operation → Option Storage
  | .save saver processData outputs => some (saver.save settings processData outputs s)
  | .updateVariable key name value => some (s.updateVariable key name value)
  | .resetVariable source key => some (s.resetVariable settings.lib source key)
  | .deleteVariable key => some (s.deleteVariable key)
  | .deleteWorkflowDraftVariableFile fileIds => some (s.deleteWorkflowDraftVariableFile fileIds)

/-- Strings of more than seven characters are offloaded. -/
def smallSettings : Settings where
  lib := {
    readInt := fun
      | .int n => some n
      | _ => none
    readInt_int := fun _ => rfl
    text := fun _ => ""
    loads := fun _ => none }
  truncator := ⟨10, 5, 1000, by decide, by decide, by decide⟩
  uploadFileExtensionBlacklist := []
  uploadFileSizeLimit := 15
  postgresql := true

/-- A node that runs code. -/
def codeSaver : DraftVariableSaver := ⟨"app", "user", "1745769620734", "code", "execution", none⟩

end PlatformSpec.DraftVariable
