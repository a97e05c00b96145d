import PlatformSpec.Conditions.Evaluation

/-!
# The condition processor

`ConditionProcessor.process_conditions` and `_process_sub_conditions`. The conditions on an array
of files are those of its sub-conditions: the operator on the array selects the branch and has no
part in the result.
-/

namespace PlatformSpec.Conditions

open DraftVariable
open PlatformSpec.Runtime (PyError)

/-- `SubCondition`. -/
structure SubCondition where
  key : String
  comparisonOperator : Operator
  value : Value := .none

/-- The two operators between conditions. -/
inductive LogicalOperator where
  | and
  | or
  deriving DecidableEq

/-- `SubVariableCondition`. -/
structure SubVariableCondition where
  logicalOperator : LogicalOperator
  conditions : List SubCondition := []

/-- `Condition`. -/
structure Condition where
  variableSelector : List String
  comparisonOperator : Operator
  value : Value := .none
  subVariableCondition : Option SubVariableCondition := none

/-- `FileAttribute`. -/
inductive FileAttribute where
  | type
  | size
  | name
  | mimeType
  | transferMethod
  | url
  | extension
  | relatedId
  deriving DecidableEq

def FileAttribute.valueOf : String → Option FileAttribute
  | "type" => some .type
  | "size" => some .size
  | "name" => some .name
  | "mime_type" => some .mimeType
  | "transfer_method" => some .transferMethod
  | "url" => some .url
  | "extension" => some .extension
  | "related_id" => some .relatedId
  | _ => none

/-- What the processor reads: the variables of the pool, the text a template converts to, the
values of JSON texts, and the addresses of files. -/
structure Context extends Python where
  get : List String → Option Segment
  convertTemplate : String → String
  loads : String → Except PyError Value
  toUrl : File → Except PyError Value

variable (ctx : Context)

/-- `file_manager.get_attr`. -/
def getAttr (file : File) : FileAttribute → Except PyError Value
  | .type => .ok (.str file.type.value)
  | .size => .ok (.int file.size)
  | .name => .ok (.ofOption file.filename)
  | .mimeType => .ok (.ofOption file.mimeType)
  | .transferMethod => .ok (.str file.transferMethod.value)
  | .url => ctx.toUrl file
  | .extension => .ok (.ofOption file.extension)
  | .relatedId => .ok (.ofOption file.relatedId)

/-- A dot before an extension that has none. -/
def dotted (extension : String) : String :=
  if extension ≠ "" ∧ ¬ ".".toList <+: extension.toList then "." ++ extension else extension

/-- What is expected of an attribute and the values of the files. -/
def normalized (key : FileAttribute) (expected : Value) (values : List Value) :
    Except PyError (Value × List Value) :=
  if key = .extension then
    match expected with
    | .str extension => .ok (.str (dotted extension), values.map fun
      | .str value => .str (dotted value)
      | value => value)
    | _ => .error
      ⟨.typeError, "Expected value must be a string when key is FileAttribute.EXTENSION"⟩
  else .ok (expected, values)

/-- `"not" in comparison_operator`. -/
def isNegative (operator : Operator) : Bool := isSubstring "not" operator.value

/-- One round over the sub-conditions. -/
def processSubCondition (files : List File) (condition : SubCondition) : Except PyError Bool := do
  let key ← match FileAttribute.valueOf condition.key with
    | some key => pure key
    | none => valueError ("'" ++ condition.key ++ "' is not a valid FileAttribute")
  let values ← files.mapM fun file => getAttr ctx file key
  let (expected, values) ← normalized key condition.value values
  let results ← values.mapM fun value =>
    evaluateCondition ctx.toPython condition.comparisonOperator value expected
  return if isNegative condition.comparisonOperator then results.all id else results.any id

/-- The results of a group put together. -/
def combined (operator : LogicalOperator) (results : List Bool) : Bool :=
  if operator = .and then results.all id else results.any id

/-- `_process_sub_conditions`. -/
def processSubConditions (files : List File) (subConditions : List SubCondition)
    (operator : LogicalOperator) : Except PyError Bool := do
  let results ← subConditions.mapM (processSubCondition ctx files)
  return combined operator results

/-- `_convert_to_bool`. -/
def convertToBool (value : Value) : Except PyError Bool :=
  let unexpected : Except PyError Bool := .error
    ⟨.typeError, "unexpected value: type=" ++ ctx.type value ++ ", value=" ++ ctx.str value⟩
  match value with
  | .bool b => .ok b
  | .int n => .ok (n ≠ 0)
  | .str s => do
    match ← ctx.loads s with
    | .bool b => return b
    | .int n => return n ≠ 0
    | _ => unexpected
  | _ => unexpected

/-- The expected value of a condition that is evaluated by itself. -/
def expectedValue (stored : Segment) (value : Value) : Except PyError Value :=
  let expected := match value with
    | .str template => .str (ctx.convertTemplate template)
    | value => value
  if stored.valueType = .boolean ∨ stored.valueType = .arrayBoolean then
    match expected with
    | .none => .ok .none
    | .list items => (items.mapM (convertToBool ctx)).map fun items => .list (items.map .bool)
    | expected => (convertToBool ctx expected).map .bool
  else .ok expected

/-- A record of an evaluated condition. -/
structure Input where
  actualValue : Value
  expectedValue : Value
  comparisonOperator : Operator

/-- `ConditionCheckResult`. -/
structure ConditionCheckResult where
  inputs : List Input
  groupResults : List Bool
  finalResult : Bool

/-- The files of a variable whose value is an array of files. -/
def filesOf (stored : Segment) : List File :=
  match stored.value with
  | .list items => items.filterMap fun
    | .file f => some f
    | _ => none
  | _ => []

/-- One round over the conditions: what is recorded, and the result. -/
def processCondition (condition : Condition) : Except PyError (List Input × Bool) :=
  match ctx.get condition.variableSelector with
  | none => valueError
    ("Variable " ++ ctx.str (.list (condition.variableSelector.map .str)) ++ " not found")
  | some stored =>
    if stored.valueType = .arrayFile ∧
        condition.comparisonOperator ∈ [.contains, .notContains, .allOf] then
      match condition.subVariableCondition with
      | none => valueError "Sub variable is required"
      | some sub => do
        let result ← processSubConditions ctx (filesOf stored) sub.conditions
          sub.logicalOperator
        return ([], result)
    else if condition.comparisonOperator ∈ [.exists, .notExists] then do
      let result ← evaluateCondition ctx.toPython condition.comparisonOperator stored.value .none
      return ([], result)
    else do
      let expected ← expectedValue ctx stored condition.value
      let result ← evaluateCondition ctx.toPython condition.comparisonOperator stored.value
        expected
      return ([⟨stored.value, expected, condition.comparisonOperator⟩], result)

/-- The loop over the conditions, which ends when the result is known. -/
def processFrom (operator : LogicalOperator) (inputs : List Input) (groupResults : List Bool) :
    List Condition → Except PyError ConditionCheckResult
  | [] => .ok ⟨inputs, groupResults, combined operator groupResults⟩
  | condition :: conditions => do
    let (recorded, result) ← processCondition ctx condition
    let groupResults := groupResults ++ [result]
    if (operator = .and ∧ result = false) ∨ (operator = .or ∧ result = true) then
      return ⟨inputs ++ recorded, groupResults, result⟩
    else processFrom operator (inputs ++ recorded) groupResults conditions

/-- `process_conditions`. -/
def processConditions (conditions : List Condition) (operator : LogicalOperator) :
    Except PyError ConditionCheckResult :=
  processFrom ctx operator [] [] conditions

/-! ### Conditions on arrays of files -/

/-- The condition with another operator on the array. -/
def Condition.withOperator (condition : Condition) (operator : Operator) : Condition :=
  { condition with comparisonOperator := operator }

/-- The outer operator of a condition on an array of files does not reach its result. -/
theorem processCondition_operator {condition : Condition} {stored : Segment}
    (hvariable : ctx.get condition.variableSelector = some stored)
    (htype : stored.valueType = .arrayFile) :
    processCondition ctx (condition.withOperator .notContains) =
      processCondition ctx (condition.withOperator .contains) := by
  have hfiles : ∀ operator : Operator, operator ∈ [.contains, .notContains, .allOf] →
      processCondition ctx (condition.withOperator operator) =
        match condition.subVariableCondition with
        | none => valueError "Sub variable is required"
        | some sub => do
          let result ← processSubConditions ctx (filesOf stored) sub.conditions
            sub.logicalOperator
          return ([], result) := by
    intro operator hoperator
    have hget : ctx.get (condition.withOperator operator).variableSelector = some stored :=
      hvariable
    unfold processCondition
    rw [hget]
    exact if_pos ⟨htype, hoperator⟩
  rw [hfiles .notContains (by simp), hfiles .contains (by simp)]

/-- The result for `not contains` is the negation of the result for `contains`, each with its
conditions around. -/
def Complementary (front back : List Condition) (condition : Condition)
    (operator : LogicalOperator) : Prop :=
  ∃ result result', processConditions ctx
      (front ++ condition.withOperator .contains :: back) operator = .ok result ∧
    processConditions ctx (front ++ condition.withOperator .notContains :: back) operator =
      .ok result' ∧ result'.finalResult = !result.finalResult

theorem processFrom_append (operator : LogicalOperator) (inputs : List Input)
    (groupResults : List Bool) (front rest rest' : List Condition)
    (h : ∀ inputs groupResults, processFrom ctx operator inputs groupResults rest =
      processFrom ctx operator inputs groupResults rest') :
    processFrom ctx operator inputs groupResults (front ++ rest) =
      processFrom ctx operator inputs groupResults (front ++ rest') := by
  induction front generalizing inputs groupResults with
  | nil => exact h inputs groupResults
  | cons condition front ih => simp only [List.cons_append, processFrom, ih]

/-- `contains` and `not contains` on an array of files have one result, whatever the
sub-conditions and the conditions around, so neither is ever the negation of the other. -/
theorem file_array_never_complementary (front back : List Condition) (condition : Condition)
    (operator : LogicalOperator) {stored : Segment}
    (hvariable : ctx.get condition.variableSelector = some stored)
    (htype : stored.valueType = .arrayFile) :
    processConditions ctx (front ++ condition.withOperator .notContains :: back) operator =
        processConditions ctx (front ++ condition.withOperator .contains :: back) operator ∧
      ¬ Complementary ctx front back condition operator := by
  have hsame : processConditions ctx (front ++ condition.withOperator .notContains :: back)
        operator =
      processConditions ctx (front ++ condition.withOperator .contains :: back) operator := by
    refine processFrom_append ctx operator [] [] front _ _ fun inputs groupResults => ?_
    simp only [processFrom, processCondition_operator ctx hvariable htype]
  refine ⟨hsame, ?_⟩
  rintro ⟨result, result', hcontains, hnot, hresult⟩
  rw [hsame, hcontains] at hnot
  cases hnot
  cases hfinal : result.finalResult <;> simp [hfinal] at hresult

/-- A pool with one variable, an array of files. -/
def oneFile : Context where
  digit _ := none
  str _ := ""
  type _ := ""
  intError _ := ""
  floatError _ := ""
  get _ := some ⟨.arrayFile, .list [.file ⟨fileModelIdentity, none, "tenant", .image, .localFile,
    none, some "upload", some "a.png", some ".png", some "image/png", 3, rfl⟩], rfl⟩
  convertTemplate template := template
  loads _ := .error ⟨.valueError, ""⟩
  toUrl _ := .ok .none

/-- The name of one of the files contains `a`. -/
def nameContains : Condition where
  variableSelector := ["start", "files"]
  comparisonOperator := .contains
  subVariableCondition := some ⟨.and, [⟨"name", .contains, .str "a"⟩]⟩

theorem file_array_never_complementary_png : ¬ Complementary oneFile [] [] nameContains .and :=
  (file_array_never_complementary oneFile [] [] nameContains .and rfl rfl).2

/-- Both operators hold of an array with a file whose name contains the text. -/
theorem file_array_contains_and_not :
    (processConditions oneFile [nameContains] .and).map ConditionCheckResult.finalResult =
        .ok true ∧
      (processConditions oneFile [nameContains.withOperator .notContains] .and).map
        ConditionCheckResult.finalResult = .ok true ∧
      ¬ ∀ (ctx : Context) (condition : Condition) (stored : Segment),
        ctx.get condition.variableSelector = some stored → stored.valueType = .arrayFile →
        Complementary ctx [] [] condition .and := by
  have hcontains : (processConditions oneFile [nameContains] .and).map
      ConditionCheckResult.finalResult = .ok true := by decide +kernel
  have hnot : (processConditions oneFile [nameContains.withOperator .notContains] .and).map
      ConditionCheckResult.finalResult = .ok true := by decide +kernel
  refine ⟨hcontains, hnot, fun h => ?_⟩
  obtain ⟨result, result', hresult, hresult', hnegated⟩ := h oneFile nameContains _ rfl rfl
  have hcontains' : processConditions oneFile [nameContains] .and = .ok result := hresult
  have hnot' : processConditions oneFile [nameContains.withOperator .notContains] .and =
      .ok result' := hresult'
  rw [hcontains'] at hcontains
  rw [hnot'] at hnot
  have htrue : result.finalResult = true := Except.ok.inj hcontains
  have htrue' : result'.finalResult = true := Except.ok.inj hnot
  rw [htrue, htrue'] at hnegated
  cases hnegated

end PlatformSpec.Conditions
