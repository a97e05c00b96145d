import PlatformSpec.Base.JsonReader
import PlatformSpec.Base.Keyed
import PlatformSpec.Base.Numeral
import PlatformSpec.Extraction.ExtractJson

/-!
# Parameters out of a model's answer

Models what `_run` of `dify_graph/nodes/parameter_extractor/parameter_extractor_node.py` does after
the call of the model: a JSON value is extracted from the answer, validated against the declared
parameters and transformed into outputs. The usage is left out, and so are the texts of the errors
with what they quote.
-/

namespace PlatformSpec.Extraction.ParameterExtractor

open Base

/-- The types of the elements of an array. -/
inductive ElementType where
  | string
  | number
  | object
  | boolean
  deriving DecidableEq

/-- The types that `_validate_type` lets pass. -/
inductive ParameterType where
  | string
  | number
  | boolean
  | array (element : ElementType)
  deriving DecidableEq

/-- `ParameterConfig`, without the description. -/
structure ParameterConfig where
  name : String
  type : ParameterType
  options : Option (List String) := none
  required : Bool
  deriving DecidableEq

/-- A number: the literal of a JSON text, or what `int` or `float` returns. -/
inductive Number where
  | literal (text : String)
  | int (n : Int)
  | float (x : Double)

/-- An output, an array as a segment of its type. -/
inductive Output where
  | number (n : Number)
  | boolean (b : Bool)
  | string (s : String)
  | object (fields : List (String × Json))
  | array (element : ElementType) (items : List Output)

/-- A `ParameterExtractorNodeError` of `_validate_result`. -/
inductive NodeError where
  | invalidNumberOfParameters
  | requiredParameterMissing (name : String)
  | invalidValueType (name : String) (expected : ParameterType)
  | invalidSelectValue (name : String)
  deriving DecidableEq

/-- An exception that nothing catches: a list has no `get`, and its indices are no strings. -/
inductive PyError where
  | attributeError
  | typeError
  deriving DecidableEq

/-- What `_validate_result` raises. -/
inductive Failure where
  | node (e : NodeError)
  | other (e : PyError)
  deriving DecidableEq

/-- What the model answers: the arguments of a tool call, or a text. -/
inductive Answer where
  | toolCall (arguments : List Char)
  | text (text : List Char)
  deriving DecidableEq

/-- What is given for `__reason`. -/
inductive Reason where
  | failedToExtract
  | error (e : NodeError)
  deriving DecidableEq

/-- The outputs: `__is_success`, `__reason` and, under names other than these, the parameters. -/
structure Outputs where
  isSuccess : Nat
  reason : Option Reason
  parameters : List (String × Output)

/-! ### Extraction -/

/-- `_extract_complete_json_response`, and `_extract_json_from_tool_call` on the arguments. -/
def extractCompleteJson : List Char → Option Json
  | [] => none
  | c :: text =>
    if isOpening c then
      match (extractJson (c :: text)).bind Json.loads with
      | some value => some value
      | none => extractCompleteJson text
    else extractCompleteJson text

/-- The JSON value in an answer. -/
def Answer.extracted : Answer → Option Json
  | .toolCall arguments => extractCompleteJson arguments
  | .text content => extractCompleteJson content

/-- `_generate_default_result`. -/
def generateDefaultResult (parameters : List ParameterConfig) : Json :=
  .obj (Assoc.ofPairs (parameters.filterMap fun parameter =>
    match parameter.type with
    | .number => some (parameter.name, .num "0")
    | .boolean => some (parameter.name, .bool false)
    | .string => some (parameter.name, .str "")
    | _ => none))

/-- A list or a dictionary that is not empty. -/
def isTruthy : Json → Bool
  | .obj fields => !fields.isEmpty
  | .arr elements => !elements.isEmpty
  | _ => false

/-- `result or {}` before validation, and the error so far. -/
def resultOf (parameters : List ParameterConfig) (answer : Answer) : Json × Option Reason :=
  match answer.extracted.filter isTruthy with
  | some result => (result, none)
  | none =>
    match answer with
    | .toolCall _ => (.obj [], none)
    | .text _ => (generateDefaultResult parameters, some .failedToExtract)

/-! ### Validation -/

/-- `SegmentType.is_valid` for a value in an array. -/
def ElementType.isValid : ElementType → Json → Bool
  | .string, .str _ => true
  -- `bool` is a subclass of `int`
  | .number, .num _ | .number, .bool _ => true
  | .boolean, .bool _ => true
  | .object, .obj _ => true
  | _, _ => false

/-- `SegmentType.is_valid`. -/
def ParameterType.isValid : ParameterType → Json → Bool
  | .string, value => ElementType.string.isValid value
  | .number, value => ElementType.number.isValid value
  | .boolean, value => ElementType.boolean.isValid value
  | .array element, .arr elements => elements.all element.isValid
  | .array _, _ => false

/-- `len(result)`. -/
def size : Json → Nat
  | .obj fields => fields.length
  | .arr elements => elements.length
  | _ => 0

/-- A text equals a JSON value. -/
def isText (name : String) : Json → Bool
  | .str s => s = name
  | _ => false

/-- `name in result`. -/
def contains (result : Json) (name : String) : Bool :=
  match result with
  | .obj fields => (fields.lookup name).isSome
  | .arr elements => elements.any (isText name)
  | _ => false

/-- `result.get(name)`. -/
def get (result : Json) (name : String) : Except PyError Json :=
  match result with
  | .obj fields => .ok ((fields.lookup name).getD .null)
  | _ => .error .attributeError

/-- The text is one of the options, where there are any. -/
def isOption (parameter : ParameterConfig) (value : Json) : Bool :=
  match parameter.type, parameter.options with
  | .string, some (option :: options) => (option :: options).any fun o => isText o value
  | _, _ => true

/-- The body of the loop of `_validate_result`. -/
def validateParameter (result : Json) (parameter : ParameterConfig) : Except Failure Unit :=
  if parameter.required && !contains result parameter.name then
    .error (.node (.requiredParameterMissing parameter.name))
  else
    match get result parameter.name with
    | .error e => .error (.other e)
    | .ok value =>
      if !parameter.type.isValid value then
        .error (.node (.invalidValueType parameter.name parameter.type))
      else if !isOption parameter value then
        .error (.node (.invalidSelectValue parameter.name))
      else .ok ()

/-- `_validate_result`. -/
def validateResult (parameters : List ParameterConfig) (result : Json) : Except Failure Unit :=
  if parameters.length ≠ size result then .error (.node .invalidNumberOfParameters)
  else parameters.forM (validateParameter result)

/-! ### Transformation -/

section

-- The values of the decimal digits: ASCII's and the others of Unicode.
variable (digit : Char → Option Nat)

/-- `_transform_number`. -/
def transformNumber : Json → Option Number
  | .bool b => some (.int (if b then 1 else 0))
  | .num text => some (.literal text)
  | .str s =>
    if '.' ∈ s.toList then (Numeral.readFloat digit s).map .float
    else (Numeral.readInt digit s).map .int
  | _ => none

/-- What is appended for an item of an array. -/
def ElementType.transform : ElementType → Json → Option Output
  | .number, item => (transformNumber digit item).map .number
  | .string, .str s => some (.string s)
  | .object, .obj fields => some (.object fields)
  | .boolean, .bool b => some (.boolean b)
  | _, _ => none

/-- The literal of an integer. -/
def isInteger (text : String) : Bool := text.toList.all fun c => Json.isDigit c || c == '-'

/-- `bool` of an integer. -/
def isNonzero (text : String) : Bool := text.toList.any fun c => c != '0' && c != '-'

/-- The transformed value of a parameter, if it can be transformed. -/
def ParameterType.transform : ParameterType → Json → Option Output
  | .number, value => (transformNumber digit value).map .number
  | .boolean, .bool b => some (.boolean b)
  | .boolean, .num text => if isInteger text then some (.boolean (isNonzero text)) else none
  | .string, .str s => some (.string s)
  | .array element, .arr elements =>
    some (.array element (elements.filterMap (element.transform digit)))
  | _, _ => none

/-- What stands for a parameter that is not transformed. -/
def ParameterType.default : ParameterType → Output
  | .array element => .array element []
  | .string => .string ""
  | .number => .number (.int 0)
  | .boolean => .boolean false

/-- `result[name]`. -/
def getItem (result : Json) (name : String) : Except PyError Json :=
  match result with
  | .obj fields => .ok ((fields.lookup name).getD .null)
  | _ => .error .typeError

/-- The body of the loop of `_transform_result`. -/
def transformParameter (result : Json) (transformed : List (String × Output))
    (parameter : ParameterConfig) : Except PyError (List (String × Output)) := do
  let transformed ←
    if contains result parameter.name then
      match getItem result parameter.name with
      | .error e => .error e
      | .ok value =>
        match parameter.type.transform digit value with
        | some output => .ok (Assoc.assign transformed parameter.name output)
        | none => .ok transformed
    else .ok transformed
  match transformed.lookup parameter.name with
  | some _ => return transformed
  | none => return Assoc.assign transformed parameter.name parameter.type.default

/-- `_transform_result`. -/
def transformResult (parameters : List ParameterConfig) (result : Json) :
    Except PyError (List (String × Output)) :=
  parameters.foldlM (transformParameter digit result) []

/-- The error after validation: only a `ParameterExtractorNodeError` is caught. -/
def errorAfter (error : Option Reason) : Except Failure Unit → Except PyError (Option Reason)
  | .ok _ => .ok error
  | .error (.node e) => .ok (some (.error e))
  | .error (.other e) => .error e

/-- `_run` after the extraction. -/
def process (parameters : List ParameterConfig) (result : Json) (error : Option Reason) :
    Except PyError Outputs := do
  let error ← errorAfter error (validateResult parameters result)
  let transformed ← transformResult digit parameters result
  return ⟨if error.isNone then 1 else 0, error, transformed⟩

/-- `_run` after the call of the model. -/
def run (parameters : List ParameterConfig) (answer : Answer) : Except PyError Outputs :=
  process digit parameters (resultOf parameters answer).1 (resultOf parameters answer).2

end

/-! ## Total and honest -/

/-- `SegmentType.is_valid` for an output. -/
def ElementType.accepts : ElementType → Output → Bool
  | .string, .string _ => true
  | .number, .number _ | .number, .boolean _ => true
  | .boolean, .boolean _ => true
  | .object, .object _ => true
  | _, _ => false

/-- `SegmentType.is_valid` for the output of a parameter. -/
def ParameterType.accepts : ParameterType → Output → Bool
  | .string, output => ElementType.string.accepts output
  | .number, output => ElementType.number.accepts output
  | .boolean, output => ElementType.boolean.accepts output
  | .array element, .array _ items => items.all element.accepts
  | .array _, _ => false

/-- An output that is no array equals a JSON value, as `1 == True`. -/
def equalsScalar : Json → Output → Prop
  | .num text, .number (.literal text') => text' = text
  | .bool b, .number (.int n) => n = if b then 1 else 0
  | .bool b, .boolean b' => b' = b
  | .str s, .string s' => s' = s
  | .obj fields, .object fields' => fields' = fields
  | _, _ => False

/-- An output equals a JSON value. -/
def Equals : Json → Output → Prop
  | .arr elements, .array _ items => List.Forall₂ equalsScalar elements items
  | value, output => equalsScalar value output

/-- The value is valid for the parameter. -/
def Allows (parameter : ParameterConfig) (value : Json) : Prop :=
  parameter.type.isValid value = true ∧ isOption parameter value = true

/-- No exception; every parameter has an output that is valid for its type; and where success is
told, the extracted JSON is an object with exactly the parameters, their values are valid and equal
to the outputs. -/
structure TotalAndHonest (digit : Char → Option Nat) (parameters : List ParameterConfig)
    (answer : Answer) (outputs : Outputs) : Prop where
  returned : run digit parameters answer = .ok outputs
  valid : ∀ parameter ∈ parameters, ∃ output,
    outputs.parameters.lookup parameter.name = some output ∧ parameter.type.accepts output = true
  success : outputs.isSuccess = 1 → ∃ fields, answer.extracted = some (.obj fields) ∧
    (∀ name, (fields.lookup name).isSome ↔ name ∈ parameters.map (·.name)) ∧
    ∀ parameter ∈ parameters, ∃ value output, fields.lookup parameter.name = some value ∧
      Allows parameter value ∧ outputs.parameters.lookup parameter.name = some output ∧
      Equals value output

/-- What a parameter makes of the extracted value under its name. -/
def transformed (digit : Char → Option Nat) (result : Json) (parameter : ParameterConfig) :
    Option Output :=
  match result with
  | .obj fields => (fields.lookup parameter.name).bind (parameter.type.transform digit)
  | _ => none

/-- What the last parameter with a name that can take the extracted value makes of it, else what
stands for the first one with the name. -/
def settled (digit : Char → Option Nat) (parameters : List ParameterConfig) (result : Json)
    (name : String) : Option Output :=
  let named := parameters.filter (·.name = name)
  (named.reverse.findSome? (transformed digit result)).or (named.head?.map (·.type.default))

/-- The names of the parameters. -/
def names (parameters : List ParameterConfig) : List String := parameters.map (·.name)

/-- An array does not name a parameter, and is told from the parameters by its length, or by the
first of them that is required. -/
def Harmless (parameters : List ParameterConfig) (result : Json) : Prop :=
  ∀ elements, result = .arr elements → (∀ parameter ∈ parameters,
      contains result parameter.name = false) ∧
    (parameters.length = elements.length →
      ∃ parameter, parameters.head? = some parameter ∧ parameter.required = true)

/-- An object with as many entries as there are parameters, whose values are valid for them. -/
def Passes (parameters : List ParameterConfig) (result : Json) : Prop :=
  ∃ fields, result = .obj fields ∧ fields.length = parameters.length ∧
    ∀ parameter ∈ parameters, ∃ value, fields.lookup parameter.name = some value ∧
      Allows parameter value

/-- The parameters of one name agree on the output. -/
def Agree (digit : Char → Option Nat) (parameters : List ParameterConfig) (result : Json) : Prop :=
  ∀ parameter ∈ parameters, ∀ output, settled digit parameters result parameter.name = some output →
    parameter.type.accepts output = true

/-- What was extracted passes, or nothing where nothing is asked of a tool call. -/
def Succeeds (parameters : List ParameterConfig) (answer : Answer) : Prop :=
  (resultOf parameters answer).2 = none ∧ Passes parameters (resultOf parameters answer).1

/-- The condition: the extracted value is no array that is taken for an object; without parameters a
tool call holds an object; and no name is repeated, or the value does not pass and the parameters of
each name agree. -/
structure Sound (digit : Char → Option Nat) (parameters : List ParameterConfig) (answer : Answer) :
    Prop where
  harmless : Harmless parameters (resultOf parameters answer).1
  object : parameters = [] → ∀ arguments, answer = .toolCall arguments →
    answer.extracted.filter isTruthy = none → ∃ fields, answer.extracted = some (.obj fields)
  distinct : (names parameters).Nodup ∨
    ¬ Succeeds parameters answer ∧
      Agree digit parameters (resultOf parameters answer).1

section

variable {digit : Char → Option Nat} {parameters : List ParameterConfig} {result : Json}

/-! ### The outputs -/

private theorem contains_obj (fields : List (String × Json)) (name : String) :
    contains (.obj fields) name = (fields.lookup name).isSome := rfl

theorem transformParameter_eq (digit : Char → Option Nat) (dict : List (String × Output))
    {parameter : ParameterConfig}
    (h : ∀ elements, result = .arr elements → contains result parameter.name = false) :
    transformParameter digit result dict parameter = .ok
      (match transformed digit result parameter with
      | some output => Assoc.assign dict parameter.name output
      | none =>
        match dict.lookup parameter.name with
        | some _ => dict
        | none => Assoc.assign dict parameter.name parameter.type.default) := by
  have habsent : contains result parameter.name = false →
      transformed digit result parameter = none := by
    cases result with
    | obj fields =>
      intro hc
      rw [contains_obj, Option.isSome_eq_false_iff, Option.isNone_iff_eq_none] at hc
      rw [transformed, hc, Option.bind_none]
    | null => exact fun _ => rfl
    | bool b => exact fun _ => rfl
    | num literal => exact fun _ => rfl
    | str s => exact fun _ => rfl
    | arr elements => exact fun _ => rfl
  cases hc : contains result parameter.name with
  | false =>
    rw [habsent hc, transformParameter, hc]
    cases hd : dict.lookup parameter.name <;> simp [hd, bind, Except.bind, pure, Except.pure]
  | true =>
    cases result with
    | obj fields =>
      obtain ⟨value, hvalue⟩ := Option.isSome_iff_exists.mp hc
      rw [transformParameter, hc, transformed, hvalue, Option.bind_some]
      cases ht : parameter.type.transform digit value with
      | some output =>
        simp [getItem, hvalue, ht, bind, Except.bind, pure, Except.pure, Assoc.lookup_assign]
      | none =>
        cases hd : dict.lookup parameter.name <;>
          simp [getItem, hvalue, ht, hd, bind, Except.bind, pure, Except.pure]
    | arr elements =>
      rw [h elements rfl] at hc
      cases hc
    | null => cases hc
    | bool b => cases hc
    | num literal => cases hc
    | str s => cases hc

private theorem settled_concat (parameters : List ParameterConfig) (parameter : ParameterConfig)
    (name : String) : settled digit (parameters ++ [parameter]) result name =
      if name = parameter.name then
        some ((transformed digit result parameter).getD
          ((settled digit parameters result name).getD parameter.type.default))
      else settled digit parameters result name := by
  unfold settled
  by_cases h : name = parameter.name
  · subst h
    simp only [List.filter_append, if_pos trivial]
    cases ht : transformed digit result parameter with
    | some output => simp [ht]
    | none =>
      cases hf : (parameters.filter (·.name = parameter.name)).reverse.findSome?
          (transformed digit result) with
      | some output => simp [ht, hf]
      | none =>
        cases hn : parameters.filter (·.name = parameter.name) with
        | nil => simp [ht]
        | cons first named =>
          rw [hn, List.findSome?_eq_none_iff] at hf
          have hnamed : named.reverse.findSome? (transformed digit result) = none :=
            List.findSome?_eq_none_iff.mpr fun p hp => hf p (by
              rw [List.mem_reverse] at hp ⊢
              exact List.mem_cons_of_mem _ hp)
          simp [ht, hnamed, hf first (by simp)]
  · simp [h, List.filter_append, Ne.symm h]

private theorem transformResult_ok (digit : Char → Option Nat)
    (h : ∀ parameter ∈ parameters, ∀ elements, result = .arr elements →
      contains result parameter.name = false) :
    ∃ dict, transformResult digit parameters result = .ok dict ∧
      ∀ name, dict.lookup name = settled digit parameters result name := by
  induction parameters using List.reverseRecOn with
  | nil => exact ⟨[], rfl, fun name => rfl⟩
  | append_singleton parameters parameter ih =>
    obtain ⟨dict, hdict, hlookup⟩ := ih fun p hp => h p (List.mem_append_left _ hp)
    unfold transformResult at hdict ⊢
    rw [List.foldlM_append, hdict]
    have hone := transformParameter_eq digit dict (h parameter (by simp))
    refine ⟨_, by simp [Except.bind, bind, hone]; rfl, fun name => ?_⟩
    rw [settled_concat, ← hlookup name]
    by_cases hname : name = parameter.name
    · subst hname
      rw [if_pos rfl]
      cases ht : transformed digit result parameter with
      | some output => simp [Assoc.lookup_assign]
      | none =>
        cases hd : dict.lookup parameter.name with
        | some output => simp [hd]
        | none => simp [Assoc.lookup_assign]
    · rw [if_neg hname]
      cases ht : transformed digit result parameter with
      | some output => simp [Assoc.lookup_assign, hname]
      | none =>
        cases hd : dict.lookup parameter.name with
        | some output => simp
        | none => simp [Assoc.lookup_assign, hname]

/-! ### Valid outputs -/

variable {value : Json}

theorem ElementType.accepts_transform {type : ElementType} {output : Output}
    (h : type.transform digit value = some output) : type.accepts output = true := by
  cases type with
  | number =>
    obtain ⟨n, -, rfl⟩ := Option.map_eq_some_iff.mp h
    rfl
  | string =>
    cases value with
    | str s => cases h; rfl
    | _ => cases h
  | object =>
    cases value with
    | obj fields => cases h; rfl
    | _ => cases h
  | boolean =>
    cases value with
    | bool b => cases h; rfl
    | _ => cases h

variable {type : ParameterType}

theorem ParameterType.accepts_transform
    {output : Output} (h : type.transform digit value = some output) :
    type.accepts output = true := by
  cases type with
  | number =>
    obtain ⟨n, -, rfl⟩ := Option.map_eq_some_iff.mp h
    rfl
  | string =>
    cases value with
    | str s => cases h; rfl
    | _ => cases h
  | boolean =>
    cases value with
    | bool b => cases h; rfl
    | num text =>
      rw [ParameterType.transform] at h
      split at h
      · cases h
        rfl
      · cases h
    | _ => cases h
  | array element =>
    cases value with
    | arr elements =>
      cases h
      refine List.all_eq_true.mpr fun item hitem => ?_
      obtain ⟨value, -, hvalue⟩ := List.mem_filterMap.mp hitem
      exact ElementType.accepts_transform hvalue
    | _ => cases h

theorem ParameterType.accepts_default (type : ParameterType) :
    type.accepts type.default = true := by
  cases type <;> rfl

theorem ElementType.transform_of_isValid (digit : Char → Option Nat) {type : ElementType}
    (h : type.isValid value = true) :
    ∃ output, type.transform digit value = some output ∧ equalsScalar value output := by
  cases type with
  | number =>
    cases value with
    | num text => exact ⟨_, rfl, rfl⟩
    | bool b => exact ⟨_, rfl, rfl⟩
    | _ => cases h
  | string =>
    cases value with
    | str s => exact ⟨_, rfl, rfl⟩
    | _ => cases h
  | object =>
    cases value with
    | obj fields => exact ⟨_, rfl, rfl⟩
    | _ => cases h
  | boolean =>
    cases value with
    | bool b => exact ⟨_, rfl, rfl⟩
    | _ => cases h

variable {elements : List Json}

private theorem forall₂_filterMap {element : ElementType}
    (h : ∀ e ∈ elements, element.isValid e = true) :
    List.Forall₂ equalsScalar elements (elements.filterMap (element.transform digit)) := by
  induction elements with
  | nil => exact .nil
  | cons e elements ih =>
    obtain ⟨output, ht, he⟩ := ElementType.transform_of_isValid digit
      (h e List.mem_cons_self)
    rw [List.filterMap_cons_some ht]
    exact .cons he (ih fun e' he' => h e' (List.mem_cons_of_mem _ he'))

theorem ParameterType.transform_of_isValid (digit : Char → Option Nat)
    (h : type.isValid value = true) :
    ∃ output, type.transform digit value = some output ∧ Equals value output := by
  cases type with
  | number =>
    cases value with
    | num text => exact ⟨_, rfl, rfl⟩
    | bool b => exact ⟨_, rfl, rfl⟩
    | _ => cases h
  | string =>
    cases value with
    | str s => exact ⟨_, rfl, rfl⟩
    | _ => cases h
  | boolean =>
    cases value with
    | bool b => exact ⟨_, rfl, rfl⟩
    | _ => cases h
  | array element =>
    cases value with
    | arr elements => exact ⟨_, rfl, forall₂_filterMap (List.all_eq_true.mp h)⟩
    | _ => cases h

/-! ### Validation -/

theorem forM_cons (f : ParameterConfig → Except Failure Unit) (p : ParameterConfig) :
    (p :: parameters).forM f = (f p).bind fun _ => parameters.forM f := rfl

variable {f : ParameterConfig → Except Failure Unit}

theorem forM_ok_iff : parameters.forM f = .ok () ↔ ∀ p ∈ parameters, f p = .ok () := by
  induction parameters with
  | nil => simp [pure, Except.pure]
  | cons p parameters ih =>
    rw [forM_cons, List.forall_mem_cons, ← ih]
    cases f p with
    | error e => simp [Except.bind]
    | ok u => simp [Except.bind]

private theorem forM_ne_other {e : PyError}
    (h : ∀ p ∈ parameters, f p ≠ .error (.other e)) : parameters.forM f ≠ .error (.other e) := by
  induction parameters with
  | nil => exact fun he => nomatch he
  | cons p parameters ih =>
    rw [forM_cons]
    have hp := h p List.mem_cons_self
    cases hf : f p with
    | error e' => exact fun he => hp (hf.trans he)
    | ok u => exact ih fun q hq => h q (List.mem_cons_of_mem _ hq)

private theorem validateParameter_obj (fields : List (String × Json))
    (parameter : ParameterConfig) :
    (validateParameter (.obj fields) parameter = .ok () ↔
      ∃ value, fields.lookup parameter.name = some value ∧ Allows parameter value) ∧
    ∀ e, validateParameter (.obj fields) parameter ≠ .error (.other e) := by
  have hnull : parameter.type.isValid .null = false := by cases parameter.type <;> rfl
  unfold validateParameter Allows
  rw [contains_obj, get]
  cases hl : fields.lookup parameter.name with
  | none =>
    cases parameter.required with
    | true => simp
    | false => simp [hnull]
  | some value =>
    simp only [Option.isSome_some, Bool.not_true, Bool.and_false, Option.getD_some,
      Option.some.injEq, exists_eq_left']
    cases parameter.type.isValid value with
    | false => simp
    | true =>
      by_cases ho : isOption parameter value = true
      · simp [ho]
      · simp [ho]

private theorem validateResult_obj (parameters : List ParameterConfig)
    (fields : List (String × Json)) :
    (validateResult parameters (.obj fields) = .ok () ↔ Passes parameters (.obj fields)) ∧
      ∀ e, validateResult parameters (.obj fields) ≠ .error (.other e) := by
  have hpasses : Passes parameters (.obj fields) ↔ fields.length = parameters.length ∧
      ∀ parameter ∈ parameters, ∃ value, fields.lookup parameter.name = some value ∧
        Allows parameter value := by
    constructor
    · rintro ⟨fields', he, h⟩
      cases he
      exact h
    · exact fun h => ⟨fields, rfl, h⟩
  rw [hpasses, validateResult, size]
  by_cases hlength : parameters.length = fields.length
  · rw [if_neg (not_not.mpr hlength)]
    refine ⟨?_, fun e => forM_ne_other fun p _ => (validateParameter_obj fields p).2 e⟩
    rw [forM_ok_iff, and_iff_right hlength.symm]
    exact forall₂_congr fun p _ => (validateParameter_obj fields p).1
  · rw [if_pos hlength]
    refine ⟨iff_of_false (fun h => nomatch h) fun h => hlength h.1.symm, fun e h => nomatch h⟩

private theorem validateResult_arr (hne : elements ≠ [])
    (hnames : ∀ parameter ∈ parameters, contains (.arr elements) parameter.name = false) :
    validateResult parameters (.arr elements) ≠ .ok () ∧
      ((∀ e, validateResult parameters (.arr elements) ≠ .error (.other e)) ↔
        (parameters.length = elements.length →
          ∃ parameter, parameters.head? = some parameter ∧ parameter.required = true)) := by
  rw [validateResult, size]
  by_cases hlength : parameters.length = elements.length
  · rw [if_neg (not_not.mpr hlength)]
    cases parameters with
    | nil => exact absurd (List.eq_nil_of_length_eq_zero hlength.symm) hne
    | cons first parameters =>
      rw [forM_cons, validateParameter, hnames first List.mem_cons_self]
      cases hrequired : first.required with
      | true => simp [Except.bind, hrequired]
      | false => simp [Except.bind, get, hrequired, hlength]
  · rw [if_pos hlength]
    simp [hlength]

/-! ### The value -/

private theorem resultOf_cases (parameters : List ParameterConfig) (answer : Answer) :
    (∃ fields, (resultOf parameters answer).1 = .obj fields) ∨
      ∃ elements, (resultOf parameters answer).1 = .arr elements ∧ elements ≠ [] := by
  unfold resultOf
  cases h : answer.extracted.filter isTruthy with
  | some value =>
    have htruthy := (Option.filter_eq_some_iff.mp h).2
    cases value with
    | obj fields => exact .inl ⟨fields, rfl⟩
    | arr elements =>
      refine .inr ⟨elements, rfl, ?_⟩
      rintro rfl
      cases htruthy
    | _ => cases htruthy
  | none =>
    cases answer with
    | toolCall arguments => exact .inl ⟨[], rfl⟩
    | text content => exact .inl ⟨_, rfl⟩

private theorem nodup_keys_ofPairs (l : List (String × Json)) :
    ((Assoc.ofPairs l).map Prod.fst).Nodup := by
  induction l using List.reverseRecOn with
  | nil => exact List.nodup_nil
  | append_singleton l p ih =>
    rw [Assoc.ofPairs_concat, Assoc.keys_assign]
    split
    next => exact ih
    next hk =>
      refine List.nodup_append.mpr ⟨ih, List.nodup_singleton _, ?_⟩
      rintro a ha b hb rfl
      exact hk (List.mem_singleton.mp hb ▸ ha)

variable {fields : List (String × Json)}

theorem nodup_keys_of_loads {c : Char} {text : List Char}
    (hc : isOpening c = true) (h : Json.loads (c :: text) = some (.obj fields)) :
    (fields.map Prod.fst).Nodup := by
  obtain ⟨rest, hread, -⟩ := Json.loads_eq_some h
  obtain rfl | rfl : c = '\x7b' ∨ c = '[' := by simpa [isOpening] using hc
  · rw [show Json.skipSpace ('\x7b' :: text) = '\x7b' :: text from rfl, Json.readValue] at hread
    split at hread
    · cases hread
      exact List.nodup_nil
    · simp only [Option.bind_eq_bind, Option.bind_eq_some_iff, Option.pure_def] at hread
      obtain ⟨⟨entries, rest'⟩, -, hp⟩ := hread
      cases hp
      exact nodup_keys_ofPairs entries
  · rw [show Json.skipSpace ('[' :: text) = '[' :: text from rfl, Json.readValue] at hread
    split at hread
    · cases hread
    · simp only [Option.bind_eq_bind, Option.bind_eq_some_iff, Option.pure_def] at hread
      obtain ⟨p, -, hp⟩ := hread
      cases hp

theorem nodup_keys_of_extracted {text : List Char}
    (h : extractCompleteJson text = some (.obj fields)) : (fields.map Prod.fst).Nodup := by
  induction text with
  | nil => cases h
  | cons c text ih =>
    rw [extractCompleteJson] at h
    split at h
    next hc =>
      split at h
      next value hvalue =>
        cases h
        obtain ⟨s, hs, hloads⟩ := Option.bind_eq_some_iff.mp hvalue
        obtain ⟨n, -, rfl⟩ := Option.map_eq_some_iff.mp hs
        cases n with
        | zero => cases hloads
        | succ n => exact nodup_keys_of_loads hc hloads
      next => exact ih h
    next => exact ih h

/-! ### The whole -/

private theorem transformResult_raises {parameter : ParameterConfig}
    (hp : parameter ∈ parameters) (hc : contains (.arr elements) parameter.name = true)
    (dict : List (String × Output)) :
    transformResult digit parameters (.arr elements) ≠ .ok dict := by
  have hraises : ∀ before : List (String × Output),
      transformParameter digit (.arr elements) before parameter = .error .typeError := by
    intro before
    rw [transformParameter, hc]
    rfl
  unfold transformResult
  generalize ([] : List (String × Output)) = before
  induction parameters generalizing before with
  | nil => cases hp
  | cons first parameters ih =>
    rw [List.foldlM_cons]
    rcases List.mem_cons.mp hp with rfl | hp
    · rw [hraises before]
      exact fun h => nomatch h
    · cases transformParameter digit (.arr elements) before first with
      | error e => exact fun h => nomatch h
      | ok next => exact ih hp next

private theorem process_ok (digit : Char → Option Nat) (error : Option Reason)
    (hnames : ∀ parameter ∈ parameters, ∀ elements, result = .arr elements →
      contains result parameter.name = false)
    (hother : ∀ e, validateResult parameters result ≠ .error (.other e)) :
    ∃ outputs, process digit parameters result error = .ok outputs ∧
      (∀ name, outputs.parameters.lookup name = settled digit parameters result name) ∧
      (outputs.isSuccess = 1 ↔ error = none ∧ validateResult parameters result = .ok ()) := by
  obtain ⟨dict, hdict, hlookup⟩ := transformResult_ok digit hnames
  unfold process
  rw [hdict]
  cases hv : validateResult parameters result with
  | ok u =>
    refine ⟨⟨if error.isNone then 1 else 0, error, dict⟩, rfl, hlookup, ?_⟩
    cases error <;> simp
  | error failure =>
    cases failure with
    | other e => exact absurd hv (hother e)
    | node e => exact ⟨⟨0, some (.error e), dict⟩, rfl, hlookup, by simp⟩

private theorem run_cases (digit : Char → Option Nat) (parameters : List ParameterConfig)
    (answer : Answer) :
    (¬ Harmless parameters (resultOf parameters answer).1 ∧
      ∀ outputs, run digit parameters answer ≠ .ok outputs) ∨
    (Harmless parameters (resultOf parameters answer).1 ∧
      ∃ outputs, run digit parameters answer = .ok outputs ∧
        (∀ name, outputs.parameters.lookup name =
          settled digit parameters (resultOf parameters answer).1 name) ∧
        (outputs.isSuccess = 1 ↔ Succeeds parameters answer)) := by
  unfold Succeeds run
  obtain ⟨fields, he⟩ | ⟨elements, he, hne⟩ := resultOf_cases parameters answer
  · rw [he]
    right
    obtain ⟨hpasses, hother⟩ := validateResult_obj parameters fields
    obtain ⟨outputs, hrun, hlookup, hsuccess⟩ := process_ok digit
      (resultOf parameters answer).2 (fun _ _ elements he' => by cases he') hother
    have harmless : Harmless parameters (.obj fields) := by
      intro elements he'
      cases he'
    exact ⟨harmless, outputs, hrun, hlookup, by rw [hsuccess, hpasses]⟩
  · rw [he]
    by_cases hnames : ∀ parameter ∈ parameters, contains (.arr elements) parameter.name = false
    · obtain ⟨hnot, hother⟩ := validateResult_arr hne hnames
      have hpasses : ¬ Passes parameters (.arr elements) := by
        rintro ⟨fields, he', -⟩
        cases he'
      by_cases hhead : parameters.length = elements.length →
          ∃ parameter, parameters.head? = some parameter ∧ parameter.required = true
      · right
        obtain ⟨outputs, hrun, hlookup, hsuccess⟩ := process_ok digit
          (resultOf parameters answer).2 (fun p hp elements' _ => hnames p hp) (hother.mpr hhead)
        refine ⟨fun elements' he' => ?_, outputs, hrun, hlookup, ?_⟩
        · cases he'
          exact ⟨hnames, hhead⟩
        · rw [hsuccess]
          exact and_congr_right fun _ => iff_of_false hnot hpasses
      · left
        obtain ⟨e, hraises⟩ := not_forall.mp (mt hother.mp hhead)
        rw [not_not] at hraises
        refine ⟨fun h => hhead (h elements rfl).2, fun outputs => ?_⟩
        rw [process, hraises]
        exact fun h => nomatch h
    · left
      refine ⟨fun h => hnames (h elements rfl).1, fun outputs => ?_⟩
      obtain ⟨parameter, hp, hc⟩ : ∃ parameter ∈ parameters,
          contains (.arr elements) parameter.name = true := by simpa using hnames
      rw [process]
      cases errorAfter (resultOf parameters answer).2
          (validateResult parameters (.arr elements)) with
      | error e => exact fun h => nomatch h
      | ok error =>
        cases ht : transformResult digit parameters (.arr elements) with
        | error e => exact fun h => nomatch h
        | ok dict => exact absurd ht (transformResult_raises hp hc dict)

private theorem settled_isSome (digit : Char → Option Nat) (result : Json)
    {parameter : ParameterConfig} (h : parameter ∈ parameters) :
    ∃ output, settled digit parameters result parameter.name = some output := by
  have hmem : parameter ∈ parameters.filter (·.name = parameter.name) :=
    List.mem_filter.mpr ⟨h, by simp⟩
  unfold settled
  cases hn : parameters.filter (·.name = parameter.name) with
  | nil =>
    rw [hn] at hmem
    cases hmem
  | cons first named =>
    cases hf : (first :: named).reverse.findSome? (transformed digit result) with
    | some output => exact ⟨output, by simp only [hf, Option.some_or]⟩
    | none =>
      exact ⟨first.type.default, by
        simp only [hf, Option.none_or, List.head?_cons, Option.map_some]⟩

theorem settled_of_nodup (h : (names parameters).Nodup) {parameter : ParameterConfig}
    (hp : parameter ∈ parameters) : settled digit parameters result parameter.name =
      some ((transformed digit result parameter).getD parameter.type.default) := by
  obtain ⟨front, back, rfl⟩ := List.append_of_mem hp
  have hother : (∀ p ∈ front, p.name ≠ parameter.name) ∧ ∀ p ∈ back, p.name ≠ parameter.name := by
    rw [names, List.map_append, List.map_cons, List.nodup_append, List.nodup_cons] at h
    obtain ⟨-, ⟨hback, -⟩, hfront⟩ := h
    constructor
    · intro p hp he
      exact hfront _ (List.mem_map_of_mem hp) _ List.mem_cons_self he
    · intro p hp he
      exact hback (he ▸ List.mem_map_of_mem hp)
  have hnamed : (front ++ parameter :: back).filter (·.name = parameter.name) = [parameter] := by
    rw [List.filter_append, List.filter_cons_of_pos (by simp),
      List.filter_eq_nil_iff.mpr fun p hp => by simpa using hother.1 p hp,
      List.filter_eq_nil_iff.mpr fun p hp => by simpa using hother.2 p hp]
    rfl
  rw [settled, hnamed]
  cases ht : transformed digit result parameter <;> simp [ht]

theorem agree_of_nodup (h : (names parameters).Nodup) :
    Agree digit parameters result := by
  intro parameter hp output ho
  rw [settled_of_nodup h hp] at ho
  cases ho
  cases ht : transformed digit result parameter with
  | none => exact ParameterType.accepts_default _
  | some output =>
    cases result with
    | obj fields =>
      obtain ⟨value, -, hvalue⟩ := Option.bind_eq_some_iff.mp ht
      exact ParameterType.accepts_transform hvalue
    | _ => cases ht

private theorem succeeds_cases {answer : Answer} (h : Succeeds parameters answer) :
    (∃ fields, answer.extracted = some (.obj fields) ∧ fields.length = parameters.length ∧
      (resultOf parameters answer).1 = .obj fields ∧
      ∀ parameter ∈ parameters, ∃ value, fields.lookup parameter.name = some value ∧
        Allows parameter value) ∨
    (parameters = [] ∧ answer.extracted.filter isTruthy = none ∧
      ∃ arguments, answer = .toolCall arguments) := by
  obtain ⟨herror, fields, hresult, hlength, hvalues⟩ := h
  have hfields := hresult
  unfold resultOf at herror hresult
  cases he : answer.extracted.filter isTruthy with
  | some value =>
    rw [he] at hresult
    cases hresult
    exact .inl ⟨fields, (Option.filter_eq_some_iff.mp he).1, hlength, hfields, hvalues⟩
  | none =>
    rw [he] at herror hresult
    cases answer with
    | toolCall arguments =>
      cases hresult
      exact .inr ⟨List.eq_nil_of_length_eq_zero hlength.symm, rfl, arguments, rfl⟩
    | text content => cases herror

theorem lookup_isSome_iff {name : String} :
    (fields.lookup name).isSome = true ↔ name ∈ fields.map Prod.fst := by
  rw [← not_iff_not, Bool.not_eq_true, Option.isSome_eq_false_iff, Option.isNone_iff_eq_none,
    List.lookup_eq_none_iff]
  constructor
  · intro h hmem
    obtain ⟨p, hp, rfl⟩ := List.mem_map.mp hmem
    exact bne_iff_ne.mp (h p hp) rfl
  · intro h p hp
    rw [bne_iff_ne]
    rintro rfl
    exact h (List.mem_map_of_mem hp)

private theorem nodup_iff_keys
    (hkeys : (fields.map Prod.fst).Nodup) (hlength : fields.length = parameters.length)
    (hvalues : ∀ parameter ∈ parameters, (fields.lookup parameter.name).isSome = true) :
    (names parameters).Nodup ↔
      ∀ name, (fields.lookup name).isSome = true ↔ name ∈ names parameters := by
  have hlength : (fields.map Prod.fst).length = (names parameters).length := by
    simp [names, hlength]
  have hsubset : ∀ name ∈ names parameters, name ∈ fields.map Prod.fst := by
    intro name hn
    obtain ⟨parameter, hp, rfl⟩ := List.mem_map.mp hn
    exact lookup_isSome_iff.mp (hvalues parameter hp)
  simp only [lookup_isSome_iff]
  constructor
  · intro hnodup name
    have hperm := (List.subperm_of_subset hnodup hsubset).perm_of_length_le hlength.le
    exact hperm.mem_iff.symm
  · intro hiff
    have hperm := (List.subperm_of_subset hkeys fun name hn => (hiff name).mp hn).perm_of_length_le
      hlength.ge
    exact hperm.nodup_iff.mp hkeys

theorem nodup_keys_of_answer {answer : Answer}
    (h : answer.extracted = some (.obj fields)) : (fields.map Prod.fst).Nodup := by
  cases answer with
  | toolCall arguments => exact nodup_keys_of_extracted h
  | text content => exact nodup_keys_of_extracted h

end

/-- The processing is total and honest exactly if the condition holds. -/
theorem exists_totalAndHonest_iff (digit : Char → Option Nat) (parameters : List ParameterConfig)
    (answer : Answer) :
    (∃ outputs, TotalAndHonest digit parameters answer outputs) ↔
      Sound digit parameters answer := by
  obtain ⟨hnot, hraises⟩ | ⟨harmless, outputs, hrun, hlookup, hsuccess⟩ :=
    run_cases digit parameters answer
  · refine iff_of_false ?_ fun h => hnot h.harmless
    rintro ⟨outputs, h⟩
    exact hraises outputs h.returned
  constructor
  · rintro ⟨outputs', h⟩
    have hreturned := h.returned
    rw [hrun] at hreturned
    cases hreturned
    have hagree : Agree digit parameters (resultOf parameters answer).1 := by
      intro parameter hp output ho
      obtain ⟨output', hl, haccepts⟩ := h.valid parameter hp
      rw [hlookup, ho] at hl
      cases hl
      exact haccepts
    refine ⟨harmless, ?_, ?_⟩
    · rintro rfl arguments rfl hfilter
      have hresult : resultOf [] (.toolCall arguments) = (.obj [], none) := by
        rw [resultOf, hfilter]
      have hsucceeds : Succeeds [] (.toolCall arguments) := by
        rw [Succeeds, hresult]
        exact ⟨rfl, [], rfl, rfl, fun _ hp => nomatch hp⟩
      obtain ⟨fields, hfields, -⟩ := h.success (hsuccess.mpr hsucceeds)
      exact ⟨fields, hfields⟩
    · by_cases hsucceeds : Succeeds parameters answer
      · left
        obtain ⟨fields, hfields, hnames, -⟩ := h.success (hsuccess.mpr hsucceeds)
        obtain ⟨fields', hfields', hlength, -, hvalues⟩ | ⟨rfl, -⟩ := succeeds_cases hsucceeds
        · cases hfields.symm.trans hfields'
          refine (nodup_iff_keys (nodup_keys_of_answer hfields) hlength fun p hp => ?_).mpr hnames
          obtain ⟨value, hvalue, -⟩ := hvalues p hp
          rw [hvalue]
          rfl
        · exact List.nodup_nil
      · exact .inr ⟨hsucceeds, hagree⟩
  · intro h
    have hagree : Agree digit parameters (resultOf parameters answer).1 := by
      rcases h.distinct with hnodup | ⟨-, hagree⟩
      · exact agree_of_nodup hnodup
      · exact hagree
    refine ⟨outputs, hrun, fun parameter hp => ?_, fun hs => ?_⟩
    · obtain ⟨output, ho⟩ := settled_isSome digit (resultOf parameters answer).1 hp
      exact ⟨output, (hlookup _).trans ho, hagree parameter hp output ho⟩
    have hsucceeds := hsuccess.mp hs
    have hnodup : (names parameters).Nodup := h.distinct.resolve_right fun hn => hn.1 hsucceeds
    obtain ⟨fields, hfields, hlength, hresult, hvalues⟩ | ⟨rfl, hfilter, arguments, rfl⟩ :=
      succeeds_cases hsucceeds
    · refine ⟨fields, hfields, ?_, fun parameter hp => ?_⟩
      · refine (nodup_iff_keys (nodup_keys_of_answer hfields) hlength fun p hp => ?_).mp hnodup
        obtain ⟨value, hvalue, -⟩ := hvalues p hp
        rw [hvalue]
        rfl
      · obtain ⟨value, hvalue, hallows⟩ := hvalues parameter hp
        obtain ⟨output, ht, hequals⟩ :=
          ParameterType.transform_of_isValid digit hallows.1
        refine ⟨value, output, hvalue, hallows, ?_, hequals⟩
        rw [hlookup, settled_of_nodup hnodup hp, hresult, transformed, hvalue, Option.bind_some,
          ht]
        rfl
    · obtain ⟨fields, hfields⟩ := h.object rfl arguments rfl hfilter
      rw [hfields] at hfilter
      cases fields with
      | nil => exact ⟨[], hfields, by simp, fun _ hp => nomatch hp⟩
      | cons p fields => cases hfilter

/-- An array as long as the parameters is asked for an entry. -/
theorem array_raises :
    run Numeral.asciiDigit [⟨"a", .string, none, false⟩] (.text "[1]".toList) =
        .error .attributeError ∧
      ¬ ∃ outputs, TotalAndHonest Numeral.asciiDigit [⟨"a", .string, none, false⟩]
        (.text "[1]".toList) outputs := by
  have hraises : run Numeral.asciiDigit [⟨"a", .string, none, false⟩] (.text "[1]".toList) =
      .error .attributeError := by
    rfl
  refine ⟨hraises, ?_⟩
  rintro ⟨outputs, h⟩
  rw [h.returned] at hraises
  cases hraises

end PlatformSpec.Extraction.ParameterExtractor
