import PlatformSpec.Base.Bytes
import PlatformSpec.Base.Find
import PlatformSpec.Base.JsonRoundTrip
import PlatformSpec.Base.Numeral
import PlatformSpec.Base.Replace
import PlatformSpec.Base.Utf8

/-!
# The sandbox of code nodes

Models `core/helper/code_executor/template_transformer.py` with the script of
`python3/python3_transformer.py`: how the code and the inputs are put into the script that the
sandbox runs, and how the result is taken from what the script prints. A number of a JSON value is
kept by its literal, as `orjson` or `json.dumps` writes it.
-/

namespace PlatformSpec.CodeNode

open Base Base.Replace Base.Split

/-- `_code_placeholder`. -/
def codePlaceholder : List Char := "\x7b\x7bcode\x7d\x7d".toList

/-- `_inputs_placeholder`. -/
def inputsPlaceholder : List Char := "\x7b\x7binputs\x7d\x7d".toList

/-- `_result_tag`. -/
def resultTag : List Char := "<<RESULT>>".toList

/-! ## The script -/

/-- The lines of the script between the code and the literal of the inputs. -/
def beforeInputs : List Char :=
  ["\n\nimport json\n", "from base64 import b64decode\n", "\n# decode and prepare input dict\n",
    "inputs_obj = json.loads(b64decode('"].flatMap String.toList

/-- The lines of the script behind the literal of the inputs. -/
def afterInputs : List Char :=
  ["').decode('utf-8'))\n", "\n# execute main function\n", "output_obj = main(**inputs_obj)\n",
    "\n# convert output to json and print\n", "output_json = json.dumps(output_obj, indent=4)\n",
    "result = f'''<<RESULT>>\x7boutput_json\x7d<<RESULT>>'''\n", "print(result)\n"].flatMap
      String.toList

/-- `Python3TemplateTransformer.get_runner_script`. -/
def getRunnerScript : List Char :=
  codePlaceholder ++ (beforeInputs ++ (inputsPlaceholder ++ afterInputs))

/-- The words for numbers that are not finite. -/
def notFinite : List String := ["NaN", "Infinity", "-Infinity"]

/-- A literal without a fraction and an exponent stands for an integer, which has 64 bits. -/
def fitsOrjson (literal : String) : Bool :=
  literal.toList.any (fun c => c == '.' || c == 'e' || c == 'E') ||
    literal.toInt?.any fun n => decide (-2 ^ 63 ≤ n ∧ n < 2 ^ 64)

mutual

/-- The value whose text `orjson.dumps` writes: a number that is not finite becomes `null`, a
larger integer raises. -/
def orjsonValue : Json → Option Json
  | .num literal =>
    if literal ∈ notFinite then some .null
    else if fitsOrjson literal then some (.num literal)
    else none
  | .arr elements => (orjsonElements elements).map .arr
  | .obj fields => (orjsonFields fields).map .obj
  | value => some value

def orjsonElements : List Json → Option (List Json)
  | [] => some []
  | element :: elements => do
    let element ← orjsonValue element
    let elements ← orjsonElements elements
    return element :: elements

def orjsonFields : List (String × Json) → Option (List (String × Json))
  | [] => some []
  | (key, value) :: fields => do
    let value ← orjsonValue value
    let fields ← orjsonFields fields
    return (key, value) :: fields

end

/-- `dumps_with_segments` of plain values: `orjson` puts no spaces between tokens. -/
def dumpsWithSegments (value : Json) : Option (List Char) :=
  (orjsonValue value).map (Json.write .compact false 0)

/-- `serialize_inputs`. -/
def serializeInputs (inputs : Json) : Option (List Char) :=
  (dumpsWithSegments inputs).map fun text => Base64.encode (Utf8.encode text)

/-- `assemble_runner_script`. -/
def assembleRunnerScript (code : List Char) (inputs : Json) : Option (List Char) := do
  let script := replaceAll codePlaceholder code getRunnerScript
  let inputsStr ← serializeInputs inputs
  return replaceAll inputsPlaceholder inputsStr script

/-- `json.loads(b64decode(literal).decode('utf-8'))`, in the script. -/
def decodeInputs (literal : List Char) : Option Json := do
  let bytes ← Base64.decode literal
  let text ← Utf8.decode bytes
  Json.loads text

/-- `print(f'''<<RESULT>>{output_json}<<RESULT>>''')`, in the script. -/
def printResult (outputObj : Json) : List Char :=
  resultTag ++ (Json.write (.indented 4) true 0 outputObj ++ (resultTag ++ ['\n']))

/-! ## The code and the inputs in the script -/

/-- The code stands in the script as it is, and the script's own text holds one literal besides,
which decodes to the inputs. -/
def Embedded (code : List Char) (inputs : Json) : Prop :=
  ∃ literal, assembleRunnerScript code inputs =
      some (code ++ (beforeInputs ++ (literal ++ afterInputs))) ∧
    decodeInputs literal = some inputs

mutual

/-- The literals of the numbers in a value. -/
def numbers : Json → List String
  | .num literal => [literal]
  | .arr elements => elementNumbers elements
  | .obj fields => fieldNumbers fields
  | _ => []

def elementNumbers : List Json → List String
  | [] => []
  | element :: elements => numbers element ++ elementNumbers elements

def fieldNumbers : List (String × Json) → List String
  | [] => []
  | (_, value) :: fields => numbers value ++ fieldNumbers fields

end

mutual

/-- A plain value of Python: its numbers have literals or are not finite, no dictionary has a key
twice. -/
def Plain : Json → Prop
  | .num literal =>
    literal ∈ notFinite ∨ Json.readNumber literal.toList = some (literal.toList, [])
  | .arr elements => ElementsPlain elements
  | .obj fields => (fields.map Prod.fst).Nodup ∧ FieldsPlain fields
  | _ => True

def ElementsPlain : List Json → Prop
  | [] => True
  | element :: elements => Plain element ∧ ElementsPlain elements

def FieldsPlain : List (String × Json) → Prop
  | [] => True
  | (_, value) :: fields => Plain value ∧ FieldsPlain fields

end

/-- A number that `orjson` writes as it is. -/
def Writable (literal : String) : Prop := literal ∉ notFinite ∧ fitsOrjson literal = true

mutual

theorem orjsonValue_eq_self_iff : ∀ v : Json,
    orjsonValue v = some v ↔ ∀ literal ∈ numbers v, Writable literal
  | .null => by simp [orjsonValue, numbers]
  | .bool b => by simp [orjsonValue, numbers]
  | .str s => by simp [orjsonValue, numbers]
  | .num literal => by
    rw [orjsonValue, numbers, List.forall_mem_singleton, Writable]
    split
    next hmem => simp [hmem]
    next hmem =>
      split
      next hfits => simp [hmem, hfits]
      next hfits => simp [hmem, hfits]
  | .arr elements => by
    rw [orjsonValue, numbers, ← orjsonElements_eq_self_iff elements, Option.map_eq_some_iff]
    constructor
    · rintro ⟨elements', h, he⟩
      rwa [Json.arr.inj he] at h
    · intro h
      exact ⟨elements, h, rfl⟩
  | .obj fields => by
    rw [orjsonValue, numbers, ← orjsonFields_eq_self_iff fields, Option.map_eq_some_iff]
    constructor
    · rintro ⟨fields', h, he⟩
      rwa [Json.obj.inj he] at h
    · intro h
      exact ⟨fields, h, rfl⟩

theorem orjsonElements_eq_self_iff : ∀ elements : List Json,
    orjsonElements elements = some elements ↔
      ∀ literal ∈ elementNumbers elements, Writable literal
  | [] => by simp [orjsonElements, elementNumbers]
  | element :: elements => by
    rw [orjsonElements, elementNumbers, List.forall_mem_append,
      ← orjsonValue_eq_self_iff element, ← orjsonElements_eq_self_iff elements]
    simp only [Option.bind_eq_bind, Option.bind_eq_some_iff, Option.pure_def, Option.some_inj]
    constructor
    · rintro ⟨v, hv, l, hl, he⟩
      obtain ⟨rfl, rfl⟩ := List.cons.inj he
      exact ⟨hv, hl⟩
    · rintro ⟨hv, hl⟩
      exact ⟨element, hv, elements, hl, rfl⟩

theorem orjsonFields_eq_self_iff : ∀ fields : List (String × Json),
    orjsonFields fields = some fields ↔ ∀ literal ∈ fieldNumbers fields, Writable literal
  | [] => by simp [orjsonFields, fieldNumbers]
  | (key, value) :: fields => by
    rw [orjsonFields, fieldNumbers, List.forall_mem_append,
      ← orjsonValue_eq_self_iff value, ← orjsonFields_eq_self_iff fields]
    simp only [Option.bind_eq_bind, Option.bind_eq_some_iff, Option.pure_def, Option.some_inj]
    constructor
    · rintro ⟨v, hv, l, hl, he⟩
      obtain ⟨hhead, rfl⟩ := List.cons.inj he
      rw [(Prod.mk.inj hhead).2] at hv
      exact ⟨hv, hl⟩
    · rintro ⟨hv, hl⟩
      exact ⟨value, hv, fields, hl, rfl⟩

end

private theorem map_fst_orjsonFields : ∀ {fields written : List (String × Json)},
    orjsonFields fields = some written → written.map Prod.fst = fields.map Prod.fst
  | [], written, h => by
    cases h
    rfl
  | (key, value) :: fields, written, h => by
    rw [orjsonFields] at h
    simp only [Option.bind_eq_bind, Option.bind_eq_some_iff, Option.pure_def,
      Option.some_inj] at h
    obtain ⟨v, -, l, hl, rfl⟩ := h
    exact congrArg (key :: ·) (map_fst_orjsonFields hl)

mutual

private theorem valid_orjsonValue : ∀ {v written : Json}, Plain v →
    orjsonValue v = some written → written.Valid
  | .null, _, _, h => by
    cases h
    trivial
  | .bool _, _, _, h => by
    cases h
    trivial
  | .str _, _, _, h => by
    cases h
    trivial
  | .num literal, _, hplain, h => by
    rw [Plain] at hplain
    rw [orjsonValue] at h
    split at h
    next =>
      cases h
      trivial
    next hmem =>
      split at h
      next =>
        cases h
        exact hplain.resolve_left hmem
      next => cases h
  | .arr elements, _, hplain, h => by
    rw [orjsonValue, Option.map_eq_some_iff] at h
    obtain ⟨written, hwritten, rfl⟩ := h
    exact valid_orjsonElements hplain hwritten
  | .obj fields, _, hplain, h => by
    rw [orjsonValue, Option.map_eq_some_iff] at h
    obtain ⟨written, hwritten, rfl⟩ := h
    have hkeys := map_fst_orjsonFields hwritten
    exact ⟨hkeys ▸ hplain.1, valid_orjsonFields hplain.2 hwritten⟩

private theorem valid_orjsonElements : ∀ {elements written : List Json}, ElementsPlain elements →
    orjsonElements elements = some written → Json.ElementsValid written
  | [], _, _, h => by
    cases h
    trivial
  | element :: elements, _, hplain, h => by
    rw [orjsonElements] at h
    simp only [Option.bind_eq_bind, Option.bind_eq_some_iff, Option.pure_def,
      Option.some_inj] at h
    obtain ⟨v, hv, l, hl, rfl⟩ := h
    exact ⟨valid_orjsonValue hplain.1 hv, valid_orjsonElements hplain.2 hl⟩

private theorem valid_orjsonFields : ∀ {fields written : List (String × Json)},
    FieldsPlain fields → orjsonFields fields = some written → Json.FieldsValid written
  | [], _, _, h => by
    cases h
    trivial
  | (key, value) :: fields, _, hplain, h => by
    rw [orjsonFields] at h
    simp only [Option.bind_eq_bind, Option.bind_eq_some_iff, Option.pure_def,
      Option.some_inj] at h
    obtain ⟨v, hv, l, hl, rfl⟩ := h
    exact ⟨valid_orjsonValue hplain.1 hv, valid_orjsonFields hplain.2 hl⟩

end

section Script

variable {code : List Char} {inputs : Json} {literal : List Char}

theorem decodeInputs_serializeInputs (hplain : Plain inputs)
    (h : serializeInputs inputs = some literal) :
    ∃ written, orjsonValue inputs = some written ∧ decodeInputs literal = some written := by
  rw [serializeInputs, dumpsWithSegments, Option.map_map, Option.map_eq_some_iff] at h
  obtain ⟨written, hwritten, rfl⟩ := h
  refine ⟨written, hwritten, ?_⟩
  have hloads := Json.loads_write .compact false 0 (valid_orjsonValue hplain hwritten)
  rw [decodeInputs, Function.comp_apply, Base64.decode_encode, Option.bind_eq_bind,
    Option.bind_some, Utf8.decode_encode, Option.bind_eq_bind, Option.bind_some, hloads]

theorem inputsPlaceholder_ne_nil : inputsPlaceholder ≠ [] := List.cons_ne_nil _ _

theorem codePlaceholder_ne_nil : codePlaceholder ≠ [] := List.cons_ne_nil _ _

private theorem brace_not_mem_beforeInputs : '\x7b' ∉ beforeInputs := by decide +kernel

theorem beforeInputs_eq_cons : ∃ lines, beforeInputs = '\n' :: lines := by
  have hhead : beforeInputs.head? = some '\n' := by decide +kernel
  obtain ⟨lines, hlines⟩ := List.head?_eq_some_iff.mp hhead
  exact ⟨lines, hlines⟩

private theorem cut_beforeInputs (sep rest : List Char) :
    cut ('\x7b' :: sep) (beforeInputs ++ rest) =
      (cut ('\x7b' :: sep) rest).map fun p => (beforeInputs ++ p.1, p.2) :=
  cut_append_of_not_mem brace_not_mem_beforeInputs

private theorem replaceAll_code (code : List Char) :
    replaceAll codePlaceholder code getRunnerScript =
      code ++ (beforeInputs ++ (inputsPlaceholder ++ afterInputs)) := by
  have hrest : cut codePlaceholder (inputsPlaceholder ++ afterInputs) = none := by
    decide +kernel
  have habsent : ¬ codePlaceholder <:+: beforeInputs ++ (inputsPlaceholder ++ afterInputs) := by
    rw [← cut_eq_none_iff]
    have hcut := cut_beforeInputs codePlaceholder.tail (inputsPlaceholder ++ afterInputs)
    rwa [show '\x7b' :: codePlaceholder.tail = codePlaceholder from rfl, hrest] at hcut
  rw [getRunnerScript, replaceAll_append_self codePlaceholder_ne_nil,
    replaceAll_of_absent habsent]

private theorem replaceAll_inputs (literal : List Char) :
    replaceAll inputsPlaceholder literal
        (beforeInputs ++ (inputsPlaceholder ++ afterInputs)) =
      beforeInputs ++ (literal ++ afterInputs) := by
  have hcut := cut_beforeInputs inputsPlaceholder.tail (inputsPlaceholder ++ afterInputs)
  rw [show '\x7b' :: inputsPlaceholder.tail = inputsPlaceholder from rfl, cut_append_self,
    Option.map_some, List.append_nil] at hcut
  have habsent : ¬ inputsPlaceholder <:+: afterInputs := by decide +kernel
  rw [replaceAll_of_cut inputsPlaceholder_ne_nil hcut, replaceAll_of_absent habsent,
    List.append_assoc]

/-- The script, in which the code is searched for the place of the inputs as well. -/
theorem assembleRunnerScript_eq (code : List Char) (inputs : Json) :
    assembleRunnerScript code inputs = (serializeInputs inputs).map fun literal =>
      replaceAll inputsPlaceholder literal code ++ (beforeInputs ++ (literal ++ afterInputs)) := by
  rw [assembleRunnerScript]
  cases serializeInputs inputs with
  | none => rfl
  | some literal =>
    have hline : '\n' ∉ inputsPlaceholder := by decide
    obtain ⟨lines, hlines⟩ := beforeInputs_eq_cons
    have hsplit : replaceAll inputsPlaceholder literal
        (code ++ (beforeInputs ++ (inputsPlaceholder ++ afterInputs))) =
          replaceAll inputsPlaceholder literal code ++ replaceAll inputsPlaceholder literal
            (beforeInputs ++ (inputsPlaceholder ++ afterInputs)) := by
      rw [hlines]
      exact replaceAll_append_cons inputsPlaceholder_ne_nil hline _
    rw [replaceAll_inputs] at hsplit
    rw [replaceAll_code]
    exact congrArg some hsplit

private theorem head_serializeInputs
    (h : serializeInputs inputs = some literal) : ∀ c ∈ literal, c ≠ '\x7b' := by
  rw [serializeInputs, Option.map_eq_some_iff] at h
  obtain ⟨text, -, rfl⟩ := h
  rintro c hc rfl
  have hsymbol := Base64.isSymbol_of_mem_encode _ _ hc
  revert hsymbol
  decide

theorem replaceAll_append_eq_iff {literal' : List Char} (hne : literal ≠ [])
    (hbrace : ∀ c ∈ literal, c ≠ '\x7b') (rest : List Char) :
    replaceAll inputsPlaceholder literal code ++ (beforeInputs ++ (literal ++ rest)) =
        code ++ (beforeInputs ++ (literal' ++ rest)) ↔
      ¬ inputsPlaceholder <:+: code ∧ literal' = literal := by
  constructor
  · intro heq
    have habsent : ¬ inputsPlaceholder <:+: code := by
      intro hwithin
      obtain ⟨⟨front, back⟩, hcut⟩ : ∃ p, cut inputsPlaceholder code = some p := by
        rw [← Option.ne_none_iff_exists']
        exact fun hnone => cut_eq_none_iff.mp hnone hwithin
      obtain ⟨c, literal, rfl⟩ := List.exists_cons_of_ne_nil hne
      rw [replaceAll_of_cut inputsPlaceholder_ne_nil hcut, eq_of_cut hcut] at heq
      simp only [List.append_assoc, List.append_right_inj] at heq
      exact hbrace c List.mem_cons_self (List.cons.inj heq).1
    rw [replaceAll_of_absent habsent] at heq
    have hliteral := List.append_cancel_left (List.append_cancel_left heq)
    exact ⟨habsent, (List.append_cancel_right hliteral).symm⟩
  · rintro ⟨habsent, rfl⟩
    rw [replaceAll_of_absent habsent]

/-- The code and the inputs reach the sandbox as they are if and only if the code does not hold
the placeholder of the inputs and `orjson` writes all their numbers as they are. -/
theorem embedded_iff (hplain : Plain inputs) : Embedded code inputs ↔
    ¬ inputsPlaceholder <:+: code ∧ ∀ literal ∈ numbers inputs, Writable literal := by
  rw [← orjsonValue_eq_self_iff]
  constructor
  · rintro ⟨literal, hscript, hdecode⟩
    rw [assembleRunnerScript_eq, Option.map_eq_some_iff] at hscript
    obtain ⟨literal', hserialize, hscript⟩ := hscript
    obtain ⟨written, hwritten, hread⟩ := decodeInputs_serializeInputs hplain hserialize
    have hne : literal' ≠ [] := by
      rintro rfl
      cases hread
    obtain ⟨habsent, rfl⟩ :=
      (replaceAll_append_eq_iff hne (head_serializeInputs hserialize) _).mp hscript
    rw [hdecode] at hread
    cases hread
    exact ⟨habsent, hwritten⟩
  · rintro ⟨habsent, hwritten⟩
    obtain ⟨literal, hserialize⟩ : ∃ literal, serializeInputs inputs = some literal := by
      rw [serializeInputs, dumpsWithSegments, hwritten]
      exact ⟨_, rfl⟩
    refine ⟨literal, ?_, ?_⟩
    · rw [assembleRunnerScript_eq, hserialize, Option.map_some, replaceAll_of_absent habsent]
    · obtain ⟨written, hsame, hread⟩ := decodeInputs_serializeInputs hplain hserialize
      rw [hwritten] at hsame
      cases hsame
      exact hread

end Script
/-! ## The response -/

/-- The errors of `transform_response`. -/
inductive ResponseError where
  | noResultTag (excerpt : List Char)
  | jsonDecode
  | notDict (typeName : String)
  deriving DecidableEq

/-- `extract_result_str_from_response`: between the first tag and the last one. -/
def extractResultStrFromResponse (response : List Char) : Except ResponseError (List Char) :=
  match cut resultTag response with
  | none => .error (.noResultTag (response.take 200))
  | some (_, rest) =>
    match rfind rest resultTag 0 with
    | none => .error (.noResultTag (response.take 200))
    | some i => .ok (rest.take i)

/-- `type(result).__name__`. -/
def jsonTypeName : Json → String
  | .null => "NoneType"
  | .bool _ => "bool"
  | .num literal =>
    if literal.toList.any (fun c => c == '.' || c == 'e' || c == 'E') || literal ∈ notFinite then
      "float"
    else "int"
  | .str _ => "str"
  | .arr _ => "list"
  | .obj _ => "dict"

/-- The decimal digits of Unicode, which are no spaces and no marks of numbers. -/
structure DecimalDigits where
  value : Char → Option Nat
  not_blank : ∀ c, Numeral.isBlank c = true → value c = none
  not_mark : ∀ c ∈ ['-', '+', '.', '_', 'e', 'E'], value c = none

variable (digits : DecimalDigits) (repr : Double → String)

/-- `\d`. -/
def DecimalDigits.isDigit (c : Char) : Bool := (digits.value c).isSome

/-- `[+-]\d+$`: the end is also before a last line break. -/
def matchExponent : List Char → Bool
  | sign :: cs =>
    (sign == '+' || sign == '-') && !(cs.takeWhile digits.isDigit).isEmpty &&
      (cs.dropWhile digits.isDigit == [] || cs.dropWhile digits.isDigit == ['\n'])
  | [] => false

/-- `\.?\d*`, passed. -/
def skipFraction : List Char → List Char
  | '.' :: cs => cs.dropWhile digits.isDigit
  | cs => cs

/-- `-?`, passed. -/
def skipMinus : List Char → List Char
  | '-' :: cs => cs
  | cs => cs

/-- `^-?\d+\.?\d*e[+-]\d+$`, in either case. -/
def matchScientific (text : List Char) : Bool :=
  !((skipMinus text).takeWhile digits.isDigit).isEmpty &&
    match skipFraction digits ((skipMinus text).dropWhile digits.isDigit) with
    | e :: cs => (e == 'e' || e == 'E') && matchExponent digits cs
    | [] => false

mutual

/-- `convert_scientific_notation`. -/
def convertScientificNotation : Json → Json
  | .str s =>
    if matchScientific digits s.toList then
      match Numeral.readFloat digits.value s with
      | some x => .num (repr x)
      | none => .str s
    else .str s
  | .obj fields => .obj (convertFields fields)
  | .arr elements => .arr (convertElements elements)
  | value => value

def convertElements : List Json → List Json
  | [] => []
  | element :: elements => convertScientificNotation element :: convertElements elements

def convertFields : List (String × Json) → List (String × Json)
  | [] => []
  | (key, value) :: fields => (key, convertScientificNotation value) :: convertFields fields

end

/-- `transform_response`. -/
def transformResponse (response : List Char) : Except ResponseError Json := do
  let resultStr ← extractResultStrFromResponse response
  match Json.loads resultStr with
  | none => .error .jsonDecode
  | some (.obj fields) => .ok (convertScientificNotation digits repr (.obj fields))
  | some result => .error (.notDict (jsonTypeName result))

/-! ## The result in the response -/

private theorem resultTag_unbordered :
    ∀ k, 0 < k → k < resultTag.length → ¬ resultTag.drop k <+: resultTag := by
  have hall : ∀ k ∈ List.range resultTag.length, 0 < k → ¬ resultTag.drop k <+: resultTag := by
    decide
  exact fun k hpos hlt => hall k (List.mem_range.mpr hlt) hpos

private theorem rfind_resultTag (json : List Char) :
    rfind (json ++ (resultTag ++ ['\n'])) resultTag 0 = some json.length := by
  rw [rfind_eq_some_iff]
  have hlength : resultTag.length = 10 := rfl
  refine ⟨⟨?_, Nat.zero_le _, occursAt_append json ['\n']⟩, fun k hlt hle => ?_⟩
  · rw [List.length_append]
    omega
  · rw [Bool.eq_false_iff, Ne, occursAt_iff]
    intro hprefix
    have hdrop : (json ++ (resultTag ++ ['\n'])).drop k =
        (resultTag ++ ['\n']).drop (k - json.length) := by
      rw [List.drop_append, List.drop_eq_nil_of_le (Nat.le_of_lt hlt), List.nil_append]
    rw [hdrop] at hprefix
    have hshort := hprefix.length_le
    rw [List.length_drop, List.length_append, List.length_singleton] at hshort
    have hone : k - json.length = 1 := by omega
    rw [hone] at hprefix
    revert hprefix
    decide

variable {printed : List Char}

/-- The text of the result is found behind whatever was printed without the tag. -/
theorem extractResultStr_printResult (h : ¬ resultTag <:+: printed)
    (outputObj : Json) : extractResultStrFromResponse (printed ++ printResult outputObj) =
      .ok (Json.write (.indented 4) true 0 outputObj) := by
  have hcut := cut_of_unbordered resultTag_unbordered h
    (b := Json.write (.indented 4) true 0 outputObj ++ (resultTag ++ ['\n']))
  rw [extractResultStrFromResponse, printResult, hcut]
  simp only [rfind_resultTag, List.take_left]

theorem transformResponse_printResult (h : ¬ resultTag <:+: printed)
    {fields : List (String × Json)} (hvalid : (Json.obj fields).Valid) :
    transformResponse digits repr (printed ++ printResult (.obj fields)) =
      .ok (convertScientificNotation digits repr (.obj fields)) := by
  have hloads := Json.loads_write (.indented 4) true 0 hvalid
  rw [transformResponse, extractResultStr_printResult h]
  show (match Json.loads _ with
    | none => _
    | some (.obj fields) => _
    | some result => _) = _
  rw [hloads]

/-! ## Texts that become numbers -/

section Scientific

variable {digits} {c : Char} {cs : List Char}

private theorem value_none (h : c ∈ ['-', '+', '.', '_', 'e', 'E']) : digits.value c = none :=
  digits.not_mark c h

private theorem digit_not_underscore (h : digits.isDigit c = true) :
    (digits.value c).isSome = true ∧ c ≠ '_' := by
  refine ⟨h, ?_⟩
  rintro rfl
  rw [DecimalDigits.isDigit, digits.not_mark '_' (by decide)] at h
  cases h

private theorem digits_before (cs : List Char) :
    ∀ c ∈ cs.takeWhile digits.isDigit, (digits.value c).isSome = true ∧ c ≠ '_' :=
  fun c hc => digit_not_underscore (List.all_eq_true.mp List.all_takeWhile c hc)

theorem exponent_of_match {e : Char} (he : e = 'e' ∨ e = 'E')
    (h : matchExponent digits cs = true) : ∃ core blank x, cs = core ++ blank ∧
      (blank = [] ∨ blank = ['\n']) ∧ core ≠ [] ∧
      (∀ c ∈ core.getLast?, Numeral.isBlank c = false) ∧
      Numeral.exponent digits.value (e :: core) = some x := by
  cases cs with
  | nil => cases h
  | cons sign cs =>
    simp only [matchExponent, Bool.and_eq_true, Bool.or_eq_true, beq_iff_eq,
      Bool.not_eq_true', List.isEmpty_eq_false_iff] at h
    obtain ⟨⟨hsign, hsome⟩, hend⟩ := h
    have hnil : ∀ c ∈ ([] : List Char).head?, digits.value c = none ∧ c ≠ '_' := by
      rintro c ⟨⟩
    obtain ⟨values, hvalues, hnonempty⟩ :=
      Numeral.digitPart_append digits.value (digits_before cs) hnil
    obtain ⟨v, values, rfl⟩ := List.exists_cons_of_ne_nil (hnonempty hsome)
    rw [List.append_nil] at hvalues
    refine ⟨sign :: cs.takeWhile digits.isDigit, cs.dropWhile digits.isDigit, ?_⟩
    rw [Numeral.exponent, if_pos he]
    have hread : Numeral.sign (sign :: cs.takeWhile digits.isDigit) =
        (sign == '-', cs.takeWhile digits.isDigit) := by
      rcases hsign with rfl | rfl <;> rfl
    simp only [hread, hvalues]
    refine ⟨_, ?_, hend, List.cons_ne_nil _ _, ?_, rfl⟩
    · rw [List.cons_append, List.takeWhile_append_dropWhile]
    · intro c hc
      rw [List.getLast?_cons, List.getLast?_eq_some_getLast hsome, Option.getD_some] at hc
      obtain rfl := Option.some.inj hc
      have hdigit := (digits_before cs _ (List.getLast_mem hsome)).1
      rw [Bool.eq_false_iff]
      intro hblank
      rw [digits.not_blank _ hblank] at hdigit
      cases hdigit

theorem not_blank_of_isDigit (h : digits.isDigit c = true) :
    Numeral.isBlank c = false := by
  rw [Bool.eq_false_iff]
  intro hblank
  rw [DecimalDigits.isDigit, digits.not_blank c hblank] at h
  cases h

theorem fraction_of_match {e : Char} {tail : List Char} (he : e = 'e' ∨ e = 'E')
    (h : skipFraction digits cs = e :: tail) : ∃ front, cs = front ++ e :: tail ∧
      (∀ core, ∀ c ∈ (front ++ e :: core).head?, digits.value c = none ∧ c ≠ '_') ∧
      (front = [] ∨ ∃ ds, front = '.' :: ds ∧ ∀ core, ∃ values,
        Numeral.digitPart digits.value (ds ++ e :: core) = (values, e :: core)) := by
  have hend : ∀ core, ∀ c ∈ (e :: core).head?, digits.value c = none ∧ c ≠ '_' := by
    intro core c hc
    obtain rfl := Option.some.inj hc
    rcases he with rfl | rfl
    · exact ⟨value_none (by decide), by decide⟩
    · exact ⟨value_none (by decide), by decide⟩
  unfold skipFraction at h
  split at h
  next r =>
    refine ⟨'.' :: r.takeWhile digits.isDigit, ?_, ?_, .inr ⟨_, rfl, fun core => ?_⟩⟩
    · rw [List.cons_append, ← h, List.takeWhile_append_dropWhile]
    · intro core c hc
      obtain rfl := Option.some.inj hc
      exact ⟨value_none (by decide), by decide⟩
    · obtain ⟨values, hvalues, -⟩ :=
        Numeral.digitPart_append digits.value (digits_before r) (hend core)
      exact ⟨values, hvalues⟩
  next => exact ⟨[], h, hend, .inl rfl⟩

theorem sign_of_match (text : List Char) : ∃ minus negative,
    text = minus ++ skipMinus text ∧ (∀ c ∈ minus, Numeral.isBlank c = false) ∧
      ∀ d rest, digits.isDigit d = true →
        Numeral.sign (minus ++ d :: rest) = (negative, d :: rest) := by
  unfold skipMinus
  split
  next cs =>
    refine ⟨['-'], true, rfl, ?_, fun d rest _ => rfl⟩
    exact List.forall_mem_singleton.mpr (by decide)
  next =>
    refine ⟨[], false, rfl, fun _ h => absurd h List.not_mem_nil, fun d rest hd => ?_⟩
    have hmark : ∀ m ∈ ['-', '+', '.', '_', 'e', 'E'], d ≠ m := by
      rintro m hm rfl
      rw [DecimalDigits.isDigit, value_none hm] at hd
      cases hd
    rw [List.nil_append, Numeral.sign]
    · rintro cs ⟨⟩
      exact hmark '-' (by decide) rfl
    · rintro cs ⟨⟩
      exact hmark '+' (by decide) rfl

theorem exists_readFloat {s : String} (h : matchScientific digits s.toList = true) :
    ∃ x, Numeral.readFloat digits.value s = some x := by
  obtain ⟨minus, negative, htext, hminus, hsign⟩ := @sign_of_match digits s.toList
  simp only [matchScientific, Bool.and_eq_true, Bool.not_eq_true',
    List.isEmpty_eq_false_iff] at h
  obtain ⟨hwhole, htail⟩ := h
  split at htail
  next e cs hfraction =>
    simp only [Bool.and_eq_true, Bool.or_eq_true, beq_iff_eq] at htail
    obtain ⟨he, hexponent⟩ := htail
    obtain ⟨core, blank, x, rfl, hblank, hcore, hlast, hx⟩ := exponent_of_match he hexponent
    obtain ⟨front, hfront, hhead, hread⟩ := fraction_of_match he hfraction
    obtain ⟨values, hvalues, hnonempty⟩ := Numeral.digitPart_append digits.value
      (digits_before (skipMinus s.toList)) (hhead core)
    obtain ⟨d, ds, hds⟩ := List.exists_cons_of_ne_nil hwhole
    have hd : digits.isDigit d = true := by
      have hmem : d ∈ (skipMinus s.toList).takeWhile digits.isDigit := by
        rw [hds]
        exact List.mem_cons_self
      exact List.all_eq_true.mp List.all_takeWhile d hmem
    -- The text without the line break that may end it.
    have hmiddle : s.toList = [] ++ (minus ++ d :: (ds ++ (front ++ e :: core))) ++ blank := by
      rw [htext]
      conv_lhs => rw [← List.takeWhile_append_dropWhile (p := digits.isDigit)
        (l := skipMinus s.toList), hfront, hds]
      simp
    have hstrip : stripBoth Numeral.isBlank s.toList =
        minus ++ d :: (ds ++ (front ++ e :: core)) := by
      rw [hmiddle, stripBoth_append]
      · rcases hblank with rfl | rfl
        · simp [stripRight]
        · simp [stripRight, show Numeral.isBlank '\n' = true by decide]
      · simp
      · intro a ha
        cases minus with
        | nil =>
          obtain rfl := Option.some.inj ha
          exact not_blank_of_isDigit hd
        | cons m minus =>
          obtain rfl := Option.some.inj ha
          exact hminus _ List.mem_cons_self
      · intro a ha
        apply hlast
        have hends : minus ++ d :: (ds ++ (front ++ e :: core)) =
            (minus ++ d :: (ds ++ (front ++ [e]))) ++ core := by simp
        rwa [hends, List.getLast?_append_of_ne_nil _ hcore] at ha
    rw [Numeral.readFloat, hstrip, hsign d _ hd]
    rw [hds, List.cons_append] at hvalues
    obtain ⟨number, hnumber⟩ : ∃ number,
        Numeral.decimal digits.value (d :: (ds ++ (front ++ e :: core))) = some number := by
      have hvalues' : values ≠ [] := hnonempty hwhole
      rcases hread with rfl | ⟨ds', rfl, hplaces⟩
      · rw [Numeral.decimal, hvalues]
        rcases he with rfl | rfl
        · simp [hx, hvalues']
        · simp [hx, hvalues']
      · obtain ⟨places, hplaces⟩ := hplaces core
        rw [Numeral.decimal, hvalues]
        simp [hplaces, hx, hvalues']
    simp only [hnumber]
    exact ⟨_, rfl⟩
  next => cases htail

end Scientific
/-! ## The boundary -/

mutual

/-- The strings in a value, without the keys of its objects. -/
def strings : Json → List String
  | .str s => [s]
  | .arr elements => elementStrings elements
  | .obj fields => fieldStrings fields
  | _ => []

def elementStrings : List Json → List String
  | [] => []
  | element :: elements => strings element ++ elementStrings elements

def fieldStrings : List (String × Json) → List String
  | [] => []
  | (_, value) :: fields => strings value ++ fieldStrings fields

end

mutual

theorem convertScientificNotation_eq_self_iff : ∀ v : Json,
    convertScientificNotation digits repr v = v ↔
      ∀ s ∈ strings v, matchScientific digits s.toList = false
  | .null => by simp [convertScientificNotation, strings]
  | .bool b => by simp [convertScientificNotation, strings]
  | .num literal => by simp [convertScientificNotation, strings]
  | .str s => by
    rw [convertScientificNotation, strings, List.forall_mem_singleton]
    cases h : matchScientific digits s.toList with
    | false => simp
    | true =>
      obtain ⟨x, hx⟩ := exists_readFloat h
      simp [hx]
  | .arr elements => by
    rw [convertScientificNotation, strings, ← convertElements_eq_self_iff elements,
      Json.arr.injEq]
  | .obj fields => by
    rw [convertScientificNotation, strings, ← convertFields_eq_self_iff fields, Json.obj.injEq]

theorem convertElements_eq_self_iff : ∀ elements : List Json,
    convertElements digits repr elements = elements ↔
      ∀ s ∈ elementStrings elements, matchScientific digits s.toList = false
  | [] => by simp [convertElements, elementStrings]
  | element :: elements => by
    rw [convertElements, elementStrings, List.forall_mem_append, List.cons.injEq,
      convertScientificNotation_eq_self_iff element, convertElements_eq_self_iff elements]

theorem convertFields_eq_self_iff : ∀ fields : List (String × Json),
    convertFields digits repr fields = fields ↔
      ∀ s ∈ fieldStrings fields, matchScientific digits s.toList = false
  | [] => by simp [convertFields, fieldStrings]
  | (key, value) :: fields => by
    rw [convertFields, fieldStrings, List.forall_mem_append, List.cons.injEq, Prod.mk.injEq,
      convertScientificNotation_eq_self_iff value, convertFields_eq_self_iff fields]
    simp only [true_and]

end

/-- The sandbox gets the code and the inputs as they are, and its result comes back as it was
returned, whatever is printed before. -/
def Transparent (code : List Char) (inputs result : List (String × Json)) : Prop :=
  Embedded code (.obj inputs) ∧ ∀ printed, ¬ resultTag <:+: printed →
    transformResponse digits repr (printed ++ printResult (.obj result)) = .ok (.obj result)

theorem asciiDigit_of_isBlank (c : Char) (h : Numeral.isBlank c = true) :
    Numeral.asciiDigit c = none := by
  rw [Numeral.asciiDigit, if_neg]
  rintro ⟨hlow, hhigh⟩
  have hlow' : 48 ≤ c.toNat := hlow
  have hhigh' : c.toNat ≤ 57 := hhigh
  simp only [Numeral.isBlank, isSpace, Bool.and_eq_true, Bool.or_eq_true, decide_eq_true_eq,
    List.contains_eq_mem, List.mem_cons, List.not_mem_nil, or_false] at h
  omega

private theorem asciiDigit_mark :
    ∀ c ∈ ['-', '+', '.', '_', 'e', 'E'], Numeral.asciiDigit c = none :=
  forall_of_all (by decide)

/-- The digits of ASCII. -/
def DecimalDigits.ascii : DecimalDigits where
  value := Numeral.asciiDigit
  not_blank := asciiDigit_of_isBlank
  not_mark := asciiDigit_mark

end PlatformSpec.CodeNode
