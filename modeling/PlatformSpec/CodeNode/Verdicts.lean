import PlatformSpec.Base.Result
import PlatformSpec.CodeNode.Transform

/-!
# Where the validation of an output ends

The values of a result that fail a check or on which a check raises an error of its own, in the
order in which the validation comes to them. The first of them tells how the validation ends.
-/

namespace PlatformSpec.CodeNode

open Base Base.Failures DraftVariable

/-- A value that does not pass: a check fails, or raises an error that is no `CodeNodeError`. -/
inductive Verdict where
  | rejected
  | crashed
  deriving DecidableEq

/-- An error is a `CodeNodeError` or not. -/
def Raised.verdict : Raised → Verdict
  | .codeNodeError _ | .outputValidationError _ | .depthLimitError _ => .rejected
  | .other _ => .crashed

variable (limits : CodeNodeLimits)

/-- A number out of range or with too many places; a number that is not finite but in range. -/
def numberVerdicts (value : Value) : List Verdict :=
  if outOfRange limits value then [.rejected]
  else
    match value with
    | .float repr =>
      match decimalPlaces repr with
      | none => [.crashed]
      | some places => if limits.maxPrecision < places then [.rejected] else []
    | _ => []

/-- What is too long; what is no text. -/
def stringVerdicts : Value → List Verdict
  | .none => []
  | .str s => if limits.maxStringLength < s.length then [.rejected] else []
  | .list items => if limits.maxStringLength < items.length then [.rejected] else [.crashed]
  | .dict entries => if limits.maxStringLength < entries.length then [.rejected] else [.crashed]
  | _ => [.crashed]

def lengthVerdicts (items : List Value) (limit : Int) : List Verdict :=
  if limit < items.length then [.rejected] else []

section Nested

variable (inner : Option Schema → Value → List Verdict)

/-- Only a list that begins with a value is looked at. -/
def listVerdicts (items : List Value) : List Verdict :=
  match items with
  | [] => []
  | first :: _ =>
    if first.isNone then []
    else if first.isNumber && items.all (nullOr Value.isNumber) then
      items.flatMap (numberVerdicts limits)
    else if first.isText && items.all (nullOr Value.isText) then
      items.flatMap (stringVerdicts limits)
    else if first.isDict && items.all (nullOr Value.isDict) ||
        first.isList && items.all (nullOr Value.isList) then
      items.flatMap fun value => if value.isNone then [] else inner none value
    else [.rejected]

def undeclaredVerdicts (entry : String × Value) : List Verdict :=
  match entry.2 with
  | .none | .bool _ => []
  | .int n => numberVerdicts limits (.int n)
  | .float repr => numberVerdicts limits (.float repr)
  | .str s => stringVerdicts limits (.str s)
  | .dict entries => inner none (.dict entries)
  | .list items => listVerdicts limits inner items
  | .file _ => [.rejected]

/-- A declared boolean is not looked at. -/
def valueVerdicts (declared : Output) (value : Value) : List Verdict :=
  match declared.type with
  | .object =>
    match value with
    | .none => []
    | .dict entries => inner declared.children (.dict entries)
    | _ => [.rejected]
  | .number => if nullOr Value.isNumber value then numberVerdicts limits value else [.rejected]
  | .string => if nullOr Value.isText value then stringVerdicts limits value else [.rejected]
  | .boolean => []
  | .arrayNumber =>
    match value with
    | .none => []
    | .list items => lengthVerdicts items limits.maxNumberArrayLength ++
        items.flatMap fun value =>
          if value.isNumber then numberVerdicts limits value else [.rejected]
    | _ => [.rejected]
  | .arrayString =>
    match value with
    | .none => []
    | .list items => lengthVerdicts items limits.maxStringArrayLength ++
        items.flatMap (stringVerdicts limits)
    | _ => [.rejected]
  | .arrayObject =>
    match value with
    | .none => []
    | .list items => lengthVerdicts items limits.maxObjectArrayLength ++
        ((items.flatMap fun value => if nullOr Value.isDict value then [] else [.rejected]) ++
          items.flatMap fun value => if value.isNone then [] else inner declared.children value)
    | _ => [.rejected]
  | .arrayBoolean =>
    match value with
    | .none => []
    | .list items => items.flatMap fun value =>
        if nullOr Value.isBool value then [] else [.rejected]
    | _ => [.rejected]
  | _ => [.rejected]

def fieldVerdicts (entries : List (String × Value)) (field : String × Output) : List Verdict :=
  match entries.lookup field.1 with
  | none => [.rejected]
  | some value => valueVerdicts limits inner field.2 value

end Nested

/-- The values that do not pass, in order, with the depth that is left. -/
def verdicts : Nat → Option Schema → Value → List Verdict
  | 0, _, _ => [.rejected]
  | remaining + 1, schema?, .dict entries =>
    match schema? with
    | none => entries.flatMap (undeclaredVerdicts limits (verdicts remaining))
    | some schema => schema.flatMap (fieldVerdicts limits (verdicts remaining) entries) ++
        if schema.length ≠ entries.length then [.rejected] else []
  | _ + 1, _, _ => [.crashed]

/-! ### The checks -/

/-- The computation ends as a list of verdicts tells. -/
abbrev Ends {α : Type} (verdicts : List Verdict) (x : Except Raised α) : Prop :=
  Fails Raised.verdict verdicts x

theorem ends_invalid {α : Type} (message : String) :
    Ends [.rejected] (invalid message : Except Raised α) := ⟨_, rfl, rfl⟩

theorem checkNumber_ends (value : Value) (output : String) :
    Ends (numberVerdicts limits value) (checkNumber limits value output) := by
  unfold numberVerdicts checkNumber
  split
  next => exact ends_invalid _
  next =>
    cases value with
    | float repr =>
      cases hplaces : decimalPlaces repr with
      | none => simpa [hplaces] using ⟨_, rfl, rfl⟩
      | some places =>
        simp only [hplaces]
        split
        next => exact ends_invalid _
        next => exact fails_ok _
    | _ => exact fails_ok _

theorem checkString_ends (value : Value) (output : String) :
    Ends (stringVerdicts limits value) (checkString limits value output) := by
  cases value with
  | none => exact fails_ok _
  | str s =>
    simp only [stringVerdicts, checkString]
    split
    next => exact ends_invalid _
    next => exact fails_ok _
  | list items =>
    simp only [stringVerdicts, checkString]
    split
    next => exact ends_invalid _
    next => exact ⟨_, rfl, rfl⟩
  | dict entries =>
    simp only [stringVerdicts, checkString]
    split
    next => exact ends_invalid _
    next => exact ⟨_, rfl, rfl⟩
  | bool b => exact ⟨_, rfl, rfl⟩
  | int n => exact ⟨_, rfl, rfl⟩
  | float repr => exact ⟨_, rfl, rfl⟩
  | file f => exact ⟨_, rfl, rfl⟩

theorem checkLength_ends (items : List Value) (limit : Int) (output : String) :
    Ends (lengthVerdicts items limit) (checkLength items limit output) := by
  unfold lengthVerdicts checkLength
  split
  next => exact ends_invalid _
  next => exact fails_ok _

variable {kinds : Value → List Verdict}

theorem mapM_zipIdx_ends {β : Type} {f : Value × Nat → Except Raised β}
    (items : List Value) (h : ∀ value ∈ items, ∀ i, Ends (kinds value) (f (value, i))) :
    Ends (items.flatMap kinds) (items.zipIdx.mapM f) := by
  have hflat : items.flatMap kinds = items.zipIdx.flatMap fun p => kinds p.1 := by
    conv_lhs => rw [← List.zipIdx_map_fst 0 items]
    rw [List.flatMap_map]
  rw [hflat]
  refine fails_mapM _ fun p hp => ?_
  exact h p.1 (List.fst_mem_of_mem_zipIdx hp) p.2

theorem checkAll_ends {f : Value → String → Except Raised Value}
    {output : String} (items : List Value)
    (h : ∀ value ∈ items, ∀ output, Ends (kinds value) (f value output)) :
    Ends (items.flatMap kinds) (checkAll f output items) :=
  (mapM_zipIdx_ends items fun value hvalue _ => h value hvalue _).bind_ok fun _ _ => ⟨(), rfl⟩

/-! ### Nested values -/

section Nested

variable {transform : Option Schema → Value → String → Except Raised Value}
  {inner : Option Schema → Value → List Verdict}

theorem checkList_ends (hinner : ∀ schema value path,
      Ends (inner schema value) (transform schema value path))
    (path name : String) (items : List Value) :
    Ends (listVerdicts limits inner items) (checkList limits transform path name items) := by
  unfold listVerdicts checkList
  split
  next => exact fails_ok _
  next first rest =>
    simp only []
    split
    next => exact fails_ok _
    next =>
      split
      next => exact checkAll_ends _ fun value _ output => checkNumber_ends limits value output
      next =>
        split
        next => exact checkAll_ends _ fun value _ output => checkString_ends limits value output
        next =>
          split
          next =>
            refine checkAll_ends _ fun value _ output => ?_
            split
            next => exact fails_ok _
            next => exact hinner none value output
          next => exact ends_invalid _

theorem checkUndeclared_ends (hinner : ∀ schema value path,
      Ends (inner schema value) (transform schema value path))
    (path : String) (entry : String × Value) :
    Ends (undeclaredVerdicts limits inner entry) (checkUndeclared limits transform path entry) := by
  obtain ⟨name, value⟩ := entry
  cases value with
  | none => exact fails_ok _
  | bool b => exact fails_ok _
  | int n => exact (checkNumber_ends limits _ _).map _
  | float repr => exact (checkNumber_ends limits _ _).map _
  | str s => exact (checkString_ends limits (.str s) (inside path name)).map _
  | list items => exact checkList_ends limits hinner path name items
  | dict entries => exact (hinner none _ _).map _
  | file f => exact ends_invalid _

theorem transformValue_ends (hinner : ∀ schema value path,
      Ends (inner schema value) (transform schema value path))
    (path name : String) (declared : Output) (value : Value) :
    Ends (valueVerdicts limits inner declared value)
      (transformValue limits transform path name declared value) := by
  obtain ⟨type, children⟩ := declared
  cases type with
  | object =>
    cases value with
    | none => exact fails_ok _
    | dict entries => exact hinner children (.dict entries) (path ++ "." ++ name)
    | _ => exact ends_invalid _
  | number =>
    change Ends (if nullOr Value.isNumber value then _ else _)
      (if nullOr Value.isNumber value then _ else _)
    split
    next => exact (checkNumber_ends limits value _).map _
    next => exact ends_invalid _
  | string =>
    change Ends (if nullOr Value.isText value then _ else _)
      (if nullOr Value.isText value then _ else _)
    split
    next => exact checkString_ends limits value _
    next => exact ends_invalid _
  | boolean => exact fails_ok _
  | arrayNumber =>
    cases value with
    | none => exact fails_ok _
    | list items =>
      refine (checkLength_ends items limits.maxNumberArrayLength _).bind fun _ _ => ?_
      refine (mapM_zipIdx_ends items fun value _ i => ?_).bind_ok fun checked _ => ⟨_, rfl⟩
      simp only []
      split
      next => exact checkNumber_ends limits value _
      next => exact ends_invalid _
    | _ => exact ends_invalid _
  | arrayString =>
    cases value with
    | none => exact fails_ok _
    | list items =>
      refine (checkLength_ends items limits.maxStringArrayLength _).bind fun _ _ => ?_
      exact (mapM_zipIdx_ends items fun value _ i =>
        checkString_ends limits value _).bind_ok fun checked _ => ⟨.list checked, rfl⟩
    | _ => exact ends_invalid _
  | arrayObject =>
    cases value with
    | none => exact fails_ok _
    | list items =>
      refine (checkLength_ends items limits.maxObjectArrayLength _).bind fun _ _ => ?_
      refine (mapM_zipIdx_ends items fun value _ i => ?_).bind fun _ _ => ?_
      · simp only []
        split
        next => exact fails_ok _
        next => exact ends_invalid _
      · refine (mapM_zipIdx_ends items fun value _ i => ?_).bind_ok fun _ _ => ⟨_, rfl⟩
        simp only []
        split
        next => exact fails_ok _
        next => exact hinner children value _
    | _ => exact ends_invalid _
  | arrayBoolean =>
    cases value with
    | none => exact fails_ok _
    | list items =>
      refine (mapM_zipIdx_ends items fun value _ i => ?_).bind_ok fun _ _ => ⟨_, rfl⟩
      simp only []
      split
      next => exact fails_ok _
      next => exact ends_invalid _
    | _ => exact ends_invalid _
  | _ => exact ends_invalid _

theorem transformField_ends (hinner : ∀ schema value path,
      Ends (inner schema value) (transform schema value path))
    (path : String) (entries : List (String × Value)) (field : String × Output) :
    Ends (fieldVerdicts limits inner entries field)
      (transformField limits transform path entries field) := by
  unfold fieldVerdicts transformField
  cases entries.lookup field.1 with
  | none => exact ends_invalid _
  | some value => exact (transformValue_ends limits hinner path field.1 field.2 value).map _

end Nested

theorem transformResult_ends (remaining : Nat) (schema? : Option Schema) (value : Value)
    (path : String) :
    Ends (verdicts limits remaining schema? value)
      (transformResult limits remaining schema? value path) := by
  induction remaining generalizing schema? value path with
  | zero => exact ⟨_, rfl, rfl⟩
  | succ remaining ih =>
    cases value with
    | dict entries =>
      cases schema? with
      | none =>
        exact (fails_mapM _ fun entry _ => checkUndeclared_ends limits ih path entry).bind_ok
          fun _ _ => ⟨.dict entries, rfl⟩
      | some schema =>
        refine (fails_mapM _ fun field _ =>
          transformField_ends limits ih path entries field).bind fun outputs _ => ?_
        split
        next => exact ⟨_, rfl, rfl⟩
        next => exact fails_ok _
    | _ => exact ⟨_, rfl, rfl⟩

end PlatformSpec.CodeNode
