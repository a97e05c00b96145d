import PlatformSpec.CodeNode.Verdicts

/-!
# Soundness of output validation

What a conforming output is, at every depth, and when `_transform_result` returns one or raises a
`CodeNodeError`. A declared boolean is returned as it is, and so is an object without a schema.
-/

namespace PlatformSpec.CodeNode

open Base Base.Failures DraftVariable

variable (limits : CodeNodeLimits)

/-! ### Conforming outputs -/

/-- A number in range, with no more decimal places than allowed. -/
structure NumberConforms (value : Value) : Prop where
  isNumber : value.isNumber = true
  inRange : outOfRange limits value = false
  precise : ∀ repr, value = .float repr →
    ∃ places, decimalPlaces repr = some places ∧ places ≤ limits.maxPrecision

/-- A text that is not too long, without NUL characters. -/
def StringConforms (value : Value) : Prop :=
  ∃ s, value = .str s ∧ s.length ≤ limits.maxStringLength ∧ Char.ofNat 0 ∉ s.toList

/-- `None`, or a value with a property. -/
def Nullable (p : Value → Prop) (value : Value) : Prop := value = .none ∨ p value

/-- A list no longer than allowed whose elements have a property or are `None`. -/
def ListOf (limit : Int) (p : Value → Prop) (value : Value) : Prop :=
  ∃ items, value = .list items ∧ items.length ≤ limit ∧ ∀ item ∈ items, Nullable p item

section Nested

variable (inner : Option Schema → Value → Prop)

/-- A list without a declared type has elements of one type. -/
def ElementsConform (items : List Value) : Prop :=
  ListOf limits.maxNumberArrayLength (NumberConforms limits) (.list items) ∨
    ListOf limits.maxStringArrayLength (StringConforms limits) (.list items) ∨
    ListOf limits.maxObjectArrayLength (fun item => item.isDict = true ∧ inner none item)
      (.list items) ∨
    ∀ item ∈ items, Nullable (fun item => item.isList = true ∧ inner none item) item

/-- A value without a declared type. -/
def UndeclaredConforms : Value → Prop
  | .none | .bool _ => True
  | .int n => NumberConforms limits (.int n)
  | .float repr => NumberConforms limits (.float repr)
  | .str s => StringConforms limits (.str s)
  | .dict entries => inner none (.dict entries)
  | .list items => ElementsConform limits inner items
  | .file _ => False

/-- A number that is not a boolean. -/
def PlainNumber (value : Value) : Prop := NumberConforms limits value ∧ value.isBool = false

/-- A value of a declared type, `None` aside. -/
def DeclaredConforms (declared : Output) (value : Value) : Prop :=
  match declared.type with
  | .object => value.isDict = true ∧ inner declared.children value
  | .number => PlainNumber limits value
  | .string => StringConforms limits value
  | .boolean => value.isBool = true
  | .arrayNumber => ListOf limits.maxNumberArrayLength (PlainNumber limits) value
  | .arrayString => ListOf limits.maxStringArrayLength (StringConforms limits) value
  | .arrayObject => ListOf limits.maxObjectArrayLength
      (fun item => item.isDict = true ∧ inner declared.children item) value
  | .arrayBoolean => ∃ items, value = .list items ∧
      ∀ item ∈ items, Nullable (fun item => item.isBool = true) item
  | _ => False

end Nested

/-- The value conforms to the schema at every depth, of which a number is left. -/
def Conforms : Nat → Option Schema → Value → Prop
  | 0, _, _ => False
  | remaining + 1, none, .dict entries =>
    ∀ entry ∈ entries, UndeclaredConforms limits (Conforms remaining) entry.2
  | remaining + 1, none, .list items => ElementsConform limits (Conforms remaining) items
  | remaining + 1, some schema, .dict entries =>
    List.Forall₂ (fun field entry => field.1 = entry.1 ∧
      Nullable (DeclaredConforms limits (Conforms remaining) field.2) entry.2) schema entries
  | _ + 1, _, _ => False

/-! ### What is returned without a check -/

/-- The parts of a value of a declared type that are returned as they are conform. -/
def ValuePassed (inner : Option Schema → Value → Prop) (declared : Output) (value : Value) :
    Prop :=
  match declared.type, value with
  | .boolean, value => nullOr Value.isBool value = true
  | .object, .dict entries => inner declared.children (.dict entries)
  | .arrayObject, .list items =>
    ∀ item ∈ items, item.isDict = true → inner declared.children item
  | _, _ => True

/-- Every declared boolean is one or `None`, and every object without a schema conforms. -/
def Passed : Nat → Option Schema → Value → Prop
  | remaining + 1, some schema, .dict entries =>
    ∀ field ∈ schema, ∀ value, entries.lookup field.1 = some value →
      ValuePassed (Passed remaining) field.2 value
  | remaining, _, value => Conforms limits remaining none value

/-! ### Checked values -/

variable {value value' : Value}

theorem nullOr_iff {check : Value → Bool} :
    nullOr check value = true ↔ Nullable (fun value => check value = true) value := by
  unfold nullOr Nullable
  rw [Bool.or_eq_true]
  refine or_congr_left ?_
  cases value <;> simp [Value.isNone]

variable {output : String}

theorem checkNumber_ok (h : checkNumber limits value output = .ok value') :
    value' = value ∧ (value.isNumber = true → NumberConforms limits value) := by
  unfold checkNumber at h
  split at h
  next => cases h
  next hrange =>
    have hinRange : outOfRange limits value = false := Bool.eq_false_iff.mpr hrange
    cases value with
    | float repr =>
      cases hplaces : decimalPlaces repr with
      | none => simp [hplaces] at h
      | some places =>
        simp only [hplaces] at h
        split at h
        next => cases h
        next hprecise =>
          cases h
          refine ⟨rfl, fun hnumber => ⟨hnumber, hinRange, fun repr' hrepr => ?_⟩⟩
          cases hrepr
          exact ⟨places, hplaces, not_lt.mp hprecise⟩
    | _ =>
      cases h
      exact ⟨rfl, fun hnumber => ⟨hnumber, hinRange, nofun⟩⟩

theorem checkString_ok (h : checkString limits value output = .ok value') :
    Nullable (StringConforms limits) value' := by
  cases value with
  | none =>
    cases h
    exact .inl rfl
  | str s =>
    simp only [checkString] at h
    split at h
    next => cases h
    next hlength =>
      cases h
      refine .inr ⟨withoutNul s, rfl, ?_, ?_⟩
      · have hle : (withoutNul s).length ≤ s.length := by
          simp only [withoutNul, String.length_ofList]
          exact List.length_filter_le _ _
        omega
      · simp [withoutNul]
  | list items =>
    simp only [checkString, tooLong, invalid] at h
    split at h <;> cases h
  | dict entries =>
    simp only [checkString, tooLong, invalid] at h
    split at h <;> cases h
  | _ => cases h

theorem plainNumber_convert (h : NumberConforms limits value) :
    PlainNumber limits (convertBooleanToInt value) := by
  cases value with
  | bool b => exact ⟨⟨rfl, h.inRange, nofun⟩, rfl⟩
  | int n => exact ⟨h, rfl⟩
  | float repr => exact ⟨h, rfl⟩
  | _ => cases h.isNumber

theorem checkLength_ok {items : List Value} {limit : Int} {u : Unit}
    (h : checkLength items limit output = .ok u) : items.length ≤ limit := by
  unfold checkLength at h
  split at h
  next => cases h
  next hlength => exact not_lt.mp hlength

theorem listOf_of_mapM {f : Value × Nat → Except Raised Value} {items items' : List Value}
    {p : Value → Prop} {limit : Int} (hlength : items.length ≤ limit)
    (h : items.zipIdx.mapM f = .ok items')
    (hp : ∀ value i value', f (value, i) = .ok value' → Nullable p value') :
    ListOf limit p (.list items') := by
  have hall := Result.mapM_zipIdx_eq_ok h
  refine ⟨items', rfl, by rwa [← hall.length_eq], ?_⟩
  refine (Result.forall_mem_right_iff (p := fun _ => True) hall ?_).mpr fun _ _ => trivial
  rintro value - value' ⟨i, hvalue⟩
  exact iff_true_intro (hp value i value' hvalue)

/-! ### Values of a declared type -/

section Nested

variable {transform : Option Schema → Value → String → Except Raised Value}
  {conforms passed : Option Schema → Value → Prop}

/-- A value of a declared type that is returned conforms exactly if what of it is returned without
a check does. -/
theorem transformValue_ok (hinner : ∀ schema value path value',
      transform schema value path = .ok value' →
        value'.isDict = true ∧ (conforms schema value' ↔ passed schema value))
    {path name : String} {declared : Output} {value value' : Value}
    (h : transformValue limits transform path name declared value = .ok value') :
    Nullable (DeclaredConforms limits conforms declared) value' ↔
      ValuePassed passed declared value := by
  obtain ⟨type, children⟩ := declared
  cases type with
  | object =>
    cases value with
    | none =>
      cases h
      exact iff_of_true (.inl rfl) trivial
    | dict entries =>
      obtain ⟨hdict, hconforms⟩ := hinner children (.dict entries) (path ++ "." ++ name) value' h
      refine Iff.trans ⟨?_, fun hv => .inr ⟨hdict, hv⟩⟩ hconforms
      rintro (rfl | hv)
      · cases hdict
      · exact hv.2
    | _ => cases h
  | number =>
    refine iff_of_true ?_ trivial
    change (if nullOr Value.isNumber value then
      (checkNumber limits value (inside path name)).map convertBooleanToInt else _) = _ at h
    split at h
    next hnumber =>
      obtain ⟨checked, hchecked, rfl⟩ := Result.map_eq_ok.mp h
      obtain ⟨rfl, hconforms⟩ := checkNumber_ok limits hchecked
      rcases nullOr_iff.mp hnumber with rfl | hnumber
      · exact .inl rfl
      · exact .inr (plainNumber_convert limits (hconforms hnumber))
    next => cases h
  | string =>
    refine iff_of_true ?_ trivial
    change (if nullOr Value.isText value then checkString limits value (inside path name)
      else _) = _ at h
    split at h
    next => exact checkString_ok limits h
    next => cases h
  | boolean =>
    cases h
    exact nullOr_iff.symm
  | arrayNumber =>
    refine iff_of_true ?_ trivial
    cases value with
    | none =>
      cases h
      exact .inl rfl
    | list items =>
      obtain ⟨_, hlength, hrest⟩ := Result.bind_eq_ok.mp h
      obtain ⟨checked, hchecked, hlist⟩ := Result.bind_eq_ok.mp hrest
      cases hlist
      have hnumbers := Result.mapM_zipIdx_eq_ok hchecked
      refine .inr ⟨_, rfl, ?_, ?_⟩
      · rw [List.length_map, ← hnumbers.length_eq]
        exact checkLength_ok hlength
      · refine List.forall_mem_map.mpr ((Result.forall_mem_right_iff (p := fun _ => True) hnumbers
          ?_).mpr fun _ _ => trivial)
        rintro value - value' ⟨i, hvalue⟩
        refine iff_true_intro (.inr ?_)
        simp only [] at hvalue
        split at hvalue
        next hnumber =>
          obtain ⟨rfl, hconforms⟩ := checkNumber_ok limits hvalue
          exact plainNumber_convert limits (hconforms hnumber)
        next => cases hvalue
    | _ => cases h
  | arrayString =>
    refine iff_of_true ?_ trivial
    cases value with
    | none =>
      cases h
      exact .inl rfl
    | list items =>
      obtain ⟨_, hlength, hrest⟩ := Result.bind_eq_ok.mp h
      obtain ⟨checked, hchecked, hlist⟩ := Result.bind_eq_ok.mp hrest
      cases hlist
      exact .inr (listOf_of_mapM (checkLength_ok hlength) hchecked fun value i value' hvalue =>
        checkString_ok limits hvalue)
    | _ => cases h
  | arrayObject =>
    cases value with
    | none =>
      cases h
      exact iff_of_true (.inl rfl) trivial
    | list items =>
      obtain ⟨_, hlength, hrest⟩ := Result.bind_eq_ok.mp h
      obtain ⟨objects, hobjects, hrest'⟩ := Result.bind_eq_ok.mp hrest
      obtain ⟨transformed, htransformed, hlist⟩ := Result.bind_eq_ok.mp hrest'
      cases hlist
      have hall := Result.mapM_zipIdx_eq_ok htransformed
      -- the first loop has passed, so every element is an object or `None`
      have hnull : ∀ item ∈ items, nullOr Value.isDict item = true := by
        refine (Result.forall_mem_right_iff (q := fun _ => True)
          (Result.mapM_zipIdx_eq_ok hobjects) ?_).mp fun _ _ => trivial
        rintro item - _ ⟨i, hitem⟩
        simp only [] at hitem
        split at hitem
        next hdict => exact (iff_true_intro hdict).symm
        next => cases hitem
      have helements : (∀ item ∈ transformed, Nullable (fun item => item.isDict = true ∧
            conforms children item) item) ↔
          ∀ item ∈ items, item.isDict = true → passed children item := by
        refine Result.forall_mem_right_iff hall ?_
        rintro item hitem item' ⟨i, hvalue⟩
        rcases nullOr_iff.mp (hnull item hitem) with rfl | hdict
        · cases hvalue
          exact iff_of_true (.inl rfl) nofun
        · cases item with
          | dict entries =>
            obtain ⟨hdict', hconforms⟩ := hinner children _ _ item' hvalue
            refine Iff.trans ⟨?_, fun hv => .inr ⟨hdict', hv⟩⟩
              (hconforms.trans ⟨fun hv _ => hv, fun hv => hv rfl⟩)
            rintro (rfl | hv)
            · cases hdict'
            · exact hv.2
          | _ => cases hdict
      refine Iff.trans ⟨?_, fun hv => .inr ⟨transformed, rfl, ?_, hv⟩⟩ helements
      · rintro (hnone | ⟨items', hitems', -, hv⟩)
        · cases hnone
        · cases hitems'
          exact hv
      · rw [← hall.length_eq]
        exact checkLength_ok hlength
    | _ => cases h
  | arrayBoolean =>
    refine iff_of_true ?_ trivial
    cases value with
    | none =>
      cases h
      exact .inl rfl
    | list items =>
      obtain ⟨checked, hchecked, hlist⟩ := Result.bind_eq_ok.mp h
      cases hlist
      refine .inr ⟨checked, rfl, (Result.forall_mem_right_iff (p := fun _ => True)
        (Result.mapM_zipIdx_eq_ok hchecked) ?_).mpr fun _ _ => trivial⟩
      rintro value - value' ⟨i, hvalue⟩
      simp only [] at hvalue
      split at hvalue
      next hbool =>
        cases hvalue
        exact iff_true_intro (nullOr_iff.mp hbool)
      next => cases hvalue
    | _ => cases h
  | _ => cases h

end Nested

/-- A result that is returned conforms exactly if what of it is returned without a check does. -/
theorem transformResult_ok {remaining : Nat} {schema? : Option Schema}
    {path : String} (h : transformResult limits remaining schema? value path = .ok value') :
    value'.isDict = true ∧
      (Conforms limits remaining schema? value' ↔ Passed limits remaining schema? value) := by
  induction remaining generalizing schema? value value' path with
  | zero => cases h
  | succ remaining ih =>
    cases value with
    | dict entries =>
      cases schema? with
      | none =>
        obtain ⟨_, -, hreturned⟩ := Result.bind_eq_ok.mp h
        cases hreturned
        exact ⟨rfl, Iff.rfl⟩
      | some schema =>
        obtain ⟨outputs, houtputs, hreturned⟩ := Result.bind_eq_ok.mp h
        split at hreturned
        next => cases hreturned
        next =>
          cases hreturned
          refine ⟨rfl, Result.forall₂_iff (Result.mapM_eq_ok.mp houtputs) ?_⟩
          intro field _ output hfield
          unfold transformField at hfield
          cases hlookup : entries.lookup field.1 with
          | none =>
            rw [hlookup] at hfield
            cases hfield
          | some value =>
            rw [hlookup] at hfield
            obtain ⟨transformed, htransformed, rfl⟩ := Result.map_eq_ok.mp hfield
            have hinner : ∀ schema value path value',
                transformResult limits remaining schema value path = .ok value' →
                  value'.isDict = true ∧ (Conforms limits remaining schema value' ↔
                    Passed limits remaining schema value) := fun _ _ _ _ h => ih h
            have hvalue := transformValue_ok limits hinner htransformed
            rw [and_iff_right rfl, hvalue]
            exact ⟨fun hv w hw => by cases hw; exact hv, fun hv => hv value rfl⟩
    | _ => cases schema? <;> cases h

/-! ### Soundness and totality -/

/-- What is returned conforms to the schema, and what is raised is a `CodeNodeError`. -/
def Sound (schema? : Option Schema) (result : List (String × Value)) : Prop :=
  match transform limits schema? result with
  | .ok outputs => Conforms limits limits.maxDepth.toNat schema? outputs
  | .error e => e.verdict = .rejected

/-- For every result and every schema: the first value that does not pass is one that a check
rejects, or every value passes and what is returned without a check conforms. -/
theorem sound_iff (schema? : Option Schema) (result : List (String × Value)) :
    Sound limits schema? result ↔
      (verdicts limits limits.maxDepth.toNat schema? (.dict result)).head? = some .rejected ∨
      verdicts limits limits.maxDepth.toNat schema? (.dict result) = [] ∧
        Passed limits limits.maxDepth.toNat schema? (.dict result) := by
  have hends := transformResult_ends limits limits.maxDepth.toNat schema? (.dict result) ""
  unfold Sound transform
  cases hresult : transformResult limits limits.maxDepth.toNat schema? (.dict result) "" with
  | ok outputs =>
    have hnil := hends.eq_nil hresult
    simp [hnil, (transformResult_ok limits hresult).2]
  | error e =>
    rw [hresult] at hends
    cases hverdicts : verdicts limits limits.maxDepth.toNat schema? (.dict result) with
    | nil =>
      rw [hverdicts] at hends
      obtain ⟨_, hok⟩ := hends
      cases hok
    | cons verdict verdicts =>
      rw [hverdicts] at hends
      obtain ⟨_, hraised, rfl⟩ := hends
      cases hraised
      simp

/-- The limits of the default configuration. -/
def defaultLimits : CodeNodeLimits where
  maxStringLength := 400000
  maxNumber := .int 9223372036854775807
  minNumber := .int (-9223372036854775807)
  maxPrecision := 20
  maxDepth := 5
  maxNumberArrayLength := 1000
  maxStringArrayLength := 30
  maxObjectArrayLength := 30

/-- A text is returned for a declared boolean. -/
theorem boolean_unchecked :
    ¬ Sound defaultLimits (some [("flag", .mk .boolean none)]) [("flag", .str "yes")] := by
  intro h
  have hreturned : Conforms defaultLimits 5 (some [("flag", .mk .boolean none)])
    (.dict [("flag", .str "yes")]) := h
  obtain ⟨⟨-, hflag⟩, -⟩ := List.forall₂_cons.mp hreturned
  rcases hflag with hnone | hbool
  · cases hnone
  · cases hbool

end PlatformSpec.CodeNode
