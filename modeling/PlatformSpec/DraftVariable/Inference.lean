import PlatformSpec.DraftVariable.Decoding

/-!
# Inferred and built types

`SegmentType.is_valid` of `dify_graph/variables/types.py`, and the three ways to classify a value:
the type that is inferred, the type of the segment that is built, and the types under which the
value is valid. They agree for every value but the empty list, for which the first two differ.
-/

namespace PlatformSpec.DraftVariable

/-- `ArrayValidation`. -/
inductive ArrayValidation where
  | none
  | first
  | all
  deriving DecidableEq

namespace SegmentType

/-- `_ARRAY_ELEMENT_TYPES_MAPPING`. -/
def elementType? : SegmentType → Option SegmentType
  | .arrayString => some .string
  | .arrayNumber => some .number
  | .arrayObject => some .object
  | .arrayFile => some .file
  | .arrayBoolean => some .boolean
  | _ => Option.none

/-- `is_valid` of a type that is not one of arrays; no value here is a segment. -/
def isValidScalar : SegmentType → Value → Bool
  | .boolean, .bool _ => true
  | .integer, .int _ | .integer, .float _ | .integer, .bool _ => true
  | .float, .int _ | .float, .float _ | .float, .bool _ => true
  | .number, .int _ | .number, .float _ | .number, .bool _ => true
  | .string, .str _ => true
  | .object, .dict _ => true
  | .secret, .str _ => true
  | .file, .file _ => true
  | .none, .none => true
  | .group, .list items => items.isEmpty
  | _, _ => false

/-- `_validate_array`. -/
def validateArray (type : SegmentType) (value : Value) (validation : ArrayValidation) : Bool :=
  match value with
  | .list [] => true
  | .list (first :: items) =>
    match type.elementType? with
    -- an array of anything
    | Option.none => true
    | some element =>
      match validation with
      | .none => true
      | .first => element.isValidScalar first
      | .all => (first :: items).all element.isValidScalar
  | _ => false

/-- `is_valid`. -/
def isValid (type : SegmentType) (value : Value) (validation : ArrayValidation := .all) : Bool :=
  if type.isArrayType then type.validateArray value validation else type.isValidScalar value

theorem isValidScalar_of_accepts {type element : SegmentType}
    (helement : type.elementType? = some element) {items : List Value}
    (h : type.accepts (.list items) = true) : items.all element.isValidScalar = true := by
  refine List.all_eq_true.mpr fun item hitem => ?_
  cases type <;> cases helement <;>
    (simp only [accepts, List.all_eq_true] at h
     have hitem := h item hitem
     cases item <;> first | rfl | cases hitem)

theorem isValid_of_accepts {type : SegmentType} {value : Value}
    (h : type.accepts value = true) (hgroup : type ≠ .group) : type.isValid value = true := by
  cases value with
  | list items =>
    cases items with
    | nil => cases type <;> first | rfl | cases h
    | cons first items =>
      cases type with
      | arrayString => exact isValidScalar_of_accepts rfl h
      | arrayNumber => exact isValidScalar_of_accepts rfl h
      | arrayObject => exact isValidScalar_of_accepts rfl h
      | arrayFile => exact isValidScalar_of_accepts rfl h
      | arrayBoolean => exact isValidScalar_of_accepts rfl h
      | arrayAny => rfl
      | group => exact absurd rfl hgroup
      | _ => cases h
  | _ => cases type <;> first | rfl | cases h

theorem exists_buildArray {types : List SegmentType} (h : ∀ t ∈ types, t ≠ .secret ∧ t ≠ .group) :
    ∃ t, buildArray types = some t ∧ t ≠ .secret ∧ t ≠ .group := by
  have hmixed : ∀ l, arrayOfMixed l ≠ .secret ∧ arrayOfMixed l ≠ .group := by
    intro l
    unfold arrayOfMixed
    split <;> simp
  unfold buildArray
  split
  next => exact ⟨_, rfl, by simp⟩
  next hall =>
    split
    next => exact ⟨_, rfl, hmixed _⟩
    next t types =>
      split
      next heq =>
        -- one type, which is not one of arrays
        have ht : t.isArrayType = false := by
          by_contra harr
          refine hall (List.all_eq_true.mpr (List.forall_mem_cons.mpr ⟨by simpa using harr, ?_⟩))
          intro u hu
          rw [of_decide_eq_true (List.all_eq_true.mp heq u hu)]
          simpa using harr
        obtain ⟨hsecret, hgroup⟩ := h t List.mem_cons_self
        cases t with
        | secret => exact absurd rfl hsecret
        | group => exact absurd rfl hgroup
        | _ => first | exact ⟨_, rfl, by simp⟩ | cases ht
      next => exact ⟨_, rfl, hmixed _⟩

end SegmentType

mutual

theorem Value.exists_buildType : ∀ v : Value,
    ∃ t, v.buildType = some t ∧ t ≠ .secret ∧ t ≠ .group
  | .list items => by
    obtain ⟨types, htypes, hplain⟩ := Value.exists_buildTypes items
    unfold Value.buildType
    rw [htypes, Option.bind_some]
    exact SegmentType.exists_buildArray hplain
  | .none => ⟨_, rfl, by simp⟩
  | .bool _ => ⟨_, rfl, by simp⟩
  | .int _ => ⟨_, rfl, by simp⟩
  | .float _ => ⟨_, rfl, by simp⟩
  | .str _ => ⟨_, rfl, by simp⟩
  | .dict _ => ⟨_, rfl, by simp⟩
  | .file _ => ⟨_, rfl, by simp⟩

theorem Value.exists_buildTypes : ∀ items : List Value,
    ∃ types, Value.buildTypes items = some types ∧ ∀ t ∈ types, t ≠ .secret ∧ t ≠ .group
  | [] => ⟨[], rfl, by simp⟩
  | item :: items => by
    obtain ⟨t, ht, hplain⟩ := Value.exists_buildType item
    obtain ⟨types, htypes, hrest⟩ := Value.exists_buildTypes items
    refine ⟨t :: types, ?_, List.forall_mem_cons.mpr ⟨hplain, hrest⟩⟩
    rw [Value.buildTypes, ht, htypes]
    rfl

end

/-- Every value has an inferred type and a segment, and is valid under the type. The segment has
that type unless the value is the empty list: then an array of numbers is inferred and an array of
anything is built. -/
theorem infer_agrees_with_build (v : Value) : ∃ t segment,
    v.inferSegmentType = some t ∧ Segment.build v = some segment ∧ segment.value = v ∧
      (v ≠ .list [] → segment.valueType = t) ∧
      (v = .list [] → t = .arrayNumber ∧ segment.valueType = .arrayAny) ∧
      t.isValid v = true := by
  obtain ⟨built, hbuilt, hsecret, hgroup⟩ := v.exists_buildType
  obtain ⟨t, ht, hsame⟩ := exists_infer_of_buildType hbuilt
  have hvalid : t.isValid v = true :=
    SegmentType.isValid_of_accepts (Value.accepts_of_infer ht) (Value.HasType.ne (.inl ht)).2.2
  by_cases hempty : v = .list []
  · subst hempty
    cases hbuilt
    cases ht
    exact ⟨_, _, rfl, rfl, rfl, fun hne => absurd rfl hne, fun _ => ⟨rfl, rfl⟩, hvalid⟩
  · obtain rfl := hsame hempty
    have haccepts := Value.accepts_of_infer ht
    refine ⟨t, ⟨t, v, haccepts⟩, ht, ?_, rfl, fun _ => rfl, fun he => absurd he hempty, hvalid⟩
    unfold Segment.build
    rw [hbuilt]
    exact dif_pos haccepts

/-- The empty list is inferred to be an array of numbers and built as an array of anything. -/
theorem infer_differs_from_build : ¬ ∀ v : Value,
    (v.inferSegmentType.isSome = true ↔ (Segment.build v).isSome = true) ∧
      v.inferSegmentType = (Segment.build v).map Segment.valueType := by
  intro h
  have hinfer : (Value.list []).inferSegmentType = some .arrayNumber := rfl
  have hbuild : (Segment.build (.list [])).map Segment.valueType = some .arrayAny := rfl
  have hsame := (h (.list [])).2
  rw [hinfer, hbuild] at hsame
  cases hsame

end PlatformSpec.DraftVariable
