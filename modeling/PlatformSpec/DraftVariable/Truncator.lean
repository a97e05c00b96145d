import Mathlib.Data.List.Sort
import Mathlib.Order.Basic
import PlatformSpec.DraftVariable.Segment

/-!
# Truncation

Models `VariableTruncator.truncate` of `services/variable_truncator.py`. Sizes are asked for only
of values that are not nested deeply, so that the limit on their depth plays no role.
-/

namespace PlatformSpec.DraftVariable

/-- `_PartResult`. -/
structure PartResult (α : Type) where
  value : α
  valueSize : Int
  truncated : Bool

/-- The size of parts with a comma between two of them and brackets around them. -/
def bracketed (sizes : List Int) : Int := 2 + sizes.sum + (sizes.length - 1 : Nat)

/-- `calculate_json_size` of a string. -/
def stringSize (s : String) : Int := s.length + 2

/-- `calculate_json_size` of a value without parts. -/
def Value.leafSize : Value → Int
  | .str s => stringSize s
  | .int n => (toString n).length
  | .float repr => repr.length
  | .bool true => 4
  | .bool false => 5
  | _ => 4

/-- `calculate_json_size` of a dictionary whose values have no parts. -/
def entriesSize (entries : List (String × Value)) : Int :=
  bracketed (entries.map fun entry => stringSize entry.1 + 1 + entry.2.leafSize)

/-- `calculate_json_size` of a file: that of its dump. -/
def File.jsonSize (f : File) : Int := entriesSize f.fields

/-- `calculate_json_size`, of a value without parts, a file or a list of such. -/
def Value.jsonSize : Value → Int
  | .file f => f.jsonSize
  | .list items =>
    bracketed (items.map fun
      | .file f => f.jsonSize
      | item => item.leafSize)
  | value => value.leafSize

/-- The limits of a truncator. -/
structure VariableTruncator where
  stringLengthLimit : Nat
  arrayElementLimit : Nat
  maxSizeBytes : Nat
  string_large : 3 < stringLengthLimit
  array_positive : 0 < arrayElementLimit
  size_positive : 0 < maxSizeBytes

namespace VariableTruncator

variable (t : VariableTruncator)

/-- `_truncate_string`. -/
def truncateString (value : String) (targetSize : Int) : PartResult String :=
  if stringSize value < targetSize then ⟨value, stringSize value, false⟩
  else if targetSize < 5 then ⟨"...", 5, true⟩
  else
    let size := min (t.stringLengthLimit : Int) (targetSize - 5)
    let truncated := String.ofList (value.toList.take size.toNat) ++ "..."
    ⟨truncated, stringSize truncated, true⟩

/-- The loop of `_truncate_object`, over what the values are truncated to, in the order of their
keys. -/
def truncateEntries (targetSize : Int) :
    Nat → List (String × (Int → PartResult Value)) → Int → Bool → PartResult (List (String × Value))
  | _, [], usedSize, truncated => ⟨[], usedSize, truncated⟩
  | i, (key, truncate) :: entries, usedSize, truncated =>
    let pairSize := (if 0 < i then 1 else 0) + (stringSize key + 1)
    let valueBudget := max 0 ((targetSize - pairSize - usedSize) / (entries.length + 1))
    if targetSize < usedSize then ⟨[], usedSize, true⟩
    else if valueBudget ≤ 0 then ⟨[], usedSize, true⟩
    else
      let value := truncate valueBudget
      let rest := truncateEntries targetSize (i + 1) entries
        (usedSize + (pairSize + value.valueSize)) (truncated || value.truncated)
      ⟨(key, value.value) :: rest.value, rest.valueSize, rest.truncated⟩

mutual

/-- `_truncate_json_primitives`. -/
def truncateJsonPrimitives : Value → Int → PartResult Value
  | .str s, targetSize =>
    let result := t.truncateString s targetSize
    ⟨.str result.value, result.valueSize, result.truncated⟩
  | .list items, targetSize =>
    let result := truncateItems targetSize 0 items 2 false
    ⟨.list result.value, result.valueSize, result.truncated⟩
  | .dict entries, targetSize =>
    let result := truncateEntries targetSize 0
      ((truncations entries).insertionSort fun a b => a.1 ≤ b.1) 2 false
    ⟨.dict result.value, result.valueSize, result.truncated⟩
  | value, _ => ⟨value, value.jsonSize, false⟩

/-- The loop of `_truncate_array`: files are kept as they are; whether the array counts as
truncated is what the last element says. -/
def truncateItems (targetSize : Int) :
    Nat → List Value → Int → Bool → PartResult (List Value)
  | _, [], usedSize, truncated => ⟨[], usedSize, truncated⟩
  | i, item :: items, usedSize, truncated =>
    let rest := truncateItems targetSize (i + 1) items
    match item with
    | .file f =>
      let rest := rest usedSize truncated
      ⟨.file f :: rest.value, rest.valueSize, rest.truncated⟩
    | item =>
      let used := usedSize + (if 0 < i then 1 else 0)
      if t.arrayElementLimit ≤ i then ⟨[], usedSize, true⟩
      else if targetSize < used then ⟨[], used, truncated⟩
      else
        let part := truncateJsonPrimitives item (targetSize - used)
        let rest := rest (used + part.valueSize) part.truncated
        ⟨part.value :: rest.value, rest.valueSize, rest.truncated⟩

/-- What each value of a dictionary is truncated to, by the size it is given. -/
def truncations : List (String × Value) → List (String × (Int → PartResult Value))
  | [] => []
  | (key, value) :: entries => (key, truncateJsonPrimitives value) :: truncations entries

end

/-- `_truncate_segment`: `none` for a group of segments, on which the source raises. -/
def truncateSegment (segment : Segment) (targetSize : Int) : Option (PartResult Value) :=
  match segment.valueType with
  | .none | .float | .integer | .file | .boolean | .arrayFile =>
    some ⟨segment.value, segment.value.jsonSize, false⟩
  | .number | .group => none
  | .string | .secret | .object | .arrayAny | .arrayString | .arrayNumber | .arrayObject
  | .arrayBoolean => some (t.truncateJsonPrimitives segment.value targetSize)

end VariableTruncator

/-- `TruncationResult`: the type and the value of a segment, and whether it is cut. -/
structure TruncationResult where
  valueType : SegmentType
  value : Value
  truncated : Bool

/-- `VariableTruncator.truncate`: what is too large still becomes a part of its text. -/
def VariableTruncator.truncate (t : VariableTruncator) (lib : Libraries) (segment : Segment) :
    Option TruncationResult := do
  let targetSize :=
    match segment.valueType with
    | .string | .secret => t.stringLengthLimit
    | _ => t.maxSizeBytes
  let result ← t.truncateSegment segment targetSize
  if t.maxSizeBytes < result.valueSize then
    let json ← dumpsWithSegments segment.valueType result.value
    let text := lib.text json
    some ⟨.string, .str (if t.maxSizeBytes < text.length then
      String.ofList (text.toList.take t.maxSizeBytes) ++ "..." else text), true⟩
  else some ⟨segment.valueType, result.value, result.truncated⟩

end PlatformSpec.DraftVariable
