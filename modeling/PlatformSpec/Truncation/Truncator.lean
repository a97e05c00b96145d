import PlatformSpec.Truncation.Datum

/-!
# Truncation of data

Models `VariableTruncator` of `services/variable_truncator.py` on the data of a run, with
`truncate_variable_mapping`. What raises returns `none`.
-/

namespace PlatformSpec.Truncation

open DraftVariable

/-- `_segment_need_truncation`. -/
def segmentNeedTruncation : SegmentType → Bool
  | .none | .float | .integer | .file | .boolean | .arrayFile => false
  | _ => true

/-- What `_truncate_segment` finds in an array, a string or an object segment. -/
def holdsParts : SegmentType → Datum → Bool
  | .string, .str _ | .secret, .str _ | .object, .dict _ => true
  | .arrayAny, .list _ | .arrayString, .list _ | .arrayNumber, .list _ | .arrayObject, .list _
  | .arrayBoolean, .list _ => true
  | _, _ => false

/-- A comma, unless it is the first. -/
def comma (i : Nat) : Int := if 0 < i then 1 else 0

/-- The part of the budget of `_truncate_object` for the value of a key. -/
def valueBudget (targetSize usedSize : Int) (i remaining : Nat) (key : String) : Int :=
  max 0 ((targetSize - (comma i + (stringSize key + 1)) - usedSize) / remaining)

/-- A part with another value. -/
def withValue {α β : Type} (f : α → β) (part : PartResult α) : PartResult β :=
  ⟨f part.value, part.valueSize, part.truncated⟩

variable (t : VariableTruncator)

/-- The loop of `_truncate_object`, over the sorted keys with what their values are truncated to by
the size that they are given. -/
def truncateEntries (targetSize : Int) :
    Nat → List (String × (Int → Option (PartResult Datum))) → Int → Bool →
      Option (PartResult (List (String × Datum)))
  | _, [], usedSize, truncated => some ⟨[], usedSize, truncated⟩
  | i, (key, truncate) :: entries, usedSize, truncated =>
    let budget := valueBudget targetSize usedSize i (entries.length + 1) key
    if targetSize < usedSize ∨ budget ≤ 0 then some ⟨[], usedSize, true⟩
    else do
      let part ← truncate budget
      let rest ← truncateEntries targetSize (i + 1) entries
        (usedSize + (comma i + (stringSize key + 1) + part.valueSize)) (truncated || part.truncated)
      return withValue ((key, part.value) :: ·) rest

mutual

/-- `_truncate_json_primitives`, and where segments are accepted `_truncate_segment` for these. -/
def truncateDatum : Bool → Datum → Int → Option (PartResult Datum)
  | _, .updated dump, targetSize =>
    (truncateEntries targetSize 0 (sorted (truncations dump)) 2 false).map (withValue .dict)
  | _, .str s, targetSize => some (withValue .str (t.truncateString s targetSize))
  | _, .list items, targetSize =>
    (truncateItems targetSize 0 items 2 false).map (withValue .list)
  | _, .dict entries, targetSize =>
    (truncateEntries targetSize 0 (sorted (truncations entries)) 2 false).map (withValue .dict)
  | segments, .segment valueType value, targetSize =>
    if segments then
      if segmentNeedTruncation valueType then
        if holdsParts valueType value then
          (truncateDatum false value targetSize).map (withValue (.segment valueType))
        else none
      else (calculateJsonSize 0 value).map fun size => ⟨.segment valueType value, size, false⟩
    else none
  | _, value, _ => value.leafSize.map fun size => ⟨value, size, false⟩

/-- The loop of `_truncate_array`: files are kept as they are; whether the array counts as
truncated is what the last element says. -/
def truncateItems (targetSize : Int) :
    Nat → List Datum → Int → Bool → Option (PartResult (List Datum))
  | _, [], usedSize, truncated => some ⟨[], usedSize, truncated⟩
  | i, item :: items, usedSize, truncated =>
    match item with
    | .file f =>
      (truncateItems targetSize (i + 1) items usedSize truncated).map (withValue (.file f :: ·))
    | item =>
      if t.arrayElementLimit ≤ i then some ⟨[], usedSize, true⟩
      else if targetSize < usedSize + comma i then some ⟨[], usedSize + comma i, truncated⟩
      else do
        let part ← truncateDatum false item (targetSize - (usedSize + comma i))
        let rest ← truncateItems targetSize (i + 1) items (usedSize + comma i + part.valueSize)
          part.truncated
        return withValue (part.value :: ·) rest

/-- What the values of a dictionary are truncated to, by the size that they are given. -/
def truncations :
    List (String × Datum) → List (String × (Int → Option (PartResult Datum)))
  | [] => []
  | (key, value) :: entries => (key, truncateDatum true value) :: truncations entries

end

/-- The loop of `truncate_variable_mapping`, with the number of keys that are done. -/
def truncateMapping (budget : Int) (length : Nat) :
    List (String × Datum) → Nat → Int → Bool → Option (List (String × Datum) × Bool)
  | [], _, _, isTruncated => some ([], isTruncated)
  | (key, value) :: rest, done, usedSize, isTruncated =>
    let usedSize := usedSize + stringSize key
    if budget < usedSize then do
      let (mapping, isTruncated) ←
        truncateMapping budget length rest (done + 1) usedSize isTruncated
      return ((key, .str "...") :: mapping, isTruncated)
    else do
      let part ← truncateDatum t true value ((budget - usedSize) / (length - done))
      let (mapping, isTruncated) ← truncateMapping budget length rest (done + 1)
        (usedSize + part.valueSize) (isTruncated || part.truncated)
      return ((key, part.value) :: mapping, isTruncated)

/-- `truncate_variable_mapping`. -/
def truncateVariableMapping (v : List (String × Datum)) : Option (List (String × Datum) × Bool) :=
  truncateMapping t t.maxSizeBytes v.length v 0 0 false

/-- The size that `truncate` asks for. -/
def targetSizeOf (valueType : SegmentType) : Int :=
  match valueType with
  | .string | .secret => t.stringLengthLimit
  | _ => t.maxSizeBytes

/-- `TruncationResult`: a segment and whether it is cut. -/
structure TruncationResult where
  valueType : SegmentType
  value : Datum
  truncated : Bool

/-- The value of a segment. -/
def segmentValue : Datum → Datum
  | .segment _ value => value
  | value => value

/-- `model_dump` of a file. -/
def fileDump : Datum → Option Datum
  | .file f => some (.ofValue f.modelDump)
  | _ => none

mutual

/-- What `orjson` is left to write when `segment_orjson_default` has replaced the segments; it
  raises
on other objects. -/
def replaceSegments : Datum → Option Datum
  | .segment .arrayFile (.list files) => (files.mapM fileDump).map .list
  | .segment .file file => fileDump file
  | .segment _ value => replaceSegments value
  | .list items => (replaceItems items).map .list
  | .dict entries => (replaceEntries entries).map .dict
  | .file _ | .updated _ | .other _ => none
  | value => some value

def replaceItems : List Datum → Option (List Datum)
  | [] => some []
  | item :: items => do
    let item ← replaceSegments item
    let items ← replaceItems items
    return item :: items

def replaceEntries : List (String × Datum) → Option (List (String × Datum))
  | [] => some []
  | (key, value) :: entries => do
    let value ← replaceSegments value
    let entries ← replaceEntries entries
    return (key, value) :: entries

end

/-- `dumps_with_segments`, for the text that `orjson.dumps` writes. -/
def dumpsWithSegments (orjson : Datum → Option String) (value : Datum) : Option String :=
  (replaceSegments value).bind orjson

/-- `truncate`: what is too large still becomes a part of its text. -/
def truncate (orjson : Datum → Option String) (valueType : SegmentType) (value : Datum) :
    Option TruncationResult := do
  let result ← truncateDatum t true (.segment valueType value) (targetSizeOf t valueType)
  -- `result.value` is a segment here, so the branch for a `str` is never taken
  if t.maxSizeBytes < result.valueSize then
    let json ← dumpsWithSegments orjson result.value
    return ⟨.string, .str (if t.maxSizeBytes < json.length then
      String.ofList (json.toList.take t.maxSizeBytes) ++ "..." else json), true⟩
  else return ⟨valueType, segmentValue result.value, result.truncated⟩

section Truncate

variable {t}

theorem truncations_eq (entries : List (String × Datum)) :
    truncations t entries = entries.map fun e => (e.1, truncateDatum t true e.2) := by
  induction entries with
  | nil => rfl
  | cons e entries ih => rw [truncations, ih, List.map_cons]

variable {valueType : SegmentType}

theorem truncateDatum_segment {segments : Bool} {value : Datum}
    {targetSize : Int} {part : PartResult Datum}
    (h : truncateDatum t segments (.segment valueType value) targetSize = some part) :
    ∃ value', part.value = .segment valueType value' := by
  rw [truncateDatum] at h
  split at h
  next =>
    split at h
    next =>
      split at h
      next =>
        obtain ⟨r, -, rfl⟩ := Option.map_eq_some_iff.mp h
        exact ⟨r.value, rfl⟩
      next => cases h
    next =>
      obtain ⟨size, -, rfl⟩ := Option.map_eq_some_iff.mp h
      exact ⟨value, rfl⟩
  next => cases h

theorem truncate_cases {orjson : Datum → Option String} {value : Datum}
    {result : TruncationResult} (h : truncate t orjson valueType value = some result) :
    ∃ part, truncateDatum t true (.segment valueType value) (targetSizeOf t valueType) = some part ∧
      ((t.maxSizeBytes < part.valueSize ∧ ∃ json, dumpsWithSegments orjson part.value = some json ∧
          result = ⟨.string, .str (if t.maxSizeBytes < json.length then
            String.ofList (json.toList.take t.maxSizeBytes) ++ "..." else json), true⟩) ∨
        (part.valueSize ≤ t.maxSizeBytes ∧
          result = ⟨valueType, segmentValue part.value, part.truncated⟩)) := by
  obtain ⟨part, hpart, h⟩ := Option.bind_eq_some_iff.mp h
  refine ⟨part, hpart, ?_⟩
  split at h
  next hlarge =>
    obtain ⟨json, hjson, h⟩ := Option.bind_eq_some_iff.mp h
    cases h
    exact .inl ⟨hlarge, json, hjson, rfl⟩
  next hsmall =>
    cases h
    exact .inr ⟨Int.not_lt.mp hsmall, rfl⟩

end Truncate

end PlatformSpec.Truncation
