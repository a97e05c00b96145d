import PlatformSpec.Truncation.Report

/-!
# The size limit of a truncation

When `calculate_json_size` measures the result of `truncate` within the limit.
-/

namespace PlatformSpec.Truncation

open DraftVariable

variable (t : VariableTruncator)

/-- `calculate_json_size` measures a value within the limit. -/
def FitsLimit (value : Datum) : Prop := ∃ n, calculateJsonSize 0 value = some n ∧ n ≤ t.maxSizeBytes

/-- The account is within the limit, and so are the files that it leaves out. -/
def Survey.Fits (s : Survey) : Prop :=
  s.size ≤ t.maxSizeBytes ∧ s.levels ≤ maxDepth ∧ s.size + s.files - s.spare ≤ t.maxSizeBytes

/-- The account is over the limit, but the text of the cut value with its quotes is not. -/
def TextFits (orjson : Datum → Option String) (valueType : SegmentType) (value : Datum) : Prop :=
  t.maxSizeBytes < (survey t (.segment valueType value) (targetSizeOf t valueType)).size ∧
    ∃ part json, truncateDatum t true (.segment valueType value) (targetSizeOf t valueType) =
        some part ∧
      dumpsWithSegments orjson part.value = some json ∧ (json.length : Int) + 2 ≤ t.maxSizeBytes

variable {t}

theorem text_fits_iff (json : String) :
    FitsLimit t (.str (if t.maxSizeBytes < json.length then
      String.ofList (json.toList.take t.maxSizeBytes) ++ "..." else json)) ↔
        (json.length : Int) + 2 ≤ t.maxSizeBytes := by
  have hsize (text : String) : FitsLimit t (.str text) ↔ stringSize text ≤ t.maxSizeBytes := by
    have hleaf : (Datum.str text).leafSize = some (stringSize text) := rfl
    rw [FitsLimit, calculateJsonSize_leaf hleaf]
    simp [Datum.leafDepth]
  rw [hsize]
  split
  next hlong =>
    have hlength : json.toList.length = json.length := String.length_toList
    rw [stringSize_append_ellipsis, List.length_take]
    omega
  next => rw [stringSize]

theorem survey_fits_iff {valueType : SegmentType} {value : Datum} {part : PartResult Datum}
    {targetSize : Int}
    (hpart : truncateDatum t true (.segment valueType value) targetSize = some part)
    (hsmall : part.valueSize ≤ t.maxSizeBytes) :
    FitsLimit t (segmentValue part.value) ↔
      (survey t (.segment valueType value) targetSize).Fits t := by
  have hsurveyed := surveyed t _ true _ hpart
  obtain ⟨value', hvalue'⟩ := truncateDatum_segment hpart
  have hjson := hsurveyed.json 0 (.inl (Nat.zero_le _))
  rw [hvalue', calculateJsonSize, Survey.measured, Nat.zero_add, Int.sub_zero] at hjson
  rw [hsurveyed.size] at hsmall
  rw [hvalue', segmentValue, FitsLimit, Survey.Fits, hjson]
  generalize survey t (.segment valueType value) targetSize = s at hsmall ⊢
  by_cases hlevels : s.levels ≤ maxDepth
  · rw [if_pos hlevels]
    simp [hlevels, hsmall]
  · rw [if_neg hlevels]
    simp [hlevels]

/-- The result is within the limit exactly if the account is, with all files that it leaves out, or
if the text that replaces the value is. -/
theorem truncate_fits_iff {orjson : Datum → Option String} {valueType : SegmentType}
    {value : Datum} {result : TruncationResult}
    (h : truncate t orjson valueType value = some result) :
    FitsLimit t result.value ↔
      (survey t (.segment valueType value) (targetSizeOf t valueType)).Fits t ∨
        TextFits t orjson valueType value := by
  obtain ⟨part, hpart, hresult⟩ := truncate_cases h
  have hsurveyed := surveyed t _ true _ hpart
  obtain ⟨hlarge, json, hjson, rfl⟩ | ⟨hsmall, rfl⟩ := hresult
  · rw [text_fits_iff]
    rw [hsurveyed.size] at hlarge
    constructor
    · exact fun hfits => .inr ⟨hlarge, part, json, hpart, hjson, hfits⟩
    · rintro (⟨hsmall, -⟩ | ⟨-, part', json', hpart', hjson', hfits⟩)
      · omega
      · cases hpart.symm.trans hpart'
        cases hjson.symm.trans hjson'
        exact hfits
  · rw [survey_fits_iff hpart hsmall]
    rw [hsurveyed.size] at hsmall
    exact (or_iff_left fun htext => absurd htext.1 (Int.not_lt.mpr hsmall)).symm

/-- What `orjson.dumps` writes of a text without escapes. -/
def dumpsPlain : Datum → Option String
  | .str s => some ("\"" ++ s ++ "\"")
  | _ => none

theorem truncate_fits_iff_small : FitsLimit smallLimits (.list [.int 1]) := by
  have hresult : truncate smallLimits dumpsPlain .arrayNumber (.list [.int 1]) =
      some ⟨.arrayNumber, .list [.int 1], false⟩ := rfl
  exact (truncate_fits_iff hresult).mpr (.inl ⟨by decide, by decide, by decide⟩)

private theorem large_fifty : 3 < 50 := Nat.le_add_left 4 46

private theorem positive_twenty : 0 < 20 := Nat.succ_pos 19

private theorem positive_thirty : 0 < 30 := Nat.succ_pos 29

/-- A limit on strings above the limit on sizes. -/
def longStrings : VariableTruncator :=
  ⟨50, 20, 30, large_fifty, positive_twenty, positive_thirty⟩

/-- A text that is cut at the limit, with three dots and two quotes. -/
theorem text_over_limit :
    let text := "abcdefghijklmnopqrstuvwxyzabcdefghijklmnopqrstuvwxyz"
    let cut := "\"abcdefghijklmnopqrstuvwxyzabc..."
    truncate longStrings dumpsPlain .string (.str text) = some ⟨.string, .str cut, true⟩ ∧
      calculateJsonSize 0 (.str cut) = some 35 ∧ ¬ FitsLimit longStrings (.str cut) := by
  refine ⟨rfl, rfl, ?_⟩
  rintro ⟨n, hn, hle⟩
  cases hn
  exact absurd hle (by decide)

end PlatformSpec.Truncation
