import PlatformSpec.Truncation.Survey

/-!
# The report of a truncation

Which values are cut without a report, by `truncate` and by `truncate_variable_mapping`.
-/

namespace PlatformSpec.Truncation

open DraftVariable

variable (t : VariableTruncator)

/-- What is cut of the elements of a list counts only if it is of the last element, or if the list
is cut at the limit on its elements: a list that is full ends with the report of the element
before. -/
def concealsItems (targetSize : Int) : Nat → List Datum → Int → Bool → Bool → Bool
  | _, [], _, cut, reported => cut && !reported
  | i, item :: items, usedSize, cut, reported =>
    match item with
    | .file _ => concealsItems targetSize (i + 1) items usedSize cut reported
    | item =>
      if t.arrayElementLimit ≤ i then false
      else if targetSize < usedSize + comma i then !reported
      else
        let part := survey t item (targetSize - (usedSize + comma i))
        concealsItems targetSize (i + 1) items (usedSize + comma i + part.size)
          (cut || !part.kept) part.reported

/-- A dictionary conceals what its values conceal, unless one of them is reported or the dictionary
is full. -/
def concealsEntries (targetSize : Int) :
    Nat → List (String × (Int → Survey)) → Int → Bool → Bool
  | _, [], _, cut => cut
  | i, (key, survey) :: entries, usedSize, cut =>
    let budget := valueBudget targetSize usedSize i (entries.length + 1) key
    if targetSize < usedSize ∨ budget ≤ 0 then false
    else
      let part := survey budget
      !part.reported && concealsEntries targetSize (i + 1) entries
        (usedSize + (comma i + (stringSize key + 1) + part.size)) (cut || !part.kept)

/-- Truncation to a size changes the value without a report. -/
def conceals : Datum → Int → Bool
  | .updated dump, targetSize =>
    -- not even an updated variable that fits stays what it is
    !(surveyEntries targetSize 0 (sorted (surveys t dump)) 2 false).reported
  | .list items, targetSize => concealsItems t targetSize 0 items 2 false false
  | .dict entries, targetSize =>
    concealsEntries targetSize 0 (sorted (surveys t entries)) 2 false
  | .segment valueType value, targetSize =>
    segmentNeedTruncation valueType && conceals value targetSize
  | _, _ => false

/-- The text that stands for a value without a budget. -/
def isEllipsis : Datum → Bool
  | .str s => s = "..."
  | _ => false

/-- `truncate_variable_mapping` changes a value without a report: the ellipsis for a value whose key
takes the budget is reported nowhere. -/
def concealsMapping (budget : Int) (length : Nat) :
    List (String × Datum) → Nat → Int → Bool → Bool
  | [], _, _, cut => cut
  | (key, value) :: rest, done, usedSize, cut =>
    let usedSize := usedSize + stringSize key
    if budget < usedSize then
      concealsMapping budget length rest (done + 1) usedSize (cut || !isEllipsis value)
    else
      let part := survey t value ((budget - usedSize) / (length - done))
      !part.reported && concealsMapping budget length rest (done + 1) (usedSize + part.size)
        (cut || !part.kept)

section Survey

variable {t}

theorem concealsItems_eq (targetSize : Int) (items : List Datum) (i : Nat) (usedSize : Int)
    (cut reported : Bool) :
    concealsItems t targetSize i items usedSize cut reported =
      ((cut || !(surveyItems t targetSize i items usedSize reported).kept) &&
        !(surveyItems t targetSize i items usedSize reported).reported) := by
  induction items generalizing i usedSize cut reported with
  | nil => simp [concealsItems, surveyItems]
  | cons item items ih =>
    by_cases hfile : ∃ f, item = .file f
    · obtain ⟨f, rfl⟩ := hfile
      rw [concealsItems, surveyItems]
      exact ih (i + 1) usedSize cut reported
    · have hconceals : concealsItems t targetSize i (item :: items) usedSize cut reported =
          if t.arrayElementLimit ≤ i then false
          else if targetSize < usedSize + comma i then !reported
          else
            let part := survey t item (targetSize - (usedSize + comma i))
            concealsItems t targetSize (i + 1) items (usedSize + comma i + part.size)
              (cut || !part.kept) part.reported := by
        cases item <;> first | rfl | exact absurd ⟨_, rfl⟩ hfile
      rw [hconceals, surveyItems_cons fun f hf => hfile ⟨f, hf⟩]
      split
      · simp
      · split
        · simp
        · dsimp only
          rw [ih, Survey.before, Bool.not_and, Bool.or_assoc]

theorem surveyEntries_reported (targetSize : Int) (entries : List (String × (Int → Survey)))
    (i : Nat) (usedSize : Int) : (surveyEntries targetSize i entries usedSize true).reported := by
  induction entries generalizing i usedSize with
  | nil => rfl
  | cons e entries ih =>
    rw [surveyEntries]
    dsimp only
    split
    · rfl
    · exact ih _ _

theorem concealsEntries_eq (targetSize : Int) (entries : List (String × (Int → Survey))) (i : Nat)
    (usedSize : Int) (cut : Bool) :
    concealsEntries targetSize i entries usedSize cut =
      ((cut || !(surveyEntries targetSize i entries usedSize false).kept) &&
        !(surveyEntries targetSize i entries usedSize false).reported) := by
  induction entries generalizing i usedSize cut with
  | nil => simp [concealsEntries, surveyEntries]
  | cons e entries ih =>
    rw [concealsEntries, surveyEntries]
    dsimp only
    split
    · simp
    · rw [ih, Survey.before, Bool.false_or]
      cases hreported : (e.2 (valueBudget targetSize usedSize i (entries.length + 1) e.1)).reported
      · rw [Bool.not_false, Bool.true_and, Bool.not_and, Bool.or_assoc]
      · rw [surveyEntries_reported]
        simp

/-- A value is concealed if it does not stay as it is and counts as not truncated. -/
theorem conceals_eq (v : Datum) (targetSize : Int) :
    conceals t v targetSize =
      (!(survey t v targetSize).kept && !(survey t v targetSize).reported) := by
  induction v using Datum.parts_induction generalizing targetSize with
  | leaf v hlist hdict hupdated hsegment =>
    cases v with
    | str s =>
      rw [conceals, survey, surveyString]
      · split <;> simp [Survey.whole]
      all_goals simp
    | list items => exact absurd rfl (hlist items)
    | dict entries => exact absurd rfl (hdict entries)
    | updated dump => exact absurd rfl (hupdated dump)
    | segment ty w => exact absurd rfl (hsegment ty w)
    | none => rfl
    | bool b => rfl
    | int n => rfl
    | float repr => rfl
    | file f => rfl
    | other typeName => rfl
  | list items =>
    rw [conceals, survey, concealsItems_eq, Bool.false_or]
  | dict entries =>
    rw [conceals, survey, concealsEntries_eq, Bool.false_or]
  | updated dump => rw [conceals, survey, Bool.not_false, Bool.true_and]
  | segment ty v ih =>
    rw [conceals, survey]
    split
    next hneeds => rw [hneeds, Bool.true_and, ih, Survey.within]
    next hneeds => simp [hneeds, Survey.whole]

end Survey

/-! ## The mapping -/

section Mapping

variable {t} {budget : Int} {length : Nat} {rest m' m : List (String × Datum)}
  {isTruncated flag : Bool} {usedSize : Int} {done : Nat}

theorem truncateMapping_cons {key : String} {value : Datum}
    (h : truncateMapping t budget length ((key, value) :: rest) done usedSize isTruncated =
      some (m', flag)) : ∃ value' rest', m' = (key, value') :: rest' ∧
      ((budget < usedSize + stringSize key ∧ value' = .str "..." ∧
          truncateMapping t budget length rest (done + 1) (usedSize + stringSize key) isTruncated =
            some (rest', flag)) ∨ (¬ budget < usedSize + stringSize key ∧ ∃ part,
          truncateDatum t true value ((budget - (usedSize + stringSize key)) / (length - done)) =
            some part ∧ value' = part.value ∧ truncateMapping t budget length rest (done + 1)
            (usedSize + stringSize key + part.valueSize) (isTruncated || part.truncated) =
              some (rest', flag))) := by
  rw [truncateMapping] at h
  dsimp only at h
  split at h
  next hfull =>
    obtain ⟨⟨rest', flag⟩, hrest, h⟩ := Option.bind_eq_some_iff.mp h
    cases h
    exact ⟨_, _, rfl, .inl ⟨hfull, rfl, hrest⟩⟩
  next hfits =>
    obtain ⟨part, hpart, h⟩ := Option.bind_eq_some_iff.mp h
    obtain ⟨⟨rest', flag⟩, hrest, h⟩ := Option.bind_eq_some_iff.mp h
    cases h
    exact ⟨_, _, rfl, .inr ⟨hfits, part, hpart, rfl, hrest⟩⟩

theorem truncateMapping_keys
    (h : truncateMapping t budget length m done usedSize isTruncated = some (m', flag)) :
    m'.map Prod.fst = m.map Prod.fst := by
  induction m generalizing m' done usedSize isTruncated with
  | nil =>
    cases h
    rfl
  | cons e rest ih =>
    obtain ⟨value', rest', rfl, ⟨-, -, hrest⟩ | ⟨-, part, -, -, hrest⟩⟩ := truncateMapping_cons h
    · rw [List.map_cons, List.map_cons, ih hrest]
    · rw [List.map_cons, List.map_cons, ih hrest]

theorem truncateMapping_reported
    (h : truncateMapping t budget length m done usedSize true = some (m', flag)) :
    flag = true := by
  induction m generalizing m' done usedSize with
  | nil =>
    cases h
    rfl
  | cons e rest ih =>
    obtain ⟨value', rest', rfl, ⟨-, -, hrest⟩ | ⟨-, part, -, -, hrest⟩⟩ := truncateMapping_cons h
    · exact ih hrest
    · exact ih hrest

theorem same_ellipsis_iff (v : Datum) : Same (.str "...") v ↔ isEllipsis v = true := by
  cases v with
  | str s => simp [Same, Datum.norm, isEllipsis, eq_comm]
  | _ => simp [Same, Datum.norm, isEllipsis]

theorem changed_cons {key : String} {v v' : Datum} {rest' : List (String × Datum)}
    {cut kept : Bool} (h : Same v' v ↔ kept = true) :
    ((cut || !kept) = true ∨ normEntries rest' ≠ normEntries rest) ↔
      (cut = true ∨ normEntries ((key, v') :: rest') ≠ normEntries ((key, v) :: rest)) := by
  rw [Same] at h
  rw [normEntries, normEntries, Ne, Ne, List.cons_eq_cons, Prod.mk.injEq, h, Bool.or_eq_true,
    Bool.not_eq_true', or_assoc, ← Bool.not_eq_true]
  tauto

theorem truncateMapping_conceals
    (cut : Bool) (h : truncateMapping t budget length m done usedSize false = some (m', flag)) :
    concealsMapping t budget length m done usedSize cut = true ↔
      flag = false ∧ (cut = true ∨ normEntries m' ≠ normEntries m) := by
  induction m generalizing m' done usedSize cut with
  | nil =>
    cases h
    simp [concealsMapping]
  | cons e rest ih =>
    obtain ⟨key, value⟩ := e
    obtain ⟨value', rest', rfl, ⟨hfull, rfl, hrest⟩ | ⟨hfits, part, hpart, rfl, hrest⟩⟩ :=
      truncateMapping_cons h
    · have hellipsis := same_ellipsis_iff value
      rw [concealsMapping, if_pos hfull, ih _ hrest, changed_cons hellipsis]
    · have hsurveyed := surveyed t value true _ hpart
      rw [concealsMapping, if_neg hfits, ← changed_cons hsurveyed.kept]
      dsimp only
      rw [hsurveyed.reported, hsurveyed.size, Bool.false_or] at hrest
      generalize survey t value _ = s at hrest ⊢
      cases hreported : s.reported with
      | true =>
        rw [hreported] at hrest
        simp [truncateMapping_reported hrest]
      | false =>
        rw [hreported] at hrest
        rw [Bool.not_false, Bool.true_and, ih _ hrest]

end Mapping

variable {m m' : List (String × Datum)}

/-- Mappings with the same keys in the same order are equal if their values are. -/
theorem sameMapping_iff (h : m'.map Prod.fst = m.map Prod.fst) :
    SameMapping m' m ↔ normEntries m' = normEntries m := by
  rw [SameMapping, Same, Datum.norm, Datum.norm, Datum.dict.injEq]
  refine ⟨eq_of_sorted_eq ?_, congrArg sorted⟩
  rw [normEntries_eq, normEntries_eq, List.map_map, List.map_map]
  exact h

theorem truncateVariableMapping_reports_cuts_iff {flag : Bool}
    (h : truncateVariableMapping t m = some (m', flag)) : (flag = false → SameMapping m' m) ↔
      concealsMapping t t.maxSizeBytes m.length m 0 0 false = false := by
  rw [truncateVariableMapping] at h
  have hconceals := truncateMapping_conceals false h
  rw [← Bool.not_eq_true (concealsMapping _ _ _ _ _ _ _), hconceals,
    sameMapping_iff (truncateMapping_keys h)]
  simp

/-! ## The segment -/

theorem truncate_reports_cuts_iff {orjson : Datum → Option String} {valueType : SegmentType}
    {value : Datum} {result : TruncationResult}
    (h : truncate t orjson valueType value = some result) :
    (result.truncated = false → result.valueType = valueType ∧ Same result.value value) ↔
      t.maxSizeBytes < (survey t (.segment valueType value) (targetSizeOf t valueType)).size ∨
        conceals t (.segment valueType value) (targetSizeOf t valueType) = false := by
  obtain ⟨part, hpart, hresult⟩ := truncate_cases h
  have hsurveyed := surveyed t _ true _ hpart
  obtain ⟨hlarge, json, -, rfl⟩ | ⟨hsmall, rfl⟩ := hresult
  · rw [hsurveyed.size] at hlarge
    exact iff_of_true nofun (.inl hlarge)
  · rw [hsurveyed.size] at hsmall
    obtain ⟨value', hvalue'⟩ := truncateDatum_segment hpart
    have hkept := hsurveyed.kept
    have hsame : Same part.value (.segment valueType value) ↔
        Same (segmentValue part.value) value := by
      rw [hvalue', segmentValue, Same, Same, Datum.norm, Datum.norm, Datum.segment.injEq]
      exact and_iff_right rfl
    rw [or_iff_right (by omega), conceals_eq, ← hsurveyed.reported]
    dsimp only
    rw [← hsame, hkept]
    cases part.truncated <;> simp

/-- Nothing that counts as not truncated is changed, exactly when no cut is concealed. -/
theorem reports_cuts_iff :
    (∀ (m m' : List (String × Datum)) (flag : Bool),
      truncateVariableMapping t m = some (m', flag) →
        ((flag = false → SameMapping m' m) ↔
          concealsMapping t t.maxSizeBytes m.length m 0 0 false = false)) ∧
    ∀ (orjson : Datum → Option String) (valueType : SegmentType) (value : Datum)
      (result : TruncationResult), truncate t orjson valueType value = some result →
        ((result.truncated = false → result.valueType = valueType ∧ Same result.value value) ↔
          t.maxSizeBytes < (survey t (.segment valueType value) (targetSizeOf t valueType)).size ∨
            conceals t (.segment valueType value) (targetSizeOf t valueType) = false) :=
  ⟨fun _ _ _ => truncateVariableMapping_reports_cuts_iff t,
    fun _ _ _ _ => truncate_reports_cuts_iff t⟩

/-- A truncator with small limits. -/
def smallLimits : VariableTruncator :=
  ⟨10, 20, 30, Nat.le_add_left 4 6, Nat.succ_pos 19, Nat.succ_pos 29⟩

theorem reports_cuts_iff_small :
    SameMapping [("a", .int 1)] [("a", .int 1)] ∧ Same (.list [.int 1]) (.list [.int 1]) := by
  obtain ⟨hmapping, hsegment⟩ := reports_cuts_iff smallLimits
  exact ⟨(hmapping [("a", .int 1)] [("a", .int 1)] false rfl).mpr rfl rfl,
    ((hsegment (fun _ => none) .arrayNumber (.list [.int 1])
      ⟨.arrayNumber, .list [.int 1], false⟩ rfl).mpr (.inr rfl) rfl).2⟩

/-- The text of a key that takes the whole budget, and the cut of an element before the last. -/
theorem cut_unreported :
    let key := "abcdefghijklmnopqrstuvwxyzabcd"
    let text := "abcdefghijklmnopqrstuvwxyzabcd"
    truncateVariableMapping smallLimits [(key, .int 1)] = some ([(key, .str "...")], false) ∧
      ¬ SameMapping [(key, .str "...")] [(key, .int 1)] ∧
      truncate smallLimits (fun _ => none) .arrayAny (.list [.str text, .int 1]) =
        some ⟨.arrayAny, .list [.str "abcdefghij...", .int 1], false⟩ ∧
      ¬ Same (.list [.str "abcdefghij...", .int 1]) (.list [.str text, .int 1]) := by
  refine ⟨rfl, fun h => ?_, rfl, fun h => ?_⟩
  · rw [sameMapping_iff (by rfl)] at h
    simp [normEntries, Datum.norm] at h
  · simp [Same, Datum.norm, normItems] at h

end PlatformSpec.Truncation
