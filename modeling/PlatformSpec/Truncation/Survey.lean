import PlatformSpec.Truncation.Truncator

/-!
# What truncation does to a value

Read off the sizes of a value, without cutting it: the size that is accounted for its cut form,
whether it stays as it is, whether the cut is reported, and what the account leaves out.
-/

namespace PlatformSpec.Truncation

open DraftVariable

/-- What truncation does to a value. -/
structure Survey where
  /-- The size that is accounted. -/
  size : Int
  /-- The value stays as it is. -/
  kept : Bool
  /-- The value counts as truncated. -/
  reported : Bool
  /-- The size of the files in lists, which is not accounted. -/
  files : Int
  /-- The commas that are accounted for elements that are left out. -/
  spare : Int
  /-- The levels beneath what is left of it, as `calculate_json_size` counts them. -/
  levels : Nat

/-- A value that is not cut. -/
def Survey.whole (size : Int) (levels : Nat) : Survey := ⟨size, true, false, 0, 0, levels⟩

/-- What is found of the first part of a value and of the parts after it. -/
def Survey.before (part rest : Survey) : Survey :=
  ⟨rest.size, part.kept && rest.kept, rest.reported, part.files + rest.files,
    part.spare + rest.spare, max (part.levels + 1) rest.levels⟩

/-- The levels in a segment are counted anew. -/
def Survey.within (s : Survey) : Survey :=
  { s with levels := if s.levels ≤ maxDepth then 0 else maxDepth + 1 }

variable (t : VariableTruncator)

/-- The size that a string is cut to. -/
def cutSize (targetSize : Int) : Int :=
  if targetSize < 5 then 5 else min (t.stringLengthLimit : Int) (targetSize - 5) + 5

/-- A string is cut unless it is smaller than the size given; the cut is seen unless the string
already ends with an ellipsis at that place. -/
def surveyString (s : String) (targetSize : Int) : Survey :=
  if stringSize s < targetSize then .whole (stringSize s) 0
  else ⟨cutSize t targetSize,
    decide (stringSize s = cutSize t targetSize ∧ "...".toList <:+ s.toList), true, 0, 0, 0⟩

/-- The entries of a dictionary in the order of their keys: what is cut of any is reported. -/
def surveyEntries (targetSize : Int) :
    Nat → List (String × (Int → Survey)) → Int → Bool → Survey
  | _, [], usedSize, reported => ⟨usedSize, true, reported, 0, 0, 0⟩
  | i, (key, survey) :: entries, usedSize, reported =>
    let budget := valueBudget targetSize usedSize i (entries.length + 1) key
    if targetSize < usedSize ∨ budget ≤ 0 then ⟨usedSize, false, true, 0, 0, 0⟩
    else
      let part := survey budget
      part.before (surveyEntries targetSize (i + 1) entries
        (usedSize + (comma i + (stringSize key + 1) + part.size)) (reported || part.reported))

mutual

/-- What truncation to a size does to a value: an updated variable becomes a dictionary. -/
def survey : Datum → Int → Survey
  | .updated dump, targetSize =>
    { surveyEntries targetSize 0 (sorted (surveys dump)) 2 false with kept := false }
  | .str s, targetSize => surveyString t s targetSize
  | .list items, targetSize => surveyItems targetSize 0 items 2 false
  | .dict entries, targetSize => surveyEntries targetSize 0 (sorted (surveys entries)) 2 false
  | .segment valueType value, targetSize =>
    if segmentNeedTruncation valueType then (survey value targetSize).within
    else .whole ((calculateJsonSize 0 value).getD 0) 0
  | value, _ => .whole (value.leafSize.getD 0) value.leafDepth

/-- The elements of a list: files are kept and not accounted; an element that does not fit ends the
list without a report, and the report of an element replaces those of the elements before it. -/
def surveyItems (targetSize : Int) : Nat → List Datum → Int → Bool → Survey
  | _, [], usedSize, reported => ⟨usedSize, true, reported, 0, 0, 0⟩
  | i, item :: items, usedSize, reported =>
    match item with
    | .file f =>
      let rest := surveyItems targetSize (i + 1) items usedSize reported
      { rest with
        files := f.jsonSize + comma i + rest.files
        levels := max ((Datum.file f).leafDepth + 1) rest.levels }
    | item =>
      if t.arrayElementLimit ≤ i then ⟨usedSize, false, true, 0, 0, 0⟩
      else if targetSize < usedSize + comma i then
        ⟨usedSize + comma i, false, reported, 0, comma i, 0⟩
      else
        let part := survey item (targetSize - (usedSize + comma i))
        part.before (surveyItems targetSize (i + 1) items (usedSize + comma i + part.size)
          part.reported)

/-- The surveys of the values of a dictionary, by the size that they are given. -/
def surveys : List (String × Datum) → List (String × (Int → Survey))
  | [] => []
  | (key, value) :: entries => (key, survey value) :: surveys entries

end

/-- The size of what is left, if its levels are not too many. -/
def Survey.measured (s : Survey) (depth : Nat) (usedSize : Int) : Option Int :=
  if depth + s.levels ≤ maxDepth then some (s.size - usedSize + s.files - s.spare) else none

/-- The survey says what became of a value. -/
structure Surveyed (v : Datum) (r : PartResult Datum) (s : Survey) : Prop where
  size : r.valueSize = s.size
  reported : r.truncated = s.reported
  kept : Same r.value v ↔ s.kept = true
  json : ∀ depth, depth ≤ maxDepth ∨ (∀ ty w, v ≠ .segment ty w) →
    calculateJsonSize depth r.value = s.measured depth 0

section Strings

variable {t}

theorem stringSize_append_ellipsis (l : List Char) :
    stringSize (String.ofList l ++ "...") = l.length + 5 := by
  simp only [stringSize, String.length_append, String.length_ofList]
  have : "...".length = 3 := rfl
  omega

theorem truncateString_size (s : String) (targetSize : Int) :
    (t.truncateString s targetSize).valueSize = (surveyString t s targetSize).size := by
  rw [VariableTruncator.truncateString, surveyString]
  split
  next => rfl
  next hlong =>
    rw [cutSize]
    split
    next => rfl
    next hfive =>
      have hlength : (s.toList.length : Int) = s.length := by rw [String.length_toList]
      rw [stringSize] at hlong
      dsimp only
      rw [stringSize_append_ellipsis, List.length_take]
      omega

theorem cut_eq_self_iff {s : String} {m : Nat} (hm : m ≤ s.length) :
    String.ofList (s.toList.take m) ++ "..." = s ↔
      stringSize s = m + 5 ∧ "...".toList <:+ s.toList := by
  have hlength : s.toList.length = s.length := String.length_toList
  constructor
  · intro h
    constructor
    · have hsize := congrArg stringSize h
      rw [stringSize_append_ellipsis, List.length_take, hlength, Nat.min_eq_left hm] at hsize
      exact hsize.symm
    · refine ⟨s.toList.take m, ?_⟩
      rw [← String.toList_ofList (l := s.toList.take m), ← String.toList_append, h]
  · rintro ⟨hsize, front, hfront⟩
    rw [← String.toList_inj, String.toList_append, String.toList_ofList]
    have hcount := congrArg List.length hfront
    rw [List.length_append, hlength] at hcount
    have hdots : "...".toList.length = 3 := rfl
    rw [stringSize] at hsize
    have hfrontLength : front.length = m := by omega
    rw [← hfront, List.take_append_of_le_length (by omega), List.take_of_length_le (by omega)]

theorem truncateString_kept (s : String) (targetSize : Int) :
    (t.truncateString s targetSize).value = s ↔ (surveyString t s targetSize).kept = true := by
  rw [VariableTruncator.truncateString, surveyString]
  split
  next => exact iff_of_true rfl rfl
  next hlong =>
    rw [decide_eq_true_iff, cutSize]
    split
    next =>
      have hcut := cut_eq_self_iff (s := s) (m := 0) (Nat.zero_le _)
      simpa using hcut
    next hfive =>
      have hlimit := t.string_large
      rw [stringSize] at hlong
      have hcut := cut_eq_self_iff (s := s)
        (m := (min (t.stringLengthLimit : Int) (targetSize - 5)).toNat) (by omega)
      rw [Int.toNat_of_nonneg (by omega)] at hcut
      exact hcut

theorem truncateString_reported (s : String) (targetSize : Int) :
    (t.truncateString s targetSize).truncated = (surveyString t s targetSize).reported := by
  rw [VariableTruncator.truncateString, surveyString]
  split
  next => rfl
  next =>
    split
    · rfl
    · rfl

theorem truncateString_exact (s : String) (targetSize : Int) :
    (t.truncateString s targetSize).valueSize =
      stringSize (t.truncateString s targetSize).value := by
  rw [VariableTruncator.truncateString]
  split
  next => rfl
  next =>
    split
    · rfl
    · rfl

theorem surveyString_exact (s : String) (targetSize : Int) :
    (surveyString t s targetSize).files = 0 ∧ (surveyString t s targetSize).spare = 0 ∧
      (surveyString t s targetSize).levels = 0 := by
  rw [surveyString]
  split
  · exact ⟨rfl, rfl, rfl⟩
  · exact ⟨rfl, rfl, rfl⟩

end Strings

section Sizes

variable {depth : Nat}

/-- The commas of some elements from an index on. -/
def commas (i m : Nat) : Int := if i = 0 then ((m - 1 : Nat) : Int) else m

/-- The size of some elements from an index on. -/
def separated (i : Nat) (sizes : List Int) : Int := sizes.sum + commas i sizes.length

@[simp] theorem separated_nil (i : Nat) : separated i [] = 0 := by
  unfold separated commas
  split <;> rfl

theorem separated_cons (i : Nat) (n : Int) (sizes : List Int) :
    separated i (n :: sizes) = comma i + n + separated (i + 1) sizes := by
  unfold separated commas comma
  rw [List.sum_cons, List.length_cons]
  split <;> split <;> omega

theorem bracketed_eq (sizes : List Int) : bracketed sizes = 2 + separated 0 sizes := by
  rw [bracketed, separated, commas, if_pos rfl]
  omega

theorem Survey.measured_deep {s : Survey} {usedSize : Int} (h : maxDepth < depth + s.levels) :
    s.measured depth usedSize = none := if_neg (by omega)

@[simp] theorem Survey.measured_whole (size : Int) (levels : Nat) :
    (Survey.whole size levels).measured depth 0 =
      if depth + levels ≤ maxDepth then some size else none := by
  simp [Survey.measured, Survey.whole]

theorem calculateJsonSize_leaf {v : Datum} {size : Int} (hsize : v.leafSize = some size) :
    calculateJsonSize depth v = if depth + v.leafDepth ≤ maxDepth then some size else none := by
  have hleaf : calculateJsonSize depth v =
      if maxDepth < depth + v.leafDepth then none else v.leafSize := by
    cases v <;> first
      | rfl
      | cases hsize
  rw [hleaf, hsize]
  split
  next h => rw [if_neg (by omega)]
  next h => rw [if_pos (by omega)]

theorem Survey.measured_before (i : Nat) (head usedSize : Int) {part rest : Survey}
    {n : Option Int} {sizes : Option (List Int)} (hn : n = part.measured (depth + 1) 0)
    (hsizes : sizes.map (separated (i + 1)) =
      rest.measured depth (usedSize + (comma i + head + part.size))) :
    ((n.bind fun n => sizes.bind fun sizes => some ((head + n) :: sizes)).map (separated i)) =
      (part.before rest).measured depth usedSize := by
  by_cases hpart : depth + 1 + part.levels ≤ maxDepth
  · by_cases hrest : depth + rest.levels ≤ maxDepth
    · rw [Survey.measured, if_pos hpart] at hn
      rw [Survey.measured, if_pos hrest] at hsizes
      obtain ⟨l, rfl, hl⟩ := Option.map_eq_some_iff.mp hsizes
      have hboth : depth + (part.before rest).levels ≤ maxDepth := by
        rw [Survey.before]
        dsimp only
        omega
      rw [hn, Option.bind_some, Option.bind_some, Option.map_some, separated_cons, hl,
        Survey.measured, if_pos hboth, Survey.before]
      congr 1
      dsimp only
      omega
    · rw [Survey.measured_deep (by omega)] at hsizes
      rw [Option.map_eq_none_iff.mp hsizes, Survey.measured_deep]
      · cases n <;> rfl
      · rw [Survey.before]
        dsimp only
        omega
  · rw [hn, Survey.measured_deep (by omega), Survey.measured_deep]
    · rfl
    · rw [Survey.before]
      dsimp only
      omega

end Sizes

/-! ## The loops -/

section Loops

variable {t}

/-- The survey says what became of the elements of a list from an index on. -/
structure SurveyedItems (i : Nat) (usedSize : Int) (items : List Datum)
    (r : PartResult (List Datum)) (s : Survey) : Prop where
  size : r.valueSize = s.size
  reported : r.truncated = s.reported
  kept : normItems r.value = normItems items ↔ s.kept = true
  json : ∀ depth, depth ≤ maxDepth →
    (itemSizes (depth + 1) r.value).map (separated i) = s.measured depth usedSize

/-- The survey says what became of the entries of a dictionary from an index on. -/
structure SurveyedEntries (i : Nat) (usedSize : Int) (entries : List (String × Datum))
    (r : PartResult (List (String × Datum))) (s : Survey) : Prop where
  size : r.valueSize = s.size
  reported : r.truncated = s.reported
  keys : r.value.map Prod.fst <+: entries.map Prod.fst
  kept : normEntries r.value = normEntries entries ↔ s.kept = true
  json : ∀ depth, depth ≤ maxDepth →
    (entrySizes (depth + 1) r.value).map (separated i) = s.measured depth usedSize

variable {s : Survey} {usedSize targetSize : Int} {i depth : Nat}

private theorem measured_nothing
    (hsize : s.size = usedSize + s.spare) (hfiles : s.files = 0) (hlevels : s.levels = 0)
    (hdepth : depth ≤ maxDepth) :
    (some ([] : List Int)).map (separated i) = s.measured depth usedSize := by
  rw [Option.map_some, separated_nil, Survey.measured, if_pos (by omega)]
  congr 1
  omega

variable {items : List Datum}

private theorem measured_file {rest : Survey}
    (f : File)
    (h : (itemSizes (depth + 1) items).map (separated (i + 1)) = rest.measured depth usedSize) :
    (itemSizes (depth + 1) (.file f :: items)).map (separated i) =
      { rest with
        files := f.jsonSize + comma i + rest.files
        levels := max ((Datum.file f).leafDepth + 1) rest.levels : Survey }.measured depth
          usedSize := by
  -- the file, as a part that is accounted
  have hfile : calculateJsonSize (depth + 1) (.file f) =
      (Survey.whole f.jsonSize (Datum.file f).leafDepth).measured (depth + 1) 0 := by
    rw [calculateJsonSize_leaf rfl, Survey.measured_whole]
  have hrest : rest.measured depth usedSize =
      { rest with size := rest.size + (comma i + 0 + f.jsonSize) : Survey }.measured depth
        (usedSize + (comma i + 0 + f.jsonSize)) := by
    rw [Survey.measured, Survey.measured]
    dsimp only
    split
    · congr 1
      omega
    · rfl
  have hmeasured := Survey.measured_before i 0 usedSize hfile (h.trans hrest)
  simp only [Int.zero_add] at hmeasured
  refine hmeasured.trans ?_
  rw [Survey.measured, Survey.measured, Survey.before, Survey.whole]
  dsimp only
  split
  · congr 1
    omega
  · rfl

theorem truncateItems_cons {item : Datum} {truncated : Bool} (hfile : ∀ f, item ≠ .file f) :
    truncateItems t targetSize i (item :: items) usedSize truncated =
      if t.arrayElementLimit ≤ i then some ⟨[], usedSize, true⟩
      else if targetSize < usedSize + comma i then some ⟨[], usedSize + comma i, truncated⟩
      else (truncateDatum t false item (targetSize - (usedSize + comma i))).bind fun part =>
        (truncateItems t targetSize (i + 1) items (usedSize + comma i + part.valueSize)
          part.truncated).bind fun rest => some (withValue (part.value :: ·) rest) := by
  cases item <;> first | rfl | exact absurd rfl (hfile _)

theorem surveyItems_cons {item : Datum} {reported : Bool} (hfile : ∀ f, item ≠ .file f) :
    surveyItems t targetSize i (item :: items) usedSize reported =
      if t.arrayElementLimit ≤ i then ⟨usedSize, false, true, 0, 0, 0⟩
      else if targetSize < usedSize + comma i then
        ⟨usedSize + comma i, false, reported, 0, comma i, 0⟩
      else let part := survey t item (targetSize - (usedSize + comma i))
        part.before (surveyItems t targetSize (i + 1) items (usedSize + comma i + part.size)
          part.reported) := by
  cases item <;> first | rfl | exact absurd rfl (hfile _)

theorem surveyed_items (targetSize : Int) (items : List Datum)
    (hparts : ∀ v ∈ items, ∀ segments size r, truncateDatum t segments v size = some r →
      Surveyed v r (survey t v size))
    (i : Nat) (usedSize : Int) (truncated : Bool) {r : PartResult (List Datum)}
    (h : truncateItems t targetSize i items usedSize truncated = some r) :
    SurveyedItems i usedSize items r (surveyItems t targetSize i items usedSize truncated) := by
  induction items generalizing i usedSize truncated r with
  | nil =>
    rw [truncateItems] at h
    cases h
    rw [surveyItems]
    exact ⟨rfl, rfl, iff_of_true rfl rfl,
      fun depth => measured_nothing (Int.add_zero usedSize).symm rfl rfl⟩
  | cons item items ih =>
    obtain ⟨hitem, hrest⟩ := List.forall_mem_cons.mp hparts
    by_cases hfile : ∃ f, item = .file f
    · obtain ⟨f, rfl⟩ := hfile
      rw [truncateItems] at h
      obtain ⟨rest, hloop, rfl⟩ := Option.map_eq_some_iff.mp h
      have ih := ih hrest (i + 1) usedSize truncated hloop
      rw [surveyItems]
      refine ⟨ih.size, ih.reported, ?_, fun depth hdepth => ?_⟩
      · rw [← ih.kept]
        simp [withValue, normItems, Datum.norm]
      · exact measured_file f (ih.json depth hdepth)
    · have hfile : ∀ f, item ≠ .file f := fun f hf => hfile ⟨f, hf⟩
      rw [truncateItems_cons hfile] at h
      rw [surveyItems_cons hfile]
      have hdropped : normItems [] = normItems (item :: items) ↔ false = true :=
        iff_of_false (by simp [normItems]) Bool.false_ne_true
      split at h
      next hlimit =>
        cases h
        rw [if_pos hlimit]
        exact ⟨rfl, rfl, hdropped,
          fun depth => measured_nothing (Int.add_zero usedSize).symm rfl rfl⟩
      next hlimit =>
        rw [if_neg hlimit]
        split at h
        next hfull =>
          cases h
          rw [if_pos hfull]
          exact ⟨rfl, rfl, hdropped, fun depth => measured_nothing rfl rfl rfl⟩
        next hfull =>
          rw [if_neg hfull]
          obtain ⟨part, hpart, h⟩ := Option.bind_eq_some_iff.mp h
          obtain ⟨rest, hloop, h⟩ := Option.bind_eq_some_iff.mp h
          cases h
          have hsegment : ∀ ty w, item ≠ .segment ty w := by
            rintro ty w rfl
            rw [truncateDatum] at hpart
            cases hpart
          have hpart := hitem _ _ _ hpart
          have ih := ih hrest _ _ _ hloop
          rw [hpart.size, hpart.reported] at ih
          refine ⟨ih.size, ih.reported, ?_, fun depth hdepth => ?_⟩
          · rw [Survey.before, Bool.and_eq_true, ← ih.kept, ← hpart.kept, Same]
            simp [withValue, normItems]
          · have hmeasured := Survey.measured_before i 0 usedSize
              (hpart.json (depth + 1) (.inr hsegment))
              (by rw [Int.add_zero, ← Int.add_assoc]; exact ih.json depth hdepth)
            simp only [Int.zero_add] at hmeasured
            exact hmeasured

theorem surveys_eq (entries : List (String × Datum)) :
    surveys t entries = entries.map fun e => (e.1, survey t e.2) := by
  induction entries with
  | nil => rfl
  | cons e entries ih => rw [surveys, ih, List.map_cons]

variable {r : PartResult (List (String × Datum))}

theorem surveyed_entries (targetSize : Int) (entries : List (String × Datum))
    (hparts : ∀ e ∈ entries, ∀ segments size r, truncateDatum t segments e.2 size = some r →
      Surveyed e.2 r (survey t e.2 size)) (i : Nat) (usedSize : Int) (truncated : Bool)
    (h : truncateEntries targetSize i (entries.map fun e => (e.1, truncateDatum t true e.2))
      usedSize truncated = some r) : SurveyedEntries i usedSize entries r
      (surveyEntries targetSize i (entries.map fun e => (e.1, survey t e.2)) usedSize
        truncated) := by
  induction entries generalizing i usedSize truncated r with
  | nil =>
    cases h
    rw [List.map_nil, surveyEntries]
    exact ⟨rfl, rfl, List.prefix_refl _, iff_of_true rfl rfl,
      fun depth => measured_nothing (Int.add_zero usedSize).symm rfl rfl⟩
  | cons e entries ih =>
    obtain ⟨key, value⟩ := e
    obtain ⟨hvalue, hrest⟩ := List.forall_mem_cons.mp hparts
    rw [List.map_cons, truncateEntries] at h
    rw [List.map_cons, surveyEntries]
    dsimp only at h hvalue ⊢
    rw [List.length_map] at h ⊢
    split at h
    next hfull =>
      cases h
      rw [if_pos hfull]
      exact ⟨rfl, rfl, List.nil_prefix, iff_of_false (by simp [normEntries]) Bool.false_ne_true,
        fun depth => measured_nothing (Int.add_zero usedSize).symm rfl rfl⟩
    next hfull =>
      rw [if_neg hfull]
      obtain ⟨part, hpart, h⟩ := Option.bind_eq_some_iff.mp h
      obtain ⟨rest, hloop, h⟩ := Option.bind_eq_some_iff.mp h
      cases h
      have hpart := hvalue _ _ _ hpart
      have ih := ih hrest _ _ _ hloop
      rw [hpart.size, hpart.reported] at ih
      refine ⟨ih.size, ih.reported, ?_, ?_, fun depth hdepth => ?_⟩
      · exact List.cons_prefix_cons.mpr ⟨rfl, ih.keys⟩
      · rw [Survey.before, Bool.and_eq_true, ← ih.kept, ← hpart.kept, Same]
        simp [withValue, normEntries]
      · rw [withValue, entrySizes]
        split
        next hdeep =>
          rw [Survey.measured_deep, Option.map_none]
          rw [Survey.before]
          dsimp only
          omega
        next hdeep =>
          exact Survey.measured_before i (stringSize key + 1) usedSize
            (hpart.json (depth + 1) (.inl (by omega))) (ih.json depth hdepth)

private theorem surveyed_dict (targetSize : Int) (entries : List (String × Datum))
    (hparts : ∀ e ∈ entries, ∀ segments size r, truncateDatum t segments e.2 size = some r →
      Surveyed e.2 r (survey t e.2 size))
    (h : truncateEntries targetSize 0 (sorted (truncations t entries)) 2 false = some r) :
    SurveyedEntries 0 2 (sorted entries) r
        (surveyEntries targetSize 0 (sorted (surveys t entries)) 2 false) ∧
      (Same (.dict r.value) (.dict entries) ↔
        (surveyEntries targetSize 0 (sorted (surveys t entries)) 2 false).kept = true) := by
  rw [truncations_eq, sorted_map (fun e : String × Datum => (e.1, truncateDatum t true e.2))
    fun _ => rfl] at h
  rw [surveys_eq, sorted_map (fun e : String × Datum => (e.1, survey t e.2)) fun _ => rfl]
  have hsurveyed := surveyed_entries targetSize (sorted entries)
    (fun e he => hparts e (mem_sorted.mp he)) 0 2 false h
  refine ⟨hsurveyed, ?_⟩
  rw [← hsurveyed.kept, Same, Datum.norm, Datum.norm, Datum.dict.injEq, sorted_normEntries,
    sorted_normEntries, sorted_eq_self hsurveyed.keys]

private theorem measured_bracketed {sizes : Option (List Int)}
    (h : depth ≤ maxDepth → sizes.map (separated 0) = s.measured depth 2) :
    (if maxDepth < depth then none else sizes.map bracketed) = s.measured depth 0 := by
  split
  next hdeep => exact (Survey.measured_deep (by omega)).symm
  next hdeep =>
    have h := h (by omega)
    have hbracketed : bracketed = (2 + ·) ∘ separated 0 := funext bracketed_eq
    rw [hbracketed, ← Option.map_map, h, Survey.measured, Survey.measured]
    split
    · rw [Option.map_some]
      congr 1
      omega
    · rfl

theorem SurveyedEntries.json_dict {entries : List (String × Datum)}
    (h : SurveyedEntries 0 2 entries r s)
    (depth : Nat) : calculateJsonSize depth (.dict r.value) = s.measured depth 0 := by
  rw [calculateJsonSize]
  exact measured_bracketed (h.json depth)

end Loops

variable {segments : Bool} {size : Int}

private theorem surveyed_leaf {v : Datum} {r : PartResult Datum}
    (hstr : ∀ s, v ≠ .str s) (hlist : ∀ items, v ≠ .list items)
    (hdict : ∀ entries, v ≠ .dict entries) (hupdated : ∀ dump, v ≠ .updated dump)
    (hsegment : ∀ ty w, v ≠ .segment ty w) (h : truncateDatum t segments v size = some r) :
    Surveyed v r (survey t v size) := by
  have hleaf : truncateDatum t segments v size = (v.leafSize.map fun n => ⟨v, n, false⟩) ∧
      survey t v size = .whole (v.leafSize.getD 0) v.leafDepth := by
    cases v <;> first
      | exact ⟨rfl, rfl⟩
      | exact absurd rfl (hstr _)
      | exact absurd rfl (hlist _)
      | exact absurd rfl (hdict _)
      | exact absurd rfl (hupdated _)
      | exact absurd rfl (hsegment _ _)
  rw [hleaf.1] at h
  obtain ⟨n, hn, rfl⟩ := Option.map_eq_some_iff.mp h
  rw [hleaf.2, hn]
  refine ⟨rfl, rfl, iff_of_true rfl rfl, fun depth _ => ?_⟩
  rw [Option.getD_some, Survey.measured_whole]
  exact calculateJsonSize_leaf hn

private theorem surveyed_str {s : String} {r : PartResult Datum}
    (h : truncateDatum t segments (.str s) size = some r) :
    Surveyed (.str s) r (survey t (.str s) size) := by
  rw [truncateDatum] at h
  cases h
  rw [survey]
  refine ⟨truncateString_size s size, truncateString_reported s size, ?_, fun depth _ => ?_⟩
  · rw [← truncateString_kept]
    simp [withValue, Same, Datum.norm]
  · have hexact := surveyString_exact (t := t) s size
    have hsize := truncateString_exact (t := t) s size
    rw [truncateString_size] at hsize
    have hleaf : (Datum.str (t.truncateString s size).value).leafSize =
        some (surveyString t s size).size := congrArg some hsize.symm
    rw [withValue, calculateJsonSize_leaf hleaf, Survey.measured, hexact.1, hexact.2.1,
      hexact.2.2]
    simp [Datum.leafDepth]

private theorem surveyed_segment {ty : SegmentType} {v : Datum} {r : PartResult Datum}
    (hvalue : ∀ r, truncateDatum t false v size = some r → Surveyed v r (survey t v size))
    (h : truncateDatum t segments (.segment ty v) size = some r) :
    Surveyed (.segment ty v) r (survey t (.segment ty v) size) := by
  rw [truncateDatum] at h
  rw [survey]
  have hshallow {depth : Nat} (hdepth : depth ≤ maxDepth ∨
      ∀ ty' w, Datum.segment ty v ≠ .segment ty' w) : depth ≤ maxDepth :=
    hdepth.resolve_right fun hno => hno ty v rfl
  split at h
  next =>
    split at h
    next hneeds =>
      rw [if_pos hneeds]
      split at h
      next =>
        obtain ⟨r, hpart, rfl⟩ := Option.map_eq_some_iff.mp h
        have hpart := hvalue r hpart
        refine ⟨hpart.size, hpart.reported, ?_, fun depth hdepth => ?_⟩
        · rw [Survey.within, ← hpart.kept]
          simp [withValue, Same, Datum.norm]
        · have hdepth := hshallow hdepth
          rw [withValue, calculateJsonSize, hpart.json 0 (.inl (Nat.zero_le _)), Survey.measured,
            Survey.measured, Survey.within]
          dsimp only
          rw [Nat.zero_add]
          split
          next hlevels => rw [if_pos (by omega)]
          next hlevels => rw [if_neg (by omega)]
      next => cases h
    next hneeds =>
      rw [if_neg hneeds]
      obtain ⟨n, hn, rfl⟩ := Option.map_eq_some_iff.mp h
      rw [hn]
      refine ⟨rfl, rfl, iff_of_true rfl rfl, fun depth hdepth => ?_⟩
      rw [calculateJsonSize, hn, Option.getD_some, Survey.measured_whole, Nat.add_zero,
        if_pos (hshallow hdepth)]
  next => cases h

theorem surveyed (v : Datum) (segments : Bool) (size : Int) {r : PartResult Datum}
    (h : truncateDatum t segments v size = some r) : Surveyed v r (survey t v size) := by
  induction v using Datum.parts_induction generalizing segments size r with
  | leaf v hlist hdict hupdated hsegment =>
    by_cases hstr : ∃ s, v = .str s
    · obtain ⟨s, rfl⟩ := hstr
      exact surveyed_str t h
    · exact surveyed_leaf t (fun s hs => hstr ⟨s, hs⟩) hlist hdict hupdated hsegment h
  | list items ih =>
    rw [truncateDatum] at h
    obtain ⟨r, hloop, rfl⟩ := Option.map_eq_some_iff.mp h
    have hitems := surveyed_items size items ih 0 2 false hloop
    rw [survey]
    refine ⟨hitems.size, hitems.reported, ?_, fun depth _ => ?_⟩
    · rw [← hitems.kept]
      simp [withValue, Same, Datum.norm]
    · rw [withValue, calculateJsonSize]
      exact measured_bracketed (hitems.json depth)
  | dict entries ih =>
    rw [truncateDatum] at h
    obtain ⟨r, hloop, rfl⟩ := Option.map_eq_some_iff.mp h
    obtain ⟨hentries, hkept⟩ := surveyed_dict size entries ih hloop
    rw [survey]
    exact ⟨hentries.size, hentries.reported, hkept, fun depth _ => hentries.json_dict depth⟩
  | updated dump ih =>
    rw [truncateDatum] at h
    obtain ⟨r, hloop, rfl⟩ := Option.map_eq_some_iff.mp h
    obtain ⟨hentries, -⟩ := surveyed_dict size dump ih hloop
    rw [survey]
    refine ⟨hentries.size, hentries.reported, ?_, fun depth _ => hentries.json_dict depth⟩
    exact iff_of_false (by simp [withValue, Same, Datum.norm]) Bool.false_ne_true
  | segment ty v ih => exact surveyed_segment t (fun r => ih false size) h

end PlatformSpec.Truncation
