import PlatformSpec.Base.Collect
import PlatformSpec.DraftVariable.Segment

/-!
# What decoding a stored value gives

The stored value of a segment is decoded under its type. This succeeds if and only if the type is
the one that is inferred from the value, an empty array apart; the value comes back if its floats
are finite.
-/

namespace PlatformSpec.DraftVariable

open Base

variable {lib : Libraries}

mutual

/-- The floats in a value are finite. -/
def Value.finite : Value → Bool
  | .float repr => repr ∉ ["nan", "inf", "-inf"]
  | .list items => finiteItems items
  | .dict entries => finiteEntries entries
  | _ => true

def Value.finiteItems : List Value → Bool
  | [] => true
  | item :: items => item.finite && finiteItems items

def Value.finiteEntries : List (String × Value) → Bool
  | [] => true
  | (_, value) :: entries => value.finite && finiteEntries entries

end

mutual

/-- What is written for a value is the value, if and only if its floats are finite. -/
theorem Value.dumps_eq_self_iff : ∀ {v j : Value}, v.dumps = some j → (j = v ↔ v.finite = true)
  | .none, j, h => by
    cases h
    exact iff_of_true rfl rfl
  | .bool b, j, h => by
    cases h
    exact iff_of_true rfl rfl
  | .int n, j, h => by
    unfold Value.dumps at h
    split at h
    next =>
      cases h
      exact iff_of_true rfl rfl
    next => cases h
  | .float r, j, h => by
    unfold Value.dumps at h
    cases h
    unfold Value.finite
    split
    next hr => simp [hr]
    next hr => simp [hr]
  | .str s, j, h => by
    cases h
    exact iff_of_true rfl rfl
  | .list items, j, h => by
    unfold Value.dumps at h
    obtain ⟨l, hl, rfl⟩ := Option.map_eq_some_iff.mp h
    unfold Value.finite
    rw [Value.list.injEq]
    exact Value.dumpsItems_eq_self_iff hl
  | .dict entries, j, h => by
    unfold Value.dumps at h
    obtain ⟨l, hl, rfl⟩ := Option.map_eq_some_iff.mp h
    unfold Value.finite
    rw [Value.dict.injEq]
    exact Value.dumpsEntries_eq_self_iff hl
  | .file f, j, h => by
    unfold Value.dumps at h
    cases h

theorem Value.dumpsItems_eq_self_iff : ∀ {items l : List Value},
    dumpsItems items = some l → (l = items ↔ finiteItems items = true)
  | [], l, h => by
    cases h
    exact iff_of_true rfl rfl
  | item :: items, l, h => by
    obtain ⟨j, hj, h⟩ := Option.bind_eq_some_iff.mp h
    obtain ⟨rest, hrest, he⟩ := Option.bind_eq_some_iff.mp h
    cases he
    rw [List.cons.injEq, Value.dumps_eq_self_iff hj, Value.dumpsItems_eq_self_iff hrest,
      Value.finiteItems, Bool.and_eq_true]

theorem Value.dumpsEntries_eq_self_iff : ∀ {entries l : List (String × Value)},
    dumpsEntries entries = some l → (l = entries ↔ finiteEntries entries = true)
  | [], l, h => by
    cases h
    exact iff_of_true rfl rfl
  | (name, value) :: entries, l, h => by
    obtain ⟨j, hj, h⟩ := Option.bind_eq_some_iff.mp h
    obtain ⟨rest, hrest, he⟩ := Option.bind_eq_some_iff.mp h
    cases he
    rw [List.cons.injEq, Prod.mk.injEq, Value.dumps_eq_self_iff hj,
      Value.dumpsEntries_eq_self_iff hrest, Value.finiteEntries, Bool.and_eq_true]
    simp

end

variable {v output j : Value}

theorem Value.dumps_ne_file {f : File} : v.dumps ≠ some (.file f) := by
  intro h
  cases v with
  | none => cases h
  | bool b => cases h
  | int n =>
    unfold Value.dumps at h
    split at h <;> cases h
  | float r =>
    unfold Value.dumps at h
    split at h <;> cases h
  | str s => cases h
  | list items =>
    obtain ⟨l, -, he⟩ := Option.map_eq_some_iff.mp h
    cases he
  | dict entries =>
    obtain ⟨l, -, he⟩ := Option.map_eq_some_iff.mp h
    cases he
  | file f =>
    unfold Value.dumps at h
    cases h

namespace SegmentType

variable {types : List SegmentType}

theorem inferArray_cases {t : SegmentType} (h : inferArray types = some t) : t = .arrayAny ∨
      (t = .arrayNumber ∧ ∀ u ∈ types, u.isNumerical = true) ∨
      ∃ u, u.arrayOf = some t ∧ ∀ u' ∈ types, u' = u := by
  unfold inferArray at h
  split at h
  next =>
    cases h
    exact .inr (.inl ⟨rfl, by simp⟩)
  next u types =>
    split at h
    next hall =>
      split at h
      next =>
        cases h
        exact .inl rfl
      next =>
        refine .inr (.inr ⟨u, h, List.forall_mem_cons.mpr ⟨rfl, ?_⟩⟩)
        simpa using hall
    next =>
      cases h
      unfold arrayOfMixed
      split
      next hall => exact .inr (.inl ⟨rfl, by simpa using hall⟩)
      next => exact .inl rfl

theorem isArrayType_of_arrayOf {u t : SegmentType} (h : u.arrayOf = some t) :
    t.isArrayType = true := by
  cases u <;> cases h <;> rfl

theorem isArrayType_of_inferArray {t : SegmentType}
    (h : inferArray types = some t) : t.isArrayType = true := by
  rcases inferArray_cases h with rfl | ⟨rfl, -⟩ | ⟨u, hu, -⟩
  · rfl
  · rfl
  · exact isArrayType_of_arrayOf hu

end SegmentType

theorem Value.inferSegmentTypes_eq (items : List Value) :
    Value.inferSegmentTypes items = items.mapM Value.inferSegmentType := by
  induction items with
  | nil => rfl
  | cons item items ih =>
    rw [List.mapM_cons, Value.inferSegmentTypes, ih]
    rfl

variable {t u : SegmentType} {items l : List Value}

theorem Value.infer_list (h : (Value.list items).inferSegmentType = some t) : ∃ types,
      items.mapM Value.inferSegmentType = some types ∧ SegmentType.inferArray types = some t := by
  unfold Value.inferSegmentType at h
  rw [Value.inferSegmentTypes_eq] at h
  exact Option.bind_eq_some_iff.mp h

theorem accepts_of_not_array (h : v.inferSegmentType = some t) (ht : t.isArrayType = false) :
    t.accepts v = true ∧ t ≠ .number ∧ t ≠ .secret ∧ t ≠ .group := by
  cases v with
  | list items =>
    obtain ⟨types, -, harray⟩ := Value.infer_list h
    rw [SegmentType.isArrayType_of_inferArray harray] at ht
    cases ht
  | _ =>
    cases h
    exact ⟨rfl, by simp, by simp, by simp⟩

private theorem accepts_arrayOf (hu : u.arrayOf = some t)
    (h : ∀ item ∈ items, u.accepts item = true) : t.accepts (.list items) = true := by
  have hall : ∀ p : Value → Bool, (∀ item, u.accepts item = true → p item = true) →
      items.all p = true := fun p hp =>
    List.all_eq_true.mpr fun item hitem => hp item (h item hitem)
  cases u <;> cases hu <;> first
    | rfl
    | exact hall _ fun item hitem => by cases item <;> first | rfl | cases hitem

theorem Value.accepts_of_infer (h : v.inferSegmentType = some t) :
    t.accepts v = true := by
  cases v with
  | list items =>
    obtain ⟨types, htypes, harray⟩ := Value.infer_list h
    have hmem : ∀ item ∈ items, ∃ u ∈ types, item.inferSegmentType = some u := by
      intro item hitem
      obtain ⟨u, hu⟩ := Collect.exists_mapM_iff.mp ⟨types, htypes⟩ item hitem
      exact ⟨u, (Collect.mem_mapM htypes).mpr ⟨item, hitem, hu⟩, hu⟩
    rcases SegmentType.inferArray_cases harray with rfl | ⟨rfl, hall⟩ | ⟨u, hu, hall⟩
    · rfl
    · refine List.all_eq_true.mpr fun item hitem => ?_
      obtain ⟨u, hu, hinfer⟩ := hmem item hitem
      have hnumber := hall u hu
      have harr : u.isArrayType = false := by cases u <;> first | rfl | cases hnumber
      obtain ⟨haccepts, hne, -⟩ := accepts_of_not_array hinfer harr
      cases u with
      | number => exact absurd rfl hne
      | integer => cases item <;> first | rfl | cases haccepts
      | float => cases item <;> first | rfl | cases haccepts
      | _ => cases hnumber
    · have harr : u.isArrayType = false := by cases u <;> first | rfl | cases hu
      have haccepts : ∀ item ∈ items, u.accepts item = true := by
        intro item hitem
        obtain ⟨u', hu', hinfer⟩ := hmem item hitem
        rw [hall u' hu'] at hinfer
        exact (accepts_of_not_array hinfer harr).1
      exact accepts_arrayOf hu haccepts
  | _ =>
    cases h
    rfl

/-- A value has a type: it is inferred from it, or the value is empty and the type is one of
arrays. -/
def Value.HasType (v : Value) (t : SegmentType) : Prop :=
  v.inferSegmentType = some t ∨ (v = .list [] ∧ t.isArrayType = true)

theorem Value.HasType.ne (h : v.HasType t) : t ≠ .number ∧ t ≠ .secret ∧ t ≠ .group := by
  rcases h with h | ⟨-, h⟩
  · by_cases ht : t.isArrayType = true
    · cases t <;> simp_all [SegmentType.isArrayType]
    · exact (accepts_of_not_array h (by simpa using ht)).2
  · cases t <;> simp_all [SegmentType.isArrayType]

variable {segment : Segment}

theorem ofType_eq_some
    (h : Segment.ofType t v = some segment) : segment.valueType = t ∧ segment.value = v := by
  unfold Segment.ofType at h
  split at h
  next =>
    cases h
    exact ⟨rfl, rfl⟩
  next => cases h

private theorem exists_ofType (h : t.accepts v = true) :
    ∃ segment, Segment.ofType t v = some segment := by
  unfold Segment.ofType
  rw [dif_pos h]
  exact ⟨_, rfl⟩

theorem value_of_buildWithType
    (h : Segment.buildWithType t v = some segment) : segment.value = v := by
  unfold Segment.buildWithType at h
  split at h
  next =>
    split at h
    next => exact (ofType_eq_some h).2
    next => cases h
  next =>
    split at h
    next => exact (ofType_eq_some h).2
    next => cases h
  next =>
    split at h
    next => cases h
    next =>
      split at h
      next => exact (ofType_eq_some h).2
      next =>
        split at h
        next => exact (ofType_eq_some h).2
        next => cases h

theorem valueType_of_buildWithType
    (ht : t ≠ .number) (h : Segment.buildWithType t v = some segment) : segment.valueType = t := by
  unfold Segment.buildWithType at h
  split at h
  next =>
    split at h
    next hnone => exact (ofType_eq_some h).1.trans hnone.symm
    next => cases h
  next =>
    split at h
    next => exact (ofType_eq_some h).1
    next => cases h
  next =>
    split at h
    next => cases h
    next =>
      split at h
      next => exact (ofType_eq_some h).1
      next =>
        split at h
        next hnumber => exact absurd hnumber.1 ht
        next => cases h

theorem buildWithType_iff (ht : t ≠ .number) :
    (∃ segment, Segment.buildWithType t v = some segment) ↔ v.HasType t := by
  unfold Segment.buildWithType Value.HasType
  split
  next =>
    have hinfer : Value.none.inferSegmentType = some .none := rfl
    rw [hinfer]
    by_cases hnone : t = .none
    · subst hnone
      rw [if_pos rfl]
      exact iff_of_true (exists_ofType rfl) (.inl rfl)
    · rw [if_neg hnone]
      refine iff_of_false (fun ⟨_, h⟩ => by cases h) ?_
      rintro (h | ⟨h, -⟩)
      · exact hnone (Option.some.inj h).symm
      · cases h
  next =>
    cases harr : t.isArrayType with
    | true =>
      rw [if_pos rfl]
      refine iff_of_true (exists_ofType ?_) (.inr ⟨rfl, rfl⟩)
      cases t <;> first | rfl | cases harr
    | false =>
      rw [if_neg Bool.false_ne_true]
      refine iff_of_false (fun ⟨_, h⟩ => by cases h) ?_
      rintro (h | ⟨-, h⟩)
      · cases Option.some.inj h
        cases harr
      · cases h
  next hnone hempty =>
    have hnotEmpty : v ≠ .list [] := fun he => hempty he
    cases hinfer : v.inferSegmentType with
    | none =>
      refine iff_of_false (fun ⟨_, h⟩ => by cases h) ?_
      rintro (h | ⟨h, -⟩)
      · cases h
      · exact hnotEmpty h
    | some u =>
      dsimp only
      by_cases hu : u = t
      · subst hu
        rw [if_pos rfl]
        exact iff_of_true (exists_ofType (Value.accepts_of_infer hinfer)) (.inl rfl)
      · rw [if_neg hu, if_neg fun h => ht h.1]
        refine iff_of_false (fun ⟨_, h⟩ => by cases h) ?_
        rintro (h | ⟨h, -⟩)
        · exact hu (Option.some.inj h)
        · exact hnotEmpty h

/-- A dictionary is a form of a file: at every key, the URL apart, it has what the file dumps. -/
def File.IsForm (f : File) (entries : List (String × Value)) : Prop :=
  ∀ key, key ≠ "url" → entries.lookup key = f.fields.lookup key

/-- A value that is loaded is the one of an output, or the file of which the output is a form. -/
def Value.Stands (loaded output : Value) : Prop :=
  loaded = output ∨ ∃ f entries, loaded = .file f ∧ output = .dict entries ∧ f.IsForm entries

/-- A value that is loaded equals an output, up to forms of files as a whole and in a list. -/
def Value.Same (loaded output : Value) : Prop :=
  loaded.Stands output ∨ ∃ items outputs, loaded = .list items ∧ output = .list outputs ∧
    List.Forall₂ Value.Stands items outputs

theorem Value.Same.refl (v : Value) : v.Same v := .inl (.inl rfl)

private theorem dumpsItems_ne_file (h : Value.dumpsItems items = some l) :
    ∀ item ∈ l, ∀ f, item ≠ .file f := by
  induction items generalizing l with
  | nil =>
    cases h
    simp
  | cons item items ih =>
    obtain ⟨j, hj, h⟩ := Option.bind_eq_some_iff.mp h
    obtain ⟨rest, hrest, he⟩ := Option.bind_eq_some_iff.mp h
    cases he
    refine List.forall_mem_cons.mpr ⟨fun f hf => ?_, ih hrest⟩
    exact Value.dumps_ne_file (hf ▸ hj)

theorem stands_iff {loaded : Value} (h : ∀ f, loaded ≠ .file f) :
    loaded.Stands output ↔ loaded = output := by
  refine ⟨?_, .inl⟩
  rintro (he | ⟨f, entries, hf, -⟩)
  · exact he
  · exact absurd hf (h f)

theorem Value.same_iff (h : v.dumps = some j) : j.Same output ↔ j = output := by
  have hfile : ∀ f, j ≠ .file f := fun f hf => Value.dumps_ne_file (hf ▸ h)
  refine ⟨?_, fun he => .inl (.inl he)⟩
  rintro (he | ⟨items, outputs, rfl, rfl, hall⟩)
  · exact (stands_iff hfile).mp he
  · have hitems : ∀ item ∈ items, ∀ f, item ≠ .file f := by
      cases v with
      | list l =>
        obtain ⟨l', hl, he⟩ := Option.map_eq_some_iff.mp h
        cases he
        exact dumpsItems_ne_file hl
      | float r =>
        unfold Value.dumps at h
        split at h <;> cases h
      | int n =>
        unfold Value.dumps at h
        split at h <;> cases h
      | dict entries =>
        obtain ⟨l', -, he⟩ := Option.map_eq_some_iff.mp h
        cases he
      | _ => cases h
    clear h hfile
    congr 1
    induction hall with
    | nil => rfl
    | cons hab _ ih =>
      obtain ⟨hfirst, hrest⟩ := List.forall_mem_cons.mp hitems
      rw [(stands_iff hfirst).mp hab, ih hrest]

/-- The types whose values are files. -/
def SegmentType.holdsFiles (t : SegmentType) : Prop := t = .file ∨ t = .arrayFile

instance (t : SegmentType) : Decidable t.holdsFiles := inferInstanceAs (Decidable (_ ∨ _))

/-- A segment comes back from its stored value: its value has its type, and the dictionary of a
file, of the first one in a list, is seen to be one. -/
def Segment.Decodable (segment : Segment) : Prop :=
  match segment.valueType, segment.value with
  | .file, .file f => f.difyModelIdentity = fileModelIdentity
  | .arrayFile, .list (.file f :: _) => f.difyModelIdentity = fileModelIdentity
  | .arrayFile, _ => True
  | type, value => value.HasType type

theorem File.maybeFileObject_modelDump (f : File) :
    f.modelDump.maybeFileObject = (f.difyModelIdentity == fileModelIdentity) := by
  simp [File.modelDump, File.fields, Value.maybeFileObject]

theorem File.eq_modelDump {f : File} (h : f.modelDump.dumps = some j) :
    j = f.modelDump := by
  refine (Value.dumps_eq_self_iff h).mpr ?_
  have hoption : ∀ s, (Value.ofOption s).finite = true := fun s => by cases s <;> rfl
  simp [File.modelDump, File.fields, Value.finite, Value.finiteEntries, hoption]

theorem infer_of_const (hne : items ≠ [])
    (hu : u.isArrayType = false) (h : ∀ item ∈ items, item.inferSegmentType = some u) :
    (Value.list items).inferSegmentType = u.arrayOf := by
  obtain ⟨types, htypes⟩ := Collect.exists_mapM_iff.mpr fun item hitem => ⟨u, h item hitem⟩
  have hall : ∀ u' ∈ types, u' = u := by
    intro u' hu'
    obtain ⟨item, hitem, hinfer⟩ := (Collect.mem_mapM htypes).mp hu'
    exact Option.some.inj (hinfer.symm.trans (h item hitem))
  have hlist : (Value.list items).inferSegmentType = SegmentType.inferArray types := by
    unfold Value.inferSegmentType
    rw [Value.inferSegmentTypes_eq, htypes]
    rfl
  rw [hlist]
  cases types with
  | nil =>
    have hlength := (Collect.mapM_eq_some_iff.mp htypes).length_eq
    exact absurd (List.length_eq_zero_iff.mp hlength) hne
  | cons t types =>
    obtain ⟨rfl, hrest⟩ := List.forall_mem_cons.mp hall
    have hsame : (types.all fun x => decide (x = t)) = true := by simpa using hrest
    simp only [SegmentType.inferArray, hsame, if_true, hu, Bool.false_eq_true, if_false]

theorem Segment.exists_files (h : segment.valueType = .arrayFile) :
    ∃ files : List File, segment.value = .list (files.map .file) := by
  have hvalid := segment.valid
  rw [h] at hvalid
  cases hvalue : segment.value with
  | list items =>
    rw [hvalue] at hvalid
    have hall : ∀ item ∈ items, ∃ f, item = Value.file f := by
      intro item hitem
      have hfile := List.all_eq_true.mp hvalid item hitem
      cases item with
      | file f => exact ⟨f, rfl⟩
      | _ => cases hfile
    clear hvalid hvalue
    induction items with
    | nil => exact ⟨[], rfl⟩
    | cons item items ih =>
      obtain ⟨⟨f, rfl⟩, hrest⟩ := List.forall_mem_cons.mp hall
      obtain ⟨files, hfiles⟩ := ih hrest
      exact ⟨f :: files, by rw [List.map_cons, Value.list.inj hfiles]⟩
  | _ =>
    rw [hvalue] at hvalid
    cases hvalid

private theorem dumpsItems_files {files : List File}
    (h : Value.dumpsItems (files.map File.modelDump) = some l) : l = files.map File.modelDump := by
  induction files generalizing l with
  | nil =>
    cases h
    rfl
  | cons f files ih =>
    obtain ⟨j, hj, h⟩ := Option.bind_eq_some_iff.mp h
    obtain ⟨rest, hrest, he⟩ := Option.bind_eq_some_iff.mp h
    cases he
    rw [File.eq_modelDump hj, ih hrest, List.map_cons]

private theorem finite_files (files : List File) :
    Value.finiteItems (files.map .file) = true := by
  induction files with
  | nil => rfl
  | cons f files ih => exact ih

private theorem rebuild_files (lib : Libraries) (f : File) (files : List File)
    (hf : f.difyModelIdentity = fileModelIdentity) :
    rebuildFileTypes lib (.list ((f :: files).map File.modelDump)) =
      some (.list ((f :: files).map .file)) := by
  have hall : ((f :: files).map File.modelDump).mapM (File.modelValidate lib) =
      some (f :: files) := by
    rw [Collect.mapM_eq_some_iff, List.forall₂_map_left_iff]
    exact List.forall₂_same.mpr fun f _ => File.modelValidate_modelDump lib f
  unfold rebuildFileTypes
  rw [List.map_cons] at hall ⊢
  simp only [File.maybeFileObject_modelDump, hf, beq_self_eq_true, if_true, hall, Option.map_some]

private theorem decode_list (lib : Libraries) (f : File) (files : List File) :
    (∃ decoded, buildSegmentWithType lib .arrayFile (.list ((f :: files).map File.modelDump)) =
        some decoded) ↔ f.difyModelIdentity = fileModelIdentity := by
  by_cases hf : f.difyModelIdentity = fileModelIdentity
  · refine iff_of_true ?_ hf
    unfold buildSegmentWithType
    simp only [rebuild_files lib f files hf, Option.bind_some]
    refine (buildWithType_iff (by simp)).mpr (.inl ?_)
    refine infer_of_const (u := .file) (by simp) rfl fun item hitem => ?_
    obtain ⟨f', -, rfl⟩ := List.mem_map.mp hitem
    rfl
  · refine iff_of_false (fun ⟨decoded, h⟩ => ?_) hf
    have hsame : rebuildFileTypes lib (.list ((f :: files).map File.modelDump)) =
        some (.list ((f :: files).map File.modelDump)) := by
      unfold rebuildFileTypes
      simp [File.maybeFileObject_modelDump, hf]
    unfold buildSegmentWithType at h
    simp only [hsame, Option.bind_some] at h
    have hobject : (Value.list ((f :: files).map File.modelDump)).inferSegmentType =
        some .arrayObject := by
      refine infer_of_const (u := .object) (by simp) rfl fun item hitem => ?_
      obtain ⟨f', -, rfl⟩ := List.mem_map.mp hitem
      rfl
    rcases (buildWithType_iff (by simp)).mp ⟨decoded, h⟩ with htype | ⟨hempty, -⟩
    · rw [hobject] at htype
      cases htype
    · cases hempty

theorem decode_files (lib : Libraries) (hfiles : segment.valueType.holdsFiles)
    (h : dumpsWithSegments segment.valueType segment.value = some j) :
    ((∃ decoded, buildSegmentWithType lib segment.valueType j = some decoded) ↔
      segment.Decodable) ∧ segment.value.finite = true ∧
      ∀ decoded, buildSegmentWithType lib segment.valueType j = some decoded →
        decoded.value = segment.value := by
  rcases hfiles with htype | htype
  · obtain ⟨type, value, valid⟩ := segment
    dsimp only at htype
    subst htype
    cases value with
    | file f =>
      have hj : j = f.modelDump := File.eq_modelDump h
      have hbuild : buildSegmentWithType lib .file j =
          if f.difyModelIdentity = fileModelIdentity then some ⟨.file, .file f, rfl⟩ else none := by
        rw [hj]
        show (rebuildFileTypes lib f.modelDump).bind (Segment.buildWithType .file) = _
        have hvalidate := File.modelValidate_modelDump lib f
        have hmaybe := f.maybeFileObject_modelDump
        unfold File.modelDump at hvalidate hmaybe ⊢
        unfold rebuildFileTypes
        dsimp only
        rw [hvalidate, hmaybe]
        by_cases hf : f.difyModelIdentity = fileModelIdentity
        · rw [if_pos (beq_iff_eq.mpr hf), if_pos hf]
          rfl
        · rw [if_neg (mt beq_iff_eq.mp hf), if_neg hf]
          rfl
      dsimp only
      rw [hbuild]
      refine ⟨?_, rfl, fun decoded hdecoded => ?_⟩
      · show _ ↔ f.difyModelIdentity = fileModelIdentity
        split
        next hf => exact iff_of_true ⟨_, rfl⟩ hf
        next hf => exact iff_of_false (fun ⟨_, hnone⟩ => by cases hnone) hf
      · split at hdecoded
        next =>
          cases hdecoded
          rfl
        next => cases hdecoded
    | _ => cases valid
  · obtain ⟨files, hvalue⟩ := Segment.exists_files htype
    have hj : j = .list (files.map File.modelDump) := by
      rw [htype, hvalue] at h
      have hdefault : segmentOrjsonDefault .arrayFile (.list (files.map .file)) =
          .list (files.map File.modelDump) := by
        simp [segmentOrjsonDefault]
      unfold dumpsWithSegments at h
      rw [hdefault] at h
      obtain ⟨l, hl, he⟩ := Option.map_eq_some_iff.mp h
      rw [← he, dumpsItems_files hl]
    unfold Segment.Decodable
    rw [htype, hvalue, hj]
    refine ⟨?_, finite_files files, fun decoded hdecoded => ?_⟩
    · cases files with
      | nil => exact iff_of_true ⟨⟨.arrayFile, .list [], rfl⟩, rfl⟩ trivial
      | cons f files => exact decode_list lib f files
    · cases files with
      | nil =>
        cases hdecoded
        rfl
      | cons f files =>
        have hf := (decode_list lib f files).mp ⟨decoded, hdecoded⟩
        unfold buildSegmentWithType at hdecoded
        simp only [rebuild_files lib f files hf, Option.bind_some] at hdecoded
        exact value_of_buildWithType hdecoded

theorem decodable_iff (h : ¬ segment.valueType.holdsFiles) :
    segment.Decodable ↔ segment.value.HasType segment.valueType := by
  unfold Segment.Decodable
  split
  next htype _ => exact absurd (.inl htype) h
  next htype _ => exact absurd (.inr htype) h
  next htype _ => exact absurd (.inr htype) h
  next => rfl

/-- Without files a segment is written as its value is, and decoded by its type. -/
theorem decode_plain (lib : Libraries) {type : SegmentType} (h : ¬ type.holdsFiles)
    (value : Value) :
    dumpsWithSegments type value = value.dumps ∧
      buildSegmentWithType lib type value = Segment.buildWithType type value := by
  constructor
  · unfold dumpsWithSegments segmentOrjsonDefault
    split
    next => exact absurd (.inl rfl) h
    next => exact absurd (.inr rfl) h
    next => rfl
  · unfold buildSegmentWithType
    split
    next => exact absurd (.inl rfl) h
    next => exact absurd (.inl rfl) h
    next => exact absurd (.inl rfl) h
    next => exact absurd (.inr rfl) h
    next => exact absurd (.inr rfl) h
    next => rfl

theorem valueType_of_decode {decoded : Segment} (ht : t ≠ .number)
    (h : buildSegmentWithType lib t j = some decoded) : decoded.valueType = t := by
  unfold buildSegmentWithType at h
  split at h
  next => exact valueType_of_buildWithType ht h
  next =>
    obtain ⟨v, -, hbuild⟩ := Option.bind_eq_some_iff.mp h
    exact valueType_of_buildWithType ht hbuild
  next => cases h
  next =>
    obtain ⟨v, -, hbuild⟩ := Option.bind_eq_some_iff.mp h
    exact valueType_of_buildWithType ht hbuild
  next => cases h
  next => exact valueType_of_buildWithType ht h

theorem Segment.valueType_ne_number (segment : Segment) : segment.valueType ≠ .number := by
  intro h
  have hvalid := segment.valid
  rw [h] at hvalid
  cases hvalid

private theorem buildTypes_files (files : List File) :
    Value.buildTypes (files.map .file) = some (files.map fun _ => .file) := by
  induction files with
  | nil => rfl
  | cons f files ih =>
    rw [List.map_cons, Value.buildTypes, ih]
    rfl

/-- A value that is changed as it is rebuilt becomes a file or a list of files. -/
theorem value_of_buildSegment (h : buildSegmentForSerializedValues lib v = some segment)
    (hfiles : ¬ segment.valueType.holdsFiles) : segment.value = v := by
  obtain ⟨rebuilt, hrebuilt, hbuild⟩ := Option.bind_eq_some_iff.mp h
  obtain ⟨type, htype, hof⟩ := Option.bind_eq_some_iff.mp hbuild
  obtain ⟨rfl, hvalue⟩ := ofType_eq_some hof
  rw [hvalue]
  unfold rebuildFileTypes at hrebuilt
  split at hrebuilt
  next entries =>
    split at hrebuilt
    next =>
      obtain ⟨f, -, rfl⟩ := Option.map_eq_some_iff.mp hrebuilt
      exact absurd (.inl (Option.some.inj htype).symm) hfiles
    next => exact (Option.some.inj hrebuilt).symm
  next first items =>
    split at hrebuilt
    next =>
      obtain ⟨files, hall, rfl⟩ := Option.map_eq_some_iff.mp hrebuilt
      obtain ⟨f, rest, -, -, rfl⟩ :=
        List.forall₂_cons_left_iff.mp (Collect.mapM_eq_some_iff.mp hall)
      unfold Value.buildType at htype
      rw [buildTypes_files, Option.bind_some, List.map_cons] at htype
      have harray :
          SegmentType.buildArray (.file :: rest.map fun _ => .file) = some .arrayFile := by
        simp [SegmentType.buildArray, SegmentType.isArrayType, SegmentType.arrayOf]
      exact absurd (.inr (Option.some.inj (htype.symm.trans harray))) hfiles
    next => exact (Option.some.inj hrebuilt).symm
  next => exact (Option.some.inj hrebuilt).symm

/-- A segment comes back from its stored value as the value of an output if and only if it is
decodable, its floats are finite and it is that value itself. -/
theorem decode_iff (h : dumpsWithSegments segment.valueType segment.value = some j)
    (hvalue : ¬ segment.valueType.holdsFiles → segment.value = output) :
    (∃ decoded, buildSegmentWithType lib segment.valueType j = some decoded ∧
        decoded.value.Same output) ↔
      segment.Decodable ∧ segment.value.finite = true ∧ segment.value.Same output := by
  by_cases hfiles : segment.valueType.holdsFiles
  · obtain ⟨hdecode, hfinite, hsame⟩ := decode_files lib hfiles h
    rw [← hdecode]
    constructor
    · rintro ⟨decoded, hdecoded, hout⟩
      exact ⟨⟨decoded, hdecoded⟩, hfinite, hsame decoded hdecoded ▸ hout⟩
    · rintro ⟨⟨decoded, hdecoded⟩, -, hout⟩
      exact ⟨decoded, hdecoded, (hsame decoded hdecoded).symm ▸ hout⟩
  · obtain rfl := hvalue hfiles
    rw [(decode_plain lib hfiles _).1] at h
    rw [(decode_plain lib hfiles _).2, decodable_iff hfiles]
    have hfinite := Value.dumps_eq_self_iff h
    constructor
    · rintro ⟨decoded, hdecoded, hout⟩
      have hj := (Value.same_iff h).mp (value_of_buildWithType hdecoded ▸ hout)
      rw [hj] at hdecoded hfinite
      exact ⟨(buildWithType_iff segment.valueType_ne_number).mp ⟨decoded, hdecoded⟩,
        hfinite.mp rfl, .refl _⟩
    · rintro ⟨htype, hfin, -⟩
      obtain rfl := hfinite.mpr hfin
      obtain ⟨decoded, hdecoded⟩ := (buildWithType_iff segment.valueType_ne_number).mpr htype
      exact ⟨decoded, hdecoded, value_of_buildWithType hdecoded ▸ .refl _⟩

/-- Two types differ at most as types of arrays. -/
private def Similar (t u : SegmentType) : Prop :=
  t = u ∨ (t.isArrayType = true ∧ u.isArrayType = true)

private theorem Similar.eq_of_left (h : Similar t u) (ht : t.isArrayType = false) : u = t := by
  rcases h with h | ⟨h, -⟩
  · exact h.symm
  · rw [ht] at h
    cases h

private theorem Similar.eq_of_right (h : Similar t u) (hu : u.isArrayType = false) : t = u := by
  rcases h with h | ⟨-, h⟩
  · exact h
  · rw [hu] at h
    cases h

private theorem Similar.symm (h : Similar t u) : Similar u t :=
  h.imp Eq.symm And.symm

private theorem Similar.flags (h : Similar t u) :
    t.isArrayType = u.isArrayType ∧ t.isNumerical = u.isNumerical := by
  have hnumerical : ∀ t : SegmentType, t.isArrayType = true → t.isNumerical = false := by
    intro t ht
    cases t <;> first | rfl | cases ht
  rcases h with rfl | ⟨ht, hu⟩
  · exact ⟨rfl, rfl⟩
  · exact ⟨ht.trans hu.symm, (hnumerical t ht).trans (hnumerical u hu).symm⟩

variable {ts us : List SegmentType}

private theorem all_similar {p : SegmentType → Bool} (hp : ∀ t u, Similar t u → p t = p u)
    (h : List.Forall₂ Similar ts us) : ts.all p = us.all p := by
  induction h with
  | nil => rfl
  | @cons t u _ _ htu _ ih => rw [List.all_cons, List.all_cons, hp t u htu, ih]

private theorem all_eq_of_similar {t₀ : SegmentType}
    (h : List.Forall₂ Similar ts us) (ht₀ : t₀.isArrayType = false) (hall : ∀ t ∈ ts, t = t₀) :
    ∀ u ∈ us, u = t₀ := by
  induction h with
  | nil => simp
  | cons htu _ ih =>
    obtain ⟨rfl, hrest⟩ := List.forall_mem_cons.mp hall
    exact List.forall_mem_cons.mpr ⟨htu.eq_of_left ht₀, ih hrest⟩

private theorem inferArray_of_similar
    (h : List.Forall₂ Similar ts us) (hne : ts ≠ []) (ht : SegmentType.buildArray ts = some t) :
    SegmentType.inferArray us = some t := by
  have harrays := all_similar (fun _ _ h => h.flags.1) h
  have hnumbers := all_similar (fun _ _ h => h.flags.2) h
  obtain ⟨t₀, ts, rfl⟩ := List.exists_cons_of_ne_nil hne
  obtain ⟨u₀, us, h₀, hrest, rfl⟩ := List.forall₂_cons_left_iff.mp h
  unfold SegmentType.buildArray at ht
  unfold SegmentType.inferArray
  dsimp only
  have hmixed : SegmentType.arrayOfMixed (u₀ :: us) = SegmentType.arrayOfMixed (t₀ :: ts) := by
    unfold SegmentType.arrayOfMixed
    rw [hnumbers]
  rw [hmixed]
  split at ht
  next hall =>
    -- arrays only: whether or not their types agree
    rw [← ht]
    have hu₀ : u₀.isArrayType = true := by
      rw [harrays, List.all_cons, Bool.and_eq_true] at hall
      exact hall.1
    rw [hu₀, if_pos rfl]
    have hany : SegmentType.arrayOfMixed (t₀ :: ts) = .arrayAny := by
      have hnumber : u₀.isNumerical = false := by cases u₀ <;> first | rfl | cases hu₀
      unfold SegmentType.arrayOfMixed
      rw [hnumbers, List.all_cons, hnumber, Bool.false_and, if_neg Bool.false_ne_true]
    rw [hany, ite_self]
  next hall =>
    dsimp only at ht
    split at ht
    next heq =>
      -- one type, which is not one of arrays: it is inferred for every element
      have ht₀ : t₀.isArrayType = false := by
        by_contra harr
        refine hall (List.all_eq_true.mpr (List.forall_mem_cons.mpr ⟨by simpa using harr, ?_⟩))
        intro t ht
        rw [of_decide_eq_true (List.all_eq_true.mp heq t ht)]
        simpa using harr
      have hus := all_eq_of_similar hrest ht₀ fun t ht =>
        of_decide_eq_true (List.all_eq_true.mp heq t ht)
      rw [h₀.eq_of_left ht₀, if_pos (List.all_eq_true.mpr fun u hu => decide_eq_true (hus u hu)),
        ht₀, if_neg Bool.false_ne_true, ht]
    next heq =>
      rw [if_neg, ht]
      intro hsame
      have hus : ∀ u ∈ us, u = u₀ := fun u hu =>
        of_decide_eq_true (List.all_eq_true.mp hsame u hu)
      have hu₀ : u₀.isArrayType = false := by
        by_contra harr
        refine hall (harrays.trans (List.all_eq_true.mpr (List.forall_mem_cons.mpr
          ⟨by simpa using harr, ?_⟩)))
        intro u hu
        rw [hus u hu]
        simpa using harr
      have hts := all_eq_of_similar (hrest.flip.imp fun _ _ h => Similar.symm h) hu₀ hus
      rw [← h₀.eq_of_right hu₀] at hts
      exact heq (List.all_eq_true.mpr fun t ht => decide_eq_true (hts t ht))

mutual

private theorem infer_of_buildType : ∀ {v : Value} {t : SegmentType}, v.buildType = some t →
    ∃ u, v.inferSegmentType = some u ∧ Similar t u ∧ (v ≠ .list [] → u = t)
  | .list items, t, h => by
    unfold Value.buildType at h
    obtain ⟨ts, hts, harray⟩ := Option.bind_eq_some_iff.mp h
    obtain ⟨us, hus, hall⟩ := infer_of_buildTypes hts
    unfold Value.inferSegmentType
    rw [hus, Option.bind_some]
    cases items with
    | nil =>
      cases hts
      cases hus
      cases harray
      exact ⟨.arrayNumber, rfl, .inr ⟨rfl, rfl⟩, fun hne => absurd rfl hne⟩
    | cons item items =>
      have hne : ts ≠ [] := by
        rintro rfl
        obtain ⟨t, -, hbind⟩ := Option.bind_eq_some_iff.mp hts
        obtain ⟨types, -, he⟩ := Option.bind_eq_some_iff.mp hbind
        cases he
      exact ⟨t, inferArray_of_similar hall hne harray, .inl rfl, fun _ => rfl⟩
  | .none, t, h => ⟨t, h, .inl rfl, fun _ => rfl⟩
  | .bool _, t, h => ⟨t, h, .inl rfl, fun _ => rfl⟩
  | .int _, t, h => ⟨t, h, .inl rfl, fun _ => rfl⟩
  | .float _, t, h => ⟨t, h, .inl rfl, fun _ => rfl⟩
  | .str _, t, h => ⟨t, h, .inl rfl, fun _ => rfl⟩
  | .dict _, t, h => ⟨t, h, .inl rfl, fun _ => rfl⟩
  | .file _, t, h => ⟨t, h, .inl rfl, fun _ => rfl⟩

private theorem infer_of_buildTypes : ∀ {items : List Value} {ts : List SegmentType},
    Value.buildTypes items = some ts →
      ∃ us, Value.inferSegmentTypes items = some us ∧ List.Forall₂ Similar ts us
  | [], ts, h => by
    cases h
    exact ⟨[], rfl, .nil⟩
  | item :: items, ts, h => by
    obtain ⟨t, ht, hbind⟩ := Option.bind_eq_some_iff.mp h
    obtain ⟨rest, hrest, he⟩ := Option.bind_eq_some_iff.mp hbind
    cases he
    obtain ⟨u, hu, htu, -⟩ := infer_of_buildType ht
    obtain ⟨us, hus, hall⟩ := infer_of_buildTypes hrest
    refine ⟨u :: us, ?_, .cons htu hall⟩
    rw [Value.inferSegmentTypes, hu, hus]
    rfl

end

theorem exists_infer_of_buildType (h : v.buildType = some t) :
    ∃ u, v.inferSegmentType = some u ∧ (v ≠ .list [] → u = t) := by
  obtain ⟨u, hu, -, he⟩ := infer_of_buildType h
  exact ⟨u, hu, he⟩

theorem hasType_of_buildType (h : v.buildType = some t) : v.HasType t := by
  by_cases hempty : v = .list []
  · subst hempty
    cases h
    exact .inr ⟨rfl, rfl⟩
  · obtain ⟨u, hu, he⟩ := exists_infer_of_buildType h
    exact .inl (he hempty ▸ hu)

/-- What is built for a value that is not taken for files can be decoded again. -/
theorem decodable_of_buildSegment {lib : Libraries}
    (h : buildSegmentForSerializedValues lib v = some segment)
    (hfiles : ¬ segment.valueType.holdsFiles) : segment.Decodable := by
  have hvalue := value_of_buildSegment h hfiles
  obtain ⟨rebuilt, -, hbuild⟩ := Option.bind_eq_some_iff.mp h
  obtain ⟨type, htype, hof⟩ := Option.bind_eq_some_iff.mp hbuild
  obtain ⟨rfl, hrebuilt⟩ := ofType_eq_some hof
  rw [decodable_iff hfiles, hrebuilt]
  exact hasType_of_buildType htype

end PlatformSpec.DraftVariable
