import PlatformSpec.Snapshot.Pool

/-!
# Variables that survive a dump

A dump writes a file as a dictionary of its fields, without the storage key. The class of a variable
reads files where it holds nothing else; elsewhere the dictionaries stay.
-/

namespace PlatformSpec.Snapshot

open Base DraftVariable

namespace Datum

mutual

/-- No file is part of the value. -/
def FileFree : Datum → Prop
  | .list items => FileFreeItems items
  | .dict entries => FileFreeEntries entries
  | .file _ _ => False
  | _ => True

def FileFreeItems : List Datum → Prop
  | [] => True
  | item :: items => item.FileFree ∧ FileFreeItems items

def FileFreeEntries : List (String × Datum) → Prop
  | [] => True
  | (_, value) :: entries => value.FileFree ∧ FileFreeEntries entries

end

mutual

theorem load_dump_iff (d : Datum) : load d.dump = d ↔ d.FileFree := by
  cases d with
  | list items => simpa [dump, load, FileFree] using loadItems_dumpItems_iff items
  | dict entries => simpa [dump, load, FileFree] using loadEntries_dumpEntries_iff entries
  | file f key => simp [dump, File.modelDump, load, FileFree]
  | none | bool | int | float | str => simp [dump, load, FileFree]

theorem loadItems_dumpItems_iff (items : List Datum) :
    loadItems (dumpItems items) = items ↔ FileFreeItems items := by
  cases items with
  | nil => simp [dumpItems, loadItems, FileFreeItems]
  | cons item items =>
    simp [dumpItems, loadItems, FileFreeItems, load_dump_iff item, loadItems_dumpItems_iff items]

theorem loadEntries_dumpEntries_iff (entries : List (String × Datum)) :
    loadEntries (dumpEntries entries) = entries ↔ FileFreeEntries entries := by
  cases entries with
  | nil => simp [dumpEntries, loadEntries, FileFreeEntries]
  | cons entry entries =>
    obtain ⟨name, value⟩ := entry
    simp [dumpEntries, loadEntries, FileFreeEntries, load_dump_iff value,
      loadEntries_dumpEntries_iff entries]

end

mutual

theorem toValue_load (value : Value) : (load value).toValue = value := by
  cases value with
  | list items => simp [load, toValue, toValues_loadItems items]
  | dict entries => simp [load, toValue, toEntries_loadEntries entries]
  | none | bool | int | float | str | file => simp [load, toValue]

theorem toValues_loadItems (items : List Value) : toValues (loadItems items) = items := by
  cases items with
  | nil => rfl
  | cons item items => simp [loadItems, toValues, toValue_load item, toValues_loadItems items]

theorem toEntries_loadEntries (entries : List (String × Value)) :
    toEntries (loadEntries entries) = entries := by
  cases entries with
  | nil => rfl
  | cons entry entries =>
    obtain ⟨name, value⟩ := entry
    simp [loadEntries, toEntries, toValue_load value, toEntries_loadEntries entries]

end

private theorem all_dumpItems {p : Value → Bool} (h : ∀ d : Datum, p d.toValue = true →
    p d.dump = true) {items : List Datum} (hall : (toValues items).all p = true) :
    (dumpItems items).all p = true := by
  induction items with
  | nil => rfl
  | cons item items ih =>
    simp only [toValues, List.all_cons, Bool.and_eq_true] at hall
    simp only [dumpItems, List.all_cons, Bool.and_eq_true]
    exact ⟨h item hall.1, ih hall.2⟩

/-- What a class without files accepts is dumped as something that it accepts. -/
theorem accepts_dump {type : SegmentType} (hfile : type ≠ .file) (harray : type ≠ .arrayFile)
    {d : Datum} (h : type.accepts d.toValue = true) : type.accepts d.dump = true := by
  cases d with
  | none | bool | int | float | str => exact h
  | dict entries => cases type <;> first | rfl | exact h
  | file f key =>
    cases type <;> first | exact absurd rfl hfile | cases h
  | list items =>
    cases type with
    | arrayFile => exact absurd rfl harray
    | arrayAny | group => rfl
    | arrayString | arrayNumber | arrayObject | arrayBoolean =>
      refine all_dumpItems (fun d hd => ?_) h
      cases d <;> first | exact hd | rfl
    | _ => cases h

end Datum

variable (lib : Libraries)

/-- A dump of the value of a class is read back. -/
def Portable (type : SegmentType) (value : Datum) : Prop :=
  match type with
  | .file => ∃ f, value = .file f "None"
  | .arrayFile => ∃ files : List File, value = .list (files.map (.file · "None"))
  | type => isVariableType type = true ∧ type.accepts value.toValue = true ∧ value.FileFree

@[simp] theorem rereadFile_modelDump (f : File) :
    rereadFile lib f.modelDump = some (.file f "None") := by
  have hkey : storageKey lib f.fields = "None" := by
    have hnone : f.fields.lookup "storage_key" = none := by simp [File.fields, List.lookup_cons]
    rw [storageKey, hnone]
  have hvalid := File.modelValidate_modelDump lib.toLibraries f
  simp only [File.modelDump] at hvalid ⊢
  simp [rereadFile, hvalid, hkey]

variable {d value : Datum}

theorem exists_of_rereadFile {value : Value} (h : rereadFile lib value = some d) :
    ∃ f key, d = .file f key := by
  unfold rereadFile at h
  split at h
  next =>
    obtain ⟨f, -, rfl⟩ := Option.map_eq_some_iff.mp h
    exact ⟨f, _, rfl⟩
  next => cases h

theorem exists_of_mapM_rereadFile {items : List Value} {files : List Datum}
    (h : items.mapM (rereadFile lib) = some files) :
    ∃ fs : List (File × String), files = fs.map fun f => .file f.1 f.2 := by
  induction items generalizing files with
  | nil =>
    cases h
    exact ⟨[], rfl⟩
  | cons item items ih =>
    rw [List.mapM_cons] at h
    obtain ⟨d, hd, hrest⟩ := Option.bind_eq_some_iff.mp h
    obtain ⟨ds, hds, hfiles⟩ := Option.bind_eq_some_iff.mp hrest
    obtain ⟨f, key, rfl⟩ := exists_of_rereadFile lib hd
    obtain ⟨fs, rfl⟩ := ih hds
    cases hfiles
    exact ⟨(f, key) :: fs, rfl⟩

private theorem mapM_rereadFile_dump (fs : List (File × String)) :
    (Datum.dumpItems (fs.map fun f => .file f.1 f.2)).mapM (rereadFile lib) =
      some (fs.map fun f => .file f.1 "None") := by
  induction fs with
  | nil => rfl
  | cons f fs ih => simp [Datum.dumpItems, Datum.dump, ih]

theorem rereadValue_file_iff :
    rereadFile lib value.dump = some value ↔ ∃ f, value = .file f "None" := by
  constructor
  · intro h
    obtain ⟨f, key, rfl⟩ := exists_of_rereadFile lib h
    rw [Datum.dump, rereadFile_modelDump] at h
    exact ⟨f, (Option.some.inj h).symm⟩
  · rintro ⟨f, rfl⟩
    exact rereadFile_modelDump lib f

theorem rereadValue_arrayFile_iff : rereadValue lib .arrayFile value.dump = some value ↔
      ∃ files : List File, value = .list (files.map (.file · "None")) := by
  constructor
  · intro h
    cases value with
    | list items =>
      obtain ⟨files, hfiles, hitems⟩ := Option.map_eq_some_iff.mp h
      cases hitems
      obtain ⟨fs, rfl⟩ := exists_of_mapM_rereadFile lib hfiles
      rw [mapM_rereadFile_dump] at hfiles
      exact ⟨fs.map Prod.fst, by simpa using (Option.some.inj hfiles).symm⟩
    | _ => cases h
  · rintro ⟨files, rfl⟩
    have hfiles := mapM_rereadFile_dump lib (files.map (·, "None"))
    rw [List.map_map, List.map_map] at hfiles
    exact congrArg (Option.map Datum.list) hfiles

variable {type : SegmentType}

theorem rereadValue_of_ne (hfile : type ≠ .file)
    (harray : type ≠ .arrayFile) (value : Value) : rereadValue lib type value =
      if isVariableType type then (lib.validate type value).map Datum.load else none := by
  cases type with
  | file => exact absurd rfl hfile
  | arrayFile => exact absurd rfl harray
  | _ => rfl

theorem portable_of_ne (hfile : type ≠ .file) (harray : type ≠ .arrayFile) : Portable type value ↔
      isVariableType type = true ∧ type.accepts value.toValue = true ∧ value.FileFree := by
  cases type with
  | file => exact absurd rfl hfile
  | arrayFile => exact absurd rfl harray
  | _ => rfl

private theorem validate_dump_load (hfile : type ≠ .file)
    (harray : type ≠ .arrayFile) {value read : Value} (h : lib.validate type value = some read) :
    type.accepts read = true ∧
      lib.validate type (Datum.load read).dump = some (Datum.load read).dump := by
  have haccepts := lib.accepts_of_validate type _ read h
  refine ⟨haccepts, lib.validate_of_accepts type _ (Datum.accepts_dump hfile harray ?_)⟩
  rw [Datum.toValue_load]
  exact haccepts

theorem validate_dump_iff (hfile : type ≠ .file) (harray : type ≠ .arrayFile) :
    (lib.validate type value.dump).map Datum.load = some value ↔
      type.accepts value.toValue = true ∧ value.FileFree := by
  constructor
  · intro h
    obtain ⟨read, hread, rfl⟩ := Option.map_eq_some_iff.mp h
    obtain ⟨haccepts, hdump⟩ := validate_dump_load lib hfile harray hread
    rw [Datum.toValue_load]
    refine ⟨haccepts, (Datum.load_dump_iff _).mp ?_⟩
    exact congrArg Datum.load (Option.some.inj (hdump.symm.trans hread))
  · rintro ⟨haccepts, hfree⟩
    rw [lib.validate_of_accepts type _ (Datum.accepts_dump hfile harray haccepts), Option.map_some,
      (Datum.load_dump_iff value).mpr hfree]

theorem rereadValue_iff : rereadValue lib type value.dump = some value ↔ Portable type value := by
  by_cases hfile : type = .file
  · subst hfile
    exact rereadValue_file_iff lib
  · by_cases harray : type = .arrayFile
    · subst harray
      exact rereadValue_arrayFile_iff lib
    · rw [rereadValue_of_ne lib hfile harray, portable_of_ne hfile harray,
        ← validate_dump_iff lib hfile harray]
      cases isVariableType type <;> simp

private theorem exists_rereadValue_dump {value : Value}
    (h : rereadValue lib type value = some d) : ∃ d', rereadValue lib type d.dump = some d' := by
  by_cases hfile : type = .file
  · subst hfile
    obtain ⟨f, key, rfl⟩ := exists_of_rereadFile lib h
    exact ⟨_, rereadFile_modelDump lib f⟩
  · by_cases harray : type = .arrayFile
    · subst harray
      cases value with
      | list items =>
        obtain ⟨files, hfiles, rfl⟩ := Option.map_eq_some_iff.mp h
        obtain ⟨fs, rfl⟩ := exists_of_mapM_rereadFile lib hfiles
        exact ⟨_, congrArg (Option.map Datum.list) (mapM_rereadFile_dump lib fs)⟩
      | _ => cases h
    · rw [rereadValue_of_ne lib hfile harray] at h ⊢
      split at h
      next htype =>
        obtain ⟨read, hread, rfl⟩ := Option.map_eq_some_iff.mp h
        rw [if_pos htype, (validate_dump_load lib hfile harray hread).2]
        exact ⟨_, rfl⟩
      next => cases h

namespace Variable

/-- A dump of the variable is validated. -/
def Readable (v : Variable) : Prop := ∃ v', v.reread lib = some v'

variable {v v' : Variable}

theorem reread_eq_self_iff : v.reread lib = some v ↔ Portable v.valueType v.value := by
  rw [← rereadValue_iff lib, reread, Option.map_eq_some_iff]
  constructor
  · rintro ⟨value, hvalue, hv⟩
    rw [hvalue, ← hv]
  · intro h
    exact ⟨v.value, h, rfl⟩

theorem name_of_reread (h : v.reread lib = some v') : v'.name = v.name := by
  obtain ⟨value, -, rfl⟩ := Option.map_eq_some_iff.mp h
  rfl

theorem readable_of_reread (h : v.reread lib = some v') : v'.Readable lib := by
  obtain ⟨value, hvalue, rfl⟩ := Option.map_eq_some_iff.mp h
  obtain ⟨value', hvalue'⟩ := exists_rereadValue_dump lib hvalue
  exact ⟨_, Option.map_eq_some_iff.mpr ⟨value', hvalue', rfl⟩⟩

end Variable
end PlatformSpec.Snapshot
