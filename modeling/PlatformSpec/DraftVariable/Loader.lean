import Mathlib.Data.List.Dedup
import PlatformSpec.DraftVariable.Decoding
import PlatformSpec.DraftVariable.Storage

/-!
# Loading draft variables

Models `DraftVarLoader.load_variables` with `StorageKeyLoader`, and settles when a row loads as the
value that was stored.
-/

namespace PlatformSpec.DraftVariable

open Base Storage

/-- What `StorageKeyLoader` reads: the tenant, how an id is read, and the files of the tenant. -/
structure FileRecords where
  tenantId : String
  uuid : String → Option Nat
  uploadFiles : Nat → Bool
  toolFiles : Nat → Bool

/-- `load_storage_keys` does not raise on a file. -/
def FileRecords.hasStorageKey (records : FileRecords) (f : File) : Bool :=
  f.tenantId == records.tenantId && (f.relatedId.bind records.uuid).any fun id =>
    match f.transferMethod with
    | .remoteUrl | .localFile => records.uploadFiles id
    | .toolFile => records.toolFiles id
    | .datasourceFile => true

/-- The files in a file segment or an array of files. -/
def Segment.files (segment : Segment) : List File :=
  match segment.valueType, segment.value with
  | .file, .file f => [f]
  | .arrayFile, .list items => items.filterMap fun
    | .file f => some f
    | _ => none
  | _, _ => []

/-- `content.decode()`. -/
def Content.decode (lib : Libraries) : Content → String
  | .text s => s
  | .json value => lib.text value

/-- `json.loads(content)`. -/
def Content.loads (lib : Libraries) : Content → Option Value
  | .text s => lib.loads s
  | .json value => some value

/-- `WorkflowDraftVariable.get_value`. -/
def WorkflowDraftVariable.getValue (lib : Libraries) (draftVar : WorkflowDraftVariable) :
    Option Segment :=
  buildSegmentWithType lib draftVar.valueType draftVar.value

/-- `DraftVarLoader`. -/
structure DraftVarLoader where
  lib : Libraries
  records : FileRecords
  appId : String
  userId : String

namespace DraftVarLoader

variable (loader : DraftVarLoader) (s : Storage)

/-- `_load_offloaded_variable`. -/
def loadOffloadedVariable (draftVar : WorkflowDraftVariable) : Option Segment := do
  let fileId ← draftVar.fileId
  let variableFile ← s.files fileId
  let upload ← s.uploads variableFile.uploadFileId
  let content ← s.objects upload.key
  if variableFile.valueType = .string then
    Segment.ofType .string (.str (content.decode loader.lib))
  else
    let deserialized ← content.loads loader.lib
    buildSegmentWithType loader.lib variableFile.valueType deserialized

/-- `get_draft_variables_by_selectors`. -/
def getDraftVariablesBySelectors (selectors : List (String × String)) :
    List ((String × String) × WorkflowDraftVariable) :=
  selectors.dedup.filterMap fun selector =>
    (s.draftVars ⟨loader.appId, loader.userId, selector.1, selector.2⟩).map (selector, ·)

/-- `load_variables`: the values that are not offloaded are decoded before the others are loaded,
and so are the truncated values of these. -/
def loadVariables (selectors : List (String × String)) :
    Option (List ((String × String) × Segment)) := do
  let draftVars := loader.getDraftVariablesBySelectors s selectors
  let values ← draftVars.mapM fun row => row.2.getValue loader.lib
  if !values.all fun value => value.files.all loader.records.hasStorageKey then none
  else
    let draftVariables ← (draftVars.filter fun row => !row.2.isTruncated).mapM fun row =>
      (row.2.getValue loader.lib).map (row.1, ·)
    let offloadedVariables ← (draftVars.filter fun row => row.2.isTruncated).mapM fun row =>
      (loader.loadOffloadedVariable s row.2).map (row.1, ·)
    some (draftVariables ++ offloadedVariables)

/-- What one row loads to. -/
def loadVariable (draftVar : WorkflowDraftVariable) : Option Segment := do
  let value ← draftVar.getValue loader.lib
  if !value.files.all loader.records.hasStorageKey then none
  else if draftVar.isTruncated then loader.loadOffloadedVariable s draftVar
  else some value

variable {selectors : List (String × String)} {row : (String × String) × WorkflowDraftVariable}

theorem mem_getDraftVariables :
    row ∈ loader.getDraftVariablesBySelectors s selectors ↔ row.1 ∈ selectors ∧
      s.draftVars ⟨loader.appId, loader.userId, row.1.1, row.1.2⟩ = some row.2 := by
  obtain ⟨selector, draftVar⟩ := row
  simp [getDraftVariablesBySelectors, Option.map_eq_some_iff, List.mem_dedup]

theorem loadVariable_eq_some {draftVar : WorkflowDraftVariable} {segment : Segment} :
    loader.loadVariable s draftVar = some segment ↔
      ∃ value, draftVar.getValue loader.lib = some value ∧
        (∀ f ∈ value.files, loader.records.hasStorageKey f = true) ∧
        if draftVar.isTruncated then loader.loadOffloadedVariable s draftVar = some segment
        else value = segment := by
  unfold loadVariable
  rw [Option.bind_eq_bind, Option.bind_eq_some_iff]
  refine exists_congr fun value => and_congr_right fun _ => ?_
  rw [← List.all_eq_true]
  cases value.files.all loader.records.hasStorageKey with
  | false => simp
  | true =>
    cases draftVar.isTruncated with
    | false => simp
    | true => simp

variable {loaded : List ((String × String) × Segment)}

theorem loadVariables_eq_some : loader.loadVariables s selectors = some loaded ↔
      let rows := loader.getDraftVariablesBySelectors s selectors
      ∃ values draftVariables offloadedVariables,
        rows.mapM (fun row => row.2.getValue loader.lib) = some values ∧
        (∀ value ∈ values, ∀ f ∈ value.files, loader.records.hasStorageKey f = true) ∧
        (rows.filter fun row => !row.2.isTruncated).mapM
          (fun row => (row.2.getValue loader.lib).map (row.1, ·)) = some draftVariables ∧
        (rows.filter fun row => row.2.isTruncated).mapM
          (fun row => (loader.loadOffloadedVariable s row.2).map (row.1, ·)) =
            some offloadedVariables ∧
        loaded = draftVariables ++ offloadedVariables := by
  unfold loadVariables
  dsimp only
  rw [Option.bind_eq_bind, Option.bind_eq_some_iff]
  refine exists_congr fun values => ?_
  have hkeys : (∀ value ∈ values, ∀ f ∈ value.files, loader.records.hasStorageKey f = true) ↔
      (values.all fun value => value.files.all loader.records.hasStorageKey) = true := by
    simp
  simp only [hkeys]
  cases values.all fun value => value.files.all loader.records.hasStorageKey with
  | false => simp
  | true => simp [Option.bind_eq_some_iff, eq_comm (a := loaded)]

theorem mem_loadVariables (h : loader.loadVariables s selectors = some loaded)
    (hrow : row ∈ loader.getDraftVariablesBySelectors s selectors) (segment : Segment) :
    (row.1, segment) ∈ loaded ↔ loader.loadVariable s row.2 = some segment := by
  obtain ⟨values, plain, offloaded, hvalues, hkeys, hplain, hoffloaded, rfl⟩ :=
    (loader.loadVariables_eq_some s).mp h
  have hunique : ∀ row' ∈ loader.getDraftVariablesBySelectors s selectors, row'.1 = row.1 →
      row' = row := by
    intro row' hrow' he
    have h' := ((loader.mem_getDraftVariables s).mp hrow').2
    rw [he, ((loader.mem_getDraftVariables s).mp hrow).2] at h'
    exact Prod.ext he (Option.some.inj h').symm
  obtain ⟨value, hvalue⟩ := Collect.exists_mapM_iff.mp ⟨values, hvalues⟩ row hrow
  have hfiles := hkeys value ((Collect.mem_mapM hvalues).mpr ⟨row, hrow, hvalue⟩)
  rw [List.mem_append, Collect.mem_mapM hplain, Collect.mem_mapM hoffloaded,
    loader.loadVariable_eq_some s]
  constructor
  · rintro (⟨row', hrow', hload⟩ | ⟨row', hrow', hload⟩)
    · obtain ⟨hmem, hcut⟩ := List.mem_filter.mp hrow'
      obtain ⟨segment', hsegment, he⟩ := Option.map_eq_some_iff.mp hload
      obtain ⟨hselector, rfl⟩ := Prod.mk.inj he
      obtain rfl := hunique row' hmem hselector
      obtain rfl := Option.some.inj (hsegment.symm.trans hvalue)
      exact ⟨_, hvalue, hfiles, by rw [if_neg (by simpa using hcut)]⟩
    · obtain ⟨hmem, hcut⟩ := List.mem_filter.mp hrow'
      obtain ⟨segment', hsegment, he⟩ := Option.map_eq_some_iff.mp hload
      obtain ⟨hselector, rfl⟩ := Prod.mk.inj he
      obtain rfl := hunique row' hmem hselector
      exact ⟨value, hvalue, hfiles, by rw [if_pos hcut, hsegment]⟩
  · rintro ⟨value', hvalue', -, hload⟩
    cases hcut : row.2.isTruncated with
    | false =>
      rw [hcut, if_neg Bool.false_ne_true] at hload
      subst hload
      refine .inl ⟨row, List.mem_filter.mpr ⟨hrow, by simp [hcut]⟩, ?_⟩
      exact Option.map_eq_some_iff.mpr ⟨value', hvalue', rfl⟩
    | true =>
      rw [hcut, if_pos rfl] at hload
      refine .inr ⟨row, List.mem_filter.mpr ⟨hrow, hcut⟩, ?_⟩
      exact Option.map_eq_some_iff.mpr ⟨segment, hload, rfl⟩

theorem exists_loadVariables : (∃ loaded, loader.loadVariables s selectors = some loaded) ↔
      ∀ row ∈ loader.getDraftVariablesBySelectors s selectors,
        ∃ segment, loader.loadVariable s row.2 = some segment := by
  constructor
  · rintro ⟨loaded, h⟩ row hrow
    have hmem := loader.mem_loadVariables s h hrow
    obtain ⟨values, plain, offloaded, hvalues, hkeys, hplain, hoffloaded, rfl⟩ :=
      (loader.loadVariables_eq_some s).mp h
    cases hcut : row.2.isTruncated with
    | false =>
      have hin : row ∈ (loader.getDraftVariablesBySelectors s selectors).filter
          fun row => !row.2.isTruncated := List.mem_filter.mpr ⟨hrow, by simp [hcut]⟩
      obtain ⟨entry, hentry⟩ := Collect.exists_mapM_iff.mp ⟨_, hplain⟩ row hin
      obtain ⟨segment, hsegment, rfl⟩ := Option.map_eq_some_iff.mp hentry
      refine ⟨segment, (hmem segment).mp (List.mem_append_left _ ?_)⟩
      exact (Collect.mem_mapM hplain).mpr ⟨row, hin, hentry⟩
    | true =>
      have hin : row ∈ (loader.getDraftVariablesBySelectors s selectors).filter
          fun row => row.2.isTruncated := List.mem_filter.mpr ⟨hrow, hcut⟩
      obtain ⟨entry, hentry⟩ := Collect.exists_mapM_iff.mp ⟨_, hoffloaded⟩ row hin
      obtain ⟨segment, hsegment, rfl⟩ := Option.map_eq_some_iff.mp hentry
      refine ⟨segment, (hmem segment).mp (List.mem_append_right _ ?_)⟩
      exact (Collect.mem_mapM hoffloaded).mpr ⟨row, hin, hentry⟩
  · intro hall
    have hone : ∀ row ∈ loader.getDraftVariablesBySelectors s selectors, ∃ value,
        row.2.getValue loader.lib = some value ∧
          (∀ f ∈ value.files, loader.records.hasStorageKey f = true) ∧
          (row.2.isTruncated → ∃ segment, loader.loadOffloadedVariable s row.2 = some segment) := by
      intro row hrow
      obtain ⟨segment, hsegment⟩ := hall row hrow
      obtain ⟨value, hvalue, hfiles, hload⟩ := (loader.loadVariable_eq_some s).mp hsegment
      exact ⟨value, hvalue, hfiles, fun hcut => ⟨segment, by rwa [if_pos hcut] at hload⟩⟩
    obtain ⟨values, hvalues⟩ := Collect.exists_mapM_iff.mpr fun row hrow =>
      (hone row hrow).imp fun value h => h.1
    obtain ⟨plain, hplain⟩ : ∃ plain, ((loader.getDraftVariablesBySelectors s selectors).filter
        fun row => !row.2.isTruncated).mapM
          (fun row => (row.2.getValue loader.lib).map (row.1, ·)) = some plain := by
      refine Collect.exists_mapM_iff.mpr fun row hrow => ?_
      obtain ⟨value, hvalue, -⟩ := hone row (List.mem_filter.mp hrow).1
      exact ⟨_, Option.map_eq_some_iff.mpr ⟨value, hvalue, rfl⟩⟩
    obtain ⟨offloaded, hoffloaded⟩ : ∃ offloaded,
        ((loader.getDraftVariablesBySelectors s selectors).filter
          fun row => row.2.isTruncated).mapM
            (fun row => (loader.loadOffloadedVariable s row.2).map (row.1, ·)) =
              some offloaded := by
      refine Collect.exists_mapM_iff.mpr fun row hrow => ?_
      obtain ⟨hmem, hcut⟩ := List.mem_filter.mp hrow
      obtain ⟨-, -, -, hload⟩ := hone row hmem
      obtain ⟨segment, hsegment⟩ := hload hcut
      exact ⟨_, Option.map_eq_some_iff.mpr ⟨segment, hsegment, rfl⟩⟩
    refine ⟨_, (loader.loadVariables_eq_some s).mpr
      ⟨values, plain, offloaded, hvalues, ?_, hplain, hoffloaded, rfl⟩⟩
    intro value hvalue
    obtain ⟨row, hrow, hget⟩ := (Collect.mem_mapM hvalues).mp hvalue
    obtain ⟨value', hvalue', hfiles, -⟩ := hone row hrow
    cases hget.symm.trans hvalue'
    exact hfiles

end DraftVarLoader

/-- When a segment comes back from the storage as the value of an output: it is decodable, its
floats are finite, it is the output's value, its files are found, and if it is offloaded what is
kept of it in the row has the type of its row. -/
structure Restorable (settings : Settings) (records : FileRecords) (offloads : Bool)
    (segment : Segment) (output : Value) : Prop where
  decodable : segment.Decodable
  finite : segment.value.finite = true
  same : segment.value.Same output
  keys : ∀ f ∈ segment.files, records.hasStorageKey f = true
  kept : offloads = true → ∀ result j, settings.truncator.truncate settings.lib segment =
    some result → result.truncated = true →
    dumpsWithSegments result.valueType result.value = some j → j.HasType result.valueType

/-- A row holds a segment, whole or offloaded. -/
inductive RowFor (settings : Settings) (s : Storage) (offloads : Bool) (segment : Segment)
    (draftVar : WorkflowDraftVariable) : Prop
  | whole (hfile : draftVar.fileId = none) (htype : draftVar.valueType = segment.valueType)
      (hvalue : dumpsWithSegments segment.valueType segment.value = some draftVar.value)
      (hcut : offloads = true → ∃ result, settings.truncator.truncate settings.lib segment =
        some result ∧ result.truncated = false)
  | offloaded (hoffloads : offloads = true) (result : TruncationResult) (content : Content)
      (fileId : Nat) (variableFile : WorkflowDraftVariableFile) (upload : UploadFile)
      (htruncate : settings.truncator.truncate settings.lib segment = some result)
      (hcut : result.truncated = true)
      (hcontent : DraftVariableSaver.serialize segment = some content)
      (hfile : draftVar.fileId = some fileId)
      (hfileType : variableFile.valueType = segment.valueType)
      (hrow : fileId < s.issued ∧ s.files fileId = some variableFile)
      (hupload : variableFile.uploadFileId < s.issued ∧
        s.uploads variableFile.uploadFileId = some upload)
      (hobject : upload.key < s.issued ∧ s.objects upload.key = some content)
      (htype : draftVar.valueType = result.valueType)
      (hvalue : dumpsWithSegments result.valueType result.value = some draftVar.value)

variable {settings : Settings} {records : FileRecords} {offloads : Bool} {segment : Segment}
  {draftVar : WorkflowDraftVariable} {output : Value} {s s' : Storage}

theorem RowFor.extend (h : RowFor settings s offloads segment draftVar) (he : Extends s s') :
    RowFor settings s' offloads segment draftVar := by
  cases h with
  | whole hfile htype hvalue hcut => exact .whole hfile htype hvalue hcut
  | offloaded hoffloads result content fileId f upload htruncate hcut hcontent hfile hfileType hrow
      hupload hobject htype hvalue =>
    refine .offloaded hoffloads result content fileId f upload htruncate hcut hcontent hfile
      hfileType ⟨hrow.1.trans_le he.issued, ?_⟩ ⟨hupload.1.trans_le he.issued, ?_⟩
      ⟨hobject.1.trans_le he.issued, ?_⟩ htype hvalue
    · rw [he.files _ hrow.1, hrow.2]
    · rw [he.uploads _ hupload.1, hupload.2]
    · rw [he.objects _ hobject.1, hobject.2]

theorem files_eq_nil (h : ¬ segment.valueType.holdsFiles) : segment.files = [] := by
  unfold Segment.files
  split
  next htype _ => exact absurd (.inl htype) h
  next htype _ => exact absurd (.inr htype) h
  next => rfl

theorem files_of_decode {lib : Libraries} {j : Value} {decoded : Segment}
    (hj : dumpsWithSegments segment.valueType segment.value = some j)
    (h : buildSegmentWithType lib segment.valueType j = some decoded) :
    decoded.files = segment.files := by
  have htype := valueType_of_decode segment.valueType_ne_number h
  by_cases hfiles : segment.valueType.holdsFiles
  · have hvalue := (decode_files lib hfiles hj).2.2 decoded h
    unfold Segment.files
    rw [htype, hvalue]
  · rw [files_eq_nil hfiles, files_eq_nil (by rwa [htype])]

private theorem truncate_valueType {lib : Libraries} {t : VariableTruncator}
    {result : TruncationResult} (h : t.truncate lib segment = some result)
    (hcut : result.truncated = true) :
    ¬ result.valueType.holdsFiles ∧ result.valueType ≠ .number := by
  unfold VariableTruncator.truncate at h
  obtain ⟨part, hpart, h⟩ := Option.bind_eq_some_iff.mp h
  split at h
  next =>
    obtain ⟨json, -, he⟩ := Option.bind_eq_some_iff.mp h
    cases he
    dsimp only
    exact ⟨by decide, by decide⟩
  next =>
    cases h
    dsimp only at hcut ⊢
    unfold VariableTruncator.truncateSegment at hpart
    cases htype : segment.valueType <;> rw [htype] at hpart <;> cases hpart <;>
      first
        | cases hcut
        | exact ⟨by decide, by decide⟩

private theorem exists_str (h : segment.valueType = .string ∨ segment.valueType = .secret) :
    ∃ text, segment.value = .str text := by
  have hvalid := segment.valid
  rcases h with h | h <;> rw [h] at hvalid <;> cases hvalue : segment.value <;>
    rw [hvalue] at hvalid <;> first
      | exact ⟨_, rfl⟩
      | cases hvalid

private theorem exists_file (h : segment.valueType = .file) : ∃ f, segment.value = .file f := by
  have hvalid := segment.valid
  rw [h] at hvalid
  cases hvalue : segment.value <;> rw [hvalue] at hvalid <;> first
    | exact ⟨_, rfl⟩
    | cases hvalid

variable {content : Content}

private theorem serialize_cases (settings : Settings)
    (h : DraftVariableSaver.serialize segment = some content) :
    (segment.valueType = .string ∧ ∃ text, segment.value = .str text ∧ content = .text text) ∨
    (segment.valueType = .secret ∧ ∃ text, content = .text text) ∨
    ∃ j, content = .json j ∧ segment.valueType ≠ .string ∧ segment.valueType ≠ .secret ∧
      dumpsWithSegments segment.valueType segment.value = some j ∧ segment.files = [] := by
  unfold DraftVariableSaver.serialize at h
  split at h
  next text htype hvalue =>
    cases h
    exact .inl ⟨htype, text, hvalue, rfl⟩
  next text htype hvalue =>
    cases h
    exact .inr (.inl ⟨htype, text, rfl⟩)
  next hstring hsecret =>
    obtain ⟨j, hj, rfl⟩ := Option.map_eq_some_iff.mp h
    refine .inr (.inr ⟨j, rfl, fun htype => ?_, fun htype => ?_, ?_⟩)
    · obtain ⟨text, hvalue⟩ := exists_str (.inl htype)
      exact hstring text htype hvalue
    · obtain ⟨text, hvalue⟩ := exists_str (.inr htype)
      exact hsecret text htype hvalue
    · by_cases hfiles : segment.valueType.holdsFiles
      · rcases hfiles with htype | htype
        · obtain ⟨f, hvalue⟩ := exists_file htype
          rw [hvalue, Value.dumps] at hj
          cases hj
        · obtain ⟨files, hvalue⟩ := Segment.exists_files htype
          cases files with
          | nil =>
            rw [hvalue] at hj
            unfold Segment.files
            rw [htype, hvalue]
            exact ⟨hj, rfl⟩
          | cons f files =>
            rw [hvalue, Value.dumps] at hj
            obtain ⟨l, hl, -⟩ := Option.map_eq_some_iff.mp hj
            rw [List.map_cons, Value.dumpsItems] at hl
            obtain ⟨j', hj', -⟩ := Option.bind_eq_some_iff.mp hl
            cases hj'
      · exact ⟨(decode_plain settings.lib hfiles _).1.trans hj, files_eq_nil hfiles⟩

theorem loadContent_iff (settings : Settings) (lib : Libraries)
    (hcontent : DraftVariableSaver.serialize segment = some content)
    (hvalue : ¬ segment.valueType.holdsFiles → segment.value = output) :
    (∃ loaded, (if segment.valueType = .string then
        Segment.ofType .string (.str (content.decode lib))
      else (content.loads lib).bind (buildSegmentWithType lib segment.valueType)) = some loaded ∧
        loaded.value.Same output) ↔
      segment.Decodable ∧ segment.value.finite = true ∧ segment.value.Same output := by
  rcases serialize_cases settings hcontent with
    ⟨htype, text, htext, rfl⟩ | ⟨htype, text, rfl⟩ | ⟨j, rfl, hstring, -, hj, -⟩
  · have hplain : ¬ segment.valueType.holdsFiles := by
      rw [htype]
      decide
    rw [if_pos htype, decodable_iff hplain, htext, htype]
    constructor
    · rintro ⟨loaded, hloaded, hsame⟩
      cases hloaded
      exact ⟨.inl rfl, rfl, hsame⟩
    · rintro ⟨-, -, hsame⟩
      exact ⟨⟨.string, .str text, rfl⟩, rfl, hsame⟩
  · have hplain : ¬ segment.valueType.holdsFiles := by
      rw [htype]
      decide
    rw [if_neg (by simp [htype]), decodable_iff hplain, htype]
    refine iff_of_false ?_ fun h => h.1.ne.2.1 rfl
    rintro ⟨loaded, hloaded, -⟩
    obtain ⟨value, -, hbuild⟩ := Option.bind_eq_some_iff.mp hloaded
    exact ((buildWithType_iff (by decide)).mp ⟨loaded, hbuild⟩).ne.2.1 rfl
  · rw [if_neg hstring]
    exact decode_iff hj hvalue

theorem loadOffloaded_eq (loader : DraftVarLoader) {fileId : Nat}
    {variableFile : WorkflowDraftVariableFile} {upload : UploadFile}
    (hfile : draftVar.fileId = some fileId) (hrow : s.files fileId = some variableFile)
    (hupload : s.uploads variableFile.uploadFileId = some upload)
    (hobject : s.objects upload.key = some content) : loader.loadOffloadedVariable s draftVar =
      if variableFile.valueType = .string then
        Segment.ofType .string (.str (content.decode loader.lib))
      else (content.loads loader.lib).bind
        (buildSegmentWithType loader.lib variableFile.valueType) := by
  unfold DraftVarLoader.loadOffloadedVariable
  simp only [hfile, hrow, hupload, hobject, Option.bind_eq_bind, Option.bind_some]

/-- A row loads as the value of an output if and only if its segment is restorable as it. -/
theorem loadVariable_iff (loader : DraftVarLoader)
    (hrow : RowFor settings s offloads segment draftVar)
    (hvalue : ¬ segment.valueType.holdsFiles → segment.value = output) :
    (∃ loaded, loader.loadVariable s draftVar = some loaded ∧ loaded.value.Same output) ↔
      Restorable settings loader.records offloads segment output := by
  cases hrow with
  | whole hfile htype hstored hcut =>
    have hplain : draftVar.isTruncated = false := by
      rw [WorkflowDraftVariable.isTruncated, hfile]
      rfl
    have hload : ∀ loaded, loader.loadVariable s draftVar = some loaded ↔
        buildSegmentWithType loader.lib segment.valueType draftVar.value = some loaded ∧
          ∀ f ∈ segment.files, loader.records.hasStorageKey f = true := by
      intro loaded
      rw [loader.loadVariable_eq_some s, hplain]
      simp only [Bool.false_eq_true, if_false, WorkflowDraftVariable.getValue, htype]
      constructor
      · rintro ⟨value, hdecode, hkeys, rfl⟩
        exact ⟨hdecode, files_of_decode hstored hdecode ▸ hkeys⟩
      · rintro ⟨hdecode, hkeys⟩
        exact ⟨loaded, hdecode, (files_of_decode hstored hdecode).symm ▸ hkeys, rfl⟩
    have hdecode := @decode_iff loader.lib _ _ _ hstored hvalue
    constructor
    · rintro ⟨loaded, hloaded, hsame⟩
      obtain ⟨hbuild, hkeys⟩ := (hload loaded).mp hloaded
      obtain ⟨hdecodable, hfinite, hout⟩ := hdecode.mp ⟨loaded, hbuild, hsame⟩
      refine ⟨hdecodable, hfinite, hout, hkeys, fun hoffloads result j htruncate htruncated => ?_⟩
      obtain ⟨result', htruncate', hwhole⟩ := hcut hoffloads
      cases htruncate.symm.trans htruncate'
      cases htruncated.symm.trans hwhole
    · intro h
      obtain ⟨loaded, hbuild, hsame⟩ := hdecode.mpr ⟨h.decodable, h.finite, h.same⟩
      exact ⟨loaded, (hload loaded).mpr ⟨hbuild, h.keys⟩, hsame⟩
  | offloaded hoffloads result content fileId f upload htruncate hcut hcontent hfile hfileType hrow
      hupload hobject htype hstored =>
    have htruncated : draftVar.isTruncated = true := by
      rw [WorkflowDraftVariable.isTruncated, hfile]
      rfl
    obtain ⟨hplain, hnumber⟩ := truncate_valueType htruncate hcut
    have hkept : (∃ value, draftVar.getValue loader.lib = some value) ↔
        draftVar.value.HasType result.valueType := by
      rw [WorkflowDraftVariable.getValue, htype, (decode_plain loader.lib hplain _).2]
      exact buildWithType_iff hnumber
    have hload : ∀ loaded, loader.loadVariable s draftVar = some loaded ↔
        draftVar.value.HasType result.valueType ∧
          loader.loadOffloadedVariable s draftVar = some loaded := by
      intro loaded
      rw [loader.loadVariable_eq_some s, htruncated, ← hkept]
      constructor
      · rintro ⟨value, hvalue, -, hoffloaded⟩
        exact ⟨⟨value, hvalue⟩, hoffloaded⟩
      · rintro ⟨⟨value, hvalue⟩, hoffloaded⟩
        refine ⟨value, hvalue, ?_, hoffloaded⟩
        have hvalueType : value.valueType = result.valueType := by
          rw [WorkflowDraftVariable.getValue, htype] at hvalue
          exact valueType_of_decode hnumber hvalue
        rw [files_eq_nil (by rwa [hvalueType])]
        simp
    have hsegmentFiles : segment.files = [] := by
      rcases serialize_cases settings hcontent with ⟨hstring, -⟩ | ⟨hsecret, -⟩ | ⟨j, -, -, -, -, h⟩
      · exact files_eq_nil (by rw [hstring]; decide)
      · exact files_eq_nil (by rw [hsecret]; decide)
      · exact h
    have hcontentIff : (∃ loaded, loader.loadOffloadedVariable s draftVar = some loaded ∧
        loaded.value.Same output) ↔
          segment.Decodable ∧ segment.value.finite = true ∧ segment.value.Same output := by
      rw [loadOffloaded_eq loader hfile hrow.2 hupload.2 hobject.2, hfileType]
      exact loadContent_iff settings loader.lib hcontent hvalue
    constructor
    · rintro ⟨loaded, hloaded, hsame⟩
      obtain ⟨hkeptType, hoffloaded⟩ := (hload loaded).mp hloaded
      obtain ⟨hdecodable, hfinite, hout⟩ := hcontentIff.mp ⟨loaded, hoffloaded, hsame⟩
      refine ⟨hdecodable, hfinite, hout, by simp [hsegmentFiles], fun _ result' j h _ hj => ?_⟩
      cases htruncate.symm.trans h
      cases hstored.symm.trans hj
      exact hkeptType
    · intro h
      obtain ⟨loaded, hoffloaded, hsame⟩ := hcontentIff.mpr ⟨h.decodable, h.finite, h.same⟩
      have hkeptType := h.kept hoffloads result draftVar.value htruncate hcut hstored
      exact ⟨loaded, (hload loaded).mpr ⟨hkeptType, hoffloaded⟩, hsame⟩

end PlatformSpec.DraftVariable
