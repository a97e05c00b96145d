import PlatformSpec.Base.Collect
import PlatformSpec.Base.Run
import PlatformSpec.DraftVariable.Storage

/-!
# No dangling references

The references from draft variables to their files, to uploaded files and to stored objects, over
all runs of the operations on draft variables.
-/

namespace PlatformSpec.DraftVariable

open Base Storage

variable {settings : Settings} {s s' : Storage}

private theorem of_update {κ β : Type} [DecidableEq κ] {table : κ → Option β} {k i : κ}
    {v : Option β} {b : β} (h : Function.update table k v i = some b) :
    (i = k ∧ v = some b) ∨ (i ≠ k ∧ table i = some b) := by
  by_cases he : i = k
  · rw [he, Function.update_self] at h
    exact .inl ⟨he, h⟩
  · rw [Function.update_of_ne he] at h
    exact .inr ⟨he, h⟩

/-- If a variable has a file, its row, its uploaded file and the object are there; the object holds
a value of which the variable holds the truncation. -/
def Backed (settings : Settings) (s : Storage) (draftVar : WorkflowDraftVariable) : Prop :=
  ∀ fileId, draftVar.fileId = some fileId → ∃ variableFile upload content value result,
    s.files fileId = some variableFile ∧ s.uploads variableFile.uploadFileId = some upload ∧
      s.objects upload.key = some content ∧ DraftVariableSaver.serialize value = some content ∧
      variableFile.valueType = value.valueType ∧
      settings.truncator.truncate settings.lib value = some result ∧ result.truncated = true ∧
      draftVar.valueType = result.valueType ∧
      dumpsWithSegments result.valueType result.value = some draftVar.value

/-- No reference dangles. -/
structure NoDangling (settings : Settings) (s : Storage) : Prop where
  backed : ∀ key draftVar, s.draftVars key = some draftVar → Backed settings s draftVar
  uploaded : ∀ fileId variableFile, s.files fileId = some variableFile →
    s.uploads variableFile.uploadFileId ≠ none

/-- Numbers are issued once, and a variable with a file is not editable. -/
structure Sound (s : Storage) : Prop where
  files : ∀ fileId variableFile, s.files fileId = some variableFile →
    fileId < s.issued ∧ variableFile.uploadFileId < s.issued
  uploads : ∀ uploadId upload, s.uploads uploadId = some upload →
    uploadId < s.issued ∧ upload.key < s.issued
  files_injective : ∀ i j f g, s.files i = some f → s.files j = some g →
    f.uploadFileId = g.uploadFileId → i = j
  uploads_injective : ∀ i j u v, s.uploads i = some u → s.uploads j = some v → u.key = v.key → i = j
  readOnly : ∀ key draftVar, s.draftVars key = some draftVar → draftVar.isTruncated →
    draftVar.editable = false

/-- What a variable that is saved must be. -/
def Proper (settings : Settings) (s : Storage) (draftVar : WorkflowDraftVariable) : Prop :=
  Backed settings s draftVar ∧ (draftVar.isTruncated → draftVar.editable = false)

/-- The whole invariant of the operations. -/
def Intact (settings : Settings) (s : Storage) : Prop := Sound s ∧ NoDangling settings s

variable {draftVar changed : WorkflowDraftVariable}

theorem Proper.of_fileId_none (h : draftVar.fileId = none) :
    Proper settings s draftVar := by
  refine ⟨fun fileId hid => ?_, fun htruncated => ?_⟩
  · rw [h] at hid
    cases hid
  · rw [WorkflowDraftVariable.isTruncated, h] at htruncated
    cases htruncated

theorem Proper.extend (hs : Sound s) (h : Extends s s')
    (hp : Proper settings s draftVar) : Proper settings s' draftVar := by
  refine ⟨fun fileId hid => ?_, hp.2⟩
  obtain ⟨f, u, content, value, result, hf, hu, hcontent, hrest⟩ := hp.1 fileId hid
  obtain ⟨hfileId, hupload⟩ := hs.files _ _ hf
  refine ⟨f, u, content, value, result, ?_, ?_, ?_, hrest⟩
  · rw [h.files _ hfileId, hf]
  · rw [h.uploads _ hupload, hu]
  · rw [h.objects _ (hs.uploads _ _ hu).2, hcontent]

namespace Intact

theorem proper (h : Intact settings s) {key : VariableKey} {draftVar : WorkflowDraftVariable}
    (hkey : s.draftVars key = some draftVar) : Proper settings s draftVar :=
  ⟨h.2.backed key draftVar hkey, h.1.readOnly key draftVar hkey⟩

theorem withDraftVars (h : Intact settings s)
    {draftVars : VariableKey → Option WorkflowDraftVariable}
    (hproper : ∀ key draftVar, draftVars key = some draftVar → Proper settings s draftVar) :
    Intact settings { s with draftVars := draftVars } := by
  refine ⟨⟨h.1.files, h.1.uploads, h.1.files_injective, h.1.uploads_injective, ?_⟩, ⟨?_, ?_⟩⟩
  · exact fun key draftVar hkey => (hproper key draftVar hkey).2
  · exact fun key draftVar hkey => (hproper key draftVar hkey).1
  · exact h.2.uploaded

theorem setVariable (h : Intact settings s) (key : VariableKey)
    {draftVar : Option WorkflowDraftVariable}
    (hproper : ∀ v, draftVar = some v → Proper settings s v) :
    Intact settings (s.setVariable key draftVar) := by
  cases draftVar with
  | none => exact h
  | some v =>
    refine h.withDraftVars fun key' v' hkey' => ?_
    rcases of_update hkey' with ⟨-, ⟨⟩⟩ | ⟨-, hkey'⟩
    · exact hproper v rfl
    · exact h.proper hkey'

theorem dropVariable (h : Intact settings s) (key : VariableKey) :
    Intact settings (s.dropVariable key) := by
  refine h.withDraftVars fun key' v' hkey' => ?_
  rcases of_update hkey' with ⟨-, ⟨⟩⟩ | ⟨-, hkey'⟩
  exact h.proper hkey'

end Intact

section Store

variable (valueType : SegmentType) (content : Content)

theorem Sound.store (hs : Sound s) : Sound (s.store valueType content) where
  files fileId f hf := by
    rw [Storage.store_issued]
    rcases of_update hf with ⟨rfl, ⟨⟩⟩ | ⟨-, hf⟩
    · exact ⟨by omega, by simp⟩
    · have := hs.files fileId f hf
      omega
  uploads uploadId u hu := by
    rw [Storage.store_issued]
    rcases of_update hu with ⟨rfl, ⟨⟩⟩ | ⟨-, hu⟩
    · exact ⟨by omega, by simp⟩
    · have := hs.uploads uploadId u hu
      omega
  files_injective i j f g hf hg he := by
    rcases of_update hf with ⟨rfl, ⟨⟩⟩ | ⟨-, hf⟩
    · rcases of_update hg with ⟨rfl, ⟨⟩⟩ | ⟨-, hg⟩
      · rfl
      · have hlt := (hs.files j g hg).2
        rw [← he] at hlt
        exact absurd hlt (by simp)
    · rcases of_update hg with ⟨rfl, ⟨⟩⟩ | ⟨-, hg⟩
      · have hlt := (hs.files i f hf).2
        rw [he] at hlt
        exact absurd hlt (by simp)
      · exact hs.files_injective i j f g hf hg he
  uploads_injective i j u v hu hv he := by
    rcases of_update hu with ⟨rfl, ⟨⟩⟩ | ⟨-, hu⟩
    · rcases of_update hv with ⟨rfl, ⟨⟩⟩ | ⟨-, hv⟩
      · rfl
      · have hlt := (hs.uploads j v hv).2
        rw [← he] at hlt
        exact absurd hlt (by simp)
    · rcases of_update hv with ⟨rfl, ⟨⟩⟩ | ⟨-, hv⟩
      · have hlt := (hs.uploads i u hu).2
        rw [he] at hlt
        exact absurd hlt (by simp)
      · exact hs.uploads_injective i j u v hu hv he
  readOnly := hs.readOnly

theorem Intact.store (h : Intact settings s) : Intact settings (s.store valueType content) := by
  have hextends := Extends.store s valueType content
  refine ⟨h.1.store valueType content, ⟨fun key draftVar hkey => ?_, fun fileId f hf => ?_⟩⟩
  · exact ((h.proper hkey).extend h.1 hextends).1
  · rcases of_update hf with ⟨-, ⟨⟩⟩ | ⟨-, hf⟩
    · simp
    · obtain ⟨u, hu⟩ := Option.ne_none_iff_exists'.mp (h.2.uploaded fileId f hf)
      rw [hextends.uploads _ (h.1.files fileId f hf).2, hu]
      exact Option.some_ne_none u

end Store

private theorem setValue_fileId {valueType : SegmentType} {value : Value}
    (h : draftVar.setValue valueType value = some changed) : changed.fileId = draftVar.fileId := by
  obtain ⟨stored, -, heq⟩ := Option.bind_eq_some_iff.mp h
  cases heq
  rfl

private theorem edit_fileId {value : Option Segment}
    (h : draftVar.edit value = some changed) : changed.fileId = draftVar.fileId := by
  cases value with
  | none =>
    cases h
    rfl
  | some value =>
    have hfile := setValue_fileId h
    exact hfile

/-- What building a variable may do: it keeps the variables that are stored, stays in order, and
what it makes is proper. -/
structure Builds {α : Type} (settings : Settings) (s : Storage)
    (made : α → WorkflowDraftVariable → Prop) (result : Option α × Storage) : Prop where
  intact : Intact settings result.2
  extends_ : Extends s result.2
  proper : ∀ a, result.1 = some a → ∀ draftVar, made a draftVar → Proper settings result.2 draftVar

section Save

variable (saver : DraftVariableSaver)

private theorem builds_none {α : Type} (h : Intact settings s)
    (made : α → WorkflowDraftVariable → Prop) : Builds settings s made (none, s) :=
  ⟨h, .refl s, fun _ ha => by cases ha⟩

theorem createDraftVariable_builds (h : Intact settings s) (name : String) (value : Segment) :
    Builds settings s Eq (saver.createDraftVariable settings name value s) := by
  unfold DraftVariableSaver.createDraftVariable
  rcases saver.tryOffload_cases settings name value s with
    he | ⟨-, -, -, he⟩ | ⟨result, content, htruncate, hcut, hcontent, he⟩
  · rw [he]
    exact builds_none h _
  · rw [he]
    refine ⟨h, .refl s, ?_⟩
    rintro a ha _ rfl
    exact .of_fileId_none (WorkflowDraftVariable.new_eq_some ha).1
  · rw [he]
    refine ⟨h.store _ _, .store s _ _, ?_⟩
    rintro a ha _ rfl
    obtain ⟨hfile, heditable, htype, hvalue⟩ := WorkflowDraftVariable.new_eq_some ha
    refine ⟨fun id hid => ?_, fun _ => heditable⟩
    cases hfile.symm.trans hid
    exact ⟨⟨s.issued + 1, value.valueType⟩, ⟨s.issued + 2⟩, content, value, result, by simp,
      by simp, by simp, hcontent, rfl, htruncate, hcut, htype, hvalue⟩

theorem buildVariablesFromMapping_builds (h : Intact settings s)
    (outputs : List (String × Output)) :
    Builds settings s (fun rows v => v ∈ rows.map Prod.snd)
      (saver.buildVariablesFromMapping settings outputs s) := by
  induction outputs generalizing s with
  | nil => exact ⟨h, .refl s, fun rows hrows v hv => by cases hrows; cases hv⟩
  | cons output outputs ih =>
    obtain ⟨name, output⟩ := output
    unfold DraftVariableSaver.buildVariablesFromMapping
    split
    next => exact ih h
    next =>
      cases output.build settings.lib with
      | none => exact builds_none h _
      | some value =>
        have hone := createDraftVariable_builds saver h name value
        dsimp only
        generalize saver.createDraftVariable settings name value s = created at hone
        obtain ⟨draftVar, s₁⟩ := created
        cases draftVar with
        | none => exact ⟨hone.intact, hone.extends_, fun _ ha => by cases ha⟩
        | some draftVar =>
          have hrest := ih hone.intact
          dsimp only
          generalize saver.buildVariablesFromMapping settings outputs s₁ = built at hrest
          obtain ⟨rows, s₂⟩ := built
          have hextends := hone.extends_.trans hrest.extends_
          cases rows with
          | none => exact ⟨hrest.intact, hextends, fun _ ha => by cases ha⟩
          | some rows =>
            refine ⟨hrest.intact, hextends, ?_⟩
            rintro _ ⟨⟩ v hv
            rcases List.mem_cons.mp hv with rfl | hv
            · exact (hone.proper _ rfl _ rfl).extend hone.intact.1 hrest.extends_
            · exact hrest.proper rows rfl v hv

private theorem startVariable_fileId {name : String} {output : Output}
    {row : VariableKey × WorkflowDraftVariable}
    (h : saver.startVariable settings name output = some row) : row.2.fileId = none := by
  unfold DraftVariableSaver.startVariable at h
  obtain ⟨value, -, h⟩ := Option.bind_eq_some_iff.mp h
  dsimp only at h
  split at h
  next =>
    obtain ⟨draftVar, hnew, heq⟩ := Option.bind_eq_some_iff.mp h
    cases heq
    exact (WorkflowDraftVariable.new_eq_some hnew).1
  next =>
    obtain ⟨value, -, h⟩ := Option.bind_eq_some_iff.mp h
    obtain ⟨draftVar, hnew, heq⟩ := Option.bind_eq_some_iff.mp h
    cases heq
    exact (WorkflowDraftVariable.new_eq_some hnew).1

variable {rows : DraftVariables}

private theorem updatedVariable_fileId {item : UpdatedVariable}
    (h : saver.updatedVariable settings item = some rows) : ∀ row ∈ rows, row.2.fileId = none := by
  unfold DraftVariableSaver.updatedVariable at h
  split at h
  next => cases h
  next =>
    split at h
    next =>
      cases h
      simp
    next =>
      obtain ⟨value, -, h⟩ := Option.bind_eq_some_iff.mp h
      obtain ⟨draftVar, hnew, heq⟩ := Option.bind_eq_some_iff.mp h
      cases heq
      simpa using (WorkflowDraftVariable.new_eq_some hnew).1

private theorem dummy_fileId : saver.createDummyOutputVariable.2.fileId = none := rfl

theorem draftVariables_builds (h : Intact settings s) (processData : List UpdatedVariable)
    (outputs : List (String × Output)) :
    Builds settings s (fun rows v => v ∈ rows.map Prod.snd)
      (saver.draftVariables settings processData outputs s) := by
  have hplain : ∀ rows : Option DraftVariables,
      (∀ l, rows = some l → ∀ row ∈ l, row.2.fileId = none) →
      Builds settings s (fun rows v => v ∈ rows.map Prod.snd) (rows, s) := by
    refine fun rows hrows => ⟨h, .refl s, fun l hl v hv => ?_⟩
    obtain ⟨row, hrow, rfl⟩ := List.mem_map.mp hv
    exact .of_fileId_none (hrows l hl row hrow)
  unfold DraftVariableSaver.draftVariables
  split
  next =>
    refine hplain _ fun l hl => ?_
    obtain ⟨rows, hrows, heq⟩ := Option.bind_eq_some_iff.mp hl
    cases heq
    intro row hrow
    rcases List.mem_append.mp hrow with hrow | hrow
    · obtain ⟨group, hgroup, hrow⟩ := List.mem_flatten.mp hrow
      obtain ⟨item, -, hitem⟩ := (Collect.mem_mapM hrows).mp hgroup
      exact updatedVariable_fileId saver hitem row hrow
    · rw [List.mem_singleton.mp hrow]
      exact dummy_fileId saver
  next =>
    split
    next =>
      refine hplain _ fun l hl => ?_
      obtain ⟨rows, hrows, heq⟩ := Option.bind_eq_some_iff.mp hl
      have hall : ∀ row ∈ rows, row.2.fileId = none := by
        intro row hrow
        obtain ⟨output, -, houtput⟩ := (Collect.mem_mapM hrows).mp hrow
        exact startVariable_fileId saver houtput
      cases heq
      split
      next => exact hall
      next =>
        intro row hrow
        rcases List.mem_append.mp hrow with hrow | hrow
        · exact hall row hrow
        · rw [List.mem_singleton.mp hrow]
          exact dummy_fileId saver
    next => exact buildVariablesFromMapping_builds saver h outputs

theorem mem_of_upsert {table : VariableKey → Option WorkflowDraftVariable} {key : VariableKey}
    {draftVar : WorkflowDraftVariable}
    (h : rows.foldl (fun (t : VariableKey → Option WorkflowDraftVariable) row =>
      Function.update t row.1 (some row.2)) table key = some draftVar) :
    table key = some draftVar ∨ draftVar ∈ rows.map Prod.snd := by
  induction rows generalizing table with
  | nil => exact .inl h
  | cons row rows ih =>
    rcases ih h with h | h
    · have hupdate : Function.update table row.1 (some row.2) key = some draftVar := h
      rcases of_update hupdate with ⟨-, ⟨⟩⟩ | ⟨-, h⟩
      · exact .inr (by simp)
      · exact .inl h
    · exact .inr (List.mem_cons_of_mem _ h)

theorem Intact.save (h : Intact settings s) (processData : List UpdatedVariable)
    (outputs : List (String × Output)) :
    Intact settings (saver.save settings processData outputs s) := by
  unfold DraftVariableSaver.save
  split
  next =>
    have hbuilds := draftVariables_builds saver h processData outputs
    generalize saver.draftVariables settings processData outputs s = built at hbuilds
    obtain ⟨rows, s'⟩ := built
    cases rows with
    | none => exact hbuilds.intact
    | some rows =>
      dsimp only
      unfold batchUpsertDraftVariable
      split
      next => exact hbuilds.intact
      next =>
        refine hbuilds.intact.withDraftVars fun key draftVar hkey => ?_
        rcases mem_of_upsert hkey with hkey | hmem
        · exact hbuilds.intact.proper hkey
        · exact hbuilds.proper rows rfl draftVar hmem
  next => exact h

end Save

theorem Sound.fileId_eq_none (hs : Sound s) {key : VariableKey}
    (hkey : s.draftVars key = some draftVar) (heditable : draftVar.editable ≠ false) :
    draftVar.fileId = none := by
  cases hid : draftVar.fileId with
  | none => rfl
  | some fileId =>
    have htruncated : draftVar.isTruncated := by
      rw [WorkflowDraftVariable.isTruncated, hid]
      rfl
    exact absurd (hs.readOnly key draftVar hkey htruncated) heditable

namespace Intact

theorem updateVariable (h : Intact settings s) (key : VariableKey) (name : Option String)
    (value : Option Segment) : Intact settings (s.updateVariable key name value) := by
  unfold Storage.updateVariable
  cases hkey : s.draftVars key with
  | none => exact h
  | some draftVar =>
    dsimp only
    split
    next => exact h
    next heditable =>
      have hnone := h.1.fileId_eq_none hkey heditable
      have hproper : ∀ v, draftVar.edit value = some v → Proper settings s v :=
        fun v hv => .of_fileId_none ((edit_fileId hv).trans hnone)
      cases name with
      | none => exact h.setVariable key hproper
      | some name =>
        dsimp only
        split
        next => exact h
        next =>
          cases hedit : draftVar.edit value with
          | none => exact h
          | some changed =>
            rw [hedit] at hproper
            exact (h.dropVariable key).setVariable _ hproper

private theorem resetTo (h : Intact settings s) (key : VariableKey)
    {draftVar : WorkflowDraftVariable} (hnone : draftVar.fileId = none) (value : Option Segment) :
    Intact settings (s.setVariable key do
      let value ← value
      { draftVar with edited := false }.setValue value.valueType value.value) := by
  refine h.setVariable key fun v hv => ?_
  obtain ⟨value, -, hset⟩ := Option.bind_eq_some_iff.mp hv
  have hfile := setValue_fileId hset
  exact .of_fileId_none (hfile.trans hnone)

theorem resetVariable (h : Intact settings s) (source : ResetSource) {key : VariableKey}
    (hfile : key.nodeId = conversationVariableNodeId → source.conversationVariable key.name ≠ none →
      ∀ draftVar, s.draftVars key = some draftVar → draftVar.fileId = none) :
    Intact settings (s.resetVariable settings.lib source key) := by
  unfold Storage.resetVariable
  cases hkey : s.draftVars key with
  | none => exact h
  | some draftVar =>
    dsimp only
    split
    next => exact h
    next =>
      split
      next hconversation =>
        unfold Storage.resetConvVar
        cases hvalue : source.conversationVariable key.name with
        | none => exact h.dropVariable key
        | some value =>
          exact h.resetTo key (hfile hconversation (by simp [hvalue]) draftVar hkey) (some value)
      next =>
        unfold Storage.resetNodeVarOrSysVar
        split
        next => exact h
        next heditable =>
          have hnone := h.1.fileId_eq_none hkey heditable
          cases draftVar.nodeExecutionId.bind source.outputs with
          | none => exact h.dropVariable key
          | some outputs =>
            dsimp only
            split
            next =>
              split
              next => exact h.dropVariable key
              next => exact h.resetTo key hnone _
            next =>
              split
              next => exact h
              next =>
                split
                next => exact h
                next =>
                  split
                  next => exact h.dropVariable key
                  next => exact h.resetTo key hnone _

theorem deleteVariableFile (h : Intact settings s) {fileId : Nat}
    (hfree : ∀ key draftVar, s.draftVars key = some draftVar → draftVar.fileId ≠ some fileId) :
    Intact settings (s.deleteVariableFile fileId) := by
  unfold Storage.deleteVariableFile
  cases hfile : s.files fileId with
  | none => exact h
  | some variableFile =>
    obtain ⟨upload, hupload⟩ := Option.ne_none_iff_exists'.mp (h.2.uploaded fileId _ hfile)
    simp only [hupload]
    refine ⟨⟨?_, ?_, ?_, ?_, h.1.readOnly⟩, ⟨?_, ?_⟩⟩
    · intro id f hf
      rcases of_update hf with ⟨-, ⟨⟩⟩ | ⟨-, hf⟩
      exact h.1.files id f hf
    · intro id u hu
      rcases of_update hu with ⟨-, ⟨⟩⟩ | ⟨-, hu⟩
      exact h.1.uploads id u hu
    · intro i j f g hf hg he
      rcases of_update hf with ⟨-, ⟨⟩⟩ | ⟨-, hf⟩
      rcases of_update hg with ⟨-, ⟨⟩⟩ | ⟨-, hg⟩
      exact h.1.files_injective i j f g hf hg he
    · intro i j u v hu hv he
      rcases of_update hu with ⟨-, ⟨⟩⟩ | ⟨-, hu⟩
      rcases of_update hv with ⟨-, ⟨⟩⟩ | ⟨-, hv⟩
      exact h.1.uploads_injective i j u v hu hv he
    · -- the file of a variable is another one, and so are its uploaded file and its object
      intro key draftVar hkey id hid
      obtain ⟨f, u, content, value, result, hf, hu, hcontent, hrest⟩ :=
        h.2.backed key draftVar hkey id hid
      have hne : id ≠ fileId := fun he => hfree key draftVar hkey (he ▸ hid)
      have hupl : f.uploadFileId ≠ variableFile.uploadFileId := fun he =>
        hne (h.1.files_injective _ _ _ _ hf hfile he)
      have hobj : u.key ≠ upload.key := fun he => hupl (h.1.uploads_injective _ _ _ _ hu hupload he)
      refine ⟨f, u, content, value, result, ?_, ?_, ?_, hrest⟩
      · exact (Function.update_of_ne hne ..).trans hf
      · exact (Function.update_of_ne hupl ..).trans hu
      · exact (Function.update_of_ne hobj ..).trans hcontent
    · intro id f hf
      rcases of_update hf with ⟨-, ⟨⟩⟩ | ⟨hne, hf⟩
      have hupl : f.uploadFileId ≠ variableFile.uploadFileId := fun he =>
        hne (h.1.files_injective _ _ _ _ hf hfile he)
      exact fun hnone => h.2.uploaded id f hf ((Function.update_of_ne hupl ..).symm.trans hnone)

private theorem deleteVariableFile_draftVars (s : Storage) (fileId : Nat) :
    (s.deleteVariableFile fileId).draftVars = s.draftVars := by
  unfold Storage.deleteVariableFile
  split
  next => rfl
  next => split <;> rfl

theorem deleteWorkflowDraftVariableFile (h : Intact settings s) {fileIds : List Nat}
    (hfree : ∀ key draftVar, s.draftVars key = some draftVar →
      ∀ fileId ∈ fileIds, draftVar.fileId ≠ some fileId) :
    Intact settings (s.deleteWorkflowDraftVariableFile fileIds) := by
  unfold Storage.deleteWorkflowDraftVariableFile
  induction fileIds generalizing s with
  | nil => exact h
  | cons fileId fileIds ih =>
    refine ih (h.deleteVariableFile fun key v hkey => hfree key v hkey fileId (by simp)) ?_
    intro key v hkey id hid
    rw [deleteVariableFile_draftVars] at hkey
    exact hfree key v hkey id (List.mem_cons_of_mem _ hid)

end Intact

/-- When an operation keeps the references: a variable with a file is not deleted by
`delete_variable`, no file is deleted to which a variable refers, and no variable with a file is
reset to a conversation variable. -/
def KeepsReferences (s : Storage) : Operation → Prop
  | .save _ _ _ => True
  | .updateVariable _ _ _ => True
  | .resetVariable source key =>
    key.nodeId = conversationVariableNodeId → source.conversationVariable key.name ≠ none →
      ∀ draftVar, s.draftVars key = some draftVar → draftVar.fileId = none
  | .deleteVariable key => ∀ draftVar, s.draftVars key = some draftVar → draftVar.fileId = none
  | .deleteWorkflowDraftVariableFile fileIds =>
    ∀ key draftVar, s.draftVars key = some draftVar →
      ∀ fileId ∈ fileIds, draftVar.fileId ≠ some fileId

variable {operation : Operation}

theorem Intact.step (h : Intact settings s)
    (hkeeps : KeepsReferences s operation) (hstep : step settings s operation = some s') :
    Intact settings s' := by
  cases operation with
  | save saver processData outputs =>
    cases hstep
    exact .save saver h processData outputs
  | updateVariable key name value =>
    cases hstep
    exact h.updateVariable key name value
  | resetVariable source key =>
    cases hstep
    exact h.resetVariable source hkeeps
  | deleteVariable key =>
    cases hstep
    unfold Storage.deleteVariable
    cases hkey : s.draftVars key with
    | none => exact h
    | some draftVar =>
      simp only [hkeeps draftVar hkey]
      exact h.dropVariable key
  | deleteWorkflowDraftVariableFile fileIds =>
    cases hstep
    exact h.deleteWorkflowDraftVariableFile hkeeps

theorem intact_empty (settings : Settings) : Intact settings Storage.empty := by
  refine ⟨⟨fun _ _ h => ?_, fun _ _ h => ?_, fun _ _ _ _ h => ?_, fun _ _ _ _ h => ?_,
    fun _ _ h => ?_⟩, ⟨fun _ _ h => ?_, fun _ _ h => ?_⟩⟩ <;> cases h

/-- In every run whose operations keep the references, no reference dangles in any state. -/
theorem no_dangling {operations : List Operation} (hs : Intact settings s)
    (hkeeps : ∀ pre operation post m, operations = pre ++ operation :: post →
      run (step settings) s pre = some m → KeepsReferences m operation)
    (hrun : run (step settings) s operations = some s') : NoDangling settings s' :=
  (run_induction KeepsReferences (fun _ _ _ hm ha hst => Intact.step hm ha hst) hs hkeeps hrun).2

/-- The node answers. -/
def saveAnswer (answer : String) : Operation := .save codeSaver [] [("answer", .raw (.str answer))]

/-- The variable of the answer. -/
def answerKey : VariableKey := codeSaver.key codeSaver.nodeId "answer"

private def deletesPlain (s : Storage) : Operation → Bool
  | .save _ _ _ => true
  | .updateVariable _ _ _ => true
  | .deleteVariable key => (s.draftVars key).all fun draftVar => draftVar.fileId.isNone
  | _ => false

private theorem keepsReferences_of_deletesPlain
    (h : deletesPlain s operation = true) : KeepsReferences s operation := by
  cases operation with
  | save => trivial
  | updateVariable => trivial
  | resetVariable => cases h
  | deleteVariable key =>
    intro draftVar hkey
    have hall : (s.draftVars key).all (fun draftVar => draftVar.fileId.isNone) = true := h
    rw [hkey, Option.all_some] at hall
    exact Option.isNone_iff_eq_none.mp hall
  | deleteWorkflowDraftVariableFile => cases h

/-- A short answer replaces a long one, and its variable is deleted. -/
theorem no_dangling_answer : ∃ s, run (step smallSettings) Storage.empty
    [saveAnswer "a long answer", saveAnswer "short", .deleteVariable answerKey] = some s ∧
      NoDangling smallSettings s ∧ s.files 0 ≠ none := by
  have htest : testRun (step smallSettings) deletesPlain Storage.empty
      [saveAnswer "a long answer", saveAnswer "short", .deleteVariable answerKey] = true := by
    decide +kernel
  obtain ⟨s, hrun, hfile⟩ : ∃ s, run (step smallSettings) Storage.empty
      [saveAnswer "a long answer", saveAnswer "short", .deleteVariable answerKey] = some s ∧
        s.files 0 ≠ none :=
    ⟨_, rfl, by decide +kernel⟩
  refine ⟨s, hrun, no_dangling (intact_empty _) (fun pre operation post m he hm => ?_) hrun, hfile⟩
  exact keepsReferences_of_deletesPlain (allowed_of_testRun htest pre operation post m he hm)

/-- A long answer is saved and its variable is deleted: the row of its file stays, without its
uploaded file. -/
theorem dangling_file : ¬ ∀ operations s,
    run (step smallSettings) Storage.empty operations = some s → NoDangling smallSettings s := by
  intro hall
  have h := hall [saveAnswer "a long answer", .deleteVariable answerKey] _ rfl
  exact h.uploaded 0 ⟨1, .string⟩ (by decide +kernel) (by decide +kernel)

end PlatformSpec.DraftVariable
