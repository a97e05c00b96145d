import PlatformSpec.DraftVariable.Loader

/-!
# Draft variables survive save and load

When the values of the outputs that `DraftVariableSaver.save` stores are those that
`DraftVarLoader.load_variables` returns.
-/

namespace PlatformSpec.DraftVariable

open Base Storage

/-- The value of an output. -/
def Output.value : Output → Value
  | .raw value => value
  | .segment value => value.value

namespace DraftVariableSaver

variable (saver : DraftVariableSaver)

/-- The segment that is saved for an output under a key. -/
def outputSegment (lib : Libraries) (key : VariableKey) (output : Output) : Option Segment := do
  let value ← output.build lib
  if saver.isStartNode ∧ key.nodeId = systemVariableNodeId then
    buildSystemVariable lib key.name output value
  else some value

/-- The outputs with the keys under which they are saved, and the placeholder of a start node. -/
def savedOutputs (outputs : List (String × Output)) : List (VariableKey × Output) :=
  if saver.shouldSaveOutputVariablesForDraft = false ∨ saver.nodeType = "assigner" then []
  else if saver.isStartNode then
    (outputs.map fun output =>
      (saver.key (saver.normalizeVariableForStartNode output.1).1
        (saver.normalizeVariableForStartNode output.1).2, output.2)) ++
      if saver.hasNonSysVariables outputs then []
      else [(saver.key saver.nodeId "__dummy__", .raw .none)]
  else
    (outputs.filter fun output => saver.shouldVariableBeSaved output.1).map fun output =>
      (saver.key saver.nodeId output.1, output.2)

/-- The output with which a key is saved; the last one counts. -/
def savedOutput (outputs : List (String × Output)) (key : VariableKey) : Option Output :=
  (saver.savedOutputs outputs).reverse.lookup key

/-- `save` does not raise. -/
def Saves (settings : Settings) (processData : List UpdatedVariable)
    (outputs : List (String × Output)) (s : Storage) : Prop :=
  saver.shouldSaveOutputVariablesForDraft = true → ∃ draftVars s',
    saver.draftVariables settings processData outputs s = (some draftVars, s') ∧
      (settings.postgresql = true → (draftVars.map Prod.fst).Nodup)

/-- The loader of the variables that the saver saves. -/
def loader (settings : Settings) (records : FileRecords) : DraftVarLoader :=
  ⟨settings.lib, records, saver.appId, saver.userId⟩

/-- After `save` the loader returns, for all selectors that are saved, the values of the outputs. -/
def RoundTrip (settings : Settings) (records : FileRecords) (processData : List UpdatedVariable)
    (outputs : List (String × Output)) (s : Storage) : Prop :=
  ∀ selectors : List (String × String),
    (∀ selector ∈ selectors, ∃ output,
      saver.savedOutput outputs (saver.key selector.1 selector.2) = some output) →
    ∃ loaded, (saver.loader settings records).loadVariables
        (saver.save settings processData outputs s) selectors = some loaded ∧
      ∀ selector ∈ selectors, ∀ output,
        saver.savedOutput outputs (saver.key selector.1 selector.2) = some output →
        ∃ segment, (selector, segment) ∈ loaded ∧ segment.value.Same output.value

variable {settings : Settings} {s s' : Storage}

/-- A row is saved for an output. -/
def RowOf (settings : Settings) (s : Storage) (output : VariableKey × Output)
    (row : VariableKey × WorkflowDraftVariable) : Prop :=
  row.1 = output.1 ∧ ∃ segment, saver.outputSegment settings.lib output.1 output.2 = some segment ∧
    RowFor settings s (!saver.isStartNode) segment row.2

variable {name : String}

private theorem createDraftVariable_row {value : Segment} {draftVar : WorkflowDraftVariable}
    (h : saver.createDraftVariable settings name value s = (some draftVar, s')) :
    Extends s s' ∧ RowFor settings s' true value draftVar := by
  unfold createDraftVariable at h
  rcases saver.tryOffload_cases settings name value s with
    he | ⟨result, htruncate, hcut, he⟩ | ⟨result, content, htruncate, hcut, hcontent, he⟩
  · rw [he] at h
    cases h
  · rw [he] at h
    obtain ⟨hnew, rfl⟩ := Prod.mk.inj h
    obtain ⟨hfile, -, htype, hvalue⟩ := WorkflowDraftVariable.new_eq_some hnew
    exact ⟨.refl _, .whole hfile htype hvalue fun _ => ⟨result, htruncate, hcut⟩⟩
  · rw [he] at h
    obtain ⟨hnew, rfl⟩ := Prod.mk.inj h
    obtain ⟨hfile, -, htype, hvalue⟩ := WorkflowDraftVariable.new_eq_some hnew
    refine ⟨.store s _ _, .offloaded rfl result content s.issued ⟨s.issued + 1, value.valueType⟩
      ⟨s.issued + 2⟩ htruncate hcut hcontent hfile rfl ⟨?_, ?_⟩ ⟨?_, ?_⟩ ⟨?_, ?_⟩ htype hvalue⟩
    all_goals simp

variable {outputs : List (String × Output)} {rows : DraftVariables}

private theorem buildVariablesFromMapping_rows (hstart : saver.isStartNode = false)
    (h : saver.buildVariablesFromMapping settings outputs s = (some rows, s')) :
    Extends s s' ∧ List.Forall₂ (saver.RowOf settings s')
      ((outputs.filter fun output => saver.shouldVariableBeSaved output.1).map fun output =>
        (saver.key saver.nodeId output.1, output.2)) rows := by
  induction outputs generalizing s rows with
  | nil =>
    cases h
    exact ⟨.refl _, .nil⟩
  | cons output outputs ih =>
    obtain ⟨name, output⟩ := output
    unfold buildVariablesFromMapping at h
    cases hsaved : saver.shouldVariableBeSaved name with
    | false =>
      simp only [hsaved, Bool.not_false, if_true] at h
      rw [List.filter_cons_of_neg (by simp [hsaved])]
      exact ih h
    | true =>
      simp only [hsaved, Bool.not_true, Bool.false_eq_true, if_false] at h
      rw [List.filter_cons_of_pos (by simp [hsaved]), List.map_cons]
      cases hbuild : output.build settings.lib with
      | none =>
        rw [hbuild] at h
        cases h
      | some value =>
        rw [hbuild] at h
        dsimp only at h
        cases hcreate : saver.createDraftVariable settings name value s with
        | mk draftVar s₁ =>
          rw [hcreate] at h
          cases draftVar with
          | none => cases h
          | some draftVar =>
            dsimp only at h
            cases hrest : saver.buildVariablesFromMapping settings outputs s₁ with
            | mk rest s₂ =>
              rw [hrest] at h
              cases rest with
              | none => cases h
              | some rest =>
                cases h
                obtain ⟨hfirst, hrow⟩ := saver.createDraftVariable_row hcreate
                obtain ⟨hextends, hall⟩ := ih hrest
                refine ⟨hfirst.trans hextends, .cons ⟨rfl, value, ?_, ?_⟩ hall⟩
                · simp [outputSegment, hbuild, hstart]
                · rw [hstart]
                  exact hrow.extend hextends

private theorem normalize_fst
    (h : (saver.normalizeVariableForStartNode name).1 ≠ systemVariableNodeId) :
    (saver.normalizeVariableForStartNode name).1 = saver.nodeId := by
  unfold normalizeVariableForStartNode at h ⊢
  split at h
  next => exact absurd rfl h
  next hname => rw [if_neg hname]

private theorem startVariable_row (hstart : saver.isStartNode = true)
    {output : Output} {row : VariableKey × WorkflowDraftVariable}
    (h : saver.startVariable settings name output = some row) :
    saver.RowOf settings s (saver.key (saver.normalizeVariableForStartNode name).1
      (saver.normalizeVariableForStartNode name).2, output) row := by
  unfold startVariable at h
  obtain ⟨value, hvalue, h⟩ := Option.bind_eq_some_iff.mp h
  dsimp only at h
  split at h
  next hnode =>
    obtain ⟨draftVar, hnew, he⟩ := Option.bind_eq_some_iff.mp h
    cases he
    obtain ⟨hfile, -, htype, hstored⟩ := WorkflowDraftVariable.new_eq_some hnew
    refine ⟨by rw [saver.normalize_fst hnode], value, ?_, .whole hfile htype hstored fun hoff => ?_⟩
    · have hkey : (saver.key (saver.normalizeVariableForStartNode name).1
        (saver.normalizeVariableForStartNode name).2).nodeId ≠ systemVariableNodeId := hnode
      simp [outputSegment, hvalue, hkey]
    · rw [hstart] at hoff
      cases hoff
  next hnode =>
    obtain ⟨segment, hsegment, h⟩ := Option.bind_eq_some_iff.mp h
    obtain ⟨draftVar, hnew, he⟩ := Option.bind_eq_some_iff.mp h
    cases he
    obtain ⟨hfile, -, htype, hstored⟩ := WorkflowDraftVariable.new_eq_some hnew
    have hnodeId := not_ne_iff.mp hnode
    refine ⟨by rw [hnodeId], segment, ?_, .whole hfile htype hstored fun hoff => ?_⟩
    · simp [outputSegment, hvalue, hstart, key, hnodeId, hsegment]
    · rw [hstart] at hoff
      cases hoff

theorem draftVariables_rows (hsave : saver.shouldSaveOutputVariablesForDraft = true)
    (hnode : saver.nodeType ≠ "assigner") {processData : List UpdatedVariable}
    (h : saver.draftVariables settings processData outputs s = (some rows, s')) :
    List.Forall₂ (saver.RowOf settings s') (saver.savedOutputs outputs) rows := by
  unfold draftVariables at h
  unfold savedOutputs
  rw [if_neg hnode] at h
  rw [if_neg (by simp [hsave, hnode])]
  cases hstart : saver.isStartNode with
  | false =>
    rw [hstart] at h
    exact (saver.buildVariablesFromMapping_rows hstart h).2
  | true =>
    rw [hstart, if_pos rfl] at h
    obtain ⟨hrows, rfl⟩ := Prod.mk.inj h
    obtain ⟨started, hstarted, he⟩ := Option.bind_eq_some_iff.mp hrows
    rw [if_pos rfl]
    have hall : List.Forall₂ (saver.RowOf settings s)
        (outputs.map fun output => (saver.key (saver.normalizeVariableForStartNode output.1).1
          (saver.normalizeVariableForStartNode output.1).2, output.2)) started := by
      rw [List.forall₂_map_left_iff]
      exact (Collect.mapM_eq_some_iff.mp hstarted).imp fun output row hrow =>
        saver.startVariable_row hstart hrow
    cases he
    split
    next => simpa using hall
    next =>
      refine List.rel_append hall (.cons ⟨rfl, ⟨.none, .none, rfl⟩, ?_, ?_⟩ .nil)
      · have hbuild : Output.build settings.lib (.raw .none) = some ⟨.none, .none, rfl⟩ := rfl
        have hname : (saver.key saver.nodeId "__dummy__").name ≠ "files" := by
          show "__dummy__" ≠ "files"
          decide
        simp [outputSegment, hbuild, buildSystemVariable, hname]
      · exact .whole rfl rfl rfl fun hoff => by
          rw [hstart] at hoff
          cases hoff

end DraftVariableSaver

private theorem upsert_apply (rows : DraftVariables)
    (table : VariableKey → Option WorkflowDraftVariable) (key : VariableKey) :
    rows.foldl (fun (t : VariableKey → Option WorkflowDraftVariable) row =>
      Function.update t row.1 (some row.2)) table key =
        (rows.reverse.lookup key).or (table key) := by
  induction rows generalizing table with
  | nil => rfl
  | cons row rows ih =>
    obtain ⟨key', draftVar⟩ := row
    rw [List.foldl_cons, ih, List.reverse_cons, List.lookup_append, Option.or_assoc]
    congr 1
    by_cases he : key = key'
    · simp [he]
    · simp [he, List.lookup_cons, beq_false_of_ne he]

namespace DraftVariableSaver

variable (saver : DraftVariableSaver) {settings : Settings} {records : FileRecords}
  {s s' : Storage} {key : VariableKey} {output : Output}

private theorem lookup_rows {outputs : List (VariableKey × Output)} {rows : DraftVariables}
    (h : List.Forall₂ (saver.RowOf settings s) outputs rows)
    (houtput : outputs.lookup key = some output) :
    ∃ row, rows.lookup key = some row ∧ saver.RowOf settings s (key, output) (key, row) := by
  induction h with
  | nil => cases houtput
  | @cons out row outputs rows hrow _ ih =>
    obtain ⟨key', draftVar⟩ := row
    obtain ⟨rfl, hsegment⟩ := hrow
    by_cases he : key = out.1
    · subst he
      rw [List.lookup_cons_self] at houtput ⊢
      cases houtput
      exact ⟨draftVar, rfl, rfl, hsegment⟩
    · rw [List.lookup_cons, beq_false_of_ne he] at houtput ⊢
      exact ih houtput

variable {outputs : List (String × Output)}

private theorem saved_row {processData : List UpdatedVariable}
    (hsaves : saver.Saves settings processData outputs s)
    (h : saver.savedOutput outputs key = some output) : ∃ draftVar segment,
      (saver.save settings processData outputs s).draftVars key = some draftVar ∧
      saver.outputSegment settings.lib key output = some segment ∧
      RowFor settings (saver.save settings processData outputs s) (!saver.isStartNode) segment
        draftVar := by
  have hsave : saver.shouldSaveOutputVariablesForDraft = true := by
    by_contra hne
    rw [savedOutput, savedOutputs, if_pos (.inl (by simpa using hne))] at h
    cases h
  have hnode : saver.nodeType ≠ "assigner" := by
    intro he
    rw [savedOutput, savedOutputs, if_pos (.inr he)] at h
    cases h
  obtain ⟨rows, s', hrows, hnodup⟩ := hsaves hsave
  have hall := saver.draftVariables_rows hsave hnode hrows
  obtain ⟨draftVar, hlookup, -, segment, hsegment, hrow⟩ :=
    saver.lookup_rows (List.forall₂_reverse_iff.mpr hall) h
  have hsaved : saver.save settings processData outputs s = { s' with
      draftVars :=
        rows.foldl (fun t row => Function.update t row.1 (some row.2)) s'.draftVars } := by
    unfold save batchUpsertDraftVariable
    rw [if_pos hsave, hrows]
    exact if_neg fun hdup => hdup.2 (hnodup hdup.1)
  rw [hsaved]
  refine ⟨draftVar, segment, ?_, hsegment, hrow.extend ⟨?_, ?_, ?_, le_rfl⟩⟩
  · exact (upsert_apply rows s'.draftVars key).trans (by rw [hlookup, Option.some_or])
  all_goals exact fun _ _ => rfl

theorem key_of_savedOutput
    (h : saver.savedOutput outputs key = some output) : key = saver.key key.nodeId key.name := by
  obtain ⟨front, back, hsplit, -⟩ := List.lookup_eq_some_iff.mp h
  have hmem : (key, output) ∈ saver.savedOutputs outputs :=
    List.mem_reverse.mp (hsplit ▸ by simp)
  unfold savedOutputs at hmem
  split at hmem
  next => cases hmem
  next =>
    split at hmem
    next =>
      rcases List.mem_append.mp hmem with hmem | hmem
      · obtain ⟨out, -, he⟩ := List.mem_map.mp hmem
        cases he
        rfl
      · split at hmem
        next => cases hmem
        next =>
          cases List.mem_singleton.mp hmem
          rfl
    next =>
      obtain ⟨out, -, he⟩ := List.mem_map.mp hmem
      cases he
      rfl

theorem valueType_of_buildFiles {lib : Libraries} {files : Value} {segment : Segment}
    (h : buildFiles lib files = some segment) : segment.valueType = .arrayFile := by
  unfold buildFiles at h
  split at h
  next =>
    obtain ⟨files, -, h⟩ := Option.bind_eq_some_iff.mp h
    split at h
    next => exact (ofType_eq_some h).1
    next => exact valueType_of_decode (by decide) h
  next => exact (ofType_eq_some h).1
  next => exact (ofType_eq_some h).1
  next => cases h

theorem value_of_outputSegment {lib : Libraries}
    {segment : Segment} (h : saver.outputSegment lib key output = some segment)
    (hfiles : ¬ segment.valueType.holdsFiles) : segment.value = output.value := by
  have hbuild : output.build lib = some segment → segment.value = output.value := by
    intro hbuild
    cases output with
    | raw value => exact value_of_buildSegment hbuild hfiles
    | segment value =>
      cases hbuild
      rfl
  obtain ⟨value, hvalue, h⟩ := Option.bind_eq_some_iff.mp h
  split at h
  next =>
    unfold buildSystemVariable at h
    split at h
    next =>
      cases output with
      | raw files => exact absurd (.inr (valueType_of_buildFiles h)) hfiles
      | segment value => cases h
    next =>
      cases h
      exact hbuild hvalue
  next =>
    cases h
    exact hbuild hvalue

/-- The values of a node's outputs are loaded again after they were saved if and only if the
segment of every output that counts is restorable as its value. -/
theorem draft_round_trip_iff {processData : List UpdatedVariable}
    {outputs : List (String × Output)} (hsaves : saver.Saves settings processData outputs s) :
    saver.RoundTrip settings records processData outputs s ↔
      ∀ key output, saver.savedOutput outputs key = some output →
        ∀ segment, saver.outputSegment settings.lib key output = some segment →
          Restorable settings records (!saver.isStartNode) segment output.value := by
  constructor
  · intro hround key output houtput segment hsegment
    have hkey := saver.key_of_savedOutput houtput
    obtain ⟨draftVar, segment', hdraftVar, hsegment', hrow⟩ := saver.saved_row hsaves houtput
    cases hsegment.symm.trans hsegment'
    rw [hkey] at houtput hdraftVar
    obtain ⟨loaded, hloaded, hall⟩ := hround [(key.nodeId, key.name)]
      (by simpa using ⟨output, houtput⟩)
    obtain ⟨found, hfound, hsame⟩ := hall _ (List.mem_singleton_self _) output houtput
    have hmem : ((key.nodeId, key.name), draftVar) ∈
        (saver.loader settings records).getDraftVariablesBySelectors
          (saver.save settings processData outputs s) [(key.nodeId, key.name)] :=
      (DraftVarLoader.mem_getDraftVariables _ _).mpr ⟨List.mem_singleton_self _, hdraftVar⟩
    have hload := (DraftVarLoader.mem_loadVariables _ _ hloaded hmem found).mp hfound
    exact (loadVariable_iff (saver.loader settings records) hrow
      (saver.value_of_outputSegment hsegment)).mp ⟨found, hload, hsame⟩
  · intro hall selectors hselectors
    have hone : ∀ row ∈ (saver.loader settings records).getDraftVariablesBySelectors
        (saver.save settings processData outputs s) selectors, ∀ output,
        saver.savedOutput outputs (saver.key row.1.1 row.1.2) = some output →
        ∃ segment, (saver.loader settings records).loadVariable
          (saver.save settings processData outputs s) row.2 = some segment ∧
            segment.value.Same output.value := by
      intro row hrow output houtput
      obtain ⟨-, hdraftVar⟩ := (DraftVarLoader.mem_getDraftVariables _ _).mp hrow
      obtain ⟨draftVar, segment, hdraftVar', hsegment, hfor⟩ := saver.saved_row hsaves houtput
      cases hdraftVar.symm.trans hdraftVar'
      exact (loadVariable_iff (saver.loader settings records) hfor
        (saver.value_of_outputSegment hsegment)).mpr (hall _ output houtput segment hsegment)
    obtain ⟨loaded, hloaded⟩ := (DraftVarLoader.exists_loadVariables
      (saver.loader settings records) (saver.save settings processData outputs s)).mpr
        fun row hrow => by
          obtain ⟨output, houtput⟩ := hselectors row.1
            ((DraftVarLoader.mem_getDraftVariables _ _).mp hrow).1
          obtain ⟨segment, hsegment, -⟩ := hone row hrow output houtput
          exact ⟨segment, hsegment⟩
    refine ⟨loaded, hloaded, fun selector hselector output houtput => ?_⟩
    obtain ⟨draftVar, -, hdraftVar, -⟩ := saver.saved_row hsaves houtput
    have hmem : (selector, draftVar) ∈
        (saver.loader settings records).getDraftVariablesBySelectors
          (saver.save settings processData outputs s) selectors :=
      (DraftVarLoader.mem_getDraftVariables _ _).mpr ⟨hselector, hdraftVar⟩
    obtain ⟨segment, hsegment, hsame⟩ := hone _ hmem output houtput
    exact ⟨segment, (DraftVarLoader.mem_loadVariables _ _ hloaded hmem segment).mpr hsegment,
      hsame⟩

end DraftVariableSaver

/-- A JSON value that is not taken for files comes back if its floats are finite and what is kept
of it, if it is offloaded, has the type of its row. -/
theorem Restorable.of_json {settings : Settings} {records : FileRecords} {offloads : Bool}
    {v : Value} {segment : Segment}
    (h : buildSegmentForSerializedValues settings.lib v = some segment)
    (hfiles : ¬ segment.valueType.holdsFiles) (hfinite : v.finite = true)
    (hkept : offloads = true → ∀ result j, settings.truncator.truncate settings.lib segment =
      some result → result.truncated = true →
      dumpsWithSegments result.valueType result.value = some j → j.HasType result.valueType) :
    Restorable settings records offloads segment v where
  decodable := decodable_of_buildSegment h hfiles
  finite := value_of_buildSegment h hfiles ▸ hfinite
  same := value_of_buildSegment h hfiles ▸ .refl _
  keys := by
    rw [files_eq_nil hfiles]
    simp
  kept := hkept

theorem VariableTruncator.truncate_text {t : VariableTruncator} {lib : Libraries} {text : String}
    {result : TruncationResult} (h : t.truncate lib ⟨.string, .str text, rfl⟩ = some result) :
    result.valueType = .string ∧ ∃ cut, result.value = .str cut := by
  unfold VariableTruncator.truncate at h
  obtain ⟨part, hpart, h⟩ := Option.bind_eq_some_iff.mp h
  have hvalue : part.value = .str (t.truncateString text t.stringLengthLimit).value := by
    cases hpart
    rw [VariableTruncator.truncateJsonPrimitives]
  split at h
  next =>
    obtain ⟨json, -, h⟩ := Option.bind_eq_some_iff.mp h
    cases h
    exact ⟨rfl, _, rfl⟩
  next =>
    cases h
    exact ⟨rfl, _, hvalue⟩

/-- A tenant without files. -/
def noFiles : FileRecords := ⟨"tenant", fun _ => none, fun _ => false, fun _ => false⟩

/-- A long answer comes back. -/
theorem draft_round_trip_answer :
    codeSaver.RoundTrip smallSettings noFiles [] [("answer", .raw (.str "a long answer"))]
      Storage.empty := by
  refine (codeSaver.draft_round_trip_iff fun _ => ⟨_, _, rfl, fun _ => by decide +kernel⟩).mpr ?_
  intro key output houtput segment hsegment
  obtain ⟨front, back, hsplit, -⟩ := List.lookup_eq_some_iff.mp houtput
  have hmem : (key, output) ∈ [(codeSaver.key codeSaver.nodeId "answer",
      Output.raw (.str "a long answer"))] := List.mem_reverse.mp (hsplit ▸ by simp)
  cases List.mem_singleton.mp hmem
  cases hsegment
  refine .of_json rfl (by decide) rfl fun _ result j hresult _ hj => ?_
  obtain ⟨htype, cut, hcut⟩ := VariableTruncator.truncate_text hresult
  rw [htype, hcut] at hj
  rw [htype]
  cases hj
  exact .inl rfl

/-- Five strings and a number: of the array, of any elements, only the strings are kept in the
row, so that the loader raises. -/
theorem draft_not_loaded :
    ¬ codeSaver.RoundTrip smallSettings noFiles []
      [("list", .raw (.list [.str "a", .str "b", .str "c", .str "d", .str "e", .int 1]))]
      Storage.empty := by
  intro hround
  obtain ⟨loaded, hloaded, -⟩ := hround [(codeSaver.nodeId, "list")] fun selector hselector => by
    rw [List.mem_singleton.mp hselector]
    exact ⟨_, rfl⟩
  have hnone : ((codeSaver.loader smallSettings noFiles).loadVariables
      (codeSaver.save smallSettings []
        [("list", .raw (.list [.str "a", .str "b", .str "c", .str "d", .str "e", .int 1]))]
        Storage.empty) [(codeSaver.nodeId, "list")]).isNone = true := by
    decide +kernel
  rw [hloaded] at hnone
  cases hnone

end PlatformSpec.DraftVariable
