import PlatformSpec.HumanInput.Submission

/-!
# Executing a human input node

Models `HumanInputNode._run` of `dify_graph/nodes/human_input/human_input_node.py`: the node is
executed again whenever its paused workflow resumes, and decides from the form and the clock.
The delivery of a form and the description of its inputs are left out.
-/

namespace PlatformSpec.HumanInput

open Base

/-- `HumanInputNodeData`, as the run reads it; the field names are those of its form content. -/
structure HumanInputNodeData where
  title : String
  outputsFieldNames : List String
  userActions : List UserAction
  deriving DecidableEq

/-- The events of a run. -/
inductive NodeEvent where
  | pauseRequested (formId formContent : String)
  | formTimeout (nodeTitle : String) (expirationTime : Int)
  | formFilled (nodeTitle renderedContent actionId actionText : String)
  | streamCompleted (outputs : FormData) (edgeSourceHandle : String)
  deriving DecidableEq

/-- `dict.get`. -/
def FormData.get (data : FormData) (key : String) : Option FormValue := data.lookup key

/-- Assignment to a key of a dict. -/
def FormData.set (data : FormData) (key : String) (value : FormValue) : FormData :=
  match data with
  | [] => [(key, value)]
  | (k, v) :: rest => if key = k then (k, value) :: rest else (k, v) :: FormData.set rest key value

/-- The text that replaces the placeholder of a field. -/
def replacement : Option FormValue → String
  | none => ""
  | some .null => ""
  | some (.text value) => value
  | some (.structured json) => json
  | some (.scalar text) => text

/-- `render_form_content_with_outputs`. -/
def renderFormContentWithOutputs (formContent : String) (outputs : FormData)
    (fieldNames : List String) : String :=
  fieldNames.foldl (fun renderedContent fieldName =>
    renderedContent.replace ("\x7b\x7b#$output." ++ fieldName ++ "#\x7d\x7d")
      (replacement (outputs.get fieldName))) formContent

/-- `find_action_text`. -/
def HumanInputNodeData.findActionText (data : HumanInputNodeData) (actionId : String) : String :=
  match data.userActions.find? (·.id = actionId) with
  | some action => action.title
  | none => actionId

/-- `_OUTPUT_FIELD_ACTION_ID`. -/
def outputFieldActionId : String := "__action_id"

/-- `_OUTPUT_FIELD_RENDERED_CONTENT`. -/
def outputFieldRenderedContent : String := "__rendered_content"

/-- `_TIMEOUT_HANDLE`. -/
def timeoutHandle : String := "__timeout"

/-- `_form_to_pause_event`. -/
def formToPauseEvent (form : HumanInputForm) : NodeEvent :=
  .pauseRequested form.id form.renderedContent

/-- `_run`, for the form that the repository finds and the one it would create. -/
def runNode (data : HumanInputNodeData) (found : Option HumanInputForm) (created : HumanInputForm)
    (now : Int) : Except FormError (List NodeEvent) :=
  match found with
  | none => .ok [formToPauseEvent created]
  | some form =>
    if (form.status = .timeout ∨ form.status = .expired) ∨ form.expirationTime ≤ now then
      .ok [.formTimeout data.title form.expirationTime,
        .streamCompleted [(outputFieldActionId, .text "")] timeoutHandle]
    else if !form.submitted then .ok [formToPauseEvent form]
    else
      match form.selectedActionId with
      | none => .error (.assertion
          ("selected_action_id should not be None when form submitted, form_id=" ++ form.id))
      | some selectedActionId =>
        let outputs := (form.submittedData.getD []).set outputFieldActionId (.text selectedActionId)
        let renderedContent :=
          renderFormContentWithOutputs form.renderedContent outputs data.outputsFieldNames
        .ok [.formFilled data.title renderedContent selectedActionId
            (data.findActionText selectedActionId),
          .streamCompleted (outputs.set outputFieldRenderedContent (.text renderedContent))
            selectedActionId]

/-- A run follows the branch of a submitted action with the submitted data. -/
def Honours (submission : Submission) (events : Except FormError (List NodeEvent)) : Prop :=
  ∃ earlier outputs, events = .ok (earlier ++ [.streamCompleted outputs
      submission.selectedActionId]) ∧
    outputs.get outputFieldActionId = some (.text submission.selectedActionId) ∧
    ∀ key, key ≠ outputFieldActionId → key ≠ outputFieldRenderedContent →
      outputs.get key = FormData.get submission.formData key

/-- A run takes the timeout branch. -/
def TimesOut (events : Except FormError (List NodeEvent)) : Prop :=
  ∃ nodeTitle expirationTime rest, events = .ok (.formTimeout nodeTitle expirationTime :: rest)

namespace FormData

@[simp] theorem get_set (data : FormData) (key : String) (value : FormValue) :
    (data.set key value).get key = some value := by
  induction data with
  | nil => simp [set, get]
  | cons entry rest ih =>
    obtain ⟨k, v⟩ := entry
    unfold set
    split
    next h => simp [get, h]
    next h =>
      have hne : (key == k) = false := by simp [h]
      simp only [get, List.lookup_cons, hne]
      exact ih

theorem get_set_of_ne (data : FormData) {key other : String} (value : FormValue)
    (h : other ≠ key) : (data.set key value).get other = data.get other := by
  have hne : (other == key) = false := by simp [h]
  induction data with
  | nil => simp [set, get, h]
  | cons entry rest ih =>
    obtain ⟨k, v⟩ := entry
    unfold set
    split
    next hk =>
      subst hk
      simp only [get, List.lookup_cons, hne]
    next hk =>
      simp only [get, List.lookup_cons]
      split
      next => rfl
      next => exact ih

end FormData

theorem runNode_of_expired (data : HumanInputNodeData) {form : HumanInputForm}
    (created : HumanInputForm) {now : Int} (h : form.expirationTime ≤ now) :
    runNode data (some form) created now =
      .ok [.formTimeout data.title form.expirationTime,
        .streamCompleted [(outputFieldActionId, .text "")] timeoutHandle] := by
  simp only [runNode, h, or_true, if_true]

/-- The two results of the node for a submitted form: before the form expires its run follows
the submission, afterwards it times out. -/
theorem runNode_markSubmitted (data : HumanInputNodeData) (form created : HumanInputForm)
    (submission : Submission) (marked now : Int) :
    (Honours submission (runNode data (some (form.markSubmitted submission marked)) created now) ↔
      now < form.expirationTime) ∧
    (TimesOut (runNode data (some (form.markSubmitted submission marked)) created now) ↔
      form.expirationTime ≤ now) := by
  by_cases hexp : form.expirationTime ≤ now
  · have hexp' : (form.markSubmitted submission marked).expirationTime ≤ now := hexp
    have hrun := runNode_of_expired data created hexp'
    constructor
    · rw [hrun]
      constructor
      · rintro ⟨earlier, outputs, hev, hid, -⟩
        have hlast := congrArg (fun l => l.getLast?) (Except.ok.inj hev)
        simp only [List.getLast?_append, List.getLast?_singleton, List.getLast?_cons_cons,
          Option.some_or, Option.some.injEq, NodeEvent.streamCompleted.injEq] at hlast
        obtain ⟨rfl, hhandle⟩ := hlast
        rw [← hhandle] at hid
        exact absurd hid (by decide)
      · intro hlt
        omega
    · exact ⟨fun _ => hexp, fun _ => ⟨_, _, _, hrun⟩⟩
  · obtain ⟨renderedContent, hrun⟩ : ∃ renderedContent,
        runNode data (some (form.markSubmitted submission marked)) created now =
        .ok [.formFilled data.title renderedContent submission.selectedActionId
            (data.findActionText submission.selectedActionId),
          .streamCompleted ((FormData.set submission.formData outputFieldActionId
            (.text submission.selectedActionId)).set outputFieldRenderedContent
              (.text renderedContent)) submission.selectedActionId] := by
      refine ⟨renderFormContentWithOutputs form.renderedContent
        (FormData.set submission.formData outputFieldActionId
          (.text submission.selectedActionId)) data.outputsFieldNames, ?_⟩
      simp [runNode, HumanInputForm.markSubmitted, HumanInputForm.submitted, hexp]
    constructor
    · refine ⟨fun _ => by omega, fun _ => ⟨[_], _, hrun, ?_, ?_⟩⟩
      · rw [FormData.get_set_of_ne _ _ (by decide), FormData.get_set]
      · intro key hid hrendered
        rw [FormData.get_set_of_ne _ _ hrendered, FormData.get_set_of_ne _ _ hid]
    · constructor
      · rintro ⟨title, expiration, rest, hev⟩
        rw [hrun] at hev
        simp at hev
      · intro hle
        exact absurd hle hexp

section Honoured

variable {ι : Type} [DecidableEq ι] {globalTimeoutSeconds : Int} {d d' : Decisions ι}

private theorem expirationTime_step {a : ι × Operation}
    (hstep : step globalTimeoutSeconds d a = some d') :
    d'.shared.form.expirationTime = d.shared.form.expirationTime := by
  obtain ⟨i, a⟩ := a
  obtain ⟨s, l, hop, rfl⟩ := Processes.step_eq_some.mp hstep
  rcases operate_cases hop with ⟨rfl, -⟩ | ⟨submission, now, -, -, rfl⟩ |
    ⟨timeoutStatus, resume, form', -, -, hform, rfl, -⟩ | ⟨succeeds, -, rfl, -⟩
  · rfl
  · rfl
  · exact HumanInputForm.markTimeout_expirationTime hform
  · rfl

variable {submission : Submission} {s s' : FormState} {l l' : Place}

theorem checked_of_operate {a : Operation}
    (h : operate globalTimeoutSeconds s l a = some (s', .checked submission)) :
    ∃ now, l = .submitting submission ∧ a = .check now ∧ now < s.form.expirationTime := by
  unfold operate at h
  split at h
  next submission now =>
    split at h
    next hcheck =>
      cases h
      exact ⟨now, rfl, rfl, HumanInputForm.lt_of_checkSubmission hcheck⟩
    next => cases h
  next submission now =>
    unfold afterSubmission at h
    grind
  next now withinLimit =>
    unfold timeoutOf at h
    grind
  next timeoutStatus resume =>
    unfold afterTimeout at h
    grind
  next => cases h
  next => cases h

theorem markSubmitted_of_operate {now : Int}
    (h : operate globalTimeoutSeconds s l (.markSubmitted now) = some (s', l')) :
    ∃ submission, l = .checked submission ∧
      s' = { s with form := s.form.markSubmitted submission now } := by
  cases l with
  | checked submission =>
    cases h
    exact ⟨submission, rfl, rfl⟩
  | submitting => cases h
  | timingOut => cases h
  | selected => cases h
  | resuming => cases h
  | returned => cases h
  | raised => cases h

theorem not_submitting_of_operate {a : Operation}
    (h : operate globalTimeoutSeconds s l a = some (s', l')) :
    l' ≠ .submitting submission := by
  unfold operate afterSubmission timeoutOf afterTimeout at h
  grind

variable {as : List (ι × Operation)}

theorem accepted_of_checked {i : ι} (hrun : run (step globalTimeoutSeconds) d as = some d')
    (hplace : d'.place i = .checked submission) :
    d.place i = .checked submission ∨ (d.place i = .submitting submission ∧
      ∃ now, (i, .check now) ∈ as ∧ now < d.shared.form.expirationTime) := by
  induction as generalizing d with
  | nil =>
    cases hrun
    exact .inl hplace
  | cons a as ih =>
    obtain ⟨m, hstep, hrest⟩ := run_cons_eq_some.mp hrun
    have hexp := expirationTime_step hstep
    obtain ⟨j, a⟩ := a
    obtain ⟨s, l, hop, rfl⟩ := Processes.step_eq_some.mp hstep
    by_cases hi : i = j
    · subst hi
      rcases ih hrest with hl | ⟨hl, -⟩
      · rw [Processes.place_update_self] at hl
        subst hl
        obtain ⟨now, hsub, rfl, hlt⟩ := checked_of_operate hop
        exact .inr ⟨hsub, now, List.mem_cons_self, hlt⟩
      · rw [Processes.place_update_self] at hl
        subst hl
        exact absurd rfl (not_submitting_of_operate hop)
    · have hsame := Processes.place_update_of_ne s d.place hi l
      rcases ih hrest with hl | ⟨hl, now, hmem, hlt⟩
      · exact .inl (hsame.symm.trans hl)
      · refine .inr ⟨hsame.symm.trans hl, now, List.mem_cons_of_mem _ hmem, ?_⟩
        rw [← hexp]
        exact hlt

theorem form_of_submitted (hsub : d.shared.form.status = .submitted)
    (hlast : ∀ j now, (j, .markSubmitted now) ∉ as)
    (hrun : run (step globalTimeoutSeconds) d as = some d') :
    d'.shared.form = d.shared.form := by
  refine run_invariant (fun a => ∀ j now, a ≠ (j, Operation.markSubmitted now))
    (P := fun m => m.shared.form = d.shared.form) ?_ rfl ?_ hrun
  · rintro m ⟨i, a⟩ m' hm ha hstep
    obtain ⟨s, l, hop, rfl⟩ := Processes.step_eq_some.mp hstep
    rcases operate_cases hop with ⟨rfl, -⟩ | ⟨submission, now, -, rfl, -⟩ |
      ⟨timeoutStatus, resume, form', -, -, hform, -, -⟩ | ⟨succeeds, -, rfl, -⟩
    · exact hm
    · exact absurd rfl (ha i now)
    · rw [← hm] at hsub
      exact absurd hform (HumanInputForm.markTimeout_of_submitted hsub)
    · exact hm
  · rintro ⟨i, a⟩ hmem j now heq
    rw [heq] at hmem
    exact hlast j now hmem

end Honoured

/-- The data of a node with the form `approval`. -/
def approvalNode : HumanInputNodeData := ⟨"Approval", [], approval.definition.userActions⟩

end PlatformSpec.HumanInput
