import Mathlib.Data.List.Basic

/-!
# Human input forms

Models the form rows of `models/human_input.py`, the transactions of
`core/repositories/human_input_repository.py` and the checks of
`services/human_input_service.py`. Instants are naive UTC seconds. Submitted data is stored
as JSON text and read back; the round trip is taken to be faithful.
-/

namespace PlatformSpec.HumanInput

/-- `HumanInputFormStatus`. -/
inductive HumanInputFormStatus where
  | waiting
  | expired
  | submitted
  | timeout
  deriving DecidableEq

/-- The text of a status. -/
def HumanInputFormStatus.value : HumanInputFormStatus → String
  | .waiting => "waiting"
  | .expired => "expired"
  | .submitted => "submitted"
  | .timeout => "timeout"

/-- `HumanInputFormKind`. -/
inductive HumanInputFormKind where
  | runtime
  | deliveryTest
  deriving DecidableEq

/-- A JSON value of a submission, with the text it is rendered as. -/
inductive FormValue where
  | null
  | text (value : String)
  | structured (json : String)
  | scalar (text : String)
  deriving DecidableEq

/-- A JSON object, its keys in order. -/
abbrev FormData := List (String × FormValue)

/-- `UserAction`. -/
structure UserAction where
  id : String
  title : String
  deriving DecidableEq

/-- `FormDefinition`: the names of its inputs and its actions. -/
structure FormDefinition where
  inputs : List String
  userActions : List UserAction
  deriving DecidableEq

/-- `HumanInputForm`, a row of `human_input_forms`. -/
structure HumanInputForm where
  id : String
  workflowRunId : Option String
  formKind : HumanInputFormKind := .runtime
  definition : FormDefinition
  renderedContent : String
  createdAt : Int
  expirationTime : Int
  status : HumanInputFormStatus := .waiting
  selectedActionId : Option String := none
  submittedData : Option FormData := none
  submittedAt : Option Int := none
  submissionUserId : Option String := none
  submissionEndUserId : Option String := none
  completedByRecipientId : Option String := none
  deriving DecidableEq

/-- The exceptions of the service and the repository, with their texts. -/
inductive FormError where
  | webAppDeliveryNotEnabled
  | formSubmitted (description : String)
  | formExpired (description : String)
  | invalidFormData (description : String)
  | formNotFound (description : String)
  | invalidTimeoutStatus (description : String)
  | assertion (description : String)
  deriving DecidableEq

namespace HumanInputForm

/-- `submitted`. -/
def submitted (form : HumanInputForm) : Bool := form.submittedAt.isSome

/-- `_is_globally_expired` and `_is_global_timeout`. -/
def isGloballyExpired (form : HumanInputForm) (globalTimeoutSeconds now : Int) : Bool :=
  decide (0 < globalTimeoutSeconds) && form.workflowRunId.isSome &&
    decide (form.createdAt + globalTimeoutSeconds ≤ now)

/-- `FormSubmittedError`. -/
def submittedError (form : HumanInputForm) : FormError :=
  .formSubmitted ("This form has already been submitted by another user, form_id=" ++ form.id)

/-- `FormExpiredError`. -/
def expiredError (form : HumanInputForm) : FormError :=
  .formExpired ("This form has expired, form_id=" ++ form.id)

/-- `ensure_form_active`. -/
def ensureFormActive (form : HumanInputForm) (globalTimeoutSeconds now : Int) :
    Except FormError Unit :=
  if form.submitted then .error form.submittedError
  else if form.status = .timeout ∨ form.status = .expired then .error form.expiredError
  else if form.expirationTime ≤ now then .error form.expiredError
  else if form.isGloballyExpired globalTimeoutSeconds now then .error form.expiredError
  else .ok ()

/-- `validate_human_input_submission`. -/
def validateSubmission (definition : FormDefinition) (selectedActionId : String)
    (formData : FormData) : Except FormError Unit :=
  if selectedActionId ∉ definition.userActions.map UserAction.id then
    .error (.invalidFormData ("Invalid action: " ++ selectedActionId))
  else
    let missingInputs := definition.inputs.filter (· ∉ formData.map Prod.fst)
    if missingInputs.isEmpty then .ok ()
    else .error (.invalidFormData
      ("Missing required inputs: " ++ ", ".intercalate missingInputs))

end HumanInputForm

/-- The arguments of `submit_form_by_token`; `recipient` is what the token resolves to: the
recipient's id and type. -/
structure Submission where
  recipientType : String
  recipient : Option (String × String)
  selectedActionId : String
  formData : FormData
  submissionUserId : Option String := none
  submissionEndUserId : Option String := none
  deriving DecidableEq

namespace HumanInputForm

/-- The part of `submit_form_by_token` that comes before its transaction. -/
def checkSubmission (form : HumanInputForm) (globalTimeoutSeconds now : Int)
    (submission : Submission) : Except FormError Unit := do
  match submission.recipient with
  | none => throw .webAppDeliveryNotEnabled
  | some (_, recipientType) =>
    if recipientType ≠ submission.recipientType then throw .webAppDeliveryNotEnabled
  form.ensureFormActive globalTimeoutSeconds now
  validateSubmission form.definition submission.selectedActionId submission.formData

/-- `mark_submitted`: the row is written whatever its status is. -/
def markSubmitted (form : HumanInputForm) (submission : Submission) (now : Int) :
    HumanInputForm :=
  { form with
    selectedActionId := some submission.selectedActionId
    submittedData := some submission.formData
    submittedAt := some now
    status := .submitted
    submissionUserId := submission.submissionUserId
    submissionEndUserId := submission.submissionEndUserId
    completedByRecipientId := submission.recipient.map Prod.fst }

/-- `mark_timeout`: a form that was closed before is left alone. -/
def markTimeout (form : HumanInputForm) (timeoutStatus : HumanInputFormStatus) :
    Except FormError HumanInputForm :=
  if timeoutStatus ≠ .timeout ∧ timeoutStatus ≠ .expired then
    .error (.invalidTimeoutStatus ("invalid timeout status: " ++ timeoutStatus.value))
  else if form.status = .timeout ∨ form.status = .expired then .ok form
  else if form.submittedAt.isSome ∨ form.status = .submitted then
    .error (.formNotFound ("form already submitted, id=" ++ form.id))
  else .ok { form with
    status := timeoutStatus
    selectedActionId := none
    submittedData := none
    submissionUserId := none
    submissionEndUserId := none
    completedByRecipientId := none }

/-- What a decision on a form consists of. -/
def decision (form : HumanInputForm) :
    HumanInputFormStatus × Option String × Option FormData :=
  (form.status, form.selectedActionId, form.submittedData)

variable {form form' : HumanInputForm} {timeoutStatus : HumanInputFormStatus}

/-- A timeout that succeeds finds the form closed by a timeout, or closes a waiting form. -/
theorem markTimeout_cases (h : form.markTimeout timeoutStatus = .ok form') :
    (form' = form ∧ (form.status = .timeout ∨ form.status = .expired)) ∨
    (form.status = .waiting ∧ form'.status = timeoutStatus ∧
      (timeoutStatus = .timeout ∨ timeoutStatus = .expired)) := by
  unfold markTimeout at h
  split at h
  next => cases h
  next hvalid =>
    split at h
    next hclosed =>
      cases h
      exact .inl ⟨rfl, hclosed⟩
    next hopen =>
      split at h
      next => cases h
      next hfree =>
        cases h
        refine .inr ⟨?_, rfl, ?_⟩
        · cases hst : form.status with
          | waiting => rfl
          | submitted => exact absurd (.inr hst) hfree
          | timeout => exact absurd (.inl hst) hopen
          | expired => exact absurd (.inr hst) hopen
        · cases timeoutStatus with
          | waiting => exact absurd ⟨by simp, by simp⟩ hvalid
          | submitted => exact absurd ⟨by simp, by simp⟩ hvalid
          | timeout => exact .inl rfl
          | expired => exact .inr rfl

theorem markTimeout_expirationTime (h : form.markTimeout timeoutStatus = .ok form') :
    form'.expirationTime = form.expirationTime := by
  unfold markTimeout at h
  split at h
  next => cases h
  next =>
    split at h
    next => cases h; rfl
    next =>
      split at h
      next => cases h
      next => cases h; rfl

theorem lt_of_checkSubmission {globalTimeoutSeconds now : Int}
    {submission : Submission}
    (h : form.checkSubmission globalTimeoutSeconds now submission = .ok ()) :
    now < form.expirationTime := by
  have hactive : form.ensureFormActive globalTimeoutSeconds now = .ok () := by
    unfold checkSubmission at h
    cases hr : submission.recipient with
    | none => simp [hr, throw, throwThe, MonadExceptOf.throw, bind, Except.bind] at h
    | some r =>
      cases ha : form.ensureFormActive globalTimeoutSeconds now with
      | ok _ => rfl
      | error e =>
        simp only [hr, ha, bind, Except.bind] at h
        split at h
        next => cases h
        next => cases h
  unfold ensureFormActive at hactive
  split at hactive
  next => cases hactive
  next =>
    split at hactive
    next => cases hactive
    next =>
      split at hactive
      next => cases hactive
      next hlt => exact Int.not_le.mp hlt

theorem markTimeout_of_submitted (h : form.status = .submitted) :
    form.markTimeout timeoutStatus ≠ .ok form' := by
  intro hok
  rcases markTimeout_cases hok with ⟨-, hclosed | hclosed⟩ | ⟨hwaiting, -⟩
  · rw [h] at hclosed
    cases hclosed
  · rw [h] at hclosed
    cases hclosed
  · rw [h] at hwaiting
    cases hwaiting

end HumanInputForm
end PlatformSpec.HumanInput
