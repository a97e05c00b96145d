import PlatformSpec.Base.Interleaving
import PlatformSpec.HumanInput.Form

/-!
# Deciding a form concurrently

Models `submit_form_by_token` of `services/human_input_service.py` and
`check_and_handle_human_input_timeouts` of `tasks/human_input_timeout_tasks.py` on one form.
Every database transaction is one step, as is the enqueueing of a resume; the readings of the
clock come with the steps.
-/

namespace PlatformSpec.HumanInput

open Base

/-- The form and the resumes enqueued for its workflow run. -/
structure FormState where
  form : HumanInputForm
  resumes : Nat := 0
  deriving DecidableEq

/-- Where a process is. A submission has not begun, has passed its checks, or is about to
enqueue the resume; a timeout task has not begun, has selected the form with a status and
whether a resume follows, or is about to enqueue it. -/
inductive Place where
  | submitting (submission : Submission)
  | checked (submission : Submission)
  | timingOut
  | selected (timeoutStatus : HumanInputFormStatus) (resume : Bool)
  | resuming (workflowRunId : String)
  | returned
  | raised (error : FormError)
  deriving DecidableEq

/-- The steps: the read and the checks of a submission, its transaction, the scan of a timeout
task, which may leave the form out at its limit, its transaction, and the enqueueing of a
resume, which may fail. -/
inductive Operation where
  | check (now : Int)
  | markSubmitted (now : Int)
  | scan (now : Int) (withinLimit : Bool)
  | markTimeout
  | enqueueResume (succeeds : Bool)
  deriving DecidableEq

/-- What follows the transaction of a submission. -/
def afterSubmission (form : HumanInputForm) : Place :=
  if form.formKind ≠ .runtime then .returned
  else
    match form.workflowRunId with
    | none => .returned
    | some workflowRunId => .resuming workflowRunId

/-- What follows the transaction of a timeout. -/
def afterTimeout (form : HumanInputForm) (resume : Bool) : Place :=
  if form.formKind = .deliveryTest then .returned
  else
    match form.workflowRunId with
    | none => .raised (.assertion "workflow_run_id should not be None for non-test form")
    | some workflowRunId => if resume then .resuming workflowRunId else .returned

/-- The filter of the timeout query. -/
def timedOut (form : HumanInputForm) (globalTimeoutSeconds now : Int) : Bool :=
  decide (form.status = .waiting) && (decide (form.expirationTime ≤ now) ||
    (decide (0 < globalTimeoutSeconds) && decide (form.createdAt ≤ now - globalTimeoutSeconds)))

/-- What a timeout task decides about a form it selected. -/
def timeoutOf (form : HumanInputForm) (globalTimeoutSeconds now : Int) : Place :=
  if form.formKind = .deliveryTest then .selected .timeout false
  else if form.isGloballyExpired globalTimeoutSeconds now then .selected .expired false
  else .selected .timeout true

/-- One step of `submit_form_by_token` or of the timeout task. -/
def operate (globalTimeoutSeconds : Int) (s : FormState) :
    Place → Operation → Option (FormState × Place)
  | .submitting submission, .check now =>
    match s.form.checkSubmission globalTimeoutSeconds now submission with
    | .ok () => some (s, .checked submission)
    | .error e => some (s, .raised e)
  | .checked submission, .markSubmitted now =>
    let form := s.form.markSubmitted submission now
    some ({ s with form }, afterSubmission form)
  | .timingOut, .scan now withinLimit =>
    if timedOut s.form globalTimeoutSeconds now && withinLimit then
      some (s, timeoutOf s.form globalTimeoutSeconds now)
    else some (s, .returned)
  | .selected timeoutStatus resume, .markTimeout =>
    match s.form.markTimeout timeoutStatus with
    | .ok form => some ({ s with form }, afterTimeout form resume)
    | .error e => some (s, .raised e)
  | .resuming _, .enqueueResume succeeds =>
    some ({ s with resumes := s.resumes + succeeds.toNat }, .returned)
  | _, _ => none

/-- Concurrent submissions and timeout tasks on one form. -/
abbrev Decisions (ι : Type) := Processes FormState ι Place

section Decided

variable {ι : Type} [DecidableEq ι] (globalTimeoutSeconds : Int)

/-- One step of one process. -/
def step : Decisions ι → ι × Operation → Option (Decisions ι) :=
  Processes.step fun _ => operate globalTimeoutSeconds

/-- A form and processes none of which has begun: a process submits or times out. -/
def start (form : HumanInputForm) (submissions : ι → Option Submission) : Decisions ι :=
  ⟨⟨form, 0⟩, fun i =>
    match submissions i with
    | some submission => .submitting submission
    | none => .timingOut⟩

/-- A transaction that would decide the form finds it undecided: a submission finds it
waiting, and so does a timeout with a resume, unless it is refused. -/
def FindsOpen (d : Decisions ι) : ι × Operation → Prop
  | (i, .markSubmitted _) => (∃ submission, d.place i = .checked submission) →
    d.shared.form.status = .waiting
  | (i, .markTimeout) => (∃ timeoutStatus, d.place i = .selected timeoutStatus true) →
    d.shared.form.status = .waiting ∨ d.shared.form.status = .submitted
  | _ => True

/-- A process about to enqueue a resume. -/
def Place.Resumes (l : Place) : Prop := ∃ workflowRunId, l = .resuming workflowRunId

variable {globalTimeoutSeconds}

theorem not_resumes_timeoutOf (form : HumanInputForm) (now : Int) :
    ¬ (timeoutOf form globalTimeoutSeconds now).Resumes := by
  rintro ⟨w, hw⟩
  unfold timeoutOf at hw
  split at hw
  next => cases hw
  next =>
    split at hw
    next => cases hw
    next => cases hw

theorem resume_of_afterTimeout {form : HumanInputForm} {resume : Bool}
    (h : (afterTimeout form resume).Resumes) : resume = true := by
  obtain ⟨w, hw⟩ := h
  unfold afterTimeout at hw
  split at hw
  next => cases hw
  next =>
    split at hw
    next => cases hw
    next =>
      split at hw
      next hresume => exact hresume
      next => cases hw

theorem operate_cases {s s' : FormState} {l l' : Place} {a : Operation}
    (h : operate globalTimeoutSeconds s l a = some (s', l')) :
    (s' = s ∧ ¬ l'.Resumes) ∨
    (∃ submission now, l = .checked submission ∧ a = .markSubmitted now ∧
      s' = { s with form := s.form.markSubmitted submission now }) ∨
    (∃ timeoutStatus resume form', l = .selected timeoutStatus resume ∧ a = .markTimeout ∧
      s.form.markTimeout timeoutStatus = .ok form' ∧ s' = { s with form := form' } ∧
      l' = afterTimeout form' resume) ∨
    ∃ succeeds : Bool, l.Resumes ∧ s' = { s with resumes := s.resumes + succeeds.toNat } ∧
      ¬ l'.Resumes := by
  unfold operate at h
  split at h
  next submission now =>
    split at h
    next =>
      cases h
      exact .inl ⟨rfl, by simp [Place.Resumes]⟩
    next =>
      cases h
      exact .inl ⟨rfl, by simp [Place.Resumes]⟩
  next submission now =>
    cases h
    exact .inr (.inl ⟨submission, now, rfl, rfl, rfl⟩)
  next now withinLimit =>
    split at h
    next =>
      cases h
      exact .inl ⟨rfl, not_resumes_timeoutOf s.form now⟩
    next =>
      cases h
      exact .inl ⟨rfl, by simp [Place.Resumes]⟩
  next timeoutStatus resume =>
    split at h
    next form' hform =>
      cases h
      exact .inr (.inr (.inl ⟨timeoutStatus, resume, form', rfl, rfl, hform, rfl, rfl⟩))
    next =>
      cases h
      exact .inl ⟨rfl, by simp [Place.Resumes]⟩
  next workflowRunId succeeds =>
    cases h
    exact .inr (.inr (.inr ⟨succeeds, ⟨workflowRunId, rfl⟩, rfl, by simp [Place.Resumes]⟩))
  next => cases h

/-- A waiting form has no resume; otherwise one was enqueued, or at most one process is about
to enqueue one. -/
private structure Single (d : Decisions ι) : Prop where
  waiting : d.shared.form.status = .waiting →
    d.shared.resumes = 0 ∧ ∀ i, ¬ (d.place i).Resumes
  pending : ∀ i, (d.place i).Resumes → d.shared.resumes = 0
  unique : ∀ i j, (d.place i).Resumes → (d.place j).Resumes → i = j
  bound : d.shared.resumes ≤ 1

omit [DecidableEq ι] in
private theorem single_start (form : HumanInputForm) (submissions : ι → Option Submission) :
    Single (start form submissions) := by
  have hnone : ∀ i, ¬ ((start form submissions).place i).Resumes := by
    rintro i ⟨w, hw⟩
    simp only [start] at hw
    split at hw
    next => cases hw
    next => cases hw
  constructor
  · exact fun _ => ⟨rfl, hnone⟩
  · exact fun i hi => absurd hi (hnone i)
  · exact fun i _ hi _ => absurd hi (hnone i)
  · exact Nat.zero_le 1

variable {d d' : Decisions ι}

private theorem Single.move (h : Single d) {i : ι} {l : Place}
    (hl : ¬ l.Resumes) : Single ⟨d.shared, Function.update d.place i l⟩ := by
  have hold : ∀ j, (Function.update d.place i l j).Resumes → (d.place j).Resumes := by
    intro j hj
    rcases Processes.of_update hj with ⟨-, hj⟩ | ⟨-, hj⟩
    · exact absurd hj hl
    · exact hj
  constructor
  · exact fun hw => ⟨(h.waiting hw).1, fun j hj => (h.waiting hw).2 j (hold j hj)⟩
  · exact fun j hj => h.pending j (hold j hj)
  · exact fun j k hj hk => h.unique j k (hold j hj) (hold k hk)
  · exact h.bound

private theorem Single.close (h : Single d)
    (hw : d.shared.form.status = .waiting) {form' : HumanInputForm}
    (hw' : form'.status ≠ .waiting) (i : ι) (l : Place) :
    Single ⟨{ d.shared with form := form' }, Function.update d.place i l⟩ := by
  obtain ⟨hzero, hnone⟩ := h.waiting hw
  have honly : ∀ j, (Function.update d.place i l j).Resumes → j = i := by
    intro j hj
    rcases Processes.of_update hj with ⟨hj, -⟩ | ⟨-, hj⟩
    · exact hj
    · exact absurd hj (hnone j)
  constructor
  · exact fun hopen => absurd hopen hw'
  · exact fun _ _ => hzero
  · exact fun j k hj hk => (honly j hj).trans (honly k hk).symm
  · show d.shared.resumes ≤ 1
    omega

private theorem Single.enqueue (h : Single d) {i : ι}
    (hi : (d.place i).Resumes) {l : Place} (hl : ¬ l.Resumes) (succeeds : Bool) :
    Single ⟨{ d.shared with resumes := d.shared.resumes + succeeds.toNat },
      Function.update d.place i l⟩ := by
  have hnone : ∀ j, ¬ (Function.update d.place i l j).Resumes := by
    intro j hj
    rcases Processes.of_update hj with ⟨-, hj⟩ | ⟨hne, hj⟩
    · exact hl hj
    · exact hne (h.unique j i hj hi)
  constructor
  · exact fun hw => absurd hi ((h.waiting hw).2 i)
  · exact fun j hj => absurd hj (hnone j)
  · exact fun j _ hj _ => absurd hj (hnone j)
  · have hzero := h.pending i hi
    have hbool := Bool.toNat_le succeeds
    show d.shared.resumes + succeeds.toNat ≤ 1
    omega

variable {a : ι × Operation}

private theorem Single.step (h : Single d)
    (ha : FindsOpen d a) (hstep : HumanInput.step globalTimeoutSeconds d a = some d') :
    Single d' := by
  obtain ⟨i, a⟩ := a
  obtain ⟨s, l, hop, rfl⟩ := Processes.step_eq_some.mp hstep
  rcases operate_cases hop with ⟨rfl, hl⟩ | ⟨submission, now, hplace, rfl, rfl⟩ |
    ⟨timeoutStatus, resume, form', hplace, rfl, hform, rfl, rfl⟩ | ⟨succeeds, hplace, rfl, hl⟩
  · exact h.move hl
  · exact h.close (ha ⟨submission, hplace⟩) (by simp [HumanInputForm.markSubmitted]) i l
  · rcases HumanInputForm.markTimeout_cases hform with ⟨rfl, hclosed⟩ | ⟨hwaiting, hst, hclosed⟩
    · refine h.move fun hresumes => ?_
      cases resume_of_afterTimeout hresumes
      rcases ha ⟨timeoutStatus, hplace⟩ with hw | hw
      · rw [hw] at hclosed
        simp at hclosed
      · rw [hw] at hclosed
        simp at hclosed
    · refine h.close hwaiting ?_ i _
      rw [hst]
      rcases hclosed with rfl | rfl
      · simp
      · simp
  · exact h.enqueue hplace hl succeeds

private theorem decision_step (hclosed : d.shared.form.status ≠ .waiting) (ha : FindsOpen d a)
    (hstep : step globalTimeoutSeconds d a = some d') :
    d'.shared.form.decision = d.shared.form.decision := by
  obtain ⟨i, a⟩ := a
  obtain ⟨s, l, hop, rfl⟩ := Processes.step_eq_some.mp hstep
  rcases operate_cases hop with ⟨rfl, -⟩ | ⟨submission, now, hplace, rfl, -⟩ |
    ⟨timeoutStatus, resume, form', hplace, rfl, hform, rfl, -⟩ | ⟨succeeds, -, rfl, -⟩
  · rfl
  · exact absurd (ha ⟨submission, hplace⟩) hclosed
  · rcases HumanInputForm.markTimeout_cases hform with ⟨rfl, -⟩ | ⟨hwaiting, -⟩
    · rfl
    · exact absurd hwaiting hclosed
  · rfl

end Decided

/-- A form with one action and no inputs. -/
def approval : HumanInputForm where
  id := "form"
  workflowRunId := some "run"
  definition := ⟨[], [⟨"approve", "Approve"⟩, ⟨"reject", "Reject"⟩]⟩
  renderedContent := "Please decide."
  createdAt := 0
  expirationTime := 100

/-- A submission of it by a recipient. -/
def approve (recipientId selectedActionId : String) : Submission where
  recipientType := "console"
  recipient := some (recipientId, "console")
  selectedActionId
  formData := []

/-- A submission and a timeout task. -/
private def deadline : Decisions Bool :=
  start approval fun submits => if submits then some (approve "first" "approve") else none

private def deadlinePre : List (Bool × Operation) :=
  [(true, .check 99), (false, .scan 100 true), (true, .markSubmitted 100)]

private def deadlinePost : List (Bool × Operation) :=
  [(false, .markTimeout), (true, .enqueueResume true)]

end PlatformSpec.HumanInput
