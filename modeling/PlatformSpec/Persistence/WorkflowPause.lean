import Mathlib.Data.List.Basic
import Mathlib.Logic.Function.Basic
import PlatformSpec.Base.Transaction

/-!
# Persisted workflow pauses

Models `create_workflow_pause`, `resume_workflow_pause` and `delete_workflow_pause` of
`repositories/sqlalchemy_api_workflow_run_repository.py`. The pause record lives in the
database, the state of the paused run in object storage. Identifiers drawn with `uuid4` and
`uuidv7` are numbers that are handed out once.
-/

namespace PlatformSpec.Persistence

open Base Transaction

/-- `WorkflowExecutionStatus`. -/
inductive WorkflowExecutionStatus where
  | scheduled
  | running
  | succeeded
  | failed
  | stopped
  | partialSucceeded
  | paused
  deriving DecidableEq

/-- A row of `workflow_runs`. -/
structure WorkflowRun where
  workflowId : String
  status : WorkflowExecutionStatus
  deriving DecidableEq

/-- A row of `workflow_pauses`. -/
structure WorkflowPause where
  id : Nat
  workflowId : String
  workflowRunId : String
  resumedAt : Option Nat
  stateObjectKey : Nat
  createdAt : Nat
  deriving DecidableEq

/-- `PauseReason`. -/
inductive PauseReason where
  | humanInputRequired (formId : String)
  | schedulingPause (message : String)
  deriving DecidableEq

/-- A row of `workflow_pause_reasons`. -/
structure WorkflowPauseReason where
  pauseId : Nat
  reason : PauseReason
  deriving DecidableEq

/-- The tables. `resumptions` records the pauses whose resumption was committed. -/
structure Database where
  workflowRuns : String → Option WorkflowRun
  workflowPauses : List WorkflowPause
  workflowPauseReasons : List WorkflowPauseReason
  resumptions : List Nat

/-- Object storage, and the number of identifiers handed out. -/
structure Storage where
  objects : Nat → Option String
  issued : Nat

namespace Storage

/-- `storage.save`. -/
def save (key : Nat) (data : String) (s : Storage) : Storage :=
  { s with objects := Function.update s.objects key (some data) }

/-- `storage.delete`. -/
def delete (key : Nat) (s : Storage) : Storage :=
  { s with objects := Function.update s.objects key none }

/-- `uuid.uuid4()` and `uuidv7()`. -/
def newUuid (s : Storage) : Nat × Storage := (s.issued, { s with issued := s.issued + 1 })

end Storage

/-- What the operations raise. -/
inductive WorkflowRunError where
  | workflowRunNotFound (workflowRunId : String)
  | cannotBePaused (workflowRunId : String) (currentStatus : WorkflowExecutionStatus)
  | notPaused (workflowRunId : String) (currentStatus : WorkflowExecutionStatus)
  | noPauseState (workflowRunId : String)
  | differentId (pauseId : Nat) (entityId : Nat)
  | alreadyResumed (pauseId : Nat)
  | workflowPauseNotFound (entityId : Nat)
  | stepFailed
  deriving DecidableEq

/-- Work of the repository. -/
abbrev RepositoryWork := Transaction Storage Database WorkflowRunError

/-- How the steps of `create_workflow_pause` come out. -/
structure CreateOutcomes where
  getRun : Outcome := .done
  selectPause : Outcome := .done
  deleteState : Outcome := .done
  deletePause : Outcome := .done
  saveState : Outcome := .done
  commit : Outcome := .done
  deriving DecidableEq

/-- How the steps of `resume_workflow_pause` come out. -/
structure ResumeOutcomes where
  getRun : Outcome := .done
  selectReasons : Outcome := .done
  commit : Outcome := .done
  deriving DecidableEq

/-- How the steps of `delete_workflow_pause` come out. -/
structure DeleteOutcomes where
  getPause : Outcome := .done
  deleteState : Outcome := .done
  commit : Outcome := .done
  deriving DecidableEq

namespace Database

/-- `session.delete(pause_model)`. -/
def deletePause (pause : WorkflowPause) (db : Database) : Database :=
  { db with workflowPauses := db.workflowPauses.filter fun p => decide (p.id ≠ pause.id) }

/-- `workflow_run.status = status`. -/
def setStatus (workflowRunId : String) (run : WorkflowRun) (status : WorkflowExecutionStatus)
    (db : Database) : Database :=
  { db with
    workflowRuns := Function.update db.workflowRuns workflowRunId (some { run with status }) }

/-- `session.add(pause_model)` and `session.add_all(pause_reason_models)`. -/
def addPause (pause : WorkflowPause) (reasons : List PauseReason) (db : Database) : Database :=
  { db with
    workflowPauses := db.workflowPauses ++ [pause]
    workflowPauseReasons := db.workflowPauseReasons ++ reasons.map fun r => ⟨pause.id, r⟩ }

/-- `pause_model.resumed_at = now`. -/
def markResumed (pause : WorkflowPause) (now : Nat) (db : Database) : Database :=
  { db with
    workflowPauses := db.workflowPauses.map fun p =>
      if p.id = pause.id then { p with resumedAt := some now } else p
    resumptions := db.resumptions ++ [pause.id] }

/-- The pause of a run, by the foreign key. -/
def pauseOf (db : Database) (workflowRunId : String) : Option WorkflowPause :=
  db.workflowPauses.find? fun p => decide (p.workflowRunId = workflowRunId)

end Database

/-- `_delete_pause_model`. -/
def deletePauseModel (deleteState deletePause : Outcome) (pause : WorkflowPause) :
    RepositoryWork PUnit := do
  outside deleteState .stepFailed (Storage.delete pause.stateObjectKey)
  statement deletePause .stepFailed (Database.deletePause pause)

/-- The deletion of the previous pause in `create_workflow_pause`, with its flush. -/
def deletePreviousPause (o : CreateOutcomes) : Option WorkflowPause → RepositoryWork PUnit
  | none => pure ⟨⟩
  | some previousPause => deletePauseModel o.deleteState o.deletePause previousPause

/-- The part of `create_workflow_pause` after this deletion. -/
def recordPause (o : CreateOutcomes) (workflowRunId : String) (workflowRun : WorkflowRun)
    (state : String) (pauseReasons : List PauseReason) (now : Nat) :
    RepositoryWork WorkflowPause := do
  let stateObjKey ← take Storage.newUuid
  outside o.saveState .stepFailed (Storage.save stateObjKey state)
  let pauseId ← take Storage.newUuid
  let pauseModel : WorkflowPause :=
    ⟨pauseId, workflowRun.workflowId, workflowRunId, none, stateObjKey, now⟩
  statement .done .stepFailed (Database.addPause pauseModel pauseReasons)
  statement .done .stepFailed (Database.setStatus workflowRunId workflowRun .paused)
  pure pauseModel

/-- `create_workflow_pause`. -/
def createWorkflowPause (o : CreateOutcomes) (workflowRunId : String) (state : String)
    (pauseReasons : List PauseReason) (now : Nat) : RepositoryWork WorkflowPause := do
  statement o.getRun .stepFailed id
  let db ← view
  let workflowRun ← get (.workflowRunNotFound workflowRunId) (db.workflowRuns workflowRunId)
  require (workflowRun.status = .running ∨ workflowRun.status = .paused)
    (.cannotBePaused workflowRunId workflowRun.status)
  statement o.selectPause .stepFailed id
  deletePreviousPause o (db.pauseOf workflowRunId)
  recordPause o workflowRunId workflowRun state pauseReasons now

/-- `resume_workflow_pause`. -/
def resumeWorkflowPause (o : ResumeOutcomes) (workflowRunId : String) (entityId : Nat)
    (now : Nat) : RepositoryWork (WorkflowPause × List PauseReason) := do
  statement o.getRun .stepFailed id
  let db ← view
  let workflowRun ← get (.workflowRunNotFound workflowRunId) (db.workflowRuns workflowRunId)
  require (workflowRun.status = .paused) (.notPaused workflowRunId workflowRun.status)
  let pauseModel ← get (.noPauseState workflowRunId) (db.pauseOf workflowRunId)
  require (pauseModel.id = entityId) (.differentId pauseModel.id entityId)
  require (pauseModel.resumedAt = none) (.alreadyResumed pauseModel.id)
  statement o.selectReasons .stepFailed id
  let reasons := db.workflowPauseReasons.filter fun r => decide (r.pauseId = pauseModel.id)
  statement .done .stepFailed (Database.markResumed pauseModel now)
  statement .done .stepFailed (Database.setStatus workflowRunId workflowRun .running)
  pure ({ pauseModel with resumedAt := some now }, reasons.map (·.reason))

/-- `delete_workflow_pause`. -/
def deleteWorkflowPause (o : DeleteOutcomes) (entityId : Nat) : RepositoryWork PUnit := do
  statement o.getPause .stepFailed id
  let db ← view
  let pauseModel ← get (.workflowPauseNotFound entityId)
    (db.workflowPauses.find? fun p => decide (p.id = entityId))
  deletePauseModel o.deleteState .done pauseModel

/-- A call of the repository, with how its steps come out. -/
inductive Call where
  | createWorkflowPause (o : CreateOutcomes) (workflowRunId : String) (state : String)
      (pauseReasons : List PauseReason) (now : Nat)
  | resumeWorkflowPause (o : ResumeOutcomes) (workflowRunId : String) (entityId : Nat) (now : Nat)
  | deleteWorkflowPause (o : DeleteOutcomes) (entityId : Nat)
  deriving DecidableEq

/-- The database as committed, and the storage. -/
structure World where
  db : Database
  storage : Storage

/-- The database and the storage after a call, whether it returns or raises. -/
def World.call (w : World) : Call → World
  | .createWorkflowPause o workflowRunId state pauseReasons now =>
    let r := commit o.commit .stepFailed
      (createWorkflowPause o workflowRunId state pauseReasons now) w.db w.storage
    ⟨r.2.1, r.2.2⟩
  | .resumeWorkflowPause o workflowRunId entityId now =>
    let r := commit o.commit .stepFailed
      (resumeWorkflowPause o workflowRunId entityId now) w.db w.storage
    ⟨r.2.1, r.2.2⟩
  | .deleteWorkflowPause o entityId =>
    let r := commit o.commit .stepFailed (deleteWorkflowPause o entityId) w.db w.storage
    ⟨r.2.1, r.2.2⟩

/-- The call fails before it deletes the state of the previous pause. -/
def CreateOutcomes.FailsBeforeDelete (o : CreateOutcomes) : Prop :=
  o.getRun ≠ .done ∨ o.selectPause ≠ .done ∨ o.deleteState = .failed

/-- The call gets to its commit, and that takes effect. -/
def CreateOutcomes.Completes (o : CreateOutcomes) : Prop :=
  o.getRun = .done ∧ o.selectPause = .done ∧ o.deleteState = .done ∧ o.deletePause = .done ∧
    o.saveState = .done ∧ o.commit ≠ .failed

/-- The call fails before it deletes the state. -/
def DeleteOutcomes.FailsBeforeDelete (o : DeleteOutcomes) : Prop :=
  o.getPause ≠ .done ∨ o.deleteState = .failed

/-- The call gets to its commit, and that takes effect. -/
def DeleteOutcomes.Completes (o : DeleteOutcomes) : Prop :=
  o.getPause = .done ∧ o.deleteState = .done ∧ o.commit ≠ .failed

/-- Objects under identifiers handed out before are kept, but for the one deleted. -/
structure Storage.Spared (s s' : Storage) (deleted : Option Nat) : Prop where
  kept : ∀ key < s.issued, some key ≠ deleted → s'.objects key = s.objects key
  gone : ∀ key < s.issued, some key = deleted → s'.objects key = none
  issued : s.issued ≤ s'.issued

namespace Storage

variable {s s' : Storage} {deleted : Option Nat}

theorem Spared.refl (s : Storage) : Spared s s none :=
  ⟨fun _ _ _ => rfl, fun _ _ h => (by cases h), Nat.le_refl _⟩

theorem Spared.delete (s : Storage) (key : Nat) : Spared s (s.delete key) (some key) where
  kept k _ hk := Function.update_of_ne (fun h => hk (congrArg some h)) ..
  gone k _ hk := by cases hk; exact Function.update_self ..
  issued := Nat.le_refl _

theorem Spared.newUuid (h : Spared s s' deleted) : Spared s s'.newUuid.2 deleted where
  kept := h.kept
  gone := h.gone
  issued := Nat.le_trans h.issued (Nat.le_succ _)

theorem Spared.save (h : Spared s s' deleted) {key : Nat} (hkey : s.issued ≤ key) (data : String) :
    Spared s (s'.save key data) deleted where
  kept k hk hd := (Function.update_of_ne (by omega) ..).trans (h.kept k hk hd)
  gone k hk hd := (Function.update_of_ne (by omega) ..).trans (h.gone k hk hd)
  issued := h.issued

end Storage

/-- The database after a pause was created. -/
def Database.created (db : Database) (workflowRunId : String) (run : WorkflowRun)
    (pause : WorkflowPause) (reasons : List PauseReason) : Database :=
  (((db.pauseOf workflowRunId).elim db fun previous => db.deletePause previous).addPause pause
    reasons).setStatus workflowRunId run .paused

/-- What a call of `create_workflow_pause` does to the world. -/
inductive CreateResult (o : CreateOutcomes) (workflowRunId : String) (w w' : World) : Prop where
  | kept (hdb : w'.db = w.db) (hstorage : w.storage.Spared w'.storage none)
      (hwhy : ∀ run, w.db.workflowRuns workflowRunId = some run →
        (run.status = .running ∨ run.status = .paused) →
          w.db.pauseOf workflowRunId ≠ none → o.FailsBeforeDelete)
  | lost (run : WorkflowRun) (previous : WorkflowPause) (hdb : w'.db = w.db)
      (hrun : w.db.workflowRuns workflowRunId = some run)
      (hstatus : run.status = .running ∨ run.status = .paused)
      (hprevious : w.db.pauseOf workflowRunId = some previous)
      (hstorage : w.storage.Spared w'.storage (some previous.stateObjectKey))
      (hwhy : ¬ o.FailsBeforeDelete ∧ ¬ o.Completes)
  | created (run : WorkflowRun) (pause : WorkflowPause) (reasons : List PauseReason)
      (state : String) (hrun : w.db.workflowRuns workflowRunId = some run)
      (hid : pause.id = w.storage.issued + 1) (hkey : pause.stateObjectKey = w.storage.issued)
      (hrunId : pause.workflowRunId = workflowRunId) (hresumed : pause.resumedAt = none)
      (hdb : w'.db = w.db.created workflowRunId run pause reasons)
      (hstorage : w.storage.Spared w'.storage
        ((w.db.pauseOf workflowRunId).map (·.stateObjectKey)))
      (hstate : w'.storage.objects pause.stateObjectKey = some state)
      (hissued : w'.storage.issued = w.storage.issued + 2)
      (hwhy : w.db.pauseOf workflowRunId ≠ none → o.Completes)

variable {w w' : World} {o : CreateOutcomes} {workflowRunId state : String}
  {reasons : List PauseReason} {now : Nat}

private theorem recordPause_done (h : o.saveState = .done) (run : WorkflowRun) (db : Database)
    (s : Storage) : recordPause o workflowRunId run state reasons now db s =
      let pause := ⟨s.issued + 1, run.workflowId, workflowRunId, none, s.issued, now⟩
      (.ok (pause, (db.addPause pause reasons).setStatus workflowRunId run .paused),
        (Storage.save s.issued state s.newUuid.2).newUuid.2) := by
  unfold recordPause
  rw [take_bind, h, outside_done_bind, take_bind]
  rfl

private theorem recordPause_failed (h : o.saveState ≠ .done) (run : WorkflowRun) (db : Database)
    {s s' : Storage} {deleted : Option Nat} (hs : s.Spared s' deleted) : ∃ t,
      recordPause o workflowRunId run state reasons now db s' = (.error .stepFailed, t) ∧
        s.Spared t deleted := by
  unfold recordPause
  rw [take_bind]
  cases hsave : o.saveState with
  | done => exact absurd hsave h
  | failed => exact ⟨_, rfl, hs.newUuid⟩
  | failedAfter => exact ⟨_, rfl, hs.newUuid.save hs.issued state⟩

theorem call_create_of_error {e : WorkflowRunError} {s : Storage}
    (h : createWorkflowPause o workflowRunId state reasons now w.db w.storage = (.error e, s)) :
    w.call (.createWorkflowPause o workflowRunId state reasons now) = ⟨w.db, s⟩ := by
  simp only [World.call, commit_of_error h]

private theorem create_record {run : WorkflowRun} {db : Database} {s : Storage}
    (hrun : w.db.workflowRuns workflowRunId = some run)
    (hbody : createWorkflowPause o workflowRunId state reasons now w.db w.storage =
      recordPause o workflowRunId run state reasons now db s)
    (hdb : db = (w.db.pauseOf workflowRunId).elim w.db w.db.deletePause)
    (hs : w.storage.Spared s ((w.db.pauseOf workflowRunId).map (·.stateObjectKey)))
    (hissued : s.issued = w.storage.issued)
    (hwhy : w.db.pauseOf workflowRunId ≠ none → o.saveState = .done → o.commit ≠ .failed →
      o.Completes)
    (hlost : o.saveState ≠ .done ∨ o.commit = .failed → ∀ t,
      w.storage.Spared t ((w.db.pauseOf workflowRunId).map (·.stateObjectKey)) →
        CreateResult o workflowRunId w ⟨w.db, t⟩) :
    CreateResult o workflowRunId w
      (w.call (.createWorkflowPause o workflowRunId state reasons now)) := by
  by_cases hsave : o.saveState = .done
  · rw [recordPause_done hsave] at hbody
    have hspared := (hs.newUuid.save (Nat.le_of_eq hissued.symm) state).newUuid
    by_cases hcommit : o.commit = .failed
    · have hcall : w.call (.createWorkflowPause o workflowRunId state reasons now) =
          ⟨w.db, (Storage.save s.issued state s.newUuid.2).newUuid.2⟩ := by
        simp only [World.call, commit, hbody, hcommit]
      rw [hcall]
      exact hlost (.inr hcommit) _ hspared
    · let pause : WorkflowPause :=
        ⟨s.issued + 1, run.workflowId, workflowRunId, none, s.issued, now⟩
      have hcall : w.call (.createWorkflowPause o workflowRunId state reasons now) =
          ⟨(db.addPause pause reasons).setStatus workflowRunId run .paused,
            (Storage.save s.issued state s.newUuid.2).newUuid.2⟩ := by
        cases hout : o.commit with
        | done => simp only [World.call, commit, hbody, hout]; rfl
        | failed => exact absurd hout hcommit
        | failedAfter => simp only [World.call, commit, hbody, hout]; rfl
      rw [hcall]
      refine .created run pause reasons state hrun (congrArg (· + 1) hissued) hissued rfl rfl ?_
        hspared (Function.update_self ..) (congrArg (· + 2) hissued)
        (fun hne => hwhy hne hsave hcommit)
      rw [hdb]
      rfl
  · obtain ⟨t, ht, hspared⟩ := recordPause_failed hsave run db hs
    rw [call_create_of_error (hbody.trans ht)]
    exact hlost (.inl hsave) t hspared

theorem create_cases (o : CreateOutcomes) (workflowRunId state : String)
    (reasons : List PauseReason) (now : Nat) (w : World) :
    CreateResult o workflowRunId w
      (w.call (.createWorkflowPause o workflowRunId state reasons now)) := by
  have hraise : ∀ {e : WorkflowRunError},
      createWorkflowPause o workflowRunId state reasons now w.db w.storage = (.error e, w.storage) →
      (∀ run, w.db.workflowRuns workflowRunId = some run →
        (run.status = .running ∨ run.status = .paused) →
          w.db.pauseOf workflowRunId ≠ none → o.FailsBeforeDelete) →
      CreateResult o workflowRunId w
        (w.call (.createWorkflowPause o workflowRunId state reasons now)) := by
    intro e he hwhy
    rw [call_create_of_error he]
    exact .kept rfl (.refl _) hwhy
  by_cases hget : o.getRun = .done
  swap
  · exact hraise (statement_bind_of_ne hget ..) fun _ _ _ _ => .inl hget
  cases hrun : w.db.workflowRuns workflowRunId with
  | none =>
    refine hraise (e := .workflowRunNotFound workflowRunId) ?_ fun _ h => by rw [hrun] at h; cases h
    rw [createWorkflowPause, hget, statement_done_bind, view_bind, id_eq, hrun, get_none_bind]
  | some run =>
    by_cases hstatus : run.status = .running ∨ run.status = .paused
    swap
    · refine hraise (e := .cannotBePaused workflowRunId run.status) ?_ fun r h hs => ?_
      · rw [createWorkflowPause, hget, statement_done_bind, view_bind, id_eq, hrun, get_some_bind,
          require_bind_of_not hstatus]
      · rw [hrun] at h
        cases h
        exact absurd hs hstatus
    by_cases hselect : o.selectPause = .done
    swap
    · refine hraise (e := .stepFailed) ?_ fun _ _ _ _ => .inr (.inl hselect)
      rw [createWorkflowPause, hget, statement_done_bind, view_bind, id_eq, hrun, get_some_bind,
        require_bind_of hstatus, statement_bind_of_ne hselect]
    -- the call comes to the deletion of the previous pause
    have hbody : createWorkflowPause o workflowRunId state reasons now w.db w.storage =
        (deletePreviousPause o (w.db.pauseOf workflowRunId) >>= fun _ =>
          recordPause o workflowRunId run state reasons now) w.db w.storage := by
      rw [createWorkflowPause, hget, statement_done_bind, view_bind, id_eq, hrun, get_some_bind,
        require_bind_of hstatus, hselect, statement_done_bind, id_eq]
    cases hprev : w.db.pauseOf workflowRunId with
    | none =>
      rw [hprev] at hbody
      refine create_record hrun hbody (by rw [hprev]; rfl) (by rw [hprev]; exact .refl _) rfl
        (fun h => absurd hprev h) fun _ t ht => ?_
      rw [hprev] at ht
      exact .kept rfl ht fun _ _ _ h => absurd hprev h
    | some previous =>
      rw [hprev] at hbody
      have hdeleted := Storage.Spared.delete w.storage previous.stateObjectKey
      have hlost : ¬ o.FailsBeforeDelete ∧ ¬ o.Completes → ∀ t,
          w.storage.Spared t (some previous.stateObjectKey) →
            CreateResult o workflowRunId w ⟨w.db, t⟩ :=
        fun hwhy t ht => .lost run previous rfl hrun hstatus hprev ht hwhy
      cases hdel : o.deleteState with
      | failed =>
        refine hraise (e := .stepFailed) ?_ fun _ _ _ _ => .inr (.inr hdel)
        rw [hbody, deletePreviousPause, deletePauseModel, hdel]
        rfl
      | failedAfter =>
        have herr : createWorkflowPause o workflowRunId state reasons now w.db w.storage =
            (.error .stepFailed, w.storage.delete previous.stateObjectKey) := by
          rw [hbody, deletePreviousPause, deletePauseModel, hdel]
          rfl
        rw [call_create_of_error herr]
        refine hlost ⟨?_, ?_⟩ _ hdeleted
        · simp [CreateOutcomes.FailsBeforeDelete, hget, hselect, hdel]
        · simp [CreateOutcomes.Completes, hdel]
      | done =>
        have hnot : ¬ o.FailsBeforeDelete := by
          simp [CreateOutcomes.FailsBeforeDelete, hget, hselect, hdel]
        by_cases hflush : o.deletePause = .done
        swap
        · have herr : createWorkflowPause o workflowRunId state reasons now w.db w.storage =
              (.error .stepFailed, w.storage.delete previous.stateObjectKey) := by
            rw [hbody, deletePreviousPause, deletePauseModel, hdel]
            cases hout : o.deletePause with
            | done => exact absurd hout hflush
            | failed => rfl
            | failedAfter => rfl
          rw [call_create_of_error herr]
          exact hlost ⟨hnot, by simp [CreateOutcomes.Completes, hflush]⟩ _ hdeleted
        have hnext : createWorkflowPause o workflowRunId state reasons now w.db w.storage =
            recordPause o workflowRunId run state reasons now (w.db.deletePause previous)
              (w.storage.delete previous.stateObjectKey) := by
          rw [hbody, deletePreviousPause, deletePauseModel, hdel, hflush]
          rfl
        refine create_record hrun hnext (by rw [hprev]; rfl) (by rw [hprev]; exact hdeleted) rfl
          (fun _ hsave hcommit => ⟨hget, hselect, hdel, hflush, hsave, hcommit⟩) fun hfail t ht =>
            ?_
        rw [hprev] at ht
        refine hlost ⟨hnot, ?_⟩ t ht
        rintro ⟨-, -, -, -, hsave, hcommit⟩
        rcases hfail with h | h
        · exact h hsave
        · exact hcommit h

/-- What a call of `resume_workflow_pause` does: nothing, or it marks the pause of a paused run,
not resumed before, as resumed. -/
theorem resume_cases (o : ResumeOutcomes) (workflowRunId : String) (entityId now : Nat)
    (w : World) : let w' := w.call (.resumeWorkflowPause o workflowRunId entityId now)
    w' = w ∨ ∃ run pause, w.db.workflowRuns workflowRunId = some run ∧
      w.db.pauseOf workflowRunId = some pause ∧ pause.resumedAt = none ∧
      w' = ⟨(w.db.markResumed pause now).setStatus workflowRunId run .running, w.storage⟩ := by
  dsimp only
  have hraise : ∀ {e : WorkflowRunError},
      resumeWorkflowPause o workflowRunId entityId now w.db w.storage = (.error e, w.storage) →
      w.call (.resumeWorkflowPause o workflowRunId entityId now) = w := by
    intro e he
    simp only [World.call, commit_of_error he]
  by_cases hget : o.getRun = .done
  swap
  · exact .inl (hraise (statement_bind_of_ne hget ..))
  cases hrun : w.db.workflowRuns workflowRunId with
  | none =>
    refine .inl (hraise (e := .workflowRunNotFound workflowRunId) ?_)
    rw [resumeWorkflowPause, hget, statement_done_bind, view_bind, id_eq, hrun, get_none_bind]
  | some run =>
    by_cases hstatus : run.status = .paused
    swap
    · refine .inl (hraise (e := .notPaused workflowRunId run.status) ?_)
      rw [resumeWorkflowPause, hget, statement_done_bind, view_bind, id_eq, hrun, get_some_bind,
        require_bind_of_not hstatus]
    cases hpause : w.db.pauseOf workflowRunId with
    | none =>
      refine .inl (hraise (e := .noPauseState workflowRunId) ?_)
      rw [resumeWorkflowPause, hget, statement_done_bind, view_bind, id_eq, hrun, get_some_bind,
        require_bind_of hstatus, hpause, get_none_bind]
    | some pause =>
      have hbody : ∀ f, resumeWorkflowPause o workflowRunId entityId now w.db w.storage = f →
          (require (pause.id = entityId) (.differentId pause.id entityId) >>= fun _ => do
            require (pause.resumedAt = none) (.alreadyResumed pause.id)
            statement o.selectReasons .stepFailed id
            statement .done .stepFailed (Database.markResumed pause now)
            statement .done .stepFailed (Database.setStatus workflowRunId run .running)
            pure ({ pause with resumedAt := some now }, (w.db.workflowPauseReasons.filter
              fun r => decide (r.pauseId = pause.id)).map (·.reason)) :
            RepositoryWork (WorkflowPause × List PauseReason)) w.db w.storage = f := by
        rintro f rfl
        rw [resumeWorkflowPause, hget, statement_done_bind, view_bind, id_eq, hrun, get_some_bind,
          require_bind_of hstatus, hpause, get_some_bind]
      replace hbody := (hbody _ rfl).symm
      by_cases hid : pause.id = entityId
      swap
      · rw [require_bind_of_not hid] at hbody
        exact .inl (hraise hbody)
      rw [require_bind_of hid] at hbody
      by_cases hresumed : pause.resumedAt = none
      swap
      · rw [require_bind_of_not hresumed] at hbody
        exact .inl (hraise hbody)
      rw [require_bind_of hresumed] at hbody
      by_cases hreasons : o.selectReasons = .done
      swap
      · rw [statement_bind_of_ne hreasons] at hbody
        exact .inl (hraise hbody)
      rw [hreasons] at hbody
      cases hcommit : o.commit with
      | failed =>
        refine .inl ?_
        simp only [World.call, commit, hbody, hcommit]
        rfl
      | done =>
        refine .inr ⟨run, pause, rfl, rfl, hresumed, ?_⟩
        simp only [World.call, commit, hbody, hcommit]
        rfl
      | failedAfter =>
        refine .inr ⟨run, pause, rfl, rfl, hresumed, ?_⟩
        simp only [World.call, commit, hbody, hcommit]
        rfl

/-- What a call of `delete_workflow_pause` does to the world. -/
inductive DeleteResult (o : DeleteOutcomes) (entityId : Nat) (w w' : World) : Prop where
  | kept (h : w' = w) (hwhy : (∃ p ∈ w.db.workflowPauses, p.id = entityId) → o.FailsBeforeDelete)
  | lost (pause : WorkflowPause) (hpause : pause ∈ w.db.workflowPauses) (hid : pause.id = entityId)
      (h : w' = ⟨w.db, w.storage.delete pause.stateObjectKey⟩)
      (hwhy : ¬ o.FailsBeforeDelete ∧ ¬ o.Completes)
  | removed (pause : WorkflowPause) (hpause : pause ∈ w.db.workflowPauses)
      (hid : pause.id = entityId)
      (h : w' = ⟨w.db.deletePause pause, w.storage.delete pause.stateObjectKey⟩)
      (hwhy : ¬ o.FailsBeforeDelete ∧ o.Completes)

theorem delete_cases (o : DeleteOutcomes) (entityId : Nat) (w : World) :
    DeleteResult o entityId w (w.call (.deleteWorkflowPause o entityId)) := by
  have hraise : ∀ {e : WorkflowRunError} {s : Storage},
      deleteWorkflowPause o entityId w.db w.storage = (.error e, s) →
      w.call (.deleteWorkflowPause o entityId) = ⟨w.db, s⟩ := by
    intro e s he
    simp only [World.call, commit_of_error he]
  by_cases hget : o.getPause = .done
  swap
  · exact .kept (hraise (statement_bind_of_ne hget ..)) fun _ => .inl hget
  cases hfind : w.db.workflowPauses.find? fun p => decide (p.id = entityId) with
  | none =>
    have herr : deleteWorkflowPause o entityId w.db w.storage =
        (.error (.workflowPauseNotFound entityId), w.storage) := by
      rw [deleteWorkflowPause, hget, statement_done_bind, view_bind, id_eq, hfind]
      rfl
    refine .kept (hraise herr) ?_
    rintro ⟨p, hp, hid⟩
    exact absurd hid (by simpa using List.find?_eq_none.mp hfind p hp)
  | some pause =>
    have hmem := List.mem_of_find?_eq_some hfind
    have hid : pause.id = entityId := by simpa using List.find?_some hfind
    have hbody : deleteWorkflowPause o entityId w.db w.storage =
        deletePauseModel o.deleteState .done pause w.db w.storage := by
      rw [deleteWorkflowPause, hget, statement_done_bind, view_bind, id_eq, hfind, get_some_bind]
    cases hdel : o.deleteState with
    | failed =>
      refine .kept (hraise (e := .stepFailed) ?_) fun _ => .inr hdel
      rw [hbody, deletePauseModel, hdel]
      rfl
    | failedAfter =>
      refine .lost pause hmem hid (hraise (e := .stepFailed) ?_) ⟨?_, ?_⟩
      · rw [hbody, deletePauseModel, hdel]
        rfl
      · simp [DeleteOutcomes.FailsBeforeDelete, hget, hdel]
      · simp [DeleteOutcomes.Completes, hdel]
    | done =>
      have hnot : ¬ o.FailsBeforeDelete := by
        simp [DeleteOutcomes.FailsBeforeDelete, hget, hdel]
      rw [deletePauseModel, hdel, outside_done_bind] at hbody
      cases hcommit : o.commit with
      | failed =>
        refine .lost pause hmem hid ?_ ⟨hnot, by simp [DeleteOutcomes.Completes, hcommit]⟩
        simp only [World.call, commit, hbody, hcommit]
        rfl
      | done =>
        refine .removed pause hmem hid ?_
          ⟨hnot, by simp [DeleteOutcomes.Completes, hget, hdel, hcommit]⟩
        simp only [World.call, commit, hbody, hcommit]
        rfl
      | failedAfter =>
        refine .removed pause hmem hid ?_
          ⟨hnot, by simp [DeleteOutcomes.Completes, hget, hdel, hcommit]⟩
        simp only [World.call, commit, hbody, hcommit]
        rfl

end PlatformSpec.Persistence
