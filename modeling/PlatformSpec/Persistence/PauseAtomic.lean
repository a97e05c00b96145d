import Mathlib.Data.List.Nodup
import PlatformSpec.Base.Run
import PlatformSpec.Persistence.WorkflowPause

/-!
# When persisted pauses stay in order

Over every sequence of calls of the pause operations, each failing at any step or not at all:
a call can only do harm by deleting the state object of a pause that is not resumed.
-/

namespace PlatformSpec.Persistence

open Base Transaction

/-- Calls one after another. -/
def callStep (w : World) (c : Call) : Option World := some (w.call c)

/-- What the database enforces, and what identifiers handed out once give. -/
structure Sound (w : World) : Prop where
  run_unique : (w.db.workflowPauses.map (·.workflowRunId)).Nodup
  id_unique : (w.db.workflowPauses.map (·.id)).Nodup
  key_unique : (w.db.workflowPauses.map (·.stateObjectKey)).Nodup
  issued : ∀ p ∈ w.db.workflowPauses, p.id < w.storage.issued ∧ p.stateObjectKey < w.storage.issued
  resumed : ∀ id ∈ w.db.resumptions, id < w.storage.issued ∧
    ∀ p ∈ w.db.workflowPauses, p.id = id → p.resumedAt ≠ none

/-- Every pause that is not resumed has its state object, a paused run has such a pause, and no
pause was resumed twice. -/
structure Atomic (w : World) : Prop where
  loadable : ∀ p ∈ w.db.workflowPauses, p.resumedAt = none →
    ∃ state, w.storage.objects p.stateObjectKey = some state
  paused : ∀ workflowRunId run, w.db.workflowRuns workflowRunId = some run →
    run.status = .paused → ∃ p ∈ w.db.workflowPauses,
      p.workflowRunId = workflowRunId ∧ p.resumedAt = none
  once : w.db.resumptions.Nodup

/-- A call that cannot leave a pause without its state: if it replaces or deletes a pause that is
not resumed, it fails before the state is deleted or does not fail; and a pause of a paused run
is not deleted. -/
def Harmless (w : World) : Call → Prop
  | .createWorkflowPause o workflowRunId _ _ _ =>
    ∀ run, w.db.workflowRuns workflowRunId = some run →
      (run.status = .running ∨ run.status = .paused) →
        ∀ p ∈ w.db.workflowPauses, p.workflowRunId = workflowRunId → p.resumedAt = none →
          o.FailsBeforeDelete ∨ o.Completes
  | .resumeWorkflowPause _ _ _ _ => True
  | .deleteWorkflowPause o entityId =>
    ∀ p ∈ w.db.workflowPauses, p.id = entityId → p.resumedAt = none →
      o.FailsBeforeDelete ∨ o.Completes ∧
        ∀ run, w.db.workflowRuns p.workflowRunId = some run → run.status ≠ .paused

variable {w w' : World} {workflowRunId : String} {reasons : List PauseReason} {now : Nat}

namespace Sound

variable {p q : WorkflowPause}

theorem eq_of_run (hs : Sound w) (hp : p ∈ w.db.workflowPauses)
    (hq : q ∈ w.db.workflowPauses) (h : p.workflowRunId = q.workflowRunId) : p = q :=
  List.inj_on_of_nodup_map hs.run_unique hp hq h

theorem eq_of_id (hs : Sound w) (hp : p ∈ w.db.workflowPauses)
    (hq : q ∈ w.db.workflowPauses) (h : p.id = q.id) : p = q :=
  List.inj_on_of_nodup_map hs.id_unique hp hq h

theorem eq_of_key (hs : Sound w) (hp : p ∈ w.db.workflowPauses)
    (hq : q ∈ w.db.workflowPauses) (h : p.stateObjectKey = q.stateObjectKey) : p = q :=
  List.inj_on_of_nodup_map hs.key_unique hp hq h

theorem pauseOf_eq_some (hs : Sound w) : w.db.pauseOf workflowRunId = some p ↔
      p ∈ w.db.workflowPauses ∧ p.workflowRunId = workflowRunId := by
  constructor
  · intro h
    exact ⟨List.mem_of_find?_eq_some h, by simpa using List.find?_some h⟩
  · rintro ⟨hp, rfl⟩
    cases h : w.db.pauseOf p.workflowRunId with
    | none => exact absurd (decide_eq_true rfl) (List.find?_eq_none.mp h p hp)
    | some q =>
      have hq : q.workflowRunId = p.workflowRunId := by simpa using List.find?_some h
      rw [hs.eq_of_run (List.mem_of_find?_eq_some h) hp hq]

theorem of_db_eq (hs : Sound w) (hdb : w'.db = w.db)
    (hissued : w.storage.issued ≤ w'.storage.issued) : Sound w' where
  run_unique := hdb ▸ hs.run_unique
  id_unique := hdb ▸ hs.id_unique
  key_unique := hdb ▸ hs.key_unique
  issued p hp := by
    have := hs.issued p (hdb ▸ hp)
    omega
  resumed id hid := by
    obtain ⟨hlt, hall⟩ := hs.resumed id (hdb ▸ hid)
    exact ⟨by omega, fun p hp => hall p (hdb ▸ hp)⟩

end Sound

theorem Atomic.of_spared (hs : Sound w) (ha : Atomic w) (hdb : w'.db = w.db)
    (hstorage : w.storage.Spared w'.storage none) : Atomic w' where
  loadable p hp hres := by
    obtain ⟨state, hstate⟩ := ha.loadable p (hdb ▸ hp) hres
    exact ⟨state, (hstorage.kept _ (hs.issued p (hdb ▸ hp)).2 (by simp)).trans hstate⟩
  paused id run hrun hst := by
    rw [hdb] at hrun ⊢
    exact ha.paused id run hrun hst
  once := hdb ▸ ha.once

/-- Where the object of one pause is lost, everything is in order if and only if that pause has
been resumed. -/
theorem atomic_lost_iff (hs : Sound w) (ha : Atomic w) {pause : WorkflowPause}
    (hpause : pause ∈ w.db.workflowPauses) (hdb : w'.db = w.db)
    (hstorage : w.storage.Spared w'.storage (some pause.stateObjectKey)) :
    Atomic w' ↔ pause.resumedAt ≠ none := by
  constructor
  · intro ha' hres
    obtain ⟨state, hstate⟩ := ha'.loadable pause (hdb ▸ hpause) hres
    rw [hstorage.gone _ (hs.issued pause hpause).2 rfl] at hstate
    cases hstate
  · intro hres
    refine ⟨fun p hp hpres => ?_, fun id run hrun hst => ?_, hdb ▸ ha.once⟩
    · rw [hdb] at hp
      obtain ⟨state, hstate⟩ := ha.loadable p hp hpres
      have hne : p ≠ pause := fun h => hres (h ▸ hpres)
      refine ⟨state, (hstorage.kept _ (hs.issued p hp).2 fun h => hne ?_).trans hstate⟩
      exact hs.eq_of_key hp hpause (Option.some.inj h)
    · rw [hdb] at hrun ⊢
      exact ha.paused id run hrun hst

theorem nodup_map_append {α β : Type} {f : α → β} {l : List α} {a : α}
    (h : (l.map f).Nodup) (hnew : ∀ b ∈ l, f b ≠ f a) : ((l ++ [a]).map f).Nodup := by
  rw [List.map_append, List.map_singleton, List.nodup_append]
  refine ⟨h, List.nodup_singleton _, ?_⟩
  rintro x hx y hy rfl
  obtain ⟨b, hb, rfl⟩ := List.mem_map.mp hx
  exact hnew b hb (List.mem_singleton.mp hy)

section Created

variable {run : WorkflowRun} {pause : WorkflowPause}

/-- The other pauses that are left when a pause is created. -/
private def others (db : Database) (workflowRunId : String) : List WorkflowPause :=
  ((db.pauseOf workflowRunId).elim db fun previous => db.deletePause previous).workflowPauses

private theorem created_pauses (db : Database) :
    (db.created workflowRunId run pause reasons).workflowPauses =
      others db workflowRunId ++ [pause] := rfl

private theorem created_runs (db : Database) :
    (db.created workflowRunId run pause reasons).workflowRuns =
      Function.update db.workflowRuns workflowRunId (some { run with status := .paused }) := by
  unfold Database.created
  cases db.pauseOf workflowRunId with
  | none => rfl
  | some previous => rfl

private theorem created_resumptions (db : Database) :
    (db.created workflowRunId run pause reasons).resumptions = db.resumptions := by
  unfold Database.created
  cases db.pauseOf workflowRunId with
  | none => rfl
  | some previous => rfl

private theorem others_sublist (db : Database) :
    (others db workflowRunId).Sublist db.workflowPauses := by
  unfold others
  cases db.pauseOf workflowRunId with
  | none => exact List.Sublist.refl _
  | some previous => exact List.filter_sublist

private theorem mem_others (hs : Sound w) {p : WorkflowPause} :
    p ∈ others w.db workflowRunId ↔ p ∈ w.db.workflowPauses ∧ p.workflowRunId ≠ workflowRunId := by
  unfold others
  cases h : w.db.pauseOf workflowRunId with
  | none =>
    refine ⟨fun hp => ⟨hp, fun he => ?_⟩, fun hp => hp.1⟩
    rw [hs.pauseOf_eq_some.mpr ⟨hp, he⟩] at h
    cases h
  | some previous =>
    obtain ⟨hmem, hrun⟩ := hs.pauseOf_eq_some.mp h
    simp only [Option.elim_some, Database.deletePause, List.mem_filter, decide_eq_true_eq]
    refine and_congr_right fun hp => not_congr ⟨fun hid => ?_, fun he => ?_⟩
    · rw [hs.eq_of_id hp hmem hid, hrun]
    · rw [hs.eq_of_run hp hmem (he.trans hrun.symm)]

theorem Sound.created (hs : Sound w) (hid : pause.id = w.storage.issued + 1)
    (hkey : pause.stateObjectKey = w.storage.issued) (hrunId : pause.workflowRunId = workflowRunId)
    (hdb : w'.db = w.db.created workflowRunId run pause reasons)
    (hissued : w'.storage.issued = w.storage.issued + 2) : Sound w' := by
  have hmem : ∀ p, p ∈ w'.db.workflowPauses ↔
      (p ∈ w.db.workflowPauses ∧ p.workflowRunId ≠ workflowRunId) ∨ p = pause := by
    intro p
    rw [hdb, created_pauses, List.mem_append, mem_others hs, List.mem_singleton]
  have hsub : (others w.db workflowRunId).Sublist w.db.workflowPauses := others_sublist w.db
  refine ⟨?_, ?_, ?_, fun p hp => ?_, fun id hres => ?_⟩
  · rw [hdb, created_pauses]
    refine nodup_map_append (hs.run_unique.sublist (hsub.map _)) fun p hp => ?_
    rw [hrunId]
    exact ((mem_others hs).mp hp).2
  · rw [hdb, created_pauses]
    refine nodup_map_append (hs.id_unique.sublist (hsub.map _)) fun p hp => ?_
    have := hs.issued p (hsub.subset hp)
    omega
  · rw [hdb, created_pauses]
    refine nodup_map_append (hs.key_unique.sublist (hsub.map _)) fun p hp => ?_
    have := hs.issued p (hsub.subset hp)
    omega
  · rcases (hmem p).mp hp with ⟨hp, -⟩ | rfl
    · have := hs.issued p hp
      omega
    · omega
  · rw [hdb, created_resumptions] at hres
    obtain ⟨hlt, hall⟩ := hs.resumed id hres
    refine ⟨by omega, fun p hp he => ?_⟩
    rcases (hmem p).mp hp with ⟨hp, -⟩ | rfl
    · exact hall p hp he
    · omega

theorem Atomic.created (hs : Sound w) (ha : Atomic w) {state : String}
    (hkey : pause.stateObjectKey = w.storage.issued) (hrunId : pause.workflowRunId = workflowRunId)
    (hresumed : pause.resumedAt = none)
    (hdb : w'.db = w.db.created workflowRunId run pause reasons)
    (hstorage : w.storage.Spared w'.storage
      ((w.db.pauseOf workflowRunId).map (·.stateObjectKey)))
    (hstate : w'.storage.objects pause.stateObjectKey = some state) : Atomic w' := by
  refine ⟨fun p hp hres => ?_, fun id r hr hst => ?_, ?_⟩
  · rw [hdb, created_pauses, List.mem_append, mem_others hs, List.mem_singleton] at hp
    rcases hp with ⟨hp, hne⟩ | rfl
    · obtain ⟨old, hold⟩ := ha.loadable p hp hres
      refine ⟨old, (hstorage.kept _ (hs.issued p hp).2 fun h => hne ?_).trans hold⟩
      obtain ⟨previous, hprev, hk⟩ := Option.map_eq_some_iff.mp h.symm
      obtain ⟨hmem, hrun⟩ := hs.pauseOf_eq_some.mp hprev
      rw [hs.eq_of_key hp hmem hk.symm, hrun]
    · exact ⟨state, hstate⟩
  · rw [hdb, created_runs] at hr
    rw [hdb, created_pauses]
    by_cases hid : id = workflowRunId
    · exact ⟨pause, by simp, hrunId.trans hid.symm, hresumed⟩
    · rw [Function.update_of_ne hid] at hr
      obtain ⟨p, hp, hpid, hpres⟩ := ha.paused id r hr hst
      exact ⟨p, List.mem_append_left _ ((mem_others hs).mpr ⟨hp, hpid ▸ hid⟩), hpid, hpres⟩
  · rw [hdb, created_resumptions]
    exact ha.once

end Created

section Resumed

variable {run : WorkflowRun} {pause : WorkflowPause}

private theorem map_markResumed {α : Type} (f : WorkflowPause → α) (db : Database)
    (hf : ∀ p : WorkflowPause, f { p with resumedAt := some now } = f p) :
    ((db.markResumed pause now).setStatus workflowRunId run .running).workflowPauses.map f =
      db.workflowPauses.map f := by
  simp only [Database.setStatus, Database.markResumed, List.map_map]
  refine List.map_congr_left fun p _ => ?_
  simp only [Function.comp_apply]
  split
  next => exact hf p
  next => rfl

theorem mem_markResumed {db : Database} {p : WorkflowPause} :
    p ∈ ((db.markResumed pause now).setStatus workflowRunId run .running).workflowPauses ↔
      ∃ q ∈ db.workflowPauses, q.id = pause.id ∧ p = { q with resumedAt := some now } ∨
        q.id ≠ pause.id ∧ p = q := by
  simp only [Database.setStatus, Database.markResumed, List.mem_map]
  constructor
  · rintro ⟨q, hq, rfl⟩
    by_cases h : q.id = pause.id
    · exact ⟨q, hq, .inl ⟨h, if_pos h⟩⟩
    · exact ⟨q, hq, .inr ⟨h, if_neg h⟩⟩
  · rintro ⟨q, hq, ⟨h, rfl⟩ | ⟨h, rfl⟩⟩
    · exact ⟨q, hq, if_pos h⟩
    · exact ⟨p, hq, if_neg h⟩

theorem Sound.resumed_pause (hs : Sound w) (hpause : pause ∈ w.db.workflowPauses) :
    Sound ⟨(w.db.markResumed pause now).setStatus workflowRunId run .running, w.storage⟩ := by
  refine ⟨?_, ?_, ?_, fun p hp => ?_, fun id hid => ?_⟩
  · rw [map_markResumed (·.workflowRunId) w.db fun _ => rfl]
    exact hs.run_unique
  · rw [map_markResumed (·.id) w.db fun _ => rfl]
    exact hs.id_unique
  · rw [map_markResumed (·.stateObjectKey) w.db fun _ => rfl]
    exact hs.key_unique
  · obtain ⟨q, hq, ⟨-, rfl⟩ | ⟨-, rfl⟩⟩ := mem_markResumed.mp hp
    · exact hs.issued q hq
    · exact hs.issued p hq
  · have hid' : id ∈ w.db.resumptions ∨ id = pause.id := by
      simpa [Database.setStatus, Database.markResumed] using hid
    have hbefore : id < w.storage.issued := by
      rcases hid' with h | rfl
      · exact (hs.resumed id h).1
      · exact (hs.issued pause hpause).1
    refine ⟨hbefore, fun p hp he => ?_⟩
    obtain ⟨q, hq, ⟨hqid, rfl⟩ | ⟨hqid, rfl⟩⟩ := mem_markResumed.mp hp
    · simp
    · rcases hid' with h | rfl
      · exact (hs.resumed id h).2 p hq he
      · exact absurd he hqid

theorem Atomic.resumed_pause (hs : Sound w) (ha : Atomic w)
    (hpause : w.db.pauseOf workflowRunId = some pause) (hres : pause.resumedAt = none) :
    Atomic ⟨(w.db.markResumed pause now).setStatus workflowRunId run .running, w.storage⟩ := by
  obtain ⟨hmem, hrun⟩ := hs.pauseOf_eq_some.mp hpause
  refine ⟨fun p hp hpres => ?_, fun id r hr hst => ?_, ?_⟩
  · obtain ⟨q, hq, ⟨-, rfl⟩ | ⟨-, rfl⟩⟩ := mem_markResumed.mp hp
    · cases hpres
    · exact ha.loadable p hq hpres
  · by_cases hid : id = workflowRunId
    · subst hid
      have hr' : some { run with status := .running } = some r :=
        (Function.update_self id _ w.db.workflowRuns).symm.trans hr
      cases hr'
      cases hst
    · have hr' : w.db.workflowRuns id = some r := (Function.update_of_ne hid ..).symm.trans hr
      obtain ⟨p, hp, hpid, hpres⟩ := ha.paused id r hr' hst
      refine ⟨p, mem_markResumed.mpr ⟨p, hp, .inr ⟨fun he => hid ?_, rfl⟩⟩, hpid, hpres⟩
      rw [← hpid, hs.eq_of_id hp hmem he, hrun]
  · show (w.db.resumptions ++ [pause.id]).Nodup
    rw [List.nodup_append]
    refine ⟨ha.once, List.nodup_singleton _, ?_⟩
    rintro x hx y hy rfl
    exact (hs.resumed x hx).2 pause hmem (List.mem_singleton.mp hy).symm hres

end Resumed

section Deleted

variable {pause : WorkflowPause}

theorem mem_deletePause {db : Database} {p : WorkflowPause} :
    p ∈ (db.deletePause pause).workflowPauses ↔ p ∈ db.workflowPauses ∧ p.id ≠ pause.id := by
  simp [Database.deletePause]

theorem Sound.deleted_pause (hs : Sound w) :
    Sound ⟨w.db.deletePause pause, w.storage.delete pause.stateObjectKey⟩ where
  run_unique := hs.run_unique.sublist (List.filter_sublist.map _)
  id_unique := hs.id_unique.sublist (List.filter_sublist.map _)
  key_unique := hs.key_unique.sublist (List.filter_sublist.map _)
  issued p hp := hs.issued p (mem_deletePause.mp hp).1
  resumed id hid := ⟨(hs.resumed id hid).1, fun p hp =>
    (hs.resumed id hid).2 p (mem_deletePause.mp hp).1⟩

/-- After a pause is deleted everything is in order if and only if it had been resumed or its run
is not paused. -/
theorem atomic_deleted_iff (hs : Sound w) (ha : Atomic w) (hpause : pause ∈ w.db.workflowPauses) :
    Atomic ⟨w.db.deletePause pause, w.storage.delete pause.stateObjectKey⟩ ↔
      (pause.resumedAt = none →
        ∀ run, w.db.workflowRuns pause.workflowRunId = some run → run.status ≠ .paused) := by
  constructor
  · intro ha' _ run hrun hst
    obtain ⟨p, hp, hpid, -⟩ := ha'.paused _ run hrun hst
    obtain ⟨hp, hne⟩ := mem_deletePause.mp hp
    exact hne (congrArg (·.id) (hs.eq_of_run hp hpause hpid))
  · intro hcond
    refine ⟨fun p hp hres => ?_, fun id run hrun hst => ?_, ha.once⟩
    · obtain ⟨hp, hne⟩ := mem_deletePause.mp hp
      obtain ⟨state, hstate⟩ := ha.loadable p hp hres
      refine ⟨state, (Function.update_of_ne (fun he => hne ?_) ..).trans hstate⟩
      rw [hs.eq_of_key hp hpause he]
    · obtain ⟨p, hp, hpid, hpres⟩ := ha.paused id run hrun hst
      refine ⟨p, mem_deletePause.mpr ⟨hp, fun he => ?_⟩, hpid, hpres⟩
      have hsame := hs.eq_of_id hp hpause he
      subst hsame
      exact hcond hpres run (hpid ▸ hrun) hst

end Deleted

theorem call_sound (hs : Sound w) (c : Call) : Sound (w.call c) := by
  cases c with
  | createWorkflowPause o workflowRunId state reasons now =>
    rcases create_cases o workflowRunId state reasons now w with
      ⟨hdb, hst, -⟩ | ⟨-, previous, hdb, -, -, -, hst, -⟩ |
      ⟨run, pause, _, _, -, hid, hkey, hrunId, -, hdb, -, -, hissued, -⟩
    · exact hs.of_db_eq hdb hst.issued
    · exact hs.of_db_eq hdb hst.issued
    · exact hs.created hid hkey hrunId hdb hissued
  | resumeWorkflowPause o workflowRunId entityId now =>
    rcases resume_cases o workflowRunId entityId now w with h | ⟨run, pause, -, hpause, -, h⟩
    · rw [h]
      exact hs
    · rw [h]
      exact hs.resumed_pause (hs.pauseOf_eq_some.mp hpause).1
  | deleteWorkflowPause o entityId =>
    rcases delete_cases o entityId w with ⟨h, -⟩ | ⟨pause, -, -, h, -⟩ | ⟨pause, -, -, h, -⟩
    · rw [h]
      exact hs
    · rw [h]
      exact hs.of_db_eq rfl (Nat.le_refl _)
    · rw [h]
      exact hs.deleted_pause

theorem call_atomic_iff (hs : Sound w) (ha : Atomic w) (c : Call) :
    Atomic (w.call c) ↔ Harmless w c := by
  cases c with
  | createWorkflowPause o workflowRunId state reasons now =>
    -- the pause of the run, if there is one, is the previous pause
    have hprev : ∀ p ∈ w.db.workflowPauses, p.workflowRunId = workflowRunId →
        w.db.pauseOf workflowRunId = some p :=
      fun p hp he => hs.pauseOf_eq_some.mpr ⟨hp, he⟩
    rcases create_cases o workflowRunId state reasons now w with
      ⟨hdb, hst, hwhy⟩ | ⟨run, previous, hdb, hrun, hstatus, hfound, hst, hbefore, hcompletes⟩ |
      ⟨run, pause, _, _, -, -, hkey, hrunId, hres, hdb, hst, hstate, -, hwhy⟩
    · refine iff_of_true (ha.of_spared hs hdb hst) fun run hrun hstatus p hp he _ => .inl ?_
      exact hwhy run hrun hstatus (by rw [hprev p hp he]; simp)
    · obtain ⟨hmem, hrunId⟩ := hs.pauseOf_eq_some.mp hfound
      rw [atomic_lost_iff hs ha hmem hdb hst]
      constructor
      · intro hres run' _ _ p hp he hpres
        rw [hprev p hp he] at hfound
        cases hfound
        exact absurd hpres hres
      · intro hall hres
        rcases hall run hrun hstatus previous hmem hrunId hres with h | h
        · exact hbefore h
        · exact hcompletes h
    · refine iff_of_true (ha.created hs hkey hrunId hres hdb hst hstate) ?_
      intro run hrun _ p hp he _
      exact .inr (hwhy (by rw [hprev p hp he]; simp))
  | resumeWorkflowPause o workflowRunId entityId now =>
    refine iff_of_true ?_ trivial
    rcases resume_cases o workflowRunId entityId now w with h | ⟨run, pause, -, hpause, hres, h⟩
    · rw [h]
      exact ha
    · rw [h]
      exact ha.resumed_pause hs hpause hres
  | deleteWorkflowPause o entityId =>
    rcases delete_cases o entityId w with
      ⟨h, hwhy⟩ | ⟨pause, hmem, hid, h, hbefore, hcompletes⟩ |
      ⟨pause, hmem, hid, h, hbefore, hcompletes⟩
    · rw [h]
      exact iff_of_true ha fun p hp he _ => .inl (hwhy ⟨p, hp, he⟩)
    · have hlost : Atomic ⟨w.db, w.storage.delete pause.stateObjectKey⟩ ↔ pause.resumedAt ≠ none :=
        atomic_lost_iff hs ha hmem rfl (Storage.Spared.delete ..)
      rw [h, hlost]
      constructor
      · intro hres p hp he hpres
        rw [hs.eq_of_id hp hmem (he.trans hid.symm)] at hpres
        exact absurd hpres hres
      · intro hall hres
        rcases hall pause hmem hid hres with h | ⟨h, -⟩
        · exact hbefore h
        · exact hcompletes h
    · rw [h, atomic_deleted_iff hs ha hmem]
      constructor
      · intro hcond p hp he hpres
        have hsame := hs.eq_of_id hp hmem (he.trans hid.symm)
        subst hsame
        exact .inr ⟨hcompletes, hcond hpres⟩
      · intro hall hres
        rcases hall pause hmem hid hres with h | ⟨-, h⟩
        · exact absurd h hbefore
        · exact h

/-- In every sequence of calls, failing at any step or not, every pause that is not resumed has
its state object, every paused run has such a pause and no pause is resumed twice, throughout,
if and only if every call is harmless. -/
theorem pause_atomic_iff {calls : List Call} (hs : Sound w) (ha : Atomic w)
    (hrun : run callStep w calls = some w') :
    (∀ pre post m, calls = pre ++ post → run callStep w pre = some m → Atomic m) ↔
      ∀ pre c post m, calls = pre ++ c :: post → run callStep w pre = some m → Harmless m c := by
  refine run_forall_iff Harmless Sound ?_ ?_ hs ha hrun
  · rintro m c m' hm hstep
    cases hstep
    exact call_sound hm c
  · rintro m c m' hm hat hstep
    cases hstep
    exact call_atomic_iff hm hat c

/-- A running workflow run that was never paused. -/
def neverPaused : World where
  db := ⟨fun id => if id = "run" then some ⟨"wf", .running⟩ else none, [], [], []⟩
  storage := ⟨fun _ => none, 0⟩

theorem neverPaused_sound : Sound neverPaused := by
  refine ⟨List.nodup_nil, List.nodup_nil, List.nodup_nil, ?_, ?_⟩
  · intro p hp
    cases hp
  · intro id hid
    cases hid

theorem neverPaused_atomic : Atomic neverPaused := by
  refine ⟨fun p hp => (by cases hp), fun id run hrun hst => ?_, List.nodup_nil⟩
  have hrun' : (if id = "run" then some (⟨"wf", .running⟩ : WorkflowRun) else none) = some run :=
    hrun
  split at hrun'
  next => cases hrun'; cases hst
  next => cases hrun'

/-- Pause the run, resume it and pause it again, without failure. -/
def pausedAgain : List Call :=
  [.createWorkflowPause {} "run" "state one" [.humanInputRequired "form"] 1,
    .resumeWorkflowPause {} "run" 1 2,
    .createWorkflowPause {} "run" "state two" [.schedulingPause "slice"] 3]

/-- Without failures everything is in order throughout. -/
theorem pause_atomic_pausedAgain : ∃ w, run callStep neverPaused pausedAgain = some w ∧
    ∀ pre post m, pausedAgain = pre ++ post → run callStep neverPaused pre = some m → Atomic m := by
  refine ⟨_, rfl, (pause_atomic_iff neverPaused_sound neverPaused_atomic rfl).mpr ?_⟩
  intro pre c post m he _
  have hc : c ∈ pausedAgain := by simp [he]
  simp only [pausedAgain, List.mem_cons, List.not_mem_nil, or_false] at hc
  rcases hc with rfl | rfl | rfl
  · exact fun _ _ _ _ _ _ _ => .inr ⟨rfl, rfl, rfl, rfl, rfl, by decide⟩
  · trivial
  · exact fun _ _ _ _ _ _ _ => .inr ⟨rfl, rfl, rfl, rfl, rfl, by decide⟩

/-- A paused run is paused once more and the commit fails: its pause has lost the state. Its pause
is deleted: the run stays paused without one. -/
theorem pause_not_atomic :
    let pausedRun := neverPaused.call (.createWorkflowPause {} "run" "state one" [] 1)
    ¬ Atomic (pausedRun.call (.createWorkflowPause { commit := .failed } "run" "state two" [] 2)) ∧
      ¬ Atomic (pausedRun.call (.deleteWorkflowPause {} 1)) := by
  constructor
  · intro h
    obtain ⟨state, hstate⟩ := h.loadable ⟨1, "wf", "run", none, 0, 1⟩ (by decide) rfl
    have hlost : none = some state := hstate
    cases hlost
  · intro h
    obtain ⟨p, hp, -⟩ := h.paused "run" ⟨"wf", .paused⟩ (by decide) rfl
    have hnone : p ∈ [] := hp
    cases hnone

end PlatformSpec.Persistence
