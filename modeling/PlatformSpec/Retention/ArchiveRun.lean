import Mathlib.Data.Prod.Lex
import Mathlib.Data.String.Basic
import PlatformSpec.Base.Paging

/-!
# Archiving the workflow runs of a window

Models `WorkflowRunArchiver.run` of
`services/retention/workflow_run/archive_paid_plan_workflow_run.py` and the query of
`get_runs_batch_by_time_range`: batches of ended runs by a `(created_at, id)` cursor, those of paid
tenants archived up to a limit. What the bundle of a run holds is left out; an attempt succeeds or
fails.
-/

namespace PlatformSpec.Retention

open Base

/-- A row of `workflow_runs`, as the query reads it. -/
structure WorkflowRun where
  id : String
  createdAt : Nat
  tenantId : String
  runType : String
  ended : Bool
  deriving DecidableEq

/-- `workflow_runs`. -/
structure WorkflowRunTable where
  rows : List WorkflowRun
  ids_nodup : (rows.map WorkflowRun.id).Nodup

/-- What the runs are ordered by: `(created_at, id)`. -/
def WorkflowRun.key (run : WorkflowRun) : Nat ×ₗ String := toLex (run.createdAt, run.id)

/-- The fields of `WorkflowRunArchiver`. -/
structure WorkflowRunArchiver where
  startFrom : Option Nat := none
  endBefore : Nat
  batchSize : Nat := 100
  tenantIds : List String := []
  limit : Option Int := none
  dryRun : Bool := false
  deleteAfterArchive : Bool := false

/-- `ArchiveSummary`, without its time. -/
structure ArchiveSummary where
  totalRunsProcessed : Nat := 0
  runsArchived : Nat := 0
  runsSkipped : Nat := 0
  runsFailed : Nat := 0
  deriving DecidableEq

/-- What is around a run of the archiver: whether a storage is configured, and for each batch the
plans that the billing service tells, unless it fails, the runs archived before and the attempts
that succeed. -/
structure ArchiveSurroundings where
  storageConfigured : Bool
  billingEnabled : Bool
  plans : Nat → Option (String → Option String)
  archivedBefore : Nat → String → Bool
  succeeds : Nat → WorkflowRun → Bool

/-- The state of the loop. `attempted` records the runs handed to `_archive_run`, `batches` counts
the batches fetched. -/
structure ArchiveState where
  rows : List WorkflowRun
  lastSeen : Option (Nat ×ₗ String) := none
  archivedCount : Nat := 0
  summary : ArchiveSummary := {}
  attempted : List WorkflowRun := []
  batches : Nat := 0

/-- `ARCHIVED_TYPE`. -/
def archivedType : List String := ["workflow", "rag-pipeline"]

/-- `_filter_paid_tenants`, for a tenant of a batch. -/
def ArchiveSurroundings.paid (e : ArchiveSurroundings) (batch : Nat) (tenantId : String) : Bool :=
  !e.billingEnabled ||
    match e.plans batch with
    | none => false
    | some plan => plan tenantId = some "professional" || plan tenantId = some "team"

namespace WorkflowRunArchiver

variable (a : WorkflowRunArchiver) (e : ArchiveSurroundings)

/-- The filters of `get_runs_batch_by_time_range`, but for the cursor. -/
def inWindow (run : WorkflowRun) : Bool :=
  decide (run.createdAt < a.endBefore) && run.ended && archivedType.contains run.runType &&
    a.startFrom.all (fun t => decide (t ≤ run.createdAt)) &&
    (a.tenantIds.isEmpty || a.tenantIds.contains run.tenantId)

/-- `_get_runs_batch`. -/
def getRunsBatch (rows : List WorkflowRun) (lastSeen : Option (Nat ×ₗ String)) :
    List WorkflowRun :=
  (Paging.orderBy WorkflowRun.key (rows.filter fun run =>
    a.inWindow run && Paging.after WorkflowRun.key lastSeen run)).take a.batchSize

/-- `self.limit and count >= self.limit`. -/
def limitReached (count : Nat) : Bool :=
  a.limit.any fun limit => decide (limit ≠ 0) && decide (limit ≤ (count : Int))

/-- The loop over the runs of a batch: those of unpaid tenants and those archived before are
skipped, and it breaks at the limit. -/
def selectRuns (batch archivedCount : Nat) :
    List WorkflowRun → ArchiveSummary → List WorkflowRun → ArchiveSummary × List WorkflowRun
  | [], summary, runsToProcess => (summary, runsToProcess)
  | run :: runs, summary, runsToProcess =>
    let summary := { summary with totalRunsProcessed := summary.totalRunsProcessed + 1 }
    if !e.paid batch run.tenantId then
      selectRuns batch archivedCount runs
        { summary with runsSkipped := summary.runsSkipped + 1 } runsToProcess
    else if e.archivedBefore batch run.id then
      selectRuns batch archivedCount runs
        { summary with runsSkipped := summary.runsSkipped + 1 } runsToProcess
    else if a.limitReached (archivedCount + runsToProcess.length) then (summary, runsToProcess)
    else selectRuns batch archivedCount runs summary (runsToProcess ++ [run])

/-- The body of the loop for a batch that is not empty. -/
def archiveBatch (s : ArchiveState) (runs : List WorkflowRun) : ArchiveState :=
  let (summary, runsToProcess) := a.selectRuns e s.batches s.archivedCount runs s.summary []
  let archived := runsToProcess.filter (e.succeeds s.batches)
  { rows :=
      if a.deleteAfterArchive && !a.dryRun then
        s.rows.filter fun run => !(archived.map WorkflowRun.id).contains run.id
      else s.rows
    lastSeen := runs.getLast?.map WorkflowRun.key
    archivedCount := s.archivedCount + archived.length
    summary := { summary with
      runsArchived := summary.runsArchived + archived.length
      runsFailed := summary.runsFailed + (runsToProcess.length - archived.length) }
    attempted := s.attempted ++ runsToProcess
    batches := s.batches + 1 }

/-- `while True`, for a number of rounds. -/
def loop : Nat → ArchiveState → Option ArchiveState
  | 0, _ => none
  | fuel + 1, s =>
    if a.limitReached s.archivedCount then some s
    else
      match a.getRunsBatch s.rows s.lastSeen with
      | [] => some s
      | run :: runs => loop fuel (a.archiveBatch e s (run :: runs))

/-- `run`. -/
def run (table : WorkflowRunTable) : Option ArchiveState :=
  if !a.dryRun && !e.storageConfigured then some { rows := table.rows }
  else a.loop e (table.rows.length + 1) { rows := table.rows }

/-! ## Batches of the window -/

variable (table : WorkflowRunTable)

/-- The runs of the window, in the order of the cursor. -/
def window : List WorkflowRun := Paging.orderBy WorkflowRun.key (table.rows.filter a.inWindow)

/-- The runs of the window in groups of the batch size. -/
def batch (i : Nat) : List WorkflowRun := ((a.window table).drop (i * a.batchSize)).take a.batchSize

/-- A run is to be archived: its tenant pays and it is not archived. -/
def eligible (i : Nat) (run : WorkflowRun) : Bool :=
  e.paid i run.tenantId && !e.archivedBefore i run.id

/-- The runs of a batch that are to be archived. -/
def eligibleRuns (i : Nat) : List WorkflowRun := (a.batch table i).filter (eligible e i)

/-- Every run of the window that is to be archived when its batch is fetched was attempted. -/
def AttemptsAll (s : ArchiveState) : Prop :=
  ∀ position run, (a.window table)[position]? = some run →
    eligible e (position / a.batchSize) run = true → run ∈ s.attempted

/-- The runs attempted in a batch, when a number of runs is archived. -/
def attemptedIn (i count : Nat) : List WorkflowRun :=
  (a.selectRuns e i count (a.batch table i) {} []).2

/-- The number of runs archived before a batch. -/
def countBefore : Nat → Nat
  | 0 => 0
  | i + 1 => countBefore i +
      ((a.attemptedIn e table i (countBefore i)).filter (e.succeeds i)).length

/-- The loop comes to a batch: it is not empty, and the limit is not reached before. -/
def ComesTo (i : Nat) : Prop :=
  a.batch table i ≠ [] ∧ ∀ j ≤ i, a.limitReached (a.countBefore e table j) = false

/-- Wherever the limit cuts a batch, the attempts that succeed in it and in the batches after it
come up to the limit. -/
def CutsMadeUp : Prop :=
  ∀ i, a.ComesTo e table i →
    (a.attemptedIn e table i (a.countBefore e table i)).length < (a.eligibleRuns e table i).length →
    ∃ m, i < m ∧ a.limitReached (a.countBefore e table m) = true

/-- Batches are fetched, and they are not empty. -/
def Starts : Prop := (a.dryRun = true ∨ e.storageConfigured = true) ∧ a.batchSize ≠ 0

/-- No run of the window is to be archived. -/
def NothingToArchive : Prop :=
  ∀ position run, (a.window table)[position]? = some run →
    eligible e (position / a.batchSize) run = false

variable {a e table} {s : ArchiveState} {i count : Nat}

/-! ## One batch -/

private theorem selectRuns_spec (i count : Nat) (runs : List WorkflowRun) (summary : ArchiveSummary)
    (runsToProcess : List WorkflowRun) : ∃ k ≤ (runs.filter (eligible e i)).length,
      (a.selectRuns e i count runs summary runsToProcess).2 =
        runsToProcess ++ (runs.filter (eligible e i)).take k ∧
      (k = (runs.filter (eligible e i)).length ∨
        a.limitReached (count + (runsToProcess.length + k)) = true) ∧
      ∀ j < k, a.limitReached (count + (runsToProcess.length + j)) = false := by
  induction runs generalizing summary runsToProcess with
  | nil => exact ⟨0, Nat.le_refl 0, (List.append_nil _).symm, .inl rfl, fun j hj => nomatch hj⟩
  | cons run runs ih =>
    rw [selectRuns]
    dsimp only
    cases hpaid : e.paid i run.tenantId with
    | false =>
      have heligible : eligible e i run = false := by rw [eligible, hpaid, Bool.false_and]
      rw [if_pos Bool.not_false, List.filter_cons_of_neg (Bool.eq_false_iff.mp heligible)]
      exact ih _ _
    | true =>
      rw [if_neg (by decide)]
      cases hbefore : e.archivedBefore i run.id with
      | true =>
        have heligible : eligible e i run = false := by
          rw [eligible, hbefore]
          exact Bool.and_false _
        rw [if_pos rfl, List.filter_cons_of_neg (Bool.eq_false_iff.mp heligible)]
        exact ih _ _
      | false =>
        have heligible : eligible e i run = true := by rw [eligible, hpaid, hbefore]; rfl
        rw [if_neg (by decide), List.filter_cons_of_pos heligible, List.length_cons]
        cases hlimit : a.limitReached (count + runsToProcess.length) with
        | true =>
          rw [if_pos rfl]
          exact ⟨0, Nat.zero_le _, (List.append_nil _).symm, .inr hlimit, fun j hj => nomatch hj⟩
        | false =>
          rw [if_neg (by decide)]
          obtain ⟨k, hk, hselect, hend, hbelow⟩ := ih
            { summary with totalRunsProcessed := summary.totalRunsProcessed + 1 }
            (runsToProcess ++ [run])
          rw [List.length_append, List.length_singleton] at hend hbelow
          refine ⟨k + 1, Nat.succ_le_succ hk, ?_, ?_, ?_⟩
          · rw [hselect, List.take_succ_cons]
            exact (List.append_cons _ _ _).symm
          · rw [Nat.add_assoc, Nat.add_comm 1 k] at hend
            exact hend.imp (congrArg (· + 1)) id
          · intro j hj
            cases j with
            | zero => exact hlimit
            | succ j =>
              have hnext := hbelow j (Nat.lt_of_succ_lt_succ hj)
              rwa [Nat.add_assoc, Nat.add_comm 1 j] at hnext

private theorem selectRuns_summary (runs : List WorkflowRun) (summary summary' : ArchiveSummary)
    (runsToProcess : List WorkflowRun) :
    (a.selectRuns e i count runs summary runsToProcess).2 =
      (a.selectRuns e i count runs summary' runsToProcess).2 := by
  induction runs generalizing summary summary' runsToProcess with
  | nil => rfl
  | cons run runs ih =>
    rw [selectRuns, selectRuns]
    dsimp only
    split
    · exact ih _ _ _
    · split
      · exact ih _ _ _
      · split
        · rfl
        · exact ih _ _ _

variable (a e table) in
/-- In a batch the first of the runs to be archived are attempted, up to the limit. -/
theorem attemptedIn_spec (i count : Nat) : ∃ k ≤ (a.eligibleRuns e table i).length,
    a.attemptedIn e table i count = (a.eligibleRuns e table i).take k ∧
      (k = (a.eligibleRuns e table i).length ∨ a.limitReached (count + k) = true) ∧
      ∀ j < k, a.limitReached (count + j) = false := by
  obtain ⟨k, hk, hselect, hend, hbelow⟩ := selectRuns_spec (a := a) (e := e) i count
    (a.batch table i) {} []
  rw [List.length_nil, Nat.zero_add] at hend
  refine ⟨k, hk, hselect, hend, fun j hj => ?_⟩
  have hnext := hbelow j hj
  rwa [List.length_nil, Nat.zero_add] at hnext

variable {run : WorkflowRun}

theorem mem_batch_of_attemptedIn (h : run ∈ a.attemptedIn e table i count) :
    run ∈ a.batch table i := by
  obtain ⟨k, -, hattempted, -⟩ := attemptedIn_spec a e table i count
  rw [hattempted] at h
  exact (List.mem_filter.mp (List.mem_of_mem_take h)).1

/-! ## The window -/

private theorem rows_nodup : table.rows.Nodup := List.Nodup.of_map _ table.ids_nodup

private theorem run_keys_nodup : ((table.rows.filter a.inWindow).map WorkflowRun.key).Nodup := by
  apply List.Nodup.of_map (f := fun k => (ofLex k).2)
  rw [List.map_map]
  exact table.ids_nodup.sublist (List.filter_sublist.map _)

theorem window_nodup : (a.window table).Nodup :=
  (Paging.orderBy_perm _).nodup_iff.mpr (rows_nodup.filter _)

theorem mem_batch_iff (hsize : a.batchSize ≠ 0) : run ∈ a.batch table i ↔
    ∃ position, (a.window table)[position]? = some run ∧ position / a.batchSize = i := by
  have hpos : 0 < a.batchSize := Nat.pos_of_ne_zero hsize
  rw [batch, List.mem_iff_getElem?]
  simp only [List.getElem?_take, List.getElem?_drop]
  constructor
  · rintro ⟨j, hrun⟩
    by_cases hj : j < a.batchSize
    · rw [if_pos hj] at hrun
      refine ⟨_, hrun, ?_⟩
      rw [Nat.mul_comm, Nat.mul_add_div hpos, Nat.div_eq_of_lt hj, Nat.add_zero]
    · rw [if_neg hj] at hrun
      cases hrun
  · rintro ⟨position, hrun, rfl⟩
    refine ⟨position % a.batchSize, ?_⟩
    rwa [if_pos (Nat.mod_lt _ hpos), Nat.mul_comm, Nat.div_add_mod]

theorem batch_eq_nil_iff (hsize : a.batchSize ≠ 0) :
    a.batch table i = [] ↔ (a.window table).length ≤ i * a.batchSize := by
  rw [batch, List.take_eq_nil_iff, List.drop_eq_nil_iff, or_iff_right hsize]

theorem batch_unique (hsize : a.batchSize ≠ 0) {j : Nat}
    (hi : run ∈ a.batch table i) (hj : run ∈ a.batch table j) : i = j := by
  obtain ⟨p, hp, rfl⟩ := (mem_batch_iff hsize).mp hi
  obtain ⟨q, hq, rfl⟩ := (mem_batch_iff hsize).mp hj
  have hlt := (List.getElem?_eq_some_iff.mp hp).1
  rw [(List.getElem?_inj hlt window_nodup).mp (hp.trans hq.symm)]

/-! ## The loop -/

/-- The state when the loop comes to a batch. -/
structure At (a : WorkflowRunArchiver) (e : ArchiveSurroundings) (table : WorkflowRunTable)
    (i : Nat)
    (s : ArchiveState) : Prop where
  batches : s.batches = i
  bound : i ≤ (a.window table).length
  attempted : s.attempted =
    (List.range i).flatMap fun j => a.attemptedIn e table j (a.countBefore e table j)
  seen : s.attempted.Sublist ((a.window table).take (i * a.batchSize))
  archived : s.archivedCount = a.countBefore e table i
  lastSeen : s.lastSeen =
    Paging.cursorAt WorkflowRun.key (table.rows.filter a.inWindow) (i * a.batchSize)
  rows : s.rows.Sublist table.rows
  left : ∀ run ∈ (a.window table).drop (i * a.batchSize), run ∈ s.rows
  came : ∀ j < i, a.ComesTo e table j

variable (a e table) in
private theorem at_start_archive : At a e table 0 { rows := table.rows } where
  batches := rfl
  bound := Nat.zero_le _
  attempted := rfl
  seen := List.nil_sublist _
  archived := rfl
  lastSeen := by rw [Nat.zero_mul]; rfl
  rows := List.Sublist.refl _
  left run hrun := by
    rw [Nat.zero_mul, List.drop_zero] at hrun
    exact (List.mem_filter.mp (Paging.mem_orderBy.mp hrun)).1
  came j hj := nomatch hj

theorem At.fetch_eq (h : At a e table i s) :
    a.getRunsBatch s.rows s.lastSeen = a.batch table i := by
  rw [getRunsBatch, batch, window]
  congr 1
  refine Paging.orderBy_eq_drop run_keys_nodup ((rows_nodup.sublist h.rows).filter _) fun run => ?_
  rw [List.mem_filter, h.lastSeen, Bool.and_eq_true, Paging.mem_drop_iff run_keys_nodup,
    List.mem_filter, and_assoc]
  constructor
  · rintro ⟨hrun, hwindow, hafter⟩
    exact ⟨h.rows.subset hrun, hwindow, hafter⟩
  · rintro ⟨hrun, hwindow, hafter⟩
    refine ⟨h.left run ?_, hwindow, hafter⟩
    exact (Paging.mem_drop_iff run_keys_nodup _ run).mpr
      ⟨List.mem_filter.mpr ⟨hrun, hwindow⟩, hafter⟩

private theorem take_succ_batches : (a.window table).take ((i + 1) * a.batchSize) =
    (a.window table).take (i * a.batchSize) ++ a.batch table i := by
  rw [Nat.succ_mul, List.take_add, batch]

theorem At.step (h : At a e table i s) (hlimit : a.limitReached s.archivedCount = false)
    (hbatch : a.batch table i ≠ []) :
    At a e table (i + 1) (a.archiveBatch e s (a.batch table i)) := by
  have hselected : (a.selectRuns e s.batches s.archivedCount (a.batch table i) s.summary []).2 =
      a.attemptedIn e table i (a.countBefore e table i) := by
    rw [h.batches, h.archived]
    exact selectRuns_summary _ _ _ _
  have hcomes : a.ComesTo e table i := by
    refine ⟨hbatch, fun j hj => ?_⟩
    rcases Nat.lt_or_eq_of_le hj with hj | rfl
    · exact (h.came j hj).2 j (Nat.le_refl j)
    · rwa [← h.archived]
  have hsize : a.batchSize ≠ 0 := by
    intro hzero
    rw [batch, hzero, List.take_zero] at hbatch
    exact hbatch rfl
  have hlong : i * a.batchSize < (a.window table).length :=
    Nat.not_le.mp (mt (batch_eq_nil_iff hsize).mpr hbatch)
  refine ⟨congrArg (· + 1) h.batches, ?_, ?_, ?_, ?_, ?_, ?_, ?_, ?_⟩
  · have hle := Nat.le_mul_of_pos_right i (Nat.pos_of_ne_zero hsize)
    omega
  · change s.attempted ++ (a.selectRuns e s.batches s.archivedCount (a.batch table i) _ []).2 = _
    rw [hselected, h.attempted, List.range_succ, List.flatMap_append, List.flatMap_singleton]
  · change (s.attempted ++ (a.selectRuns e s.batches s.archivedCount
      (a.batch table i) _ []).2).Sublist _
    rw [hselected, take_succ_batches]
    obtain ⟨k, -, hattempted, -⟩ :=
      attemptedIn_spec a e table i (a.countBefore e table i)
    rw [hattempted]
    exact h.seen.append ((List.take_sublist _ _).trans List.filter_sublist)
  · change s.archivedCount + ((a.selectRuns e s.batches s.archivedCount
      (a.batch table i) _ []).2.filter (e.succeeds s.batches)).length = _
    rw [hselected, h.archived, h.batches]
    rfl
  · obtain ⟨last, hlast⟩ := Option.ne_none_iff_exists'.mp (mt List.getLast?_eq_none_iff.mp hbatch)
    change (a.batch table i).getLast?.map WorkflowRun.key = _
    rw [hlast, Nat.succ_mul]
    exact (Paging.cursorAt_add hlast).symm
  · change (if a.deleteAfterArchive && !a.dryRun then _ else s.rows).Sublist _
    split
    · exact List.filter_sublist.trans h.rows
    · exact h.rows
  · intro run hrun
    have hnow : run ∈ s.rows := by
      apply h.left
      rw [Nat.succ_mul, ← List.drop_drop] at hrun
      exact List.mem_of_mem_drop hrun
    change run ∈ (if a.deleteAfterArchive && !a.dryRun then _ else s.rows)
    split
    · -- only runs of the batch are deleted
      apply List.mem_filter.mpr
      refine ⟨hnow, ?_⟩
      rw [Bool.not_eq_true', Bool.eq_false_iff]
      intro hcontains
      have hid := List.contains_iff_mem.mp hcontains
      obtain ⟨other, hother, hsame⟩ := List.mem_map.mp hid
      have hin : other ∈ a.batch table i := by
        have hmem := (List.mem_filter.mp hother).1
        rw [hselected] at hmem
        exact mem_batch_of_attemptedIn hmem
      have hother' : other ∈ (a.window table).take ((i + 1) * a.batchSize) := by
        rw [take_succ_batches]
        exact List.mem_append_right _ hin
      have hrows (r : WorkflowRun) (hr : r ∈ a.window table) : r ∈ table.rows :=
        (List.mem_filter.mp (Paging.mem_orderBy.mp hr)).1
      have he := List.inj_on_of_nodup_map table.ids_nodup
        (hrows _ (List.mem_of_mem_take hother')) (hrows _ (List.mem_of_mem_drop hrun)) hsame
      rw [he] at hother'
      exact List.disjoint_take_drop window_nodup (Nat.le_refl _) hother' hrun
    · exact hnow
  · intro j hj
    rcases Nat.lt_succ_iff_lt_or_eq.mp hj with hj | rfl
    · exact h.came j hj
    · exact hcomes

theorem At.loop_ends (h : At a e table i s) {fuel : Nat}
    (hfuel : (a.window table).length < i + fuel) : ∃ m s', a.loop e fuel s = some s' ∧
      At a e table m s' ∧ (a.limitReached s'.archivedCount = true ∨ a.batch table m = []) := by
  induction fuel generalizing i s with
  | zero => exact absurd h.bound (by omega)
  | succ fuel ih =>
    rw [loop]
    cases hlimit : a.limitReached s.archivedCount with
    | true => exact ⟨i, s, rfl, h, .inl hlimit⟩
    | false =>
      rw [if_neg (by decide), h.fetch_eq]
      cases hbatch : a.batch table i with
      | nil => exact ⟨i, s, rfl, h, .inr hbatch⟩
      | cons run runs =>
        have hnext := h.step hlimit (by rw [hbatch]; exact List.cons_ne_nil _ _)
        rw [hbatch] at hnext
        exact ih hnext (by omega)

/-! ## No run is lost -/

private theorem limitReached_mono {count count' : Nat} (hle : count ≤ count')
    (h : a.limitReached count = true) : a.limitReached count' = true := by
  unfold limitReached at *
  cases hlimit : a.limit with
  | none =>
    rw [hlimit] at h
    cases h
  | some limit =>
    rw [hlimit, Option.any_some, Bool.and_eq_true, decide_eq_true_eq, decide_eq_true_eq] at h
    rw [Option.any_some, Bool.and_eq_true, decide_eq_true_eq, decide_eq_true_eq]
    omega

private theorem countBefore_mono {j : Nat} (h : i ≤ j) :
    a.countBefore e table i ≤ a.countBefore e table j := by
  induction h with
  | refl => exact Nat.le_refl _
  | step _ ih => exact Nat.le_trans ih (Nat.le_add_right _ _)

theorem countBefore_eq_of_le (hempty : ∀ j, i ≤ j → a.batch table j = []) {j : Nat}
    (h : i ≤ j) : a.countBefore e table j = a.countBefore e table i := by
  induction h with
  | refl => rfl
  | step hle ih =>
    rw [countBefore, attemptedIn, hempty _ hle, ih]
    rfl

theorem countBefore_le {limit : Int} (hlimit : a.limit = some limit) (hpos : 0 < limit)
    (i : Nat) : (a.countBefore e table i : Int) ≤ limit := by
  induction i with
  | zero =>
    rw [countBefore]
    omega
  | succ i ih =>
    obtain ⟨k, hk, hattempted, -, hbelow⟩ :=
      attemptedIn_spec a e table i (a.countBefore e table i)
    have hle : ((a.attemptedIn e table i (a.countBefore e table i)).filter (e.succeeds i)).length ≤
        k := by
      apply Nat.le_trans (List.length_filter_le _ _)
      rw [hattempted, List.length_take]
      exact Nat.min_le_left _ _
    rw [countBefore]
    cases k with
    | zero => omega
    | succ k =>
      -- the last run was selected below the limit
      have hlast := hbelow k (Nat.lt_succ_self k)
      rw [limitReached, hlimit, Option.any_some, Bool.and_eq_false_iff, decide_eq_false_iff_not,
        decide_eq_false_iff_not] at hlast
      omega

private theorem exists_not_attempted
    (hcut : (a.attemptedIn e table i count).length < (a.eligibleRuns e table i).length) :
    ∃ run ∈ a.eligibleRuns e table i, run ∉ a.attemptedIn e table i count := by
  have hnodup : (a.eligibleRuns e table i).Nodup :=
    ((window_nodup.sublist (List.drop_sublist _ _)).sublist (List.take_sublist _ _)).filter _
  obtain ⟨k, hk, hattempted, -⟩ := attemptedIn_spec a e table i count
  rw [hattempted, List.length_take, Nat.min_eq_left hk] at hcut
  refine ⟨(a.eligibleRuns e table i)[k], List.getElem_mem hcut, fun hmem => ?_⟩
  rw [hattempted] at hmem
  apply List.disjoint_take_drop hnodup (Nat.le_refl k) hmem
  rw [List.drop_eq_getElem_cons hcut]
  exact List.mem_cons_self

theorem attempted_of_not_cut
    (hcut : ¬(a.attemptedIn e table i count).length < (a.eligibleRuns e table i).length) :
    a.attemptedIn e table i count = a.eligibleRuns e table i := by
  obtain ⟨k, hk, hattempted, -⟩ := attemptedIn_spec a e table i count
  rw [hattempted, List.length_take, Nat.min_eq_left hk] at hcut
  rw [hattempted, List.take_of_length_le (by omega)]

theorem At.mem_attempted (h : At a e table i s) :
    run ∈ s.attempted ↔ ∃ j < i, run ∈ a.attemptedIn e table j (a.countBefore e table j) := by
  rw [h.attempted, List.mem_flatMap]
  simp only [List.mem_range]

theorem At.loses_none_iff (h : At a e table i s) (hsize : a.batchSize ≠ 0)
    (hend : a.limitReached s.archivedCount = true ∨ a.batch table i = []) :
    (a.limitReached s.archivedCount = true ∨ a.AttemptsAll e table s) ↔ a.CutsMadeUp e table := by
  rw [h.archived] at *
  constructor
  · intro hkept j hcomes hcut
    cases hkept with
    | inl hreached =>
      refine ⟨i, Nat.not_le.mp fun hle => ?_, hreached⟩
      rw [hcomes.2 i hle] at hreached
      cases hreached
    | inr hall =>
      -- a run that the limit cuts off is attempted in no batch
      exfalso
      obtain ⟨run, hrun, hnot⟩ := exists_not_attempted hcut
      have hbatch := List.mem_filter.mp hrun
      obtain ⟨position, hposition, rfl⟩ := (mem_batch_iff hsize).mp hbatch.1
      obtain ⟨j, -, hj⟩ := h.mem_attempted.mp (hall position run hposition hbatch.2)
      have hsame := batch_unique hsize hbatch.1 (mem_batch_of_attemptedIn hj)
      rw [hsame] at hnot
      exact hnot hj
  · intro hcuts
    by_cases hreached : a.limitReached (a.countBefore e table i) = true
    · exact .inl hreached
    · have hlast : a.batch table i = [] := hend.resolve_left hreached
      refine .inr fun position run hposition heligible => ?_
      have hbatch := (mem_batch_iff hsize).mpr ⟨position, hposition, rfl⟩
      have hlt : position / a.batchSize < i := by
        rw [Nat.div_lt_iff_lt_mul (Nat.pos_of_ne_zero hsize)]
        exact Nat.lt_of_lt_of_le (List.getElem?_eq_some_iff.mp hposition).1
          ((batch_eq_nil_iff hsize).mp hlast)
      apply h.mem_attempted.mpr
      refine ⟨_, hlt, ?_⟩
      rw [attempted_of_not_cut]
      · exact List.mem_filter.mpr ⟨hbatch, heligible⟩
      · intro hcut
        obtain ⟨m, -, hm⟩ := hcuts _ (h.came _ hlt) hcut
        apply hreached
        rcases Nat.le_total m i with hle | hle
        · exact limitReached_mono (countBefore_mono hle) hm
        · rwa [← countBefore_eq_of_le (fun j hj => ?_) hle]
          rw [batch_eq_nil_iff hsize] at hlast ⊢
          exact Nat.le_trans hlast (Nat.mul_le_mul_right _ hj)

theorem run_of_not_starts (h : ¬a.Starts e) :
    a.run e table = some { rows := table.rows } := by
  rw [run]
  cases hstorage : !a.dryRun && !e.storageConfigured with
  | true => rfl
  | false =>
    have hsize : a.batchSize = 0 := by
      by_contra hsize
      apply h
      rw [Bool.and_eq_false_iff, Bool.not_eq_false', Bool.not_eq_false'] at hstorage
      exact ⟨hstorage, hsize⟩
    rw [if_neg Bool.false_ne_true, loop, getRunsBatch, hsize, List.take_zero]
    split <;> rfl

theorem cutsMadeUp_of_nothing (h : a.NothingToArchive e table) : a.CutsMadeUp e table := by
  intro i hcomes hcut
  exfalso
  have hsize : a.batchSize ≠ 0 := by
    intro hzero
    apply hcomes.1
    rw [batch, hzero, List.take_zero]
  obtain ⟨run, hrun, -⟩ := exists_not_attempted hcut
  have hbatch := List.mem_filter.mp hrun
  obtain ⟨position, hposition, rfl⟩ := (mem_batch_iff hsize).mp hbatch.1
  rw [h position run hposition] at hbatch
  cases hbatch.2

variable (a e table)

/-- The archiver terminates, attempts no run twice and archives no more runs than the limit allows.
The limit is reached or every run to be archived was attempted, if and only if the cuts of the
limit are made up for and batches are fetched where there is something to archive. -/
theorem run_loses_none_iff : ∃ s, a.run e table = some s ∧ s.attempted.Nodup ∧
    (∀ limit, a.limit = some limit → 0 < limit → (s.archivedCount : Int) ≤ limit) ∧
    ((a.limitReached s.archivedCount = true ∨ a.AttemptsAll e table s) ↔
      a.limitReached 0 = true ∨
        a.CutsMadeUp e table ∧ (a.Starts e ∨ a.NothingToArchive e table)) := by
  by_cases hstarts : a.Starts e
  · have hfuel : (a.window table).length < 0 + (table.rows.length + 1) := by
      rw [Nat.zero_add, window, (Paging.orderBy_perm _).length_eq]
      exact Nat.lt_succ_of_le (List.length_filter_le _ _)
    obtain ⟨m, s, hloop, hat, hend⟩ := (at_start_archive a e table).loop_ends hfuel
    refine ⟨s, ?_, (window_nodup.sublist (List.take_sublist _ _)).sublist hat.seen, ?_, ?_⟩
    · rw [run, if_neg, hloop]
      rintro hnot
      rw [Bool.and_eq_true, Bool.not_eq_true', Bool.not_eq_true'] at hnot
      rcases hstarts.1 with hdry | hconfigured
      · rw [hdry] at hnot
        cases hnot.1
      · rw [hconfigured] at hnot
        cases hnot.2
    · intro limit hlimit hpos
      rw [hat.archived]
      exact countBefore_le hlimit hpos m
    · constructor
      · intro hkept
        exact .inr ⟨(hat.loses_none_iff hstarts.2 hend).mp hkept, .inl hstarts⟩
      · rintro (hzero | ⟨hcuts, -⟩)
        · exact .inl (limitReached_mono (Nat.zero_le _) hzero)
        · exact (hat.loses_none_iff hstarts.2 hend).mpr hcuts
  · refine ⟨_, run_of_not_starts hstarts, List.nodup_nil, fun limit _ hpos => ?_, ?_⟩
    · show ((0 : Nat) : Int) ≤ limit
      omega
    · have hall : a.AttemptsAll e table { rows := table.rows } ↔ a.NothingToArchive e table := by
        constructor
        · intro hall position run hposition
          rw [← Bool.not_eq_true]
          intro heligible
          cases hall position run hposition heligible
        · intro hnothing position run hposition heligible
          rw [hnothing position run hposition] at heligible
          cases heligible
      rw [hall, or_iff_right hstarts]
      exact or_congr Iff.rfl ⟨fun h => ⟨cutsMadeUp_of_nothing h, h⟩, And.right⟩

/-! ## A failure at the limit -/

private theorem twoRuns_nodup : ["r1", "r2"].Nodup := by decide

/-- Two runs of one tenant. -/
private def twoRuns : WorkflowRunTable where
  rows := [⟨"r1", 1, "t", "workflow", true⟩, ⟨"r2", 2, "t", "workflow", true⟩]
  ids_nodup := twoRuns_nodup

/-- With a limit of one run, of which the first fails: the cursor has passed the second, which is
never attempted, and nothing is archived. -/
theorem run_loses_after_failure :
    let a : WorkflowRunArchiver := { endBefore := 5, limit := some 1 }
    let e : ArchiveSurroundings :=
      { storageConfigured := true
        billingEnabled := false
        plans := fun _ => none
        archivedBefore := fun _ _ => false
        succeeds := fun _ run => run.id != "r1" }
    ∃ s, a.run e twoRuns = some s ∧ s.archivedCount = 0 ∧
      a.limitReached s.archivedCount = false ∧ ¬a.AttemptsAll e twoRuns s := by
  intro a e
  have hwindow : (a.window twoRuns)[1]? = some ⟨"r2", 2, "t", "workflow", true⟩ := by
    decide +kernel
  have hrun : (a.run e twoRuns).map (fun s => (s.archivedCount, s.attempted)) =
      some (0, [⟨"r1", 1, "t", "workflow", true⟩]) := by
    decide +kernel
  obtain ⟨s, hs, hstate⟩ := Option.map_eq_some_iff.mp hrun
  have hcount : s.archivedCount = 0 := congrArg Prod.fst hstate
  have hattempted := congrArg Prod.snd hstate
  refine ⟨s, hs, hcount, ?_, fun hall => ?_⟩
  · rw [hcount]
    decide
  · have hmem := hall 1 _ hwindow (by decide)
    rw [show s.attempted = _ from hattempted] at hmem
    revert hmem
    decide

end WorkflowRunArchiver
end PlatformSpec.Retention
