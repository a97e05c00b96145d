import PlatformSpec.Retention.MessagesClean

/-!
# When a cleaning is exact

The policies of `services/retention/conversation/messages_clean_policy.py` judge each message
on its own. Under such a policy the cleaning deletes what it selects with all related rows,
with two exceptions: a batch whose apps are all gone is passed over, and extra contents stay.
-/

namespace PlatformSpec.Retention

open Base

variable {judge : Int → SimpleMessage → Option String → Bool} {policy : MessagesCleanPolicy}

/-- A policy that judges each message on its own selects messages of the batch only. -/
theorem JudgesAlone.selectsFromBatch (h : JudgesAlone policy judge) : SelectsFromBatch policy := by
  intro now messages apps id hid
  rw [h] at hid
  exact (List.filter_sublist.map _).subset hid

/-- The policy for disabled billing judges each message on its own: it selects all. -/
theorem billingDisabled_judgesAlone :
    JudgesAlone billingDisabledPolicy fun _ _ _ => true := by
  intro now messages apps
  rw [billingDisabledPolicy, List.filter_true]

namespace BillingSandboxPolicy

variable (p : BillingSandboxPolicy) {apps : List (String × String)}

theorem mem_filterMessageIds {now : Int} {messages : List SimpleMessage}
    {id : String} (h : id ∈ p.filterMessageIds now messages apps) :
    ∃ m ∈ messages, m.id = id ∧
      p.expired now (fun t => (p.planProvider (apps.map (·.2)).dedup).lookup t)
        (apps.lookup m.appId) = true := by
  unfold filterMessageIds at h
  dsimp only at h
  split at h
  next => cases h
  next =>
    split at h
    next => cases h
    next =>
      obtain ⟨m, hm, rfl⟩ := List.mem_map.mp h
      exact ⟨m, (List.mem_filter.mp hm).1, rfl, (List.mem_filter.mp hm).2⟩

theorem selectsFromBatch : SelectsFromBatch p.filterMessageIds := by
  intro now messages apps id hid
  obtain ⟨m, hm, rfl, -⟩ := p.mem_filterMessageIds hid
  exact List.mem_map_of_mem hm

variable {plans : String → Option SubscriptionPlan}

theorem tenant_of_expired {now : Int}
    {tenant : Option String} (h : p.expired now plans tenant = true) :
    ∃ tenantId, tenant = some tenantId ∧ tenantId ≠ "" ∧ ∃ plan, plans tenantId = some plan := by
  cases tenant with
  | none => cases h
  | some tenantId =>
    refine ⟨tenantId, rfl, fun hne => ?_, Option.ne_none_iff_exists'.mp fun hnone => ?_⟩
    · rw [expired, if_pos hne] at h
      cases h
    · simp [expired, hnone] at h

/-- The provider answers for each tenant alone. -/
def ProvidesAlone (plans : String → Option SubscriptionPlan) : Prop :=
  ∀ ids tenantId, tenantId ∈ ids → (p.planProvider ids).lookup tenantId = plans tenantId

theorem mem_values_of_lookup {appId tenantId : String}
    (h : apps.lookup appId = some tenantId) : tenantId ∈ (apps.map (·.2)).dedup := by
  obtain ⟨front, back, rfl, -⟩ := List.lookup_eq_some_iff.mp h
  simp

theorem judgesAlone (h : p.ProvidesAlone plans) :
    JudgesAlone p.filterMessageIds fun now _ tenant => p.expired now plans tenant := by
  intro now messages apps
  have hsame : ∀ m : SimpleMessage, p.expired now
      (fun t => (p.planProvider (apps.map (·.2)).dedup).lookup t) (apps.lookup m.appId) =
        p.expired now plans (apps.lookup m.appId) := by
    intro m
    cases hl : apps.lookup m.appId with
    | none => rfl
    | some tenantId => simp only [expired, h _ tenantId (mem_values_of_lookup hl)]
  -- a message is not expired where the early returns apply
  have hnone : (∀ m ∈ messages, p.expired now plans (apps.lookup m.appId) = false) →
      [] = (messages.filter fun m => p.expired now plans (apps.lookup m.appId)).map (·.id) := by
    intro hall
    rw [List.filter_eq_nil_iff.mpr fun m hm => by simp [hall m hm], List.map_nil]
  unfold filterMessageIds
  dsimp only
  split
  next hempty =>
    refine hnone fun m hm => ?_
    rcases Bool.or_eq_true_iff.mp hempty with he | he
    · rw [List.isEmpty_iff.mp he] at hm
      cases hm
    · rw [List.isEmpty_iff.mp he]
      rfl
  next =>
    split
    next hplans =>
      refine hnone fun m _ => ?_
      rw [← hsame, List.isEmpty_iff.mp hplans]
      refine Bool.not_eq_true _ ▸ fun hexp => ?_
      obtain ⟨_, -, -, plan, hplan⟩ := p.tenant_of_expired hexp
      cases hplan
    next => rw [filterExpiredSandboxMessages, List.filter_congr fun m _ => hsame m]

/-- App, tenant and plan of a message can be found. -/
def Finds (db : Database) (m : SimpleMessage) : Prop :=
  ∃ tenantId, db.apps m.appId = some tenantId ∧ tenantId ≠ "" ∧
    ∃ ids plan, (p.planProvider ids).lookup tenantId = some plan

end BillingSandboxPolicy

namespace MessagesCleanService

variable {service : MessagesCleanService} {clock : Nat → Int} {db : Database} {i : Nat}

/-- What is deleted in a group: the messages selected, if some app of the group exists. -/
theorem mem_deletedIn (hjudge : JudgesAlone service.policy judge) (hdry : service.dryRun = false)
    {id : String} : id ∈ service.deletedIn clock db i ↔
      (∃ m ∈ service.batch db i, db.apps m.appId ≠ none) ∧
        ∃ m, service.SelectedIn clock judge db i m ∧ m.id = id := by
  have hempty : (appToTenant db (service.batch db i)).isEmpty = true ↔
      ∀ m ∈ service.batch db i, db.apps m.appId = none := appToTenant_isEmpty
  unfold deletedIn
  rw [hdry, Bool.or_false, hjudge]
  split
  next h =>
    have hnone := hempty.mp h
    constructor
    · exact fun hid => nomatch hid
    · rintro ⟨⟨m, hm, happ⟩, -⟩
      exact absurd (hnone m hm) happ
  next h =>
    rw [hempty] at h
    push Not at h
    rw [List.mem_map]
    constructor
    · rintro ⟨m, hm, rfl⟩
      obtain ⟨hm, hsel⟩ := List.mem_filter.mp hm
      rw [lookup_appToTenant hm] at hsel
      exact ⟨h, m, ⟨hm, hsel⟩, rfl⟩
    · rintro ⟨-, m, ⟨hm, hsel⟩, rfl⟩
      refine ⟨m, List.mem_filter.mpr ⟨hm, ?_⟩, rfl⟩
      rw [lookup_appToTenant hm]
      exact hsel

theorem cleaned_of_ended (hjudge : JudgesAlone service.policy judge)
    (hdry : service.dryRun = false) {db' : Database}
    (h : service.Removed clock db (fun _ => True) db')
    (hall : ∀ i m, service.SelectedIn clock judge db i m →
      (∃ m' ∈ service.batch db i, db.apps m'.appId ≠ none) ∧
        ∀ row ∈ db.related .executionExtraContent, row.messageId ≠ some m.id) :
    Cleaned (fun m => ∃ i, service.SelectedIn clock judge db i m) db db' where
  messages m := by
    rw [h.messages]
    refine and_congr_right fun hm => ?_
    constructor
    · rintro hkept ⟨i, hi⟩
      exact hkept i trivial ((mem_deletedIn hjudge hdry).mpr ⟨(hall i m hi).1, m, hi, rfl⟩)
    · intro hkept i _ hid
      obtain ⟨-, m', hm', he⟩ := (mem_deletedIn hjudge hdry).mp hid
      rw [eq_of_id_eq (mem_of_mem_batch hm'.1).1 hm he] at hm'
      exact hkept ⟨i, hm'⟩
  related table row := by
    rw [h.related]
    refine and_congr_right fun hrow => ?_
    constructor
    · rintro hkept m ⟨i, hi⟩
      by_cases ht : table ∈ relationTables
      · exact hkept ht i trivial m.id
          ((mem_deletedIn hjudge hdry).mpr ⟨(hall i m hi).1, m, hi, rfl⟩)
      · have hextra : table = .executionExtraContent := by
          cases table <;> first | rfl | exact absurd (by decide) ht
        exact (hall i m hi).2 row (hextra ▸ hrow)
    · intro hkept _ i _ id hid
      obtain ⟨-, m, hm, rfl⟩ := (mem_deletedIn hjudge hdry).mp hid
      exact hkept m ⟨i, hm⟩
  apps := h.apps

private theorem of_cleaned (hjudge : JudgesAlone service.policy judge)
    (hdry : service.dryRun = false) {db' : Database}
    (h : service.Removed clock db (fun _ => True) db')
    (hclean : Cleaned (fun m => ∃ i, service.SelectedIn clock judge db i m) db db')
      {m : SimpleMessage}
    (hm : service.SelectedIn clock judge db i m) :
    (∃ m' ∈ service.batch db i, db.apps m'.appId ≠ none) ∧
      ∀ row ∈ db.related .executionExtraContent, row.messageId ≠ some m.id := by
  have hdb := (mem_of_mem_batch hm.1).1
  constructor
  · have hgone : m ∉ db'.messages := fun hkept => ((hclean.messages m).mp hkept).2 ⟨i, hm⟩
    rw [h.messages] at hgone
    push Not at hgone
    obtain ⟨j, -, hj⟩ := hgone hdb
    obtain ⟨happs, m', hm', he⟩ := (mem_deletedIn hjudge hdry).mp hj
    rw [eq_of_id_eq (mem_of_mem_batch hm'.1).1 hdb he] at hm'
    rwa [eq_of_mem_batch hm.1 hm'.1]
  · intro row hrow
    have hkept : row ∈ db'.related .executionExtraContent :=
      (h.related _ row).mpr ⟨hrow, fun ht => absurd ht (by decide)⟩
    exact ((hclean.related _ row).mp hkept).2 m ⟨i, hm⟩

theorem cleanupExact_iff (hjudge : JudgesAlone service.policy judge) :
    service.CleanupExact clock judge db ↔ service.dryRun = true ∨
      ∀ i m, service.SelectedIn clock judge db i m →
        (∃ m' ∈ service.batch db i, db.apps m'.appId ≠ none) ∧
          ∀ row ∈ db.related .executionExtraContent, row.messageId ≠ some m.id := by
  have hpolicy := hjudge.selectsFromBatch
  have hstart := at_start service clock db
  constructor
  · rintro ⟨fuel, s, hloop, -, hclean⟩
    split at hclean
    next hdry => exact .inl hdry
    next hdry =>
      have hended := hstart.ended_of_loop hpolicy hloop
      exact .inr fun i m hm =>
        of_cleaned hjudge (Bool.not_eq_true _ ▸ hdry) hended.removed hclean hm
  · intro hcond
    obtain ⟨s, hs⟩ := cleanMessagesByTimeRange_terminates hpolicy clock db
    have hended := hstart.ended_of_loop hpolicy hs
    refine ⟨_, s, hs, ?_, ?_⟩
    · rw [hended.fetched]
      exact Paging.orderBy_perm _
    · split
      next hdry => exact hended.removed.dry hdry
      next hdry =>
        exact cleaned_of_ended hjudge (Bool.not_eq_true _ ▸ hdry) hended.removed
          (hcond.resolve_left hdry)

/-- The billing policy never deletes a message whose app, tenant or plan cannot be found. -/
theorem billing_keeps (billing : BillingSandboxPolicy)
    (hbilling : service.policy = billing.filterMessageIds) {fuel : Nat} {s : CleanState}
    (hloop : service.loop clock fuel (start db) = some s) {m : SimpleMessage}
    (hm : m ∈ db.messages) (hunknown : ¬ billing.Finds db m) : m ∈ s.db.messages := by
  have hpolicy : SelectsFromBatch service.policy := hbilling ▸ billing.selectsFromBatch
  have hended := (at_start service clock db).ended_of_loop hpolicy hloop
  refine (hended.removed.messages m).mpr ⟨hm, fun j _ hid => hunknown ?_⟩
  unfold deletedIn at hid
  split at hid
  next => cases hid
  next =>
    rw [hbilling] at hid
    obtain ⟨m', hm', he, hexp⟩ := billing.mem_filterMessageIds hid
    rw [lookup_appToTenant hm', eq_of_id_eq (mem_of_mem_batch hm').1 hm he] at hexp
    obtain ⟨tenantId, htenant, hne, plan, hplan⟩ := billing.tenant_of_expired hexp
    exact ⟨tenantId, htenant, hne, _, plan, hplan⟩

end MessagesCleanService

open MessagesCleanService

/-- A cleaning of the messages of a time range is exact, under a policy that judges each message
on its own, if and only if it is a dry run, or no group of the batch size has a selected message
while none of the group's apps exists and no selected message has an extra content. Messages the
billing policy cannot judge are always kept. -/
theorem cleanup_exact_iff (service : MessagesCleanService) (clock : Nat → Int)
    (judge : Int → SimpleMessage → Option String → Bool)
    (hjudge : JudgesAlone service.policy judge) (db : Database) :
    (service.CleanupExact clock judge db ↔ service.dryRun = true ∨
      ∀ i m, service.SelectedIn clock judge db i m →
        (∃ m' ∈ service.batch db i, db.apps m'.appId ≠ none) ∧
          ∀ row ∈ db.related .executionExtraContent, row.messageId ≠ some m.id) ∧
    ∀ (billing : BillingSandboxPolicy) (fuel : Nat) (s : CleanState),
      { service with policy := billing.filterMessageIds }.loop clock fuel (start db) = some s →
        ∀ m ∈ db.messages, ¬ billing.Finds db m → m ∈ s.db.messages := by
  refine ⟨cleanupExact_iff hjudge, fun billing fuel s hloop m hm hunknown => ?_⟩
  exact billing_keeps billing rfl hloop hm hunknown

/-- Two messages of one moment, the first of an app that is gone. -/
def twoMessages (extra : List RelatedRow) : Database where
  messages := [⟨"m1", "gone", 5⟩, ⟨"m2", "chat", 5⟩]
  ids_nodup := by decide
  apps := fun appId => if appId = "chat" then some "acme" else none
  related := fun table => if table = .executionExtraContent then extra else [⟨"f", some "m1"⟩]

/-- The service without billing, for messages before a time. -/
def unbilled (batchSize : Nat) (h : 0 < batchSize) : MessagesCleanService :=
  ⟨billingDisabledPolicy, 10, some 0, batchSize, false, h⟩

/-- In a batch of its own the first message stays; in one batch with the second it goes, and
leaves an extra content behind. -/
theorem cleanup_leaves_rows :
    ¬ (unbilled 1 (by decide)).CleanupExact (fun _ => 0) (fun _ _ _ => true) (twoMessages []) ∧
      ¬ (unbilled 2 (by decide)).CleanupExact (fun _ => 0) (fun _ _ _ => true)
        (twoMessages [⟨"x", some "m1"⟩]) := by
  rw [cleanupExact_iff billingDisabled_judgesAlone, cleanupExact_iff billingDisabled_judgesAlone]
  constructor
  · rintro (h | h)
    · cases h
    · have hfirst := h 0 ⟨"m1", "gone", 5⟩ ⟨by decide +kernel, rfl⟩
      revert hfirst
      decide +kernel
  · rintro (h | h)
    · cases h
    · have hfirst := h 0 ⟨"m1", "gone", 5⟩ ⟨by decide +kernel, rfl⟩
      revert hfirst
      decide +kernel

/-- A billing policy whose provider knows one tenant without a former subscription. -/
def sandboxed : BillingSandboxPolicy where
  planProvider := fun ids => if "acme" ∈ ids then [("acme", ⟨"sandbox", -1⟩)] else []

/-- The service with this policy, for messages before a time, in batches of two. -/
def billed : MessagesCleanService :=
  ⟨sandboxed.filterMessageIds, 10, some 0, 2, false, by decide⟩

/-- With both messages in one batch the cleaning under the billing policy is exact. -/
theorem cleanup_exact_billed :
    billed.CleanupExact (fun _ => 0)
      (fun now _ tenant => sandboxed.expired now
        (fun t => if t = "acme" then some ⟨"sandbox", -1⟩ else none) tenant)
      (twoMessages []) := by
  have hprovider : sandboxed.ProvidesAlone fun t =>
      if t = "acme" then some ⟨"sandbox", -1⟩ else none := by
    intro ids t ht
    by_cases he : t = "acme"
    · subst he
      simp [sandboxed, ht]
    · by_cases hacme : "acme" ∈ ids
      · simp [sandboxed, hacme, he]
      · simp [sandboxed, hacme, he]
  refine (cleanup_exact_iff billed _ _ (sandboxed.judgesAlone hprovider) (twoMessages [])).1.mpr
    (.inr fun i m hm => ⟨?_, fun row hrow => by cases hrow⟩)
  cases i with
  | zero => decide +kernel
  | succ i =>
    have hlength : (billed.window (twoMessages [])).length = 2 := by decide +kernel
    have hbatch : billed.batch (twoMessages []) (i + 1) = [] := by
      rw [batch, List.drop_eq_nil_of_le, List.take_nil]
      rw [hlength]
      exact Nat.le_mul_of_pos_left 2 (Nat.succ_pos i)
    rw [SelectedIn, hbatch] at hm
    cases hm.1

end PlatformSpec.Retention
