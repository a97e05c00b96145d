import Mathlib.Data.List.Dedup
import Mathlib.Data.Prod.Lex
import Mathlib.Data.String.Basic
import Mathlib.Logic.Function.Basic
import PlatformSpec.Base.Paging

/-!
# Cleaning expired messages

Models `services/retention/conversation/messages_clean_service.py` and
`messages_clean_policy.py`: the loop that walks the messages of a time range by a
`(created_at, id)` cursor, the two policies, and the deletion of messages with their related
rows. Related are the rows of every table with a `message_id` that refers to a message.
-/

namespace PlatformSpec.Retention

open Base

/-- A row of `messages`, with the columns of a `SimpleMessage`. -/
structure SimpleMessage where
  id : String
  appId : String
  createdAt : Nat
  deriving DecidableEq

/-- The tables whose rows refer to a message by `message_id`. -/
inductive RelatedTable where
  | messageFeedback
  | messageAnnotation
  | messageChain
  | messageAgentThought
  | messageFile
  | savedMessage
  | appAnnotationHitHistory
  | datasetRetrieverResource
  | executionExtraContent
  deriving DecidableEq

/-- A row of such a table; the reference may be null. -/
structure RelatedRow where
  id : String
  messageId : Option String
  deriving DecidableEq

/-- The tables read and written. `apps` gives the tenant of an app by its primary key. -/
structure Database where
  messages : List SimpleMessage
  ids_nodup : (messages.map (·.id)).Nodup
  apps : String → Option String
  related : RelatedTable → List RelatedRow

namespace Database

/-- `delete(Table).where(Table.message_id.in_(message_ids))`. -/
def deleteRelated (ids : List String) (db : Database) (table : RelatedTable) : Database :=
  { db with
    related := Function.update db.related table
      ((db.related table).filter fun row => !row.messageId.any fun id => ids.contains id) }

/-- `delete(Message).where(Message.id.in_(message_ids_to_delete))`. -/
def deleteMessages (db : Database) (ids : List String) : Database :=
  { db with
    messages := db.messages.filter fun m => !ids.contains m.id
    ids_nodup := db.ids_nodup.sublist (List.filter_sublist.map _) }

end Database

open RelatedTable in
/-- The tables that `_batch_delete_message_relations` deletes from, in its order. -/
def relationTables : List RelatedTable :=
  [messageFeedback, messageAnnotation, messageChain, messageAgentThought, messageFile,
    savedMessage, appAnnotationHitHistory, datasetRetrieverResource]

/-- `_batch_delete_message_relations`. -/
def batchDeleteMessageRelations (db : Database) (ids : List String) : Database :=
  if ids.isEmpty then db else relationTables.foldl (Database.deleteRelated ids) db

/-- `filter_message_ids` of a policy, at the time it is called: the ids to delete from a batch of
messages, given the mapping from apps to tenants. -/
abbrev MessagesCleanPolicy := Int → List SimpleMessage → List (String × String) → List String

/-- `BillingDisabledPolicy`. -/
def billingDisabledPolicy : MessagesCleanPolicy := fun _ messages _ => messages.map (·.id)

/-- `SubscriptionPlan`. -/
structure SubscriptionPlan where
  plan : String
  expirationDate : Int
  deriving DecidableEq

/-- `BillingSandboxPolicy`. -/
structure BillingSandboxPolicy where
  planProvider : List String → List (String × SubscriptionPlan)
  gracefulPeriodDays : Int := 21
  tenantWhitelist : List String := []
  currentTimestamp : Option Int := none

namespace BillingSandboxPolicy

/-- One round of the loop in `_filter_expired_sandbox_messages`: the message is deleted. -/
def expired (p : BillingSandboxPolicy) (now : Int)
    (tenantPlans : String → Option SubscriptionPlan) : Option String → Bool
  | none => false
  | some tenantId =>
    if tenantId = "" then false
    else if tenantId ∈ p.tenantWhitelist then false
    else
      match tenantPlans tenantId with
      | none => false
      | some tenantPlan =>
        if tenantPlan.plan ≠ "sandbox" then false
        else if tenantPlan.expirationDate = -1 then true
        else decide (p.currentTimestamp.getD now - tenantPlan.expirationDate >
          p.gracefulPeriodDays * 24 * 60 * 60)

/-- `_filter_expired_sandbox_messages`. -/
def filterExpiredSandboxMessages (p : BillingSandboxPolicy) (now : Int)
    (messages : List SimpleMessage) (appToTenant : List (String × String))
    (tenantPlans : List (String × SubscriptionPlan)) : List String :=
  (messages.filter fun m =>
    p.expired now (fun t => tenantPlans.lookup t) (appToTenant.lookup m.appId)).map (·.id)

/-- `filter_message_ids`. -/
def filterMessageIds (p : BillingSandboxPolicy) : MessagesCleanPolicy :=
  fun now messages appToTenant =>
    if messages.isEmpty || appToTenant.isEmpty then []
    else
      let tenantPlans := p.planProvider (appToTenant.map (·.2)).dedup
      if tenantPlans.isEmpty then []
      else p.filterExpiredSandboxMessages now messages appToTenant tenantPlans

end BillingSandboxPolicy

/-- `MessagesCleanService`; its constructors reject a batch size that is not positive. -/
structure MessagesCleanService where
  policy : MessagesCleanPolicy
  endBefore : Nat
  startFrom : Option Nat
  batchSize : Nat
  dryRun : Bool
  batchSize_pos : 0 < batchSize

/-- What the messages are ordered by: `(created_at, id)`. -/
def SimpleMessage.key (m : SimpleMessage) : Nat ×ₗ String := toLex (m.createdAt, m.id)

/-- The statistics returned. -/
structure CleanStats where
  batches : Nat
  totalMessages : Nat
  filteredMessages : Nat
  totalDeleted : Nat
  deriving DecidableEq

/-- The state of the loop. `fetched` records the messages fetched so far. -/
structure CleanState where
  db : Database
  cursor : Option (Nat ×ₗ String)
  stats : CleanStats
  fetched : List SimpleMessage

namespace MessagesCleanService

variable (service : MessagesCleanService)

/-- The time range `[start_from, end_before)`. -/
def inWindow (m : SimpleMessage) : Bool :=
  decide (m.createdAt < service.endBefore) && service.startFrom.all fun t =>
    decide (t ≤ m.createdAt)

/-- Step 1: fetch a batch of messages, ordered, of those after the cursor if there is one. -/
def fetch (db : Database) (cursor : Option (Nat ×ₗ String)) : List SimpleMessage :=
  (Paging.orderBy SimpleMessage.key (db.messages.filter fun m =>
    service.inWindow m && Paging.after SimpleMessage.key cursor m)).take service.batchSize

/-- Step 2: the pairs of `app_to_tenant`. -/
def appToTenant (db : Database) (messages : List SimpleMessage) : List (String × String) :=
  (messages.map (·.appId)).dedup.filterMap fun appId =>
    (db.apps appId).map fun tenantId => (appId, tenantId)

/-- Steps 3 and 4 for a batch with apps. -/
def cleanMessages (now : Int) (messages : List SimpleMessage) (apps : List (String × String))
    (s : CleanState) : CleanState :=
  let ids := service.policy now messages apps
  if ids.isEmpty then s
  else
    let s := { s with
      stats := { s.stats with filteredMessages := s.stats.filteredMessages + ids.length } }
    if service.dryRun then s
    else
      let db := batchDeleteMessageRelations s.db ids
      let messagesDeleted := (db.messages.filter fun m => ids.contains m.id).length
      { s with
        db := db.deleteMessages ids
        stats := { s.stats with totalDeleted := s.stats.totalDeleted + messagesDeleted } }

/-- One round of the loop; the flag says that the loop goes on. -/
def cleanBatch (now : Int) (s : CleanState) : CleanState × Bool :=
  let messages := service.fetch s.db s.cursor
  let s := { s with
    fetched := s.fetched ++ messages
    stats := { s.stats with
      batches := s.stats.batches + 1
      totalMessages := s.stats.totalMessages + messages.length } }
  match messages.getLast? with
  | none => (s, false)
  | some last =>
    let s := { s with cursor := some last.key }
    let apps := appToTenant s.db messages
    if apps.isEmpty then (s, true) else (service.cleanMessages now messages apps s, true)

/-- The state before the first round. -/
def start (db : Database) : CleanState :=
  ⟨db, none, ⟨0, 0, 0, 0⟩, []⟩

/-- `while True`, for a number of rounds. `clock` gives the time at which the policy is asked
about a batch. -/
def loop (clock : Nat → Int) : Nat → CleanState → Option CleanState
  | 0, _ => none
  | fuel + 1, s =>
    match service.cleanBatch (clock (s.stats.batches + 1)) s with
    | (s', true) => loop clock fuel s'
    | (s', false) => some s'

/-- `_clean_messages_by_time_range`. -/
def cleanMessagesByTimeRange (clock : Nat → Int) (db : Database) : Option CleanState :=
  service.loop clock (db.messages.length + 1) (start db)

/-- The messages of the time range, in the order of the cursor. -/
def window (db : Database) : List SimpleMessage :=
  Paging.orderBy SimpleMessage.key (db.messages.filter service.inWindow)

/-- The messages of the time range in groups of the batch size. -/
def batch (db : Database) (i : Nat) : List SimpleMessage :=
  ((service.window db).drop (i * service.batchSize)).take service.batchSize

end MessagesCleanService

/-- A policy that judges each message on its own, by the message and the tenant of its app. -/
def JudgesAlone (policy : MessagesCleanPolicy)
    (judge : Int → SimpleMessage → Option String → Bool) : Prop :=
  ∀ now messages apps, policy now messages apps =
    (messages.filter fun m => judge now m (apps.lookup m.appId)).map (·.id)

/-- A policy selects messages of the batch only. -/
def SelectsFromBatch (policy : MessagesCleanPolicy) : Prop :=
  ∀ now messages apps, ∀ id ∈ policy now messages apps, id ∈ messages.map (·.id)

namespace MessagesCleanService

variable (service : MessagesCleanService) (clock : Nat → Int)
  (judge : Int → SimpleMessage → Option String → Bool) (db : Database)

/-- The policy selects a message of the group. -/
def SelectedIn (i : Nat) (m : SimpleMessage) : Prop :=
  m ∈ service.batch db i ∧ judge (clock (i + 1)) m (db.apps m.appId) = true

/-- Exactly the messages selected are gone, and exactly the rows related to them. -/
structure Cleaned (selected : SimpleMessage → Prop) (db db' : Database) : Prop where
  messages : ∀ m, m ∈ db'.messages ↔ m ∈ db.messages ∧ ¬ selected m
  related : ∀ table row, row ∈ db'.related table ↔
    row ∈ db.related table ∧ ∀ m, selected m → row.messageId ≠ some m.id
  apps : db'.apps = db.apps

/-- The loop ends, has fetched each message of the time range once, and has deleted what the
policy selects and nothing else; a dry run has deleted nothing. -/
def CleanupExact : Prop :=
  ∃ fuel s, service.loop clock fuel (start db) = some s ∧
    s.fetched.Perm (db.messages.filter service.inWindow) ∧
    if service.dryRun then s.db = db
    else Cleaned (fun m => ∃ i, service.SelectedIn clock judge db i m) db s.db

/-- The ids deleted when the loop comes to a group. -/
def deletedIn (i : Nat) : List String :=
  if (appToTenant db (service.batch db i)).isEmpty || service.dryRun then []
  else service.policy (clock (i + 1)) (service.batch db i) (appToTenant db (service.batch db i))

/-- What is left after the ids deleted in some of the groups. -/
structure Removed (passed : Nat → Prop) (db' : Database) : Prop where
  messages : ∀ m, m ∈ db'.messages ↔
    m ∈ db.messages ∧ ∀ j, passed j → m.id ∉ service.deletedIn clock db j
  related : ∀ table row, row ∈ db'.related table ↔ row ∈ db.related table ∧
    (table ∈ relationTables → ∀ j, passed j → ∀ id ∈ service.deletedIn clock db j,
      row.messageId ≠ some id)
  apps : db'.apps = db.apps
  dry : service.dryRun = true → db' = db

/-- The state before a round. -/
structure At (i : Nat) (s : CleanState) : Prop where
  batches : s.stats.batches = i
  bound : i ≤ (service.window db).length
  fetched : s.fetched = (service.window db).take (i * service.batchSize)
  cursor : s.cursor = Paging.cursorAt SimpleMessage.key (db.messages.filter service.inWindow)
    (i * service.batchSize)
  removed : service.Removed clock db (· < i) s.db

/-- The state when the loop has ended. -/
structure Ended (s : CleanState) : Prop where
  fetched : s.fetched = service.window db
  removed : service.Removed clock db (fun _ => True) s.db

end MessagesCleanService

@[simp] theorem Database.deleteMessages_related (db : Database) (ids : List String) :
    (db.deleteMessages ids).related = db.related := rfl

@[simp] theorem Database.deleteMessages_apps (db : Database) (ids : List String) :
    (db.deleteMessages ids).apps = db.apps := rfl

variable {ids : List String} {db : Database}

theorem Database.mem_deleteMessages {m : SimpleMessage} :
    m ∈ (db.deleteMessages ids).messages ↔ m ∈ db.messages ∧ m.id ∉ ids := by
  simp [Database.deleteMessages]

theorem Database.mem_deleteRelated {t table : RelatedTable}
    {row : RelatedRow} : row ∈ (db.deleteRelated ids t).related table ↔
      row ∈ db.related table ∧ (table = t → ∀ id ∈ ids, row.messageId ≠ some id) := by
  unfold Database.deleteRelated
  by_cases ht : table = t
  · subst ht
    cases hm : row.messageId with
    | none => simp [hm]
    | some id => simp only [Function.update_self, List.mem_filter, hm]; grind
  · simp [ht]

theorem mem_foldl_deleteRelated (ids : List String) (tables : List RelatedTable)
    (db : Database) (table : RelatedTable) (row : RelatedRow) :
    row ∈ (tables.foldl (Database.deleteRelated ids) db).related table ↔
      row ∈ db.related table ∧ (table ∈ tables → ∀ id ∈ ids, row.messageId ≠ some id) := by
  induction tables generalizing db with
  | nil => simp
  | cons t tables ih =>
    rw [List.foldl_cons, ih, Database.mem_deleteRelated, List.mem_cons, and_assoc]
    refine and_congr_right fun _ => ?_
    constructor
    · rintro ⟨h1, h2⟩ (h | h)
      · exact h1 h
      · exact h2 h
    · exact fun h => ⟨fun ht => h (.inl ht), fun ht => h (.inr ht)⟩

private theorem foldl_deleteRelated_keeps (ids : List String) (tables : List RelatedTable)
    (db : Database) : (tables.foldl (Database.deleteRelated ids) db).messages = db.messages ∧
      (tables.foldl (Database.deleteRelated ids) db).apps = db.apps := by
  induction tables generalizing db with
  | nil => exact ⟨rfl, rfl⟩
  | cons t tables ih => exact ih (db.deleteRelated ids t)

theorem mem_batchDeleteMessageRelations {table : RelatedTable} {row : RelatedRow} :
    row ∈ (batchDeleteMessageRelations db ids).related table ↔ row ∈ db.related table ∧
      (table ∈ relationTables → ∀ id ∈ ids, row.messageId ≠ some id) := by
  unfold batchDeleteMessageRelations
  split
  next h =>
    rw [List.isEmpty_iff.mp h]
    simp
  next => exact mem_foldl_deleteRelated ids relationTables db table row

@[simp] theorem batchDeleteMessageRelations_messages (db : Database) (ids : List String) :
    (batchDeleteMessageRelations db ids).messages = db.messages := by
  unfold batchDeleteMessageRelations
  split
  next => rfl
  next => exact (foldl_deleteRelated_keeps ids relationTables db).1

@[simp] theorem batchDeleteMessageRelations_apps (db : Database) (ids : List String) :
    (batchDeleteMessageRelations db ids).apps = db.apps := by
  unfold batchDeleteMessageRelations
  split
  next => rfl
  next => exact (foldl_deleteRelated_keeps ids relationTables db).2

namespace MessagesCleanService

variable {service : MessagesCleanService} {clock : Nat → Int} {db : Database} {i : Nat}
  {s s' : CleanState}

private theorem keys_nodup (db : Database) (p : SimpleMessage → Bool) :
    ((db.messages.filter p).map SimpleMessage.key).Nodup := by
  have hids := db.ids_nodup.sublist ((List.filter_sublist (p := p)).map (·.id))
  refine List.Nodup.of_map (fun k => (ofLex k).2) ?_
  rw [List.map_map]
  exact hids

theorem messages_nodup (db : Database) : db.messages.Nodup :=
  List.Nodup.of_map _ db.ids_nodup

variable {m : SimpleMessage}

theorem eq_of_id_eq {m' : SimpleMessage} (hm : m ∈ db.messages) (hm' : m' ∈ db.messages)
    (h : m.id = m'.id) : m = m' :=
  List.inj_on_of_nodup_map db.ids_nodup hm hm' h

private theorem lookup_filterMap (apps : String → Option String) (appIds : List String)
    (appId : String) :
    (appIds.filterMap fun a => (apps a).map fun t => (a, t)).lookup appId =
      if appId ∈ appIds then apps appId else none := by
  induction appIds with
  | nil => rfl
  | cons a appIds ih =>
    cases ha : apps a with
    | none =>
      rw [List.filterMap_cons_none (by simp [ha]), ih]
      by_cases h : appId = a
      · simp [h, ha]
      · simp [h]
    | some t =>
      rw [List.filterMap_cons_some (b := (a, t)) (by simp [ha]), List.lookup_cons, ih]
      by_cases h : appId = a
      · simp [h, ha]
      · simp [h, beq_false_of_ne h]

variable {messages : List SimpleMessage}

theorem lookup_appToTenant
    (hm : m ∈ messages) : (appToTenant db messages).lookup m.appId = db.apps m.appId := by
  have hmem : m.appId ∈ (messages.map (·.appId)).dedup :=
    List.mem_dedup.mpr (List.mem_map_of_mem hm)
  rw [appToTenant, lookup_filterMap, if_pos hmem]

theorem appToTenant_isEmpty :
    (appToTenant db messages).isEmpty = true ↔ ∀ m ∈ messages, db.apps m.appId = none := by
  simp [appToTenant, List.isEmpty_iff, List.filterMap_eq_nil_iff]

theorem mem_of_mem_batch (hm : m ∈ service.batch db i) :
    m ∈ db.messages ∧ service.inWindow m = true := by
  have hw := List.mem_of_mem_drop (List.mem_of_mem_take hm)
  exact List.mem_filter.mp (Paging.mem_orderBy.mp hw)

theorem deletedIn_eq_nil (h : service.batch db i = []) : service.deletedIn clock db i = [] := by
  unfold deletedIn
  rw [h, if_pos (by simp [appToTenant])]

theorem mem_batch_of_deletedIn (hpolicy : SelectsFromBatch service.policy) {id : String}
    (hid : id ∈ service.deletedIn clock db i) : ∃ m ∈ service.batch db i, m.id = id := by
  unfold deletedIn at hid
  split at hid
  next => cases hid
  next => exact List.mem_map.mp (hpolicy _ _ _ id hid)

variable {j fuel : Nat}

private theorem unseen_not_deleted (hpolicy : SelectsFromBatch service.policy)
    (hm : m ∈ (service.window db).drop (i * service.batchSize))
    (hj : j < i) : m.id ∉ service.deletedIn clock db j := by
  intro hid
  obtain ⟨m', hm', he⟩ := mem_batch_of_deletedIn hpolicy hid
  have hsame : m' = m := by
    refine eq_of_id_eq (mem_of_mem_batch hm').1 ?_ he
    exact (List.mem_filter.mp (Paging.mem_orderBy.mp (List.mem_of_mem_drop hm))).1
  have hseen : m' ∈ (service.window db).take (i * service.batchSize) := by
    have hle : j * service.batchSize + service.batchSize ≤ i * service.batchSize := by
      rw [← Nat.succ_mul]
      exact Nat.mul_le_mul_right _ hj
    rw [batch, List.take_drop] at hm'
    exact List.take_subset_take_left _ hle (List.mem_of_mem_drop hm')
  have hnodup : (service.window db).Nodup :=
    (Paging.orderBy_perm _).nodup_iff.mpr ((messages_nodup db).filter _)
  rw [← List.take_append_drop (i * service.batchSize) (service.window db)] at hnodup
  exact List.disjoint_of_nodup_append hnodup hseen (hsame ▸ hm)

theorem At.fetch_eq (h : service.At clock db i s) (hpolicy : SelectsFromBatch service.policy) :
    service.fetch s.db s.cursor = service.batch db i := by
  rw [fetch, batch, window]
  congr 1
  refine Paging.orderBy_eq_drop (keys_nodup db _) ((messages_nodup s.db).filter _) fun m => ?_
  rw [List.mem_filter, h.removed.messages, h.cursor, Bool.and_eq_true]
  constructor
  · rintro ⟨⟨hm, -⟩, hw, hafter⟩
    exact (Paging.mem_drop_iff (keys_nodup db _) _ m).mpr ⟨List.mem_filter.mpr ⟨hm, hw⟩, hafter⟩
  · intro hdrop
    obtain ⟨hm, hafter⟩ := (Paging.mem_drop_iff (keys_nodup db _) _ m).mp hdrop
    obtain ⟨hm, hw⟩ := List.mem_filter.mp hm
    exact ⟨⟨hm, fun j hj => unseen_not_deleted hpolicy hdrop hj⟩, hw, hafter⟩

theorem Removed.delete {db' : Database}
    (h : service.Removed clock db (· < i) db') (hdry : service.dryRun = false) {ids : List String}
    (hids : service.deletedIn clock db i = ids) :
    service.Removed clock db (· < i + 1)
      ((batchDeleteMessageRelations db' ids).deleteMessages ids) where
  messages m := by
    rw [Database.mem_deleteMessages, batchDeleteMessageRelations_messages, h.messages, and_assoc]
    refine and_congr_right fun _ => ⟨?_, ?_⟩
    · rintro ⟨hbefore, hnow⟩ j hj
      rcases Nat.lt_succ_iff_lt_or_eq.mp hj with hj | rfl
      · exact hbefore j hj
      · rwa [hids]
    · intro hall
      exact ⟨fun j hj => hall j (by omega), hids ▸ hall i (by omega)⟩
  related table row := by
    rw [Database.deleteMessages_related, mem_batchDeleteMessageRelations, h.related, and_assoc]
    refine and_congr_right fun _ => ⟨?_, ?_⟩
    · rintro ⟨hbefore, hnow⟩ ht j hj
      rcases Nat.lt_succ_iff_lt_or_eq.mp hj with hj | rfl
      · exact hbefore ht j hj
      · rw [hids]
        exact hnow ht
    · intro hall
      exact ⟨fun ht j hj => hall ht j (by omega), fun ht => hids ▸ hall ht i (by omega)⟩
  apps := by
    rw [Database.deleteMessages_apps, batchDeleteMessageRelations_apps, h.apps]
  dry ht := by rw [hdry] at ht; cases ht

theorem Removed.skip {db' : Database} (h : service.Removed clock db (· < i) db')
    (hids : service.deletedIn clock db i = []) : service.Removed clock db (· < i + 1) db' where
  messages m := by
    rw [h.messages]
    refine and_congr_right fun _ => ⟨fun hbefore j hj => ?_, fun hall j hj => hall j (by omega)⟩
    rcases Nat.lt_succ_iff_lt_or_eq.mp hj with hj | rfl
    · exact hbefore j hj
    · simp [hids]
  related table row := by
    rw [h.related]
    refine and_congr_right fun _ => ⟨fun hbefore ht j hj => ?_,
      fun hall ht j hj => hall ht j (by omega)⟩
    rcases Nat.lt_succ_iff_lt_or_eq.mp hj with hj | rfl
    · exact hbefore ht j hj
    · simp [hids]
  apps := h.apps
  dry := h.dry

private theorem cleanMessages_spec {apps : List (String × String)}
    (h : service.Removed clock db (· < i) s.db) (happs : apps.isEmpty = false)
    (he : apps = appToTenant db (service.batch db i)) :
    let s' := service.cleanMessages (clock (i + 1)) (service.batch db i) apps s
    service.Removed clock db (· < i + 1) s'.db ∧ s'.stats.batches = s.stats.batches ∧
      s'.fetched = s.fetched ∧ s'.cursor = s.cursor := by
  have hdel : service.deletedIn clock db i =
      if service.dryRun then [] else service.policy (clock (i + 1)) (service.batch db i) apps := by
    unfold deletedIn
    rw [← he, happs, Bool.false_or]
  unfold cleanMessages
  dsimp only
  split
  next hnone =>
    rw [List.isEmpty_iff.mp hnone, ite_self] at hdel
    exact ⟨h.skip hdel, rfl, rfl, rfl⟩
  next =>
    split
    next hdry =>
      rw [if_pos hdry] at hdel
      exact ⟨h.skip hdel, rfl, rfl, rfl⟩
    next hdry =>
      rw [if_neg hdry] at hdel
      exact ⟨h.delete (Bool.not_eq_true _ ▸ hdry) hdel, rfl, rfl, rfl⟩

theorem At.cleanBatch_end (h : service.At clock db i s) (hpolicy : SelectsFromBatch service.policy)
    (hend : service.batch db i = []) (now : Int) :
    ∃ s', service.cleanBatch now s = (s', false) ∧ service.Ended clock db s' := by
  have hlen : (service.window db).length ≤ i * service.batchSize := by
    have hpos := service.batchSize_pos
    rcases List.take_eq_nil_iff.mp hend with h | h
    · omega
    · exact List.drop_eq_nil_iff.mp h
  have hpast : ∀ j, ¬ j < i → service.deletedIn clock db j = [] := by
    intro j hj
    refine deletedIn_eq_nil ?_
    rw [batch, List.drop_eq_nil_of_le, List.take_nil]
    exact hlen.trans (Nat.mul_le_mul_right _ (not_lt.mp hj))
  unfold cleanBatch
  rw [h.fetch_eq hpolicy, hend]
  refine ⟨_, rfl, ?_, ?_, ?_, h.removed.apps, h.removed.dry⟩
  · dsimp only
    rw [h.fetched, List.take_of_length_le hlen, List.append_nil]
  · intro m
    rw [h.removed.messages]
    refine and_congr_right fun _ => ⟨fun hbefore j _ => ?_, fun hall j _ => hall j trivial⟩
    by_cases hj : j < i
    · exact hbefore j hj
    · simp [hpast j hj]
  · intro table row
    rw [h.removed.related]
    refine and_congr_right fun _ => ⟨fun hbefore ht j _ => ?_, fun hall ht j _ => hall ht j trivial⟩
    by_cases hj : j < i
    · exact hbefore ht j hj
    · simp [hpast j hj]

theorem At.cleanBatch_next (h : service.At clock db i s)
    (hpolicy : SelectsFromBatch service.policy) (hmore : service.batch db i ≠ []) :
    ∃ s', service.cleanBatch (clock (s.stats.batches + 1)) s = (s', true) ∧
      service.At clock db (i + 1) s' := by
  obtain ⟨last, hlast⟩ := Option.ne_none_iff_exists'.mp (mt List.getLast?_eq_none_iff.mp hmore)
  have hbound : i + 1 ≤ (service.window db).length := by
    have hdrop : i * service.batchSize < (service.window db).length := by
      by_contra hge
      exact hmore (by rw [batch, List.drop_eq_nil_of_le (not_lt.mp hge), List.take_nil])
    have := Nat.le_mul_of_pos_right i service.batchSize_pos
    omega
  have hfetched : s.fetched ++ service.batch db i =
      (service.window db).take ((i + 1) * service.batchSize) := by
    rw [h.fetched, batch, ← List.take_add, Nat.succ_mul]
  have hcursor : some last.key = Paging.cursorAt SimpleMessage.key
      (db.messages.filter service.inWindow) ((i + 1) * service.batchSize) := by
    rw [Nat.succ_mul]
    exact (Paging.cursorAt_add hlast).symm
  have hmapping : appToTenant s.db (service.batch db i) = appToTenant db (service.batch db i) := by
    rw [appToTenant, h.removed.apps, appToTenant]
  unfold cleanBatch
  rw [h.fetch_eq hpolicy, h.batches]
  dsimp only
  rw [hlast]
  dsimp only
  split
  next happs =>
    refine ⟨_, rfl, rfl, hbound, hfetched, hcursor, h.removed.skip ?_⟩
    rw [deletedIn, if_pos (by rw [← hmapping, happs, Bool.true_or])]
  next happs =>
    refine ⟨_, rfl, ?_⟩
    let before : CleanState := { s with
      fetched := s.fetched ++ service.batch db i
      stats := { s.stats with
        batches := i + 1
        totalMessages := s.stats.totalMessages + (service.batch db i).length }
      cursor := some last.key }
    have hbefore : service.Removed clock db (· < i) before.db := h.removed
    obtain ⟨hremoved, hb, hf, hc⟩ :=
      cleanMessages_spec hbefore (Bool.not_eq_true _ ▸ happs) hmapping
    exact ⟨hb, hbound, hf.trans hfetched, hc.trans hcursor, hremoved⟩

theorem At.ended_of_loop (h : service.At clock db i s) (hpolicy : SelectsFromBatch service.policy)
    (hloop : service.loop clock fuel s = some s') : service.Ended clock db s' := by
  induction fuel generalizing i s with
  | zero => cases hloop
  | succ fuel ih =>
    unfold loop at hloop
    by_cases hend : service.batch db i = []
    · obtain ⟨r, hr, hended⟩ := h.cleanBatch_end hpolicy hend (clock (s.stats.batches + 1))
      rw [hr] at hloop
      cases hloop
      exact hended
    · obtain ⟨r, hr, hnext⟩ := h.cleanBatch_next hpolicy hend
      rw [hr] at hloop
      exact ih hnext hloop

/-- The loop ends after as many rounds as there are messages in the time range, and one. -/
theorem At.loop_terminates (h : service.At clock db i s)
    (hpolicy : SelectsFromBatch service.policy) (hfuel : (service.window db).length < i + fuel) :
    ∃ s', service.loop clock fuel s = some s' := by
  induction fuel generalizing i s with
  | zero => exact absurd h.bound (by omega)
  | succ fuel ih =>
    unfold loop
    by_cases hend : service.batch db i = []
    · obtain ⟨r, hr, -⟩ := h.cleanBatch_end hpolicy hend (clock (s.stats.batches + 1))
      exact ⟨r, by rw [hr]⟩
    · obtain ⟨r, hr, hnext⟩ := h.cleanBatch_next hpolicy hend
      rw [hr]
      exact ih hnext (by omega)

theorem at_start (service : MessagesCleanService) (clock : Nat → Int) (db : Database) :
    service.At clock db 0 (start db) := by
  refine ⟨rfl, Nat.zero_le _, by simp [start], by simp [start, Paging.cursorAt], ?_, ?_, rfl,
    fun _ => rfl⟩
  · simp [start]
  · simp [start]

theorem cleanMessagesByTimeRange_terminates (hpolicy : SelectsFromBatch service.policy)
    (clock : Nat → Int) (db : Database) :
    ∃ s, service.cleanMessagesByTimeRange clock db = some s := by
  refine (at_start service clock db).loop_terminates hpolicy ?_
  rw [window, (Paging.orderBy_perm _).length_eq]
  have := List.length_filter_le service.inWindow db.messages
  omega

theorem eq_of_mem_batch (hi : m ∈ service.batch db i) (hj : m ∈ service.batch db j) : i = j := by
  have hnodup : (service.window db).Nodup :=
    (Paging.orderBy_perm _).nodup_iff.mpr ((messages_nodup db).filter _)
  have hbefore : ∀ {a b : Nat}, m ∈ service.batch db a → m ∈ service.batch db b → ¬ a < b := by
    intro a b ha hb hlt
    have hle : a * service.batchSize + service.batchSize ≤ b * service.batchSize := by
      rw [← Nat.succ_mul]
      exact Nat.mul_le_mul_right _ hlt
    rw [batch, List.take_drop] at ha
    rw [← List.take_append_drop (b * service.batchSize) (service.window db)] at hnodup
    exact List.disjoint_of_nodup_append hnodup
      (List.take_subset_take_left _ hle (List.mem_of_mem_drop ha)) (List.mem_of_mem_take hb)
  have h1 := hbefore hi hj
  have h2 := hbefore hj hi
  omega

end MessagesCleanService

end PlatformSpec.Retention
