import Mathlib.Data.List.Induction
import Mathlib.Data.List.Nodup
import Mathlib.Data.String.Basic
import Mathlib.Logic.Function.Basic

/-!
# The debug event bus

Models `core/trigger/debug/event_bus.py`. A call is one run of its script, or raises `RedisError`
before it. Keys do not expire.
-/

namespace PlatformSpec.Trigger.DebugEventBus

/-- The key of an inbox, as `poll` and `LUA_DISPATCH` write it. -/
def inboxKey (tenantId addressId : String) : String :=
  "trigger_debug_inbox:\x7b" ++ tenantId ++ "\x7d:" ++ addressId

theorem inboxKey_injective (tenantId : String) : Function.Injective (inboxKey tenantId) :=
  fun _ _ h => (String.append_right_inj _).mp h

/-! ## The scripts -/

/-- The inboxes and the waiting pools. A pool without members has no key. -/
structure Redis where
  inbox : String → Option String := fun _ => none
  pool : String → List String := fun _ => []

/-- `LUA_SELECT`. -/
def Redis.luaSelect (r : Redis) (address poolKey addressId : String) : Option String × Redis :=
  match r.inbox address with
  | some v => (some v, { r with inbox := Function.update r.inbox address none })
  | none => (none, { r with
      pool := Function.update r.pool poolKey ((r.pool poolKey).insert addressId) })

/-- `LUA_DISPATCH`. -/
def Redis.luaDispatch (r : Redis) (poolKey tenantId eventJson : String) : Nat × Redis :=
  let a := r.pool poolKey
  if a.length = 0 then (0, r)
  else (a.length, {
    inbox := a.foldl (fun inbox addressId =>
      Function.update inbox (inboxKey tenantId addressId) (some eventJson)) r.inbox
    pool := Function.update r.pool poolKey [] })

/-- What the bus calls: the JSON of an event, its validation (`none` where it raises) and
`hashlib.sha256(text.encode()).hexdigest()`. -/
structure Library (Event EventType : Type) where
  modelDumpJson : Event → String
  modelValidateJson : EventType → String → Option Event
  sha256 : String → String

/-- A call, and whether its script is run. -/
inductive Call (Event EventType : Type) where
  | dispatch (runs : Bool) (tenantId : String) (event : Event) (poolKey : String)
  | poll (runs : Bool) (eventType : EventType) (poolKey tenantId userId appId nodeId : String)

inductive Reply (Event : Type) where
  | dispatched (count : Nat)
  | polled (event : Option Event)
  | validationError
  deriving DecidableEq

variable {Event EventType : Type} (lib : Library Event EventType)

/-- The id of the address of a poll. -/
def Library.addressId (userId appId nodeId : String) : String :=
  lib.sha256 (userId ++ "|" ++ appId ++ "|" ++ nodeId)

/-- `dispatch` and `poll`. -/
def Redis.call (r : Redis) : Call Event EventType → Reply Event × Redis
  | .dispatch true tenantId event poolKey =>
    let (result, r') := r.luaDispatch poolKey tenantId (lib.modelDumpJson event)
    (.dispatched result, r')
  | .dispatch false _ _ _ => (.dispatched 0, r)
  | .poll true eventType poolKey tenantId userId appId nodeId =>
    let addressId := lib.addressId userId appId nodeId
    let (eventData, r') := r.luaSelect (inboxKey tenantId addressId) poolKey addressId
    match eventData with
    | none => (.polled none, r')
    | some eventData =>
      if eventData = "" then (.polled none, r')
      else match lib.modelValidateJson eventType eventData with
        | some event => (.polled (some event), r')
        | none => (.validationError, r')
  | .poll false _ _ _ _ _ _ => (.polled none, r)

/-- Redis after calls that ran one after another. -/
def after (calls : List (Call Event EventType)) : Redis :=
  calls.foldl (fun r c => (r.call lib c).2) {}

/-! ## Use of the bus -/

/-- The one pool that an address waits in, the tenant in the key of a pool, and the type of its
events. -/
structure Wiring (EventType : Type) where
  poolKey : String → String
  tenantId : String → String
  eventType : String → EventType

/-- A call uses the pool of its address, for its tenant, and the events of the pool are read as they
were written. -/
def Wiring.Fits (w : Wiring EventType) : Call Event EventType → Prop
  | .dispatch _ tenantId event poolKey => w.tenantId poolKey = tenantId ∧
      lib.modelDumpJson event ≠ "" ∧
      lib.modelValidateJson (w.eventType poolKey) (lib.modelDumpJson event) = some event
  | .poll _ eventType poolKey tenantId userId appId nodeId => w.tenantId poolKey = tenantId ∧
      w.poolKey (inboxKey tenantId (lib.addressId userId appId nodeId)) = poolKey ∧
      w.eventType poolKey = eventType

/-- The call is a poll of an address. -/
def Call.Polls (address : String) : Call Event EventType → Prop
  | .poll true _ _ tenantId userId appId nodeId =>
    inboxKey tenantId (lib.addressId userId appId nodeId) = address
  | _ => False

/-- The call dispatches an event while an address is waiting. -/
def Call.Stores (r : Redis) (address : String) (event : Event) (c : Call Event EventType) : Prop :=
  ∃ tenantId poolKey, c = .dispatch true tenantId event poolKey ∧
    ∃ addressId ∈ r.pool poolKey, inboxKey tenantId addressId = address

/-- The event that the call after `pre` dispatched is the address's, and was not polled since. -/
def Undelivered (calls : List (Call Event EventType)) (address : String) (event : Event)
    (pre : List (Call Event EventType)) : Prop :=
  ∃ c mid, calls = pre ++ c :: mid ∧ c.Stores (after lib pre) address event ∧
    ∀ d ∈ mid, ¬ d.Polls lib address

variable {lib} {w : Wiring EventType} {r : Redis} {calls : List (Call Event EventType)}
  {c : Call Event EventType} {address : String} {event : Event}

theorem after_concat : after lib (calls ++ [c]) = ((after lib calls).call lib c).2 := by
  simp [after]

/-! ## One call -/

private theorem foldl_update (tenantId eventJson : String) (a : List String)
    (inbox : String → Option String) (key : String) :
    a.foldl (fun inbox addressId =>
        Function.update inbox (inboxKey tenantId addressId) (some eventJson)) inbox key =
      if ∃ addressId ∈ a, inboxKey tenantId addressId = key then some eventJson
      else inbox key := by
  induction a generalizing inbox with
  | nil => simp
  | cons addressId a ih =>
    rw [List.foldl_cons, ih, Function.update_apply]
    simp only [List.exists_mem_cons_iff, @eq_comm _ key]
    by_cases hlater : ∃ addressId ∈ a, inboxKey tenantId addressId = key
    · simp only [hlater, or_true, if_true]
    · simp only [hlater, or_false, if_false]

private theorem inbox_luaDispatch (poolKey tenantId eventJson key : String) :
    (r.luaDispatch poolKey tenantId eventJson).2.inbox key =
      if ∃ addressId ∈ r.pool poolKey, inboxKey tenantId addressId = key then some eventJson
      else r.inbox key := by
  unfold Redis.luaDispatch
  by_cases hnone : (r.pool poolKey).length = 0
  · rw [if_pos hnone, List.length_eq_zero_iff.mp hnone]
    simp
  · rw [if_neg hnone]
    exact foldl_update tenantId eventJson _ _ _

private theorem pool_luaDispatch (poolKey tenantId eventJson : String) :
    (r.luaDispatch poolKey tenantId eventJson).2.pool = Function.update r.pool poolKey [] := by
  unfold Redis.luaDispatch
  by_cases hnone : (r.pool poolKey).length = 0
  · rw [if_pos hnone, ← List.length_eq_zero_iff.mp hnone, Function.update_eq_self]
  · rw [if_neg hnone]

private theorem inbox_luaSelect (key poolKey addressId : String) :
    (r.luaSelect key poolKey addressId).2.inbox = Function.update r.inbox key none := by
  unfold Redis.luaSelect
  split
  next => rfl
  next hnone => exact (hnone ▸ Function.update_eq_self key r.inbox).symm

private theorem pool_luaSelect (key poolKey addressId other : String) :
    (r.luaSelect key poolKey addressId).2.pool other =
      if r.inbox key = none ∧ other = poolKey then (r.pool poolKey).insert addressId
      else r.pool other := by
  unfold Redis.luaSelect
  split
  next hsome => simp [hsome]
  next hnone => simp [hnone, Function.update_apply]

private theorem call_poll (eventType : EventType) (poolKey tenantId userId appId nodeId : String) :
    (r.call lib (.poll true eventType poolKey tenantId userId appId nodeId)).2 =
      (r.luaSelect (inboxKey tenantId (lib.addressId userId appId nodeId)) poolKey
        (lib.addressId userId appId nodeId)).2 := by
  simp only [Redis.call]
  split
  next => rfl
  next =>
    split
    next => rfl
    next => split <;> rfl

private theorem inbox_call (hpolls : ¬ c.Polls lib address)
    (hstores : ∀ event, ¬ c.Stores r address event) :
    (r.call lib c).2.inbox address = r.inbox address := by
  cases c with
  | dispatch runs tenantId event poolKey =>
    cases runs with
    | false => rfl
    | true =>
      have hnone : ¬ ∃ addressId ∈ r.pool poolKey, inboxKey tenantId addressId = address :=
        fun h => hstores event ⟨tenantId, poolKey, rfl, h⟩
      exact (inbox_luaDispatch poolKey tenantId _ address).trans (if_neg hnone)
  | poll runs eventType poolKey tenantId userId appId nodeId =>
    cases runs with
    | false => rfl
    | true =>
      rw [call_poll, inbox_luaSelect]
      exact Function.update_of_ne (Ne.symm hpolls) _ _

theorem inbox_of_polls (h : c.Polls lib address) :
    (r.call lib c).2.inbox address = none := by
  cases c with
  | dispatch => exact absurd h id
  | poll runs eventType poolKey tenantId userId appId nodeId =>
    cases runs with
    | false => exact absurd h id
    | true =>
      cases h
      rw [call_poll, inbox_luaSelect, Function.update_self]

theorem inbox_of_stores (h : c.Stores r address event) :
    (r.call lib c).2.inbox address = some (lib.modelDumpJson event) := by
  obtain ⟨tenantId, poolKey, rfl, hwaits⟩ := h
  exact (inbox_luaDispatch poolKey tenantId _ address).trans (if_pos hwaits)

/-! ## Every run -/

/-- An address that waits has an empty inbox, and waits in its own pool, once. -/
structure Apart (w : Wiring EventType) (r : Redis) : Prop where
  nodup : ∀ poolKey, (r.pool poolKey).Nodup
  empty : ∀ poolKey, ∀ addressId ∈ r.pool poolKey,
    r.inbox (inboxKey (w.tenantId poolKey) addressId) = none
  own : ∀ poolKey, ∀ addressId ∈ r.pool poolKey,
    w.poolKey (inboxKey (w.tenantId poolKey) addressId) = poolKey

theorem Apart.dispatch (h : Apart w r) (poolKey eventJson : String) :
    Apart w (r.luaDispatch poolKey (w.tenantId poolKey) eventJson).2 := by
  have hpool := @pool_luaDispatch r poolKey (w.tenantId poolKey) eventJson
  refine ⟨fun key => ?_, fun key addressId hmem => ?_, fun key addressId hmem => ?_⟩
  · rw [hpool, Function.update_apply]
    split
    · exact List.nodup_nil
    · exact h.nodup key
  · rw [hpool, Function.update_apply] at hmem
    split at hmem
    · cases hmem
    · next hne =>
      rw [inbox_luaDispatch, if_neg, h.empty key addressId hmem]
      rintro ⟨other, hother, hsame⟩
      -- both would wait in the one pool of the address
      apply hne
      rw [← h.own key addressId hmem, ← hsame, h.own poolKey other hother]
  · rw [hpool, Function.update_apply] at hmem
    split at hmem
    · cases hmem
    · exact h.own key addressId hmem

theorem Apart.poll (h : Apart w r) {poolKey addressId : String}
    (hown : w.poolKey (inboxKey (w.tenantId poolKey) addressId) = poolKey) :
    Apart w (r.luaSelect (inboxKey (w.tenantId poolKey) addressId) poolKey addressId).2 := by
  have hmem : ∀ {key id},
      id ∈ (r.luaSelect (inboxKey (w.tenantId poolKey) addressId) poolKey addressId).2.pool key →
      id ∈ r.pool key ∨ key = poolKey ∧ id = addressId := by
    intro key id hid
    rw [pool_luaSelect] at hid
    split at hid
    next hkey =>
      rw [hkey.2]
      exact (List.mem_insert_iff.mp hid).symm.imp_right fun he => ⟨rfl, he⟩
    next => exact .inl hid
  refine ⟨fun key => ?_, fun key id hid => ?_, fun key id hid => ?_⟩
  · rw [pool_luaSelect]
    split
    · exact (h.nodup poolKey).insert
    · exact h.nodup key
  · rw [inbox_luaSelect, Function.update_apply]
    split
    next => rfl
    next hne =>
      rcases hmem hid with hid | ⟨rfl, rfl⟩
      · exact h.empty key id hid
      · exact absurd rfl hne
  · rcases hmem hid with hid | ⟨rfl, rfl⟩
    · exact h.own key id hid
    · exact hown

theorem Apart.call (h : Apart w r) (hfits : w.Fits lib c) : Apart w (r.call lib c).2 := by
  cases c with
  | dispatch runs tenantId event poolKey =>
    obtain ⟨rfl, -, -⟩ := hfits
    cases runs with
    | false => exact h
    | true => exact h.dispatch poolKey _
  | poll runs eventType poolKey tenantId userId appId nodeId =>
    obtain ⟨rfl, hown, -⟩ := hfits
    cases runs with
    | false => exact h
    | true =>
      rw [call_poll]
      exact h.poll hown

theorem apart_after (h : ∀ c ∈ calls, w.Fits lib c) : Apart w (after lib calls) := by
  induction calls using List.reverseRecOn with
  | nil => exact ⟨fun _ => List.nodup_nil, fun _ _ h => (by cases h), fun _ _ h => (by cases h)⟩
  | append_singleton calls c ih =>
    rw [after_concat]
    exact (ih fun d hd => h d (List.mem_append_left _ hd)).call (h c (by simp))

theorem Apart.of_stores (h : Apart w r) (hfits : w.Fits lib c)
    (hstores : c.Stores r address event) :
    r.inbox address = none := by
  obtain ⟨tenantId, poolKey, rfl, addressId, hmem, rfl⟩ := hstores
  obtain ⟨rfl, -, -⟩ := hfits
  exact h.empty poolKey addressId hmem

/-- What is undelivered was dispatched last, or was undelivered and is not polled now. -/
theorem undelivered_concat_iff {pre : List (Call Event EventType)} :
    Undelivered lib (calls ++ [c]) address event pre ↔
      pre = calls ∧ c.Stores (after lib calls) address event ∨
        Undelivered lib calls address event pre ∧ ¬ c.Polls lib address := by
  constructor
  · rintro ⟨d, mid, he, hstores, hmid⟩
    rcases List.eq_nil_or_concat mid with rfl | ⟨mid, last, rfl⟩
    · obtain ⟨rfl, hlast⟩ := List.append_inj' he rfl
      cases hlast
      exact .inl ⟨rfl, hstores⟩
    · rw [List.concat_eq_append, ← List.cons_append, ← List.append_assoc] at he
      obtain ⟨rfl, hlast⟩ := List.append_inj' he rfl
      cases hlast
      exact .inr ⟨⟨d, mid, rfl, hstores, fun x hx => hmid x (by simp [hx])⟩, hmid c (by simp)⟩
  · rintro (⟨rfl, hstores⟩ | ⟨⟨d, mid, rfl, hstores, hmid⟩, hpolls⟩)
    · exact ⟨c, [], rfl, hstores, fun _ h => by cases h⟩
    · refine ⟨d, mid ++ [c], by simp, hstores, fun x hx => ?_⟩
      rcases List.mem_append.mp hx with hx | hx
      · exact hmid x hx
      · rw [List.mem_singleton.mp hx]
        exact hpolls

/-- An inbox holds the undelivered event of its address: there is at most one. -/
theorem inbox_after (h : ∀ c ∈ calls, w.Fits lib c) (address : String) :
    ((after lib calls).inbox address = none ∧
      ∀ event pre, ¬ Undelivered lib calls address event pre) ∨
    ∃ event pre, (after lib calls).inbox address = some (lib.modelDumpJson event) ∧
      Undelivered lib calls address event pre ∧
      ∀ event' pre', Undelivered lib calls address event' pre' → event' = event ∧ pre' = pre := by
  induction calls using List.reverseRecOn with
  | nil =>
    refine .inl ⟨rfl, ?_⟩
    rintro event pre ⟨c, mid, he, -⟩
    cases pre <;> cases he
  | append_singleton calls c ih =>
    have hbefore : ∀ c ∈ calls, w.Fits lib c := fun d hd => h d (List.mem_append_left _ hd)
    have hc := h c (by simp)
    have ih := ih hbefore
    simp only [undelivered_concat_iff, after_concat]
    by_cases hpolls : c.Polls lib address
    · refine .inl ⟨inbox_of_polls hpolls, ?_⟩
      rintro event pre (⟨-, tenantId, poolKey, rfl, -⟩ | ⟨-, hnot⟩)
      · exact hpolls
      · exact hnot hpolls
    · by_cases hstores : ∃ event, c.Stores (after lib calls) address event
      · obtain ⟨event, hstores⟩ := hstores
        have hnone := (apart_after hbefore).of_stores hc hstores
        have hno := (ih.resolve_right (by
          rintro ⟨event, pre, hsome, -⟩
          rw [hnone] at hsome
          cases hsome)).2
        refine .inr ⟨event, calls, inbox_of_stores hstores, .inl ⟨rfl, hstores⟩, ?_⟩
        rintro event' pre' (⟨rfl, hstores'⟩ | ⟨hundelivered, -⟩)
        · obtain ⟨tenantId, poolKey, rfl, -⟩ := hstores
          obtain ⟨tenantId', poolKey', he, -⟩ := hstores'
          cases he
          exact ⟨rfl, rfl⟩
        · exact absurd hundelivered (hno event' pre')
      · have hnot : ∀ event, ¬ c.Stores (after lib calls) address event :=
          fun event h' => hstores ⟨event, h'⟩
        simp only [inbox_call hpolls hnot, hnot, and_false, false_or, hpolls, not_false_eq_true,
          and_true]
        exact ih

private theorem reply_poll {eventType : EventType}
    {poolKey tenantId userId appId nodeId : String} :
    (r.inbox (inboxKey tenantId (lib.addressId userId appId nodeId)) = none →
      (r.call lib (.poll true eventType poolKey tenantId userId appId nodeId)).1 = .polled none) ∧
    ∀ event, r.inbox (inboxKey tenantId (lib.addressId userId appId nodeId)) =
        some (lib.modelDumpJson event) → lib.modelDumpJson event ≠ "" →
      lib.modelValidateJson eventType (lib.modelDumpJson event) = some event →
      (r.call lib (.poll true eventType poolKey tenantId userId appId nodeId)).1 =
        .polled (some event) := by
  refine ⟨fun hnone => ?_, fun event hsome hne hvalid => ?_⟩
  · simp only [Redis.call, Redis.luaSelect, hnone]
  · simp only [Redis.call, Redis.luaSelect, hsome, if_neg hne, hvalid]

/-- What a run of the bus does. -/
structure DeliversOnce (lib : Library Event EventType) (w : Wiring EventType)
    (calls : List (Call Event EventType)) : Prop where
  apart : ∀ poolKey, ∀ addressId ∈ (after lib calls).pool poolKey,
    (after lib calls).inbox (inboxKey (w.tenantId poolKey) addressId) = none
  dispatched : ∀ before runs tenantId event poolKey post,
    calls = before ++ .dispatch runs tenantId event poolKey :: post →
    ∃ addresses : List String, addresses.Nodup ∧
      ((after lib before).call lib (.dispatch runs tenantId event poolKey)).1 =
        .dispatched addresses.length ∧
      (∀ address, address ∈ addresses ↔
        Call.Stores (after lib before) address event
          (.dispatch runs tenantId event poolKey : Call Event EventType)) ∧
      ∀ address ∈ addresses, (after lib before).inbox address = none ∧
        ((after lib before).call lib (.dispatch runs tenantId event poolKey)).2.inbox address =
          some (lib.modelDumpJson event)
  polled : ∀ before eventType poolKey tenantId userId appId nodeId post,
    calls = before ++ .poll true eventType poolKey tenantId userId appId nodeId :: post →
    let address := inboxKey tenantId (lib.addressId userId appId nodeId)
    let reply := ((after lib before).call lib
      (.poll true eventType poolKey tenantId userId appId nodeId)).1
    (reply = .polled none ∧ ∀ event pre, ¬ Undelivered lib before address event pre) ∨
      ∃ event pre, reply = .polled (some event) ∧ Undelivered lib before address event pre ∧
        ∀ event' pre', Undelivered lib before address event' pre' → event' = event ∧ pre' = pre

/-- Whatever the interleaving of polls and dispatches: no address waits while its inbox holds an
event; a dispatch stores its event in the empty inboxes of as many addresses as it returns; the next
poll of such an address returns that event, and a poll returns no other. -/
theorem delivers_once (h : ∀ c ∈ calls, w.Fits lib c) : DeliversOnce lib w calls := by
  refine ⟨(apart_after h).empty, ?_, ?_⟩
  · rintro before runs tenantId event poolKey post rfl
    have hbefore := apart_after (fun d hd => h d (List.mem_append_left _ hd))
    have hc := h (.dispatch runs tenantId event poolKey) (by simp)
    cases runs with
    | false =>
      refine ⟨[], List.nodup_nil, rfl, fun address => ?_, fun _ h => by cases h⟩
      apply iff_of_false (List.not_mem_nil)
      rintro ⟨_, _, he, -⟩
      cases he
    | true =>
      have hmem : ∀ address, address ∈ ((after lib before).pool poolKey).map (inboxKey tenantId) ↔
          Call.Stores (after lib before) address event
            (.dispatch true tenantId event poolKey : Call Event EventType) := by
        intro address
        rw [List.mem_map]
        constructor
        · exact fun hwaits => ⟨tenantId, poolKey, rfl, hwaits⟩
        · rintro ⟨tenantId', poolKey', he, hwaits⟩
          cases he
          exact hwaits
      refine ⟨((after lib before).pool poolKey).map (inboxKey tenantId),
        (hbefore.nodup poolKey).map (inboxKey_injective tenantId), ?_, hmem, ?_⟩
      · rw [List.length_map]
        simp only [Redis.call, Redis.luaDispatch]
        split
        next hnone => rw [hnone]
        next => rfl
      · intro address haddress
        have hstores := (hmem address).mp haddress
        exact ⟨hbefore.of_stores hc hstores, inbox_of_stores hstores⟩
  · rintro before eventType poolKey tenantId userId appId nodeId post rfl
    have hbefore : ∀ c ∈ before, w.Fits lib c := fun d hd => h d (List.mem_append_left _ hd)
    obtain ⟨htag, hown, htype⟩ := h (.poll true eventType poolKey tenantId userId appId nodeId)
      (by simp)
    rcases inbox_after hbefore (inboxKey tenantId (lib.addressId userId appId nodeId)) with
      ⟨hnone, hno⟩ | ⟨event, pre, hsome, hundelivered, hunique⟩
    · exact .inl ⟨reply_poll.1 hnone, hno⟩
    · refine .inr ⟨event, pre, ?_, hundelivered, hunique⟩
      obtain ⟨c, mid, rfl, ⟨tenantId', poolKey', rfl, addressId, hmem, hsame⟩, -⟩ := hundelivered
      obtain ⟨rfl, hne, hvalid⟩ := hbefore _ (List.mem_append_right _ List.mem_cons_self)
      -- the event came from the pool of the address
      have hpool : poolKey' = poolKey := by
        rw [← (apart_after fun d hd => hbefore d (List.mem_append_left _ hd)).own poolKey'
          addressId hmem, hsame, hown]
      rw [hpool, htype] at hvalid
      exact reply_poll.2 event hsome hne hvalid

/-- Events of a timestamp alone. -/
private def timestamps : Library Bool Unit where
  modelDumpJson b := if b then "\x7b\"timestamp\":1\x7d" else "\x7b\"timestamp\":0\x7d"
  modelValidateJson _ text :=
    if text = "\x7b\"timestamp\":1\x7d" then some true
    else if text = "\x7b\"timestamp\":0\x7d" then some false
    else none
  sha256 _ := "7b542cc5c84f5b01969a42a0b19970e109e57944050ab5c7ed36cea33fb87464"

private def webhookPool : String := "webhook_trigger_debug_waiting_pool:\x7bt\x7d:a:n"

private def webhookWiring : Wiring Unit := ⟨fun _ => webhookPool, fun _ => "t", fun _ => ()⟩

private def webhookPoll : Call Bool Unit := .poll true () webhookPool "t" "u" "a" "n"

private def webhookEvent : Call Bool Unit := .dispatch true "t" true webhookPool

/-- The second poll returns the event dispatched after the first, the third nothing. -/
theorem delivers_once_webhook :
    DeliversOnce timestamps webhookWiring [webhookPoll, webhookEvent, webhookPoll] ∧
      ((after timestamps [webhookPoll, webhookEvent]).call timestamps webhookPoll).1 =
        .polled (some true) ∧
      ((after timestamps [webhookPoll, webhookEvent, webhookPoll]).call timestamps
        webhookPoll).1 = .polled none := by
  have hpoll : webhookWiring.Fits timestamps webhookPoll := ⟨rfl, rfl, rfl⟩
  have hevent : webhookWiring.Fits timestamps webhookEvent := ⟨rfl, by decide, by decide⟩
  refine ⟨delivers_once ?_, by decide +kernel, by decide +kernel⟩
  rw [List.forall_mem_cons, List.forall_mem_cons, List.forall_mem_singleton]
  exact ⟨hpoll, hevent, hpoll⟩

end PlatformSpec.Trigger.DebugEventBus
