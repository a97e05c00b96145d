import PlatformSpec.Base.Run
import PlatformSpec.RuoYi.Chat

/-!
# Conversations and their owners

What an event may change, and when the messages and the statistics of a conversation are changed
by its owner only.
-/

namespace PlatformSpec.RuoYi.Chat

open Base

namespace Tables

/-- The owner of a conversation. -/
def owner (t : Tables) (id : Int) : Option Int := (t.select id).map AiChatConversation.userId

/-- The messages of a conversation. -/
def messagesOf (t : Tables) (id : Int) : List AiChatMessage :=
  t.messages.filter fun m => decide (m.conversationId = id)

/-- The statistics of a conversation. -/
def stats (t : Tables) (id : Int) : Option (Nat × Option Int) :=
  (t.select id).map fun c => (c.messageCount, c.lastMessageTime)

end Tables

/-- The user whose request an event belongs to. -/
def requester (s : ChatState) : Event → Option Int
  | .request r => some r.userId
  | .answer i _ _ | .partialResponse i _ | .completeResponse i _ | .error i _ =>
    s.exchanges[i]?.map Exchange.userId

/-- A conversation belongs to a user, before and after. -/
def BelongsTo (t t' : Tables) (user id : Int) : Prop :=
  t'.owner id = some user ∧ ∀ u, t.owner id = some u → u = user

/-- An event changes the messages and statistics of its user's conversations only and hands back
no id of another's. -/
def Isolated (s : ChatState) (e : Event) : Prop :=
  ∀ s' response user, respond s e = some (s', response) → requester s e = some user →
    (∀ id, s'.tables.messagesOf id ≠ s.tables.messagesOf id ∨
        s'.tables.stats id ≠ s.tables.stats id → BelongsTo s.tables s'.tables user id) ∧
      ∀ id, response.handedBack = some id → BelongsTo s.tables s'.tables user id

/-- The endpoints that compare the owner with the user. -/
def Endpoint.comparesOwner : Endpoint → Bool
  | .chatWithConversation => true
  | .chatWithKnowledge => true
  | .chatStreamWithKnowledge => false
  | .chatStreamWithConversation => false
  | .saveMessages _ => false

/-- A request names a conversation of another user. -/
def Foreign (t : Tables) (r : Request) : Prop :=
  ∃ id u, r.conversationId = some id ∧ 0 < id ∧ t.owner id = some u ∧ u ≠ r.userId

/-- An event is no request for the conversation of another user at an endpoint that does not
compare the owner. -/
def Allowed (s : ChatState) : Event → Prop
  | .request r => r.endpoint.comparesOwner = false → ¬ Foreign s.tables r
  | _ => True

/-- Every exchange is about a conversation of its user. -/
def Consistent (s : ChatState) : Prop :=
  ∀ x ∈ s.exchanges, s.tables.owner x.conversationId = some x.userId

section Tables

variable {t : Tables} {id : Int}

namespace Tables

theorem select_eq_none (h : t.nextId ≤ id) : t.select id = none := by
  rw [select, List.find?_eq_none]
  intro c hc
  have := t.fresh c hc
  rw [decide_eq_true_iff]
  omega

/-- What `select` finds after an update: the same row, with another count and time. -/
theorem select_updateConversation (conversationId : Int) (n : Nat) (now : Int) :
    (t.updateConversation conversationId n now).select id =
      (t.select id).map fun c => if c.conversationId = conversationId then
        { c with messageCount := n, lastMessageTime := some now, updateTime := some now }
        else c := by
  have hid (c : AiChatConversation) :
      (if c.conversationId = conversationId then
        { c with messageCount := n, lastMessageTime := some now, updateTime := some now }
        else c).conversationId = c.conversationId := by
    split
    next => rfl
    next => rfl
  rw [select, updateConversation, List.find?_map, select]
  congr 2
  funext c
  simp only [Function.comp_apply, hid]

theorem conversationId_of_select {c : AiChatConversation} (h : t.select id = some c) :
    c.conversationId = id := by
  simpa using List.find?_some h

theorem select_insertConversation {row : Int → AiChatConversation}
    (hid : ∀ id, (row id).conversationId = id) :
    (t.insertConversation row hid).select id =
      if id = t.nextId then some (row t.nextId) else t.select id := by
  rw [select, insertConversation, List.find?_append]
  split
  next he =>
    have hnone : t.select t.nextId = none := select_eq_none (Int.le_refl _)
    rw [select] at hnone
    rw [he, hnone, List.find?_singleton, hid, if_pos (by simp), Option.none_or]
  next he =>
    have hne : ¬ t.nextId = id := fun h => he h.symm
    rw [List.find?_singleton, hid, decide_eq_false hne, if_neg (by decide), Option.or_none, select]

end Tables

/-- What storing a message does: it is added to its conversation, whose statistics change; the
owners and everything else stay. -/
structure Writes (t t' : Tables) (conversationId : Int) : Prop where
  owner : ∀ id, t'.owner id = t.owner id
  messages : ∀ id, id ≠ conversationId → t'.messagesOf id = t.messagesOf id
  stats : ∀ id, id ≠ conversationId → t'.stats id = t.stats id
  longer : (t.messagesOf conversationId).length < (t'.messagesOf conversationId).length

variable {t' t'' : Tables}

private theorem writes_message (message : AiChatMessage) (now : Int) :
    Writes t (updateConversationStats (t.insertMessage message) message.conversationId now)
      message.conversationId where
  owner i := by
    rw [Tables.owner, updateConversationStats, Tables.select_updateConversation, Option.map_map,
      Tables.owner]
    congr 1
    funext c
    rw [Function.comp_apply]
    split
    next => rfl
    next => rfl
  messages i hi := by
    have hne : ¬ message.conversationId = i := fun he => hi he.symm
    rw [Tables.messagesOf, updateConversationStats, Tables.updateConversation,
      Tables.insertMessage, List.filter_append, List.filter_singleton]
    simp [Tables.messagesOf, hne]
  stats i hi := by
    rw [Tables.stats, updateConversationStats, Tables.select_updateConversation, Option.map_map,
      Tables.stats]
    refine Option.map_congr fun c hc => ?_
    have hid := Tables.conversationId_of_select (t := t) hc
    rw [Function.comp_apply, if_neg]
    rw [hid]
    exact hi
  longer := by
    rw [Tables.messagesOf, Tables.messagesOf, updateConversationStats, Tables.updateConversation,
      Tables.insertMessage, List.filter_append, List.length_append, List.filter_singleton]
    simp

theorem writes_sendMessage (content : Text) (now : Int) :
    Writes t (sendMessage t id content now) id :=
  writes_message ⟨id, .user, content, none, none, '0', now⟩ now

theorem writes_saveAiReply (answer : Text) (name : Str) (cost now : Int) :
    Writes t (saveAiReply t id answer name cost now) id :=
  writes_message ⟨id, .assistant, answer, some name, some cost, '0', now⟩ now

/-- What a request or an answer does to the tables: the messages of one conversation get longer,
its owner is the one it had, if any, and everything else stays. -/
structure Touches (t t' : Tables) (conversationId user : Int) : Prop where
  owner : t'.owner conversationId = some user
  before : ∀ u, t.owner conversationId = some u → u = user
  keep : ∀ id u, t.owner id = some u → t'.owner id = some u
  messages : ∀ id, id ≠ conversationId → t'.messagesOf id = t.messagesOf id
  stats : ∀ id, id ≠ conversationId → t'.stats id = t.stats id
  longer : (t.messagesOf conversationId).length < (t'.messagesOf conversationId).length

theorem Writes.touches {user : Int} (h : Writes t t' id)
    (howner : t.owner id = some user) : Touches t t' id user where
  owner := (h.owner id).trans howner
  before _ hu := Option.some.inj (hu.symm.trans howner)
  keep i _ hu := (h.owner i).trans hu
  messages := h.messages
  stats := h.stats
  longer := h.longer

theorem Touches.trans {user : Int} (h : Touches t t' id user)
    (hw : Writes t' t'' id) : Touches t t'' id user where
  owner := (hw.owner id).trans h.owner
  before := h.before
  keep i u hu := (hw.owner i).trans (h.keep i u hu)
  messages i hi := (hw.messages i hi).trans (h.messages i hi)
  stats i hi := (hw.stats i hi).trans (h.stats i hi)
  longer := h.longer.trans hw.longer

private theorem touches_createConversation (userId : Int) (title : Option Text) (content : Text)
    (now : Int) :
    Touches t (sendMessage (createConversation t userId title now).2
      (createConversation t userId title now).1.conversationId content now)
      (createConversation t userId title now).1.conversationId userId := by
  have hw : Writes (createConversation t userId title now).2 _
      (createConversation t userId title now).1.conversationId := writes_sendMessage content now
  have hselect (id : Int) : (createConversation t userId title now).2.select id =
      if id = t.nextId then some (createConversation t userId title now).1 else t.select id :=
    Tables.select_insertConversation fun _ => rfl
  have hnone : t.owner t.nextId = none := by
    rw [Tables.owner, Tables.select_eq_none (Int.le_refl _)]
    rfl
  exact {
    owner := by
      rw [hw.owner, Tables.owner, hselect, createConversation, if_pos rfl]
      rfl
    before := fun u hu => by
      rw [createConversation, hnone] at hu
      cases hu
    keep := fun id u hu => by
      have hne : id ≠ t.nextId := by
        rintro rfl
        rw [hnone] at hu
        cases hu
      rw [hw.owner, Tables.owner, hselect, if_neg hne]
      exact hu
    messages := fun id hid => hw.messages id hid
    stats := fun id hid => by
      have hne : ¬ id = t.nextId := hid
      rw [hw.stats id hid, Tables.stats, hselect, if_neg hne]
      rfl
    longer := hw.longer }

/-- A request touches one conversation. Its owner is the user, unless the request names a
conversation of another, which the endpoints that compare the owner refuse. -/
theorem accept_eq_some {comparesOwner : Bool} {r : Request}
    (h : accept comparesOwner t r = some (id, t')) :
    ∃ user, Touches t t' id user ∧ (user ≠ r.userId ↔ Foreign t r) ∧
      (comparesOwner = true → user = r.userId) := by
  rw [accept] at h
  split at h
  next => cases h
  next hcompare =>
    simp only [Option.some.injEq, Prod.mk.injEq] at h
    obtain ⟨rfl, rfl⟩ := h
    have hcompares (huser : r.userId ≠ (ensureConversation t r.conversationId r.userId r.content
        r.now).1.userId) : comparesOwner = false := by
      simpa [huser] using hcompare
    unfold ensureConversation at hcompares ⊢
    split at hcompares
    next existing hexisting =>
      obtain ⟨id, hid, hselect⟩ := Option.bind_eq_some_iff.mp hexisting
      obtain ⟨hid, hpos⟩ := Option.filter_eq_some_iff.mp hid
      have hname := Tables.conversationId_of_select hselect
      have howner : t.owner existing.conversationId = some existing.userId := by
        rw [Tables.owner, hname, hselect]
        rfl
      refine ⟨existing.userId, (writes_sendMessage _ _).touches howner, ?_, ?_⟩
      · constructor
        · exact fun hne => ⟨id, existing.userId, hid, by simpa using hpos, hname ▸ howner, hne⟩
        · rintro ⟨i, u, hi, -, hu, hne⟩
          rw [hid] at hi
          cases hi
          rw [← hname, howner] at hu
          cases hu
          exact hne
      · intro hc
        by_contra hne
        rw [hcompares fun he => hne he.symm] at hc
        cases hc
    next hnone =>
      refine ⟨r.userId, touches_createConversation _ _ _ _, ?_, fun _ => rfl⟩
      constructor
      · exact fun hne => absurd rfl hne
      · rintro ⟨i, u, hi, hpos, hu, -⟩
        rw [hi] at hnone
        rw [Tables.owner] at hu
        simp only [Option.filter_some, decide_eq_true hpos, if_true, Option.bind_some] at hnone
        rw [hnone] at hu
        cases hu

end Tables

section Events

variable {s s' : ChatState} {response : Response}

/-- One conversation is touched, whose id may be handed back and may be that of a new exchange of
the user. -/
abbrev HandlesOne (s s' : ChatState) (response : Response) (r : Request) : Prop :=
  ∃ id user, Touches s.tables s'.tables id user ∧ (user ≠ r.userId ↔ Foreign s.tables r) ∧
    (r.endpoint.comparesOwner = true → user = r.userId) ∧
    (∀ i, response.handedBack = some i → i = id) ∧
    ∀ x ∈ s'.exchanges, x ∈ s.exchanges ∨ x.conversationId = id ∧ x.userId = r.userId

/-- What a request does: it is refused and nothing happens, or it touches one conversation. -/
theorem handle_eq {r : Request} (h : handle s r = (s', response)) :
    (r.endpoint.comparesOwner = true ∧ s' = s ∧ response.handedBack = none) ∨
      HandlesOne s s' response r := by
  have hstart {exchanges : List Exchange} {x : Exchange} {id : Int}
      (hid : x.conversationId = id) (huser : x.userId = r.userId) :
      ∀ y ∈ exchanges ++ [x], y ∈ exchanges ∨ y.conversationId = id ∧ y.userId = r.userId := by
    intro y hy
    rcases List.mem_append.mp hy with hy | hy
    · exact .inl hy
    · rw [List.mem_singleton.mp hy]
      exact .inr ⟨hid, huser⟩
  have hawait (hc : r.endpoint.comparesOwner = true) (h : awaitAnswer s r = (s', response)) :
      (r.endpoint.comparesOwner = true ∧ s' = s ∧ response.handedBack = none) ∨
        HandlesOne s s' response r := by
    rw [awaitAnswer] at h
    split at h
    next =>
      cases h
      exact .inl ⟨hc, rfl, rfl⟩
    next id tables haccept =>
      cases h
      obtain ⟨user, htouch, hforeign, howner⟩ := accept_eq_some haccept
      exact .inr ⟨id, user, htouch, hforeign, fun _ => howner rfl, by simp [Response.handedBack],
        hstart rfl rfl⟩
  have hstream (hc : r.endpoint.comparesOwner = false) (h : openStream s r = (s', response)) :
      HandlesOne s s' response r := by
    rw [openStream] at h
    split at h
    next hnone => simp [accept] at hnone
    next id tables haccept =>
      cases h
      obtain ⟨user, htouch, hforeign, -⟩ := accept_eq_some haccept
      exact ⟨id, user, htouch, hforeign, by simp [hc], by simp [Response.handedBack, eq_comm],
        hstart rfl rfl⟩
  rw [handle] at h
  split at h
  next he => exact hawait (by rw [he]; rfl) h
  next he => exact hawait (by rw [he]; rfl) h
  next he => exact .inr (hstream (by rw [he]; rfl) h)
  next he => exact .inr (hstream (by rw [he]; rfl) h)
  next aiReply he =>
    rw [saveMessagesToConversation] at h
    split at h
    next hnone => simp [accept] at hnone
    next id tables haccept =>
      cases h
      obtain ⟨user, htouch, hforeign, -⟩ := accept_eq_some haccept
      refine .inr ⟨id, user, htouch.trans (writes_saveAiReply _ _ _ _), hforeign, ?_, ?_,
        fun x hx => .inl hx⟩
      · simp [he, Endpoint.comparesOwner]
      · simp [Response.handedBack, eq_comm]

variable {e : Event}

/-- What an answer or a piece of it does: the tables stay, or the conversation of its exchange is
written; the exchange stays one of this user and conversation. -/
theorem respond_eq (h : respond s e = some (s', response)) (hrequest : ∀ r, e ≠ .request r) :
    ∃ i x x', s.exchanges[i]? = some x ∧ requester s e = some x.userId ∧
      (s'.tables = s.tables ∨ Writes s.tables s'.tables x.conversationId) ∧
      (∀ id, response.handedBack = some id → id = x.conversationId) ∧
      s'.exchanges = s.exchanges.set i x' ∧ x'.userId = x.userId ∧
      x'.conversationId = x.conversationId := by
  have hsame {i : Nat} {x : Exchange} (hx : s.exchanges[i]? = some x) :
      s.exchanges = s.exchanges.set i x := by
    obtain ⟨hi, rfl⟩ := List.getElem?_eq_some_iff.mp hx
    exact (List.set_getElem_self hi).symm
  cases e with
  | request r => exact absurd rfl (hrequest r)
  | answer i reply now =>
    simp only [respond, Option.bind_eq_bind, Option.bind_eq_some_iff] at h
    obtain ⟨x, hx, h⟩ := h
    refine ⟨i, x, { x with replySaved := true }, hx, by rw [requester, hx]; rfl, ?_⟩
    split at h
    next => cases h
    next =>
      cases reply with
      | ok answer =>
        cases h
        exact ⟨.inr (writes_saveAiReply _ _ _ _), by simp [Response.handedBack, eq_comm], rfl, rfl,
          rfl⟩
      | error message =>
        cases h
        exact ⟨.inl rfl, by simp [Response.handedBack], rfl, rfl, rfl⟩
  | partialResponse i text =>
    simp only [respond, Option.bind_eq_bind, Option.bind_eq_some_iff] at h
    obtain ⟨x, hx, h⟩ := h
    split at h
    next =>
      cases h
      exact ⟨i, x, { x with fullResponse := x.fullResponse ++ text }, hx,
        by rw [requester, hx]; rfl, .inl rfl, by simp [Response.handedBack], rfl, rfl, rfl⟩
    next => cases h
  | completeResponse i now =>
    simp only [respond, Option.bind_eq_bind, Option.bind_eq_some_iff] at h
    obtain ⟨x, hx, h⟩ := h
    split at h
    next =>
      rw [onCompleteResponse] at h
      split at h
      next =>
        cases h
        exact ⟨i, x, x, hx, by rw [requester, hx]; rfl, .inl rfl, by simp [Response.handedBack],
          hsame hx, rfl, rfl⟩
      next =>
        cases h
        exact ⟨i, x, { x with replySaved := true }, hx, by rw [requester, hx]; rfl,
          .inr (writes_saveAiReply _ _ _ _), by simp [Response.handedBack], rfl, rfl, rfl⟩
    next => cases h
  | error i now =>
    simp only [respond, Option.bind_eq_bind, Option.bind_eq_some_iff] at h
    obtain ⟨x, hx, h⟩ := h
    split at h
    next =>
      rw [onError] at h
      split at h
      next =>
        cases h
        exact ⟨i, x, x, hx, by rw [requester, hx]; rfl, .inl rfl, by simp [Response.handedBack],
          hsame hx, rfl, rfl⟩
      next =>
        refine ⟨i, x, { x with replySaved := true }, hx, by rw [requester, hx]; rfl, ?_⟩
        split at h
        next =>
          cases h
          exact ⟨.inl rfl, by simp [Response.handedBack], rfl, rfl, rfl⟩
        next =>
          cases h
          exact ⟨.inr (writes_saveAiReply _ _ _ _), by simp [Response.handedBack], rfl, rfl, rfl⟩
    next => cases h

theorem isolated_of_touches {t t' : Tables} {id user : Int} (h : Touches t t' id user) :
    (∀ i, t'.messagesOf i ≠ t.messagesOf i ∨ t'.stats i ≠ t.stats i → BelongsTo t t' user i) ∧
      BelongsTo t t' user id := by
  have hid : BelongsTo t t' user id := ⟨h.owner, h.before⟩
  refine ⟨fun i hi => ?_, hid⟩
  by_cases he : i = id
  · rw [he]
    exact hid
  · rcases hi with hi | hi
    · exact absurd (h.messages i he) hi
    · exact absurd (h.stats i he) hi

/-- A request is isolated if and only if its endpoint compares the owner or the conversation is
not another user's. -/
theorem isolated_request_iff {r : Request} :
    Isolated s (.request r) ↔ (r.endpoint.comparesOwner = false → ¬ Foreign s.tables r) := by
  obtain ⟨⟨s₁, response₁⟩, hhandle⟩ : ∃ p, handle s r = p := ⟨_, rfl⟩
  have hrespond₁ : respond s (.request r) = some (s₁, response₁) := by rw [respond, hhandle]
  rcases handle_eq hhandle with ⟨hcompares, hsame, hnone⟩ |
    ⟨id, user, htouch, hforeign, hcompares, hhanded, -⟩
  · refine iff_of_true ?_ fun hc => by rw [hcompares] at hc; cases hc
    intro s' response u hrespond _
    cases hrespond₁.symm.trans hrespond
    rw [hsame, hnone]
    simp
  · constructor
    · intro hisolated _ hf
      have hne := hforeign.mpr hf
      have howner := ((hisolated _ _ r.userId hrespond₁ rfl).1 id (.inl fun he => ?_)).1
      · rw [htouch.owner] at howner
        exact hne (Option.some.inj howner)
      · have hlonger := htouch.longer
        rw [he] at hlonger
        omega
    · intro hallowed s' response u hrespond huser
      cases hrespond₁.symm.trans hrespond
      cases Option.some.inj huser
      have he : user = r.userId := by
        cases hc : r.endpoint.comparesOwner with
        | true => exact hcompares hc
        | false =>
          by_contra hne
          exact hallowed hc (hforeign.mp hne)
      subst he
      obtain ⟨hchanged, hid⟩ := isolated_of_touches htouch
      exact ⟨hchanged, fun i hi => by rw [hhanded i hi]; exact hid⟩

/-- An answer is isolated when its exchange is about a conversation of its user. -/
theorem isolated_answer (hs : Consistent s) (he : ∀ r, e ≠ .request r) :
    Isolated s e := by
  intro s' response user hrespond huser
  obtain ⟨i, x, x', hx, hrequester, htables, hhanded, -⟩ := respond_eq hrespond he
  rw [hrequester] at huser
  cases huser
  have howner := hs x (List.mem_of_getElem? hx)
  rcases htables with hsame | hwrites
  · rw [hsame]
    refine ⟨by simp, fun id hid => ?_⟩
    rw [hhanded id hid]
    exact ⟨howner, fun u hu => Option.some.inj (hu.symm.trans howner)⟩
  · obtain ⟨hchanged, hown⟩ := isolated_of_touches (hwrites.touches howner)
    exact ⟨hchanged, fun id hid => by rw [hhanded id hid]; exact hown⟩

theorem isolated_iff (hs : Consistent s) (e : Event) : Isolated s e ↔ Allowed s e := by
  cases e with
  | request r => exact isolated_request_iff
  | answer => exact iff_of_true (isolated_answer hs (by simp)) trivial
  | partialResponse => exact iff_of_true (isolated_answer hs (by simp)) trivial
  | completeResponse => exact iff_of_true (isolated_answer hs (by simp)) trivial
  | error => exact iff_of_true (isolated_answer hs (by simp)) trivial

theorem consistent_next (hs : Consistent s) (ha : Allowed s e)
    (h : next s e = some s') : Consistent s' := by
  obtain ⟨⟨s', response⟩, hrespond, rfl⟩ := Option.map_eq_some_iff.mp h
  by_cases he : ∃ r, e = .request r
  · obtain ⟨r, rfl⟩ := he
    rcases handle_eq (Option.some.inj hrespond) with ⟨-, rfl, -⟩ |
      ⟨id, user, htouch, hforeign, hcompares, -, hexchanges⟩
    · exact hs
    · have huser : user = r.userId := by
        cases hc : r.endpoint.comparesOwner with
        | true => exact hcompares hc
        | false =>
          by_contra hne
          exact ha hc (hforeign.mp hne)
      intro x hx
      rcases hexchanges x hx with hx | ⟨hid, hxuser⟩
      · exact htouch.keep _ _ (hs x hx)
      · rw [hid, hxuser, ← huser]
        exact htouch.owner
  · obtain ⟨i, x, x', hx, -, htables, -, hexchanges, huser, hid⟩ :=
      respond_eq hrespond fun r hr => he ⟨r, hr⟩
    have howner (id : Int) : s'.tables.owner id = s.tables.owner id := by
      rcases htables with hsame | hwrites
      · rw [hsame]
      · exact hwrites.owner id
    intro y hy
    rw [hexchanges] at hy
    rw [howner]
    rcases List.mem_or_eq_of_mem_set hy with hy | rfl
    · exact hs y hy
    · rw [hid, huser]
      exact hs x (List.mem_of_getElem? hx)

/-- In a run of requests and answers every event is isolated if and only if no request at an
endpoint that does not compare the owner names a conversation of another user. -/
theorem chat_isolated_iff {events : List Event} (hs : s.exchanges = [])
    (hrun : run next s events = some s') :
    (∀ pre e post m, events = pre ++ e :: post → run next s pre = some m → Isolated m e) ↔
      ∀ pre e post m, events = pre ++ e :: post → run next s pre = some m → Allowed m e := by
  have hconsistent : Consistent s := by
    rw [Consistent, hs]
    simp
  exact run_steps_iff Allowed Consistent (fun _ _ _ hk ha hst => consistent_next hk ha hst)
    (fun m e _ hm _ => isolated_iff hm e) hconsistent hrun

end Events

section Example

/-- No conversation yet. -/
def emptyChat : ChatState := ⟨⟨[], 1, [], by simp⟩, []⟩

/-- A first message of a user. -/
def firstMessage (userId : Int) : Event :=
  .request ⟨.chatStreamWithConversation, userId, none, [0x68, 0x69], 0⟩

/-- Two messages that a user adds to conversation 1. -/
def addMessages (userId : Int) : Event :=
  .request ⟨.saveMessages [0x6f, 0x6b], userId, some 1, [0x68, 0x69], 5⟩

theorem chat_isolated_stream :
    ∃ s', run next emptyChat [firstMessage 10, .partialResponse 0 [0x6f], .completeResponse 0 3,
        addMessages 10] = some s' ∧
      ∀ pre e post m, [firstMessage 10, .partialResponse 0 [0x6f], .completeResponse 0 3,
          addMessages 10] = pre ++ e :: post → run next emptyChat pre = some m → Isolated m e := by
  refine ⟨_, rfl, (chat_isolated_iff rfl rfl).mpr fun pre e post m he hm => ?_⟩
  match pre, he with
  | [], he =>
    cases he
    rintro - ⟨id, u, hid, -⟩
    cases hid
  | [_], he =>
    cases he
    trivial
  | [_, _], he =>
    cases he
    trivial
  | [_, _, _], he =>
    cases he
    cases hm
    rintro - ⟨id, u, hid, -, hu, hne⟩
    cases hid
    cases hu
    exact hne rfl
  | _ :: _ :: _ :: _ :: _ :: _, he => simp at he
  | [_, _, _, _], he => simp at he

/-- The user 20 adds messages to the conversation that the user 10 began. -/
theorem chat_not_isolated : ∃ m s', run next emptyChat [firstMessage 10] = some m ∧
    run next emptyChat [firstMessage 10, addMessages 20] = some s' ∧
      ¬ Isolated m (addMessages 20) := by
  refine ⟨_, _, rfl, rfl, fun h => isolated_request_iff.mp h rfl ?_⟩
  exact ⟨1, 10, rfl, by decide, rfl, by decide⟩

end Example

end PlatformSpec.RuoYi.Chat
