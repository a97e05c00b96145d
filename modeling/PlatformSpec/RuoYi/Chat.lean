import Mathlib.Algebra.Group.Nat.Defs
import PlatformSpec.RuoYi.StringUtils

/-!
# Conversations with the assistant

Models the two tables of `AiChatSessionServiceImpl` and the five endpoints of
`AiAssistantController` that store messages. What the language model answers and when, and the
failures of the services behind it, are events; a request whose answer is awaited is an exchange.
-/

namespace PlatformSpec.RuoYi.Chat

open Base

/-- A text of Java, as its UTF-16 units. -/
abbrev Text := List UInt16

/-- The role of a message, `0` and `1`. -/
inductive Role where
  | user
  | assistant
  deriving DecidableEq

/-- A row of `ai_chat_conversation`. -/
structure AiChatConversation where
  conversationId : Int
  userId : Int
  title : Text
  messageCount : Nat
  lastMessageTime : Option Int
  createTime : Int
  updateTime : Option Int
  deriving DecidableEq

/-- A row of `ai_chat_message`. -/
structure AiChatMessage where
  conversationId : Int
  role : Role
  content : Text
  modelName : Option Str
  costTime : Option Int
  status : Char
  createTime : Int
  deriving DecidableEq

/-- The two tables. The ids of conversations are counted up. -/
structure Tables where
  conversations : List AiChatConversation
  nextId : Int
  messages : List AiChatMessage
  fresh : ∀ c ∈ conversations, c.conversationId < nextId

namespace Tables

/-- `selectAiChatConversationByConversationId`. -/
def select (t : Tables) (conversationId : Int) : Option AiChatConversation :=
  t.conversations.find? fun c => decide (c.conversationId = conversationId)

/-- `insertAiChatConversation`, with the id that the table gives. -/
def insertConversation (t : Tables) (row : Int → AiChatConversation)
    (hid : ∀ id, (row id).conversationId = id) : Tables where
  conversations := t.conversations ++ [row t.nextId]
  nextId := t.nextId + 1
  messages := t.messages
  fresh c hc := by
    rcases List.mem_append.mp hc with hc | hc
    · have := t.fresh c hc
      omega
    · rw [List.mem_singleton.mp hc, hid]
      omega

/-- `insertAiChatMessage`. -/
def insertMessage (t : Tables) (message : AiChatMessage) : Tables :=
  { t with messages := t.messages ++ [message] }

/-- `selectMessagesByConversationId`. -/
def selectMessages (t : Tables) (conversationId : Int) : List AiChatMessage :=
  t.messages.filter fun m => decide (m.conversationId = conversationId) && decide (m.status = '0')

/-- `updateAiChatConversation` with a count and a time. -/
def updateConversation (t : Tables) (conversationId : Int) (messageCount : Nat) (now : Int) :
    Tables where
  conversations := t.conversations.map fun c =>
    if c.conversationId = conversationId then
      { c with messageCount, lastMessageTime := some now, updateTime := some now }
    else c
  nextId := t.nextId
  messages := t.messages
  fresh c hc := by
    obtain ⟨c', hc', rfl⟩ := List.mem_map.mp hc
    split
    · exact t.fresh c' hc'
    · exact t.fresh c' hc'

end Tables

section Service

/-- The title of a conversation without one. -/
def newTitle : Text := [0x65b0, 0x5bf9, 0x8bdd]

/-- `String.trim`. -/
def trimText (text : Text) : Text := stripBoth (fun u => decide (u ≤ 0x20)) text

/-- `AiChatSessionServiceImpl.createConversation`. -/
def createConversation (t : Tables) (userId : Int) (title : Option Text) (now : Int) :
    AiChatConversation × Tables :=
  let row (id : Int) : AiChatConversation :=
    ⟨id, userId, title.getD newTitle, 0, none, now, none⟩
  (row t.nextId, t.insertConversation row fun _ => rfl)

/-- The title that `ensureConversation` takes from a first message. -/
def autoTitle (firstMessage : Text) : Text :=
  let text := trimText firstMessage
  if text = [] then newTitle
  else if 30 < text.length then text.take 30 ++ [0x2e, 0x2e, 0x2e]
  else text

/-- `AiChatSessionServiceImpl.ensureConversation`. -/
def ensureConversation (t : Tables) (conversationId : Option Int) (userId : Int)
    (firstMessage : Text) (now : Int) : AiChatConversation × Tables :=
  match (conversationId.filter fun id => decide (0 < id)).bind t.select with
  | some existing => (existing, t)
  | none => createConversation t userId (some (autoTitle firstMessage)) now

/-- `AiChatSessionServiceImpl.updateConversationStats`. -/
def updateConversationStats (t : Tables) (conversationId : Int) (now : Int) : Tables :=
  t.updateConversation conversationId (t.selectMessages conversationId).length now

/-- `AiChatSessionServiceImpl.sendMessage`. -/
def sendMessage (t : Tables) (conversationId : Int) (content : Text) (now : Int) : Tables :=
  updateConversationStats
    (t.insertMessage ⟨conversationId, .user, content, none, none, '0', now⟩) conversationId now

/-- `AiChatSessionServiceImpl.saveAiReply`. -/
def saveAiReply (t : Tables) (conversationId : Int) (answer : Text) (modelName : Str)
    (costTime now : Int) : Tables :=
  updateConversationStats
    (t.insertMessage ⟨conversationId, .assistant, answer, some modelName, some costTime, '0', now⟩)
    conversationId now

end Service

/-- The endpoints that store messages. -/
inductive Endpoint where
  | chatWithConversation
  | chatWithKnowledge
  | chatStreamWithKnowledge
  | chatStreamWithConversation
  | saveMessages (aiReply : Text)
  deriving DecidableEq

/-- A request of a user that is logged in. -/
structure Request where
  endpoint : Endpoint
  userId : Int
  conversationId : Option Int
  content : Text
  now : Int
  deriving DecidableEq

/-- A request whose answer is awaited: at once or piece by piece. `replySaved` is set when the
answer is there. -/
structure Exchange where
  streaming : Bool
  userId : Int
  conversationId : Int
  startTime : Int
  fullResponse : Text
  replySaved : Bool
  deriving DecidableEq

/-- The tables and the exchanges that were begun. -/
structure ChatState where
  tables : Tables
  exchanges : List Exchange

/-- What is handed back to the user. -/
inductive Response where
  | none
  | error (message : Str)
  | success (message : Str) (conversationId : Int) (answer : Option Text)
  | conversationId (id : Int)
  | data (text : Text)
  | done
  deriving DecidableEq

/-- The id of a conversation in what is handed back. -/
def Response.handedBack : Response → Option Int
  | .success _ id _ => some id
  | .conversationId id => some id
  | _ => Option.none

/-- What happens: a request arrives, the model answers or fails, a piece of an answer arrives. -/
inductive Event where
  | request (r : Request)
  | answer (i : Nat) (reply : Except Str Text) (now : Int)
  | partialResponse (i : Nat) (text : Text)
  | completeResponse (i : Nat) (now : Int)
  | error (i : Nat) (now : Int)

section Controller

/-- The name of the model that is stored with a reply. -/
def modelName : Str := "DeepSeek V3".toList

/-- `(int) costTime`. -/
def costTime (startTime now : Int) : Int := (now - startTime).bmod (2 ^ 32)

/-- How every endpoint begins: find or create the conversation and store the message; `none` when
the owner is compared and is another user. -/
def accept (comparesOwner : Bool) (t : Tables) (r : Request) : Option (Int × Tables) :=
  let ensured := ensureConversation t r.conversationId r.userId r.content r.now
  if comparesOwner && decide (r.userId ≠ ensured.1.userId) then none
  else some (ensured.1.conversationId,
    sendMessage ensured.2 ensured.1.conversationId r.content r.now)

/-- A request that waits for the whole answer. -/
def awaitAnswer (s : ChatState) (r : Request) : ChatState × Response :=
  match accept true s.tables r with
  | none => (s, .error "会话不存在或无权访问".toList)
  | some (id, tables) =>
    (⟨tables, s.exchanges ++ [⟨false, r.userId, id, r.now, [], false⟩]⟩, .none)

/-- `AiAssistantController.chatWithConversation`, up to the call of the model. -/
def chatWithConversation (s : ChatState) (r : Request) : ChatState × Response := awaitAnswer s r

/-- `AiAssistantController.chatWithKnowledge`, up to the search. -/
def chatWithKnowledge (s : ChatState) (r : Request) : ChatState × Response := awaitAnswer s r

/-- A request that opens a stream; the id of the conversation is sent first. -/
def openStream (s : ChatState) (r : Request) : ChatState × Response :=
  match accept false s.tables r with
  | none => (s, .none)
  | some (id, tables) =>
    (⟨tables, s.exchanges ++ [⟨true, r.userId, id, r.now, [], false⟩]⟩, .conversationId id)

/-- `AiAssistantController.chatStreamWithKnowledge`, up to the search. -/
def chatStreamWithKnowledge (s : ChatState) (r : Request) : ChatState × Response := openStream s r

/-- `AiAssistantController.chatStreamWithConversation`, up to the call of the model. -/
def chatStreamWithConversation (s : ChatState) (r : Request) : ChatState × Response :=
  openStream s r

/-- `AiAssistantController.saveMessagesToConversation`. -/
def saveMessagesToConversation (s : ChatState) (r : Request) (aiReply : Text) :
    ChatState × Response :=
  match accept false s.tables r with
  | none => (s, .none)
  | some (id, tables) =>
    ({ s with tables := saveAiReply tables id aiReply modelName 0 r.now },
      .success "保存成功".toList id none)

/-- A request, at its endpoint. -/
def handle (s : ChatState) (r : Request) : ChatState × Response :=
  match r.endpoint with
  | .chatWithConversation => chatWithConversation s r
  | .chatWithKnowledge => chatWithKnowledge s r
  | .chatStreamWithKnowledge => chatStreamWithKnowledge s r
  | .chatStreamWithConversation => chatStreamWithConversation s r
  | .saveMessages aiReply => saveMessagesToConversation s r aiReply

/-- The reply of an exchange is stored and the exchange marked. -/
def saveReply (s : ChatState) (i : Nat) (x : Exchange) (reply : Text) (now : Int) : ChatState :=
  ⟨saveAiReply s.tables x.conversationId reply modelName (costTime x.startTime now) now,
    s.exchanges.set i { x with replySaved := true }⟩

/-- The exchange is marked and nothing stored. -/
def closeExchange (s : ChatState) (i : Nat) (x : Exchange) : ChatState :=
  { s with exchanges := s.exchanges.set i { x with replySaved := true } }

/-- The rest of `chatWithConversation` and `chatWithKnowledge`: the model answers or something
before that fails. -/
def onAnswer (s : ChatState) (i : Nat) (x : Exchange) (reply : Except Str Text) (now : Int) :
    ChatState × Response :=
  match reply with
  | .ok answer => (saveReply s i x answer now,
      .success "操作成功".toList x.conversationId (some answer))
  | .error message => (closeExchange s i x, .error ("对话失败：".toList ++ message))

/-- `onPartialResponse`. -/
def onPartialResponse (s : ChatState) (i : Nat) (x : Exchange) (text : Text) :
    ChatState × Response :=
  ({ s with exchanges := s.exchanges.set i { x with fullResponse := x.fullResponse ++ text } },
    .data text)

/-- `onCompleteResponse`. -/
def onCompleteResponse (s : ChatState) (i : Nat) (x : Exchange) (now : Int) :
    ChatState × Response :=
  if x.replySaved then (s, .done) else (saveReply s i x x.fullResponse now, .done)

/-- `onError`: what has arrived so far is stored. -/
def onError (s : ChatState) (i : Nat) (x : Exchange) (now : Int) : ChatState × Response :=
  if x.replySaved then (s, .none)
  else if x.fullResponse = [] then (closeExchange s i x, .none)
  else (saveReply s i x x.fullResponse now, .none)

/-- An event, if there is such an exchange. -/
def respond (s : ChatState) : Event → Option (ChatState × Response)
  | .request r => some (handle s r)
  | .answer i reply now => do
    let x ← s.exchanges[i]?
    if x.streaming || x.replySaved then none else some (onAnswer s i x reply now)
  | .partialResponse i text => do
    let x ← s.exchanges[i]?
    if x.streaming then some (onPartialResponse s i x text) else none
  | .completeResponse i now => do
    let x ← s.exchanges[i]?
    if x.streaming then some (onCompleteResponse s i x now) else none
  | .error i now => do
    let x ← s.exchanges[i]?
    if x.streaming then some (onError s i x now) else none

/-- The state after an event. -/
def next (s : ChatState) (e : Event) : Option ChatState := (respond s e).map Prod.fst

end Controller

end PlatformSpec.RuoYi.Chat
