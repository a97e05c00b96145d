import PlatformSpec.Base.Interleaving

/-!
# Requests of an MCP session

Models `send_request` and `_receive_loop` of `core/mcp/session/base_session.py`. Concurrent
calls take ids from one counter and wait on queues registered under them; the receive loop
handles one message at a time. Reading and writing the counter are separate steps. A message
carries the call that caused it where the transport reports a failure; no step reads it.
-/

namespace PlatformSpec.Mcp

open Base

/-- `RequestId`. -/
inductive RequestId where
  | int (n : Int)
  | str (s : String)
  deriving DecidableEq

/-- `ErrorData`. -/
structure ErrorData where
  code : Int
  message : String
  deriving DecidableEq

/-- Messages that answer requests: `JSONRPCResponse`, `JSONRPCError`, and the
`HTTPStatusError` of the transport with the call whose request failed. -/
inductive Answer (ι R : Type) where
  | response (id : RequestId) (result : R)
  | error (id : RequestId) (error : ErrorData)
  | httpStatusError (cause : Option ι) (statusCode : Int) (message : String)
  deriving DecidableEq

/-- What the receive loop takes from the read stream. -/
inductive Message (ι R : Type) where
  | answer (answer : Answer ι R)
  | exception (cause : Option ι) (message : String)
  | notification (method : String)
  | request (id : RequestId) (method : String)
  deriving DecidableEq

/-- What the receive loop puts on the queue of a call. -/
inductive Reply (R : Type) where
  | response (result : R)
  | error (error : ErrorData)
  | httpStatusError (statusCode : Int) (message : String)
  deriving DecidableEq

/-- How a call of `send_request` ends: with a result, with `MCPAuthError`, with
`MCPConnectionError`, or with the exception that ended the receive loop. -/
inductive Outcome (R : Type) where
  | result (result : R)
  | authError (message : Option String)
  | connectionError (error : ErrorData)
  | receiverError (message : String)
  deriving DecidableEq

variable {ι R : Type}

/-- An HTTP error with status 401 is passed on, others become a `JSONRPCError`. -/
def Answer.reply : Answer ι R → Reply R
  | .response _ result => .response result
  | .error _ e => .error e
  | .httpStatusError _ statusCode message =>
    if statusCode = 401 then .httpStatusError statusCode message else .error ⟨statusCode, message⟩

/-- The end of `send_request`. -/
def Reply.conclude : Reply R → Outcome R
  | .httpStatusError statusCode message =>
    if statusCode = 401 then .authError none else .connectionError ⟨statusCode, message⟩
  | .error e => if e.code = 401 then .authError (some e.message) else .connectionError e
  | .response result => .result result

/-- What `_handle_incoming` is called with. -/
inductive Incoming (ι R : Type) where
  | runtimeError (text : String) (answer : Answer ι R)
  | exception (message : String)
  | responder (id : RequestId) (method : String)

/-- What subclasses of `BaseSession` add: `_handle_incoming` may raise; `_received_request` may
raise, or tells whether it has completed the request. -/
structure Handlers (ι R : Type) where
  handleIncoming : Incoming ι R → Option String
  receivedRequest : RequestId → String → Except String Bool

/-- The future of the receive loop. A failure keeps the message that caused it. -/
inductive Receiver (ι R : Type) where
  | running
  | stopped
  | failed (origin : Message ι R) (message : String)
  deriving DecidableEq

/-- The fields of the session that the calls and the receive loop share. The queue of a call
goes by the call's name. -/
structure Session (ι R : Type) where
  requestId : Int := 0
  responseStreams : Int → Option ι := fun _ => none
  queues : ι → List (Answer ι R) := fun _ => []
  receiver : Receiver ι R := .running

/-- Where a call is. A call that has got an answer, or has found the receive loop failed, keeps
the message it owes its outcome to. One process is the receive loop. -/
inductive Place (ι R : Type) where
  | called
  | checked
  | idRead (requestId : Int)
  | idTaken (requestId : Int)
  | registered (requestId : Int)
  | waiting (requestId : Int)
  | closing (requestId : Int) (origin : Message ι R) (outcome : Outcome R)
  | completed (requestId : Option Int) (origin : Message ι R) (outcome : Outcome R)
  | receiveLoop
  deriving DecidableEq

/-- The steps of calls and of the receive loop. -/
inductive Operation (ι R : Type) where
  | checkReceiverStatus
  | readRequestId
  | writeRequestId
  | register
  | put
  | get
  | timeout
  | pop
  | receive (message : Message ι R)
  | stop

namespace Session

/-- The queue registered under the id of a message. -/
def stream? (s : Session ι R) : RequestId → Option ι
  | .int n => s.responseStreams n
  | .str _ => none

/-- An exception raised in the receive loop ends it. -/
def raise (s : Session ι R) (origin : Message ι R) : Option String → Session ι R
  | none => s
  | some message => { s with receiver := .failed origin message }

/-- The queue an answer is put on. -/
def target (s : Session ι R) : Answer ι R → Option ι
  | .response id _ => s.stream? id
  | .error id _ => s.stream? id
  | .httpStatusError _ _ _ => s.responseStreams (s.requestId - 1)

end Session

/-- The text of the error for an answer nobody waits for. -/
def Answer.unknown : Answer ι R → String
  | .httpStatusError _ _ _ => "Received response with an unknown request ID: "
  | _ => "Server Error: "

/-- What handling a message raises, if it does. -/
def raised (h : Handlers ι R) (s : Session ι R) : Message ι R → Option String
  | .answer a =>
    match s.target a with
    | some _ => none
    | none => h.handleIncoming (.runtimeError a.unknown a)
  | .exception _ message => h.handleIncoming (.exception message)
  | .notification _ => none
  | .request id method =>
    match h.receivedRequest id method with
    | .error message => some message
    | .ok true => none
    | .ok false => h.handleIncoming (.responder id method)

variable [DecidableEq ι]

/-- `response_queue.put`. -/
def Session.deliver (s : Session ι R) (call : ι) (a : Answer ι R) : Session ι R :=
  { s with queues := Function.update s.queues call (s.queues call ++ [a]) }

/-- One round of `_receive_loop`. What a notification raises is logged. -/
def handle (h : Handlers ι R) (s : Session ι R) (m : Message ι R) : Session ι R :=
  match m with
  | .answer a =>
    match s.target a with
    | some call => s.deliver call a
    | none => s.raise m (raised h s m)
  | _ => s.raise m (raised h s m)

/-- `send_request` and `_receive_loop`, one step at a time. -/
def act (h : Handlers ι R) (i : ι) (s : Session ι R) :
    Place ι R → Operation ι R → Option (Session ι R × Place ι R)
  | .called, .checkReceiverStatus =>
    match s.receiver with
    | .failed origin message => some (s, .completed none origin (.receiverError message))
    | _ => some (s, .checked)
  | .checked, .readRequestId => some (s, .idRead s.requestId)
  | .idRead n, .writeRequestId => some ({ s with requestId := n + 1 }, .idTaken n)
  | .idTaken n, .register => some ({ s with
      responseStreams := Function.update s.responseStreams n (some i)
      queues := Function.update s.queues i [] }, .registered n)
  | .registered n, .put => some (s, .waiting n)
  | .waiting n, .get =>
    match s.queues i with
    | [] => none
    | a :: rest => some ({ s with queues := Function.update s.queues i rest },
        .closing n (.answer a) a.reply.conclude)
  | .waiting n, .timeout =>
    match s.queues i, s.receiver with
    | [], .failed origin message => some (s, .closing n origin (.receiverError message))
    | [], _ => some (s, .waiting n)
    | _, _ => none
  | .closing n origin outcome, .pop =>
    some ({ s with responseStreams := Function.update s.responseStreams n none },
      .completed (some n) origin outcome)
  | .receiveLoop, .receive m =>
    match s.receiver with
    | .running => some (handle h s m, .receiveLoop)
    | _ => none
  | .receiveLoop, .stop =>
    match s.receiver with
    | .running => some ({ s with receiver := .stopped }, .receiveLoop)
    | _ => none
  | _, _ => none

/-- Concurrent calls and the receive loop of one session. -/
abbrev Calls (ι R : Type) := Processes (Session ι R) ι (Place ι R)

/-- One step of one process. -/
def step (h : Handlers ι R) : Calls ι R → ι × Operation ι R → Option (Calls ι R) :=
  Processes.step (act h)

/-- A new session; one of the processes runs the receive loop. -/
def start (loop : ι) : Calls ι R := ⟨{}, fun i => if i = loop then .receiveLoop else .called⟩

/-- The id a pending call has taken. -/
def Place.pendingId : Place ι R → Option Int
  | .idRead n | .idTaken n | .registered n | .waiting n | .closing n _ _ => some n
  | _ => none

/-- The call is over, or the process makes none. -/
def Place.over : Place ι R → Bool
  | .completed _ _ _ | .receiveLoop => true
  | _ => false

/-- The call still waits for an answer under its id. -/
def Place.waits (l : Place ι R) (n : Int) : Prop := l = .registered n ∨ l = .waiting n

/-- A message belongs to a call: it answers the id of the call, or the transport reports it
for the request of the call. -/
def Message.OwnedBy (i : ι) (requestId : Option Int) : Message ι R → Prop
  | .answer (.response id _) | .answer (.error id _) => ∃ n, requestId = some n ∧ id = .int n
  | .answer (.httpStatusError cause _ _) => cause = some i
  | .exception cause _ => cause = some i
  | .notification _ | .request _ _ => False

/-- An outcome is the one a message gives, or the failure of the receive loop. -/
def Message.Gives (m : Message ι R) (outcome : Outcome R) : Prop :=
  (∃ a, m = .answer a ∧ outcome = a.reply.conclude) ∨ ∃ message, outcome = .receiverError message

/-- The call has an answer already. -/
def Answered (c : Calls ι R) (i : ι) : Prop :=
  c.shared.queues i ≠ [] ∨ ∃ n m outcome, c.place i = .closing n m outcome

/-- The condition on a step: the counter is read while no call is between reading and writing
it; an HTTP error that finds a call under the last id comes from that call, or the call has an
answer already; and the receive loop fails only on a message that belongs to every call that is
not over. -/
def Attributed (h : Handlers ι R) (c : Calls ι R) : ι × Operation ι R → Prop
  | (_, .readRequestId) => ∀ j n, c.place j ≠ .idRead n
  | (_, .receive m) =>
    (∀ cause statusCode message, m = .answer (.httpStatusError cause statusCode message) →
      ∀ call, c.shared.responseStreams (c.shared.requestId - 1) = some call →
        cause = some call ∨ Answered c call) ∧
    (raised h c.shared m ≠ none → ∀ j, (c.place j).over ∨ ∀ requestId, m.OwnedBy j requestId)
  | _ => True

/-- Ids of pending calls are distinct, and below the counter once it was written. -/
private structure Numbered (c : Calls ι R) : Prop where
  unique : ∀ i j n, (c.place i).pendingId = some n → (c.place j).pendingId = some n → i = j
  below : ∀ i n, (c.place i).pendingId = some n → n < c.shared.requestId ∨ c.place i = .idRead n
  read : ∀ i n, c.place i = .idRead n → n = c.shared.requestId

/-- Streams lead to the calls that registered them, and what a call gets or has got belongs to
it. -/
private structure Routed (c : Calls ι R) : Prop where
  stream : ∀ n i, c.shared.responseStreams n = some i →
    (c.place i).waits n ∨ ∃ m outcome, c.place i = .closing n m outcome
  queue : ∀ i a rest n, c.shared.queues i = a :: rest → (c.place i).waits n →
    (Message.answer a).OwnedBy i (some n)
  failed : ∀ m message, c.shared.receiver = .failed m message →
    ∀ i, (c.place i).over ∨ ∀ requestId, m.OwnedBy i requestId
  closing : ∀ i n m outcome, c.place i = .closing n m outcome →
    m.OwnedBy i (some n) ∧ m.Gives outcome
  completed : ∀ i n m outcome, c.place i = .completed n m outcome →
    m.OwnedBy i n ∧ m.Gives outcome

private theorem pendingId_of_update {place : ι → Place ι R} {i j : ι} {l : Place ι R} {n : Int}
    (h : (Function.update place i l j).pendingId = some n) :
    j = i ∧ l.pendingId = some n ∨ j ≠ i ∧ (place j).pendingId = some n :=
  Processes.of_update (P := fun l : Place ι R => l.pendingId = some n) h

namespace Numbered

variable {c : Calls ι R}

private theorem move (h : Numbered c) {i : ι} {l : Place ι R} {s : Session ι R}
    (hcounter : s.requestId = c.shared.requestId)
    (hid : ∀ n, l.pendingId = some n → (c.place i).pendingId = some n)
    (hread : ∀ n, l ≠ .idRead n ∧ c.place i ≠ .idRead n) :
    Numbered ⟨s, Function.update c.place i l⟩ := by
  have hids : ∀ j n, (Function.update c.place i l j).pendingId = some n →
      (c.place j).pendingId = some n := by
    intro j n hj
    rcases pendingId_of_update hj with ⟨rfl, hl⟩ | ⟨-, hj⟩
    · exact hid n hl
    · exact hj
  constructor
  · exact fun j k n hj hk => h.unique j k n (hids j n hj) (hids k n hk)
  · intro j n hj
    rw [hcounter]
    refine (h.below j n (hids j n hj)).imp_right fun hplace => ?_
    have hji : j ≠ i := by
      rintro rfl
      exact (hread n).2 hplace
    exact (Processes.place_update_of_ne s _ hji l).trans hplace
  · intro j n hj
    rw [hcounter]
    rcases Processes.of_update (P := fun l : Place ι R => l = .idRead n) hj with
      ⟨-, hl⟩ | ⟨-, hj⟩
    · exact absurd hl (hread n).1
    · exact h.read j n hj

private theorem readRequestId (h : Numbered c) (i : ι) (hnone : ∀ j n, c.place j ≠ .idRead n) :
    Numbered ⟨c.shared, Function.update c.place i (.idRead c.shared.requestId)⟩ := by
  have hbelow : ∀ j n, (c.place j).pendingId = some n → n < c.shared.requestId :=
    fun j n hj => (h.below j n hj).resolve_right (hnone j n)
  have hnew : ∀ n, (.idRead c.shared.requestId : Place ι R).pendingId = some n →
      n = c.shared.requestId := by
    rintro n hn
    cases hn
    rfl
  constructor
  · intro j k n hj hk
    rcases pendingId_of_update hj with ⟨rfl, hjn⟩ | ⟨-, hjn⟩
    · rcases pendingId_of_update hk with ⟨rfl, -⟩ | ⟨-, hkn⟩
      · rfl
      · exact absurd (hnew n hjn) (hbelow k n hkn).ne
    · rcases pendingId_of_update hk with ⟨rfl, hkn⟩ | ⟨-, hkn⟩
      · exact absurd (hnew n hkn) (hbelow j n hjn).ne
      · exact h.unique j k n hjn hkn
  · intro j n hj
    rcases pendingId_of_update hj with ⟨rfl, hjn⟩ | ⟨-, hjn⟩
    · right
      rw [Processes.place_update_self, hnew n hjn]
    · exact .inl (hbelow j n hjn)
  · intro j n hj
    rcases Processes.of_update (P := fun l : Place ι R => l = .idRead n) hj with
      ⟨-, hl⟩ | ⟨-, hj⟩
    · cases hl
      rfl
    · exact absurd hj (hnone j n)

private theorem writeRequestId (h : Numbered c) {i : ι} {n : Int}
    (hi : c.place i = .idRead n) :
    Numbered ⟨{ c.shared with requestId := n + 1 }, Function.update c.place i (.idTaken n)⟩ := by
  have hn := h.read i n hi
  have hpending : (c.place i).pendingId = some n := by
    rw [hi]
    rfl
  have hids : ∀ j k, (Function.update c.place i (.idTaken n) j).pendingId = some k →
      (c.place j).pendingId = some k := by
    intro j k hj
    rcases pendingId_of_update hj with ⟨rfl, hl⟩ | ⟨-, hj⟩
    · exact hpending.trans hl
    · exact hj
  constructor
  · exact fun j k m hj hk => h.unique j k m (hids j m hj) (hids k m hk)
  · intro j k hj
    left
    show k < n + 1
    rcases h.below j k (hids j k hj) with hlt | hread
    · omega
    · have hk := h.read j k hread
      omega
  · intro j k hj
    rcases Processes.of_update (P := fun l : Place ι R => l = .idRead k) hj with
      ⟨-, hl⟩ | ⟨hne, hj⟩
    · cases hl
    · -- Two calls that have both read the counter have taken the same id.
      have hjk : (c.place j).pendingId = some n := by
        rw [hj, hn, ← h.read j k hj]
        rfl
      exact absurd (h.unique j i n hjk hpending) hne

end Numbered

namespace Routed

variable {c : Calls ι R} {i : ι}

private theorem move (h : Routed c) {l : Place ι R} {s : Session ι R}
    (hstreams : ∀ n j, j ≠ i → s.responseStreams n = some j →
      c.shared.responseStreams n = some j) (hqueues : ∀ j, j ≠ i → s.queues j = c.shared.queues j)
    (hreceiver : s.receiver = c.shared.receiver) (hstream : ∀ n, s.responseStreams n = some i →
      l.waits n ∨ ∃ m outcome, l = .closing n m outcome)
    (hqueue : ∀ a rest n, s.queues i = a :: rest → l.waits n →
      (Message.answer a).OwnedBy i (some n)) (hover : (c.place i).over → l.over)
    (hclosing : ∀ n m outcome, l = .closing n m outcome → m.OwnedBy i (some n) ∧ m.Gives outcome)
    (hcompleted : ∀ n m outcome, l = .completed n m outcome →
      m.OwnedBy i n ∧ m.Gives outcome) : Routed ⟨s, Function.update c.place i l⟩ := by
  constructor
  · intro n j hj
    by_cases hji : j = i
    · subst hji
      rw [Processes.place_update_self]
      exact hstream n hj
    · rw [Processes.place_update_of_ne _ _ hji]
      exact h.stream n j (hstreams n j hji hj)
  · intro j a rest n hj hwaits
    rcases Processes.of_update (P := fun l : Place ι R => l.waits n) hwaits with
      ⟨rfl, hl⟩ | ⟨hne, hw⟩
    · exact hqueue a rest n hj hl
    · exact h.queue j a rest n ((hqueues j hne).symm.trans hj) hw
  · intro m message hfailed j
    refine (h.failed m message (hreceiver.symm.trans hfailed) j).imp_left fun hj => ?_
    by_cases hji : j = i
    · subst hji
      rw [Processes.place_update_self]
      exact hover hj
    · rw [Processes.place_update_of_ne _ _ hji]
      exact hj
  · intro j n m outcome hj
    rcases Processes.of_update (P := fun l : Place ι R => l = .closing n m outcome) hj with
      ⟨rfl, hl⟩ | ⟨-, hj⟩
    · exact hclosing n m outcome hl
    · exact h.closing j n m outcome hj
  · intro j n m outcome hj
    rcases Processes.of_update (P := fun l : Place ι R => l = .completed n m outcome) hj with
      ⟨rfl, hl⟩ | ⟨-, hj⟩
    · exact hcompleted n m outcome hl
    · exact h.completed j n m outcome hj

private theorem moveEarly (h : Routed c) {l : Place ι R} {n : Int}
    (hi : ∀ n, ¬ (c.place i).waits n ∧ ∀ m outcome, c.place i ≠ .closing n m outcome)
    (hl : ∀ n, ¬ l.waits n ∧ (∀ m outcome, l ≠ .closing n m outcome))
    (hover : (c.place i).over → l.over) (hcompleted : ∀ n m outcome, l = .completed n m outcome →
      m.OwnedBy i n ∧ m.Gives outcome) :
    Routed ⟨{ c.shared with requestId := n }, Function.update c.place i l⟩ := by
  refine h.move (fun _ _ _ hj => hj) (fun _ _ => rfl) rfl (fun n hn => ?_)
    (fun a rest n _ hw => absurd hw (hl n).1) hover
    (fun n m outcome he => absurd he ((hl n).2 m outcome)) hcompleted
  rcases h.stream n i hn with hw | ⟨m, outcome, hc⟩
  · exact absurd hw (hi n).1
  · exact absurd hc ((hi n).2 m outcome)

omit [DecidableEq ι] in
private theorem receive (h : Routed c) {s : Session ι R}
    (hstreams : s.responseStreams = c.shared.responseStreams)
    (hqueue : ∀ i a rest n, s.queues i = a :: rest → (c.place i).waits n →
      (Message.answer a).OwnedBy i (some n))
    (hfailed : ∀ m message, s.receiver = .failed m message →
      ∀ i, (c.place i).over ∨ ∀ requestId, m.OwnedBy i requestId) :
    Routed ⟨s, c.place⟩ := by
  refine ⟨fun n i hi => ?_, hqueue, hfailed, h.closing, h.completed⟩
  rw [hstreams] at hi
  exact h.stream n i hi

omit [DecidableEq ι] in
private theorem eq_of_stream (h : Routed c) {n k : Int}
    (hwaits : (c.place i).waits n) (hk : c.shared.responseStreams k = some i) : k = n := by
  have hid : (c.place i).pendingId = some n := by
    rcases hwaits with hw | hw
    · rw [hw]
      rfl
    · rw [hw]
      rfl
  have hkid : (c.place i).pendingId = some k := by
    rcases h.stream k i hk with (hw | hw) | ⟨m, outcome, hw⟩
    · rw [hw]
      rfl
    · rw [hw]
      rfl
    · rw [hw]
      rfl
  exact Option.some.inj (hkid.symm.trans hid)

omit [DecidableEq ι] in
private theorem owned_of_target (h : Routed c) {n : Int}
    {a : Answer ι R} (hwaits : (c.place i).waits n) (hempty : c.shared.queues i = [])
    (htarget : c.shared.target a = some i)
    (hhttp : ∀ cause statusCode message, a = .httpStatusError cause statusCode message →
      ∀ call, c.shared.responseStreams (c.shared.requestId - 1) = some call →
        cause = some call ∨ Answered c call) : (Message.answer a).OwnedBy i (some n) := by
  have hstream : ∀ id, c.shared.stream? id = some i → ∃ k, some n = some k ∧ id = .int k := by
    intro id hid
    cases id with
    | int k => exact ⟨k, by rw [h.eq_of_stream hwaits hid], rfl⟩
    | str => cases hid
  cases a with
  | response id result => exact hstream id htarget
  | error id e => exact hstream id htarget
  | httpStatusError cause statusCode message =>
    rcases hhttp cause statusCode message rfl i htarget with hown | hne | ⟨k, m, outcome, hc⟩
    · exact hown
    · exact absurd hempty hne
    · rcases hwaits with hw | hw
      · cases hw.symm.trans hc
      · cases hw.symm.trans hc

private theorem handle {h : Handlers ι R} (hc : Routed c) {m : Message ι R}
    (hrunning : c.shared.receiver = .running) (hhttp : ∀ cause statusCode message,
      m = .answer (.httpStatusError cause statusCode message) →
      ∀ call, c.shared.responseStreams (c.shared.requestId - 1) = some call →
        cause = some call ∨ Answered c call) (hraised : raised h c.shared m ≠ none →
      ∀ j, (c.place j).over ∨ ∀ requestId, m.OwnedBy j requestId) :
    Routed ⟨Mcp.handle h c.shared m, c.place⟩ := by
  have hfail : Routed ⟨c.shared.raise m (raised h c.shared m), c.place⟩ := by
    unfold Session.raise
    split
    next => exact hc
    next message hmessage =>
      refine hc.receive rfl hc.queue fun m' message' hfailed => ?_
      cases hfailed
      exact hraised (by simp [hmessage])
  unfold Mcp.handle
  split
  next a =>
    split
    next call htarget =>
      refine hc.receive rfl (fun i a' rest n hqueue hwaits => ?_) fun m message hfailed => ?_
      · by_cases hi : i = call
        · subst hi
          simp only [Session.deliver, Function.update_self] at hqueue
          cases hold : c.shared.queues i with
          | cons first others =>
            rw [hold] at hqueue
            cases hqueue
            exact hc.queue i a' others n hold hwaits
          | nil =>
            rw [hold] at hqueue
            cases hqueue
            refine hc.owned_of_target hwaits hold htarget fun cause statusCode message he => ?_
            exact hhttp cause statusCode message (congrArg Message.answer he)
        · simp only [Session.deliver, Function.update_of_ne hi] at hqueue
          exact hc.queue i a' rest n hqueue hwaits
      · simp only [Session.deliver, hrunning] at hfailed
        cases hfailed
    next => exact hfail
  next => exact hfail

end Routed

private theorem handle_requestId (h : Handlers ι R) (s : Session ι R) (m : Message ι R) :
    (handle h s m).requestId = s.requestId := by
  have hraise : (s.raise m (raised h s m)).requestId = s.requestId := by
    unfold Session.raise
    split
    next => rfl
    next => rfl
  unfold handle
  split
  next =>
    split
    next => rfl
    next => exact hraise
  next => exact hraise

private theorem routed_step {h : Handlers ι R} {c c' : Calls ι R} {a : ι × Operation ι R}
    (hn : Numbered c) (hr : Routed c) (ha : Attributed h c a)
    (hstep : step h c a = some c') : Numbered c' ∧ Routed c' := by
  obtain ⟨i, a⟩ := a
  obtain ⟨s, l, hact, rfl⟩ := Processes.step_eq_some.mp hstep
  generalize hplace : c.place i = place at hact
  unfold act at hact
  split at hact
  next =>
    split at hact
    next m message hfailed =>
      cases hact
      have howned := (hr.failed m message hfailed i).resolve_left (by simp [hplace, Place.over])
      refine ⟨hn.move rfl (by simp [Place.pendingId]) (by simp [hplace]), ?_⟩
      refine hr.moveEarly (by simp [hplace, Place.waits]) (by simp [Place.waits]) (fun _ => rfl) ?_
      rintro n m outcome ⟨⟩
      exact ⟨howned _, .inr ⟨message, rfl⟩⟩
    next =>
      cases hact
      refine ⟨hn.move rfl (by simp [Place.pendingId]) (by simp [hplace]), ?_⟩
      exact hr.moveEarly (by simp [hplace, Place.waits]) (by simp [Place.waits])
        (by simp [hplace, Place.over]) (by simp)
  next =>
    cases hact
    refine ⟨hn.readRequestId i ha, ?_⟩
    exact hr.moveEarly (by simp [hplace, Place.waits]) (by simp [Place.waits])
      (by simp [hplace, Place.over]) (by simp)
  next n =>
    cases hact
    refine ⟨hn.writeRequestId hplace, ?_⟩
    exact hr.moveEarly (by simp [hplace, Place.waits]) (by simp [Place.waits])
      (by simp [hplace, Place.over]) (by simp)
  next n =>
    cases hact
    refine ⟨hn.move rfl (by simp [hplace, Place.pendingId]) (by simp [hplace]), ?_⟩
    refine hr.move (fun k j hj hk => ?_) (fun j hj => Function.update_of_ne hj _ _) rfl
      (fun k hk => ?_) ?_ (by simp [hplace, Place.over]) (by simp) (by simp)
    · by_cases hkn : k = n
      · subst hkn
        simp only [Function.update_self, Option.some.injEq] at hk
        exact absurd hk.symm hj
      · simpa only [Function.update_of_ne hkn] using hk
    · by_cases hkn : k = n
      · exact .inl (.inl (by rw [hkn]))
      · simp only [Function.update_of_ne hkn] at hk
        rcases hr.stream k i hk with (hw | hw) | ⟨m, outcome, hw⟩
        · cases hplace.symm.trans hw
        · cases hplace.symm.trans hw
        · cases hplace.symm.trans hw
    · intro a rest k hqueue
      simp at hqueue
  next n =>
    cases hact
    refine ⟨hn.move rfl (by simp [hplace, Place.pendingId]) (by simp [hplace]), ?_⟩
    refine hr.move (fun _ _ _ hk => hk) (fun _ _ => rfl) rfl (fun k hk => ?_)
      (fun a rest k hqueue hw => ?_) (by simp [hplace, Place.over]) (by simp) (by simp)
    · have hkn := hr.eq_of_stream (n := n) (.inl hplace) hk
      exact .inl (.inr (by rw [hkn]))
    · refine hr.queue i a rest k hqueue (.inl ?_)
      rcases hw with hw | hw
      · cases hw
      · cases hw
        exact hplace
  next n =>
    split at hact
    next => cases hact
    next a rest hqueue =>
      cases hact
      refine ⟨hn.move rfl (by simp [hplace, Place.pendingId]) (by simp [hplace]), ?_⟩
      refine hr.move (fun _ _ _ hk => hk) (fun j hj => Function.update_of_ne hj _ _) rfl
        (fun k hk => ?_) (by simp [Place.waits]) (by simp [hplace, Place.over]) ?_ (by simp)
      · have hkn := hr.eq_of_stream (n := n) (.inr hplace) hk
        exact .inr ⟨_, _, by rw [hkn]⟩
      · rintro k m outcome ⟨⟩
        exact ⟨hr.queue i a rest n hqueue (.inr hplace), .inl ⟨a, rfl, rfl⟩⟩
  next n =>
    split at hact
    next m message hqueue hfailed =>
      cases hact
      have howned := (hr.failed m message hfailed i).resolve_left (by simp [hplace, Place.over])
      refine ⟨hn.move rfl (by simp [hplace, Place.pendingId]) (by simp [hplace]), ?_⟩
      refine hr.move (fun _ _ _ hk => hk) (fun _ _ => rfl) rfl (fun k hk => ?_)
        (by simp [Place.waits]) (by simp [hplace, Place.over]) ?_ (by simp)
      · have hkn := hr.eq_of_stream (n := n) (.inr hplace) hk
        exact .inr ⟨_, _, by rw [hkn]⟩
      · rintro k m outcome ⟨⟩
        exact ⟨howned _, .inr ⟨message, rfl⟩⟩
    next =>
      cases hact
      rw [← hplace, Function.update_eq_self]
      exact ⟨hn, hr⟩
    next => cases hact
  next n m outcome =>
    cases hact
    refine ⟨hn.move rfl (by simp [Place.pendingId]) (by simp [hplace]), ?_⟩
    refine hr.move (fun k j _ hk => ?_) (fun _ _ => rfl) rfl (fun k hk => ?_)
      (by simp [Place.waits]) (fun _ => rfl) (by simp) ?_
    · by_cases hkn : k = n
      · subst hkn
        simp at hk
      · simpa only [Function.update_of_ne hkn] using hk
    · by_cases hkn : k = n
      · subst hkn
        simp at hk
      · simp only [Function.update_of_ne hkn] at hk
        rcases hr.stream k i hk with (hw | hw) | ⟨m', outcome', hw⟩
        · cases hplace.symm.trans hw
        · cases hplace.symm.trans hw
        · cases hplace.symm.trans hw
          exact absurd rfl hkn
    · rintro k m' outcome' ⟨⟩
      exact hr.closing i n m outcome hplace
  next m =>
    split at hact
    next hrunning =>
      cases hact
      rw [← hplace, Function.update_eq_self]
      have hcounter := handle_requestId h c.shared m
      refine ⟨⟨hn.unique, fun j n hj => ?_, fun j n hj => ?_⟩, hr.handle hrunning ha.1 ha.2⟩
      · exact (hn.below j n hj).imp_left fun hlt => hlt.trans_eq hcounter.symm
      · exact (hn.read j n hj).trans hcounter.symm
    next => cases hact
  next =>
    split at hact
    next =>
      cases hact
      rw [← hplace, Function.update_eq_self]
      exact ⟨⟨hn.unique, hn.below, hn.read⟩, hr.receive rfl hr.queue (by simp)⟩
    next => cases hact
  next => cases hact

private theorem place_start (loop i : ι) : (start loop : Calls ι R).place i = .receiveLoop ∨
    (start loop : Calls ι R).place i = .called := by
  by_cases hi : i = loop
  · exact .inl (if_pos hi)
  · exact .inr (if_neg hi)

private theorem numbered_start (loop : ι) : Numbered (start loop : Calls ι R) := by
  have hnone : ∀ i, ((start loop : Calls ι R).place i).pendingId = none := by
    intro i
    rcases place_start (R := R) loop i with hi | hi
    · rw [hi]
      rfl
    · rw [hi]
      rfl
  constructor
  · intro i j n hi
    rw [hnone i] at hi
    cases hi
  · intro i n hi
    rw [hnone i] at hi
    cases hi
  · intro i n hi
    have hid := hnone i
    rw [hi] at hid
    cases hid

private theorem routed_start (loop : ι) : Routed (start loop : Calls ι R) := by
  refine ⟨by simp [start], by simp [start], by simp [start], fun i n m outcome hi => ?_,
    fun i n m outcome hi => ?_⟩
  · rcases place_start (R := R) loop i with hp | hp
    · cases hp.symm.trans hi
    · cases hp.symm.trans hi
  · rcases place_start (R := R) loop i with hp | hp
    · cases hp.symm.trans hi
    · cases hp.symm.trans hi

/-- In every run of concurrent calls and of the receive loop whose steps meet the condition:
every call that has completed did so with an answer that belongs to it and with the outcome
this answer gives, no two pending calls have one id, and no call was ended by an HTTP error that
another one caused. -/
theorem answers_reach_their_requests {h : Handlers ι R} {loop : ι}
    {as : List (ι × Operation ι R)} {c : Calls ι R}
    (hrun : run (step h) (start loop) as = some c)
    (hall : ∀ pre a post m, as = pre ++ a :: post → run (step h) (start loop) pre = some m →
      Attributed h m a) :
    (∀ i requestId m outcome, c.place i = .completed requestId m outcome →
      m.OwnedBy i requestId ∧ m.Gives outcome) ∧
    (∀ i j requestId, (c.place i).pendingId = some requestId →
      (c.place j).pendingId = some requestId → i = j) ∧
    ∀ i requestId cause statusCode message outcome,
      c.place i = .completed requestId (.answer (.httpStatusError cause statusCode message))
        outcome → cause = some i := by
  obtain ⟨hn, hr⟩ := run_induction (Attributed h) (P := fun m => Numbered m ∧ Routed m)
    (fun m a m' hm ha hstep => routed_step hm.1 hm.2 ha hstep)
    ⟨numbered_start loop, routed_start loop⟩ hall hrun
  exact ⟨hr.completed, hn.unique, fun i n cause status message outcome hi =>
    (hr.completed i n _ outcome hi).1⟩

/-- Two callers and the receive loop. -/
inductive Party where
  | loop
  | first
  | second
  deriving DecidableEq

/-- The handlers of a client session: exceptions are raised, server requests are completed. -/
def clientHandlers : Handlers Party String where
  handleIncoming
    | .runtimeError text _ => some text
    | .exception message => some message
    | .responder _ _ => none
  receivedRequest _ _ := .ok true

/-- A call up to its wait for an answer. -/
private def sendRequest (i : Party) : List (Party × Operation Party String) :=
  [(i, .checkReceiverStatus), (i, .readRequestId), (i, .writeRequestId), (i, .register), (i, .put)]

/-- The last request fails with an HTTP error and the other one gets its response. -/
private def lastFails : List (Party × Operation Party String) :=
  sendRequest .first ++ sendRequest .second ++
    [(.loop, .receive (.answer (.httpStatusError (some .second) 500 "server error"))),
      (.loop, .receive (.answer (.response (.int 0) "pong"))), (.first, .get), (.second, .get),
      (.first, .pop), (.second, .pop)]

/-- The condition of the run above, as a test. -/
private def attributedTest (c : Calls Party String) : Party × Operation Party String → Bool
  | (_, .readRequestId) => [Party.loop, .first, .second].all fun j =>
    match c.place j with
    | .idRead _ => false
    | _ => true
  | (_, .receive m) => (raised clientHandlers c.shared m).isNone &&
    match m with
    | .answer (.httpStatusError cause _ _) =>
      c.shared.responseStreams (c.shared.requestId - 1) = cause
    | _ => true
  | _ => true

private theorem attributed_of_test {c : Calls Party String} {a : Party × Operation Party String}
    (h : attributedTest c a = true) : Attributed clientHandlers c a := by
  obtain ⟨i, a⟩ := a
  cases a with
  | readRequestId =>
    intro j n hj
    simp only [attributedTest, List.all_cons, List.all_nil, Bool.and_true, Bool.and_eq_true] at h
    cases j with
    | loop => simp [hj] at h
    | first => simp [hj] at h
    | second => simp [hj] at h
  | receive m =>
    obtain ⟨hraised, htarget⟩ := Bool.and_eq_true_iff.mp h
    refine ⟨?_, fun hne => absurd (Option.isNone_iff_eq_none.mp hraised) hne⟩
    rintro cause statusCode message rfl call hcall
    simp only [hcall, decide_eq_true_eq] at htarget
    exact .inl htarget.symm
  | _ => trivial

theorem answers_reach_their_requests_lastFails : ∃ c : Calls Party String,
    run (step clientHandlers) (start .loop) lastFails = some c ∧
    c.place .first = .completed (some 0) (.answer (.response (.int 0) "pong")) (.result "pong") ∧
    c.place .second = .completed (some 1)
      (.answer (.httpStatusError (some .second) 500 "server error"))
      (.connectionError ⟨500, "server error"⟩) ∧
    ∀ i requestId m outcome, c.place i = .completed requestId m outcome →
      m.OwnedBy i requestId ∧ m.Gives outcome := by
  obtain ⟨c, hc, hfirst, hsecond⟩ : ∃ c : Calls Party String,
      run (step clientHandlers) (start .loop) lastFails = some c ∧
      c.place .first = .completed (some 0) (.answer (.response (.int 0) "pong")) (.result "pong") ∧
      c.place .second = .completed (some 1)
        (.answer (.httpStatusError (some .second) 500 "server error"))
        (.connectionError ⟨500, "server error"⟩) := by
    decide +kernel
  have htest : testRun (step clientHandlers) attributedTest (start .loop) lastFails = true := by
    decide +kernel
  have hall := answers_reach_their_requests hc fun pre a post m he hm =>
    attributed_of_test (allowed_of_testRun htest pre a post m he hm)
  exact ⟨c, hc, hfirst, hsecond, hall.1⟩

/-- An HTTP error of the first request ends the second one, and two calls that read the counter
before either writes it take one id. -/
theorem error_ends_other_request :
    (∃ c : Calls Party String, run (step clientHandlers) (start .loop)
      (sendRequest .first ++ sendRequest .second ++
        [(.loop, .receive (.answer (.httpStatusError (some .first) 500 "server error"))),
          (.second, .get), (.second, .pop)]) = some c ∧
      c.place .first = .waiting 0 ∧ c.place .second = .completed (some 1)
        (.answer (.httpStatusError (some .first) 500 "server error"))
        (.connectionError ⟨500, "server error"⟩)) ∧
    ∃ c : Calls Party String, run (step clientHandlers) (start .loop)
      [(.first, .checkReceiverStatus), (.second, .checkReceiverStatus),
        (.first, .readRequestId), (.second, .readRequestId), (.first, .writeRequestId),
        (.second, .writeRequestId), (.first, .register), (.second, .register)] = some c ∧
      c.place .first = .registered 0 ∧ c.place .second = .registered 0 := by
  constructor
  · decide +kernel
  · decide +kernel

end PlatformSpec.Mcp
