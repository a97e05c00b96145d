import Mathlib.Data.List.Nodup
import PlatformSpec.Base.Interleaving

/-!
# The Redis command channel

Models `graph_engine/command_channels/redis_channel.py`. A send is one transaction; a fetch
consumes the pending marker in one transaction and drains the command list in another. JSON
texts and the validation of the command classes are parameters. Keys do not expire.
-/

namespace PlatformSpec.Engine.RedisChannel

open Base

/-- `CommandType`. -/
inductive CommandType where
  | abort
  | pause
  | updateVariables
  deriving DecidableEq

/-- `CommandType(value)`; unknown values raise `ValueError`. -/
def CommandType.ofValue : String → Option CommandType
  | "abort" => some .abort
  | "pause" => some .pause
  | "update_variables" => some .updateVariables
  | _ => none

/-- The dictionary that `json.loads` gives: its `command_type`, absent when it is not a
string, and its other fields. -/
structure CommandData (Fields : Type) where
  commandType : Option String
  fields : Fields

/-- How commands are written and read: `json.dumps(command.model_dump())`, `json.loads` and
the `model_validate` of the command class. -/
structure Serialization (Command Fields : Type) where
  dumps : Command → String
  loads : String → Option (CommandData Fields)
  modelValidate : CommandType → Fields → Option Command

variable {Command Fields : Type}

/-- `_deserialize_command`. -/
def deserializeCommand (c : Serialization Command Fields) (data : CommandData Fields) :
    Option Command := do
  let commandTypeValue ← data.commandType
  let commandType ← CommandType.ofValue commandTypeValue
  c.modelValidate commandType data.fields

/-- One round of the parse loop; invalid commands are skipped. -/
def parse (c : Serialization Command Fields) (commandJson : String) : Option Command :=
  (c.loads commandJson).bind (deserializeCommand c)

/-- The two Redis keys. The commands sent and the results of the fetches are recorded in
the order of their transactions; no step reads the records. -/
structure Redis (Command : Type) where
  commands : List String := []
  pending : Bool := false
  sent : List Command := []
  returned : List (List Command) := []

/-- A process is outside the channel, or between the two transactions of a fetch. -/
inductive Place where
  | idle
  | fetching
  deriving DecidableEq

/-- The transactions: `send_command`, `_has_pending_commands` and the list pipeline of
`fetch_commands`. -/
inductive Transaction (Command : Type) where
  | send (command : Command)
  | checkPending
  | drain

/-- One transaction of a process. -/
def transact (c : Serialization Command Fields) (r : Redis Command) :
    Place → Transaction Command → Option (Redis Command × Place)
  | .idle, .send command => some ({ r with
      commands := r.commands ++ [c.dumps command]
      pending := true
      sent := r.sent ++ [command] }, .idle)
  | .idle, .checkPending =>
    if r.pending then some ({ r with pending := false }, .fetching)
    else some ({ r with returned := r.returned ++ [[]] }, .idle)
  | .fetching, .drain => some ({ r with
      commands := []
      returned := r.returned ++ [r.commands.filterMap (parse c)] }, .idle)
  | _, _ => none

/-- Any number of senders and consumers on one channel. -/
abbrev Channel (Command ι : Type) := Processes (Redis Command) ι Place

variable {ι : Type} [DecidableEq ι]

/-- One transaction of one process. -/
def step (c : Serialization Command Fields) : Channel Command ι → ι × Transaction Command →
    Option (Channel Command ι) :=
  Processes.step fun _ => transact c

/-- An unused channel. -/
def empty : Channel Command ι := ⟨{}, fun _ => .idle⟩

/-- The commands sent are those returned, fetch by fetch, followed by those still listed, and
a nonempty list is announced by the marker or about to be drained. -/
structure Delivered (c : Serialization Command Fields) (ch : Channel Command ι) : Prop where
  sent : ch.shared.sent = ch.shared.returned.flatten ++ ch.shared.commands.filterMap (parse c)
  visible : ch.shared.commands ≠ [] →
    ch.shared.pending = true ∨ ∃ i, ch.place i = .fetching

variable {c : Serialization Command Fields} {a : Transaction Command}

private theorem transact_cases {r r' : Redis Command}
    {l l' : Place} (h : transact c r l a = some (r', l')) :
    (∃ command, l = .idle ∧ a = .send command ∧ l' = .idle ∧ r' = { r with
      commands := r.commands ++ [c.dumps command]
      pending := true
      sent := r.sent ++ [command] }) ∨
    (l = .idle ∧ a = .checkPending ∧ r.pending = true ∧ l' = .fetching ∧
      r' = { r with pending := false }) ∨
    (l = .idle ∧ a = .checkPending ∧ r.pending = false ∧ l' = .idle ∧
      r' = { r with returned := r.returned ++ [[]] }) ∨
    (l = .fetching ∧ a = .drain ∧ l' = .idle ∧ r' = { r with
      commands := []
      returned := r.returned ++ [r.commands.filterMap (parse c)] }) := by
  cases l with
  | idle =>
    cases a with
    | send command =>
      cases h
      exact .inl ⟨command, rfl, rfl, rfl, rfl⟩
    | checkPending =>
      simp only [transact] at h
      split at h
      next hp =>
        cases h
        exact .inr (.inl ⟨rfl, rfl, hp, rfl, rfl⟩)
      next hp =>
        cases h
        exact .inr (.inr (.inl ⟨rfl, rfl, by simpa using hp, rfl, rfl⟩))
    | drain => cases h
  | fetching =>
    cases a with
    | send command => cases h
    | checkPending => cases h
    | drain =>
      cases h
      exact .inr (.inr (.inr ⟨rfl, rfl, rfl, rfl⟩))

variable {ch : Channel Command ι}

theorem Delivered.step {ch' : Channel Command ι} {i : ι} (h : Delivered c ch)
    (hwf : ∀ command, a = .send command → parse c (c.dumps command) = some command)
    (hstep : RedisChannel.step c ch (i, a) = some ch') : Delivered c ch' := by
  obtain ⟨r, l, hact, rfl⟩ := Processes.step_eq_some.mp hstep
  rcases transact_cases hact with ⟨command, hl, rfl, rfl, rfl⟩ | ⟨hl, rfl, hp, rfl, rfl⟩ |
    ⟨hl, rfl, hp, rfl, rfl⟩ | ⟨hl, rfl, rfl, rfl⟩
  · refine ⟨?_, fun _ => .inl rfl⟩
    simp only [h.sent, List.filterMap_append, List.filterMap_cons, hwf command rfl,
      List.filterMap_nil, List.append_assoc]
  · refine ⟨h.sent, fun _ => .inr ⟨i, ?_⟩⟩
    simp
  · refine ⟨?_, fun hne => ?_⟩
    · simp only [h.sent, List.flatten_append, List.flatten_cons, List.flatten_nil,
        List.append_nil]
    · rcases h.visible hne with hpending | ⟨j, hj⟩
      · rw [hp] at hpending
        cases hpending
      · -- The consumer that announced the list is not the one that found no marker.
        have hji : j ≠ i := by
          rintro rfl
          rw [hl] at hj
          cases hj
        exact .inr ⟨j, (Function.update_of_ne hji _ _).trans hj⟩
  · refine ⟨?_, fun hne => absurd rfl hne⟩
    simp only [h.sent, List.flatten_append, List.flatten_cons, List.flatten_nil, List.append_nil,
      List.filterMap_nil]

private theorem drain_step (c : Serialization Command Fields) {i : ι}
    (hi : ch.place i = .fetching) : ∃ ch', step c ch (i, .drain) = some ch' ∧
      ch'.shared.commands = [] ∧
      ch'.shared.returned = ch.shared.returned ++ [ch.shared.commands.filterMap (parse c)] := by
  refine ⟨⟨{ ch.shared with
    commands := []
    returned := ch.shared.returned ++ [ch.shared.commands.filterMap (parse c)] },
    Function.update ch.place i .idle⟩, Processes.step_eq_some.mpr ⟨_, _, ?_, rfl⟩, rfl, rfl⟩
  rw [hi]
  rfl

private theorem check_step (c : Serialization Command Fields) {i : ι}
    (hi : ch.place i = .idle) (hp : ch.shared.pending = true) :
    ∃ mid, step c ch (i, .checkPending) = some mid ∧ mid.place i = .fetching ∧
      mid.shared = { ch.shared with pending := false } := by
  refine ⟨⟨{ ch.shared with pending := false }, Function.update ch.place i .fetching⟩,
    Processes.step_eq_some.mpr ⟨_, _, ?_, rfl⟩, Function.update_self i _ _, rfl⟩
  rw [hi]
  exact if_pos hp

/-- Whatever the interleaving of senders and consumers: every command sent is returned by at
most one fetch, in the order of the sends; a nonempty list is announced by the marker or by a
consumer between its two transactions; and some fetch can still return all that is listed. -/
theorem delivers_exactly_once {c : Serialization Command Fields}
    {as : List (ι × Transaction Command)} {ch : Channel Command ι}
    (hwf : ∀ i command, (i, .send command) ∈ as → parse c (c.dumps command) = some command)
    (hrun : run (step c) empty as = some ch) :
    ch.shared.sent = ch.shared.returned.flatten ++ ch.shared.commands.filterMap (parse c) ∧
    (ch.shared.sent.Nodup → ch.shared.returned.Pairwise List.Disjoint) ∧
    (ch.shared.commands ≠ [] → ch.shared.pending = true ∨ ∃ i, ch.place i = .fetching) ∧
    (ch.shared.commands ≠ [] → ∃ fetch ch', run (step c) ch fetch = some ch' ∧
      ch'.shared.commands = [] ∧ ch'.shared.returned =
        ch.shared.returned ++ [ch.shared.commands.filterMap (parse c)]) := by
  have h : Delivered c ch := by
    refine run_invariant (fun a => ∀ command, a.2 = .send command →
      parse c (c.dumps command) = some command) (P := Delivered c)
      (fun _ a _ hm ha hstep => hm.step ha hstep) ⟨rfl, fun hne => absurd rfl hne⟩ ?_ hrun
    rintro ⟨i, a⟩ ha command rfl
    exact hwf i command ha
  refine ⟨h.sent, fun hnd => ?_, h.visible, fun hne => ?_⟩
  · rw [h.sent] at hnd
    exact (List.nodup_flatten.mp (List.Nodup.of_append_left hnd)).2
  · by_cases hf : ∃ i, ch.place i = .fetching
    · obtain ⟨i, hi⟩ := hf
      obtain ⟨ch', hdrain, hlist, hret⟩ := drain_step c hi
      exact ⟨[(i, .drain)], ch', run_cons_eq_some.mpr ⟨ch', hdrain, rfl⟩, hlist, hret⟩
    · -- No fetch is under way, so the marker is set and any process can start one.
      have hp := (h.visible hne).resolve_right hf
      cases as with
      | nil =>
        cases hrun
        exact absurd rfl hne
      | cons a as =>
        have hi : ch.place a.1 = .idle := by
          cases hpl : ch.place a.1 with
          | idle => rfl
          | fetching => exact absurd ⟨_, hpl⟩ hf
        obtain ⟨mid, hcheck, hfetching, hmid⟩ := check_step c hi hp
        obtain ⟨ch', hdrain, hlist, hret⟩ := drain_step c hfetching
        rw [hmid] at hret
        exact ⟨[(a.1, .checkPending), (a.1, .drain)], ch', run_cons_eq_some.mpr
          ⟨mid, hcheck, run_cons_eq_some.mpr ⟨ch', hdrain, rfl⟩⟩, hlist, hret⟩

/-- The commands without fields of their own set, as their classes write them. -/
def plainCommands : Serialization CommandType Unit where
  dumps
    | .abort => "\x7b\"command_type\": \"abort\", \"payload\": null, \"reason\": null\x7d"
    | .pause =>
      "\x7b\"command_type\": \"pause\", \"payload\": null, \"reason\": \"unknown reason\"\x7d"
    | .updateVariables =>
      "\x7b\"command_type\": \"update_variables\", \"payload\": null, \"updates\": []\x7d"
  loads
    | "\x7b\"command_type\": \"abort\", \"payload\": null, \"reason\": null\x7d" =>
      some ⟨some "abort", ()⟩
    | "\x7b\"command_type\": \"pause\", \"payload\": null, \"reason\": \"unknown reason\"\x7d" =>
      some ⟨some "pause", ()⟩
    | "\x7b\"command_type\": \"update_variables\", \"payload\": null, \"updates\": []\x7d" =>
      some ⟨some "update_variables", ()⟩
    | _ => none
  modelValidate commandType _ := some commandType

theorem delivers_exactly_once_plain : ∃ ch : Channel CommandType Bool,
    run (step plainCommands) empty [(false, .send .pause), (true, .checkPending),
      (false, .send .abort), (true, .drain), (true, .checkPending),
      (false, .send .updateVariables)] = some ch ∧
    ch.shared.sent = [.pause, .abort] ++ [.updateVariables] ∧ ch.shared.commands ≠ [] ∧
    (ch.shared.pending = true ∨ ∃ i, ch.place i = .fetching) := by
  obtain ⟨ch, hch, hret, hne, hlist⟩ : ∃ ch : Channel CommandType Bool,
      run (step plainCommands) empty [(false, .send .pause), (true, .checkPending),
        (false, .send .abort), (true, .drain), (true, .checkPending),
        (false, .send .updateVariables)] = some ch ∧
      ch.shared.returned = [[.pause, .abort]] ∧ ch.shared.commands ≠ [] ∧
        ch.shared.commands.filterMap (parse plainCommands) = [.updateVariables] := by
    decide +kernel
  have hwf : ∀ command, parse plainCommands (plainCommands.dumps command) = some command := by
    intro command
    cases command with
    | abort => decide +kernel
    | pause => decide +kernel
    | updateVariables => decide +kernel
  obtain ⟨hsent, -, hvisible, -⟩ := delivers_exactly_once (fun _ command _ => hwf command) hch
  refine ⟨ch, hch, ?_, hne, hvisible hne⟩
  rw [hsent, hret, hlist]
  rfl

end PlatformSpec.Engine.RedisChannel
