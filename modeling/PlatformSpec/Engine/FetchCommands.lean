import PlatformSpec.Base.Json
import PlatformSpec.Engine.RedisChannel
import PlatformSpec.Runtime.GraphExecution

/-!
# Decoding what a fetch drains

The parse loop of `fetch_commands` with `_deserialize_command`, over payloads of any kind: what
`json.loads` and the `model_validate` of the command classes return or raise is a parameter.
`JSONDecodeError`, `UnicodeDecodeError` and `ValidationError` are `ValueError`s.
-/

namespace PlatformSpec.Engine.RedisChannel

open Base PlatformSpec.Runtime

/-- The decoders the channel calls. -/
structure Decoder (Payload Command : Type) where
  loads : Payload → Except PyErrorClass Json
  modelValidate : CommandType → List (String × Json) → Except PyErrorClass Command

variable {Payload Command : Type}

/-- `_deserialize_command`. -/
def deserialize (d : Decoder Payload Command) : Json → Except PyErrorClass (Option Command)
  | .obj fields =>
    match fields.lookup "command_type" with
    | some (.str commandTypeValue) =>
      match CommandType.ofValue commandTypeValue with
      | none => .ok none
      | some commandType =>
        match d.modelValidate commandType fields with
        | .ok command => .ok (some command)
        | .error .valueError => .ok none
        | .error .typeError => .ok none
        | .error e => .error e
    | _ => .ok none
  -- `data.get` of a value that is no dictionary
  | _ => .error .attributeError

/-- One round of the parse loop. -/
def decode (d : Decoder Payload Command) (commandJson : Payload) :
    Except PyErrorClass (Option Command) :=
  match (d.loads commandJson).bind (deserialize d) with
  | .error .valueError => .ok none
  | r => r

/-- The parse loop. -/
def decodeAll (d : Decoder Payload Command) :
    (commands : List Command) → List Payload → Except PyErrorClass (List Command)
  | commands, [] => .ok commands
  | commands, commandJson :: rest =>
    match decode d commandJson with
    | .ok (some command) => decodeAll d (commands ++ [command]) rest
    | .ok none => decodeAll d commands rest
    | .error e => .error e

/-- `fetch_commands`, given the pending marker and the list it drains. -/
def fetchCommands (d : Decoder Payload Command) (pending : Bool) (listed : List Payload) :
    Except PyErrorClass (List Command) :=
  if pending then decodeAll d [] listed else .ok []

/-- The command a payload is the serialisation of. -/
def commandOf (d : Decoder Payload Command) (commandJson : Payload) : Option Command := do
  let .obj fields ← (d.loads commandJson).toOption | none
  let some (.str commandTypeValue) := fields.lookup "command_type" | none
  let commandType ← CommandType.ofValue commandTypeValue
  (d.modelValidate commandType fields).toOption

/-- The payloads whose exception leaves the loop: those `json.loads` does not decode for another
reason than their value, JSON values that are no objects, and objects whose validation raises
neither a `ValueError` nor a `TypeError`. -/
def Escapes (d : Decoder Payload Command) (commandJson : Payload) : Prop :=
  (∃ e, d.loads commandJson = .error e ∧ e ≠ .valueError) ∨
  (∃ value, d.loads commandJson = .ok value ∧ ∀ fields, value ≠ .obj fields) ∨
  ∃ fields commandTypeValue commandType e, d.loads commandJson = .ok (.obj fields) ∧
    fields.lookup "command_type" = some (.str commandTypeValue) ∧
    CommandType.ofValue commandTypeValue = some commandType ∧
    d.modelValidate commandType fields = .error e ∧ e ≠ .valueError ∧ e ≠ .typeError

variable {d : Decoder Payload Command} {commandJson : Payload}

private theorem deserialize_obj {fields : List (String × Json)} {commandTypeValue : String}
    {commandType : CommandType}
    (hvalue : fields.lookup "command_type" = some (.str commandTypeValue))
    (htype : CommandType.ofValue commandTypeValue = some commandType) :
    deserialize d (.obj fields) = match d.modelValidate commandType fields with
      | .ok command => .ok (some command)
      | .error .valueError => .ok none
      | .error .typeError => .ok none
      | .error e => .error e := by
  simp only [deserialize, hvalue, htype]

/-- A payload whose exception does not leave the loop gives its command or is skipped. -/
theorem decode_eq_ok (h : ¬ Escapes d commandJson) :
    decode d commandJson = .ok (commandOf d commandJson) := by
  unfold decode commandOf
  cases hloads : d.loads commandJson with
  | error e =>
    have he : e = .valueError := Classical.byContradiction fun he => h (.inl ⟨e, hloads, he⟩)
    subst he
    rfl
  | ok value =>
    cases value with
    | obj fields =>
      simp only [Except.bind, Except.toOption, Option.bind_eq_bind, Option.bind_some]
      cases hvalue : fields.lookup "command_type" with
      | none => simp [deserialize, hvalue]
      | some value =>
        cases value with
        | str commandTypeValue =>
          cases htype : CommandType.ofValue commandTypeValue with
          | none => simp [deserialize, hvalue, htype]
          | some commandType =>
            rw [deserialize_obj hvalue htype]
            cases hvalidate : d.modelValidate commandType fields with
            | ok command => simp [htype, hvalidate]
            | error e =>
              have he : e = .valueError ∨ e = .typeError := by
                by_contra hne
                rw [not_or] at hne
                exact h (.inr (.inr ⟨fields, _, _, e, hloads, hvalue, htype, hvalidate, hne⟩))
              rcases he with rfl | rfl
              · simp [htype, hvalidate]
              · simp [htype, hvalidate]
        | _ => simp [deserialize, hvalue]
    | _ => exact absurd (.inr (.inl ⟨_, hloads, by simp⟩)) h

theorem decode_escapes (h : Escapes d commandJson) : ∃ e, decode d commandJson = .error e := by
  unfold decode
  rcases h with ⟨e, hloads, he⟩ | ⟨value, hloads, hvalue⟩ |
    ⟨fields, commandTypeValue, commandType, e, hloads, hvalue, htype, hvalidate, he, he'⟩
  · refine ⟨e, ?_⟩
    rw [hloads]
    cases e <;> first | rfl | exact absurd rfl he
  · refine ⟨.attributeError, ?_⟩
    rw [hloads]
    cases value with
    | obj fields => exact absurd rfl (hvalue fields)
    | _ => rfl
  · refine ⟨e, ?_⟩
    rw [hloads]
    simp only [Except.bind]
    rw [deserialize_obj hvalue htype, hvalidate]
    cases e <;> first | rfl | exact absurd rfl he | exact absurd rfl he'

variable {listed : List Payload}

theorem decodeAll_eq_ok (commands : List Command)
    (h : ∀ commandJson ∈ listed, ¬ Escapes d commandJson) :
    decodeAll d commands listed = .ok (commands ++ listed.filterMap (commandOf d)) := by
  induction listed generalizing commands with
  | nil => simp [decodeAll]
  | cons commandJson rest ih =>
    have hrest := fun acc => ih acc fun p hp => h p (List.mem_cons_of_mem _ hp)
    rw [decodeAll, decode_eq_ok (h commandJson List.mem_cons_self)]
    cases hcommand : commandOf d commandJson with
    | none => rw [List.filterMap_cons_none hcommand, ← hrest]
    | some command =>
      rw [List.filterMap_cons_some hcommand, List.append_cons, ← hrest]

theorem decodeAll_escapes (commands : List Command)
    (h : ∃ commandJson ∈ listed, Escapes d commandJson) :
    ∃ e, decodeAll d commands listed = .error e := by
  induction listed generalizing commands with
  | nil => simp at h
  | cons commandJson rest ih =>
    rw [decodeAll]
    by_cases hescapes : Escapes d commandJson
    · obtain ⟨e, he⟩ := decode_escapes hescapes
      exact ⟨e, by rw [he]⟩
    · have hrest : ∃ p ∈ rest, Escapes d p := by
        obtain ⟨p, hp, hp'⟩ := h
        rcases List.mem_cons.mp hp with rfl | hp
        · exact absurd hp' hescapes
        · exact ⟨p, hp, hp'⟩
      rw [decode_eq_ok hescapes]
      cases commandOf d commandJson with
      | none => exact ih _ hrest
      | some command => exact ih _ hrest

/-- A fetch returns the commands of all valid payloads, in order, exactly when the list is
announced and no payload is of a kind whose exception leaves the loop, or it is not announced and
holds no command. -/
theorem fetch_commands_iff (d : Decoder Payload Command) (pending : Bool)
    (listed : List Payload) :
    fetchCommands d pending listed = .ok (listed.filterMap (commandOf d)) ↔
      if pending then ∀ commandJson ∈ listed, ¬ Escapes d commandJson
      else ∀ commandJson ∈ listed, commandOf d commandJson = none := by
  cases pending with
  | false =>
    show Except.ok [] = Except.ok _ ↔ ∀ commandJson ∈ listed, commandOf d commandJson = none
    rw [Except.ok.injEq, eq_comm, List.filterMap_eq_nil_iff]
  | true =>
    show decodeAll d [] listed = _ ↔ ∀ commandJson ∈ listed, ¬ Escapes d commandJson
    constructor
    · intro h commandJson hin hescapes
      obtain ⟨e, he⟩ := decodeAll_escapes [] ⟨commandJson, hin, hescapes⟩
      rw [he] at h
      cases h
    · intro h
      rw [decodeAll_eq_ok [] h, List.nil_append]

/-- A decoder that knows an abort command and a number; other texts are no JSON. -/
def abortDecoder : Decoder String CommandType where
  loads
    | "\x7b\"command_type\": \"abort\"\x7d" => .ok (.obj [("command_type", .str "abort")])
    | "5" => .ok (.num "5")
    | _ => .error .valueError
  modelValidate commandType _ := .ok commandType

/-- A number in the list loses the abort command before it, while a text that is no JSON is
skipped. -/
theorem fetch_commands_loses :
    fetchCommands abortDecoder true ["\x7b\"command_type\": \"abort\"\x7d", "invalid json"] =
        .ok [.abort] ∧
      ¬ ∀ (d : Decoder String CommandType) (listed : List String),
        fetchCommands d true listed = .ok (listed.filterMap (commandOf d)) := by
  refine ⟨by decide +kernel, fun h => ?_⟩
  have hlost : fetchCommands abortDecoder true
      ["\x7b\"command_type\": \"abort\"\x7d", "5"] = .error .attributeError := by
    decide +kernel
  rw [h] at hlost
  cases hlost

end PlatformSpec.Engine.RedisChannel
