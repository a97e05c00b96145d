import Mathlib.Data.List.Infix
import PlatformSpec.Agent.Thought
import PlatformSpec.Base.Text

/-!
# ReAct rounds and their history

Models the rounds of `core/agent/cot_agent_runner.py` as far as they are saved, and
`_organize_historic_prompt_messages` with `_format_assistant_message` up to the history transform,
which may drop the oldest turns. What the output parser yields for a round is the round's input.
-/

namespace PlatformSpec.Agent

open Base

/-- `s.lower()`, as far as the words looked for can tell. -/
def lower (s : String) : String := String.ofList (s.toList.map Char.toLower)

/-- The input of an action: a dictionary or a text. -/
inductive ActionInput where
  | dict (fields : List (String × Json))
  | str (s : String)

/-- The input as JSON. -/
def ActionInput.json : ActionInput → Json
  | .dict fields => .obj fields
  | .str s => .str s

/-- The input that a JSON value is accepted for. -/
def ActionInput.ofJson : Json → Option ActionInput
  | .obj fields => some (.dict fields)
  | .str s => some (.str s)
  | .null => none
  | .bool _ => none
  | .num _ => none
  | .arr _ => none

@[simp] theorem ActionInput.ofJson_json (input : ActionInput) :
    ActionInput.ofJson input.json = some input := by
  cases input with
  | dict fields => rfl
  | str s => rfl

/-- `AgentScratchpadUnit.Action`. -/
structure Action where
  actionName : String
  actionInput : ActionInput

namespace Action

/-- `model_dump`. -/
def modelDump (action : Action) : Json :=
  .obj [("action_name", .str action.actionName), ("action_input", action.actionInput.json)]

/-- `to_dict`. -/
def toDict (action : Action) : Json :=
  .obj [("action", .str action.actionName), ("action_input", action.actionInput.json)]

/-- The test of `run` for the final answer. -/
def finishes (action : Action) : Bool := lower action.actionName == "final answer"

/-- The test of `is_final` for the final answer. -/
def namesFinal (action : Action) : Bool :=
  decide ("final".toList <:+: (lower action.actionName).toList) &&
    decide ("answer".toList <:+: (lower action.actionName).toList)

end Action

/-- `AgentScratchpadUnit`. -/
structure AgentScratchpadUnit where
  agentResponse : String := ""
  thought : String := ""
  actionStr : String := ""
  observation : String := ""
  action : Option Action := none

/-- `is_final`. -/
def AgentScratchpadUnit.isFinal (scratchpad : AgentScratchpadUnit) : Bool :=
  scratchpad.action.all Action.namesFinal

/-- What the output parser yields. -/
inductive ReactChunk where
  | action (a : Action)
  | text (s : String)

/-- A chunk is added to the scratchpad. -/
def AgentScratchpadUnit.addChunk (scratchpad : AgentScratchpadUnit) :
    ReactChunk → AgentScratchpadUnit
  | .action a => { scratchpad with
      agentResponse := scratchpad.agentResponse ++ a.modelDump.dumps
      actionStr := a.modelDump.dumps
      action := some a }
  | .text s => { scratchpad with
      agentResponse := scratchpad.agentResponse ++ s
      thought := scratchpad.thought ++ s }

/-- The thought of a round in which none was written. -/
def defaultThought : String := "I am thinking about how to help you"

/-- The scratchpad of one answer of the model. -/
def readChunks (chunks : List ReactChunk) : AgentScratchpadUnit :=
  let scratchpad := chunks.foldl AgentScratchpadUnit.addChunk {}
  { scratchpad with
    thought :=
      if strip scratchpad.thought = "" then defaultThought else strip scratchpad.thought }

/-- What happens in one round: what the parser yields of the model's answer, and what
`ToolEngine.agent_invoke` returns for its action, if it does not raise. -/
structure ReactRound where
  chunks : List ReactChunk
  invoke : Option String

/-- How a round ends: with `AgentMaxIterationError`, with an error of the tool, with the response
of the tool, or with the final answer. -/
inductive RoundEnd where
  | maxIteration
  | toolRaised
  | answered (response : String)
  | finished (answer : String)

/-- A round as it was performed. -/
structure PerformedReact where
  scratchpad : AgentScratchpadUnit
  ending : RoundEnd

/-- `_handle_invoke_action`. -/
def handleInvokeAction (toolInstances : List String) (invoke : Option String) (action : Action) :
    Option String :=
  if action.actionName ∈ toolInstances then invoke
  else some s!"there is not a tool named {action.actionName}"

/-- The final answer that an action gives. -/
def finalAnswer : ActionInput → String
  | .dict fields => (Json.obj fields).dumps false
  | .str s => s

/-- One round of `run`. -/
def performReact (toolInstances : List String) (last : Bool) (round : ReactRound) :
    PerformedReact :=
  let scratchpad := readChunks round.chunks
  match scratchpad.action with
  | none => ⟨scratchpad, .finished ""⟩
  | some action =>
    if action.finishes then ⟨scratchpad, .finished (finalAnswer action.actionInput)⟩
    else if last then ⟨scratchpad, .maxIteration⟩
    else
      match handleInvokeAction toolInstances round.invoke action with
      | none => ⟨scratchpad, .toolRaised⟩
      | some response => ⟨scratchpad, .answered response⟩

/-- The loop of `run`, for the number of steps left: it goes on while a tool was called and has
answered. -/
def runReact (toolInstances : List String) (rounds : Nat → ReactRound) :
    Nat → Nat → List PerformedReact
  | 0, _ => []
  | steps + 1, i =>
    let performed := performReact toolInstances (steps == 0) (rounds i)
    match performed.ending with
    | .answered _ => performed :: runReact toolInstances rounds steps (i + 1)
    | .maxIteration => [performed]
    | .toolRaised => [performed]
    | .finished _ => [performed]

/-- `{action_name: action_input}`. -/
def toolInputOf : Option Action → Text
  | none => .empty
  | some action => dumps (.obj [(action.actionName, action.actionInput.json)])

/-- `scratchpad.action.action_name if scratchpad.action and not scratchpad.is_final() else ""`. -/
def AgentScratchpadUnit.toolName (scratchpad : AgentScratchpadUnit) : String :=
  match scratchpad.action with
  | none => ""
  | some action => if action.namesFinal then "" else action.actionName

/-- The first call of `save_agent_thought` in a round. -/
def saveScratchpad (scratchpad : AgentScratchpadUnit) : MessageAgentThought :=
  saveAgentThought createAgentThought scratchpad.toolName (toolInputOf scratchpad.action)
    scratchpad.thought none scratchpad.agentResponse

/-- The thought that a round leaves: saved when the model has answered, and once more with the
response of the tool or with the final answer. -/
def saveReact (performed : PerformedReact) : MessageAgentThought :=
  let scratchpad := performed.scratchpad
  match performed.ending with
  | .maxIteration => createAgentThought
  | .toolRaised => saveScratchpad scratchpad
  | .answered response =>
    match scratchpad.action with
    | none => saveScratchpad scratchpad
    | some action =>
      saveAgentThought (saveScratchpad scratchpad) action.actionName (toolInputOf (some action))
        scratchpad.thought (some [(action.actionName, .str response)]) response
  | .finished answer => saveAgentThought (saveScratchpad scratchpad) "" .empty answer none answer

/-- `_format_assistant_message`, of one scratchpad. -/
def formatScratchpad (scratchpad : AgentScratchpadUnit) : String :=
  if scratchpad.isFinal then s!"Final Answer: {scratchpad.agentResponse}"
  else
    s!"Thought: {scratchpad.thought}\n\n" ++
      (if scratchpad.actionStr = "" then "" else s!"Action: {scratchpad.actionStr}\n\n") ++
      (if scratchpad.observation = "" then "" else s!"Observation: {scratchpad.observation}\n\n")

/-- `_format_assistant_message`. -/
def formatAssistantMessage (agentScratchpad : List AgentScratchpadUnit) : String :=
  agentScratchpad.foldl (fun message scratchpad => message ++ formatScratchpad scratchpad) ""

/-- What organizing the history can raise: a content that is no text, or a tool message before an
assistant message. -/
inductive HistoricError where
  | assertionError
  | notImplementedError
  deriving DecidableEq

/-- A column as a text. -/
def Text.toString : Text → String
  | .empty => ""
  | .json value => value.dumps false
  | .other text => text

/-- `assert isinstance(message.content, str)`. -/
def Content.asText : Content → Except HistoricError String
  | .text s => .ok s
  | .column t => .ok t.toString
  | .null => .error .assertionError
  | .parts _ => .error .assertionError

/-- The variables of the loop. `current_scratchpad` is the last scratchpad of the list, if
`current` says that there is one. -/
structure HistoricState where
  result : List PromptMessage := []
  scratchpads : List AgentScratchpadUnit := []
  current : Bool := false

namespace HistoricState

/-- The current scratchpad is changed. -/
def modifyCurrent (s : HistoricState) (f : AgentScratchpadUnit → AgentScratchpadUnit) :
    HistoricState := { s with scratchpads := s.scratchpads.modifyLast f }

/-- `if not current_scratchpad`: a new one, with the content as its thought. -/
def start (s : HistoricState) (content : Content) : Except HistoricError HistoricState :=
  if s.current then .ok s
  else do
    let text ← content.asText
    return { s with
      scratchpads := s.scratchpads ++
        [{ agentResponse := text, thought := if text = "" then defaultThought else text }]
      current := true }

/-- The first tool call becomes the action, if it can be parsed. -/
def recordAction (s : HistoricState) : List AssistantToolCall → HistoricState
  | [] => s
  | call :: _ =>
    match call.arguments with
    | .json value =>
      match ActionInput.ofJson value with
      | some input => s.modifyCurrent fun scratchpad => { scratchpad with
          action := some ⟨call.name, input⟩
          actionStr := (Action.toDict ⟨call.name, input⟩).dumps }
      | none => s
    | .empty => s
    | .other _ => s

/-- `if scratchpads`: their text becomes an assistant message. -/
def flush (s : HistoricState) : List PromptMessage :=
  if s.scratchpads.isEmpty then s.result
  else s.result ++ [.assistant (.text (formatAssistantMessage s.scratchpads)) []]

/-- One round of the loop. -/
def step (s : HistoricState) : PromptMessage → Except HistoricError HistoricState
  | .assistant content toolCalls => do return (← s.start content).recordAction toolCalls
  | .tool content _ _ =>
    if s.current then do
      let text ← content.asText
      return s.modifyCurrent fun scratchpad => { scratchpad with observation := text }
    else .error .notImplementedError
  | .user content =>
    if s.scratchpads.isEmpty then .ok { s with result := s.result ++ [.user content] }
    else .ok { result := s.flush ++ [.user content] }
  | .system _ => .ok s

end HistoricState

/-- `_organize_historic_prompt_messages`. -/
def organizeHistoricPromptMessages (historyPromptMessages : List PromptMessage) :
    Except HistoricError (List PromptMessage) := do
  return (← historyPromptMessages.foldlM HistoricState.step {}).flush

end PlatformSpec.Agent
