import Mathlib.Data.List.Basic
import PlatformSpec.Base.Assoc
import PlatformSpec.Base.Json

/-!
# Agent thoughts

Models the rounds of `core/agent/fc_agent_runner.py` as far as they are saved, and
`save_agent_thought` and `organize_agent_history` of `core/agent/base_agent_runner.py`. A column
that holds JSON is modelled by the value its text loads to: `json.loads` undoes `json.dumps`,
whether or not characters were escaped. Labels, metadata and token counts are not read back.
-/

namespace PlatformSpec.Agent

open Base

/-- The text of a column, by what `json.loads` makes of it. -/
inductive Text where
  | empty
  | json (value : Json)
  | other (text : String)

/-- `json.dumps`. -/
def dumps (value : Json) : Text := .json value

/-- `";".join(names)`. -/
def join (names : List String) : String :=
  String.ofList ([';'].intercalate (names.map String.toList))

/-- `names.split(";")`. -/
def split (names : String) : List String := (names.toList.splitOn ';').map String.ofList

/-- A tool call `(tool_call_id, tool_call_name, tool_call_args)`. -/
structure ToolCall where
  id : String
  name : String
  args : Json

/-- What one chunk of the model's answer holds; a blocking answer is one chunk. -/
structure Chunk where
  content : String
  toolCalls : List ToolCall

/-- `MessageAgentThought`. -/
structure MessageAgentThought where
  thought : String
  tool : String
  toolInput : Text
  observation : Text
  answer : String

/-- The row that `create_agent_thought` adds. -/
def createAgentThought : MessageAgentThought := ⟨"", "", .empty, .empty, ""⟩

/-- `save_agent_thought`: what is empty is not saved. -/
def saveAgentThought (agentThought : MessageAgentThought) (toolName : String) (toolInput : Text)
    (thought : String) (observation : Option (List (String × Json))) (answer : String) :
    MessageAgentThought where
  thought := if thought = "" then agentThought.thought else agentThought.thought ++ thought
  tool := if toolName = "" then agentThought.tool else toolName
  toolInput :=
    match toolInput with
    | .empty => agentThought.toolInput
    | .json value => .json value
    | .other text => .other text
  observation :=
    match observation with
    | none => agentThought.observation
    | some [] => agentThought.observation
    | some (entry :: entries) => dumps (.obj (entry :: entries))
  answer := if answer = "" then agentThought.answer else answer

/-- What happens in one round: the model's answer, and what `ToolEngine.agent_invoke` returns for
the calls by their position, if it does not raise. -/
structure Round where
  chunks : List Chunk
  invoke : Nat → Option String

/-- The text of the answer and its tool calls. -/
def collect (chunks : List Chunk) : String × List ToolCall :=
  chunks.foldl (fun r chunk => (r.1 ++ chunk.content, r.2 ++ chunk.toolCalls)) ("", [])

/-- `tool_call_names`. -/
def toolCallNames (toolCalls : List ToolCall) : String := join (toolCalls.map (·.name))

/-- `tool_call_inputs`. -/
def toolCallInputs (toolCalls : List ToolCall) : Text :=
  if toolCalls.isEmpty then .empty
  else dumps (.obj (Assoc.ofPairs (toolCalls.map fun c => (c.name, c.args))))

/-- A round as it was performed: the text of the answer, and every call with its response, if it
came to one. -/
structure PerformedRound where
  response : String
  calls : List (ToolCall × Option String)

/-- The loop over the tool calls; when a tool raises the loop is left. -/
def callTools (toolInstances : List String) (invoke : Nat → Option String) :
    Nat → List ToolCall → List (ToolCall × Option String)
  | _, [] => []
  | i, call :: calls =>
    let toolResponse :=
      if call.name ∈ toolInstances then invoke i
      else some s!"there is not a tool named {call.name}"
    match toolResponse with
    | none => (call :: calls).map fun c => (c, none)
    | some response => (call, some response) :: callTools toolInstances invoke (i + 1) calls

/-- One round of `run`. In the last one `AgentMaxIterationError` is raised before any tool is
called. -/
def performRound (toolInstances : List String) (last : Bool) (round : Round) : PerformedRound :=
  let (response, toolCalls) := collect round.chunks
  { response
    calls :=
      if last then toolCalls.map fun c => (c, none)
      else callTools toolInstances round.invoke 0 toolCalls }

/-- The thought that a round leaves: saved when the model has answered, and once more when all
tools have. -/
def saveRound (round : PerformedRound) : MessageAgentThought :=
  let toolCalls := round.calls.map (·.1)
  let agentThought := saveAgentThought createAgentThought (toolCallNames toolCalls)
    (toolCallInputs toolCalls) round.response none round.response
  match round.calls.mapM (·.2) with
  | none => agentThought
  | some [] => agentThought
  | some (response :: responses) =>
    saveAgentThought agentThought "" .empty ""
      (some (Assoc.ofPairs
        ((toolCalls.map (·.name)).zip ((response :: responses).map Json.str)))) ""

/-- The loop of `run`, for the number of steps left: it goes on while tools were called and have
answered. -/
def run (toolInstances : List String) : Nat → List Round → List PerformedRound
  | 0, _ => []
  | _ + 1, [] => []
  | steps + 1, round :: rounds =>
    let performed := performRound toolInstances (steps == 0) round
    if performed.calls.isEmpty || performed.calls.any (·.2.isNone) then [performed]
    else performed :: run toolInstances steps rounds

/-- The content of a prompt message: nothing, a text, the text of a column, or a list of parts. -/
inductive Content where
  | null
  | text (s : String)
  | column (t : Text)
  | parts (l : List Json)

/-- `AssistantPromptMessage.ToolCall`. -/
structure AssistantToolCall where
  id : Nat
  name : String
  arguments : Text

/-- `PromptMessage`. -/
inductive PromptMessage where
  | system (content : Content)
  | user (content : Content)
  | assistant (content : Content) (toolCalls : List AssistantToolCall)
  | tool (content : Content) (name : String) (toolCallId : Nat)

/-- What rebuilding the history can raise: `.get` on a value that is no dictionary, or a content
that the prompt message does not accept. -/
inductive HistoryError where
  | attributeError
  | validationError
  deriving DecidableEq

section History

/- Which lists pass as the parts of a prompt message. -/
variable (validParts : List Json → Bool)

/-- The `content` of a prompt message. -/
def validateContent : Json → Except HistoryError Content
  | .null => .ok .null
  | .str s => .ok (.text s)
  | .arr l => if validParts l then .ok (.parts l) else .error .validationError
  | .bool _ => .error .validationError
  | .num _ => .error .validationError
  | .obj _ => .error .validationError

/-- `tool_inputs.get(tool, {})`; without a JSON text there are no inputs. -/
def inputOf (toolInput : Text) (tool : String) : Except HistoryError Json :=
  match toolInput with
  | .empty => .ok (.obj [])
  | .other _ => .ok (.obj [])
  | .json (.obj d) => .ok ((d.lookup tool).getD (.obj []))
  | .json _ => .error .attributeError

/-- `tool_responses.get(tool, agent_thought.observation)` as a content; without a JSON text the
observation is the response of every tool. -/
def responseOf (observation : Text) (tool : String) : Except HistoryError Content :=
  match observation with
  | .empty => .ok (.text "")
  | .other s => .ok (.text s)
  | .json (.obj d) =>
    match d.lookup tool with
    | none => .ok (.column (.json (.obj d)))
    | some response => validateContent validParts response
  | .json _ => .error .attributeError

/-- One round of the loop over the tool names. -/
def rebuildCall (agentThought : MessageAgentThought) (toolCallId : Nat) (tool : String) :
    Except HistoryError (AssistantToolCall × PromptMessage) := do
  let input ← inputOf agentThought.toolInput tool
  let content ← responseOf validParts agentThought.observation tool
  return (⟨toolCallId, tool, dumps input⟩, .tool content tool toolCallId)

/-- The messages of one thought. The tool calls get new identifiers, from `next` on. -/
def rebuildThought (next : Nat) (agentThought : MessageAgentThought) :
    Except HistoryError (List PromptMessage) :=
  if agentThought.tool = "" then .ok [.assistant (.text agentThought.thought) []]
  else do
    let calls ← ((split agentThought.tool).zipIdx next).mapM fun p =>
      rebuildCall validParts agentThought p.2 p.1
    return .assistant (.text agentThought.thought) (calls.map (·.1)) :: calls.map (·.2)

/-- The messages of the thoughts of one message, and the next identifier. -/
def rebuildThoughts : Nat → List MessageAgentThought →
    Except HistoryError (List PromptMessage × Nat)
  | next, [] => .ok ([], next)
  | next, agentThought :: agentThoughts => do
    let first ← rebuildThought validParts next agentThought
    let rest ← rebuildThoughts (next + (split agentThought.tool).length) agentThoughts
    return (first ++ rest.1, rest.2)

/-- A message of the conversation; `userPrompt` is what `organize_agent_user_prompt` makes of its
query and files. -/
structure PastMessage where
  id : String
  userPrompt : Content
  answer : String
  agentThoughts : List MessageAgentThought

/-- The loop over the messages. -/
def rebuildMessages (currentId : String) : Nat → List PastMessage →
    Except HistoryError (List PromptMessage)
  | _, [] => .ok []
  | next, message :: messages =>
    if message.id = currentId then rebuildMessages currentId next messages
    else if message.agentThoughts.isEmpty then do
      let rest ← rebuildMessages currentId next messages
      let answer := if message.answer = "" then [] else [.assistant (.text message.answer) []]
      return .user message.userPrompt :: (answer ++ rest)
    else do
      let (thoughts, next) ← rebuildThoughts validParts next message.agentThoughts
      let rest ← rebuildMessages currentId next messages
      return .user message.userPrompt :: (thoughts ++ rest)

/-- `organize_agent_history`. -/
def organizeAgentHistory (promptMessages : List PromptMessage) (currentId : String) (next : Nat)
    (messages : List PastMessage) : Except HistoryError (List PromptMessage) := do
  let rest ← rebuildMessages validParts currentId next messages
  return (promptMessages.filter fun m => m matches .system _) ++ rest

end History

end PlatformSpec.Agent
