import PlatformSpec.Agent.ReAct
import PlatformSpec.Base.JsonReader
import PlatformSpec.Base.Split

/-!
# Reading the stream of a ReAct round

Models `CotAgentOutputParser.handle_react_stream_output` of
`core/agent/output_parser/cot_output_parser.py`, character by character.
-/

namespace PlatformSpec.Agent

open Base Base.Split

/-! ## Actions -/

/-- Control characters in strings written as escapes. -/
def escapeControls : Bool → List Char → List Char
  | _, [] => []
  | false, c :: cs => c :: escapeControls (c == '"') cs
  | true, '\\' :: c :: cs => '\\' :: c :: escapeControls true cs
  | true, c :: cs =>
    if c.toNat < 0x20 then Json.unicodeEscape c ++ escapeControls true cs
    else c :: escapeControls (c != '"') cs

/-- `json.loads(text, strict=False)`: control characters in strings stand for themselves. -/
def loadsLenient (text : List Char) : Option Json := Json.loads (escapeControls false text)

/-- The name and the input that the members of an object are taken for. -/
def nameAndInput (fields : List (String × Json)) : Json × Json :=
  fields.foldl (fun (actionName, actionInput) (key, value) =>
    if "input".toList <:+: (lower key).toList then (actionName, value)
    else (value, actionInput)) (.null, .null)

/-- `AgentScratchpadUnit.Action(action_name=…, action_input=…)`. -/
def Action.ofJson (actionName actionInput : Json) : Except String Action :=
  match actionName, ActionInput.ofJson actionInput with
  | .str actionName, some actionInput => .ok ⟨actionName, actionInput⟩
  | _, _ => .error "ValidationError: Action"

/-- `parse_action` of what is no text: `action.items()` needs an object. -/
def parseItems (action : Json) : Except String ReactChunk :=
  match action with
  | .obj fields =>
    match nameAndInput fields with
    | (.null, _) | (_, .null) => .ok (.text (Json.dumps action))
    | (actionName, actionInput) => (Action.ofJson actionName actionInput).map .action
  | _ => .error "AttributeError: items"

/-- A list of one element stands for the element. -/
def unwrap : Json → Json
  | .arr [action] => action
  | action => action

/-- `parse_action`. -/
def parseAction (action : Json) : Except String ReactChunk :=
  match action with
  | .str text =>
    match loadsLenient text.toList with
    | none => .ok (.text text)
    | some action => parseItems (unwrap action)
  | action => parseItems (unwrap action)

/-- `parse_action` of each, up to the first that raises. -/
def parseActions : List Json → List ReactChunk × Except String Unit
  | [] => ([], .ok ())
  | action :: actions =>
    match parseAction action with
    | .error e => ([], .error e)
    | .ok chunk => (chunk :: (parseActions actions).1, (parseActions actions).2)

/-! ## Code blocks -/

def fence : List Char := ['`', '`', '`']

/-- The last closing bracket before a fence: the text up to it and what follows the fence. -/
def lastClosing : List Char → Option (List Char × List Char)
  | [] => none
  | c :: cs =>
    match lastClosing cs with
    | some (block, rest) => some (c :: block, rest)
    | none =>
      if c = ']' ∨ c = '\x7d' then
        (((cs.dropWhile isSpace).dropPrefix? fence).map fun rest => ([c], rest))
      else none

/-- A match of "```[json]*\s*([\[{].*[]}])\s*```" at the beginning: the group and the rest. -/
def matchBlock (cs : List Char) : Option (List Char × List Char) := do
  let cs ← cs.dropPrefix? fence
  let cs := (cs.dropWhile fun c => "jsonJSONſ".toList.contains c).dropWhile isSpace
  match cs with
  | [] => none
  | c :: cs =>
    if c = '[' ∨ c = '\x7b' then (lastClosing cs).map fun (block, rest) => (c :: block, rest)
    else none

/-- `re.findall` of the pattern. -/
def findBlocks : Nat → List Char → List (List Char)
  | 0, _ | _, [] => []
  | fuel + 1, c :: cs =>
    match matchBlock (c :: cs) with
    | some (block, rest) => block :: findBlocks fuel rest
    | none => findBlocks fuel cs

/-- A line of letters. -/
def isWordLine (line : List Char) : Bool :=
  line ≠ [] && line.all fun c => ('a' ≤ c && c ≤ 'z') || ('A' ≤ c && c ≤ 'Z')

/-- `re.sub(r"^[a-zA-Z]+\n", "", text, flags=re.MULTILINE)`. -/
def dropWordLines (text : List Char) : List Char :=
  let lines := pieces ['\n'] text
  ['\n'].intercalate ((lines.dropLast.filter fun line => !isWordLine line) ++ lines.getLast?.toList)

/-- `extra_json_from_code_block`. -/
def extraJsonFromCodeBlock (codeBlock : List Char) : List Json :=
  let blocks := findBlocks (codeBlock.length + 1) codeBlock
  ((blocks.mapM fun block => loadsLenient (dropWordLines (stripBoth isSpace block)))).getD []

/-! ## The automaton -/

/-- What has been read of a marker. -/
structure Marker where
  cache : List Char := []
  idx : Nat := 0
  deriving DecidableEq

/-- What becomes of a character that is held against a marker. -/
inductive MarkerRead where
  /-- It is taken, and the marker dropped when it is complete. -/
  | taken (marker : Marker)
  /-- It would begin a marker within a word. -/
  | midWord
  /-- It is no part of the marker, and what was held back is yielded. -/
  | passed (flushed : List Char)

def actionStr : List Char := "action:".toList

def thoughtStr : List Char := "thought:".toList

/-- `last_character in {"\n", " ", ""}`. -/
def atBoundary (lastCharacter : Option Char) : Bool :=
  lastCharacter.all fun c => c = '\n' || c = ' '

/-- A character held against a marker. -/
def Marker.read (word : List Char) (marker : Marker) (lastCharacter : Option Char) (delta : Char) :
    MarkerRead :=
  if word[marker.idx]? = some delta.toLower then
    if marker.idx = 0 ∧ atBoundary lastCharacter = false then .midWord
    else if marker.idx + 1 = word.length then .taken {}
    else .taken ⟨marker.cache ++ [delta], marker.idx + 1⟩
  else .passed marker.cache

/-- The variables of `handle_react_stream_output`. -/
structure Parser where
  codeBlockCache : List Char := []
  codeBlockDelimiterCount : Nat := 0
  inCodeBlock : Bool := false
  jsonCache : List Char := []
  jsonQuoteCount : Nat := 0
  inJson : Bool := false
  gotJson : Bool := false
  action : Marker := {}
  thought : Marker := {}
  lastCharacter : Option Char := none
  deriving DecidableEq

/-- What a part of the loop does: the rest of the round is skipped or not. -/
inductive Flow where
  | skip (p : Parser)
  | go (p : Parser)

/-- A text that is yielded. -/
def chunk (text : List Char) : ReactChunk := .text (String.ofList text)

namespace Parser

/-- The part for backticks. -/
def readBacktick (p : Parser) (delta : Char) : List ReactChunk × Parser :=
  if p.inJson = false ∧ delta = '`' then
    ([], { p with
      lastCharacter := some delta
      codeBlockCache := p.codeBlockCache ++ [delta]
      codeBlockDelimiterCount := p.codeBlockDelimiterCount + 1 })
  else if p.inCodeBlock then
    ([], { p with
      lastCharacter := some delta
      codeBlockCache := p.codeBlockCache ++ [delta]
      codeBlockDelimiterCount := 0 })
  else if 0 < p.codeBlockDelimiterCount then
    ([chunk p.codeBlockCache], { p with
      lastCharacter := some delta
      codeBlockCache := []
      codeBlockDelimiterCount := 0 })
  else ([], { p with codeBlockCache := [], codeBlockDelimiterCount := 0 })

/-- What was held back of a marker is yielded when there is something. -/
def flush (p : Parser) (flushed : List Char) (delta : Char) : List ReactChunk × Parser :=
  if flushed = [] then ([], p)
  else ([chunk flushed], { p with lastCharacter := some delta })

/-- The part for `thought:`, with whether the character would begin `action:` within a word. -/
def readThought (p : Parser) (delta : Char) (yieldDelta : Bool) : List ReactChunk × Flow :=
  let midWord (p : Parser) : List ReactChunk × Flow :=
    ([chunk [delta]], .skip { p with lastCharacter := some delta })
  match p.thought.read thoughtStr p.lastCharacter delta with
  | .taken thought => ([], .skip { p with lastCharacter := some delta, thought := thought })
  | .midWord => midWord p
  | .passed flushed =>
    let (out, q) := { p with thought := {} }.flush flushed delta
    if yieldDelta then (out ++ (midWord q).1, (midWord q).2) else (out, .go q)

/-- The part for markers. -/
def readMarkers (p : Parser) (delta : Char) : List ReactChunk × Flow :=
  match p.action.read actionStr p.lastCharacter delta with
  | .taken action => ([], .skip { p with lastCharacter := some delta, action := action })
  | .midWord => p.readThought delta true
  | .passed flushed =>
    let (out, q) := { p with action := {} }.flush flushed delta
    (out ++ (q.readThought delta false).1, (q.readThought delta false).2)

/-- The part for the third of three backticks. -/
def readFence (p : Parser) (delta : Char) : List ReactChunk × Except String Flow :=
  if p.codeBlockDelimiterCount = 3 then
    if p.inCodeBlock then
      let p := { p with lastCharacter := some delta }
      match extraJsonFromCodeBlock p.codeBlockCache with
      | [] => ([], .ok (.skip p))
      | actions =>
        let (out, result) := parseActions actions
        (out, result.map fun _ => .go { p with
          codeBlockCache := []
          inCodeBlock := false
          codeBlockDelimiterCount := 0 })
    else ([], .ok (.go { p with inCodeBlock := true, codeBlockDelimiterCount := 0 }))
  else ([], .ok (.go p))

/-- The part for braces. -/
def readBrace (p : Parser) (delta : Char) : Flow :=
  if delta = '\x7b' then
    .go { p with
      jsonQuoteCount := p.jsonQuoteCount + 1
      inJson := true
      lastCharacter := some delta
      jsonCache := p.jsonCache ++ [delta] }
  else if delta = '\x7d' then
    let q := { p with lastCharacter := some delta, jsonCache := p.jsonCache ++ [delta] }
    if p.jsonQuoteCount = 0 then .go q
    else if p.jsonQuoteCount = 1 then
      .skip { q with jsonQuoteCount := 0, inJson := false, gotJson := true }
    else .go { q with jsonQuoteCount := p.jsonQuoteCount - 1 }
  else if p.inJson then
    .go { p with lastCharacter := some delta, jsonCache := p.jsonCache ++ [delta] }
  else .go p

/-- What was collected between braces is parsed with the character after it. -/
def emitJson (p : Parser) (delta : Char) : List ReactChunk × Except String Parser :=
  if p.gotJson then
    match parseAction (.str (String.ofList p.jsonCache)) with
    | .error e => ([], .error e)
    | .ok c => ([c], .ok { p with
        gotJson := false
        lastCharacter := some delta
        jsonCache := []
        jsonQuoteCount := 0
        inJson := false })
  else ([], .ok p)

/-- The end of a round: outside code blocks and JSON the character is yielded. -/
def yieldCharacter (p : Parser) (delta : Char) : List ReactChunk × Parser :=
  if p.inCodeBlock = false ∧ p.inJson = false then
    ([chunk (if delta = '`' then [] else [delta])], { p with lastCharacter := some delta })
  else ([], p)

/-- The part for JSON and the end of the round. -/
def readJson (p : Parser) (delta : Char) : List ReactChunk × Except String Parser :=
  if p.inCodeBlock then ([], .ok p)
  else
    match p.readBrace delta with
    | .skip p => ([], .ok p)
    | .go p =>
      match p.emitJson delta with
      | (out, .error e) => (out, .error e)
      | (out, .ok p) =>
        let (out', p) := p.yieldCharacter delta
        (out ++ out', .ok p)

/-- The rounds from the fence on. -/
def finishRound (p : Parser) (delta : Char) : List ReactChunk × Except String Parser :=
  match p.readFence delta with
  | (out, .error e) => (out, .error e)
  | (out, .ok (.skip p)) => (out, .ok p)
  | (out, .ok (.go p)) => (out ++ (p.readJson delta).1, (p.readJson delta).2)

/-- A round of the loop over the characters. -/
def step (p : Parser) (delta : Char) : List ReactChunk × Except String Parser :=
  let (out, p) := p.readBacktick delta
  if p.inCodeBlock = false ∧ p.inJson = false then
    match p.readMarkers delta with
    | (out', .skip p) => (out ++ out', .ok p)
    | (out', .go p) => (out ++ out' ++ (p.finishRound delta).1, (p.finishRound delta).2)
  else (out ++ (p.finishRound delta).1, (p.finishRound delta).2)

/-- The loop over the characters of one response. -/
def run (p : Parser) : List Char → List ReactChunk × Except String Parser
  | [] => ([], .ok p)
  | delta :: rest =>
    match p.step delta with
    | (out, .error e) => (out, .error e)
    | (out, .ok p) => (out ++ (run p rest).1, (run p rest).2)

/-- What is yielded after the last response. -/
def finish (p : Parser) : List ReactChunk × Except String Unit :=
  let out := if p.codeBlockCache = [] then [] else [chunk p.codeBlockCache]
  if p.jsonCache = [] then (out, .ok ())
  else
    match parseAction (.str (String.ofList p.jsonCache)) with
    | .error e => (out, .error e)
    | .ok c => (out ++ [c], .ok ())

/-- The loop over the responses, by their contents; `none` for a content that is no text. -/
def runResponses (p : Parser) : List (Option (List Char)) → List ReactChunk × Except String Unit
  | [] => p.finish
  | none :: responses => runResponses p responses
  | some content :: responses =>
    match p.run content with
    | (out, .error e) => (out, .error e)
    | (out, .ok p) => (out ++ (runResponses p responses).1, (runResponses p responses).2)

end Parser

/-- `LLMResultChunk`, as far as it is read. -/
structure LLMResultChunk (υ : Type) where
  usage : Option υ
  content : Option (List Char)

/-- `usage_dict["usage"]` after the responses. -/
def usageAfter {υ : Type} (usageDict : Option υ) (llmResponse : List (LLMResultChunk υ)) :
    Option υ :=
  llmResponse.foldl (fun usage response => response.usage.or usage) usageDict

/-- `handle_react_stream_output`: what is yielded, and whether it raises. -/
def handleReactStreamOutput {υ : Type} (llmResponse : List (LLMResultChunk υ)) :
    List ReactChunk × Except String Unit :=
  ({} : Parser).runResponses (llmResponse.map (·.content))

end PlatformSpec.Agent
