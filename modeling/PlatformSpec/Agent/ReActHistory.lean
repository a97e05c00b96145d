import PlatformSpec.Agent.History
import PlatformSpec.Agent.ReAct

/-!
# When the history replays ReAct rounds

The thought of a round that called a tool is saved twice, and all rounds of a turn are folded
into one scratchpad. What is left are the turns of one round in which no tool answered.
-/

namespace PlatformSpec.Agent

open Base

/-- A turn of the conversation: its message, with what the model and the tools do in each round. -/
structure PastTurn where
  id : String
  userPrompt : Content
  answer : String
  toolInstances : List String
  maxIteration : Nat
  rounds : Nat → ReactRound

namespace PastTurn

/-- The rounds performed; `max_iteration_steps = min(max_iteration, 99) + 1`. -/
def performed (turn : PastTurn) : List PerformedReact :=
  runReact turn.toolInstances turn.rounds (min turn.maxIteration 99 + 1) 0

/-- The message with the thoughts saved. -/
def message (turn : PastTurn) : PastMessage :=
  ⟨turn.id, turn.userPrompt, turn.answer, turn.performed.map saveReact⟩

/-- The first round as it was performed. -/
def first (turn : PastTurn) : PerformedReact :=
  performReact turn.toolInstances (min turn.maxIteration 99 == 0) (turn.rounds 0)

end PastTurn

namespace PerformedReact

/-- The thought of a round once, followed by the final answer. -/
def record (performed : PerformedReact) : String :=
  match performed.ending with
  | .finished answer => performed.scratchpad.thought ++ answer
  | .answered _ => performed.scratchpad.thought
  | .toolRaised => performed.scratchpad.thought
  | .maxIteration => performed.scratchpad.thought

/-- The text of a round's thought and action. -/
def stepText (performed : PerformedReact) : String :=
  s!"Thought: {performed.scratchpad.thought}\n\n" ++
    match performed.scratchpad.action with
    | none => ""
    | some action => s!"Action: {action.toDict.dumps}\n\n"

/-- The text of a round: its thought, action and observation, or the final answer. -/
def text (performed : PerformedReact) : String :=
  match performed.ending with
  | .finished answer => s!"Final Answer: {performed.scratchpad.thought ++ answer}"
  | .answered response =>
    performed.stepText ++ if response = "" then "" else s!"Observation: {response}\n\n"
  | .toolRaised => performed.stepText
  | .maxIteration => performed.stepText

end PerformedReact

/-- The user's message, and the texts of all rounds in order. -/
def PastTurn.replay (turn : PastTurn) : List PromptMessage :=
  [.user turn.userPrompt, .assistant (.text (String.join (turn.performed.map (·.text)))) []]

/-- Every round's thought is recorded once, and the history is rebuilt without an error, as one
turn after another, each with its rounds as they happened. -/
def ReactReplayed (validParts : List Json → Bool) (promptMessages : List PromptMessage)
    (currentId : String) (next : Nat) (turns : List PastTurn) : Prop :=
  (∀ turn ∈ turns, turn.id ≠ currentId → ∀ performed ∈ turn.performed,
    (saveReact performed).thought = performed.record) ∧
  ∃ history, organizeAgentHistory validParts promptMessages currentId next
      (turns.map PastTurn.message) = .ok history ∧
    organizeHistoricPromptMessages history =
      .ok ((turns.filter fun turn => decide (turn.id ≠ currentId)).flatMap PastTurn.replay)

/-- The tool of an action raises, and its name is saved and read back whole. -/
def RaisesPlainly (turn : PastTurn) (action : Action) : Prop :=
  0 < turn.maxIteration ∧ action.actionName ∈ turn.toolInstances ∧
    (turn.rounds 0).invoke = none ∧ action.actionName ≠ "" ∧ ';' ∉ action.actionName.toList ∧
      action.namesFinal = false

/-- The model's first answer asks for no tool, or for one that raises. -/
def Replayable (turn : PastTurn) : Prop :=
  ∀ action, (readChunks (turn.rounds 0).chunks).action = some action →
    action.finishes = true ∨ RaisesPlainly turn action

section Rounds

theorem defaultThought_ne : defaultThought ≠ "" := by decide

theorem readChunks_thought_ne (chunks : List ReactChunk) : (readChunks chunks).thought ≠ "" := by
  unfold readChunks
  dsimp only
  split
  next => exact defaultThought_ne
  next h => exact h

variable {action : Action}

theorem Action.namesFinal_of_finishes (h : action.finishes = true) :
    action.namesFinal = true := by
  have hname : lower action.actionName = "final answer" := by simpa [finishes] using h
  unfold namesFinal
  rw [hname]
  decide

theorem performReact_cases (toolInstances : List String) (last : Bool) (round : ReactRound) :
    ((readChunks round.chunks).action = none ∧
      performReact toolInstances last round = ⟨readChunks round.chunks, .finished ""⟩) ∨
    ∃ action, (readChunks round.chunks).action = some action ∧
      ((action.finishes = true ∧ performReact toolInstances last round =
          ⟨readChunks round.chunks, .finished (finalAnswer action.actionInput)⟩) ∨
        (action.finishes = false ∧ last = true ∧ performReact toolInstances last round =
          ⟨readChunks round.chunks, .maxIteration⟩) ∨
        (action.finishes = false ∧ last = false ∧
          handleInvokeAction toolInstances round.invoke action = none ∧
          performReact toolInstances last round = ⟨readChunks round.chunks, .toolRaised⟩) ∨
        ∃ response, action.finishes = false ∧ last = false ∧
          handleInvokeAction toolInstances round.invoke action = some response ∧
          performReact toolInstances last round =
            ⟨readChunks round.chunks, .answered response⟩) := by
  cases haction : (readChunks round.chunks).action with
  | none => exact .inl ⟨rfl, by simp [performReact, haction]⟩
  | some action =>
    refine .inr ⟨action, rfl, ?_⟩
    cases hfinishes : action.finishes with
    | true => exact .inl ⟨rfl, by simp [performReact, haction, hfinishes]⟩
    | false =>
      refine .inr ?_
      cases last with
      | true => exact .inl ⟨rfl, rfl, by simp [performReact, haction, hfinishes]⟩
      | false =>
        refine .inr ?_
        cases hinvoke : handleInvokeAction toolInstances round.invoke action with
        | none =>
          exact .inl ⟨rfl, rfl, rfl, by simp [performReact, haction, hfinishes, hinvoke]⟩
        | some response =>
          exact .inr ⟨response, rfl, rfl, rfl,
            by simp [performReact, haction, hfinishes, hinvoke]⟩

theorem handleInvokeAction_eq_none {toolInstances : List String} {invoke : Option String}
    : handleInvokeAction toolInstances invoke action = none ↔
      action.actionName ∈ toolInstances ∧ invoke = none := by
  unfold handleInvokeAction
  split
  next h => simp [h]
  next h => simp [h]

theorem PastTurn.performed_cases (turn : PastTurn) :
    (∃ rest, turn.performed = turn.first :: rest) ∧
      ((∀ response, turn.first.ending ≠ .answered response) → turn.performed = [turn.first]) := by
  unfold performed first
  rw [runReact]
  split
  next response h => exact ⟨⟨_, rfl⟩, fun hne => absurd h (hne response)⟩
  next => exact ⟨⟨[], rfl⟩, fun _ => rfl⟩
  next => exact ⟨⟨[], rfl⟩, fun _ => rfl⟩
  next => exact ⟨⟨[], rfl⟩, fun _ => rfl⟩

theorem saveAgentThought_thought (agentThought : MessageAgentThought) (toolName : String)
    (toolInput : Text) (thought : String) (observation : Option (List (String × Json)))
    (answer : String) :
    (saveAgentThought agentThought toolName toolInput thought observation answer).thought =
      if thought = "" then agentThought.thought else agentThought.thought ++ thought := rfl

variable {scratchpad : AgentScratchpadUnit}

theorem saveScratchpad_thought (h : scratchpad.thought ≠ "") :
    (saveScratchpad scratchpad).thought = scratchpad.thought := by
  rw [saveScratchpad, saveAgentThought_thought, if_neg h]
  exact String.empty_append

/-- The thought of a round without a tool is saved once, with the final answer. -/
theorem saveReact_finished {answer : String} (h : scratchpad.thought ≠ "") :
    (saveReact ⟨scratchpad, .finished answer⟩).thought = scratchpad.thought ++ answer := by
  rw [saveReact, saveAgentThought_thought, saveScratchpad_thought h]
  split
  next ha => rw [ha, String.append_empty]
  next => rfl

theorem saveReact_answered {response : String} (haction : scratchpad.action = some action)
    (h : scratchpad.thought ≠ "") : (saveReact ⟨scratchpad, .answered response⟩).thought =
      scratchpad.thought ++ scratchpad.thought := by
  rw [saveReact]
  dsimp only
  rw [haction]
  dsimp only
  rw [saveAgentThought_thought, saveScratchpad_thought h, if_neg h]

end Rounds

/-- The first round, if its thought is saved once: it finishes, or its tool raises. -/
theorem first_cases (turn : PastTurn) (h : (saveReact turn.first).thought = turn.first.record) :
    (∃ answer, turn.first = ⟨readChunks (turn.rounds 0).chunks, .finished answer⟩ ∧
      (readChunks (turn.rounds 0).chunks).toolName = "" ∧ Replayable turn) ∨
    ∃ action, (readChunks (turn.rounds 0).chunks).action = some action ∧
      turn.first = ⟨readChunks (turn.rounds 0).chunks, .toolRaised⟩ ∧
      action.finishes = false ∧ 0 < turn.maxIteration ∧
      action.actionName ∈ turn.toolInstances ∧ (turn.rounds 0).invoke = none := by
  have hne := readChunks_thought_ne (turn.rounds 0).chunks
  unfold PastTurn.first at h ⊢
  rcases performReact_cases turn.toolInstances (min turn.maxIteration 99 == 0) (turn.rounds 0) with
    ⟨haction, he⟩ | ⟨action, haction, ⟨hf, he⟩ | ⟨-, -, he⟩ | ⟨hf, hlast, hinvoke, he⟩ |
      ⟨response, -, -, -, he⟩⟩
  · refine .inl ⟨_, he, ?_, ?_⟩
    · simp [AgentScratchpadUnit.toolName, haction]
    · intro action ha
      rw [haction] at ha
      cases ha
  · refine .inl ⟨_, he, ?_, ?_⟩
    · simp [AgentScratchpadUnit.toolName, haction, Action.namesFinal_of_finishes hf]
    · intro action' ha
      rw [haction] at ha
      cases ha
      exact .inl hf
  · rw [he] at h
    exact absurd h.symm hne
  · obtain ⟨hmem, hnone⟩ := handleInvokeAction_eq_none.mp hinvoke
    have hmax : min turn.maxIteration 99 ≠ 0 := by simpa using hlast
    exact .inr ⟨action, haction, he, hf, by omega, hmem, hnone⟩
  · rw [he, saveReact_answered haction hne] at h
    have hempty : (readChunks (turn.rounds 0).chunks).thought = "" := by
      simpa [PerformedReact.record] using h
    exact absurd hempty hne

/-- The action that is read back from the thought of a round whose tool raised. -/
def Action.readBack (action : Action) : Action :=
  let tool := (split action.actionName).headD ""
  ⟨tool, if tool = action.actionName then action.actionInput else .dict []⟩

/-- The scratchpad that is read back from the only thought of a turn. -/
def PerformedReact.readBack (performed : PerformedReact) : AgentScratchpadUnit :=
  let scratchpad := performed.scratchpad
  match performed.ending, scratchpad.action with
  | .toolRaised, some action =>
    if scratchpad.toolName = "" then
      { agentResponse := performed.record, thought := performed.record }
    else
      { agentResponse := performed.record, thought := performed.record
        actionStr := action.readBack.toDict.dumps, action := some action.readBack }
  | _, _ => { agentResponse := performed.record, thought := performed.record }

section Fold

theorem split_ne_nil (names : String) : split names ≠ [] := by
  simp [split]

private theorem foldlM_tools (s : HistoricState) (calls : List (String × Nat))
    (hcurrent : s.current = true)
    (hs : s.modifyCurrent (fun scratchpad => { scratchpad with observation := "" }) = s) :
    (calls.map fun call => PromptMessage.tool (.text "") call.1 call.2).foldlM
      HistoricState.step s = .ok s := by
  induction calls with
  | nil => rfl
  | cons call calls ih =>
    rw [List.map_cons, List.foldlM_cons]
    have hstep : s.step (.tool (.text "") call.1 call.2) = .ok s := by
      rw [HistoricState.step, if_pos hcurrent]
      exact congrArg Except.ok hs
    rw [hstep]
    exact ih

variable (validParts : List Json → Bool) {agentThought : MessageAgentThought}

private theorem rebuildThought_tool
    {inputs : List (String × Json)} (next : Nat) (htool : agentThought.tool ≠ "")
    (hinput : agentThought.toolInput = .json (.obj inputs))
    (hobservation : agentThought.observation = .empty) :
    rebuildThought validParts next agentThought = .ok (.assistant (.text agentThought.thought)
          (((split agentThought.tool).zipIdx next).map fun call =>
            ⟨call.2, call.1, dumps ((inputs.lookup call.1).getD (.obj []))⟩) ::
        ((split agentThought.tool).zipIdx next).map fun call =>
          .tool (.text "") call.1 call.2) := by
  have hcall : (fun call : String × Nat =>
      rebuildCall validParts agentThought call.2 call.1) = fun call =>
        pure (⟨call.2, call.1, dumps ((inputs.lookup call.1).getD (.obj []))⟩,
          .tool (.text "") call.1 call.2) := by
    funext call
    rw [rebuildCall, hinput, hobservation]
    rfl
  rw [rebuildThought, if_neg htool, hcall, List.mapM_pure]
  simp [pure, Except.pure, bind, Except.bind, List.map_map, Function.comp_def]

private theorem rebuildThought_plain (next : Nat)
    (htool : agentThought.tool = "") : rebuildThought validParts next agentThought =
      .ok [.assistant (.text agentThought.thought) []] := by
  rw [rebuildThought, if_pos htool]

private theorem saveScratchpad_tool (scratchpad : AgentScratchpadUnit) :
    (saveScratchpad scratchpad).tool = scratchpad.toolName := by
  show (if scratchpad.toolName = "" then "" else scratchpad.toolName) = _
  split
  next h => exact h.symm
  next => rfl

private theorem step_assistant (result : List PromptMessage) {thought : String}
    (h : thought ≠ "") (toolCalls : List AssistantToolCall) :
    HistoricState.step { result := result } (.assistant (.text thought) toolCalls) =
      .ok (HistoricState.recordAction { result := result, current := true
                                        scratchpads := [⟨thought, thought, "", "", none⟩] }
        toolCalls) := by
  simp [HistoricState.step, HistoricState.start, Content.asText, h, pure, Except.pure, bind,
    Except.bind]

private theorem fold_only {performed : PerformedReact} (hne : performed.scratchpad.thought ≠ "")
    (hending : (∃ answer, performed.ending = .finished answer ∧
        performed.scratchpad.toolName = "") ∨
      performed.ending = .toolRaised ∧ performed.scratchpad.action ≠ none) (next : Nat)
    (result : List PromptMessage) : ∃ block next',
      rebuildThoughts validParts next [saveReact performed] = .ok (block, next') ∧
      block.foldlM HistoricState.step { result := result } =
        .ok { result := result, scratchpads := [performed.readBack], current := true } := by
  obtain ⟨scratchpad, ending⟩ := performed
  rcases hending with ⟨answer, rfl, htool⟩ | ⟨rfl, haction⟩
  · have hrecord : scratchpad.thought ++ answer ≠ "" := by
      simpa using fun h => absurd h hne
    have hplain : rebuildThought validParts next (saveReact ⟨scratchpad, .finished answer⟩) =
        .ok [.assistant (.text (scratchpad.thought ++ answer)) []] := by
      rw [← saveReact_finished hne]
      exact rebuildThought_plain validParts next ((saveScratchpad_tool scratchpad).trans htool)
    refine ⟨_, _, by rw [rebuildThoughts, hplain]; rfl, ?_⟩
    rw [List.append_nil, List.foldlM_cons, step_assistant result hrecord]
    rfl
  · obtain ⟨action, ha⟩ := Option.ne_none_iff_exists'.mp haction
    have hthought := saveScratchpad_thought hne
    by_cases htool : scratchpad.toolName = ""
    · have hplain : rebuildThought validParts next (saveReact ⟨scratchpad, .toolRaised⟩) =
          .ok [.assistant (.text scratchpad.thought) []] := by
        rw [← hthought]
        exact rebuildThought_plain validParts next ((saveScratchpad_tool scratchpad).trans htool)
      refine ⟨_, _, by rw [rebuildThoughts, hplain]; rfl, ?_⟩
      rw [List.append_nil, List.foldlM_cons, step_assistant result hne,
        PerformedReact.readBack, ha]
      dsimp only
      rw [if_pos htool]
      rfl
    · have hname : scratchpad.toolName = action.actionName := by
        rw [AgentScratchpadUnit.toolName, ha] at htool ⊢
        dsimp only at htool ⊢
        split at htool
        next => exact absurd rfl htool
        next h => rw [if_neg h]
      have hsaved : (saveScratchpad scratchpad).tool = action.actionName :=
        (saveScratchpad_tool scratchpad).trans hname
      have hinput : (saveScratchpad scratchpad).toolInput =
          .json (.obj [(action.actionName, action.actionInput.json)]) := by
        rw [saveScratchpad, ha]
        rfl
      have hrebuild := rebuildThought_tool validParts next
        (hsaved ▸ hname ▸ htool) hinput rfl
      rw [hsaved, hthought] at hrebuild
      refine ⟨_, _, by rw [rebuildThoughts, saveReact, hrebuild]; rfl, ?_⟩
      rw [List.append_nil, List.foldlM_cons, step_assistant result hne]
      obtain ⟨tool, tools, hsplit⟩ := List.exists_cons_of_ne_nil (split_ne_nil action.actionName)
      have hstart : HistoricState.recordAction { result := result, current := true
                                                 scratchpads := [⟨scratchpad.thought,
                                                  scratchpad.thought, "", "", none⟩] }
          (((split action.actionName).zipIdx next).map fun call => ⟨call.2, call.1,
            dumps (([(action.actionName, action.actionInput.json)].lookup call.1).getD
              (.obj []))⟩) =
          { result := result, current := true
            scratchpads := [PerformedReact.readBack ⟨scratchpad, .toolRaised⟩] } := by
        rw [PerformedReact.readBack, ha]
        dsimp only
        rw [if_neg htool, Action.readBack, hsplit, List.zipIdx_cons, List.map_cons]
        by_cases h : tool = action.actionName
        · simp [h, HistoricState.recordAction, dumps, HistoricState.modifyCurrent,
            PerformedReact.record]
          rfl
        · simp [h, HistoricState.recordAction, dumps, HistoricState.modifyCurrent,
            PerformedReact.record, List.lookup_cons, beq_false_of_ne h, ActionInput.ofJson]
          rfl
      rw [hstart]
      refine foldlM_tools _ _ rfl ?_
      rw [PerformedReact.readBack, ha]
      dsimp only
      rw [if_neg htool]
      rfl

/-- A turn that comes out with its only thought saved once. -/
def PastTurn.Once (turn : PastTurn) : Prop :=
  turn.performed = [turn.first] ∧
    ((∃ answer, turn.first.ending = .finished answer ∧ turn.first.scratchpad.toolName = "") ∨
      turn.first.ending = .toolRaised ∧ turn.first.scratchpad.action ≠ none)

/-- The user's message, and the text of the scratchpad that is read back. -/
def PastTurn.readBack (turn : PastTurn) : List PromptMessage :=
  [.user turn.userPrompt,
    .assistant (.text (formatAssistantMessage [turn.first.readBack])) []]

private theorem step_user {s : HistoricState} (hs : s.scratchpads = [] → s.current = false)
    (content : Content) :
    s.step (.user content) = .ok { result := s.flush ++ [.user content] } := by
  obtain ⟨result, scratchpads, current⟩ := s
  cases scratchpads with
  | nil =>
    cases hs rfl
    rfl
  | cons scratchpad scratchpads => rfl

private theorem fold_turns (currentId : String) (turns : List PastTurn)
    (hall : ∀ turn ∈ turns, turn.id ≠ currentId → turn.Once) (next : Nat) :
    ∃ messages, rebuildMessages validParts currentId next (turns.map PastTurn.message) =
        .ok messages ∧
      ∀ s : HistoricState, (s.scratchpads = [] → s.current = false) →
        ∃ s', messages.foldlM HistoricState.step s = .ok s' ∧
          s'.flush = s.flush ++
            (turns.filter fun turn => decide (turn.id ≠ currentId)).flatMap
              PastTurn.readBack := by
  induction turns generalizing next with
  | nil => exact ⟨[], rfl, fun s hs => ⟨s, rfl, by simp⟩⟩
  | cons turn turns ih =>
    have hturns : ∀ turn ∈ turns, turn.id ≠ currentId → turn.Once :=
      fun t ht => hall t (List.mem_cons_of_mem _ ht)
    have hsame : turn.message.id = turn.id := rfl
    by_cases hid : turn.id = currentId
    · obtain ⟨messages, hmessages, hfold⟩ := ih hturns next
      refine ⟨messages, ?_, ?_⟩
      · rw [List.map_cons, rebuildMessages, hsame, if_pos hid, hmessages]
      · rw [List.filter_cons_of_neg (by simpa using hid)]
        exact hfold
    · obtain ⟨hperformed, hending⟩ := hall turn List.mem_cons_self hid
      have hne : turn.first.scratchpad.thought ≠ "" := by
        unfold PastTurn.first
        rcases performReact_cases turn.toolInstances (min turn.maxIteration 99 == 0)
          (turn.rounds 0) with
          ⟨-, he⟩ | ⟨action, -, ⟨-, he⟩ | ⟨-, -, he⟩ | ⟨-, -, -, he⟩ | ⟨response, -, -, -, he⟩⟩
        all_goals
          rw [he]
          exact readChunks_thought_ne _
      have hthoughts : turn.message.agentThoughts = [saveReact turn.first] := by
        rw [PastTurn.message, hperformed]
        rfl
      obtain ⟨block, next', hblock, -⟩ := fold_only validParts hne hending next []
      obtain ⟨messages, hmessages, hfold⟩ := ih hturns next'
      refine ⟨.user turn.userPrompt :: (block ++ messages), ?_, fun s hs => ?_⟩
      · rw [List.map_cons, rebuildMessages, hsame, if_neg hid, hthoughts, if_neg (by simp),
          hblock]
        simp only [bind, Except.bind, hmessages, pure, Except.pure]
        rfl
      · obtain ⟨block', next'', hblock', hone⟩ :=
          fold_only validParts hne hending next (s.flush ++ [.user turn.userPrompt])
        rw [hblock] at hblock'
        cases hblock'
        obtain ⟨s', hs', hflush⟩ := hfold
          { result := s.flush ++ [.user turn.userPrompt], current := true
            scratchpads := [turn.first.readBack] } (by simp)
        refine ⟨s', ?_, ?_⟩
        · rw [List.foldlM_cons, step_user hs]
          show (block ++ messages).foldlM _ _ = _
          rw [List.foldlM_append, hone]
          exact hs'
        · rw [hflush, List.filter_cons_of_pos (by simpa using hid), List.flatMap_cons]
          simp [HistoricState.flush, PastTurn.readBack]

end Fold

private theorem fold_system {messages : List PromptMessage}
    (h : ∀ m ∈ messages, (m matches .system _) = true) (s : HistoricState) :
    messages.foldlM HistoricState.step s = .ok s := by
  induction messages with
  | nil => rfl
  | cons m messages ih =>
    have hm := h m List.mem_cons_self
    cases m with
    | system content =>
      rw [List.foldlM_cons]
      exact ih fun m' hm' => h m' (List.mem_cons_of_mem _ hm')
    | user content => cases hm
    | assistant content toolCalls => cases hm
    | tool content name toolCallId => cases hm

section Text

theorem split_eq_singleton {name : String} (h : ';' ∉ name.toList) : split name = [name] := by
  rw [split, List.splitOn_eq_singleton h, List.map_singleton, String.ofList_toList]

theorem toList_of_split {name : String} (h : ';' ∈ name.toList) :
    ∃ rest, name.toList = ((split name).headD "").toList ++ ';' :: rest := by
  have hjoin : [';'].intercalate ((split name).map String.toList) = name.toList := by
    rw [split, List.map_map]
    simp [Function.comp_def]
  obtain ⟨part, parts, hsplit⟩ := List.exists_cons_of_ne_nil (split_ne_nil name)
  have hpart : ';' ∉ part.toList := not_mem_of_mem_split (hsplit ▸ List.mem_cons_self)
  rw [hsplit] at hjoin ⊢
  cases parts with
  | nil =>
    rw [← hjoin] at h
    exact absurd (by simpa using h) hpart
  | cons next parts =>
    refine ⟨[';'].intercalate ((next :: parts).map String.toList), ?_⟩
    rw [← hjoin]
    simp [List.intercalate_cons_cons]

private theorem toDict_chars (action : Action) : ∃ rest, action.toDict.dumps.toList =
    "\x7b\"action\": \"".toList ++
      (action.actionName.toList.flatMap (Json.escape true) ++ '"' :: rest) := by
  refine ⟨", \"action_input\": ".toList ++ (action.actionInput.json.chars true ++ ['\x7d']), ?_⟩
  rw [Action.toDict, Json.dumps, String.toList_ofList, Json.chars, Json.fieldChars,
    Json.fieldChars, Json.chars, Json.quote, Json.quote, Json.quote]
  simp [Json.escape]

variable {action : Action}

private theorem readBack_dumps_ne (h : ';' ∈ action.actionName.toList) :
    action.readBack.toDict.dumps ≠ action.toDict.dumps := by
  intro he
  obtain ⟨rest, hrest⟩ := toList_of_split h
  obtain ⟨back, hback⟩ := toDict_chars action.readBack
  obtain ⟨whole, hwhole⟩ := toDict_chars action
  have hname : action.readBack.actionName = (split action.actionName).headD "" := rfl
  rw [he, hwhole, hrest, hname, List.flatMap_append, List.append_assoc] at hback
  have hcut := List.append_cancel_left (List.append_cancel_left hback)
  rw [List.flatMap_cons] at hcut
  have hhead : Json.escape true ';' = [';'] := by decide
  rw [hhead] at hcut
  exact absurd (List.cons.inj hcut).1 (by decide)

private theorem formatAssistantMessage_singleton (scratchpad : AgentScratchpadUnit) :
    formatAssistantMessage [scratchpad] = formatScratchpad scratchpad := String.empty_append

variable {scratchpad : AgentScratchpadUnit}

private theorem formatScratchpad_final (h : scratchpad.isFinal = true) :
    formatScratchpad scratchpad = "Final Answer: " ++ scratchpad.agentResponse := by
  rw [formatScratchpad, if_pos h]
  rfl

private theorem formatScratchpad_step (thought : String) (h : action.namesFinal = false) :
    formatScratchpad ⟨thought, thought, action.toDict.dumps, "", some action⟩ =
      "Thought: " ++ thought ++ "\n\n" ++ ("Action: " ++ action.toDict.dumps ++ "\n\n") := by
  have hne : action.toDict.dumps ≠ "" := by
    intro hempty
    obtain ⟨rest, hrest⟩ := toDict_chars action
    rw [hempty] at hrest
    cases hrest
  have hfinal : AgentScratchpadUnit.isFinal
      ⟨thought, thought, action.toDict.dumps, "", some action⟩ = false := by
    rw [AgentScratchpadUnit.isFinal, Option.all_some, h]
  rw [formatScratchpad, hfinal, if_neg (by decide), if_neg hne, if_pos rfl]
  exact String.append_empty

private theorem middle_inj {front label x y back : String}
    (h : front ++ (label ++ x ++ back) = front ++ (label ++ y ++ back)) : x = y := by
  have hchars := congrArg String.toList h
  simp only [String.toList_append, List.append_assoc] at hchars
  have hcut := List.append_cancel_left (List.append_cancel_left hchars)
  exact String.toList_injective (List.append_cancel_right hcut)

private theorem final_ne_thought (answer thought : String) :
    "Final Answer: " ++ answer ≠ "Thought: " ++ thought := by
  intro hsame
  have hchars := congrArg (fun s : String => s.toList.head?) hsame
  simp at hchars

theorem readBack_raised_iff (haction : scratchpad.action = some action) :
    formatAssistantMessage [PerformedReact.readBack ⟨scratchpad, .toolRaised⟩] =
        PerformedReact.text ⟨scratchpad, .toolRaised⟩ ↔
      action.actionName ≠ "" ∧ ';' ∉ action.actionName.toList ∧ action.namesFinal = false := by
  have htext : PerformedReact.text ⟨scratchpad, .toolRaised⟩ =
      "Thought: " ++ scratchpad.thought ++ "\n\n" ++
        ("Action: " ++ action.toDict.dumps ++ "\n\n") := by
    rw [PerformedReact.text, PerformedReact.stepText, haction]
    rfl
  have htool : scratchpad.toolName = if action.namesFinal then "" else action.actionName := by
    rw [AgentScratchpadUnit.toolName, haction]
  rw [formatAssistantMessage_singleton, htext]
  by_cases hsaved : scratchpad.toolName = ""
  · have hback : PerformedReact.readBack ⟨scratchpad, .toolRaised⟩ =
        ⟨scratchpad.thought, scratchpad.thought, "", "", none⟩ := by
      rw [PerformedReact.readBack, haction]
      exact if_pos hsaved
    rw [hback, formatScratchpad_final rfl, String.append_assoc, String.append_assoc]
    refine iff_of_false (final_ne_thought _ _) fun ⟨hname, _, hnames⟩ => hname ?_
    simpa [htool, hnames] using hsaved
  · have hback : PerformedReact.readBack ⟨scratchpad, .toolRaised⟩ =
        ⟨scratchpad.thought, scratchpad.thought, action.readBack.toDict.dumps, "",
          some action.readBack⟩ := by
      rw [PerformedReact.readBack, haction]
      exact if_neg hsaved
    have hnames : action.namesFinal = false := by
      by_contra h
      rw [Bool.not_eq_false] at h
      exact hsaved (by rw [htool, h]; rfl)
    have hname : action.actionName ≠ "" := by
      intro h
      exact hsaved (by rw [htool, hnames, h]; rfl)
    rw [hback]
    by_cases hsemi : ';' ∈ action.actionName.toList
    · refine iff_of_false (fun hsame => ?_) fun hplain => hplain.2.1 hsemi
      cases hfinal : action.readBack.namesFinal with
      | true =>
        have hpad : AgentScratchpadUnit.isFinal ⟨scratchpad.thought, scratchpad.thought,
            action.readBack.toDict.dumps, "", some action.readBack⟩ = true := by
          rw [AgentScratchpadUnit.isFinal, Option.all_some, hfinal]
        rw [formatScratchpad_final hpad, String.append_assoc, String.append_assoc] at hsame
        exact final_ne_thought _ _ hsame
      | false =>
        rw [formatScratchpad_step _ hfinal] at hsame
        exact readBack_dumps_ne hsemi (middle_inj hsame)
    · have hread : action.readBack = action := by
        rw [Action.readBack, split_eq_singleton hsemi]
        simp
      rw [hread, formatScratchpad_step _ hnames]
      exact iff_of_true rfl ⟨hname, hsemi, hnames⟩

theorem readBack_text_iff {turn : PastTurn}
    (h : (saveReact turn.first).thought = turn.first.record) :
    formatAssistantMessage [turn.first.readBack] = turn.first.text ↔ Replayable turn := by
  rcases first_cases turn h with ⟨answer, he, htool, hreplay⟩ |
    ⟨action, haction, he, hfinishes, hmax, hmem, hinvoke⟩
  · refine iff_of_true ?_ hreplay
    rw [he]
    simp [formatAssistantMessage, formatScratchpad, PerformedReact.readBack,
      AgentScratchpadUnit.isFinal, PerformedReact.text, PerformedReact.record]
  · rw [he, readBack_raised_iff haction]
    constructor
    · intro hplain action' haction'
      rw [haction] at haction'
      cases haction'
      exact .inr ⟨hmax, hmem, hinvoke, hplain⟩
    · intro hreplay
      rcases hreplay action haction with hf | ⟨-, -, -, hplain⟩
      · rw [hfinishes] at hf
        cases hf
      · exact hplain

end Text

theorem once_of_record {turn : PastTurn}
    (h : (saveReact turn.first).thought = turn.first.record) : turn.Once := by
  have honly := turn.performed_cases.2
  rcases first_cases turn h with ⟨answer, he, htool, -⟩ | ⟨action, haction, he, -⟩
  · refine ⟨honly fun response => by rw [he]; simp, .inl ⟨answer, by rw [he], ?_⟩⟩
    rw [he]
    exact htool
  · refine ⟨honly fun response => by rw [he]; simp, .inr ⟨by rw [he], ?_⟩⟩
    rw [he]
    exact fun hnone => by rw [haction] at hnone; cases hnone

theorem record_of_replayable {turn : PastTurn} (h : Replayable turn) :
    (saveReact turn.first).thought = turn.first.record := by
  have hne := readChunks_thought_ne (turn.rounds 0).chunks
  unfold PastTurn.first
  rcases performReact_cases turn.toolInstances (min turn.maxIteration 99 == 0) (turn.rounds 0) with
    ⟨-, he⟩ | ⟨action, haction, ⟨-, he⟩ | ⟨hf, hlast, -⟩ | ⟨-, -, -, he⟩ |
      ⟨response, hf, -, hinvoke, -⟩⟩
  · rw [he, saveReact_finished hne]
    rfl
  · rw [he, saveReact_finished hne]
    rfl
  · rcases h action haction with hf' | ⟨hmax, -⟩
    · rw [hf] at hf'
      cases hf'
    · have hzero : min turn.maxIteration 99 = 0 := by simpa using hlast
      omega
  · rw [he]
    exact saveScratchpad_thought hne
  · rcases h action haction with hf' | ⟨-, hmem, hnone, -⟩
    · rw [hf] at hf'
      cases hf'
    · rw [handleInvokeAction_eq_none.mpr ⟨hmem, hnone⟩] at hinvoke
      cases hinvoke

theorem flatMap_pair_iff {α : Type} {a b c : α → PromptMessage} {l : List α} :
    (l.flatMap fun x => [a x, b x]) = (l.flatMap fun x => [a x, c x]) ↔ ∀ x ∈ l, b x = c x := by
  induction l with
  | nil => simp
  | cons x l ih =>
    rw [List.flatMap_cons, List.flatMap_cons, List.forall_mem_cons, ← ih]
    simp

private theorem history_readBack (validParts : List Json → Bool)
    (promptMessages : List PromptMessage) (currentId : String) (next : Nat)
    (turns : List PastTurn)
    (h : ∀ turn ∈ turns, turn.id ≠ currentId →
      (saveReact turn.first).thought = turn.first.record) :
    ∃ history, organizeAgentHistory validParts promptMessages currentId next
        (turns.map PastTurn.message) = .ok history ∧
      organizeHistoricPromptMessages history = .ok ((turns.filter fun turn =>
        decide (turn.id ≠ currentId)).flatMap PastTurn.readBack) := by
  obtain ⟨messages, hmessages, hfold⟩ := fold_turns validParts currentId turns
    (fun turn hturn hid => once_of_record (h turn hturn hid)) next
  refine ⟨(promptMessages.filter fun m => m matches .system _) ++ messages, ?_, ?_⟩
  · rw [organizeAgentHistory, hmessages]
    rfl
  · obtain ⟨s', hs', hflush⟩ := hfold {} fun _ => rfl
    rw [organizeHistoricPromptMessages, List.foldlM_append,
      fold_system fun m hm => (List.mem_filter.mp hm).2]
    show (messages.foldlM HistoricState.step {} >>= _) = _
    rw [hs']
    exact congrArg Except.ok hflush

theorem readBack_eq_replay_iff {currentId : String} {turns : List PastTurn}
    (h : ∀ turn ∈ turns, turn.id ≠ currentId →
      (saveReact turn.first).thought = turn.first.record) :
    (turns.filter fun turn => decide (turn.id ≠ currentId)).flatMap PastTurn.readBack =
        (turns.filter fun turn => decide (turn.id ≠ currentId)).flatMap PastTurn.replay ↔
      ∀ turn ∈ turns, turn.id ≠ currentId → Replayable turn := by
  rw [show PastTurn.readBack = fun turn => [_, _] from rfl,
    show PastTurn.replay = fun turn => [_, _] from rfl, flatMap_pair_iff]
  simp only [List.mem_filter, decide_eq_true_eq, and_imp]
  refine forall_congr' fun turn => forall_congr' fun hturn => forall_congr' fun hid => ?_
  have hfirst := h turn hturn hid
  rw [← readBack_text_iff hfirst, (once_of_record hfirst).1]
  simp [String.join]

/-- The history replays every round of every turn as it happened if and only if in every turn the
model's first answer asks for no tool, or for one that raises. -/
theorem react_replayed_iff (validParts : List Json → Bool) (promptMessages : List PromptMessage)
    (currentId : String) (next : Nat) (turns : List PastTurn) :
    ReactReplayed validParts promptMessages currentId next turns ↔
      ∀ turn ∈ turns, turn.id ≠ currentId → Replayable turn := by
  constructor
  · rintro ⟨hsaved, history, hok, hreplay⟩
    have hfirst : ∀ turn ∈ turns, turn.id ≠ currentId →
        (saveReact turn.first).thought = turn.first.record := by
      intro turn hturn hid
      obtain ⟨rest, hrest⟩ := turn.performed_cases.1
      exact hsaved turn hturn hid turn.first (hrest ▸ List.mem_cons_self)
    obtain ⟨history', hok', hread⟩ :=
      history_readBack validParts promptMessages currentId next turns hfirst
    rw [hok] at hok'
    cases hok'
    rw [hread] at hreplay
    exact (readBack_eq_replay_iff hfirst).mp (Except.ok.inj hreplay)
  · intro h
    have hfirst : ∀ turn ∈ turns, turn.id ≠ currentId →
        (saveReact turn.first).thought = turn.first.record :=
      fun turn hturn hid => record_of_replayable (h turn hturn hid)
    refine ⟨fun turn hturn hid performed hperformed => ?_, ?_⟩
    · rw [(once_of_record (hfirst turn hturn hid)).1, List.mem_singleton] at hperformed
      rw [hperformed]
      exact hfirst turn hturn hid
    · obtain ⟨history, hok, hread⟩ :=
        history_readBack validParts promptMessages currentId next turns hfirst
      refine ⟨history, hok, ?_⟩
      rw [hread, (readBack_eq_replay_iff hfirst).mpr h]

/-- A turn of two rounds: a tool is asked and answers, then the answer is given. -/
def searched : PastTurn where
  id := "m1"
  userPrompt := .text "what is x?"
  answer := "done"
  toolInstances := ["search"]
  maxIteration := 5
  rounds i :=
    if i = 0 then
      ⟨[.text "look it up", .action ⟨"search", .dict [("q", .str "x")]⟩], some "about x"⟩
    else ⟨[.text "now I know", .action ⟨"Final Answer", .str "done"⟩], none⟩

/-- The thought of the first round is saved twice. -/
theorem react_not_replayed : ¬ ReactReplayed (fun _ => false) [] "m2" 0 [searched] := by
  rw [react_replayed_iff]
  intro h
  rcases h searched List.mem_cons_self (by decide) ⟨"search", .dict [("q", .str "x")]⟩ rfl with
    hfinishes | ⟨-, -, hinvoke, -⟩
  · exact absurd hfinishes (by decide)
  · cases hinvoke

end PlatformSpec.Agent
