import Mathlib.Data.List.Forall2
import Mathlib.Data.List.Nodup
import PlatformSpec.Agent.Thought
import PlatformSpec.Base.Blocks
import PlatformSpec.Base.Collect
import PlatformSpec.Base.Text

/-!
# When the history replays the rounds

A thought joins the names of a round's tool calls and keeps their arguments and responses in
dictionaries by name. The history rebuilt from it shows the round as it happened exactly when
the names survive the joining and no name stands for two different calls.
-/

namespace PlatformSpec.Agent

open Base

/-- One assistant message with the calls of the round, followed by one tool message for each call
with its own response, matched by identifier. -/
def Replays (round : PerformedRound) (messages : List PromptMessage) : Prop :=
  ∃ calls : List (Nat × ToolCall × String), (calls.map (·.1)).Nodup ∧
    (calls.map fun c => (c.2.1, some c.2.2)) = round.calls ∧
      messages = .assistant (.text round.response)
        (calls.map fun c => ⟨c.1, c.2.1.name, dumps c.2.1.args⟩) ::
          calls.map fun c => .tool (.text c.2.2) c.2.1.name c.1

/-- Every call was answered, no name of a tool called holds a semicolon, the only call has no
empty name, and calls of one name have the same arguments and the same response. -/
def Faithful (round : PerformedRound) : Prop :=
  (∀ c ∈ round.calls, c.2 ≠ none) ∧ (∀ c ∈ round.calls, ';' ∉ c.1.name.toList) ∧
    round.calls.map (·.1.name) ≠ [""] ∧
      ∀ c ∈ round.calls, ∀ d ∈ round.calls, c.1.name = d.1.name →
        c.1.args = d.1.args ∧ c.2 = d.2

/-- An assistant message. -/
def IsAssistant : PromptMessage → Prop
  | .assistant _ _ => True
  | .system _ => False
  | .user _ => False
  | .tool _ _ _ => False

/-- A user message. -/
def IsUser : PromptMessage → Prop
  | .user _ => True
  | .system _ => False
  | .assistant _ _ => False
  | .tool _ _ _ => False

/-- An assistant message and messages of tools. -/
def IsBlock (messages : List PromptMessage) : Prop :=
  Headed IsAssistant messages ∧ ∀ m ∈ messages, ¬ IsUser m

theorem split_join {names : List String} (hne : names ≠ [])
    (h : ∀ name ∈ names, ';' ∉ name.toList) : split (join names) = names := by
  unfold split join
  rw [String.toList_ofList, List.splitOn_intercalate]
  · simp [List.map_map, Function.comp_def, String.ofList_toList]
  · simpa using h
  · simpa using hne

theorem not_mem_of_mem_split {s name : String} (h : name ∈ split s) : ';' ∉ name.toList := by
  obtain ⟨l, hl, rfl⟩ := List.mem_map.mp h
  rw [String.toList_ofList]
  exact (of_mem_splitOn hl).1

theorem join_eq_empty {names : List String} : join names = "" ↔ names = [] ∨ names = [""] := by
  unfold join
  constructor
  · intro h
    have hnil : [';'].intercalate (names.map String.toList) = [] := by
      rw [← String.toList_ofList (l := [';'].intercalate _), h]
      rfl
    match names with
    | [] => exact .inl rfl
    | [name] =>
      have : name.toList = [] := by simpa using hnil
      exact .inr (by rw [String.toList_eq_nil_iff.mp this])
    | a :: b :: names => simp [List.intercalate_cons_cons] at hnil
  · rintro (rfl | rfl)
    · rfl
    · rfl

variable {α β : Type} {l as : List α}

private theorem mapM_ok {f : α → Except HistoryError β} {g : α → β}
    (h : ∀ a ∈ l, f a = .ok (g a)) : l.mapM f = .ok (l.map g) := by
  induction l with
  | nil => rfl
  | cons a l ih =>
    rw [List.mapM_cons, h a List.mem_cons_self, ih fun b hb => h b (List.mem_cons_of_mem _ hb)]
    rfl

variable {bs : List β}

theorem mapM_eq_some_iff {f : α → Option β} : l.mapM f = some bs ↔ l.map f = bs.map some := by
  rw [Collect.mapM_eq_some_iff, ← List.forall₂_eq_eq_eq, List.forall₂_map_left_iff,
    List.forall₂_map_right_iff]

section Round

variable {round : PerformedRound} {validParts : List Json → Bool} {next : Nat}

/-- The names of the calls. -/
def PerformedRound.names (round : PerformedRound) : List String := round.calls.map (·.1.name)

/-- The dictionary of arguments saved. -/
def PerformedRound.inputs (round : PerformedRound) : List (String × Json) :=
  Assoc.ofPairs (round.calls.map fun c => (c.1.name, c.1.args))

/-- The dictionary of responses saved. -/
def PerformedRound.responses (round : PerformedRound) (rs : List String) : List (String × Json) :=
  Assoc.ofPairs (round.names.zip (rs.map Json.str))

private theorem saveRound_thought (round : PerformedRound) :
    (saveRound round).thought = round.response := by
  have hsave : (saveAgentThought createAgentThought (toolCallNames (round.calls.map (·.1)))
      (toolCallInputs (round.calls.map (·.1))) round.response none round.response).thought =
        round.response := by
    unfold saveAgentThought createAgentThought
    dsimp only
    split
    next h => exact h.symm
    next => exact String.empty_append
  unfold saveRound
  dsimp only
  split
  next => exact hsave
  next => exact hsave
  next => exact hsave

private theorem saveRound_tool (round : PerformedRound) :
    (saveRound round).tool = join round.names := by
  have hsave : (saveAgentThought createAgentThought (toolCallNames (round.calls.map (·.1)))
      (toolCallInputs (round.calls.map (·.1))) round.response none round.response).tool =
        join round.names := by
    unfold saveAgentThought createAgentThought toolCallNames
    rw [List.map_map]
    dsimp only
    split
    next h => exact h.symm
    next => rfl
  unfold saveRound
  dsimp only
  split
  next => exact hsave
  next => exact hsave
  next => exact hsave

private theorem saveRound_toolInput (h : round.calls ≠ []) :
    (saveRound round).toolInput = .json (.obj round.inputs) := by
  have hinputs : toolCallInputs (round.calls.map (·.1)) = .json (.obj round.inputs) := by
    unfold toolCallInputs PerformedRound.inputs
    rw [if_neg (by simpa using h), List.map_map]
    rfl
  unfold saveRound
  dsimp only
  rw [hinputs]
  split
  next => rfl
  next => rfl
  next => rfl

private theorem saveRound_unanswered (h : round.calls.mapM (·.2) = none) :
    (saveRound round).observation = .empty := by
  unfold saveRound
  rw [h]
  rfl

private theorem saveRound_answered {rs : List String} (h : round.calls.mapM (·.2) = some rs)
    (hne : round.calls ≠ []) :
    (saveRound round).observation = .json (.obj (round.responses rs)) := by
  have hlen : round.calls.length = rs.length := by
    simpa using congrArg List.length (mapM_eq_some_iff.mp h)
  match rs, hlen with
  | [], hlen => exact absurd (List.length_eq_zero_iff.mp hlen) hne
  | r :: rs, hlen =>
    have hpairs : round.responses (r :: rs) ≠ [] := by
      refine Assoc.ofPairs_ne_nil fun hnil => ?_
      rcases List.zip_eq_nil_iff.mp hnil with h0 | h0
      · exact hne (List.map_eq_nil_iff.mp h0)
      · simp at h0
    unfold saveRound
    rw [h]
    unfold saveAgentThought
    dsimp only
    have hsame : Assoc.ofPairs (((round.calls.map (·.1)).map (·.name)).zip
        ((r :: rs).map Json.str)) = round.responses (r :: rs) := by
      unfold PerformedRound.responses PerformedRound.names
      rw [List.map_map]
      rfl
    rw [hsame]
    cases hr : round.responses (r :: rs) with
    | nil => exact absurd hr hpairs
    | cons entry entries => rfl

theorem rebuildThought_of_empty (h : join round.names = "") :
    rebuildThought validParts next (saveRound round) =
      .ok [.assistant (.text round.response) []] := by
  rw [rebuildThought, saveRound_tool, if_pos h, saveRound_thought]

/-- The response that is found for a name. -/
def PerformedRound.contentOf (round : PerformedRound) (tool : String) : Content :=
  match round.calls.mapM (·.2) with
  | none => .text ""
  | some rs =>
    match (round.responses rs).lookup tool with
    | none => .column (.json (.obj (round.responses rs)))
    | some (.str s) => .text s
    | some _ => .null

/-- The arguments that are found for a name. -/
def PerformedRound.argsOf (round : PerformedRound) (tool : String) : Json :=
  (round.inputs.lookup tool).getD (.obj [])

theorem mem_of_lookup_ofPairs {α : Type} {l : List (String × α)} {k : String} {v : α}
    (h : (Assoc.ofPairs l).lookup k = some v) : (k, v) ∈ l := by
  rw [Assoc.lookup_ofPairs] at h
  obtain ⟨front, back, hsplit, -⟩ := List.lookup_eq_some_iff.mp h
  refine List.mem_reverse.mp ?_
  rw [hsplit]
  simp

private theorem responseOf_saveRound (hne : round.calls ≠ []) (tool : String) :
    responseOf validParts (saveRound round).observation tool = .ok (round.contentOf tool) := by
  unfold PerformedRound.contentOf
  cases hall : round.calls.mapM (·.2) with
  | none =>
    rw [saveRound_unanswered hall]
    rfl
  | some rs =>
    rw [saveRound_answered hall hne]
    dsimp only [responseOf]
    cases hl : (round.responses rs).lookup tool with
    | none => rfl
    | some v =>
      have hmem : (tool, v) ∈ round.names.zip (rs.map Json.str) := mem_of_lookup_ofPairs hl
      obtain ⟨s, -, rfl⟩ := List.mem_map.mp (List.of_mem_zip hmem).2
      rfl

theorem calls_ne_nil (h : join round.names ≠ "") : round.calls ≠ [] := by
  intro hnil
  refine h (join_eq_empty.mpr (.inl ?_))
  rw [PerformedRound.names, hnil, List.map_nil]

theorem rebuildThought_of_calls (h : join round.names ≠ "") :
    rebuildThought validParts next (saveRound round) = .ok
      (.assistant (.text round.response) (((split (join round.names)).zipIdx next).map fun p =>
        ⟨p.2, p.1, dumps (round.argsOf p.1)⟩) ::
          ((split (join round.names)).zipIdx next).map fun p =>
            .tool (round.contentOf p.1) p.1 p.2) := by
  have hne := calls_ne_nil h
  have hcall : ∀ p ∈ (split (join round.names)).zipIdx next,
      rebuildCall validParts (saveRound round) p.2 p.1 =
        .ok (⟨p.2, p.1, dumps (round.argsOf p.1)⟩, .tool (round.contentOf p.1) p.1 p.2) := by
    intro p _
    rw [rebuildCall, saveRound_toolInput hne, responseOf_saveRound hne]
    rfl
  rw [rebuildThought, saveRound_tool, if_neg h, mapM_ok hcall, saveRound_thought]
  simp only [bind, Except.bind, pure, Except.pure, List.map_map, Function.comp_def]

theorem argsOf_iff : (∀ c ∈ round.calls, round.argsOf c.1.name = c.1.args) ↔
    ∀ c ∈ round.calls, ∀ d ∈ round.calls, c.1.name = d.1.name → c.1.args = d.1.args := by
  have hpairs := Assoc.lookup_ofPairs_all_iff (l := round.calls.map fun c => (c.1.name, c.1.args))
  simp only [List.forall_mem_map] at hpairs
  rw [← hpairs]
  refine forall_congr' fun c => forall_congr' fun hc => ?_
  obtain ⟨v, hv, -⟩ := Assoc.exists_of_mem (l := round.calls.map fun c => (c.1.name, c.1.args))
    (List.mem_map_of_mem hc)
  have hv' : round.inputs.lookup c.1.name = some v := hv
  show (round.inputs.lookup c.1.name).getD (.obj []) = c.1.args ↔
    round.inputs.lookup c.1.name = some c.1.args
  rw [hv', Option.getD_some, Option.some.injEq]

theorem contentOf_iff (hall : ∀ c ∈ round.calls, c.2 ≠ none) :
    (∀ c ∈ round.calls, ∀ s, c.2 = some s → round.contentOf c.1.name = .text s) ↔
      ∀ c ∈ round.calls, ∀ d ∈ round.calls, c.1.name = d.1.name → c.2 = d.2 := by
  -- the responses, in the order of the calls
  obtain ⟨rs, hrs⟩ : ∃ rs : List String, round.calls.map (·.2) = rs.map some := by
    refine ⟨round.calls.map fun c => c.2.getD "", ?_⟩
    rw [List.map_map]
    refine List.map_congr_left fun c hc => ?_
    obtain ⟨s, hs⟩ := Option.ne_none_iff_exists'.mp (hall c hc)
    simp [hs]
  have hmap : round.calls.mapM (·.2) = some rs := mapM_eq_some_iff.mpr hrs
  have hzip : round.names.zip (rs.map Json.str) =
      round.calls.map fun c => (c.1.name, Json.str (c.2.getD "")) := by
    have hget : rs = round.calls.map fun c => c.2.getD "" := by
      have := congrArg (List.map fun o : Option String => o.getD "") hrs
      simpa [List.map_map, Function.comp_def] using this.symm
    rw [hget, PerformedRound.names, List.map_map, List.zip_map', Function.comp_def]
  have hpairs := Assoc.lookup_ofPairs_all_iff
    (l := round.calls.map fun c => (c.1.name, Json.str (c.2.getD "")))
  simp only [List.forall_mem_map] at hpairs
  have hsame : (∀ c ∈ round.calls, ∀ s, c.2 = some s → round.contentOf c.1.name = .text s) ↔
      ∀ c ∈ round.calls, (Assoc.ofPairs (round.calls.map fun c =>
        (c.1.name, Json.str (c.2.getD "")))).lookup c.1.name = some (Json.str (c.2.getD "")) := by
    refine forall_congr' fun c => forall_congr' fun hc => ?_
    obtain ⟨s, hs⟩ := Option.ne_none_iff_exists'.mp (hall c hc)
    obtain ⟨v, hv, hmem⟩ := Assoc.exists_of_mem
      (l := round.calls.map fun c => (c.1.name, Json.str (c.2.getD ""))) (List.mem_map_of_mem hc)
    obtain ⟨d, -, hd⟩ := List.mem_map.mp hmem
    have hv' : v = Json.str (d.2.getD "") := congrArg Prod.snd hd.symm
    subst hv'
    have hfound : round.contentOf c.1.name = .text (d.2.getD "") := by
      rw [PerformedRound.contentOf, hmap]
      dsimp only
      rw [PerformedRound.responses, hzip, hv]
    rw [hv, hs, hfound]
    simp
  rw [hsame, hpairs]
  refine forall_congr' fun c => forall_congr' fun hc => forall_congr' fun d =>
    forall_congr' fun hd => forall_congr' fun _ => ?_
  obtain ⟨s, hs⟩ := Option.ne_none_iff_exists'.mp (hall c hc)
  obtain ⟨t, ht⟩ := Option.ne_none_iff_exists'.mp (hall d hd)
  simp [hs, ht]

theorem replays_of_faithful (h : Faithful round) :
    Replays round (.assistant (.text round.response)
      ((round.names.zipIdx next).map fun p => ⟨p.2, p.1, dumps (round.argsOf p.1)⟩) ::
        (round.names.zipIdx next).map fun p => .tool (round.contentOf p.1) p.1 p.2) := by
  obtain ⟨hall, -, -, hsame⟩ := h
  have hargs := argsOf_iff.mpr fun c hc d hd he => (hsame c hc d hd he).1
  have hcontents := (contentOf_iff hall).mpr fun c hc d hd he => (hsame c hc d hd he).2
  have hnames : round.names.zipIdx next =
      (round.calls.zipIdx next).map fun p => (p.1.1.name, p.2) := by
    rw [PerformedRound.names, List.zipIdx_map]
    rfl
  have hmem : ∀ p ∈ round.calls.zipIdx next, p.1 ∈ round.calls :=
    fun p hp => List.fst_mem_of_mem_zipIdx hp
  refine ⟨(round.calls.zipIdx next).map fun p => (p.2, p.1.1, p.1.2.getD ""), ?_, ?_, ?_⟩
  · rw [List.map_map]
    show ((round.calls.zipIdx next).map Prod.snd).Nodup
    rw [List.zipIdx_map_snd]
    exact List.nodup_range'
  · rw [List.map_map]
    have hone : ∀ p ∈ round.calls.zipIdx next,
        ((fun c : Nat × ToolCall × String => (c.2.1, some c.2.2)) ∘
          fun p : (ToolCall × Option String) × Nat => (p.2, p.1.1, p.1.2.getD "")) p = p.1 := by
      intro p hp
      obtain ⟨s, hs⟩ := Option.ne_none_iff_exists'.mp (hall p.1 (hmem p hp))
      simp only [Function.comp_apply, hs, Option.getD_some]
      rw [← hs]
    rw [List.map_congr_left hone, List.zipIdx_map_fst]
  · rw [hnames, List.map_map, List.map_map, List.map_map, List.map_map]
    congr 1
    · congr 1
      refine List.map_congr_left fun p hp => ?_
      simp only [Function.comp_apply, hargs p.1 (hmem p hp)]
    · refine List.map_congr_left fun p hp => ?_
      obtain ⟨s, hs⟩ := Option.ne_none_iff_exists'.mp (hall p.1 (hmem p hp))
      simp only [Function.comp_apply, hcontents p.1 (hmem p hp) s hs, hs, Option.getD_some]

theorem faithful_of_replays (hjoin : join round.names ≠ "")
    (h : Replays round (.assistant (.text round.response)
      (((split (join round.names)).zipIdx next).map fun p =>
        ⟨p.2, p.1, dumps (round.argsOf p.1)⟩) ::
          ((split (join round.names)).zipIdx next).map fun p =>
            .tool (round.contentOf p.1) p.1 p.2)) : Faithful round := by
  obtain ⟨l, -, hcalls, hmsgs⟩ := h
  obtain ⟨hassistant, htools⟩ := List.cons_eq_cons.mp hmsgs
  have hheads : (((split (join round.names)).zipIdx next).map fun p =>
      (⟨p.2, p.1, dumps (round.argsOf p.1)⟩ : AssistantToolCall)) =
        l.map fun c => ⟨c.1, c.2.1.name, dumps c.2.1.args⟩ :=
    (PromptMessage.assistant.inj hassistant).2
  have hnames : round.names = l.map fun c => c.2.1.name := by
    rw [PerformedRound.names, ← hcalls, List.map_map]
    rfl
  have hsplit : split (join round.names) = round.names := by
    have := congrArg (List.map fun a : AssistantToolCall => a.name) hheads
    rw [List.map_map, List.map_map] at this
    rw [hnames]
    simpa [Function.comp_def, hnames] using this
  have hmemOf : ∀ c ∈ round.calls, ∃ x ∈ l, c = (x.2.1, some x.2.2) := by
    intro c hc
    rw [← hcalls] at hc
    obtain ⟨x, hx, rfl⟩ := List.mem_map.mp hc
    exact ⟨x, hx, rfl⟩
  have hall : ∀ c ∈ round.calls, c.2 ≠ none := by
    intro c hc
    obtain ⟨x, -, rfl⟩ := hmemOf c hc
    simp
  have hargs : ∀ c ∈ round.calls, round.argsOf c.1.name = c.1.args := by
    intro c hc
    obtain ⟨x, hx, rfl⟩ := hmemOf c hc
    have hin : (⟨x.1, x.2.1.name, dumps x.2.1.args⟩ : AssistantToolCall) ∈
        ((split (join round.names)).zipIdx next).map fun p =>
          ⟨p.2, p.1, dumps (round.argsOf p.1)⟩ := by
      rw [hheads]
      exact List.mem_map_of_mem hx
    obtain ⟨p, -, hp⟩ := List.mem_map.mp hin
    obtain ⟨-, hname, hargs⟩ := AssistantToolCall.mk.inj hp
    rw [← hname]
    exact Text.json.inj hargs
  have hcontents : ∀ c ∈ round.calls, ∀ s, c.2 = some s → round.contentOf c.1.name = .text s := by
    intro c hc s hs
    obtain ⟨x, hx, rfl⟩ := hmemOf c hc
    have hin : PromptMessage.tool (.text x.2.2) x.2.1.name x.1 ∈
        ((split (join round.names)).zipIdx next).map fun p =>
          PromptMessage.tool (round.contentOf p.1) p.1 p.2 := by
      rw [htools]
      exact List.mem_map_of_mem hx
    obtain ⟨p, -, hp⟩ := List.mem_map.mp hin
    obtain ⟨hcontent, hname, -⟩ := PromptMessage.tool.inj hp
    rw [← hname, hcontent, Option.some.inj hs]
  refine ⟨hall, fun c hc => ?_, fun hempty => hjoin (join_eq_empty.mpr (.inr hempty)), ?_⟩
  · have hin : c.1.name ∈ split (join round.names) := by
      rw [hsplit]
      exact List.mem_map_of_mem hc
    exact not_mem_of_mem_split hin
  · intro c hc d hd he
    exact ⟨argsOf_iff.mp hargs c hc d hd he, (contentOf_iff hall).mp hcontents c hc d hd he⟩

theorem isBlock_of_tools {content : Content} {calls : List AssistantToolCall}
    {tools : List PromptMessage}
    (h : ∀ m ∈ tools, ∃ content name id, m = .tool content name id) :
    IsBlock (.assistant content calls :: tools) := by
  constructor
  · refine ⟨_, _, rfl, trivial, fun m hm => ?_⟩
    obtain ⟨_, _, _, rfl⟩ := h m hm
    exact id
  · intro m hm
    rcases List.mem_cons.mp hm with rfl | hm
    · exact id
    · obtain ⟨_, _, _, rfl⟩ := h m hm
      exact id

/-- A thought saved from a round is rebuilt without an error, as one assistant message and tool
messages; they replay the round if and only if it is faithful. -/
theorem rebuildThought_saveRound (validParts : List Json → Bool) (next : Nat)
    (round : PerformedRound) : ∃ messages,
      rebuildThought validParts next (saveRound round) = .ok messages ∧
        IsBlock messages ∧ (Replays round messages ↔ Faithful round) := by
  by_cases hjoin : join round.names = ""
  · refine ⟨_, rebuildThought_of_empty hjoin, ⟨⟨_, [], rfl, trivial, by simp⟩, ?_⟩, ?_⟩
    · intro m hm
      rw [List.mem_singleton.mp hm]
      exact id
    rcases join_eq_empty.mp hjoin with hnil | hone
    · have hcalls : round.calls = [] := List.map_eq_nil_iff.mp hnil
      refine iff_of_true ⟨[], List.nodup_nil, hcalls.symm, rfl⟩ ?_
      simp [Faithful, hcalls]
    · refine iff_of_false ?_ fun h => h.2.2.1 hone
      rintro ⟨l, -, hcalls, hmsgs⟩
      have hlen := congrArg List.length hmsgs
      have hlen' := congrArg List.length hcalls
      have hlen'' := congrArg List.length hone
      simp [PerformedRound.names] at hlen hlen' hlen''
      simp [hlen] at hlen'
      omega
  · refine ⟨_, rebuildThought_of_calls hjoin, isBlock_of_tools ?_, ?_⟩
    · intro m hm
      obtain ⟨p, -, rfl⟩ := List.mem_map.mp hm
      exact ⟨_, _, _, rfl⟩
    · refine ⟨faithful_of_replays hjoin, fun h => ?_⟩
      have hsplit : split (join round.names) = round.names := by
        refine split_join (fun hnil => hjoin (join_eq_empty.mpr (.inl hnil))) fun name hname => ?_
        obtain ⟨c, hc, rfl⟩ := List.mem_map.mp hname
        exact h.2.1 c hc
      rw [hsplit]
      exact replays_of_faithful h

end Round

/-- A message whose answer an agent has produced, by what happened then. -/
structure PastRun where
  id : String
  userPrompt : Content
  answer : String
  toolInstances : List String
  maxIteration : Nat
  rounds : List Round

/-- The rounds performed; `max_iteration_steps = min(max_iteration, 99) + 1`. -/
def PastRun.performed (run : PastRun) : List PerformedRound :=
  Agent.run run.toolInstances (min run.maxIteration 99 + 1) run.rounds

/-- The message with the thoughts saved. -/
def PastRun.message (run : PastRun) : PastMessage :=
  ⟨run.id, run.userPrompt, run.answer, run.performed.map saveRound⟩

/-- The user's message, and for each round in order messages that replay it; without a round the
answer, if there is one. -/
def MessageReplays (run : PastRun) (messages : List PromptMessage) : Prop :=
  ∃ blocks, List.Forall₂ Replays run.performed blocks ∧
    messages = .user run.userPrompt ::
      (blocks.flatten ++ if run.performed = [] ∧ run.answer ≠ "" then
        [.assistant (.text run.answer) []] else [])

/-- The history is rebuilt without an error, as the system messages and one message after another,
each with its rounds as they happened. -/
def HistoryReplays (validParts : List Json → Bool) (promptMessages : List PromptMessage)
    (currentId : String) (next : Nat) (runs : List PastRun) : Prop :=
  ∃ history, organizeAgentHistory validParts promptMessages currentId next
      (runs.map PastRun.message) = .ok history ∧
    ∃ parts, List.Forall₂ MessageReplays (runs.filter fun r => decide (r.id ≠ currentId)) parts ∧
      history = (promptMessages.filter fun m => m matches .system _) ++ parts.flatten

variable {validParts : List Json → Bool}

private theorem rebuildThoughts_blocks (rounds : List PerformedRound) (next : Nat) :
    ∃ blocks next', rebuildThoughts validParts next (rounds.map saveRound) =
        .ok (blocks.flatten, next') ∧
      List.Forall₂ (fun r b => IsBlock b ∧ (Replays r b ↔ Faithful r)) rounds blocks := by
  induction rounds generalizing next with
  | nil => exact ⟨[], next, rfl, .nil⟩
  | cons r rounds ih =>
    obtain ⟨first, hfirst, hhead, hiff⟩ := rebuildThought_saveRound validParts next r
    obtain ⟨blocks, next', hrest, hblocks⟩ := ih (next + (split (saveRound r).tool).length)
    refine ⟨first :: blocks, next', ?_, .cons ⟨hhead, hiff⟩ hblocks⟩
    rw [List.map_cons, rebuildThoughts, hfirst]
    simp only [bind, Except.bind, pure, Except.pure, hrest, List.flatten_cons]

theorem isBlock_of_replays {r : PerformedRound} {b : List PromptMessage}
    (h : Replays r b) : IsBlock b := by
  obtain ⟨l, -, -, rfl⟩ := h
  refine isBlock_of_tools fun m hm => ?_
  obtain ⟨c, -, rfl⟩ := List.mem_map.mp hm
  exact ⟨_, _, _, rfl⟩

variable {R : α → β → Prop}

theorem forall_of_forall₂ {P : β → Prop}
    (hR : ∀ a b, R a b → P b) (h : List.Forall₂ R as bs) : ∀ b ∈ bs, P b := by
  induction h with
  | nil => simp
  | cons hr _ ih =>
    intro b hb
    rcases List.mem_cons.mp hb with rfl | hb
    · exact hR _ _ hr
    · exact ih b hb

private theorem forall₂_iff_forall {P : α → Prop} {Q : β → Prop}
    (h : List.Forall₂ (fun a b => Q b ∧ (R a b ↔ P a)) as bs) :
    List.Forall₂ R as bs ↔ ∀ a ∈ as, P a := by
  induction h with
  | nil => simp
  | cons hr _ ih => rw [List.forall₂_cons, hr.2, ih, List.forall_mem_cons]

variable {blocks : List (List PromptMessage)}

theorem replays_flatten_iff {rounds : List PerformedRound}
    (h : List.Forall₂ (fun r b => IsBlock b ∧ (Replays r b ↔ Faithful r)) rounds blocks) :
    (∃ blocks', List.Forall₂ Replays rounds blocks' ∧ blocks.flatten = blocks'.flatten) ↔
      ∀ r ∈ rounds, Faithful r := by
  rw [← forall₂_iff_forall h]
  constructor
  · rintro ⟨blocks', hreplays, he⟩
    rwa [eq_of_flatten_eq (P := IsAssistant) (forall_of_forall₂ (fun _ _ hr => hr.1.1) h)
      (forall_of_forall₂ (P := Headed IsAssistant) (fun _ _ hr => (isBlock_of_replays hr).1)
        hreplays) he]
  · exact fun hreplays => ⟨blocks, hreplays, rfl⟩

private theorem headed_user {content : Content} {rest : List PromptMessage}
    (h : ∀ m ∈ rest, ¬ IsUser m) : Headed IsUser (.user content :: rest) :=
  ⟨_, _, rfl, trivial, h⟩

private theorem flatten_not_user
    (h : ∀ b ∈ blocks, IsBlock b) : ∀ m ∈ blocks.flatten, ¬ IsUser m := by
  intro m hm
  obtain ⟨b, hb, hmb⟩ := List.mem_flatten.mp hm
  exact (h b hb).2 m hmb

theorem headed_of_messageReplays {run : PastRun} {messages : List PromptMessage}
    (h : MessageReplays run messages) : Headed IsUser messages := by
  obtain ⟨blocks, hblocks, rfl⟩ := h
  refine headed_user fun m hm => ?_
  rcases List.mem_append.mp hm with hm | hm
  · exact flatten_not_user (forall_of_forall₂ (fun _ _ hr => isBlock_of_replays hr) hblocks) m hm
  · split at hm
    next =>
      rw [List.mem_singleton.mp hm]
      exact id
    next => cases hm

private theorem rebuildMessages_parts (currentId : String) (runs : List PastRun) (next : Nat) :
    ∃ parts, rebuildMessages validParts currentId next (runs.map PastRun.message) =
        .ok parts.flatten ∧
      List.Forall₂ (fun run part => Headed IsUser part ∧
          (MessageReplays run part ↔ ∀ r ∈ run.performed, Faithful r))
        (runs.filter fun r => decide (r.id ≠ currentId)) parts := by
  induction runs generalizing next with
  | nil => exact ⟨[], rfl, .nil⟩
  | cons run runs ih =>
    have hsame : run.message.id = run.id := rfl
    by_cases hid : run.id = currentId
    · obtain ⟨parts, hparts, hall⟩ := ih next
      refine ⟨parts, ?_, ?_⟩
      · rw [List.map_cons, rebuildMessages, hsame, if_pos hid, hparts]
      · rw [List.filter_cons_of_neg (by simpa using hid)]
        exact hall
    · rw [List.filter_cons_of_pos (by simpa using hid)]
      by_cases hrounds : run.performed = []
      · obtain ⟨parts, hparts, hall⟩ := ih next
        have hempty : run.message.agentThoughts.isEmpty = true := by
          simp [PastRun.message, hrounds]
        have hanswer : (if run.answer = "" then [] else [.assistant (.text run.answer) []]) =
            if run.performed = [] ∧ run.answer ≠ "" then
              [PromptMessage.assistant (.text run.answer) []] else [] := by
          by_cases ha : run.answer = ""
          · simp [ha]
          · simp [ha, hrounds]
        have hreplays : MessageReplays run (.user run.userPrompt ::
            if run.answer = "" then [] else [.assistant (.text run.answer) []]) := by
          refine ⟨[], by rw [hrounds]; exact .nil, ?_⟩
          rw [hanswer, List.flatten_nil, List.nil_append]
        refine ⟨_ :: parts, ?_, .cons ⟨headed_of_messageReplays hreplays,
          iff_of_true hreplays (by simp [hrounds])⟩ hall⟩
        rw [List.map_cons, rebuildMessages, hsame, if_neg hid, if_pos hempty, hparts]
        rfl
      · obtain ⟨blocks, next', hblocks, hrel⟩ :=
          rebuildThoughts_blocks run.performed next
        obtain ⟨parts, hparts, hall⟩ := ih next'
        have hempty : ¬ run.message.agentThoughts.isEmpty = true := by
          simp [PastRun.message, hrounds]
        refine ⟨(.user run.userPrompt :: blocks.flatten) :: parts, ?_, .cons ⟨?_, ?_⟩ hall⟩
        · rw [List.map_cons, rebuildMessages, hsame, if_neg hid, if_neg hempty]
          show (rebuildThoughts validParts next (run.performed.map saveRound) >>= _) = _
          rw [hblocks]
          simp only [bind, Except.bind, hparts, pure, Except.pure, List.flatten_cons,
            List.cons_append]
          rfl
        · exact headed_user (flatten_not_user (forall_of_forall₂ (fun _ _ hr => hr.1) hrel))
        · rw [← replays_flatten_iff hrel]
          refine exists_congr fun blocks' => and_congr_right fun _ => ?_
          rw [if_neg (fun h => hrounds h.1), List.append_nil, List.cons_eq_cons]
          exact and_iff_right rfl

theorem organizeAgentHistory_ok (validParts : List Json → Bool)
    (promptMessages : List PromptMessage) (currentId : String) (next : Nat) (runs : List PastRun) :
    ∃ parts, organizeAgentHistory validParts promptMessages currentId next
        (runs.map PastRun.message) =
          .ok ((promptMessages.filter fun m => m matches .system _) ++ parts.flatten) ∧
      List.Forall₂ (fun run part => Headed IsUser part ∧
          (MessageReplays run part ↔ ∀ r ∈ run.performed, Faithful r))
        (runs.filter fun r => decide (r.id ≠ currentId)) parts := by
  obtain ⟨parts, hparts, hall⟩ := rebuildMessages_parts currentId runs next
  refine ⟨parts, ?_, hall⟩
  rw [organizeAgentHistory, hparts]
  rfl

theorem historyReplays_iff {promptMessages : List PromptMessage} {currentId : String} {next : Nat}
    {runs : List PastRun} : HistoryReplays validParts promptMessages currentId next runs ↔
      ∀ run ∈ runs, run.id ≠ currentId → ∀ r ∈ run.performed, Faithful r := by
  obtain ⟨parts, hhistory, hall⟩ :=
    organizeAgentHistory_ok validParts promptMessages currentId next runs
  have hfaithful : (∀ run ∈ runs, run.id ≠ currentId → ∀ r ∈ run.performed, Faithful r) ↔
      ∀ run ∈ runs.filter fun r => decide (r.id ≠ currentId), ∀ r ∈ run.performed, Faithful r := by
    simp only [List.mem_filter, decide_eq_true_eq, and_imp]
  rw [hfaithful, ← forall₂_iff_forall hall]
  constructor
  · rintro ⟨history, hok, parts', hreplays, rfl⟩
    rw [hhistory] at hok
    have hflat := List.append_cancel_left (Except.ok.inj hok)
    rwa [eq_of_flatten_eq (P := IsUser) (forall_of_forall₂ (fun _ _ hr => hr.1) hall)
      (forall_of_forall₂ (fun _ _ hr => headed_of_messageReplays hr) hreplays) hflat]
  · exact fun hreplays => ⟨_, hhistory, parts, hreplays, rfl⟩

/-- Rebuilding the history of a conversation never raises, and the history replays every round of
every message as it happened if and only if every round is faithful. -/
theorem history_replays_iff (validParts : List Json → Bool) (promptMessages : List PromptMessage)
    (currentId : String) (next : Nat) (runs : List PastRun) :
    (∃ history, organizeAgentHistory validParts promptMessages currentId next
      (runs.map PastRun.message) = .ok history) ∧
    (HistoryReplays validParts promptMessages currentId next runs ↔
      ∀ run ∈ runs, run.id ≠ currentId → ∀ r ∈ run.performed, Faithful r) := by
  obtain ⟨parts, hhistory, -⟩ :=
    organizeAgentHistory_ok validParts promptMessages currentId next runs
  exact ⟨⟨_, hhistory⟩, historyReplays_iff⟩

/-- One message, in which a tool was called twice in one round with different arguments. -/
def searchedTwice : PastRun where
  id := "m1"
  userPrompt := .text "compare x and y"
  answer := "done"
  toolInstances := ["search"]
  maxIteration := 5
  rounds :=
    [⟨[⟨"", [⟨"a", "search", .obj [("q", .str "x")]⟩, ⟨"b", "search", .obj [("q", .str "y")]⟩]⟩],
      fun i => if i = 0 then some "about x" else some "about y"⟩,
    ⟨[⟨"done", []⟩], fun _ => none⟩]

/-- The history shows the second call twice. -/
theorem history_not_replayed : ¬ HistoryReplays (fun _ => false) [] "m2" 0 [searchedTwice] := by
  rw [historyReplays_iff]
  intro h
  have hfirst := h searchedTwice List.mem_cons_self (by decide)
    ⟨"", [(⟨"a", "search", .obj [("q", .str "x")]⟩, some "about x"),
      (⟨"b", "search", .obj [("q", .str "y")]⟩, some "about y")]⟩ List.mem_cons_self
  have hsame := (hfirst.2.2.2 _ List.mem_cons_self _
    (List.mem_cons_of_mem _ List.mem_cons_self) rfl).2
  exact absurd hsame (by decide)

end PlatformSpec.Agent
