import Mathlib.Data.List.Perm.Subperm
import PlatformSpec.Agent.History

/-!
# The history that fits a prompt

Models `core/prompt/agent_history_prompt_transform.py`: a history over the token limit is walked
backwards, turn by turn, and the turn that overflows is dropped with all before it. How many tokens
some messages take is left to the model provider.
-/

namespace PlatformSpec.Agent

open Base

/-- `isinstance(prompt_message, SystemPromptMessage)`. -/
def PromptMessage.isSystem : PromptMessage → Bool
  | .system _ => true
  | .user _ => false
  | .assistant _ _ => false
  | .tool _ _ _ => false

/-- `isinstance(prompt_message, UserPromptMessage)`. -/
def PromptMessage.isUser : PromptMessage → Bool
  | .user _ => true
  | .system _ => false
  | .assistant _ _ => false
  | .tool _ _ _ => false

/-- `AgentHistoryPromptTransform`: the history, whether there is a memory, what
`_calculate_rest_token` returns and `get_num_tokens` of the model. -/
structure AgentHistoryPromptTransform where
  historyMessages : List PromptMessage
  memory : Bool
  maxTokenLimit : Int
  getNumTokens : List PromptMessage → Int

namespace AgentHistoryPromptTransform

variable (t : AgentHistoryPromptTransform)

/-- The system messages of the history. -/
def systemMessages : List PromptMessage := t.historyMessages.filter PromptMessage.isSystem

/-- The loop over the history in descending order, with the messages taken and the number of them
that belong to the turn at hand. -/
def walk : List PromptMessage → List PromptMessage → Nat → List PromptMessage
  | [], promptMessages, _ => promptMessages
  | promptMessage :: rest, promptMessages, numPrompt =>
    if promptMessage.isSystem then walk rest promptMessages numPrompt
    else if promptMessage.isUser then
      if t.maxTokenLimit < t.getNumTokens (promptMessages ++ [promptMessage]) then
        -- `prompt_messages[:-num_prompt]`
        (promptMessages ++ [promptMessage]).take (promptMessages.length + 1 - (numPrompt + 1))
      else walk rest (promptMessages ++ [promptMessage]) 0
    else walk rest (promptMessages ++ [promptMessage]) (numPrompt + 1)

/-- `get_prompt`. -/
def getPrompt : List PromptMessage :=
  if !t.memory then t.systemMessages
  else if t.getNumTokens t.historyMessages ≤ t.maxTokenLimit then t.historyMessages
  else
    let promptMessages := t.walk t.historyMessages.reverse t.systemMessages 0
    promptMessages.take t.systemMessages.length ++
      (promptMessages.drop t.systemMessages.length).reverse

/-! ## Turns -/

/-- The messages besides those of the system are some turns, each from a user message on. -/
structure InTurns (turns : List (List PromptMessage)) : Prop where
  headed : ∀ turn ∈ turns, Headed IsUser turn
  history : t.historyMessages.filter (fun m => !m.isSystem) = turns.flatten

/-- More messages take no fewer tokens, in whatever order. -/
def Grows : Prop :=
  ∀ messages more : List PromptMessage, messages.Subperm more →
    t.getNumTokens messages ≤ t.getNumTokens more

/-- The system messages fit the limit together with some turns. -/
def Fits (turns : List (List PromptMessage)) : Prop :=
  t.getNumTokens (t.systemMessages ++ turns.flatten) ≤ t.maxTokenLimit

/-- The system messages followed by the longest run of newest turns that fits. -/
def KeepsLongest (turns : List (List PromptMessage)) (prompt : List PromptMessage) : Prop :=
  ∃ kept, kept <:+ turns ∧ prompt = t.systemMessages ++ kept.flatten ∧
    (kept ≠ [] → t.Fits kept) ∧ ∀ more, more <:+ turns → kept.length < more.length → ¬ t.Fits more

variable {t} {turns : List (List PromptMessage)}

theorem isUser_iff {m : PromptMessage} : m.isUser = true ↔ IsUser m := by
  cases m <;> simp [PromptMessage.isUser, IsUser]

private theorem walk_filter (messages promptMessages : List PromptMessage) (n : Nat) :
    t.walk messages promptMessages n =
      t.walk (messages.filter fun m => !m.isSystem) promptMessages n := by
  induction messages generalizing promptMessages n with
  | nil => rfl
  | cons m messages ih =>
    by_cases hs : m.isSystem = true
    · rw [List.filter_cons_of_neg (by simp [hs]), walk, if_pos hs, ih]
    · rw [List.filter_cons_of_pos (by simp [hs]), walk, walk, if_neg hs, if_neg hs]
      simp only [ih]

theorem walk_append {later : List PromptMessage} (rest promptMessages : List PromptMessage)
    (n : Nat) (h : ∀ m ∈ later, m.isSystem = false ∧ m.isUser = false) :
    t.walk (later ++ rest) promptMessages n =
      t.walk rest (promptMessages ++ later) (n + later.length) := by
  induction later generalizing promptMessages n with
  | nil => simp
  | cons m later ih =>
    obtain ⟨hs, hu⟩ := h m List.mem_cons_self
    rw [List.cons_append, walk, hs, hu, if_neg Bool.false_ne_true, if_neg Bool.false_ne_true,
      ih _ _ fun m hm => h m (List.mem_cons_of_mem _ hm), List.append_assoc, List.singleton_append,
      List.length_cons]
    congr 1
    omega

private theorem walk_turn {turn : List PromptMessage} (rest promptMessages : List PromptMessage)
    (hturn : Headed IsUser turn) (hs : ∀ m ∈ turn, m.isSystem = false) :
    t.walk (turn.reverse ++ rest) promptMessages 0 =
      if t.maxTokenLimit < t.getNumTokens (promptMessages ++ turn.reverse) then promptMessages
      else t.walk rest (promptMessages ++ turn.reverse) 0 := by
  obtain ⟨first, later, rfl, hfirst, hlater⟩ := hturn
  have hrest : ∀ m ∈ later.reverse, m.isSystem = false ∧ m.isUser = false := by
    intro m hm
    have hm' := List.mem_reverse.mp hm
    refine ⟨hs m (List.mem_cons_of_mem _ hm'), ?_⟩
    exact Bool.eq_false_iff.mpr fun hu => hlater m hm' (isUser_iff.mp hu)
  rw [List.reverse_cons, List.append_assoc, walk_append _ _ _ hrest, List.singleton_append, walk,
    hs first List.mem_cons_self, if_neg Bool.false_ne_true, if_pos (isUser_iff.mpr hfirst),
    List.append_assoc]
  split
  · -- the rollback drops exactly the turn
    rw [← List.append_assoc, List.take_append_of_le_length (by simp)]
    simp
  · rfl

theorem Grows.perm (h : t.Grows) {messages other : List PromptMessage}
    (hp : messages.Perm other) : t.getNumTokens messages = t.getNumTokens other :=
  Int.le_antisymm (h _ _ hp.subperm) (h _ _ hp.symm.subperm)

theorem overflows_iff (h : t.Grows) (kept : List (List PromptMessage)) :
    t.maxTokenLimit < t.getNumTokens (t.systemMessages ++ kept.flatten.reverse) ↔
      ¬ t.Fits kept := by
  rw [h.perm ((List.reverse_perm _).append_left _), Fits, Int.not_le]

theorem Fits.of_suffix (h : t.Grows) {kept more : List (List PromptMessage)}
    (hmore : t.Fits more) (hsub : kept <:+ more) : t.Fits kept := by
  obtain ⟨dropped, rfl⟩ := hsub
  refine Int.le_trans (h _ _ ?_) hmore
  rw [List.flatten_append]
  exact ((List.sublist_append_right _ _).append_left _).subperm

private theorem walk_turns (hgrows : t.Grows) (older kept : List (List PromptMessage))
    (hturns : ∀ turn ∈ older, Headed IsUser turn ∧ ∀ m ∈ turn, m.isSystem = false)
    (hkept : kept ≠ [] → t.Fits kept) :
    ∃ kept', kept' <:+ older ++ kept ∧
      t.walk older.flatten.reverse (t.systemMessages ++ kept.flatten.reverse) 0 =
        t.systemMessages ++ kept'.flatten.reverse ∧
      (kept' ≠ [] → t.Fits kept') ∧
      ∀ more, more <:+ older ++ kept → kept'.length < more.length → ¬ t.Fits more := by
  induction older using List.reverseRecOn generalizing kept with
  | nil =>
    refine ⟨kept, List.suffix_refl _, rfl, hkept, fun more hmore hlt => ?_⟩
    exact absurd hmore.length_le (by simpa using hlt)
  | append_singleton older turn ih =>
    obtain ⟨hturn, hs⟩ := hturns turn (by simp)
    have hnext : t.systemMessages ++ kept.flatten.reverse ++ turn.reverse =
        t.systemMessages ++ (turn :: kept).flatten.reverse := by simp
    have hwhole : older ++ [turn] ++ kept = older ++ turn :: kept := by simp
    rw [List.flatten_append, List.flatten_singleton, List.reverse_append, walk_turn _ _ hturn hs,
      hnext, hwhole]
    split
    next hover =>
      have hno := (overflows_iff hgrows _).mp hover
      refine ⟨kept, ⟨older ++ [turn], by simp⟩, rfl, hkept, fun more hmore hlt hfits => hno ?_⟩
      -- a longer run of newest turns has this one and those kept at its end
      exact hfits.of_suffix hgrows
        (List.suffix_of_suffix_length_le ⟨older, rfl⟩ hmore (Nat.succ_le_of_lt hlt))
    next hover =>
      have hfits : t.Fits (turn :: kept) :=
        not_not.mp fun hno => hover ((overflows_iff hgrows _).mpr hno)
      exact ih (turn :: kept) (fun b hb => hturns b (by simp [hb])) fun _ => hfits

theorem getPrompt_of_overflow (hmemory : t.memory = true) (hgrows : t.Grows)
    (hturns : t.InTurns turns) (hover : t.maxTokenLimit < t.getNumTokens t.historyMessages) :
    t.KeepsLongest turns t.getPrompt := by
  have hwhole : ∀ turn ∈ turns, Headed IsUser turn ∧ ∀ m ∈ turn, m.isSystem = false := by
    refine fun turn hturn => ⟨hturns.headed turn hturn, fun m hm => ?_⟩
    have hmem : m ∈ turns.flatten := List.mem_flatten.mpr ⟨turn, hturn, hm⟩
    rw [← hturns.history] at hmem
    simpa using (List.mem_filter.mp hmem).2
  obtain ⟨kept, hsuffix, hwalk, hfits, hlongest⟩ :=
    walk_turns hgrows turns [] hwhole fun h => absurd rfl h
  rw [List.append_nil] at hsuffix hlongest
  simp only [List.flatten_nil, List.reverse_nil, List.append_nil] at hwalk
  unfold getPrompt
  rw [hmemory, Bool.not_true, if_neg Bool.false_ne_true, if_neg (Int.not_le.mpr hover),
    walk_filter, List.filter_reverse, hturns.history, hwalk]
  simp only [List.take_left, List.drop_left, List.reverse_reverse]
  exact ⟨kept, hsuffix, rfl, hfits, hlongest⟩

/-- With a memory, a history that fits the limit is returned as it is. Of one that does not, or
that has its system messages first, the prompt is the system messages and the longest run of
newest turns that fits with them. -/
theorem getPrompt_keeps_longest (hmemory : t.memory = true) (hgrows : t.Grows)
    (hturns : t.InTurns turns) :
    (t.getNumTokens t.historyMessages ≤ t.maxTokenLimit → t.getPrompt = t.historyMessages) ∧
    (t.maxTokenLimit < t.getNumTokens t.historyMessages ∨
      t.historyMessages = t.systemMessages ++ turns.flatten →
        t.KeepsLongest turns t.getPrompt) := by
  have hfits : t.getNumTokens t.historyMessages ≤ t.maxTokenLimit →
      t.getPrompt = t.historyMessages := by
    intro hle
    unfold getPrompt
    rw [hmemory, Bool.not_true, if_neg Bool.false_ne_true, if_pos hle]
  refine ⟨hfits, fun h => ?_⟩
  rcases Int.lt_or_le t.maxTokenLimit (t.getNumTokens t.historyMessages) with hover | hle
  · exact getPrompt_of_overflow hmemory hgrows hturns hover
  · have hfirst := h.resolve_left (Int.not_lt.mpr hle)
    refine ⟨turns, List.suffix_refl _, (hfits hle).trans hfirst, fun _ => ?_, ?_⟩
    · rw [Fits, ← hfirst]
      exact hle
    · exact fun more hmore hlt => absurd hmore.length_le (Nat.not_le.mpr hlt)

/-- A question, and a system message after it. -/
def late : AgentHistoryPromptTransform where
  historyMessages := [.user (.text "question"), .system (.text "rules")]
  memory := true
  maxTokenLimit := 2
  getNumTokens messages := messages.length

private theorem late_grows : late.Grows := fun _ _ h => Int.ofNat_le.mpr h.length_le

private theorem late_inTurns : late.InTurns [[.user (.text "question")]] where
  headed := by
    intro turn hturn
    rw [List.mem_singleton.mp hturn]
    exact ⟨_, [], rfl, trivial, by simp⟩
  history := rfl

/-- A system message that is not the first keeps its place in a history that fits. -/
theorem late_not_first : late.memory = true ∧ late.Grows ∧
    late.InTurns [[.user (.text "question")]] ∧
    ¬ late.KeepsLongest [[.user (.text "question")]] late.getPrompt := by
  refine ⟨rfl, late_grows, late_inTurns, ?_⟩
  rintro ⟨kept, -, hprompt, -⟩
  cases hprompt

/-- One message may stay. -/
def tight : AgentHistoryPromptTransform := { late with maxTokenLimit := 1 }

theorem tight_keeps_longest :
    (tight.getNumTokens tight.historyMessages ≤ tight.maxTokenLimit →
      tight.getPrompt = tight.historyMessages) ∧
    (tight.maxTokenLimit < tight.getNumTokens tight.historyMessages ∨
      tight.historyMessages =
        tight.systemMessages ++ [[PromptMessage.user (.text "question")]].flatten →
        tight.KeepsLongest [[.user (.text "question")]] tight.getPrompt) :=
  getPrompt_keeps_longest rfl (fun _ _ h => Int.ofNat_le.mpr h.length_le)
    ⟨late_inTurns.headed, rfl⟩

end AgentHistoryPromptTransform
end PlatformSpec.Agent
