import Mathlib.Data.List.Count
import PlatformSpec.Container.Outputs
import PlatformSpec.Runtime.State

/-!
# Token usage of containers

Models how token usage reaches the runtime state: `nodes/base/usage_tracking_mixin.py` as the
iteration and the loop node use it, and `EventHandler._accumulate_node_usage`. A container's usage
flows by two channels: the node adds it to the runtime state when it ends, and the handler adds
what the node's event carries.
-/

namespace PlatformSpec.Container

open PlatformSpec.Runtime

/-- The tokens of a usage record; a total that is not positive counts for none. -/
def tokens (usage : LLMUsage) : Nat := usage.totalTokens.toNat

/-- `LLMUsageTrackingMixin._merge_usage`. -/
def mergeUsage (current newUsage : LLMUsage) : LLMUsage :=
  if newUsage.totalTokens ≤ 0 then current
  else if current.totalTokens = 0 then newUsage
  else current.plus newUsage

theorem totalTokens_mergeUsage (current newUsage : LLMUsage) :
    (mergeUsage current newUsage).totalTokens = current.totalTokens + tokens newUsage := by
  unfold mergeUsage tokens
  split
  next h => omega
  next h =>
    split
    next hzero => omega
    next =>
      rw [LLMUsage.totalTokens_plus]
      omega

/-- `LLMUsageTrackingMixin._accumulate_usage`. -/
def accumulateUsage (d : RuntimeData) (usage : LLMUsage) : RuntimeData :=
  if usage.totalTokens ≤ 0 then d
  else if d.llmUsage.totalTokens = 0 then { d with llmUsage := usage }
  else { d with llmUsage := d.llmUsage.plus usage }

theorem accumulateUsage_spec (d : RuntimeData) (usage : LLMUsage) :
    (accumulateUsage d usage).totalTokens = d.totalTokens ∧
      (accumulateUsage d usage).llmUsage.totalTokens =
        d.llmUsage.totalTokens + tokens usage := by
  unfold accumulateUsage tokens
  split
  next h => exact ⟨rfl, by omega⟩
  next h =>
    split
    next hzero => exact ⟨rfl, by simp only []; omega⟩
    next =>
      refine ⟨rfl, ?_⟩
      rw [LLMUsage.totalTokens_plus]
      omega

theorem accumulateNodeUsage_spec (d : RuntimeData) (usage : LLMUsage) :
    (d.accumulateNodeUsage usage).totalTokens = d.totalTokens + tokens usage ∧
      (d.accumulateNodeUsage usage).llmUsage.totalTokens =
        d.llmUsage.totalTokens + tokens usage := by
  unfold RuntimeData.accumulateNodeUsage tokens
  split
  next h => exact ⟨by omega, by omega⟩
  next h =>
    refine ⟨by simp only []; omega, ?_⟩
    simp only []
    split
    next hzero => omega
    next =>
      rw [LLMUsage.totalTokens_plus]
      omega

/-- The runtime state of an engine, and the usage on the events of containers that wait in its
event queue. -/
structure UsageState where
  data : RuntimeData := {}
  queued : List LLMUsage := []

/-- `llm_usage.total_tokens`. -/
def UsageState.llmTokens (s : UsageState) : Int := s.data.llmUsage.totalTokens

@[simp] theorem UsageState.llmTokens_empty : ({} : UsageState).llmTokens = 0 := rfl

/-- The nodes that run child engines. -/
inductive ContainerKind where
  | iteration (mode : ErrorHandleMode)
  | loop
  deriving DecidableEq

/-- A child run that fails ends the container: `_run_single_iter` or `_run_single_loop` raises. -/
def ContainerKind.raises : ContainerKind → Bool
  | .iteration .terminated => true
  | .iteration _ => false
  | .loop => true

/-- What happens in one engine, as far as usage goes: a node that is no container ends, and its
event is handled or, when the engine stops, left; a container ends after its child runs, of which
it is known whether they failed, in the order in which it deals with them; the event of the
container that ended first is handled. -/
inductive Step where
  | node (usage : LLMUsage) (handled : Bool)
  | completed (kind : ContainerKind) (rounds : List (List Step × Bool))
  | handled

mutual

/-- One step of an engine on its runtime state. -/
def Step.apply : Step → UsageState → UsageState
  | .node usage true, s => { s with data := s.data.accumulateNodeUsage usage }
  | .node _ false, s => s
  | .completed kind rounds, s =>
    let usage := roundsUsage kind .emptyUsage rounds
    { data := accumulateUsage s.data usage, queued := s.queued ++ [usage] }
  | .handled, s =>
    match s.queued with
    | [] => s
    | usage :: rest => { data := s.data.accumulateNodeUsage usage, queued := rest }

/-- The steps of an engine one after another. -/
def applyAll : List Step → UsageState → UsageState
  | [], s => s
  | a :: rest, s => applyAll rest (a.apply s)

/-- The usage a container accumulates: that of each child run's own runtime state, up to the
failure that ends the container. -/
def roundsUsage (kind : ContainerKind) : LLMUsage → List (List Step × Bool) → LLMUsage
  | usage, [] => usage
  | usage, (steps, failed) :: rest =>
    if failed && kind.raises then usage
    else roundsUsage kind (mergeUsage usage (applyAll steps {}).data.llmUsage) rest

end

/-- The runtime state after the steps of a run. -/
def after (steps : List Step) : UsageState := applyAll steps {}

/-! ### What the nodes consumed -/

mutual

/-- The tokens of all nodes executed in a step, at any depth. -/
def Step.executedTokens : Step → Nat
  | .node usage _ => tokens usage
  | .completed _ rounds => roundsExecuted rounds
  | .handled => 0

def executedTokens : List Step → Nat
  | [] => 0
  | a :: rest => a.executedTokens + executedTokens rest

/-- The tokens of all nodes executed in a container. -/
def roundsExecuted : List (List Step × Bool) → Nat
  | [] => 0
  | (steps, _) :: rest => executedTokens steps + roundsExecuted rest

end

mutual

/-- The tokens of the nodes whose events were handled, without the child runs that end a container
by their failure and those after them. -/
def Step.reportedTokens : Step → Nat
  | .node usage true => tokens usage
  | .node _ false => 0
  | .completed kind rounds => roundsReported kind rounds
  | .handled => 0

def reportedTokens : List Step → Nat
  | [] => 0
  | a :: rest => a.reportedTokens + reportedTokens rest

/-- The reported tokens of the child runs a container merges. -/
def roundsReported (kind : ContainerKind) : List (List Step × Bool) → Nat
  | [] => 0
  | (steps, failed) :: rest =>
    if failed && kind.raises then 0 else reportedTokens steps + roundsReported kind rest

end

/-! ### The usage of a container -/

mutual

theorem Step.le_apply : (a : Step) → (s : UsageState) →
    s.llmTokens + a.reportedTokens ≤ (a.apply s).llmTokens
  | .node usage true, s => by
    rw [Step.apply, UsageState.llmTokens, UsageState.llmTokens,
      (accumulateNodeUsage_spec s.data usage).2]
    exact Int.le_refl _
  | .node _ false, s => by
    rw [Step.apply, Step.reportedTokens]
    omega
  | .completed kind rounds, s => by
    have hrounds := le_roundsUsage kind .emptyUsage rounds
    rw [show LLMUsage.emptyUsage.totalTokens = 0 from rfl] at hrounds
    simp only [Step.apply, Step.reportedTokens, UsageState.llmTokens,
      (accumulateUsage_spec s.data _).2, tokens]
    omega
  | .handled, s => by
    simp only [Step.apply, Step.reportedTokens]
    split
    next => omega
    next =>
      simp only [UsageState.llmTokens, (accumulateNodeUsage_spec s.data _).2]
      omega

private theorem le_applyAll : (steps : List Step) → (s : UsageState) →
    s.llmTokens + reportedTokens steps ≤ (applyAll steps s).llmTokens
  | [], s => by
    rw [applyAll, reportedTokens]
    omega
  | a :: rest, s => by
    have hone := Step.le_apply a s
    have hrest := le_applyAll rest (a.apply s)
    rw [reportedTokens, applyAll]
    omega

private theorem le_roundsUsage (kind : ContainerKind) (usage : LLMUsage) :
    (rounds : List (List Step × Bool)) →
      usage.totalTokens + roundsReported kind rounds ≤ (roundsUsage kind usage rounds).totalTokens
  | [] => by
    rw [roundsUsage, roundsReported]
    omega
  | (steps, failed) :: rest => by
    rw [roundsReported, roundsUsage]
    split
    next => omega
    next =>
      have hsteps := le_applyAll steps {}
      have hrest := le_roundsUsage kind (mergeUsage usage (applyAll steps {}).data.llmUsage) rest
      rw [totalTokens_mergeUsage] at hrest
      rw [UsageState.llmTokens_empty, UsageState.llmTokens] at hsteps
      rw [tokens] at hrest
      omega

end

mutual

theorem Step.apply_unreported : (a : Step) → a.reportedTokens = 0 →
    (s : UsageState) → (∀ usage ∈ s.queued, tokens usage = 0) →
    (a.apply s).data.totalTokens = s.data.totalTokens ∧ (a.apply s).llmTokens = s.llmTokens ∧
      ∀ usage ∈ (a.apply s).queued, tokens usage = 0
  | .node usage true, h, s, hs => by
    obtain ⟨htotal, hllm⟩ := accumulateNodeUsage_spec s.data usage
    rw [Step.reportedTokens] at h
    simp only [Step.apply, UsageState.llmTokens, htotal, hllm, h]
    exact ⟨Int.add_zero _, Int.add_zero _, hs⟩
  | .node _ false, _, s, hs => ⟨rfl, rfl, hs⟩
  | .completed kind rounds, h, s, hs => by
    have hzero : tokens (roundsUsage kind .emptyUsage rounds) = 0 := by
      rw [tokens, roundsUsage_unreported kind .emptyUsage rounds h]
      rfl
    obtain ⟨htotal, hllm⟩ := accumulateUsage_spec s.data (roundsUsage kind .emptyUsage rounds)
    simp only [Step.apply, UsageState.llmTokens, htotal, hllm, hzero]
    refine ⟨trivial, Int.add_zero _, fun usage husage => ?_⟩
    rcases List.mem_append.mp husage with husage | husage
    · exact hs usage husage
    · rw [List.mem_singleton.mp husage, hzero]
  | .handled, _, s, hs => by
    simp only [Step.apply]
    split
    next => exact ⟨rfl, rfl, hs⟩
    next usage rest hqueue =>
      rw [hqueue, List.forall_mem_cons] at hs
      obtain ⟨htotal, hllm⟩ := accumulateNodeUsage_spec s.data usage
      simp only [UsageState.llmTokens, htotal, hllm, hs.1]
      exact ⟨Int.add_zero _, Int.add_zero _, hs.2⟩

private theorem applyAll_unreported : (steps : List Step) → reportedTokens steps = 0 →
    (s : UsageState) → (∀ usage ∈ s.queued, tokens usage = 0) →
    (applyAll steps s).llmTokens = s.llmTokens
  | [], _, _, _ => rfl
  | a :: rest, h, s, hs => by
    rw [reportedTokens, Nat.add_eq_zero_iff] at h
    obtain ⟨-, hllm, hqueued⟩ := Step.apply_unreported a h.1 s hs
    rw [applyAll, applyAll_unreported rest h.2 _ hqueued, hllm]

private theorem roundsUsage_unreported (kind : ContainerKind) (usage : LLMUsage) :
    (rounds : List (List Step × Bool)) → roundsReported kind rounds = 0 →
      (roundsUsage kind usage rounds).totalTokens = usage.totalTokens
  | [], _ => rfl
  | (steps, failed) :: rest, h => by
    rw [roundsReported] at h
    rw [roundsUsage]
    split
    next => rfl
    next hgoes =>
      rw [if_neg hgoes, Nat.add_eq_zero_iff] at h
      have hsteps := applyAll_unreported steps h.1 {} (by simp)
      rw [UsageState.llmTokens_empty, UsageState.llmTokens] at hsteps
      rw [roundsUsage_unreported kind _ rest h.2, totalTokens_mergeUsage, tokens, hsteps]
      exact Int.add_zero _

end

theorem tokens_roundsUsage_eq_zero_iff (kind : ContainerKind) (rounds : List (List Step × Bool)) :
    tokens (roundsUsage kind .emptyUsage rounds) = 0 ↔ roundsReported kind rounds = 0 := by
  have hle := le_roundsUsage kind .emptyUsage rounds
  rw [show LLMUsage.emptyUsage.totalTokens = 0 from rfl] at hle
  constructor
  · intro h
    rw [tokens] at h
    omega
  · intro h
    rw [tokens, roundsUsage_unreported kind .emptyUsage rounds h]
    rfl

/-! ### Counted once -/

/-- The event of a container is handled. -/
def Step.isHandled : Step → Bool
  | .handled => true
  | _ => false

/-- By how much a step after `before` makes the usage of the runtime state grow. -/
def grows (before : List Step) (a : Step) : Int :=
  (after (before ++ [a])).llmTokens - (after before).llmTokens

/-- Token usage is counted once: a container whose event has been handled has made the usage grow,
when it ended and when its event was handled, by what its nodes consumed; and the counter agrees
with the usage in every state. The event of a container is handled by the step that comes after as
many handlings as there were events queued when it ended. -/
structure CountedOnce (steps : List Step) : Prop where
  container : ∀ before kind rounds between rest,
    steps = before ++ .completed kind rounds :: (between ++ .handled :: rest) →
    between.countP Step.isHandled = (after before).queued.length →
    grows before (.completed kind rounds) +
      grows (before ++ .completed kind rounds :: between) .handled = roundsExecuted rounds
  agree : ∀ before rest, steps = before ++ rest →
    (after before).data.totalTokens = (after before).llmTokens

/-- No container of the run reports tokens, and none whose event has been handled has consumed
any. -/
def NoTokensInContainers (steps : List Step) : Prop :=
  ∀ before kind rounds rest, steps = before ++ .completed kind rounds :: rest →
    roundsReported kind rounds = 0 ∧
      ((after before).queued.length < rest.countP Step.isHandled → roundsExecuted rounds = 0)

private theorem after_concat (before : List Step) (a : Step) :
    after (before ++ [a]) = a.apply (after before) := by
  have hall : ∀ (before : List Step) (s : UsageState),
      applyAll (before ++ [a]) s = a.apply (applyAll before s) := by
    intro before
    induction before with
    | nil => exact fun s => rfl
    | cons b before ih => exact fun s => ih (b.apply s)
  exact hall before {}

theorem agree_of_unreported (steps : List Step)
    (h : ∀ before kind rounds rest, steps = before ++ .completed kind rounds :: rest →
      roundsReported kind rounds = 0) :
    (after steps).data.totalTokens = (after steps).llmTokens ∧
      ∀ usage ∈ (after steps).queued, tokens usage = 0 := by
  induction steps using List.reverseRecOn with
  | nil => exact ⟨rfl, by simp [after, applyAll]⟩
  | append_singleton before a ih =>
    obtain ⟨hagree, hqueued⟩ := ih fun pre kind rounds rest heq =>
      h pre kind rounds (rest ++ [a]) (by rw [heq, List.append_assoc, List.cons_append])
    rw [after_concat]
    have hunreported : a.reportedTokens = 0 → _ :=
      fun hzero => Step.apply_unreported a hzero (after before) hqueued
    cases a with
    | node usage handled =>
      cases handled with
      | false => exact ⟨hagree, hqueued⟩
      | true =>
        obtain ⟨htotal, hllm⟩ := accumulateNodeUsage_spec (after before).data usage
        rw [Step.apply, UsageState.llmTokens, htotal, hllm, hagree]
        exact ⟨rfl, hqueued⟩
    | completed kind rounds =>
      obtain ⟨htotal, hllm, hzero⟩ := hunreported (h before kind rounds [] rfl)
      rw [htotal, hllm]
      exact ⟨hagree, hzero⟩
    | handled =>
      obtain ⟨htotal, hllm, hzero⟩ := hunreported rfl
      rw [htotal, hllm]
      exact ⟨hagree, hzero⟩

private theorem grows_handled {before : List Step}
    (h : ∀ usage ∈ (after before).queued, tokens usage = 0) : grows before .handled = 0 := by
  unfold grows
  rw [after_concat, (Step.apply_unreported .handled rfl _ h).2.1, Int.sub_self]

private theorem grows_completed (before : List Step) (kind : ContainerKind)
    (rounds : List (List Step × Bool)) :
    grows before (.completed kind rounds) = tokens (roundsUsage kind .emptyUsage rounds) := by
  unfold grows
  rw [after_concat]
  simp only [Step.apply, UsageState.llmTokens, (accumulateUsage_spec (after before).data _).2]
  omega

private theorem exists_handled {steps : List Step} {n : Nat}
    (h : n < steps.countP Step.isHandled) :
    ∃ between rest, steps = between ++ .handled :: rest ∧
      between.countP Step.isHandled = n := by
  induction steps generalizing n with
  | nil => cases h
  | cons a steps ih =>
    by_cases ha : a.isHandled = true
    · cases n with
      | zero =>
        cases a with
        | handled => exact ⟨[], steps, rfl, rfl⟩
        | node usage handled => cases ha
        | completed kind rounds => cases ha
      | succ n =>
        rw [List.countP_cons_of_pos ha] at h
        obtain ⟨between, rest, rfl, hcount⟩ := ih (Nat.lt_of_succ_lt_succ h)
        exact ⟨a :: between, rest, rfl, by rw [List.countP_cons_of_pos ha, hcount]⟩
    · rw [List.countP_cons_of_neg ha] at h
      obtain ⟨between, rest, rfl, hcount⟩ := ih h
      exact ⟨a :: between, rest, rfl, by rw [List.countP_cons_of_neg ha, hcount]⟩

/-- For every run of an engine, also of a child engine, whatever containers are nested in it. -/
theorem counted_once_iff (steps : List Step) : CountedOnce steps ↔ NoTokensInContainers steps := by
  constructor
  · intro h
    have hreported : ∀ before kind rounds rest,
        steps = before ++ .completed kind rounds :: rest → roundsReported kind rounds = 0 := by
      intro before kind rounds rest heq
      have hbefore := h.agree before _ heq
      have hafter := h.agree (before ++ [.completed kind rounds]) rest (by simp [heq])
      obtain ⟨htotal, hllm⟩ :=
        accumulateUsage_spec (after before).data (roundsUsage kind .emptyUsage rounds)
      rw [after_concat] at hafter
      simp only [Step.apply, UsageState.llmTokens, htotal, hllm] at hbefore hafter
      exact (tokens_roundsUsage_eq_zero_iff kind rounds).mp (by omega)
    intro before kind rounds rest heq
    refine ⟨hreported before kind rounds rest heq, fun hhandled => ?_⟩
    obtain ⟨between, rest', rfl, hcount⟩ := exists_handled hhandled
    have hgrows := h.container before kind rounds between rest' heq hcount
    obtain ⟨-, hqueued⟩ := agree_of_unreported (before ++ .completed kind rounds :: between)
      fun pre k rs post hpre => hreported pre k rs (post ++ .handled :: rest') (by
        rw [heq, ← List.cons_append, ← List.append_assoc, hpre, List.append_assoc,
          List.cons_append])
    have hnone := (tokens_roundsUsage_eq_zero_iff kind rounds).mpr
      (hreported before kind rounds _ heq)
    rw [grows_handled hqueued, grows_completed, hnone] at hgrows
    omega
  · intro h
    have hinitial : ∀ before rest, steps = before ++ rest →
        (after before).data.totalTokens = (after before).llmTokens ∧
          ∀ usage ∈ (after before).queued, tokens usage = 0 := by
      intro before rest heq
      refine agree_of_unreported before fun pre kind rounds post hpre => ?_
      exact (h pre kind rounds (post ++ rest) (by rw [heq, hpre]; simp)).1
    refine ⟨fun before kind rounds between rest heq hcount => ?_,
      fun before rest heq => (hinitial before rest heq).1⟩
    obtain ⟨hreported, hexecuted⟩ := h before kind rounds _ heq
    have hbetween := hinitial (before ++ .completed kind rounds :: between) (.handled :: rest)
      (by rw [heq]; simp)
    have hhandled : (after before).queued.length <
        (between ++ .handled :: rest).countP Step.isHandled := by
      rw [List.countP_append, hcount, List.countP_cons_of_pos rfl]
      omega
    rw [grows_completed, (tokens_roundsUsage_eq_zero_iff kind rounds).mpr hreported,
      grows_handled hbetween.2, hexecuted hhandled]
    rfl

/-- An iteration over one item whose LLM node uses ten tokens: they are counted twice. -/
theorem counted_twice : ¬ ∀ steps : List Step, CountedOnce steps := by
  intro hclaim
  have hgrows := (hclaim [.completed (.iteration .terminated) [([.node ⟨4, 6, 10⟩ true], false)],
    .handled]).container [] (.iteration .terminated)
      [([.node ⟨4, 6, 10⟩ true], false)] [] [] rfl rfl
  have htwice : grows [] (.completed (.iteration .terminated) [([.node ⟨4, 6, 10⟩ true], false)]) +
      grows [.completed (.iteration .terminated) [([.node ⟨4, 6, 10⟩ true], false)]] .handled =
        20 := by
    rfl
  have hten : roundsExecuted [([.node ⟨4, 6, 10⟩ true], false)] = 10 := rfl
  have hgrows' : (20 : Int) = 10 := htwice.symm.trans (hgrows.trans (congrArg Nat.cast hten))
  exact absurd hgrows' (by decide)

end PlatformSpec.Container
