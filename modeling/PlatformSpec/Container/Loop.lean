import PlatformSpec.Base.Assoc
import PlatformSpec.Conditions.Processor

/-!
# Reports of a loop

Models `_run` and `_run_single_loop` of `nodes/loop/loop_node.py` from the start event on, when the
loop variables are in the pool. The pool is whatever the conditions and a child engine read and
write. Times, usage and the values kept for each round are left out.
-/

namespace PlatformSpec.Container

open Base Conditions
open PlatformSpec.Runtime (PyError)
open DraftVariable (Segment)

/-- What a child engine yields: an event of a node, the failure of the run, or another event. -/
inductive ChildEvent where
  | node (nodeType : String) (succeeded : Bool)
  | runFailed (error : String)
  | run
  deriving DecidableEq

/-- `LoopCompletedReason`. -/
inductive LoopCompletedReason where
  | loopBreak
  | loopCompleted
  deriving DecidableEq

/-- `node_data.outputs`. -/
abbrev LoopOutputs := List (String × DraftVariable.Value)

/-- What a loop yields. The events that a round passes on are kept with the round. -/
inductive LoopEvent where
  | started (loopLength : Int)
  | round (index : Nat) (events : List ChildEvent)
  | next (index : Nat) (preLoopOutput : LoopOutputs)
  | succeeded (steps : Int) (outputs : LoopOutputs) (completedReason : LoopCompletedReason)
  | failed (steps : Int) (error : String)
  | streamCompleted (error : Option String)

/-- A loop node and its surroundings: how conditions read the pool, the pool without the variables
of the subgraph, and the run of the child engine of a round. -/
structure LoopNode (σ : Type) where
  nodeId : String
  loopCount : Int
  breakConditions : List Condition := []
  logicalOperator : LogicalOperator := .and
  loopVariables : List String := []
  context : σ → Context
  clearLoopSubgraphVariables : σ → σ
  runChild : Nat → σ → List ChildEvent × σ

/-- The loop over the events of a child engine: what is passed on, and whether the end node of a
loop was reached. -/
def passEvents : List ChildEvent → Bool → List ChildEvent × Except String Bool
  | [], reachBreakNode => ([], .ok reachBreakNode)
  | .node nodeType succeeded :: events, reachBreakNode =>
    if nodeType = "loop-start" then passEvents events reachBreakNode
    else
      let r := passEvents events (reachBreakNode || succeeded && nodeType = "loop-end")
      (.node nodeType succeeded :: r.1, r.2)
  | .runFailed error :: _, _ => ([], .error error)
  | .run :: events, reachBreakNode => passEvents events reachBreakNode

namespace LoopNode

variable {σ : Type} (node : LoopNode σ)

/-- `_run_single_loop`, the outputs after the events. -/
def collect (index : Nat) (pool : σ) (outputs : LoopOutputs) : LoopOutputs :=
  let stored := fun label => (node.context pool).get [node.nodeId, label]
  let outputs := node.loopVariables.foldl
    (fun outputs label => Assoc.assign outputs label ((stored label).elim .none (·.value))) outputs
  Assoc.assign outputs "loop_round" (.int (index + 1))

/-- The break conditions on a pool. -/
def testConditions (pool : σ) : Except PyError Bool :=
  (processConditions (node.context pool) node.breakConditions node.logicalOperator).map
    ConditionCheckResult.finalResult

/-- The break conditions after a round; without any the flag stays. -/
def checkConditions (pool : σ) (reachBreakCondition : Bool) : Except PyError Bool :=
  if node.breakConditions.isEmpty then .ok reachBreakCondition else node.testConditions pool

/-- The break conditions before the first round, where a `ValueError` is suppressed. -/
def checkBefore (pool : σ) : Except PyError Bool :=
  match node.checkConditions pool false with
  | .ok reachBreakCondition => .ok reachBreakCondition
  | .error e => if e.errorClass = .valueError then .ok false else .error e

/-- The rounds from one index on: the events, and the flag and the outputs or the error raised. -/
def runRounds : Nat → Nat → σ → LoopOutputs → Bool →
    List LoopEvent × Except String (Bool × LoopOutputs)
  | 0, _, _, outputs, reachBreakCondition => ([], .ok (reachBreakCondition, outputs))
  | rounds + 1, index, pool, outputs, reachBreakCondition =>
    let child := node.runChild index (node.clearLoopSubgraphVariables pool)
    match passEvents child.1 false with
    | (passed, .error error) => ([.round index passed], .error error)
    | (passed, .ok true) =>
      ([.round index passed], .ok (reachBreakCondition, node.collect index child.2 outputs))
    | (passed, .ok false) =>
      let outputs := node.collect index child.2 outputs
      match node.checkConditions child.2 reachBreakCondition with
      | .error e => ([.round index passed], .error e.message)
      | .ok true => ([.round index passed], .ok (true, outputs))
      | .ok false =>
        let r := runRounds rounds (index + 1) child.2 outputs false
        (.round index passed :: .next (index + 1) outputs :: r.1, r.2)

/-- The events that end a loop. -/
def conclude (loopCount : Int) : Except String (Bool × LoopOutputs) → List LoopEvent
  | .ok (reachBreakCondition, outputs) =>
    [.succeeded loopCount outputs (if reachBreakCondition then .loopBreak else .loopCompleted),
      .streamCompleted none]
  | .error error => [.failed loopCount error, .streamCompleted (some error)]

/-- `_run`, from the start event on. -/
def run (pool : σ) (outputs : LoopOutputs) : List LoopEvent :=
  .started node.loopCount ::
    match node.checkBefore pool with
    | .error e => conclude node.loopCount (.error e.message)
    | .ok reachBreakCondition =>
      let loopCount := if reachBreakCondition then 0 else node.loopCount
      let r := node.runRounds loopCount.toNat 0 pool outputs reachBreakCondition
      r.1 ++ conclude loopCount r.2

end LoopNode

/-! ### What the events say -/

/-- A round that is run, or announced. -/
inductive Mark where
  | ran (index : Nat)
  | next (index : Nat)
  deriving DecidableEq

/-- The rounds and the announcements among the events. -/
def marks : List LoopEvent → List Mark :=
  List.filterMap fun
    | .round index _ => some (.ran index)
    | .next index _ => some (.next index)
    | _ => none

/-- The round of every announcement follows it, and every round but the first was announced. -/
structure Announced (trace : List Mark) : Prop where
  followed : ∀ k post, .next k :: post <:+ trace → .ran k ∈ post
  preceded : ∀ k pre, 0 < k → pre ++ [.ran k] <+: trace → .next k ∈ pre

/-- How many rounds were run. -/
def roundsRun (trace : List Mark) : Nat :=
  trace.countP fun
    | .ran _ => true
    | .next _ => false

/-- The reason reported is `LOOP_BREAK`. -/
def ReportsBreak (events : List LoopEvent) : Prop :=
  ∃ steps outputs, .succeeded steps outputs .loopBreak ∈ events

/-- The loop did not fail and ran fewer rounds than its count. -/
def StoppedEarly (loopCount : Int) (events : List LoopEvent) : Prop :=
  (∀ steps error, .failed steps error ∉ events) ∧ roundsRun (marks events) < loopCount

/-- What a loop reports is what it did. -/
structure Reports (loopCount : Int) (events : List LoopEvent) : Prop where
  reason : ReportsBreak events ↔ StoppedEarly loopCount events
  announced : Announced (marks events)

/-! ### Rounds of which each is announced -/

/-- Rounds from an index on, each followed by the announcement of the next one. -/
def announcing (index rounds : Nat) : List Mark :=
  (List.range' index rounds).flatMap fun k => [.ran k, .next (k + 1)]

@[simp] theorem announcing_zero (index : Nat) : announcing index 0 = [] := rfl

theorem announcing_succ (index rounds : Nat) :
    announcing index (rounds + 1) =
      .ran index :: .next (index + 1) :: announcing (index + 1) rounds := by
  simp [announcing, List.range'_succ]

theorem announcing_concat (index rounds : Nat) :
    announcing index (rounds + 1) =
      announcing index rounds ++ [.ran (index + rounds), .next (index + rounds + 1)] := by
  simp [announcing, List.range'_concat]

@[simp] theorem roundsRun_announcing (index rounds : Nat) :
    roundsRun (announcing index rounds) = rounds := by
  induction rounds generalizing index with
  | zero => rfl
  | succ rounds ih =>
    rw [announcing_succ]
    simp only [roundsRun, List.countP_cons_of_pos, Bool.false_eq_true, not_false_eq_true,
      List.countP_cons_of_neg]
    exact congrArg (· + 1) (ih (index + 1))

private theorem followed_announcing (index rounds k : Nat) (post : List Mark)
    (h : .next k :: post <:+ announcing index rounds ++ [.ran (index + rounds)]) :
    .ran k ∈ post := by
  induction rounds generalizing index with
  | zero =>
    rcases List.suffix_cons_iff.mp h with h | h
    · cases h
    · cases List.suffix_nil.mp h
  | succ rounds ih =>
    rw [announcing_succ, List.cons_append, List.cons_append] at h
    have hindex : index + (rounds + 1) = index + 1 + rounds := by omega
    rcases List.suffix_cons_iff.mp h with h | h
    · cases h
    · rcases List.suffix_cons_iff.mp h with h | h
      · -- the round announced here is the first one of the rest
        cases h
        cases rounds with
        | zero => simp
        | succ rounds => simp [announcing_succ]
      · exact ih (index + 1) (hindex ▸ h)

private theorem preceded_announcing (index rounds k : Nat) (pre tail : List Mark)
    (htail : ∀ k pre, pre ++ [.ran k] <+: tail → k = index + rounds) (hk : index < k)
    (h : pre ++ [.ran k] <+: announcing index rounds ++ tail) : .next k ∈ pre := by
  induction rounds generalizing index pre with
  | zero => exact absurd (htail k pre h) (by omega)
  | succ rounds ih =>
    rw [announcing_succ, List.cons_append, List.cons_append] at h
    cases pre with
    | nil =>
      obtain ⟨hran, -⟩ := List.cons_prefix_cons.mp h
      cases hran
      omega
    | cons first pre =>
      rw [List.cons_append, List.cons_prefix_cons] at h
      cases pre with
      | nil =>
        obtain ⟨hran, -⟩ := List.cons_prefix_cons.mp h.2
        cases hran
      | cons second pre =>
        rw [List.cons_append, List.cons_prefix_cons] at h
        obtain ⟨-, rfl, h⟩ := h
        rcases Nat.lt_or_ge (index + 1) k with hlater | hnext
        · have hmem := ih (index + 1) pre (fun k pre hran => by have := htail k pre hran; omega)
            hlater h
          exact List.mem_cons_of_mem _ (List.mem_cons_of_mem _ hmem)
        · obtain rfl : k = index + 1 := by omega
          simp

/-- A last round without an announcement after it completes the announcements. -/
theorem announced_of_last (rounds : Nat) : Announced (announcing 0 rounds ++ [.ran rounds]) where
  followed k post h := followed_announcing 0 rounds k post (by rwa [Nat.zero_add])
  preceded k pre hk h := preceded_announcing 0 rounds k pre _ (fun k pre hran => by
    cases pre with
    | nil =>
      obtain ⟨hran, -⟩ := List.cons_prefix_cons.mp hran
      cases hran
      omega
    | cons mark pre =>
      have hlen := hran.length_le
      simp at hlen) hk h

/-- Where every round announces another one, the last announcement is of a round not run. -/
theorem not_announced (rounds : Nat) : ¬ Announced (announcing 0 (rounds + 1)) := by
  intro h
  rw [announcing_concat] at h
  have hran := h.followed (rounds + 1) [] ⟨announcing 0 rounds ++ [.ran rounds], by simp⟩
  cases hran

/-! ### One round -/

/-- How a round ends. -/
inductive RoundEnd where
  | ordinary
  | conditionMet
  | loopEnd
  | failed
  deriving DecidableEq

/-- The results that the rounds can have when the last one ends in one of the ways. -/
def RoundEnd.Gives : RoundEnd → Except String (Bool × LoopOutputs) → Prop
  | .ordinary, r | .loopEnd, r => ∃ outputs, r = .ok (false, outputs)
  | .conditionMet, r => ∃ outputs, r = .ok (true, outputs)
  | .failed, r => ∃ error, r = .error error

namespace LoopNode

variable {σ : Type} (node : LoopNode σ)

/-- The pool before a round when all the rounds before it are run. -/
def poolBefore (pool : σ) : Nat → σ
  | 0 => pool
  | index + 1 =>
    (node.runChild index (node.clearLoopSubgraphVariables (poolBefore pool index))).2

/-- How a round ends when all the rounds before it are run. -/
def roundEnd (pool : σ) (index : Nat) : RoundEnd :=
  let child := node.runChild index (node.clearLoopSubgraphVariables (node.poolBefore pool index))
  match (passEvents child.1 false).2 with
  | .error _ => .failed
  | .ok true => .loopEnd
  | .ok false =>
    match node.checkConditions child.2 false with
    | .error _ => .failed
    | .ok true => .conditionMet
    | .ok false => .ordinary

theorem runRounds_step (pool : σ) (rounds index : Nat) (outputs : LoopOutputs) :
    (node.roundEnd pool index = .ordinary ∧ ∃ passed outputs',
      node.runRounds (rounds + 1) index (node.poolBefore pool index) outputs false =
        (.round index passed :: .next (index + 1) outputs' ::
          (node.runRounds rounds (index + 1) (node.poolBefore pool (index + 1)) outputs' false).1,
        (node.runRounds rounds (index + 1) (node.poolBefore pool (index + 1)) outputs'
          false).2)) ∨
    (node.roundEnd pool index ≠ .ordinary ∧ ∃ passed result,
      node.runRounds (rounds + 1) index (node.poolBefore pool index) outputs false =
        ([.round index passed], result) ∧ (node.roundEnd pool index).Gives result) := by
  have hnext : node.poolBefore pool (index + 1) =
    (node.runChild index (node.clearLoopSubgraphVariables (node.poolBefore pool index))).2 := rfl
  simp only [runRounds, roundEnd, hnext]
  generalize node.runChild index
    (node.clearLoopSubgraphVariables (node.poolBefore pool index)) = child
  rcases passEvents child.1 false with ⟨passed, error | (_ | _)⟩
  · exact .inr ⟨nofun, passed, _, rfl, error, rfl⟩
  · -- no end node was reached: the conditions decide
    rcases node.checkConditions child.2 false with error | (_ | _)
    · exact .inr ⟨nofun, passed, _, rfl, error.message, rfl⟩
    · exact .inl ⟨rfl, passed, _, rfl⟩
    · exact .inr ⟨nofun, passed, _, rfl, _, rfl⟩
  · exact .inr ⟨nofun, passed, _, rfl, _, rfl⟩

/-! ### All rounds -/

theorem runRounds_ordinary (pool : σ) (rounds index : Nat) (outputs : LoopOutputs)
    (hordinary : ∀ k, index ≤ k → k < index + rounds → node.roundEnd pool k = .ordinary) :
    ∃ events outputs',
      node.runRounds rounds index (node.poolBefore pool index) outputs false =
        (events, .ok (false, outputs')) ∧ marks events = announcing index rounds := by
  induction rounds generalizing index outputs with
  | zero => exact ⟨[], outputs, rfl, rfl⟩
  | succ rounds ih =>
    rcases node.runRounds_step pool rounds index outputs with
      ⟨-, passed, outputs', hrun⟩ | ⟨hend, -⟩
    · obtain ⟨events, outputs'', hrest, hmarks⟩ := ih (index + 1) outputs' fun k hle hlt =>
        hordinary k (by omega) (by omega)
      refine ⟨_, outputs'', by rw [hrun, hrest], ?_⟩
      rw [announcing_succ, ← hmarks]
      rfl
    · exact absurd (hordinary index le_rfl (by omega)) hend

theorem runRounds_stop (pool : σ) (rounds index before : Nat) (outputs : LoopOutputs)
    (hordinary : ∀ k, index ≤ k → k < index + before → node.roundEnd pool k = .ordinary)
    (hend : node.roundEnd pool (index + before) ≠ .ordinary) (hlt : before < rounds) :
    ∃ events result,
      node.runRounds rounds index (node.poolBefore pool index) outputs false = (events, result) ∧
        marks events = announcing index before ++ [.ran (index + before)] ∧
        (node.roundEnd pool (index + before)).Gives result := by
  induction before generalizing index outputs rounds with
  | zero =>
    obtain ⟨rounds, rfl⟩ : ∃ m, rounds = m + 1 := ⟨rounds - 1, by omega⟩
    rcases node.runRounds_step pool rounds index outputs with
      ⟨hend', -⟩ | ⟨-, passed, result, hrun, hgives⟩
    · exact absurd hend' hend
    · exact ⟨_, result, hrun, rfl, hgives⟩
  | succ before ih =>
    obtain ⟨rounds, rfl⟩ : ∃ m, rounds = m + 1 := ⟨rounds - 1, by omega⟩
    have hindex : index + (before + 1) = index + 1 + before := by omega
    rcases node.runRounds_step pool rounds index outputs with
      ⟨-, passed, outputs', hrun⟩ | ⟨hend', -⟩
    · obtain ⟨events, result, hrest, hmarks, hgives⟩ := ih rounds (index + 1) outputs'
        (fun k hle hk => hordinary k (by omega) (by omega)) (hindex ▸ hend) (by omega)
      refine ⟨_, result, by rw [hrun, hrest], ?_, hindex ▸ hgives⟩
      rw [announcing_succ, hindex, List.cons_append, List.cons_append, ← hmarks]
      rfl
    · exact absurd (hordinary index le_rfl (by omega)) hend'

theorem runRounds_events (rounds index : Nat) (pool : σ) (outputs : LoopOutputs) (reach : Bool) :
    ∀ event ∈ (node.runRounds rounds index pool outputs reach).1,
      (∃ k passed, event = .round k passed) ∨ ∃ k output, event = .next k output := by
  induction rounds generalizing index pool outputs reach with
  | zero => simp [runRounds]
  | succ rounds ih =>
    have hone : ∀ k passed, ∀ event ∈ [LoopEvent.round k passed],
        (∃ k passed, event = .round k passed) ∨ ∃ k output, event = .next k output := by
      intro k passed event hevent
      exact .inl ⟨k, passed, List.mem_singleton.mp hevent⟩
    intro event hevent
    simp only [runRounds] at hevent
    split at hevent
    · exact hone _ _ event hevent
    · exact hone _ _ event hevent
    · split at hevent
      · exact hone _ _ event hevent
      · exact hone _ _ event hevent
      · rcases List.mem_cons.mp hevent with rfl | hevent
        · exact .inl ⟨_, _, rfl⟩
        · rcases List.mem_cons.mp hevent with rfl | hevent
          · exact .inr ⟨_, _, rfl⟩
          · exact ih _ _ _ _ event hevent

/-! ### The whole loop -/

/-- Rounds and announcements between the events that start and end a loop. -/
private structure Body (body : List LoopEvent) : Prop where
  rounds : ∀ event ∈ body,
    (∃ k passed, event = .round k passed) ∨ ∃ k output, event = .next k output

variable {body : List LoopEvent}

private theorem reportsBreak_conclude (hbody : Body body)
    (length steps : Int) (result : Except String (Bool × LoopOutputs)) :
    ReportsBreak (.started length :: (body ++ conclude steps result)) ↔
      ∃ outputs, result = .ok (true, outputs) := by
  constructor
  · rintro ⟨steps', outputs, hmem⟩
    rcases List.mem_append.mp ((List.mem_cons.mp hmem).resolve_left nofun) with hmem | hmem
    · rcases hbody.rounds _ hmem with ⟨k, passed, h⟩ | ⟨k, output, h⟩ <;> cases h
    · rcases result with error | ⟨reach, outputs'⟩
      · simp [conclude] at hmem
      · cases reach with
        | false => simp [conclude] at hmem
        | true => exact ⟨outputs', rfl⟩
  · rintro ⟨outputs, rfl⟩
    exact ⟨steps, outputs, by simp [conclude]⟩

private theorem failed_conclude (hbody : Body body)
    (length steps : Int) (result : Except String (Bool × LoopOutputs)) :
    (∀ steps' error,
      .failed steps' error ∉ LoopEvent.started length :: (body ++ conclude steps result)) ↔
      ∃ r, result = .ok r := by
  constructor
  · intro h
    cases result with
    | ok r => exact ⟨r, rfl⟩
    | error error => exact absurd (by simp [conclude]) (h steps error)
  · rintro ⟨r, rfl⟩ steps' error hmem
    rcases List.mem_append.mp ((List.mem_cons.mp hmem).resolve_left nofun) with hmem | hmem
    · rcases hbody.rounds _ hmem with ⟨k, passed, h⟩ | ⟨k, output, h⟩ <;> cases h
    · simp [conclude] at hmem

private theorem marks_conclude (body : List LoopEvent) (length steps : Int)
    (result : Except String (Bool × LoopOutputs)) :
    marks (.started length :: (body ++ conclude steps result)) = marks body := by
  rcases result with error | r <;> simp [marks, conclude]

private theorem reports_conclude (hbody : Body body)
    (loopCount steps : Int) (result : Except String (Bool × LoopOutputs)) :
    Reports loopCount (.started loopCount :: (body ++ conclude steps result)) ↔
      ((∃ outputs, result = .ok (true, outputs)) ↔
        (∃ r, result = .ok r) ∧ roundsRun (marks body) < loopCount) ∧
      Announced (marks body) := by
  constructor
  · intro h
    have hreason := h.reason
    have hannounced := h.announced
    rw [marks_conclude] at hannounced
    rw [reportsBreak_conclude hbody, StoppedEarly, failed_conclude hbody, marks_conclude]
      at hreason
    exact ⟨hreason, hannounced⟩
  · rintro ⟨hreason, hannounced⟩
    constructor
    · rwa [reportsBreak_conclude hbody, StoppedEarly, failed_conclude hbody, marks_conclude]
    · rwa [marks_conclude]

/-- The loop meets no round that ends otherwise than in an ordinary way, or the first such round
fails, meets the conditions with rounds left, or reaches the end node as the last one. -/
structure Closes (pool : σ) (index : Nat) : Prop where
  lt : (index : Int) < node.loopCount
  ordinary : ∀ k < index, node.roundEnd pool k = .ordinary
  ending : node.roundEnd pool index = .failed ∨
    node.roundEnd pool index = .conditionMet ∧ (index + 1 : Int) < node.loopCount ∨
    node.roundEnd pool index = .loopEnd ∧ (index + 1 : Int) = node.loopCount

/-- The break conditions are met at once although there are rounds, they cannot be tested, or they
are not met and there are no rounds or the first round that is not ordinary closes the loop. -/
def Consistent (pool : σ) : Prop :=
  match node.checkBefore pool with
  | .error _ => True
  | .ok true => 0 < node.loopCount
  | .ok false => node.loopCount ≤ 0 ∨ ∃ index, node.Closes pool index

theorem announced_nil : Announced [] where
  followed k post h := by cases List.suffix_nil.mp h
  preceded k pre _ h := by simp at h

private theorem ordinary_or_first (pool : σ) (rounds : Nat) :
    (∀ k < rounds, node.roundEnd pool k = .ordinary) ∨
      ∃ index < rounds, (∀ k < index, node.roundEnd pool k = .ordinary) ∧
        node.roundEnd pool index ≠ .ordinary := by
  induction rounds with
  | zero => exact .inl (by simp)
  | succ rounds ih =>
    rcases ih with hall | ⟨index, hlt, hfirst⟩
    · by_cases hlast : node.roundEnd pool rounds = .ordinary
      · refine .inl fun k hk => ?_
        rcases Nat.lt_succ_iff_lt_or_eq.mp hk with hk | rfl
        · exact hall k hk
        · exact hlast
      · exact .inr ⟨rounds, Nat.lt_succ_self _, hall, hlast⟩
    · exact .inr ⟨index, Nat.lt_succ_of_lt hlt, hfirst⟩

private theorem closes_iff_first {pool : σ} {index : Nat}
    (hfirst : ∀ k < index, node.roundEnd pool k = .ordinary)
    (hend : node.roundEnd pool index ≠ .ordinary) :
    (∃ index, node.Closes pool index) ↔ node.Closes pool index := by
  refine ⟨?_, fun h => ⟨index, h⟩⟩
  rintro ⟨other, h⟩
  obtain hlt | rfl | hgt := Nat.lt_trichotomy other index
  · rcases h.ending with he | ⟨he, -⟩ | ⟨he, -⟩ <;> rw [hfirst other hlt] at he <;> cases he
  · exact h
  · exact absurd (h.ordinary index hgt) hend

theorem reports_rounds_iff (pool : σ) (outputs : LoopOutputs) :
    Reports node.loopCount (.started node.loopCount ::
        ((node.runRounds node.loopCount.toNat 0 pool outputs false).1 ++ conclude node.loopCount
          (node.runRounds node.loopCount.toNat 0 pool outputs false).2)) ↔
      node.loopCount ≤ 0 ∨ ∃ index, node.Closes pool index := by
  have hbody : Body (node.runRounds node.loopCount.toNat 0 pool outputs false).1 :=
    ⟨node.runRounds_events _ _ _ _ _⟩
  rw [reports_conclude hbody]
  rcases node.ordinary_or_first pool node.loopCount.toNat with hall | ⟨index, hlt, hfirst, hend⟩
  · obtain ⟨events, outputs', hrun, hmarks⟩ := node.runRounds_ordinary pool
      node.loopCount.toNat 0 outputs fun k _ hk => hall k (by omega)
    have hrun' : node.runRounds node.loopCount.toNat 0 pool outputs false = _ := hrun
    have hopen : ¬ ∃ index, node.Closes pool index := by
      rintro ⟨index, h⟩
      have hlt := h.lt
      have hordinary := hall index (by omega)
      rcases h.ending with he | ⟨he, -⟩ | ⟨he, -⟩ <;> rw [hordinary] at he <;> cases he
    rw [hrun', hmarks, or_iff_left hopen]
    rcases hrounds : node.loopCount.toNat with - | rounds
    · simp [roundsRun, announced_nil]
    · refine iff_of_false (fun h => not_announced rounds h.2) (by omega)
  · obtain ⟨events, result, hrun, hmarks, hgives⟩ := node.runRounds_stop pool
      node.loopCount.toNat 0 index outputs (fun k _ hk => hfirst k (by omega))
      (by rwa [Nat.zero_add]) hlt
    have hrun' : node.runRounds node.loopCount.toNat 0 pool outputs false = (events, result) :=
      hrun
    rw [Nat.zero_add] at hmarks hgives
    have hrounds : roundsRun (marks events) = index + 1 := by
      rw [hmarks]
      simp only [roundsRun, List.countP_append]
      exact congrArg (· + 1) (roundsRun_announcing 0 index)
    have hannounced : Announced (marks events) := hmarks ▸ announced_of_last index
    rw [hrun', node.closes_iff_first hfirst hend, hrounds, and_iff_left hannounced,
      or_iff_right (by omega)]
    have hcloses : node.Closes pool index ↔ node.roundEnd pool index = .failed ∨
        node.roundEnd pool index = .conditionMet ∧ (index + 1 : Int) < node.loopCount ∨
        node.roundEnd pool index = .loopEnd ∧ (index + 1 : Int) = node.loopCount :=
      ⟨fun h => h.ending, fun h => ⟨by omega, hfirst, h⟩⟩
    rw [hcloses]
    cases hround : node.roundEnd pool index with
    | ordinary => exact absurd hround hend
    | conditionMet =>
      rw [hround] at hgives
      obtain ⟨outputs', rfl⟩ : ∃ outputs, result = .ok (true, outputs) := hgives
      simp
    | loopEnd =>
      rw [hround] at hgives
      obtain ⟨outputs', rfl⟩ : ∃ outputs, result = .ok (false, outputs) := hgives
      simp
      omega
    | failed =>
      rw [hround] at hgives
      obtain ⟨error, rfl⟩ : ∃ error, result = .error error := hgives
      simp

/-- For every loop and every behaviour of its rounds. -/
theorem reports_iff (pool : σ) (outputs : LoopOutputs) :
    Reports node.loopCount (node.run pool outputs) ↔ node.Consistent pool := by
  have hnil : Body [] := ⟨by simp⟩
  rcases hbefore : node.checkBefore pool with e | (_ | _)
  · -- the conditions cannot be tested: the loop fails without a round
    have hrun : node.run pool outputs = .started node.loopCount ::
        ([] ++ conclude node.loopCount (.error e.message)) := by
      simp only [run, hbefore, List.nil_append]
    rw [hrun, reports_conclude hnil, Consistent, hbefore]
    simp [marks, announced_nil]
  · have hrun : node.run pool outputs = .started node.loopCount ::
        ((node.runRounds node.loopCount.toNat 0 pool outputs false).1 ++ conclude node.loopCount
          (node.runRounds node.loopCount.toNat 0 pool outputs false).2) := by
      simp only [run, hbefore, Bool.false_eq_true, ↓reduceIte]
    rw [hrun, reports_rounds_iff, Consistent, hbefore]
  · -- the conditions are met at once: no round is run
    have hrun : node.run pool outputs = .started node.loopCount ::
        ([] ++ conclude 0 (.ok (true, outputs))) := by
      simp only [run, hbefore, ↓reduceIte, Int.toNat_zero, runRounds]
    rw [hrun, reports_conclude hnil, Consistent, hbefore]
    simp [marks, announced_nil, roundsRun]

/-- A pool without variables. -/
def noVariables : Context where
  digit _ := none
  str _ := ""
  type _ := ""
  intError _ := ""
  floatError _ := ""
  get _ := none
  convertTemplate template := template
  loads _ := .error ⟨.valueError, ""⟩
  toUrl _ := .ok .none

/-- A loop of which every round does the same and leaves the pool alone. -/
def constant (loopCount : Int) (events : List ChildEvent) : LoopNode Unit where
  nodeId := "loop"
  loopCount := loopCount
  context _ := noVariables
  clearLoopSubgraphVariables := id
  runChild _ pool := (events, pool)

/-- The first of three rounds reaches the end node, and the loop is reported as completed. -/
theorem reports_loopEnd :
    ¬ Reports 3 ((constant 3 [.node "loop-start" true, .node "loop-end" true]).run () []) := by
  have hrun : (constant 3 [.node "loop-start" true, .node "loop-end" true]).run () [] =
      [.started 3, .round 0 [.node "loop-end" true],
        .succeeded 3 [("loop_round", .int 1)] .loopCompleted, .streamCompleted none] := rfl
  intro h
  rw [hrun] at h
  obtain ⟨steps, outputs, hmem⟩ := h.reason.mpr ⟨by simp, by decide⟩
  simp at hmem

end LoopNode

end PlatformSpec.Container
