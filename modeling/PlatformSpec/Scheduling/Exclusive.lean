import PlatformSpec.Scheduling.RetryProtocol

/-!
# Exclusive execution

On any graph, whatever fails, is retried, paused or aborted: until a handler raises, no node is
queued or run twice at a time, and a node that succeeded is never queued or run again.
-/

namespace PlatformSpec.Scheduling

open Base Workflow Engine PlatformSpec.Runtime Response

section Step

variable {g : Graph} {S D : Set NodeId} {x : EngineState} {running : List NodeId}

/-- What one event leads to: every activated node is in its place and a node that succeeded has
ended, or the handler raised. -/
def Keeps (g : Graph) (D : Set NodeId) (event : NodeEvent) (running : List NodeId)
    (r : Outcome EngineState) : Prop :=
  (∃ S' D' y, r = (y, none) ∧ D ⊆ D' ∧ (∀ u result, event = .succeeded u result → u ∈ D') ∧
    Placed g S' D' y (System.removeFinished event running)) ∨ ∃ y e, r = (y, some e)

private theorem keeps_failed (hg : g.Promoted) (h : Placed g S D x running) {u : NodeId}
    (hu : u ∈ running) (result : NodeRunResult) (error : String) :
    Keeps g D (.failed u result error) running (x.handleFailed g u result error) := by
  have hrec : Placed g S D (x.recordFailure u result error) running :=
    h.congr rfl (Placed.waiting_recordFailure (x := x) result error)
  rcases EngineState.handleFailed_cases g u result error x with
    ⟨-, -, hd⟩ | ⟨-, -, hd⟩ | ⟨-, -, hd⟩ | ⟨strategy, -, -, hd⟩
  · refine .inl ⟨S, D, _, hd, subset_rfl, by simp, ?_⟩
    exact hrec.requeue hu rfl fun w => Iff.rfl
  · exact .inr ⟨_, _, hd⟩
  · refine .inl ⟨S, _, _, hd, Set.subset_insert u D, by simp, ?_⟩
    exact hrec.fatal hu rfl fun w => Iff.rfl
  · rw [hd]
    rcases hrec.exception hg hu (EngineState.strategyResult g u result strategy) error with
      ⟨S', y, hy, -, -, hplaced⟩ | ⟨y, e, hy, -⟩
    · exact .inl ⟨S', _, y, hy, Set.subset_insert u D, by simp, hplaced⟩
    · exact .inr ⟨y, e, hy⟩

theorem keeps_dispatch (hg : g.Promoted) (h : Placed g S D x running) {event : NodeEvent}
    (hu : event.nodeId ∈ running) (he : ∀ id r m, event ≠ .exception id r m)
    (hr : ∀ id i m, event ≠ .retry id i m) : Keeps g D event running (x.dispatch g event) := by
  by_cases hres : event.isResult = true
  · cases event with
    | succeeded u result =>
      rcases h.succeeded hu result with ⟨S', y, hy, -, -, hplaced⟩ | ⟨y, e, hy, -⟩
      · refine .inl ⟨S', _, y, hy, Set.subset_insert u D, ?_, hplaced⟩
        rintro v r heq
        cases heq
        exact Set.mem_insert u D
      · exact .inr ⟨y, e, hy⟩
    | pauseRequested u reason =>
      rcases h.pauseRequested hu reason with ⟨y, hy, -, hplaced⟩ | ⟨e, hy⟩
      · exact .inl ⟨S, D, y, hy, subset_rfl, by simp, hplaced⟩
      · exact .inr ⟨x, e, hy⟩
    | failed u result error => exact keeps_failed hg h hu result error
    | started => cases hres
    | streamChunk => cases hres
    | exception => cases hres
    | retry => cases hres
    | observed => cases hres
    | inner => cases hres
  · obtain ⟨-, -, hplaced⟩ := h.quiet (by simpa using hres) he hr
    cases hd : x.dispatch g event with
    | mk y raised =>
      rw [hd] at hplaced
      cases raised with
      | none =>
        refine .inl ⟨S, D, y, rfl, subset_rfl, ?_, ?_⟩
        · rintro v r rfl
          exact absurd rfl hres
        · unfold System.removeFinished
          rwa [if_neg hres]
      | some e => exact .inr ⟨y, e, rfl⟩

private theorem placed_processCommands (h : Placed g S D x running) (commands : List Command) :
    Placed g S D (x.processCommands commands) running := by
  refine EngineState.processCommands_induction (P := fun y => Placed g S D y running)
    (fun y d _ hy => ?_) h
  obtain ⟨execution, pool, hc⟩ := y.handleCommand_frame d
  rw [hc]
  exact hy.congr rfl fun _ => Iff.rfl

/-- Every activated node is in its place, and the nodes that succeeded have ended. -/
def KeptApart (g : Graph) (as : List Action) (s : System) : Prop :=
  s.phase = .done ∨ ∃ S D, Placed g S D s.engine s.running ∧
    ∀ u result commands, Action.handle (.succeeded u result) commands ∈ as → u ∈ D

theorem keptApart_step (hg : g.Promoted) {as : List Action} {s s' : System} {a : Action}
    (h : KeptApart g as s) (hstep : s.step? g a = some s') : KeptApart g (as ++ [a]) s' := by
  have hmove := System.step?_move hstep
  rcases h with hdone | ⟨S, D, h, hD⟩
  · cases hmove with
    | take => exact .inl hdone
    | handle event commands polls hadm hmain hpolls hph => exact absurd hdone hph
    | leaveMain commands phase hmain => rw [hmain] at hdone; cases hdone
    | leaveIdle commands hph => rw [hph] at hdone; cases hdone
    | finish commands hph => rw [hph] at hdone; cases hdone
  -- an action without a result leaves the ended nodes as they are
  have hsame : (∀ event commands, a ≠ .handle event commands) → ∀ u result commands,
      Action.handle (.succeeded u result) commands ∈ as ++ [a] → u ∈ D := by
    intro ha u result commands hu
    rcases List.mem_append.mp hu with hu | hu
    · exact hD u result commands hu
    · exact absurd (List.mem_singleton.mp hu).symm (ha _ _)
  cases hmove with
  | take id rest hq => exact .inr ⟨S, D, h.take hq, hsame (by simp)⟩
  | handle event commands polls hadm =>
    unfold System.admits at hadm
    obtain ⟨hrun, hkind⟩ := Bool.and_eq_true_iff.mp hadm
    rcases keeps_dispatch hg h (of_decide_eq_true hrun) (by rintro id r m rfl; cases hkind)
      (by rintro id r m rfl; cases hkind) with ⟨S', D', y, hd, hsub, hend, hy⟩ | ⟨y, e, hd⟩
    · rw [System.dispatchEvent_returned hd]
      refine .inr ⟨S', D', ?_, fun u result c hu => ?_⟩
      · simp only []
        split
        · exact placed_processCommands hy commands
        · exact hy
      · rcases List.mem_append.mp hu with hu | hu
        · exact hsub (hD u result c hu)
        · exact hend u result (Action.handle.inj (List.mem_singleton.mp hu)).1.symm
    · rw [System.dispatchEvent_raised hd]
      exact .inl rfl
  | leaveMain commands => exact .inr ⟨S, D, placed_processCommands h commands, hsame (by simp)⟩
  | leaveIdle => exact .inr ⟨S, D, h, hsame (by simp)⟩
  | finish => exact .inl rfl

end Step

end PlatformSpec.Scheduling
