import Mathlib.Data.List.Basic

/-!
# Loops that take the first element of a queue

A loop takes the first element of a queue, which changes a state and adds elements at the end of
the queue or raises. When all that is added ranks lower, passes over the queue carry it out.
Nothing here mentions a particular system.
-/

namespace PlatformSpec.Base.Queue

universe u v

variable {α : Type u} {σ : Type v}

/-- `while queue`: the first element is taken, what it adds goes to the end. The outcome says
whether the loop ends without an error. -/
inductive Drains (step : α → σ → Option (List α) × σ) : List α → σ → Bool × σ → Prop
  | done (s : σ) : Drains step [] s (true, s)
  | raise {a : α} {queue : List α} {s s' : σ} (h : step a s = (none, s')) :
      Drains step (a :: queue) s (false, s')
  | next {a : α} {queue added : List α} {s s' : σ} {out : Bool × σ}
      (h : step a s = (some added, s')) (hrest : Drains step (queue ++ added) s' out) :
      Drains step (a :: queue) s out

/-- One pass over a queue: all that its elements add. -/
def pass (step : α → σ → Option (List α) × σ) : List α → σ → Option (List α) × σ
  | [], s => (some [], s)
  | a :: queue, s =>
    match step a s with
    | (none, s) => (none, s)
    | (some added, s) =>
      match pass step queue s with
      | (none, s) => (none, s)
      | (some later, s) => (some (added ++ later), s)

/-- Passes until the queue is empty, so many at most. -/
def drain (step : α → σ → Option (List α) × σ) : Nat → List α → σ → Bool × σ
  | _, [], s => (true, s)
  | 0, _ :: _, s => (true, s)
  | n + 1, queue, s =>
    match pass step queue s with
    | (none, s) => (false, s)
    | (some later, s) => drain step n later s

variable {step : α → σ → Option (List α) × σ}

/-- A pass carries out the loop up to the elements that were added before and by it. -/
theorem drains_of_pass {queue extra : List α} {s : σ} :
    (∀ s', pass step queue s = (none, s') → Drains step (queue ++ extra) s (false, s')) ∧
    ∀ later s' out, pass step queue s = (some later, s') → Drains step (extra ++ later) s' out →
      Drains step (queue ++ extra) s out := by
  induction queue generalizing extra s with
  | nil =>
    refine ⟨fun s' h => by simp [pass] at h, fun later s' out h hrest => ?_⟩
    cases h
    simpa using hrest
  | cons a queue ih =>
    cases hstep : step a s with
    | mk added s₁ =>
      cases added with
      | none =>
        refine ⟨fun s' h => ?_, fun later s' out h => by simp [pass, hstep] at h⟩
        simp only [pass, hstep] at h
        cases h
        exact .raise hstep
      | some added =>
        have hrest := @ih (extra ++ added) s₁
        cases hpass : pass step queue s₁ with
        | mk later s₂ =>
          cases later with
          | none =>
            refine ⟨fun s' h => ?_, fun later s' out h => by simp [pass, hstep, hpass] at h⟩
            simp only [pass, hstep, hpass] at h
            cases h
            exact .next hstep (by simpa using hrest.1 s₂ hpass)
          | some later =>
            refine ⟨fun s' h => by simp [pass, hstep, hpass] at h, fun later' s' out h hout => ?_⟩
            simp only [pass, hstep, hpass] at h
            cases h
            refine .next hstep ?_
            have hlast := hrest.2 later s₂ out hpass (by simpa using hout)
            simpa using hlast

/-- Passes carry out the loop when what an element adds ranks lower than the element. -/
theorem drains_drain (rank : α → Nat)
    (hrank : ∀ a s added s', step a s = (some added, s') → ∀ b ∈ added, rank b < rank a) {n : Nat}
    {queue : List α} {s : σ} (h : ∀ a ∈ queue, rank a < n) :
    Drains step queue s (drain step n queue s) := by
  have hlater : ∀ queue s later s', pass step queue s = (some later, s') →
      ∀ b ∈ later, ∃ a ∈ queue, rank b < rank a := by
    intro queue
    induction queue with
    | nil =>
      intro s later s' hpass b hb
      cases hpass
      cases hb
    | cons a queue ih =>
      intro s later s' hpass b hb
      simp only [pass] at hpass
      split at hpass
      next => cases hpass
      next added s₁ hstep =>
        split at hpass
        next => cases hpass
        next rest s₂ hrest =>
          cases hpass
          rcases List.mem_append.mp hb with hb | hb
          · exact ⟨a, List.mem_cons_self, hrank a s added s₁ hstep b hb⟩
          · obtain ⟨a', ha', hlt⟩ := ih s₁ rest _ hrest b hb
            exact ⟨a', List.mem_cons_of_mem _ ha', hlt⟩
  induction n generalizing queue s with
  | zero =>
    cases queue with
    | nil => exact .done s
    | cons a queue => exact absurd (h a List.mem_cons_self) (Nat.not_lt_zero _)
  | succ n ih =>
    cases queue with
    | nil => exact .done s
    | cons a queue =>
      have hpass := @drains_of_pass _ _ step (a :: queue) [] s
      rw [List.append_nil] at hpass
      simp only [drain]
      cases hp : pass step (a :: queue) s with
      | mk later s₁ =>
        cases later with
        | none => exact hpass.1 s₁ hp
        | some later =>
          refine hpass.2 later s₁ _ hp ?_
          rw [List.nil_append]
          refine ih fun b hb => ?_
          obtain ⟨a', ha', hlt⟩ := hlater _ _ _ _ hp b hb
          exact Nat.lt_of_lt_of_le hlt (Nat.le_of_lt_succ (h a' ha'))

end PlatformSpec.Base.Queue
