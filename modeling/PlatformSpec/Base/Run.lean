import Mathlib.Data.List.Basic
import Mathlib.Data.List.Induction

/-!
# Runs of partial step functions

A system is a partial step function on states, driven by a list of actions. An action
that is not enabled makes the run undefined. The rules below lift what one step
preserves to whole runs; nothing here mentions a particular system.
-/

namespace PlatformSpec.Base

universe u v

variable {σ : Type u} {α : Type v}

/-- Drive a partial step function through a list of actions. -/
def run (step : σ → α → Option σ) : σ → List α → Option σ
  | s, [] => some s
  | s, a :: as => (step s a).bind fun s' => run step s' as

variable {step : σ → α → Option σ}

@[simp] theorem run_nil (s : σ) : run step s [] = some s := rfl

variable {as : List α} {s s' : σ}

/-- A nonempty run is one enabled step followed by a run. -/
theorem run_cons_eq_some {a : α} :
    run step s (a :: as) = some s' ↔ ∃ m, step s a = some m ∧ run step m as = some s' := by
  simp only [run, Option.bind_eq_some_iff]

/-- Runs compose. -/
theorem run_append_eq_some {bs : List α} :
    run step s (as ++ bs) = some s' ↔ ∃ m, run step s as = some m ∧ run step m bs = some s' := by
  induction as generalizing s with
  | nil => simp
  | cons a as ih =>
    simp only [List.cons_append, run_cons_eq_some, ih]
    constructor
    · rintro ⟨m, hm, k, hk, hr⟩
      exact ⟨k, ⟨m, hm, hk⟩, hr⟩
    · rintro ⟨k, ⟨m, hm, hk⟩, hr⟩
      exact ⟨m, hm, k, hk, hr⟩

variable {P : σ → Prop}

/-- A relation between the start of a run, the actions so far and the state reached
holds at the end when every allowed step extends it. -/
theorem run_induction (allowed : σ → α → Prop)
    (hstep : ∀ s a s', P s → allowed s a → step s a = some s' → P s')
    (h0 : P s)
    (hall : ∀ pre a post m, as = pre ++ a :: post → run step s pre = some m → allowed m a)
    (hrun : run step s as = some s') : P s' := by
  induction as generalizing s with
  | nil =>
    cases hrun
    exact h0
  | cons a as ih =>
    obtain ⟨m, hm, hr⟩ := run_cons_eq_some.mp hrun
    refine ih (hstep s a m h0 (hall [] a as s rfl rfl) hm) ?_ hr
    intro pre b post k he hk
    exact hall (a :: pre) b post k (by rw [he, List.cons_append])
      (run_cons_eq_some.mpr ⟨m, hm, hk⟩)

/-- State-independent form of `run_induction`: every action of the run is allowed. -/
theorem run_invariant (allowed : α → Prop)
    (hstep : ∀ s a s', P s → allowed a → step s a = some s' → P s')
    (h0 : P s) (hall : ∀ a ∈ as, allowed a) (hrun : run step s as = some s') : P s' :=
  run_induction (fun _ a => allowed a) hstep h0
    (fun pre a post _ he _ => hall a (by simp [he])) hrun

/-- A property that a step preserves exactly when it is allowed holds throughout a run exactly
if every step of the run is allowed. `inv` is what every step preserves. -/
theorem run_forall_iff (allowed : σ → α → Prop) (inv : σ → Prop)
    (hinv : ∀ s a s', inv s → step s a = some s' → inv s')
    (hstep : ∀ s a s', inv s → P s → step s a = some s' → (P s' ↔ allowed s a))
    (h0 : inv s) (hP : P s) (hrun : run step s as = some s') :
    (∀ pre post m, as = pre ++ post → run step s pre = some m → P m) ↔
      ∀ pre a post m, as = pre ++ a :: post → run step s pre = some m → allowed m a := by
  have hkeep : ∀ pre m, run step s pre = some m → inv m := fun pre m hm =>
    run_invariant (fun _ => True) (fun _ _ _ hk _ hst => hinv _ _ _ hk hst) h0
      (fun _ _ => trivial) hm
  constructor
  · intro hall pre a post m he hm
    rw [he] at hrun
    obtain ⟨m', hm', hrest⟩ := run_append_eq_some.mp hrun
    cases hm.symm.trans hm'
    obtain ⟨m'', hst, -⟩ := run_cons_eq_some.mp hrest
    refine (hstep m a m'' (hkeep pre m hm) (hall pre (a :: post) m he hm) hst).mp ?_
    refine hall (pre ++ [a]) post m'' (by simp [he]) ?_
    exact run_append_eq_some.mpr ⟨m, hm, run_cons_eq_some.mpr ⟨m'', hst, rfl⟩⟩
  · intro hall pre post m he hm
    have hboth : inv m ∧ P m := by
      refine run_induction allowed (P := fun m => inv m ∧ P m) ?_ ⟨h0, hP⟩ ?_ hm
      · rintro k a k' ⟨hk, hPk⟩ ha hst
        exact ⟨hinv k a k' hk hst, (hstep k a k' hk hPk hst).mpr ha⟩
      · rintro pre' a post' k rfl hk
        exact hall pre' a (post' ++ post) k (by simp [he]) hk
    exact hboth.2

/-- A property of steps that holds exactly for the allowed ones holds of every step of a run
exactly if every step of the run is allowed. `inv` is what the allowed steps preserve. -/
theorem run_steps_iff (allowed : σ → α → Prop) (inv : σ → Prop) {Q : σ → α → Prop}
    (hinv : ∀ s a s', inv s → allowed s a → step s a = some s' → inv s')
    (hstep : ∀ s a s', inv s → step s a = some s' → (Q s a ↔ allowed s a))
    (h0 : inv s) (hrun : run step s as = some s') :
    (∀ pre a post m, as = pre ++ a :: post → run step s pre = some m → Q m a) ↔
      ∀ pre a post m, as = pre ++ a :: post → run step s pre = some m → allowed m a := by
  induction as generalizing s with
  | nil => simp
  | cons b as ih =>
    obtain ⟨k, hk, hrest⟩ := run_cons_eq_some.mp hrun
    -- a property of all steps, split into the first one and those after it
    have hsplit (R : σ → α → Prop) :
        (∀ pre a post m, b :: as = pre ++ a :: post → run step s pre = some m → R m a) ↔
          R s b ∧ ∀ pre a post m, as = pre ++ a :: post → run step k pre = some m → R m a := by
      constructor
      · intro hall
        refine ⟨hall [] b as s rfl rfl, fun pre a post m he hm => ?_⟩
        exact hall (b :: pre) a post m (by rw [he, List.cons_append])
          (run_cons_eq_some.mpr ⟨k, hk, hm⟩)
      · rintro ⟨hfirst, hlater⟩ pre a post m he hm
        cases pre with
        | nil =>
          cases he
          cases hm
          exact hfirst
        | cons c pre =>
          cases he
          obtain ⟨k', hk', hm⟩ := run_cons_eq_some.mp hm
          rw [hk] at hk'
          cases hk'
          exact hlater pre a post m rfl hm
    rw [hsplit Q, hsplit allowed, hstep s b k h0 hk]
    exact and_congr_right fun hb => ih (hinv s b k h0 hb hk) hrest

/-- Induction along a run that also sees the actions so far. -/
theorem run_trace_induction {P : List α → σ → Prop} (h0 : P [] s)
    (hstep : ∀ as m a m', run step s as = some m → P as m → step m a = some m' →
      P (as ++ [a]) m') (hrun : run step s as = some s') : P as s' := by
  induction as using List.reverseRecOn generalizing s' with
  | nil =>
    cases hrun
    exact h0
  | append_singleton as a ih =>
    obtain ⟨m, hm, hlast⟩ := run_append_eq_some.mp hrun
    obtain ⟨m', hm', hend⟩ := run_cons_eq_some.mp hlast
    cases hend
    exact hstep as m a _ hm (ih hm) hm'

/-- How many steps of a list of actions, as far as it is enabled, pass a test. -/
def countSteps (step : σ → α → Option σ) (test : σ → α → Bool) : σ → List α → Nat
  | _, [] => 0
  | s, a :: as =>
    (if test s a then 1 else 0) + ((step s a).map fun s' => countSteps step test s' as).getD 0

variable {test : σ → α → Bool}

/-- One more step is counted when it passes the test. -/
theorem countSteps_concat {m : σ} (h : run step s as = some m) (a : α) :
    countSteps step test s (as ++ [a]) = countSteps step test s as + if test m a then 1 else 0 := by
  induction as generalizing s with
  | nil =>
    cases h
    cases hstep : step m a with
    | none => simp [countSteps, hstep]
    | some m' => simp [countSteps, hstep]
  | cons b as ih =>
    obtain ⟨k, hk, hrest⟩ := run_cons_eq_some.mp h
    simp only [List.cons_append, countSteps, hk, Option.map_some, Option.getD_some, ih hrest,
      Nat.add_assoc]

/-- Every step of a list of actions, as far as it is enabled, passes a test. -/
def testRun (step : σ → α → Option σ) (test : σ → α → Bool) : σ → List α → Bool
  | _, [] => true
  | s, a :: as => test s a && (step s a).all fun s' => testRun step test s' as

/-- A test that succeeds covers every step of the run. -/
theorem allowed_of_testRun
    (h : testRun step test s as = true) (pre : List α) (a : α) (post : List α) (m : σ)
    (he : as = pre ++ a :: post) (hm : run step s pre = some m) : test m a = true := by
  induction pre generalizing s as with
  | nil =>
    cases hm
    rw [he] at h
    exact (Bool.and_eq_true_iff.mp h).1
  | cons b pre ih =>
    rw [he] at h
    obtain ⟨k, hk, hrest⟩ := run_cons_eq_some.mp hm
    have hnext := (Bool.and_eq_true_iff.mp h).2
    rw [hk] at hnext
    exact ih hnext rfl hrest

end PlatformSpec.Base
