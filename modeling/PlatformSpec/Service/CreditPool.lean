import Mathlib.Algebra.BigOperators.Group.Finset.Basic
import Mathlib.Algebra.Order.BigOperators.Group.Finset
import PlatformSpec.Base.Interleaving

/-!
# The credit pool of a tenant

Models `services/credit_pool_service.py` and `TenantCreditPool` of `models/model.py`.
Concurrent deductions read the pool and update it in two separate statements; the update
adds an amount that was capped with the balance read before.
-/

namespace PlatformSpec.Service.CreditPool

open Base

/-- `TenantCreditPool`, its counters. -/
structure TenantCreditPool where
  quotaLimit : Int
  quotaUsed : Int
  deriving DecidableEq

/-- `TenantCreditPool.remaining_credits`. -/
def TenantCreditPool.remainingCredits (pool : TenantCreditPool) : Int :=
  max 0 (pool.quotaLimit - pool.quotaUsed)

/-- Where a call of `check_and_deduct_credits` is: not begun, past its checks with the
amount to deduct, returned, or ended by `QuotaExceededError`. -/
inductive Place where
  | called (creditsRequired : Int)
  | checked (actualCredits : Int)
  | returned (actualCredits : Int)
  | raised (message : String)
  deriving DecidableEq

/-- The database statements of a call; an update may fail. -/
inductive Statement where
  | getPool
  | update
  | updateFails
  deriving DecidableEq

/-- `check_and_deduct_credits`, one statement at a time. -/
def execute (pool : Option TenantCreditPool) :
    Place → Statement → Option (Option TenantCreditPool × Place)
  | .called creditsRequired, .getPool =>
    match pool with
    | none => some (pool, .raised "Credit pool not found")
    | some p =>
      if p.remainingCredits ≤ 0 then some (pool, .raised "No credits remaining")
      else some (pool, .checked (min creditsRequired p.remainingCredits))
  | .checked actualCredits, .update =>
    some (pool.map fun p => { p with quotaUsed := p.quotaUsed + actualCredits },
      .returned actualCredits)
  | .checked _, .updateFails => some (pool, .raised "Failed to deduct credits")
  | _, _ => none

/-- Concurrent calls on one pool. -/
abbrev Calls (ι : Type) := Processes (Option TenantCreditPool) ι Place

variable {ι : Type} [DecidableEq ι]

/-- One statement of one call. -/
def step : Calls ι → ι × Statement → Option (Calls ι) := Processes.step fun _ => execute

/-- Calls that each require an amount, none of them begun. -/
def start (pool : TenantCreditPool) (creditsRequired : ι → Int) : Calls ι :=
  ⟨some pool, fun i => .called (creditsRequired i)⟩

/-- What a call has returned so far. -/
def Place.credits : Place → Int
  | .returned actualCredits => actualCredits
  | _ => 0

/-- The pool is not overdrawn. -/
def WithinQuota (c : Calls ι) : Prop := ∀ p, c.shared = some p → p.quotaUsed ≤ p.quotaLimit

/-- An update deducts no more than what remains when it is executed. -/
def Covered (c : Calls ι) : ι × Statement → Prop
  | (i, .update) => ∀ actualCredits p, c.place i = .checked actualCredits →
    c.shared = some p → actualCredits ≤ p.remainingCredits
  | _ => True

/-- The amount a call has checked and not deducted yet. -/
def Place.pending : Place → Option Int
  | .checked actualCredits => some actualCredits
  | _ => none

variable {c c' : Calls ι}

omit [DecidableEq ι] in
theorem covered_update_iff {i : ι} : (∀ actualCredits ∈ (c.place i).pending, ∀ p ∈ c.shared,
      actualCredits ≤ p.remainingCredits) ↔ Covered c (i, .update) := by
  unfold Covered
  cases hplace : c.place i with
  | checked actualCredits =>
    simp only [Place.pending, Option.mem_def, Option.some.injEq, forall_eq']
    refine ⟨fun h n p hn hp => ?_, fun h p hp => h actualCredits p hplace hp⟩
    cases hplace.symm.trans hn
    exact h p hp
  | called creditsRequired => simp [Place.pending, hplace]
  | returned actualCredits => simp [Place.pending, hplace]
  | raised message => simp [Place.pending, hplace]

instance (c : Calls ι) : (a : ι × Statement) → Decidable (Covered c a)
  | (_, .update) => decidable_of_iff _ covered_update_iff
  | (_, .getPool) => isTrue trivial
  | (_, .updateFails) => isTrue trivial

private theorem execute_cases {pool pool' : Option TenantCreditPool} {l l' : Place}
    {a : Statement} (h : execute pool l a = some (pool', l')) :
    (∃ n, l = .checked n ∧ a = .update ∧ l' = .returned n ∧
      pool' = pool.map fun p => { p with quotaUsed := p.quotaUsed + n }) ∨
    (a ≠ .update ∧ pool' = pool ∧ l.credits = 0 ∧ l'.credits = 0) := by
  unfold execute at h
  split at h
  next =>
    split at h
    next =>
      cases h
      exact .inr ⟨by simp, rfl, rfl, rfl⟩
    next =>
      split at h
      next =>
        cases h
        exact .inr ⟨by simp, rfl, rfl, rfl⟩
      next =>
        cases h
        exact .inr ⟨by simp, rfl, rfl, rfl⟩
  next n =>
    cases h
    exact .inl ⟨n, rfl, rfl, rfl, rfl⟩
  next =>
    cases h
    exact .inr ⟨by simp, rfl, rfl, rfl⟩
  next => cases h

variable {a : ι × Statement}

theorem WithinQuota.step (h : WithinQuota c)
    (ha : Covered c a) (hstep : CreditPool.step c a = some c') : WithinQuota c' := by
  obtain ⟨i, a⟩ := a
  obtain ⟨pool', l', hex, rfl⟩ := Processes.step_eq_some.mp hstep
  rcases execute_cases hex with ⟨n, hl, rfl, rfl, rfl⟩ | ⟨-, rfl, -, -⟩
  · intro p hp
    cases hpool : c.shared with
    | none =>
      rw [hpool] at hp
      cases hp
    | some q =>
      rw [hpool] at hp
      cases hp
      have hq := h q hpool
      have hn := ha n q hl hpool
      unfold TenantCreditPool.remainingCredits at hn
      simp only
      omega
  · exact h

theorem covered_of_withinQuota
    (hstep : step c a = some c') (h' : WithinQuota c') : Covered c a := by
  obtain ⟨i, a⟩ := a
  cases a with
  | getPool => trivial
  | updateFails => trivial
  | update =>
    intro n p hl hp
    obtain ⟨pool', l', hex, rfl⟩ := Processes.step_eq_some.mp hstep
    rw [hl, hp] at hex
    cases hex
    have hle := h' _ rfl
    unfold TenantCreditPool.remainingCredits
    simp only at hle
    omega

variable [Fintype ι]

/-- The pool has grown by what the calls returned, and its limit is the same. -/
private def Accounted (pool : TenantCreditPool) (c : Calls ι) : Prop :=
  c.shared = some { pool with quotaUsed := pool.quotaUsed + ∑ i, (c.place i).credits }

variable {pool : TenantCreditPool}

private theorem Accounted.step
    (h : Accounted pool c) (hstep : CreditPool.step c a = some c') : Accounted pool c' := by
  obtain ⟨i, a⟩ := a
  obtain ⟨pool', l', hex, rfl⟩ := Processes.step_eq_some.mp hstep
  have hsum : ∑ j, (Function.update c.place i l' j).credits =
      l'.credits + ∑ j ∈ Finset.univ \ {i}, (c.place j).credits := by
    rw [← Finset.sum_update_of_mem (Finset.mem_univ i) (fun j => (c.place j).credits) l'.credits]
    refine Finset.sum_congr rfl fun j _ => ?_
    by_cases hj : j = i
    · simp [hj]
    · simp [Function.update_of_ne hj]
  have hold : ∑ j, (c.place j).credits =
      (c.place i).credits + ∑ j ∈ Finset.univ \ {i}, (c.place j).credits := by
    rw [← Finset.sum_update_of_mem (Finset.mem_univ i) (fun j => (c.place j).credits)
      (c.place i).credits, Function.update_eq_self]
  unfold Accounted at h ⊢
  simp only [hsum]
  rcases execute_cases hex with ⟨n, hl, -, rfl, rfl⟩ | ⟨-, rfl, hl, hl'⟩
  · rw [hl] at hold
    rw [h, hold]
    simp only [Option.map_some, Place.credits, Option.some.injEq, TenantCreditPool.mk.injEq,
      true_and]
    omega
  · rw [h, hold, hl, hl']

/-- A pool of ten credits. -/
def trial : TenantCreditPool := ⟨10, 0⟩

/-- A call keeps to what it requires and to what remained at the start. -/
private def Place.Within (creditsRequired remaining : Int) : Place → Prop
  | .called n => n = creditsRequired
  | .checked n | .returned n => 0 ≤ n ∧ n ≤ min creditsRequired remaining
  | .raised _ => True

/-- The pool with its limit, and grown at most. -/
private def Grown (pool : TenantCreditPool) (p : TenantCreditPool) : Prop :=
  p.quotaLimit = pool.quotaLimit ∧ pool.quotaUsed ≤ p.quotaUsed

private theorem execute_within {n : Int} (hn : 0 ≤ n)
    {shared shared' : Option TenantCreditPool} {l l' : Place} {a : Statement}
    (hgrown : ∀ p ∈ shared, Grown pool p) (hl : l.Within n pool.remainingCredits)
    (hex : execute shared l a = some (shared', l')) :
    (∀ p ∈ shared', Grown pool p) ∧ l'.Within n pool.remainingCredits := by
  unfold execute at hex
  split at hex
  next m =>
    split at hex
    next hnone => cases hex; exact ⟨hgrown, trivial⟩
    next p =>
      obtain ⟨hlimit, hused⟩ := hgrown p rfl
      split at hex
      next => cases hex; exact ⟨hgrown, trivial⟩
      next hleft =>
        cases hex
        have hm : m = n := hl
        refine ⟨hgrown, ?_⟩
        simp only [Place.Within, TenantCreditPool.remainingCredits] at hleft ⊢
        omega
  next m =>
    cases hex
    refine ⟨fun p hp => ?_, hl⟩
    obtain ⟨q, hq, rfl⟩ := Option.map_eq_some_iff.mp hp
    exact ⟨(hgrown q hq).1, Int.le_trans (hgrown q hq).2 (Int.le_add_of_nonneg_right hl.1)⟩
  next => cases hex; exact ⟨hgrown, trivial⟩
  next => cases hex

/-- However concurrent calls interleave, the pool never grows by more than what the calls require,
each counted up to what remained at the start. -/
theorem overdraft_bounded {pool : TenantCreditPool} {creditsRequired : ι → Int}
    {as : List (ι × Statement)} {c : Calls ι} (hrequired : ∀ i, 0 ≤ creditsRequired i)
    (hrun : run step (start pool creditsRequired) as = some c) :
    ∃ p, c.shared = some p ∧ pool.quotaUsed ≤ p.quotaUsed ∧
      p.quotaUsed ≤ pool.quotaUsed + ∑ i, min (creditsRequired i) pool.remainingCredits := by
  obtain ⟨⟨hgrown, hplaces⟩, haccount⟩ : ((∀ p ∈ c.shared, Grown pool p) ∧
      ∀ i, (c.place i).Within (creditsRequired i) pool.remainingCredits) ∧ Accounted pool c := by
    refine run_invariant (fun _ => True) (P := fun c : Calls ι => ((∀ p ∈ c.shared, Grown pool p) ∧
      ∀ i, (c.place i).Within (creditsRequired i) pool.remainingCredits) ∧ Accounted pool c)
      ?_ ⟨⟨by simp [start, Grown], fun _ => by simp [start, Place.Within]⟩, ?_⟩
      (fun _ _ => trivial) hrun
    · rintro m ⟨i, a⟩ m' ⟨⟨hgrown, hplaces⟩, haccount⟩ - hstep
      refine ⟨?_, haccount.step hstep⟩
      obtain ⟨pool', l', hex, rfl⟩ := Processes.step_eq_some.mp hstep
      obtain ⟨hgrown', hl'⟩ := execute_within (hrequired i) hgrown (hplaces i) hex
      exact ⟨hgrown', Function.forall_update_iff m.place
        (fun j l => l.Within (creditsRequired j) pool.remainingCredits) |>.mpr
          ⟨hl', fun j _ => hplaces j⟩⟩
    · simp [Accounted, start, Place.credits]
  refine ⟨_, haccount, (hgrown _ haccount).2, Int.add_le_add_left ?_ _⟩
  refine Finset.sum_le_sum fun i _ => ?_
  have hi := hplaces i
  cases hplace : c.place i with
  | returned n => exact (hplace ▸ hi).2
  | called | checked | raised => exact Int.le_min.mpr ⟨hrequired i, Int.le_max_left ..⟩

theorem overdraft_bounded_trial : ∃ c : Calls Bool, ∃ p,
    run step (start trial fun _ => 10)
      [(true, .getPool), (false, .getPool), (true, .update), (false, .update)] = some c ∧
    c.shared = some p ∧ p.quotaUsed ≤ 0 + ∑ _i : Bool, min 10 trial.remainingCredits := by
  obtain ⟨c, hc⟩ : ∃ c, run step (start trial fun _ => 10)
      [(true, .getPool), (false, .getPool), (true, .update), (false, .update)] = some c :=
    ⟨_, rfl⟩
  obtain ⟨p, hp, -, hle⟩ := overdraft_bounded (fun _ => by decide) hc
  exact ⟨c, p, hc, hp, hle⟩

end PlatformSpec.Service.CreditPool
