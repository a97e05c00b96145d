import Mathlib.Algebra.BigOperators.Group.Finset.Piecewise
import Mathlib.Data.Fintype.Basic
import Mathlib.Logic.Function.Basic
import PlatformSpec.Base.Run

/-!
# Interleaved processes

Processes share one state and make atomic steps in any order. Nothing here mentions a particular
system.
-/

namespace PlatformSpec.Base

universe u v w x

variable {σ : Type u} {ι : Type v} {κ : Type w} {α : Type x}

/-- A shared state and the place each process has reached. -/
structure Processes (σ : Type u) (ι : Type v) (κ : Type w) where
  shared : σ
  place : ι → κ

namespace Processes

variable [DecidableEq ι] (act : ι → σ → κ → α → Option (σ × κ))

/-- One process makes one atomic step, if it can. -/
def step (p : Processes σ ι κ) (a : ι × α) : Option (Processes σ ι κ) :=
  (act a.1 p.shared (p.place a.1) a.2).map fun r => ⟨r.1, Function.update p.place a.1 r.2⟩

variable {act}

/-- A step of the system is a step of the process named. -/
theorem step_eq_some {p p' : Processes σ ι κ} {i : ι} {a : α} :
    p.step act (i, a) = some p' ↔ ∃ s l, act i p.shared (p.place i) a = some (s, l) ∧
      p' = ⟨s, Function.update p.place i l⟩ := by
  simp only [step, Option.map_eq_some_iff, Prod.exists]
  constructor
  · rintro ⟨s, l, h, rfl⟩
    exact ⟨s, l, h, rfl⟩
  · rintro ⟨s, l, h, rfl⟩
    exact ⟨s, l, h, rfl⟩

@[simp] theorem place_update_self (s : σ) (place : ι → κ) (i : ι) (l : κ) :
    (⟨s, Function.update place i l⟩ : Processes σ ι κ).place i = l :=
  Function.update_self ..

theorem place_update_of_ne (s : σ) (place : ι → κ) {i j : ι} (h : j ≠ i) (l : κ) :
    (⟨s, Function.update place i l⟩ : Processes σ ι κ).place j = place j :=
  Function.update_of_ne h ..

/-- What holds at a place after a move holds at the place moved to, or held before. -/
theorem of_update {P : κ → Prop} {place : ι → κ} {i j : ι} {l : κ}
    (h : P (Function.update place i l j)) : j = i ∧ P l ∨ j ≠ i ∧ P (place j) := by
  by_cases hj : j = i
  · subst hj
    rw [Function.update_self] at h
    exact .inl ⟨rfl, h⟩
  · rw [Function.update_of_ne hj] at h
    exact .inr ⟨hj, h⟩

/-- A sum over all places after one of them has moved. -/
theorem sum_update {M : Type*} [AddCommMonoid M] [Fintype ι] (f : κ → M) (place : ι → κ)
    (i : ι) (l : κ) :
    ∑ j, f (Function.update place i l j) + f (place i) = ∑ j, f (place j) + f l := by
  have hsplit : ∀ q : ι → κ, ∑ j, f (q j) = f (q i) + ∑ j ∈ Finset.univ.erase i, f (q j) :=
    fun q => (Finset.add_sum_erase Finset.univ (fun j => f (q j)) (Finset.mem_univ i)).symm
  have hrest : ∑ j ∈ Finset.univ.erase i, f (Function.update place i l j) =
      ∑ j ∈ Finset.univ.erase i, f (place j) := by
    refine Finset.sum_congr rfl fun j hj => ?_
    rw [Function.update_of_ne (Finset.ne_of_mem_erase hj)]
  rw [hsplit (Function.update place i l), hsplit place, hrest, Function.update_self,
    add_assoc, add_comm (f l), add_comm _ (f (place i))]

end Processes
end PlatformSpec.Base
