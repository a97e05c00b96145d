import Mathlib.Data.List.Lattice
import Mathlib.Data.List.Nodup
import Mathlib.Data.List.Range
import Mathlib.Data.Nat.Init

/-!
# Slices and moving windows

Slices of a list by bounds that may be negative, and windows that move over a number of positions
by a fixed step. Nothing here mentions a particular system.
-/

namespace PlatformSpec.Base

universe u

/-- The index that the bound of a slice stands for: counted from the end when it is negative,
clipped to the length. -/
def sliceIndex (length : Nat) (bound : Int) : Nat :=
  if bound < 0 then (length + bound).toNat else min bound.toNat length

/-- `xs[start:stop]`. -/
def slice {α : Type u} (xs : List α) (start stop : Int) : List α :=
  (xs.take (sliceIndex xs.length stop)).drop (sliceIndex xs.length start)

section Slice

variable {α : Type u} {n i : Nat} {start stop : Int}

theorem sliceIndex_of_nonneg {bound : Int} (h : 0 ≤ bound) :
    sliceIndex n bound = min bound.toNat n := by
  rw [sliceIndex, if_neg (by omega)]

theorem sliceIndex_le (n : Nat) (bound : Int) : sliceIndex n bound ≤ n := by
  unfold sliceIndex
  split <;> omega

theorem length_slice (xs : List α) (start stop : Int) :
    (slice xs start stop).length = sliceIndex xs.length stop - sliceIndex xs.length start := by
  have := sliceIndex_le xs.length stop
  simp only [slice, List.length_drop, List.length_take]
  omega

/-- The positions that a slice takes. -/
theorem slice_range (n : Nat) (start stop : Int) :
    slice (List.range n) start stop =
      List.range' (sliceIndex n start) (sliceIndex n stop - sliceIndex n start) := by
  apply List.ext_getElem
  · rw [length_slice, List.length_range, List.length_range']
  · intro i hi hj
    simp [slice]

end Slice

namespace Window

/-- Positions from a multiple of the step on, as many as the window holds or as are left. -/
def window (n size step k : Nat) : List Nat := List.range' (k * step) (min size (n - k * step))

/-- The number of windows that begin before the end. -/
def count (n step : Nat) : Nat := (n + step - 1) / step

variable {n size step k i : Nat}

theorem lt_count_iff (hstep : 0 < step) : k < count n step ↔ k * step < n := by
  rw [count, ← Nat.succ_le_iff, Nat.le_div_iff_mul_le hstep, Nat.succ_mul]
  omega

theorem mem_window : i ∈ window n size step k ↔
    k * step ≤ i ∧ i < k * step + size ∧ i < n := by
  rw [window, List.mem_range'_1]
  omega

theorem length_window_le : (window n size step k).length ≤ size := by
  rw [window, List.length_range']
  exact Nat.min_le_left _ _

/-- Windows at least as long as the step leave no position out. -/
theorem exists_window (hstep : 0 < step) (hsize : step ≤ size) (hi : i < n) :
    ∃ k < count n step, i ∈ window n size step k := by
  have hdiv := Nat.div_mul_le_self i step
  have hmod := Nat.lt_div_mul_add hstep (a := i)
  exact ⟨i / step, (lt_count_iff hstep).mpr (by omega), mem_window.mpr (by omega)⟩

/-- What two windows in a row share. -/
theorem inter_window (hsize : step ≤ size) (k : Nat) :
    (window n size step k ∩ window n size step (k + 1)).length =
      min (size - step) (n - (k + 1) * step) := by
  have hmul : (k + 1) * step = k * step + step := Nat.succ_mul k step
  have hinter : (window n size step k ∩ window n size step (k + 1)).Perm
      (List.range' ((k + 1) * step) (min (size - step) (n - (k + 1) * step))) := by
    refine (List.perm_ext_iff_of_nodup (List.Nodup.inter _ List.nodup_range')
      List.nodup_range').mpr fun i => ?_
    simp only [List.mem_inter_iff, mem_window, List.mem_range'_1]
    omega
  rw [hinter.length_eq, List.length_range']

/-- Windows in a row share as much as the step leaves, exactly when there is one window only or
the last one is as long as that. -/
theorem shared_iff (hstep : 0 < step) (hn : 0 < n) (shared : Nat) :
    (∀ k, k + 1 < count n step → min shared (n - (k + 1) * step) = shared) ↔
      n ≤ step ∨ shared ≤ (n - 1) % step + 1 := by
  have hlast : (n - 1) / step * step + (n - 1) % step = n - 1 := Nat.div_add_mod' _ _
  have hmod : (n - 1) % step < step := Nat.mod_lt _ hstep
  constructor
  · intro h
    rcases Nat.lt_or_ge step n with hlt | hge
    · right
      -- the last window begins at the greatest multiple of the step
      have hpos : 0 < (n - 1) / step := Nat.div_pos (by omega) hstep
      have hk := h ((n - 1) / step - 1)
      rw [Nat.sub_add_cancel hpos] at hk
      have := hk ((lt_count_iff hstep).mpr (by omega))
      omega
    · exact Or.inl hge
  · intro h k hk
    have hk : (k + 1) * step < n := (lt_count_iff hstep).mp hk
    have hsucc : (k + 1) * step = k * step + step := Nat.succ_mul k step
    have hle : shared ≤ (n - 1) % step + 1 := h.resolve_left (by omega)
    have hquot : k + 1 ≤ (n - 1) / step := (Nat.le_div_iff_mul_le hstep).mpr (by omega)
    have := Nat.mul_le_mul_right step hquot
    omega

end Window
end PlatformSpec.Base
