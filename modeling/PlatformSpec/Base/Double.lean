import Mathlib

/-!
# Double precision numbers

The numbers of `float`: unpacked numbers of the format `binary64`, where an exponent that does not
fit is an infinity. An integer rounds to an integer or to an infinity, and numbers other than
`NaN` are smaller, equal or greater.
-/

namespace PlatformSpec.Base

open Float.Model (UnpackedFloat Format totalExponent)
open Float.Model.UnpackedFloat (Sign Accuracy ExtendedMantissa)

/-- A double precision number. -/
abbrev Double := UnpackedFloat

namespace Double

/-- An exponent beyond the format is an infinity. -/
def overflow : Double → Double
  | .finite s m e h => if 971 < e then .infinity s else .finite s m e h
  | x => x

/-- The nearest number to an integer. -/
def ofInt (n : Int) : Double := overflow (UnpackedFloat.ofInt Format.binary64 n)

/-- The nearest number to `m * 10 ^ e`, with a sign. -/
def ofDecimal (negative : Bool) (m : Nat) (e : Int) : Double :=
  let x := if e = 0 then UnpackedFloat.ofInt Format.binary64 m
    else UnpackedFloat.ofScientific Format.binary64 m e
  overflow (if negative then x.neg else x)

/-- The integer that a number is, if it is one. -/
def integer? : Double → Option Int
  | .finite s m e _ =>
    if 0 ≤ e then some (s.apply (m * 2 ^ e.toNat))
    else if m % 2 ^ (-e).toNat = 0 then some (s.apply (m / 2 ^ (-e).toNat : Nat)) else none
  | .zero _ => some 0
  | _ => none

/-! ### Order -/

private theorem compare_pair_swap (e e' : Int) (m m' : Nat) :
    ((compare e e').then (compare m m')).swap = (compare e' e).then (compare m' m) := by
  have he : compare e' e = (compare e e').swap := Std.OrientedCmp.eq_swap
  have hm : compare m' m = (compare m m').swap := Std.OrientedCmp.eq_swap
  rw [Ordering.swap_then, he, hm]

/-- Comparing the other way round. -/
theorem compare_swap (x y : Double) : x.compare y = (y.compare x).map Ordering.swap := by
  cases x with
  | notANumber => cases y <;> rfl
  | infinity s =>
    cases y with
    | infinity t => cases s <;> cases t <;> rfl
    | notANumber => cases s <;> rfl
    | zero t => cases s <;> rfl
    | finite t m e h => cases s <;> cases t <;> rfl
  | zero s =>
    cases y with
    | infinity t => cases t <;> rfl
    | notANumber => rfl
    | zero t => rfl
    | finite t m e h => cases t <;> rfl
  | finite s m e h =>
    cases y with
    | infinity t => cases s <;> cases t <;> rfl
    | notANumber => cases s <;> rfl
    | zero t => cases s <;> rfl
    | finite t m' e' h' =>
      cases s <;> cases t <;> first
        | rfl
        | simp [UnpackedFloat.compare, compare_pair_swap]

/-- Two numbers compare unless one is `NaN`. -/
theorem compare_isSome {x y : Double} :
    (x.compare y).isSome = true ↔ x.isNaN = false ∧ y.isNaN = false := by
  fun_cases UnpackedFloat.compare x y <;> simp_all [UnpackedFloat.isNaN]

/-! ### Integers -/

theorem targetExponent_eq (t : Int) :
    Format.binary64.targetExponent t = max (t - 53) (-1074) := by
  simp [Format.targetExponent, Format.mantissaBits, Format.minExponent]

variable {m : Nat}

private theorem log2_mul_two_pow (hm : 0 < m) (k : Nat) : (m * 2 ^ k).log2 = m.log2 + k := by
  have hself := Nat.log2_self_le (Nat.ne_of_gt hm)
  have hlt := Nat.lt_log2_self (n := m)
  refine (Nat.log2_eq_iff (Nat.ne_of_gt (Nat.mul_pos hm (Nat.two_pow_pos k)))).mpr ⟨?_, ?_⟩
  · rw [Nat.pow_add]
    exact Nat.mul_le_mul_right _ hself
  · rw [Nat.add_right_comm, Nat.pow_add]
    exact Nat.mul_lt_mul_of_pos_right hlt (Nat.two_pow_pos k)

variable {e : Int}

theorem shiftToTargetExponent_of_log2 (hm : m.log2 = 52)
    (he : -1074 ≤ e) : UnpackedFloat.shiftToTargetExponent Format.binary64 m e .exact =
      (⟨m, false, false⟩, e) := by
  have htarget : Format.binary64.targetExponent (totalExponent m e) = e := by
    rw [targetExponent_eq, totalExponent, hm]
    omega
  have hzero : (e - e).toNat = 0 := by omega
  simp only [UnpackedFloat.shiftToTargetExponent, UnpackedFloat.shiftToExponent, htarget, hzero]
  exact Prod.ext rfl (Int.add_zero e)

theorem round_of_log2 (s : Sign) (hm : m.log2 = 52)
    (he : -1074 ≤ e) : ∃ h, UnpackedFloat.roundWithAccuracy Format.binary64 s m e .exact =
      .finite s m e h := by
  have hpos : m ≠ 0 := by
    rintro rfl
    cases hm
  have hrounded : ExtendedMantissa.roundedMantissa ⟨m, false, false⟩ = m := rfl
  refine ⟨Nat.pos_of_ne_zero hpos, ?_⟩
  simp only [UnpackedFloat.roundWithAccuracy, shiftToTargetExponent_of_log2 hm he, hrounded]
  exact dif_neg hpos

theorem round_of_nonneg (s : Sign) (m : Nat) (he : 0 ≤ e) :
    UnpackedFloat.roundWithAccuracy Format.binary64 s m e .exact = .zero s ∨
      ∃ m' e' h, UnpackedFloat.roundWithAccuracy Format.binary64 s m e .exact =
        .finite s m' e' h ∧ 0 ≤ e' := by
  simp only [UnpackedFloat.roundWithAccuracy]
  split
  next => exact .inl rfl
  next hpos =>
    refine .inr ⟨_, _, Nat.pos_of_ne_zero hpos, rfl, ?_⟩
    simp only [UnpackedFloat.shiftToTargetExponent, UnpackedFloat.shiftToExponent]
    omega

/-- A number that an integer can be rounded to. -/
private def Whole (x : Double) : Prop := (∃ k, x.integer? = some k) ∨ x.isInf = true

private theorem whole_overflow {x : Double} (h : Whole x) : Whole (overflow x) := by
  cases x with
  | finite s m e hm =>
    show Whole (if 971 < e then .infinity s else .finite s m e hm)
    split
    next => exact .inr rfl
    next => exact h
  | _ => exact h

private theorem whole_of_nonneg (s : Sign) (m : Nat) (he : 0 ≤ e) (hm : 0 < m) :
    Whole (.finite s m e hm) :=
  .inl ⟨_, if_pos he⟩

private theorem whole_of_dvd (s : Sign) {k : Nat} (h : m % 2 ^ (k + 1) = 0) (hm : 0 < m) :
    Whole (.finite s m (0 - ((k + 1 : Nat) : Int)) hm) := by
  have hexp : (-(0 - ((k + 1 : Nat) : Int))).toNat = k + 1 := by omega
  refine .inl ⟨s.apply (m / 2 ^ (k + 1) : Nat), ?_⟩
  simp only [integer?, hexp, h]
  exact if_neg (by omega)

private theorem whole_round (s : Sign) (hm : 0 < m) :
    Whole (UnpackedFloat.round Format.binary64 s m 0) := by
  have htarget : Format.binary64.targetExponent (totalExponent m 0) = (m.log2 : Int) - 52 := by
    rw [targetExponent_eq, totalExponent]
    omega
  simp only [UnpackedFloat.round, UnpackedFloat.decreaseExponent, htarget]
  by_cases hlog : m.log2 ≤ 52
  · -- the bits fit, and the mantissa is shifted up to 53 of them
    obtain ⟨k, hk⟩ : ∃ k, k = 52 - m.log2 := ⟨_, rfl⟩
    have hshift : (0 - ((m.log2 : Int) - 52)).toNat = k := by omega
    have hbits : (m <<< k).log2 = 52 := by
      rw [Nat.shiftLeft_eq, log2_mul_two_pow hm]
      omega
    rw [hshift]
    obtain ⟨hpos, hround⟩ := round_of_log2 s hbits (show -1074 ≤ 0 - (k : Int) by omega)
    rw [hround]
    cases k with
    | zero => exact whole_of_nonneg s _ (by omega) hpos
    | succ k =>
      refine whole_of_dvd s ?_ hpos
      rw [Nat.shiftLeft_eq, Nat.mul_mod_left]
  · have hshift : (0 - ((m.log2 : Int) - 52)).toNat = 0 := by omega
    rw [hshift]
    rcases round_of_nonneg s (m <<< 0) (e := 0 - ((0 : Nat) : Int)) (by omega) with
      hround | ⟨m', e', h, hround, he⟩
    · rw [hround]
      exact .inl ⟨0, rfl⟩
    · rw [hround]
      exact whole_of_nonneg s m' he h

/-- The nearest number to an integer is an integer, or infinite. -/
theorem integer?_ofInt (n : Int) : (∃ k, (ofInt n).integer? = some k) ∨ (ofInt n).isInf = true := by
  refine whole_overflow ?_
  unfold UnpackedFloat.ofInt UnpackedFloat.normalize
  split
  next hn =>
    rw [compare_lt_iff_lt] at hn
    exact whole_round .negative (by omega)
  next => exact .inl ⟨0, rfl⟩
  next hn =>
    rw [compare_gt_iff_gt] at hn
    exact whole_round .positive (by omega)

private theorem neg_round (m : Nat) (e : Int) :
    (UnpackedFloat.round Format.binary64 .positive m e).neg =
      UnpackedFloat.round Format.binary64 .negative m e := by
  simp only [UnpackedFloat.round, UnpackedFloat.roundWithAccuracy]
  split
  next => rfl
  next => rfl

/-- Without an exponent a decimal is an integer, up to the sign of zero. -/
theorem ofDecimal_zero (negative : Bool) (m : Nat) :
    (ofDecimal negative m 0).integer? = (ofInt (if negative then -m else m)).integer? ∧
      (ofDecimal negative m 0).isInf = (ofInt (if negative then -m else m)).isInf := by
  cases negative with
  | false => exact ⟨rfl, rfl⟩
  | true =>
    rcases Nat.eq_zero_or_pos m with rfl | hm
    · exact ⟨rfl, rfl⟩
    · have hpos : compare (m : Int) 0 = .gt := compare_gt_iff_gt.mpr (by omega)
      have hneg : compare (-(m : Int)) 0 = .lt := compare_lt_iff_lt.mpr (by omega)
      have hsame : ofDecimal true m 0 = ofInt (-m) := by
        simp only [ofDecimal, ofInt, UnpackedFloat.ofInt, UnpackedFloat.normalize, hpos, hneg,
          Int.toNat_natCast, Int.neg_neg, if_true]
        exact congrArg overflow (neg_round m 0)
      rw [hsame]
      exact ⟨rfl, rfl⟩

end Double
end PlatformSpec.Base
