import Mathlib.Data.List.Basic

/-!
# Decimal numbers

The digits with which a number is written, and the number that digits stand for.
-/

namespace PlatformSpec.Base

/-- A number as it is written. -/
def decimal (n : Int) : List Char := (toString n).toList

theorem decimal_ofNat (n : Nat) : decimal (Int.ofNat n) = Nat.toDigits 10 n := by
  show (toString n).toList = _
  rw [Nat.toString_eq_ofList_toDigits, String.toList_ofList]

theorem decimal_negSucc (n : Nat) : decimal (Int.negSucc n) = '-' :: Nat.toDigits 10 (n + 1) := by
  show ("-" ++ toString (n + 1)).toList = _
  rw [Nat.toString_eq_ofList_toDigits]
  simp

theorem isDigit_of_mem_digits {n : Nat} {c : Char} (h : c ∈ Nat.toDigits 10 n) :
    c.isDigit = true := Nat.isDigit_of_mem_toDigits (by decide) (by decide) h

/-- A number is written with digits and a sign. -/
theorem mem_decimal {n : Int} {c : Char} (h : c ∈ decimal n) : c = '-' ∨ c.isDigit = true := by
  cases n with
  | ofNat n =>
    rw [decimal_ofNat] at h
    exact Or.inr (isDigit_of_mem_digits h)
  | negSucc n =>
    rw [decimal_negSucc] at h
    exact (List.mem_cons.mp h).imp_right isDigit_of_mem_digits

theorem decimal_ne_nil (n : Int) : decimal n ≠ [] := by
  cases n with
  | ofNat n =>
    rw [decimal_ofNat]
    exact Nat.toDigits_ne_nil
  | negSucc n =>
    rw [decimal_negSucc]
    exact List.cons_ne_nil _ _

/-- The natural number that digits stand for. -/
def readNat (s : List Char) : Option Nat :=
  if s ≠ [] ∧ s.all Char.isDigit = true then some (Nat.ofDigitChars 10 s 0) else none

/-- The number that digits after a sign stand for. -/
def readInt : List Char → Option Int
  | '-' :: s => (readNat s).map fun n : Nat => -(n : Int)
  | s => (readNat s).map Int.ofNat

theorem readNat_digits (n : Nat) : readNat (Nat.toDigits 10 n) = some n := by
  rw [readNat, if_pos ⟨Nat.toDigits_ne_nil, List.all_eq_true.mpr fun _ => isDigit_of_mem_digits⟩,
    Nat.ofDigitChars_ten_toDigits]

/-- A number is read as it is written. -/
theorem readInt_decimal (n : Int) : readInt (decimal n) = some n := by
  cases n with
  | ofNat n =>
    have hvalue := congrArg (Option.map Int.ofNat) (readNat_digits n)
    have hdigit := fun c => isDigit_of_mem_digits (n := n) (c := c)
    rw [decimal_ofNat]
    unfold readInt
    split
    next heq => exact absurd (hdigit '-' (heq ▸ List.mem_cons_self)) (by decide)
    next => exact hvalue
  | negSucc n =>
    rw [decimal_negSucc, readInt, readNat_digits]
    rfl

theorem decimal_injective {m n : Int} (h : decimal m = decimal n) : m = n := by
  have hread := congrArg readInt h
  rw [readInt_decimal, readInt_decimal] at hread
  exact Option.some.inj hread

end PlatformSpec.Base
