import PlatformSpec.Conditions.Evaluation

/-!
# Numeric conditions

Equality reads what is expected by the type of the actual value, order by a normalisation of both.
They agree for floating point values; for an integer the text must be one that `int` reads, and
the integer and the nearest number must compare to the value alike.
-/

namespace PlatformSpec.Conditions

open Base DraftVariable PlatformSpec.Runtime

variable (py : Python)

/-- None of the six comparisons raises, exactly one of `<`, `=` and `>` holds, and the others are
what their signs say. -/
def Consistent (value : Value) (expected : String) : Prop :=
  ∃ lt eq gt ne ge le : Bool,
    evaluateCondition py .lessThan value (.str expected) = .ok lt ∧
    evaluateCondition py .equal value (.str expected) = .ok eq ∧
    evaluateCondition py .greaterThan value (.str expected) = .ok gt ∧
    evaluateCondition py .notEqual value (.str expected) = .ok ne ∧
    evaluateCondition py .greaterThanOrEqual value (.str expected) = .ok ge ∧
    evaluateCondition py .lessThanOrEqual value (.str expected) = .ok le ∧
    [lt, eq, gt].count true = 1 ∧ ne = !eq ∧ ge = (gt || eq) ∧ le = (lt || eq)

/-- An integer is read by `int`, and it and the nearest number, if that is finite, equal the value
both or neither; if it is not, the value is no such integer. For a floating point value neither
side is `NaN`. -/
def Comparable : Value → String → Prop
  | .int n, expected => ∃ m, Numeral.readInt py.digit expected = some m ∧
    match (Double.ofInt m).integer? with
    | some k => n = m ↔ n = k
    | none => (Double.ofInt n).isInf = false
  | .float repr, expected => (Value.floatOf repr).isNaN = false ∧
    ∀ y, Numeral.readFloat py.digit expected = some y → y.isNaN = false
  | _, _ => False

variable {py} {value : Value} {expected : String} {z a b x y : DraftVariable.Num}

theorem relations_iff (o : Option Ordering) (e : Bool) :
    ([o == some .lt, e, o.map Ordering.swap == some .lt].count true = 1 ∧
      (o.map Ordering.swap).any (·.isLE) = (o.map Ordering.swap == some .lt || e) ∧
      o.any (·.isLE) = (o == some .lt || e)) ↔
    o.isSome = true ∧ (e = true ↔ o = some .eq) := by
  cases o with
  | none => cases e <;> decide
  | some o => cases o <;> cases e <;> decide

private theorem consistent_iff_operands (hnone : value.isNone = false)
    (hnum : value.num? = some z) (heq : equalOperands py value (.str expected) = .ok (a, b))
    (hord : normalizeNumericValues py z (.str expected) = .ok (x, y))
    (hswap : y.compare x = (x.compare y).map Ordering.swap) :
    Consistent py value expected ↔ (x.compare y).isSome = true ∧
      (a.compare b = some .eq ↔ x.compare y = some .eq) := by
  have horder : ∀ compare, assertOrder py compare value (.str expected) = .ok (compare x y) := by
    intro compare
    simp only [assertOrder, hnone, hnum, hord]
    rfl
  have hequal : assertEqual py value (.str expected) = .ok (a.eq b) := by
    simp only [assertEqual, hnone, heq]
    rfl
  have hnotEqual : assertNotEqual py value (.str expected) = .ok !(a.eq b) := by
    simp only [assertNotEqual, hnone, heq]
    rfl
  have hrelations := relations_iff (x.compare y) (a.eq b)
  have heqTrue : a.eq b = true ↔ a.compare b = some .eq := by simp [DraftVariable.Num.eq]
  rw [heqTrue] at hrelations
  rw [← hrelations]
  unfold Consistent
  simp only [evaluateCondition, assertLessThan, assertGreaterThan, assertGreaterThanOrEqual,
    assertLessThanOrEqual, horder, hequal, hnotEqual, Except.ok.injEq]
  constructor
  · rintro ⟨lt, eq, gt, ne, ge, le, rfl, rfl, rfl, rfl, rfl, rfl, hcount, -, hge, hle⟩
    simp only [DraftVariable.Num.lt, DraftVariable.Num.le, hswap] at hcount hge hle
    exact ⟨hcount, hge, hle⟩
  · rintro ⟨hcount, hge, hle⟩
    refine ⟨_, _, _, _, _, _, rfl, rfl, rfl, rfl, rfl, rfl, ?_⟩
    simp only [DraftVariable.Num.lt, DraftVariable.Num.le, hswap]
    exact ⟨hcount, trivial, hge, hle⟩

theorem equalOperands_of_consistent (hnone : value.isNone = false)
    (h : Consistent py value expected) :
    ∃ p, equalOperands py value (.str expected) = .ok p := by
  obtain ⟨lt, eq, gt, ne, ge, le, -, heq, -⟩ := h
  simp only [evaluateCondition, assertEqual, hnone] at heq
  cases hp : equalOperands py value (.str expected) with
  | error e =>
    rw [hp] at heq
    cases heq
  | ok p => exact ⟨p, rfl⟩

theorem normalized_of_consistent (hnone : value.isNone = false)
    (hnum : value.num? = some z) (h : Consistent py value expected) :
    ∃ p, normalizeNumericValues py z (.str expected) = .ok p := by
  obtain ⟨lt, eq, gt, ne, ge, le, hlt, -⟩ := h
  simp only [evaluateCondition, assertLessThan, assertOrder, hnone, hnum] at hlt
  cases hp : normalizeNumericValues py z (.str expected) with
  | error e =>
    rw [hp] at hlt
    cases hlt
  | ok p => exact ⟨p, rfl⟩

private theorem compare_isInf {x y : Double} (hx : x.isInf = false) (hxn : x.isNaN = false)
    (hy : y.isInf = true) :
    (x.compare y).isSome = true ∧ x.compare y ≠ some .eq := by
  cases y with
  | infinity s =>
    cases x with
    | infinity t => cases hx
    | notANumber => cases hxn
    | zero t => cases s <;> simp [Float.Model.UnpackedFloat.compare]
    | finite t m e h => cases s <;> cases t <;> simp [Float.Model.UnpackedFloat.compare]
  | _ => cases hy

theorem isNaN_of_integer? {x : Double} {k : Int} (h : x.integer? = some k) :
    x.isNaN = false := by
  cases x with
  | notANumber => cases h
  | _ => rfl

theorem isNaN_of_isInf {x : Double} (h : x.isInf = true) : x.isNaN = false := by
  cases x with
  | notANumber => cases h
  | _ => rfl

private theorem isNaN_ofInt (n : Int) : (Double.ofInt n).isNaN = false := by
  rcases Double.integer?_ofInt n with ⟨k, hk⟩ | hinf
  · exact isNaN_of_integer? hk
  · exact isNaN_of_isInf hinf

theorem integer?_of_isInf {x : Double} (h : x.isInf = true) : x.integer? = none := by
  cases x with
  | infinity s => rfl
  | _ => cases h

theorem consistent_int_iff {n : Int} {y : Double}
    (hy : Numeral.readFloat py.digit expected = some y) :
    Consistent py (.int n) expected ↔ Comparable py (.int n) expected := by
  cases hint : Numeral.readInt py.digit expected with
  | none =>
    refine iff_of_false (fun h => ?_) (fun ⟨m, hm, _⟩ => ?_)
    · obtain ⟨p, hp⟩ := equalOperands_of_consistent rfl h
      simp only [equalOperands, toInt, hint] at hp
      cases hp
    · rw [hint] at hm
      cases hm
  | some m =>
    have heq : equalOperands py (.int n) (.str expected) = .ok (.int n, .int m) := by
      simp only [equalOperands, toInt, hint]
      rfl
    obtain ⟨y', hy', hinteger, hinf⟩ := Numeral.readFloat_of_readInt py.digit hint
    rw [hy] at hy'
    cases hy'
    have hcomparable : Comparable py (.int n) expected ↔
        match (Double.ofInt m).integer? with
        | some k => n = m ↔ n = k
        | none => (Double.ofInt n).isInf = false := by
      simp [Comparable, hint]
    rw [hcomparable]
    cases hk : (Double.ofInt m).integer? with
    | some k =>
      -- order compares two integers
      have hord : normalizeNumericValues py (.int n) (.str expected) = .ok (.int n, .int k) := by
        simp only [normalizeNumericValues, hy, hinteger.trans hk]
      rw [consistent_iff_operands rfl rfl heq hord]
      · simp [DraftVariable.Num.compare]
      · simp only [DraftVariable.Num.compare, Option.map_some]
        exact congrArg some Std.OrientedCmp.eq_swap
    | none =>
      -- what is expected is beyond the largest finite number
      have hinfinite : (Double.ofInt m).isInf = true :=
        (Double.integer?_ofInt m).resolve_left fun ⟨k, hk'⟩ => by
          rw [hk] at hk'
          cases hk'
      have hyinf : y.isInf = true := hinf.trans hinfinite
      cases hn : (Double.ofInt n).isInf with
      | true =>
        refine iff_of_false (fun h => ?_) (by simp)
        obtain ⟨p, hp⟩ := normalized_of_consistent rfl rfl h
        simp only [normalizeNumericValues, hy, integer?_of_isInf hyinf, intToFloat, hn] at hp
        cases hp
      | false =>
        have hord : normalizeNumericValues py (.int n) (.str expected) =
            .ok (.float (Double.ofInt n), .float y) := by
          simp only [normalizeNumericValues, hy, integer?_of_isInf hyinf, intToFloat, hn]
          rfl
        obtain ⟨hsome, hne⟩ := compare_isInf hn (isNaN_ofInt n) hyinf
        have hnm : n ≠ m := by
          rintro rfl
          rw [hn] at hinfinite
          cases hinfinite
        rw [consistent_iff_operands rfl rfl heq hord (Double.compare_swap y (Double.ofInt n))]
        refine iff_of_true ⟨hsome, ?_⟩ rfl
        refine iff_of_false (fun h => hnm ?_) hne
        simpa [DraftVariable.Num.compare, Std.LawfulEqOrd.compare_eq_iff_eq] using h

theorem consistent_float_iff {repr : String} {y : Double}
    (hy : Numeral.readFloat py.digit expected = some y) :
    Consistent py (.float repr) expected ↔ Comparable py (.float repr) expected := by
  have heq : equalOperands py (.float repr) (.str expected) =
      .ok (.float (Value.floatOf repr), .float y) := by
    simp only [equalOperands, toFloat, hy]
    rfl
  have hord : normalizeNumericValues py (.float (Value.floatOf repr)) (.str expected) =
      .ok (.float (Value.floatOf repr), .float y) := by
    simp only [normalizeNumericValues, hy]
    rfl
  rw [consistent_iff_operands rfl rfl heq hord (Double.compare_swap y (Value.floatOf repr)),
    and_iff_left Iff.rfl]
  simp only [DraftVariable.Num.compare, Comparable, hy, Option.some.injEq, forall_eq',
    Double.compare_isSome]

/-- The comparisons of an integer or a floating point number with a numeric text are consistent
exactly when they are comparable. -/
theorem numeric_conditions_iff (py : Python) {value : Value} {expected : String} {y : Double}
    (hvalue : (∃ n, value = .int n) ∨ ∃ repr, value = .float repr)
    (hexpected : Numeral.readFloat py.digit expected = some y) :
    Consistent py value expected ↔ Comparable py value expected := by
  rcases hvalue with ⟨n, rfl⟩ | ⟨repr, rfl⟩
  · exact consistent_int_iff hexpected
  · exact consistent_float_iff hexpected

/-- The language with the digits of ASCII and without texts. -/
def asciiPython : Python := ⟨Numeral.asciiDigit, fun _ => "", fun _ => "", fun _ => "", fun _ => ""⟩

/-- Three and the text of a smaller number. -/
theorem numeric_conditions_three : Consistent asciiPython (.int 3) "2" := by
  refine (numeric_conditions_iff asciiPython (y := .ofDecimal false 2 0) (.inl ⟨3, rfl⟩) rfl).mpr
    ⟨2, by decide +kernel, ?_⟩
  have hinteger : (Double.ofInt 2).integer? = some 2 := by decide +kernel
  rw [hinteger]

/-- An integer is smaller than one and a half, while the equality of the two raises. -/
theorem numeric_conditions_raise :
    evaluateCondition asciiPython .lessThan (.int 1) (.str "1.5") = .ok true ∧
      evaluateCondition asciiPython .equal (.int 1) (.str "1.5") = .error ⟨.valueError, ""⟩ ∧
      ¬ ∀ (py : Python) (value : Value) (expected : String) (y : Double),
        ((∃ n, value = .int n) ∨ ∃ repr, value = .float repr) →
        Numeral.readFloat py.digit expected = some y → Consistent py value expected := by
  have hraise : evaluateCondition asciiPython .equal (.int 1) (.str "1.5") =
      .error ⟨.valueError, ""⟩ := by rfl
  refine ⟨by rfl, hraise, fun h => ?_⟩
  obtain ⟨lt, eq, gt, ne, ge, le, -, heq, -⟩ :=
    h asciiPython (.int 1) "1.5" (.ofDecimal false 15 (-1)) (.inl ⟨1, rfl⟩) rfl
  rw [hraise] at heq
  cases heq

end PlatformSpec.Conditions
