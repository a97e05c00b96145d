import PlatformSpec.Base.Double
import PlatformSpec.Base.Text

/-!
# Numbers in texts

What `int` and `float` read off a text: spaces around it, a sign, decimal digits with single
underscores between them, for `float` a fraction, an exponent or a word for a number that is not
finite. A text that `int` reads is read by `float` as the nearest number.
-/

namespace PlatformSpec.Base

namespace Numeral

/-- The spaces that stand around a number: not the separators of ASCII. -/
def isBlank (c : Char) : Bool := isSpace c && !(0x1c ≤ c.toNat && c.toNat ≤ 0x1f)

/-- The decimal digits of ASCII. -/
def asciiDigit (c : Char) : Option Nat :=
  if '0' ≤ c ∧ c ≤ '9' then some (c.toNat - 48) else none

-- The values of the decimal digits: ASCII's and the others of Unicode.
variable (digit : Char → Option Nat)

/-- A sign before a number: whether it is negative, and the rest. -/
def sign : List Char → Bool × List Char
  | '-' :: cs => (true, cs)
  | '+' :: cs => (false, cs)
  | cs => (false, cs)

/-- Digits after a digit: an underscore stands between two of them. -/
def moreDigits : List Char → List Nat × List Char
  | '_' :: c :: cs =>
    match digit c with
    | some d =>
      let r := moreDigits cs
      (d :: r.1, r.2)
    | none => ([], '_' :: c :: cs)
  | c :: cs =>
    match digit c with
    | some d =>
      let r := moreDigits cs
      (d :: r.1, r.2)
    | none => ([], c :: cs)
  | [] => ([], [])

/-- The digits a text begins with, and the rest. -/
def digitPart : List Char → List Nat × List Char
  | [] => ([], [])
  | c :: cs =>
    match digit c with
    | some d =>
      let r := moreDigits digit cs
      (d :: r.1, r.2)
    | none => ([], c :: cs)

/-- The number of decimal digits. -/
def number (digits : List Nat) : Nat := digits.foldl (fun n d => 10 * n + d) 0

/-- A magnitude with its sign. -/
def signed (negative : Bool) (n : Nat) : Int := if negative then -(n : Int) else n

/-- `sys.int_info.default_max_str_digits`. -/
def maxStrDigits : Nat := 4300

/-- `int` of a text. -/
def readInt (s : String) : Option Int :=
  let (negative, cs) := sign (stripBoth isBlank s.toList)
  match digitPart digit cs with
  | (d :: ds, []) =>
    if (d :: ds).length ≤ maxStrDigits then some (signed negative (number (d :: ds))) else none
  | _ => none

/-- The exponent after the digits of a number. -/
def exponent : List Char → Option Int
  | [] => some 0
  | c :: cs =>
    if c = 'e' ∨ c = 'E' then
      let (negative, cs) := sign cs
      match digitPart digit cs with
      | (d :: ds, []) => some (signed negative (number (d :: ds)))
      | _ => none
    else none

/-- The digits of a number, how many of them are after the point, and its exponent. -/
def decimal (cs : List Char) : Option (List Nat × Nat × Int) :=
  let (whole, rest) := digitPart digit cs
  let (fraction, rest) := match rest with
    | '.' :: cs => digitPart digit cs
    | rest => ([], rest)
  if whole = [] ∧ fraction = [] then none
  else (exponent digit rest).map fun e => (whole ++ fraction, fraction.length, e)

/-- The words for numbers that are not finite. -/
def word (negative : Bool) (cs : List Char) : Option Double :=
  let cs := cs.map Char.toLower
  if cs = "inf".toList ∨ cs = "infinity".toList then
    some (.infinity (if negative then .negative else .positive))
  else if cs = "nan".toList then some .notANumber
  else none

/-- `float` of a text. -/
def readFloat (s : String) : Option Double :=
  let (negative, cs) := sign (stripBoth isBlank s.toList)
  match decimal digit cs with
  | some (digits, places, e) => some (.ofDecimal negative (number digits) (e - places))
  | none => word negative cs

variable {ds rest : List Char}

theorem moreDigits_append (hds : ∀ c ∈ ds, (digit c).isSome = true ∧ c ≠ '_')
    (hrest : ∀ c ∈ rest.head?, digit c = none ∧ c ≠ '_') :
    ∃ values, moreDigits digit (ds ++ rest) = (values, rest) := by
  induction ds with
  | nil =>
    refine ⟨[], ?_⟩
    cases rest with
    | nil => rfl
    | cons c rest =>
      obtain ⟨hnone, hunderscore⟩ := hrest c rfl
      rw [List.nil_append, moreDigits]
      · rw [hnone]
      · rintro c' rest' ⟨⟩
        exact absurd rfl hunderscore
  | cons d ds ih =>
    obtain ⟨hd, hds⟩ := List.forall_mem_cons.mp hds
    obtain ⟨values, hvalues⟩ := ih hds
    obtain ⟨v, hv⟩ := Option.isSome_iff_exists.mp hd.1
    refine ⟨v :: values, ?_⟩
    rw [List.cons_append, moreDigits]
    · rw [hv, hvalues]
    · rintro c' rest' ⟨⟩
      exact absurd rfl hd.2

/-- The digits before something else are read. -/
theorem digitPart_append (hds : ∀ c ∈ ds, (digit c).isSome = true ∧ c ≠ '_')
    (hrest : ∀ c ∈ rest.head?, digit c = none ∧ c ≠ '_') :
    ∃ values, digitPart digit (ds ++ rest) = (values, rest) ∧ (ds ≠ [] → values ≠ []) := by
  cases ds with
  | nil =>
    refine ⟨[], ?_, fun h => absurd rfl h⟩
    cases rest with
    | nil => rfl
    | cons c rest =>
      rw [List.nil_append, digitPart, (hrest c rfl).1]
  | cons d ds =>
    obtain ⟨hd, hds⟩ := List.forall_mem_cons.mp hds
    obtain ⟨values, hvalues⟩ := moreDigits_append digit hds hrest
    obtain ⟨v, hv⟩ := Option.isSome_iff_exists.mp hd.1
    refine ⟨v :: values, ?_, fun _ => List.cons_ne_nil _ _⟩
    rw [List.cons_append, digitPart, hv]
    simp only [hvalues]

/-- The number that digits before the end are. -/
theorem decimal_of_digits {cs : List Char} {d : Nat} {ds : List Nat}
    (h : digitPart digit cs = (d :: ds, [])) : decimal digit cs = some (d :: ds, 0, 0) := by
  simp [decimal, h, exponent]

/-- A text that `int` reads, `float` reads as the nearest number. -/
theorem readFloat_of_readInt {s : String} {n : Int} (h : readInt digit s = some n) :
    ∃ x, readFloat digit s = some x ∧ x.integer? = (Double.ofInt n).integer? ∧
      x.isInf = (Double.ofInt n).isInf := by
  unfold readInt at h
  unfold readFloat
  split at h
  next negative cs hsign =>
    split at h
    next d ds hdigits =>
      split at h
      next =>
        cases h
        refine ⟨.ofDecimal negative (number (d :: ds)) 0, ?_, Double.ofDecimal_zero _ _⟩
        simp only [decimal_of_digits digit hdigits]
        rfl
      next => cases h
    next => cases h

theorem asciiDigit_of_isDigit {c : Char} (h : c.isDigit = true) :
    asciiDigit c = some (c.toNat - '0'.toNat) := by
  rw [Char.isDigit, Bool.and_eq_true, decide_eq_true_eq, decide_eq_true_eq] at h
  exact if_pos h

private theorem moreDigits_ascii (hdigit : ∀ {c d}, asciiDigit c = some d → digit c = some d)
    (hds : ∀ c ∈ ds, c.isDigit = true) :
    moreDigits digit ds = (ds.map fun c => c.toNat - '0'.toNat, []) := by
  induction ds with
  | nil => rfl
  | cons d ds ih =>
    obtain ⟨hd, hds⟩ := List.forall_mem_cons.mp hds
    rw [moreDigits]
    · rw [hdigit (asciiDigit_of_isDigit hd)]
      simp only [ih hds, List.map_cons]
    · rintro c cs ⟨⟩
      cases hd

/-- A natural number is read from its digits, unless these are too many. -/
theorem readInt_toDigits (hdigit : ∀ {c d}, asciiDigit c = some d → digit c = some d) (n : Nat) :
    readInt digit (String.ofList (Nat.toDigits 10 n)) =
      if (Nat.toDigits 10 n).length ≤ maxStrDigits then some (n : Int) else none := by
  have hall : ∀ c ∈ Nat.toDigits 10 n, c.isDigit = true := fun c hc =>
    Nat.isDigit_of_mem_toDigits (by decide) (by decide) hc
  have hblank : ∀ c ∈ Nat.toDigits 10 n, isBlank c = false := by
    intro c hc
    have hdigit := hall c hc
    rw [Char.isDigit, Bool.and_eq_true, decide_eq_true_eq, decide_eq_true_eq] at hdigit
    have hlow : 48 ≤ c.toNat := hdigit.1
    have hhigh : c.toNat ≤ 57 := hdigit.2
    rw [Bool.eq_false_iff]
    intro h
    simp only [isBlank, isSpace, Bool.and_eq_true, Bool.or_eq_true, decide_eq_true_eq,
      List.contains_eq_mem, List.mem_cons, List.not_mem_nil, or_false] at h
    omega
  have hstrip : stripBoth isBlank (Nat.toDigits 10 n) = Nat.toDigits 10 n := by
    rw [stripBoth_eq_self_iff]
    exact ⟨fun a ha => hblank a (List.mem_of_mem_head? ha),
      fun a ha => hblank a (List.mem_of_getLast? ha)⟩
  have hsign : sign (Nat.toDigits 10 n) = (false, Nat.toDigits 10 n) := by
    unfold sign
    split
    next heq => cases hall '-' (heq ▸ List.mem_cons_self)
    next heq => cases hall '+' (heq ▸ List.mem_cons_self)
    next => rfl
  obtain ⟨d, ds, hds⟩ := List.exists_cons_of_ne_nil (Nat.toDigits_ne_nil (n := n) (b := 10))
  obtain ⟨hd, hrest⟩ := List.forall_mem_cons.mp (hds ▸ hall)
  have hpart : digitPart digit (Nat.toDigits 10 n) =
      ((Nat.toDigits 10 n).map fun c => c.toNat - '0'.toNat, []) := by
    rw [hds, digitPart, hdigit (asciiDigit_of_isDigit hd)]
    simp only [moreDigits_ascii digit hdigit hrest, List.map_cons]
  have hnumber : number ((Nat.toDigits 10 n).map fun c => c.toNat - '0'.toNat) = n := by
    rw [number, List.foldl_map]
    exact Nat.ofDigitChars_ten_toDigits
  rw [readInt, String.toList_ofList, hstrip, hsign]
  simp only [hpart]
  rw [hds, List.map_cons] at hnumber ⊢
  simp only [hnumber, List.length_cons, List.length_map]
  rfl

end Numeral
end PlatformSpec.Base
