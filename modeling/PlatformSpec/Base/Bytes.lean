import Mathlib.Algebra.Group.Nat.Defs
import Mathlib.Data.List.Basic
import Mathlib.Data.List.Induction
import Mathlib.Data.Nat.Init

/-!
# Bytes as numbers and as texts
-/

/-!
## Numbers as bytes

Big-endian bytes of fixed width. Nothing here mentions a particular system.
-/

namespace PlatformSpec.Base.BigEndian

/-- The bytes of a number, the most significant first; higher bits are dropped. -/
def toBytes : Nat → Nat → List UInt8
  | 0, _ => []
  | width + 1, n => toBytes width (n / 256) ++ [UInt8.ofNat n]

/-- The number that bytes stand for. -/
def ofBytes (bytes : List UInt8) : Nat := bytes.foldl (fun n b => n * 256 + b.toNat) 0

@[simp] theorem ofBytes_nil : ofBytes [] = 0 := rfl

@[simp] theorem ofBytes_singleton (b : UInt8) : ofBytes [b] = b.toNat := by simp [ofBytes]

theorem ofBytes_concat (bytes : List UInt8) (b : UInt8) :
    ofBytes (bytes ++ [b]) = ofBytes bytes * 256 + b.toNat := by
  simp [ofBytes]

theorem ofBytes_append (a b : List UInt8) :
    ofBytes (a ++ b) = ofBytes a * 256 ^ b.length + ofBytes b := by
  induction b using List.reverseRecOn with
  | nil => simp
  | append_singleton b x ih =>
    have hpow : 256 ^ (b ++ [x]).length = 256 ^ b.length * 256 := by
      rw [List.length_append, List.length_singleton, Nat.pow_succ]
    rw [← List.append_assoc, ofBytes_concat, ofBytes_concat, ih, hpow, Nat.add_mul,
      Nat.mul_assoc, Nat.add_assoc]

theorem ofBytes_lt (bytes : List UInt8) : ofBytes bytes < 256 ^ bytes.length := by
  induction bytes using List.reverseRecOn with
  | nil => simp
  | append_singleton bytes b ih =>
    have hb : b.toNat < 256 := b.toNat_lt
    rw [ofBytes_concat, List.length_append, List.length_singleton, Nat.pow_succ]
    omega

@[simp] theorem length_toBytes (width n : Nat) : (toBytes width n).length = width := by
  induction width generalizing n with
  | zero => rfl
  | succ width ih => simp [toBytes, ih]

/-- What is left of a number after its bytes are read again. -/
theorem ofBytes_toBytes (width n : Nat) : ofBytes (toBytes width n) = n % 256 ^ width := by
  induction width generalizing n with
  | zero => simp [toBytes, Nat.mod_one]
  | succ width ih =>
    have hbyte : (UInt8.ofNat n).toNat = n % 256 := UInt8.toNat_ofNat'
    rw [toBytes, ofBytes_concat, ih, hbyte, Nat.pow_succ, Nat.mul_comm (256 ^ width),
      Nat.mod_mul]
    omega

/-- The upper and the lower bytes. -/
theorem toBytes_add (upper lower n : Nat) :
    toBytes (upper + lower) n = toBytes upper (n / 256 ^ lower) ++ toBytes lower n := by
  induction lower generalizing n with
  | zero => simp [toBytes]
  | succ lower ih =>
    have hdiv : n / 256 ^ (lower + 1) = n / 256 / 256 ^ lower := by
      rw [Nat.div_div_eq_div_mul, Nat.pow_succ']
    rw [← Nat.add_assoc, toBytes, ih, toBytes, hdiv, List.append_assoc]

theorem take_toBytes (upper lower n : Nat) :
    (toBytes (upper + lower) n).take upper = toBytes upper (n / 256 ^ lower) := by
  rw [toBytes_add, List.take_left' (length_toBytes _ _)]

theorem drop_toBytes (upper lower n : Nat) :
    (toBytes (upper + lower) n).drop upper = toBytes lower n := by
  rw [toBytes_add, List.drop_left' (length_toBytes _ _)]

end PlatformSpec.Base.BigEndian

/-!
## Base64

Three bytes as four letters of an alphabet of 64; the last group is filled up with `=`. Nothing
here mentions a particular system.
-/

namespace PlatformSpec.Base.Base64

/-- The letter for six bits. -/
def symbol (n : Nat) : Char :=
  if n < 26 then Char.ofNat (65 + n)
  else if n < 52 then Char.ofNat (71 + n)
  else if n < 62 then Char.ofNat (n - 4)
  else if n = 62 then '+'
  else '/'

/-- The six bits of a letter. -/
def value (c : Char) : Option Nat :=
  if 'A' ≤ c ∧ c ≤ 'Z' then some (c.toNat - 65)
  else if 'a' ≤ c ∧ c ≤ 'z' then some (c.toNat - 71)
  else if '0' ≤ c ∧ c ≤ '9' then some (c.toNat + 4)
  else if c = '+' then some 62
  else if c = '/' then some 63
  else none

/-- `b64encode(bytes).decode()`. -/
def encode : List UInt8 → List Char
  | [] => []
  | [a] => [symbol (a.toNat / 4), symbol (a.toNat % 4 * 16), '=', '=']
  | [a, b] =>
    [symbol (a.toNat / 4), symbol (a.toNat % 4 * 16 + b.toNat / 16), symbol (b.toNat % 16 * 4),
      '=']
  | a :: b :: c :: bytes =>
    symbol (a.toNat / 4) :: symbol (a.toNat % 4 * 16 + b.toNat / 16) ::
      symbol (b.toNat % 16 * 4 + c.toNat / 64) :: symbol (c.toNat % 64) :: encode bytes

/-- `b64decode`, of letters in groups of four. -/
def decode : List Char → Option (List UInt8)
  | [] => some []
  | [p, q, '=', '='] => do
    let p ← value p
    let q ← value q
    return [UInt8.ofNat (p * 4 + q / 16)]
  | [p, q, r, '='] => do
    let p ← value p
    let q ← value q
    let r ← value r
    return [UInt8.ofNat (p * 4 + q / 16), UInt8.ofNat (q % 16 * 16 + r / 4)]
  | p :: q :: r :: s :: cs => do
    let p ← value p
    let q ← value q
    let r ← value r
    let s ← value s
    let bytes ← decode cs
    return UInt8.ofNat (p * 4 + q / 16) :: UInt8.ofNat (q % 16 * 16 + r / 4) ::
      UInt8.ofNat (r % 4 * 64 + s) :: bytes
  | _ => none

theorem value_symbol : ∀ n < 64, value (symbol n) = some n := by decide

theorem symbol_ne_pad {n : Nat} (h : n < 64) : symbol n ≠ '=' := by
  intro he
  have hvalue := value_symbol n h
  rw [he] at hvalue
  cases hvalue

theorem ofNat_eq {a : UInt8} {n : Nat} (h : n = a.toNat) : UInt8.ofNat n = a := by
  rw [h]
  exact UInt8.ofNat_toNat

private theorem decode_group {p q r s : Nat} (hp : p < 64) (hq : q < 64) (hr : r < 64)
    (hs : s < 64) (cs : List Char) :
    decode (symbol p :: symbol q :: symbol r :: symbol s :: cs) =
      (decode cs).map fun bytes => UInt8.ofNat (p * 4 + q / 16) ::
        UInt8.ofNat (q % 16 * 16 + r / 4) :: UInt8.ofNat (r % 4 * 64 + s) :: bytes := by
  rw [decode]
  · rw [value_symbol p hp, value_symbol q hq, value_symbol r hr, value_symbol s hs]
    cases decode cs <;> rfl
  · intro _ hpad _
    exact symbol_ne_pad hs hpad
  · intro hpad _
    exact symbol_ne_pad hs hpad

/-- What is encoded is decoded again. -/
theorem decode_encode : ∀ bytes, decode (encode bytes) = some bytes
  | [] => rfl
  | [a] => by
    have ha := a.toNat_lt
    have hfirst : UInt8.ofNat (a.toNat / 4 * 4 + a.toNat % 4 * 16 / 16) = a :=
      ofNat_eq (by omega)
    rw [encode, decode, value_symbol _ (by omega), value_symbol _ (by omega)]
    exact congrArg (fun x => some [x]) hfirst
  | [a, b] => by
    have ha := a.toNat_lt
    have hb := b.toNat_lt
    have hfirst : UInt8.ofNat (a.toNat / 4 * 4 + (a.toNat % 4 * 16 + b.toNat / 16) / 16) = a :=
      ofNat_eq (by omega)
    have hsecond : UInt8.ofNat ((a.toNat % 4 * 16 + b.toNat / 16) % 16 * 16 +
        b.toNat % 16 * 4 / 4) = b := ofNat_eq (by omega)
    rw [encode, decode, value_symbol _ (by omega), value_symbol _ (by omega),
      value_symbol _ (by omega)]
    · show some [_, _] = _
      rw [hfirst, hsecond]
    · exact symbol_ne_pad (by omega)
  | a :: b :: c :: bytes => by
    have ha := a.toNat_lt
    have hb := b.toNat_lt
    have hc := c.toNat_lt
    rw [encode, decode_group (by omega) (by omega) (by omega) (by omega), decode_encode bytes,
      ofNat_eq (a := a) (by omega), ofNat_eq (a := b) (by omega), ofNat_eq (a := c) (by omega)]
    rfl

/-- The letters of the alphabet and the pad. -/
def isSymbol (c : Char) : Bool := c == '=' || (value c).isSome

private theorem isSymbol_symbol {n : Nat} (h : n < 64) : isSymbol (symbol n) = true := by
  rw [isSymbol, value_symbol n h, Bool.or_eq_true]
  exact .inr rfl

theorem isSymbol_of_mem_encode : ∀ (bytes : List UInt8), ∀ c ∈ encode bytes, isSymbol c = true
  | [] => fun _ h => absurd h List.not_mem_nil
  | [a] => by
    have ha := a.toNat_lt
    simp only [encode, List.forall_mem_cons]
    refine ⟨isSymbol_symbol (by omega), isSymbol_symbol (by omega), rfl, rfl, ?_⟩
    exact fun _ h => absurd h List.not_mem_nil
  | [a, b] => by
    have ha := a.toNat_lt
    have hb := b.toNat_lt
    simp only [encode, List.forall_mem_cons]
    refine ⟨isSymbol_symbol (by omega), isSymbol_symbol (by omega), isSymbol_symbol (by omega),
      rfl, ?_⟩
    exact fun _ h => absurd h List.not_mem_nil
  | a :: b :: c :: bytes => by
    have ha := a.toNat_lt
    have hb := b.toNat_lt
    have hc := c.toNat_lt
    simp only [encode, List.forall_mem_cons]
    exact ⟨isSymbol_symbol (by omega), isSymbol_symbol (by omega), isSymbol_symbol (by omega),
      isSymbol_symbol (by omega), isSymbol_of_mem_encode bytes⟩

end PlatformSpec.Base.Base64
