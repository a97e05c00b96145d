import PlatformSpec.Base.Collect
import PlatformSpec.RuoYi.JobTarget

/-!
# Addresses in RuoYi

Models `IpUtils.internalIp` and `textToNumericFormatV4`: which addresses are internal.
-/

namespace PlatformSpec.RuoYi

open Base Split

variable (app : Application)

/-! ## Internal addresses -/

/-- `(byte) l`. -/
def toByte (l : Nat) : Int := if l % 256 < 128 then (l % 256 : Nat) else (l % 256 : Nat) - 256

/-- A part of an address; `none` when it is no number or not in its range. -/
def addressPart (bits max : Nat) (element : Str) : Option Nat :=
  (valueOf app bits element).bind fun l => if l < 0 ∨ (max : Int) < l then none else some l.toNat

/-- `IpUtils.textToNumericFormatV4`; `none` for `null`. -/
def textToNumericFormatV4 (text : Str) : Option (List Int) :=
  if text = [] then none
  else
    match text.splitOn '.' with
    | [e] => do
      let l ← addressPart app 64 4294967295 e
      return [toByte (l / 2 ^ 24), toByte (l % 2 ^ 24 / 2 ^ 16), toByte (l % 2 ^ 16 / 2 ^ 8),
        toByte l]
    | [e, f] => do
      let l ← addressPart app 32 255 e
      let m ← addressPart app 32 16777215 f
      return [toByte l, toByte (m / 2 ^ 16), toByte (m % 2 ^ 16 / 2 ^ 8), toByte m]
    | [e, f, g] => do
      let l ← addressPart app 32 255 e
      let m ← addressPart app 32 255 f
      let n ← addressPart app 32 65535 g
      return [toByte l, toByte m, toByte (n / 2 ^ 8), toByte n]
    | [e, f, g, h] => do
      let l ← addressPart app 32 255 e
      let m ← addressPart app 32 255 f
      let n ← addressPart app 32 255 g
      let o ← addressPart app 32 255 h
      return [toByte l, toByte m, toByte n, toByte o]
    | _ => none

/-- The private `IpUtils.internalIp`. The case of 172 goes on with that of 192. -/
def internalAddr : Option (List Int) → Bool
  | some (b₀ :: b₁ :: _) =>
    if b₀ = toByte 0x0a then true
    else if b₀ = toByte 0xac then
      decide (toByte 0x10 ≤ b₁ ∧ b₁ ≤ toByte 0x1f) || decide (b₁ = toByte 0xa8)
    else if b₀ = toByte 0xc0 then decide (b₁ = toByte 0xa8)
    else false
  | _ => true

/-- `IpUtils.internalIp`. -/
def internalIp (ip : Str) : Bool :=
  internalAddr (textToNumericFormatV4 app ip) || decide (ip = "127.0.0.1".toList)

/-- The number that a text stands for. -/
def readNumber : Str → Option Int
  | '-' :: digits => (readDigits app digits).map fun n : Nat => -(n : Int)
  | '+' :: digits => (readDigits app digits).map Int.ofNat
  | digits => (readDigits app digits).map Int.ofNat

/-- The number without a sign that a text stands for. -/
def natural (element : Str) : Option Nat :=
  (readNumber app element).bind fun l => if l < 0 then none else some l.toNat

/-- The address of some parts that fill `width` bytes: each is one byte, but for the last one, which
fills the remaining bytes. -/
def addressOf : Nat → List Nat → Option Nat
  | width + 1, [last] => if last < 256 ^ (width + 1) then some last else none
  | width + 1, part :: parts =>
    if part < 256 then (addressOf width parts).map (part * 256 ^ width + ·) else none
  | _, _ => none

/-- The address that a text denotes. -/
def denoted (text : Str) : Option Nat :=
  ((text.splitOn '.').mapM (natural app)).bind (addressOf 4)

/-- The address is in 10.0.0.0/8, 172.16.0.0/12 or 192.168.0.0/16. -/
def IsPrivate (address : Nat) : Prop :=
  address / 2 ^ 24 = 10 ∨ address / 2 ^ 20 = 172 * 2 ^ 4 + 1 ∨ address / 2 ^ 16 = 192 * 2 ^ 8 + 168

instance (address : Nat) : Decidable (IsPrivate address) :=
  inferInstanceAs (Decidable (_ ∨ _ ∨ _))

section Internal

variable {app} {s text : Str} {bits : Nat} {l : Int}

theorem valueOf_eq_some_iff : valueOf app bits s = some l ↔ readNumber app s = some l ∧
    -((2 ^ (bits - 1) : Nat) : Int) ≤ l ∧ l < (2 ^ (bits - 1) : Nat) := by
  have hpos : 0 < 2 ^ (bits - 1) := Nat.two_pow_pos _
  unfold valueOf readNumber
  generalize 2 ^ (bits - 1) = bound at hpos
  split <;>
  · simp only [Option.bind_eq_some_iff, Option.map_eq_some_iff, Option.ite_none_right_eq_some,
      Option.some.injEq, Int.ofNat_eq_natCast]
    constructor
    · rintro ⟨n, hn, hle, rfl⟩
      exact ⟨⟨n, hn, rfl⟩, by omega, by omega⟩
    · rintro ⟨⟨n, hn, rfl⟩, hlow, hhigh⟩
      exact ⟨n, hn, by omega, rfl⟩

theorem addressPart_eq {max : Nat} (hmax : max < 2 ^ (bits - 1)) (element : Str) :
    addressPart app bits max element =
      (natural app element).bind fun n => if n < max + 1 then some n else none := by
  refine Option.ext fun n => ?_
  simp only [addressPart, natural, Option.bind_eq_some_iff, valueOf_eq_some_iff,
    Option.ite_none_left_eq_some, Option.ite_none_right_eq_some, Option.some.injEq]
  constructor
  · rintro ⟨l, ⟨hnumber, -, -⟩, hrange, rfl⟩
    exact ⟨_, ⟨l, hnumber, by omega, rfl⟩, by omega, rfl⟩
  · rintro ⟨_, ⟨l, hnumber, hneg, rfl⟩, hle, rfl⟩
    exact ⟨l, ⟨hnumber, by omega, by omega⟩, by omega, rfl⟩

variable {width address m : Nat}

theorem addressOf_lt {parts : List Nat}
    (h : addressOf width parts = some address) : address < 256 ^ width := by
  fun_induction addressOf width parts generalizing address with
  | case1 width last hlast => exact Option.some.inj h ▸ hlast
  | case3 width part parts _ hpart ih =>
    obtain ⟨rest, hrest, rfl⟩ := Option.map_eq_some_iff.mp h
    have hlt := ih hrest
    have hmul := Nat.mul_le_mul_right (256 ^ width) (Nat.le_of_lt_succ hpart)
    rw [pow_succ]
    omega
  | case2 | case4 | case5 => cases h

theorem length_of_addressOf {parts : List Nat}
    (h : addressOf width parts = some address) : 0 < parts.length ∧ parts.length ≤ width := by
  fun_induction addressOf width parts generalizing address with
  | case1 width last => exact ⟨Nat.zero_lt_one, Nat.succ_le_succ (Nat.zero_le _)⟩
  | case3 width part parts _ hpart ih =>
    obtain ⟨rest, hrest, -⟩ := Option.map_eq_some_iff.mp h
    exact ⟨Nat.zero_lt_succ _, Nat.succ_le_succ (ih hrest).2⟩
  | case2 | case4 | case5 => cases h

private theorem toByte_inj {n : Nat} : toByte m = toByte n ↔ m % 256 = n % 256 := by
  rw [toByte, toByte]
  constructor
  · intro h
    split_ifs at h <;> omega
  · intro h
    rw [h]

theorem textToNumericFormatV4_eq (text : Str) : textToNumericFormatV4 app text =
    (denoted app text).map fun a =>
      [toByte (a / 2 ^ 24), toByte (a / 2 ^ 16), toByte (a / 2 ^ 8), toByte a] := by
  have hbyte := @addressPart_eq app 32 255 (by decide)
  have htwo := @addressPart_eq app 32 65535 (by decide)
  have hthree := @addressPart_eq app 32 16777215 (by decide)
  have hfour := @addressPart_eq app 64 4294967295 (by decide)
  unfold textToNumericFormatV4 denoted
  split
  next h => rw [h]; rfl
  next =>
    split
    next e heq =>
      simp only [heq, hfour, List.mapM_cons, List.mapM_nil]
      cases natural app e with
      | none => rfl
      | some l =>
        simp [addressOf]
        split_ifs with hl
        · simp [toByte_inj]
          omega
        · rfl
    next e f heq =>
      simp only [heq, hbyte, hthree, List.mapM_cons, List.mapM_nil]
      cases natural app e with
      | none => rfl
      | some l =>
        cases natural app f with
        | none => simp
        | some m =>
          simp [addressOf]
          split_ifs <;> simp [toByte_inj]
          omega
    next e f g heq =>
      simp only [heq, hbyte, htwo, List.mapM_cons, List.mapM_nil]
      cases natural app e with
      | none => rfl
      | some l =>
        cases natural app f with
        | none => simp
        | some m =>
          cases natural app g with
          | none => simp
          | some n =>
            simp [addressOf]
            split_ifs <;> simp [toByte_inj]
            omega
    next e f g h heq =>
      simp only [heq, hbyte, List.mapM_cons, List.mapM_nil]
      cases natural app e with
      | none => rfl
      | some l =>
        cases natural app f with
        | none => simp
        | some m =>
          cases natural app g with
          | none => simp
          | some n =>
            cases natural app h with
            | none => simp
            | some o =>
              simp [addressOf]
              split_ifs <;> simp [toByte_inj]
              omega
    next hone htwo hthree hfour =>
      refine (Option.map_eq_none_iff.mpr (Option.eq_none_iff_forall_ne_some.mpr ?_)).symm
      intro address h
      obtain ⟨parts, hparts, haddress⟩ := Option.bind_eq_some_iff.mp h
      have hlength := (Collect.mapM_eq_some_iff.mp hparts).length_eq
      have hwidth := length_of_addressOf haddress
      rw [← hlength] at hwidth
      match hm : text.splitOn '.', hwidth with
      | [e], _ => exact hone e hm
      | [e, f], _ => exact htwo e f hm
      | [e, f, g], _ => exact hthree e f g hm
      | [e, f, g, h], _ => exact hfour e f g h hm

private theorem toByte_mem :
    toByte 0x10 ≤ toByte m ∧ toByte m ≤ toByte 0x1f ↔ 16 ≤ m % 256 ∧ m % 256 ≤ 31 := by
  rw [show toByte 0x10 = 16 from rfl, show toByte 0x1f = 31 from rfl, toByte]
  split_ifs <;> omega

theorem internalAddr_iff (h : address < 2 ^ 32) :
    internalAddr (some [toByte (address / 2 ^ 24), toByte (address / 2 ^ 16),
      toByte (address / 2 ^ 8), toByte address]) = true ↔
      IsPrivate address ∨ address / 2 ^ 16 = 172 * 2 ^ 8 + 168 := by
  simp only [internalAddr, toByte_inj, toByte_mem, IsPrivate]
  split_ifs <;>
    simp only [Bool.or_eq_true, decide_eq_true_eq, true_iff, false_iff] <;>
    omega

/-- The test is exact but on 172.168.0.0/16. -/
theorem internalIp_iff (text : Str) :
    ((textToNumericFormatV4 app text).isSome ↔ (denoted app text).isSome) ∧
      ∀ address, denoted app text = some address →
        ((internalIp app text = true ↔ IsPrivate address ∨ text = "127.0.0.1".toList) ↔
          address / 2 ^ 16 ≠ 172 * 2 ^ 8 + 168 ∨ text = "127.0.0.1".toList) := by
  rw [internalIp, textToNumericFormatV4_eq]
  refine ⟨by rw [Option.isSome_map], fun address h => ?_⟩
  obtain ⟨parts, -, haddress⟩ := Option.bind_eq_some_iff.mp h
  have hiff := internalAddr_iff (addressOf_lt haddress)
  rw [h, Option.map_some, Bool.or_eq_true, decide_eq_true_eq, hiff]
  by_cases hlocal : text = "127.0.0.1".toList
  · simp only [hlocal, or_true]
  · have hprivate : IsPrivate address → address / 2 ^ 16 ≠ 172 * 2 ^ 8 + 168 := by
      rw [IsPrivate]
      omega
    simp only [hlocal, or_false, or_iff_left_iff_imp]
    exact ⟨fun himp heq => hprivate (himp heq) heq, fun hne heq => absurd heq hne⟩

end Internal

theorem internalIp_iff_ten :
    internalIp asciiApplication "10.1".toList = true ↔
      IsPrivate 167772161 ∨ "10.1".toList = "127.0.0.1".toList :=
  ((internalIp_iff "10.1".toList).2 167772161 (by decide)).mpr (.inl (by decide))

/-- 172.168.0.1 is taken as internal. -/
theorem internalIp_fails : ¬ ∀ (app : Application) (text : Str) (address : Nat),
    denoted app text = some address →
      (internalIp app text = true ↔ IsPrivate address ∨ text = "127.0.0.1".toList) := by
  intro h
  have hiff := h asciiApplication "172.168.0.1".toList 2896691201 (by decide)
  exact absurd hiff (by decide)

end PlatformSpec.RuoYi
