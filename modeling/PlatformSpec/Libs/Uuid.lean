import Mathlib.Data.Nat.Bitwise
import PlatformSpec.Base.Bytes

/-!
# Time-ordered identifiers

Models `libs/uuid_utils.py` with the identifiers of Python's `uuid` module, which are compared by
the number that their bytes stand for.
-/

namespace PlatformSpec.Libs

open Base

/-- `uuid.UUID`. -/
structure Uuid where
  int : Nat
  int_lt : int < 2 ^ 128
  deriving DecidableEq

/-- What the variant bits of an identifier say. -/
inductive UuidVariant where
  | reservedNcs
  | rfc4122
  | reservedMicrosoft
  | reservedFuture
  deriving DecidableEq

theorem ofBytes_lt_of_length {bytes : List UInt8} (h : bytes.length = 16) :
    BigEndian.ofBytes bytes < 2 ^ 128 := by
  have hlt := BigEndian.ofBytes_lt bytes
  rwa [h] at hlt

namespace Uuid

instance : LE Uuid := ⟨fun a b => a.int ≤ b.int⟩

instance : LT Uuid := ⟨fun a b => a.int < b.int⟩

/-- `UUID(bytes=...)`: sixteen bytes. -/
def ofBytes (bytes : List UInt8) : Option Uuid :=
  if h : bytes.length = 16 then
    some ⟨BigEndian.ofBytes bytes, ofBytes_lt_of_length h⟩
  else none

/-- `UUID.bytes`. -/
def bytes (u : Uuid) : List UInt8 := BigEndian.toBytes 16 u.int

/-- `UUID.variant`. -/
def variant (u : Uuid) : UuidVariant :=
  if u.int &&& 0x8000 <<< 48 = 0 then .reservedNcs
  else if u.int &&& 0x4000 <<< 48 = 0 then .rfc4122
  else if u.int &&& 0x2000 <<< 48 = 0 then .reservedMicrosoft
  else .reservedFuture

/-- `UUID.version`: only of the variant of the standard. -/
def version (u : Uuid) : Option Nat :=
  if u.variant = .rfc4122 then some (u.int >>> 76 &&& 0xf) else none

end Uuid

/-- Random bytes of the length that `_create_uuidv7_bytes` asks of its callers. -/
structure RandomBytes where
  bytes : List UInt8
  length_eq : bytes.length = 10

/-- `struct.pack(">Q", n)`: a number of at most 64 bits. -/
def packQ (n : Nat) : Option (List UInt8) :=
  if n < 2 ^ 64 then some (BigEndian.toBytes 8 n) else none

/-- `_create_uuidv7_bytes`. -/
def createUuidv7Bytes (timestampMs : Nat) (randomBytes : RandomBytes) : Option (List UInt8) := do
  let packed ← packQ timestampMs
  let randA := BigEndian.ofBytes (randomBytes.bytes.take 2)
  let randA := randA &&& 0x0FFF
  let randA := randA ||| 0x7000
  let uuidBytes := (packed.drop 2).take 6 ++ BigEndian.toBytes 2 randA ++
    (randomBytes.bytes.drop 2).take 8
  return uuidBytes.modify 8 fun b => (b &&& 0x3F) ||| 0x80

/-- `uuidv7`, with the time and the random bytes that it asks for. -/
def uuidv7 (timestampMs : Nat) (randomBytes : RandomBytes) : Option Uuid := do
  Uuid.ofBytes (← createUuidv7Bytes timestampMs randomBytes)

/-- `uuidv7_timestamp`. -/
def uuidv7Timestamp (id : Uuid) : Except String Nat :=
  if id.version ≠ some 7 then
    let version := (id.version.map toString).getD "None"
    .error s!"Expected UUIDv7 (version 7), got version {version}"
  else .ok (BigEndian.ofBytes ([0, 0] ++ id.bytes.take 6))

/-- The bytes `b"\x00" * 10`. -/
def zeroRandomBytes : RandomBytes := ⟨List.replicate 10 0, rfl⟩

/-- `uuidv7_boundary`. -/
def uuidv7Boundary (timestampMs : Nat) : Option Uuid := do
  Uuid.ofBytes (← createUuidv7Bytes timestampMs zeroRandomBytes)

/-! ## The layout -/

/-- A time of 48 bits, the version, 12 random bits, the variant and 62 random bits. -/
def layout (timestampMs randA randB : Nat) : Nat :=
  timestampMs * 2 ^ 80 + 7 * 2 ^ 76 + randA * 2 ^ 64 + 2 ^ 63 + randB

/-- The random bits next to the version. -/
def RandomBytes.randA (r : RandomBytes) : Nat := BigEndian.ofBytes (r.bytes.take 2) % 2 ^ 12

/-- The random bits next to the variant. -/
def RandomBytes.randB (r : RandomBytes) : Nat := BigEndian.ofBytes (r.bytes.drop 2) % 2 ^ 62

theorem randA_lt (r : RandomBytes) : r.randA < 2 ^ 12 := Nat.mod_lt _ (by decide)

theorem randB_lt (r : RandomBytes) : r.randB < 2 ^ 62 := Nat.mod_lt _ (by decide)

private theorem stamp_version (n : Nat) : n &&& 0x0FFF ||| 0x7000 = 7 * 2 ^ 12 + n % 2 ^ 12 := by
  have hmask : n &&& 0x0FFF = n % 2 ^ 12 := Nat.and_two_pow_sub_one_eq_mod n 12
  have hor := Nat.two_pow_add_eq_or_of_lt (Nat.mod_lt n (Nat.two_pow_pos 12)) 7
  rw [hmask, Nat.or_comm, ← hor, Nat.mul_comm]

private theorem stamp_variant (b : UInt8) :
    ((b &&& 0x3F) ||| 0x80).toNat = 2 ^ 7 + b.toNat % 2 ^ 6 := by
  have hmask : b.toNat &&& 0x3F = b.toNat % 2 ^ 6 := Nat.and_two_pow_sub_one_eq_mod b.toNat 6
  have hlt : b.toNat % 2 ^ 6 < 2 ^ 7 := by omega
  have hor := Nat.two_pow_add_eq_or_of_lt hlt 1
  rw [UInt8.toNat_or, UInt8.toNat_and]
  show b.toNat &&& 0x3F ||| 0x80 = _
  rw [hmask, Nat.or_comm, ← hor, Nat.mul_one]

private theorem drop_bytes (r : RandomBytes) :
    ∃ b rest, r.bytes.drop 2 = b :: rest ∧ rest.length = 7 := by
  have hlength : (r.bytes.drop 2).length = 8 := by rw [List.length_drop, r.length_eq]
  cases h : r.bytes.drop 2 with
  | nil => rw [h] at hlength; cases hlength
  | cons b rest => exact ⟨b, rest, rfl, by rw [h] at hlength; exact Nat.succ.inj hlength⟩

private theorem created {t : Nat} (ht : t < 2 ^ 64) (r : RandomBytes) :
    ∃ bytes, createUuidv7Bytes t r = some bytes ∧ bytes.length = 16 ∧
      BigEndian.ofBytes bytes = layout (t % 2 ^ 48) r.randA r.randB := by
  obtain ⟨b, rest, hdrop, hrest⟩ := drop_bytes r
  have htime : ((BigEndian.toBytes 8 t).drop 2).take 6 = BigEndian.toBytes 6 t := by
    rw [BigEndian.drop_toBytes 2 6, List.take_of_length_le (by simp)]
  have htail : (b :: rest).take 8 = b :: rest :=
    List.take_of_length_le (by simp [hrest])
  refine ⟨BigEndian.toBytes 6 t ++ BigEndian.toBytes 2 (7 * 2 ^ 12 + r.randA) ++
    ((b &&& 0x3F) ||| 0x80) :: rest, ?_, ?_, ?_⟩
  · have hfront : (BigEndian.toBytes 6 t ++ BigEndian.toBytes 2 (7 * 2 ^ 12 + r.randA)).length =
        8 := by simp
    simp only [createUuidv7Bytes, packQ, if_pos ht, Option.bind_eq_bind, Option.bind_some,
      stamp_version, htime, hdrop, htail]
    rw [← RandomBytes.randA, List.modify_eq_take_drop, List.take_left' hfront,
      List.drop_left' hfront]
    rfl
  · simp [hrest]
  · have hA := randA_lt r
    have hrandB : r.randB = (b.toNat * 256 ^ 7 + BigEndian.ofBytes rest) % 2 ^ 62 := by
      rw [RandomBytes.randB, hdrop, ← List.singleton_append, BigEndian.ofBytes_append,
        BigEndian.ofBytes_singleton, hrest]
    have hlow := BigEndian.ofBytes_lt rest
    rw [hrest] at hlow
    rw [BigEndian.ofBytes_append, BigEndian.ofBytes_append, BigEndian.ofBytes_toBytes,
      BigEndian.ofBytes_toBytes, BigEndian.length_toBytes, List.length_cons, hrest,
      ← List.singleton_append, BigEndian.ofBytes_append, BigEndian.ofBytes_singleton,
      stamp_variant, hrest, hrandB, layout]
    omega

/-- An identifier is the number with the layout of its time and its random bits. -/
theorem uuidv7_int {t : Nat} (ht : t < 2 ^ 48) (r : RandomBytes) :
    ∃ u, uuidv7 t r = some u ∧ u.int = layout t r.randA r.randB := by
  have ht64 : t < 2 ^ 64 := Nat.lt_trans ht (by decide)
  obtain ⟨bytes, hcreated, hlength, hint⟩ := created ht64 r
  refine ⟨⟨BigEndian.ofBytes bytes, ofBytes_lt_of_length hlength⟩, ?_, ?_⟩
  · simp only [uuidv7, hcreated, Option.bind_eq_bind, Option.bind_some, Uuid.ofBytes,
      dif_pos hlength]
  · rwa [Nat.mod_eq_of_lt ht] at hint

section Layout

variable {u : Uuid} {t a b : Nat}

theorem and_two_pow_eq_zero_iff (n i : Nat) : n &&& 2 ^ i = 0 ↔ n / 2 ^ i % 2 = 0 := by
  rw [Nat.and_two_pow, Nat.testBit_eq_decide_div_mod_eq]
  have := Nat.two_pow_pos i
  rcases Nat.mod_two_eq_zero_or_one (n / 2 ^ i) with h | h <;> simp [h]

theorem variant_of_layout (hint : u.int = layout t a b) (hb : b < 2 ^ 62) :
    u.variant = .rfc4122 := by
  have hhigh : ¬ u.int &&& 0x8000 <<< 48 = 0 := by
    rw [show 0x8000 <<< 48 = 2 ^ 63 from rfl, and_two_pow_eq_zero_iff, hint, layout]
    omega
  have hlow : u.int &&& 0x4000 <<< 48 = 0 := by
    rw [show 0x4000 <<< 48 = 2 ^ 62 from rfl, and_two_pow_eq_zero_iff, hint, layout]
    omega
  rw [Uuid.variant, if_neg hhigh, if_pos hlow]

theorem version_of_layout (hint : u.int = layout t a b) (ha : a < 2 ^ 12) (hb : b < 2 ^ 62) :
    u.version = some 7 := by
  have hbits : u.int >>> 76 &&& 0xf = 7 := by
    rw [show 0xf = 2 ^ 4 - 1 from rfl, Nat.and_two_pow_sub_one_eq_mod, Nat.shiftRight_eq_div_pow,
      hint, layout]
    omega
  rw [Uuid.version, if_pos (variant_of_layout hint hb), hbits]

theorem uuidv7Timestamp_of_layout (hint : u.int = layout t a b) (ht : t < 2 ^ 48)
    (ha : a < 2 ^ 12) (hb : b < 2 ^ 62) : uuidv7Timestamp u = .ok t := by
  have htime : BigEndian.ofBytes ([0, 0] ++ u.bytes.take 6) = t := by
    have hzero : BigEndian.ofBytes [0, 0] = 0 := rfl
    rw [Uuid.bytes, BigEndian.take_toBytes 6 10, BigEndian.ofBytes_append,
      BigEndian.ofBytes_toBytes, hint, layout, hzero, Nat.zero_mul]
    omega
  rw [uuidv7Timestamp, version_of_layout hint ha hb, if_neg (by simp), htime]

end Layout

/-- An identifier has the version and the variant of the standard and gives its time back, and the
boundary of a time lies above every identifier of an earlier time and at or below all others. -/
theorem uuidv7_time_ordered {t : Nat} (ht : t < 2 ^ 48) (r : RandomBytes) :
    ∃ u boundary, uuidv7 t r = some u ∧ u.version = some 7 ∧ u.variant = .rfc4122 ∧
      uuidv7Timestamp u = .ok t ∧ uuidv7Boundary t = some boundary ∧
      ∀ t' < 2 ^ 48, ∀ r' u', uuidv7 t' r' = some u' →
        (t ≤ t' → boundary ≤ u') ∧ (t' < t → u' < boundary) := by
  obtain ⟨u, hu, hint⟩ := uuidv7_int ht r
  obtain ⟨boundary, hboundary, hbound⟩ := uuidv7_int ht zeroRandomBytes
  refine ⟨u, boundary, hu, version_of_layout hint (randA_lt r) (randB_lt r),
    variant_of_layout hint (randB_lt r),
    uuidv7Timestamp_of_layout hint ht (randA_lt r) (randB_lt r), hboundary, ?_⟩
  intro t' ht' r' u' hu'
  obtain ⟨v, hv, hother⟩ := uuidv7_int ht' r'
  cases hu'.symm.trans hv
  have hzero : boundary.int = layout t 0 0 := hbound
  have hA := randA_lt r'
  have hB := randB_lt r'
  constructor
  · intro hle
    show boundary.int ≤ u'.int
    rw [hzero, hother, layout, layout]
    omega
  · intro hlt
    show u'.int < boundary.int
    rw [hzero, hother, layout, layout]
    omega

/-- The boundary of a time and the identifiers around it. -/
theorem uuidv7_time_ordered_epoch : ∃ u boundary, uuidv7 1 zeroRandomBytes = some u ∧
    u.version = some 7 ∧ u.variant = .rfc4122 ∧ uuidv7Timestamp u = .ok 1 ∧
    uuidv7Boundary 1 = some boundary ∧
    ∀ t' < 2 ^ 48, ∀ r' u', uuidv7 t' r' = some u' →
      (1 ≤ t' → boundary ≤ u') ∧ (t' < 1 → u' < boundary) :=
  uuidv7_time_ordered (by decide) zeroRandomBytes

end PlatformSpec.Libs
