import PlatformSpec.Base.Split

/-!
# UTF-8 as lists of bytes

Encoding, and decoding that ignores what is not valid. The bytes of ASCII characters stand for
nothing else, so that encoded texts can be cut at them. Nothing here mentions a particular system.
-/

namespace PlatformSpec.Base.Utf8

/-- `s.encode()`. -/
def encode (s : List Char) : List UInt8 := s.flatMap String.utf8EncodeChar

/-- Decode after passing some bytes that are read already. -/
def decodeFrom : Nat → List UInt8 → List Char
  | _, [] => []
  | n + 1, _ :: l => decodeFrom n l
  | 0, b :: l =>
    match (b :: l).toByteArray.utf8DecodeChar? 0 with
    | some c => c :: decodeFrom (c.utf8Size - 1) l
    | none => decodeFrom 0 l

/-- `b.decode("utf-8", errors="ignore")`. -/
def decodeIgnore (b : List UInt8) : List Char := decodeFrom 0 b

/-- `b.decode("utf-8")`: the text whose code the bytes are. -/
def decode (b : List UInt8) : Option (List Char) :=
  if encode (decodeIgnore b) = b then some (decodeIgnore b) else none

@[simp] theorem encode_nil : encode [] = [] := rfl

theorem encodeChar_ne_nil (c : Char) : String.utf8EncodeChar c ≠ [] := by
  rw [← List.length_pos_iff, String.length_utf8EncodeChar]
  exact c.utf8Size_pos

theorem decodeFrom_append (front l : List UInt8) :
    decodeFrom front.length (front ++ l) = decodeFrom 0 l := by
  induction front with
  | nil => rfl
  | cons b front ih => exact ih

/-- A text is decoded from its code, whatever follows. -/
theorem decodeIgnore_encode_append (s : List Char) (rest : List UInt8) :
    decodeIgnore (encode s ++ rest) = s ++ decodeIgnore rest := by
  induction s with
  | nil => rfl
  | cons c s ih =>
    obtain ⟨b, bs, hc⟩ := List.exists_cons_of_ne_nil (encodeChar_ne_nil c)
    have hlength : bs.length = c.utf8Size - 1 := by
      rw [← String.length_utf8EncodeChar, hc]
      rfl
    have hcode : encode (c :: s) ++ rest = b :: (bs ++ (encode s ++ rest)) := by
      rw [encode, List.flatMap_cons, hc]
      simp [encode]
    have hchar : (b :: (bs ++ (encode s ++ rest))).toByteArray.utf8DecodeChar? 0 = some c := by
      rw [← List.cons_append, ← hc, List.toByteArray_append]
      exact ByteArray.utf8DecodeChar?_utf8EncodeChar_append
    rw [hcode, decodeIgnore, decodeFrom, hchar]
    dsimp only
    rw [← hlength, decodeFrom_append, List.cons_append]
    exact congrArg (c :: ·) ih

@[simp] theorem decodeIgnore_encode (s : List Char) : decodeIgnore (encode s) = s := by
  have h := decodeIgnore_encode_append s []
  rwa [List.append_nil, show decodeIgnore [] = [] from rfl, List.append_nil] at h

/-- A text is decoded from its code. -/
theorem decode_encode (s : List Char) : decode (encode s) = some s := by
  rw [decode, decodeIgnore_encode, if_pos rfl]

theorem encode_injective {s t : List Char} (h : encode s = encode t) : s = t := by
  rw [← decodeIgnore_encode s, h, decodeIgnore_encode]

/-- An ASCII character is one byte. -/
theorem encodeChar_ascii {c : Char} (h : c.toNat < 128) :
    String.utf8EncodeChar c = [UInt8.ofNat c.toNat] := by
  have hc : c.val.toNat ≤ 0x7f := by
    have : c.val.toNat < 128 := h
    omega
  rw [String.utf8EncodeChar]
  exact if_pos hc

/-- The byte of an ASCII character is in the code of no other. -/
theorem eq_of_mem_encodeChar {c d : Char} (h : c.toNat < 128)
    (hmem : UInt8.ofNat c.toNat ∈ String.utf8EncodeChar d) : d = c := by
  have hc : (UInt8.ofNat c.toNat).toNat < 128 := by
    rw [UInt8.toNat_ofNat']
    omega
  have hbig : ∀ n : Nat, 128 ≤ n → n < 256 → UInt8.ofNat c.toNat ≠ UInt8.ofNat n := by
    intro n hn hlt he
    rw [he, UInt8.toNat_ofNat'] at hc
    omega
  by_cases hd : d.toNat < 128
  · rw [encodeChar_ascii hd, List.mem_singleton] at hmem
    have hnat := congrArg UInt8.toNat hmem
    rw [UInt8.toNat_ofNat', UInt8.toNat_ofNat'] at hnat
    refine Char.toNat_inj.mp ?_
    omega
  · have hv : ¬ d.val.toNat ≤ 0x7f := by
      have : ¬ d.val.toNat < 128 := hd
      omega
    exfalso
    unfold String.utf8EncodeChar at hmem
    dsimp only at hmem
    rw [if_neg hv] at hmem
    split at hmem
    next =>
      simp only [List.mem_cons, List.not_mem_nil, or_false] at hmem
      rcases hmem with he | he
      · exact hbig _ (by omega) (by omega) he
      · exact hbig _ (by omega) (by omega) he
    next =>
      split at hmem
      next =>
        simp only [List.mem_cons, List.not_mem_nil, or_false] at hmem
        rcases hmem with he | he | he
        · exact hbig _ (by omega) (by omega) he
        · exact hbig _ (by omega) (by omega) he
        · exact hbig _ (by omega) (by omega) he
      next =>
        simp only [List.mem_cons, List.not_mem_nil, or_false] at hmem
        rcases hmem with he | he | he | he
        · exact hbig _ (by omega) (by omega) he
        · exact hbig _ (by omega) (by omega) he
        · exact hbig _ (by omega) (by omega) he
        · exact hbig _ (by omega) (by omega) he

/-- ASCII separators stand for themselves. -/
theorem marks {sep : List Char} (h : ∀ c ∈ sep, c.toNat < 128) :
    Split.Marks String.utf8EncodeChar sep where
  nonempty := encodeChar_ne_nil
  single c hc := ⟨_, encodeChar_ascii (h c hc), fun _ => eq_of_mem_encodeChar (h c hc)⟩

end PlatformSpec.Base.Utf8
