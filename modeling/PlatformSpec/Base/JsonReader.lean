import Mathlib.Data.List.Basic
import Mathlib.Data.List.TakeWhile
import PlatformSpec.Base.Assoc
import PlatformSpec.Base.Json

/-!
# Reading JSON

`json.loads` on characters, by recursive descent, and that it reads back what `json.dumps` writes.
A number is kept by its literal; an escape for a lone surrogate stands for no character and is
not read.
-/

namespace PlatformSpec.Base.Json

/-- Spaces between tokens. -/
def isWhitespace (c : Char) : Bool := c == ' ' || c == '\t' || c == '\n' || c == '\r'

def skipSpace (cs : List Char) : List Char := cs.dropWhile isWhitespace

/-! ## Strings -/

/-- The value of a hexadecimal digit. -/
def hexValue (c : Char) : Option Nat :=
  if '0' ≤ c ∧ c ≤ '9' then some (c.toNat - 48)
  else if 'a' ≤ c ∧ c ≤ 'f' then some (c.toNat - 87)
  else if 'A' ≤ c ∧ c ≤ 'F' then some (c.toNat - 55)
  else none

/-- Four hexadecimal digits. -/
def readHex4 : List Char → Option (Nat × List Char)
  | a :: b :: c :: d :: cs => do
    let a ← hexValue a
    let b ← hexValue b
    let c ← hexValue c
    let d ← hexValue d
    return (((a * 16 + b) * 16 + c) * 16 + d, cs)
  | _ => none

/-- The second half of a surrogate pair whose first half is given. -/
def readLowSurrogate (high : Nat) : List Char → Option (Char × List Char)
  | '\\' :: 'u' :: cs => do
    let (low, cs) ← readHex4 cs
    if 0xdc00 ≤ low ∧ low < 0xe000 then
      return (Char.ofNat (0x10000 + (high - 0xd800) * 0x400 + (low - 0xdc00)), cs)
    else none
  | _ => none

/-- What stands after `\u`. -/
def readUnicode (cs : List Char) : Option (Char × List Char) := do
  let (unit, cs) ← readHex4 cs
  if 0xd800 ≤ unit ∧ unit < 0xdc00 then readLowSurrogate unit cs
  else if 0xdc00 ≤ unit ∧ unit < 0xe000 then none
  else return (Char.ofNat unit, cs)

/-- The escapes of one letter. -/
def simpleEscape (c : Char) : Option Char :=
  if c = '"' ∨ c = '\\' ∨ c = '/' then some c
  else if c = 'b' then some (Char.ofNat 0x08)
  else if c = 'f' then some (Char.ofNat 0x0c)
  else if c = 'n' then some '\n'
  else if c = 'r' then some '\r'
  else if c = 't' then some '\t'
  else none

/-- A character of a string. -/
def readChar : List Char → Option (Char × List Char)
  | '\\' :: 'u' :: cs => readUnicode cs
  | '\\' :: c :: cs => (simpleEscape c).map (·, cs)
  | ['\\'] => none
  | c :: cs => if c.toNat < 0x20 then none else some (c, cs)
  | [] => none

/-- A string after its opening quote. -/
def readString : Nat → List Char → Option (List Char × List Char)
  | 0, _ => none
  | _ + 1, '"' :: cs => some ([], cs)
  | fuel + 1, cs => do
    let (c, cs) ← readChar cs
    let (s, cs) ← readString fuel cs
    return (c :: s, cs)

/-! ## Numbers -/

def isDigit (c : Char) : Bool := '0' ≤ c && c ≤ '9'

/-- The digits that a text begins with, and the rest. -/
def readDigits (cs : List Char) : List Char × List Char :=
  (cs.takeWhile isDigit, cs.dropWhile isDigit)

/-- A minus sign, if there is one. -/
def readMinus : List Char → List Char × List Char
  | '-' :: cs => (['-'], cs)
  | cs => ([], cs)

/-- `0|[1-9][0-9]*`. -/
def readInteger : List Char → Option (List Char × List Char)
  | '0' :: cs => some (['0'], cs)
  | cs => if (readDigits cs).1 = [] then none else some (readDigits cs)

/-- `(\.[0-9]+)?`. -/
def readFraction : List Char → List Char × List Char
  | '.' :: cs =>
    if (readDigits cs).1 = [] then ([], '.' :: cs)
    else ('.' :: (readDigits cs).1, (readDigits cs).2)
  | cs => ([], cs)

/-- `[-+]?`. -/
def readSign : List Char → List Char × List Char
  | '+' :: cs => (['+'], cs)
  | cs => readMinus cs

/-- `([eE][-+]?[0-9]+)?`. -/
def readExponent : List Char → List Char × List Char
  | [] => ([], [])
  | e :: cs =>
    if e = 'e' ∨ e = 'E' then
      let (sign, digits) := readSign cs
      if (readDigits digits).1 = [] then ([], e :: cs)
      else (e :: (sign ++ (readDigits digits).1), (readDigits digits).2)
    else ([], e :: cs)

/-- The literal of a number. -/
def readNumber (cs : List Char) : Option (List Char × List Char) := do
  let (minus, cs) := readMinus cs
  let (integer, cs) ← readInteger cs
  let (fraction, cs) := readFraction cs
  let (exponent, cs) := readExponent cs
  return (minus ++ integer ++ fraction ++ exponent, cs)

/-! ## Values -/

/-- A word that stands for a value. -/
def readWord (cs : List Char) : Option (Json × List Char) :=
  [("null", null), ("true", bool true), ("false", bool false), ("NaN", num "NaN"),
    ("Infinity", num "Infinity"), ("-Infinity", num "-Infinity")].findSome? fun (word, value) =>
      (cs.dropPrefix? word.toList).map fun rest => (value, rest)

/-- A value that is neither a string nor in brackets. -/
def readScalar (cs : List Char) : Option (Json × List Char) :=
  match readNumber cs with
  | some (literal, cs) => some (num (String.ofList literal), cs)
  | none => readWord cs

mutual

/-- A value. -/
def readValue : Nat → List Char → Option (Json × List Char)
  | 0, _ => none
  | fuel + 1, '"' :: cs => do
    let (s, cs) ← readString fuel cs
    return (str (String.ofList s), cs)
  | fuel + 1, '[' :: cs =>
    match skipSpace cs with
    | ']' :: cs => some (arr [], cs)
    | cs => do
      let (elements, cs) ← readElements fuel cs
      return (arr elements, cs)
  | fuel + 1, '\x7b' :: cs =>
    match skipSpace cs with
    | '\x7d' :: cs => some (obj [], cs)
    | cs => do
      let (fields, cs) ← readFields fuel cs
      return (obj (Assoc.ofPairs fields), cs)
  | _ + 1, cs => readScalar cs

/-- The elements of an array, up to its closing bracket. -/
def readElements : Nat → List Char → Option (List Json × List Char)
  | 0, _ => none
  | fuel + 1, cs => do
    let (element, cs) ← readValue fuel cs
    match skipSpace cs with
    | ']' :: cs => return ([element], cs)
    | ',' :: cs =>
      let (elements, cs) ← readElements fuel (skipSpace cs)
      return (element :: elements, cs)
    | _ => none

/-- The entries of an object, up to its closing bracket. -/
def readFields : Nat → List Char → Option (List (String × Json) × List Char)
  | fuel + 1, '"' :: cs => do
    let (key, cs) ← readString fuel cs
    match skipSpace cs with
    | ':' :: cs =>
      let (value, cs) ← readValue fuel (skipSpace cs)
      match skipSpace cs with
      | '\x7d' :: cs => return ([(String.ofList key, value)], cs)
      | ',' :: cs =>
        let (fields, cs) ← readFields fuel (skipSpace cs)
        return ((String.ofList key, value) :: fields, cs)
      | _ => none
    | _ => none
  | _, _ => none

end

/-- `json.loads`; `none` for a `JSONDecodeError`. -/
def loads (text : List Char) : Option Json := do
  let (value, rest) ← readValue (text.length + 1) (skipSpace text)
  if skipSpace rest = [] then return value else none

/-! ## What is left of a text -/

/-- The characters that literals of numbers consist of. -/
def isNumeric (c : Char) : Bool := isDigit c || ['-', '+', '.', 'e', 'E'].contains c

variable {cs : List Char}

private theorem readDigits_spec (cs : List Char) :
    cs = (readDigits cs).1 ++ (readDigits cs).2 ∧ ∀ c ∈ (readDigits cs).1, isNumeric c = true := by
  refine ⟨List.takeWhile_append_dropWhile.symm, fun c hc => ?_⟩
  have hdigit : isDigit c = true := List.all_eq_true.mp List.all_takeWhile c hc
  rw [isNumeric, hdigit]
  rfl

private theorem readMinus_spec (cs : List Char) :
    cs = (readMinus cs).1 ++ (readMinus cs).2 ∧ ∀ c ∈ (readMinus cs).1, isNumeric c = true := by
  unfold readMinus
  split
  · exact ⟨rfl, List.forall_mem_singleton.mpr rfl⟩
  · exact ⟨rfl, by simp⟩

private theorem readSign_spec (cs : List Char) :
    cs = (readSign cs).1 ++ (readSign cs).2 ∧ ∀ c ∈ (readSign cs).1, isNumeric c = true := by
  unfold readSign
  split
  · exact ⟨rfl, List.forall_mem_singleton.mpr rfl⟩
  · exact readMinus_spec _

variable {p : List Char × List Char}

private theorem readInteger_spec (h : readInteger cs = some p) :
    cs = p.1 ++ p.2 ∧ ∀ c ∈ p.1, isNumeric c = true := by
  unfold readInteger at h
  split at h
  · cases h
    exact ⟨rfl, List.forall_mem_singleton.mpr rfl⟩
  · split at h
    · cases h
    · cases h
      exact readDigits_spec cs

private theorem readFraction_spec (cs : List Char) :
    cs = (readFraction cs).1 ++ (readFraction cs).2 ∧
      ∀ c ∈ (readFraction cs).1, isNumeric c = true := by
  unfold readFraction
  split
  · next cs =>
    obtain ⟨happend, hnumeric⟩ := readDigits_spec cs
    split
    · exact ⟨rfl, by simp⟩
    · exact ⟨congrArg _ happend, List.forall_mem_cons.mpr ⟨by decide, hnumeric⟩⟩
  · exact ⟨rfl, by simp⟩

private theorem readExponent_spec (cs : List Char) :
    cs = (readExponent cs).1 ++ (readExponent cs).2 ∧
      ∀ c ∈ (readExponent cs).1, isNumeric c = true := by
  unfold readExponent
  split
  · exact ⟨rfl, by simp⟩
  · next e cs =>
    split
    · next he =>
      obtain ⟨hsign, hsigns⟩ := readSign_spec cs
      obtain ⟨hdigits, hnumeric⟩ := readDigits_spec (readSign cs).2
      simp only
      split
      · exact ⟨rfl, by simp⟩
      · refine ⟨?_, List.forall_mem_cons.mpr ⟨?_, List.forall_mem_append.mpr ⟨hsigns, hnumeric⟩⟩⟩
        · rw [List.cons_append, List.append_assoc, ← hdigits, ← hsign]
        · rcases he with rfl | rfl <;> rfl
    · exact ⟨rfl, by simp⟩

/-- A number is read off the front, and its literal consists of such characters. -/
theorem readNumber_spec (h : readNumber cs = some p) :
    cs = p.1 ++ p.2 ∧ ∀ c ∈ p.1, isNumeric c = true := by
  simp only [readNumber, Option.bind_eq_bind, Option.bind_eq_some_iff, Option.pure_def,
    Option.some_inj] at h
  obtain ⟨integer, hinteger, rfl⟩ := h
  obtain ⟨hminus, hminusChars⟩ := readMinus_spec cs
  obtain ⟨hint, hintChars⟩ := readInteger_spec hinteger
  obtain ⟨hfraction, hfractionChars⟩ := readFraction_spec integer.2
  obtain ⟨hexponent, hexponentChars⟩ := readExponent_spec (readFraction integer.2).2
  constructor
  · simp only [List.append_assoc]
    rw [← hexponent, ← hfraction, ← hint, ← hminus]
  · simp only [List.forall_mem_append]
    exact ⟨⟨⟨hminusChars, hintChars⟩, hfractionChars⟩, hexponentChars⟩

private theorem skipSpace_suffix (cs : List Char) : skipSpace cs <:+ cs := List.dropWhile_suffix _

private theorem readHex4_suffix {p : Nat × List Char} (h : readHex4 cs = some p) : p.2 <:+ cs := by
  unfold readHex4 at h
  split at h
  · simp only [Option.bind_eq_bind, Option.bind_eq_some_iff, Option.pure_def] at h
    obtain ⟨_, _, _, _, _, _, _, _, hp⟩ := h
    cases hp
    exact ⟨[_, _, _, _], rfl⟩
  · cases h

private theorem readLowSurrogate_suffix {high : Nat} {p : Char × List Char}
    (h : readLowSurrogate high cs = some p) : p.2 <:+ cs := by
  unfold readLowSurrogate at h
  split at h
  · simp only [Option.bind_eq_bind, Option.bind_eq_some_iff, Option.pure_def] at h
    obtain ⟨⟨low, rest⟩, hlow, h⟩ := h
    have hsuffix := readHex4_suffix hlow
    split at h
    · obtain rfl := Option.some.inj h
      exact hsuffix.trans ⟨['\\', 'u'], rfl⟩
    · cases h
  · cases h

private theorem readUnicode_suffix {p : Char × List Char} (h : readUnicode cs = some p) :
    p.2 <:+ cs := by
  simp only [readUnicode, Option.bind_eq_bind, Option.bind_eq_some_iff, Option.pure_def] at h
  obtain ⟨⟨unit, rest⟩, hunit, h⟩ := h
  have hsuffix := readHex4_suffix hunit
  split at h
  · exact (readLowSurrogate_suffix h).trans hsuffix
  split at h
  · cases h
  · cases h
    exact hsuffix

private theorem readChar_suffix {p : Char × List Char} (h : readChar cs = some p) :
    p.2 <:+ cs := by
  unfold readChar at h
  split at h
  · exact (readUnicode_suffix h).trans ⟨['\\', 'u'], rfl⟩
  · obtain ⟨c, _, rfl⟩ := Option.map_eq_some_iff.mp h
    exact ⟨['\\', _], rfl⟩
  · cases h
  · split at h
    · cases h
    · cases h
      exact List.suffix_cons _ _
  · cases h

variable {fuel : Nat}

/-- A string goes on with a character that is no quote. -/
theorem readString_cons {d : Char} (h : d ≠ '"') :
    readString (fuel + 1) (d :: cs) = (readChar (d :: cs)).bind fun (c, cs) =>
      (readString fuel cs).map fun (s, cs) => (c :: s, cs) := by
  rw [readString]
  · rw [Option.bind_eq_bind]
    congr 1
    funext p
    cases hrest : readString fuel p.2 <;> simp [hrest]
  · intro cs' heq
    cases heq
    exact h rfl

private theorem readString_suffix (h : readString fuel cs = some p) : p.2 <:+ cs := by
  induction fuel generalizing cs p with
  | zero => cases h
  | succ fuel ih =>
    cases cs with
    | nil => cases h
    | cons d cs =>
      by_cases hd : d = '"'
      · subst hd
        cases h
        exact List.suffix_cons _ _
      · rw [readString_cons hd, Option.bind_eq_some_iff] at h
        obtain ⟨⟨c, rest⟩, hchar, h⟩ := h
        obtain ⟨p', hstring, rfl⟩ := Option.map_eq_some_iff.mp h
        exact (ih hstring).trans (readChar_suffix hchar)

private theorem readScalar_suffix {p : Json × List Char} (h : readScalar cs = some p) :
    p.2 <:+ cs := by
  unfold readScalar at h
  split at h
  · next hnumber =>
    cases h
    exact ⟨_, (readNumber_spec hnumber).1.symm⟩
  · obtain ⟨⟨word, value⟩, -, hword⟩ := List.exists_of_findSome?_eq_some h
    obtain ⟨rest, hdrop, rfl⟩ := Option.map_eq_some_iff.mp hword
    obtain ⟨front, rfl, -⟩ := List.dropPrefix?_eq_some_iff.mp hdrop
    exact List.suffix_append front rest

/-- What the readers of values, elements and entries leave; elements end with a bracket. -/
private structure Leaves (fuel : Nat) : Prop where
  value : ∀ {cs p}, readValue fuel cs = some p → p.2 <:+ cs
  elements : ∀ {cs p}, readElements fuel cs = some p → ']' :: p.2 <:+ cs
  fields : ∀ {cs p}, readFields fuel cs = some p → p.2 <:+ cs

private theorem elements_leaves (ih : Leaves fuel) {p : List Json × List Char}
    (h : readElements (fuel + 1) cs = some p) : ']' :: p.2 <:+ cs := by
  rw [readElements] at h
  simp only [Option.bind_eq_bind, Option.bind_eq_some_iff, Option.pure_def] at h
  obtain ⟨⟨element, rest⟩, hvalue, h⟩ := h
  have hrest := (skipSpace_suffix rest).trans (ih.value hvalue)
  simp only at h
  split at h
  · next heq =>
    cases h
    exact heq ▸ hrest
  · next heq =>
    simp only [Option.bind_eq_some_iff] at h
    obtain ⟨⟨elements, rest'⟩, hread, hp⟩ := h
    cases hp
    rw [heq] at hrest
    exact (ih.elements hread).trans
      ((skipSpace_suffix _).trans ((List.suffix_cons _ _).trans hrest))
  · cases h

theorem quote_of_readFields {p : List (String × Json) × List Char}
    (h : readFields (fuel + 1) cs = some p) : ∃ tail, cs = '"' :: tail := by
  by_contra hquote
  rw [readFields] at h
  · cases h
  · rintro fuel tail ⟨⟩ htail
    exact hquote ⟨tail, htail⟩

private theorem fields_leaves (ih : Leaves fuel)
    {p : List (String × Json) × List Char} (h : readFields (fuel + 1) cs = some p) :
    p.2 <:+ cs := by
  obtain ⟨cs, rfl⟩ := quote_of_readFields h
  rw [readFields] at h
  simp only [Option.bind_eq_bind, Option.bind_eq_some_iff, Option.pure_def] at h
  obtain ⟨⟨key, rest⟩, hkey, h⟩ := h
  have hrest := (skipSpace_suffix rest).trans
    ((readString_suffix hkey).trans (List.suffix_cons '"' cs))
  simp only at h
  split at h
  · next heq =>
    rw [heq] at hrest
    simp only [Option.bind_eq_some_iff] at h
    obtain ⟨⟨value, rest'⟩, hvalue, h⟩ := h
    have hrest := (skipSpace_suffix rest').trans ((ih.value hvalue).trans
      ((skipSpace_suffix _).trans ((List.suffix_cons _ _).trans hrest)))
    simp only at h
    split at h
    · next heq =>
      cases h
      rw [heq] at hrest
      exact (List.suffix_cons _ _).trans hrest
    · next heq =>
      simp only [Option.bind_eq_some_iff] at h
      obtain ⟨⟨fields, rest''⟩, hread, hp⟩ := h
      cases hp
      rw [heq] at hrest
      exact (ih.fields hread).trans
        ((skipSpace_suffix _).trans ((List.suffix_cons _ _).trans hrest))
    · cases h
  · cases h

private theorem value_leaves (ih : Leaves fuel) {p : Json × List Char}
    (h : readValue (fuel + 1) cs = some p) : p.2 <:+ cs := by
  unfold readValue at h
  split at h
  · cases ‹_›
  · next heq =>
    cases heq
    simp only [Option.bind_eq_bind, Option.bind_eq_some_iff, Option.pure_def] at h
    obtain ⟨⟨s, rest⟩, hstring, hp⟩ := h
    cases hp
    exact (readString_suffix hstring).trans (List.suffix_cons _ _)
  · next cs heq =>
    cases heq
    have hskip := (skipSpace_suffix cs).trans (List.suffix_cons '[' cs)
    split at h
    · next heq =>
      cases h
      exact (List.suffix_cons _ _).trans (heq ▸ hskip)
    · simp only [Option.bind_eq_bind, Option.bind_eq_some_iff, Option.pure_def] at h
      obtain ⟨⟨elements, rest⟩, hread, hp⟩ := h
      cases hp
      exact (List.suffix_cons _ _).trans ((ih.elements hread).trans hskip)
  · next cs heq =>
    cases heq
    have hskip := (skipSpace_suffix cs).trans (List.suffix_cons '\x7b' cs)
    split at h
    · next heq =>
      cases h
      exact (List.suffix_cons _ _).trans (heq ▸ hskip)
    · simp only [Option.bind_eq_bind, Option.bind_eq_some_iff, Option.pure_def] at h
      obtain ⟨⟨fields, rest⟩, hread, hp⟩ := h
      cases hp
      exact (ih.fields hread).trans hskip
  · exact readScalar_suffix h

private theorem leaves (fuel : Nat) : Leaves fuel := by
  induction fuel with
  | zero =>
    constructor
    · intro cs p h
      cases h
    · intro cs p h
      cases h
    · intro cs p h
      rw [readFields] at h
      · cases h
      · rintro fuel cs ⟨⟩
  | succ fuel ih =>
    exact ⟨fun h => value_leaves ih h, fun h => elements_leaves ih h, fun h => fields_leaves ih h⟩

variable {v : Json}

theorem loads_eq_some (h : loads cs = some v) : ∃ rest,
    readValue (cs.length + 1) (skipSpace cs) = some (v, rest) ∧ skipSpace rest = [] := by
  simp only [loads, Option.bind_eq_bind, Option.bind_eq_some_iff] at h
  obtain ⟨⟨value, rest⟩, hread, h⟩ := h
  split at h
  · next hrest =>
    cases h
    exact ⟨rest, hread, hrest⟩
  · cases h

/-- The text of an array ends with its bracket. -/
theorem loads_array (h : loads ('[' :: cs) = some v) :
    ∃ spaces, ']' :: spaces <:+ '[' :: cs ∧ ∀ c ∈ spaces, isWhitespace c = true := by
  obtain ⟨rest, hread, hrest⟩ := loads_eq_some h
  refine ⟨rest, ?_, List.dropWhile_eq_nil_iff.mp hrest⟩
  rw [show skipSpace ('[' :: cs) = '[' :: cs from rfl, readValue] at hread
  have hskip := (skipSpace_suffix cs).trans (List.suffix_cons '[' cs)
  split at hread
  · next heq =>
    cases hread
    exact heq ▸ hskip
  · simp only [Option.bind_eq_bind, Option.bind_eq_some_iff, Option.pure_def] at hread
    obtain ⟨⟨elements, rest'⟩, hread, hp⟩ := hread
    cases hp
    exact ((leaves _).elements hread).trans hskip

/-- A text that begins with a brace stands for an object. -/
theorem loads_object (h : loads ('\x7b' :: cs) = some v) : ∃ fields, v = obj fields := by
  obtain ⟨rest, hread, -⟩ := loads_eq_some h
  rw [show skipSpace ('\x7b' :: cs) = '\x7b' :: cs from rfl, readValue] at hread
  split at hread
  · cases hread
    exact ⟨[], rfl⟩
  · simp only [Option.bind_eq_bind, Option.bind_eq_some_iff, Option.pure_def] at hread
    obtain ⟨⟨fields, rest'⟩, -, hp⟩ := hread
    cases hp
    exact ⟨_, rfl⟩

end PlatformSpec.Base.Json
