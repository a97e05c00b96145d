/-!
# JSON values

Values that JSON texts stand for. A number is kept by its literal; an object is a dictionary
in the order of its keys.
-/

namespace PlatformSpec.Base

/-- A JSON value. -/
inductive Json where
  | null
  | bool (b : Bool)
  | num (literal : String)
  | str (s : String)
  | arr (elements : List Json)
  | obj (fields : List (String × Json))

namespace Json

/-- Four hexadecimal digits. -/
def hex4 (n : Nat) : List Char :=
  [Nat.digitChar (n / 4096 % 16), Nat.digitChar (n / 256 % 16), Nat.digitChar (n / 16 % 16),
    Nat.digitChar (n % 16)]

/-- `\uXXXX`, a surrogate pair beyond the basic plane. -/
def unicodeEscape (c : Char) : List Char :=
  if c.toNat < 0x10000 then '\\' :: 'u' :: hex4 c.toNat
  else '\\' :: 'u' :: hex4 (0xd800 + (c.toNat - 0x10000) / 0x400) ++
    '\\' :: 'u' :: hex4 (0xdc00 + (c.toNat - 0x10000) % 0x400)

/-- A character inside quotes. -/
def escape (ensureAscii : Bool) (c : Char) : List Char :=
  if c = '"' ∨ c = '\\' then ['\\', c]
  else if c = '\n' then ['\\', 'n']
  else if c = '\r' then ['\\', 'r']
  else if c = '\t' then ['\\', 't']
  else if c.toNat = 0x0c then ['\\', 'f']
  else if c.toNat = 0x08 then ['\\', 'b']
  else if c.toNat < 0x20 ∨ (ensureAscii = true ∧ 0x7e < c.toNat) then unicodeEscape c
  else [c]

/-- A text in quotes. -/
def quote (ensureAscii : Bool) (s : String) : List Char :=
  '"' :: (s.toList.flatMap (escape ensureAscii) ++ ['"'])

mutual

/-- The characters of `json.dumps`. -/
def chars (ensureAscii : Bool) : Json → List Char
  | .null => "null".toList
  | .bool b => if b then "true".toList else "false".toList
  | .num literal => literal.toList
  | .str s => quote ensureAscii s
  | .arr elements => '[' :: (elementChars ensureAscii elements ++ [']'])
  | .obj fields => '\x7b' :: (fieldChars ensureAscii fields ++ ['\x7d'])

/-- The elements of an array. -/
def elementChars (ensureAscii : Bool) : List Json → List Char
  | [] => []
  | [element] => element.chars ensureAscii
  | element :: next :: elements =>
    element.chars ensureAscii ++ ", ".toList ++ elementChars ensureAscii (next :: elements)

/-- The entries of an object. -/
def fieldChars (ensureAscii : Bool) : List (String × Json) → List Char
  | [] => []
  | [(key, value)] => quote ensureAscii key ++ ": ".toList ++ value.chars ensureAscii
  | (key, value) :: next :: fields =>
    quote ensureAscii key ++ ": ".toList ++ value.chars ensureAscii ++ ", ".toList ++
      fieldChars ensureAscii (next :: fields)

end

/-- `json.dumps`, by default with `ensure_ascii`. -/
def dumps (value : Json) (ensureAscii : Bool := true) : String :=
  String.ofList (value.chars ensureAscii)

end Json
end PlatformSpec.Base

/-!
## Texts of JSON values

Objects and arrays with what stands between their outermost brackets, and the texts inside a
value.
-/

namespace PlatformSpec.Base

mutual

/-- The strings and the literals of the numbers in a value. -/
def Json.texts : Json → List String
  | .num literal => [literal]
  | .str s => [s]
  | .arr elements => elementTexts elements
  | .obj fields => fieldTexts fields
  | _ => []

def Json.elementTexts : List Json → List String
  | [] => []
  | element :: elements => element.texts ++ elementTexts elements

def Json.fieldTexts : List (String × Json) → List String
  | [] => []
  | (key, value) :: fields => key :: (value.texts ++ fieldTexts fields)

end

/-- A JSON object or array. -/
inductive JsonContainer where
  | obj (fields : List (String × Json))
  | arr (elements : List Json)

namespace JsonContainer

def value : JsonContainer → Json
  | .obj fields => .obj fields
  | .arr elements => .arr elements

def opening : JsonContainer → Char
  | .obj _ => '\x7b'
  | .arr _ => '['

def closing : JsonContainer → Char
  | .obj _ => '\x7d'
  | .arr _ => ']'

/-- The text between the outermost brackets. -/
def inner (ensureAscii : Bool) : JsonContainer → List Char
  | .obj fields => Json.fieldChars ensureAscii fields
  | .arr elements => Json.elementChars ensureAscii elements

theorem chars_value (ensureAscii : Bool) (j : JsonContainer) :
    j.value.chars ensureAscii = j.opening :: (j.inner ensureAscii ++ [j.closing]) := by
  cases j <;> rw [value, Json.chars] <;> rfl

end JsonContainer
end PlatformSpec.Base
