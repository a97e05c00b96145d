import PlatformSpec.Base.JsonReader

/-!
# What is read back

`json.loads` reads every text that a JSON writer makes of a value as that value, whatever spaces it
puts between the tokens: on one line, without spaces, or with indented lines.
-/

namespace PlatformSpec.Base.Json

/-! ## Strings -/

private theorem hexValue_digitChar : ∀ d < 16, hexValue d.digitChar = some d := by decide

variable {n fuel : Nat}

private theorem readHex4_hex4 (h : n < 0x10000) (rest : List Char) :
    readHex4 (hex4 n ++ rest) = some (n, rest) := by
  have hdigit : ∀ m, hexValue (Nat.digitChar (m % 16)) = some (m % 16) :=
    fun m => hexValue_digitChar _ (Nat.mod_lt _ (by decide))
  have hvalue : ((n / 4096 % 16 * 16 + n / 256 % 16) * 16 + n / 16 % 16) * 16 + n % 16 = n := by
    omega
  simp [hex4, readHex4, hdigit, hvalue]

private theorem toNat_valid (c : Char) :
    c.toNat < 0xd800 ∨ (0xdfff < c.toNat ∧ c.toNat < 0x110000) := c.valid

private theorem readUnicode_escape (c : Char) (rest : List Char) :
    readChar (unicodeEscape c ++ rest) = some (c, rest) := by
  have hvalid := toNat_valid c
  unfold unicodeEscape
  split
  · next hlow =>
    have hhigh : ¬ (0xd800 ≤ c.toNat ∧ c.toNat < 0xdc00) := by omega
    have hlow' : ¬ (0xdc00 ≤ c.toNat ∧ c.toNat < 0xe000) := by omega
    show readUnicode (hex4 c.toNat ++ rest) = _
    simp [readUnicode, readHex4_hex4 hlow, hhigh, hlow']
  · next hbig =>
    have hhigh : 0xd800 + (c.toNat - 0x10000) / 0x400 < 0xdc00 := by omega
    have hlow : 0xdc00 + (c.toNat - 0x10000) % 0x400 < 0xe000 := by omega
    have hsum : 0x10000 + (0xd800 + (c.toNat - 0x10000) / 0x400 - 0xd800) * 0x400 +
        (0xdc00 + (c.toNat - 0x10000) % 0x400 - 0xdc00) = c.toNat := by omega
    rw [List.append_assoc]
    show readUnicode (hex4 _ ++ ('\\' :: 'u' :: (hex4 _ ++ rest))) = _
    rw [readUnicode, readHex4_hex4 (by omega), Option.bind_eq_bind, Option.bind_some]
    simp only
    rw [if_pos ⟨by omega, hhigh⟩]
    show readLowSurrogate _ _ = _
    rw [readLowSurrogate, readHex4_hex4 (by omega), Option.bind_eq_bind, Option.bind_some]
    simp only
    rw [if_pos ⟨by omega, hlow⟩, hsum, Char.ofNat_toNat]
    rfl

/-- A character is read back from its escape. -/
theorem readChar_escape (ensureAscii : Bool) (c : Char) (rest : List Char) :
    readChar (escape ensureAscii c ++ rest) = some (c, rest) := by
  unfold escape
  split
  · next h => rcases h with rfl | rfl <;> rfl
  split
  · next h => subst h; rfl
  split
  · next h => subst h; rfl
  split
  · next h => subst h; rfl
  split
  · next h =>
    have : c = Char.ofNat 0x0c := by rw [← h, Char.ofNat_toNat]
    subst this
    rfl
  split
  · next h =>
    have : c = Char.ofNat 0x08 := by rw [← h, Char.ofNat_toNat]
    subst this
    rfl
  split
  · exact readUnicode_escape c rest
  · next hmarks _ _ _ _ _ hplain =>
    rw [List.singleton_append]
    unfold readChar
    split
    · next heq => cases heq; simp at hmarks
    · next heq => cases heq; simp at hmarks
    · next heq => cases heq; simp at hmarks
    · next heq =>
      cases heq
      exact if_neg fun hlt => hplain (Or.inl hlt)
    · next heq => cases heq

/-- No escape begins with a quote. -/
theorem escape_eq_cons (ensureAscii : Bool) (c : Char) :
    ∃ d cs, escape ensureAscii c = d :: cs ∧ d ≠ '"' := by
  unfold escape
  split
  · exact ⟨_, _, rfl, by decide⟩
  split
  · exact ⟨_, _, rfl, by decide⟩
  split
  · exact ⟨_, _, rfl, by decide⟩
  split
  · exact ⟨_, _, rfl, by decide⟩
  split
  · exact ⟨_, _, rfl, by decide⟩
  split
  · exact ⟨_, _, rfl, by decide⟩
  split
  · unfold unicodeEscape
    split
    · exact ⟨_, _, rfl, by decide⟩
    · exact ⟨_, _, rfl, by decide⟩
  · next hmarks _ _ _ _ _ _ => exact ⟨_, _, rfl, fun h => hmarks (Or.inl h)⟩

/-- A string is read back from its escapes. -/
theorem readString_escape (ensureAscii : Bool) {s : List Char} (rest : List Char)
    (h : s.length < fuel) :
    readString fuel (s.flatMap (escape ensureAscii) ++ '"' :: rest) = some (s, rest) := by
  induction s generalizing fuel with
  | nil =>
    obtain ⟨fuel, rfl⟩ := Nat.exists_eq_add_of_lt h
    rfl
  | cons c s ih =>
    obtain ⟨fuel, rfl⟩ : ∃ n, fuel = n + 1 := ⟨fuel - 1, by omega⟩
    obtain ⟨d, cs, hescape, hd⟩ := escape_eq_cons ensureAscii c
    have hread := readChar_escape ensureAscii c
      (s.flatMap (escape ensureAscii) ++ '"' :: rest)
    rw [List.flatMap_cons, List.append_assoc]
    rw [hescape, List.cons_append] at hread ⊢
    rw [readString_cons hd, hread, Option.bind_some]
    simp only
    rw [ih (by simpa using h)]
    rfl

/-! ## Numbers -/

/-- What stands after a number goes on with no character of numbers. -/
def EndsNumber (rest : List Char) : Prop := ∀ c ∈ rest.head?, isNumeric c = false

section Numbers

variable {rest : List Char} (hrest : EndsNumber rest)

include hrest

private theorem head_ne {d : Char} (hd : isNumeric d = true) : ∀ c ∈ rest.head?, c ≠ d := by
  rintro c hc rfl
  rw [hrest c hc] at hd
  cases hd

private theorem head_isDigit : ∀ c ∈ rest.head?, isDigit c = false := by
  intro c hc
  have hnumeric := hrest c hc
  rw [isNumeric, Bool.or_eq_false_iff] at hnumeric
  exact hnumeric.1

theorem readDigits_append (cs : List Char) :
    readDigits (cs ++ rest) = ((readDigits cs).1, (readDigits cs).2 ++ rest) := by
  induction cs with
  | nil =>
    cases rest with
    | nil => rfl
    | cons c rest =>
      have hc : isDigit c = false := head_isDigit hrest c rfl
      simp [readDigits, hc]
  | cons c cs ih =>
    unfold readDigits at ih ⊢
    cases hc : isDigit c with
    | false => simp [hc]
    | true => simpa [hc] using ih

theorem readMinus_append (cs : List Char) :
    readMinus (cs ++ rest) = ((readMinus cs).1, (readMinus cs).2 ++ rest) := by
  have hplain : ∀ l : List Char, (∀ c ∈ l.head?, c ≠ '-') → readMinus l = ([], l) := by
    intro l hl
    unfold readMinus
    split
    · exact absurd rfl (hl '-' rfl)
    · rfl
  cases cs with
  | nil => exact hplain rest (head_ne hrest (by decide))
  | cons c cs =>
    by_cases hc : c = '-'
    · subst hc
      rfl
    · have hhead : ∀ l : List Char, ∀ d ∈ (c :: l).head?, d ≠ '-' := by
        rintro l d ⟨⟩
        exact hc
      rw [List.cons_append, hplain _ (hhead _), hplain _ (hhead _)]
      rfl

theorem readSign_append (cs : List Char) :
    readSign (cs ++ rest) = ((readSign cs).1, (readSign cs).2 ++ rest) := by
  have hplain : ∀ l : List Char, (∀ c ∈ l.head?, c ≠ '+') → readSign l = readMinus l := by
    intro l hl
    unfold readSign
    split
    · exact absurd rfl (hl '+' rfl)
    · rfl
  cases cs with
  | nil =>
    rw [List.nil_append, hplain rest (head_ne hrest (by decide))]
    exact readMinus_append hrest []
  | cons c cs =>
    by_cases hc : c = '+'
    · subst hc
      rfl
    · have hhead : ∀ l : List Char, ∀ d ∈ (c :: l).head?, d ≠ '+' := by
        rintro l d ⟨⟩
        exact hc
      rw [List.cons_append, hplain _ (hhead _), hplain _ (hhead _), ← List.cons_append,
        readMinus_append hrest]

theorem readInteger_append (cs : List Char) : readInteger (cs ++ rest) =
    (readInteger cs).map fun p => (p.1, p.2 ++ rest) := by
  have hplain : ∀ l : List Char, (∀ c ∈ l.head?, c ≠ '0') → readInteger l =
      if (readDigits l).1 = [] then none else some (readDigits l) := by
    intro l hl
    unfold readInteger
    split
    · exact absurd rfl (hl '0' rfl)
    · rfl
  cases cs with
  | nil =>
    rw [List.nil_append, hplain rest (head_ne hrest (by decide)), ← List.nil_append rest,
      readDigits_append hrest]
    rfl
  | cons c cs =>
    by_cases hc : c = '0'
    · subst hc
      rfl
    · have hhead : ∀ l : List Char, ∀ d ∈ (c :: l).head?, d ≠ '0' := by
        rintro l d ⟨⟩
        exact hc
      rw [List.cons_append, hplain _ (hhead _), hplain _ (hhead _), ← List.cons_append,
        readDigits_append hrest]
      split <;> rfl

theorem readFraction_append (cs : List Char) :
    readFraction (cs ++ rest) = ((readFraction cs).1, (readFraction cs).2 ++ rest) := by
  have hplain : ∀ l : List Char, (∀ c ∈ l.head?, c ≠ '.') → readFraction l = ([], l) := by
    intro l hl
    unfold readFraction
    split
    · exact absurd rfl (hl '.' rfl)
    · rfl
  cases cs with
  | nil => exact hplain rest (head_ne hrest (by decide))
  | cons c cs =>
    by_cases hc : c = '.'
    · subst hc
      simp only [List.cons_append, readFraction, readDigits_append hrest]
      split <;> rfl
    · have hhead : ∀ l : List Char, ∀ d ∈ (c :: l).head?, d ≠ '.' := by
        rintro l d ⟨⟩
        exact hc
      rw [List.cons_append, hplain _ (hhead _), hplain _ (hhead _)]
      rfl

theorem readExponent_append (cs : List Char) :
    readExponent (cs ++ rest) = ((readExponent cs).1, (readExponent cs).2 ++ rest) := by
  cases cs with
  | nil =>
    cases rest with
    | nil => rfl
    | cons c rest =>
      have he := head_ne hrest (d := 'e') (by decide) c rfl
      have hE := head_ne hrest (d := 'E') (by decide) c rfl
      simp [readExponent, he, hE]
  | cons c cs =>
    simp only [List.cons_append, readExponent, readSign_append hrest, readDigits_append hrest]
    split
    · split <;> rfl
    · rfl

/-- What follows a number does not change how it is read. -/
theorem readNumber_append (cs : List Char) : readNumber (cs ++ rest) =
    (readNumber cs).map fun p => (p.1, p.2 ++ rest) := by
  simp only [readNumber, readMinus_append hrest, readInteger_append hrest]
  cases readInteger (readMinus cs).2 with
  | none => rfl
  | some p => simp [readFraction_append hrest, readExponent_append hrest]

end Numbers

/-! ## Layouts -/

/-- The spaces between tokens: where lines break at a depth, behind a comma, behind a colon. -/
structure Layout where
  lineBreak : Nat → List Char
  comma : Nat → List Char
  colon : List Char
  lineBreak_blank : ∀ depth, ∀ c ∈ lineBreak depth, isWhitespace c = true
  comma_blank : ∀ depth, ∀ c ∈ comma depth, isWhitespace c = true
  colon_blank : ∀ c ∈ colon, isWhitespace c = true

namespace Layout

private theorem nil_blank : ∀ c ∈ ([] : List Char), isWhitespace c = true :=
  fun _ h => absurd h List.not_mem_nil

private theorem space_blank : ∀ c ∈ [' '], isWhitespace c = true :=
  List.forall_mem_singleton.mpr rfl

private theorem line_blank (n : Nat) :
    ∀ c ∈ '\n' :: List.replicate n ' ', isWhitespace c = true := by
  refine List.forall_mem_cons.mpr ⟨rfl, fun c hc => ?_⟩
  rw [List.eq_of_mem_replicate hc]
  rfl

/-- On one line, with a space behind a comma or a colon. -/
def oneLine : Layout where
  lineBreak _ := []
  comma _ := [' ']
  colon := [' ']
  lineBreak_blank _ := nil_blank
  comma_blank _ := space_blank
  colon_blank := space_blank

/-- Without spaces. -/
def compact : Layout where
  lineBreak _ := []
  comma _ := []
  colon := []
  lineBreak_blank _ := nil_blank
  comma_blank _ := nil_blank
  colon_blank := nil_blank

/-- Every entry on a line of its own, which is indented by its depth. -/
def indented (width : Nat) : Layout where
  lineBreak depth := '\n' :: List.replicate (width * depth) ' '
  comma depth := '\n' :: List.replicate (width * depth) ' '
  colon := [' ']
  lineBreak_blank depth := line_blank (width * depth)
  comma_blank depth := line_blank (width * depth)
  colon_blank := space_blank

/-- What stands between brackets. -/
def block (layout : Layout) (depth : Nat) (empty : Bool) (inner : List Char) : List Char :=
  if empty then [] else layout.lineBreak (depth + 1) ++ inner ++ layout.lineBreak depth

end Layout

mutual

/-- The characters of a value in a layout. -/
def write (layout : Layout) (ensureAscii : Bool) (depth : Nat) : Json → List Char
  | .arr elements => '[' :: (layout.block depth elements.isEmpty
      (writeElements layout ensureAscii (depth + 1) elements) ++ [']'])
  | .obj fields => '\x7b' :: (layout.block depth fields.isEmpty
      (writeFields layout ensureAscii (depth + 1) fields) ++ ['\x7d'])
  | .null => "null".toList
  | .bool b => if b then "true".toList else "false".toList
  | .num literal => literal.toList
  | .str s => quote ensureAscii s

/-- The elements of an array. -/
def writeElements (layout : Layout) (ensureAscii : Bool) (depth : Nat) : List Json → List Char
  | [] => []
  | [element] => element.write layout ensureAscii depth
  | element :: next :: elements =>
    element.write layout ensureAscii depth ++ ',' :: (layout.comma depth ++
      writeElements layout ensureAscii depth (next :: elements))

/-- The entries of an object. -/
def writeFields (layout : Layout) (ensureAscii : Bool) (depth : Nat) :
    List (String × Json) → List Char
  | [] => []
  | [(key, value)] =>
    quote ensureAscii key ++ ':' :: (layout.colon ++ value.write layout ensureAscii depth)
  | (key, value) :: next :: fields =>
    quote ensureAscii key ++ ':' :: (layout.colon ++ (value.write layout ensureAscii depth ++
      ',' :: (layout.comma depth ++ writeFields layout ensureAscii depth (next :: fields))))

end

mutual

/-- `json.dumps` writes on one line. -/
theorem chars_eq_write (ensureAscii : Bool) : ∀ (depth : Nat) (j : Json),
    j.chars ensureAscii = j.write .oneLine ensureAscii depth
  | _, .null => by rw [chars, write]
  | _, .bool _ => by rw [chars, write]
  | _, .num _ => by rw [chars, write]
  | _, .str _ => by rw [chars, write]
  | depth, .arr elements => by
    rw [chars, write, elementChars_eq_write ensureAscii (depth + 1) elements]
    cases elements with
    | nil => rw [writeElements]; rfl
    | cons element elements => exact congrArg _ (congrArg (· ++ [']']) (List.append_nil _).symm)
  | depth, .obj fields => by
    rw [chars, write, fieldChars_eq_write ensureAscii (depth + 1) fields]
    cases fields with
    | nil => rw [writeFields]; rfl
    | cons field fields => exact congrArg _ (congrArg (· ++ ['\x7d']) (List.append_nil _).symm)

private theorem elementChars_eq_write (ensureAscii : Bool) : ∀ (depth : Nat) (elements : List Json),
    elementChars ensureAscii elements = writeElements .oneLine ensureAscii depth elements
  | _, [] => by rw [elementChars, writeElements]
  | depth, [element] => by
    rw [elementChars, writeElements, chars_eq_write ensureAscii depth element]
  | depth, element :: next :: elements => by
    rw [elementChars, writeElements, chars_eq_write ensureAscii depth element,
      elementChars_eq_write ensureAscii depth (next :: elements), List.append_assoc]
    rfl

private theorem fieldChars_eq_write (ensureAscii : Bool) : ∀ (depth : Nat)
    (fields : List (String × Json)),
      fieldChars ensureAscii fields = writeFields .oneLine ensureAscii depth fields
  | _, [] => by rw [fieldChars, writeFields]
  | depth, [(key, value)] => by
    rw [fieldChars, writeFields, chars_eq_write ensureAscii depth value, List.append_assoc]
    rfl
  | depth, (key, value) :: next :: fields => by
    rw [fieldChars, writeFields, chars_eq_write ensureAscii depth value,
      fieldChars_eq_write ensureAscii depth (next :: fields)]
    simp only [List.append_assoc]
    rfl

end

/-! ## Values -/

mutual

/-- Literals that are numbers and objects without a key twice. -/
def Valid : Json → Prop
  | num literal => readNumber literal.toList = some (literal.toList, [])
  | arr elements => ElementsValid elements
  | obj fields => (fields.map Prod.fst).Nodup ∧ FieldsValid fields
  | _ => True

def ElementsValid : List Json → Prop
  | [] => True
  | element :: elements => element.Valid ∧ ElementsValid elements

def FieldsValid : List (String × Json) → Prop
  | [] => True
  | (_, value) :: fields => value.Valid ∧ FieldsValid fields

end

variable {fields : List (String × Json)}

theorem fieldsValid_iff : FieldsValid fields ↔ ∀ p ∈ fields, p.2.Valid := by
  induction fields with
  | nil => exact ⟨fun _ _ h => absurd h List.not_mem_nil, fun _ => trivial⟩
  | cons p fields ih =>
    obtain ⟨key, value⟩ := p
    rw [FieldsValid, ih, List.forall_mem_cons]

variable {c : Char}

theorem isDigit_of_mem_toDigits (h : c ∈ Nat.toDigits 10 n) :
    isDigit c = true := by
  have hdigit := Nat.isDigit_of_mem_toDigits (by decide) (by decide) h
  rw [Char.isDigit, Bool.and_eq_true, decide_eq_true_eq, decide_eq_true_eq] at hdigit
  rw [isDigit, Bool.and_eq_true, decide_eq_true_eq, decide_eq_true_eq]
  exact hdigit

private theorem head_toDigits (h : 0 < n) : ∀ rest, Nat.toDigits 10 n ≠ '0' :: rest := by
  induction n using Nat.strong_induction_on with
  | _ n ih =>
    intro rest
    rcases Nat.lt_or_ge n 10 with hlt | hge
    · rw [Nat.toDigits_of_lt_base hlt]
      intro he
      have hchar := (List.cons.inj he).1
      have hall : ∀ m < 10, 0 < m → Nat.digitChar m ≠ '0' := by decide
      exact hall n hlt h hchar
    · rw [Nat.toDigits_of_base_le (by decide) hge]
      obtain ⟨c, cs, hc⟩ := List.exists_cons_of_ne_nil (Nat.toDigits_ne_nil (n := n / 10) (b := 10))
      rw [hc, List.cons_append]
      intro he
      apply ih (n / 10) (by omega) (by omega) cs
      rw [hc, (List.cons.inj he).1]

private theorem readInteger_toDigits (n : Nat) :
    readInteger (Nat.toDigits 10 n) = some (Nat.toDigits 10 n, []) := by
  rcases Nat.eq_zero_or_pos n with rfl | hpos
  · rfl
  · have hall : ∀ c ∈ Nat.toDigits 10 n, isDigit c = true := fun _ => isDigit_of_mem_toDigits
    have hdigits : readDigits (Nat.toDigits 10 n) = (Nat.toDigits 10 n, []) := by
      rw [readDigits, List.takeWhile_eq_self_iff.mpr hall, List.dropWhile_eq_nil_iff.mpr hall]
    unfold readInteger
    split
    next rest heq => exact absurd heq (head_toDigits hpos rest)
    next => rw [hdigits, if_neg Nat.toDigits_ne_nil]

/-- A natural number is written as a literal. -/
theorem valid_natural (n : Nat) : (num (toString n)).Valid := by
  have hminus : readMinus (Nat.toDigits 10 n) = ([], Nat.toDigits 10 n) := by
    unfold readMinus
    split
    next rest heq =>
      have hsign := isDigit_of_mem_toDigits (n := n) (c := '-') (heq ▸ List.mem_cons_self)
      cases hsign
    next => rfl
  rw [Valid, Nat.toString_eq_ofList_toDigits, String.toList_ofList, readNumber, hminus]
  simp only [readInteger_toDigits, Option.bind_eq_bind, Option.bind_some]
  simp [readFraction, readExponent]

variable {cs rest cs' tail next key tail' : List Char}

theorem skipSpace_cons (h : isWhitespace c = false) : skipSpace (c :: cs) = c :: cs := by
  rw [skipSpace, List.dropWhile_cons, h]
  rfl

private theorem number_head {p : List Char × List Char}
    (h : readNumber cs = some p) : ∃ c tail, cs = c :: tail ∧ (c = '-' ∨ isDigit c = true) := by
  cases cs with
  | nil => cases h
  | cons c cs =>
    refine ⟨c, cs, rfl, ?_⟩
    by_cases hminus : c = '-'
    · exact Or.inl hminus
    · right
      cases hdigit : isDigit c with
      | true => rfl
      | false =>
        have hplain : readMinus (c :: cs) = ([], c :: cs) := by
          unfold readMinus
          split
          · next heq => cases heq; exact absurd rfl hminus
          · rfl
        have hinteger : readInteger (c :: cs) = none := by
          unfold readInteger
          split
          · next heq => cases heq; cases hdigit
          · simp [readDigits, hdigit]
        rw [readNumber, hplain] at h
        simp [hinteger] at h

variable {j value element : Json}

private theorem write_head (layout : Layout) (ensureAscii : Bool) (depth : Nat)
    (h : j.Valid) : ∃ c cs, j.write layout ensureAscii depth = c :: cs ∧
      isWhitespace c = false ∧ c ≠ ']' := by
  cases j with
  | null => exact ⟨_, _, by rw [write]; rfl, rfl, by decide⟩
  | bool b => cases b <;> exact ⟨_, _, by rw [write]; rfl, rfl, by decide⟩
  | num literal =>
    rw [Valid] at h
    obtain ⟨c, tail, hcons, hc⟩ := number_head h
    refine ⟨c, tail, by rw [write, hcons], ?_, ?_⟩
    · rw [Bool.eq_false_iff]
      intro hspace
      simp only [isWhitespace, Bool.or_eq_true, beq_iff_eq] at hspace
      rcases hspace with ((rfl | rfl) | rfl) | rfl <;> rcases hc with hc | hc <;> revert hc <;>
        decide
    · rintro rfl
      rcases hc with hc | hc <;> revert hc <;> decide
  | str s => exact ⟨_, _, by rw [write]; rfl, rfl, by decide⟩
  | arr elements => exact ⟨_, _, by rw [write], rfl, by decide⟩
  | obj fields => exact ⟨_, _, by rw [write], rfl, by decide⟩

theorem readValue_scalar (hquote : c ≠ '"') (hbracket : c ≠ '[') (hbrace : c ≠ '\x7b') :
    readValue (fuel + 1) (c :: cs) = readScalar (c :: cs) := by
  rw [readValue]
  · rintro cs ⟨⟩
    exact hquote rfl
  · rintro cs ⟨⟩
    exact hbracket rfl
  · rintro cs ⟨⟩
    exact hbrace rfl

private theorem readValue_num {literal : String}
    (h : readNumber literal.toList = some (literal.toList, [])) (hrest : EndsNumber rest) :
    readValue (fuel + 1) (literal.toList ++ rest) = some (num literal, rest) := by
  have happend := readNumber_append hrest literal.toList
  rw [h] at happend
  obtain ⟨c, tail, hcons, hc⟩ := number_head h
  have hne : ∀ d ∈ ['"', '[', '\x7b'], c ≠ d := by
    rintro d hd rfl
    simp only [List.mem_cons, List.not_mem_nil, or_false] at hd
    rcases hd with rfl | rfl | rfl <;> rcases hc with hc | hc <;> revert hc <;> decide
  have hscalar : readValue (fuel + 1) (literal.toList ++ rest) =
      readScalar (literal.toList ++ rest) := by
    rw [hcons, List.cons_append]
    exact readValue_scalar (hne _ (by simp)) (hne _ (by simp)) (hne _ (by simp))
  rw [hscalar, readScalar, happend]
  simp

private theorem readValue_word {word : String}
    (h : (word, value) = ("null", null) ∨ (word, value) = ("true", bool true) ∨
      (word, value) = ("false", bool false)) :
    readValue (fuel + 1) (word.toList ++ rest) = some (value, rest) := by
  have hnumber : readNumber (word.toList ++ rest) = none := by
    rcases h with h | h | h <;> cases h <;> rfl
  have hscalar : readValue (fuel + 1) (word.toList ++ rest) =
      readScalar (word.toList ++ rest) := by
    rcases h with h | h | h <;> cases h <;>
      exact readValue_scalar (by decide) (by decide) (by decide)
  rw [hscalar, readScalar, hnumber]
  rcases h with h | h | h <;> cases h <;> simp [readWord, List.dropPrefix?]

private theorem readValue_arr
    (hskip : skipSpace cs = c :: cs') (hclose : c ≠ ']') : readValue (fuel + 1) ('[' :: cs) =
      (readElements fuel (c :: cs')).map fun p => (arr p.1, p.2) := by
  simp only [readValue]
  rw [hskip]
  split
  · next heq => cases heq; exact absurd rfl hclose
  · cases readElements fuel (c :: cs') <;> rfl

private theorem readValue_obj (hskip : skipSpace cs = '"' :: cs') :
    readValue (fuel + 1) ('\x7b' :: cs) =
      (readFields fuel ('"' :: cs')).map fun p => (obj (Assoc.ofPairs p.1), p.2) := by
  simp only [readValue]
  rw [hskip]
  cases h : readFields fuel ('"' :: cs') <;> simp [h]

private theorem readElements_last
    (h : readValue fuel cs = some (element, tail)) (htail : skipSpace tail = ']' :: rest) :
    readElements (fuel + 1) cs = some ([element], rest) := by
  rw [readElements, h]
  simp only [Option.bind_eq_bind, Option.bind_some]
  rw [htail]
  rfl

private theorem readElements_next {elements : List Json}
    (h : readValue fuel cs = some (element, ',' :: tail))
    (htail : skipSpace tail = next) (hnext : readElements fuel next = some (elements, rest)) :
    readElements (fuel + 1) cs = some (element :: elements, rest) := by
  rw [readElements, h]
  show (readElements fuel (skipSpace tail)).bind _ = _
  rw [htail, hnext]
  rfl

private theorem readFields_last (hkey : readString fuel cs = some (key, ':' :: tail))
    (htail : skipSpace tail = cs') (h : readValue fuel cs' = some (value, tail'))
    (htail' : skipSpace tail' = '\x7d' :: rest) :
    readFields (fuel + 1) ('"' :: cs) = some ([(String.ofList key, value)], rest) := by
  rw [readFields, hkey]
  show (readValue fuel (skipSpace tail)).bind _ = _
  rw [htail, h]
  simp only [Option.bind_some]
  rw [htail']
  rfl

private theorem readFields_next
    (hkey : readString fuel cs = some (key, ':' :: tail)) (htail : skipSpace tail = cs')
    (h : readValue fuel cs' = some (value, ',' :: tail')) (htail' : skipSpace tail' = next)
    (hnext : readFields fuel next = some (fields, rest)) :
    readFields (fuel + 1) ('"' :: cs) = some ((String.ofList key, value) :: fields, rest) := by
  rw [readFields, hkey]
  show (readValue fuel (skipSpace tail)).bind _ = _
  rw [htail, h]
  show (readFields fuel (skipSpace tail')).bind _ = _
  rw [htail', hnext]
  rfl

theorem length_le_flatMap_escape (ensureAscii : Bool) (s : List Char) :
    s.length ≤ (s.flatMap (escape ensureAscii)).length := by
  induction s with
  | nil => exact Nat.le_refl _
  | cons c s ih =>
    obtain ⟨d, cs, hescape, -⟩ := escape_eq_cons ensureAscii c
    rw [List.flatMap_cons, List.length_append, hescape, List.length_cons, List.length_cons]
    omega

private theorem readString_quote (ensureAscii : Bool) (s : String) (fuel : Nat)
    (rest : List Char) (h : (quote ensureAscii s).length ≤ fuel + 1) :
    readString fuel ((quote ensureAscii s).tail ++ rest) = some (s.toList, rest) := by
  have hlength := length_le_flatMap_escape ensureAscii s.toList
  rw [quote, List.length_cons, List.length_append, List.length_singleton] at h
  rw [quote, List.tail_cons, List.append_assoc, List.singleton_append,
    readString_escape ensureAscii rest (by omega)]

private theorem skipSpace_append_left {blank : List Char}
    (h : ∀ c ∈ blank, isWhitespace c = true) (cs : List Char) :
    skipSpace (blank ++ cs) = skipSpace cs :=
  List.dropWhile_append_of_pos h

theorem endsNumber_of_skipSpace
    (h : skipSpace cs = c :: rest) (hc : isNumeric c = false) : EndsNumber cs := by
  rintro d hd
  cases cs with
  | nil => cases hd
  | cons e cs =>
    obtain rfl := Option.some.inj hd
    by_cases he : isWhitespace e = true
    · simp only [isWhitespace, Bool.or_eq_true, beq_iff_eq] at he
      rcases he with ((rfl | rfl) | rfl) | rfl <;> rfl
    · rw [skipSpace_cons (Bool.eq_false_iff.mpr he)] at h
      rw [(List.cons.inj h).1]
      exact hc

section Write

variable (layout : Layout) (ensureAscii : Bool)

private theorem skipSpace_write (depth : Nat) {j : Json} (h : j.Valid) (rest : List Char) :
    skipSpace (j.write layout ensureAscii depth ++ rest) =
      j.write layout ensureAscii depth ++ rest := by
  obtain ⟨c, cs, hcons, hspace, -⟩ := write_head layout ensureAscii depth h
  rw [hcons, List.cons_append, skipSpace_cons hspace]

private theorem writeElements_head (depth : Nat) {element : Json} (elements : List Json)
    (h : element.Valid) :
    ∃ c cs, writeElements layout ensureAscii depth (element :: elements) = c :: cs ∧
      isWhitespace c = false ∧ c ≠ ']' := by
  obtain ⟨c, cs, hcons, hspace, hclose⟩ := write_head layout ensureAscii depth h
  cases elements with
  | nil => exact ⟨c, cs, by rw [writeElements, hcons], hspace, hclose⟩
  | cons next elements => exact ⟨c, _, by rw [writeElements, hcons]; rfl, hspace, hclose⟩

private theorem writeFields_head (depth : Nat) (key : String) (value : Json)
    (fields : List (String × Json)) :
    ∃ cs, writeFields layout ensureAscii depth ((key, value) :: fields) = '"' :: cs := by
  cases fields with
  | nil => exact ⟨_, by rw [writeFields]; rfl⟩
  | cons next fields => exact ⟨_, by rw [writeFields]; rfl⟩

mutual

/-- A value is read back from its text, unless what follows goes on as a number. -/
theorem readValue_write : ∀ (depth : Nat) (j : Json) (fuel : Nat) {rest : List Char},
    j.Valid → (j.write layout ensureAscii depth).length ≤ fuel → EndsNumber rest →
      readValue fuel (j.write layout ensureAscii depth ++ rest) = some (j, rest)
  | depth, j, 0, rest, hvalid, hfuel, _ => by
    obtain ⟨c, cs, hcons, -⟩ := write_head layout ensureAscii depth hvalid
    rw [hcons] at hfuel
    cases hfuel
  | _, .null, fuel + 1, rest, _, _, _ => readValue_word (Or.inl rfl)
  | _, .bool true, fuel + 1, rest, _, _, _ => readValue_word (Or.inr (Or.inl rfl))
  | _, .bool false, fuel + 1, rest, _, _, _ => readValue_word (Or.inr (Or.inr rfl))
  | _, .num literal, fuel + 1, rest, hvalid, _, hrest => readValue_num hvalid hrest
  | _, .str s, fuel + 1, rest, _, hfuel, _ => by
    rw [write] at hfuel ⊢
    have hread := readString_quote ensureAscii s _ rest hfuel
    rw [quote, List.tail_cons] at hread
    rw [quote, List.cons_append, readValue, hread]
    simp
  | _, .arr [], fuel + 1, rest, _, _, _ => rfl
  | depth, .arr (element :: elements), fuel + 1, rest, hvalid, hfuel, hrest => by
    have hblock : Json.write layout ensureAscii depth (.arr (element :: elements)) =
        '[' :: (layout.lineBreak (depth + 1) ++
          (writeElements layout ensureAscii (depth + 1) (element :: elements) ++
            (layout.lineBreak depth ++ [']']))) := by
      rw [write, Layout.block]
      simp only [List.isEmpty_cons, Bool.false_eq_true, if_false, List.append_assoc]
    rw [hblock] at hfuel ⊢
    simp only [List.length_cons, List.length_append] at hfuel
    have hclose : skipSpace (layout.lineBreak depth ++ ']' :: rest) = ']' :: rest := by
      rw [skipSpace_append_left (layout.lineBreak_blank depth)]
      rfl
    have hread := readElements_write (depth + 1) element elements fuel hvalid
      (by omega) hclose
    obtain ⟨c, cs, hcons, hspace, hc⟩ :=
      writeElements_head layout ensureAscii (depth + 1) elements (hvalid.1 : element.Valid)
    rw [hcons, List.cons_append] at hread
    have hskip : skipSpace (layout.lineBreak (depth + 1) ++
        (c :: (cs ++ (layout.lineBreak depth ++ ']' :: rest)))) =
        c :: (cs ++ (layout.lineBreak depth ++ ']' :: rest)) := by
      rw [skipSpace_append_left (layout.lineBreak_blank (depth + 1)), skipSpace_cons hspace]
    rw [hcons]
    simp only [List.cons_append, List.append_assoc, List.nil_append]
    rw [readValue_arr hskip hc, hread]
    rfl
  | _, .obj [], fuel + 1, rest, _, _, _ => rfl
  | depth, .obj ((key, value) :: fields), fuel + 1, rest, hvalid, hfuel, hrest => by
    have hblock : Json.write layout ensureAscii depth (.obj ((key, value) :: fields)) =
        '\x7b' :: (layout.lineBreak (depth + 1) ++
          (writeFields layout ensureAscii (depth + 1) ((key, value) :: fields) ++
            (layout.lineBreak depth ++ ['\x7d']))) := by
      rw [write, Layout.block]
      simp only [List.isEmpty_cons, Bool.false_eq_true, if_false, List.append_assoc]
    rw [hblock] at hfuel ⊢
    simp only [List.length_cons, List.length_append] at hfuel
    have hclose : skipSpace (layout.lineBreak depth ++ '\x7d' :: rest) = '\x7d' :: rest := by
      rw [skipSpace_append_left (layout.lineBreak_blank depth)]
      rfl
    have hread := readFields_write (depth + 1) key value fields fuel hvalid.2
      (by omega) hclose
    obtain ⟨cs, hcons⟩ := writeFields_head layout ensureAscii (depth + 1) key value fields
    rw [hcons, List.cons_append] at hread
    have hskip : skipSpace (layout.lineBreak (depth + 1) ++
        ('"' :: (cs ++ (layout.lineBreak depth ++ '\x7d' :: rest)))) =
        '"' :: (cs ++ (layout.lineBreak depth ++ '\x7d' :: rest)) := by
      rw [skipSpace_append_left (layout.lineBreak_blank (depth + 1))]
      rfl
    rw [hcons]
    simp only [List.cons_append, List.append_assoc, List.nil_append]
    rw [readValue_obj hskip, hread, Option.map_some, Assoc.ofPairs_of_nodup hvalid.1]

private theorem readElements_write : ∀ (depth : Nat) (element : Json) (elements : List Json)
    (fuel : Nat) {tail rest : List Char}, ElementsValid (element :: elements) →
      (writeElements layout ensureAscii depth (element :: elements)).length < fuel →
      skipSpace tail = ']' :: rest →
      readElements fuel (writeElements layout ensureAscii depth (element :: elements) ++ tail) =
        some (element :: elements, rest)
  | _, _, _, 0, _, _, _, hfuel, _ => absurd hfuel (Nat.not_lt_zero _)
  | depth, element, [], fuel + 1, tail, rest, hvalid, hfuel, htail => by
    rw [writeElements] at hfuel ⊢
    have hends : EndsNumber tail := endsNumber_of_skipSpace htail (by decide)
    exact readElements_last (readValue_write depth element fuel hvalid.1 (by omega) hends) htail
  | depth, element, next :: elements, fuel + 1, tail, rest, hvalid, hfuel, htail => by
    rw [writeElements] at hfuel ⊢
    simp only [List.length_append, List.length_cons] at hfuel
    rw [List.append_assoc, List.cons_append, List.append_assoc]
    obtain ⟨c, cs, hcons, hspace, -⟩ :=
      writeElements_head layout ensureAscii depth elements (hvalid.2.1 : next.Valid)
    have hskip : skipSpace (layout.comma depth ++
        (writeElements layout ensureAscii depth (next :: elements) ++ tail)) =
        writeElements layout ensureAscii depth (next :: elements) ++ tail := by
      rw [skipSpace_append_left (layout.comma_blank depth), hcons, List.cons_append,
        skipSpace_cons hspace]
    have hends : EndsNumber (',' :: (layout.comma depth ++
        (writeElements layout ensureAscii depth (next :: elements) ++ tail))) :=
      endsNumber_of_skipSpace rfl rfl
    exact readElements_next (readValue_write depth element fuel hvalid.1 (by omega) hends) hskip
      (readElements_write depth next elements fuel hvalid.2 (by omega) htail)

private theorem readFields_write : ∀ (depth : Nat) (key : String) (value : Json)
    (fields : List (String × Json)) (fuel : Nat) {tail rest : List Char},
      FieldsValid ((key, value) :: fields) →
      (writeFields layout ensureAscii depth ((key, value) :: fields)).length < fuel →
      skipSpace tail = '\x7d' :: rest →
      readFields fuel (writeFields layout ensureAscii depth ((key, value) :: fields) ++ tail) =
        some ((key, value) :: fields, rest)
  | _, _, _, _, 0, _, _, _, hfuel, _ => absurd hfuel (Nat.not_lt_zero _)
  | depth, key, value, [], fuel + 1, tail, rest, hvalid, hfuel, htail => by
    rw [writeFields] at hfuel ⊢
    simp only [List.length_append, List.length_cons] at hfuel
    rw [List.append_assoc, List.cons_append, List.append_assoc]
    have hkey := readString_quote ensureAscii key fuel
      (':' :: (layout.colon ++ (value.write layout ensureAscii depth ++ tail))) (by omega)
    have hskip : skipSpace (layout.colon ++ (value.write layout ensureAscii depth ++ tail)) =
        value.write layout ensureAscii depth ++ tail := by
      rw [skipSpace_append_left layout.colon_blank, skipSpace_write layout ensureAscii depth
        hvalid.1]
    have hends : EndsNumber tail := endsNumber_of_skipSpace htail (by decide)
    have hread := readFields_last hkey hskip
      (readValue_write depth value fuel hvalid.1 (by omega) hends) htail
    rwa [String.ofList_toList] at hread
  | depth, key, value, (nextKey, nextValue) :: fields, fuel + 1, tail, rest, hvalid, hfuel,
      htail => by
    rw [writeFields] at hfuel ⊢
    simp only [List.length_append, List.length_cons] at hfuel
    simp only [List.append_assoc, List.cons_append]
    obtain ⟨cs, hcons⟩ := writeFields_head layout ensureAscii depth nextKey nextValue fields
    have hnext := readFields_write depth nextKey nextValue fields fuel hvalid.2
      (by omega) htail
    have hkey := readString_quote ensureAscii key fuel
      (':' :: (layout.colon ++ (value.write layout ensureAscii depth ++ ',' ::
        (layout.comma depth ++
          (writeFields layout ensureAscii depth ((nextKey, nextValue) :: fields) ++ tail)))))
      (by omega)
    have hvalue := skipSpace_write layout ensureAscii depth hvalid.1 (',' ::
      (layout.comma depth ++
        (writeFields layout ensureAscii depth ((nextKey, nextValue) :: fields) ++ tail)))
    rw [← skipSpace_append_left layout.colon_blank] at hvalue
    have hskip : skipSpace (layout.comma depth ++
        (writeFields layout ensureAscii depth ((nextKey, nextValue) :: fields) ++ tail)) =
        writeFields layout ensureAscii depth ((nextKey, nextValue) :: fields) ++ tail := by
      rw [skipSpace_append_left (layout.comma_blank depth), hcons]
      rfl
    have hread := readFields_next hkey hvalue
      (readValue_write depth value fuel hvalid.1 (by omega) (endsNumber_of_skipSpace rfl rfl))
      hskip hnext
    rwa [String.ofList_toList] at hread

end

/-- What is written in any layout is read back. -/
theorem loads_write (depth : Nat) {j : Json} (h : j.Valid) :
    loads (j.write layout ensureAscii depth) = some j := by
  have hspace := skipSpace_write layout ensureAscii depth h []
  have hends : EndsNumber [] := by
    rintro c ⟨⟩
  have hread := readValue_write layout ensureAscii depth j
    ((j.write layout ensureAscii depth).length + 1) h (by omega) hends
  rw [List.append_nil] at hspace hread
  rw [loads, hspace, hread]
  rfl

end Write

/-- What is written is read back. -/
theorem loads_chars (ensureAscii : Bool) (h : j.Valid) : loads (j.chars ensureAscii) = some j := by
  rw [chars_eq_write ensureAscii 0 j]
  exact loads_write .oneLine ensureAscii 0 h

end PlatformSpec.Base.Json
