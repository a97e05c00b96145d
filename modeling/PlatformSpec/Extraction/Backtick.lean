import PlatformSpec.Base.JsonRoundTrip
import PlatformSpec.Base.Text

/-!
# Backticks in JSON texts

A backtick of a JSON text stands inside a string. Read from there on, what was outside the strings
of the text is inside those of the value, so that no string of the value holds a backtick.
-/

namespace PlatformSpec.Extraction

open Base Json

/-- Where a character of a JSON text stands. -/
inductive Place where
  | outside
  | inside
  | escaped

/-- The place after a character; `none` where the text of a value cannot have it. -/
def Place.next : Place → Char → Option Place
  | .outside, c =>
    if c = '"' then some .inside else if c = '`' ∨ c = '\\' then none else some .outside
  | .inside, c =>
    if c = '"' then some .outside else if c = '\\' then some .escaped else some .inside
  | .escaped, c => if c = '`' then none else some .inside

/-- The place after a text. -/
def Place.scan (place : Place) (cs : List Char) : Option Place := cs.foldlM Place.next place

namespace Place

variable {place : Place} {cs l rest : List Char} {q : Place} {c : Char}

theorem scan_cons : place.scan (c :: cs) = (place.next c).bind (·.scan cs) := by
  rw [scan, List.foldlM_cons]
  rfl

theorem scan_append : place.scan (l ++ cs) = (place.scan l).bind (·.scan cs) := by
  rw [scan, List.foldlM_append]
  rfl

/-- Characters that change nothing outside of strings. -/
def isPlain (c : Char) : Bool := c != '"' && c != '`' && c != '\\'

theorem next_outside (h : isPlain c = true) : outside.next c = some outside := by
  simp only [isPlain, Bool.and_eq_true, bne_iff_ne] at h
  simp [next, h]

theorem next_inside (h : isPlain c = true) : inside.next c = some inside := by
  simp only [isPlain, Bool.and_eq_true, bne_iff_ne] at h
  simp [next, h]

theorem scan_outside_plain (h : ∀ c ∈ l, isPlain c = true) : outside.scan l = some outside := by
  induction l with
  | nil => rfl
  | cons c l ih =>
    rw [List.forall_mem_cons] at h
    rw [scan_cons, next_outside h.1, Option.bind_some, ih h.2]

theorem scan_inside_plain (h : ∀ c ∈ l, isPlain c = true) : inside.scan l = some inside := by
  induction l with
  | nil => rfl
  | cons c l ih =>
    rw [List.forall_mem_cons] at h
    rw [scan_cons, next_inside h.1, Option.bind_some, ih h.2]

end Place

open Place

/-! ## The text of a value -/

private theorem plain_hex4 (n : Nat) : ∀ c ∈ hex4 n, isPlain c = true := by
  have hdigit : ∀ d < 16, isPlain d.digitChar = true := by decide
  unfold hex4
  intro c hc
  simp only [List.mem_cons, List.not_mem_nil, or_false] at hc
  rcases hc with rfl | rfl | rfl | rfl <;> exact hdigit _ (Nat.mod_lt _ (by decide))

private theorem scan_inside_unicode (c : Char) : inside.scan (unicodeEscape c) = some inside := by
  have hmark : ∀ n, inside.scan ('\\' :: 'u' :: hex4 n) = some inside := by
    intro n
    rw [scan_cons]
    show Place.escaped.scan ('u' :: hex4 n) = _
    rw [scan_cons]
    exact scan_inside_plain (plain_hex4 n)
  unfold unicodeEscape
  split
  · exact hmark _
  · rw [scan_append, hmark, Option.bind_some, hmark]

private theorem scan_inside_escape (ensureAscii : Bool) (c : Char) :
    inside.scan (escape ensureAscii c) = some inside := by
  unfold escape
  split
  · next h => rcases h with rfl | rfl <;> rfl
  split
  · rfl
  split
  · rfl
  split
  · rfl
  split
  · rfl
  split
  · rfl
  split
  · exact scan_inside_unicode c
  · next hmarks _ _ _ _ _ _ =>
    rw [not_or] at hmarks
    simp [scan, next, hmarks]

private theorem scan_quote (ensureAscii : Bool) (s : String) :
    outside.scan (quote ensureAscii s) = some outside := by
  have hinside : ∀ l : List Char, inside.scan (l.flatMap (escape ensureAscii)) = some inside := by
    intro l
    induction l with
    | nil => rfl
    | cons c l ih =>
      rw [List.flatMap_cons, scan_append, scan_inside_escape, Option.bind_some, ih]
  rw [quote, scan_cons]
  show inside.scan _ = _
  rw [scan_append, hinside]
  rfl

theorem plain_of_numeric {c : Char} (h : isNumeric c = true) : isPlain c = true := by
  simp only [isPlain, Bool.and_eq_true, bne_iff_ne]
  refine ⟨⟨?_, ?_⟩, ?_⟩ <;> (rintro rfl; revert h; decide)

mutual

theorem scan_chars (ensureAscii : Bool) : ∀ j : Json, j.Valid →
    outside.scan (j.chars ensureAscii) = some outside
  | .null, _ => rfl
  | .bool true, _ => rfl
  | .bool false, _ => rfl
  | .num literal, h => scan_outside_plain fun c hc => plain_of_numeric ((readNumber_spec h).2 c hc)
  | .str s, _ => scan_quote ensureAscii s
  | .arr elements, h => by
    rw [chars, scan_cons]
    show outside.scan (elementChars ensureAscii elements ++ [']']) = _
    rw [scan_append, scan_elementChars ensureAscii elements h]
    rfl
  | .obj fields, h => by
    rw [chars, scan_cons]
    show outside.scan (fieldChars ensureAscii fields ++ ['\x7d']) = _
    rw [scan_append, scan_fieldChars ensureAscii fields h.2]
    rfl

theorem scan_elementChars (ensureAscii : Bool) : ∀ elements : List Json,
    ElementsValid elements → outside.scan (elementChars ensureAscii elements) = some outside
  | [], _ => rfl
  | [element], h => by
    rw [elementChars]
    exact scan_chars ensureAscii element h.1
  | element :: next :: elements, h => by
    rw [elementChars, scan_append, scan_append, scan_chars ensureAscii element h.1]
    exact scan_elementChars ensureAscii (next :: elements) h.2

theorem scan_fieldChars (ensureAscii : Bool) : ∀ fields : List (String × Json),
    FieldsValid fields → outside.scan (fieldChars ensureAscii fields) = some outside
  | [], _ => rfl
  | [(key, value)], h => by
    rw [fieldChars, scan_append, scan_append, scan_quote]
    exact scan_chars ensureAscii value h.1
  | (key, value) :: next :: fields, h => by
    rw [fieldChars, scan_append, scan_append, scan_append, scan_append, scan_quote,
      Option.bind_some, scan_outside_plain (forall_of_all (by decide)), Option.bind_some,
      scan_chars ensureAscii value h.1]
    exact scan_fieldChars ensureAscii (next :: fields) h.2

end

/-! ## Reading from inside a string -/

/-- No string and no literal of a value holds a backtick. -/
def NoBacktick (j : Json) : Prop := ∀ t ∈ j.texts, '`' ∉ t.toList

variable {elements : List Json}

theorem mem_elementTexts {t : String} :
    t ∈ elementTexts elements ↔ ∃ element ∈ elements, t ∈ element.texts := by
  induction elements with
  | nil => simp [elementTexts]
  | cons element elements ih => simp [elementTexts, ih]

variable {fields : List (String × Json)}

theorem mem_fieldTexts {t : String} :
    t ∈ fieldTexts fields ↔ ∃ p ∈ fields, t = p.1 ∨ t ∈ p.2.texts := by
  induction fields with
  | nil => simp [fieldTexts]
  | cons p fields ih => simp [fieldTexts, ih, or_assoc]

private theorem noBacktick_arr :
    NoBacktick (.arr elements) ↔ ∀ element ∈ elements, NoBacktick element := by
  simp only [NoBacktick, texts, mem_elementTexts]
  exact ⟨fun h e he t ht => h t ⟨e, he, ht⟩, fun h t ⟨e, he, ht⟩ => h e he t ht⟩

private theorem noBacktick_obj :
    NoBacktick (.obj fields) ↔ ∀ p ∈ fields, '`' ∉ p.1.toList ∧ NoBacktick p.2 := by
  simp only [NoBacktick, texts, mem_fieldTexts]
  constructor
  · exact fun h p hp => ⟨h p.1 ⟨p, hp, Or.inl rfl⟩, fun t ht => h t ⟨p, hp, Or.inr ht⟩⟩
  · rintro h t ⟨p, hp, rfl | ht⟩
    · exact (h p hp).1
    · exact (h p hp).2 t ht

private theorem scan_skipSpace (h : inside.scan cs = some q) :
    inside.scan (skipSpace cs) = some q := by
  have hplain : inside.scan (cs.takeWhile isWhitespace) = some inside := by
    refine scan_inside_plain fun c hc => ?_
    have hspace : isWhitespace c = true := List.all_eq_true.mp List.all_takeWhile c hc
    simp only [isPlain, Bool.and_eq_true, bne_iff_ne]
    refine ⟨⟨?_, ?_⟩, ?_⟩ <;> (rintro rfl; revert hspace; decide)
  rw [← List.takeWhile_append_dropWhile (p := isWhitespace) (l := cs), scan_append, hplain] at h
  exact h

theorem scan_inside_cons (hc : isPlain c = true) (h : inside.scan (c :: cs) = some q) :
    inside.scan cs = some q := by
  rwa [scan_cons, next_inside hc] at h

variable {fuel : Nat}

private theorem readString_mirror {p : List Char × List Char}
    (hscan : outside.scan cs = some q) (h : readString fuel cs = some p) :
    '`' ∉ p.1 ∧ inside.scan p.2 = some q := by
  induction fuel generalizing cs p with
  | zero => cases h
  | succ fuel ih =>
    cases cs with
    | nil => cases h
    | cons d cs =>
      by_cases hd : d = '"'
      · subst hd
        cases h
        exact ⟨List.not_mem_nil, hscan⟩
      · rw [scan_cons, next, if_neg hd] at hscan
        split at hscan
        · cases hscan
        · next hmarks =>
          rw [not_or] at hmarks
          have hplain : readChar (d :: cs) = if d.toNat < 0x20 then none else some (d, cs) := by
            unfold readChar
            split <;> simp_all
          rw [readString_cons hd, hplain] at h
          split at h
          · cases h
          · rw [Option.bind_some, Option.map_eq_some_iff] at h
            obtain ⟨p', hstring, rfl⟩ := h
            obtain ⟨hnot, hrest⟩ := ih hscan hstring
            exact ⟨by simp [hnot, Ne.symm hmarks.1], hrest⟩

variable {p : Json × List Char}

private theorem readWord_mirror (hscan : inside.scan cs = some q)
    (h : readWord cs = some p) : NoBacktick p.1 ∧ inside.scan p.2 = some q := by
  obtain ⟨⟨word, value⟩, hmem, hword⟩ := List.exists_of_findSome?_eq_some h
  obtain ⟨rest, hdrop, rfl⟩ := Option.map_eq_some_iff.mp hword
  rw [List.dropPrefix?_eq_some_iff] at hdrop
  obtain ⟨front, rfl, hfront⟩ := hdrop
  rw [beq_iff_eq] at hfront
  subst hfront
  have hplain : (∀ c ∈ word.toList, isPlain c = true) ∧ NoBacktick value := by
    simp only [List.mem_cons, List.not_mem_nil, or_false] at hmem
    unfold NoBacktick
    rcases hmem with hm | hm | hm | hm | hm | hm <;> cases hm <;>
      exact ⟨forall_of_all (by decide), by decide⟩
  rw [scan_append, scan_inside_plain hplain.1] at hscan
  exact ⟨hplain.2, hscan⟩

private theorem readScalar_mirror (hscan : inside.scan cs = some q)
    (h : readScalar cs = some p) : NoBacktick p.1 ∧ inside.scan p.2 = some q := by
  unfold readScalar at h
  split at h
  · next literal rest hnumber =>
    cases h
    obtain ⟨hcs, hnumeric⟩ := readNumber_spec hnumber
    have hplain : ∀ c ∈ literal, isPlain c = true := fun c hc => plain_of_numeric (hnumeric c hc)
    rw [hcs, scan_append, scan_inside_plain hplain] at hscan
    refine ⟨?_, hscan⟩
    simp only [NoBacktick, texts, List.forall_mem_singleton, String.toList_ofList]
    exact fun hmem => absurd (hplain _ hmem) (by decide)
  · exact readWord_mirror hscan h

/-- The readers of values, elements and entries, from inside a string of a text. -/
private structure Mirror (fuel : Nat) : Prop where
  value : ∀ {cs q p}, inside.scan cs = some q → readValue fuel cs = some p →
    NoBacktick p.1 ∧ inside.scan p.2 = some q
  elements : ∀ {cs q p}, inside.scan cs = some q → readElements fuel cs = some p →
    (∀ element ∈ p.1, NoBacktick element) ∧ inside.scan p.2 = some q
  fields : ∀ {cs q p}, inside.scan cs = some q → readFields fuel cs = some p →
    (∀ field ∈ p.1, '`' ∉ field.1.toList ∧ NoBacktick field.2) ∧ inside.scan p.2 = some q

private theorem value_mirror (ih : Mirror fuel)
    (hscan : inside.scan cs = some q) (h : readValue (fuel + 1) cs = some p) :
    NoBacktick p.1 ∧ inside.scan p.2 = some q := by
  unfold readValue at h
  split at h
  · cases ‹_›
  · next heq =>
    cases heq
    simp only [Option.bind_eq_bind, Option.bind_eq_some_iff, Option.pure_def] at h
    obtain ⟨⟨s, rest⟩, hstring, hp⟩ := h
    cases hp
    obtain ⟨hnot, hrest⟩ := readString_mirror hscan hstring
    refine ⟨?_, hrest⟩
    simpa [NoBacktick, texts] using hnot
  · next heq =>
    cases heq
    have hskip := scan_skipSpace (scan_inside_cons (by rfl) hscan)
    split at h
    · next heq =>
      cases h
      rw [heq] at hskip
      exact ⟨by simp [NoBacktick, texts, elementTexts], scan_inside_cons (by rfl) hskip⟩
    · simp only [Option.bind_eq_bind, Option.bind_eq_some_iff, Option.pure_def] at h
      obtain ⟨⟨elements, rest⟩, hread, hp⟩ := h
      cases hp
      obtain ⟨hnot, hrest⟩ := ih.elements hskip hread
      exact ⟨noBacktick_arr.mpr hnot, hrest⟩
  · next heq =>
    cases heq
    have hskip := scan_skipSpace (scan_inside_cons (by rfl) hscan)
    split at h
    · next heq =>
      cases h
      rw [heq] at hskip
      exact ⟨by simp [NoBacktick, texts, fieldTexts], scan_inside_cons (by rfl) hskip⟩
    · simp only [Option.bind_eq_bind, Option.bind_eq_some_iff, Option.pure_def] at h
      obtain ⟨⟨fields, rest⟩, hread, hp⟩ := h
      cases hp
      obtain ⟨hnot, hrest⟩ := ih.fields hskip hread
      exact ⟨noBacktick_obj.mpr fun p hp => hnot p (Assoc.mem_ofPairs hp), hrest⟩
  · exact readScalar_mirror hscan h

private theorem elements_mirror (ih : Mirror fuel) {p : List Json × List Char}
    (hscan : inside.scan cs = some q) (h : readElements (fuel + 1) cs = some p) :
    (∀ element ∈ p.1, NoBacktick element) ∧ inside.scan p.2 = some q := by
  rw [readElements] at h
  simp only [Option.bind_eq_bind, Option.bind_eq_some_iff, Option.pure_def] at h
  obtain ⟨⟨element, rest⟩, hvalue, h⟩ := h
  obtain ⟨hnot, hrest⟩ := ih.value hscan hvalue
  have hskip := scan_skipSpace hrest
  simp only at h
  split at h
  · next heq =>
    cases h
    rw [heq] at hskip
    exact ⟨List.forall_mem_singleton.mpr hnot, scan_inside_cons (by rfl) hskip⟩
  · next heq =>
    simp only [Option.bind_eq_some_iff] at h
    obtain ⟨⟨elements, rest'⟩, hread, hp⟩ := h
    cases hp
    rw [heq] at hskip
    obtain ⟨hmore, hend⟩ := ih.elements (scan_skipSpace (scan_inside_cons (by rfl) hskip)) hread
    exact ⟨List.forall_mem_cons.mpr ⟨hnot, hmore⟩, hend⟩
  · cases h

private theorem fields_mirror (ih : Mirror fuel) {p : List (String × Json) × List Char}
    (hscan : inside.scan cs = some q) (h : readFields (fuel + 1) cs = some p) :
    (∀ field ∈ p.1, '`' ∉ field.1.toList ∧ NoBacktick field.2) ∧ inside.scan p.2 = some q := by
  obtain ⟨cs, rfl⟩ := quote_of_readFields h
  rw [readFields] at h
  simp only [Option.bind_eq_bind, Option.bind_eq_some_iff, Option.pure_def] at h
  obtain ⟨⟨key, rest⟩, hkey, h⟩ := h
  obtain ⟨hnotKey, hrest⟩ := readString_mirror hscan hkey
  have hskip := scan_skipSpace hrest
  simp only at h
  split at h
  · next heq =>
    rw [heq] at hskip
    simp only [Option.bind_eq_some_iff] at h
    obtain ⟨⟨value, rest'⟩, hvalue, h⟩ := h
    obtain ⟨hnot, hrest⟩ := ih.value (scan_skipSpace (scan_inside_cons (by rfl) hskip)) hvalue
    have hskip := scan_skipSpace hrest
    have hfield : '`' ∉ (String.ofList key).toList ∧ NoBacktick value := by
      rw [String.toList_ofList]
      exact ⟨hnotKey, hnot⟩
    simp only at h
    split at h
    · next heq =>
      cases h
      rw [heq] at hskip
      exact ⟨List.forall_mem_singleton.mpr hfield, scan_inside_cons (by rfl) hskip⟩
    · next heq =>
      simp only [Option.bind_eq_some_iff] at h
      obtain ⟨⟨fields, rest''⟩, hread, hp⟩ := h
      cases hp
      rw [heq] at hskip
      obtain ⟨hmore, hend⟩ := ih.fields (scan_skipSpace (scan_inside_cons (by rfl) hskip)) hread
      exact ⟨List.forall_mem_cons.mpr ⟨hfield, hmore⟩, hend⟩
    · cases h
  · cases h

private theorem mirror (fuel : Nat) : Mirror fuel := by
  induction fuel with
  | zero =>
    constructor
    · intro cs q p _ h
      cases h
    · intro cs q p _ h
      cases h
    · intro cs q p _ h
      rw [readFields] at h
      · cases h
      · rintro fuel cs ⟨⟩
  | succ fuel ih =>
    exact ⟨fun hscan h => value_mirror ih hscan h, fun hscan h => elements_mirror ih hscan h,
      fun hscan h => fields_mirror ih hscan h⟩

theorem noBacktick_of_inside {v : Json} (hscan : inside.scan cs = some q)
    (h : loads cs = some v) : NoBacktick v := by
  simp only [loads, Option.bind_eq_bind, Option.bind_eq_some_iff] at h
  obtain ⟨⟨value, rest⟩, hread, h⟩ := h
  split at h
  · cases h
    exact ((mirror _).value (scan_skipSpace hscan) hread).1
  · cases h

/-! ## Backticks of a text -/

private theorem backtick_mem_escape {ensureAscii : Bool} (h : '`' ∈ escape ensureAscii c) :
    c = '`' := by
  have hhex : ∀ n, '`' ∉ hex4 n := fun n hn => absurd (plain_hex4 n _ hn) (by decide)
  have hunicode : '`' ∉ unicodeEscape c := by
    unfold unicodeEscape
    split <;> simp [hhex]
  unfold escape at h
  split at h
  · next hc => rcases hc with rfl | rfl <;> simp at h
  split at h
  · simp at h
  split at h
  · simp at h
  split at h
  · simp at h
  split at h
  · simp at h
  split at h
  · simp at h
  split at h
  · exact absurd h hunicode
  · exact (List.mem_singleton.mp h).symm

private theorem backtick_mem_quote {ensureAscii : Bool} {s : String}
    (h : '`' ∈ quote ensureAscii s) : '`' ∈ s.toList := by
  simp only [quote, List.mem_cons, List.mem_append, List.mem_flatMap, List.not_mem_nil,
    or_false] at h
  rcases h with h | ⟨c, hc, h⟩ | h
  · cases h
  · rwa [backtick_mem_escape h] at hc
  · cases h

mutual

theorem backtick_mem_chars (ensureAscii : Bool) : ∀ j : Json,
    '`' ∈ j.chars ensureAscii → ∃ t ∈ j.texts, '`' ∈ t.toList
  | .null, h => by simp [chars] at h
  | .bool b, h => by cases b <;> simp [chars] at h
  | .num literal, h => ⟨literal, List.mem_cons_self, h⟩
  | .str s, h => ⟨s, List.mem_cons_self, backtick_mem_quote h⟩
  | .arr elements, h => by
    rw [chars] at h
    simp only [List.mem_cons, List.mem_append, List.not_mem_nil, or_false] at h
    rcases h with h | h | h
    · cases h
    · exact backtick_mem_elementChars ensureAscii elements h
    · cases h
  | .obj fields, h => by
    rw [chars] at h
    simp only [List.mem_cons, List.mem_append, List.not_mem_nil, or_false] at h
    rcases h with h | h | h
    · cases h
    · exact backtick_mem_fieldChars ensureAscii fields h
    · cases h

theorem backtick_mem_elementChars (ensureAscii : Bool) : ∀ elements : List Json,
    '`' ∈ elementChars ensureAscii elements → ∃ t ∈ elementTexts elements, '`' ∈ t.toList
  | [], h => by cases h
  | [element], h => by
    rw [elementChars] at h
    obtain ⟨t, ht, hmem⟩ := backtick_mem_chars ensureAscii element h
    exact ⟨t, List.mem_append_left _ ht, hmem⟩
  | element :: next :: elements, h => by
    rw [elementChars, List.mem_append, List.mem_append] at h
    rcases h with (h | h) | h
    · obtain ⟨t, ht, hmem⟩ := backtick_mem_chars ensureAscii element h
      exact ⟨t, List.mem_append_left _ ht, hmem⟩
    · exact absurd h (by decide)
    · obtain ⟨t, ht, hmem⟩ := backtick_mem_elementChars ensureAscii (next :: elements) h
      exact ⟨t, List.mem_append_right _ ht, hmem⟩

theorem backtick_mem_fieldChars (ensureAscii : Bool) : ∀ fields : List (String × Json),
    '`' ∈ fieldChars ensureAscii fields → ∃ t ∈ fieldTexts fields, '`' ∈ t.toList
  | [], h => by cases h
  | [(key, value)], h => by
    rw [fieldChars, List.mem_append, List.mem_append] at h
    rcases h with (h | h) | h
    · exact ⟨key, List.mem_cons_self, backtick_mem_quote h⟩
    · exact absurd h (by decide)
    · obtain ⟨t, ht, hmem⟩ := backtick_mem_chars ensureAscii value h
      exact ⟨t, List.mem_cons_of_mem _ (List.mem_append_left _ ht), hmem⟩
  | (key, value) :: next :: fields, h => by
    rw [fieldChars, List.mem_append, List.mem_append, List.mem_append, List.mem_append] at h
    rcases h with (((h | h) | h) | h) | h
    · exact ⟨key, List.mem_cons_self, backtick_mem_quote h⟩
    · exact absurd h (by decide)
    · obtain ⟨t, ht, hmem⟩ := backtick_mem_chars ensureAscii value h
      exact ⟨t, List.mem_cons_of_mem _ (List.mem_append_left _ ht), hmem⟩
    · exact absurd h (by decide)
    · obtain ⟨t, ht, hmem⟩ := backtick_mem_fieldChars ensureAscii (next :: fields) h
      exact ⟨t, List.mem_cons_of_mem _ (List.mem_append_right _ ht), hmem⟩

end

end PlatformSpec.Extraction
