import PlatformSpec.Base.JsonRoundTrip

/-!
# Reading on

What is read of a text is read of every longer text, so that no beginning of the text of an object
is the text of an object.
-/

namespace PlatformSpec.Base.Json

variable {cs : List Char} {fuel fuel' : Nat} {tail : List Char} {c : Char}

theorem skipSpace_append (h : skipSpace cs = c :: tail)
    (more : List Char) : skipSpace (cs ++ more) = c :: (tail ++ more) := by
  rw [skipSpace, List.dropWhile_append, ← skipSpace, h]
  simp

theorem skipSpace_append_of_ne (h : skipSpace cs ≠ []) (more : List Char) :
    skipSpace (cs ++ more) = skipSpace cs ++ more := by
  obtain ⟨c, tail, hcons⟩ := List.exists_cons_of_ne_nil h
  rw [skipSpace_append hcons, hcons, List.cons_append]

theorem readHex4_append {p : Nat × List Char} (h : readHex4 cs = some p)
    (more : List Char) : readHex4 (cs ++ more) = some (p.1, p.2 ++ more) := by
  unfold readHex4 at h
  split at h
  · simp only [Option.bind_eq_bind, Option.bind_eq_some_iff, Option.pure_def] at h
    obtain ⟨a, ha, b, hb, c, hc, d, hd, hp⟩ := h
    cases hp
    simp [readHex4, ha, hb, hc, hd]
  · cases h

theorem readLowSurrogate_append {high : Nat} {p : Char × List Char}
    (h : readLowSurrogate high cs = some p) (more : List Char) :
    readLowSurrogate high (cs ++ more) = some (p.1, p.2 ++ more) := by
  unfold readLowSurrogate at h
  split at h
  · simp only [Option.bind_eq_bind, Option.bind_eq_some_iff, Option.pure_def] at h
    obtain ⟨⟨low, rest⟩, hlow, h⟩ := h
    split at h
    next hrange =>
      obtain rfl := Option.some.inj h
      rw [List.cons_append, List.cons_append, readLowSurrogate, readHex4_append hlow more,
        Option.bind_eq_bind, Option.bind_some]
      dsimp only
      rw [if_pos hrange]
      rfl
    next => cases h
  · cases h

theorem readUnicode_append {p : Char × List Char} (h : readUnicode cs = some p)
    (more : List Char) : readUnicode (cs ++ more) = some (p.1, p.2 ++ more) := by
  simp only [readUnicode, Option.bind_eq_bind, Option.bind_eq_some_iff, Option.pure_def] at h
  obtain ⟨⟨unit, rest⟩, hunit, h⟩ := h
  rw [readUnicode, readHex4_append hunit more, Option.bind_eq_bind, Option.bind_some]
  dsimp only at h ⊢
  split at h
  next hhigh =>
    rw [if_pos hhigh]
    exact readLowSurrogate_append h more
  next hhigh =>
    rw [if_neg hhigh]
    split at h
    next => cases h
    next hlow =>
      cases h
      rw [if_neg hlow]
      rfl

theorem readChar_append {p : Char × List Char} (h : readChar cs = some p)
    (more : List Char) : readChar (cs ++ more) = some (p.1, p.2 ++ more) := by
  unfold readChar at h
  split at h
  next => exact readUnicode_append h more
  next c cs hu =>
    obtain ⟨d, hd, rfl⟩ := Option.map_eq_some_iff.mp h
    rw [List.cons_append, List.cons_append, readChar, hd]
    · rfl
    · exact hu
  next => cases h
  next c cs hu hescape hlone =>
    split at h
    next => cases h
    next hcontrol =>
      cases h
      have hc : c ≠ '\\' := by
        rintro rfl
        cases cs with
        | nil => exact hlone rfl rfl
        | cons d cs => exact hescape d cs rfl rfl
      rw [List.cons_append, readChar, if_neg hcontrol]
      · exact fun _ h => absurd h hc
      · exact fun _ _ h => absurd h hc
      · exact fun h => absurd h hc
  next => cases h

theorem readString_append {p : List Char × List Char} (h : readString fuel cs = some p)
    (hfuel : fuel ≤ fuel') (more : List Char) :
    readString fuel' (cs ++ more) = some (p.1, p.2 ++ more) := by
  induction fuel generalizing cs p fuel' with
  | zero => cases h
  | succ fuel ih =>
    obtain ⟨fuel', rfl⟩ := Nat.exists_eq_add_of_lt hfuel
    cases cs with
    | nil => cases h
    | cons d cs =>
      by_cases hd : d = '"'
      · subst hd
        cases h
        rfl
      · rw [readString_cons hd, Option.bind_eq_some_iff] at h
        obtain ⟨⟨c, rest⟩, hchar, h⟩ := h
        obtain ⟨p', hstring, rfl⟩ := Option.map_eq_some_iff.mp h
        have hmore := readChar_append hchar more
        rw [List.cons_append] at hmore ⊢
        rw [readString_cons hd, hmore, Option.bind_some]
        dsimp only
        rw [ih hstring (by omega)]
        rfl

/-! ## Scalars -/

variable {p : Json × List Char}

theorem findSome_append {words : List (String × Json)}
    (hwords : words.Pairwise fun a b => ¬ a.1.toList <+: b.1.toList ∧ ¬ b.1.toList <+: a.1.toList)
    (h : words.findSome? (fun w =>
      (cs.dropPrefix? w.1.toList).map fun rest => (w.2, rest)) = some p)
    (more : List Char) :
    words.findSome? (fun w => ((cs ++ more).dropPrefix? w.1.toList).map fun rest => (w.2, rest)) =
      some (p.1, p.2 ++ more) := by
  induction words with
  | nil => cases h
  | cons w words ih =>
    obtain ⟨hfirst, hrest⟩ := List.pairwise_cons.mp hwords
    rw [List.findSome?_cons] at h ⊢
    cases hdrop : cs.dropPrefix? w.1.toList with
    | some rest =>
      rw [hdrop] at h
      cases h
      obtain ⟨front, rfl, hfront⟩ := List.dropPrefix?_eq_some_iff.mp hdrop
      have hmore : (front ++ rest ++ more).dropPrefix? w.1.toList = some (rest ++ more) :=
        List.dropPrefix?_eq_some_iff.mpr ⟨front, List.append_assoc _ _ _, hfront⟩
      rw [hmore]
      rfl
    | none =>
      rw [hdrop] at h
      have hnone : (cs ++ more).dropPrefix? w.1.toList = none := by
        by_contra hsome
        obtain ⟨rest', hrest'⟩ := Option.ne_none_iff_exists'.mp hsome
        obtain ⟨front, hfront, hw⟩ := List.dropPrefix?_eq_some_iff.mp hrest'
        obtain ⟨v, hmem, hfound⟩ := List.exists_of_findSome?_eq_some h
        obtain ⟨rest, hrest, rfl⟩ := Option.map_eq_some_iff.mp hfound
        obtain ⟨front', rfl, hv'⟩ := List.dropPrefix?_eq_some_iff.mp hrest
        obtain rfl := eq_of_beq hw
        obtain rfl := eq_of_beq hv'
        have hw : w.1.toList <+: v.1.toList ++ rest ++ more := ⟨rest', hfront.symm⟩
        have hv : v.1.toList <+: v.1.toList ++ rest ++ more :=
          ⟨rest ++ more, (List.append_assoc _ _ _).symm⟩
        have hboth := List.prefix_or_prefix_of_prefix hw hv
        exact hboth.elim (hfirst v hmem).1 (hfirst v hmem).2
      rw [hnone]
      exact ih hrest h

theorem readScalar_append (h : readScalar cs = some p)
    (hrest : p.2 = c :: tail) (hc : isNumeric c = false)
    (more : List Char) : readScalar (cs ++ more) = some (p.1, p.2 ++ more) := by
  unfold readScalar at h
  split at h
  next literal rest hnumber =>
    cases h
    obtain ⟨hcs, -⟩ := readNumber_spec hnumber
    dsimp only at hcs hrest
    subst hrest
    have hends : EndsNumber (c :: tail) := by
      rintro d ⟨⟩
      exact hc
    have hends' : EndsNumber (c :: tail ++ more) := by
      rintro d ⟨⟩
      exact hc
    -- the literal is read as a whole, whatever follows it
    have hliteral : readNumber literal = some (literal, []) := by
      have happend := readNumber_append hends literal
      rw [← hcs, hnumber] at happend
      obtain ⟨p, hp, hpair⟩ := Option.map_eq_some_iff.mp happend.symm
      obtain ⟨h1, h2⟩ := Prod.mk.inj hpair
      have hnil : p.2 = [] := List.append_left_eq_self.mp h2
      rw [hp, ← h1, ← hnil]
    have hmore : readNumber (cs ++ more) = some (literal, c :: tail ++ more) := by
      rw [hcs, List.append_assoc, readNumber_append hends', hliteral]
      rfl
    rw [readScalar, hmore]
  next hnumber =>
    have hword : readWord (cs ++ more) = some (p.1, p.2 ++ more) :=
      findSome_append (by decide) h more
    obtain ⟨⟨word, value⟩, hmem, hfound⟩ := List.exists_of_findSome?_eq_some h
    obtain ⟨rest, hdrop, -⟩ := Option.map_eq_some_iff.mp hfound
    obtain ⟨front, rfl, hfront⟩ := List.dropPrefix?_eq_some_iff.mp hdrop
    obtain rfl := eq_of_beq hfront
    have hnone : readNumber (word.toList ++ rest ++ more) = none := by
      rw [List.append_assoc]
      simp only [List.mem_cons, Prod.mk.injEq, List.not_mem_nil, or_false] at hmem
      rcases hmem with ⟨rfl, -⟩ | ⟨rfl, -⟩ | ⟨rfl, -⟩ | ⟨rfl, -⟩ | ⟨rfl, -⟩ | ⟨rfl, -⟩ <;> rfl
    rw [readScalar, hnone]
    exact hword

/-! ## Values -/

/-- What the readers of values, elements and entries find does not depend on what follows; of a
value without brackets and quotes something that ends it has to follow. -/
private structure Stable (fuel : Nat) : Prop where
  value : ∀ {cs p fuel' c tail} (more : List Char), fuel ≤ fuel' → readValue fuel cs = some p →
    p.2 = c :: tail → isNumeric c = false → readValue fuel' (cs ++ more) = some (p.1, p.2 ++ more)
  object : ∀ {cs p fuel'} (more : List Char), fuel ≤ fuel' →
    readValue fuel ('\x7b' :: cs) = some p →
      readValue fuel' ('\x7b' :: cs ++ more) = some (p.1, p.2 ++ more)
  elements : ∀ {cs p fuel'} (more : List Char), fuel ≤ fuel' → readElements fuel cs = some p →
    readElements fuel' (cs ++ more) = some (p.1, p.2 ++ more)
  fields : ∀ {cs p fuel'} (more : List Char), fuel ≤ fuel' → readFields fuel cs = some p →
    readFields fuel' (cs ++ more) = some (p.1, p.2 ++ more)

private theorem exists_head (h : skipSpace cs = c :: tail)
    (hc : isNumeric c = false) : ∃ d rest, cs = d :: rest ∧ isNumeric d = false := by
  cases cs with
  | nil => cases h
  | cons d rest =>
    refine ⟨d, rest, rfl, ?_⟩
    cases hd : isWhitespace d with
    | false =>
      rw [skipSpace, List.dropWhile_cons, hd] at h
      cases h
      exact hc
    | true =>
      simp only [isWhitespace, Bool.or_eq_true, beq_iff_eq] at hd
      rcases hd with ((rfl | rfl) | rfl) | rfl <;> rfl

theorem readValue_nil : readValue fuel [] = none := by
  cases fuel <;> rfl

theorem readElements_nil : readElements fuel [] = none := by
  cases fuel with
  | zero => rfl
  | succ fuel => rw [readElements, readValue_nil]; rfl

theorem readFields_nil : readFields fuel [] = none := by
  rw [readFields]
  rintro _ _ _ ⟨⟩

theorem ne_nil_of_read {α : Type} {a : α} {read : List Char → Option α} (hnil : read [] = none)
    (h : read cs = some a) : cs ≠ [] := by
  rintro rfl
  rw [hnil] at h
  cases h

private theorem elements_stable (ih : Stable fuel) {p : List Json × List Char} (more : List Char)
    (hfuel : fuel ≤ fuel') (h : readElements (fuel + 1) cs = some p) :
    readElements (fuel' + 1) (cs ++ more) = some (p.1, p.2 ++ more) := by
  rw [readElements] at h ⊢
  simp only [Option.bind_eq_bind, Option.bind_eq_some_iff, Option.pure_def] at h
  obtain ⟨⟨element, rest⟩, hvalue, h⟩ := h
  dsimp only at h
  split at h
  next tail heq =>
    cases h
    obtain ⟨d, rest', rfl, hd⟩ := exists_head heq rfl
    rw [ih.value more hfuel hvalue rfl hd, Option.bind_eq_bind, Option.bind_some]
    dsimp only
    rw [skipSpace_append heq more]
    rfl
  next tail heq =>
    simp only [Option.bind_eq_some_iff] at h
    obtain ⟨⟨elements, rest''⟩, hread, hp⟩ := h
    cases hp
    have hne := ne_nil_of_read readElements_nil hread
    obtain ⟨d, rest', rfl, hd⟩ := exists_head heq rfl
    rw [ih.value more hfuel hvalue rfl hd, Option.bind_eq_bind, Option.bind_some]
    dsimp only
    rw [skipSpace_append heq more]
    change Option.bind (readElements fuel' (skipSpace (tail ++ more))) _ = _
    rw [skipSpace_append_of_ne hne, ih.elements more hfuel hread]
    rfl
  next => cases h

private theorem fields_stable (ih : Stable fuel) {p : List (String × Json) × List Char}
    (more : List Char) (hfuel : fuel ≤ fuel') (h : readFields (fuel + 1) cs = some p) :
    readFields (fuel' + 1) (cs ++ more) = some (p.1, p.2 ++ more) := by
  obtain ⟨cs, rfl⟩ := quote_of_readFields h
  rw [List.cons_append]
  rw [readFields] at h ⊢
  simp only [Option.bind_eq_bind, Option.bind_eq_some_iff, Option.pure_def] at h
  obtain ⟨⟨key, rest⟩, hkey, h⟩ := h
  rw [readString_append hkey hfuel more, Option.bind_eq_bind, Option.bind_some]
  dsimp only at h ⊢
  split at h
  next tail heq =>
    rw [skipSpace_append heq more]
    simp only [Option.bind_eq_some_iff] at h
    obtain ⟨⟨value, rest'⟩, hvalue, h⟩ := h
    have hne := ne_nil_of_read readValue_nil hvalue
    dsimp only at h
    change Option.bind (readValue fuel' (skipSpace (tail ++ more))) _ = _
    rw [skipSpace_append_of_ne hne]
    split at h
    next tail' heq' =>
      cases h
      obtain ⟨d, rest'', rfl, hd⟩ := exists_head heq' rfl
      rw [ih.value more hfuel hvalue rfl hd, Option.bind_some]
      dsimp only
      rw [skipSpace_append heq' more]
      rfl
    next tail' heq' =>
      simp only [Option.bind_eq_some_iff] at h
      obtain ⟨⟨fields, rest''⟩, hread, hp⟩ := h
      cases hp
      have hne' := ne_nil_of_read readFields_nil hread
      obtain ⟨d, rest'', rfl, hd⟩ := exists_head heq' rfl
      rw [ih.value more hfuel hvalue rfl hd, Option.bind_some]
      dsimp only
      rw [skipSpace_append heq' more]
      change Option.bind (readFields fuel' (skipSpace (tail' ++ more))) _ = _
      rw [skipSpace_append_of_ne hne', ih.fields more hfuel hread]
      rfl
    next => cases h
  next => cases h

private theorem object_stable (ih : Stable fuel) (more : List Char)
    (hfuel : fuel ≤ fuel') (h : readValue (fuel + 1) ('\x7b' :: cs) = some p) :
    readValue (fuel' + 1) ('\x7b' :: cs ++ more) = some (p.1, p.2 ++ more) := by
  rw [List.cons_append]
  rw [readValue] at h ⊢
  split at h
  next tail heq =>
    cases h
    rw [skipSpace_append heq more]
    rfl
  next hclose =>
    simp only [Option.bind_eq_bind, Option.bind_eq_some_iff, Option.pure_def] at h
    obtain ⟨⟨fields, rest⟩, hread, hp⟩ := h
    cases hp
    have hne := ne_nil_of_read readFields_nil hread
    rw [skipSpace_append_of_ne hne]
    split
    next tail heq =>
      obtain ⟨c, tail', hcons⟩ := List.exists_cons_of_ne_nil hne
      rw [hcons] at heq
      cases heq
      exact absurd hcons (hclose tail')
    next => rw [ih.fields more hfuel hread]; rfl

private theorem value_stable (ih : Stable fuel) (more : List Char) (hfuel : fuel ≤ fuel')
    (h : readValue (fuel + 1) cs = some p) (hrest : p.2 = c :: tail) (hc : isNumeric c = false) :
    readValue (fuel' + 1) (cs ++ more) = some (p.1, p.2 ++ more) := by
  cases cs with
  | nil => rw [readValue_nil] at h; cases h
  | cons d cs =>
    by_cases hquote : d = '"'
    · subst hquote
      rw [List.cons_append]
      rw [readValue] at h ⊢
      simp only [Option.bind_eq_bind, Option.bind_eq_some_iff, Option.pure_def] at h
      obtain ⟨⟨s, rest⟩, hstring, hp⟩ := h
      cases hp
      rw [readString_append hstring hfuel more]
      rfl
    by_cases hbracket : d = '['
    · subst hbracket
      rw [List.cons_append]
      rw [readValue] at h ⊢
      split at h
      next tail heq =>
        cases h
        rw [skipSpace_append heq more]
        rfl
      next hclose =>
        simp only [Option.bind_eq_bind, Option.bind_eq_some_iff, Option.pure_def] at h
        obtain ⟨⟨elements, rest⟩, hread, hp⟩ := h
        cases hp
        have hne := ne_nil_of_read readElements_nil hread
        rw [skipSpace_append_of_ne hne]
        split
        next tail heq =>
          obtain ⟨c, tail', hcons⟩ := List.exists_cons_of_ne_nil hne
          rw [hcons] at heq
          cases heq
          exact absurd hcons (hclose tail')
        next => rw [ih.elements more hfuel hread]; rfl
    by_cases hbrace : d = '\x7b'
    · subst hbrace
      exact object_stable ih more hfuel h
    · rw [List.cons_append, readValue_scalar hquote hbracket hbrace, ← List.cons_append]
      rw [readValue_scalar hquote hbracket hbrace] at h
      exact readScalar_append h hrest hc more

private theorem stable (fuel : Nat) : Stable fuel := by
  induction fuel with
  | zero =>
    constructor
    · intro cs p fuel' c tail more hfuel h
      cases h
    · intro cs p fuel' more hfuel h
      cases h
    · intro cs p fuel' more hfuel h
      cases h
    · intro cs p fuel' more hfuel h
      rw [readFields] at h
      · cases h
      · rintro fuel cs ⟨⟩
  | succ fuel ih =>
    constructor
    · intro cs p fuel' c tail more hfuel h hrest hc
      obtain ⟨fuel', rfl⟩ := Nat.exists_eq_add_of_lt hfuel
      exact value_stable ih more (by omega) h hrest hc
    · intro cs p fuel' more hfuel h
      obtain ⟨fuel', rfl⟩ := Nat.exists_eq_add_of_lt hfuel
      exact object_stable ih more (by omega) h
    · intro cs p fuel' more hfuel h
      obtain ⟨fuel', rfl⟩ := Nat.exists_eq_add_of_lt hfuel
      exact elements_stable ih more (by omega) h
    · intro cs p fuel' more hfuel h
      obtain ⟨fuel', rfl⟩ := Nat.exists_eq_add_of_lt hfuel
      exact fields_stable ih more (by omega) h

/-- The text of an object is followed by nothing but spaces in a text that stands for a value. -/
theorem loads_append {v w : Json} {more : List Char} (h : loads ('\x7b' :: cs) = some v)
    (hmore : loads ('\x7b' :: cs ++ more) = some w) : ∀ c ∈ more, isWhitespace c = true := by
  obtain ⟨rest, hread, -⟩ := loads_eq_some h
  obtain ⟨rest', hread', hrest'⟩ := loads_eq_some hmore
  have hlong : readValue (('\x7b' :: cs ++ more).length + 1) ('\x7b' :: cs ++ more) =
      some (v, rest ++ more) := (stable _).object more (by simp) hread
  have hspace (tail : List Char) : skipSpace ('\x7b' :: tail) = '\x7b' :: tail := rfl
  rw [List.cons_append, hspace] at hread'
  rw [List.cons_append, hread'] at hlong
  obtain ⟨-, rfl⟩ := Prod.mk.inj (Option.some.inj hlong)
  rw [skipSpace, List.dropWhile_eq_nil_iff] at hrest'
  exact fun c hc => hrest' c (List.mem_append_right _ hc)

end PlatformSpec.Base.Json
