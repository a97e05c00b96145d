import PlatformSpec.Agent.CotOutputParser
import PlatformSpec.Base.JsonPrefix

/-!
# The JSON of a code block

What `extra_json_from_code_block` finds in a block that begins with an object: nothing before the
end of the object, however many backticks stand in its strings.
-/

namespace PlatformSpec.Agent

open Base Base.Split

/-! ## Control characters -/

section Escape

variable {inString : Bool} {text more : List Char} {c : Char}

theorem escapeControls_cons (h : c = '\\' → text = []) :
    escapeControls true (c :: text) =
      if c.toNat < 0x20 then Json.unicodeEscape c ++ escapeControls true text
      else c :: escapeControls (c != '"') text := by
  rw [escapeControls]
  rintro d rest rfl rfl
  cases h rfl

theorem escapeControls_concat (inString : Bool) (text : List Char) (hc : ¬ c.toNat < 0x20) :
    ∃ front, escapeControls inString (text ++ [c]) = front ++ [c] := by
  induction inString, text using escapeControls.induct with
  | case1 s =>
    refine ⟨[], ?_⟩
    cases s with
    | false => rfl
    | true =>
      rw [List.nil_append, escapeControls_cons fun _ => rfl, if_neg hc]
      cases c != '"' <;> rfl
  | case2 d text ih =>
    obtain ⟨front, hfront⟩ := ih
    exact ⟨d :: front, congrArg (d :: ·) hfront⟩
  | case3 d text ih =>
    obtain ⟨front, hfront⟩ := ih
    exact ⟨'\\' :: d :: front, congrArg ('\\' :: d :: ·) hfront⟩
  | case4 d text h hd ih =>
    obtain ⟨front, hfront⟩ := ih
    have hd' : d = '\\' → text ++ [c] = [] := by
      rintro rfl
      exact absurd hd (by decide)
    refine ⟨Json.unicodeEscape d ++ front, ?_⟩
    rw [List.cons_append, escapeControls_cons hd', if_pos hd, hfront, List.append_assoc]
  | case5 d text h hd ih =>
    obtain ⟨front, hfront⟩ := ih
    by_cases hd' : d = '\\'
    · subst hd'
      cases text with
      | nil => exact ⟨['\\'], rfl⟩
      | cons e text => exact absurd rfl (h e text rfl)
    · refine ⟨d :: front, ?_⟩
      rw [List.cons_append, escapeControls_cons fun he => absurd he hd', if_neg hd, hfront]
      rfl

theorem escapeControls_append (inString : Bool) (text more : List Char) (hc : ¬ c.toNat < 0x20) :
    ∃ back, escapeControls inString (text ++ (more ++ [c])) =
      escapeControls inString text ++ (back ++ [c]) := by
  induction inString, text using escapeControls.induct with
  | case1 s =>
    have hnil : escapeControls s [] = [] := by cases s <;> rfl
    rw [hnil]
    exact escapeControls_concat s more hc
  | case2 d text ih =>
    obtain ⟨back, hback⟩ := ih
    exact ⟨back, congrArg (d :: ·) hback⟩
  | case3 d text ih =>
    obtain ⟨back, hback⟩ := ih
    exact ⟨back, congrArg ('\\' :: d :: ·) hback⟩
  | case4 d text h hd ih =>
    obtain ⟨back, hback⟩ := ih
    have hd' : ∀ rest : List Char, d = '\\' → rest = [] := by
      rintro rest rfl
      exact absurd hd (by decide)
    refine ⟨back, ?_⟩
    rw [List.cons_append, escapeControls_cons (hd' _), escapeControls_cons (hd' _), if_pos hd,
      if_pos hd, hback, List.append_assoc]
  | case5 d text h hd ih =>
    obtain ⟨back, hback⟩ := ih
    by_cases hd' : d = '\\'
    · subst hd'
      cases text with
      | nil =>
        -- the escape takes the next character, which stays what it is
        cases more with
        | nil => exact ⟨[], rfl⟩
        | cons e more =>
          obtain ⟨front, hfront⟩ := escapeControls_concat true more hc
          exact ⟨e :: front, congrArg ('\\' :: e :: ·) hfront⟩
      | cons e text => exact absurd rfl (h e text rfl)
    · refine ⟨back, ?_⟩
      rw [List.cons_append, escapeControls_cons fun he => absurd he hd',
        escapeControls_cons fun he => absurd he hd', if_neg hd, if_neg hd, hback]
      rfl

end Escape

/-! ## Lines of letters -/

section Lines

variable {line text front more : List Char} {c d : Char}

theorem dropWordLines_line (h : '\n' ∉ line) : dropWordLines line = line := by
  have hpieces : pieces ['\n'] line = [line] :=
    pieces_of_not_mem fun hwithin => h (hwithin.subset (by simp))
  rw [dropWordLines, hpieces]
  simp

theorem dropWordLines_cons (h : '\n' ∉ line) (text : List Char) :
    dropWordLines (line ++ '\n' :: text) =
      (if isWordLine line then [] else line ++ ['\n']) ++ dropWordLines text := by
  have hpieces : pieces ['\n'] (line ++ '\n' :: text) = line :: pieces ['\n'] text :=
    pieces_of_cut (by simp) (cut_singleton h)
  rw [dropWordLines, hpieces, dropWordLines]
  have hne : pieces ['\n'] text ≠ [] := pieces_ne_nil
  generalize pieces ['\n'] text = lines at hne
  rw [List.dropLast_cons_of_ne_nil hne, List.getLast?_cons_of_ne_nil hne]
  have hlast : lines.getLast?.toList ≠ [] := by
    rw [List.getLast?_eq_some_getLast hne]
    exact List.cons_ne_nil _ _
  have hrest : (lines.dropLast.filter fun line => !isWordLine line) ++ lines.getLast?.toList ≠ [] :=
    List.append_ne_nil_of_right_ne_nil _ hlast
  cases hline : isWordLine line with
  | true => rw [List.filter_cons_of_neg (by simp [hline]), if_pos rfl, List.nil_append]
  | false =>
    rw [List.filter_cons_of_pos (by simp [hline]), List.cons_append,
      List.intercalate_cons_of_ne_nil hrest, if_neg Bool.false_ne_true]

private theorem exists_line (text : List Char) :
    '\n' ∉ text ∨ ∃ line rest, text = line ++ '\n' :: rest ∧ '\n' ∉ line := by
  by_cases h : '\n' ∈ text
  · obtain ⟨line, rest, htext, hline⟩ := List.eq_append_cons_of_mem h
    exact .inr ⟨line, rest, htext, hline⟩
  · exact .inl h

theorem dropWordLines_concat (text : List Char) (hc : c ≠ '\n') :
    ∃ front, dropWordLines (text ++ [c]) = front ++ [c] := by
  induction hn : text.length using Nat.strong_induction_on generalizing text with
  | _ n ih =>
    obtain h | ⟨line, rest, rfl, hline⟩ := exists_line text
    · exact ⟨text, dropWordLines_line (by simp [h, hc.symm])⟩
    · rw [List.length_append, List.length_cons] at hn
      obtain ⟨front, hfront⟩ := ih rest.length (by omega) rest rfl
      rw [List.append_assoc, List.cons_append, dropWordLines_cons hline, hfront]
      exact ⟨_, (List.append_assoc _ _ _).symm⟩

/-- Nothing is dropped of a last line that goes on after a character that is no letter. -/
theorem dropWordLines_append (text more : List Char) (hd : isWordLine [d] = false) (hd' : d ≠ '\n')
    (hc : c ≠ '\n') : ∃ back, dropWordLines (text ++ [d] ++ (more ++ [c])) =
      dropWordLines (text ++ [d]) ++ (back ++ [c]) := by
  induction hn : text.length using Nat.strong_induction_on generalizing text with
  | _ n ih =>
    obtain h | ⟨line, rest, rfl, hline⟩ := exists_line text
    · have htext : '\n' ∉ text ++ [d] := by simp [h, hd'.symm]
      rw [dropWordLines_line htext]
      obtain hmore | ⟨line, rest, hmore, hline⟩ := exists_line (more ++ [c])
      · refine ⟨more, dropWordLines_line ?_⟩
        rw [List.mem_append, not_or]
        exact ⟨htext, hmore⟩
      · have hword : isWordLine (text ++ [d] ++ line) = false := by
          have hletter : isWordLine [d] = (('a' ≤ d && d ≤ 'z') || ('A' ≤ d && d ≤ 'Z')) := by
            simp [isWordLine]
          rw [isWordLine, List.all_append, List.all_append, List.all_cons, ← hletter, hd]
          simp
        obtain rfl | ⟨rest, e, rfl⟩ := List.eq_nil_or_concat rest
        · have hlast := congrArg List.getLast? hmore
          simp only [List.getLast?_concat, Option.some.injEq] at hlast
          exact absurd hlast hc
        · rw [List.concat_eq_append] at hmore
          have hmore' : more ++ [c] = (line ++ '\n' :: rest) ++ [e] := by
            rw [hmore, List.append_assoc, List.cons_append]
          obtain rfl : c = e := by simpa using (List.append_inj' hmore' rfl).2
          obtain ⟨front, hfront⟩ := dropWordLines_concat rest hc
          have hfirst : '\n' ∉ text ++ [d] ++ line := by
            rw [List.mem_append, not_or]
            exact ⟨htext, hline⟩
          refine ⟨line ++ '\n' :: front, ?_⟩
          rw [hmore, ← List.append_assoc, dropWordLines_cons hfirst, hword, hfront]
          simp
    · rw [List.length_append, List.length_cons] at hn
      obtain ⟨back, hback⟩ := ih rest.length (by omega) rest rfl
      refine ⟨back, ?_⟩
      simp only [List.append_assoc, List.cons_append] at hback ⊢
      rw [dropWordLines_cons hline, dropWordLines_cons hline, hback]
      simp only [List.append_assoc]

end Lines

/-! ## Blocks -/

section Blocks

variable {text rest block front spaces : List Char} {c : Char}

/-- The brackets that a block may end with. -/
def IsClosing (c : Char) : Prop := c = ']' ∨ c = '\x7d'

theorem lastClosing_cons_eq_none_iff : lastClosing (c :: text) = none ↔
    lastClosing text = none ∧
      (IsClosing c → (text.dropWhile isSpace).dropPrefix? fence = none) := by
  rw [lastClosing, IsClosing]
  cases lastClosing text with
  | some p => simp
  | none =>
    dsimp only
    split
    next h => simp [h]
    next h => simp [h]

theorem lastClosing_of_append (h : lastClosing (front ++ text) = none) :
    lastClosing text = none := by
  induction front with
  | nil => exact h
  | cons c front ih => exact ih (lastClosing_cons_eq_none_iff.mp h).1

theorem lastClosing_append (hfront : ∀ c ∈ front, ¬ IsClosing c) (h : lastClosing text = none) :
    lastClosing (front ++ text) = none := by
  induction front with
  | nil => exact h
  | cons c front ih =>
    obtain ⟨hc, hfront⟩ := List.forall_mem_cons.mp hfront
    exact lastClosing_cons_eq_none_iff.mpr ⟨ih hfront, fun hclosing => absurd hclosing hc⟩

theorem lastClosing_spec (h : lastClosing text = some (block, rest)) :
    ∃ inner d spaces, block = inner ++ [d] ∧ IsClosing d ∧
      text = block ++ (spaces ++ (fence ++ rest)) := by
  induction text generalizing block with
  | nil => cases h
  | cons c text ih =>
    rw [lastClosing] at h
    cases hlast : lastClosing text with
    | some p =>
      rw [hlast] at h
      cases h
      obtain ⟨inner, d, spaces, hblock, hd, htext⟩ := ih hlast
      exact ⟨c :: inner, d, spaces, congrArg (c :: ·) hblock, hd, congrArg (c :: ·) htext⟩
    | none =>
      rw [hlast] at h
      dsimp only at h
      split at h
      next hc =>
        obtain ⟨rest', hdrop, hpair⟩ := Option.map_eq_some_iff.mp h
        cases hpair
        obtain ⟨front, hfront, hfence⟩ := List.dropPrefix?_eq_some_iff.mp hdrop
        obtain rfl := eq_of_beq hfence
        refine ⟨[], c, text.takeWhile isSpace, rfl, hc, ?_⟩
        rw [← hfront, List.takeWhile_append_dropWhile]
        rfl
      next => cases h

theorem lastClosing_end (front : List Char) (hspaces : ∀ c ∈ spaces, isSpace c = true) :
    lastClosing (front ++ '\x7d' :: (spaces ++ fence)) = some (front ++ ['\x7d'], []) := by
  induction front with
  | nil =>
    have hnone : lastClosing (spaces ++ fence) = none := by
      refine lastClosing_append (fun c hc => ?_) rfl
      rintro (rfl | rfl)
      · exact absurd (hspaces _ hc) (by decide)
      · exact absurd (hspaces _ hc) (by decide)
    have hdrop : (spaces ++ fence).dropWhile isSpace = fence := by
      rw [List.dropWhile_append_of_pos hspaces]
      rfl
    rw [List.nil_append, lastClosing, hnone]
    dsimp only
    rw [if_pos (.inr rfl), hdrop]
    rfl
  | cons c front ih =>
    rw [List.cons_append, lastClosing, ih]
    rfl

/-- The characters between a fence and the bracket of a block. -/
def isTag (c : Char) : Bool := "jsonJSONſ".toList.contains c

theorem matchBlock_eq_none (h : lastClosing text = none) : matchBlock text = none := by
  by_contra hsome
  obtain ⟨p, hmatch⟩ := Option.ne_none_iff_exists'.mp hsome
  obtain ⟨after, hdrop, hp⟩ := Option.bind_eq_some_iff.mp hmatch
  obtain ⟨front, rfl, -⟩ := List.dropPrefix?_eq_some_iff.mp hdrop
  have hnone := lastClosing_of_append h
  clear hmatch
  dsimp only at hp
  have hsuffix : ((after.dropWhile fun c => "jsonJSONſ".toList.contains c).dropWhile isSpace) <:+
      after := (List.dropWhile_suffix _).trans (List.dropWhile_suffix _)
  split at hp
  next => cases hp
  next c rest heq =>
    split at hp
    next =>
      rw [heq] at hsuffix
      obtain ⟨front', rfl⟩ := hsuffix
      have hcons := lastClosing_of_append hnone
      rw [(lastClosing_cons_eq_none_iff.mp hcons).1] at hp
      cases hp
    next => cases hp

theorem findBlocks_eq_nil (fuel : Nat) (h : lastClosing text = none) :
    findBlocks fuel text = [] := by
  induction fuel generalizing text with
  | zero => rfl
  | succ fuel ih =>
    cases text with
    | nil => rfl
    | cons c text =>
      rw [findBlocks, matchBlock_eq_none h]
      exact ih (lastClosing_cons_eq_none_iff.mp h).1

theorem matchBlock_object {tag : List Char} (htag : ∀ c ∈ tag, isTag c = true)
    (hspaces : ∀ c ∈ spaces, isSpace c = true) (text : List Char) :
    matchBlock (fence ++ (tag ++ (spaces ++ '\x7b' :: text))) =
      (lastClosing text).map fun (block, rest) => ('\x7b' :: block, rest) := by
  have hdrop : (fence ++ (tag ++ (spaces ++ '\x7b' :: text))).dropPrefix? fence =
      some (tag ++ (spaces ++ '\x7b' :: text)) :=
    List.dropPrefix?_eq_some_iff.mpr ⟨fence, rfl, beq_self_eq_true _⟩
  have hnoTag : (spaces ++ '\x7b' :: text).dropWhile isTag = spaces ++ '\x7b' :: text := by
    cases spaces with
    | nil => rfl
    | cons c spaces =>
      have hdisjoint : ∀ c ∈ "jsonJSONſ".toList, isSpace c = false :=
        forall_of_all (by decide)
      have hc : isTag c = false := by
        by_contra hc
        rw [Bool.not_eq_false, isTag, List.contains_iff_mem] at hc
        have hspace := hspaces c List.mem_cons_self
        rw [hdisjoint c hc] at hspace
        cases hspace
      rw [List.cons_append, List.dropWhile_cons, hc]
      rfl
  have htagged : (tag ++ (spaces ++ '\x7b' :: text)).dropWhile isTag =
      spaces ++ '\x7b' :: text := by rw [List.dropWhile_append_of_pos htag, hnoTag]
  have hspaced : (spaces ++ '\x7b' :: text).dropWhile isSpace = '\x7b' :: text := by
    rw [List.dropWhile_append_of_pos hspaces]
    rfl
  have htagged' : ((tag ++ (spaces ++ '\x7b' :: text)).dropWhile fun c =>
      "jsonJSONſ".toList.contains c) = spaces ++ '\x7b' :: text := htagged
  rw [matchBlock, hdrop, Option.bind_eq_bind, Option.bind_some]
  dsimp only
  rw [htagged', hspaced]
  rfl

theorem findBlocks_of_match {fuel : Nat} (h : matchBlock text = some (block, rest)) :
    findBlocks (fuel + 1) text = block :: findBlocks fuel rest := by
  cases text with
  | nil => cases h
  | cons c text => rw [findBlocks, h]

theorem findBlocks_nil (fuel : Nat) : findBlocks fuel [] = [] := by
  cases fuel <;> rfl

theorem stripBoth_brackets (text : List Char) (hc : IsClosing c) :
    stripBoth isSpace ('\x7b' :: (text ++ [c])) = '\x7b' :: (text ++ [c]) := by
  refine stripBoth_eq_self_iff.mpr ⟨?_, ?_⟩
  · rintro d ⟨⟩
    rfl
  · intro d hd
    rw [← List.cons_append, List.getLast?_concat] at hd
    cases hd
    rcases hc with rfl | rfl <;> rfl

variable {j : Json}

/-- A beginning of the text of an object stands for nothing, whatever lines of letters are
dropped. -/
theorem loadsLenient_beginning {inner more : List Char} (hc : IsClosing c)
    (h : loadsLenient (dropWordLines ('\x7b' :: (inner ++ [c]) ++ (more ++ ['\x7d']))) = some j) :
    loadsLenient (dropWordLines ('\x7b' :: (inner ++ [c]))) = none := by
  have hletter : isWordLine [c] = false := by rcases hc with rfl | rfl <;> rfl
  have hbreak : c ≠ '\n' := by rcases hc with rfl | rfl <;> decide
  obtain ⟨back, hback⟩ := dropWordLines_append ('\x7b' :: inner) more hletter hbreak
    (show '\x7d' ≠ '\n' by decide)
  obtain ⟨first, hfirst⟩ := dropWordLines_append [] inner (d := '\x7b') rfl (by decide) hbreak
  have hopen : dropWordLines ('\x7b' :: (inner ++ [c])) = '\x7b' :: (first ++ [c]) := by
    have hline : dropWordLines ['\x7b'] = ['\x7b'] := dropWordLines_line (by decide)
    rw [List.nil_append, hline] at hfirst
    exact hfirst
  rw [List.cons_append] at hback
  rw [hback, hopen, loadsLenient] at h
  obtain ⟨back', hback'⟩ := escapeControls_append false ('\x7b' :: (first ++ [c])) back
    (c := '\x7d') (by decide)
  rw [hback', escapeControls] at h
  by_contra hsome
  obtain ⟨v, hv⟩ := Option.ne_none_iff_exists'.mp hsome
  rw [hopen, loadsLenient, escapeControls] at hv
  exact absurd (Json.loads_append hv h '\x7d' (by simp)) (by decide)

variable {tag : List Char}

theorem extraJson_beginning {more : List Char} (htag : ∀ c ∈ tag, isTag c = true)
    (hspaces : ∀ c ∈ spaces, isSpace c = true)
    (h : loadsLenient (dropWordLines ('\x7b' :: text ++ (more ++ ['\x7d']))) = some j) :
    extraJsonFromCodeBlock (fence ++ (tag ++ (spaces ++ '\x7b' :: text))) = [] := by
  have hmatch := matchBlock_object htag hspaces text
  rw [extraJsonFromCodeBlock]
  cases hlast : lastClosing text with
  | none =>
    have htags : ∀ c ∈ "jsonJSONſ".toList, ¬ IsClosing c := by
      unfold IsClosing
      exact forall_of_all (by decide)
    have hnone : lastClosing (fence ++ (tag ++ (spaces ++ '\x7b' :: text))) = none := by
      refine lastClosing_append (by unfold IsClosing; exact forall_of_all (by decide))
        (lastClosing_append (fun c hc => ?_) (lastClosing_append (fun c hc => ?_)
          (lastClosing_cons_eq_none_iff.mpr ⟨hlast, fun hc => ?_⟩)))
      · exact htags c (List.contains_iff_mem.mp (htag c hc))
      · rintro (rfl | rfl)
        · exact absurd (hspaces _ hc) (by decide)
        · exact absurd (hspaces _ hc) (by decide)
      · exact absurd hc (by unfold IsClosing; decide)
    rw [findBlocks_eq_nil _ hnone]
    rfl
  | some p =>
    obtain ⟨block, after⟩ := p
    rw [hlast, Option.map_some] at hmatch
    obtain ⟨inner, d, spaces', rfl, hd, rfl⟩ := lastClosing_spec hlast
    have hnone : loadsLenient (dropWordLines (stripBoth isSpace ('\x7b' :: (inner ++ [d])))) =
        none := by
      have hwhole : loadsLenient (dropWordLines ('\x7b' :: (inner ++ [d]) ++
          (spaces' ++ (fence ++ after) ++ more ++ ['\x7d']))) = some j := by
        rw [← h]
        simp
      rw [stripBoth_brackets inner hd, loadsLenient_beginning hd hwhole]
    rw [findBlocks_of_match hmatch, List.mapM_cons, hnone]
    rfl

theorem extraJson_object {spaces' : List Char} (htag : ∀ c ∈ tag, isTag c = true)
    (hspaces : ∀ c ∈ spaces, isSpace c = true) (hspaces' : ∀ c ∈ spaces', isSpace c = true)
    (h : loadsLenient (dropWordLines ('\x7b' :: (text ++ ['\x7d']))) = some j) :
    extraJsonFromCodeBlock
      (fence ++ (tag ++ (spaces ++ '\x7b' :: (text ++ '\x7d' :: (spaces' ++ fence))))) = [j] := by
  have hmatch := matchBlock_object htag hspaces (text ++ '\x7d' :: (spaces' ++ fence))
  rw [lastClosing_end text hspaces', Option.map_some] at hmatch
  rw [extraJsonFromCodeBlock, findBlocks_of_match hmatch, findBlocks_nil, List.mapM_cons,
    stripBoth_brackets text (.inr rfl), h]
  rfl

end Blocks

end PlatformSpec.Agent
