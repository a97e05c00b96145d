import PlatformSpec.Base.Scan
import PlatformSpec.Base.Text
import PlatformSpec.Response.Template

/-!
# Prompt templates

Models `core/prompt/utils/prompt_template_parser.py`. A key has no brace in it, so that a variable
is what stands between two opening braces and the closing brace that comes first. The values of the
inputs are sanitised one by one, and control tokens are cut out of the whole prompt. What is left
may still be put together to a variable or a control token, but only from characters that did not
stand together before.
-/

namespace PlatformSpec.Prompt

open Base Base.Scan
open Response (isIdentifier isWord isWord_of_mem_identifier)

/-- `#[a-zA-Z0-9_]{1,50}\.[a-zA-Z0-9_\.]{1,100}#`. -/
def isSelector : List Char → Bool
  | '#' :: rest =>
    let node := rest.takeWhile isWord
    match rest.drop node.length with
    | '.' :: path =>
      let names := path.takeWhile fun c => isWord c || c == '.'
      1 ≤ node.length && node.length ≤ 50 && 1 ≤ names.length && names.length ≤ 100 &&
        path.drop names.length == ['#']
    | _ => false
  | _ => false

/-- What may stand between the braces in `REGEX` or `WITH_VARIABLE_TMPL_REGEX`. -/
def isKey (withVariableTmpl : Bool) (key : List Char) : Bool :=
  isIdentifier key || (withVariableTmpl && isSelector key) || key == "#histories#".toList ||
    key == "#query#".toList || key == "#context#".toList

/-- A key in its braces. -/
def variableText (key : List Char) : List Char :=
  '{' :: '{' :: (key ++ ['}', '}'])

/-- `REGEX` or `WITH_VARIABLE_TMPL_REGEX` at the beginning of a text: the key and the length. -/
def matchVariable (withVariableTmpl : Bool) : List Char → Option (List Char × Nat)
  | '{' :: '{' :: rest =>
    let key := rest.takeWhile (· != '}')
    if isKey withVariableTmpl key ∧ ['}', '}'] <+: rest.drop key.length then
      some (key, key.length + 4)
    else none
  | _ => none

/-- `.*?\|>`, the length. -/
def matchTokenEnd : List Char → Option Nat
  | '|' :: '>' :: _ => some 2
  | [] => none
  | c :: rest => if c = '\n' then none else (matchTokenEnd rest).map (· + 1)

/-- `<\|.*?\|>` at the beginning of a text. -/
def matchToken : List Char → Option (Unit × Nat)
  | '<' :: '|' :: rest => (matchTokenEnd rest).map fun n => ((), n + 2)
  | _ => none

/-- `PromptTemplateParser`. -/
structure PromptTemplateParser where
  template : String
  withVariableTmpl : Bool := false
  deriving DecidableEq

/-- The values of the inputs by their keys. -/
abbrev Inputs := List (String × String)

/-- `inputs.get(key, match.group(0))`. -/
def Inputs.value (inputs : Inputs) (key block : List Char) : List Char :=
  match inputs.lookup (.ofList key) with
  | some value => value.toList
  | none => block

/-- `remove_template_variables`. -/
def removeTemplateVariables (withVariableTmpl : Bool) (text : List Char) : List Char :=
  substitute (matchVariable withVariableTmpl) (fun found => '{' :: (found.1 ++ ['}'])) text

namespace PromptTemplateParser

variable (parser : PromptTemplateParser)

/-- `extract`. -/
def extract : List (List Char) :=
  (scan (matchVariable parser.withVariableTmpl) 0 parser.template.toList).filterMap
    (Sum.elim (fun _ => none) fun found => some found.1)

/-- `format`. -/
def format (inputs : Inputs) (removeVariables : Bool) : String :=
  let replacer (found : List Char × List Char) : List Char :=
    if removeVariables then
      removeTemplateVariables parser.withVariableTmpl (inputs.value found.1 found.2)
    else inputs.value found.1 found.2
  let prompt := substitute (matchVariable parser.withVariableTmpl) replacer parser.template.toList
  .ofList (substitute matchToken (fun _ => []) prompt)

end PromptTemplateParser

/-! ## Variables and control tokens -/

/-- `<|`, something on one line, and `|>`. -/
def IsControlToken (text : List Char) : Prop :=
  ∃ inner, '\n' ∉ inner ∧ text = '<' :: '|' :: (inner ++ ['|', '>'])

variable {key text : List Char}

theorem mem_selector (h : isSelector key = true) {c : Char}
    (hc : c ∈ key) : isWord c = true ∨ c = '#' ∨ c = '.' := by
  unfold isSelector at h
  split at h
  next rest =>
    dsimp only at h
    split at h
    next path hpath =>
      simp only [Bool.and_eq_true, beq_iff_eq] at h
      have hrest := List.prefix_iff_eq_append.mp (List.takeWhile_prefix (l := rest) isWord)
      have hnames := List.prefix_iff_eq_append.mp
        (List.takeWhile_prefix (l := path) fun c => isWord c || c == '.')
      rw [← hrest, hpath, ← hnames, h.2] at hc
      simp only [List.mem_cons, List.mem_append, List.not_mem_nil, or_false] at hc
      rcases hc with hc | hc | hc | hc | hc
      · exact .inr (.inl hc)
      · exact .inl (List.all_eq_true.mp List.all_takeWhile _ hc)
      · exact .inr (.inr hc)
      · have hname := List.all_eq_true.mp List.all_takeWhile _ hc
        rw [Bool.or_eq_true, beq_iff_eq] at hname
        exact hname.imp_right .inr
      · exact .inr (.inl hc)
    next => cases h
  next => cases h

variable {withVariableTmpl : Bool}

theorem isKey_plain (h : isKey withVariableTmpl key = true) : key ≠ [] ∧ '{' ∉ key ∧ '}' ∉ key := by
  have hne : key ≠ [] := by
    rintro rfl
    cases withVariableTmpl <;> exact absurd h (by decide)
  have hchars : ∀ c ∈ key, isWord c = true ∨ c = '#' ∨ c = '.' := by
    simp only [isKey, Bool.or_eq_true, Bool.and_eq_true, beq_iff_eq] at h
    rcases h with (((h | h) | rfl) | rfl) | rfl
    · exact fun c hc => .inl (isWord_of_mem_identifier h c hc)
    · exact fun c hc => mem_selector h.2 hc
    all_goals exact forall_of_all (by decide)
  have hnot : ∀ c, isWord c = false → c ≠ '#' → c ≠ '.' → c ∉ key := by
    intro c hword hhash hdot hc
    rcases hchars c hc with h | h | h
    · rw [h] at hword
      cases hword
    · exact hhash h
    · exact hdot h
  refine ⟨hne, hnot _ ?_ ?_ ?_, hnot _ ?_ ?_ ?_⟩
  all_goals decide

theorem matchVariable_eq_some {n : Nat} (h : matchVariable withVariableTmpl text = some (key, n)) :
    isKey withVariableTmpl key = true ∧ n = key.length + 4 ∧ variableText key <+: text := by
  unfold matchVariable at h
  split at h
  next rest =>
    dsimp only at h
    split at h
    next hkey =>
      cases h
      refine ⟨hkey.1, rfl, ?_⟩
      obtain ⟨tail, htail⟩ := hkey.2
      refine ⟨tail, ?_⟩
      rw [variableText, List.cons_append, List.cons_append, List.append_assoc, htail,
        List.prefix_iff_eq_append.mp (List.takeWhile_prefix _)]
    next => cases h
  next => cases h

theorem matchVariable_variableText (h : isKey withVariableTmpl key = true) (rest : List Char) :
    matchVariable withVariableTmpl (variableText key ++ rest) = some (key, key.length + 4) := by
  have htake : (key ++ ['}', '}'] ++ rest).takeWhile (· != '}') = key := by
    rw [List.append_assoc, List.takeWhile_append_of_pos]
    · exact List.append_nil _
    · intro c hc
      rw [bne_iff_ne]
      rintro rfl
      exact (isKey_plain h).2.2 hc
  rw [variableText, List.cons_append, List.cons_append, matchVariable, htake, if_pos]
  refine ⟨h, ?_⟩
  rw [List.append_assoc, List.drop_left]
  exact List.prefix_append _ _

theorem matchToken_ne_none (h : IsControlToken text) (rest : List Char) :
    matchToken (text ++ rest) ≠ none := by
  obtain ⟨inner, hinner, rfl⟩ := h
  have hend : matchTokenEnd (inner ++ ['|', '>'] ++ rest) ≠ none := by
    induction inner with
    | nil => exact Option.some_ne_none _
    | cons c inner ih =>
      rw [List.mem_cons, not_or] at hinner
      rw [List.cons_append, List.cons_append]
      unfold matchTokenEnd
      split
      next => exact Option.some_ne_none _
      next he => cases he
      next he =>
        cases he
        rw [if_neg (Ne.symm hinner.1), ne_eq, Option.map_eq_none_iff]
        exact ih hinner.2
  rw [List.cons_append, List.cons_append, matchToken, ne_eq, Option.map_eq_none_iff]
  exact hend

/-! ## Where the characters of a prompt come from -/

/-- The template, or the value that is put in for the variable at a position of the template. -/
inductive Source where
  | template
  | value (position : Nat) (text : List Char)
  deriving DecidableEq

/-- A character and where it comes from. -/
structure Place where
  source : Source
  index : Nat
  char : Char
  deriving DecidableEq

/-- The characters of a source. -/
def places (source : Source) (text : List Char) : List Place :=
  text.mapIdx fun i c => ⟨source, i, c⟩

theorem map_char_places (source : Source) (text : List Char) :
    (places source text).map Place.char = text := by
  apply List.ext_getElem
  · simp [places]
  · simp [places]

theorem source_of_mem_places {source : Source} {x : Place}
    (h : x ∈ places source text) : x.source = source := by
  obtain ⟨i, hi, rfl⟩ := List.mem_mapIdx.mp h
  rfl

theorem eq_of_index_eq {source : Source} {x y : Place}
    (hx : x ∈ places source text) (hy : y ∈ places source text) (h : x.index = y.index) :
    x = y := by
  obtain ⟨i, hi, rfl⟩ := List.mem_mapIdx.mp hx
  obtain ⟨j, hj, rfl⟩ := List.mem_mapIdx.mp hy
  dsimp only at h
  subst h
  rfl

theorem nodup_places (source : Source) (text : List Char) : (places source text).Nodup := by
  rw [List.Nodup, List.pairwise_iff_getElem]
  intro i j hi hj hlt he
  simp only [places, List.getElem_mapIdx, Place.mk.injEq] at he
  omega

/-- `matchVariable` over places. -/
def matchVariableAt (withVariableTmpl : Bool) (text : List Place) : Option (List Char × Nat) :=
  matchVariable withVariableTmpl (text.map Place.char)

/-- `matchToken` over places. -/
def matchTokenAt (text : List Place) : Option (Unit × Nat) := matchToken (text.map Place.char)

/-- The places that sanitising leaves: a variable loses its outer braces. -/
def sanitised (withVariableTmpl : Bool) (text : List Place) : List Place :=
  substitute (matchVariableAt withVariableTmpl) (fun found => found.2.tail.dropLast) text

section Sanitised

variable {withVariableTmpl : Bool} {text block : List Place} {key : List Char}

theorem block_of_mem_scan
    (h : .inr (key, block) ∈ scan (matchVariableAt withVariableTmpl) 0 text) :
    isKey withVariableTmpl key = true ∧ block.map Place.char = variableText key ∧
      block <:+: text := by
  obtain ⟨front, x, rest, n, rfl, hfind, rfl⟩ := found_of_mem_scan h
  obtain ⟨hkey, rfl, hstart⟩ := matchVariable_eq_some hfind
  refine ⟨hkey, ?_, front, rest.drop (key.length + 3), ?_⟩
  · have hlength : (variableText key).length = key.length + 4 := by simp [variableText]
    have htake := List.prefix_iff_eq_take.mp hstart
    rw [hlength, ← List.map_take] at htake
    exact htake.symm
  · rw [List.append_assoc, List.cons_append]
    show _ ++ x :: (rest.take (key.length + 3) ++ _) = _
    rw [List.take_append_drop]

theorem map_char_sanitised (text : List Place) :
    (sanitised withVariableTmpl text).map Place.char =
      removeTemplateVariables withVariableTmpl (text.map Place.char) := by
  apply map_substitute
  intro key block hblock
  have hchars := (block_of_mem_scan hblock).2.1
  rw [List.map_dropLast, List.map_tail, hchars, variableText, List.tail_cons]
  show ('{' :: (key ++ ['}', '}'])).dropLast = '{' :: (key ++ ['}'])
  have hlast : '{' :: (key ++ ['}', '}']) = ('{' :: (key ++ ['}'])) ++ ['}'] := by simp
  rw [hlast, List.dropLast_concat]

theorem sanitised_sublist (text : List Place) :
    (sanitised withVariableTmpl text).Sublist text :=
  substitute_sublist (fun _ => (List.dropLast_sublist _).trans (List.tail_sublist _)) text

theorem head_not_mem_sanitised {first : Place} {rest : List Place} (hnodup : text.Nodup)
    (hpart : first :: rest <:+: text) (hkey : isKey withVariableTmpl key = true)
    (hchars : (first :: rest).map Place.char = variableText key) :
    first ∉ sanitised withVariableTmpl text := by
  obtain ⟨front, back, htext⟩ := hpart
  rw [List.append_assoc, List.cons_append] at htext
  rw [sanitised, mem_substitute]
  rintro (hpassed | ⟨⟨key', block⟩, hblock, hmem⟩)
  · apply not_mem_scan_of_find hnodup htext.symm _ hpassed
    rw [matchVariableAt, ← List.cons_append, List.map_append, hchars,
      matchVariable_variableText hkey]
    exact Option.some_ne_none _
  · -- A brace, the key and a brace are left of a variable: no other one begins there.
    obtain ⟨hkey', hchars', front', back', htext'⟩ := block_of_mem_scan hblock
    obtain ⟨hne, hopen, -⟩ := isKey_plain hkey'
    obtain ⟨hfirst, hrest⟩ := List.cons.inj (List.map_cons.symm.trans hchars)
    obtain ⟨outer, block, rfl, -, hblock'⟩ := List.map_eq_cons_iff.mp hchars'
    obtain ⟨inner, more, rfl, -, hmore⟩ := List.map_eq_cons_iff.mp hblock'
    rcases List.mem_cons.mp ((List.dropLast_sublist _).subset hmem) with rfl | hmem
    · have hplace : text = (front' ++ [outer]) ++ first :: (more ++ back') := by
        rw [← htext']
        simp
      have hnext := (place_unique hnodup htext.symm hplace).2
      have hchar := congrArg (List.map Place.char) hnext
      rw [List.map_append, List.map_append, hrest, hmore] at hchar
      cases key' with
      | nil => exact hne rfl
      | cons c key' =>
        have hc := (List.cons.inj hchar).1
        exact hopen (hc ▸ List.mem_cons_self)
    · have hchar := List.mem_map_of_mem hmem (f := Place.char)
      rw [hmore, hfirst] at hchar
      simp [hopen] at hchar

end Sanitised

namespace PromptTemplateParser

variable (parser : PromptTemplateParser) (inputs : Inputs)

/-- The characters of the template. -/
def templatePlaces : List Place := places .template parser.template.toList

/-- The position at which a block begins. -/
def position : List Place → Nat
  | [] => 0
  | first :: _ => first.index

/-- The characters of the value that is put in for a variable. -/
def valuePlaces (found : List Char × List Place) : List Place :=
  let text := inputs.value found.1 (found.2.map Place.char)
  places (.value (position found.2) text) text

/-- The characters of the prompt before control tokens are cut out. -/
def promptPlaces : List Place :=
  substitute (matchVariableAt parser.withVariableTmpl)
    (fun found => sanitised parser.withVariableTmpl (valuePlaces inputs found))
    parser.templatePlaces

/-- The characters that are left. -/
def keptPlaces : List Place :=
  substitute matchTokenAt (fun _ => []) (parser.promptPlaces inputs)

/-- The characters follow one another in the template or in one value. -/
def StoodTogether (part : List Place) : Prop :=
  part <:+: parser.templatePlaces ∨
    ∃ position text, part <:+: places (.value position text) text

theorem toList_format :
    (parser.format inputs true).toList = (parser.keptPlaces inputs).map Place.char := by
  rw [format, String.toList_ofList, keptPlaces]
  simp only [if_true]
  rw [← map_char_places .template parser.template.toList]
  symm
  have hprompt : (parser.promptPlaces inputs).map Place.char =
      substitute (matchVariable parser.withVariableTmpl) (fun found =>
        removeTemplateVariables parser.withVariableTmpl (inputs.value found.1 found.2))
        (parser.templatePlaces.map Place.char) := by
    apply map_substitute
    intro key block _
    rw [map_char_sanitised, valuePlaces, map_char_places]
  show _ = substitute matchToken (fun _ => []) (substitute _ _ (parser.templatePlaces.map _))
  rw [← hprompt]
  apply map_substitute
  intro _ _ _
  rfl

variable {parser inputs} {part : List Place} {x : Place}

private theorem nodup_templatePlaces : parser.templatePlaces.Nodup := nodup_places _ _

theorem passed_of_mem_promptPlaces (h : x ∈ parser.promptPlaces inputs)
    (hsource : x.source = .template) :
    .inl x ∈ scan (matchVariableAt parser.withVariableTmpl) 0 parser.templatePlaces := by
  rcases mem_substitute.mp h with hpassed | ⟨found, -, hmem⟩
  · exact hpassed
  · have hvalue := source_of_mem_places ((sanitised_sublist _).subset hmem)
    rw [hsource] at hvalue
    cases hvalue

theorem sanitised_of_mem_promptPlaces {i : Nat} {text : List Char}
    (h : x ∈ parser.promptPlaces inputs) (hsource : x.source = .value i text) :
    x ∈ sanitised parser.withVariableTmpl (places (.value i text) text) ∧
      sanitised parser.withVariableTmpl (places (.value i text) text) <:+:
        parser.promptPlaces inputs := by
  rcases mem_substitute.mp h with hpassed | ⟨found, hfound, hmem⟩
  · have htemplate := source_of_mem_places (mem_of_mem_scan hpassed)
    rw [hsource] at htemplate
    cases htemplate
  · have hvalue := source_of_mem_places ((sanitised_sublist _).subset hmem)
    rw [hsource] at hvalue
    have hplaces : valuePlaces inputs found = places (.value i text) text := by
      obtain ⟨hi, htext⟩ := Source.value.inj hvalue
      rw [valuePlaces, ← hi, ← htext]
    rw [← hplaces]
    refine ⟨hmem, ?_⟩
    obtain ⟨front, back, hscan⟩ := List.append_of_mem hfound
    rw [promptPlaces, substitute, hscan, List.flatMap_append, List.flatMap_cons]
    exact ⟨_, _, List.append_assoc _ _ _⟩

/-- The index in the template of a character, or of the variable that it is put in for. -/
private def anchor (x : Place) : Nat :=
  match x.source with
  | .template => x.index
  | .value i _ => i

private theorem exists_anchor {token : Place ⊕ List Char × List Place}
    (htoken : token ∈ scan (matchVariableAt parser.withVariableTmpl) 0 parser.templatePlaces)
    (hx : x ∈ Sum.elim ([·])
      (fun found => sanitised parser.withVariableTmpl (valuePlaces inputs found)) token) :
    ∃ y ∈ Sum.elim ([·]) Prod.snd token, y ∈ parser.templatePlaces ∧ y.index = anchor x := by
  cases token with
  | inl y =>
    rw [Sum.elim_inl, List.mem_singleton] at hx
    subst hx
    have hmem := mem_of_mem_scan htoken
    refine ⟨x, List.mem_singleton_self x, hmem, ?_⟩
    rw [anchor, source_of_mem_places hmem]
  | inr found =>
    obtain ⟨key, block⟩ := found
    obtain ⟨-, hchars, hblock⟩ := block_of_mem_scan htoken
    have hsource := source_of_mem_places ((sanitised_sublist _).subset hx)
    cases block with
    | nil => cases hchars
    | cons first block =>
      refine ⟨first, List.mem_cons_self, hblock.subset List.mem_cons_self, ?_⟩
      rw [anchor, hsource]
      rfl

private theorem nodup_promptPlaces : (parser.promptPlaces inputs).Nodup := by
  have hwhole := flatMap_scan (matchVariableAt parser.withVariableTmpl) 0
    parser.templatePlaces
  rw [List.drop_zero] at hwhole
  have hnodup := @nodup_templatePlaces parser
  rw [← hwhole, List.nodup_flatMap] at hnodup
  rw [promptPlaces, substitute, List.nodup_flatMap]
  constructor
  · intro token _
    cases token with
    | inl x => exact List.nodup_singleton x
    | inr found => exact (nodup_places _ _).sublist (sanitised_sublist _)
  · apply hnodup.2.imp_of_mem
    intro token token' htoken htoken' hdisjoint x hx hx'
    obtain ⟨y, hy, hplace, hindex⟩ := exists_anchor htoken hx
    obtain ⟨y', hy', hplace', hindex'⟩ := exists_anchor htoken' hx'
    have hsame := eq_of_index_eq hplace hplace' (hindex.trans hindex'.symm)
    subst hsame
    exact hdisjoint hy hy'

private theorem infix_promptPlaces (hpart : parser.StoodTogether part)
    (h : ∀ x ∈ part, x ∈ parser.promptPlaces inputs) : part <:+: parser.promptPlaces inputs := by
  rcases hpart with hpart | ⟨i, text, hpart⟩
  · have hpassed : ∀ x ∈ part,
        .inl x ∈ scan (matchVariableAt parser.withVariableTmpl) 0 parser.templatePlaces :=
      fun x hx => passed_of_mem_promptPlaces (h x hx) (source_of_mem_places (hpart.subset hx))
    obtain ⟨front, back, hscan⟩ := infix_scan_of_passed nodup_templatePlaces hpart hpassed
    rw [promptPlaces, substitute, ← hscan, List.flatMap_append, List.flatMap_append,
      List.flatMap_map]
    refine ⟨_, _, congrArg (_ ++ · ++ _) ?_⟩
    exact (List.flatMap_singleton' part).symm
  · cases part with
    | nil => exact List.nil_infix
    | cons first rest =>
      have hall : ∀ x ∈ first :: rest,
          x ∈ sanitised parser.withVariableTmpl (places (.value i text) text) :=
        fun x hx => (sanitised_of_mem_promptPlaces (h x hx)
          (source_of_mem_places (hpart.subset hx))).1
      have hfirst := List.mem_cons_self (a := first) (l := rest)
      have hinfix := (sanitised_of_mem_promptPlaces (h first hfirst)
        (source_of_mem_places (hpart.subset hfirst))).2
      exact (infix_of_sublist (nodup_places _ _) hpart (sanitised_sublist _) hall).trans hinfix

theorem not_variable (hpart : parser.StoodTogether part)
    (h : ∀ x ∈ part, x ∈ parser.promptPlaces inputs) {key : List Char}
    (hkey : isKey parser.withVariableTmpl key = true) :
    part.map Place.char ≠ variableText key := by
  intro hchars
  cases part with
  | nil => cases hchars
  | cons first rest =>
    have hmem := h first List.mem_cons_self
    rcases hpart with hpart | ⟨i, text, hpart⟩
    · have hpassed := passed_of_mem_promptPlaces hmem
        (source_of_mem_places (hpart.subset List.mem_cons_self))
      obtain ⟨front, back, htext⟩ := hpart
      rw [List.append_assoc, List.cons_append] at htext
      apply not_mem_scan_of_find nodup_templatePlaces htext.symm _ hpassed
      rw [matchVariableAt, ← List.cons_append, List.map_append, hchars,
        matchVariable_variableText hkey]
      exact Option.some_ne_none _
    · apply head_not_mem_sanitised (nodup_places _ _) hpart hkey hchars
      exact (sanitised_of_mem_promptPlaces hmem
        (source_of_mem_places (hpart.subset List.mem_cons_self))).1

theorem passed_of_mem_keptPlaces (h : x ∈ parser.keptPlaces inputs) :
    .inl x ∈ scan matchTokenAt 0 (parser.promptPlaces inputs) := by
  rcases mem_substitute.mp h with hpassed | ⟨_, -, hnot⟩
  · exact hpassed
  · exact absurd hnot List.not_mem_nil

theorem not_controlToken (hpart : part <:+: parser.promptPlaces inputs)
    (h : ∀ x ∈ part, x ∈ parser.keptPlaces inputs) : ¬ IsControlToken (part.map Place.char) := by
  intro htoken
  cases part with
  | nil =>
    obtain ⟨inner, -, hchars⟩ := htoken
    cases hchars
  | cons first rest =>
    have hpassed := passed_of_mem_keptPlaces (h first List.mem_cons_self)
    obtain ⟨front, back, htext⟩ := hpart
    rw [List.append_assoc, List.cons_append] at htext
    apply not_mem_scan_of_find nodup_promptPlaces htext.symm _ hpassed
    rw [matchTokenAt, ← List.cons_append, List.map_append]
    exact matchToken_ne_none htoken _

variable (parser inputs)

/-- A variable that was not in the template or has a value, or a control token. -/
def Offends (text : List Char) : Prop :=
  (∃ key, isKey parser.withVariableTmpl key = true ∧ text = variableText key ∧
    ¬ (key ∈ parser.extract ∧ inputs.lookup (.ofList key) = none)) ∨ IsControlToken text

/-- Each variable in the text was in the template and had no value, and there is no control
token. -/
def Clean (text : String) : Prop :=
  ∀ part, part <:+: text.toList → ¬ parser.Offends inputs part

/-- The inputs inject neither variables nor control tokens if and only if none is put together
from characters that did not stand together. -/
theorem format_clean_iff :
    parser.Clean inputs (parser.format inputs true) ↔
      ∀ part, part <:+: parser.keptPlaces inputs → ¬ parser.StoodTogether part →
        ¬ parser.Offends inputs (part.map Place.char) := by
  rw [Clean, toList_format]
  constructor
  · intro h part hpart _
    exact h _ (hpart.map Place.char)
  · intro h text htext hoffends
    obtain ⟨part, hpart, rfl⟩ := List.infix_map_iff.mp htext
    by_cases htogether : parser.StoodTogether part
    · have hkept : ∀ x ∈ part, x ∈ parser.keptPlaces inputs := fun x hx => hpart.subset hx
      have hprompt : ∀ x ∈ part, x ∈ parser.promptPlaces inputs :=
        fun x hx => mem_of_mem_scan (passed_of_mem_keptPlaces (hkept x hx))
      rcases hoffends with ⟨key, hkey, hchars, -⟩ | htoken
      · exact not_variable htogether hprompt hkey hchars
      · exact not_controlToken (infix_promptPlaces htogether hprompt) hkept htoken
    · exact h part hpart htogether hoffends

/-- A variable in braces of its own becomes a variable, and around a control token that is cut out
another one closes up. -/
theorem format_injects :
    ¬ (PromptTemplateParser.mk "\x7b\x7bx\x7d\x7d" false).Clean
        [("x", "\x7b\x7b\x7ba\x7d\x7d\x7d")]
        ((PromptTemplateParser.mk "\x7b\x7bx\x7d\x7d" false).format
          [("x", "\x7b\x7b\x7ba\x7d\x7d\x7d")] true) ∧
      ¬ (PromptTemplateParser.mk "\x7b\x7bx\x7d\x7d" false).Clean [("x", "<<|a|>|b|>")]
        ((PromptTemplateParser.mk "\x7b\x7bx\x7d\x7d" false).format
          [("x", "<<|a|>|b|>")] true) := by
  constructor
  · intro h
    have hformat : (PromptTemplateParser.mk "\x7b\x7bx\x7d\x7d" false).format
        [("x", "\x7b\x7b\x7ba\x7d\x7d\x7d")] true = "\x7b\x7ba\x7d\x7d" := by decide
    rw [hformat] at h
    apply h _ List.infix_rfl
    exact .inl ⟨['a'], by decide, by decide, by decide⟩
  · intro h
    have hformat : (PromptTemplateParser.mk "\x7b\x7bx\x7d\x7d" false).format
        [("x", "<<|a|>|b|>")] true = "<|b|>" := by decide
    rw [hformat] at h
    apply h _ List.infix_rfl
    exact .inr ⟨['b'], by decide, by decide⟩

end PromptTemplateParser

end PlatformSpec.Prompt
