import PlatformSpec.Runtime.VariablePool

/-!
# Answer templates

Models `dify_graph/nodes/base/template.py`, the placeholder pattern it shares with
`nodes/base/variable_template_parser.py` and `runtime/variable_pool.py`, and
`VariablePool.convert_template`. The pattern

  `\{\{(#[a-zA-Z0-9_]{1,50}(?:\.[a-zA-Z_][a-zA-Z0-9_]{0,29}){1,10}#)\}\}`

is deterministic: every repetition stops at a character its class excludes, so one
greedy pass finds the same match as backtracking.
-/

namespace PlatformSpec.Response

open PlatformSpec.Runtime

/-- `[a-zA-Z0-9_]`. -/
def isWord (c : Char) : Bool :=
  ('a' ≤ c && c ≤ 'z') || ('A' ≤ c && c ≤ 'Z') || ('0' ≤ c && c ≤ '9') || c == '_'

/-- `[a-zA-Z_]`. -/
def isWordStart (c : Char) : Bool :=
  ('a' ≤ c && c ≤ 'z') || ('A' ≤ c && c ≤ 'Z') || c == '_'

/-- `[a-zA-Z_][a-zA-Z0-9_]{0,29}`. -/
def isIdentifier : List Char → Bool
  | [] => false
  | c :: rest => isWordStart c && rest.all isWord && rest.length ≤ 29

theorem isWord_of_mem_identifier {name : List Char} (h : isIdentifier name = true) :
    ∀ c ∈ name, isWord c = true := by
  cases name with
  | nil => cases h
  | cons first rest =>
    simp only [isIdentifier, Bool.and_eq_true, List.all_eq_true] at h
    intro c hc
    cases hc with
    | head =>
      have hstart := h.1.1
      simp only [isWordStart, isWord, Bool.or_eq_true] at hstart ⊢
      exact hstart.imp_left Or.inl
    | tail _ hc => exact h.1.2 c hc

/-- `(?:\.[a-zA-Z_][a-zA-Z0-9_]{0,29})*#\}\}` with at most `n` names: the names read and
the text after the closing braces. -/
def matchNames : (n : Nat) → List Char → Option (List (List Char) × List Char)
  | _, '#' :: '}' :: '}' :: rest => some ([], rest)
  | n + 1, '.' :: c :: cs =>
    let more := cs.takeWhile isWord
    if isWordStart c && more.length ≤ 29 then
      (matchNames n (cs.drop more.length)).map fun r => ((c :: more) :: r.1, r.2)
    else none
  | _, _ => none

/-- A placeholder at the head of the text: the selector it names and the text after it. -/
def matchPlaceholder : List Char → Option (List (List Char) × List Char)
  | '{' :: '{' :: '#' :: cs =>
    let node := cs.takeWhile isWord
    if 1 ≤ node.length && node.length ≤ 50 then
      match matchNames 10 (cs.drop node.length) with
      | some (name :: names, rest) => some (node :: name :: names, rest)
      | _ => none
    else none
  | _ => none

/-- One part of `re.split`: literal text, or the dotted selector inside a placeholder. -/
inductive Part where
  | text (s : List Char)
  | key (selector : List (List Char))
  deriving DecidableEq

/-- Literal text collected so far, kept only when nonempty. -/
def flushText (acc : List Char) (rest : List Part) : List Part :=
  if acc.isEmpty then rest else .text acc.reverse :: rest

/-- `re.split` with the empty parts filtered out; `fuel` bounds the remaining characters. -/
def splitParts : (fuel : Nat) → (acc cs : List Char) → List Part
  | _, acc, [] => flushText acc []
  | 0, acc, c :: cs => flushText ((c :: cs).reverse ++ acc) []
  | fuel + 1, acc, c :: cs =>
    match matchPlaceholder (c :: cs) with
    | some (selector, rest) => flushText acc (.key selector :: splitParts fuel [] rest)
    | none => splitParts fuel (c :: acc) cs

/-- Split a template by its placeholders. -/
def split (template : String) : List Part :=
  splitParts template.toList.length [] template.toList

/-- A segment of a streaming template; `template.py:19–46`. -/
inductive TemplateSegment where
  | text (text : String)
  | variable (selector : Selector)
  deriving DecidableEq

/-- `Template`: the ordered segments of a response node. -/
structure Template where
  segments : List TemplateSegment
  deriving DecidableEq

namespace Template

/-- The selector a placeholder denotes; `variable_template_parser.py:79–86`. -/
def selectorOf (key : List (List Char)) : Selector := key.map String.ofList

/-- One split part as a template segment; `template.py:91–107`. -/
def segmentOf : Part → TemplateSegment
  | .text s => .text (String.ofList s)
  | .key k => .variable (selectorOf k)

/-- `Template.from_answer_template`. -/
def fromAnswerTemplate (template : String) : Template :=
  ⟨(split template).map segmentOf⟩

/-- The trailing separator is dropped; `template.py:140–141`. -/
private def dropTrailingText (segments : List TemplateSegment) : List TemplateSegment :=
  match segments.getLast? with
  | some (.text _) => segments.dropLast
  | _ => segments

/-- `Template.from_end_outputs` for a list of value selectors. -/
def fromEndOutputs (outputs : List Selector) : Template :=
  ⟨dropTrailingText (outputs.zipIdx.flatMap fun o =>
    (if 0 < o.2 then [.text "\n"] else []) ++
      (if o.1.isEmpty then [] else [.variable o.1]))⟩

end Template

/-- Split text at its dots, as `str.split(".")`: never empty. -/
def splitDots : List Char → List (List Char)
  | [] => [[]]
  | '.' :: cs => [] :: splitDots cs
  | c :: cs =>
    match splitDots cs with
    | [] => [[c]]
    | s :: ss => (c :: s) :: ss

/-- The text between the `#` marks of a placeholder. -/
def dotted (key : List (List Char)) : List Char := ['.'].intercalate key

/-- The text one split part contributes to the rendered answer;
`variable_pool.py:217–224`. Literal text is looked up in the pool as well. -/
def renderText (pool : VariablePool) (part : List Char) : String :=
  if '.' ∈ part then
    match pool.get ((splitDots part).map String.ofList) with
    | some value => value.markdown
    | none => String.ofList part
  else String.ofList part

/-- A split part as `convert_template` sees it: placeholders lose their `#` marks. -/
def partText : Part → List Char
  | .text s => s
  | .key k => dotted k

/-- `VariablePool.convert_template(template).markdown`. -/
def convertTemplate (pool : VariablePool) (template : String) : String :=
  String.join ((split template).map fun p => renderText pool (partText p))

/-! ### What a template renders to -/

/-- A placeholder names at least two words, none of which has a dot. -/
def IsKey (key : List (List Char)) : Prop :=
  (∃ node name names, key = node :: name :: names) ∧ ∀ word ∈ key, '.' ∉ word

theorem not_mem_takeWhile_isWord (cs : List Char) : '.' ∉ cs.takeWhile isWord := by
  intro h
  have hword : isWord '.' = true := List.all_eq_true.mp List.all_takeWhile '.' h
  exact absurd hword (by decide)

private theorem matchNames_words (n : Nat) (cs : List Char) (names : List (List Char))
    (rest : List Char) (h : matchNames n cs = some (names, rest)) :
    ∀ word ∈ names, '.' ∉ word := by
  induction n, cs using matchNames.induct generalizing names rest with
  | case1 n rest' =>
    rw [matchNames] at h
    cases h
    simp
  | case2 n c cs more hstart ih =>
    rw [matchNames, if_pos hstart] at h
    obtain ⟨⟨names', rest'⟩, hmatch, heq⟩ := Option.map_eq_some_iff.mp h
    cases heq
    intro word hword
    rcases List.mem_cons.mp hword with rfl | hword
    · rw [List.mem_cons, not_or]
      refine ⟨?_, not_mem_takeWhile_isWord cs⟩
      rintro rfl
      simp [isWordStart] at hstart
    · exact ih names' rest' hmatch word hword
  | case3 n c cs more hstart =>
    rw [matchNames, if_neg hstart] at h
    cases h
  | case4 n cs hhash hdot =>
    rw [matchNames] at h
    · cases h
    · exact hhash
    · exact hdot

variable {key : List (List Char)}

private theorem matchPlaceholder_isKey {cs : List Char}
    {rest : List Char} (h : matchPlaceholder cs = some (key, rest)) : IsKey key := by
  unfold matchPlaceholder at h
  split at h
  next =>
    simp only [] at h
    split at h
    next =>
      split at h
      next name names rest' hmatch =>
        cases h
        refine ⟨⟨_, _, _, rfl⟩, fun word hword => ?_⟩
        rcases List.mem_cons.mp hword with rfl | hword
        · exact not_mem_takeWhile_isWord _
        · exact matchNames_words _ _ _ _ hmatch word hword
      next => cases h
    next => cases h
  next => cases h

theorem mem_flushText {acc : List Char} {rest : List Part}
    (h : .key key ∈ flushText acc rest) : .key key ∈ rest := by
  unfold flushText at h
  split at h
  next => exact h
  next =>
    rcases List.mem_cons.mp h with h | h
    · cases h
    · exact h

private theorem splitParts_isKey (fuel : Nat) (acc cs : List Char) (key : List (List Char))
    (h : .key key ∈ splitParts fuel acc cs) : IsKey key := by
  induction fuel generalizing acc cs with
  | zero =>
    cases cs with
    | nil => cases mem_flushText h
    | cons c cs => cases mem_flushText h
  | succ fuel ih =>
    cases cs with
    | nil => cases mem_flushText h
    | cons c cs =>
      rw [splitParts] at h
      split at h
      next selector rest hmatch =>
        rcases List.mem_cons.mp (mem_flushText h) with heq | hrest
        · cases heq
          exact matchPlaceholder_isKey hmatch
        · exact ih [] rest hrest
      next => exact ih (c :: acc) cs h

theorem split_isKey {template : String} (h : .key key ∈ split template) :
    IsKey key :=
  splitParts_isKey _ _ _ _ h

private theorem splitDots_word {word : List Char} (h : '.' ∉ word) : splitDots word = [word] := by
  induction word with
  | nil => rfl
  | cons c word ih =>
    rw [List.mem_cons, not_or] at h
    rw [splitDots, ih h.2]
    exact fun hc => h.1 hc.symm

theorem splitDots_append {word : List Char} (h : '.' ∉ word) (rest : List Char) :
    splitDots (word ++ '.' :: rest) = word :: splitDots rest := by
  induction word with
  | nil => rfl
  | cons c word ih =>
    rw [List.mem_cons, not_or] at h
    rw [List.cons_append, splitDots, ih h.2]
    exact fun hc => h.1 hc.symm

theorem splitDots_dotted (h : IsKey key) : splitDots (dotted key) = key := by
  obtain ⟨⟨node, name, names, rfl⟩, hwords⟩ := h
  have hall : ∀ (word : List Char) (words : List (List Char)),
      (∀ w ∈ word :: words, '.' ∉ w) → splitDots (dotted (word :: words)) = word :: words := by
    intro word words
    induction words generalizing word with
    | nil =>
      intro hw
      simpa [dotted] using splitDots_word (hw word List.mem_cons_self)
    | cons next words ih =>
      intro hw
      have hrest := ih next fun w hin => hw w (List.mem_cons_of_mem _ hin)
      have hdotted : dotted (word :: next :: words) = word ++ '.' :: dotted (next :: words) := by
        simp [dotted, List.intercalate]
      rw [hdotted, splitDots_append (hw word List.mem_cons_self), hrest]
  exact hall node (name :: names) hwords

variable {pool : VariablePool}

theorem renderText_dotted {value : Segment}
    (h : IsKey key) (hvalue : pool.get (Template.selectorOf key) = some value) :
    renderText pool (dotted key) = value.markdown := by
  have hdot : '.' ∈ dotted key := by
    obtain ⟨⟨node, name, names, rfl⟩, -⟩ := h
    simp [dotted, List.intercalate]
  unfold renderText
  rw [if_pos hdot, splitDots_dotted h]
  unfold Template.selectorOf at hvalue
  rw [hvalue]

/-- The text of a segment, given the texts of the variables. -/
def TemplateSegment.rendered (texts : Selector → String) : TemplateSegment → String
  | .text t => t
  | .variable selector => texts selector

/-- A template whose literal text names no stored variable and whose variables are all stored
renders segment by segment. -/
theorem convertTemplate_eq {template : String} {texts : Selector → String}
    (htext : ∀ text, .text text ∈ split template → renderText pool text = String.ofList text)
    (hvariable : ∀ selector, .variable selector ∈ (Template.fromAnswerTemplate template).segments →
      (pool.get selector).map Segment.markdown = some (texts selector)) :
    convertTemplate pool template = String.join ((Template.fromAnswerTemplate template).segments.map
        (TemplateSegment.rendered texts)) := by
  unfold convertTemplate Template.fromAnswerTemplate
  rw [List.map_map]
  congr 1
  apply List.map_congr_left
  intro part hpart
  cases part with
  | text text => exact htext text hpart
  | key key =>
    have hin : .variable (Template.selectorOf key) ∈
        (Template.fromAnswerTemplate template).segments := List.mem_map.mpr ⟨_, hpart, rfl⟩
    obtain ⟨value, hvalue, hmarkdown⟩ := Option.map_eq_some_iff.mp (hvariable _ hin)
    show renderText pool (dotted key) = texts (Template.selectorOf key)
    rw [renderText_dotted (split_isKey hpart) hvalue, hmarkdown]

end PlatformSpec.Response
