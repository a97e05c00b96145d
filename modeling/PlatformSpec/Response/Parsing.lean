import PlatformSpec.Response.Placeholder

/-!
# Reading templates

`VariableTemplateParser` of `dify_graph/nodes/base/variable_template_parser.py` with
`Template.from_answer_template` as it looks its variables up by key, and the segments of
`VariablePool.convert_template`.
-/

namespace PlatformSpec.Response

open Base PlatformSpec.Runtime

/-! ### Extracting -/

/-- A key as the parser keeps it: with its `#` marks. -/
def variableKey (key : List (List Char)) : String :=
  String.ofList ('#' :: (dotted key ++ ['#']))

/-- `re.findall(REGEX, …)`: the keys of a text from left to right; `fuel` bounds the remaining
characters. -/
def findAll : (fuel : Nat) → List Char → List (List (List Char))
  | 0, _ => []
  | _ + 1, [] => []
  | fuel + 1, c :: cs =>
    match matchPlaceholder (c :: cs) with
    | some (key, rest) => key :: findAll fuel rest
    | none => findAll fuel cs

/-- `VariableTemplateParser.extract`: a list made of a set. -/
def extract (o : SetOrder String) (template : String) : List String :=
  o.iterate (.ofList ((findAll template.toList.length template.toList).map variableKey))

/-- `VariableSelector`. -/
structure VariableSelector where
  «variable» : String
  valueSelector : Selector
  deriving DecidableEq

/-- One round of `extract_variable_selectors`. -/
def variableSelector? (variableKey : String) : Option VariableSelector :=
  let splitResult := splitDots (variableKey.toList.filter (· ≠ '#'))
  if splitResult.length < 2 then none
  else some ⟨variableKey, splitResult.map String.ofList⟩

/-- `VariableTemplateParser.extract_variable_selectors`. -/
def extractVariableSelectors (o : SetOrder String) (template : String) :
    List VariableSelector :=
  (extract o template).filterMap variableSelector?

/-- `var_map`: the later of two entries counts. -/
def varMap (selectors : List VariableSelector) (varKey : String) : Option Selector :=
  (selectors.reverse.find? fun v => v.variable = varKey).map VariableSelector.valueSelector

/-- One part of the split; `template.py:91–107`. -/
def lookedUpSegment (selectors : List VariableSelector) : Part → TemplateSegment
  | .text s => .text (String.ofList s)
  | .key k =>
    match varMap selectors (variableKey k) with
    | some selector => .variable selector
    -- "This shouldn't happen with valid templates"
    | none => .text ("\x7b\x7b" ++ variableKey k ++ "\x7d\x7d")

/-- `Template.from_answer_template` with the parser's selectors. -/
def Template.parse (o : SetOrder String) (template : String) : Template :=
  ⟨(split template).map (lookedUpSegment (extractVariableSelectors o template))⟩

/-- `TemplateSegment.__str__`. -/
def TemplateSegment.str : TemplateSegment → String
  | .text t => t
  | .variable selector => "\x7b\x7b#" ++ ".".intercalate selector ++ "#\x7d\x7d"

/-- `Template.__str__`. -/
def Template.str (t : Template) : String := String.join (t.segments.map TemplateSegment.str)

/-- The selector of a variable segment. -/
def TemplateSegment.selector? : TemplateSegment → Option Selector
  | .text _ => none
  | .variable selector => some selector

/-- The key of a placeholder part. -/
def Part.key? : Part → Option (List (List Char))
  | .text _ => none
  | .key k => some k

private theorem keys_flushText (acc : List Char) (rest : List Part) :
    (flushText acc rest).filterMap Part.key? = rest.filterMap Part.key? := by
  unfold flushText
  split
  next => rfl
  next => rfl

private theorem keys_splitParts (fuel : Nat) (acc cs : List Char) :
    (splitParts fuel acc cs).filterMap Part.key? = findAll fuel cs := by
  induction fuel generalizing acc cs with
  | zero =>
    cases cs with
    | nil => exact keys_flushText acc []
    | cons c cs => exact keys_flushText _ []
  | succ fuel ih =>
    cases cs with
    | nil => exact keys_flushText acc []
    | cons c cs =>
      rw [splitParts, findAll]
      cases matchPlaceholder (c :: cs) with
      | none => exact ih _ _
      | some found =>
        show (flushText acc (.key found.1 :: splitParts fuel [] found.2)).filterMap Part.key? = _
        rw [keys_flushText]
        exact congrArg (found.1 :: ·) (ih [] found.2)

theorem findAll_eq (template : String) :
    findAll template.toList.length template.toList = (split template).filterMap Part.key? :=
  (keys_splitParts _ [] _).symm

variable {template varKey : String} {o : SetOrder String}

theorem mem_extract :
    varKey ∈ extract o template ↔ ∃ k, .key k ∈ split template ∧ variableKey k = varKey := by
  unfold extract
  rw [SetOrder.mem_iterate, Std.ExtTreeSet.mem_ofList, List.contains_iff_mem, findAll_eq,
    List.mem_map]
  constructor
  · rintro ⟨k, hk, rfl⟩
    obtain ⟨part, hpart, hkey⟩ := List.mem_filterMap.mp hk
    cases part with
    | text s => cases hkey
    | key k' =>
      cases hkey
      exact ⟨k, hpart, rfl⟩
  · rintro ⟨k, hk, rfl⟩
    exact ⟨k, List.mem_filterMap.mpr ⟨_, hk, rfl⟩, rfl⟩

/-! ### The keys of a template -/

theorem not_hash_of_isWord {c : Char} (h : isWord c = true) : c ≠ '#' := by
  rintro rfl
  exact absurd h (by decide)

theorem IsName.word {name : List Char} (h : IsName name) :
    ∀ c ∈ name, isWord c = true := by
  obtain ⟨c, cs, rfl, hc, -, hcs⟩ := h
  intro d hd
  rcases List.mem_cons.mp hd with rfl | hd
  · unfold isWordStart at hc
    unfold isWord
    grind
  · exact hcs d hd

variable {key k : List (List Char)}

theorem ValidKey.word (h : ValidKey key) : ∀ word ∈ key, ∀ c ∈ word, isWord c = true := by
  obtain ⟨node, names, rfl, -, -, hnode, -, -, hnames⟩ := h
  intro word hword
  rcases List.mem_cons.mp hword with rfl | hword
  · exact hnode
  · exact (hnames word hword).word

theorem mem_dotted {c : Char} (h : c ∈ dotted key) : c = '.' ∨ ∃ word ∈ key, c ∈ word := by
  cases key with
  | nil => cases h
  | cons node names =>
    rw [dotted_cons, List.mem_append, List.mem_flatMap] at h
    rcases h with h | ⟨name, hname, hc⟩
    · exact .inr ⟨node, List.mem_cons_self, h⟩
    · rcases List.mem_cons.mp hc with rfl | hc
      · exact .inl rfl
      · exact .inr ⟨name, List.mem_cons_of_mem _ hname, hc⟩

theorem filter_variableKey (h : ValidKey key) :
    (variableKey key).toList.filter (· ≠ '#') = dotted key := by
  have hkeep : (dotted key).filter (· ≠ '#') = dotted key := by
    refine List.filter_eq_self.mpr fun c hc => decide_eq_true ?_
    rcases mem_dotted hc with rfl | ⟨word, hword, hcw⟩
    · decide
    · exact not_hash_of_isWord (h.word word hword c hcw)
  unfold variableKey
  rw [String.toList_ofList, List.filter_cons_of_neg (by decide), List.filter_append, hkeep,
    List.filter_cons_of_neg (by decide), List.filter_nil, List.append_nil]

/-- The selector extracted for a key of the template is the one its placeholder denotes. -/
theorem variableSelector?_key (h : .key k ∈ split template) :
    variableSelector? (variableKey k) = some ⟨variableKey k, Template.selectorOf k⟩ := by
  have hvalid := (splits_split template).valid.1 k h
  have hkey := split_isKey h
  unfold variableSelector?
  simp only [filter_variableKey hvalid, splitDots_dotted hkey]
  obtain ⟨⟨node, name, names, rfl⟩, -⟩ := hkey
  rw [if_neg (by simp)]
  rfl

theorem variable_of_variableSelector? {v : VariableSelector}
    (h : variableSelector? varKey = some v) : v.variable = varKey := by
  simp only [variableSelector?] at h
  split at h
  next => cases h
  next =>
    cases h
    rfl

/-- Looking a key of the template up finds its selector: the warned case does not happen. -/
theorem varMap_key (h : .key k ∈ split template) :
    varMap (extractVariableSelectors o template) (variableKey k) =
      some (Template.selectorOf k) := by
  have hentry : ⟨variableKey k, Template.selectorOf k⟩ ∈ extractVariableSelectors o template :=
    List.mem_filterMap.mpr ⟨_, mem_extract.mpr ⟨k, h, rfl⟩, variableSelector?_key h⟩
  unfold varMap
  cases hfind : (extractVariableSelectors o template).reverse.find? fun v =>
      v.variable = variableKey k with
  | none =>
    have := List.find?_eq_none.mp hfind _ (List.mem_reverse.mpr hentry)
    exact absurd (decide_eq_true rfl) this
  | some v =>
    have hv := List.mem_reverse.mp (List.mem_of_find?_eq_some hfind)
    have hvar : v.variable = variableKey k := by simpa using List.find?_some hfind
    obtain ⟨varKey, -, hsel⟩ := List.mem_filterMap.mp hv
    have hkey := variable_of_variableSelector? hsel
    rw [← hkey, hvar, variableSelector?_key h] at hsel
    cases hsel
    rfl

theorem Template.parse_eq (o : SetOrder String) (template : String) :
    Template.parse o template = Template.fromAnswerTemplate template := by
  unfold Template.parse Template.fromAnswerTemplate
  congr 1
  apply List.map_congr_left
  intro part hpart
  cases part with
  | text s => rfl
  | key k =>
    simp only [lookedUpSegment, varMap_key hpart]
    rfl

/-! ### Exactness -/

private theorem intercalate_toList (key : List (List Char)) :
    (".".intercalate (Template.selectorOf key)).toList = dotted key := by
  rw [String.toList_intercalate]
  unfold Template.selectorOf dotted
  rw [List.map_map]
  congr 1
  exact List.map_id'' (fun s => String.toList_ofList) key

private theorem str_segmentOf (p : Part) :
    (TemplateSegment.str (Template.segmentOf p)).toList = p.source := by
  cases p with
  | text s => exact String.toList_ofList
  | key k =>
    have hopen : "\x7b\x7b#".toList = ['{', '{', '#'] := by decide
    have hclose : "#\x7d\x7d".toList = ['#', '}', '}'] := by decide
    show ("\x7b\x7b#" ++ ".".intercalate (Template.selectorOf k) ++ "#\x7d\x7d").toList = _
    rw [String.toList_append, String.toList_append, intercalate_toList, hopen, hclose,
      List.append_assoc]
    rfl

private theorem selector?_segmentOf (p : Part) :
    (Template.segmentOf p).selector? = p.key?.map Template.selectorOf := by
  cases p <;> rfl

/-- `Template.from_answer_template` loses nothing: it prints back its text, its segments are
those of the only split of the text, no two text segments follow each other, and its variable
segments are the matches of the pattern from left to right. The parser's own selectors are the
same set, each key once. -/
theorem answer_template_exact (o : SetOrder String) (template : String) :
    (Template.parse o template).str = template ∧
      (∃! parts, Splits parts template.toList ∧
        (Template.parse o template).segments = parts.map Template.segmentOf) ∧
      (∀ front back t t', (Template.parse o template).segments ≠
        front ++ .text t :: .text t' :: back) ∧
      (Template.parse o template).segments.filterMap TemplateSegment.selector? =
        (findAll template.toList.length template.toList).map Template.selectorOf ∧
      (∀ selector, selector ∈ (extractVariableSelectors o template).map
          VariableSelector.valueSelector ↔
        .variable selector ∈ (Template.parse o template).segments) ∧
      (extract o template).Nodup := by
  have hsplits := splits_split template
  have hsegments : (Template.parse o template).segments =
      (split template).map Template.segmentOf := by
    rw [Template.parse_eq]
    rfl
  refine ⟨?_, ?_, ?_, ?_, ?_, ?_⟩
  · apply String.toList_inj.mp
    unfold Template.str
    rw [String.toList_join, hsegments, List.map_map, List.flatMap_map]
    exact (List.flatMap_congr fun p _ => str_segmentOf p).trans hsplits.source
  · exact ⟨split template, ⟨hsplits, hsegments⟩, fun parts h => h.1.unique hsplits⟩
  · intro front back t t' he
    rw [hsegments] at he
    obtain ⟨front', rest, hparts, -, hrest⟩ := List.map_eq_append_iff.mp he
    obtain ⟨p, rest', rfl, hp, hrest⟩ := List.map_eq_cons_iff.mp hrest
    obtain ⟨p', back', rfl, hp', -⟩ := List.map_eq_cons_iff.mp hrest
    cases p with
    | key k => cases hp
    | text s =>
      cases p' with
      | key k => cases hp'
      | text s' => exact hsplits.apart hparts
  · rw [hsegments, findAll_eq, List.filterMap_map, List.map_filterMap]
    exact List.filterMap_congr fun p _ => selector?_segmentOf p
  · intro selector
    rw [hsegments, List.mem_map, List.mem_map]
    constructor
    · rintro ⟨v, hv, rfl⟩
      obtain ⟨varKey, hkey, hsel⟩ := List.mem_filterMap.mp hv
      obtain ⟨k, hk, rfl⟩ := mem_extract.mp hkey
      rw [variableSelector?_key hk] at hsel
      cases hsel
      exact ⟨_, hk, rfl⟩
    · rintro ⟨p, hp, hseg⟩
      cases p with
      | text s => cases hseg
      | key k =>
        cases hseg
        exact ⟨_, List.mem_filterMap.mpr ⟨_, mem_extract.mpr ⟨k, hp, rfl⟩,
          variableSelector?_key hp⟩, rfl⟩
  · exact SetOrder.nodup_iterate o _

/-- Two placeholders of one variable. -/
def namedTwice : String := "\x7b\x7b#a.b#\x7d\x7d\x7b\x7b#a.b#\x7d\x7d"

/-- A variable named twice is two segments, while the parser extracts its selector once. -/
theorem extract_once : ¬ ∀ (o : SetOrder String) (template : String),
    (Template.parse o template).segments.filterMap TemplateSegment.selector? =
      (extractVariableSelectors o template).map VariableSelector.valueSelector := by
  intro h
  have hsegments : (Template.parse .ascending namedTwice).segments.filterMap
      TemplateSegment.selector? = [["a", "b"], ["a", "b"]] := by decide +kernel
  have hextracted : (extractVariableSelectors .ascending namedTwice).map
      VariableSelector.valueSelector = [["a", "b"]] := by decide +kernel
  have hsame := h .ascending namedTwice
  rw [hsegments, hextracted] at hsame
  cases hsame

/-! ### Rendering -/

/-- One part as `convert_template` reads it; `variable_pool.py:217–224`. -/
def convertPart (pool : VariablePool) (part : List Char) : Segment :=
  if '.' ∈ part then
    match pool.get ((splitDots part).map String.ofList) with
    | some value => value
    | none => .ofString (String.ofList part)
  else .ofString (String.ofList part)

/-- The segments of `VariablePool.convert_template`. -/
def convertSegments (pool : VariablePool) (template : String) : List Segment :=
  (split template).map fun p => convertPart pool (partText p)

/-- What a part is meant to become: text is copied, a placeholder is the segment of its variable
or the bare text of its selector. -/
def Part.Converted (pool : VariablePool) : Part → Segment → Prop
  | .text s, segment => segment.markdown = String.ofList s
  | .key k, segment =>
    segment = (pool.get (Template.selectorOf k)).getD (.ofString (String.ofList (dotted k)))

/-- Text that reads as the selector of a stored variable renders as that text. -/
def TextTransparent (pool : VariablePool) (text : List Char) : Prop :=
  '.' ∈ text → ∀ value, pool.get ((splitDots text).map String.ofList) = some value →
    value.markdown = String.ofList text

theorem converted_text_iff (pool : VariablePool) (text : List Char) :
    Part.Converted pool (.text text) (convertPart pool text) ↔ TextTransparent pool text := by
  show (convertPart pool text).markdown = String.ofList text ↔ _
  unfold convertPart TextTransparent
  split
  next hdot =>
    cases pool.get ((splitDots text).map String.ofList) with
    | none => simp
    | some value => simp [hdot]
  next hdot => simp [hdot]

private theorem converted_key (pool : VariablePool) (h : IsKey k) :
    Part.Converted pool (.key k) (convertPart pool (dotted k)) := by
  have hdot : '.' ∈ dotted k := by
    obtain ⟨⟨node, name, names, rfl⟩, -⟩ := h
    simp [dotted, List.intercalate]
  show convertPart pool (dotted k) = (pool.get (k.map String.ofList)).getD _
  unfold convertPart
  rw [if_pos hdot, splitDots_dotted h]
  cases pool.get (k.map String.ofList) with
  | none => rfl
  | some value => rfl

/-- `convert_template` replaces nothing but placeholders exactly when no text of the template
reads as the selector of a stored variable that renders otherwise. -/
theorem convert_template_exact_iff (pool : VariablePool) (template : String)
    (parts : List Part) (h : Splits parts template.toList) :
    List.Forall₂ (Part.Converted pool) parts (convertSegments pool template) ↔
      ∀ text, .text text ∈ parts → TextTransparent pool text := by
  have hparts := split_eq_iff.mpr h
  subst hparts
  unfold convertSegments
  rw [List.forall₂_map_right_iff, List.forall₂_same]
  constructor
  · intro hall text htext
    exact (converted_text_iff pool text).mp (hall _ htext)
  · intro hall part hpart
    cases part with
    | text text => exact (converted_text_iff pool text).mpr (hall text hpart)
    | key k => exact converted_key pool (split_isKey hpart)

private theorem split_nodeText : split "node.text" = [.text "node.text".toList] := by
  decide +kernel

private theorem split_sayName :
    split "say \x7b\x7b#node.text#\x7d\x7d" =
      [.text "say ".toList, .key ["node".toList, "text".toList]] := by
  decide +kernel

/-- A greeting around a variable keeps its text. -/
theorem convert_template_exact_say :
    List.Forall₂ (Part.Converted (VariablePool.empty.add "node" "text" (.plain "secret")))
      [.text "say ".toList, .key ["node".toList, "text".toList]]
      (convertSegments (VariablePool.empty.add "node" "text" (.plain "secret"))
        "say \x7b\x7b#node.text#\x7d\x7d") := by
  refine (convert_template_exact_iff _ _ _ (split_eq_iff.mp split_sayName)).mpr ?_
  intro text htext
  have htext : text = "say ".toList := by simpa using htext
  subst htext
  exact fun hdot => absurd hdot (by decide)

/-- Text outside placeholders is replaced when it reads as a selector: the template `node.text`
renders as the value of the variable. -/
theorem convert_template_replaces_text : ¬ ∀ (pool : VariablePool) (template : String)
    (parts : List Part), Splits parts template.toList →
      List.Forall₂ (Part.Converted pool) parts (convertSegments pool template) := by
  intro h
  have hall := h (VariablePool.empty.add "node" "text" (.plain "secret")) "node.text" _
    (split_eq_iff.mp split_nodeText)
  unfold convertSegments at hall
  rw [split_nodeText] at hall
  cases hall with
  | cons htext _ =>
    have hvalue : (convertPart (VariablePool.empty.add "node" "text" (.plain "secret"))
        "node.text".toList).markdown = "secret" := by decide +kernel
    exact absurd (hvalue.symm.trans htext) (by decide +kernel)

end PlatformSpec.Response
