import Mathlib.Data.List.TakeWhile
import PlatformSpec.Base.Replace
import PlatformSpec.Base.Text

/-!
# Reasoning in the output of a model

Models `LLMNode._split_reasoning`: the blocks `<think>...</think>` are taken out of a text in one
pass from left to right, and its blank lines are cleaned up. A text is the list of its characters.
-/

namespace PlatformSpec.Llm

open Base Scan Split

/-- What a character is compared as where the case is ignored: `İ` and `ı` are taken for `i`, and
the sign of kelvin for `k`. -/
def foldCase (c : Char) : Char :=
  if c.toNat = 0x130 ∨ c.toNat = 0x131 then 'i' else if c.toNat = 0x212a then 'k' else c.toLower

def openTag : List Char := "<think".toList

def closeTag : List Char := "</think>".toList

/-- `_THINK_PATTERN` at the beginning of a text: the content of the block and its length. -/
def findThink (text : List Char) : Option (List Char × Nat) :=
  if openTag <+: text.map foldCase then
    (cut ['>'] (text.drop 6)).bind fun tag =>
      (cut closeTag (tag.2.map foldCase)).map fun rest =>
        (tag.2.take rest.1.length, 6 + tag.1.length + 1 + rest.1.length + 8)
  else none

/-- `\n\s*\n`. -/
def findBlankLines : List Char → Option (Unit × Nat)
  | '\n' :: text =>
    let run := text.takeWhile isSpace
    if '\n' ∈ run then some ((), (beforeLast '\n' run).length + 2) else none
  | _ => none

/-- `reasoning_format`. -/
inductive ReasoningFormat where
  | separated
  | tagged

/-- `re.sub(r"\n\s*\n", "\n\n", clean_text)`. -/
def cleanBlankLines (cleanText : List Char) : List Char :=
  substitute findBlankLines (fun _ => ['\n', '\n']) cleanText

/-- `LLMNode._split_reasoning`: the text and the reasoning content. -/
def splitReasoning (text : List Char) (reasoningFormat : ReasoningFormat := .tagged) :
    List Char × List Char :=
  match reasoningFormat with
  | .tagged => (text, [])
  | .separated =>
    let contents := ((scan findThink 0 text).filterMap Sum.getRight?).map Prod.fst
    (stripBoth isSpace (cleanBlankLines (substitute findThink (fun _ => []) text)),
      List.intercalate ['\n'] (contents.map (stripBoth isSpace)))

/-! ## Blocks -/

section Blocks

variable {text content block rest : List Char} {n : Nat} {c : Char}

/-- A block of reasoning and its content. -/
def IsBlock (content block : List Char) : Prop :=
  ∃ tag attributes close, block = tag ++ (attributes ++ '>' :: (content ++ close)) ∧
    tag.map foldCase = openTag ∧ '>' ∉ attributes ∧ close.map foldCase = closeTag

/-- A text begins with a block. -/
def Begins (text : List Char) : Prop := ∃ content block, IsBlock content block ∧ block <+: text

/-- There is a block in a text. -/
def HasBlock (text : List Char) : Prop := ∃ content block, IsBlock content block ∧ block <:+: text

theorem isBlock_of_findThink (h : findThink text = some (content, n)) :
    ∃ block rest, text = block ++ rest ∧ block.length = n ∧ IsBlock content block := by
  rw [findThink, Option.ite_none_right_eq_some] at h
  obtain ⟨hopen, h⟩ := h
  obtain ⟨⟨attributes, behind⟩, htag, h⟩ := Option.bind_eq_some_iff.mp h
  obtain ⟨⟨front, back⟩, hclose, h⟩ := Option.map_eq_some_iff.mp h
  cases h
  obtain ⟨folded, hfolded⟩ := hopen
  obtain ⟨tag, other, rfl, htagfold, -⟩ := List.map_eq_append_iff.mp hfolded.symm
  have hlength : tag.length = 6 := by rw [← List.length_map (f := foldCase), htagfold]; rfl
  rw [List.drop_left' hlength] at htag
  obtain rfl := eq_of_cut htag
  have hattributes : '>' ∉ attributes := fun hmem =>
    not_infix_of_cut htag (List.cons_ne_nil _ _) ((List.singleton_infix_iff _ _).mpr hmem)
  obtain ⟨shut, last, rfl, hshut, -⟩ := List.map_eq_append_iff.mp (eq_of_cut hclose)
  obtain ⟨content, close, rfl, rfl, hclosefold⟩ := List.map_eq_append_iff.mp hshut
  have hclosed : close.length = 8 := by rw [← List.length_map (f := foldCase), hclosefold]; rfl
  refine ⟨tag ++ (attributes ++ '>' :: (content ++ close)), last, by simp, ?_, ?_⟩
  · simp [hlength, hclosed]
    omega
  · refine ⟨tag, attributes, close, ?_, htagfold, hattributes, hclosefold⟩
    simp

theorem findThink_of_isBlock (h : IsBlock content block) (rest : List Char) :
    ∃ found n, findThink (block ++ rest) = some (found, n) ∧ n ≤ block.length := by
  obtain ⟨tag, attributes, close, rfl, htag, hattributes, hclose⟩ := h
  have hlength : tag.length = 6 := by rw [← List.length_map (f := foldCase), htag]; rfl
  have hclosed : close.length = 8 := by rw [← List.length_map (f := foldCase), hclose]; rfl
  have hcut : cut ['>'] (attributes ++ '>' :: (content ++ close ++ rest)) =
      some (attributes, content ++ close ++ rest) := cut_singleton hattributes
  obtain ⟨⟨front, back⟩, hfront⟩ :
      ∃ p, cut closeTag ((content ++ close).map foldCase) = some p := by
    rw [← Option.ne_none_iff_exists', ne_eq, cut_eq_none_iff, not_not, List.map_append, hclose]
    exact (List.suffix_append _ _).isInfix
  have hle := congrArg List.length (eq_of_cut hfront)
  refine ⟨(content ++ close ++ rest).take front.length,
    6 + attributes.length + 1 + front.length + 8, ?_, ?_⟩
  · have hopen : openTag <+:
        (tag ++ (attributes ++ '>' :: (content ++ close)) ++ rest).map foldCase := by
      rw [List.append_assoc, List.map_append, htag]
      exact List.prefix_append _ _
    have hdrop : List.drop 6 (tag ++ (attributes ++ '>' :: (content ++ close)) ++ rest) =
        attributes ++ '>' :: (content ++ close ++ rest) := by
      rw [List.append_assoc, List.drop_left' hlength]
      simp
    rw [findThink, if_pos hopen, hdrop, hcut, Option.bind_some, List.map_append, cut_append hfront]
    rfl
  · have hclosing : closeTag.length = 8 := rfl
    simp only [List.length_append, List.length_map, List.length_cons] at hle ⊢
    omega

theorem findThink_eq_none_iff : findThink text = none ↔ ¬ Begins text := by
  constructor
  · rintro hnone ⟨content, block, hblock, rest, rfl⟩
    obtain ⟨found, n, hfound, -⟩ := findThink_of_isBlock hblock rest
    cases hnone.symm.trans hfound
  · intro h
    refine Option.eq_none_iff_forall_ne_some.mpr fun p hp => h ?_
    obtain ⟨block, rest, rfl, -, hblock⟩ := isBlock_of_findThink hp
    exact ⟨p.1, block, hblock, rest, rfl⟩

/-- A text as the characters outside of blocks and the blocks with their contents: from left to
right a block stands wherever one can begin, and it is no longer than it has to be. -/
inductive Parted : List Char → List (Char ⊕ List Char × List Char) → Prop
  | nil : Parted [] []
  | passed {c text parts} : ¬ Begins (c :: text) → Parted text parts →
      Parted (c :: text) (.inl c :: parts)
  | block {content block text parts} : IsBlock content block →
      (∀ content' other, IsBlock content' other → other <+: block ++ text →
        block.length ≤ other.length) →
      Parted text parts → Parted (block ++ text) (.inr (content, block) :: parts)

theorem isSpace_foldCase (h : isSpace c = true) : isSpace (foldCase c) = true := by
  have hlower : c.toLower = c := dif_neg fun hletter => by
    have hle : 65 ≤ c.toNat ∧ c.toNat ≤ 90 := hletter
    simp [isSpace] at h
    omega
  rw [foldCase, hlower]
  simp [isSpace] at h
  rw [if_neg (by omega), if_neg (by omega)]
  simp [isSpace, h]

theorem not_space_of_fold {tag word : List Char} (h : tag.map foldCase = word)
    (hword : word.any isSpace = false) : ∀ c ∈ tag, isSpace c = false := by
  intro c hc
  rw [← Bool.not_eq_true]
  intro hspace
  have hfold := List.any_eq_false.mp hword (foldCase c) (h ▸ List.mem_map_of_mem hc)
  exact hfold (isSpace_foldCase hspace)

theorem IsBlock.tags (h : IsBlock content block) : ∃ tag attributes close,
    block = tag ++ (attributes ++ '>' :: (content ++ close)) ∧ '>' ∉ attributes ∧
      tag.map foldCase = openTag ∧ close.map foldCase = closeTag ∧ (tag ≠ [] ∧ close ≠ []) ∧
        (∀ c ∈ tag, isSpace c = false) ∧ ∀ c ∈ close, isSpace c = false := by
  obtain ⟨tag, attributes, close, rfl, htag, hattributes, hclose⟩ := h
  refine ⟨tag, attributes, close, rfl, hattributes, htag, hclose, ⟨?_, ?_⟩,
    not_space_of_fold htag (by decide), not_space_of_fold hclose (by decide)⟩
  · rintro rfl
    cases htag
  · rintro rfl
    cases hclose

theorem IsBlock.ends (h : IsBlock content block) : block ≠ [] ∧
    (∀ c ∈ block.head?, isSpace c = false) ∧ ∀ c ∈ block.getLast?, isSpace c = false := by
  obtain ⟨tag, attributes, close, rfl, -, -, -, ⟨htag, hclose⟩, hopen, hshut⟩ := h.tags
  refine ⟨by simp [htag], fun c hc => hopen c ?_, fun c hc => hshut c ?_⟩
  · rw [List.head?_append_of_ne_nil _ htag] at hc
    exact List.mem_of_mem_head? hc
  · rw [← List.append_assoc, ← List.cons_append, ← List.append_assoc,
      List.getLast?_append_of_ne_nil _ hclose] at hc
    exact List.mem_of_getLast? hc

theorem parted_scan (text : List Char) : Parted text (scan findThink 0 text) := by
  induction text using scan_induction findThink with
  | nil => exact .nil
  | passed x text h ih =>
    rw [scan_of_passed h]
    exact .passed (findThink_eq_none_iff.mp h) ih
  | found x text content n h ih =>
    obtain ⟨block, rest, htext, rfl, hblock⟩ := isBlock_of_findThink h
    cases block with
    | nil => exact absurd rfl hblock.ends.1
    | cons y block =>
      obtain ⟨rfl, rfl⟩ := List.cons.inj htext
      rw [List.length_cons, Nat.add_sub_cancel, List.append_eq, List.drop_left] at ih
      rw [htext] at h ⊢
      rw [scan_found (List.cons_ne_nil _ _) h]
      refine .block hblock (fun content' other hother ⟨back, hback⟩ => ?_) ih
      obtain ⟨found, n, hfound, hle⟩ := findThink_of_isBlock hother back
      rw [hback, h] at hfound
      cases hfound
      exact hle

theorem substitute_findThink (text : List Char) : substitute findThink (fun _ => []) text =
    (scan findThink 0 text).filterMap Sum.getLeft? := by
  rw [substitute]
  induction scan findThink 0 text with
  | nil => rfl
  | cons token tokens ih =>
    rw [List.flatMap_cons, ih]
    cases token <;> rfl

/-- Nothing is taken out of a text without a block, and something out of any other. -/
theorem length_substitute (text : List Char) :
    (¬ HasBlock text → substitute findThink (fun _ => []) text = text) ∧
      (HasBlock text → (substitute findThink (fun _ => []) text).length < text.length) := by
  induction text using scan_induction findThink with
  | nil =>
    refine ⟨fun _ => rfl, fun ⟨content, block, hblock, hinfix⟩ => ?_⟩
    exact absurd (List.infix_nil.mp hinfix) hblock.ends.1
  | passed x text h ih =>
    have hbegins := findThink_eq_none_iff.mp h
    have hiff : HasBlock (x :: text) ↔ HasBlock text := by
      constructor
      · rintro ⟨content, block, hblock, hinfix⟩
        obtain hprefix | htail := List.infix_cons_iff.mp hinfix
        · exact absurd ⟨content, block, hblock, hprefix⟩ hbegins
        · exact ⟨content, block, hblock, htail⟩
      · rintro ⟨content, block, hblock, hinfix⟩
        exact ⟨content, block, hblock, List.infix_cons hinfix⟩
    rw [substitute_of_passed h, hiff, List.length_cons, List.length_cons]
    exact ⟨fun hnot => congrArg (x :: ·) (ih.1 hnot), fun hhas => Nat.succ_lt_succ (ih.2 hhas)⟩
  | found x text content n h ih =>
    obtain ⟨block, rest, htext, rfl, hblock⟩ := isBlock_of_findThink h
    refine ⟨fun hnot => absurd ⟨content, block, hblock, [], rest, htext.symm⟩ hnot, fun _ => ?_⟩
    rw [substitute_of_found h, List.nil_append, List.length_cons]
    have hle := (@substitute_sublist _ _ findThink (fun _ => [])
      (fun _ => List.nil_sublist _) (text.drop (block.length - 1))).length_le
    rw [List.length_drop] at hle
    omega

end Blocks

/-! ## Blank lines -/

section BlankLines

variable {a b text w x y : List Char} {c : Char} {n : Nat} {u : Unit}

/-- White space between two line breaks is dropped. -/
inductive Tidied : List Char → List Char → Prop
  | nil : Tidied [] []
  | char (c : Char) {a b} : Tidied a b → Tidied (c :: a) (c :: b)
  | gap (w : List Char) {a b} : (∀ c ∈ w, isSpace c = true) → Tidied a b →
      Tidied ('\n' :: (w ++ '\n' :: a)) ('\n' :: '\n' :: b)

theorem findBlankLines_eq_some (h : findBlankLines (c :: text) = some (u, n)) :
    c = '\n' ∧ ∃ w rest, text = w ++ '\n' :: rest ∧ (∀ d ∈ w, isSpace d = true) ∧
      '\n' ∉ rest.takeWhile isSpace ∧ n = w.length + 2 := by
  unfold findBlankLines at h
  split at h
  next text' heq =>
    obtain ⟨rfl, rfl⟩ := List.cons.inj heq
    obtain ⟨hmem, h⟩ := Option.ite_none_right_eq_some.mp h
    cases h
    obtain ⟨hrun, hlast⟩ := eq_append_last hmem
    have hall (d : Char) (hd : d ∈ text.takeWhile isSpace) : isSpace d = true :=
      List.mem_takeWhile_imp hd
    refine ⟨rfl, beforeLast '\n' (text.takeWhile isSpace),
      afterLast '\n' (text.takeWhile isSpace) ++ text.dropWhile isSpace, ?_, ?_, ?_, rfl⟩
    · rw [← List.cons_append, ← List.append_assoc, ← hrun, List.takeWhile_append_dropWhile]
    · intro d hd
      exact hall d (hrun ▸ List.mem_append_left _ hd)
    · rw [List.takeWhile_append_of_pos]
      · rw [List.mem_append, not_or]
        refine ⟨hlast, ?_⟩
        cases hd : text.dropWhile isSpace with
        | nil => exact List.not_mem_nil
        | cons d l =>
          have hnot := List.head?_dropWhile_not isSpace text
          rw [hd] at hnot
          rw [List.takeWhile_cons_of_neg (by simpa using hnot)]
          exact List.not_mem_nil
      · intro d hd
        exact hall d (hrun ▸ List.mem_append_right _ (List.mem_cons_of_mem _ hd))
  next => cases h

private theorem drop_found (w rest : List Char) :
    (w ++ '\n' :: rest).drop (w.length + 2 - 1) = rest := by
  rw [List.append_cons]
  exact List.drop_left' (by simp)

theorem findBlankLines_eq_none (h : findBlankLines ('\n' :: text) = none) :
    '\n' ∉ text.takeWhile isSpace := by
  intro hmem
  rw [findBlankLines, if_pos hmem] at h
  cases h

theorem tidied_cleanBlankLines (text : List Char) : Tidied text (cleanBlankLines text) := by
  unfold cleanBlankLines
  induction text using scan_induction findBlankLines with
  | nil => exact .nil
  | passed c text h ih =>
    rw [substitute_of_passed h]
    exact .char c ih
  | found c text u n h ih =>
    rw [substitute_of_found h]
    obtain ⟨rfl, w, rest, rfl, hw, -, rfl⟩ := findBlankLines_eq_some h
    rw [drop_found] at ih ⊢
    exact .gap w hw ih

theorem Tidied.length_le (h : Tidied a b) : b.length ≤ a.length := by
  induction h with
  | nil => exact Nat.le_refl _
  | char c _ ih => exact Nat.succ_le_succ ih
  | gap w _ _ ih =>
    simp
    omega

theorem Tidied.mem_takeWhile (h : Tidied a b) (hb : '\n' ∈ b.takeWhile isSpace) :
    '\n' ∈ a.takeWhile isSpace := by
  induction h with
  | nil => exact hb
  | char c _ ih =>
    rw [List.takeWhile_cons] at hb ⊢
    split at hb
    next hc =>
      rw [if_pos hc]
      exact (List.mem_cons.mp hb).elim (fun he => he ▸ List.mem_cons_self)
        fun hmem => List.mem_cons_of_mem _ (ih hmem)
    next => cases hb
  | gap w _ _ _ => exact List.mem_cons_self

/-- There is nothing between two line breaks that could be dropped. -/
def Tight (s : List Char) : Prop :=
  ∀ w, w ≠ [] → (∀ c ∈ w, isSpace c = true) → ¬ '\n' :: (w ++ ['\n']) <:+: s

theorem newline_mem_takeWhile (hw : ∀ c ∈ w, isSpace c = true)
    (h : w ++ ['\n'] <+: text) : '\n' ∈ text.takeWhile isSpace := by
  obtain ⟨rest, rfl⟩ := h
  rw [List.append_assoc, List.takeWhile_append_of_pos hw]
  exact List.mem_append_right _ List.mem_cons_self

theorem Tight.cleanBlankLines_eq (h : Tight text) : cleanBlankLines text = text := by
  unfold cleanBlankLines
  induction text using scan_induction findBlankLines with
  | nil => rfl
  | passed c text hnone ih =>
    rw [substitute_of_passed hnone, ih fun w hne hw hin => h w hne hw (List.infix_cons hin)]
  | found c text u n hsome ih =>
    rw [substitute_of_found hsome]
    obtain ⟨rfl, w, rest, rfl, hw, -, rfl⟩ := findBlankLines_eq_some hsome
    have hnil : w = [] := by
      by_contra hne
      exact h w hne hw ⟨[], rest, by simp⟩
    subst hnil
    rw [drop_found] at ih ⊢
    rw [ih fun w hne hw hin => h w hne hw (List.infix_cons (List.infix_cons hin))]
    rfl

theorem tight_cleanBlankLines (text : List Char) : Tight (cleanBlankLines text) := by
  unfold cleanBlankLines
  induction text using scan_induction findBlankLines with
  | nil =>
    intro w _ _ h
    cases List.infix_nil.mp h
  | passed c text h ih =>
    rw [substitute_of_passed h]
    intro w hne hw hin
    obtain hprefix | htail := List.infix_cons_iff.mp hin
    · obtain ⟨rfl, hbehind⟩ := List.cons_prefix_cons.mp hprefix
      exact findBlankLines_eq_none h
        ((tidied_cleanBlankLines text).mem_takeWhile (newline_mem_takeWhile hw hbehind))
    · exact ih w hne hw htail
  | found c text u n h ih =>
    rw [substitute_of_found h]
    obtain ⟨rfl, v, rest, rfl, hv, hrest, rfl⟩ := findBlankLines_eq_some h
    rw [drop_found] at ih ⊢
    have hclean {w : List Char} (hw : ∀ c ∈ w, isSpace c = true) :
        ¬ w ++ ['\n'] <+: cleanBlankLines rest := fun hprefix =>
      hrest ((tidied_cleanBlankLines rest).mem_takeWhile (newline_mem_takeWhile hw hprefix))
    intro w hne hw hin
    obtain hprefix | hin := List.infix_cons_iff.mp hin
    · obtain ⟨d, w, rfl⟩ := List.exists_cons_of_ne_nil hne
      obtain ⟨-, hprefix⟩ := List.cons_prefix_cons.mp hprefix
      exact hclean (fun e he => hw e (List.mem_cons_of_mem _ he))
        (List.cons_prefix_cons.mp hprefix).2
    obtain hprefix | hin := List.infix_cons_iff.mp hin
    · exact hclean hw (List.cons_prefix_cons.mp hprefix).2
    · exact ih w hne hw hin

/-- White space stands in for white space. -/
inductive Respaced : List Char → List Char → Prop
  | nil : Respaced [] []
  | char (c : Char) {a b} : isSpace c = false → Respaced a b → Respaced (c :: a) (c :: b)
  | gap {v w a b} : v ≠ [] → w ≠ [] → (∀ c ∈ v, isSpace c = true) → (∀ c ∈ w, isSpace c = true) →
      Respaced a b → Respaced (v ++ a) (w ++ b)

theorem Respaced.symm (h : Respaced a b) : Respaced b a := by
  induction h with
  | nil => exact .nil
  | char c hc _ ih => exact .char c hc ih
  | gap hv hw hallv hallw _ ih => exact .gap hw hv hallw hallv ih

theorem Tidied.respaced (h : Tidied a b) : Respaced a b := by
  induction h with
  | nil => exact .nil
  | char c _ ih =>
    cases hc : isSpace c with
    | false => exact .char c hc ih
    | true =>
      exact .gap (List.cons_ne_nil c []) (List.cons_ne_nil c []) (by simpa using hc)
        (by simpa using hc) ih
  | gap w hw _ ih =>
    have hspace : isSpace '\n' = true := by decide
    have hgap := Respaced.gap (v := '\n' :: (w ++ ['\n'])) (w := ['\n', '\n']) (by simp) (by simp)
      (by simpa [hspace, or_imp, forall_and] using hw) (by simp [hspace]) ih
    simpa using hgap

theorem Respaced.cut (hc : isSpace c = false) (h : Respaced (x ++ c :: y) b) :
    ∃ x' y', b = x' ++ c :: y' ∧ Respaced x x' ∧ Respaced y y' := by
  generalize hl : x ++ c :: y = l at h
  induction h generalizing x with
  | nil => simp at hl
  | char d hd h ih =>
    cases x with
    | nil =>
      obtain ⟨rfl, rfl⟩ := List.cons.inj hl
      exact ⟨[], _, rfl, .nil, h⟩
    | cons e x =>
      obtain ⟨rfl, hx⟩ := List.cons.inj hl
      obtain ⟨x', y', rfl, hx', hy'⟩ := ih hx
      exact ⟨e :: x', y', rfl, .char e hd hx', hy'⟩
  | @gap v w a b hv hw hallv hallw h ih =>
    obtain ⟨z, rfl, hz⟩ | ⟨z, rfl, hz⟩ := List.append_eq_append_iff.mp hl
    · cases z with
      | nil =>
        obtain ⟨x', y', rfl, hx', hy'⟩ := ih (x := []) hz
        exact ⟨w ++ x', y', (List.append_assoc _ _ _).symm,
          by simpa using Respaced.gap hv hw hallv hallw hx', hy'⟩
      | cons d z =>
        obtain ⟨rfl, -⟩ := List.cons.inj hz
        exact absurd (hallv c (by simp)) (by simp [hc])
    · obtain ⟨x', y', rfl, hx', hy'⟩ := ih hz.symm
      exact ⟨w ++ x', y', (List.append_assoc _ _ _).symm, .gap hv hw hallv hallw hx', hy'⟩

theorem Respaced.eq_nil (h : Respaced a b) (ha : a = []) : b = [] := by
  induction h with
  | nil => rfl
  | char c _ _ _ => cases ha
  | gap hv _ _ _ _ _ => exact absurd (List.append_eq_nil_iff.mp ha).1 hv

theorem Respaced.cut_word (hne : w ≠ []) (hw : ∀ c ∈ w, isSpace c = false)
    (h : Respaced (x ++ (w ++ y)) b) :
    ∃ x' y', b = x' ++ (w ++ y') ∧ Respaced x x' ∧ Respaced y y' := by
  induction w generalizing x b with
  | nil => exact absurd rfl hne
  | cons c w ih =>
    obtain ⟨hc, hw⟩ := List.forall_mem_cons.mp hw
    obtain ⟨x', z, rfl, hx', hz⟩ := h.cut hc
    cases w with
    | nil => exact ⟨x', z, rfl, hx', hz⟩
    | cons d w =>
      obtain ⟨x'', y', rfl, hnil, hy'⟩ := ih (x := []) (List.cons_ne_nil d w) hw hz
      rw [hnil.eq_nil rfl]
      exact ⟨x', y', rfl, hx', hy'⟩

theorem Respaced.hasBlock (h : Respaced a b) (ha : HasBlock a) : HasBlock b := by
  obtain ⟨content, block, hblock, front, back, rfl⟩ := ha
  obtain ⟨tag, attributes, close, rfl, hattributes, htag, hclose, ⟨hne, hne'⟩, hopen, hshut⟩ :=
    hblock.tags
  rw [List.append_assoc, List.append_assoc] at h
  obtain ⟨front', b, rfl, -, h⟩ := h.cut_word hne hopen
  rw [List.append_assoc, List.cons_append, List.append_assoc] at h
  obtain ⟨attributes', b, rfl, hsame, h⟩ := h.cut (c := '>') (by decide)
  obtain ⟨content', back', rfl, -, -⟩ := h.cut_word hne' hshut
  refine ⟨content', tag ++ (attributes' ++ '>' :: (content' ++ close)),
    ⟨tag, attributes', close, rfl, htag, fun hmem => ?_, hclose⟩, front', back', by simp⟩
  obtain ⟨s, t, rfl⟩ := List.append_of_mem hmem
  obtain ⟨s', t', rfl, -, -⟩ := hsame.symm.cut (c := '>') (by decide)
  exact hattributes (by simp)

private theorem infix_stripBoth (text : List Char) : stripBoth isSpace text <:+: text :=
  (prefix_stripRight _).isInfix.trans (List.dropWhile_suffix _).isInfix

theorem hasBlock_stripBoth : HasBlock (stripBoth isSpace text) ↔ HasBlock text := by
  constructor
  · rintro ⟨content, block, hblock, hinfix⟩
    exact ⟨content, block, hblock, hinfix.trans (infix_stripBoth text)⟩
  · rintro ⟨content, block, hblock, front, back, rfl⟩
    obtain ⟨hne, hfirst, hlast⟩ := hblock.ends
    rw [stripBoth_append hne hfirst hlast]
    exact ⟨content, block, hblock, _, _, rfl⟩

end BlankLines

/-! ## The text that is returned -/

/-- What is returned is what is outside of the blocks, but for white space at the ends and between
line breaks. It has no block, and nothing changes when it is split again, if and only if what is
outside of the blocks does not make up one. -/
theorem splitReasoning_separated (text : List Char) : ∃ parts tidied,
    Parted text parts ∧ Tidied (parts.filterMap Sum.getLeft?) tidied ∧
      (splitReasoning text .separated).1 = stripBoth isSpace tidied ∧
      (¬ HasBlock (splitReasoning text .separated).1 ↔
        ¬ HasBlock (parts.filterMap Sum.getLeft?)) ∧
      ((splitReasoning (splitReasoning text .separated).1 .separated).1 =
          (splitReasoning text .separated).1 ↔
        ¬ HasBlock (parts.filterMap Sum.getLeft?)) := by
  have htidied := tidied_cleanBlankLines ((scan findThink 0 text).filterMap Sum.getLeft?)
  refine ⟨_, _, parted_scan text, htidied, by rw [splitReasoning, substitute_findThink], ?_⟩
  have hiff : HasBlock (splitReasoning text .separated).1 ↔
      HasBlock ((scan findThink 0 text).filterMap Sum.getLeft?) := by
    rw [splitReasoning, substitute_findThink, hasBlock_stripBoth]
    exact ⟨htidied.respaced.symm.hasBlock, htidied.respaced.hasBlock⟩
  refine ⟨not_congr hiff, ?_⟩
  rw [← hiff]
  obtain ⟨result, hresult⟩ : ∃ result, result = (splitReasoning text .separated).1 := ⟨_, rfl⟩
  rw [← hresult]
  obtain ⟨hnone, hsome⟩ := length_substitute result
  constructor
  · intro hsame hhas
    have hless := hsome hhas
    have hclean := (tidied_cleanBlankLines (substitute findThink (fun _ => []) result)).length_le
    have hstrip := (infix_stripBoth
      (cleanBlankLines (substitute findThink (fun _ => []) result))).length_le
    have hlength := congrArg List.length hsame
    simp only [splitReasoning] at hlength
    omega
  · intro hnot
    have hinfix : result <:+: cleanBlankLines (substitute findThink (fun _ => []) text) := by
      rw [hresult]
      exact infix_stripBoth _
    have htight : Tight result := fun w hne hw hin =>
      tight_cleanBlankLines _ w hne hw (hin.trans hinfix)
    rw [splitReasoning, hnone hnot, htight.cleanBlankLines_eq, hresult]
    exact stripBoth_stripBoth _

/-- Two halves of a tag come together when the block between them is taken out, and white space at
the beginning is dropped. -/
theorem splitReasoning_fails : (¬ ∀ text, ¬ HasBlock (splitReasoning text .separated).1) ∧
    (¬ ∀ text, (splitReasoning (splitReasoning text .separated).1 .separated).1 =
      (splitReasoning text .separated).1) ∧
    ¬ ∀ text, ¬ HasBlock text → (splitReasoning text .separated).1 = text := by
  have hleft : (splitReasoning "<thi<think>a</think>nk>b</think>".toList .separated).1 =
      "<think>b</think>".toList := by decide
  refine ⟨fun h => ?_, fun h => ?_, fun h => ?_⟩
  · apply h "<thi<think>a</think>nk>b</think>".toList
    rw [hleft]
    exact ⟨['b'], "<think>b</think>".toList,
      ⟨openTag, [], closeTag, rfl, by decide, List.not_mem_nil, by decide⟩, List.infix_rfl⟩
  · have hagain := h "<thi<think>a</think>nk>b</think>".toList
    rw [hleft] at hagain
    exact absurd hagain (by decide)
  · have hnot : ¬ HasBlock " a".toList := fun hhas =>
      absurd ((length_substitute " a".toList).2 hhas) (by decide)
    exact absurd (h " a".toList hnot) (by decide)

end PlatformSpec.Llm
