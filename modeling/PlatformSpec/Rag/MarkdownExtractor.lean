import Mathlib.Algebra.GroupWithZero.Nat
import Mathlib.Data.List.TakeWhile
import PlatformSpec.Base.Scan
import PlatformSpec.Base.Text

/-!
# Markdown in sections

Models `core/rag/extractor/markdown_extractor.py` with the removal of hyperlinks and images off:
the lines of a text are gathered under the header above them, and a line in a code fence is no
header.
-/

namespace PlatformSpec.Rag.MarkdownExtractor

open Base Base.Scan

/-- A line that starts a code fence, or ends one. -/
def isFence (line : List Char) : Bool := "```".toList.isPrefixOf line

/-- The pattern `^#+\s`. -/
def isHeader (line : List Char) : Bool :=
  line.head? == some '#' && (line.dropWhile (· == '#')).head?.any isSpace

/-- Where `.*?>` ends. -/
def tagLength : List Char → Option Nat
  | [] => none
  | c :: rest =>
    if c = '>' then some 1 else if c = '\n' then none else (tagLength rest).map (· + 1)

/-- The pattern `<.*?>`. -/
def findTag : List Char → Option (Unit × Nat)
  | [] => none
  | c :: rest => if c = '<' then (tagLength rest).map fun n => ((), n + 1) else none

/-- The loop over the lines of `markdown_to_tups`. -/
def gather (codeBlockFlag : Bool) (currentHeader : Option (List Char)) (currentText : List Char) :
    List (List Char) → List (Option (List Char) × List Char)
  | [] => [(currentHeader, currentText)]
  | line :: lines =>
    if isFence line then
      gather (!codeBlockFlag) currentHeader (currentText ++ (line ++ ['\n'])) lines
    else if codeBlockFlag then
      gather codeBlockFlag currentHeader (currentText ++ (line ++ ['\n'])) lines
    else if isHeader line then
      (currentHeader, currentText) :: gather codeBlockFlag (some line) [] lines
    else gather codeBlockFlag currentHeader (currentText ++ (line ++ ['\n'])) lines

/-- `re.sub(r"#", "", key).strip() if key else None`. -/
def cleanKey : Option (List Char) → Option (List Char)
  | none => none
  | some [] => none
  | some (c :: key) => some (stripBoth isSpace ((c :: key).filter (· != '#')))

/-- `re.sub(r"<.*?>", "", value)`. -/
def cleanValue (value : List Char) : List Char := substitute findTag (fun _ => []) value

/-- `markdown_to_tups`. -/
def markdownToTups (markdownText : List Char) : List (Option (List Char) × List Char) :=
  (gather false none [] (markdownText.splitOn '\n')).map fun tup =>
    (cleanKey tup.1, cleanValue tup.2)

/-! ## What is kept -/

/-- The header lines, outside of the code fences. -/
def headerLines : Bool → List (List Char) → List (List Char)
  | _, [] => []
  | codeBlockFlag, line :: lines =>
    if isFence line then headerLines (!codeBlockFlag) lines
    else if !codeBlockFlag && isHeader line then line :: headerLines codeBlockFlag lines
    else headerLines codeBlockFlag lines

/-- The lines one after another, with something in place of every header line. -/
def keptText (ofHeader : List Char → List Char) : Bool → List (List Char) → List Char
  | _, [] => []
  | codeBlockFlag, line :: lines =>
    if isFence line then line ++ keptText ofHeader (!codeBlockFlag) lines
    else if !codeBlockFlag && isHeader line then
      ofHeader line ++ keptText ofHeader codeBlockFlag lines
    else line ++ keptText ofHeader codeBlockFlag lines

/-- What is behind the leading marks of a header line. -/
def afterMarks (line : List Char) : List Char := line.dropWhile (· == '#')

/-- The headers and values in order, without line breaks. -/
def readInOrder (tups : List (Option (List Char) × List Char)) : List Char :=
  tups.flatMap fun tup => tup.1.getD [] ++ tup.2.filter (· != '\n')

/-- The text without line breaks, the leading marks of the header lines and the space around the
rest of them. -/
def textKept (markdownText : List Char) : List Char :=
  keptText (fun line => stripBoth isSpace (afterMarks line)) false (markdownText.splitOn '\n')

section

variable {c : Char} {text line : List Char} {lines : List (List Char)} {f g : List Char → List Char}
  {flag : Bool}

theorem cleanValue_of_not_mem (h : '<' ∉ text) : cleanValue text = text := by
  induction text with
  | nil => rfl
  | cons d text ih =>
    obtain ⟨hd, h⟩ := not_or.mp (fun hm => h (List.mem_cons.mpr hm))
    have hf : findTag (d :: text) = none := by rw [findTag, if_neg (Ne.symm hd)]
    rw [cleanValue, substitute, scan, hf, List.flatMap_cons]
    exact congrArg (d :: ·) (ih h)

private theorem getD_cleanKey (key : Option (List Char)) :
    (cleanKey key).getD [] = stripBoth isSpace ((key.getD []).filter (· != '#')) := by
  cases key with
  | none => rfl
  | some key =>
    cases key with
    | nil => rfl
    | cons d key => rfl

theorem filter_eq_self_of_not_mem (h : c ∉ line) : line.filter (· != c) = line :=
  List.filter_eq_self.mpr fun d hd => by
    rw [bne_iff_ne]
    rintro rfl
    exact h hd

private theorem readInOrder_gather (flag : Bool) (header : Option (List Char)) {value : List Char}
    (hlines : ∀ line ∈ lines, '\n' ∉ line ∧ '<' ∉ line) (hvalue : '<' ∉ value) :
    readInOrder ((gather flag header value lines).map fun tup =>
        (cleanKey tup.1, cleanValue tup.2)) =
      (cleanKey header).getD [] ++ value.filter (· != '\n') ++
        keptText (fun line => stripBoth isSpace (line.filter (· != '#'))) flag lines := by
  induction lines generalizing flag header value with
  | nil => simp [gather, readInOrder, keptText, cleanValue_of_not_mem hvalue]
  | cons line lines ih =>
    obtain ⟨hbreak, htag⟩ := hlines line List.mem_cons_self
    have hrest : ∀ line ∈ lines, '\n' ∉ line ∧ '<' ∉ line :=
      fun l hl => hlines l (List.mem_cons_of_mem _ hl)
    have hnext : '<' ∉ value ++ (line ++ ['\n']) := by simp [hvalue, htag]
    have hfilter : (value ++ (line ++ ['\n'])).filter (· != '\n') =
        value.filter (· != '\n') ++ line := by
      rw [List.filter_append, List.filter_append, filter_eq_self_of_not_mem hbreak]
      simp
    rw [gather, keptText]
    by_cases hfence : isFence line = true
    · rw [if_pos hfence, if_pos hfence, ih _ _ hrest hnext, hfilter]
      simp
    rw [if_neg hfence, if_neg hfence]
    cases flag with
    | true =>
      rw [if_pos rfl, if_neg (by simp), ih _ _ hrest hnext, hfilter]
      simp
    | false =>
      rw [if_neg (by simp)]
      by_cases hheader : isHeader line = true
      · rw [if_pos hheader, if_pos (by simpa using hheader)]
        have ih := ih false (some line) hrest List.not_mem_nil
        rw [getD_cleanKey] at ih
        simp only [readInOrder, List.map_cons, List.flatMap_cons,
          cleanValue_of_not_mem hvalue] at ih ⊢
        rw [ih]
        simp
      · rw [if_neg hheader, if_neg (by simpa using hheader), ih _ _ hrest hnext, hfilter]
        simp

private theorem keptText_congr (h : ∀ line ∈ headerLines flag lines, f line = g line) :
    keptText f flag lines = keptText g flag lines := by
  induction lines generalizing flag with
  | nil => rfl
  | cons line lines ih =>
    rw [headerLines] at h
    rw [keptText, keptText]
    split
    next hf =>
      rw [if_pos hf] at h
      rw [ih h]
    next hf =>
      rw [if_neg hf] at h
      split
      next hh =>
        rw [if_pos hh] at h
        rw [h line List.mem_cons_self, ih fun l hl => h l (List.mem_cons_of_mem _ hl)]
      next hh =>
        rw [if_neg hh] at h
        rw [ih h]

private theorem count_keptText (hg : ∀ line, (g line).count '#' = 0) (flag : Bool)
    (lines : List (List Char)) :
    (keptText f flag lines).count '#' = (keptText g flag lines).count '#' +
      ((headerLines flag lines).map fun line => (f line).count '#').sum := by
  induction lines generalizing flag with
  | nil => rfl
  | cons line lines ih =>
    rw [keptText, keptText, headerLines]
    split
    · rw [List.count_append, List.count_append, ih, Nat.add_assoc]
    · split
      · rw [List.count_append, List.count_append, ih, hg, List.map_cons, List.sum_cons]
        omega
      · rw [List.count_append, List.count_append, ih, Nat.add_assoc]

private theorem count_dropWhile (text : List Char) :
    (text.dropWhile isSpace).count '#' = text.count '#' := by
  induction text with
  | nil => rfl
  | cons d text ih =>
    cases h : isSpace d with
    | false => rw [List.dropWhile_cons_of_neg (by simp [h])]
    | true =>
      have hd : d ≠ '#' := by
        rintro rfl
        revert h
        decide
      rw [List.dropWhile_cons_of_pos h, ih, List.count_cons_of_ne hd]

private theorem count_stripBoth (text : List Char) :
    (stripBoth isSpace text).count '#' = text.count '#' := by
  rw [stripBoth, stripRight, List.count_reverse, count_dropWhile, List.count_reverse,
    count_dropWhile]

private theorem filter_eq_afterMarks (h : '#' ∉ afterMarks line) :
    line.filter (· != '#') = afterMarks line := by
  rw [← List.takeWhile_append_dropWhile (p := (· == '#')) (l := line), List.filter_append]
  have hleading : (line.takeWhile (· == '#')).filter (· != '#') = [] := by
    refine List.filter_eq_nil_iff.mpr fun d hd => ?_
    have := List.mem_takeWhile_imp hd
    simpa using this
  rw [hleading, List.takeWhile_append_dropWhile]
  exact filter_eq_self_of_not_mem h

end

/-- The sections hold all of the text that is to be kept, if and only if no header line has a mark
behind its leading ones. -/
theorem readInOrder_markdownToTups (markdownText : List Char) (h : '<' ∉ markdownText) :
    readInOrder (markdownToTups markdownText) = textKept markdownText ↔
      ∀ line ∈ headerLines false (markdownText.splitOn '\n'), '#' ∉ afterMarks line := by
  have hlines : ∀ line ∈ markdownText.splitOn '\n', '\n' ∉ line ∧ '<' ∉ line := fun line hl =>
    ⟨(of_mem_splitOn hl).1, fun hm => h ((of_mem_splitOn hl).2 _ hm)⟩
  have hread : readInOrder (markdownToTups markdownText) =
      keptText (fun line => stripBoth isSpace (line.filter (· != '#'))) false
        (markdownText.splitOn '\n') :=
    readInOrder_gather false none hlines List.not_mem_nil
  rw [hread, textKept]
  constructor
  · intro he line hline hmark
    have hcount := count_keptText (f := fun line => stripBoth isSpace (afterMarks line))
      (g := fun line => stripBoth isSpace (line.filter (· != '#')))
      (fun line => by simp [count_stripBoth, List.count_eq_zero]) false
      (markdownText.splitOn '\n')
    rw [he] at hcount
    have hzero := List.sum_eq_zero_iff_forall_eq_nat.mp (Nat.left_eq_add.mp hcount) _
      (List.mem_map_of_mem hline)
    rw [count_stripBoth] at hzero
    exact List.count_eq_zero.mp hzero hmark
  · intro hmarks
    exact keptText_congr fun line hline => by rw [filter_eq_afterMarks (hmarks line hline)]

theorem two_sections_read :
    readInOrder (markdownToTups "a\n# b\nc".toList) = "abc".toList :=
  (readInOrder_markdownToTups "a\n# b\nc".toList (by decide)).mpr
    (forall_of_all (by decide))

/-- The mark in the name of a language is lost. -/
theorem sharp_lost :
    '<' ∉ "# C#\nx".toList ∧ markdownToTups "# C#\nx".toList =
      [(none, []), (some "C".toList, "x\n".toList)] ∧
      readInOrder (markdownToTups "# C#\nx".toList) ≠ textKept "# C#\nx".toList := by
  decide

end PlatformSpec.Rag.MarkdownExtractor
