import PlatformSpec.Base.Split
import PlatformSpec.Rag.TextSplitter

/-!
# Splitting recursively

Models `RecursiveCharacterTextSplitter` of `core/rag/splitter/text_splitter.py` and
`FixedRecursiveCharacterTextSplitter` of `core/rag/splitter/fixed_text_splitter.py`.
-/

namespace PlatformSpec.Rag

open Base Base.Split

/-- `re.search` and `re.split` of a pattern, which raise when it is none. A group that takes no
part in a match splits off `None`. -/
structure Re where
  search : List Char → List Char → Except String Bool
  split : List Char → List Char → Except String (List (Option (List Char)))

/-- The pieces with the separator kept at the end of each but the last. -/
def keepAtEnd (separator : List Char) (splits : List (List Char)) : List (List Char) :=
  splits.dropLast.map (· ++ separator) ++ splits.getLast?.toList

/-- `s not in {"", "\n"}`. -/
def notBlank (s : List Char) : Bool := decide (s ∉ [[], ['\n']])

/-- The length function takes texts only. -/
def allTexts (splits : List (Option (List Char))) : Except String (List (List Char)) :=
  splits.mapM fun
    | some s => .ok s
    | none => .error "object of type 'NoneType' has no len()"

/-- `_split_text_with_regex`, followed by a length function. -/
def splitTextWithRegex (re : Re) (text separator : List Char) (keepSeparator : Bool) :
    Except String (List (List Char)) :=
  if separator = [] then .ok ((text.map fun c => [c]).filter notBlank)
  else if keepSeparator then
    .ok ((keepAtEnd separator (pieces separator text)).filter notBlank)
  else do
    let splits ← re.split separator text
    let texts ← allTexts splits
    return texts.filter notBlank

namespace TextSplitter

variable (t : TextSplitter)

/-- The pieces with their lengths. -/
def measured (splits : List (List Char)) : List (List Char × Int) :=
  splits.zip (t.lengthFunction splits)

/-- `_separator`, which joins the pieces again. -/
def joint (separator : List Char) : List Char := if t.keepSeparator then [] else separator

/-- The pieces gathered so far, merged. -/
def mergeGood (separator : List Char) (good : List (List Char × Int)) :
    Except String (List (List Char)) :=
  if good = [] then .ok [] else t.mergeSplits good (t.joint separator)

/-- The loop over the pieces: the short ones are merged, the long ones are split further if there
is a way to. -/
def collect (separator : List Char)
    (further : Option (List Char → Except String (List (List Char)))) :
    List (List Char × Int) → List (List Char × Int) → Except String (List (List Char))
  | [], good => t.mergeGood separator good
  | (s, sLen) :: rest, good =>
    if sLen < t.chunkSize then collect separator further rest (good ++ [(s, sLen)])
    else do
      let merged ← t.mergeGood separator good
      let otherInfo ← further.elim (.ok [s]) fun splitFurther => splitFurther s
      let chunks ← collect separator further rest []
      return merged ++ otherInfo ++ chunks

/-- What `_split_text` does once it has its separator. -/
def splitTextAt (re : Re) (text separator : List Char)
    (further : Option (List Char → Except String (List (List Char)))) :
    Except String (List (List Char)) := do
  let splits ← splitTextWithRegex re text separator t.keepSeparator
  t.collect separator further (t.measured splits) []

/-- The loop of `_split_text` over its separators. The last one, which is the same for the
separators left, stands in when none is found. -/
def splitTextFrom (re : Re) (last : List Char) :
    List (List Char) → List Char → Except String (List (List Char))
  | [], text => t.splitTextAt re text last none
  | separator :: newSeparators, text =>
    if separator = [] then t.splitTextAt re text [] none
    else do
      let found ← re.search separator text
      if found then
        t.splitTextAt re text separator
          (if newSeparators = [] then none else some (splitTextFrom re last newSeparators))
      else splitTextFrom re last newSeparators text

/-- `RecursiveCharacterTextSplitter._split_text`. -/
def splitTextBy (re : Re) (text : List Char) (separators : List (List Char)) :
    Except String (List (List Char)) :=
  match separators.getLast? with
  | none => .error "list index out of range"
  | some last => t.splitTextFrom re last separators text

/-- The loop over the characters, with the part at hand and what of it is repeated in the next
chunk. -/
def characterLoop : List (List Char × Int) → List Char → Int → List Char → Int → List (List Char)
  | [], currentPart, _, _, _ => if currentPart = [] then [] else [currentPart]
  | (s, sLen) :: rest, currentPart, currentLength, overlapPart, overlapPartLength =>
    if currentLength + sLen ≤ t.chunkSize - t.chunkOverlap then
      characterLoop rest (currentPart ++ s) (currentLength + sLen) overlapPart overlapPartLength
    else if currentLength + sLen ≤ t.chunkSize then
      characterLoop rest (currentPart ++ s) (currentLength + sLen) (overlapPart ++ s)
        (overlapPartLength + sLen)
    else
      currentPart :: characterLoop rest (overlapPart ++ s) (sLen + overlapPartLength) [] 0

end TextSplitter

/-- `FixedRecursiveCharacterTextSplitter`, with the fixed separator decoded. -/
structure FixedRecursiveCharacterTextSplitter extends TextSplitter where
  fixedSeparator : List Char
  separators : List (List Char)
  separators_ne : separators ≠ []

/-- The separators when none are given: `["\n\n", "\n", "。", ". ", " ", ""]`. -/
def defaultSeparators : List (List Char) := [['\n', '\n'], ['\n'], ['。'], ['.', ' '], [' '], []]

/-- `self._separators = separators or […]`. -/
def separatorsOr (separators : Option (List (List Char))) : List (List Char) :=
  match separators with
  | none | some [] => defaultSeparators
  | some separators => separators

theorem separatorsOr_ne (separators : Option (List (List Char))) :
    separatorsOr separators ≠ [] := by
  unfold separatorsOr
  split
  · exact List.cons_ne_nil _ _
  · exact List.cons_ne_nil _ _
  · next h => exact fun he => h (by rw [he])

/-- `re.split(r" +", text)`. -/
def splitSpaces : List Char → List (List Char)
  | [] => [[]]
  | c :: text =>
    if c = ' ' then
      if text.head? = some ' ' then splitSpaces text else [] :: splitSpaces text
    else
      match splitSpaces text with
      | [] => [[c]]
      | first :: rest => (c :: first) :: rest

namespace FixedRecursiveCharacterTextSplitter

variable (f : FixedRecursiveCharacterTextSplitter)

/-- `FixedRecursiveCharacterTextSplitter.__init__` with a decoded separator. -/
def init (t : TextSplitter) (fixedSeparator : List Char := ['\n', '\n'])
    (separators : Option (List (List Char)) := none) : FixedRecursiveCharacterTextSplitter :=
  { t with
    fixedSeparator := fixedSeparator
    separators := separatorsOr separators
    separators_ne := separatorsOr_ne separators }

/-- The first separator in the text, with those after it; the last one when there is none. -/
def firstSeparator (last text : List Char) : List (List Char) → List Char × List (List Char)
  | [] => (last, [])
  | s :: rest =>
    if s = [] then ([], [])
    else if s <:+: text then (s, rest)
    else firstSeparator last text rest

/-- The separator that `recursive_split_text` splits a text at, and those left. -/
def choose (text : List Char) : List Char × List (List Char) :=
  firstSeparator (f.separators.getLast f.separators_ne) text f.separators

/-- `splits` of `recursive_split_text`. -/
def splitsAt (text separator : List Char) : List (List Char) :=
  let splits :=
    if separator = [] then text.map fun c => [c]
    else if separator = [' '] then splitSpaces text
    else if f.keepSeparator then keepAtEnd separator (pieces separator text)
    else pieces separator text
  if separator = ['\n'] then splits.filter (· ≠ []) else splits.filter notBlank

/-- `recursive_split_text`. -/
def recursiveSplitText (re : Re) (text : List Char) : Except String (List (List Char)) :=
  let (separator, newSeparators) := f.choose text
  let splits := f.measured (f.splitsAt text separator)
  if separator = [] then .ok (f.characterLoop splits [] 0 [] 0)
  else
    f.collect separator
      (if newSeparators = [] then none else some fun s => f.splitTextBy re s newSeparators)
      splits []

/-- The chunk itself, or its parts when it is long. -/
def splitChunk (re : Re) (chunk : List Char × Int) : Except String (List (List Char)) :=
  if f.chunkSize < chunk.2 then f.recursiveSplitText re chunk.1 else .ok [chunk.1]

/-- `split_text`. -/
def splitText (re : Re) (text : List Char) : Except String (List (List Char)) := do
  let chunks := if f.fixedSeparator = [] then [text] else pieces f.fixedSeparator text
  let finalChunks ← (f.measured chunks).mapM (f.splitChunk re)
  return finalChunks.flatten

end FixedRecursiveCharacterTextSplitter
end PlatformSpec.Rag
