import PlatformSpec.Base.Text

/-!
# Text splitters

Models `TextSplitter` of `core/rag/splitter/text_splitter.py`.
-/

namespace PlatformSpec.Rag

open Base

/-- The length function that counts characters. -/
def characterLengths (texts : List (List Char)) : List Int := texts.map fun text => text.length

/-- `TextSplitter` with the sizes that its constructor accepts. -/
structure TextSplitter where
  chunkSize : Int
  chunkOverlap : Int
  lengthFunction : List (List Char) → List Int
  keepSeparator : Bool
  overlap_le : chunkOverlap ≤ chunkSize

namespace TextSplitter

/-- `TextSplitter.__init__`. -/
def init (chunkSize : Int := 4000) (chunkOverlap : Int := 200)
    (lengthFunction : List (List Char) → List Int := characterLengths)
    (keepSeparator : Bool := false) : Except String TextSplitter :=
  if h : chunkSize < chunkOverlap then
    .error (s!"Got a larger chunk overlap ({chunkOverlap}) than chunk size ({chunkSize}), " ++
      "should be smaller.")
  else .ok ⟨chunkSize, chunkOverlap, lengthFunction, keepSeparator, Int.not_lt.mp h⟩

variable (t : TextSplitter)

/-- `_join_docs`. -/
def joinDocs (docs : List (List Char)) (separator : List Char) : Option (List Char) :=
  let text := stripBoth isSpace (separator.intercalate docs)
  if text = [] then none else some text

/-- `self._length_function([text])[0]`. -/
def lengthOf (text : List Char) : Except String Int :=
  match t.lengthFunction [text] with
  | [] => .error "list index out of range"
  | length :: _ => .ok length

/-- The size of a document that grows by one more piece. -/
def grown (separatorLen total len : Int) (currentDoc : List (List Char)) : Int :=
  total + len + if currentDoc = [] then 0 else separatorLen

/-- The inner loop of `_merge_splits`, which drops pieces at the front of the document. -/
def popDocs (separatorLen len : Int) :
    List (List Char) → Int → Except String (List (List Char) × Int)
  | [], total =>
    if t.chunkOverlap < total ∨ t.chunkSize < grown separatorLen total len [] ∧ 0 < total then
      .error "list index out of range"
    else .ok ([], total)
  | d :: currentDoc, total =>
    if t.chunkOverlap < total ∨
        t.chunkSize < grown separatorLen total len (d :: currentDoc) ∧ 0 < total then do
      let dropped ← t.lengthOf d
      popDocs separatorLen len currentDoc
        (total - (dropped + if currentDoc = [] then 0 else separatorLen))
    else .ok (d :: currentDoc, total)

/-- The loop of `_merge_splits`. -/
def mergeLoop (separator : List Char) (separatorLen : Int) :
    List (List Char × Int) → List (List Char) → Int → Except String (List (List Char))
  | [], currentDoc, _ => .ok (joinDocs currentDoc separator).toList
  | (d, len) :: rest, currentDoc, total =>
    if t.chunkSize < grown separatorLen total len currentDoc ∧ currentDoc ≠ [] then do
      let (kept, left) ← t.popDocs separatorLen len currentDoc total
      let docs ← mergeLoop separator separatorLen rest (kept ++ [d])
        (grown separatorLen left len kept)
      return (joinDocs currentDoc separator).toList ++ docs
    else
      mergeLoop separator separatorLen rest (currentDoc ++ [d])
        (grown separatorLen total len currentDoc)

/-- `_merge_splits`, with the pieces and their lengths side by side. -/
def mergeSplits (splits : List (List Char × Int)) (separator : List Char) :
    Except String (List (List Char)) := do
  let separatorLen ← t.lengthOf separator
  t.mergeLoop separator separatorLen splits [] 0

end TextSplitter
end PlatformSpec.Rag
