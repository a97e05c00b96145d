import Mathlib.Data.Finset.Basic
import PlatformSpec.Base.Update

/-!
# The keyword table of a dataset

Models the writing operations of `core/rag/datasource/keyword/jieba/jieba.py`. Each loads the
whole table, changes it and saves it; `create`, `add_texts` and `delete_by_ids` hold the Redis
lock of the dataset meanwhile, the three operations on segments do not. Keyword extraction is
a parameter.
-/

namespace PlatformSpec.Indexing.Jieba

open Base

/-- The keyword table: a dictionary from keywords to sets of node ids. -/
abbrev KeywordTable := String → Option (Finset String)

/-- `Document`: its text and the `doc_id` of its metadata. -/
structure Document where
  pageContent : String
  docId : Option String
  deriving DecidableEq

/-- An element of `pre_segment_data_list`: the segment's node id and content, and the keywords
given. -/
structure PreSegmentData where
  indexNodeId : String
  content : String
  keywords : List String
  deriving DecidableEq

/-- The operations that write the table. -/
inductive KeywordOperation where
  | create (texts : List Document)
  | addTexts (texts : List Document) (keywordsList : List (List String))
  | deleteByIds (ids : List String)
  | createSegmentKeywords (nodeId : String) (keywords : List String)
  | multiCreateSegmentKeywords (preSegmentDataList : List PreSegmentData)
  | updateSegmentKeywordsIndex (nodeId : String) (keywords : List String)
  deriving DecidableEq

/-- What an operation can raise: a missing `doc_id`, or a list of keywords that is shorter
than the list of texts. -/
inductive KeywordError where
  | keyError (key : String)
  | indexError
  deriving DecidableEq

/-- `_add_text_to_keyword_table`. -/
def addTextToKeywordTable (table : KeywordTable) (id : String) (keywords : List String) :
    KeywordTable :=
  keywords.foldl (fun table keyword =>
    Function.update table keyword (some (insert id ((table keyword).getD ∅)))) table

/-- `_delete_ids_from_keyword_table`. -/
def deleteIdsFromKeywordTable (table : KeywordTable) (ids : List String) : KeywordTable :=
  fun keyword => (table keyword).bind fun nodeIdxs =>
    if (ids.toFinset ∩ nodeIdxs).Nonempty then
      if nodeIdxs \ ids.toFinset = ∅ then none else some (nodeIdxs \ ids.toFinset)
    else some nodeIdxs

/-- The dataset's settings and `extract_keywords` of the keyword table handler. -/
structure Extraction where
  keywordNumber : Option Nat
  extractKeywords : String → Nat → List String

/-- `self.dataset.keyword_number or self._config.max_keywords_per_chunk`. -/
def Extraction.number (x : Extraction) : Nat :=
  match x.keywordNumber with
  | none => 10
  | some 0 => 10
  | some (n + 1) => n + 1

/-- `extract_keywords(text, keyword_number)`. -/
def Extraction.keywords (x : Extraction) (text : String) : List String :=
  x.extractKeywords text x.number

/-- One round of the loops over `texts`. -/
def addText (table : KeywordTable) (text : Document) (keywords : List String) :
    Except KeywordError KeywordTable :=
  match text.docId with
  | none => .error (.keyError "doc_id")
  | some docId => .ok (addTextToKeywordTable table docId keywords)

/-- The loop of `create`. -/
def createTable (x : Extraction) (table : KeywordTable) (texts : List Document) :
    Except KeywordError KeywordTable :=
  texts.foldlM (fun table text => addText table text (x.keywords text.pageContent)) table

/-- The keywords of the text at an index in `add_texts`: those given, or extracted ones when
none are given. -/
def keywordsAt (x : Extraction) (keywordsList : List (List String)) (i : Nat)
    (text : Document) : Except KeywordError (List String) :=
  if keywordsList.isEmpty then .ok (x.keywords text.pageContent)
  else
    match keywordsList[i]? with
    | none => .error .indexError
    | some [] => .ok (x.keywords text.pageContent)
    | some keywords => .ok keywords

/-- The loop of `add_texts`. -/
def addTextsTable (x : Extraction) (table : KeywordTable) (texts : List Document)
    (keywordsList : List (List String)) : Except KeywordError KeywordTable :=
  texts.zipIdx.foldlM (fun table textAt => do
    let keywords ← keywordsAt x keywordsList textAt.2 textAt.1
    addText table textAt.1 keywords) table

/-- The loop of `multi_create_segment_keywords`. -/
def multiCreateTable (x : Extraction) (table : KeywordTable)
    (preSegmentDataList : List PreSegmentData) : KeywordTable :=
  preSegmentDataList.foldl (fun table data =>
    let keywords := if data.keywords.isEmpty then x.keywords data.content else data.keywords
    addTextToKeywordTable table data.indexNodeId keywords) table

namespace KeywordOperation

/-- What an operation makes of the table it has loaded. -/
def perform (x : Extraction) : KeywordOperation → KeywordTable → Except KeywordError KeywordTable
  | .create texts, table => createTable x table texts
  | .addTexts texts keywordsList, table => addTextsTable x table texts keywordsList
  | .deleteByIds ids, table => .ok (deleteIdsFromKeywordTable table ids)
  | .createSegmentKeywords nodeId keywords, table =>
    .ok (addTextToKeywordTable table nodeId keywords)
  | .multiCreateSegmentKeywords preSegmentDataList, table =>
    .ok (multiCreateTable x table preSegmentDataList)
  | .updateSegmentKeywordsIndex nodeId keywords, table =>
    .ok (addTextToKeywordTable table nodeId keywords)

/-- The operation runs under `keyword_indexing_lock`. -/
def locks : KeywordOperation → Bool
  | .create _ => true
  | .addTexts _ _ => true
  | .deleteByIds _ => true
  | .createSegmentKeywords _ _ => false
  | .multiCreateSegmentKeywords _ => false
  | .updateSegmentKeywordsIndex _ _ => false

/-- An operation that runs alone; one that raises saves nothing. -/
def runAlone (x : Extraction) (op : KeywordOperation) (table : KeywordTable) : KeywordTable :=
  Update.alone (perform x) op table

end KeywordOperation

/-- Operations running concurrently on one table. -/
abbrev Operations (ι : Type) := Update.Updates KeywordOperation KeywordTable KeywordError ι

variable {ι : Type} [DecidableEq ι]

/-- One step of one operation: taking the lock, loading, saving, releasing. -/
def step (x : Extraction) : Operations ι → ι × Update.Action → Option (Operations ι) :=
  Update.step KeywordOperation.locks (KeywordOperation.perform x)

/-- A save leaves the results of the operations between their load and their save as they were,
unless both hold the lock. -/
abbrev SaveHarmless (x : Extraction) : Operations ι → ι × Update.Action → Prop :=
  Update.SaveHarmless KeywordOperation.locks (KeywordOperation.perform x)

/-- In every run of concurrent operations in which no save changes what an operation under way
makes of the table: once all have ended, the table is the one they give when they run one
after another in some order. -/
theorem no_lost_update {x : Extraction} {ops : ι → KeywordOperation} {table : KeywordTable}
    {as : List (ι × Update.Action)} {s : Operations ι}
    (hrun : run (step x) (Update.start ops table) as = some s)
    (hended : ∀ i, (s.place i).saved = true)
    (hall : ∀ pre a post m, as = pre ++ a :: post →
      run (step x) (Update.start ops table) pre = some m → SaveHarmless x m a) :
    ∃ order : List ι, order.Nodup ∧ (∀ i, i ∈ order) ∧
      s.shared.value = order.foldl (fun table i => (ops i).runAlone x table) table := by
  obtain ⟨order, hnodup, hmem, hvalue⟩ := Update.serializable hrun hall
  exact ⟨order, hnodup, fun i => (hmem i).mpr (hended i), hvalue⟩

/-- A dataset without a keyword number; texts are their own keywords. -/
def plainExtraction : Extraction := ⟨none, fun text _ => [text]⟩

/-- Two texts are added, then a node is deleted and the keywords of another one are set. -/
private def fruits : Bool → KeywordOperation
  | true => .addTexts [⟨"apple", some "n1"⟩, ⟨"pear", some "n2"⟩] []
  | false => .updateSegmentKeywordsIndex "n1" ["plum"]

private def fruitsRun : List (Bool × Update.Action) :=
  [(true, .acquire), (true, .load), (true, .save), (false, .load), (true, .release),
    (false, .save)]

/-- A save finds the other operation before or after its own load and save. -/
private def savesAlone (s : Operations Bool) (a : Bool × Update.Action) : Bool :=
  match a.2, s.place !a.1 with
  | .save, .loaded _ _ => false
  | _, _ => true

theorem no_lost_update_fruits : ∃ s : Operations Bool,
    run (step plainExtraction) (Update.start fruits fun _ => none) fruitsRun = some s ∧
    s.shared.value "apple" = some {"n1"} ∧ s.shared.value "plum" = some {"n1"} ∧
    ∃ order : List Bool, order.Nodup ∧ (∀ i, i ∈ order) ∧
      s.shared.value = order.foldl (fun table i => (fruits i).runAlone plainExtraction table)
        fun _ => none := by
  obtain ⟨s, hs, htrue, hfalse, happle, hplum⟩ : ∃ s : Operations Bool,
      run (step plainExtraction) (Update.start fruits fun _ => none) fruitsRun = some s ∧
        (s.place true).saved ∧ (s.place false).saved ∧
        s.shared.value "apple" = some {"n1"} ∧ s.shared.value "plum" = some {"n1"} := by
    decide +kernel
  have htest : testRun (step plainExtraction) savesAlone (Update.start fruits fun _ => none)
      fruitsRun = true := by
    decide +kernel
  refine ⟨s, hs, happle, hplum, no_lost_update hs ?_ fun pre a post m he hm => ?_⟩
  · rintro (_ | _)
    · exact hfalse
    · exact htrue
  · obtain ⟨i, a⟩ := a
    cases a with
    | save =>
      intro op v v' hi _ j opⱼ vⱼ hj hplace _
      have ht := allowed_of_testRun htest pre (i, .save) post m he hm
      rw [Bool.eq_not.mpr hj] at hplace
      simp only [savesAlone, hplace] at ht
      cases ht
    | acquire => trivial
    | load => trivial
    | release => trivial

/-- Two operations on segments. -/
def segments : Bool → KeywordOperation
  | true => .createSegmentKeywords "n1" ["apple"]
  | false => .createSegmentKeywords "n2" ["pear"]

/-- Two operations on segments that overlap: the keyword of the first is lost, which it is in
no order of the two. -/
theorem lost_update_segments : ∃ s : Operations Bool,
    run (step plainExtraction) (Update.start segments fun _ => none)
      [(true, .load), (false, .load), (true, .save), (false, .save)] = some s ∧
    (∀ i, (s.place i).saved = true) ∧
    ∀ order : List Bool, order.Nodup → (∀ i, i ∈ order) →
      s.shared.value ≠ order.foldl (fun table i => (segments i).runAlone plainExtraction table)
        fun _ => none := by
  obtain ⟨s, hs, htrue, hfalse, happle⟩ : ∃ s : Operations Bool,
      run (step plainExtraction) (Update.start segments fun _ => none)
        [(true, .load), (false, .load), (true, .save), (false, .save)] = some s ∧
      (s.place true).saved ∧ (s.place false).saved ∧ (s.shared.value "apple").isNone := by
    decide +kernel
  refine ⟨s, hs, fun i => by cases i <;> assumption, fun order hnodup hmem heq => ?_⟩
  have hperm : order.Perm [true, false] :=
    (List.perm_ext_iff_of_nodup hnodup (by decide)).mpr fun i => by simp [hmem i]
  obtain ⟨i, j, rfl⟩ := List.length_eq_two.mp hperm.length_eq
  rw [heq] at happle
  revert hnodup happle
  cases i with
  | true => cases j <;> decide +kernel
  | false => cases j <;> decide +kernel

end PlatformSpec.Indexing.Jieba
