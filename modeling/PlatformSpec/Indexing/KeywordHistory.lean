import PlatformSpec.Indexing.KeywordTable

/-!
# Keywords of nodes that are indexed again

The keyword table after operations that ran one after another, against the keywords last assigned to
each node. An operation that raises saves nothing, and assigns none.
-/

namespace PlatformSpec.Indexing.Jieba

open Base

variable (x : Extraction)

def Document.assignment (text : Document) (keywords : List String) :
    Except KeywordError (String × List String) :=
  match text.docId with
  | none => .error (.keyError "doc_id")
  | some docId => .ok (docId, keywords)

namespace KeywordOperation

/-- The nodes that an operation writes, each with its keywords, one after another. -/
def assignments : KeywordOperation → Except KeywordError (List (String × List String))
  | .create texts => texts.mapM fun text => text.assignment (x.keywords text.pageContent)
  | .addTexts texts keywordsList => texts.zipIdx.mapM fun textAt => do
    let keywords ← keywordsAt x keywordsList textAt.2 textAt.1
    textAt.1.assignment keywords
  | .deleteByIds _ => .ok []
  | .createSegmentKeywords nodeId keywords => .ok [(nodeId, keywords)]
  | .multiCreateSegmentKeywords preSegmentDataList => .ok (preSegmentDataList.map fun data =>
    (data.indexNodeId, if data.keywords.isEmpty then x.keywords data.content else data.keywords))
  | .updateSegmentKeywordsIndex nodeId keywords => .ok [(nodeId, keywords)]

/-- The operation deletes the node. -/
def deletes (id : String) : KeywordOperation → Bool
  | .deleteByIds ids => id ∈ ids
  | _ => false

/-- The keywords assigned to a node since it was deleted, after one more operation. -/
def assignedAfter (id : String) (before : List (List String)) (op : KeywordOperation) :
    List (List String) :=
  if op.deletes id then []
  else before ++ match op.assignments x with
    | .ok as => (as.filter (·.1 == id)).map (·.2)
    | .error _ => []

end KeywordOperation

/-- The keywords assigned to a node since it was last deleted, one list for each time. -/
def assigned (id : String) (history : List KeywordOperation) : List (List String) :=
  history.foldl (KeywordOperation.assignedAfter x id) []

/-- The saved table. -/
def tableAfter (history : List KeywordOperation) : KeywordTable :=
  history.foldl (fun table op => op.runAlone x table) fun _ => none

/-- A node is listed under the keywords last assigned to it, and no keyword is left without
nodes. -/
def Agrees (history : List KeywordOperation) : Prop :=
  (∀ id k, id ∈ (tableAfter x history k).getD ∅ ↔
    ∃ keywords ∈ (assigned x id history).getLast?, k ∈ keywords) ∧
  ∀ k, tableAfter x history k ≠ some ∅

/-- The keywords last assigned to a node include all that it was assigned since it was last
deleted. -/
def KeepsKeywords (history : List KeywordOperation) : Prop :=
  ∀ id, ∀ keywords ∈ assigned x id history, ∀ k ∈ keywords,
    ∃ last ∈ (assigned x id history).getLast?, k ∈ last

variable {x} {table : KeywordTable} {id k : String} {keywords ids : List String}

theorem mem_addTextToKeywordTable {docId : String} :
    id ∈ (addTextToKeywordTable table docId keywords k).getD ∅ ↔
      id ∈ (table k).getD ∅ ∨ docId = id ∧ k ∈ keywords := by
  unfold addTextToKeywordTable
  induction keywords generalizing table with
  | nil => simp
  | cons keyword keywords ih =>
    rw [List.foldl_cons, ih, Function.update_apply]
    by_cases hk : k = keyword
    · simp only [hk, if_true, Option.getD_some, Finset.mem_insert, List.mem_cons, true_or,
        and_true, @eq_comm _ id]
      tauto
    · simp [hk]

private theorem addText_ne_empty {docId : String} (h : ∀ k, table k ≠ some ∅) (k : String) :
    addTextToKeywordTable table docId keywords k ≠ some ∅ := by
  unfold addTextToKeywordTable
  induction keywords generalizing table with
  | nil => exact h k
  | cons keyword keywords ih =>
    refine ih fun k => ?_
    show Function.update table keyword _ k ≠ some ∅
    rw [Function.update_apply]
    split
    · exact fun he => Finset.insert_ne_empty _ _ (Option.some.inj he)
    · exact h k

theorem mem_deleteIdsFromKeywordTable :
    id ∈ (deleteIdsFromKeywordTable table ids k).getD ∅ ↔ id ∈ (table k).getD ∅ ∧ id ∉ ids := by
  unfold deleteIdsFromKeywordTable
  cases table k with
  | none => simp
  | some nodeIdxs =>
    simp only [Option.bind_some, Option.getD_some]
    have hrest : id ∈ nodeIdxs \ ids.toFinset ↔ id ∈ nodeIdxs ∧ id ∉ ids := by simp
    split
    next =>
      rw [← hrest]
      split
      next hnone => rw [hnone]; rfl
      next => rfl
    next hno =>
      rw [Option.getD_some, ← hrest, Finset.sdiff_eq_self_of_disjoint]
      exact (Finset.disjoint_iff_inter_eq_empty.mpr (Finset.not_nonempty_iff_eq_empty.mp hno)).symm

private theorem delete_ne_empty (h : ∀ k, table k ≠ some ∅) (k : String) :
    deleteIdsFromKeywordTable table ids k ≠ some ∅ := by
  unfold deleteIdsFromKeywordTable
  cases hk : table k with
  | none => nofun
  | some nodeIdxs =>
    simp only [Option.bind_some]
    split
    next =>
      split
      next => nofun
      next hne => exact fun he => hne (Option.some.inj he)
    next => exact hk ▸ h k

/-- What is written one after another. -/
def writeAll (table : KeywordTable) (as : List (String × List String)) : KeywordTable :=
  as.foldl (fun table a => addTextToKeywordTable table a.1 a.2) table

private theorem foldlM_writes {α : Type} {f : α → Except KeywordError (String × List String)}
    (l : List α) (table : KeywordTable) :
    l.foldlM (fun table a => (f a).map fun w => addTextToKeywordTable table w.1 w.2) table =
      (l.mapM f).map (writeAll table) := by
  induction l generalizing table with
  | nil => rfl
  | cons a l ih =>
    rw [List.foldlM_cons, List.mapM_cons]
    cases f a with
    | error e => rfl
    | ok w =>
      refine (ih _).trans ?_
      cases l.mapM f <;> rfl

theorem addText_eq (table : KeywordTable) (text : Document) (keywords : List String) :
    addText table text keywords =
      (text.assignment keywords).map fun w => addTextToKeywordTable table w.1 w.2 := by
  unfold addText Document.assignment
  cases text.docId <;> rfl

theorem perform_eq {op : KeywordOperation} (h : ∀ ids, op ≠ .deleteByIds ids)
    (table : KeywordTable) : op.perform x table = (op.assignments x).map (writeAll table) := by
  cases op with
  | create texts =>
    rw [KeywordOperation.perform, createTable, KeywordOperation.assignments, ← foldlM_writes]
    simp only [addText_eq]
  | addTexts texts keywordsList =>
    rw [KeywordOperation.perform, addTextsTable, KeywordOperation.assignments, ← foldlM_writes]
    congr 1
    funext table textAt
    cases keywordsAt x keywordsList textAt.2 textAt.1 with
    | error e => rfl
    | ok keywords => exact addText_eq table textAt.1 keywords
  | deleteByIds ids => exact absurd rfl (h ids)
  | createSegmentKeywords nodeId keywords => rfl
  | multiCreateSegmentKeywords preSegmentDataList =>
    refine congrArg Except.ok ?_
    rw [multiCreateTable, writeAll, List.foldl_map]
  | updateSegmentKeywordsIndex nodeId keywords => rfl

theorem mem_writeAll (as : List (String × List String)) :
    id ∈ (writeAll table as k).getD ∅ ↔ id ∈ (table k).getD ∅ ∨
      ∃ keywords ∈ (as.filter (·.1 == id)).map (·.2), k ∈ keywords := by
  induction as generalizing table with
  | nil => simp [writeAll]
  | cons a as ih =>
    refine (@ih (addTextToKeywordTable table a.1 a.2)).trans ?_
    rw [mem_addTextToKeywordTable, or_assoc, List.filter_cons]
    by_cases ha : a.1 = id
    · simp [ha]
    · simp [ha]

private theorem writeAll_ne_empty (as : List (String × List String)) (h : ∀ k, table k ≠ some ∅) :
    ∀ k, writeAll table as k ≠ some ∅ := by
  induction as generalizing table with
  | nil => exact h
  | cons a as ih => exact ih (addText_ne_empty h)

theorem runAlone_spec (op : KeywordOperation) (h : ∀ k, table k ≠ some ∅) :
    (∀ k, op.runAlone x table k ≠ some ∅) ∧ ∀ id k {before : List (List String)},
      (id ∈ (table k).getD ∅ ↔ ∃ keywords ∈ before, k ∈ keywords) →
      (id ∈ (op.runAlone x table k).getD ∅ ↔
        ∃ keywords ∈ op.assignedAfter x id before, k ∈ keywords) := by
  unfold KeywordOperation.runAlone Update.alone KeywordOperation.assignedAfter
  by_cases hdelete : ∃ ids, op = .deleteByIds ids
  · obtain ⟨ids, rfl⟩ := hdelete
    refine ⟨delete_ne_empty h, fun id k before hbefore => ?_⟩
    refine mem_deleteIdsFromKeywordTable.trans ?_
    rw [hbefore]
    by_cases hid : id ∈ ids
    · simp [KeywordOperation.deletes, hid]
    · simp [KeywordOperation.deletes, KeywordOperation.assignments, hid]
  · have hnot : ∀ ids, op ≠ .deleteByIds ids := fun ids he => hdelete ⟨ids, he⟩
    have hkeeps : ∀ id, op.deletes id = false := by
      intro id
      cases op <;> first | rfl | exact absurd rfl (hnot _)
    rw [perform_eq hnot]
    simp only [hkeeps]
    cases op.assignments x with
    | error e =>
      refine ⟨h, fun id k before hbefore => ?_⟩
      rw [if_neg Bool.false_ne_true, List.append_nil]
      exact hbefore
    | ok as =>
      refine ⟨writeAll_ne_empty as h, fun id k before hbefore => ?_⟩
      refine (mem_writeAll as).trans ?_
      rw [hbefore]
      simp only [Bool.false_eq_true, if_false, List.mem_append, or_and_right, exists_or]

/-- A node is listed under every keyword that it was assigned since it was last deleted. -/
theorem mem_tableAfter (history : List KeywordOperation) :
    (∀ k, tableAfter x history k ≠ some ∅) ∧ ∀ id k,
      id ∈ (tableAfter x history k).getD ∅ ↔
        ∃ keywords ∈ assigned x id history, k ∈ keywords := by
  induction history using List.reverseRecOn with
  | nil => exact ⟨nofun, fun id k => by simp [tableAfter, assigned]⟩
  | append_singleton history op ih =>
    obtain ⟨hne, hmem⟩ := ih
    obtain ⟨hne', hmem'⟩ := runAlone_spec (x := x) op hne
    simp only [tableAfter, assigned, List.foldl_append, List.foldl_cons, List.foldl_nil]
    exact ⟨hne', fun id k => hmem' id k (hmem id k)⟩

/-- The table agrees with the keywords last assigned if and only if no node was assigned a keyword
that it was not last assigned, unless it was deleted in between. -/
theorem agrees_iff (x : Extraction) (history : List KeywordOperation) :
    Agrees x history ↔ KeepsKeywords x history := by
  obtain ⟨hne, hmem⟩ := mem_tableAfter (x := x) history
  simp only [Agrees, hmem]
  constructor
  · intro h id keywords hkeywords k hk
    exact (h.1 id k).mp ⟨keywords, hkeywords, hk⟩
  · intro h
    refine ⟨fun id k => ⟨?_, ?_⟩, hne⟩
    · rintro ⟨keywords, hkeywords, hk⟩
      exact h id keywords hkeywords k hk
    · rintro ⟨last, hlast, hk⟩
      exact ⟨last, List.mem_of_mem_getLast? hlast, hk⟩

/-- A segment whose keywords are set again is still found under the old ones. -/
theorem agrees_fails : ¬ Agrees plainExtraction
    [.create [⟨"apple", some "n1"⟩], .updateSegmentKeywordsIndex "n1" ["plum"]] := by
  intro h
  have hold := (h.1 "n1" "apple").mp (by decide +kernel)
  revert hold
  decide +kernel

end PlatformSpec.Indexing.Jieba
