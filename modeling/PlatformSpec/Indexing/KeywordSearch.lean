import Mathlib.Data.List.Count
import Mathlib.Data.List.Sort
import PlatformSpec.Base.Keyed

/-!
# Keyword search

Models `Jieba.search` and `Jieba._retrieve_ids_by_query` of
`core/rag/datasource/keyword/jieba/jieba.py`. A set is given with the order in which it is gone
through.
-/

namespace PlatformSpec.Indexing.KeywordSearch

open Base Keyed

/-! ## Ranks -/

section Ranks

variable {α : Type} {score position : α → Nat} {l : List α} {a : α} {k : Nat}

/-- `sorted(l, key=score, reverse=True)`. -/
def ranked (score : α → Nat) (l : List α) : List α :=
  l.insertionSort fun a b => score b ≤ score a

theorem perm_ranked : (ranked score l).Perm l := List.perm_insertionSort _ _

/-- The element ranks before another: it has the higher score, or the same and comes first. -/
def Precedes (score position : α → Nat) (a b : α) : Prop :=
  score b < score a ∨ score a = score b ∧ position a < position b

instance : DecidableRel (Precedes score position) := fun _ _ => inferInstanceAs (Decidable (_ ∨ _))

private theorem pairwise_insert {s : List α} (hs : s.Pairwise (Precedes score position))
    (ha : ∀ b ∈ s, position a < position b) :
    (s.orderedInsert (fun a b => score b ≤ score a) a).Pairwise (Precedes score position) := by
  induction s with
  | nil => exact List.pairwise_singleton _ a
  | cons b s ih =>
    obtain ⟨hb, hrest⟩ := List.pairwise_cons.mp hs
    obtain ⟨hab, harest⟩ := List.forall_mem_cons.mp ha
    rw [List.orderedInsert]
    split
    next hle =>
      refine List.pairwise_cons.mpr ⟨fun c hc => ?_, hs⟩
      have hac := ha c hc
      rcases List.mem_cons.mp hc with rfl | hc
      · unfold Precedes
        omega
      · have hbc := hb c hc
        unfold Precedes at *
        omega
    next hlt =>
      refine List.pairwise_cons.mpr ⟨fun c hc => ?_, ih hrest harest⟩
      rcases List.mem_cons.mp ((List.perm_orderedInsert _ a s).mem_iff.mp hc) with rfl | hc
      · exact .inl (Nat.lt_of_not_le hlt)
      · exact hb c hc

theorem pairwise_ranked (h : l.Pairwise fun a b => position a < position b) :
    (ranked score l).Pairwise (Precedes score position) := by
  induction l with
  | nil => exact .nil
  | cons a l ih =>
    obtain ⟨ha, hrest⟩ := List.pairwise_cons.mp h
    exact pairwise_insert (ih hrest) fun b hb => ha b (perm_ranked.mem_iff.mp hb)

private theorem countP_precedes [DecidableEq α] (h : l.Pairwise (Precedes score position))
    (ha : a ∈ l) : l.countP (Precedes score position · a) = l.idxOf a := by
  induction l with
  | nil => cases ha
  | cons b l ih =>
    obtain ⟨hb, hrest⟩ := List.pairwise_cons.mp h
    by_cases he : b = a
    · subst he
      rw [List.idxOf_cons_self, List.countP_eq_zero]
      intro c hc
      rw [decide_eq_true_eq]
      rcases List.mem_cons.mp hc with rfl | hc
      · simp [Precedes]
      · have hbc := hb c hc
        unfold Precedes at *
        omega
    · have ha := (List.mem_cons.mp ha).resolve_left (Ne.symm he)
      rw [List.countP_cons, if_pos (decide_eq_true (hb a ha)), ih hrest ha, List.idxOf_cons_ne _ he]

/-- An element is among the first of the ranking if few elements rank before it. -/
theorem mem_take_ranked [DecidableEq α] (h : l.Pairwise fun a b => position a < position b)
    (ha : a ∈ l) :
    a ∈ (ranked score l).take k ↔ l.countP (Precedes score position · a) < k := by
  have hmem : a ∈ ranked score l := perm_ranked.mem_iff.mpr ha
  rw [List.mem_take_iff_idxOf_lt hmem, ← countP_precedes (pairwise_ranked h) hmem,
    perm_ranked.countP_eq]

/-- The first `k` hold as many elements of a kind as they can if and only if they hold all of them,
or no others. -/
theorem length_filter_take_iff (p : α → Bool) (h : l.Nodup) :
    ((l.take k).filter p).length = min k (l.filter p).length ↔
      (∀ a ∈ l, p a = true → a ∈ l.take k) ∨ ∀ a ∈ l.take k, p a = true := by
  have hsplit : (l.filter p).length = ((l.take k).filter p).length +
      ((l.drop k).filter p).length := by
    rw [← List.length_append, ← List.filter_append, List.take_append_drop]
  have hfront := List.length_filter_le p (l.take k)
  have hback := List.length_filter_le p (l.drop k)
  have hnone : (∀ a ∈ l, p a = true → a ∈ l.take k) ↔ ((l.drop k).filter p).length = 0 := by
    rw [List.length_eq_zero_iff, List.filter_eq_nil_iff]
    constructor
    · intro hall a ha hp
      exact List.disjoint_take_drop h (Nat.le_refl k) (hall a (List.mem_of_mem_drop ha) hp) ha
    · intro hall a ha hp
      rw [← List.take_append_drop k l, List.mem_append] at ha
      exact ha.resolve_right fun hdrop => hall a hdrop hp
  rw [hnone, ← List.length_filter_eq_length_iff]
  rw [List.length_take] at *
  rw [List.length_drop] at hback
  omega

end Ranks

/-! ## The search -/

/-- A set, in the order in which it is gone through. -/
structure OrderedSet where
  elements : List String
  nodup : elements.Nodup

/-- `DocumentSegment` of the dataset, as far as it is read. -/
structure DocumentSegment where
  indexNodeId : String
  documentId : String
  content : String
  indexNodeHash : String
  deriving DecidableEq

/-- The dataset's segments. Their node ids are generated, each for one segment. -/
structure Segments where
  rows : List DocumentSegment
  nodup : (rows.map (·.indexNodeId)).Nodup

/-- The node ids that the table lists under a keyword. -/
def nodeIds (table : String → Option OrderedSet) (keyword : String) : List String :=
  (table keyword).elim [] (·.elements)

/-- `chunk_indices_count[node_id] += 1`. -/
def countOne (count : List (String × Nat)) (nodeId : String) : List (String × Nat) :=
  Assoc.assign count nodeId ((count.lookup nodeId).getD 0 + 1)

/-- `chunk_indices_count`. -/
def chunkIndicesCount (table : String → Option OrderedSet) (keywords : OrderedSet) :
    List (String × Nat) :=
  (keywords.elements.filter fun keyword => (table keyword).isSome).foldl
    (fun count keyword => (nodeIds table keyword).foldl countOne count) []

/-- `_retrieve_ids_by_query`, for the keywords of the query. -/
def retrieveIdsByQuery (table : String → Option OrderedSet) (keywords : OrderedSet) (k : Nat) :
    List String :=
  let count := chunkIndicesCount table keywords
  (ranked (fun nodeId => (count.lookup nodeId).getD 0) (count.map (·.1))).take k

/-- `search`; no filter is the empty one. -/
def search (segments : Segments) (table : String → Option OrderedSet) (keywords : OrderedSet)
    (k : Nat) (documentIdsFilter : List String) : List DocumentSegment :=
  let sorted := retrieveIdsByQuery table keywords k
  let found := segments.rows.filter fun segment => segment.indexNodeId ∈ sorted &&
    (documentIdsFilter.isEmpty || segment.documentId ∈ documentIdsFilter)
  sorted.filterMap fun chunkIndex => found.reverse.find? (·.indexNodeId = chunkIndex)

/-! ## The matches -/

variable (table : String → Option OrderedSet) (keywords : OrderedSet)

/-- How many keywords of the query a node is listed under. -/
def shared (nodeId : String) : Nat := keywords.elements.countP (nodeId ∈ nodeIds table ·)

/-- The node ids listed under the keywords of the query, one keyword after the other. -/
def visited : List String := keywords.elements.flatMap (nodeIds table)

/-- The node ids that share a keyword with the query, in the order in which they are met. -/
def matched : List String := (visited table keywords).eraseDups

/-- How many matches rank before a node: those that share more keywords with the query, or as many
and are met first. -/
def before (nodeId : String) : Nat :=
  (matched table keywords).countP
    (Precedes (shared table keywords) ((visited table keywords).idxOf ·) · nodeId)

variable {table keywords}

private theorem count_nodeIds (keyword nodeId : String) :
    (nodeIds table keyword).count nodeId = if nodeId ∈ nodeIds table keyword then 1 else 0 := by
  unfold nodeIds
  cases table keyword with
  | none => rfl
  | some set =>
    by_cases h : nodeId ∈ set.elements
    · simp [h, List.count_eq_one_of_mem set.nodup h]
    · simp [h, List.count_eq_zero_of_not_mem h]

theorem count_visited (nodeId : String) :
    (visited table keywords).count nodeId = shared table keywords nodeId := by
  unfold visited shared
  induction keywords.elements with
  | nil => rfl
  | cons keyword l ih =>
    rw [List.flatMap_cons, List.count_append, ih, List.countP_cons, count_nodeIds, Nat.add_comm]
    simp

private theorem foldl_countOne (l : List String) :
    (∀ a, ((l.foldl countOne []).lookup a).getD 0 = l.count a) ∧
      (l.foldl countOne []).map (·.1) = l.eraseDups := by
  induction l using List.reverseRecOn with
  | nil => simp
  | append_singleton l x ih =>
    obtain ⟨hcount, hkeys⟩ := ih
    rw [List.foldl_append, List.foldl_cons, List.foldl_nil, countOne, hcount]
    refine ⟨fun a => ?_, ?_⟩
    · rw [Assoc.lookup_assign, List.count_append]
      by_cases ha : a = x
      · simp [ha]
      · simp [ha, hcount, Ne.symm ha]
    · rw [Assoc.keys_assign, hkeys, eraseDups_concat]
      simp only [List.mem_eraseDups]

private theorem pairwise_eraseDups (l : List String) :
    l.eraseDups.Pairwise fun a b => l.idxOf a < l.idxOf b := by
  induction l using List.reverseRecOn with
  | nil => exact .nil
  | append_singleton l x ih =>
    have hidx {a} (ha : a ∈ l.eraseDups) : (l ++ [x]).idxOf a = l.idxOf a :=
      List.idxOf_append_of_mem (List.mem_eraseDups.mp ha)
    have hold : l.eraseDups.Pairwise fun a b => (l ++ [x]).idxOf a < (l ++ [x]).idxOf b :=
      ih.imp_of_mem fun ha hb h => by rwa [hidx ha, hidx hb]
    rw [eraseDups_concat]
    split
    next => exact hold
    next hx =>
      refine List.pairwise_append.mpr ⟨hold, List.pairwise_singleton _ _, fun a ha b hb => ?_⟩
      rw [List.mem_singleton.mp hb, hidx ha, List.idxOf_append_of_notMem hx]
      have := List.idxOf_lt_length_of_mem (List.mem_eraseDups.mp ha)
      omega

private theorem chunkIndicesCount_eq :
    chunkIndicesCount table keywords = (visited table keywords).foldl countOne [] := by
  unfold chunkIndicesCount visited
  generalize ([] : List (String × Nat)) = count
  induction keywords.elements generalizing count with
  | nil => rfl
  | cons keyword l ih =>
    rw [List.flatMap_cons, List.foldl_append, List.filter_cons]
    split
    next => rw [List.foldl_cons, ih]
    next h =>
      rw [ih]
      have hnone : nodeIds table keyword = [] := by
        rw [nodeIds, Option.not_isSome_iff_eq_none.mp h]
        rfl
      rw [hnone]
      rfl

theorem retrieveIdsByQuery_eq (k : Nat) : retrieveIdsByQuery table keywords k =
    (ranked (shared table keywords) (matched table keywords)).take k := by
  obtain ⟨hcount, hkeys⟩ := foldl_countOne (visited table keywords)
  simp only [retrieveIdsByQuery, chunkIndicesCount_eq, hcount, hkeys, count_visited, matched]

/-- The first nodes are those that few matches rank before. -/
theorem mem_retrieveIdsByQuery_iff {k : Nat} {nodeId : String}
    (h : nodeId ∈ matched table keywords) :
    nodeId ∈ retrieveIdsByQuery table keywords k ↔ before table keywords nodeId < k := by
  rw [retrieveIdsByQuery_eq]
  exact mem_take_ranked (pairwise_eraseDups _) h

theorem nodup_matched : (matched table keywords).Nodup := nodup_eraseDups _

theorem mem_matched_iff {nodeId : String} :
    nodeId ∈ matched table keywords ↔ 0 < shared table keywords nodeId := by
  rw [matched, List.mem_eraseDups, ← List.count_pos_iff, count_visited]

/-! ## Filtered search -/

variable {segments : Segments} {k : Nat} {documentId : String} {filter : List String}

/-- The node is that of a segment of a document in the filter. -/
def Segments.passes (segments : Segments) (filter : List String) (nodeId : String) : Bool :=
  segments.rows.any fun segment => segment.indexNodeId = nodeId && segment.documentId ∈ filter

/-- As many of the best matches in the filter as there are up to `k`, best first. -/
structure BestMatches (table : String → Option OrderedSet) (keywords : OrderedSet)
    (segments : Segments) (filter : List String) (k : Nat) (result : List DocumentSegment) :
    Prop where
  within : ∀ segment ∈ result, segment ∈ segments.rows ∧ segment.documentId ∈ filter
  length : result.length = min k (segments.rows.filter fun segment =>
    segment.documentId ∈ filter ∧ 0 < shared table keywords segment.indexNodeId).length
  sorted : result.Pairwise fun a b =>
    shared table keywords b.indexNodeId ≤ shared table keywords a.indexNodeId
  best : ∀ omitted ∈ segments.rows, omitted.documentId ∈ filter → omitted ∉ result →
    ∀ segment ∈ result,
      shared table keywords omitted.indexNodeId ≤ shared table keywords segment.indexNodeId

/-- All matches in the filter are among the `k` best of all matches, or all of these are in the
filter. -/
def CutHarmless (table : String → Option OrderedSet) (keywords : OrderedSet) (segments : Segments)
    (filter : List String) (k : Nat) : Prop :=
  (∀ nodeId ∈ matched table keywords, segments.passes filter nodeId = true →
      before table keywords nodeId < k) ∨
    ∀ nodeId ∈ matched table keywords, before table keywords nodeId < k →
      segments.passes filter nodeId = true

private theorem search_spec :
    (∀ segment ∈ search segments table keywords k (documentId :: filter),
      segment ∈ segments.rows ∧ segment.documentId ∈ documentId :: filter) ∧
    (search segments table keywords k (documentId :: filter)).map (·.indexNodeId) =
      (retrieveIdsByQuery table keywords k).filter (segments.passes (documentId :: filter)) := by
  unfold search
  generalize retrieveIdsByQuery table keywords k = sorted
  refine ⟨fun segment hmem => ?_, ?_⟩
  · obtain ⟨id, -, hfind⟩ := List.mem_filterMap.mp hmem
    have hfound := List.mem_filter.mp (List.mem_reverse.mp (List.mem_of_find?_eq_some hfind))
    simp only [List.isEmpty_cons, Bool.false_or, Bool.and_eq_true, decide_eq_true_eq] at hfound
    exact ⟨hfound.1, hfound.2.2⟩
  · rw [List.map_filterMap, ← @List.filterMap_eq_filter _ (segments.passes _)]
    refine List.filterMap_congr fun id hid => ?_
    cases hfind : List.find? (fun s : DocumentSegment => decide (s.indexNodeId = id)) _ with
    | none =>
      rw [Option.map_none, eq_comm, Option.guard_eq_none_iff, Segments.passes, List.any_eq_false]
      intro segment hrow hpass
      simp only [Bool.and_eq_true, decide_eq_true_eq] at hpass
      refine List.find?_eq_none.mp hfind segment ?_ (decide_eq_true hpass.1)
      simp only [List.mem_reverse, List.mem_filter, hrow, hpass.1, hid, hpass.2, List.isEmpty_cons,
        decide_true, Bool.false_or, Bool.and_true, true_and]
    | some segment =>
      have hid' : segment.indexNodeId = id := by simpa using List.find?_some hfind
      have hfound := List.mem_filter.mp (List.mem_reverse.mp (List.mem_of_find?_eq_some hfind))
      simp only [List.isEmpty_cons, Bool.false_or, Bool.and_eq_true, decide_eq_true_eq] at hfound
      rw [Option.map_some, hid', eq_comm, Option.guard_eq_some_iff]
      refine ⟨rfl, List.any_eq_true.mpr ⟨segment, hfound.1, ?_⟩⟩
      simp only [hid', hfound.2.2, decide_true, Bool.and_true]

theorem cutHarmless_iff : CutHarmless table keywords segments filter k ↔
    ((retrieveIdsByQuery table keywords k).filter (segments.passes filter)).length =
      min k ((matched table keywords).filter (segments.passes filter)).length := by
  have hperm : (ranked (shared table keywords) (matched table keywords)).Perm _ := perm_ranked
  rw [← (hperm.filter _).length_eq, retrieveIdsByQuery_eq,
    length_filter_take_iff _ (hperm.nodup_iff.mpr nodup_matched), ← retrieveIdsByQuery_eq]
  have hmem (nodeId) (h : nodeId ∈ retrieveIdsByQuery table keywords k) :
      nodeId ∈ matched table keywords := by
    rw [retrieveIdsByQuery_eq] at h
    exact hperm.mem_iff.mp (List.mem_of_mem_take h)
  apply or_congr
  · simp only [hperm.mem_iff]
    exact forall₂_congr fun nodeId h => by rw [mem_retrieveIdsByQuery_iff h]
  · constructor
    · intro hall nodeId h
      exact hall nodeId (hmem _ h) ((mem_retrieveIdsByQuery_iff (hmem _ h)).mp h)
    · exact fun hall nodeId h hlt => hall nodeId ((mem_retrieveIdsByQuery_iff h).mpr hlt)

theorem length_matches : (segments.rows.filter fun segment => segment.documentId ∈ filter ∧
    0 < shared table keywords segment.indexNodeId).length =
      ((matched table keywords).filter (segments.passes filter)).length := by
  rw [← @List.length_map _ _ _ (·.indexNodeId)]
  apply List.Perm.length_eq
  rw [List.perm_ext_iff_of_nodup (segments.nodup.sublist (List.filter_sublist.map _))
    (nodup_matched.filter _)]
  intro nodeId
  simp only [List.mem_map, List.mem_filter, decide_eq_true_eq, ← mem_matched_iff,
    Segments.passes, List.any_eq_true, Bool.and_eq_true]
  constructor
  · rintro ⟨segment, ⟨hrow, hdocument, hmatched⟩, rfl⟩
    exact ⟨hmatched, segment, hrow, rfl, hdocument⟩
  · rintro ⟨hmatched, segment, hrow, rfl, hdocument⟩
    exact ⟨segment, ⟨hrow, hdocument, hmatched⟩, rfl⟩

/-- A filtered search returns the best matches if and only if the cut at `k`, which comes before the
filter, takes away no match in the filter or leaves only such. -/
theorem bestMatches_iff (table : String → Option OrderedSet) (keywords : OrderedSet)
    (segments : Segments) (documentId : String) (filter : List String) (k : Nat) :
    BestMatches table keywords segments (documentId :: filter) k
        (search segments table keywords k (documentId :: filter)) ↔
      CutHarmless table keywords segments (documentId :: filter) k := by
  obtain ⟨hwithin, hmap⟩ := @search_spec table keywords segments k documentId filter
  generalize search segments table keywords k (documentId :: filter) = result at *
  generalize documentId :: filter = allowed at *
  have hscore : (ranked (shared table keywords) (matched table keywords)).Pairwise fun a b =>
      shared table keywords b ≤ shared table keywords a :=
    (pairwise_ranked (pairwise_eraseDups _)).imp fun h => by unfold Precedes at h; omega
  rw [cutHarmless_iff, ← hmap, List.length_map, ← length_matches]
  refine ⟨fun h => h.length, fun h => ⟨hwithin, h, ?_, ?_⟩⟩
  · have hsorted : (result.map (·.indexNodeId)).Pairwise fun a b =>
        shared table keywords b ≤ shared table keywords a := by
      rw [hmap, retrieveIdsByQuery_eq]
      exact hscore.sublist (List.filter_sublist.trans (List.take_sublist _ _))
    exact List.pairwise_map.mp hsorted
  · intro omitted hrow hdocument hnot segment hsegment
    rcases Nat.eq_zero_or_pos (shared table keywords omitted.indexNodeId) with hzero | hpos
    · rw [hzero]
      exact Nat.zero_le _
    have hin : segment.indexNodeId ∈ result.map (·.indexNodeId) := List.mem_map_of_mem hsegment
    rw [hmap, retrieveIdsByQuery_eq] at hin
    rw [← List.take_append_drop k (ranked _ _)] at hscore
    refine (List.pairwise_append.mp hscore).2.2 _ (List.mem_of_mem_filter hin) _ ?_
    have hranked : omitted.indexNodeId ∈ ranked (shared table keywords) (matched table keywords) :=
      perm_ranked.mem_iff.mpr (mem_matched_iff.mpr hpos)
    rw [← List.take_append_drop k (ranked _ _), List.mem_append] at hranked
    refine hranked.resolve_left fun htop => hnot ?_
    have hmem : omitted.indexNodeId ∈ result.map (·.indexNodeId) := by
      rw [hmap, retrieveIdsByQuery_eq]
      exact List.mem_filter.mpr ⟨htop, List.any_eq_true.mpr ⟨omitted, hrow, by simp [hdocument]⟩⟩
    obtain ⟨other, hother, hsame⟩ := List.mem_map.mp hmem
    have he := List.inj_on_of_nodup_map segments.nodup (hwithin other hother).1 hrow hsame
    exact he ▸ hother

private def fruits : String → Option OrderedSet
  | "apple" => some ⟨["n1", "n2"], by decide⟩
  | _ => none

private def orchard : Segments where
  rows := [⟨"n1", "d1", "apple", "h1"⟩, ⟨"n2", "d2", "apple pie", "h2"⟩]
  nodup := by decide

/-- The only place is taken by a segment of another document. -/
theorem search_fails : ¬ BestMatches fruits ⟨["apple"], by decide⟩ orchard ["d2"] 1
    (search orchard fruits ⟨["apple"], by decide⟩ 1 ["d2"]) := by
  intro h
  have hlength := h.length
  revert hlength
  decide +kernel

end PlatformSpec.Indexing.KeywordSearch
