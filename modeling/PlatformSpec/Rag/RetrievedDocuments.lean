import Mathlib.Algebra.Order.Ring.Int
import PlatformSpec.Base.Keyed

/-!
# Duplicates among retrieved documents

Models `Document` of `core/rag/models/document.py` and `_deduplicate_documents` of
`core/rag/datasource/retrieval_service.py`. Scores are of any ordered type with a zero. What is
only compared as a whole, such as the vector of a document, is of a type of its own.
-/

namespace PlatformSpec.Rag

open Base Assoc Keyed

/-- `metadata`: the entries that are read, and the others. -/
structure Metadata (σ μ : Type) where
  docId : Option String := none
  docType : Option String := none
  score : Option σ := none
  others : μ
  deriving DecidableEq

/-- `Document`. -/
structure Document (σ μ : Type) where
  pageContent : String
  metadata : Metadata σ μ
  provider : Option String := some "dify"
  parts : μ
  deriving DecidableEq

variable {σ μ : Type}

/-- `provider or "dify"`. -/
def orDify : Option String → String
  | none => "dify"
  | some provider => if provider = "" then "dify" else provider

namespace Document

/-- The `doc_id` of a document of the platform, unless it is empty. -/
def docId? (doc : Document σ μ) : Option String :=
  if doc.provider = some "dify" then doc.metadata.docId.filter (· ≠ "") else none

/-- The score, or zero. -/
def value [Zero σ] (doc : Document σ μ) : σ := doc.metadata.score.getD 0

end Document

/-- A key of the dictionary of chosen documents, a tuple. -/
structure DedupKey where
  provider : String
  text : String
  deriving DecidableEq

/-- The body of the loop of `_deduplicate_documents`, on the documents chosen for the keys and the
order in which the keys first came. -/
def deduplicateStep [LinearOrder σ] [Zero σ] :
    List (DedupKey × Document σ μ) × List DedupKey → Document σ μ →
      List (DedupKey × Document σ μ) × List DedupKey
  | (chosen, order), doc =>
    match doc.docId? with
    | some docId =>
      let key := ⟨"dify", docId⟩
      match chosen.lookup key with
      | none => (assign chosen key doc, order ++ [key])
      | some old =>
        match doc.metadata.score with
        | none => (chosen, order)
        | some newScore =>
          if old.value < newScore then (assign chosen key doc, order) else (chosen, order)
    | none =>
      let contentKey := ⟨orDify doc.provider, doc.pageContent⟩
      match chosen.lookup contentKey with
      | none => (assign chosen contentKey doc, order ++ [contentKey])
      | some _ => (chosen, order)

/-- `_deduplicate_documents`; no key of the order is missing. -/
def deduplicateDocuments [LinearOrder σ] [Zero σ] (documents : List (Document σ μ)) :
    List (Document σ μ) :=
  let (chosen, order) := documents.foldl deduplicateStep ([], [])
  order.filterMap fun k => chosen.lookup k

/-! ## The contract -/

/-- What makes two documents duplicates. -/
inductive DuplicateClass where
  | docId (docId : String)
  | content (provider content : String)
  deriving DecidableEq

/-- The key of a class. -/
def DuplicateClass.key : DuplicateClass → DedupKey
  | .docId id => ⟨"dify", id⟩
  | .content provider text => ⟨provider, text⟩

/-- Documents with a `doc_id` by it, the others by provider and content. -/
def Document.duplicateClass (doc : Document σ μ) : DuplicateClass :=
  match doc.docId? with
  | some docId => .docId docId
  | none => .content (orDify doc.provider) doc.pageContent

/-- One document for each class, in the order in which the classes first came: of those with a
`doc_id` one with the highest score, if any has a score, and of the others the first. -/
structure Deduplicates [LinearOrder σ] (documents kept : List (Document σ μ)) : Prop where
  classes : kept.map Document.duplicateClass = (documents.map Document.duplicateClass).eraseDups
  member : ∀ doc ∈ kept, doc ∈ documents
  highest : ∀ doc ∈ kept, ∀ docId, doc.docId? = some docId →
    ∀ d ∈ documents, d.docId? = some docId → ∀ s ∈ d.metadata.score,
      ∃ s' ∈ doc.metadata.score, s ≤ s'
  first : ∀ doc ∈ kept, doc.docId? = none →
    documents.find? (fun d => d.duplicateClass = doc.duplicateClass) = some doc

/-- No document without a `doc_id` has the content that another has for its `doc_id`. -/
def KeysApart (documents : List (Document σ μ)) : Prop :=
  ∀ a ∈ documents, ∀ b ∈ documents, ∀ docId, a.docId? = some docId → b.docId? = none →
    DedupKey.mk (orDify b.provider) b.pageContent ≠ ⟨"dify", docId⟩

/-- Where the first document with a `doc_id` has no score and another has one, one has a positive
score. -/
def FirstsScored [LT σ] [Zero σ] (documents : List (Document σ μ)) : Prop :=
  ∀ docId first, documents.find? (fun d => d.docId? = some docId) = some first →
    first.metadata.score = none →
    (∃ d ∈ documents, d.docId? = some docId ∧ d.metadata.score ≠ none) →
    ∃ d ∈ documents, d.docId? = some docId ∧ ∃ s ∈ d.metadata.score, 0 < s

/-! ## What is kept -/

/-- The key of a document. -/
private def keyOf (doc : Document σ μ) : DedupKey := doc.duplicateClass.key

private theorem keyOf_some {doc : Document σ μ} {docId : String} (h : doc.docId? = some docId) :
    keyOf doc = ⟨"dify", docId⟩ := by
  rw [keyOf, Document.duplicateClass, h]
  rfl

private theorem keyOf_none {doc : Document σ μ} (h : doc.docId? = none) :
    keyOf doc = ⟨orDify doc.provider, doc.pageContent⟩ := by
  rw [keyOf, Document.duplicateClass, h]
  rfl

private theorem duplicateClass_eq_docId {doc : Document σ μ} {docId : String} :
    doc.duplicateClass = .docId docId ↔ doc.docId? = some docId := by
  rw [Document.duplicateClass]
  cases doc.docId? with
  | none => simp
  | some d => rw [DuplicateClass.docId.injEq, Option.some.injEq]

variable [LinearOrder σ] [Zero σ]

/-- A later document replaces the one that is there. -/
private def Outdoes (old new : Document σ μ) : Prop :=
  new.docId? ≠ none ∧ ∃ s ∈ new.metadata.score, old.value < s

open Classical in
private noncomputable def pick (old new : Document σ μ) : Document σ μ :=
  if Outdoes old new then new else old

variable {documents l : List (Document σ μ)} {b doc : Document σ μ} {docId : String}

private theorem pick_cases (old new : Document σ μ) : pick old new = old ∨ pick old new = new := by
  rw [pick]
  split
  · exact .inr rfl
  · exact .inl rfl

private theorem pick_old {old new : Document σ μ}
    (h : ∀ s ∈ new.metadata.score, ¬ old.value < s) : pick old new = old := by
  apply if_neg
  rintro ⟨-, s, hs, hlt⟩
  exact h s hs hlt

private theorem step_insert (chosen : List (DedupKey × Document σ μ))
    (doc : Document σ μ) :
    deduplicateStep (chosen, chosen.map Prod.fst) doc =
      (add keyOf pick chosen doc, (add keyOf pick chosen doc).map Prod.fst) := by
  have hnew (hnone : chosen.lookup (keyOf doc) = none) :
      (assign chosen (keyOf doc) doc).map Prod.fst = chosen.map Prod.fst ++ [keyOf doc] := by
    rw [keys_assign, if_neg]
    intro hmem
    obtain ⟨p, hp, he⟩ := List.mem_map.mp hmem
    exact absurd he.symm (bne_iff_ne.mp (List.lookup_eq_none_iff.mp hnone p hp))
  have hold {old : Document σ μ} (hsome : chosen.lookup (keyOf doc) = some old)
      (d : Document σ μ) : (assign chosen (keyOf doc) d).map Prod.fst = chosen.map Prod.fst := by
    rw [keys_assign, if_pos]
    by_contra hmem
    rw [List.lookup_eq_none_iff.mpr] at hsome
    · cases hsome
    · intro p hp
      apply bne_iff_ne.mpr
      intro he
      exact hmem (he ▸ List.mem_map_of_mem hp)
  rw [add]
  cases hid : doc.docId? with
  | some docId =>
    have hkey := keyOf_some hid
    rw [hkey] at hnew hold
    simp only [deduplicateStep, hid, hkey]
    cases hlookup : chosen.lookup ⟨"dify", docId⟩ with
    | none =>
      dsimp only
      rw [hnew hlookup]
    | some old =>
      have hkeep : assign chosen ⟨"dify", docId⟩ old = chosen := assign_of_lookup hlookup
      dsimp only
      rw [hold hlookup]
      cases hscore : doc.metadata.score with
      | none =>
        have hpick : pick old doc = old := by
          apply pick_old
          intro s hs
          rw [hscore] at hs
          cases hs
        rw [hpick, hkeep]
      | some newScore =>
        dsimp only
        split
        next hlt =>
          have hpick : pick old doc = doc :=
            if_pos ⟨by rw [hid]; exact Option.some_ne_none _, newScore, hscore, hlt⟩
          rw [hpick]
        next hlt =>
          have hpick : pick old doc = old := by
            apply pick_old
            intro s hs
            rw [hscore] at hs
            cases hs
            exact hlt
          rw [hpick, hkeep]
  | none =>
    have hkey := keyOf_none hid
    rw [hkey] at hnew hold
    simp only [deduplicateStep, hid, hkey]
    cases hlookup : chosen.lookup ⟨orDify doc.provider, doc.pageContent⟩ with
    | none =>
      dsimp only
      rw [hnew hlookup]
    | some old =>
      have hpick : pick old doc = old := if_neg fun h => h.1 hid
      dsimp only
      rw [hold hlookup, hpick, assign_of_lookup hlookup]

private theorem foldl_step (documents : List (Document σ μ)) :
    documents.foldl deduplicateStep ([], []) =
      (gather keyOf pick documents, (gather keyOf pick documents).map Prod.fst) := by
  induction documents using List.reverseRecOn with
  | nil => rfl
  | append_singleton documents doc ih =>
    rw [List.foldl_append, ih, gather_concat]
    exact step_insert _ _

private theorem nodup_keys (documents : List (Document σ μ)) :
    ((gather keyOf pick documents).map Prod.fst).Nodup := by
  rw [keys_gather]
  exact nodup_eraseDups _

private theorem deduplicate_eq (documents : List (Document σ μ)) :
    deduplicateDocuments documents = (gather keyOf pick documents).map Prod.snd := by
  rw [deduplicateDocuments, foldl_step]
  exact filterMap_lookup_keys (nodup_keys documents)

private theorem map_keyOf (documents : List (Document σ μ)) :
    (deduplicateDocuments documents).map keyOf = (documents.map keyOf).eraseDups := by
  have hkeys : (gather keyOf pick documents).map Prod.fst = _ := keys_gather documents
  rw [deduplicate_eq, ← hkeys, List.map_map]
  apply List.map_congr_left
  intro p hp
  exact (key_of_mem_gather pick_cases hp).1

private theorem mem_deduplicate_iff : doc ∈ deduplicateDocuments documents ↔
    best pick (documents.filter fun d => keyOf d = keyOf doc) = some doc := by
  rw [deduplicate_eq, ← lookup_gather]
  constructor
  · intro h
    obtain ⟨⟨k, d⟩, hp, rfl⟩ := List.mem_map.mp h
    rw [(key_of_mem_gather pick_cases hp).1]
    exact lookup_of_mem (nodup_keys documents) hp
  · intro h
    exact List.mem_map.mpr ⟨_, mem_of_lookup h, rfl⟩

theorem deduplicate_deduplicate (documents : List (Document σ μ)) :
    deduplicateDocuments (deduplicateDocuments documents) = deduplicateDocuments documents := by
  have hnodup : ((deduplicateDocuments documents).map keyOf).Nodup := by
    rw [map_keyOf]
    exact nodup_eraseDups _
  rw [deduplicate_eq, gather_of_nodup hnodup, List.map_map]
  exact List.map_id' _

/-! ## The best of a class -/

private theorem value_best (hid : ∀ d ∈ l, d.docId? ≠ none) (h : best pick l = some b) :
    ∀ d ∈ l, ∀ s ∈ d.metadata.score, s ≤ b.value := by
  induction l using List.reverseRecOn generalizing b with
  | nil => exact List.forall_mem_nil _
  | append_singleton l a ih =>
    rw [List.forall_mem_append, List.forall_mem_singleton] at hid
    rw [List.forall_mem_append, List.forall_mem_singleton]
    rw [best_concat] at h
    cases hold : best pick l with
    | none =>
      rw [hold] at h
      cases h
      rw [best_eq_none_iff.mp hold]
      refine ⟨List.forall_mem_nil _, fun s hs => ?_⟩
      rw [Option.elim_none, Document.value, Option.mem_def.mp hs]
      exact le_refl s
    | some old =>
      rw [hold] at h
      cases h
      rw [Option.elim_some, pick]
      split
      next hout =>
        obtain ⟨-, s, hs, hlt⟩ := hout
        have hvalue : a.value = s := by rw [Document.value, Option.mem_def.mp hs]; rfl
        constructor
        · intro d hd t ht
          exact le_trans (ih hid.1 hold d hd t ht) (hvalue ▸ le_of_lt hlt)
        · intro t ht
          rw [hvalue, Option.mem_unique ht hs]
      next hout =>
        refine ⟨ih hid.1 hold, fun s hs => ?_⟩
        exact not_lt.mp fun hlt => hout ⟨hid.2, s, hs, hlt⟩

private theorem best_cases (h : best pick l = some b) : ∃ first, l.head? = some first ∧
    (b = first ∨ ∃ s ∈ b.metadata.score, first.value < s) := by
  induction l using List.reverseRecOn generalizing b with
  | nil => cases h
  | append_singleton l a ih =>
    rw [best_concat] at h
    cases hold : best pick l with
    | none =>
      rw [hold] at h
      cases h
      rw [best_eq_none_iff.mp hold]
      exact ⟨a, rfl, .inl rfl⟩
    | some old =>
      obtain ⟨first, hfirst, hcases⟩ := ih hold
      refine ⟨first, by rw [List.head?_append, hfirst]; rfl, ?_⟩
      rw [hold] at h
      cases h
      rw [Option.elim_some, pick]
      split
      next hout =>
        obtain ⟨-, s, hs, hlt⟩ := hout
        refine .inr ⟨s, hs, ?_⟩
        rcases hcases with rfl | ⟨t, ht, hlt'⟩
        · exact hlt
        · have hvalue : old.value = t := by rw [Document.value, Option.mem_def.mp ht]; rfl
          exact lt_trans hlt' (hvalue ▸ hlt)
      next => exact hcases

private theorem best_content (hid : ∀ d ∈ l, d.docId? = none) : best pick l = l.head? := by
  induction l using List.reverseRecOn with
  | nil => rfl
  | append_singleton l a ih =>
    rw [List.forall_mem_append, List.forall_mem_singleton] at hid
    rw [best_concat, ih hid.1, List.head?_append]
    cases l.head? with
    | none => rfl
    | some first =>
      rw [Option.elim_some, pick, if_neg fun h : Outdoes first a => h.1 hid.2]
      rfl

/-! ## When the contract is met -/

omit [LinearOrder σ] [Zero σ] in
private theorem keyOf_eq_iff (h : KeysApart documents) {a : Document σ μ} (ha : a ∈ documents)
    (hb : b ∈ documents) : keyOf a = keyOf b ↔ a.duplicateClass = b.duplicateClass := by
  refine ⟨fun he => ?_, fun he => congrArg DuplicateClass.key he⟩
  cases hida : a.docId? with
  | some docId =>
    cases hidb : b.docId? with
    | some docId' =>
      rw [keyOf_some hida, keyOf_some hidb, DedupKey.mk.injEq] at he
      rw [duplicateClass_eq_docId.mpr hida, duplicateClass_eq_docId.mpr hidb, he.2]
    | none =>
      rw [keyOf_some hida, keyOf_none hidb] at he
      exact absurd he.symm (h a ha b hb docId hida hidb)
  | none =>
    cases hidb : b.docId? with
    | some docId' =>
      rw [keyOf_none hida, keyOf_some hidb] at he
      exact absurd he (h b hb a ha docId' hidb hida)
    | none =>
      rw [keyOf_none hida, keyOf_none hidb, DedupKey.mk.injEq] at he
      rw [Document.duplicateClass, Document.duplicateClass, hida, hidb, he.1, he.2]

private theorem mem_documents (h : doc ∈ deduplicateDocuments documents) : doc ∈ documents :=
  (List.mem_filter.mp (mem_of_best pick_cases (mem_deduplicate_iff.mp h))).1

omit [LinearOrder σ] [Zero σ] in
private theorem filter_docId (h : KeysApart documents) (hdoc : doc ∈ documents)
    (hid : doc.docId? = some docId) :
    (documents.filter fun d => keyOf d = keyOf doc) =
      documents.filter fun d => d.docId? = some docId := by
  apply List.filter_congr
  intro d hd
  apply decide_eq_decide.mpr
  rw [keyOf_eq_iff h hd hdoc, duplicateClass_eq_docId.mpr hid, duplicateClass_eq_docId]

omit [LinearOrder σ] [Zero σ] in
theorem docId_of_mem_filter :
    ∀ d ∈ documents.filter (fun d => d.docId? = some docId), d.docId? ≠ none := by
  intro d hd
  rw [of_decide_eq_true (List.mem_filter.mp hd).2]
  exact Option.some_ne_none docId

theorem classes_of_apart (h : KeysApart documents) :
    (deduplicateDocuments documents).map Document.duplicateClass =
      (documents.map Document.duplicateClass).eraseDups := by
  have hinj : ∀ c ∈ documents.map Document.duplicateClass,
      ∀ c' ∈ documents.map Document.duplicateClass, c.key = c'.key → c = c' := by
    intro c hc c' hc' he
    obtain ⟨a, ha, rfl⟩ := List.mem_map.mp hc
    obtain ⟨b, hb, rfl⟩ := List.mem_map.mp hc'
    exact (keyOf_eq_iff h ha hb).mp he
  apply eq_of_map_eq (h := DuplicateClass.key)
  · intro c hc c' hc' he
    obtain ⟨a, ha, rfl⟩ := List.mem_map.mp hc
    exact hinj _ (List.mem_map_of_mem (mem_documents ha)) _ (List.mem_eraseDups.mp hc') he
  · rw [← eraseDups_map hinj, List.map_map, List.map_map]
    exact map_keyOf documents

private theorem exists_kept {documents : List (Document σ μ)} {a : Document σ μ}
    (h : Deduplicates documents (deduplicateDocuments documents)) (ha : a ∈ documents) :
    ∃ o ∈ deduplicateDocuments documents, o.duplicateClass = a.duplicateClass := by
  have hmem := List.mem_eraseDups.mpr (List.mem_map_of_mem (f := Document.duplicateClass) ha)
  rw [← h.classes] at hmem
  exact List.mem_map.mp hmem

theorem keysApart_of_deduplicates {documents : List (Document σ μ)}
    (h : Deduplicates documents (deduplicateDocuments documents)) : KeysApart documents := by
  intro a ha b hb docId hida hidb he
  have hnodup : ((deduplicateDocuments documents).map keyOf).Nodup := by
    rw [map_keyOf]
    exact nodup_eraseDups _
  obtain ⟨o, ho, hoa⟩ := exists_kept h ha
  obtain ⟨o', ho', hob⟩ := exists_kept h hb
  have hsame : keyOf o = keyOf o' := by
    rw [keyOf, keyOf, hoa, hob]
    change keyOf a = keyOf b
    rw [keyOf_some hida, keyOf_none hidb, he]
  rw [List.inj_on_of_nodup_map hnodup ho ho' hsame, hob] at hoa
  rw [duplicateClass_eq_docId.mpr hida, duplicateClass_eq_docId, hidb] at hoa
  cases hoa

theorem firstsScored_of_deduplicates {documents : List (Document σ μ)}
    (h : Deduplicates documents (deduplicateDocuments documents)) : FirstsScored documents := by
  intro docId first hfirst hnone hscored
  have hid : first.docId? = some docId := of_decide_eq_true (List.find?_some hfirst :)
  have hmem := List.mem_of_find?_eq_some hfirst
  obtain ⟨o, ho, hclass⟩ := exists_kept h hmem
  rw [duplicateClass_eq_docId.mpr hid, duplicateClass_eq_docId] at hclass
  obtain ⟨d, hd, hdid, hdscore⟩ := hscored
  obtain ⟨s, hs⟩ := Option.ne_none_iff_exists'.mp hdscore
  obtain ⟨s', hs', -⟩ := h.highest o ho docId hclass d hd hdid s hs
  have hbest := mem_deduplicate_iff.mp ho
  rw [filter_docId (keysApart_of_deduplicates h) (mem_documents ho) hclass] at hbest
  obtain ⟨first', hhead, hcases⟩ := best_cases hbest
  rw [List.head?_filter, hfirst] at hhead
  cases hhead
  rcases hcases with rfl | ⟨t, ht, hpos⟩
  · rw [hnone] at hs'
    cases hs'
  · have hzero : first.value = 0 := by rw [Document.value, hnone]; rfl
    exact ⟨o, mem_documents ho, hclass, t, ht, hzero ▸ hpos⟩

private theorem highest_kept {documents : List (Document σ μ)} (hapart : KeysApart documents)
    (hscored : FirstsScored documents) {doc d : Document σ μ} {docId : String} {s : σ}
    (hdoc : doc ∈ deduplicateDocuments documents) (hid : doc.docId? = some docId)
    (hd : d ∈ documents) (hdid : d.docId? = some docId) (hs : d.metadata.score = some s) :
    ∃ s', doc.metadata.score = some s' ∧ s ≤ s' := by
  have hbest := mem_deduplicate_iff.mp hdoc
  rw [filter_docId hapart (mem_documents hdoc) hid] at hbest
  have hvalue := value_best docId_of_mem_filter hbest
  cases hscore : doc.metadata.score with
  | some s' =>
    refine ⟨s', rfl, ?_⟩
    have hle := hvalue d (List.mem_filter.mpr ⟨hd, decide_eq_true hdid⟩) s hs
    rwa [Document.value, hscore] at hle
  | none =>
    -- the first document has no score, and one with a positive score is outdone by none
    obtain ⟨first, hhead, hcases⟩ := best_cases hbest
    rcases hcases with rfl | ⟨t, ht, -⟩
    · rw [List.head?_filter] at hhead
      obtain ⟨d', hd', hid', t, ht, hpos⟩ := hscored docId doc hhead hscore
        ⟨d, hd, hdid, Option.ne_none_iff_exists'.mpr ⟨s, hs⟩⟩
      have hle := hvalue d' (List.mem_filter.mpr ⟨hd', decide_eq_true hid'⟩) t ht
      rw [Document.value, hscore] at hle
      exact absurd hpos (not_lt.mpr hle)
    · rw [hscore] at ht
      cases ht

private theorem first_kept {documents : List (Document σ μ)} (hapart : KeysApart documents)
    {doc : Document σ μ} (hdoc : doc ∈ deduplicateDocuments documents)
    (hid : doc.docId? = none) :
    documents.find? (fun d => d.duplicateClass = doc.duplicateClass) = some doc := by
  have hbest := mem_deduplicate_iff.mp hdoc
  have hfilter : (documents.filter fun d => keyOf d = keyOf doc) =
      documents.filter fun d => d.duplicateClass = doc.duplicateClass := by
    apply List.filter_congr
    intro d hd
    exact decide_eq_decide.mpr (keyOf_eq_iff hapart hd (mem_documents hdoc))
  rw [hfilter, best_content, List.head?_filter] at hbest
  · exact hbest
  · intro d hd
    have hclass : d.duplicateClass = doc.duplicateClass :=
      of_decide_eq_true (List.mem_filter.mp hd).2
    cases hdid : d.docId? with
    | none => rfl
    | some docId =>
      rw [duplicateClass_eq_docId.mpr hdid, eq_comm, duplicateClass_eq_docId, hid] at hclass
      cases hclass

/-- The contract is met if and only if no content is a `doc_id` and no score is lost to a first
document without one; deduplicating once is always enough. -/
theorem deduplicates_iff (documents : List (Document σ μ)) :
    (Deduplicates documents (deduplicateDocuments documents) ∧
      deduplicateDocuments (deduplicateDocuments documents) = deduplicateDocuments documents) ↔
    KeysApart documents ∧ FirstsScored documents := by
  rw [and_iff_left (deduplicate_deduplicate documents)]
  constructor
  · intro h
    exact ⟨keysApart_of_deduplicates h, firstsScored_of_deduplicates h⟩
  · rintro ⟨hapart, hscored⟩
    refine ⟨classes_of_apart hapart, fun doc => mem_documents, ?_, ?_⟩
    · intro doc hdoc docId hid d hd hdid s hs
      exact highest_kept hapart hscored hdoc hid hd hdid hs
    · intro doc hdoc hid
      exact first_kept hapart hdoc hid

/-- A document without a score. -/
def unscored : Document Int Unit := ⟨"a", ⟨some "d", none, none, ()⟩, some "dify", ()⟩

/-- A document with a negative score. -/
def negative : Document Int Unit := ⟨"a", ⟨some "d", none, some (-1), ()⟩, some "dify", ()⟩

/-- A document without a `doc_id`, whose content is the `doc_id` of the others. -/
def namesake : Document Int Unit := ⟨"d", ⟨none, none, none, ()⟩, some "dify", ()⟩

/-- A negative score is lost to a first document without a score, and a content that is a `doc_id`
makes its document a duplicate. -/
theorem negative_score_lost :
    ¬ Deduplicates [unscored, negative] (deduplicateDocuments [unscored, negative]) ∧
    ¬ Deduplicates [unscored, namesake] (deduplicateDocuments [unscored, namesake]) := by
  constructor
  · intro h
    have hkept : deduplicateDocuments [unscored, negative] = [unscored] := by decide
    obtain ⟨s, hs, -⟩ :=
      h.highest unscored (by rw [hkept]; exact List.mem_cons_self) "d" (by decide)
      negative (List.mem_cons_of_mem _ List.mem_cons_self) (by decide) (-1) rfl
    cases hs
  · intro h
    exact absurd h.classes (by decide)

end PlatformSpec.Rag
