import Mathlib.Data.List.Sort
import PlatformSpec.Base.Collect
import PlatformSpec.Base.Result
import PlatformSpec.Base.Window
import PlatformSpec.Rag.RetrievedDocuments

/-!
# Reranking by a model

Models `RerankModelRunner` of `core/rag/rerank/rerank_model.py`: the contents of documents without
duplicates are sent to a model, whose result names them by index. Beside each content stands the
document it is of, which the source does not record.
-/

namespace PlatformSpec.Rag

open Base

variable {σ μ : Type}

inductive QueryType where
  | textQuery | imageQuery
  deriving DecidableEq

/-- What is raised. -/
inductive RerankError where
  | keyError (key : String)
  | indexError
  | valueError (message : String)
  | storage
  | invocation
  deriving DecidableEq

/-- A query or a document of a multimodal call. -/
structure FileContent where
  content : String
  contentType : String
  deriving DecidableEq

/-- A call of the model. -/
inductive RerankCall (σ : Type) where
  | invokeRerank (query : String) (docs : List String) (scoreThreshold : Option σ)
      (topN : Option Int)
  | invokeMultimodalRerank (query : FileContent) (docs : List FileContent)
      (scoreThreshold : Option σ) (topN : Option Int)

/-- How many documents are sent. -/
def RerankCall.size : RerankCall σ → Nat
  | invokeRerank _ docs _ _ => docs.length
  | invokeMultimodalRerank _ docs _ _ => docs.length

/-- `RerankDocument`, an entry of a result. -/
structure RerankDocument (σ : Type) where
  index : Nat
  text : String
  score : σ
  deriving DecidableEq

/-- A model: the indices of its results are within range. -/
structure RerankModel (σ : Type) where
  invoke : RerankCall σ → Except RerankError (List (RerankDocument σ))
  index_lt : ∀ call result, invoke call = .ok result → ∀ r ∈ result, r.index < call.size

/-- The upload files by id, and what the storage holds under their keys, in base 64. -/
structure UploadFiles where
  key : String → Option String
  load : String → Option String

/-- What a loop over the documents collects: the contents to send, with their documents, the
`doc_id`s seen and the documents without duplicates. -/
structure Collected (κ σ μ : Type) where
  docs : List (κ × Document σ μ) := []
  docIds : List String := []
  unique : List (Document σ μ) := []

/-- What a fetch returns, with the documents whose contents were sent. -/
structure Fetched (σ μ : Type) where
  result : List (RerankDocument σ)
  unique : List (Document σ μ)
  sent : List (Document σ μ)

/-- `document.metadata.get("doc_type") or DocType.TEXT`. -/
def Metadata.typeOrText (metadata : Metadata σ μ) : String :=
  match metadata.docType with
  | none => "text"
  | some docType => if docType = "" then "text" else docType

section Fetch

variable [DecidableEq σ] [DecidableEq μ]

/-- The body of the loop of `fetch_text_rerank`. -/
def textStep (s : Collected String σ μ) (document : Document σ μ) :
    Except RerankError (Collected String σ μ) :=
  if document.provider = some "dify" then
    match document.metadata.docId with
    | none => .error (.keyError "doc_id")
    | some docId =>
      if docId ∉ s.docIds then
        if document.metadata.typeOrText = "text" then
          .ok ⟨s.docs ++ [(document.pageContent, document)], s.docIds ++ [docId],
            s.unique ++ [document]⟩
        else .ok s
      else .ok s
  else if document.provider = some "external" then
    if document ∉ s.unique then
      .ok { s with
        docs := s.docs ++ [(document.pageContent, document)]
        unique := s.unique ++ [document] }
    else .ok s
  else .ok s

/-- `fetch_text_rerank`. -/
def fetchTextRerank (model : RerankModel σ) (query : String) (documents : List (Document σ μ))
    (scoreThreshold : Option σ) (topN : Option Int) : Except RerankError (Fetched σ μ) := do
  let s ← documents.foldlM textStep {}
  let result ← model.invoke (.invokeRerank query (s.docs.map Prod.fst) scoreThreshold topN)
  return ⟨result, s.unique, s.docs.map Prod.snd⟩

/-- The content that is sent of a document: none of an image without an upload file. -/
def fileContent (files : UploadFiles) (document : Document σ μ) (docId : String) :
    Except RerankError (Option FileContent) :=
  if document.metadata.docType = some "image" then
    match files.key docId with
    | none => .ok none
    | some key =>
      match files.load key with
      | none => .error .storage
      | some blob => .ok (some ⟨blob, "image"⟩)
  else .ok (some ⟨document.pageContent, document.metadata.typeOrText⟩)

/-- The body of the loop of `fetch_multimodal_rerank`. -/
def multimodalStep (files : UploadFiles) (s : Collected FileContent σ μ) (document : Document σ μ) :
    Except RerankError (Collected FileContent σ μ) :=
  if document.provider = some "dify" then
    match document.metadata.docId with
    | none => .error (.keyError "doc_id")
    | some docId =>
      if docId ∉ s.docIds then do
        let content ← fileContent files document docId
        return ⟨s.docs ++ (content.map fun c => (c, document)).toList, s.docIds ++ [docId],
          s.unique ++ [document]⟩
      else .ok s
  else if document.provider = some "external" then
    if document ∉ s.unique then
      .ok { s with
        docs := s.docs ++ [(⟨document.pageContent, document.metadata.typeOrText⟩, document)]
        unique := s.unique ++ [document] }
    else .ok s
  else .ok s

/-- The file that is the query. -/
def queryFile (files : UploadFiles) (query : String) : Except RerankError FileContent :=
  match files.key query with
  | none => .error (.valueError s!"Upload file not found for query: {query}")
  | some key =>
    match files.load key with
    | none => .error .storage
    | some blob => .ok ⟨blob, "image"⟩

/-- `fetch_multimodal_rerank`. -/
def fetchMultimodalRerank (files : UploadFiles) (model : RerankModel σ) (query : String)
    (documents : List (Document σ μ)) (scoreThreshold : Option σ) (topN : Option Int)
    (queryType : QueryType) : Except RerankError (Fetched σ μ) := do
  let s ← documents.foldlM (multimodalStep files) {}
  match queryType with
  | .textQuery => fetchTextRerank model query s.unique scoreThreshold topN
  | .imageQuery =>
    let queryDict ← queryFile files query
    let result ← model.invoke
      (.invokeMultimodalRerank queryDict (s.docs.map Prod.fst) scoreThreshold topN)
    return ⟨result, s.unique, s.docs.map Prod.snd⟩

/-- The first part of `run`: what is fetched, or nothing where the documents are returned as they
are. -/
def fetch (files : UploadFiles) (isSupportVision : Bool) (model : RerankModel σ) (query : String)
    (documents : List (Document σ μ)) (scoreThreshold : Option σ) (topN : Option Int)
    (queryType : QueryType) : Except RerankError (Option (Fetched σ μ)) :=
  if isSupportVision then
    some <$> fetchMultimodalRerank files model query documents scoreThreshold topN queryType
  else
    match queryType with
    | .textQuery => some <$> fetchTextRerank model query documents scoreThreshold topN
    | .imageQuery => .ok none

end Fetch

section Run

variable [LinearOrder σ] [Zero σ] [DecidableEq μ] [Inhabited μ]

/-- The document that is made for an entry of the result. -/
def reranked (r : RerankDocument σ) (document : Document σ μ) : Document σ μ :=
  { pageContent := r.text
    metadata := { document.metadata with score := some r.score }
    provider := document.provider
    parts := default }

/-- `score_threshold is None or result.score >= score_threshold`. -/
def passes (scoreThreshold : Option σ) (r : RerankDocument σ) : Bool :=
  scoreThreshold.all fun threshold => decide (threshold ≤ r.score)

/-- The loop over `rerank_result.docs`. -/
def rerankDocuments (unique : List (Document σ μ)) (scoreThreshold : Option σ) :
    List (RerankDocument σ) → Except RerankError (List (Document σ μ))
  | [] => .ok []
  | r :: rest =>
    if passes scoreThreshold r then
      match unique[r.index]? with
      | none => .error .indexError
      | some document => do
        let later ← rerankDocuments unique scoreThreshold rest
        return reranked r document :: later
    else rerankDocuments unique scoreThreshold rest

/-- `rerank_documents[:top_n] if top_n else rerank_documents`. -/
def cutAt (topN : Option Int) (documents : List (Document σ μ)) : List (Document σ μ) :=
  match topN with
  | none => documents
  | some n => if n = 0 then documents else slice documents 0 n

/-- `run`. -/
def rerankRun (files : UploadFiles) (isSupportVision : Bool) (model : RerankModel σ)
    (query : String) (documents : List (Document σ μ)) (scoreThreshold : Option σ)
    (topN : Option Int) (queryType : QueryType) : Except RerankError (List (Document σ μ)) := do
  match ← fetch files isSupportVision model query documents scoreThreshold topN queryType with
  | none => return documents
  | some fetched =>
    let rerankedDocuments ← rerankDocuments fetched.unique scoreThreshold fetched.result
    return cutAt topN (rerankedDocuments.insertionSort fun a b => b.value ≤ a.value)

end Run

/-! ## The contract -/

/-- Documents of the platform with different `doc_id`s, or not both of it. -/
def OtherDocId (a b : Document σ μ) : Prop :=
  a.provider = some "dify" → b.provider = some "dify" → a.metadata.docId ≠ b.metadata.docId

/-- Every document of the output is made for an entry of the result from the document sent at its
index; entries with different indices give different documents, in the order of their scores. -/
structure Attributes [LinearOrder σ] [Zero σ] (sent : List (Document σ μ))
    (result : List (RerankDocument σ)) (topN : Option Int) (output : List (Document σ μ)) :
    Prop where
  attributed : ∀ document ∈ output, ∃ r ∈ result, ∃ source, sent[r.index]? = some source ∧
    document.metadata = { source.metadata with score := some r.score } ∧
    document.provider = source.provider ∧ document.pageContent = r.text
  docIds : (result.map RerankDocument.index).Nodup → output.Pairwise OtherDocId
  ordered : output.Pairwise fun a b => b.value ≤ a.value
  cut : ∀ n, topN = some n → 0 < n → (output.length : Int) ≤ n

/-- The content of a document is sent: it is not that of an image without an upload file. -/
def sends (files : UploadFiles) (document : Document σ μ) : Option (Document σ μ) :=
  if document.provider = some "dify" ∧ document.metadata.docType = some "image" ∧
      document.metadata.docId.bind files.key = none then none
  else some document

/-- One document for each `doc_id`, and the external ones without repetition. -/
def uniqueStep [DecidableEq σ] [DecidableEq μ] (unique : List (Document σ μ))
    (document : Document σ μ) : List (Document σ μ) :=
  if document.provider = some "dify" then
    if unique.any fun d =>
      d.provider = some "dify" && d.metadata.docId = document.metadata.docId then
      unique
    else unique ++ [document]
  else if document.provider = some "external" ∧ document ∉ unique then unique ++ [document]
  else unique

/-- The documents without duplicates. -/
def uniqueDocuments [DecidableEq σ] [DecidableEq μ] (documents : List (Document σ μ)) :
    List (Document σ μ) :=
  documents.foldl uniqueStep []

/-- Nothing is raised before the model is called with an image. -/
def Answered [DecidableEq σ] [DecidableEq μ] (files : UploadFiles) (query : String)
    (documents : List (Document σ μ)) : Prop :=
  (∃ s, documents.foldlM (multimodalStep files) {} = .ok s) ∧ ∃ q, queryFile files query = .ok q

/-! ## What is collected -/

section Collected

variable {κ : Type} {keep : Document σ μ → Option (Document σ μ)} {s s' : Collected κ σ μ}
  {document : Document σ μ} {docId : String} {files : UploadFiles}

/-- The contents are those of the documents that are kept of the unique ones. -/
private structure Tracks (keep : Document σ μ → Option (Document σ μ)) (s : Collected κ σ μ) :
    Prop where
  docs : s.docs.map Prod.snd = s.unique.filterMap keep
  docIds : ∀ docId, docId ∈ s.docIds ↔
    ∃ d ∈ s.unique, d.provider = some "dify" ∧ d.metadata.docId = some docId
  apart : s.unique.Pairwise OtherDocId

private theorem Tracks.start : Tracks keep ({} : Collected κ σ μ) where
  docs := rfl
  docIds docId := by
    constructor
    · intro h
      cases h
    · rintro ⟨d, hd, -⟩
      cases hd
  apart := List.Pairwise.nil

private theorem Tracks.platform (h : Tracks keep s) (hprovider : document.provider = some "dify")
    (hdocId : document.metadata.docId = some docId) (hnew : docId ∉ s.docIds)
    {contents : List (κ × Document σ μ)}
    (hcontents : contents.map Prod.snd = (keep document).toList) :
    Tracks keep ⟨s.docs ++ contents, s.docIds ++ [docId], s.unique ++ [document]⟩ where
  docs := by
    rw [List.map_append, h.docs, hcontents, List.filterMap_append]
    cases hkeep : keep document with
    | none => rw [List.filterMap_cons_none hkeep]; rfl
    | some kept => rw [List.filterMap_cons_some hkeep]; rfl
  docIds id := by
    rw [List.mem_append, List.mem_singleton, h.docIds]
    constructor
    · rintro (⟨d, hd, hid⟩ | rfl)
      · exact ⟨d, List.mem_append_left _ hd, hid⟩
      · exact ⟨document, List.mem_append_right _ List.mem_cons_self, hprovider, hdocId⟩
    · rintro ⟨d, hd, hplatform, hid⟩
      cases List.mem_append.mp hd with
      | inl hold => exact .inl ⟨d, hold, hplatform, hid⟩
      | inr hlast =>
        rw [List.mem_singleton.mp hlast, hdocId] at hid
        exact .inr (Option.some.inj hid).symm
  apart := by
    rw [List.pairwise_append]
    refine ⟨h.apart, List.pairwise_singleton _ _, fun a ha b hb hdify _ hsame => ?_⟩
    rw [List.mem_singleton.mp hb, hdocId] at hsame
    exact hnew ((h.docIds docId).mpr ⟨a, ha, hdify, hsame⟩)

private theorem Tracks.external (h : Tracks keep s)
    (hprovider : document.provider = some "external")
    (hkeep : keep document = some document) (content : κ) :
    Tracks keep { s with
      docs := s.docs ++ [(content, document)]
      unique := s.unique ++ [document] } where
  docs := by
    rw [List.map_append, h.docs, List.filterMap_append, List.filterMap_cons_some hkeep]
    rfl
  docIds id := by
    rw [h.docIds]
    constructor
    · rintro ⟨d, hd, hid⟩
      exact ⟨d, List.mem_append_left _ hd, hid⟩
    · rintro ⟨d, hd, hplatform, hid⟩
      cases List.mem_append.mp hd with
      | inl hold => exact ⟨d, hold, hplatform, hid⟩
      | inr hlast =>
        rw [List.mem_singleton.mp hlast, hprovider] at hplatform
        exact absurd hplatform (by decide)
  apart := by
    rw [List.pairwise_append]
    refine ⟨h.apart, List.pairwise_singleton _ _, fun a _ b hb _ hdify => ?_⟩
    rw [List.mem_singleton.mp hb, hprovider] at hdify
    exact absurd hdify (by decide)

private theorem ne_dify (h : document.provider = some "external") :
    document.provider ≠ some "dify" := by
  rw [h]
  decide

private theorem sends_external (h : document.provider = some "external") :
    sends files document = some document :=
  if_neg fun hnot => ne_dify h hnot.1

private theorem fileContent_sends {content : Option FileContent}
    (hprovider : document.provider = some "dify") (hdocId : document.metadata.docId = some docId)
    (h : fileContent files document docId = .ok content) :
    (content.map fun c => (c, document)).toList.map Prod.snd = (sends files document).toList := by
  rw [fileContent] at h
  rw [sends, hdocId, Option.bind_some]
  by_cases himage : document.metadata.docType = some "image"
  · rw [if_pos himage] at h
    cases hkey : files.key docId with
    | none =>
      rw [hkey] at h
      cases h
      rw [if_pos ⟨hprovider, himage, rfl⟩]
      rfl
    | some key =>
      rw [hkey] at h
      dsimp only at h
      split at h
      · cases h
      · cases h
        rw [if_neg (fun hnot => nomatch hnot.2.2)]
        rfl
  · rw [if_neg himage] at h
    cases h
    rw [if_neg (fun hnot => himage hnot.2.1)]
    rfl

theorem getElem?_of_droppedLast {unique : List (Document σ μ)}
    (h : DroppedLast (sends files) unique) {k : Nat} {document : Document σ μ}
    (hk : (unique.filterMap (sends files))[k]? = some document) : unique[k]? = some document := by
  obtain ⟨d, hd, hsends⟩ := Option.bind_eq_some_iff.mp (h.getElem? hk)
  rw [sends] at hsends
  split at hsends
  · cases hsends
  · rwa [← Option.some.inj hsends]

variable [DecidableEq σ] [DecidableEq μ]

private theorem textStep_tracks {s s' : Collected String σ μ} (hs : Tracks some s)
    (h : textStep s document = .ok s') : Tracks some s' := by
  rw [textStep] at h
  by_cases hdify : document.provider = some "dify"
  · rw [if_pos hdify] at h
    cases hdocId : document.metadata.docId with
    | none =>
      rw [hdocId] at h
      cases h
    | some docId =>
      rw [hdocId] at h
      dsimp only at h
      split at h
      · next hnew =>
        split at h
        · cases h
          exact hs.platform hdify hdocId hnew rfl
        · cases h
          exact hs
      · cases h
        exact hs
  · rw [if_neg hdify] at h
    split at h
    · next hexternal =>
      split at h
      · cases h
        exact hs.external hexternal rfl _
      · cases h
        exact hs
    · cases h
      exact hs

private theorem multimodalStep_tracks {s s' : Collected FileContent σ μ}
    (hs : Tracks (sends files) s) (h : multimodalStep files s document = .ok s') :
    Tracks (sends files) s' ∧ s'.unique = uniqueStep s.unique document := by
  rw [multimodalStep] at h
  rw [uniqueStep]
  by_cases hdify : document.provider = some "dify"
  · rw [if_pos hdify] at h ⊢
    cases hdocId : document.metadata.docId with
    | none =>
      rw [hdocId] at h
      cases h
    | some docId =>
      rw [hdocId] at h
      dsimp only at h
      have hseen : (s.unique.any fun d =>
          decide (d.provider = some "dify") && decide (d.metadata.docId = some docId)) = true ↔
          docId ∈ s.docIds := by
        rw [hs.docIds, List.any_eq_true]
        simp only [Bool.and_eq_true, decide_eq_true_eq]
      split at h
      · next hnew =>
        cases hcontent : fileContent files document docId with
        | error e =>
          rw [hcontent] at h
          cases h
        | ok content =>
          rw [hcontent] at h
          cases h
          rw [if_neg (mt hseen.mp hnew)]
          exact ⟨hs.platform hdify hdocId hnew (fileContent_sends hdify hdocId hcontent), rfl⟩
      · next hold =>
        cases h
        rw [if_pos (hseen.mpr (not_not.mp hold))]
        exact ⟨hs, rfl⟩
  · rw [if_neg hdify] at h ⊢
    by_cases hexternal : document.provider = some "external"
    · rw [if_pos hexternal] at h
      by_cases hnew : document ∉ s.unique
      · rw [if_pos hnew] at h
        cases h
        rw [if_pos ⟨hexternal, hnew⟩]
        exact ⟨hs.external hexternal (sends_external hexternal) _, rfl⟩
      · rw [if_neg hnew] at h
        cases h
        rw [if_neg (fun hboth => hnew hboth.2)]
        exact ⟨hs, rfl⟩
    · rw [if_neg hexternal] at h
      cases h
      rw [if_neg (fun hboth => hexternal hboth.1)]
      exact ⟨hs, rfl⟩

variable {documents : List (Document σ μ)}

private theorem text_tracks {s s' : Collected String σ μ}
    (hs : Tracks some s) (h : documents.foldlM textStep s = .ok s') : Tracks some s' := by
  induction documents generalizing s with
  | nil =>
    cases h
    exact hs
  | cons document documents ih =>
    rw [List.foldlM_cons] at h
    obtain ⟨next, hstep, hrest⟩ := Result.bind_eq_ok.mp h
    exact ih (textStep_tracks hs hstep) hrest

private theorem multimodal_tracks {s s' : Collected FileContent σ μ} (hs : Tracks (sends files) s)
    (h : documents.foldlM (multimodalStep files) s = .ok s') :
    Tracks (sends files) s' ∧ s'.unique = documents.foldl uniqueStep s.unique := by
  induction documents generalizing s with
  | nil =>
    cases h
    exact ⟨hs, rfl⟩
  | cons document documents ih =>
    rw [List.foldlM_cons] at h
    obtain ⟨next, hstep, hrest⟩ := Result.bind_eq_ok.mp h
    obtain ⟨hnext, hunique⟩ := multimodalStep_tracks hs hstep
    obtain ⟨hlast, he⟩ := ih hnext hrest
    exact ⟨hlast, by rw [he, hunique, List.foldl_cons]⟩

end Collected

/-! ## What is returned -/

section Returned

variable [LinearOrder σ] [Zero σ] [DecidableEq μ] [Inhabited μ] {unique sent : List (Document σ μ)}
  {scoreThreshold : Option σ} {topN : Option Int} {result : List (RerankDocument σ)}
  {output : List (Document σ μ)}

omit [Zero σ] [DecidableEq μ] in
theorem rerankDocuments_eq (h : rerankDocuments unique scoreThreshold result = .ok output) :
    output = (result.filter (passes scoreThreshold)).filterMap
      fun r => unique[r.index]?.map (reranked r) := by
  induction result generalizing output with
  | nil =>
    cases h
    rfl
  | cons r rest ih =>
    rw [rerankDocuments] at h
    split at h
    · next hpass =>
      rw [List.filter_cons_of_pos hpass]
      cases hdocument : unique[r.index]? with
      | none =>
        rw [hdocument] at h
        cases h
      | some document =>
        rw [hdocument] at h
        cases hlater : rerankDocuments unique scoreThreshold rest with
        | error e =>
          rw [hlater] at h
          cases h
        | ok later =>
          rw [hlater] at h
          cases h
          rw [List.filterMap_cons_some (b := reranked r document) (by rw [hdocument]; rfl),
            ih hlater]
    · next hfail =>
      rw [List.filter_cons_of_neg hfail]
      exact ih h

omit [Zero σ] [DecidableEq μ] in
private theorem rerankDocuments_ok (h : ∀ r ∈ result, r.index < unique.length) :
    ∃ output, rerankDocuments unique scoreThreshold result = .ok output := by
  induction result with
  | nil => exact ⟨[], rfl⟩
  | cons r rest ih =>
    obtain ⟨later, hlater⟩ := ih fun r' hr' => h r' (List.mem_cons_of_mem _ hr')
    rw [rerankDocuments]
    split
    · rw [List.getElem?_eq_getElem (h r List.mem_cons_self), hlater]
      exact ⟨_, rfl⟩
    · exact ⟨later, hlater⟩

omit [LinearOrder σ] [Zero σ] [DecidableEq μ] [Inhabited μ] in
private theorem cutAt_sublist (topN : Option Int) (documents : List (Document σ μ)) :
    (cutAt topN documents).Sublist documents := by
  cases topN with
  | none => exact List.Sublist.refl _
  | some n =>
    rw [cutAt]
    split
    · exact List.Sublist.refl _
    · exact (List.drop_sublist _ _).trans (List.take_sublist _ _)

omit [LinearOrder σ] [Zero σ] [DecidableEq μ] [Inhabited μ] in
theorem length_cutAt {n : Int} (hpos : 0 < n) (documents : List (Document σ μ)) :
    ((cutAt (some n) documents).length : Int) ≤ n := by
  rw [cutAt, if_neg (by omega), length_slice, sliceIndex_of_nonneg (Int.le_of_lt hpos)]
  omega

omit [DecidableEq μ] in
theorem attributes_of_places (hapart : unique.Pairwise OtherDocId)
    (hplace : ∀ (k : Nat) (document : Document σ μ), sent[k]? = some document →
      unique[k]? = some document)
    (hrange : ∀ r ∈ result, r.index < sent.length)
    (h : rerankDocuments unique scoreThreshold result = .ok output) :
    Attributes sent result topN
      (cutAt topN (output.insertionSort fun a b => b.value ≤ a.value)) := by
  have hmade := rerankDocuments_eq h
  have hsorted := List.perm_insertionSort (fun a b : Document σ μ => b.value ≤ a.value) output
  have hcut := cutAt_sublist topN (output.insertionSort fun a b => b.value ≤ a.value)
  refine ⟨fun document hdocument => ?_, fun hnodup => ?_, ?_, fun n hn hpos => ?_⟩
  · have hmem := hsorted.mem_iff.mp (hcut.subset hdocument)
    rw [hmade] at hmem
    obtain ⟨r, hr, hfrom⟩ := List.mem_filterMap.mp hmem
    obtain ⟨source, hsource, rfl⟩ := Option.map_eq_some_iff.mp hfrom
    have hresult := (List.mem_filter.mp hr).1
    have hsent := List.getElem?_eq_getElem (hrange r hresult)
    rw [hplace _ _ hsent] at hsource
    exact ⟨r, hresult, source, hsent.trans hsource, rfl, rfl, rfl⟩
  · apply List.Pairwise.sublist hcut
    apply (hsorted.pairwise_iff fun hab ha hb he => hab hb ha he.symm).mpr
    rw [hmade, List.pairwise_filterMap]
    rw [List.Nodup, List.pairwise_map] at hnodup
    apply (hnodup.filter _).imp
    intro r r' hne b hb b' hb'
    obtain ⟨d, hd, rfl⟩ := Option.map_eq_some_iff.mp hb
    obtain ⟨d', hd', rfl⟩ := Option.map_eq_some_iff.mp hb'
    obtain ⟨hlt, rfl⟩ := List.getElem?_eq_some_iff.mp hd
    obtain ⟨hlt', rfl⟩ := List.getElem?_eq_some_iff.mp hd'
    cases Nat.lt_or_gt_of_ne hne with
    | inl hbefore => exact List.pairwise_iff_getElem.mp hapart _ _ hlt hlt' hbefore
    | inr hafter =>
      intro ha hb he
      exact List.pairwise_iff_getElem.mp hapart _ _ hlt' hlt hafter hb ha he.symm
  · have : Std.Total fun a b : Document σ μ => b.value ≤ a.value := ⟨fun a b => le_total _ _⟩
    have : IsTrans (Document σ μ) fun a b => b.value ≤ a.value :=
      ⟨fun _ _ _ hab hbc => hbc.trans hab⟩
    exact (List.pairwise_insertionSort _ output).sublist hcut
  · subst hn
    exact length_cutAt hpos _

end Returned

/-! ## The two paths -/

section Paths

variable [LinearOrder σ] [Zero σ] [DecidableEq μ] [Inhabited μ] {files : UploadFiles}
  {isSupportVision : Bool} {model : RerankModel σ} {query : String}
  {documents : List (Document σ μ)} {scoreThreshold : Option σ} {topN : Option Int}
  {queryType : QueryType} {fetched : Fetched σ μ}

omit [Zero σ] [Inhabited μ] in
private theorem fetchTextRerank_ok
    (h : fetchTextRerank model query documents scoreThreshold topN = .ok fetched) :
    fetched.sent = fetched.unique ∧ fetched.unique.Pairwise OtherDocId ∧
      ∀ r ∈ fetched.result, r.index < fetched.sent.length := by
  obtain ⟨s, hcollect, h⟩ := Result.bind_eq_ok.mp h
  obtain ⟨result, hinvoke, h⟩ := Result.bind_eq_ok.mp h
  cases h
  have htracks := text_tracks Tracks.start hcollect
  refine ⟨?_, htracks.apart, fun r hr => ?_⟩
  · rw [htracks.docs, List.filterMap_some]
  · have hlt := model.index_lt _ _ hinvoke r hr
    rwa [RerankCall.size, List.length_map, ← List.length_map (f := Prod.snd)] at hlt

omit [Zero σ] [Inhabited μ] in
private theorem fetchMultimodalRerank_ok (hlast : queryType = .imageQuery →
      Answered files query documents → DroppedLast (sends files) (uniqueDocuments documents))
    (h : fetchMultimodalRerank files model query documents scoreThreshold topN queryType =
      .ok fetched) :
    (∀ (k : Nat) (document : Document σ μ), fetched.sent[k]? = some document →
        fetched.unique[k]? = some document) ∧
      fetched.unique.Pairwise OtherDocId ∧
      ∀ r ∈ fetched.result, r.index < fetched.sent.length := by
  obtain ⟨s, hcollect, h⟩ := Result.bind_eq_ok.mp h
  cases queryType with
  | textQuery =>
    obtain ⟨hsent, hrest⟩ := fetchTextRerank_ok h
    exact ⟨fun k document hk => hsent ▸ hk, hrest⟩
  | imageQuery =>
    obtain ⟨q, hquery, h⟩ := Result.bind_eq_ok.mp h
    obtain ⟨result, hinvoke, h⟩ := Result.bind_eq_ok.mp h
    cases h
    obtain ⟨htracks, hunique⟩ := multimodal_tracks Tracks.start hcollect
    have hordered := hlast rfl ⟨⟨s, hcollect⟩, q, hquery⟩
    rw [uniqueDocuments, ← hunique] at hordered
    refine ⟨fun k document hk => ?_, htracks.apart, fun r hr => ?_⟩
    · rw [htracks.docs] at hk
      exact getElem?_of_droppedLast hordered hk
    · have hlt := model.index_lt _ _ hinvoke r hr
      rwa [RerankCall.size, List.length_map, ← List.length_map (f := Prod.snd)] at hlt

/-- A model that returns the same entry of a result a number of times. -/
private def repeating (r : RerankDocument σ) (n : Nat) : RerankModel σ where
  invoke call := if r.index < call.size then .ok (List.replicate n r) else .ok []
  index_lt call result h r' hr' := by
    split at h
    · next hlt =>
      cases h
      rwa [(List.mem_replicate.mp hr').2]
    · cases h
      cases hr'

omit [LinearOrder σ] [Zero σ] [DecidableEq μ] [Inhabited μ] in
theorem cutAt_ne_nil {n : Nat} (h : ∀ limit, topN = some limit → limit.natAbs < n)
    (hlength : documents.length = n) (hpos : 0 < n) : cutAt topN documents ≠ [] := by
  intro hnil
  have hzero := congrArg List.length hnil
  cases topN with
  | none =>
    rw [cutAt, hlength] at hzero
    exact absurd hzero (Nat.ne_of_gt hpos)
  | some limit =>
    have hlt := h limit rfl
    rw [cutAt] at hzero
    split at hzero
    · rw [hlength] at hzero
      exact absurd hzero (Nat.ne_of_gt hpos)
    · rw [length_slice, sliceIndex_of_nonneg (Int.le_refl 0), sliceIndex, hlength] at hzero
      split at hzero
      · rw [List.length_nil] at hzero
        omega
      · rw [List.length_nil] at hzero
        omega

variable {document : Document σ μ}

omit [Zero σ] [DecidableEq μ] in
private theorem rerankDocuments_replicate {r : RerankDocument σ} {n : Nat}
    {unique output : List (Document σ μ)} (hpass : passes scoreThreshold r = true)
    (hdocument : unique[r.index]? = some document)
    (h : rerankDocuments unique scoreThreshold (List.replicate n r) = .ok output) :
    output = List.replicate n (reranked r document) := by
  rw [rerankDocuments_eq h, List.filter_replicate_of_pos hpass,
    List.filterMap_replicate_of_some (b := reranked r document) (by rw [hdocument]; rfl)]

omit [LinearOrder σ] [Zero σ] [DecidableEq μ] [Inhabited μ] in
theorem otherDocId_of_sends {unique : List (Document σ μ)} {dropped kept : Document σ μ}
    (hapart : unique.Pairwise OtherDocId) (hmem : dropped ∈ unique)
    (hdropped : sends files dropped = none) (hkept : kept ∈ unique.filterMap (sends files)) :
    dropped.provider = some "dify" ∧ OtherDocId dropped kept := by
  obtain ⟨d, hd, hsends⟩ := List.mem_filterMap.mp hkept
  have hsame : d = kept := by
    rw [sends] at hsends
    split at hsends
    · cases hsends
    · exact Option.some.inj hsends
  subst hsame
  constructor
  · rw [sends] at hdropped
    split at hdropped
    · next himage => exact himage.1
    · cases hdropped
  · have : Std.Symm (OtherDocId : Document σ μ → Document σ μ → Prop) :=
      ⟨fun a b hab ha hb he => hab hb ha he.symm⟩
    apply hapart.forall hmem hd
    rintro rfl
    rw [hdropped] at hsends
    cases hsends

private theorem run_repeating {s : Collected FileContent σ μ} {q : FileContent}
    {k : Nat} (hcollect : documents.foldlM (multimodalStep files) {} = .ok s)
    (hquery : queryFile files query = .ok q) (hk : k < s.docs.length)
    (hplace : s.unique[k]? = some document) :
    ∃ (model : RerankModel σ) (result : List (RerankDocument σ)) (output : List (Document σ μ)),
      fetch files true model query documents scoreThreshold topN .imageQuery =
        .ok (some ⟨result, s.unique, s.docs.map Prod.snd⟩) ∧
      rerankRun files true model query documents scoreThreshold topN .imageQuery = .ok output ∧
      (∀ r ∈ result, r.index = k) ∧ output ≠ [] ∧
      ∀ d ∈ output, ∃ r ∈ result, d = reranked r document := by
  obtain ⟨n, hn⟩ : ∃ n, n = (topN.map Int.natAbs).getD 0 + 1 := ⟨_, rfl⟩
  obtain ⟨r, hr⟩ : ∃ r : RerankDocument σ, r = ⟨k, "", scoreThreshold.getD 0⟩ := ⟨_, rfl⟩
  have hindex : r.index = k := by rw [hr]
  have hpass : passes scoreThreshold r = true := by
    rw [passes, hr]
    cases scoreThreshold with
    | none => rfl
    | some threshold => exact decide_eq_true (le_refl _)
  have hsize : r.index < (RerankCall.invokeMultimodalRerank q (s.docs.map Prod.fst)
      scoreThreshold topN).size := by
    rw [RerankCall.size, List.length_map, hindex]
    exact hk
  have hinvoke : (repeating r n).invoke (.invokeMultimodalRerank q (s.docs.map Prod.fst)
      scoreThreshold topN) = .ok (List.replicate n r) := if_pos hsize
  have hfetch : fetch files true (repeating r n) query documents scoreThreshold topN
      .imageQuery = .ok (some ⟨List.replicate n r, s.unique, s.docs.map Prod.snd⟩) := by
    rw [fetch, if_pos rfl, fetchMultimodalRerank, hcollect]
    show some <$> (queryFile files query >>= _) = _
    rw [hquery]
    show some <$> ((repeating r n).invoke _ >>= _) = _
    rw [hinvoke]
    rfl
  obtain ⟨made, houtput⟩ : ∃ made,
      rerankDocuments s.unique scoreThreshold (List.replicate n r) = .ok made := by
    apply rerankDocuments_ok
    intro r' hr'
    rw [(List.mem_replicate.mp hr').2, hindex]
    exact (List.getElem?_eq_some_iff.mp hplace).1
  have hmade := rerankDocuments_replicate hpass (hindex.symm ▸ hplace) houtput
  have hsorted := List.perm_insertionSort (fun a b : Document σ μ => b.value ≤ a.value) made
  refine ⟨repeating r n, List.replicate n r,
    cutAt topN (made.insertionSort fun a b => b.value ≤ a.value), hfetch, ?_, ?_, ?_, ?_⟩
  · rw [rerankRun, hfetch]
    show (rerankDocuments s.unique scoreThreshold (List.replicate n r) >>= _) = _
    rw [houtput]
    rfl
  · intro r' hr'
    rw [(List.mem_replicate.mp hr').2, hindex]
  · apply cutAt_ne_nil (n := n)
    · intro limit hlimit
      rw [hn, hlimit]
      exact Nat.lt_succ_self _
    · rw [hsorted.length_eq, hmade, List.length_replicate]
    · omega
  · intro d hd
    have hmem := hsorted.mem_iff.mp ((cutAt_sublist _ _).subset hd)
    rw [hmade] at hmem
    have hnonzero : n ≠ 0 := by omega
    exact ⟨r, List.mem_replicate.mpr ⟨hnonzero, rfl⟩, (List.mem_replicate.mp hmem).2⟩

variable (files isSupportVision query documents scoreThreshold topN queryType)

theorem droppedLast_of_attributes
    (h : ∀ (model : RerankModel σ) (fetched : Fetched σ μ) (output : List (Document σ μ)),
      fetch files true model query documents scoreThreshold topN .imageQuery =
          .ok (some fetched) →
        rerankRun files true model query documents scoreThreshold topN .imageQuery =
          .ok output →
        Attributes fetched.sent fetched.result topN output)
    (hanswered : Answered files query documents) :
    DroppedLast (sends files) (uniqueDocuments documents) := by
  obtain ⟨⟨s, hcollect⟩, q, hquery⟩ := hanswered
  cases droppedLast_or_exists (sends files) (uniqueDocuments documents) with
  | inl hlast => exact hlast
  | inr hfound =>
    exfalso
    obtain ⟨k, dropped, kept, hk, hplace, hdropped⟩ := hfound
    obtain ⟨htracks, hunique⟩ := multimodal_tracks Tracks.start hcollect
    replace hunique : s.unique = uniqueDocuments documents := hunique
    rw [← hunique] at hk hplace
    have hlength : k < s.docs.length := by
      rw [← List.length_map (f := Prod.snd), htracks.docs]
      exact (List.getElem?_eq_some_iff.mp hk).1
    obtain ⟨model, result, output, hfetch, hrun, hindex, hleft, hmade⟩ :=
      @run_repeating _ _ _ _ _ _ files query documents scoreThreshold topN _ _ _ _ hcollect hquery
        hlength hplace
    have hattributes := h _ _ _ hfetch hrun
    obtain ⟨document, hdocument⟩ := List.exists_mem_of_ne_nil _ hleft
    obtain ⟨r', hr', source, hsource, hmetadata, hprovider, -⟩ :=
      hattributes.attributed document hdocument
    obtain ⟨r, -, rfl⟩ := hmade document hdocument
    rw [hindex r' hr', htracks.docs, hk] at hsource
    cases hsource
    obtain ⟨hdify, hother⟩ := otherDocId_of_sends htracks.apart (List.mem_of_getElem? hplace)
      hdropped (List.mem_of_getElem? hk)
    have hsame : (reranked r dropped).metadata.docId = kept.metadata.docId := by rw [hmetadata]
    exact hother hdify (hprovider.symm.trans hdify) hsame

omit [Zero σ] [Inhabited μ] in
private theorem sent_places {model : RerankModel σ} {fetched : Fetched σ μ}
    (hlast : isSupportVision = true → queryType = .imageQuery → Answered files query documents →
      DroppedLast (sends files) (uniqueDocuments documents))
    (hfetch : fetch files isSupportVision model query documents scoreThreshold topN queryType =
      .ok (some fetched)) :
    (∀ (k : Nat) (document : Document σ μ), fetched.sent[k]? = some document →
        fetched.unique[k]? = some document) ∧ fetched.unique.Pairwise OtherDocId ∧
      ∀ r ∈ fetched.result, r.index < fetched.sent.length := by
  unfold fetch at hfetch
  split at hfetch
  · next hvision =>
    obtain ⟨f, hf, he⟩ := Result.map_eq_ok.mp hfetch
    cases he
    exact fetchMultimodalRerank_ok (hlast hvision) hf
  · split at hfetch
    · obtain ⟨f, hf, he⟩ := Result.map_eq_ok.mp hfetch
      cases he
      obtain ⟨hsent, hrest⟩ := fetchTextRerank_ok hf
      exact ⟨fun k document hk => hsent ▸ hk, hrest⟩
    · cases hfetch

/-- Whatever the model returns, the output is attributed to the documents sent if and only if no
image without an upload file comes before a document that is sent with an image for the query. -/
theorem attributes_iff :
    (∀ (model : RerankModel σ) (fetched : Fetched σ μ) (output : List (Document σ μ)),
      fetch files isSupportVision model query documents scoreThreshold topN queryType =
          .ok (some fetched) →
        rerankRun files isSupportVision model query documents scoreThreshold topN queryType =
          .ok output →
        Attributes fetched.sent fetched.result topN output) ↔
      (isSupportVision = true → queryType = .imageQuery → Answered files query documents →
        DroppedLast (sends files) (uniqueDocuments documents)) := by
  constructor
  · rintro h rfl rfl hanswered
    exact droppedLast_of_attributes files query documents scoreThreshold topN h hanswered
  · intro hlast model fetched output hfetch hrun
    obtain ⟨hplaces, hapart, hindices⟩ :=
      sent_places files isSupportVision query documents scoreThreshold topN queryType hlast hfetch
    obtain ⟨f, hf, hrun⟩ := Result.bind_eq_ok.mp hrun
    rw [hfetch] at hf
    cases hf
    obtain ⟨documents', hdocuments, hout⟩ := Result.bind_eq_ok.mp hrun
    cases hout
    exact attributes_of_places hapart hplaces hindices hdocuments

end Paths

/-- An image whose upload file is gone, and a text. -/
private def lostImage : Document Int Unit :=
  ⟨"", ⟨some "a", some "image", none, ()⟩, some "dify", ()⟩

private def textDocument : Document Int Unit := ⟨"b", ⟨some "b", none, none, ()⟩, some "dify", ()⟩

/-- Only the text is sent, and its score goes to the image. -/
theorem score_of_lost_image :
    let files : UploadFiles := ⟨fun id => if id = "q" then some "k" else none, fun _ => some "data"⟩
    let model := repeating ⟨0, "b", (1 : Int)⟩ 1
    ∃ fetched output,
      fetch files true model "q" [lostImage, textDocument] none none .imageQuery =
        .ok (some fetched) ∧
      rerankRun files true model "q" [lostImage, textDocument] none none .imageQuery = .ok output ∧
      output.map (fun document => document.metadata.docId) = [some "a"] ∧
      ¬ Attributes fetched.sent fetched.result none output := by
  intro files model
  refine ⟨⟨[⟨0, "b", 1⟩], [lostImage, textDocument], [textDocument]⟩,
    [⟨"b", ⟨some "a", some "image", some 1, ()⟩, some "dify", ()⟩], rfl, rfl, rfl, fun h => ?_⟩
  obtain ⟨r, hr, source, hsource, hmetadata, -⟩ := h.attributed _ List.mem_cons_self
  rw [List.mem_singleton.mp hr] at hsource
  cases hsource
  have hid : some "a" = some "b" := congrArg Metadata.docId hmetadata
  exact absurd hid (by decide)

end PlatformSpec.Rag
