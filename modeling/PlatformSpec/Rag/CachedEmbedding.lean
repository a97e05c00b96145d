import Mathlib.Data.List.FinRange
import PlatformSpec.Base.Collect

/-!
# Embeddings with a cache

Models `CacheEmbedding.embed_documents` and `embed_multimodal_documents` of
`core/rag/embedding/cached_embedding.py`: inputs without a row in the cache are queued, the model is
called for batches of them, and what is left of its vectors is handed to the queued places in order.
-/

namespace PlatformSpec.Rag

open Base

variable {τ ν ε : Type}

/-- A row of `embeddings`. -/
structure EmbeddingRow (ε : Type) where
  modelName : String
  hash : String
  providerName : String
  embedding : ε
  deriving DecidableEq

/-- `set_embedding`. -/
def EmbeddingRow.setEmbedding (row : EmbeddingRow ε) (embedding : ε) : EmbeddingRow ε :=
  { row with embedding := embedding }

/-- A model instance: it returns a vector for each input of a call, in their order, or fails. -/
structure EmbeddingModel (τ ν : Type) where
  modelName : String
  provider : String
  /-- `MAX_CHUNKS` among the properties of the schema. -/
  maxChunks : Option Int
  invoke : Nat → List τ → Option (List ν)
  length_invoke : ∀ call batch vectors, invoke call batch = some vectors →
    vectors.length = batch.length

/-- `(vector / np.linalg.norm(vector)).tolist()`, which may fail, and `np.isnan(..).any()`. -/
structure Normalization (ν ε : Type) where
  normalize : ν → Option ε
  hasNan : ε → Bool

/-- How `db.session.commit()` ends. -/
inductive CommitOutcome where
  | committed | integrityError | failed
  deriving DecidableEq

/-- What a call returns and the rows it leaves in the cache. -/
structure EmbedOutcome (ε : Type) where
  embeddings : List (Option ε)
  written : List (EmbeddingRow ε)
  deriving DecidableEq

/-- The body of the loop over the vectors: an embedding that is not kept is passed over. -/
def Normalization.kept (norm : Normalization ν ε) (vector : ν) : Option ε :=
  match norm.normalize vector with
  | none => none
  | some embedding => if norm.hasNan embedding then none else some embedding

namespace EmbeddingModel

variable (model : EmbeddingModel τ ν) (norm : Normalization ν ε)

/-- The row of the cache for an input. -/
def cachedRow (cache : List (EmbeddingRow ε)) (hash : String) : Option (EmbeddingRow ε) :=
  cache.find? fun row =>
    row.modelName = model.modelName && row.hash = hash && row.providerName = model.provider

/-- `embedding_queue_indices`: the places of the inputs that have no row in the cache. -/
def queueIndices (key : τ → String) (cache : List (EmbeddingRow ε)) (inputs : List τ) :
    List (Fin inputs.length) :=
  (List.finRange inputs.length).filter fun i => (model.cachedRow cache (key (inputs.get i))).isNone

/-- The embeddings found in the cache. -/
def cachedEmbeddings (key : τ → String) (cache : List (EmbeddingRow ε)) (inputs : List τ) :
    List (Option ε) :=
  inputs.map fun input => (model.cachedRow cache (key input)).map EmbeddingRow.embedding

/-- `queue[i : i + max_chunks]` for `i` in `range(0, len(queue), max_chunks)`. -/
def batches (chunks : Int) (queue : List τ) : List (List τ) :=
  if 0 < chunks then
    (List.range ((queue.length + chunks.toNat - 1) / chunks.toNat)).map fun i =>
      (queue.drop (i * chunks.toNat)).take chunks.toNat
  else []

/-- The loop over the batches. -/
def embedBatches : Nat → List (List τ) → List ε → Option (List ε)
  | _, [], embeddings => some embeddings
  | call, batch :: rest, embeddings =>
    match model.invoke call batch with
    | none => none
    | some vectors =>
      embedBatches (call + 1) rest <| vectors.foldl (fun embeddings vector =>
        match norm.kept vector with
        | none => embeddings
        | some embedding => embeddings ++ [embedding]) embeddings

/-- The loop over `zip(embedding_queue_indices, embedding_queue_embeddings)`, with the hashes in
`cache_embeddings`. -/
def assign (key : τ → String) (newRow : String → ε → EmbeddingRow ε) (inputs : List τ) :
    List (Fin inputs.length × ε) → EmbedOutcome ε → List String → EmbedOutcome ε
  | [], outcome, _ => outcome
  | (i, embedding) :: rest, outcome, cacheEmbeddings =>
    let embeddings := outcome.embeddings.set i (some embedding)
    let hash := key (inputs.get i)
    if hash ∉ cacheEmbeddings then
      assign key newRow inputs rest
        ⟨embeddings, outcome.written ++ [newRow hash embedding]⟩ (cacheEmbeddings ++ [hash])
    else assign key newRow inputs rest { outcome with embeddings := embeddings } cacheEmbeddings

/-- The body that `embed_documents` and `embed_multimodal_documents` share; `none` where it
raises. -/
def embed (key : τ → String) (newRow : String → ε → EmbeddingRow ε) (cache : List (EmbeddingRow ε))
    (commit : CommitOutcome) (inputs : List τ) : Option (EmbedOutcome ε) :=
  let embeddings := model.cachedEmbeddings key cache inputs
  let queue := model.queueIndices key cache inputs
  if queue = [] then some ⟨embeddings, []⟩
  else
    let chunks := model.maxChunks.getD 1
    -- a step of zero is refused by `range`
    if chunks = 0 then none
    else
      match model.embedBatches norm 0 (batches chunks (queue.map inputs.get)) [] with
      | none => none
      | some queueEmbeddings =>
        let outcome := assign key newRow inputs (queue.zip queueEmbeddings) ⟨embeddings, []⟩ []
        match commit with
        | .committed => some outcome
        | .integrityError => some { outcome with written := [] }
        | .failed => none

/-- The vectors that the calls for the queue return, in their order. -/
def replies : Nat → List (List τ) → Option (List ν)
  | _, [] => some []
  | call, batch :: rest =>
    match model.invoke call batch, replies (call + 1) rest with
    | some vectors, some later => some (vectors ++ later)
    | _, _ => none

/-- The vectors of the queue; none where a call fails. -/
def vectors (key : τ → String) (cache : List (EmbeddingRow ε)) (inputs : List τ) : List ν :=
  (model.replies 0 (batches (model.maxChunks.getD 1)
    ((model.queueIndices key cache inputs).map inputs.get))).getD []

/-- The embedding of an input: the one in the cache, or the one of its vector. -/
def own (key : τ → String) (cache : List (EmbeddingRow ε)) (inputs : List τ)
    (i : Fin inputs.length) : Option ε :=
  match model.cachedRow cache (key (inputs.get i)) with
  | some row => some row.embedding
  | none =>
    (model.vectors key cache inputs)[(model.queueIndices key cache inputs).idxOf i]?.bind norm.kept

/-- Every place holds the embedding of its input or none, and every row the embedding of an input
under its hash. -/
structure Aligned (key : τ → String) (cache : List (EmbeddingRow ε)) (inputs : List τ)
    (outcome : EmbedOutcome ε) : Prop where
  length : outcome.embeddings.length = inputs.length
  embeddings : ∀ i : Fin inputs.length, ∀ embedding,
    outcome.embeddings[i]? = some (some embedding) →
    model.own norm key cache inputs i = some embedding
  written : ∀ row ∈ outcome.written, ∃ i : Fin inputs.length, ∃ embedding,
    row = ⟨model.modelName, key (inputs.get i), model.provider, embedding⟩ ∧
      model.own norm key cache inputs i = some embedding

variable {model norm} {key : τ → String} {newRow : String → ε → EmbeddingRow ε}
  {cache : List (EmbeddingRow ε)} {inputs : List τ}

/-! ## The batches -/

theorem embedBatches_eq (call : Nat) (batches : List (List τ)) (embeddings : List ε) :
    model.embedBatches norm call batches embeddings =
      (model.replies call batches).map
        fun vectors => embeddings ++ vectors.filterMap norm.kept := by
  induction batches generalizing call embeddings with
  | nil =>
    rw [embedBatches, replies, Option.map_some, List.filterMap_nil, List.append_nil]
  | cons batch rest ih =>
    rw [embedBatches, replies]
    cases model.invoke call batch with
    | none => rfl
    | some vectors =>
      have hfold : vectors.foldl (fun embeddings vector =>
          match norm.kept vector with
          | none => embeddings
          | some embedding => embeddings ++ [embedding]) embeddings =
          embeddings ++ vectors.filterMap norm.kept := by
        induction vectors generalizing embeddings with
        | nil => exact (List.append_nil _).symm
        | cons vector vectors ihv =>
          rw [List.foldl_cons, List.filterMap_cons, ihv]
          cases norm.kept vector with
          | none => rfl
          | some embedding => exact List.append_assoc _ _ _
      dsimp only
      rw [hfold, ih]
      cases model.replies (call + 1) rest with
      | none => rfl
      | some later =>
        rw [Option.map_some, Option.map_some, List.filterMap_append, List.append_assoc]

variable {vectors : List ν}

theorem length_replies {call : Nat} {batches : List (List τ)}
    (h : model.replies call batches = some vectors) : vectors.length = batches.flatten.length := by
  induction batches generalizing call vectors with
  | nil =>
    cases h
    rfl
  | cons batch rest ih =>
    rw [replies] at h
    cases hinvoke : model.invoke call batch with
    | none =>
      rw [hinvoke] at h
      cases h
    | some first =>
      cases hlater : model.replies (call + 1) rest with
      | none =>
        rw [hinvoke, hlater] at h
        cases h
      | some later =>
        rw [hinvoke, hlater] at h
        cases h
        rw [List.length_append, List.flatten_cons, List.length_append,
          model.length_invoke _ _ _ hinvoke, ih hlater]

private theorem flatten_chunks (l : List τ) (m n : Nat) :
    ((List.range n).map fun i => (l.drop (i * m)).take m).flatten = l.take (n * m) := by
  induction n with
  | zero =>
    rw [Nat.zero_mul, List.take_zero]
    rfl
  | succ n ih =>
    rw [List.range_succ, List.map_append, List.flatten_append, ih, Nat.succ_mul, List.take_add]
    simp only [List.map_cons, List.map_nil, List.flatten_singleton]

theorem length_vectors_le :
    (model.vectors key cache inputs).length ≤ (model.queueIndices key cache inputs).length := by
  rw [vectors]
  cases hreplies : model.replies 0 (batches (model.maxChunks.getD 1)
      ((model.queueIndices key cache inputs).map inputs.get)) with
  | none => exact Nat.zero_le _
  | some vectors =>
    rw [Option.getD_some, length_replies hreplies, batches]
    split
    · rw [flatten_chunks, List.length_take, List.length_map]
      exact Nat.min_le_right _ _
    · exact Nat.zero_le _

/-! ## The places -/

variable {pairs : List (Fin inputs.length × ε)} {outcome : EmbedOutcome ε} {hashes : List String}
  {i : Fin inputs.length} {embedding : ε}

theorem length_assign : (assign key newRow inputs pairs outcome hashes).embeddings.length =
    outcome.embeddings.length := by
  induction pairs generalizing outcome hashes with
  | nil => rfl
  | cons pair pairs ih =>
    rw [assign]
    split
    · rw [ih, List.length_set]
    · rw [ih, List.length_set]

private theorem assign_embeddings
    (h : (assign key newRow inputs pairs outcome hashes).embeddings[i]? = some (some embedding)) :
    (i, embedding) ∈ pairs ∨ outcome.embeddings[i]? = some (some embedding) := by
  induction pairs generalizing outcome hashes with
  | nil => exact .inr h
  | cons pair pairs ih =>
    have hset (h : (outcome.embeddings.set pair.1 (some pair.2))[i]? = some (some embedding)) :
        (i, embedding) ∈ pair :: pairs ∨ outcome.embeddings[i]? = some (some embedding) := by
      by_cases hi : pair.1 = i
      · left
        rw [hi, Fin.getElem?_fin, List.getElem?_set_self'] at h
        cases hold : outcome.embeddings[i.val]? with
        | none =>
          rw [hold] at h
          cases h
        | some old =>
          rw [hold] at h
          cases h
          rw [← hi]
          exact List.mem_cons_self
      · right
        rwa [Fin.getElem?_fin, List.getElem?_set_ne (Fin.val_ne_of_ne hi)] at h
    rw [assign] at h
    split at h
    · exact (ih h).elim (fun hmem => .inl (List.mem_cons_of_mem _ hmem)) hset
    · exact (ih h).elim (fun hmem => .inl (List.mem_cons_of_mem _ hmem)) hset

theorem assign_of_notMem (h : i ∉ pairs.map Prod.fst) :
    (assign key newRow inputs pairs outcome hashes).embeddings[i]? = outcome.embeddings[i]? := by
  induction pairs generalizing outcome hashes with
  | nil => rfl
  | cons pair pairs ih =>
    rw [List.map_cons, List.mem_cons, not_or] at h
    have hset : (outcome.embeddings.set pair.1 (some pair.2))[i]? = outcome.embeddings[i]? := by
      rw [Fin.getElem?_fin, List.getElem?_set_ne (Fin.val_ne_of_ne (Ne.symm h.1))]
      rfl
    rw [assign]
    split
    · rw [ih h.2, hset]
    · rw [ih h.2, hset]

theorem assign_of_mem (hnodup : (pairs.map Prod.fst).Nodup)
    (hlength : outcome.embeddings.length = inputs.length) (h : (i, embedding) ∈ pairs) :
    (assign key newRow inputs pairs outcome hashes).embeddings[i]? = some (some embedding) := by
  induction pairs generalizing outcome hashes with
  | nil => cases h
  | cons pair pairs ih =>
    rw [List.map_cons, List.nodup_cons] at hnodup
    rw [assign]
    cases List.mem_cons.mp h with
    | inl he =>
      have hset : (outcome.embeddings.set i (some embedding))[i]? = some (some embedding) := by
        rw [Fin.getElem?_fin, List.getElem?_set_self (by rw [hlength]; exact i.isLt)]
      subst he
      split
      · rw [assign_of_notMem hnodup.1, hset]
      · rw [assign_of_notMem hnodup.1, hset]
    | inr hmem =>
      split
      · exact ih hnodup.2 (by rw [List.length_set, hlength]) hmem
      · exact ih hnodup.2 (by rw [List.length_set, hlength]) hmem

private theorem assign_written {row : EmbeddingRow ε}
    (h : row ∈ (assign key newRow inputs pairs outcome hashes).written) :
    row ∈ outcome.written ∨
      ∃ pair ∈ pairs, row = newRow (key (inputs.get pair.1)) pair.2 := by
  induction pairs generalizing outcome hashes with
  | nil => exact .inl h
  | cons pair pairs ih =>
    rw [assign] at h
    have hlater (hrow : ∃ later ∈ pairs, row = newRow (key (inputs.get later.1)) later.2) :
        ∃ later ∈ pair :: pairs, row = newRow (key (inputs.get later.1)) later.2 :=
      hrow.imp fun _ => .imp (List.mem_cons_of_mem _) id
    split at h
    · cases ih h with
      | inl hrow =>
        cases List.mem_append.mp hrow with
        | inl hbefore => exact .inl hbefore
        | inr hnew => exact .inr ⟨pair, List.mem_cons_self, List.mem_singleton.mp hnew⟩
      | inr hrow => exact .inr (hlater hrow)
    · exact (ih h).imp id hlater

/-! ## Alignment -/

private theorem queueIndices_nodup : (model.queueIndices key cache inputs).Nodup :=
  (List.nodup_finRange _).filter _

theorem own_of_queued {k : Nat} (hi : (model.queueIndices key cache inputs)[k]? = some i) :
    model.own norm key cache inputs i = (model.vectors key cache inputs)[k]?.bind norm.kept := by
  have hmem := List.mem_of_getElem? hi
  have hmissing := Option.isNone_iff_eq_none.mp (List.mem_filter.mp hmem).2
  obtain ⟨hk, he⟩ := List.getElem?_eq_some_iff.mp hi
  rw [own, hmissing, ← he, queueIndices_nodup.idxOf_getElem]

theorem embed_eq_of_replies (commit : CommitOutcome)
    (hqueue : model.queueIndices key cache inputs ≠ []) (hchunks : model.maxChunks.getD 1 ≠ 0)
    (hreplies : model.replies 0 (batches (model.maxChunks.getD 1)
      ((model.queueIndices key cache inputs).map inputs.get)) = some vectors) :
    model.embed norm key newRow cache commit inputs = match commit with
      | .committed => some (assign key newRow inputs
          ((model.queueIndices key cache inputs).zip (vectors.filterMap norm.kept))
          ⟨model.cachedEmbeddings key cache inputs, []⟩ [])
      | .integrityError => some { assign key newRow inputs
          ((model.queueIndices key cache inputs).zip (vectors.filterMap norm.kept))
          ⟨model.cachedEmbeddings key cache inputs, []⟩ [] with written := [] }
      | .failed => none := by
  rw [embed]
  dsimp only
  rw [if_neg hqueue, if_neg hchunks, embedBatches_eq, hreplies]
  rfl

theorem own_of_cached
    (h : (model.cachedEmbeddings key cache inputs)[i]? = some (some embedding)) :
    model.own norm key cache inputs i = some embedding := by
  rw [cachedEmbeddings, Fin.getElem?_fin, List.getElem?_map, List.getElem?_eq_getElem i.isLt,
    Option.map_some, Option.some_inj, Option.map_eq_some_iff] at h
  obtain ⟨row, hfound, rfl⟩ := h
  rw [own, List.get_eq_getElem, hfound]

private theorem aligned_cached :
    model.Aligned norm key cache inputs ⟨model.cachedEmbeddings key cache inputs, []⟩ where
  length := List.length_map _
  embeddings _ _ h := own_of_cached h
  written _ h := nomatch h

private theorem aligned_assign (hrow : ∀ hash embedding, newRow hash embedding =
      ⟨model.modelName, hash, model.provider, embedding⟩)
    (hvectors : model.vectors key cache inputs = vectors) (h : DroppedLast norm.kept vectors) :
    model.Aligned norm key cache inputs (assign key newRow inputs
      ((model.queueIndices key cache inputs).zip (vectors.filterMap norm.kept))
      ⟨model.cachedEmbeddings key cache inputs, []⟩ []) := by
  have hpairs (pair : Fin inputs.length × ε) (hpair : pair ∈
      (model.queueIndices key cache inputs).zip (vectors.filterMap norm.kept)) :
      model.own norm key cache inputs pair.1 = some pair.2 := by
    obtain ⟨k, hk⟩ := List.mem_iff_getElem?.mp hpair
    obtain ⟨hplace, hkept⟩ := List.getElem?_zip_eq_some.mp hk
    rw [own_of_queued hplace, hvectors]
    exact h.getElem? hkept
  refine ⟨?_, fun i embedding hi => ?_, fun row hmem => ?_⟩
  · rw [length_assign]
    exact List.length_map _
  · cases assign_embeddings hi with
    | inl hpair => exact hpairs _ hpair
    | inr hcached => exact own_of_cached hcached
  · cases assign_written hmem with
    | inl hbefore => cases hbefore
    | inr hnew =>
      obtain ⟨pair, hpair, rfl⟩ := hnew
      exact ⟨pair.1, pair.2, hrow _ _, hpairs pair hpair⟩

private theorem exists_replies {k : Nat} (h : k < (model.vectors key cache inputs).length) :
    model.maxChunks.getD 1 ≠ 0 ∧ model.replies 0 (batches (model.maxChunks.getD 1)
      ((model.queueIndices key cache inputs).map inputs.get)) =
        some (model.vectors key cache inputs) := by
  constructor
  · intro hzero
    rw [vectors, batches, hzero] at h
    cases h
  · cases hreplies : model.replies 0 (batches (model.maxChunks.getD 1)
        ((model.queueIndices key cache inputs).map inputs.get)) with
    | none =>
      rw [vectors, hreplies] at h
      cases h
    | some vs =>
      rw [vectors, hreplies]
      rfl

theorem droppedLast_of_aligned
    (h : ∀ outcome, model.embed norm key newRow cache .committed inputs = some outcome →
      model.Aligned norm key cache inputs outcome) :
    DroppedLast norm.kept (model.vectors key cache inputs) := by
  cases droppedLast_or_exists norm.kept (model.vectors key cache inputs) with
  | inl hlast => exact hlast
  | inr hfound =>
    exfalso
    obtain ⟨k, vector, embedding, hk, hvector, hdropped⟩ := hfound
    have hlt := (List.getElem?_eq_some_iff.mp hvector).1
    have hplace : k < (model.queueIndices key cache inputs).length :=
      Nat.lt_of_lt_of_le hlt length_vectors_le
    have hqueue : model.queueIndices key cache inputs ≠ [] :=
      List.length_pos_iff.mp (Nat.zero_lt_of_lt hplace)
    obtain ⟨hchunks, hreplies⟩ := exists_replies hlt
    have haligned := h _ (embed_eq_of_replies .committed hqueue hchunks hreplies)
    have hown : model.own norm key cache inputs (model.queueIndices key cache inputs)[k] = _ :=
      own_of_queued (List.getElem?_eq_getElem hplace)
    rw [hvector, Option.bind_some, hdropped, haligned.embeddings _ embedding] at hown
    · cases hown
    · apply assign_of_mem
      · rw [List.zip_eq_zip_take_min, List.map_fst_zip (by
          rw [List.length_take, List.length_take]
          omega)]
        exact queueIndices_nodup.sublist (List.take_sublist _ _)
      · exact List.length_map _
      · apply List.mem_iff_getElem?.mpr
        exact ⟨k, List.getElem?_zip_eq_some.mpr ⟨List.getElem?_eq_getElem hplace, hk⟩⟩

theorem aligned_of_droppedLast (hrow : ∀ hash embedding, newRow hash embedding =
      ⟨model.modelName, hash, model.provider, embedding⟩)
    (h : DroppedLast norm.kept (model.vectors key cache inputs)) {commit : CommitOutcome}
    {outcome : EmbedOutcome ε}
    (houtcome : model.embed norm key newRow cache commit inputs = some outcome) :
    model.Aligned norm key cache inputs outcome := by
  by_cases hqueue : model.queueIndices key cache inputs = []
  · rw [embed] at houtcome
    dsimp only at houtcome
    rw [if_pos hqueue] at houtcome
    cases houtcome
    exact aligned_cached
  by_cases hchunks : model.maxChunks.getD 1 = 0
  · rw [embed] at houtcome
    dsimp only at houtcome
    rw [if_neg hqueue, if_pos hchunks] at houtcome
    cases houtcome
  cases hreplies : model.replies 0 (batches (model.maxChunks.getD 1)
      ((model.queueIndices key cache inputs).map inputs.get)) with
  | none =>
    rw [embed] at houtcome
    dsimp only at houtcome
    rw [if_neg hqueue, if_neg hchunks, embedBatches_eq, hreplies] at houtcome
    cases houtcome
  | some vs =>
    have hvectors : model.vectors key cache inputs = vs := by rw [vectors, hreplies]; rfl
    have haligned := aligned_assign hrow hvectors (hvectors ▸ h)
    rw [embed_eq_of_replies commit hqueue hchunks hreplies] at houtcome
    cases commit with
    | committed =>
      cases houtcome
      exact haligned
    | integrityError =>
      cases houtcome
      exact ⟨haligned.length, haligned.embeddings, fun _ hmem => nomatch hmem⟩
    | failed => cases houtcome

/-- However the commit ends, what is returned and written is aligned if and only if the dropped
vectors come last. -/
theorem embed_aligned_iff (hrow : ∀ hash embedding, newRow hash embedding =
      ⟨model.modelName, hash, model.provider, embedding⟩) :
    (∀ commit outcome, model.embed norm key newRow cache commit inputs = some outcome →
      model.Aligned norm key cache inputs outcome) ↔
      DroppedLast norm.kept (model.vectors key cache inputs) :=
  ⟨fun h => droppedLast_of_aligned (h .committed),
    fun h _ _ houtcome => aligned_of_droppedLast hrow h houtcome⟩

end EmbeddingModel

/-! ## The two functions -/

/-- `generate_text_hash`, for a hash function. -/
def generateTextHash (sha256 : String → String) (text : String) : String := sha256 (text ++ "None")

/-- A document with its file. -/
structure MultimodalDocument where
  content : String
  contentType : String
  fileId : String
  deriving DecidableEq

/-- `embed_documents`. -/
def embedDocuments (sha256 : String → String) (model : EmbeddingModel String ν)
    (norm : Normalization ν ε) (cache : List (EmbeddingRow ε)) (commit : CommitOutcome)
    (texts : List String) : Option (EmbedOutcome ε) :=
  model.embed norm (generateTextHash sha256)
    (fun hash embedding => ⟨model.modelName, hash, model.provider, embedding⟩) cache commit texts

/-- `embed_multimodal_documents`, which also calls `set_embedding` on the new row. -/
def embedMultimodalDocuments (model : EmbeddingModel MultimodalDocument ν)
    (norm : Normalization ν ε) (cache : List (EmbeddingRow ε)) (commit : CommitOutcome)
    (documents : List MultimodalDocument) : Option (EmbedOutcome ε) :=
  model.embed norm MultimodalDocument.fileId
    (fun fileId embedding => EmbeddingRow.setEmbedding
      ⟨model.modelName, fileId, model.provider, embedding⟩ embedding) cache commit documents

/-- Both functions keep embeddings and texts, or files, together if and only if no vector that is
dropped comes before one that is kept. -/
theorem embeddings_aligned_iff (sha256 : String → String) (model : EmbeddingModel String ν)
    (fileModel : EmbeddingModel MultimodalDocument ν) (norm : Normalization ν ε)
    (cache : List (EmbeddingRow ε)) (texts : List String) (documents : List MultimodalDocument) :
    ((∀ commit outcome, embedDocuments sha256 model norm cache commit texts = some outcome →
        model.Aligned norm (generateTextHash sha256) cache texts outcome) ↔
      DroppedLast norm.kept (model.vectors (generateTextHash sha256) cache texts)) ∧
    ((∀ commit outcome,
        embedMultimodalDocuments fileModel norm cache commit documents = some outcome →
        fileModel.Aligned norm MultimodalDocument.fileId cache documents outcome) ↔
      DroppedLast norm.kept
        (fileModel.vectors MultimodalDocument.fileId cache documents)) :=
  ⟨EmbeddingModel.embed_aligned_iff fun _ _ => rfl, EmbeddingModel.embed_aligned_iff fun _ _ => rfl⟩

/-- A model of one dimension, which gives a text its length. -/
private def lengths : EmbeddingModel String Nat where
  modelName := "m"
  provider := "p"
  maxChunks := some 1
  invoke _ batch := some (batch.map String.length)
  length_invoke _ _ _ h := by
    cases h
    exact List.length_map _

/-- In one dimension a length is divided by itself; zero gives a NaN. -/
private def unit : Normalization Nat (Option Nat) where
  normalize v := some (if v = 0 then none else some 1)
  hasNan := Option.isNone

/-- SHA-256 on the two texts below. -/
private def sha256 (text : String) : String :=
  if text = "None" then "dc937b59892604f5a86ac96936cd7ff09e25f18ae6b758e8014a24c7fa039e91"
  else "f6653249add5958550052efe4c1202897dd6a839d901d8477365ccfa79be9263"

/-- The vector of the empty text is dropped: it is given the embedding of the text after it, also in
the cache. -/
theorem embedDocuments_shifts :
    ∃ outcome, embedDocuments sha256 lengths unit [] .committed ["", "a"] = some outcome ∧
      outcome = ⟨[some (some 1), none], [⟨"m",
        "dc937b59892604f5a86ac96936cd7ff09e25f18ae6b758e8014a24c7fa039e91", "p", some 1⟩]⟩ ∧
      ¬ lengths.Aligned unit (generateTextHash sha256) [] ["", "a"] outcome := by
  refine ⟨_, by decide, rfl, fun h => ?_⟩
  have hown := h.embeddings ⟨0, by decide⟩ (some 1) rfl
  revert hown
  decide

end PlatformSpec.Rag
