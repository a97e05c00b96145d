import Mathlib.Logic.Function.Basic
import Mathlib.Data.List.Basic

/-!
# Merging the chunks of blobs

Models `core/plugin/utils/chunk_merger.py`: a generator of plugin messages passes every message on,
but gathers the chunks of blobs, by id, and yields a whole blob at its last chunk. What a message
of another type holds is left open, and so is the metadata.
-/

namespace PlatformSpec.Plugin

/-- `ToolInvokeMessage` and its subclass. -/
inductive MessageClass where
  | toolInvokeMessage
  | agentInvokeMessage
  deriving DecidableEq

/-- `ToolInvokeMessage.BlobChunkMessage`, without the sequence number. -/
structure BlobChunkMessage where
  id : String
  totalLength : Int
  blob : List UInt8
  isEnd : Bool
  deriving DecidableEq

/-- A message of a plugin. -/
inductive InvokeMessage (μ ω : Type) where
  | blobChunk (messageClass : MessageClass) (message : BlobChunkMessage) (metadata : μ)
  | blob (messageClass : MessageClass) (bytes : List UInt8) (metadata : μ)
  | other (message : ω)
  deriving DecidableEq

/-- `FileChunk`. -/
structure FileChunk where
  bytesWritten : Nat := 0
  data : List UInt8
  deriving DecidableEq

/-- The `ValueError` of `bytearray` on a negative length, or of a limit that is reached. -/
inductive MergeError where
  | negativeCount
  | fileTooLarge (maxFileSize : Int)
  | chunkTooLarge (maxChunkSize : Int)
  deriving DecidableEq

/-- `FileChunk(total_length)`: that many zero bytes. -/
def FileChunk.ofLength (totalLength : Int) : Except MergeError FileChunk :=
  if totalLength < 0 then .error .negativeCount
  else .ok { data := List.replicate totalLength.toNat 0 }

/-- The assignment to the slice behind the bytes written, which the data grows with. -/
def FileChunk.write (file : FileChunk) (blob : List UInt8) : FileChunk where
  bytesWritten := file.bytesWritten + blob.length
  data := file.data.take file.bytesWritten ++ blob ++
    file.data.drop (file.bytesWritten + blob.length)

/-- `dict[str, FileChunk]`. -/
abbrev Files := String → Option FileChunk

/-- The buffer for the blob of a chunk, a fresh one if there is none. -/
def bufferOf (files : Files) (chunk : BlobChunkMessage) : Except MergeError FileChunk :=
  match files chunk.id with
  | some file => .ok file
  | none => FileChunk.ofLength chunk.totalLength

section

variable {μ ω : Type} (maxFileSize maxChunkSize : Int)

/-- The body of the loop for a chunk: the buffer with the chunk written to it. -/
def receive (files : Files) (chunk : BlobChunkMessage) : Except MergeError FileChunk := do
  let file ← bufferOf files chunk
  if maxFileSize < file.bytesWritten + chunk.blob.length then .error (.fileTooLarge maxFileSize)
  else if maxChunkSize < chunk.blob.length then .error (.chunkTooLarge maxChunkSize)
  else .ok (file.write chunk.blob)

/-- The loop of `merge_blob_chunks`: what is yielded, and what is raised at the end. -/
def mergeFrom (files : Files) :
    List (InvokeMessage μ ω) → List (InvokeMessage μ ω) × Option MergeError
  | [] => ([], none)
  | .blobChunk messageClass chunk metadata :: response =>
    match receive maxFileSize maxChunkSize files chunk with
    | .error e => ([], some e)
    | .ok file =>
      if chunk.isEnd then
        let (yielded, raised) := mergeFrom (Function.update files chunk.id none) response
        (.blob messageClass (file.data.take file.bytesWritten) metadata :: yielded, raised)
      else mergeFrom (Function.update files chunk.id (some file)) response
  | .blob messageClass bytes metadata :: response =>
    let (yielded, raised) := mergeFrom files response
    (.blob messageClass bytes metadata :: yielded, raised)
  | .other message :: response =>
    let (yielded, raised) := mergeFrom files response
    (.other message :: yielded, raised)

end

/-- `merge_blob_chunks`. -/
def mergeBlobChunks {μ ω : Type} (response : List (InvokeMessage μ ω))
    (maxFileSize : Int := 30 * 1024 * 1024) (maxChunkSize : Int := 8192) :
    List (InvokeMessage μ ω) × Option MergeError :=
  mergeFrom maxFileSize maxChunkSize (fun _ => none) response

/-! ## Chunk streams -/

section

variable {μ ω : Type} {maxFileSize maxChunkSize : Int}

/-- The chunks with an id. -/
def chunksOf (id : String) : List (InvokeMessage μ ω) → List BlobChunkMessage
  | [] => []
  | .blobChunk _ chunk _ :: messages =>
    if chunk.id = id then chunk :: chunksOf id messages else chunksOf id messages
  | .blob _ _ _ :: messages => chunksOf id messages
  | .other _ :: messages => chunksOf id messages

/-- The bytes of some chunks. -/
def bytesOf (chunks : List BlobChunkMessage) : List UInt8 := chunks.flatMap BlobChunkMessage.blob

/-- The chunks of one blob: the last one, and no other, is marked as the end. -/
def IsStream (chunks : List BlobChunkMessage) : Prop :=
  ∃ front last, chunks = front ++ [last] ∧ (∀ chunk ∈ front, chunk.isEnd = false) ∧
    last.isEnd = true

/-- The streams of blobs with distinct ids, interleaved with each other and with other
messages. -/
def Interleaved (messages : List (InvokeMessage μ ω)) : Prop :=
  ∀ id, chunksOf id messages = [] ∨ IsStream (chunksOf id messages)

/-- Every blob in place of its last chunk, and the other messages, out of `messages`. -/
def blobsIn (messages : List (InvokeMessage μ ω)) :
    List (InvokeMessage μ ω) → List (InvokeMessage μ ω)
  | [] => []
  | .blobChunk messageClass chunk metadata :: rest =>
    if chunk.isEnd then
      .blob messageClass (bytesOf (chunksOf chunk.id messages)) metadata :: blobsIn messages rest
    else blobsIn messages rest
  | .blob messageClass bytes metadata :: rest =>
    .blob messageClass bytes metadata :: blobsIn messages rest
  | .other message :: rest => .other message :: blobsIn messages rest

/-- The chunk is too large, or makes its blob too large, or is the first one of a blob of negative
length, after the messages before it. -/
def Refused (maxFileSize maxChunkSize : Int) (before : List (InvokeMessage μ ω))
    (chunk : BlobChunkMessage) : Prop :=
  maxChunkSize < chunk.blob.length ∨
    maxFileSize < ((bytesOf (chunksOf chunk.id before)).length + chunk.blob.length : Nat) ∨
    (chunksOf chunk.id before = [] ∧ chunk.totalLength < 0)

/-- Some chunk of `rest` is refused, after `before` and what precedes it in `rest`. -/
def SomeRefused (maxFileSize maxChunkSize : Int) (before rest : List (InvokeMessage μ ω)) : Prop :=
  ∃ between messageClass chunk metadata after,
    rest = between ++ .blobChunk messageClass chunk metadata :: after ∧
      Refused maxFileSize maxChunkSize (before ++ between) chunk

@[simp] theorem chunksOf_append (id : String) (front back : List (InvokeMessage μ ω)) :
    chunksOf id (front ++ back) = chunksOf id front ++ chunksOf id back := by
  induction front with
  | nil => rfl
  | cons message front ih =>
    cases message with
    | blobChunk messageClass chunk metadata =>
      simp only [List.cons_append, chunksOf, ih]
      split <;> rfl
    | blob messageClass bytes metadata => exact ih
    | other message => exact ih

@[simp] theorem bytesOf_append (front back : List BlobChunkMessage) :
    bytesOf (front ++ back) = bytesOf front ++ bytesOf back := by
  simp [bytesOf]

theorem not_someRefused_nil (before : List (InvokeMessage μ ω)) :
    ¬ SomeRefused maxFileSize maxChunkSize before [] := by
  rintro ⟨between, messageClass, chunk, metadata, after, h, -⟩
  simp at h

variable {before rest messages : List (InvokeMessage μ ω)} {message : InvokeMessage μ ω}

theorem someRefused_cons
    (hm : ∀ messageClass chunk metadata, message ≠ .blobChunk messageClass chunk metadata) :
    SomeRefused maxFileSize maxChunkSize before (message :: rest) ↔
      SomeRefused maxFileSize maxChunkSize (before ++ [message]) rest := by
  constructor
  · rintro ⟨between, messageClass, chunk, metadata, after, h, hr⟩
    cases between with
    | nil => exact absurd (List.cons.inj h).1 (hm _ _ _)
    | cons first between =>
      obtain ⟨rfl, rfl⟩ := List.cons.inj h
      exact ⟨between, messageClass, chunk, metadata, after, rfl, by simpa using hr⟩
  · rintro ⟨between, messageClass, chunk, metadata, after, h, hr⟩
    exact ⟨message :: between, messageClass, chunk, metadata, after, by rw [h]; rfl,
      by simpa using hr⟩

variable {chunk : BlobChunkMessage} {messageClass : MessageClass} {metadata : μ}

private theorem someRefused_blobChunk :
    SomeRefused maxFileSize maxChunkSize before (.blobChunk messageClass chunk metadata :: rest) ↔
      Refused maxFileSize maxChunkSize before chunk ∨ SomeRefused maxFileSize maxChunkSize
        (before ++ [.blobChunk messageClass chunk metadata]) rest := by
  constructor
  · rintro ⟨between, messageClass', chunk', metadata', after, h, hr⟩
    cases between with
    | nil =>
      cases (List.cons.inj h).1
      exact .inl (by simpa using hr)
    | cons first between =>
      obtain ⟨rfl, rfl⟩ := List.cons.inj h
      exact .inr ⟨between, messageClass', chunk', metadata', after, rfl, by simpa using hr⟩
  · rintro (hr | ⟨between, messageClass', chunk', metadata', after, h, hr⟩)
    · exact ⟨[], messageClass, chunk, metadata, rest, rfl, by simpa using hr⟩
    · exact ⟨_ :: between, messageClass', chunk', metadata', after, by rw [h]; rfl,
        by simpa using hr⟩

/-! ## The buffers -/

/-- A buffer holds these bytes. -/
structure FileChunk.Holds (file : FileChunk) (bytes : List UInt8) : Prop where
  written : file.bytesWritten = bytes.length
  taken : file.data.take file.bytesWritten = bytes

/-- The entry of the table that some chunks have left. -/
def Buffered : Option FileChunk → List BlobChunkMessage → Prop
  | none, chunks => chunks = []
  | some file, chunks => chunks ≠ [] ∧ file.Holds (bytesOf chunks)

/-- The buffers after `before`, for the ids that are still to come. -/
def Ready (files : Files) (before rest : List (InvokeMessage μ ω)) : Prop :=
  ∀ id, chunksOf id rest ≠ [] → Buffered (files id) (chunksOf id before)

theorem FileChunk.Holds.write {file : FileChunk} {bytes : List UInt8}
    (h : file.Holds bytes) (blob : List UInt8) : (file.write blob).Holds (bytes ++ blob) := by
  constructor
  · simp [FileChunk.write, h.written]
  · simp only [FileChunk.write, h.taken]
    rw [h.written, ← List.length_append, List.take_left]

variable {files : Files}

private theorem bufferOf_cases
    {chunks : List BlobChunkMessage} (hb : Buffered (files chunk.id) chunks) :
    (∃ e, bufferOf files chunk = .error e ∧ chunks = [] ∧ chunk.totalLength < 0) ∨
    ∃ file, bufferOf files chunk = .ok file ∧ ¬ (chunks = [] ∧ chunk.totalLength < 0) ∧
      file.Holds (bytesOf chunks) := by
  cases hfile : files chunk.id with
  | some file =>
    rw [hfile] at hb
    exact .inr ⟨file, by rw [bufferOf, hfile], fun h => hb.1 h.1, hb.2⟩
  | none =>
    rw [hfile] at hb
    have hnil : chunks = [] := hb
    subst hnil
    by_cases hneg : chunk.totalLength < 0
    · refine .inl ⟨.negativeCount, ?_, rfl, hneg⟩
      simp only [bufferOf, hfile, FileChunk.ofLength, if_pos hneg]
    · refine .inr ⟨{ data := List.replicate chunk.totalLength.toNat 0 }, ?_, fun h => hneg h.2, ?_⟩
      · simp only [bufferOf, hfile, FileChunk.ofLength, if_neg hneg]
      · exact ⟨rfl, by simp [bytesOf]⟩

private theorem receive_cases (maxFileSize maxChunkSize : Int)
    (hb : Buffered (files chunk.id) (chunksOf chunk.id before)) :
    (∃ e, receive maxFileSize maxChunkSize files chunk = .error e ∧
      Refused maxFileSize maxChunkSize before chunk) ∨
    ∃ file, receive maxFileSize maxChunkSize files chunk = .ok file ∧
      ¬ Refused maxFileSize maxChunkSize before chunk ∧
      file.Holds (bytesOf (chunksOf chunk.id before ++ [chunk])) := by
  obtain ⟨e, he, hneg⟩ | ⟨file, he, hneg, hf⟩ := bufferOf_cases hb
  · exact .inl ⟨e, by rw [receive, he]; rfl, .inr (.inr hneg)⟩
  have hr : receive maxFileSize maxChunkSize files chunk =
      if maxFileSize < file.bytesWritten + chunk.blob.length then
        .error (.fileTooLarge maxFileSize)
      else if maxChunkSize < chunk.blob.length then .error (.chunkTooLarge maxChunkSize)
      else .ok (file.write chunk.blob) := by
    rw [receive, he]
    rfl
  by_cases hsize : maxFileSize < file.bytesWritten + chunk.blob.length
  · refine .inl ⟨_, hr.trans (if_pos hsize), .inr (.inl ?_)⟩
    rw [← hf.written]
    exact_mod_cast hsize
  by_cases hchunk : maxChunkSize < chunk.blob.length
  · exact .inl ⟨_, hr.trans (by rw [if_neg hsize, if_pos hchunk]), .inl hchunk⟩
  refine .inr ⟨file.write chunk.blob, hr.trans (by rw [if_neg hsize, if_neg hchunk]), ?_, ?_⟩
  · rintro (h | h | h)
    · exact hchunk h
    · rw [← hf.written] at h
      exact hsize (by exact_mod_cast h)
    · exact hneg h
  · rw [bytesOf_append]
    simpa [bytesOf] using hf.write chunk.blob

theorem IsStream.end_last {front back : List BlobChunkMessage}
    (h : IsStream (front ++ chunk :: back)) : chunk.isEnd = true ↔ back = [] := by
  obtain ⟨front', last, he, hfront, hlast⟩ := h
  rcases List.eq_nil_or_concat back with rfl | ⟨back, final, rfl⟩
  · simp only [iff_true]
    have := (List.append_inj' he rfl).2
    cases this
    exact hlast
  · have hsplit : (front ++ chunk :: back) ++ [final] = front' ++ [last] := by simpa using he
    have hmem : chunk ∈ front' := by
      rw [← (List.append_inj' hsplit rfl).1]
      simp
    simp [hfront chunk hmem]

theorem isEnd_iff (hs : Interleaved messages)
    (he : messages = before ++ .blobChunk messageClass chunk metadata :: rest) :
    chunk.isEnd = true ↔ chunksOf chunk.id rest = [] := by
  have hchunks : chunksOf chunk.id messages =
      chunksOf chunk.id before ++ chunk :: chunksOf chunk.id rest := by
    rw [he, chunksOf_append, chunksOf, if_pos rfl]
  rcases hs chunk.id with h | h
  · rw [hchunks] at h
    simp at h
  · rw [hchunks] at h
    exact h.end_last

theorem Ready.update (slot : Option FileChunk)
    (hr : Ready files before (.blobChunk messageClass chunk metadata :: rest))
    (hslot : chunksOf chunk.id rest ≠ [] → Buffered slot (chunksOf chunk.id before ++ [chunk])) :
    Ready (Function.update files chunk.id slot)
      (before ++ [.blobChunk messageClass chunk metadata]) rest := by
  intro id hid
  rw [chunksOf_append]
  by_cases h : chunk.id = id
  · subst h
    simpa [chunksOf] using hslot hid
  · rw [Function.update_of_ne (Ne.symm h)]
    simpa [chunksOf, h] using hr id (by rwa [chunksOf, if_neg h])

theorem Ready.skip (hr : Ready files before (message :: rest))
    (hm : ∀ id, chunksOf id [message] = []) : Ready files (before ++ [message]) rest := by
  intro id hid
  have hcons : chunksOf id (message :: rest) = chunksOf id rest := by
    rw [← List.singleton_append, chunksOf_append, hm, List.nil_append]
  simpa [hm id] using hr id (by rwa [hcons])

/-- What a run over the rest of the messages does: it raises at a chunk that is refused, and
otherwise yields every message and every blob. -/
private structure Merged (maxFileSize maxChunkSize : Int)
    (messages before rest : List (InvokeMessage μ ω))
    (merged : List (InvokeMessage μ ω) × Option MergeError) : Prop where
  raised : merged.2 ≠ none ↔ SomeRefused maxFileSize maxChunkSize before rest
  yielded : merged.2 = none → merged.1 = blobsIn messages rest
  begun : merged.1 <+: blobsIn messages rest

private theorem mergeFrom_merged
    (hs : Interleaved messages) (he : messages = before ++ rest) (hr : Ready files before rest) :
    Merged maxFileSize maxChunkSize messages before rest
      (mergeFrom maxFileSize maxChunkSize files rest) := by
  induction rest generalizing before files with
  | nil => exact ⟨by simp [mergeFrom, not_someRefused_nil], fun _ => rfl, List.prefix_rfl⟩
  | cons message rest ih =>
    have he' : messages = (before ++ [message]) ++ rest := by rw [he]; simp
    cases message with
    | blob messageClass bytes metadata =>
      have ih := ih he' (hr.skip fun _ => rfl)
      refine ⟨?_, fun h => ?_, ?_⟩
      · rw [someRefused_cons (by simp)]
        exact ih.raised
      · exact congrArg _ (ih.yielded h)
      · exact List.cons_prefix_cons.mpr ⟨rfl, ih.begun⟩
    | other message =>
      have ih := ih he' (hr.skip fun _ => rfl)
      refine ⟨?_, fun h => ?_, ?_⟩
      · rw [someRefused_cons (by simp)]
        exact ih.raised
      · exact congrArg _ (ih.yielded h)
      · exact List.cons_prefix_cons.mpr ⟨rfl, ih.begun⟩
    | blobChunk messageClass chunk metadata =>
      have hb : Buffered (files chunk.id) (chunksOf chunk.id before) :=
        hr chunk.id (by simp [chunksOf])
      obtain ⟨e, hrec, href⟩ | ⟨file, hrec, href, hf⟩ :=
        receive_cases maxFileSize maxChunkSize hb
      · rw [mergeFrom, hrec]
        exact ⟨by simp [someRefused_blobChunk, href], by simp, List.nil_prefix⟩
      have hend := isEnd_iff hs he
      rw [mergeFrom, hrec]
      by_cases hlast : chunk.isEnd = true
      · have hnil := hend.mp hlast
        have ih := ih he' (Ready.update none hr fun h => absurd hnil h)
        have hbytes : file.data.take file.bytesWritten = bytesOf (chunksOf chunk.id messages) := by
          rw [hf.taken, he', chunksOf_append, hnil, List.append_nil, chunksOf_append]
          simp [chunksOf]
        have hblobs : blobsIn messages (.blobChunk messageClass chunk metadata :: rest) =
            .blob messageClass (bytesOf (chunksOf chunk.id messages)) metadata ::
              blobsIn messages rest := by rw [blobsIn, if_pos hlast]
        simp only [if_pos hlast, hbytes]
        refine ⟨?_, fun h => ?_, ?_⟩
        · rw [someRefused_blobChunk, or_iff_right href]
          exact ih.raised
        · rw [hblobs, ih.yielded h]
        · rw [hblobs]
          exact List.cons_prefix_cons.mpr ⟨rfl, ih.begun⟩
      · have ih := ih he' (Ready.update (some file) hr fun _ => ⟨by simp, hf⟩)
        have hblobs : blobsIn messages (.blobChunk messageClass chunk metadata :: rest) =
            blobsIn messages rest := by rw [blobsIn, if_neg hlast]
        simp only [if_neg hlast]
        refine ⟨?_, by rw [hblobs]; exact ih.yielded, by rw [hblobs]; exact ih.begun⟩
        rw [someRefused_blobChunk, or_iff_right href]
        exact ih.raised

/-- Merging yields the other messages and every blob in place of its last chunk, up to a chunk that
is refused. -/
theorem mergeBlobChunks_interleaved (maxFileSize maxChunkSize : Int)
    {messages : List (InvokeMessage μ ω)} (hs : Interleaved messages) :
    let (yielded, raised) := mergeBlobChunks messages maxFileSize maxChunkSize
    (raised ≠ none ↔ SomeRefused maxFileSize maxChunkSize [] messages) ∧
      (raised = none → yielded = blobsIn messages messages) ∧
      yielded <+: blobsIn messages messages := by
  have h : Merged maxFileSize maxChunkSize messages [] messages
      (mergeBlobChunks messages maxFileSize maxChunkSize) :=
    mergeFrom_merged hs rfl fun id _ => rfl
  exact ⟨h.raised, h.yielded, h.begun⟩

/-- Two blobs in pieces, one within the other. -/
def nestedBlobs : List (InvokeMessage Unit Nat) :=
  [.blobChunk .toolInvokeMessage ⟨"a", 3, [1, 2], false⟩ (), .other 5,
    .blobChunk .agentInvokeMessage ⟨"b", 1, [9], true⟩ (),
    .blobChunk .toolInvokeMessage ⟨"a", 3, [3], true⟩ ()]

private theorem nestedBlobs_interleaved : Interleaved nestedBlobs := by
  intro id
  by_cases ha : "a" = id
  · subst ha
    exact .inr ⟨[⟨"a", 3, [1, 2], false⟩], ⟨"a", 3, [3], true⟩, rfl, by simp, rfl⟩
  by_cases hb : "b" = id
  · subst hb
    exact .inr ⟨[], ⟨"b", 1, [9], true⟩, rfl, by simp, rfl⟩
  exact .inl (by simp [nestedBlobs, chunksOf, ha, hb])

theorem nestedBlobs_merged :
    (mergeBlobChunks nestedBlobs = ([.other 5, .blob .agentInvokeMessage [9] (),
      .blob .toolInvokeMessage [1, 2, 3] ()], none)) ∧
    ((mergeBlobChunks nestedBlobs 30 8).2 ≠ none ↔ SomeRefused 30 8 [] nestedBlobs) :=
  ⟨by decide, (mergeBlobChunks_interleaved 30 8 nestedBlobs_interleaved).1⟩

/-- A negative length is refused though no limit is reached. -/
theorem negative_length_raises :
    let messages : List (InvokeMessage Unit Unit) :=
      [.blobChunk .toolInvokeMessage ⟨"a", -1, [], true⟩ ()]
    Interleaved messages ∧ (mergeBlobChunks messages 30 8).2 = some .negativeCount ∧
      ¬ ∃ before messageClass chunk metadata after,
        messages = before ++ .blobChunk messageClass chunk metadata :: after ∧
          (8 < chunk.blob.length ∨
            30 < (bytesOf (chunksOf chunk.id before)).length + chunk.blob.length) := by
  refine ⟨fun id => ?_, by decide, ?_⟩
  · by_cases h : "a" = id
    · subst h
      exact .inr ⟨[], ⟨"a", -1, [], true⟩, rfl, by simp, rfl⟩
    · exact .inl (by simp [chunksOf, h])
  · rintro ⟨before, messageClass, chunk, metadata, after, h, hr⟩
    cases before with
    | nil =>
      cases h
      simp [bytesOf, chunksOf] at hr
    | cons first before => simp at h

end
end PlatformSpec.Plugin
