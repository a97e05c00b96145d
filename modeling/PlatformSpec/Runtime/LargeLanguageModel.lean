import PlatformSpec.Base.Keyed

/-!
# Tool calls out of deltas

Models `dify_graph/model_runtime/model_providers/__base/large_language_model.py`: the deltas of
tool calls in the chunks of a model are merged by id, or into the latest call, and the chunks are
built into one result. The messages of the prompt and what a usage holds are left out.
-/

namespace PlatformSpec.Runtime.LargeLanguageModel

open Base

/-- `AssistantPromptMessage.ToolCall.ToolCallFunction`. -/
structure ToolCallFunction where
  name : String
  arguments : String
  deriving DecidableEq

/-- `AssistantPromptMessage.ToolCall`. -/
structure ToolCall where
  id : String
  type : String
  function : ToolCallFunction
  deriving DecidableEq

/-- The `ValueError` about an empty `tool_call_id`. -/
inductive ToolCallError where
  | noToolCall
  deriving DecidableEq

/-- A tool call as it is created. -/
def newToolCall (toolCallId : String) : ToolCall := ⟨toolCallId, "function", ⟨"", ""⟩⟩

/-- `_get_or_create_tool_call`: the calls, and where the one asked for is. -/
def getOrCreateToolCall (existing : List ToolCall) (toolCallId : String) :
    Except ToolCallError (List ToolCall × Nat) :=
  if toolCallId = "" then
    if existing = [] then .error .noToolCall else .ok (existing, existing.length - 1)
  else
    match existing.findIdx? (·.id = toolCallId) with
    | some index => .ok (existing, index)
    | none => .ok (existing ++ [newToolCall toolCallId], existing.length)

/-- `_merge_tool_call_delta`. -/
def mergeToolCallDelta (toolCall delta : ToolCall) : ToolCall where
  id := if delta.id = "" then toolCall.id else delta.id
  type := if delta.type = "" then toolCall.type else delta.type
  function :=
    { name := if delta.function.name = "" then toolCall.function.name else delta.function.name
      arguments := toolCall.function.arguments ++ delta.function.arguments }

/-- The tool calls so far, and how many ids have been generated. -/
structure ToolCalls where
  existing : List ToolCall
  generated : Nat
  deriving DecidableEq

/-- The body of the loop of `_increase_tool_call`, with the ids of `_gen_tool_call_id`. -/
def increaseOne (genToolCallId : Nat → String) (calls : ToolCalls) (delta : ToolCall) :
    Except ToolCallError ToolCalls := do
  let generates := delta.function.name ≠ "" ∧ delta.id = ""
  let delta := if generates then { delta with id := genToolCallId calls.generated } else delta
  let generated := if generates then calls.generated + 1 else calls.generated
  let (existing, index) ← getOrCreateToolCall calls.existing delta.id
  return ⟨existing.modify index (mergeToolCallDelta · delta), generated⟩

/-- `_increase_tool_call`. -/
def increaseToolCall (genToolCallId : Nat → String) (newToolCalls : List ToolCall)
    (calls : ToolCalls) : Except ToolCallError ToolCalls :=
  newToolCalls.foldlM (increaseOne genToolCallId) calls

/-- `PromptMessage.content`. -/
inductive Content (π : Type) where
  | text (content : String)
  | parts (contentList : List π)
  deriving DecidableEq

/-- `LLMResultChunk`, with the fields of its delta. -/
structure LlmResultChunk (π υ : Type) where
  content : Option (Content π)
  toolCalls : List ToolCall
  usage : Option υ
  systemFingerprint : Option String
  deriving DecidableEq

/-- `LLMResult`, with the fields of its message. -/
structure LlmResult (π υ : Type) where
  model : String
  content : Content π
  toolCalls : List ToolCall
  usage : υ
  systemFingerprint : Option String
  deriving DecidableEq

/-- The variables of the loop over the chunks. -/
structure Building (π υ : Type) where
  content : String
  contentList : List π
  usage : υ
  systemFingerprint : Option String
  toolsCalls : ToolCalls
  deriving DecidableEq

section

variable {π υ : Type} (genToolCallId : Nat → String)

/-- The body of the loop over the chunks. -/
def consume (building : Building π υ) (chunk : LlmResultChunk π υ) :
    Except ToolCallError (Building π υ) := do
  let toolsCalls ← increaseToolCall genToolCallId chunk.toolCalls building.toolsCalls
  return {
    content :=
      match chunk.content with
      | some (.text content) => building.content ++ content
      | _ => building.content
    contentList :=
      match chunk.content with
      | some (.parts contentList) => building.contentList ++ contentList
      | _ => building.contentList
    usage := chunk.usage.getD building.usage
    systemFingerprint :=
      match chunk.systemFingerprint with
      | some fingerprint =>
        if fingerprint = "" then building.systemFingerprint else some fingerprint
      | none => building.systemFingerprint
    toolsCalls }

/-- `_build_llm_result_from_chunks`. -/
def buildLlmResultFromChunks (emptyUsage : υ) (model : String)
    (chunks : List (LlmResultChunk π υ)) : Except ToolCallError (LlmResult π υ) := do
  let building ← chunks.foldlM (consume genToolCallId) ⟨"", [], emptyUsage, none, ⟨[], 0⟩⟩
  return {
    model
    content :=
      if building.content = "" then .parts building.contentList else .text building.content
    toolCalls := building.toolsCalls.existing
    usage := building.usage
    systemFingerprint := building.systemFingerprint }

end

/-! ## Calls cut into deltas -/

/-- A call as a model makes it. -/
structure Call where
  id : String
  name : String
  arguments : String
  deriving DecidableEq

/-- The call that has been put together. -/
def ToolCall.call (toolCall : ToolCall) : Call :=
  ⟨toolCall.id, toolCall.function.name, toolCall.function.arguments⟩

/-- Some texts one after another. -/
def joined (texts : List String) : String := texts.foldl (· ++ ·) ""

/-- A later delta carries the id, or neither the id nor the name. -/
def IsLater (call : Call) (delta : ToolCall) : Prop :=
  (delta.id = call.id ∧ (delta.function.name = call.name ∨ delta.function.name = "")) ∨
    (delta.id = "" ∧ delta.function.name = "")

/-- The first delta of a call carries its id and name, and the arguments are cut in any way. -/
def IsCutOf (call : Call) (deltas : List ToolCall) : Prop :=
  ∃ first rest, deltas = first :: rest ∧ first.id = call.id ∧ first.function.name = call.name ∧
    (∀ later ∈ rest, IsLater call later) ∧
    joined (deltas.map (·.function.arguments)) = call.arguments

/-- Deltas in the order in which they come, each with the id of its call, and what holds of those
without an id and the deltas before them. -/
structure Interleaved (follows : List String → String → Prop) (calls : List Call)
    (deltas : List (String × ToolCall)) : Prop where
  nodup : (calls.map Call.id).Nodup
  nonempty : ∀ call ∈ calls, call.id ≠ ""
  owned : ∀ p ∈ deltas, p.1 ∈ calls.map Call.id
  cut : ∀ call ∈ calls, IsCutOf call ((deltas.filter (·.1 = call.id)).map Prod.snd)
  follows : ∀ before p after, deltas = before ++ p :: after → p.2.id = "" →
    follows (before.map Prod.fst) p.1

/-- The delta before is one of the same call. -/
def OwnBefore (before : List String) (id : String) : Prop := before.getLast? = some id

/-- The call is the one that began last. -/
def BeganLast (before : List String) (id : String) : Prop :=
  before.eraseDups.getLast? = some id

instance (before : List String) (id : String) : Decidable (OwnBefore before id) :=
  inferInstanceAs (Decidable (_ = _))

instance (before : List String) (id : String) : Decidable (BeganLast before id) :=
  inferInstanceAs (Decidable (_ = _))

/-- The text of a chunk. -/
def LlmResultChunk.text {π υ : Type} (chunk : LlmResultChunk π υ) : String :=
  match chunk.content with
  | some (.text content) => content
  | some (.parts _) => ""
  | none => ""

/-- The content parts of a chunk. -/
def LlmResultChunk.parts {π υ : Type} (chunk : LlmResultChunk π υ) : List π :=
  match chunk.content with
  | some (.text _) => []
  | some (.parts contentList) => contentList
  | none => []

/-! ## Assembling -/

/-- The deltas of a call, merged into a new one. -/
private def assemble (deltas : List (String × ToolCall)) (id : String) : ToolCall :=
  ((deltas.filter (·.1 = id)).map Prod.snd).foldl mergeToolCallDelta (newToolCall id)

/-- The calls, each put together, in the order in which they began. -/
private def assembled (deltas : List (String × ToolCall)) : List ToolCall :=
  (deltas.map Prod.fst).eraseDups.map (assemble deltas)

/-- The delta finds its call: by the id, or as the one that began last. -/
private def Addressed (before : List (String × ToolCall)) (p : String × ToolCall) : Prop :=
  p.1 ≠ "" ∧ (p.2.id = p.1 ∨
    (p.2.id = "" ∧ p.2.function.name = "" ∧ BeganLast (before.map Prod.fst) p.1))

private theorem assemble_concat (deltas : List (String × ToolCall)) (p : String × ToolCall)
    (id : String) : assemble (deltas ++ [p]) id =
      if id = p.1 then mergeToolCallDelta (assemble deltas id) p.2 else assemble deltas id := by
  unfold assemble
  by_cases h : id = p.1
  · simp [h, List.filter_append]
  · simp [h, List.filter_append, Ne.symm h]

variable {deltas : List ToolCall} {toolCall : ToolCall}

private theorem foldl_merge_id (h : ∀ delta ∈ deltas, delta.id = "" ∨ delta.id = toolCall.id) :
    (deltas.foldl mergeToolCallDelta toolCall).id = toolCall.id := by
  induction deltas generalizing toolCall with
  | nil => rfl
  | cons delta deltas ih =>
    have hid : (mergeToolCallDelta toolCall delta).id = toolCall.id := by
      rcases h delta List.mem_cons_self with he | he
      · simp [mergeToolCallDelta, he]
      · simp [mergeToolCallDelta, he]
    rw [List.foldl_cons, ih fun d hd => by rw [hid]; exact h d (List.mem_cons_of_mem _ hd), hid]

private theorem foldl_merge_name (h : ∀ delta ∈ deltas, delta.function.name = "" ∨
      delta.function.name = toolCall.function.name) :
    (deltas.foldl mergeToolCallDelta toolCall).function.name = toolCall.function.name := by
  induction deltas generalizing toolCall with
  | nil => rfl
  | cons delta deltas ih =>
    have hname : (mergeToolCallDelta toolCall delta).function.name = toolCall.function.name := by
      rcases h delta List.mem_cons_self with he | he
      · simp [mergeToolCallDelta, he]
      · simp [mergeToolCallDelta, he]
    rw [List.foldl_cons,
      ih fun d hd => by rw [hname]; exact h d (List.mem_cons_of_mem _ hd), hname]

private theorem foldl_merge_arguments (deltas : List ToolCall) (toolCall : ToolCall) :
    (deltas.foldl mergeToolCallDelta toolCall).function.arguments =
      (deltas.map (·.function.arguments)).foldl (· ++ ·) toolCall.function.arguments := by
  induction deltas generalizing toolCall with
  | nil => rfl
  | cons delta deltas ih =>
    rw [List.foldl_cons, ih, List.map_cons, List.foldl_cons]
    rfl

theorem call_of_isCutOf {call : Call} (h : IsCutOf call deltas) :
    (deltas.foldl mergeToolCallDelta (newToolCall call.id)).call = call := by
  obtain ⟨first, rest, rfl, hid, hname, hrest, harguments⟩ := h
  have hlater : ∀ later ∈ rest, (later.id = "" ∨ later.id = call.id) ∧
      (later.function.name = "" ∨ later.function.name = call.name) := by
    intro later hmem
    obtain ⟨h, hn⟩ | ⟨h, hn⟩ := hrest later hmem
    · exact ⟨.inr h, hn.symm⟩
    · exact ⟨.inl h, .inl hn⟩
  have hfirst : (mergeToolCallDelta (newToolCall call.id) first).function.name = call.name := by
    by_cases he : first.function.name = ""
    · simp [mergeToolCallDelta, newToolCall, he, ← hname]
    · rw [mergeToolCallDelta, if_neg he, hname]
  have h1 : ((first :: rest).foldl mergeToolCallDelta (newToolCall call.id)).id = call.id := by
    refine foldl_merge_id fun d hd => ?_
    rcases List.mem_cons.mp hd with rfl | hd
    · exact .inr hid
    · exact (hlater d hd).1
  have h2 : ((first :: rest).foldl mergeToolCallDelta (newToolCall call.id)).function.name =
      call.name := by
    rw [List.foldl_cons, foldl_merge_name fun d hd => by rw [hfirst]; exact (hlater d hd).2, hfirst]
  have h3 : ((first :: rest).foldl mergeToolCallDelta (newToolCall call.id)).function.arguments =
      call.arguments := (foldl_merge_arguments _ _).trans harguments
  rw [ToolCall.call, h1, h2, h3]

section

variable {deltas : List (String × ToolCall)}

private theorem assemble_id (h : ∀ p ∈ deltas, p.2.id = "" ∨ p.2.id = p.1) (id : String) :
    (assemble deltas id).id = id := by
  refine foldl_merge_id fun delta hd => ?_
  obtain ⟨p, hp, rfl⟩ := List.mem_map.mp hd
  obtain ⟨hp, he⟩ := List.mem_filter.mp hp
  rcases h p hp with h | h
  · exact .inl h
  · exact .inr (h.trans (of_decide_eq_true he))

theorem modify_append_cons {α : Type} (f : α → α) (front : List α) (a : α) (back : List α) :
    (front ++ a :: back).modify front.length f = front ++ f a :: back := by
  induction front with
  | nil => rfl
  | cons b front ih => exact congrArg (b :: ·) ih

private theorem getOrCreateToolCall_found {front : List ToolCall} {toolCall : ToolCall}
    (back : List ToolCall) (hne : toolCall.id ≠ "") (hfront : ∀ t ∈ front, t.id ≠ toolCall.id) :
    getOrCreateToolCall (front ++ toolCall :: back) toolCall.id =
      .ok (front ++ toolCall :: back, front.length) := by
  have hindex : (front ++ toolCall :: back).findIdx? (·.id = toolCall.id) = some front.length := by
    rw [List.findIdx?_append, List.findIdx?_eq_none_iff.mpr (by simpa using hfront)]
    simp [List.findIdx?_cons]
  rw [getOrCreateToolCall, if_neg hne, hindex]

private theorem getOrCreateToolCall_latest (front : List ToolCall) (toolCall : ToolCall) :
    getOrCreateToolCall (front ++ [toolCall]) "" = .ok (front ++ [toolCall], front.length) := by
  simp [getOrCreateToolCall]

private theorem getOrCreateToolCall_created {existing : List ToolCall} {id : String}
    (hne : id ≠ "") (hnew : ∀ t ∈ existing, t.id ≠ id) :
    getOrCreateToolCall existing id = .ok (existing ++ [newToolCall id], existing.length) := by
  rw [getOrCreateToolCall, if_neg hne, List.findIdx?_eq_none_iff.mpr (by simpa using hnew)]

variable {p : String × ToolCall}

private theorem assembled_concat_of_mem {front back : List String}
    (hsplit : (deltas.map Prod.fst).eraseDups = front ++ p.1 :: back) :
    assembled (deltas ++ [p]) = front.map (assemble deltas) ++
      mergeToolCallDelta (assemble deltas p.1) p.2 :: back.map (assemble deltas) := by
  have hnodup := Keyed.nodup_eraseDups (deltas.map Prod.fst)
  have hmem : p.1 ∈ deltas.map Prod.fst := List.mem_eraseDups.mp (by simp [hsplit])
  rw [hsplit, List.nodup_append, List.nodup_cons] at hnodup
  obtain ⟨-, ⟨hback, -⟩, hfront⟩ := hnodup
  have hother : ∀ ids : List String, p.1 ∉ ids →
      ids.map (assemble (deltas ++ [p])) = ids.map (assemble deltas) := by
    intro ids hids
    refine List.map_congr_left fun id hid => ?_
    have hne : id ≠ p.1 := by
      rintro rfl
      exact hids hid
    rw [assemble_concat, if_neg hne]
  rw [assembled, List.map_append, List.map_singleton, Keyed.eraseDups_concat, if_pos hmem, hsplit,
    List.map_append, List.map_cons, hother back hback, assemble_concat, if_pos rfl,
    hother front fun hf => hfront _ hf _ List.mem_cons_self rfl]

private theorem assembled_concat_of_not_mem (hnew : p.1 ∉ deltas.map Prod.fst) :
    assembled (deltas ++ [p]) = assembled deltas ++ [mergeToolCallDelta (newToolCall p.1) p.2] := by
  have hnone : assemble deltas p.1 = newToolCall p.1 := by
    have hfilter : deltas.filter (·.1 = p.1) = [] := List.filter_eq_nil_iff.mpr fun q hq he =>
      hnew (List.mem_map.mpr ⟨q, hq, of_decide_eq_true he⟩)
    rw [assemble, hfilter]
    rfl
  have hother : (deltas.map Prod.fst).eraseDups.map (assemble (deltas ++ [p])) =
      (deltas.map Prod.fst).eraseDups.map (assemble deltas) := by
    refine List.map_congr_left fun id hid => ?_
    have hne : id ≠ p.1 := by
      rintro rfl
      exact hnew (List.mem_eraseDups.mp hid)
    rw [assemble_concat, if_neg hne]
  rw [assembled, List.map_append, List.map_singleton, Keyed.eraseDups_concat, if_neg hnew,
    List.map_append, hother, List.map_singleton, assemble_concat, if_pos rfl, hnone]
  rfl

private theorem increaseOne_assembled (genToolCallId : Nat → String)
    (h : ∀ p ∈ deltas, p.2.id = "" ∨ p.2.id = p.1) (hp : Addressed deltas p) :
    increaseOne genToolCallId ⟨assembled deltas, 0⟩ p.2 = .ok ⟨assembled (deltas ++ [p]), 0⟩ := by
  obtain ⟨hne, haddress⟩ := hp
  have hgenerates : ¬ (p.2.function.name ≠ "" ∧ p.2.id = "") := by
    rintro ⟨hname, hid⟩
    rcases haddress with he | ⟨-, he, -⟩
    · exact hne (he.symm.trans hid)
    · exact hname he
  have hone : increaseOne genToolCallId ⟨assembled deltas, 0⟩ p.2 =
      (getOrCreateToolCall (assembled deltas) p.2.id).map fun r =>
        ⟨r.1.modify r.2 (mergeToolCallDelta · p.2), 0⟩ := by
    simp only [increaseOne, if_neg hgenerates]
    cases getOrCreateToolCall (assembled deltas) p.2.id <;> rfl
  rw [hone]
  have hsplitted : ∀ front back : List String,
      (deltas.map Prod.fst).eraseDups = front ++ p.1 :: back →
      assembled deltas =
        front.map (assemble deltas) ++ assemble deltas p.1 :: back.map (assemble deltas) := by
    intro front back hsplit
    rw [assembled, hsplit, List.map_append, List.map_cons]
  rcases haddress with hid | ⟨hid, -, hlast⟩
  · by_cases hmem : p.1 ∈ deltas.map Prod.fst
    · obtain ⟨front, back, hsplit, hfront⟩ :=
        List.eq_append_cons_of_mem (List.mem_eraseDups.mpr hmem)
      have hearlier : ∀ t ∈ front.map (assemble deltas), t.id ≠ (assemble deltas p.1).id := by
        intro t ht
        obtain ⟨id, hid, rfl⟩ := List.mem_map.mp ht
        rw [assemble_id h, assemble_id h]
        rintro rfl
        exact hfront hid
      have hget := getOrCreateToolCall_found (back.map (assemble deltas))
        (by rwa [assemble_id h]) hearlier
      rw [assemble_id h] at hget
      rw [hid, hsplitted front back hsplit, hget, assembled_concat_of_mem hsplit, Except.map,
        modify_append_cons]
    · have hearlier : ∀ t ∈ assembled deltas, t.id ≠ p.1 := by
        intro t ht
        obtain ⟨id, hid, rfl⟩ := List.mem_map.mp ht
        rw [assemble_id h]
        rintro rfl
        exact hmem (List.mem_eraseDups.mp hid)
      rw [hid, getOrCreateToolCall_created hne hearlier, assembled_concat_of_not_mem hmem,
        Except.map, modify_append_cons]
  · obtain ⟨front, hsplit⟩ := List.getLast?_eq_some_iff.mp hlast
    rw [hid, hsplitted front [] hsplit, List.map_nil, getOrCreateToolCall_latest,
      assembled_concat_of_mem hsplit, Except.map, modify_append_cons, List.map_nil]

private theorem increaseToolCall_assembled (genToolCallId : Nat → String)
    (h : ∀ before p after, deltas = before ++ p :: after → Addressed before p) :
    increaseToolCall genToolCallId (deltas.map Prod.snd) ⟨[], 0⟩ = .ok ⟨assembled deltas, 0⟩ := by
  induction deltas using List.reverseRecOn with
  | nil => rfl
  | append_singleton deltas p ih =>
    have hfront := ih fun before q after he => h before q (after ++ [p]) (by simp [he])
    have hids : ∀ q ∈ deltas, q.2.id = "" ∨ q.2.id = q.1 := by
      intro q hq
      obtain ⟨before, after, rfl⟩ := List.append_of_mem hq
      obtain ⟨-, hid | ⟨hid, -⟩⟩ := h before q (after ++ [p]) (by simp)
      · exact .inr hid
      · exact .inl hid
    rw [increaseToolCall] at hfront
    rw [increaseToolCall, List.map_append, List.foldlM_append, hfront]
    have hone := increaseOne_assembled genToolCallId hids (h deltas p [] rfl)
    simp [Except.bind, hone, bind, pure, Except.pure]

variable {follows : List String → String → Prop} {calls : List Call}

theorem Interleaved.carried (h : Interleaved follows calls deltas) (hp : p ∈ deltas) :
    p.1 ≠ "" ∧ (p.2.id = p.1 ∨ (p.2.id = "" ∧ p.2.function.name = "")) := by
  obtain ⟨call, hcall, hid⟩ := List.mem_map.mp (h.owned p hp)
  refine ⟨by rw [← hid]; exact h.nonempty call hcall, ?_⟩
  have hdelta : p.2 ∈ (deltas.filter (·.1 = call.id)).map Prod.snd :=
    List.mem_map_of_mem (List.mem_filter.mpr ⟨hp, by simp [hid]⟩)
  obtain ⟨first, rest, hcut, hfirst, -, hrest, -⟩ := h.cut call hcall
  rw [hcut] at hdelta
  rcases List.mem_cons.mp hdelta with he | hlater
  · exact .inl (by rw [he, hfirst, hid])
  · obtain ⟨hown, -⟩ | hneither := hrest p.2 hlater
    · exact .inl (hown.trans hid)
    · exact .inr hneither

private theorem Interleaved.addressed (h : Interleaved BeganLast calls deltas)
    {before after : List (String × ToolCall)}
    (he : deltas = before ++ p :: after) : Addressed before p := by
  obtain ⟨hne, hid | ⟨hid, hname⟩⟩ := h.carried (p := p) (by simp [he])
  · exact ⟨hne, .inl hid⟩
  · exact ⟨hne, .inr ⟨hid, hname, h.follows before p after he hid⟩⟩

private theorem Interleaved.perm (h : Interleaved follows calls deltas) :
    ((assembled deltas).map ToolCall.call).Perm calls ∧
      ((assembled deltas).map ToolCall.call).map Call.id = (deltas.map Prod.fst).eraseDups := by
  have hcall : ∀ call ∈ calls, (assemble deltas call.id).call = call := fun call hc =>
    call_of_isCutOf (h.cut call hc)
  have hids : ((assembled deltas).map ToolCall.call).map Call.id =
      (deltas.map Prod.fst).eraseDups := by
    rw [assembled, List.map_map, List.map_map]
    refine List.map_id'' (fun id => assemble_id (fun p hp => ?_) id) _
    obtain ⟨-, hid | ⟨hid, -⟩⟩ := h.carried hp
    · exact .inr hid
    · exact .inl hid
  refine ⟨?_, hids⟩
  refine (List.perm_ext_iff_of_nodup ?_ (List.Nodup.of_map _ h.nodup)).mpr fun call => ?_
  · refine List.Nodup.of_map Call.id ?_
    rw [hids]
    exact Keyed.nodup_eraseDups _
  · constructor
    · intro hmem
      obtain ⟨t, ht, rfl⟩ := List.mem_map.mp hmem
      obtain ⟨id, hid, rfl⟩ := List.mem_map.mp ht
      obtain ⟨p, hp, rfl⟩ := List.mem_map.mp (List.mem_eraseDups.mp hid)
      obtain ⟨call, hc, hid⟩ := List.mem_map.mp (h.owned p hp)
      rw [← hid, hcall call hc]
      exact hc
    · intro hc
      refine List.mem_map.mpr ⟨assemble deltas call.id, List.mem_map_of_mem ?_, hcall call hc⟩
      obtain ⟨first, rest, hcut, -⟩ := h.cut call hc
      have hfirst : first ∈ (deltas.filter (·.1 = call.id)).map Prod.snd := by simp [hcut]
      obtain ⟨p, hp, -⟩ := List.mem_map.mp hfirst
      obtain ⟨hp, hid⟩ := List.mem_filter.mp hp
      exact List.mem_eraseDups.mpr (List.mem_map.mpr ⟨p, hp, of_decide_eq_true hid⟩)

end

section

variable {π υ : Type} {genToolCallId : Nat → String} {chunks : List (LlmResultChunk π υ)}

theorem consume_eq {building : Building π υ} {chunk : LlmResultChunk π υ}
    {calls : ToolCalls}
    (h : increaseToolCall genToolCallId chunk.toolCalls building.toolsCalls = .ok calls) :
    ∃ fingerprint, consume genToolCallId building chunk = .ok
      ⟨building.content ++ chunk.text, building.contentList ++ chunk.parts,
        chunk.usage.getD building.usage, fingerprint, calls⟩ := by
  rw [consume, h]
  cases hc : chunk.content with
  | none => exact ⟨_, by simp [LlmResultChunk.text, LlmResultChunk.parts, hc]; rfl⟩
  | some content =>
    cases content with
    | text content => exact ⟨_, by simp [LlmResultChunk.text, LlmResultChunk.parts, hc]; rfl⟩
    | parts contentList => exact ⟨_, by simp [LlmResultChunk.text, LlmResultChunk.parts, hc]; rfl⟩

private theorem foldlM_consume (building : Building π υ) {calls : ToolCalls}
    (h : increaseToolCall genToolCallId (chunks.flatMap (·.toolCalls)) building.toolsCalls =
      .ok calls) :
    ∃ fingerprint, chunks.foldlM (consume genToolCallId) building = .ok
      ⟨(chunks.map (·.text)).foldl (· ++ ·) building.content,
        building.contentList ++ chunks.flatMap (·.parts),
        ((chunks.filterMap (·.usage)).getLast?).getD building.usage, fingerprint, calls⟩ := by
  induction chunks generalizing building with
  | nil =>
    cases h
    exact ⟨building.systemFingerprint, by simp; rfl⟩
  | cons chunk chunks ih =>
    rw [increaseToolCall, List.flatMap_cons, List.foldlM_append] at h
    cases hfirst : increaseToolCall genToolCallId chunk.toolCalls building.toolsCalls with
    | error e =>
      rw [increaseToolCall] at hfirst
      rw [hfirst] at h
      cases h
    | ok first =>
      obtain ⟨fingerprint, hchunk⟩ := consume_eq hfirst
      rw [increaseToolCall] at hfirst
      rw [hfirst] at h
      rw [List.foldlM_cons, hchunk]
      obtain ⟨fingerprint, hrest⟩ := ih ⟨building.content ++ chunk.text,
        building.contentList ++ chunk.parts, chunk.usage.getD building.usage, fingerprint, first⟩ h
      refine ⟨fingerprint, hrest.trans ?_⟩
      have husage : ((chunks.filterMap (·.usage)).getLast?).getD
          (chunk.usage.getD building.usage) =
          (((chunk :: chunks).filterMap (·.usage)).getLast?).getD building.usage := by
        cases hu : chunk.usage with
        | none => simp [hu]
        | some usage =>
          rw [List.filterMap_cons_some hu, List.getLast?_cons]
          rfl
      rw [← husage, List.map_cons, List.foldl_cons, List.flatMap_cons, List.append_assoc]

/-- Calls cut into deltas, and deltas into chunks, are put together again, if a delta without an id
belongs to the call that began last. -/
theorem buildLlmResultFromChunks_interleaved (genToolCallId : Nat → String) (emptyUsage : υ)
    (model : String) {chunks : List (LlmResultChunk π υ)} {calls : List Call}
    {deltas : List (String × ToolCall)} (h : Interleaved BeganLast calls deltas)
    (hchunks : chunks.flatMap (·.toolCalls) = deltas.map Prod.snd) :
    ∃ result, buildLlmResultFromChunks genToolCallId emptyUsage model chunks = .ok result ∧
      (result.toolCalls.map ToolCall.call).Perm calls ∧
      (result.toolCalls.map ToolCall.call).map Call.id = (deltas.map Prod.fst).eraseDups ∧
      result.content =
        (if joined (chunks.map (·.text)) = "" then .parts (chunks.flatMap (·.parts))
        else .text (joined (chunks.map (·.text)))) ∧
      result.usage = ((chunks.filterMap (·.usage)).getLast?).getD emptyUsage := by
  have hcalls := increaseToolCall_assembled genToolCallId
    fun before p after he => h.addressed he
  rw [← hchunks] at hcalls
  obtain ⟨fingerprint, hbuilt⟩ :=
    foldlM_consume ⟨"", [], emptyUsage, none, ⟨[], 0⟩⟩ hcalls
  obtain ⟨hperm, hids⟩ := h.perm
  refine ⟨_, by rw [buildLlmResultFromChunks, hbuilt]; rfl, hperm, hids, rfl, rfl⟩

end

private theorem forall_split {α : Type} {q : List α → α → Prop} {l : List α}
    (h : ∀ i : Fin l.length, q (l.take i) (l.get i)) (before : List α) (a : α) (after : List α)
    (he : l = before ++ a :: after) : q before a := by
  subst he
  have := h ⟨before.length, by simp⟩
  simpa using this

/-- The calls of the examples. -/
def twoCalls : List Call := [⟨"a", "f", "124"⟩, ⟨"b", "g", "35"⟩]

/-- Deltas of two calls, those without an id behind the call that began last. -/
def latestDeltas : List (String × ToolCall) :=
  [("a", ⟨"a", "function", ⟨"f", "1"⟩⟩), ("a", ⟨"", "", ⟨"", "2"⟩⟩),
    ("b", ⟨"b", "function", ⟨"g", "3"⟩⟩), ("a", ⟨"a", "", ⟨"", "4"⟩⟩), ("b", ⟨"", "", ⟨"", "5"⟩⟩)]

/-- Deltas of the two calls, those without an id behind one of the same call. -/
def ownDeltas : List (String × ToolCall) :=
  [("a", ⟨"a", "function", ⟨"f", "1"⟩⟩), ("b", ⟨"b", "function", ⟨"g", "35"⟩⟩),
    ("a", ⟨"a", "", ⟨"", "2"⟩⟩), ("a", ⟨"", "", ⟨"", "4"⟩⟩)]

private theorem latestDeltas_interleaved : Interleaved BeganLast twoCalls latestDeltas where
  nodup := by decide
  nonempty := by decide
  owned := by decide
  cut call hc := by
    obtain rfl | rfl : call = ⟨"a", "f", "124"⟩ ∨ call = ⟨"b", "g", "35"⟩ := by
      simpa [twoCalls] using hc
    · refine ⟨_, _, rfl, rfl, rfl, fun later hl => ?_, by decide⟩
      obtain rfl | rfl : later = ⟨"", "", ⟨"", "2"⟩⟩ ∨ later = ⟨"a", "", ⟨"", "4"⟩⟩ := by
        simpa using hl
      · exact .inr ⟨rfl, rfl⟩
      · exact .inl ⟨rfl, .inr rfl⟩
    · refine ⟨_, _, rfl, rfl, rfl, fun later hl => ?_, by decide⟩
      obtain rfl : later = ⟨"", "", ⟨"", "5"⟩⟩ := by simpa using hl
      exact .inr ⟨rfl, rfl⟩
  follows := forall_split (q := fun (before : List (String × ToolCall)) p => p.2.id = "" →
    BeganLast (before.map Prod.fst) p.1) (by decide)

/-- The five deltas in two chunks. -/
def latestChunks : List (LlmResultChunk Unit Nat) :=
  [⟨some (.text "x"), (latestDeltas.take 3).map Prod.snd, some 7, none⟩,
    ⟨some (.text "y"), (latestDeltas.drop 3).map Prod.snd, none, some "z"⟩]

theorem latestChunks_built :
    ∃ result, buildLlmResultFromChunks (fun _ => "") 0 "m" latestChunks = .ok result ∧
      (result.toolCalls.map ToolCall.call).Perm twoCalls ∧ result.content = .text "xy" ∧
      result.usage = 7 := by
  obtain ⟨result, hbuilt, hperm, -, hcontent, husage⟩ :=
    buildLlmResultFromChunks_interleaved (fun _ => "") 0 "m" latestDeltas_interleaved
      (show latestChunks.flatMap (·.toolCalls) = _ from rfl)
  exact ⟨result, hbuilt, hperm, hcontent.trans (by decide), husage⟩

/-- The delta without an id goes to the call that began last, though it is behind one of its own
call. -/
theorem ownDeltas_misplaced :
    Interleaved OwnBefore twoCalls ownDeltas ∧
      ∃ calls, increaseToolCall (fun _ => "") (ownDeltas.map Prod.snd) ⟨[], 0⟩ = .ok calls ∧
        calls.existing.map ToolCall.call = [⟨"a", "f", "12"⟩, ⟨"b", "g", "354"⟩] ∧
        ¬ (calls.existing.map ToolCall.call).Perm twoCalls := by
  constructor
  · constructor
    · decide
    · decide
    · decide
    · intro call hc
      obtain rfl | rfl : call = ⟨"a", "f", "124"⟩ ∨ call = ⟨"b", "g", "35"⟩ := by
        simpa [twoCalls] using hc
      · refine ⟨_, _, rfl, rfl, rfl, fun later hl => ?_, by decide⟩
        obtain rfl | rfl : later = ⟨"a", "", ⟨"", "2"⟩⟩ ∨ later = ⟨"", "", ⟨"", "4"⟩⟩ := by
          simpa using hl
        · exact .inl ⟨rfl, .inr rfl⟩
        · exact .inr ⟨rfl, rfl⟩
      · exact ⟨_, [], rfl, rfl, rfl, by simp, by decide⟩
    · exact forall_split (q := fun (before : List (String × ToolCall)) p => p.2.id = "" →
        OwnBefore (before.map Prod.fst) p.1) (by decide)
  · exact ⟨_, rfl, by decide, by decide⟩

end PlatformSpec.Runtime.LargeLanguageModel
