import PlatformSpec.Agent.StreamedText

/-!
# What a ReAct stream hands to `parse_action`

The rounds of the parser without what they yield: the values that `parse_action` is called on, in
order, read off the output alone. Whether the parser raises and which actions it yields follows
from them.
-/

namespace PlatformSpec.Agent

open Base

/-! ## Actions -/

/-- An object that is no action, or one with a name and an input of the types of an action. -/
def IsItems : Json → Prop
  | .obj fields =>
    match nameAndInput fields with
    | (.null, _) | (_, .null) | (.str _, .str _) | (.str _, .obj _) => True
    | _ => False
  | _ => False

/-- What `parse_action` does not raise on: a text that is no JSON, or an object (in a text, in a
list of its own, or as it is) that fits. -/
def Usable : Json → Prop
  | .str text =>
    match loadsLenient text.toList with
    | none => True
    | some action => IsItems (unwrap action)
  | action => IsItems (unwrap action)

/-- The action that a value handed to `parse_action` stands for. -/
def actionOf (j : Json) : Option Action :=
  match parseAction j with
  | .ok (.action action) => some action
  | _ => none

/-- The actions among what is yielded. -/
def actionsOf (chunks : List ReactChunk) : List Action :=
  chunks.filterMap fun
    | .action action => some action
    | .text _ => none

theorem actionsOf_append (chunks chunks' : List ReactChunk) :
    actionsOf (chunks ++ chunks') = actionsOf chunks ++ actionsOf chunks' :=
  List.filterMap_append

theorem parseItems_ok_iff (j : Json) : (∃ c, parseItems j = .ok c) ↔ IsItems j := by
  cases j with
  | obj fields =>
    rw [parseItems, IsItems]
    obtain ⟨name, input⟩ := nameAndInput fields
    cases name <;> cases input <;> simp [Action.ofJson, ActionInput.ofJson, Except.map]
  | _ => simp [parseItems, IsItems]

theorem parseAction_ok_iff (j : Json) : (∃ c, parseAction j = .ok c) ↔ Usable j := by
  cases j with
  | str text =>
    rw [parseAction, Usable]
    cases loadsLenient text.toList with
    | none => simp
    | some action => exact parseItems_ok_iff _
  | null => exact parseItems_ok_iff (unwrap .null)
  | bool b => exact parseItems_ok_iff (unwrap (.bool b))
  | num literal => exact parseItems_ok_iff (unwrap (.num literal))
  | arr elements => exact parseItems_ok_iff (unwrap (.arr elements))
  | obj fields => exact parseItems_ok_iff (unwrap (.obj fields))

theorem parseAction_error (j : Json) (h : ¬ Usable j) : ∃ e, parseAction j = .error e := by
  cases hj : parseAction j with
  | error e => exact ⟨e, rfl⟩
  | ok c => exact absurd ((parseAction_ok_iff j).mp ⟨c, hj⟩) h

/-! ## The rounds -/

namespace Parser

/-- The part for the third of three backticks, without what is yielded. -/
def fenceHanded (p : Parser) (delta : Char) : List Json × Flow :=
  if p.codeBlockDelimiterCount = 3 then
    if p.inCodeBlock then
      match extraJsonFromCodeBlock p.codeBlockCache with
      | [] => ([], .skip { p with lastCharacter := some delta })
      | actions => (actions, .go { p with
          lastCharacter := some delta
          codeBlockCache := []
          inCodeBlock := false
          codeBlockDelimiterCount := 0 })
    else ([], .go { p with inCodeBlock := true, codeBlockDelimiterCount := 0 })
  else ([], .go p)

/-- The parser when what was collected between braces has been parsed. -/
def cleared (p : Parser) (delta : Char) : Parser :=
  if p.gotJson then { p with
    gotJson := false
    lastCharacter := some delta
    jsonCache := []
    jsonQuoteCount := 0
    inJson := false }
  else p

/-- The part for JSON and the end of the round, without what is yielded. -/
def jsonHanded (p : Parser) (delta : Char) : List Json × Parser :=
  if p.inCodeBlock then ([], p)
  else
    match p.readBrace delta with
    | .skip p => ([], p)
    | .go p =>
      (if p.gotJson then [.str (String.ofList p.jsonCache)] else [],
        ((p.cleared delta).yieldCharacter delta).2)

/-- The rounds from the fence on, without what is yielded. -/
def finishHanded (p : Parser) (delta : Char) : List Json × Parser :=
  match p.fenceHanded delta with
  | (handed, .skip p) => (handed, p)
  | (handed, .go p) => (handed ++ (p.jsonHanded delta).1, (p.jsonHanded delta).2)

/-- A round, without what is yielded. -/
def stepHanded (p : Parser) (delta : Char) : List Json × Parser :=
  let p := (p.readBacktick delta).2
  if p.inCodeBlock = false ∧ p.inJson = false then
    match (p.readMarkers delta).2 with
    | .skip p => ([], p)
    | .go p => p.finishHanded delta
  else p.finishHanded delta

/-- The rounds of a text, without what is yielded. -/
def runHanded (p : Parser) : List Char → List Json × Parser
  | [] => ([], p)
  | delta :: rest =>
    let first := p.stepHanded delta
    (first.1 ++ (runHanded first.2 rest).1, (runHanded first.2 rest).2)

/-- What is left for `parse_action` after the last response. -/
def leftHanded (p : Parser) : List Json :=
  if p.jsonCache = [] then [] else [.str (String.ofList p.jsonCache)]

/-- What is handed to `parse_action` from a parser on. -/
def handed (p : Parser) (text : List Char) : List Json :=
  (p.runHanded text).1 ++ (p.runHanded text).2.leftHanded

theorem runHanded_append (p : Parser) (text text' : List Char) :
    p.runHanded (text ++ text') =
      ((p.runHanded text).1 ++ ((p.runHanded text).2.runHanded text').1,
        ((p.runHanded text).2.runHanded text').2) := by
  induction text generalizing p with
  | nil => rfl
  | cons delta rest ih =>
    rw [List.cons_append, runHanded, runHanded]
    dsimp only
    rw [ih, List.append_assoc]

theorem handed_append (p : Parser) (text text' : List Char) :
    p.handed (text ++ text') = (p.runHanded text).1 ++ (p.runHanded text).2.handed text' := by
  rw [handed, runHanded_append, handed, List.append_assoc]

end Parser

/-- The values that `parse_action` is called on for an output. -/
def handed (output : List Char) : List Json := ({} : Parser).handed output

/-! ## What is yielded follows from what is handed over -/

/-- A part of the loop, and another unless it raises. -/
def andThen {α β : Type} (r : List ReactChunk × Except String α)
    (f : α → List ReactChunk × Except String β) : List ReactChunk × Except String β :=
  match r with
  | (out, .error e) => (out, .error e)
  | (out, .ok a) => (out ++ (f a).1, (f a).2)

/-- A part of the loop does what is read off the values that it hands over. -/
structure Follows {α : Type} (r : List ReactChunk × Except String α) (handed : List Json × α) :
    Prop where
  ok : (∀ j ∈ handed.1, Usable j) → r.2 = .ok handed.2
  error : (∃ j ∈ handed.1, ¬ Usable j) → ∃ e, r.2 = .error e
  actions : (∀ j ∈ handed.1, Usable j) → actionsOf r.1 = handed.1.filterMap actionOf

namespace Follows

variable {α β : Type} {r : List ReactChunk × Except String α} {m : List Json × α}
  {out : List ReactChunk}

theorem text {p : α} (hout : actionsOf out = []) : Follows (out, .ok p) ([], p) :=
  ⟨fun _ => rfl, fun h => by simp at h, fun _ => hout⟩

theorem andThen {f : α → List ReactChunk × Except String β} {m' : List Json × β}
    (h : Follows r m) (h' : Follows (f m.2) m') :
    Follows (Agent.andThen r f) (m.1 ++ m'.1, m'.2) := by
  have hok (husable : ∀ j ∈ m.1, Usable j) :
      Agent.andThen r f = (r.1 ++ (f m.2).1, (f m.2).2) := by
    obtain ⟨out, result⟩ := r
    have hresult : result = .ok m.2 := h.ok husable
    rw [hresult]
    rfl
  constructor
  · intro husable
    obtain ⟨hm, hm'⟩ := List.forall_mem_append.mp husable
    rw [hok hm]
    exact h'.ok hm'
  · rintro ⟨j, hj, hno⟩
    by_cases hm : ∀ j ∈ m.1, Usable j
    · rcases List.mem_append.mp hj with hj | hj
      · exact absurd (hm j hj) hno
      · rw [hok hm]
        exact h'.error ⟨j, hj, hno⟩
    · push Not at hm
      obtain ⟨e, he⟩ := h.error hm
      obtain ⟨out, result⟩ := r
      have he : result = .error e := he
      rw [he]
      exact ⟨e, rfl⟩
  · intro husable
    obtain ⟨hm, hm'⟩ := List.forall_mem_append.mp husable
    rw [hok hm, actionsOf_append, h.actions hm, h'.actions hm', List.filterMap_append]

theorem map {result : Except String α} (f : α → β)
    (h : Follows (out, result) m) : Follows (out, result.map f) (m.1, f m.2) := by
  refine ⟨fun husable => ?_, fun hno => ?_, h.actions⟩
  · have hok : result = .ok m.2 := h.ok husable
    rw [hok]
    rfl
  · obtain ⟨e, he⟩ := h.error hno
    have he : result = .error e := he
    rw [he]
    exact ⟨e, rfl⟩

theorem text_append (hout : actionsOf out = []) (h : Follows r m) :
    Follows (out ++ r.1, r.2) m := by
  refine ⟨h.ok, h.error, fun husable => ?_⟩
  rw [actionsOf_append, hout, List.nil_append, h.actions husable]

end Follows

theorem parseActions_follows (js : List Json) : Follows (parseActions js) (js, ()) := by
  induction js with
  | nil => exact .text rfl
  | cons j js ih =>
    by_cases hj : Usable j
    · obtain ⟨c, hc⟩ := (parseAction_ok_iff j).mpr hj
      have hfirst : Follows ([c], (.ok () : Except String Unit)) ([j], ()) := by
        refine ⟨fun _ => rfl, fun h => by simp [hj] at h, fun _ => ?_⟩
        cases c <;> simp [actionsOf, actionOf, hc]
      have hboth := hfirst.andThen (f := fun _ => parseActions js) ih
      rw [parseActions, hc]
      exact hboth
    · obtain ⟨e, he⟩ := parseAction_error j hj
      have hcons : parseActions (j :: js) = ([], .error e) := by rw [parseActions, he]
      rw [hcons]
      exact ⟨fun h => absurd (h j (by simp)) hj, fun _ => ⟨e, rfl⟩,
        fun h => absurd (h j (by simp)) hj⟩

namespace Parser

variable (p : Parser) (delta : Char)

theorem readBacktick_text : actionsOf (p.readBacktick delta).1 = [] := by
  unfold readBacktick
  split
  · rfl
  · split
    · rfl
    · split <;> rfl

theorem flush_text (flushed : List Char) : actionsOf (p.flush flushed delta).1 = [] := by
  unfold flush
  split <;> rfl

theorem readThought_text (yieldDelta : Bool) :
    actionsOf (p.readThought delta yieldDelta).1 = [] := by
  unfold readThought
  split
  · rfl
  · rfl
  · dsimp only
    split
    · rw [actionsOf_append, flush_text]
      rfl
    · exact flush_text _ _ _

theorem readMarkers_text : actionsOf (p.readMarkers delta).1 = [] := by
  unfold readMarkers
  split
  · rfl
  · exact readThought_text _ _ _
  · dsimp only
    rw [actionsOf_append, flush_text, readThought_text]
    rfl

theorem yieldCharacter_text : actionsOf (p.yieldCharacter delta).1 = [] := by
  unfold yieldCharacter
  split <;> rfl

theorem readFence_follows : Follows (p.readFence delta) (p.fenceHanded delta) := by
  unfold readFence fenceHanded
  split
  · split
    · dsimp only
      cases extraJsonFromCodeBlock p.codeBlockCache with
      | nil => exact .text rfl
      | cons action actions => exact (parseActions_follows (action :: actions)).map _
    · exact .text rfl
  · exact .text rfl

theorem emitJson_follows : Follows (p.emitJson delta)
    (if p.gotJson then [.str (String.ofList p.jsonCache)] else [], p.cleared delta) := by
  unfold emitJson cleared
  cases p.gotJson with
  | false => exact .text rfl
  | true =>
    have hone := parseActions_follows [.str (String.ofList p.jsonCache)]
    rw [if_pos rfl, if_pos rfl, if_pos rfl]
    rw [parseActions] at hone
    cases hparse : parseAction (.str (String.ofList p.jsonCache)) with
    | error e =>
      rw [hparse] at hone
      exact ⟨fun h => (nomatch hone.ok h), fun _ => ⟨e, rfl⟩, fun h => (nomatch hone.ok h)⟩
    | ok c =>
      rw [hparse] at hone
      exact hone.map fun _ => _

theorem readJson_follows : Follows (p.readJson delta) (p.jsonHanded delta) := by
  unfold readJson jsonHanded
  split
  · exact .text rfl
  · cases p.readBrace delta with
    | skip q => exact .text rfl
    | go q =>
      have hyield (p : Parser) : Follows ((((p.yieldCharacter delta).1,
          .ok (p.yieldCharacter delta).2) : List ReactChunk × Except String Parser))
          ([], (p.yieldCharacter delta).2) := .text (yieldCharacter_text _ _)
      have hboth := (q.emitJson_follows delta).andThen
        (f := fun p => ((p.yieldCharacter delta).1, .ok (p.yieldCharacter delta).2)) (hyield _)
      rw [List.append_nil] at hboth
      dsimp only
      rcases hemit : q.emitJson delta with ⟨out, result⟩
      rw [hemit] at hboth
      cases result with
      | error e => exact hboth
      | ok q => exact hboth

theorem finishRound_follows : Follows (p.finishRound delta) (p.finishHanded delta) := by
  have hfence := p.readFence_follows delta
  unfold finishRound finishHanded
  generalize p.fenceHanded delta = handed at hfence ⊢
  obtain ⟨js, flow⟩ := handed
  have hboth : Follows (andThen (p.readFence delta) fun
      | .skip q => ([], .ok q)
      | .go q => q.readJson delta) (match (js, flow) with
        | (handed, .skip p) => (handed, p)
        | (handed, .go p) => (handed ++ (p.jsonHanded delta).1, (p.jsonHanded delta).2)) := by
    cases flow with
    | skip q =>
      have hskip := hfence.andThen (f := fun
        | .skip q => ([], .ok q)
        | .go q => q.readJson delta) (.text rfl)
      rw [List.append_nil] at hskip
      exact hskip
    | go q =>
      exact hfence.andThen (f := fun
        | .skip q => ([], .ok q)
        | .go q => q.readJson delta) (q.readJson_follows delta)
  rcases hread : p.readFence delta with ⟨out, result⟩
  rw [hread] at hboth
  rcases result with e | (q | q)
  · exact hboth
  · rw [andThen, List.append_nil] at hboth
    exact hboth
  · exact hboth

theorem step_follows : Follows (p.step delta) (p.stepHanded delta) := by
  unfold step stepHanded
  have hbacktick := p.readBacktick_text delta
  generalize p.readBacktick delta = r at hbacktick ⊢
  obtain ⟨out, q⟩ := r
  dsimp only at hbacktick ⊢
  split
  · have hmarkers := q.readMarkers_text delta
    generalize q.readMarkers delta = r at hmarkers ⊢
    obtain ⟨out', flow⟩ := r
    have htext : actionsOf (out ++ out') = [] := by
      rw [actionsOf_append, hbacktick, hmarkers]
      rfl
    cases flow with
    | skip q => exact .text htext
    | go q => exact (q.finishRound_follows delta).text_append htext
  · exact (q.finishRound_follows delta).text_append hbacktick

theorem run_follows (text : List Char) : Follows (p.run text) (p.runHanded text) := by
  induction text generalizing p with
  | nil => exact .text rfl
  | cons delta rest ih =>
    have hboth := (p.step_follows delta).andThen (f := fun p => p.run rest) (ih _)
    rw [run, runHanded]
    generalize p.step delta = r at hboth ⊢
    obtain ⟨out, result⟩ := r
    cases result with
    | error e => exact hboth
    | ok q => exact hboth

theorem finish_follows : Follows p.finish (p.leftHanded, ()) := by
  have hone := parseActions_follows [.str (String.ofList p.jsonCache)]
  have htext : actionsOf (if p.codeBlockCache = [] then [] else [chunk p.codeBlockCache]) = [] := by
    split <;> rfl
  unfold finish leftHanded
  dsimp only
  split
  · exact .text htext
  · have hlast := hone.text_append htext
    rw [parseActions] at hlast
    cases hparse : parseAction (.str (String.ofList p.jsonCache)) with
    | error e =>
      rw [hparse, List.append_nil] at hlast
      exact hlast
    | ok c =>
      rw [hparse] at hlast
      exact hlast

theorem runResponses_follows (contents : List (Option (List Char))) :
    Follows (p.runResponses contents) (p.handed (contents.filterMap id).flatten, ()) := by
  induction contents generalizing p with
  | nil => exact p.finish_follows
  | cons content contents ih =>
    cases content with
    | none => exact ih p
    | some content =>
      have hflat : ((some content :: contents).filterMap id).flatten =
          content ++ (contents.filterMap id).flatten := rfl
      have hboth := (p.run_follows content).andThen
        (f := fun p => p.runResponses contents) (ih _)
      rw [hflat, handed_append, runResponses]
      generalize p.run content = r at hboth ⊢
      obtain ⟨out, result⟩ := r
      cases result with
      | error e => exact hboth
      | ok q => exact hboth

end Parser

/-- What the parser does is read off the values that it hands over, however the output is cut. -/
theorem handleReactStreamOutput_follows {υ : Type} (llmResponse : List (LLMResultChunk υ)) :
    Follows (handleReactStreamOutput llmResponse) (handed (outputOf llmResponse), ()) := by
  have houtput : ((llmResponse.map (·.content)).filterMap id).flatten =
      outputOf llmResponse := by
    rw [List.filterMap_map]
    rfl
  rw [← houtput]
  exact Parser.runResponses_follows {} _

theorem no_exception_iff {υ : Type} (llmResponse : List (LLMResultChunk υ)) :
    (handleReactStreamOutput llmResponse).2 = .ok () ↔
      ∀ j ∈ handed (outputOf llmResponse), Usable j := by
  have hfollows := handleReactStreamOutput_follows llmResponse
  refine ⟨fun hok j hj => ?_, hfollows.ok⟩
  by_contra hno
  obtain ⟨e, he⟩ := hfollows.error ⟨j, hj, hno⟩
  rw [hok] at he
  cases he

end PlatformSpec.Agent
