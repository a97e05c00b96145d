import PlatformSpec.Base.Run
import PlatformSpec.Base.Text

/-!
# Speech for an answer

Models `core/base/tts/app_generator_tts_publisher.py`: one loop cuts the text of the messages into
pieces and submits them for synthesis, another one puts the audio of the futures into the queue that
the player reads. The loops and the player take their steps in any order. A chunk of audio stands
for its Base64 text.
-/

namespace PlatformSpec.Response.TtsPublisher

open Base

/-- An item of a list of contents: `TextPromptMessageContent`, or another one. -/
inductive ContentPart where
  | text (data : List Char)
  | other
  deriving DecidableEq

/-- The content of a message that is not `None`. -/
inductive MessageContent where
  | text (content : List Char)
  | parts (contentList : List ContentPart)
  deriving DecidableEq

/-- `outputs.get("output", "")`. -/
inductive Output where
  | text (output : List Char)
  | other
  deriving DecidableEq

/-- The event of a message: of an agent message or an LLM chunk, of a text chunk, of a node that
has succeeded, or another one. -/
inductive Event where
  | chunk (content : Option MessageContent)
  | textChunk (text : List Char)
  | nodeSucceeded (outputs : Option Output)
  | other
  deriving DecidableEq

/-- The text of a content part. -/
def ContentPart.data : ContentPart → List Char
  | .text data => data
  | .other => []

/-- The text that a message adds, unless the loop goes on with the next one. -/
def addedText : Event → Option (List Char)
  | .chunk none => none
  | .chunk (some (.text [])) => none
  | .chunk (some (.text (c :: content))) => some (c :: content)
  | .chunk (some (.parts [])) => none
  | .chunk (some (.parts (part :: contentList))) =>
    some ((part :: contentList).flatMap ContentPart.data)
  | .textChunk text => some text
  | .nodeSucceeded none => none
  | .nodeSucceeded (some (.text output)) => some output
  | .nodeSucceeded (some .other) => some []
  | .other => some []

/-- The pattern `[。.!?]`. -/
def isSentenceEnd (c : Char) : Bool := ['。', '.', '!', '?'].contains c

/-- `_extract_sentence`: the sentences, and what is behind them. -/
def extractSentence : List Char → List (List Char) × List Char
  | [] => ([], [])
  | c :: text =>
    let (sentences, rest) := extractSentence text
    if isSentenceEnd c then ([c] :: sentences, rest)
    else
      match sentences with
      | [] => ([], c :: rest)
      | sentence :: sentences => ((c :: sentence) :: sentences, rest)

/-- What the result of a future holds: chunks of audio, and whether an exception ends them. -/
structure Synthesis (β : Type) where
  audio : List β
  raises : Bool
  deriving DecidableEq

/-- `AudioTrunk`. -/
inductive AudioTrunk (β : Type) where
  | responding (audio : β)
  | finish
  deriving DecidableEq

/-- Where `_process_future` is. -/
inductive Processing (β : Type) where
  | waiting
  | iterating (audio : List β) (raises : Bool)
  | ended
  deriving DecidableEq

/-- `AppGeneratorTTSPublisher` with its queues, whether `_runtime` is running, what it has submitted
with the futures, and what the player has got. -/
structure Publisher (β : Type) where
  msgQueue : List (Option Event)
  msgText : List Char
  maxSentence : Nat
  running : Bool
  submitted : List (List Char × Synthesis β)
  futureQueue : List (Option (Synthesis β))
  processing : Processing β
  audioQueue : List (AudioTrunk β)
  delivered : List (AudioTrunk β)
  deriving DecidableEq

/-- A publisher that has been made. -/
def start (β : Type) : Publisher β where
  msgQueue := []
  msgText := []
  maxSentence := 2
  running := true
  submitted := []
  futureQueue := []
  processing := .waiting
  audioQueue := []
  delivered := []

/-- A step of one of the parties: `publish`, a turn of `_runtime` or of `_process_future`, and
`check_and_get_audio` where it gets something new. -/
inductive Action where
  | publish (message : Option Event)
  | runtime
  | processFuture
  | checkAndGetAudio
  deriving DecidableEq

section

variable {β : Type} (invokeTts : Nat → List Char → Synthesis β)

/-- `_invoice_tts` for a piece, by its number and text. -/
def invoiceTts (n : Nat) (textContent : List Char) : Synthesis β :=
  if textContent.all isSpace then ⟨[], false⟩ else invokeTts n (stripBoth isSpace textContent)

/-- `executor.submit`, and the future goes to its queue. -/
def submit (p : Publisher β) (textContent : List Char) : Publisher β :=
  let future := invoiceTts invokeTts p.submitted.length textContent
  { p with
    submitted := p.submitted ++ [(textContent, future)]
    futureQueue := p.futureQueue ++ [some future] }

/-- A turn of `_runtime` for the end marker. -/
def closeText (p : Publisher β) : Publisher β :=
  let p :=
    if p.msgText ≠ [] ∧ stripBoth isSpace p.msgText ≠ [] then submit invokeTts p p.msgText else p
  { p with running := false, futureQueue := p.futureQueue ++ [none] }

/-- A turn of `_runtime` for an event. -/
def addEvent (p : Publisher β) (event : Event) : Publisher β :=
  match addedText event with
  | none => p
  | some text =>
    let (sentences, rest) := extractSentence (p.msgText ++ text)
    if min p.maxSentence 7 ≤ sentences.length then
      { submit invokeTts p sentences.flatten with
        maxSentence := p.maxSentence + 1
        msgText := rest }
    else { p with msgText := p.msgText ++ text }

/-- A turn of `_process_future`: a future is taken, or a chunk of its audio put on, or its end
reached. -/
def processTurn (p : Publisher β) : Option (Publisher β) :=
  match p.processing with
  | .waiting =>
    match p.futureQueue with
    | [] => none
    | none :: queue =>
      some { p with
        futureQueue := queue
        processing := .ended
        audioQueue := p.audioQueue ++ [.finish] }
    | some future :: queue =>
      some { p with futureQueue := queue, processing := .iterating future.audio future.raises }
  | .iterating (audio :: rest) raises =>
    some { p with
      processing := .iterating rest raises
      audioQueue := p.audioQueue ++ [.responding audio] }
  | .iterating [] false => some { p with processing := .waiting }
  -- the exception is logged and the loop is left
  | .iterating [] true =>
    some { p with processing := .ended, audioQueue := p.audioQueue ++ [.finish] }
  | .ended => none

/-- A turn of `_runtime`. -/
def runtimeTurn (p : Publisher β) : Option (Publisher β) :=
  if p.running then
    match p.msgQueue with
    | [] => none
    | none :: queue => some (closeText invokeTts { p with msgQueue := queue })
    | some event :: queue => some (addEvent invokeTts { p with msgQueue := queue } event)
  else none

/-- `check_and_get_audio`, where it gets something new. -/
def checkAndGetAudio (p : Publisher β) : Option (Publisher β) :=
  match p.delivered.getLast?, p.audioQueue with
  -- once it has finished, the last event is returned over and over
  | some .finish, _ => none
  | _, [] => none
  | _, audio :: queue => some { p with audioQueue := queue, delivered := p.delivered ++ [audio] }

/-- One step of one party, if it can make one. -/
def step (p : Publisher β) : Action → Option (Publisher β)
  | .publish message => some { p with msgQueue := p.msgQueue ++ [message] }
  | .runtime => runtimeTurn invokeTts p
  | .processFuture => processTurn p
  | .checkAndGetAudio => checkAndGetAudio p

end

/-! ## Runs -/

/-- The messages that are published. -/
def published : List Action → List (Option Event)
  | [] => []
  | .publish message :: as => message :: published as
  | .runtime :: as => published as
  | .processFuture :: as => published as
  | .checkAndGetAudio :: as => published as

/-- The text of some events. -/
def publishedText (events : List Event) : List Char :=
  events.flatMap fun event => (addedText event).getD []

section

variable {β : Type} (invokeTts : Nat → List Char → Synthesis β)

/-- No party can make a step. -/
def Quiet (p : Publisher β) : Prop :=
  ∀ a, (∀ message, a ≠ .publish message) → step invokeTts p a = none

/-- The texts that have been submitted. -/
def Publisher.pieces (p : Publisher β) : List Char := p.submitted.flatMap Prod.fst

/-- The audio of all pieces, in order. -/
def Publisher.allAudio (p : Publisher β) : List β := p.submitted.flatMap fun s => s.2.audio

/-- No piece whose synthesis raises comes before a piece with audio. -/
def Publisher.FailsLast (p : Publisher β) : Prop :=
  ∀ before s after, p.submitted = before ++ s :: after → s.2.raises = true →
    (after.flatMap fun t => t.2.audio) = []

end

section

variable {β : Type} {invokeTts : Nat → List Char → Synthesis β} {p p' : Publisher β}

theorem quiet_iff : Quiet invokeTts p ↔
    runtimeTurn invokeTts p = none ∧ processTurn p = none ∧ checkAndGetAudio p = none := by
  constructor
  · intro h
    exact ⟨h .runtime fun _ => Action.noConfusion, h .processFuture fun _ => Action.noConfusion,
      h .checkAndGetAudio fun _ => Action.noConfusion⟩
  · rintro ⟨hruntime, hprocess, htake⟩ a ha
    cases a with
    | publish message => exact absurd rfl (ha message)
    | runtime => exact hruntime
    | processFuture => exact hprocess
    | checkAndGetAudio => exact htake

/-! ### The text -/

private theorem extractSentence_flatten (text : List Char) :
    (extractSentence text).1.flatten ++ (extractSentence text).2 = text := by
  induction text with
  | nil => rfl
  | cons c text ih =>
    rw [extractSentence]
    cases hrest : extractSentence text with | mk sentences rest =>
    rw [hrest] at ih
    by_cases hc : isSentenceEnd c = true
    · simpa [hc] using ih
    · cases sentences with
      | nil => simpa [hc] using ih
      | cons sentence sentences => simpa [hc] using ih

theorem published_append (as : List Action) (a : Action) :
    published (as ++ [a]) = published as ++ published [a] := by
  induction as with
  | nil => rfl
  | cons b as ih =>
    cases b with
    | publish message => exact congrArg (message :: ·) ih
    | runtime => exact ih
    | processFuture => exact ih
    | checkAndGetAudio => exact ih

/-- What has been submitted and what is held back are the text that has been handled, but for a
blank remainder at the end. -/
private structure TextKept (p : Publisher β) (handled : List (Option Event)) : Prop where
  running : p.running = true →
    ∃ events, handled = events.map some ∧ publishedText events = p.pieces ++ p.msgText
  closed : p.running = false →
    ∃ events rest, handled = events.map some ++ [none] ∧
      publishedText events = p.pieces ++ rest ∧ ∀ c ∈ rest, isSpace c = true

variable {handled : List (Option Event)}

private theorem TextKept.addEvent {event : Event}
    (h : TextKept p handled) (hrunning : p.running = true) :
    TextKept (addEvent invokeTts p event) (handled ++ [some event]) := by
  obtain ⟨events, rfl, htext⟩ := h.running hrunning
  have hevents : publishedText (events ++ [event]) =
      p.pieces ++ (p.msgText ++ (addedText event).getD []) := by
    rw [publishedText, List.flatMap_append, ← List.append_assoc, ← htext]
    simp [publishedText]
  -- whatever the branch, the text is the pieces and what is held back
  have keep : ∀ p' : Publisher β, p'.running = true →
      p'.pieces ++ p'.msgText = p.pieces ++ (p.msgText ++ (addedText event).getD []) →
      TextKept p' (events.map some ++ [some event]) := by
    intro p' hp' he
    refine ⟨fun _ => ⟨events ++ [event], by simp, hevents.trans he.symm⟩, fun hclosed => ?_⟩
    rw [hp'] at hclosed
    cases hclosed
  unfold TtsPublisher.addEvent
  cases hadded : addedText event with
  | none => exact keep p hrunning (by rw [hadded]; simp)
  | some text =>
    rw [hadded] at keep
    have hflatten := extractSentence_flatten (p.msgText ++ text)
    simp only
    split
    · refine keep _ hrunning ?_
      simp only [submit, Publisher.pieces, List.flatMap_append, List.append_assoc]
      simpa using hflatten
    · exact keep _ hrunning rfl

theorem isSpace_of_stripBoth {text : List Char} (h : stripBoth isSpace text = []) :
    ∀ c ∈ text, isSpace c = true := by
  intro c hc
  by_contra hne
  obtain ⟨front, back, rfl⟩ := List.append_of_mem hc
  have hc : isSpace c = false := by simpa using hne
  rw [← List.singleton_append, ← List.append_assoc,
    stripBoth_append (List.cons_ne_nil c []) (by simpa using hc) (by simpa using hc)] at h
  simp at h

private theorem TextKept.closeText (h : TextKept p handled) (hrunning : p.running = true) :
    TextKept (closeText invokeTts p) (handled ++ [none]) := by
  obtain ⟨events, rfl, htext⟩ := h.running hrunning
  unfold TtsPublisher.closeText
  constructor
  · intro hr
    cases hr
  · intro _
    split
    next hsubmit =>
      refine ⟨events, [], rfl, ?_, by simp⟩
      simpa [submit, Publisher.pieces] using htext
    next hblank =>
      refine ⟨events, p.msgText, rfl, htext, fun c hc => ?_⟩
      refine isSpace_of_stripBoth (Decidable.of_not_not fun hne => hblank ⟨?_, hne⟩) c hc
      exact List.ne_nil_of_mem hc

private theorem msgQueue_closeText (p : Publisher β) :
    (closeText invokeTts p).msgQueue = p.msgQueue := by
  unfold closeText
  simp only
  split <;> rfl

private theorem msgQueue_addEvent (p : Publisher β) (event : Event) :
    (addEvent invokeTts p event).msgQueue = p.msgQueue := by
  unfold addEvent
  split
  · rfl
  · simp only
    split <;> rfl

theorem runtimeTurn_eq_some (h : runtimeTurn invokeTts p = some p') :
    p.running = true ∧ ((∃ queue, p.msgQueue = none :: queue ∧
        p' = closeText invokeTts { p with msgQueue := queue }) ∨
      ∃ event queue, p.msgQueue = some event :: queue ∧
        p' = addEvent invokeTts { p with msgQueue := queue } event) := by
  unfold runtimeTurn at h
  split at h
  next hrunning =>
    refine ⟨hrunning, ?_⟩
    split at h
    next => cases h
    next queue hqueue => exact .inl ⟨queue, hqueue, (Option.some.inj h).symm⟩
    next event queue hqueue => exact .inr ⟨event, queue, hqueue, (Option.some.inj h).symm⟩
  next => cases h

theorem checkAndGetAudio_eq_some (h : checkAndGetAudio p = some p') :
    ∃ audio queue, p.audioQueue = audio :: queue ∧
      p' = { p with audioQueue := queue, delivered := p.delivered ++ [audio] } := by
  unfold checkAndGetAudio at h
  split at h
  next => cases h
  next => cases h
  next audio queue hqueue _ => exact ⟨audio, queue, hqueue, (Option.some.inj h).symm⟩

private theorem processTurn_text (h : processTurn p = some p') :
    p'.msgQueue = p.msgQueue ∧ p'.running = p.running ∧ p'.submitted = p.submitted ∧
      p'.msgText = p.msgText := by
  unfold processTurn at h
  split at h
  · split at h
    · cases h
    · cases h
      exact ⟨rfl, rfl, rfl, rfl⟩
    · cases h
      exact ⟨rfl, rfl, rfl, rfl⟩
  · cases h
    exact ⟨rfl, rfl, rfl, rfl⟩
  · cases h
    exact ⟨rfl, rfl, rfl, rfl⟩
  · cases h
    exact ⟨rfl, rfl, rfl, rfl⟩
  · cases h

/-- What has been published has been handled or is in the queue. -/
private def TextOf (as : List Action) (p : Publisher β) : Prop :=
  ∃ handled, published as = handled ++ p.msgQueue ∧ TextKept p handled

private theorem TextOf.step {as : List Action} {a : Action}
    (h : TextOf as p) (hstep : step invokeTts p a = some p') : TextOf (as ++ [a]) p' := by
  obtain ⟨handled, hpublished, hkept⟩ := h
  unfold TextOf
  rw [published_append, hpublished]
  cases a with
  | publish message =>
    cases hstep
    exact ⟨handled, by simp [published], hkept.running, hkept.closed⟩
  | runtime =>
    obtain ⟨hrunning, ⟨queue, hqueue, rfl⟩ | ⟨event, queue, hqueue, rfl⟩⟩ :=
      runtimeTurn_eq_some hstep
    · have hkept : TextKept { p with msgQueue := queue } handled := ⟨hkept.running, hkept.closed⟩
      refine ⟨handled ++ [none], ?_, hkept.closeText hrunning⟩
      simp [published, hqueue, msgQueue_closeText]
    · have hkept : TextKept { p with msgQueue := queue } handled := ⟨hkept.running, hkept.closed⟩
      refine ⟨handled ++ [some event], ?_, hkept.addEvent hrunning⟩
      simp [published, hqueue, msgQueue_addEvent]
  | processFuture =>
    obtain ⟨hqueue, hrunning, hsubmitted, htext⟩ := processTurn_text hstep
    refine ⟨handled, by simp [published, hqueue], ?_⟩
    constructor
    · rw [hrunning, Publisher.pieces, hsubmitted, htext]
      exact hkept.running
    · rw [hrunning, Publisher.pieces, hsubmitted]
      exact hkept.closed
  | checkAndGetAudio =>
    obtain ⟨audio, queue, -, rfl⟩ := checkAndGetAudio_eq_some hstep
    exact ⟨handled, by simp [published], hkept.running, hkept.closed⟩

/-! ### The audio -/

/-- What the loop over the futures puts on for a queue. -/
private def played : List (Option (Synthesis β)) → List (AudioTrunk β)
  | [] => []
  | none :: _ => [.finish]
  | some future :: queue =>
    future.audio.map .responding ++ if future.raises then [.finish] else played queue

/-- The loop gets to the end of the queue. -/
private def IsOpen (queue : List (Option (Synthesis β))) : Prop :=
  ∀ slot ∈ queue, ∃ future, slot = some future ∧ future.raises = false

/-- What is still to be put on. -/
private def toCome (p : Publisher β) : List (AudioTrunk β) :=
  match p.processing with
  | .waiting => played p.futureQueue
  | .iterating audio raises =>
    audio.map .responding ++ if raises then [.finish] else played p.futureQueue
  | .ended => []

/-- The loop will get to what is added to the queue. -/
private def GetsToEnd (p : Publisher β) : Prop :=
  match p.processing with
  | .waiting => IsOpen p.futureQueue
  | .iterating _ raises => raises = false ∧ IsOpen p.futureQueue
  | .ended => False

/-- All that has been put into the queue of futures. -/
private def putFutures (p : Publisher β) : List (Option (Synthesis β)) :=
  p.submitted.map (fun s => some s.2) ++ if p.running then [] else [none]

/-- What has been put on and what is to come is what is played for all futures. -/
private structure AudioKept (p : Publisher β) : Prop where
  kept : p.delivered ++ p.audioQueue ++ toCome p = played (putFutures p)
  reached : GetsToEnd p ↔ IsOpen (putFutures p)

private theorem isOpen_append (front back : List (Option (Synthesis β))) :
    IsOpen (front ++ back) ↔ IsOpen front ∧ IsOpen back := by
  simp only [IsOpen, List.mem_append, or_imp, forall_and]

private theorem isOpen_cons (future : Synthesis β) (queue : List (Option (Synthesis β))) :
    IsOpen (some future :: queue) ↔ future.raises = false ∧ IsOpen queue := by
  simp [IsOpen]

private theorem not_isOpen_none (queue : List (Option (Synthesis β))) :
    ¬ IsOpen (none :: queue) := by
  simp [IsOpen]

variable {front : List (Option (Synthesis β))}

private theorem played_append_of_isOpen (h : IsOpen front) (back : List (Option (Synthesis β))) :
      played (front ++ back) = played front ++ played back := by
  induction front with
  | nil => rfl
  | cons slot front ih =>
    obtain ⟨future, rfl, hraises⟩ := h slot List.mem_cons_self
    simp [played, hraises, ih ((isOpen_cons _ _).mp h).2]

private theorem played_append_of_not_isOpen
    (h : ¬ IsOpen front) (back : List (Option (Synthesis β))) :
    played (front ++ back) = played front := by
  induction front with
  | nil => exact absurd (by simp [IsOpen]) h
  | cons slot front ih =>
    cases slot with
    | none => rfl
    | some future =>
      cases hraises : future.raises with
      | true => simp [played, hraises]
      | false =>
        rw [isOpen_cons, not_and] at h
        simp [played, hraises, ih (h hraises)]

private theorem AudioKept.put (added : List (Option (Synthesis β)))
    (h : AudioKept p) (hprocessing : p'.processing = p.processing)
    (hdelivered : p'.delivered = p.delivered) (haudio : p'.audioQueue = p.audioQueue)
    (hqueue : p'.futureQueue = p.futureQueue ++ added)
    (hput : putFutures p' = putFutures p ++ added) : AudioKept p' := by
  have hgets : GetsToEnd p' ↔ GetsToEnd p ∧ IsOpen added := by
    unfold GetsToEnd
    rw [hprocessing, hqueue]
    cases p.processing with
    | waiting => exact isOpen_append _ _
    | iterating audio raises => simp only [isOpen_append, and_assoc]
    | ended => simp
  have hcome : (GetsToEnd p → toCome p' = toCome p ++ played added) ∧
      (¬ GetsToEnd p → toCome p' = toCome p) := by
    unfold GetsToEnd toCome
    rw [hprocessing, hqueue]
    cases p.processing with
    | waiting => exact ⟨fun hopen => played_append_of_isOpen hopen _,
        fun hopen => played_append_of_not_isOpen hopen _⟩
    | iterating audio raises =>
      cases raises with
      | true => simp
      | false =>
        constructor
        · rintro ⟨-, hopen⟩
          simp [played_append_of_isOpen hopen]
        · intro hopen
          simp [played_append_of_not_isOpen fun h => hopen ⟨rfl, h⟩]
    | ended => simp
  constructor
  · rw [hdelivered, haudio, hput]
    by_cases hopen : GetsToEnd p
    · rw [hcome.1 hopen, ← List.append_assoc, h.kept,
        played_append_of_isOpen (h.reached.mp hopen)]
    · rw [hcome.2 hopen, h.kept, played_append_of_not_isOpen (mt h.reached.mpr hopen)]
  · rw [hgets, hput, isOpen_append, h.reached]

private theorem AudioKept.submit (h : AudioKept p) (hrunning : p.running = true)
    (text : List Char) : AudioKept (submit invokeTts p text) :=
  AudioKept.put [some (invoiceTts invokeTts p.submitted.length text)] h rfl rfl rfl rfl
    (by simp [putFutures, TtsPublisher.submit, hrunning])

private theorem AudioKept.close (h : AudioKept p) (hrunning : p.running = true) :
    AudioKept { p with running := false, futureQueue := p.futureQueue ++ [none] } :=
  AudioKept.put [none] h rfl rfl rfl rfl (by simp [putFutures, hrunning])

private theorem AudioKept.congr (h : AudioKept p)
    (hprocessing : p'.processing = p.processing) (hdelivered : p'.delivered = p.delivered)
    (haudio : p'.audioQueue = p.audioQueue) (hqueue : p'.futureQueue = p.futureQueue)
    (hsubmitted : p'.submitted = p.submitted) (hrunning : p'.running = p.running) :
    AudioKept p' :=
  AudioKept.put [] h hprocessing hdelivered haudio (by simp [hqueue])
    (by simp [putFutures, hsubmitted, hrunning])

private theorem AudioKept.process (h : AudioKept p)
    (hstep : processTurn p = some p') : AudioKept p' := by
  -- the history does not change, so what is put on and to come and the reach must not either
  have same : putFutures p' = putFutures p →
      p'.delivered ++ p'.audioQueue ++ toCome p' = p.delivered ++ p.audioQueue ++ toCome p →
      (GetsToEnd p' ↔ GetsToEnd p) → AudioKept p' := by
    intro hput hkept hgets
    exact ⟨by rw [hkept, hput, h.kept], by rw [hgets, hput, h.reached]⟩
  unfold processTurn at hstep
  split at hstep
  next hwaiting =>
    split at hstep
    next => cases hstep
    next queue hqueue =>
      cases hstep
      exact same rfl (by simp [toCome, hwaiting, hqueue, played])
        (by simp [GetsToEnd, hwaiting, hqueue, not_isOpen_none])
    next future queue hqueue =>
      cases hstep
      exact same rfl (by simp [toCome, hwaiting, hqueue, played])
        (by simp [GetsToEnd, hwaiting, hqueue, isOpen_cons])
  next audio rest raises hiterating =>
    cases hstep
    exact same rfl (by simp [toCome, hiterating]) (by simp [GetsToEnd, hiterating])
  next hiterating =>
    cases hstep
    exact same rfl (by simp [toCome, hiterating]) (by simp [GetsToEnd, hiterating])
  next hiterating =>
    cases hstep
    exact same rfl (by simp [toCome, hiterating]) (by simp [GetsToEnd, hiterating])
  next => cases hstep

private theorem AudioKept.step {a : Action} (h : AudioKept p)
    (hstep : step invokeTts p a = some p') : AudioKept p' := by
  cases a with
  | publish message =>
    cases hstep
    exact h.congr rfl rfl rfl rfl rfl rfl
  | runtime =>
    obtain ⟨hrunning, ⟨queue, -, rfl⟩ | ⟨event, queue, -, rfl⟩⟩ := runtimeTurn_eq_some hstep
    · have hq : AudioKept { p with msgQueue := queue } := h.congr rfl rfl rfl rfl rfl rfl
      unfold closeText
      simp only
      split
      · exact (hq.submit hrunning p.msgText).close hrunning
      · exact hq.close hrunning
    · have hq : AudioKept { p with msgQueue := queue } := h.congr rfl rfl rfl rfl rfl rfl
      unfold addEvent
      split
      next => exact hq
      next text _ =>
        simp only
        split
        · exact (hq.submit hrunning _).congr rfl rfl rfl rfl rfl rfl
        · exact hq.congr rfl rfl rfl rfl rfl rfl
  | processFuture => exact h.process hstep
  | checkAndGetAudio =>
    obtain ⟨audio, queue, hqueue, rfl⟩ := checkAndGetAudio_eq_some hstep
    refine ⟨?_, h.reached⟩
    have hkept := h.kept
    rw [hqueue] at hkept
    simpa [toCome, putFutures] using hkept

theorem of_responding_append {audio : List β} {tail front back : List (AudioTrunk β)}
    (h : audio.map .responding ++ tail = front ++ .finish :: back) :
    ∃ front', tail = front' ++ .finish :: back := by
  induction audio generalizing front with
  | nil => exact ⟨front, h⟩
  | cons a audio ih =>
    cases front with
    | nil => simp at h
    | cons b front => exact ih (List.cons.inj h).2

private theorem played_finish {futures : List (Option (Synthesis β))}
    {front back : List (AudioTrunk β)} (h : played futures = front ++ .finish :: back) :
    back = [] := by
  -- a finish marker alone is the last thing
  have single : ∀ front back : List (AudioTrunk β), [.finish] = front ++ .finish :: back →
      back = [] := by
    intro front back h
    have hlength := congrArg List.length h
    simp only [List.length_append, List.length_cons, List.length_nil] at hlength
    exact List.eq_nil_of_length_eq_zero (by omega)
  induction futures generalizing front with
  | nil => simp [played] at h
  | cons slot futures ih =>
    cases slot with
    | none => exact single front back h
    | some future =>
      rw [played] at h
      obtain ⟨front', hfront⟩ := of_responding_append h
      split at hfront
      · exact single front' back hfront
      · exact ih hfront

private theorem played_eq_iff (pieces : List (List Char × Synthesis β)) :
    played (pieces.map (fun s => some s.2) ++ [none]) =
        (pieces.flatMap fun s => s.2.audio).map .responding ++ [.finish] ↔
      ∀ before s after, pieces = before ++ s :: after → s.2.raises = true →
        (after.flatMap fun t => t.2.audio) = [] := by
  induction pieces with
  | nil => simp [played]
  | cons s pieces ih =>
    rw [List.map_cons, List.cons_append, played, List.flatMap_cons, List.map_append,
      List.append_assoc, List.append_cancel_left_eq]
    -- the first piece, and those behind it
    have hsplit : (∀ before t after, s :: pieces = before ++ t :: after → t.2.raises = true →
          (after.flatMap fun u => u.2.audio) = []) ↔
        (s.2.raises = true → (pieces.flatMap fun u => u.2.audio) = []) ∧
          ∀ before t after, pieces = before ++ t :: after → t.2.raises = true →
            (after.flatMap fun u => u.2.audio) = [] := by
      constructor
      · intro h
        exact ⟨h [] s pieces rfl, fun before t after he =>
          h (s :: before) t after (by rw [he]; rfl)⟩
      · rintro ⟨hfirst, hrest⟩ before t after he
        cases before with
        | nil =>
          obtain ⟨rfl, rfl⟩ := List.cons.inj he
          exact hfirst
        | cons u before => exact hrest before t after (List.cons.inj he).2
    rw [hsplit, ← ih]
    cases hraises : s.2.raises with
    | false => simp
    | true =>
      constructor
      · intro h
        have hnone : (pieces.flatMap fun u => u.2.audio) = [] := by
          cases haudio : pieces.flatMap fun u => u.2.audio with
          | nil => rfl
          | cons a audio => simp [haudio] at h
        refine ⟨fun _ => hnone, ih.mpr fun before t after he _ => ?_⟩
        rw [he, List.flatMap_append, List.flatMap_cons] at hnone
        exact (List.append_eq_nil_iff.mp (List.append_eq_nil_iff.mp hnone).2).2
      · rintro ⟨hnone, -⟩
        simp [hnone rfl]

theorem eq_of_map_some {events events' : List Event} {queue : List (Option Event)}
    (h : events.map some ++ [none] = events'.map some ++ none :: queue) : events = events' := by
  induction events generalizing events' with
  | nil =>
    cases events' with
    | nil => rfl
    | cons event events' => simp at h
  | cons event events ih =>
    cases events' with
    | nil => simp at h
    | cons event' events' =>
      simp only [List.map_cons, List.cons_append, List.cons.injEq, Option.some.injEq] at h
      rw [h.1, ih h.2]

private theorem delivered_of_quiet (h : AudioKept p) (hclosed : p.running = false)
    (hquiet : Quiet invokeTts p) :
    p.delivered = played (p.submitted.map (fun s => some s.2) ++ [none]) := by
  have hput : putFutures p = p.submitted.map (fun s => some s.2) ++ [none] := by
    simp [putFutures, hclosed]
  have hnot : ¬ GetsToEnd p := by
    rw [h.reached, hput, isOpen_append]
    exact fun ho => not_isOpen_none [] ho.2
  obtain ⟨-, hprocess, htake⟩ := quiet_iff.mp hquiet
  have hcome : toCome p = [] := by
    unfold processTurn at hprocess
    unfold toCome
    unfold GetsToEnd at hnot
    split at hprocess
    next hwaiting =>
      split at hprocess
      next hqueue =>
        rw [hwaiting, hqueue] at hnot
        exact absurd (by simp [IsOpen]) hnot
      next => cases hprocess
      next => cases hprocess
    next => cases hprocess
    next => cases hprocess
    next => cases hprocess
    next hended => rw [hended]
  have hkept := h.kept
  rw [hcome, List.append_nil, hput] at hkept
  have hempty : p.audioQueue = [] := by
    unfold checkAndGetAudio at htake
    split at htake
    next hlast =>
      obtain ⟨front, hfront⟩ := List.getLast?_eq_some_iff.mp hlast
      rw [hfront, List.append_assoc] at hkept
      exact played_finish hkept.symm
    next hqueue _ => exact hqueue
    next => cases htake
  rw [← hkept, hempty, List.append_nil]

/-! ### Quiet states -/

/-- How many turns the future at hand still takes. -/
private def Processing.left : Processing β → Nat
  | .waiting => 0
  | .iterating audio _ => audio.length + 1
  | .ended => 0

end

/-- When no party can make a step after the end marker has been published, what has been submitted
is the text but for a blank remainder. What has been delivered is all the audio in that order and
one finish marker, if and only if no piece that fails comes before one with audio. -/
theorem submitted_and_delivered {β : Type} (invokeTts : Nat → List Char → Synthesis β)
    (events : List Event) {as : List Action} {p : Publisher β}
    (hpublished : published as = events.map some ++ [none])
    (hrun : run (step invokeTts) (start β) as = some p) (hquiet : Quiet invokeTts p) :
    (∃ rest, publishedText events = p.pieces ++ rest ∧ ∀ c ∈ rest, isSpace c = true) ∧
      (p.delivered = p.allAudio.map .responding ++ [.finish] ↔ p.FailsLast) := by
  obtain ⟨⟨handled, hhandled, hkept⟩, haudio⟩ : TextOf as p ∧ AudioKept p := by
    refine run_trace_induction (P := fun as p => TextOf as p ∧ AudioKept p) ⟨?_, ?_⟩
      (fun as m a m' _ hm hst => ⟨hm.1.step hst, hm.2.step hst⟩) hrun
    · exact ⟨[], rfl, fun _ => ⟨[], rfl, rfl⟩, fun h => by cases h⟩
    · exact ⟨rfl, by simp [GetsToEnd, start, putFutures]⟩
  rw [hpublished] at hhandled
  have hclosed : p.running = false := by
    by_contra hne
    have hrunning : p.running = true := by simpa using hne
    obtain ⟨events', rfl, -⟩ := hkept.running hrunning
    have hturn := (quiet_iff.mp hquiet).1
    have hqueue : p.msgQueue = [] := by
      rw [runtimeTurn, if_pos hrunning] at hturn
      split at hturn
      next hqueue => exact hqueue
      next => cases hturn
      next => cases hturn
    rw [hqueue, List.append_nil] at hhandled
    have hmem : none ∈ events'.map some := by rw [← hhandled]; simp
    simp at hmem
  obtain ⟨events', rest, rfl, htext, hblank⟩ := hkept.closed hclosed
  have hevents : events = events' := by
    rw [List.append_assoc, List.singleton_append] at hhandled
    exact eq_of_map_some hhandled
  subst hevents
  refine ⟨⟨rest, htext, hblank⟩, ?_⟩
  rw [delivered_of_quiet haudio hclosed hquiet]
  exact played_eq_iff p.submitted

/-- Two pieces, the first one of two sentences. -/
def twoPieces : List Action :=
  [.publish (some (.textChunk "a.b".toList)), .runtime, .publish (some (.textChunk "!c".toList)),
    .publish none, .runtime, .runtime, .processFuture, .processFuture, .processFuture,
    .checkAndGetAudio, .processFuture, .processFuture, .processFuture, .processFuture,
    .checkAndGetAudio, .checkAndGetAudio]

/-- The same, where the first future raises. -/
def firstFails : List Action :=
  [.publish (some (.textChunk "a.b".toList)), .publish (some (.textChunk "!c".toList)),
    .publish none, .runtime, .runtime, .runtime, .processFuture, .processFuture,
    .checkAndGetAudio]

theorem twoPieces_delivered :
    ∃ p, run (step fun n _ => ⟨[n], false⟩) (start Nat) twoPieces = some p ∧
      p.submitted.map Prod.fst = ["a.b!".toList, "c".toList] ∧
      p.delivered = [.responding 0, .responding 1, .finish] ∧
      (p.delivered = p.allAudio.map .responding ++ [.finish] ↔ p.FailsLast) := by
  obtain ⟨p, hp, hsubmitted, hdelivered, hquiet⟩ : ∃ p,
      run (step fun n _ => ⟨[n], false⟩) (start Nat) twoPieces = some p ∧
      p.submitted.map Prod.fst = ["a.b!".toList, "c".toList] ∧
        p.delivered = [.responding 0, .responding 1, .finish] ∧
          runtimeTurn (fun n _ => ⟨[n], false⟩) p = none ∧
            processTurn p = none ∧ checkAndGetAudio p = none := by
    decide
  refine ⟨p, hp, hsubmitted, hdelivered, (submitted_and_delivered _
    [.textChunk "a.b".toList, .textChunk "!c".toList] rfl hp ?_).2⟩
  exact quiet_iff.mpr hquiet

/-- The audio of the second piece is dropped when the first one fails. -/
theorem firstFails_drops :
    ∃ p, run (step fun n _ => ⟨if n = 0 then [] else [n], n == 0⟩) (start Nat) firstFails =
        some p ∧
      Quiet (fun n _ => ⟨if n = 0 then [] else [n], n == 0⟩) p ∧ p.allAudio = [1] ∧
      p.delivered = [.finish] := by
  simp only [quiet_iff]
  decide

end PlatformSpec.Response.TtsPublisher
