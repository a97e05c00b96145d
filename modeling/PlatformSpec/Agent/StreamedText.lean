import PlatformSpec.Agent.CotOutputParser

/-!
# The text of a ReAct stream

What the parser yields of an output without code, JSON and complete markers: all of it but a
marker that has only begun when the stream ends.
-/

namespace PlatformSpec.Agent

open Base

/-- The text among what is yielded. -/
def yieldedText (chunks : List ReactChunk) : List Char :=
  chunks.flatMap fun
    | .text s => s.toList
    | .action _ => []

theorem yieldedText_append (chunks chunks' : List ReactChunk) :
    yieldedText (chunks ++ chunks') = yieldedText chunks ++ yieldedText chunks' :=
  List.flatMap_append

@[simp] theorem yieldedText_chunk (text : List Char) : yieldedText [chunk text] = text := by
  simp [yieldedText, chunk]

/-- The contents of the responses that are texts, one after the other. -/
def outputOf {υ : Type} (llmResponse : List (LLMResultChunk υ)) : List Char :=
  (llmResponse.filterMap (·.content)).flatten

/-- A character that no marker, code block or JSON object begins or ends with. -/
def isPlain (c : Char) : Bool := c ≠ '`' && c ≠ '\x7b' && c ≠ '\x7d'

def isBoundary (c : Char) : Bool := c = '\n' || c = ' '

/-- What stands after the last line break or space. -/
def lastWord (text : List Char) : List Char :=
  (text.reverse.takeWhile fun c => !isBoundary c).reverse

def lowerChars (text : List Char) : List Char := text.map Char.toLower

/-- No marker stands at the beginning, after a line break or after a space. -/
def NoMarker (word output : List Char) : Prop :=
  ∀ front marker back, output = front ++ marker ++ back → atBoundary front.getLast? = true →
    lowerChars marker ≠ word

/-- The output has no code, no JSON and no complete marker. -/
structure PlainText (output : List Char) : Prop where
  plain : ∀ c ∈ output, isPlain c = true
  action : NoMarker actionStr output
  thought : NoMarker thoughtStr output

/-- The output ends within a marker. -/
def EndsInMarker (output : List Char) : Prop :=
  lastWord output ≠ [] ∧
    (lowerChars (lastWord output) <+: actionStr ∨ lowerChars (lastWord output) <+: thoughtStr)

section Words

variable {text word w : List Char} {d : Char}

@[simp] theorem lastWord_nil : lastWord [] = [] := rfl

theorem lastWord_concat (text : List Char) (d : Char) :
    lastWord (text ++ [d]) = if isBoundary d then [] else lastWord text ++ [d] := by
  rw [lastWord, List.reverse_append, List.reverse_singleton, List.singleton_append,
    List.takeWhile_cons]
  cases isBoundary d with
  | true => rfl
  | false => simp [lastWord]

theorem lastWord_suffix (text : List Char) : lastWord text <:+ text := by
  rw [lastWord, ← List.reverse_prefix, List.reverse_reverse]
  exact List.takeWhile_prefix _

theorem atBoundary_iff (text : List Char) :
    atBoundary text.getLast? = true ↔ lastWord text = [] := by
  rcases List.eq_nil_or_concat text with rfl | ⟨front, d, rfl⟩
  · simp [atBoundary]
  · rw [List.concat_eq_append, lastWord_concat, List.getLast?_concat, atBoundary, Option.all_some,
      ← isBoundary]
    cases isBoundary d <;> simp

/-- What is held back of a word. -/
def held (word w : List Char) : Marker :=
  if lowerChars w <+: word then ⟨w, w.length⟩ else {}

@[simp] theorem held_nil (word : List Char) : held word [] = {} := by
  simp [held, lowerChars]

theorem lowerChars_concat (w : List Char) (d : Char) :
    lowerChars (w ++ [d]) = lowerChars w ++ [d.toLower] := by
  simp [lowerChars]

theorem getElem?_eq_iff (h : lowerChars w <+: word) :
    word[w.length]? = some d.toLower ↔ lowerChars (w ++ [d]) <+: word := by
  obtain ⟨rest, rfl⟩ := h
  have hlength : (lowerChars w).length = w.length := List.length_map ..
  rw [lowerChars_concat, List.prefix_append_right_inj, List.getElem?_append_right (by omega),
    hlength, Nat.sub_self]
  cases rest with
  | nil => simp
  | cons c rest => simp [eq_comm]

/-- A character held against a marker of which the last word is the beginning or not. -/
theorem read_held (last : Option Char) (hlast : atBoundary last = true ↔ w = [])
    (hcomplete : lowerChars (w ++ [d]) ≠ word) :
    (held word w).read word last d =
      if lowerChars (w ++ [d]) <+: word then .taken (held word (w ++ [d]))
      else if lowerChars w <+: word then .passed w
      else if word[0]? = some d.toLower then .midWord
      else .passed [] := by
  by_cases hw : lowerChars w <+: word
  · have hheld : held word w = ⟨w, w.length⟩ := if_pos hw
    rw [hheld, Marker.read]
    by_cases hd : lowerChars (w ++ [d]) <+: word
    · have hnot : ¬ (w.length = 0 ∧ atBoundary last = false) := by
        rintro ⟨hnil, hfalse⟩
        rw [hlast.mpr (List.length_eq_zero_iff.mp hnil)] at hfalse
        cases hfalse
      have hlength : ¬ w.length + 1 = word.length := by
        intro he
        refine hcomplete (hd.eq_of_length ?_)
        rw [lowerChars, List.length_map, List.length_append, List.length_singleton, he]
      rw [if_pos ((getElem?_eq_iff hw).mpr hd), if_neg hnot, if_neg hlength, if_pos hd, held,
        if_pos hd, List.length_append, List.length_singleton]
    · rw [if_neg fun h => hd ((getElem?_eq_iff hw).mp h), if_neg hd, if_pos hw]
  · have hheld : held word w = {} := if_neg hw
    have hd : ¬ lowerChars (w ++ [d]) <+: word := by
      rw [lowerChars_concat]
      exact fun h => hw ((List.prefix_append _ _).trans h)
    have hfalse : atBoundary last = false := by
      rw [← Bool.not_eq_true, hlast]
      rintro rfl
      exact hw List.nil_prefix
    rw [hheld, Marker.read, if_neg hd, if_neg hw]
    split
    next => rw [if_pos ⟨rfl, hfalse⟩]
    next => rfl

theorem read_boundary (last : Option Char) (hword : ∀ c ∈ word, isBoundary c = false)
    (hd : isBoundary d = true) : (held word w).read word last d = .passed (held word w).cache := by
  have hlower : d.toLower = d := by
    have hcases : d = '\n' ∨ d = ' ' := by simpa [isBoundary] using hd
    rcases hcases with rfl | rfl <;> rfl
  rw [Marker.read, if_neg]
  intro h
  rw [hlower] at h
  rw [hword d (List.mem_of_getElem? h)] at hd
  cases hd

end Words

/-! ## One character -/

/-- A parser outside code blocks and JSON. -/
def plainParser (action thought : Marker) (last : Option Char) : Parser :=
  { action := action, thought := thought, lastCharacter := last }

/-- The parser after a text without code, JSON and complete markers. -/
def reading (text : List Char) : Parser :=
  plainParser (held actionStr (lastWord text)) (held thoughtStr (lastWord text)) text.getLast?

/-- What is held back after a text. -/
def withheld (text : List Char) : List Char :=
  (held actionStr (lastWord text)).cache ++ (held thoughtStr (lastWord text)).cache

/-- The rest of a round after the markers. -/
def endRound (delta : Char) : List ReactChunk × Flow → List ReactChunk × Except String Parser
  | (out, .skip p) => (out, .ok p)
  | (out, .go p) => (out ++ (p.finishRound delta).1, (p.finishRound delta).2)

section Step

variable {action thought : Marker} {last : Option Char} {w text : List Char} {d : Char}

private theorem finishRound_plain (hd : isPlain d = true) :
    (plainParser action thought last).finishRound d =
      ([chunk [d]], .ok (plainParser action thought (some d))) := by
  simp only [isPlain, Bool.and_eq_true, decide_eq_true_eq] at hd
  simp [Parser.finishRound, Parser.readFence, Parser.readJson, Parser.readBrace, Parser.emitJson,
    Parser.yieldCharacter, plainParser, hd]

private theorem step_plain (hd : isPlain d = true) :
    (plainParser action thought last).step d =
      endRound d ((plainParser action thought last).readMarkers d) := by
  simp only [isPlain, Bool.and_eq_true, decide_eq_true_eq] at hd
  have hbacktick : (plainParser action thought last).readBacktick d =
      ([], plainParser action thought last) := by
    simp [Parser.readBacktick, plainParser, hd]
  rw [Parser.step, hbacktick]
  simp only [List.nil_append]
  rw [if_pos ⟨rfl, rfl⟩]
  rfl

private theorem flush_plain (action thought : Marker) (last : Option Char) (d : Char)
    (flushed : List Char) :
    ∃ out last', (plainParser action thought last).flush flushed d =
        (out, plainParser action thought last') ∧ yieldedText out = flushed ∧
      (last' = last ∨ flushed ≠ [] ∧ last' = some d) := by
  rw [Parser.flush]
  split
  next h => exact ⟨[], last, rfl, by rw [h]; rfl, .inl rfl⟩
  next h => exact ⟨[chunk flushed], some d, rfl, yieldedText_chunk flushed, .inr ⟨h, rfl⟩⟩

private theorem readThought_plain (action : Marker) (hd : isPlain d = true) (yieldDelta : Bool)
    (hread : thought.read thoughtStr last d = .passed thought.cache) :
    ∃ out, endRound d ((plainParser action thought last).readThought d yieldDelta) =
        (out, .ok (plainParser action {} (some d))) ∧ yieldedText out = thought.cache ++ [d] := by
  obtain ⟨out, last', hflush, htext, -⟩ :=
    flush_plain action {} last d thought.cache
  have hthought : (plainParser action thought last).readThought d yieldDelta =
      if yieldDelta then (out ++ [chunk [d]], .skip (plainParser action {} (some d)))
      else (out, .go (plainParser action {} last')) := by
    have hread' : (plainParser action thought last).thought.read thoughtStr
        (plainParser action thought last).lastCharacter d = .passed thought.cache := hread
    have hflush' : ({ plainParser action thought last with thought := {} } : Parser).flush
        thought.cache d = (out, plainParser action {} last') := hflush
    rw [Parser.readThought, hread']
    simp only [hflush']
    rfl
  refine ⟨out ++ [chunk [d]], ?_, by rw [yieldedText_append, htext, yieldedText_chunk]⟩
  rw [hthought]
  cases yieldDelta with
  | true => rfl
  | false =>
    change (out ++ ((plainParser action {} last').finishRound d).1, _) = _
    rw [finishRound_plain hd]

theorem held_of_not (h : ¬ lowerChars w <+: thoughtStr) : held thoughtStr w = {} := if_neg h

private theorem readThought_held (action : Marker) (hd : isPlain d = true) (yieldDelta : Bool)
    (hlast : atBoundary last = true ↔ w = [])
    (hcomplete : lowerChars (w ++ [d]) ≠ thoughtStr) :
    ∃ out, endRound d
        ((plainParser action (held thoughtStr w) last).readThought d yieldDelta) =
        (out, .ok (plainParser action (held thoughtStr (w ++ [d])) (some d))) ∧
      yieldedText out ++ (held thoughtStr (w ++ [d])).cache =
        (held thoughtStr w).cache ++ [d] := by
  have hread := read_held last hlast hcomplete
  by_cases hnext : lowerChars (w ++ [d]) <+: thoughtStr
  · have hw : lowerChars w <+: thoughtStr := by
      rw [lowerChars_concat] at hnext
      exact (List.prefix_append _ _).trans hnext
    rw [if_pos hnext] at hread
    refine ⟨[], ?_, by rw [held, held, if_pos hnext, if_pos hw]; rfl⟩
    have hread' : (plainParser action (held thoughtStr w) last).thought.read thoughtStr
        (plainParser action (held thoughtStr w) last).lastCharacter d = _ := hread
    rw [Parser.readThought, hread']
    rfl
  · have hnew : held thoughtStr (w ++ [d]) = {} := held_of_not hnext
    rw [if_neg hnext] at hread
    rw [hnew]
    by_cases hw : lowerChars w <+: thoughtStr
    · have hcache : (held thoughtStr w).cache = w := by rw [held, if_pos hw]
      rw [if_pos hw] at hread
      have hpassed : (held thoughtStr w).read thoughtStr last d =
          .passed (held thoughtStr w).cache := by rw [hcache, hread]
      obtain ⟨out, hout, htext⟩ := readThought_plain action hd yieldDelta hpassed
      exact ⟨out, hout, by rw [htext]; exact List.append_nil _⟩
    · rw [if_neg hw] at hread
      rw [held_of_not hw] at hread ⊢
      split at hread
      next =>
        refine ⟨[chunk [d]], ?_, by simp⟩
        have hread' : (plainParser action {} last).thought.read thoughtStr
            (plainParser action {} last).lastCharacter d = _ := hread
        rw [Parser.readThought, hread']
        rfl
      next =>
        obtain ⟨out, hout, htext⟩ := readThought_plain action hd yieldDelta hread
        exact ⟨out, hout, by rw [htext]; exact List.append_nil _⟩

theorem not_thought_of_action (hw : w ≠ []) (h : lowerChars w <+: actionStr) :
    ¬ lowerChars w <+: thoughtStr := by
  cases w with
  | nil => exact absurd rfl hw
  | cons c w =>
    intro hthought
    have ha : c.toLower = 'a' := (List.cons_prefix_cons.mp h).1
    have ht : c.toLower = 't' := (List.cons_prefix_cons.mp hthought).1
    rw [ha] at ht
    exact absurd ht (by decide)

theorem held_thought_of_action (h : lowerChars w <+: actionStr) :
    held thoughtStr w = {} := by
  by_cases hw : w = []
  · rw [hw, held_nil]
  · exact held_of_not (not_thought_of_action hw h)

private theorem readMarkers_taken {marker : Marker}
    (hread : action.read actionStr last d = .taken marker) :
    (plainParser action thought last).readMarkers d =
      ([], .skip (plainParser marker thought (some d))) := by
  have hread' : (plainParser action thought last).action.read actionStr
      (plainParser action thought last).lastCharacter d = _ := hread
  rw [Parser.readMarkers, hread']
  rfl

private theorem readMarkers_midWord (hread : action.read actionStr last d = .midWord) :
    (plainParser action thought last).readMarkers d =
      (plainParser action thought last).readThought d true := by
  have hread' : (plainParser action thought last).action.read actionStr
      (plainParser action thought last).lastCharacter d = _ := hread
  rw [Parser.readMarkers, hread']

private theorem readMarkers_passed (thought : Marker) {flushed : List Char}
    (hread : action.read actionStr last d = .passed flushed) :
    ∃ out last', yieldedText out = flushed ∧
      (last' = last ∨ flushed ≠ [] ∧ last' = some d) ∧
      endRound d ((plainParser action thought last).readMarkers d) =
        (out ++ (endRound d ((plainParser {} thought last').readThought d false)).1,
          (endRound d ((plainParser {} thought last').readThought d false)).2) := by
  obtain ⟨out, last', hflush, htext, hlast⟩ :=
    flush_plain {} thought last d flushed
  refine ⟨out, last', htext, hlast, ?_⟩
  have hread' : (plainParser action thought last).action.read actionStr
      (plainParser action thought last).lastCharacter d = _ := hread
  have hmarkers : (plainParser action thought last).readMarkers d =
      (out ++ ((plainParser {} thought last').readThought d false).1,
        ((plainParser {} thought last').readThought d false).2) := by
    have hflush' : ({ plainParser action thought last with action := {} } : Parser).flush
        flushed d = (out, plainParser {} thought last') := hflush
    rw [Parser.readMarkers, hread']
    simp only [hflush']
  rw [hmarkers]
  obtain ⟨out', flow⟩ := (plainParser {} thought last').readThought d false
  cases flow with
  | skip p => rfl
  | go p => simp [endRound]

/-- One character of a plain text is yielded or held back, after what is held back no longer. -/
theorem step_reading (text : List Char) (hd : isPlain d = true)
    (haction : lowerChars (lastWord text ++ [d]) ≠ actionStr)
    (hthought : lowerChars (lastWord text ++ [d]) ≠ thoughtStr) :
    ∃ out, (reading text).step d = (out, .ok (reading (text ++ [d]))) ∧
      yieldedText out ++ withheld (text ++ [d]) = withheld text ++ [d] := by
  have hlast : atBoundary text.getLast? = true ↔ lastWord text = [] := atBoundary_iff text
  rw [reading, step_plain hd, reading, List.getLast?_concat]
  simp only [withheld]
  rw [lastWord_concat]
  generalize lastWord text = w at haction hthought hlast
  generalize text.getLast? = last at hlast
  cases hb : isBoundary d with
  | true =>
    rw [if_pos rfl, held_nil, held_nil]
    obtain ⟨out, last', htext, -, hround⟩ := readMarkers_passed
      (held thoughtStr w) (read_boundary (w := w) last (forall_of_all (by decide)) hb)
    obtain ⟨out', hout', htext'⟩ := readThought_plain {} hd false
      (read_boundary (w := w) last' (forall_of_all (by decide)) hb)
    rw [hround, hout']
    refine ⟨_, rfl, ?_⟩
    rw [yieldedText_append, htext, htext']
    simp
  | false =>
    rw [if_neg Bool.false_ne_true]
    have hread := read_held last hlast haction
    by_cases hnext : lowerChars (w ++ [d]) <+: actionStr
    · have hw : lowerChars w <+: actionStr := by
        rw [lowerChars_concat] at hnext
        exact (List.prefix_append _ _).trans hnext
      rw [if_pos hnext] at hread
      rw [readMarkers_taken hread, held_thought_of_action hw, held_thought_of_action hnext]
      refine ⟨[], rfl, ?_⟩
      rw [held, held, if_pos hnext, if_pos hw]
      simp [yieldedText]
    · have hnew : held actionStr (w ++ [d]) = {} := if_neg hnext
      rw [if_neg hnext] at hread
      rw [hnew]
      by_cases hmid : ¬ lowerChars w <+: actionStr ∧ actionStr[0]? = some d.toLower
      · rw [if_neg hmid.1, if_pos hmid.2] at hread
        obtain ⟨out, hout, htext⟩ := readThought_held (held actionStr w) hd true hlast
          hthought
        rw [readMarkers_midWord hread, hout]
        have hheld : held actionStr w = {} := if_neg hmid.1
        rw [hheld]
        exact ⟨out, rfl, by simpa using htext⟩
      · have hpassed : (held actionStr w).read actionStr last d =
            .passed (held actionStr w).cache := by
          rw [hread, held]
          split
          · rfl
          · next hw => rw [if_neg fun h => hmid ⟨hw, h⟩]
        obtain ⟨out, last', htext, hlast', hround⟩ :=
          readMarkers_passed (held thoughtStr w) hpassed
        have hlast'' : atBoundary last' = true ↔ w = [] := by
          rcases hlast' with rfl | ⟨hne, rfl⟩
          · exact hlast
          · refine iff_of_false ?_ ?_
            · rw [atBoundary, Option.all_some, ← isBoundary, hb]
              exact Bool.false_ne_true
            · rintro rfl
              exact hne (by rw [held_nil])
        obtain ⟨out', hout', htext'⟩ := readThought_held {} hd false hlast'' hthought
        rw [hround, hout']
        refine ⟨_, rfl, ?_⟩
        rw [yieldedText_append, htext, List.append_assoc, List.nil_append, htext',
          List.append_assoc]

end Step

/-! ## The stream -/

namespace PlainText

variable {output text : List Char}

theorem noMarker_of_not_infix {word : List Char} (h : ¬ word <:+: lowerChars output) :
    NoMarker word output := by
  rintro front marker back rfl - rfl
  exact h (List.IsInfix.map Char.toLower ⟨front, back, rfl⟩)

theorem prefix_of (h : PlainText output) (hstart : text <+: output) : PlainText text := by
  obtain ⟨rest, rfl⟩ := hstart
  refine ⟨fun c hc => h.plain c (List.mem_append_left _ hc), ?_, ?_⟩
  · rintro front marker back rfl
    exact h.action front marker (back ++ rest) (List.append_assoc _ _ _)
  · rintro front marker back rfl
    exact h.thought front marker (back ++ rest) (List.append_assoc _ _ _)

theorem lastWord_ne {word : List Char} {d : Char} (h : NoMarker word (text ++ [d])) :
    lowerChars (lastWord text ++ [d]) ≠ word := by
  obtain ⟨front, hfront⟩ := lastWord_suffix text
  refine h front (lastWord text ++ [d]) [] (by rw [List.append_nil, ← List.append_assoc, hfront]) ?_
  have hdrop : front = (text.reverse.dropWhile fun c => !isBoundary c).reverse := by
    refine List.append_cancel_right (hfront.trans ?_)
    rw [lastWord, ← List.reverse_append, List.takeWhile_append_dropWhile, List.reverse_reverse]
  rw [hdrop, List.getLast?_reverse]
  have hhead := List.head?_dropWhile_not (fun c => !isBoundary c) text.reverse
  cases hc : (text.reverse.dropWhile fun c => !isBoundary c).head? with
  | none => rfl
  | some c =>
    rw [hc] at hhead
    have hboundary : isBoundary c = true := by simpa using hhead
    exact hboundary

theorem run_reading (text : List Char) {rest : List Char} (h : PlainText (text ++ rest)) :
    ∃ out, (reading text).run rest = (out, .ok (reading (text ++ rest))) ∧
      yieldedText out ++ withheld (text ++ rest) = withheld text ++ rest := by
  induction rest generalizing text with
  | nil => exact ⟨[], by rw [List.append_nil]; rfl, by simp [yieldedText]⟩
  | cons d rest ih =>
    rw [List.append_cons] at h ⊢
    have hstart := h.prefix_of (List.prefix_append (text ++ [d]) rest)
    obtain ⟨out, hstep, htext⟩ := step_reading text
      (h.plain d (by simp)) (lastWord_ne hstart.action) (lastWord_ne hstart.thought)
    obtain ⟨out', hrun, htext'⟩ := ih (text ++ [d]) h
    refine ⟨out ++ out', ?_, ?_⟩
    · rw [Parser.run, hstep]
      dsimp only
      rw [hrun]
    · rw [yieldedText_append, List.append_assoc, htext', ← List.append_assoc, htext]
      simp

theorem runResponses_reading (text : List Char) (contents : List (Option (List Char)))
    (h : PlainText (text ++ (contents.filterMap id).flatten)) :
    ∃ out, (reading text).runResponses contents = (out, .ok ()) ∧
      yieldedText out ++ withheld (text ++ (contents.filterMap id).flatten) =
        withheld text ++ (contents.filterMap id).flatten := by
  induction contents generalizing text with
  | nil => exact ⟨[], rfl, by simp [yieldedText]⟩
  | cons content contents ih =>
    cases content with
    | none => exact ih text h
    | some content =>
      have hflat : ((some content :: contents).filterMap id).flatten =
          content ++ (contents.filterMap id).flatten := rfl
      rw [hflat, ← List.append_assoc] at h ⊢
      obtain ⟨out, hrun, htext⟩ :=
        run_reading text (h.prefix_of (List.prefix_append (text ++ content) _))
      obtain ⟨out', hrest, htext'⟩ := ih (text ++ content) h
      refine ⟨out ++ out', ?_, ?_⟩
      · rw [Parser.runResponses, hrun]
        dsimp only
        rw [hrest]
      · rw [yieldedText_append, List.append_assoc, htext', ← List.append_assoc, htext,
          List.append_assoc]

theorem withheld_eq_nil_iff (text : List Char) : withheld text = [] ↔ ¬ EndsInMarker text := by
  have hheld (word : List Char) : (held word (lastWord text)).cache = [] ↔
      (lowerChars (lastWord text) <+: word → lastWord text = []) := by
    rw [held]
    split
    next h => exact (imp_iff_right h).symm
    next h => exact iff_of_true rfl fun hword => absurd hword h
  rw [withheld, List.append_eq_nil_iff, hheld, hheld, EndsInMarker, ← or_imp, not_and', not_not]

/-- A plain output is yielded as it is exactly if it does not end within a marker, however it is
cut. -/
theorem yields_output_iff {υ : Type} (llmResponse : List (LLMResultChunk υ))
    (h : PlainText (outputOf llmResponse)) :
    (handleReactStreamOutput llmResponse).2 = .ok () ∧
        yieldedText (handleReactStreamOutput llmResponse).1 = outputOf llmResponse ↔
      ¬ EndsInMarker (outputOf llmResponse) := by
  have houtput : ((llmResponse.map (·.content)).filterMap id).flatten =
      outputOf llmResponse := by
    rw [List.filterMap_map]
    rfl
  obtain ⟨out, hrun, htext⟩ :=
    runResponses_reading [] (llmResponse.map (·.content)) (by rwa [houtput])
  rw [houtput, List.nil_append] at htext
  have hhandle : handleReactStreamOutput llmResponse = (out, .ok ()) := hrun
  rw [hhandle, ← withheld_eq_nil_iff, and_iff_right rfl]
  have hnil : withheld [] = [] := rfl
  rw [hnil, List.nil_append] at htext
  constructor
  · intro he
    have hlength := congrArg List.length htext
    rw [he, List.length_append] at hlength
    exact List.length_eq_zero_iff.mp (by omega)
  · intro he
    rwa [he, List.append_nil] at htext

theorem yields_output_iff_hello :
    (handleReactStreamOutput (υ := Nat)
        [⟨none, some "hello wor".toList⟩, ⟨none, none⟩, ⟨some 3, some "ld".toList⟩]).2 = .ok () ∧
      yieldedText (handleReactStreamOutput (υ := Nat)
        [⟨none, some "hello wor".toList⟩, ⟨none, none⟩, ⟨some 3, some "ld".toList⟩]).1 =
        "hello world".toList :=
  (yields_output_iff _ ⟨forall_of_all (by decide), noMarker_of_not_infix (by decide),
    noMarker_of_not_infix (by decide)⟩).mpr (by
    rw [EndsInMarker]
    decide)

/-- A word that begins like a marker is lost at the end. -/
theorem last_word_lost :
    PlainText "Plan a".toList ∧
      yieldedText (handleReactStreamOutput (υ := Nat) [⟨none, some "Plan a".toList⟩]).1 =
        "Plan ".toList ∧
      "Plan ".toList ≠ outputOf (υ := Nat) [⟨none, some "Plan a".toList⟩] :=
  ⟨⟨forall_of_all (by decide), noMarker_of_not_infix (by decide),
    noMarker_of_not_infix (by decide)⟩, by decide, by decide⟩

end PlainText

end PlatformSpec.Agent
