import PlatformSpec.Agent.CodeBlock
import PlatformSpec.Agent.Handed

/-!
# An action in a ReAct stream

When one action is found in an output that consists of a text, a JSON object and a text.
-/

namespace PlatformSpec.Agent

open Base

/-- A text that stands for an object with the name and the input of an action. -/
def Reads (text : List Char) (actionName actionInput : String) : Prop :=
  ∃ fields, loadsLenient text = some (.obj fields) ∧
    nameAndInput fields = (.str actionName, .str actionInput)

instance (text : List Char) (actionName actionInput : String) :
    Decidable (Reads text actionName actionInput) :=
  match hload : loadsLenient text with
  | some (.obj fields) =>
    match hpair : nameAndInput fields with
    | (.str a, .str b) =>
      decidable_of_iff (a = actionName ∧ b = actionInput) (by
        rw [Reads, hload]
        simp [hpair])
    | (.null, _) | (.bool _, _) | (.num _, _) | (.arr _, _) | (.obj _, _)
    | (.str _, .null) | (.str _, .bool _) | (.str _, .num _) | (.str _, .arr _)
    | (.str _, .obj _) => .isFalse (by rw [Reads, hload]; simp [hpair])
  | none | some .null | some (.bool _) | some (.num _) | some (.str _) | some (.arr _) =>
    .isFalse (by rw [Reads, hload]; simp)

/-- What follows the brace that closes the last of some open braces, wherever they stand. -/
def afterBraces : Nat → List Char → Option (List Char)
  | _, [] => none
  | opened, c :: cs =>
    if c = '\x7b' then afterBraces (opened + 1) cs
    else if c = '\x7d' then
      match opened with
      | 0 => some cs
      | opened + 1 => afterBraces opened cs
    else afterBraces opened cs

/-! ## Parsers up to what they have read of markers -/

/-- The parser is as given but for the markers and the last character. -/
def Parser.IsLike (p x : Parser) : Prop :=
  ∃ action thought last, p =
    { x with action := action, thought := thought, lastCharacter := last }

/-- From parsers of a kind, a text leads to parsers of a kind, and hands something over. -/
def Runs (x : Parser) (text : List Char) (js : List Json) (y : Parser) : Prop :=
  ∀ p : Parser, p.IsLike x → ∃ q, p.runHanded text = (js, q) ∧ q.IsLike y

/-- What a text hands over from parsers of a kind. -/
def Hands (x : Parser) (text : List Char) (js : List Json) : Prop :=
  ∀ p : Parser, p.IsLike x → p.handed text = js

section Kinds

variable {x y z : Parser} {text text' : List Char} {js js' : List Json} {d : Char}

theorem Parser.isLike_self (x : Parser) : x.IsLike x := ⟨_, _, _, rfl⟩

theorem Runs.nil : Runs x [] [] x := fun p hp => ⟨p, rfl, hp⟩

theorem Runs.append (h : Runs x text js y) (h' : Runs y text' js' z) :
    Runs x (text ++ text') (js ++ js') z := by
  intro p hp
  obtain ⟨q, hq, hlike⟩ := h p hp
  obtain ⟨r, hr, hlike'⟩ := h' q hlike
  refine ⟨r, ?_, hlike'⟩
  rw [Parser.runHanded_append, hq, hr]

theorem Runs.cons (h : Runs x [d] js y) (h' : Runs y text' js' z) :
    Runs x (d :: text') (js ++ js') z := h.append h'

theorem Runs.hands (h : Runs x text js y) (h' : Hands y text' js') :
    Hands x (text ++ text') (js ++ js') := by
  intro p hp
  obtain ⟨q, hq, hlike⟩ := h p hp
  rw [Parser.handed_append, hq, h' q hlike]

theorem runs_one (h : ∀ p : Parser, p.IsLike x → ∃ q, p.stepHanded d = (js, q) ∧ q.IsLike y) :
    Runs x [d] js y := by
  intro p hp
  obtain ⟨q, hq, hlike⟩ := h p hp
  refine ⟨q, ?_, hlike⟩
  rw [Parser.runHanded, hq]
  exact Prod.ext (List.append_nil _) rfl

end Kinds

/-! ## Rounds -/

section Rounds

variable {d : Char} {cache : List Char} {n : Nat}

private theorem flush_isLike (p : Parser) (flushed : List Char) (d : Char) :
    (p.flush flushed d).2.IsLike p := by
  unfold Parser.flush
  split
  · exact p.isLike_self
  · exact ⟨p.action, p.thought, _, rfl⟩

variable {p r : Parser}

theorem Parser.IsLike.trans {q : Parser} (h : p.IsLike q) (h' : q.IsLike r) : p.IsLike r := by
  obtain ⟨_, _, _, rfl⟩ := h
  obtain ⟨_, _, _, rfl⟩ := h'
  exact ⟨_, _, _, rfl⟩

/-- The parser that the markers leave is like the one before. -/
private def FlowIsLike (p : Parser) (flow : Flow) : Prop :=
  ∃ q : Parser, q.IsLike p ∧ (flow = .skip q ∨ flow = .go q)

private theorem readThought_isLike (p : Parser) (d : Char) (yieldDelta : Bool) :
    FlowIsLike p (p.readThought d yieldDelta).2 := by
  unfold Parser.readThought
  split
  · exact ⟨_, ⟨p.action, _, _, rfl⟩, .inl rfl⟩
  · exact ⟨_, ⟨p.action, p.thought, _, rfl⟩, .inl rfl⟩
  next flushed _ =>
    have hflush : ({ p with thought := {} }.flush flushed d).2.IsLike p :=
      (flush_isLike _ flushed d).trans ⟨p.action, {}, p.lastCharacter, rfl⟩
    dsimp only
    split
    · obtain ⟨_, _, _, hq⟩ := hflush
      exact ⟨_, by rw [hq]; exact ⟨_, _, _, rfl⟩, .inl rfl⟩
    · exact ⟨_, hflush, .inr rfl⟩

private theorem readMarkers_isLike (p : Parser) (d : Char) :
    FlowIsLike p (p.readMarkers d).2 := by
  unfold Parser.readMarkers
  split
  · exact ⟨_, ⟨_, p.thought, _, rfl⟩, .inl rfl⟩
  · exact readThought_isLike p d true
  next flushed _ =>
    obtain ⟨q, hq, hflow⟩ := readThought_isLike ({ p with action := {} }.flush flushed d).2 d false
    exact ⟨q, hq.trans ((flush_isLike _ flushed d).trans ⟨{}, p.thought, p.lastCharacter, rfl⟩),
      hflow⟩

private theorem readMarkers_go (p : Parser) (haction : d.toLower ∉ actionStr)
    (hthought : d.toLower ∉ thoughtStr) : ∃ q, q.IsLike p ∧ (p.readMarkers d).2 = .go q := by
  have hread (word : List Char) (marker : Marker) (last : Option Char) (h : d.toLower ∉ word) :
      marker.read word last d = .passed marker.cache := by
    rw [Marker.read, if_neg]
    exact fun hmem => h (List.mem_of_getElem? hmem)
  obtain ⟨q, hq, hflow⟩ := readMarkers_isLike p d
  refine ⟨q, hq, hflow.resolve_left fun hskip => ?_⟩
  rw [Parser.readMarkers, hread _ _ _ haction] at hskip
  dsimp only at hskip
  rw [Parser.readThought, hread _ _ _ hthought] at hskip
  cases hskip

private theorem step_outside (hbacktick : (p.readBacktick d).2 = r)
    (hcode : r.inCodeBlock = false) (hjson : r.inJson = false) :
    ∃ q : Parser, q.IsLike r ∧ (p.stepHanded d = ([], q) ∨ p.stepHanded d = q.finishHanded d) := by
  obtain ⟨q, hq, hflow⟩ := readMarkers_isLike r d
  refine ⟨q, hq, ?_⟩
  rw [Parser.stepHanded, hbacktick]
  rw [if_pos ⟨hcode, hjson⟩]
  rcases hflow with hflow | hflow
  · rw [hflow]
    exact .inl rfl
  · rw [hflow]
    exact .inr rfl

private theorem step_outside_go (hbacktick : (p.readBacktick d).2 = r)
    (hcode : r.inCodeBlock = false) (hjson : r.inJson = false) (haction : d.toLower ∉ actionStr)
    (hthought : d.toLower ∉ thoughtStr) :
    ∃ q : Parser, q.IsLike r ∧ p.stepHanded d = q.finishHanded d := by
  obtain ⟨q, hq, hflow⟩ := readMarkers_go r haction hthought
  refine ⟨q, hq, ?_⟩
  rw [Parser.stepHanded, hbacktick]
  rw [if_pos ⟨hcode, hjson⟩, hflow]

theorem runs_plain (hd : isPlain d = true) : Runs {} [d] [] {} := by
  refine runs_one ?_
  rintro p ⟨action, thought, last, rfl⟩
  simp only [isPlain, Bool.and_eq_true, decide_eq_true_eq] at hd
  obtain ⟨q, ⟨_, _, _, rfl⟩, hstep | hstep⟩ := step_outside
    (p := { action := action, thought := thought, lastCharacter := last }) (d := d)
    (by simp [Parser.readBacktick, hd]; rfl) rfl rfl
  · exact ⟨_, hstep, _, _, _, rfl⟩
  · simp [Parser.finishHanded, Parser.fenceHanded, Parser.jsonHanded, Parser.readBrace,
      Parser.cleared, Parser.yieldCharacter, hd] at hstep
    exact ⟨_, hstep, _, _, _, rfl⟩

/-- A parser after an object, which is parsed with one of the next characters. -/
def collected (json : List Char) : Parser := { jsonCache := json, gotJson := true }

/-- A parser within some open braces. -/
def inBraces (json : List Char) (opened : Nat) : Parser :=
  { jsonCache := json, jsonQuoteCount := opened + 1, inJson := true }

/-- A parser after some backticks. -/
def afterTicks (cache : List Char) (ticks : Nat) : Parser :=
  { codeBlockCache := cache, codeBlockDelimiterCount := ticks }

/-- A parser in a code block. -/
def inBlock (cache : List Char) (ticks : Nat) : Parser :=
  { codeBlockCache := cache, codeBlockDelimiterCount := ticks, inCodeBlock := true }

theorem step_collected (json : List Char) (hd : isPlain d = true) (hp : p.IsLike (collected json)) :
    ∃ q, (p.stepHanded d = ([], q) ∧ q.IsLike (collected json)) ∨
      (p.stepHanded d = ([.str (String.ofList json)], q) ∧ q.IsLike {}) := by
  obtain ⟨action, thought, last, rfl⟩ := hp
  simp only [isPlain, Bool.and_eq_true, decide_eq_true_eq] at hd
  obtain ⟨q, ⟨_, _, _, rfl⟩, hstep | hstep⟩ := step_outside
    (p := { collected json with action := action, thought := thought, lastCharacter := last })
    (d := d) (by simp [Parser.readBacktick, collected, hd]; rfl) rfl rfl
  · exact ⟨_, .inl ⟨hstep, _, _, _, rfl⟩⟩
  · simp [Parser.finishHanded, Parser.fenceHanded, Parser.jsonHanded, Parser.readBrace,
      Parser.cleared, Parser.yieldCharacter, hd] at hstep
    exact ⟨_, .inr ⟨hstep, _, _, _, rfl⟩⟩

theorem runs_open : Runs {} ['\x7b'] [] (inBraces ['\x7b'] 0) := by
  refine runs_one ?_
  rintro p ⟨action, thought, last, rfl⟩
  obtain ⟨q, ⟨_, _, _, rfl⟩, hstep⟩ := step_outside_go
    (p := { action := action, thought := thought, lastCharacter := last }) (d := '\x7b')
    rfl rfl rfl (by decide) (by decide)
  exact ⟨_, hstep, _, _, _, rfl⟩

theorem runs_inBraces_open (json : List Char) (n : Nat) :
    Runs (inBraces json n) ['\x7b'] [] (inBraces (json ++ ['\x7b']) (n + 1)) := by
  refine runs_one ?_
  rintro p ⟨action, thought, last, rfl⟩
  exact ⟨_, rfl, _, _, _, rfl⟩

theorem runs_inBraces_close (json : List Char) (n : Nat) :
    Runs (inBraces json (n + 1)) ['\x7d'] [] (inBraces (json ++ ['\x7d']) n) := by
  refine runs_one ?_
  rintro p ⟨action, thought, last, rfl⟩
  exact ⟨_, rfl, _, _, _, rfl⟩

theorem runs_inBraces_last (json : List Char) :
    Runs (inBraces json 0) ['\x7d'] [] (collected (json ++ ['\x7d'])) := by
  refine runs_one ?_
  rintro p ⟨action, thought, last, rfl⟩
  exact ⟨_, rfl, _, _, _, rfl⟩

theorem runs_inBraces (json : List Char) (n : Nat) (hopen : d ≠ '\x7b') (hclose : d ≠ '\x7d') :
    Runs (inBraces json n) [d] [] (inBraces (json ++ [d]) n) := by
  refine runs_one ?_
  rintro p ⟨action, thought, last, rfl⟩
  refine ⟨{ inBraces (json ++ [d]) n with
    action := action, thought := thought, lastCharacter := some d }, ?_, _, _, _, rfl⟩
  simp [Parser.stepHanded, Parser.readBacktick, Parser.finishHanded, Parser.fenceHanded,
    Parser.jsonHanded, Parser.readBrace, Parser.cleared, Parser.yieldCharacter, inBraces, hopen,
    hclose]

theorem runs_ticks : Runs {} fence [] (inBlock fence 0) := by
  have hfirst : Runs {} ['`'] [] (afterTicks ['`'] 1) := by
    refine runs_one ?_
    rintro p ⟨action, thought, last, rfl⟩
    obtain ⟨q, ⟨_, _, _, rfl⟩, hstep⟩ := step_outside_go
      (p := { action := action, thought := thought, lastCharacter := last }) (d := '`')
      rfl rfl rfl (by decide) (by decide)
    exact ⟨_, hstep, _, _, _, rfl⟩
  have hsecond : Runs (afterTicks ['`'] 1) ['`'] [] (afterTicks ['`', '`'] 2) := by
    refine runs_one ?_
    rintro p ⟨action, thought, last, rfl⟩
    obtain ⟨q, ⟨_, _, _, rfl⟩, hstep⟩ := step_outside_go
      (p := { afterTicks ['`'] 1 with
        action := action, thought := thought, lastCharacter := last }) (d := '`')
      rfl rfl rfl (by decide) (by decide)
    exact ⟨_, hstep, _, _, _, rfl⟩
  have hthird : Runs (afterTicks ['`', '`'] 2) ['`'] [] (inBlock fence 0) := by
    refine runs_one ?_
    rintro p ⟨action, thought, last, rfl⟩
    obtain ⟨q, ⟨_, _, _, rfl⟩, hstep⟩ := step_outside_go
      (p := { afterTicks ['`', '`'] 2 with
        action := action, thought := thought, lastCharacter := last }) (d := '`')
      rfl rfl rfl (by decide) (by decide)
    exact ⟨_, hstep, _, _, _, rfl⟩
  exact hfirst.append (hsecond.append hthird)

theorem runs_inBlock (cache : List Char) (n : Nat) (hd : d ≠ '`') :
    Runs (inBlock cache n) [d] [] (inBlock (cache ++ [d]) 0) := by
  refine runs_one ?_
  rintro p ⟨action, thought, last, rfl⟩
  refine ⟨{ inBlock (cache ++ [d]) 0 with
    action := action, thought := thought, lastCharacter := some d }, ?_, _, _, _, rfl⟩
  simp [Parser.stepHanded, Parser.readBacktick, Parser.finishHanded, Parser.fenceHanded,
    Parser.jsonHanded, inBlock, hd]

theorem runs_inBlock_tick (cache : List Char) (n : Nat)
    (h : n ≠ 2 ∨ extraJsonFromCodeBlock (cache ++ ['`']) = []) :
    Runs (inBlock cache n) ['`'] [] (inBlock (cache ++ ['`']) (n + 1)) := by
  refine runs_one ?_
  rintro p ⟨action, thought, last, rfl⟩
  refine ⟨{ inBlock (cache ++ ['`']) (n + 1) with
    action := action, thought := thought, lastCharacter := some '`' }, ?_, _, _, _, rfl⟩
  rcases h with h | h
  · simp [Parser.stepHanded, Parser.readBacktick, Parser.finishHanded, Parser.fenceHanded,
      Parser.jsonHanded, inBlock, h]
  · by_cases hn : n = 2
    · simp [Parser.stepHanded, Parser.readBacktick, Parser.finishHanded, Parser.fenceHanded,
        inBlock, h, hn]
    · simp [Parser.stepHanded, Parser.readBacktick, Parser.finishHanded, Parser.fenceHanded,
        Parser.jsonHanded, inBlock, hn]

theorem runs_inBlock_close (cache : List Char) {j : Json} {js : List Json}
    (h : extraJsonFromCodeBlock (cache ++ ['`']) = j :: js) :
    Runs (inBlock cache 2) ['`'] (j :: js) {} := by
  refine runs_one ?_
  rintro p ⟨action, thought, last, rfl⟩
  refine ⟨{ action := action, thought := thought, lastCharacter := some '`' }, ?_, _, _, _, rfl⟩
  simp [Parser.stepHanded, Parser.readBacktick, Parser.finishHanded, Parser.fenceHanded,
    Parser.jsonHanded, Parser.readBrace, Parser.cleared, Parser.yieldCharacter, inBlock, h]

end Rounds

/-! ## Texts -/

section Texts

variable {text post object json cache : List Char} {n : Nat}

theorem runs_plains (h : ∀ c ∈ text, isPlain c = true) : Runs {} text [] {} := by
  induction text with
  | nil => exact .nil
  | cons d text ih =>
    obtain ⟨hd, htext⟩ := List.forall_mem_cons.mp h
    exact (runs_plain hd).cons (ih htext)

theorem hands_plains (h : ∀ c ∈ text, isPlain c = true) : Hands {} text [] := by
  have hnil : Hands {} [] [] := by
    rintro p ⟨action, thought, last, rfl⟩
    rfl
  have hands := (runs_plains h).hands hnil
  rwa [List.append_nil] at hands

theorem hands_collected (hjson : json ≠ []) (h : ∀ c ∈ post, isPlain c = true) :
    Hands (collected json) post [.str (String.ofList json)] := by
  induction post with
  | nil =>
    rintro p ⟨action, thought, last, rfl⟩
    exact if_neg hjson
  | cons d post ih =>
    obtain ⟨hd, hpost⟩ := List.forall_mem_cons.mp h
    intro p hp
    have hfirst : p.handed (d :: post) =
        (p.stepHanded d).1 ++ (p.stepHanded d).2.handed post := by
      rw [Parser.handed, Parser.runHanded, Parser.handed, List.append_assoc]
    obtain ⟨q, ⟨hstep, hq⟩ | ⟨hstep, hq⟩⟩ := step_collected json hd hp
    · rw [hfirst, hstep]
      exact ih hpost q hq
    · rw [hfirst, hstep, hands_plains hpost q hq]
      rfl

theorem afterBraces_cons (n : Nat) (c : Char) (text : List Char) :
    afterBraces n (c :: text) =
      if c = '\x7b' then afterBraces (n + 1) text
      else if c = '\x7d' then
        match n with
        | 0 => some text
        | n + 1 => afterBraces n text
      else afterBraces n text := by
  cases n <;> rfl

theorem afterBraces_append (h : afterBraces n text = none) (hpost : ∀ c ∈ post, isPlain c = true) :
    afterBraces n (text ++ post) = none := by
  induction text generalizing n with
  | nil =>
    induction post with
    | nil => rfl
    | cons d post ih =>
      obtain ⟨hd, hpost⟩ := List.forall_mem_cons.mp hpost
      simp only [isPlain, Bool.and_eq_true, decide_eq_true_eq] at hd
      rw [List.nil_append, afterBraces_cons, if_neg hd.1.2, if_neg hd.2]
      exact ih hpost
  | cons c text ih =>
    rw [List.cons_append]
    rw [afterBraces_cons] at h ⊢
    split at h
    next hopen =>
      rw [if_pos hopen]
      exact ih h
    next hopen =>
      rw [if_neg hopen]
      split at h
      next hclose =>
        rw [if_pos hclose]
        cases n with
        | zero => cases h
        | succ n => exact ih h
      next hclose =>
        rw [if_neg hclose]
        exact ih h

/-- The object is collected up to the brace that closes its first one, if that is its last
character. -/
theorem runs_closed (h : afterBraces n text = some []) :
    Runs (inBraces json n) text [] (collected (json ++ text)) := by
  induction text generalizing n json with
  | nil => cases h
  | cons c text ih =>
    rw [List.append_cons]
    rw [afterBraces_cons] at h
    split at h
    next hopen =>
      subst hopen
      exact (runs_inBraces_open json n).cons (ih h)
    next hopen =>
      split at h
      next hclose =>
        subst hclose
        cases n with
        | zero =>
          obtain rfl : text = [] := by simpa using h
          rw [List.append_nil]
          exact runs_inBraces_last json
        | succ n => exact (runs_inBraces_close json n).cons (ih h)
      next hclose => exact (runs_inBraces json n hopen hclose).cons (ih h)

theorem runs_unclosed (json : List Char) (h : afterBraces n text = none) :
    ∃ m, Runs (inBraces json n) text [] (inBraces (json ++ text) m) := by
  induction text generalizing n json with
  | nil => exact ⟨n, by rw [List.append_nil]; exact .nil⟩
  | cons c text ih =>
    rw [List.append_cons]
    rw [afterBraces_cons] at h
    split at h
    next hopen =>
      subst hopen
      obtain ⟨m, hm⟩ := ih _ h
      exact ⟨m, (runs_inBraces_open json n).cons hm⟩
    next hopen =>
      split at h
      next hclose =>
        subst hclose
        cases n with
        | zero => cases h
        | succ n =>
          obtain ⟨m, hm⟩ := ih _ h
          exact ⟨m, (runs_inBraces_close json n).cons hm⟩
      next hclose =>
        obtain ⟨m, hm⟩ := ih _ h
        exact ⟨m, (runs_inBraces json n hopen hclose).cons hm⟩

theorem handed_closed (htext : ∀ c ∈ text, isPlain c = true) (hpost : ∀ c ∈ post, isPlain c = true)
    (h : afterBraces 0 object = some []) :
    handed (text ++ ('\x7b' :: object ++ post)) = [.str (String.ofList ('\x7b' :: object))] := by
  have hobject : Runs {} ('\x7b' :: object) [] (collected ('\x7b' :: object)) :=
    runs_open.cons (runs_closed h)
  exact (runs_plains htext).hands (hobject.hands (hands_collected (List.cons_ne_nil _ _) hpost)) {}
    (Parser.isLike_self {})

theorem handed_unclosed (htext : ∀ c ∈ text, isPlain c = true)
    (hpost : ∀ c ∈ post, isPlain c = true) (h : afterBraces 0 object = none) :
    handed (text ++ ('\x7b' :: object ++ post)) =
      [.str (String.ofList ('\x7b' :: object ++ post))] := by
  obtain ⟨m, hm⟩ := runs_unclosed ['\x7b'] (afterBraces_append h hpost)
  have hobject : Runs {} ('\x7b' :: object ++ post) [] (inBraces ('\x7b' :: object ++ post) m) :=
    runs_open.cons hm
  have hend : Hands (inBraces ('\x7b' :: object ++ post) m) []
      [.str (String.ofList ('\x7b' :: object ++ post))] := by
    rintro p ⟨action, thought, last, rfl⟩
    rfl
  have hands := hobject.hands hend
  rw [List.append_nil] at hands
  exact (runs_plains htext).hands hands {} (Parser.isLike_self {})

/-! ## Code blocks -/

theorem runs_noTick (h : '`' ∉ text) :
    Runs (inBlock cache 0) text [] (inBlock (cache ++ text) 0) := by
  induction text generalizing cache with
  | nil => rw [List.append_nil]; exact .nil
  | cons d text ih =>
    rw [List.mem_cons, not_or] at h
    rw [List.append_cons]
    exact (runs_inBlock cache 0 fun hd => h.1 hd.symm).cons (ih h.2)

theorem runs_block
    (h : ∀ u, u ++ ['`'] <+: text → extraJsonFromCodeBlock (cache ++ (u ++ ['`'])) = []) :
    ∃ m, Runs (inBlock cache n) text [] (inBlock (cache ++ text) m) := by
  induction text generalizing cache n with
  | nil => exact ⟨n, by rw [List.append_nil]; exact .nil⟩
  | cons d text ih =>
    have hrest (u : List Char) (hu : u ++ ['`'] <+: text) :
        extraJsonFromCodeBlock (cache ++ [d] ++ (u ++ ['`'])) = [] := by
      have hd := h (d :: u) (List.cons_prefix_cons.mpr ⟨rfl, hu⟩)
      rwa [List.append_assoc]
    rw [List.append_cons]
    by_cases hd : d = '`'
    · subst hd
      have hfirst := h [] (List.cons_prefix_cons.mpr ⟨rfl, List.nil_prefix⟩)
      obtain ⟨m, hm⟩ := ih (n := n + 1) hrest
      exact ⟨m, (runs_inBlock_tick cache n (.inr hfirst)).cons hm⟩
    · obtain ⟨m, hm⟩ := ih (n := 0) hrest
      exact ⟨m, (runs_inBlock cache n hd).cons hm⟩

theorem handed_fenced {tag spaces spaces' : List Char} {j : Json}
    (htext : ∀ c ∈ text, isPlain c = true) (hpost : ∀ c ∈ post, isPlain c = true)
    (htag : ∀ c ∈ tag, isTag c = true) (hspaces : ∀ c ∈ spaces, isSpace c = true)
    (hspaces' : ∀ c ∈ spaces', isSpace c = true)
    (h : loadsLenient (dropWordLines ('\x7b' :: (object ++ ['\x7d']))) = some j) :
    handed (text ++ (fence ++ ((tag ++ spaces) ++ ('\x7b' :: object ++ ('\x7d' :: spaces' ++
      (fence ++ post)))))) = [j] := by
  have htick (c : Char) (hc : isTag c = true) : c ≠ '`' := by
    rintro rfl
    exact absurd hc (by decide)
  have hspace (c : Char) (hc : isSpace c = true) : c ≠ '`' := by
    rintro rfl
    exact absurd hc (by decide)
  have hhead : Runs (inBlock fence 0) (tag ++ spaces) []
      (inBlock (fence ++ (tag ++ spaces)) 0) := by
    refine runs_noTick ?_
    rw [List.mem_append, not_or]
    exact ⟨fun hc => htick _ (htag _ hc) rfl, fun hc => hspace _ (hspaces _ hc) rfl⟩
  have hinner (u : List Char) (hu : u ++ ['`'] <+: '\x7b' :: object) :
      extraJsonFromCodeBlock (fence ++ (tag ++ spaces) ++ (u ++ ['`'])) = [] := by
    obtain ⟨more, hmore⟩ := hu
    cases u with
    | nil => cases hmore
    | cons c u =>
      obtain ⟨rfl, rfl⟩ := List.cons_eq_cons.mp hmore
      have hwhole : loadsLenient (dropWordLines ('\x7b' :: (u ++ ['`']) ++ (more ++ ['\x7d']))) =
          some j := by
        rw [← h]
        simp
      rw [← extraJson_beginning htag hspaces hwhole]
      simp
  obtain ⟨m, hm⟩ := runs_block (n := 0) hinner
  have hobject : Runs {} (fence ++ ((tag ++ spaces) ++ ('\x7b' :: object))) []
      (inBlock (fence ++ (tag ++ spaces) ++ '\x7b' :: object) m) :=
        runs_ticks.append (hhead.append hm)
  have htail : Runs (inBlock (fence ++ (tag ++ spaces) ++ '\x7b' :: object) m)
      ('\x7d' :: spaces') []
      (inBlock (fence ++ (tag ++ spaces) ++ '\x7b' :: object ++ ['\x7d'] ++ spaces') 0) :=
    (runs_inBlock _ m (by decide)).cons
      (runs_noTick fun hc => hspace _ (hspaces' _ hc) rfl)
  have hclose : Runs
      (inBlock (fence ++ (tag ++ spaces) ++ '\x7b' :: object ++ ['\x7d'] ++ spaces') 0)
      fence [j] {} := by
    refine (runs_inBlock_tick _ 0 (.inl (by decide))).cons
      ((runs_inBlock_tick _ 1 (.inl (by decide))).cons (runs_inBlock_close _ ?_))
    rw [← extraJson_object htag hspaces hspaces' h]
    simp [fence]
  have hands := (runs_plains htext).hands (hobject.hands (htail.hands (hclose.hands
    (hands_plains hpost)))) {} (Parser.isLike_self {})
  simpa [handed] using hands

end Texts

/-! ## Actions -/

variable {υ : Type} {a b : String}

/-- Nothing is raised, and one action is yielded. -/
def YieldsAction (llmResponse : List (LLMResultChunk υ)) (actionName actionInput : String) : Prop :=
  (handleReactStreamOutput llmResponse).2 = .ok () ∧
    actionsOf (handleReactStreamOutput llmResponse).1 = [⟨actionName, .str actionInput⟩]

/-- What is handed to `parse_action` is usable, and one of it stands for the action. -/
def HandsAction (output : List Char) (actionName actionInput : String) : Prop :=
  (∀ j ∈ handed output, Usable j) ∧
    (handed output).filterMap actionOf = [⟨actionName, .str actionInput⟩]

/-- An object between plain texts whose braces balance, or which ends with the output, but for
spaces. -/
def BareAction (output : List Char) (actionName actionInput : String) : Prop :=
  ∃ before object after, output = before ++ ('\x7b' :: object ++ after) ∧
    (∀ c ∈ before, isPlain c = true) ∧ (∀ c ∈ after, isPlain c = true) ∧
    ((afterBraces 0 object = some [] ∧ Reads ('\x7b' :: object) actionName actionInput) ∨
      (afterBraces 0 object = none ∧ Reads ('\x7b' :: object ++ after) actionName actionInput))

/-- An object in a code block between plain texts, which stays what it is without its lines of
letters. -/
def FencedAction (output : List Char) (actionName actionInput : String) : Prop :=
  ∃ before tag spaces object spaces' after,
    output = before ++ (fence ++ ((tag ++ spaces) ++ ('\x7b' :: object ++ ('\x7d' :: spaces' ++
      (fence ++ after))))) ∧
    (∀ c ∈ before, isPlain c = true) ∧ (∀ c ∈ after, isPlain c = true) ∧
    (∀ c ∈ tag, isTag c = true) ∧ (∀ c ∈ spaces, isSpace c = true) ∧
    (∀ c ∈ spaces', isSpace c = true) ∧
    Reads (dropWordLines ('\x7b' :: (object ++ ['\x7d']))) actionName actionInput

theorem parseAction_obj {fields : List (String × Json)}
    (h : nameAndInput fields = (.str a, .str b)) :
    parseAction (.obj fields) = .ok (.action ⟨a, .str b⟩) := by
  have hitems : parseAction (.obj fields) = parseItems (.obj fields) := rfl
  rw [hitems, parseItems, h]
  rfl

theorem parseAction_text {text : List Char} (h : Reads text a b) :
    parseAction (.str (String.ofList text)) = .ok (.action ⟨a, .str b⟩) := by
  obtain ⟨fields, hfields, hpair⟩ := h
  rw [parseAction, String.toList_ofList, hfields]
  exact parseAction_obj hpair

variable {output : List Char}

theorem handsAction_of_one {j : Json} (h : handed output = [j])
    (hj : parseAction j = .ok (.action ⟨a, .str b⟩)) : HandsAction output a b := by
  rw [HandsAction, h]
  refine ⟨List.forall_mem_singleton.mpr ((parseAction_ok_iff j).mp ⟨_, hj⟩), ?_⟩
  simp [actionOf, hj]

theorem BareAction.hands (h : BareAction output a b) : HandsAction output a b := by
  obtain ⟨before, object, after, rfl, hbefore, hafter, ⟨hclosed, hreads⟩ | ⟨hopen, hreads⟩⟩ := h
  · exact handsAction_of_one (handed_closed hbefore hafter hclosed) (parseAction_text hreads)
  · exact handsAction_of_one (handed_unclosed hbefore hafter hopen) (parseAction_text hreads)

theorem FencedAction.hands (h : FencedAction output a b) : HandsAction output a b := by
  obtain ⟨before, tag, spaces, object, spaces', after, rfl, hbefore, hafter, htag, hspaces,
    hspaces', fields, hfields, hpair⟩ := h
  exact handsAction_of_one (handed_fenced hbefore hafter htag hspaces hspaces' hfields)
    (parseAction_obj hpair)

theorem yieldsAction_iff (llmResponse : List (LLMResultChunk υ)) :
    YieldsAction llmResponse a b ↔ HandsAction (outputOf llmResponse) a b := by
  have hfollows := handleReactStreamOutput_follows llmResponse
  rw [YieldsAction, HandsAction, no_exception_iff]
  refine and_congr_right fun husable => ?_
  rw [hfollows.actions husable]

/-- The text of an action with a brace in a string. -/
def bracedInput : List Char :=
  "\x7b\"action\": \"search\", \"action_input\": \"a \x7d b\"\x7d".toList

/-- The text of an object whose `action` is a number. -/
def numberedAction : List Char := "\x7b\"action\": 1, \"action_input\": \"a\"\x7d".toList

end PlatformSpec.Agent
